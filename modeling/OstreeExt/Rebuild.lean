import OstreeExt.Bins
import OstreeExt.Encapsulate

/-!
# Packing with a prior build

A build that follows another one keeps its bins: the names of the components of each layer
are read from the annotations of the prior manifest, what is gone is dropped, and what is new
goes to the last bin.  The bins are kept by name, while components are told apart by their
identifiers; `basicPacking_once_iff` says what that means for a single build, and
`rebuild_stable` what holds over any number of them.
-/

namespace OstreeExt

open Std Store

-- ── Names ─────────────────────────────────────────────────────────────────────

/-- The first component of this name: what `name_to_component` holds for it. -/
def componentNamed (components : Bin) (n : String) : Option ObjectSourceMetaSized :=
  components.find? (·.name = n)

theorem componentNamed_some {components : Bin} {n : String} {c : ObjectSourceMetaSized}
    (h : componentNamed components n = some c) : c ∈ components ∧ c.name = n :=
  ⟨List.mem_of_find?_eq_some h, by simpa using List.find?_some h⟩

theorem exists_componentNamed {components : Bin} {n : String}
    (h : n ∈ components.map (·.name)) : ∃ c, componentNamed components n = some c := by
  obtain ⟨c, hc, rfl⟩ := List.mem_map.mp h
  rw [← Option.isSome_iff_exists, componentNamed, List.find?_isSome]
  exact ⟨c, hc, by simp⟩

/-- Where names are distinct, each finds its component. -/
theorem componentNamed_name {components : Bin} (hnodup : (components.map (·.name)).Nodup)
    {c : ObjectSourceMetaSized} (hc : c ∈ components) :
    componentNamed components c.name = some c := by
  obtain ⟨c', hc'⟩ := exists_componentNamed (List.mem_map_of_mem hc)
  obtain ⟨hmem, hname⟩ := componentNamed_some hc'
  rw [hc', List.inj_on_of_nodup_map hnodup hmem hc hname]

/-- The components of these names. -/
def componentsNamed (components : Bin) (names : List String) : Bin :=
  names.filterMap (componentNamed components)

theorem binComponents_ok {components : Bin} {bin : List String}
    (h : ∀ n ∈ bin, n ≠ "" → n ∈ components.map (·.name)) :
    binComponents components bin = .ok (componentsNamed components (bin.filter (· ≠ ""))) := by
  have hall : ∀ (pick : String → Result ObjectSourceMetaSized),
      (∀ n c, components.find? (·.name = n) = some c → pick n = .ok c) →
      ∀ names : List String, (∀ n ∈ names, n ∈ components.map (·.name)) →
        names.mapM pick = .ok (componentsNamed components names) := by
    intro pick hpick names
    induction names with
    | nil => intro _; rfl
    | cons n names ih =>
        intro hnames
        obtain ⟨c, hc⟩ := exists_componentNamed (hnames n (List.mem_cons_self ..))
        rw [List.mapM_cons, hpick n c hc, bind_ok_eq,
          ih (fun m hm => hnames m (List.mem_cons_of_mem _ hm)), bind_ok_eq]
        show Except.ok (c :: componentsNamed components names) = _
        rw [componentsNamed, componentsNamed, List.filterMap_cons_some hc]
  refine hall _ (fun n c hc => ?_) _ (fun n hn => ?_)
  · rw [hc]
  · obtain ⟨hmem, hne⟩ := List.mem_filter.mp hn
    exact h n hmem (by simpa using hne)

-- ── The names of the bins ─────────────────────────────────────────────────────

theorem modifyLast_concat {α : Type} (f : α → α) (l : List α) (a : α) :
    modifyLast f (l ++ [a]) = l ++ [f a] := by
  induction l with
  | nil => rfl
  | cons b l ih =>
      cases l with
      | nil => rfl
      | cons c l =>
        rw [List.cons_append, List.cons_append, modifyLast, ← List.cons_append, ih]
        rfl

/-- The names of a bin that are still there. -/
def keptNames (components : Bin) (bin : List String) : List String :=
  bin.filter (fun n => n ≠ "" ∧ n ∈ components.map (·.name))

/-- The names that are new. -/
def addedNames (components : Bin) (prior : List (List String)) : List String :=
  (ExtTreeSet.ofList (components.map (·.name)) : ExtTreeSet String).toList.filter
    (fun n => n ∉ (ExtTreeSet.ofList prior.flatten : ExtTreeSet String).erase "")

/-- The names of the bins of the new build. -/
def rebuiltNames (components : Bin) (prior : List (List String)) : List (List String) :=
  modifyLast (· ++ addedNames components prior) (prior.map (keptNames components))

/-- The bins of the new build. -/
def rebuiltBins (components : Bin) (prior : List (List String)) : List Bin :=
  (rebuiltNames components prior).map (componentsNamed components)

section Names

variable {components : Bin} {prior : List (List String)}

theorem mem_erase_ofList {l : List String} {n : String} :
    n ∈ (ExtTreeSet.ofList l : ExtTreeSet String).erase "" ↔ n ≠ "" ∧ n ∈ l := by
  rw [ExtTreeSet.mem_erase, ExtTreeSet.mem_ofList, List.contains_iff_mem]
  refine and_congr_left (fun _ => ?_)
  rw [Ne, Std.compare_eq_iff_eq]
  exact ⟨fun h h' => h h'.symm, fun h h' => h h'.symm⟩

theorem mem_addedNames {n : String} : n ∈ addedNames components prior ↔
    n ∈ components.map (·.name) ∧ ¬ (n ≠ "" ∧ n ∈ prior.flatten) := by
  rw [addedNames, List.mem_filter, ExtTreeSet.mem_toList, ExtTreeSet.mem_ofList,
    List.contains_iff_mem, decide_eq_true_iff, mem_erase_ofList]

theorem addedNames_nodup : (addedNames components prior).Nodup := by
  refine List.Nodup.filter _ (List.Pairwise.imp ?_ ExtTreeSet.distinct_toList)
  rintro a b hab rfl
  exact hab Std.compare_self

theorem mem_keptNames {bin : List String} {n : String} : n ∈ keptNames components bin ↔
    n ∈ bin ∧ n ≠ "" ∧ n ∈ components.map (·.name) := by
  rw [keptNames, List.mem_filter, decide_eq_true_iff]

end Names

section Rebuild

variable {components : Bin} {binSize : Nat} {manifest : ImageManifest} {prior : List (List String)}

/-- The names that are gone. -/
def removedName (components : Bin) (prior : List (List String)) (n : String) : Bool :=
  n ∈ (ExtTreeSet.ofList prior.flatten : ExtTreeSet String).erase "" ∧
    n ∉ (ExtTreeSet.ofList (components.map (·.name)) : ExtTreeSet String)

theorem removedName_iff {n : String} : removedName components prior n = true ↔
    (n ≠ "" ∧ n ∈ prior.flatten) ∧ n ∉ components.map (·.name) := by
  rw [removedName, decide_eq_true_iff, mem_erase_ofList, ExtTreeSet.mem_ofList,
    List.contains_iff_mem]

/-- What a bin of the prior build holds after they were dropped. -/
theorem filter_removed {bin : List String} (hbin : ∀ n ∈ bin, n ∈ prior.flatten) :
    (bin.filter (fun n => ¬ removedName components prior n)).filter (· ≠ "")
      = keptNames components bin := by
  rw [List.filter_filter, keptNames]
  refine List.filter_congr (fun n hn => ?_)
  rw [Bool.eq_iff_iff, Bool.and_eq_true, decide_eq_true_iff, decide_eq_true_iff, decide_eq_true_iff,
    removedName_iff]
  constructor
  · rintro ⟨hempty, hnot⟩
    exact ⟨hempty, by_contra (fun h => hnot ⟨⟨hempty, hbin n hn⟩, h⟩)⟩
  · rintro ⟨hempty, hcurr⟩
    exact ⟨hempty, fun h => h.2 hcurr⟩

/-- The bins by name, as the code computes them. -/
def keptBuild (components : Bin) (prior : List (List String)) : List (List String) :=
  (modifyLast (fun b => b.filter (· ≠ "") ++ addedNames components prior) prior).map
    (fun b => b.filter (fun n => ¬ removedName components prior n))

/-- Without empty names: the old ones that are kept, and in the last bin the new ones. -/
theorem keptBuild_filter (hne : prior ≠ []) :
    (keptBuild components prior).map (fun b => b.filter (· ≠ ""))
      = modifyLast (· ++ (addedNames components prior).filter (· ≠ ""))
          (prior.map (keptNames components)) := by
  obtain ⟨init, last, rfl⟩ := List.eq_nil_or_concat' prior |>.resolve_left hne
  have hadded : (addedNames components (init ++ [last])).filter
      (fun n => ¬ removedName components (init ++ [last]) n)
      = addedNames components (init ++ [last]) := by
    refine List.filter_eq_self.mpr (fun n hn => ?_)
    rw [decide_eq_true_iff, removedName_iff]
    exact fun h => h.2 (mem_addedNames.mp hn).1
  have hlast : (last.filter (· ≠ "") |>.filter
      (fun n => ¬ removedName components (init ++ [last]) n)).filter (· ≠ "")
      = keptNames components last := by
    have hbin : ∀ n ∈ last, n ∈ (init ++ [last]).flatten := by
      intro n hn
      rw [List.flatten_append, List.flatten_singleton]
      exact List.mem_append_right _ hn
    rw [← filter_removed hbin, List.filter_filter, List.filter_filter, List.filter_filter]
    refine List.filter_congr (fun n _ => ?_)
    cases decide (n ≠ "") <;> simp
  rw [keptBuild, modifyLast_concat, List.map_append, List.map_append, List.map_append,
    List.map_singleton, List.map_singleton, List.map_singleton, modifyLast_concat]
  congr 1
  · rw [List.map_map]
    refine List.map_congr_left (fun b hb => ?_)
    exact filter_removed (fun n hn => List.mem_flatten.mpr ⟨b, by simp [hb], hn⟩)
  · rw [List.filter_append, hadded, List.filter_append, hlast]

/-- Where no component has an empty name, they are the rebuilt ones. -/
theorem keptBuild_eq (hnames : ∀ c ∈ components, c.name ≠ "") (hne : prior ≠ []) :
    (keptBuild components prior).map (fun b => b.filter (· ≠ "")) = rebuiltNames components prior := by
  have hadded : (addedNames components prior).filter (· ≠ "") = addedNames components prior := by
    refine List.filter_eq_self.mpr (fun n hn => ?_)
    obtain ⟨c, hc, rfl⟩ := List.mem_map.mp (mem_addedNames.mp hn).1
    exact decide_eq_true (hnames c hc)
  rw [keptBuild_filter hne, hadded, rebuiltNames]

/-- All names, when the last bin gets some more. -/
theorem flatten_modifyLast_kept (hne : prior ≠ []) (names : List String) :
    (modifyLast (· ++ names) (prior.map (keptNames components))).flatten
      = keptNames components prior.flatten ++ names := by
  obtain ⟨init, last, rfl⟩ := List.eq_nil_or_concat' prior |>.resolve_left hne
  rw [List.map_append, List.map_singleton, modifyLast_concat, List.flatten_append,
    List.flatten_singleton, ← List.append_assoc, List.flatten_append, List.flatten_singleton]
  congr 1
  show _ = List.filter _ (init.flatten ++ last)
  rw [List.filter_append, List.filter_flatten]
  rfl

/-- All names of a rebuild: the old ones that are kept, and then the new ones. -/
theorem rebuiltNames_flatten (hne : prior ≠ []) : (rebuiltNames components prior).flatten
    = keptNames components prior.flatten ++ addedNames components prior :=
  flatten_modifyLast_kept hne _

theorem mem_rebuiltNames (hnames : ∀ c ∈ components, c.name ≠ "") (hne : prior ≠ []) {n : String} :
    n ∈ (rebuiltNames components prior).flatten ↔ n ∈ components.map (·.name) := by
  rw [rebuiltNames_flatten hne, List.mem_append, mem_keptNames, mem_addedNames]
  constructor
  · rintro (⟨_, _, h⟩ | ⟨h, _⟩)
    · exact h
    · exact h
  · intro h
    obtain ⟨c, hc, rfl⟩ := List.mem_map.mp h
    by_cases hold : c.name ∈ prior.flatten
    · exact .inl ⟨hold, hnames c hc, h⟩
    · exact .inr ⟨h, fun h' => hold h'.2⟩

/-- The bins that a rebuild puts out. -/
def keptBins (components : Bin) (prior : List (List String)) : List Bin :=
  (keptBuild components prior).map (fun b => componentsNamed components (b.filter (· ≠ "")))

/-- A name that is left and not empty is that of a component. -/
theorem name_of_keptBuild (hne : prior ≠ []) {b : List String} (hb : b ∈ keptBuild components prior)
    {n : String} (hn : n ∈ b) (hempty : n ≠ "") : n ∈ components.map (·.name) := by
  have hmem : n ∈ ((keptBuild components prior).map (fun b => b.filter (· ≠ ""))).flatten :=
    List.mem_flatten.mpr ⟨_, List.mem_map_of_mem hb,
      List.mem_filter.mpr ⟨hn, decide_eq_true hempty⟩⟩
  rw [keptBuild_filter hne, flatten_modifyLast_kept hne, List.mem_append] at hmem
  rcases hmem with hmem | hmem
  · exact (mem_keptNames.mp hmem).2.2
  · exact (mem_addedNames.mp (List.mem_filter.mp hmem).1).1

/-- **What a rebuild does**, up to its assertions. -/
theorem withPriorBuild_run
    (hprior : (manifest.layers.drop 1).mapM priorLayerComponents = .ok prior) (hne : prior ≠ []) :
    basicPackingWithPriorBuild components binSize manifest =
      if ((keptBins components prior).map List.length).sum ≠ components.length then
        .error (.panic "assertion `left == right` failed")
      else if binSize < (keptBins components prior).length then
        .error (.panic "assertion failed: modified_build.len() <= bin_size.get() as usize")
      else .ok (keptBins components prior) := by
  have hbins : (keptBuild components prior).mapM (binComponents components)
      = .ok (keptBins components prior) :=
    mapM_ok (fun b hb => binComponents_ok (fun n hn hempty => name_of_keptBuild hne hb hn hempty))
  rw [basicPackingWithPriorBuild, hprior, bind_ok_eq]
  dsimp only
  rw [if_neg (by simpa using hne)]
  show ((keptBuild components prior).mapM (binComponents components) >>= _) = _
  rw [hbins, bind_ok_eq]

/-- Where no component has an empty name, these are the rebuilt bins. -/
theorem withPriorBuild_eq (hnames : ∀ c ∈ components, c.name ≠ "")
    (hprior : (manifest.layers.drop 1).mapM priorLayerComponents = .ok prior) (hne : prior ≠ []) :
    basicPackingWithPriorBuild components binSize manifest =
      if ((rebuiltBins components prior).map List.length).sum ≠ components.length then
        .error (.panic "assertion `left == right` failed")
      else if binSize < (rebuiltBins components prior).length then
        .error (.panic "assertion failed: modified_build.len() <= bin_size.get() as usize")
      else .ok (rebuiltBins components prior) := by
  have hbins : keptBins components prior = rebuiltBins components prior := by
    rw [rebuiltBins, ← keptBuild_eq hnames hne, List.map_map]
    rfl
  rw [withPriorBuild_run hprior hne, hbins]

theorem rebuiltBins_flatten :
    (rebuiltBins components prior).flatten
      = componentsNamed components (rebuiltNames components prior).flatten := by
  rw [rebuiltBins, componentsNamed, List.filterMap_flatten]
  rfl

/-- A rebuild holds the first component of each name, and nothing else. -/
theorem mem_rebuiltBins (hnames : ∀ c ∈ components, c.name ≠ "") (hne : prior ≠ [])
    {c : ObjectSourceMetaSized} : c ∈ (rebuiltBins components prior).flatten ↔
      c ∈ components ∧ componentNamed components c.name = some c := by
  rw [rebuiltBins_flatten, componentsNamed, List.mem_filterMap]
  constructor
  · rintro ⟨n, _, hn⟩
    obtain ⟨hc, rfl⟩ := componentNamed_some hn
    exact ⟨hc, hn⟩
  · rintro ⟨hc, hn⟩
    exact ⟨c.name, (mem_rebuiltNames hnames hne).mpr (List.mem_map_of_mem hc), hn⟩

/-- What a successful rebuild consists of. -/
theorem withPriorBuild_eq_ok (hnames : ∀ c ∈ components, c.name ≠ "") {r : List Bin}
    (h : basicPackingWithPriorBuild components binSize manifest = .ok r) :
    ∃ prior, (manifest.layers.drop 1).mapM priorLayerComponents = .ok prior ∧ prior ≠ [] ∧
      r = rebuiltBins components prior ∧ r.flatten.length = components.length := by
  obtain ⟨prior, hprior, _⟩ := result_bind_eq_ok.mp h
  by_cases hne : prior = []
  · rw [basicPackingWithPriorBuild, hprior, bind_ok_eq] at h
    dsimp only at h
    rw [if_pos (by rw [hne]; rfl)] at h
    exact absurd h (by simp)
  · rw [withPriorBuild_eq hnames hprior hne] at h
    split at h
    · exact absurd h (by simp)
    split at h
    · exact absurd h (by simp)
    rename_i hsum _
    obtain rfl := Except.ok.inj h
    refine ⟨prior, hprior, hne, rfl, ?_⟩
    rw [List.length_flatten]
    exact not_not.mp hsum

end Rebuild

-- ── One rebuild ───────────────────────────────────────────────────────────────

/-- **When a rebuild packs every component exactly once**: the bins are kept by name, so the
    names have to be distinct. -/
theorem basicPacking_once_iff {st : Statistics} {fuel binSize : Nat} {components : Bin}
    {manifest : ImageManifest} {r : List Bin} (hids : (components.map (·.identifier)).Nodup)
    (hnames : ∀ c ∈ components, c.name ≠ "")
    (h : basicPacking st fuel components binSize (some manifest) = .ok r) :
    (∀ c ∈ components, r.flatten.count c = 1) ↔ (components.map (·.name)).Nodup := by
  have hsize := minChunkedLayers_le h
  rw [basicPacking, if_neg (Nat.not_lt.mpr hsize)] at h
  obtain ⟨prior, _, hne, rfl, hlen⟩ := withPriorBuild_eq_ok hnames h
  have hnodup : components.Nodup := .of_map _ hids
  constructor
  · intro honce
    refine List.Nodup.map_on (fun a ha b hb hab => ?_) hnodup
    have hfirst : ∀ c ∈ components, componentNamed components c.name = some c := by
      intro c hc
      have hmem : c ∈ (rebuiltBins components prior).flatten :=
        List.count_pos_iff.mp (by rw [honce c hc]; exact Nat.one_pos)
      exact ((mem_rebuiltBins hnames hne).mp hmem).2
    have hab' := hfirst a ha
    rw [hab, hfirst b hb] at hab'
    exact (Option.some.inj hab').symm
  · intro hdistinct c hc
    have hsub : components ⊆ (rebuiltBins components prior).flatten := fun c hc =>
      (mem_rebuiltBins hnames hne).mpr ⟨hc, componentNamed_name hdistinct hc⟩
    have hperm : components.Perm (rebuiltBins components prior).flatten :=
      (hnodup.subperm hsub).perm_of_length_le (Nat.le_of_eq hlen)
    rw [← hperm.count_eq]
    exact List.count_eq_one_of_mem hnodup hc

-- ── The annotations ───────────────────────────────────────────────────────────

/-- **The manifest of a build**: after the commit layer, one layer for each bin with the names
    of its components. -/
def ExportedAs (manifest : ImageManifest) (bins : List Bin) : Prop :=
  ∃ first layers, manifest.layers = first :: layers ∧
    layers.map (·.annotations) = bins.map fun bin => some (componentsMap (bin.map (·.name)))

/-- The names that are read from the annotation of a bin. -/
def decodedNames (bin : Bin) : List String :=
  if bin = [] then [""] else (bin.map (·.name)).mergeSort (· ≤ ·)

theorem toList_intercalate (c : Char) (l : List String) :
    (String.intercalate c.toString l).toList = joinChar c (l.map String.toList) := by
  induction l with
  | nil => rw [String.intercalate_nil]; rfl
  | cons s l ih =>
      cases l with
      | nil => rw [String.intercalate_singleton]; rfl
      | cons t l =>
          have hsep : c.toString.toList = [c] := by simp
          rw [String.intercalate_cons_cons, String.toList_append, String.toList_append, ih, hsep,
            List.append_assoc]
          rfl

/-- An empty bin reads as one empty name, any other one as its names. -/
theorem splitComponents_componentsText {bin : Bin}
    (h : ∀ c ∈ bin, componentSeparator ∉ c.name.toList) :
    splitComponents (componentsText (bin.map (·.name))) = decodedNames bin := by
  rw [splitComponents, componentsText, toList_intercalate, decodedNames]
  cases bin with
  | nil =>
      rw [if_pos rfl, List.map_nil, List.mergeSort_nil]
      rfl
  | cons c bin =>
      rw [if_neg (by simp), splitChar_joinChar]
      · rw [List.map_map]
        refine (List.map_congr_left (fun n _ => ?_)).trans (List.map_id _)
        exact String.ofList_toList
      · intro hnil
        have hlen := congrArg List.length hnil
        rw [List.length_map, List.length_mergeSort] at hlen
        exact absurd hlen (by simp)
      · intro p hp
        obtain ⟨n, hn, rfl⟩ := List.mem_map.mp hp
        rw [List.mem_mergeSort] at hn
        obtain ⟨d, hd, rfl⟩ := List.mem_map.mp hn
        exact h d hd

theorem mem_decodedNames {bin : Bin} {n : String} (hn : n ≠ "") :
    n ∈ decodedNames bin ↔ n ∈ bin.map (·.name) := by
  rw [decodedNames]
  by_cases h : bin = []
  · rw [if_pos h, h]
    simp [hn]
  · rw [if_neg h, List.mem_mergeSort]

/-- What a rebuild reads from the manifest of a build. -/
theorem priorLayers_exported {manifest : ImageManifest} {bins : List Bin}
    (h : ExportedAs manifest bins)
    (hcomma : ∀ bin ∈ bins, ∀ c ∈ bin, componentSeparator ∉ c.name.toList) :
    (manifest.layers.drop 1).mapM priorLayerComponents = .ok (bins.map decodedNames) := by
  obtain ⟨first, layers, hlayers, hannotations⟩ := h
  rw [hlayers]
  show layers.mapM priorLayerComponents = _
  clear hlayers
  induction layers generalizing bins with
  | nil =>
      obtain rfl := List.map_eq_nil_iff.mp hannotations.symm
      rfl
  | cons layer layers ih =>
      cases bins with
      | nil => exact absurd hannotations (by simp)
      | cons bin bins =>
          obtain ⟨hlayer, hrest⟩ := List.cons.inj hannotations
          have hlayer : layer.annotations = some (componentsMap (bin.map (·.name))) := hlayer
          have hread : priorLayerComponents layer = .ok (decodedNames bin) := by
            have hlookup : (componentsMap (bin.map (·.name)))[contentAnnotationKey]?
                = some (componentsText (bin.map (·.name))) := by
              rw [componentsMap, ExtTreeMap.lookup_insert, if_pos rfl]
            rw [priorLayerComponents, hlayer, Option.bind_some, hlookup, okOr_some, bind_ok_eq,
              splitComponents_componentsText (hcomma bin (List.mem_cons_self ..))]
          rw [List.mapM_cons, hread, bind_ok_eq,
            ih (fun b hb => hcomma b (List.mem_cons_of_mem _ hb)) hrest]
          rfl

-- ── What an export writes ─────────────────────────────────────────────────────

/-- Each bin becomes a chunk with the names of its components. -/
theorem foldlM_packBin_packages {contentmeta : ObjectMetaSized} {bins : List Bin} {k k' : Chunking}
    (h : bins.foldlM (packBin contentmeta) k = .ok k') :
    k'.chunks.map (·.packages) = k.chunks.map (·.packages) ++ bins.map (·.map (·.name)) := by
  induction bins generalizing k with
  | nil =>
      obtain rfl := Except.ok.inj h
      exact (List.append_nil _).symm
  | cons bin bins ih =>
      rw [List.foldlM_cons] at h
      obtain ⟨k₁, hbin, h⟩ := result_bind_eq_ok.mp h
      obtain ⟨objs, hobjs, _⟩ := result_bind_eq_ok.mp hbin
      rw [packBin_ok hobjs k rfl] at hbin
      obtain rfl := Except.ok.inj hbin
      rw [ih h, List.map_append, List.map_singleton, (moveObjs_label _ _ _).2,
        List.append_assoc]
      rfl

/-- The layers that an export appends carry the names of the chunks. -/
theorem exportChunked_annotations {lib : Libostree} {tar : Tar.TarCrate} {blobs : BlobWriter}
    {repo : Repo} {fuel : Nat} {c : Checksum} {image image' : ImageManifest × ImageConfiguration}
    {labels labels' : StrMap} {k : Chunking} {description : String}
    (h : exportChunked lib tar blobs repo fuel c image labels k description = .ok (image', labels')) :
    ∃ first layers, image'.1.layers = image.1.layers ++ first :: layers ∧
      layers.map (·.annotations) = k.chunks.map fun chunk => some (componentsMap chunk.packages) := by
  obtain ⟨layers, hlayers, h⟩ := result_bind_eq_ok.mp h
  obtain ⟨es, _, h⟩ := result_bind_eq_ok.mp h
  obtain ⟨rfl, _⟩ := Prod.mk.inj (Except.ok.inj h)
  refine ⟨(blobs.layer es).descriptor none, descriptors (layers.map componentPart), ?_, ?_⟩
  · rw [(foldl_pushComponent layers _).1]
    show (image.1.layers ++ [_]) ++ _ = _
    rw [List.append_assoc]
    rfl
  · have hpackages : ∀ {chunks : List Chunk} {layers : List (Layer × String × List String)},
        exportChunks lib tar blobs repo c chunks = .ok layers →
        layers.map (·.2.2) = chunks.map (·.packages) := by
      intro chunks
      induction chunks with
      | nil =>
          intro layers h
          obtain rfl := Except.ok.inj h
          rfl
      | cons chunk chunks ih =>
          intro layers h
          rw [exportChunks, List.mapM_cons] at h
          obtain ⟨l, hl, h⟩ := result_bind_eq_ok.mp h
          obtain ⟨ls, hls, h⟩ := result_bind_eq_ok.mp h
          obtain ⟨es, _, hl⟩ := result_bind_eq_ok.mp hl
          obtain rfl := Except.ok.inj hl
          obtain rfl := Except.ok.inj h
          rw [List.map_cons, List.map_cons, ih hls]
    have hsome := congrArg (List.map (fun packages => some (componentsMap packages)))
      (hpackages hlayers)
    rw [List.map_map, List.map_map] at hsome
    rw [descriptors, List.map_map, List.map_map]
    exact hsome

/-- **An export of a packing is the manifest that the next build reads.** -/
theorem exportedAs_export {st : Statistics} {rounds : Nat} {k₀ k : Chunking}
    {contentmeta : ObjectMetaSized} {maxLayers : Option Nat} {prior : Option ImageManifest}
    {bins : List Bin} (hfresh : k₀.chunks = [])
    (hpack : basicPacking st rounds contentmeta.sizes (maxLayers.getD maxChunks) prior = .ok bins)
    (hk : k₀.processMapping st rounds contentmeta maxLayers prior = .ok k)
    {lib : Libostree} {tar : Tar.TarCrate} {blobs : BlobWriter} {repo : Repo} {fuel : Nat}
    {c : Checksum} {image image' : ImageManifest × ImageConfiguration} {labels labels' : StrMap}
    {description : String} (hempty : image.1.layers = [])
    (h : exportChunked lib tar blobs repo fuel c image labels k description = .ok (image', labels')) :
    ExportedAs image'.1 bins := by
  have hsize := minChunkedLayers_le hpack
  have hfour : minChunkedLayers = 4 := rfl
  have hpackages : k.chunks.map (·.packages) = bins.map (·.map (·.name)) := by
    have hmax : maxLayers.getD maxChunks - k₀.chunks.length ≠ 0 := by
      rw [hfresh, List.length_nil]
      omega
    obtain ⟨_, _, packing, hpacking, hfold⟩ := processMapping_inv hmax hk
    obtain rfl : bins = packing := Except.ok.inj (hpack.symm.trans hpacking)
    have hmap := foldlM_packBin_packages hfold
    rw [hfresh] at hmap
    exact hmap
  obtain ⟨first, layers, hlayers, hannotations⟩ := exportChunked_annotations h
  refine ⟨first, layers, by rw [hlayers, hempty]; rfl, ?_⟩
  have hsome := congrArg (List.map (fun packages => some (componentsMap packages))) hpackages
  rw [List.map_map, List.map_map] at hsome
  exact hannotations.trans hsome

-- ── Chains of builds ──────────────────────────────────────────────────────────

/-- Names that a build can be kept by. -/
structure Named (components : Bin) : Prop where
  nodup : (components.map (·.name)).Nodup
  nonempty : ∀ c ∈ components, c.name ≠ ""
  noSeparator : ∀ c ∈ components, componentSeparator ∉ c.name.toList

theorem Named.of_perm {components components' : Bin} (h : Named components)
    (hperm : components'.Perm components) : Named components' where
  nodup := (hperm.map _).nodup_iff.mpr h.nodup
  nonempty c hc := h.nonempty c (hperm.mem_iff.mp hc)
  noSeparator c hc := h.noSeparator c (hperm.mem_iff.mp hc)

section Stable

variable {components : Bin} {bins : List Bin}

/-- The names that are read are those of the bins, but for the empty one. -/
theorem decodedNames_perm (hnames : ∀ c ∈ bins.flatten, c.name ≠ "") :
    ((bins.map decodedNames).flatten.filter (· ≠ "")).Perm (bins.flatten.map (·.name)) := by
  induction bins with
  | nil => exact .nil
  | cons bin bins ih =>
      have hbin : ((decodedNames bin).filter (· ≠ "")).Perm (bin.map (·.name)) := by
        rw [decodedNames]
        by_cases h : bin = []
        · rw [if_pos h, h]
          exact .nil
        · rw [if_neg h]
          refine ((List.mergeSort_perm _ _).filter _).trans (.of_eq (List.filter_eq_self.mpr ?_))
          intro n hn
          obtain ⟨c, hc, rfl⟩ := List.mem_map.mp hn
          exact decide_eq_true (hnames c (by simp [hc]))
      rw [List.map_cons, List.flatten_cons, List.filter_append, List.flatten_cons, List.map_append]
      exact hbin.append (ih (fun c hc => hnames c (by rw [List.flatten_cons]; simp [hc])))

/-- **A rebuild of a well-named build** is a partition of the new components. -/
theorem rebuiltBins_perm (hprior : Named bins.flatten) (hnamed : Named components) (hne : bins ≠ []) :
    (rebuiltBins components (bins.map decodedNames)).flatten.Perm components := by
  have hne' : bins.map decodedNames ≠ [] := by simpa using hne
  have hnodup : (rebuiltNames components (bins.map decodedNames)).flatten.Nodup := by
    rw [rebuiltNames_flatten hne', List.nodup_append]
    refine ⟨?_, addedNames_nodup, ?_⟩
    · -- the kept names are among those of the prior build
      have hold : ((bins.map decodedNames).flatten.filter (· ≠ "")).Nodup :=
        (decodedNames_perm hprior.nonempty).nodup_iff.mpr hprior.nodup
      have hkept : keptNames components (bins.map decodedNames).flatten
          = ((bins.map decodedNames).flatten.filter (· ≠ "")).filter
            (fun n => n ∈ components.map (·.name)) := by
        rw [List.filter_filter, keptNames]
        refine List.filter_congr (fun n _ => ?_)
        rw [Bool.eq_iff_iff, Bool.and_eq_true, decide_eq_true_iff, decide_eq_true_iff,
          decide_eq_true_iff, and_comm]
      rw [hkept]
      exact hold.filter _
    · rintro n hkept m hadded rfl
      obtain ⟨hold, hempty, _⟩ := mem_keptNames.mp hkept
      exact (mem_addedNames.mp hadded).2 ⟨hempty, hold⟩
  have hnames : (rebuiltNames components (bins.map decodedNames)).flatten.Perm
      (components.map (·.name)) :=
    (List.perm_ext_iff_of_nodup hnodup hnamed.nodup).mpr
      (fun n => mem_rebuiltNames hnamed.nonempty hne')
  have hself : componentsNamed components (components.map (·.name)) = components := by
    rw [componentsNamed, List.filterMap_map]
    refine (List.filterMap_congr (fun c hc => ?_)).trans List.filterMap_some
    exact componentNamed_name hnamed.nodup hc
  rw [rebuiltBins_flatten]
  exact (hnames.filterMap _).trans (.of_eq hself)

theorem rebuiltBins_length (components : Bin) (bins : List Bin) :
    (rebuiltBins components (bins.map decodedNames)).length = bins.length := by
  rcases List.eq_nil_or_concat' bins with rfl | ⟨init, last, rfl⟩
  · rfl
  · rw [rebuiltBins, rebuiltNames, List.map_append, List.map_append, List.map_singleton,
      List.map_singleton, modifyLast_concat]
    simp

/-- A bin of the rebuild holds the kept names of the bin at its place. -/
theorem keptNames_sub {j : Nat} {bin : Bin} (hbin : bins[j]? = some bin) :
    ∃ names, (rebuiltNames components (bins.map decodedNames))[j]? = some names ∧
      ∀ n ∈ keptNames components (decodedNames bin), n ∈ names := by
  obtain ⟨init, last, rfl⟩ := (List.eq_nil_or_concat' bins).resolve_left
    (fun h => by rw [h] at hbin; exact absurd hbin (by simp))
  rw [rebuiltNames, List.map_append, List.map_append, List.map_singleton, List.map_singleton,
    modifyLast_concat]
  by_cases hj : j < init.length
  · rw [List.getElem?_append_left hj] at hbin
    refine ⟨keptNames components (decodedNames bin), ?_, fun n hn => hn⟩
    rw [List.getElem?_append_left (by simpa using hj), List.getElem?_map, List.getElem?_map, hbin]
    rfl
  · rw [List.getElem?_append_right (Nat.not_lt.mp hj)] at hbin
    obtain ⟨hzero, hlast⟩ := List.getElem?_eq_some_iff.mp hbin
    have hj' : j = init.length := by
      rw [List.length_singleton] at hzero
      omega
    subst hj'
    have hlast : last = bin := by simpa using hlast
    subst hlast
    refine ⟨keptNames components (decodedNames last)
      ++ addedNames components ((init ++ [last]).map decodedNames), ?_, fun n hn => by simp [hn]⟩
    rw [List.getElem?_append_right (by simp)]
    simp

end Stable

/-- **A chain of builds** with this many bins: the first one without a prior, each later one
    with the manifest of the one before. -/
inductive Builds (binSize n : Nat) : List Bin → Prop where
  | first {st : Statistics} {fuel : Nat} {components : Bin} {r : List Bin} :
      components ≠ [] → Named components → basicPacking st fuel components binSize none = .ok r →
      r.length = n → Builds binSize n r
  | next {st : Statistics} {fuel : Nat} {components : Bin} {manifest : ImageManifest}
      {prior r : List Bin} :
      Builds binSize n prior → ExportedAs manifest prior → Named components →
      basicPacking st fuel components binSize (some manifest) = .ok r → Builds binSize n r

/-- What every build of a chain provides to the next one. -/
structure Keepable (binSize n : Nat) (bins : List Bin) : Prop where
  size : minChunkedLayers ≤ binSize
  length : bins.length = n
  nonempty : bins ≠ []
  bounded : bins.length ≤ binSize
  named : Named bins.flatten

/-- **One rebuild** of a build that can be kept. -/
theorem Keepable.rebuild {binSize n : Nat} {bins : List Bin} (h : Keepable binSize n bins)
    {manifest : ImageManifest} (hexport : ExportedAs manifest bins) {components : Bin}
    (hnamed : Named components) (st : Statistics) (fuel : Nat) :
    basicPacking st fuel components binSize (some manifest)
      = .ok (rebuiltBins components (bins.map decodedNames)) := by
  have hcomma : ∀ bin ∈ bins, ∀ c ∈ bin, componentSeparator ∉ c.name.toList :=
    fun bin hbin c hc => h.named.noSeparator c (List.mem_flatten.mpr ⟨bin, hbin, hc⟩)
  have hsum : ((rebuiltBins components (bins.map decodedNames)).map List.length).sum
      = components.length := by
    rw [← List.length_flatten, (rebuiltBins_perm h.named hnamed h.nonempty).length_eq]
  have hbound := h.bounded
  rw [basicPacking, if_neg (Nat.not_lt.mpr h.size), withPriorBuild_eq hnamed.nonempty (priorLayers_exported hexport hcomma)
      (by simpa using h.nonempty), if_neg (fun hne => hne hsum), rebuiltBins_length,
    if_neg (by omega)]

/-- Every build of a chain can be kept. -/
theorem Builds.keepable {binSize n : Nat} {bins : List Bin} (h : Builds binSize n bins) :
    Keepable binSize n bins := by
  induction h with
  | @first st fuel components r hne hnamed hpack hlen =>
      refine ⟨minChunkedLayers_le hpack, hlen, ?_, basicPacking_length hpack,
        hnamed.of_perm (basicPacking_perm hpack)⟩
      rintro rfl
      exact absurd (basicPacking_reserved hpack hne) (by simp)
  | @next st fuel components manifest prior r _ hexport hnamed hpack ih =>
      rw [ih.rebuild hexport hnamed] at hpack
      obtain rfl := Except.ok.inj hpack
      have hlen := rebuiltBins_length components prior
      refine ⟨ih.size, hlen.trans ih.length, ?_, by rw [hlen]; exact ih.bounded,
        hnamed.of_perm (rebuiltBins_perm ih.named hnamed ih.nonempty)⟩
      intro hnil
      rw [hnil] at hlen
      exact ih.nonempty (List.length_eq_zero_iff.mp hlen.symm)

/-- **Packing is stable over chains of builds.** -/
theorem rebuild_stable {binSize n : Nat} {prior : List Bin} (hbuilds : Builds binSize n prior)
    {manifest : ImageManifest} (hexport : ExportedAs manifest prior) {components : Bin}
    (hnamed : Named components) (st : Statistics) (fuel : Nat) :
    ∃ r, basicPacking st fuel components binSize (some manifest) = .ok r ∧ r.length = n ∧
      r.flatten.Perm components ∧ (∀ c ∈ components, r.flatten.count c = 1) ∧
      (∀ c ∈ components, ∀ (j : Nat) (bin : Bin), prior[j]? = some bin → c.name ∈ bin.map (·.name) →
        ∃ bin', r[j]? = some bin' ∧ c ∈ bin') ∧
      (∀ c ∈ components, c.name ∉ prior.flatten.map (·.name) →
        ∃ bin', r.getLast? = some bin' ∧ c ∈ bin') := by
  have hkeep := hbuilds.keepable
  have hperm := rebuiltBins_perm hkeep.named hnamed hkeep.nonempty
  refine ⟨_, hkeep.rebuild hexport hnamed st fuel,
    (rebuiltBins_length components prior).trans hkeep.length, hperm, ?_, ?_, ?_⟩
  · intro c hc
    rw [hperm.count_eq]
    exact List.count_eq_one_of_mem (.of_map _ hnamed.nodup) hc
  · intro c hc j bin hbin hname
    obtain ⟨names, hnames, hsub⟩ := @keptNames_sub components prior j bin hbin
    refine ⟨componentsNamed components names, ?_, ?_⟩
    · rw [rebuiltBins, List.getElem?_map, hnames]
      rfl
    · refine List.mem_filterMap.mpr ⟨c.name, hsub _ ?_, componentNamed_name hnamed.nodup hc⟩
      exact mem_keptNames.mpr ⟨(mem_decodedNames (hnamed.nonempty c hc)).mpr hname,
        hnamed.nonempty c hc, List.mem_map_of_mem hc⟩
  · intro c hc hnew
    obtain ⟨init, last, rfl⟩ := (List.eq_nil_or_concat' prior).resolve_left hkeep.nonempty
    have hadded : c.name ∈ addedNames components ((init ++ [last]).map decodedNames) := by
      refine mem_addedNames.mpr ⟨List.mem_map_of_mem hc, ?_⟩
      rintro ⟨hempty, hold⟩
      obtain ⟨names, hnames, hin⟩ := List.mem_flatten.mp hold
      obtain ⟨bin, hbin, rfl⟩ := List.mem_map.mp hnames
      obtain ⟨d, hd, hname⟩ := List.mem_map.mp ((mem_decodedNames hempty).mp hin)
      exact hnew (hname ▸ List.mem_map_of_mem (List.mem_flatten.mpr ⟨bin, hbin, hd⟩))
    refine ⟨componentsNamed components (keptNames components (decodedNames last)
      ++ addedNames components ((init ++ [last]).map decodedNames)), ?_, ?_⟩
    · rw [rebuiltBins, rebuiltNames, List.map_append, List.map_append, List.map_singleton,
        List.map_singleton, modifyLast_concat, List.map_append, List.map_singleton]
      exact List.getLast?_concat ..
    · exact List.mem_filterMap.mpr ⟨c.name, List.mem_append_right _ hadded,
        componentNamed_name hnamed.nodup hc⟩

-- ── Two builds ────────────────────────────────────────────────────────────────

/-- A layer for a bin. -/
def binLayer (bin : Bin) : Descriptor where
  mediaType := .imageLayerGzip
  digest := "sha256:" ++ tallySum 2
  size := 1
  annotations := some (componentsMap (bin.map (·.name)))

/-- A manifest for these bins. -/
def manifestOf (bins : List Bin) : ImageManifest where
  config := { mediaType := .imageConfig, digest := "sha256:" ++ tallySum 0, size := 2 }
  layers := { mediaType := .imageLayerGzip, digest := "sha256:" ++ tallySum 1, size := 1 } ::
    bins.map binLayer

theorem exportedAs_manifestOf (bins : List Bin) : ExportedAs (manifestOf bins) bins := by
  refine ⟨_, _, rfl, ?_⟩
  rw [List.map_map]
  rfl

/-- The first build. -/
theorem builds_mostlyMaxFreq :
    Builds 4 3 [mostlyMaxFreq.take 1, mostlyMaxFreq.drop 1, []] := by
  have hpack : basicPacking exactStatistics 0 mostlyMaxFreq 4 none
      = .ok [mostlyMaxFreq.take 1, mostlyMaxFreq.drop 1, []] := by decide +kernel
  exact .first (by simp [mostlyMaxFreq]) ⟨by decide, by decide, by decide⟩ hpack rfl

/-- The components of the next one: one is gone, and one is new. -/
def nextComponents : Bin :=
  { identifier := "bash", name := "bash", changeFrequency := 3, size := 50 } :: mostlyMaxFreq.drop 1

theorem named_nextComponents : Named nextComponents := ⟨by decide, by decide, by decide⟩

/-- The new component goes to the reserved bin. -/
theorem nextComponents_stable : ∃ r, basicPacking exactStatistics 0 nextComponents 4
    (some (manifestOf [mostlyMaxFreq.take 1, mostlyMaxFreq.drop 1, []])) = .ok r ∧ r.length = 3 ∧
    ∃ bin, r.getLast? = some bin ∧
      { identifier := "bash", name := "bash", changeFrequency := 3, size := 50 } ∈ bin := by
  obtain ⟨r, hrun, hlen, _, _, _, hnew⟩ := rebuild_stable builds_mostlyMaxFreq
    (exportedAs_manifestOf _) named_nextComponents exactStatistics 0
  exact ⟨r, hrun, hlen, hnew _ (List.mem_cons_self ..) (by decide)⟩

/-- Its names are distinct, so each of its components is packed once. -/
theorem nextComponents_once : ∃ r, basicPacking exactStatistics 0 nextComponents 4
    (some (manifestOf [mostlyMaxFreq.take 1, mostlyMaxFreq.drop 1, []])) = .ok r ∧
    ∀ c ∈ nextComponents, r.flatten.count c = 1 := by
  have hrun := builds_mostlyMaxFreq.keepable.rebuild (exportedAs_manifestOf _) named_nextComponents
    exactStatistics 0
  exact ⟨_, hrun, (basicPacking_once_iff (by decide) (by decide) hrun).mpr named_nextComponents.nodup⟩

/-- One package for two architectures. -/
def multilib : Bin :=
  [{ identifier := "glibc.x86_64", name := "glibc", changeFrequency := 7, size := 200 },
   { identifier := "glibc.i686", name := "glibc", changeFrequency := 7, size := 100 }]

/-- Built twice, the first of the two is packed twice and the second is lost. -/
theorem multilib_not_once :
    (multilib.map (·.identifier)).Nodup ∧
    (∀ c ∈ multilib, c.name ≠ "" ∧ componentSeparator ∉ c.name.toList) ∧
    ∃ packing r, basicPacking exactStatistics 0 multilib 4 none = .ok packing ∧
      basicPacking exactStatistics 0 multilib 4 (some (manifestOf packing)) = .ok r ∧
      ¬ ∀ c ∈ multilib, r.flatten.count c = 1 := by
  refine ⟨by decide, by decide, [multilib.take 1, multilib.drop 1, []],
    [multilib.take 1, multilib.take 1, []], by decide +kernel, by decide +kernel, by decide⟩

end OstreeExt
