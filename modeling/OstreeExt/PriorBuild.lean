import Mathlib.Algebra.BigOperators.Group.Finset.Piecewise
import OstreeExt.Rebuild

/-!
# Which prior builds can be followed

`basic_packing_with_prior_build` checks one thing about the prior manifest, that its layers
are annotated, and asserts the rest: that there is a layer for new components, that the bins
fit, and that as many components come out as went in.  A component is put out once for each
time its name occurs in the prior layers, so the last assertion is about these counts
(`Matched`).  `basicPacking_prior_returns_iff` says for which manifests none of the
assertions fails.
-/

namespace OstreeExt

open Std Store

-- ── Names of the prior layers ─────────────────────────────────────────────────

/-- The `ostree.components` annotation of a layer. -/
def annotatedComponents (layer : Descriptor) : Option String :=
  layer.annotations.bind (·[contentAnnotationKey]?)

/-- All names in the annotations behind the first layer. -/
def priorNames (manifest : ImageManifest) : List String :=
  ((manifest.layers.drop 1).filterMap annotatedComponents).flatMap splitComponents

/-- The names of the components, without the empty name. -/
def currNames (components : Bin) : Finset String := ((components.map (·.name)).toFinset).erase ""

/-- **The counts match**: the prior layers repeat names of the components as often as the
    components have an empty name or repeat a name themselves. -/
def Matched (components : Bin) (names : List String) : Prop :=
  ∑ n ∈ currNames components, (names.count n - 1)
    = components.length - (currNames components).card

/-- A prior manifest that can be followed: its layers are annotated, there is one besides the
    commit layer, they fit into the bins, and the counts match. -/
structure Followable (components : Bin) (binSize : Nat) (manifest : ImageManifest) : Prop where
  two : 2 ≤ manifest.layers.length
  fits : manifest.layers.length ≤ binSize + 1
  matched : Matched components (priorNames manifest)

theorem mem_currNames {components : Bin} {n : String} :
    n ∈ currNames components ↔ n ≠ "" ∧ n ∈ components.map (·.name) := by
  rw [currNames, Finset.mem_erase, List.mem_toFinset]

theorem card_currNames_le (components : Bin) :
    (currNames components).card ≤ components.length := by
  calc (currNames components).card
      ≤ ((components.map (·.name)).toFinset).card := Finset.card_erase_le
    _ ≤ (components.map (·.name)).length := List.toFinset_card_le _
    _ = components.length := List.length_map _

/-- Components with distinct names, none of them empty: no name may be in two layers, or twice
    in one. -/
theorem matched_of_distinct {components : Bin} {names : List String}
    (hnodup : (components.map (·.name)).Nodup) (hnames : ∀ c ∈ components, c.name ≠ "") :
    Matched components names ↔ ∀ c ∈ components, names.count c.name ≤ 1 := by
  have hcurr : currNames components = (components.map (·.name)).toFinset := by
    refine Finset.erase_eq_of_notMem (fun h => ?_)
    obtain ⟨c, hc, hempty⟩ := List.mem_map.mp (List.mem_toFinset.mp h)
    exact hnames c hc hempty
  have hcard : (currNames components).card = components.length := by
    rw [hcurr, List.toFinset_card_of_nodup hnodup, List.length_map]
  rw [Matched, hcard, Nat.sub_self, Finset.sum_eq_zero_iff]
  constructor
  · intro h c hc
    have hzero := h c.name (mem_currNames.mpr ⟨hnames c hc, List.mem_map_of_mem hc⟩)
    omega
  · intro h n hn
    obtain ⟨c, hc, rfl⟩ := List.mem_map.mp (mem_currNames.mp hn).2
    have hone := h c hc
    omega

/-- The annotations are read, or the first one that is missing is reported. -/
theorem mapM_priorLayerComponents (layers : List Descriptor) :
    ((∀ layer ∈ layers, annotatedComponents layer ≠ none) ∧
      layers.mapM priorLayerComponents
        = .ok ((layers.filterMap annotatedComponents).map splitComponents)) ∨
    (∃ layer ∈ layers, annotatedComponents layer = none) ∧
      ∃ msg, layers.mapM priorLayerComponents = .error (.err msg) := by
  induction layers with
  | nil => exact .inl ⟨by simp, rfl⟩
  | cons layer layers ih =>
      rw [List.mapM_cons]
      cases hanno : annotatedComponents layer with
      | none =>
          have hlayer : priorLayerComponents layer
              = .error (.err ("Missing " ++ contentAnnotationKey ++ " on prior build")) := by
            rw [annotatedComponents] at hanno
            rw [priorLayerComponents, hanno]
            rfl
          refine .inr ⟨⟨layer, List.mem_cons_self .., hanno⟩,
            "Missing " ++ contentAnnotationKey ++ " on prior build", ?_⟩
          rw [hlayer]
          rfl
      | some t =>
          have hlayer : priorLayerComponents layer = .ok (splitComponents t) := by
            rw [annotatedComponents] at hanno
            rw [priorLayerComponents, hanno]
            rfl
          rw [hlayer, bind_ok_eq]
          rcases ih with ⟨hall, hok⟩ | ⟨⟨l, hl, hnone⟩, msg, herr⟩
          · refine .inl ⟨fun l hl => ?_, ?_⟩
            · rcases List.mem_cons.mp hl with rfl | hl
              · rw [hanno]
                exact Option.some_ne_none t
              · exact hall l hl
            · rw [hok, List.filterMap_cons_some hanno]
              rfl
          · refine .inr ⟨⟨l, List.mem_cons_of_mem _ hl, hnone⟩, msg, ?_⟩
            rw [herr]
            rfl

-- ── Counting ──────────────────────────────────────────────────────────────────

section Counting

variable {components : Bin} {prior : List (List String)}

/-- The names that a rebuild puts out: the old ones that are kept, and then the new ones. -/
def outNames (components : Bin) (prior : List (List String)) : List String :=
  keptNames components prior.flatten ++ (addedNames components prior).filter (· ≠ "")

/-- A kept name is put out once for each time it occurs. -/
theorem length_keptNames (names : List String) :
    (keptNames components names).length = ∑ n ∈ currNames components, names.count n := by
  have hmem : ∀ n ∈ (keptNames components names : Multiset String), n ∈ currNames components := by
    intro n hn
    rw [Multiset.mem_coe] at hn
    exact mem_currNames.mpr (mem_keptNames.mp hn).2
  have hcard := Multiset.sum_count_eq_card hmem
  rw [Multiset.coe_card] at hcard
  rw [← hcard]
  refine Finset.sum_congr rfl (fun n hn => ?_)
  rw [Multiset.coe_count, keptNames, List.count_filter]
  exact decide_eq_true (mem_currNames.mp hn)

/-- A new name is put out once. -/
theorem length_addedNames : ((addedNames components prior).filter (· ≠ "")).length
    = ((currNames components).filter (fun n => prior.flatten.count n = 0)).card := by
  have hnodup := (@addedNames_nodup components prior).filter (fun n => decide (n ≠ ""))
  rw [← List.toFinset_card_of_nodup hnodup]
  congr 1
  ext n
  rw [List.mem_toFinset, List.mem_filter, mem_addedNames, decide_eq_true_iff, Finset.mem_filter,
    mem_currNames, List.count_eq_zero]
  constructor
  · rintro ⟨⟨hcurr, hold⟩, hempty⟩
    exact ⟨⟨hempty, hcurr⟩, fun h => hold ⟨hempty, h⟩⟩
  · rintro ⟨⟨hempty, hcurr⟩, hold⟩
    exact ⟨⟨hcurr, fun h => hold h.2⟩, hempty⟩

/-- **How many names are put out**: each name of a component once, and again for each time the
    prior layers repeat it. -/
theorem length_outNames : (outNames components prior).length
    = (currNames components).card + ∑ n ∈ currNames components, (prior.flatten.count n - 1) := by
  rw [outNames, List.length_append, length_keptNames, length_addedNames,
    Finset.card_eq_sum_ones, Finset.card_eq_sum_ones, Finset.sum_filter, ← Finset.sum_add_distrib,
    ← Finset.sum_add_distrib]
  refine Finset.sum_congr rfl (fun n _ => ?_)
  split <;> omega

/-- The first assertion is about the counts. -/
theorem length_outNames_iff :
    (outNames components prior).length = components.length ↔ Matched components prior.flatten := by
  have hle := card_currNames_le components
  rw [length_outNames, Matched]
  omega

end Counting

-- ── The rebuild ───────────────────────────────────────────────────────────────

section PriorBuild

variable {components : Bin} {binSize : Nat} {manifest : ImageManifest} {prior : List (List String)}

/-- Names of components are found. -/
theorem componentsNamed_length {names : List String}
    (h : ∀ n ∈ names, n ∈ components.map (·.name)) :
    (componentsNamed components names).length = names.length := by
  induction names with
  | nil => rfl
  | cons n names ih =>
      obtain ⟨c, hc⟩ := exists_componentNamed (h n (List.mem_cons_self ..))
      have hrest := ih (fun m hm => h m (List.mem_cons_of_mem _ hm))
      show (List.filterMap (componentNamed components) (n :: names)).length = _
      rw [List.filterMap_cons_some hc, List.length_cons, List.length_cons]
      exact congrArg (· + 1) hrest

/-- As many components are put out as names. -/
theorem keptBins_sum (hne : prior ≠ []) :
    ((keptBins components prior).map List.length).sum = (outNames components prior).length := by
  rw [outNames, ← flatten_modifyLast_kept hne, ← keptBuild_filter hne, List.length_flatten, keptBins,
    List.map_map, List.map_map]
  congr 1
  refine List.map_congr_left (fun b hb => componentsNamed_length (fun n hn => ?_))
  obtain ⟨hmem, hempty⟩ := List.mem_filter.mp hn
  exact name_of_keptBuild hne hb hmem (of_decide_eq_true hempty)

theorem keptBins_length (hne : prior ≠ []) : (keptBins components prior).length = prior.length := by
  obtain ⟨init, last, rfl⟩ := List.eq_nil_or_concat' prior |>.resolve_left hne
  rw [keptBins, List.length_map, keptBuild, List.length_map, modifyLast_concat, List.length_append,
    List.length_append]
  rfl

/-- A rebuild from annotated layers passes its assertions exactly when it can be followed. -/
theorem withPriorBuild_returns_iff
    (hprior : (manifest.layers.drop 1).mapM priorLayerComponents = .ok prior)
    (hnames : priorNames manifest = prior.flatten)
    (hlen : prior.length = manifest.layers.length - 1) :
    Returns (basicPackingWithPriorBuild components binSize manifest) ↔
      Followable components binSize manifest := by
  by_cases hne : prior = []
  · have hpanic : basicPackingWithPriorBuild components binSize manifest
        = .error (.panic "No empty last bin for added packages") := by
      rw [basicPackingWithPriorBuild, hprior, bind_ok_eq, hne]
      rfl
    rw [hpanic]
    constructor
    · rintro (⟨_, h⟩ | ⟨_, h⟩)
      · cases h
      · cases h
    · rintro ⟨htwo, _, _⟩
      rw [hne, List.length_nil] at hlen
      omega
  have hpos : 0 < prior.length := List.length_pos_iff.mpr hne
  rw [withPriorBuild_run hprior hne, keptBins_sum hne, keptBins_length hne]
  constructor
  · intro h
    split at h
    · rcases h with ⟨_, h⟩ | ⟨_, h⟩ <;> cases h
    next hsum =>
    split at h
    · rcases h with ⟨_, h⟩ | ⟨_, h⟩ <;> cases h
    next hfits =>
    rw [ne_eq, not_not, length_outNames_iff, ← hnames] at hsum
    exact ⟨by omega, by omega, hsum⟩
  · rintro ⟨htwo, hfits, hmatched⟩
    rw [hnames, ← length_outNames_iff] at hmatched
    rw [if_neg (fun h => h hmatched), if_neg (by omega)]
    exact .inl ⟨_, rfl⟩

end PriorBuild

/-- **When a bad prior build is an error and not a crash.**  For every list of components,
    every number of bins and every prior manifest: `basic_packing` returns, with bins or an
    error, if and only if the number of bins is refused, a layer is not annotated, or the
    manifest can be followed. -/
theorem basicPacking_prior_returns_iff (st : Statistics) (fuel : Nat) (components : Bin)
    (binSize : Nat) (manifest : ImageManifest) :
    Returns (basicPacking st fuel components binSize (some manifest)) ↔
      binSize < minChunkedLayers ∨
      (∃ layer ∈ manifest.layers.drop 1, annotatedComponents layer = none) ∨
      Followable components binSize manifest := by
  by_cases hsize : binSize < minChunkedLayers
  · rw [basicPacking, if_pos hsize]
    exact ⟨fun _ => .inl hsize, fun _ => .inr ⟨_, rfl⟩⟩
  have hrun : basicPacking st fuel components binSize (some manifest)
      = basicPackingWithPriorBuild components binSize manifest := by
    rw [basicPacking, if_neg hsize]
  rw [hrun]
  rcases mapM_priorLayerComponents (manifest.layers.drop 1) with ⟨hall, hok⟩ | ⟨hmissing, msg, herr⟩
  · have hlen : ((manifest.layers.drop 1).filterMap annotatedComponents).length
        = manifest.layers.length - 1 := by
      rw [List.length_filterMap_eq_countP, List.countP_eq_length.mpr, List.length_drop]
      intro layer hlayer
      exact Option.isSome_iff_ne_none.mpr (hall layer hlayer)
    rw [withPriorBuild_returns_iff hok (by rw [priorNames, List.flatMap_def])
      (by rw [List.length_map, hlen])]
    constructor
    · exact fun h => .inr (.inr h)
    · rintro (h | ⟨layer, hlayer, hnone⟩ | h)
      · exact absurd h hsize
      · exact absurd hnone (hall layer hlayer)
      · exact h
  · constructor
    · exact fun _ => .inr (.inl hmissing)
    · intro _
      rw [basicPackingWithPriorBuild, herr]
      exact .inr ⟨msg, rfl⟩

/-- **A prior build with nothing but the commit layer panics**: there is no bin for new
    components. -/
theorem commitLayer_panics : (manifestOf []).layers.length = 1 ∧
    ¬ Returns (basicPacking exactStatistics 0 [] 4 (some (manifestOf []))) := by
  refine ⟨rfl, ?_⟩
  have hpanic : basicPacking exactStatistics 0 [] 4 (some (manifestOf []))
      = .error (.panic "No empty last bin for added packages") := rfl
  rw [hpanic]
  rintro (⟨_, h⟩ | ⟨_, h⟩)
  · cases h
  · cases h

end OstreeExt
