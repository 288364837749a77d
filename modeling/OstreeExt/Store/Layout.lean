import OstreeExt.Store.Refs

/-!
# The layers of an image

How the store reads a manifest: the first layer holds the commit, the layer whose diff id
is named by a label is the last one with ostree content, and what comes after it is
derived.  Layers are looked up in the repository by their digest.
-/

namespace OstreeExt.Store

open OstreeExt

/-- `DIFFID_LABEL` -/
def diffidLabel : String := "ostree.final-diffid"

/-- `layer_from_diffid`: the layer at the position of the first such diff id. -/
def layerFromDiffid (manifest : ImageManifest) (config : ImageConfiguration) (diffid : String) :
    Result Descriptor := do
  let idx ← okOr ("Missing " ++ diffidLabel ++ " " ++ diffid)
    (config.diffIds.findIdx? (· = diffid))
  okOr ("diffid position " ++ toString idx ++ " exceeds layer count "
    ++ toString manifest.layers.length) manifest.layers[idx]?

/-- The loop of `parse_manifest_layout`; `afterTarget` is its loop variable.  The result
    are the chunk layers and the derived layers. -/
def splitLayers (target ostreeLayer : Descriptor) :
    Bool → List Descriptor → Result (List Descriptor × List Descriptor)
  | _, [] => .ok ([], [])
  | afterTarget, layer :: layers =>
      if layer = target then
        if afterTarget then .error (.err ("Multiple entries for " ++ layer.digest))
        else (splitLayers target ostreeLayer true layers).map fun p =>
          (if layer ≠ ostreeLayer then layer :: p.1 else p.1, p.2)
      else if ¬ afterTarget then
        (splitLayers target ostreeLayer afterTarget layers).map fun p =>
          (if layer ≠ ostreeLayer then layer :: p.1 else p.1, p.2)
      else
        (splitLayers target ostreeLayer afterTarget layers).map fun p => (p.1, layer :: p.2)

/-- `parse_manifest_layout`: the commit layer, the chunk layers and the derived layers. -/
def parseManifestLayout (manifest : ImageManifest) (config : ImageConfiguration) :
    Result (Descriptor × List Descriptor × List Descriptor) := do
  let firstLayer ← okOr "No layers in manifest" manifest.layers.head?
  let targetDiffid ← okOr ("No " ++ diffidLabel
    ++ " label found, not an ostree encapsulated container")
    ((labelsOf config).bind (·[diffidLabel]?))
  let targetLayer ← layerFromDiffid manifest config targetDiffid
  let (chunkLayers, derivedLayers) ← splitLayers targetLayer firstLayer false manifest.layers
  .ok (firstLayer, chunkLayers, derivedLayers)

/-- `ManifestLayerState` -/
structure ManifestLayerState where
  layer : Descriptor
  ostreeRef : String
  commit : Option Checksum
  deriving DecidableEq

/-- `query_layer` -/
def queryLayer (repo : Repo) (layer : Descriptor) : Result ManifestLayerState := do
  let ostreeRef ← refForLayer layer
  .ok { layer, ostreeRef, commit := repo.resolveRev ostreeRef }

theorem queryLayer_eq_ok {repo : Repo} {layer : Descriptor} {s : ManifestLayerState}
    (h : queryLayer repo layer = .ok s) :
    s.layer = layer ∧ refForLayer layer = .ok s.ostreeRef ∧ s.commit = repo.refs[s.ostreeRef]? := by
  obtain ⟨ref, href, h⟩ := result_bind_eq_ok.mp h
  injection h with h
  subst h
  exact ⟨rfl, href, resolveRev_of_escape href repo⟩

-- ── The loop ──────────────────────────────────────────────────────────────────

section SplitLayers

variable {target ostreeLayer : Descriptor}

/-- After the target everything is derived. -/
theorem splitLayers_after {layers : List Descriptor} (h : target ∉ layers) :
    splitLayers target ostreeLayer true layers = .ok ([], layers) := by
  induction layers with
  | nil => rfl
  | cons layer layers ih =>
      have hne : layer ≠ target := fun heq => h (heq ▸ List.mem_cons_self ..)
      rw [splitLayers, if_neg hne, if_neg (by simp),
        ih (fun hm => h (List.mem_cons_of_mem _ hm))]
      rfl

/-- A second target is an error. -/
theorem splitLayers_again (ostreeLayer : Descriptor) {layers : List Descriptor}
    (h : target ∈ layers) :
    ∃ e, splitLayers target ostreeLayer true layers = .error e := by
  induction layers with
  | nil => exact absurd h (by simp)
  | cons layer layers ih =>
      by_cases heq : layer = target
      · refine ⟨.err ("Multiple entries for " ++ layer.digest), ?_⟩
        rw [splitLayers, if_pos heq, if_pos rfl]
      · have hmem : target ∈ layers := (List.mem_cons.mp h).resolve_left (fun h' => heq h'.symm)
        obtain ⟨e, he⟩ := ih hmem
        refine ⟨e, ?_⟩
        rw [splitLayers, if_neg heq, if_neg (by simp), he]
        rfl

/-- **The split at the target**: up to it chunks, without the commit layer, and behind it
    derived layers. -/
theorem splitLayers_split {pre post : List Descriptor} (hpre : target ∉ pre)
    (hpost : target ∉ post) :
    splitLayers target ostreeLayer false (pre ++ target :: post)
      = .ok ((pre ++ [target]).filter (· ≠ ostreeLayer), post) := by
  induction pre with
  | nil =>
      rw [List.nil_append, splitLayers, if_pos rfl, if_neg (by simp), splitLayers_after hpost]
      by_cases heq : target = ostreeLayer
      · simp [Except.map, heq]
      · simp [Except.map, heq]
  | cons layer pre ih =>
      have hne : layer ≠ target := fun heq => hpre (heq ▸ List.mem_cons_self ..)
      rw [List.cons_append, splitLayers, if_neg hne, if_pos (by simp),
        ih (fun hm => hpre (List.mem_cons_of_mem _ hm))]
      by_cases heq : layer = ostreeLayer
      · simp [Except.map, heq]
      · simp [Except.map, heq]

/-- Behind the first target there is no other one in a layout that parses. -/
theorem splitLayers_eq_ok {pre post : List Descriptor} (hpre : target ∉ pre)
    {p : List Descriptor × List Descriptor}
    (h : splitLayers target ostreeLayer false (pre ++ target :: post) = .ok p) :
    target ∉ post := by
  intro hmem
  have hfail : ∃ e, splitLayers target ostreeLayer false (pre ++ target :: post) = .error e := by
    clear h
    induction pre with
    | nil =>
        obtain ⟨e, he⟩ := splitLayers_again ostreeLayer hmem
        refine ⟨e, ?_⟩
        rw [List.nil_append, splitLayers, if_pos rfl, if_neg (by simp), he]
        rfl
    | cons layer pre ih =>
        have hne : layer ≠ target := fun heq => hpre (heq ▸ List.mem_cons_self ..)
        obtain ⟨e, he⟩ := ih (fun hm => hpre (List.mem_cons_of_mem _ hm))
        refine ⟨e, ?_⟩
        rw [List.cons_append, splitLayers, if_neg hne, if_pos (by simp), he]
        rfl
  obtain ⟨e, he⟩ := hfail
  exact absurd (h.symm.trans he) (by simp)

end SplitLayers

/-- The position of the first occurrence. -/
theorem findIdx_iff {ids : List String} {id : String} {n : Nat} :
    ids.findIdx? (· = id) = some n ↔
      ∃ before behind, ids = before ++ id :: behind ∧ id ∉ before ∧ before.length = n := by
  induction ids generalizing n with
  | nil => simp
  | cons a ids ih =>
      rw [List.findIdx?_cons]
      by_cases ha : a = id
      · rw [if_pos (by simpa using ha)]
        constructor
        · intro h
          exact ⟨[], ids, by rw [ha]; rfl, by simp, Option.some.inj h⟩
        · rintro ⟨before, behind, heq, hnot, rfl⟩
          cases before with
          | nil => rfl
          | cons b before =>
              obtain ⟨rfl, _⟩ := List.cons.inj heq
              exact absurd (ha ▸ List.mem_cons_self ..) hnot
      · rw [if_neg (by simpa using ha)]
        constructor
        · intro h
          obtain ⟨m, hm, rfl⟩ := Option.map_eq_some_iff.mp h
          obtain ⟨before, behind, rfl, hnot, rfl⟩ := ih.mp hm
          refine ⟨a :: before, behind, rfl, ?_, rfl⟩
          rw [List.mem_cons]
          rintro (rfl | hin)
          · exact ha rfl
          · exact hnot hin
        · rintro ⟨before, behind, heq, hnot, rfl⟩
          cases before with
          | nil => exact absurd (List.cons.inj heq).1 ha
          | cons b before =>
              obtain ⟨rfl, rfl⟩ := List.cons.inj heq
              have hrest : id ∉ before := fun hin => hnot (List.mem_cons_of_mem _ hin)
              exact Option.map_eq_some_iff.mpr ⟨_, ih.mpr ⟨before, behind, rfl, hrest, rfl⟩, rfl⟩

-- ── The whole parser ──────────────────────────────────────────────────────────

/-- **How a layout parses**: the label names a diff id; at its first position stands the
    target, which occurs nowhere else. -/
structure Layout (manifest : ImageManifest) (config : ImageConfiguration) (first : Descriptor)
    (pre : List Descriptor) (target : Descriptor) (post : List Descriptor) (id : String) :
    Prop where
  layers : manifest.layers = pre ++ target :: post
  head : manifest.layers.head? = some first
  label : (labelsOf config).bind (·[diffidLabel]?) = some id
  index : config.diffIds.findIdx? (· = id) = some pre.length
  before : target ∉ pre
  behind : target ∉ post

theorem Layout.parse {manifest : ImageManifest} {config : ImageConfiguration} {first : Descriptor}
    {pre post : List Descriptor} {target : Descriptor} {id : String}
    (h : Layout manifest config first pre target post id) :
    parseManifestLayout manifest config
      = .ok (first, (pre ++ [target]).filter (· ≠ first), post) := by
  have htarget : layerFromDiffid manifest config id = .ok target := by
    have hget : manifest.layers[pre.length]? = some target := by
      rw [h.layers]
      simp
    rw [layerFromDiffid, h.index, okOr_some, bind_ok_eq, hget, okOr_some]
  rw [parseManifestLayout, h.head, okOr_some, bind_ok_eq, h.label, okOr_some, bind_ok_eq, htarget,
    bind_ok_eq, h.layers, splitLayers_split h.before h.behind, bind_ok_eq]

/-- An element that occurs once has one index. -/
theorem index_unique {α : Type} {pre post : List α} {a : α} {i : Nat} (hpre : a ∉ pre)
    (hpost : a ∉ post) (h : (pre ++ a :: post)[i]? = some a) : i = pre.length := by
  rcases Nat.lt_trichotomy i pre.length with hlt | heq | hgt
  · rw [List.getElem?_append_left hlt] at h
    exact absurd (List.mem_of_getElem? h) hpre
  · exact heq
  · rw [List.getElem?_append_right (Nat.le_of_lt hgt)] at h
    obtain ⟨j, hj⟩ : ∃ j, i - pre.length = j + 1 := ⟨i - pre.length - 1, by omega⟩
    rw [hj, List.getElem?_cons_succ] at h
    exact absurd (List.mem_of_getElem? h) hpost

/-- Every layout that parses is of this form. -/
theorem layout_of_parse {manifest : ImageManifest} {config : ImageConfiguration}
    {first : Descriptor} {chunks derived : List Descriptor}
    (h : parseManifestLayout manifest config = .ok (first, chunks, derived)) :
    ∃ pre target id, Layout manifest config first pre target derived id ∧
      chunks = (pre ++ [target]).filter (· ≠ first) := by
  obtain ⟨first', hfirst, h⟩ := result_bind_eq_ok.mp h
  obtain ⟨id, hid, h⟩ := result_bind_eq_ok.mp h
  obtain ⟨target, htarget, h⟩ := result_bind_eq_ok.mp h
  obtain ⟨p, hsplit, h⟩ := result_bind_eq_ok.mp h
  injection h with h
  obtain ⟨rfl, hp⟩ := Prod.mk.inj h
  obtain ⟨idx, hidx, hget⟩ := result_bind_eq_ok.mp htarget
  have hidx := okOr_eq_ok.mp hidx
  have hget := okOr_eq_ok.mp hget
  obtain ⟨pre, post, hlayers, hpre⟩ := List.eq_append_cons_of_mem (List.mem_of_getElem? hget)
  rw [hlayers] at hsplit
  have hpost := splitLayers_eq_ok hpre hsplit
  rw [splitLayers_split hpre hpost] at hsplit
  obtain ⟨hchunks, hderived⟩ := Prod.mk.inj (Except.ok.inj hsplit)
  -- the target occurs once, so the index of the diff id is its position
  have hlen : idx = pre.length := by
    rw [hlayers] at hget
    exact index_unique hpre hpost hget
  refine ⟨pre, target, id, ?_, ?_⟩
  · exact {
      layers := by rw [hlayers, hderived, (Prod.mk.inj hp).2]
      head := okOr_eq_ok.mp hfirst
      label := okOr_eq_ok.mp hid
      index := by rw [← hlen]; exact hidx
      before := hpre
      behind := by rw [← (Prod.mk.inj hp).2, ← hderived]; exact hpost }
  · rw [← (Prod.mk.inj hp).1, ← hchunks]

-- ── An exact split ────────────────────────────────────────────────────────────

section Exact

variable {manifest : ImageManifest} {config : ImageConfiguration}

/-- The label names the `i`-th diff id, and there is an `i`-th layer. -/
def NamesLayer (manifest : ImageManifest) (config : ImageConfiguration) (i : Nat) : Prop :=
  ∃ id, (labelsOf config).bind (·[diffidLabel]?) = some id ∧ config.diffIds[i]? = some id ∧
    i < manifest.layers.length

/-- A diff id that is listed once is found where it is listed. -/
theorem findIdx_of_nodup {ids : List String} (hids : ids.Nodup) {i : Nat} {id : String}
    (h : ids[i]? = some id) : ids.findIdx? (· = id) = some i := by
  obtain ⟨hi, rfl⟩ := List.getElem?_eq_some_iff.mp h
  refine findIdx_iff.mpr ⟨ids.take i, ids.drop (i + 1), ?_, ?_, ?_⟩
  · rw [← List.drop_eq_getElem_cons hi, List.take_append_drop]
  · rw [← List.take_append_drop i ids, List.drop_eq_getElem_cons hi, List.nodup_append] at hids
    intro hmem
    exact hids.2.2 _ hmem _ (List.mem_cons_self ..) rfl
  · rw [List.length_take]
    omega

/-- Where layers and diff ids are distinct, the position that the label names splits the layers. -/
theorem layout_of_names (hlayers : manifest.layers.Nodup) (hids : config.diffIds.Nodup) {i : Nat}
    (h : NamesLayer manifest config i) :
    ∃ first target id, Layout manifest config first (manifest.layers.take i) target
      (manifest.layers.drop (i + 1)) id := by
  obtain ⟨id, hlabel, hid, hi⟩ := h
  obtain ⟨first, hfirst⟩ : ∃ first, manifest.layers.head? = some first :=
    ⟨_, List.head?_eq_some_head (List.ne_nil_of_length_pos (by omega))⟩
  have hsplit : manifest.layers
      = manifest.layers.take i ++ manifest.layers[i] :: manifest.layers.drop (i + 1) := by
    rw [← List.drop_eq_getElem_cons hi, List.take_append_drop]
  have hnodup := hlayers
  rw [hsplit, List.nodup_append, List.nodup_cons] at hnodup
  refine ⟨first, manifest.layers[i], id, hsplit, hfirst, hlabel, ?_, ?_, hnodup.2.1.1⟩
  · rw [findIdx_of_nodup hids hid, List.length_take, Nat.min_eq_left (Nat.le_of_lt hi)]
  · intro hmem
    exact hnodup.2.2 _ hmem _ (List.mem_cons_self ..) rfl

/-- The chunk layers: all layers up to the target but the first. -/
theorem chunks_of_nodup {layers : List Descriptor} {first : Descriptor} (hlayers : layers.Nodup)
    (hfirst : layers.head? = some first) (i : Nat) :
    (layers.take (i + 1)).filter (· ≠ first) = (layers.drop 1).take i := by
  obtain ⟨rest, rfl⟩ := List.head?_eq_some_iff.mp hfirst
  rw [List.nodup_cons] at hlayers
  rw [List.take_succ_cons, List.filter_cons_of_neg (by simp), List.drop_one, List.tail_cons,
    List.filter_eq_self]
  intro layer hlayer
  refine decide_eq_true (fun heq => hlayers.1 ?_)
  rw [← heq]
  exact List.mem_of_mem_take hlayer

/-- **Parsing a layout is an exact split** of the layers, where they and the diff ids are
    distinct. -/
theorem parseManifestLayout_exact (hlayers : manifest.layers.Nodup) (hids : config.diffIds.Nodup) :
    ((∃ p, parseManifestLayout manifest config = .ok p) ↔
      manifest.layers ≠ [] ∧ ∃ i, NamesLayer manifest config i) ∧
    ∀ i, NamesLayer manifest config i → ∃ commitLayer chunkLayers derivedLayers,
      parseManifestLayout manifest config = .ok (commitLayer, chunkLayers, derivedLayers) ∧
      manifest.layers[0]? = some commitLayer ∧
      chunkLayers = (manifest.layers.drop 1).take i ∧
      derivedLayers = manifest.layers.drop (i + 1) ∧
      commitLayer :: chunkLayers ++ derivedLayers = manifest.layers := by
  have hsplit : ∀ i, NamesLayer manifest config i → ∃ commitLayer chunkLayers derivedLayers,
      parseManifestLayout manifest config = .ok (commitLayer, chunkLayers, derivedLayers) ∧
      manifest.layers[0]? = some commitLayer ∧
      chunkLayers = (manifest.layers.drop 1).take i ∧
      derivedLayers = manifest.layers.drop (i + 1) ∧
      commitLayer :: chunkLayers ++ derivedLayers = manifest.layers := by
    intro i hi
    obtain ⟨first, target, id, hlayout⟩ := layout_of_names hlayers hids hi
    obtain ⟨_, _, _, hlt⟩ := hi
    have htake : manifest.layers.take i ++ [target] = manifest.layers.take (i + 1) := by
      have hget : manifest.layers[i]? = some target := by
        rw [hlayout.layers, List.getElem?_append_right (by rw [List.length_take]; omega),
          List.length_take, Nat.min_eq_left (Nat.le_of_lt hlt), Nat.sub_self]
        rfl
      rw [List.take_add_one, hget]
      rfl
    have hchunks := chunks_of_nodup hlayers hlayout.head i
    refine ⟨first, (manifest.layers.drop 1).take i, manifest.layers.drop (i + 1), ?_, ?_, rfl, rfl, ?_⟩
    · rw [hlayout.parse, htake, hchunks]
    · rw [← List.head?_eq_getElem?]
      exact hlayout.head
    · obtain ⟨rest, hrest⟩ := List.head?_eq_some_iff.mp hlayout.head
      rw [hrest, List.drop_one, List.tail_cons, List.drop_succ_cons, List.cons_append,
        List.take_append_drop]
  refine ⟨⟨?_, ?_⟩, hsplit⟩
  · rintro ⟨⟨first, chunks, derived⟩, h⟩
    obtain ⟨pre, target, id, hlayout, _⟩ := layout_of_parse h
    have hlen : pre.length < manifest.layers.length := by
      rw [hlayout.layers, List.length_append, List.length_cons]
      omega
    refine ⟨List.ne_nil_of_length_pos (by omega), pre.length, id, hlayout.label, ?_, hlen⟩
    obtain ⟨before, behind, hsplit', _, hbefore⟩ := findIdx_iff.mp hlayout.index
    rw [hsplit', ← hbefore]
    simp
  · rintro ⟨_, i, hi⟩
    obtain ⟨_, _, _, hparse, _⟩ := hsplit i hi
    exact ⟨_, hparse⟩

end Exact

/-- A layer that is told apart by its size. -/
def numberedLayer (n : Nat) : Descriptor where
  mediaType := .imageLayerGzip
  digest := "sha256:" ++ String.ofList (List.replicate 64 '0')
  size := n

/-- A commit layer, one chunk layer and one derived layer. -/
def threeLayers : ImageManifest where
  config := { mediaType := .imageConfig, digest := "sha256:", size := 0 }
  layers := [numberedLayer 0, numberedLayer 1, numberedLayer 2]

/-- A configuration whose label names the second of them. -/
def threeDiffIds : ImageConfiguration where
  config := some { labels := some ((∅ : StrMap).insert diffidLabel "sha256:1") }
  diffIds := ["sha256:0", "sha256:1", "sha256:2"]

theorem threeLayers_named : NamesLayer threeLayers threeDiffIds 1 := by
  refine ⟨"sha256:1", ?_, rfl, by decide⟩
  show ((∅ : StrMap).insert diffidLabel "sha256:1")[diffidLabel]? = some "sha256:1"
  rw [Std.ExtTreeMap.lookup_insert, if_pos rfl]

/-- They are split in three. -/
theorem threeLayers_exact : threeLayers.layers.Nodup ∧ threeDiffIds.diffIds.Nodup ∧
    parseManifestLayout threeLayers threeDiffIds
      = .ok (numberedLayer 0, [numberedLayer 1], [numberedLayer 2]) := by
  have hlayers : threeLayers.layers.Nodup := by decide
  have hids : threeDiffIds.diffIds.Nodup := by decide
  obtain ⟨_, hsplit⟩ := parseManifestLayout_exact hlayers hids
  obtain ⟨first, chunks, derived, hparse, hfirst, rfl, rfl, _⟩ := hsplit 1 threeLayers_named
  obtain rfl : numberedLayer 0 = first := Option.some.inj hfirst
  exact ⟨hlayers, hids, hparse⟩

end OstreeExt.Store
