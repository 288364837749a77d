import OstreeExt.Bins
import OstreeExt.Encapsulate
import Mathlib.Data.List.Forall2

/-!
# Explicit layer metadata

`ostree container encapsulate --contentmeta` reads the layers of an image, and which objects
belong to them, from a file.  Each layer is made a component of its own, and the number of
layers is chosen so that packing puts each component into its own chunk.
`containerExport_honoured_iff` says when that works out.
-/

namespace OstreeExt

open Std Store Tar Exec Objects

-- ── The metadata ──────────────────────────────────────────────────────────────

/-- `IndexMap`: entries in the order of insertion, each key once. -/
structure IndexMap (β : Type) where
  entries : List (String × β)
  nodup : (entries.map (·.1)).Nodup

theorem IndexMap.unique {β : Type} (m : IndexMap β) {x : String} {a b : β}
    (ha : (x, a) ∈ m.entries) (hb : (x, b) ∈ m.entries) : a = b := by
  have heq := List.inj_on_of_nodup_map m.nodup ha hb rfl
  exact congrArg Prod.snd heq

/-- `RawMeta`: the layers, from a machine readable to a human readable name, and the layer of
    each object. -/
structure RawMeta where
  version : Nat
  created : Option String := none
  labels : Option StrMap := none
  layers : IndexMap String
  mapping : IndexMap String
  ordered : Option Bool := none

/-- The names of the listed layers. -/
def RawMeta.layerKeys (raw : RawMeta) : List String := raw.layers.entries.map (·.1)

/-- The component that a layer becomes. -/
def layerComponent (layer : String × String) : ObjectSourceMetaSized where
  identifier := layer.1
  name := layer.2
  srcid := layer.1
  changeTimeOffset := 1
  changeFrequency := if layer.1 = "unpackaged" then u32Max else 1
  size := 1

/-- `contentmeta_data` of `container_export` -/
def RawMeta.contentmeta (raw : RawMeta) : ObjectMetaSized where
  map := raw.mapping.entries
  sizes := raw.layers.entries.map layerComponent

/-- What `container_export` takes from the metadata: the components, the creation timestamp
    and the labels, which are merged into those of the command line. -/
def RawMeta.read (raw : RawMeta) (labels : StrMap) :
    Result (ObjectMetaSized × Option String × StrMap) :=
  if raw.version ≠ 1 then
    .error (.err ("Unsupported metadata version: " ++ toString raw.version
      ++ ". Currently supported: 1"))
  else if raw.ordered = some true then
    .error (.err "Ordered mapping not currently supported.")
  else
    .ok (raw.contentmeta, raw.created,
      (raw.labels.getD ∅).toList.foldl (fun m p => m.insert p.1 p.2) labels)

/-- `NonZeroU32::new((contentmeta_data.sizes.len() + 1).try_into().unwrap())` -/
def maxLayersFor (contentmeta : ObjectMetaSized) : Result Nat :=
  if 2 ^ 32 ≤ contentmeta.sizes.length + 1 then
    .error (.panic "called `Result::unwrap()` on an `Err` value: TryFromIntError(())")
  else .ok (contentmeta.sizes.length + 1)

section Definitions

variable (lib : Libostree) (st : Statistics) (repo : Repo)

/-- `Chunking::from_mapping` -/
def Chunking.fromMapping (rounds fuel : Nat) (rev : String) (contentmeta : ObjectMetaSized)
    (maxLayers : Option Nat) (priorBuild : Option ImageManifest) : Result Chunking := do
  let r ← Chunking.new lib repo fuel rev
  r.processMapping st rounds contentmeta maxLayers priorBuild

/-- The chunks that `container_export` gets from `encapsulate`, with metadata: there is no
    prior build. -/
def containerExportChunking (rounds fuel : Nat) (rev : String) (raw : RawMeta)
    (labels : StrMap) : Result Chunking := do
  let (contentmeta, _, _) ← raw.read labels
  let maxLayers ← maxLayersFor contentmeta
  Chunking.fromMapping lib st repo rounds fuel rev contentmeta (some maxLayers) none

end Definitions

/-- The chunk holds exactly the objects of the commit that are mapped to the layer. -/
structure HoldsLayer (raw : RawMeta) (whole : ChunkMapping) (layer : String × String)
    (chunk : Chunk) : Prop where
  name : chunk.name = layer.1
  packages : chunk.packages = [layer.2]
  content : ∀ x : Checksum, chunk.content[x]? =
    if (x, layer.1) ∈ raw.mapping.entries then whole[x]? else none

/-- **The layers are honoured**: one chunk for each, in order, then an empty one, and nothing
    is left over. -/
structure Honoured (raw : RawMeta) (whole : ChunkMapping) (k : Chunking) : Prop where
  chunks : ∃ chunks, k.chunks = chunks ++ [{ name := "Reserved for new packages" }] ∧
    List.Forall₂ (HoldsLayer raw whole) raw.layers.entries chunks
  rest : ∀ x : Checksum, k.remainder.content[x]? = none

-- ── One bin for each layer ────────────────────────────────────────────────────

/-- The objects that are mapped to a layer. -/
def RawMeta.objectsOf (raw : RawMeta) (key : String) : List Checksum :=
  (raw.mapping.entries.filter (·.2 = key)).map (·.1)

section Pack

variable {raw : RawMeta} {k k' : Chunking}

theorem mem_objectsOf {key : String} {x : Checksum} :
    x ∈ raw.objectsOf key ↔ (x, key) ∈ raw.mapping.entries := by
  rw [RawMeta.objectsOf, List.mem_map]
  constructor
  · rintro ⟨⟨y, a⟩, hmem, rfl⟩
    obtain ⟨hin, ha⟩ := List.mem_filter.mp hmem
    obtain rfl : a = key := of_decide_eq_true ha
    exact hin
  · intro h
    exact ⟨(x, key), List.mem_filter.mpr ⟨h, decide_eq_true rfl⟩, rfl⟩

/-- The lookup fails for a layer without objects. -/
theorem objectsOfComponent_eq (key : String) : objectsOfComponent raw.contentmeta key =
    if raw.objectsOf key = [] then
      .error (.panic "called `Option::unwrap()` on a `None` value")
    else .ok (raw.objectsOf key) := by
  show (if (raw.objectsOf key).isEmpty = true then _ else _) = _
  by_cases h : raw.objectsOf key = []
  · rw [if_pos h, if_pos (List.isEmpty_iff.mpr h)]
  · rw [if_neg h, if_neg (fun he => h (List.isEmpty_iff.mp he))]
    rfl

/-- The chunk of one layer, and what is left. -/
theorem packBin_layer {layer : String × String} (hobjs : raw.objectsOf layer.1 ≠ []) :
    ∃ k', packBin raw.contentmeta k [layerComponent layer] = .ok k' ∧
      (∃ chunk, k'.chunks = k.chunks ++ [chunk] ∧
        HoldsLayer raw k.remainder.content layer chunk) ∧
      ∀ x : Checksum, k'.remainder.content[x]? =
        if (x, layer.1) ∈ raw.mapping.entries then none else k.remainder.content[x]? := by
  have hall : [layerComponent layer].mapM
      (fun c => objectsOfComponent raw.contentmeta c.identifier)
      = .ok [raw.objectsOf layer.1] := by
    refine (mapM_ok (g := fun _ => raw.objectsOf layer.1) (fun c hc => ?_))
    obtain rfl := List.mem_singleton.mp hc
    exact (objectsOfComponent_eq layer.1).trans (if_neg hobjs)
  let moved := k.remainder.moveObjs
    { name := binName [layerComponent layer], packages := [layerComponent layer].map (·.name) }
    [raw.objectsOf layer.1].flatten
  have hflat : moved = k.remainder.moveObjs
      { name := layer.1, packages := [layer.2] } (raw.objectsOf layer.1) := by
    show k.remainder.moveObjs _ (raw.objectsOf layer.1 ++ []) = _
    rw [List.append_nil]
    rfl
  refine ⟨_, @packBin_ok _ _ _ hall k moved rfl, ⟨moved.2, rfl, ?_⟩, fun x => ?_⟩
  · refine ⟨(moveObjs_label _ _ _).1, (moveObjs_label _ _ _).2, fun x => ?_⟩
    rw [hflat, (moveObjs_content _ _ _ x).2, ExtTreeMap.lookup_empty, Option.or_none]
    simp only [mem_objectsOf]
  · rw [hflat, (moveObjs_content _ _ _ x).1]
    simp only [mem_objectsOf]

/-- A layer without objects: `rmap.get` finds nothing. -/
theorem packBin_unowned {layer : String × String} (hobjs : raw.objectsOf layer.1 = []) :
    ∀ k', packBin raw.contentmeta k [layerComponent layer] ≠ .ok k' := by
  intro k' h
  obtain ⟨objs, hall, _⟩ := result_bind_eq_ok.mp h
  rw [List.mapM_cons] at hall
  obtain ⟨xs, hfirst, _⟩ := result_bind_eq_ok.mp hall
  rw [show (layerComponent layer).identifier = layer.1 from rfl, objectsOfComponent_eq,
    if_pos hobjs] at hfirst
  exact absurd hfirst (by simp)

/-- **One chunk for each layer**, in order; what is mapped to none of them is left. -/
theorem packLayers {layers : List (String × String)} (hkeys : (layers.map (·.1)).Nodup)
    (hobjs : ∀ layer ∈ layers, raw.objectsOf layer.1 ≠ []) :
    ∃ k' chunks, (layers.map fun layer => [layerComponent layer]).foldlM
        (packBin raw.contentmeta) k = .ok k' ∧
      k'.chunks = k.chunks ++ chunks ∧
      List.Forall₂ (HoldsLayer raw k.remainder.content) layers chunks ∧
      ∀ x : Checksum, ((∃ layer ∈ layers, (x, layer.1) ∈ raw.mapping.entries) →
          k'.remainder.content[x]? = none) ∧
        (k'.remainder.content[x]? = none ∨
          k'.remainder.content[x]? = k.remainder.content[x]?) := by
  induction layers generalizing k with
  | nil =>
      refine ⟨k, [], rfl, (List.append_nil _).symm, .nil, fun x => ⟨?_, .inr rfl⟩⟩
      rintro ⟨layer, hlayer, _⟩
      exact absurd hlayer (by simp)
  | cons layer layers ih =>
      obtain ⟨hnew, hkeys⟩ := List.nodup_cons.mp hkeys
      obtain ⟨k₁, hbin, ⟨chunk, hchunks₁, hholds⟩, hrest₁⟩ :=
        @packBin_layer raw k layer (hobjs layer (by simp))
      obtain ⟨k₂, chunks, hfold, hchunks₂, hall, hrest₂⟩ :=
        @ih k₁ hkeys (fun l hl => hobjs l (by simp [hl]))
      refine ⟨k₂, chunk :: chunks, ?_, ?_, .cons hholds ?_, fun x => ⟨?_, ?_⟩⟩
      · rw [List.map_cons, List.foldlM_cons, hbin, bind_ok_eq, hfold]
      · rw [hchunks₂, hchunks₁, List.append_assoc]
        rfl
      · -- the objects of the later layers are not mapped to this one
        have hother : ∀ l ∈ layers, l.1 ≠ layer.1 := fun l hl heq =>
          hnew (List.mem_map.mpr ⟨l, hl, heq⟩)
        refine ((List.forall₂_and_left _ _).mpr ⟨hother, hall⟩).imp ?_
        rintro l c ⟨hne, hl⟩
        refine ⟨hl.name, hl.packages, fun x => ?_⟩
        rw [hl.content x, hrest₁ x]
        by_cases hx : (x, l.1) ∈ raw.mapping.entries
        · rw [if_pos hx, if_pos hx,
            if_neg (fun h => hne (raw.mapping.unique hx h))]
        · rw [if_neg hx, if_neg hx]
      · rintro ⟨l, hl, hmem⟩
        rcases List.mem_cons.mp hl with rfl | hl
        · rcases (hrest₂ x).2 with h | h
          · exact h
          · rw [h, hrest₁ x, if_pos hmem]
        · exact (hrest₂ x).1 ⟨l, hl, hmem⟩
      · rcases (hrest₂ x).2 with h | h
        · exact .inl h
        · rw [h, hrest₁ x]
          by_cases hx : (x, layer.1) ∈ raw.mapping.entries
          · rw [if_pos hx]
            exact .inl rfl
          · rw [if_neg hx]
            exact .inr rfl

/-- Packing succeeds only if every layer has objects. -/
theorem packLayers_owned {layers : List (String × String)} (tail : List Bin)
    (h : ((layers.map fun layer => [layerComponent layer]) ++ tail).foldlM
      (packBin raw.contentmeta) k = .ok k') :
    ∀ layer ∈ layers, raw.objectsOf layer.1 ≠ [] := by
  induction layers generalizing k with
  | nil => exact fun layer hlayer => absurd hlayer (by simp)
  | cons layer layers ih =>
      rw [List.map_cons, List.cons_append, List.foldlM_cons] at h
      obtain ⟨k₁, hbin, hrest⟩ := result_bind_eq_ok.mp h
      intro l hl
      rcases List.mem_cons.mp hl with rfl | hl
      · intro hempty
        exact packBin_unowned hempty k₁ hbin
      · exact ih hrest l hl

end Pack

-- ── The whole call ────────────────────────────────────────────────────────────

/-- With one more layer than components, packing leaves every component alone. -/
theorem basicPacking_layers (st : Statistics) (rounds : Nat) {raw : RawMeta}
    (hmin : 3 ≤ raw.layers.entries.length) :
    basicPacking st rounds raw.contentmeta.sizes (raw.contentmeta.sizes.length + 1) none
      = .ok ((raw.layers.entries.map fun layer => [layerComponent layer]) ++ [[]]) := by
  have hlen : raw.contentmeta.sizes.length = raw.layers.entries.length := List.length_map ..
  have hpos : 0 < raw.contentmeta.sizes.length := by omega
  have hbins : ¬ raw.contentmeta.sizes.length + 1 < minChunkedLayers := by
    rw [minChunkedLayers]
    omega
  rw [basicPacking, if_neg hbins, if_pos (Nat.lt_succ_self _), if_pos hpos]
  show Except.ok ((List.map _ (raw.layers.entries.map layerComponent)) ++ [[]]) = _
  rw [List.map_map]
  rfl

section Whole

variable {lib : Libostree} {st : Statistics} {repo : Repo} {fuel rounds : Nat} {rev : String}
  {c : Checksum} {commit : Commit} {raw : RawMeta} {labels : StrMap}

/-- What the commit holds: every content object, with its size and paths. -/
def wholeContent (repo : Repo) (fuel : Nat) (commit : Commit) : ChunkMapping :=
  (initialChunk repo.toObjects (repo.occurrences fuel false [.rootDir] commit.contents)).content

/-- An object of the commit is reachable from it. -/
theorem reaches_of_wholeContent {x : Checksum} (h : (wholeContent repo fuel commit)[x]? ≠ none) :
    repo.Reaches commit.contents .file x := by
  rw [wholeContent, initialChunk_content] at h
  by_cases hp : pathsOf (repo.occurrences fuel false [.rootDir] commit.contents) x = []
  · rw [if_pos hp] at h
    exact absurd rfl h
  · obtain ⟨p, hmem⟩ := List.exists_mem_of_ne_nil _ hp
    exact reaches_of_mem_occurrences (mem_pathsOf.mp hmem)

/-- Without a failure in the metadata, the call is `process_mapping` on the whole commit. -/
theorem containerExportChunking_eq (hrev : repo.requireRev rev = .ok c)
    (hcommit : repo.commits[c]? = some commit) (hcomplete : repo.Complete commit)
    (hdepth : repo.DepthLt fuel commit.contents) (hversion : raw.version = 1)
    (hordered : raw.ordered ≠ some true) (hmax : raw.layers.entries.length + 1 < 2 ^ 32) :
    ∃ n, containerExportChunking lib st repo rounds fuel rev raw labels
      = Chunking.processMapping st rounds
          { metadataSize := n
            remainder := initialChunk repo.toObjects
              (repo.occurrences fuel false [.rootDir] commit.contents) }
          raw.contentmeta (some (raw.contentmeta.sizes.length + 1)) none := by
  obtain ⟨n, hnew⟩ := chunkingNew_eq lib hrev hcommit hcomplete hdepth
  have hlen : raw.contentmeta.sizes.length = raw.layers.entries.length := List.length_map ..
  refine ⟨n, ?_⟩
  rw [containerExportChunking, RawMeta.read, if_neg (fun h => h hversion), if_neg hordered,
    bind_ok_eq]
  show (maxLayersFor raw.contentmeta >>= _) = _
  rw [maxLayersFor, if_neg (by omega), bind_ok_eq, Chunking.fromMapping, hnew, bind_ok_eq]

/-- **The layers of the metadata are honoured exactly when** there are at least three of them
    and fewer than 2^32 - 1, and each owns an object. -/
theorem containerExport_honoured_iff (hrev : repo.requireRev rev = .ok c)
    (hcommit : repo.commits[c]? = some commit) (hcomplete : repo.Complete commit)
    (hdepth : repo.DepthLt fuel commit.contents) (hversion : raw.version = 1)
    (hordered : raw.ordered ≠ some true)
    (hcovers : ∀ x, repo.Reaches commit.contents .file x → ∃ key, (x, key) ∈ raw.mapping.entries)
    (hlisted : ∀ p ∈ raw.mapping.entries, p.2 ∈ raw.layerKeys) :
    (∃ k, containerExportChunking lib st repo rounds fuel rev raw labels = .ok k ∧
        Honoured raw (wholeContent repo fuel commit) k) ↔
      3 ≤ raw.layers.entries.length ∧ raw.layers.entries.length + 1 < 2 ^ 32 ∧
        ∀ layer ∈ raw.layers.entries, ∃ x, (x, layer.1) ∈ raw.mapping.entries := by
  have hlen : raw.contentmeta.sizes.length = raw.layers.entries.length := List.length_map ..
  have howned : (∀ layer ∈ raw.layers.entries, raw.objectsOf layer.1 ≠ []) ↔
      ∀ layer ∈ raw.layers.entries, ∃ x, (x, layer.1) ∈ raw.mapping.entries := by
    refine forall₂_congr (fun layer _ => ?_)
    rw [Ne, List.eq_nil_iff_forall_not_mem, not_forall]
    simp only [not_not, mem_objectsOf]
  constructor
  · rintro ⟨k, hk, _⟩
    have hmax : raw.layers.entries.length + 1 < 2 ^ 32 := by
      by_contra hlarge
      rw [containerExportChunking, RawMeta.read, if_neg (fun h => h hversion), if_neg hordered,
        bind_ok_eq] at hk
      obtain ⟨m, hlimit, _⟩ := result_bind_eq_ok.mp hk
      have hwide : 2 ^ 32 ≤ raw.contentmeta.sizes.length + 1 := by omega
      rw [maxLayersFor, if_pos hwide] at hlimit
      exact absurd hlimit (by simp)
    obtain ⟨n, heq⟩ := @containerExportChunking_eq lib st repo fuel rounds rev c commit raw labels
      hrev hcommit hcomplete hdepth hversion hordered hmax
    rw [heq] at hk
    obtain ⟨_, _, packing, hpack, hfold⟩ := processMapping_inv (by simp) hk
    have hmin := minChunkedLayers_le hpack
    have hthree : 3 ≤ raw.layers.entries.length := by
      rw [minChunkedLayers, Option.getD_some] at hmin
      omega
    rw [Option.getD_some, basicPacking_layers st rounds hthree] at hpack
    obtain rfl := Except.ok.inj hpack
    exact ⟨hthree, hmax, howned.mp (packLayers_owned _ hfold)⟩
  · rintro ⟨hthree, hmax, hobjs⟩
    obtain ⟨n, heq⟩ := @containerExportChunking_eq lib st repo fuel rounds rev c commit raw labels
      hrev hcommit hcomplete hdepth hversion hordered hmax
    obtain ⟨k, chunks, hfold, hchunks, hholds, hrest⟩ := @packLayers raw
      { metadataSize := n
        remainder := initialChunk repo.toObjects
          (repo.occurrences fuel false [.rootDir] commit.contents)
        max := raw.contentmeta.sizes.length + 1
        processedMapping := true
        nProvidedComponents := raw.contentmeta.sizes.length
        nSizedComponents := (raw.contentmeta.sizes.filter (0 < ·.size)).length }
      raw.layers.entries raw.layers.nodup (howned.mpr hobjs)
    have hnone : ∀ x : Checksum, k.remainder.content[x]? = none := by
      intro x
      rcases (hrest x).2 with h | h
      · exact h
      · by_cases hx : (wholeContent repo fuel commit)[x]? = none
        · rw [h]
          exact hx
        · obtain ⟨key, hkey⟩ := hcovers x (reaches_of_wholeContent hx)
          obtain ⟨layer, hlayer, rfl⟩ := List.mem_map.mp (hlisted _ hkey)
          exact (hrest x).1 ⟨layer, hlayer, hkey⟩
    have hempty : k.remainder.content = ∅ := ExtTreeMap.ext_getElem? fun x =>
      (hnone x).trans (ExtTreeMap.lookup_empty x).symm
    refine ⟨{ k with chunks := k.chunks ++ [{ name := "Reserved for new packages" }] }, ?_,
      ⟨chunks, ?_, hholds⟩, hnone⟩
    · rw [heq]
      refine processMapping_ok rfl (Nat.succ_ne_zero _) (basicPacking_layers st rounds hthree) ?_ ?_
      · rw [List.foldlM_append]
        exact (congrArg (fun r => r >>= fun k => [[]].foldlM (packBin raw.contentmeta) k)
          hfold).trans (packBin_nil raw.contentmeta k)
      · rw [hempty]
        exact ExtTreeMap.size_empty
    · rw [hchunks]
      rfl

end Whole

/-- Three layers.  The third one owns an object that is not in the commit. -/
def threeLayers : RawMeta where
  version := 1
  layers := ⟨[("bin", "Programs"), ("etc", "Configuration"), ("unpackaged", "The rest")],
    by decide⟩
  mapping := ⟨[(sampleLinkSum, "bin"), (sampleMotdSum, "etc"), (emptyTreeSum, "unpackaged")],
    by decide⟩

/-- The files of the sample commit. -/
theorem mem_files_sampleTree {x : Checksum}
    (h : sampleRepo.Reaches sampleCommit.contents .file x) : x = sampleLinkSum ∨ x = sampleMotdSum := by
  obtain ⟨p, hp⟩ := exists_occurrence depthLt_sampleTree h [.rootDir]
  rw [occurrences_sampleTree] at hp
  simp only [List.mem_cons, Prod.mk.injEq, List.not_mem_nil, or_false] at hp
  exact hp.imp And.right And.right

/-- Each file is in the chunk of its layer, and the third chunk is empty. -/
theorem threeLayers_honoured : ∃ k, containerExportChunking sampleTables.lib sampleStatistics
      sampleRepo 0 2 sampleCommitSum threeLayers ∅ = .ok k ∧
    Honoured threeLayers (wholeContent sampleRepo 2 sampleCommit) k := by
  refine (containerExport_honoured_iff (if_pos isSha256_sampleCommitSum) lookup_sampleCommit
    sampleRepo_complete depthLt_sampleTree rfl (by simp [threeLayers])
    (fun x hx => ?_) (by decide)).mpr ⟨by decide, by decide, ?_⟩
  · rcases mem_files_sampleTree hx with rfl | rfl
    · exact ⟨"bin", by decide⟩
    · exact ⟨"etc", by decide⟩
  · intro layer hlayer
    simp only [threeLayers, List.mem_cons, List.not_mem_nil, or_false] at hlayer
    rcases hlayer with rfl | rfl | rfl
    · exact ⟨sampleLinkSum, by decide⟩
    · exact ⟨sampleMotdSum, by decide⟩
    · exact ⟨emptyTreeSum, by decide⟩

/-- Two layers, each with a file. -/
def twoLayers : RawMeta where
  version := 1
  layers := ⟨[("bin", "Programs"), ("etc", "Configuration")], by decide⟩
  mapping := ⟨[(sampleLinkSum, "bin"), (sampleMotdSum, "etc")], by decide⟩

/-- Two layers ask for three chunks, which packing refuses. -/
theorem twoLayers_refused :
    (∀ x, sampleRepo.Reaches sampleCommit.contents .file x →
      ∃ key, (x, key) ∈ twoLayers.mapping.entries) ∧
    (∀ p ∈ twoLayers.mapping.entries, p.2 ∈ twoLayers.layerKeys) ∧
    containerExportChunking sampleTables.lib sampleStatistics sampleRepo 0 2 sampleCommitSum
      twoLayers ∅ = .error (.err "Condition failed: `bin_size.get() >= MIN_CHUNKED_LAYERS`") := by
  refine ⟨fun x hx => ?_, by decide, ?_⟩
  · rcases mem_files_sampleTree hx with rfl | rfl
    · exact ⟨"bin", by decide⟩
    · exact ⟨"etc", by decide⟩
  · obtain ⟨n, heq⟩ := @containerExportChunking_eq sampleTables.lib sampleStatistics sampleRepo 2 0
      sampleCommitSum _ sampleCommit twoLayers ∅ (if_pos isSha256_sampleCommitSum)
      lookup_sampleCommit sampleRepo_complete depthLt_sampleTree rfl (by simp [twoLayers]) (by decide)
    rw [heq]
    rfl

end OstreeExt
