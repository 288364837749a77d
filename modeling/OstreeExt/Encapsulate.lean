import OstreeExt.Packing
import OstreeExt.Store.Layout
import OstreeExt.Tar.Streams

/-!
# Encapsulating a commit

`container/encapsulate.rs`: the chunks of a commit become layers of an image, after a first
layer with the commit itself.  A label holds the diff id of the last of them, so that a
reader can tell the layers of the commit from those that were added later.
`readsBack_iff` says when it can.
-/

namespace OstreeExt

open Tar Store Exec Objects

/-- How tar streams become blobs in an OCI directory: compression and the digests. -/
structure BlobWriter where
  layer : List Entry → Layer
  sha256_isSha256 : ∀ es, IsSha256 (layer es).sha256

/-- `packages.sort()`, and `join` with the separator. -/
def componentsText (packages : List String) : String :=
  String.intercalate componentSeparator.toString (packages.mergeSort (· ≤ ·))

/-- The annotations of a component layer. -/
def componentsMap (packages : List String) : StrMap :=
  (∅ : StrMap).insert contentAnnotationKey (componentsText packages)

section Definitions

variable (lib : Libostree) (tar : TarCrate) (blobs : BlobWriter) (repo : Repo)

/-- `export_chunks` -/
def exportChunks (commit : Checksum) (chunks : List Chunk) :
    Result (List (Layer × String × List String)) :=
  chunks.mapM fun chunk => do
    let es ← exportChunk lib tar repo commit chunk.content
    .ok (blobs.layer es, chunk.name, chunk.packages)

/-- One component layer is pushed. -/
def pushComponent (image : ImageManifest × ImageConfiguration)
    (l : Layer × String × List String) : ImageManifest × ImageConfiguration :=
  pushLayer image l.1 l.2.1 (some (componentsMap l.2.2))

/-- `export_chunked`: the image with the new layers, and the labels with the diff id of the
    last one.  Without chunks this is the layer of the commit. -/
def exportChunked (fuel : Nat) (commit : Checksum) (image : ImageManifest × ImageConfiguration)
    (labels : StrMap) (chunking : Chunking) (description : String) :
    Result ((ImageManifest × ImageConfiguration) × StrMap) := do
  let layers ← exportChunks lib tar blobs repo commit chunking.chunks
  let es ← exportFinalChunk lib tar repo fuel commit chunking.remainder
  let ostreeLayer := blobs.layer es
  let lastDigest := ((layers.getLast?.map (·.1)).getD ostreeLayer).uncompressedSha256
  let image := pushLayer image ostreeLayer description none
  let image := layers.foldl pushComponent image
  .ok (image, labels.insert diffidLabel ("sha256:" ++ lastDigest))

end Definitions

/-- `ctrcfg.labels_mut().get_or_insert_with(Default::default).extend(labels)` and
    `imgcfg.set_config` of `build_oci`. -/
def setLabels (ctrcfg : Config) (labels : StrMap) (imgcfg : ImageConfiguration) :
    ImageConfiguration :=
  { imgcfg with config := some { ctrcfg with
      labels := some (labels.toList.foldl (fun m p => m.insert p.1 p.2) (ctrcfg.labels.getD ∅)) } }

-- ── What the image consists of ────────────────────────────────────────────────

/-- A layer with the annotations it is pushed with. -/
abbrev Part := Layer × Option StrMap

/-- The descriptors of some parts. -/
def descriptors (parts : List Part) : List Descriptor := parts.map fun p => p.1.descriptor p.2

/-- The diff ids of some parts. -/
def diffIdsOf (parts : List Part) : List String := parts.map fun p => p.1.diffId

/-- The part of a component layer. -/
def componentPart (l : Layer × String × List String) : Part := (l.1, some (componentsMap l.2.2))

theorem foldl_pushComponent (layers : List (Layer × String × List String))
    (image : ImageManifest × ImageConfiguration) :
    ((layers.foldl pushComponent image).1.layers
        = image.1.layers ++ descriptors (layers.map componentPart)) ∧
      (layers.foldl pushComponent image).2.diffIds
        = image.2.diffIds ++ diffIdsOf (layers.map componentPart) ∧
      (layers.foldl pushComponent image).2.history.length
        = image.2.history.length + layers.length ∧
      (layers.foldl pushComponent image).2.config = image.2.config := by
  induction layers generalizing image with
  | nil => simp [descriptors, diffIdsOf]
  | cons l layers ih =>
      obtain ⟨h₁, h₂, h₃, h₄⟩ := ih (pushComponent image l)
      refine ⟨?_, ?_, ?_, h₄⟩
      · rw [List.foldl_cons, h₁]
        simp [pushComponent, pushLayer, descriptors, componentPart]
      · rw [List.foldl_cons, h₂]
        simp [pushComponent, pushLayer, diffIdsOf, componentPart]
      · rw [List.foldl_cons, h₃]
        simp only [pushComponent, pushLayer, List.length_append, List.length_cons, List.length_nil]
        omega

section Export

variable {lib : Libostree} {tar : TarCrate} {blobs : BlobWriter} {src : Repo} {c : Checksum}
  {commit : Commit} {fuel : Nat} {k : Chunking}

/-- The commit layer of an export. -/
def commitPart (lib : Libostree) (tar : TarCrate) (blobs : BlobWriter) (src : Repo) (fuel : Nat)
    (c : Checksum) (k : Chunking) : Part :=
  (blobs.layer (finalStream lib tar src fuel c k.remainder), none)

/-- The layer of a chunk. -/
def chunkPart (lib : Libostree) (tar : TarCrate) (blobs : BlobWriter) (src : Repo) (c : Checksum)
    (chunk : Chunk) : Part :=
  (blobs.layer (chunkStream lib tar src c chunk.content), some (componentsMap chunk.packages))

/-- All layers of an export. -/
def exportParts (lib : Libostree) (tar : TarCrate) (blobs : BlobWriter) (src : Repo) (fuel : Nat)
    (c : Checksum) (k : Chunking) : List Part :=
  commitPart lib tar blobs src fuel c k :: k.chunks.map (chunkPart lib tar blobs src c)

/-- The layer that the label names: that of the last chunk, if there is one. -/
def lastPart (lib : Libostree) (tar : TarCrate) (blobs : BlobWriter) (src : Repo) (fuel : Nat)
    (c : Checksum) (k : Chunking) : Part :=
  (k.chunks.getLast?.map (chunkPart lib tar blobs src c)).getD (commitPart lib tar blobs src fuel c k)

/-- The objects of a chunking are in the repository. -/
def Chunking.Within (k : Chunking) (o : Objects) : Prop :=
  ∀ chunk ∈ k.remainder :: k.chunks, ∀ x ∈ chunk.content, x ∈ o.files

/-- **`export_chunked`** succeeds on a stored commit; its layers are those of the chunks. -/
theorem exportChunked_run (hcommit : src.commits[c]? = some commit)
    (hcomplete : src.Complete commit) (hdepth : src.DepthLt fuel commit.contents)
    (hk : k.Within src.toObjects) (image : ImageManifest × ImageConfiguration) (labels : StrMap)
    (description : String) :
    ∃ image', exportChunked lib tar blobs src fuel c image labels k description = .ok (image',
        labels.insert diffidLabel (lastPart lib tar blobs src fuel c k).1.diffId) ∧
      image'.1.layers = image.1.layers ++ descriptors (exportParts lib tar blobs src fuel c k) ∧
      image'.2.diffIds = image.2.diffIds ++ diffIdsOf (exportParts lib tar blobs src fuel c k) ∧
      image'.2.history.length
        = image.2.history.length + (exportParts lib tar blobs src fuel c k).length ∧
      image'.2.config = image.2.config := by
  have hchunks : exportChunks lib tar blobs src c k.chunks = .ok (k.chunks.map fun chunk =>
      (blobs.layer (chunkStream lib tar src c chunk.content), chunk.name, chunk.packages)) := by
    refine mapM_ok (fun chunk hc => ?_)
    obtain ⟨es, hes, _⟩ := @exportChunk_ok lib tar src c commit hcommit chunk.content
      (hk chunk (List.mem_cons_of_mem _ hc))
    rw [chunkStream, hes]
    rfl
  obtain ⟨es, _, _, hes, _⟩ := @exportFinalChunk_ok lib tar src c commit hcommit hcomplete fuel
    hdepth k.remainder (hk _ (List.mem_cons_self ..))
  have hfinal : finalStream lib tar src fuel c k.remainder = es := by rw [finalStream, hes]
  let layers := k.chunks.map fun chunk =>
    (blobs.layer (chunkStream lib tar src c chunk.content), chunk.name, chunk.packages)
  let start := pushLayer image (blobs.layer es) description none
  obtain ⟨h₁, h₂, h₃, h₄⟩ := foldl_pushComponent layers start
  have hparts : layers.map componentPart = k.chunks.map (chunkPart lib tar blobs src c) := by
    rw [List.map_map]
    rfl
  have hlast : (layers.getLast?.map (·.1)).getD (blobs.layer es)
      = (lastPart lib tar blobs src fuel c k).1 := by
    rw [lastPart, commitPart, hfinal, List.getLast?_map]
    cases k.chunks.getLast? with
    | none => rfl
    | some last => rfl
  refine ⟨layers.foldl pushComponent start, ?_, ?_, ?_, ?_, ?_⟩
  · rw [exportChunked, hchunks, bind_ok_eq, hes, bind_ok_eq]
    dsimp only
    rw [hlast]
    rfl
  · rw [h₁, hparts]
    simp [start, pushLayer, exportParts, commitPart, descriptors, hfinal]
  · rw [h₂, hparts]
    simp [start, pushLayer, exportParts, commitPart, diffIdsOf, hfinal]
  · rw [h₃]
    simp only [start, pushLayer, layers, exportParts, List.length_append, List.length_cons,
      List.length_nil, List.length_map]
    omega
  · exact h₄

-- ── Reading it back ───────────────────────────────────────────────────────────

/-- The streams of an export. -/
def exportStreams (lib : Libostree) (tar : TarCrate) (src : Repo) (fuel : Nat) (c : Checksum)
    (k : Chunking) : List (List Entry) :=
  finalStream lib tar src fuel c k.remainder ::
    k.chunks.map fun chunk => chunkStream lib tar src c chunk.content

/-- The digests tell the streams of a list apart. -/
def BlobWriter.Distinct (blobs : BlobWriter) (streams : List (List Entry)) : Prop :=
  ∀ a ∈ streams, ∀ b ∈ streams,
    ((blobs.layer a).sha256 = (blobs.layer b).sha256 → a = b) ∧
    ((blobs.layer a).uncompressedSha256 = (blobs.layer b).uncompressedSha256 → a = b)

/-- **The reader finds the layers of the commit**, also when others were added. -/
def ReadsBack (manifest : ImageManifest) (config : ImageConfiguration) : Prop :=
  ∃ first rest, manifest.layers = first :: rest ∧
    ∀ extra : List (Descriptor × String),
      (∀ e ∈ extra, e.1.digest ∉ manifest.layers.map (·.digest)) →
      parseManifestLayout { manifest with layers := manifest.layers ++ extra.map (·.1) }
        { config with diffIds := config.diffIds ++ extra.map (·.2) }
        = .ok (first, rest, extra.map (·.1))

/-- If the last chunk is empty, no other one is. -/
def Chunking.LastDistinct (k : Chunking) : Prop :=
  ∀ init last, k.chunks = init ++ [last] → last.content = ∅ → ∀ other ∈ init, other.content ≠ ∅

/-- The chunks hold different objects. -/
def Chunking.Disjoint (k : Chunking) : Prop :=
  k.chunks.Pairwise fun a b => ∀ x ∈ a.content, x ∉ b.content

theorem digestText_inj {a b : String} (h : "sha256:" ++ a = "sha256:" ++ b) : a = b := by
  have hl := congrArg String.toList h
  rw [String.toList_append, String.toList_append] at hl
  exact String.toList_inj.mp (List.append_cancel_left hl)

/-- Different streams have different diff ids and descriptors. -/
theorem BlobWriter.Distinct.ne {streams : List (List Entry)} (h : blobs.Distinct streams)
    {a b : List Entry} (ha : a ∈ streams) (hb : b ∈ streams) (hne : a ≠ b) (x y : Option StrMap) :
    (blobs.layer a).diffId ≠ (blobs.layer b).diffId ∧
      (blobs.layer a).descriptor x ≠ (blobs.layer b).descriptor y := by
  constructor
  · intro heq
    exact hne ((h a ha b hb).2 (digestText_inj heq))
  · intro heq
    have hdigest : "sha256:" ++ (blobs.layer a).sha256 = "sha256:" ++ (blobs.layer b).sha256 :=
      congrArg Descriptor.digest heq
    exact hne ((h a ha b hb).1 (digestText_inj hdigest))

theorem lookup_foldl_insert {l : List (String × String)} (hnodup : (l.map (·.1)).Nodup)
    {key value : String} (h : (key, value) ∈ l) (base : StrMap) :
    (l.foldl (fun m p => m.insert p.1 p.2) base)[key]? = some value := by
  induction l using List.reverseRecOn with
  | nil => exact absurd h (by simp)
  | append_singleton l p ih =>
      rw [List.map_append, List.nodup_append] at hnodup
      rw [List.foldl_append, List.foldl_cons, List.foldl_nil, Std.ExtTreeMap.lookup_insert]
      rcases List.mem_append.mp h with hmem | hmem
      · have hne : p.1 ≠ key := fun heq => hnodup.2.2 key (List.mem_map_of_mem (f := (·.1)) hmem)
          p.1 (by simp) heq.symm
        rw [if_neg hne]
        exact ih hnodup.1 hmem
      · obtain rfl := List.mem_singleton.mp hmem
        rw [if_pos rfl]

/-- The labels that were set can be read. -/
theorem labelsOf_setLabels (ctrcfg : Config) {labels : StrMap} (imgcfg : ImageConfiguration)
    {key value : String} (h : labels[key]? = some value) :
    (labelsOf (setLabels ctrcfg labels imgcfg)).bind (·[key]?) = some value :=
  lookup_foldl_insert (Std.ExtTreeMap.nodup_keys_toList labels)
    (Std.ExtTreeMap.mem_toList_iff.mpr h) _

/-- The last chunk's stream is not that of another layer. -/
theorem lastStream_ne (hcommit : src.commits[c]? = some commit) (hcomplete : src.Complete commit)
    (hdepth : src.DepthLt fuel commit.contents) (hk : k.Within src.toObjects)
    (hdisj : k.Disjoint) (hlast : k.LastDistinct) {init : List Chunk} {last : Chunk}
    (hchunks : k.chunks = init ++ [last]) {s : List Entry}
    (hs : s ∈ finalStream lib tar src fuel c k.remainder ::
      init.map fun chunk => chunkStream lib tar src c chunk.content) :
    s ≠ chunkStream lib tar src c last.content := by
  have hin : ∀ chunk ∈ k.chunks, ∀ x ∈ chunk.content, x ∈ src.files := fun chunk hc =>
    hk chunk (List.mem_cons_of_mem _ hc)
  have hlastmem : last ∈ k.chunks := by rw [hchunks]; simp
  rcases List.mem_cons.mp hs with rfl | hs
  · exact finalStream_ne hcommit hcomplete hdepth (hk _ (List.mem_cons_self ..)) (hin last hlastmem)
  · obtain ⟨other, hother, rfl⟩ := List.mem_map.mp hs
    have hothermem : other ∈ k.chunks := by rw [hchunks]; simp [hother]
    intro heq
    rcases chunkStream_eq hcommit (hin other hothermem) (hin last hlastmem) heq with
      ⟨hempty, hempty'⟩ | ⟨x, hx, hx'⟩
    · exact hlast init last hchunks hempty' other hother hempty
    · have hpair := hdisj
      rw [Chunking.Disjoint, hchunks, List.pairwise_append] at hpair
      exact hpair.2.2 other hother last (by simp) x hx hx'

/-- The layers of an export, read back. -/
theorem readsBack_of_lastDistinct (hcommit : src.commits[c]? = some commit)
    (hcomplete : src.Complete commit) (hdepth : src.DepthLt fuel commit.contents)
    (hk : k.Within src.toObjects) (hdisj : k.Disjoint)
    (hblobs : blobs.Distinct (exportStreams lib tar src fuel c k)) (hlast : k.LastDistinct)
    {manifest : ImageManifest} {config : ImageConfiguration}
    (hlayers : manifest.layers = descriptors (exportParts lib tar blobs src fuel c k))
    (hids : config.diffIds = diffIdsOf (exportParts lib tar blobs src fuel c k))
    (hlabel : (labelsOf config).bind (·[diffidLabel]?)
      = some (lastPart lib tar blobs src fuel c k).1.diffId) : ReadsBack manifest config := by
  let first := (commitPart lib tar blobs src fuel c k).1.descriptor none
  have hfinal : finalStream lib tar src fuel c k.remainder ∈ exportStreams lib tar src fuel c k :=
    List.mem_cons_self ..
  have hchunk : ∀ chunk ∈ k.chunks,
      chunkStream lib tar src c chunk.content ∈ exportStreams lib tar src fuel c k :=
    fun chunk hc => List.mem_cons_of_mem _ (List.mem_map_of_mem hc)
  -- no chunk layer is the commit layer
  have hfilter : ∀ chunks : List Chunk, (∀ chunk ∈ chunks, chunk ∈ k.chunks) →
      (descriptors (chunks.map (chunkPart lib tar blobs src c))).filter (· ≠ first)
        = descriptors (chunks.map (chunkPart lib tar blobs src c)) := by
    intro chunks hsub
    refine List.filter_eq_self.mpr (fun d hd => ?_)
    rw [descriptors, List.map_map] at hd
    obtain ⟨chunk, hc, rfl⟩ := List.mem_map.mp hd
    have hne : finalStream lib tar src fuel c k.remainder
        ≠ chunkStream lib tar src c chunk.content :=
      finalStream_ne hcommit hcomplete hdepth (hk _ (List.mem_cons_self ..))
        (hk chunk (List.mem_cons_of_mem _ (hsub chunk hc)))
    have hdesc := (hblobs.ne hfinal (hchunk chunk (hsub chunk hc)) hne none
      (some (componentsMap chunk.packages))).2
    exact decide_eq_true (Ne.symm hdesc)
  refine ⟨first, descriptors (k.chunks.map (chunkPart lib tar blobs src c)), hlayers, ?_⟩
  intro extra hextra
  have hnew : ∀ d ∈ manifest.layers, d ∉ extra.map (·.1) := by
    intro d hd hmem
    obtain ⟨e, he, rfl⟩ := List.mem_map.mp hmem
    exact hextra e he (List.mem_map_of_mem hd)
  rcases List.eq_nil_or_concat k.chunks with hnil | ⟨init, last, hchunks⟩
  · have hparts : exportParts lib tar blobs src fuel c k = [commitPart lib tar blobs src fuel c k] := by
      rw [exportParts, hnil]
      rfl
    have hone : manifest.layers = [first] := by rw [hlayers, hparts]; rfl
    have hlayout : Layout { manifest with layers := manifest.layers ++ extra.map (·.1) }
        { config with diffIds := config.diffIds ++ extra.map (·.2) } first [] first
        (extra.map (·.1)) (commitPart lib tar blobs src fuel c k).1.diffId := {
      layers := by rw [hone]; rfl
      head := by rw [hone]; rfl
      label := by
        rw [lastPart, hnil] at hlabel
        exact hlabel
      index := by
        rw [findIdx_iff, hids, hparts]
        exact ⟨[], _, rfl, by simp, rfl⟩
      before := by simp
      behind := hnew first (by rw [hone]; simp) }
    rw [hlayout.parse, hnil]
    simp [descriptors]
  · rw [List.concat_eq_append] at hchunks
    let target := (chunkPart lib tar blobs src c last).1.descriptor
      (some (componentsMap last.packages))
    let pre := commitPart lib tar blobs src fuel c k :: init.map (chunkPart lib tar blobs src c)
    have hparts : exportParts lib tar blobs src fuel c k
        = pre ++ [chunkPart lib tar blobs src c last] := by
      rw [exportParts, hchunks, List.map_append]
      rfl
    have hlastmem : last ∈ k.chunks := by rw [hchunks]; simp
    -- the parts before the last one have other streams
    have hbefore : ∀ part ∈ pre,
        part.1.diffId ≠ (chunkPart lib tar blobs src c last).1.diffId ∧
        part.1.descriptor part.2 ≠ target := by
      intro part hpart
      rcases List.mem_cons.mp hpart with rfl | hpart
      · exact hblobs.ne hfinal (hchunk last hlastmem) (lastStream_ne hcommit hcomplete hdepth hk
          hdisj hlast hchunks (List.mem_cons_self ..)) _ _
      · obtain ⟨chunk, hc, rfl⟩ := List.mem_map.mp hpart
        exact hblobs.ne (hchunk chunk (by rw [hchunks]; simp [hc])) (hchunk last hlastmem)
          (lastStream_ne hcommit hcomplete hdepth hk hdisj hlast hchunks
            (List.mem_cons_of_mem _ (List.mem_map_of_mem hc))) _ _
    have hall : manifest.layers = descriptors pre ++ [target] := by
      rw [hlayers, hparts, descriptors, List.map_append]
      rfl
    have hlayout : Layout { manifest with layers := manifest.layers ++ extra.map (·.1) }
        { config with diffIds := config.diffIds ++ extra.map (·.2) } first (descriptors pre) target
        (extra.map (·.1)) (chunkPart lib tar blobs src c last).1.diffId := {
      layers := by rw [hall, List.append_assoc]; rfl
      head := by rw [hall]; rfl
      label := by
        rw [lastPart, hchunks, List.getLast?_append] at hlabel
        exact hlabel
      index := by
        rw [findIdx_iff, hids, hparts, diffIdsOf, List.map_append, List.append_assoc]
        refine ⟨diffIdsOf pre, _, rfl, ?_, by simp [diffIdsOf, descriptors]⟩
        intro hmem
        obtain ⟨part, hpart, heq⟩ := List.mem_map.mp hmem
        exact (hbefore part hpart).1 heq
      before := by
        intro hmem
        obtain ⟨part, hpart, heq⟩ := List.mem_map.mp hmem
        exact (hbefore part hpart).2 heq
      behind := hnew target (by rw [hall]; simp) }
    have hrest : (descriptors pre ++ [target]).filter (· ≠ first)
        = descriptors (k.chunks.map (chunkPart lib tar blobs src c)) := by
      have hcons : descriptors pre ++ [target]
          = first :: descriptors (k.chunks.map (chunkPart lib tar blobs src c)) :=
        hall.symm.trans hlayers
      rw [hcons, List.filter_cons_of_neg (by simp)]
      exact hfilter k.chunks (fun _ h => h)
    rw [hlayout.parse, hrest]

/-- A second empty chunk hides the last one: its diff id comes first. -/
theorem lastDistinct_of_readsBack {manifest : ImageManifest} {config : ImageConfiguration}
    (hlayers : manifest.layers = descriptors (exportParts lib tar blobs src fuel c k))
    (hids : config.diffIds = diffIdsOf (exportParts lib tar blobs src fuel c k))
    (hlabel : (labelsOf config).bind (·[diffidLabel]?)
      = some (lastPart lib tar blobs src fuel c k).1.diffId)
    (h : ReadsBack manifest config) : k.LastDistinct := by
  intro init last hchunks hempty other hother hempty'
  obtain ⟨first, rest, _, hparse⟩ := h
  have hparse := hparse [] (by simp)
  obtain ⟨before, target, id, hlayout, _⟩ := layout_of_parse hparse
  have hid : id = (chunkPart lib tar blobs src c last).1.diffId := by
    have hsame := hlayout.label.symm.trans hlabel
    rw [lastPart, hchunks, List.getLast?_append] at hsame
    exact Option.some.inj hsame
  have hlen : before.length = (init.length + 1) := by
    have hl := congrArg List.length hlayout.layers
    rw [hlayers, exportParts, hchunks] at hl
    simp [descriptors] at hl
    omega
  obtain ⟨ids₀, ids₁, heq, hnot, hlen₀⟩ := findIdx_iff.mp hlayout.index
  have hsplit : config.diffIds = diffIdsOf (commitPart lib tar blobs src fuel c k ::
      init.map (chunkPart lib tar blobs src c)) ++ [(chunkPart lib tar blobs src c last).1.diffId] := by
    rw [hids, exportParts, hchunks, List.map_append]
    simp [diffIdsOf]
  have hids₀ : ids₀ = diffIdsOf (commitPart lib tar blobs src fuel c k ::
      init.map (chunkPart lib tar blobs src c)) := by
    have heq' : config.diffIds ++ [] = ids₀ ++ id :: ids₁ := heq
    rw [List.append_nil, hsplit] at heq'
    refine (List.append_inj_left heq' ?_).symm
    rw [hlen₀, hlen]
    simp [diffIdsOf]
  -- both chunks have the stream of the empty chunk
  refine hnot ?_
  rw [hids₀, hid]
  refine List.mem_map.mpr ⟨chunkPart lib tar blobs src c other,
    List.mem_cons_of_mem _ (List.mem_map_of_mem hother), ?_⟩
  rw [chunkPart, chunkPart, hempty, hempty']

/-- **When a chunked image can be read back.** -/
theorem readsBack_iff (hcommit : src.commits[c]? = some commit)
    (hcomplete : src.Complete commit) (hdepth : src.DepthLt fuel commit.contents)
    (hk : k.Within src.toObjects) (hdisj : k.Disjoint)
    (hblobs : blobs.Distinct (exportStreams lib tar src fuel c k))
    {manifest : ImageManifest} {imgcfg : ImageConfiguration} (hmanifest : manifest.layers = [])
    (hconfig : imgcfg.diffIds = []) (labels : StrMap) (ctrcfg : Config) (description : String) :
    ∃ image labels', exportChunked lib tar blobs src fuel c (manifest, imgcfg) labels k description
        = .ok (image, labels') ∧
      (ReadsBack image.1 (setLabels ctrcfg labels' image.2) ↔ k.LastDistinct) := by
  obtain ⟨image, hrun, hlayers, hids, _⟩ := @exportChunked_run lib tar blobs src c commit fuel k
    hcommit hcomplete hdepth hk (manifest, imgcfg) labels description
  have hlayers : image.1.layers = descriptors (exportParts lib tar blobs src fuel c k) := by
    rw [hlayers, hmanifest]
    rfl
  have hids : image.2.diffIds = diffIdsOf (exportParts lib tar blobs src fuel c k) := by
    rw [hids, hconfig]
    rfl
  let labels' := labels.insert diffidLabel (lastPart lib tar blobs src fuel c k).1.diffId
  have hids : (setLabels ctrcfg labels' image.2).diffIds
      = diffIdsOf (exportParts lib tar blobs src fuel c k) := hids
  have hlabel : (labelsOf (setLabels ctrcfg labels' image.2)).bind (·[diffidLabel]?)
      = some (lastPart lib tar blobs src fuel c k).1.diffId :=
    labelsOf_setLabels ctrcfg image.2 (by rw [Std.ExtTreeMap.lookup_insert, if_pos rfl])
  refine ⟨image, _, hrun, ?_, ?_⟩
  · intro h
    exact lastDistinct_of_readsBack hlayers hids hlabel h
  · intro h
    exact readsBack_of_lastDistinct hcommit hcomplete hdepth hk hdisj hblobs h hlayers hids hlabel

end Export

-- ── A sample ──────────────────────────────────────────────────────────────────

/-- A digest for each number up to 64. -/
def tallySum (n : Nat) : String :=
  String.ofList (List.replicate (min n 64) 'a' ++ List.replicate (64 - min n 64) '0')

theorem isSha256_tallySum (n : Nat) : IsSha256 (tallySum n) := by
  rw [IsSha256, tallySum, String.toList_ofList]
  constructor
  · simp only [List.length_append, List.length_replicate]
    omega
  · intro c hc
    rcases List.mem_append.mp hc with hc | hc
    · rw [(List.mem_replicate.mp hc).2]
      decide
    · rw [(List.mem_replicate.mp hc).2]
      decide

theorem tallySum_inj {m n : Nat} (hm : m ≤ 64) (hn : n ≤ 64) (h : tallySum m = tallySum n) :
    m = n := by
  have hcount := congrArg (fun s : String => s.toList.count 'a') h
  simp only [tallySum, String.toList_ofList, List.count_append, List.count_replicate_self,
    List.count_replicate] at hcount
  simp at hcount
  omega

/-- A writer that numbers the streams it knows. -/
def tallyWriter (known : List (List Entry)) : BlobWriter where
  layer es :=
    { sha256 := tallySum (known.idxOf es)
      size := es.length
      uncompressedSha256 := tallySum (known.idxOf es)
      mediaType := .imageLayerGzip }
  sha256_isSha256 es := isSha256_tallySum (known.idxOf es)

theorem tallyWriter_distinct {known : List (List Entry)} (hlen : known.length ≤ 64) :
    (tallyWriter known).Distinct known := by
  intro a ha b hb
  have hinj : tallySum (known.idxOf a) = tallySum (known.idxOf b) → a = b := by
    intro h
    have hle := List.idxOf_lt_length_of_mem ha
    have hle' := List.idxOf_lt_length_of_mem hb
    exact (List.idxOf_inj ha).mp (tallySum_inj (by omega) (by omega) h)
  exact ⟨hinj, hinj⟩

/-- The two files of the sample commit belong to one component. -/
def sampleContentmeta : ObjectMetaSized where
  map := [(sampleLinkSum, "filesystem"), (sampleMotdSum, "filesystem")]
  sizes := [{ identifier := "filesystem", name := "filesystem", changeFrequency := 1, size := 3 }]

/-- Statistics are not asked for when there are fewer components than layers. -/
def sampleStatistics : Statistics where
  highSize _ _ := false
  lowSize _ _ := false
  medHighSize _ _ := false
  medLowSize _ _ := false
  medHighFreq _ _ := false
  medLowFreq _ _ := false
  highSizeCutoff _ := 0

/-- The files of the sample commit. -/
theorem occurrences_sampleTree : sampleRepo.occurrences 2 false [.rootDir] sampleTreeSum
    = [([.rootDir, .normal "bin"], sampleLinkSum), ([.rootDir, .normal "motd"], sampleMotdSum)] := by
  simp only [occurrences, lookup_sampleTree, sampleTree, List.flatMap_cons,
    List.flatMap_nil, lookup_emptyTree, emptyTree, List.map_cons, List.map_nil]
  rfl

/-- The chunk with all files of the sample commit. -/
def sampleWhole : Chunk :=
  initialChunk sampleRepo.toObjects (sampleRepo.occurrences 2 false [.rootDir] sampleTreeSum)

theorem lookup_sampleWhole {x : Checksum} (hx : x ∉ [sampleLinkSum, sampleMotdSum]) :
    sampleWhole.content[x]? = none := by
  have hpaths : pathsOf (sampleRepo.occurrences 2 false [.rootDir] sampleTreeSum) x = [] := by
    rw [List.eq_nil_iff_forall_not_mem]
    intro p hp
    rw [mem_pathsOf, occurrences_sampleTree] at hp
    apply hx
    simp only [List.mem_cons, Prod.mk.injEq, List.not_mem_nil, or_false] at hp ⊢
    exact hp.imp And.right And.right
  rw [sampleWhole, initialChunk_content, if_pos hpaths]

/-- The chunk that the component becomes, and what is left. -/
@[irreducible] def sampleMoved : Chunk × Chunk :=
  sampleWhole.moveObjs { name := "filesystem", packages := ["filesystem"] }
    [sampleLinkSum, sampleMotdSum]

theorem sampleMoved_rest : sampleMoved.1.content = ∅ := by
  apply Std.ExtTreeMap.ext_getElem?
  intro x
  rw [sampleMoved, (moveObjs_content _ _ _ x).1, Std.ExtTreeMap.lookup_empty]
  by_cases hx : x ∈ [sampleLinkSum, sampleMotdSum]
  · rw [if_pos hx]
  · rw [if_neg hx, lookup_sampleWhole hx]

/-- What `process_mapping` makes of it: one chunk with both files, and an empty one. -/
def sampleChunking (n : Nat) : Chunking where
  metadataSize := n
  remainder := sampleMoved.1
  chunks := [sampleMoved.2, { name := "Reserved for new packages" }]
  max := 64
  processedMapping := true
  nProvidedComponents := 1
  nSizedComponents := 1

/-- The bin of the component. -/
theorem packBin_sample {k : Chunking} (hk : k.remainder = sampleWhole) :
    packBin sampleContentmeta k sampleContentmeta.sizes
      = .ok { k with remainder := sampleMoved.1, chunks := k.chunks ++ [sampleMoved.2] } := by
  have hobjs : objectsOfComponent sampleContentmeta "filesystem"
      = .ok [sampleLinkSum, sampleMotdSum] := by
    simp [objectsOfComponent, sampleContentmeta]
  have hall : sampleContentmeta.sizes.mapM
      (fun c => objectsOfComponent sampleContentmeta c.identifier)
      = .ok [[sampleLinkSum, sampleMotdSum]] := by
    show (do
      let objs ← objectsOfComponent sampleContentmeta "filesystem"
      let rest ← pure []
      pure (objs :: rest)) = _
    rw [hobjs]
    rfl
  refine packBin_ok hall k ?_
  rw [hk, sampleMoved]
  rfl

/-- A bin without components. -/
theorem packBin_nil (contentmeta : ObjectMetaSized) (k : Chunking) :
    packBin contentmeta k []
      = .ok { k with chunks := k.chunks ++ [{ name := "Reserved for new packages" }] } := by
  have hnone : ([] : Bin).mapM (fun c => objectsOfComponent contentmeta c.identifier) = .ok [] := rfl
  exact packBin_ok hnone k rfl

theorem size_sampleMoved_rest : sampleMoved.1.content.size = 0 := by
  rw [sampleMoved_rest]
  exact Std.ExtTreeMap.size_empty

theorem processMapping_sample (n : Nat) :
    Chunking.processMapping sampleStatistics 0 { metadataSize := n, remainder := sampleWhole }
      sampleContentmeta none none = .ok (sampleChunking n) := by
  have hpack : basicPacking sampleStatistics 0 sampleContentmeta.sizes 64 none
      = .ok [sampleContentmeta.sizes, []] := by
    simp [basicPacking, sampleContentmeta, minChunkedLayers]
  refine processMapping_ok rfl (by simp [maxChunks]) hpack ?_ size_sampleMoved_rest
  rw [List.foldlM_cons, packBin_sample rfl, bind_ok_eq, List.foldlM_cons, packBin_nil]
  rfl

/-- A build in which the component came second, after one that is gone by now. -/
def sampleParent : ImageManifest where
  config := { mediaType := .imageConfig, digest := "sha256:" ++ tallySum 1, size := 1 }
  layers := [{ mediaType := .imageLayerGzip, digest := "sha256:" ++ tallySum 2, size := 1 },
    { mediaType := .imageLayerGzip, digest := "sha256:" ++ tallySum 3, size := 1,
      annotations := some (componentsMap ["retired"]) },
    { mediaType := .imageLayerGzip, digest := "sha256:" ++ tallySum 4, size := 1,
      annotations := some (componentsMap ["filesystem"]) },
    { mediaType := .imageLayerGzip, digest := "sha256:" ++ tallySum 5, size := 1,
      annotations := some (componentsMap []) }]

/-- What `process_mapping` makes of the sample commit after that build. -/
def sampleRebuilt (n : Nat) : Chunking where
  metadataSize := n
  remainder := sampleMoved.1
  chunks := [{ name := "Reserved for new packages" }, sampleMoved.2,
    { name := "Reserved for new packages" }]
  max := 64
  processedMapping := true
  nProvidedComponents := 1
  nSizedComponents := 1

theorem processMapping_rebuilt (n : Nat) :
    Chunking.processMapping sampleStatistics 0 { metadataSize := n, remainder := sampleWhole }
      sampleContentmeta none (some sampleParent) = .ok (sampleRebuilt n) := by
  have hpack : basicPacking sampleStatistics 0 sampleContentmeta.sizes 64 (some sampleParent)
      = .ok [[], sampleContentmeta.sizes, []] := by
    decide +kernel
  refine processMapping_ok rfl (by simp [maxChunks]) hpack ?_ size_sampleMoved_rest
  rw [List.foldlM_cons, packBin_nil, bind_ok_eq, List.foldlM_cons, packBin_sample rfl, bind_ok_eq,
    List.foldlM_cons, packBin_nil]
  rfl

theorem mem_sampleWhole {x : Checksum} (hx : x ∈ [sampleLinkSum, sampleMotdSum]) :
    x ∈ sampleWhole.content := by
  have hocc : ∃ p, (p, x) ∈ sampleRepo.occurrences 2 false [.rootDir] sampleTreeSum := by
    rw [occurrences_sampleTree]
    simp only [List.mem_cons, List.not_mem_nil, or_false] at hx
    rcases hx with hx | hx
    · exact ⟨[.rootDir, .normal "bin"], by simp [hx]⟩
    · exact ⟨[.rootDir, .normal "motd"], by simp [hx]⟩
  obtain ⟨p, hp⟩ := hocc
  rw [sampleWhole, Std.ExtTreeMap.mem_iff_lookup, initialChunk_content,
    if_neg (List.ne_nil_of_mem (mem_pathsOf.mpr hp))]
  exact ⟨_, rfl⟩

/-- The objects of the chunk. -/
theorem mem_sampleMoved {x : Checksum} :
    x ∈ sampleMoved.2.content ↔ x ∈ [sampleLinkSum, sampleMotdSum] := by
  have hempty : ({ name := "filesystem", packages := ["filesystem"] } : Chunk).content[x]? = none :=
    Std.ExtTreeMap.lookup_empty x
  rw [Std.ExtTreeMap.mem_iff_lookup, sampleMoved, (moveObjs_content _ _ _ x).2, hempty,
    Option.or_none]
  by_cases hx : x ∈ [sampleLinkSum, sampleMotdSum]
  · rw [if_pos hx]
    exact iff_of_true (Std.ExtTreeMap.mem_iff_lookup.mp (mem_sampleWhole hx)) hx
  · rw [if_neg hx]
    exact iff_of_false (by simp) hx

/-- The objects of both chunkings are those of the sample commit. -/
theorem within_sample {k : Chunking} (hrest : k.remainder = sampleMoved.1)
    (hchunks : ∀ chunk ∈ k.chunks, chunk = sampleMoved.2 ∨ chunk.content = ∅) :
    k.Within sampleRepo.toObjects := by
  intro chunk hc x hx
  have hnone : chunk.content ≠ ∅ := by
    rintro hempty
    rw [hempty] at hx
    exact Std.ExtTreeMap.not_mem_empty hx
  rcases List.mem_cons.mp hc with rfl | hc
  · rw [hrest, sampleMoved_rest] at hnone
    exact absurd rfl hnone
  · rw [(hchunks chunk hc).resolve_right hnone] at hx
    have hfiles := mem_sampleMoved.mp hx
    simp only [List.mem_cons, List.not_mem_nil, or_false] at hfiles
    rcases hfiles with rfl | rfl
    · exact Std.ExtTreeMap.mem_iff_lookup.mpr ⟨_, lookup_sampleLink⟩
    · exact Std.ExtTreeMap.mem_iff_lookup.mpr ⟨_, lookup_sampleMotd⟩

/-- A chunk without objects is disjoint from any other. -/
theorem disjoint_of_empty {a b : Chunk} (h : a.content = ∅ ∨ b.content = ∅) :
    ∀ x ∈ a.content, x ∉ b.content := by
  intro x ha hb
  rcases h with h | h
  · rw [h] at ha
    exact Std.ExtTreeMap.not_mem_empty ha
  · rw [h] at hb
    exact Std.ExtTreeMap.not_mem_empty hb

/-- An image without layers. -/
def emptyImage : ImageManifest × ImageConfiguration :=
  ({ config := { mediaType := .imageConfig, digest := "sha256:" ++ tallySum 0, size := 2 }
     layers := [] }, {})

theorem sampleRepo_complete : sampleRepo.Complete sampleCommit :=
  fun ty x hx => (sampleCommit_stored.intact ty x hx).has

/-- The commit, a chunk and an empty chunk are three layers that are read back. -/
theorem sampleCommit_readsBack : ∃ (n : Nat) (blobs : BlobWriter)
    (image : ImageManifest × ImageConfiguration) (labels : StrMap),
    exportChunked sampleTables.lib sampleTar blobs sampleRepo 2 sampleCommitSum emptyImage ∅
      (sampleChunking n) "" = .ok (image, labels) ∧
    (sampleChunking n).chunks.length = 2 ∧ ReadsBack image.1 (setLabels {} labels image.2) := by
  have hmem : ∀ chunk ∈ (sampleChunking 0).chunks, chunk = sampleMoved.2 ∨ chunk.content = ∅ := by
    intro chunk hc
    simp only [sampleChunking, List.mem_cons, List.not_mem_nil, or_false] at hc
    exact hc.imp id (fun h => by rw [h])
  have hdisj : (sampleChunking 0).Disjoint :=
    List.pairwise_pair.mpr (disjoint_of_empty (.inr rfl))
  have hlast : (sampleChunking 0).LastDistinct := by
    intro init last heq _ other hother hempty
    have hinit : [sampleMoved.2] = init :=
      (List.append_inj' (show [sampleMoved.2] ++ [_] = init ++ [last] from heq) rfl).1
    rw [← hinit, List.mem_singleton] at hother
    have hlink : sampleLinkSum ∈ sampleMoved.2.content := mem_sampleMoved.mpr (by simp)
    rw [← hother, hempty] at hlink
    exact Std.ExtTreeMap.not_mem_empty hlink
  have hdistinct : (tallyWriter _).Distinct (exportStreams sampleTables.lib sampleTar sampleRepo 2
      sampleCommitSum (sampleChunking 0)) := tallyWriter_distinct (Nat.le_of_ble_eq_true rfl)
  have hlayers : emptyImage.1.layers = [] := rfl
  have hids : emptyImage.2.diffIds = [] := rfl
  obtain ⟨image, labels, hrun, hiff⟩ := readsBack_iff lookup_sampleCommit sampleRepo_complete
    depthLt_sampleTree (within_sample rfl hmem) hdisj hdistinct hlayers hids ∅ {} ""
  exact ⟨0, _, image, labels, hrun, rfl, hiff.mpr hlast⟩

/-- After the other build there are two empty chunks, and the reader takes the first for the
    last one. -/
theorem sampleRebuilt_not_readsBack : ∃ (n : Nat) (k : Chunking) (blobs : BlobWriter)
    (image : ImageManifest × ImageConfiguration) (labels : StrMap),
    Chunking.new sampleTables.lib sampleRepo 2 sampleCommitSum
      = .ok { metadataSize := n, remainder := sampleWhole } ∧
    Chunking.processMapping sampleStatistics 0 { metadataSize := n, remainder := sampleWhole }
      sampleContentmeta none (some sampleParent) = .ok k ∧
    k.Disjoint ∧
    blobs.Distinct (exportStreams sampleTables.lib sampleTar sampleRepo 2 sampleCommitSum k) ∧
    exportChunked sampleTables.lib sampleTar blobs sampleRepo 2 sampleCommitSum emptyImage ∅ k ""
      = .ok (image, labels) ∧
    ¬ ReadsBack image.1 (setLabels {} labels image.2) := by
  have hrev : sampleRepo.requireRev sampleCommitSum = .ok sampleCommitSum :=
    if_pos isSha256_sampleCommitSum
  obtain ⟨n, hnew⟩ := chunkingNew_eq sampleTables.lib hrev lookup_sampleCommit sampleRepo_complete
    depthLt_sampleTree
  have hmem : ∀ chunk ∈ (sampleRebuilt n).chunks, chunk = sampleMoved.2 ∨ chunk.content = ∅ := by
    intro chunk hc
    simp only [sampleRebuilt, List.mem_cons, List.not_mem_nil, or_false] at hc
    rcases hc with h | h | h
    · exact .inr (by rw [h])
    · exact .inl h
    · exact .inr (by rw [h])
  have hdisj : (sampleRebuilt n).Disjoint := by
    refine List.pairwise_cons.mpr ⟨fun _ _ => disjoint_of_empty (.inl rfl), ?_⟩
    exact List.pairwise_pair.mpr (disjoint_of_empty (.inr rfl))
  let known := exportStreams sampleTables.lib sampleTar sampleRepo 2 sampleCommitSum (sampleRebuilt n)
  obtain ⟨image, hrun, hlayers, hids, _⟩ := @exportChunked_run sampleTables.lib sampleTar
    (tallyWriter known) sampleRepo sampleCommitSum sampleCommit 2 (sampleRebuilt n)
    lookup_sampleCommit sampleRepo_complete depthLt_sampleTree (within_sample rfl hmem) emptyImage ∅ ""
  refine ⟨n, sampleRebuilt n, tallyWriter known, image, _, hnew, processMapping_rebuilt n, hdisj,
    tallyWriter_distinct (Nat.le_of_ble_eq_true rfl), hrun, ?_⟩
  intro hread
  have hlast : (sampleRebuilt n).LastDistinct := lastDistinct_of_readsBack hlayers
    (show (setLabels {} (Std.ExtTreeMap.insert ∅ diffidLabel _) image.2).diffIds = _ from hids)
    (labelsOf_setLabels {} image.2 (by rw [Std.ExtTreeMap.lookup_insert, if_pos rfl])) hread
  have hchunks : (sampleRebuilt n).chunks
      = [{ name := "Reserved for new packages" }, sampleMoved.2]
        ++ [{ name := "Reserved for new packages" }] := rfl
  exact hlast _ _ hchunks rfl { name := "Reserved for new packages" } (by simp) rfl

end OstreeExt
