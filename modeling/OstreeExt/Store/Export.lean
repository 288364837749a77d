import OstreeExt.Store.Chunked
import OstreeExt.Store.Gc

/-!
# Exporting a stored image

`export_to_oci` writes an image that is in the repository to an OCI directory.  The tar
streams are made again, so manifest and configuration are taken over with their layers
reset: of the lists that run in parallel to the layers, the history is cleared and the diff
ids are not, and the label with the diff id of the last chunk is computed and dropped.
-/

namespace OstreeExt.Store

open OstreeExt Tar Exec Objects

/-- The OCI directory that is written to (`ocidir::OciDir`). -/
structure OciDir where
  /-- `create_layer` -/
  layers : BlobWriter
  /-- `create_gzip_layer` -/
  gzip : BlobWriter
  /-- `write_config` -/
  writeConfig : ImageConfiguration → Descriptor

section Definitions

variable (lib : Libostree) (tar : TarCrate) (destOci : OciDir)
  (ostreeExport : Repo → String → List Entry) (repo : Repo)

/-- One derived layer: the output of `ostree export` is pushed with the annotations and the
    description found at its index among the derived layers. -/
def exportDerived (srcinfo : LayeredImageState) (image : ImageManifest × ImageConfiguration)
    (p : Descriptor × Nat) : Result (ImageManifest × ImageConfiguration) := do
  let layerRef ← refForLayer p.1
  let layer := destOci.gzip.layer (ostreeExport repo layerRef)
  let previousAnnotations := srcinfo.manifest.layers[p.2]?.bind (·.annotations)
  let previousDescription := (srcinfo.configuration.history[p.2]?.bind (·.comment)).getD ""
  .ok (pushLayer image layer previousDescription previousAnnotations)

/-- `export_to_oci`: the manifest and the configuration that are written. -/
def exportToOci (fuel : Nat) (imgref : ImageReference) :
    Result (ImageManifest × ImageConfiguration) := do
  let srcinfo ← queryImage repo imgref
  let srcinfo ← okOr "No such image" srcinfo
  let (commitLayer, componentLayers, remainingLayers) ←
    parseManifestLayout srcinfo.manifest srcinfo.configuration
  let commitChunkRef ← refForLayer commitLayer
  let commitChunkRev ← repo.requireRev commitChunkRef
  let chunking ← Chunking.new lib repo fuel commitChunkRev
  let chunking ← componentLayers.foldlM (chunkingFromLayerCommitted repo) chunking
  let newManifest := { srcinfo.manifest with layers := [] }
  let newConfig := { srcinfo.configuration with history := [] }
  let (image, _) ← exportChunked lib tar destOci.layers repo fuel srcinfo.baseCommit
    (newManifest, newConfig) ∅ chunking ""
  let image ← remainingLayers.zipIdx.foldlM (exportDerived destOci ostreeExport repo srcinfo) image
  .ok ({ image.1 with config := destOci.writeConfig image.2 }, image.2)

end Definitions

/-- **A self-consistent image**: the parallel lists are aligned, and the layout can be read. -/
structure SelfConsistent (image : ImageManifest × ImageConfiguration) (nChunks nDerived : Nat) :
    Prop where
  diffIds : image.2.diffIds.length = image.1.layers.length
  history : image.2.history.length = image.1.layers.length
  aligned : ∃ parts : List Part, image.1.layers = descriptors parts ∧
    image.2.diffIds = diffIdsOf parts
  label : ∃ id, (labelsOf image.2).bind (·[diffidLabel]?) = some id ∧
    image.2.diffIds[nChunks]? = some id
  layout : ∃ first chunks derived, parseManifestLayout image.1 image.2 = .ok (first, chunks, derived) ∧
    chunks.length = nChunks ∧ derived.length = nDerived

-- ── What is appended ──────────────────────────────────────────────────────────

/-- The image has these layers more. -/
structure Appended (image image' : ImageManifest × ImageConfiguration) (parts : List Part) :
    Prop where
  layers : image'.1.layers = image.1.layers ++ descriptors parts
  diffIds : image'.2.diffIds = image.2.diffIds ++ diffIdsOf parts
  history : image'.2.history.length = image.2.history.length + parts.length
  config : image'.2.config = image.2.config

theorem Appended.refl (image : ImageManifest × ImageConfiguration) : Appended image image [] where
  layers := (List.append_nil _).symm
  diffIds := (List.append_nil _).symm
  history := rfl
  config := rfl

theorem Appended.trans {a b c : ImageManifest × ImageConfiguration} {parts parts' : List Part}
    (h : Appended a b parts) (h' : Appended b c parts') : Appended a c (parts ++ parts') where
  layers := by rw [h'.layers, h.layers, descriptors, descriptors, descriptors, List.map_append,
    List.append_assoc]
  diffIds := by rw [h'.diffIds, h.diffIds, diffIdsOf, diffIdsOf, diffIdsOf, List.map_append,
    List.append_assoc]
  history := by rw [h'.history, h.history, List.length_append, Nat.add_assoc]
  config := h'.config.trans h.config

theorem appended_pushLayer (image : ImageManifest × ImageConfiguration) (layer : Layer)
    (description : String) (annotations : Option StrMap) :
    Appended image (pushLayer image layer description annotations) [(layer, annotations)] where
  layers := rfl
  diffIds := rfl
  history := by simp [pushLayer]
  config := rfl

section Export

variable {lib : Libostree} {tar : TarCrate} {blobs : BlobWriter} {destOci : OciDir}
  {ostreeExport : Repo → String → List Entry} {repo : Repo} {fuel : Nat}

/-- `export_chunked` appends the commit layer and one layer for each chunk. -/
theorem exportChunked_appends {c : Checksum} {image image' : ImageManifest × ImageConfiguration}
    {labels labels' : StrMap} {k : Chunking} {description : String}
    (h : exportChunked lib tar blobs repo fuel c image labels k description = .ok (image', labels')) :
    ∃ parts, Appended image image' parts := by
  obtain ⟨layers, _, h⟩ := result_bind_eq_ok.mp h
  obtain ⟨es, _, h⟩ := result_bind_eq_ok.mp h
  injection h with h
  obtain ⟨rfl, _⟩ := Prod.mk.inj h
  obtain ⟨h₁, h₂, h₃, h₄⟩ := foldl_pushComponent layers (pushLayer image (blobs.layer es) description none)
  have hfold : Appended (pushLayer image (blobs.layer es) description none)
      (layers.foldl pushComponent (pushLayer image (blobs.layer es) description none))
      (layers.map componentPart) := ⟨h₁, h₂, by rw [h₃, List.length_map], h₄⟩
  exact ⟨_, (appended_pushLayer image (blobs.layer es) description none).trans hfold⟩

/-- Each derived layer is appended. -/
theorem exportDerived_appends {srcinfo : LayeredImageState} {ls : List (Descriptor × Nat)}
    {image image' : ImageManifest × ImageConfiguration}
    (h : ls.foldlM (exportDerived destOci ostreeExport repo srcinfo) image = .ok image') :
    ∃ parts, Appended image image' parts := by
  induction ls generalizing image with
  | nil =>
      injection h with h
      subst h
      exact ⟨[], .refl image⟩
  | cons p ls ih =>
      rw [List.foldlM_cons] at h
      obtain ⟨image₁, hstep, h⟩ := result_bind_eq_ok.mp h
      obtain ⟨layerRef, _, hstep⟩ := result_bind_eq_ok.mp hstep
      injection hstep with hstep
      subst hstep
      obtain ⟨parts, happ⟩ := ih h
      exact ⟨_, (appended_pushLayer _ _ _ _).trans happ⟩

/-- **What `export_to_oci` writes**: the layers and the history are those of this export, the
    diff ids come after the old ones, and the labels are the old ones. -/
theorem exportToOci_writes {imgref : ImageReference} {image : ImageManifest × ImageConfiguration}
    (h : exportToOci lib tar destOci ostreeExport repo fuel imgref = .ok image) :
    ∃ srcinfo first chunks derived parts,
      queryImage repo imgref = .ok (some srcinfo) ∧
      parseManifestLayout srcinfo.manifest srcinfo.configuration = .ok (first, chunks, derived) ∧
      image.1.layers = descriptors parts ∧
      image.2.diffIds = srcinfo.configuration.diffIds ++ diffIdsOf parts ∧
      image.2.history.length = parts.length ∧
      image.2.config = srcinfo.configuration.config := by
  obtain ⟨o, hquery, h⟩ := result_bind_eq_ok.mp h
  obtain ⟨srcinfo, hsome, h⟩ := result_bind_eq_ok.mp h
  rw [okOr_eq_ok.mp hsome] at hquery
  obtain ⟨⟨first, chunks, derived⟩, hparse, h⟩ := result_bind_eq_ok.mp h
  obtain ⟨commitChunkRef, _, h⟩ := result_bind_eq_ok.mp h
  obtain ⟨commitChunkRev, _, h⟩ := result_bind_eq_ok.mp h
  obtain ⟨k₀, _, h⟩ := result_bind_eq_ok.mp h
  obtain ⟨k, _, h⟩ := result_bind_eq_ok.mp h
  obtain ⟨⟨image₁, labels⟩, hchunked, h⟩ := result_bind_eq_ok.mp h
  obtain ⟨image₂, hderived, h⟩ := result_bind_eq_ok.mp h
  obtain rfl := Except.ok.inj h
  obtain ⟨parts₁, happ₁⟩ := exportChunked_appends hchunked
  obtain ⟨parts₂, happ₂⟩ := exportDerived_appends hderived
  have happ := happ₁.trans happ₂
  refine ⟨srcinfo, first, chunks, derived, parts₁ ++ parts₂, hquery, hparse, happ.layers,
    happ.diffIds, ?_, happ.config⟩
  rw [happ.history]
  exact Nat.zero_add _

/-- The steps of `export_to_oci` when all of them succeed. -/
theorem exportToOci_ok {imgref : ImageReference} {srcinfo : LayeredImageState}
    (hquery : queryImage repo imgref = .ok (some srcinfo)) {first : Descriptor}
    {chunks derived : List Descriptor}
    (hparse : parseManifestLayout srcinfo.manifest srcinfo.configuration
      = .ok (first, chunks, derived))
    {ref : String} (href : refForLayer first = .ok ref) {rev : Checksum}
    (hrev : repo.requireRev ref = .ok rev) {k₀ k : Chunking}
    (hnew : Chunking.new lib repo fuel rev = .ok k₀)
    (hchunks : chunks.foldlM (chunkingFromLayerCommitted repo) k₀ = .ok k)
    {image image' : ImageManifest × ImageConfiguration} {labels : StrMap}
    (hchunked : exportChunked lib tar destOci.layers repo fuel srcinfo.baseCommit
      ({ srcinfo.manifest with layers := [] }, { srcinfo.configuration with history := [] }) ∅ k ""
      = .ok (image, labels))
    (hderived : derived.zipIdx.foldlM (exportDerived destOci ostreeExport repo srcinfo) image
      = .ok image') :
    exportToOci lib tar destOci ostreeExport repo fuel imgref
      = .ok ({ image'.1 with config := destOci.writeConfig image'.2 }, image'.2) := by
  rw [exportToOci, hquery, bind_ok_eq, okOr_some, bind_ok_eq, hparse, bind_ok_eq]
  dsimp only
  rw [href, bind_ok_eq, hrev, bind_ok_eq, hnew, bind_ok_eq, hchunks, bind_ok_eq, hchunked,
    bind_ok_eq]
  dsimp only
  rw [hderived, bind_ok_eq]

/-- An image whose layout parses has a diff id. -/
theorem diffIds_ne_nil {manifest : ImageManifest} {config : ImageConfiguration}
    {p : Descriptor × List Descriptor × List Descriptor}
    (h : parseManifestLayout manifest config = .ok p) : config.diffIds ≠ [] := by
  obtain ⟨first, chunks, derived⟩ := p
  obtain ⟨pre, target, id, hlayout, _⟩ := layout_of_parse h
  intro hnil
  have hindex := hlayout.index
  rw [hnil] at hindex
  exact absurd hindex (by simp)

/-- **No re-exported image is self-consistent.** -/
theorem exportToOci_inconsistent {imgref : ImageReference}
    {image : ImageManifest × ImageConfiguration}
    (h : exportToOci lib tar destOci ostreeExport repo fuel imgref = .ok image)
    (nChunks nDerived : Nat) : ¬ SelfConsistent image nChunks nDerived := by
  obtain ⟨srcinfo, first, chunks, derived, parts, _, hparse, hlayers, hids, _⟩ := exportToOci_writes h
  intro hself
  have hlen := hself.diffIds
  rw [hids, hlayers, List.length_append, diffIdsOf, descriptors, List.length_map,
    List.length_map] at hlen
  have hpos := List.length_pos_iff.mpr (diffIds_ne_nil hparse)
  omega

end Export

-- ── A stored image ────────────────────────────────────────────────────────────

/-- The configuration of an image with one layer. -/
def storedConfig : ImageConfiguration where
  config := some { labels := some ((∅ : StrMap).insert diffidLabel ("sha256:" ++ sampleTreeSum)) }
  diffIds := ["sha256:" ++ sampleTreeSum]
  history := [{ createdBy := some "ostree export" }]

/-- The merge commit of that image. -/
def storedMergeCommit : Commit :=
  { sampleMergeCommit with
    metadata := sampleMergeCommit.metadata.insert metaConfig (.config storedConfig) }

/-- The repository of the sample commit with that image. -/
def storedRepo : Repo :=
  { sampleRepo with
    commits := sampleRepo.commits.insert chunkCommitSum storedMergeCommit
    refs := .ofList sampleRefs }

/-- What a query says about it. -/
def storedImage : LayeredImageState where
  baseCommit := sampleCommitSum
  mergeCommit := chunkCommitSum
  manifestDigest := "sha256:" ++ emptySha256
  manifest := sampleManifest
  configuration := storedConfig
  cachedUpdate := none

theorem queryImage_stored : queryImage storedRepo sampleImage = .ok (some storedImage) := by
  decide +kernel

theorem parseManifestLayout_stored :
    parseManifestLayout sampleManifest storedConfig = .ok (sampleLayer, [], []) := by
  decide +kernel

/-- A directory that numbers the blobs. -/
def sampleOci : OciDir where
  layers := tallyWriter []
  gzip := tallyWriter []
  writeConfig _ := { mediaType := .imageConfig, digest := "sha256:" ++ tallySum 1, size := 2 }

theorem storedRepo_complete : storedRepo.Complete sampleCommit := by
  refine complete_of_sameObject sampleRepo_complete (fun ty x hx => ?_)
  rcases hx.objtype with rfl | rfl | rfl
  · rfl
  · rfl
  · rfl

/-- A chunking that has just been made holds objects of the repository. -/
theorem within_initial {commit : Commit} {n fuel : Nat} {repo : Repo}
    (hcomplete : repo.Complete commit) :
    Chunking.Within { metadataSize := n, remainder := (initialChunk repo.toObjects
      (repo.occurrences fuel false [.rootDir] commit.contents)) } repo.toObjects := by
  intro chunk hc x hx
  obtain rfl := List.mem_singleton.mp hc
  obtain ⟨v, hv⟩ := Std.ExtTreeMap.mem_iff_lookup.mp hx
  rw [initialChunk_content] at hv
  by_cases hpaths : pathsOf (repo.occurrences fuel false [.rootDir] commit.contents) x = []
  · rw [if_pos hpaths] at hv
    exact absurd hv (by simp)
  · obtain ⟨p, hp⟩ := List.exists_mem_of_ne_nil _ hpaths
    exact hcomplete .file x (.inr (reaches_of_mem_occurrences (mem_pathsOf.mp hp)))

/-- The image of the sample commit can be exported. -/
theorem exportToOci_stored : ∃ image, exportToOci sampleTables.lib sampleTar sampleOci
    (fun _ _ => []) storedRepo 2 sampleImage = .ok image := by
  have hcommit : storedRepo.commits[sampleCommitSum]? = some sampleCommit := by decide +kernel
  have hdepth : storedRepo.DepthLt 2 sampleCommit.contents :=
    depthLt_sampleTree.transfer (fun _ _ => rfl)
  have href : storedRepo.requireRev ("ostree/container/blob/sha256_3A_" ++ emptyTreeSum)
      = .ok sampleCommitSum := by decide +kernel
  have hrev : storedRepo.requireRev sampleCommitSum = .ok sampleCommitSum :=
    if_pos isSha256_sampleCommitSum
  obtain ⟨n, hnew⟩ := chunkingNew_eq sampleTables.lib hrev hcommit storedRepo_complete hdepth
  obtain ⟨image, hchunked, _⟩ := @exportChunked_run sampleTables.lib sampleTar sampleOci.layers
    storedRepo sampleCommitSum sampleCommit 2 _ hcommit storedRepo_complete hdepth
    (@within_initial sampleCommit n 2 storedRepo storedRepo_complete)
    ({ sampleManifest with layers := [] }, { storedConfig with history := [] }) ∅ ""
  refine ⟨({ image.1 with config := sampleOci.writeConfig image.2 }, image.2), ?_⟩
  exact exportToOci_ok queryImage_stored parseManifestLayout_stored refForLayer_sample href hnew rfl
    hchunked rfl

/-- Its export is not self-consistent, whatever the number of layers is taken to be. -/
theorem exportToOci_stored_inconsistent : ∃ image, exportToOci sampleTables.lib sampleTar sampleOci
    (fun _ _ => []) storedRepo 2 sampleImage = .ok image ∧
    ∀ nChunks nDerived, ¬ SelfConsistent image nChunks nDerived := by
  obtain ⟨image, h⟩ := exportToOci_stored
  exact ⟨image, h, exportToOci_inconsistent h⟩

/-- The old diff id of its one layer comes before the new one. -/
theorem exportToOci_stored_diffIds : ∃ image, exportToOci sampleTables.lib sampleTar sampleOci
    (fun _ _ => []) storedRepo 2 sampleImage = .ok image ∧
    image.2.diffIds.length ≠ image.1.layers.length ∧ ¬ SelfConsistent image 0 0 := by
  obtain ⟨image, h⟩ := exportToOci_stored
  obtain ⟨srcinfo, _, _, _, parts, hquery, _, hlayers, hids, _⟩ := exportToOci_writes h
  obtain rfl : storedImage = srcinfo :=
    Option.some.inj (Except.ok.inj (queryImage_stored.symm.trans hquery))
  have hne : image.2.diffIds.length ≠ image.1.layers.length := by
    rw [hids, hlayers, List.length_append, diffIdsOf, descriptors, List.length_map,
      List.length_map]
    simp [storedImage, storedConfig]
  exact ⟨image, h, hne, fun hself => hne hself.diffIds⟩

end OstreeExt.Store
