import OstreeExt.Store.Export

/-!
# Derived layers in an export

`export_to_oci` pushes each derived layer with annotations and a description from the stored
image.  Both are looked up at the index of the layer among the derived ones, in lists that
start with the commit layer and the chunk layers; `exportToOci_keepsDerived_iff` says when
they are those of the layer itself.
-/

namespace OstreeExt.Store

open OstreeExt Tar Exec Objects

/-- The annotations of the layer at a position of the manifest. -/
def LayeredImageState.annotationsAt (srcinfo : LayeredImageState) (i : Nat) : Option StrMap :=
  srcinfo.manifest.layers[i]?.bind (·.annotations)

/-- The description of the layer at a position of the history. -/
def LayeredImageState.descriptionAt (srcinfo : LayeredImageState) (i : Nat) : String :=
  (srcinfo.configuration.history[i]?.bind (·.comment)).getD ""

/-- The position in the manifest of the first derived layer. -/
def LayeredImageState.firstDerived (srcinfo : LayeredImageState) (derived : List Descriptor) : Nat :=
  srcinfo.manifest.layers.length - derived.length

/-- **The metadata of derived layers is kept**: behind the commit layer and the chunk layers,
    each derived layer has its annotations and its description. -/
def KeepsDerived (srcinfo : LayeredImageState) (chunks derived : List Descriptor)
    (image : ImageManifest × ImageConfiguration) : Prop :=
  ∀ j layer, derived[j]? = some layer →
    image.1.layers[1 + chunks.length + j]?.map (·.annotations) = some layer.annotations ∧
    image.2.history[1 + chunks.length + j]?.map (·.createdBy)
      = some (some (srcinfo.descriptionAt (srcinfo.firstDerived derived + j)))

/-- The first layers are annotated and described as the derived ones are. -/
def DerivedAlike (srcinfo : LayeredImageState) (derived : List Descriptor) : Prop :=
  ∀ j < derived.length,
    srcinfo.annotationsAt j = srcinfo.annotationsAt (srcinfo.firstDerived derived + j) ∧
    srcinfo.descriptionAt j = srcinfo.descriptionAt (srcinfo.firstDerived derived + j)

section Derived

variable {lib : Libostree} {tar : TarCrate} {blobs : BlobWriter} {destOci : OciDir}
  {ostreeExport : Repo → String → List Entry} {repo : Repo} {fuel : Nat}
  {srcinfo : LayeredImageState} {image image' : ImageManifest × ImageConfiguration}

/-- Layers that are pushed, with the annotations and descriptions from some positions on. -/
structure PushedFrom (srcinfo : LayeredImageState) (k : Nat) (n : Nat)
    (image image' : ImageManifest × ImageConfiguration) : Prop where
  layers : ∃ new : List Descriptor, image'.1.layers = image.1.layers ++ new ∧
    new.map (·.annotations) = (List.range' k n).map srcinfo.annotationsAt
  history : ∃ new : List History, image'.2.history = image.2.history ++ new ∧
    new.map (·.createdBy) = (List.range' k n).map (fun i => some (srcinfo.descriptionAt i))

/-- The loop over the derived layers. -/
theorem exportDerived_pushes {ls : List Descriptor} {k : Nat}
    (h : (ls.zipIdx k).foldlM (exportDerived destOci ostreeExport repo srcinfo) image = .ok image') :
    PushedFrom srcinfo k ls.length image image' := by
  induction ls generalizing k image with
  | nil =>
      injection h with h
      subst h
      exact ⟨⟨[], (List.append_nil _).symm, rfl⟩, ⟨[], (List.append_nil _).symm, rfl⟩⟩
  | cons layer ls ih =>
      rw [List.zipIdx_cons, List.foldlM_cons] at h
      obtain ⟨image₁, hstep, h⟩ := result_bind_eq_ok.mp h
      obtain ⟨layerRef, _, hstep⟩ := result_bind_eq_ok.mp hstep
      injection hstep with hstep
      subst hstep
      obtain ⟨⟨layers, hlayers, hannotations⟩, ⟨history, hhistory, hdescriptions⟩⟩ := ih h
      let blob := destOci.gzip.layer (ostreeExport repo layerRef)
      refine ⟨⟨blob.descriptor (srcinfo.annotationsAt k) :: layers, ?_, ?_⟩,
        ⟨{ createdBy := some (srcinfo.descriptionAt k) } :: history, ?_, ?_⟩⟩
      · rw [hlayers, pushLayer, List.append_assoc]
        rfl
      · rw [List.map_cons, hannotations, List.length_cons, List.range'_succ, List.map_cons]
        rfl
      · rw [hhistory, pushLayer, List.append_assoc]
        rfl
      · rw [List.map_cons, hdescriptions, List.length_cons, List.range'_succ, List.map_cons]

/-- Each component layer makes one chunk. -/
theorem chunkingFromLayerCommitted_length {ls : List Descriptor} {k k' : Chunking}
    (h : ls.foldlM (chunkingFromLayerCommitted repo) k = .ok k') :
    k'.chunks.length = k.chunks.length + ls.length := by
  induction ls generalizing k with
  | nil =>
      injection h with h
      rw [h]
      rfl
  | cons l ls ih =>
      rw [List.foldlM_cons] at h
      obtain ⟨k₁, hstep, h⟩ := result_bind_eq_ok.mp h
      obtain ⟨layerRef, _, hstep⟩ := result_bind_eq_ok.mp hstep
      obtain ⟨root, _, hstep⟩ := result_bind_eq_ok.mp hstep
      obtain ⟨objects, _, hstep⟩ := result_bind_eq_ok.mp hstep
      obtain ⟨checked, _, hstep⟩ := result_bind_eq_ok.mp hstep
      injection hstep with hstep
      have hlen : k₁.chunks.length = k.chunks.length + 1 := by
        rw [← hstep]
        exact List.length_append
      rw [ih h, hlen, List.length_cons]
      omega

/-- A chunking that has just been made has no chunks. -/
theorem chunkingNew_chunks {rev : String} {k : Chunking} (h : Chunking.new lib repo fuel rev = .ok k) :
    k.chunks = [] := by
  rw [Chunking.new] at h
  obtain ⟨checksum, _, h⟩ := result_bind_eq_ok.mp h
  obtain ⟨commit, _, h⟩ := result_bind_eq_ok.mp h
  split at h
  · injection h with h
    rw [← h]
  · exact absurd h (by simp)

/-- `export_chunked` writes the commit layer and one layer for each chunk. -/
theorem exportChunked_length {c : Checksum} {labels labels' : StrMap} {k : Chunking}
    {description : String}
    (h : exportChunked lib tar blobs repo fuel c image labels k description = .ok (image', labels')) :
    image'.1.layers.length = image.1.layers.length + (1 + k.chunks.length) ∧
      image'.2.history.length = image.2.history.length + (1 + k.chunks.length) := by
  obtain ⟨layers, hlayers, h⟩ := result_bind_eq_ok.mp h
  obtain ⟨es, _, h⟩ := result_bind_eq_ok.mp h
  injection h with h
  obtain ⟨rfl, _⟩ := Prod.mk.inj h
  have hlen : layers.length = k.chunks.length := length_of_mapM hlayers
  obtain ⟨h₁, _, h₃, _⟩ := foldl_pushComponent layers (pushLayer image (blobs.layer es) description none)
  rw [h₁, h₃]
  simp only [pushLayer, descriptors, List.length_append, List.length_map, List.length_cons,
    List.length_nil, hlen]
  omega

/-- **What `export_to_oci` writes for the derived layers**: the annotations and descriptions of
    the first layers. -/
theorem exportToOci_derived {imgref : ImageReference} {first : Descriptor}
    {chunks derived : List Descriptor}
    (h : exportToOci lib tar destOci ostreeExport repo fuel imgref = .ok image)
    (hquery : queryImage repo imgref = .ok (some srcinfo))
    (hparse : parseManifestLayout srcinfo.manifest srcinfo.configuration = .ok (first, chunks, derived)) :
    ∀ j < derived.length,
      image.1.layers[1 + chunks.length + j]?.map (·.annotations) = some (srcinfo.annotationsAt j) ∧
      image.2.history[1 + chunks.length + j]?.map (·.createdBy)
        = some (some (srcinfo.descriptionAt j)) := by
  rw [exportToOci, hquery, bind_ok_eq, okOr_some, bind_ok_eq, hparse, bind_ok_eq] at h
  obtain ⟨commitChunkRef, _, h⟩ := result_bind_eq_ok.mp h
  obtain ⟨commitChunkRev, _, h⟩ := result_bind_eq_ok.mp h
  obtain ⟨k₀, hnew, h⟩ := result_bind_eq_ok.mp h
  obtain ⟨k, hchunks, h⟩ := result_bind_eq_ok.mp h
  obtain ⟨⟨image₁, labels⟩, hchunked, h⟩ := result_bind_eq_ok.mp h
  obtain ⟨image₂, hderived, h⟩ := result_bind_eq_ok.mp h
  obtain rfl := Except.ok.inj h
  obtain ⟨hlen₁, hlen₂⟩ := exportChunked_length hchunked
  have hk : k.chunks.length = chunks.length := by
    rw [chunkingFromLayerCommitted_length hchunks, chunkingNew_chunks hnew]
    exact Nat.zero_add _
  have hlen₁ : image₁.1.layers.length = 1 + chunks.length := by
    rw [hlen₁, hk]
    exact Nat.zero_add _
  have hlen₂ : image₁.2.history.length = 1 + chunks.length := by
    rw [hlen₂, hk]
    exact Nat.zero_add _
  obtain ⟨⟨layers, hlayers, hannotations⟩, ⟨history, hhistory, hdescriptions⟩⟩ :=
    exportDerived_pushes hderived
  intro j hj
  constructor
  · rw [hlayers, List.getElem?_append_right (by omega), hlen₁, Nat.add_sub_cancel_left,
      ← List.getElem?_map, hannotations, List.getElem?_map, List.getElem?_range' hj]
    simp
  · rw [hhistory, List.getElem?_append_right (by omega), hlen₂, Nat.add_sub_cancel_left,
      ← List.getElem?_map, hdescriptions, List.getElem?_map, List.getElem?_range' hj]
    simp

/-- The derived layers stand at the end of the manifest. -/
theorem derived_getElem {first : Descriptor} {chunks derived : List Descriptor}
    (hparse : parseManifestLayout srcinfo.manifest srcinfo.configuration = .ok (first, chunks, derived))
    (j : Nat) : srcinfo.manifest.layers[srcinfo.firstDerived derived + j]? = derived[j]? := by
  obtain ⟨pre, target, id, hlayout, _⟩ := layout_of_parse hparse
  have hsplit : srcinfo.manifest.layers = (pre ++ [target]) ++ derived := by
    rw [hlayout.layers, List.append_assoc]
    rfl
  have hfirst : srcinfo.firstDerived derived = (pre ++ [target]).length := by
    rw [LayeredImageState.firstDerived, hsplit, List.length_append, Nat.add_sub_cancel]
  rw [hfirst, hsplit, List.getElem?_append_right (by omega), Nat.add_sub_cancel_left]

end Derived

-- ── An image with a derived layer ─────────────────────────────────────────────

/-- The derived layer, with these annotations. -/
def derivedLayer (annotations : Option StrMap) : Descriptor :=
  { mediaType := .imageLayerGzip, digest := "sha256:" ++ sampleTreeSum, size := 2048, annotations }

/-- The sample image with that layer on top. -/
def derivedManifest (annotations : Option StrMap) : ImageManifest :=
  { sampleManifest with layers := [sampleLayer, derivedLayer annotations] }

def derivedConfig : ImageConfiguration :=
  { storedConfig with
    diffIds := ["sha256:" ++ sampleTreeSum, "sha256:" ++ sampleMetaSum]
    history := [{ createdBy := some "ostree export" }, { createdBy := some "RUN dnf" }] }

/-- Its merge commit. -/
def derivedMergeCommit (annotations : Option StrMap) : Commit :=
  { sampleMergeCommit with
    metadata := (((∅ : Dict).insert metaManifestDigest (.digest ("sha256:" ++ emptySha256))).insert
      metaManifest (.manifest (derivedManifest annotations))).insert metaConfig (.config derivedConfig) }

/-- The repository of the sample commit with the image. -/
def derivedRepo (annotations : Option StrMap) : Repo :=
  { sampleRepo with
    commits := sampleRepo.commits.insert chunkCommitSum (derivedMergeCommit annotations)
    refs := .ofList sampleRefs }

/-- What a query says about it. -/
def derivedImage (annotations : Option StrMap) : LayeredImageState :=
  { storedImage with manifest := derivedManifest annotations, configuration := derivedConfig }

theorem refs_derivedRepo (annotations : Option StrMap) :
    (derivedRepo annotations).refs = .ofList sampleRefs := rfl

theorem commitmetas_derivedRepo (annotations : Option StrMap) :
    (derivedRepo annotations).commitmetas = sampleRepo.commitmetas := rfl

theorem lookup_blobRef : (Std.ExtTreeMap.ofList sampleRefs : Std.ExtTreeMap String Checksum)[
    "ostree/container/blob/sha256_3A_" ++ emptyTreeSum]? = some sampleCommitSum := by
  decide +kernel

theorem lookup_imageRef : (Std.ExtTreeMap.ofList sampleRefs : Std.ExtTreeMap String Checksum)[
    "ostree/container/image/docker_3A__2F__2F_quay_2E_io/os"]? = some chunkCommitSum := by
  decide +kernel

theorem imageStateOf_derived (annotations : Option StrMap) :
    ImageStateOf (derivedRepo annotations) chunkCommitSum (derivedImage annotations)
      (derivedMergeCommit annotations) sampleLayer
      ("ostree/container/blob/sha256_3A_" ++ emptyTreeSum) where
  mergeCommit := rfl
  stored := by
    rw [Repo.loadCommit, derivedRepo, Std.ExtTreeMap.lookup_insert, if_pos rfl, okOr_some]
  data := by
    rw [manifestDataFromCommitmeta, lookupStr, lookupStr, derivedMergeCommit,
      Std.ExtTreeMap.lookup_insert, if_neg (by decide), Std.ExtTreeMap.lookup_insert,
      if_neg (by decide), Std.ExtTreeMap.lookup_insert, if_pos rfl, Std.ExtTreeMap.lookup_insert,
      if_neg (by decide), Std.ExtTreeMap.lookup_insert, if_pos rfl]
    rfl
  config := by
    rw [imageConfigFromCommitmeta, lookupStr, derivedMergeCommit, Std.ExtTreeMap.lookup_insert,
      if_pos rfl]
    rfl
  head := rfl
  layerRef := refForLayer_sample
  baseCommit := by
    rw [refs_derivedRepo, lookup_blobRef]
    rfl
  update := by
    have hnone : sampleRepo.commitmetas[chunkCommitSum]? = none := by decide +kernel
    rw [cachedUpdateOf, commitmetas_derivedRepo, hnone]
    rfl

theorem queryImage_derived (annotations : Option StrMap) :
    queryImage (derivedRepo annotations) sampleImage = .ok (some (derivedImage annotations)) := by
  have hrev : (derivedRepo annotations).resolveRev
      "ostree/container/image/docker_3A__2F__2F_quay_2E_io/os" = some chunkCommitSum := by
    rw [resolveRev_of_escape refForImage_sample, refs_derivedRepo, lookup_imageRef]
  have hcommit : queryImageCommit (derivedRepo annotations) chunkCommitSum
      = .ok (derivedImage annotations) :=
    queryImageCommit_iff.mpr ⟨_, _, _, imageStateOf_derived annotations⟩
  rw [queryImage, refForImage_sample, bind_ok_eq, hrev]
  dsimp only
  rw [hcommit]
  rfl

theorem parseManifestLayout_derived (annotations : Option StrMap) :
    parseManifestLayout (derivedManifest annotations) derivedConfig
      = .ok (sampleLayer, [], [derivedLayer annotations]) := by
  have hne : sampleLayer ≠ derivedLayer annotations := by
    intro heq
    have hsize : (1024 : Nat) = 2048 := congrArg Descriptor.size heq
    exact absurd hsize (by decide)
  have hlayout : Layout (derivedManifest annotations) derivedConfig sampleLayer [] sampleLayer
      [derivedLayer annotations] ("sha256:" ++ sampleTreeSum) := by
    refine ⟨rfl, rfl, ?_, by decide +kernel, by simp, by simpa using hne⟩
    show ((∅ : StrMap).insert diffidLabel ("sha256:" ++ sampleTreeSum))[diffidLabel]? = _
    rw [Std.ExtTreeMap.lookup_insert, if_pos rfl]
  rw [hlayout.parse]
  simp

theorem derivedRepo_complete (annotations : Option StrMap) :
    (derivedRepo annotations).Complete sampleCommit := by
  refine complete_of_sameObject sampleRepo_complete (fun ty x hx => ?_)
  rcases hx.objtype with rfl | rfl | rfl
  · rfl
  · rfl
  · rfl

/-- The image can be exported. -/
theorem exportToOci_derivedRepo (annotations : Option StrMap) :
    ∃ image, exportToOci sampleTables.lib sampleTar sampleOci (fun _ _ => [])
      (derivedRepo annotations) 2 sampleImage = .ok image := by
  have hcommit : (derivedRepo annotations).commits[sampleCommitSum]? = some sampleCommit := by
    rw [derivedRepo, Std.ExtTreeMap.lookup_insert, if_neg (by decide +kernel)]
    decide +kernel
  have hdepth : (derivedRepo annotations).DepthLt 2 sampleCommit.contents :=
    depthLt_sampleTree.transfer (fun _ _ => rfl)
  have href : (derivedRepo annotations).requireRev ("ostree/container/blob/sha256_3A_" ++ emptyTreeSum)
      = .ok sampleCommitSum := by
    rw [@requireRev_of_escape layerPrefix sampleLayer.digest _ refForLayer_sample, refs_derivedRepo, lookup_blobRef, okOr_some]
  have hrev : (derivedRepo annotations).requireRev sampleCommitSum = .ok sampleCommitSum :=
    if_pos isSha256_sampleCommitSum
  have hlayer : refForLayer (derivedLayer annotations)
      = .ok ("ostree/container/blob/sha256_3A_" ++ sampleTreeSum) := by
    show refForLayer (derivedLayer none) = _
    decide +kernel
  obtain ⟨n, hnew⟩ := chunkingNew_eq sampleTables.lib hrev hcommit (derivedRepo_complete annotations) hdepth
  obtain ⟨image, hchunked, _⟩ := @exportChunked_run sampleTables.lib sampleTar sampleOci.layers
    (derivedRepo annotations) sampleCommitSum sampleCommit 2 _ hcommit
    (derivedRepo_complete annotations) hdepth
    (@within_initial sampleCommit n 2 (derivedRepo annotations) (derivedRepo_complete annotations))
    ({ derivedManifest annotations with layers := [] }, { derivedConfig with history := [] }) ∅ ""
  have hderived : ∃ image', [derivedLayer annotations].zipIdx.foldlM (exportDerived sampleOci
      (fun _ _ => []) (derivedRepo annotations) (derivedImage annotations)) image = .ok image' := by
    rw [List.zipIdx_cons, List.foldlM_cons, exportDerived, hlayer, bind_ok_eq]
    exact ⟨_, rfl⟩
  obtain ⟨image', hderived⟩ := hderived
  exact ⟨_, exportToOci_ok (queryImage_derived annotations) (parseManifestLayout_derived annotations)
    refForLayer_sample href hnew rfl hchunked hderived⟩

/-- Annotations of a derived layer. -/
def derivedAnnotations : StrMap := (∅ : StrMap).insert "vendor" "os"

end OstreeExt.Store
