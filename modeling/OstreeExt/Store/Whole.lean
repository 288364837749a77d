import OstreeExt.Store.Import

/-!
# Whole repositories

A stored image needs its layers: a later import takes them for granted, and an export reads them.
A repository is `Whole` if every image has the refs of the layers of its manifest, and if the refs
of the store have the names that the collection of garbage reads back.  Each thing that is done to
a repository keeps it whole; the last transaction of an import does if the layers are in place.
-/

namespace OstreeExt.Store

open OstreeExt Tar Exec Std Refescape

/-- Every image has the refs of the layers of its manifest. -/
def ImagesComplete (r : Repo) : Prop :=
  ∀ (ref : String) c, r.refs[ref]? = some c → Repo.refUnder imagePrefix ref = true →
    ∃ m, manifestOfCommit r c = .ok m ∧ LayersStored m.layers r

/-- The ref of a digest. -/
def IsBlobRef (ref : String) : Prop := ∃ d, refForBlobDigest d = .ok ref

/-- Every image is complete, and the refs of blobs and of images are those of digests and of image
    references. -/
structure Whole (r : Repo) : Prop where
  blobs : BlobsNamed r
  images : ∀ ref ∈ r.refs, Repo.refUnder imagePrefix ref = true →
    ∃ i : ImageReference, refForImage i = .ok ref
  complete : ImagesComplete r

/-- The empty repository is whole. -/
theorem whole_empty : Whole {} where
  blobs ref hin _ := absurd hin ExtTreeMap.not_mem_empty
  images ref hin _ := absurd hin ExtTreeMap.not_mem_empty
  complete ref c hc _ := absurd (hc.symm.trans (ExtTreeMap.lookup_empty _)) (by simp)

theorem IsBlobRef.not_image {ref : String} (h : IsBlobRef ref) :
    Repo.refUnder imagePrefix ref ≠ true := by
  obtain ⟨d, hd⟩ := h
  intro hunder
  exact absurd ((refUnder_of_escape hd).symm.trans (refUnder_disjoint (List.mem_cons_self ..) hunder))
    (by simp)

theorem manifestOfCommit_kept {r r' : Repo} (h : r.toObjects.Keeps r'.toObjects) {c : Checksum}
    {m : ImageManifest} (hm : manifestOfCommit r c = .ok m) : manifestOfCommit r' c = .ok m := by
  obtain ⟨commit, hload, hdata⟩ := result_bind_eq_ok.mp hm
  have hcommit := h.commits c commit (okOr_eq_ok.mp hload)
  rw [manifestOfCommit, Repo.loadCommit, hcommit, okOr_some, bind_ok_eq]
  exact hdata

theorem LayersStored.mono {layers : List Descriptor} {r r' : Repo} (h : LayersStored layers r)
    (hrefs : ∀ l ∈ layers, ∀ ref, refForLayer l = .ok ref → ref ∈ r.refs → ref ∈ r'.refs) :
    LayersStored layers r' := by
  intro l hl
  obtain ⟨ref, href, hin⟩ := h l hl
  exact ⟨ref, href, hrefs l hl ref href hin⟩

section Whole

variable {lib : Libostree} {r r' : Repo}

/-- A change that removes no ref of a layer, and writes no ref of an image. -/
theorem Whole.of_images (h : Whole r) (hkeeps : r.toObjects.Keeps r'.toObjects)
    (hblobs : BlobsNamed r') (himages : ∀ (ref : String) c, Repo.refUnder imagePrefix ref = true →
      r'.refs[ref]? = some c → r.refs[ref]? = some c)
    (hlayers : ∀ m, ImageManifestOf r m → ∀ l ∈ m.layers, ∀ ref, refForLayer l = .ok ref →
      ref ∈ r.refs → ref ∈ r'.refs) : Whole r' where
  blobs := hblobs
  images ref hin hunder := by
    obtain ⟨c, hc⟩ := ExtTreeMap.mem_iff_lookup.mp hin
    exact h.images ref (ExtTreeMap.mem_iff_lookup.mpr ⟨c, himages ref c hunder hc⟩) hunder
  complete ref c hc hunder := by
    have hbefore := himages ref c hunder hc
    obtain ⟨m, hm, hstored⟩ := h.complete ref c hbefore hunder
    exact ⟨m, manifestOfCommit_kept hkeeps hm,
      hstored.mono (hlayers m ⟨ref, c, hbefore, hunder, hm⟩)⟩

theorem Whole.of_same (h : Whole r) (hsame : SameButMeta r r') : Whole r' := by
  refine h.of_images ?_ ?_ ?_ ?_
  · rw [hsame.objects]
    exact Objects.Keeps.refl _
  · intro ref hin
    exact h.blobs ref (hsame.refs ▸ hin)
  · intro ref c _ hc
    exact hsame.refs ▸ hc
  · intro m _ l _ ref _ hin
    exact hsame.refs ▸ hin

/-- Layers that are fetched. -/
theorem Whole.of_fetches (h : Whole r) (hfetch : Fetches IsBlobRef r r') : Whole r' := by
  refine h.of_images hfetch.keeps ?_ ?_ (fun _ _ _ _ _ _ hin => hfetch.mem hin)
  · intro ref hin hunder
    rcases hfetch.refs ref with heq | ⟨hblob, -⟩
    · obtain ⟨c, hc⟩ := ExtTreeMap.mem_iff_lookup.mp hin
      exact h.blobs ref (ExtTreeMap.mem_iff_lookup.mpr ⟨c, heq.symm.trans hc⟩) hunder
    · exact hblob
  · intro ref c hunder hc
    exact (hfetch.lookup (fun hblob => hblob.not_image hunder)).symm.trans hc

/-- Everything that is referenced is collected by name. -/
theorem Whole.referencedLayers (h : Whole r) {hash : HashOrder} {s : ExtTreeSet Digest}
    (hs : referencedLayers hash r = .ok s) {d : Digest} (hd : Referenced r d) : d ∈ s := by
  obtain ⟨names, hnames, hs⟩ := result_bind_eq_ok.mp hs
  obtain ⟨deployed, hdeployed, hs⟩ := result_bind_eq_ok.mp hs
  obtain ⟨images, himages, hs⟩ := result_bind_eq_ok.mp hs
  injection hs with hs
  rw [← hs, ExtTreeSet.mem_ofList, List.contains_iff_mem, List.mem_flatMap]
  obtain ⟨m, hm, l, hl, hd⟩ := hd
  refine ⟨m, List.mem_append.mpr ?_, List.mem_map.mpr ⟨l, hl, hd⟩⟩
  rcases hm with ⟨ref, c, hc, hunder, hm⟩ | hdeployment
  · -- the name of the ref is parsed, or there would be no set
    obtain ⟨i, href⟩ := h.images ref (ExtTreeMap.mem_iff_lookup.mpr ⟨c, hc⟩) hunder
    have hname : i.display ∈ names := by
      refine (mem_mapM hnames _).mpr ⟨(ref, c), ?_, unprefixUnescapeRef_prefixEscapeForRef href⟩
      exact hash.mem_order.mpr (mem_listRefsExt.mpr ⟨hc, hunder⟩)
    obtain ⟨m', hm'⟩ := exists_of_mapM himages hname
    have hread := hm'
    obtain ⟨j, hj, hmanifest⟩ := result_bind_eq_ok.mp hread
    obtain rfl := ImageReference.tryFrom_display_eq hj
    rw [manifestForImage, href, bind_ok_eq, requireRev_of_escape href, hc, okOr_some, bind_ok_eq]
      at hmanifest
    obtain rfl : m = m' := Except.ok.inj (hm.symm.trans hmanifest)
    exact .inl ((mem_mapM himages m).mpr ⟨_, hname, hm'⟩)
  · exact .inr ((mem_deploymentManifests hdeployed m).mpr hdeployment)

/-- **A collection of garbage** passes over what is referenced, whether it is done or not. -/
theorem Whole.collected (h : Whole r) (hash : HashOrder) {d : Digest} {ref : String}
    (href : refForBlobDigest d = .ok ref) (hin : ref ∈ r.refs) (hd : Referenced r d) :
    ref ∈ (finalState (gcImageLayers hash r)).refs := by
  cases hs : Store.referencedLayers hash r with
  | error e =>
      rw [gcImageLayers, bind_of_ok (get_run r), hs, bind_of_error (liftR_error _ _)]
      exact hin
  | ok s =>
      obtain ⟨gone, hrun, -, -, hgone⟩ := gcImageLayers_run h.blobs hs
      have hkept : ref ∉ gone := fun hg =>
        (hgone d ref href hin).mp hg (h.referencedLayers hs hd)
      rw [hrun, finalState_ok]
      obtain ⟨c, hc⟩ := ExtTreeMap.mem_iff_lookup.mp hin
      refine ExtTreeMap.mem_iff_lookup.mpr ⟨c, ?_⟩
      show (r.refs.eraseAll gone)[ref]? = some c
      rw [ExtTreeMap.lookup_eraseAll, if_neg hkept]
      exact hc

theorem Whole.gcImageLayers (h : Whole r) (hash : HashOrder) :
    Whole (finalState (gcImageLayers hash r)) := by
  have hunlinks := gcImageLayers_unlinks hash r
  refine h.of_images ?_ ?_ ?_ ?_
  · rw [hunlinks.objects]
    exact Objects.Keeps.refl _
  · intro ref hin hunder
    obtain ⟨c, hc⟩ := ExtTreeMap.mem_iff_lookup.mp hin
    rcases hunlinks.refs ref with heq | ⟨-, hnone⟩
    · exact h.blobs ref (ExtTreeMap.mem_iff_lookup.mpr ⟨c, heq.symm.trans hc⟩) hunder
    · exact absurd (hc.symm.trans hnone) (by simp)
  · intro ref c _ hc
    rcases hunlinks.refs ref with heq | ⟨-, hnone⟩
    · exact heq.symm.trans hc
    · exact absurd (hc.symm.trans hnone) (by simp)
  · intro m hm l hl ref href hin
    exact h.collected hash href hin ⟨m, .inl hm, l, hl, rfl⟩

/-- An image that is removed takes no layer with it. -/
theorem removeImage_refs (img : ImageReference) (r : Repo) :
    (finalState (removeImage img r)).toObjects = r.toObjects ∧
    ∀ ref : String, (finalState (removeImage img r)).refs[ref]? = r.refs[ref]? ∨
      refForImage img = .ok ref ∧ (finalState (removeImage img r)).refs[ref]? = none := by
  rw [removeImage]
  cases href : refForImage img with
  | error e => exact ⟨rfl, fun ref => .inl rfl⟩
  | ok ostreeRef =>
      rw [bind_of_ok (liftR_ok _ _), bind_of_ok (get_run r)]
      dsimp only
      cases (Repo.resolveRev ostreeRef r).isSome with
      | false => exact ⟨rfl, fun ref => .inl rfl⟩
      | true =>
          refine ⟨rfl, fun ref => ?_⟩
          show (r.refs.erase ostreeRef)[ref]? = r.refs[ref]? ∨
            _ ∧ (r.refs.erase ostreeRef)[ref]? = none
          rw [ExtTreeMap.lookup_erase]
          by_cases heq : ostreeRef = ref
          · exact .inr ⟨by rw [heq], if_pos heq⟩
          · exact .inl (if_neg heq)

theorem removeImage_layers (img : ImageReference) {ref : String} (hblob : IsBlobRef ref)
    (hin : ref ∈ r.refs) : ref ∈ (finalState (removeImage img r)).refs := by
  obtain ⟨c, hc⟩ := ExtTreeMap.mem_iff_lookup.mp hin
  rcases (removeImage_refs img r).2 ref with heq | ⟨href, -⟩
  · exact ExtTreeMap.mem_iff_lookup.mpr ⟨c, heq.trans hc⟩
  · exact absurd (refUnder_of_escape href) hblob.not_image

theorem Whole.removeImage (h : Whole r) (img : ImageReference) :
    Whole (finalState (removeImage img r)) := by
  obtain ⟨hobjects, hrefs⟩ := removeImage_refs img r
  refine h.of_images ?_ ?_ ?_ ?_
  · rw [hobjects]
    exact Objects.Keeps.refl _
  · intro ref hin hunder
    obtain ⟨c, hc⟩ := ExtTreeMap.mem_iff_lookup.mp hin
    rcases hrefs ref with heq | ⟨-, hnone⟩
    · exact h.blobs ref (ExtTreeMap.mem_iff_lookup.mpr ⟨c, heq.symm.trans hc⟩) hunder
    · exact absurd (hc.symm.trans hnone) (by simp)
  · intro ref c _ hc
    rcases hrefs ref with heq | ⟨-, hnone⟩
    · exact heq.symm.trans hc
    · exact absurd (hc.symm.trans hnone) (by simp)
  · intro m _ l _ ref href hin
    exact removeImage_layers img ⟨_, href⟩ hin

end Whole

-- ── The last transaction ──────────────────────────────────────────────────────

section Merged

variable {lib : Libostree} {host : Host} {imp : ImageImporter} {m : MergeInput} {r r' : Repo}
  {c : Checksum} {root : Root} {objects : Objects}

theorem Merges.keeps (h : Merges host lib imp m r c r' root objects) :
    r.toObjects.Keeps r'.toObjects := by
  obtain ⟨_, _, -, -, htrees⟩ := h.loads
  obtain ⟨hkeeps, -⟩ := host.mergeTrees_adds _ _ _ _ _ htrees
  rw [h.repo]
  exact hkeeps.trans (Objects.Keeps.insert_commit _ _ _)

theorem Merges.refs (h : Merges host lib imp m r c r' root objects) (ref : String) :
    r'.refs[ref]? = r.refs[ref]? ∨ ref = m.ostreeRef ∧ r'.refs[ref]? = some c := by
  have hrefs : r'.refs = if imp.noImgref then r.refs else r.refs.insert m.ostreeRef c := by
    rw [h.repo, h.result]
    rfl
  rw [hrefs]
  cases imp.noImgref with
  | true => exact .inl rfl
  | false =>
      rw [if_neg (by simp), ExtTreeMap.lookup_insert]
      by_cases heq : m.ostreeRef = ref
      · exact .inr ⟨heq.symm, if_pos heq⟩
      · exact .inl (if_neg heq)

theorem Merges.mem (h : Merges host lib imp m r c r' root objects) {ref : String}
    (hin : ref ∈ r.refs) : ref ∈ r'.refs := by
  obtain ⟨c', hc'⟩ := ExtTreeMap.mem_iff_lookup.mp hin
  rcases h.refs ref with heq | ⟨-, hc⟩
  · exact ExtTreeMap.mem_iff_lookup.mpr ⟨c', heq.trans hc'⟩
  · exact ExtTreeMap.mem_iff_lookup.mpr ⟨c, hc⟩

/-- The commit is stored, unless another one was under its checksum. -/
theorem Merges.stored (h : Merges host lib imp m r c r' root objects)
    (hno : ∀ b, r.commits[c]? = some b → b = mergeCommit m root) :
    r'.loadCommit c = .ok (mergeCommit m root) := by
  obtain ⟨_, _, -, -, htrees⟩ := h.loads
  obtain ⟨-, hcommits⟩ := host.mergeTrees_adds _ _ _ _ _ htrees
  dsimp only at hcommits
  have hlookup : r'.commits[c]? = some (mergeCommit m root) := by
    rw [h.repo]
    show (objects.commits.insertIfNew (lib.commitChecksum (mergeCommit m root))
      (mergeCommit m root))[c]? = _
    rw [← h.result, hcommits, ExtTreeMap.lookup_insertIfNew, if_pos rfl]
    cases hb : r.commits[c]? with
    | none => rfl
    | some b => rw [hno b hb, Option.some_or]
  rw [Repo.loadCommit, hlookup]
  rfl

/-- **The last transaction of an import** whose layers are all in place leaves a whole
    repository. -/
theorem Whole.merged (h : Whole r) (hmerges : Merges host lib imp m r c r' root objects)
    (hno : ∀ b, r.commits[c]? = some b → b = mergeCommit m root) {prep : PreparedImport}
    {filtered : MetaFilteredData} (hmeta : m.metadata = mergeMetadata prep filtered)
    {i : ImageReference} (himage : refForImage i = .ok m.ostreeRef)
    (hstored : LayersStored prep.manifest.layers r) : Whole r' := by
  have hunder : Repo.refUnder imagePrefix m.ostreeRef = true := refUnder_of_escape himage
  constructor
  · intro ref hin hblob
    obtain ⟨c', hc'⟩ := ExtTreeMap.mem_iff_lookup.mp hin
    rcases hmerges.refs ref with heq | ⟨rfl, -⟩
    · exact h.blobs ref (ExtTreeMap.mem_iff_lookup.mpr ⟨c', heq.symm.trans hc'⟩) hblob
    · exact absurd (hblob.symm.trans (refUnder_disjoint (List.mem_cons_self ..) hunder)) (by simp)
  · intro ref hin himages
    obtain ⟨c', hc'⟩ := ExtTreeMap.mem_iff_lookup.mp hin
    rcases hmerges.refs ref with heq | ⟨rfl, -⟩
    · exact h.images ref (ExtTreeMap.mem_iff_lookup.mpr ⟨c', heq.symm.trans hc'⟩) himages
    · exact ⟨i, himage⟩
  · intro ref c' hc' himages
    rcases hmerges.refs ref with heq | ⟨rfl, hc⟩
    · obtain ⟨manifest, hmanifest, hlayers⟩ := h.complete ref c' (heq.symm.trans hc') himages
      exact ⟨manifest, manifestOfCommit_kept hmerges.keeps hmanifest,
        hlayers.mono (fun _ _ _ _ hin => hmerges.mem hin)⟩
    · obtain rfl : c' = c := Option.some.inj (hc'.symm.trans hc)
      refine ⟨prep.manifest, ?_, hstored.mono (fun _ _ _ _ hin => hmerges.mem hin)⟩
      rw [manifestOfCommit, hmerges.stored hno, bind_ok_eq]
      show (do
        let data ← manifestDataFromCommitmeta m.metadata
        .ok data.1) = _
      rw [hmeta, manifestData_mergeMetadata]
      rfl

end Merged

end OstreeExt.Store
