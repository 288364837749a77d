import OstreeExt.Store.Export
import OstreeExt.Store.Prepare
import OstreeExt.Tar.Confine

/-!
# What an import leaves behind

Up to its last transaction an import only adds to the repository.  That transaction publishes the
image; what comes after it, the garbage collection and the final query, can fail with the image
already in place, and can take away the refs of the layers that were just fetched.
-/

namespace OstreeExt.Store

open OstreeExt Tar Exec Std Refescape

variable {lib : Libostree} {host : Host} {imp : ImageImporter} {prep : PreparedImport}

-- ── Each transaction writes its ref ───────────────────────────────────────────

theorem of_autoTransaction {α : Type} {body : RepoM α} {r r' : Repo} {a : α}
    (h : Repo.autoTransaction body r = .ok a r') : body r = .ok a r' := by
  rw [Repo.autoTransaction] at h
  cases hrun : body r with
  | ok b s =>
      rw [hrun] at h
      exact h
  | error e s =>
      rw [hrun] at h
      cases h

theorem mem_setRef (r : Repo) (ref : String) (c : Checksum) :
    ref ∈ (finalState (Repo.setRef ref (some c) r)).refs := by
  show ref ∈ r.refs.insert ref c
  refine ExtTreeMap.mem_iff_lookup.mpr ⟨c, ?_⟩
  rw [ExtTreeMap.lookup_insert, if_pos rfl]

theorem importChunkLayer_ok {ref : String} {blob : Stream} {r r' : Repo} {commit : Option Checksum}
    (h : importChunkLayer lib true ref blob r = .ok commit r') : ref ∈ r'.refs := by
  have h := of_autoTransaction h
  rw [if_pos rfl] at h
  obtain ⟨c, r₁, -, h₁⟩ := bind_ok h
  obtain ⟨_, r₂, hset, h₂⟩ := bind_ok h₁
  cases hset
  cases h₂
  exact mem_setRef r₁ ref c

theorem importCommitLayer_ok {remote : Option String} {ref : String} {blob : Stream} {r r' : Repo}
    {commit : Checksum} (h : importCommitLayer lib remote true ref blob r = .ok commit r') :
    ref ∈ r'.refs := by
  have h := of_autoTransaction h
  obtain ⟨c, r₁, -, h₁⟩ := bind_ok h
  dsimp only at h₁
  rw [if_pos rfl] at h₁
  obtain ⟨_, r₂, hset, h₂⟩ := bind_ok h₁
  obtain ⟨_, r₃, hmark, h₃⟩ := bind_ok h₂
  cases hset
  cases hmark
  cases h₃
  exact mem_setRef r₁ ref commit

theorem ostreeCommit_ok {base : Root} {ref : String} {out : List FilteredEntry} {r r' : Repo}
    {commit : Checksum} (h : ostreeCommit host lib base ref out r = .ok commit r') :
    ref ∈ r'.refs := by
  have h := of_autoTransaction h
  obtain ⟨repo, r₁, -, h₁⟩ := bind_ok h
  obtain ⟨p, r₂, -, h₂⟩ := bind_ok h₁
  obtain ⟨_, r₃, -, h₃⟩ := bind_ok h₂
  obtain ⟨c, r₄, -, h₄⟩ := bind_ok h₃
  obtain ⟨_, r₅, hset, h₅⟩ := bind_ok h₄
  cases hset
  cases h₅
  exact mem_setRef r₄ ref commit

/-- A filter that failed leaves no result, whatever was committed. -/
theorem writeTar_ok {config : TarImportConfig} {base : Checksum} {mediaType : MediaType}
    {blob : Bytes} {ref : String} {r r' : Repo} {res : WriteTarResult}
    (h : writeTar host lib config base mediaType blob ref r = .ok res r') : ref ∈ r'.refs := by
  obtain ⟨repo, r₁, -, h₁⟩ := bind_ok h
  obtain ⟨baseCommit, r₂, -, h₂⟩ := bind_ok h₁
  have hfailed : ∀ {out : List FilteredEntry} {e : Stop}, ¬ (if host.outruns out then do
        let _ ← ostreeCommit host lib (rootOf baseCommit) ref out
        throw e
      else throw e : RepoM WriteTarResult) r₂ = .ok res r' := by
    intro out e hrun
    split at hrun
    · obtain ⟨_, _, -, hthrow⟩ := bind_ok hrun
      cases hthrow
    · cases hrun
  cases hcompression : decompressor mediaType with
  | error e =>
      rw [hcompression] at h₂
      exact absurd h₂ hfailed
  | ok compression =>
      rw [hcompression] at h₂
      dsimp only at h₂
      cases hout : (filterTar host.tar config (host.entries compression blob)).2 with
      | error e =>
          rw [hout] at h₂
          exact absurd h₂ hfailed
      | ok filtered =>
          rw [hout] at h₂
          obtain ⟨commit, r₃, hcommit, h₃⟩ := bind_ok h₂
          cases h₃
          exact ostreeCommit_ok hcommit

theorem joinFetch_ok {α : Type} {worker : RepoM α} {driver : Result Unit} {r r' : Repo} {a : α}
    (h : joinFetch worker driver r = .ok a r') : worker r = .ok a r' := by
  obtain ⟨a', r₁, hworker, h₁⟩ := bind_ok h
  obtain ⟨_, r₂, hdriver, h₂⟩ := bind_ok h₁
  obtain ⟨-, rfl⟩ := liftR_eq_ok hdriver
  cases h₂
  exact hworker

/-- The layer was there, or its ref is there now. -/
def LayerStored (layer : ManifestLayerState) (r : Repo) : Prop :=
  layer.commit.isSome = true ∨ layer.ostreeRef ∈ r.refs

theorem LayerStored.keep {S : String → Prop} {layer : ManifestLayerState} {r r' : Repo}
    (hfetch : Fetches S r r') (h : LayerStored layer r) : LayerStored layer r' :=
  h.imp_right hfetch.mem

section Rounds

variable {manifest : ImageManifest} {desLayers : Option (List ConvertedLayerInfo)}
  {layer : ManifestLayerState} {r r' : Repo}

theorem fetchChunkLayer_ok {layer' : ManifestLayerState}
    (h : imp.fetchChunkLayer host lib manifest desLayers true layer r = .ok layer' r') :
    LayerStored layer r' := by
  rw [ImageImporter.fetchChunkLayer] at h
  split at h
  · next hsome => exact .inl hsome
  obtain ⟨_, r₁, -, h₁⟩ := bind_ok h
  obtain ⟨b, r₂, -, h₂⟩ := bind_ok h₁
  obtain ⟨commit, r₃, hfetch, h₃⟩ := bind_ok h₂
  obtain ⟨compression, r₄, -, himport⟩ := bind_ok (joinFetch_ok hfetch)
  obtain ⟨_, r₅, hsent, h₄⟩ := bind_ok h₃
  obtain ⟨-, rfl⟩ := liftR_eq_ok hsent
  cases h₄
  exact .inr (importChunkLayer_ok himport)

theorem fetchCommitLayer_ok {remote : Option String} {layer' : ManifestLayerState}
    (h : imp.fetchCommitLayer host lib manifest desLayers remote true layer r = .ok layer' r') :
    LayerStored layer r' := by
  rw [ImageImporter.fetchCommitLayer] at h
  split at h
  · next hsome => exact .inl hsome
  obtain ⟨_, r₁, -, h₁⟩ := bind_ok h
  obtain ⟨b, r₂, -, h₂⟩ := bind_ok h₁
  obtain ⟨commit, r₃, hfetch, h₃⟩ := bind_ok h₂
  obtain ⟨compression, r₄, -, himport⟩ := bind_ok (joinFetch_ok hfetch)
  obtain ⟨_, r₅, hsent, h₄⟩ := bind_ok h₃
  obtain ⟨-, rfl⟩ := liftR_eq_ok hsent
  cases h₄
  exact .inr (importCommitLayer_ok himport)

theorem importLayer_ok {base : Checksum} {rootIsTransient : Bool}
    {acc acc' : List Checksum × MetaFilteredData}
    (h : imp.importLayer host lib manifest desLayers base rootIsTransient acc layer r
      = .ok acc' r') : LayerStored layer r' := by
  cases hcommit : layer.commit with
  | some commit => exact .inl (by rw [hcommit]; rfl)
  | none =>
      rw [ImageImporter.importLayer, hcommit] at h
      obtain ⟨_, r₁, -, h₁⟩ := bind_ok h
      obtain ⟨b, r₂, -, h₂⟩ := bind_ok h₁
      obtain ⟨res, r₃, hfetch, h₃⟩ := bind_ok h₂
      obtain ⟨_, r₄, hsent, h₄⟩ := bind_ok h₃
      obtain ⟨-, rfl⟩ := liftR_eq_ok hsent
      cases h₄
      exact .inr (writeTar_ok (joinFetch_ok hfetch))

end Rounds

-- ── Up to the last transaction ────────────────────────────────────────────────

/-- Nothing is known about the refs that are written. -/
abbrev Grows : Repo → Repo → Prop := Fetches (fun _ => True)

theorem unencapsulateBase_stored {prep' : PreparedImport} {r r' : Repo}
    (h : imp.unencapsulateBase host lib prep true r = .ok prep' r') :
    ∀ layer ∈ prep.ostreeCommitLayer :: prep.ostreeLayers, LayerStored layer r' := by
  obtain ⟨_, r₁, -, h₁⟩ := bind_ok h
  obtain ⟨desLayers, r₂, -, h₂⟩ := bind_ok h₁
  obtain ⟨chunks, r₃, hchunks, h₃⟩ := bind_ok h₂
  obtain ⟨commitLayer, r₄, hcommit, h₄⟩ := bind_ok h₃
  cases h₄
  have hround : ∀ layer, Steps Grows
      (imp.fetchChunkLayer host lib prep.manifest desLayers true layer) :=
    fun layer => (fetches_frame _).fetchChunkLayer true (fun _ => trivial)
  have hall := mapM_ok_forall Fetches.trans_step Fetches.refl
    (fun layer _ => hround layer)
    (fun _ _ _ _ hrun => fetchChunkLayer_ok hrun) (fun _ _ _ hfetch => LayerStored.keep hfetch)
    hchunks
  have hfetch : Steps Grows (imp.fetchCommitLayer host lib prep.manifest desLayers
      (remoteOf imp.imgref.sigverify) true prep.ostreeCommitLayer) :=
    (fetches_frame _).fetchCommitLayer (fun _ _ => trivial) _ true (fun _ => trivial)
  have hfetch := hfetch r₃
  rw [hcommit] at hfetch
  intro layer hlayer
  rcases List.mem_cons.mp hlayer with rfl | hchunk
  · exact fetchCommitLayer_ok hcommit
  · exact (hall layer hchunk).keep hfetch

/-- The part of an import in front of its last transaction, when it is done. -/
structure ImageImporter.Fetched (imp : ImageImporter) (prep : PreparedImport) (m : MergeInput)
    (r' : Repo) : Prop where
  metadata : ∃ filtered, m.metadata = mergeMetadata prep filtered
  target : refForImage (imp.targetImgref.getD imp.imgref).imgref = .ok m.ostreeRef
  stored : ∀ layer ∈ prep.allLayers, LayerStored layer r'

theorem fetchLayers_ok {m : MergeInput} {r r' : Repo}
    (h : imp.fetchLayers host lib prep r = .ok m r') : imp.Fetched prep m r' := by
  obtain ⟨prep', r₁, hbase, h₁⟩ := bind_ok h
  have hstored := unencapsulateBase_stored hbase
  obtain ⟨chunks, commitLayer, rfl⟩ := unencapsulateBase_ok hbase
  obtain ⟨desLayers, r₂, hinfo, h₂⟩ := bind_ok h₁
  obtain ⟨-, rfl⟩ := liftR_eq_ok hinfo
  obtain ⟨baseCommit, r₃, hunwrap, h₃⟩ := bind_ok h₂
  obtain ⟨-, rfl⟩ := liftR_eq_ok hunwrap
  obtain ⟨repo, r₄, hget, h₄⟩ := bind_ok h₃
  cases hget
  obtain ⟨base, r₅, hload, h₅⟩ := bind_ok h₄
  obtain ⟨-, rfl⟩ := liftR_eq_ok hload
  obtain ⟨repo, r₆, hget, h₆⟩ := bind_ok h₅
  cases hget
  obtain ⟨transient, r₇, htransient, h₇⟩ := bind_ok h₆
  obtain ⟨-, rfl⟩ := liftR_eq_ok htransient
  obtain ⟨ostreeRef, r₈, htarget, h₈⟩ := bind_ok h₇
  obtain ⟨hname, rfl⟩ := liftR_eq_ok htarget
  obtain ⟨acc, r₉, hlayers, h₉⟩ := bind_ok h₈
  obtain ⟨_, r₁₀, hclose, h₁₀⟩ := bind_ok h₉
  obtain ⟨-, rfl⟩ := liftR_eq_ok hclose
  obtain ⟨_, r₁₁, hfinal, h₁₁⟩ := bind_ok h₁₀
  obtain ⟨-, rfl⟩ := liftR_eq_ok hfinal
  obtain ⟨repo, r₁₂, hget, h₁₂⟩ := bind_ok h₁₁
  cases hget
  cases h₁₂
  have hround : ∀ acc, ∀ layer ∈ prep.layers, Steps Grows
      (imp.importLayer host lib prep.manifest desLayers baseCommit transient acc layer) :=
    fun acc layer _ => (fetches_frame _).importLayer acc trivial
  have hderived := foldlM_ok_forall Fetches.trans_step Fetches.refl hround
    (fun _ _ _ _ _ hrun => importLayer_ok hrun) (fun _ _ _ hfetch => LayerStored.keep hfetch)
    hlayers
  have hgrows := Steps.foldlM Fetches.refl Fetches.trans_step hround ([], ∅) r₈
  rw [hlayers] at hgrows
  refine ⟨⟨acc.2, rfl⟩, hname, ?_⟩
  intro layer hlayer
  rcases List.mem_append.mp hlayer with hbase | hlayer
  · exact (hstored layer hbase).keep hgrows
  · exact hderived layer hlayer

/-- The repository at the end of the last transaction. -/
structure ImageImporter.Merged (imp : ImageImporter) (host : Host) (lib : Libostree)
    (prep : PreparedImport) (r : Repo) (c : Checksum) (r' : Repo) (m : MergeInput) (s : Repo)
    (root : Root) (objects : Objects) : Prop where
  fetched : imp.Fetched prep m s
  fetches : Fetches prep.IsLayerRef r s
  merges : Merges host lib imp m s c r' root objects

theorem importMerged_ok {c : Checksum} {r r' : Repo}
    (h : imp.importMerged host lib prep r = .ok c r') :
    ∃ m s root objects, imp.Merged host lib prep r c r' m s root objects := by
  obtain ⟨m, s, hfetch, hmerge⟩ := bind_ok h
  have hfetches : Steps (Fetches prep.IsLayerRef) (imp.fetchLayers host lib prep) :=
    (fetches_frame _).fetchLayers (fun _ _ => trivial)
  have hfetches := hfetches r
  rw [hfetch] at hfetches
  rcases @mergeLayers_cases host lib imp m s with
    ⟨c', r'', root, objects, hrun, hmerges⟩ | ⟨e, r'', hrun, -⟩
  · cases hmerge.symm.trans hrun
    exact ⟨m, s, root, objects, fetchLayers_ok hfetch, hfetches, hmerges⟩
  · cases hmerge.symm.trans hrun

/-- An import that fails by its last transaction has written refs of its layers, and no other
    ones. -/
theorem importMerged_error {e : Stop} {r r' : Repo}
    (h : imp.importMerged host lib prep r = .error e r') : Fetches prep.IsLayerRef r r' := by
  have hfetches : Steps (Fetches prep.IsLayerRef) (imp.fetchLayers host lib prep) :=
    (fetches_frame _).fetchLayers (fun _ _ => trivial)
  have hfetches := hfetches r
  rcases bind_error h with hfetch | ⟨m, s, hfetch, hmerge⟩
  · rw [hfetch] at hfetches
    exact hfetches
  · rw [hfetch] at hfetches
    rcases @mergeLayers_cases host lib imp m s with
      ⟨c', r'', root, objects, hrun, -⟩ | ⟨e', r'', hrun, hobjects, hrefs, -⟩
    · cases hmerge.symm.trans hrun
    · cases hmerge.symm.trans hrun
      refine hfetches.trans (.of_sameRefs ?_ hrefs)
      rw [hobjects]
      exact Objects.Keeps.refl _

-- ── A failed import ───────────────────────────────────────────────────────────

/-- `prepare` has returned it, for whatever importer and in whatever repository. -/
def PreparedImport.IsPrepared (prep : PreparedImport) : Prop :=
  ∃ (host : Host) (imp : ImageImporter) (r r' : Repo), imp.prepare host r = .ok (.ready prep) r'

/-- The refs of its layers are those of its digests. -/
theorem PreparedImport.IsPrepared.layerRef (h : prep.IsPrepared) {ref : String}
    (href : prep.IsLayerRef ref) : Repo.refUnder layerPrefix ref = true := by
  obtain ⟨host, imp, r, r', hrun⟩ := h
  obtain ⟨_, _, _, hlaid⟩ := (prepare_eq_ready hrun).created.laidOut
  obtain ⟨layer, hlayer, rfl⟩ := href
  exact refUnder_of_escape (queryLayer_eq_ok (hlaid.queried hlayer)).2.1

/-- An image ref is the ref of no layer. -/
theorem PreparedImport.IsPrepared.not_layerRef (h : prep.IsPrepared) {ref : String}
    (hunder : Repo.refUnder imagePrefix ref = true) : ¬ prep.IsLayerRef ref := by
  intro href
  exact absurd ((refUnder_disjoint (List.mem_cons_self ..) hunder).symm.trans (h.layerRef href))
    (by simp)

/-- The end of an import removes refs of layers, if anything. -/
theorem finishImport_unlinks (c : Checksum) : Steps Unlinks (imp.finishImport host c) := by
  have hquery : Steps Unlinks (do liftR (queryImageCommit (← get) c) : RepoM LayeredImageState) := by
    intro r
    rw [bind_of_ok (get_run r)]
    cases queryImageCommit r c <;> exact Unlinks.refl r
  rw [ImageImporter.finishImport]
  dsimp only
  split
  · exact hquery
  · exact Steps.bind Unlinks.trans (gcImageLayers_unlinks host.hash) (fun _ => hquery)

/-- The last transaction leaves every other image alone. -/
theorem ImageImporter.Merged.image_refs {r r' s : Repo} {c : Checksum} {m : MergeInput}
    {root : Root} {objects : Objects} (h : imp.Merged host lib prep r c r' m s root objects)
    (hprep : prep.IsPrepared) {ref : String} (hunder : Repo.refUnder imagePrefix ref = true) :
    r'.refs[ref]? = if imp.noImgref = false ∧ m.ostreeRef = ref then some c else r.refs[ref]? := by
  have hs : s.refs[ref]? = r.refs[ref]? := h.fetches.lookup (hprep.not_layerRef hunder)
  have hrefs : r'.refs = if imp.noImgref then s.refs else s.refs.insert m.ostreeRef c := by
    rw [h.merges.repo, h.merges.result]
    rfl
  rw [hrefs]
  cases imp.noImgref with
  | true => simpa using hs
  | false =>
      rw [if_neg (by simp), ExtTreeMap.lookup_insert]
      by_cases heq : m.ostreeRef = ref
      · rw [if_pos heq, if_pos ⟨rfl, heq⟩]
      · rw [if_neg heq, if_neg (fun h => heq h.2)]
        exact hs

/-- **A failed import** leaves the images as they were, unless its last transaction was done: then
    its own image is in place, and every other one is as it was. -/
theorem importImage_error (hprep : prep.IsPrepared) {e : Stop} {r r' : Repo}
    (h : imp.importImage host lib prep r = .error e r') :
    (∀ ref, Repo.refUnder imagePrefix ref = true → r'.refs[ref]? = r.refs[ref]?) ∨
    imp.noImgref = false ∧ ∃ c r₁ target, imp.importMerged host lib prep r = .ok c r₁ ∧
      imp.finishImport host c r₁ = .error e r' ∧
      refForImage (imp.targetImgref.getD imp.imgref).imgref = .ok target ∧
      r'.refs[target]? = some c ∧
      ∀ ref, Repo.refUnder imagePrefix ref = true → ref ≠ target →
        r'.refs[ref]? = r.refs[ref]? := by
  rcases bind_error h with hmerged | ⟨c, r₁, hmerged, hfinish⟩
  · exact .inl (fun ref hunder => (importMerged_error hmerged).lookup (hprep.not_layerRef hunder))
  obtain ⟨m, s, root, objects, hm⟩ := importMerged_ok hmerged
  have hunlinks := @finishImport_unlinks host imp c r₁
  rw [hfinish] at hunlinks
  have himages : ∀ ref, Repo.refUnder imagePrefix ref = true → r'.refs[ref]? =
      if imp.noImgref = false ∧ m.ostreeRef = ref then some c else r.refs[ref]? := by
    intro ref hunder
    rw [← hm.image_refs hprep hunder]
    refine (hunlinks.refs ref).resolve_right (fun hgone => ?_)
    exact absurd ((refUnder_disjoint (List.mem_cons_self ..) hunder).symm.trans hgone.1) (by simp)
  cases hno : imp.noImgref with
  | true =>
      refine .inl (fun ref hunder => ?_)
      rw [himages ref hunder, if_neg (by simp [hno])]
  | false =>
      have htarget := refUnder_of_escape hm.fetched.target
      refine .inr ⟨rfl, c, r₁, m.ostreeRef, hmerged, hfinish, hm.fetched.target, ?_, ?_⟩
      · rw [himages _ htarget, if_pos ⟨hno, rfl⟩]
      · intro ref hunder hne
        rw [himages ref hunder, if_neg (fun h => hne h.2.symm)]

-- ── The layers after an import ────────────────────────────────────────────────

/-- Every layer has a ref. -/
def LayersStored (layers : List Descriptor) (r : Repo) : Prop :=
  ∀ l ∈ layers, ∃ ref, refForLayer l = .ok ref ∧ ref ∈ r.refs

theorem LayersStored.append {a b : List Descriptor} {r : Repo} :
    LayersStored (a ++ b) r ↔ LayersStored a r ∧ LayersStored b r :=
  List.forall_mem_append

/-- The garbage collection would be done, and pass over the refs of the layers. -/
def Spares (hash : HashOrder) (r : Repo) (layers : List Descriptor) : Prop :=
  BlobsUnescape r ∧ ∃ live, referencedLayers hash r = .ok live ∧
    ∀ l ∈ layers, ∀ ref, refForLayer l = .ok ref →
      Spared (hash.order (r.listRefsExt layerPrefix)) live ref

section Layers

variable {hash : HashOrder} {r r' : Repo} {layers : List Descriptor}

theorem collect_iff (hstored : LayersStored layers r) :
    (∃ n r', gcImageLayers hash r = .ok n r' ∧ LayersStored layers r') ↔
      Spares hash r layers := by
  have hgc : ∀ {live : ExtTreeSet Digest}, BlobsUnescape r → referencedLayers hash r = .ok live →
      ∃ n r', gcImageLayers hash r = .ok n r' ∧ (LayersStored layers r' ↔
        ∀ l ∈ layers, ∀ ref, refForLayer l = .ok ref →
          Spared (hash.order (r.listRefsExt layerPrefix)) live ref) := by
    intro live hblobs hlive
    obtain ⟨gone, hrun, -, -, hgone⟩ := gcImageLayers_spares hblobs hlive
    refine ⟨_, _, hrun, ?_⟩
    have hkept : ∀ ref ∈ r.refs, Repo.refUnder layerPrefix ref = true →
        (ref ∈ r.refs.eraseAll gone ↔
          Spared (hash.order (r.listRefsExt layerPrefix)) live ref) := by
      intro ref hin hunder
      rw [ExtTreeMap.mem_iff_lookup, ExtTreeMap.lookup_eraseAll, ← not_iff_not,
        ← hgone ref hin hunder]
      obtain ⟨c, hc⟩ := ExtTreeMap.mem_iff_lookup.mp hin
      by_cases hg : ref ∈ gone
      · simp [hg]
      · simp [hg, hc]
    constructor
    · intro h l hl ref href
      obtain ⟨ref', href', hin⟩ := h l hl
      obtain rfl : ref' = ref := Except.ok.inj (href'.symm.trans href)
      obtain ⟨ref'', href'', hmem⟩ := hstored l hl
      obtain rfl : ref'' = ref' := Except.ok.inj (href''.symm.trans href)
      exact (hkept ref'' hmem (refUnder_of_escape href)).mp hin
    · intro h l hl
      obtain ⟨ref, href, hmem⟩ := hstored l hl
      exact ⟨ref, href, (hkept ref hmem (refUnder_of_escape href)).mpr (h l hl ref href)⟩
  constructor
  · rintro ⟨n, r', hrun, hlayers⟩
    obtain ⟨hblobs, live, hlive⟩ := gcImageLayers_ok hrun
    obtain ⟨n', r'', hrun', hiff⟩ := hgc hblobs hlive
    cases hrun.symm.trans hrun'
    exact ⟨hblobs, live, hlive, hiff.mp hlayers⟩
  · rintro ⟨hblobs, live, hlive, hspared⟩
    obtain ⟨n, r', hrun, hiff⟩ := hgc hblobs hlive
    exact ⟨n, r', hrun, hiff.mpr hspared⟩

/-- Refs of layers that go away matter for a query if the first layer is among them. -/
theorem queryImageCommit_unlinked (h : Unlinks r r') {c : Checksum} {state : LayeredImageState} :
    queryImageCommit r' c = .ok state ↔ queryImageCommit r c = .ok state ∧
      LayersStored state.manifest.layers.head?.toList r' := by
  rw [queryImageCommit_iff, queryImageCommit_iff]
  have hload : r'.loadCommit c = r.loadCommit c := by
    rw [Repo.loadCommit, Repo.loadCommit, h.objects]
  have hupdate : cachedUpdateOf r' c = cachedUpdateOf r c := by
    rw [cachedUpdateOf, cachedUpdateOf, h.commitmetas]
  constructor
  · rintro ⟨obj, base, ref, hstate⟩
    refine ⟨⟨obj, base, ref, hstate.mergeCommit, hload ▸ hstate.stored, hstate.data, hstate.config,
      hstate.head, hstate.layerRef, ?_, hupdate ▸ hstate.update⟩, ?_⟩
    · rcases h.refs ref with heq | ⟨-, hnone⟩
      · exact heq.symm.trans hstate.baseCommit
      · exact absurd (hnone.symm.trans hstate.baseCommit) (by simp)
    · intro l hl
      rw [hstate.head, Option.mem_toList] at hl
      obtain rfl := Option.some.inj hl
      exact ⟨ref, hstate.layerRef, ExtTreeMap.mem_iff_lookup.mpr ⟨_, hstate.baseCommit⟩⟩
  · rintro ⟨⟨obj, base, ref, hstate⟩, hhead⟩
    refine ⟨obj, base, ref, hstate.mergeCommit, hload.trans hstate.stored, hstate.data,
      hstate.config, hstate.head, hstate.layerRef, ?_, hupdate.trans hstate.update⟩
    obtain ⟨ref', href', hin⟩ := hhead base (by rw [hstate.head]; exact List.mem_cons_self ..)
    obtain rfl : ref' = ref := Except.ok.inj (href'.symm.trans hstate.layerRef)
    rcases h.refs ref' with heq | ⟨-, hnone⟩
    · exact heq.trans hstate.baseCommit
    · obtain ⟨c', hc'⟩ := ExtTreeMap.mem_iff_lookup.mp hin
      exact absurd (hnone.symm.trans hc') (by simp)

/-- The end of an import from where its last transaction is done. -/
theorem finishImport_layers_iff {c : Checksum} (hstored : LayersStored layers r) :
    (∃ state r', imp.finishImport host c r = .ok state r' ∧ LayersStored layers r') ↔
    ∃ state, queryImageCommit r c = .ok state ∧ (imp.disableGc = true ∨
      Spares host.hash r (layers ++ state.manifest.layers.head?.toList)) := by
  cases hgc : imp.disableGc with
  | true =>
      have hrun : imp.finishImport host c r
          = (liftR (queryImageCommit r c) : RepoM LayeredImageState) r := by
        rw [ImageImporter.finishImport, hgc]
        rfl
      rw [hrun]
      constructor
      · rintro ⟨state, r', h, -⟩
        exact ⟨state, (liftR_eq_ok h).1, .inl rfl⟩
      · rintro ⟨state, h, -⟩
        exact ⟨state, r, by rw [h]; rfl, hstored⟩
  | false =>
      have hrun : imp.finishImport host c = (do
          let _ ← gcImageLayers host.hash
          liftR (queryImageCommit (← get) c) : RepoM LayeredImageState) := by
        rw [ImageImporter.finishImport, hgc]
        rfl
      have hunlinks := gcImageLayers_unlinks host.hash r
      have hbase : ∀ {state : LayeredImageState}, queryImageCommit r c = .ok state →
          LayersStored state.manifest.layers.head?.toList r :=
        fun h => ((queryImageCommit_unlinked (Unlinks.refl r)).mp h).2
      rw [hrun]
      constructor
      · rintro ⟨state, r', h, hlayers⟩
        obtain ⟨n, r₁, hcollect, h₁⟩ := bind_ok h
        rw [bind_of_ok (get_run r₁)] at h₁
        obtain ⟨hquery, rfl⟩ := liftR_eq_ok h₁
        rw [hcollect] at hunlinks
        obtain ⟨hbefore, hhead⟩ := (queryImageCommit_unlinked hunlinks).mp hquery
        refine ⟨state, hbefore, .inr ?_⟩
        exact (collect_iff (LayersStored.append.mpr ⟨hstored, hbase hbefore⟩)).mp
          ⟨n, _, hcollect, LayersStored.append.mpr ⟨hlayers, hhead⟩⟩
      · rintro ⟨state, hbefore, hspares⟩
        have hspares := hspares.resolve_left (by simp)
        obtain ⟨n, r₁, hcollect, hkept⟩ :=
          (collect_iff (LayersStored.append.mpr ⟨hstored, hbase hbefore⟩)).mpr hspares
        obtain ⟨hlayers, hhead⟩ := LayersStored.append.mp hkept
        rw [hcollect] at hunlinks
        have hquery : queryImageCommit r₁ c = .ok state :=
          (queryImageCommit_unlinked hunlinks).mpr ⟨hbefore, hhead⟩
        refine ⟨state, r₁, ?_, hlayers⟩
        rw [bind_of_ok hcollect, bind_of_ok (get_run r₁), hquery]
        rfl

/-- Where every name is in order, it is the references that count. -/
theorem spares_iff_referenced (h : GcReady r) (hstored : LayersStored layers r) :
    Spares hash r layers ↔ ∀ l ∈ layers, Referenced r l.digest := by
  have hspared : ∀ {live : ExtTreeSet Digest}, referencedLayers hash r = .ok live →
      ∀ l ∈ layers, ∀ ref, refForLayer l = .ok ref →
        (Spared (hash.order (r.listRefsExt layerPrefix)) live ref ↔ Referenced r l.digest) := by
    intro live hlive l hl ref href
    obtain ⟨ref', href', hin⟩ := hstored l hl
    obtain rfl : ref' = ref := Except.ok.inj (href'.symm.trans href)
    rw [← mem_referencedLayers h.images hlive]
    refine spared_iff (nodup_order_listRefsExt hash r) (fun p hp => ?_) href
      (mem_order_listRefsExt.mpr ⟨hin, refUnder_of_escape href⟩)
    obtain ⟨hin', hunder⟩ := mem_order_listRefsExt.mp (List.mem_map_of_mem hp)
    exact h.blobs p.1 hin' hunder
  constructor
  · rintro ⟨-, live, hlive, hall⟩ l hl
    obtain ⟨ref, href, -⟩ := hstored l hl
    exact (hspared hlive l hl ref href).mp (hall l hl ref href)
  · intro hall
    obtain ⟨live, hlive⟩ := h.referencedLayers_ok hash
    exact ⟨h.blobs.unescape, live, hlive,
      fun l hl ref href => (hspared hlive l hl ref href).mpr (hall l hl)⟩

end Layers

/-- **When the last transaction is done**, every layer of the manifest has a ref. -/
theorem importMerged_layers {imp₀ : ImageImporter} {host₀ : Host} {r₀ r r₁ : Repo} {c : Checksum}
    (hprep : imp₀.prepare host₀ r₀ = .ok (.ready prep) r)
    (h : imp.importMerged host lib prep r = .ok c r₁) : LayersStored prep.manifest.layers r₁ := by
  obtain ⟨_, _, _, hlaid⟩ := (prepare_eq_ready hprep).created.laidOut
  obtain ⟨m, s, root, objects, hm⟩ := importMerged_ok h
  intro l hl
  obtain ⟨layer, hlayer, rfl⟩ := hlaid.covers hl
  obtain ⟨-, href, hquery⟩ := queryLayer_eq_ok (hlaid.queried hlayer)
  refine ⟨layer.ostreeRef, href, ?_⟩
  have hs : layer.ostreeRef ∈ s.refs := by
    rcases hm.fetched.stored layer hlayer with hthere | hin
    · obtain ⟨c', hc'⟩ := Option.isSome_iff_exists.mp hthere
      exact hm.fetches.mem (ExtTreeMap.mem_iff_lookup.mpr ⟨c', hquery.symm.trans hc'⟩)
    · exact hin
  have hrefs : r₁.refs = if imp.noImgref then s.refs else s.refs.insert m.ostreeRef c := by
    rw [hm.merges.repo, hm.merges.result]
    rfl
  rw [hrefs]
  split
  · exact hs
  · exact ExtTreeMap.mem_insert.mpr (.inr hs)

/-- **When an import ends with the layers of its manifest in place.**  The first part says it
    exactly; the second one is about repositories in which nothing stops the garbage collection,
    where it is a matter of the flags and of other images with the same layers. -/
theorem importImage_keeps_layers {imp₀ : ImageImporter} {host₀ : Host} {r₀ r r₁ : Repo}
    {c : Checksum} (hprep : imp₀.prepare host₀ r₀ = .ok (.ready prep) r)
    (hmerged : imp.importMerged host lib prep r = .ok c r₁) :
    ((∃ state r', imp.importImage host lib prep r = .ok state r' ∧
        LayersStored prep.manifest.layers r') ↔
      ∃ state, queryImageCommit r₁ c = .ok state ∧ (imp.disableGc = true ∨
        Spares host.hash r₁ (prep.manifest.layers ++ state.manifest.layers.head?.toList))) ∧
    (GcReady r₁ → (∃ state, queryImageCommit r₁ c = .ok state ∧ state.manifest = prep.manifest) →
      ((∃ state r', imp.importImage host lib prep r = .ok state r' ∧
          LayersStored prep.manifest.layers r') ↔
        imp.disableGc = true ∨ imp.noImgref = false ∨
          ∀ l ∈ prep.manifest.layers, Referenced r₁ l.digest)) := by
  have hstored := importMerged_layers hprep hmerged
  have hrun : imp.importImage host lib prep r = imp.finishImport host c r₁ := by
    rw [ImageImporter.importImage, bind_of_ok hmerged]
  have hexact := @finishImport_layers_iff host imp r₁ prep.manifest.layers c hstored
  rw [hrun]
  refine ⟨hexact, ?_⟩
  rintro hready ⟨state, hquery, hmanifest⟩
  rw [hexact]
  have hspares : Spares host.hash r₁ (prep.manifest.layers ++ state.manifest.layers.head?.toList) ↔
      ∀ l ∈ prep.manifest.layers, Referenced r₁ l.digest := by
    have hhead : ∀ l ∈ state.manifest.layers.head?.toList, l ∈ prep.manifest.layers := by
      intro l hl
      rw [hmanifest] at hl
      exact List.mem_of_mem_head? (Option.mem_toList.mp hl)
    have hboth : LayersStored (prep.manifest.layers ++ state.manifest.layers.head?.toList) r₁ :=
      LayersStored.append.mpr ⟨hstored, fun l hl => hstored l (hhead l hl)⟩
    rw [spares_iff_referenced hready hboth, List.forall_mem_append]
    exact ⟨fun h => h.1, fun h => ⟨h, fun l hl => h l (hhead l hl)⟩⟩
  constructor
  · rintro ⟨state', hquery', hgc⟩
    cases hquery.symm.trans hquery'
    exact hgc.imp_right (fun h => .inr (hspares.mp h))
  · intro h
    refine ⟨state, hquery, h.imp_right (fun h => hspares.mpr ?_)⟩
    rcases h with hwritten | hreferenced
    · -- the image itself refers to its layers
      obtain ⟨m, s, root, objects, hm⟩ := importMerged_ok hmerged
      have htarget := refUnder_of_escape hm.fetched.target
      have hin : r₁.refs[m.ostreeRef]? = some c := by
        rw [hm.image_refs ⟨host₀, imp₀, r₀, r, hprep⟩ htarget, if_pos ⟨hwritten, rfl⟩]
      obtain ⟨obj, base, ref, hstate⟩ := queryImageCommit_iff.mp hquery
      intro l hl
      exact ⟨state.manifest, .inl ⟨m.ostreeRef, c, hin, htarget, hstate.manifest⟩, l,
        hmanifest ▸ hl, rfl⟩
    · exact hreferenced

-- ── The merge commit ──────────────────────────────────────────────────────────

theorem lookup_mergeMetadata (prep : PreparedImport) (filtered : MetaFilteredData) :
    (mergeMetadata prep filtered)[metaManifestDigest]? = some (.digest prep.manifestDigest) ∧
    (mergeMetadata prep filtered)[metaManifest]? = some (.manifest prep.manifest) ∧
    (mergeMetadata prep filtered)[metaConfig]? = some (.config prep.config) := by
  simp only [mergeMetadata, ExtTreeMap.lookup_insert]
  exact ⟨rfl, rfl, rfl⟩

/-- What was prepared is read back from the merge commit. -/
theorem manifestData_mergeMetadata (prep : PreparedImport) (filtered : MetaFilteredData) :
    manifestDataFromCommitmeta (mergeMetadata prep filtered)
      = .ok (prep.manifest, prep.manifestDigest) := by
  obtain ⟨hdigest, hmanifest, -⟩ := lookup_mergeMetadata prep filtered
  rw [manifestDataFromCommitmeta, lookupStr, hdigest, lookupStr, hmanifest]
  rfl

theorem imageConfig_mergeMetadata (prep : PreparedImport) (filtered : MetaFilteredData) :
    imageConfigFromCommitmeta (mergeMetadata prep filtered) = .ok prep.config := by
  obtain ⟨-, -, hconfig⟩ := lookup_mergeMetadata prep filtered
  rw [imageConfigFromCommitmeta, lookupStr, hconfig]
  rfl

-- ── A small image ─────────────────────────────────────────────────────────────

/-- An archive that was written. -/
def streamOf : Result (List Entry) → Stream
  | .ok es => es.map .ok
  | .error _ => []

/-- The archive of the sample commit. -/
def sampleBlob : Stream :=
  streamOf (exportCommit sampleTables.lib sampleTar sampleRepo 2 sampleCommitSum)

/-- A machine on which each of these archives is that of the sample commit, and on which an image
    of one layer is that layer. -/
def sampleHost : Host where
  hash := .sorted
  tar := sampleBuilder
  arch := "amd64"
  policyIsDefaultInsecure := .ok false
  objects _ _ := sampleBlob
  entries _ _ := []
  parseRfc3339 _ := none
  clock _ := 0
  overlayfsRootEnabled _ _ := .ok false
  commitTar o base _ := .ok (base, o)
  outruns _ := false
  mergeTrees o base _ _ := .ok (base, o)
  commitTar_adds := by
    rintro o base es p h
    cases h
    exact ⟨Objects.Keeps.refl o, rfl⟩
  mergeTrees_adds := by
    rintro o base layers derived p h
    cases h
    exact ⟨Objects.Keeps.refl o, rfl⟩

/-- The digest of the manifest of the image with one layer. -/
def sampleManifestDigest : Digest := "sha256:" ++ emptySha256

/-- A registry that serves an image with the one layer. -/
def sampleProxy (manifestDigest : Digest) (manifest : ImageManifest) : ImageProxy where
  fetchManifest := .ok (manifestDigest, manifest)
  fetchConfig := .ok storedConfig
  getLayerInfo _ := .ok none
  getBlob _ _ := .ok ([], .ok ())

/-- An importer of the image with one layer, with or without a final image ref. -/
def sampleImporter (noImgref : Bool) : ImageImporter where
  proxy := sampleProxy sampleManifestDigest sampleManifest
  imgref := { sigverify := .containerPolicyAllowInsecure, imgref := sampleImage }
  noImgref

def sampleLayerRef : String := "ostree/container/blob/sha256_3A_" ++ emptyTreeSum

def sampleImageRef : String := "ostree/container/image/docker_3A__2F__2F_quay_2E_io/os"

theorem escape_sampleLayerRef :
    prefixEscapeForRef layerPrefix sampleLayer.digest = .ok sampleLayerRef := refForLayer_sample

theorem escape_sampleImageRef :
    prefixEscapeForRef imagePrefix sampleImage.display = .ok sampleImageRef := refForImage_sample

/-- What `prepare` returns where neither the image nor its layer is there. -/
def samplePrep : PreparedImport where
  manifestDigest := sampleManifestDigest
  manifest := sampleManifest
  config := storedConfig
  previousState := none
  previousManifestDigest := none
  previousImageid := none
  ostreeLayers := []
  ostreeCommitLayer := { layer := sampleLayer, ostreeRef := sampleLayerRef, commit := none }
  layers := []

/-- The merge commit of the image. -/
def sampleMerge : Commit :=
  { metadata := mergeMetadata samplePrep ∅, contents := sampleTreeSum, dirmeta := sampleMetaSum }

/-- The tables have no commit with a manifest. -/
theorem commitChecksum_of_manifest {commit : Commit} {v : Value}
    (h : commit.metadata[metaManifest]? = some v) :
    sampleTables.lib.commitChecksum commit = emptySha256 := by
  have hne : ∀ other : Commit, other.metadata[metaManifest]? = none → other ≠ commit := by
    rintro other hnone rfl
    exact absurd (h.symm.trans hnone) (by simp)
  have hbytes : sampleTables.lib.commit.toBytes commit = [] := by
    show tableGet sampleTables.commits [] commit = []
    rw [sampleTables]
    rw [tableGet_of_ne (hne _ (ExtTreeMap.lookup_empty _)),
      tableGet_of_ne (hne _ (ExtTreeMap.lookup_empty _)),
      tableGet_of_ne (hne _ (by decide +kernel)), tableGet_of_ne (hne _ (by decide +kernel))]
    rfl
  rw [Libostree.commitChecksum, hbytes]
  decide +kernel

theorem commitChecksum_sampleMerge : sampleTables.lib.commitChecksum sampleMerge = emptySha256 :=
  commitChecksum_of_manifest (lookup_mergeMetadata samplePrep ∅).2.1

/-- The archive is imported into any repository. -/
theorem sampleBlob_imported (r : Repo) : ∃ w : Importer,
    importCommit sampleTables.lib sampleBlob (.newForCommit none r) = .ok ⟨⟩ w ∧
    w.data = .commit (some sampleCommitSum) ∧ w.repo.refs = r.refs ∧
    w.repo.commits = r.commits.insertIfNew sampleCommitSum sampleCommit ∧
    w.repo.commitmetas = r.commitmetas := by
  have hrelink : RelinkableWalk sampleTar sampleRepo.toObjects ∅
      (visits sampleRepo.toObjects false 2 tarPathPrefixV0 sampleCommit.contents true) :=
    (relinkable_iff_symlinksOnce (fun ty x hx => (sampleCommit_stored.intact ty x hx).has) 2).mpr
      (.inr sampleCommit_symlinksOnce)
  obtain ⟨es, hexport, himport⟩ := exportCommit_imported (if_pos isSha256_sampleCommitSum)
    sampleCommit_stored sampleTar_keepsLinks depthLt_sampleTree hrelink
  have hcm : sampleRepo.commitmetas[sampleCommitSum]? = none := ExtTreeMap.lookup_empty _
  have hblob : sampleBlob = es.map .ok := by
    rw [sampleBlob, hexport]
    rfl
  obtain ⟨w, hrun, hdata, hrefs, hcommits, hmetas⟩ := himport r
  rw [hcm] at hmetas
  refine ⟨w, ?_, hdata, hrefs, hcommits, hmetas⟩
  rw [hblob]
  exact hrun

-- what is in the archive does not matter any more
attribute [irreducible] sampleBlob

/-- The transaction of the commit layer. -/
theorem sampleLayer_imported (r : Repo) : ∃ r₁,
    importCommitLayer sampleTables.lib none true sampleLayerRef sampleBlob r
      = .ok sampleCommitSum r₁ ∧ r₁.refs = r.refs.insert sampleLayerRef sampleCommitSum ∧
    r₁.commits = r.commits.insertIfNew sampleCommitSum sampleCommit ∧
    r₁.commitmetas = r.commitmetas := by
  obtain ⟨w, himport, hdata, hrefs, hcommits, hmetas⟩ := sampleBlob_imported r
  have hfinish : finishImportCommit w = .ok sampleCommitSum w := by
    rw [finishImportCommit, bind_of_ok (get_run w), hdata]
    rfl
  have hbody : withImporter (Importer.newForCommit none) (do
      importCommit sampleTables.lib sampleBlob
      finishImportCommit) r = .ok sampleCommitSum w.repo := by
    rw [withImporter, bind_of_ok himport, hfinish]
  let r₁ : Repo := { w.repo with refs := w.repo.refs.insert sampleLayerRef sampleCommitSum }
  refine ⟨finalState (Repo.markCommitPartial sampleCommitSum false r₁), ?_, ?_, hcommits, hmetas⟩
  · rw [importCommitLayer]
    refine autoTransaction_ok ?_
    rw [bind_of_ok hbody]
    rfl
  · show w.repo.refs.insert sampleLayerRef sampleCommitSum = _
    rw [hrefs]

variable (no : Bool)

theorem fetchLayer_sample : fetchLayer (sampleImporter no).proxy sampleManifest sampleLayer none
    .registry = .ok ([], .ok (), .imageLayerGzip) := by
  have hindex : sampleManifest.layers.findIdx? (· = sampleLayer) = some 0 := by
    rw [sampleManifest, List.findIdx?_cons, if_pos (by simp)]
  rw [fetchLayer, hindex]
  rfl

/-- What the last transaction is given. -/
def sampleInput : MergeInput where
  ostreeRef := sampleImageRef
  metadata := mergeMetadata samplePrep ∅
  timestamp := 0
  baseCommit := sampleCommitSum
  layerCommits := []
  haveDerivedLayers := false

section SingleLayer

variable {r r₁ : Repo} {layer : ManifestLayerState} {blob : Bytes} {mediaType : MediaType}
  {compression : Compression} {commit : Checksum} {base : Commit} {transient : Bool} {ref : String}

/-- A chunk layer that is fetched. -/
theorem fetchChunkLayer_run {manifest : ImageManifest} {chunk : Option Checksum}
    (hprogress : imp.layerProgress = none) (hnew : layer.commit = none)
    (hfetch : fetchLayer imp.proxy manifest layer.layer none imp.imgref.imgref.transport
      = .ok (blob, .ok (), mediaType))
    (hcompression : decompressor mediaType = .ok compression)
    (himport : importChunkLayer lib true layer.ostreeRef (host.objects compression blob) r
      = .ok chunk r₁) :
    imp.fetchChunkLayer host lib manifest none true layer r = .ok { layer with commit := chunk } r₁ := by
  have hsend : ∀ p, imp.sendProgress p = .ok () := by
    intro p
    rw [ImageImporter.sendProgress, hprogress]
  have hworker : joinFetch (do
      let compression ← liftR (decompressor mediaType)
      importChunkLayer lib true layer.ostreeRef (host.objects compression blob)) (.ok ()) r
        = .ok chunk r₁ := by
    rw [joinFetch, hcompression, bind_assoc, bind_of_ok (liftR_ok _ _), bind_of_ok himport]
    rfl
  rw [ImageImporter.fetchChunkLayer, if_neg (by rw [hnew]; simp), hsend,
    bind_of_ok (liftR_ok _ _), hfetch, bind_of_ok (liftR_ok _ _)]
  dsimp only
  rw [bind_of_ok hworker, hsend, bind_of_ok (liftR_ok _ _)]
  rfl

/-- A commit layer that is fetched. -/
theorem fetchCommitLayer_run {manifest : ImageManifest} {remote : Option String} {writeRefs : Bool}
    (hprogress : imp.layerProgress = none) (hnew : layer.commit = none)
    (hfetch : fetchLayer imp.proxy manifest layer.layer none imp.imgref.imgref.transport
      = .ok (blob, .ok (), mediaType))
    (hcompression : decompressor mediaType = .ok compression)
    (himport : importCommitLayer lib remote writeRefs layer.ostreeRef (host.objects compression blob)
      r = .ok commit r₁) :
    imp.fetchCommitLayer host lib manifest none remote writeRefs layer r
      = .ok { layer with commit := some commit } r₁ := by
  have hsend : ∀ p, imp.sendProgress p = .ok () := by
    intro p
    rw [ImageImporter.sendProgress, hprogress]
  have hworker : joinFetch (do
      let compression ← liftR (decompressor mediaType)
      importCommitLayer lib remote writeRefs layer.ostreeRef (host.objects compression blob))
      (.ok ()) r = .ok commit r₁ := by
    rw [joinFetch, hcompression, bind_assoc, bind_of_ok (liftR_ok _ _), bind_of_ok himport]
    rfl
  rw [ImageImporter.fetchCommitLayer, if_neg (by rw [hnew]; simp), hsend,
    bind_of_ok (liftR_ok _ _), hfetch, bind_of_ok (liftR_ok _ _)]
  dsimp only
  rw [bind_of_ok hworker, hsend, bind_of_ok (liftR_ok _ _)]
  rfl

/-- An image of a single layer, up to the last transaction. -/
theorem fetchLayers_run (hchunks : prep.ostreeLayers = []) (hlayers : prep.layers = [])
    (hallowed : imp.checkSigverify host false = .ok ())
    (hinfo : ∀ b, imp.proxy.getLayerInfo b = .ok none)
    (hcommit : imp.fetchCommitLayer host lib prep.manifest none (remoteOf imp.imgref.sigverify) true
      prep.ostreeCommitLayer r = .ok { layer with commit := some commit } r₁)
    (hload : r₁.loadCommit commit = .ok base)
    (htransient : host.overlayfsRootEnabled r₁.toObjects base = .ok transient)
    (href : refForImage (imp.targetImgref.getD imp.imgref).imgref = .ok ref)
    (hclose : imp.proxy.closeImage = .ok ()) (hfinalize : imp.proxy.finalize = .ok ()) :
    imp.fetchLayers host lib prep r = .ok {
      ostreeRef := ref
      metadata := mergeMetadata prep ∅
      timestamp := (timestampOfManifestOrConfig host prep.manifest prep.config).getD
        (host.clock r₁.trace)
      baseCommit := commit, layerCommits := [], haveDerivedLayers := false } r₁ := by
  have hbase : imp.unencapsulateBase host lib prep true r
      = .ok { prep with ostreeCommitLayer := { layer with commit := some commit } } r₁ := by
    rw [ImageImporter.unencapsulateBase, hallowed, bind_of_ok (liftR_ok _ _), hinfo,
      bind_of_ok (liftR_ok _ _), hchunks]
    refine (bind_of_ok (pure_run _ _)).trans ?_
    rw [bind_of_ok hcommit]
    show EStateM.Result.ok { prep with ostreeLayers := [], ostreeCommitLayer :=
      { layer with commit := some commit } } r₁ = _
    rw [← hchunks]
  rw [ImageImporter.fetchLayers, bind_of_ok hbase, hinfo, bind_of_ok (liftR_ok _ _)]
  refine (bind_of_ok (liftR_ok _ _)).trans ?_
  rw [bind_of_ok (get_run r₁), hload, bind_of_ok (liftR_ok _ _), bind_of_ok (get_run r₁),
    htransient, bind_of_ok (liftR_ok _ _), href, bind_of_ok (liftR_ok _ _)]
  dsimp only
  rw [hlayers]
  refine (bind_of_ok (pure_run _ _)).trans ?_
  dsimp only
  rw [hclose, bind_of_ok (liftR_ok _ _), hfinalize, bind_of_ok (liftR_ok _ _),
    bind_of_ok (get_run r₁)]
  rfl

end SingleLayer

theorem sample_fetchLayers {r : Repo} (hnone : r.commits[sampleCommitSum]? = none) : ∃ r₁,
    (sampleImporter no).fetchLayers sampleHost sampleTables.lib samplePrep r
      = .ok sampleInput r₁ ∧ r₁.refs = r.refs.insert sampleLayerRef sampleCommitSum ∧
    r₁.commits = r.commits.insertIfNew sampleCommitSum sampleCommit ∧
    r₁.commitmetas = r.commitmetas := by
  obtain ⟨r₁, himport, hrefs, hcommits, hmetas⟩ := sampleLayer_imported r
  have hload : r₁.loadCommit sampleCommitSum = .ok sampleCommit := by
    rw [Repo.loadCommit, hcommits, ExtTreeMap.lookup_insertIfNew, hnone, if_pos rfl]
    rfl
  refine ⟨r₁, ?_, hrefs, hcommits, hmetas⟩
  exact fetchLayers_run rfl rfl rfl (fun _ => rfl)
    (fetchCommitLayer_run rfl rfl (fetchLayer_sample no) rfl himport) hload rfl refForImage_sample rfl rfl

/-- The image is imported into any repository without the commit, if it is not published. -/
theorem sample_importMerged {r : Repo} (hnone : r.commits[sampleCommitSum]? = none) : ∃ r₁,
    (sampleImporter no).importMerged sampleHost sampleTables.lib samplePrep r
      = .ok emptySha256 r₁ ∧
    r₁.refs = (if no then r.refs.insert sampleLayerRef sampleCommitSum
      else (r.refs.insert sampleLayerRef sampleCommitSum).insert sampleImageRef emptySha256) ∧
    r₁.commits = (r.commits.insertIfNew sampleCommitSum sampleCommit).insertIfNew emptySha256
      sampleMerge ∧
    r₁.commitmetas = r.commitmetas := by
  obtain ⟨s, hfetch, hrefs, hcommits, hmetas⟩ := sample_fetchLayers no hnone
  have hload : s.loadCommit sampleInput.baseCommit = .ok sampleCommit := by
    show s.loadCommit sampleCommitSum = .ok sampleCommit
    rw [Repo.loadCommit, hcommits, ExtTreeMap.lookup_insertIfNew, hnone, if_pos rfl]
    rfl
  have htrees : sampleHost.mergeTrees s.toObjects (rootOf sampleCommit)
      (([] : List Commit).map rootOf) sampleInput.haveDerivedLayers
        = .ok (rootOf sampleCommit, s.toObjects) := rfl
  have hmerge := @mergeLayers_run sampleHost sampleTables.lib (sampleImporter no)
    sampleInput s sampleCommit [] (rootOf sampleCommit) s.toObjects hload rfl htrees
  have hcommit : mergeCommit sampleInput (rootOf sampleCommit) = sampleMerge := rfl
  rw [hcommit, commitChecksum_sampleMerge] at hmerge
  refine ⟨(sampleImporter no).mergedRepo sampleTables.lib sampleInput (rootOf sampleCommit)
    s.toObjects s, ?_, ?_, ?_, hmetas⟩
  · rw [ImageImporter.importMerged, bind_of_ok hfetch, hmerge]
  · rw [ImageImporter.mergedRepo, hcommit, commitChecksum_sampleMerge]
    show (if no then s.refs else s.refs.insert sampleImageRef emptySha256) = _
    rw [hrefs]
  · rw [ImageImporter.mergedRepo, hcommit, commitChecksum_sampleMerge]
    show s.commits.insertIfNew emptySha256 sampleMerge = _
    rw [hcommits]

/-- `prepare` finds neither the image nor its layer. -/
theorem prepare_sampleProxy {r : Repo}
    (hproxy : imp.proxy = sampleProxy sampleManifestDigest sampleManifest)
    (himgref : imp.imgref.imgref = sampleImage) (hrequire : imp.requireBootable = false)
    (hallowed : imp.checkSigverify host false = .ok ())
    (himage : r.refs[sampleImageRef]? = none) (hlayer : r.refs[sampleLayerRef]? = none) :
    imp.prepare host r = .ok (.ready samplePrep) r := by
  have hquery : tryQueryImage r imp.imgref.imgref = .ok none := by
    have href : refForImage sampleImage = .ok sampleImageRef := refForImage_sample
    rw [himgref, tryQueryImage, href, bind_ok_eq, resolveRev_of_escape escape_sampleImageRef]
    rw [himage]
  have hcreate : imp.createPreparedImport host r sampleManifestDigest sampleManifest storedConfig
      none none = .ok samplePrep := by
    have hcommit : queryLayer r sampleLayer = .ok samplePrep.ostreeCommitLayer := by
      have href : refForLayer sampleLayer = .ok sampleLayerRef := refForLayer_sample
      rw [queryLayer, href, bind_ok_eq, resolveRev_of_escape escape_sampleLayerRef, hlayer]
      rfl
    rw [ImageImporter.createPreparedImport, if_neg (by simp [hrequire])]
    rw [bind_ok_eq, parseManifestLayout_stored, bind_ok_eq]
    dsimp only
    rw [hcommit, bind_ok_eq]
    rfl
  refine prepare_of_absent hallowed ?_ hquery ?_ hcreate
  · rw [hproxy]
    rfl
  · rw [hproxy]
    rfl

theorem sample_prepare {r : Repo} (himage : r.refs[sampleImageRef]? = none)
    (hlayer : r.refs[sampleLayerRef]? = none) :
    (sampleImporter no).prepare sampleHost r = .ok (.ready samplePrep) r :=
  prepare_sampleProxy rfl rfl rfl rfl himage hlayer

section Single

variable {r : Repo} {c : Checksum}

/-- With the ref of the layer alone, there is none of an image or of a deployment. -/
theorem single_not_under
    (hrefs : r.refs = (∅ : ExtTreeMap String Checksum).insert sampleLayerRef c) {pfx ref : String}
    {c' : Checksum} (hpfx : pfx ∈ imagePrefix :: deploymentPrefixes)
    (hc : r.refs[ref]? = some c') : Repo.refUnder pfx ref = false := by
  have hlayer : Repo.refUnder layerPrefix sampleLayerRef = true :=
    refUnder_of_escape escape_sampleLayerRef
  have honly : ref = sampleLayerRef := by
    rw [hrefs, ExtTreeMap.lookup_insert] at hc
    by_contra hne
    rw [if_neg (Ne.symm hne), ExtTreeMap.lookup_empty] at hc
    exact absurd hc (by simp)
  cases hunder : Repo.refUnder pfx ref with
  | false => rfl
  | true => exact absurd (hlayer.symm.trans (honly ▸ refUnder_disjoint hpfx hunder)) (by simp)

/-- Nothing refers to a layer that is all there is. -/
theorem not_referenced_of_single
    (hrefs : r.refs = (∅ : ExtTreeMap String Checksum).insert sampleLayerRef c) (d : Digest) :
    ¬ Referenced r d := by
  rintro ⟨m, ⟨ref, c', hc, hunder, -⟩ | ⟨pfx, hpfx, ref, c', -, hc, hunder, -⟩, -⟩
  · exact absurd (hunder.symm.trans (single_not_under hrefs (List.mem_cons_self ..) hc)) (by simp)
  · exact absurd (hunder.symm.trans (single_not_under hrefs (List.mem_cons_of_mem _ hpfx) hc))
      (by simp)

end Single

/-- **Without a final image ref** the layer is fetched, and collected at once; the query then
    fails. -/
theorem sample_noImgref_collected : ∃ r₁,
    (sampleImporter true).prepare sampleHost {} = .ok (.ready samplePrep) {} ∧
    (sampleImporter true).importMerged sampleHost sampleTables.lib samplePrep {}
      = .ok emptySha256 r₁ ∧
    LayersStored samplePrep.manifest.layers r₁ ∧
    ¬ ∃ state r', (sampleImporter true).importImage sampleHost sampleTables.lib samplePrep {}
      = .ok state r' ∧ LayersStored samplePrep.manifest.layers r' := by
  have hempty : ∀ ref : String, ({} : Repo).refs[ref]? = none := fun _ => ExtTreeMap.lookup_empty _
  have hprepare := sample_prepare true (hempty sampleImageRef) (hempty sampleLayerRef)
  have hnone : ({} : Repo).commits[sampleCommitSum]? = none := ExtTreeMap.lookup_empty _
  obtain ⟨r₁, hmerged, hrefs, -, -⟩ := sample_importMerged true hnone
  rw [if_pos rfl] at hrefs
  have hstored := importMerged_layers hprepare hmerged
  refine ⟨r₁, hprepare, hmerged, hstored, ?_⟩
  rw [ImageImporter.importImage, bind_of_ok hmerged, finishImport_layers_iff hstored]
  rintro ⟨state, -, hgc | ⟨-, live, hlive, hspared⟩⟩
  · exact absurd hgc (by simp [sampleImporter])
  · have hnamed : ImagesNamed r₁ := by
      intro ref hin hunder
      obtain ⟨c, hc⟩ := ExtTreeMap.mem_iff_lookup.mp hin
      exact absurd (hunder.symm.trans (single_not_under hrefs (List.mem_cons_self ..) hc)) (by simp)
    obtain ⟨_, _, _, d, -, -, hin, -⟩ := hspared sampleLayer
      (List.mem_append_left _ (List.mem_cons_self ..)) _ refForLayer_sample
    exact not_referenced_of_single hrefs d ((mem_referencedLayers hnamed hlive d).mp hin)

/-- The image and its layer are stored, and no other ref is there. -/
structure SampleStored (r : Repo) : Prop where
  refs : r.refs = ((∅ : ExtTreeMap String Checksum).insert sampleLayerRef sampleCommitSum).insert
    sampleImageRef emptySha256
  commits : r.commits = ((∅ : ExtTreeMap Checksum Commit).insertIfNew sampleCommitSum
    sampleCommit).insertIfNew emptySha256 sampleMerge

/-- What a query says about the image. -/
def sampleState (cachedUpdate : Option CachedImageUpdate) : LayeredImageState where
  baseCommit := sampleCommitSum
  mergeCommit := emptySha256
  manifestDigest := sampleManifestDigest
  manifest := sampleManifest
  configuration := storedConfig
  cachedUpdate

section SampleStored

variable {r : Repo}

theorem SampleStored.lookup (h : SampleStored r) {ref : String} {c : Checksum} :
    r.refs[ref]? = some c ↔ ref = sampleImageRef ∧ c = emptySha256 ∨
      ref = sampleLayerRef ∧ c = sampleCommitSum := by
  have hne : sampleImageRef ≠ sampleLayerRef := by decide +kernel
  rw [h.refs, ExtTreeMap.lookup_insert, ExtTreeMap.lookup_insert, ExtTreeMap.lookup_empty]
  by_cases himage : sampleImageRef = ref
  · subst himage
    simp [hne, eq_comm]
  · by_cases hlayer : sampleLayerRef = ref
    · subst hlayer
      simp [hne, eq_comm]
    · simp [himage, hlayer, Ne.symm himage, Ne.symm hlayer]

theorem SampleStored.mergeCommit (h : SampleStored r) :
    r.loadCommit emptySha256 = .ok sampleMerge := by
  rw [Repo.loadCommit, h.commits, ExtTreeMap.lookup_insertIfNew, ExtTreeMap.lookup_insertIfNew,
    ExtTreeMap.lookup_empty, if_pos rfl, if_neg (by decide)]
  rfl

theorem sampleMerge_data : manifestDataFromCommitmeta sampleMerge.metadata
    = .ok (sampleManifest, sampleManifestDigest) := manifestData_mergeMetadata samplePrep ∅

theorem sampleMerge_config : imageConfigFromCommitmeta sampleMerge.metadata = .ok storedConfig :=
  imageConfig_mergeMetadata samplePrep ∅

theorem SampleStored.manifest (h : SampleStored r) :
    manifestOfCommit r emptySha256 = .ok sampleManifest := by
  rw [manifestOfCommit, h.mergeCommit, bind_ok_eq, sampleMerge_data]
  rfl

theorem SampleStored.query (h : SampleStored r) {update : Option CachedImageUpdate}
    (hupdate : cachedUpdateOf r emptySha256 = .ok update) :
    queryImageCommit r emptySha256 = .ok (sampleState update) := by
  refine queryImageCommit_iff.mpr ⟨sampleMerge, sampleLayer, sampleLayerRef, rfl, h.mergeCommit,
    sampleMerge_data, sampleMerge_config, rfl, refForLayer_sample, ?_, hupdate⟩
  exact h.lookup.mpr (.inr ⟨rfl, rfl⟩)

theorem SampleStored.gcReady (h : SampleStored r) : GcReady r := by
  have hlayer : Repo.refUnder layerPrefix sampleLayerRef = true :=
    refUnder_of_escape escape_sampleLayerRef
  have himage : Repo.refUnder imagePrefix sampleImageRef = true :=
    refUnder_of_escape escape_sampleImageRef
  constructor
  · intro ref hin hunder
    obtain ⟨c, hc⟩ := ExtTreeMap.mem_iff_lookup.mp hin
    rcases h.lookup.mp hc with ⟨rfl, -⟩ | ⟨rfl, -⟩
    · exact absurd (hunder.symm.trans (refUnder_disjoint (List.mem_cons_self ..) himage)) (by simp)
    · exact ⟨sampleLayer.digest, escape_sampleLayerRef⟩
  · intro ref hin hunder
    obtain ⟨c, hc⟩ := ExtTreeMap.mem_iff_lookup.mp hin
    rcases h.lookup.mp hc with ⟨rfl, -⟩ | ⟨rfl, -⟩
    · exact ⟨sampleImage, by decide, refForImage_sample⟩
    · exact absurd (hlayer.symm.trans (refUnder_disjoint (List.mem_cons_self ..) hunder)) (by simp)
  · intro ref c hc hunder
    rcases h.lookup.mp hc with ⟨-, rfl⟩ | ⟨rfl, -⟩
    · exact ⟨_, h.manifest⟩
    · exact absurd (hlayer.symm.trans (refUnder_disjoint (List.mem_cons_self ..) hunder)) (by simp)
  · intro c commit hc hmeta
    rw [h.commits, ExtTreeMap.lookup_insertIfNew, ExtTreeMap.lookup_insertIfNew,
      ExtTreeMap.lookup_empty] at hc
    by_cases hmerge : emptySha256 = c
    · subst hmerge
      exact ⟨_, h.manifest⟩
    · by_cases hbase : sampleCommitSum = c
      · simp only [hmerge, hbase, if_false, if_true, Option.none_or, Option.or_none] at hc
        obtain rfl := Option.some.inj hc
        exact absurd hmeta (by decide)
      · simp [hmerge, hbase] at hc
  · intro pfx hpfx ref c hc hunder
    rcases h.lookup.mp hc with ⟨rfl, -⟩ | ⟨rfl, -⟩
    · have hall : ∀ p ∈ deploymentPrefixes, Repo.refUnder p sampleImageRef = false := by
        decide +kernel
      exact absurd (hunder.symm.trans (hall pfx hpfx)) (by simp)
    · exact absurd (hlayer.symm.trans (refUnder_disjoint (List.mem_cons_of_mem _ hpfx) hunder))
        (by simp)

/-- The image refers to its layer, so there is nothing to collect. -/
theorem SampleStored.collected (h : SampleStored r) (hash : HashOrder) :
    gcImageLayers hash r = .ok 0 r := by
  refine gcImageLayers_nothing h.gcReady hash (fun ref hin hunder => ?_)
  obtain ⟨c, hc⟩ := ExtTreeMap.mem_iff_lookup.mp hin
  rcases h.lookup.mp hc with ⟨rfl, -⟩ | ⟨rfl, -⟩
  · exact absurd (hunder.symm.trans (refUnder_disjoint (List.mem_cons_self ..)
      (refUnder_of_escape escape_sampleImageRef))) (by simp)
  · refine ⟨sampleLayer.digest, escape_sampleLayerRef, sampleManifest, .inl ⟨sampleImageRef,
      emptySha256, h.lookup.mpr (.inl ⟨rfl, rfl⟩), refUnder_of_escape escape_sampleImageRef,
      h.manifest⟩, sampleLayer, List.mem_cons_self .., rfl⟩

end SampleStored

/-- The image is imported into an empty repository. -/
theorem sample_imported : ∃ r₁,
    (sampleImporter false).prepare sampleHost {} = .ok (.ready samplePrep) {} ∧
    (sampleImporter false).importMerged sampleHost sampleTables.lib samplePrep {}
      = .ok emptySha256 r₁ ∧
    (sampleImporter false).importImage sampleHost sampleTables.lib samplePrep {}
      = .ok (sampleState none) r₁ ∧ SampleStored r₁ ∧ r₁.commitmetas = ∅ := by
  have hempty : ∀ ref : String, ({} : Repo).refs[ref]? = none := fun _ => ExtTreeMap.lookup_empty _
  have hnone : ({} : Repo).commits[sampleCommitSum]? = none := ExtTreeMap.lookup_empty _
  have hprepare := sample_prepare false (hempty sampleImageRef) (hempty sampleLayerRef)
  obtain ⟨r₁, hmerged, hrefs, hcommits, hmetas⟩ := sample_importMerged false hnone
  rw [if_neg (by simp)] at hrefs
  have hstored : SampleStored r₁ := ⟨hrefs, hcommits⟩
  refine ⟨r₁, hprepare, hmerged, ?_, hstored, hmetas⟩
  have hupdate : cachedUpdateOf r₁ emptySha256 = .ok none := by
    have hcm : r₁.commitmetas[emptySha256]? = none := by
      rw [hmetas]
      exact ExtTreeMap.lookup_empty _
    rw [cachedUpdateOf, hcm]
  rw [ImageImporter.importImage, bind_of_ok hmerged, ImageImporter.finishImport]
  show (do
    let _ ← gcImageLayers sampleHost.hash
    liftR (queryImageCommit (← get) emptySha256) : RepoM LayeredImageState) r₁ = _
  rw [bind_of_ok (hstored.collected _), bind_of_ok (get_run r₁), hstored.query hupdate]
  rfl

/-- With a final image ref the layer stays. -/
theorem sample_layers_kept : ∃ state r',
    (sampleImporter false).importImage sampleHost sampleTables.lib samplePrep {} = .ok state r' ∧
    LayersStored samplePrep.manifest.layers r' := by
  obtain ⟨r₁, hprepare, hmerged, -, hstored, hmetas⟩ := sample_imported
  have hcm : r₁.commitmetas[emptySha256]? = none := by
    rw [hmetas]
    exact ExtTreeMap.lookup_empty _
  have hupdate : cachedUpdateOf r₁ emptySha256 = .ok none := by
    rw [cachedUpdateOf, hcm]
  exact ((importImage_keeps_layers hprepare hmerged).2 hstored.gcReady
    ⟨_, hstored.query hupdate, rfl⟩).mpr (.inr (.inl rfl))

/-- An image ref that points to a commit without a manifest. -/
def otherImage : ImageReference := { transport := .registry, name := "quay.io/other" }

def otherImageRef : String := "ostree/container/image/docker_3A__2F__2F_quay_2E_io/other"

def otherRepo : Repo where
  commits := (∅ : ExtTreeMap Checksum Commit).insert chunkCommitSum chunkCommit
  refs := (∅ : ExtTreeMap String Checksum).insert otherImageRef chunkCommitSum

theorem refForImage_other : refForImage otherImage = .ok otherImageRef := by decide +kernel

/-- It stops the garbage collection. -/
theorem otherImage_stops {r : Repo} (href : r.refs[otherImageRef]? = some chunkCommitSum)
    (hcommit : r.commits[chunkCommitSum]? = some chunkCommit) (hash : HashOrder) :
    ∃ e, gcImageLayers hash r = .error e r := by
  have hnone : ∀ s, referencedLayers hash r ≠ .ok s := by
    intro s hs
    have hescape : prefixEscapeForRef imagePrefix otherImage.display = .ok otherImageRef :=
      refForImage_other
    obtain ⟨names, hnames, h₁⟩ := result_bind_eq_ok.mp hs
    obtain ⟨deployed, -, h₂⟩ := result_bind_eq_ok.mp h₁
    obtain ⟨manifests, hmanifests, -⟩ := result_bind_eq_ok.mp h₂
    have hname : otherImage.display ∈ names := by
      refine (mem_mapM hnames _).mpr ⟨(otherImageRef, chunkCommitSum), ?_, ?_⟩
      · exact hash.mem_order.mpr (mem_listRefsExt.mpr ⟨href, refUnder_of_escape hescape⟩)
      · exact unprefixUnescapeRef_prefixEscapeForRef hescape
    obtain ⟨m, hm⟩ := exists_of_mapM hmanifests hname
    rw [manifestOfName_display (by decide) refForImage_other href, manifestOfCommit,
      Repo.loadCommit, hcommit, okOr_some, bind_ok_eq] at hm
    obtain ⟨p, hp, -⟩ := result_bind_eq_ok.mp hm
    obtain ⟨v, hv, -⟩ := mem_of_manifestData hp
    exact absurd (hv.symm.trans (ExtTreeMap.lookup_empty _)) (by simp)
  rw [gcImageLayers, bind_of_ok (get_run r)]
  cases hs : referencedLayers hash r with
  | ok s => exact absurd hs (hnone s)
  | error e => exact ⟨e, rfl⟩

/-- There the image is published, and its import fails. -/
theorem otherRepo_import : ∃ e r₁,
    (sampleImporter false).prepare sampleHost otherRepo = .ok (.ready samplePrep) otherRepo ∧
    (sampleImporter false).importImage sampleHost sampleTables.lib samplePrep otherRepo
      = .error e r₁ ∧
    otherRepo.refs[sampleImageRef]? = none ∧ r₁.refs[sampleImageRef]? = some emptySha256 := by
  have hother : ∀ ref : String, ref ≠ otherImageRef → otherRepo.refs[ref]? = none := by
    intro ref hne
    rw [otherRepo, ExtTreeMap.lookup_insert, if_neg (Ne.symm hne), ExtTreeMap.lookup_empty]
  have himage := hother sampleImageRef (by decide +kernel)
  have hprepare := sample_prepare false himage (hother sampleLayerRef (by decide +kernel))
  have hnone : otherRepo.commits[sampleCommitSum]? = none := by
    rw [otherRepo, ExtTreeMap.lookup_insert, if_neg (by decide), ExtTreeMap.lookup_empty]
  obtain ⟨r₁, hmerged, hrefs, hcommits, -⟩ := sample_importMerged false hnone
  rw [if_neg (by simp)] at hrefs
  have hstops : ∃ e, gcImageLayers sampleHost.hash r₁ = .error e r₁ := by
    refine otherImage_stops ?_ ?_ _
    · rw [hrefs, ExtTreeMap.lookup_insert, if_neg (by decide +kernel), ExtTreeMap.lookup_insert,
        if_neg (by decide +kernel), otherRepo, ExtTreeMap.lookup_insert, if_pos rfl]
    · rw [hcommits, ExtTreeMap.lookup_insertIfNew, ExtTreeMap.lookup_insertIfNew, otherRepo,
        ExtTreeMap.lookup_insert, if_pos rfl]
      rfl
  obtain ⟨e, hgc⟩ := hstops
  refine ⟨e, r₁, hprepare, ?_, himage, ?_⟩
  · rw [ImageImporter.importImage, bind_of_ok hmerged, ImageImporter.finishImport]
    show (do
      let _ ← gcImageLayers sampleHost.hash
      liftR (queryImageCommit (← get) emptySha256) : RepoM LayeredImageState) r₁ = _
    rw [bind_of_error hgc]
  · rw [hrefs, ExtTreeMap.lookup_insert, if_pos rfl]

/-- **An import can fail with its image in place**: what the garbage collection reads is a matter
    of other images. -/
theorem failed_import_publishes : ¬ ∀ (host : Host) (lib : Libostree) (imp : ImageImporter)
    (prep : PreparedImport) (r r' : Repo) (e : Stop), prep.IsPrepared →
    imp.importImage host lib prep r = .error e r' →
    ∀ ref, Repo.refUnder imagePrefix ref = true → r'.refs[ref]? = r.refs[ref]? := by
  intro h
  obtain ⟨e, r₁, hprepare, hrun, hnone, hsome⟩ := otherRepo_import
  have hsame := h _ _ _ _ _ _ _ ⟨_, _, _, _, hprepare⟩ hrun sampleImageRef
    (refUnder_of_escape escape_sampleImageRef)
  exact absurd (hsome.symm.trans (hsame.trans hnone)) (by simp)

/-- What is left then is the new image. -/
theorem otherRepo_published : ∃ e c r₁ r₂,
    (sampleImporter false).importMerged sampleHost sampleTables.lib samplePrep otherRepo
      = .ok c r₁ ∧
    (sampleImporter false).importImage sampleHost sampleTables.lib samplePrep otherRepo
      = .error e r₂ ∧
    r₂.refs[sampleImageRef]? = some c ∧ r₂.refs[otherImageRef]? = otherRepo.refs[otherImageRef]? := by
  obtain ⟨e, r₂, hprepare, hrun, hnone, hsome⟩ := otherRepo_import
  have hunder : Repo.refUnder imagePrefix sampleImageRef = true :=
    refUnder_of_escape escape_sampleImageRef
  rcases importImage_error ⟨_, _, _, _, hprepare⟩ hrun with hsame | ⟨-, c, r₁, target, hmerged, -,
    htarget, hpublished, hothers⟩
  · exact absurd (hsome.symm.trans ((hsame _ hunder).trans hnone)) (by simp)
  · have hname : refForImage sampleImage = .ok target := htarget
    obtain rfl : sampleImageRef = target :=
      Except.ok.inj (refForImage_sample.symm.trans hname)
    have hother : prefixEscapeForRef imagePrefix otherImage.display = .ok otherImageRef :=
      refForImage_other
    exact ⟨e, c, r₁, r₂, hmerged, hrun, hpublished,
      hothers otherImageRef (refUnder_of_escape hother) (by decide +kernel)⟩

end OstreeExt.Store
