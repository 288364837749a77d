import OstreeExt.Store.Cache
import OstreeExt.Store.Clients
import OstreeExt.Store.Prune
import OstreeExt.Store.Runs
import OstreeExt.Store.Unencapsulate
import Mathlib.Logic.Function.Basic

/-!
# The catalog of a store

What a store is for: under the name of an image it keeps a manifest, its digest and a
configuration, and the commit with the file system.  `catalog` reads this off a repository, one
image reference at a time, and says nothing of layers, refs and objects.

Each thing that is done to a whole repository keeps it whole and changes its catalog in a way that
can be said in these terms: fetching, collecting garbage and deleting objects do not change it,
an import changes the image that it is for, and a removal takes out one image.
-/

namespace OstreeExt.Store

open OstreeExt Tar Exec Std Refescape

/-- What is kept of an image. -/
structure CatalogEntry where
  mergeCommit : Checksum
  manifestDigest : Digest
  manifest : ImageManifest
  configuration : ImageConfiguration
  deriving DecidableEq

/-- The metadata of a merge commit. -/
def entryOf (c : Checksum) (commit : Commit) : Result CatalogEntry := do
  let (manifest, manifestDigest) ← manifestDataFromCommitmeta commit.metadata
  let configuration ← imageConfigFromCommitmeta commit.metadata
  .ok { mergeCommit := c, manifestDigest, manifest, configuration }

/-- The image whose merge commit it is. -/
def entryAt (r : Repo) (c : Checksum) : Option CatalogEntry :=
  r.commits[c]?.bind fun commit => (entryOf c commit).toOption

/-- The images of a repository by their references. -/
def catalog (r : Repo) (i : ImageReference) : Option CatalogEntry :=
  match refForImage i with
  | .ok ref => r.refs[ref]?.bind (entryAt r)
  | .error _ => none

/-- The part of a state that is in the catalog. -/
def LayeredImageState.entry (s : LayeredImageState) : CatalogEntry where
  mergeCommit := s.mergeCommit
  manifestDigest := s.manifestDigest
  manifest := s.manifest
  configuration := s.configuration

/-- What an import makes of what was prepared. -/
def PreparedImport.entry (prep : PreparedImport) (c : Checksum) : CatalogEntry where
  mergeCommit := c
  manifestDigest := prep.manifestDigest
  manifest := prep.manifest
  configuration := prep.config

-- ── Reading the catalog ───────────────────────────────────────────────────────

section Reading

variable {r r' : Repo} {c : Checksum} {i : ImageReference} {ref : String} {e : CatalogEntry}

theorem entryOf_eq_ok {commit : Commit} : entryOf c commit = .ok e ↔
    manifestDataFromCommitmeta commit.metadata = .ok (e.manifest, e.manifestDigest) ∧
    imageConfigFromCommitmeta commit.metadata = .ok e.configuration ∧ e.mergeCommit = c := by
  constructor
  · intro h
    obtain ⟨⟨manifest, digest⟩, hdata, h₁⟩ := result_bind_eq_ok.mp h
    obtain ⟨config, hconfig, h₂⟩ := result_bind_eq_ok.mp h₁
    cases h₂
    exact ⟨hdata, hconfig, rfl⟩
  · rintro ⟨hdata, hconfig, rfl⟩
    rw [entryOf, hdata, bind_ok_eq]
    dsimp only
    rw [hconfig, bind_ok_eq]

theorem toOption_eq_some {α : Type} {x : Result α} {a : α} : x.toOption = some a ↔ x = .ok a := by
  cases x with
  | ok b => simp [Except.toOption]
  | error e => simp [Except.toOption]

theorem entryAt_eq_some : entryAt r c = some e ↔
    ∃ commit, r.commits[c]? = some commit ∧ entryOf c commit = .ok e := by
  rw [entryAt, Option.bind_eq_some_iff]
  constructor
  · rintro ⟨commit, hcommit, h⟩
    exact ⟨commit, hcommit, toOption_eq_some.mp h⟩
  · rintro ⟨commit, hcommit, h⟩
    exact ⟨commit, hcommit, toOption_eq_some.mpr h⟩

theorem entryAt_mergeCommit (h : entryAt r c = some e) : e.mergeCommit = c := by
  obtain ⟨commit, -, h⟩ := entryAt_eq_some.mp h
  exact (entryOf_eq_ok.mp h).2.2

theorem entryAt_manifest (h : entryAt r c = some e) : manifestOfCommit r c = .ok e.manifest := by
  obtain ⟨commit, hcommit, h⟩ := entryAt_eq_some.mp h
  rw [manifestOfCommit, Repo.loadCommit, hcommit, okOr_some, bind_ok_eq, (entryOf_eq_ok.mp h).1]
  rfl

theorem entryAt_of_commits (h : r'.commits[c]? = r.commits[c]?) : entryAt r' c = entryAt r c := by
  rw [entryAt, entryAt, h]

theorem catalog_of_ref (href : refForImage i = .ok ref) :
    catalog r i = r.refs[ref]?.bind (entryAt r) := by
  rw [catalog, href]

theorem catalog_eq_some : catalog r i = some e ↔
    ∃ ref, refForImage i = .ok ref ∧ r.refs[ref]? = some e.mergeCommit ∧
      entryAt r e.mergeCommit = some e := by
  constructor
  · intro h
    cases href : refForImage i with
    | error err =>
        rw [catalog, href] at h
        cases h
    | ok ref =>
        rw [catalog_of_ref href, Option.bind_eq_some_iff] at h
        obtain ⟨c, hc, he⟩ := h
        obtain rfl := entryAt_mergeCommit he
        exact ⟨ref, rfl, hc, he⟩
  · rintro ⟨ref, href, hc, he⟩
    rw [catalog_of_ref href, hc]
    exact he

/-- What a query returns is in the catalog. -/
theorem queryImageCommit_entry {s : LayeredImageState} (h : queryImageCommit r c = .ok s) :
    entryAt r c = some s.entry := by
  obtain ⟨obj, base, ref, hs⟩ := queryImageCommit_iff.mp h
  exact entryAt_eq_some.mpr
    ⟨obj, okOr_eq_ok.mp hs.stored, entryOf_eq_ok.mpr ⟨hs.data, hs.config, hs.mergeCommit⟩⟩

theorem tryQueryImage_catalog {s : LayeredImageState} (h : tryQueryImage r i = .ok (some s)) :
    catalog r i = some s.entry := by
  obtain ⟨ref, rev, href, hrev, hquery⟩ := tryQueryImage_eq_some.mp h
  rw [resolveRev_of_escape href] at hrev
  rw [catalog_of_ref href, hrev]
  exact queryImageCommit_entry hquery

/-- **The images that can be queried** in a whole repository are those of the catalog, but for
    manifests without layers, and for cached updates that do not parse. -/
theorem Whole.query_iff (h : Whole r) : (∃ s, queryImage r i = .ok (some s)) ↔
    ∃ e, catalog r i = some e ∧ e.manifest.layers ≠ [] ∧
      ∃ update, cachedUpdateOf r e.mergeCommit = .ok update := by
  constructor
  · rintro ⟨s, hquery⟩
    have hquery := queryImage_eq_some.mp hquery
    obtain ⟨ref, rev, href, hrev, hcommit⟩ := tryQueryImage_eq_some.mp hquery
    obtain ⟨obj, base, blob, hs⟩ := queryImageCommit_iff.mp hcommit
    refine ⟨s.entry, tryQueryImage_catalog hquery, ?_, s.cachedUpdate, ?_⟩
    · exact List.ne_nil_of_mem (List.mem_of_mem_head? hs.head)
    · show cachedUpdateOf r s.mergeCommit = _
      rw [hs.mergeCommit]
      exact hs.update
  · rintro ⟨e, hcatalog, hlayers, update, hupdate⟩
    obtain ⟨ref, href, hc, he⟩ := catalog_eq_some.mp hcatalog
    obtain ⟨m, hm, hstored⟩ := h.complete ref _ hc (refUnder_of_escape href)
    obtain rfl : e.manifest = m := Except.ok.inj ((entryAt_manifest he).symm.trans hm)
    obtain ⟨base, hbase⟩ : ∃ base, e.manifest.layers.head? = some base :=
      ⟨_, List.head?_eq_some_head hlayers⟩
    obtain ⟨blob, hblob, hin⟩ := hstored base (List.mem_of_mem_head? hbase)
    obtain ⟨baseCommit, hcommit⟩ := ExtTreeMap.mem_iff_lookup.mp hin
    obtain ⟨commit, hmerge, he⟩ := entryAt_eq_some.mp he
    obtain ⟨hdata, hconfig, -⟩ := entryOf_eq_ok.mp he
    refine ⟨{ baseCommit, mergeCommit := e.mergeCommit, manifestDigest := e.manifestDigest
              manifest := e.manifest, configuration := e.configuration, cachedUpdate := update }, ?_⟩
    refine queryImage_eq_some.mpr (tryQueryImage_eq_some.mpr ⟨ref, e.mergeCommit, href, ?_, ?_⟩)
    · rw [resolveRev_of_escape href]
      exact hc
    · exact queryImageCommit_iff.mpr ⟨commit, base, blob, rfl, okOr_eq_ok.mpr hmerge, hdata, hconfig,
        hbase, hblob, hcommit, hupdate⟩

end Reading

-- ── What changes the catalog ──────────────────────────────────────────────────

section Changes

variable {r r' : Repo} {c : Checksum} {i : ImageReference} {ref : String}

/-- The commits of images are there. -/
theorem Whole.image_commit (h : Whole r) (href : refForImage i = .ok ref)
    (hc : r.refs[ref]? = some c) : ∃ commit, r.commits[c]? = some commit := by
  obtain ⟨m, hm, -⟩ := h.complete ref c hc (refUnder_of_escape href)
  obtain ⟨commit, hload, -⟩ := result_bind_eq_ok.mp hm
  exact ⟨commit, okOr_eq_ok.mp hload⟩

/-- Without a ref there is no image. -/
theorem catalog_ext {k : ImageReference → Option CatalogEntry}
    (href : ∀ i ref, refForImage i = .ok ref → catalog r' i = k i)
    (hnone : ∀ i e, refForImage i = .error e → k i = none) : catalog r' = k := by
  funext i
  cases hi : refForImage i with
  | ok ref => exact href i ref hi
  | error e =>
      rw [hnone i e hi, catalog, hi]

theorem catalog_none {e : Stop} (h : refForImage i = .error e) : catalog r i = none := by
  rw [catalog, h]

/-- One image is a matter of its ref, and of the commit that this names. -/
theorem catalog_congr (href : refForImage i = .ok ref) (hrefs : r'.refs[ref]? = r.refs[ref]?)
    (hcommit : ∀ c, r.refs[ref]? = some c → r'.commits[c]? = r.commits[c]?) :
    catalog r' i = catalog r i := by
  rw [catalog_of_ref href, catalog_of_ref href, hrefs]
  cases hc : r.refs[ref]? with
  | none => rfl
  | some c => exact entryAt_of_commits (hcommit c hc)

/-- Where no object goes away, the commits of images stay as they are. -/
theorem Whole.commit_kept (h : Whole r) (hkeeps : r.toObjects.Keeps r'.toObjects)
    (href : refForImage i = .ok ref) (hc : r.refs[ref]? = some c) :
    r'.commits[c]? = r.commits[c]? := by
  obtain ⟨commit, hcommit⟩ := h.image_commit href hc
  rw [hcommit]
  exact hkeeps.commits c commit hcommit

/-- **More objects**, and the same refs of images. -/
theorem Whole.catalog_kept (h : Whole r) (hkeeps : r.toObjects.Keeps r'.toObjects)
    (hrefs : ∀ ref, Repo.refUnder imagePrefix ref = true → r'.refs[ref]? = r.refs[ref]?) :
    catalog r' = catalog r :=
  catalog_ext (fun _ ref href => catalog_congr href (hrefs ref (refUnder_of_escape href))
    (fun _ hc => h.commit_kept hkeeps href hc)) (fun _ _ hnone => catalog_none hnone)

/-- **One image** whose ref is written or removed. -/
theorem Whole.catalog_update (h : Whole r) (hkeeps : r.toObjects.Keeps r'.toObjects)
    (href : refForImage i = .ok ref) (hrefs : ∀ other, Repo.refUnder imagePrefix other = true →
      other ≠ ref → r'.refs[other]? = r.refs[other]?) :
    catalog r' = Function.update (catalog r) i (r'.refs[ref]?.bind (entryAt r')) := by
  refine catalog_ext (fun j other hother => ?_) (fun j e hnone => ?_)
  · by_cases hj : j = i
    · subst hj
      rw [Function.update_self, catalog_of_ref href]
    · have hne : other ≠ ref := fun heq => hj (refForImage_inj (heq ▸ hother) href)
      rw [Function.update_of_ne hj]
      exact catalog_congr hother (hrefs other (refUnder_of_escape hother) hne)
        (fun _ hc => h.commit_kept hkeeps hother hc)
  · have hj : j ≠ i := fun heq => absurd (hnone.symm.trans (heq ▸ href)) (by simp)
    rw [Function.update_of_ne hj]
    exact catalog_none hnone

theorem catalog_same (h : SameButMeta r r') : catalog r' = catalog r := by
  refine catalog_ext (fun _ ref href => catalog_congr href ?_ (fun c _ => ?_))
    (fun _ _ hnone => catalog_none hnone)
  · rw [h.refs]
  · rw [h.objects]

/-- Layers that are fetched. -/
theorem Whole.catalog_fetched (h : Whole r) (hfetch : Fetches IsBlobRef r r') :
    catalog r' = catalog r :=
  h.catalog_kept hfetch.keeps (fun _ hunder => hfetch.lookup (fun hblob => hblob.not_image hunder))

/-- Refs of layers that go away. -/
theorem catalog_unlinked (h : Unlinks r r') : catalog r' = catalog r := by
  refine catalog_ext (fun _ ref href => catalog_congr href ?_ (fun c _ => ?_))
    (fun _ _ hnone => catalog_none hnone)
  · rcases h.refs ref with heq | ⟨hlayer, -⟩
    · exact heq
    · exact absurd (hlayer.symm.trans (not_layer_of_image (refUnder_of_escape href))) (by simp)
  · rw [h.objects]

/-- **An image is removed** from the catalog, and no other one. -/
theorem Whole.catalog_removeImage (h : Whole r) (i : ImageReference) :
    catalog (finalState (Store.removeImage i r)) = Function.update (catalog r) i none := by
  cases href : refForImage i with
  | error e =>
      have hrun : finalState (Store.removeImage i r) = r := by
        rw [Store.removeImage, href]
        rfl
      rw [hrun, Function.update_eq_self_iff.mpr (catalog_none href).symm]
  | ok ref =>
      obtain ⟨hobjects, hrefs⟩ := removeImage_refs i r
      have hgone : (finalState (Store.removeImage i r)).refs[ref]? = none := by
        by_cases hin : ref ∈ r.refs
        · rw [removeImage_run href hin, finalState_ok]
          show (r.refs.erase ref)[ref]? = none
          rw [ExtTreeMap.lookup_erase, if_pos rfl]
        · have hnone : r.refs[ref]? = none := ExtTreeMap.getElem?_eq_none hin
          exact (hrefs ref).elim (fun heq => heq.trans hnone) (fun hgone => hgone.2)
      rw [h.catalog_update (hobjects ▸ Objects.Keeps.refl _) href (fun other _ hne => ?_), hgone]
      · rfl
      · refine (hrefs other).resolve_right (fun hother => hne ?_)
        exact Except.ok.inj (hother.1.symm.trans href)

/-- **Objects without a ref are deleted.** -/
theorem Whole.trimmed (h : Whole r) (ht : Trimmed r r') (hrefs : r'.refs = r.refs) :
    Whole r' ∧ catalog r' = catalog r := by
  constructor
  · constructor
    · intro ref hin
      exact h.blobs ref (hrefs ▸ hin)
    · intro ref hin
      exact h.images ref (hrefs ▸ hin)
    · intro ref c hc hunder
      obtain ⟨m, hm, hstored⟩ := h.complete ref c (hrefs ▸ hc) hunder
      refine ⟨m, (ht.sameManifest hc).trans hm, hstored.mono (fun _ _ _ _ hin => ?_)⟩
      rw [hrefs]
      exact hin
  · refine catalog_ext (fun _ ref href => catalog_congr href (by rw [hrefs]) (fun c hc => ?_))
      (fun _ _ hnone => catalog_none hnone)
    exact ht.kept ref c (by rw [hrefs]; exact hc)

end Changes

-- ── Pruning ───────────────────────────────────────────────────────────────────

/-- Some images are gone that are not in `deployed`. -/
def Sheds (deployed : ImageReference → Prop) (k k' : ImageReference → Option CatalogEntry) : Prop :=
  ∀ i, k' i = k i ∨ k' i = none ∧ ¬ deployed i

section Pruning

variable {r : Repo} {deployed : ImageReference → Prop}

theorem Sheds.refl (k : ImageReference → Option CatalogEntry) : Sheds deployed k k := fun _ => .inl rfl

theorem Sheds.trans {k k' k'' : ImageReference → Option CatalogEntry} (h : Sheds deployed k k')
    (h' : Sheds deployed k' k'') : Sheds deployed k k'' := by
  intro i
  rcases h' i with heq | hgone
  · rcases h i with heq' | ⟨hnone, hnot⟩
    · exact .inl (heq.trans heq')
    · exact .inr ⟨heq.trans hnone, hnot⟩
  · exact .inr hgone

theorem Whole.removeImages {l : List ImageReference} (hl : ∀ i, deployed i → i ∈ l)
    (images removed : List ImageReference) (h : Whole r) :
    Whole (finalState (Store.removeImages l images removed r)) ∧
    Sheds deployed (catalog r) (catalog (finalState (Store.removeImages l images removed r))) := by
  induction images generalizing removed r with
  | nil => exact ⟨h, Sheds.refl _⟩
  | cons image images ih =>
      rw [Store.removeImages]
      by_cases hin : image ∈ l
      · rw [if_pos hin]
        exact ih removed h
      rw [if_neg hin]
      have hwhole := h.removeImage image
      have hcatalog := h.catalog_removeImage image
      have hsheds : Sheds deployed (catalog r) (catalog (finalState (Store.removeImage image r))) := by
        intro i
        rw [hcatalog]
        by_cases hi : i = image
        · subst hi
          exact .inr ⟨Function.update_self .., fun hdeployed => hin (hl i hdeployed)⟩
        · exact .inl (Function.update_of_ne hi ..)
      cases hrun : Store.removeImage image r with
      | error e s =>
          rw [hrun] at hwhole hsheds
          rw [bind_of_error hrun]
          exact ⟨hwhole, hsheds⟩
      | ok found s =>
          rw [hrun] at hwhole hsheds
          rw [bind_of_ok hrun]
          obtain ⟨hend, hrest⟩ := ih (removed ++ [image]) hwhole
          exact ⟨hend, hsheds.trans hrest⟩

/-- The undeployed images are removed, or some of them where that is stopped. -/
theorem Whole.removeUndeployedImages (h : Whole r) (hash : HashOrder)
    (deployments : List Deployment) :
    Whole (finalState (Store.removeUndeployedImages hash deployments r)) ∧
    Sheds (Deployed deployments) (catalog r)
      (catalog (finalState (Store.removeUndeployedImages hash deployments r))) := by
  rw [Store.removeUndeployedImages]
  cases hdeployed : deploymentOrigins deployments with
  | error e => exact ⟨h, Sheds.refl _⟩
  | ok deployed =>
      rw [bind_of_ok (liftR_ok _ _), bind_of_ok (get_run r)]
      cases hnames : listImages hash r with
      | error e => exact ⟨h, Sheds.refl _⟩
      | ok names =>
          rw [bind_of_ok (liftR_ok _ _)]
          refine h.removeImages (fun i hi => ?_) _ _
          obtain ⟨d, hd, o, ho, rfl⟩ := hi
          obtain ⟨os, hos, hlist⟩ := result_bind_eq_ok.mp hdeployed
          cases hlist
          refine List.mem_map.mpr ⟨o, ?_, rfl⟩
          exact List.reduceOption_mem_iff.mpr ((mem_mapM hos _).mpr ⟨d, hd, ho⟩)

theorem Whole.collects (h : Whole r) (hash : HashOrder) :
    Whole (finalState (Store.gcImageLayers hash r)) ∧
    catalog (finalState (Store.gcImageLayers hash r)) = catalog r :=
  ⟨h.gcImageLayers hash, catalog_unlinked (gcImageLayers_unlinks hash r)⟩

/-- **A prune**, done or stopped, removes no image that is deployed. -/
theorem Whole.prune (h : Whole r) (hash : HashOrder) (objects : ObjectPruner)
    (deployments : List Deployment) :
    Whole (finalState (Store.prune hash objects deployments r)) ∧
    Sheds (Deployed deployments) (catalog r)
      (catalog (finalState (Store.prune hash objects deployments r))) := by
  obtain ⟨hwhole, hsheds⟩ := h.removeUndeployedImages hash deployments
  rw [Store.prune]
  cases hremoved : Store.removeUndeployedImages hash deployments r with
  | error e s =>
      rw [hremoved] at hwhole hsheds
      rw [bind_of_error hremoved]
      exact ⟨hwhole, hsheds⟩
  | ok removed s =>
      rw [hremoved] at hwhole hsheds
      rw [bind_of_ok hremoved]
      obtain ⟨hcollected, hcatalog⟩ := hwhole.collects hash
      cases hgc : Store.gcImageLayers hash s with
      | error e t =>
          rw [finalState_ok, hgc] at hcollected hcatalog
          rw [bind_of_error hgc]
          exact ⟨hcollected, hcatalog ▸ hsheds⟩
      | ok n t =>
          rw [finalState_ok, hgc] at hcollected hcatalog
          rw [bind_of_ok hgc, bind_of_ok (objects.run_eq t)]
          obtain ⟨hend, hsame⟩ := hcollected.trimmed (objects.trimmed t) (objects.refs t)
          refine ⟨hend, ?_⟩
          show Sheds _ _ (catalog (objects.pruned t))
          rw [hsame, hcatalog]
          exact hsheds

end Pruning

-- ── Importing ─────────────────────────────────────────────────────────────────

/-- The image that an import is for. -/
def ImageImporter.target (imp : ImageImporter) : ImageReference :=
  (imp.targetImgref.getD imp.imgref).imgref

/-- No other commit is stored under the checksum of the one that the import writes. -/
def ImageImporter.NoCollision (imp : ImageImporter) (host : Host) (lib : Libostree)
    (prep : PreparedImport) (r : Repo) : Prop :=
  ∀ m s c r' root objects b, imp.fetchLayers host lib prep r = .ok m s →
    Merges host lib imp m s c r' root objects → s.commits[c]? = some b → b = mergeCommit m root

/-- What an import does to a catalog: nothing, or what was prepared is there for its image. -/
def ImageImporter.Publishes (imp : ImageImporter) (prep : PreparedImport)
    (k k' : ImageReference → Option CatalogEntry) : Prop :=
  k' = k ∨ imp.noImgref = false ∧ ∃ c, k' = Function.update k imp.target (some (prep.entry c))

section Importing

variable {lib : Libostree} {host : Host} {imp : ImageImporter} {prep : PreparedImport} {r r' : Repo}
  {c : Checksum} {m : MergeInput} {s : Repo} {root : Root} {objects : Objects}

theorem Fetches.mono {S T : String → Prop} (h : Fetches S r r') (hST : ∀ ref, S ref → T ref) :
    Fetches T r r' :=
  ⟨h.keeps, fun ref => (h.refs ref).imp_right (fun hnew => ⟨hST ref hnew.1, hnew.2⟩)⟩

/-- The merge commit holds what was prepared. -/
theorem Merges.entry (h : Merges host lib imp m s c r' root objects)
    (hno : ∀ b, s.commits[c]? = some b → b = mergeCommit m root)
    (hmeta : ∃ filtered, m.metadata = mergeMetadata prep filtered) :
    entryAt r' c = some (prep.entry c) := by
  obtain ⟨filtered, hmeta⟩ := hmeta
  refine entryAt_eq_some.mpr ⟨_, okOr_eq_ok.mp (h.stored hno), entryOf_eq_ok.mpr ⟨?_, ?_, rfl⟩⟩
  · show manifestDataFromCommitmeta m.metadata = _
    rw [hmeta]
    exact manifestData_mergeMetadata prep filtered
  · show imageConfigFromCommitmeta m.metadata = _
    rw [hmeta]
    exact imageConfig_mergeMetadata prep filtered

/-- **The last transaction** writes one image, or none. -/
theorem Whole.catalog_merged (h : Whole s) (hmerges : Merges host lib imp m s c r' root objects)
    (hno : ∀ b, s.commits[c]? = some b → b = mergeCommit m root)
    (hmeta : ∃ filtered, m.metadata = mergeMetadata prep filtered)
    (htarget : refForImage imp.target = .ok m.ostreeRef) :
    catalog r' = if imp.noImgref then catalog s else
      Function.update (catalog s) imp.target (some (prep.entry c)) := by
  have hrefs : r'.refs = if imp.noImgref then s.refs else s.refs.insert m.ostreeRef c := by
    rw [hmerges.repo, hmerges.result]
    rfl
  cases hno' : imp.noImgref with
  | true =>
      rw [hno'] at hrefs
      rw [if_pos rfl]
      exact h.catalog_kept hmerges.keeps (fun ref _ => by rw [hrefs, if_pos rfl])
  | false =>
      rw [hno', if_neg (by simp)] at hrefs
      rw [if_neg (by simp), h.catalog_update hmerges.keeps htarget (fun other _ hne => ?_)]
      · rw [hrefs, ExtTreeMap.lookup_insert, if_pos rfl]
        show Function.update (catalog s) imp.target (entryAt r' c) = _
        rw [hmerges.entry hno hmeta]
      · rw [hrefs, ExtTreeMap.lookup_insert, if_neg (fun heq => hne heq.symm)]

/-- The end of an import collects garbage, if anything. -/
theorem finishImport_final (c : Checksum) (r : Repo) : finalState (imp.finishImport host c r)
    = if imp.disableGc then r else finalState (gcImageLayers host.hash r) := by
  have hquery : ∀ r : Repo, finalState ((do
      liftR (queryImageCommit (← get) c) : RepoM LayeredImageState) r) = r := by
    intro r
    rw [bind_of_ok (get_run r)]
    cases queryImageCommit r c <;> rfl
  rw [ImageImporter.finishImport]
  cases imp.disableGc with
  | true => exact hquery r
  | false =>
      rw [if_neg (by simp), if_neg (by simp)]
      cases hgc : gcImageLayers host.hash r with
      | error e s => rw [bind_of_error hgc, finalState_error, finalState_error]
      | ok n s =>
          rw [bind_of_ok hgc, finalState_ok]
          exact hquery s

/-- The layers of what was prepared are stored when its last transaction begins. -/
theorem ImageImporter.Merged.layers (h : imp.Merged host lib prep r c r' m s root objects)
    (hregular : prep.Regular) (hheld : prep.Held [] r) : LayersStored prep.manifest.layers s := by
  intro l hl
  obtain ⟨layer, hlayer, rfl⟩ := hregular.covers l hl
  refine ⟨layer.ostreeRef, hregular.named layer hlayer, ?_⟩
  rcases h.fetched.stored layer hlayer with hthere | hin
  · exact h.fetches.mem (hheld layer hlayer (.inl hthere))
  · exact hin

theorem PreparedImport.Regular.blobs (h : prep.Regular) (hfetch : Fetches prep.IsLayerRef r r') :
    Fetches IsBlobRef r r' := by
  refine hfetch.mono ?_
  rintro ref ⟨layer, hlayer, rfl⟩
  exact ⟨_, h.named layer hlayer⟩

theorem importMerged_fetched (h : imp.importMerged host lib prep r = .ok c r') :
    ∃ m s root objects, imp.fetchLayers host lib prep r = .ok m s ∧
      imp.Merged host lib prep r c r' m s root objects := by
  obtain ⟨m, s, hfetch, hmerge⟩ := bind_ok h
  have hfetches : Steps (Fetches prep.IsLayerRef) (imp.fetchLayers host lib prep) :=
    (fetches_frame _).fetchLayers (fun _ _ => trivial)
  have hfetches := hfetches r
  rw [hfetch, finalState_ok] at hfetches
  rcases @mergeLayers_cases host lib imp m s with
    ⟨c', r'', root, objects, hrun, hmerges⟩ | ⟨e, r'', hrun, -⟩
  · cases hmerge.symm.trans hrun
    exact ⟨m, s, root, objects, hfetch, fetchLayers_ok hfetch, hfetches, hmerges⟩
  · cases hmerge.symm.trans hrun

/-- Up to the end of its last transaction. -/
theorem Whole.importMerged (h : Whole r) (hregular : prep.Regular) (hheld : prep.Held [] r)
    (hno : imp.NoCollision host lib prep r) :
    Whole (finalState (imp.importMerged host lib prep r)) ∧
    imp.Publishes prep (catalog r) (catalog (finalState (imp.importMerged host lib prep r))) ∧
    ∀ c r', imp.importMerged host lib prep r = .ok c r' → entryAt r' c = some (prep.entry c) ∧
      catalog r' = if imp.noImgref then catalog r else
        Function.update (catalog r) imp.target (some (prep.entry c)) := by
  cases hrun : imp.importMerged host lib prep r with
  | error e s =>
      have hfetch := hregular.blobs (importMerged_error hrun)
      exact ⟨h.of_fetches hfetch, .inl (h.catalog_fetched hfetch), fun _ _ hok => by cases hok⟩
  | ok c r' =>
      obtain ⟨m, s, root, objects, hlayers, hmerged⟩ := importMerged_fetched hrun
      have hfetch := hregular.blobs hmerged.fetches
      have hs := h.of_fetches hfetch
      have hno := fun b => hno m s c r' root objects b hlayers hmerged.merges
      have hcatalog := hs.catalog_merged hmerged.merges hno hmerged.fetched.metadata
        hmerged.fetched.target
      rw [h.catalog_fetched hfetch] at hcatalog
      obtain ⟨filtered, hmeta⟩ := hmerged.fetched.metadata
      refine ⟨hs.merged hmerged.merges hno hmeta hmerged.fetched.target
        (hmerged.layers hregular hheld), ?_, fun _ _ hok => ?_⟩
      · show imp.Publishes prep (catalog r) (catalog r')
        rw [hcatalog]
        cases hflag : imp.noImgref with
        | true => exact .inl (if_pos rfl)
        | false => exact .inr ⟨hflag, c, if_neg (by simp)⟩
      · cases hok
        exact ⟨hmerged.merges.entry hno hmerged.fetched.metadata, hcatalog⟩

/-- **An import**, done or failed, leaves a whole repository, in which nothing has changed but the
    image that it is for; and what it returns is what it has written. -/
theorem Whole.importImage (h : Whole r) (hregular : prep.Regular) (hheld : prep.Held [] r)
    (hno : imp.NoCollision host lib prep r) :
    Whole (finalState (imp.importImage host lib prep r)) ∧
    imp.Publishes prep (catalog r) (catalog (finalState (imp.importImage host lib prep r))) ∧
    ∀ state r', imp.importImage host lib prep r = .ok state r' →
      state.entry = prep.entry state.mergeCommit ∧
      catalog r' = if imp.noImgref then catalog r else
        Function.update (catalog r) imp.target (some state.entry) := by
  obtain ⟨hwhole, hpublishes, hdone⟩ := h.importMerged hregular hheld hno
  cases hrun : imp.importMerged host lib prep r with
  | error e s =>
      rw [hrun] at hwhole hpublishes
      rw [ImageImporter.importImage, bind_of_error hrun]
      exact ⟨hwhole, hpublishes, fun _ _ hok => by cases hok⟩
  | ok c s =>
      rw [hrun] at hwhole hpublishes
      obtain ⟨hentry, hcatalog⟩ := hdone c s hrun
      rw [ImageImporter.importImage, bind_of_ok hrun]
      have hunlinks := @finishImport_unlinks host imp c s
      have hsame := catalog_unlinked hunlinks
      refine ⟨?_, ?_, fun state r' hok => ?_⟩
      · rw [finishImport_final]
        split
        · exact hwhole
        · exact hwhole.gcImageLayers host.hash
      · rw [hsame]
        exact hpublishes
      · rw [hok, finalState_ok] at hsame hunlinks
        have hread := queryImageCommit_entry (finishImport_queried hok)
        have hmerge := entryAt_mergeCommit hread
        have hstate : entryAt r' c = some (prep.entry c) := by
          rw [← hentry]
          exact entryAt_of_commits (by rw [hunlinks.objects])
        have heq : state.entry = prep.entry c := Option.some.inj (hread.symm.trans hstate)
        have hc : state.mergeCommit = c := congrArg CatalogEntry.mergeCommit heq
        rw [hsame, hcatalog, heq, hc]
        exact ⟨rfl, rfl⟩

end Importing

end OstreeExt.Store
