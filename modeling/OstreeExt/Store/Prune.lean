import OstreeExt.Store.Gc

/-!
# Pruning undeployed images

`deploy::prune` removes the images that no deployment has in its origin, then the layers that
are left without an image, then the objects that are left without a ref.  It reads image names
back from refs, compares them with the references in the origins, and removes them by the refs
of what it read; `prune_exact` says that these agree.
-/

namespace OstreeExt.Store

open OstreeExt Refescape Exec Std

-- ── Origins ───────────────────────────────────────────────────────────────────

/-- `glib::KeyFileError`, as far as it is told apart. -/
inductive KeyFileError where
  | groupNotFound
  | keyNotFound
  | other (msg : String)

/-- A key file is read by group and key. -/
structure KeyFile where
  string : String → String → Except KeyFileError String

/-- `map_keyfile_optional` -/
def mapKeyfileOptional {α : Type} (res : Except KeyFileError α) : Result (Option α) :=
  match res with
  | .ok v => .ok (some v)
  | .error .groupNotFound => .ok none
  | .error .keyNotFound => .ok none
  | .error (.other msg) => .error (.err msg)

/-- `optional_string` -/
def KeyFile.optionalString (kf : KeyFile) (group key : String) : Result (Option String) :=
  mapKeyfileOptional (kf.string group key)

/-- `ORIGIN_CONTAINER` -/
def originContainer : String := "container-image-reference"

/-- `ostree::Deployment`, as far as it is read. -/
structure Deployment where
  origin : Option KeyFile

/-- `deployment_origin_container` -/
def deploymentOriginContainer (deploy : Deployment) : Result (Option OstreeImageReference) := do
  let origin ← match deploy.origin with
    | none => .ok none
    | some o => o.optionalString "origin" originContainer
  match origin with
  | none => .ok none
  | some v => (OstreeImageReference.tryFrom v).map some

/-- The image references in the origins of the deployments. -/
def deploymentOrigins (deployments : List Deployment) : Result (List ImageReference) := do
  let origins ← deployments.mapM deploymentOriginContainer
  .ok (origins.reduceOption.map (·.imgref))

-- ── Pruning ───────────────────────────────────────────────────────────────────

/-- `ostree_repo_prune` with `REFS_ONLY` and depth 0: it deletes objects that no ref reaches,
    and returns their number and size.  Refs stay, and so does every commit that has a ref. -/
structure ObjectPruner where
  run : RepoM (Nat × Nat)
  deleted : Repo → Nat × Nat
  pruned : Repo → Repo
  run_eq : ∀ r, run r = .ok (deleted r) (pruned r)
  refs : ∀ r, (pruned r).refs = r.refs
  kept : ∀ r (ref : String) (c : Checksum), r.refs[ref]? = some c →
    (pruned r).commits[c]? = r.commits[c]?
  known : ∀ r (c : Checksum) commit, (pruned r).commits[c]? = some commit →
    r.commits[c]? = some commit

/-- `Pruned`.  The counters are natural numbers: there are never more than `u32` images. -/
structure Pruned where
  nImages : Nat
  nLayers : Nat
  nObjectsPruned : Nat
  objsize : Nat
  deriving DecidableEq

section Definitions

variable (hash : HashOrder)

/-- The loop of `remove_undeployed_images`. -/
def removeImages (deployed : List ImageReference) :
    List ImageReference → List ImageReference → RepoM (List ImageReference)
  | [], removed => pure removed
  | image :: images, removed =>
      if image ∈ deployed then removeImages deployed images removed
      else do
        let _ ← removeImage image
        removeImages deployed images (removed ++ [image])

/-- `remove_undeployed_images` -/
def removeUndeployedImages (deployments : List Deployment) : RepoM (List ImageReference) := do
  let deployed ← liftR (deploymentOrigins deployments)
  let names ← liftR (listImages hash (← get))
  let allImages := names.filterMap fun img => (ImageReference.tryFrom img).toOption
  removeImages deployed allImages []

/-- `prune` -/
def prune (objects : ObjectPruner) (deployments : List Deployment) : RepoM Pruned := do
  let removed ← removeUndeployedImages hash deployments
  let nLayers ← gcImageLayers hash
  let (nObjectsPruned, objsize) ← objects.run
  pure { nImages := removed.length, nLayers, nObjectsPruned, objsize }

end Definitions

-- ── What the origins say ──────────────────────────────────────────────────────

/-- Some deployment has the image in its origin. -/
def Deployed (deployments : List Deployment) (i : ImageReference) : Prop :=
  ∃ d ∈ deployments, ∃ o, deploymentOriginContainer d = .ok (some o) ∧ o.imgref = i

/-- Every origin is absent, or a container image reference that can be parsed. -/
def OriginsReadable (deployments : List Deployment) : Prop :=
  ∀ d ∈ deployments, ∃ o, deploymentOriginContainer d = .ok o

theorem deploymentOrigins_ok {deployments : List Deployment} (h : OriginsReadable deployments) :
    ∃ deployed, deploymentOrigins deployments = .ok deployed ∧
      ∀ i, i ∈ deployed ↔ Deployed deployments i := by
  obtain ⟨os, hos⟩ := mapM_exists h
  refine ⟨os.reduceOption.map (·.imgref), ?_, fun i => ?_⟩
  · rw [deploymentOrigins, hos]
    rfl
  · rw [List.mem_map]
    constructor
    · rintro ⟨o, ho, rfl⟩
      obtain ⟨d, hd, hread⟩ := (mem_mapM hos _).mp (List.reduceOption_mem_iff.mp ho)
      exact ⟨d, hd, o, hread, rfl⟩
    · rintro ⟨d, hd, o, hread, rfl⟩
      exact ⟨o, List.reduceOption_mem_iff.mpr ((mem_mapM hos _).mpr ⟨d, hd, hread⟩), rfl⟩

-- ── The images ────────────────────────────────────────────────────────────────

/-- An image that is stored is removed with its ref. -/
theorem removeImage_run {i : ImageReference} {ref : String} (href : refForImage i = .ok ref)
    {r : Repo} (hin : ref ∈ r.refs) :
    removeImage i r = .ok true { r with refs := r.refs.erase ref } := by
  have hfound : (r.resolveRev ref).isSome = true := by
    rw [resolveRev_of_escape href]
    exact ExtTreeMap.isSome_getElem?_iff_mem.mpr hin
  rw [removeImage, href, bind_of_ok (liftR_ok _ _), bind_of_ok (get_run r), hfound]
  rfl

/-- Images and their refs, in the same order. -/
def RefsOf (images : List ImageReference) (refs : List String) : Prop :=
  images.map refForImage = refs.map Except.ok

theorem RefsOf.mem_refs {images : List ImageReference} {refs : List String} (h : RefsOf images refs)
    {i : ImageReference} (hi : i ∈ images) {ref : String} (href : refForImage i = .ok ref) :
    ref ∈ refs := by
  have hmem : refForImage i ∈ refs.map Except.ok := h ▸ List.mem_map_of_mem hi
  obtain ⟨ref', hin, heq⟩ := List.mem_map.mp hmem
  obtain rfl : ref' = ref := Except.ok.inj (heq.trans href)
  exact hin

theorem RefsOf.exists_image {images : List ImageReference} {refs : List String}
    (h : RefsOf images refs) {ref : String} (href : ref ∈ refs) :
    ∃ i ∈ images, refForImage i = .ok ref := by
  have hmem : (Except.ok ref : Result String) ∈ images.map refForImage :=
    h ▸ List.mem_map_of_mem href
  obtain ⟨i, hi, heq⟩ := List.mem_map.mp hmem
  exact ⟨i, hi, heq⟩

/-- **The loop removes the refs of the images that are not deployed**, and no others. -/
theorem removeImages_run (deployed : List ImageReference) {images : List ImageReference}
    {refs : List String} (hrefs : RefsOf images refs) (hnodup : refs.Nodup)
    (removed : List ImageReference) (r : Repo) (hin : ∀ ref ∈ refs, ref ∈ r.refs) :
    ∃ gone : List String, ∃ removed', removeImages deployed images removed r
        = .ok removed' { r with refs := r.refs.eraseAll gone } ∧
      removed'.length = removed.length + gone.length ∧ gone.Sublist refs ∧
      ∀ i ∈ images, ∀ ref, refForImage i = .ok ref → (ref ∈ gone ↔ i ∉ deployed) := by
  induction images generalizing refs removed r with
  | nil =>
      obtain rfl : refs = [] := List.map_eq_nil_iff.mp hrefs.symm
      exact ⟨[], removed, rfl, rfl, List.Sublist.refl _, by simp⟩
  | cons i images ih =>
      cases refs with
      | nil => exact absurd hrefs (by simp [RefsOf])
      | cons ref refs =>
      obtain ⟨href, hrefs⟩ := List.cons_eq_cons.mp hrefs
      have hrefs : RefsOf images refs := hrefs
      rw [List.nodup_cons] at hnodup
      have hrest := fun removed r => ih hrefs hnodup.2 removed r
      rw [removeImages]
      by_cases hi : i ∈ deployed
      · rw [if_pos hi]
        obtain ⟨gone, removed', hrun, hlen, hsub, hiff⟩ :=
          hrest removed r (fun x hx => hin x (List.mem_cons_of_mem _ hx))
        refine ⟨gone, removed', hrun, hlen, hsub.cons _, ?_⟩
        intro i' hi' ref' href'
        rcases List.mem_cons.mp hi' with rfl | hi'
        · obtain rfl : ref = ref' := Except.ok.inj (href.symm.trans href')
          exact iff_of_false (fun hg => hnodup.1 (hsub.subset hg)) (fun h => h hi)
        · exact hiff i' hi' ref' href'
      · rw [if_neg hi, bind_of_ok (removeImage_run href (hin ref (List.mem_cons_self ..)))]
        have hin' : ∀ x ∈ refs, x ∈ r.refs.erase ref := by
          intro x hx
          obtain ⟨c, hc⟩ := ExtTreeMap.mem_iff_lookup.mp (hin x (List.mem_cons_of_mem _ hx))
          have hne : ref ≠ x := fun heq => hnodup.1 (heq ▸ hx)
          rw [ExtTreeMap.mem_iff_lookup, ExtTreeMap.lookup_erase, if_neg hne]
          exact ⟨c, hc⟩
        obtain ⟨gone, removed', hrun, hlen, hsub, hiff⟩ :=
          hrest (removed ++ [i]) { r with refs := r.refs.erase ref } hin'
        refine ⟨ref :: gone, removed', hrun, ?_, hsub.cons_cons _, ?_⟩
        · rw [hlen, List.length_append, List.length_cons]
          simp only [List.length_cons, List.length_nil]
          omega
        · intro i' hi' ref' href'
          rcases List.mem_cons.mp hi' with rfl | hi'
          · obtain rfl : ref = ref' := Except.ok.inj (href.symm.trans href')
            exact iff_of_true (List.mem_cons_self ..) hi
          · have hne : ref' ≠ ref := fun heq => hnodup.1 (heq ▸ hrefs.mem_refs hi' href')
            rw [List.mem_cons, hiff i' hi' ref' href']
            exact ⟨fun h => h.resolve_left hne, .inr⟩

/-- **The listed names parse back to the images.** -/
theorem listed_images {l : List (String × Checksum)}
    (h : ∀ p ∈ l, ∃ i : ImageReference, i.name ≠ "" ∧ refForImage i = .ok p.1) :
    ∃ names images, l.mapM (fun p => unprefixUnescapeRef imagePrefix p.1) = .ok names ∧
      names.filterMap (fun img => (ImageReference.tryFrom img).toOption) = images ∧
      RefsOf images (l.map (·.1)) ∧ ∀ i ∈ images, i.name ≠ "" := by
  induction l with
  | nil => exact ⟨[], [], rfl, rfl, rfl, by simp⟩
  | cons p l ih =>
      obtain ⟨i, hname, href⟩ := h p (List.mem_cons_self ..)
      obtain ⟨names, images, hnames, himages, hrefs, hnamed⟩ :=
        ih (fun q hq => h q (List.mem_cons_of_mem _ hq))
      have hunescape : unprefixUnescapeRef imagePrefix p.1 = .ok i.display :=
        unprefixUnescapeRef_prefixEscapeForRef href
      refine ⟨i.display :: names, i :: images, ?_, ?_, List.cons_eq_cons.mpr ⟨href, hrefs⟩, ?_⟩
      · rw [List.mapM_cons, hunescape, bind_ok_eq, hnames]
        rfl
      · rw [List.filterMap_cons, ImageReference.tryFrom_display i hname, himages]
        rfl
      · intro i' hi'
        rcases List.mem_cons.mp hi' with rfl | hi'
        · exact hname
        · exact hnamed i' hi'

/-- **Removing the undeployed images**, from a store whose image refs are named. -/
theorem removeUndeployedImages_run {repo : Repo} (hash : HashOrder) (hnamed : ImagesNamed repo)
    {deployments : List Deployment} (horigins : OriginsReadable deployments) :
    ∃ gone : List String, ∃ removed, removeUndeployedImages hash deployments repo
        = .ok removed { repo with refs := repo.refs.eraseAll gone } ∧
      removed.length = gone.length ∧ gone.Nodup ∧
      (∀ ref ∈ gone, ref ∈ repo.refs ∧ Repo.refUnder imagePrefix ref = true) ∧
      ∀ i ref, i.name ≠ "" → refForImage i = .ok ref → ref ∈ repo.refs →
        (ref ∈ gone ↔ ¬ Deployed deployments i) := by
  obtain ⟨deployed, hdeployed, hmem⟩ := deploymentOrigins_ok horigins
  have hperm := hash.perm (repo.listRefsExt imagePrefix)
  have hlisted : ∀ ref, ref ∈ (hash.order (repo.listRefsExt imagePrefix)).map (·.1) ↔
      ref ∈ repo.refs ∧ Repo.refUnder imagePrefix ref = true := by
    intro ref
    rw [(hperm.map _).mem_iff]
    exact mem_refs_listRefsExt
  have hnodup : ((hash.order (repo.listRefsExt imagePrefix)).map (·.1)).Nodup :=
    (hperm.map _).nodup_iff.mpr (nodup_listRefsExt repo imagePrefix)
  obtain ⟨names, images, hnames, himages, hrefs, hnamed'⟩ :=
    listed_images (l := hash.order (repo.listRefsExt imagePrefix)) (by
      intro p hp
      obtain ⟨hin, hunder⟩ := (hlisted p.1).mp (List.mem_map_of_mem hp)
      exact hnamed p.1 hin hunder)
  obtain ⟨gone, removed, hrun, hlen, hsub, hiff⟩ := removeImages_run deployed hrefs hnodup [] repo
    (fun ref href => ((hlisted ref).mp href).1)
  refine ⟨gone, removed, ?_, hlen.trans (Nat.zero_add _), hsub.nodup hnodup,
    fun ref hg => (hlisted ref).mp (hsub.subset hg), ?_⟩
  · rw [removeUndeployedImages, hdeployed, bind_of_ok (liftR_ok _ _), bind_of_ok (get_run repo)]
    have hlist : listImages hash repo = .ok names := hnames
    rw [hlist, bind_of_ok (liftR_ok _ _), himages]
    exact hrun
  · intro i ref hname href hin
    have hunder : Repo.refUnder imagePrefix ref = true := refUnder_of_escape href
    obtain ⟨i', hi', href'⟩ := hrefs.exists_image ((hlisted ref).mpr ⟨hin, hunder⟩)
    obtain rfl := refForImage_inj href href'
    rw [hiff i hi' ref href, hmem]

-- ── What is left ──────────────────────────────────────────────────────────────

/-- Some refs are gone, and some commits that have no ref any more. -/
structure Trimmed (r r' : Repo) : Prop where
  refs : ∀ (ref : String) c, r'.refs[ref]? = some c → r.refs[ref]? = some c
  kept : ∀ (ref : String) (c : Checksum), r'.refs[ref]? = some c → r'.commits[c]? = r.commits[c]?
  known : ∀ (c : Checksum) commit, r'.commits[c]? = some commit → r.commits[c]? = some commit

section Trimmed

variable {a b c : Repo}

theorem Trimmed.trans (h : Trimmed a b) (h' : Trimmed b c) : Trimmed a c where
  refs ref x hx := h.refs ref x (h'.refs ref x hx)
  kept ref x hx := (h'.kept ref x hx).trans (h.kept ref x (h'.refs ref x hx))
  known x commit hx := h.known x commit (h'.known x commit hx)

theorem Trimmed.eraseAll (r : Repo) (gone : List String) :
    Trimmed r { r with refs := r.refs.eraseAll gone } where
  refs ref x hx := by
    have hx' : (r.refs.eraseAll gone)[ref]? = some x := hx
    rw [ExtTreeMap.lookup_eraseAll] at hx'
    by_cases hg : ref ∈ gone
    · rw [if_pos hg] at hx'
      exact absurd hx' (by simp)
    · rw [if_neg hg] at hx'
      exact hx'
  kept _ _ _ := rfl
  known _ _ hx := hx

theorem ObjectPruner.trimmed (objects : ObjectPruner) (r : Repo) :
    Trimmed r (objects.pruned r) where
  refs ref x hx := by
    rw [objects.refs] at hx
    exact hx
  kept ref x hx := by
    rw [objects.refs] at hx
    exact objects.kept r ref x hx
  known := objects.known r

theorem Trimmed.sameManifest (h : Trimmed a b) {ref : String} {x : Checksum}
    (hx : b.refs[ref]? = some x) : manifestOfCommit b x = manifestOfCommit a x := by
  rw [manifestOfCommit, manifestOfCommit, Repo.loadCommit, Repo.loadCommit,
    h.kept ref x hx]

/-- Trimming leaves the garbage collection nothing to stumble over. -/
theorem Trimmed.gcReady (h : Trimmed a b) (ha : GcReady a) : GcReady b where
  blobs ref hin hunder := by
    obtain ⟨x, hx⟩ := ExtTreeMap.mem_iff_lookup.mp hin
    exact ha.blobs ref (ExtTreeMap.mem_iff_lookup.mpr ⟨x, h.refs ref x hx⟩) hunder
  images ref hin hunder := by
    obtain ⟨x, hx⟩ := ExtTreeMap.mem_iff_lookup.mp hin
    exact ha.images ref (ExtTreeMap.mem_iff_lookup.mpr ⟨x, h.refs ref x hx⟩) hunder
  readable ref x hx hunder := by
    rw [h.sameManifest hx]
    exact ha.readable ref x (h.refs ref x hx) hunder
  carried x commit hx hmeta := by
    obtain ⟨m, hm⟩ := ha.carried x commit (h.known x commit hx) hmeta
    refine ⟨m, ?_⟩
    rw [manifestOfCommit, Repo.loadCommit, h.known x commit hx] at hm
    rw [manifestOfCommit, Repo.loadCommit, hx]
    exact hm
  deployed pfx hpfx ref x hx hunder := by
    have hmem := ha.deployed pfx hpfx ref x (h.refs ref x hx) hunder
    rw [ExtTreeMap.mem_iff_lookup] at hmem ⊢
    rw [h.kept ref x hx]
    exact hmem

/-- What is referenced afterwards was so before. -/
theorem Trimmed.imageManifestOf (h : Trimmed a b) (m : ImageManifest) : ImageManifestOf b m ↔
    ∃ ref x, b.refs[ref]? = some x ∧ Repo.refUnder imagePrefix ref = true ∧
      manifestOfCommit a x = .ok m := by
  constructor
  · rintro ⟨ref, x, hx, hunder, hm⟩
    exact ⟨ref, x, hx, hunder, (h.sameManifest hx).symm.trans hm⟩
  · rintro ⟨ref, x, hx, hunder, hm⟩
    exact ⟨ref, x, hx, hunder, (h.sameManifest hx).trans hm⟩

/-- Deployments count the same as long as their refs stay. -/
theorem Trimmed.deploymentManifestOf (h : Trimmed a b)
    (hroots : ∀ pfx ∈ deploymentPrefixes, ∀ ref, Repo.refUnder pfx ref = true →
      b.refs[ref]? = a.refs[ref]?) (m : ImageManifest) :
    DeploymentManifestOf b m ↔ DeploymentManifestOf a m := by
  constructor
  · rintro ⟨pfx, hpfx, ref, x, commit, hx, hunder, hcommit, hmeta, hm⟩
    exact ⟨pfx, hpfx, ref, x, commit, h.refs ref x hx, hunder, h.known x commit hcommit, hmeta,
      (h.sameManifest hx).symm.trans hm⟩
  · rintro ⟨pfx, hpfx, ref, x, commit, hx, hunder, hcommit, hmeta, hm⟩
    have hx' : b.refs[ref]? = some x := (hroots pfx hpfx ref hunder).trans hx
    refine ⟨pfx, hpfx, ref, x, commit, hx', hunder, ?_, hmeta, (h.sameManifest hx').trans hm⟩
    rw [h.kept ref x hx']
    exact hcommit

end Trimmed

/-- The ref of an image that a deployment has in its origin. -/
def KeptImage (deployments : List Deployment) (ref : String) : Prop :=
  ∃ i : ImageReference, i.name ≠ "" ∧ refForImage i = .ok ref ∧ Deployed deployments i

/-- A layer of an image that is kept, or of a manifest that a deployment or a base image
    carries. -/
def LiveLayer (deployments : List Deployment) (repo : Repo) (d : Digest) : Prop :=
  ∃ m, ((∃ ref c, repo.refs[ref]? = some c ∧ KeptImage deployments ref ∧
      manifestOfCommit repo c = .ok m) ∨ DeploymentManifestOf repo m) ∧ ∃ l ∈ m.layers, l.digest = d

/-- The refs under two prefixes of the store are different. -/
theorem not_layer_of_image {ref : String} (h : Repo.refUnder imagePrefix ref = true) :
    Repo.refUnder layerPrefix ref = false := refUnder_disjoint (List.mem_cons_self ..) h

/-- Counting the removed refs of one kind. -/
theorem length_removed {r r' : Repo} {gone : List String} (p : String → Bool) (hnodup : gone.Nodup)
    (h : ∀ ref, ref ∈ gone ↔ ref ∈ r.refs ∧ ref ∉ r'.refs ∧ p ref = true) :
    gone.length = ((removedRefs r r').filter p).length := by
  refine List.Perm.length_eq ((List.perm_ext_iff_of_nodup hnodup
    (((ExtTreeMap.nodup_keys_toList r.refs).filter _).filter _)).mpr fun ref => ?_)
  rw [h ref, List.mem_filter, List.mem_filter, ← ExtTreeMap.mem_iff_mem_keys_toList,
    decide_eq_true_iff, and_assoc]

/-- **What a prune leaves.**  Of the images those that are deployed, of the layers those that
    are live, and all other refs. -/
structure Kept (deployments : List Deployment) (repo repo' : Repo) : Prop where
  images : ∀ ref c, Repo.refUnder imagePrefix ref = true → (repo'.refs[ref]? = some c ↔
    repo.refs[ref]? = some c ∧ KeptImage deployments ref)
  layers : ∀ ref c, Repo.refUnder layerPrefix ref = true → (repo'.refs[ref]? = some c ↔
    repo.refs[ref]? = some c ∧ ∃ d, refForBlobDigest d = .ok ref ∧ LiveLayer deployments repo d)
  others : ∀ ref, Repo.refUnder imagePrefix ref = false → Repo.refUnder layerPrefix ref = false →
    repo'.refs[ref]? = repo.refs[ref]?

section Whole

variable {repo : Repo} {deployments : List Deployment}

/-- The images after the undeployed ones were removed. -/
theorem keptImages (hnamed : ImagesNamed repo) {gone : List String}
    (hiff : ∀ i ref, i.name ≠ "" → refForImage i = .ok ref → ref ∈ repo.refs →
      (ref ∈ gone ↔ ¬ Deployed deployments i)) (ref : String) (c : Checksum)
    (hunder : Repo.refUnder imagePrefix ref = true) :
    (repo.refs.eraseAll gone)[ref]? = some c ↔
      repo.refs[ref]? = some c ∧ KeptImage deployments ref := by
  rw [ExtTreeMap.lookup_eraseAll]
  constructor
  · intro hc
    by_cases hg : ref ∈ gone
    · rw [if_pos hg] at hc
      exact absurd hc (by simp)
    · rw [if_neg hg] at hc
      have hin : ref ∈ repo.refs := ExtTreeMap.mem_iff_lookup.mpr ⟨c, hc⟩
      obtain ⟨i, hname, href⟩ := hnamed ref hin hunder
      exact ⟨hc, i, hname, href, not_not.mp (fun hn => hg ((hiff i ref hname href hin).mpr hn))⟩
  · rintro ⟨hc, i, hname, href, hdeployed⟩
    have hin : ref ∈ repo.refs := ExtTreeMap.mem_iff_lookup.mpr ⟨c, hc⟩
    rw [if_neg (fun hg => (hiff i ref hname href hin).mp hg hdeployed)]
    exact hc

/-- What is referenced after the undeployed images were removed. -/
theorem referenced_iff_live {r : Repo} (ht : Trimmed repo r)
    (himages : ∀ ref c, Repo.refUnder imagePrefix ref = true → (r.refs[ref]? = some c ↔
      repo.refs[ref]? = some c ∧ KeptImage deployments ref))
    (hroots : ∀ pfx ∈ deploymentPrefixes, ∀ ref, Repo.refUnder pfx ref = true →
      r.refs[ref]? = repo.refs[ref]?) (d : Digest) :
    Referenced r d ↔ LiveLayer deployments repo d := by
  have himage : ∀ m, ImageManifestOf r m ↔ ∃ ref c, repo.refs[ref]? = some c ∧
      KeptImage deployments ref ∧ manifestOfCommit repo c = .ok m := by
    intro m
    rw [ht.imageManifestOf]
    constructor
    · rintro ⟨ref, c, hc, hunder, hm⟩
      obtain ⟨hc', hkept⟩ := (himages ref c hunder).mp hc
      exact ⟨ref, c, hc', hkept, hm⟩
    · rintro ⟨ref, c, hc, hkept, hm⟩
      obtain ⟨i, hname, href, hdeployed⟩ := hkept
      have hunder : Repo.refUnder imagePrefix ref = true := refUnder_of_escape href
      exact ⟨ref, c, (himages ref c hunder).mpr ⟨hc, i, hname, href, hdeployed⟩, hunder, hm⟩
  rw [Referenced, LiveLayer]
  simp only [himage, ht.deploymentManifestOf hroots]

/-- The refs that deployments are listed from are neither images nor layers. -/
theorem deployment_disjoint {pfx ref : String} (hpfx : pfx ∈ deploymentPrefixes)
    (h : Repo.refUnder pfx ref = true) :
    Repo.refUnder imagePrefix ref = false ∧ Repo.refUnder layerPrefix ref = false := by
  refine ⟨?_, refUnder_disjoint (List.mem_cons_of_mem _ hpfx) h⟩
  have hall : ∀ p ∈ deploymentPrefixes,
      Repo.refUnder p imagePrefix = false ∧ Repo.refUnder imagePrefix p = false := by decide
  obtain ⟨h₁, h₂⟩ := hall pfx hpfx
  cases hi : Repo.refUnder imagePrefix ref with
  | false => rfl
  | true =>
      rcases refUnder_comparable h hi with hc | hc
      · exact absurd (hc.symm.trans h₁) (by simp)
      · exact absurd (hc.symm.trans h₂) (by simp)

/-- **The three steps of a prune**, in a store where nothing stops them. -/
theorem prune_run (h : GcReady repo) (horigins : OriginsReadable deployments) (hash : HashOrder)
    (objects : ObjectPruner) :
    ∃ images layers : List String, ∃ pruned repo',
      prune hash objects deployments repo = .ok pruned repo' ∧
      repo'.refs = (repo.refs.eraseAll images).eraseAll layers ∧ Trimmed repo repo' ∧
      Kept deployments repo repo' ∧
      (images.Nodup ∧ ∀ ref ∈ images, ref ∈ repo.refs ∧ Repo.refUnder imagePrefix ref = true) ∧
      (layers.Nodup ∧ ∀ ref ∈ layers, ref ∈ repo.refs ∧ Repo.refUnder layerPrefix ref = true) ∧
      pruned.nImages = images.length ∧ pruned.nLayers = layers.length := by
  obtain ⟨images, removed, hrun₁, hlen, hnodup₁, hgone₁, hiff⟩ :=
    removeUndeployedImages_run hash h.images horigins
  let r₁ : Repo := { repo with refs := repo.refs.eraseAll images }
  have ht₁ : Trimmed repo r₁ := Trimmed.eraseAll repo images
  obtain ⟨layers, hrun₂, hnodup₂, hgone₂, hblob⟩ := gcImageLayers_live (ht₁.gcReady h) hash
  let r₂ : Repo := { r₁ with refs := r₁.refs.eraseAll layers }
  have ht₂ : Trimmed r₁ r₂ := Trimmed.eraseAll r₁ layers
  have hrefs : (objects.pruned r₂).refs = (repo.refs.eraseAll images).eraseAll layers :=
    objects.refs r₂
  -- images and layers are told apart by their prefix
  have hnotLayer : ∀ ref, Repo.refUnder layerPrefix ref = false → ref ∉ layers := by
    intro ref hunder hg
    exact absurd ((hgone₂ ref hg).2.symm.trans hunder) (by simp)
  have hnotImage : ∀ ref, Repo.refUnder imagePrefix ref = false → ref ∉ images := by
    intro ref hunder hg
    exact absurd ((hgone₁ ref hg).2.symm.trans hunder) (by simp)
  have hlayerNotImage : ∀ ref, Repo.refUnder layerPrefix ref = true → ref ∉ images := by
    intro ref hunder hg
    exact absurd (hunder.symm.trans (not_layer_of_image (hgone₁ ref hg).2)) (by simp)
  have himages : ∀ ref c, Repo.refUnder imagePrefix ref = true → (r₁.refs[ref]? = some c ↔
      repo.refs[ref]? = some c ∧ KeptImage deployments ref) := keptImages h.images hiff
  have hroots : ∀ pfx ∈ deploymentPrefixes, ∀ ref, Repo.refUnder pfx ref = true →
      r₁.refs[ref]? = repo.refs[ref]? := by
    intro pfx hpfx ref hunder
    show (repo.refs.eraseAll images)[ref]? = _
    rw [ExtTreeMap.lookup_eraseAll, if_neg (hnotImage ref (deployment_disjoint hpfx hunder).1)]
  refine ⟨images, layers, ⟨removed.length, layers.length, (objects.deleted r₂).1, (objects.deleted r₂).2⟩,
    objects.pruned r₂, ?_, hrefs, (ht₁.trans ht₂).trans (objects.trimmed r₂), ⟨?_, ?_, ?_⟩,
    ⟨hnodup₁, hgone₁⟩, ⟨hnodup₂, ?_⟩, hlen, rfl⟩
  · rw [prune, bind_of_ok hrun₁, bind_of_ok hrun₂, bind_of_ok (objects.run_eq r₂)]
    rfl
  · intro ref c hunder
    rw [hrefs, ExtTreeMap.lookup_eraseAll, if_neg (hnotLayer ref (not_layer_of_image hunder))]
    exact himages ref c hunder
  · intro ref c hunder
    rw [hrefs]
    refine (hblob ref c hunder).trans ?_
    have hsame : r₁.refs[ref]? = repo.refs[ref]? := by
      show (repo.refs.eraseAll images)[ref]? = _
      rw [ExtTreeMap.lookup_eraseAll, if_neg (hlayerNotImage ref hunder)]
    rw [hsame]
    simp only [referenced_iff_live ht₁ himages hroots]
  · intro ref himage hlayer
    rw [hrefs, ExtTreeMap.lookup_eraseAll, if_neg (hnotLayer ref hlayer),
      ExtTreeMap.lookup_eraseAll, if_neg (hnotImage ref himage)]
  · intro ref hg
    obtain ⟨hin, hunder⟩ := hgone₂ ref hg
    obtain ⟨c, hc⟩ := ExtTreeMap.mem_iff_lookup.mp hin
    exact ⟨ExtTreeMap.mem_iff_lookup.mpr ⟨c, ht₁.refs ref c hc⟩, hunder⟩

/-- Where only deployed images and live layers are left, a prune removes no ref. -/
theorem prune_nothing (h : GcReady repo) (horigins : OriginsReadable deployments)
    (himages : ∀ ref ∈ repo.refs, Repo.refUnder imagePrefix ref = true → KeptImage deployments ref)
    (hlayers : ∀ ref ∈ repo.refs, Repo.refUnder layerPrefix ref = true →
      ∃ d, refForBlobDigest d = .ok ref ∧ LiveLayer deployments repo d)
    (hash : HashOrder) (objects : ObjectPruner) :
    ∃ pruned repo', prune hash objects deployments repo = .ok pruned repo' ∧
      pruned.nImages = 0 ∧ pruned.nLayers = 0 ∧ repo'.refs = repo.refs := by
  obtain ⟨images, layers, pruned, repo', hrun, hrefs, _, hkept, ⟨_, hgone₁⟩, ⟨_, hgone₂⟩, hn₁, hn₂⟩ :=
    prune_run h horigins hash objects
  have hempty₁ : images = [] := by
    rw [List.eq_nil_iff_forall_not_mem]
    intro ref hg
    obtain ⟨hin, hunder⟩ := hgone₁ ref hg
    obtain ⟨c, hc⟩ := ExtTreeMap.mem_iff_lookup.mp hin
    have hstays := (hkept.images ref c hunder).mpr ⟨hc, himages ref hin hunder⟩
    rw [hrefs, ExtTreeMap.lookup_eraseAll, ExtTreeMap.lookup_eraseAll, if_pos hg] at hstays
    exact absurd hstays (by simp)
  have hempty₂ : layers = [] := by
    rw [List.eq_nil_iff_forall_not_mem]
    intro ref hg
    obtain ⟨hin, hunder⟩ := hgone₂ ref hg
    obtain ⟨c, hc⟩ := ExtTreeMap.mem_iff_lookup.mp hin
    have hstays := (hkept.layers ref c hunder).mpr ⟨hc, hlayers ref hin hunder⟩
    rw [hrefs, ExtTreeMap.lookup_eraseAll, if_pos hg] at hstays
    exact absurd hstays (by simp)
  subst hempty₁ hempty₂
  exact ⟨pruned, repo', hrun, hn₁, hn₂, hrefs⟩

/-- A live layer stays live when the store is pruned. -/
theorem LiveLayer.pruned {repo' : Repo} (ht : Trimmed repo repo')
    (hkept : Kept deployments repo repo') {d : Digest} (h : LiveLayer deployments repo d) :
    LiveLayer deployments repo' d := by
  obtain ⟨m, hm, hlayer⟩ := h
  have hroots : ∀ pfx ∈ deploymentPrefixes, ∀ ref, Repo.refUnder pfx ref = true →
      repo'.refs[ref]? = repo.refs[ref]? := by
    intro pfx hpfx ref hunder
    exact hkept.others ref (deployment_disjoint hpfx hunder).1 (deployment_disjoint hpfx hunder).2
  refine ⟨m, ?_, hlayer⟩
  rcases hm with ⟨ref, c, hc, himage, hm⟩ | hm
  · obtain ⟨i, hname, href, hdeployed⟩ := himage
    have himage : KeptImage deployments ref := ⟨i, hname, href, hdeployed⟩
    have hc' : repo'.refs[ref]? = some c :=
      (hkept.images ref c (refUnder_of_escape href)).mpr ⟨hc, himage⟩
    exact .inl ⟨ref, c, hc', himage, (ht.sameManifest hc').trans hm⟩
  · exact .inr ((ht.deploymentManifestOf hroots m).mpr hm)

end Whole

/-- An image that no deployment uses. -/
def oldImage : ImageReference := { transport := .registry, name := "quay.io/old" }

def deployedRefs : List (String × Checksum) :=
  [("ostree/container/blob/sha256_3A_" ++ emptyTreeSum, sampleCommitSum),
   ("ostree/container/blob/sha256_3A_" ++ sampleTreeSum, sampleCommitSum),
   ("ostree/container/image/docker_3A__2F__2F_quay_2E_io/old", chunkCommitSum),
   ("ostree/container/image/docker_3A__2F__2F_quay_2E_io/os", chunkCommitSum)]

/-- The sample store with a second name for its image. -/
def deployedStore : Repo :=
  { sampleStore with
    dirtrees := ((∅ : ExtTreeMap Checksum DirTree).insert emptyTreeSum emptyTree).insert
      sampleTreeSum sampleTree
    dirmetas := sampleRepo.dirmetas
    files := sampleRepo.files
    refs := .ofList deployedRefs }

/-- An origin with this one key. -/
def originOf (v : String) : KeyFile where
  string group key :=
    if group ≠ "origin" then .error .groupNotFound
    else if key ≠ originContainer then .error .keyNotFound
    else .ok v

/-- A deployment of the image, and one that is no container. -/
def sampleDeployments : List Deployment :=
  [{ origin := some (originOf "ostree-unverified-registry:quay.io/os") }, { origin := none }]

/-- In a repository all of whose objects have a ref there is nothing to delete. -/
def ObjectPruner.idle : ObjectPruner where
  run := pure (0, 0)
  deleted _ := (0, 0)
  pruned r := r
  run_eq _ := rfl
  refs _ := rfl
  kept _ _ _ _ := rfl
  known _ _ _ h := h

theorem gcReady_deployedStore : GcReady deployedStore := by
  refine gcReady_of_refs rfl deployedRefs (by decide +kernel) ?_ ?_ (by decide +kernel)
  · intro p hp hunder
    simp only [deployedRefs, List.mem_cons, List.not_mem_nil, or_false] at hp
    rcases hp with rfl | rfl | rfl | rfl
    · exact ⟨_, refForBlobDigest_emptyTree⟩
    · exact ⟨_, refForBlobDigest_sampleTree⟩
    · exact absurd hunder (by decide +kernel)
    · exact absurd hunder (by decide +kernel)
  · have hall : ∀ p ∈ deployedRefs, Repo.refUnder imagePrefix p.1 = true → p.2 = chunkCommitSum ∧
        (refForImage sampleImage = .ok p.1 ∨ refForImage oldImage = .ok p.1) := by decide +kernel
    intro p hp hunder
    refine ⟨(hall p hp hunder).1, ?_⟩
    rcases (hall p hp hunder).2 with href | href
    · exact ⟨sampleImage, by decide, href⟩
    · exact ⟨oldImage, by decide, href⟩

theorem sampleDeployments_origins : deploymentOriginContainer
      { origin := some (originOf "ostree-unverified-registry:quay.io/os") }
    = .ok (some { sigverify := .containerPolicyAllowInsecure, imgref := sampleImage }) := by
  decide +kernel

end OstreeExt.Store
