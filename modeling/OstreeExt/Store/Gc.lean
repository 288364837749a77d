import OstreeExt.Store.Query
import OstreeExt.Table
import Mathlib.Data.List.ReduceOption
import Std.Data.ExtTreeSet

/-!
# Garbage collection of layer refs

`gc_image_layers` collects the manifests of all stored images and of all deployments that
are container images, and removes every blob ref whose digest is in none of them.
`gc_exact` says that it removes just these.
-/

namespace OstreeExt.Store

open OstreeExt Refescape Exec Std

/-- How hash maps are iterated: in any order. -/
structure HashOrder where
  order : List (String × Checksum) → List (String × Checksum)
  perm : ∀ l, (order l).Perm l

/-- The prefixes of the refs that deployments are listed from. -/
def deploymentPrefixes : List String :=
  ostreeBaseDeploymentRefs ++ rpmostreeBaseRefs ++ [baseImagePrefix]

section Definitions

variable (hash : HashOrder)

/-- `list_images` -/
def listImages (repo : Repo) : Result (List String) :=
  (hash.order (repo.listRefsExt imagePrefix)).mapM fun p => unprefixUnescapeRef imagePrefix p.1

/-- The commits that deployments refer to. -/
def deploymentCommits (repo : Repo) : List Checksum :=
  ((hash.order (deploymentPrefixes.flatMap fun p => repo.listRefsExt p)).map (·.2)).dedup

/-- The manifest of a deployment, if it is a container image. -/
def deploymentManifest (repo : Repo) (commit : Checksum) : Result (Option ImageManifest) := do
  let commitObj ← repo.loadCommit commit
  match ← lookupStr commitObj.metadata metaManifestDigest with
  | none => .ok none
  | some _ => (manifestDataFromCommitmeta commitObj.metadata).map fun p => some p.1

/-- `list_container_deployment_manifests` -/
def listContainerDeploymentManifests (repo : Repo) : Result (List ImageManifest) :=
  ((deploymentCommits hash repo).mapM (deploymentManifest repo)).map List.reduceOption

/-- The manifest of a listed image. -/
def manifestOfName (repo : Repo) (img : String) : Result ImageManifest := do
  let ir ← ImageReference.tryFrom img
  manifestForImage repo ir

/-- The digests that `gc_image_layers_impl` collects. -/
def referencedLayers (repo : Repo) : Result (ExtTreeSet Digest) := do
  let allImages ← listImages hash repo
  let deploymentManifests ← listContainerDeploymentManifests hash repo
  let imageManifests ← allImages.mapM (manifestOfName repo)
  let allManifests := imageManifests ++ deploymentManifests
  .ok (.ofList (allManifests.flatMap fun m => m.layers.map (·.digest)))

/-- The loop of `gc_image_layers_impl`.  A digest that is found is taken out of the set. -/
def pruneLayers : List (String × Checksum) → ExtTreeSet Digest → Nat → RepoM Nat
  | [], _, pruned => pure pruned
  | (layerRef, _) :: found, referenced, pruned => do
      let layerDigest ← liftR (unprefixUnescapeRef layerPrefix layerRef)
      if layerDigest ∈ referenced then
        pruneLayers found (referenced.erase layerDigest) pruned
      else
        Repo.setRef layerRef none
        pruneLayers found referenced (pruned + 1)

/-- `gc_image_layers_impl`, and `gc_image_layers` -/
def gcImageLayers : RepoM Nat := do
  let repo ← get
  let referenced ← liftR (referencedLayers hash repo)
  pruneLayers (hash.order (repo.listRefsExt layerPrefix)) referenced 0

end Definitions

-- ── Listing refs ──────────────────────────────────────────────────────────────

theorem mem_listRefsExt {repo : Repo} {pfx ref : String} {c : Checksum} :
    (ref, c) ∈ repo.listRefsExt pfx ↔ repo.refs[ref]? = some c ∧ Repo.refUnder pfx ref = true := by
  rw [Repo.listRefsExt, List.mem_filter, ExtTreeMap.mem_toList_iff]

theorem mem_refs_listRefsExt {repo : Repo} {pfx ref : String} :
    ref ∈ (repo.listRefsExt pfx).map (·.1) ↔ ref ∈ repo.refs ∧ Repo.refUnder pfx ref = true := by
  rw [List.mem_map, ExtTreeMap.mem_iff_lookup]
  constructor
  · rintro ⟨⟨_, c⟩, hp, rfl⟩
    obtain ⟨hc, hunder⟩ := mem_listRefsExt.mp hp
    exact ⟨⟨c, hc⟩, hunder⟩
  · rintro ⟨⟨c, hc⟩, hunder⟩
    exact ⟨(ref, c), mem_listRefsExt.mpr ⟨hc, hunder⟩, rfl⟩

theorem nodup_listRefsExt (repo : Repo) (pfx : String) :
    ((repo.listRefsExt pfx).map (·.1)).Nodup :=
  (ExtTreeMap.nodup_keys_toList repo.refs).sublist (List.filter_sublist.map _)

theorem HashOrder.mem_order (hash : HashOrder) {l : List (String × Checksum)}
    {p : String × Checksum} : p ∈ hash.order l ↔ p ∈ l := (hash.perm l).mem_iff

-- ── The loop ──────────────────────────────────────────────────────────────────

/-- The loop passes over a ref: its digest is in the set, and no ref in front of it has taken it
    out. -/
def Spared (found : List (String × Checksum)) (referenced : ExtTreeSet Digest) (ref : String) :
    Prop :=
  ∃ before c behind d, found = before ++ (ref, c) :: behind ∧
    unprefixUnescapeRef layerPrefix ref = .ok d ∧ d ∈ referenced ∧
    ∀ p ∈ before, unprefixUnescapeRef layerPrefix p.1 ≠ .ok d

section Spared

variable {found : List (String × Checksum)} {referenced : ExtTreeSet Digest} {layerRef : String}
  {c : Checksum} {d : Digest}

/-- Whether the first ref is passed over is a matter of its own digest. -/
theorem spared_head (hd : unprefixUnescapeRef layerPrefix layerRef = .ok d) :
    Spared ((layerRef, c) :: found) referenced layerRef ↔ d ∈ referenced := by
  constructor
  · rintro ⟨before, c', behind, d', heq, hd', hin, -⟩
    obtain rfl : d' = d := Except.ok.inj (hd'.symm.trans hd)
    exact hin
  · intro hin
    exact ⟨[], c, found, d, rfl, hd, hin, fun p hp => absurd hp (by simp)⟩

/-- Any other ref has to have another digest than the first one, if that one was passed over. -/
theorem spared_tail {ref : String} (hne : ref ≠ layerRef)
    (hd : unprefixUnescapeRef layerPrefix layerRef = .ok d) :
    Spared ((layerRef, c) :: found) referenced ref ↔
      Spared found (if d ∈ referenced then referenced.erase d else referenced) ref := by
  have hmem : ∀ d', d' ∈ (if d ∈ referenced then referenced.erase d else referenced) ↔
      d' ∈ referenced ∧ d ≠ d' := by
    intro d'
    split
    · rw [ExtTreeSet.mem_erase, Std.compare_eq_iff_eq.ne]
      exact And.comm
    · next hnot => exact ⟨fun h => ⟨h, fun heq => hnot (heq ▸ h)⟩, fun h => h.1⟩
  constructor
  · rintro ⟨before, c', behind, d', heq, hd', hin, hbefore⟩
    cases before with
    | nil => exact absurd (Prod.mk.inj (List.cons.inj heq).1).1.symm hne
    | cons p before =>
        obtain ⟨rfl, rfl⟩ := List.cons.inj heq
        have hother : d ≠ d' := fun h => hbefore _ (List.mem_cons_self ..) (h ▸ hd)
        exact ⟨before, c', behind, d', rfl, hd', (hmem d').mpr ⟨hin, hother⟩,
          fun p hp => hbefore p (List.mem_cons_of_mem _ hp)⟩
  · rintro ⟨before, c', behind, d', rfl, hd', hin, hbefore⟩
    obtain ⟨hin, hother⟩ := (hmem d').mp hin
    refine ⟨(layerRef, c) :: before, c', behind, d', rfl, hd', hin, ?_⟩
    intro p hp
    rcases List.mem_cons.mp hp with rfl | hp
    · exact fun h => hother (Except.ok.inj (hd.symm.trans h))
    · exact hbefore p hp

end Spared

/-- **The pruning loop** removes the refs that it does not pass over. -/
theorem pruneLayers_spares {found : List (String × Checksum)} (hnodup : (found.map (·.1)).Nodup)
    (hname : ∀ p ∈ found, ∃ d, unprefixUnescapeRef layerPrefix p.1 = .ok d)
    (referenced : ExtTreeSet Digest) (n : Nat) (r : Repo) :
    ∃ gone : List String, pruneLayers found referenced n r
        = .ok (n + gone.length) { r with refs := r.refs.eraseAll gone } ∧
      gone.Sublist (found.map (·.1)) ∧
      ∀ ref ∈ found.map (·.1), ref ∈ gone ↔ ¬ Spared found referenced ref := by
  induction found generalizing referenced n r with
  | nil => exact ⟨[], rfl, .refl _, fun _ h => absurd h (by simp)⟩
  | cons p found ih =>
      obtain ⟨layerRef, c⟩ := p
      obtain ⟨d, hunescape⟩ := hname _ (List.mem_cons_self ..)
      rw [List.map_cons, List.nodup_cons] at hnodup
      have hrest := ih hnodup.2 (fun q hq => hname q (List.mem_cons_of_mem _ hq))
      by_cases hin : d ∈ referenced
      · obtain ⟨gone, hrun, hsub, hiff⟩ := hrest (referenced.erase d) n r
        refine ⟨gone, ?_, hsub.cons _, ?_⟩
        · rw [pruneLayers, hunescape, bind_of_ok (liftR_ok _ _), if_pos hin]
          exact hrun
        · intro ref hmem
          by_cases heq : ref = layerRef
          · subst heq
            rw [spared_head hunescape]
            exact iff_of_false (fun hg => hnodup.1 (hsub.subset hg)) (fun h => h hin)
          · rw [spared_tail heq hunescape, if_pos hin]
            exact hiff ref ((List.mem_cons.mp hmem).resolve_left heq)
      · obtain ⟨gone, hrun, hsub, hiff⟩ := hrest referenced (n + 1)
          { r with refs := r.refs.erase layerRef }
        refine ⟨layerRef :: gone, ?_, hsub.cons_cons _, ?_⟩
        · rw [pruneLayers, hunescape, bind_of_ok (liftR_ok _ _), if_neg hin]
          refine (bind_of_ok rfl).trans (hrun.trans ?_)
          rw [List.length_cons, Nat.add_right_comm, Nat.add_assoc]
          rfl
        · intro ref hmem
          by_cases heq : ref = layerRef
          · subst heq
            rw [spared_head hunescape]
            exact iff_of_true (List.mem_cons_self ..) hin
          · rw [spared_tail heq hunescape, if_neg hin, List.mem_cons,
              hiff ref ((List.mem_cons.mp hmem).resolve_left heq)]
            exact ⟨fun h => h.resolve_left heq, .inr⟩

/-- A ref whose name is no escaped text stops the loop. -/
theorem pruneLayers_ok {found : List (String × Checksum)} {referenced : ExtTreeSet Digest}
    {n k : Nat} {r r' : Repo} (h : pruneLayers found referenced n r = .ok k r') :
    ∀ p ∈ found, ∃ d, unprefixUnescapeRef layerPrefix p.1 = .ok d := by
  induction found generalizing referenced n r with
  | nil => exact fun p hp => absurd hp (by simp)
  | cons p found ih =>
      obtain ⟨layerRef, c⟩ := p
      rw [pruneLayers] at h
      cases hunescape : unprefixUnescapeRef layerPrefix layerRef with
      | error e =>
          rw [hunescape, bind_of_error (liftR_error _ _)] at h
          cases h
      | ok d =>
          rw [hunescape, bind_of_ok (liftR_ok _ _)] at h
          have hrest : ∀ q ∈ found, ∃ d, unprefixUnescapeRef layerPrefix q.1 = .ok d := by
            split at h
            · exact ih h
            · obtain ⟨_, _, -, hrun⟩ := bind_ok h
              exact ih hrun
          intro q hq
          rcases List.mem_cons.mp hq with rfl | hq
          · exact ⟨d, hunescape⟩
          · exact hrest q hq

/-- Where each ref has its own digest, a digest that was taken out of the set is not asked for
    again. -/
theorem spared_iff {found : List (String × Checksum)} (hnodup : (found.map (·.1)).Nodup)
    (hname : ∀ p ∈ found, ∃ d, refForBlobDigest d = .ok p.1) {referenced : ExtTreeSet Digest}
    {d : Digest} {ref : String} (href : refForBlobDigest d = .ok ref)
    (hmem : ref ∈ found.map (·.1)) : Spared found referenced ref ↔ d ∈ referenced := by
  have hdigest := unprefixUnescapeRef_prefixEscapeForRef href
  constructor
  · rintro ⟨_, _, _, d', -, hd', hin, -⟩
    obtain rfl : d' = d := Except.ok.inj (hd'.symm.trans hdigest)
    exact hin
  · intro hin
    obtain ⟨⟨ref, c⟩, hp, rfl⟩ := List.mem_map.mp hmem
    obtain ⟨before, behind, hfound⟩ := List.append_of_mem hp
    refine ⟨before, c, behind, d, hfound, hdigest, hin, fun p hp' heq => ?_⟩
    -- a ref in front of it with that digest would have its name
    obtain ⟨d', hd'⟩ := hname p (by rw [hfound]; exact List.mem_append_left _ hp')
    obtain rfl : d' = d :=
      Except.ok.inj ((unprefixUnescapeRef_prefixEscapeForRef hd').symm.trans heq)
    have hsame : p.1 = ref := Except.ok.inj (hd'.symm.trans href)
    rw [hfound, List.map_append, List.map_cons, List.nodup_append] at hnodup
    exact hnodup.2.2 _ (List.mem_map_of_mem hp') _ (List.mem_cons_self ..) hsame

-- ── What is referenced ────────────────────────────────────────────────────────

/-- The manifest of a stored image. -/
def ImageManifestOf (repo : Repo) (m : ImageManifest) : Prop :=
  ∃ ref c, repo.refs[ref]? = some c ∧ Repo.refUnder imagePrefix ref = true ∧
    manifestOfCommit repo c = .ok m

/-- The manifest of a commit with a manifest digest that a deployment or a base image ref
    points to. -/
def DeploymentManifestOf (repo : Repo) (m : ImageManifest) : Prop :=
  ∃ pfx ∈ deploymentPrefixes, ∃ ref c commit, repo.refs[ref]? = some c ∧
    Repo.refUnder pfx ref = true ∧ repo.commits[c]? = some commit ∧
    metaManifestDigest ∈ commit.metadata ∧ manifestOfCommit repo c = .ok m

/-- The digest is that of a layer of a live manifest. -/
def Referenced (repo : Repo) (d : Digest) : Prop :=
  ∃ m, (ImageManifestOf repo m ∨ DeploymentManifestOf repo m) ∧ ∃ l ∈ m.layers, l.digest = d

/-- Every image ref is that of an image reference with a name. -/
def ImagesNamed (repo : Repo) : Prop :=
  ∀ ref ∈ repo.refs, Repo.refUnder imagePrefix ref = true →
    ∃ i : ImageReference, i.name ≠ "" ∧ refForImage i = .ok ref

/-- Every blob ref is that of a digest. -/
def BlobsNamed (repo : Repo) : Prop :=
  ∀ ref ∈ repo.refs, Repo.refUnder layerPrefix ref = true → ∃ d, refForBlobDigest d = .ok ref

/-- The states in which nothing stops the garbage collection.  That a deployment ref points
    to a commit of the repository is what libostree keeps true of refs. -/
structure GcReady (repo : Repo) : Prop where
  blobs : BlobsNamed repo
  images : ImagesNamed repo
  readable : ∀ (ref : String) c, repo.refs[ref]? = some c → Repo.refUnder imagePrefix ref = true →
    ∃ m, manifestOfCommit repo c = .ok m
  carried : ∀ (c : Checksum) commit, repo.commits[c]? = some commit →
    metaManifestDigest ∈ commit.metadata → ∃ m, manifestOfCommit repo c = .ok m
  deployed : ∀ pfx ∈ deploymentPrefixes, ∀ (ref : String) c, repo.refs[ref]? = some c →
    Repo.refUnder pfx ref = true → c ∈ repo.commits

section Reading

variable {repo : Repo} {hash : HashOrder}

/-- The name of an image ref leads back to its commit. -/
theorem manifestOfName_display {i : ImageReference} (hname : i.name ≠ "") {ref : String}
    (href : refForImage i = .ok ref) {c : Checksum} (hc : repo.refs[ref]? = some c) :
    manifestOfName repo i.display = manifestOfCommit repo c := by
  rw [manifestOfName, ImageReference.tryFrom_display i hname, bind_ok_eq, manifestForImage, href,
    bind_ok_eq, requireRev_of_escape href, hc, okOr_some, bind_ok_eq]

/-- A stored image is found by the listing, and its manifest by its name. -/
theorem mem_imageManifests (hnamed : ImagesNamed repo) {names : List String}
    (hnames : listImages hash repo = .ok names) {ms : List ImageManifest}
    (hms : names.mapM (manifestOfName repo) = .ok ms) (m : ImageManifest) :
    m ∈ ms ↔ ImageManifestOf repo m := by
  rw [mem_mapM hms]
  constructor
  · rintro ⟨name, hname, hm⟩
    obtain ⟨⟨ref, c⟩, hp, hunescape⟩ := (mem_mapM hnames name).mp hname
    obtain ⟨hc, hunder⟩ := mem_listRefsExt.mp (hash.mem_order.mp hp)
    obtain ⟨i, hi, href⟩ := hnamed ref (ExtTreeMap.mem_iff_lookup.mpr ⟨c, hc⟩) hunder
    obtain rfl : i.display = name :=
      Except.ok.inj ((unprefixUnescapeRef_prefixEscapeForRef href).symm.trans hunescape)
    exact ⟨ref, c, hc, hunder, (manifestOfName_display hi href hc).symm.trans hm⟩
  · rintro ⟨ref, c, hc, hunder, hm⟩
    obtain ⟨i, hi, href⟩ := hnamed ref (ExtTreeMap.mem_iff_lookup.mpr ⟨c, hc⟩) hunder
    refine ⟨i.display, (mem_mapM hnames _).mpr ⟨(ref, c), ?_, ?_⟩, ?_⟩
    · exact hash.mem_order.mpr (mem_listRefsExt.mpr ⟨hc, hunder⟩)
    · exact unprefixUnescapeRef_prefixEscapeForRef href
    · exact (manifestOfName_display hi href hc).trans hm

theorem mem_deploymentCommits {c : Checksum} : c ∈ deploymentCommits hash repo ↔
    ∃ pfx ∈ deploymentPrefixes, ∃ ref, repo.refs[ref]? = some c ∧
      Repo.refUnder pfx ref = true := by
  rw [deploymentCommits, List.mem_dedup, List.mem_map]
  constructor
  · rintro ⟨⟨ref, c'⟩, hmem, rfl⟩
    obtain ⟨pfx, hpfx, hmem⟩ := List.mem_flatMap.mp (hash.mem_order.mp hmem)
    obtain ⟨hc, hunder⟩ := mem_listRefsExt.mp hmem
    exact ⟨pfx, hpfx, ref, hc, hunder⟩
  · rintro ⟨pfx, hpfx, ref, hc, hunder⟩
    refine ⟨(ref, c), hash.mem_order.mpr (List.mem_flatMap.mpr ⟨pfx, hpfx, ?_⟩), rfl⟩
    exact mem_listRefsExt.mpr ⟨hc, hunder⟩

/-- The manifest of a deployment that has a digest. -/
theorem deploymentManifest_some {c : Checksum} {commit : Commit} {m : ImageManifest}
    (hc : repo.commits[c]? = some commit) :
    deploymentManifest repo c = .ok (some m) ↔
      metaManifestDigest ∈ commit.metadata ∧ manifestOfCommit repo c = .ok m := by
  have hof : manifestOfCommit repo c
      = (manifestDataFromCommitmeta commit.metadata).map (·.1) := by
    rw [manifestOfCommit, Repo.loadCommit, hc, okOr_some, bind_ok_eq]
    rfl
  have hlhs : deploymentManifest repo c = (do
      match ← lookupStr commit.metadata metaManifestDigest with
      | none => .ok none
      | some _ => (manifestDataFromCommitmeta commit.metadata).map fun p => some p.1) := by
    rw [deploymentManifest, Repo.loadCommit, hc, okOr_some, bind_ok_eq]
  rw [hlhs, hof]
  cases hdata : manifestDataFromCommitmeta commit.metadata with
  | error e =>
      constructor
      · intro h
        obtain ⟨o, _, h⟩ := result_bind_eq_ok.mp h
        cases o with
        | none => exact absurd h (by simp)
        | some v => exact absurd h (by simp [Except.map])
      · rintro ⟨_, h⟩
        exact absurd h (by simp [Except.map])
  | ok p =>
      obtain ⟨v, hv, hstr⟩ := mem_of_manifestData hdata
      have hlookup : lookupStr commit.metadata metaManifestDigest = .ok (some v) := by
        rw [lookupStr, hv]
        exact if_pos hstr
      rw [hlookup, bind_ok_eq]
      simp only [Except.map, Except.ok.injEq, Option.some.injEq]
      exact ⟨fun h => ⟨ExtTreeMap.mem_iff_lookup.mpr ⟨v, hv⟩, h⟩, fun h => h.2⟩

/-- The manifests that the deployments contribute. -/
theorem mem_deploymentManifests {ms : List ImageManifest}
    (hms : listContainerDeploymentManifests hash repo = .ok ms) (m : ImageManifest) :
    m ∈ ms ↔ DeploymentManifestOf repo m := by
  rw [listContainerDeploymentManifests] at hms
  cases hmap : (deploymentCommits hash repo).mapM (deploymentManifest repo) with
  | error e => rw [hmap] at hms; exact absurd hms (by simp [Except.map])
  | ok os =>
      rw [hmap] at hms
      injection hms with hms
      rw [← hms, List.reduceOption_mem_iff, mem_mapM hmap]
      constructor
      · rintro ⟨c, hc, hm⟩
        obtain ⟨pfx, hpfx, ref, href, hunder⟩ := mem_deploymentCommits.mp hc
        obtain ⟨commit, hcommit, _⟩ := result_bind_eq_ok.mp hm
        have hstored : repo.commits[c]? = some commit := okOr_eq_ok.mp hcommit
        obtain ⟨hmeta, hmanifest⟩ := (deploymentManifest_some hstored).mp hm
        exact ⟨pfx, hpfx, ref, c, commit, href, hunder, hstored, hmeta, hmanifest⟩
      · rintro ⟨pfx, hpfx, ref, c, commit, href, hunder, hstored, hmeta, hmanifest⟩
        refine ⟨c, mem_deploymentCommits.mpr ⟨pfx, hpfx, ref, href, hunder⟩, ?_⟩
        exact (deploymentManifest_some hstored).mpr ⟨hmeta, hmanifest⟩

/-- **The collected digests** are the referenced ones. -/
theorem mem_referencedLayers (hnamed : ImagesNamed repo) {s : ExtTreeSet Digest}
    (hs : referencedLayers hash repo = .ok s) (d : Digest) : d ∈ s ↔ Referenced repo d := by
  obtain ⟨names, hnames, hs⟩ := result_bind_eq_ok.mp hs
  obtain ⟨deployed, hdeployed, hs⟩ := result_bind_eq_ok.mp hs
  obtain ⟨images, himages, hs⟩ := result_bind_eq_ok.mp hs
  injection hs with hs
  rw [← hs, ExtTreeSet.mem_ofList, List.contains_iff_mem, List.mem_flatMap]
  constructor
  · rintro ⟨m, hm, hd⟩
    obtain ⟨l, hl, hd⟩ := List.mem_map.mp hd
    refine ⟨m, ?_, l, hl, hd⟩
    exact (List.mem_append.mp hm).imp (mem_imageManifests hnamed hnames himages m).mp
      (mem_deploymentManifests hdeployed m).mp
  · rintro ⟨m, hm, l, hl, hd⟩
    refine ⟨m, List.mem_append.mpr ?_, List.mem_map.mpr ⟨l, hl, hd⟩⟩
    exact hm.imp (mem_imageManifests hnamed hnames himages m).mpr
      (mem_deploymentManifests hdeployed m).mpr

/-- Nothing stops the collection. -/
theorem GcReady.referencedLayers_ok (h : GcReady repo) (hash : HashOrder) :
    ∃ s, referencedLayers hash repo = .ok s := by
  have hlist : ∃ names, listImages hash repo = .ok names := by
    refine mapM_exists ?_
    rintro ⟨ref, c⟩ hp
    obtain ⟨hc, hunder⟩ := mem_listRefsExt.mp (hash.mem_order.mp hp)
    obtain ⟨i, _, href⟩ := h.images ref (ExtTreeMap.mem_iff_lookup.mpr ⟨c, hc⟩) hunder
    exact ⟨i.display, unprefixUnescapeRef_prefixEscapeForRef href⟩
  obtain ⟨names, hnames⟩ := hlist
  have hdeploy : ∃ os, (deploymentCommits hash repo).mapM (deploymentManifest repo) = .ok os := by
    refine mapM_exists ?_
    intro c hc
    obtain ⟨pfx, hpfx, ref, href, hunder⟩ := mem_deploymentCommits.mp hc
    obtain ⟨commit, hcommit⟩ :=
      ExtTreeMap.mem_iff_lookup.mp (h.deployed pfx hpfx ref c href hunder)
    by_cases hmeta : metaManifestDigest ∈ commit.metadata
    · obtain ⟨m, hm⟩ := h.carried c commit hcommit hmeta
      exact ⟨some m, (deploymentManifest_some hcommit).mpr ⟨hmeta, hm⟩⟩
    · refine ⟨none, ?_⟩
      have hnone : commit.metadata[metaManifestDigest]? = none := ExtTreeMap.getElem?_eq_none hmeta
      rw [deploymentManifest, Repo.loadCommit, hcommit, okOr_some, bind_ok_eq, lookupStr, hnone]
      rfl
  obtain ⟨os, hos⟩ := hdeploy
  have hmanifests : ∃ ms, names.mapM (manifestOfName repo) = .ok ms := by
    refine mapM_exists ?_
    intro name hname
    obtain ⟨⟨ref, c⟩, hp, hunescape⟩ := (mem_mapM hnames name).mp hname
    obtain ⟨hc, hunder⟩ := mem_listRefsExt.mp (hash.mem_order.mp hp)
    obtain ⟨i, hi, href⟩ := h.images ref (ExtTreeMap.mem_iff_lookup.mpr ⟨c, hc⟩) hunder
    obtain rfl : i.display = name :=
      Except.ok.inj ((unprefixUnescapeRef_prefixEscapeForRef href).symm.trans hunescape)
    rw [manifestOfName_display hi href hc]
    exact h.readable ref c hc hunder
  obtain ⟨ms, hms⟩ := hmanifests
  have hdeployed : listContainerDeploymentManifests hash repo = .ok os.reduceOption := by
    rw [listContainerDeploymentManifests, hos]
    rfl
  rw [referencedLayers, hnames, bind_ok_eq, hdeployed, bind_ok_eq, hms]
  exact ⟨_, rfl⟩

end Reading

-- ── The whole run ─────────────────────────────────────────────────────────────

/-- Refs of layers go away, and nothing else changes. -/
structure Unlinks (r r' : Repo) : Prop where
  objects : r'.toObjects = r.toObjects
  commitmetas : r'.commitmetas = r.commitmetas
  refs : ∀ ref, r'.refs[ref]? = r.refs[ref]? ∨
    Repo.refUnder layerPrefix ref = true ∧ r'.refs[ref]? = none

theorem Unlinks.refl (r : Repo) : Unlinks r r := ⟨rfl, rfl, fun _ => .inl rfl⟩

theorem Unlinks.trans (a b c : Repo) (h : Unlinks a b) (h' : Unlinks b c) : Unlinks a c where
  objects := h'.objects.trans h.objects
  commitmetas := h'.commitmetas.trans h.commitmetas
  refs ref := by
    rcases h'.refs ref with heq | hgone
    · rcases h.refs ref with heq' | ⟨hunder, hnone⟩
      · exact .inl (heq.trans heq')
      · exact .inr ⟨hunder, heq.trans hnone⟩
    · exact .inr hgone

theorem Unlinks.erase (r : Repo) {ref : String} (h : Repo.refUnder layerPrefix ref = true) :
    Unlinks r (finalState (Repo.setRef ref none r)) where
  objects := rfl
  commitmetas := rfl
  refs ref' := by
    show (r.refs.erase ref)[ref']? = r.refs[ref']? ∨ _ ∧ (r.refs.erase ref)[ref']? = none
    rw [ExtTreeMap.lookup_erase]
    by_cases heq : ref = ref'
    · exact .inr ⟨heq ▸ h, if_pos heq⟩
    · exact .inl (if_neg heq)

theorem pruneLayers_unlinks {found : List (String × Checksum)}
    (h : ∀ p ∈ found, Repo.refUnder layerPrefix p.1 = true) (referenced : ExtTreeSet Digest)
    (n : Nat) : Steps Unlinks (pruneLayers found referenced n) := by
  induction found generalizing referenced n with
  | nil => exact Steps.pure Unlinks.refl n
  | cons p found ih =>
      obtain ⟨layerRef, c⟩ := p
      have hrest := ih (fun q hq => h q (List.mem_cons_of_mem _ hq))
      rw [pruneLayers]
      have hread : Steps Unlinks (liftR (unprefixUnescapeRef layerPrefix layerRef) : RepoM Digest) := by
        intro r
        cases unprefixUnescapeRef layerPrefix layerRef <;> exact Unlinks.refl r
      refine Steps.bind Unlinks.trans hread (fun d => ?_)
      split
      · exact hrest _ n
      · exact Steps.bind Unlinks.trans (fun r => Unlinks.erase r (h _ (List.mem_cons_self ..)))
          (fun _ => hrest referenced (n + 1))

/-- **Whatever stops it**, the garbage collection removes refs of layers only. -/
theorem gcImageLayers_unlinks (hash : HashOrder) : Steps Unlinks (gcImageLayers hash) := by
  intro r
  rw [gcImageLayers, bind_of_ok (get_run r)]
  cases referencedLayers hash r with
  | error e => exact Unlinks.refl r
  | ok s =>
      exact pruneLayers_unlinks (fun p hp => (mem_listRefsExt.mp (hash.mem_order.mp hp)).2) s 0 r

section Collect

variable {repo : Repo} {hash : HashOrder}

/-- Every blob ref is that of an escaped text. -/
def BlobsUnescape (repo : Repo) : Prop :=
  ∀ ref ∈ repo.refs, Repo.refUnder layerPrefix ref = true →
    ∃ d, unprefixUnescapeRef layerPrefix ref = .ok d

theorem BlobsNamed.unescape (h : BlobsNamed repo) : BlobsUnescape repo := by
  intro ref hin hunder
  obtain ⟨d, hd⟩ := h ref hin hunder
  exact ⟨d, unprefixUnescapeRef_prefixEscapeForRef hd⟩

/-- What the loop of the garbage collection goes over. -/
theorem mem_order_listRefsExt {ref : String} :
    ref ∈ (hash.order (repo.listRefsExt layerPrefix)).map (·.1) ↔
      ref ∈ repo.refs ∧ Repo.refUnder layerPrefix ref = true := by
  rw [((hash.perm (repo.listRefsExt layerPrefix)).map _).mem_iff]
  exact mem_refs_listRefsExt

theorem nodup_order_listRefsExt (hash : HashOrder) (repo : Repo) :
    ((hash.order (repo.listRefsExt layerPrefix)).map (·.1)).Nodup :=
  ((hash.perm (repo.listRefsExt layerPrefix)).map _).nodup_iff.mpr
    (nodup_listRefsExt repo layerPrefix)

/-- **One run of the garbage collection** that got past the collecting phase. -/
theorem gcImageLayers_spares (hblobs : BlobsUnescape repo) {s : ExtTreeSet Digest}
    (hs : referencedLayers hash repo = .ok s) :
    ∃ gone : List String, gcImageLayers hash repo
        = .ok gone.length { repo with refs := repo.refs.eraseAll gone } ∧
      gone.Nodup ∧ (∀ ref ∈ gone, ref ∈ repo.refs ∧ Repo.refUnder layerPrefix ref = true) ∧
      ∀ ref ∈ repo.refs, Repo.refUnder layerPrefix ref = true →
        (ref ∈ gone ↔ ¬ Spared (hash.order (repo.listRefsExt layerPrefix)) s ref) := by
  have hunescape : ∀ p ∈ hash.order (repo.listRefsExt layerPrefix),
      ∃ d, unprefixUnescapeRef layerPrefix p.1 = .ok d := by
    intro p hp
    obtain ⟨hin, hunder⟩ := mem_order_listRefsExt.mp (List.mem_map_of_mem hp)
    exact hblobs p.1 hin hunder
  obtain ⟨gone, hrun, hsub, hiff⟩ :=
    pruneLayers_spares (nodup_order_listRefsExt hash repo) hunescape s 0 repo
  refine ⟨gone, ?_, hsub.nodup (nodup_order_listRefsExt hash repo),
    fun ref hg => mem_order_listRefsExt.mp (hsub.subset hg), ?_⟩
  · rw [gcImageLayers, bind_of_ok (get_run repo), hs, bind_of_ok (liftR_ok _ _), hrun, Nat.zero_add]
  · exact fun ref hin hunder => hiff ref (mem_order_listRefsExt.mpr ⟨hin, hunder⟩)

/-- What has to be in order for the garbage collection to be done. -/
theorem gcImageLayers_ok {n : Nat} {r' : Repo} (h : gcImageLayers hash repo = .ok n r') :
    BlobsUnescape repo ∧ ∃ s, referencedLayers hash repo = .ok s := by
  obtain ⟨repo, r₁, hget, h₁⟩ := bind_ok h
  cases hget
  obtain ⟨s, r₂, hs, h₂⟩ := bind_ok h₁
  obtain ⟨hs, rfl⟩ := liftR_eq_ok hs
  refine ⟨fun ref hin hunder => ?_, s, hs⟩
  obtain ⟨p, hp, rfl⟩ := List.mem_map.mp (mem_order_listRefsExt.mpr ⟨hin, hunder⟩)
  exact pruneLayers_ok h₂ p hp

/-- Where blob refs are those of digests, the digests decide. -/
theorem gcImageLayers_run (hblobs : BlobsNamed repo) {s : ExtTreeSet Digest}
    (hs : referencedLayers hash repo = .ok s) :
    ∃ gone : List String, gcImageLayers hash repo
        = .ok gone.length { repo with refs := repo.refs.eraseAll gone } ∧
      gone.Nodup ∧ (∀ ref ∈ gone, ref ∈ repo.refs ∧ Repo.refUnder layerPrefix ref = true) ∧
      ∀ d ref, refForBlobDigest d = .ok ref → ref ∈ repo.refs → (ref ∈ gone ↔ d ∉ s) := by
  obtain ⟨gone, hrun, hnodup, hgone, hiff⟩ := gcImageLayers_spares hblobs.unescape hs
  refine ⟨gone, hrun, hnodup, hgone, fun d ref href hin => ?_⟩
  have hunder : Repo.refUnder layerPrefix ref = true := refUnder_of_escape href
  rw [hiff ref hin hunder, not_iff_not]
  refine spared_iff (nodup_order_listRefsExt hash repo) (fun p hp => ?_) href
    (mem_order_listRefsExt.mpr ⟨hin, hunder⟩)
  obtain ⟨hin', hunder'⟩ := mem_order_listRefsExt.mp (List.mem_map_of_mem hp)
  exact hblobs p.1 hin' hunder'

end Collect

/-- The namespaces that the collection reads do not meet the one it prunes. -/
theorem refUnder_disjoint {pfx ref : String} (hpfx : pfx ∈ imagePrefix :: deploymentPrefixes)
    (h : Repo.refUnder pfx ref = true) : Repo.refUnder layerPrefix ref = false := by
  have hall : ∀ p ∈ imagePrefix :: deploymentPrefixes,
      Repo.refUnder p layerPrefix = false ∧ Repo.refUnder layerPrefix p = false := by decide
  obtain ⟨h₁, h₂⟩ := hall pfx hpfx
  cases hl : Repo.refUnder layerPrefix ref with
  | false => rfl
  | true =>
      rcases refUnder_comparable h hl with hc | hc
      · exact absurd (hc.symm.trans h₁) (by simp)
      · exact absurd (hc.symm.trans h₂) (by simp)

/-- Repositories with the same commits, and the same refs outside of the blobs. -/
structure SameRoots (r r' : Repo) : Prop where
  commits : r'.commits = r.commits
  refs : ∀ ref, Repo.refUnder layerPrefix ref = false → r'.refs[ref]? = r.refs[ref]?

section SameRoots

variable {r r' : Repo}

theorem SameRoots.symm (h : SameRoots r r') : SameRoots r' r :=
  ⟨h.commits.symm, fun ref hr => (h.refs ref hr).symm⟩

theorem SameRoots.manifestOfCommit (h : SameRoots r r') (c : Checksum) :
    manifestOfCommit r' c = manifestOfCommit r c := by
  rw [Store.manifestOfCommit, Store.manifestOfCommit, Repo.loadCommit, Repo.loadCommit, h.commits]

/-- What is referenced is a matter of the other refs. -/
theorem SameRoots.referenced (h : SameRoots r r') {d : Digest} (hd : Referenced r d) :
    Referenced r' d := by
  obtain ⟨m, hm, hlayer⟩ := hd
  refine ⟨m, ?_, hlayer⟩
  rcases hm with ⟨ref, c, hc, hunder, hm⟩ | ⟨pfx, hpfx, ref, c, commit, hc, hunder, hcommit, hm⟩
  · refine .inl ⟨ref, c, ?_, hunder, (h.manifestOfCommit c).trans hm⟩
    rw [h.refs ref (refUnder_disjoint (List.mem_cons_self ..) hunder)]
    exact hc
  · refine .inr ⟨pfx, hpfx, ref, c, commit, ?_, hunder, ?_, hm.1,
      (h.manifestOfCommit c).trans hm.2⟩
    · rw [h.refs ref (refUnder_disjoint (List.mem_cons_of_mem _ hpfx) hunder)]
      exact hc
    · rw [h.commits]
      exact hcommit

theorem SameRoots.gcReady (h : SameRoots r r') (hblobs : BlobsNamed r') (hr : GcReady r) :
    GcReady r' where
  blobs := hblobs
  images ref hin hunder := by
    obtain ⟨c, hc⟩ := ExtTreeMap.mem_iff_lookup.mp hin
    rw [h.refs ref (refUnder_disjoint (List.mem_cons_self ..) hunder)] at hc
    exact hr.images ref (ExtTreeMap.mem_iff_lookup.mpr ⟨c, hc⟩) hunder
  readable ref c hc hunder := by
    rw [h.refs ref (refUnder_disjoint (List.mem_cons_self ..) hunder)] at hc
    rw [h.manifestOfCommit]
    exact hr.readable ref c hc hunder
  carried c commit hc hmeta := by
    rw [h.commits] at hc
    rw [h.manifestOfCommit]
    exact hr.carried c commit hc hmeta
  deployed pfx hpfx ref c hc hunder := by
    rw [h.refs ref (refUnder_disjoint (List.mem_cons_of_mem _ hpfx) hunder)] at hc
    rw [h.commits]
    exact hr.deployed pfx hpfx ref c hc hunder

end SameRoots

/-- The refs of `r` that `r'` does not have. -/
def removedRefs (r r' : Repo) : List String := (r.refs.toList.map (·.1)).filter (· ∉ r'.refs)

/-- Erasing some refs removes these, each once. -/
theorem length_removedRefs {repo : Repo} {gone : List String} (hnodup : gone.Nodup)
    (hin : ∀ ref ∈ gone, ref ∈ repo.refs) :
    (removedRefs repo { repo with refs := repo.refs.eraseAll gone }).length = gone.length := by
  refine List.Perm.length_eq ?_
  rw [removedRefs, List.perm_ext_iff_of_nodup
    ((ExtTreeMap.nodup_keys_toList repo.refs).filter _) hnodup]
  intro ref
  have hnot : ref ∉ repo.refs.eraseAll gone ↔ ref ∈ gone ∨ ref ∉ repo.refs := by
    rw [ExtTreeMap.mem_iff_lookup, ExtTreeMap.mem_iff_lookup, ExtTreeMap.lookup_eraseAll]
    by_cases hg : ref ∈ gone
    · simp [hg]
    · simp [hg]
  rw [List.mem_filter, ← ExtTreeMap.mem_iff_mem_keys_toList, decide_eq_true_iff, hnot]
  constructor
  · exact fun hg => hg.2.resolve_right (fun hn => hn hg.1)
  · exact fun hg => ⟨hin ref hg, .inl hg⟩

/-- Garbage collection removes the layers that nothing refers to. -/
theorem gcImageLayers_live {repo : Repo} (h : GcReady repo) (hash : HashOrder) :
    ∃ gone : List String, gcImageLayers hash repo
        = .ok gone.length { repo with refs := repo.refs.eraseAll gone } ∧
      gone.Nodup ∧ (∀ ref ∈ gone, ref ∈ repo.refs ∧ Repo.refUnder layerPrefix ref = true) ∧
      ∀ ref c, Repo.refUnder layerPrefix ref = true → ((repo.refs.eraseAll gone)[ref]? = some c ↔
        repo.refs[ref]? = some c ∧ ∃ d, refForBlobDigest d = .ok ref ∧ Referenced repo d) := by
  obtain ⟨s, hs⟩ := h.referencedLayers_ok hash
  obtain ⟨gone, hrun, hnodup, hgone, hiff⟩ := gcImageLayers_run h.blobs hs
  refine ⟨gone, hrun, hnodup, hgone, ?_⟩
  intro ref c hunder
  rw [ExtTreeMap.lookup_eraseAll]
  constructor
  · intro hc
    by_cases hg : ref ∈ gone
    · rw [if_pos hg] at hc
      exact absurd hc (by simp)
    · rw [if_neg hg] at hc
      have hin : ref ∈ repo.refs := ExtTreeMap.mem_iff_lookup.mpr ⟨c, hc⟩
      obtain ⟨d, hd⟩ := h.blobs ref hin hunder
      have hds : d ∈ s := not_not.mp (fun hn => hg ((hiff d ref hd hin).mpr hn))
      exact ⟨hc, d, hd, (mem_referencedLayers h.images hs d).mp hds⟩
  · rintro ⟨hc, d, hd, href⟩
    have hin : ref ∈ repo.refs := ExtTreeMap.mem_iff_lookup.mpr ⟨c, hc⟩
    have hg : ref ∉ gone := fun hg =>
      (hiff d ref hd hin).mp hg ((mem_referencedLayers h.images hs d).mpr href)
    rw [if_neg hg]
    exact hc

/-- Where every layer is referenced, nothing is removed. -/
theorem gcImageLayers_nothing {repo : Repo} (h : GcReady repo) (hash : HashOrder)
    (hall : ∀ ref ∈ repo.refs, Repo.refUnder layerPrefix ref = true →
      ∃ d, refForBlobDigest d = .ok ref ∧ Referenced repo d) :
    gcImageLayers hash repo = .ok 0 repo := by
  obtain ⟨gone, hrun, _, hgone, hblob⟩ := gcImageLayers_live h hash
  have hempty : gone = [] := by
    rw [List.eq_nil_iff_forall_not_mem]
    intro ref hg
    obtain ⟨hin, hunder⟩ := hgone ref hg
    obtain ⟨c, hc⟩ := ExtTreeMap.mem_iff_lookup.mp hin
    have hkept := (hblob ref c hunder).mpr ⟨hc, hall ref hin hunder⟩
    rw [ExtTreeMap.lookup_eraseAll, if_pos hg] at hkept
    exact absurd hkept (by simp)
  rw [hrun, hempty]
  rfl

/-- An image with a single layer. -/
def sampleLayer : Descriptor :=
  { mediaType := .imageLayerGzip, digest := "sha256:" ++ emptyTreeSum, size := 1024 }

def sampleManifest : ImageManifest where
  config := { mediaType := .imageConfig, digest := "sha256:" ++ sampleMetaSum, size := 512 }
  layers := [sampleLayer]

def sampleImage : ImageReference := { transport := .registry, name := "quay.io/os" }

/-- The metadata of a merge commit. -/
def sampleMergeCommit : Commit where
  metadata := ((∅ : Dict).insert metaManifestDigest (.digest ("sha256:" ++ emptySha256))).insert
    metaManifest (.manifest sampleManifest)
  contents := sampleTreeSum
  dirmeta := sampleMetaSum

/-- The refs of the image, of its layer, and of a layer that no image has. -/
def sampleRefs : List (String × Checksum) :=
  [("ostree/container/blob/sha256_3A_" ++ emptyTreeSum, sampleCommitSum),
   ("ostree/container/blob/sha256_3A_" ++ sampleTreeSum, sampleCommitSum),
   ("ostree/container/image/docker_3A__2F__2F_quay_2E_io/os", chunkCommitSum)]

/-- A repository with one stored image and one layer too many. -/
def sampleStore : Repo where
  commits := ((∅ : ExtTreeMap Checksum Commit).insert sampleCommitSum sampleCommit).insert
    chunkCommitSum sampleMergeCommit
  refs := .ofList sampleRefs

theorem refForImage_sample :
    refForImage sampleImage = .ok "ostree/container/image/docker_3A__2F__2F_quay_2E_io/os" := by
  decide +kernel

theorem refForLayer_sample :
    refForLayer sampleLayer = .ok ("ostree/container/blob/sha256_3A_" ++ emptyTreeSum) := by
  decide +kernel

theorem sampleStore_mergeCommit : sampleStore.commits[chunkCommitSum]? = some sampleMergeCommit := by
  rw [sampleStore, ExtTreeMap.lookup_insert, if_pos rfl]

/-- A store with these two commits, of which only the merge commit has a manifest. -/
theorem gcReady_of_refs {r : Repo} (hcommits : r.commits = sampleStore.commits)
    (refs : List (String × Checksum)) (hrefs : r.refs.toList = refs)
    (hblobs : ∀ p ∈ refs, Repo.refUnder layerPrefix p.1 = true → ∃ d, refForBlobDigest d = .ok p.1)
    (himages : ∀ p ∈ refs, Repo.refUnder imagePrefix p.1 = true → p.2 = chunkCommitSum ∧
      ∃ i : ImageReference, i.name ≠ "" ∧ refForImage i = .ok p.1)
    (hdeployed : ∀ pfx ∈ deploymentPrefixes, ∀ p ∈ refs, Repo.refUnder pfx p.1 = false) :
    GcReady r := by
  have hmem : ∀ {ref : String} {c : Checksum}, r.refs[ref]? = some c → (ref, c) ∈ refs := by
    intro ref c h
    rw [← hrefs]
    exact ExtTreeMap.mem_toList_iff.mpr h
  have hmanifest : manifestOfCommit r chunkCommitSum = .ok sampleManifest := by
    rw [manifestOfCommit, Repo.loadCommit, hcommits, sampleStore_mergeCommit]
    decide +kernel
  constructor
  · intro ref hin hunder
    obtain ⟨c, hc⟩ := ExtTreeMap.mem_iff_lookup.mp hin
    exact hblobs _ (hmem hc) hunder
  · intro ref hin hunder
    obtain ⟨c, hc⟩ := ExtTreeMap.mem_iff_lookup.mp hin
    exact (himages _ (hmem hc) hunder).2
  · intro ref c hc hunder
    obtain rfl : c = chunkCommitSum := (himages _ (hmem hc) hunder).1
    exact ⟨_, hmanifest⟩
  · intro c commit hc hmeta
    rw [hcommits, sampleStore, ExtTreeMap.lookup_insert] at hc
    by_cases h : chunkCommitSum = c
    · subst h
      exact ⟨_, hmanifest⟩
    · rw [if_neg h, ExtTreeMap.lookup_insert] at hc
      by_cases h' : sampleCommitSum = c
      · rw [if_pos h'] at hc
        obtain rfl := Option.some.inj hc
        exact absurd hmeta (by decide)
      · rw [if_neg h', ExtTreeMap.lookup_empty] at hc
        exact absurd hc (by simp)
  · intro pfx hpfx ref c hc hunder
    exact absurd (hunder.symm.trans (hdeployed pfx hpfx _ (hmem hc))) (by simp)

theorem manifestOfCommit_sample : manifestOfCommit sampleStore chunkCommitSum = .ok sampleManifest := by
  rw [manifestOfCommit, Repo.loadCommit, sampleStore_mergeCommit]
  decide +kernel

theorem refForBlobDigest_emptyTree :
    refForBlobDigest ("sha256:" ++ emptyTreeSum) = .ok ("ostree/container/blob/sha256_3A_" ++ emptyTreeSum) :=
  refForLayer_sample

theorem refForBlobDigest_sampleTree :
    refForBlobDigest ("sha256:" ++ sampleTreeSum)
      = .ok ("ostree/container/blob/sha256_3A_" ++ sampleTreeSum) := by
  decide +kernel

theorem gcReady_sampleStore : GcReady sampleStore := by
  refine gcReady_of_refs rfl sampleRefs (by decide +kernel) ?_ ?_ (by decide +kernel)
  · intro p hp hunder
    simp only [sampleRefs, List.mem_cons, List.not_mem_nil, or_false] at hp
    rcases hp with rfl | rfl | rfl
    · exact ⟨_, refForBlobDigest_emptyTree⟩
    · exact ⟨_, refForBlobDigest_sampleTree⟩
    · exact absurd hunder (by decide +kernel)
  · have hall : ∀ p ∈ sampleRefs, Repo.refUnder imagePrefix p.1 = true →
        p.2 = chunkCommitSum ∧ refForImage sampleImage = .ok p.1 := by decide +kernel
    exact fun p hp hunder => ⟨(hall p hp hunder).1, sampleImage, by decide, (hall p hp hunder).2⟩

/-- Iteration in the order of the names. -/
def HashOrder.sorted : HashOrder := ⟨fun l => l, fun l => .refl l⟩

end OstreeExt.Store
