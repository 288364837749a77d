import OstreeExt.ImageOrigin
import OstreeExt.Store.Copy

/-!
# The commands of a system root

A system root has a repository and deployments.  The commands that work on its images are run one
after the other: they pull an image, remove some, prune, copy one from another repository,
or deploy one.  `deploy` pulls an image and writes a deployment that has it in its origin.

What libostree does with deployments is a parameter with its documented frame: it writes the refs
below `ostree/0` and `ostree/1`, and deletes objects that have no ref.  Output on the terminal is
left out, but for the warnings that can fail.
-/

namespace OstreeExt

open Std Exec Store

/-- The system root.  `booted` is the stateroot of the booted deployment. -/
structure Sysroot where
  repo : Repo := {}
  deployments : List Deployment := []
  booted : Option String := none

abbrev SysrootM := EStateM Stop Sysroot

/-- Something that is done to the repository. -/
def inRepo {α : Type} (x : RepoM α) : SysrootM α := fun s =>
  match x s.repo with
  | .ok a r => .ok a { s with repo := r }
  | .error e r => .error e { s with repo := r }

namespace Sysroot

/-- The refs of deployments. -/
def IsDeploymentRef (ref : String) : Prop :=
  ∃ pfx ∈ ostreeBaseDeploymentRefs, Repo.refUnder pfx ref = true

/-- Deployments that are there now were there before, or are new ones.  Of the refs, only those of
    deployments have changed, and the commits that the other ones name are as they were. -/
structure Settles (new : Deployment → Prop) (s s' : Sysroot) : Prop where
  deployments : ∀ d ∈ s'.deployments, d ∈ s.deployments ∨ new d
  refs : ∀ ref, ¬ IsDeploymentRef ref → s'.repo.refs[ref]? = s.repo.refs[ref]?
  commits : ∀ (ref : String) (c : Checksum), ¬ IsDeploymentRef ref → s.repo.refs[ref]? = some c →
    s'.repo.commits[c]? = s.repo.commits[c]?

/-- `ostree::Sysroot`, as far as it writes, done or failed. -/
structure SysrootWriter where
  /-- `deploy_tree_with_options`: the tree is not in the list of deployments yet. -/
  deployTree : String → Checksum → KeyFile → Option (List String) → SysrootM Deployment
  /-- `stage_tree_with_options` -/
  stageTree : String → Checksum → KeyFile → Option (List String) → SysrootM Deployment
  /-- `simple_write_deployment`, with the flag `NO_CLEAN` or without. -/
  simpleWriteDeployment : String → Deployment → Bool → SysrootM Unit
  /-- `cleanup` -/
  cleanup : SysrootM Unit
  deployTree_settles : ∀ stateroot c origin kargs s,
    Settles (fun _ => False) s (finalState (deployTree stateroot c origin kargs s))
  deployTree_origin : ∀ stateroot c origin kargs s d s',
    deployTree stateroot c origin kargs s = .ok d s' → d.origin = some origin
  stageTree_settles : ∀ stateroot c origin kargs s, Settles (fun d => d.origin = some origin) s
    (finalState (stageTree stateroot c origin kargs s))
  simpleWriteDeployment_settles : ∀ stateroot d noClean s, Settles (fun d' => d' = d) s
    (finalState (simpleWriteDeployment stateroot d noClean s))
  cleanup_settles : ∀ s, Settles (fun _ => False) s (finalState (cleanup s))

/-- What is the same for all commands. -/
structure Machine where
  host : Host
  lib : Libostree
  /-- `ostree::check_version(2024, 3)` -/
  ostreeV20243 : Bool
  objects : ObjectPruner
  pull : LocalPull
  writer : SysrootWriter
  /-- The receiver of the progress of an import. -/
  printer : ImportProgress → Result Unit
  /-- The iteration order of the counts in a warning. -/
  countOrder : List (String × Nat) → List (String × Nat)
  /-- A file with a manifest is replaced. -/
  writeManifest : String → ImageManifest → Result Unit
  /-- A file with a checksum is written. -/
  writeCommitid : String → Checksum → Result Unit

/-- `ImageProxy::new_with_config` and `open_image`, as they answer at some time. -/
abbrev Registry := String → Result ImageProxy

/-- `ImageImporter::new` -/
def ImageImporter.new (registry : Registry) (ostreeV20243 : Bool) (imgref : OstreeImageReference) :
    Result ImageImporter := do
  let proxy ← registry imgref.imgref.display
  .ok { proxy, imgref, ostreeV20243 }

-- ── Warnings ──────────────────────────────────────────────────────────────────

/-- `lookup::<MetaFilteredData>` -/
def lookupFiltered (commitMeta : Dict) : Result (Option MetaFilteredData) :=
  match commitMeta[metaFiltered]? with
  | none => .ok none
  | some (.filtered f) => .ok (some f)
  | some _ => .error (.err "Mismatched type")

/-- The filtered paths per toplevel, of all layers together.  The counts are natural numbers: there
    are never more than `u32` paths. -/
def filteredCounts (data : MetaFilteredData) : ExtTreeMap String Nat :=
  (data.toList.flatMap fun p => p.2.toList).foldl
    (fun filtered p => filtered.insert p.1 (filtered[p.1]?.getD 0 + p.2)) ∅

/-- `image_filtered_content_warning` -/
def imageFilteredContentWarning (order : List (String × Nat) → List (String × Nat)) (repo : Repo)
    (image : ImageReference) : Result (Option String) := do
  let ostreeRef ← refForImage image
  let rev ← repo.requireRev ostreeRef
  let commitObj ← repo.loadCommit rev
  let filtered ← lookupFiltered commitObj.metadata
  .ok ((filtered.filter fun f => ¬ f.isEmpty).map fun f =>
    (order (filteredCounts f).toList).foldl
      (fun buf p => buf ++ " " ++ p.1 ++ ": " ++ toString p.2)
      "Image contains non-ostree compatible file paths:")

-- ── Pulling ───────────────────────────────────────────────────────────────────

section Definitions

variable (m : Machine)

/-- The importer that `container_store` uses, with its receiver of progress. -/
def pullImporter (imp : ImageImporter) (quiet : Bool) : ImageImporter :=
  { imp with layerProgress := if quiet then none else some m.printer }

/-- `container_store` -/
def containerStore (registry : Registry) (imgref : OstreeImageReference) (quiet : Bool)
    (check : Option String) : RepoM Unit := do
  let imp ← liftR (ImageImporter.new registry m.ostreeV20243 imgref)
  match ← imp.prepare m.host with
  | .alreadyPresent _ => pure ()
  | .ready prep =>
      match check with
      | some path =>
          -- the path is taken as relative to the root directory
          liftR (m.writeManifest (String.ofList (path.toList.dropWhile (· = '/'))) prep.manifest)
      | none => do
          let _ ← (pullImporter m imp quiet).importImage m.host m.lib prep
          let _ ← liftR (imageFilteredContentWarning m.countOrder (← get) imgref.imgref)
          pure ()

/-- `container_import` -/
def containerImport (registry : Registry) (imgref : OstreeImageReference)
    (writeRef : Option String) : RepoM Unit := do
  let importer ← liftR (ImageImporter.new registry m.ostreeV20243 imgref)
  let imported ← importer.unencapsulate m.host m.lib
  match writeRef with
  | some writeRef => Repo.setRef writeRef (some imported.ostreeCommit)
  | none => pure ()

-- ── Removing ──────────────────────────────────────────────────────────────────

/-- The loop of `remove_images`: it goes on where an image is not found. -/
def removeEach : List ImageReference → List ImageReference → RepoM (List ImageReference)
  | [], missing => pure missing
  | img :: imgs, missing => do
      let found ← removeImage img
      removeEach imgs (if found then missing else missing ++ [img])

/-- `remove_images` -/
def removeImages (imgs : List ImageReference) : RepoM Unit := do
  let missing ← removeEach imgs []
  if missing ≠ [] then
    let missing := missing.foldl (fun a v => a ++ v.display) ""
    throw (.err ("Missing images: " ++ missing))
  else pure ()

/-- `container image remove` -/
def containerRemove (imgrefs : List ImageReference) (skipGc : Bool) : RepoM Unit := do
  removeImages imgrefs
  if skipGc then pure ()
  else
    let _ ← gcImageLayers m.host.hash
    pure ()

/-- `container image prune-images` -/
def containerPruneImages (andLayers full : Bool) : SysrootM Unit := do
  let deployments := (← get).deployments
  if full then
    let _ ← inRepo (prune m.host.hash m.objects deployments)
    pure ()
  else
    let removed ← inRepo (removeUndeployedImages m.host.hash deployments)
    -- with nothing removed it ends here
    if removed ≠ [] ∧ andLayers = true then
      let _ ← inRepo (gcImageLayers m.host.hash)
      pure ()
    else pure ()

-- ── Deploying ─────────────────────────────────────────────────────────────────

/-- `DeployOpts` -/
structure DeployOpts where
  kargs : Option (List String) := none
  targetImgref : Option OstreeImageReference := none
  noImgref : Bool := false
  noClean : Bool := false

/-- What is deployed, and under which reference it is stored. -/
def DeployOpts.target (options : DeployOpts) (imgref : OstreeImageReference) :
    OstreeImageReference :=
  options.targetImgref.getD imgref

/-- The importer that `deploy` uses. -/
def deployImporter (imp : ImageImporter) (options : DeployOpts) : ImageImporter :=
  { imp with
    requireBootable := true, targetImgref := options.targetImgref, noImgref := options.noImgref }

/-- The image in the repository, from where it was or after an import. -/
def deployPull (registry : Registry) (imgref : OstreeImageReference) (options : DeployOpts) :
    RepoM LayeredImageState := do
  let imp ← liftR (ImageImporter.new registry m.ostreeV20243 imgref)
  let imp := deployImporter imp options
  match ← imp.prepare m.host with
  | .alreadyPresent state => pure state
  | .ready prep => imp.importImage m.host m.lib prep

/-- The deployment of the image.  It is merged with the one that the stateroot has. -/
def deployWrite (stateroot : String) (imgref : OstreeImageReference) (options : DeployOpts)
    (state : LayeredImageState) : SysrootM LayeredImageState := do
  let commit := state.mergeCommit
  let origin := originOf (options.target imgref).display
  if (← get).booted.isSome then
    let _ ← m.writer.stageTree stateroot commit origin options.kargs
    pure state
  else
    let deployment ← m.writer.deployTree stateroot commit origin options.kargs
    m.writer.simpleWriteDeployment stateroot deployment options.noClean
    if options.noClean then pure state
    else
      m.writer.cleanup
      pure state

/-- `deploy` -/
def deploy (stateroot : String) (registry : Registry) (imgref : OstreeImageReference)
    (options : DeployOpts) : SysrootM LayeredImageState := do
  let state ← inRepo (deployPull m registry imgref options)
  deployWrite m stateroot imgref options state

/-- `STATEROOT_DEFAULT` -/
def staterootDefault : String := "default"

/-- The arguments of `container image deploy`. -/
structure DeployArgs where
  stateroot : Option String := none
  imgref : Option String := none
  image : Option String := none
  transport : Option String := none
  enforceContainerSigpolicy : Bool := false
  ostreeRemote : Option String := none
  targetImgref : Option OstreeImageReference := none
  noImgref : Bool := false
  karg : Option (List String) := none
  writeCommitidTo : Option String := none

/-- The image that is to be deployed. -/
def DeployArgs.imageRef (args : DeployArgs) : Result OstreeImageReference := do
  -- verification by the policy is off, unless it is asked for
  let noSignatureVerification := ¬ args.enforceContainerSigpolicy
  match args.image with
  | some image =>
      let transport ← Transport.tryFrom (args.transport.getD "registry")
      let sigverify : SignatureSource :=
        if noSignatureVerification then .containerPolicyAllowInsecure
        else match args.ostreeRemote with
          | some remote => .ostreeRemote remote
          | none => .containerPolicy
      .ok { sigverify, imgref := { transport, name := image } }
  | none =>
      match args.imgref with
      | some imgref => OstreeImageReference.tryFrom imgref
      | none => .error (.panic "imgref option should be set")

def DeployArgs.options (args : DeployArgs) : DeployOpts where
  kargs := args.karg
  targetImgref := args.targetImgref
  noImgref := args.noImgref

/-- `container image deploy` -/
def containerDeploy (registry : Registry) (args : DeployArgs) : SysrootM Unit := do
  let stateroot := args.stateroot.getD ((← get).booted.getD staterootDefault)
  let imgref ← liftR args.imageRef
  let state ← deploy m stateroot registry imgref args.options
  let wroteImgref := args.targetImgref.getD imgref
  let _ ← liftR (imageFilteredContentWarning m.countOrder (← get).repo wroteImgref.imgref)
  match args.writeCommitidTo with
  | some p => liftR (m.writeCommitid p state.mergeCommit)
  | none => pure ()

-- ── Commands ──────────────────────────────────────────────────────────────────

/-- What is run on a system root. -/
inductive Command where
  | pull (registry : Registry) (imgref : OstreeImageReference) (quiet : Bool)
      (check : Option String)
  | unencapsulate (registry : Registry) (imgref : OstreeImageReference) (writeRef : Option String)
  | remove (imgrefs : List ImageReference) (skipGc : Bool)
  | pruneLayers
  | pruneImages (andLayers full : Bool)
  | copy (srcRepo : Repo) (imgref : OstreeImageReference)
  | deploy (registry : Registry) (args : DeployArgs)

/-- The branches of `run_from_opt`. -/
def Command.run : Command → SysrootM Unit
  | .pull registry imgref quiet check => inRepo (containerStore m registry imgref quiet check)
  | .unencapsulate registry imgref writeRef => inRepo (containerImport m registry imgref writeRef)
  | .remove imgrefs skipGc => inRepo (containerRemove m imgrefs skipGc)
  | .pruneLayers => inRepo do
      let _ ← gcImageLayers m.host.hash
      pure ()
  | .pruneImages andLayers full => containerPruneImages m andLayers full
  | .copy srcRepo imgref => inRepo (Store.copy m.pull srcRepo imgref.imgref imgref.imgref)
  | .deploy registry args => containerDeploy m registry args

end Definitions

end Sysroot

end OstreeExt
