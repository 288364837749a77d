import OstreeExt.Store.Gc
import OstreeExt.Store.Layer
import OstreeExt.Tar.Frame
import OstreeExt.Tar.Write

/-!
# Importing an image

`ImageImporter` of `container/store.rs`.  `prepare` asks the proxy for the manifest and looks
up which layers are there; `import` fetches the other ones, each in a transaction of its own,
merges them into one commit under the ref of the image, collects garbage, and queries what it
has written.

The proxy and the programs that the importer runs are parameters: `ImageProxy` is what the
remote answers, `Host` is what the machine does.  Progress at the byte level, logging and the
contexts of errors are left out.
-/

namespace OstreeExt.Store

open OstreeExt Tar Exec Std

-- ── The outside ───────────────────────────────────────────────────────────────

/-- The root of a tree in the repository: its dirtree and its dirmeta. -/
structure Root where
  contents : Checksum
  dirmeta : Checksum
  deriving DecidableEq

/-- The root that a commit names. -/
def rootOf (commit : Commit) : Root := { contents := commit.contents, dirmeta := commit.dirmeta }

/-- How a layer is compressed. -/
inductive Compression where
  | gzip
  | zstd
  | none
  deriving DecidableEq

/-- What the machine does: its iteration order of hash maps, the `tar` crate, the architecture,
    the container policy, readers of compressed archives, dates and the clock, the configuration
    in a root file system, `ostree commit`, and the merge of layers. -/
structure Host where
  hash : HashOrder
  tar : TarBuilder
  /-- `Arch::default()` -/
  arch : String
  /-- `container_policy_is_default_insecure` -/
  policyIsDefaultInsecure : Result Bool
  /-- The archive of an ostree layer. -/
  objects : Compression → Bytes → Stream
  /-- The archive of a derived layer. -/
  entries : Compression → Bytes → List (Except String LayerEntry)
  /-- `DateTime::parse_from_rfc3339`, in seconds. -/
  parseRfc3339 : String → Option Nat
  /-- The time, which differs at most where something has happened. -/
  clock : List RepoEvent → Nat
  /-- `overlayfs_root_enabled` for the root of a commit. -/
  overlayfsRootEnabled : Objects → Commit → Result Bool
  /-- The tree of an archive, labeled with the policy of a base commit. -/
  commitTar : Objects → Root → List FilteredEntry → Result (Root × Objects)
  /-- `ostree commit` is done with an incomplete archive before it is killed. -/
  outruns : List FilteredEntry → Bool
  /-- Check out a base and layers over it, and write the tree; with derived layers it is labeled
      with its own policy. -/
  mergeTrees : Objects → Root → List Root → Bool → Result (Root × Objects)
  commitTar_adds : ∀ o base es p, commitTar o base es = .ok p →
    o.Keeps p.2 ∧ p.2.commits = o.commits
  mergeTrees_adds : ∀ o base layers derived p, mergeTrees o base layers derived = .ok p →
    o.Keeps p.2 ∧ p.2.commits = o.commits

/-- `containers_image_proxy::ConvertedLayerInfo` -/
structure ConvertedLayerInfo where
  digest : Digest
  size : Nat
  mediaType : MediaType

/-- The proxy with its opened image: what it answers.  A blob comes with the result of the
    driver, which is known when the blob has been read. -/
structure ImageProxy where
  fetchManifest : Result (Digest × ImageManifest)
  fetchConfig : Result ImageConfiguration
  /-- The answers to the first request and to the second one. -/
  getLayerInfo : Bool → Result (Option (List ConvertedLayerInfo))
  getBlob : Digest → Nat → Result (Bytes × Result Unit)
  closeImage : Result Unit := .ok ()
  finalize : Result Unit := .ok ()

/-- `ImportProgress` -/
inductive ImportProgress where
  | ostreeChunkStarted (layer : Descriptor)
  | ostreeChunkCompleted (layer : Descriptor)
  | derivedLayerStarted (layer : Descriptor)
  | derivedLayerCompleted (layer : Descriptor)

-- ── The importer ──────────────────────────────────────────────────────────────

/-- `ImageImporter` -/
structure ImageImporter where
  proxy : ImageProxy
  imgref : OstreeImageReference
  targetImgref : Option OstreeImageReference := none
  /-- If true, do not write final image ref. -/
  noImgref : Bool := false
  /-- If true, don't prune unused image layers. -/
  disableGc : Bool := false
  /-- If true, require the image has the bootable flag. -/
  requireBootable : Bool := false
  /-- If true, we have ostree v2024.3 or newer. -/
  ostreeV20243 : Bool := false
  layerProgress : Option (ImportProgress → Result Unit) := none

/-- `PreparedImport` -/
structure PreparedImport where
  manifestDigest : Digest
  manifest : ImageManifest
  config : ImageConfiguration
  previousState : Option LayeredImageState
  previousManifestDigest : Option Digest
  previousImageid : Option Digest
  ostreeLayers : List ManifestLayerState
  ostreeCommitLayer : ManifestLayerState
  layers : List ManifestLayerState

/-- `PrepareResult` -/
inductive PrepareResult where
  | alreadyPresent (state : LayeredImageState)
  | ready (prep : PreparedImport)

/-- `METADATA_KEY_BOOTABLE` -/
def metadataKeyBootable : String := "ostree.bootable"

/-- `BOOTC_LABEL` -/
def bootcLabel : String := "containers.bootc"

/-- The configuration has the bootable label or the bootc label. -/
def isBootable (config : ImageConfiguration) : Bool :=
  (labelsOf config).any fun l => l.contains metadataKeyBootable || l.contains bootcLabel

/-- A message on the progress channel, which fails when the other side has gone. -/
def ImageImporter.sendProgress (imp : ImageImporter) (p : ImportProgress) : Result Unit :=
  match imp.layerProgress with
  | some send => send p
  | none => .ok ()

-- ── Preparing ─────────────────────────────────────────────────────────────────

/-- `cache_pending` -/
def cachePending (commit : Checksum) (manifestDigest : Digest) (manifest : ImageManifest)
    (config : ImageConfiguration) : RepoM Unit :=
  Repo.writeCommitDetachedMetadata commit
    (((∅ : Dict).insert cachedKeyManifestDigest (.digest manifestDigest)).insert cachedKeyManifest
      (.manifest manifest) |>.insert cachedKeyConfig (.config config))

section Importer

variable (host : Host)

/-- The check that `create_prepared_import` makes if the image has to be bootable. -/
def checkBootable (config : ImageConfiguration) : Result Unit :=
  if ¬ isBootable config then
    .error (.err ("Target image does not have " ++ metadataKeyBootable ++ " label"))
  else if config.architecture ≠ host.arch then
    .error (.err ("Image has architecture " ++ config.architecture ++ "; expected " ++ host.arch))
  else .ok ()

/-- `create_prepared_import` -/
def ImageImporter.createPreparedImport (imp : ImageImporter) (repo : Repo) (manifestDigest : Digest)
    (manifest : ImageManifest) (config : ImageConfiguration)
    (previousState : Option LayeredImageState) (previousImageid : Option Digest) :
    Result PreparedImport := do
  if imp.requireBootable then checkBootable host config else .ok ()
  let (commitLayer, componentLayers, remainingLayers) ← parseManifestLayout manifest config
  let ostreeCommitLayer ← queryLayer repo commitLayer
  let ostreeLayers ← componentLayers.mapM (queryLayer repo)
  let layers ← remainingLayers.mapM (queryLayer repo)
  .ok {
    manifestDigest, manifest, config, previousState
    previousManifestDigest := previousState.map (·.manifestDigest)
    previousImageid, ostreeLayers, ostreeCommitLayer, layers }

/-- The checks of the signature source, at the head of `prepare_internal`. -/
def ImageImporter.checkSigverify (imp : ImageImporter) (verifyLayers : Bool) : Result Unit :=
  match imp.imgref.sigverify with
  | .containerPolicy => do
      if ← host.policyIsDefaultInsecure then
        .error (.err ("containers-policy.json specifies a default of `insecureAcceptAnything`; "
          ++ "refusing usage"))
      else .ok ()
  | .ostreeRemote _ =>
      if verifyLayers then
        .error (.err "Cannot currently verify layered containers via ostree remote")
      else .ok ()
  | .containerPolicyAllowInsecure => .ok ()

/-- The end of `prepare_internal`, for an image that has to be fetched. -/
def ImageImporter.prepareUpdate (imp : ImageImporter) (manifestDigest : Digest)
    (manifest : ImageManifest) (previousState : Option LayeredImageState) :
    RepoM PrepareResult := do
  let config ← liftR imp.proxy.fetchConfig
  match previousState with
  | some previous => cachePending previous.mergeCommit manifestDigest manifest config
  | none => pure ()
  let prep ← liftR (imp.createPreparedImport host (← get) manifestDigest manifest config
    previousState (previousState.map (·.manifest.config.digest)))
  pure (.ready prep)

/-- `prepare_internal`: an image with the same manifest digest is already present, and so is one
    with the same image ID. -/
def ImageImporter.prepareInternal (imp : ImageImporter) (verifyLayers : Bool) :
    RepoM PrepareResult := do
  liftR (imp.checkSigverify host verifyLayers)
  let (manifestDigest, manifest) ← liftR imp.proxy.fetchManifest
  match ← liftR (tryQueryImage (← get) imp.imgref.imgref) with
  | some previous =>
      if previous.manifestDigest = manifestDigest then pure (.alreadyPresent previous)
      else if previous.manifest.config.digest = manifest.config.digest then
        pure (.alreadyPresent previous)
      else imp.prepareUpdate host manifestDigest manifest (some previous)
  | none => imp.prepareUpdate host manifestDigest manifest none

/-- `prepare` -/
def ImageImporter.prepare (imp : ImageImporter) : RepoM PrepareResult :=
  imp.prepareInternal host false

-- ── Fetching ──────────────────────────────────────────────────────────────────

/-- `DOCKER_TYPE_LAYER_TAR` -/
def dockerTypeLayerTar : String := "application/vnd.docker.image.rootfs.diff.tar"

/-- `decompressor` -/
def decompressor : MediaType → Result Compression
  | .imageLayerGzip => .ok .gzip
  | .imageLayerZstd => .ok .zstd
  | .imageLayer => .ok .none
  | .imageConfig => .error (.err "Unhandled layer type: application/vnd.oci.image.config.v1+json")
  | .other t =>
      if t = dockerTypeLayerTar then .ok .none
      else .error (.err ("Unhandled layer type: " ++ t))

/-- `fetch_layer` -/
def fetchLayer (proxy : ImageProxy) (manifest : ImageManifest) (layer : Descriptor)
    (layerInfo : Option (List ConvertedLayerInfo)) (transportSrc : Transport) :
    Result (Bytes × Result Unit × MediaType) :=
  match manifest.layers.findIdx? (· = layer) with
  | none => .error (.panic "called `Option::unwrap()` on a `None` value")
  | some layerIndex =>
      if transportSrc = .containerStorage then do
        let layerInfo ← okOr "skopeo too old to pull from containers-storage" layerInfo
        let layerBlob ← okOr ("blobid position " ++ toString layerIndex ++ " exceeds diffid count "
          ++ toString layerInfo.length) layerInfo[layerIndex]?
        let (blob, driver) ← proxy.getBlob layerBlob.digest layerBlob.size
        .ok (blob, driver, layerBlob.mediaType)
      else do
        let (blob, driver) ← proxy.getBlob layer.digest layer.size
        .ok (blob, driver, layer.mediaType)

/-- `join_fetch`: the worker's error comes first, but a worker that succeeded has done its work
    when the driver fails. -/
def joinFetch {α : Type} (worker : RepoM α) (driver : Result Unit) : RepoM α := do
  let a ← worker
  liftR driver
  pure a

variable (lib : Libostree)

/-- One round of the loop of `unencapsulate_base` over the chunk layers. -/
def ImageImporter.fetchChunkLayer (imp : ImageImporter) (manifest : ImageManifest)
    (desLayers : Option (List ConvertedLayerInfo)) (writeRefs : Bool) (layer : ManifestLayerState) :
    RepoM ManifestLayerState :=
  if layer.commit.isSome then pure layer
  else do
    liftR (imp.sendProgress (.ostreeChunkStarted layer.layer))
    let (blob, driver, mediaType) ←
      liftR (fetchLayer imp.proxy manifest layer.layer desLayers imp.imgref.imgref.transport)
    let commit ← joinFetch (do
      let compression ← liftR (decompressor mediaType)
      importChunkLayer lib writeRefs layer.ostreeRef (host.objects compression blob)) driver
    liftR (imp.sendProgress (.ostreeChunkCompleted layer.layer))
    pure { layer with commit }

/-- The commit layer in `unencapsulate_base`. -/
def ImageImporter.fetchCommitLayer (imp : ImageImporter) (manifest : ImageManifest)
    (desLayers : Option (List ConvertedLayerInfo)) (remote : Option String) (writeRefs : Bool)
    (layer : ManifestLayerState) : RepoM ManifestLayerState :=
  if layer.commit.isSome then pure layer
  else do
    liftR (imp.sendProgress (.ostreeChunkStarted layer.layer))
    let (blob, driver, mediaType) ←
      liftR (fetchLayer imp.proxy manifest layer.layer desLayers imp.imgref.imgref.transport)
    let commit ← joinFetch (do
      let compression ← liftR (decompressor mediaType)
      importCommitLayer lib remote writeRefs layer.ostreeRef (host.objects compression blob)) driver
    liftR (imp.sendProgress (.ostreeChunkCompleted layer.layer))
    pure { layer with commit := some commit }

/-- The remote that the base commit is verified with. -/
def remoteOf : SignatureSource → Option String
  | .ostreeRemote remote => some remote
  | .containerPolicy | .containerPolicyAllowInsecure => none

/-- `unencapsulate_base` -/
def ImageImporter.unencapsulateBase (imp : ImageImporter) (prep : PreparedImport)
    (writeRefs : Bool) : RepoM PreparedImport := do
  liftR (imp.checkSigverify host false)
  let desLayers ← liftR (imp.proxy.getLayerInfo false)
  let ostreeLayers ←
    prep.ostreeLayers.mapM (imp.fetchChunkLayer host lib prep.manifest desLayers writeRefs)
  let ostreeCommitLayer ← imp.fetchCommitLayer host lib prep.manifest desLayers
    (remoteOf imp.imgref.sigverify) writeRefs prep.ostreeCommitLayer
  pure { prep with ostreeLayers, ostreeCommitLayer }

-- ── Unencapsulating ───────────────────────────────────────────────────────────

/-- `Import` -/
structure Import where
  ostreeCommit : Checksum
  imageDigest : Digest
  deprecatedWarning : Option String

/-- `unwrap` on the commit of a layer. -/
def unwrapCommit (layer : ManifestLayerState) : Result Checksum :=
  match layer.commit with
  | some commit => .ok commit
  | none => .error (.panic "called `Option::unwrap()` on a `None` value")

/-- `unencapsulate`: it writes no refs, and takes no image that is stored already. -/
def ImageImporter.unencapsulate (imp : ImageImporter) : RepoM Import := do
  match ← imp.prepareInternal host false with
  | .alreadyPresent _ =>
      throw (.panic "Should not have image present for unencapsulation")
  | .ready prep =>
      if prep.layers ≠ [] then
        throw (.err ("Image has " ++ toString prep.layers.length ++ " non-ostree layers"))
      else
        let prep ← imp.unencapsulateBase host lib prep false
        liftR imp.proxy.closeImage
        let ostreeCommit ← liftR (unwrapCommit prep.ostreeCommitLayer)
        pure { ostreeCommit, imageDigest := prep.manifestDigest, deprecatedWarning := none }

-- ── Derived layers ────────────────────────────────────────────────────────────

/-- The metadata key for the version of the importer. -/
def importerVersionKey : String := "ostree.importer.version"

/-- `CARGO_PKG_VERSION` -/
def importerVersion : String := "0.15.3"

/-- `WriteTarResult` -/
structure WriteTarResult where
  commit : Checksum
  filtered : ExtTreeMap String Nat

/-- The child process of `write_tar`: `ostree commit --tree=tar`, which sets the branch. -/
def ostreeCommit (base : Root) (refname : String) (out : List FilteredEntry) : RepoM Checksum :=
  Repo.autoTransaction do
    let repo ← get
    let (root, objects) ← liftR (host.commitTar repo.toObjects base out)
    modify fun r => { r with toObjects := objects }
    let commit ← Repo.writeCommit lib none {
      metadata := (∅ : Dict).insert importerVersionKey (.str importerVersion)
      timestamp := host.clock repo.trace, contents := root.contents, dirmeta := root.dirmeta }
    Repo.setRef refname (some commit)
    pure commit

/-- `write_tar`: filter the archive of a layer into `ostree commit`.  When the filter fails the
    child is killed, but it may have committed what it was given by then. -/
def writeTar (config : TarImportConfig) (base : Checksum) (mediaType : MediaType) (blob : Bytes)
    (refname : String) : RepoM WriteTarResult := do
  let baseCommit ← liftR ((← get).loadCommit base)
  let out : List FilteredEntry × Result (ExtTreeMap String Nat) :=
    match decompressor mediaType with
    | .ok compression => filterTar host.tar config (host.entries compression blob)
    | .error e => ([], .error e)
  match out.2 with
  | .ok filtered => do
      let commit ← ostreeCommit host lib (rootOf baseCommit) refname out.1
      pure { commit, filtered }
  | .error e => do
      if host.outruns out.1 then
        let _ ← ostreeCommit host lib (rootOf baseCommit) refname out.1
        throw e
      else throw e

/-- One round of the loop of `import` over the derived layers. -/
def ImageImporter.importLayer (imp : ImageImporter) (manifest : ImageManifest)
    (desLayers : Option (List ConvertedLayerInfo)) (base : Checksum) (rootIsTransient : Bool)
    (acc : List Checksum × MetaFilteredData) (layer : ManifestLayerState) :
    RepoM (List Checksum × MetaFilteredData) :=
  match layer.commit with
  | some commit => pure (acc.1 ++ [commit], acc.2)
  | none => do
      liftR (imp.sendProgress (.derivedLayerStarted layer.layer))
      let (blob, driver, mediaType) ←
        liftR (fetchLayer imp.proxy manifest layer.layer desLayers imp.imgref.imgref.transport)
      let r ← joinFetch (writeTar host lib
        { allowNonusr := rootIsTransient, remapFactoryVar := ¬ imp.ostreeV20243 } base mediaType
        blob layer.ostreeRef) driver
      liftR (imp.sendProgress (.derivedLayerCompleted layer.layer))
      -- only what was fetched now is counted
      pure (acc.1 ++ [r.commit],
        if r.filtered.isEmpty then acc.2 else acc.2.insert layer.layer.digest r.filtered)

-- ── The merge ─────────────────────────────────────────────────────────────────

/-- `timestamp_of_manifest_or_config` -/
def timestampOfManifestOrConfig (manifest : ImageManifest) (config : ImageConfiguration) :
    Option Nat :=
  ((manifest.annotations.bind (·["org.opencontainers.image.created"]?)).or config.created).bind
    host.parseRfc3339

/-- The metadata of the merge commit. -/
def mergeMetadata (prep : PreparedImport) (filtered : MetaFilteredData) : Dict :=
  ((((∅ : Dict).insert metaManifestDigest (.digest prep.manifestDigest)).insert metaManifest
    (.manifest prep.manifest)).insert metaConfig (.config prep.config)).insert importerVersionKey
      (.str importerVersion) |>.insert metaFiltered (.filtered filtered)

/-- The local variables of `import` that its last transaction uses. -/
structure MergeInput where
  ostreeRef : String
  metadata : Dict
  timestamp : Nat
  baseCommit : Checksum
  layerCommits : List Checksum
  haveDerivedLayers : Bool

/-- `import` in front of its last transaction: fetch the layers that are not there. -/
def ImageImporter.fetchLayers (imp : ImageImporter) (prep : PreparedImport) : RepoM MergeInput := do
  let prep ← imp.unencapsulateBase host lib prep true
  let desLayers ← liftR (imp.proxy.getLayerInfo true)
  let baseCommit ← liftR (unwrapCommit prep.ostreeCommitLayer)
  let base ← liftR ((← get).loadCommit baseCommit)
  let rootIsTransient ← liftR (host.overlayfsRootEnabled (← get).toObjects base)
  let ostreeRef ← liftR (refForImage (imp.targetImgref.getD imp.imgref).imgref)
  let (layerCommits, filtered) ← prep.layers.foldlM
    (imp.importLayer host lib prep.manifest desLayers baseCommit rootIsTransient) ([], ∅)
  liftR imp.proxy.closeImage
  liftR imp.proxy.finalize
  let timestamp := (timestampOfManifestOrConfig host prep.manifest prep.config).getD
    (host.clock (← get).trace)
  pure {
    ostreeRef, metadata := mergeMetadata prep filtered, timestamp, baseCommit, layerCommits
    haveDerivedLayers := ¬ prep.layers.isEmpty }

/-- The last transaction of `import`: check out the base and the layers over it, and commit the
    tree. -/
def ImageImporter.mergeLayers (imp : ImageImporter) (m : MergeInput) : RepoM Checksum :=
  Repo.autoTransaction do
    let repo ← get
    let base ← liftR (repo.loadCommit m.baseCommit)
    let layers ← liftR (m.layerCommits.mapM repo.loadCommit)
    let (root, objects) ← liftR (host.mergeTrees repo.toObjects (rootOf base) (layers.map rootOf)
      m.haveDerivedLayers)
    modify fun r => { r with toObjects := objects }
    let mergedCommit ← Repo.writeCommit lib none {
      metadata := m.metadata, timestamp := m.timestamp
      contents := root.contents, dirmeta := root.dirmeta }
    if imp.noImgref then pure () else Repo.setRef m.ostreeRef (some mergedCommit)
    pure mergedCommit

/-- `import` up to the end of its last transaction. -/
def ImageImporter.importMerged (imp : ImageImporter) (prep : PreparedImport) : RepoM Checksum := do
  let m ← imp.fetchLayers host lib prep
  imp.mergeLayers host lib m

/-- The end of `import`, after its last transaction: collect garbage, and query the state. -/
def ImageImporter.finishImport (imp : ImageImporter) (mergedCommit : Checksum) :
    RepoM LayeredImageState := do
  if imp.disableGc then pure ()
  else
    let _ ← gcImageLayers host.hash
  liftR (queryImageCommit (← get) mergedCommit)

/-- `import` -/
def ImageImporter.importImage (imp : ImageImporter) (prep : PreparedImport) :
    RepoM LayeredImageState := do
  let mergedCommit ← imp.importMerged host lib prep
  imp.finishImport host mergedCommit

end Importer

-- ── What fetching does ────────────────────────────────────────────────────────

/-- The proxy can serve the blob. -/
def ImageProxy.Serves (proxy : ImageProxy) (blob : Bytes) : Prop :=
  ∃ digest size driver, proxy.getBlob digest size = .ok (blob, driver)

/-- The detached metadata in the archives that the proxy can serve. -/
def ImageImporter.Brings (imp : ImageImporter) (host : Host) (lib : Libostree) (d : Dict) : Prop :=
  ∃ blob compression, imp.proxy.Serves blob ∧
    streamDict lib (host.objects compression blob) = some d

/-- A relation between repositories that every write of an import keeps in front of its last
    transaction, if the refs it writes are in `S` and the detached metadata that it brings in `D`. -/
structure FetchFrame (S : String → Prop) (D : Dict → Prop) (R : Repo → Repo → Prop) : Prop where
  frame : ∀ c, ImportFrame c D R
  unmarked : ∀ r c, R r (finalState (Repo.markCommitPartial c false r))
  setRef : ∀ r ref c, S ref → R r (finalState (Repo.setRef ref (some c) r))
  adds : ∀ r o, r.toObjects.Keeps o → o.commits = r.commits → R r { r with toObjects := o }
  rollback : ∀ r r', R r r' →
    R r { r with partialCommits := r'.partialCommits, trace := r'.trace }

theorem fetchLayer_serves {proxy : ImageProxy} {manifest : ImageManifest} {layer : Descriptor}
    {layerInfo : Option (List ConvertedLayerInfo)} {transport : Transport}
    {b : Bytes × Result Unit × MediaType}
    (h : fetchLayer proxy manifest layer layerInfo transport = .ok b) : proxy.Serves b.1 := by
  rw [fetchLayer] at h
  cases hindex : manifest.layers.findIdx? (· = layer) with
  | none =>
      rw [hindex] at h
      cases h
  | some i =>
      rw [hindex] at h
      dsimp only at h
      split at h
      · obtain ⟨info, -, h₁⟩ := result_bind_eq_ok.mp h
        obtain ⟨l, -, h₂⟩ := result_bind_eq_ok.mp h₁
        obtain ⟨⟨blob, driver⟩, hblob, h₃⟩ := result_bind_eq_ok.mp h₂
        cases h₃
        exact ⟨_, _, driver, hblob⟩
      · obtain ⟨⟨blob, driver⟩, hblob, h₃⟩ := result_bind_eq_ok.mp h
        cases h₃
        exact ⟨_, _, driver, hblob⟩

theorem steps_withImporter {R : Repo → Repo → Prop} {α : Type}
    {mk : Repo → Importer} (hmk : ∀ r, (mk r).repo = r) {x : ImportM α}
    (h : Steps (OnRepo R) x) : Steps R (withImporter mk x) := by
  intro r
  have hx := h (mk r)
  rw [OnRepo, hmk] at hx
  rw [finalState_withImporter]
  exact hx

section FetchFrame

variable {S : String → Prop} {D : Dict → Prop} {R : Repo → Repo → Prop} (hR : FetchFrame S D R)

include hR

theorem FetchFrame.refl (r : Repo) : R r r := (hR.frame "").refl r

theorem FetchFrame.trans (a b c : Repo) (h : R a b) (h' : R b c) : R a c :=
  (hR.frame "").trans a b c h h'

theorem FetchFrame.liftR {α : Type} (x : Result α) : Steps R (liftR x : RepoM α) := by
  intro r
  cases x <;> exact hR.refl r

/-- What a result is followed by counts only if there is one. -/
theorem FetchFrame.liftR_bind {α β : Type} {x : Result α} {f : α → RepoM β}
    (h : ∀ a, x = .ok a → Steps R (f a)) : Steps R (OstreeExt.liftR x >>= f) := by
  intro r
  cases hx : x with
  | error e => exact hR.refl r
  | ok a => exact h a hx r

theorem FetchFrame.get : Steps R (get : RepoM Repo) := fun r => hR.refl r

theorem FetchFrame.pure {α : Type} (a : α) : Steps R (Pure.pure a : RepoM α) :=
  Steps.pure hR.refl a

theorem FetchFrame.writesRef {ref : String} (hS : S ref) (c : Checksum) :
    Steps R (Repo.setRef ref (some c)) := fun r => hR.setRef r ref c hS

/-- A transaction that fails leaves marks and history. -/
theorem FetchFrame.autoTransaction {α : Type} {body : RepoM α} (h : Steps R body) :
    Steps R (Repo.autoTransaction body) := by
  intro r
  have hbody := h r
  rw [Repo.autoTransaction]
  cases hrun : body r with
  | ok a r' =>
      rw [hrun] at hbody
      exact hbody
  | error e r' =>
      rw [hrun] at hbody
      exact hR.rollback r r' hbody

theorem FetchFrame.joinFetch {α : Type} {worker : RepoM α} (h : Steps R worker)
    (driver : Result Unit) : Steps R (joinFetch worker driver) := by
  refine Steps.bind hR.trans h (fun a => ?_)
  exact Steps.bind hR.trans (hR.liftR driver) (fun _ => hR.pure a)

variable {lib : Libostree}

theorem FetchFrame.writeCommit (commit : Commit) : Steps R (Repo.writeCommit lib none commit) :=
  fun r => (hR.frame (lib.commitChecksum commit)).commit r commit

/-- The transaction of the commit layer writes its ref, if any. -/
theorem FetchFrame.importCommitLayer (remote : Option String) (writeRefs : Bool) {ref : String}
    (hS : writeRefs = true → S ref) {blob : Stream}
    (hD : ∀ d, streamDict lib blob = some d → D d) :
    Steps R (importCommitLayer lib remote writeRefs ref blob) := by
  refine hR.autoTransaction ?_
  have hbody : Steps R (importTarBody lib blob remote) :=
    ImportFrame.importTarBody hR.refl (fun c _ _ => hR.frame c) hD remote
  refine Steps.bind hR.trans hbody (fun commit => ?_)
  have hunmark : Steps R (do
      Repo.markCommitPartial commit false
      Pure.pure commit : RepoM Checksum) := by
    exact Steps.bind hR.trans (fun r => hR.unmarked r commit) (fun _ => hR.pure commit)
  dsimp only
  split
  · next hwrite =>
      exact Steps.bind hR.trans (hR.writesRef (hS hwrite) commit) (fun _ => hunmark)
  · exact hunmark

theorem FetchFrame.finishImportObjectSet : Steps (OnRepo R) (finishImportObjectSet lib) := by
  have hframe := hR.frame ""
  refine Steps.bind hframe.trans_step hframe.refl_step (fun imp => ?_)
  cases imp.data with
  | commit o => exact Steps.throw hframe.refl_step _
  | objectSet objset =>
      refine Steps.bind hframe.trans_step
        (hframe.of_harmless (onRepo_harmless (writeDirmeta_harmless _ _))) (fun _ => ?_)
      refine Steps.bind hframe.trans_step
        (hframe.of_harmless (onRepo_harmless (writeDirtree_harmless _ _))) (fun _ => ?_)
      exact steps_onRepo (hR.writeCommit _)

theorem FetchFrame.importObjects (s : Stream) : Steps (OnRepo R) (importObjects lib s) :=
  (hR.frame "").of_harmless (importObjectsImpl_harmless (filterEntries s))

/-- The transaction of a chunk layer writes its ref, if any. -/
theorem FetchFrame.importChunkLayer (writeRefs : Bool) {ref : String}
    (hS : writeRefs = true → S ref) (blob : Stream) :
    Steps R (importChunkLayer lib writeRefs ref blob) := by
  refine hR.autoTransaction ?_
  split
  · next hwrite =>
      refine Steps.bind hR.trans (steps_withImporter (fun _ => rfl) ?_) (fun commit => ?_)
      · exact Steps.bind (hR.frame "").trans_step (hR.importObjects blob)
          (fun _ => hR.finishImportObjectSet)
      · exact Steps.bind hR.trans (hR.writesRef (hS hwrite) commit) (fun _ => hR.pure _)
  · exact Steps.bind hR.trans (steps_withImporter (fun _ => rfl) (hR.importObjects blob))
      (fun _ => hR.pure _)

variable {host : Host}

/-- `write_tar` writes the ref of its layer. -/
theorem FetchFrame.ostreeCommit (base : Root) {ref : String} (hS : S ref)
    (out : List FilteredEntry) : Steps R (ostreeCommit host lib base ref out) := by
  refine hR.autoTransaction (fun r => ?_)
  rw [bind_of_ok (get_run r)]
  cases hrun : host.commitTar r.toObjects base out with
  | error e => exact hR.refl r
  | ok p =>
      obtain ⟨hkeeps, hcommits⟩ := host.commitTar_adds _ _ _ p hrun
      have hrest : ∀ commit : Commit, Steps R (do
          let c ← Repo.writeCommit lib none commit
          Repo.setRef ref (some c)
          Pure.pure c : RepoM Checksum) := by
        intro commit
        refine Steps.bind hR.trans (hR.writeCommit commit) (fun c => ?_)
        exact Steps.bind hR.trans (hR.writesRef hS c) (fun _ => hR.pure _)
      exact hR.trans _ _ _ (hR.adds r p.2 hkeeps hcommits) (hrest _ _)

theorem FetchFrame.writeTar (config : TarImportConfig) (base : Checksum) (mediaType : MediaType)
    (blob : Bytes) {ref : String} (hS : S ref) :
    Steps R (writeTar host lib config base mediaType blob ref) := by
  refine Steps.bind hR.trans hR.get (fun repo => ?_)
  refine Steps.bind hR.trans (hR.liftR _) (fun baseCommit => ?_)
  have hkilled : ∀ out e, Steps R (if host.outruns out then do
        let _ ← Store.ostreeCommit host lib (rootOf baseCommit) ref out
        throw e
      else throw e : RepoM WriteTarResult) := by
    intro out e
    split
    · exact Steps.bind hR.trans (hR.ostreeCommit _ hS _) (fun _ => Steps.throw hR.refl _)
    · exact Steps.throw hR.refl _
  cases decompressor mediaType with
  | error e => exact hkilled [] e
  | ok compression =>
      show Steps R _
      dsimp only
      cases (filterTar host.tar config (host.entries compression blob)).2 with
      | ok filtered =>
          exact Steps.bind hR.trans (hR.ostreeCommit _ hS _) (fun _ => hR.pure _)
      | error e => exact hkilled _ e

variable {imp : ImageImporter} {manifest : ImageManifest}
  {desLayers : Option (List ConvertedLayerInfo)}

theorem FetchFrame.fetchChunkLayer (writeRefs : Bool) {layer : ManifestLayerState}
    (hS : writeRefs = true → S layer.ostreeRef) :
    Steps R (imp.fetchChunkLayer host lib manifest desLayers writeRefs layer) := by
  rw [ImageImporter.fetchChunkLayer]
  split
  · exact hR.pure _
  refine Steps.bind hR.trans (hR.liftR _) (fun _ => ?_)
  refine Steps.bind hR.trans (hR.liftR _) (fun b => ?_)
  refine Steps.bind hR.trans (hR.joinFetch ?_ b.2.1) (fun commit => ?_)
  · exact Steps.bind hR.trans (hR.liftR _) (fun _ => hR.importChunkLayer writeRefs hS _)
  · exact Steps.bind hR.trans (hR.liftR _) (fun _ => hR.pure _)

theorem FetchFrame.fetchCommitLayer (hD : ∀ d, imp.Brings host lib d → D d)
    (remote : Option String) (writeRefs : Bool) {layer : ManifestLayerState}
    (hS : writeRefs = true → S layer.ostreeRef) :
    Steps R (imp.fetchCommitLayer host lib manifest desLayers remote writeRefs layer) := by
  rw [ImageImporter.fetchCommitLayer]
  split
  · exact hR.pure _
  refine Steps.bind hR.trans (hR.liftR _) (fun _ => ?_)
  refine hR.liftR_bind (fun b hfetch => ?_)
  refine Steps.bind hR.trans (hR.joinFetch ?_ b.2.1) (fun commit => ?_)
  · refine Steps.bind hR.trans (hR.liftR _) (fun compression => ?_)
    exact hR.importCommitLayer remote writeRefs hS
      (fun d hd => hD d ⟨b.1, compression, fetchLayer_serves hfetch, hd⟩)
  · exact Steps.bind hR.trans (hR.liftR _) (fun _ => hR.pure _)

theorem FetchFrame.importLayer {base : Checksum} {rootIsTransient : Bool}
    (acc : List Checksum × MetaFilteredData) {layer : ManifestLayerState} (hS : S layer.ostreeRef) :
    Steps R (imp.importLayer host lib manifest desLayers base rootIsTransient acc layer) := by
  rw [ImageImporter.importLayer]
  split
  · exact hR.pure _
  refine Steps.bind hR.trans (hR.liftR _) (fun _ => ?_)
  refine Steps.bind hR.trans (hR.liftR _) (fun b => ?_)
  refine Steps.bind hR.trans (hR.joinFetch (hR.writeTar _ _ _ _ hS) b.2.1) (fun res => ?_)
  exact Steps.bind hR.trans (hR.liftR _) (fun _ => hR.pure _)

end FetchFrame

/-- All layers of a prepared import. -/
def PreparedImport.allLayers (prep : PreparedImport) : List ManifestLayerState :=
  prep.ostreeCommitLayer :: prep.ostreeLayers ++ prep.layers

/-- The refs of the layers of a prepared import. -/
def PreparedImport.IsLayerRef (prep : PreparedImport) (ref : String) : Prop :=
  ∃ layer ∈ prep.allLayers, layer.ostreeRef = ref

section Import

variable {D : Dict → Prop} {R : Repo → Repo → Prop} {prep : PreparedImport} {lib : Libostree}
  {host : Host} {imp : ImageImporter}

theorem steps_liftR (hrefl : ∀ r, R r r) {α : Type} (x : Result α) :
    Steps R (liftR x : RepoM α) := by
  intro r
  cases x <;> exact hrefl r

/-- What every round of `unencapsulate_base` keeps, it keeps. -/
theorem steps_unencapsulateBase (hrefl : ∀ r, R r r) (htrans : ∀ a b c, R a b → R b c → R a c)
    {writeRefs : Bool}
    (hchunk : ∀ desLayers, ∀ layer ∈ prep.ostreeLayers,
      Steps R (imp.fetchChunkLayer host lib prep.manifest desLayers writeRefs layer))
    (hcommit : ∀ desLayers, Steps R (imp.fetchCommitLayer host lib prep.manifest desLayers
      (remoteOf imp.imgref.sigverify) writeRefs prep.ostreeCommitLayer)) :
    Steps R (imp.unencapsulateBase host lib prep writeRefs) := by
  refine Steps.bind htrans (steps_liftR hrefl _) (fun _ => ?_)
  refine Steps.bind htrans (steps_liftR hrefl _) (fun desLayers => ?_)
  refine Steps.bind htrans (Steps.mapM hrefl htrans (hchunk desLayers)) (fun chunks => ?_)
  exact Steps.bind htrans (hcommit desLayers) (fun _ => Steps.pure hrefl _)

theorem FetchFrame.unencapsulateBase (hR : FetchFrame prep.IsLayerRef D R)
    (hD : ∀ d, imp.Brings host lib d → D d) (writeRefs : Bool) :
    Steps R (imp.unencapsulateBase host lib prep writeRefs) := by
  refine steps_unencapsulateBase hR.refl hR.trans (fun desLayers layer hlayer => ?_)
    (fun desLayers => ?_)
  · refine hR.fetchChunkLayer writeRefs (fun _ => ⟨layer, ?_, rfl⟩)
    exact List.mem_append_left _ (List.mem_cons_of_mem _ hlayer)
  · exact hR.fetchCommitLayer hD _ writeRefs
      (fun _ => ⟨prep.ostreeCommitLayer, List.mem_cons_self .., rfl⟩)

/-- What `unencapsulate_base` returns: the same import, with the commits it has fetched. -/
theorem unencapsulateBase_ok {prep' : PreparedImport} {writeRefs : Bool} {r r' : Repo}
    (h : imp.unencapsulateBase host lib prep writeRefs r = .ok prep' r') :
    ∃ chunks commitLayer, prep' = { prep with
      ostreeLayers := chunks, ostreeCommitLayer := commitLayer } := by
  obtain ⟨_, r₁, -, h₁⟩ := bind_ok h
  obtain ⟨desLayers, r₂, -, h₂⟩ := bind_ok h₁
  obtain ⟨chunks, r₃, -, h₃⟩ := bind_ok h₂
  obtain ⟨commitLayer, r₄, -, h₄⟩ := bind_ok h₃
  cases h₄
  exact ⟨chunks, commitLayer, rfl⟩

/-- What every round over the derived layers keeps, an import keeps from its base on. -/
theorem fetchLayers_of_base (hrefl : ∀ r, R r r) (htrans : ∀ a b c, R a b → R b c → R a c)
    {prep' : PreparedImport} {r r₁ : Repo}
    (hrun : imp.unencapsulateBase host lib prep true r = .ok prep' r₁)
    (hlayer : ∀ desLayers base transient acc, ∀ layer ∈ prep.layers, Steps R
      (imp.importLayer host lib prep.manifest desLayers base transient acc layer)) :
    R r₁ (finalState (imp.fetchLayers host lib prep r)) := by
  rw [ImageImporter.fetchLayers, bind_of_ok hrun]
  obtain ⟨chunks, commitLayer, rfl⟩ := unencapsulateBase_ok hrun
  refine Steps.bind htrans (steps_liftR hrefl _) (fun desLayers => ?_) r₁
  refine Steps.bind htrans (steps_liftR hrefl _) (fun baseCommit => ?_)
  refine Steps.bind htrans hrefl (fun repo => ?_)
  refine Steps.bind htrans (steps_liftR hrefl _) (fun base => ?_)
  refine Steps.bind htrans hrefl (fun repo => ?_)
  refine Steps.bind htrans (steps_liftR hrefl _) (fun transient => ?_)
  refine Steps.bind htrans (steps_liftR hrefl _) (fun ostreeRef => ?_)
  refine Steps.bind htrans (Steps.foldlM hrefl htrans
    (hlayer desLayers baseCommit transient) _) (fun acc => ?_)
  refine Steps.bind htrans (steps_liftR hrefl _) (fun _ => ?_)
  refine Steps.bind htrans (steps_liftR hrefl _) (fun _ => ?_)
  exact Steps.bind htrans hrefl (fun _ => Steps.pure hrefl _)

/-- What every round of an import keeps in front of its last transaction, the import keeps. -/
theorem steps_fetchLayers (hrefl : ∀ r, R r r) (htrans : ∀ a b c, R a b → R b c → R a c)
    (hbase : Steps R (imp.unencapsulateBase host lib prep true))
    (hlayer : ∀ desLayers base transient acc, ∀ layer ∈ prep.layers, Steps R
      (imp.importLayer host lib prep.manifest desLayers base transient acc layer)) :
    Steps R (imp.fetchLayers host lib prep) := by
  intro r
  have hbase := hbase r
  cases hrun : imp.unencapsulateBase host lib prep true r with
  | error e r₁ =>
      rw [hrun] at hbase
      rw [ImageImporter.fetchLayers, bind_of_error hrun]
      exact hbase
  | ok prep' r₁ =>
      rw [hrun] at hbase
      exact htrans _ _ _ hbase (fetchLayers_of_base hrefl htrans hrun hlayer)

/-- **The frame rule of an import**, up to its last transaction. -/
theorem FetchFrame.fetchLayers (hR : FetchFrame prep.IsLayerRef D R)
    (hD : ∀ d, imp.Brings host lib d → D d) : Steps R (imp.fetchLayers host lib prep) := by
  refine steps_fetchLayers hR.refl hR.trans (hR.unencapsulateBase hD true) ?_
  intro desLayers base transient acc layer hlayer
  exact hR.importLayer acc ⟨layer, List.mem_append_right _ hlayer, rfl⟩

/-- The last transaction writes the ref of the image. -/
theorem FetchFrame.mergeLayers {S : String → Prop} (hR : FetchFrame S D R) {m : MergeInput}
    (hS : S m.ostreeRef) : Steps R (imp.mergeLayers host lib m) := by
  refine hR.autoTransaction (fun r => ?_)
  rw [bind_of_ok (get_run r)]
  cases r.loadCommit m.baseCommit with
  | error e => exact hR.refl r
  | ok base =>
      rw [bind_of_ok (liftR_ok _ _)]
      cases m.layerCommits.mapM r.loadCommit with
      | error e => exact hR.refl r
      | ok layers =>
          rw [bind_of_ok (liftR_ok _ _)]
          cases hrun : host.mergeTrees r.toObjects (rootOf base) (layers.map rootOf)
              m.haveDerivedLayers with
          | error e => exact hR.refl r
          | ok p =>
              obtain ⟨hkeeps, hcommits⟩ := host.mergeTrees_adds _ _ _ _ p hrun
              have hwrite : ∀ commit : Commit, Steps R (do
                  let c ← Repo.writeCommit lib none commit
                  if imp.noImgref then Pure.pure ⟨⟩ else Repo.setRef m.ostreeRef (some c)
                  Pure.pure c : RepoM Checksum) := by
                intro commit
                refine Steps.bind hR.trans (hR.writeCommit commit) (fun c => ?_)
                dsimp only
                split
                · exact hR.pure c
                · exact Steps.bind hR.trans (hR.writesRef hS c) (fun _ => hR.pure c)
              exact hR.trans _ _ _ (hR.adds r p.2 hkeeps hcommits) (hwrite _ _)

end Import

/-- No object goes away, and no ref but those of `S` is written; none is removed. -/
structure Fetches (S : String → Prop) (r r' : Repo) : Prop where
  keeps : r.toObjects.Keeps r'.toObjects
  refs : ∀ ref : String, r'.refs[ref]? = r.refs[ref]? ∨ S ref ∧ ref ∈ r'.refs

section Fetches

variable {S : String → Prop}

theorem Fetches.of_sameRefs {r r' : Repo} (hkeeps : r.toObjects.Keeps r'.toObjects)
    (hrefs : r'.refs = r.refs) : Fetches S r r' :=
  ⟨hkeeps, fun ref => .inl (by rw [hrefs])⟩

theorem Fetches.refl (r : Repo) : Fetches S r r := .of_sameRefs (Objects.Keeps.refl _) rfl

theorem Fetches.trans {a b c : Repo} (h : Fetches S a b) (h' : Fetches S b c) : Fetches S a c where
  keeps := h.keeps.trans h'.keeps
  refs := by
    intro ref
    rcases h'.refs ref with heq | hnew
    · rcases h.refs ref with heq' | ⟨hS, hmem⟩
      · exact .inl (heq.trans heq')
      · obtain ⟨c, hc⟩ := ExtTreeMap.mem_iff_lookup.mp hmem
        exact .inr ⟨hS, ExtTreeMap.mem_iff_lookup.mpr ⟨c, heq.trans hc⟩⟩
    · exact .inr hnew

/-- A ref that is there stays, if not with its value. -/
theorem Fetches.mem {r r' : Repo} (h : Fetches S r r') {ref : String} (href : ref ∈ r.refs) :
    ref ∈ r'.refs := by
  rcases h.refs ref with heq | ⟨-, hmem⟩
  · obtain ⟨c, hc⟩ := ExtTreeMap.mem_iff_lookup.mp href
    exact ExtTreeMap.mem_iff_lookup.mpr ⟨c, heq.trans hc⟩
  · exact hmem

/-- A ref outside of `S` keeps its value. -/
theorem Fetches.lookup {r r' : Repo} (h : Fetches S r r') {ref : String} (href : ¬ S ref) :
    r'.refs[ref]? = r.refs[ref]? :=
  (h.refs ref).resolve_right (fun hnew => href hnew.1)

theorem Fetches.setRef (r : Repo) (ref : String) (c : Checksum) (hS : S ref) :
    Fetches S r (finalState (Repo.setRef ref (some c) r)) where
  keeps := Objects.Keeps.refl _
  refs := by
    intro ref'
    show (r.refs.insert ref c)[ref']? = r.refs[ref']? ∨ S ref' ∧ ref' ∈ r.refs.insert ref c
    by_cases h : ref = ref'
    · subst h
      refine .inr ⟨hS, ExtTreeMap.mem_iff_lookup.mpr ⟨c, ?_⟩⟩
      rw [ExtTreeMap.lookup_insert, if_pos rfl]
    · rw [ExtTreeMap.lookup_insert, if_neg h]
      exact .inl rfl

theorem Fetches.trans_step (a b c : Repo) (h : Fetches S a b) (h' : Fetches S b c) :
    Fetches S a c := h.trans h'

/-- **Before its last transaction**, an import writes refs of its layers, and no other ones. -/
theorem fetches_frame (S : String → Prop) : FetchFrame S (fun _ => True) (Fetches S) where
  frame _ := {
    refl := Fetches.refl
    trans := Fetches.trans_step
    harmless := fun _ _ h => .of_sameRefs h.keeps h.refs
    marked := fun _ => .of_sameRefs (Objects.Keeps.refl _) rfl
    commit := fun _ _ => .of_sameRefs (Objects.Keeps.insert_commit _ _ _) rfl
    commitmeta := fun _ _ _ => .of_sameRefs (Objects.Keeps.refl _) rfl
    accepted := fun _ _ _ _ => .of_sameRefs (Objects.Keeps.refl _) rfl }
  unmarked _ _ := .of_sameRefs (Objects.Keeps.refl _) rfl
  setRef := Fetches.setRef
  adds _ _ h _ := .of_sameRefs h rfl
  rollback _ _ _ := .of_sameRefs (Objects.Keeps.refl _) rfl

end Fetches

-- ── The last transaction ──────────────────────────────────────────────────────

/-- The commit that the last transaction writes. -/
def mergeCommit (m : MergeInput) (root : Root) : Commit :=
  { metadata := m.metadata, timestamp := m.timestamp, contents := root.contents,
    dirmeta := root.dirmeta }

section Merge

variable {host : Host} {lib : Libostree} {imp : ImageImporter} {m : MergeInput}

/-- The repository after the last transaction. -/
def ImageImporter.mergedRepo (imp : ImageImporter) (lib : Libostree) (m : MergeInput) (root : Root)
    (objects : Objects) (r : Repo) : Repo :=
  let c := lib.commitChecksum (mergeCommit m root)
  Repo.record (.wrote .commit c) { r with
    toObjects := { objects with commits := objects.commits.insertIfNew c (mergeCommit m root) }
    refs := if imp.noImgref then r.refs else r.refs.insert m.ostreeRef c }

/-- What the last transaction has read and written when it is done. -/
structure Merges (host : Host) (lib : Libostree) (imp : ImageImporter) (m : MergeInput)
    (r : Repo) (c : Checksum) (r' : Repo) (root : Root) (objects : Objects) : Prop where
  loads : ∃ base layers, r.loadCommit m.baseCommit = .ok base ∧
    m.layerCommits.mapM r.loadCommit = .ok layers ∧
    host.mergeTrees r.toObjects (rootOf base) (layers.map rootOf) m.haveDerivedLayers
      = .ok (root, objects)
  result : c = lib.commitChecksum (mergeCommit m root)
  repo : r' = imp.mergedRepo lib m root objects r

theorem mergeLayers_run {r : Repo} {base : Commit} {layers : List Commit} {root : Root}
    {objects : Objects} (hbase : r.loadCommit m.baseCommit = .ok base)
    (hlayers : m.layerCommits.mapM r.loadCommit = .ok layers)
    (htrees : host.mergeTrees r.toObjects (rootOf base) (layers.map rootOf) m.haveDerivedLayers
      = .ok (root, objects)) :
    imp.mergeLayers host lib m r
      = .ok (lib.commitChecksum (mergeCommit m root)) (imp.mergedRepo lib m root objects r) := by
  rw [ImageImporter.mergeLayers, Repo.autoTransaction, bind_of_ok (get_run r), hbase,
    bind_of_ok (liftR_ok _ _), hlayers, bind_of_ok (liftR_ok _ _), htrees,
    ImageImporter.mergedRepo]
  cases imp.noImgref <;> rfl

/-- **The last transaction** succeeds as described, or changes nothing but the history. -/
theorem mergeLayers_cases (r : Repo) :
    (∃ c r' root objects, imp.mergeLayers host lib m r = .ok c r' ∧
      Merges host lib imp m r c r' root objects) ∨
    ∃ e r', imp.mergeLayers host lib m r = .error e r' ∧ r'.toObjects = r.toObjects ∧
      r'.refs = r.refs ∧ r'.commitmetas = r.commitmetas := by
  cases hbase : r.loadCommit m.baseCommit with
  | error e =>
      refine .inr ⟨e, _, ?_, rfl, rfl, rfl⟩
      rw [ImageImporter.mergeLayers, Repo.autoTransaction, bind_of_ok (get_run r), hbase]
      rfl
  | ok base =>
      cases hlayers : m.layerCommits.mapM r.loadCommit with
      | error e =>
          refine .inr ⟨e, _, ?_, rfl, rfl, rfl⟩
          rw [ImageImporter.mergeLayers, Repo.autoTransaction, bind_of_ok (get_run r), hbase,
            bind_of_ok (liftR_ok _ _), hlayers]
          rfl
      | ok layers =>
          cases htrees : host.mergeTrees r.toObjects (rootOf base) (layers.map rootOf)
              m.haveDerivedLayers with
          | error e =>
              refine .inr ⟨e, _, ?_, rfl, rfl, rfl⟩
              rw [ImageImporter.mergeLayers, Repo.autoTransaction, bind_of_ok (get_run r), hbase,
                bind_of_ok (liftR_ok _ _), hlayers, bind_of_ok (liftR_ok _ _), htrees]
              rfl
          | ok p =>
              obtain ⟨root, objects⟩ := p
              exact .inl ⟨_, _, root, objects, mergeLayers_run hbase hlayers htrees,
                ⟨base, layers, hbase, hlayers, htrees⟩, rfl, rfl⟩

end Merge

end OstreeExt.Store
