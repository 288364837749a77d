import OstreeExt.Store.Layout

/-!
# Reading stored images

A stored image is a merge commit whose metadata holds the manifest, its digest and the
image configuration.  Updates that were found but not fetched are cached in the detached
metadata of that commit.
-/

namespace OstreeExt.Store

open OstreeExt Refescape

/-- `META_MANIFEST_DIGEST` -/
def metaManifestDigest : String := "ostree.manifest-digest"

/-- `META_MANIFEST` -/
def metaManifest : String := "ostree.manifest"

/-- `META_CONFIG` -/
def metaConfig : String := "ostree.container.image-config"

/-- `META_FILTERED` -/
def metaFiltered : String := "ostree.tar-filtered"

/-- `CACHED_KEY_MANIFEST_DIGEST` -/
def cachedKeyManifestDigest : String := "ostree-ext.cached.manifest-digest"

/-- `CACHED_KEY_MANIFEST` -/
def cachedKeyManifest : String := "ostree-ext.cached.manifest"

/-- `CACHED_KEY_CONFIG` -/
def cachedKeyConfig : String := "ostree-ext.cached.config"

/-- The value is of the string type. -/
def isStr : Value → Bool
  | .str _ | .digest _ | .manifest _ | .config _ => true
  | .filtered _ | .other _ => false

/-- `VariantDict::lookup::<String>`: a value of another type is an error. -/
def lookupStr (commitMeta : Dict) (key : String) : Result (Option Value) :=
  match commitMeta[key]? with
  | none => .ok none
  | some v => if isStr v then .ok (some v) else .error (.err "Type mismatch: Expected 's'")

/-- `Digest::from_str` -/
def digestFromStr : Value → Result Digest
  | .digest d => .ok d
  | _ => .error (.err "Invalid digest")

/-- `serde_json::from_str` to a manifest. -/
def manifestFromStr : Value → Result ImageManifest
  | .manifest m => .ok m
  | _ => .error (.err "Invalid manifest")

/-- `serde_json::from_str` to a configuration. -/
def configFromStr : Value → Result ImageConfiguration
  | .config c => .ok c
  | _ => .error (.err "Invalid configuration")

/-- `manifest_data_from_commitmeta` -/
def manifestDataFromCommitmeta (commitMeta : Dict) : Result (ImageManifest × Digest) := do
  let digest ← lookupStr commitMeta metaManifestDigest
  let digest ← okOr ("Missing " ++ metaManifestDigest ++ " metadata on merge commit") digest
  let digest ← digestFromStr digest
  let manifestBytes ← lookupStr commitMeta metaManifest
  let manifestBytes ← okOr ("Failed to find " ++ metaManifest ++ " metadata key") manifestBytes
  let r ← manifestFromStr manifestBytes
  .ok (r, digest)

/-- `image_config_from_commitmeta`: old versions stored `null`. -/
def imageConfigFromCommitmeta (commitMeta : Dict) : Result ImageConfiguration := do
  match ← lookupStr commitMeta metaConfig with
  | none => .ok {}
  | some v => if v = .str "null" then .ok {} else configFromStr v

/-- `CachedImageUpdate` -/
structure CachedImageUpdate where
  manifest : ImageManifest
  config : ImageConfiguration
  manifestDigest : Digest
  deriving DecidableEq

/-- `LayeredImageState` -/
structure LayeredImageState where
  baseCommit : Checksum
  mergeCommit : Checksum
  manifestDigest : Digest
  manifest : ImageManifest
  configuration : ImageConfiguration
  cachedUpdate : Option CachedImageUpdate
  deriving DecidableEq

/-- `lookup_value(key, None)` and then `str()`: a value of another type counts as absent. -/
def lookupValueStr (m : Dict) (key : String) : Option Value := m[key]?.filter isStr

/-- `parse_cached_update` -/
def parseCachedUpdate (m : Dict) : Result (Option CachedImageUpdate) := do
  match ← lookupStr m cachedKeyManifestDigest with
  | none => .ok none
  | some digest => do
      let manifestDigest ← digestFromStr digest
      let manifest ← okOr ("Expected cached manifest " ++ cachedKeyManifest)
        (lookupValueStr m cachedKeyManifest)
      let manifest ← manifestFromStr manifest
      let config ← okOr ("Expected cached manifest " ++ cachedKeyConfig)
        (lookupValueStr m cachedKeyConfig)
      let config ← configFromStr config
      .ok (some { manifest, config, manifestDigest })

/-- The cached update of a commit, if it has detached metadata. -/
def cachedUpdateOf (repo : Repo) (commit : Checksum) : Result (Option CachedImageUpdate) :=
  match repo.commitmetas[commit]? with
  | none => .ok none
  | some m => parseCachedUpdate m

/-- `query_image_commit` -/
def queryImageCommit (repo : Repo) (commit : Checksum) : Result LayeredImageState := do
  let mergeCommitObj ← repo.loadCommit commit
  let (manifest, manifestDigest) ← manifestDataFromCommitmeta mergeCommitObj.metadata
  let configuration ← imageConfigFromCommitmeta mergeCommitObj.metadata
  let baseLayer ← okOr "No layers found" manifest.layers.head?
  let baseLayer ← queryLayer repo baseLayer
  let baseCommit ← okOr ("Missing base image ref " ++ baseLayer.ostreeRef) baseLayer.commit
  let cachedUpdate ← cachedUpdateOf repo commit
  .ok { baseCommit, mergeCommit := commit, manifestDigest, manifest, configuration, cachedUpdate }

/-- `query_image` -/
def queryImage (repo : Repo) (imgref : ImageReference) : Result (Option LayeredImageState) := do
  let ostreeRef ← refForImage imgref
  match repo.resolveRev ostreeRef with
  | none => .ok none
  | some r => (queryImageCommit repo r).map some

/-- `try_query_image`: an image that cannot be queried counts as absent. -/
def tryQueryImage (repo : Repo) (imgref : ImageReference) : Result (Option LayeredImageState) := do
  let ostreeRef ← refForImage imgref
  match repo.resolveRev ostreeRef with
  | none => .ok none
  | some mergeRev =>
      match queryImageCommit repo mergeRev with
      | .ok r => .ok (some r)
      | .error _ => .ok none

/-- The manifest in the metadata of a stored commit. -/
def manifestOfCommit (repo : Repo) (rev : Checksum) : Result ImageManifest := do
  let commitObj ← repo.loadCommit rev
  let data ← manifestDataFromCommitmeta commitObj.metadata
  .ok data.1

/-- `manifest_for_image` -/
def manifestForImage (repo : Repo) (imgref : ImageReference) : Result ImageManifest := do
  let ostreeRef ← refForImage imgref
  let rev ← repo.requireRev ostreeRef
  manifestOfCommit repo rev

/-- `remove_image` -/
def removeImage (img : ImageReference) : RepoM Bool := do
  let ostreeRef ← liftR (refForImage img)
  let found := ((← get).resolveRev ostreeRef).isSome
  if found then Repo.setRef ostreeRef none
  pure found

-- ── What a query says ─────────────────────────────────────────────────────────

/-- A manifest can be read only where there is a digest. -/
theorem mem_of_manifestData {m : Dict} {p : ImageManifest × Digest}
    (h : manifestDataFromCommitmeta m = .ok p) :
    ∃ v, m[metaManifestDigest]? = some v ∧ isStr v = true := by
  obtain ⟨o, hlookup, h⟩ := result_bind_eq_ok.mp h
  obtain ⟨v, hsome, _⟩ := result_bind_eq_ok.mp h
  obtain rfl := okOr_eq_ok.mp hsome
  rw [lookupStr] at hlookup
  cases hv : m[metaManifestDigest]? with
  | none => rw [hv] at hlookup; exact absurd hlookup (by simp)
  | some w =>
      rw [hv] at hlookup
      by_cases hw : isStr w = true
      · exact ⟨w, rfl, hw⟩
      · simp only [hw] at hlookup
        exact absurd hlookup (by simp)

/-- What the state of a stored image is read from. -/
structure ImageStateOf (repo : Repo) (commit : Checksum) (s : LayeredImageState) (obj : Commit)
    (base : Descriptor) (ref : String) : Prop where
  mergeCommit : s.mergeCommit = commit
  stored : repo.loadCommit commit = .ok obj
  data : manifestDataFromCommitmeta obj.metadata = .ok (s.manifest, s.manifestDigest)
  config : imageConfigFromCommitmeta obj.metadata = .ok s.configuration
  head : s.manifest.layers.head? = some base
  layerRef : refForLayer base = .ok ref
  baseCommit : repo.refs[ref]? = some s.baseCommit
  update : cachedUpdateOf repo commit = .ok s.cachedUpdate

theorem queryImageCommit_iff {repo : Repo} {commit : Checksum} {s : LayeredImageState} :
    queryImageCommit repo commit = .ok s ↔ ∃ obj base ref, ImageStateOf repo commit s obj base ref := by
  constructor
  · intro h
    obtain ⟨obj, hobj, h⟩ := result_bind_eq_ok.mp h
    obtain ⟨⟨manifest, digest⟩, hdata, h⟩ := result_bind_eq_ok.mp h
    obtain ⟨config, hconfig, h⟩ := result_bind_eq_ok.mp h
    obtain ⟨base, hbase, h⟩ := result_bind_eq_ok.mp h
    obtain ⟨layer, hlayer, h⟩ := result_bind_eq_ok.mp h
    obtain ⟨baseCommit, hcommit, h⟩ := result_bind_eq_ok.mp h
    obtain ⟨update, hupdate, h⟩ := result_bind_eq_ok.mp h
    injection h with h
    subst h
    obtain ⟨_, href, hquery⟩ := queryLayer_eq_ok hlayer
    exact ⟨obj, base, layer.ostreeRef, rfl, hobj, hdata, hconfig, okOr_eq_ok.mp hbase, href,
      hquery.symm.trans (okOr_eq_ok.mp hcommit), hupdate⟩
  · rintro ⟨obj, base, ref, rfl, hobj, hdata, hconfig, hbase, href, hcommit, hupdate⟩
    have hlayer : queryLayer repo base
        = .ok { layer := base, ostreeRef := ref, commit := some s.baseCommit } := by
      rw [queryLayer, href, bind_ok_eq, resolveRev_of_escape href, hcommit]
    rw [queryImageCommit, hobj, bind_ok_eq, hdata, bind_ok_eq]
    dsimp only
    rw [hconfig, bind_ok_eq, hbase, okOr_some, bind_ok_eq, hlayer, bind_ok_eq]
    dsimp only
    rw [okOr_some, bind_ok_eq, hupdate, bind_ok_eq]

theorem ImageStateOf.manifest {repo : Repo} {commit : Checksum} {s : LayeredImageState}
    {obj : Commit} {base : Descriptor} {ref : String} (h : ImageStateOf repo commit s obj base ref) :
    manifestOfCommit repo commit = .ok s.manifest := by
  rw [manifestOfCommit, h.stored, bind_ok_eq, h.data]
  rfl

end OstreeExt.Store
