import OstreeExt.Store.Importer

/-!
# Preparing an import

`prepare` has three exits.  The image is stored already, under the digest that the remote serves
or under the same image ID; or there is something to fetch, and then the served manifest is cached
in the detached metadata of the stored image; or it fails.
-/

namespace OstreeExt.Store

open OstreeExt Tar Exec Std

variable {host : Host} {imp : ImageImporter}

-- ── Creating a prepared import ────────────────────────────────────────────────

/-- What `require_bootable` asks of a configuration. -/
def Bootable (host : Host) (config : ImageConfiguration) : Prop :=
  isBootable config = true ∧ config.architecture = host.arch

theorem checkBootable_eq_ok {config : ImageConfiguration} :
    checkBootable host config = .ok () ↔ Bootable host config := by
  rw [checkBootable, Bootable]
  by_cases hboot : isBootable config = true
  · by_cases harch : config.architecture = host.arch <;> simp [hboot, harch]
  · simp [hboot]

/-- The layers of a prepared import are those of its manifest, with the commits that the
    repository has for them. -/
structure PreparedImport.LaidOut (prep : PreparedImport) (repo : Repo)
    (commitLayer : Descriptor) (componentLayers remainingLayers : List Descriptor) : Prop where
  layout : parseManifestLayout prep.manifest prep.config
    = .ok (commitLayer, componentLayers, remainingLayers)
  commitLayer : queryLayer repo commitLayer = .ok prep.ostreeCommitLayer
  ostreeLayers : componentLayers.mapM (queryLayer repo) = .ok prep.ostreeLayers
  layers : remainingLayers.mapM (queryLayer repo) = .ok prep.layers

/-- What `create_prepared_import` returns. -/
structure ImageImporter.Creates (imp : ImageImporter) (host : Host) (repo : Repo)
    (manifestDigest : Digest) (manifest : ImageManifest) (config : ImageConfiguration)
    (previousState : Option LayeredImageState) (prep : PreparedImport) : Prop where
  sameDigest : prep.manifestDigest = manifestDigest
  sameManifest : prep.manifest = manifest
  sameConfig : prep.config = config
  samePrevious : prep.previousState = previousState
  bootable : imp.requireBootable = true → Bootable host config
  laidOut : ∃ commitLayer componentLayers remainingLayers,
    prep.LaidOut repo commitLayer componentLayers remainingLayers

theorem createPreparedImport_ok {repo : Repo} {manifestDigest : Digest} {manifest : ImageManifest}
    {config : ImageConfiguration} {previousState : Option LayeredImageState}
    {previousImageid : Option Digest} {prep : PreparedImport}
    (h : imp.createPreparedImport host repo manifestDigest manifest config previousState
      previousImageid = .ok prep) :
    imp.Creates host repo manifestDigest manifest config previousState prep := by
  -- the check of the label is made first, when it is asked for
  have hguard : ∀ {c : Prop} [Decidable c] {check : Result Unit} {rest : Result PreparedImport},
      (if c then check >>= fun _ => rest else rest) = .ok prep →
        (c → check = .ok ()) ∧ rest = .ok prep := by
    intro c _ check rest hrun
    by_cases hc : c
    · rw [if_pos hc] at hrun
      obtain ⟨_, hcheck, hrest⟩ := result_bind_eq_ok.mp hrun
      exact ⟨fun _ => hcheck, hrest⟩
    · rw [if_neg hc] at hrun
      exact ⟨fun hc' => absurd hc' hc, hrun⟩
  rw [ImageImporter.createPreparedImport] at h
  obtain ⟨hboot, h₁⟩ := hguard h
  obtain ⟨⟨commitLayer, components, remaining⟩, hlayout, h₂⟩ := result_bind_eq_ok.mp h₁
  obtain ⟨commit, hcommit, h₃⟩ := result_bind_eq_ok.mp h₂
  obtain ⟨ostree, hostree, h₄⟩ := result_bind_eq_ok.mp h₃
  obtain ⟨layers, hlayers, h₅⟩ := result_bind_eq_ok.mp h₄
  injection h₅ with h₅
  subst h₅
  refine ⟨rfl, rfl, rfl, rfl, ?_, commitLayer, components, remaining, hlayout, hcommit, hostree,
    hlayers⟩
  exact fun hrequire => checkBootable_eq_ok.mp (hboot hrequire)

section LaidOut

variable {prep : PreparedImport} {repo : Repo} {commitLayer : Descriptor}
  {componentLayers remainingLayers : List Descriptor}

/-- Each layer was queried. -/
theorem PreparedImport.LaidOut.queried
    (h : prep.LaidOut repo commitLayer componentLayers remainingLayers)
    {layer : ManifestLayerState} (hlayer : layer ∈ prep.allLayers) :
    queryLayer repo layer.layer = .ok layer := by
  have hquery : ∃ l, queryLayer repo l = .ok layer := by
    rw [PreparedImport.allLayers, List.cons_append, List.mem_cons, List.mem_append] at hlayer
    rcases hlayer with rfl | hchunk | hderived
    · exact ⟨_, h.commitLayer⟩
    · obtain ⟨l, -, hl⟩ := (mem_mapM h.ostreeLayers layer).mp hchunk
      exact ⟨l, hl⟩
    · obtain ⟨l, -, hl⟩ := (mem_mapM h.layers layer).mp hderived
      exact ⟨l, hl⟩
  obtain ⟨l, hl⟩ := hquery
  obtain ⟨rfl, -, -⟩ := queryLayer_eq_ok hl
  exact hl

/-- No layer of the manifest is left out. -/
theorem PreparedImport.LaidOut.covers
    (h : prep.LaidOut repo commitLayer componentLayers remainingLayers) {l : Descriptor}
    (hl : l ∈ prep.manifest.layers) : ∃ layer ∈ prep.allLayers, layer.layer = l := by
  obtain ⟨pre, target, id, hlayout, hchunks⟩ := layout_of_parse h.layout
  have hof : ∀ {ls : List Descriptor} {states : List ManifestLayerState},
      ls.mapM (queryLayer repo) = .ok states → l ∈ ls → ∃ layer ∈ states, layer.layer = l := by
    intro ls states hmap hmem
    obtain ⟨layer, hlayer⟩ := exists_of_mapM hmap hmem
    exact ⟨layer, (mem_mapM hmap layer).mpr ⟨l, hmem, hlayer⟩, (queryLayer_eq_ok hlayer).1⟩
  have hcases : l = commitLayer ∨ l ∈ componentLayers ∨ l ∈ remainingLayers := by
    rw [hlayout.layers, List.mem_append, List.mem_cons] at hl
    by_cases hfirst : l = commitLayer
    · exact .inl hfirst
    · rw [hchunks, List.mem_filter, List.mem_append, List.mem_singleton]
      rcases hl with hpre | rfl | hpost
      · exact .inr (.inl ⟨.inl hpre, by simp [hfirst]⟩)
      · exact .inr (.inl ⟨.inr rfl, by simp [hfirst]⟩)
      · exact .inr (.inr hpost)
  rcases hcases with rfl | hchunk | hderived
  · exact ⟨_, List.mem_cons_self .., (queryLayer_eq_ok h.commitLayer).1⟩
  · obtain ⟨layer, hmem, heq⟩ := hof h.ostreeLayers hchunk
    exact ⟨layer, List.mem_append_left _ (List.mem_cons_of_mem _ hmem), heq⟩
  · obtain ⟨layer, hmem, heq⟩ := hof h.layers hderived
    exact ⟨layer, List.mem_append_right _ hmem, heq⟩

end LaidOut

-- ── The exits of `prepare` ────────────────────────────────────────────────────

/-- The detached metadata that `cache_pending` writes. -/
def pendingMetadata (manifestDigest : Digest) (manifest : ImageManifest)
    (config : ImageConfiguration) : Dict :=
  (((∅ : Dict).insert cachedKeyManifestDigest (.digest manifestDigest)).insert cachedKeyManifest
    (.manifest manifest)).insert cachedKeyConfig (.config config)

/-- The repository in which an update is pending: it is cached with the image that is stored. -/
def cachedRepo (previous : Option LayeredImageState) (manifestDigest : Digest)
    (manifest : ImageManifest) (config : ImageConfiguration) (r : Repo) : Repo :=
  match previous with
  | none => r
  | some state => Repo.record (.wrote .commitMeta state.mergeCommit) { r with
      commitmetas := r.commitmetas.insert state.mergeCommit
        (pendingMetadata manifestDigest manifest config) }

/-- The stored image of the reference has the digest that the remote serves, or its image ID. -/
structure ImageImporter.Finds (imp : ImageImporter) (host : Host) (r : Repo)
    (state : LayeredImageState) : Prop where
  allowed : imp.checkSigverify host false = .ok ()
  stored : tryQueryImage r imp.imgref.imgref = .ok (some state)
  served : ∃ manifestDigest manifest, imp.proxy.fetchManifest = .ok (manifestDigest, manifest) ∧
    (state.manifestDigest = manifestDigest ∨
      state.manifest.config.digest = manifest.config.digest)

/-- The stored image of the reference is another one than the remote serves. -/
structure ImageImporter.Differs (imp : ImageImporter) (host : Host) (r : Repo)
    (state : LayeredImageState) : Prop where
  allowed : imp.checkSigverify host false = .ok ()
  stored : tryQueryImage r imp.imgref.imgref = .ok (some state)
  served : ∃ manifestDigest manifest, imp.proxy.fetchManifest = .ok (manifestDigest, manifest) ∧
    state.manifestDigest ≠ manifestDigest ∧ state.manifest.config.digest ≠ manifest.config.digest

/-- There is an update, or no image is stored. -/
structure ImageImporter.Updates (imp : ImageImporter) (host : Host) (r : Repo)
    (prep : PreparedImport) (r' : Repo) : Prop where
  stored : tryQueryImage r imp.imgref.imgref = .ok prep.previousState
  differs : ∀ state, prep.previousState = some state → imp.Differs host r state
  served : imp.proxy.fetchManifest = .ok (prep.manifestDigest, prep.manifest)
  config : imp.proxy.fetchConfig = .ok prep.config
  repo : r' = cachedRepo prep.previousState prep.manifestDigest prep.manifest prep.config r
  created : imp.Creates host r' prep.manifestDigest prep.manifest prep.config prep.previousState
    prep

/-- A repository that differs from another one in its history and in detached metadata. -/
structure SameButMeta (r r' : Repo) : Prop where
  objects : r'.toObjects = r.toObjects
  refs : r'.refs = r.refs

theorem SameButMeta.refl (r : Repo) : SameButMeta r r := ⟨rfl, rfl⟩

theorem cachedRepo_same (previous : Option LayeredImageState) (manifestDigest : Digest)
    (manifest : ImageManifest) (config : ImageConfiguration) (r : Repo) :
    SameButMeta r (cachedRepo previous manifestDigest manifest config r) := by
  cases previous <;> exact ⟨rfl, rfl⟩

theorem prepareUpdate_run {manifestDigest : Digest} {manifest : ImageManifest}
    {previous : Option LayeredImageState} {config : ImageConfiguration} {r : Repo}
    (h : imp.proxy.fetchConfig = .ok config) :
    imp.prepareUpdate host manifestDigest manifest previous r =
      ((do
        let prep ← liftR (imp.createPreparedImport host
          (cachedRepo previous manifestDigest manifest config r) manifestDigest manifest config
          previous (previous.map (·.manifest.config.digest)))
        pure (.ready prep) : RepoM PrepareResult)
          (cachedRepo previous manifestDigest manifest config r)) := by
  rw [ImageImporter.prepareUpdate, h, bind_of_ok (liftR_ok _ _)]
  cases previous <;> rfl

/-- What `prepare` does to the repository in any case. -/
inductive ImageImporter.Prepares (imp : ImageImporter) (host : Host) (r : Repo) :
    EStateM.Result Stop Repo PrepareResult → Prop
  | failed (e : Stop) : imp.Prepares host r (.error e r)
  | refused (e : Stop) {previous : Option LayeredImageState} {manifestDigest : Digest}
      {manifest : ImageManifest} {config : ImageConfiguration}
      (differs : ∀ state, previous = some state → imp.Differs host r state) :
      imp.Prepares host r (.error e (cachedRepo previous manifestDigest manifest config r))
  | present {state : LayeredImageState} (found : imp.Finds host r state) :
      imp.Prepares host r (.ok (.alreadyPresent state) r)
  | ready {prep : PreparedImport} {r' : Repo} (update : imp.Updates host r prep r') :
      imp.Prepares host r (.ok (.ready prep) r')

theorem prepareUpdate_prepares {manifestDigest : Digest} {manifest : ImageManifest}
    {previous : Option LayeredImageState} {r : Repo}
    (hstored : tryQueryImage r imp.imgref.imgref = .ok previous)
    (hdiffers : ∀ state, previous = some state → imp.Differs host r state)
    (hserved : imp.proxy.fetchManifest = .ok (manifestDigest, manifest)) :
    imp.Prepares host r (imp.prepareUpdate host manifestDigest manifest previous r) := by
  cases hconfig : imp.proxy.fetchConfig with
  | error e =>
      rw [ImageImporter.prepareUpdate, hconfig, bind_of_error (liftR_error _ _)]
      exact .failed e
  | ok config =>
      rw [prepareUpdate_run hconfig]
      cases hcreate : imp.createPreparedImport host
          (cachedRepo previous manifestDigest manifest config r) manifestDigest manifest config
          previous (previous.map (·.manifest.config.digest)) with
      | error e =>
          rw [bind_of_error (liftR_error _ _)]
          exact .refused e hdiffers
      | ok prep =>
          rw [bind_of_ok (liftR_ok _ _)]
          have hcreates := createPreparedImport_ok hcreate
          obtain rfl := hcreates.sameDigest
          obtain rfl := hcreates.sameManifest
          obtain rfl := hcreates.sameConfig
          obtain rfl := hcreates.samePrevious
          exact .ready ⟨hstored, hdiffers, hserved, hconfig, rfl, hcreates⟩

/-- **The exits of `prepare`.** -/
theorem prepare_prepares (r : Repo) : imp.Prepares host r (imp.prepare host r) := by
  rw [ImageImporter.prepare, ImageImporter.prepareInternal]
  cases hsig : imp.checkSigverify host false with
  | error e =>
      rw [bind_of_error (liftR_error _ _)]
      exact .failed e
  | ok u =>
      rw [bind_of_ok (liftR_ok _ _)]
      cases hserved : imp.proxy.fetchManifest with
      | error e =>
          rw [bind_of_error (liftR_error _ _)]
          exact .failed e
      | ok p =>
          obtain ⟨manifestDigest, manifest⟩ := p
          rw [bind_of_ok (liftR_ok _ _)]
          dsimp only
          rw [bind_of_ok (get_run r)]
          cases hstored : tryQueryImage r imp.imgref.imgref with
          | error e =>
              rw [bind_of_error (liftR_error _ _)]
              exact .failed e
          | ok previous =>
              rw [bind_of_ok (liftR_ok _ _)]
              cases previous with
              | none =>
                  exact prepareUpdate_prepares hstored (fun _ h => absurd h (by simp)) hserved
              | some state =>
                  dsimp only
                  split
                  · next hdigest =>
                      exact .present ⟨hsig, hstored, _, _, hserved, .inl hdigest⟩
                  split
                  · next himageid =>
                      exact .present ⟨hsig, hstored, _, _, hserved, .inr himageid⟩
                  · next hdigest himageid =>
                      refine prepareUpdate_prepares hstored (fun state' h => ?_) hserved
                      obtain rfl := Option.some.inj h
                      exact ⟨hsig, hstored, _, _, hserved, hdigest, himageid⟩

/-- `prepare` writes no ref. -/
theorem prepare_same (host : Host) (imp : ImageImporter) (r : Repo) :
    SameButMeta r (finalState (imp.prepare host r)) := by
  have hcases : imp.Prepares host r (imp.prepare host r) := prepare_prepares r
  generalize imp.prepare host r = out at hcases
  cases hcases with
  | failed e => exact SameButMeta.refl r
  | refused e _ => exact cachedRepo_same _ _ _ _ r
  | present _ => exact SameButMeta.refl r
  | ready hupdate =>
      rw [finalState_ok, hupdate.repo]
      exact cachedRepo_same _ _ _ _ r

/-- It leaves the history in place. -/
theorem prepare_history (host : Host) (imp : ImageImporter) (r : Repo) :
    r.trace <+: (finalState (imp.prepare host r)).trace := by
  have hcached : ∀ previous manifestDigest manifest config,
      r.trace <+: (cachedRepo previous manifestDigest manifest config r).trace := by
    intro previous manifestDigest manifest config
    cases previous with
    | none => exact List.prefix_refl _
    | some state => exact List.prefix_append _ _
  have hcases : imp.Prepares host r (imp.prepare host r) := prepare_prepares r
  generalize imp.prepare host r = out at hcases
  cases hcases with
  | failed e => exact List.prefix_refl _
  | refused e _ => exact hcached _ _ _ _
  | present _ => exact List.prefix_refl _
  | ready hupdate =>
      rw [finalState_ok, hupdate.repo]
      exact hcached _ _ _ _

/-- An image that is there is found. -/
theorem prepare_of_finds {r : Repo} {state : LayeredImageState} (h : imp.Finds host r state) :
    imp.prepare host r = .ok (.alreadyPresent state) r := by
  obtain ⟨manifestDigest, manifest, hserved, hmatch⟩ := h.served
  rw [ImageImporter.prepare, ImageImporter.prepareInternal, h.allowed, bind_of_ok (liftR_ok _ _),
    hserved, bind_of_ok (liftR_ok _ _)]
  dsimp only
  rw [bind_of_ok (get_run r), h.stored, bind_of_ok (liftR_ok _ _)]
  dsimp only
  by_cases hdigest : state.manifestDigest = manifestDigest
  · rw [if_pos hdigest]
    rfl
  · rw [if_neg hdigest, if_pos (hmatch.resolve_left hdigest)]
    rfl

theorem prepare_eq_present {r r' : Repo} {state : LayeredImageState} :
    imp.prepare host r = .ok (.alreadyPresent state) r' ↔ imp.Finds host r state ∧ r' = r := by
  constructor
  · intro h
    have hcases : imp.Prepares host r (imp.prepare host r) := prepare_prepares r
    rw [h] at hcases
    cases hcases with
    | present found => exact ⟨found, rfl⟩
  · rintro ⟨hfound, rfl⟩
    exact prepare_of_finds hfound

theorem prepare_eq_ready {r r' : Repo} {prep : PreparedImport}
    (h : imp.prepare host r = .ok (.ready prep) r') : imp.Updates host r prep r' := by
  have hcases : imp.Prepares host r (imp.prepare host r) := prepare_prepares r
  rw [h] at hcases
  cases hcases with
  | ready update => exact update

/-- An image that is not stored is prepared without writing anything. -/
theorem prepare_of_absent {r : Repo} {manifestDigest : Digest} {manifest : ImageManifest}
    {config : ImageConfiguration} {prep : PreparedImport}
    (hallowed : imp.checkSigverify host false = .ok ())
    (hserved : imp.proxy.fetchManifest = .ok (manifestDigest, manifest))
    (hstored : tryQueryImage r imp.imgref.imgref = .ok none)
    (hconfig : imp.proxy.fetchConfig = .ok config)
    (hcreate : imp.createPreparedImport host r manifestDigest manifest config none none
      = .ok prep) : imp.prepare host r = .ok (.ready prep) r := by
  rw [ImageImporter.prepare, ImageImporter.prepareInternal, hallowed, bind_of_ok (liftR_ok _ _),
    hserved, bind_of_ok (liftR_ok _ _)]
  dsimp only
  rw [bind_of_ok (get_run r), hstored, bind_of_ok (liftR_ok _ _)]
  dsimp only
  rw [prepareUpdate_run hconfig]
  show (do
    let prep ← liftR (imp.createPreparedImport host r manifestDigest manifest config none none)
    pure (.ready prep) : RepoM PrepareResult) r = _
  rw [hcreate]
  rfl

/-- An update is cached, whether it can be prepared or not. -/
theorem prepare_of_differs {r : Repo} {state : LayeredImageState} (h : imp.Differs host r state)
    {manifestDigest : Digest} {manifest : ImageManifest} {config : ImageConfiguration}
    (hserved : imp.proxy.fetchManifest = .ok (manifestDigest, manifest))
    (hconfig : imp.proxy.fetchConfig = .ok config) :
    finalState (imp.prepare host r) = cachedRepo (some state) manifestDigest manifest config r := by
  obtain ⟨manifestDigest', manifest', hserved', hdigest, himageid⟩ := h.served
  obtain ⟨rfl, rfl⟩ := Prod.mk.inj (Except.ok.inj (hserved.symm.trans hserved'))
  rw [ImageImporter.prepare, ImageImporter.prepareInternal, h.allowed, bind_of_ok (liftR_ok _ _),
    hserved, bind_of_ok (liftR_ok _ _)]
  dsimp only
  rw [bind_of_ok (get_run r), h.stored, bind_of_ok (liftR_ok _ _)]
  dsimp only
  rw [if_neg hdigest, if_neg himageid, prepareUpdate_run hconfig]
  cases imp.createPreparedImport host (cachedRepo (some state) manifestDigest manifest config r)
    manifestDigest manifest config (some state) ((some state).map (·.manifest.config.digest)) <;> rfl

end OstreeExt.Store
