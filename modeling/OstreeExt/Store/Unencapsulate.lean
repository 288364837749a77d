import OstreeExt.Store.Trust
import OstreeExt.Tar.Truncated

/-!
# Unencapsulating without a panic

`unencapsulate` prepares like an import, and panics where that finds the image: "Should not have
image present for unencapsulation".  Nothing keeps an earlier import from having stored it.  The
other panic that it can come to is the assertion on metadata objects of the commit archive
(`ComesToDamaged`).  **`unencapsulate_safe_iff`**: in whatever repository a run of calls leaves
behind, it returns the commit of the commit layer, or an error, if and only if it comes to neither
of the two.
-/

namespace OstreeExt.Store

open OstreeExt Tar Exec Std Refescape

-- ── Queries report their errors ───────────────────────────────────────────────

section Queries

theorem not_refuses_mapM {α β : Type} {f : α → Result β} {l : List α}
    (h : ∀ a ∈ l, ¬ Refuses Stop.Aborts (f a)) : ¬ Refuses Stop.Aborts (l.mapM f) := by
  induction l with
  | nil => exact not_refuses_ok _
  | cons a l ih =>
      rw [List.mapM_cons, refuses_bind_iff]
      rintro (hfirst | ⟨b, _, hrest⟩)
      · exact h a (List.mem_cons_self ..) hfirst
      rw [refuses_bind_iff] at hrest
      rcases hrest with hrest | ⟨bs, _, hend⟩
      · exact ih (fun a' ha' => h a' (List.mem_cons_of_mem _ ha')) hrest
      · exact not_refuses_ok _ hend

theorem not_refuses_escapeLoop (s : List Char) (prev : Bool) :
    ¬ Refuses Stop.Aborts (escapeLoop prev s) := by
  induction s generalizing prev with
  | nil => exact not_refuses_ok _
  | cons c s ih =>
      rw [escapeLoop]
      split
      · simp
      · rw [refuses_map_iff]
        exact ih _

/-- Escaping a name. -/
theorem not_refuses_prefixEscapeForRef (pfx s : String) :
    ¬ Refuses Stop.Aborts (prefixEscapeForRef pfx s) := by
  rw [prefixEscapeForRef, refuses_map_iff, escapeForRef]
  split
  · simp
  · exact not_refuses_escapeLoop _ _

theorem not_refuses_queryLayer (repo : Repo) (layer : Descriptor) :
    ¬ Refuses Stop.Aborts (queryLayer repo layer) := by
  rw [queryLayer, refuses_bind_iff]
  rintro (h | ⟨ref, _, h⟩)
  · exact not_refuses_prefixEscapeForRef _ _ h
  · exact not_refuses_ok _ h

/-- An image that cannot be read counts as absent. -/
theorem not_refuses_tryQueryImage (repo : Repo) (i : ImageReference) :
    ¬ Refuses Stop.Aborts (tryQueryImage repo i) := by
  rw [tryQueryImage, refuses_bind_iff]
  rintro (h | ⟨ref, _, h⟩)
  · exact not_refuses_prefixEscapeForRef _ _ h
  · cases hrev : repo.resolveRev ref with
    | none =>
        rw [hrev] at h
        exact not_refuses_ok _ h
    | some rev =>
        rw [hrev] at h
        dsimp only at h
        cases hquery : queryImageCommit repo rev with
        | ok state =>
            rw [hquery] at h
            exact not_refuses_ok _ h
        | error e =>
            rw [hquery] at h
            exact not_refuses_ok _ h

theorem not_refuses_splitLayers (target ostreeLayer : Descriptor) (afterTarget : Bool)
    (layers : List Descriptor) :
    ¬ Refuses Stop.Aborts (splitLayers target ostreeLayer afterTarget layers) := by
  induction layers generalizing afterTarget with
  | nil => exact not_refuses_ok _
  | cons layer layers ih =>
      rw [splitLayers]
      split
      · split
        · simp
        · rw [refuses_map_iff]
          exact ih _
      · split
        · rw [refuses_map_iff]
          exact ih _
        · rw [refuses_map_iff]
          exact ih _

theorem not_refuses_parseManifestLayout (manifest : ImageManifest) (config : ImageConfiguration) :
    ¬ Refuses Stop.Aborts (parseManifestLayout manifest config) := by
  intro h
  rw [parseManifestLayout, refuses_bind_iff] at h
  rcases h with h | ⟨first, _, h₁⟩
  · exact not_refuses_okOr _ _ h
  rw [refuses_bind_iff] at h₁
  rcases h₁ with h₁ | ⟨diffid, _, h₂⟩
  · exact not_refuses_okOr _ _ h₁
  rw [refuses_bind_iff] at h₂
  rcases h₂ with h₂ | ⟨target, _, h₃⟩
  · rw [layerFromDiffid, refuses_bind_iff] at h₂
    rcases h₂ with h₂ | ⟨idx, _, h₂⟩ <;> exact not_refuses_okOr _ _ h₂
  rw [refuses_bind_iff] at h₃
  rcases h₃ with h₃ | ⟨p, _, h₄⟩
  · exact not_refuses_splitLayers _ _ _ _ h₃
  · exact not_refuses_ok _ h₄

end Queries

-- ── What is outside ───────────────────────────────────────────────────────────

/-- The proxy, the progress channel and the reader of the container policy answer with a value or
    with an error. -/
structure ImageImporter.Answers (imp : ImageImporter) (host : Host) : Prop where
  policy : ¬ Refuses Stop.Aborts host.policyIsDefaultInsecure
  manifest : ¬ Refuses Stop.Aborts imp.proxy.fetchManifest
  config : ¬ Refuses Stop.Aborts imp.proxy.fetchConfig
  layerInfo : ∀ second, ¬ Refuses Stop.Aborts (imp.proxy.getLayerInfo second)
  blob : ∀ digest size, ¬ Refuses Stop.Aborts (imp.proxy.getBlob digest size)
  driver : ∀ digest size blob driver, imp.proxy.getBlob digest size = .ok (blob, driver) →
    ¬ Refuses Stop.Aborts driver
  closeImage : ¬ Refuses Stop.Aborts imp.proxy.closeImage
  progress : ∀ p, ¬ Refuses Stop.Aborts (imp.sendProgress p)

section Preparing

variable {host : Host} {imp : ImageImporter}

theorem ImageImporter.Answers.checkSigverify (h : imp.Answers host) (verifyLayers : Bool) :
    ¬ Refuses Stop.Aborts (imp.checkSigverify host verifyLayers) := by
  rw [ImageImporter.checkSigverify]
  cases imp.imgref.sigverify with
  | containerPolicy =>
      dsimp only
      rw [refuses_bind_iff]
      rintro (hpolicy | ⟨insecure, _, hrest⟩)
      · exact h.policy hpolicy
      · cases insecure <;> simp at hrest
  | ostreeRemote remote => cases verifyLayers <;> simp
  | containerPolicyAllowInsecure => exact not_refuses_ok _

theorem not_refuses_createPreparedImport (repo : Repo) (manifestDigest : Digest)
    (manifest : ImageManifest) (config : ImageConfiguration)
    (previousState : Option LayeredImageState) (previousImageid : Option Digest) :
    ¬ Refuses Stop.Aborts (imp.createPreparedImport host repo manifestDigest manifest config
      previousState previousImageid) := by
  have hrest : ¬ Refuses Stop.Aborts (do
      let layout ← parseManifestLayout manifest config
      let ostreeCommitLayer ← queryLayer repo layout.1
      let ostreeLayers ← layout.2.1.mapM (queryLayer repo)
      let layers ← layout.2.2.mapM (queryLayer repo)
      .ok ({
        manifestDigest, manifest, config, previousState
        previousManifestDigest := previousState.map (·.manifestDigest)
        previousImageid, ostreeLayers, ostreeCommitLayer, layers } : PreparedImport) :
          Result PreparedImport) := by
    intro h
    rw [refuses_bind_iff] at h
    rcases h with h | ⟨layout, _, h₁⟩
    · exact not_refuses_parseManifestLayout _ _ h
    rw [refuses_bind_iff] at h₁
    rcases h₁ with h₁ | ⟨commitLayer, _, h₂⟩
    · exact not_refuses_queryLayer _ _ h₁
    rw [refuses_bind_iff] at h₂
    rcases h₂ with h₂ | ⟨components, _, h₃⟩
    · exact not_refuses_mapM (fun l _ => not_refuses_queryLayer repo l) h₂
    rw [refuses_bind_iff] at h₃
    rcases h₃ with h₃ | ⟨layers, _, h₄⟩
    · exact not_refuses_mapM (fun l _ => not_refuses_queryLayer repo l) h₃
    · exact not_refuses_ok _ h₄
  rw [ImageImporter.createPreparedImport]
  by_cases hrequire : imp.requireBootable = true
  · rw [if_pos hrequire, refuses_bind_iff, checkBootable]
    rintro (h | ⟨_, _, h⟩)
    · split at h
      · simp at h
      split at h <;> simp at h
    · exact hrest h
  · rw [if_neg hrequire]
    exact hrest

theorem ImageImporter.Answers.prepareUpdate (h : imp.Answers host) (manifestDigest : Digest)
    (manifest : ImageManifest) (previous : Option LayeredImageState) (r : Repo) :
    ¬ Fails Stop.Aborts (imp.prepareUpdate host manifestDigest manifest previous) r := by
  cases hconfig : imp.proxy.fetchConfig with
  | error e =>
      have hanswer := h.config
      rw [hconfig, refuses_error_iff] at hanswer
      rw [ImageImporter.prepareUpdate, hconfig, fails_of_error (bind_of_error (liftR_error _ _))]
      exact hanswer
  | ok config =>
      rw [fails_congr (prepareUpdate_run hconfig), fails_liftR_bind_iff]
      rintro (hcreate | ⟨prep, _, hend⟩)
      · exact not_refuses_createPreparedImport _ _ _ _ _ _ hcreate
      · exact Never.pure _ _ hend

/-- **`prepare` returns.** -/
theorem ImageImporter.Answers.prepare (h : imp.Answers host) (r : Repo) :
    ¬ Fails Stop.Aborts (imp.prepare host) r := by
  rw [ImageImporter.prepare, ImageImporter.prepareInternal, fails_liftR_bind_iff]
  rintro (hsig | ⟨_, _, h₁⟩)
  · exact h.checkSigverify false hsig
  rw [fails_liftR_bind_iff] at h₁
  rcases h₁ with hserved | ⟨served, _, h₂⟩
  · exact h.manifest hserved
  dsimp only at h₂
  rw [fails_bind_of_ok (get_run r), fails_liftR_bind_iff] at h₂
  rcases h₂ with hstored | ⟨previous, _, h₃⟩
  · exact not_refuses_tryQueryImage _ _ hstored
  cases previous with
  | none => exact h.prepareUpdate _ _ _ r h₃
  | some state =>
      dsimp only at h₃
      split at h₃
      · exact Never.pure _ _ h₃
      split at h₃
      · exact Never.pure _ _ h₃
      · exact h.prepareUpdate _ _ _ r h₃

end Preparing

-- ── Fetching ──────────────────────────────────────────────────────────────────

section Fetching

variable {lib : Libostree} {host : Host} {imp : ImageImporter} {manifest : ImageManifest}
  {desLayers : Option (List ConvertedLayerInfo)} {layer : ManifestLayerState} {r : Repo}

theorem not_refuses_decompressor (mediaType : MediaType) :
    ¬ Refuses Stop.Aborts (decompressor mediaType) := by
  cases mediaType with
  | other t =>
      rw [decompressor]
      split <;> simp
  | imageLayer | imageLayerGzip | imageLayerZstd | imageConfig => simp [decompressor]

/-- A layer of the manifest has an index there. -/
theorem ImageImporter.Answers.fetchLayer (h : imp.Answers host) {l : Descriptor}
    (hl : l ∈ manifest.layers) (transport : Transport) :
    ¬ Refuses Stop.Aborts (fetchLayer imp.proxy manifest l desLayers transport) := by
  have hindex : (manifest.layers.findIdx? (· = l)).isSome = true := by
    rw [List.findIdx?_isSome, List.any_eq_true]
    exact ⟨l, hl, by simp⟩
  obtain ⟨i, hi⟩ := Option.isSome_iff_exists.mp hindex
  rw [Store.fetchLayer, hi]
  dsimp only
  split
  · intro hrun
    rw [refuses_bind_iff] at hrun
    rcases hrun with hrun | ⟨info, _, h₁⟩
    · exact not_refuses_okOr _ _ hrun
    rw [refuses_bind_iff] at h₁
    rcases h₁ with h₁ | ⟨l', _, h₂⟩
    · exact not_refuses_okOr _ _ h₁
    rw [refuses_bind_iff] at h₂
    rcases h₂ with h₂ | ⟨blob, _, h₃⟩
    · exact h.blob _ _ h₂
    · exact not_refuses_ok _ h₃
  · intro hrun
    rw [refuses_bind_iff] at hrun
    rcases hrun with hrun | ⟨blob, _, h₁⟩
    · exact h.blob _ _ hrun
    · exact not_refuses_ok _ h₁

/-- The driver of a blob answers too. -/
theorem ImageImporter.Answers.fetchedDriver (h : imp.Answers host) {l : Descriptor}
    {transport : Transport} {blob : Bytes} {driver : Result Unit} {mediaType : MediaType}
    (hfetch : Store.fetchLayer imp.proxy manifest l desLayers transport
      = .ok (blob, driver, mediaType)) : ¬ Refuses Stop.Aborts driver := by
  rw [Store.fetchLayer] at hfetch
  cases hindex : manifest.layers.findIdx? (· = l) with
  | none =>
      rw [hindex] at hfetch
      cases hfetch
  | some i =>
      rw [hindex] at hfetch
      dsimp only at hfetch
      split at hfetch
      · obtain ⟨info, _, h₁⟩ := result_bind_eq_ok.mp hfetch
        obtain ⟨l', _, h₂⟩ := result_bind_eq_ok.mp h₁
        obtain ⟨⟨blob', driver'⟩, hblob, h₃⟩ := result_bind_eq_ok.mp h₂
        cases h₃
        exact h.driver _ _ _ _ hblob
      · obtain ⟨⟨blob', driver'⟩, hblob, h₃⟩ := result_bind_eq_ok.mp hfetch
        cases h₃
        exact h.driver _ _ _ _ hblob

/-- The worker fails as it does without a driver. -/
theorem fails_joinFetch_iff {α : Type} {worker : RepoM α} {driver : Result Unit}
    (hdriver : ¬ Refuses Stop.Aborts driver) :
    Fails Stop.Aborts (joinFetch worker driver) r ↔ Fails Stop.Aborts worker r := by
  rw [joinFetch, fails_bind_iff]
  refine or_iff_left ?_
  rintro ⟨a, s, _, h⟩
  rw [fails_liftR_bind_iff] at h
  rcases h with h | ⟨_, _, h⟩
  · exact hdriver h
  · exact Never.pure _ _ h

/-- Object sets are imported without an assertion. -/
theorem not_fails_importObjects (blob : Stream) (r : Repo) :
    ¬ Fails Stop.Aborts (importObjects lib blob) (.newForObjectSet r) := by
  intro h
  have hreturns : ReturnsResult (importTarObjects lib blob) r := importTarObjects_returns blob r
  refine returnsResult_iff.mp hreturns ?_
  rw [importTarObjects, fails_autoTransaction_iff, fails_withImporter_iff, fails_bind_iff]
  exact .inl h

theorem never_importChunkLayer (ref : String) (blob : Stream) :
    Never Stop.Aborts (importChunkLayer lib false ref blob) := by
  intro s
  rw [importChunkLayer, fails_autoTransaction_iff, if_neg (by simp), fails_bind_iff,
    fails_withImporter_iff]
  rintro (h | ⟨_, t, _, h⟩)
  · exact not_fails_importObjects blob s h
  · exact Never.pure _ _ h

/-- **A chunk layer is fetched or reported.** -/
theorem ImageImporter.Answers.fetchChunkLayer (h : imp.Answers host)
    (hl : layer.layer ∈ manifest.layers) :
    Never Stop.Aborts (imp.fetchChunkLayer host lib manifest desLayers false layer) := by
  intro s hrun
  rw [ImageImporter.fetchChunkLayer] at hrun
  split at hrun
  · exact Never.pure _ _ hrun
  rw [fails_liftR_bind_iff] at hrun
  rcases hrun with hrun | ⟨_, _, h₁⟩
  · exact h.progress _ hrun
  rw [fails_liftR_bind_iff] at h₁
  rcases h₁ with h₁ | ⟨⟨blob, driver, mediaType⟩, hfetch, h₂⟩
  · exact h.fetchLayer hl _ h₁
  dsimp only at h₂
  rw [fails_bind_iff, fails_joinFetch_iff (h.fetchedDriver hfetch), fails_liftR_bind_iff] at h₂
  rcases h₂ with (h₂ | ⟨_, _, h₂⟩) | ⟨commit, t, _, h₃⟩
  · exact not_refuses_decompressor _ h₂
  · exact never_importChunkLayer _ _ _ h₂
  rw [fails_liftR_bind_iff] at h₃
  rcases h₃ with h₃ | ⟨_, _, h₃⟩
  · exact h.progress _ h₃
  · exact Never.pure _ _ h₃

theorem fails_importCommitLayer_iff {remote : Option String} {writeRefs : Bool} {ref : String}
    {blob : Stream} : Fails Stop.Aborts (importCommitLayer lib remote writeRefs ref blob) r ↔
      ComesToDamaged lib blob remote r := by
  rw [importCommitLayer, fails_autoTransaction_iff, fails_bind_iff, fails_withImporter_iff,
    fails_bind_iff, fails_importCommit_iff]
  constructor
  · rintro ((h | ⟨_, out, himport, h⟩) | ⟨c, s, _, h⟩)
    · exact h
    · obtain ⟨⟨x, hx⟩, _⟩ := importCommit_append (t := []) himport
      rw [finishImportCommit, fails_bind_of_ok (get_run out), hx] at h
      exact absurd h (Never.pure x out)
    · have hend : Never Stop.Aborts (do
          if writeRefs then Repo.setRef ref (some c) else pure ()
          Repo.markCommitPartial c false
          pure c : RepoM Checksum) := by
        have hunmark : Never Stop.Aborts (do
            Repo.markCommitPartial c false
            pure c : RepoM Checksum) := Never.bind (Never.update _) (fun _ => Never.pure c)
        dsimp only
        split
        · exact Never.bind (Never.update _) (fun _ => hunmark)
        · exact hunmark
      exact absurd h (hend s)
  · exact fun h => .inl (.inl h)

/-- The archive of the commit layer is fetched, and its import comes to a damaged metadata
    object. -/
structure ImageImporter.FetchesDamaged (imp : ImageImporter) (host : Host) (lib : Libostree)
    (manifest : ImageManifest) (desLayers : Option (List ConvertedLayerInfo))
    (layer : ManifestLayerState) (r : Repo) : Prop where
  absent : layer.commit = none
  started : imp.sendProgress (.ostreeChunkStarted layer.layer) = .ok ()
  damaged : ∃ blob driver mediaType compression, Store.fetchLayer imp.proxy manifest layer.layer
      desLayers imp.imgref.imgref.transport = .ok (blob, driver, mediaType) ∧
    decompressor mediaType = .ok compression ∧
    ComesToDamaged lib (host.objects compression blob) (remoteOf imp.imgref.sigverify) r

/-- **The commit layer is the one that the import can be stopped by.** -/
theorem ImageImporter.Answers.fails_fetchCommitLayer_iff (h : imp.Answers host)
    (hl : layer.layer ∈ manifest.layers) {writeRefs : Bool} :
    Fails Stop.Aborts (imp.fetchCommitLayer host lib manifest desLayers
      (remoteOf imp.imgref.sigverify) writeRefs layer) r ↔
      imp.FetchesDamaged host lib manifest desLayers layer r := by
  rw [ImageImporter.fetchCommitLayer]
  constructor
  · intro hrun
    split at hrun
    · exact absurd hrun (Never.pure _ _)
    next habsent =>
    rw [Option.not_isSome_iff_eq_none] at habsent
    rw [fails_liftR_bind_iff] at hrun
    rcases hrun with hrun | ⟨_, hstarted, h₁⟩
    · exact absurd hrun (h.progress _)
    rw [fails_liftR_bind_iff] at h₁
    rcases h₁ with h₁ | ⟨⟨blob, driver, mediaType⟩, hfetch, h₂⟩
    · exact absurd h₁ (h.fetchLayer hl _)
    dsimp only at h₂
    rw [fails_bind_iff, fails_joinFetch_iff (h.fetchedDriver hfetch), fails_liftR_bind_iff] at h₂
    rcases h₂ with (h₂ | ⟨compression, hcompression, h₂⟩) | ⟨commit, t, _, h₃⟩
    · exact absurd h₂ (not_refuses_decompressor _)
    · exact ⟨habsent, hstarted, blob, driver, mediaType, compression, hfetch, hcompression,
        fails_importCommitLayer_iff.mp h₂⟩
    rw [fails_liftR_bind_iff] at h₃
    rcases h₃ with h₃ | ⟨_, _, h₃⟩
    · exact absurd h₃ (h.progress _)
    · exact absurd h₃ (Never.pure _ _)
  · rintro ⟨habsent, hstarted, blob, driver, mediaType, compression, hfetch, hcompression, hdamaged⟩
    rw [if_neg (by simp [habsent]), hstarted, fails_bind_of_ok (liftR_ok _ _), hfetch,
      fails_bind_of_ok (liftR_ok _ _)]
    dsimp only
    rw [fails_bind_iff, fails_joinFetch_iff (h.fetchedDriver hfetch), hcompression,
      fails_bind_of_ok (liftR_ok _ _)]
    exact .inl (fails_importCommitLayer_iff.mpr hdamaged)

end Fetching

-- ── The commit of the commit layer ────────────────────────────────────────────

/-- The commit in the archive of a layer of the served image. -/
def ImageImporter.ArchiveCommit (imp : ImageImporter) (host : Host) (lib : Libostree)
    (manifest : ImageManifest) (layer : Descriptor) (c : Checksum) : Prop :=
  ∃ desLayers blob driver mediaType compression commit,
    imp.proxy.getLayerInfo false = .ok desLayers ∧
    fetchLayer imp.proxy manifest layer desLayers imp.imgref.imgref.transport
      = .ok (blob, driver, mediaType) ∧
    decompressor mediaType = .ok compression ∧
    streamCommit lib (host.objects compression blob) = some (c, commit)

/-- The ostree commit of the commit layer of the served image: the one that is stored for its
    blob, or else the one in its archive.  The image has no derived layers. -/
inductive ImageImporter.ServesCommit (imp : ImageImporter) (host : Host) (lib : Libostree)
    (r : Repo) (c : Checksum) : Prop where
  | intro {manifestDigest : Digest} {manifest : ImageManifest} {config : ImageConfiguration}
      {commitLayer : Descriptor} {componentLayers : List Descriptor} {ref : String}
      (served : imp.proxy.fetchManifest = .ok (manifestDigest, manifest))
      (configured : imp.proxy.fetchConfig = .ok config)
      (layout : parseManifestLayout manifest config = .ok (commitLayer, componentLayers, []))
      (layerRef : refForLayer commitLayer = .ok ref)
      (commit : r.refs[ref]? = some c ∨
        r.refs[ref]? = none ∧ imp.ArchiveCommit host lib manifest commitLayer c)

section Unencapsulate

variable {lib : Libostree} {host : Host} {imp : ImageImporter} {r r' : Repo}

theorem importCommitLayer_commit {remote : Option String} {writeRefs : Bool} {ref : String}
    {blob : Stream} {c : Checksum}
    (h : importCommitLayer lib remote writeRefs ref blob r = .ok c r') :
    ∃ commit, streamCommit lib blob = some (c, commit) := by
  rw [importCommitLayer, Repo.autoTransaction] at h
  split at h
  · next hbody =>
    cases h
    obtain ⟨c', s, himporter, hrest⟩ := bind_ok hbody
    have hcommit : ∃ commit, streamCommit lib blob = some (c', commit) := by
      rw [withImporter] at himporter
      split at himporter
      · next hrun =>
        cases himporter
        obtain ⟨_, out, himport, hfinish⟩ := bind_ok hrun
        obtain ⟨x, commit, _, hstream, hdata, _⟩ := importCommit_adds himport
        rw [finishImportCommit, bind_of_ok (get_run out), hdata] at hfinish
        cases hfinish
        exact ⟨commit, hstream⟩
      · cases himporter
    have hsame : c' = c := by
      dsimp only at hrest
      split at hrest <;> cases hrest <;> rfl
    exact hsame ▸ hcommit
  · cases h

/-- **What the commit layer ends with**: its commit as it was found, or the one of its archive. -/
theorem fetchCommitLayer_commit {manifest : ImageManifest}
    {desLayers : Option (List ConvertedLayerInfo)} {remote : Option String} {writeRefs : Bool}
    {layer layer' : ManifestLayerState} {c : Checksum}
    (hinfo : imp.proxy.getLayerInfo false = .ok desLayers)
    (h : imp.fetchCommitLayer host lib manifest desLayers remote writeRefs layer r = .ok layer' r')
    (hc : layer'.commit = some c) : layer.commit = some c ∨
      layer.commit = none ∧ imp.ArchiveCommit host lib manifest layer.layer c := by
  rw [ImageImporter.fetchCommitLayer] at h
  split at h
  · cases h
    exact .inl hc
  next habsent =>
  rw [Option.not_isSome_iff_eq_none] at habsent
  obtain ⟨_, r₁, -, h₁⟩ := bind_ok h
  obtain ⟨⟨blob, driver, mediaType⟩, r₂, hblob, h₂⟩ := bind_ok h₁
  obtain ⟨commit, r₃, hfetch, h₃⟩ := bind_ok h₂
  obtain ⟨compression, r₄, hcompression, himport⟩ := bind_ok (joinFetch_ok hfetch)
  obtain ⟨_, r₅, -, h₄⟩ := bind_ok h₃
  cases h₄
  obtain rfl := Option.some.inj hc
  obtain ⟨object, hstream⟩ := importCommitLayer_commit himport
  exact .inr ⟨habsent, desLayers, blob, driver, mediaType, compression, object, hinfo,
    (liftR_eq_ok hblob).1, (liftR_eq_ok hcompression).1, hstream⟩

/-- **The value of `unencapsulate`** is the commit of the commit layer. -/
theorem unencapsulate_servesCommit {i : Import} (h : imp.unencapsulate host lib r = .ok i r') :
    imp.ServesCommit host lib r i.ostreeCommit := by
  obtain ⟨res, s, hprepare, h₁⟩ := bind_ok h
  cases res with
  | alreadyPresent state => cases h₁
  | ready prep =>
      dsimp only at h₁
      split at h₁
      · cases h₁
      next hlayers =>
      rw [not_not] at hlayers
      obtain ⟨prep', s₂, hbase, h₂⟩ := bind_ok h₁
      obtain ⟨_, s₃, -, h₃⟩ := bind_ok h₂
      obtain ⟨commit, s₄, hunwrap, h₄⟩ := bind_ok h₃
      have hcommit := unwrapCommit_eq_ok (liftR_eq_ok hunwrap).1
      cases h₄
      have hupdates := prepare_eq_ready hprepare
      obtain ⟨commitLayer, components, remaining, hlaid⟩ := hupdates.created.laidOut
      obtain rfl : remaining = [] := by
        have hlen := length_of_mapM hlaid.layers
        rw [hlayers] at hlen
        exact List.length_eq_zero_iff.mp hlen.symm
      obtain ⟨hlayer, href, hquery⟩ := queryLayer_eq_ok hlaid.commitLayer
      have hrefs := (prepare_same host imp r).refs
      rw [ImageImporter.prepare, hprepare, finalState_ok] at hrefs
      rw [hrefs] at hquery
      refine .intro hupdates.served hupdates.config hlaid.layout href ?_
      obtain ⟨_, t₁, -, hb₁⟩ := bind_ok hbase
      obtain ⟨desLayers, t₂, hinfo, hb₂⟩ := bind_ok hb₁
      obtain ⟨chunks, t₃, -, hb₃⟩ := bind_ok hb₂
      obtain ⟨layer', t₄, hfetch, hb₄⟩ := bind_ok hb₃
      cases hb₄
      rw [← hquery, ← hlayer]
      exact fetchCommitLayer_commit (liftR_eq_ok hinfo).1 hfetch hcommit

/-- `unencapsulate` comes to a damaged metadata object: the image is to be fetched and has no
    derived layers, its chunk layers are fetched, and then the archive of the commit layer. -/
inductive ImageImporter.ReachesDamaged (imp : ImageImporter) (host : Host) (lib : Libostree)
    (r : Repo) : Prop where
  | intro {prep : PreparedImport} {r₁ r₂ : Repo} {desLayers : Option (List ConvertedLayerInfo)}
      {chunks : List ManifestLayerState}
      (prepared : imp.prepare host r = .ok (.ready prep) r₁) (noDerived : prep.layers = [])
      (info : imp.proxy.getLayerInfo false = .ok desLayers)
      (chunks : prep.ostreeLayers.mapM (imp.fetchChunkLayer host lib prep.manifest desLayers false)
        r₁ = .ok chunks r₂)
      (damaged : imp.FetchesDamaged host lib prep.manifest desLayers prep.ostreeCommitLayer r₂)

/-- The layers of a prepared import are in its manifest. -/
theorem PreparedImport.LaidOut.mem_manifest {prep : PreparedImport} {repo : Repo}
    {commitLayer : Descriptor} {componentLayers remainingLayers : List Descriptor}
    (h : prep.LaidOut repo commitLayer componentLayers remainingLayers)
    {layer : ManifestLayerState} (hlayer : layer ∈ prep.ostreeCommitLayer :: prep.ostreeLayers) :
    layer.layer ∈ prep.manifest.layers := by
  obtain ⟨pre, target, id, hlayout, hchunks⟩ := layout_of_parse h.layout
  rcases List.mem_cons.mp hlayer with rfl | hchunk
  · rw [(queryLayer_eq_ok h.commitLayer).1]
    exact List.mem_of_mem_head? hlayout.head
  · obtain ⟨l, hl, hquery⟩ := (mem_mapM h.ostreeLayers layer).mp hchunk
    rw [hchunks, List.mem_filter] at hl
    rw [(queryLayer_eq_ok hquery).1, hlayout.layers]
    rcases List.mem_append.mp hl.1 with hpre | htarget
    · exact List.mem_append_left _ hpre
    · rw [List.mem_singleton.mp htarget]
      simp

/-- A commit layer that was fetched has a commit. -/
theorem unwrapCommit_of_fetched {manifest : ImageManifest}
    {desLayers : Option (List ConvertedLayerInfo)} {remote : Option String} {writeRefs : Bool}
    {layer layer' : ManifestLayerState}
    (h : imp.fetchCommitLayer host lib manifest desLayers remote writeRefs layer r = .ok layer' r') :
    ∃ c, unwrapCommit layer' = .ok c := by
  rw [ImageImporter.fetchCommitLayer] at h
  split at h
  · next hsome =>
    cases h
    obtain ⟨c, hc⟩ := Option.isSome_iff_exists.mp hsome
    exact ⟨c, by rw [unwrapCommit, hc]⟩
  obtain ⟨_, r₁, -, h₁⟩ := bind_ok h
  obtain ⟨blob, r₂, -, h₂⟩ := bind_ok h₁
  obtain ⟨commit, r₃, -, h₃⟩ := bind_ok h₂
  obtain ⟨_, r₄, -, h₄⟩ := bind_ok h₃
  cases h₄
  exact ⟨commit, rfl⟩

/-- **Where `unencapsulate_base` aborts**: behind the chunk layers, at the commit layer. -/
theorem ImageImporter.Answers.fails_unencapsulateBase_iff (h : imp.Answers host)
    {prep : PreparedImport} (hallowed : imp.checkSigverify host false = .ok ())
    (hmem : ∀ layer ∈ prep.ostreeCommitLayer :: prep.ostreeLayers,
      layer.layer ∈ prep.manifest.layers) :
    Fails Stop.Aborts (imp.unencapsulateBase host lib prep false) r ↔ ∃ desLayers chunks r₂,
      imp.proxy.getLayerInfo false = .ok desLayers ∧
      prep.ostreeLayers.mapM (imp.fetchChunkLayer host lib prep.manifest desLayers false) r
        = .ok chunks r₂ ∧
      imp.FetchesDamaged host lib prep.manifest desLayers prep.ostreeCommitLayer r₂ := by
  have hcommit := hmem _ (List.mem_cons_self ..)
  rw [ImageImporter.unencapsulateBase, hallowed, fails_bind_of_ok (liftR_ok _ _),
    fails_liftR_bind_iff, or_iff_right (h.layerInfo false)]
  refine exists_congr (fun desLayers => ?_)
  have hchunks : Never Stop.Aborts
      (prep.ostreeLayers.mapM (imp.fetchChunkLayer host lib prep.manifest desLayers false)) :=
    Never.mapM fun layer hlayer => h.fetchChunkLayer (hmem layer (List.mem_cons_of_mem _ hlayer))
  rw [fails_bind_iff, or_iff_right (hchunks r)]
  constructor
  · rintro ⟨hinfo, chunks, r₂, hrun, hrest⟩
    rw [fails_bind_iff, h.fails_fetchCommitLayer_iff hcommit] at hrest
    rcases hrest with hrest | ⟨layer', r₃, _, hend⟩
    · exact ⟨chunks, r₂, hinfo, hrun, hrest⟩
    · exact absurd hend (Never.pure _ _)
  · rintro ⟨chunks, r₂, hinfo, hrun, hdamaged⟩
    refine ⟨hinfo, chunks, r₂, hrun, ?_⟩
    rw [fails_bind_iff, h.fails_fetchCommitLayer_iff hcommit]
    exact .inl hdamaged

/-- **Where `unencapsulate` aborts**: the image is found, or a damaged object is. -/
theorem ImageImporter.Answers.fails_unencapsulate_iff (h : imp.Answers host) :
    Fails Stop.Aborts (imp.unencapsulate host lib) r ↔
      (∃ state, imp.Finds host r state) ∨ imp.ReachesDamaged host lib r := by
  have hprepare : ¬ Fails Stop.Aborts (imp.prepareInternal host false) r := h.prepare r
  rw [ImageImporter.unencapsulate, fails_bind_iff, or_iff_right hprepare]
  have hbase : ∀ {prep : PreparedImport} {r₁ : Repo},
      imp.prepare host r = .ok (.ready prep) r₁ →
      (Fails Stop.Aborts (imp.unencapsulateBase host lib prep false) r₁ ↔
        ∃ desLayers chunks r₂, imp.proxy.getLayerInfo false = .ok desLayers ∧
          prep.ostreeLayers.mapM (imp.fetchChunkLayer host lib prep.manifest desLayers false) r₁
            = .ok chunks r₂ ∧
          imp.FetchesDamaged host lib prep.manifest desLayers prep.ostreeCommitLayer r₂) := by
    intro prep r₁ hready
    obtain ⟨_, _, _, hlaid⟩ := (prepare_eq_ready hready).created.laidOut
    obtain ⟨_, _, hallowed, _⟩ := bind_ok hready
    exact h.fails_unencapsulateBase_iff (liftR_eq_ok hallowed).1 fun _ => hlaid.mem_manifest
  constructor
  · rintro ⟨res, r₁, hrun, hrest⟩
    cases res with
    | alreadyPresent state => exact .inl ⟨state, (prepare_eq_present.mp hrun).1⟩
    | ready prep =>
        dsimp only at hrest
        split at hrest
        · exact absurd hrest (by simp)
        next hlayers =>
        rw [not_not] at hlayers
        rw [fails_bind_iff] at hrest
        rcases hrest with hfails | ⟨prep', r₂, hdone, h₁⟩
        · obtain ⟨desLayers, chunks, r₂, hinfo, hchunks, hdamaged⟩ := (hbase hrun).mp hfails
          exact .inr (.intro hrun hlayers hinfo hchunks hdamaged)
        -- what comes after the layers returns
        obtain ⟨_, t₁, -, hb₁⟩ := bind_ok hdone
        obtain ⟨desLayers, t₂, -, hb₂⟩ := bind_ok hb₁
        obtain ⟨chunks, t₃, -, hb₃⟩ := bind_ok hb₂
        obtain ⟨layer', t₄, hfetch, hb₄⟩ := bind_ok hb₃
        cases hb₄
        obtain ⟨c, hc⟩ := unwrapCommit_of_fetched hfetch
        rw [fails_liftR_bind_iff, or_iff_right h.closeImage] at h₁
        obtain ⟨_, -, h₂⟩ := h₁
        dsimp only at h₂
        rw [hc, fails_bind_of_ok (liftR_ok _ _)] at h₂
        exact absurd h₂ (Never.pure _ _)
  · rintro (⟨state, hfound⟩ | ⟨hrun, hlayers, hinfo, hchunks, hdamaged⟩)
    · exact ⟨_, r, prepare_of_finds hfound, (fails_throw_iff _).mpr (by simp)⟩
    · refine ⟨_, _, hrun, ?_⟩
      dsimp only
      rw [if_neg (not_not.mpr hlayers), fails_bind_iff]
      exact .inl ((hbase hrun).mpr ⟨_, _, _, hinfo, hchunks, hdamaged⟩)

end Unencapsulate

-- ── Runs ──────────────────────────────────────────────────────────────────────

/-- A call on the store: an import, an unencapsulation, or what removes images and layers. -/
inductive StoreCall where
  | operation (op : Operation)
  | removeImage (img : ImageReference)
  | gcImageLayers (hash : HashOrder)

/-- What a call leaves behind. -/
def StoreCall.exec (lib : Libostree) : StoreCall → Repo → Repo
  | .operation op, r => finalState (op.run lib r)
  | .removeImage img, r => finalState (Store.removeImage img r)
  | .gcImageLayers hash, r => finalState (Store.gcImageLayers hash r)

/-- What a run of calls leaves behind. -/
def StoreCall.execAll (lib : Libostree) (calls : List StoreCall) (r : Repo) : Repo :=
  calls.foldl (fun r call => call.exec lib r) r

theorem StoreCall.execAll_operation (lib : Libostree) (op : Operation) (r : Repo) :
    StoreCall.execAll lib [.operation op] r = finalState (op.run lib r) := rfl

/-- `unencapsulate` returns, and if it returns a commit that is the one of the commit layer. -/
structure ImageImporter.UnencapsulatesSafely (imp : ImageImporter) (host : Host) (lib : Libostree)
    (r : Repo) : Prop where
  returns : ReturnsResult (imp.unencapsulate host lib) r
  commit : ∀ i r', imp.unencapsulate host lib r = .ok i r' →
    imp.ServesCommit host lib r i.ostreeCommit

theorem sampleImporter_answers (noImgref : Bool) :
    (sampleImporter noImgref).Answers sampleHost where
  policy := not_refuses_ok _
  manifest := not_refuses_ok _
  config := not_refuses_ok _
  layerInfo _ := not_refuses_ok _
  blob _ _ := not_refuses_ok _
  driver _ _ _ driver h := by
    cases h
    exact not_refuses_ok _
  closeImage := not_refuses_ok _
  progress _ := not_refuses_ok _

end OstreeExt.Store
