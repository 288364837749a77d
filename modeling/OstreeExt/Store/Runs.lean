import OstreeExt.Store.Import

/-!
# Runs of `prepare` and `import`

What a later `prepare` returns depends on what earlier calls have left behind.  An image that is
found is returned as it is stored: the requirement that it be bootable was checked, if at all, by
the import that stored it, and an update that an earlier `prepare` has cached with it stays there
when the remote goes back to the stored image.
-/

namespace OstreeExt.Store

open OstreeExt Tar Exec Std

variable {lib : Libostree} {host : Host} {imp : ImageImporter} {prep : PreparedImport}

/-- A call of an importer, which may fail. -/
inductive Call where
  | prepare (host : Host) (imp : ImageImporter)
  | importImage (host : Host) (imp : ImageImporter) (prep : PreparedImport)

/-- What a call leaves behind. -/
def Call.exec (lib : Libostree) : Call → Repo → Repo
  | .prepare host imp, r => finalState (imp.prepare host r)
  | .importImage host imp prep, r => finalState (imp.importImage host lib prep r)

/-- What a run of calls leaves behind. -/
def execAll (lib : Libostree) (calls : List Call) (r : Repo) : Repo :=
  calls.foldl (fun r call => call.exec lib r) r

theorem Call.exec_prepare (host : Host) (imp : ImageImporter) (r : Repo) :
    (Call.prepare host imp).exec lib r = finalState (imp.prepare host r) := rfl

theorem Call.exec_importImage (host : Host) (imp : ImageImporter) (prep : PreparedImport)
    (r : Repo) : (Call.importImage host imp prep).exec lib r
      = finalState (imp.importImage host lib prep r) := rfl

theorem execAll_nil (r : Repo) : execAll lib [] r = r := rfl

theorem execAll_cons (call : Call) (calls : List Call) (r : Repo) :
    execAll lib (call :: calls) r = execAll lib calls (call.exec lib r) := rfl

theorem execAll_append (a b : List Call) (r : Repo) :
    execAll lib (a ++ b) r = execAll lib b (execAll lib a r) := List.foldl_append

-- ── Bootable images ───────────────────────────────────────────────────────────

/-- The image that `prepare` returns. -/
def PrepareResult.configuration : PrepareResult → ImageConfiguration
  | .alreadyPresent state => state.configuration
  | .ready prep => prep.config

/-- **What `require_bootable` is worth**: an image that is found is not looked at. -/
theorem prepare_bootable_iff (hrequire : imp.requireBootable = true) (r : Repo) :
    (∀ res r', imp.prepare host r = .ok res r' → Bootable host res.configuration) ↔
      ∀ state, imp.Finds host r state → Bootable host state.configuration := by
  constructor
  · intro h state hfound
    exact h _ _ (prepare_of_finds hfound)
  · intro h res r' hrun
    cases res with
    | alreadyPresent state => exact h state (prepare_eq_present.mp hrun).1
    | ready prep => exact (prepare_eq_ready hrun).created.bootable hrequire

/-- The image that was imported is found again. -/
theorem SampleStored.finds {r : Repo} (h : SampleStored r) {update : Option CachedImageUpdate}
    (hupdate : cachedUpdateOf r emptySha256 = .ok update) (required : Bool) :
    ({ sampleImporter false with requireBootable := required }).Finds sampleHost r
      (sampleState update) := by
  have href : refForImage sampleImage = .ok sampleImageRef := refForImage_sample
  have hquery : tryQueryImage r sampleImage = .ok (some (sampleState update)) := by
    have hlookup : r.refs[sampleImageRef]? = some emptySha256 := h.lookup.mpr (.inl ⟨rfl, rfl⟩)
    rw [tryQueryImage, href, bind_ok_eq, resolveRev_of_escape escape_sampleImageRef, hlookup]
    dsimp only
    rw [h.query hupdate]
  exact ⟨rfl, hquery, _, _, rfl, .inl rfl⟩

theorem storedConfig_not_bootable : ¬ Bootable sampleHost storedConfig := by
  rintro ⟨hboot, -⟩
  exact absurd hboot (by decide +kernel)

/-- The run that imports the image, and the repository it leaves behind. -/
def sampleRun : List Call :=
  [.prepare sampleHost (sampleImporter false),
    .importImage sampleHost (sampleImporter false) samplePrep]

theorem sampleRun_stored : SampleStored (execAll sampleTables.lib sampleRun {}) ∧
    (execAll sampleTables.lib sampleRun {}).commitmetas = ∅ := by
  obtain ⟨r₁, hprepare, -, himport, hstored, hmetas⟩ := sample_imported
  have hrun : execAll sampleTables.lib sampleRun {} = r₁ := by
    rw [sampleRun, execAll_cons, Call.exec_prepare, hprepare, finalState_ok, execAll_cons,
      Call.exec_importImage, himport, finalState_ok, execAll_nil]
  rw [hrun]
  exact ⟨hstored, hmetas⟩

theorem sampleRun_uncached :
    cachedUpdateOf (execAll sampleTables.lib sampleRun {}) emptySha256 = .ok none := by
  have hcm : (execAll sampleTables.lib sampleRun {}).commitmetas[emptySha256]? = none := by
    rw [sampleRun_stored.2]
    exact ExtTreeMap.lookup_empty _
  rw [cachedUpdateOf, hcm]

/-- **An image without the label is returned to an importer that requires it**, after an import
    that did not. -/
theorem unbootable_present :
    ({ sampleImporter false with requireBootable := true }).prepare sampleHost
        (execAll sampleTables.lib sampleRun {})
      = .ok (.alreadyPresent (sampleState none)) (execAll sampleTables.lib sampleRun {}) ∧
    ¬ Bootable sampleHost (PrepareResult.alreadyPresent (sampleState none)).configuration :=
  ⟨prepare_of_finds (sampleRun_stored.1.finds sampleRun_uncached true), storedConfig_not_bootable⟩

/-- In that repository the requirement is worth nothing. -/
theorem sampleRun_not_required : ¬ ∀ res r',
    ({ sampleImporter false with requireBootable := true }).prepare sampleHost
      (execAll sampleTables.lib sampleRun {}) = .ok res r' →
    Bootable sampleHost res.configuration := by
  intro h
  exact storedConfig_not_bootable ((prepare_bootable_iff rfl _).mp h _
    (sampleRun_stored.1.finds sampleRun_uncached true))

-- ── The cached update ─────────────────────────────────────────────────────────

/-- The update that a query is to report after `prepare`. -/
def PrepareResult.update : PrepareResult → Option CachedImageUpdate
  | .alreadyPresent _ => none
  | .ready prep => some {
      manifest := prep.manifest, config := prep.config, manifestDigest := prep.manifestDigest }

/-- After a successful `prepare`, a query of the image reports just the update that was found. -/
def Coherent (host : Host) (imp : ImageImporter) (r : Repo) : Prop :=
  ∀ res r' state, imp.prepare host r = .ok res r' →
    queryImage r' imp.imgref.imgref = .ok (some state) → state.cachedUpdate = res.update

section Coherent

variable {r r' : Repo} {i : ImageReference}

/-- The two queries agree about an image that can be read. -/
theorem queryImage_eq_some {state : LayeredImageState} :
    queryImage r i = .ok (some state) ↔ tryQueryImage r i = .ok (some state) := by
  rw [queryImage, tryQueryImage, result_bind_eq_ok, result_bind_eq_ok]
  refine exists_congr (fun ref => and_congr_right (fun _ => ?_))
  cases r.resolveRev ref with
  | none => exact Iff.rfl
  | some rev =>
      dsimp only
      cases queryImageCommit r rev with
      | ok s => exact Iff.rfl
      | error e => simp [Except.map]

/-- A stored image is read from the commit that its ref points to. -/
theorem tryQueryImage_eq_some {state : LayeredImageState} :
    tryQueryImage r i = .ok (some state) ↔ ∃ ref rev, refForImage i = .ok ref ∧
      r.resolveRev ref = some rev ∧ queryImageCommit r rev = .ok state := by
  rw [tryQueryImage, result_bind_eq_ok]
  refine exists_congr (fun ref => ?_)
  cases hrev : r.resolveRev ref with
  | none => simp
  | some rev =>
      dsimp only
      cases hquery : queryImageCommit r rev with
      | ok s =>
          constructor
          · rintro ⟨href, hs⟩
            cases hs
            exact ⟨rev, href, rfl, hquery⟩
          · rintro ⟨_, href, hrev', hs⟩
            cases hrev'
            cases hquery.symm.trans hs
            exact ⟨href, rfl⟩
      | error e =>
          constructor
          · rintro ⟨-, hs⟩
            cases hs
          · rintro ⟨_, -, hrev', hs⟩
            cases hrev'
            cases hquery.symm.trans hs

/-- What was cached is read back. -/
theorem parseCachedUpdate_pending (manifestDigest : Digest) (manifest : ImageManifest)
    (config : ImageConfiguration) :
    parseCachedUpdate (pendingMetadata manifestDigest manifest config)
      = .ok (some { manifest, config, manifestDigest }) := by
  have hdigest : (pendingMetadata manifestDigest manifest config)[cachedKeyManifestDigest]?
      = some (.digest manifestDigest) := by
    rw [pendingMetadata, ExtTreeMap.lookup_insert, if_neg (by decide), ExtTreeMap.lookup_insert,
      if_neg (by decide), ExtTreeMap.lookup_insert, if_pos rfl]
  have hmanifest : (pendingMetadata manifestDigest manifest config)[cachedKeyManifest]?
      = some (.manifest manifest) := by
    rw [pendingMetadata, ExtTreeMap.lookup_insert, if_neg (by decide), ExtTreeMap.lookup_insert,
      if_pos rfl]
  have hconfig : (pendingMetadata manifestDigest manifest config)[cachedKeyConfig]?
      = some (.config config) := by
    rw [pendingMetadata, ExtTreeMap.lookup_insert, if_pos rfl]
  rw [parseCachedUpdate, lookupStr, hdigest, lookupValueStr, hmanifest, lookupValueStr, hconfig]
  rfl

theorem cachedUpdateOf_cached (previous : LayeredImageState) (manifestDigest : Digest)
    (manifest : ImageManifest) (config : ImageConfiguration) (r : Repo) :
    cachedUpdateOf (cachedRepo (some previous) manifestDigest manifest config r)
      previous.mergeCommit = .ok (some { manifest, config, manifestDigest }) := by
  have hlookup : (cachedRepo (some previous) manifestDigest manifest config
      r).commitmetas[previous.mergeCommit]? = some (pendingMetadata manifestDigest manifest config) := by
    show (r.commitmetas.insert previous.mergeCommit _)[previous.mergeCommit]? = _
    rw [ExtTreeMap.lookup_insert, if_pos rfl]
  rw [cachedUpdateOf, hlookup]
  exact parseCachedUpdate_pending manifestDigest manifest config

/-- An update that was found is reported. -/
theorem ready_coherent {prep : PreparedImport} (h : imp.Updates host r prep r')
    {state : LayeredImageState} (hquery : queryImage r' imp.imgref.imgref = .ok (some state)) :
    state.cachedUpdate = (PrepareResult.ready prep).update := by
  have hquery := queryImage_eq_some.mp hquery
  have hsame := cachedRepo_same prep.previousState prep.manifestDigest prep.manifest prep.config r
  rw [h.repo] at hquery
  cases hprevious : prep.previousState with
  | none =>
      have hstored := h.stored
      rw [hprevious] at hquery hstored
      exact absurd (hstored.symm.trans hquery) (by simp)
  | some previous =>
      have hstored := h.stored
      rw [hprevious] at hquery hstored hsame
      obtain ⟨ref, rev, href, hrev, hbefore⟩ := tryQueryImage_eq_some.mp hstored
      obtain ⟨ref', rev', href', hrev', hafter⟩ := tryQueryImage_eq_some.mp hquery
      cases href.symm.trans href'
      have hresolve : Repo.resolveRev ref (cachedRepo (some previous) prep.manifestDigest
          prep.manifest prep.config r) = Repo.resolveRev ref r := by
        rw [Repo.resolveRev, Repo.resolveRev, hsame.refs]
      cases hrev.symm.trans (hresolve.symm.trans hrev')
      obtain ⟨_, _, _, hbefore⟩ := queryImageCommit_iff.mp hbefore
      obtain ⟨_, _, _, hafter⟩ := queryImageCommit_iff.mp hafter
      have hupdate := hafter.update
      rw [← hbefore.mergeCommit, cachedUpdateOf_cached] at hupdate
      exact (Except.ok.inj hupdate).symm

/-- **One `prepare`** is coherent unless it finds the image stored with an update. -/
theorem coherent_iff : Coherent host imp r ↔
    ∀ state, imp.Finds host r state → state.cachedUpdate = none := by
  constructor
  · intro h state hfound
    exact h _ _ state (prepare_of_finds hfound) (queryImage_eq_some.mpr hfound.stored)
  · intro h res r' state hrun hquery
    cases res with
    | alreadyPresent state' =>
        obtain ⟨hfound, rfl⟩ := prepare_eq_present.mp hrun
        have hsame := hfound.stored.symm.trans (queryImage_eq_some.mp hquery)
        obtain rfl := Option.some.inj (Except.ok.inj hsame)
        exact h state' hfound
    | ready prep => exact ready_coherent (prepare_eq_ready hrun) hquery

/-- Where the image is found again, the update is still there. -/
theorem incoherent_of_pending {prep : PreparedImport} {previous state : LayeredImageState}
    {host' : Host} {imp' : ImageImporter} (h : imp.Updates host r prep r')
    (hprevious : prep.previousState = some previous) (hfound : imp'.Finds host' r' state)
    (hsame : state.mergeCommit = previous.mergeCommit) : ¬ Coherent host' imp' r' := by
  intro hcoherent
  have hnone := coherent_iff.mp hcoherent state hfound
  obtain ⟨ref, rev, -, -, hquery⟩ := tryQueryImage_eq_some.mp hfound.stored
  obtain ⟨_, _, _, hstate⟩ := queryImageCommit_iff.mp hquery
  have hupdate := hstate.update
  rw [h.repo, hprevious, ← hstate.mergeCommit, hsame, cachedUpdateOf_cached] at hupdate
  exact absurd ((Except.ok.inj hupdate).trans hnone) (by simp)

end Coherent

-- ── Runs that cache no update with the stored image ───────────────────────────

/-- The detached metadata of a commit, if there is any, holds no cached update. -/
def Uncached (r : Repo) (c : Checksum) : Prop :=
  ∀ d : Dict, r.commitmetas[c]? = some d → d[cachedKeyManifestDigest]? = none

theorem Uncached.of_eq {r r' : Repo} {c : Checksum} (h : r'.commitmetas = r.commitmetas)
    (hc : Uncached r c) : Uncached r' c := fun d hd => hc d (h ▸ hd)

theorem Uncached.insert {r : Repo} {c c' : Checksum} {d : Dict} (h : Uncached r c)
    (hd : c' = c → d[cachedKeyManifestDigest]? = none) :
    Uncached { r with commitmetas := r.commitmetas.insert c' d } c := by
  intro d' hd'
  have hlookup : (r.commitmetas.insert c' d)[c]? = some d' := hd'
  rw [ExtTreeMap.lookup_insert] at hlookup
  by_cases heq : c' = c
  · rw [if_pos heq] at hlookup
    obtain rfl := Option.some.inj hlookup
    exact hd heq
  · rw [if_neg heq] at hlookup
    exact h d' hlookup

/-- An import whose archives bring none leaves the commits without one. -/
theorem uncached_frame (S : String → Prop) (c : Checksum) :
    FetchFrame S (fun d => d[cachedKeyManifestDigest]? = none)
      (fun r r' => Uncached r c → Uncached r' c) where
  frame _ := {
    refl := fun _ h => h
    trans := fun _ _ _ h h' hc => h' (h hc)
    harmless := fun _ _ h => Uncached.of_eq h.commitmetas
    marked := fun _ => Uncached.of_eq rfl
    commit := fun _ _ => Uncached.of_eq rfl
    commitmeta := fun _ _ hd hc => hc.insert (fun _ => hd)
    accepted := fun _ _ _ _ => Uncached.of_eq rfl }
  unmarked _ _ := Uncached.of_eq rfl
  setRef _ _ _ _ := Uncached.of_eq rfl
  adds _ _ _ _ := Uncached.of_eq rfl
  rollback _ _ _ := Uncached.of_eq rfl

section Uncached

variable {r : Repo} {c : Checksum}

theorem importImage_uncached
    (hbrings : ∀ d, imp.Brings host lib d → d[cachedKeyManifestDigest]? = none)
    (h : Uncached r c) : Uncached (finalState (imp.importImage host lib prep r)) c := by
  have hfetch := (uncached_frame prep.IsLayerRef c).fetchLayers hbrings r
  have hmerged : Uncached (finalState (imp.importMerged host lib prep r)) c := by
    rw [ImageImporter.importMerged]
    cases hrun : imp.fetchLayers host lib prep r with
    | error e s =>
        rw [hrun] at hfetch
        rw [bind_of_error hrun]
        exact hfetch h
    | ok m s =>
        rw [hrun] at hfetch
        rw [bind_of_ok hrun]
        rcases @mergeLayers_cases host lib imp m s with ⟨c', r', root, objects, hmerge, hmerges⟩ |
          ⟨e, r', hmerge, -, -, hmetas⟩
        · rw [hmerge, finalState_ok, hmerges.repo]
          exact (hfetch h).of_eq rfl
        · rw [hmerge]
          exact (hfetch h).of_eq hmetas
  rw [ImageImporter.importImage]
  cases hrun : imp.importMerged host lib prep r with
  | error e s =>
      rw [hrun] at hmerged
      rw [bind_of_error hrun]
      exact hmerged
  | ok c' s =>
      rw [hrun] at hmerged
      rw [bind_of_ok hrun]
      exact hmerged.of_eq (finishImport_unlinks c' s).commitmetas

/-- Only `prepare` caches, and only with the image that it finds another one for. -/
theorem prepare_uncached (hpends : ∀ state, imp.Differs host r state → state.mergeCommit ≠ c)
    (h : Uncached r c) : Uncached (finalState (imp.prepare host r)) c := by
  have hcached : ∀ {previous : Option LayeredImageState} {d m config},
      (∀ state, previous = some state → imp.Differs host r state) →
      Uncached (cachedRepo previous d m config r) c := by
    intro previous d m config hdiffers
    cases previous with
    | none => exact h
    | some state => exact h.insert (fun heq => absurd heq (hpends state (hdiffers state rfl)))
  have hcases : imp.Prepares host r (imp.prepare host r) := prepare_prepares r
  generalize imp.prepare host r = out at hcases
  cases hcases with
  | failed e => exact h
  | refused e hdiffers => exact hcached hdiffers
  | present hfound => exact h
  | ready hupdate =>
      rw [finalState_ok, hupdate.repo]
      exact hcached hupdate.differs

/-- An image that carries none is found without one. -/
theorem cachedUpdate_of_uncached {state : LayeredImageState} {i : ImageReference}
    (hstored : tryQueryImage r i = .ok (some state)) (h : Uncached r state.mergeCommit) :
    state.cachedUpdate = none := by
  obtain ⟨ref, rev, -, -, hquery⟩ := tryQueryImage_eq_some.mp hstored
  obtain ⟨_, _, _, hstate⟩ := queryImageCommit_iff.mp hquery
  have hupdate := hstate.update
  rw [cachedUpdateOf, ← hstate.mergeCommit] at hupdate
  cases hlookup : r.commitmetas[state.mergeCommit]? with
  | none =>
      rw [hlookup] at hupdate
      exact (Except.ok.inj hupdate).symm
  | some d =>
      rw [hlookup] at hupdate
      dsimp only at hupdate
      rw [parseCachedUpdate, lookupStr, h d hlookup] at hupdate
      exact (Except.ok.inj hupdate).symm

end Uncached

/-- The archives of the call bring no cached update. -/
def Call.BringsNone (lib : Libostree) : Call → Prop
  | .prepare _ _ => True
  | .importImage host imp _ =>
      ∀ d, imp.Brings host lib d → d[cachedKeyManifestDigest]? = none

/-- The call finds another image than the stored one, whose merge commit is `c`. -/
def Call.Pends : Call → Repo → Checksum → Prop
  | .prepare host imp, r, c => ∃ state, imp.Differs host r state ∧ state.mergeCommit = c
  | .importImage _ _ _, _, _ => False

theorem Call.exec_uncached {call : Call} {r : Repo} {c : Checksum} (hbrings : call.BringsNone lib)
    (hpends : ¬ call.Pends r c) (h : Uncached r c) : Uncached (call.exec lib r) c := by
  cases call with
  | prepare host imp =>
      exact prepare_uncached (fun state hdiffers heq => hpends ⟨state, hdiffers, heq⟩) h
  | importImage host imp prep => exact importImage_uncached hbrings h

/-- Some `prepare` of the run has found another image while the merge commit was stored. -/
def PendedIn (lib : Libostree) (calls : List Call) (r : Repo) (c : Checksum) : Prop :=
  ∃ before call after, calls = before ++ call :: after ∧ call.Pends (execAll lib before r) c

theorem execAll_uncached {calls : List Call} {r : Repo} {c : Checksum}
    (hbrings : ∀ call ∈ calls, call.BringsNone lib) (hpends : ¬ PendedIn lib calls r c)
    (h : Uncached r c) : Uncached (execAll lib calls r) c := by
  induction calls generalizing r with
  | nil => exact h
  | cons call calls ih =>
      have hfirst : ¬ call.Pends r c := fun hcall => hpends ⟨[], call, calls, rfl, hcall⟩
      refine ih (fun call' hcall' => hbrings call' (List.mem_cons_of_mem _ hcall')) ?_
        (Call.exec_uncached (hbrings call (List.mem_cons_self ..)) hfirst h)
      rintro ⟨before, call', after, rfl, hcall'⟩
      exact hpends ⟨call :: before, call', after, rfl, hcall'⟩

/-- **When the cached update is coherent.**  One `prepare` is, unless it finds the image stored
    with an update; that takes an earlier one of the run that has found another image while the
    same merge commit was stored, if neither the start nor the archives bring cached updates; and
    where the earlier one has just returned that image to be fetched, it is not coherent. -/
theorem cachedUpdate_coherent (lib : Libostree) :
    (∀ host imp r, Coherent host imp r ↔
      ∀ state, imp.Finds host r state → state.cachedUpdate = none) ∧
    (∀ (r : Repo) (calls : List Call) (host : Host) (imp : ImageImporter),
      (∀ c, Uncached r c) → (∀ call ∈ calls, call.BringsNone lib) →
      (∀ state, imp.Finds host (execAll lib calls r) state →
        ¬ PendedIn lib calls r state.mergeCommit) →
      Coherent host imp (execAll lib calls r)) ∧
    ∀ (host host' : Host) (imp imp' : ImageImporter) (r r' : Repo) (prep : PreparedImport)
      (previous state : LayeredImageState), imp.prepare host r = .ok (.ready prep) r' →
      prep.previousState = some previous → imp'.Finds host' r' state →
      state.mergeCommit = previous.mergeCommit → ¬ Coherent host' imp' r' := by
  refine ⟨fun host imp r => coherent_iff, fun r calls host imp hstart hbrings hfresh => ?_,
    fun _ _ _ _ _ _ _ _ _ hrun hprevious hfound hsame =>
      incoherent_of_pending (prepare_eq_ready hrun) hprevious hfound hsame⟩
  refine coherent_iff.mpr (fun state hfound => ?_)
  exact cachedUpdate_of_uncached hfound.stored
    (execAll_uncached hbrings (hfresh state hfound) (hstart _))

/-- Another image. -/
def newerManifest : ImageManifest :=
  { sampleManifest with
    config := { sampleManifest.config with digest := "sha256:" ++ sampleTreeSum } }

def newerDigest : Digest := "sha256:" ++ sampleTreeSum

/-- The remote has it now. -/
def newerImporter : ImageImporter :=
  { sampleImporter false with proxy := sampleProxy newerDigest newerManifest }

theorem newer_differs : newerImporter.Differs sampleHost (execAll sampleTables.lib sampleRun {})
    (sampleState none) := by
  have hfound := sampleRun_stored.1.finds sampleRun_uncached false
  refine ⟨rfl, hfound.stored, newerDigest, newerManifest, rfl, ?_, ?_⟩
  · decide +kernel
  · decide +kernel

theorem SampleStored.same {r r' : Repo} (h : SampleStored r) (hsame : SameButMeta r r') :
    SampleStored r' where
  refs := hsame.refs.trans h.refs
  commits := by rw [hsame.objects, h.commits]

/-- **Going back**: the image is imported, the remote serves a newer one, and then the same one
    again.  It is present, with an update that there is no more. -/
theorem going_back_incoherent : ¬ Coherent sampleHost (sampleImporter false)
    (execAll sampleTables.lib (sampleRun ++ [.prepare sampleHost newerImporter]) {}) := by
  have hrun : execAll sampleTables.lib (sampleRun ++ [.prepare sampleHost newerImporter]) {}
      = cachedRepo (some (sampleState none)) newerDigest newerManifest storedConfig
          (execAll sampleTables.lib sampleRun {}) := by
    rw [execAll_append, execAll_cons, Call.exec_prepare,
      prepare_of_differs newer_differs rfl rfl, execAll_nil]
  rw [hrun, coherent_iff]
  intro hcoherent
  have hstored := sampleRun_stored.1.same (cachedRepo_same (some (sampleState none)) newerDigest
    newerManifest storedConfig _)
  have hnone := hcoherent _ (hstored.finds (cachedUpdateOf_cached (sampleState none) _ _ _ _) false)
  exact absurd hnone (by simp [sampleState])

/-- The tables have no detached metadata, so no archive brings any. -/
theorem sampleRun_bringsNone : ∀ call ∈ sampleRun, call.BringsNone sampleTables.lib := by
  intro call hcall
  rcases List.mem_cons.mp hcall with rfl | hcall
  · trivial
  obtain rfl := List.mem_singleton.mp hcall
  rintro d ⟨blob, compression, -, hd⟩
  rw [streamDict] at hd
  split at hd
  · obtain rfl := Option.some.inj hd
    exact ExtTreeMap.lookup_empty _
  · cases hd

/-- Nothing was stored when the run began. -/
theorem sampleRun_not_pended (c : Checksum) : ¬ PendedIn sampleTables.lib sampleRun {} c := by
  rintro ⟨before, call, after, heq, hpends⟩
  cases before with
  | nil =>
      obtain ⟨rfl, -⟩ := List.cons.inj heq
      obtain ⟨state, hdiffers, -⟩ := hpends
      obtain ⟨ref, rev, href, hrev, -⟩ := tryQueryImage_eq_some.mp hdiffers.stored
      rw [resolveRev_of_escape href] at hrev
      exact absurd (hrev.symm.trans (ExtTreeMap.lookup_empty _)) (by simp)
  | cons first before =>
      cases before with
      | nil =>
          obtain ⟨-, htail⟩ := List.cons.inj heq
          obtain ⟨rfl, -⟩ := List.cons.inj htail
          exact hpends
      | cons second before =>
          obtain ⟨-, htail⟩ := List.cons.inj heq
          exact absurd (List.cons.inj htail).2 (by simp)

/-- Right after its import the image is found without an update. -/
theorem sampleRun_coherent :
    Coherent sampleHost (sampleImporter false) (execAll sampleTables.lib sampleRun {}) := by
  refine (cachedUpdate_coherent sampleTables.lib).2.1 {} sampleRun _ _ ?_ sampleRun_bringsNone
    (fun state _ => sampleRun_not_pended _)
  exact fun c d hd => absurd (hd.symm.trans (ExtTreeMap.lookup_empty _)) (by simp)

end OstreeExt.Store
