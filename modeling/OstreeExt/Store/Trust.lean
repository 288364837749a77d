import OstreeExt.Store.Crash
import OstreeExt.Store.Runs

/-!
# Signatures and the layer cache

An image reference with an ostree remote asks for the base commit to be verified.  The signature
is checked where the commit layer is fetched, and only there: a blob that is in the repository
already is taken as it is, whoever fetched it, and for whatever layer.

So what one operation may report is a matter of all earlier ones.  The refs of the blobs carry the
invariant: a ref is **vouched for** if its commit was accepted for the remote.  Operations that fetch
the blob as commit layer, for the same remote, keep it (`import_trusts`), and a single import for
which nothing was verified breaks it (`unverified_reported`).
-/

namespace OstreeExt.Store

open OstreeExt Tar Exec Std

-- ── Accepted commits ──────────────────────────────────────────────────────────

/-- The signature of a commit with this checksum was accepted for the remote. -/
def Vouched (lib : Libostree) (remote : String) (c : Checksum) (r : Repo) : Prop :=
  ∃ commit commitmeta, .accepted remote commit commitmeta ∈ r.trace ∧ lib.sha256 commit = c

/-- If the ref is there, its commit was accepted for the remote. -/
def VouchedRef (lib : Libostree) (remote ref : String) (r : Repo) : Prop :=
  ∀ c, r.refs[ref]? = some c → Vouched lib remote c r

/-- No history is lost, and the ref stays vouched for. -/
structure Trusts (lib : Libostree) (remote ref : String) (r r' : Repo) : Prop where
  history : r.trace <+: r'.trace
  vouched : VouchedRef lib remote ref r → VouchedRef lib remote ref r'

section Trusts

variable {lib : Libostree} {remote ref : String}

theorem Vouched.mono {c : Checksum} {r r' : Repo} (h : Vouched lib remote c r)
    (hhistory : r.trace <+: r'.trace) : Vouched lib remote c r' := by
  obtain ⟨commit, commitmeta, hin, hsum⟩ := h
  exact ⟨commit, commitmeta, hhistory.subset hin, hsum⟩

/-- A step that does not write the ref. -/
theorem Trusts.of_ref {r r' : Repo} (hhistory : r.trace <+: r'.trace)
    (href : ∀ c, r'.refs[ref]? = some c → r.refs[ref]? = some c) : Trusts lib remote ref r r' :=
  ⟨hhistory, fun h c hc => (h c (href c hc)).mono hhistory⟩

theorem Trusts.of_sameRefs {r r' : Repo} (hhistory : r.trace <+: r'.trace)
    (hrefs : r'.refs = r.refs) : Trusts lib remote ref r r' :=
  .of_ref hhistory (fun c hc => by rw [← hrefs]; exact hc)

theorem Trusts.refl (r : Repo) : Trusts lib remote ref r r :=
  .of_sameRefs (List.prefix_refl _) rfl

theorem Trusts.trans (a b c : Repo) (h : Trusts lib remote ref a b)
    (h' : Trusts lib remote ref b c) : Trusts lib remote ref a c :=
  ⟨h.history.trans h'.history, fun hv => h'.vouched (h.vouched hv)⟩

/-- Every write but that of the ref keeps it vouched for. -/
theorem trusts_frame (lib : Libostree) (remote ref : String) :
    FetchFrame (· ≠ ref) (fun _ => True) (Trusts lib remote ref) where
  frame _ := {
    refl := Trusts.refl
    trans := Trusts.trans
    harmless := by
      intro r r' h
      obtain ⟨events, htrace, -⟩ := h.trace
      exact .of_sameRefs (htrace ▸ List.prefix_append _ _) h.refs
    marked := fun _ => .of_sameRefs (List.prefix_append _ _) rfl
    commit := fun _ _ => .of_sameRefs (List.prefix_append _ _) rfl
    commitmeta := fun _ _ _ => .of_sameRefs (List.prefix_append _ _) rfl
    accepted := fun _ _ _ _ => .of_sameRefs (List.prefix_append _ _) rfl }
  unmarked _ _ := .of_sameRefs (List.prefix_append _ _) rfl
  setRef r ref' c hne := by
    refine .of_ref (List.prefix_refl _) (fun c' hc => ?_)
    have hlookup : (r.refs.insert ref' c)[ref]? = some c' := hc
    rw [ExtTreeMap.lookup_insert, if_neg hne] at hlookup
    exact hlookup
  adds _ _ _ _ := .of_sameRefs (List.prefix_refl _) rfl
  rollback _ _ h := .of_sameRefs h.history rfl

-- ── The commit layer ──────────────────────────────────────────────────────────

/-- **A commit that was imported with a remote** was accepted for it. -/
theorem importTarBody_vouched {s : Stream} {c : Checksum} {r r' : Repo}
    (h : importTarBody lib s (some remote) r = .ok c r') : Vouched lib remote c r' := by
  obtain ⟨imp, hrun, rfl⟩ := withImporter_eq_ok h
  obtain ⟨u, imp', himport, hfinish⟩ := bind_ok hrun
  obtain ⟨hdata, rfl⟩ := finishImportCommit_ok_iff.mp hfinish
  rcases importCommit_verified lib remote s r with
    ⟨stop, hstop⟩ | ⟨checksum, commit, commitmeta, later, -, htrace, -, hdone⟩
  · cases himport.symm.trans hstop
  · rw [himport] at htrace
    obtain ⟨-, -, hsum, hdata'⟩ := hdone u _ himport
    rw [hdata] at hdata'
    injection hdata' with hc
    injection hc with hc
    subst hc
    refine ⟨lib.commit.toBytes commit, lib.dict.toBytes commitmeta, ?_, hsum⟩
    rw [finalState_ok] at htrace
    rw [htrace]
    exact List.mem_append_right _ (List.mem_cons_self ..)

/-- A failed transaction writes no ref. -/
theorem refs_of_failed {α : Type} {body : RepoM α} {e : Stop} {r r' : Repo}
    (h : Repo.autoTransaction body r = .error e r') : r'.refs = r.refs := by
  rw [Repo.autoTransaction] at h
  cases hrun : body r with
  | ok a s =>
      rw [hrun] at h
      cases h
  | error e' s =>
      rw [hrun] at h
      cases h
      rfl

theorem importCommitLayer_sets {remote : Option String} {blob : Stream} {c : Checksum}
    {r r' : Repo} (h : importCommitLayer lib remote true ref blob r = .ok c r') :
    r'.refs[ref]? = some c := by
  have h := of_autoTransaction h
  obtain ⟨commit, r₁, -, h₁⟩ := bind_ok h
  dsimp only at h₁
  rw [if_pos rfl] at h₁
  obtain ⟨_, r₂, hset, h₂⟩ := bind_ok h₁
  obtain ⟨_, r₃, hmark, h₃⟩ := bind_ok h₂
  cases hset
  cases hmark
  cases h₃
  show (r₁.refs.insert ref c)[ref]? = some c
  rw [ExtTreeMap.lookup_insert, if_pos rfl]

theorem importCommitLayer_vouched {writeRefs : Bool} {blob : Stream} {c : Checksum} {r r' : Repo}
    (h : importCommitLayer lib (some remote) writeRefs ref blob r = .ok c r') :
    Vouched lib remote c r' := by
  have h := of_autoTransaction h
  obtain ⟨commit, r₁, hbody, h₁⟩ := bind_ok h
  have hvouched := importTarBody_vouched hbody
  have hunmark : ∀ {s : Repo}, (do
      Repo.markCommitPartial commit false
      pure commit : RepoM Checksum) s = .ok c r' → s.trace = r₁.trace →
      Vouched lib remote c r' := by
    intro s hrun htrace
    obtain ⟨_, r₂, hmark, h₂⟩ := bind_ok hrun
    cases hmark
    cases h₂
    refine hvouched.mono ?_
    rw [← htrace]
    exact List.prefix_append _ _
  dsimp only at h₁
  split at h₁
  · obtain ⟨_, r₂, hset, h₂⟩ := bind_ok h₁
    cases hset
    exact hunmark h₂ rfl
  · exact hunmark h₁ rfl

/-- The ref that a verified import writes is vouched for. -/
theorem importCommitLayer_trusts (blob : Stream) :
    Steps (Trusts lib remote ref) (importCommitLayer lib (some remote) true ref blob) := by
  intro r
  -- seen from any other ref, it is a step that loses no history
  have hother : ref ≠ ref ++ "/" := by
    intro heq
    have hlength := congrArg String.length heq
    simp at hlength
  have hhistory : r.trace <+:
      (finalState (importCommitLayer lib (some remote) true ref blob r)).trace :=
    ((trusts_frame lib remote (ref ++ "/")).importCommitLayer _ _ (fun _ => hother)
      (fun _ _ => trivial) r).history
  cases hrun : importCommitLayer lib (some remote) true ref blob r with
  | error e r' =>
      rw [hrun] at hhistory
      exact .of_sameRefs hhistory (refs_of_failed hrun)
  | ok c r' =>
      rw [hrun] at hhistory
      refine ⟨hhistory, fun _ c' hc' => ?_⟩
      have hset := importCommitLayer_sets hrun
      obtain rfl : c = c' := Option.some.inj (hset.symm.trans hc')
      exact importCommitLayer_vouched hrun

-- ── One import ────────────────────────────────────────────────────────────────

/-- The import fetches the blob of the ref, if at all, as its commit layer and for the remote. -/
structure PreparedImport.Guards (prep : PreparedImport) (sigverify : SignatureSource)
    (remote ref : String) : Prop where
  others : ∀ layer ∈ prep.ostreeLayers ++ prep.layers, layer.ostreeRef = ref →
    layer.commit.isSome = true
  base : prep.ostreeCommitLayer.ostreeRef = ref →
    prep.ostreeCommitLayer.commit.isSome = true ∨ sigverify = .ostreeRemote remote

section Import

variable {host : Host} {imp : ImageImporter} {prep : PreparedImport} {manifest : ImageManifest}
  {desLayers : Option (List ConvertedLayerInfo)} {layer : ManifestLayerState} {writeRefs : Bool}

theorem fetchChunkLayer_trusts
    (h : writeRefs = true → layer.ostreeRef = ref → layer.commit.isSome = true) :
    Steps (Trusts lib remote ref)
      (imp.fetchChunkLayer host lib manifest desLayers writeRefs layer) := by
  by_cases hthere : layer.commit.isSome = true
  · rw [ImageImporter.fetchChunkLayer, if_pos hthere]
    exact Steps.pure Trusts.refl _
  · exact (trusts_frame lib remote ref).fetchChunkLayer writeRefs
      (fun hwrite href => hthere (h hwrite href))

theorem importLayer_trusts {base : Checksum} {rootIsTransient : Bool}
    (acc : List Checksum × MetaFilteredData)
    (h : layer.ostreeRef = ref → layer.commit.isSome = true) :
    Steps (Trusts lib remote ref)
      (imp.importLayer host lib manifest desLayers base rootIsTransient acc layer) := by
  cases hcommit : layer.commit with
  | some commit =>
      rw [ImageImporter.importLayer, hcommit]
      exact Steps.pure Trusts.refl _
  | none =>
      refine (trusts_frame lib remote ref).importLayer acc (fun href => ?_)
      exact absurd (h href) (by simp [hcommit])

theorem fetchCommitLayer_trusts {verify : Option String} (h : writeRefs = true →
      layer.ostreeRef = ref → layer.commit.isSome = true ∨ verify = some remote) :
    Steps (Trusts lib remote ref)
      (imp.fetchCommitLayer host lib manifest desLayers verify writeRefs layer) := by
  have hR := trusts_frame lib remote ref
  by_cases hthere : layer.commit.isSome = true
  · rw [ImageImporter.fetchCommitLayer, if_pos hthere]
    exact hR.pure _
  by_cases hown : writeRefs = true ∧ layer.ostreeRef = ref
  · obtain ⟨rfl, href⟩ := hown
    obtain rfl := (h rfl href).resolve_left hthere
    rw [ImageImporter.fetchCommitLayer, if_neg hthere]
    refine Steps.bind hR.trans (hR.liftR _) (fun _ => ?_)
    refine Steps.bind hR.trans (hR.liftR _) (fun b => ?_)
    refine Steps.bind hR.trans (hR.joinFetch ?_ b.2.1) (fun commit => ?_)
    · refine Steps.bind hR.trans (hR.liftR _) (fun compression => ?_)
      rw [href]
      exact importCommitLayer_trusts _
    · exact Steps.bind hR.trans (hR.liftR _) (fun _ => hR.pure _)
  · exact hR.fetchCommitLayer (fun _ _ => trivial) _ writeRefs
      (fun hwrite href => hown ⟨hwrite, href⟩)

/-- **A commit layer that is fetched with a remote** is vouched for. -/
theorem fetchCommitLayer_vouched {r r' : Repo} {layer' : ManifestLayerState}
    (h : imp.fetchCommitLayer host lib manifest desLayers (some remote) writeRefs layer r
      = .ok layer' r') :
    (layer' = layer ∧ layer.commit.isSome = true) ∨
      ∃ c, layer'.commit = some c ∧ Vouched lib remote c r' := by
  by_cases hthere : layer.commit.isSome = true
  · rw [ImageImporter.fetchCommitLayer, if_pos hthere] at h
    cases h
    exact .inl ⟨rfl, hthere⟩
  · rw [ImageImporter.fetchCommitLayer, if_neg hthere] at h
    obtain ⟨_, r₁, -, h₁⟩ := bind_ok h
    obtain ⟨b, r₂, -, h₂⟩ := bind_ok h₁
    obtain ⟨commit, r₃, hfetch, h₃⟩ := bind_ok h₂
    obtain ⟨compression, r₄, -, himport⟩ := bind_ok (joinFetch_ok hfetch)
    obtain ⟨_, r₅, hsent, h₄⟩ := bind_ok h₃
    obtain ⟨-, rfl⟩ := liftR_eq_ok hsent
    cases h₄
    exact .inr ⟨commit, rfl, importCommitLayer_vouched himport⟩

theorem unencapsulateBase_trusts
    (h : writeRefs = true → prep.Guards imp.imgref.sigverify remote ref) :
    Steps (Trusts lib remote ref) (imp.unencapsulateBase host lib prep writeRefs) := by
  refine steps_unencapsulateBase Trusts.refl Trusts.trans (fun desLayers layer hlayer => ?_)
    (fun desLayers => ?_)
  · exact fetchChunkLayer_trusts (fun hwrite =>
      (h hwrite).others layer (List.mem_append_left _ hlayer))
  · refine fetchCommitLayer_trusts (fun hwrite href => ?_)
    refine ((h hwrite).base href).imp_right (fun hremote => ?_)
    rw [hremote]
    rfl

/-- What has happened is not recorded. -/
def SameHistory (r r' : Repo) : Prop := r'.trace = r.trace

theorem SameHistory.refl (r : Repo) : SameHistory r r := rfl

theorem SameHistory.trans (a b c : Repo) (h : SameHistory a b) (h' : SameHistory b c) :
    SameHistory a c := Eq.trans h' h

theorem pruneLayers_history (found : List (String × Checksum)) (referenced : ExtTreeSet Digest)
    (n : Nat) : Steps SameHistory (pruneLayers found referenced n) := by
  induction found generalizing referenced n with
  | nil => exact Steps.pure SameHistory.refl n
  | cons p found ih =>
      obtain ⟨layerRef, c⟩ := p
      rw [pruneLayers]
      refine Steps.bind SameHistory.trans (steps_liftR SameHistory.refl _) (fun d => ?_)
      split
      · exact ih _ n
      · exact Steps.bind SameHistory.trans (fun _ => rfl) (fun _ => ih _ _)

/-- The garbage collection is not part of the history. -/
theorem gcImageLayers_history (hash : HashOrder) : Steps SameHistory (gcImageLayers hash) := by
  intro r
  rw [gcImageLayers, bind_of_ok (get_run r)]
  cases referencedLayers hash r with
  | error e => exact SameHistory.refl r
  | ok referenced => exact pruneLayers_history _ _ _ r

theorem gcImageLayers_trusts (hash : HashOrder) :
    Steps (Trusts lib remote ref) (gcImageLayers hash) := by
  intro r
  have hhistory : (finalState (gcImageLayers hash r)).trace = r.trace :=
    gcImageLayers_history hash r
  refine .of_ref ?_ (fun c hc => ?_)
  · rw [hhistory]
  · rcases (gcImageLayers_unlinks hash r).refs ref with heq | ⟨-, hnone⟩
    · rw [← heq]
      exact hc
    · exact absurd (hnone.symm.trans hc) (by simp)

theorem finishImport_trusts (c : Checksum) :
    Steps (Trusts lib remote ref) (imp.finishImport host c) := by
  have hquery : Steps (Trusts lib remote ref)
      (do liftR (queryImageCommit (← get) c) : RepoM LayeredImageState) :=
    Steps.bind Trusts.trans Trusts.refl (fun _ => steps_liftR Trusts.refl _)
  rw [ImageImporter.finishImport]
  dsimp only
  split
  · exact hquery
  · exact Steps.bind Trusts.trans (gcImageLayers_trusts host.hash) (fun _ => hquery)

/-- **An import keeps the ref vouched for**, error or not. -/
theorem import_trusts (hunder : Repo.refUnder layerPrefix ref = true)
    (h : prep.Guards imp.imgref.sigverify remote ref) :
    Steps (Trusts lib remote ref) (imp.importImage host lib prep) := by
  have hfetch : Steps (Trusts lib remote ref) (imp.fetchLayers host lib prep) := by
    refine steps_fetchLayers Trusts.refl Trusts.trans (unencapsulateBase_trusts (fun _ => h)) ?_
    intro desLayers base transient acc layer hlayer
    exact importLayer_trusts acc (h.others layer (List.mem_append_right _ hlayer))
  refine Steps.bind Trusts.trans (fun r => ?_) finishImport_trusts
  have hfetch := hfetch r
  rw [ImageImporter.importMerged]
  cases hrun : imp.fetchLayers host lib prep r with
  | error e s =>
      rw [hrun] at hfetch
      rw [bind_of_error hrun]
      exact hfetch
  | ok m s =>
      rw [hrun] at hfetch
      rw [bind_of_ok hrun]
      -- the ref of the image is the ref of no blob
      have himage := refUnder_of_escape (fetchLayers_ok hrun).target
      have hne : m.ostreeRef ≠ ref := by
        intro heq
        rw [heq] at himage
        exact absurd (hunder.symm.trans (refUnder_disjoint (List.mem_cons_self ..) himage)) (by simp)
      exact hfetch.trans _ _ _ ((trusts_frame lib remote ref).mergeLayers hne s)

/-- The state that an import returns is queried at its end. -/
theorem importImage_queried {state : LayeredImageState} {r r' : Repo}
    (h : imp.importImage host lib prep r = .ok state r') :
    ∃ c, queryImageCommit r' c = .ok state := by
  obtain ⟨c, r₁, -, hfinish⟩ := bind_ok h
  have hquery : ∀ {s : Repo}, (do liftR (queryImageCommit (← get) c) : RepoM LayeredImageState) s
      = .ok state r' → queryImageCommit r' c = .ok state := by
    intro s hrun
    rw [bind_of_ok (get_run s)] at hrun
    obtain ⟨hstate, rfl⟩ := liftR_eq_ok hrun
    exact hstate
  rw [ImageImporter.finishImport] at hfinish
  dsimp only at hfinish
  split at hfinish
  · exact ⟨c, hquery hfinish⟩
  · obtain ⟨n, r₂, -, hrest⟩ := bind_ok hfinish
    exact ⟨c, hquery hrest⟩

end Import

theorem unencapsulateBase_vouched {host : Host} {imp : ImageImporter} {prep prep' : PreparedImport}
    {writeRefs : Bool} {r r' : Repo} (hremote : imp.imgref.sigverify = .ostreeRemote remote)
    (h : imp.unencapsulateBase host lib prep writeRefs r = .ok prep' r') :
    (prep'.ostreeCommitLayer = prep.ostreeCommitLayer ∧
      prep.ostreeCommitLayer.commit.isSome = true) ∨
    ∃ c, prep'.ostreeCommitLayer.commit = some c ∧ Vouched lib remote c r' := by
  obtain ⟨_, r₁, -, h₁⟩ := bind_ok h
  obtain ⟨desLayers, r₂, -, h₂⟩ := bind_ok h₁
  obtain ⟨chunks, r₃, -, h₃⟩ := bind_ok h₂
  obtain ⟨commitLayer, r₄, hcommit, h₄⟩ := bind_ok h₃
  cases h₄
  rw [hremote] at hcommit
  exact fetchCommitLayer_vouched hcommit

end Trusts

-- ── Runs of operations ────────────────────────────────────────────────────────

/-- An operation of an importer: `prepare` followed by `import`, or `unencapsulate`, which starts
    with `prepare`. -/
inductive Operation where
  | importImage (host : Host) (imp : ImageImporter)
  | unencapsulate (host : Host) (imp : ImageImporter)

/-- The signature source of its image reference. -/
def Operation.sigverify : Operation → SignatureSource
  | .importImage _ imp => imp.imgref.sigverify
  | .unencapsulate _ imp => imp.imgref.sigverify

/-- What an operation does; it reports a base commit, and the manifest that this is the base of. -/
def Operation.run (lib : Libostree) : Operation → RepoM (Checksum × ImageManifest)
  | .importImage host imp => do
      match ← imp.prepare host with
      | .alreadyPresent state => pure (state.baseCommit, state.manifest)
      | .ready prep => do
          let state ← imp.importImage host lib prep
          pure (state.baseCommit, state.manifest)
  | .unencapsulate host imp => do
      let i ← imp.unencapsulate host lib
      let served ← liftR imp.proxy.fetchManifest
      pure (i.ostreeCommit, served.2)

/-- What a run of operations leaves behind, each done or failed. -/
def operate (lib : Libostree) (ops : List Operation) (r : Repo) : Repo :=
  ops.foldl (fun r op => finalState (op.run lib r)) r

theorem operate_append (lib : Libostree) (a b : List Operation) (r : Repo) :
    operate lib (a ++ b) r = operate lib b (operate lib a r) := List.foldl_append

theorem operate_single (lib : Libostree) (op : Operation) (r : Repo) :
    operate lib [op] r = finalState (op.run lib r) := rfl

theorem Operation.run_present {lib : Libostree} {host : Host} {imp : ImageImporter}
    {state : LayeredImageState} {r : Repo}
    (h : imp.prepare host r = .ok (.alreadyPresent state) r) :
    (Operation.importImage host imp).run lib r = .ok (state.baseCommit, state.manifest) r := by
  rw [Operation.run, bind_of_ok h]
  rfl

theorem Operation.run_ready {lib : Libostree} {host : Host} {imp : ImageImporter}
    {prep : PreparedImport} {state : LayeredImageState} {r r₁ r₂ : Repo}
    (hprepare : imp.prepare host r = .ok (.ready prep) r₁)
    (himport : imp.importImage host lib prep r₁ = .ok state r₂) :
    (Operation.importImage host imp).run lib r = .ok (state.baseCommit, state.manifest) r₂ := by
  rw [Operation.run, bind_of_ok hprepare]
  dsimp only
  rw [bind_of_ok himport]
  rfl

/-- In the image that is served, the blob is the one of no chunk layer and no derived layer, and it
    is the one of the commit layer only where that is verified for the remote. -/
def ImageImporter.ServesVerified (imp : ImageImporter) (remote : String) (digest : Digest) : Prop :=
  ∀ manifestDigest manifest config commitLayer componentLayers remainingLayers,
    imp.proxy.fetchManifest = .ok (manifestDigest, manifest) →
    imp.proxy.fetchConfig = .ok config →
    parseManifestLayout manifest config = .ok (commitLayer, componentLayers, remainingLayers) →
    (∀ l ∈ componentLayers ++ remainingLayers, l.digest ≠ digest) ∧
      (commitLayer.digest = digest → imp.imgref.sigverify = .ostreeRemote remote)

/-- The operation fetches the blob, if at all, as a commit layer that it verifies for the remote:
    it stores no blobs, or its image is present, or the blob is, or else that is where the served
    image has the blob. -/
def Operation.Guards (remote : String) (digest : Digest) : Operation → Repo → Prop
  | .importImage host imp, r => (∃ state, imp.Finds host r state) ∨
      (∃ ref, refForBlobDigest digest = .ok ref ∧ ref ∈ r.refs) ∨ imp.ServesVerified remote digest
  | .unencapsulate _ _, _ => True

/-- Each operation of a run does, in the repository where it starts. -/
def EachGuards (lib : Libostree) (remote : String) (digest : Digest) (ops : List Operation) : Prop :=
  ∀ before op after, ops = before ++ op :: after →
    op.Guards remote digest (operate lib before {})

section Runs

variable {lib : Libostree} {remote ref : String} {digest : Digest} {host : Host}
  {imp : ImageImporter} {prep : PreparedImport} {r r' : Repo}

theorem prepare_trusts (host : Host) (imp : ImageImporter) :
    Steps (Trusts lib remote ref) (imp.prepare host) := by
  intro r
  exact .of_sameRefs (prepare_history host imp r) (prepare_same host imp r).refs

/-- What the operation is to do, in terms of the import that it prepares. -/
theorem guards_prepared (href : refForBlobDigest digest = .ok ref)
    (h : (Operation.importImage host imp).Guards remote digest r)
    (hprep : imp.prepare host r = .ok (.ready prep) r') :
    prep.Guards imp.imgref.sigverify remote ref := by
  have hupdates := prepare_eq_ready hprep
  obtain ⟨commitLayer, componentLayers, remainingLayers, hlaid⟩ := hupdates.created.laidOut
  have hsame := cachedRepo_same prep.previousState prep.manifestDigest prep.manifest prep.config r
  rw [← hupdates.repo] at hsame
  have hdigest : ∀ l, refForLayer l = .ok ref → l.digest = digest :=
    fun l hl => prefixEscapeForRef_inj hl href
  have hthere : ref ∈ r.refs → ∀ layer ∈ prep.allLayers, layer.ostreeRef = ref →
      layer.commit.isSome = true := by
    intro hin layer hlayer heq
    obtain ⟨-, -, hcommit⟩ := queryLayer_eq_ok (hlaid.queried hlayer)
    obtain ⟨c, hc⟩ := ExtTreeMap.mem_iff_lookup.mp hin
    rw [hcommit, heq, hsame.refs, hc]
    rfl
  rcases h with ⟨state, hfound⟩ | ⟨ref', href', hin⟩ | hserves
  · cases (prepare_of_finds hfound).symm.trans hprep
  · obtain rfl : ref = ref' := Except.ok.inj (href.symm.trans href')
    constructor
    · intro layer hlayer
      refine hthere hin layer ?_
      rcases List.mem_append.mp hlayer with hchunk | hderived
      · exact List.mem_append_left _ (List.mem_cons_of_mem _ hchunk)
      · exact List.mem_append_right _ hderived
    · exact fun heq => .inl (hthere hin _ (List.mem_cons_self ..) heq)
  · obtain ⟨hothers, hbase⟩ := hserves _ _ _ _ _ _ hupdates.served hupdates.config hlaid.layout
    constructor
    · intro layer hlayer heq
      have hlayers : ∃ l ∈ componentLayers ++ remainingLayers, queryLayer r' l = .ok layer := by
        rcases List.mem_append.mp hlayer with hchunk | hderived
        · obtain ⟨l, hl, hquery⟩ := (mem_mapM hlaid.ostreeLayers layer).mp hchunk
          exact ⟨l, List.mem_append_left _ hl, hquery⟩
        · obtain ⟨l, hl, hquery⟩ := (mem_mapM hlaid.layers layer).mp hderived
          exact ⟨l, List.mem_append_right _ hl, hquery⟩
      obtain ⟨l, hl, hquery⟩ := hlayers
      obtain ⟨-, hl', -⟩ := queryLayer_eq_ok hquery
      rw [heq] at hl'
      exact absurd (hdigest l hl') (hothers l hl)
    · intro heq
      obtain ⟨-, hl, -⟩ := queryLayer_eq_ok hlaid.commitLayer
      rw [heq] at hl
      exact .inr (hbase (hdigest commitLayer hl))

/-- **One operation** that guards the blob keeps its ref vouched for. -/
theorem Operation.trusts {op : Operation} (href : refForBlobDigest digest = .ok ref)
    (h : op.Guards remote digest r) : Trusts lib remote ref r (finalState (op.run lib r)) := by
  have hunder : Repo.refUnder layerPrefix ref = true := refUnder_of_escape href
  cases op with
  | importImage host imp =>
      have hprepare : Trusts lib remote ref r (finalState (imp.prepare host r)) :=
        prepare_trusts host imp r
      cases hrun : imp.prepare host r with
      | error e r₁ =>
          rw [hrun] at hprepare
          rw [Operation.run, bind_of_error hrun]
          exact hprepare
      | ok res r₁ =>
          rw [hrun] at hprepare
          rw [Operation.run, bind_of_ok hrun]
          refine hprepare.trans _ _ _ ?_
          cases res with
          | alreadyPresent state => exact Trusts.refl r₁
          | ready prep =>
              exact Steps.bind Trusts.trans (import_trusts hunder (guards_prepared href h hrun))
                (fun _ => Steps.pure Trusts.refl _) r₁
  | unencapsulate host imp =>
      have hunencapsulate : Steps (Trusts lib remote ref) (imp.unencapsulate host lib) := by
        refine Steps.bind Trusts.trans (prepare_trusts host imp) (fun res => ?_)
        cases res with
        | alreadyPresent state => exact Steps.throw Trusts.refl _
        | ready prep =>
            dsimp only
            split
            · exact Steps.throw Trusts.refl _
            refine Steps.bind Trusts.trans (unencapsulateBase_trusts (fun h => absurd h (by simp)))
              (fun prep' => ?_)
            refine Steps.bind Trusts.trans (steps_liftR Trusts.refl _) (fun _ => ?_)
            exact Steps.bind Trusts.trans (steps_liftR Trusts.refl _)
              (fun _ => Steps.pure Trusts.refl _)
      refine Steps.bind Trusts.trans hunencapsulate (fun _ => ?_) r
      exact Steps.bind Trusts.trans (steps_liftR Trusts.refl _) (fun _ => Steps.pure Trusts.refl _)

theorem EachGuards.init {ops : List Operation} {op : Operation}
    (h : EachGuards lib remote digest (ops ++ [op])) : EachGuards lib remote digest ops := by
  intro before op' after heq
  refine h before op' (after ++ [op]) ?_
  rw [heq, List.append_assoc]
  rfl

/-- **A run** that guards the blob leaves its ref vouched for. -/
theorem operate_vouched {ops : List Operation} (href : refForBlobDigest digest = .ok ref)
    (h : EachGuards lib remote digest ops) : VouchedRef lib remote ref (operate lib ops {}) := by
  induction ops using List.reverseRecOn with
  | nil =>
      intro c hc
      exact absurd ((ExtTreeMap.lookup_empty ref).symm.trans hc) (by simp)
  | append_singleton ops op ih =>
      rw [operate_append]
      exact (Operation.trusts href (h ops op [] rfl)).vouched (ih h.init)

theorem unwrapCommit_eq_ok {layer : ManifestLayerState} {c : Checksum}
    (h : unwrapCommit layer = .ok c) : layer.commit = some c := by
  rw [unwrapCommit] at h
  cases hcommit : layer.commit with
  | none =>
      rw [hcommit] at h
      cases h
  | some c' =>
      rw [hcommit] at h
      cases h
      rfl

/-- What `unencapsulate` has done when it succeeds. -/
theorem unencapsulate_ok {i : Import} (h : imp.unencapsulate host lib r = .ok i r') :
    ∃ prep prep' s, imp.prepare host r = .ok (.ready prep) s ∧
      imp.unencapsulateBase host lib prep false s = .ok prep' r' ∧
      prep'.ostreeCommitLayer.commit = some i.ostreeCommit := by
  obtain ⟨res, s, hprepare, h₁⟩ := bind_ok h
  cases res with
  | alreadyPresent state => cases h₁
  | ready prep =>
      dsimp only at h₁
      split at h₁
      · cases h₁
      obtain ⟨prep', s₂, hbase, h₂⟩ := bind_ok h₁
      obtain ⟨_, s₃, hclose, h₃⟩ := bind_ok h₂
      obtain ⟨-, rfl⟩ := liftR_eq_ok hclose
      obtain ⟨commit, s₄, hunwrap, h₄⟩ := bind_ok h₃
      obtain ⟨hcommit, rfl⟩ := liftR_eq_ok hunwrap
      cases h₄
      exact ⟨prep, prep', s, hprepare, hbase, unwrapCommit_eq_ok hcommit⟩

/-- The base commit of a stored image is the commit of the blob of its first layer. -/
theorem base_of_query {c : Checksum} {state : LayeredImageState}
    (h : queryImageCommit r c = .ok state) : ∃ layer ref, state.manifest.layers.head? = some layer ∧
      refForBlobDigest layer.digest = .ok ref ∧ r.refs[ref]? = some state.baseCommit := by
  obtain ⟨obj, base, ref, hstate⟩ := queryImageCommit_iff.mp h
  exact ⟨base, ref, hstate.head, hstate.layerRef, hstate.baseCommit⟩

end Runs

/-- **What may be reported.**  In every run in which each operation guards the blob of the first
    layer, an operation with an ostree remote reports a commit that was accepted for it. -/
theorem reported_vouched {lib : Libostree} {ops : List Operation} {op : Operation} {remote : String}
    {c : Checksum} {manifest : ImageManifest} {r' : Repo}
    (hremote : op.sigverify = .ostreeRemote remote)
    (hrun : op.run lib (operate lib ops {}) = .ok (c, manifest) r')
    (hguards : ∀ layer, manifest.layers.head? = some layer →
      EachGuards lib remote layer.digest (ops ++ [op])) : Vouched lib remote c r' := by
  have hend : operate lib (ops ++ [op]) {} = r' := by
    rw [operate_append]
    show finalState (op.run lib (operate lib ops {})) = r'
    rw [hrun]
    rfl
  -- a commit that is read from the ref of the first layer
  have hstored : ∀ {layer ref}, manifest.layers.head? = some layer →
      refForBlobDigest layer.digest = .ok ref → r'.refs[ref]? = some c → Vouched lib remote c r' := by
    intro layer ref hhead href hc
    have hvouched := operate_vouched href (hguards layer hhead)
    rw [hend] at hvouched
    exact hvouched c hc
  cases op with
  | importImage host imp =>
      obtain ⟨res, r₁, hprepare, h₁⟩ := bind_ok hrun
      cases res with
      | alreadyPresent state =>
          cases h₁
          obtain ⟨hfound, -⟩ := prepare_eq_present.mp hprepare
          obtain rfl : r' = operate lib ops {} := (prepare_eq_present.mp hprepare).2
          obtain ⟨_, _, -, -, hquery⟩ := tryQueryImage_eq_some.mp hfound.stored
          obtain ⟨layer, ref, hhead, href, hc⟩ := base_of_query hquery
          exact hstored hhead href hc
      | ready prep =>
          obtain ⟨state, r₂, himport, h₂⟩ := bind_ok h₁
          cases h₂
          obtain ⟨_, hquery⟩ := importImage_queried himport
          obtain ⟨layer, ref, hhead, href, hc⟩ := base_of_query hquery
          exact hstored hhead href hc
  | unencapsulate host imp =>
      obtain ⟨i, r₁, hun, h₁⟩ := bind_ok hrun
      obtain ⟨served, r₂, hserve, h₂⟩ := bind_ok h₁
      obtain ⟨hserved, rfl⟩ := liftR_eq_ok hserve
      cases h₂
      obtain ⟨prep, prep', s, hprepare, hbase, hcommit⟩ := unencapsulate_ok hun
      rcases unencapsulateBase_vouched hremote hbase with ⟨hsame, -⟩ | ⟨c', hc', hvouched⟩
      · -- the commit of the first layer was there
        have hupdates := prepare_eq_ready hprepare
        obtain ⟨commitLayer, _, _, hlaid⟩ := hupdates.created.laidOut
        obtain ⟨_, _, _, hlayout, -⟩ := layout_of_parse hlaid.layout
        obtain ⟨-, href, hquery⟩ := queryLayer_eq_ok hlaid.commitLayer
        have hhead : served.2.layers.head? = some commitLayer := by
          rw [Except.ok.inj (hserved.symm.trans hupdates.served)]
          exact hlayout.head
        have hrefs := (prepare_same host imp (operate lib ops {})).refs
        rw [hprepare, finalState_ok] at hrefs
        rw [hsame, hquery, hrefs] at hcommit
        have hvouched := operate_vouched href (hguards commitLayer hhead).init _ hcommit
        have htrusts : Trusts lib remote prep.ostreeCommitLayer.ostreeRef (operate lib ops {})
            (finalState ((Operation.unencapsulate host imp).run lib (operate lib ops {}))) :=
          Operation.trusts href (trivial : (Operation.unencapsulate host imp).Guards remote
            commitLayer.digest (operate lib ops {}))
        rw [hrun] at htrusts
        exact hvouched.mono htrusts.history
      · obtain rfl : c' = i.ostreeCommit := Option.some.inj (hc'.symm.trans hcommit)
        exact hvouched

-- ── A cache without signatures ────────────────────────────────────────────────

/-- No signature is accepted. -/
def AcceptsNone (r r' : Repo) : Prop :=
  ∀ remote commit commitmeta, .accepted remote commit commitmeta ∈ r'.trace →
    .accepted remote commit commitmeta ∈ r.trace

section AcceptsNone

variable {lib : Libostree} {host : Host} {imp : ImageImporter} {prep : PreparedImport}

theorem AcceptsNone.refl (r : Repo) : AcceptsNone r r := fun _ _ _ h => h

theorem AcceptsNone.trans (a b c : Repo) (h : AcceptsNone a b) (h' : AcceptsNone b c) :
    AcceptsNone a c := fun _ _ _ hin => h _ _ _ (h' _ _ _ hin)

theorem AcceptsNone.of_append {r r' : Repo} {events : List RepoEvent}
    (htrace : r'.trace = r.trace ++ events)
    (h : ∀ remote commit commitmeta, .accepted remote commit commitmeta ∉ events) :
    AcceptsNone r r' := by
  intro remote commit commitmeta hin
  rw [htrace] at hin
  exact (List.mem_append.mp hin).resolve_right (h _ _ _)

theorem AcceptsNone.of_harmless {r r' : Repo} (h : Harmless r r') : AcceptsNone r r' := by
  obtain ⟨events, htrace, hother⟩ := h.trace
  refine .of_append htrace (fun _ _ _ hin => ?_)
  exact absurd (hother _ hin) (by simp [writesOther])

theorem AcceptsNone.refl_step (i : Importer) : OnRepo AcceptsNone i i := AcceptsNone.refl _

theorem AcceptsNone.trans_step (i j k : Importer) (h : OnRepo AcceptsNone i j)
    (h' : OnRepo AcceptsNone j k) : OnRepo AcceptsNone i k := AcceptsNone.trans _ _ _ h h'

theorem acceptsNone_harmless {α : Type} {x : ImportM α} (h : Steps HarmlessStep x) :
    Steps (OnRepo AcceptsNone) x := fun i => AcceptsNone.of_harmless (h i)

/-- Without a remote, the commit and the object after it are written as they are. -/
theorem importUnverified_accepts (c : Checksum) (commit : Commit) (e : Entry) (p : Path) :
    Steps (OnRepo AcceptsNone) (importUnverified lib c commit e p) := by
  have hmark : Steps AcceptsNone (Repo.markCommitPartial c true) :=
    fun r => .of_append rfl (by simp)
  have hcommit : Steps AcceptsNone (Repo.writeCommit lib (some c) commit) := by
    intro r
    by_cases hsum : lib.commitChecksum commit = c
    · rw [Repo.writeCommit_run hsum]
      exact .of_append rfl (by simp)
    · rw [Repo.writeCommit, Repo.checkExpected, if_neg (fun heq => hsum heq.symm)]
      exact AcceptsNone.refl r
  have hmeta : ∀ d, Steps AcceptsNone (Repo.writeCommitDetachedMetadata c d) :=
    fun d r => .of_append rfl (by simp)
  refine Steps.bind AcceptsNone.trans_step ?_ (fun _ => ?_)
  · refine Steps.bind AcceptsNone.trans_step (steps_onRepo hmark) (fun _ => ?_)
    refine Steps.bind AcceptsNone.trans_step (steps_onRepo hcommit) (fun _ => ?_)
    exact acceptsNone_harmless (assertEq_harmless _ _)
  · rw [importNextObject_eq]
    refine Steps.bind AcceptsNone.trans_step (acceptsNone_harmless (liftR_harmless _)) (fun x => ?_)
    split
    · exact Steps.bind AcceptsNone.trans_step (acceptsNone_harmless (liftR_harmless _))
        (fun d => steps_onRepo (hmeta d))
    · exact acceptsNone_harmless (importObject_harmless p)

theorem importTarBody_accepts (s : Stream) : Steps AcceptsNone (importTarBody lib s none) := by
  intro r
  rw [importTarBody, finalState_withImporter]
  have himport : OnRepo AcceptsNone (.newForCommit none r)
      (finalState (importCommit lib s (.newForCommit none r))) := by
    rcases @importCommit_head_cases lib s with ⟨stop, hstop⟩ | ⟨commitEnt, commitPath, nextEnt,
      nextPath, rest, next, c, commit, -, -, -, -, hrun⟩
    · rw [hstop]
      exact AcceptsNone.refl r
    · rw [hrun, bind_congr_start (importHead_none c commit nextEnt nextPath next r)]
      refine Steps.bind AcceptsNone.trans_step (importUnverified_accepts c commit nextEnt nextPath)
        (fun _ => ?_) _
      exact acceptsNone_harmless (Steps.bind HarmlessStep.trans (setData_harmless c)
        (fun _ => importObjectsImpl_harmless rest))
  cases hrun : importCommit lib s (.newForCommit none r) with
  | error stop i =>
      rw [hrun] at himport
      rw [bind_of_error hrun]
      exact himport
  | ok u i =>
      rw [hrun] at himport
      rw [bind_of_ok hrun]
      exact himport.trans _ _ _ (AcceptsNone.of_harmless (finishImportCommit_harmless i))

/-- A transaction that fails leaves the history. -/
theorem trace_autoTransaction {α : Type} (body : RepoM α) (r : Repo) :
    (finalState (Repo.autoTransaction body r)).trace = (finalState (body r)).trace := by
  rw [Repo.autoTransaction]
  cases body r <;> rfl

theorem importCommitLayer_accepts {writeRefs : Bool} {ref : String} (blob : Stream) :
    Steps AcceptsNone (importCommitLayer lib none writeRefs ref blob) := by
  have hbody : Steps AcceptsNone (commitLayerBody lib none writeRefs ref blob) := by
    refine Steps.bind AcceptsNone.trans (importTarBody_accepts blob) (fun commit => ?_)
    have hunmark : Steps AcceptsNone (do
        Repo.markCommitPartial commit false
        pure commit : RepoM Checksum) := fun r => .of_append rfl (by simp)
    dsimp only
    split
    · exact Steps.bind AcceptsNone.trans (fun r => AcceptsNone.refl r) (fun _ => hunmark)
    · exact hunmark
  intro r
  have hbody := hbody r
  rw [AcceptsNone] at hbody ⊢
  rw [importCommitLayer_eq, trace_autoTransaction]
  exact hbody

/-- **Without a remote**, an image of a single layer is imported and nothing is verified. -/
theorem importMerged_accepts (hchunks : prep.ostreeLayers = []) (hlayers : prep.layers = [])
    (hremote : remoteOf imp.imgref.sigverify = none) {c : Checksum} {r r' : Repo}
    (h : imp.importMerged host lib prep r = .ok c r') : AcceptsNone r r' := by
  have hcommit : ∀ desLayers, Steps AcceptsNone (imp.fetchCommitLayer host lib prep.manifest
      desLayers none true prep.ostreeCommitLayer) := by
    intro desLayers
    rw [ImageImporter.fetchCommitLayer]
    split
    · exact Steps.pure AcceptsNone.refl _
    refine Steps.bind AcceptsNone.trans (steps_liftR AcceptsNone.refl _) (fun _ => ?_)
    refine Steps.bind AcceptsNone.trans (steps_liftR AcceptsNone.refl _) (fun b => ?_)
    refine Steps.bind AcceptsNone.trans ?_ (fun commit => ?_)
    · refine Steps.bind AcceptsNone.trans ?_ (fun commit => ?_)
      · exact Steps.bind AcceptsNone.trans (steps_liftR AcceptsNone.refl _)
          (fun _ => importCommitLayer_accepts _)
      · exact Steps.bind AcceptsNone.trans (steps_liftR AcceptsNone.refl _)
          (fun _ => Steps.pure AcceptsNone.refl _)
    · exact Steps.bind AcceptsNone.trans (steps_liftR AcceptsNone.refl _)
        (fun _ => Steps.pure AcceptsNone.refl _)
  have hfetch : Steps AcceptsNone (imp.fetchLayers host lib prep) := by
    refine steps_fetchLayers AcceptsNone.refl AcceptsNone.trans ?_ ?_
    · refine steps_unencapsulateBase AcceptsNone.refl AcceptsNone.trans ?_ ?_
      · rw [hchunks]
        exact fun _ _ hlayer => absurd hlayer List.not_mem_nil
      · rw [hremote]
        exact hcommit
    · rw [hlayers]
      exact fun _ _ _ _ _ hlayer => absurd hlayer List.not_mem_nil
  obtain ⟨m, s, hrun, hmerge⟩ := bind_ok h
  have hfetch := hfetch r
  rw [hrun] at hfetch
  rcases @mergeLayers_cases host lib imp m s with
    ⟨c', r'', root, objects, hdone, hmerges⟩ | ⟨e, r'', hfailed, -⟩
  · cases hmerge.symm.trans hdone
    have htrace : r'.trace = s.trace ++ [.wrote .commit c] := by
      rw [hmerges.repo, hmerges.result]
      rfl
    exact hfetch.trans _ _ _ (.of_append htrace (by simp))
  · cases hmerge.symm.trans hfailed

end AcceptsNone

/-- A reference to the same image that asks for its commit to be verified. -/
def verifyingImporter (remote : String) : ImageImporter :=
  { sampleImporter false with
    imgref := { sigverify := .ostreeRemote remote, imgref := sampleImage } }

/-- **A commit that was never verified is reported**, to an importer with a remote, after it was
    imported without one. -/
theorem unverified_reported : ¬ ∀ (lib : Libostree) (ops : List Operation) (op : Operation)
    (remote : String) (c : Checksum) (manifest : ImageManifest) (r' : Repo),
    op.sigverify = .ostreeRemote remote →
    op.run lib (operate lib ops {}) = .ok (c, manifest) r' → Vouched lib remote c r' := by
  intro h
  obtain ⟨r₁, hprepare, hmerged, himport, hstored, hmetas⟩ := sample_imported
  have hops : operate sampleTables.lib [.importImage sampleHost (sampleImporter false)] {} = r₁ := by
    rw [operate_single, Operation.run_ready hprepare himport, finalState_ok]
  have hnone : cachedUpdateOf r₁ emptySha256 = .ok none := by
    have hcm : r₁.commitmetas[emptySha256]? = none := by
      rw [hmetas]
      exact ExtTreeMap.lookup_empty _
    rw [cachedUpdateOf, hcm]
  have hfound : (verifyingImporter "os").Finds sampleHost r₁ (sampleState none) :=
    ⟨rfl, (hstored.finds hnone false).stored, (hstored.finds hnone false).served⟩
  have hrun : (Operation.importImage sampleHost (verifyingImporter "os")).run sampleTables.lib
      (operate sampleTables.lib [.importImage sampleHost (sampleImporter false)] {})
      = .ok (sampleCommitSum, sampleManifest) r₁ := by
    rw [hops]
    exact Operation.run_present (prepare_of_finds hfound)
  obtain ⟨commit, commitmeta, hin, -⟩ := h _ _ _ "os" _ _ _ rfl hrun
  exact absurd (importMerged_accepts rfl rfl rfl hmerged _ _ _ hin) List.not_mem_nil

/-- A machine on which the layer is the signed commit. -/
def signedHost : Host := { sampleHost with objects := fun _ _ => signedStream sampleCommitSum }

theorem signedLayer_imported : ∃ r₁, importCommitLayer signedTables.lib (some "fedora") false
    sampleLayerRef (signedStream sampleCommitSum) {} = .ok sampleCommitSum r₁ := by
  obtain ⟨w', hunverified, hdata'⟩ := signedStream_imported isSha256_sampleCommitSum
  obtain ⟨u, w, himport⟩ := signedStream_agree.succeeds.mpr ⟨_, _, hunverified⟩
  have hdata : w.data = .commit (some sampleCommitSum) := by
    rw [← (signedStream_agree.same _ _ _ _ himport hunverified).1]
    exact hdata'
  have hfinish : finishImportCommit w = .ok sampleCommitSum w :=
    finishImportCommit_ok_iff.mpr ⟨hdata, rfl⟩
  have hbody : importTarBody signedTables.lib (signedStream sampleCommitSum) (some "fedora") {}
      = .ok sampleCommitSum w.repo := by
    refine withImporter_ok ?_
    rw [bind_of_ok himport]
    exact hfinish
  refine ⟨finalState (Repo.markCommitPartial sampleCommitSum false w.repo), ?_⟩
  rw [importCommitLayer_eq]
  refine autoTransaction_ok ?_
  rw [commitLayerBody, bind_of_ok hbody]
  rfl

/-- **A commit that was verified** is reported, and was. -/
theorem verified_reported : ∃ r',
    (Operation.unencapsulate signedHost (verifyingImporter "fedora")).run signedTables.lib {}
      = .ok (sampleCommitSum, sampleManifest) r' ∧
    Vouched signedTables.lib "fedora" sampleCommitSum r' := by
  have hempty : ∀ ref : String, ({} : Repo).refs[ref]? = none := fun _ => ExtTreeMap.lookup_empty _
  have hprepare : (verifyingImporter "fedora").prepareInternal signedHost false {}
      = .ok (.ready samplePrep) {} :=
    prepare_sampleProxy rfl rfl rfl rfl (hempty sampleImageRef) (hempty sampleLayerRef)
  obtain ⟨r₁, himport⟩ := signedLayer_imported
  have hlayer : (verifyingImporter "fedora").fetchCommitLayer signedHost signedTables.lib
      sampleManifest none (some "fedora") false samplePrep.ostreeCommitLayer {}
      = .ok { samplePrep.ostreeCommitLayer with commit := some sampleCommitSum } r₁ :=
    fetchCommitLayer_run rfl rfl (fetchLayer_sample false) rfl himport
  have hbase : (verifyingImporter "fedora").unencapsulateBase signedHost signedTables.lib samplePrep
      false {} = .ok { samplePrep with ostreeCommitLayer :=
        { samplePrep.ostreeCommitLayer with commit := some sampleCommitSum } } r₁ := by
    have hallowed : (verifyingImporter "fedora").checkSigverify signedHost false = .ok () := rfl
    have hinfo : (verifyingImporter "fedora").proxy.getLayerInfo false = .ok none := rfl
    have hchunks : samplePrep.ostreeLayers.mapM ((verifyingImporter "fedora").fetchChunkLayer
        signedHost signedTables.lib samplePrep.manifest none false) {} = .ok [] {} := rfl
    rw [ImageImporter.unencapsulateBase, hallowed, bind_of_ok (liftR_ok _ _), hinfo,
      bind_of_ok (liftR_ok _ _), bind_of_ok hchunks]
    exact bind_of_ok hlayer
  have hrun : (Operation.unencapsulate signedHost (verifyingImporter "fedora")).run
      signedTables.lib {} = .ok (sampleCommitSum, sampleManifest) r₁ := by
    have hdone : (verifyingImporter "fedora").unencapsulate signedHost signedTables.lib {}
        = .ok { ostreeCommit := sampleCommitSum, imageDigest := sampleManifestDigest,
                deprecatedWarning := none } r₁ := by
      rw [ImageImporter.unencapsulate, bind_of_ok hprepare]
      dsimp only
      rw [if_neg (by simp [samplePrep]), bind_of_ok hbase]
      rfl
    rw [Operation.run, bind_of_ok hdone]
    rfl
  refine ⟨r₁, hrun, ?_⟩
  refine @reported_vouched _ [] _ _ _ _ _ rfl hrun (fun layer _ => ?_)
  intro before op after heq
  cases before with
  | nil =>
      obtain ⟨rfl, -⟩ := List.cons.inj heq
      trivial
  | cons op' before => exact absurd (congrArg List.length heq) (by simp)

end OstreeExt.Store
