import OstreeExt.Tar.Complete

/-!
# Verified imports

`import_commit` with a remote: the commit and its detached metadata are read, their signature
is checked, and only then is anything written.  Later entries of the stream can bring
dirtrees, dirmetas and files, but no second commit and no other detached metadata, whatever
they are (`importCommit_verified`).
-/

namespace OstreeExt.Tar

open OstreeExt Exec

/-- A write of a commit object. -/
def writesCommit : RepoEvent → Bool
  | .wrote .commit _ => true
  | _ => false

/-- A write of detached metadata. -/
def writesCommitMeta : RepoEvent → Bool
  | .wrote .commitMeta _ => true
  | _ => false

/-- A write of an object that is neither. -/
def writesOther : RepoEvent → Bool
  | .wrote ty _ => ty ≠ .commit ∧ ty ≠ .commitMeta
  | _ => false

/-- The signed pair at the head of a stream: a commit and the commitmeta object that names
    the same checksum, accepted together for the remote. -/
structure SignedHead (lib : Libostree) (remote : String) (s : Stream) (checksum : Checksum)
    (commit : Commit) (commitmeta : Dict) : Prop where
  entries : ∃ commitEnt commitPath nextEnt nextPath rest,
    filterEntries s = .ok (commitEnt, commitPath) :: .ok (nextEnt, nextPath) :: rest ∧
    parseMetadataEntry commitPath = .ok (checksum, .commit) ∧
    entryToVariant lib.commit commitEnt checksum = .ok commit ∧
    parseMetadataEntry nextPath = .ok (checksum, .commitMeta) ∧
    entryToVariant lib.dict nextEnt checksum = .ok commitmeta
  verified : lib.signatureVerify remote (lib.commit.toBytes commit) (lib.dict.toBytes commitmeta) = true

/-- **What a verified import has done to a repository**, at the end or where it failed. -/
structure VerifiedWrites (lib : Libostree) (r r' : Repo) (checksum : Checksum) (commit : Commit)
    (commitmeta : Dict) (later : List RepoEvent) : Prop where
  kinds : ∀ e ∈ later, e = .markedPartial checksum true ∨ e = .wrote .commit checksum ∨
    e = .wrote .commitMeta checksum ∨ writesOther e = true
  oneCommit : later.filter writesCommit <+: [.wrote .commit checksum]
  oneCommitMeta : later.filter writesCommitMeta <+: [.wrote .commitMeta checksum]
  named : later.any writesCommit = true → lib.commitChecksum commit = checksum
  commits : r'.commits = if later.any writesCommit
    then r.commits.insertIfNew checksum commit else r.commits
  commitmetas : r'.commitmetas = if later.any writesCommitMeta
    then r.commitmetas.insert checksum commitmeta else r.commitmetas

-- ── Later entries ─────────────────────────────────────────────────────────────

/-- What later entries of a stream do: commits and their metadata stay as they are, and so do
    refs and partial marks; no object goes away. -/
structure Harmless (r r' : Repo) : Prop where
  commits : r'.commits = r.commits
  commitmetas : r'.commitmetas = r.commitmetas
  partialCommits : r'.partialCommits = r.partialCommits
  refs : r'.refs = r.refs
  keeps : r.toObjects.Keeps r'.toObjects
  trace : ∃ events, r'.trace = r.trace ++ events ∧ ∀ e ∈ events, writesOther e = true

theorem Harmless.refl (r : Repo) : Harmless r r :=
  ⟨rfl, rfl, rfl, rfl, Objects.Keeps.refl _, [], (List.append_nil _).symm, by simp⟩

theorem Harmless.trans {a b c : Repo} (h : Harmless a b) (h' : Harmless b c) : Harmless a c := by
  obtain ⟨events, htrace, hevents⟩ := h.trace
  obtain ⟨events', htrace', hevents'⟩ := h'.trace
  refine ⟨h'.commits.trans h.commits, h'.commitmetas.trans h.commitmetas,
    h'.partialCommits.trans h.partialCommits, h'.refs.trans h.refs, h.keeps.trans h'.keeps,
    events ++ events', ?_, ?_⟩
  · rw [htrace', htrace, List.append_assoc]
  · intro e he
    rcases List.mem_append.mp he with he | he
    · exact hevents e he
    · exact hevents' e he

/-- The same for the importer. -/
def HarmlessStep (imp imp' : Importer) : Prop := Harmless imp.repo imp'.repo

theorem HarmlessStep.refl (imp : Importer) : HarmlessStep imp imp := Harmless.refl _

theorem HarmlessStep.trans (a b c : Importer) (h : HarmlessStep a b) (h' : HarmlessStep b c) :
    HarmlessStep a c := Harmless.trans h h'

/-- Programs that leave the repository alone. -/
theorem harmless_of_keepsRepo {α : Type} {x : ImportM α} (h : Steps KeepsRepo x) :
    Steps HarmlessStep x := by
  intro imp
  rw [HarmlessStep, (h imp).1]
  exact Harmless.refl _

theorem liftR_harmless {α : Type} (x : Result α) : Steps HarmlessStep (liftR x : ImportM α) :=
  harmless_of_keepsRepo (liftR_keepsRepo x)

theorem onRepo_harmless {α : Type} {x : RepoM α} (h : Steps Harmless x) :
    Steps HarmlessStep (onRepo x) := by
  intro imp
  have hx := h imp.repo
  rw [onRepo]
  cases hrun : x imp.repo with
  | ok a r => rw [hrun] at hx; exact hx
  | error e r => rw [hrun] at hx; exact hx

/-- A write that checks its checksum first. -/
theorem checkedWrite_harmless {α : Type} (expected : Option Checksum) (actual : Checksum) (a : α)
    {f : Repo → Repo} (hf : ∀ r, Harmless r (f r)) :
    Steps Harmless (do
      Repo.checkExpected expected actual
      modify f
      pure a : RepoM α) := by
  refine Steps.bind (fun _ _ _ h h' => h.trans h') ?_ (fun _ => ?_)
  · cases expected with
    | none => exact Steps.pure Harmless.refl _
    | some expected =>
        rw [Repo.checkExpected]
        split
        · exact Steps.pure Harmless.refl _
        · exact Steps.throw Harmless.refl _
  · exact Steps.bind (fun _ _ _ h h' => h.trans h') hf (fun _ => Steps.pure Harmless.refl _)

section Later

variable {lib : Libostree} {e : Entry} {c : Checksum}

theorem writeDirtree_harmless (expected : Option Checksum) (d : DirTree) :
    Steps Harmless (Repo.writeDirtree lib expected d) :=
  checkedWrite_harmless expected _ _ (fun _ =>
    ⟨rfl, rfl, rfl, rfl, Objects.Keeps.insert_dirtree _ _ _, [_], rfl, by simp [writesOther]⟩)

theorem writeDirmeta_harmless (expected : Option Checksum) (m : DirMeta) :
    Steps Harmless (Repo.writeDirmeta lib expected m) :=
  checkedWrite_harmless expected _ _ (fun _ =>
    ⟨rfl, rfl, rfl, rfl, Objects.Keeps.insert_dirmeta _ _ _, [_], rfl, by simp [writesOther]⟩)

theorem writeFile_harmless (expected : Option Checksum) (o : FileObject) :
    Steps Harmless (Repo.writeFile lib expected o) :=
  checkedWrite_harmless expected _ _ (fun _ =>
    ⟨rfl, rfl, rfl, rfl, Objects.Keeps.insert_file _ _ _, [_], rfl, by simp [writesOther]⟩)

theorem assertEq_harmless (a b : Checksum) : Steps HarmlessStep (assertEq a b) := by
  rw [assertEq]
  split
  · exact Steps.pure HarmlessStep.refl _
  · exact Steps.throw HarmlessStep.refl _

theorem importMetadata_harmless (ty : ObjectType) :
    Steps HarmlessStep (importMetadata lib e c ty) := by
  cases ty with
  | dirTree =>
      refine Steps.bind HarmlessStep.trans (liftR_harmless _) (fun v => ?_)
      exact Steps.bind HarmlessStep.trans (onRepo_harmless (writeDirtree_harmless _ _))
        (fun _ => assertEq_harmless _ _)
  | dirMeta =>
      refine Steps.bind HarmlessStep.trans (liftR_harmless _) (fun v => ?_)
      exact Steps.bind HarmlessStep.trans (onRepo_harmless (writeDirmeta_harmless _ _))
        (fun _ => assertEq_harmless _ _)
  | commit => exact Steps.throw HarmlessStep.refl _
  | commitMeta => exact Steps.throw HarmlessStep.refl _
  | file => exact Steps.throw HarmlessStep.refl _

theorem writeFileStep_harmless (o : FileObject) : Steps HarmlessStep
    (do let _ ← onRepo (Repo.writeFile lib (some c) o) : ImportM Unit) :=
  Steps.bind HarmlessStep.trans (onRepo_harmless (writeFile_harmless _ _))
    (fun _ => Steps.pure HarmlessStep.refl _)

theorem importSmallRegfileObject_harmless (size : Nat) (xattrs : Bytes) :
    Steps HarmlessStep (importSmallRegfileObject lib e size c xattrs) := by
  rw [importSmallRegfileObject]
  refine Steps.bind HarmlessStep.trans (liftR_harmless _) (fun attrs => ?_)
  dsimp only
  split
  · exact Steps.throw HarmlessStep.refl _
  · exact Steps.bind HarmlessStep.trans (liftR_harmless _) (fun _ => writeFileStep_harmless _)

theorem importContentObject_harmless : Steps HarmlessStep (importContentObject lib e c) := by
  intro imp
  -- the pending reference is dropped first
  show HarmlessStep imp (finalState ((_ : ImportM Unit) { imp with nextXattrs := none }))
  refine (?_ : Steps HarmlessStep _) { imp with nextXattrs := none }
  cases imp.nextXattrs with
  | none => exact Steps.throw HarmlessStep.refl _
  | some p =>
      dsimp only
      split
      · exact Steps.throw HarmlessStep.refl _
      split
      · exact Steps.pure HarmlessStep.refl _
      split
      · exact Steps.throw HarmlessStep.refl _
      split
      · split
        · exact Steps.bind HarmlessStep.trans (liftR_harmless _) (fun _ => writeFileStep_harmless _)
        · exact importSmallRegfileObject_harmless _ _
      · refine Steps.bind HarmlessStep.trans (liftR_harmless _) (fun _ => ?_)
        exact Steps.bind HarmlessStep.trans (liftR_harmless _) (fun _ => writeFileStep_harmless _)
      · exact Steps.throw HarmlessStep.refl _

theorem trackImported_harmless : Steps HarmlessStep (trackImported c) := by
  refine Steps.bind HarmlessStep.trans (fun imp => HarmlessStep.refl imp) (fun imp => ?_)
  split
  · refine Steps.bind HarmlessStep.trans (fun imp => Harmless.refl imp.repo) (fun _ => ?_)
    split
    · exact Steps.throw HarmlessStep.refl _
    · exact Steps.pure HarmlessStep.refl _
  · exact Steps.pure HarmlessStep.refl _

/-- Whatever its suffix, an object entry writes no commit and no detached metadata. -/
theorem importObjectAs_harmless (suffix : String) :
    Steps HarmlessStep (importObjectAs lib e c suffix) := by
  rw [importObjectAs]
  split
  · exact Steps.throw HarmlessStep.refl _
  split
  · exact Steps.bind HarmlessStep.trans importContentObject_harmless
      (fun _ => trackImported_harmless)
  split
  · exact harmless_of_keepsRepo processFileXattrs_keepsRepo
  split
  · exact harmless_of_keepsRepo processFileXattrsLink_keepsRepo
  split
  · exact harmless_of_keepsRepo processXattrRef_keepsRepo
  refine Steps.bind HarmlessStep.trans (liftR_harmless _) (fun ty => ?_)
  refine Steps.bind HarmlessStep.trans (fun imp => HarmlessStep.refl imp) (fun imp => ?_)
  split
  · exact Steps.throw HarmlessStep.refl _
  · exact importMetadata_harmless ty

theorem importObject_harmless (path : Path) : Steps HarmlessStep (importObject lib e path) := by
  refine Steps.bind HarmlessStep.trans (liftR_harmless _) (fun parts => ?_)
  exact Steps.bind HarmlessStep.trans (liftR_harmless _) (fun _ => importObjectAs_harmless _)

/-- One round of the import loop. -/
theorem importEntry_harmless (item : Except String (Entry × Path)) :
    Steps HarmlessStep (importEntry lib item) := by
  rcases item with m | ⟨e, path⟩
  · exact Steps.throw HarmlessStep.refl _
  rw [importEntry]
  split
  · exact importObject_harmless _
  split
  · exact harmless_of_keepsRepo processSplitXattrsContent_keepsRepo
  · exact Steps.pure HarmlessStep.refl _

/-- **The import loop writes no commit and no detached metadata**, whatever the entries. -/
theorem importObjectsImpl_harmless (ents : List (Except String (Entry × Path))) :
    Steps HarmlessStep (importObjectsImpl lib ents) :=
  Steps.loop HarmlessStep.refl HarmlessStep.trans (fun item _ => importEntry_harmless item)

end Later

-- ── The head of the stream ────────────────────────────────────────────────────

section Head

variable {lib : Libostree}

/-- A parsing step either stops the run where it is or hands its value on. -/
theorem liftR_bind_run {α β : Type} (x : Result α) (f : α → ImportM β) (imp : Importer) :
    (∃ stop, (liftR x >>= f) imp = .error stop imp) ∨
      ∃ a, x = .ok a ∧ (liftR x >>= f) imp = f a imp := by
  cases x with
  | ok a => exact .inr ⟨a, rfl, rfl⟩
  | error stop => exact .inl ⟨stop, rfl⟩

/-- The writes of a verified import, after the signature was accepted. -/
def importAccepted (lib : Libostree) (checksum : Checksum) (commit : Commit) (commitmeta : Dict)
    (rest : List (Except String (Entry × Path))) : ImportM Unit := do
  writePartialCommit lib checksum commit
  onRepo (Repo.writeCommitDetachedMetadata checksum commitmeta)
  modify fun imp => { imp with data := .commit (some checksum) }
  importObjectsImpl lib rest

/-- A verified head stops before any change, or the signature has been accepted. -/
theorem importVerified_cases (remote : String) (checksum : Checksum) (commit : Commit)
    (nextEnt : Entry) (next : Checksum) (ty : ObjectType) (imp : Importer) :
    (∃ stop, importVerified lib remote checksum commit nextEnt next ty imp = .error stop imp) ∨
      ∃ commitmeta, ty = .commitMeta ∧ next = checksum ∧
        entryToVariant lib.dict nextEnt checksum = .ok commitmeta ∧
        lib.signatureVerify remote (lib.commit.toBytes commit) (lib.dict.toBytes commitmeta)
          = true ∧
        importVerified lib remote checksum commit nextEnt next ty imp = (do
          writePartialCommit lib checksum commit
          onRepo (Repo.writeCommitDetachedMetadata checksum commitmeta) : ImportM Unit)
          { imp with repo := Repo.record (.accepted remote (lib.commit.toBytes commit)
            (lib.dict.toBytes commitmeta)) imp.repo } := by
  rw [importVerified]
  split
  · exact .inl ⟨_, rfl⟩
  next hty =>
  split
  · exact .inl ⟨_, rfl⟩
  next hnext =>
  rw [ne_eq, not_not] at hty hnext
  subst hty hnext
  rcases liftR_bind_run (entryToVariant lib.dict nextEnt next) _ imp with
    ⟨stop, hstop⟩ | ⟨commitmeta, hmeta, hrun⟩
  · exact .inl ⟨stop, hstop⟩
  rw [hrun]
  cases hsig : lib.signatureVerify remote (lib.commit.toBytes commit)
      (lib.dict.toBytes commitmeta) with
  | false =>
      refine .inl ⟨.err "Verifying ostree commit in tar stream", bind_of_error ?_⟩
      rw [onRepo, Repo.signatureVerifyCommitData, hsig]
      rfl
  | true =>
      refine .inr ⟨commitmeta, rfl, rfl, hmeta, hsig, ?_⟩
      rw [Repo.signatureVerifyCommitData, hsig, if_pos rfl]
      rfl

/-- A head that can be read is handed to the two branches. -/
theorem importCommit_eq_head {s : Stream} {commitEnt nextEnt : Entry} {commitPath nextPath : Path}
    {rest : List (Except String (Entry × Path))} {next : Checksum × ObjectType}
    (hents : filterEntries s = .ok (commitEnt, commitPath) :: .ok (nextEnt, nextPath) :: rest)
    (hnext : parseMetadataEntry nextPath = .ok next) {checksum : Checksum} {commit : Commit}
    (hparse : parseMetadataEntry commitPath = .ok (checksum, .commit))
    (hty : commitEnt.header.entryType = .regular)
    (hcommit : entryToVariant lib.commit commitEnt checksum = .ok commit)
    (remote : Option String) (repo : Repo) :
    importCommit lib s (.newForCommit remote repo) = (do
      importHead lib checksum commit nextEnt nextPath next
      modify fun imp => { imp with data := .commit (some checksum) }
      importObjectsImpl lib rest : ImportM Unit) (.newForCommit remote repo) := by
  have hfresh : assertFresh (.newForCommit remote repo) = .ok ⟨⟩ (.newForCommit remote repo) := rfl
  rw [importCommit, bind_of_ok hfresh, hents, nextEntry, bind_of_ok (liftR_ok _ _)]
  dsimp only
  rw [if_neg (by simp [hty]), hparse, bind_of_ok (liftR_ok _ _)]
  dsimp only
  rw [if_neg (by simp), hcommit, bind_of_ok (liftR_ok _ _), nextEntry, bind_of_ok (liftR_ok _ _)]
  dsimp only
  rw [hnext, bind_of_ok (liftR_ok _ _)]

/-- Up to the two branches, `import_commit` only reads, and does not look at the remote. -/
theorem importCommit_head_cases (s : Stream) :
    (∃ stop, ∀ remote repo, importCommit lib s (.newForCommit remote repo)
      = .error stop (.newForCommit remote repo)) ∨
    ∃ commitEnt commitPath nextEnt nextPath rest next checksum commit,
      filterEntries s = .ok (commitEnt, commitPath) :: .ok (nextEnt, nextPath) :: rest ∧
      parseMetadataEntry nextPath = .ok next ∧
      parseMetadataEntry commitPath = .ok (checksum, .commit) ∧
      entryToVariant lib.commit commitEnt checksum = .ok commit ∧
      ∀ remote repo, importCommit lib s (.newForCommit remote repo) = (do
          importHead lib checksum commit nextEnt nextPath next
          modify fun imp => { imp with data := .commit (some checksum) }
          importObjectsImpl lib rest : ImportM Unit) (.newForCommit remote repo) := by
  have hfresh : ∀ remote repo,
      assertFresh (.newForCommit remote repo) = .ok ⟨⟩ (.newForCommit remote repo) :=
    fun _ _ => rfl
  cases hents : nextEntry "Commit object not found" (filterEntries s) with
  | error stop =>
      refine .inl ⟨stop, fun remote repo => ?_⟩
      rw [importCommit, bind_of_ok (hfresh _ _), hents]
      rfl
  | ok head =>
  obtain ⟨⟨commitEnt, commitPath⟩, ents⟩ := head
  by_cases hty : commitEnt.header.entryType = .regular
  swap
  · refine .inl ⟨.err "Expected regular file for commit object", fun remote repo => ?_⟩
    rw [importCommit, bind_of_ok (hfresh _ _), hents, bind_of_ok (liftR_ok _ _)]
    dsimp only
    rw [if_pos hty]
    rfl
  cases hparse : parseMetadataEntry commitPath with
  | error stop =>
      refine .inl ⟨stop, fun remote repo => ?_⟩
      rw [importCommit, bind_of_ok (hfresh _ _), hents, bind_of_ok (liftR_ok _ _)]
      dsimp only
      rw [if_neg (by simp [hty]), hparse]
      rfl
  | ok p =>
  obtain ⟨checksum, objtype⟩ := p
  by_cases hobj : objtype = .commit
  swap
  · refine .inl ⟨.err ("Expected commit object, not " ++ objectSuffix objtype),
      fun remote repo => ?_⟩
    rw [importCommit, bind_of_ok (hfresh _ _), hents, bind_of_ok (liftR_ok _ _)]
    dsimp only
    rw [if_neg (by simp [hty]), hparse, bind_of_ok (liftR_ok _ _)]
    dsimp only
    rw [if_pos hobj]
    rfl
  subst hobj
  -- the commit entry has been found; what is left to read comes after it
  have hstart : ∀ remote repo, importCommit lib s (.newForCommit remote repo) = (do
      let commit ← liftR (entryToVariant lib.commit commitEnt checksum)
      let second ← liftR (nextEntry "End of stream after commit object" ents)
      let next ← liftR (parseMetadataEntry second.1.2)
      importHead lib checksum commit second.1.1 second.1.2 next
      modify fun imp => { imp with data := .commit (some checksum) }
      importObjectsImpl lib second.2 : ImportM Unit) (.newForCommit remote repo) := by
    intro remote repo
    rw [importCommit, bind_of_ok (hfresh _ _), hents, bind_of_ok (liftR_ok _ _)]
    dsimp only
    rw [if_neg (by simp [hty]), hparse, bind_of_ok (liftR_ok _ _)]
    dsimp only
    rw [if_neg (by simp)]
  cases hcommit : entryToVariant lib.commit commitEnt checksum with
  | error stop =>
      refine .inl ⟨stop, fun remote repo => ?_⟩
      rw [hstart, hcommit]
      rfl
  | ok commit =>
  cases hnext : nextEntry "End of stream after commit object" ents with
  | error stop =>
      refine .inl ⟨stop, fun remote repo => ?_⟩
      rw [hstart, hcommit, bind_of_ok (liftR_ok _ _), hnext]
      rfl
  | ok second =>
  obtain ⟨⟨nextEnt, nextPath⟩, rest⟩ := second
  have hfilter : filterEntries s = .ok (commitEnt, commitPath) :: .ok (nextEnt, nextPath) :: rest := by
    rw [nextEntry_ok hents, nextEntry_ok hnext]
  cases hparse' : parseMetadataEntry nextPath with
  | error stop =>
      refine .inl ⟨stop, fun remote repo => ?_⟩
      rw [hstart, hcommit, bind_of_ok (liftR_ok _ _), hnext, bind_of_ok (liftR_ok _ _)]
      dsimp only
      rw [hparse']
      rfl
  | ok next =>
      exact .inr ⟨commitEnt, commitPath, nextEnt, nextPath, rest, next, checksum, commit, hfilter,
        hparse', hparse, hcommit, importCommit_eq_head hfilter hparse' hparse hty hcommit⟩

/-- `import_commit` with a remote either stops before any change to the repository, or has
    a signed head, and goes on from the accepted signature. -/
theorem importCommit_cases {remote : String} (s : Stream) (repo : Repo) :
    (∃ stop, importCommit lib s (.newForCommit (some remote) repo)
      = .error stop (.newForCommit (some remote) repo)) ∨
    ∃ checksum commit commitmeta rest, SignedHead lib remote s checksum commit commitmeta ∧
      importCommit lib s (.newForCommit (some remote) repo)
        = importAccepted lib checksum commit commitmeta rest
          (.newForCommit (some remote) (Repo.record (.accepted remote (lib.commit.toBytes commit)
            (lib.dict.toBytes commitmeta)) repo)) := by
  rcases @importCommit_head_cases lib s with ⟨stop, hstop⟩ | ⟨commitEnt, commitPath, nextEnt,
    nextPath, rest, next, checksum, commit, hents, hnext, hparse, hcommit, hrun⟩
  · exact .inl ⟨stop, hstop _ _⟩
  have hhead : importHead lib checksum commit nextEnt nextPath next (.newForCommit (some remote) repo)
      = importVerified lib remote checksum commit nextEnt next.1 next.2
        (.newForCommit (some remote) repo) := rfl
  obtain ⟨next, ty⟩ := next
  rcases importVerified_cases remote checksum commit nextEnt next ty (.newForCommit (some remote) repo)
    with ⟨stop, hstop⟩ | ⟨commitmeta, rfl, rfl, hmeta, hsig, hwrites⟩
  · exact .inl ⟨stop, (hrun _ _).trans (bind_of_error (hhead.trans hstop))⟩
  · refine .inr ⟨next, commit, commitmeta, rest, ⟨⟨commitEnt, commitPath, nextEnt, nextPath, rest,
      hents, hparse, hcommit, hnext, hmeta⟩, hsig⟩, ?_⟩
    rw [hrun, bind_congr_start (hhead.trans hwrites), importAccepted, bind_assoc]
    rfl

-- ── What is written ───────────────────────────────────────────────────────────

/-- Events that write neither a commit nor its metadata. -/
theorem filter_writesOther {events : List RepoEvent} (h : ∀ e ∈ events, writesOther e = true) :
    events.filter writesCommit = [] ∧ events.filter writesCommitMeta = [] := by
  constructor
  · refine List.filter_eq_nil_iff.mpr fun e he hw => ?_
    have := h e he
    cases e with
    | wrote ty c => cases ty <;> simp_all [writesOther, writesCommit]
    | _ => simp_all [writesOther]
  · refine List.filter_eq_nil_iff.mpr fun e he hw => ?_
    have := h e he
    cases e with
    | wrote ty c => cases ty <;> simp_all [writesOther, writesCommitMeta]
    | _ => simp_all [writesOther]

/-- A commit whose checksum is not the one it was named by is not written. -/
theorem writePartialCommit_refused {checksum : Checksum} {commit : Commit}
    (h : lib.commitChecksum commit ≠ checksum) (imp : Importer) : ∃ stop,
    writePartialCommit lib checksum commit imp = .error stop { imp with
      repo := finalState (Repo.markCommitPartial checksum true imp.repo) } := by
  have hrefused : ∀ r, ∃ stop, Repo.writeCommit lib (some checksum) commit r = .error stop r := by
    intro r
    rw [Repo.writeCommit, Repo.checkExpected, if_neg (fun heq => h heq.symm)]
    exact ⟨_, rfl⟩
  obtain ⟨stop, hstop⟩ := hrefused (finalState (Repo.markCommitPartial checksum true imp.repo))
  refine ⟨stop, ?_⟩
  have hmark : onRepo (Repo.markCommitPartial checksum true) imp = .ok ⟨⟩ { imp with
      repo := finalState (Repo.markCommitPartial checksum true imp.repo) } := rfl
  rw [writePartialCommit, bind_of_ok hmark]
  refine bind_of_error ?_
  rw [onRepo]
  dsimp only
  rw [hstop]

/-- The writes of a verified import, in order. -/
theorem importAccepted_writes (checksum : Checksum) (commit : Commit) (commitmeta : Dict)
    (rest : List (Except String (Entry × Path))) (imp : Importer) :
    ∃ later, (finalState (importAccepted lib checksum commit commitmeta rest imp)).repo.trace
        = imp.repo.trace ++ later ∧
      VerifiedWrites lib imp.repo
        (finalState (importAccepted lib checksum commit commitmeta rest imp)).repo
        checksum commit commitmeta later ∧
      ∀ u imp', importAccepted lib checksum commit commitmeta rest imp = .ok u imp' →
        later.filter writesCommit = [.wrote .commit checksum] ∧
        later.filter writesCommitMeta = [.wrote .commitMeta checksum] ∧
        lib.commitChecksum commit = checksum ∧ imp'.data = .commit (some checksum) := by
  by_cases hsum : lib.commitChecksum commit = checksum
  · -- the head is written, and the rest of the stream is harmless
    have hrun : importAccepted lib checksum commit commitmeta rest imp
        = importObjectsImpl lib rest { imp with
            repo := headRepo checksum commit (some commitmeta) imp.repo
            data := .commit (some checksum) } := by
      rw [importAccepted, bind_of_ok (writePartialCommit_run hsum imp)]
      rfl
    rw [hrun]
    have hrest : HarmlessStep _ (finalState (importObjectsImpl lib rest { imp with
        repo := headRepo checksum commit (some commitmeta) imp.repo
        data := .commit (some checksum) })) := importObjectsImpl_harmless rest _
    obtain ⟨events, htrace, hevents⟩ := hrest.trace
    obtain ⟨hnone, hnone'⟩ := filter_writesOther hevents
    refine ⟨[.markedPartial checksum true, .wrote .commit checksum, .wrote .commitMeta checksum]
      ++ events, ?_, ⟨?_, ?_, ?_, fun _ => hsum, ?_, ?_⟩, ?_⟩
    · rw [htrace]
      simp [headRepo, Repo.record]
    · intro e he
      rcases List.mem_append.mp he with he | he
      · simp only [List.mem_cons, List.not_mem_nil, or_false] at he
        rcases he with he | he | he
        · exact .inl he
        · exact .inr (.inl he)
        · exact .inr (.inr (.inl he))
      · exact .inr (.inr (.inr (hevents e he)))
    · rw [List.filter_append, hnone]
      exact List.prefix_refl _
    · rw [List.filter_append, hnone']
      exact List.prefix_refl _
    · exact hrest.commits
    · exact hrest.commitmetas
    · intro u imp' hok
      refine ⟨?_, ?_, hsum, (importObjectsImpl_adds rfl hok).2⟩
      · rw [List.filter_append, hnone]
        rfl
      · rw [List.filter_append, hnone']
        rfl
  · obtain ⟨stop, hstop⟩ := writePartialCommit_refused hsum imp
    rw [importAccepted, bind_of_error hstop]
    refine ⟨[.markedPartial checksum true], rfl, ⟨?_, ?_, ?_, ?_, rfl, rfl⟩, ?_⟩
    · intro e he
      exact .inl (List.mem_singleton.mp he)
    · exact List.nil_prefix
    · exact List.nil_prefix
    · intro h
      exact absurd h (by simp [writesCommit])
    · intro u imp' h
      cases h

/-- **A verified import writes one commit, the verified one.**  Either `import_commit` with a
    remote fails and has changed nothing; or the first thing that happens to the repository
    is that the signature of the pair at the head of the stream is accepted.  What is written
    after that is that commit and that metadata, at most once each, and no other commit or
    metadata; exactly once, under the checksum the importer records, when it succeeds. -/
theorem importCommit_verified (lib : Libostree) (remote : String) (s : Stream) (repo : Repo) :
    (∃ stop, importCommit lib s (.newForCommit (some remote) repo)
      = .error stop (.newForCommit (some remote) repo)) ∨
    ∃ checksum commit commitmeta later, SignedHead lib remote s checksum commit commitmeta ∧
      (finalState (importCommit lib s (.newForCommit (some remote) repo))).repo.trace
        = repo.trace ++ .accepted remote (lib.commit.toBytes commit)
            (lib.dict.toBytes commitmeta) :: later ∧
      VerifiedWrites lib repo
        (finalState (importCommit lib s (.newForCommit (some remote) repo))).repo
        checksum commit commitmeta later ∧
      ∀ u imp', importCommit lib s (.newForCommit (some remote) repo) = .ok u imp' →
        later.filter writesCommit = [.wrote .commit checksum] ∧
        later.filter writesCommitMeta = [.wrote .commitMeta checksum] ∧
        lib.commitChecksum commit = checksum ∧ imp'.data = .commit (some checksum) := by
  rcases importCommit_cases s repo with hstop | ⟨checksum, commit, commitmeta, rest, hhead, hrun⟩
  · exact .inl hstop
  · rw [hrun]
    obtain ⟨later, htrace, hwrites, hok⟩ := importAccepted_writes checksum commit commitmeta rest
      (.newForCommit (some remote) (Repo.record (.accepted remote (lib.commit.toBytes commit)
        (lib.dict.toBytes commitmeta)) repo))
    refine .inr ⟨checksum, commit, commitmeta, later, hhead, ?_, ?_, hok⟩
    · rw [htrace]
      simp [Importer.newForCommit, Repo.record]
    · exact ⟨hwrites.kinds, hwrites.oneCommit, hwrites.oneCommitMeta, hwrites.named,
        hwrites.commits, hwrites.commitmetas⟩

end Head

end OstreeExt.Tar
