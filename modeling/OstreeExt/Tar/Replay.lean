import OstreeExt.Tar.Verified

/-!
# Two imports of one stream

Two runs of the importer over the same entries, side by side.  What an entry does depends on
the repository in one place only: a content object that is already stored is not read again.
A second run therefore succeeds wherever a first one did, as long as each write of the first
can be matched by the second (`MatchesWrites`).

The two branches of `import_commit`, with and without a remote, are one instance: they handle
the first two entries separately and then run the same loop (`importCommit_agree`).
-/

namespace OstreeExt.Tar

open OstreeExt Exec Std

-- ── Side by side ──────────────────────────────────────────────────────────────

/-- Two importers in the same state but for their repositories and remotes, whose
    repositories are related. -/
structure Alike (P : Repo → Repo → Prop) (imp imp' : Importer) : Prop where
  repo : P imp.repo imp'.repo
  xattrs : imp'.xattrs = imp.xattrs
  nextXattrs : imp'.nextXattrs = imp.nextXattrs
  data : imp'.data = imp.data

/-- The goal of a run, seen from the importer. -/
def Within (G : Repo → Prop) (imp : Importer) : Prop := G imp.repo

/-- The writes of an import can be repeated in related repositories.  `G` is what is known of
    the repository at the end of the first run. -/
structure MatchesWrites (lib : Libostree) (G : Repo → Prop) (P : Repo → Repo → Prop) : Prop where
  back : ∀ r r', Harmless r r' → G r' → G r
  dirtree : ∀ c d, Follows G P (Repo.writeDirtree lib (some c) d) (Repo.writeDirtree lib (some c) d)
  dirmeta : ∀ c m, Follows G P (Repo.writeDirmeta lib (some c) m) (Repo.writeDirmeta lib (some c) m)
  file : ∀ c o, Follows G P (Repo.writeFile lib (some c) o) (Repo.writeFile lib (some c) o)
  has : ∀ r r' (c : Checksum), P r r' → G r → c ∈ r.files → c ∈ r'.files
  /-- The second run skips an object that the first one writes. -/
  skip : ∀ r r' s (c : Checksum) o, P r r' → c ∈ r'.files → Repo.writeFile lib (some c) o r = .ok c s →
    G s → P s r'

section Runs

variable {lib : Libostree} {G : Repo → Prop} {P : Repo → Repo → Prop} {e : Entry} {c : Checksum}

/-- Harmless programs do not bring the goal about. -/
theorem MatchesWrites.steps_back (hw : MatchesWrites lib G P) {α : Type} {x : ImportM α}
    (hx : Steps HarmlessStep x) : Steps (fun imp imp' => Within G imp' → Within G imp) x := by
  intro imp
  exact hw.back _ _ (hx imp)

theorem follows_liftR {α : Type} (x : Result α) :
    Follows (Within G) (Alike P) (liftR x : ImportM α) (liftR x) := by
  cases x with
  | ok a => exact Follows.pure a
  | error stop => exact Follows.throw stop _

/-- A repository operation that can be matched. -/
theorem follows_onRepo {α : Type} {x y : RepoM α} (h : Follows G P x y) :
    Follows (Within G) (Alike P) (onRepo x) (onRepo y) := by
  intro imp imp' a out hst hrun hg
  obtain ⟨r, hx, rfl⟩ := onRepo_ok hrun
  obtain ⟨r', hy, hp⟩ := h _ _ a r hst.repo hx hg
  refine ⟨{ imp' with repo := r' }, ?_, hp, hst.xattrs, hst.nextXattrs, hst.data⟩
  rw [onRepo, hy]

theorem follows_assertEq (a b : Checksum) :
    Follows (Within G) (Alike P) (assertEq a b) (assertEq a b) := by
  rw [assertEq]
  split
  · exact Follows.pure _
  · exact Follows.throw _ _

/-- A program that first looks at the importer, in a way that does not depend on its
    repository. -/
theorem follows_get {α : Type} {f g : Importer → ImportM α}
    (h : ∀ imp imp', Alike P imp imp' → Follows (Within G) (Alike P) (f imp) (g imp')) :
    Follows (Within G) (Alike P) (get >>= f) (get >>= g) := by
  intro imp imp' a out hst hrun hg
  exact h imp imp' hst imp imp' a out hst hrun hg

variable (hw : MatchesWrites lib G P)

-- ── One entry ─────────────────────────────────────────────────────────────────

theorem follows_cacheXattrsContent (expected : Option Checksum) :
    Follows (Within G) (Alike P) (cacheXattrsContent lib e expected)
      (cacheXattrsContent lib e expected) := by
  intro imp imp' a out hst hrun _
  rw [cacheXattrsContent] at hrun ⊢
  by_cases hty : e.header.entryType ≠ .regular
  · rw [if_pos hty] at hrun
    cases hrun
  rw [if_neg hty] at hrun ⊢
  dsimp only at hrun ⊢
  by_cases hsize : e.header.size > maxXattrSize
  · rw [if_pos hsize] at hrun
    cases hrun
  rw [if_neg hsize] at hrun ⊢
  obtain ⟨contents, hread, hrun⟩ := liftR_bind_ok hrun
  rw [hread, bind_of_ok (liftR_ok _ _)]
  by_cases hsum : expected.any (· ≠ lib.sha256 contents)
  · rw [if_pos hsum] at hrun
    cases hrun
  rw [if_neg hsum] at hrun ⊢
  cases hrun
  refine ⟨_, rfl, hst.repo, ?_, hst.nextXattrs, hst.data⟩
  show imp'.xattrs.insert _ _ = imp.xattrs.insert _ _
  rw [hst.xattrs]

theorem follows_setNextXattrs (x : Option (Checksum × Checksum)) : Follows (Within G) (Alike P)
    (modify fun imp => { imp with nextXattrs := x } : ImportM PUnit)
    (modify fun imp => { imp with nextXattrs := x }) := by
  apply Follows.update
  intro imp imp' h
  exact ⟨h.repo, h.xattrs, rfl, h.data⟩

theorem follows_ensureNoPendingXattrs :
    Follows (Within G) (Alike P) ensureNoPendingXattrs ensureNoPendingXattrs := by
  apply follows_get
  intro imp imp' h
  rw [h.nextXattrs]
  cases imp.nextXattrs with
  | some prev => exact Follows.throw _ _
  | none => exact Follows.pure _

include hw in
/-- Sequencing, when the second half is harmless. -/
theorem follows_bind {α β : Type} {x y : ImportM α} {f g : α → ImportM β}
    (hx : Follows (Within G) (Alike P) x y) (hharmless : ∀ a, Steps HarmlessStep (f a))
    (hf : ∀ a, Follows (Within G) (Alike P) (f a) (g a)) :
    Follows (Within G) (Alike P) (x >>= f) (y >>= g) :=
  Follows.bind hx (fun a => hw.steps_back (hharmless a)) hf

theorem cacheXattrsContent_harmless (expected : Option Checksum) :
    Steps HarmlessStep (cacheXattrsContent lib e expected) :=
  harmless_of_keepsRepo (cacheXattrsContent_keepsRepo expected)

theorem setNextXattrs_harmless (x : Option (Checksum × Checksum)) : Steps HarmlessStep
    (modify fun imp => { imp with nextXattrs := x } : ImportM PUnit) :=
  harmless_of_keepsRepo (setNextXattrs_keepsRepo x)

include hw in
theorem follows_processFileXattrsLink : Follows (Within G) (Alike P)
    (processFileXattrsLink lib e c) (processFileXattrsLink lib e c) := by
  rw [processFileXattrsLink]
  refine follows_bind hw follows_ensureNoPendingXattrs (fun _ => ?_) (fun _ => ?_)
  · split
    · refine Steps.bind HarmlessStep.trans (liftR_harmless _) (fun t => ?_)
      exact Steps.bind HarmlessStep.trans (liftR_harmless _) (fun _ => setNextXattrs_harmless _)
    · exact Steps.bind HarmlessStep.trans (cacheXattrsContent_harmless _)
        (fun _ => setNextXattrs_harmless _)
    · exact Steps.bind HarmlessStep.trans (Steps.throw HarmlessStep.refl _)
        (fun _ => setNextXattrs_harmless _)
  · split
    · refine follows_bind hw (follows_liftR _) (fun t => ?_) (fun t => ?_)
      · exact Steps.bind HarmlessStep.trans (liftR_harmless _) (fun _ => setNextXattrs_harmless _)
      · exact follows_bind hw (follows_liftR _) (fun _ => setNextXattrs_harmless _)
          (fun _ => follows_setNextXattrs _)
    · exact follows_bind hw (follows_cacheXattrsContent _) (fun _ => setNextXattrs_harmless _)
        (fun _ => follows_setNextXattrs _)
    · exact follows_bind hw (Follows.throw _ _) (fun _ => setNextXattrs_harmless _)
        (fun _ => follows_setNextXattrs _)

include hw in
theorem follows_processXattrRef :
    Follows (Within G) (Alike P) (processXattrRef e c) (processXattrRef e c) := by
  have hset : ∀ d : Checksum, Steps HarmlessStep
      (modify fun imp => { imp with nextXattrs := some (c, d) } : ImportM PUnit) :=
    fun d => setNextXattrs_harmless (some (c, d))
  have hlink : Steps HarmlessStep (do
      let xattrTarget ← liftR (okOr ("No xattrs link content for " ++ c) e.linkName)
      let xattrTarget ← liftR (okOr ("Invalid xattrs link " ++ c) (Path.parse xattrTarget).fileName)
      let xattrsChecksum ← liftR (validateSha256 xattrTarget)
      modify fun imp => { imp with nextXattrs := some (c, xattrsChecksum) } : ImportM PUnit) := by
    refine Steps.bind HarmlessStep.trans (liftR_harmless _) (fun t => ?_)
    refine Steps.bind HarmlessStep.trans (liftR_harmless _) (fun t => ?_)
    exact Steps.bind HarmlessStep.trans (liftR_harmless _) (fun d => hset d)
  rw [processXattrRef]
  refine follows_bind hw follows_ensureNoPendingXattrs (fun _ => ?_) (fun _ => ?_)
  · split
    · exact Steps.throw HarmlessStep.refl _
    · exact hlink
  split
  · exact Follows.throw _ _
  refine follows_bind hw (follows_liftR _) (fun t => ?_) (fun t => ?_)
  · refine Steps.bind HarmlessStep.trans (liftR_harmless _) (fun t => ?_)
    exact Steps.bind HarmlessStep.trans (liftR_harmless _) (fun d => hset d)
  refine follows_bind hw (follows_liftR _) (fun t => ?_) (fun t => ?_)
  · exact Steps.bind HarmlessStep.trans (liftR_harmless _) (fun d => hset d)
  exact follows_bind hw (follows_liftR _) (fun d => hset d) (fun d => follows_setNextXattrs _)

include hw in
theorem follows_processSplitXattrsContent : Follows (Within G) (Alike P)
    (processSplitXattrsContent lib e) (processSplitXattrsContent lib e) := by
  have hcache : ∀ d : Checksum, Steps HarmlessStep (do
      let _ ← cacheXattrsContent lib e (some d) : ImportM PUnit) :=
    fun d => Steps.bind HarmlessStep.trans (cacheXattrsContent_harmless _)
      (fun _ => Steps.pure HarmlessStep.refl _)
  refine follows_bind hw (follows_liftR _) (fun t => ?_) (fun t => ?_)
  · exact Steps.bind HarmlessStep.trans (liftR_harmless _) (fun d => hcache d)
  refine follows_bind hw (follows_liftR _) (fun d => hcache d) (fun d => ?_)
  exact follows_bind hw (follows_cacheXattrsContent _) (fun _ => Steps.pure HarmlessStep.refl _)
    (fun _ => Follows.pure _)

-- ── Content objects ───────────────────────────────────────────────────────────

/-- What a content object is read as, once its xattrs are known. -/
def readContentObject (entry : Entry) (xattrs : Bytes) : Result FileObject :=
  match entry.header.entryType with
  | .regular => do
      let (uid, gid, mode) ← headerAttrs entry.header
      if entry.header.size > smallRegfileSize then
        .ok (.regular uid gid (sIfreg ||| mode) xattrs entry.data)
      else
        let buf ← readExact entry entry.header.size
        .ok (.regular uid gid (sIfreg ||| mode) xattrs buf)
  | .symlink => do
      let (uid, gid, _) ← headerAttrs entry.header
      let target ← okOr "Invalid symlink" entry.linkName
      .ok (.symlink uid gid xattrs target)
  | _ => .error (.err "Invalid tar entry of type")

/-- The slow path of `import_content_object`: the object is read, then written. -/
def writeContentObject (lib : Libostree) (entry : Entry) (checksum : Checksum) (xattrs : Bytes) :
    ImportM Unit := do
  let o ← liftR (readContentObject entry xattrs)
  let _ ← onRepo (Repo.writeFile lib (some checksum) o)

/-- Reading is a computation of its own. -/
theorem liftR_bind {σ α β : Type} (x : Result α) (f : α → Result β) :
    (liftR (x >>= f) : EStateM Stop σ β) = (liftR x >>= fun a => liftR (f a)) := by
  funext s
  cases x with
  | ok a => rfl
  | error stop => rfl

theorem importLargeRegfileObject_eq {x : Bytes} (hty : e.header.entryType = .regular)
    (hsize : e.header.size > smallRegfileSize) :
    importLargeRegfileObject lib e c x = writeContentObject lib e c x := by
  rw [importLargeRegfileObject, writeContentObject, readContentObject, hty]
  dsimp only
  rw [liftR_bind, bind_assoc]
  simp only [if_pos hsize]
  rfl

theorem importSmallRegfileObject_eq {x : Bytes} (hty : e.header.entryType = .regular)
    (hsize : ¬ e.header.size > smallRegfileSize) :
    importSmallRegfileObject lib e e.header.size c x = writeContentObject lib e c x := by
  rw [importSmallRegfileObject, writeContentObject, readContentObject, hty]
  dsimp only
  rw [liftR_bind, bind_assoc]
  simp only [if_neg hsize]
  congr 1
  funext attrs
  rw [liftR_bind, bind_assoc]
  rfl

theorem importSymlinkObject_eq {x : Bytes} (hty : e.header.entryType = .symlink) :
    importSymlinkObject lib e c x = writeContentObject lib e c x := by
  rw [importSymlinkObject, writeContentObject, readContentObject, hty]
  dsimp only
  rw [liftR_bind, bind_assoc]
  congr 1
  funext attrs
  rw [liftR_bind, bind_assoc]
  rfl

/-- The three writers of content objects are one. -/
theorem contentWriter_eq (x : Bytes) :
    (match e.header.entryType with
      | .regular =>
          if e.header.size > smallRegfileSize then importLargeRegfileObject lib e c x
          else importSmallRegfileObject lib e e.header.size c x
      | .symlink => importSymlinkObject lib e c x
      | _ => throw (.err "Invalid tar entry of type") : ImportM Unit)
      = writeContentObject lib e c x := by
  cases hty : e.header.entryType with
  | regular =>
      by_cases hsize : e.header.size > smallRegfileSize
      · simp only [if_pos hsize]
        exact importLargeRegfileObject_eq hty hsize
      · simp only [if_neg hsize]
        exact importSmallRegfileObject_eq hty hsize
  | symlink => exact importSymlinkObject_eq hty
  | link => rw [writeContentObject, readContentObject, hty]; rfl
  | directory => rw [writeContentObject, readContentObject, hty]; rfl
  | other f => rw [writeContentObject, readContentObject, hty]; rfl

/-- **`import_content_object` has two paths.**  Both take the pending xattrs reference, which
    must be for this object; an object that is stored already is left alone, any other one is
    read with the cached xattrs and written. -/
theorem importContentObject_ok_iff {imp out : Importer} {u : Unit} :
    importContentObject lib e c imp = .ok u out ↔
      ∃ xattrsCsum, imp.nextXattrs = some (c, xattrsCsum) ∧
        ((c ∈ imp.repo.files ∧ out = { imp with nextXattrs := none }) ∨
          c ∉ imp.repo.files ∧ ∃ x, imp.xattrs[xattrsCsum]? = some x ∧
            writeContentObject lib e c x { imp with nextXattrs := none } = .ok u out) := by
  -- the entry's first two steps: the state is read and the queued reference popped
  have hget : (get : ImportM Importer) imp = .ok imp imp := rfl
  have hset : (set { imp with nextXattrs := none } : ImportM PUnit) imp
    = .ok ⟨⟩ { imp with nextXattrs := none } := rfl
  rw [importContentObject, bind_of_ok hget, bind_of_ok hset]
  cases hnext : imp.nextXattrs with
  | none => simp
  | some p =>
      obtain ⟨fileCsum, xattrsCsum⟩ := p
      dsimp only
      by_cases hc : c ≠ fileCsum
      · rw [if_pos hc]
        simp [Ne.symm hc]
      rw [if_neg hc]
      rw [ne_eq, not_not] at hc
      subst hc
      by_cases hmem : c ∈ imp.repo.files
      · rw [if_pos (ExtTreeMap.mem_iff_contains.mp hmem)]
        simp [hmem, eq_comm]
      · rw [if_neg (fun h => hmem (ExtTreeMap.mem_iff_contains.mpr h))]
        cases hx : imp.xattrs[xattrsCsum]? with
        | none => simp [hmem, hx]
        | some x =>
            refine (iff_of_eq (congrArg (· = _) (congrFun (contentWriter_eq x) _))).trans ?_
            simp [hmem, hx]

/-- A content object that is read was written under its checksum. -/
theorem writeContentObject_ok {x : Bytes} {imp out : Importer} {u : Unit}
    (h : writeContentObject lib e c x imp = .ok u out) : ∃ o r,
      readContentObject e x = .ok o ∧ Repo.writeFile lib (some c) o imp.repo = .ok c r ∧
      out = { imp with repo := r } := by
  obtain ⟨o, ho, h₁⟩ := liftR_bind_ok h
  obtain ⟨a, r, hr, h₂⟩ := onRepo_bind_ok h₁
  have ha : a = c := (Repo.writeFile_ok hr).2.1
  rw [ha] at hr
  cases h₂
  exact ⟨o, r, ho, hr, rfl⟩

include hw in
theorem follows_writeContentObject (x : Bytes) : Follows (Within G) (Alike P)
    (writeContentObject lib e c x) (writeContentObject lib e c x) := by
  refine follows_bind hw (follows_liftR _) (fun o => writeFileStep_harmless o) (fun o => ?_)
  exact follows_bind hw (follows_onRepo (hw.file c o)) (fun _ => Steps.pure HarmlessStep.refl _)
    (fun _ => Follows.pure _)

include hw in
/-- A content object, stored before or not: the second run takes the same path, or skips what
    the first one wrote. -/
theorem follows_importContentObject :
    Follows (Within G) (Alike P) (importContentObject lib e c) (importContentObject lib e c) := by
  intro imp imp' u out hst hrun hg
  obtain ⟨xattrsCsum, hnext, hpath⟩ := importContentObject_ok_iff.mp hrun
  have hst' : Alike P { imp with nextXattrs := none } { imp' with nextXattrs := none } :=
    ⟨hst.repo, hst.xattrs, rfl, hst.data⟩
  have hnext' : imp'.nextXattrs = some (c, xattrsCsum) := hst.nextXattrs.trans hnext
  rcases hpath with ⟨hmem, rfl⟩ | ⟨hmem, x, hx, hwrite⟩
  · refine ⟨_, importContentObject_ok_iff.mpr ⟨xattrsCsum, hnext', .inl ⟨?_, rfl⟩⟩, hst'⟩
    exact hw.has _ _ c hst.repo hg hmem
  · by_cases hmem' : c ∈ imp'.repo.files
    · refine ⟨_, importContentObject_ok_iff.mpr ⟨xattrsCsum, hnext', .inl ⟨hmem', rfl⟩⟩, ?_⟩
      obtain ⟨o, r, -, hr, rfl⟩ := writeContentObject_ok hwrite
      exact ⟨hw.skip _ _ r c o hst.repo hmem' hr hg, hst.xattrs, rfl, hst.data⟩
    · obtain ⟨out', hwrite', halike⟩ := follows_writeContentObject hw x _ _ u out hst' hwrite hg
      refine ⟨out', importContentObject_ok_iff.mpr ⟨xattrsCsum, hnext', .inr ⟨hmem', x, ?_, hwrite'⟩⟩,
        halike⟩
      rw [hst.xattrs]
      exact hx

theorem follows_trackImported :
    Follows (Within G) (Alike P) (trackImported c) (trackImported c) := by
  intro imp imp' u out hst hrun _
  obtain ⟨i, s, hget, hrun⟩ := bind_ok hrun
  cases hget
  have hget : (get : ImportM Importer) imp' = .ok imp' imp' := rfl
  rw [trackImported, bind_of_ok hget, hst.data]
  cases hdata : imp.data with
  | commit o =>
      rw [hdata] at hrun
      cases hrun
      exact ⟨imp', rfl, hst⟩
  | objectSet imported =>
      rw [hdata] at hrun
      dsimp only at hrun ⊢
      rw [bind_of_ok (modify_run _ _)] at hrun ⊢
      by_cases hdup : imported.contains c
      · rw [if_pos hdup] at hrun
        cases hrun
      · rw [if_neg hdup] at hrun ⊢
        cases hrun
        exact ⟨_, rfl, hst.repo, hst.xattrs, hst.nextXattrs, rfl⟩

include hw in
theorem follows_importMetadata (ty : ObjectType) : Follows (Within G) (Alike P)
    (importMetadata lib e c ty) (importMetadata lib e c ty) := by
  cases ty with
  | dirTree =>
      refine follows_bind hw (follows_liftR _) (fun v => ?_) (fun v => ?_)
      · exact Steps.bind HarmlessStep.trans (onRepo_harmless (writeDirtree_harmless _ _))
          (fun _ => assertEq_harmless _ _)
      · exact follows_bind hw (follows_onRepo (hw.dirtree c v)) (fun _ => assertEq_harmless _ _)
          (fun _ => follows_assertEq _ _)
  | dirMeta =>
      refine follows_bind hw (follows_liftR _) (fun v => ?_) (fun v => ?_)
      · exact Steps.bind HarmlessStep.trans (onRepo_harmless (writeDirmeta_harmless _ _))
          (fun _ => assertEq_harmless _ _)
      · exact follows_bind hw (follows_onRepo (hw.dirmeta c v)) (fun _ => assertEq_harmless _ _)
          (fun _ => follows_assertEq _ _)
  | commit => exact Follows.throw _ _
  | commitMeta => exact Follows.throw _ _
  | file => exact Follows.throw _ _

include hw in
theorem follows_importObjectAs (suffix : String) : Follows (Within G) (Alike P)
    (importObjectAs lib e c suffix) (importObjectAs lib e c suffix) := by
  rw [importObjectAs]
  split
  · exact Follows.throw _ _
  split
  · exact follows_bind hw (follows_importContentObject hw) (fun _ => trackImported_harmless)
      (fun _ => follows_trackImported)
  split
  · exact follows_bind hw (follows_cacheXattrsContent _) (fun _ => Steps.pure HarmlessStep.refl _)
      (fun _ => Follows.pure _)
  split
  · exact follows_processFileXattrsLink hw
  split
  · exact follows_processXattrRef hw
  refine follows_bind hw (follows_liftR _) (fun ty => ?_) (fun ty => ?_)
  · refine Steps.bind HarmlessStep.trans (fun imp => HarmlessStep.refl imp) (fun imp => ?_)
    split
    · exact Steps.throw HarmlessStep.refl _
    · exact importMetadata_harmless ty
  · apply follows_get
    intro imp imp' h
    rw [h.data]
    split
    · exact Follows.throw _ _
    · exact follows_importMetadata hw ty

include hw in
theorem follows_importObject (path : Path) : Follows (Within G) (Alike P)
    (importObject lib e path) (importObject lib e path) := by
  refine follows_bind hw (follows_liftR _) (fun parts => ?_) (fun parts => ?_)
  · exact Steps.bind HarmlessStep.trans (liftR_harmless _) (fun _ => importObjectAs_harmless _)
  · exact follows_bind hw (follows_liftR _) (fun _ => importObjectAs_harmless _)
      (fun _ => follows_importObjectAs hw _)

include hw in
/-- One round of the import loop. -/
theorem follows_importEntry (item : Except String (Entry × Path)) : Follows (Within G) (Alike P)
    (importEntry lib item) (importEntry lib item) := by
  rcases item with m | ⟨e, path⟩
  · exact Follows.throw _ _
  rw [importEntry]
  split
  · exact follows_importObject hw _
  split
  · exact follows_processSplitXattrsContent hw
  · exact Follows.pure _

include hw in
/-- **The import loop can be repeated** wherever its writes can. -/
theorem follows_importObjectsImpl (ents : List (Except String (Entry × Path))) :
    Follows (Within G) (Alike P) (importObjectsImpl lib ents) (importObjectsImpl lib ents) :=
  Follows.loop (fun item _ => hw.steps_back (importEntry_harmless item))
    (fun item _ => follows_importEntry hw item)

end Runs

-- ── With and without a remote ─────────────────────────────────────────────────

/-- Two repositories that hold the same, whatever happened to them before. -/
structure SameContents (r r' : Repo) : Prop where
  objects : r'.toObjects = r.toObjects
  commitmetas : r'.commitmetas = r.commitmetas
  partialCommits : r'.partialCommits = r.partialCommits
  refs : r'.refs = r.refs

theorem SameContents.symm {r r' : Repo} (h : SameContents r r') : SameContents r' r :=
  ⟨h.objects.symm, h.commitmetas.symm, h.partialCommits.symm, h.refs.symm⟩

/-- Two runs of an import that both fail, or that both succeed with the same result and leave
    repositories that hold the same. -/
structure Agree (x y : EStateM.Result Stop Importer Unit) : Prop where
  succeeds : (∃ u imp, x = .ok u imp) ↔ ∃ u imp, y = .ok u imp
  same : ∀ u imp u' imp', x = .ok u imp → y = .ok u' imp' →
    imp'.data = imp.data ∧ SameContents imp.repo imp'.repo

theorem Agree.of_errors {x y : EStateM.Result Stop Importer Unit} {a b : Stop} {s t : Importer}
    (hx : x = .error a s) (hy : y = .error b t) : Agree x y := by
  rw [hx, hy]
  constructor
  · simp
  · intro u imp u' imp' h
    cases h

section Remote

variable {lib : Libostree}

/-- Repositories that hold the same take the same writes. -/
theorem matchesWrites_sameContents : MatchesWrites lib (fun _ => True) SameContents where
  back _ _ _ h := h
  dirtree c d := by
    intro r r' a s h hrun _
    obtain ⟨hsum, rfl, rfl⟩ := Repo.writeDirtree_ok hrun
    refine ⟨_, Repo.writeDirtree_run hsum r', ?_, h.commitmetas, h.partialCommits, h.refs⟩
    show { r'.toObjects with dirtrees := r'.toObjects.dirtrees.insertIfNew a d }
      = { r.toObjects with dirtrees := r.toObjects.dirtrees.insertIfNew a d }
    rw [h.objects]
  dirmeta c m := by
    intro r r' a s h hrun _
    obtain ⟨hsum, rfl, rfl⟩ := Repo.writeDirmeta_ok hrun
    refine ⟨_, Repo.writeDirmeta_run hsum r', ?_, h.commitmetas, h.partialCommits, h.refs⟩
    show { r'.toObjects with dirmetas := r'.toObjects.dirmetas.insertIfNew a m }
      = { r.toObjects with dirmetas := r.toObjects.dirmetas.insertIfNew a m }
    rw [h.objects]
  file c o := by
    intro r r' a s h hrun _
    obtain ⟨hsum, rfl, rfl⟩ := Repo.writeFile_ok hrun
    refine ⟨_, Repo.writeFile_run hsum r', ?_, h.commitmetas, h.partialCommits, h.refs⟩
    show { r'.toObjects with files := r'.toObjects.files.insertIfNew a o }
      = { r.toObjects with files := r.toObjects.files.insertIfNew a o }
    rw [h.objects]
  has r r' c h _ hc := by
    rw [h.objects]
    exact hc
  skip r r' s c o h hc hrun _ := by
    obtain ⟨hsum, _, rfl⟩ := Repo.writeFile_ok hrun
    rw [h.objects] at hc
    refine ⟨?_, h.commitmetas, h.partialCommits, h.refs⟩
    show r'.toObjects = { r.toObjects with files := r.files.insertIfNew c o }
    rw [ExtTreeMap.insertIfNew_of_mem hc, h.objects]

/-- The head of a commit, written to repositories that hold the same. -/
theorem sameContents_headRepo {r r' : Repo} (h : SameContents r r') (c : Checksum) (commit : Commit)
    (d : Dict) : SameContents (headRepo c commit (some d) r) (headRepo c commit (some d) r') where
  objects := by
    show { r'.toObjects with commits := r'.toObjects.commits.insertIfNew c commit }
      = { r.toObjects with commits := r.toObjects.commits.insertIfNew c commit }
    rw [h.objects]
  commitmetas := by
    show r'.commitmetas.insert c d = r.commitmetas.insert c d
    rw [h.commitmetas]
  partialCommits := by
    show insert c r'.partialCommits = insert c r.partialCommits
    rw [h.partialCommits]
  refs := h.refs

/-- The writes after an accepted head do not depend on what happened before. -/
theorem importAccepted_follows {checksum : Checksum} {commit : Commit} {d : Dict}
    {rest : List (Except String (Entry × Path))} {imp imp' out : Importer} {u : Unit}
    (h : Alike SameContents imp imp')
    (hrun : importAccepted lib checksum commit d rest imp = .ok u out) :
    ∃ out', importAccepted lib checksum commit d rest imp' = .ok u out' ∧
      Alike SameContents out out' := by
  by_cases hsum : lib.commitChecksum commit = checksum
  · have hhead : ∀ imp, importAccepted lib checksum commit d rest imp
        = importObjectsImpl lib rest { imp with
            repo := headRepo checksum commit (some d) imp.repo
            data := .commit (some checksum) } := by
      intro imp
      rw [importAccepted, bind_of_ok (writePartialCommit_run hsum imp)]
      rfl
    rw [hhead] at hrun ⊢
    have hstart : Alike SameContents
        { imp with
          repo := headRepo checksum commit (some d) imp.repo, data := .commit (some checksum) }
        { imp' with
          repo := headRepo checksum commit (some d) imp'.repo, data := .commit (some checksum) } :=
      ⟨sameContents_headRepo h.repo checksum commit d, h.xattrs, h.nextXattrs, rfl⟩
    exact follows_importObjectsImpl matchesWrites_sameContents rest _ _ u out hstart hrun trivial
  · obtain ⟨stop, hstop⟩ := writePartialCommit_refused hsum imp
    rw [importAccepted, bind_of_error hstop] at hrun
    cases hrun

theorem importHead_none (checksum : Checksum) (commit : Commit) (nextEnt : Entry) (nextPath : Path)
    (next : Checksum × ObjectType) (repo : Repo) :
    importHead lib checksum commit nextEnt nextPath next (.newForCommit none repo)
      = importUnverified lib checksum commit nextEnt nextPath (.newForCommit none repo) := rfl

theorem importHead_some (checksum : Checksum) (commit : Commit) (nextEnt : Entry) (nextPath : Path)
    (next : Checksum × ObjectType) (remote : String) (repo : Repo) :
    importHead lib checksum commit nextEnt nextPath next (.newForCommit (some remote) repo)
      = importVerified lib remote checksum commit nextEnt next.1 next.2
        (.newForCommit (some remote) repo) := rfl

/-- Without a remote, commit metadata that can be read is written for the commit. -/
theorem importNextObject_commitMeta {checksum next : Checksum} {nextEnt : Entry} {nextPath : Path}
    (hnext : parseMetadataEntry nextPath = .ok (next, .commitMeta)) :
    importNextObject lib checksum nextEnt nextPath = (do
      let d ← liftR (entryToVariant lib.dict nextEnt next)
      onRepo (Repo.writeCommitDetachedMetadata checksum d)) := by
  rw [importNextObject, hnext]
  rfl

/-- Runs of the accepted head from importers that are alike agree. -/
theorem importAccepted_agree {checksum : Checksum} {commit : Commit} {d : Dict}
    {rest : List (Except String (Entry × Path))} {imp imp' : Importer}
    (h : Alike SameContents imp imp') :
    Agree (importAccepted lib checksum commit d rest imp)
      (importAccepted lib checksum commit d rest imp') := by
  have hback : Alike SameContents imp' imp :=
    ⟨h.repo.symm, h.xattrs.symm, h.nextXattrs.symm, h.data.symm⟩
  constructor
  · constructor
    · rintro ⟨u, out, hrun⟩
      obtain ⟨out', hrun', -⟩ := importAccepted_follows h hrun
      exact ⟨u, out', hrun'⟩
    · rintro ⟨u, out, hrun⟩
      obtain ⟨out', hrun', -⟩ := importAccepted_follows hback hrun
      exact ⟨u, out', hrun'⟩
  · intro u out u' out' hrun hrun'
    obtain ⟨out'', hfollow, halike⟩ := importAccepted_follows h hrun
    obtain ⟨-, rfl⟩ := EStateM.Result.ok.inj (hfollow.symm.trans hrun')
    exact ⟨halike.data, halike.repo⟩

/-- **Verified and unverified imports agree apart from the signature.**  The second object
    entry of the stream is a commitmeta object, and the remote accepts the pair.  When that
    entry has the name of the commit, `import_commit` succeeds with the remote if and only if
    it succeeds without one, and leaves a repository that holds the same.  With the name of
    another commit it is refused by the import with a remote, before anything is written. -/
theorem importCommit_agree (lib : Libostree) (remote : String) (s : Stream) (repo : Repo)
    {commitEnt nextEnt : Entry} {commitPath nextPath : Path}
    {rest : List (Except String (Entry × Path))} {next : Checksum}
    (hents : filterEntries s = .ok (commitEnt, commitPath) :: .ok (nextEnt, nextPath) :: rest)
    (hnext : parseMetadataEntry nextPath = .ok (next, .commitMeta))
    (hsig : lib.signatureVerify remote (lib.commit.toBytes (lib.commit.ofBytes commitEnt.data))
      (lib.dict.toBytes (lib.dict.ofBytes nextEnt.data)) = true) :
    ((∀ checksum ty, parseMetadataEntry commitPath = .ok (checksum, ty) → next = checksum) →
      Agree (importCommit lib s (.newForCommit (some remote) repo))
        (importCommit lib s (.newForCommit none repo))) ∧
    ((∃ checksum ty, parseMetadataEntry commitPath = .ok (checksum, ty) ∧ next ≠ checksum) →
      ∃ stop, importCommit lib s (.newForCommit (some remote) repo)
        = .error stop (.newForCommit (some remote) repo)) := by
  rcases @importCommit_head_cases lib s with ⟨stop, hstop⟩ | ⟨commitEnt', commitPath', nextEnt',
    nextPath', rest', next', checksum, commit, hents', hnext', hparse, hcommit, hrun⟩
  · exact ⟨fun _ => Agree.of_errors (hstop _ _) (hstop _ _), fun _ => ⟨stop, hstop _ _⟩⟩
  -- the head that was read is the one of the statement
  rw [hents] at hents'
  injection hents' with hfirst hents'
  injection hents' with hsecond hrest
  injection hfirst with hfirst
  injection hsecond with hsecond
  obtain ⟨rfl, rfl⟩ := Prod.mk.inj hfirst
  obtain ⟨rfl, rfl⟩ := Prod.mk.inj hsecond
  subst hrest
  rw [hnext] at hnext'
  obtain rfl := Except.ok.inj hnext'
  rw [hrun, hrun]
  have hverified := @importHead_some lib checksum commit nextEnt nextPath
    (next, .commitMeta) remote repo
  have hunverified := @importHead_none lib checksum commit nextEnt nextPath
    (next, .commitMeta) repo
  refine ⟨fun hname => ?_, ?_⟩
  · obtain rfl := hname checksum .commit hparse
    cases hmeta : entryToVariant lib.dict nextEnt next with
    | error stop =>
        -- neither branch can read the metadata; without a remote the commit is written first
        have hfail : importVerified lib remote next commit nextEnt next .commitMeta
            (.newForCommit (some remote) repo) = .error stop (.newForCommit (some remote) repo) := by
          rw [importVerified, if_neg (by simp), if_neg (by simp), hmeta]
          rfl
        have hfail' : ∃ stop out, importUnverified lib next commit nextEnt nextPath
            (.newForCommit none repo) = .error stop out := by
          rw [importUnverified, importNextObject_commitMeta hnext, hmeta]
          by_cases hsum : lib.commitChecksum commit = next
          · exact ⟨stop, _, bind_of_ok (writePartialCommit_run hsum _)⟩
          · obtain ⟨stop', hstop'⟩ := writePartialCommit_refused hsum (.newForCommit none repo)
            exact ⟨stop', _, bind_of_error hstop'⟩
        obtain ⟨stop', out, hfail'⟩ := hfail'
        exact Agree.of_errors (bind_of_error (hverified.trans hfail))
          (bind_of_error (hunverified.trans hfail'))
    | ok d =>
        obtain rfl := entryToVariant_eq_ok hcommit
        obtain rfl := entryToVariant_eq_ok hmeta
        have haccept : importHead lib next (lib.commit.ofBytes commitEnt.data) nextEnt nextPath
            (next, .commitMeta) (.newForCommit (some remote) repo) = (do
              writePartialCommit lib next (lib.commit.ofBytes commitEnt.data)
              onRepo (Repo.writeCommitDetachedMetadata next (lib.dict.ofBytes nextEnt.data)) :
                ImportM Unit) (.newForCommit (some remote)
                  (Repo.record (.accepted remote
                    (lib.commit.toBytes (lib.commit.ofBytes commitEnt.data))
                    (lib.dict.toBytes (lib.dict.ofBytes nextEnt.data))) repo)) := by
          rw [hverified, importVerified, if_neg (by simp), if_neg (by simp), hmeta,
            bind_of_ok (liftR_ok _ _), Repo.signatureVerifyCommitData, if_pos hsig]
          rfl
        have hunaccept : importHead lib next (lib.commit.ofBytes commitEnt.data) nextEnt nextPath
            (next, .commitMeta) (.newForCommit none repo) = (do
              writePartialCommit lib next (lib.commit.ofBytes commitEnt.data)
              onRepo (Repo.writeCommitDetachedMetadata next (lib.dict.ofBytes nextEnt.data)) :
                ImportM Unit) (.newForCommit none repo) := by
          rw [hunverified, importUnverified, importNextObject_commitMeta hnext, hmeta]
          rfl
        rw [bind_congr_start haccept, bind_congr_start hunaccept, bind_assoc]
        apply importAccepted_agree
        exact ⟨⟨rfl, rfl, rfl, rfl⟩, rfl, rfl, rfl⟩
  · rintro ⟨checksum', ty, hparse', hne⟩
    obtain ⟨rfl, rfl⟩ := Prod.mk.inj (Except.ok.inj (hparse.symm.trans hparse'))
    have hrefused : ∃ stop, importVerified lib remote checksum commit nextEnt next .commitMeta
        (.newForCommit (some remote) repo) = .error stop (.newForCommit (some remote) repo) := by
      rw [importVerified, if_neg (by simp), if_pos hne]
      exact ⟨_, rfl⟩
    obtain ⟨stop, hstop⟩ := hrefused
    exact ⟨stop, bind_of_error (hverified.trans hstop)⟩

end Remote

-- ── A signed commit ───────────────────────────────────────────────────────────

/-- Detached metadata with one signature, `a{sv}` with an `aay` in it. -/
def signedMeta : Dict :=
  (∅ : Dict).insert "ostree.sign.ed25519" (.other (List.replicate 64 7 ++ [64]))

def signedMetaBytes : Bytes :=
  cstr "ostree.sign.ed25519" ++ [0, 0, 0, 0] ++ (List.replicate 64 7 ++ [64]) ++ [0, 97, 97, 121]
    ++ [20] ++ [94]

/-- A remote `fedora` whose signature of the sample commit this is. -/
def signedTables : LibTables :=
  { sampleTables with
    dicts := [(signedMeta, signedMetaBytes)]
    verify := fun remote commit commitmeta =>
      remote = "fedora" ∧ commit = plainCommitBytes sampleCommit ∧ commitmeta = signedMetaBytes }

/-- The commit, followed by the signed metadata under the given name. -/
def signedStream (name : Checksum) : Stream :=
  [.ok (dataEntry sampleCommitSum "commit" (plainCommitBytes sampleCommit)),
   .ok (dataEntry name "commitmeta" signedMetaBytes)]

theorem filterEntries_signedStream (name : Checksum) : filterEntries (signedStream name)
    = [.ok (dataEntry sampleCommitSum "commit" (plainCommitBytes sampleCommit),
          objectsPath sampleCommitSum "commit"),
        .ok (dataEntry name "commitmeta" signedMetaBytes, objectsPath name "commitmeta")] := by
  have hstream : signedStream name = [dataEntry sampleCommitSum "commit" (plainCommitBytes sampleCommit),
      dataEntry name "commitmeta" signedMetaBytes].map Except.ok := rfl
  rw [hstream, filterEntries_ok, List.filterMap_cons, filterEntry_dataEntry]
  dsimp only
  rw [List.filterMap_cons, filterEntry_dataEntry]
  rfl

theorem ofBytes_signedMeta : signedTables.lib.dict.ofBytes signedMetaBytes = signedMeta := by
  simp only [LibTables.lib, signedTables, Codec.ofTable, List.map_cons, Prod.swap_prod_mk,
    tableGet_self]

theorem toBytes_signedMeta : signedTables.lib.dict.toBytes signedMeta = signedMetaBytes := by
  simp only [LibTables.lib, signedTables, Codec.ofTable, tableGet_self]

theorem signedTables_commitChecksum :
    signedTables.lib.commitChecksum sampleCommit = sampleCommitSum := by
  show sampleTables.lib.commitChecksum sampleCommit = sampleCommitSum
  exact commitChecksum_sampleCommit

theorem signedStream_accepted : signedTables.lib.signatureVerify "fedora"
    (signedTables.lib.commit.toBytes (signedTables.lib.commit.ofBytes (plainCommitBytes sampleCommit)))
    (signedTables.lib.dict.toBytes (signedTables.lib.dict.ofBytes signedMetaBytes)) = true := by
  rw [ofBytes_signedMeta, toBytes_signedMeta]
  have hcommit : signedTables.lib.commit.toBytes
      (signedTables.lib.commit.ofBytes (plainCommitBytes sampleCommit))
      = plainCommitBytes sampleCommit := by
    show sampleTables.lib.commit.toBytes
      (sampleTables.lib.commit.ofBytes (plainCommitBytes sampleCommit)) = _
    rw [ofBytes_sampleCommit, toBytes_sampleCommit]
  rw [hcommit]
  simp [LibTables.lib, signedTables]

theorem signedStream_commit : entryToVariant signedTables.lib.commit
    (dataEntry sampleCommitSum "commit" (plainCommitBytes sampleCommit)) sampleCommitSum
    = .ok sampleCommit := by
  rw [entryToVariant_ok _ rfl rfl (by decide +kernel)]
  exact congrArg Except.ok ofBytes_sampleCommit

/-- Whatever the name of the metadata, the stream is imported without a remote. -/
theorem signedStream_imported {name : Checksum} (hname : IsSha256 name) : ∃ imp,
    importCommit signedTables.lib (signedStream name) (.newForCommit none {}) = .ok ⟨⟩ imp ∧
    imp.data = .commit (some sampleCommitSum) := by
  have hnext := parseMetadataEntry_objectsPath hname .commitMeta "commitmeta" rfl
  have hparse := parseMetadataEntry_objectsPath isSha256_sampleCommitSum .commit "commit" rfl
  have hmeta : entryToVariant signedTables.lib.dict (dataEntry name "commitmeta" signedMetaBytes)
      name = .ok signedMeta := by
    have hmax : signedMetaBytes.length ≤ maxMetadataSize := by decide
    rw [entryToVariant_ok _ rfl rfl hmax]
    exact congrArg Except.ok ofBytes_signedMeta
  have hhead : ∃ imp, importHead signedTables.lib sampleCommitSum sampleCommit
      (dataEntry name "commitmeta" signedMetaBytes) (objectsPath name "commitmeta")
      (name, .commitMeta) (.newForCommit none {}) = .ok ⟨⟩ imp := by
    rw [importHead_none, importUnverified, importNextObject_commitMeta hnext, hmeta,
      bind_of_ok (writePartialCommit_run signedTables_commitChecksum _)]
    exact ⟨_, rfl⟩
  obtain ⟨imp, hhead⟩ := hhead
  rw [importCommit_eq_head (filterEntries_signedStream name) hnext hparse rfl signedStream_commit,
    bind_of_ok hhead]
  exact ⟨_, rfl, rfl⟩

/-- The two imports of the signed commit agree. -/
theorem signedStream_agree :
    Agree (importCommit signedTables.lib (signedStream sampleCommitSum)
        (.newForCommit (some "fedora") {}))
      (importCommit signedTables.lib (signedStream sampleCommitSum) (.newForCommit none {})) := by
  refine (importCommit_agree signedTables.lib "fedora" (signedStream sampleCommitSum) {}
    (filterEntries_signedStream sampleCommitSum)
    (parseMetadataEntry_objectsPath isSha256_sampleCommitSum .commitMeta "commitmeta" rfl)
    signedStream_accepted).1 ?_
  intro checksum ty h
  rw [parseMetadataEntry_objectsPath isSha256_sampleCommitSum .commit "commit" rfl] at h
  exact (Prod.mk.inj (Except.ok.inj h)).1

/-- **Metadata under another commit's name** is taken for the commit without a remote, and
    refused with one. -/
theorem strayCommitMeta_disagree :
    parseMetadataEntry (objectsPath sysrootCommitSum "commitmeta")
      = .ok (sysrootCommitSum, .commitMeta) ∧
    filterEntries (signedStream sysrootCommitSum)
      = [.ok (dataEntry sampleCommitSum "commit" (plainCommitBytes sampleCommit),
            objectsPath sampleCommitSum "commit"),
          .ok (dataEntry sysrootCommitSum "commitmeta" signedMetaBytes,
            objectsPath sysrootCommitSum "commitmeta")] ∧
    signedTables.lib.signatureVerify "fedora"
      (signedTables.lib.commit.toBytes
        (signedTables.lib.commit.ofBytes (plainCommitBytes sampleCommit)))
      (signedTables.lib.dict.toBytes (signedTables.lib.dict.ofBytes signedMetaBytes)) = true ∧
    ¬ Agree (importCommit signedTables.lib (signedStream sysrootCommitSum)
        (.newForCommit (some "fedora") {}))
      (importCommit signedTables.lib (signedStream sysrootCommitSum) (.newForCommit none {})) := by
  have hents := filterEntries_signedStream sysrootCommitSum
  have hnext := parseMetadataEntry_objectsPath isSha256_sysrootCommitSum .commitMeta "commitmeta" rfl
  have hparse := parseMetadataEntry_objectsPath isSha256_sampleCommitSum .commit "commit" rfl
  refine ⟨hnext, hents, signedStream_accepted, fun hagree => ?_⟩
  obtain ⟨out, hout, -⟩ := signedStream_imported isSha256_sysrootCommitSum
  obtain ⟨u, imp, hverified⟩ := hagree.succeeds.mpr ⟨⟨⟩, out, hout⟩
  rw [importCommit_eq_head hents hnext hparse rfl signedStream_commit] at hverified
  obtain ⟨_, _, hhead, _⟩ := bind_ok hverified
  rw [importHead_some, importVerified, if_neg (by simp), if_pos (by decide)] at hhead
  cases hhead

end OstreeExt.Tar
