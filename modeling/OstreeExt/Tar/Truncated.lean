import OstreeExt.Returns
import OstreeExt.Tar.Again

/-!
# Archives that break off

The body the reader delivers for an entry need not have the length that the header of the
entry announces: the archive may end inside it, or a pax record may give another size.  The
readers of content and xattrs fill a buffer of the announced size and return an error when
the body is too short.  The reader of metadata objects copies the whole body and asserts
that it has the announced size.

`import_reports_iff` says for every stream and repository when both imports return.
-/

namespace OstreeExt.Tar

open OstreeExt Exec

-- ── Reading names and headers ─────────────────────────────────────────────────

/-- The object names of entries are read without assertions. -/
@[simp] theorem not_refuses_parseObjectEntryPath (p : Path) :
    ¬ Refuses Stop.Aborts (parseObjectEntryPath p) := by
  rw [parseObjectEntryPath, refuses_bind_iff]
  rintro (h | ⟨parent, _, h⟩)
  · exact not_refuses_okOr _ _ h
  split at h
  · simp at h
  rw [refuses_bind_iff] at h
  rcases h with h | ⟨name, _, h⟩
  · exact not_refuses_okOr _ _ h
  rw [refuses_bind_iff] at h
  rcases h with h | ⟨objtype, _, h⟩
  · exact not_refuses_okOr _ _ h
  · simp at h

@[simp] theorem not_refuses_validateSha256 (s : String) :
    ¬ Refuses Stop.Aborts (validateSha256 s) := by
  rw [validateSha256]
  split
  · simp
  split <;> simp

@[simp] theorem not_refuses_parseChecksum (parent name : String) :
    ¬ Refuses Stop.Aborts (parseChecksum parent name) := by
  simp only [parseChecksum]
  split <;> simp

@[simp] theorem not_refuses_parseMetadataEntry (p : Path) :
    ¬ Refuses Stop.Aborts (parseMetadataEntry p) := by
  simp only [parseMetadataEntry, refuses_bind_iff]
  simp

@[simp] theorem not_refuses_parseXattrsLinkTarget (p : Path) :
    ¬ Refuses Stop.Aborts (parseXattrsLinkTarget p) := by
  simp only [parseXattrsLinkTarget, refuses_bind_iff]
  simp

@[simp] theorem not_refuses_headerAttrs (h : Header) : ¬ Refuses Stop.Aborts (headerAttrs h) := by
  rw [headerAttrs]
  split
  · simp
  split <;> simp

/-- A body that is too short for the buffer is an error. -/
@[simp] theorem not_refuses_readExact (e : Entry) (n : Nat) :
    ¬ Refuses Stop.Aborts (readExact e n) := by
  rw [readExact]
  split <;> simp

@[simp] theorem not_refuses_nextEntry (msg : String) (ents : List (Except String (Entry × Path))) :
    ¬ Refuses Stop.Aborts (nextEntry msg ents) := by
  rcases ents with _ | ⟨_ | _, _⟩ <;> simp [nextEntry]

/-- The entry passes as a metadata object, but its body has not the announced length. -/
def Damaged (e : Entry) : Prop :=
  e.header.entryType = .regular ∧ e.header.size ≤ maxMetadataSize ∧
    e.data.length ≠ e.header.size

/-- **The assertion of `entry_to_variant` fails for damaged entries**, whatever is read. -/
theorem refuses_entryToVariant_iff {α : Type} {codec : Codec α} {e : Entry} {desc : String} :
    Refuses Stop.Aborts (entryToVariant codec e desc) ↔ Damaged e := by
  rw [entryToVariant, validateMetadataHeader, Damaged]
  by_cases hty : e.header.entryType = .regular
  · rw [if_neg (by simp [hty])]
    by_cases hsize : e.header.size > maxMetadataSize
    · rw [if_pos hsize]
      simp [hsize]
    · rw [if_neg hsize, bind_ok_eq]
      split
      · next hne => simp [hty, Nat.le_of_not_lt hsize, hne]
      · next heq => simp [not_not.mp heq]
  · rw [if_pos hty]
    simp [hty]

-- ── Writing objects ───────────────────────────────────────────────────────────

section Objects

variable {lib : Libostree} {e : Entry} {c : Checksum} {imp : Importer}

theorem fails_onRepo_iff {α : Type} {B : Stop → Prop} {x : RepoM α} :
    Fails B (onRepo x) imp ↔ Fails B x imp.repo := by
  cases hx : x imp.repo with
  | ok a r =>
      have hrun : onRepo x imp = .ok a { imp with repo := r } := by rw [onRepo, hx]
      simp [not_fails_of_ok hx, not_fails_of_ok hrun]
  | error stop r =>
      have hrun : onRepo x imp = .error stop { imp with repo := r } := by rw [onRepo, hx]
      rw [fails_of_error hx, fails_of_error hrun]

/-- A repository refuses an object with another checksum than the expected one. -/
theorem never_checkExpected (expected : Option Checksum) (actual : Checksum) :
    Never Stop.Aborts (Repo.checkExpected expected actual) := by
  unfold Repo.checkExpected
  split
  · exact Never.pure _
  split
  · exact Never.pure _
  · exact Never.throw (by simp)

/-- A write that checks its checksum first. -/
theorem never_checkedWrite {α : Type} (expected : Option Checksum) (actual : Checksum) (a : α)
    (f : Repo → Repo) :
    Never Stop.Aborts (do
      Repo.checkExpected expected actual
      modify f
      pure a : RepoM α) :=
  Never.bind (never_checkExpected _ _) fun _ =>
    Never.bind (Never.update _) fun _ => Never.pure _

theorem never_onRepo {α : Type} {x : RepoM α} (h : Never Stop.Aborts x) :
    Never Stop.Aborts (onRepo x) := by
  intro imp
  rw [fails_onRepo_iff]
  exact h imp.repo

theorem never_liftR {σ α : Type} {r : Result α} (h : ¬ Refuses Stop.Aborts r) :
    Never Stop.Aborts (liftR r : EStateM Stop σ α) := by
  intro s
  rw [fails_liftR_iff]
  exact h

/-- The write of a content object, the last step of all three kinds. -/
theorem never_writeFile (o : FileObject) : Never Stop.Aborts
    (do let _ ← onRepo (Repo.writeFile lib (some c) o) : ImportM Unit) :=
  Never.bind (never_onRepo (never_checkedWrite _ _ _ _)) fun _ => Never.pure _

/-- **The assertions on content objects cannot fail**: the small flavour is used for small
    sizes, and what was written has the expected checksum. -/
theorem never_importContentObject : Never Stop.Aborts (importContentObject lib e c) := by
  refine Never.read fun imp => Never.bind (fun _ => not_fails_of_ok (set_run _ _)) fun _ => ?_
  split
  · exact Never.throw (by simp)
  split
  · exact Never.throw (by simp)
  split
  · exact Never.pure _
  split
  · exact Never.throw (by simp)
  split
  · split
    · exact Never.bind (never_liftR (by simp)) fun _ => never_writeFile _
    · next hsize =>
        refine Never.bind (never_liftR (by simp)) fun _ => ?_
        dsimp only
        rw [if_neg hsize]
        exact Never.bind (never_liftR (by simp)) fun _ => never_writeFile _
  · refine Never.bind (never_liftR (by simp)) fun _ => ?_
    exact Never.bind (never_liftR (by simp)) fun _ => never_writeFile _
  · exact Never.throw (by simp)

theorem never_cacheXattrsContent (expected : Option Checksum) :
    Never Stop.Aborts (cacheXattrsContent lib e expected) := by
  rw [cacheXattrsContent]
  split
  · exact Never.throw (by simp)
  dsimp only
  split
  · exact Never.throw (by simp)
  refine Never.bind (never_liftR (by simp)) fun _ => ?_
  split
  · exact Never.throw (by simp)
  · exact Never.bind (Never.update _) fun _ => Never.pure _

theorem never_ensureNoPendingXattrs : Never Stop.Aborts ensureNoPendingXattrs := by
  refine Never.read fun imp => ?_
  split
  · exact Never.throw (by simp)
  · exact Never.pure _

theorem never_processFileXattrsLink : Never Stop.Aborts (processFileXattrsLink lib e c) := by
  refine Never.bind never_ensureNoPendingXattrs fun _ => ?_
  dsimp only
  split
  · refine Never.bind (never_liftR (by simp)) fun _ => ?_
    exact Never.bind (never_liftR (by simp)) fun _ => Never.update _
  · exact Never.bind (never_cacheXattrsContent _) fun _ => Never.update _
  · exact Never.bind (Never.throw (by simp)) fun _ => Never.update _

theorem never_processXattrRef : Never Stop.Aborts (processXattrRef e c) := by
  refine Never.bind never_ensureNoPendingXattrs fun _ => ?_
  split
  · exact Never.throw (by simp)
  · refine Never.bind (never_liftR (by simp)) fun _ => ?_
    refine Never.bind (never_liftR (by simp)) fun _ => ?_
    exact Never.bind (never_liftR (by simp)) fun _ => Never.update _

theorem never_processSplitXattrsContent : Never Stop.Aborts (processSplitXattrsContent lib e) := by
  refine Never.bind (never_liftR (by simp)) fun _ => ?_
  refine Never.bind (never_liftR (by simp)) fun _ => ?_
  exact Never.bind (never_cacheXattrsContent _) fun _ => Never.pure _

theorem never_trackImported : Never Stop.Aborts (trackImported c) := by
  refine Never.read fun imp => ?_
  split
  · refine Never.bind (Never.update _) fun _ => ?_
    split
    · exact Never.throw (by simp)
    · exact Never.pure _
  · exact Never.pure _

-- ── Metadata objects ──────────────────────────────────────────────────────────

/-- A checked write whose result is compared with the expected checksum once more. -/
theorem not_fails_assertEq {x : RepoM Checksum} (hx : Never Stop.Aborts x)
    (hok : ∀ r a r', x r = .ok a r' → a = c) (imp : Importer) :
    ¬ Fails Stop.Aborts (do
      let actual ← onRepo x
      assertEq actual c : ImportM Unit) imp := by
  rw [fails_bind_iff]
  rintro (h | ⟨a, imp', ha, h⟩)
  · exact never_onRepo hx imp h
  · obtain ⟨r, hr, _⟩ := onRepo_ok ha
    rw [assertEq, if_pos (hok _ _ _ hr)] at h
    exact Never.pure _ _ h

/-- **`import_metadata` aborts on damaged dirtrees and dirmetas only.** -/
theorem fails_importMetadata_iff {ty : ObjectType} :
    Fails Stop.Aborts (importMetadata lib e c ty) imp ↔
      (ty = .dirTree ∨ ty = .dirMeta) ∧ Damaged e := by
  cases ty with
  | dirTree =>
      rw [importMetadata, fails_liftR_bind_iff, refuses_entryToVariant_iff]
      have hrest : ∀ v, ¬ Fails Stop.Aborts (do
          let actual ← onRepo (Repo.writeDirtree lib (some c) v)
          assertEq actual c : ImportM Unit) imp := fun v =>
        not_fails_assertEq (never_checkedWrite _ _ _ _)
          (fun _ _ _ h => (Repo.writeDirtree_ok h).2.1) imp
      simp [hrest]
  | dirMeta =>
      rw [importMetadata, fails_liftR_bind_iff, refuses_entryToVariant_iff]
      have hrest : ∀ v, ¬ Fails Stop.Aborts (do
          let actual ← onRepo (Repo.writeDirmeta lib (some c) v)
          assertEq actual c : ImportM Unit) imp := fun v =>
        not_fails_assertEq (never_checkedWrite _ _ _ _)
          (fun _ _ _ h => (Repo.writeDirmeta_ok h).2.1) imp
      simp [hrest]
  | commit => simp [importMetadata]
  | commitMeta => simp [importMetadata]
  | file => simp [importMetadata]

-- ── One entry ─────────────────────────────────────────────────────────────────

/-- A suffix stands for a dirtree or a dirmeta object. -/
theorem objtypeFromString_metadata {suffix : String} {ty : ObjectType}
    (h : objtypeFromString suffix = some ty) (hty : ty = .dirTree ∨ ty = .dirMeta) :
    suffix = objectSuffix ty := by
  rw [objtypeFromString] at h
  rcases hty with rfl | rfl
  · grind [objectSuffix]
  · grind [objectSuffix]

/-- The importer reads a commit, not a set of objects. -/
def Importer.InCommit (imp : Importer) : Prop := ∃ o, imp.data = .commit o

theorem fails_importObjectAs_iff {suffix : String} :
    Fails Stop.Aborts (importObjectAs lib e c suffix) imp ↔ imp.InCommit ∧
      ∃ ty, objtypeFromString suffix = some ty ∧ (ty = .dirTree ∨ ty = .dirMeta) ∧ Damaged e := by
  have hmeta : ∀ {t : String}, t ≠ "dirtree" → t ≠ "dirmeta" → ¬ (imp.InCommit ∧
      ∃ ty, objtypeFromString t = some ty ∧ (ty = .dirTree ∨ ty = .dirMeta) ∧ Damaged e) := by
    rintro t hne hne' ⟨_, ty, ht, hty, _⟩
    have hsfx := objtypeFromString_metadata ht hty
    rcases hty with rfl | rfl
    · exact hne hsfx
    · exact hne' hsfx
  rw [importObjectAs]
  split
  · next hs => simpa using hmeta (t := suffix) (by rw [hs]; decide) (by rw [hs]; decide)
  split
  · next hs =>
      refine iff_of_false ?_ (hmeta (t := suffix) (by rw [hs]; decide) (by rw [hs]; decide))
      exact Never.bind never_importContentObject (fun _ => never_trackImported) imp
  split
  · next hs =>
      refine iff_of_false ?_ (hmeta (t := suffix) (by rw [hs]; decide) (by rw [hs]; decide))
      exact Never.bind (never_cacheXattrsContent _) (fun _ => Never.pure _) imp
  split
  · next hs =>
      refine iff_of_false ?_ (hmeta (t := suffix) (by rw [hs]; decide) (by rw [hs]; decide))
      exact never_processFileXattrsLink imp
  split
  · next hs =>
      refine iff_of_false ?_ (hmeta (t := suffix) (by rw [hs]; decide) (by rw [hs]; decide))
      exact never_processXattrRef imp
  rw [fails_liftR_bind_iff]
  constructor
  · rintro (h | ⟨ty, hty, h⟩)
    · exact absurd h (by simp)
    rw [fails_bind_of_ok (get_run imp)] at h
    cases hdata : imp.data with
    | commit o =>
        rw [hdata] at h
        exact ⟨⟨o, hdata⟩, ty, okOr_eq_ok.mp hty, fails_importMetadata_iff.mp h⟩
    | objectSet imported =>
        rw [hdata] at h
        exact absurd h (by simp)
  · rintro ⟨⟨o, hdata⟩, ty, hty, h⟩
    refine .inr ⟨ty, okOr_eq_ok.mpr hty, ?_⟩
    rw [fails_bind_of_ok (get_run imp), hdata]
    exact fails_importMetadata_iff.mpr h

/-- The entry is read as a dirtree or dirmeta object under this path, and is damaged. -/
def DamagedObject (e : Entry) (p : Path) : Prop :=
  ∃ c ty, parseMetadataEntry p = .ok (c, ty) ∧ (ty = .dirTree ∨ ty = .dirMeta) ∧ Damaged e

theorem fails_importObject_iff {p : Path} :
    Fails Stop.Aborts (importObject lib e p) imp ↔ imp.InCommit ∧ DamagedObject e p := by
  rw [importObject, fails_liftR_bind_iff]
  constructor
  · rintro (h | ⟨⟨parent, name, suffix⟩, hpath, h⟩)
    · exact absurd h (by simp)
    dsimp only at h
    rw [fails_liftR_bind_iff] at h
    rcases h with h | ⟨x, hx, h⟩
    · exact absurd h (by simp)
    obtain ⟨hmode, ty, hty, hmeta⟩ := fails_importObjectAs_iff.mp h
    refine ⟨hmode, x, ty, ?_, hmeta⟩
    rw [parseMetadataEntry, hpath, bind_ok_eq]
    dsimp only
    rw [hx, bind_ok_eq, hty]
    rfl
  · rintro ⟨hmode, x, ty, hparse, hmeta⟩
    obtain ⟨⟨parent, name, suffix⟩, hpath, hrest⟩ := result_bind_eq_ok.mp hparse
    obtain ⟨x', hx, hrest'⟩ := result_bind_eq_ok.mp hrest
    obtain ⟨ty', hty, heq⟩ := result_bind_eq_ok.mp hrest'
    injection heq with heq
    injection heq with hx' hty'
    subst hx' hty'
    refine .inr ⟨_, hpath, ?_⟩
    dsimp only
    rw [fails_liftR_bind_iff]
    exact .inr ⟨x', hx, fails_importObjectAs_iff.mpr ⟨hmode, ty', okOr_eq_ok.mp hty, hmeta⟩⟩

/-- An item of the import loop is a damaged metadata object. -/
def DamagedItem (item : Except String (Entry × Path)) : Prop :=
  ∃ e path p, item = .ok (e, path) ∧ stripPrefix [Component.normal "objects"] path = some p ∧
    DamagedObject e p

/-- **One round of the loop aborts on damaged metadata objects only.** -/
theorem fails_importEntry_iff {item : Except String (Entry × Path)} :
    Fails Stop.Aborts (importEntry lib item) imp ↔ imp.InCommit ∧ DamagedItem item := by
  rcases item with m | ⟨e, path⟩
  · simp [importEntry, DamagedItem]
  rw [importEntry]
  cases hp : stripPrefix [Component.normal "objects"] path with
  | some p =>
      dsimp only
      rw [fails_importObject_iff]
      simp [DamagedItem, hp]
  | none =>
      dsimp only
      refine iff_of_false ?_ (by simp [DamagedItem, hp])
      split
      · exact never_processSplitXattrsContent imp
      · exact Never.pure _ imp

-- ── Object sets ───────────────────────────────────────────────────────────────

theorem fails_withImporter_iff {α : Type} {B : Stop → Prop} {mk : Repo → Importer} {x : ImportM α}
    {r : Repo} : Fails B (withImporter mk x) r ↔ Fails B x (mk r) := by
  cases hx : x (mk r) with
  | ok a out => simp [not_fails_of_ok hx, not_fails_of_ok (withImporter_ok hx)]
  | error stop out =>
      have hrun : withImporter mk x r = .error stop out.repo := by rw [withImporter, hx]
      rw [fails_of_error hx, fails_of_error hrun]

theorem fails_autoTransaction_iff {α : Type} {B : Stop → Prop} {body : RepoM α} {r : Repo} :
    Fails B (Repo.autoTransaction body) r ↔ Fails B body r := by
  cases hx : body r with
  | ok a r' =>
      have hrun : Repo.autoTransaction body r = .ok a r' := by rw [Repo.autoTransaction, hx]
      simp [not_fails_of_ok hx, not_fails_of_ok hrun]
  | error stop r' =>
      have hrun : Repo.autoTransaction body r = .error stop
          { r with partialCommits := r'.partialCommits, trace := r'.trace } := by
        rw [Repo.autoTransaction, hx]
      rw [fails_of_error hx, fails_of_error hrun]

/-- **`import_tar_objects` returns**, whatever the stream holds. -/
theorem importTarObjects_returns (src : Stream) (r : Repo) :
    ReturnsResult (importTarObjects lib src) r := by
  rw [returnsResult_iff, importTarObjects, fails_autoTransaction_iff, fails_withImporter_iff,
    fails_bind_iff]
  rintro (h | ⟨u, imp, himport, h⟩)
  · rw [importObjects, importObjectsImpl, fails_forM_iff] at h
    obtain ⟨pre, item, post, imp, _, hpre, hitem⟩ := h
    obtain ⟨S, hS, _⟩ := importObjectsImpl_tracks (S := ∅) rfl hpre
    obtain ⟨⟨o, ho⟩, _⟩ := fails_importEntry_iff.mp hitem
    rw [hS] at ho
    exact absurd ho (by simp)
  · obtain ⟨S, hS, _⟩ := importObjectsImpl_tracks (S := ∅) rfl himport
    exact not_fails_of_ok (finishImportObjectSet_run hS) h

-- ── Commits ───────────────────────────────────────────────────────────────────

variable {remote : Option String} {repo : Repo} {commit : Commit}

theorem never_writePartialCommit : Never Stop.Aborts (writePartialCommit lib c commit) := by
  intro imp
  rw [writePartialCommit, fails_bind_iff]
  rintro (h | ⟨_, imp₁, _, h⟩)
  · exact never_onRepo (Never.update _) imp h
  · exact not_fails_assertEq (never_checkedWrite _ _ _ _)
      (fun _ _ _ h => (Repo.writeCommit_ok h).2.1) imp₁ h

/-- A commit is written under its own checksum only. -/
theorem writePartialCommit_checksum {out : Importer} {u : Unit}
    (h : writePartialCommit lib c commit imp = .ok u out) : lib.commitChecksum commit = c := by
  obtain ⟨_, r₁, _, h₁⟩ := onRepo_bind_ok h
  obtain ⟨_, r₂, hwrite, _⟩ := onRepo_bind_ok h₁
  exact (Repo.writeCommit_ok hwrite).1

/-- The entry after the commit is damaged, and is read: as the detached metadata of a commit
    that is to be verified, or as any metadata object of a commit that has its checksum. -/
def DamagedNext (lib : Libostree) (remote : Option String) (c : Checksum) (commit : Commit)
    (e : Entry) (path : Path) : Prop :=
  Damaged e ∧ ∃ x ty, parseMetadataEntry path = .ok (x, ty) ∧
    ((remote.isSome ∧ ty = .commitMeta ∧ x = c) ∨
      remote = none ∧ lib.commitChecksum commit = c ∧
        (ty = .commitMeta ∨ ty = .dirTree ∨ ty = .dirMeta))

theorem fails_importVerified_iff {r : String} {x : Checksum} {ty : ObjectType} :
    Fails Stop.Aborts (importVerified lib r c commit e x ty) imp ↔
      ty = .commitMeta ∧ x = c ∧ Damaged e := by
  rw [importVerified]
  split
  · next hty => simp [hty]
  split
  · next hx => simp [hx]
  next hty hx =>
  rw [fails_liftR_bind_iff, refuses_entryToVariant_iff]
  have hrest : ∀ d : Dict, Never Stop.Aborts (do
      onRepo (Repo.signatureVerifyCommitData lib r (lib.commit.toBytes commit)
        (lib.dict.toBytes d))
      writePartialCommit lib c commit
      onRepo (Repo.writeCommitDetachedMetadata c d) : ImportM Unit) := by
    intro d
    refine Never.bind (never_onRepo ?_) fun _ => Never.bind never_writePartialCommit fun _ =>
      never_onRepo (Never.update _)
    rw [Repo.signatureVerifyCommitData]
    split
    · exact Never.update _
    · exact Never.throw (by simp)
  rw [not_not] at hty hx
  constructor
  · rintro (h | ⟨d, _, h⟩)
    · exact ⟨hty, hx, h⟩
    · exact absurd h (hrest d imp)
  · rintro ⟨_, _, h⟩
    exact .inl h

theorem fails_importNextObject_iff {path : Path} (hmode : imp.InCommit) :
    Fails Stop.Aborts (importNextObject lib c e path) imp ↔ Damaged e ∧
      ∃ x ty, parseMetadataEntry path = .ok (x, ty) ∧
        (ty = .commitMeta ∨ ty = .dirTree ∨ ty = .dirMeta) := by
  rw [importNextObject, fails_liftR_bind_iff]
  constructor
  · rintro (h | ⟨⟨x, ty⟩, hparse, h⟩)
    · exact absurd h (by simp)
    dsimp only at h
    have hobject : Fails Stop.Aborts (importObject lib e path) imp → Damaged e ∧
        ∃ x ty, parseMetadataEntry path = .ok (x, ty) ∧
          (ty = .commitMeta ∨ ty = .dirTree ∨ ty = .dirMeta) := by
      intro hobj
      obtain ⟨_, x', ty', hparse', hty', hdamaged⟩ := fails_importObject_iff.mp hobj
      exact ⟨hdamaged, x', ty', hparse', .inr hty'⟩
    cases ty with
    | commitMeta =>
        rw [fails_liftR_bind_iff, refuses_entryToVariant_iff] at h
        rcases h with h | ⟨d, _, h⟩
        · exact ⟨h, x, .commitMeta, hparse, .inl rfl⟩
        · exact absurd h (never_onRepo (Never.update _) imp)
    | commit => exact hobject h
    | dirTree => exact hobject h
    | dirMeta => exact hobject h
    | file => exact hobject h
  · rintro ⟨hdamaged, x, ty, hparse, hty⟩
    refine .inr ⟨(x, ty), hparse, ?_⟩
    rcases hty with rfl | rfl | rfl
    · dsimp only
      rw [fails_liftR_bind_iff]
      exact .inl (refuses_entryToVariant_iff.mpr hdamaged)
    · exact fails_importObject_iff.mpr ⟨hmode, x, _, hparse, .inl rfl, hdamaged⟩
    · exact fails_importObject_iff.mpr ⟨hmode, x, _, hparse, .inr rfl, hdamaged⟩

/-- **The head of a commit aborts on a damaged entry after the commit only.** -/
theorem fails_importHead_iff {path : Path} {next : Checksum × ObjectType}
    (hnext : parseMetadataEntry path = .ok next) :
    Fails Stop.Aborts (importHead lib c commit e path next) (.newForCommit remote repo) ↔
      DamagedNext lib remote c commit e path := by
  have hread : ∀ {P : Checksum → ObjectType → Prop},
      (∃ x ty, parseMetadataEntry path = .ok (x, ty) ∧ P x ty) ↔ P next.1 next.2 := by
    intro P
    rw [hnext]
    constructor
    · rintro ⟨x, ty, heq, h⟩
      injection heq with heq
      rw [heq]
      exact h
    · intro h
      exact ⟨next.1, next.2, rfl, h⟩
  rw [importHead, fails_bind_of_ok (get_run _), DamagedNext, hread]
  cases remote with
  | some r =>
      dsimp only [Importer.newForCommit]
      rw [fails_importVerified_iff]
      simp
      tauto
  | none =>
      dsimp only [Importer.newForCommit]
      rw [importUnverified, fails_bind_iff]
      have hmode : ∀ {out : Importer} {u : Unit},
          writePartialCommit lib c commit (.newForCommit none repo) = .ok u out → out.InCommit :=
        fun h => ⟨none, (writePartialCommit_adds h).2⟩
      constructor
      · rintro (h | ⟨u, out, hwrite, h⟩)
        · exact absurd h (never_writePartialCommit _)
        obtain ⟨hdamaged, hty⟩ := (fails_importNextObject_iff (hmode hwrite)).mp h
        exact ⟨hdamaged, .inr ⟨rfl, writePartialCommit_checksum hwrite, hread.mp hty⟩⟩
      · rintro ⟨hdamaged, ⟨hsome, _⟩ | ⟨_, hsum, hty⟩⟩
        · exact absurd hsome (by simp)
        have hwrite := writePartialCommit_run hsum (.newForCommit none repo)
        refine .inr ⟨_, _, hwrite, ?_⟩
        exact (fails_importNextObject_iff (hmode hwrite)).mpr ⟨hdamaged, hread.mpr hty⟩

/-- The import of a commit comes to a damaged metadata object: the first object file is a
    damaged commit; or the commit can be read, and the object file after it is damaged and is
    read; or what is in front of a damaged dirtree or dirmeta is imported without an error. -/
inductive ComesToDamaged (lib : Libostree) (src : Stream) (remote : Option String)
    (repo : Repo) : Prop where
  | commit {e : Entry} {path : Path} {rest : List (Except String (Entry × Path))}
      {c : Checksum} (hents : filterEntries src = .ok (e, path) :: rest)
      (hparse : parseMetadataEntry path = .ok (c, .commit)) (hdamaged : Damaged e)
  | next {commitEnt e : Entry} {commitPath path : Path}
      {rest : List (Except String (Entry × Path))} {c : Checksum} {commit : Commit}
      (hents : filterEntries src = .ok (commitEnt, commitPath) :: .ok (e, path) :: rest)
      (hparse : parseMetadataEntry commitPath = .ok (c, .commit))
      (hcommit : entryToVariant lib.commit commitEnt c = .ok commit)
      (hdamaged : DamagedNext lib remote c commit e path)
  | later {before after : Stream} {e : Entry} {path p : Path} {imp : Importer}
      (hsrc : src = before ++ .ok e :: after)
      (himport : importCommit lib before (.newForCommit remote repo) = .ok ⟨⟩ imp)
      (hents : filterEntry e = some (e, path))
      (hpath : stripPrefix [Component.normal "objects"] path = some p)
      (hdamaged : DamagedObject e p)

/-- A commit that could be decoded is a regular file. -/
theorem entryType_of_variant {α : Type} {codec : Codec α} {desc : String} {v : α}
    (h : entryToVariant codec e desc = .ok v) : e.header.entryType = .regular := by
  obtain ⟨size, hsize, _⟩ := result_bind_eq_ok.mp h
  rw [validateMetadataHeader] at hsize
  by_contra hty
  rw [if_pos hty] at hsize
  exact absurd hsize (by simp)

theorem filterEntry_fst {e' : Entry} {path : Path} (h : filterEntry e = some (e', path)) :
    e = e' := by
  rw [filterEntry] at h
  split at h
  · exact absurd h (by simp)
  split at h
  · exact absurd h (by simp)
  split at h
  · exact absurd h (by simp)
  · injection h with h
    injection h

/-- What a whole import is made of. -/
theorem importCommit_eq_ok {s : Stream} {out : Importer} {u : Unit}
    (h : importCommit lib s (.newForCommit remote repo) = .ok u out) :
    ∃ commitEnt commitPath nextEnt nextPath rest next x commit,
      filterEntries s = .ok (commitEnt, commitPath) :: .ok (nextEnt, nextPath) :: rest ∧
      parseMetadataEntry nextPath = .ok next ∧
      parseMetadataEntry commitPath = .ok (x, .commit) ∧
      entryToVariant lib.commit commitEnt x = .ok commit ∧
      (do
        importHead lib x commit nextEnt nextPath next
        modify fun imp => { imp with data := .commit (some x) }
        importObjectsImpl lib rest : ImportM Unit) (.newForCommit remote repo) = .ok u out := by
  rcases @importCommit_head_cases lib s with ⟨stop, hstop⟩ | ⟨commitEnt, commitPath, nextEnt,
    nextPath, rest, next, x, commit, hents, hnext, hparse, hcommit, hrun⟩
  · rw [hstop] at h
    exact absurd h (by simp)
  · exact ⟨commitEnt, commitPath, nextEnt, nextPath, rest, next, x, commit, hents, hnext, hparse,
      hcommit, (hrun remote repo).symm.trans h⟩

/-- **After a stream that can be imported, more entries go through the loop.** -/
theorem importCommit_append {s t : Stream} {out : Importer}
    (h : importCommit lib s (.newForCommit remote repo) = .ok ⟨⟩ out) :
    (∃ x, out.data = .commit (some x)) ∧ importCommit lib (s ++ t) (.newForCommit remote repo)
      = importObjectsImpl lib (filterEntries t) out := by
  obtain ⟨commitEnt, commitPath, nextEnt, nextPath, rest, next, x, commit, hents, hnext, hparse,
    hcommit, hrun⟩ := importCommit_eq_ok h
  obtain ⟨_, s₁, hhead, h₁⟩ := bind_ok hrun
  obtain ⟨_, s₂, hset, hloop⟩ := bind_ok h₁
  injection hset with _ hset
  subst hset
  refine ⟨⟨_, (importObjectsImpl_adds (o := some x) rfl hloop).2⟩, ?_⟩
  have hents' : filterEntries (s ++ t)
      = .ok (commitEnt, commitPath) :: .ok (nextEnt, nextPath) :: (rest ++ filterEntries t) := by
    rw [filterEntries, List.filterMap_append, ← filterEntries, ← filterEntries, hents]
    rfl
  rw [importCommit_eq_head hents' hnext hparse (entryType_of_variant hcommit) hcommit,
    bind_of_ok hhead, bind_of_ok (modify_run _ _), importObjectsImpl, forM_append]
  exact bind_of_ok hloop

/-- An entry of the filtered stream comes from an entry of the stream. -/
theorem filterEntries_split {s : Stream} {path : Path}
    {pre post : List (Except String (Entry × Path))}
    (h : filterEntries s = pre ++ .ok (e, path) :: post) :
    ∃ before after, s = before ++ .ok e :: after ∧ filterEntries before = pre ∧
      filterEntry e = some (e, path) := by
  rw [filterEntries, List.filterMap_eq_append_iff] at h
  obtain ⟨l₁, l₂, rfl, rfl, hl₂⟩ := h
  obtain ⟨skipped, item, after, rfl, hskip, hitem, rfl⟩ := List.filterMap_eq_cons_iff.mp hl₂
  rcases item with m | e'
  · exact absurd hitem (by simp)
  have hentry : filterEntry e' = some (e, path) := by
    rw [Option.map_eq_some_iff] at hitem
    obtain ⟨p, hp, heq⟩ := hitem
    injection heq with heq
    rw [hp, heq]
  obtain rfl : e' = e := filterEntry_fst hentry
  refine ⟨l₁ ++ skipped, after, by simp, ?_, hentry⟩
  rw [filterEntries, List.filterMap_append, List.filterMap_eq_nil_iff.mpr hskip, List.append_nil]

/-- **The import of a commit aborts where it comes to a damaged metadata object**, and nowhere
    else. -/
theorem fails_importCommit_iff {src : Stream} :
    Fails Stop.Aborts (importCommit lib src) (.newForCommit remote repo) ↔
      ComesToDamaged lib src remote repo := by
  have hfresh : assertFresh (.newForCommit remote repo) = .ok ⟨⟩ (.newForCommit remote repo) := rfl
  constructor
  · intro h
    rw [importCommit, fails_bind_of_ok hfresh, fails_liftR_bind_iff] at h
    rcases h with h | ⟨⟨⟨commitEnt, commitPath⟩, ents⟩, hfirst, h⟩
    · exact absurd h (by simp)
    dsimp only at h
    split at h
    · exact absurd h (by simp)
    next hregular =>
    rw [not_not] at hregular
    rw [fails_liftR_bind_iff] at h
    rcases h with h | ⟨⟨x, ty⟩, hparse, h⟩
    · exact absurd h (by simp)
    dsimp only at h
    split at h
    · exact absurd h (by simp)
    next hty =>
    rw [not_not] at hty
    subst hty
    rw [fails_liftR_bind_iff, refuses_entryToVariant_iff] at h
    rcases h with h | ⟨commit, hcommit, h⟩
    · exact .commit (nextEntry_ok hfirst) hparse h
    rw [fails_liftR_bind_iff] at h
    rcases h with h | ⟨⟨⟨nextEnt, nextPath⟩, rest⟩, hsecond, h⟩
    · exact absurd h (by simp)
    dsimp only at h
    have hents := nextEntry_ok hfirst
    rw [nextEntry_ok hsecond] at hents
    rw [fails_liftR_bind_iff] at h
    rcases h with h | ⟨next, hnext, h⟩
    · exact absurd h (by simp)
    rw [fails_bind_iff] at h
    rcases h with h | ⟨u, s₁, hhead, h⟩
    · exact .next hents hparse hcommit ((fails_importHead_iff hnext).mp h)
    -- the head was imported: the failing entry is one of the loop
    rw [fails_bind_of_ok (modify_run _ _), importObjectsImpl, fails_forM_iff] at h
    obtain ⟨pre, item, post, s₂, rfl, hpre, hitem⟩ := h
    obtain ⟨_, e, path, p, rfl, hpath, hdamaged⟩ := fails_importEntry_iff.mp hitem
    have hsplit : filterEntries src = (.ok (commitEnt, commitPath) :: .ok (nextEnt, nextPath) :: pre)
        ++ .ok (e, path) :: post := hents
    obtain ⟨before, after, rfl, hbefore, hentry⟩ := filterEntries_split hsplit
    have himport : importCommit lib before (.newForCommit remote repo) = .ok ⟨⟩ s₂ := by
      rw [importCommit_eq_head hbefore hnext hparse hregular hcommit, bind_of_ok hhead,
        bind_of_ok (modify_run _ _)]
      exact hpre
    exact .later rfl himport hentry hpath hdamaged
  · intro h
    cases h with
    | commit hents hparse hdamaged =>
      rw [importCommit, fails_bind_of_ok hfresh, hents, nextEntry, fails_liftR_bind_iff]
      refine .inr ⟨_, rfl, ?_⟩
      dsimp only
      rw [if_neg (by simp [hdamaged.1]), hparse, fails_liftR_bind_iff]
      refine .inr ⟨_, rfl, ?_⟩
      dsimp only
      rw [if_neg (by simp), fails_liftR_bind_iff]
      exact .inl (refuses_entryToVariant_iff.mpr hdamaged)
    | next hents hparse hcommit hdamaged =>
      obtain ⟨x, ty, hnext, _⟩ := hdamaged.2
      rw [fails_congr (importCommit_eq_head hents hnext hparse (entryType_of_variant hcommit)
        hcommit remote repo), fails_bind_iff]
      exact .inl ((fails_importHead_iff hnext).mpr hdamaged)
    | @later before after e path p imp hsrc himport hents hpath hdamaged =>
      subst hsrc
      obtain ⟨⟨x, hx⟩, hrun⟩ := importCommit_append (t := .ok e :: after) himport
      rw [fails_congr hrun, importObjectsImpl, fails_forM_iff]
      refine ⟨[], .ok (e, path), filterEntries after, imp, ?_, rfl, ?_⟩
      · simp [filterEntries, hents]
      · exact fails_importEntry_iff.mpr ⟨⟨some x, hx⟩, e, path, p, rfl, hpath, hdamaged⟩

theorem fails_importTar_iff {src : Stream} :
    Fails Stop.Aborts (importTar lib src remote) repo ↔ ComesToDamaged lib src remote repo := by
  rw [importTar, fails_bind_iff, fails_autoTransaction_iff, fails_withImporter_iff, fails_bind_iff,
    fails_importCommit_iff]
  constructor
  · rintro ((h | ⟨u, out, himport, h⟩) | ⟨x, r, _, h⟩)
    · exact h
    · obtain ⟨⟨x, hx⟩, _⟩ := importCommit_append (t := []) himport
      rw [finishImportCommit, fails_bind_of_ok (get_run out), hx] at h
      exact absurd h (Never.pure x out)
    · exact absurd h (Never.bind (Never.update _) (fun _ => Never.pure x) r)
  · exact fun h => .inl (.inl h)

end Objects

-- ── Both imports ──────────────────────────────────────────────────────────────

/-- **Damaged archives are reported unless a commit is imported and a metadata object is
    damaged.**  For every stream of entries and read errors, the body of each entry as long as
    it may be, and every repository: `import_tar` and `import_tar_objects` return exactly when
    the import of the commit does not come to a metadata object whose body has not the length
    that its header announces.  Content objects, xattrs and object sets are never asserted
    on. -/
theorem import_reports_iff (lib : Libostree) (src : Stream) (remote : Option String)
    (repo : Repo) :
    (ReturnsResult (importTar lib src remote) repo ∧ ReturnsResult (importTarObjects lib src) repo) ↔
      ¬ ComesToDamaged lib src remote repo := by
  rw [returnsResult_iff, fails_importTar_iff]
  exact and_iff_left (importTarObjects_returns src repo)

/-- A commit object of seven bytes in an archive that ends after three of them. -/
def cutCommitEntry : Entry :=
  { dataEntry "b8627e3ef0f255a322d2bd9610cfaaacc8f122b7f8d17c0e7e3caafa160f9fc7" "commit"
      [1, 2, 3] with
    header := { entryType := .regular, uid := 0, gid := 0, mode := 0o644, size := 7 } }

/-- An archive that ends inside its commit object is asserted on. -/
theorem cut_commit_aborts :
    ¬ ReturnsResult (importTar sampleTables.lib [.ok cutCommitEntry] none) {} := by
  have hc : IsSha256 "b8627e3ef0f255a322d2bd9610cfaaacc8f122b7f8d17c0e7e3caafa160f9fc7" := by decide
  have hentry : filterEntry cutCommitEntry = some (cutCommitEntry, objectsPath
      "b8627e3ef0f255a322d2bd9610cfaaacc8f122b7f8d17c0e7e3caafa160f9fc7" "commit") :=
    filterEntry_object rfl (by decide)
  have hdamaged : Damaged cutCommitEntry := by
    rw [Damaged]
    decide
  rw [returnsResult_iff, not_not, fails_importTar_iff]
  have hents : filterEntries [.ok cutCommitEntry] = [.ok (cutCommitEntry, objectsPath
      "b8627e3ef0f255a322d2bd9610cfaaacc8f122b7f8d17c0e7e3caafa160f9fc7" "commit")] := by
    simp [filterEntries, hentry]
  exact .commit hents (parseMetadataEntry_objectsPath hc .commit _ rfl) hdamaged

end OstreeExt.Tar
