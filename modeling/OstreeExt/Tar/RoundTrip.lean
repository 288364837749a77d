import OstreeExt.Tar.Walk

/-!
# Exporting and importing a commit

`import_tar` on the stream of `export_commit`.  The head of the stream (the commit object
and its detached metadata) is handled here; the rest is the walk.
-/

namespace OstreeExt.Tar

open OstreeExt Exec Objects

/-- A commit that is stored completely and intact, with objects of the sizes that the
    importer accepts. -/
structure StoredCommit (lib : Libostree) (src : Repo) (c : Checksum) (commit : Commit) : Prop where
  stored : src.commits[c]? = some commit
  checksum : lib.commitChecksum commit = c
  decodes : lib.commit.ofBytes (lib.commit.toBytes commit) = commit
  size : (lib.commit.toBytes commit).length ≤ maxMetadataSize
  commitmeta : ∀ d, src.commitmetas[c]? = some d → lib.dict.ofBytes (lib.dict.toBytes d) = d ∧
    (lib.dict.toBytes d).length ≤ maxMetadataSize
  intact : ∀ ty x, src.CommitReaches commit ty x → Intact lib src.toObjects ty x
  xattrs : XattrsDistinct lib src.toObjects (fun f => src.CommitReaches commit .file f)

-- ── The head of the stream ────────────────────────────────────────────────────

/-- The entries of the commit object and of its detached metadata. -/
def headEntries (lib : Libostree) (c : Checksum) (commit : Commit) (cm : Option Dict) :
    List Entry :=
  dataEntry c "commit" (lib.commit.toBytes commit) ::
    (cm.map fun d => dataEntry c "commitmeta" (lib.dict.toBytes d)).toList

/-- The repository after the commit object and its detached metadata were written. -/
def headRepo (c : Checksum) (commit : Commit) (cm : Option Dict) (r : Repo) : Repo :=
  let r := Repo.record (.markedPartial c true)
    { r with partialCommits := insert c r.partialCommits }
  let r := Repo.record (.wrote .commit c) { r with commits := r.commits.insertIfNew c commit }
  match cm with
  | none => r
  | some d =>
      Repo.record (.wrote .commitMeta c) { r with commitmetas := r.commitmetas.insert c d }

section HeadRepo

variable (c : Checksum) (commit : Commit) (cm : Option Dict) (r : Repo)

@[simp] theorem headRepo_commits :
    (headRepo c commit cm r).commits = r.commits.insertIfNew c commit := by
  cases cm <;> rfl

@[simp] theorem headRepo_dirtrees : (headRepo c commit cm r).dirtrees = r.dirtrees := by
  cases cm <;> rfl

@[simp] theorem headRepo_dirmetas : (headRepo c commit cm r).dirmetas = r.dirmetas := by
  cases cm <;> rfl

@[simp] theorem headRepo_files : (headRepo c commit cm r).files = r.files := by
  cases cm <;> rfl

/-- The detached metadata of the commit afterwards. -/
theorem headRepo_commitmetas :
    (headRepo c commit cm r).commitmetas[c]? = cm.or r.commitmetas[c]? := by
  cases cm with
  | none => rfl
  | some d => exact (Std.ExtTreeMap.lookup_insert _ _ _ _).trans (if_pos rfl)

end HeadRepo

/-- Filtering an undamaged archive. -/
theorem filterEntries_ok (es : List Entry) :
    filterEntries (es.map Except.ok) = (es.filterMap filterEntry).map Except.ok := by
  unfold filterEntries
  rw [List.filterMap_map, List.map_filterMap]
  rfl

/-- An object path as the filter passes it on. -/
def objectsPath (c : Checksum) (sfx : String) : Path :=
  [.normal "objects", .normal (csumFirst c), .normal (objectFileName c sfx)]

theorem filterEntry_dataEntry (c : Checksum) (sfx : String) (data : Bytes) :
    filterEntry (dataEntry c sfx data) = some (dataEntry c sfx data, objectsPath c sfx) :=
  filterEntry_object rfl (by simp [dataEntry, defaultHeader])

theorem parseMetadataEntry_objectsPath {c : Checksum} (hc : IsSha256 c) (ty : ObjectType)
    (sfx : String) (hsfx : sfx = objectSuffix ty) :
    parseMetadataEntry (objectsPath c sfx) = .ok (c, ty) := by
  rw [hsfx]
  exact parseMetadataEntry_objectName hc [.normal "objects"] ty

section Head

variable {lib : Libostree} {src : Repo} {c : Checksum} {commit : Commit}

/-- The commit object is written, marked as partial. -/
theorem writePartialCommit_run (hsum : lib.commitChecksum commit = c) (imp : Importer) :
    writePartialCommit lib c commit imp
      = .ok ⟨⟩ { imp with repo := headRepo c commit none imp.repo } := by
  have hmark : onRepo (Repo.markCommitPartial c true) imp = .ok ⟨⟩ { imp with
      repo := Repo.record (.markedPartial c true)
        { imp.repo with partialCommits := insert c imp.repo.partialCommits } } := rfl
  unfold writePartialCommit
  rw [bind_of_ok hmark, bind_of_ok (onRepo_run (Repo.writeCommit_run hsum _)), assertEq_self]
  rfl

/-- Detached metadata after the commit is written for it. -/
theorem importNextObject_commitmeta (hc : IsSha256 c) {d : Dict}
    (hdec : lib.dict.ofBytes (lib.dict.toBytes d) = d)
    (hmax : (lib.dict.toBytes d).length ≤ maxMetadataSize) (imp : Importer) :
    importNextObject lib c (dataEntry c "commitmeta" (lib.dict.toBytes d))
        (objectsPath c "commitmeta") imp
      = .ok ⟨⟩ { imp with repo := Repo.record (.wrote .commitMeta c) { imp.repo with
          commitmetas := imp.repo.commitmetas.insert c d } } := by
  unfold importNextObject
  rw [parseMetadataEntry_objectsPath hc .commitMeta "commitmeta" rfl, bind_of_ok (liftR_ok _ _)]
  simp only
  rw [entryToVariant_ok lib.dict rfl rfl hmax, bind_of_ok (liftR_ok _ _)]
  simp only [dataEntry, hdec]
  rfl

/-- Without detached metadata the object after the commit is imported as in the loop. -/
theorem importNextObject_dirmeta {m : DirMeta} {x : Checksum} (hx : IsSha256 x) (imp : Importer) :
    importNextObject lib c (dataEntry x "dirmeta" (lib.dirmeta.toBytes m))
        (objectsPath x "dirmeta") imp
      = readEntry lib (dataEntry x "dirmeta" (lib.dirmeta.toBytes m)) imp := by
  unfold importNextObject
  rw [parseMetadataEntry_objectsPath hx .dirMeta "dirmeta" rfl, bind_of_ok (liftR_ok _ _)]
  simp only
  rw [readEntry_object hx (by decide) rfl (by simp [dataEntry, defaultHeader])]
  exact congrFun (importObject_objectName hx (by decide) _ [.normal "objects"]) imp

/-- Up to the object after the commit, `import_commit` only reads. -/
theorem importCommit_start (hs : StoredCommit lib src c commit) {pre : List Entry}
    (hpre : ∀ e ∈ pre, filterEntry e = none) {next : Entry} {p : Path}
    (hnext : filterEntry next = some (next, p)) {info : Checksum × ObjectType}
    (hinfo : parseMetadataEntry p = .ok info) (es : List Entry) (r : Repo) :
    importCommit lib ((pre ++ dataEntry c "commit" (lib.commit.toBytes commit) :: next ::
        es).map Except.ok) (Importer.newForCommit none r)
      = (do
          importUnverified lib c commit next p
          modify fun imp => { imp with data := .commit (some c) }
          forM es (readEntry lib) : ImportM Unit) (Importer.newForCommit none r) := by
  have hc : IsSha256 c := by rw [← hs.checksum]; exact lib.sha256_isSha256 _
  have hents : filterEntries ((pre ++ dataEntry c "commit" (lib.commit.toBytes commit) ::
      next :: es).map Except.ok)
      = .ok (dataEntry c "commit" (lib.commit.toBytes commit), objectsPath c "commit") ::
        .ok (next, p) :: filterEntries (es.map Except.ok) := by
    rw [filterEntries_ok, filterEntries_ok, List.filterMap_append,
      List.filterMap_eq_nil_iff.mpr hpre, List.nil_append,
      List.filterMap_cons_some (filterEntry_dataEntry _ _ _), List.filterMap_cons_some hnext]
    rfl
  have hdecode : entryToVariant lib.commit (dataEntry c "commit" (lib.commit.toBytes commit)) c
      = .ok commit := by
    rw [entryToVariant_ok lib.commit rfl rfl hs.size]
    simp only [dataEntry, hs.decodes]
  have hfresh : assertFresh (Importer.newForCommit none r)
      = .ok ⟨⟩ (Importer.newForCommit none r) := rfl
  unfold importCommit
  rw [bind_of_ok hfresh, hents]
  simp only [nextEntry]
  rw [bind_of_ok (liftR_ok _ _)]
  simp only
  rw [if_neg (by simp [dataEntry, defaultHeader]),
    parseMetadataEntry_objectsPath hc .commit "commit" rfl, bind_of_ok (liftR_ok _ _)]
  simp only
  rw [if_neg (by simp), hdecode, bind_of_ok (liftR_ok _ _), bind_of_ok (liftR_ok _ _)]
  simp only
  rw [hinfo, bind_of_ok (liftR_ok _ _), importObjects_entries]
  rfl

/-- **The head of an exported stream is read back**: what is left to import are the
    entries after the metadata of the root directory. -/
theorem importCommit_head (hs : StoredCommit lib src c commit) {m : DirMeta}
    (hm : IntactDirmeta lib src.toObjects commit.dirmeta m) {pre : List Entry}
    (hpre : ∀ e ∈ pre, filterEntry e = none) (es : List Entry) (r : Repo) :
    importCommit lib ((pre ++ (headEntries lib c commit src.commitmetas[c]? ++
        dataEntry commit.dirmeta "dirmeta" (lib.dirmeta.toBytes m) :: es)).map Except.ok)
        (Importer.newForCommit none r)
      = forM es (readEntry lib)
          { repo := Repo.record (.wrote .dirMeta commit.dirmeta)
              { headRepo c commit src.commitmetas[c]? r with
                dirmetas := r.dirmetas.insertIfNew commit.dirmeta m }
            remote := none
            data := .commit (some c) } := by
  have hc : IsSha256 c := by rw [← hs.checksum]; exact lib.sha256_isSha256 _
  have hmc : IsSha256 commit.dirmeta := by rw [← hm.2.1]; exact lib.sha256_isSha256 _
  cases hcm : src.commitmetas[c]? with
  | none =>
      refine (importCommit_start hs hpre (filterEntry_dataEntry _ _ _)
        (parseMetadataEntry_objectsPath hmc .dirMeta "dirmeta" rfl) es r).trans ?_
      unfold importUnverified
      rw [bind_assoc, bind_of_ok (writePartialCommit_run hs.checksum _)]
      rw [bind_of_ok ((importNextObject_dirmeta hmc _).trans
        (readEntry_dirmeta hm.2.1 hm.2.2.1 hm.2.2.2 (o := none) rfl)),
        bind_of_ok (modify_run _ _)]
      rfl
  | some d =>
      obtain ⟨hdec, hmax⟩ := hs.commitmeta d hcm
      refine (importCommit_start hs hpre (filterEntry_dataEntry _ _ _)
        (parseMetadataEntry_objectsPath hc .commitMeta "commitmeta" rfl) (_ :: es) r).trans ?_
      unfold importUnverified
      rw [bind_assoc, bind_of_ok (writePartialCommit_run hs.checksum _)]
      rw [bind_of_ok (importNextObject_commitmeta hc hdec hmax _), bind_of_ok (modify_run _ _),
        List.forM_cons,
        bind_of_ok (readEntry_dirmeta hm.2.1 hm.2.2.1 hm.2.2.2 (o := some c) rfl)]
      rfl

end Head

-- ── The writer up to the walk ─────────────────────────────────────────────────

/-- The entries of `write_repo_structure`. -/
def repoStructureEntries : List Entry :=
  repoStructureDirs.map (fun p => { path := tarPath p, header := defaultHeader .directory 0o755 0 })
    ++ [{ path := tarPath (repoPrefix ++ [.normal "config"]),
          header := defaultHeader .regular 0o644 repoConfig.toUTF8.toList.length,
          data := repoConfig.toUTF8.toList }]

theorem forM_emit {α : Type} (g : α → Entry) (l : List α) (w : TarWriter) :
    forM l (fun a => emit (g a)) w = .ok ⟨⟩ { w with out := w.out ++ l.map g } := by
  induction l generalizing w with
  | nil => rw [List.map_nil, List.append_nil]; rfl
  | cons a l ih =>
      rw [List.forM_cons, bind_of_ok (emit_run _ _), ih, List.map_cons]
      simp only [List.append_assoc, List.singleton_append]

theorem writeRepoStructure_run {w : TarWriter} (h : w.wroteInitdirs = false) :
    writeRepoStructure w = .ok ⟨⟩ { w with
      wroteInitdirs := true, out := w.out ++ repoStructureEntries } := by
  have hdirs : forM repoStructureDirs appendDefaultDir w = .ok ⟨⟩ { w with
      out := w.out ++ repoStructureDirs.map (fun p =>
        { path := tarPath p, header := defaultHeader .directory 0o755 0 }) } :=
    forM_emit _ _ w
  unfold writeRepoStructure repoStructureEntries
  rw [bind_of_ok (get_run _), if_neg (by simp [h]), bind_of_ok hdirs]
  simp only [← List.append_assoc]
  rfl

/-- The importer skips the repository structure. -/
theorem filterEntry_repoStructure : ∀ e ∈ repoStructureEntries, filterEntry e = none := by
  intro e he
  unfold repoStructureEntries at he
  rcases List.mem_append.mp he with he | he
  · obtain ⟨p, _, rfl⟩ := List.mem_map.mp he
    exact filterEntry_directory rfl
  · rw [List.mem_singleton.mp he]
    unfold filterEntry
    rw [if_neg (by simp [defaultHeader])]
    rfl

/-- The entry of a directory. -/
def dirEntry (p : Path) (m : DirMeta) : Entry :=
  { path := tarPath p,
    header := { entryType := .directory, uid := m.uid.toNat, gid := m.gid.toNat,
                mode := filterMode m.mode, size := 0 } }

/-- What the writer emits before the commit object: the root directory and the repository
    structure. -/
def preludeEntries (m : DirMeta) : List Entry :=
  dirEntry tarPathPrefixV0 m :: repoStructureEntries

theorem filterEntry_prelude (m : DirMeta) : ∀ e ∈ preludeEntries m, filterEntry e = none := by
  intro e he
  rcases List.mem_cons.mp he with rfl | he
  · exact filterEntry_directory rfl
  · exact filterEntry_repoStructure e he

/-- The writer after the metadata of the root directory. -/
def headWriter (lib : Libostree) (src : Repo) (b : Bool) (c : Checksum) (commit : Commit)
    (m : DirMeta) : TarWriter where
  out := preludeEntries m ++ (headEntries lib c commit src.commitmetas[c]? ++
    [dataEntry commit.dirmeta "dirmeta" (lib.dirmeta.toBytes m)])
  wroteInitdirs := true
  structureOnly := b
  wroteDirmeta := {commit.dirmeta}

section Writer

variable {lib : Libostree} {tar : TarCrate} {src : Repo} {c : Checksum} {commit : Commit}

theorem appendCommitObject_run (w : TarWriter) :
    appendCommitObject lib src c commit w = .ok ⟨⟩ { w with
      out := w.out ++ headEntries lib c commit src.commitmetas[c]? } := by
  have hrun : ∀ ty data w', appendCommitObj ty c data w'
      = .ok ⟨⟩ { w' with out := w'.out ++ [dataEntry c (objectSuffix ty) data] } :=
    fun ty data w' => appendDefaultData_run c (objectSuffix ty) data w'
  unfold appendCommitObject appendDetachedMetadata headEntries
  rw [bind_of_ok (hrun .commit _ w)]
  cases src.commitmetas[c]? with
  | none => rfl
  | some d =>
      simp only
      rw [hrun]
      simp only [List.append_assoc]
      rfl

/-- `write_commit` up to the walk. -/
theorem writeCommit_head {m : DirMeta} (hm : src.dirmetas[commit.dirmeta]? = some m) (b : Bool)
    (fuel : Nat) :
    writeCommit lib tar src fuel c commit { structureOnly := b } = (do
      appendDirtree lib tar src fuel tarPathPrefixV0 commit.contents true
      appendStandardVar : ExportM Unit) (headWriter lib src b c commit m) := by
  have hdir : ∀ w, appendDir tarPathPrefixV0 m w
      = .ok ⟨⟩ { w with out := w.out ++ [dirEntry tarPathPrefixV0 m] } := fun _ => rfl
  have hmeta : ∀ w : TarWriter, w.wroteDirmeta = ∅ →
      appendDirmetaObj commit.dirmeta (lib.dirmeta.toBytes m) w = .ok ⟨⟩ { w with
        wroteDirmeta := insert commit.dirmeta w.wroteDirmeta
        out := w.out ++ [dataEntry commit.dirmeta "dirmeta" (lib.dirmeta.toBytes m)] } := by
    intro w hw
    rw [appendDirmetaObj_run, if_neg (by simp [hw])]
  unfold writeCommit Repo.loadDirmeta
  rw [hm, okOr_some, bind_of_ok (liftR_ok _ _), bind_of_ok (hdir _),
    bind_of_ok (writeRepoStructure_run rfl), bind_of_ok (appendCommitObject_run _),
    bind_of_ok (hmeta _ rfl)]
  simp only [headWriter, preludeEntries, List.nil_append, List.append_assoc, List.cons_append,
    insert_empty_eq]

/-- `/var/tmp` is skipped by the importer. -/
theorem carries_standardVar {scope : Checksum → Prop} {base : Repo}
    {mode : Option (Option Checksum)} {T M F : Finset Checksum} :
    Carries lib (Mirror lib src.toObjects scope base mode T M F) appendStandardVar
      (fun _ => Mirror lib src.toObjects scope base mode T M F) := by
  intro w imp h
  unfold appendStandardVar
  rw [bind_of_ok (get_run _)]
  by_cases hv : w.wroteVartmp = true
  · rw [if_pos hv]
    exact Relay.pure (fun _ _ h => h) w imp h
  · rw [if_neg hv]
    exact carries_skip (filterEntry_directory rfl) w imp h

/-- The repository that an import starts from mirrors a writer that has written nothing. -/
theorem Overlay.refl {α : Type} (base src : Std.ExtTreeMap Checksum α) :
    Overlay base src ∅ base := by
  intro k
  rw [if_neg (Finset.notMem_empty k), Option.or_none]

/-- **What is written after the head arrives.**  Any continuation of the writer that
    carries the importer along gives a stream that `import_commit` accepts. -/
theorem importCommit_of_carries (hs : StoredCommit lib src c commit) {m : DirMeta}
    (hm : IntactDirmeta lib src.toObjects commit.dirmeta m) (b : Bool) (r : Repo)
    {scope : Checksum → Prop} {x : ExportM Unit} {T M F : Finset Checksum}
    (hx : Carries lib (fun w t => w.structureOnly = b ∧
        Mirror lib src.toObjects scope (headRepo c commit src.commitmetas[c]? r)
          (some (some c)) ∅ {commit.dirmeta} ∅ w t) x
      (fun _ => Mirror lib src.toObjects scope (headRepo c commit src.commitmetas[c]? r)
        (some (some c)) T M F)) :
    ∃ w imp, x (headWriter lib src b c commit m) = .ok ⟨⟩ w ∧
      importCommit lib (w.out.map Except.ok) (Importer.newForCommit none r) = .ok ⟨⟩ imp ∧
      Mirror lib src.toObjects scope (headRepo c commit src.commitmetas[c]? r)
        (some (some c)) T M F w imp := by
  have hstart : Mirror lib src.toObjects scope (headRepo c commit src.commitmetas[c]? r)
      (some (some c)) ∅ {commit.dirmeta} ∅ (headWriter lib src b c commit m)
      { repo := Repo.record (.wrote .dirMeta commit.dirmeta)
          { headRepo c commit src.commitmetas[c]? r with
            dirmetas := r.dirmetas.insertIfNew commit.dirmeta m }
        remote := none
        data := .commit (some c) } :=
    { wroteDirtree := rfl
      wroteDirmeta := rfl
      wroteContent := rfl
      dirtrees := Overlay.refl _ _
      dirmetas := by rw [headRepo_dirmetas]; exact (Overlay.refl _ _).insertIfNew hm.1
      files := Overlay.refl _ _
      commits := rfl
      commitmetas := rfl
      refs := rfl
      xattrs := fun x hx => absurd hx (Finset.notMem_empty x)
      nextXattrs := rfl
      data := rfl }
  obtain ⟨_, w, es, imp, hrun, hout, hread, hmirror⟩ := hx _ _ ⟨rfl, hstart⟩
  refine ⟨w, imp, hrun, ?_, hmirror⟩
  have hsplit : w.out = preludeEntries m ++ (headEntries lib c commit src.commitmetas[c]? ++
      dataEntry commit.dirmeta "dirmeta" (lib.dirmeta.toBytes m) :: es) := by
    rw [hout]
    simp [headWriter]
  rw [hsplit, importCommit_head hs hm (filterEntry_prelude m) es r]
  exact hread

/-- The visits of a stored commit are accepted by the importer. -/
theorem visits_sound (hs : StoredCommit lib src c commit) {fuel : Nat}
    (hdepth : src.DepthLt fuel commit.contents) (b : Bool) :
    ∀ v ∈ visits src.toObjects b fuel tarPathPrefixV0 commit.contents true,
      v.Sound lib src.toObjects (fun f => src.CommitReaches commit .file f) := by
  have hstored : ∀ ty x, src.Reaches commit.contents ty x → src.Has ty x :=
    fun ty x hx => (hs.intact ty x (.inr hx)).has
  intro v hv
  have hreach : ∀ ty x, v.object = some (ty, x) → src.CommitReaches commit ty x := by
    intro ty x hobj
    exact .inr ((visits_object hstored hdepth).mp ⟨v, hv, hobj⟩).1.reaches
  refine ⟨visits_stored _ _ _ _ _ v hv, fun ty x hobj => hs.intact ty x (hreach ty x hobj),
    fun x hobj => hreach .file x hobj, ?_⟩
  rintro p f rfl
  obtain ⟨r, hr⟩ := visits_file_dir (show CheckoutDir true tarPathPrefixV0 from rfl) hv
  exact hr.file f.1

/-- **The walk of a stored commit arrives.** -/
theorem carries_commit (hs : StoredCommit lib src c commit) (htar : tar.KeepsLinks) {fuel : Nat}
    (hdepth : src.DepthLt fuel commit.contents) {b : Bool} {base : Repo} {o : Option Checksum}
    {T M F : Finset Checksum}
    (hrelink : RelinkableWalk tar src.toObjects F
      (visits src.toObjects b fuel tarPathPrefixV0 commit.contents true)) :
    Carries lib (fun w t => w.structureOnly = b ∧ Mirror lib src.toObjects
        (fun f => src.CommitReaches commit .file f) base (some o) T M F w t)
      (do
        appendDirtree lib tar src fuel tarPathPrefixV0 commit.contents true
        appendStandardVar)
      (fun _ => Mirror lib src.toObjects (fun f => src.CommitReaches commit .file f) base (some o)
        (afterVisits .dirTree T
          (visits src.toObjects b fuel tarPathPrefixV0 commit.contents true))
        (afterVisits .dirMeta M
          (visits src.toObjects b fuel tarPathPrefixV0 commit.contents true))
        (afterVisits .file F
          (visits src.toObjects b fuel tarPathPrefixV0 commit.contents true))) := by
  have hstored : ∀ ty x, src.Reaches commit.contents ty x → src.Has ty x :=
    fun ty x hx => (hs.intact ty x (.inr hx)).has
  refine Relay.bind (J := fun _ => _) ?_ (fun _ => carries_standardVar)
  rintro w imp ⟨rfl, h⟩
  rw [appendDirtree_eq_visits hstored hdepth]
  exact carries_visits htar hs.xattrs (visits_sound hs hdepth _) hrelink w imp h

end Writer

end OstreeExt.Tar
