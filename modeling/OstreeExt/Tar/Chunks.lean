import OstreeExt.Conserve
import OstreeExt.Tar.Lossless

/-!
# Exporting and importing chunks

An encapsulated commit is a stream for each chunk and a final one that starts with the
commit and ends with the remainder.  Each stream has its own writer and its own importer;
what ties them together is that the chunks split the content objects of the commit.
-/

namespace OstreeExt.Tar

open OstreeExt Exec Objects

/-- The objects of a mapping. -/
def keySet (m : ChunkMapping) : Finset Checksum := (m.toList.map (·.1)).toFinset

theorem mem_keySet {m : ChunkMapping} {x : Checksum} : x ∈ keySet m ↔ x ∈ m := by
  rw [keySet, List.mem_toFinset, List.mem_map, Std.ExtTreeMap.mem_iff_lookup]
  constructor
  · rintro ⟨⟨k, v⟩, h, rfl⟩
    exact ⟨v, Std.ExtTreeMap.mem_toList_iff.mp h⟩
  · rintro ⟨v, h⟩
    exact ⟨(x, v), Std.ExtTreeMap.mem_toList_iff.mpr h, rfl⟩

/-- A chunk that can be written and read: its objects are stored intact, and its paths lie
    outside of the repository's own directory. -/
def ChunkSound (lib : Libostree) (o : Objects) (scope : Checksum → Prop) (m : ChunkMapping) : Prop :=
  ∀ x v, m[x]? = some v → scope x ∧ Intact lib o .file x ∧
    ∀ p ∈ v.2, stripPrefix repoPrefix (tarPath (pathForTarV1 p)) = none

section Carries

variable {lib : Libostree} {tar : TarCrate} {src : Repo} {scope : Checksum → Prop}
  {base : Repo} {mode : Option (Option Checksum)} {T M F : Finset Checksum}

/-- One object of a chunk with all its links. -/
theorem carries_chunkItem (htar : tar.KeepsLinks) (hdist : XattrsDistinct lib src.toObjects scope)
    {x : Checksum} {v : Nat × List Path} (hscope : scope x)
    (hx : Intact lib src.toObjects .file x)
    (hout : ∀ p ∈ v.2, stripPrefix repoPrefix (tarPath (pathForTarV1 p)) = none) (hF : x ∉ F) :
    Carries lib (Mirror lib src.toObjects scope base mode T M F)
      (do
        let (objpath, h) ← appendContent lib tar src x
        forM v.2 fun path => appendContentHardlink tar objpath h (pathForTarV1 path))
      (fun _ => Mirror lib src.toObjects scope base mode T M (insert x F)) := by
  obtain ⟨f, hf⟩ := hx
  refine Relay.bind (carries_content htar hdist hscope hf) ?_
  rintro ⟨objpath, h⟩
  intro w t ⟨ha, hm⟩
  rw [if_neg hF] at ha
  -- the object is new, so its header is complete
  have hn : h.querySize tar = .ok f.size := by
    rw [(Prod.mk.inj ha).2]
    unfold HeaderBuf.querySize
    rw [writtenHeader_size]
  refine Relay.loop (fun _ => Mirror lib src.toObjects scope base mode T M (insert x F)) ?_ w t hm
  intro pre p post hsplit
  exact carries_hardlink hn (hout p (by rw [hsplit]; simp))

/-- **A chunk arrives.** -/
theorem carries_writeChunk (htar : tar.KeepsLinks) (hdist : XattrsDistinct lib src.toObjects scope)
    {m : ChunkMapping} (hm : ChunkSound lib src.toObjects scope m) (hF : ∀ x ∈ m, x ∉ F) :
    Carries lib (Mirror lib src.toObjects scope base mode T M F) (writeChunk lib tar src m)
      (fun _ => Mirror lib src.toObjects scope base mode T M (F ∪ keySet m)) := by
  let I : List (Checksum × Nat × List Path) → TarWriter → Importer → Prop := fun pre =>
    Mirror lib src.toObjects scope base mode T M (F ∪ (pre.map (·.1)).toFinset)
  have hloop : Carries lib (I []) (writeChunk lib tar src m) (fun _ => I m.toList) := by
    refine Relay.loop I ?_
    rintro pre ⟨x, v⟩ post hsplit
    have hmem : (x, v) ∈ m.toList := by rw [hsplit]; simp
    have hlookup := Std.ExtTreeMap.mem_toList_iff.mp hmem
    obtain ⟨hscope, hx, hout⟩ := hm x v hlookup
    -- keys are distinct, so the object was not written before
    have hnew : x ∉ F ∪ (pre.map (·.1)).toFinset := by
      rw [Finset.mem_union, List.mem_toFinset, List.mem_map]
      rintro (h | ⟨⟨y, u⟩, hy, rfl⟩)
      · exact hF x (Std.ExtTreeMap.mem_iff_lookup.mpr ⟨v, hlookup⟩) h
      · have hdistinct := Std.ExtTreeMap.distinct_keys_toList (t := m)
        rw [hsplit] at hdistinct
        exact (List.pairwise_append.mp hdistinct).2.2 (y, u) hy (y, v) (by simp)
          Std.compare_self
    have hstep : I (pre ++ [(x, v)])
        = Mirror lib src.toObjects scope base mode T M (insert x (F ∪ (pre.map (·.1)).toFinset)) := by
      have hset : F ∪ ((pre ++ [(x, v)]).map (·.1)).toFinset
          = insert x (F ∪ (pre.map (·.1)).toFinset) := by
        rw [List.map_append, List.toFinset_append, ← Finset.union_assoc]
        simp
      simp only [I, hset]
    rw [hstep]
    exact carries_chunkItem htar hdist hscope hx hout hnew
  simpa [I, keySet] using hloop

/-- Entries outside the object store leave the importer alone. -/
theorem forM_readEntry_skip {es : List Entry} (h : ∀ e ∈ es, filterEntry e = none)
    (imp : Importer) : forM es (readEntry lib) imp = .ok ⟨⟩ imp := by
  induction es with
  | nil => rfl
  | cons e es ih =>
      rw [List.forM_cons, bind_of_ok (readEntry_skip (h e (List.mem_cons_self ..)) imp)]
      exact ih (fun e' he' => h e' (List.mem_cons_of_mem _ he'))

/-- The repository structure is skipped. -/
theorem carries_repoStructure {I : TarWriter → Importer → Prop}
    (hI : ∀ w t, I w t → w.wroteInitdirs = false)
    (hkeep : ∀ w t es, I w t → Mirror lib src.toObjects scope base mode T M F
      { w with wroteInitdirs := true, out := es } t) :
    Carries lib I writeRepoStructure
      (fun _ => Mirror lib src.toObjects scope base mode T M F) := by
  intro w t h
  exact ⟨⟨⟩, _, repoStructureEntries, t, writeRepoStructure_run (hI w t h), rfl,
    forM_readEntry_skip filterEntry_repoStructure t, hkeep w t _ h⟩

end Carries

-- ── One chunk ─────────────────────────────────────────────────────────────────

/-- What importing a chunk does to a repository: the content objects of the chunk are
    there, and nothing else has changed. -/
structure ChunkImported (src : Objects) (m : ChunkMapping) (r r' : Repo) : Prop where
  files : Overlay r.files src.files (keySet m) r'.files
  commits : r'.commits = r.commits
  dirtrees : r'.dirtrees = r.dirtrees
  dirmetas : r'.dirmetas = r.dirmetas
  commitmetas : r'.commitmetas = r.commitmetas
  refs : r'.refs = r.refs

theorem Overlay.eq_of_empty {α : Type} {base src m : Std.ExtTreeMap Checksum α}
    (h : Overlay base src ∅ m) : m = base := by
  apply Std.ExtTreeMap.ext_getElem?
  intro k
  rw [h k, if_neg (Finset.notMem_empty k), Option.or_none]

/-- Overlays from one source add up. -/
theorem Overlay.trans {α : Type} {base src m m' : Std.ExtTreeMap Checksum α}
    {F F' : Finset Checksum} (h : Overlay base src F m) (h' : Overlay m src F' m') :
    Overlay base src (F ∪ F') m' := by
  intro k
  rw [h' k, h k, Option.or_assoc]
  congr 1
  by_cases hF : k ∈ F
  · rw [if_pos hF, if_pos (Finset.mem_union_left _ hF)]
    by_cases hF' : k ∈ F'
    · rw [if_pos hF', Option.or_self]
    · rw [if_neg hF', Option.or_none]
  · have hiff : k ∈ F ∪ F' ↔ k ∈ F' := by
      rw [Finset.mem_union]
      exact ⟨fun hm => hm.resolve_left hF, .inr⟩
    simp only [if_neg hF, Option.none_or, hiff]

section Chunk

variable {lib : Libostree} {tar : TarCrate} {src : Repo} {scope : Checksum → Prop}
  {c : Checksum} {commit : Commit} {m : ChunkMapping}

/-- **`export_chunk` and `import_objects`** on a sound chunk. -/
theorem exportChunk_importObjects (hcommit : src.commits[c]? = some commit)
    (htar : tar.KeepsLinks) (hdist : XattrsDistinct lib src.toObjects scope)
    (hm : ChunkSound lib src.toObjects scope m) (r : Repo) :
    ∃ es imp, exportChunk lib tar src c m = .ok es ∧
      importObjects lib (es.map Except.ok) (Importer.newForObjectSet r) = .ok ⟨⟩ imp ∧
      ChunkImported src.toObjects m r imp.repo ∧
      ∃ s, imp.data = .objectSet s ∧ ∀ x, x ∈ s ↔ x ∈ m := by
  let I : TarWriter → Importer → Prop := fun w t => w = {} ∧ t = Importer.newForObjectSet r
  have hcarries : Carries lib I (do writeRepoStructure; writeChunk lib tar src m)
      (fun _ => Mirror lib src.toObjects scope r none ∅ ∅ (∅ ∪ keySet m)) := by
    refine Relay.bind (carries_repoStructure ?_ ?_)
      (fun _ => carries_writeChunk htar hdist hm (fun x _ => Finset.notMem_empty x))
    · rintro w t ⟨rfl, _⟩
      rfl
    · rintro w t es ⟨rfl, rfl⟩
      exact {
        wroteDirtree := rfl
        wroteDirmeta := rfl
        wroteContent := rfl
        dirtrees := Overlay.refl _ _
        dirmetas := Overlay.refl _ _
        files := Overlay.refl _ _
        commits := rfl
        commitmetas := rfl
        refs := rfl
        xattrs := fun x hx => absurd hx (Finset.notMem_empty x)
        nextXattrs := rfl
        data := ⟨∅, rfl, fun x => by simp [Std.ExtTreeSet.not_mem_empty]⟩ }
  obtain ⟨_, w, es, imp, hrun, hout, hread, hmirror⟩ := hcarries _ _ ⟨rfl, rfl⟩
  rw [Finset.empty_union] at hmirror
  refine ⟨w.out, imp, ?_, ?_, ?_, ?_⟩
  · unfold exportChunk Repo.loadCommit
    rw [hcommit, okOr_some, bind_ok_eq, runWriter, hrun]
  · unfold importObjects
    rw [importObjects_entries, show w.out = es from hout]
    exact hread
  · exact ⟨hmirror.files, hmirror.commits, hmirror.dirtrees.eq_of_empty,
      hmirror.dirmetas.eq_of_empty, hmirror.commitmetas, hmirror.refs⟩
  · obtain ⟨s, hs, hmem⟩ := hmirror.data
    exact ⟨s, hs, fun x => (hmem x).trans mem_keySet⟩

end Chunk

-- ── All chunks ────────────────────────────────────────────────────────────────

section Transfer

variable (lib : Libostree) (tar : TarCrate) (src : Repo)

/-- The stream of a chunk is imported as an object set. -/
def transferChunk (c : Checksum) (chunk : Chunk) : RepoM Unit := do
  let es ← liftR (exportChunk lib tar src c chunk.content)
  withImporter Importer.newForObjectSet (importObjects lib (es.map Except.ok))

/-- The final stream is imported as a commit. -/
def transferFinal (fuel : Nat) (c : Checksum) (remainder : Chunk) : RepoM Checksum := do
  let es ← liftR (exportFinalChunk lib tar src fuel c remainder)
  withImporter (Importer.newForCommit none) do
    importCommit lib (es.map Except.ok)
    finishImportCommit

/-- All chunks in some order, and then the commit with the remainder. -/
def transfer (fuel : Nat) (c : Checksum) (order : List Chunk) (remainder : Chunk) :
    RepoM Checksum := do
  forM order (transferChunk lib tar src c)
  transferFinal lib tar src fuel c remainder

end Transfer

/-- The root directory has no entry named `sysroot`. -/
def NoSysroot (o : Objects) (commit : Commit) : Prop :=
  ∀ d, o.dirtrees[commit.contents]? = some d →
    (∀ f ∈ d.files, f.1 ≠ "sysroot") ∧ ∀ s ∈ d.dirs, s.1 ≠ "sysroot"

/-- A directory `sysroot` of the root is empty. -/
def SysrootEmpty (o : Objects) (commit : Commit) : Prop :=
  ∀ d s, o.dirtrees[commit.contents]? = some d → s ∈ d.dirs → s.1 = "sysroot" →
    o.dirtrees[s.2.1]? = some { files := [], dirs := [] }

theorem pathForTarV1_outside {n : String} (hn : n ≠ "sysroot") (rest : Path) :
    stripPrefix repoPrefix (tarPath (pathForTarV1 (.rootDir :: .normal n :: rest))) = none := by
  have hmap : ∃ n' rest', pathForTarV1 (.rootDir :: .normal n :: rest) = .normal n' :: rest' ∧
      n' ≠ "sysroot" := by
    have hstrip : stripPrefix [.rootDir] (.rootDir :: .normal n :: rest)
        = some (.normal n :: rest) := by simp [stripPrefix]
    unfold pathForTarV1 mapPathV1
    rw [hstrip, Option.getD_some]
    cases stripPrefix [.normal "usr", .normal "etc"] (.normal n :: rest) with
    | none => exact ⟨n, rest, rfl, hn⟩
    | some r => exact ⟨"etc", r, rfl, by decide⟩
  obtain ⟨n', rest', hmap, hn'⟩ := hmap
  rw [hmap]
  simp [tarPath, repoPrefix, stripPrefix, Ne.symm hn']

section Main

variable {lib : Libostree} {tar : TarCrate} {src : Repo} {c : Checksum} {commit : Commit}

/-- The paths of a commit lie outside of the repository's own directory. -/
theorem occurrence_outside {o : Objects} (hroot : SysrootEmpty o commit) {n : Nat} {p : Path}
    {x : Checksum} (h : (p, x) ∈ o.occurrences n false [.rootDir] commit.contents) :
    stripPrefix repoPrefix (tarPath (pathForTarV1 p)) = none := by
  cases n with
  | zero => exact nomatch h
  | succ n =>
      obtain ⟨d, hd, ⟨f, hf, rfl, rfl⟩ | ⟨s, hs, h⟩⟩ := mem_occurrences_succ.mp h
      · by_cases hn : f.1 = "sysroot"
        · rw [hn]; decide
        · exact pathForTarV1_outside hn []
      · by_cases hn : s.1 = "sysroot"
        · -- nothing occurs in an empty directory
          exfalso
          have hempty := hroot d s hd hs hn
          cases n with
          | zero => exact nomatch h
          | succ n =>
              obtain ⟨d', hd', h⟩ := mem_occurrences_succ.mp h
              obtain rfl := Option.some.inj (hempty.symm.trans hd')
              rcases h with ⟨f, hf, _⟩ | ⟨s', hs', _⟩
              · exact nomatch hf
              · exact nomatch hs'
        · obtain ⟨rest, rfl⟩ := occurrences_path h
          exact pathForTarV1_outside hn rest

/-- The initial chunk of a stored commit is sound, and so is every part of it. -/
theorem chunkSound_of_sub (hs : StoredCommit lib src c commit)
    (hroot : SysrootEmpty src.toObjects commit) {fuel : Nat} {m : ChunkMapping}
    (hsub : ∀ (k : Checksum) v, m[k]? = some v → (initialChunk src.toObjects
      (src.occurrences fuel false [.rootDir] commit.contents)).content[k]? = some v) :
    ChunkSound lib src.toObjects (fun f => src.CommitReaches commit .file f) m := by
  intro x v hv
  have hinit := hsub x v hv
  rw [initialChunk_content] at hinit
  split at hinit
  · exact nomatch hinit
  next hne =>
    obtain rfl := Option.some.inj hinit
    obtain ⟨p, hp⟩ := List.exists_mem_of_ne_nil _ hne
    have hreach : src.CommitReaches commit .file x :=
      .inr (reaches_of_mem_occurrences (mem_pathsOf.mp hp))
    exact ⟨hreach, hs.intact _ _ hreach, fun q hq => occurrence_outside hroot (mem_pathsOf.mp hq)⟩

/-- The objects of several chunks. -/
def keySets (chunks : List Chunk) : Finset Checksum :=
  chunks.foldr (fun chunk F => keySet chunk.content ∪ F) ∅

theorem mem_keySets {chunks : List Chunk} {x : Checksum} :
    x ∈ keySets chunks ↔ ∃ chunk ∈ chunks, x ∈ chunk.content := by
  induction chunks with
  | nil => simp [keySets]
  | cons chunk chunks ih =>
      have hcons : keySets (chunk :: chunks) = keySet chunk.content ∪ keySets chunks := rfl
      rw [hcons, Finset.mem_union, mem_keySet, ih]
      simp

theorem keySets_snoc (pre : List Chunk) (chunk : Chunk) :
    keySets (pre ++ [chunk]) = keySets pre ∪ keySet chunk.content := by
  ext x
  rw [Finset.mem_union, mem_keySets, mem_keySets, mem_keySet]
  simp [or_and_right, exists_or]

/-- The chunks of a commit, one after the other. -/
theorem transferChunks_run (hs : StoredCommit lib src c commit) (htar : tar.KeepsLinks)
    {order : List Chunk} (hsound : ∀ chunk ∈ order, ChunkSound lib src.toObjects
      (fun f => src.CommitReaches commit .file f) chunk.content) (r : Repo) :
    ∃ r', forM order (transferChunk lib tar src c) r = .ok ⟨⟩ r' ∧
      Overlay r.files src.files (keySets order) r'.files ∧ r'.commits = r.commits ∧
      r'.dirtrees = r.dirtrees ∧ r'.dirmetas = r.dirmetas := by
  have hloop := Ends.loop (l := order) (f := transferChunk lib tar src c) (fun pre r' =>
    Overlay r.files src.files (keySets pre) r'.files ∧ r'.commits = r.commits ∧
      r'.dirtrees = r.dirtrees ∧ r'.dirmetas = r.dirmetas) ?_
  · obtain ⟨_, r', hrun, hpost⟩ := hloop r ⟨Overlay.refl _ _, rfl, rfl, rfl⟩
    exact ⟨r', hrun, hpost⟩
  · rintro pre chunk post hsplit r₁ ⟨hfiles, hcommits, hdirtrees, hdirmetas⟩
    obtain ⟨es, imp, hexport, himport, hdone, _⟩ := exportChunk_importObjects hs.stored htar
      hs.xattrs (hsound chunk (by rw [hsplit]; simp)) r₁
    refine ⟨⟨⟩, imp.repo, ?_, ?_, hdone.commits.trans hcommits, hdone.dirtrees.trans hdirtrees,
      hdone.dirmetas.trans hdirmetas⟩
    · unfold transferChunk
      rw [hexport, bind_of_ok (liftR_ok _ _)]
      unfold withImporter
      rw [himport]
    · rw [keySets_snoc]
      exact hfiles.trans hdone.files

/-- No walk that writes the structure only meets a file. -/
theorem file_not_mem_structure {o : Objects} {n : Nat} {p q : Path} {f : String × Checksum}
    {c : Checksum} {isRoot : Bool} : Visit.file p f ∉ visits o true n q c isRoot := by
  induction n generalizing q c isRoot with
  | zero => exact nofun
  | succ n ih =>
      intro h
      obtain ⟨d, _, h⟩ := mem_visits_succ.mp h
      rcases h with h | ⟨hb, _⟩ | h | ⟨s, _, m, _, h | ⟨_, h | h⟩⟩
      · exact nomatch h
      · exact nomatch hb
      · exact nomatch h
      · exact nomatch h
      · exact nomatch h
      · exact ih h

theorem relinkableWalk_structure (o : Objects) (n : Nat) (c : Checksum) :
    RelinkableWalk tar o ∅ (visits o true n tarPathPrefixV0 c true) := by
  intro pre p f post x hsplit
  exact absurd (by rw [hsplit]; simp) (@file_not_mem_structure o n p tarPathPrefixV0 f c true)

/-- **The final stream** arrives: the commit, the metadata objects of its walk, and the
    content of the remainder. -/
theorem transferFinal_run (hs : StoredCommit lib src c commit) (htar : tar.KeepsLinks) {fuel : Nat}
    (hdepth : src.DepthLt fuel commit.contents) {remainder : Chunk}
    (hsound : ChunkSound lib src.toObjects (fun f => src.CommitReaches commit .file f)
      remainder.content) (r : Repo) :
    ∃ r', transferFinal lib tar src fuel c remainder r = .ok c r' ∧
      r'.commits = r.commits.insertIfNew c commit ∧
      Overlay r.files src.files (keySet remainder.content) r'.files ∧
      (∃ T, Overlay r.dirtrees src.dirtrees T r'.dirtrees ∧
        ∀ x, src.Walks true commit.contents .dirTree x → x ∈ T) ∧
      ∃ M, Overlay r.dirmetas src.dirmetas M r'.dirmetas ∧ commit.dirmeta ∈ M ∧
        ∀ x, src.Walks true commit.contents .dirMeta x → x ∈ M := by
  obtain ⟨m, hm⟩ := hs.intact .dirMeta commit.dirmeta (.inl ⟨rfl, rfl⟩)
  let vs := visits src.toObjects true fuel tarPathPrefixV0 commit.contents true
  have hnofile : afterVisits .file ∅ vs = ∅ := by
    ext x
    rw [mem_afterVisits hs hdepth]
    simp
  let x : ExportM Unit := do
    (do
      appendDirtree lib tar src fuel tarPathPrefixV0 commit.contents true
      appendStandardVar)
    setStructureOnly false
    writeChunk lib tar src remainder.content
  have hcarries : Carries lib (fun w t => w.structureOnly = true ∧
      Mirror lib src.toObjects (fun f => src.CommitReaches commit .file f)
        (headRepo c commit src.commitmetas[c]? r) (some (some c)) ∅ {commit.dirmeta} ∅ w t) x
      (fun _ => Mirror lib src.toObjects (fun f => src.CommitReaches commit .file f)
        (headRepo c commit src.commitmetas[c]? r) (some (some c)) (afterVisits .dirTree ∅ vs)
        (afterVisits .dirMeta {commit.dirmeta} vs) (∅ ∪ keySet remainder.content)) := by
    refine Relay.bind (carries_commit hs htar hdepth (relinkableWalk_structure _ _ _))
      (fun _ => ?_)
    rw [show visits src.toObjects true fuel tarPathPrefixV0 commit.contents true = vs from rfl,
      hnofile]
    refine Relay.bind (J := fun _ => Mirror lib src.toObjects
      (fun f => src.CommitReaches commit .file f) (headRepo c commit src.commitmetas[c]? r)
      (some (some c)) (afterVisits .dirTree ∅ vs) (afterVisits .dirMeta {commit.dirmeta} vs) ∅)
      (Relay.silent (fun w t h => ⟨⟨⟩, _, rfl, rfl, { h with }⟩)) (fun _ => ?_)
    exact carries_writeChunk htar hs.xattrs hsound (fun x _ => Finset.notMem_empty x)
  obtain ⟨w, imp, hrun, himport, hmirror⟩ := importCommit_of_carries hs hm true r hcarries
  have hexport : exportFinalChunk lib tar src fuel c remainder = .ok w.out := by
    unfold exportFinalChunk Repo.loadCommit
    rw [hs.stored, okOr_some, bind_ok_eq, runWriter]
    have hset : setStructureOnly true {} = .ok ⟨⟩ ({ structureOnly := true } : TarWriter) := rfl
    have hx : x (headWriter lib src true c commit m) = (do
        writeCommit lib tar src fuel c commit
        setStructureOnly false
        writeChunk lib tar src remainder.content : ExportM Unit) { structureOnly := true } :=
      bind_congr_start (writeCommit_head hm.1 true fuel).symm _
    rw [bind_of_ok hset, ← hx, hrun]
  have hfinish : finishImportCommit imp = .ok c imp := by
    unfold finishImportCommit
    rw [bind_of_ok (get_run _), show imp.data = .commit (some c) from hmirror.data]
    rfl
  refine ⟨imp.repo, ?_, ?_, ?_, ⟨afterVisits .dirTree ∅ vs, ?_, ?_⟩,
    ⟨afterVisits .dirMeta {commit.dirmeta} vs, ?_, ?_, ?_⟩⟩
  · unfold transferFinal
    rw [hexport, bind_of_ok (liftR_ok _ _)]
    unfold withImporter
    rw [bind_of_ok himport, hfinish]
  · rw [hmirror.commits, headRepo_commits]
  · have hfiles := hmirror.files
    rw [headRepo_files, Finset.empty_union] at hfiles
    exact hfiles
  · have hdirtrees := hmirror.dirtrees
    rw [headRepo_dirtrees] at hdirtrees
    exact hdirtrees
  · intro t ht
    rw [mem_afterVisits hs hdepth]
    exact .inr ⟨ht, fun _ => by simp⟩
  · have hdirmetas := hmirror.dirmetas
    rw [headRepo_dirmetas] at hdirmetas
    exact hdirmetas
  · rw [mem_afterVisits hs hdepth]
    exact .inl (Finset.mem_singleton_self _)
  · intro t ht
    rw [mem_afterVisits hs hdepth]
    exact .inr ⟨ht, fun _ => by simp⟩

/-- An object of the source that was written over nothing is the same. -/
theorem Overlay.same {α : Type} {m m' : Std.ExtTreeMap Checksum α} {o : Std.ExtTreeMap Checksum α}
    {F : Finset Checksum} (h : Overlay m o F m') {x : Checksum} (hm : m[x]? = none) (hx : x ∈ F) :
    m'[x]? = o[x]? := by
  rw [h x, hm, if_pos hx, Option.none_or]

/-- **Encapsulated images carry every object.**  Whatever was moved into chunks and in
    whatever order the chunks are imported, everything that the commit reaches arrives. -/
theorem transfer_complete (hs : StoredCommit lib src c commit) (htar : tar.KeepsLinks) {fuel : Nat}
    (hdepth : src.DepthLt fuel commit.contents) (hroot : NoSysroot src.toObjects commit)
    {rev : String} (hrev : src.requireRev rev = .ok c) {k₀ k : Chunking}
    (hnew : Chunking.new lib src fuel rev = .ok k₀)
    (hk : Moves [k₀.remainder] (k.remainder :: k.chunks)) {order : List Chunk}
    (horder : order.Perm k.chunks) :
    ∃ dst, transfer lib tar src fuel c order k.remainder {} = .ok c dst ∧
      dst.commits[c]? = some commit ∧
      ∀ ty x, src.CommitReaches commit ty x → SameObject src.toObjects dst.toObjects ty x := by
  have hcomplete : src.Complete commit := fun ty x hx => (hs.intact ty x hx).has
  have hempty : SysrootEmpty src.toObjects commit :=
    fun d s hd hs' hn => absurd hn ((hroot d hd).2 s hs')
  obtain ⟨n, hnew'⟩ := chunkingNew_eq lib hrev hs.stored hcomplete hdepth
  obtain rfl := Except.ok.inj (hnew.symm.trans hnew')
  let whole := (initialChunk src.toObjects
    (src.occurrences fuel false [.rootDir] commit.contents)).content
  have hstart : Splits whole (contents [initialChunk src.toObjects
      (src.occurrences fuel false [.rootDir] commit.contents)]) := Splits.single whole
  obtain ⟨hsplit, _⟩ := hk.keeps hstart
    (fun chunk hc => by rw [List.mem_singleton.mp hc]; exact initialChunk_sized _ _)
  have hsound : ∀ chunk ∈ k.remainder :: k.chunks, ChunkSound lib src.toObjects
      (fun f => src.CommitReaches commit .file f) chunk.content := fun chunk hc =>
    chunkSound_of_sub hs hempty (fun x v hv => hsplit.sub (List.mem_map_of_mem hc) hv)
  have hsound' : ∀ chunk ∈ order, ChunkSound lib src.toObjects
      (fun f => src.CommitReaches commit .file f) chunk.content := fun chunk hc =>
    hsound chunk (List.mem_cons_of_mem _ (horder.mem_iff.mp hc))
  obtain ⟨r₁, hrun₁, hfiles₁, hcommits₁, hdirtrees₁, hdirmetas₁⟩ :=
    transferChunks_run hs htar hsound' {}
  obtain ⟨dst, hrun₂, hcommits₂, hfiles₂, ⟨T, hdirtrees₂, hT⟩, M, hdirmetas₂, hM₀, hM⟩ :=
    transferFinal_run hs htar hdepth (hsound k.remainder (List.mem_cons_self ..)) r₁
  have hwalk : ∀ ty x, src.CommitReaches commit ty x →
      (ty = .dirMeta ∧ x = commit.dirmeta) ∨ src.Walks true commit.contents ty x :=
    sysrootElsewhere_iff.mp (fun d s hd hs' hn => absurd hn ((hroot d hd).2 s hs'))
  refine ⟨dst, ?_, ?_, ?_⟩
  · unfold transfer
    rw [bind_of_ok hrun₁, hrun₂]
  · rw [hcommits₂, Std.ExtTreeMap.lookup_insertIfNew, if_pos rfl, hcommits₁,
      Std.ExtTreeMap.lookup_empty]
    rfl
  · intro ty x hx
    rcases hx.objtype with rfl | rfl | rfl
    · refine hdirtrees₂.same ?_ (hT x ((hwalk _ x hx).resolve_left (fun h => nomatch h.1)))
      rw [hdirtrees₁]
      exact Std.ExtTreeMap.lookup_empty x
    · have hxM : x ∈ M := by
        rcases hwalk _ x hx with ⟨_, rfl⟩ | hw
        · exact hM₀
        · exact hM x hw
      refine hdirmetas₂.same ?_ hxM
      rw [hdirmetas₁]
      exact Std.ExtTreeMap.lookup_empty x
    · have hreach : src.Reaches commit.contents .file x := hx.resolve_left (fun h => nomatch h.1)
      obtain ⟨p, hp⟩ := exists_occurrence hdepth hreach [.rootDir]
      have hwhole : whole[x]? = some (src.fileSize x,
          pathsOf (src.occurrences fuel false [.rootDir] commit.contents) x) := by
        rw [initialChunk_content, if_neg (List.ne_nil_of_mem (mem_pathsOf.mpr hp))]
      obtain ⟨part, hpart, hv⟩ := hsplit.cover hwhole
      obtain ⟨chunk, hchunk, rfl⟩ := List.mem_map.mp hpart
      have hmem : x ∈ chunk.content := Std.ExtTreeMap.mem_iff_lookup.mpr ⟨_, hv⟩
      refine (hfiles₁.trans hfiles₂).same (Std.ExtTreeMap.lookup_empty x) ?_
      rw [Finset.mem_union, mem_keySets, mem_keySet]
      rcases List.mem_cons.mp hchunk with rfl | hchunk
      · exact .inr hmem
      · exact .inl ⟨chunk, horder.mem_iff.mpr hchunk, hmem⟩

end Main

/-- A small commit with one of its two files in a chunk of its own. -/
theorem sampleCommit_transferred : ∃ (k₀ k : Chunking) (dst : Repo),
    Chunking.new sampleTables.lib sampleRepo 2 sampleCommitSum = .ok k₀ ∧
    k.remainder = (k₀.remainder.moveObj {} sampleMotdSum).1 ∧
    k.chunks = [(k₀.remainder.moveObj {} sampleMotdSum).2] ∧
    transfer sampleTables.lib sampleTar sampleRepo 2 sampleCommitSum k.chunks k.remainder {}
      = .ok sampleCommitSum dst ∧
    dst.commits[sampleCommitSum]? = some sampleCommit ∧
    ∀ ty x, sampleRepo.CommitReaches sampleCommit ty x →
      SameObject sampleRepo.toObjects dst.toObjects ty x := by
  have hrev : sampleRepo.requireRev sampleCommitSum = .ok sampleCommitSum :=
    if_pos isSha256_sampleCommitSum
  obtain ⟨n, hnew⟩ := chunkingNew_eq sampleTables.lib hrev sampleCommit_stored.stored
    (fun ty x hx => (sampleCommit_stored.intact ty x hx).has) depthLt_sampleTree
  have hroot : NoSysroot sampleRepo.toObjects sampleCommit := by
    intro d hd
    obtain rfl : sampleTree = d := Option.some.inj (lookup_sampleTree.symm.trans hd)
    constructor
    · decide
    · decide
  obtain ⟨dst, hdst⟩ := transfer_complete sampleCommit_stored sampleTar_keepsLinks
    depthLt_sampleTree hroot hrev hnew
    (k := { remainder := (Chunk.moveObj _ {} sampleMotdSum).1
            chunks := [(Chunk.moveObj _ {} sampleMotdSum).2] })
    (@Moves.forth _ [] [] [] _ _ sampleMotdSum (.push "" [] .refl)) (.refl _)
  exact ⟨_, _, dst, hnew, rfl, rfl, hdst⟩

end OstreeExt.Tar
