import OstreeExt.Lib.Sums
import OstreeExt.Conserve
import OstreeExt.Tar.Lossless

/-!
# The metadata size of a chunking

`push_dirtree` and `push_dirmeta` are to count each object once, with a set of what was seen.  But
`push_dirtree` inserts a checksum only when it is in the set already, and `push_dirmeta` looks into
the set of the dirtrees: that set stays empty, and every directory counts.
**`metadataSize_exact_iff`** says when the size is right nevertheless.
-/

namespace OstreeExt

open Std Exec Objects

-- ── The directories of a tree ─────────────────────────────────────────────────

namespace Objects

variable {o : Objects}

/-- The metadata objects of the directories below a tree, two for each directory, in the order of a
    walk that has at most `n` levels. -/
def directories (o : Objects) : Nat → Checksum → List (ObjectType × Checksum)
  | 0, _ => []
  | n + 1, c =>
      match o.dirtrees[c]? with
      | none => []
      | some d => d.dirs.flatMap fun s =>
          (.dirTree, s.2.1) :: (directories o n s.2.1 ++ [(.dirMeta, s.2.2)])

/-- The same of a commit, with its root. -/
def commitDirectories (o : Objects) (n : Nat) (commit : Commit) : List (ObjectType × Checksum) :=
  (.dirTree, commit.contents) :: (.dirMeta, commit.dirmeta) :: directories o n commit.contents

theorem directories_succ {n : Nat} {c : Checksum} {d : DirTree} (hd : o.dirtrees[c]? = some d) :
    o.directories (n + 1) c = d.dirs.flatMap fun s =>
      (.dirTree, s.2.1) :: (o.directories n s.2.1 ++ [(.dirMeta, s.2.2)]) := by
  rw [directories, hd]

theorem commitDirectories_succ {n : Nat} {commit : Commit} {d : DirTree}
    (hd : o.dirtrees[commit.contents]? = some d) :
    o.commitDirectories (n + 1) commit = (.dirTree, commit.contents) :: (.dirMeta, commit.dirmeta) ::
      d.dirs.flatMap fun s =>
        (.dirTree, s.2.1) :: (o.directories n s.2.1 ++ [(.dirMeta, s.2.2)]) := by
  rw [commitDirectories, directories_succ hd]

/-- **The walk meets every metadata object** below a tree. -/
theorem mem_directories {n : Nat} {c : Checksum} (hdepth : o.DepthLt n c) {ty : ObjectType}
    {x : Checksum} :
    (ty, x) ∈ (ObjectType.dirTree, c) :: o.directories n c ↔ ty ≠ .file ∧ o.Reaches c ty x := by
  induction n generalizing c with
  | zero => exact hdepth.elim
  | succ n ih =>
      rw [reaches_iff, List.mem_cons, Prod.mk.injEq]
      have hbelow : (ty, x) ∈ o.directories (n + 1) c ↔ ∃ d, o.dirtrees[c]? = some d ∧
          ∃ s ∈ d.dirs, (ty = .dirMeta ∧ s.2.2 = x) ∨ (ty ≠ .file ∧ o.Reaches s.2.1 ty x) := by
        cases hd : o.dirtrees[c]? with
        | none => simp [directories, hd]
        | some d =>
            simp only [directories_succ hd, List.mem_flatMap, Option.some.injEq, exists_eq_left']
            refine exists_congr fun s => and_congr_right fun hs => ?_
            rw [← ih (hdepth d hd s hs), List.mem_cons, List.mem_append, List.mem_singleton,
              List.mem_cons, Prod.mk.injEq, Prod.mk.injEq, ← or_assoc, or_comm, eq_comm (a := x)]
      rw [hbelow]
      constructor
      · rintro (⟨rfl, rfl⟩ | ⟨d, hd, s, hs, ⟨rfl, rfl⟩ | ⟨hty, h⟩⟩)
        · exact ⟨by simp, .inl ⟨rfl, rfl⟩⟩
        · exact ⟨by simp, .inr ⟨d, hd, .inr ⟨s, hs, .inl ⟨rfl, rfl⟩⟩⟩⟩
        · exact ⟨hty, .inr ⟨d, hd, .inr ⟨s, hs, .inr h⟩⟩⟩
      · rintro ⟨hty, h | ⟨d, hd, ⟨hfile, -⟩ | ⟨s, hs, h | h⟩⟩⟩
        · exact .inl h
        · exact absurd hfile hty
        · exact .inr ⟨d, hd, s, hs, .inl h⟩
        · exact .inr ⟨d, hd, s, hs, .inr ⟨hty, h⟩⟩

theorem mem_commitDirectories {n : Nat} {commit : Commit} (hdepth : o.DepthLt n commit.contents)
    {ty : ObjectType} {x : Checksum} :
    (ty, x) ∈ o.commitDirectories n commit ↔ ty ≠ .file ∧ o.CommitReaches commit ty x := by
  have hbelow := @mem_directories _ _ _ hdepth ty x
  rw [List.mem_cons] at hbelow
  rw [commitDirectories, List.mem_cons, List.mem_cons, or_left_comm, hbelow, CommitReaches,
    Prod.mk.injEq]
  constructor
  · rintro (⟨rfl, rfl⟩ | ⟨hty, h⟩)
    · exact ⟨by simp, .inl ⟨rfl, rfl⟩⟩
    · exact ⟨hty, .inr h⟩
  · rintro ⟨hty, h | h⟩
    · exact .inl h
    · exact .inr ⟨hty, h⟩

end Objects

/-- The size of a metadata object in serialized form. -/
def metadataBytes (lib : Libostree) (o : Objects) (e : ObjectType × Checksum) : Nat :=
  match e.1 with
  | .dirTree => (o.dirtrees[e.2]?.map fun d => (lib.dirtree.toBytes d).length).getD 0
  | .dirMeta => (o.dirmetas[e.2]?.map fun m => (lib.dirmeta.toBytes m).length).getD 0
  | _ => 0

theorem metadataBytes_dirTree {lib : Libostree} {o : Objects} {c : Checksum} {d : DirTree}
    (hd : o.dirtrees[c]? = some d) :
    metadataBytes lib o (.dirTree, c) = (lib.dirtree.toBytes d).length := by
  show (o.dirtrees[c]?.map fun d => (lib.dirtree.toBytes d).length).getD 0 = _
  rw [hd]
  rfl

theorem metadataBytes_dirMeta {lib : Libostree} {o : Objects} {c : Checksum} {m : DirMeta}
    (hm : o.dirmetas[c]? = some m) :
    metadataBytes lib o (.dirMeta, c) = (lib.dirmeta.toBytes m).length := by
  show (o.dirmetas[c]?.map fun m => (lib.dirmeta.toBytes m).length).getD 0 = _
  rw [hm]
  rfl

-- ── What the walk counts ──────────────────────────────────────────────────────

/-- No dirtree was seen, and so many bytes are counted. -/
def Counted (n : Nat) (s : Generation × Chunk) : Prop :=
  s.1.dirtreeFound = ∅ ∧ s.1.metadataSize = n

section Counts

variable {lib : Libostree} {repo : Repo}

theorem pushDirtree_counts {c : Checksum} {d : DirTree} {n : Nat} (hd : repo.dirtrees[c]? = some d) :
    Ends (Counted n) (pushDirtree lib repo c)
      (fun a s => a = d ∧ Counted (n + metadataBytes lib repo.toObjects (.dirTree, c)) s) := by
  rintro ⟨gen, chunk⟩ ⟨hfound, hsize⟩
  rw [pushDirtree, Repo.loadDirtree, hd, okOr_some, bind_of_ok (liftR_ok _ _),
    bind_of_ok (modify_run _ _)]
  have hnew : c ∉ gen.dirtreeFound := by
    have hempty : gen.dirtreeFound = ∅ := hfound
    rw [hempty]
    exact Finset.notMem_empty c
  refine ⟨d, _, rfl, rfl, ?_⟩
  -- the set stays as it is
  rw [Counted]
  dsimp only
  rw [if_pos hnew, metadataBytes_dirTree hd, ← hsize]
  exact ⟨hfound, rfl⟩

theorem pushDirmeta_counts {c : Checksum} {m : DirMeta} {n : Nat} (hm : repo.dirmetas[c]? = some m) :
    Ends (Counted n) (pushDirmeta lib repo c)
      (fun _ => Counted (n + metadataBytes lib repo.toObjects (.dirMeta, c))) := by
  rintro ⟨gen, chunk⟩ ⟨hfound, hsize⟩
  have hnew : c ∉ gen.dirtreeFound := by
    have hempty : gen.dirtreeFound = ∅ := hfound
    rw [hempty]
    exact Finset.notMem_empty c
  rw [pushDirmeta, bind_of_ok (get_run _), if_neg hnew, bind_of_ok (modify_run _ _),
    Repo.loadDirmeta, hm, okOr_some, bind_of_ok (liftR_ok _ _)]
  refine ⟨_, _, rfl, hfound, ?_⟩
  rw [metadataBytes_dirMeta hm, ← hsize]

/-- Files count nothing. -/
theorem generateFile_counts {path : Path} {f : String × Checksum} {n : Nat}
    (hf : f.2 ∈ repo.files) :
    Ends (Counted n) (generateFile repo path f) (fun _ => Counted n) := by
  rintro ⟨gen, chunk⟩ hcounted
  obtain ⟨x, hx⟩ := ExtTreeMap.mem_iff_lookup.mp hf
  rw [generateFile, Repo.loadFile, hx, okOr_some, bind_of_ok (liftR_ok _ _)]
  exact ⟨⟨⟩, _, rfl, hcounted⟩

/-- The bytes of some metadata objects. -/
def bytesOf (lib : Libostree) (o : Objects) (l : List (ObjectType × Checksum)) : Nat :=
  (l.map (metadataBytes lib o)).sum

theorem bytesOf_nil (lib : Libostree) (o : Objects) : bytesOf lib o [] = 0 := rfl

theorem bytesOf_append (lib : Libostree) (o : Objects) (l l' : List (ObjectType × Checksum)) :
    bytesOf lib o (l ++ l') = bytesOf lib o l + bytesOf lib o l' := by
  rw [bytesOf, List.map_append, List.sum_append]
  rfl

theorem bytesOf_cons (lib : Libostree) (o : Objects) (e : ObjectType × Checksum)
    (l : List (ObjectType × Checksum)) :
    bytesOf lib o (e :: l) = metadataBytes lib o e + bytesOf lib o l := by
  rw [bytesOf, List.map_cons, List.sum_cons]
  rfl

/-- Two directories with one dirmeta. -/
theorem bytesOf_shared {o : Objects} {t t' m : Checksum} (hne : t ≠ t') :
    bytesOf lib o [(.dirTree, t), (.dirMeta, m), (.dirTree, t'), (.dirMeta, m)]
      = ∑ x ∈ {t, t'}, metadataBytes lib o (.dirTree, x)
        + ∑ x ∈ {m}, metadataBytes lib o (.dirMeta, x) + metadataBytes lib o (.dirMeta, m) := by
  rw [Finset.sum_pair hne, Finset.sum_singleton, bytesOf_cons, bytesOf_cons, bytesOf_cons,
    bytesOf_cons, bytesOf_nil]
  omega

/-- **Every directory counts**, whether its objects were met before or not. -/
theorem generateChunkingRecurse_counts {n : Nat} {path : Path} {c : Checksum} {d : DirTree}
    (hd : repo.dirtrees[c]? = some d) (hdepth : repo.DepthLt n c)
    (hstored : ∀ ty x, repo.Reaches c ty x → repo.Has ty x) (k : Nat) :
    Ends (Counted k) (generateChunkingRecurse lib repo n path d)
      (fun _ => Counted (k + bytesOf lib repo.toObjects (repo.directories n c))) := by
  induction n generalizing path c d k with
  | zero => exact hdepth.elim
  | succ n ih =>
      rw [directories_succ hd]
      refine Ends.bind (Ends.loop (fun _ => Counted k) ?_) (fun _ => ?_)
      · intro pre f post hsplit
        exact generateFile_counts (hstored .file f.2 (.file hd (by rw [hsplit]; simp)))
      · have hloop := Ends.loop (l := d.dirs) (f := fun item => do
            let dirtree ← pushDirtree lib repo item.2.1
            generateChunkingRecurse lib repo n (path.join item.1) dirtree
            pushDirmeta lib repo item.2.2)
          (fun pre => Counted (k + bytesOf lib repo.toObjects (pre.flatMap fun s =>
            (.dirTree, s.2.1) :: (repo.directories n s.2.1 ++ [(.dirMeta, s.2.2)])))) ?_
        · exact hloop
        · intro pre sub post hsplit
          have hs : sub ∈ d.dirs := by rw [hsplit]; simp
          obtain ⟨d', hd'⟩ := ExtTreeMap.mem_iff_lookup.mp
            (hstored .dirTree sub.2.1 (.sub hd hs (.self _)))
          obtain ⟨m, hm⟩ := ExtTreeMap.mem_iff_lookup.mp
            (hstored .dirMeta sub.2.2 (.dirmeta hd hs))
          rw [List.flatMap_append, List.flatMap_singleton, bytesOf_append, bytesOf_cons,
            bytesOf_append, ← Nat.add_assoc, ← Nat.add_assoc, ← Nat.add_assoc]
          refine Ends.bind (pushDirtree_counts hd') (fun a => ?_)
          rintro s ⟨rfl, hcounted⟩
          exact Ends.bind (ih hd' (hdepth d hd sub hs) (fun ty x hx => hstored ty x (.sub hd hs hx)) _)
            (fun _ => pushDirmeta_counts hm) s hcounted

/-- **The size that `Chunking::new` computes** counts two objects for each directory. -/
theorem metadataSize_eq {rev : String} {c : Checksum} {commit : Commit} {fuel : Nat}
    (hrev : repo.requireRev rev = .ok c) (hcommit : repo.commits[c]? = some commit)
    (hcomplete : repo.Complete commit) (hdepth : repo.DepthLt fuel commit.contents) :
    ∃ k, Chunking.new lib repo fuel rev = .ok k ∧
      k.metadataSize = bytesOf lib repo.toObjects (repo.commitDirectories fuel commit) := by
  obtain ⟨d, hd⟩ := ExtTreeMap.mem_iff_lookup.mp (hcomplete .dirTree _ (.inr (.self _)))
  obtain ⟨m, hm⟩ := ExtTreeMap.mem_iff_lookup.mp (hcomplete .dirMeta _ (.inl ⟨rfl, rfl⟩))
  have hgen : Ends (Counted 0) (generateChunking lib repo fuel commit) (fun _ =>
      Counted (bytesOf lib repo.toObjects (repo.commitDirectories fuel commit))) := by
    rw [generateChunking, Repo.loadDirtree, hd, okOr_some, commitDirectories, bytesOf_cons,
      bytesOf_cons, ← Nat.add_assoc, ← Nat.zero_add (metadataBytes _ _ _)]
    intro s hs
    rw [bind_of_ok (liftR_ok _ _)]
    refine Ends.bind (pushDirtree_counts hd) (fun _ => ?_) s hs
    rintro s ⟨-, hs⟩
    exact Ends.bind (pushDirmeta_counts hm)
      (fun _ => generateChunkingRecurse_counts hd hdepth (fun ty x hx => hcomplete ty x (.inr hx)) _)
      s hs
  obtain ⟨_, s, hrun, -, hsize⟩ := hgen ({}, {}) ⟨rfl, rfl⟩
  refine ⟨{ metadataSize := s.1.metadataSize, remainder := s.2 }, ?_, hsize⟩
  rw [Chunking.new, hrev, bind_ok_eq, Repo.loadCommit, hcommit, okOr_some, bind_ok_eq, hrun]

/-- The distinct objects of the directories, by their types. -/
theorem sum_commitDirectories {commit : Commit} {fuel : Nat}
    (hdepth : repo.DepthLt fuel commit.contents) {T M : Finset Checksum}
    (hT : ∀ x, x ∈ T ↔ repo.CommitReaches commit .dirTree x)
    (hM : ∀ x, x ∈ M ↔ repo.CommitReaches commit .dirMeta x) (f : ObjectType × Checksum → Nat) :
    ∑ e ∈ (repo.commitDirectories fuel commit).toFinset, f e
      = ∑ x ∈ T, f (.dirTree, x) + ∑ x ∈ M, f (.dirMeta, x) := by
  have hinj : ∀ ty : ObjectType, Function.Injective (fun x : Checksum => (ty, x)) := by
    intro ty x y h
    exact (Prod.mk.inj h).2
  have hset : (repo.commitDirectories fuel commit).toFinset
      = T.image (fun x => (ObjectType.dirTree, x)) ∪ M.image (fun x => (ObjectType.dirMeta, x)) := by
    ext e
    obtain ⟨ty, x⟩ := e
    rw [List.mem_toFinset, mem_commitDirectories hdepth, Finset.mem_union, Finset.mem_image,
      Finset.mem_image]
    constructor
    · rintro ⟨hty, h⟩
      rcases h.objtype with rfl | rfl | rfl
      · exact .inl ⟨x, (hT x).mpr h, rfl⟩
      · exact .inr ⟨x, (hM x).mpr h, rfl⟩
      · exact absurd rfl hty
    · rintro (⟨y, hy, heq⟩ | ⟨y, hy, heq⟩)
      · obtain ⟨rfl, rfl⟩ := Prod.mk.inj heq
        exact ⟨by simp, (hT y).mp hy⟩
      · obtain ⟨rfl, rfl⟩ := Prod.mk.inj heq
        exact ⟨by simp, (hM y).mp hy⟩
  have hdisjoint : Disjoint (T.image (fun x => (ObjectType.dirTree, x)))
      (M.image (fun x => (ObjectType.dirMeta, x))) := by
    rw [Finset.disjoint_left]
    intro e htree hmeta
    obtain ⟨x, -, rfl⟩ := Finset.mem_image.mp htree
    obtain ⟨y, -, heq⟩ := Finset.mem_image.mp hmeta
    exact absurd (Prod.mk.inj heq).1 (by simp)
  rw [hset, Finset.sum_union hdisjoint, Finset.sum_image (fun x _ y _ h => hinj _ h),
    Finset.sum_image (fun x _ y _ h => hinj _ h)]

end Counts

/-- **When each metadata object is counted once**: `metadata_size` is the sum of the sizes of the
    distinct dirtrees and of the distinct dirmetas that the commit reaches if and only if no two of
    its directories have one dirtree or one dirmeta, but for objects of size zero. -/
theorem metadataSize_exact_iff (lib : Libostree) {repo : Repo} {rev : String} {c : Checksum}
    {commit : Commit} {fuel : Nat} (hrev : repo.requireRev rev = .ok c)
    (hcommit : repo.commits[c]? = some commit) (hcomplete : repo.Complete commit)
    (hdepth : repo.DepthLt fuel commit.contents) {T M : Finset Checksum}
    (hT : ∀ x, x ∈ T ↔ repo.CommitReaches commit .dirTree x)
    (hM : ∀ x, x ∈ M ↔ repo.CommitReaches commit .dirMeta x) :
    ∃ k, Chunking.new lib repo fuel rev = .ok k ∧
      (k.metadataSize = ∑ x ∈ T, metadataBytes lib repo.toObjects (.dirTree, x)
          + ∑ x ∈ M, metadataBytes lib repo.toObjects (.dirMeta, x) ↔
        ((repo.commitDirectories fuel commit).filter
          (metadataBytes lib repo.toObjects · ≠ 0)).Nodup) := by
  obtain ⟨k, hnew, hsize⟩ := @metadataSize_eq lib _ _ _ _ _ hrev hcommit hcomplete hdepth
  refine ⟨k, hnew, ?_⟩
  rw [hsize, ← sum_commitDirectories hdepth hT hM]
  exact ListSums.sum_map_eq_iff (repo.commitDirectories fuel commit) _

-- ── Two commits ───────────────────────────────────────────────────────────────

/-- A repository with the commit of an empty directory. -/
def bareRepo : Repo where
  commits := (∅ : ExtTreeMap Checksum Commit).insert emptyChunkCommitSum emptyChunkCommit
  dirtrees := (∅ : ExtTreeMap Checksum DirTree).insert emptyTreeSum emptyTree
  dirmetas := (∅ : ExtTreeMap Checksum DirMeta).insert sampleMetaSum sampleMeta

theorem lookup_bareTree : bareRepo.dirtrees[emptyTreeSum]? = some emptyTree := by
  rw [bareRepo, ExtTreeMap.lookup_insert, if_pos rfl]

/-- All that the commit of an empty directory reaches. -/
theorem reaches_bareCommit {ty : ObjectType} {x : Checksum} :
    bareRepo.CommitReaches emptyChunkCommit ty x ↔
      (ty = .dirMeta ∧ x = sampleMetaSum) ∨ (ty = .dirTree ∧ x = emptyTreeSum) := by
  rw [CommitReaches, reaches_iff]
  refine or_congr_right (or_iff_left ?_)
  rintro ⟨d, hd, h⟩
  obtain rfl : emptyTree = d := Option.some.inj (lookup_bareTree.symm.trans hd)
  rcases h with ⟨-, f, hf, -⟩ | ⟨s, hs, -⟩
  · exact absurd hf List.not_mem_nil
  · exact absurd hs List.not_mem_nil

/-- A directory without subdirectories is counted right. -/
theorem bareRepo_metadataSize : ∃ k,
    Chunking.new sampleTables.lib bareRepo 1 emptyChunkCommitSum = .ok k ∧
      k.metadataSize = ∑ x ∈ {emptyTreeSum}, metadataBytes sampleTables.lib bareRepo.toObjects
          (.dirTree, x)
        + ∑ x ∈ {sampleMetaSum}, metadataBytes sampleTables.lib bareRepo.toObjects (.dirMeta, x) := by
  have hcommit : bareRepo.commits[emptyChunkCommitSum]? = some emptyChunkCommit := by
    rw [bareRepo, ExtTreeMap.lookup_insert, if_pos rfl]
  have hmeta : bareRepo.dirmetas[sampleMetaSum]? = some sampleMeta := by
    rw [bareRepo, ExtTreeMap.lookup_insert, if_pos rfl]
  have hcomplete : bareRepo.Complete emptyChunkCommit := by
    intro ty x hx
    rcases reaches_bareCommit.mp hx with ⟨rfl, rfl⟩ | ⟨rfl, rfl⟩
    · exact ExtTreeMap.mem_iff_lookup.mpr ⟨_, hmeta⟩
    · exact ExtTreeMap.mem_iff_lookup.mpr ⟨_, lookup_bareTree⟩
  have hdepth : bareRepo.DepthLt 1 emptyChunkCommit.contents := by
    intro d hd s hs
    obtain rfl : emptyTree = d := Option.some.inj (lookup_bareTree.symm.trans hd)
    exact absurd hs List.not_mem_nil
  have hdirs : bareRepo.commitDirectories 1 emptyChunkCommit
      = [(.dirTree, emptyTreeSum), (.dirMeta, sampleMetaSum)] := by
    rw [@commitDirectories_succ _ 0 emptyChunkCommit _ lookup_bareTree, emptyTree,
      List.flatMap_nil, emptyChunkCommit]
  obtain ⟨k, hnew, hiff⟩ := metadataSize_exact_iff sampleTables.lib
    (if_pos (by decide +kernel)) hcommit hcomplete hdepth (T := {emptyTreeSum})
    (M := {sampleMetaSum}) (fun x => by simp [reaches_bareCommit])
    (fun x => by simp [reaches_bareCommit])
  refine ⟨k, hnew, hiff.mpr (List.Nodup.filter _ ?_)⟩
  rw [hdirs]
  decide

/-- **A shared dirmeta is counted twice**: the root directory and the empty directory in it have the
    same owner and mode. -/
theorem sharedMeta_counted_twice : ∃ (k : Chunking) (T M : Finset Checksum),
    Chunking.new sampleTables.lib sampleRepo 2 sampleCommitSum = .ok k ∧
      (∀ x, x ∈ T ↔ sampleRepo.CommitReaches sampleCommit .dirTree x) ∧
      (∀ x, x ∈ M ↔ sampleRepo.CommitReaches sampleCommit .dirMeta x) ∧
      k.metadataSize = ∑ x ∈ T, metadataBytes sampleTables.lib sampleRepo.toObjects (.dirTree, x)
        + ∑ x ∈ M, metadataBytes sampleTables.lib sampleRepo.toObjects (.dirMeta, x) + 12 := by
  obtain ⟨k, hnew, hsize⟩ := @metadataSize_eq sampleTables.lib _ _ _ _ _
    (if_pos isSha256_sampleCommitSum) lookup_sampleCommit
    (fun ty x hx => (Tar.sampleCommit_stored.intact ty x hx).has) Tar.depthLt_sampleTree
  have hboot : ("boot", emptyTreeSum, sampleMetaSum) ∈ sampleTree.dirs := List.mem_singleton.mpr rfl
  refine ⟨k, {sampleTreeSum, emptyTreeSum}, {sampleMetaSum}, hnew, ?_, ?_, ?_⟩
  · intro x
    rw [Finset.mem_insert, Finset.mem_singleton]
    constructor
    · rintro (rfl | rfl)
      · exact .inr (.self _)
      · exact .inr (.sub lookup_sampleTree hboot (.self _))
    · intro h
      rcases Tar.reaches_sampleCommit h with ⟨hty, -⟩ | ⟨-, h⟩ | ⟨hty, -⟩
      · exact absurd hty (by simp)
      · exact h
      · exact absurd hty (by simp)
  · intro x
    rw [Finset.mem_singleton]
    constructor
    · rintro rfl
      exact .inl ⟨rfl, rfl⟩
    · intro h
      rcases Tar.reaches_sampleCommit h with ⟨-, h⟩ | ⟨hty, -⟩ | ⟨hty, -⟩
      · exact h
      · exact absurd hty (by simp)
      · exact absurd hty (by simp)
  · have hdirs : sampleRepo.commitDirectories 2 sampleCommit
        = [(.dirTree, sampleTreeSum), (.dirMeta, sampleMetaSum), (.dirTree, emptyTreeSum),
          (.dirMeta, sampleMetaSum)] := by
      have hempty : sampleRepo.directories 1 emptyTreeSum = [] := by
        rw [directories_succ lookup_emptyTree, emptyTree, List.flatMap_nil]
      rw [@commitDirectories_succ _ 1 sampleCommit _ lookup_sampleTree, sampleTree,
        List.flatMap_singleton, hempty, List.nil_append, sampleCommit]
    have hmeta : metadataBytes sampleTables.lib sampleRepo.toObjects (.dirMeta, sampleMetaSum)
        = 12 := by
      rw [metadataBytes_dirMeta lookup_sampleMeta, toBytes_sampleMeta]
      rfl
    have hne : sampleTreeSum ≠ emptyTreeSum := by decide
    rw [hsize, hdirs, ← hmeta]
    exact bytesOf_shared hne

end OstreeExt
