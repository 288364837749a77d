import Mathlib.Algebra.BigOperators.Group.Finset.Basic
import OstreeExt.Tar.Distinct
import OstreeExt.Store.Chunked

/-!
# Chunking conserves objects, paths and sizes

What `Chunking::new` puts into its one chunk, said of the tree and not of the walk: each object
that is a file somewhere in the commit, with its size and the paths of those files
(`Chunk.Holds`).  The moves that follow take objects from one chunk into another one; after any
number of them every object is in one chunk, as it was, and the sizes add up (`Conserves`).
-/

namespace OstreeExt

open Std Exec Objects

-- ── The files of a tree ───────────────────────────────────────────────────────

namespace Objects

variable {o : Objects}

/-- In the tree `c`, the file that the names `ns` lead to is the object `x`. -/
inductive FileAt (o : Objects) : Checksum → List String → Checksum → Prop where
  | file {c : Checksum} {d : DirTree} {f : String × Checksum} (hd : o.dirtrees[c]? = some d)
      (hf : f ∈ d.files) : FileAt o c [f.1] f.2
  | sub {c : Checksum} {d : DirTree} {s : String × Checksum × Checksum} {ns : List String}
      {x : Checksum} (hd : o.dirtrees[c]? = some d) (hs : s ∈ d.dirs) (h : FileAt o s.2.1 ns x) :
      FileAt o c (s.1 :: ns) x

/-- The content objects that are reachable are those of the files. -/
theorem reaches_iff_fileAt {c x : Checksum} : o.Reaches c .file x ↔ ∃ ns, o.FileAt c ns x := by
  constructor
  · intro h
    generalize hty : ObjectType.file = ty at h
    induction h with
    | self => exact absurd hty (by simp)
    | file hd hf => exact ⟨_, .file hd hf⟩
    | dirmeta => exact absurd hty (by simp)
    | sub hd hs _ ih =>
        obtain ⟨ns, h⟩ := ih hty
        exact ⟨_, .sub hd hs h⟩
  · rintro ⟨ns, h⟩
    induction h with
    | file hd hf => exact .file hd hf
    | sub hd hs _ ih => exact .sub hd hs ih

/-- **The walk finds every file**, and nothing else. -/
theorem mem_occurrences_fileAt {n : Nat} {path p : Path} {c x : Checksum} (hdepth : o.DepthLt n c) :
    (p, x) ∈ o.occurrences n false path c ↔
      ∃ ns, o.FileAt c ns x ∧ p = path ++ ns.map Component.normal := by
  induction n generalizing path c with
  | zero => exact hdepth.elim
  | succ n ih =>
      rw [mem_occurrences_succ]
      constructor
      · rintro ⟨d, hd, ⟨f, hf, rfl, rfl⟩ | ⟨s, hs, h⟩⟩
        · exact ⟨[f.1], .file hd hf, rfl⟩
        · obtain ⟨ns, hns, rfl⟩ := (ih (hdepth d hd s hs)).mp h
          refine ⟨s.1 :: ns, .sub hd hs hns, ?_⟩
          rw [Path.join, List.append_assoc]
          rfl
      · rintro ⟨ns, h, rfl⟩
        cases h with
        | file hd hf => exact ⟨_, hd, .inl ⟨_, hf, rfl, rfl⟩⟩
        | sub hd hs h =>
            refine ⟨_, hd, .inr ⟨_, hs, (ih (hdepth _ hd _ hs)).mpr ⟨_, h, ?_⟩⟩⟩
            rw [Path.join, List.append_assoc]
            rfl

end Objects

-- ── The initial chunk ─────────────────────────────────────────────────────────

/-- **The chunk holds the files of the tree**: each of their objects once, with its size and the
    path of every file that it is; and its size is that of these objects. -/
structure Chunk.Holds (o : Objects) (c : Checksum) (chunk : Chunk) : Prop where
  objects : ∀ x : Checksum, x ∈ chunk.content ↔ ∃ ns, o.FileAt c ns x
  size_eq : ∀ (x : Checksum) v, chunk.content[x]? = some v → v.1 = o.fileSize x
  paths : ∀ (x : Checksum) v, chunk.content[x]? = some v → ∀ p : Path,
    p ∈ v.2 ↔ ∃ ns, o.FileAt c ns x ∧ p = .rootDir :: ns.map Component.normal
  once : Tar.WellNamed o c → ∀ (x : Checksum) v, chunk.content[x]? = some v → v.2.Nodup
  total : ∀ S : Finset Checksum, (∀ x, x ∈ S ↔ ∃ ns, o.FileAt c ns x) →
    chunk.size = ∑ x ∈ S, o.fileSize x

theorem nodup_pathsOf {occ : List (Path × Checksum)} (h : occ.Nodup) (x : Checksum) :
    (pathsOf occ x).Nodup := by
  refine h.filterMap ?_
  intro a b p ha hb
  by_cases hax : a.2 = x
  · by_cases hbx : b.2 = x
    · rw [if_pos hax] at ha
      rw [if_pos hbx] at hb
      exact Prod.ext ((Option.some.inj ha).trans (Option.some.inj hb).symm) (hax.trans hbx.symm)
    · rw [if_neg hbx] at hb
      exact absurd hb (by simp)
  · rw [if_neg hax] at ha
    exact absurd ha (by simp)

/-- The size of a mapping, by its keys. -/
theorem contentSize_eq_sum {m : ChunkMapping} {f : Checksum → Nat}
    (hf : ∀ (x : Checksum) v, m[x]? = some v → v.1 = f x) {S : Finset Checksum}
    (hS : ∀ x, x ∈ S ↔ x ∈ m) : contentSize m = ∑ x ∈ S, f x := by
  have hkeys : S = (m.toList.map (·.1)).toFinset := by
    ext x
    rw [hS, List.mem_toFinset, ExtTreeMap.mem_iff_mem_keys_toList]
  rw [hkeys, List.sum_toFinset f (ExtTreeMap.nodup_keys_toList m), List.map_map, contentSize]
  refine congrArg List.sum (List.map_congr_left ?_)
  intro e he
  exact hf e.1 e.2 (ExtTreeMap.mem_toList_iff.mp he)

theorem initialChunk_holds {o : Objects} {n : Nat} {c : Checksum} (hdepth : o.DepthLt n c) :
    (initialChunk o (o.occurrences n false [.rootDir] c)).Holds o c := by
  have hcontent := initialChunk_content o (o.occurrences n false [.rootDir] c)
  have hpaths : ∀ (x : Checksum) (p : Path), p ∈ pathsOf (o.occurrences n false [.rootDir] c) x ↔
      ∃ ns, o.FileAt c ns x ∧ p = .rootDir :: ns.map Component.normal := by
    intro x p
    rw [mem_pathsOf, mem_occurrences_fileAt hdepth]
    rfl
  have hentry : ∀ (x : Checksum) v,
      (initialChunk o (o.occurrences n false [.rootDir] c)).content[x]? = some v →
        v = (o.fileSize x, pathsOf (o.occurrences n false [.rootDir] c) x) := by
    intro x v hv
    rw [hcontent] at hv
    by_cases hempty : pathsOf (o.occurrences n false [.rootDir] c) x = []
    · rw [if_pos hempty] at hv
      exact absurd hv (by simp)
    · rw [if_neg hempty] at hv
      exact (Option.some.inj hv).symm
  have hobjects : ∀ x : Checksum,
      x ∈ (initialChunk o (o.occurrences n false [.rootDir] c)).content ↔ ∃ ns, o.FileAt c ns x := by
    intro x
    rw [ExtTreeMap.mem_iff_lookup, hcontent]
    by_cases hempty : pathsOf (o.occurrences n false [.rootDir] c) x = []
    · rw [if_pos hempty]
      refine iff_of_false (by simp) ?_
      rintro ⟨ns, hns⟩
      have hmem := (hpaths x _).mpr ⟨ns, hns, rfl⟩
      rw [hempty] at hmem
      exact absurd hmem List.not_mem_nil
    · rw [if_neg hempty]
      obtain ⟨p, hp⟩ := List.exists_mem_of_ne_nil _ hempty
      obtain ⟨ns, hns, -⟩ := (hpaths x p).mp hp
      exact iff_of_true ⟨_, rfl⟩ ⟨ns, hns⟩
  refine ⟨hobjects, ?_, ?_, ?_, ?_⟩
  · intro x v hv
    rw [hentry x v hv]
  · intro x v hv p
    rw [hentry x v hv]
    exact hpaths x p
  · intro hnames x v hv
    rw [hentry x v hv]
    exact nodup_pathsOf (@Tar.nodup_occurrences _ _ [] _ hnames) x
  · intro S hS
    rw [initialChunk_sized]
    refine contentSize_eq_sum ?_ (fun x => (hS x).trans (hobjects x).symm)
    intro x v hv
    rw [hentry x v hv]

-- ── Moves ─────────────────────────────────────────────────────────────────────

/-- **Conservation**: every object of the mapping is in exactly one slot, with its entry, and
    nothing else is; the size of a slot is that of its objects, so that taking one of them out of
    it never goes below zero. -/
structure Conserves (whole : ChunkMapping) (slots : List Chunk) : Prop where
  split : Splits whole (contents slots)
  sized : ∀ chunk ∈ slots, chunk.Sized
  enough : ∀ chunk ∈ slots, ∀ (x : Checksum) v, chunk.content[x]? = some v → v.1 ≤ chunk.size

theorem Chunk.Sized.enough {chunk : Chunk} (h : chunk.Sized) {x : Checksum} {v : Nat × List Path}
    (hv : chunk.content[x]? = some v) : v.1 ≤ chunk.size := by
  rw [h, contentSize_erase hv]
  exact Nat.le_add_left _ _

/-- **Any number of moves conserves** what is in the first chunk. -/
theorem Moves.conserves {remainder : Chunk} {slots : List Chunk} (hsized : remainder.Sized)
    (h : Moves [remainder] slots) : Conserves remainder.content slots := by
  have hstart : ∀ chunk ∈ [remainder], chunk.Sized := by
    intro chunk hchunk
    rw [List.mem_singleton.mp hchunk]
    exact hsized
  obtain ⟨hsplit, hslots⟩ := h.keeps (Splits.single remainder.content) hstart
  exact ⟨hsplit, hslots, fun chunk hchunk _ _ hv => (hslots chunk hchunk).enough hv⟩

/-- **`chunking_from_layer_committed` only moves objects.** -/
theorem Store.chunkingFromLayerCommitted_moves {repo : Repo} {k k' : Chunking} {l : Descriptor}
    (h : Store.chunkingFromLayerCommitted repo k l = .ok k') :
    Moves (k.remainder :: k.chunks) (k'.remainder :: k'.chunks) := by
  obtain ⟨layerRef, -, h⟩ := result_bind_eq_ok.mp h
  obtain ⟨root, -, h⟩ := result_bind_eq_ok.mp h
  obtain ⟨names, -, h⟩ := result_bind_eq_ok.mp h
  obtain ⟨_, -, h⟩ := result_bind_eq_ok.mp h
  injection h with h
  subst h
  exact moves_moveObjs _ _ _ _ (.push "" [] .refl)

/-- The same of the layers of an image. -/
theorem Store.chunkingFromLayers_moves {repo : Repo} {layers : List Descriptor} {k k' : Chunking}
    (h : layers.foldlM (Store.chunkingFromLayerCommitted repo) k = .ok k') :
    Moves (k.remainder :: k.chunks) (k'.remainder :: k'.chunks) := by
  induction layers generalizing k with
  | nil =>
      injection h with h
      subst h
      exact .refl
  | cons l layers ih =>
      rw [List.foldlM_cons] at h
      obtain ⟨k₁, h₁, h⟩ := result_bind_eq_ok.mp h
      exact (Store.chunkingFromLayerCommitted_moves h₁).trans (ih h)

/-- **Chunking conserves objects, paths and sizes.**  `Chunking::new` puts the files of the commit
    into one chunk; and after any number of moves, as those of `process_mapping` and of
    `chunking_from_layer_committed`, each object is in one place, as it was. -/
theorem chunking_conserves (lib : Libostree) {repo : Repo} {rev : String} {c : Checksum}
    {commit : Commit} {fuel : Nat} (hrev : repo.requireRev rev = .ok c)
    (hcommit : repo.commits[c]? = some commit) (hcomplete : repo.Complete commit)
    (hdepth : repo.DepthLt fuel commit.contents) :
    ∃ k, Chunking.new lib repo fuel rev = .ok k ∧ k.chunks = [] ∧
      k.remainder.Holds repo.toObjects commit.contents ∧
      (∀ slots, Moves [k.remainder] slots → Conserves k.remainder.content slots) ∧
      (∀ (st : Statistics) (n : Nat) contentmeta maxLayers prior k',
        k.processMapping st n contentmeta maxLayers prior = .ok k' →
          Conserves k.remainder.content (k'.remainder :: k'.chunks)) ∧
      ∀ (dst : Repo) (layers : List Descriptor) k',
        layers.foldlM (Store.chunkingFromLayerCommitted dst) k = .ok k' →
          Conserves k.remainder.content (k'.remainder :: k'.chunks) := by
  obtain ⟨n, hnew⟩ := chunkingNew_eq lib hrev hcommit hcomplete hdepth
  refine ⟨_, hnew, rfl, initialChunk_holds hdepth, ?_, ?_, ?_⟩
  · intro slots hmoves
    exact hmoves.conserves (initialChunk_sized _ _)
  · intro st n contentmeta maxLayers prior k' h
    exact (processMapping_moves h).conserves (initialChunk_sized _ _)
  · intro dst layers k' h
    exact (Store.chunkingFromLayers_moves h).conserves (initialChunk_sized _ _)

/-- The two files of a small commit, one of them moved into a chunk of its own. -/
theorem sampleCommit_conserved : ∃ k,
    Chunking.new sampleTables.lib sampleRepo 2 sampleCommitSum = .ok k ∧
      k.remainder.Holds sampleRepo.toObjects sampleTreeSum ∧
      Conserves k.remainder.content [(k.remainder.moveObj {} sampleMotdSum).1,
        (k.remainder.moveObj {} sampleMotdSum).2] := by
  obtain ⟨k, hnew, -, hholds, hmoves, -⟩ := chunking_conserves sampleTables.lib
    (if_pos isSha256_sampleCommitSum) Tar.sampleCommit_stored.stored
    (fun ty x hx => (Tar.sampleCommit_stored.intact ty x hx).has) Tar.depthLt_sampleTree
  refine ⟨k, hnew, hholds, hmoves _ ?_⟩
  exact @Moves.forth _ [] [] [] _ _ sampleMotdSum (.push "" [] .refl)

end OstreeExt
