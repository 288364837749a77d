import OstreeExt.Path
import OstreeExt.Repo

/-!
# What a commit reaches

The objects below a directory tree, as a relation on the object store: the tree itself,
its files, the metadata of its subdirectories, and what those reach in turn.  A commit is
complete when everything it reaches is stored.
-/

namespace OstreeExt

namespace Objects

/-- The store holds an object of the given type. -/
def Has (o : Objects) : ObjectType → Checksum → Prop
  | .commit, c => c ∈ o.commits
  | .dirTree, c => c ∈ o.dirtrees
  | .dirMeta, c => c ∈ o.dirmetas
  | .file, c => c ∈ o.files
  | .commitMeta, _ => False

/-- **Reachability** from a directory tree. -/
inductive Reaches (o : Objects) : Checksum → ObjectType → Checksum → Prop where
  | self (c : Checksum) : Reaches o c .dirTree c
  | file {c : Checksum} {d : DirTree} {f : String × Checksum}
      (hd : o.dirtrees[c]? = some d) (hf : f ∈ d.files) : Reaches o c .file f.2
  | dirmeta {c : Checksum} {d : DirTree} {s : String × Checksum × Checksum}
      (hd : o.dirtrees[c]? = some d) (hs : s ∈ d.dirs) : Reaches o c .dirMeta s.2.2
  | sub {c : Checksum} {d : DirTree} {s : String × Checksum × Checksum} {ty : ObjectType}
      {x : Checksum} (hd : o.dirtrees[c]? = some d) (hs : s ∈ d.dirs)
      (hx : Reaches o s.2.1 ty x) : Reaches o c ty x

/-- Reachability from a commit: the metadata of its root directory, and the tree. -/
def CommitReaches (o : Objects) (commit : Commit) (ty : ObjectType) (x : Checksum) : Prop :=
  (ty = .dirMeta ∧ x = commit.dirmeta) ∨ o.Reaches commit.contents ty x

/-- What a walk meets that starts at a tree and, at the root of a commit, does not enter a
    directory named `sysroot`. -/
def Walks (o : Objects) (isRoot : Bool) (c : Checksum) (ty : ObjectType) (x : Checksum) : Prop :=
  (ty = .dirTree ∧ x = c) ∨ ∃ d, o.dirtrees[c]? = some d ∧
    ((ty = .file ∧ ∃ f ∈ d.files, f.2 = x) ∨
     ∃ s ∈ d.dirs, (ty = .dirMeta ∧ s.2.2 = x) ∨
       (¬ (isRoot = true ∧ s.1 = "sysroot") ∧ o.Reaches s.2.1 ty x))

/-- The paths of a tree with their content objects, in the order of a walk that has at
    most `n` levels. -/
def occurrences (o : Objects) : Nat → Bool → Path → Checksum → List (Path × Checksum)
  | 0, _, _, _ => []
  | n + 1, isRoot, path, c =>
      match o.dirtrees[c]? with
      | none => []
      | some d =>
          d.files.map (fun f => (path.join f.1, f.2)) ++ d.dirs.flatMap fun s =>
            if isRoot ∧ s.1 = "sysroot" then [] else occurrences o n false (path.join s.1) s.2.1

/-- The tree has fewer than `n` levels of directories. -/
def DepthLt (o : Objects) : Nat → Checksum → Prop
  | 0, _ => False
  | n + 1, c => ∀ d, o.dirtrees[c]? = some d → ∀ s ∈ d.dirs, DepthLt o n s.2.1

/-- Everything that the commit reaches is in the store. -/
def Complete (o : Objects) (commit : Commit) : Prop :=
  ∀ ty x, o.CommitReaches commit ty x → o.Has ty x

section Reaches

variable {o : Objects}

/-- Only dirtrees, dirmetas and files are reachable. -/
theorem Reaches.objtype {c x : Checksum} {ty : ObjectType} (h : o.Reaches c ty x) :
    ty = .dirTree ∨ ty = .dirMeta ∨ ty = .file := by
  induction h with
  | self => exact .inl rfl
  | file => exact .inr (.inr rfl)
  | dirmeta => exact .inr (.inl rfl)
  | sub _ _ _ ih => exact ih

/-- What is reached from a tree other than the tree itself is reached through its entries. -/
theorem reaches_iff {c x : Checksum} {ty : ObjectType} :
    o.Reaches c ty x ↔ (ty = .dirTree ∧ x = c) ∨ ∃ d, o.dirtrees[c]? = some d ∧
      ((ty = .file ∧ ∃ f ∈ d.files, f.2 = x) ∨
       ∃ s ∈ d.dirs, (ty = .dirMeta ∧ s.2.2 = x) ∨ o.Reaches s.2.1 ty x) := by
  constructor
  · intro h
    cases h with
    | self => exact .inl ⟨rfl, rfl⟩
    | file hd hf => exact .inr ⟨_, hd, .inl ⟨rfl, _, hf, rfl⟩⟩
    | dirmeta hd hs => exact .inr ⟨_, hd, .inr ⟨_, hs, .inl ⟨rfl, rfl⟩⟩⟩
    | sub hd hs hx => exact .inr ⟨_, hd, .inr ⟨_, hs, .inr hx⟩⟩
  · rintro (⟨rfl, rfl⟩ | ⟨d, hd, ⟨rfl, f, hf, rfl⟩ | ⟨s, hs, ⟨rfl, rfl⟩ | hx⟩⟩)
    · exact .self _
    · exact .file hd hf
    · exact .dirmeta hd hs
    · exact .sub hd hs hx

/-- Below the root, a walk meets everything. -/
theorem walks_false {c x : Checksum} {ty : ObjectType} :
    o.Walks false c ty x ↔ o.Reaches c ty x := by
  rw [reaches_iff, Walks]
  simp

/-- What a walk meets is reachable. -/
theorem Walks.reaches {isRoot : Bool} {c x : Checksum} {ty : ObjectType}
    (h : o.Walks isRoot c ty x) : o.Reaches c ty x := by
  rw [reaches_iff]
  obtain h | ⟨d, hd, h | ⟨s, hs, h | ⟨_, h⟩⟩⟩ := h
  · exact .inl h
  · exact .inr ⟨d, hd, .inl h⟩
  · exact .inr ⟨d, hd, .inr ⟨s, hs, .inl h⟩⟩
  · exact .inr ⟨d, hd, .inr ⟨s, hs, .inr h⟩⟩

/-- Reachability is a matter of the dirtrees alone. -/
theorem Reaches.of_dirtrees {o' : Objects} {c x : Checksum} {ty : ObjectType}
    (h : o.Reaches c ty x) (heq : o'.dirtrees = o.dirtrees) : o'.Reaches c ty x := by
  induction h with
  | self c => exact .self c
  | file hd hf => exact .file (heq ▸ hd) hf
  | dirmeta hd hs => exact .dirmeta (heq ▸ hd) hs
  | sub hd hs _ ih => exact .sub (heq ▸ hd) hs ih

theorem commitReaches_congr {o' : Objects} {commit : Commit} {x : Checksum} {ty : ObjectType}
    (heq : o'.dirtrees = o.dirtrees) :
    o'.CommitReaches commit ty x ↔ o.CommitReaches commit ty x :=
  or_congr_right ⟨fun h => h.of_dirtrees heq.symm, fun h => h.of_dirtrees heq⟩

/-- The types of what a commit reaches. -/
theorem CommitReaches.objtype {commit : Commit} {x : Checksum} {ty : ObjectType}
    (h : o.CommitReaches commit ty x) : ty = .dirTree ∨ ty = .dirMeta ∨ ty = .file := by
  rcases h with ⟨rfl, _⟩ | h
  · exact .inr (.inl rfl)
  · exact h.objtype

/-- A store that has the same dirtrees along the way reaches the same. -/
theorem Reaches.transfer {o' : Objects} {c x : Checksum} {ty : ObjectType}
    (h : o'.Reaches c ty x)
    (hsame : ∀ t, o.Reaches c .dirTree t → o'.dirtrees[t]? = o.dirtrees[t]?) :
    o.Reaches c ty x := by
  induction h with
  | self c => exact .self c
  | file hd hf => exact .file ((hsame _ (.self _)).symm.trans hd) hf
  | dirmeta hd hs => exact .dirmeta ((hsame _ (.self _)).symm.trans hd) hs
  | sub hd hs _ ih =>
      have hd' := (hsame _ (.self _)).symm.trans hd
      exact .sub hd' hs (ih (fun t ht => hsame t (.sub hd' hs ht)))

/-- A complete commit stays complete as the store grows. -/
theorem Complete.mono {o' : Objects} {commit : Commit} (h : o.Complete commit)
    (hkeeps : o.Keeps o') : o'.Complete commit := by
  have hsame : ∀ t, o.Reaches commit.contents .dirTree t → o'.dirtrees[t]? = o.dirtrees[t]? := by
    intro t ht
    obtain ⟨d, hd⟩ := Std.ExtTreeMap.mem_iff_lookup.mp (h .dirTree t (.inr ht))
    rw [hd]
    exact hkeeps.dirtrees t d hd
  intro ty x hx
  have hreach : o.CommitReaches commit ty x := hx.imp_right (fun hx => hx.transfer hsame)
  have hhas := h ty x hreach
  rcases hreach.objtype with rfl | rfl | rfl
  · obtain ⟨d, hd⟩ := Std.ExtTreeMap.mem_iff_lookup.mp hhas
    exact Std.ExtTreeMap.mem_iff_lookup.mpr ⟨d, hkeeps.dirtrees x d hd⟩
  · obtain ⟨m, hm⟩ := Std.ExtTreeMap.mem_iff_lookup.mp hhas
    exact Std.ExtTreeMap.mem_iff_lookup.mpr ⟨m, hkeeps.dirmetas x m hm⟩
  · obtain ⟨f, hf⟩ := Std.ExtTreeMap.mem_iff_lookup.mp hhas
    exact Std.ExtTreeMap.mem_iff_lookup.mpr ⟨f, hkeeps.files x f hf⟩

/-- Completeness is a matter of dirtrees, dirmetas and files. -/
theorem complete_congr {o' : Objects} {commit : Commit} (hdirtrees : o'.dirtrees = o.dirtrees)
    (hdirmetas : o'.dirmetas = o.dirmetas) (hfiles : o'.files = o.files) :
    o'.Complete commit ↔ o.Complete commit := by
  refine forall_congr' fun ty => forall_congr' fun x => ?_
  rw [commitReaches_congr hdirtrees]
  refine imp_congr_right fun hx => ?_
  rcases hx.objtype with rfl | rfl | rfl
  · simp only [Has, hdirtrees]
  · simp only [Has, hdirmetas]
  · simp only [Has, hfiles]

/-- A deeper bound is a bound. -/
theorem DepthLt.mono {n m : Nat} {c : Checksum} (h : o.DepthLt n c) (hnm : n ≤ m) :
    o.DepthLt m c := by
  induction n generalizing m c with
  | zero => exact h.elim
  | succ n ih =>
      obtain ⟨k, rfl⟩ : ∃ k, m = k + 1 := ⟨m - 1, by omega⟩
      intro d hd s hs
      exact ih (h d hd s hs) (by omega)

/-- A store that has the same dirtrees along the way has the same depth. -/
theorem DepthLt.transfer {o' : Objects} {n : Nat} {c : Checksum} (h : o.DepthLt n c)
    (hsame : ∀ t, o.Reaches c .dirTree t → o'.dirtrees[t]? = o.dirtrees[t]?) : o'.DepthLt n c := by
  induction n generalizing c with
  | zero => exact h
  | succ n ih =>
      intro d hd s hs
      have hd' : o.dirtrees[c]? = some d := (hsame c (.self c)).symm.trans hd
      exact ih (h d hd' s hs) (fun t ht => hsame t (.sub hd' hs ht))

-- ── Occurrences ───────────────────────────────────────────────────────────────

/-- The occurrences in a tree, one level down. -/
theorem mem_occurrences_succ {n : Nat} {path p : Path} {c x : Checksum} :
    (p, x) ∈ o.occurrences (n + 1) false path c ↔ ∃ d, o.dirtrees[c]? = some d ∧
      ((∃ f ∈ d.files, p = path.join f.1 ∧ x = f.2) ∨
       ∃ s ∈ d.dirs, (p, x) ∈ o.occurrences n false (path.join s.1) s.2.1) := by
  rw [occurrences]
  cases hd : o.dirtrees[c]? with
  | none => simp
  | some d => simp [eq_comm]

/-- An object that occurs is reachable. -/
theorem reaches_of_mem_occurrences {n : Nat} {path p : Path} {c x : Checksum}
    (h : (p, x) ∈ o.occurrences n false path c) : o.Reaches c .file x := by
  induction n generalizing path c with
  | zero => exact nomatch h
  | succ n ih =>
      obtain ⟨d, hd, ⟨f, hf, _, rfl⟩ | ⟨s, hs, h⟩⟩ := mem_occurrences_succ.mp h
      · exact .file hd hf
      · exact .sub hd hs (ih h)

/-- A content object that is reachable occurs. -/
theorem exists_occurrence {n : Nat} {c x : Checksum} (hdepth : o.DepthLt n c)
    (h : o.Reaches c .file x) (path : Path) : ∃ p, (p, x) ∈ o.occurrences n false path c := by
  induction n generalizing path c with
  | zero => exact hdepth.elim
  | succ n ih =>
      rcases reaches_iff.mp h with ⟨hty, _⟩ | ⟨d, hd, ⟨_, f, hf, rfl⟩ | ⟨s, hs, ⟨hty, _⟩ | h⟩⟩
      · exact nomatch hty
      · exact ⟨_, mem_occurrences_succ.mpr ⟨d, hd, .inl ⟨f, hf, rfl, rfl⟩⟩⟩
      · exact nomatch hty
      · obtain ⟨p, hp⟩ := ih (hdepth d hd s hs) h (path.join s.1)
        exact ⟨p, mem_occurrences_succ.mpr ⟨d, hd, .inr ⟨s, hs, hp⟩⟩⟩

/-- The paths of a tree continue its own path. -/
theorem occurrences_path {n : Nat} {path p : Path} {c x : Checksum}
    (h : (p, x) ∈ o.occurrences n false path c) : ∃ rest, p = path ++ rest := by
  induction n generalizing path c with
  | zero => exact nomatch h
  | succ n ih =>
      obtain ⟨d, hd, ⟨f, hf, rfl, _⟩ | ⟨s, hs, h⟩⟩ := mem_occurrences_succ.mp h
      · exact ⟨[.normal f.1], rfl⟩
      · obtain ⟨rest, rfl⟩ := ih h
        exact ⟨.normal s.1 :: rest, by rw [Path.join, List.append_assoc]; rfl⟩

/-- Stores with the same dirtrees along the way have the same occurrences. -/
theorem occurrences_congr {o' : Objects} {n : Nat} {b : Bool} {path : Path} {c : Checksum}
    (hsame : ∀ t, o.Reaches c .dirTree t → o'.dirtrees[t]? = o.dirtrees[t]?) :
    o'.occurrences n b path c = o.occurrences n b path c := by
  induction n generalizing b path c with
  | zero => rfl
  | succ n ih =>
      rw [occurrences, occurrences, hsame c (.self c)]
      cases hd : o.dirtrees[c]? with
      | none => rfl
      | some d =>
          have hdirs : ∀ s ∈ d.dirs, o'.occurrences n false (path.join s.1) s.2.1
              = o.occurrences n false (path.join s.1) s.2.1 :=
            fun s hs => ih (fun t ht => hsame t (.sub hd hs ht))
          show _ ++ _ = _ ++ _
          congr 1
          refine List.flatMap_congr (fun s hs => ?_)
          rw [hdirs s hs]

end Reaches

end Objects

end OstreeExt
