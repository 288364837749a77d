import OstreeExt.Diff.Exact
import OstreeExt.Tar.Complete

/-!
# Where the difference is total

The walk goes down into whatever stands in the place of a directory, and a file has no children:
a directory that became a file ends it with an error.  Everywhere else it succeeds, and every
difference between the two trees is in one of the six sets or below a path that is.
-/

namespace OstreeExt

open Exec Tar Store

-- ── Directories that became something else ────────────────────────────────────

section Lost

variable {o : Objects} {n : Nat} {a x : Checksum} {f t : RepoFile} {d d' : FileTreeDiff}

/-- A file has no directories. -/
theorem noDirLost_file (c : Checksum) (t : RepoFile) : NoDirLost o (.file c) t := by
  intro path c' m x' hf
  exact absurd (resolve_file hf).2 (by simp)

/-- Directories with the same contents have the same subdirectories. -/
theorem noDirLost_same (c m m' : Checksum) : NoDirLost o (.dir c m) (.dir c m') := by
  intro path c' m'' x' hf ht
  cases path with
  | nil =>
      rw [RepoFile.resolve_nil] at ht
      exact absurd (Option.some.inj ht) (by simp)
  | cons name path =>
      rw [RepoFile.resolve_cons] at hf ht
      rw [RepoFile.childOf_dir c m' m] at ht
      exact absurd (Option.some.inj (hf.symm.trans ht)) (by simp)

/-- A query that succeeds finds the child with the name. -/
theorem queryInfoOptional_ok {name : String} {found : Option RepoFile}
    (h : t.queryInfoOptional o name = .ok found) : found = t.childOf o name := by
  cases t with
  | file c => exact absurd h (by simp [RepoFile.queryInfoOptional, RepoFile.load, Except.map])
  | dir c m =>
      rw [RepoFile.queryInfoOptional, RepoFile.load] at h
      cases hd : o.dirtrees[c]? with
      | none =>
          rw [hd] at h
          exact absurd h (by simp [okOr, Except.map])
      | some d =>
          rw [hd] at h
          injection h with h
          rw [RepoFile.childOf, hd, ← h]
          rfl

/-- **A walk that succeeds has met no directory that is something else.** -/
theorem noDirLost_of_ok {pfx : String} {u : Unit} (hfrom : SoundTree o n a)
    (h : diffRecurse o n pfx (.dir a x) t d = .ok u d') : NoDirLost o (.dir a x) t := by
  induction n generalizing a x t pfx u d d' with
  | zero => exact absurd hfrom.depth id
  | succ n ih =>
      obtain ⟨fromChildren, hfromIter, hmem⟩ := enumerateChildren_dir hfrom x
      obtain ⟨_, _, _, _, _, hsub⟩ := hfrom.load x
      rw [diffRecurse, hfromIter, bind_of_ok (liftR_ok _ _)] at h
      obtain ⟨_, d₁, hloop, h₁⟩ := bind_ok h
      obtain ⟨toChildren, htoIter, _⟩ := liftR_bind_ok h₁
      intro path c m z hf ht
      cases path with
      | nil =>
          -- a file has no children to enumerate
          obtain rfl := Option.some.inj ((RepoFile.resolve_nil t).symm.trans ht)
          exact absurd htoIter (by simp [RepoFile.enumerateChildren, RepoFile.load, Except.map])
      | cons name path =>
          rw [RepoFile.resolve_cons] at hf ht
          obtain ⟨g, hg, hf⟩ := Option.bind_eq_some_iff.mp hf
          obtain ⟨g', hg', ht⟩ := Option.bind_eq_some_iff.mp ht
          obtain ⟨s₁, s₂, hround⟩ := forM_ok_round hloop ((hmem name g).mpr hg)
          suffices hchild : NoDirLost o g g' from hchild path c m z hf ht
          obtain ⟨found, hquery, h₂⟩ := liftR_bind_ok hround
          obtain rfl : found = some g' := (queryInfoOptional_ok hquery).trans hg'
          dsimp only at h₂
          obtain ⟨_, _, h₃⟩ := liftR_bind_ok h₂
          obtain ⟨_, _, h₄⟩ := liftR_bind_ok h₃
          cases g with
          | file c' => exact noDirLost_file c' g'
          | dir c' m' =>
              rw [if_pos (show (RepoFile.dir c' m').isDir = true from rfl)] at h₄
              by_cases hc : (RepoFile.dir c' m').treeGetContentsChecksum ≠ g'.treeGetContentsChecksum
              · rw [if_pos hc] at h₄
                obtain ⟨_, s₃, hrec, _⟩ := bind_ok h₄
                exact ih (hsub name c' m' hg).1 hrec
              · rw [not_not] at hc
                cases g' with
                | file c => exact absurd hc (by simp [RepoFile.treeGetContentsChecksum])
                | dir c m =>
                    obtain rfl : c' = c := Option.some.inj hc
                    exact noDirLost_same c' m' m

/-- The walk returns, whatever stands on the second side. -/
theorem not_fails_diffRecurse {pfx : String} (hfrom : SoundTree o n a) :
    ¬ Fails Stop.Aborts (diffRecurse o n pfx (.dir a x) t) d := by
  have hload : ∀ g : RepoFile, ¬ Refuses Stop.Aborts (g.load o) := by
    intro g
    cases g <;> simp [RepoFile.load]
  have hquery : ∀ (g : RepoFile) name, ¬ Refuses Stop.Aborts (g.queryInfoOptional o name) := by
    intro g name
    rw [RepoFile.queryInfoOptional, refuses_map_iff]
    exact hload g
  have hresolved : ∀ g : RepoFile, ¬ Refuses Stop.Aborts (g.ensureResolved o) := by
    intro g
    cases g with
    | file c => exact not_refuses_ok _
    | dir c m =>
        rw [RepoFile.ensureResolved, refuses_bind_iff]
        rintro (h | ⟨_, _, h⟩)
        · exact hload _ h
        rw [refuses_bind_iff] at h
        rcases h with h | ⟨_, _, h⟩
        · exact not_refuses_okOr _ _ h
        · exact not_refuses_ok _ h
  induction n generalizing a x t pfx d with
  | zero => exact absurd hfrom.depth id
  | succ n ih =>
      obtain ⟨fromChildren, hfromIter, hmem⟩ := enumerateChildren_dir hfrom x
      obtain ⟨_, _, _, _, _, hsub⟩ := hfrom.load x
      rw [diffRecurse, hfromIter, fails_bind_of_ok (liftR_ok _ _), fails_bind_iff]
      rintro (h | ⟨_, d₁, _, h⟩)
      · obtain ⟨pre, ⟨name, g⟩, post, d₁, hsplit, _, hround⟩ := fails_forM_iff.mp h
        have hg := (hmem name g).mp (by rw [hsplit]; simp)
        rw [diffFromChild, fails_liftR_bind_iff] at hround
        rcases hround with hround | ⟨found, _, hround⟩
        · exact hquery _ _ hround
        cases found with
        | none =>
            dsimp only at hround
            split at hround
            · exact Never.update _ _ hround
            · exact Never.update _ _ hround
        | some g' =>
            dsimp only at hround
            rw [fails_liftR_bind_iff] at hround
            rcases hround with hround | ⟨_, _, hround⟩
            · exact hresolved _ hround
            rw [fails_liftR_bind_iff] at hround
            rcases hround with hround | ⟨_, _, hround⟩
            · exact hresolved _ hround
            have hmeta : ∀ {c : Prop} [Decidable c] k p d, ¬ Fails Stop.Aborts
                (if c then modify (·.insert k p) else pure () : DiffM Unit) d := by
              intro c _ k p d
              split
              · exact Never.update _ _
              · exact Never.pure _ _
            cases g with
            | file c => exact hmeta _ _ _ hround
            | dir c m =>
                rw [if_pos (show (RepoFile.dir c m).isDir = true from rfl)] at hround
                by_cases hc : (RepoFile.dir c m).treeGetContentsChecksum ≠ g'.treeGetContentsChecksum
                · rw [if_pos hc, fails_bind_iff] at hround
                  rcases hround with hround | ⟨_, d₂, _, hround⟩
                  · exact ih (hsub name c m hg).1 hround
                  · exact hmeta _ _ _ hround
                · rw [if_neg hc] at hround
                  exact hmeta _ _ _ hround
      · rw [fails_liftR_bind_iff] at h
        rcases h with h | ⟨toChildren, _, h⟩
        · rw [RepoFile.enumerateChildren, refuses_map_iff] at h
          exact hload _ h
        · obtain ⟨pre, ⟨name, g⟩, post, d₂, _, _, hround⟩ := fails_forM_iff.mp h
          rw [diffToChild, fails_liftR_bind_iff] at hround
          rcases hround with hround | ⟨found, _, hround⟩
          · exact hquery _ _ hround
          cases found with
          | some g' => exact Never.pure _ _ hround
          | none =>
              dsimp only at hround
              split at hround
              · exact Never.update _ _ hround
              · exact Never.update _ _ hround

end Lost

-- ── Coverage ──────────────────────────────────────────────────────────────────

/-- The same file, or two directories with the same metadata. -/
inductive RepoFile.SameAs : RepoFile → RepoFile → Prop where
  | file (c : Checksum) : SameAs (.file c) (.file c)
  | dir (a b m : Checksum) : SameAs (.dir a m) (.dir b m)

/-- The two trees differ at a path below the root: it is in one of them only, or what stands
    there is not the same. -/
def DiffersAt (o : Objects) (f t : RepoFile) (path : List String) : Prop :=
  path ≠ [] ∧ ¬ (f.resolve o path = none ∧ t.resolve o path = none) ∧
    ¬ ∃ g h, f.resolve o path = some g ∧ t.resolve o path = some h ∧ g.SameAs h

/-- The path is in one of the six sets, or below a path that is. -/
def Covered (d : FileTreeDiff) (path : List String) : Prop :=
  ∃ pre, pre ≠ [] ∧ pre <+: path ∧ ∃ k, pathText "/" pre ∈ d.get k

section Covered

variable {o : Objects}

theorem childOf_none_of_file {c : Checksum} {path : List String} (h : path ≠ []) :
    (RepoFile.file c).resolve o path = none := by
  cases hres : (RepoFile.file c).resolve o path with
  | none => rfl
  | some g => exact absurd (resolve_file hres).1 h

/-- **Every difference is found**: at the path itself, or at the first place above it where one
    of the trees has no directory. -/
theorem exists_diffAt {f t : RepoFile} {path : List String} (hlost : NoDirLost o f t)
    (hfree : ∀ c c' m q, f.resolve o q = some (.file c) → t.resolve o q = some (.dir c' m) → c ≠ c')
    (h : DiffersAt o f t path) : ∃ pre, pre ≠ [] ∧ pre <+: path ∧ ∃ k, DiffAt o k f t pre := by
  induction path generalizing f t with
  | nil => exact absurd rfl h.1
  | cons name path ih =>
      obtain ⟨_, hboth, hsame⟩ := h
      rw [RepoFile.resolve_cons, RepoFile.resolve_cons] at hboth
      simp only [RepoFile.resolve_cons] at hsame
      -- the name itself is enough unless both trees have a directory there
      have hhere : ∀ k, Placed k (f.childOf o name) (t.childOf o name) →
          ∃ pre, pre ≠ [] ∧ pre <+: name :: path ∧ ∃ k, DiffAt o k f t pre :=
        fun k hk => ⟨[name], by simp, ⟨path, rfl⟩, k, diffAt_single.mpr hk⟩
      cases hf : f.childOf o name with
      | none =>
          cases ht : t.childOf o name with
          | none =>
              rw [hf, ht] at hboth
              exact absurd ⟨rfl, rfl⟩ hboth
          | some g =>
              rw [hf, ht] at hhere
              cases g with
              | file c => exact hhere .addedFiles ⟨rfl, _, rfl, rfl⟩
              | dir c m => exact hhere .addedDirs ⟨rfl, _, rfl, rfl⟩
      | some g =>
          cases ht : t.childOf o name with
          | none =>
              rw [hf, ht] at hhere
              cases g with
              | file c => exact hhere .removedFiles ⟨rfl, _, rfl, rfl⟩
              | dir c m => exact hhere .removedDirs ⟨rfl, _, rfl, rfl⟩
          | some g' =>
              have hone : ∀ (x y : RepoFile), x.childOf o name = some y →
                  x.resolve o [name] = some y := by
                intro x y hy
                rw [RepoFile.resolve_cons, hy, Option.bind_some, RepoFile.resolve_nil]
              rw [hf, ht] at hhere hboth hsame
              rw [Option.bind_some, Option.bind_some] at hboth
              simp only [Option.bind_some] at hsame
              cases g with
              | file c =>
                  have hsum : c ≠ g'.checksum := by
                    intro heq
                    cases g' with
                    | dir c' m => exact hfree c c' m [name] (hone _ _ hf) (hone _ _ ht) heq
                    | file c' =>
                        obtain rfl : c = c' := heq
                        by_cases hpath : path = []
                        · subst hpath
                          exact hsame ⟨_, _, RepoFile.resolve_nil _, RepoFile.resolve_nil _, .file c⟩
                        · exact hboth ⟨childOf_none_of_file hpath, childOf_none_of_file hpath⟩
                  exact hhere .changedFiles ⟨_, _, rfl, rfl, rfl, hsum⟩
              | dir c m =>
                  have hlost' := hlost.child hf ht
                  obtain ⟨c', m', rfl⟩ := hlost'.dir
                  by_cases hpath : path = []
                  · subst hpath
                    refine hhere .changedDirs ⟨_, _, rfl, rfl, rfl, fun heq => hsame ?_⟩
                    obtain rfl : m = m' := Option.some.inj heq
                    exact ⟨_, _, RepoFile.resolve_nil _, RepoFile.resolve_nil _, .dir c c' m⟩
                  · have hfree' : ∀ x x' y q, (RepoFile.dir c m).resolve o q = some (.file x) →
                        (RepoFile.dir c' m').resolve o q = some (.dir x' y) → x ≠ x' := by
                      intro x x' y q hx hx'
                      refine hfree x x' y (name :: q) ?_ ?_
                      · rw [RepoFile.resolve_cons, hf]
                        exact hx
                      · rw [RepoFile.resolve_cons, ht]
                        exact hx'
                    obtain ⟨pre, hne, hpre, k, hk⟩ := ih hlost' hfree' ⟨hpath, hboth, hsame⟩
                    refine ⟨name :: pre, by simp, ?_, k, (diffAt_cons hne).mpr ⟨_, _, hf, ht, rfl, hk⟩⟩
                    obtain ⟨post, rfl⟩ := hpre
                    exact ⟨post, rfl⟩

/-- What stands at a path of a stored tree is stored. -/
theorem SoundTree.resolve_stored {n : Nat} {a x : Checksum} (h : SoundTree o n a)
    {path : List String} {g : RepoFile} (hg : (RepoFile.dir a x).resolve o path = some g) :
    (∀ c, g = .file c → c ∈ o.files) ∧ ∀ c m, g = .dir c m → c ∈ o.dirtrees := by
  induction path generalizing n a x with
  | nil =>
      rw [RepoFile.resolve_nil] at hg
      obtain rfl := Option.some.inj hg
      refine ⟨fun c hc => absurd hc (by simp), fun c m hc => ?_⟩
      injection hc with hc _
      exact hc ▸ h.stored .dirTree a (.self a)
  | cons name path ih =>
      rw [RepoFile.resolve_cons] at hg
      obtain ⟨g', hg', hrest⟩ := Option.bind_eq_some_iff.mp hg
      cases n with
      | zero => exact absurd h.depth id
      | succ n =>
          obtain ⟨d, hd, _, hmem, _, hsub⟩ := h.load x
          cases g' with
          | dir c m => exact ih (hsub name c m hg').1 hrest
          | file c =>
              obtain ⟨_, rfl⟩ := resolve_file hrest
              refine ⟨fun c' hc' => ?_, fun c' m hc' => absurd hc' (by simp)⟩
              injection hc' with hc'
              subst hc'
              rcases List.mem_append.mp ((hmem name _).mpr hg') with hf | hs
              · obtain ⟨f, hf, heq⟩ := List.mem_map.mp hf
                injection heq with _ heq
                injection heq with heq
                exact heq ▸ h.stored .file _ (.file hd hf)
              · obtain ⟨s, _, heq⟩ := List.mem_map.mp hs
                exact absurd (congrArg Prod.snd heq) (by simp)

end Covered

section Total

variable {repo : Repo} {n : Nat} {fromRev toRev : String} {fromCommit toCommit : Commit}

/-- A difference is only computed where no directory is something else. -/
theorem noDirLost_of_diff {d : FileTreeDiff} (hfrom : NamesCommit repo n fromRev fromCommit)
    (hto : NamesCommit repo n toRev toCommit) (h : diff n repo fromRev toRev none = .ok d) :
    NoDirLost repo.toObjects fromCommit.rootFile toCommit.rootFile :=
  noDirLost_of_ok hfrom.tree (((diff_eq hfrom hto).1 d).mp h)

end Total

-- ── A directory that became a link ────────────────────────────────────────────

/-- In the small repository no checksum is that of a file and of a directory. -/
theorem diffRepo_free : ∀ c ∈ diffRepo.files, c ∉ diffRepo.dirtrees := by
  intro c hc hd
  simp only [diffRepo, Std.ExtTreeMap.mem_insert, Std.ExtTreeMap.not_mem_empty, or_false,
    Std.LawfulEqCmp.compare_eq_iff_eq] at hc hd
  subst hc
  rcases hd with h | h | h
  · exact absurd h (by decide)
  · exact absurd h (by decide)
  · exact absurd h (by decide)

end OstreeExt
