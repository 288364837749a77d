import OstreeExt.Diff.Walk

/-!
# The difference is exact

For two commits in whose trees no path is a directory in one and something else in the other, the
six sets of `diff` are described by paths: what was removed or added, and what changed, with the
directory around it in both trees.  Differences in the two directions mirror each other, and
trees without a difference have the same checksum.
-/

namespace OstreeExt

open Exec Tar Store

-- ── The sets by paths ─────────────────────────────────────────────────────────

section ByPath

variable {o : Objects} {f t : RepoFile} {k : DiffSet}

/-- A file has nothing below it. -/
theorem childOf_file (c : Checksum) (name : String) : (RepoFile.file c).childOf o name = none := rfl

theorem resolve_file {c : Checksum} {path : List String} {g : RepoFile}
    (h : (RepoFile.file c).resolve o path = some g) : path = [] ∧ g = .file c := by
  cases path with
  | nil =>
      rw [RepoFile.resolve_nil] at h
      exact ⟨rfl, (Option.some.inj h).symm⟩
  | cons name path =>
      rw [RepoFile.resolve_cons, childOf_file, Option.bind_none] at h
      exact absurd h (by simp)

/-- **What belongs into a set, by paths**, for trees of the same kinds: the parent of the path is
    there in both trees. -/
theorem diffAt_iff (hkinds : SameKinds o f t) {path : List String} :
    DiffAt o k f t path ↔ ∃ pre name x y, path = pre ++ [name] ∧ f.resolve o pre = some x ∧
      t.resolve o pre = some y ∧ Placed k (x.childOf o name) (y.childOf o name) := by
  induction path generalizing f t with
  | nil =>
      refine ⟨fun h => absurd h id, ?_⟩
      rintro ⟨pre, name, _, _, h, _⟩
      exact absurd h (by simp)
  | cons name path ih =>
      by_cases hpath : path = []
      · subst hpath
        rw [diffAt_single]
        constructor
        · intro h
          exact ⟨[], name, f, t, rfl, RepoFile.resolve_nil f, RepoFile.resolve_nil t, h⟩
        · rintro ⟨pre, last, x, y, heq, hx, hy, h⟩
          obtain ⟨rfl, hlast⟩ : pre = [] ∧ [name] = [last] := by
            cases pre with
            | nil => exact ⟨rfl, heq⟩
            | cons a pre => exact absurd (congrArg List.length heq) (by simp)
          injection hlast with hlast
          rw [RepoFile.resolve_nil] at hx hy
          rw [hlast, Option.some.inj hx, Option.some.inj hy]
          exact h
      · rw [diffAt_cons hpath]
        constructor
        · rintro ⟨f', t', hf, ht, _, h⟩
          obtain ⟨pre, last, x, y, rfl, hx, hy, hplaced⟩ := (ih (hkinds.child hf ht)).mp h
          refine ⟨name :: pre, last, x, y, rfl, ?_, ?_, hplaced⟩
          · rw [RepoFile.resolve_cons, hf]
            exact hx
          · rw [RepoFile.resolve_cons, ht]
            exact hy
        · rintro ⟨pre, last, x, y, heq, hx, hy, hplaced⟩
          cases pre with
          | nil =>
              injection heq with _ heq
              exact absurd heq hpath
          | cons a pre =>
              injection heq with ha heq
              subst ha
              rw [RepoFile.resolve_cons] at hx hy
              obtain ⟨f', hf, hx⟩ := Option.bind_eq_some_iff.mp hx
              obtain ⟨t', ht, hy⟩ := Option.bind_eq_some_iff.mp hy
              have hkinds' := hkinds.child hf ht
              refine ⟨f', t', hf, ht, ?_, (ih hkinds').mpr ⟨pre, last, x, y, heq, hx, hy, hplaced⟩⟩
              -- two files have no entries, so nothing is placed below them
              cases f' with
              | dir c m => rfl
              | file c =>
                  obtain ⟨rfl, rfl⟩ := resolve_file hx
                  cases t' with
                  | dir c' m' => exact absurd (hkinds.same hf ht) (by simp [RepoFile.isDir])
                  | file c' =>
                      obtain ⟨_, rfl⟩ := resolve_file hy
                      rw [childOf_file, childOf_file] at hplaced
                      cases k <;> simp [Placed] at hplaced

end ByPath

section Exact

variable (o : Objects)

/-- The path is in the first tree only, and its parent is in both. -/
def OnlyIn (f t : RepoFile) (isDir : Bool) (path : List String) : Prop :=
  ∃ pre name g, path = pre ++ [name] ∧ f.resolve o path = some g ∧ g.isDir = isDir ∧
    t.resolve o path = none ∧ (f.resolve o pre).isSome ∧ (t.resolve o pre).isSome

/-- A file below the root that is another one in the second tree. -/
def FileChanged (f t : RepoFile) (path : List String) : Prop :=
  path ≠ [] ∧ ∃ a b, f.resolve o path = some (.file a) ∧ t.resolve o path = some (.file b) ∧ a ≠ b

/-- A directory below the root that has other metadata in the second tree. -/
def DirChanged (f t : RepoFile) (path : List String) : Prop :=
  path ≠ [] ∧ ∃ a m b m', f.resolve o path = some (.dir a m) ∧
    t.resolve o path = some (.dir b m') ∧ m ≠ m'

/-- **The exact difference** of two trees. -/
structure ExactDiff (f t : RepoFile) (d : FileTreeDiff) : Prop where
  removedFiles : ∀ p, p ∈ d.removedFiles ↔ ∃ path, p = pathText "/" path ∧ OnlyIn o f t false path
  removedDirs : ∀ p, p ∈ d.removedDirs ↔ ∃ path, p = pathText "/" path ∧ OnlyIn o f t true path
  addedFiles : ∀ p, p ∈ d.addedFiles ↔ ∃ path, p = pathText "/" path ∧ OnlyIn o t f false path
  addedDirs : ∀ p, p ∈ d.addedDirs ↔ ∃ path, p = pathText "/" path ∧ OnlyIn o t f true path
  changedFiles : ∀ p, p ∈ d.changedFiles ↔ ∃ path, p = pathText "/" path ∧ FileChanged o f t path
  changedDirs : ∀ p, p ∈ d.changedDirs ↔ ∃ path, p = pathText "/" path ∧ DirChanged o f t path

/-- One difference is the other with added and removed exchanged. -/
structure FileTreeDiff.Mirrors (d d' : FileTreeDiff) : Prop where
  removedFiles : d.removedFiles = d'.addedFiles
  removedDirs : d.removedDirs = d'.addedDirs
  addedFiles : d.addedFiles = d'.removedFiles
  addedDirs : d.addedDirs = d'.removedDirs
  changedFiles : d.changedFiles = d'.changedFiles
  changedDirs : d.changedDirs = d'.changedDirs

end Exact

section Exact

variable {o : Objects} {f t : RepoFile} {d d' : FileTreeDiff}

/-- One name below a path. -/
theorem resolve_child {g : RepoFile} {pre : List String} (h : f.resolve o pre = some g)
    (name : String) : f.resolve o (pre ++ [name]) = g.childOf o name := by
  rw [RepoFile.resolve_snoc, h, Option.bind_some]

/-- A path below the root has a parent. -/
theorem exists_parent {path : List String} {g : RepoFile} (hne : path ≠ [])
    (h : f.resolve o path = some g) :
    ∃ pre name x, path = pre ++ [name] ∧ f.resolve o pre = some x ∧ x.childOf o name = some g := by
  obtain ⟨pre, name, rfl⟩ := (List.eq_nil_or_concat' path).resolve_left hne
  rw [RepoFile.resolve_snoc] at h
  obtain ⟨x, hx, hg⟩ := Option.bind_eq_some_iff.mp h
  exact ⟨pre, name, x, rfl, hx, hg⟩

theorem diffAt_removed (hkinds : SameKinds o f t) (b : Bool) {path : List String} :
    DiffAt o (if b then .removedDirs else .removedFiles) f t path ↔ OnlyIn o f t b path := by
  rw [diffAt_iff hkinds]
  constructor
  · rintro ⟨pre, name, x, y, rfl, hx, hy, h⟩
    obtain ⟨hnone, g, hg, hdir⟩ : y.childOf o name = none ∧ ∃ g, x.childOf o name = some g ∧
        g.isDir = b := by
      cases b <;> exact h
    refine ⟨pre, name, g, rfl, (resolve_child hx name).trans hg, hdir,
      (resolve_child hy name).trans hnone, by rw [hx]; rfl, by rw [hy]; rfl⟩
  · rintro ⟨pre, name, g, rfl, hg, hdir, hnone, hx, hy⟩
    obtain ⟨x, hx⟩ := Option.isSome_iff_exists.mp hx
    obtain ⟨y, hy⟩ := Option.isSome_iff_exists.mp hy
    rw [resolve_child hx] at hg
    rw [resolve_child hy] at hnone
    refine ⟨pre, name, x, y, rfl, hx, hy, ?_⟩
    cases b <;> exact ⟨hnone, g, hg, hdir⟩

theorem diffAt_added (hkinds : SameKinds o f t) (b : Bool) {path : List String} :
    DiffAt o (if b then .addedDirs else .addedFiles) f t path ↔ OnlyIn o t f b path := by
  rw [diffAt_iff hkinds]
  constructor
  · rintro ⟨pre, name, x, y, rfl, hx, hy, h⟩
    obtain ⟨hnone, g, hg, hdir⟩ : x.childOf o name = none ∧ ∃ g, y.childOf o name = some g ∧
        g.isDir = b := by
      cases b <;> exact h
    refine ⟨pre, name, g, rfl, (resolve_child hy name).trans hg, hdir,
      (resolve_child hx name).trans hnone, by rw [hy]; rfl, by rw [hx]; rfl⟩
  · rintro ⟨pre, name, g, rfl, hg, hdir, hnone, hy, hx⟩
    obtain ⟨x, hx⟩ := Option.isSome_iff_exists.mp hx
    obtain ⟨y, hy⟩ := Option.isSome_iff_exists.mp hy
    rw [resolve_child hy] at hg
    rw [resolve_child hx] at hnone
    refine ⟨pre, name, x, y, rfl, hx, hy, ?_⟩
    cases b <;> exact ⟨hnone, g, hg, hdir⟩

theorem diffAt_changedFiles (hkinds : SameKinds o f t) {path : List String} :
    DiffAt o .changedFiles f t path ↔ FileChanged o f t path := by
  rw [diffAt_iff hkinds]
  constructor
  · rintro ⟨pre, name, x, y, rfl, hx, hy, g, h, hg, hh, hdir, hsum⟩
    have hg' := (resolve_child hx name).trans hg
    have hh' := (resolve_child hy name).trans hh
    have hsame := hkinds _ g h hg' hh'
    refine ⟨by simp, ?_⟩
    cases g with
    | dir c m => exact absurd hdir (by simp [RepoFile.isDir])
    | file a =>
        cases h with
        | dir c m => exact absurd hsame (by simp [RepoFile.isDir])
        | file b => exact ⟨a, b, hg', hh', hsum⟩
  · rintro ⟨hne, a, b, ha, hb, hsum⟩
    obtain ⟨pre, name, x, rfl, hx, ha⟩ := exists_parent hne ha
    rw [RepoFile.resolve_snoc] at hb
    obtain ⟨y, hy, hb⟩ := Option.bind_eq_some_iff.mp hb
    exact ⟨pre, name, x, y, rfl, hx, hy, .file a, .file b, ha, hb, rfl, hsum⟩

theorem diffAt_changedDirs (hkinds : SameKinds o f t) {path : List String} :
    DiffAt o .changedDirs f t path ↔ DirChanged o f t path := by
  rw [diffAt_iff hkinds]
  constructor
  · rintro ⟨pre, name, x, y, rfl, hx, hy, g, h, hg, hh, hdir, hsum⟩
    have hg' := (resolve_child hx name).trans hg
    have hh' := (resolve_child hy name).trans hh
    have hsame := hkinds _ g h hg' hh'
    refine ⟨by simp, ?_⟩
    cases g with
    | file c => exact absurd hdir (by simp [RepoFile.isDir])
    | dir a m =>
        cases h with
        | file c => exact absurd hsame (by simp [RepoFile.isDir])
        | dir b m' => exact ⟨a, m, b, m', hg', hh', fun heq => hsum (congrArg some heq)⟩
  · rintro ⟨hne, a, m, b, m', ha, hb, hsum⟩
    obtain ⟨pre, name, x, rfl, hx, ha⟩ := exists_parent hne ha
    rw [RepoFile.resolve_snoc] at hb
    obtain ⟨y, hy, hb⟩ := Option.bind_eq_some_iff.mp hb
    exact ⟨pre, name, x, y, rfl, hx, hy, .dir a m, .dir b m', ha, hb, rfl,
      fun heq => hsum (Option.some.inj heq)⟩

/-- What the walk collects is the exact difference. -/
theorem exactDiff_of_gathers (hkinds : SameKinds o f t)
    (h : Gathers {} (fun k p => ∃ q, p = pathText "/" q ∧ DiffAt o k f t q) d) :
    ExactDiff o f t d := by
  have hget : ∀ k p, p ∈ d.get k ↔ ∃ q, p = pathText "/" q ∧ DiffAt o k f t q := by
    intro k p
    rw [h k p]
    cases k <;> simp [FileTreeDiff.get]
  refine ⟨fun p => ?_, fun p => ?_, fun p => ?_, fun p => ?_, fun p => ?_, fun p => ?_⟩
  · exact (hget .removedFiles p).trans
      (exists_congr fun _ => and_congr_right fun _ => diffAt_removed hkinds false)
  · exact (hget .removedDirs p).trans
      (exists_congr fun _ => and_congr_right fun _ => diffAt_removed hkinds true)
  · exact (hget .addedFiles p).trans
      (exists_congr fun _ => and_congr_right fun _ => diffAt_added hkinds false)
  · exact (hget .addedDirs p).trans
      (exists_congr fun _ => and_congr_right fun _ => diffAt_added hkinds true)
  · exact (hget .changedFiles p).trans
      (exists_congr fun _ => and_congr_right fun _ => diffAt_changedFiles hkinds)
  · exact (hget .changedDirs p).trans
      (exists_congr fun _ => and_congr_right fun _ => diffAt_changedDirs hkinds)

theorem FileChanged.symm {path : List String} (h : FileChanged o f t path) :
    FileChanged o t f path := by
  obtain ⟨hne, a, b, ha, hb, hsum⟩ := h
  exact ⟨hne, b, a, hb, ha, hsum.symm⟩

theorem DirChanged.symm {path : List String} (h : DirChanged o f t path) : DirChanged o t f path := by
  obtain ⟨hne, a, m, b, m', ha, hb, hsum⟩ := h
  exact ⟨hne, b, m', a, m, hb, ha, hsum.symm⟩

/-- Exact differences in the two directions mirror each other. -/
theorem ExactDiff.mirrors (h : ExactDiff o f t d) (h' : ExactDiff o t f d') : d'.Mirrors d where
  removedFiles := Finset.ext fun p => (h'.removedFiles p).trans (h.addedFiles p).symm
  removedDirs := Finset.ext fun p => (h'.removedDirs p).trans (h.addedDirs p).symm
  addedFiles := Finset.ext fun p => (h'.addedFiles p).trans (h.removedFiles p).symm
  addedDirs := Finset.ext fun p => (h'.addedDirs p).trans (h.removedDirs p).symm
  changedFiles := Finset.ext fun p => (h'.changedFiles p).trans
    ((exists_congr fun _ => and_congr_right fun _ => ⟨.symm, .symm⟩).trans (h.changedFiles p).symm)
  changedDirs := Finset.ext fun p => (h'.changedDirs p).trans
    ((exists_congr fun _ => and_congr_right fun _ => ⟨.symm, .symm⟩).trans (h.changedDirs p).symm)

end Exact

-- ── Equal trees ───────────────────────────────────────────────────────────────

/-- The entries of a directory stand in the order of their names. -/
def SortedDir (d : DirTree) : Prop :=
  (d.files.map (·.1)).Pairwise (· < ·) ∧ (d.dirs.map (·.1)).Pairwise (· < ·)

/-- Two lists of entries in the order of their names that have the same members. -/
theorem eq_of_sorted {α : Type} {l l' : List (String × α)} (hl : (l.map (·.1)).Pairwise (· < ·))
    (hl' : (l'.map (·.1)).Pairwise (· < ·)) (h : ∀ x, x ∈ l ↔ x ∈ l') : l = l' := by
  rw [List.pairwise_map] at hl hl'
  have hnodup : ∀ {l : List (String × α)}, l.Pairwise (fun a b => a.1 < b.1) → l.Nodup := by
    intro l hl
    refine List.Pairwise.imp ?_ hl
    rintro a b hlt rfl
    exact lt_irrefl _ hlt
  refine List.Perm.eq_of_pairwise (fun a b _ _ hab hba => absurd (hab.trans hba) (lt_irrefl _))
    hl hl' ?_
  exact (List.perm_ext_iff_of_nodup (hnodup hl) (hnodup hl')).mpr h

/-- **A directory is determined by what is found in it by name.** -/
theorem dirTree_eq {d d' : DirTree} (hd : SortedDir d) (hd' : SortedDir d') (hn : UniqueNames d)
    (hn' : UniqueNames d') (h : ∀ name, d.child name = d'.child name) : d = d' := by
  have hmem : ∀ name f, (name, f) ∈ d.children ↔ (name, f) ∈ d'.children := by
    intro name f
    rw [DirTree.mem_children hn, DirTree.mem_children hn', h]
  have hfile : ∀ (d : DirTree) (x : String × Checksum), x ∈ d.files ↔ (x.1, .file x.2) ∈ d.children := by
    intro d x
    simp [DirTree.children]
  have hdir : ∀ (d : DirTree) (x : String × Checksum × Checksum),
      x ∈ d.dirs ↔ (x.1, .dir x.2.1 x.2.2) ∈ d.children := by
    intro d x
    simp [DirTree.children]
  have hfiles : d.files = d'.files := eq_of_sorted hd.1 hd'.1 fun x => by
    rw [hfile, hfile, hmem]
  have hdirs : d.dirs = d'.dirs := eq_of_sorted hd.2 hd'.2 fun x => by
    rw [hdir, hdir, hmem]
  cases d
  cases d'
  cases hfiles
  cases hdirs
  rfl

/-- Each directory of a tree is stored under its own checksum, with its entries in order. -/
def OwnChecksums (lib : Libostree) (o : Objects) (c : Checksum) : Prop :=
  ∀ t d, o.Reaches c .dirTree t → o.dirtrees[t]? = some d →
    lib.dirtreeChecksum d = t ∧ SortedDir d

theorem OwnChecksums.child {lib : Libostree} {o : Objects} {c c' m : Checksum} {d : DirTree}
    {name : String} (h : OwnChecksums lib o c) (hd : o.dirtrees[c]? = some d)
    (hmem : (name, RepoFile.dir c' m) ∈ d.children) : OwnChecksums lib o c' := by
  rcases List.mem_append.mp hmem with hf | hs
  · obtain ⟨f, _, heq⟩ := List.mem_map.mp hf
    exact absurd (congrArg Prod.snd heq) (by simp)
  · obtain ⟨s, hs', heq⟩ := List.mem_map.mp hs
    injection heq with _ heq
    injection heq with heq _
    subst heq
    exact fun t d' ht => h t d' (.sub hd hs' ht)

/-- A directory stored under its own checksum, with such subdirectories. -/
theorem OwnChecksums.node {lib : Libostree} {o : Objects} {c : Checksum} {d : DirTree}
    (hd : o.dirtrees[c]? = some d) (hsum : lib.dirtreeChecksum d = c) (hsorted : SortedDir d)
    (hdirs : ∀ s ∈ d.dirs, OwnChecksums lib o s.2.1) : OwnChecksums lib o c := by
  intro t d' ht hd'
  rcases Objects.reaches_iff.mp ht with ⟨_, rfl⟩ | ⟨d₁, hd₁, ⟨hty, _⟩ | ⟨s, hs, ⟨hty, _⟩ | ht⟩⟩
  · obtain rfl := Option.some.inj (hd.symm.trans hd')
    exact ⟨hsum, hsorted⟩
  · exact absurd hty (by simp)
  · exact absurd hty (by simp)
  · obtain rfl := Option.some.inj (hd.symm.trans hd₁)
    exact hdirs s hs t d' ht hd'

/-- **Trees without a difference have the same checksum.** -/
theorem contents_eq {lib : Libostree} {o : Objects} {n : Nat} {a x b y : Checksum}
    (ha : SoundTree o n a) (hb : SoundTree o n b) (howna : OwnChecksums lib o a)
    (hownb : OwnChecksums lib o b) (hkinds : SameKinds o (.dir a x) (.dir b y))
    (h : ∀ k q, ¬ DiffAt o k (.dir a x) (.dir b y) q) : a = b := by
  induction n generalizing a x b y with
  | zero => exact absurd ha.depth id
  | succ n ih =>
      obtain ⟨da, hda, _, hmema, hchilda, hsuba⟩ := ha.load x
      obtain ⟨db, hdb, _, hmemb, hchildb, hsubb⟩ := hb.load y
      have hsame : ∀ name, da.child name = db.child name := by
        intro name
        rw [hchilda, hchildb]
        have hhere : ∀ k, ¬ Placed k ((RepoFile.dir a x).childOf o name)
            ((RepoFile.dir b y).childOf o name) := fun k hk => h k [name] (diffAt_single.mpr hk)
        cases hkinds.meet name with
        | neither hct hce => rw [hct, hce]
        | missing g hct hce =>
            rw [hct, hce] at hhere
            cases g with
            | file c => exact absurd ⟨rfl, _, rfl, rfl⟩ (hhere .addedFiles)
            | dir c m => exact absurd ⟨rfl, _, rfl, rfl⟩ (hhere .addedDirs)
        | extra g hct hce =>
            rw [hct, hce] at hhere
            cases g with
            | file c => exact absurd ⟨rfl, _, rfl, rfl⟩ (hhere .removedFiles)
            | dir c m => exact absurd ⟨rfl, _, rfl, rfl⟩ (hhere .removedDirs)
        | files c c' hct hce =>
            rw [hct, hce] at hhere ⊢
            by_contra hne
            refine hhere .changedFiles ⟨_, _, rfl, rfl, rfl, fun heq => hne ?_⟩
            exact congrArg (fun c => some (RepoFile.file c)) heq
        | dirs c m c' m' hct hce =>
            have hmeta : m' = m := by
              by_contra hne
              refine hhere .changedDirs ?_
              rw [hct, hce]
              exact ⟨_, _, rfl, rfl, rfl, fun heq => hne (Option.some.inj heq)⟩
            have hcontents : c' = c := by
              refine ih (hsuba name c' m' hct).1 (hsubb name c m hce).1
                (howna.child hda ((hmema name _).mpr hct)) (hownb.child hdb ((hmemb name _).mpr hce))
                (hkinds.child hct hce) (fun k q hq => h k (name :: q) ?_)
              have hne : q ≠ [] := by
                rintro rfl
                exact hq
              exact (diffAt_cons hne).mpr ⟨_, _, hct, hce, rfl, hq⟩
            rw [hct, hce, hmeta, hcontents]
      have hd : da = db := dirTree_eq (howna a da (.self a) hda).2 (hownb b db (.self b) hdb).2
        (ha.names a da (.self a) hda) (hb.names b db (.self b) hdb) hsame
      rw [← (howna a da (.self a) hda).1, ← (hownb b db (.self b) hdb).1, hd]

-- ── The whole difference ──────────────────────────────────────────────────────

/-- A revision names a commit whose tree, of fewer than `n` levels, is stored completely. -/
structure NamesCommit (repo : Repo) (n : Nat) (rev : String) (commit : Commit) : Prop where
  rev : ∃ c, repo.requireRev rev = .ok c ∧ repo.commits[c]? = some commit
  tree : SoundTree repo.toObjects n commit.contents
  dirmeta : commit.dirmeta ∈ repo.dirmetas

section Whole

variable {repo : Repo} {n : Nat} {fromRev toRev rev : String} {commit fromCommit toCommit : Commit}

theorem NamesCommit.ensureResolved (h : NamesCommit repo n rev commit) :
    commit.rootFile.ensureResolved repo.toObjects = .ok () := by
  cases n with
  | zero => exact absurd h.tree.depth id
  | succ n => exact ensureResolved_dir h.tree h.dirmeta

theorem readCommitRoot_eq (h : NamesCommit repo n rev commit) :
    repo.readCommitRoot rev = .ok commit.rootFile := by
  obtain ⟨c, hrev, hcommit⟩ := h.rev
  rw [Repo.readCommitRoot, hrev, bind_ok_eq, Repo.loadCommit, hcommit, okOr_some, bind_ok_eq,
    h.ensureResolved]
  rfl

theorem resolveSubdir_none {o : Objects} {f : RepoFile} (h : f.ensureResolved o = .ok ()) :
    resolveSubdir o f none = .ok f := by
  show (do f.ensureResolved o; .ok f) = Except.ok f
  rw [h]
  rfl

/-- `diff` of two commits is the walk over their roots. -/
theorem diff_eq (hfrom : NamesCommit repo n fromRev fromCommit)
    (hto : NamesCommit repo n toRev toCommit) :
    (∀ d, diff n repo fromRev toRev none = .ok d ↔
      diffRecurse repo.toObjects n "/" fromCommit.rootFile toCommit.rootFile {} = .ok ⟨⟩ d) ∧
    ∀ e, diff n repo fromRev toRev none = .error e ↔ ∃ d,
      diffRecurse repo.toObjects n "/" fromCommit.rootFile toCommit.rootFile {} = .error e d := by
  rw [diff, readCommitRoot_eq hfrom, bind_ok_eq, readCommitRoot_eq hto, bind_ok_eq,
    resolveSubdir_none hfrom.ensureResolved, bind_ok_eq, resolveSubdir_none hto.ensureResolved,
    bind_ok_eq]
  cases diffRecurse repo.toObjects n "/" fromCommit.rootFile toCommit.rootFile {} with
  | ok u d' => simp
  | error e d' => simp

/-- Trees of the same kinds have no directory that is something else. -/
theorem noDirLost_of_sameKinds {o : Objects} {f t : RepoFile} (h : SameKinds o f t) :
    NoDirLost o f t :=
  fun path c m x hf ht => absurd (h path _ _ hf ht) (by simp [RepoFile.isDir])

/-- **The tree diff is exact.**  For two commits in whose trees no path is a directory in one and
    something else in the other, `diff` succeeds in both directions; the six sets are the exact
    difference; the two differences mirror each other; and all six sets are empty just when the
    roots have the same contents. -/
theorem diff_exact (lib : Libostree) (hfrom : NamesCommit repo n fromRev fromCommit)
    (hto : NamesCommit repo n toRev toCommit)
    (hfromOwn : OwnChecksums lib repo.toObjects fromCommit.contents)
    (htoOwn : OwnChecksums lib repo.toObjects toCommit.contents)
    (hkinds : SameKinds repo.toObjects fromCommit.rootFile toCommit.rootFile) :
    ∃ d d', diff n repo fromRev toRev none = .ok d ∧ diff n repo toRev fromRev none = .ok d' ∧
      ExactDiff repo.toObjects fromCommit.rootFile toCommit.rootFile d ∧ d'.Mirrors d ∧
      ((∀ k, d.get k = ∅) ↔ fromCommit.contents = toCommit.contents) := by
  obtain ⟨d, hrun, hd⟩ := diffRecurse_run hfrom.tree hto.tree (noDirLost_of_sameKinds hkinds) "/" {}
  obtain ⟨d', hrun', hd'⟩ := diffRecurse_run hto.tree hfrom.tree
    (noDirLost_of_sameKinds hkinds.symm) "/" {}
  have hexact := exactDiff_of_gathers hkinds hd
  refine ⟨d, d', ((diff_eq hfrom hto).1 d).mpr hrun, ((diff_eq hto hfrom).1 d').mpr hrun', hexact,
    hexact.mirrors (exactDiff_of_gathers hkinds.symm hd'), ?_, ?_⟩
  · intro hempty
    refine contents_eq hfrom.tree hto.tree hfromOwn htoOwn hkinds (fun k q hq => ?_)
    have hmem := (hd k (pathText "/" q)).mpr (.inr ⟨q, rfl, hq⟩)
    rw [hempty] at hmem
    exact absurd hmem (Finset.notMem_empty _)
  · intro hsame k
    rw [Finset.eq_empty_iff_forall_notMem]
    intro p hp
    rcases (hd k p).mp hp with hp | ⟨q, _, hq⟩
    · cases k <;> exact absurd hp (Finset.notMem_empty _)
    · rw [hsame] at hq
      exact not_diffAt_same hq

end Whole

-- ── Three small commits ───────────────────────────────────────────────────────

/-- A root directory with a symbolic link `/var`. -/
def linkRoot : DirTree := { files := [("var", sampleLinkSum)], dirs := [] }

def linkRootSum : Checksum := "1a118a21ace5f07e45b266a144605f5d1d169f5797e5b3ed06b88b45e1fc4a68"

def linkCommit : Commit := { contents := linkRootSum, dirmeta := sampleMetaSum }

def linkCommitSum : Checksum := "761108a47032a2ae5398567e7c7815830e2b5bebdc87e2826f176e4bd1d7a8ad"

def bareCommitSum : Checksum := "2f33d19fc05d41f5cab111e8140d1fc09e2fd048bd9c27aed9b1c0abc15cd3a4"

def emptyRootCommitSum : Checksum :=
  "6109d33e99f48e9b90cdf8ad037b8e5d20ef899697cfd3eb492cf78800aed498"

def linkRootBytes : Bytes := cstr "var" ++ csumBytes sampleLinkSum ++ [4] ++ [37, 38]

/-- None of the file objects of a table without any lacks a checksum. -/
theorem isSha256_of_noFiles : ∀ p ∈ ([] : List (FileObject × Checksum)), IsSha256 p.2 := by
  intro p hp
  exact absurd hp List.not_mem_nil

/-- The directories of the commits, serialized and with their checksums. -/
def diffTables : LibTables where
  sums := [([0], emptyTreeSum), (linkRootBytes, linkRootSum)]
  dirtrees := [(emptyTree, [0]), (linkRoot, linkRootBytes)]
  sums_isSha256 := by decide +kernel
  files_isSha256 := isSha256_of_noFiles

/-- A repository with three commits: one whose root is empty, one with a directory `/var` and one
    with a symbolic link of that name. -/
def diffRepo : Repo where
  commits := (((∅ : Std.ExtTreeMap Checksum Commit).insert emptyRootCommitSum emptyRootCommit).insert
    bareCommitSum bareCommit).insert linkCommitSum linkCommit
  dirtrees := (((∅ : Std.ExtTreeMap Checksum DirTree).insert emptyTreeSum emptyTree).insert
    bareRootSum bareRoot).insert linkRootSum linkRoot
  dirmetas := (∅ : Std.ExtTreeMap Checksum DirMeta).insert sampleMetaSum sampleMeta
  files := (∅ : Std.ExtTreeMap Checksum FileObject).insert sampleLinkSum sampleLink

theorem lookup_diffEmpty : diffRepo.dirtrees[emptyTreeSum]? = some emptyTree := by
  simp only [diffRepo]
  rw [Std.ExtTreeMap.lookup_insert, if_neg (by decide), Std.ExtTreeMap.lookup_insert,
    if_neg (by decide), Std.ExtTreeMap.lookup_insert, if_pos rfl]

theorem lookup_diffBare : diffRepo.dirtrees[bareRootSum]? = some bareRoot := by
  simp only [diffRepo]
  rw [Std.ExtTreeMap.lookup_insert, if_neg (by decide), Std.ExtTreeMap.lookup_insert, if_pos rfl]

theorem lookup_diffLink : diffRepo.dirtrees[linkRootSum]? = some linkRoot := by
  simp only [diffRepo]
  rw [Std.ExtTreeMap.lookup_insert, if_pos rfl]

theorem diffMeta_mem : sampleMetaSum ∈ diffRepo.dirmetas :=
  Std.ExtTreeMap.mem_iff_lookup.mpr ⟨sampleMeta, Std.ExtTreeMap.getElem?_insert_self⟩

theorem emptyTree_sound (n : Nat) : SoundTree diffRepo.toObjects (n + 1) emptyTreeSum :=
  .node lookup_diffEmpty (by rw [UniqueNames]; decide) (by simp [emptyTree]) (by simp [emptyTree])

theorem namesEmptyRoot : NamesCommit diffRepo 2 emptyRootCommitSum emptyRootCommit where
  rev := by
    refine ⟨emptyRootCommitSum, if_pos (by decide), ?_⟩
    simp only [diffRepo]
    rw [Std.ExtTreeMap.lookup_insert, if_neg (by decide), Std.ExtTreeMap.lookup_insert,
      if_neg (by decide), Std.ExtTreeMap.lookup_insert, if_pos rfl]
  tree := emptyTree_sound 1
  dirmeta := diffMeta_mem

theorem namesBare : NamesCommit diffRepo 2 bareCommitSum bareCommit where
  rev := by
    refine ⟨bareCommitSum, if_pos (by decide), ?_⟩
    simp only [diffRepo]
    rw [Std.ExtTreeMap.lookup_insert, if_neg (by decide), Std.ExtTreeMap.lookup_insert, if_pos rfl]
  tree := by
    refine .node lookup_diffBare (by rw [UniqueNames]; decide) (by simp [bareRoot]) (fun s hs => ?_)
    rw [List.mem_singleton.mp hs]
    exact ⟨diffMeta_mem, emptyTree_sound 0⟩
  dirmeta := diffMeta_mem

theorem namesLink : NamesCommit diffRepo 2 linkCommitSum linkCommit where
  rev := by
    refine ⟨linkCommitSum, if_pos (by decide), ?_⟩
    simp only [diffRepo]
    rw [Std.ExtTreeMap.lookup_insert, if_pos rfl]
  tree := by
    refine .node lookup_diffLink (by rw [UniqueNames]; decide) (fun f hf => ?_) (by simp [linkRoot])
    rw [List.mem_singleton.mp hf]
    exact Std.ExtTreeMap.mem_iff_lookup.mpr ⟨sampleLink, Std.ExtTreeMap.getElem?_insert_self⟩
  dirmeta := diffMeta_mem

theorem dirtreeChecksum_diffEmpty : diffTables.lib.dirtreeChecksum emptyTree = emptyTreeSum := by
  rw [Libostree.dirtreeChecksum]
  simp only [LibTables.lib, diffTables, Codec.ofTable, tableGet_self]

theorem dirtreeChecksum_diffLink : diffTables.lib.dirtreeChecksum linkRoot = linkRootSum := by
  have hbytes : diffTables.lib.dirtree.toBytes linkRoot = linkRootBytes := by
    simp only [LibTables.lib, diffTables, Codec.ofTable]
    rw [tableGet_of_ne (by decide), tableGet_self]
  rw [Libostree.dirtreeChecksum, hbytes]
  simp only [LibTables.lib, diffTables]
  rw [tableGet_of_ne (by decide +kernel), tableGet_self]

/-- A link that was added to an empty root. -/
theorem addedLink_exact : ∃ d d', diff 2 diffRepo emptyRootCommitSum linkCommitSum none = .ok d ∧
    diff 2 diffRepo linkCommitSum emptyRootCommitSum none = .ok d' ∧
    ExactDiff diffRepo.toObjects emptyRootCommit.rootFile linkCommit.rootFile d ∧ d'.Mirrors d ∧
    ((∀ k, d.get k = ∅) ↔ emptyRootCommit.contents = linkCommit.contents) := by
  have hempty : ∀ path g, emptyRootCommit.rootFile.resolve diffRepo.toObjects path = some g →
      path = [] := by
    intro path g hg
    cases path with
    | nil => rfl
    | cons name path =>
        rw [RepoFile.resolve_cons, Commit.rootFile, emptyRootCommit, RepoFile.childOf,
          lookup_diffEmpty] at hg
        exact absurd hg (by simp [child_emptyTree])
  refine diff_exact diffTables.lib namesEmptyRoot namesLink ?_ ?_ ?_
  · exact .node lookup_diffEmpty dirtreeChecksum_diffEmpty (by simp [SortedDir, emptyTree])
      (by simp [emptyTree])
  · exact .node lookup_diffLink dirtreeChecksum_diffLink (by simp [SortedDir, linkRoot])
      (by simp [linkRoot])
  · intro path f t hf ht
    obtain rfl := hempty path f hf
    rw [RepoFile.resolve_nil] at hf ht
    rw [← Option.some.inj hf, ← Option.some.inj ht]
    rfl

end OstreeExt
