import OstreeExt.RepoFile
import OstreeExt.Tar.Distinct

/-!
# Comparing commit trees

`compare_commit_trees` of `container/store.rs` checks the tree of a merge commit against the tree
of a layer.  It walks the expected tree, looks each entry up in the target, and goes down where
both have a directory with other contents.  On the way down it passes the two directories in the
other order, so every second level is checked with the roles exchanged; `compare_exact_iff` says
when that makes no difference.
-/

namespace OstreeExt.Store

open OstreeExt Exec

/-- `CompareState`; a path is kept as the list of its names. -/
structure CompareState where
  verified : Finset (List String) := ∅
  inodeCorrupted : Finset (List String) := ∅
  unknownCorrupted : Finset (List String) := ∅

/-- `CompareState::is_ok` -/
def CompareState.isOk (s : CompareState) : Bool := s.inodeCorrupted = ∅ ∧ s.unknownCorrupted = ∅

/-- Programs over the state. -/
abbrev CompareM := EStateM Stop CompareState

/-- `gio::FileInfo`, as far as it is compared. -/
structure FileInfo where
  isSymlink : Bool
  size : Nat
  uid : UInt32
  gid : UInt32
  mode : UInt32
  deriving DecidableEq

/-- The information about a content object. -/
def fileInfo : FileObject → FileInfo
  | .regular uid gid mode _ content => { isSymlink := false, size := content.length, uid, gid, mode }
  | .symlink uid gid _ _ => { isSymlink := true, size := 0, uid, gid, mode := 0o120777 }

section Compare

variable (o : Objects) (inodes : Checksum → Result UInt64) (exact : Bool)
  (collidingInodes : Finset UInt64)

/-- `compare_file_info`: a directory has another type than any other file. -/
def compareFileInfo (src target : RepoFile) : Result Bool :=
  match src, target with
  | .file a, .file b => do
      let a ← okOr ("Couldn't find file object '" ++ a ++ "'") o.files[a]?
      let b ← okOr ("Couldn't find file object '" ++ b ++ "'") o.files[b]?
      .ok (fileInfo a = fileInfo b)
  | _, _ => .ok false

/-- Whether an entry that is no directory is as expected. -/
def entryMatches (fromChild toChild : RepoFile) : Result Bool :=
  if exact then .ok (fromChild.checksum = toChild.checksum) else compareFileInfo o toChild fromChild

/-- An entry that is no directory and that both trees have. -/
def compareEntry (path : List String) (fromChild toChild : RepoFile) : CompareM Unit := do
  if ← liftR (entryMatches o exact fromChild toChild) then
    modify fun s => { s with verified := insert path s.verified }
  else
    -- `inode_of_object`
    let fromInode ← liftR (inodes fromChild.checksum)
    let toInode ← liftR (inodes toChild.checksum)
    if fromInode ∈ collidingInodes ∨ toInode ∈ collidingInodes then
      modify fun s => { s with inodeCorrupted := insert path s.inodeCorrupted }
    else modify fun s => { s with unknownCorrupted := insert path s.unknownCorrupted }

/-- One round of the loop of `compare_commit_trees`; `recurse` is the recursive call.  It gets the
    directory of the expected tree first, where the function takes the target. -/
def compareChild (recurse : List String → RepoFile → RepoFile → CompareM Unit) (root : List String)
    (target : RepoFile) (child : String × RepoFile) : CompareM Unit := do
  let path := root ++ [child.1]
  match ← liftR (target.queryInfoOptional o child.1) with
  | none => modify fun s => { s with unknownCorrupted := insert path s.unknownCorrupted }
  | some toChild =>
      let fromChild := child.2
      if fromChild.isDir then
        if fromChild.treeGetContentsChecksum ≠ toChild.treeGetContentsChecksum then
          recurse path fromChild toChild
        else pure ()
      else compareEntry o inodes exact collidingInodes path fromChild toChild

/-- `compare_commit_trees`, with a bound on the depth. -/
def compareCommitTrees : Nat → List String → RepoFile → RepoFile → CompareM Unit
  | 0, _, _, _ => throw .fuel
  | n + 1, root, target, expected => do
      let children ← liftR (expected.enumerateChildren o)
      forM children (compareChild o inodes exact collidingInodes (compareCommitTrees n) root target)

end Compare

/-- The paths reported as corrupted. -/
def CompareState.corrupted (s : CompareState) : Finset (List String) :=
  s.inodeCorrupted ∪ s.unknownCorrupted

-- ── What is reported ──────────────────────────────────────────────────────────

section Reported

variable (o : Objects)

/-- The paths that are reported below two directories.  What is below a directory of both trees is
    reported with their roles exchanged. -/
def Reported : RepoFile → RepoFile → List String → Prop
  | _, _, [] => False
  | target, expected, name :: path =>
      match expected.childOf o name, target.childOf o name with
      | some _, none => path = []
      | some (.file a), some (.file b) => path = [] ∧ a ≠ b
      | some (.dir a x), some (.dir b y) => Reported (.dir a x) (.dir b y) path
      | _, _ => False

/-- The paths that are damaged below two directories. -/
def Damaged : RepoFile → RepoFile → List String → Prop
  | _, _, [] => False
  | target, expected, name :: path =>
      match expected.childOf o name, target.childOf o name with
      | some _, none => path = []
      | some (.file a), some (.file b) => path = [] ∧ a ≠ b
      | some (.dir a x), some (.dir b y) => Damaged (.dir b y) (.dir a x) path
      | _, _ => False

/-- **The damage**: the path is in the expected tree, and either it is missing in the target,
    which has its parent directory, or it is a file in both trees, and not the same one. -/
def DamagedAt (target expected : RepoFile) (p : List String) : Prop :=
  ∃ path name, p = path ++ [name] ∧ ∃ e, expected.resolve o p = some e ∧
    ((target.resolve o p = none ∧ ∃ c m, target.resolve o path = some (.dir c m)) ∨
     ∃ a b, e = .file a ∧ target.resolve o p = some (.file b) ∧ a ≠ b)

/-- No path is a directory in one tree and something else in the other. -/
def SameKinds (target expected : RepoFile) : Prop :=
  ∀ path t e, target.resolve o path = some t → expected.resolve o path = some e →
    t.isDir = e.isDir

/-- The two trees have the same names in a directory that both of them have. -/
def SameNamesAt (target expected : RepoFile) (path : List String) : Prop :=
  ∀ t e, target.resolve o path = some t → expected.resolve o path = some e →
    t.isDir = true → e.isDir = true → ∀ name, (t.childOf o name).isSome = (e.childOf o name).isSome

/-- **The two trees have the same names in every second directory**: those at a depth of one,
    of three, and so on, that both of them have. -/
def SameNamesAtOddDepth (target expected : RepoFile) : Prop :=
  ∀ path, path.length % 2 = 1 → SameNamesAt o target expected path

end Reported

section Pure

variable {o : Objects} {t e : RepoFile}

/-- What is below a child that both trees have. -/
theorem SameKinds.child {name : String} {t' e' : RepoFile} (h : SameKinds o t e)
    (ht : t.childOf o name = some t') (he : e.childOf o name = some e') : SameKinds o t' e' := by
  intro path x y hx hy
  refine h (name :: path) x y ?_ ?_
  · rw [RepoFile.resolve_cons, ht]
    exact hx
  · rw [RepoFile.resolve_cons, he]
    exact hy

theorem SameKinds.symm (h : SameKinds o t e) : SameKinds o e t :=
  fun path x y hx hy => (h path y x hy hx).symm

theorem SameKinds.same {name : String} {t' e' : RepoFile} (h : SameKinds o t e)
    (ht : t.childOf o name = some t') (he : e.childOf o name = some e') : t'.isDir = e'.isDir :=
  h.child ht he [] t' e' (RepoFile.resolve_nil t') (RepoFile.resolve_nil e')

theorem SameNamesAt.child {name : String} {t' e' : RepoFile} {path : List String}
    (h : SameNamesAt o t e (name :: path)) (ht : t.childOf o name = some t')
    (he : e.childOf o name = some e') : SameNamesAt o t' e' path := by
  intro x y hx hy
  refine h x y ?_ ?_
  · rw [RepoFile.resolve_cons, ht]
    exact hx
  · rw [RepoFile.resolve_cons, he]
    exact hy

/-- Damage is found in directories. -/
theorem DamagedAt.dirs {p : List String} (h : DamagedAt o t e p) :
    ∃ a x b y, e = .dir a x ∧ t = .dir b y := by
  -- a file has nothing below it
  have hdir : ∀ (f g : RepoFile) pre last, f.resolve o (pre ++ [last]) = some g →
      ∃ c m, f = .dir c m := by
    intro f g pre last hg
    cases f with
    | dir c m => exact ⟨c, m, rfl⟩
    | file c => cases pre <;> exact absurd hg (by simp [RepoFile.resolve, RepoFile.childOf])
  obtain ⟨pre, last, rfl, g, hg, hdamage⟩ := h
  obtain ⟨a, x, he⟩ := hdir e g pre last hg
  rcases hdamage with ⟨_, c, m, hparent⟩ | ⟨_, _, _, hb, _⟩
  · cases pre with
    | nil =>
        rw [RepoFile.resolve_nil] at hparent
        exact ⟨a, x, c, m, he, Option.some.inj hparent⟩
    | cons name pre =>
        cases t with
        | dir b y => exact ⟨a, x, b, y, he, rfl⟩
        | file b => exact absurd hparent (by simp [RepoFile.resolve, RepoFile.childOf])
  · obtain ⟨b, y, ht⟩ := hdir t _ pre last hb
    exact ⟨a, x, b, y, he, ht⟩

/-- The damage below a child is that below a directory of both trees. -/
theorem damagedAt_cons {name : String} {path : List String} (hpath : path ≠ []) :
    DamagedAt o t e (name :: path) ↔ ∃ a x b y, e.childOf o name = some (.dir a x) ∧
      t.childOf o name = some (.dir b y) ∧ DamagedAt o (.dir b y) (.dir a x) path := by
  constructor
  · rintro ⟨pre, last, hp, g, hg, hdamage⟩
    cases pre with
    | nil =>
        injection hp with _ hnil
        exact absurd hnil hpath
    | cons a pre =>
        injection hp with hname hrest
        subst hname
        rw [RepoFile.resolve_cons] at hg
        obtain ⟨e', he, hg⟩ := Option.bind_eq_some_iff.mp hg
        have ht : ∃ t', t.childOf o name = some t' := by
          rcases hdamage with ⟨_, c, m, hparent⟩ | ⟨a, b, _, hb, _⟩
          · rw [RepoFile.resolve_cons] at hparent
            obtain ⟨t', ht, _⟩ := Option.bind_eq_some_iff.mp hparent
            exact ⟨t', ht⟩
          · rw [RepoFile.resolve_cons] at hb
            obtain ⟨t', ht, _⟩ := Option.bind_eq_some_iff.mp hb
            exact ⟨t', ht⟩
        obtain ⟨t', ht⟩ := ht
        rw [RepoFile.resolve_cons, RepoFile.resolve_cons, ht] at hdamage
        have hbelow : DamagedAt o t' e' path := ⟨pre, last, hrest, g, hg, hdamage⟩
        obtain ⟨a, x, b, y, rfl, rfl⟩ := hbelow.dirs
        exact ⟨a, x, b, y, he, ht, hbelow⟩
  · rintro ⟨a, x, b, y, he, ht, pre, last, rfl, g, hg, hdamage⟩
    refine ⟨name :: pre, last, rfl, g, ?_, ?_⟩
    · rw [RepoFile.resolve_cons, he]
      exact hg
    · rw [RepoFile.resolve_cons, RepoFile.resolve_cons, ht]
      exact hdamage

/-- The damage in a directory itself. -/
theorem damagedAt_single {name : String} (ht : t.isDir = true) :
    DamagedAt o t e [name] ↔ ∃ x, e.childOf o name = some x ∧ (t.childOf o name = none ∨
      ∃ a b, x = .file a ∧ t.childOf o name = some (.file b) ∧ a ≠ b) := by
  have hone : ∀ f : RepoFile, f.resolve o [name] = f.childOf o name := by
    intro f
    rw [← List.nil_append [name], RepoFile.resolve_snoc, RepoFile.resolve_nil, Option.bind_some]
  constructor
  · rintro ⟨path, last, _, x, hx, hdamage⟩
    rw [hone] at hx hdamage
    exact ⟨x, hx, hdamage.imp (fun h => h.1) (fun h => h)⟩
  · rintro ⟨x, hx, hdamage⟩
    refine ⟨[], name, rfl, x, (hone e).trans hx, ?_⟩
    rw [hone]
    refine hdamage.imp (fun h => ⟨h, ?_⟩) (fun h => h)
    cases t with
    | file c => exact absurd ht (by simp [RepoFile.isDir])
    | dir c m => exact ⟨c, m, RepoFile.resolve_nil _⟩

/-- **The recursive description of the damage** is the one by paths. -/
theorem damaged_iff {p : List String} (ht : t.isDir = true) :
    Damaged o t e p ↔ DamagedAt o t e p := by
  induction p generalizing t e with
  | nil =>
      rw [Damaged]
      refine ⟨False.elim, ?_⟩
      rintro ⟨path, name, h, _⟩
      exact absurd h (by simp)
  | cons name path ih =>
      rw [Damaged]
      by_cases hpath : path = []
      · subst hpath
        rw [damagedAt_single ht]
        split
        · next x he hnone => exact ⟨fun _ => ⟨x, he, .inl hnone⟩, fun _ => rfl⟩
        · next a b he hb =>
            constructor
            · rintro ⟨_, hne⟩
              exact ⟨_, he, .inr ⟨a, b, rfl, hb, hne⟩⟩
            · rintro ⟨x, hx, hnone | ⟨a', b', rfl, hb', hne⟩⟩
              · exact absurd (hb.symm.trans hnone) (by simp)
              · injection (Option.some.inj (he.symm.trans hx)) with ha
                injection (Option.some.inj (hb.symm.trans hb')) with hb
                exact ⟨rfl, by rw [ha, hb]; exact hne⟩
        · next a x b y he hb =>
            refine ⟨fun h => absurd h (by rw [Damaged]; exact id), ?_⟩
            rintro ⟨z, hz, hnone | ⟨a', b', rfl, hb', _⟩⟩
            · exact absurd (hb.symm.trans hnone) (by simp)
            · exact absurd (hb.symm.trans hb') (by simp)
        · next hsome hfiles hdirs =>
            refine ⟨False.elim, ?_⟩
            rintro ⟨z, hz, hnone | ⟨a, b, rfl, hb, _⟩⟩
            · exact hsome z hz hnone
            · exact hfiles a b hz hb
      · rw [damagedAt_cons hpath]
        split
        · next x he hnone =>
            refine ⟨fun h => absurd h hpath, ?_⟩
            rintro ⟨_, _, b, y, _, ht', _⟩
            exact absurd (hnone.symm.trans ht') (by simp)
        · next a b he hb =>
            refine ⟨fun h => absurd h.1 hpath, ?_⟩
            rintro ⟨a', x, _, _, he', _, _⟩
            exact absurd (he.symm.trans he') (by simp)
        · next a x b y he hb =>
            rw [ih rfl]
            constructor
            · exact fun h => ⟨a, x, b, y, he, hb, h⟩
            · rintro ⟨a', x', b', y', he', hb', h⟩
              rw [Option.some.inj (hb.symm.trans hb'), Option.some.inj (he.symm.trans he')]
              exact h
        · next hsome hfiles hdirs =>
            refine ⟨False.elim, ?_⟩
            rintro ⟨a, x, b, y, he, hb, _⟩
            exact hdirs a x b y he hb

-- ── Roles exchanged ───────────────────────────────────────────────────────────

/-- What the two trees can have under one name. -/
inductive Meet (o : Objects) (t e : RepoFile) (name : String) : Prop where
  | neither (ht : t.childOf o name = none) (he : e.childOf o name = none)
  | missing (x : RepoFile) (ht : t.childOf o name = none) (he : e.childOf o name = some x)
  | extra (x : RepoFile) (ht : t.childOf o name = some x) (he : e.childOf o name = none)
  | files (a b : Checksum) (ht : t.childOf o name = some (.file b))
      (he : e.childOf o name = some (.file a))
  | dirs (a x b y : Checksum) (ht : t.childOf o name = some (.dir b y))
      (he : e.childOf o name = some (.dir a x))

theorem SameKinds.meet (h : SameKinds o t e) (name : String) : Meet o t e name := by
  cases ht : t.childOf o name with
  | none =>
      cases he : e.childOf o name with
      | none => exact .neither ht he
      | some x => exact .missing x ht he
  | some f =>
      cases he : e.childOf o name with
      | none => exact .extra f ht he
      | some g =>
          have hsame := h.same ht he
          cases f with
          | file b =>
              cases g with
              | file a => exact .files a b ht he
              | dir a x => exact absurd hsame (by simp [RepoFile.isDir])
          | dir b y =>
              cases g with
              | file a => exact absurd hsame (by simp [RepoFile.isDir])
              | dir a x => exact .dirs a x b y ht he

/-- **Where the names agree the exchange does no harm**: as the function is called, in every
    directory at an odd depth; with its arguments exchanged, at an even depth. -/
theorem reported_of_sameNames (hkinds : SameKinds o t e) (ht : t.isDir = true) (he : e.isDir = true)
    (p : List String) :
    ((∀ path, path.length % 2 = 1 → SameNamesAt o t e path) →
      (Reported o t e p ↔ Damaged o t e p)) ∧
    ((∀ path, path.length % 2 = 0 → SameNamesAt o t e path) →
      (Reported o e t p ↔ Damaged o t e p)) := by
  induction p generalizing t e with
  | nil => simp [Reported, Damaged]
  | cons name path ih =>
      have hroot : (∀ path, path.length % 2 = 0 → SameNamesAt o t e path) →
          (t.childOf o name).isSome = (e.childOf o name).isSome :=
        fun h => h [] rfl t e (RepoFile.resolve_nil t) (RepoFile.resolve_nil e) ht he name
      rw [Reported, Reported, Damaged]
      cases hkinds.meet name with
      | neither hct hce =>
          rw [hct, hce]
          exact ⟨fun _ => Iff.rfl, fun _ => Iff.rfl⟩
      | missing x hct hce =>
          rw [hct, hce] at hroot ⊢
          exact ⟨fun _ => Iff.rfl, fun h => absurd (hroot h) (by simp)⟩
      | extra x hct hce =>
          rw [hct, hce] at hroot ⊢
          exact ⟨fun _ => Iff.rfl, fun h => absurd (hroot h) (by simp)⟩
      | files a b hct hce =>
          rw [hct, hce]
          exact ⟨fun _ => Iff.rfl, fun _ => and_congr Iff.rfl ne_comm⟩
      | dirs a x b y hct hce =>
          rw [hct, hce]
          have hsub : ∀ k, (∀ path, path.length % 2 = (k + 1) % 2 → SameNamesAt o t e path) →
              ∀ path, path.length % 2 = k % 2 → SameNamesAt o (.dir b y) (.dir a x) path := by
            intro k h path hlen
            refine (h (name :: path) ?_).child hct hce
            rw [List.length_cons]
            omega
          obtain ⟨hodd, heven⟩ := ih (hkinds.child hct hce) rfl rfl
          exact ⟨fun h => heven (hsub 0 h), fun h => hodd (hsub 1 h)⟩

/-- **Where the exchange does no harm the names agree.** -/
theorem sameNames_of_reported (hkinds : SameKinds o t e) (path : List String) :
    ((∀ p, Reported o t e p ↔ Damaged o t e p) → path.length % 2 = 1 → SameNamesAt o t e path) ∧
    ((∀ p, Reported o e t p ↔ Damaged o t e p) → path.length % 2 = 0 → SameNamesAt o t e path) := by
  induction path generalizing t e with
  | nil =>
      refine ⟨fun _ h => absurd h (by simp), fun h _ t' e' ht' he' _ _ name => ?_⟩
      obtain rfl := Option.some.inj ((RepoFile.resolve_nil _).symm.trans ht')
      obtain rfl := Option.some.inj ((RepoFile.resolve_nil _).symm.trans he')
      have hname := h [name]
      rw [Reported, Damaged] at hname
      cases hkinds.meet name with
      | neither hct hce => rw [hct, hce]
      | missing x hct hce =>
          rw [hct, hce] at hname
          exact absurd (hname.mpr rfl) id
      | extra x hct hce =>
          rw [hct, hce] at hname
          exact absurd (hname.mp rfl) id
      | files a b hct hce => rw [hct, hce]; rfl
      | dirs a x b y hct hce => rw [hct, hce]; rfl
  | cons name path ih =>
      -- a directory below a child is there in both trees only if the child is one in both
      have hdown : (∀ a x b y, t.childOf o name = some (.dir b y) →
          e.childOf o name = some (.dir a x) → SameNamesAt o (.dir b y) (.dir a x) path) →
          SameNamesAt o t e (name :: path) := by
        intro h t' e' ht' he' htdir hedir
        rw [RepoFile.resolve_cons] at ht' he'
        cases hkinds.meet name with
        | neither hct hce => exact absurd ht' (by simp [hct])
        | missing x hct hce => exact absurd ht' (by simp [hct])
        | extra x hct hce => exact absurd he' (by simp [hce])
        | files a b hct hce =>
            rw [hct] at ht'
            cases path with
            | nil =>
                rw [Option.bind_some, RepoFile.resolve_nil] at ht'
                rw [← Option.some.inj ht'] at htdir
                exact absurd htdir (by simp [RepoFile.isDir])
            | cons name' path =>
                exact absurd ht' (by simp [RepoFile.resolve, RepoFile.childOf])
        | dirs a x b y hct hce =>
            rw [hct] at ht'
            rw [hce] at he'
            exact h a x b y hct hce t' e' ht' he' htdir hedir
      constructor
      · intro h hlen
        refine hdown (fun a x b y hct hce => (ih (hkinds.child hct hce)).2 (fun p => ?_) ?_)
        · have hp := h (name :: p)
          rw [Reported, Damaged, hct, hce] at hp
          exact hp
        · rw [List.length_cons] at hlen
          omega
      · intro h hlen
        refine hdown (fun a x b y hct hce => (ih (hkinds.child hct hce)).1 (fun p => ?_) ?_)
        · have hp := h (name :: p)
          rw [Reported, Damaged, hct, hce] at hp
          exact hp
        · rw [List.length_cons] at hlen
          omega

end Pure

-- ── The walk ──────────────────────────────────────────────────────────────────

section Walk

variable {o : Objects} {inodes : Checksum → Result UInt64} {colliding : Finset UInt64}

/-- Nothing is reported below directories with the same contents. -/
theorem not_reported_same {c m m' : Checksum} {p : List String} :
    ¬ Reported o (.dir c m) (.dir c m') p := by
  induction p generalizing c m m' with
  | nil => exact id
  | cons name path ih =>
      rw [Reported, RepoFile.childOf_dir c m' m]
      cases (RepoFile.dir c m).childOf o name with
      | none => exact id
      | some f =>
          cases f with
          | file a => exact fun h => h.2 rfl
          | dir a x => exact ih

/-- The paths below a directory that are reported under one of some names. -/
def ReportedUnder (o : Objects) (t e : RepoFile) (root : List String)
    (children : List (String × RepoFile)) (p : List String) : Prop :=
  ∃ child ∈ children, ∃ q, p = root ++ child.1 :: q ∧ Reported o t e (child.1 :: q)

/-- The corrupted paths of a state, after a part of the walk that has reported some. -/
def Gains (s : CompareState) (reported : List String → Prop) (s' : CompareState) : Prop :=
  ∀ p, p ∈ s'.corrupted ↔ p ∈ s.corrupted ∨ reported p

theorem gains_unknown (s : CompareState) (path : List String) :
    Gains s (· = path) { s with unknownCorrupted := insert path s.unknownCorrupted } := by
  intro p
  simp only [CompareState.corrupted, Finset.mem_union, Finset.mem_insert]
  tauto

theorem gains_inode (s : CompareState) (path : List String) :
    Gains s (· = path) { s with inodeCorrupted := insert path s.inodeCorrupted } := by
  intro p
  simp only [CompareState.corrupted, Finset.mem_union, Finset.mem_insert]
  tauto

theorem Gains.congr {s s' : CompareState} {reported reported' : List String → Prop}
    (h : Gains s reported s') (hiff : ∀ p, reported p ↔ reported' p) : Gains s reported' s' :=
  fun p => (h p).trans (or_congr Iff.rfl (hiff p))

/-- What the loop has reported so far, and what it reports under the next name. -/
theorem Gains.snoc {t e : RepoFile} {root : List String} {s s₁ s₂ : CompareState}
    {pre : List (String × RepoFile)} {name : String} {f : RepoFile}
    (h : Gains s (ReportedUnder o t e root pre) s₁)
    (h' : Gains s₁ (fun p => ∃ q, p = root ++ name :: q ∧ Reported o t e (name :: q)) s₂) :
    Gains s (ReportedUnder o t e root (pre ++ [(name, f)])) s₂ := by
  intro p
  rw [h' p, h p, or_assoc]
  refine or_congr Iff.rfl ?_
  rw [ReportedUnder, ReportedUnder]
  constructor
  · rintro (⟨child, hmem, q, hq⟩ | ⟨q, hq⟩)
    · exact ⟨child, List.mem_append_left _ hmem, q, hq⟩
    · exact ⟨(name, f), List.mem_append_right _ (List.mem_singleton_self _), q, hq⟩
  · rintro ⟨child, hmem, q, hq⟩
    rcases List.mem_append.mp hmem with hmem | hmem
    · exact .inl ⟨child, hmem, q, hq⟩
    · obtain rfl := List.mem_singleton.mp hmem
      exact .inr ⟨q, hq⟩

/-- What is reported under a name is in the expected directory. -/
theorem Reported.child {t e : RepoFile} {name : String} {q : List String}
    (h : Reported o t e (name :: q)) : ∃ f, e.childOf o name = some f := by
  cases he : e.childOf o name with
  | none =>
      rw [Reported, he] at h
      exact absurd h id
  | some f => exact ⟨f, rfl⟩

/-- A file of both trees is reported when it is not the same one. -/
theorem compareEntry_run {a b : Checksum} {i j : UInt64} (hi : inodes a = .ok i)
    (hj : inodes b = .ok j) (path : List String) (s : CompareState) :
    ∃ s', compareEntry o inodes true colliding path (.file a) (.file b) s = .ok ⟨⟩ s' ∧
      Gains s (fun p => p = path ∧ a ≠ b) s' := by
  have hmatch : entryMatches o true (.file a) (.file b) = .ok (decide (a = b)) := rfl
  by_cases hab : a = b
  · refine ⟨{ s with verified := insert path s.verified }, ?_, ?_⟩
    · rw [compareEntry, hmatch, bind_of_ok (liftR_ok _ _), if_pos (decide_eq_true hab)]
      rfl
    · intro p
      simp [CompareState.corrupted, hab]
  · have hrun : compareEntry o inodes true colliding path (.file a) (.file b) s
        = (if i ∈ colliding ∨ j ∈ colliding then
            modify fun s => { s with inodeCorrupted := insert path s.inodeCorrupted }
          else modify fun s => { s with unknownCorrupted := insert path s.unknownCorrupted }
            : CompareM Unit) s := by
      have hi' : inodes (RepoFile.file a).checksum = .ok i := hi
      have hj' : inodes (RepoFile.file b).checksum = .ok j := hj
      rw [compareEntry, hmatch, bind_of_ok (liftR_ok _ _), if_neg (by simp [hab]), hi',
        bind_of_ok (liftR_ok _ _), hj', bind_of_ok (liftR_ok _ _)]
    rw [hrun]
    by_cases hc : i ∈ colliding ∨ j ∈ colliding
    · rw [if_pos hc]
      exact ⟨_, rfl, (gains_inode s path).congr (fun p => (and_iff_left hab).symm)⟩
    · rw [if_neg hc]
      exact ⟨_, rfl, (gains_unknown s path).congr (fun p => (and_iff_left hab).symm)⟩

/-- A directory whose tree is in the repository, with inodes for its content objects. -/
structure SoundDir (o : Objects) (inodes : Checksum → Result UInt64) (n : Nat) (c : Checksum) :
    Prop extends Tar.SoundTree o n c where
  inodes : ∀ x, o.Reaches c .file x → ∃ i, inodes x = .ok i

/-- A sound directory has children that are found by name, and its subdirectories are sound. -/
theorem SoundDir.load {n : Nat} {c : Checksum} (h : SoundDir o inodes (n + 1) c) (m : Checksum) :
    ∃ d, (RepoFile.dir c m).load o = .ok d ∧
      (∀ name f, (name, f) ∈ d.children ↔ (RepoFile.dir c m).childOf o name = some f) ∧
      (∀ name, d.child name = (RepoFile.dir c m).childOf o name) ∧
      (∀ name a, (RepoFile.dir c m).childOf o name = some (.file a) → ∃ i, inodes a = .ok i) ∧
      ∀ name a x, (RepoFile.dir c m).childOf o name = some (.dir a x) → SoundDir o inodes n a := by
  obtain ⟨d, hd, hload, hmem, hchild, hsub⟩ := h.toSoundTree.load m
  refine ⟨d, hload, hmem, hchild, ?_, ?_⟩
  · intro name a ha
    rcases List.mem_append.mp ((hmem name _).mpr ha) with hf | hs
    · obtain ⟨f, hf, heq⟩ := List.mem_map.mp hf
      injection heq with _ heq
      injection heq with heq
      exact heq ▸ h.inodes _ (.file hd hf)
    · obtain ⟨s, _, heq⟩ := List.mem_map.mp hs
      exact absurd (congrArg Prod.snd heq) (by simp)
  · intro name a x ha
    refine ⟨(hsub name a x ha).1, fun y hy => ?_⟩
    rcases List.mem_append.mp ((hmem name _).mpr ha) with hf | hs
    · obtain ⟨f, _, heq⟩ := List.mem_map.mp hf
      exact absurd (congrArg Prod.snd heq) (by simp)
    · obtain ⟨s, hmem', heq⟩ := List.mem_map.mp hs
      injection heq with _ heq
      injection heq with heq _
      subst heq
      exact h.inodes y (.sub hd hmem' hy)

/-- **The walk reports** what is described, for directories of the same kinds. -/
theorem compareCommitTrees_run {n : Nat} (root : List String) {b y a x : Checksum}
    (ht : SoundDir o inodes n b) (he : SoundDir o inodes n a)
    (hkinds : SameKinds o (.dir b y) (.dir a x)) (s : CompareState) :
    ∃ s', compareCommitTrees o inodes true colliding n root (.dir b y) (.dir a x) s = .ok ⟨⟩ s' ∧
      Gains s (fun p => ∃ q, p = root ++ q ∧ Reported o (.dir b y) (.dir a x) q) s' := by
  induction n generalizing root b y a x s with
  | zero => exact absurd ht.depth id
  | succ n ih =>
      obtain ⟨dt, hdt, _, hchildt, hfilet, hsubt⟩ := ht.load y
      obtain ⟨de, hde, hmeme, _, hfilee, hsube⟩ := he.load x
      have hchildren : (RepoFile.dir a x).enumerateChildren o = .ok de.children := by
        rw [RepoFile.enumerateChildren, hde]
        rfl
      have hquery : ∀ name, (RepoFile.dir b y).queryInfoOptional o name
          = .ok ((RepoFile.dir b y).childOf o name) := by
        intro name
        rw [RepoFile.queryInfoOptional, hdt, ← hchildt]
        rfl
      rw [compareCommitTrees, hchildren, bind_of_ok (liftR_ok _ _)]
      have hstep : ∀ name f, (RepoFile.dir a x).childOf o name = some f → ∀ s, ∃ s',
          compareChild o inodes true colliding (compareCommitTrees o inodes true colliding n) root
            (.dir b y) (name, f) s = .ok ⟨⟩ s' ∧
          Gains s (fun p => ∃ q, p = root ++ name :: q ∧
            Reported o (.dir b y) (.dir a x) (name :: q)) s' := by
        intro name f hf s
        have hjoin : ∀ q, root ++ [name] ++ q = root ++ name :: q := by simp
        simp only [compareChild, hquery, Reported]
        rw [bind_of_ok (liftR_ok _ _)]
        cases hkinds.meet name with
        | neither hct hce => exact absurd (hce.symm.trans hf) (by simp)
        | missing g hct hce =>
            rw [hct, hce]
            refine ⟨_, rfl, (gains_unknown s (root ++ [name])).congr (fun p => ?_)⟩
            simp
        | extra g hct hce => exact absurd (hce.symm.trans hf) (by simp)
        | files a' b' hct hce =>
            obtain rfl := Option.some.inj (hce.symm.trans hf)
            obtain ⟨i, hi⟩ := hfilee name a' hce
            obtain ⟨j, hj⟩ := hfilet name b' hct
            rw [hct, hce]
            obtain ⟨s', hrun, hs'⟩ := @compareEntry_run o inodes colliding _ _ _ _ hi hj
              (root ++ [name]) s
            refine ⟨s', hrun, hs'.congr (fun p => ?_)⟩
            simp
        | dirs a' x' b' y' hct hce =>
            obtain rfl := Option.some.inj (hce.symm.trans hf)
            rw [hct, hce]
            by_cases hsame : a' = b'
            · subst hsame
              refine ⟨s, by simp [RepoFile.isDir, RepoFile.treeGetContentsChecksum], fun p => ?_⟩
              simp [not_reported_same]
            · obtain ⟨s', hrun, hs'⟩ := ih (root ++ [name]) (hsube name a' x' hce)
                (hsubt name b' y' hct) (hkinds.child hct hce).symm s
              refine ⟨s', ?_, hs'.congr (fun p => ?_)⟩
              · simp only [RepoFile.isDir, RepoFile.treeGetContentsChecksum, if_true, ne_eq,
                  Option.some.injEq, hsame, not_false_eq_true]
                exact hrun
              · simp only [hjoin]
      -- the invariant of the loop: what was reported under the names so far
      have hloop : Ends (Gains s (ReportedUnder o (.dir b y) (.dir a x) root []))
          (forM de.children (compareChild o inodes true colliding
            (compareCommitTrees o inodes true colliding n) root (.dir b y)))
          (fun _ => Gains s (ReportedUnder o (.dir b y) (.dir a x) root de.children)) := by
        refine Ends.loop (fun pre => Gains s (ReportedUnder o (.dir b y) (.dir a x) root pre)) ?_
        rintro pre ⟨name, f⟩ post hsplit s₁ hs₁
        have hf : (RepoFile.dir a x).childOf o name = some f :=
          (hmeme name f).mp (by rw [hsplit]; simp)
        obtain ⟨s₂, hrun, hs₂⟩ := hstep name f hf s₁
        exact ⟨⟨⟩, s₂, hrun, hs₁.snoc hs₂⟩
      obtain ⟨_, s', hrun, hs'⟩ := hloop s (fun p => by simp [ReportedUnder])
      refine ⟨s', hrun, hs'.congr (fun p => ?_)⟩
      constructor
      · rintro ⟨child, _, q, rfl, hq⟩
        exact ⟨child.1 :: q, rfl, hq⟩
      · rintro ⟨q, rfl, hq⟩
        cases q with
        | nil => exact absurd hq id
        | cons name q =>
            obtain ⟨f, hf⟩ := hq.child
            exact ⟨(name, f), (hmeme name f).mpr hf, q, rfl, hq⟩

/-- **The comparison is exact just when the exchange does no harm.** -/
theorem compare_exact_iff {n : Nat} {target expected : Commit}
    (ht : SoundDir o inodes n target.contents) (he : SoundDir o inodes n expected.contents)
    (hkinds : SameKinds o target.rootFile expected.rootFile) :
    ∃ s, compareCommitTrees o inodes true colliding n [] target.rootFile expected.rootFile {}
        = .ok ⟨⟩ s ∧
      ((∀ p, p ∈ s.corrupted ↔ DamagedAt o target.rootFile expected.rootFile p) ↔
        SameNamesAtOddDepth o target.rootFile expected.rootFile) := by
  obtain ⟨s, hrun, hs⟩ := @compareCommitTrees_run o inodes colliding n [] _ _ _ _ ht he hkinds {}
  have hreported : ∀ p, p ∈ s.corrupted ↔ Reported o target.rootFile expected.rootFile p := by
    intro p
    rw [hs p]
    simp [CompareState.corrupted, Commit.rootFile]
  refine ⟨s, hrun, ?_⟩
  have hiff : (∀ p, p ∈ s.corrupted ↔ DamagedAt o target.rootFile expected.rootFile p) ↔
      ∀ p, Reported o target.rootFile expected.rootFile p ↔
        Damaged o target.rootFile expected.rootFile p := by
    refine forall_congr' (fun p => ?_)
    rw [hreported, damaged_iff rfl]
  rw [hiff]
  constructor
  · intro h path hodd
    exact (sameNames_of_reported hkinds path).1 h hodd
  · intro h p
    exact (reported_of_sameNames hkinds rfl rfl p).1 h

end Walk

-- ── A merge commit with an extra directory ────────────────────────────────────

/-- A root directory with an empty `/var`. -/
def bareRoot : DirTree := { files := [], dirs := [("var", emptyTreeSum, sampleMetaSum)] }

def bareRootSum : Checksum := "01edd3a223840d5e67bbdc50254dd8dc7f73fd42f7823b05e649577cbbb9c848"

/-- The commit of the base image. -/
def bareCommit : Commit := { contents := bareRootSum, dirmeta := sampleMetaSum }

/-- The repository has that commit and one with a `/var/tmp`. -/
def mergedObjects : Objects where
  dirtrees := Tar.varRepo.dirtrees.insert bareRootSum bareRoot
  dirmetas := Tar.varRepo.dirmetas

/-- A commit whose root is empty. -/
def emptyRootCommit : Commit := { contents := emptyTreeSum, dirmeta := sampleMetaSum }

theorem lookup_bareRoot : mergedObjects.dirtrees[bareRootSum]? = some bareRoot :=
  Std.ExtTreeMap.getElem?_insert_self

theorem lookup_merged {c : Checksum} (h : bareRootSum ≠ c) :
    mergedObjects.dirtrees[c]? = Tar.varRepo.dirtrees[c]? := by
  rw [mergedObjects, Std.ExtTreeMap.lookup_insert, if_neg h]

theorem lookup_merged_varRoot : mergedObjects.dirtrees[Tar.varRootSum]? = some Tar.varRoot :=
  (lookup_merged (by decide)).trans Tar.lookup_varRoot

theorem lookup_merged_varTree : mergedObjects.dirtrees[Tar.varTreeSum]? = some Tar.varTree :=
  (lookup_merged (by decide)).trans Tar.lookup_varTree

theorem lookup_merged_empty : mergedObjects.dirtrees[emptyTreeSum]? = some emptyTree :=
  (lookup_merged (by decide)).trans Tar.lookup_varEmpty

/-- The children of a directory of the repository. -/
theorem childOf_merged {c m : Checksum} {d : DirTree} (h : mergedObjects.dirtrees[c]? = some d)
    (name : String) : (RepoFile.dir c m).childOf mergedObjects name = d.child name := by
  rw [RepoFile.childOf, h, Option.bind_some]

/-- A directory with at most one entry, an empty directory of its own. -/
theorem child_single {entry name : String} {c m : Checksum} :
    ({ files := [], dirs := [(entry, c, m)] } : DirTree).child name
      = if entry = name then some (.dir c m) else none := by
  by_cases h : entry = name
  · simp [DirTree.child, DirTree.children, h]
  · simp [DirTree.child, DirTree.children, h]

theorem child_emptyTree (name : String) : emptyTree.child name = none := rfl

/-- The repository has no files, so whatever stands at a path is a directory. -/
theorem onlyDirs_merged {c m : Checksum} {path : List String} {f : RepoFile}
    (h : (RepoFile.dir c m).resolve mergedObjects path = some f) : f.isDir = true := by
  have hfiles : ∀ (c : Checksum) d, mergedObjects.dirtrees[c]? = some d → d.files = [] := by
    intro c d hd
    simp only [mergedObjects, Tar.varRepo, Std.ExtTreeMap.lookup_insert,
      Std.ExtTreeMap.lookup_empty] at hd
    split at hd
    · rw [← Option.some.inj hd]; rfl
    · split at hd
      · rw [← Option.some.inj hd]; rfl
      · split at hd
        · rw [← Option.some.inj hd]; rfl
        · split at hd
          · rw [← Option.some.inj hd]; rfl
          · exact absurd hd (by simp)
  induction path generalizing c m with
  | nil =>
      rw [RepoFile.resolve_nil] at h
      rw [← Option.some.inj h]
      rfl
  | cons name path ih =>
      rw [RepoFile.resolve_cons] at h
      obtain ⟨g, hg, h⟩ := Option.bind_eq_some_iff.mp h
      obtain ⟨d, hd, hg⟩ := Option.bind_eq_some_iff.mp hg
      obtain ⟨p, hp, rfl⟩ := Option.map_eq_some_iff.mp hg
      have hmem := List.mem_of_find?_eq_some hp
      rw [DirTree.children, hfiles c d hd, List.map_nil, List.nil_append] at hmem
      obtain ⟨s, _, rfl⟩ := List.mem_map.mp hmem
      exact ih h

theorem sameKinds_merged (a b : Commit) : SameKinds mergedObjects a.rootFile b.rootFile :=
  fun _ _ _ ht he => (onlyDirs_merged ht).trans (onlyDirs_merged he).symm

/-- The three commits are sound, whatever the inodes. -/
theorem soundDir_merged (inodes : Checksum → Result UInt64) {c : Checksum}
    (h : c = bareRootSum ∨ c = Tar.varRootSum ∨ c = emptyTreeSum) :
    SoundDir mergedObjects inodes 3 c := by
  have hmeta : sampleMetaSum ∈ mergedObjects.dirmetas := Tar.varMeta_mem
  have hempty : ∀ n, Tar.SoundTree mergedObjects (n + 1) emptyTreeSum := fun n =>
    .node lookup_merged_empty (by rw [Tar.UniqueNames]; decide) (by simp [emptyTree])
      (by simp [emptyTree])
  have hsound : Tar.SoundTree mergedObjects 3 c := by
    rcases h with rfl | rfl | rfl
    · refine .node lookup_bareRoot (by rw [Tar.UniqueNames]; decide) (by simp [bareRoot]) ?_
      intro s hs
      rw [List.mem_singleton.mp hs]
      exact ⟨hmeta, hempty 1⟩
    · refine .node lookup_merged_varRoot (by rw [Tar.UniqueNames]; decide) (by simp [Tar.varRoot]) ?_
      intro s hs
      rw [List.mem_singleton.mp hs]
      refine ⟨hmeta, .node lookup_merged_varTree (by rw [Tar.UniqueNames]; decide)
        (by simp [Tar.varTree]) ?_⟩
      intro s hs
      rw [List.mem_singleton.mp hs]
      exact ⟨hmeta, hempty 0⟩
    · exact hempty 2
  refine ⟨hsound, fun x hx => ?_⟩
  -- no content object is stored, so none is reached
  have hin : x ∈ mergedObjects.files := hsound.stored .file x hx
  exact absurd hin Std.ExtTreeMap.not_mem_empty

/-- A missing `/var` is reported, and nothing else. -/
theorem missingVar_exact : ∃ s, compareCommitTrees mergedObjects (fun _ => .ok 1) true ∅ 3 []
      emptyRootCommit.rootFile Tar.varCommit.rootFile {} = .ok ⟨⟩ s ∧
    ∀ p, p ∈ s.corrupted ↔
      DamagedAt mergedObjects emptyRootCommit.rootFile Tar.varCommit.rootFile p := by
  obtain ⟨s, hrun, hiff⟩ := @compare_exact_iff mergedObjects (fun _ => .ok 1) ∅ 3 emptyRootCommit
    Tar.varCommit (soundDir_merged _ (.inr (.inr rfl))) (soundDir_merged _ (.inr (.inl rfl)))
    (sameKinds_merged _ _)
  refine ⟨s, hrun, hiff.mpr ?_⟩
  intro path hodd t e ht
  cases path with
  | nil => exact absurd hodd (by simp)
  | cons name path =>
      rw [RepoFile.resolve_cons, Commit.rootFile, emptyRootCommit, childOf_merged lookup_merged_empty,
        child_emptyTree] at ht
      exact absurd ht (by simp)

/-- **An extra `/var/tmp` is reported as damage.** -/
theorem extraTmp_reported : ∃ s, compareCommitTrees mergedObjects (fun _ => .ok 1) true ∅ 3 []
      Tar.varCommit.rootFile bareCommit.rootFile {} = .ok ⟨⟩ s ∧
    ["var", "tmp"] ∈ s.corrupted ∧
    ¬ DamagedAt mergedObjects Tar.varCommit.rootFile bareCommit.rootFile ["var", "tmp"] := by
  have hvar : (RepoFile.dir Tar.varRootSum sampleMetaSum).childOf mergedObjects "var"
      = some (.dir Tar.varTreeSum sampleMetaSum) := by
    rw [childOf_merged lookup_merged_varRoot, Tar.varRoot, child_single, if_pos rfl]
  have hbare : (RepoFile.dir bareRootSum sampleMetaSum).childOf mergedObjects "var"
      = some (.dir emptyTreeSum sampleMetaSum) := by
    rw [childOf_merged lookup_bareRoot, bareRoot, child_single, if_pos rfl]
  have htmp : (RepoFile.dir Tar.varTreeSum sampleMetaSum).childOf mergedObjects "tmp"
      = some (.dir emptyTreeSum sampleMetaSum) := by
    rw [childOf_merged lookup_merged_varTree, Tar.varTree, child_single, if_pos rfl]
  have hnone : (RepoFile.dir emptyTreeSum sampleMetaSum).childOf mergedObjects "tmp" = none := by
    rw [childOf_merged lookup_merged_empty, child_emptyTree]
  obtain ⟨s, hrun, hs⟩ := @compareCommitTrees_run mergedObjects (fun _ => .ok 1) ∅ 3 []
    Tar.varRootSum sampleMetaSum bareRootSum sampleMetaSum (soundDir_merged _ (.inr (.inl rfl)))
    (soundDir_merged _ (.inl rfl)) (sameKinds_merged Tar.varCommit bareCommit) {}
  refine ⟨s, hrun, (hs _).mpr (.inr ⟨["var", "tmp"], rfl, ?_⟩), ?_⟩
  · rw [Reported, hbare, hvar]
    show Reported _ _ _ _
    rw [Reported, htmp, hnone]
  · rintro ⟨_, _, _, f, hf, _⟩
    rw [RepoFile.resolve_cons, Commit.rootFile, bareCommit, hbare, Option.bind_some,
      RepoFile.resolve_cons, hnone] at hf
    exact absurd hf (by simp)

end OstreeExt.Store
