import OstreeExt.Returns
import OstreeExt.Store.Compare

/-!
# The difference between two commits

`diff.rs` walks two commit trees side by side and sorts the paths at which they differ into six
sets.  It goes down into a directory of the first tree when the second tree has something with
other contents there.  `DiffAt` says which paths belong into a set, and `diffRecurse_run` that the
walk collects them, as long as no directory of the first tree is something else in the second.
-/

namespace OstreeExt

open Exec Tar Store

-- ── The six sets ──────────────────────────────────────────────────────────────

/-- `FileSet` -/
abbrev FileSet := Finset String

/-- `FileTreeDiff` -/
structure FileTreeDiff where
  subdir : Option String := none
  addedFiles : FileSet := ∅
  addedDirs : FileSet := ∅
  removedFiles : FileSet := ∅
  removedDirs : FileSet := ∅
  changedFiles : FileSet := ∅
  changedDirs : FileSet := ∅

/-- The names of the six sets. -/
inductive DiffSet where
  | addedFiles
  | addedDirs
  | removedFiles
  | removedDirs
  | changedFiles
  | changedDirs
  deriving DecidableEq

namespace FileTreeDiff

/-- One of the six sets. -/
def get (d : FileTreeDiff) : DiffSet → FileSet
  | .addedFiles => d.addedFiles
  | .addedDirs => d.addedDirs
  | .removedFiles => d.removedFiles
  | .removedDirs => d.removedDirs
  | .changedFiles => d.changedFiles
  | .changedDirs => d.changedDirs

/-- `insert` into one of the six sets. -/
def insert (k : DiffSet) (path : String) (d : FileTreeDiff) : FileTreeDiff :=
  match k with
  | .addedFiles => { d with addedFiles := Insert.insert path d.addedFiles }
  | .addedDirs => { d with addedDirs := Insert.insert path d.addedDirs }
  | .removedFiles => { d with removedFiles := Insert.insert path d.removedFiles }
  | .removedDirs => { d with removedDirs := Insert.insert path d.removedDirs }
  | .changedFiles => { d with changedFiles := Insert.insert path d.changedFiles }
  | .changedDirs => { d with changedDirs := Insert.insert path d.changedDirs }

theorem mem_get_insert {k k' : DiffSet} {path t : String} {d : FileTreeDiff} :
    t ∈ (d.insert k path).get k' ↔ t ∈ d.get k' ∨ k' = k ∧ t = path := by
  cases k <;> cases k' <;> simp [insert, get, or_comm]

end FileTreeDiff

/-- Programs over the difference. -/
abbrev DiffM := EStateM Stop FileTreeDiff

namespace RepoFile

/-- `tree_get_metadata_checksum`; only directories have one. -/
def treeGetMetadataChecksum : RepoFile → Option Checksum
  | .dir _ dirmeta => some dirmeta
  | .file _ => none

/-- `ensure_resolved`: the objects of a directory are loaded. -/
def ensureResolved (o : Objects) (f : RepoFile) : Result Unit :=
  match f with
  | .file _ => .ok ()
  | .dir _ dirmeta => do
      let _ ← f.load o
      let _ ← okOr ("No such metadata object " ++ dirmeta ++ ".dirmeta") o.dirmetas[dirmeta]?
      .ok ()

end RepoFile

-- ── The walk ──────────────────────────────────────────────────────────────────

section Walk

variable (o : Objects)

/-- An entry of the source directory, compared with that of the target directory; `recurse` is
    the recursive call. -/
def diffFromChild (recurse : String → RepoFile → RepoFile → DiffM Unit) (pfx : String)
    (toDir : RepoFile) (child : String × RepoFile) : DiffM Unit := do
  let path := pfx ++ child.1
  let fromChild := child.2
  match ← liftR (toDir.queryInfoOptional o child.1) with
  | some toChild => do
      liftR (toChild.ensureResolved o)
      liftR (fromChild.ensureResolved o)
      if fromChild.isDir then do
        if fromChild.treeGetContentsChecksum ≠ toChild.treeGetContentsChecksum then
          recurse (path ++ "/") fromChild toChild
        if fromChild.treeGetMetadataChecksum ≠ toChild.treeGetMetadataChecksum then
          modify (·.insert .changedDirs path)
      else if fromChild.checksum ≠ toChild.checksum then
        modify (·.insert .changedFiles path)
  | none =>
      if fromChild.isDir then modify (·.insert .removedDirs path)
      else modify (·.insert .removedFiles path)

/-- An entry of the target directory; it counts when the source directory has none. -/
def diffToChild (pfx : String) (fromDir : RepoFile) (child : String × RepoFile) : DiffM Unit := do
  let path := pfx ++ child.1
  match ← liftR (fromDir.queryInfoOptional o child.1) with
  | some _ => pure ()
  | none =>
      if child.2.isDir then modify (·.insert .addedDirs path)
      else modify (·.insert .addedFiles path)

/-- `diff_recurse`, with a bound on the depth. -/
def diffRecurse : Nat → String → RepoFile → RepoFile → DiffM Unit
  | 0, _, _, _ => throw .fuel
  | n + 1, pfx, fromDir, toDir => do
      let fromIter ← liftR (fromDir.enumerateChildren o)
      forM fromIter (diffFromChild o (diffRecurse n) pfx toDir)
      let toIter ← liftR (toDir.enumerateChildren o)
      forM toIter (diffToChild o pfx fromDir)

end Walk

/-- `read_commit`: the root of a commit. -/
def Repo.readCommitRoot (rev : String) (repo : Repo) : Result RepoFile := do
  let checksum ← repo.requireRev rev
  let commit ← repo.loadCommit checksum
  commit.rootFile.ensureResolved repo.toObjects
  .ok commit.rootFile

/-- The names of a path from the root. -/
def pathNames (path : String) : List String :=
  ((splitChar '/' path.toList).filter (· ≠ [])).map String.ofList

/-- `resolve_relative_path` and `ensure_resolved`. -/
def resolveSubdir (o : Objects) (root : RepoFile) (subdir : Option String) : Result RepoFile := do
  let f ← match subdir with
    | none => .ok root
    | some path => okOr "No such file or directory" (root.resolve o (pathNames path))
  f.ensureResolved o
  .ok f

/-- `diff` -/
def diff (fuel : Nat) (repo : Repo) (fromRev toRev : String) (subdir : Option String) :
    Result FileTreeDiff := do
  let fromRoot ← repo.readCommitRoot fromRev
  let toRoot ← repo.readCommitRoot toRev
  let fromRoot ← resolveSubdir repo.toObjects fromRoot subdir
  let toRoot ← resolveSubdir repo.toObjects toRoot subdir
  match diffRecurse repo.toObjects fuel "/" fromRoot toRoot { subdir } with
  | .ok _ d => .ok d
  | .error e _ => .error e

-- ── What belongs into the sets ────────────────────────────────────────────────

/-- The text of a path below a directory whose own path has been written already. -/
def pathText (pfx : String) : List String → String
  | [] => pfx
  | [name] => pfx ++ name
  | name :: name' :: path => pathText (pfx ++ name ++ "/") (name' :: path)

theorem pathText_cons (pfx name : String) {path : List String} (h : path ≠ []) :
    pathText pfx (name :: path) = pathText (pfx ++ name ++ "/") path := by
  cases path with
  | nil => exact absurd rfl h
  | cons name' path => rw [pathText]

/-- What stands at one path in the two trees belongs into a set. -/
def Placed (k : DiffSet) (a b : Option RepoFile) : Prop :=
  match k with
  | .removedFiles => b = none ∧ ∃ f, a = some f ∧ f.isDir = false
  | .removedDirs => b = none ∧ ∃ f, a = some f ∧ f.isDir = true
  | .addedFiles => a = none ∧ ∃ f, b = some f ∧ f.isDir = false
  | .addedDirs => a = none ∧ ∃ f, b = some f ∧ f.isDir = true
  | .changedFiles => ∃ f g, a = some f ∧ b = some g ∧ f.isDir = false ∧ f.checksum ≠ g.checksum
  | .changedDirs => ∃ f g, a = some f ∧ b = some g ∧ f.isDir = true ∧
      f.treeGetMetadataChecksum ≠ g.treeGetMetadataChecksum

section Meaning

variable (o : Objects)

/-- The path belongs into a set: what stands there does, and every directory on the way is one
    in the source tree and is there in the target tree. -/
def DiffAt (k : DiffSet) : RepoFile → RepoFile → List String → Prop
  | _, _, [] => False
  | f, t, name :: path =>
      if path = [] then Placed k (f.childOf o name) (t.childOf o name)
      else ∃ x y, f.childOf o name = some x ∧ t.childOf o name = some y ∧ x.isDir = true ∧
        DiffAt k x y path

/-- No directory of the source tree is something else in the target tree. -/
def NoDirLost (f t : RepoFile) : Prop :=
  ∀ path c m x, f.resolve o path = some (.dir c m) → t.resolve o path ≠ some (.file x)

end Meaning

section Pure

variable {o : Objects} {f t : RepoFile} {k : DiffSet}

theorem NoDirLost.child {name : String} {f' t' : RepoFile} (h : NoDirLost o f t)
    (hf : f.childOf o name = some f') (ht : t.childOf o name = some t') : NoDirLost o f' t' := by
  intro path c m x hx hy
  refine h (name :: path) c m x ?_ ?_
  · rw [RepoFile.resolve_cons, hf]
    exact hx
  · rw [RepoFile.resolve_cons, ht]
    exact hy

theorem NoDirLost.dir {c m : Checksum} (h : NoDirLost o (.dir c m) t) : ∃ c' m', t = .dir c' m' := by
  cases t with
  | dir c' m' => exact ⟨c', m', rfl⟩
  | file x => exact absurd (RepoFile.resolve_nil _) (h [] c m x (RepoFile.resolve_nil _))

theorem diffAt_single {name : String} :
    DiffAt o k f t [name] ↔ Placed k (f.childOf o name) (t.childOf o name) := by
  rw [DiffAt, if_pos rfl]

theorem diffAt_cons {name : String} {path : List String} (h : path ≠ []) :
    DiffAt o k f t (name :: path) ↔ ∃ x y, f.childOf o name = some x ∧
      t.childOf o name = some y ∧ x.isDir = true ∧ DiffAt o k x y path := by
  rw [DiffAt, if_neg h]

/-- Nothing is different below directories with the same contents. -/
theorem not_diffAt_same {c m m' : Checksum} {path : List String} :
    ¬ DiffAt o k (.dir c m) (.dir c m') path := by
  have hplaced : ∀ a : Option RepoFile, ¬ Placed k a a := by
    intro a
    cases k <;> cases a <;> simp [Placed]
  induction path generalizing c m m' with
  | nil => exact id
  | cons name path ih =>
      by_cases hpath : path = []
      · subst hpath
        rw [diffAt_single, RepoFile.childOf_dir c m' m]
        exact hplaced _
      · rw [diffAt_cons hpath, RepoFile.childOf_dir c m' m]
        rintro ⟨x, y, hx, hy, hdir, h⟩
        obtain rfl := Option.some.inj (hx.symm.trans hy)
        cases x with
        | dir c' x' => exact ih h
        | file c' => exact absurd hdir (by simp [RepoFile.isDir])

end Pure

-- ── What a part of the walk adds ──────────────────────────────────────────────

/-- The sets after a part of the walk that has added some paths. -/
def Gathers (d : FileTreeDiff) (added : DiffSet → String → Prop) (d' : FileTreeDiff) : Prop :=
  ∀ k p, p ∈ d'.get k ↔ p ∈ d.get k ∨ added k p

theorem Gathers.none (d : FileTreeDiff) : Gathers d (fun _ _ => False) d := by
  intro k p
  rw [or_false]

theorem Gathers.insert (d : FileTreeDiff) (k : DiffSet) (path : String) :
    Gathers d (fun k' p => k' = k ∧ p = path) (d.insert k path) :=
  fun _ _ => FileTreeDiff.mem_get_insert

theorem Gathers.trans {d₁ d₂ d₃ : FileTreeDiff} {added added' : DiffSet → String → Prop}
    (h : Gathers d₁ added d₂) (h' : Gathers d₂ added' d₃) :
    Gathers d₁ (fun k p => added k p ∨ added' k p) d₃ := by
  intro k p
  rw [h' k p, h k p, or_assoc]

theorem Gathers.congr {d d' : FileTreeDiff} {added added' : DiffSet → String → Prop}
    (h : Gathers d added d') (hiff : ∀ k p, added k p ↔ added' k p) : Gathers d added' d' :=
  fun k p => (h k p).trans (or_congr Iff.rfl (hiff k p))

/-- A loop adds what its rounds add. -/
theorem Gathers.loop {α : Type} {l : List α} (body : α → DiffM Unit)
    (added : α → DiffSet → String → Prop)
    (h : ∀ a ∈ l, ∀ d, ∃ d', body a d = .ok ⟨⟩ d' ∧ Gathers d (added a) d') (d : FileTreeDiff) :
    ∃ d', forM l body d = .ok ⟨⟩ d' ∧ Gathers d (fun k p => ∃ a ∈ l, added a k p) d' := by
  induction l generalizing d with
  | nil => exact ⟨d, rfl, (Gathers.none d).congr (by simp)⟩
  | cons a l ih =>
      obtain ⟨d₁, hrun, hd₁⟩ := h a (List.mem_cons_self ..) d
      obtain ⟨d₂, hrest, hd₂⟩ := ih (fun b hb => h b (List.mem_cons_of_mem _ hb)) d₁
      refine ⟨d₂, ?_, (hd₁.trans hd₂).congr (fun k p => by simp)⟩
      rw [List.forM_cons, bind_of_ok hrun]
      exact hrest

section Rounds

variable {o : Objects} {n : Nat} {a x b y : Checksum}

/-- A directory whose own objects are stored can be resolved. -/
theorem ensureResolved_dir {c m : Checksum} (h : SoundTree o (n + 1) c) (hm : m ∈ o.dirmetas) :
    (RepoFile.dir c m).ensureResolved o = .ok () := by
  obtain ⟨d, _, hload, _⟩ := h.load m
  obtain ⟨v, hv⟩ := Std.ExtTreeMap.mem_iff_lookup.mp hm
  rw [RepoFile.ensureResolved, hload, bind_ok_eq, hv]
  rfl

/-- A child of a stored directory can be resolved. -/
theorem ensureResolved_child {m : Checksum} {name : String} {f : RepoFile}
    (h : SoundTree o (n + 1) a) (hf : (RepoFile.dir a m).childOf o name = some f) :
    f.ensureResolved o = .ok () := by
  obtain ⟨_, _, _, _, _, hsub⟩ := h.load m
  cases f with
  | file c => rfl
  | dir c m' =>
      obtain ⟨hsound, hm⟩ := hsub name c m' hf
      cases n with
      | zero => exact absurd hsound.depth id
      | succ n => exact ensureResolved_dir hsound hm

theorem queryInfoOptional_dir (h : SoundTree o (n + 1) b) (m : Checksum) (name : String) :
    (RepoFile.dir b m).queryInfoOptional o name = .ok ((RepoFile.dir b m).childOf o name) := by
  obtain ⟨d, _, hload, _, hchild, _⟩ := h.load m
  rw [RepoFile.queryInfoOptional, hload, ← hchild]
  rfl

theorem enumerateChildren_dir (h : SoundTree o (n + 1) a) (m : Checksum) :
    ∃ children, (RepoFile.dir a m).enumerateChildren o = .ok children ∧
      ∀ name f, (name, f) ∈ children ↔ (RepoFile.dir a m).childOf o name = some f := by
  obtain ⟨d, _, hload, hmem, _, _⟩ := h.load m
  refine ⟨d.children, ?_, hmem⟩
  rw [RepoFile.enumerateChildren, hload]
  rfl

/-- The paths under one name that belong into a set. -/
def DiffUnder (o : Objects) (f t : RepoFile) (pfx name : String) (k : DiffSet) (p : String) : Prop :=
  ∃ q, p = pathText pfx (name :: q) ∧ DiffAt o k f t (name :: q)

/-- Under a name that one of the two directories does not have, or has as a file, there is the
    name itself and nothing else. -/
theorem diffUnder_leaf {f t : RepoFile} {pfx name : String} {k : DiffSet} {p : String}
    (h : ∀ x y, f.childOf o name = some x → t.childOf o name = some y → x.isDir = false) :
    DiffUnder o f t pfx name k p ↔
      p = pfx ++ name ∧ Placed k (f.childOf o name) (t.childOf o name) := by
  constructor
  · rintro ⟨q, rfl, hq⟩
    by_cases hnil : q = []
    · subst hnil
      exact ⟨rfl, diffAt_single.mp hq⟩
    · obtain ⟨x, y, hx, hy, hdir, _⟩ := (diffAt_cons hnil).mp hq
      rw [h x y hx hy] at hdir
      exact absurd hdir (by simp)
  · rintro ⟨rfl, hplaced⟩
    exact ⟨[], rfl, diffAt_single.mpr hplaced⟩

/-- **One round of the loop over the source directory**, when the recursive call does what it
    should. -/
theorem diffFromChild_run (hfrom : SoundTree o (n + 1) a) (hto : SoundTree o (n + 1) b)
    (hlost : NoDirLost o (.dir a x) (.dir b y)) {recurse : String → RepoFile → RepoFile → DiffM Unit}
    (hrec : ∀ pfx c m c' m', SoundTree o n c → SoundTree o n c' → NoDirLost o (.dir c m) (.dir c' m') →
      ∀ d, ∃ d', recurse pfx (.dir c m) (.dir c' m') d = .ok ⟨⟩ d' ∧
        Gathers d (fun k p => ∃ q, p = pathText pfx q ∧ DiffAt o k (.dir c m) (.dir c' m') q) d')
    (pfx : String) {name : String} {g : RepoFile}
    (hg : (RepoFile.dir a x).childOf o name = some g) (d : FileTreeDiff) :
    ∃ d', diffFromChild o recurse pfx (.dir b y) (name, g) d = .ok ⟨⟩ d' ∧
      Gathers d (DiffUnder o (.dir a x) (.dir b y) pfx name) d' := by
  rw [diffFromChild, queryInfoOptional_dir hto, bind_of_ok (liftR_ok _ _)]
  cases ht : (RepoFile.dir b y).childOf o name with
  | none =>
      -- the entry is gone, whatever it was
      have hunder : ∀ k p, DiffUnder o (.dir a x) (.dir b y) pfx name k p ↔
          p = pfx ++ name ∧ Placed k (some g) none := by
        intro k p
        rw [diffUnder_leaf (fun x' y' _ hy' => absurd (ht.symm.trans hy') (by simp)), hg, ht]
      cases hdir : g.isDir with
      | true =>
          refine ⟨d.insert .removedDirs (pfx ++ name), by simp, ?_⟩
          refine (Gathers.insert d _ _).congr (fun k p => ?_)
          rw [hunder]
          cases k <;> simp [Placed, hdir]
      | false =>
          refine ⟨d.insert .removedFiles (pfx ++ name), by simp, ?_⟩
          refine (Gathers.insert d _ _).congr (fun k p => ?_)
          rw [hunder]
          cases k <;> simp [Placed, hdir]
  | some g' =>
      dsimp only
      rw [ensureResolved_child hto ht, bind_of_ok (liftR_ok _ _), ensureResolved_child hfrom hg,
        bind_of_ok (liftR_ok _ _)]
      have hlost' := hlost.child hg ht
      cases g with
      | file c =>
          have hunder : ∀ k p, DiffUnder o (.dir a x) (.dir b y) pfx name k p ↔
              p = pfx ++ name ∧ Placed k (some (.file c)) (some g') := by
            intro k p
            rw [diffUnder_leaf (fun x' y' hx' _ => ?_), hg, ht]
            rw [← Option.some.inj (hg.symm.trans hx')]
            rfl
          by_cases hsum : (RepoFile.file c).checksum ≠ g'.checksum
          · refine ⟨d.insert .changedFiles (pfx ++ name), by simp [RepoFile.isDir, hsum], ?_⟩
            refine (Gathers.insert d _ _).congr (fun k p => ?_)
            rw [hunder]
            cases k <;> simp [Placed, RepoFile.isDir, hsum]
          · refine ⟨d, by simp [RepoFile.isDir, hsum], (Gathers.none d).congr (fun k p => ?_)⟩
            rw [hunder]
            cases k <;> simp [Placed, RepoFile.isDir, hsum]
      | dir c m =>
          obtain ⟨c', m', rfl⟩ := hlost'.dir
          obtain ⟨_, _, _, _, _, hsub⟩ := hfrom.load x
          obtain ⟨_, _, _, _, _, hsub'⟩ := hto.load y
          -- first what is below the directory, then the directory itself
          have hbelow : ∃ d₁, (if (RepoFile.dir c m).treeGetContentsChecksum ≠
                (RepoFile.dir c' m').treeGetContentsChecksum then
                recurse (pfx ++ name ++ "/") (.dir c m) (.dir c' m') else pure ()) d = .ok ⟨⟩ d₁ ∧
              Gathers d (fun k p => ∃ q, q ≠ [] ∧ p = pathText pfx (name :: q) ∧
                DiffAt o k (.dir c m) (.dir c' m') q) d₁ := by
            by_cases hsame : c = c'
            · subst hsame
              refine ⟨d, by simp [RepoFile.treeGetContentsChecksum], ?_⟩
              exact (Gathers.none d).congr (fun k p => by simp [not_diffAt_same])
            · obtain ⟨d₁, hrun, hd₁⟩ := hrec (pfx ++ name ++ "/") c m c' m' (hsub name c m hg).1
                (hsub' name c' m' ht).1 hlost' d
              refine ⟨d₁, by simpa [RepoFile.treeGetContentsChecksum, hsame] using hrun, ?_⟩
              refine hd₁.congr (fun k p => exists_congr (fun q => ?_))
              constructor
              · rintro ⟨rfl, hq⟩
                have hne : q ≠ [] := by
                  rintro rfl
                  exact hq
                exact ⟨hne, (pathText_cons pfx name hne).symm, hq⟩
              · rintro ⟨hne, rfl, hq⟩
                exact ⟨pathText_cons pfx name hne, hq⟩
          obtain ⟨d₁, hrun₁, hd₁⟩ := hbelow
          have hself : ∃ d₂, (if (RepoFile.dir c m).treeGetMetadataChecksum ≠
                (RepoFile.dir c' m').treeGetMetadataChecksum then
                modify (·.insert .changedDirs (pfx ++ name)) else pure () : DiffM Unit) d₁ = .ok ⟨⟩ d₂ ∧
              Gathers d₁ (fun k p => p = pfx ++ name ∧
                Placed k (some (.dir c m)) (some (.dir c' m'))) d₂ := by
            by_cases hmeta : m = m'
            · refine ⟨d₁, by simp [RepoFile.treeGetMetadataChecksum, hmeta], ?_⟩
              refine (Gathers.none d₁).congr (fun k p => ?_)
              cases k <;> simp [Placed, RepoFile.isDir, RepoFile.treeGetMetadataChecksum, hmeta]
            · refine ⟨d₁.insert .changedDirs (pfx ++ name),
                by simp [RepoFile.treeGetMetadataChecksum, hmeta], ?_⟩
              refine (Gathers.insert d₁ _ _).congr (fun k p => ?_)
              cases k <;> simp [Placed, RepoFile.isDir, RepoFile.treeGetMetadataChecksum, hmeta]
          obtain ⟨d₂, hrun₂, hd₂⟩ := hself
          refine ⟨d₂, ?_, (hd₁.trans hd₂).congr (fun k p => ?_)⟩
          · rw [if_pos (show (RepoFile.dir c m).isDir = true from rfl)]
            by_cases hc : (RepoFile.dir c m).treeGetContentsChecksum
                ≠ (RepoFile.dir c' m').treeGetContentsChecksum
            · rw [if_pos hc] at hrun₁ ⊢
              exact (bind_of_ok hrun₁).trans hrun₂
            · rw [if_neg hc] at hrun₁ ⊢
              cases hrun₁
              exact hrun₂
          · rw [DiffUnder]
            constructor
            · rintro (⟨q, hne, rfl, hq⟩ | ⟨rfl, hplaced⟩)
              · exact ⟨q, rfl, (diffAt_cons hne).mpr ⟨_, _, hg, ht, rfl, hq⟩⟩
              · refine ⟨[], rfl, diffAt_single.mpr ?_⟩
                rw [hg, ht]
                exact hplaced
            · rintro ⟨q, rfl, hq⟩
              by_cases hne : q = []
              · subst hne
                refine .inr ⟨rfl, ?_⟩
                rw [← hg, ← ht]
                exact diffAt_single.mp hq
              · obtain ⟨x', y', hx', hy', _, hq'⟩ := (diffAt_cons hne).mp hq
                obtain rfl := Option.some.inj (hg.symm.trans hx')
                obtain rfl := Option.some.inj (ht.symm.trans hy')
                exact .inl ⟨q, hne, rfl, hq'⟩

/-- **One round of the loop over the target directory.** -/
theorem diffToChild_run {f : RepoFile} (hfrom : SoundTree o (n + 1) a) (pfx : String)
    {name : String} (ht : (RepoFile.dir b y).childOf o name = some f) (d : FileTreeDiff) :
    ∃ d', diffToChild o pfx (.dir a x) (name, f) d = .ok ⟨⟩ d' ∧
      Gathers d (fun k p => (RepoFile.dir a x).childOf o name = none ∧
        DiffUnder o (.dir a x) (.dir b y) pfx name k p) d' := by
  rw [diffToChild, queryInfoOptional_dir hfrom, bind_of_ok (liftR_ok _ _)]
  cases hg : (RepoFile.dir a x).childOf o name with
  | some g => exact ⟨d, rfl, (Gathers.none d).congr (fun k p => by simp)⟩
  | none =>
      have hunder : ∀ k p, DiffUnder o (.dir a x) (.dir b y) pfx name k p ↔
          p = pfx ++ name ∧ Placed k none (some f) := by
        intro k p
        rw [diffUnder_leaf (fun x' y' hx' _ => absurd (hg.symm.trans hx') (by simp)), hg, ht]
      cases hdir : f.isDir with
      | true =>
          refine ⟨d.insert .addedDirs (pfx ++ name), by simp, ?_⟩
          refine (Gathers.insert d _ _).congr (fun k p => ?_)
          rw [hunder]
          cases k <;> simp [Placed, hdir]
      | false =>
          refine ⟨d.insert .addedFiles (pfx ++ name), by simp, ?_⟩
          refine (Gathers.insert d _ _).congr (fun k p => ?_)
          rw [hunder]
          cases k <;> simp [Placed, hdir]

/-- What stands at a path that belongs into a set is in one of the two directories. -/
theorem DiffAt.child {f t : RepoFile} {k : DiffSet} {name : String} {q : List String}
    (h : DiffAt o k f t (name :: q)) :
    (∃ g, f.childOf o name = some g) ∨ f.childOf o name = none ∧ ∃ g, t.childOf o name = some g := by
  cases hf : f.childOf o name with
  | some g => exact .inl ⟨g, rfl⟩
  | none =>
      refine .inr ⟨rfl, ?_⟩
      by_cases hq : q = []
      · subst hq
        have hplaced := diffAt_single.mp h
        rw [hf] at hplaced
        cases ht : t.childOf o name with
        | some g => exact ⟨g, rfl⟩
        | none =>
            rw [ht] at hplaced
            cases k <;> simp [Placed] at hplaced
      · obtain ⟨x, _, hx, _⟩ := (diffAt_cons hq).mp h
        exact absurd (hf.symm.trans hx) (by simp)

/-- **The walk collects what belongs into the sets**, for two stored directories of which the
    first has no subdirectory that is something else in the second. -/
theorem diffRecurse_run (hfrom : SoundTree o n a) (hto : SoundTree o n b)
    (hlost : NoDirLost o (.dir a x) (.dir b y)) (pfx : String) (d : FileTreeDiff) :
    ∃ d', diffRecurse o n pfx (.dir a x) (.dir b y) d = .ok ⟨⟩ d' ∧
      Gathers d (fun k p => ∃ q, p = pathText pfx q ∧ DiffAt o k (.dir a x) (.dir b y) q) d' := by
  induction n generalizing a x b y pfx d with
  | zero => exact absurd hfrom.depth id
  | succ n ih =>
      obtain ⟨fromChildren, hfromIter, hmem⟩ := enumerateChildren_dir hfrom x
      obtain ⟨toChildren, htoIter, hmem'⟩ := enumerateChildren_dir hto y
      obtain ⟨d₁, hrun₁, hd₁⟩ := Gathers.loop (diffFromChild o (diffRecurse o n) pfx (.dir b y))
        (fun child => DiffUnder o (.dir a x) (.dir b y) pfx child.1)
        (fun child hchild d => diffFromChild_run hfrom hto hlost
          (fun pfx c m c' m' hc hc' hl d => ih hc hc' hl pfx d) pfx
          ((hmem child.1 child.2).mp hchild) d) d
      obtain ⟨d₂, hrun₂, hd₂⟩ := Gathers.loop (diffToChild o pfx (.dir a x))
        (fun child k p => (RepoFile.dir a x).childOf o child.1 = none ∧
          DiffUnder o (.dir a x) (.dir b y) pfx child.1 k p)
        (fun child hchild d => diffToChild_run hfrom pfx ((hmem' child.1 child.2).mp hchild) d) d₁
      refine ⟨d₂, ?_, (hd₁.trans hd₂).congr (fun k p => ?_)⟩
      · rw [diffRecurse, hfromIter, bind_of_ok (liftR_ok _ _), bind_of_ok hrun₁, htoIter,
          bind_of_ok (liftR_ok _ _)]
        exact hrun₂
      · constructor
        · rintro (⟨child, _, q, hp, hq⟩ | ⟨child, _, _, q, hp, hq⟩)
          · exact ⟨child.1 :: q, hp, hq⟩
          · exact ⟨child.1 :: q, hp, hq⟩
        · rintro ⟨q, rfl, hq⟩
          cases q with
          | nil => exact absurd hq id
          | cons name q =>
              rcases hq.child with ⟨g, hg⟩ | ⟨hnone, g, hg⟩
              · exact .inl ⟨(name, g), (hmem name g).mpr hg, q, rfl, hq⟩
              · exact .inr ⟨(name, g), (hmem' name g).mpr hg, hnone, q, rfl, hq⟩

end Rounds

end OstreeExt
