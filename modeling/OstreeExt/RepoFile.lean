import OstreeExt.Tar.Listing

/-!
# Files of a commit

`ostree::RepoFile`: a file or directory inside a commit, with its children and its checksums.
The code compares commits through this interface, child by child; `resolve` is what stands at a
path.
-/

namespace OstreeExt

/-- A file or directory of a commit.  A directory has the checksums of its contents and of its
    metadata. -/
inductive RepoFile where
  | file (checksum : Checksum)
  | dir (contents dirmeta : Checksum)
  deriving DecidableEq

namespace RepoFile

/-- `file_type` is `Directory`. -/
def isDir : RepoFile → Bool
  | .dir _ _ => true
  | .file _ => false

/-- `tree_get_contents_checksum`; only directories have one. -/
def treeGetContentsChecksum : RepoFile → Option Checksum
  | .dir contents _ => some contents
  | .file _ => none

/-- `checksum` -/
def checksum : RepoFile → Checksum
  | .file c => c
  | .dir contents _ => contents

end RepoFile

/-- The entries of a directory, in the order of `enumerate_children`. -/
def DirTree.children (d : DirTree) : List (String × RepoFile) :=
  d.files.map (fun f => (f.1, .file f.2)) ++ d.dirs.map (fun s => (s.1, .dir s.2.1 s.2.2))

/-- The entry with a name. -/
def DirTree.child (d : DirTree) (name : String) : Option RepoFile :=
  (d.children.find? (·.1 = name)).map (·.2)

/-- The root of a commit. -/
def Commit.rootFile (commit : Commit) : RepoFile := .dir commit.contents commit.dirmeta

section Objects

variable (o : Objects)

/-- The directory behind a file, for `enumerate_children` and for resolving a child. -/
def RepoFile.load (f : RepoFile) : Result DirTree :=
  match f with
  | .dir contents _ => okOr ("No such metadata object " ++ contents ++ ".dirtree") o.dirtrees[contents]?
  | .file _ => .error (.err "Not a directory")

/-- `enumerate_children` -/
def RepoFile.enumerateChildren (f : RepoFile) : Result (List (String × RepoFile)) :=
  (f.load o).map DirTree.children

/-- `query_info_optional` of the child with a name. -/
def RepoFile.queryInfoOptional (f : RepoFile) (name : String) : Result (Option RepoFile) :=
  (f.load o).map (·.child name)

/-- The child with a name, if there is one. -/
def RepoFile.childOf (f : RepoFile) (name : String) : Option RepoFile :=
  match f with
  | .dir contents _ => o.dirtrees[contents]?.bind (·.child name)
  | .file _ => none

/-- **What stands at a path** below a file. -/
def RepoFile.resolve : RepoFile → List String → Option RepoFile
  | f, [] => some f
  | f, name :: path => (f.childOf o name).bind (resolve · path)

end Objects

-- ── Children ──────────────────────────────────────────────────────────────────

theorem DirTree.children_names (d : DirTree) :
    d.children.map (·.1) = d.files.map (·.1) ++ d.dirs.map (·.1) := by
  rw [children, List.map_append, List.map_map, List.map_map]
  rfl

/-- Where no name stands for two things, the children are what is found by name. -/
theorem DirTree.mem_children {d : DirTree} (h : Tar.UniqueNames d) {name : String} {f : RepoFile} :
    (name, f) ∈ d.children ↔ d.child name = some f := by
  have hnodup : (d.children.map (·.1)).Nodup := by
    rw [children_names]
    exact h
  rw [child]
  constructor
  · intro hmem
    cases hfind : d.children.find? (·.1 = name) with
    | none =>
        have hnone := List.find?_eq_none.mp hfind (name, f) hmem
        simp at hnone
    | some p =>
        have hp : p ∈ d.children := List.mem_of_find?_eq_some hfind
        have hname : p.1 = name := by simpa using List.find?_some hfind
        have heq : p = (name, f) := List.inj_on_of_nodup_map hnodup hp hmem hname
        rw [heq]
        rfl
  · intro hfind
    obtain ⟨p, hp, rfl⟩ := Option.map_eq_some_iff.mp hfind
    have hname : p.1 = name := by simpa using List.find?_some hp
    rw [← hname]
    exact List.mem_of_find?_eq_some hp

section Resolve

variable {o : Objects}

theorem RepoFile.resolve_nil (f : RepoFile) : f.resolve o [] = some f := by
  rw [resolve]

theorem RepoFile.resolve_cons (f : RepoFile) (name : String) (path : List String) :
    f.resolve o (name :: path) = (f.childOf o name).bind (·.resolve o path) := by
  rw [resolve]

/-- One name after a path. -/
theorem RepoFile.resolve_snoc (f : RepoFile) (path : List String) (name : String) :
    f.resolve o (path ++ [name]) = (f.resolve o path).bind (·.childOf o name) := by
  induction path generalizing f with
  | nil =>
      rw [List.nil_append, resolve_cons, resolve_nil, Option.bind_some]
      cases f.childOf o name with
      | none => rfl
      | some g => exact (resolve_nil g : g.resolve o [] = some g)
  | cons a path ih =>
      rw [List.cons_append, resolve_cons, resolve_cons, Option.bind_assoc]
      exact congrArg _ (funext fun g => ih g)

/-- Only the contents of a directory matter for what is below it. -/
theorem RepoFile.childOf_dir (contents dirmeta dirmeta' : Checksum) (name : String) :
    (RepoFile.dir contents dirmeta).childOf o name = (RepoFile.dir contents dirmeta').childOf o name :=
  rfl

/-- **A directory whose tree is stored** can be read: its children are what is found by name,
    and its subdirectories are stored as well. -/
theorem Tar.SoundTree.load {n : Nat} {c : Checksum} (h : Tar.SoundTree o (n + 1) c) (m : Checksum) :
    ∃ d, o.dirtrees[c]? = some d ∧ (RepoFile.dir c m).load o = .ok d ∧
      (∀ name f, (name, f) ∈ d.children ↔ (RepoFile.dir c m).childOf o name = some f) ∧
      (∀ name, d.child name = (RepoFile.dir c m).childOf o name) ∧
      ∀ name a x, (RepoFile.dir c m).childOf o name = some (.dir a x) →
        Tar.SoundTree o n a ∧ x ∈ o.dirmetas := by
  obtain ⟨d, hd⟩ := Std.ExtTreeMap.mem_iff_lookup.mp (h.stored .dirTree c (.self c))
  have hchild : ∀ name, d.child name = (RepoFile.dir c m).childOf o name := by
    intro name
    rw [RepoFile.childOf, hd]
    rfl
  have hmem : ∀ name f, (name, f) ∈ d.children ↔ (RepoFile.dir c m).childOf o name = some f := by
    intro name f
    rw [DirTree.mem_children (h.names c d (.self c) hd), hchild]
  refine ⟨d, hd, ?_, hmem, hchild, ?_⟩
  · rw [RepoFile.load, hd]
    rfl
  · intro name a x ha
    rcases List.mem_append.mp ((hmem name _).mpr ha) with hf | hs
    · obtain ⟨f, _, heq⟩ := List.mem_map.mp hf
      exact absurd (congrArg Prod.snd heq) (by simp)
    · obtain ⟨s, hsub, heq⟩ := List.mem_map.mp hs
      injection heq with _ heq
      injection heq with ha hx
      subst ha hx
      exact ⟨⟨fun ty y hy => h.stored ty y (.sub hd hsub hy), h.depth d hd s hsub,
        fun t d' ht => h.names t d' (.sub hd hsub ht)⟩, h.stored .dirMeta _ (.dirmeta hd hsub)⟩

end Resolve

end OstreeExt
