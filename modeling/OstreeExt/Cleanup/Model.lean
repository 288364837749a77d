import OstreeExt.Lib.FileTree
import OstreeExt.Lib.Removal
import OstreeExt.Prelude

/-!
# Cleaning a root file system before it is committed (`commit.rs`, `mountutil.rs`)

At the end of a container build the contents of `run`, `tmp`, `var/tmp` and `var/cache` are removed,
except for what is mounted there.  The root is a tree of entries that carry what the code asks
about them: their kind, their device, and whether they are the root of a mount.

* **`Host`** — what the code learns from the operating system and the `cap_std` crate beyond the
  tree;
* **`removeAllOnMountRecurse`**, **`cleanSubdir`**, **`cleanPathsIn`**,
  **`prepareOstreeCommitIn`** — the functions of `commit.rs`.

A path is the list of its components.  An open directory is the path it was opened at: nothing is
renamed while the code runs.
-/

namespace OstreeExt.Cleanup

-- ── Entries and trees ─────────────────────────────────────────────────────────

/-- What an entry is. -/
inductive Kind where
  | directory
  | regular (contents : Bytes)
  | symlink (target : String)
  | special
  deriving DecidableEq

/-- An entry of the root file system.  `dev` is the device that a `stat` of its path reports, and
    `mountRoot` says whether something is mounted at it, from any device. -/
structure Entry where
  kind : Kind
  dev : Nat
  mountRoot : Bool
  deriving DecidableEq

/-- `metadata.is_dir()`. -/
def Entry.isDir (e : Entry) : Bool := e.kind == .directory

/-- Whether the entry is a symbolic link. -/
def Entry.isSymlink (e : Entry) : Bool :=
  match e.kind with
  | .symlink _ => true
  | _ => false

/-- A root file system. -/
abbrev Tree := FileTree Entry Entry.isDir

/-- The entries of a tree under their paths. -/
abbrev View := List String → Option Entry

/-- Something that can be opened as a directory: the root, or an entry that is one. -/
def View.IsDirAt (L : View) (p : List String) : Prop :=
  p = [] ∨ ∃ e, L p = some e ∧ e.isDir = true

-- ── The host ──────────────────────────────────────────────────────────────────

/-- What comes from outside the crate.

    `follow` is how `cap_std` goes on opening a path at a component that is no directory, with
    the components that are left: a symbolic link is resolved inside the root, with an error when
    it leads out of it, and anything else is an error.  `statx` says whether the kernel reports
    `STATX_ATTR_MOUNT_ROOT`, and `refuses` which removals fail although they are in order. -/
structure Host where
  rootDev : Nat
  follow : View → List String → List String → Result (Option (List String))
  statx : Bool
  refuses : View → List String → Option String
  follow_isDir : ∀ L p rest d, follow L p rest = .ok (some d) → L.IsDirAt d
  follow_error : ∀ L p rest e, L p = some e → e.isSymlink = false →
    ∃ msg, follow L p rest = .error (.err msg)

/-- Opening a path: what is absent is no error, and directories are passed by their name. -/
def Host.openAt (host : Host) (L : View) : List String → List String →
    Result (Option (List String))
  | dir, [] => .ok (some dir)
  | dir, name :: rest =>
      match L (dir ++ [name]) with
      | none => .ok none
      | some e =>
          if e.isDir then host.openAt L (dir ++ [name]) rest
          else host.follow L (dir ++ [name]) rest

/-- `root.open_dir_optional(path)`. -/
def openDirOptional (host : Host) (path : List String) :
    EStateM Stop Tree (Option (List String)) := do
  let t ← get
  liftR (host.openAt t.lookup [] path)

/-- The entry at a path, as `DirEntry::metadata` reports it: links are not followed. -/
def metadata (path : List String) : EStateM Stop Tree Entry := do
  let t ← get
  liftR (okOr "No such file or directory" (t.lookup path))

/-- The names in an open directory. -/
def entries (dir : List String) : EStateM Stop Tree (List String) := do
  let t ← get
  return t.readDir dir

/-- `root.read_dir(path)`. -/
def readDir (path : List String) : EStateM Stop Tree (List String) := do
  let entry ← metadata path
  if !entry.isDir then
    throw (.err "Not a directory")
  entries path

/-- `mountutil::is_mountpoint`: nothing is known where the kernel does not report it. -/
def isMountpoint (host : Host) (entry : Entry) : Option Bool :=
  if host.statx then some entry.mountRoot else none

/-- Take out an entry, unless the host refuses. -/
def unlink (host : Host) (path : List String) : EStateM Stop Tree PUnit := do
  let t ← get
  match host.refuses t.lookup path with
  | some msg => throw (.err msg)
  | none => modify (fun t => t.remove path)

/-- `root.remove_file(path)`. -/
def removeFile (host : Host) (path : List String) : EStateM Stop Tree PUnit := do
  let entry ← metadata path
  if entry.isDir then
    throw (.err "Is a directory")
  unlink host path

/-- `root.remove_dir(path)`. -/
def removeDir (host : Host) (path : List String) : EStateM Stop Tree PUnit := do
  let names ← readDir path
  if !names.isEmpty then
    throw (.err "Directory not empty")
  unlink host path

-- ── `commit.rs` ───────────────────────────────────────────────────────────────

/-- `FORCE_CLEAN_PATHS`. -/
def forceCleanPaths : List (List String) := [["run"], ["tmp"], ["var", "tmp"], ["var", "cache"]]

/-- One round of the loop of `remove_all_on_mount_recurse`, over the function itself.  The result is
    the flag that the loop carries. -/
def removeAllRound (host : Host) (rootdev : Nat) (recurse : List String → EStateM Stop Tree Bool)
    (path : List String) (skipped : Bool) (name : String) : EStateM Stop Tree Bool := do
  let metadata ← metadata (path ++ [name])
  if metadata.dev ≠ rootdev then
    return true
  if metadata.isDir then
    let below ← recurse (path ++ [name])
    return skipped || below
  else
    removeFile host (path ++ [name])
    return skipped

/-- `remove_all_on_mount_recurse`: remove a directory with all in it, but skip what is on another
    device, and keep the directories above that.  The result says whether anything was skipped. -/
def removeAllOnMountRecurse (host : Host) (rootdev : Nat) :
    Nat → List String → EStateM Stop Tree Bool
  | 0, _ => throw .fuel
  | fuel + 1, path => do
      let names ← readDir path
      let skipped ← names.foldlM
        (removeAllRound host rootdev (removeAllOnMountRecurse host rootdev fuel) path) false
      if !skipped then
        removeDir host path
      return skipped

/-- One round of the loop of `clean_subdir`: here a mount point is skipped, too, where the kernel
    tells.  No recursion goes deeper than the tree. -/
def cleanSubdirRound (host : Host) (rootdev : Nat) (root : List String) (name : String) :
    EStateM Stop Tree PUnit := do
  let metadata ← metadata (root ++ [name])
  -- other file systems: podman injects /run/.containerenv
  if metadata.dev ≠ rootdev then
    return
  if (isMountpoint host metadata).getD false then
    return
  if metadata.isDir then
    let t ← get
    let _ ← removeAllOnMountRecurse host rootdev (t.depth + 1) (root ++ [name])
  else
    removeFile host (root ++ [name])

/-- `clean_subdir`. -/
def cleanSubdir (host : Host) (rootdev : Nat) (root : List String) :
    EStateM Stop Tree PUnit := do
  let names ← entries root
  forM names (cleanSubdirRound host rootdev root)

/-- One round of `clean_paths_in`. -/
def cleanPath (host : Host) (rootdev : Nat) (path : List String) : EStateM Stop Tree PUnit := do
  match ← openDirOptional host path with
  | some subdir => cleanSubdir host rootdev subdir
  | none => return

/-- `clean_paths_in`. -/
def cleanPathsIn (host : Host) (rootdev : Nat) : EStateM Stop Tree PUnit :=
  forM forceCleanPaths (cleanPath host rootdev)

/-- `prepare_ostree_commit_in`. -/
def prepareOstreeCommitIn (host : Host) : EStateM Stop Tree PUnit :=
  cleanPathsIn host host.rootDev

end OstreeExt.Cleanup
