import OstreeExt.Tar.Import
import OstreeExt.Chunking

/-!
# Exporting commits and chunks

The tar writer of `tar/export.rs`.  It walks over a commit and emits every object once,
each directory, and a hard link for every file at its place in the checkout.  Four sets
remember what was already emitted.
-/

namespace OstreeExt.Tar

open OstreeExt

/-- `OstreeTarWriter`: the output so far and what was written. -/
structure TarWriter where
  out : List Entry := []
  wroteInitdirs : Bool := false
  structureOnly : Bool := false
  wroteVartmp : Bool := false
  wroteDirtree : Finset Checksum := ∅
  wroteDirmeta : Finset Checksum := ∅
  wroteContent : Finset Checksum := ∅
  wroteXattrs : Finset Checksum := ∅

/-- Programs over the writer. -/
abbrev ExportM := EStateM Stop TarWriter

/-- A header under construction; `size` is `none` until it is set. -/
structure HeaderBuf where
  entryType : EntryType := .regular
  uid : Nat
  gid : Nat
  mode : UInt32
  size : Option Nat := none

/-- `TAR_PATH_PREFIX_V0` -/
def tarPathPrefixV0 : Path := [.curDir]

/-- `REPO_CONFIG` -/
def repoConfig : String := "[core]\nrepo_version=1\nmode=bare-split-xattrs\n"

/-- `map_path`: convert `/usr/etc` back to `/etc`. -/
def mapPath (p : Path) : Path :=
  match stripPrefix [.curDir, .normal "usr", .normal "etc"] p with
  | some r => [.curDir, .normal "etc"] ++ r
  | none => p

/-- `map_path_v1` -/
def mapPathV1 (p : Path) : Path :=
  match stripPrefix [.normal "usr", .normal "etc"] p with
  | some r => .normal "etc" :: r
  | none => p

/-- `path_for_tar_v1` -/
def pathForTarV1 (p : Path) : Path :=
  mapPathV1 ((stripPrefix [.rootDir] p).getD p)

/-- The text contains `//`. -/
def hasDoubleSlash : List Char → Bool
  | '/' :: '/' :: _ => true
  | _ :: s => hasDoubleSlash s
  | [] => false

/-- `symlink_is_denormal` -/
def symlinkIsDenormal (target : String) : Bool := hasDoubleSlash target.toList

/-- `filter_mode` -/
def filterMode (mode : UInt32) : UInt32 := mode &&& ~~~ sIfmt

/-- One entry is added to the output. -/
def emit (e : Entry) : ExportM Unit :=
  modify fun w => { w with out := w.out ++ [e] }

/-- A header owned by root. -/
def defaultHeader (ty : EntryType) (mode : UInt32) (size : Nat) : Header :=
  { entryType := ty, uid := 0, gid := 0, mode, size }

/-- `append_default_dir` -/
def appendDefaultDir (path : Path) : ExportM Unit :=
  emit { path := tarPath path, header := defaultHeader .directory 0o755 0 }

/-- `tar_append_default_data` and `append_default_data` -/
def appendDefaultData (path : Path) (buf : Bytes) : ExportM Unit :=
  emit { path := tarPath path, header := defaultHeader .regular 0o644 buf.length, data := buf }

/-- `append_default_hardlink` -/
def appendDefaultHardlink (path linkTarget : Path) : ExportM Unit :=
  emit { path := tarPath path, header := defaultHeader .link 0o644 0,
         linkName := some linkTarget.render }

/-- A lower-case hex digit. -/
def hexDigit (n : Nat) : Char :=
  if n < 10 then Char.ofNat (48 + n) else Char.ofNat (87 + n)

/-- `{:02x}` -/
def hexByte (n : Nat) : String := String.ofList [hexDigit (n / 16), hexDigit (n % 16)]

/-- The directories that `write_repo_structure` adds: the parents of `objects`, one
    directory for each first byte of a checksum, and the standard subdirectories. -/
def repoStructureDirs : List Path :=
  (List.range 4).map (fun i => objectsDir.take (i + 1))
  ++ (List.range 256).map (fun d => objectsDir ++ [.normal (hexByte d)])
  ++ [["extensions"], ["refs"], ["refs", "heads"], ["refs", "mirrors"], ["refs", "remotes"],
      ["state"], ["tmp"], ["tmp", "cache"]].map (fun d => repoPrefix ++ d.map Component.normal)

/-- `write_repo_structure` -/
def writeRepoStructure : ExportM Unit := do
  if (← get).wroteInitdirs then pure ()
  else
    forM repoStructureDirs appendDefaultDir
    appendDefaultData (repoPrefix ++ [.normal "config"]) repoConfig.toUTF8.toList
    modify fun w => { w with wroteInitdirs := true }

/-- `append_dir` -/
def appendDir (dirpath : Path) (m : DirMeta) : ExportM Unit :=
  emit { path := tarPath dirpath,
         header := { entryType := .directory, uid := m.uid.toNat, gid := m.gid.toNat,
                     mode := filterMode m.mode, size := 0 } }

/-- `append_standard_var`: generate `/var/tmp`, unless the commit has it. -/
def appendStandardVar : ExportM Unit := do
  if (← get).wroteVartmp then pure ()
  else
    emit { path := [.normal "var", .normal "tmp"],
           header := { entryType := .directory, uid := 0, gid := 0,
                       mode := filterMode (sIfdir ||| 0o1777), size := 0 } }

/-- `append` of a commit or commitmeta object, which are written unconditionally. -/
def appendCommitObj (objtype : ObjectType) (checksum : Checksum) (data : Bytes) :
    ExportM Unit :=
  appendDefaultData (objectPath objtype checksum) data

/-- `append` of a dirtree object. -/
def appendDirtreeObj (checksum : Checksum) (data : Bytes) : ExportM Unit := do
  if checksum ∈ (← get).wroteDirtree then pure ()
  else
    modify fun w => { w with wroteDirtree := insert checksum w.wroteDirtree }
    appendDefaultData (objectPath .dirTree checksum) data

/-- `append` of a dirmeta object. -/
def appendDirmetaObj (checksum : Checksum) (data : Bytes) : ExportM Unit := do
  if checksum ∈ (← get).wroteDirmeta then pure ()
  else
    modify fun w => { w with wroteDirmeta := insert checksum w.wroteDirmeta }
    appendDefaultData (objectPath .dirMeta checksum) data

section Writer

variable (lib : Libostree) (tar : TarCrate) (repo : Repo)

/-- The xattrs content, written once per distinct value. -/
def appendXattrsContent (xattrsChecksum : Checksum) (xattrs : Bytes) : ExportM Unit := do
  if xattrsChecksum ∈ (← get).wroteXattrs then pure ()
  else
    modify fun w => { w with wroteXattrs := insert xattrsChecksum w.wroteXattrs }
    appendDefaultData (v1XattrsObjectPath xattrsChecksum) xattrs

/-- `append_xattrs`: the content, and the link from the file object to it. -/
def appendXattrs (checksum : Checksum) (xattrs : Bytes) : ExportM Unit := do
  let xattrsChecksum := lib.sha256 xattrs
  appendXattrsContent xattrsChecksum xattrs
  appendDefaultHardlink (v1XattrsLinkObjectPath checksum) (v1XattrsObjectPath xattrsChecksum)

/-- The header that `append_content` starts from: the size is set for regular files
    only. -/
def contentHeader : FileObject → HeaderBuf
  | .regular uid gid mode _ content =>
      { uid := uid.toNat, gid := gid.toNat, mode := filterMode mode,
        size := some content.length }
  | .symlink uid gid _ _ =>
      { uid := uid.toNat, gid := gid.toNat, mode := filterMode 0o120777 }

/-- The entry that `append_content` writes for an object. -/
def contentEntry (checksum : Checksum) : FileObject → Entry
  | .regular uid gid mode _ content =>
      { path := tarPath (objectPath .file checksum),
        header := { entryType := .regular, uid := uid.toNat, gid := gid.toNat,
                    mode := filterMode mode, size := content.length },
        data := content }
  | .symlink uid gid _ target =>
      { path := tarPath (objectPath .file checksum),
        header := { entryType := .symlink, uid := uid.toNat, gid := gid.toNat,
                    mode := filterMode 0o120777, size := 0 },
        linkName := some (if symlinkIsDenormal target then target else tar.linkName target) }

/-- The header after the object was written: the entry type and, for a symbolic link, the
    size are now set. -/
def writtenHeader (o : FileObject) : HeaderBuf :=
  match o with
  | .regular .. => contentHeader o
  | .symlink .. => { contentHeader o with entryType := .symlink, size := some 0 }

/-- `append_content`: write a content object if it is new; returns the path and header for
    a hard link to it. -/
def appendContent (checksum : Checksum) : ExportM (Path × HeaderBuf) := do
  let o ← liftR (repo.loadFile checksum)
  let path := objectPath .file checksum
  if checksum ∈ (← get).wroteContent then pure (path, contentHeader o)
  else
    modify fun w => { w with wroteContent := insert checksum w.wroteContent }
    -- the xattrs must be in the stream before the object they belong to
    appendXattrs lib checksum o.xattrs
    emit (contentEntry tar checksum o)
    pure (path, writtenHeader o)

/-- `Header::size` -/
def HeaderBuf.querySize (h : HeaderBuf) : Result Nat :=
  match h.size with
  | some n => .ok n
  | none => tar.unsetSize

/-- The entry for a file in the checkout: no hard link to an empty file, but another empty
    file. -/
def hardlinkEntry (srcpath : Path) (h : HeaderBuf) (size : Nat) (dest : Path) : Entry :=
  if h.entryType = .regular ∧ size = 0 then
    { path := tarPath dest,
      header := { entryType := .regular, uid := h.uid, gid := h.gid, mode := h.mode, size := 0 } }
  else
    { path := tarPath dest,
      header := { entryType := .link, uid := h.uid, gid := h.gid, mode := h.mode, size := 0 },
      linkName := some srcpath.render }

/-- `append_content_hardlink` -/
def appendContentHardlink (srcpath : Path) (h : HeaderBuf) (dest : Path) : ExportM Unit := do
  let size ← liftR (h.querySize tar)
  emit (hardlinkEntry srcpath h size dest)

/-- The files of a directory: object and hard link. -/
def appendFile (dirpath : Path) (file : String × Checksum) : ExportM Unit := do
  let (objpath, h) ← appendContent lib tar repo file.2
  appendContentHardlink tar objpath h (mapPath (dirpath.join file.1))

/-- The loop over the files of a dirtree. -/
def appendFiles (dirpath : Path) (files : List (String × Checksum)) : ExportM Unit := do
  if (← get).structureOnly then pure ()
  else forM files (appendFile lib tar repo dirpath)

/-- Record if the commit includes `/var/tmp`. -/
def noteVartmp (dirpath : Path) : ExportM Unit :=
  if dirpath = [.normal "var", .normal "tmp"] then
    modify fun w => { w with wroteVartmp := true }
  else pure ()

/-- `append_dirtree`; `fuel` bounds the depth of the tree. -/
def appendDirtree : Nat → Path → Checksum → Bool → ExportM Unit
  | 0, _, _, _ => throw .fuel
  | fuel + 1, dirpath, checksum, isRoot => do
      let v ← liftR (repo.loadDirtree checksum)
      appendDirtreeObj checksum (lib.dirtree.toBytes v)
      appendFiles lib tar repo dirpath v.files
      noteVartmp dirpath
      forM v.dirs fun item => do
        let m ← liftR (repo.loadDirmeta item.2.2)
        appendDirmetaObj item.2.2 (lib.dirmeta.toBytes m)
        -- a tar stream for containers can't have duplicates
        if isRoot ∧ item.1 = "sysroot" then pure ()
        else
          appendDir (mapPath (dirpath.join item.1)) m
          appendDirtree fuel (mapPath (dirpath.join item.1)) item.2.1 false

/-- The detached metadata, if the repository has any. -/
def appendDetachedMetadata (commitChecksum : Checksum) : ExportM Unit :=
  match repo.commitmetas[commitChecksum]? with
  | some commitmeta => appendCommitObj .commitMeta commitChecksum (lib.dict.toBytes commitmeta)
  | none => pure ()

/-- `append_commit_object` -/
def appendCommitObject (commitChecksum : Checksum) (commitObject : Commit) : ExportM Unit := do
  appendCommitObj .commit commitChecksum (lib.commit.toBytes commitObject)
  appendDetachedMetadata lib repo commitChecksum

/-- `write_commit` -/
def writeCommit (fuel : Nat) (commitChecksum : Checksum) (commitObject : Commit) :
    ExportM Unit := do
  let m ← liftR (repo.loadDirmeta commitObject.dirmeta)
  appendDir tarPathPrefixV0 m
  writeRepoStructure
  appendCommitObject lib repo commitChecksum commitObject
  appendDirmetaObj commitObject.dirmeta (lib.dirmeta.toBytes m)
  appendDirtree lib tar repo fuel tarPathPrefixV0 commitObject.contents true
  appendStandardVar

/-- `write_chunk` -/
def writeChunk (chunk : ChunkMapping) : ExportM Unit :=
  forM chunk.toList fun item => do
    let (objpath, h) ← appendContent lib tar repo item.1
    forM item.2.2 fun path => appendContentHardlink tar objpath h (pathForTarV1 path)

/-- Set the writer's mode. -/
def setStructureOnly (b : Bool) : ExportM Unit :=
  modify fun w => { w with structureOnly := b }

/-- The entries that a program of the writer leaves in a new archive. -/
def runWriter (x : ExportM Unit) : Result (List Entry) :=
  match x {} with
  | .ok _ w => .ok w.out
  | .error e _ => .error e

/-- `export_commit` and `impl_export` -/
def exportCommit (fuel : Nat) (rev : String) : Result (List Entry) := do
  let commit ← repo.requireRev rev
  let commitObject ← repo.loadCommit commit
  runWriter (writeCommit lib tar repo fuel commit commitObject)

/-- `export_chunk` -/
def exportChunk (commit : Checksum) (chunk : ChunkMapping) : Result (List Entry) := do
  let _ ← repo.loadCommit commit
  runWriter do
    writeRepoStructure
    writeChunk lib tar repo chunk

/-- `export_final_chunk` -/
def exportFinalChunk (fuel : Nat) (commitChecksum : Checksum) (remainder : Chunk) :
    Result (List Entry) := do
  let commitObject ← repo.loadCommit commitChecksum
  runWriter do
    setStructureOnly true
    writeCommit lib tar repo fuel commitChecksum commitObject
    setStructureOnly false
    writeChunk lib tar repo remainder.content

end Writer

end OstreeExt.Tar
