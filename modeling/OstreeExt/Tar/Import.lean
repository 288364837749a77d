import OstreeExt.Tar.Entry
import Std.Data.ExtTreeSet

/-!
# Importing tar streams

The importer machine of `tar/import.rs`.  It walks over the object files of a stream
and writes them to a repository: a whole commit (`importCommit`), or a set of content
objects (`importObjects`).  Content objects are announced by an xattrs reference that
names the file and the xattrs to give it; the reference waits in `nextXattrs`.

The statistics counters and the read buffer have no influence on the result and are
left out.
-/

namespace OstreeExt.Tar

open OstreeExt Std

/-- `MAX_XATTR_SIZE` -/
def maxXattrSize : Nat := 1024 * 1024

/-- `MAX_METADATA_SIZE` -/
def maxMetadataSize : Nat := 10 * 1024 * 1024

/-- `SMALL_REGFILE_SIZE` -/
def smallRegfileSize : Nat := 127 * 1024

/-- `libc::S_IFMT` -/
def sIfmt : UInt32 := 0o170000

/-- `libc::S_IFREG` -/
def sIfreg : UInt32 := 0o100000

/-- `libc::S_IFDIR` -/
def sIfdir : UInt32 := 0o040000

/-- `ImporterMode` -/
inductive ImporterMode where
  | commit (c : Option Checksum)
  | objectSet (imported : ExtTreeSet Checksum)

/-- The importer machine. -/
structure Importer where
  repo : Repo
  remote : Option String
  /-- Cache of xattrs, keyed by their content checksum. -/
  xattrs : ExtTreeMap Checksum Bytes := ∅
  /-- The pending xattrs reference: file checksum and xattrs checksum. -/
  nextXattrs : Option (Checksum × Checksum) := none
  data : ImporterMode

/-- Programs over the importer. -/
abbrev ImportM := EStateM Stop Importer

/-- `Importer::new_for_commit` -/
def Importer.newForCommit (remote : Option String) (repo : Repo) : Importer :=
  { repo, remote, data := .commit none }

/-- `Importer::new_for_object_set` -/
def Importer.newForObjectSet (repo : Repo) : Importer :=
  { repo, remote := none, data := .objectSet ∅ }

/-- A repository operation of the importer. -/
def onRepo {α : Type} (x : RepoM α) : ImportM α := fun imp =>
  match x imp.repo with
  | .ok a r => .ok a { imp with repo := r }
  | .error e r => .error e { imp with repo := r }

/-- `assert_eq!` on checksums. -/
def assertEq (a b : Checksum) : ImportM Unit :=
  if a = b then pure () else throw (.panic "assertion `left == right` failed")

/-- `validate_metadata_header` -/
def validateMetadataHeader (header : Header) (desc : String) : Result Nat :=
  if header.entryType ≠ .regular then
    .error (.err ("Invalid non-regular metadata object " ++ desc))
  else if header.size > maxMetadataSize then
    .error (.err ("object of size " ++ toString header.size ++ " exceeds "
      ++ toString maxMetadataSize ++ " bytes"))
  else .ok header.size

/-- `header_attrs` -/
def headerAttrs (header : Header) : Result (UInt32 × UInt32 × UInt32) :=
  if 2 ^ 32 ≤ header.uid then .error (.err "out of range integral type conversion attempted")
  else if 2 ^ 32 ≤ header.gid then
    .error (.err "out of range integral type conversion attempted")
  else .ok (UInt32.ofNat header.uid, UInt32.ofNat header.gid, header.mode)

/-- `entry_to_variant` -/
def entryToVariant {α : Type} (codec : Codec α) (entry : Entry) (desc : String) :
    Result α := do
  let size ← validateMetadataHeader entry.header desc
  if entry.data.length ≠ size then
    .error (.panic "assertion `left == right` failed")
  else .ok (codec.ofBytes entry.data)

/-- `read_exact` into a buffer of `n` bytes. -/
def readExact (entry : Entry) (n : Nat) : Result Bytes :=
  if entry.data.length < n then .error (.err "failed to fill whole buffer")
  else .ok (entry.data.take n)

/-- `Importer::filter_entry`: object files below `sysroot/ostree/repo`. -/
def filterEntry (e : Entry) : Option (Entry × Path) :=
  if e.header.entryType = .directory then none
  else
    match stripPrefix repoPrefix e.path with
    | none => none
    | some path =>
        if Path.fileName path = some "config" ∨ path.head? = some (.normal "refs") then none
        else some (e, path)

/-- The iterator that both import functions build over an archive. -/
def filterEntries (s : Stream) : List (Except String (Entry × Path)) :=
  s.filterMap fun
    | .ok e => (filterEntry e).map Except.ok
    | .error m => some (.error m)

section Objects

variable (lib : Libostree)

/-- `Importer::import_metadata` -/
def importMetadata (entry : Entry) (checksum : Checksum) (objtype : ObjectType) :
    ImportM Unit :=
  match objtype with
  | .dirTree => do
      let v ← liftR (entryToVariant lib.dirtree entry checksum)
      let actual ← onRepo (Repo.writeDirtree lib (some checksum) v)
      assertEq actual checksum
  | .dirMeta => do
      let v ← liftR (entryToVariant lib.dirmeta entry checksum)
      let actual ← onRepo (Repo.writeDirmeta lib (some checksum) v)
      assertEq actual checksum
  | o => throw (.err ("Invalid metadata object type; " ++ objectSuffix o))

/-- `Importer::import_large_regfile_object` -/
def importLargeRegfileObject (entry : Entry) (checksum : Checksum) (xattrs : Bytes) :
    ImportM Unit := do
  let (uid, gid, mode) ← liftR (headerAttrs entry.header)
  let _ ← onRepo (Repo.writeFile lib (some checksum)
    (.regular uid gid (sIfreg ||| mode) xattrs entry.data))

/-- `Importer::import_small_regfile_object` -/
def importSmallRegfileObject (entry : Entry) (size : Nat) (checksum : Checksum)
    (xattrs : Bytes) : ImportM Unit := do
  let (uid, gid, mode) ← liftR (headerAttrs entry.header)
  if size > smallRegfileSize then
    throw (.panic "assertion failed: size <= SMALL_REGFILE_SIZE")
  else
    let buf ← liftR (readExact entry size)
    let _ ← onRepo (Repo.writeFile lib (some checksum)
      (.regular uid gid (sIfreg ||| mode) xattrs buf))

/-- `Importer::import_symlink_object` -/
def importSymlinkObject (entry : Entry) (checksum : Checksum) (xattrs : Bytes) :
    ImportM Unit := do
  let (uid, gid, _) ← liftR (headerAttrs entry.header)
  let target ← liftR (okOr "Invalid symlink" entry.linkName)
  let _ ← onRepo (Repo.writeFile lib (some checksum) (.symlink uid gid xattrs target))

/-- `Importer::import_content_object` -/
def importContentObject (entry : Entry) (checksum : Checksum) : ImportM Unit := do
  let imp ← get
  let size := entry.header.size
  -- pop the queued xattrs reference
  set { imp with nextXattrs := none }
  match imp.nextXattrs with
  | none => throw (.err "Missing xattrs reference")
  | some (fileCsum, xattrsCsum) =>
      if checksum ≠ fileCsum then
        throw (.err ("Object mismatch, found xattrs for " ++ fileCsum))
      else if imp.repo.files.contains checksum then pure ()
      else
        match imp.xattrs[xattrsCsum]? with
        | none => throw (.err ("Failed to find xattrs content " ++ xattrsCsum))
        | some xattrs =>
            match entry.header.entryType with
            | .regular =>
                if size > smallRegfileSize then
                  importLargeRegfileObject lib entry checksum xattrs
                else importSmallRegfileObject lib entry size checksum xattrs
            | .symlink => importSymlinkObject lib entry checksum xattrs
            | _ => throw (.err "Invalid tar entry of type")

/-- `Importer::cache_xattrs_content` -/
def cacheXattrsContent (entry : Entry) (expectedChecksum : Option Checksum) :
    ImportM Checksum :=
  if entry.header.entryType ≠ .regular then throw (.err "Invalid xattr entry of type")
  else
    let n := entry.header.size
    if n > maxXattrSize then throw (.err ("Invalid xattr size " ++ toString n))
    else do
      let contents ← liftR (readExact entry n)
      let xattrsChecksum := lib.sha256 contents
      if expectedChecksum.any (· ≠ xattrsChecksum) then
        throw (.err ("Checksum mismatch, expected '" ++ expectedChecksum.getD ""
          ++ "' but computed '" ++ xattrsChecksum ++ "'"))
      else
        modify fun imp => { imp with xattrs := imp.xattrs.insert xattrsChecksum contents }
        pure xattrsChecksum

/-- `Importer::process_file_xattrs` -/
def processFileXattrs (entry : Entry) (checksum : Checksum) : ImportM Unit := do
  let _ ← cacheXattrsContent lib entry (some checksum)

/-- The check at the head of both kinds of xattrs references. -/
def ensureNoPendingXattrs : ImportM Unit := do
  match (← get).nextXattrs with
  | some prev =>
      throw (.err ("Found previous dangling xattrs for file object '" ++ prev.1 ++ "'"))
  | none => pure ()

/-- `Importer::process_file_xattrs_link` -/
def processFileXattrsLink (entry : Entry) (checksum : Checksum) : ImportM Unit := do
  ensureNoPendingXattrs
  let xattrsChecksum ←
    match entry.header.entryType with
    | .link => do
        let linkTarget ← liftR (okOr ("No xattrs link content for " ++ checksum) entry.linkName)
        liftR (parseXattrsLinkTarget (Path.parse linkTarget))
    | .regular => cacheXattrsContent lib entry none
    | _ => throw (.err ("Unexpected xattrs type found for " ++ checksum))
  modify fun imp => { imp with nextXattrs := some (checksum, xattrsChecksum) }

/-- `Importer::process_xattr_ref` -/
def processXattrRef (entry : Entry) (target : Checksum) : ImportM Unit := do
  ensureNoPendingXattrs
  if entry.header.entryType ≠ .link then
    throw (.err ("Non-hardlink xattrs reference found for " ++ target))
  else
    let xattrTarget ← liftR (okOr ("No xattrs link content for " ++ target) entry.linkName)
    let xattrTarget ← liftR (okOr ("Invalid xattrs link " ++ target)
      (Path.parse xattrTarget).fileName)
    let xattrsChecksum ← liftR (validateSha256 xattrTarget)
    modify fun imp => { imp with nextXattrs := some (target, xattrsChecksum) }

/-- `Importer::process_split_xattrs_content` -/
def processSplitXattrsContent (entry : Entry) : ImportM Unit := do
  let name ← liftR (okOr "Invalid xattrs dir" entry.path.fileName)
  let checksum ← liftR (validateSha256 name)
  let _ ← cacheXattrsContent lib entry (some checksum)

/-- The bookkeeping after a content object: an object set holds each object once. -/
def trackImported (checksum : Checksum) : ImportM Unit := do
  match (← get).data with
  | .objectSet imported =>
      modify fun imp => { imp with data := .objectSet (imported.insert checksum) }
      if imported.contains checksum then throw (.err ("Duplicate object: " ++ checksum))
      else pure ()
  | .commit _ => pure ()

/-- The second half of `Importer::import_object`: what to do with an entry by its suffix. -/
def importObjectAs (entry : Entry) (checksum : Checksum) (suffix : String) : ImportM Unit :=
  if suffix = "commit" then throw (.err "Found multiple commit objects")
  else if suffix = "file" then do
    importContentObject lib entry checksum
    trackImported checksum
  else if suffix = "file-xattrs" then processFileXattrs lib entry checksum
  else if suffix = "file-xattrs-link" then processFileXattrsLink lib entry checksum
  else if suffix = "xattrs" then processXattrRef entry checksum
  else do
    let objtype ← liftR (okOr ("Invalid object type " ++ suffix) (objtypeFromString suffix))
    match (← get).data with
    | .objectSet _ =>
        throw (.err ("Found metadata object " ++ checksum ++ "." ++ suffix
          ++ " in object set mode"))
    | .commit _ => importMetadata lib entry checksum objtype

/-- `Importer::import_object` -/
def importObject (entry : Entry) (path : Path) : ImportM Unit := do
  let (parentname, name, suffix) ← liftR (parseObjectEntryPath path)
  let checksum ← liftR (parseChecksum parentname name)
  importObjectAs lib entry checksum suffix

/-- One round of the loop of `import_objects_impl`. -/
def importEntry (item : Except String (Entry × Path)) : ImportM Unit :=
  match item with
  | .error m => throw (.err m)
  | .ok (entry, path) =>
      match stripPrefix [Component.normal "objects"] path with
      | some p => importObject lib entry p
      | none =>
          if (stripPrefix [Component.normal "xattrs"] path).isSome then
            processSplitXattrsContent lib entry
          else pure ()

/-- `Importer::import_objects_impl` -/
def importObjectsImpl (ents : List (Except String (Entry × Path))) : ImportM Unit :=
  forM ents (importEntry lib)

/-- `Importer::import_objects` -/
def importObjects (archive : Stream) : ImportM Unit :=
  importObjectsImpl lib (filterEntries archive)

/-- The next item of the iterator, which must be there and readable. -/
def nextEntry (msg : String) (ents : List (Except String (Entry × Path))) :
    Result ((Entry × Path) × List (Except String (Entry × Path))) :=
  match ents with
  | [] => .error (.err msg)
  | .error m :: _ => .error (.err m)
  | .ok e :: rest => .ok (e, rest)

/-- Write the commit object, marked as partial until its other objects have arrived. -/
def writePartialCommit (checksum : Checksum) (commit : Commit) : ImportM Unit := do
  onRepo (Repo.markCommitPartial checksum true)
  let actualChecksum ← onRepo (Repo.writeCommit lib (some checksum) commit)
  assertEq actualChecksum checksum

/-- The branch of `import_commit` with a remote: the commitmeta object must follow, its
    signature must be good, and only then is anything written. -/
def importVerified (remote : String) (checksum : Checksum) (commit : Commit)
    (nextEnt : Entry) (nextChecksum : Checksum) (nextObjtype : ObjectType) :
    ImportM Unit :=
  if nextObjtype ≠ .commitMeta then
    throw (.err ("Using remote " ++ remote
      ++ " for verification; Expected commitmeta object, not " ++ objectSuffix nextObjtype))
  else if nextChecksum ≠ checksum then
    throw (.err ("Expected commitmeta checksum " ++ checksum ++ ", found " ++ nextChecksum))
  else do
    let commitmeta ← liftR (entryToVariant lib.dict nextEnt nextChecksum)
    onRepo (Repo.signatureVerifyCommitData lib remote
      (lib.commit.toBytes commit) (lib.dict.toBytes commitmeta))
    writePartialCommit lib checksum commit
    onRepo (Repo.writeCommitDetachedMetadata checksum commitmeta)

/-- The object after an unverified commit, whether it is commit metadata or not.  The path
    of this entry still has its `objects/` component. -/
def importNextObject (checksum : Checksum) (nextEnt : Entry) (nextentPath : Path) :
    ImportM Unit := do
  let (metaChecksum, metaObjtype) ← liftR (parseMetadataEntry nextentPath)
  match metaObjtype with
  | .commitMeta => do
      let commitmeta ← liftR (entryToVariant lib.dict nextEnt metaChecksum)
      onRepo (Repo.writeCommitDetachedMetadata checksum commitmeta)
  | _ => importObject lib nextEnt nextentPath

/-- The branch without a remote: the commit is written as it is, then the next object. -/
def importUnverified (checksum : Checksum) (commit : Commit) (nextEnt : Entry)
    (nextentPath : Path) : ImportM Unit := do
  writePartialCommit lib checksum commit
  importNextObject lib checksum nextEnt nextentPath

/-- The assertion at the head of `import_commit`: it can only be invoked once. -/
def assertFresh : ImportM Unit := do
  match (← get).data with
  | .commit none => pure ()
  | _ => throw (.panic "assertion failed: matches!(self.data, ImporterMode::Commit(None))")

/-- The two ways `import_commit` handles the commit and the entry after it. -/
def importHead (checksum : Checksum) (commit : Commit) (nextEnt : Entry)
    (nextentPath : Path) (next : Checksum × ObjectType) : ImportM Unit := do
  match (← get).remote with
  | some remote => importVerified lib remote checksum commit nextEnt next.1 next.2
  | none => importUnverified lib checksum commit nextEnt nextentPath

/-- `Importer::import_commit` -/
def importCommit (archive : Stream) : ImportM Unit := do
  assertFresh
  let ((commitEnt, commitPath), ents) ←
    liftR (nextEntry "Commit object not found" (filterEntries archive))
  if commitEnt.header.entryType ≠ .regular then
    throw (.err "Expected regular file for commit object")
  else
    let (checksum, objtype) ← liftR (parseMetadataEntry commitPath)
    if objtype ≠ .commit then
      throw (.err ("Expected commit object, not " ++ objectSuffix objtype))
    else
      let commit ← liftR (entryToVariant lib.commit commitEnt checksum)
      let ((nextEnt, nextentPath), ents) ←
        liftR (nextEntry "End of stream after commit object" ents)
      let next ← liftR (parseMetadataEntry nextentPath)
      importHead lib checksum commit nextEnt nextentPath next
      modify fun imp => { imp with data := .commit (some checksum) }
      importObjectsImpl lib ents

/-- `Importer::finish_import_commit` -/
def finishImportCommit : ImportM Checksum := do
  match (← get).data with
  | .commit (some c) => pure c
  | .commit none => throw (.panic "called `Option::unwrap()` on a `None` value")
  | .objectSet _ => throw (.panic "internal error: entered unreachable code")

/-- `Importer::default_dirmeta` -/
def defaultDirmeta : DirMeta :=
  { uid := 0, gid := 0, mode := sIfdir ||| 0o755, xattrs := [] }

/-- The tree `finish_import_object_set` builds: each object under its own checksum. -/
def objectSetTree (objset : ExtTreeSet Checksum) : DirTree :=
  { files := objset.toList.map (fun c => (c, c)), dirs := [] }

/-- The synthetic commit of an object set. -/
def objectSetCommit (objset : ExtTreeSet Checksum) : Commit :=
  { contents := lib.dirtreeChecksum (objectSetTree objset),
    dirmeta := lib.dirmetaChecksum defaultDirmeta }

/-- `Importer::finish_import_object_set` -/
def finishImportObjectSet : ImportM Checksum := do
  match (← get).data with
  | .commit _ => throw (.panic "internal error: entered unreachable code")
  | .objectSet objset => do
      let _ ← onRepo (Repo.writeDirmeta lib none defaultDirmeta)
      let _ ← onRepo (Repo.writeDirtree lib none (objectSetTree objset))
      onRepo (Repo.writeCommit lib none (objectSetCommit lib objset))

/-- Run a fresh importer on a repository. -/
def withImporter {α : Type} (mk : Repo → Importer) (x : ImportM α) : RepoM α := fun r =>
  match x (mk r) with
  | .ok a imp => .ok a imp.repo
  | .error e imp => .error e imp.repo

/-- `import_tar` -/
def importTar (src : Stream) (remote : Option String) : RepoM Checksum := do
  let checksum ← Repo.autoTransaction (withImporter (Importer.newForCommit remote) do
    importCommit lib src
    finishImportCommit)
  Repo.markCommitPartial checksum false
  pure checksum

/-- `import_tar_objects` -/
def importTarObjects (src : Stream) : RepoM Checksum :=
  Repo.autoTransaction (withImporter Importer.newForObjectSet do
    importObjects lib src
    finishImportObjectSet lib)

end Objects

-- ── Successful runs ───────────────────────────────────────────────────────────

theorem withImporter_ok {α : Type} {mk : Repo → Importer} {x : ImportM α} {r : Repo} {a : α}
    {imp : Importer} (h : x (mk r) = .ok a imp) : withImporter mk x r = .ok a imp.repo := by
  rw [withImporter, h]

/-- The repository after the objects of an object set commit were written. -/
def objectSetRepo (lib : Libostree) (objset : Std.ExtTreeSet Checksum) (r : Repo) : Repo :=
  let r := Repo.record (.wrote .dirMeta (lib.dirmetaChecksum defaultDirmeta)) { r with
    dirmetas := r.dirmetas.insertIfNew (lib.dirmetaChecksum defaultDirmeta) defaultDirmeta }
  let r := Repo.record (.wrote .dirTree (lib.dirtreeChecksum (objectSetTree objset))) { r with
    dirtrees := r.dirtrees.insertIfNew (lib.dirtreeChecksum (objectSetTree objset))
      (objectSetTree objset) }
  Repo.record (.wrote .commit (lib.commitChecksum (objectSetCommit lib objset))) { r with
    commits := r.commits.insertIfNew (lib.commitChecksum (objectSetCommit lib objset))
      (objectSetCommit lib objset) }

/-- `finish_import_object_set` writes the synthetic commit. -/
theorem finishImportObjectSet_run {lib : Libostree} {imp : Importer}
    {objset : Std.ExtTreeSet Checksum} (h : imp.data = .objectSet objset) :
    finishImportObjectSet lib imp = .ok (lib.commitChecksum (objectSetCommit lib objset))
      { imp with repo := objectSetRepo lib objset imp.repo } := by
  obtain ⟨repo, remote, xattrs, nextXattrs, data⟩ := imp
  obtain rfl : data = .objectSet objset := h
  rfl

/-- A successful run of a fresh importer. -/
theorem withImporter_eq_ok {α : Type} {mk : Repo → Importer} {x : ImportM α} {r r' : Repo} {a : α}
    (h : withImporter mk x r = .ok a r') : ∃ imp, x (mk r) = .ok a imp ∧ r' = imp.repo := by
  rw [withImporter] at h
  cases hx : x (mk r) with
  | ok b imp =>
      rw [hx] at h
      cases h
      exact ⟨imp, rfl, rfl⟩
  | error e imp =>
      rw [hx] at h
      cases h

end OstreeExt.Tar
