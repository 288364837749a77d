import OstreeExt.Oci
import OstreeExt.Lib.Exec
import OstreeExt.Lib.Maps

/-!
# The ostree repository

An ostree repository as the code sees it through libostree: content-addressed objects,
detached commit metadata, partial marks, and refs.  Metadata objects are kept decoded;
`Libostree` holds what turns them into bytes and checksums, and the signature check.
These are parameters of the development: nothing is assumed about them except where a
theorem says so.
-/

namespace OstreeExt

open Std

/-- `a{sa{su}}`: per layer digest, the number of filtered paths per toplevel. -/
abbrev MetaFilteredData := ExtTreeMap String (ExtTreeMap String Nat)

/-- A value of commit metadata.  A string that holds a digest, or the JSON of a manifest or
    of a configuration, is kept as what it deserializes to; `str` is any other string. -/
inductive Value where
  | str (s : String)
  | digest (d : Digest)
  | manifest (m : ImageManifest)
  | config (c : ImageConfiguration)
  | filtered (f : MetaFilteredData)
  | other (b : Bytes)
  deriving DecidableEq

/-- `a{sv}`. -/
abbrev Dict := ExtTreeMap String Value

/-- A commit object; `contents` and `dirmeta` are fields 6 and 7 of its variant. -/
structure Commit where
  metadata : Dict := ∅
  subject : String := ""
  timestamp : Nat := 0
  contents : Checksum
  dirmeta : Checksum
  deriving DecidableEq

/-- A dirtree object: files with their content checksum, directories with the
    checksums of their dirtree and dirmeta. -/
structure DirTree where
  files : List (String × Checksum)
  dirs : List (String × Checksum × Checksum)
  deriving DecidableEq

/-- A dirmeta object. -/
structure DirMeta where
  uid : UInt32
  gid : UInt32
  mode : UInt32
  xattrs : Bytes
  deriving DecidableEq

/-- A content object.  libostree gives every symbolic link the mode `0120777`, so only
    regular files carry one. -/
inductive FileObject where
  | regular (uid gid mode : UInt32) (xattrs content : Bytes)
  | symlink (uid gid : UInt32) (xattrs : Bytes) (target : String)
  deriving DecidableEq

/-- The xattrs variant of a content object. -/
def FileObject.xattrs : FileObject → Bytes
  | .regular _ _ _ x _ => x
  | .symlink _ _ x _ => x

/-- `ostree::ObjectType`, the types the code handles. -/
inductive ObjectType where
  | commit
  | commitMeta
  | dirTree
  | dirMeta
  | file
  deriving DecidableEq, Repr

/-- `Variant::data_as_bytes`, and `Variant::from_bytes` followed by `normal_form`. -/
structure Codec (α : Type) where
  toBytes : α → Bytes
  ofBytes : Bytes → α

/-- Sixty-four lower-case hex digits. -/
def isHexDigit (c : Char) : Bool := ('0' ≤ c ∧ c ≤ '9') ∨ ('a' ≤ c ∧ c ≤ 'f')

/-- What `validate_sha256` accepts. -/
def IsSha256 (s : Checksum) : Prop :=
  s.toList.length = 64 ∧ ∀ c ∈ s.toList, isHexDigit c = true

instance (s : Checksum) : Decidable (IsSha256 s) :=
  decidable_of_iff (s.toList.length = 64 ∧ s.toList.all isHexDigit = true) (by
    rw [List.all_eq_true, IsSha256])

/-- The functions of libostree, GLib and OpenSSL that the code calls on data. -/
structure Libostree where
  /-- SHA-256 of a byte string, hex encoded. -/
  sha256 : Bytes → Checksum
  /-- The checksum of a content object (header, xattrs and content). -/
  fileChecksum : FileObject → Checksum
  commit : Codec Commit
  dirtree : Codec DirTree
  dirmeta : Codec DirMeta
  dict : Codec Dict
  /-- `signature_verify_commit_data`: remote, commit bytes, commitmeta bytes. -/
  signatureVerify : String → Bytes → Bytes → Bool
  sha256_isSha256 : ∀ b, IsSha256 (sha256 b)
  fileChecksum_isSha256 : ∀ o, IsSha256 (fileChecksum o)

/-- The checksum of a metadata object is the SHA-256 of its bytes. -/
def Libostree.commitChecksum (lib : Libostree) (c : Commit) : Checksum :=
  lib.sha256 (lib.commit.toBytes c)

/-- The checksum of a dirtree object. -/
def Libostree.dirtreeChecksum (lib : Libostree) (d : DirTree) : Checksum :=
  lib.sha256 (lib.dirtree.toBytes d)

/-- The checksum of a dirmeta object. -/
def Libostree.dirmetaChecksum (lib : Libostree) (m : DirMeta) : Checksum :=
  lib.sha256 (lib.dirmeta.toBytes m)

/-- What happened to a repository, in order: accepted signatures and writes. -/
inductive RepoEvent where
  | accepted (remote : String) (commit commitmeta : Bytes)
  | wrote (objtype : ObjectType) (checksum : Checksum)
  | markedPartial (checksum : Checksum) (isPartial : Bool)
  deriving DecidableEq

/-- The object store. -/
structure Objects where
  commits : ExtTreeMap Checksum Commit := ∅
  dirtrees : ExtTreeMap Checksum DirTree := ∅
  dirmetas : ExtTreeMap Checksum DirMeta := ∅
  files : ExtTreeMap Checksum FileObject := ∅

/-- One object store still has what another one has. -/
structure Objects.Keeps (o o' : Objects) : Prop where
  commits : ∀ (k : Checksum) v, o.commits[k]? = some v → o'.commits[k]? = some v
  dirtrees : ∀ (k : Checksum) v, o.dirtrees[k]? = some v → o'.dirtrees[k]? = some v
  dirmetas : ∀ (k : Checksum) v, o.dirmetas[k]? = some v → o'.dirmetas[k]? = some v
  files : ∀ (k : Checksum) v, o.files[k]? = some v → o'.files[k]? = some v

theorem Objects.Keeps.refl (o : Objects) : o.Keeps o :=
  ⟨fun _ _ h => h, fun _ _ h => h, fun _ _ h => h, fun _ _ h => h⟩

theorem Objects.Keeps.trans {a b c : Objects} (h : a.Keeps b) (h' : b.Keeps c) : a.Keeps c where
  commits k v hk := h'.commits k v (h.commits k v hk)
  dirtrees k v hk := h'.dirtrees k v (h.dirtrees k v hk)
  dirmetas k v hk := h'.dirmetas k v (h.dirmetas k v hk)
  files k v hk := h'.files k v (h.files k v hk)

/-- Storing an object under a name that may be taken keeps what is there. -/
theorem Objects.Keeps.insert_commit (o : Objects) (c : Checksum) (v : Commit) :
    o.Keeps { o with commits := o.commits.insertIfNew c v } where
  commits _ _ h := ExtTreeMap.lookup_insertIfNew_of_some h _ _
  dirtrees _ _ h := h
  dirmetas _ _ h := h
  files _ _ h := h

theorem Objects.Keeps.insert_dirtree (o : Objects) (c : Checksum) (v : DirTree) :
    o.Keeps { o with dirtrees := o.dirtrees.insertIfNew c v } where
  commits _ _ h := h
  dirtrees _ _ h := ExtTreeMap.lookup_insertIfNew_of_some h _ _
  dirmetas _ _ h := h
  files _ _ h := h

theorem Objects.Keeps.insert_dirmeta (o : Objects) (c : Checksum) (v : DirMeta) :
    o.Keeps { o with dirmetas := o.dirmetas.insertIfNew c v } where
  commits _ _ h := h
  dirtrees _ _ h := h
  dirmetas _ _ h := ExtTreeMap.lookup_insertIfNew_of_some h _ _
  files _ _ h := h

theorem Objects.Keeps.insert_file (o : Objects) (c : Checksum) (v : FileObject) :
    o.Keeps { o with files := o.files.insertIfNew c v } where
  commits _ _ h := h
  dirtrees _ _ h := h
  dirmetas _ _ h := h
  files _ _ h := ExtTreeMap.lookup_insertIfNew_of_some h _ _

/-- A repository: objects, detached commit metadata, commits marked as partial, refs,
    and the history of what was done to it. -/
structure Repo extends Objects where
  commitmetas : ExtTreeMap Checksum Dict := ∅
  partialCommits : Finset Checksum := ∅
  refs : ExtTreeMap String Checksum := ∅
  trace : List RepoEvent := []

/-- Programs over a repository. -/
abbrev RepoM := EStateM Stop Repo

namespace Repo

/-- Record an event. -/
def record (e : RepoEvent) (r : Repo) : Repo := { r with trace := r.trace ++ [e] }

/-- libostree's check of an expected checksum against the computed one. -/
def checkExpected (expected : Option Checksum) (actual : Checksum) : RepoM Unit :=
  match expected with
  | none => pure ()
  | some e =>
      if e = actual then pure ()
      else throw (.err ("Corrupted object; checksum expected='" ++ e ++ "' actual='" ++ actual ++ "'"))

/-- `write_metadata` of a commit object.  An object that is already stored stays as it
    is. -/
def writeCommit (lib : Libostree) (expected : Option Checksum) (c : Commit) :
    RepoM Checksum := do
  let actual := lib.commitChecksum c
  checkExpected expected actual
  modify fun r =>
    record (.wrote .commit actual) { r with commits := r.commits.insertIfNew actual c }
  pure actual

/-- `write_metadata` of a dirtree object. -/
def writeDirtree (lib : Libostree) (expected : Option Checksum) (d : DirTree) :
    RepoM Checksum := do
  let actual := lib.dirtreeChecksum d
  checkExpected expected actual
  modify fun r =>
    record (.wrote .dirTree actual) { r with dirtrees := r.dirtrees.insertIfNew actual d }
  pure actual

/-- `write_metadata` of a dirmeta object. -/
def writeDirmeta (lib : Libostree) (expected : Option Checksum) (m : DirMeta) :
    RepoM Checksum := do
  let actual := lib.dirmetaChecksum m
  checkExpected expected actual
  modify fun r =>
    record (.wrote .dirMeta actual) { r with dirmetas := r.dirmetas.insertIfNew actual m }
  pure actual

/-- `write_regfile`, `write_regfile_inline` and `write_symlink`. -/
def writeFile (lib : Libostree) (expected : Option Checksum) (o : FileObject) :
    RepoM Checksum := do
  let actual := lib.fileChecksum o
  checkExpected expected actual
  modify fun r =>
    record (.wrote .file actual) { r with files := r.files.insertIfNew actual o }
  pure actual

/-- `write_commit_detached_metadata`. -/
def writeCommitDetachedMetadata (checksum : Checksum) (d : Dict) : RepoM Unit :=
  modify fun r =>
    record (.wrote .commitMeta checksum)
      { r with commitmetas := r.commitmetas.insert checksum d }

/-- `mark_commit_partial`. -/
def markCommitPartial (checksum : Checksum) (isPartial : Bool) : RepoM Unit :=
  modify fun r =>
    record (.markedPartial checksum isPartial)
      { r with
        partialCommits :=
          if isPartial then insert checksum r.partialCommits
          else r.partialCommits.erase checksum }

/-- `signature_verify_commit_data`. -/
def signatureVerifyCommitData (lib : Libostree) (remote : String)
    (commit commitmeta : Bytes) : RepoM Unit :=
  if lib.signatureVerify remote commit commitmeta then
    modify (record (.accepted remote commit commitmeta))
  else throw (.err "Verifying ostree commit in tar stream")

/-- `load_commit`. -/
def loadCommit (checksum : Checksum) (r : Repo) : Result Commit :=
  okOr ("No such metadata object " ++ checksum ++ ".commit") r.commits[checksum]?

/-- `load_variant` of a dirtree. -/
def loadDirtree (checksum : Checksum) (r : Repo) : Result DirTree :=
  okOr ("No such metadata object " ++ checksum ++ ".dirtree") r.dirtrees[checksum]?

/-- `load_variant` of a dirmeta. -/
def loadDirmeta (checksum : Checksum) (r : Repo) : Result DirMeta :=
  okOr ("No such metadata object " ++ checksum ++ ".dirmeta") r.dirmetas[checksum]?

/-- `load_file`. -/
def loadFile (checksum : Checksum) (r : Repo) : Result FileObject :=
  okOr ("Couldn't find file object '" ++ checksum ++ "'") r.files[checksum]?

/-- `require_rev`: a full checksum stands for itself, anything else is a ref that must
    exist. -/
def requireRev (ref : String) (r : Repo) : Result Checksum :=
  if IsSha256 ref then .ok ref
  else okOr ("Refspec '" ++ ref ++ "' not found") r.refs[ref]?

/-- `resolve_rev` with `allow_noent`. -/
def resolveRev (ref : String) (r : Repo) : Option Checksum :=
  if IsSha256 ref then some ref else r.refs[ref]?

/-- `set_ref_immediate`, and `transaction_set_ref` inside a transaction. -/
def setRef (ref : String) (rev : Option Checksum) : RepoM Unit :=
  modify fun r => { r with
    refs := match rev with
      | some c => r.refs.insert ref c
      | none => r.refs.erase ref }

/-- A ref name lies under a prefix: it is the prefix, or continues it with a slash.
    libostree keeps refs as files, and lists the file or the directory of that name. -/
def refUnder (pfx ref : String) : Bool :=
  ref = pfx ∨ (pfx ++ "/").toList.isPrefixOf ref.toList

/-- `list_refs_ext`. -/
def listRefsExt (pfx : String) (r : Repo) : List (String × Checksum) :=
  r.refs.toList.filter (fun p => refUnder pfx p.1)

/-- `auto_transaction`: a failing body leaves no object and no ref behind.  Partial
    marks are files written outside the transaction and stay. -/
def autoTransaction {α : Type} (body : RepoM α) : RepoM α := fun r =>
  match body r with
  | .ok a r' => .ok a r'
  | .error e r' =>
      .error e { r with partialCommits := r'.partialCommits, trace := r'.trace }

-- ── Successful writes ─────────────────────────────────────────────────────────

section Writes

variable {lib : Libostree} {c : Checksum}

theorem checkExpected_self (c : Checksum) (r : Repo) :
    checkExpected (some c) c r = .ok ⟨⟩ r := by
  simp [checkExpected]

/-- A commit that has the expected checksum is stored. -/
theorem writeCommit_run {commit : Commit} (h : lib.commitChecksum commit = c) (r : Repo) :
    writeCommit lib (some c) commit r = .ok c (record (.wrote .commit c)
      { r with commits := r.commits.insertIfNew c commit }) := by
  subst h
  simp only [writeCommit]
  rw [Exec.bind_of_ok (checkExpected_self _ _)]
  rfl

/-- A dirtree that has the expected checksum is stored. -/
theorem writeDirtree_run {d : DirTree} (h : lib.dirtreeChecksum d = c) (r : Repo) :
    writeDirtree lib (some c) d r = .ok c (record (.wrote .dirTree c)
      { r with dirtrees := r.dirtrees.insertIfNew c d }) := by
  subst h
  simp only [writeDirtree]
  rw [Exec.bind_of_ok (checkExpected_self _ _)]
  rfl

/-- A dirmeta that has the expected checksum is stored. -/
theorem writeDirmeta_run {m : DirMeta} (h : lib.dirmetaChecksum m = c) (r : Repo) :
    writeDirmeta lib (some c) m r = .ok c (record (.wrote .dirMeta c)
      { r with dirmetas := r.dirmetas.insertIfNew c m }) := by
  subst h
  simp only [writeDirmeta]
  rw [Exec.bind_of_ok (checkExpected_self _ _)]
  rfl

/-- A content object that has the expected checksum is stored. -/
theorem writeFile_run {o : FileObject} (h : lib.fileChecksum o = c) (r : Repo) :
    writeFile lib (some c) o r = .ok c (record (.wrote .file c)
      { r with files := r.files.insertIfNew c o }) := by
  subst h
  simp only [writeFile]
  rw [Exec.bind_of_ok (checkExpected_self _ _)]
  rfl

/-- A write with an expected checksum succeeds only for an object that has it. -/
theorem checkExpected_ok {expected actual : Checksum} {r r' : Repo} {u : Unit}
    (h : checkExpected (some expected) actual r = .ok u r') : expected = actual ∧ r' = r := by
  simp only [checkExpected] at h
  split at h
  · next heq => cases h; exact ⟨heq, rfl⟩
  · exact nomatch h

theorem writeCommit_ok {commit : Commit} {r r' : Repo} {a : Checksum}
    (h : writeCommit lib (some c) commit r = .ok a r') :
    lib.commitChecksum commit = c ∧ a = c ∧ r' = record (.wrote .commit c)
      { r with commits := r.commits.insertIfNew c commit } := by
  have hsum : lib.commitChecksum commit = c := by
    simp only [writeCommit] at h
    obtain ⟨_, _, hcheck, _⟩ := Exec.bind_ok h
    exact (checkExpected_ok hcheck).1.symm
  rw [writeCommit_run hsum] at h
  cases h
  exact ⟨hsum, rfl, rfl⟩

theorem writeDirtree_ok {d : DirTree} {r r' : Repo} {a : Checksum}
    (h : writeDirtree lib (some c) d r = .ok a r') :
    lib.dirtreeChecksum d = c ∧ a = c ∧ r' = record (.wrote .dirTree c)
      { r with dirtrees := r.dirtrees.insertIfNew c d } := by
  have hsum : lib.dirtreeChecksum d = c := by
    simp only [writeDirtree] at h
    obtain ⟨_, _, hcheck, _⟩ := Exec.bind_ok h
    exact (checkExpected_ok hcheck).1.symm
  rw [writeDirtree_run hsum] at h
  cases h
  exact ⟨hsum, rfl, rfl⟩

theorem writeDirmeta_ok {m : DirMeta} {r r' : Repo} {a : Checksum}
    (h : writeDirmeta lib (some c) m r = .ok a r') :
    lib.dirmetaChecksum m = c ∧ a = c ∧ r' = record (.wrote .dirMeta c)
      { r with dirmetas := r.dirmetas.insertIfNew c m } := by
  have hsum : lib.dirmetaChecksum m = c := by
    simp only [writeDirmeta] at h
    obtain ⟨_, _, hcheck, _⟩ := Exec.bind_ok h
    exact (checkExpected_ok hcheck).1.symm
  rw [writeDirmeta_run hsum] at h
  cases h
  exact ⟨hsum, rfl, rfl⟩

theorem writeFile_ok {o : FileObject} {r r' : Repo} {a : Checksum}
    (h : writeFile lib (some c) o r = .ok a r') :
    lib.fileChecksum o = c ∧ a = c ∧ r' = record (.wrote .file c)
      { r with files := r.files.insertIfNew c o } := by
  have hsum : lib.fileChecksum o = c := by
    simp only [writeFile] at h
    obtain ⟨_, _, hcheck, _⟩ := Exec.bind_ok h
    exact (checkExpected_ok hcheck).1.symm
  rw [writeFile_run hsum] at h
  cases h
  exact ⟨hsum, rfl, rfl⟩

end Writes

end Repo

end OstreeExt
