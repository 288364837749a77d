import OstreeExt.Path
import OstreeExt.Repo

/-!
# Tar entries and object file names

A tar stream is a list of entries; the `tar` crate's `Builder` appends to it and its
`Archive` iterates over it.  The object paths of `tar/export.rs` and their parser in
`tar/import.rs` are here together: `parseMetadataPath_objectFile` says that the parser
reads back the names the writer gives.
-/

namespace OstreeExt.Tar

open OstreeExt

/-- `tar::EntryType`. -/
inductive EntryType where
  | regular
  | link
  | symlink
  | directory
  | other (flag : Nat)
  deriving DecidableEq, Repr

/-- The header fields the code reads and writes. -/
structure Header where
  entryType : EntryType
  uid : Nat
  gid : Nat
  mode : UInt32
  size : Nat
  mtime : Nat := 0
  deriving DecidableEq

/-- A tar entry.  `data` is the body as the reader delivers it, which in a damaged
    archive need not have the length that the header announces. -/
structure Entry where
  path : Path
  header : Header
  linkName : Option String := none
  data : Bytes := []
  deriving DecidableEq

/-- What iterating over an archive yields: entries, or a read error. -/
abbrev Stream := List (Except String Entry)

/-- What the code leaves to the `tar` crate: the link name that `append_link` stores for a
    target, and `Header::size` of a header whose size was never set. -/
structure TarCrate where
  linkName : String → String
  unsetSize : Result Nat

/-- How the `tar` crate stores a path: `.` components are dropped, unless nothing else
    is left. -/
def tarPath (p : Path) : Path :=
  let q := p.filter (· ≠ .curDir)
  if q = [] then [.curDir] else q

-- ── Object paths ──────────────────────────────────────────────────────────────

/-- `OSTREEDIR` -/
def ostreeDir : Path := [.normal "sysroot", .normal "ostree"]

/-- `REPO_PREFIX` -/
def repoPrefix : Path := [.normal "sysroot", .normal "ostree", .normal "repo"]

/-- `sysroot/ostree/repo/objects` -/
def objectsDir : Path := repoPrefix ++ [.normal "objects"]

/-- `checksum.split_at(2)`, first part. -/
def csumFirst (checksum : Checksum) : String := String.ofList (checksum.toList.take 2)

/-- `checksum.split_at(2)`, second part. -/
def csumRest (checksum : Checksum) : String := String.ofList (checksum.toList.drop 2)

/-- The last component of an object path. -/
def objectFileName (checksum : Checksum) (suffix : String) : String :=
  csumRest checksum ++ "." ++ suffix

/-- The path of an object file with the given suffix. -/
def objectFile (checksum : Checksum) (suffix : String) : Path :=
  objectsDir ++ [.normal (csumFirst checksum), .normal (objectFileName checksum suffix)]

/-- The suffix of an object type. -/
def objectSuffix : ObjectType → String
  | .commit => "commit"
  | .commitMeta => "commitmeta"
  | .dirTree => "dirtree"
  | .dirMeta => "dirmeta"
  | .file => "file"

/-- `object_path` -/
def objectPath (objtype : ObjectType) (checksum : Checksum) : Path :=
  objectFile checksum (objectSuffix objtype)

/-- `v1_xattrs_object_path` -/
def v1XattrsObjectPath (checksum : Checksum) : Path := objectFile checksum "file-xattrs"

/-- `v1_xattrs_link_object_path` -/
def v1XattrsLinkObjectPath (checksum : Checksum) : Path :=
  objectFile checksum "file-xattrs-link"

-- ── Parsing object paths ──────────────────────────────────────────────────────

/-- The text before and after the last dot. -/
def rsplitDot : List Char → Option (List Char × List Char)
  | [] => none
  | c :: s =>
      match rsplitDot s with
      | some (a, b) => some (c :: a, b)
      | none => if c = '.' then some ([], s) else none

/-- `Utf8Path::extension` of a file name. -/
def extension (name : String) : Option String :=
  match rsplitDot name.toList with
  | some (a, b) => if a.isEmpty then none else some (String.ofList b)
  | none => none

/-- `Utf8Path::file_stem` of a file name. -/
def fileStem (name : String) : String :=
  match rsplitDot name.toList with
  | some (a, _) => if a.isEmpty then name else String.ofList a
  | none => name

/-- Drop `.file` from the front of a reversed string as often as it is there. -/
def trimFileRev : List Char → List Char
  | 'e' :: 'l' :: 'i' :: 'f' :: '.' :: s => trimFileRev s
  | s => s

/-- `trim_end_matches(".file")` -/
def trimEndFile (s : List Char) : List Char := (trimFileRev s.reverse).reverse

/-- `parse_object_entry_path` -/
def parseObjectEntryPath (path : Path) : Result (String × String × String) := do
  let parentname ← okOr ("Invalid path (no parent) " ++ path.render)
    (path.parent.bind Path.fileName)
  if strLen parentname.toList ≠ 2 then
    .error (.err ("Invalid checksum parent " ++ parentname))
  else
    let name ← okOr ("Invalid path (dir) " ++ path.render) path.fileName
    let objtype ← okOr ("Invalid objpath " ++ path.render) (extension name)
    .ok (parentname, name, objtype)

/-- `validate_sha256` -/
def validateSha256 (input : String) : Result Checksum :=
  if strLen input.toList ≠ 64 then
    .error (.err ("Invalid sha256 checksum (len) " ++ input))
  else if ¬ input.toList.all isHexDigit then
    .error (.err ("Invalid sha256 checksum " ++ input))
  else .ok input

/-- `parse_checksum` -/
def parseChecksum (parent name : String) : Result Checksum :=
  let checksumRest := String.ofList (trimEndFile (fileStem name).toList)
  if strLen checksumRest.toList ≠ 62 then
    .error (.err ("Invalid checksum part " ++ checksumRest))
  else validateSha256 (parent ++ checksumRest)

/-- `parse_xattrs_link_target` -/
def parseXattrsLinkTarget (path : Path) : Result Checksum := do
  let (parent, rest, _) ← parseObjectEntryPath path
  parseChecksum parent rest

/-- `objtype_from_string` -/
def objtypeFromString (t : String) : Option ObjectType :=
  if t = "commit" then some .commit
  else if t = "commitmeta" then some .commitMeta
  else if t = "dirtree" then some .dirTree
  else if t = "dirmeta" then some .dirMeta
  else if t = "file" then some .file
  else none

/-- `Importer::parse_metadata_entry` -/
def parseMetadataEntry (path : Path) : Result (Checksum × ObjectType) := do
  let (parentname, name, objtype) ← parseObjectEntryPath path
  let checksum ← parseChecksum parentname name
  let objtype ← okOr ("Invalid object type " ++ objtype) (objtypeFromString objtype)
  .ok (checksum, objtype)

-- ── The parser inverts the writer ─────────────────────────────────────────────

theorem isHexDigit_ascii {c : Char} (h : isHexDigit c = true) : c.val ≤ 127 := by
  unfold isHexDigit at h
  rw [decide_eq_true_iff] at h
  rcases h with h | h
  · have h9 : c.val ≤ '9'.val := h.2
    exact UInt32.le_trans h9 (by decide)
  · have hf : c.val ≤ 'f'.val := h.2
    exact UInt32.le_trans hf (by decide)

theorem isHexDigit_ne_dot {c : Char} (h : isHexDigit c = true) : c ≠ '.' := by
  rintro rfl
  exact absurd h (by decide)

theorem isHexDigit_ne_slash {c : Char} (h : isHexDigit c = true) : c ≠ '/' := by
  rintro rfl
  exact absurd h (by decide)

theorem rsplitDot_none {s : List Char} (hs : '.' ∉ s) : rsplitDot s = none := by
  induction s with
  | nil => rfl
  | cons c s ih =>
      have hc : c ≠ '.' := fun h => hs (h ▸ List.mem_cons_self ..)
      rw [rsplitDot, ih (fun h => hs (List.mem_cons_of_mem _ h))]
      simp [hc]

/-- The last dot is found in front of a part without dots. -/
theorem rsplitDot_append (a : List Char) {b : List Char} (hb : '.' ∉ b) :
    rsplitDot (a ++ '.' :: b) = some (a, b) := by
  induction a with
  | nil => rw [List.nil_append, rsplitDot, rsplitDot_none hb]; rfl
  | cons c a ih => rw [List.cons_append, rsplitDot, ih]

/-- Nothing is trimmed from a text without dots. -/
theorem trimEndFile_of_not_mem {s : List Char} (hs : '.' ∉ s) : trimEndFile s = s := by
  have hrev : trimFileRev s.reverse = s.reverse := by
    unfold trimFileRev
    split
    · next t heq =>
        exact absurd (List.mem_reverse.mp (by rw [heq]; simp)) hs
    · rfl
  rw [trimEndFile, hrev, List.reverse_reverse]

section ObjectNames

variable {c : Checksum}

theorem csumFirst_append_csumRest (c : Checksum) : csumFirst c ++ csumRest c = c := by
  apply String.toList_inj.mp
  rw [String.toList_append, csumFirst, csumRest, String.toList_ofList, String.toList_ofList,
    List.take_append_drop]

theorem strLen_csumFirst (hc : IsSha256 c) : strLen (csumFirst c).toList = 2 := by
  rw [csumFirst, String.toList_ofList, strLen_ascii, List.length_take, hc.1]
  · rfl
  · intro d hd
    exact isHexDigit_ascii (hc.2 d (List.mem_of_mem_take hd))

theorem strLen_csumRest (hc : IsSha256 c) : strLen (csumRest c).toList = 62 := by
  rw [csumRest, String.toList_ofList, strLen_ascii, List.length_drop, hc.1]
  intro d hd
  exact isHexDigit_ascii (hc.2 d (List.mem_of_mem_drop hd))

theorem dot_not_mem_csumRest (hc : IsSha256 c) : '.' ∉ (csumRest c).toList := by
  rw [csumRest, String.toList_ofList]
  intro h
  exact isHexDigit_ne_dot (hc.2 _ (List.mem_of_mem_drop h)) rfl

theorem objectFileName_toList (c : Checksum) (sfx : String) :
    (objectFileName c sfx).toList = (csumRest c).toList ++ '.' :: sfx.toList := by
  simp [objectFileName]

theorem csumRest_ne_nil (hc : IsSha256 c) : (csumRest c).toList ≠ [] := by
  intro h
  have hlen := strLen_csumRest hc
  rw [h] at hlen
  exact absurd hlen (by decide)

theorem extension_objectFileName (hc : IsSha256 c) {sfx : String} (hs : '.' ∉ sfx.toList) :
    extension (objectFileName c sfx) = some sfx := by
  unfold extension
  rw [objectFileName_toList, rsplitDot_append _ hs]
  simp [csumRest_ne_nil hc]

theorem fileStem_objectFileName (hc : IsSha256 c) {sfx : String} (hs : '.' ∉ sfx.toList) :
    fileStem (objectFileName c sfx) = csumRest c := by
  unfold fileStem
  rw [objectFileName_toList, rsplitDot_append _ hs]
  simp [csumRest_ne_nil hc]

theorem validateSha256_ok (hc : IsSha256 c) : validateSha256 c = .ok c := by
  have hlen : strLen c.toList = 64 := by
    rw [strLen_ascii (fun d hd => isHexDigit_ascii (hc.2 d hd)), hc.1]
  unfold validateSha256
  rw [if_neg (by rw [hlen]; decide), if_neg]
  simpa using hc.2

/-- `parse_object_entry_path` on any path that ends in an object name. -/
theorem parseObjectEntryPath_objectName (hc : IsSha256 c) (p : Path) {sfx : String}
    (hs : '.' ∉ sfx.toList) :
    parseObjectEntryPath (p ++ [.normal (csumFirst c), .normal (objectFileName c sfx)])
      = .ok (csumFirst c, objectFileName c sfx, sfx) := by
  have hsplit : p ++ [.normal (csumFirst c), .normal (objectFileName c sfx)]
      = (p ++ [.normal (csumFirst c)]) ++ [.normal (objectFileName c sfx)] := by simp
  unfold parseObjectEntryPath
  rw [hsplit, Path.parent_append_normal, Option.bind_some, Path.fileName_append_normal,
    Path.fileName_append_normal, okOr_some, bind_ok_eq, strLen_csumFirst hc,
    if_neg (by decide), okOr_some, bind_ok_eq, extension_objectFileName hc hs, okOr_some,
    bind_ok_eq]

/-- `parse_checksum` on an object name. -/
theorem parseChecksum_objectName (hc : IsSha256 c) {sfx : String} (hs : '.' ∉ sfx.toList) :
    parseChecksum (csumFirst c) (objectFileName c sfx) = .ok c := by
  simp only [parseChecksum]
  rw [fileStem_objectFileName hc hs, trimEndFile_of_not_mem (dot_not_mem_csumRest hc),
    String.ofList_toList, strLen_csumRest hc, csumFirst_append_csumRest]
  exact validateSha256_ok hc

/-- **Names written by `object_path` are read back.** -/
theorem parseMetadataEntry_objectName (hc : IsSha256 c) (p : Path) (ty : ObjectType) :
    parseMetadataEntry
        (p ++ [.normal (csumFirst c), .normal (objectFileName c (objectSuffix ty))])
      = .ok (c, ty) := by
  have hs : '.' ∉ (objectSuffix ty).toList := by cases ty <;> decide
  have hty : objtypeFromString (objectSuffix ty) = some ty := by cases ty <;> decide
  unfold parseMetadataEntry
  rw [parseObjectEntryPath_objectName hc p hs, bind_ok_eq]
  simp only [parseChecksum_objectName hc hs, hty, bind_ok_eq, okOr_some]

end ObjectNames

end OstreeExt.Tar
