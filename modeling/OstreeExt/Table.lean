import OstreeExt.Repo

/-!
# libostree by tables

A `Libostree` that is given by finite tables: the serialized form of some objects, the
SHA-256 of some byte strings, the checksums of some content objects.  A concrete commit
with the values that libostree computes for it is an instance; everything outside the
tables has the empty serialization and the checksum of the empty string.
-/

namespace OstreeExt

/-- The SHA-256 of the empty string. -/
def emptySha256 : Checksum := "e3b0c44298fc1c149afbf4c8996fb92427ae41e4649b934ca495991b7852b855"

theorem isSha256_emptySha256 : IsSha256 emptySha256 := by decide +kernel

/-- The value of the first entry with the given key. -/
def tableGet {α β : Type} [DecidableEq α] (t : List (α × β)) (fallback : β) (a : α) : β :=
  ((t.find? (fun p => p.1 = a)).map (·.2)).getD fallback

@[simp] theorem tableGet_self {α β : Type} [DecidableEq α] (t : List (α × β)) (fallback b : β)
    (a : α) : tableGet ((a, b) :: t) fallback a = b := by
  simp [tableGet]

theorem tableGet_of_ne {α β : Type} [DecidableEq α] {t : List (α × β)} {fallback b : β} {a k : α}
    (h : k ≠ a) : tableGet ((k, b) :: t) fallback a = tableGet t fallback a := by
  simp [tableGet, h]

/-- In a table without double keys every entry counts. -/
theorem tableGet_of_mem {α β : Type} [DecidableEq α] {t : List (α × β)} (fallback : β) {a : α} {b : β}
    (hnodup : (t.map (·.1)).Nodup) (h : (a, b) ∈ t) : tableGet t fallback a = b := by
  induction t with
  | nil => exact absurd h (by simp)
  | cons p t ih =>
      rw [List.map_cons, List.nodup_cons] at hnodup
      rcases List.mem_cons.mp h with rfl | h
      · exact tableGet_self t fallback b a
      · have hne : p.1 ≠ a := fun heq => hnodup.1 (heq ▸ List.mem_map_of_mem (f := (·.1)) h)
        rw [tableGet_of_ne hne]
        exact ih hnodup.2 h

/-- A value of a table is the fallback or one of its entries. -/
theorem tableGet_mem {α β : Type} [DecidableEq α] {t : List (α × β)} {fallback : β}
    {P : β → Prop} (ht : ∀ p ∈ t, P p.2) (hf : P fallback) (a : α) :
    P (tableGet t fallback a) := by
  unfold tableGet
  cases h : t.find? (fun p => p.1 = a) with
  | none => exact hf
  | some p => exact ht p (List.mem_of_find?_eq_some h)

/-- A codec by a table. -/
def Codec.ofTable {α : Type} [DecidableEq α] (t : List (α × Bytes)) (fallback : α) : Codec α where
  toBytes := tableGet t []
  ofBytes := tableGet (t.map Prod.swap) fallback

/-- The tables. -/
structure LibTables where
  sums : List (Bytes × Checksum) := []
  files : List (FileObject × Checksum) := []
  commits : List (Commit × Bytes) := []
  dirtrees : List (DirTree × Bytes) := []
  dirmetas : List (DirMeta × Bytes) := []
  dicts : List (Dict × Bytes) := []
  verify : String → Bytes → Bytes → Bool := fun _ _ _ => false
  sums_isSha256 : ∀ p ∈ sums, IsSha256 p.2
  files_isSha256 : ∀ p ∈ files, IsSha256 p.2

/-- The library of some tables. -/
def LibTables.lib (t : LibTables) : Libostree where
  sha256 := tableGet t.sums emptySha256
  fileChecksum := tableGet t.files emptySha256
  commit := Codec.ofTable t.commits { contents := "", dirmeta := "" }
  dirtree := Codec.ofTable t.dirtrees { files := [], dirs := [] }
  dirmeta := Codec.ofTable t.dirmetas { uid := 0, gid := 0, mode := 0, xattrs := [] }
  dict := Codec.ofTable t.dicts ∅
  signatureVerify := t.verify
  sha256_isSha256 := tableGet_mem t.sums_isSha256 isSha256_emptySha256
  fileChecksum_isSha256 := tableGet_mem t.files_isSha256 isSha256_emptySha256

-- ── Two small commits ─────────────────────────────────────────────────────────

/-- The bytes that a checksum stands for. -/
def unhex : List Char → Bytes
  | a :: b :: s => (16 * hexVal a + hexVal b) :: unhex s
  | _ => []
where
  hexVal (c : Char) : UInt8 := if c ≤ '9' then c.toNat.toUInt8 - 48 else c.toNat.toUInt8 - 87

/-- A checksum in the binary form of metadata objects. -/
def csumBytes (c : Checksum) : Bytes := unhex c.toList

/-- A string in the binary form of metadata objects. -/
def cstr (s : String) : Bytes := s.toList.map (·.toNat.toUInt8) ++ [0]

/-- The metadata of a directory owned by root, mode 0755. -/
def sampleMeta : DirMeta := { uid := 0, gid := 0, mode := 0o040755, xattrs := [] }

def sampleMetaSum : Checksum := "446a0ef11b7cc167f3b603e585c7eeeeb675faa412d5ec73f62988eb0b6c5488"

/-- The empty directory. -/
def emptyTree : DirTree := { files := [], dirs := [] }

def emptyTreeSum : Checksum := "6e340b9cffb37a989ca544e6bb780a2c78901d3fb33738768511a30617afa01d"

/-- A symbolic link. -/
def sampleLink : FileObject := .symlink 0 0 [] "usr/bin"

def sampleLinkSum : Checksum := "389846c2702216e1367c8dfb68326a6b93ccf5703c89c93979052a9bf359608e"

/-- A regular file with the text `hi`. -/
def sampleMotd : FileObject := .regular 0 0 0o100644 [] [104, 105, 10]

def sampleMotdSum : Checksum := "fbf7cf77a1b50d9f074cb6e9ef6ddb65b6532ea89e4f4ca1b07a05b4cd1be259"

/-- A root directory with the two files and an empty directory. -/
def sampleTree : DirTree where
  files := [("bin", sampleLinkSum), ("motd", sampleMotdSum)]
  dirs := [("boot", emptyTreeSum, sampleMetaSum)]

def sampleTreeSum : Checksum := "f06202872472f0c6665302a3d4eb83baa638442078c86ca50b8648d78966f1e1"

def sampleCommit : Commit := { contents := sampleTreeSum, dirmeta := sampleMetaSum }

def sampleCommitSum : Checksum :=
  "28fbc5acac4c2e86087eaabb89914d2902e00561532218b884bfa4dd7d7f62ef"

/-- A root directory that holds nothing but an empty `sysroot`. -/
def sysrootTree : DirTree := { files := [], dirs := [("sysroot", emptyTreeSum, sampleMetaSum)] }

def sysrootTreeSum : Checksum := "10c3e6e43abbb3b5cb94dc08b1c82294b51d13e373f702f7fb22594f010dfd5b"

def sysrootCommit : Commit := { contents := sysrootTreeSum, dirmeta := sampleMetaSum }

def sysrootCommitSum : Checksum :=
  "4e81b8177643987f5defe76316ecd51ac10fd6b5fcd76d8015f3696d86765ee8"

/-- The two files as an object set: each is named by its checksum. -/
def chunkTree : DirTree where
  files := [(sampleLinkSum, sampleLinkSum), (sampleMotdSum, sampleMotdSum)]
  dirs := []

def chunkTreeSum : Checksum := "ba78e4c2209a812644f341bdb6430ce669bf8cff6ba1c4632f555d6661231840"

def chunkCommit : Commit := { contents := chunkTreeSum, dirmeta := sampleMetaSum }

def chunkCommitSum : Checksum :=
  "74579df438567e64c0b474a008efd0945e9188363f20e630f84a2635248db940"

/-- The commit of an empty object set. -/
def emptyChunkCommit : Commit := { contents := emptyTreeSum, dirmeta := sampleMetaSum }

def emptyChunkCommitSum : Checksum :=
  "6109d33e99f48e9b90cdf8ad037b8e5d20ef899697cfd3eb492cf78800aed498"

/-- The serialized form of a commit without metadata, parent, subject and body. -/
def plainCommitBytes (c : Commit) : Bytes :=
  List.replicate 16 0 ++ csumBytes c.contents ++ csumBytes c.dirmeta ++ [48, 2, 1, 0, 0, 0]

def sampleMetaBytes : Bytes := [0, 0, 0, 0, 0, 0, 0, 0, 0, 0, 0x41, 0xed]

def sampleTreeBytes : Bytes :=
  cstr "bin" ++ csumBytes sampleLinkSum ++ [4] ++ cstr "motd" ++ csumBytes sampleMotdSum ++ [5]
    ++ [37, 75] ++ cstr "boot" ++ csumBytes emptyTreeSum ++ csumBytes sampleMetaSum ++ [37, 5]
    ++ [71, 77]

def sysrootTreeBytes : Bytes :=
  cstr "sysroot" ++ csumBytes emptyTreeSum ++ csumBytes sampleMetaSum ++ [40, 8] ++ [74, 0]

def chunkTreeBytes : Bytes :=
  cstr sampleLinkSum ++ csumBytes sampleLinkSum ++ [65] ++ cstr sampleMotdSum
    ++ csumBytes sampleMotdSum ++ [65] ++ [98, 196, 198]

/-- The objects of the commits, serialized and with their checksums. -/
def sampleTables : LibTables where
  sums := [([0], emptyTreeSum), (sampleMetaBytes, sampleMetaSum), (sampleTreeBytes, sampleTreeSum),
    (plainCommitBytes sampleCommit, sampleCommitSum), (sysrootTreeBytes, sysrootTreeSum),
    (plainCommitBytes sysrootCommit, sysrootCommitSum), (chunkTreeBytes, chunkTreeSum),
    (plainCommitBytes chunkCommit, chunkCommitSum),
    (plainCommitBytes emptyChunkCommit, emptyChunkCommitSum)]
  files := [(sampleLink, sampleLinkSum), (sampleMotd, sampleMotdSum)]
  commits := [(sampleCommit, plainCommitBytes sampleCommit),
    (sysrootCommit, plainCommitBytes sysrootCommit), (chunkCommit, plainCommitBytes chunkCommit),
    (emptyChunkCommit, plainCommitBytes emptyChunkCommit)]
  dirtrees := [(emptyTree, [0]), (sampleTree, sampleTreeBytes), (sysrootTree, sysrootTreeBytes),
    (chunkTree, chunkTreeBytes)]
  dirmetas := [(sampleMeta, sampleMetaBytes)]
  sums_isSha256 := by decide +kernel
  files_isSha256 := by decide +kernel

/-- A repository that stores the two commits. -/
def sampleRepo : Repo where
  commits := ((∅ : Std.ExtTreeMap Checksum Commit).insert sampleCommitSum sampleCommit).insert
    sysrootCommitSum sysrootCommit
  dirtrees := (((∅ : Std.ExtTreeMap Checksum DirTree).insert emptyTreeSum emptyTree).insert
    sampleTreeSum sampleTree).insert sysrootTreeSum sysrootTree
  dirmetas := (∅ : Std.ExtTreeMap Checksum DirMeta).insert sampleMetaSum sampleMeta
  files := ((∅ : Std.ExtTreeMap Checksum FileObject).insert sampleLinkSum sampleLink).insert
    sampleMotdSum sampleMotd

section Sample

open Std.ExtTreeMap

theorem lookup_sampleCommit : sampleRepo.commits[sampleCommitSum]? = some sampleCommit := by
  simp only [sampleRepo]
  rw [lookup_insert, if_neg (by decide), lookup_insert, if_pos rfl]

theorem lookup_sysrootCommit : sampleRepo.commits[sysrootCommitSum]? = some sysrootCommit := by
  simp only [sampleRepo]
  rw [lookup_insert, if_pos rfl]

theorem lookup_emptyTree : sampleRepo.dirtrees[emptyTreeSum]? = some emptyTree := by
  simp only [sampleRepo]
  rw [lookup_insert, if_neg (by decide), lookup_insert, if_neg (by decide), lookup_insert,
    if_pos rfl]

theorem lookup_sampleTree : sampleRepo.dirtrees[sampleTreeSum]? = some sampleTree := by
  simp only [sampleRepo]
  rw [lookup_insert, if_neg (by decide), lookup_insert, if_pos rfl]

theorem lookup_sysrootTree : sampleRepo.dirtrees[sysrootTreeSum]? = some sysrootTree := by
  simp only [sampleRepo]
  rw [lookup_insert, if_pos rfl]

theorem lookup_sampleMeta : sampleRepo.dirmetas[sampleMetaSum]? = some sampleMeta := by
  simp only [sampleRepo]
  rw [lookup_insert, if_pos rfl]

theorem lookup_sampleLink : sampleRepo.files[sampleLinkSum]? = some sampleLink := by
  simp only [sampleRepo]
  rw [lookup_insert, if_neg (by decide), lookup_insert, if_pos rfl]

theorem lookup_sampleMotd : sampleRepo.files[sampleMotdSum]? = some sampleMotd := by
  simp only [sampleRepo]
  rw [lookup_insert, if_pos rfl]

-- the keys of the tables, once for all the lookups

theorem nodup_sums : (sampleTables.sums.map (·.1)).Nodup := by decide +kernel

theorem nodup_files : (sampleTables.files.map (·.1)).Nodup := by decide

theorem nodup_commits : (sampleTables.commits.map (·.1)).Nodup := by decide +kernel

theorem nodup_dirtrees : (sampleTables.dirtrees.map (·.1)).Nodup := by decide +kernel

theorem sha256_of_mem {b : Bytes} {c : Checksum} (h : (b, c) ∈ sampleTables.sums) :
    sampleTables.lib.sha256 b = c := tableGet_of_mem _ nodup_sums h

theorem fileChecksum_of_mem {o : FileObject} {c : Checksum} (h : (o, c) ∈ sampleTables.files) :
    sampleTables.lib.fileChecksum o = c := tableGet_of_mem _ nodup_files h

theorem fileChecksum_sampleLink : sampleTables.lib.fileChecksum sampleLink = sampleLinkSum :=
  fileChecksum_of_mem (by simp [sampleTables])

theorem fileChecksum_sampleMotd : sampleTables.lib.fileChecksum sampleMotd = sampleMotdSum :=
  fileChecksum_of_mem (by simp [sampleTables])

theorem toBytes_dirtree {d : DirTree} {b : Bytes} (h : (d, b) ∈ sampleTables.dirtrees) :
    sampleTables.lib.dirtree.toBytes d = b := tableGet_of_mem _ nodup_dirtrees h

theorem toBytes_commit {c : Commit} {b : Bytes} (h : (c, b) ∈ sampleTables.commits) :
    sampleTables.lib.commit.toBytes c = b := tableGet_of_mem _ nodup_commits h

theorem toBytes_emptyTree : sampleTables.lib.dirtree.toBytes emptyTree = [0] :=
  toBytes_dirtree (by simp [sampleTables])

theorem toBytes_sampleTree : sampleTables.lib.dirtree.toBytes sampleTree = sampleTreeBytes :=
  toBytes_dirtree (by simp [sampleTables])

theorem toBytes_sysrootTree :
    sampleTables.lib.dirtree.toBytes sysrootTree = sysrootTreeBytes :=
  toBytes_dirtree (by simp [sampleTables])

theorem toBytes_sampleMeta : sampleTables.lib.dirmeta.toBytes sampleMeta = sampleMetaBytes := by
  simp only [LibTables.lib, sampleTables, Codec.ofTable, tableGet_self]

theorem toBytes_sampleCommit :
    sampleTables.lib.commit.toBytes sampleCommit = plainCommitBytes sampleCommit :=
  toBytes_commit (by simp [sampleTables])

theorem toBytes_sysrootCommit :
    sampleTables.lib.commit.toBytes sysrootCommit = plainCommitBytes sysrootCommit :=
  toBytes_commit (by simp [sampleTables])

theorem dirtreeChecksum_emptyTree :
    sampleTables.lib.dirtreeChecksum emptyTree = emptyTreeSum := by
  rw [Libostree.dirtreeChecksum, toBytes_emptyTree]
  exact sha256_of_mem (by simp [sampleTables])

theorem dirmetaChecksum_sampleMeta :
    sampleTables.lib.dirmetaChecksum sampleMeta = sampleMetaSum := by
  rw [Libostree.dirmetaChecksum, toBytes_sampleMeta]
  exact sha256_of_mem (by simp [sampleTables])

theorem dirtreeChecksum_sampleTree :
    sampleTables.lib.dirtreeChecksum sampleTree = sampleTreeSum := by
  rw [Libostree.dirtreeChecksum, toBytes_sampleTree]
  exact sha256_of_mem (by simp [sampleTables])

theorem commitChecksum_sampleCommit :
    sampleTables.lib.commitChecksum sampleCommit = sampleCommitSum := by
  rw [Libostree.commitChecksum, toBytes_sampleCommit]
  exact sha256_of_mem (by simp [sampleTables])

theorem dirtreeChecksum_sysrootTree :
    sampleTables.lib.dirtreeChecksum sysrootTree = sysrootTreeSum := by
  rw [Libostree.dirtreeChecksum, toBytes_sysrootTree]
  exact sha256_of_mem (by simp [sampleTables])

theorem commitChecksum_sysrootCommit :
    sampleTables.lib.commitChecksum sysrootCommit = sysrootCommitSum := by
  rw [Libostree.commitChecksum, toBytes_sysrootCommit]
  exact sha256_of_mem (by simp [sampleTables])

theorem dirtreeChecksum_chunkTree :
    sampleTables.lib.dirtreeChecksum chunkTree = chunkTreeSum := by
  rw [Libostree.dirtreeChecksum, toBytes_dirtree (b := chunkTreeBytes) (by simp [sampleTables])]
  exact sha256_of_mem (by simp [sampleTables])

theorem commitChecksum_chunkCommit :
    sampleTables.lib.commitChecksum chunkCommit = chunkCommitSum := by
  rw [Libostree.commitChecksum, toBytes_commit (b := plainCommitBytes chunkCommit)
    (by simp [sampleTables])]
  exact sha256_of_mem (by simp [sampleTables])

theorem commitChecksum_emptyChunkCommit :
    sampleTables.lib.commitChecksum emptyChunkCommit = emptyChunkCommitSum := by
  rw [Libostree.commitChecksum, toBytes_commit (b := plainCommitBytes emptyChunkCommit)
    (by simp [sampleTables])]
  exact sha256_of_mem (by simp [sampleTables])

theorem ofBytes_emptyTree : sampleTables.lib.dirtree.ofBytes [0] = emptyTree := by
  simp only [LibTables.lib, sampleTables, Codec.ofTable, List.map_cons, Prod.swap_prod_mk,
    tableGet_self]

theorem ofBytes_sampleMeta : sampleTables.lib.dirmeta.ofBytes sampleMetaBytes = sampleMeta := by
  simp only [LibTables.lib, sampleTables, Codec.ofTable, List.map_cons, Prod.swap_prod_mk,
    tableGet_self]

theorem ofBytes_sampleTree : sampleTables.lib.dirtree.ofBytes sampleTreeBytes = sampleTree := by
  simp only [LibTables.lib, sampleTables, Codec.ofTable, List.map_cons, Prod.swap_prod_mk]
  rw [tableGet_of_ne (by decide +kernel), tableGet_self]

theorem ofBytes_sysrootTree :
    sampleTables.lib.dirtree.ofBytes sysrootTreeBytes = sysrootTree := by
  simp only [LibTables.lib, sampleTables, Codec.ofTable, List.map_cons, Prod.swap_prod_mk]
  rw [tableGet_of_ne (by decide +kernel), tableGet_of_ne (by decide +kernel), tableGet_self]

theorem ofBytes_sampleCommit :
    sampleTables.lib.commit.ofBytes (plainCommitBytes sampleCommit) = sampleCommit := by
  simp only [LibTables.lib, sampleTables, Codec.ofTable, List.map_cons, Prod.swap_prod_mk,
    tableGet_self]

theorem ofBytes_sysrootCommit :
    sampleTables.lib.commit.ofBytes (plainCommitBytes sysrootCommit) = sysrootCommit := by
  simp only [LibTables.lib, sampleTables, Codec.ofTable, List.map_cons, Prod.swap_prod_mk]
  rw [tableGet_of_ne (by decide +kernel), tableGet_self]

theorem isSha256_sampleCommitSum : IsSha256 sampleCommitSum :=
  sampleTables.sums_isSha256 (plainCommitBytes sampleCommit, sampleCommitSum)
    (by simp [sampleTables])

theorem isSha256_sysrootCommitSum : IsSha256 sysrootCommitSum :=
  sampleTables.sums_isSha256 (plainCommitBytes sysrootCommit, sysrootCommitSum)
    (by simp [sampleTables])

end Sample

end OstreeExt
