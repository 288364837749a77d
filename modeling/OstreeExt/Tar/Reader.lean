import OstreeExt.Tar.Export
import OstreeExt.Tree

/-!
# Reading what the writer wrote

For every kind of entry that the writer emits, what one round of the import loop does
with it.  Directories, the repository configuration and the checkout are skipped; object
files are read back.
-/

namespace OstreeExt.Tar

open OstreeExt Exec

/-- One round of the import loop on an entry of the archive: entries that the filter drops
    are skipped. -/
def readEntry (lib : Libostree) (e : Entry) : ImportM Unit :=
  match filterEntry e with
  | none => pure ()
  | some p => importEntry lib (.ok p)

/-- On an undamaged archive the import loop reads every entry. -/
theorem importObjects_entries (lib : Libostree) (es : List Entry) :
    importObjectsImpl lib (filterEntries (es.map Except.ok)) = forM es (readEntry lib) := by
  unfold importObjectsImpl
  induction es with
  | nil => rfl
  | cons e es ih =>
      rw [List.map_cons, List.forM_cons, ← ih]
      unfold readEntry filterEntries
      cases hf : filterEntry e with
      | none => simp [hf]
      | some p => simp [hf]

/-- Entries outside the repository are skipped. -/
theorem readEntry_skip {lib : Libostree} {e : Entry} (h : filterEntry e = none) (imp : Importer) :
    readEntry lib e imp = .ok ⟨⟩ imp := by
  unfold readEntry
  rw [h]
  rfl

/-- Directories are skipped. -/
theorem filterEntry_directory {e : Entry} (h : e.header.entryType = .directory) :
    filterEntry e = none := by
  unfold filterEntry
  rw [if_pos h]

/-- Entries that are not below `sysroot/ostree/repo` are skipped. -/
theorem filterEntry_outside {e : Entry} (h : stripPrefix repoPrefix e.path = none) :
    filterEntry e = none := by
  unfold filterEntry
  rw [h]
  split <;> rfl

-- ── Object files ──────────────────────────────────────────────────────────────

/-- The tar crate stores object paths as they are. -/
@[simp] theorem tarPath_objectFile (c : Checksum) (sfx : String) :
    tarPath (objectFile c sfx) = objectFile c sfx := by
  simp [tarPath, objectFile, objectsDir, repoPrefix]

/-- A stored path is stored as it is. -/
theorem tarPath_tarPath (p : Path) : tarPath (tarPath p) = tarPath p := by
  show tarPath (if p.filter (· ≠ .curDir) = [] then [.curDir] else p.filter (· ≠ .curDir)) = _
  split
  · next h => rw [tarPath, tarPath, if_pos h]; rfl
  · next h =>
    have hall : (p.filter (· ≠ Component.curDir)).filter (· ≠ Component.curDir)
        = p.filter (· ≠ .curDir) := by
      rw [List.filter_filter]
      exact List.filter_congr (fun _ _ => Bool.and_self _)
    rw [tarPath, tarPath, hall]

theorem objectFileName_ne_config (c : Checksum) (sfx : String) :
    objectFileName c sfx ≠ "config" := by
  intro h
  have hmem : '.' ∈ (objectFileName c sfx).toList := by
    rw [objectFileName_toList]
    simp
  rw [h] at hmem
  exact absurd hmem (by decide)

theorem objectFile_eq (c : Checksum) (sfx : String) :
    objectFile c sfx = repoPrefix ++
      [.normal "objects", .normal (csumFirst c), .normal (objectFileName c sfx)] := rfl

/-- The filter passes object files. -/
theorem filterEntry_object {e : Entry} {c : Checksum} {sfx : String}
    (hpath : e.path = objectFile c sfx) (hty : e.header.entryType ≠ .directory) :
    filterEntry e = some (e, [.normal "objects", .normal (csumFirst c),
      .normal (objectFileName c sfx)]) := by
  unfold filterEntry
  rw [if_neg hty, hpath, objectFile_eq, stripPrefix_append]
  have hname : Path.fileName [.normal "objects", .normal (csumFirst c),
      .normal (objectFileName c sfx)] = some (objectFileName c sfx) := rfl
  simp only [hname]
  rw [if_neg]
  simp [objectFileName_ne_config]

section Objects

variable {lib : Libostree}

/-- `import_object` on any path that ends in an object name. -/
theorem importObject_objectName {c : Checksum} (hc : IsSha256 c) {sfx : String}
    (hs : '.' ∉ sfx.toList) (e : Entry) (p : Path) :
    importObject lib e (p ++ [.normal (csumFirst c), .normal (objectFileName c sfx)])
      = importObjectAs lib e c sfx := by
  funext imp
  unfold importObject
  rw [parseObjectEntryPath_objectName hc p hs,
    bind_of_ok (liftR_ok _ _)]
  simp only
  rw [parseChecksum_objectName hc hs, bind_of_ok (liftR_ok _ _)]

/-- An object file is imported by its suffix. -/
theorem readEntry_object {e : Entry} {c : Checksum} {sfx : String} (hc : IsSha256 c)
    (hs : '.' ∉ sfx.toList) (hpath : e.path = objectFile c sfx)
    (hty : e.header.entryType ≠ .directory) :
    readEntry lib e = importObjectAs lib e c sfx := by
  unfold readEntry
  rw [filterEntry_object hpath hty]
  exact importObject_objectName hc hs e []

/-- A metadata object of at most 10 MiB is decoded. -/
theorem entryToVariant_ok {α : Type} (codec : Codec α) {e : Entry} {desc : String}
    (hty : e.header.entryType = .regular) (hsize : e.header.size = e.data.length)
    (hmax : e.data.length ≤ maxMetadataSize) :
    entryToVariant codec e desc = .ok (codec.ofBytes e.data) := by
  unfold entryToVariant validateMetadataHeader
  rw [if_neg (by simp [hty]), if_neg (by omega), bind_ok_eq, if_neg (by simp [hsize])]

/-- The entry of a metadata object or of xattrs content. -/
def dataEntry (c : Checksum) (sfx : String) (data : Bytes) : Entry :=
  { path := objectFile c sfx, header := defaultHeader .regular 0o644 data.length, data }

/-- The importer after a repository write. -/
theorem onRepo_run {α : Type} {x : RepoM α} {imp : Importer} {a : α} {r : Repo}
    (h : x imp.repo = .ok a r) : onRepo x imp = .ok a { imp with repo := r } := by
  unfold onRepo
  rw [h]

@[simp] theorem assertEq_self (c : Checksum) (imp : Importer) :
    assertEq c c imp = .ok ⟨⟩ imp := by
  unfold assertEq
  rw [if_pos rfl]
  rfl

/-- In commit mode, dirtree and dirmeta objects are imported as metadata. -/
theorem importObjectAs_metadata {ty : ObjectType} (hty : ty = .dirTree ∨ ty = .dirMeta)
    (e : Entry) (c : Checksum) {imp : Importer} {o : Option Checksum}
    (hmode : imp.data = .commit o) :
    importObjectAs lib e c (objectSuffix ty) imp = importMetadata lib e c ty imp := by
  have hparse : objtypeFromString (objectSuffix ty) = some ty := by
    rcases hty with rfl | rfl <;> decide
  have hother : ∀ t ∈ ["commit", "file", "file-xattrs", "file-xattrs-link", "xattrs"],
      objectSuffix ty ≠ t := by
    rcases hty with rfl | rfl <;> decide
  unfold importObjectAs
  rw [if_neg (hother _ (by simp)), if_neg (hother _ (by simp)), if_neg (hother _ (by simp)),
    if_neg (hother _ (by simp)), if_neg (hother _ (by simp)), hparse, okOr_some,
    bind_of_ok (liftR_ok _ _), bind_of_ok (get_run _), hmode]

/-- **A dirtree object is read back.** -/
theorem readEntry_dirtree {c : Checksum} {d : DirTree} (hsum : lib.dirtreeChecksum d = c)
    (hdec : lib.dirtree.ofBytes (lib.dirtree.toBytes d) = d)
    (hmax : (lib.dirtree.toBytes d).length ≤ maxMetadataSize) {imp : Importer}
    {o : Option Checksum} (hmode : imp.data = .commit o) :
    readEntry lib (dataEntry c "dirtree" (lib.dirtree.toBytes d)) imp
      = .ok ⟨⟩ { imp with repo := Repo.record (.wrote .dirTree c) { imp.repo with
          dirtrees := imp.repo.dirtrees.insertIfNew c d } } := by
  have hc : IsSha256 c := by rw [← hsum]; exact lib.sha256_isSha256 _
  rw [readEntry_object hc (by decide) rfl (by simp [dataEntry, defaultHeader])]
  refine (importObjectAs_metadata (.inl rfl) _ c hmode).trans ?_
  simp only [importMetadata]
  rw [entryToVariant_ok lib.dirtree rfl rfl hmax, bind_of_ok (liftR_ok _ _)]
  simp only [dataEntry, hdec]
  rw [bind_of_ok (onRepo_run (Repo.writeDirtree_run hsum _)), assertEq_self]

/-- **A dirmeta object is read back.** -/
theorem readEntry_dirmeta {c : Checksum} {m : DirMeta} (hsum : lib.dirmetaChecksum m = c)
    (hdec : lib.dirmeta.ofBytes (lib.dirmeta.toBytes m) = m)
    (hmax : (lib.dirmeta.toBytes m).length ≤ maxMetadataSize) {imp : Importer}
    {o : Option Checksum} (hmode : imp.data = .commit o) :
    readEntry lib (dataEntry c "dirmeta" (lib.dirmeta.toBytes m)) imp
      = .ok ⟨⟩ { imp with repo := Repo.record (.wrote .dirMeta c) { imp.repo with
          dirmetas := imp.repo.dirmetas.insertIfNew c m } } := by
  have hc : IsSha256 c := by rw [← hsum]; exact lib.sha256_isSha256 _
  rw [readEntry_object hc (by decide) rfl (by simp [dataEntry, defaultHeader])]
  refine (importObjectAs_metadata (.inr rfl) _ c hmode).trans ?_
  simp only [importMetadata]
  rw [entryToVariant_ok lib.dirmeta rfl rfl hmax, bind_of_ok (liftR_ok _ _)]
  simp only [dataEntry, hdec]
  rw [bind_of_ok (onRepo_run (Repo.writeDirmeta_run hsum _)), assertEq_self]

-- ── Content objects ───────────────────────────────────────────────────────────

/-- A body is read whole when the header tells its length. -/
theorem readExact_all (e : Entry) : readExact e e.data.length = .ok e.data := by
  unfold readExact
  rw [if_neg (Nat.lt_irrefl _), List.take_length]

/-- Xattrs content that has the expected checksum enters the cache. -/
theorem cacheXattrsContent_run {e : Entry} (hty : e.header.entryType = .regular)
    (hsize : e.header.size = e.data.length) (hmax : e.data.length ≤ maxXattrSize)
    (imp : Importer) :
    cacheXattrsContent lib e (some (lib.sha256 e.data)) imp = .ok (lib.sha256 e.data)
      { imp with xattrs := imp.xattrs.insert (lib.sha256 e.data) e.data } := by
  simp only [cacheXattrsContent]
  rw [if_neg (by simp [hty]), hsize, if_neg (by omega), readExact_all,
    bind_of_ok (liftR_ok _ _), if_neg (by simp)]
  rfl

/-- **Xattrs content enters the cache.** -/
theorem readEntry_xattrs {x : Bytes} (hmax : x.length ≤ maxXattrSize) (imp : Importer) :
    readEntry lib (dataEntry (lib.sha256 x) "file-xattrs" x) imp
      = .ok ⟨⟩ { imp with xattrs := imp.xattrs.insert (lib.sha256 x) x } := by
  rw [readEntry_object (lib.sha256_isSha256 _) (by decide) rfl (by simp [dataEntry, defaultHeader])]
  unfold importObjectAs
  rw [if_neg (by decide), if_neg (by decide), if_pos rfl]
  unfold processFileXattrs
  exact bind_of_ok (cacheXattrsContent_run (e := dataEntry (lib.sha256 x) "file-xattrs" x)
    rfl rfl hmax imp)

theorem isFileName_csumFirst {c : Checksum} (hc : IsSha256 c) :
    Path.IsFileName (csumFirst c) := by
  have hhex : ∀ d ∈ (csumFirst c).toList, isHexDigit d = true := by
    intro d hd
    rw [csumFirst, String.toList_ofList] at hd
    exact hc.2 d (List.mem_of_mem_take hd)
  have hlen : (csumFirst c).toList.length = 2 := by
    rw [csumFirst, String.toList_ofList, List.length_take, hc.1]
    rfl
  refine ⟨?_, ?_, ?_, fun h => isHexDigit_ne_slash (hhex _ h) rfl⟩
  · intro h; rw [h] at hlen; cases hlen
  · intro h; rw [h] at hlen; cases hlen
  · intro h
    exact isHexDigit_ne_dot (hhex '.' (by rw [h]; simp)) rfl

theorem isFileName_objectFileName {c : Checksum} (hc : IsSha256 c) {sfx : String}
    (hs : '/' ∉ sfx.toList) : Path.IsFileName (objectFileName c sfx) := by
  have hlen : 2 < (objectFileName c sfx).toList.length := by
    have hrest : (csumRest c).toList.length = 62 := by
      rw [csumRest, String.toList_ofList, List.length_drop, hc.1]
    rw [objectFileName_toList, List.length_append, hrest]
    omega
  refine ⟨?_, ?_, ?_, ?_⟩
  · intro h; rw [h] at hlen; exact absurd hlen (by decide)
  · intro h; rw [h] at hlen; exact absurd hlen (by decide)
  · intro h; rw [h] at hlen; exact absurd hlen (by decide)
  · rw [objectFileName_toList]
    intro h
    rcases List.mem_append.mp h with h | h
    · rw [csumRest, String.toList_ofList] at h
      exact isHexDigit_ne_slash (hc.2 _ (List.mem_of_mem_drop h)) rfl
    · rcases List.mem_cons.mp h with h | h
      · exact absurd h (by decide)
      · exact hs h

/-- The names in an object path. -/
def objectFileNames (c : Checksum) (sfx : String) : List String :=
  ["sysroot", "ostree", "repo", "objects", csumFirst c, objectFileName c sfx]

theorem objectFile_eq_names (c : Checksum) (sfx : String) :
    objectFile c sfx = (objectFileNames c sfx).map Component.normal := rfl

theorem isFileName_objectFileNames {c : Checksum} (hc : IsSha256 c) {sfx : String}
    (hs : '/' ∉ sfx.toList) : ∀ n ∈ objectFileNames c sfx, Path.IsFileName n := by
  intro n hn
  simp only [objectFileNames, List.mem_cons, List.not_mem_nil, or_false] at hn
  rcases hn with rfl | rfl | rfl | rfl | rfl | rfl
  · unfold Path.IsFileName; decide
  · unfold Path.IsFileName; decide
  · unfold Path.IsFileName; decide
  · unfold Path.IsFileName; decide
  · exact isFileName_csumFirst hc
  · exact isFileName_objectFileName hc hs

/-- The text of an object path parses to the object path. -/
theorem parse_render_objectFile {c : Checksum} (hc : IsSha256 c) {sfx : String}
    (hs : '/' ∉ sfx.toList) :
    Path.parse (Path.render (objectFile c sfx)) = objectFile c sfx := by
  rw [objectFile_eq_names]
  exact Path.parse_render (by simp [objectFileNames]) (isFileName_objectFileNames hc hs)

/-- The hard link from a file object to its xattrs. -/
def xattrsLinkEntry (c x : Checksum) : Entry :=
  { path := v1XattrsLinkObjectPath c, header := defaultHeader .link 0o644 0,
    linkName := some (v1XattrsObjectPath x).render }

/-- **An xattrs link is queued for the file object it names.** -/
theorem readEntry_xattrsLink {c x : Checksum} (hc : IsSha256 c) (hx : IsSha256 x)
    (imp : Importer) (hnext : imp.nextXattrs = none) :
    readEntry lib (xattrsLinkEntry c x) imp
      = .ok ⟨⟩ { imp with nextXattrs := some (c, x) } := by
  have htarget : parseXattrsLinkTarget (Path.parse (v1XattrsObjectPath x).render) = .ok x := by
    unfold v1XattrsObjectPath parseXattrsLinkTarget
    rw [parse_render_objectFile hx (by decide)]
    unfold objectFile
    rw [parseObjectEntryPath_objectName hx _ (by decide), bind_ok_eq]
    exact parseChecksum_objectName hx (by decide)
  have hpending : ensureNoPendingXattrs imp = .ok ⟨⟩ imp := by
    unfold ensureNoPendingXattrs
    rw [bind_of_ok (get_run _), hnext]
    rfl
  rw [readEntry_object hc (by decide) rfl (by simp [xattrsLinkEntry, defaultHeader])]
  unfold importObjectAs
  rw [if_neg (by decide), if_neg (by decide), if_neg (by decide), if_pos rfl]
  unfold processFileXattrsLink
  rw [bind_of_ok hpending]
  simp only [xattrsLinkEntry, defaultHeader, okOr_some]
  rw [bind_of_ok (liftR_ok _ _), htarget, bind_of_ok (liftR_ok _ _)]
  rfl

/-- An intact regular file has the file type in its mode. -/
def WellFormed : FileObject → Prop
  | .regular _ _ mode _ _ => mode &&& sIfmt = sIfreg
  | .symlink .. => True

/-- The mode that the importer rebuilds is the one that the writer cut off. -/
theorem sIfreg_or_filterMode {mode : UInt32} (h : mode &&& sIfmt = sIfreg) :
    sIfreg ||| filterMode mode = mode := by
  unfold filterMode
  rw [← h]
  apply UInt32.toBitVec_inj.mp
  ext i hi
  simp only [UInt32.toBitVec_or, UInt32.toBitVec_and, UInt32.toBitVec_not, BitVec.getElem_or,
    BitVec.getElem_and, BitVec.getElem_not]
  rw [← Bool.and_or_distrib_left, Bool.or_not_self, Bool.and_true]

/-- The link name of a symbolic link arrives as its target. -/
def TarCrate.KeepsLinks (tar : TarCrate) : Prop :=
  ∀ target, symlinkIsDenormal target = false → tar.linkName target = target

/-- The header attributes that the writer set are read back. -/
theorem headerAttrs_run {h : Header} {uid gid : UInt32} (hu : h.uid = uid.toNat)
    (hg : h.gid = gid.toNat) : headerAttrs h = .ok (uid, gid, h.mode) := by
  unfold headerAttrs
  rw [hu, hg, if_neg (Nat.not_le.mpr uid.toNat_lt), if_neg (Nat.not_le.mpr gid.toNat_lt)]
  simp

/-- The objects imported so far, with one more. -/
def ImporterMode.track (c : Checksum) : ImporterMode → ImporterMode
  | .commit o => .commit o
  | .objectSet s => .objectSet (s.insert c)

/-- The object has not been imported in this object set. -/
def ImporterMode.Fresh (c : Checksum) : ImporterMode → Prop
  | .commit _ => True
  | .objectSet s => c ∉ s

theorem trackImported_run {c : Checksum} (imp : Importer) (h : imp.data.Fresh c) :
    trackImported c imp = .ok ⟨⟩ { imp with data := imp.data.track c } := by
  unfold trackImported
  rw [bind_of_ok (get_run _)]
  cases hd : imp.data with
  | commit o =>
      simp only [ImporterMode.track, ← hd]
      rfl
  | objectSet s =>
      rw [hd] at h
      have hs : s.contains c = false := by
        rw [Bool.eq_false_iff]
        exact fun hc => h (Std.ExtTreeSet.mem_iff_contains.mpr hc)
      simp only [hs]
      rfl

/-- The repository after a content object was written. -/
def Importer.storeFile (c : Checksum) (o : FileObject) (imp : Importer) : Importer :=
  { imp with repo := Repo.record (.wrote .file c) { imp.repo with
      files := imp.repo.files.insertIfNew c o } }

section Write

variable {e : Entry} {uid gid mode : UInt32} {c : Checksum} {x : Bytes}

theorem importLargeRegfileObject_run (hattrs : headerAttrs e.header = .ok (uid, gid, mode))
    (hsum : lib.fileChecksum (.regular uid gid (sIfreg ||| mode) x e.data) = c) (imp : Importer) :
    importLargeRegfileObject lib e c x imp
      = .ok ⟨⟩ (imp.storeFile c (.regular uid gid (sIfreg ||| mode) x e.data)) := by
  unfold importLargeRegfileObject
  rw [hattrs, bind_of_ok (liftR_ok _ _)]
  simp only
  rw [bind_of_ok (onRepo_run (Repo.writeFile_run hsum _))]
  rfl

theorem importSmallRegfileObject_run (hattrs : headerAttrs e.header = .ok (uid, gid, mode))
    (hsmall : e.data.length ≤ smallRegfileSize)
    (hsum : lib.fileChecksum (.regular uid gid (sIfreg ||| mode) x e.data) = c) (imp : Importer) :
    importSmallRegfileObject lib e e.data.length c x imp
      = .ok ⟨⟩ (imp.storeFile c (.regular uid gid (sIfreg ||| mode) x e.data)) := by
  unfold importSmallRegfileObject
  rw [hattrs, bind_of_ok (liftR_ok _ _)]
  simp only
  rw [if_neg (by omega), readExact_all, bind_of_ok (liftR_ok _ _),
    bind_of_ok (onRepo_run (Repo.writeFile_run hsum _))]
  rfl

theorem importSymlinkObject_run {target : String}
    (hattrs : headerAttrs e.header = .ok (uid, gid, mode)) (hlink : e.linkName = some target)
    (hsum : lib.fileChecksum (.symlink uid gid x target) = c) (imp : Importer) :
    importSymlinkObject lib e c x imp = .ok ⟨⟩ (imp.storeFile c (.symlink uid gid x target)) := by
  unfold importSymlinkObject
  rw [hattrs, bind_of_ok (liftR_ok _ _)]
  simp only
  rw [hlink, okOr_some, bind_of_ok (liftR_ok _ _),
    bind_of_ok (onRepo_run (Repo.writeFile_run hsum _))]
  rfl

end Write

/-- The queued xattrs reference is popped, and an object that is stored is skipped. -/
theorem importContentObject_stored {c x : Checksum} {e : Entry} {imp : Importer}
    (hnext : imp.nextXattrs = some (c, x)) (hstored : c ∈ imp.repo.files) :
    importContentObject lib e c imp = .ok ⟨⟩ { imp with nextXattrs := none } := by
  unfold importContentObject
  rw [bind_of_ok (get_run _), bind_of_ok (set_run _ _), hnext]
  simp only
  rw [if_neg (by simp), if_pos (Std.ExtTreeMap.mem_iff_contains.mp hstored)]
  rfl

/-- A new object is written with its own attributes. -/
theorem importContentObject_new {tar : TarCrate} (htar : tar.KeepsLinks) {c : Checksum}
    {o : FileObject} (hsum : lib.fileChecksum o = c) (hwf : WellFormed o) {imp : Importer}
    (hnext : imp.nextXattrs = some (c, lib.sha256 o.xattrs))
    (hxattrs : imp.xattrs[lib.sha256 o.xattrs]? = some o.xattrs)
    (hstored : c ∉ imp.repo.files) :
    importContentObject lib (contentEntry tar c o) c imp
      = .ok ⟨⟩ (Importer.storeFile c o { imp with nextXattrs := none }) := by
  unfold importContentObject
  rw [bind_of_ok (get_run _), bind_of_ok (set_run _ _), hnext]
  simp only
  rw [if_neg (by simp), if_neg (fun h => hstored (Std.ExtTreeMap.mem_iff_contains.mpr h)), hxattrs]
  cases o with
  | regular uid gid mode x content =>
      have hattrs : headerAttrs (contentEntry tar c (.regular uid gid mode x content)).header
          = .ok (uid, gid, filterMode mode) := headerAttrs_run rfl rfl
      have hmode : sIfreg ||| filterMode mode = mode := sIfreg_or_filterMode hwf
      -- large and small files are read differently, and to the same effect
      have hrun : ∀ t : Importer,
          (if content.length > smallRegfileSize then
              importLargeRegfileObject lib (contentEntry tar c (.regular uid gid mode x content)) c x
            else importSmallRegfileObject lib
              (contentEntry tar c (.regular uid gid mode x content)) content.length c x) t
            = .ok ⟨⟩ (t.storeFile c (.regular uid gid mode x content)) := by
        intro t
        rw [← hmode] at hsum
        by_cases hbig : content.length > smallRegfileSize
        · rw [if_pos hbig]
          refine (importLargeRegfileObject_run hattrs hsum t).trans ?_
          rw [hmode]
          rfl
        · rw [if_neg hbig]
          refine (importSmallRegfileObject_run hattrs (Nat.not_lt.mp hbig) hsum t).trans ?_
          rw [hmode]
          rfl
      exact hrun _
  | symlink uid gid x target =>
      have hattrs : headerAttrs (contentEntry tar c (.symlink uid gid x target)).header
          = .ok (uid, gid, filterMode 0o120777) := headerAttrs_run rfl rfl
      have hlink : (contentEntry tar c (.symlink uid gid x target)).linkName = some target := by
        cases hd : symlinkIsDenormal target with
        | true => simp [contentEntry, hd]
        | false => simp [contentEntry, hd, htar target hd]
      exact importSymlinkObject_run hattrs hlink hsum _

/-- The importer after a content object: stored, popped and tracked. -/
def Importer.accept (c : Checksum) (o : FileObject) (trace : List RepoEvent) (imp : Importer) :
    Importer :=
  { imp with
    repo := { imp.repo with files := imp.repo.files.insertIfNew c o, trace }
    nextXattrs := none
    data := imp.data.track c }

/-- **A content object is read back with its own attributes and xattrs.** -/
theorem readEntry_content {tar : TarCrate} (htar : tar.KeepsLinks) {c : Checksum}
    {o : FileObject} (hsum : lib.fileChecksum o = c) (hwf : WellFormed o) (imp : Importer)
    (hnext : imp.nextXattrs = some (c, lib.sha256 o.xattrs))
    (hxattrs : imp.xattrs[lib.sha256 o.xattrs]? = some o.xattrs) (hfresh : imp.data.Fresh c) :
    ∃ trace, readEntry lib (contentEntry tar c o) imp = .ok ⟨⟩ (imp.accept c o trace) := by
  have hc : IsSha256 c := by rw [← hsum]; exact lib.fileChecksum_isSha256 _
  have hpath : (contentEntry tar c o).path = objectFile c "file" := by
    cases o <;> exact tarPath_objectFile c "file"
  have hty : (contentEntry tar c o).header.entryType ≠ .directory := by
    cases o <;> simp [contentEntry]
  rw [readEntry_object hc (by decide) hpath hty]
  unfold importObjectAs
  rw [if_neg (by decide), if_pos rfl]
  by_cases hstored : c ∈ imp.repo.files
  · rw [bind_of_ok (importContentObject_stored hnext hstored)]
    refine ⟨imp.repo.trace,
      (trackImported_run { imp with nextXattrs := none } hfresh).trans ?_⟩
    unfold Importer.accept
    rw [Std.ExtTreeMap.insertIfNew_of_mem hstored]
  · rw [bind_of_ok (importContentObject_new htar hsum hwf hnext hxattrs hstored)]
    exact ⟨_, trackImported_run (Importer.storeFile c o { imp with nextXattrs := none }) hfresh⟩

end Objects

end OstreeExt.Tar
