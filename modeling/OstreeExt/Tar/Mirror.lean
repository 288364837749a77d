import OstreeExt.Lib.Relay
import OstreeExt.Tar.Reader

/-!
# The importer mirrors the writer

The simulation between the two machines.  `Mirror` relates a writer and the importer that
has read its output so far: the importer's store is the store it started from, overlaid
with those objects of the source that are in the writer's sets; every xattrs content the
writer has emitted is in the importer's cache; and no xattrs reference is pending.  Each
primitive of the writer keeps the relation.
-/

namespace OstreeExt.Tar

open OstreeExt Exec

section Intact

variable (lib : Libostree)

/-- A stored dirtree as `fsck` accepts it, of a size that the importer accepts. -/
def IntactDirtree (o : Objects) (c : Checksum) (d : DirTree) : Prop :=
  o.dirtrees[c]? = some d ∧ lib.dirtreeChecksum d = c ∧
    lib.dirtree.ofBytes (lib.dirtree.toBytes d) = d ∧
    (lib.dirtree.toBytes d).length ≤ maxMetadataSize

/-- A stored dirmeta, likewise. -/
def IntactDirmeta (o : Objects) (c : Checksum) (m : DirMeta) : Prop :=
  o.dirmetas[c]? = some m ∧ lib.dirmetaChecksum m = c ∧
    lib.dirmeta.ofBytes (lib.dirmeta.toBytes m) = m ∧
    (lib.dirmeta.toBytes m).length ≤ maxMetadataSize

/-- A stored content object, likewise. -/
def IntactFile (o : Objects) (c : Checksum) (f : FileObject) : Prop :=
  o.files[c]? = some f ∧ lib.fileChecksum f = c ∧ WellFormed f ∧
    f.xattrs.length ≤ maxXattrSize

/-- The object is stored intact. -/
def Intact (o : Objects) : ObjectType → Checksum → Prop
  | .dirTree, c => ∃ d, IntactDirtree lib o c d
  | .dirMeta, c => ∃ m, IntactDirmeta lib o c m
  | .file, c => ∃ f, IntactFile lib o c f
  | _, _ => False

/-- SHA-256 tells apart the xattrs of the content objects in a set. -/
def XattrsDistinct (o : Objects) (scope : Checksum → Prop) : Prop :=
  ∀ f g x y, scope f → scope g → o.files[f]? = some x → o.files[g]? = some y →
    lib.sha256 x.xattrs = lib.sha256 y.xattrs → x.xattrs = y.xattrs

/-- Intact objects are present. -/
theorem Intact.has {lib : Libostree} {o : Objects} {ty : ObjectType} {c : Checksum}
    (h : Intact lib o ty c) : o.Has ty c := by
  cases ty with
  | commit => exact h.elim
  | commitMeta => exact h.elim
  | dirTree => obtain ⟨d, hd, _⟩ := h; exact Std.ExtTreeMap.mem_iff_lookup.mpr ⟨d, hd⟩
  | dirMeta => obtain ⟨m, hm, _⟩ := h; exact Std.ExtTreeMap.mem_iff_lookup.mpr ⟨m, hm⟩
  | file => obtain ⟨f, hf, _⟩ := h; exact Std.ExtTreeMap.mem_iff_lookup.mpr ⟨f, hf⟩

end Intact

/-- The importer's mode: a commit, or the object set of the content written so far. -/
def Tracks (mode : Option (Option Checksum)) (F : Finset Checksum) (data : ImporterMode) : Prop :=
  match mode with
  | some o => data = .commit o
  | none => ∃ s, data = .objectSet s ∧ ∀ c, c ∈ s ↔ c ∈ F

/-- A store overlaid with the written part of another one. -/
def Overlay {α : Type} (base src : Std.ExtTreeMap Checksum α) (wrote : Finset Checksum)
    (m : Std.ExtTreeMap Checksum α) : Prop :=
  ∀ c, m[c]? = base[c]?.or (if c ∈ wrote then src[c]? else none)

/-- Storing an object of the source extends the overlay by it. -/
theorem Overlay.insertIfNew {α : Type} {base src m : Std.ExtTreeMap Checksum α}
    {wrote : Finset Checksum} (h : Overlay base src wrote m) {k : Checksum} {a : α}
    (hk : src[k]? = some a) : Overlay base src (insert k wrote) (m.insertIfNew k a) := by
  intro c
  rw [Std.ExtTreeMap.lookup_insertIfNew, h c, Option.or_assoc]
  congr 1
  by_cases hc : k = c
  · subst hc
    rw [if_pos rfl, if_pos (Finset.mem_insert_self ..), hk]
    by_cases hw : k ∈ wrote
    · rw [if_pos hw]; rfl
    · rw [if_neg hw]; rfl
  · rw [if_neg hc, Option.or_none]
    have hiff : c ∈ insert k wrote ↔ c ∈ wrote := by
      rw [Finset.mem_insert]
      exact ⟨fun hm => hm.resolve_left (fun h' => hc h'.symm), .inr⟩
    simp only [hiff]

/-- What both machines have done so far. -/
structure Mirror (lib : Libostree) (src : Objects) (scope : Checksum → Prop) (base : Repo)
    (mode : Option (Option Checksum)) (T M F : Finset Checksum) (w : TarWriter)
    (imp : Importer) : Prop where
  wroteDirtree : w.wroteDirtree = T
  wroteDirmeta : w.wroteDirmeta = M
  wroteContent : w.wroteContent = F
  dirtrees : Overlay base.dirtrees src.dirtrees T imp.repo.dirtrees
  dirmetas : Overlay base.dirmetas src.dirmetas M imp.repo.dirmetas
  files : Overlay base.files src.files F imp.repo.files
  commits : imp.repo.commits = base.commits
  commitmetas : imp.repo.commitmetas = base.commitmetas
  refs : imp.repo.refs = base.refs
  xattrs : ∀ x ∈ w.wroteXattrs, ∃ f o, scope f ∧ src.files[f]? = some o ∧
    lib.sha256 o.xattrs = x ∧ imp.xattrs[x]? = some o.xattrs
  nextXattrs : imp.nextXattrs = none
  data : Tracks mode F imp.data

section Primitives

variable {lib : Libostree} {tar : TarCrate} {src : Repo} {scope : Checksum → Prop}
  {base : Repo} {mode : Option (Option Checksum)} {T M F : Finset Checksum}

/-- Relays between the writer and the import loop. -/
abbrev Carries (lib : Libostree) {α : Type} (I : TarWriter → Importer → Prop) (x : ExportM α)
    (J : α → TarWriter → Importer → Prop) : Prop :=
  Relay TarWriter.out (readEntry lib) I x J

/-- The relation does not look at the output. -/
theorem Mirror.out {w : TarWriter} {imp : Importer} {es : List Entry}
    (h : Mirror lib src.toObjects scope base mode T M F w imp) :
    Mirror lib src.toObjects scope base mode T M F { w with out := es } imp :=
  { h with }

@[simp] theorem emit_run (e : Entry) (w : TarWriter) :
    emit e w = .ok ⟨⟩ { w with out := w.out ++ [e] } := rfl

/-- An entry that the importer skips. -/
theorem carries_skip {e : Entry} (he : filterEntry e = none) :
    Carries lib (Mirror lib src.toObjects scope base mode T M F) (emit e)
      (fun _ => Mirror lib src.toObjects scope base mode T M F) := by
  refine Relay.item (fun w imp h => ?_)
  exact ⟨⟨⟩, { w with out := w.out ++ [e] }, e, imp, rfl, rfl, readEntry_skip he imp, h.out⟩

/-- The writer after a data entry. -/
theorem appendDefaultData_run (c : Checksum) (sfx : String) (data : Bytes) (w : TarWriter) :
    appendDefaultData (objectFile c sfx) data w
      = .ok ⟨⟩ { w with out := w.out ++ [dataEntry c sfx data] } := by
  unfold appendDefaultData
  rw [tarPath_objectFile]
  rfl

theorem appendDirtreeObj_run (c : Checksum) (data : Bytes) (w : TarWriter) :
    appendDirtreeObj c data w = if c ∈ w.wroteDirtree then .ok ⟨⟩ w
      else .ok ⟨⟩ { w with wroteDirtree := insert c w.wroteDirtree,
                           out := w.out ++ [dataEntry c "dirtree" data] } := by
  unfold appendDirtreeObj
  rw [bind_of_ok (get_run _)]
  by_cases h : c ∈ w.wroteDirtree
  · rw [if_pos h, if_pos h]; rfl
  · rw [if_neg h, if_neg h, bind_of_ok (modify_run _ _)]
    exact appendDefaultData_run c "dirtree" data _

theorem appendDirmetaObj_run (c : Checksum) (data : Bytes) (w : TarWriter) :
    appendDirmetaObj c data w = if c ∈ w.wroteDirmeta then .ok ⟨⟩ w
      else .ok ⟨⟩ { w with wroteDirmeta := insert c w.wroteDirmeta,
                           out := w.out ++ [dataEntry c "dirmeta" data] } := by
  unfold appendDirmetaObj
  rw [bind_of_ok (get_run _)]
  by_cases h : c ∈ w.wroteDirmeta
  · rw [if_pos h, if_pos h]; rfl
  · rw [if_neg h, if_neg h, bind_of_ok (modify_run _ _)]
    exact appendDefaultData_run c "dirmeta" data _

/-- A dirtree object arrives. -/
theorem carries_dirtree {o : Option Checksum} {c : Checksum} {d : DirTree}
    (hd : IntactDirtree lib src.toObjects c d) :
    Carries lib (Mirror lib src.toObjects scope base (some o) T M F)
      (appendDirtreeObj c (lib.dirtree.toBytes d))
      (fun _ => Mirror lib src.toObjects scope base (some o) (insert c T) M F) := by
  intro w imp h
  by_cases hc : c ∈ w.wroteDirtree
  · refine ⟨⟨⟩, w, [], imp, ?_, by simp, rfl, ?_⟩
    · rw [appendDirtreeObj_run, if_pos hc]
    · rw [h.wroteDirtree] at hc
      rw [Finset.insert_eq_of_mem hc]
      exact h
  · have hrun := (appendDirtreeObj_run c (lib.dirtree.toBytes d) w).trans (if_neg hc)
    have hread := readEntry_dirtree hd.2.1 hd.2.2.1 hd.2.2.2 h.data
    refine ⟨⟨⟩, _, [_], _, hrun, rfl, forM_single hread, ?_⟩
    exact { h with
      wroteDirtree := by simp only [h.wroteDirtree]
      dirtrees := h.dirtrees.insertIfNew hd.1 }

/-- A dirmeta object arrives. -/
theorem carries_dirmeta {o : Option Checksum} {c : Checksum} {m : DirMeta}
    (hm : IntactDirmeta lib src.toObjects c m) :
    Carries lib (Mirror lib src.toObjects scope base (some o) T M F)
      (appendDirmetaObj c (lib.dirmeta.toBytes m))
      (fun _ => Mirror lib src.toObjects scope base (some o) T (insert c M) F) := by
  intro w imp h
  by_cases hc : c ∈ w.wroteDirmeta
  · refine ⟨⟨⟩, w, [], imp, ?_, by simp, rfl, ?_⟩
    · rw [appendDirmetaObj_run, if_pos hc]
    · rw [h.wroteDirmeta] at hc
      rw [Finset.insert_eq_of_mem hc]
      exact h
  · have hrun := (appendDirmetaObj_run c (lib.dirmeta.toBytes m) w).trans (if_neg hc)
    have hread := readEntry_dirmeta hm.2.1 hm.2.2.1 hm.2.2.2 h.data
    refine ⟨⟨⟩, _, [_], _, hrun, rfl, forM_single hread, ?_⟩
    exact { h with
      wroteDirmeta := by simp only [h.wroteDirmeta]
      dirmetas := h.dirmetas.insertIfNew hm.1 }

-- ── Content ───────────────────────────────────────────────────────────────────

/-- The entries that announce a content object: its xattrs, unless they were written
    before, and the link to them. -/
def xattrsEntries (lib : Libostree) (w : TarWriter) (c : Checksum) (x : Bytes) : List Entry :=
  (if lib.sha256 x ∈ w.wroteXattrs then [] else [dataEntry (lib.sha256 x) "file-xattrs" x])
    ++ [xattrsLinkEntry c (lib.sha256 x)]

theorem appendXattrsContent_run (c : Checksum) (x : Bytes) (w : TarWriter) :
    appendXattrsContent c x w = .ok ⟨⟩ { w with
      wroteXattrs := insert c w.wroteXattrs
      out := w.out ++ if c ∈ w.wroteXattrs then [] else [dataEntry c "file-xattrs" x] } := by
  unfold appendXattrsContent
  rw [bind_of_ok (get_run _)]
  by_cases h : c ∈ w.wroteXattrs
  · rw [if_pos h, if_pos h, Finset.insert_eq_of_mem h, List.append_nil]
    rfl
  · rw [if_neg h, if_neg h, bind_of_ok (modify_run _ _)]
    exact appendDefaultData_run c "file-xattrs" x _

theorem appendXattrs_run (c : Checksum) (x : Bytes) (w : TarWriter) :
    appendXattrs lib c x w = .ok ⟨⟩ { w with
      wroteXattrs := insert (lib.sha256 x) w.wroteXattrs
      out := w.out ++ xattrsEntries lib w c x } := by
  simp only [appendXattrs]
  rw [bind_of_ok (appendXattrsContent_run _ _ _)]
  unfold appendDefaultHardlink v1XattrsLinkObjectPath xattrsEntries
  rw [tarPath_objectFile, emit_run]
  simp only [List.append_assoc]
  rfl

/-- The writer on an object that is not stored. -/
theorem appendContent_missing {c : Checksum} (hf : src.files[c]? = none) (w : TarWriter) :
    appendContent lib tar src c w
      = .error (.err ("Couldn't find file object '" ++ c ++ "'")) w := by
  simp only [appendContent, Repo.loadFile, hf, okOr]
  rw [bind_of_error (liftR_error _ _)]

/-- The writer on an object that it has already written. -/
theorem appendContent_old {c : Checksum} {o : FileObject} (hf : src.files[c]? = some o)
    {w : TarWriter} (hc : c ∈ w.wroteContent) :
    appendContent lib tar src c w = .ok (objectPath .file c, contentHeader o) w := by
  simp only [appendContent, Repo.loadFile, hf, okOr_some]
  rw [bind_of_ok (liftR_ok _ _), bind_of_ok (get_run _), if_pos hc]
  rfl

/-- The writer on a new object. -/
theorem appendContent_new {c : Checksum} {o : FileObject} (hf : src.files[c]? = some o)
    {w : TarWriter} (hc : c ∉ w.wroteContent) :
    appendContent lib tar src c w = .ok (objectPath .file c, writtenHeader o) { w with
      wroteContent := insert c w.wroteContent
      wroteXattrs := insert (lib.sha256 o.xattrs) w.wroteXattrs
      out := w.out ++ (xattrsEntries lib w c o.xattrs ++ [contentEntry tar c o]) } := by
  simp only [appendContent, Repo.loadFile, hf, okOr_some]
  rw [bind_of_ok (liftR_ok _ _), bind_of_ok (get_run _), if_neg hc, bind_of_ok (modify_run _ _),
    bind_of_ok (appendXattrs_run _ _ _), bind_of_ok (emit_run _ _)]
  simp only [List.append_assoc]
  rfl

/-- Reading the announcement of a content object leaves its xattrs in the cache and its
    reference pending. -/
theorem read_xattrsEntries (hdist : XattrsDistinct lib src.toObjects scope) {c : Checksum}
    {o : FileObject} (hc : scope c) (hf : IntactFile lib src.toObjects c o) {w : TarWriter}
    {imp : Importer} (h : Mirror lib src.toObjects scope base mode T M F w imp) :
    ∃ X : Std.ExtTreeMap Checksum Bytes,
      forM (xattrsEntries lib w c o.xattrs) (readEntry lib) imp
        = .ok ⟨⟩ { imp with xattrs := X, nextXattrs := some (c, lib.sha256 o.xattrs) } ∧
      X[lib.sha256 o.xattrs]? = some o.xattrs ∧
      ∀ y, y ≠ lib.sha256 o.xattrs → X[y]? = imp.xattrs[y]? := by
  have hcsum : IsSha256 c := by rw [← hf.2.1]; exact lib.fileChecksum_isSha256 _
  unfold xattrsEntries
  by_cases hw : lib.sha256 o.xattrs ∈ w.wroteXattrs
  · -- the content is in the cache, and it is this object's, as the checksums agree
    obtain ⟨f, o', hsf, hf', hsum, hcache⟩ := h.xattrs _ hw
    have heq : o'.xattrs = o.xattrs := hdist f c o' o hsf hc hf' hf.1 hsum
    rw [if_pos hw, List.nil_append]
    refine ⟨imp.xattrs, ?_, by rw [hcache, heq], fun _ _ => rfl⟩
    exact forM_single (readEntry_xattrsLink hcsum (lib.sha256_isSha256 _) imp h.nextXattrs)
  · rw [if_neg hw, forM_append]
    refine ⟨imp.xattrs.insert (lib.sha256 o.xattrs) o.xattrs, ?_, ?_, ?_⟩
    · rw [bind_of_ok (forM_single (readEntry_xattrs hf.2.2.2 imp))]
      exact forM_single (readEntry_xattrsLink hcsum (lib.sha256_isSha256 _)
        { imp with xattrs := imp.xattrs.insert (lib.sha256 o.xattrs) o.xattrs } h.nextXattrs)
    · rw [Std.ExtTreeMap.lookup_insert, if_pos rfl]
    · intro y hy
      rw [Std.ExtTreeMap.lookup_insert, if_neg (Ne.symm hy)]

theorem Tracks.fresh {d : ImporterMode} (h : Tracks mode F d) {c : Checksum} (hc : c ∉ F) :
    d.Fresh c := by
  cases mode with
  | some o => rw [show d = .commit o from h]; trivial
  | none =>
      obtain ⟨s, rfl, hs⟩ := h
      exact fun hmem => hc ((hs c).mp hmem)

theorem Tracks.track {d : ImporterMode} (h : Tracks mode F d) (c : Checksum) :
    Tracks mode (insert c F) (d.track c) := by
  cases mode with
  | some o => rw [show d = .commit o from h]; rfl
  | none =>
      obtain ⟨s, rfl, hs⟩ := h
      refine ⟨s.insert c, rfl, fun k => ?_⟩
      rw [Std.ExtTreeSet.mem_insert, Std.compare_eq_iff_eq, Finset.mem_insert, hs k]
      exact or_congr_left eq_comm

/-- **A content object arrives**, with the xattrs of the source. -/
theorem carries_content (htar : tar.KeepsLinks) (hdist : XattrsDistinct lib src.toObjects scope)
    {c : Checksum} {o : FileObject} (hc : scope c) (hf : IntactFile lib src.toObjects c o) :
    Carries lib (Mirror lib src.toObjects scope base mode T M F) (appendContent lib tar src c)
      (fun a w t => a = (objectPath .file c, if c ∈ F then contentHeader o else writtenHeader o)
        ∧ Mirror lib src.toObjects scope base mode T M (insert c F) w t) := by
  intro w imp h
  by_cases hw : c ∈ w.wroteContent
  · have hF : c ∈ F := by rw [← h.wroteContent]; exact hw
    refine ⟨_, w, [], imp, appendContent_old hf.1 hw, by simp, rfl, ?_, ?_⟩
    · rw [if_pos hF]
    · rw [Finset.insert_eq_of_mem hF]
      exact h
  · have hF : c ∉ F := by rw [← h.wroteContent]; exact hw
    obtain ⟨X, hann, hX, hothers⟩ := read_xattrsEntries hdist hc hf h
    obtain ⟨trace, hread⟩ := readEntry_content htar hf.2.1 hf.2.2.1
      { imp with xattrs := X, nextXattrs := some (c, lib.sha256 o.xattrs) }
      rfl hX (h.data.fresh hF)
    have hall := (bind_of_ok (f := fun _ => forM [contentEntry tar c o] (readEntry lib)) hann).trans
      (forM_single hread)
    rw [← forM_append] at hall
    refine ⟨_, _, _, _, appendContent_new hf.1 hw, rfl, hall, ?_, ?_⟩
    · rw [if_neg hF]
    · exact { h with
        wroteContent := by simp only [h.wroteContent]
        files := h.files.insertIfNew hf.1
        xattrs := by
          intro x hx
          by_cases hxc : x = lib.sha256 o.xattrs
          · subst hxc
            exact ⟨c, o, hc, hf.1, rfl, hX⟩
          · obtain ⟨f, o', hsf, hf', hsum, hcache⟩ :=
              h.xattrs x ((Finset.mem_insert.mp hx).resolve_left hxc)
            exact ⟨f, o', hsf, hf', hsum, by rw [← hcache]; exact hothers x hxc⟩
        nextXattrs := rfl
        data := h.data.track c }

/-- The size of a header that was completed is known. -/
theorem writtenHeader_size (o : FileObject) : (writtenHeader o).size = some o.size := by
  cases o <;> rfl

theorem hardlinkEntry_path (srcpath : Path) (h : HeaderBuf) (n : Nat) (dest : Path) :
    (hardlinkEntry srcpath h n dest).path = tarPath dest := by
  unfold hardlinkEntry
  split <;> rfl

theorem appendContentHardlink_run {srcpath dest : Path} {h : HeaderBuf} {n : Nat}
    (hn : h.querySize tar = .ok n) (w : TarWriter) :
    appendContentHardlink tar srcpath h dest w
      = .ok ⟨⟩ { w with out := w.out ++ [hardlinkEntry srcpath h n dest] } := by
  unfold appendContentHardlink
  rw [hn, bind_of_ok (liftR_ok _ _), emit_run]

/-- A hard link into the checkout is skipped by the importer. -/
theorem carries_hardlink {srcpath dest : Path} {h : HeaderBuf} {n : Nat}
    (hn : h.querySize tar = .ok n) (hdest : stripPrefix repoPrefix (tarPath dest) = none) :
    Carries lib (Mirror lib src.toObjects scope base mode T M F)
      (appendContentHardlink tar srcpath h dest)
      (fun _ => Mirror lib src.toObjects scope base mode T M F) := by
  refine Relay.item (fun w imp hm => ?_)
  have hskip : filterEntry (hardlinkEntry srcpath h n dest) = none :=
    filterEntry_outside (by rw [hardlinkEntry_path]; exact hdest)
  exact ⟨⟨⟩, _, _, imp, appendContentHardlink_run hn w, rfl, readEntry_skip hskip imp, hm.out⟩

end Primitives

end OstreeExt.Tar
