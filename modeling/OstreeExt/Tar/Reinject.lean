import OstreeExt.Tar.LinkTarget
import OstreeExt.Tar.Ordered
import OstreeExt.Tar.SingleChunk
import OstreeExt.Tar.Write

/-!
# Replacing the detached metadata in a stream

`reinject_detached_metadata` copies an exported stream up to its commit object, writes other
detached metadata after that, drops what was there, and copies the rest.  `setDetached` says what
that is to be, and **`reinject_exact_iff`** when it is that: the copy keeps an entry, except for a
symbolic link whose target contains `//`.  The writer puts such a target into the stream as it is;
`copy_entry` lets the library rebuild it.
-/

namespace OstreeExt.Tar

open OstreeExt Exec

-- ── The copy ──────────────────────────────────────────────────────────────────

/-- The text that a hard link is copied with.  `remap_etc_path` gives the target back as it is,
    unless it lies in `/etc`. -/
def remapEtcTarget (target : String) : String :=
  let path := Path.parse target
  if remapEtcPath path = path then target else (remapEtcPath path).render

section Reinject

variable (tar : TarCrate)

/-- `copy_entry` on an exported stream, with the path of the entry itself: here the text of a link
    name matters. -/
def copyStreamEntry (entry : Entry) : Result Entry :=
  match entry.header.entryType with
  | .symlink => do
      let target ← okOr "Invalid link" entry.linkName
      .ok { entry with path := tarPath entry.path, linkName := some (tar.linkName target), data := [] }
  | .link => do
      let target ← okOr "Invalid link" entry.linkName
      .ok { entry with
            path := tarPath entry.path
            linkName := some (tar.linkName (remapEtcTarget target))
            data := [] }
  | _ => .ok { entry with path := tarPath entry.path }

/-- A regular file with the name of a commit object. -/
def isCommitEntry (entry : Entry) : Bool :=
  entry.header.entryType = .regular ∧ ".commit".toList <:+ entry.path.render.toList

/-- The loop until the commit object: what was copied, that object if there is one, and what comes
    after it. -/
def copyToCommit : Stream → Result (List Entry × Option Entry × Stream)
  | [] => .ok ([], none, [])
  | .error msg :: _ => .error (.err msg)
  | .ok entry :: rest =>
      if isCommitEntry entry then .ok ([], some entry, rest)
      else do
        let copy ← copyStreamEntry tar entry
        let (out, commitEnt, rest) ← copyToCommit rest
        .ok (copy :: out, commitEnt, rest)

/-- What is read of the archive, or its error. -/
def readItem : Except String Entry → Result Entry
  | .ok entry => .ok entry
  | .error msg => .error (.err msg)

/-- The loop over all remaining entries. -/
def copyRest (src : Stream) : Result (List Entry) :=
  src.mapM fun item => do
    let entry ← readItem item
    copyStreamEntry tar entry

/-- The entry of `tar_append_default_data`. -/
def defaultDataEntry (path : Path) (buf : Bytes) : Entry :=
  { path := tarPath path, header := defaultHeader .regular 0o644 buf.length, data := buf }

/-- The new detached metadata object, if it is provided. -/
def detachedEntry (checksum : Checksum) (detachedBuf : Option Bytes) : List Entry :=
  (detachedBuf.map (defaultDataEntry (objectPath .commitMeta checksum))).toList

/-- The entry after the commit: it is dropped if it is detached metadata, "since we wrote a new
    one". -/
def copyNext (nextEnt : Entry) : Result (List Entry) := do
  let parsed ← parseMetadataEntry nextEnt.path
  if parsed.2 = .commitMeta then .ok []
  else do
    let copy ← copyStreamEntry tar nextEnt
    .ok [copy]

/-- `reinject_detached_metadata` -/
def reinjectDetachedMetadata (src : Stream) (detachedBuf : Option Bytes) : Result (List Entry) := do
  let (out, commitEnt, entries) ← copyToCommit tar src
  let commitEnt ← okOr "Missing commit object" commitEnt
  let (checksum, objtype) ← parseMetadataEntry commitEnt.path
  if objtype ≠ .commit then
    .error (.panic "assertion `left == right` failed")
  else do
    let commitCopy ← copyStreamEntry tar commitEnt
    let item ← okOr "Expected metadata object after commit" entries.head?
    let nextEnt ← readItem item
    let next ← copyNext tar nextEnt
    let rest ← copyRest tar entries.tail
    .ok (out ++ [commitCopy] ++ detachedEntry checksum detachedBuf ++ next ++ rest)

end Reinject

-- ── What it is to be ──────────────────────────────────────────────────────────

/-- A stream with other detached metadata: after the commit entry of `c`, the `commitmeta` entry
    that is directly there is removed, and the new one is inserted. -/
def setDetached (c : Checksum) (detachedBuf : Option Bytes) : List Entry → List Entry
  | [] => []
  | e :: es =>
      if e.path = objectPath .commit c then
        e :: (detachedEntry c detachedBuf ++
          if es.head?.any (fun e => e.path = objectPath .commitMeta c) then es.tail else es)
      else e :: setDetached c detachedBuf es

/-- **Replacing detached metadata**: the last writer wins, and nothing else changes. -/
structure ReplacesDetached (tar : TarCrate) (c : Checksum) (es : List Entry) : Prop where
  /-- Replacing twice is replacing once, with the later buffer. -/
  last_wins : ∀ a b, ∃ es', reinjectDetachedMetadata tar (es.map .ok) a = .ok es' ∧
    reinjectDetachedMetadata tar (es'.map .ok) b = reinjectDetachedMetadata tar (es.map .ok) b
  /-- The result is the stream with the other metadata in its place. -/
  result : ∀ b, reinjectDetachedMetadata tar (es.map .ok) b = .ok (setDetached c b es)

/-- A symbolic link whose target contains `//`. -/
def DenormalLink (e : Entry) : Prop :=
  e.header.entryType = .symlink ∧ ∃ target, e.linkName = some target ∧
    symlinkIsDenormal target = true

-- ── Copies of exported entries ────────────────────────────────────────────────

/-- What the copy does to an exported entry: a copy of the copy is the same again, and the first
    one is the entry itself unless that is a denormal link. -/
structure CopiesTo (tar : TarCrate) (e e' : Entry) : Prop where
  copy : copyStreamEntry tar e = .ok e'
  again : copyStreamEntry tar e' = .ok e'
  same_iff : e' = e ↔ ¬ DenormalLink e

/-- An entry that the copy has to keep, or to normalize for good. -/
def Copies (tar : TarCrate) (e : Entry) : Prop := ∃ e', CopiesTo tar e e'

section Copies

variable {tar : TarCrate} {e e' : Entry} {es : List Entry} {c x : Checksum} {sfx : String}

/-- An entry that the copy keeps. -/
theorem Copies.of_kept (hcopy : copyStreamEntry tar e = .ok e) (h : ¬ DenormalLink e) :
    Copies tar e :=
  ⟨e, hcopy, hcopy, iff_of_true rfl h⟩

/-- An entry that is no link, under a path as the library stores it. -/
theorem copyStreamEntry_plain (hpath : tarPath e.path = e.path)
    (hlink : e.header.entryType ≠ .link) (hsymlink : e.header.entryType ≠ .symlink) :
    copyStreamEntry tar e = .ok e := by
  unfold copyStreamEntry
  cases hty : e.header.entryType with
  | symlink => exact absurd hty hsymlink
  | link => exact absurd hty hlink
  | regular => show Except.ok { e with path := tarPath e.path } = _; rw [hpath]
  | directory => show Except.ok { e with path := tarPath e.path } = _; rw [hpath]
  | other flag => show Except.ok { e with path := tarPath e.path } = _; rw [hpath]

theorem Copies.plain (hpath : tarPath e.path = e.path) (hlink : e.header.entryType ≠ .link)
    (hsymlink : e.header.entryType ≠ .symlink) : Copies tar e :=
  .of_kept (copyStreamEntry_plain hpath hlink hsymlink) fun h => hsymlink h.1

theorem Copies.data (c : Checksum) (sfx : String) (data : Bytes) :
    Copies tar (dataEntry c sfx data) :=
  .plain (tarPath_objectFile c sfx) (by simp [dataEntry, defaultHeader])
    (by simp [dataEntry, defaultHeader])

theorem Copies.dir (p : Path) (m : DirMeta) : Copies tar (dirEntry p m) :=
  .plain (tarPath_tarPath p) (by simp [dirEntry]) (by simp [dirEntry])

/-- The target of a link to an object is copied as it is. -/
theorem remapEtcTarget_objectFile (hx : IsSha256 x) (hsfx : '/' ∉ sfx.toList) :
    remapEtcTarget (objectFile x sfx).render = (objectFile x sfx).render := by
  simp only [remapEtcTarget]
  rw [parse_render_objectFile hx hsfx]
  exact if_pos rfl

theorem rebuildTarget_objectFile (hx : IsSha256 x) (hsfx : '/' ∉ sfx.toList) :
    rebuildTarget (objectFile x sfx).render = (objectFile x sfx).render := by
  rw [objectFile_eq_names]
  exact rebuildTarget_render (by simp [objectFileNames]) (isFileName_objectFileNames hx hsfx)

/-- A hard link to an object is kept. -/
theorem Copies.link (htar : ∀ target, tar.linkName target = rebuildTarget target)
    (hx : IsSha256 x) (hsfx : '/' ∉ sfx.toList) (hpath : tarPath e.path = e.path)
    (hty : e.header.entryType = .link) (hlink : e.linkName = some (objectFile x sfx).render)
    (hdata : e.data = []) : Copies tar e := by
  refine .of_kept ?_ fun h => absurd (hty.symm.trans h.1) (by simp)
  unfold copyStreamEntry
  rw [hty, hlink]
  show Except.ok { e with
    path := tarPath e.path
    linkName := some (tar.linkName (remapEtcTarget (objectFile x sfx).render))
    data := [] } = _
  rw [htar, remapEtcTarget_objectFile hx hsfx, rebuildTarget_objectFile hx hsfx, hpath, ← hlink,
    ← hdata]

/-- The copy of a symbolic link. -/
theorem copyStreamEntry_symlink (htar : ∀ target, tar.linkName target = rebuildTarget target)
    {target : String} (hpath : tarPath e.path = e.path) (hty : e.header.entryType = .symlink)
    (hlink : e.linkName = some target) (hdata : e.data = []) :
    copyStreamEntry tar e = .ok { e with linkName := some (rebuildTarget target) } := by
  unfold copyStreamEntry
  rw [hty, hlink]
  show Except.ok { e with
    path := tarPath e.path
    linkName := some (tar.linkName target)
    data := [] } = _
  rw [htar, hpath, ← hdata]

/-- A symbolic link is normalized. -/
theorem Copies.symlink (htar : ∀ target, tar.linkName target = rebuildTarget target)
    {target : String} (hpath : tarPath e.path = e.path) (hty : e.header.entryType = .symlink)
    (hlink : e.linkName = some target) (hdata : e.data = [])
    (hstable : rebuildTarget target = target ↔ symlinkIsDenormal target = false) :
    Copies tar e := by
  refine ⟨_, copyStreamEntry_symlink htar hpath hty hlink hdata, ?_, ?_⟩
  · have hagain := @copyStreamEntry_symlink tar { e with linkName := some (rebuildTarget target) }
      htar (rebuildTarget target) hpath hty rfl hdata
    rw [rebuildTarget_rebuildTarget] at hagain
    exact hagain
  · have hden : ¬ DenormalLink e ↔ symlinkIsDenormal target = false := by
      rw [← Bool.not_eq_true, DenormalLink, hlink]
      simp [hty]
    rw [hden, ← hstable]
    constructor
    · intro h
      have hname := congrArg Entry.linkName h
      rw [hlink] at hname
      exact Option.some.inj hname
    · intro h
      rw [h, ← hlink]

/-- A content object. -/
theorem Copies.content (htar : ∀ target, tar.linkName target = rebuildTarget target) (c : Checksum)
    (o : FileObject) : Copies tar (contentEntry tar c o) := by
  cases o with
  | regular uid gid mode xattrs content =>
      exact .plain (tarPath_tarPath (objectPath .file c)) (by simp [contentEntry])
        (by simp [contentEntry])
  | symlink uid gid xattrs target =>
      refine .symlink htar (tarPath_tarPath (objectPath .file c)) rfl rfl rfl ?_
      by_cases hden : symlinkIsDenormal target = true
      · rw [if_pos hden, rebuildTarget_eq_iff, hden]
        simp
      · rw [if_neg hden, htar]
        exact iff_of_true (rebuildTarget_rebuildTarget target) (rebuildTarget_clean target).1

/-- The link from a content object to its xattrs. -/
theorem Copies.xattrsLink (htar : ∀ target, tar.linkName target = rebuildTarget target)
    (c : Checksum) (hx : IsSha256 x) : Copies tar (xattrsLinkEntry c x) :=
  .link htar hx (show '/' ∉ "file-xattrs".toList by decide)
    (tarPath_objectFile c "file-xattrs-link") rfl rfl rfl

/-- The entry of a file in the checkout. -/
theorem Copies.hardlink (htar : ∀ target, tar.linkName target = rebuildTarget target)
    (hc : IsSha256 c) (h : HeaderBuf) (n : Nat) (dest : Path) :
    Copies tar (hardlinkEntry (objectPath .file c) h n dest) := by
  rw [hardlinkEntry]
  by_cases hempty : h.entryType = .regular ∧ n = 0
  · rw [if_pos hempty]
    exact .plain (tarPath_tarPath dest) (by simp) (by simp)
  · rw [if_neg hempty]
    exact .link htar hc (show '/' ∉ "file".toList by decide) (tarPath_tarPath dest) rfl rfl rfl

end Copies

-- ── What the writer emits ─────────────────────────────────────────────────────

/-- The objects of the repository are stored under SHA-256 checksums. -/
structure KeyedBySha256 (src : Repo) : Prop where
  files : ∀ x o, src.files[x]? = some o → IsSha256 x
  commits : ∀ x o, src.commits[x]? = some o → IsSha256 x
  dirmetas : ∀ x o, src.dirmetas[x]? = some o → IsSha256 x

section Emits

variable {lib : Libostree} {tar : TarCrate} {src : Repo} {H : List Entry} {c : Checksum}
  {commit : Commit} {w w' : TarWriter} {u : Unit}

/-- The writer has added to `H` only entries that the copy keeps or normalizes. -/
def Emits (tar : TarCrate) (H : List Entry) (w : TarWriter) : Prop :=
  ∃ es, w.out = H ++ es ∧ ∀ e ∈ es, Copies tar e

theorem Emits.append (h : Emits tar H w) {es : List Entry} (hout : w'.out = w.out ++ es)
    (hes : ∀ e ∈ es, Copies tar e) : Emits tar H w' := by
  obtain ⟨es', hw, hes'⟩ := h
  refine ⟨es' ++ es, by rw [hout, hw, List.append_assoc], fun e he => ?_⟩
  exact (List.mem_append.mp he).elim (hes' e) (hes e)

theorem Emits.one (h : Emits tar H w) {e : Entry} (hout : w'.out = w.out ++ [e])
    (he : Copies tar e) : Emits tar H w' :=
  h.append hout fun _ hmem => List.mem_singleton.mp hmem ▸ he

theorem Emits.same (h : Emits tar H w) (hout : w'.out = w.out) : Emits tar H w' := by
  rw [Emits, hout]
  exact h

theorem appendDirtreeObj_emits (h : Emits tar H w) {x : Checksum} {data : Bytes}
    (hrun : appendDirtreeObj x data w = .ok u w') : Emits tar H w' := by
  rw [appendDirtreeObj_run] at hrun
  by_cases hx : x ∈ w.wroteDirtree
  · rw [if_pos hx] at hrun
    injection hrun with _ hw
    exact hw ▸ h
  · rw [if_neg hx] at hrun
    injection hrun with _ hw
    exact h.one (by rw [← hw]) (.data x "dirtree" data)

theorem appendDirmetaObj_emits (h : Emits tar H w) {x : Checksum} {data : Bytes}
    (hrun : appendDirmetaObj x data w = .ok u w') : Emits tar H w' := by
  rw [appendDirmetaObj_run] at hrun
  by_cases hx : x ∈ w.wroteDirmeta
  · rw [if_pos hx] at hrun
    injection hrun with _ hw
    exact hw ▸ h
  · rw [if_neg hx] at hrun
    injection hrun with _ hw
    exact h.one (by rw [← hw]) (.data x "dirmeta" data)

/-- A content object, with what announces it. -/
theorem appendContent_emits (hkeys : KeyedBySha256 src)
    (htar : ∀ target, tar.linkName target = rebuildTarget target) (h : Emits tar H w)
    {a : Path × HeaderBuf} (hrun : appendContent lib tar src c w = .ok a w') :
    Emits tar H w' ∧ a.1 = objectPath .file c ∧ IsSha256 c := by
  cases hf : src.files[c]? with
  | none =>
      rw [appendContent_missing hf] at hrun
      exact absurd hrun (by simp)
  | some o =>
      have hc := hkeys.files c o hf
      by_cases hold : c ∈ w.wroteContent
      · rw [appendContent_old hf hold] at hrun
        injection hrun with ha hw
        exact ⟨hw ▸ h, by rw [← ha], hc⟩
      · rw [appendContent_new hf hold] at hrun
        injection hrun with ha hw
        refine ⟨h.append (by rw [← hw]) fun e he => ?_, by rw [← ha], hc⟩
        rcases List.mem_append.mp he with he | he
        · rw [xattrsEntries] at he
          rcases List.mem_append.mp he with he | he
          · by_cases hx : lib.sha256 o.xattrs ∈ w.wroteXattrs
            · rw [if_pos hx] at he
              exact absurd he List.not_mem_nil
            · rw [if_neg hx] at he
              rw [List.mem_singleton.mp he]
              exact .data _ _ _
          · rw [List.mem_singleton.mp he]
            exact .xattrsLink htar c (lib.sha256_isSha256 _)
        · rw [List.mem_singleton.mp he]
          exact .content htar c o

theorem appendContentHardlink_emits
    (htar : ∀ target, tar.linkName target = rebuildTarget target) (hc : IsSha256 c)
    (h : Emits tar H w) {hb : HeaderBuf} {dest : Path}
    (hrun : appendContentHardlink tar (objectPath .file c) hb dest w = .ok u w') :
    Emits tar H w' := by
  obtain ⟨n, _, rfl⟩ := appendContentHardlink_ok hrun
  exact h.one rfl (.hardlink htar hc hb n dest)

/-- A file of the walk. -/
theorem appendFile_emits (hkeys : KeyedBySha256 src)
    (htar : ∀ target, tar.linkName target = rebuildTarget target) (h : Emits tar H w) {p : Path}
    {f : String × Checksum} (hrun : appendFile lib tar src p f w = .ok u w') : Emits tar H w' := by
  rw [appendFile] at hrun
  obtain ⟨a, w₁, hcontent, hlink⟩ := bind_ok hrun
  obtain ⟨h₁, ha, hc⟩ := appendContent_emits hkeys htar h hcontent
  obtain ⟨objpath, hb⟩ := a
  obtain rfl : objpath = objectPath .file f.2 := ha
  exact appendContentHardlink_emits htar hc h₁ hlink

/-- The walk. -/
theorem appendDirtree_emits (hkeys : KeyedBySha256 src)
    (htar : ∀ target, tar.linkName target = rebuildTarget target) (h : Emits tar H w) {fuel : Nat}
    {p : Path} {b : Bool} (hrun : appendDirtree lib tar src fuel p c b w = .ok u w') :
    Emits tar H w' := by
  refine appendDirtree_preserves (I := Emits tar H) (D := fun _ _ _ => True)
    ?_ ?_ ?_ ?_ ?_ ?_ fuel trivial h hrun
  · intro _ _ _ _ _ _ _ _ _
    trivial
  · intro _ _ _ _ _ h hobj
    exact appendDirtreeObj_emits h hobj
  · intro _ _ _ _ _ h hobj
    exact appendDirmetaObj_emits h hobj
  · intro _ _ _ _ _ _ _ _ _ _ _ h hfile
    exact appendFile_emits hkeys htar h hfile
  · intro _ p _ _ s m w _ _ _ _ h
    exact h.one rfl (.dir _ m)
  · intro _ h
    exact h.same rfl

theorem appendStandardVar_emits (h : Emits tar H w) (hrun : appendStandardVar w = .ok u w') :
    Emits tar H w' := by
  rw [appendStandardVar, bind_of_ok (get_run _)] at hrun
  by_cases hv : w.wroteVartmp = true
  · rw [if_pos hv] at hrun
    injection hrun with _ hrun
    exact hrun ▸ h
  · rw [if_neg hv] at hrun
    injection hrun with _ hrun
    exact h.one (by rw [← hrun]) (.plain rfl (by simp) (by simp))

/-- A chunk. -/
theorem writeChunk_emits (hkeys : KeyedBySha256 src)
    (htar : ∀ target, tar.linkName target = rebuildTarget target) (h : Emits tar H w)
    {m : ChunkMapping} (hrun : writeChunk lib tar src m w = .ok u w') : Emits tar H w' := by
  rw [writeChunk_eq] at hrun
  refine forM_invariant (fun item _ t t' u ht hstep => ?_) h hrun
  rw [writeItem] at hstep
  obtain ⟨a, t₁, hcontent, hlinks⟩ := bind_ok hstep
  obtain ⟨ht₁, ha, hx⟩ := appendContent_emits hkeys htar ht hcontent
  obtain ⟨objpath, hb⟩ := a
  obtain rfl : objpath = objectPath .file item.1 := ha
  exact forM_invariant (fun p _ s s' u hs hlink => appendContentHardlink_emits htar hx hs hlink)
    ht₁ hlinks

/-- What `write_commit` emits: the head, and then entries that are kept or normalized. -/
theorem writeCommit_emits (hkeys : KeyedBySha256 src)
    (htar : ∀ target, tar.linkName target = rebuildTarget target) {fuel : Nat} {b : Bool}
    (hrun : writeCommit lib tar src fuel c commit { structureOnly := b } = .ok u w') :
    ∃ m, src.dirmetas[commit.dirmeta]? = some m ∧
      Emits tar (headWriter lib src b c commit m).out w' := by
  cases hm : src.dirmetas[commit.dirmeta]? with
  | none =>
      rw [writeCommit, Repo.loadDirmeta, hm, okOr, bind_of_error (liftR_error _ _)] at hrun
      exact absurd hrun (by simp)
  | some m =>
      rw [writeCommit_head hm b fuel] at hrun
      obtain ⟨_, w₁, hwalk, hvar⟩ := bind_ok hrun
      have h₀ : Emits tar (headWriter lib src b c commit m).out (headWriter lib src b c commit m) :=
        ⟨[], (List.append_nil _).symm, by simp⟩
      exact ⟨m, rfl, appendStandardVar_emits (appendDirtree_emits hkeys htar h₀ hwalk) hvar⟩

end Emits

-- ── Streams with a commit ─────────────────────────────────────────────────────

/-- The entries of an exported commit: what comes before the commit object, that object, detached
    metadata if there is any, the metadata of the root directory, and the rest. -/
def commitStream (pre : List Entry) (c : Checksum) (commit : Bytes) (cm : Option Bytes)
    (x : Checksum) (m : Bytes) (es : List Entry) : List Entry :=
  pre ++ dataEntry c "commit" commit :: (detachedEntry c cm ++ dataEntry x "dirmeta" m :: es)

/-- Entries that are passed over, and kept, on the way to the commit object. -/
def Passed (tar : TarCrate) (pre : List Entry) : Prop :=
  ∀ e ∈ pre, isCommitEntry e = false ∧ copyStreamEntry tar e = .ok e

section Stream

variable {lib : Libostree} {tar : TarCrate} {src : Repo} {pre es es' : List Entry} {c x : Checksum}
  {d m : Bytes} {cm : Option Bytes} {e : Entry} {commit : Commit}

theorem copyStreamEntry_data (c : Checksum) (sfx : String) (data : Bytes) :
    copyStreamEntry tar (dataEntry c sfx data) = .ok (dataEntry c sfx data) :=
  copyStreamEntry_plain (tarPath_objectFile c sfx) (by simp [dataEntry, defaultHeader])
    (by simp [dataEntry, defaultHeader])

/-- An object path names its object and its type. -/
theorem parseMetadataEntry_objectPath (hc : IsSha256 c) (ty : ObjectType) :
    parseMetadataEntry (objectPath ty c) = .ok (c, ty) :=
  parseMetadataEntry_objectName hc objectsDir ty

theorem detachedEntry_eq (c : Checksum) (cm : Option Bytes) :
    detachedEntry c cm = (cm.map (dataEntry c "commitmeta")).toList := by
  have hentry : defaultDataEntry (objectPath .commitMeta c) = dataEntry c "commitmeta" := by
    funext buf
    show { path := tarPath (objectFile c "commitmeta"), header := _, data := buf : Entry } = _
    rw [tarPath_objectFile]
    rfl
  rw [detachedEntry, hentry]

/-- The loop stops at the commit object. -/
theorem copyToCommit_run (hpre : Passed tar pre) (he : isCommitEntry e = true) (es : List Entry) :
    copyToCommit tar ((pre ++ e :: es).map .ok) = .ok (pre, some e, es.map .ok) := by
  induction pre with
  | nil =>
      rw [List.nil_append, List.map_cons, copyToCommit, if_pos he]
  | cons e' pre ih =>
      obtain ⟨hnot, hcopy⟩ := hpre e' (List.mem_cons_self ..)
      have hrest := ih fun e'' h => hpre e'' (List.mem_cons_of_mem _ h)
      rw [List.cons_append, List.map_cons, copyToCommit, if_neg (by simp [hnot]), hcopy, bind_ok_eq,
        hrest]
      rfl

/-- Joined pieces end in the last one. -/
theorem suffix_joinChar (ch : Char) (ps : List (List Char)) (q : List Char) :
    q <:+ joinChar ch (ps ++ [q]) := by
  induction ps with
  | nil => exact List.suffix_rfl
  | cons p ps ih =>
      obtain ⟨r, rs, hcons⟩ := List.exists_cons_of_ne_nil (List.append_ne_nil_of_right_ne_nil ps
        (List.cons_ne_nil q []))
      rw [hcons] at ih
      rw [List.cons_append, hcons, joinChar]
      exact (ih.trans (List.suffix_cons ch _)).trans (List.suffix_append p _)

/-- The text of an object path ends in its suffix. -/
theorem isCommitEntry_dataEntry (c : Checksum) (data : Bytes) :
    isCommitEntry (dataEntry c "commit" data) = true := by
  rw [isCommitEntry, decide_eq_true_iff]
  refine ⟨rfl, ?_⟩
  show ".commit".toList <:+ (objectFile c "commit").render.toList
  have hroot : ∀ p ∈ objectFile c "commit", p ≠ .rootDir := by
    simp [objectFile, objectsDir, repoPrefix]
  have hlast : (objectFileName c "commit").toList = (csumRest c).toList ++ ".commit".toList :=
    objectFileName_toList c "commit"
  rw [render_toList_of_ne hroot]
  have hname : (objectFileName c "commit").toList <:+
      joinChar '/' ((objectFile c "commit").map Path.Component.text) :=
    suffix_joinChar '/' ["sysroot".toList, "ostree".toList, "repo".toList, "objects".toList,
      (csumFirst c).toList] _
  rw [hlast] at hname
  exact (List.suffix_append _ _).trans hname

/-- The rest of an exported stream is copied, and the copy is kept. -/
theorem copyRest_run (hes : ∀ e ∈ es, Copies tar e) :
    ∃ es', copyRest tar (es.map .ok) = .ok es' ∧ copyRest tar (es'.map .ok) = .ok es' ∧
      (es' = es ↔ ∀ e ∈ es, ¬ DenormalLink e) := by
  induction es with
  | nil => exact ⟨[], rfl, rfl, by simp⟩
  | cons e es ih =>
      obtain ⟨e', hcopy, hagain, hsame⟩ := hes e (List.mem_cons_self ..)
      obtain ⟨es', hrest, hrestAgain, hrestSame⟩ := ih fun e' h => hes e' (List.mem_cons_of_mem _ h)
      have hcons : ∀ {e e' : Entry} {es es' : List Entry}, copyStreamEntry tar e = .ok e' →
          copyRest tar (es.map .ok) = .ok es' →
          copyRest tar ((e :: es).map .ok) = .ok (e' :: es') := by
        intro e e' es es' he hes
        rw [copyRest] at hes
        rw [List.map_cons, copyRest, List.mapM_cons, readItem, bind_ok_eq, he, bind_ok_eq, hes]
        rfl
      refine ⟨e' :: es', hcons hcopy hrest, hcons hagain hrestAgain, ?_⟩
      rw [List.cons.injEq, hsame, hrestSame, List.forall_mem_cons]

/-- The entry after the commit: detached metadata is dropped. -/
theorem copyNext_commitmeta (hc : IsSha256 c) (data : Bytes) :
    copyNext tar (dataEntry c "commitmeta" data) = .ok [] := by
  rw [copyNext]
  show (parseMetadataEntry (objectPath .commitMeta c) >>= _) = _
  rw [parseMetadataEntry_objectPath hc, bind_ok_eq]
  rfl

theorem copyNext_dirmeta (hx : IsSha256 x) (data : Bytes) :
    copyNext tar (dataEntry x "dirmeta" data) = .ok [dataEntry x "dirmeta" data] := by
  rw [copyNext]
  show (parseMetadataEntry (objectPath .dirMeta x) >>= _) = _
  rw [parseMetadataEntry_objectPath hx, bind_ok_eq, if_neg (by simp), copyStreamEntry_data]
  rfl

/-- **The rewrite of an exported stream.** -/
theorem reinject_commitStream (hpre : Passed tar pre) (hc : IsSha256 c) (hx : IsSha256 x)
    (hes : copyRest tar (es.map .ok) = .ok es') (b : Option Bytes) :
    reinjectDetachedMetadata tar ((commitStream pre c d cm x m es).map .ok) b =
      .ok (commitStream pre c d b x m es') := by
  have hparse : parseMetadataEntry (dataEntry c "commit" d).path = .ok (c, .commit) :=
    parseMetadataEntry_objectPath hc .commit
  have hcopy : copyStreamEntry tar (dataEntry c "commit" d) = .ok (dataEntry c "commit" d) :=
    copyStreamEntry_data c "commit" d
  -- what is left after the entry that follows the commit, whether that is dropped or kept
  have hnext : ∃ item rest next rest', detachedEntry c cm ++ dataEntry x "dirmeta" m :: es = item :: rest ∧
      copyNext tar item = .ok next ∧ copyRest tar (rest.map .ok) = .ok rest' ∧
      next ++ rest' = dataEntry x "dirmeta" m :: es' := by
    have hkeep : copyNext tar (dataEntry x "dirmeta" m) = .ok [dataEntry x "dirmeta" m] :=
      copyNext_dirmeta hx m
    rw [detachedEntry_eq]
    cases cm with
    | none => exact ⟨_, _, _, _, rfl, hkeep, hes, rfl⟩
    | some data =>
        refine ⟨_, _, _, dataEntry x "dirmeta" m :: es', rfl, copyNext_commitmeta hc data, ?_, rfl⟩
        rw [copyRest] at hes
        show copyRest tar (.ok (dataEntry x "dirmeta" m) :: es.map .ok) = _
        rw [copyRest, List.mapM_cons, readItem, bind_ok_eq, copyStreamEntry_data, bind_ok_eq, hes]
        rfl
  obtain ⟨item, rest, next, rest', hsplit, hitem, hrest, hout⟩ := hnext
  rw [commitStream, hsplit, reinjectDetachedMetadata,
    copyToCommit_run hpre (isCommitEntry_dataEntry c d), bind_ok_eq]
  simp only [okOr_some, bind_ok_eq, hparse]
  rw [if_neg (by simp), hcopy, bind_ok_eq, List.map_cons, List.head?_cons, List.tail_cons, okOr_some,
    bind_ok_eq, readItem, bind_ok_eq, hitem, bind_ok_eq, hrest, bind_ok_eq, commitStream, ← hout]
  simp only [List.append_assoc, List.cons_append, List.nil_append]

/-- What the rewrite is to make of it. -/
theorem setDetached_commitStream (hpre : ∀ e ∈ pre, e.path ≠ objectPath .commit c) (b : Option Bytes) :
    setDetached c b (commitStream pre c d cm x m es) = commitStream pre c d b x m es := by
  induction pre with
  | nil =>
      have hpath : (dataEntry c "commit" d).path = objectPath .commit c := rfl
      rw [commitStream, List.nil_append, setDetached, if_pos hpath, commitStream, List.nil_append,
        detachedEntry_eq c cm]
      cases cm with
      | none =>
          have hother : (dataEntry x "dirmeta" m).path ≠ objectPath .commitMeta c :=
            fun h => absurd (objectFile_inj (by decide) (by decide) h).2 (by decide)
          rw [Option.map_none, Option.toList_none, List.nil_append, List.head?_cons, Option.any_some,
            if_neg (by simp [hother])]
      | some data =>
          have hsame : (dataEntry c "commitmeta" data).path = objectPath .commitMeta c := rfl
          rw [Option.map_some, Option.toList_some, List.singleton_append, List.head?_cons,
            Option.any_some, if_pos (by simp [hsame]), List.tail_cons]
  | cons e pre ih =>
      have hrest := ih fun e' h => hpre e' (List.mem_cons_of_mem _ h)
      rw [commitStream] at hrest
      rw [commitStream, List.cons_append, setDetached, if_neg (hpre e (List.mem_cons_self ..)), hrest]
      rfl

/-- The entries before the commit object are passed over. -/
theorem prelude_passed (tar : TarCrate) (m : DirMeta) : ∀ e ∈ preludeEntries m, isCommitEntry e = false ∧
    copyStreamEntry tar e = .ok e ∧ ¬ DenormalLink e := by
  intro e he
  have hkinds : ∀ e ∈ repoStructureEntries, isCommitEntry e = false ∧ tarPath e.path = e.path ∧
      e.header.entryType ≠ .link ∧ e.header.entryType ≠ .symlink := by
    decide +kernel
  rcases List.mem_cons.mp he with rfl | he
  · refine ⟨by simp [isCommitEntry, dirEntry], copyStreamEntry_plain rfl (by simp [dirEntry])
      (by simp [dirEntry]), fun h => absurd h.1 (by simp [dirEntry])⟩
  · obtain ⟨hcommit, hpath, hlink, hsymlink⟩ := hkinds e he
    exact ⟨hcommit, copyStreamEntry_plain hpath hlink hsymlink, fun h => hsymlink h.1⟩

/-- A stream with a commit, as the exports write it. -/
structure ExportedStream (tar : TarCrate) (c : Checksum) (es : List Entry) : Prop where
  shape : ∃ root d cm x m rest, es = commitStream (preludeEntries root) c d cm x m rest ∧
    IsSha256 x ∧ ∀ e ∈ rest, Copies tar e
  checksum : IsSha256 c

/-- **Streams that the writer began with a commit.** -/
theorem Emits.exported {root : DirMeta} {b : Bool} {w : TarWriter} (hc : IsSha256 c)
    (hx : IsSha256 commit.dirmeta) (h : Emits tar (headWriter lib src b c commit root).out w) :
    ExportedStream tar c w.out := by
  obtain ⟨rest, hout, hrest⟩ := h
  refine ⟨⟨root, lib.commit.toBytes commit, src.commitmetas[c]?.map lib.dict.toBytes,
    commit.dirmeta, lib.dirmeta.toBytes root, rest, ?_, hx, hrest⟩, hc⟩
  rw [hout, headWriter, headEntries, commitStream, detachedEntry_eq, Option.map_map]
  simp only [List.append_assoc, List.cons_append, List.nil_append]
  rfl

/-- The streams of `export_commit` and `export_final_chunk`. -/
theorem exportedStream (hkeys : KeyedBySha256 src)
    (htar : ∀ target, tar.linkName target = rebuildTarget target)
    (hes : (∃ fuel rev, src.requireRev rev = .ok c ∧ exportCommit lib tar src fuel rev = .ok es) ∨
      ∃ fuel remainder, exportFinalChunk lib tar src fuel c remainder = .ok es) :
    ExportedStream tar c es := by
  rcases hes with ⟨fuel, rev, hrev, h⟩ | ⟨fuel, remainder, h⟩
  · rw [exportCommit, hrev, bind_ok_eq] at h
    obtain ⟨commit, hload, hrun⟩ := result_bind_eq_ok.mp h
    have hcommit := hkeys.commits c commit (okOr_eq_ok.mp hload)
    obtain ⟨u, w, hw, rfl⟩ := runWriter_eq_ok hrun
    obtain ⟨root, hroot, hemits⟩ := writeCommit_emits hkeys htar hw
    exact hemits.exported hcommit (hkeys.dirmetas _ _ hroot)
  · rw [exportFinalChunk] at h
    obtain ⟨commit, hload, hrun⟩ := result_bind_eq_ok.mp h
    have hcommit := hkeys.commits c commit (okOr_eq_ok.mp hload)
    obtain ⟨u, w, hw, rfl⟩ := runWriter_eq_ok hrun
    obtain ⟨_, w₁, hset, hw₁⟩ := bind_ok hw
    injection hset with _ hset
    subst hset
    obtain ⟨_, w₂, hhead, hw₂⟩ := bind_ok hw₁
    obtain ⟨root, hroot, hemits⟩ := writeCommit_emits hkeys htar hhead
    obtain ⟨_, w₃, hunset, hchunk⟩ := bind_ok hw₂
    injection hunset with _ hunset
    have hemits₃ : Emits tar _ w₃ := hemits.same (by rw [← hunset])
    exact (writeChunk_emits hkeys htar hemits₃ hchunk).exported hcommit (hkeys.dirmetas _ _ hroot)

/-- The rewrite of an exported stream is what it is to be, if no link in it is denormal. -/
theorem ExportedStream.replaces_iff (h : ExportedStream tar c es) :
    ReplacesDetached tar c es ↔ ∀ e ∈ es, ¬ DenormalLink e := by
  obtain ⟨⟨root, d, cm, x, m, rest, rfl, hx, hrest⟩, hc⟩ := h
  have hpre : Passed tar (preludeEntries root) :=
    fun e he => ⟨(prelude_passed tar root e he).1, (prelude_passed tar root e he).2.1⟩
  obtain ⟨rest', hcopy, hagain, hsame⟩ := copyRest_run hrest
  have hset : ∀ b, setDetached c b (commitStream (preludeEntries root) c d cm x m rest) =
      commitStream (preludeEntries root) c d b x m rest :=
    setDetached_commitStream fun e he => (prelude_other root e he).1 c "commit"
  have hlinks : (∀ e ∈ commitStream (preludeEntries root) c d cm x m rest, ¬ DenormalLink e) ↔
      ∀ e ∈ rest, ¬ DenormalLink e := by
    have hdata : ∀ y sfx data, ¬ DenormalLink (dataEntry y sfx data) :=
      fun y sfx data h => absurd h.1 (by simp [dataEntry, defaultHeader])
    have hhead : ∀ e ∈ preludeEntries root, ¬ DenormalLink e :=
      fun e he => (prelude_passed tar root e he).2.2
    rw [commitStream, detachedEntry_eq, List.forall_mem_append, and_iff_right hhead,
      List.forall_mem_cons, and_iff_right (hdata c "commit" d), List.forall_mem_append,
      List.forall_mem_cons, and_iff_right (hdata x "dirmeta" m)]
    refine and_iff_right fun e he => ?_
    obtain ⟨data, _, rfl⟩ := Option.map_eq_some_iff.mp (Option.mem_toList.mp he)
    exact hdata c "commitmeta" data
  rw [hlinks, ← hsame]
  constructor
  · intro hreplaces
    have hrun := hreplaces.result none
    rw [reinject_commitStream hpre hc hx hcopy, hset, commitStream, commitStream] at hrun
    injection hrun with hrun
    injection List.append_cancel_left hrun with _ hrun
    injection List.append_cancel_left hrun with _ hrun
  · intro heq
    refine ⟨fun a b => ⟨_, reinject_commitStream hpre hc hx hcopy a, ?_⟩, fun b => ?_⟩
    · rw [reinject_commitStream hpre hc hx hagain, reinject_commitStream hpre hc hx hcopy]
    · rw [reinject_commitStream hpre hc hx hcopy, hset, heq]

end Stream

-- ── Main result ───────────────────────────────────────────────────────────────

/-- **Every file of a commit is in its stream** as the writer puts it there. -/
theorem contentEntry_mem_export {lib : Libostree} {tar : TarCrate} {src : Repo} {rev : String}
    {c x : Checksum} {commit : Commit} {fuel : Nat} {f : FileObject} {es : List Entry}
    (hrev : src.requireRev rev = .ok c) (hcommit : src.commits[c]? = some commit)
    (hcomplete : src.Complete commit) (hdepth : src.DepthLt fuel commit.contents)
    (hfile : ∀ d, src.dirtrees[commit.contents]? = some d → ∀ f ∈ d.files, f.1 ≠ "sysroot")
    (hdist : XattrsDistinct lib src.toObjects fun f => src.CommitReaches commit .file f)
    (hes : exportCommit lib tar src fuel rev = .ok es)
    (hx : x ∈ objectsOf .file (visits src.toObjects false fuel tarPathPrefixV0 commit.contents true))
    (hf : src.files[x]? = some f) : contentEntry tar x f ∈ es := by
  obtain ⟨m, R, w, hm, hwalk, rfl, _⟩ := exportCommit_traced hrev hcommit hcomplete hdepth hfile hes
  have hemitted := visits_emitted hdist (visits_ok hcomplete hdepth hfile false)
    (headWriter_emitted hm false) hwalk
  have hmem : contentEntry tar x f ∈ objectFiles lib tar src.toObjects x := by
    rw [objectFiles, hf]
    simp [contentEntries]
  refine List.mem_append_left _ ((hemitted.mem _ ?_).mpr (List.mem_append_right _ ?_))
  · exact inSysroot_of_path (contentEntry_path x f)
  · exact mem_visits_objectFiles.mpr (.inr ⟨x, hx, hmem⟩)

def binLink : FileObject := .symlink 0 0 [] "usr//bin"

def binLinkSum : Checksum := "5a5ee8428b0c3b7c1fc524f646c44a12554a2d8d2078972c85edb721fca2c7af"

/-- A root directory with a symbolic link `bin` to `usr//bin`. -/
def binTree : DirTree := { files := [("bin", binLinkSum)], dirs := [] }

def binTreeSum : Checksum := "98dfcd203560cdc23d0e9b1518ce2e90c55f7cd715bbd1c26ba07850d5aac056"

def binCommit : Commit := { contents := binTreeSum, dirmeta := sampleMetaSum }

def binCommitSum : Checksum := "3285e685ebdb82a3ed97fe288cbe754a539cd8d5e7884977507a67cc8a80dacc"

def binTreeBytes : Bytes := cstr "bin" ++ csumBytes binLinkSum ++ [4] ++ [37, 38]

def binTables : LibTables where
  sums := [(sampleMetaBytes, sampleMetaSum), (binTreeBytes, binTreeSum),
    (plainCommitBytes binCommit, binCommitSum)]
  files := [(binLink, binLinkSum)]
  commits := [(binCommit, plainCommitBytes binCommit)]
  dirtrees := [(binTree, binTreeBytes)]
  dirmetas := [(sampleMeta, sampleMetaBytes)]
  sums_isSha256 := by decide +kernel
  files_isSha256 := by decide +kernel

def binRepo : Repo where
  commits := (∅ : Std.ExtTreeMap Checksum Commit).insert binCommitSum binCommit
  dirtrees := (∅ : Std.ExtTreeMap Checksum DirTree).insert binTreeSum binTree
  dirmetas := (∅ : Std.ExtTreeMap Checksum DirMeta).insert sampleMetaSum sampleMeta
  files := (∅ : Std.ExtTreeMap Checksum FileObject).insert binLinkSum binLink

theorem lookup_binTree : binRepo.dirtrees[binCommit.contents]? = some binTree :=
  Std.ExtTreeMap.getElem?_insert_self

theorem lookup_binLink : binRepo.files[binLinkSum]? = some binLink :=
  Std.ExtTreeMap.getElem?_insert_self

theorem binTree_sound : SoundTree binRepo.toObjects 1 binCommit.contents := by
  refine SoundTree.node lookup_binTree (by rw [UniqueNames]; decide) (fun f hf => ?_)
    (fun s hs => absurd hs (by simp [binTree]))
  rw [List.mem_singleton.mp hf]
  exact Std.ExtTreeMap.mem_iff_lookup.mpr ⟨_, lookup_binLink⟩

theorem binCommit_rev : binRepo.requireRev binCommitSum = .ok binCommitSum :=
  if_pos (binTables.sums_isSha256 (plainCommitBytes binCommit, binCommitSum) (by simp [binTables]))

theorem binRepo_keyed : KeyedBySha256 binRepo := by
  refine ⟨fun x o hx => ?_, fun x o hx => ?_, fun x o hx => ?_⟩
  · obtain ⟨rfl, _⟩ := Std.ExtTreeMap.lookup_single hx
    exact binTables.files_isSha256 (binLink, binLinkSum) (by simp [binTables])
  · obtain ⟨rfl, _⟩ := Std.ExtTreeMap.lookup_single hx
    exact binTables.sums_isSha256 (plainCommitBytes binCommit, binCommitSum) (by simp [binTables])
  · obtain ⟨rfl, _⟩ := Std.ExtTreeMap.lookup_single hx
    exact binTables.sums_isSha256 (sampleMetaBytes, sampleMetaSum) (by simp [binTables])

/-- The commit with that link can be exported, and the link is in the stream. -/
theorem binCommit_exported : ∃ es,
    exportCommit binTables.lib rebuildingTar binRepo 1 binCommitSum = .ok es ∧
      contentEntry rebuildingTar binLinkSum binLink ∈ es := by
  have hcommit : binRepo.commits[binCommitSum]? = some binCommit :=
    Std.ExtTreeMap.getElem?_insert_self
  have hcomplete : binRepo.Complete binCommit :=
    complete_of_soundTree (Std.ExtTreeMap.mem_iff_lookup.mpr
      ⟨sampleMeta, Std.ExtTreeMap.getElem?_insert_self⟩) binTree_sound
  have hocc : (binRepo.occurrences 1 true [] binCommit.contents).map (·.2) = [binLinkSum] := by
    rw [Objects.occurrences, lookup_binTree]
    rfl
  have honce : SymlinksOnce binRepo.toObjects 1 binCommit := by
    intro x _ _ _ _ _
    rw [hocc]
    exact List.nodup_iff_count_le_one.mp (List.nodup_singleton _) x
  obtain ⟨es, hes⟩ := @exportCommit_succeeds binTables.lib rebuildingTar _ _ _ _ _ binCommit_rev
    hcommit hcomplete binTree_sound.depth
    ((relinkable_iff_symlinksOnce hcomplete _).mpr (.inr honce))
  have hroot := plainRoot_of_lookup lookup_binTree (by decide) (fun s hs => absurd hs (by simp [binTree]))
  refine ⟨es, hes, contentEntry_mem_export binCommit_rev hcommit hcomplete binTree_sound.depth
    (fun d hd f hf => (hroot.files d hd f hf).2) ?_ hes ?_ lookup_binLink⟩
  · intro f g x y _ _ hx hy _
    obtain ⟨_, rfl⟩ := Std.ExtTreeMap.lookup_single hx
    obtain ⟨_, rfl⟩ := Std.ExtTreeMap.lookup_single hy
    rfl
  · exact (mem_objectsOf_file fun ty x hx => hcomplete ty x (.inr hx)).mpr ⟨["bin"],
      mem_listing_succ.mpr ⟨binTree, lookup_binTree, .inl ⟨rfl, ("bin", binLinkSum),
        List.mem_singleton_self _, rfl, rfl⟩⟩⟩

end OstreeExt.Tar
