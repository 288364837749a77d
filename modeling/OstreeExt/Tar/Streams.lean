import OstreeExt.Tar.Chunks

/-!
# What a stream starts with

The stream of a chunk is the repository structure, then its objects in the order of their
checksums; the stream of the commit starts with the root directory.  So two chunks without
a common object have the same stream only if both are empty, and the commit's stream is
never that of a chunk.
-/

namespace OstreeExt.Tar

open OstreeExt Exec Objects

/-- The output starts in a given way, and the given objects were written. -/
structure Wrote (pre : List Entry) (F : Finset Checksum) (w : TarWriter) : Prop where
  out : pre <+: w.out
  content : w.wroteContent = F

theorem Wrote.emit {pre es : List Entry} {F : Finset Checksum} {w : TarWriter} (h : Wrote pre F w) :
    Wrote pre F { w with out := w.out ++ es } :=
  ⟨h.out.trans (List.prefix_append _ _), h.content⟩

section Streams

variable {lib : Libostree} {tar : TarCrate} {src : Repo} {c : Checksum} {commit : Commit}

-- ── A chunk ───────────────────────────────────────────────────────────────────

/-- The hard links of an object. -/
theorem hardlinks_ends {pre : List Entry} {F : Finset Checksum} {objpath : Path} {h : HeaderBuf}
    {n : Nat} (hn : h.querySize tar = .ok n) (paths : List Path) :
    Ends (Wrote pre F)
      (forM paths fun path => appendContentHardlink tar objpath h (pathForTarV1 path))
      (fun _ => Wrote pre F) := by
  refine Ends.loop (fun _ => Wrote pre F) ?_
  intro _ path _ _ w hw
  exact ⟨⟨⟩, _, appendContentHardlink_run hn w, hw.emit⟩

/-- One object of a chunk, with the entry that announces it. -/
theorem chunkItem_ends {pre : List Entry} {F : Finset Checksum} {x : Checksum}
    (hx : x ∈ src.files) (hF : x ∉ F) (paths : List Path) (w : TarWriter) (hw : Wrote pre F w) :
    ∃ w', (do
        let (objpath, h) ← appendContent lib tar src x
        forM paths fun path => appendContentHardlink tar objpath h (pathForTarV1 path)) w
        = .ok ⟨⟩ w' ∧ Wrote pre (insert x F) w' ∧
      ∃ xattrs, w.out ++ xattrsEntries lib w x xattrs <+: w'.out := by
  obtain ⟨o, ho⟩ := Std.ExtTreeMap.mem_iff_lookup.mp hx
  have hnew : x ∉ w.wroteContent := by rw [hw.content]; exact hF
  have hsize : (writtenHeader o).querySize tar = .ok o.size := by
    rw [HeaderBuf.querySize, writtenHeader_size]
  let w₁ : TarWriter := { w with
    wroteContent := insert x w.wroteContent
    wroteXattrs := insert (lib.sha256 o.xattrs) w.wroteXattrs
    out := w.out ++ (xattrsEntries lib w x o.xattrs ++ [contentEntry tar x o]) }
  have hw₁ : Wrote (w.out ++ xattrsEntries lib w x o.xattrs) (insert x F) w₁ := by
    refine ⟨?_, ?_⟩
    · show _ <+: w.out ++ (xattrsEntries lib w x o.xattrs ++ [contentEntry tar x o])
      rw [← List.append_assoc]
      exact List.prefix_append _ _
    · show insert x w.wroteContent = _
      rw [hw.content]
  have hlinks : Ends (Wrote (w.out ++ xattrsEntries lib w x o.xattrs) (insert x F))
      (forM paths fun path =>
        appendContentHardlink tar (objectPath .file x) (writtenHeader o) (pathForTarV1 path))
      (fun _ => Wrote (w.out ++ xattrsEntries lib w x o.xattrs) (insert x F)) :=
    hardlinks_ends hsize paths
  obtain ⟨_, w', hrun, hw'⟩ := hlinks w₁ hw₁
  refine ⟨w', ?_, ⟨?_, hw'.content⟩, o.xattrs, hw'.out⟩
  · rw [bind_of_ok (appendContent_new ho hnew)]
    exact hrun
  · exact hw.out.trans ((List.prefix_append _ _).trans hw'.out)

/-- The objects of a chunk, one after the other. -/
theorem chunkItems_ends {pre : List Entry} (items : List (Checksum × Nat × List Path))
    (hfiles : ∀ p ∈ items, p.1 ∈ src.files) (hnodup : (items.map (·.1)).Nodup)
    {F : Finset Checksum} (hF : ∀ p ∈ items, p.1 ∉ F) (w : TarWriter) (hw : Wrote pre F w) :
    ∃ w', (forM items fun (item : Checksum × Nat × List Path) => do
        let (objpath, h) ← appendContent lib tar src item.1
        forM item.2.2 fun path => appendContentHardlink tar objpath h (pathForTarV1 path)) w
        = .ok ⟨⟩ w' ∧ pre <+: w'.out := by
  induction items generalizing F w with
  | nil => exact ⟨w, rfl, hw.out⟩
  | cons p items ih =>
      rw [List.map_cons, List.nodup_cons] at hnodup
      obtain ⟨w₁, hrun, hw₁, _⟩ := @chunkItem_ends lib tar src pre F p.1
        (hfiles p (List.mem_cons_self ..)) (hF p (List.mem_cons_self ..)) p.2.2 w hw
      have hF' : ∀ q ∈ items, q.1 ∉ insert p.1 F := by
        intro q hq hmem
        rcases Finset.mem_insert.mp hmem with heq | hmem
        · exact hnodup.1 (heq ▸ List.mem_map_of_mem (f := (·.1)) hq)
        · exact hF q (List.mem_cons_of_mem _ hq) hmem
      obtain ⟨w', hrest, hout⟩ := ih (fun q hq => hfiles q (List.mem_cons_of_mem _ hq)) hnodup.2 hF'
        w₁ hw₁
      refine ⟨w', ?_, hout⟩
      rw [List.forM_cons, bind_of_ok hrun]
      exact hrest

/-- **`export_chunk`** succeeds on stored objects. -/
theorem exportChunk_ok (hcommit : src.commits[c]? = some commit) {m : ChunkMapping}
    (hfiles : ∀ x ∈ m, x ∈ src.files) :
    ∃ es, exportChunk lib tar src c m = .ok es ∧ (m = ∅ → es = repoStructureEntries) ∧
      ∀ x v rest, m.toList = (x, v) :: rest →
        ∃ s e tail, es = repoStructureEntries ++ e :: xattrsLinkEntry x s :: tail := by
  let w₀ : TarWriter := { wroteInitdirs := true, out := repoStructureEntries }
  have hstart : writeRepoStructure {} = .ok ⟨⟩ w₀ := writeRepoStructure_run rfl
  have hnodup := Std.ExtTreeMap.nodup_keys_toList m
  have hkeys : ∀ p ∈ m.toList, p.1 ∈ src.files := fun p hp =>
    hfiles p.1 (Std.ExtTreeMap.mem_iff_lookup.mpr ⟨p.2, Std.ExtTreeMap.mem_toList_iff.mp hp⟩)
  have hexport : ∀ w, writeChunk lib tar src m w₀ = .ok ⟨⟩ w →
      exportChunk lib tar src c m = .ok w.out := by
    intro w hw
    rw [exportChunk, Repo.loadCommit, hcommit, okOr_some, bind_ok_eq, runWriter, bind_of_ok hstart,
      hw]
  cases hl : m.toList with
  | nil =>
      have hrun : writeChunk lib tar src m w₀ = .ok ⟨⟩ w₀ := by
        rw [writeChunk, hl]
        rfl
      exact ⟨_, hexport w₀ hrun, fun _ => rfl, fun x v rest h => absurd h (by simp)⟩
  | cons p rest =>
      rw [hl, List.map_cons, List.nodup_cons] at hnodup
      have hhead := hkeys p (by rw [hl]; exact List.mem_cons_self ..)
      obtain ⟨w₁, hrun₁, hw₁, x, hout₁⟩ := @chunkItem_ends lib tar src repoStructureEntries ∅ p.1
        hhead (Finset.notMem_empty _) p.2.2 w₀ ⟨List.prefix_refl _, rfl⟩
      have hrest : ∀ q ∈ rest, q.1 ∉ (insert p.1 ∅ : Finset Checksum) := by
        intro q hq hmem
        rcases Finset.mem_insert.mp hmem with heq | hmem
        · exact hnodup.1 (heq ▸ List.mem_map_of_mem (f := (·.1)) hq)
        · exact absurd hmem (Finset.notMem_empty _)
      obtain ⟨w', hrun', hout'⟩ := chunkItems_ends rest
        (fun q hq => hkeys q (by rw [hl]; exact List.mem_cons_of_mem _ hq)) hnodup.2 hrest w₁
        ⟨hout₁, hw₁.content⟩
      have hrun : writeChunk lib tar src m w₀ = .ok ⟨⟩ w' := by
        rw [writeChunk, hl, List.forM_cons, bind_of_ok hrun₁]
        exact hrun'
      refine ⟨_, hexport w' hrun, fun hm => ?_, fun y v rest' h => ?_⟩
      · have hmem : p.1 ∈ m := Std.ExtTreeMap.mem_iff_mem_keys_toList.mpr (by rw [hl]; simp)
        rw [hm] at hmem
        exact absurd hmem Std.ExtTreeMap.not_mem_empty
      · obtain ⟨rfl, rfl⟩ := List.cons.inj h
        obtain ⟨tail, htail⟩ := hout'
        -- no xattrs were written before, so they come first
        have hentries : xattrsEntries lib w₀ y x
            = [dataEntry (lib.sha256 x) "file-xattrs" x, xattrsLinkEntry y (lib.sha256 x)] := by
          rw [xattrsEntries, if_neg (Finset.notMem_empty _)]
          rfl
        refine ⟨lib.sha256 x, dataEntry (lib.sha256 x) "file-xattrs" x, tail, ?_⟩
        rw [← htail, hentries, List.append_assoc]
        rfl

-- ── The commit ────────────────────────────────────────────────────────────────

/-- A step of the walk that writes the structure only. -/
theorem visit_ends {pre : List Entry} {v : Visit} (hv : ∀ p f, v ≠ .file p f) :
    Ends (Wrote pre ∅) (v.run lib tar src) (fun _ => Wrote pre ∅) := by
  intro w hw
  cases v with
  | dirtree x d =>
      rw [Visit.run, appendDirtreeObj_run]
      split
      · exact ⟨⟨⟩, w, rfl, hw⟩
      · exact ⟨⟨⟩, _, rfl, ⟨hw.out.trans (List.prefix_append _ _), hw.content⟩⟩
  | dirmeta x m =>
      rw [Visit.run, appendDirmetaObj_run]
      split
      · exact ⟨⟨⟩, w, rfl, hw⟩
      · exact ⟨⟨⟩, _, rfl, ⟨hw.out.trans (List.prefix_append _ _), hw.content⟩⟩
  | enter p =>
      rw [Visit.run, noteVartmp]
      split
      · exact ⟨⟨⟩, _, rfl, ⟨hw.out, hw.content⟩⟩
      · exact ⟨⟨⟩, w, rfl, hw⟩
  | dir p m => exact ⟨⟨⟩, _, rfl, hw.emit⟩
  | file p f => exact absurd rfl (hv p f)

/-- **`export_final_chunk`** succeeds on a commit that is stored completely; its stream
    starts with the root directory. -/
theorem exportFinalChunk_ok (hcommit : src.commits[c]? = some commit)
    (hcomplete : src.Complete commit) {fuel : Nat} (hdepth : src.DepthLt fuel commit.contents)
    {remainder : Chunk} (hfiles : ∀ x ∈ remainder.content, x ∈ src.files) :
    ∃ es m tail, exportFinalChunk lib tar src fuel c remainder = .ok es ∧
      es = dirEntry tarPathPrefixV0 m :: tail := by
  obtain ⟨m, hm⟩ := Std.ExtTreeMap.mem_iff_lookup.mp (hcomplete .dirMeta _ (.inl ⟨rfl, rfl⟩))
  let pre : List Entry := [dirEntry tarPathPrefixV0 m]
  let w₀ := headWriter lib src true c commit m
  have hw₀ : Wrote pre ∅ w₀ := ⟨⟨_, rfl⟩, rfl⟩
  have hwalk : Ends (Wrote pre ∅) (forM (visits src.toObjects true fuel tarPathPrefixV0
      commit.contents true) (Visit.run lib tar src)) (fun _ => Wrote pre ∅) := by
    refine Ends.loop (fun _ => Wrote pre ∅) ?_
    intro before v after hsplit
    refine visit_ends ?_
    rintro p f rfl
    have hmem : Visit.file p f ∈ visits src.toObjects true fuel tarPathPrefixV0
        commit.contents true := by
      rw [hsplit]
      simp
    exact file_not_mem_structure hmem
  have htree : appendDirtree lib tar src fuel tarPathPrefixV0 commit.contents true w₀ = _ :=
    appendDirtree_eq_visits (fun ty x hx => hcomplete ty x (.inr hx)) hdepth _ _ _
  obtain ⟨_, w₁, hrun₁, hw₁⟩ := hwalk w₀ hw₀
  have hvar : Ends (Wrote pre ∅) appendStandardVar (fun _ => Wrote pre ∅) := by
    intro w hw
    rw [appendStandardVar, bind_of_ok (get_run _)]
    split
    · exact ⟨⟨⟩, w, rfl, hw⟩
    · exact ⟨⟨⟩, _, rfl, hw.emit⟩
  obtain ⟨_, w₂, hrun₂, hw₂⟩ := hvar w₁ hw₁
  have hkeys : ∀ p ∈ remainder.content.toList, p.1 ∈ src.files := fun p hp =>
    hfiles p.1 (Std.ExtTreeMap.mem_iff_lookup.mpr ⟨p.2, Std.ExtTreeMap.mem_toList_iff.mp hp⟩)
  obtain ⟨w₃, hrun₃, tail, hout⟩ := @chunkItems_ends lib tar src pre remainder.content.toList hkeys
    (Std.ExtTreeMap.nodup_keys_toList _) ∅ (fun _ _ => Finset.notMem_empty _)
    { w₂ with structureOnly := false } ⟨hw₂.out, hw₂.content⟩
  refine ⟨w₃.out, m, tail, ?_, hout.symm⟩
  have hset : setStructureOnly true {} = .ok ⟨⟩ ({ structureOnly := true } : TarWriter) := rfl
  have hhead : writeCommit lib tar src fuel c commit { structureOnly := true } = .ok ⟨⟩ w₂ := by
    rw [writeCommit_head hm true fuel, bind_of_ok (htree.trans hrun₁), hrun₂]
  have hlast : setStructureOnly false w₂ = .ok ⟨⟩ { w₂ with structureOnly := false } := rfl
  have hchunk : writeChunk lib tar src remainder.content { w₂ with structureOnly := false }
      = .ok ⟨⟩ w₃ := hrun₃
  rw [exportFinalChunk, Repo.loadCommit, hcommit, okOr_some, bind_ok_eq, runWriter, bind_of_ok hset,
    bind_of_ok hhead, bind_of_ok hlast, hchunk]

-- ── Which streams are equal ───────────────────────────────────────────────────

/-- The stream of a chunk. -/
def chunkStream (lib : Libostree) (tar : TarCrate) (src : Repo) (c : Checksum) (m : ChunkMapping) :
    List Entry :=
  match exportChunk lib tar src c m with
  | .ok es => es
  | .error _ => []

/-- The stream of the commit and the remainder. -/
def finalStream (lib : Libostree) (tar : TarCrate) (src : Repo) (fuel : Nat) (c : Checksum)
    (remainder : Chunk) : List Entry :=
  match exportFinalChunk lib tar src fuel c remainder with
  | .ok es => es
  | .error _ => []

/-- The announcement of an object names it. -/
theorem xattrsLinkEntry_inj {x y s t : Checksum} (h : xattrsLinkEntry x s = xattrsLinkEntry y t) :
    x = y := by
  have hpath : v1XattrsLinkObjectPath x = v1XattrsLinkObjectPath y := congrArg Entry.path h
  have hlast := List.append_cancel_left hpath
  injection hlast with hfirst hrest
  injection hfirst with hfirst
  injection hrest with hrest _
  injection hrest with hrest
  have hlist : (objectFileName x "file-xattrs-link").toList
      = (objectFileName y "file-xattrs-link").toList := congrArg String.toList hrest
  rw [objectFileName_toList, objectFileName_toList] at hlist
  have hrest' : csumRest x = csumRest y := String.toList_inj.mp (List.append_cancel_right hlist)
  rw [← csumFirst_append_csumRest x, ← csumFirst_append_csumRest y, hfirst, hrest']

/-- **Chunks with the same stream** have a common object, or none at all. -/
theorem chunkStream_eq (hcommit : src.commits[c]? = some commit) {m m' : ChunkMapping}
    (hm : ∀ x ∈ m, x ∈ src.files) (hm' : ∀ x ∈ m', x ∈ src.files)
    (h : chunkStream lib tar src c m = chunkStream lib tar src c m') :
    (m = ∅ ∧ m' = ∅) ∨ ∃ x, x ∈ m ∧ x ∈ m' := by
  obtain ⟨es, hes, hempty, hfirst⟩ := @exportChunk_ok lib tar src c commit hcommit m hm
  obtain ⟨es', hes', hempty', hfirst'⟩ := @exportChunk_ok lib tar src c commit hcommit m' hm'
  rw [chunkStream, chunkStream, hes, hes'] at h
  have hes : es = es' := h
  have hnil : ∀ k : ChunkMapping, k.toList = [] → k = ∅ := fun k =>
    Std.ExtTreeMap.eq_empty_of_toList
  cases hl : m.toList with
  | nil =>
      cases hl' : m'.toList with
      | nil => exact .inl ⟨hnil m hl, hnil m' hl'⟩
      | cons p rest =>
          obtain ⟨s, e, tail, htail⟩ := hfirst' p.1 p.2 rest hl'
          rw [← hes, hempty (hnil m hl)] at htail
          exact absurd (congrArg List.length htail) (by simp)
  | cons p rest =>
      obtain ⟨s, e, tail, htail⟩ := hfirst p.1 p.2 rest hl
      cases hl' : m'.toList with
      | nil =>
          rw [hes, hempty' (hnil m' hl')] at htail
          exact absurd (congrArg List.length htail) (by simp)
      | cons q rest' =>
          obtain ⟨s', e', tail', htail'⟩ := hfirst' q.1 q.2 rest' hl'
          have hsame := htail.symm.trans (hes.trans htail')
          have htails := List.append_cancel_left hsame
          injection htails with _ htails
          injection htails with hlink _
          have hkey : ∀ {k : ChunkMapping} {p : Checksum × Nat × List Path}
              {l : List (Checksum × Nat × List Path)}, k.toList = p :: l → p.1 ∈ k := by
            intro k p l hk
            refine Std.ExtTreeMap.mem_iff_lookup.mpr ⟨p.2, Std.ExtTreeMap.mem_toList_iff.mp ?_⟩
            rw [hk]
            exact List.mem_cons_self ..
          refine .inr ⟨p.1, hkey hl, ?_⟩
          rw [xattrsLinkEntry_inj hlink]
          exact hkey hl'

/-- **The commit's stream is not that of a chunk.** -/
theorem finalStream_ne (hcommit : src.commits[c]? = some commit) (hcomplete : src.Complete commit)
    {fuel : Nat} (hdepth : src.DepthLt fuel commit.contents) {remainder : Chunk}
    (hrem : ∀ x ∈ remainder.content, x ∈ src.files) {m : ChunkMapping}
    (hm : ∀ x ∈ m, x ∈ src.files) :
    finalStream lib tar src fuel c remainder ≠ chunkStream lib tar src c m := by
  obtain ⟨es, d, tail, hes, htail⟩ := @exportFinalChunk_ok lib tar src c commit hcommit hcomplete
    fuel hdepth remainder hrem
  obtain ⟨es', hes', hempty, hfirst⟩ := @exportChunk_ok lib tar src c commit hcommit m hm
  rw [finalStream, chunkStream, hes, hes']
  intro h
  have h : es = es' := h
  have hstarts : repoStructureEntries <+: es' := by
    cases hl : m.toList with
    | nil =>
        rw [hempty (Std.ExtTreeMap.eq_empty_of_toList hl)]
    | cons p rest =>
        obtain ⟨s, e, tail', htail'⟩ := hfirst p.1 p.2 rest hl
        exact ⟨_, htail'.symm⟩
  have hsysroot : repoStructureEntries.head?.map Entry.path = some [.normal "sysroot"] := rfl
  obtain ⟨rest, hrest⟩ := hstarts
  have hpath : es'.head?.map Entry.path = some [.normal "sysroot"] := by
    rw [← hrest, List.head?_append]
    exact hsysroot
  rw [← h, htail] at hpath
  exact absurd hpath (by simp [dirEntry, tarPath, tarPathPrefixV0])

end Streams

end OstreeExt.Tar
