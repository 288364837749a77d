import OstreeExt.Tar.Listing

/-!
# What the writer leaves in the stream

Every entry of an exported stream lies in the repository below `sysroot`, or it is part of
the checkout.  The writer's sets see to it that no object is written twice, so the first part
has distinct paths on every run (`Traced`); the second part is what the walk and the chunk
put at the places of the listing, in order.
-/

namespace OstreeExt.Tar

open OstreeExt Exec Objects

/-- The entry lies below `sysroot`. -/
def inSysroot (e : Entry) : Bool := e.path.head? = some (.normal "sysroot")

/-- The objects of which the writer has emitted the file with the given suffix. -/
def TarWriter.recorded (w : TarWriter) (sfx : String) : Finset Checksum :=
  if sfx = "dirtree" then w.wroteDirtree
  else if sfx = "dirmeta" then w.wroteDirmeta
  else if sfx = "file" ∨ sfx = "file-xattrs-link" then w.wroteContent
  else if sfx = "file-xattrs" then w.wroteXattrs
  else ∅

/-- The suffixes that the writer keeps a record for. -/
def recordedSuffixes : List String :=
  ["dirtree", "dirmeta", "file", "file-xattrs-link", "file-xattrs"]

/-- **The state of a stream**: below `sysroot` there are the paths of the head, and object
    files that `R` records, none twice; the checkout is `K`. -/
structure Traced (head : List Path) (R : String → Finset Checksum) (out K : List Entry) :
    Prop where
  nodup : ((out.filter inSysroot).map (·.path)).Nodup
  known : ∀ e ∈ out, inSysroot e = true → e.path ∈ head ∨
    ∃ sfx ∈ recordedSuffixes, ∃ c ∈ R sfx, e.path = objectFile c sfx
  checkout : out.filter (fun e => !inSysroot e) = K

/-- The head has no file that is recorded later. -/
def HeadPaths (head : List Path) : Prop :=
  ∀ sfx ∈ recordedSuffixes, ∀ c, objectFile c sfx ∉ head

-- ── Object paths ──────────────────────────────────────────────────────────────

/-- **An object path names its object and its suffix.** -/
theorem objectFile_inj {c c' : Checksum} {s s' : String} (hs : '.' ∉ s.toList)
    (hs' : '.' ∉ s'.toList) (h : objectFile c s = objectFile c' s') : c = c' ∧ s = s' := by
  have hlast := List.append_cancel_left h
  injection hlast with hfirst hrest
  injection hfirst with hfirst
  injection hrest with hrest _
  injection hrest with hrest
  have hlist : (objectFileName c s).toList = (objectFileName c' s').toList :=
    congrArg String.toList hrest
  rw [objectFileName_toList, objectFileName_toList] at hlist
  have hsplit := congrArg rsplitDot hlist
  rw [rsplitDot_append _ hs, rsplitDot_append _ hs'] at hsplit
  obtain ⟨hcsum, hsfx⟩ := Prod.mk.inj (Option.some.inj hsplit)
  have hcsum' : csumRest c = csumRest c' := String.toList_inj.mp hcsum
  refine ⟨?_, String.toList_inj.mp hsfx⟩
  rw [← csumFirst_append_csumRest c, ← csumFirst_append_csumRest c', hfirst, hcsum']

theorem recordedSuffixes_dot : ∀ s ∈ recordedSuffixes, '.' ∉ s.toList := by decide

theorem inSysroot_of_path {e : Entry} {c : Checksum} {sfx : String} (h : e.path = objectFile c sfx) :
    inSysroot e = true := by
  rw [inSysroot, h]
  rfl

/-- Something that was put outside of `sysroot`. -/
theorem inSysroot_eq_false {e : Entry} {ns : List String} (h : e.path = relPath ns)
    (hns : ns.head? ≠ some "sysroot") : inSysroot e = false := by
  rw [inSysroot, h]
  cases ns with
  | nil => rfl
  | cons n ns =>
      refine decide_eq_false fun heq => hns ?_
      exact congrArg some (Component.normal.inj (Option.some.inj heq))

-- ── Steps of the writer ───────────────────────────────────────────────────────

section Steps

variable {head : List Path} {R : String → Finset Checksum} {out K : List Entry}

/-- An entry of the checkout. -/
theorem Traced.place (h : Traced head R out K) {e : Entry} (he : inSysroot e = false) :
    Traced head R (out ++ [e]) (K ++ [e]) where
  nodup := by
    rw [List.filter_append, List.filter_cons_of_neg (by simp [he]), List.filter_nil,
      List.append_nil]
    exact h.nodup
  known e' he' hin := by
    rcases List.mem_append.mp he' with he' | he'
    · exact h.known e' he' hin
    · rw [List.mem_singleton.mp he', he] at hin
      exact nomatch hin
  checkout := by
    rw [List.filter_append, h.checkout, List.filter_cons_of_pos (by simp [he]), List.filter_nil]

/-- The file of an object that is not yet on record. -/
theorem Traced.object (hhead : HeadPaths head) (h : Traced head R out K) {e : Entry}
    {c : Checksum} {sfx : String} (hsfx : sfx ∈ recordedSuffixes) (hc : c ∉ R sfx)
    (hpath : e.path = objectFile c sfx) :
    Traced head (Function.update R sfx (insert c (R sfx))) (out ++ [e]) K where
  nodup := by
    have hin := inSysroot_of_path hpath
    rw [List.filter_append, List.filter_cons_of_pos hin, List.filter_nil, List.map_append]
    refine h.nodup.append (List.nodup_singleton _) ?_
    rw [List.disjoint_left]
    intro p hp hp'
    obtain ⟨e', he', rfl⟩ := List.mem_map.mp hp
    rw [List.mem_filter] at he'
    have heq : e'.path = objectFile c sfx := (List.mem_singleton.mp hp').trans hpath
    -- the path would have come from the head, or from the record of the same object
    rcases h.known e' he'.1 he'.2 with hh | ⟨s, hs, c', hc', hp'⟩
    · rw [heq] at hh
      exact hhead sfx hsfx c hh
    · obtain ⟨rfl, rfl⟩ := objectFile_inj (recordedSuffixes_dot s hs)
        (recordedSuffixes_dot sfx hsfx) (hp'.symm.trans heq)
      exact hc hc'
  known e' he' hin := by
    rcases List.mem_append.mp he' with he' | he'
    · rcases h.known e' he' hin with hh | ⟨s, hs, c', hc', hp'⟩
      · exact .inl hh
      · refine .inr ⟨s, hs, c', ?_, hp'⟩
        by_cases heq : s = sfx
        · subst heq
          rw [Function.update_self]
          exact Finset.mem_insert_of_mem hc'
        · rw [Function.update_of_ne heq]
          exact hc'
    · rw [List.mem_singleton.mp he']
      refine .inr ⟨sfx, hsfx, c, ?_, hpath⟩
      rw [Function.update_self]
      exact Finset.mem_insert_self _ _
  checkout := by
    rw [List.filter_append, h.checkout,
      List.filter_cons_of_neg (by simp [inSysroot_of_path hpath]), List.filter_nil, List.append_nil]

/-- A record may say more than there is. -/
theorem Traced.mono (h : Traced head R out K) {R' : String → Finset Checksum}
    (hR : ∀ s ∈ recordedSuffixes, R s ⊆ R' s) : Traced head R' out K where
  nodup := h.nodup
  known e he hin := by
    rcases h.known e he hin with hh | ⟨s, hs, c, hc, hp⟩
    · exact .inl hh
    · exact .inr ⟨s, hs, c, hR s hs hc, hp⟩
  checkout := h.checkout

end Steps

-- ── The operations of the writer ──────────────────────────────────────────────

section Writer

variable {lib : Libostree} {tar : TarCrate} {src : Repo} {head : List Path} {w w' : TarWriter}
  {K : List Entry}

theorem forall_recordedSuffixes {P : String → Prop} : (∀ s ∈ recordedSuffixes, P s) ↔
    P "dirtree" ∧ P "dirmeta" ∧ P "file" ∧ P "file-xattrs-link" ∧ P "file-xattrs" := by
  simp [recordedSuffixes]

theorem appendDirtreeObj_traced (hhead : HeadPaths head) (h : Traced head w.recorded w.out K)
    {c : Checksum} {data : Bytes} {u : Unit} (hrun : appendDirtreeObj c data w = .ok u w') :
    Traced head w'.recorded w'.out K := by
  rw [appendDirtreeObj_run] at hrun
  split at hrun
  · cases hrun
    exact h
  · next hc =>
    cases hrun
    refine (h.object hhead (e := dataEntry c "dirtree" data) (by decide) hc rfl).mono ?_
    rw [forall_recordedSuffixes]
    simp [TarWriter.recorded]

theorem appendDirmetaObj_traced (hhead : HeadPaths head) (h : Traced head w.recorded w.out K)
    {c : Checksum} {data : Bytes} {u : Unit} (hrun : appendDirmetaObj c data w = .ok u w') :
    Traced head w'.recorded w'.out K := by
  rw [appendDirmetaObj_run] at hrun
  split at hrun
  · cases hrun
    exact h
  · next hc =>
    cases hrun
    refine (h.object hhead (e := dataEntry c "dirmeta" data) (by decide) hc rfl).mono ?_
    rw [forall_recordedSuffixes]
    simp [TarWriter.recorded]

/-- The xattrs of a new object. -/
theorem xattrsEntries_traced (hhead : HeadPaths head) (h : Traced head w.recorded w.out K)
    {c : Checksum} (hc : c ∉ w.wroteContent) (x : Bytes) :
    Traced head (Function.update { w with
        wroteXattrs := insert (lib.sha256 x) w.wroteXattrs }.recorded "file-xattrs-link"
          (insert c w.wroteContent)) (w.out ++ xattrsEntries lib w c x) K := by
  have hcontent : Traced head
      ({ w with wroteXattrs := insert (lib.sha256 x) w.wroteXattrs } : TarWriter).recorded
      (w.out ++ if lib.sha256 x ∈ w.wroteXattrs then []
        else [dataEntry (lib.sha256 x) "file-xattrs" x]) K := by
    split
    · next hx =>
      rw [List.append_nil, Finset.insert_eq_self.mpr hx]
      exact h
    · next hx =>
      refine (h.object hhead (e := dataEntry (lib.sha256 x) "file-xattrs" x)
        (by decide) hx rfl).mono ?_
      rw [forall_recordedSuffixes]
      simp [TarWriter.recorded]
  rw [xattrsEntries, ← List.append_assoc]
  exact hcontent.object hhead (e := xattrsLinkEntry c (lib.sha256 x)) (by decide) hc rfl

/-- The header that `append_content` returns. -/
def linkHeader (F : Finset Checksum) (c : Checksum) (f : FileObject) : HeaderBuf :=
  if c ∈ F then contentHeader f else writtenHeader f

theorem contentEntry_path (c : Checksum) (f : FileObject) :
    (contentEntry tar c f).path = objectFile c "file" := by
  cases f <;> exact tarPath_objectFile c "file"

/-- A content object, with what it returns and records. -/
theorem appendContent_traced (hhead : HeadPaths head) (h : Traced head w.recorded w.out K)
    {c : Checksum} {a : Path × HeaderBuf} (hrun : appendContent lib tar src c w = .ok a w') :
    ∃ f, src.files[c]? = some f ∧ a = (objectPath .file c, linkHeader w.wroteContent c f) ∧
      Traced head w'.recorded w'.out K ∧ w'.wroteContent = insert c w.wroteContent ∧
      w'.wroteVartmp = w.wroteVartmp := by
  cases hf : src.files[c]? with
  | none =>
      rw [appendContent_missing hf] at hrun
      exact nomatch hrun
  | some f =>
      refine ⟨f, rfl, ?_⟩
      by_cases hc : c ∈ w.wroteContent
      · rw [appendContent_old hf hc] at hrun
        cases hrun
        exact ⟨by rw [linkHeader, if_pos hc], h, (Finset.insert_eq_self.mpr hc).symm, rfl⟩
      · rw [appendContent_new hf hc] at hrun
        cases hrun
        refine ⟨by rw [linkHeader, if_neg hc], ?_, rfl, rfl⟩
        have hlink := @xattrsEntries_traced lib head w K hhead h c hc f.xattrs
        rw [← List.append_assoc]
        refine (hlink.object hhead (e := contentEntry tar c f) (by decide) ?_
          (contentEntry_path c f)).mono ?_
        · rw [Function.update_of_ne (by decide)]
          exact hc
        · rw [forall_recordedSuffixes]
          simp [TarWriter.recorded, Function.update]

theorem appendContentHardlink_ok {srcpath dest : Path} {hb : HeaderBuf} {u : Unit}
    (hrun : appendContentHardlink tar srcpath hb dest w = .ok u w') :
    ∃ n, hb.querySize tar = .ok n ∧
      w' = { w with out := w.out ++ [hardlinkEntry srcpath hb n dest] } := by
  simp only [appendContentHardlink] at hrun
  obtain ⟨n, w₁, hq, hemit⟩ := bind_ok hrun
  obtain ⟨hn, rfl⟩ := liftR_eq_ok hq
  cases hemit
  exact ⟨n, hn, rfl⟩

end Writer

-- ── The walk ──────────────────────────────────────────────────────────────────

/-- What a visit leaves in the checkout, after the content objects of `F`. -/
def Visit.checkout (tar : TarCrate) (o : Objects) (F : Finset Checksum) : Visit → List Entry
  | .dir p m => [dirEntry p m]
  | .file p f =>
      match o.files[f.2]? with
      | none => []
      | some x =>
          match (linkHeader F f.2 x).querySize tar with
          | .ok n => [hardlinkEntry (objectPath .file f.2) (linkHeader F f.2 x) n
              (mapPath (p.join f.1))]
          | .error _ => []
  | .dirtree _ _ => []
  | .dirmeta _ _ => []
  | .enter _ => []

/-- What a list of visits leaves in the checkout. -/
def checkouts (tar : TarCrate) (o : Objects) : Finset Checksum → List Visit → List Entry
  | _, [] => []
  | F, v :: vs => v.checkout tar o F ++ checkouts tar o (afterVisits .file F [v]) vs

/-- Where visits put something is outside of `sysroot`, and no directory that is entered is
    the one that `append_standard_var` looks for. -/
def Visit.Outside (v : Visit) : Prop :=
  (∀ p x, v.placed = some (p, x) → ∃ ns, p = relPath ns ∧ ns.head? ≠ some "sysroot") ∧
    ∀ p, v = .enter p → p ≠ [.normal "var", .normal "tmp"]

section Walk

variable {lib : Libostree} {tar : TarCrate} {src : Repo} {head : List Path} {w w' : TarWriter}
  {K : List Entry}

/-- **One step of the walk**, if it succeeds. -/
theorem Visit.run_traced (hhead : HeadPaths head) (h : Traced head w.recorded w.out K)
    (hvar : w.wroteVartmp = false) {v : Visit} (hv : v.Outside) {u : Unit}
    (hrun : v.run lib tar src w = .ok u w') :
    Traced head w'.recorded w'.out (K ++ v.checkout tar src.toObjects w.wroteContent) ∧
      w'.wroteVartmp = false ∧ w'.wroteContent = afterVisits .file w.wroteContent [v] ∧
      (v.checkout tar src.toObjects w.wroteContent).map (·.path)
        = (v.placed.map (·.1)).toList := by
  have hsame : ∀ us : List Visit, objectsOf .file us = [] →
      w.wroteContent = afterVisits .file w.wroteContent us := by
    intro us hus
    rw [afterVisits, hus]
    simp
  cases v with
  | dirtree c d =>
      refine ⟨?_, ?_, ?_, rfl⟩
      · rw [Visit.checkout, List.append_nil]
        exact appendDirtreeObj_traced hhead h hrun
      all_goals
        rw [Visit.run, appendDirtreeObj_run] at hrun
        split at hrun <;> cases hrun
      · exact hvar
      · exact hvar
      · exact hsame _ rfl
      · exact hsame _ rfl
  | dirmeta c m =>
      refine ⟨?_, ?_, ?_, rfl⟩
      · rw [Visit.checkout, List.append_nil]
        exact appendDirmetaObj_traced hhead h hrun
      all_goals
        rw [Visit.run, appendDirmetaObj_run] at hrun
        split at hrun <;> cases hrun
      · exact hvar
      · exact hvar
      · exact hsame _ rfl
      · exact hsame _ rfl
  | enter p =>
      rw [Visit.run, noteVartmp, if_neg (hv.2 p rfl)] at hrun
      cases hrun
      rw [Visit.checkout, List.append_nil]
      exact ⟨h, hvar, hsame _ rfl, rfl⟩
  | dir p m =>
      cases hrun
      obtain ⟨ns, hp, hns⟩ := hv.1 _ _ rfl
      exact ⟨h.place (inSysroot_eq_false hp hns), hvar, hsame _ rfl, rfl⟩
  | file p f =>
      obtain ⟨ns, hp, hns⟩ := hv.1 _ _ rfl
      rw [Visit.run] at hrun
      obtain ⟨a, w₁, hcontent, hlink⟩ := bind_ok hrun
      obtain ⟨x, hx, rfl, htraced, hwrote, hvar₁⟩ := appendContent_traced hhead h hcontent
      obtain ⟨n, hn, rfl⟩ := appendContentHardlink_ok hlink
      have hcheckout : (Visit.file p f).checkout tar src.toObjects w.wroteContent
          = [hardlinkEntry (objectPath .file f.2) (linkHeader w.wroteContent f.2 x) n
              (mapPath (p.join f.1))] := by
        rw [Visit.checkout, hx]
        dsimp only
        rw [hn]
      rw [hcheckout]
      refine ⟨htraced.place (inSysroot_eq_false ((hardlinkEntry_path _ _ _ _).trans hp) hns),
        hvar₁.trans hvar, hwrote.trans ?_, ?_⟩
      · ext y
        simp [afterVisits, objectsOf, Visit.object]
      · rw [List.map_singleton, hardlinkEntry_path]
        rfl

/-- **The walk**, if it succeeds: below `sysroot` nothing is written twice, and the checkout
    has the places of the visits. -/
theorem visits_traced (hhead : HeadPaths head) {vs : List Visit} (hvs : ∀ v ∈ vs, v.Outside)
    (h : Traced head w.recorded w.out K) (hvar : w.wroteVartmp = false) {u : PUnit}
    (hrun : forM vs (Visit.run lib tar src) w = .ok u w') :
    Traced head w'.recorded w'.out (K ++ checkouts tar src.toObjects w.wroteContent vs) ∧
      w'.wroteVartmp = false ∧ w'.wroteContent = afterVisits .file w.wroteContent vs ∧
      (checkouts tar src.toObjects w.wroteContent vs).map (·.path)
        = (vs.filterMap Visit.placed).map (·.1) := by
  induction vs generalizing w K with
  | nil =>
      cases hrun
      rw [checkouts, List.append_nil]
      exact ⟨h, hvar, by simp [afterVisits, objectsOf], rfl⟩
  | cons v vs ih =>
      rw [List.forM_cons] at hrun
      obtain ⟨_, w₁, hstep, hrest⟩ := bind_ok hrun
      obtain ⟨h₁, hvar₁, hwrote₁, hpaths₁⟩ :=
        Visit.run_traced hhead h hvar (hvs v (List.mem_cons_self ..)) hstep
      obtain ⟨h₂, hvar₂, hwrote₂, hpaths₂⟩ :=
        ih (fun v' hv' => hvs v' (List.mem_cons_of_mem _ hv')) h₁ hvar₁ hrest
      rw [checkouts, ← hwrote₁, ← List.append_assoc]
      refine ⟨h₂, hvar₂, ?_, ?_⟩
      · rw [hwrote₂, hwrote₁, afterVisits, afterVisits, afterVisits, Finset.union_assoc,
          ← List.toFinset_append, ← objectsOf_append]
        rfl
      · rw [List.map_append, hpaths₁, hpaths₂]
        cases hv : v.placed with
        | none => rw [List.filterMap_cons_none hv]; rfl
        | some q => rw [List.filterMap_cons_some hv]; rfl

end Walk

-- ── A chunk ───────────────────────────────────────────────────────────────────

/-- The hard link to an object that was just written. -/
def linkEntry (c : Checksum) (f : FileObject) (dest : Path) : Entry :=
  hardlinkEntry (objectPath .file c) (writtenHeader f) f.size dest

/-- What an object of a chunk leaves in the checkout. -/
def itemLinks (o : Objects) (item : Checksum × Nat × List Path) : List Entry :=
  match o.files[item.1]? with
  | none => []
  | some f => item.2.2.map fun p => linkEntry item.1 f (pathForTarV1 p)

section ChunkOutput

variable {lib : Libostree} {tar : TarCrate} {src : Repo} {head : List Path} {w w' : TarWriter}
  {K : List Entry}

/-- One round of `write_chunk`. -/
def writeItem (lib : Libostree) (tar : TarCrate) (src : Repo)
    (item : Checksum × Nat × List Path) : ExportM Unit := do
  let (objpath, h) ← appendContent lib tar src item.1
  forM item.2.2 fun path => appendContentHardlink tar objpath h (pathForTarV1 path)

theorem writeChunk_eq (m : ChunkMapping) :
    writeChunk lib tar src m = forM m.toList (writeItem lib tar src) := rfl

/-- A path of a chunk goes outside of `sysroot`. -/
def OutsidePath (p : Path) : Prop :=
  ∃ ns, tarPath (pathForTarV1 p) = relPath ns ∧ ns.head? ≠ some "sysroot"

/-- The links to a new object are complete. -/
theorem writtenHeader_querySize (f : FileObject) :
    (writtenHeader f).querySize tar = .ok f.size := by
  rw [HeaderBuf.querySize, writtenHeader_size]

/-- The links to one object. -/
theorem links_traced {c : Checksum} {f : FileObject} {paths : List Path}
    (hpaths : ∀ p ∈ paths, OutsidePath p) (h : Traced head w.recorded w.out K) :
    ∃ out, Traced head w.recorded out (K ++ paths.map fun p => linkEntry c f (pathForTarV1 p)) ∧
      forM paths (fun path => appendContentHardlink tar (objectPath .file c) (writtenHeader f)
        (pathForTarV1 path)) w = .ok ⟨⟩ { w with out } := by
  induction paths generalizing w K with
  | nil => exact ⟨w.out, by rw [List.map_nil, List.append_nil]; exact h, rfl⟩
  | cons p paths ih =>
      obtain ⟨ns, hns, hout⟩ := hpaths p (List.mem_cons_self ..)
      have hplace := h.place (e := linkEntry c f (pathForTarV1 p))
        (inSysroot_eq_false ((hardlinkEntry_path _ _ _ _).trans hns) hout)
      obtain ⟨out, htraced, hrun⟩ := @ih { w with out := w.out ++ [linkEntry c f (pathForTarV1 p)] }
        (K ++ [linkEntry c f (pathForTarV1 p)]) (fun q hq => hpaths q (List.mem_cons_of_mem _ hq))
        hplace
      refine ⟨out, ?_, ?_⟩
      · rw [List.map_cons]
        rw [List.append_assoc] at htraced
        exact htraced
      · rw [List.forM_cons, bind_of_ok (appendContentHardlink_run (writtenHeader_querySize f) w)]
        exact hrun

/-- **A chunk**: it can always be written, and it leaves the links to its paths. -/
theorem writeItems_traced (hhead : HeadPaths head) {items : List (Checksum × Nat × List Path)}
    (hkeys : (items.map (·.1)).Nodup) (hnew : ∀ it ∈ items, it.1 ∉ w.wroteContent)
    (hfiles : ∀ it ∈ items, it.1 ∈ src.files)
    (hpaths : ∀ it ∈ items, ∀ p ∈ it.2.2, OutsidePath p) (h : Traced head w.recorded w.out K) :
    ∃ w', forM items (writeItem lib tar src) w = .ok ⟨⟩ w' ∧
      Traced head w'.recorded w'.out (K ++ items.flatMap (itemLinks src.toObjects)) := by
  induction items generalizing w K with
  | nil => exact ⟨w, rfl, by rw [List.flatMap_nil, List.append_nil]; exact h⟩
  | cons it items ih =>
      obtain ⟨hfresh, hkeys⟩ := List.nodup_cons.mp hkeys
      obtain ⟨f, hf⟩ := Std.ExtTreeMap.mem_iff_lookup.mp (hfiles it (List.mem_cons_self ..))
      have hc := hnew it (List.mem_cons_self ..)
      obtain ⟨w₁, hcontent⟩ : ∃ w₁, appendContent lib tar src it.1 w
          = .ok (objectPath .file it.1, writtenHeader f) w₁ := ⟨_, appendContent_new hf hc⟩
      obtain ⟨_, _, _, htraced, hwrote, _⟩ := appendContent_traced hhead h hcontent
      obtain ⟨out, hlinks, hrun⟩ := @links_traced tar head w₁ _ it.1 f _
        (hpaths it (List.mem_cons_self ..)) htraced
      have hnew' : ∀ it' ∈ items, it'.1 ∉ w₁.wroteContent := by
        intro it' hit' hmem
        rw [hwrote] at hmem
        rcases Finset.mem_insert.mp hmem with heq | hmem
        · exact hfresh (List.mem_map.mpr ⟨it', hit', heq⟩)
        · exact hnew it' (List.mem_cons_of_mem _ hit') hmem
      obtain ⟨w', hrest, hdone⟩ := @ih { w₁ with out } _ hkeys hnew'
        (fun it' hit' => hfiles it' (List.mem_cons_of_mem _ hit'))
        (fun it' hit' => hpaths it' (List.mem_cons_of_mem _ hit')) hlinks
      refine ⟨w', ?_, ?_⟩
      · rw [List.forM_cons, writeItem, bind_assoc, bind_of_ok hcontent]
        dsimp only
        rw [bind_of_ok hrun]
        exact hrest
      · rw [List.append_assoc] at hdone
        rw [List.flatMap_cons, itemLinks, hf]
        exact hdone

end ChunkOutput

-- ── The head of a stream ──────────────────────────────────────────────────────

theorem hexDigit_inj : ∀ a < 16, ∀ b < 16, hexDigit a = hexDigit b → a = b := by decide

/-- The directories of the objects have distinct names. -/
theorem hexByte_inj {a b : Nat} (ha : a < 256) (hb : b < 256) (h : hexByte a = hexByte b) :
    a = b := by
  have hlist := String.ofList_injective h
  injection hlist with hhigh hlow
  injection hlow with hlow _
  have hdiv := hexDigit_inj (a / 16) (by omega) (b / 16) (by omega) hhigh
  have hmod := hexDigit_inj (a % 16) (by omega) (b % 16) (by omega) hlow
  omega

/-- What `write_repo_structure` adds besides the directories named by a byte. -/
def plainStructure : List Path :=
  (List.range 4).map (fun i => objectsDir.take (i + 1))
  ++ ([["extensions"], ["refs"], ["refs", "heads"], ["refs", "mirrors"], ["refs", "remotes"],
      ["state"], ["tmp"], ["tmp", "cache"]].map (fun d => repoPrefix ++ d.map Component.normal)
  ++ [repoPrefix ++ [.normal "config"]])

theorem repoStructure_perm : (repoStructureEntries.map (·.path)).Perm
    ((List.range 256).map (fun d => objectsDir ++ [.normal (hexByte d)]) ++ plainStructure) := by
  have hdirs : repoStructureDirs.map tarPath = repoStructureDirs.map id :=
    List.map_congr_left (by decide +kernel)
  have hpaths : repoStructureEntries.map (·.path)
      = repoStructureDirs ++ [repoPrefix ++ [.normal "config"]] := by
    rw [repoStructureEntries, List.map_append, List.map_map]
    show repoStructureDirs.map tarPath ++ _ = _
    rw [hdirs, List.map_id]
    rfl
  rw [hpaths, repoStructureDirs, plainStructure, List.append_assoc, List.append_assoc]
  exact List.perm_append_comm_assoc _ _ _

/-- **The repository structure has distinct paths.** -/
theorem nodup_repoStructure : (repoStructureEntries.map (·.path)).Nodup := by
  rw [repoStructure_perm.nodup_iff]
  refine List.Nodup.append ?_ (by decide) ?_
  · refine List.Nodup.map_on (fun a ha b hb h => ?_) List.nodup_range
    have hlast := List.append_cancel_left h
    exact hexByte_inj (List.mem_range.mp ha) (List.mem_range.mp hb)
      (Component.normal.inj (List.cons.inj hlast).1)
  · rw [List.disjoint_left]
    intro p hp hp'
    obtain ⟨d, _, rfl⟩ := List.mem_map.mp hp
    have hplain : ∀ p ∈ plainStructure, (stripPrefix objectsDir p).map List.length ≠ some 1 := by
      decide
    exact hplain _ hp' (by rw [stripPrefix_append]; rfl)

theorem repoStructure_length : ∀ p ∈ repoStructureEntries.map (·.path), p.length ≤ 5 := by
  decide +kernel

theorem repoStructure_inSysroot : ∀ e ∈ repoStructureEntries, inSysroot e = true := by
  decide +kernel

/-- The paths of the repository structure, of the commit object and of its metadata. -/
def headPaths (c : Checksum) : List Path :=
  repoStructureEntries.map (·.path) ++ [objectFile c "commit", objectFile c "commitmeta"]

theorem headPaths_ok (c : Checksum) : HeadPaths (headPaths c) := by
  intro sfx hsfx x hmem
  rcases List.mem_append.mp hmem with hmem | hmem
  · exact absurd (repoStructure_length _ hmem) (by simp [objectFile, objectsDir, repoPrefix])
  · have hdot := recordedSuffixes_dot sfx hsfx
    rcases List.mem_cons.mp hmem with h | hmem
    · have := (objectFile_inj hdot (by decide) h).2
      rw [this] at hsfx
      exact absurd hsfx (by decide)
    · have := (objectFile_inj hdot (by decide) (List.mem_singleton.mp hmem)).2
      rw [this] at hsfx
      exact absurd hsfx (by decide)

section Head

variable {lib : Libostree} {src : Repo} {c : Checksum} {commit : Commit}

theorem headEntries_paths (cm : Option Dict) : (headEntries lib c commit cm).map (·.path)
    <+: [objectFile c "commit", objectFile c "commitmeta"] := by
  cases cm with
  | none => exact ⟨[objectFile c "commitmeta"], rfl⟩
  | some d => exact List.prefix_refl _

theorem headEntries_inSysroot (cm : Option Dict) :
    ∀ e ∈ headEntries lib c commit cm, inSysroot e = true := by
  intro e he
  rcases List.mem_cons.mp he with rfl | he
  · exact inSysroot_of_path rfl
  · obtain ⟨d, _, rfl⟩ := Option.map_eq_some_iff.mp (Option.mem_toList.mp he)
    exact inSysroot_of_path rfl

/-- **The stream up to the walk.** -/
theorem headWriter_traced (b : Bool) (m : DirMeta) :
    Traced (headPaths c) (headWriter lib src b c commit m).recorded
      (headWriter lib src b c commit m).out [dirEntry tarPathPrefixV0 m] := by
  have hall : ∀ e ∈ repoStructureEntries ++ headEntries lib c commit src.commitmetas[c]?,
      inSysroot e = true := by
    intro e he
    rcases List.mem_append.mp he with he | he
    · exact repoStructure_inSysroot e he
    · exact headEntries_inSysroot _ e he
  have hpaths := @headEntries_paths lib c commit src.commitmetas[c]?
  have hstart : Traced (headPaths c) (fun _ => ∅) (dirEntry tarPathPrefixV0 m ::
      (repoStructureEntries ++ headEntries lib c commit src.commitmetas[c]?))
      [dirEntry tarPathPrefixV0 m] := {
    nodup := by
      rw [List.filter_cons_of_neg (by simp [inSysroot, dirEntry, tarPath, tarPathPrefixV0]),
        List.filter_eq_self.mpr hall, List.map_append]
      refine nodup_repoStructure.append (hpaths.sublist.nodup ?_) ?_
      · refine List.nodup_cons.mpr ⟨fun h => ?_, List.nodup_singleton _⟩
        have := (objectFile_inj (by decide) (by decide) (List.mem_singleton.mp h)).2
        exact absurd this (by decide)
      · rw [List.disjoint_left]
        intro p hp hp'
        have hlen := repoStructure_length p hp
        have hmem := hpaths.sublist.subset hp'
        rcases List.mem_cons.mp hmem with rfl | hmem
        · exact absurd hlen (by simp [objectFile, objectsDir, repoPrefix])
        · rw [List.mem_singleton.mp hmem] at hlen
          exact absurd hlen (by simp [objectFile, objectsDir, repoPrefix])
    known := by
      intro e he hin
      refine .inl ?_
      rcases List.mem_cons.mp he with rfl | he
      · exact absurd hin (by simp [inSysroot, dirEntry, tarPath, tarPathPrefixV0])
      · rcases List.mem_append.mp he with he | he
        · exact List.mem_append_left _ (List.mem_map_of_mem he)
        · exact List.mem_append_right _ (hpaths.sublist.subset (List.mem_map_of_mem he))
    checkout := by
      rw [List.filter_cons_of_pos (by simp [inSysroot, dirEntry, tarPath, tarPathPrefixV0]),
        List.filter_eq_nil_iff.mpr (fun e he => by rw [hall e he]; simp)] }
  have hmeta := hstart.object (headPaths_ok c)
    (e := dataEntry commit.dirmeta "dirmeta" (lib.dirmeta.toBytes m))
    (show "dirmeta" ∈ recordedSuffixes by decide) (Finset.notMem_empty _) rfl
  have hout : (headWriter lib src b c commit m).out = dirEntry tarPathPrefixV0 m ::
      (repoStructureEntries ++ headEntries lib c commit src.commitmetas[c]?)
      ++ [dataEntry commit.dirmeta "dirmeta" (lib.dirmeta.toBytes m)] := by
    simp [headWriter, preludeEntries]
  rw [hout]
  refine hmeta.mono ?_
  rw [forall_recordedSuffixes]
  simp [TarWriter.recorded, headWriter, Function.update]

end Head

end OstreeExt.Tar
