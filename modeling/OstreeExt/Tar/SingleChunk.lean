import OstreeExt.Tar.Distinct

/-!
# The direct export and the single chunk

`export_commit` walks the tree and writes each file as it is met; `export_final_chunk` writes
the directories first, and then the objects of the remainder with all their paths.  Below
`sysroot` both write the same object files, and in the checkout the same directories; the
links differ only where `export_commit` comes to a symbolic link again, whose header has
neither its type nor a size (`exports_agree_iff`).
-/

namespace OstreeExt.Tar

open OstreeExt Exec Objects

-- ── Object files ──────────────────────────────────────────────────────────────

/-- The files that a content object leaves in the repository. -/
def contentEntries (lib : Libostree) (tar : TarCrate) (c : Checksum) (f : FileObject) :
    List Entry :=
  [dataEntry (lib.sha256 f.xattrs) "file-xattrs" f.xattrs,
    xattrsLinkEntry c (lib.sha256 f.xattrs), contentEntry tar c f]

/-- The object files of a stored content object. -/
def objectFiles (lib : Libostree) (tar : TarCrate) (o : Objects) (c : Checksum) : List Entry :=
  match o.files[c]? with
  | none => []
  | some f => contentEntries lib tar c f

/-- The object files that a visit leaves in the repository, now or earlier. -/
def Visit.objectFiles (lib : Libostree) (tar : TarCrate) (o : Objects) : Visit → List Entry
  | .dirtree c d => [dataEntry c "dirtree" (lib.dirtree.toBytes d)]
  | .dirmeta c m => [dataEntry c "dirmeta" (lib.dirmeta.toBytes m)]
  | .file _ f => Tar.objectFiles lib tar o f.2
  | .enter _ => []
  | .dir _ _ => []

/-- **The object files of a stream are those of `E`**, and every object on record has its
    files there. -/
structure Emitted (lib : Libostree) (tar : TarCrate) (o : Objects) (scope : Checksum → Prop)
    (w : TarWriter) (E : List Entry) : Prop where
  mem : ∀ e, inSysroot e = true → (e ∈ w.out ↔ e ∈ E)
  dirtree : ∀ c ∈ w.wroteDirtree, ∀ d, o.dirtrees[c]? = some d →
    dataEntry c "dirtree" (lib.dirtree.toBytes d) ∈ E
  dirmeta : ∀ c ∈ w.wroteDirmeta, ∀ m, o.dirmetas[c]? = some m →
    dataEntry c "dirmeta" (lib.dirmeta.toBytes m) ∈ E
  content : ∀ c ∈ w.wroteContent, ∀ f, o.files[c]? = some f →
    ∀ e ∈ contentEntries lib tar c f, e ∈ E
  xattrs : ∀ c f, scope c → o.files[c]? = some f → lib.sha256 f.xattrs ∈ w.wroteXattrs →
    dataEntry (lib.sha256 f.xattrs) "file-xattrs" f.xattrs ∈ E

section Emitted

variable {lib : Libostree} {tar : TarCrate} {src : Repo} {scope : Checksum → Prop}
  {w w' : TarWriter} {E : List Entry}

/-- An entry of the checkout changes no object file. -/
theorem Emitted.place (h : Emitted lib tar src.toObjects scope w E) {e : Entry}
    (he : inSysroot e = false) :
    Emitted lib tar src.toObjects scope { w with out := w.out ++ [e] } E where
  mem e' hin := by
    rw [List.mem_append, h.mem e' hin, List.mem_singleton]
    refine or_iff_left fun heq => ?_
    rw [heq, he] at hin
    exact nomatch hin
  dirtree := h.dirtree
  dirmeta := h.dirmeta
  content := h.content
  xattrs := h.xattrs

/-- An object file that is there already. -/
theorem Emitted.again (h : Emitted lib tar src.toObjects scope w E) {es : List Entry}
    (hes : ∀ e ∈ es, e ∈ E) : Emitted lib tar src.toObjects scope w (E ++ es) where
  mem e hin := by
    rw [h.mem e hin, List.mem_append]
    exact (or_iff_left_of_imp (hes e)).symm
  dirtree c hc d hd := List.mem_append_left _ (h.dirtree c hc d hd)
  dirmeta c hc m hm := List.mem_append_left _ (h.dirmeta c hc m hm)
  content c hc f hf e he := List.mem_append_left _ (h.content c hc f hf e he)
  xattrs c f hs hf hx := List.mem_append_left _ (h.xattrs c f hs hf hx)

theorem appendDirtreeObj_emitted (h : Emitted lib tar src.toObjects scope w E) {c : Checksum}
    {d : DirTree} (hd : src.dirtrees[c]? = some d) {u : Unit}
    (hrun : appendDirtreeObj c (lib.dirtree.toBytes d) w = .ok u w') :
    Emitted lib tar src.toObjects scope w'
      (E ++ [dataEntry c "dirtree" (lib.dirtree.toBytes d)]) := by
  rw [appendDirtreeObj_run] at hrun
  split at hrun
  · next hc =>
    cases hrun
    refine h.again fun e he => ?_
    rw [List.mem_singleton.mp he]
    exact h.dirtree c hc d hd
  · cases hrun
    exact {
      mem := fun e hin => by rw [List.mem_append, List.mem_append, h.mem e hin]
      dirtree := fun c' hc' d' hd' => by
        rcases Finset.mem_insert.mp hc' with rfl | hc'
        · rw [Option.some.inj (hd'.symm.trans hd)]
          exact List.mem_append_right _ (List.mem_singleton_self _)
        · exact List.mem_append_left _ (h.dirtree c' hc' d' hd')
      dirmeta := fun c' hc' m hm => List.mem_append_left _ (h.dirmeta c' hc' m hm)
      content := fun c' hc' f hf e he => List.mem_append_left _ (h.content c' hc' f hf e he)
      xattrs := fun c' f hs hf hx => List.mem_append_left _ (h.xattrs c' f hs hf hx) }

theorem appendDirmetaObj_emitted (h : Emitted lib tar src.toObjects scope w E) {c : Checksum}
    {m : DirMeta} (hm : src.dirmetas[c]? = some m) {u : Unit}
    (hrun : appendDirmetaObj c (lib.dirmeta.toBytes m) w = .ok u w') :
    Emitted lib tar src.toObjects scope w'
      (E ++ [dataEntry c "dirmeta" (lib.dirmeta.toBytes m)]) := by
  rw [appendDirmetaObj_run] at hrun
  split at hrun
  · next hc =>
    cases hrun
    refine h.again fun e he => ?_
    rw [List.mem_singleton.mp he]
    exact h.dirmeta c hc m hm
  · cases hrun
    exact {
      mem := fun e hin => by rw [List.mem_append, List.mem_append, h.mem e hin]
      dirtree := fun c' hc' d hd => List.mem_append_left _ (h.dirtree c' hc' d hd)
      dirmeta := fun c' hc' m' hm' => by
        rcases Finset.mem_insert.mp hc' with rfl | hc'
        · rw [Option.some.inj (hm'.symm.trans hm)]
          exact List.mem_append_right _ (List.mem_singleton_self _)
        · exact List.mem_append_left _ (h.dirmeta c' hc' m' hm')
      content := fun c' hc' f hf e he => List.mem_append_left _ (h.content c' hc' f hf e he)
      xattrs := fun c' f hs hf hx => List.mem_append_left _ (h.xattrs c' f hs hf hx) }

/-- The entries of a new content object, up to xattrs that are there already. -/
theorem mem_newContent (h : Emitted lib tar src.toObjects scope w E) {c : Checksum}
    {f : FileObject} (hs : scope c) (hf : src.files[c]? = some f) {e : Entry}
    (hin : inSysroot e = true) :
    e ∈ w.out ++ (xattrsEntries lib w c f.xattrs ++ [contentEntry tar c f]) ↔
      e ∈ E ++ contentEntries lib tar c f := by
  rw [List.mem_append, List.mem_append, h.mem e hin, xattrsEntries, contentEntries]
  by_cases hx : lib.sha256 f.xattrs ∈ w.wroteXattrs
  · have hold := h.xattrs c f hs hf hx
    rw [if_pos hx]
    simp only [List.nil_append, List.mem_append, List.mem_cons, List.not_mem_nil, or_false]
    constructor
    · rintro (he | he | he)
      · exact .inl he
      · exact .inr (.inr (.inl he))
      · exact .inr (.inr (.inr he))
    · rintro (he | rfl | he | he)
      · exact .inl he
      · exact .inl hold
      · exact .inr (.inl he)
      · exact .inr (.inr he)
  · rw [if_neg hx]
    simp only [List.mem_append, List.mem_cons, List.not_mem_nil, or_false, or_assoc]

theorem appendContent_emitted (hdist : XattrsDistinct lib src.toObjects scope)
    (h : Emitted lib tar src.toObjects scope w E) {c : Checksum} (hs : scope c)
    {a : Path × HeaderBuf} (hrun : appendContent lib tar src c w = .ok a w') :
    Emitted lib tar src.toObjects scope w' (E ++ objectFiles lib tar src.toObjects c) := by
  cases hf : src.files[c]? with
  | none =>
      rw [appendContent_missing hf] at hrun
      exact nomatch hrun
  | some f =>
      rw [objectFiles, hf]
      dsimp only
      by_cases hc : c ∈ w.wroteContent
      · rw [appendContent_old hf hc] at hrun
        cases hrun
        exact h.again (h.content c hc f hf)
      · rw [appendContent_new hf hc] at hrun
        cases hrun
        exact {
          mem := fun e hin => mem_newContent h hs hf hin
          dirtree := fun c' hc' d hd => List.mem_append_left _ (h.dirtree c' hc' d hd)
          dirmeta := fun c' hc' m hm => List.mem_append_left _ (h.dirmeta c' hc' m hm)
          content := fun c' hc' f' hf' e he => by
            rcases Finset.mem_insert.mp hc' with rfl | hc'
            · rw [Option.some.inj (hf'.symm.trans hf)] at he
              exact List.mem_append_right _ he
            · exact List.mem_append_left _ (h.content c' hc' f' hf' e he)
          xattrs := fun c' f' hs' hf' hx => by
            rcases Finset.mem_insert.mp hx with heq | hx
            · -- the same checksum, so the same xattrs
              rw [hdist c' c f' f hs' hs hf' hf heq]
              exact List.mem_append_right _ (List.mem_cons_self ..)
            · exact List.mem_append_left _ (h.xattrs c' f' hs' hf' hx) }

/-- One step of the walk, if it succeeds. -/
theorem Visit.run_emitted (hdist : XattrsDistinct lib src.toObjects scope)
    (h : Emitted lib tar src.toObjects scope w E) {v : Visit} (hv : v.Outside)
    (hstored : v.Stored src.toObjects) (hs : ∀ c, v.object = some (.file, c) → scope c) {u : Unit}
    (hrun : v.run lib tar src w = .ok u w') :
    Emitted lib tar src.toObjects scope w' (E ++ v.objectFiles lib tar src.toObjects) := by
  cases v with
  | dirtree c d => exact appendDirtreeObj_emitted h hstored hrun
  | dirmeta c m => exact appendDirmetaObj_emitted h hstored hrun
  | enter p =>
      rw [Visit.run, noteVartmp, if_neg (hv.2 p rfl)] at hrun
      cases hrun
      rw [Visit.objectFiles, List.append_nil]
      exact h
  | dir p m =>
      cases hrun
      obtain ⟨ns, hp, hns⟩ := hv.1 _ _ rfl
      rw [Visit.objectFiles, List.append_nil]
      exact h.place (inSysroot_eq_false hp hns)
  | file p f =>
      obtain ⟨ns, hp, hns⟩ := hv.1 _ _ rfl
      rw [Visit.run] at hrun
      obtain ⟨a, w₁, hcontent, hlink⟩ := bind_ok hrun
      obtain ⟨n, _, rfl⟩ := appendContentHardlink_ok hlink
      exact (appendContent_emitted hdist h (hs f.2 rfl) hcontent).place
        (inSysroot_eq_false ((hardlinkEntry_path _ _ _ _).trans hp) hns)

/-- **The object files of a walk.** -/
theorem visits_emitted (hdist : XattrsDistinct lib src.toObjects scope) {vs : List Visit}
    (hvs : ∀ v ∈ vs, v.Outside ∧ v.Stored src.toObjects ∧
      ∀ c, v.object = some (.file, c) → scope c)
    (h : Emitted lib tar src.toObjects scope w E) {u : PUnit}
    (hrun : forM vs (Visit.run lib tar src) w = .ok u w') :
    Emitted lib tar src.toObjects scope w'
      (E ++ vs.flatMap (Visit.objectFiles lib tar src.toObjects)) := by
  induction vs generalizing w E with
  | nil =>
      cases hrun
      rw [List.flatMap_nil, List.append_nil]
      exact h
  | cons v vs ih =>
      rw [List.forM_cons] at hrun
      obtain ⟨_, w₁, hstep, hrest⟩ := bind_ok hrun
      obtain ⟨hout, hstored, hs⟩ := hvs v (List.mem_cons_self ..)
      have h₁ := Visit.run_emitted hdist h hout hstored hs hstep
      have h₂ := ih (fun v' hv' => hvs v' (List.mem_cons_of_mem _ hv')) h₁ hrest
      rw [List.flatMap_cons, ← List.append_assoc]
      exact h₂

/-- The links to an object change no object file. -/
theorem links_emitted (h : Emitted lib tar src.toObjects scope w E) {objpath : Path}
    {hb : HeaderBuf} {paths : List Path} (hpaths : ∀ p ∈ paths, OutsidePath p) {u : PUnit}
    (hrun : forM paths (fun path => appendContentHardlink tar objpath hb (pathForTarV1 path)) w
      = .ok u w') : Emitted lib tar src.toObjects scope w' E := by
  induction paths generalizing w with
  | nil =>
      cases hrun
      exact h
  | cons p paths ih =>
      rw [List.forM_cons] at hrun
      obtain ⟨_, w₁, hstep, hrest⟩ := bind_ok hrun
      obtain ⟨n, _, rfl⟩ := appendContentHardlink_ok hstep
      obtain ⟨ns, hns, hout⟩ := hpaths p (List.mem_cons_self ..)
      exact ih (h.place (inSysroot_eq_false ((hardlinkEntry_path _ _ _ _).trans hns) hout))
        (fun q hq => hpaths q (List.mem_cons_of_mem _ hq)) hrest

/-- **The object files of a chunk.** -/
theorem writeItems_emitted (hdist : XattrsDistinct lib src.toObjects scope)
    {items : List (Checksum × Nat × List Path)} (hs : ∀ it ∈ items, scope it.1)
    (hpaths : ∀ it ∈ items, ∀ p ∈ it.2.2, OutsidePath p)
    (h : Emitted lib tar src.toObjects scope w E) {u : PUnit}
    (hrun : forM items (writeItem lib tar src) w = .ok u w') :
    Emitted lib tar src.toObjects scope w'
      (E ++ items.flatMap fun it => objectFiles lib tar src.toObjects it.1) := by
  induction items generalizing w E with
  | nil =>
      cases hrun
      rw [List.flatMap_nil, List.append_nil]
      exact h
  | cons it items ih =>
      rw [List.forM_cons] at hrun
      obtain ⟨_, w₁, hstep, hrest⟩ := bind_ok hrun
      rw [writeItem] at hstep
      obtain ⟨a, w₂, hcontent, hlinks⟩ := bind_ok hstep
      have h₁ := appendContent_emitted hdist h (hs it (List.mem_cons_self ..)) hcontent
      have h₂ := links_emitted h₁ (hpaths it (List.mem_cons_self ..)) hlinks
      have h₃ := ih (fun it' hit' => hs it' (List.mem_cons_of_mem _ hit'))
        (fun it' hit' => hpaths it' (List.mem_cons_of_mem _ hit')) h₂ hrest
      rw [List.flatMap_cons, ← List.append_assoc]
      exact h₃

/-- The object files of the head. -/
theorem headWriter_emitted {c : Checksum} {commit : Commit} {m : DirMeta}
    (hm : src.dirmetas[commit.dirmeta]? = some m) (b : Bool) :
    Emitted lib tar src.toObjects scope (headWriter lib src b c commit m)
      (headWriter lib src b c commit m).out where
  mem e _ := Iff.rfl
  dirtree c' hc' := absurd hc' (Finset.notMem_empty _)
  dirmeta c' hc' m' hm' := by
    rw [Finset.mem_singleton.mp hc'] at hm' ⊢
    rw [Option.some.inj (hm'.symm.trans hm)]
    simp [headWriter]
  content c' hc' := absurd hc' (Finset.notMem_empty _)
  xattrs c' f _ _ hx := absurd hx (Finset.notMem_empty _)

end Emitted

-- ── The checkout of a walk ────────────────────────────────────────────────────

/-- A second link to the object is like the first one. -/
def LinksAlike (tar : TarCrate) (f : FileObject) : Prop :=
  ∃ n, (contentHeader f).querySize tar = .ok n ∧ ∀ objpath dest,
    hardlinkEntry objpath (contentHeader f) n dest
      = hardlinkEntry objpath (writtenHeader f) f.size dest

theorem linksAlike_regular (uid gid mode : UInt32) (x content : Bytes) {tar : TarCrate} :
    LinksAlike tar (.regular uid gid mode x content) := ⟨content.length, rfl, fun _ _ => rfl⟩

theorem linksAlike_symlink {tar : TarCrate} (uid gid : UInt32) (x : Bytes) (target : String)
    {n : Nat} (hn : tar.unsetSize = .ok n) (hne : n ≠ 0) :
    LinksAlike tar (.symlink uid gid x target) := by
  refine ⟨n, hn, fun objpath dest => ?_⟩
  rw [hardlinkEntry, hardlinkEntry, if_neg (fun h => hne h.2),
    if_neg (fun h => absurd h.1 (by simp [writtenHeader]))]
  rfl

/-- The links of a member of the checkout that has an object. -/
def linkAt (o : Objects) (e : Path × Option Checksum) : Option Entry :=
  e.2.bind fun x => o.files[x]?.map fun f => linkEntry x f e.1

/-- What a visit leaves in the checkout when every link is like the first one. -/
def Visit.link (o : Objects) (v : Visit) : Option Entry :=
  match v with
  | .dir p m => some (dirEntry p m)
  | v => v.placed.bind (linkAt o)

section Links

variable {lib : Libostree} {tar : TarCrate} {o : Objects}

theorem linkEntry_congr {c : Checksum} {f : FileObject} {p q : Path} (h : tarPath p = tarPath q) :
    linkEntry c f p = linkEntry c f q := by
  rw [linkEntry, linkEntry, hardlinkEntry, hardlinkEntry, h]

/-- A file of the walk, whose link is like the first one. -/
theorem Visit.checkout_file {F : Finset Checksum} {p : Path} {f : String × Checksum}
    (halike : ∀ x, f.2 ∈ F → o.files[f.2]? = some x → LinksAlike tar x) :
    (Visit.file p f).checkout tar o F = ((Visit.file p f).link o).toList := by
  show (Visit.file p f).checkout tar o F
    = ((o.files[f.2]?).map fun x => linkEntry f.2 x (tarPath (mapPath (p.join f.1)))).toList
  rw [Visit.checkout]
  cases hx : o.files[f.2]? with
  | none => rfl
  | some x =>
      dsimp only
      rw [Option.map_some, Option.toList_some, linkEntry_congr (tarPath_tarPath _), linkEntry,
        linkHeader]
      by_cases hF : f.2 ∈ F
      · obtain ⟨n, hn, heq⟩ := halike x hF hx
        rw [if_pos hF, hn]
        dsimp only
        rw [heq]
      · rw [if_neg hF, writtenHeader_querySize]

/-- **The checkout of a walk** whose repeated links are like the first ones. -/
theorem checkouts_eq {F : Finset Checksum} {vs : List Visit}
    (halike : ∀ pre p f post x, vs = pre ++ .file p f :: post →
      f.2 ∈ F ∪ (objectsOf .file pre).toFinset → o.files[f.2]? = some x → LinksAlike tar x) :
    checkouts tar o F vs = vs.filterMap (Visit.link o) := by
  induction vs generalizing F with
  | nil => rfl
  | cons v vs ih =>
      have hrest : checkouts tar o (afterVisits .file F [v]) vs = vs.filterMap (Visit.link o) := by
        refine ih (fun pre p f post x hsplit hpre hx => ?_)
        refine halike (v :: pre) p f post x (by rw [hsplit]; rfl) ?_ hx
        rw [afterVisits, Finset.union_assoc, ← List.toFinset_append, ← objectsOf_append] at hpre
        exact hpre
      have hstep : v.checkout tar o F = (v.link o).toList := by
        cases v with
        | dirtree c d => rfl
        | dirmeta c m => rfl
        | enter p => rfl
        | dir p m => rfl
        | file p f =>
            refine Visit.checkout_file (fun x hF hx => ?_)
            exact halike [] p f vs x rfl (Finset.mem_union_left _ hF) hx
      rw [checkouts, hrest, hstep]
      cases hv : v.link o with
      | none => rw [List.filterMap_cons_none hv]; rfl
      | some e => rw [List.filterMap_cons_some hv]; rfl

/-- The checkout of the structure. -/
theorem checkouts_structure {F : Finset Checksum} {n : Nat} {c : Checksum} :
    checkouts tar o F (visits o true n tarPathPrefixV0 c true)
      = (visits o true n tarPathPrefixV0 c true).filterMap (Visit.link o) := by
  refine checkouts_eq (fun pre p f post x hsplit => ?_)
  have hmem : Visit.file p f ∈ visits o true n tarPathPrefixV0 c true := by
    rw [hsplit]
    simp
  exact absurd hmem file_not_mem_structure

/-- A visit to a file. -/
def Visit.isFile : Visit → Bool
  | .file _ _ => true
  | _ => false

/-- **The walk for the structure** is the walk without its files. -/
theorem visits_structure {n : Nat} {p : Path} {c : Checksum} {isRoot : Bool} :
    visits o true n p c isRoot = (visits o false n p c isRoot).filter fun v => !v.isFile := by
  induction n generalizing p c isRoot with
  | zero => rfl
  | succ n ih =>
      rw [visits, visits]
      cases hd : o.dirtrees[c]? with
      | none => rfl
      | some d =>
          have hfiles : (fileVisits false p d).filter (fun v => !v.isFile) = [] := by
            refine List.filter_eq_nil_iff.mpr (fun v hv => ?_)
            obtain ⟨f, _, rfl⟩ := List.mem_map.mp hv
            intro h
            cases h
          have hdir : ∀ s : String × Checksum × Checksum,
              dirVisits o isRoot p s (visits o true n (mapPath (p.join s.1)) s.2.1 false)
                = (dirVisits o isRoot p s (visits o false n (mapPath (p.join s.1)) s.2.1
                  false)).filter fun v => !v.isFile := by
            intro s
            rw [dirVisits, dirVisits]
            cases o.dirmetas[s.2.2]? with
            | none => rfl
            | some m =>
                dsimp only
                rw [List.filter_cons_of_pos rfl]
                split
                · rfl
                · rw [List.filter_cons_of_pos rfl, ih]
          dsimp only
          rw [List.filter_cons_of_pos rfl, List.filter_append, hfiles, List.nil_append,
            List.filter_cons_of_pos rfl, List.filter_flatMap]
          show Visit.dirtree c d :: Visit.enter p :: _ = _
          rw [List.flatMap_congr fun s _ => hdir s]

/-- The links to the files of a list of places. -/
def linksOf (o : Objects) (l : List (List String × Option Checksum)) : List Entry :=
  l.filterMap fun e => linkAt o (placedAt e)

/-- The links of a walk are those of its listing. -/
theorem fileLinks_eq {n : Nat} {c : Checksum}
    (hstored : ∀ ty x, o.Reaches c ty x → o.Has ty x) :
    ((visits o false n tarPathPrefixV0 c true).filter Visit.isFile).filterMap (Visit.link o)
      = linksOf o (listing o false n true [] c) := by
  have hlink : ∀ v : Visit, (if v.isFile then v.link o else none) = v.placed.bind (linkAt o) := by
    intro v
    cases v with
    | file p f => rfl
    | dir p m => rfl
    | dirtree c d => rfl
    | dirmeta c m => rfl
    | enter p => rfl
  have hplaced := @visits_placed o false true n [] c hstored
  rw [List.filterMap_filter, List.filterMap_congr (fun v _ => hlink v), ← List.filterMap_filterMap]
  show ((visits o false n (.curDir :: relPath (place [])) c true).filterMap Visit.placed).filterMap
    (linkAt o) = _
  rw [hplaced, List.filterMap_map]
  rfl

/-- The links of a part are those of its places. -/
theorem itemLinks_eq {fuel : Nat} {commit : Commit} {m : ChunkMapping}
    (hm : PartOf o fuel commit m) :
    m.toList.flatMap (itemLinks o) = linksOf o (chunkPlaces m) := by
  rw [linksOf, chunkPlaces, List.filterMap_flatMap]
  refine List.flatMap_congr (fun it hit => ?_)
  obtain ⟨x, v⟩ := it
  have hv := Std.ExtTreeMap.mem_toList_iff.mp hit
  have hitem : ∀ p ∈ v.2, (linkAt o (placedAt (namesOf p, some x)))
      = (o.files[x]?).map fun f => linkEntry x f (pathForTarV1 p) := by
    intro p hp
    obtain ⟨q, rfl, hq⟩ := (hm.listed hv).mp hp
    have hne : q ≠ [] := by
      obtain ⟨name, rest, rfl⟩ := listing_path hq
      simp
    show (o.files[x]?).map _ = _
    cases o.files[x]? with
    | none => rfl
    | some f =>
        rw [Option.map_some, Option.map_some, placedAt, namesOf_relPath]
        refine congrArg some (linkEntry_congr ?_)
        rw [tarPath_relPath (place_ne_nil hne), tarPath_chunkPath hne]
  rw [itemLinks, List.filterMap_map]
  show _ = v.2.filterMap fun p => linkAt o (placedAt (namesOf p, some x))
  rw [List.filterMap_congr hitem]
  dsimp only
  cases o.files[x]? with
  | none => exact (List.filterMap_eq_nil_iff.mpr fun _ _ => rfl).symm
  | some f =>
      dsimp only
      rw [← List.filterMap_eq_map]
      rfl

/-- Every file of the commit is in the initial chunk. -/
def WholeOf (o : Objects) (fuel : Nat) (commit : Commit) (m : ChunkMapping) : Prop :=
  PartOf o fuel commit m ∧
    ∀ q x, (q, some x) ∈ listing o false fuel false [] commit.contents → x ∈ m

/-- **The links of the whole chunk are those of the walk**, in another order. -/
theorem linksOf_perm {fuel : Nat} {commit : Commit} {m : ChunkMapping}
    (hm : WholeOf o fuel commit m) (hnames : WellNamed o commit.contents)
    (hroot : SysrootEmpty o commit) :
    (linksOf o (listing o false fuel true [] commit.contents)).Perm (linksOf o (chunkPlaces m)) := by
  have hnone : ∀ e : List String × Option Checksum, linkAt o (placedAt e)
      = if e.2.isSome then linkAt o (placedAt e) else none := by
    rintro ⟨q, x⟩
    cases x with
    | none => rfl
    | some x => rfl
  have hfilter : linksOf o (listing o false fuel true [] commit.contents)
      = linksOf o ((listing o false fuel true [] commit.contents).filter fun e => e.2.isSome) := by
    rw [linksOf, linksOf, List.filterMap_filter]
    exact List.filterMap_congr (fun e _ => hnone e)
  have hnodup : ((listing o false fuel true [] commit.contents).filter fun e => e.2.isSome).Nodup :=
    (nodup_listing hnames).of_map.filter _
  have hperm : ((listing o false fuel true [] commit.contents).filter fun e => e.2.isSome).Perm
      (chunkPlaces m) := by
    refine (List.perm_ext_iff_of_nodup hnodup (nodup_chunkPlaces hnames hm.1).of_map).mpr ?_
    rintro ⟨q, x⟩
    rw [List.mem_filter, mem_chunkPlaces hm.1]
    cases x with
    | none =>
        constructor
        · rintro ⟨_, h⟩
          exact nomatch h
        · rintro ⟨y, h, _⟩
          exact nomatch h
    | some x =>
        constructor
        · rintro ⟨h, _⟩
          have hall := (mem_listing_root hroot).mp h
          exact ⟨x, rfl, hm.2 q x hall, hall⟩
        · rintro ⟨_, _, _, h⟩
          exact ⟨(mem_listing_root hroot).mpr h, rfl⟩
  rw [hfilter]
  exact hperm.filterMap _

/-- **The checkouts of both exports** are the same, up to the order. -/
theorem checkout_perm {fuel : Nat} {commit : Commit} {m : ChunkMapping}
    (hstored : ∀ ty x, o.Reaches commit.contents ty x → o.Has ty x)
    (hm : WholeOf o fuel commit m) (hnames : WellNamed o commit.contents)
    (hroot : SysrootEmpty o commit) (root last : Entry)
    (halike : ∀ pre p f post x,
      visits o false fuel tarPathPrefixV0 commit.contents true = pre ++ .file p f :: post →
      f.2 ∈ (∅ : Finset Checksum) ∪ (objectsOf .file pre).toFinset → o.files[f.2]? = some x →
      LinksAlike tar x) :
    (root :: (checkouts tar o ∅ (visits o false fuel tarPathPrefixV0 commit.contents true)
        ++ [last])).Perm
      (root :: (checkouts tar o ∅ (visits o true fuel tarPathPrefixV0 commit.contents true)
        ++ last :: m.toList.flatMap (itemLinks o))) := by
  have hdirs : checkouts tar o ∅ (visits o true fuel tarPathPrefixV0 commit.contents true)
      = ((visits o false fuel tarPathPrefixV0 commit.contents true).filter
          fun v => !v.isFile).filterMap (Visit.link o) := by
    rw [checkouts_structure, visits_structure]
  have hsplit := (List.filter_append_perm Visit.isFile
    (visits o false fuel tarPathPrefixV0 commit.contents true)).filterMap (Visit.link o)
  rw [List.filterMap_append, fileLinks_eq hstored] at hsplit
  rw [checkouts_eq halike, hdirs, itemLinks_eq hm.1]
  refine List.Perm.cons _ (List.perm_append_singleton _ _ |>.trans ?_)
  refine List.Perm.trans ?_ List.perm_middle.symm
  refine List.Perm.cons _ (hsplit.symm.trans ?_)
  refine List.perm_append_comm.trans (List.Perm.append_left _ ?_)
  exact linksOf_perm hm hnames hroot

end Links

-- ── The two exports ───────────────────────────────────────────────────────────

section Exports

variable {lib : Libostree} {tar : TarCrate} {src : Repo} {c : Checksum} {commit : Commit}
  {fuel : Nat} {rev : String}

/-- The visits of a commit, as the invariants need them. -/
theorem visits_ok (hcomplete : src.Complete commit) (hdepth : src.DepthLt fuel commit.contents)
    (hfile : ∀ d, src.dirtrees[commit.contents]? = some d → ∀ f ∈ d.files, f.1 ≠ "sysroot")
    (b : Bool) : ∀ v ∈ visits src.toObjects b fuel tarPathPrefixV0 commit.contents true,
      v.Outside ∧ v.Stored src.toObjects ∧
        ∀ x, v.object = some (.file, x) → src.CommitReaches commit .file x := by
  intro v hv
  refine ⟨visits_outside hcomplete hfile b v hv, visits_stored _ _ _ _ _ v hv, fun x hx => ?_⟩
  exact .inr ((visits_object (fun ty x hx => hcomplete ty x (.inr hx)) hdepth).mp
    ⟨v, hv, hx⟩).1.reaches

/-- The objects of the walk's files are those of its listing. -/
theorem mem_objectsOf_file {o : Objects} {n : Nat} {t x : Checksum}
    (hstored : ∀ ty x, o.Reaches t ty x → o.Has ty x) :
    x ∈ objectsOf .file (visits o false n tarPathPrefixV0 t true) ↔
      ∃ q, (q, some x) ∈ listing o false n true [] t := by
  have hplaced := @visits_placed o false true n [] t hstored
  constructor
  · intro h
    obtain ⟨v, hv, hobj⟩ := mem_objectsOf.mp h
    cases v with
    | file p f =>
        cases hobj
        have hmem : (tarPath (mapPath (p.join f.1)), some f.2) ∈
            (visits o false n (.curDir :: relPath (place [])) t true).filterMap Visit.placed :=
          List.mem_filterMap.mpr ⟨_, hv, rfl⟩
        rw [hplaced] at hmem
        obtain ⟨⟨q, y⟩, hq, heq⟩ := List.mem_map.mp hmem
        obtain ⟨_, rfl⟩ := Prod.mk.inj heq
        exact ⟨q, hq⟩
    | dirtree c d => cases hobj
    | dirmeta c m => cases hobj
    | enter p => cases hobj
    | dir p m => cases hobj
  · rintro ⟨q, hq⟩
    have hmem : placedAt (q, some x) ∈ (listing o false n true [] t).map placedAt :=
      List.mem_map_of_mem hq
    rw [← hplaced] at hmem
    obtain ⟨v, hv, hp⟩ := List.mem_filterMap.mp hmem
    refine mem_objectsOf.mpr ⟨v, hv, ?_⟩
    cases v with
    | file p f =>
        obtain ⟨_, heq⟩ := Prod.mk.inj (Option.some.inj hp)
        rw [Visit.object, Option.some.inj heq]
    | dir p m => cases (Prod.mk.inj (Option.some.inj hp)).2
    | dirtree c d => cases hp
    | dirmeta c m => cases hp
    | enter p => cases hp

/-- The whole initial chunk of a commit. -/
theorem wholeOf_initialChunk (o : Objects) (fuel : Nat) (commit : Commit) :
    WholeOf o fuel commit
      (initialChunk o (o.occurrences fuel false [.rootDir] commit.contents)).content := by
  refine ⟨fun _ _ h => h, fun q x hq => ?_⟩
  have hocc : (.rootDir :: relPath q, x) ∈ o.occurrences fuel false [.rootDir] commit.contents :=
    (@mem_occurrences_iff o fuel [] commit.contents x _).mpr ⟨q, rfl, hq⟩
  have hpaths : pathsOf (o.occurrences fuel false [.rootDir] commit.contents) x ≠ [] :=
    List.ne_nil_of_mem (mem_pathsOf.mpr hocc)
  refine Std.ExtTreeMap.mem_iff_lookup.mpr ⟨(o.fileSize x,
    pathsOf (o.occurrences fuel false [.rootDir] commit.contents) x), ?_⟩
  rw [initialChunk_content, if_neg hpaths]

/-- The objects of the whole chunk are those of the walk. -/
theorem WholeOf.mem_iff {o : Objects} {m : ChunkMapping} (hm : WholeOf o fuel commit m)
    (hstored : ∀ ty x, o.Reaches commit.contents ty x → o.Has ty x)
    (hroot : SysrootEmpty o commit) {x : Checksum} :
    x ∈ objectsOf .file (visits o false fuel tarPathPrefixV0 commit.contents true) ↔ x ∈ m := by
  rw [mem_objectsOf_file hstored]
  constructor
  · rintro ⟨q, hq⟩
    exact hm.2 q x ((mem_listing_root hroot).mp hq)
  · intro hx
    obtain ⟨v, hv⟩ := Std.ExtTreeMap.mem_iff_lookup.mp hx
    obtain ⟨p, hp⟩ := List.exists_mem_of_ne_nil _ (hm.1.paths hv).2
    obtain ⟨q, _, hq⟩ := (hm.1.listed hv).mp hp
    exact ⟨q, (mem_listing_root hroot).mpr hq⟩

/-- The object files of the walk are those of the structure and those of its files. -/
theorem mem_visits_objectFiles {o : Objects} {n : Nat} {t : Checksum} {e : Entry} :
    e ∈ (visits o false n tarPathPrefixV0 t true).flatMap (Visit.objectFiles lib tar o) ↔
      e ∈ (visits o true n tarPathPrefixV0 t true).flatMap (Visit.objectFiles lib tar o) ∨
      ∃ x ∈ objectsOf .file (visits o false n tarPathPrefixV0 t true),
        e ∈ objectFiles lib tar o x := by
  rw [visits_structure, List.mem_flatMap, List.mem_flatMap]
  constructor
  · rintro ⟨v, hv, he⟩
    by_cases hfile : v.isFile
    · cases v with
      | file p f => exact .inr ⟨f.2, mem_objectsOf.mpr ⟨_, hv, rfl⟩, he⟩
      | dirtree c d => exact nomatch hfile
      | dirmeta c m => exact nomatch hfile
      | enter p => exact nomatch hfile
      | dir p m => exact nomatch hfile
    · exact .inl ⟨v, List.mem_filter.mpr ⟨hv, by simp [hfile]⟩, he⟩
  · rintro (⟨v, hv, he⟩ | ⟨x, hx, he⟩)
    · exact ⟨v, (List.mem_filter.mp hv).1, he⟩
    · obtain ⟨v, hv, hobj⟩ := mem_objectsOf.mp hx
      refine ⟨v, hv, ?_⟩
      cases v with
      | file p f => cases hobj; exact he
      | dirtree c d => exact nomatch hobj
      | dirmeta c m => exact nomatch hobj
      | enter p => exact nomatch hobj
      | dir p m => exact nomatch hobj

/-- **Both exports write the same object files.** -/
theorem objectFiles_perm (hcomplete : src.Complete commit)
    (hdepth : src.DepthLt fuel commit.contents)
    (hfile : ∀ d, src.dirtrees[commit.contents]? = some d → ∀ f ∈ d.files, f.1 ≠ "sysroot")
    (hroot : SysrootEmpty src.toObjects commit)
    (hdist : XattrsDistinct lib src.toObjects fun f => src.CommitReaches commit .file f)
    {m : ChunkMapping} (hm : WholeOf src.toObjects fuel commit m) {meta₀ : DirMeta}
    (hmeta : src.dirmetas[commit.dirmeta]? = some meta₀) {w w₁ w₂ : TarWriter}
    (hwalk : forM (visits src.toObjects false fuel tarPathPrefixV0 commit.contents true)
      (Visit.run lib tar src) (headWriter lib src false c commit meta₀) = .ok ⟨⟩ w)
    (hdirs : forM (visits src.toObjects true fuel tarPathPrefixV0 commit.contents true)
      (Visit.run lib tar src) (headWriter lib src true c commit meta₀) = .ok ⟨⟩ w₁)
    (hchunk : writeChunk lib tar src m
      { w₁ with out := w₁.out ++ [varTmpEntry], structureOnly := false } = .ok ⟨⟩ w₂)
    {e : Entry} (hin : inSysroot e = true) : e ∈ w.out ++ [varTmpEntry] ↔ e ∈ w₂.out := by
  have hstored : ∀ ty x, src.Reaches commit.contents ty x → src.Has ty x :=
    fun ty x hx => hcomplete ty x (.inr hx)
  have h₁ := visits_emitted hdist (visits_ok hcomplete hdepth hfile false)
    (headWriter_emitted hmeta false) hwalk
  have h₂ := (visits_emitted hdist (visits_ok hcomplete hdepth hfile true)
    (headWriter_emitted hmeta true) hdirs).place (e := varTmpEntry) rfl
  have h₃ := @writeItems_emitted lib tar src _
    { w₁ with out := w₁.out ++ [varTmpEntry], structureOnly := false } w₂ _ hdist m.toList
    (fun it hit => by
      have hx : it.1 ∈ m :=
        Std.ExtTreeMap.mem_iff_lookup.mpr ⟨it.2, Std.ExtTreeMap.mem_toList_iff.mp hit⟩
      obtain ⟨v, hv, hobj⟩ := mem_objectsOf.mp ((hm.mem_iff hstored hroot).mpr hx)
      exact (visits_ok hcomplete hdepth hfile false v hv).2.2 _ hobj)
    (fun it hit p hp => hm.1.outside hfile hroot (Std.ExtTreeMap.mem_toList_iff.mp hit) hp)
    { h₂ with } _ hchunk
  have hitems : e ∈ (m.toList.flatMap fun it => objectFiles lib tar src.toObjects it.1) ↔
      ∃ x ∈ m, e ∈ objectFiles lib tar src.toObjects x := by
    rw [List.mem_flatMap]
    constructor
    · rintro ⟨it, hit, he⟩
      exact ⟨it.1, Std.ExtTreeMap.mem_iff_lookup.mpr
        ⟨it.2, Std.ExtTreeMap.mem_toList_iff.mp hit⟩, he⟩
    · rintro ⟨x, hx, he⟩
      obtain ⟨v, hv⟩ := Std.ExtTreeMap.mem_iff_lookup.mp hx
      exact ⟨(x, v), Std.ExtTreeMap.mem_toList_iff.mpr hv, he⟩
  have hlast : e ∈ w.out ++ [varTmpEntry] ↔ e ∈ w.out := by
    rw [List.mem_append, List.mem_singleton]
    refine or_iff_left ?_
    rintro rfl
    exact nomatch hin
  have hhead : (headWriter lib src false c commit meta₀).out
      = (headWriter lib src true c commit meta₀).out := rfl
  rw [hlast, h₁.mem e hin, h₃.mem e hin, hhead, List.append_assoc, List.mem_append,
    List.mem_append, List.mem_append, hitems, mem_visits_objectFiles]
  refine or_congr Iff.rfl (or_congr Iff.rfl (exists_congr fun x => ?_))
  rw [hm.mem_iff hstored hroot]

/-- Two streams with the same object files and the same checkout are the same, up to the
    order. -/
theorem Traced.perm {head : List Path} {R R' : String → Finset Checksum} {out out' K K' : List Entry}
    (h : Traced head R out K) (h' : Traced head R' out' K')
    (hobjs : ∀ e, inSysroot e = true → (e ∈ out ↔ e ∈ out')) (hK : K.Perm K') :
    out.Perm out' := by
  have hsame : (out.filter inSysroot).Perm (out'.filter inSysroot) := by
    refine (List.perm_ext_iff_of_nodup h.nodup.of_map h'.nodup.of_map).mpr (fun e => ?_)
    rw [List.mem_filter, List.mem_filter]
    exact and_congr_left (hobjs e)
  have hsplit := List.filter_append_perm inSysroot out
  have hsplit' := List.filter_append_perm inSysroot out'
  rw [h.checkout] at hsplit
  rw [h'.checkout] at hsplit'
  exact hsplit.symm.trans ((hsame.append hK).trans hsplit')

/-- A symbolic link can be linked to again as the first time, or there is no need. -/
def LinksRepeat (tar : TarCrate) (o : Objects) (fuel : Nat) (commit : Commit) : Prop :=
  SymlinksOnce o fuel commit ∨ ∃ n, tar.unsetSize = .ok n ∧ n ≠ 0

/-- Every link of the walk that comes again is like the first one. -/
theorem LinksRepeat.alike {o : Objects} (h : LinksRepeat tar o fuel commit)
    (hstored : ∀ ty x, o.Reaches commit.contents ty x → o.Has ty x) :
    ∀ pre p f post x,
      visits o false fuel tarPathPrefixV0 commit.contents true = pre ++ .file p f :: post →
      f.2 ∈ (∅ : Finset Checksum) ∪ (objectsOf .file pre).toFinset → o.files[f.2]? = some x →
      LinksAlike tar x := by
  intro pre p f post x hsplit hpre hx
  cases x with
  | regular uid gid mode xattrs content => exact linksAlike_regular uid gid mode xattrs content
  | symlink uid gid xattrs target =>
      rcases h with honce | ⟨n, hn, hne⟩
      · have hcount := honce f.2 uid gid xattrs target hx
        rw [← @objectsOf_file_visits _ _ _ tarPathPrefixV0 _ _ hstored, hsplit, objectsOf_append,
          List.count_append] at hcount
        rw [Finset.empty_union, List.mem_toFinset] at hpre
        have hself : f.2 ∈ objectsOf .file (Visit.file p f :: post) :=
          mem_objectsOf.mpr ⟨.file p f, List.mem_cons_self .., rfl⟩
        have h₁ := List.count_pos_iff.mpr hpre
        have h₂ := List.count_pos_iff.mpr hself
        omega
      · exact linksAlike_symlink uid gid xattrs target hn hne

/-- **The exports agree** when no symbolic link is written in another form. -/
theorem exports_perm (hrev : src.requireRev rev = .ok c) (hcommit : src.commits[c]? = some commit)
    (hcomplete : src.Complete commit) (hdepth : src.DepthLt fuel commit.contents)
    (hnames : WellNamed src.toObjects commit.contents)
    (hfile : ∀ d, src.dirtrees[commit.contents]? = some d → ∀ f ∈ d.files, f.1 ≠ "sysroot")
    (hroot : SysrootEmpty src.toObjects commit)
    (hdist : XattrsDistinct lib src.toObjects fun f => src.CommitReaches commit .file f)
    (hlinks : LinksRepeat tar src.toObjects fuel commit) :
    ∃ k es es', Chunking.new lib src fuel rev = .ok k ∧
      exportCommit lib tar src fuel rev = .ok es ∧
      exportFinalChunk lib tar src fuel c k.remainder = .ok es' ∧ es.Perm es' := by
  have hstored : ∀ ty x, src.Reaches commit.contents ty x → src.Has ty x :=
    fun ty x hx => hcomplete ty x (.inr hx)
  have hrelink : RelinkableWalk tar src.toObjects ∅
      (visits src.toObjects false fuel tarPathPrefixV0 commit.contents true) :=
    (relinkable_iff_symlinksOnce hcomplete fuel).mpr
      (hlinks.symm.imp_left fun ⟨n, hn, _⟩ => ⟨n, hn⟩)
  obtain ⟨es, hes⟩ := @exportCommit_succeeds lib tar src c commit fuel rev hrev hcommit hcomplete
    hdepth hrelink
  obtain ⟨n, hnew⟩ := chunkingNew_eq lib hrev hcommit hcomplete hdepth
  have hwhole := wholeOf_initialChunk src.toObjects fuel commit
  obtain ⟨m, R, w, hm, hwalk, rfl, htraced, _⟩ := exportCommit_traced hrev hcommit hcomplete hdepth
    hfile hes
  obtain ⟨m', R', w₁, w₂, hm', hdirs, hchunk, hfinal, _, htraced', _⟩ :=
    @exportFinalChunk_traced lib tar src c commit fuel hcommit hcomplete hdepth hfile hroot
      (initialChunk src.toObjects (src.occurrences fuel false [.rootDir] commit.contents)) hwhole.1
  obtain rfl : m = m' := Option.some.inj (hm.symm.trans hm')
  refine ⟨_, _, _, hnew, hes, hfinal, htraced.perm htraced' (fun e hin => ?_) ?_⟩
  · exact objectFiles_perm hcomplete hdepth hfile hroot hdist hwhole hm hwalk hdirs hchunk hin
  · exact checkout_perm hstored hwhole hnames hroot _ _ (hlinks.alike hstored)

end Exports

-- ── A symbolic link that comes again ──────────────────────────────────────────

section Again

variable {tar : TarCrate} {o : Objects} {fuel : Nat} {commit : Commit}

theorem mem_checkouts {F : Finset Checksum} {vs : List Visit} {e : Entry} :
    e ∈ checkouts tar o F vs ↔ ∃ pre v post, vs = pre ++ v :: post ∧
      e ∈ v.checkout tar o (afterVisits .file F pre) := by
  induction vs generalizing F with
  | nil =>
      constructor
      · exact nofun
      · rintro ⟨pre, v, post, h, _⟩
        exact absurd h (by simp)
  | cons v vs ih =>
      have hnil : afterVisits .file F [] = F := by
        rw [afterVisits]
        exact Finset.union_empty F
      have hcons : ∀ pre, afterVisits .file F (v :: pre)
          = afterVisits .file (afterVisits .file F [v]) pre := by
        intro pre
        rw [afterVisits, afterVisits, afterVisits, Finset.union_assoc, ← List.toFinset_append,
          ← objectsOf_append]
        rfl
      rw [checkouts, List.mem_append, ih]
      constructor
      · rintro (h | ⟨pre, u, post, rfl, h⟩)
        · exact ⟨[], v, vs, rfl, by rw [hnil]; exact h⟩
        · exact ⟨v :: pre, u, post, rfl, by rw [hcons]; exact h⟩
      · rintro ⟨pre, u, post, hsplit, h⟩
        cases pre with
        | nil =>
            obtain ⟨rfl, rfl⟩ := List.cons.inj hsplit
            rw [hnil] at h
            exact .inl h
        | cons v' pre =>
            obtain ⟨rfl, rfl⟩ := List.cons.inj hsplit
            rw [hcons] at h
            exact .inr ⟨pre, u, post, rfl, h⟩

theorem objectsOf_file_eq (vs : List Visit) :
    objectsOf .file vs = (vs.filterMap Visit.placed).filterMap (·.2) := by
  rw [objectsOf, List.filterMap_filterMap]
  refine List.filterMap_congr (fun v _ => ?_)
  cases v <;> rfl

/-- A file of the walk, and what comes before it, in the listing. -/
theorem listing_split (hstored : ∀ ty x, o.Reaches commit.contents ty x → o.Has ty x)
    {pre post : List Visit} {p : Path} {f : String × Checksum}
    (h : visits o false fuel tarPathPrefixV0 commit.contents true = pre ++ .file p f :: post) :
    ∃ l₁ q l₂, listing o false fuel true [] commit.contents = l₁ ++ (q, some f.2) :: l₂ ∧
      tarPath (mapPath (p.join f.1)) = relPath (place q) ∧
      objectsOf .file pre = l₁.filterMap (·.2) := by
  have hplaced : (visits o false fuel tarPathPrefixV0 commit.contents true).filterMap Visit.placed
      = (listing o false fuel true [] commit.contents).map placedAt :=
    @visits_placed o false true fuel [] commit.contents hstored
  have hv : (Visit.file p f).placed = some (tarPath (mapPath (p.join f.1)), some f.2) := rfl
  rw [h, List.filterMap_append, List.filterMap_cons_some hv] at hplaced
  obtain ⟨l₁, rest, hlist, hpre, hrest⟩ := List.map_eq_append_iff.mp hplaced.symm
  obtain ⟨⟨q, x⟩, l₂, rfl, hq, _⟩ := List.map_eq_cons_iff.mp hrest
  obtain ⟨hpath, rfl⟩ := Prod.mk.inj hq
  refine ⟨l₁, q, l₂, hlist, hpath.symm, ?_⟩
  rw [objectsOf_file_eq, ← hpre, List.filterMap_map]
  rfl

/-- No three paths have the same place. -/
theorem place_three {a b d : List String} (hb : place b = place a) (hd : place d = place a)
    (hne : b ≠ a) : d = a ∨ d = b := by
  rcases place_eq hd with rfl | ⟨r, hr, rfl⟩
  · rcases place_eq hb with rfl | ⟨r, hr, rfl⟩
    · exact .inr rfl
    · rcases place_eq (rfl : place a = place a) with ha | ⟨r', hr', rfl⟩
      · exact .inl ha.symm
      · rw [hr] at hr'
        rw [(List.cons.inj hr').2] at hne
        exact absurd rfl hne
  · rcases place_eq hb with rfl | ⟨r', hr', rfl⟩
    · rcases place_eq (rfl : place a = place a) with ha | ⟨r', hr', rfl⟩
      · exact absurd ha.symm hne
      · rw [hr] at hr'
        rw [(List.cons.inj hr').2]
        exact .inl rfl
    · rw [hr] at hr'
      rw [(List.cons.inj hr').2]
      exact .inr rfl

/-- What is in the checkout of the single chunk, apart from directories. -/
theorem mem_chunk_checkout {m : ChunkMapping} (hm : WholeOf o fuel commit m) (hroot : SysrootEmpty o commit) {m₀ : DirMeta} {e : Entry}
    (he : e.header.entryType ≠ .directory) :
    e ∈ dirEntry tarPathPrefixV0 m₀ ::
        (checkouts tar o ∅ (visits o true fuel tarPathPrefixV0 commit.contents true)
          ++ varTmpEntry :: m.toList.flatMap (itemLinks o)) ↔
      ∃ q y f, (q, some y) ∈ listing o false fuel true [] commit.contents ∧
        o.files[y]? = some f ∧ e = linkEntry y f (relPath (place q)) := by
  have hdirs : e ∉ checkouts tar o ∅ (visits o true fuel tarPathPrefixV0 commit.contents true) := by
    rw [checkouts_structure, List.mem_filterMap]
    rintro ⟨v, hv, hlink⟩
    cases v with
    | file p f => exact absurd hv file_not_mem_structure
    | dir p m =>
        rw [← Option.some.inj hlink] at he
        exact he rfl
    | dirtree c d => exact nomatch hlink
    | dirmeta c m => exact nomatch hlink
    | enter p => exact nomatch hlink
  have hhead : e ≠ dirEntry tarPathPrefixV0 m₀ := by
    rintro rfl
    exact he rfl
  have hvar : e ≠ varTmpEntry := by
    rintro rfl
    exact he rfl
  rw [List.mem_cons, List.mem_append, List.mem_cons, or_iff_right hhead, or_iff_right hdirs,
    or_iff_right hvar, itemLinks_eq hm.1, linksOf, List.mem_filterMap]
  constructor
  · rintro ⟨⟨q, x⟩, hq, hlink⟩
    obtain ⟨y, rfl, _, hlist⟩ := (mem_chunkPlaces hm.1).mp hq
    obtain ⟨f, hf, rfl⟩ := Option.map_eq_some_iff.mp hlink
    exact ⟨q, y, f, (mem_listing_root hroot).mpr hlist, hf, rfl⟩
  · rintro ⟨q, y, f, hq, hf, rfl⟩
    have hlist := (mem_listing_root hroot).mp hq
    refine ⟨(q, some y), (mem_chunkPlaces hm.1).mpr ⟨y, rfl, hm.2 q y hlist, hlist⟩, ?_⟩
    show (o.files[y]?).map _ = _
    rw [hf]
    rfl

/-- What is in the checkout of the direct export, apart from directories. -/
theorem mem_walk_checkout {m₀ : DirMeta} {e : Entry} (he : e.header.entryType ≠ .directory) :
    e ∈ dirEntry tarPathPrefixV0 m₀ ::
        (checkouts tar o ∅ (visits o false fuel tarPathPrefixV0 commit.contents true)
          ++ [varTmpEntry]) ↔
      ∃ pre p f post, visits o false fuel tarPathPrefixV0 commit.contents true
          = pre ++ .file p f :: post ∧
        e ∈ (Visit.file p f).checkout tar o (afterVisits .file ∅ pre) := by
  have hhead : e ≠ dirEntry tarPathPrefixV0 m₀ := by
    rintro rfl
    exact he rfl
  have hvar : ¬ e ∈ [varTmpEntry] := by
    intro h
    rw [List.mem_singleton.mp h] at he
    exact he rfl
  rw [List.mem_cons, List.mem_append, or_iff_right hhead, or_iff_left hvar, mem_checkouts]
  constructor
  · rintro ⟨pre, v, post, hsplit, h⟩
    cases v with
    | file p f => exact ⟨pre, p, f, post, hsplit, h⟩
    | dir p m =>
        rw [List.mem_singleton.mp h] at he
        exact absurd rfl he
    | dirtree c d => exact nomatch h
    | dirmeta c m => exact nomatch h
    | enter p => exact nomatch h
  · rintro ⟨pre, p, f, post, hsplit, h⟩
    exact ⟨pre, _, post, hsplit, h⟩

/-- A file of the walk in the checkout. -/
theorem mem_checkout_file {F : Finset Checksum} {p : Path} {f : String × Checksum} {e : Entry} :
    e ∈ (Visit.file p f).checkout tar o F ↔ ∃ x n, o.files[f.2]? = some x ∧
      (linkHeader F f.2 x).querySize tar = .ok n ∧
      e = hardlinkEntry (objectPath .file f.2) (linkHeader F f.2 x) n (mapPath (p.join f.1)) := by
  rw [Visit.checkout]
  cases o.files[f.2]? with
  | none =>
      constructor
      · intro h
        cases h
      · rintro ⟨x, n, h, _⟩
        cases h
  | some x =>
      dsimp only
      cases hq : (linkHeader F f.2 x).querySize tar with
      | error err =>
          constructor
          · intro h
            cases h
          · rintro ⟨x', n, hx, hn, _⟩
            rw [← Option.some.inj hx, hq] at hn
            cases hn
      | ok n =>
          dsimp only
          rw [List.mem_singleton]
          constructor
          · intro he
            exact ⟨x, n, rfl, hq, he⟩
          · rintro ⟨x', n', hx, hn, he⟩
            obtain rfl := Option.some.inj hx
            rw [hq] at hn
            rw [he, Except.ok.inj hn]

/-- With a size of zero every link has the form of an empty file. -/
theorem hardlinkEntry_type {objpath dest : Path} {hb : HeaderBuf} {n : Nat} :
    (hardlinkEntry objpath hb n dest).header.entryType = .regular ↔
      hb.entryType = .regular ∧ n = 0 := by
  rw [hardlinkEntry]
  split
  · next h => exact ⟨fun _ => h, fun _ => rfl⟩
  · next h => exact ⟨(fun hlink => nomatch hlink), fun hreg => absurd hreg h⟩

/-- A list has one split at a member that comes once. -/
theorem prefix_unique {α : Type} {l a b a' b' : List α} {x : α} (hl : l.Nodup)
    (h : l = a ++ x :: b) (h' : l = a' ++ x :: b') : a' = a := by
  subst h
  rw [List.nodup_append] at hl
  obtain ⟨_, hxb, hdisj⟩ := hl
  have hxa : x ∉ a := fun hx => hdisj x hx x (List.mem_cons_self ..) rfl
  have hxb : x ∉ b := (List.nodup_cons.mp hxb).1
  exact (List.append_cons_inj_of_notMem hxa hxb |>.mp h').1.symm

/-- The path of a link of the chunk. -/
theorem linkEntry_path {q : List String} {x y : Checksum} {f : FileObject}
    (h : (q, some y) ∈ listing o false fuel true [] commit.contents) :
    (linkEntry x f (relPath (place q))).path = relPath (place q) := by
  obtain ⟨name, rest, rfl⟩ := listing_path h
  rw [linkEntry, hardlinkEntry_path, tarPath_relPath (place_ne_nil (by simp))]

theorem linkHeader_regular {F : Finset Checksum} {c : Checksum} {f : FileObject}
    (h : (writtenHeader f).entryType = .regular) : (linkHeader F c f).entryType = .regular := by
  cases f with
  | regular uid gid mode x content =>
      rw [linkHeader]
      split <;> rfl
  | symlink uid gid x target => cases h

theorem linkHeader_querySize {F : Finset Checksum} {c : Checksum} {f : FileObject}
    (h : (writtenHeader f).entryType = .regular) :
    (linkHeader F c f).querySize tar = .ok f.size := by
  cases f with
  | regular uid gid mode x content =>
      rw [linkHeader]
      split <;> rfl
  | symlink uid gid x target => cases h

/-- **With a size of zero, a symbolic link that comes again is told apart**: the walk leaves
    an empty file at its second place, where the chunk has a link. -/
theorem not_same_checkout (hstored : ∀ ty x, o.Reaches commit.contents ty x → o.Has ty x)
    (hnames : WellNamed o commit.contents) (hroot : SysrootEmpty o commit) {m : ChunkMapping}
    (hm : WholeOf o fuel commit m) {m₀ : DirMeta} (hzero : tar.unsetSize = .ok 0)
    (hsame : ∀ e, e ∈ dirEntry tarPathPrefixV0 m₀ ::
        (checkouts tar o ∅ (visits o false fuel tarPathPrefixV0 commit.contents true)
          ++ [varTmpEntry]) ↔
      e ∈ dirEntry tarPathPrefixV0 m₀ ::
        (checkouts tar o ∅ (visits o true fuel tarPathPrefixV0 commit.contents true)
          ++ varTmpEntry :: m.toList.flatMap (itemLinks o))) :
    SymlinksOnce o fuel commit := by
  intro x uid gid xattrs target hx
  by_contra hcount
  rw [← @objectsOf_file_visits _ _ _ tarPathPrefixV0 _ _ hstored] at hcount
  obtain ⟨pre, p, f, post, hsplit, rfl, hpre⟩ := exists_second_visit (Nat.lt_of_not_le hcount)
  obtain ⟨l₁, q, l₂, hlist, hplace, hobjs⟩ := listing_split hstored hsplit
  have hq : (q, some f.2) ∈ listing o false fuel true [] commit.contents := by
    rw [hlist]
    simp
  have hdone : ∀ pre', objectsOf .file pre' = l₁.filterMap (·.2) →
      f.2 ∈ afterVisits .file ∅ pre' := by
    intro pre' h
    rw [afterVisits, h, ← hobjs]
    exact Finset.mem_union_right _ (List.mem_toFinset.mpr hpre)
  -- the empty file
  let r := hardlinkEntry (objectPath .file f.2) (contentHeader (.symlink uid gid xattrs target)) 0
    (mapPath (p.join f.1))
  have hr : r ∈ (Visit.file p f).checkout tar o (afterVisits .file ∅ pre) := by
    refine mem_checkout_file.mpr ⟨_, 0, hx, ?_, ?_⟩
    · rw [linkHeader, if_pos (hdone pre hobjs)]
      exact hzero
    · rw [linkHeader, if_pos (hdone pre hobjs)]
  have hrtype : r.header.entryType = .regular := hardlinkEntry_type.mpr ⟨rfl, rfl⟩
  have hrdir : r.header.entryType ≠ .directory := by
    rw [hrtype]
    intro h
    cases h
  obtain ⟨q', y, g, hq', hy, hrg⟩ := (mem_chunk_checkout hm hroot hrdir).mp
    ((hsame r).mp ((mem_walk_checkout hrdir).mpr ⟨pre, p, f, post, hsplit, hr⟩))
  have hplace' : place q' = place q := by
    have hrpath : r.path = relPath (place q) := (hardlinkEntry_path _ _ _ _).trans hplace
    rw [hrg, linkEntry_path hq'] at hrpath
    exact relPath_inj hrpath
  have hg : (writtenHeader g).entryType = .regular ∧ g.size = 0 :=
    hardlinkEntry_type.mp ((congrArg (·.header.entryType) hrg).symm.trans hrtype)
  have hne : q' ≠ q := by
    rintro rfl
    obtain rfl := Option.some.inj (listing_unique hnames hq' hq)
    obtain rfl := Option.some.inj (hy.symm.trans hx)
    cases hg.1
  -- the link
  let l := linkEntry f.2 (.symlink uid gid xattrs target) (relPath (place q))
  have hltype : l.header.entryType = .link := by
    show (hardlinkEntry _ _ _ _).header.entryType = _
    rw [hardlinkEntry, if_neg]
    rintro ⟨h, _⟩
    cases h
  have hldir : l.header.entryType ≠ .directory := by
    rw [hltype]
    intro h
    cases h
  obtain ⟨pre'', p'', f'', post'', hsplit'', hl⟩ := (mem_walk_checkout hldir).mp
    ((hsame l).mpr ((mem_chunk_checkout hm hroot hldir).mpr ⟨q, f.2, _, hq, hx, rfl⟩))
  obtain ⟨l₁'', q'', l₂'', hlist'', hplace'', hobjs''⟩ := listing_split hstored hsplit''
  obtain ⟨g'', n, hg'', hn, heq⟩ := mem_checkout_file.mp hl
  have hq'' : (q'', some f''.2) ∈ listing o false fuel true [] commit.contents := by
    rw [hlist'']
    simp
  have hsameplace : place q'' = place q := by
    have hlpath : l.path = relPath (place q) := linkEntry_path hq
    rw [heq, hardlinkEntry_path, hplace''] at hlpath
    exact relPath_inj hlpath
  have hnotreg : ¬ ((linkHeader (afterVisits .file ∅ pre'') f''.2 g'').entryType = .regular ∧
      n = 0) := by
    intro h
    have hreg := congrArg (·.header.entryType) heq
    rw [hltype, hardlinkEntry_type.mpr h] at hreg
    cases hreg
  rcases place_three hplace' hsameplace hne with rfl | rfl
  · -- the same visit
    obtain heq₂ := Option.some.inj (listing_unique hnames hq'' hq)
    have hpre'' : f''.2 ∈ afterVisits .file ∅ pre'' := by
      rw [heq₂]
      refine hdone pre'' (hobjs''.trans ?_)
      rw [heq₂] at hlist''
      have hnodup : (listing o false fuel true [] commit.contents).Nodup :=
        (nodup_listing hnames).of_map
      rw [prefix_unique hnodup hlist hlist'']
    rw [heq₂] at hg''
    obtain rfl := Option.some.inj (hg''.symm.trans hx)
    rw [linkHeader, if_pos hpre''] at hn hnotreg
    exact hnotreg ⟨rfl, (Except.ok.inj (hn.symm.trans hzero))⟩
  · -- the visit of the empty file
    obtain heq₂ := Option.some.inj (listing_unique hnames hq'' hq')
    rw [heq₂] at hg''
    obtain rfl := Option.some.inj (hg''.symm.trans hy)
    refine hnotreg ⟨linkHeader_regular hg.1, ?_⟩
    rw [linkHeader_querySize hg.1, hg.2] at hn
    exact (Except.ok.inj hn).symm

end Again

section Main

variable {lib : Libostree} {tar : TarCrate} {src : Repo} {c : Checksum} {commit : Commit}
  {fuel : Nat} {rev : String}

/-- Both exports succeed with the same set of entries. -/
def ExportsAgree (lib : Libostree) (tar : TarCrate) (src : Repo) (fuel : Nat) (rev : String)
    (c : Checksum) : Prop :=
  ∃ k es es', Chunking.new lib src fuel rev = .ok k ∧ exportCommit lib tar src fuel rev = .ok es ∧
    exportFinalChunk lib tar src fuel c k.remainder = .ok es' ∧ ∀ e, e ∈ es ↔ e ∈ es'

/-- The checkouts of streams with the same entries. -/
theorem Traced.mem_iff {head : List Path} {R R' : String → Finset Checksum}
    {out out' K K' : List Entry} (h : Traced head R out K) (h' : Traced head R' out' K')
    (hsame : ∀ e, e ∈ out ↔ e ∈ out') (e : Entry) : e ∈ K ↔ e ∈ K' := by
  rw [← h.checkout, ← h'.checkout, List.mem_filter, List.mem_filter, hsame]

/-- Exports that agree have no symbolic link in another form. -/
theorem linksRepeat_of_agree (hrev : src.requireRev rev = .ok c)
    (hcommit : src.commits[c]? = some commit) (hcomplete : src.Complete commit)
    (hdepth : src.DepthLt fuel commit.contents) (hnames : WellNamed src.toObjects commit.contents)
    (hfile : ∀ d, src.dirtrees[commit.contents]? = some d → ∀ f ∈ d.files, f.1 ≠ "sysroot")
    (hroot : SysrootEmpty src.toObjects commit) (h : ExportsAgree lib tar src fuel rev c) :
    LinksRepeat tar src.toObjects fuel commit := by
  have hstored : ∀ ty x, src.Reaches commit.contents ty x → src.Has ty x :=
    fun ty x hx => hcomplete ty x (.inr hx)
  obtain ⟨k, es, es', hk, hes, hes', hsame⟩ := h
  obtain ⟨m, R, w, hm, hwalk, _, htraced, _⟩ := exportCommit_traced hrev hcommit hcomplete hdepth
    hfile hes
  rcases (relinkable_iff_symlinksOnce hcomplete fuel).mp (relinkableWalk_of_ok hwalk) with
    ⟨n, hn⟩ | honce
  · by_cases hzero : n = 0
    · -- an empty file is left where the chunk has a link
      refine .inl ?_
      rw [hzero] at hn
      obtain ⟨n', hnew⟩ := chunkingNew_eq lib hrev hcommit hcomplete hdepth
      obtain rfl := Except.ok.inj (hk.symm.trans hnew)
      have hwhole := wholeOf_initialChunk src.toObjects fuel commit
      obtain ⟨m', R', w₁, w₂, hm', _, _, hfinal, _, htraced', _⟩ :=
        @exportFinalChunk_traced lib tar src c commit fuel hcommit hcomplete hdepth hfile hroot
          (initialChunk src.toObjects (src.occurrences fuel false [.rootDir] commit.contents))
          hwhole.1
      obtain rfl := Except.ok.inj (hes'.symm.trans hfinal)
      obtain rfl : m = m' := Option.some.inj (hm.symm.trans hm')
      exact not_same_checkout hstored hnames hroot hwhole hn (htraced.mem_iff htraced' hsame)
    · exact .inr ⟨n, hn, hzero⟩
  · exact .inl honce

end Main

/-- A root directory whose `bin` and `sbin` are the same symbolic link. -/
def linksTree : DirTree := { files := [("bin", sampleLinkSum), ("sbin", sampleLinkSum)], dirs := [] }

def linksTreeSum : Checksum := "f5b2f21ed0ccf9b417e00c88128b7f36e5cdda16064488f5ceb88ec53d4eda69"

def linksCommit : Commit := { contents := linksTreeSum, dirmeta := sampleMetaSum }

def linksCommitSum : Checksum := "6bc493c34d7961d33e7b0e8f57233de413db001c524e4fbbd5445bf6acdb6da2"

def linksTreeBytes : Bytes :=
  cstr "bin" ++ csumBytes sampleLinkSum ++ [4] ++ cstr "sbin" ++ csumBytes sampleLinkSum ++ [5]
    ++ [37, 75] ++ [77]

def linksTables : LibTables where
  sums := [(sampleMetaBytes, sampleMetaSum), (linksTreeBytes, linksTreeSum),
    (plainCommitBytes linksCommit, linksCommitSum)]
  files := [(sampleLink, sampleLinkSum)]
  commits := [(linksCommit, plainCommitBytes linksCommit)]
  dirtrees := [(linksTree, linksTreeBytes)]
  dirmetas := [(sampleMeta, sampleMetaBytes)]
  sums_isSha256 := by decide +kernel
  files_isSha256 := by decide +kernel

def linksRepo : Repo where
  commits := (∅ : Std.ExtTreeMap Checksum Commit).insert linksCommitSum linksCommit
  dirtrees := (∅ : Std.ExtTreeMap Checksum DirTree).insert linksTreeSum linksTree
  dirmetas := (∅ : Std.ExtTreeMap Checksum DirMeta).insert sampleMetaSum sampleMeta
  files := (∅ : Std.ExtTreeMap Checksum FileObject).insert sampleLinkSum sampleLink

theorem lookup_linksTree : linksRepo.dirtrees[linksCommit.contents]? = some linksTree :=
  Std.ExtTreeMap.getElem?_insert_self

theorem lookup_linksLink : linksRepo.files[sampleLinkSum]? = some sampleLink :=
  Std.ExtTreeMap.getElem?_insert_self

theorem linksTree_sound : SoundTree linksRepo.toObjects 1 linksCommit.contents := by
  refine SoundTree.node lookup_linksTree (by rw [UniqueNames]; decide) (fun f hf => ?_) nofun
  rcases List.mem_cons.mp hf with rfl | hf
  · exact Std.ExtTreeMap.mem_iff_lookup.mpr ⟨_, lookup_linksLink⟩
  · rw [List.mem_singleton.mp hf]
    exact Std.ExtTreeMap.mem_iff_lookup.mpr ⟨_, lookup_linksLink⟩

end OstreeExt.Tar
