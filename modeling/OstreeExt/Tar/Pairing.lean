import OstreeExt.Tar.Replay

/-!
# Xattrs references and file objects

A content object is announced by an xattrs reference.  The importer keeps one pending
reference and a cache of xattrs; a reference that finds another one pending is refused, and
so is a file without its reference.  Nothing looks at the pending reference when the stream
ends, so a last reference may stay without a file: `pairing_iff` says that this is the only
way in which an accepted stream fails to pair references and files.
-/

namespace OstreeExt.Tar

open OstreeExt Exec Std

-- ── Marks ─────────────────────────────────────────────────────────────────────

/-- What a stream says about content objects: a reference with the checksum of the xattrs
    that it points to, or a file. -/
inductive Mark where
  | reference (c : Checksum) (xattrs : Option Checksum)
  | file (c : Checksum)

/-- The bytes of an entry that `read_exact` takes. -/
def Entry.body (e : Entry) : Bytes := e.data.take e.header.size

/-- The xattrs checksum of a `.file-xattrs-link` entry: a hard link to an xattrs object, or
    the xattrs themselves. -/
def xattrsOfLink (lib : Libostree) (e : Entry) : Option Checksum :=
  match e.header.entryType with
  | .link => e.linkName.bind fun t => (parseXattrsLinkTarget (Path.parse t)).toOption
  | .regular => some (lib.sha256 e.body)
  | _ => none

/-- The xattrs checksum of a `.file.xattrs` entry: the file name of the link target. -/
def xattrsOfRef (e : Entry) : Option Checksum :=
  e.linkName.bind fun t => (Path.parse t).fileName.bind fun n => (validateSha256 n).toOption

/-- The mark of an object by its suffix. -/
def mark (lib : Libostree) (x : Checksum × String × Entry) : Option Mark :=
  if x.2.1 = "file" then some (.file x.1)
  else if x.2.1 = "file-xattrs-link" then some (.reference x.1 (xattrsOfLink lib x.2.2))
  else if x.2.1 = "xattrs" then some (.reference x.1 (xattrsOfRef x.2.2))
  else none

/-- The marks of an item of the import loop. -/
def itemMarks (lib : Libostree) (item : Except String (Entry × Path)) : List Mark :=
  (offerItem item).filterMap (mark lib)

/-- The marks of a list of items, in order. -/
def marksOf (lib : Libostree) (ents : List (Except String (Entry × Path))) : List Mark :=
  ents.flatMap (itemMarks lib)

/-- The marks of a stream, in order. -/
def marks (lib : Libostree) (s : Stream) : List Mark := marksOf lib (filterEntries s)

/-- Marks that strictly alternate: a reference, then the file that it names. -/
inductive Alternates : List Mark → Prop
  | nil : Alternates []
  | pair {ms : List Mark} (c : Checksum) (x : Option Checksum) :
      Alternates ms → Alternates (.reference c x :: .file c :: ms)

/-- The last mark is a reference. -/
def EndsOpen (ms : List Mark) : Prop := ∃ pre c x, ms = pre ++ [.reference c x]

theorem Alternates.append {ms ms' : List Mark} (h : Alternates ms) (h' : Alternates ms') :
    Alternates (ms ++ ms') := by
  induction h with
  | nil => exact h'
  | pair c x _ ih => exact .pair c x ih

/-- Marks that alternate end with a file. -/
theorem Alternates.not_endsOpen {ms : List Mark} (h : Alternates ms) : ¬ EndsOpen ms := by
  rintro ⟨pre, c, x, hms⟩
  induction h generalizing pre with
  | nil => exact absurd hms (by simp)
  | pair c' x' _ ih =>
      rcases pre with _ | ⟨a, pre⟩
      · exact absurd hms (by simp)
      rcases pre with _ | ⟨b, pre⟩
      · exact absurd hms (by simp)
      · injection hms with _ hms
        injection hms with _ hms
        exact ih pre hms

-- ── One step ──────────────────────────────────────────────────────────────────

/-- The cache holds what it held, and at most the body of the entry under its checksum. -/
def CacheGrows (lib : Libostree) (e : Entry) (imp imp' : Importer) : Prop :=
  ∀ (x : Checksum) (b : Bytes), imp'.xattrs[x]? = some b →
    imp.xattrs[x]? = some b ∨ lib.sha256 b = x ∧ b = e.body

/-- What one entry can do to the pending reference, the cache and the stored files. -/
inductive PairStep (lib : Libostree) (e : Entry) : List Mark → Importer → Importer → Prop
  | other {imp imp' : Importer} (hnext : imp'.nextXattrs = imp.nextXattrs)
      (hfiles : imp'.repo.files = imp.repo.files) (hcache : CacheGrows lib e imp imp') :
      PairStep lib e [] imp imp'
  | reference {imp imp' : Importer} (c x : Checksum) (hnone : imp.nextXattrs = none)
      (hnext : imp'.nextXattrs = some (c, x)) (hfiles : imp'.repo.files = imp.repo.files)
      (hcache : CacheGrows lib e imp imp') :
      PairStep lib e [.reference c (some x)] imp imp'
  | stored {imp imp' : Importer} (c x : Checksum) (hsome : imp.nextXattrs = some (c, x))
      (hnext : imp'.nextXattrs = none) (hmem : c ∈ imp.repo.files)
      (hfiles : imp'.repo.files = imp.repo.files) (hcache : imp'.xattrs = imp.xattrs) :
      PairStep lib e [.file c] imp imp'
  | written {imp imp' : Importer} (c x : Checksum) (o : FileObject)
      (hsome : imp.nextXattrs = some (c, x)) (hnext : imp'.nextXattrs = none)
      (hnew : c ∉ imp.repo.files) (hcached : imp.xattrs[x]? = some o.xattrs)
      (hfiles : imp'.repo.files = imp.repo.files.insertIfNew c o)
      (hcache : imp'.xattrs = imp.xattrs) :
      PairStep lib e [.file c] imp imp'

section Steps

variable {lib : Libostree} {e : Entry} {c : Checksum} {imp imp' : Importer} {u : Unit}

theorem CacheGrows.of_eq (h : imp'.xattrs = imp.xattrs) : CacheGrows lib e imp imp' := by
  intro x b hb
  rw [h] at hb
  exact .inl hb

/-- The cache takes the body of an entry. -/
theorem cacheXattrsContent_ok {expected : Option Checksum} {x : Checksum}
    (h : cacheXattrsContent lib e expected imp = .ok x imp') :
    x = lib.sha256 e.body ∧ imp' = { imp with xattrs := imp.xattrs.insert x e.body } := by
  unfold cacheXattrsContent at h
  split at h
  · cases h
  dsimp only at h
  split at h
  · cases h
  obtain ⟨contents, hread, h⟩ := liftR_bind_ok h
  have hbody : contents = e.body := by
    unfold readExact at hread
    split at hread
    · cases hread
    · cases hread
      rfl
  subst hbody
  split at h
  · cases h
  · cases h
    exact ⟨rfl, rfl⟩

theorem cacheGrows_insert {x : Checksum} (hx : x = lib.sha256 e.body)
    (h : imp'.xattrs = imp.xattrs.insert x e.body) : CacheGrows lib e imp imp' := by
  intro y b hb
  rw [h, Std.ExtTreeMap.lookup_insert] at hb
  by_cases hxy : x = y
  · rw [if_pos hxy] at hb
    injection hb with hb
    exact .inr ⟨by rw [← hb, ← hx, hxy], hb.symm⟩
  · rw [if_neg hxy] at hb
    exact .inl hb

/-- An entry that only fills the cache. -/
theorem PairStep.of_cached {x : Checksum} {expected : Option Checksum}
    (h : cacheXattrsContent lib e expected imp = .ok x imp') : PairStep lib e [] imp imp' := by
  obtain ⟨hx, rfl⟩ := cacheXattrsContent_ok h
  exact .other rfl rfl (cacheGrows_insert hx rfl)

theorem ensureNoPendingXattrs_ok (h : ensureNoPendingXattrs imp = .ok u imp') :
    imp.nextXattrs = none ∧ imp' = imp := by
  obtain ⟨i, s, hget, h⟩ := bind_ok h
  cases hget
  cases hnext : imp.nextXattrs with
  | none =>
      rw [hnext] at h
      cases h
      exact ⟨rfl, rfl⟩
  | some p =>
      rw [hnext] at h
      cases h

/-- **A `.file-xattrs-link` entry** is a reference. -/
theorem processFileXattrsLink_pairs (h : processFileXattrsLink lib e c imp = .ok u imp') :
    PairStep lib e [.reference c (xattrsOfLink lib e)] imp imp' := by
  obtain ⟨_, i, hpend, h₁⟩ := bind_ok h
  obtain ⟨hnone, rfl⟩ := ensureNoPendingXattrs_ok hpend
  dsimp only at h₁
  rw [xattrsOfLink]
  cases hty : e.header.entryType with
  | link =>
      rw [hty] at h₁
      obtain ⟨t, ht, h₂⟩ := liftR_bind_ok h₁
      obtain ⟨x, hparse, h₃⟩ := liftR_bind_ok h₂
      cases h₃
      rw [okOr_eq_ok] at ht
      have hlink : (e.linkName.bind fun t => (parseXattrsLinkTarget (Path.parse t)).toOption)
          = some x := by
        rw [ht, Option.bind_some, hparse]
        rfl
      dsimp only
      rw [hlink]
      exact .reference c x hnone rfl rfl (.of_eq rfl)
  | regular =>
      rw [hty] at h₁
      obtain ⟨x, j, hx, h₂⟩ := bind_ok h₁
      obtain ⟨hsum, rfl⟩ := cacheXattrsContent_ok hx
      cases h₂
      rw [← hsum]
      exact .reference c x hnone rfl rfl (cacheGrows_insert hsum rfl)
  | symlink => rw [hty] at h₁; cases h₁
  | directory => rw [hty] at h₁; cases h₁
  | other f => rw [hty] at h₁; cases h₁

/-- **A `.file.xattrs` entry** is a reference. -/
theorem processXattrRef_pairs (h : processXattrRef e c imp = .ok u imp') :
    PairStep lib e [.reference c (xattrsOfRef e)] imp imp' := by
  obtain ⟨_, i, hpend, h₁⟩ := bind_ok h
  obtain ⟨hnone, rfl⟩ := ensureNoPendingXattrs_ok hpend
  split at h₁
  · cases h₁
  obtain ⟨t, ht, h₂⟩ := liftR_bind_ok h₁
  obtain ⟨n, hn, h₃⟩ := liftR_bind_ok h₂
  obtain ⟨x, hx, h₄⟩ := liftR_bind_ok h₃
  cases h₄
  rw [okOr_eq_ok] at ht hn
  have href : xattrsOfRef e = some x := by
    rw [xattrsOfRef, ht, Option.bind_some, hn, Option.bind_some, hx]
    rfl
  rw [href]
  exact .reference c x hnone rfl rfl (.of_eq rfl)

/-- The xattrs that a content object is read with. -/
theorem readContentObject_xattrs {x : Bytes} {o : FileObject}
    (h : readContentObject e x = .ok o) : o.xattrs = x := by
  rw [readContentObject] at h
  split at h
  · obtain ⟨attrs, -, h⟩ := result_bind_eq_ok.mp h
    dsimp only at h
    split at h
    · cases h
      rfl
    · obtain ⟨buf, -, h⟩ := result_bind_eq_ok.mp h
      cases h
      rfl
  · obtain ⟨attrs, -, h⟩ := result_bind_eq_ok.mp h
    obtain ⟨target, -, h⟩ := result_bind_eq_ok.mp h
    cases h
    rfl
  · cases h

/-- The bookkeeping of object sets keeps everything else. -/
theorem trackImported_ok (h : trackImported c imp = .ok u imp') :
    imp'.nextXattrs = imp.nextXattrs ∧ imp'.xattrs = imp.xattrs ∧ imp'.repo = imp.repo := by
  obtain ⟨i, s, hget, h⟩ := bind_ok h
  cases hget
  cases hdata : imp.data with
  | commit o =>
      rw [hdata] at h
      cases h
      exact ⟨rfl, rfl, rfl⟩
  | objectSet imported =>
      rw [hdata] at h
      obtain ⟨_, i, hmodify, h⟩ := bind_ok h
      cases hmodify
      split at h
      · cases h
      · cases h
        exact ⟨rfl, rfl, rfl⟩

/-- **A `.file` entry** takes the reference that names it. -/
theorem importFile_pairs (h : (do importContentObject lib e c; trackImported c : ImportM Unit) imp
      = .ok u imp') : PairStep lib e [.file c] imp imp' := by
  obtain ⟨_, i, hcontent, h⟩ := bind_ok h
  obtain ⟨hnext', hcache', hrepo'⟩ := trackImported_ok h
  obtain ⟨x, hnext, ⟨hmem, rfl⟩ | ⟨hnew, b, hb, hwrite⟩⟩ := importContentObject_ok_iff.mp hcontent
  · exact .stored c x hnext hnext' hmem (by rw [hrepo']) hcache'
  · obtain ⟨o, r, ho, hr, rfl⟩ := writeContentObject_ok hwrite
    obtain ⟨_, _, rfl⟩ := Repo.writeFile_ok hr
    refine .written c x o hnext hnext' hnew ?_ (by rw [hrepo']; rfl) hcache'
    rw [hb, readContentObject_xattrs ho]

/-- Metadata objects have nothing to do with files and their xattrs. -/
theorem importMetadata_pairs {ty : ObjectType} (h : importMetadata lib e c ty imp = .ok u imp') :
    PairStep lib e [] imp imp' := by
  cases ty with
  | dirTree =>
      obtain ⟨v, _, h⟩ := liftR_bind_ok h
      obtain ⟨a, r, hr, h⟩ := onRepo_bind_ok h
      obtain ⟨_, _, rfl⟩ := Repo.writeDirtree_ok hr
      rw [assertEq_ok h]
      exact .other rfl rfl (.of_eq rfl)
  | dirMeta =>
      obtain ⟨v, _, h⟩ := liftR_bind_ok h
      obtain ⟨a, r, hr, h⟩ := onRepo_bind_ok h
      obtain ⟨_, _, rfl⟩ := Repo.writeDirmeta_ok hr
      rw [assertEq_ok h]
      exact .other rfl rfl (.of_eq rfl)
  | commit => cases h
  | commitMeta => cases h
  | file => cases h

/-- **One object.** -/
theorem importObjectAs_pairs {sfx : String} (h : importObjectAs lib e c sfx imp = .ok u imp') :
    PairStep lib e ([(c, sfx, e)].filterMap (mark lib)) imp imp' := by
  have hmark : [(c, sfx, e)].filterMap (mark lib) = (mark lib (c, sfx, e)).toList := by
    rw [List.filterMap_cons]
    cases mark lib (c, sfx, e) with
    | none => rfl
    | some m => rfl
  rw [hmark, mark]
  dsimp only
  rw [importObjectAs] at h
  split at h
  · cases h
  split at h
  · next hsfx =>
      rw [if_pos hsfx]
      exact importFile_pairs h
  next hfile =>
  rw [if_neg hfile]
  split at h
  · next hsfx =>
      obtain ⟨x, i, hcache, h⟩ := bind_ok h
      cases h
      rw [hsfx, if_neg (by decide), if_neg (by decide)]
      exact .of_cached hcache
  split at h
  · next hsfx =>
      rw [if_pos hsfx]
      exact processFileXattrsLink_pairs h
  next hlink =>
  rw [if_neg hlink]
  split at h
  · next hsfx =>
      rw [if_pos hsfx]
      exact processXattrRef_pairs h
  next href =>
  rw [if_neg href]
  obtain ⟨ty, _, h⟩ := liftR_bind_ok h
  obtain ⟨i, s, hget, h⟩ := bind_ok h
  cases hget
  cases hdata : imp.data with
  | objectSet imported => rw [hdata] at h; cases h
  | commit o =>
      rw [hdata] at h
      exact importMetadata_pairs h

theorem importObject_pairs {p : Path} (h : importObject lib e p imp = .ok u imp') :
    PairStep lib e ((offer e p).filterMap (mark lib)) imp imp' := by
  obtain ⟨⟨parentname, name, sfx⟩, hpath, h⟩ := liftR_bind_ok h
  obtain ⟨x, hsum, h⟩ := liftR_bind_ok h
  have hoffer : offer e p = [(x, sfx, e)] := by
    simp only [offer, objectOfPath, hpath, hsum]
    rfl
  rw [hoffer]
  exact importObjectAs_pairs h

/-- **One round of the loop.** -/
theorem importEntry_pairs {p : Path} (h : importEntry lib (.ok (e, p)) imp = .ok u imp') :
    PairStep lib e (itemMarks lib (.ok (e, p))) imp imp' := by
  simp only [importEntry] at h
  simp only [itemMarks, offerItem]
  cases hp : stripPrefix [Component.normal "objects"] p with
  | some q =>
      rw [hp] at h
      exact importObject_pairs h
  | none =>
      rw [hp] at h
      dsimp only at h
      split at h
      · obtain ⟨n, _, h⟩ := liftR_bind_ok h
        obtain ⟨x, _, h⟩ := liftR_bind_ok h
        obtain ⟨y, i, hcache, h⟩ := bind_ok h
        cases h
        exact .of_cached hcache
      · cases h
        exact .other rfl rfl (.of_eq rfl)

end Steps

-- ── Runs ──────────────────────────────────────────────────────────────────────

/-- A file object was announced: it has the xattrs that the reference before its first file
    points to, and some entry carried them. -/
def Announced (lib : Libostree) (bs : List Bytes) (ms : List Mark) (c : Checksum)
    (o : FileObject) : Prop :=
  ∃ pre x post, ms = pre ++ .reference c (some x) :: .file c :: post ∧ .file c ∉ pre ∧
    lib.sha256 o.xattrs = x ∧ o.xattrs ∈ bs

theorem Announced.append {lib : Libostree} {bs : List Bytes} {ms : List Mark} {c : Checksum}
    {o : FileObject} (h : Announced lib bs ms c o) (ms' : List Mark) :
    Announced lib bs (ms ++ ms') c o := by
  obtain ⟨pre, x, post, hms, hrest⟩ := h
  refine ⟨pre, x, post ++ ms', ?_, hrest⟩
  rw [hms, List.append_assoc]
  rfl

/-- The importer after some marks: all but the pending reference are paired, the cache is
    keyed by checksum, and each new file was announced. -/
structure Paired (lib : Libostree) (bs : List Bytes) (r : Repo) (ms : List Mark)
    (imp : Importer) : Prop where
  closed : imp.nextXattrs = none → Alternates ms
  pending : ∀ c x, imp.nextXattrs = some (c, x) →
    ∃ pre, ms = pre ++ [.reference c (some x)] ∧ Alternates pre
  cache : ∀ (x : Checksum) (b : Bytes), imp.xattrs[x]? = some b → lib.sha256 b = x ∧ b ∈ bs
  known : ∀ c, .file c ∈ ms → c ∈ imp.repo.files
  files : ∀ (c : Checksum) (o : FileObject), imp.repo.files[c]? = some o →
    r.files[c]? = some o ∨ Announced lib bs ms c o

section Runs

variable {lib : Libostree} {bs : List Bytes} {r : Repo} {ms ms' : List Mark} {e : Entry}
  {imp imp' : Importer} {u : Unit}

theorem Paired.cache_grows (hinv : Paired lib bs r ms imp) (hbody : e.body ∈ bs)
    (h : CacheGrows lib e imp imp') (x : Checksum) (b : Bytes) (hb : imp'.xattrs[x]? = some b) :
    lib.sha256 b = x ∧ b ∈ bs := by
  rcases h x b hb with hold | ⟨hsum, rfl⟩
  · exact hinv.cache x b hold
  · exact ⟨hsum, hbody⟩

/-- A file closes the pair that its reference has opened. -/
theorem Paired.close (hinv : Paired lib bs r ms imp) {c x : Checksum}
    (hsome : imp.nextXattrs = some (c, x)) : Alternates (ms ++ [.file c]) := by
  obtain ⟨pre, rfl, halt⟩ := hinv.pending c x hsome
  rw [List.append_assoc]
  exact halt.append (.pair c (some x) .nil)

/-- **One step keeps references and files paired.** -/
theorem Paired.step (hinv : Paired lib bs r ms imp) (hbody : e.body ∈ bs)
    (h : PairStep lib e ms' imp imp') : Paired lib bs r (ms ++ ms') imp' := by
  cases h with
  | other hnext hfiles hcache =>
      rw [List.append_nil]
      exact ⟨fun h => hinv.closed (hnext ▸ h), fun c x h => hinv.pending c x (hnext ▸ h),
        hinv.cache_grows hbody hcache, fun c h => hfiles ▸ hinv.known c h,
        fun c o h => hinv.files c o (hfiles ▸ h)⟩
  | reference c x hnone hnext hfiles hcache =>
      refine ⟨fun h => ?_, fun c' x' h => ?_, hinv.cache_grows hbody hcache, fun c' h => ?_,
        fun c' o h => ?_⟩
      · rw [hnext] at h
        cases h
      · rw [hnext] at h
        cases h
        exact ⟨ms, rfl, hinv.closed hnone⟩
      · rw [hfiles]
        refine hinv.known c' ?_
        simpa using h
      · rw [hfiles] at h
        exact (hinv.files c' o h).imp_right fun h => h.append _
  | stored c x hsome hnext hmem hfiles hcache =>
      refine ⟨fun _ => hinv.close hsome, fun c' x' h => ?_, ?_, fun c' h => ?_, fun c' o h => ?_⟩
      · rw [hnext] at h
        cases h
      · rw [hcache]
        exact hinv.cache
      · rw [hfiles]
        rcases List.mem_append.mp h with h | h
        · exact hinv.known c' h
        · cases List.mem_singleton.mp h
          exact hmem
      · rw [hfiles] at h
        exact (hinv.files c' o h).imp_right fun h => h.append _
  | written c x o hsome hnext hnew hcached hfiles hcache =>
      refine ⟨fun _ => hinv.close hsome, fun c' x' h => ?_, ?_, fun c' h => ?_, fun c' o' h => ?_⟩
      · rw [hnext] at h
        cases h
      · rw [hcache]
        exact hinv.cache
      · rw [hfiles, Std.ExtTreeMap.mem_insertIfNew_iff]
        rcases List.mem_append.mp h with h | h
        · exact .inl (hinv.known c' h)
        · cases List.mem_singleton.mp h
          exact .inr rfl
      · rw [hfiles, Std.ExtTreeMap.lookup_insertIfNew] at h
        cases hold : imp.repo.files[c']? with
        | some o'' =>
            rw [hold, Option.some_or] at h
            injection h with h
            subst h
            exact (hinv.files c' o'' hold).imp_right fun h => h.append _
        | none =>
            rw [hold, Option.none_or] at h
            split at h
            · next hc =>
                injection h with h
                subst hc h
                obtain ⟨pre, rfl, -⟩ := hinv.pending c x hsome
                obtain ⟨hsum, hmem⟩ := hinv.cache x o.xattrs hcached
                refine .inr ⟨pre, x, [], by simp, fun hpre => ?_, hsum, hmem⟩
                exact hnew (hinv.known c (List.mem_append_left _ hpre))
            · cases h

/-- **The whole loop keeps references and files paired.** -/
theorem Paired.run {ents : List (Except String (Entry × Path))}
    (hinv : Paired lib bs r ms imp) (hbodies : ∀ e p, .ok (e, p) ∈ ents → Entry.body e ∈ bs)
    (h : importObjectsImpl lib ents imp = .ok u imp') :
    Paired lib bs r (ms ++ marksOf lib ents) imp' := by
  rw [importObjectsImpl] at h
  induction ents generalizing imp ms with
  | nil =>
      cases h
      rw [marksOf, List.flatMap_nil, List.append_nil]
      exact hinv
  | cons item ents ih =>
      rw [List.forM_cons] at h
      obtain ⟨_, i, hitem, hrest⟩ := bind_ok h
      rcases item with m | ⟨e, p⟩
      · cases hitem
      have hstep := hinv.step (hbodies e p (by simp)) (importEntry_pairs hitem)
      have hrun := ih hstep (fun e p hep => hbodies e p (by simp [hep])) hrest
      rw [marksOf, List.flatMap_cons, ← List.append_assoc]
      exact hrun

/-- A fresh importer. -/
theorem Paired.fresh (hnext : imp.nextXattrs = none) (hcache : imp.xattrs = ∅)
    (hfiles : imp.repo.files = r.files) : Paired lib bs r [] imp where
  closed := fun _ => .nil
  pending := by
    intro c x h
    rw [hnext] at h
    cases h
  cache := by
    intro x b h
    rw [hcache] at h
    simp at h
  known := by simp
  files := by
    intro c o h
    rw [hfiles] at h
    exact .inl h

-- ── The head of a commit stream ───────────────────────────────────────────────

/-- The suffix of an object path is the extension of its last component. -/
theorem objectOfPath_suffix {p : Path} {c : Checksum} {sfx : String}
    (h : objectOfPath p = some (c, sfx)) : p.fileName.bind extension = some sfx := by
  unfold objectOfPath at h
  split at h
  · next parentname name sfx' hparse =>
      split at h
      · cases h
        obtain ⟨_, -, hparse⟩ := result_bind_eq_ok.mp hparse
        split at hparse
        · cases hparse
        obtain ⟨n, hn, hparse⟩ := result_bind_eq_ok.mp hparse
        obtain ⟨t, ht, hparse⟩ := result_bind_eq_ok.mp hparse
        cases hparse
        rw [okOr_eq_ok] at hn ht
        rw [hn]
        exact ht
      · cases h
  · cases h

/-- The `objects/` component has no part in the suffix. -/
theorem itemMarks_of_suffix {p : Path} {c : Checksum} {sfx : String}
    (h : objectOfPath p = some (c, sfx))
    (hsfx : sfx ≠ "file" ∧ sfx ≠ "file-xattrs-link" ∧ sfx ≠ "xattrs") :
    itemMarks lib (.ok (e, p)) = [] := by
  simp only [itemMarks, offerItem]
  cases hp : stripPrefix [Component.normal "objects"] p with
  | none => rfl
  | some q =>
      dsimp only
      rw [offer]
      cases hq : objectOfPath q with
      | none => rfl
      | some d =>
          obtain ⟨c', sfx'⟩ := d
          have hname' := objectOfPath_suffix hq
          have hname := objectOfPath_suffix h
          rw [stripPrefix_eq_some] at hp
          have hlast : p.fileName = Path.fileName q := by
            cases q with
            | nil => cases hname'
            | cons a q => simp only [hp, Path.fileName, List.singleton_append,
                List.getLast?_cons_cons]
          rw [hlast, hname'] at hname
          injection hname with hsame
          subst hsame
          simp [mark, hsfx]

theorem writePartialCommit_pairs {c : Checksum} {commit : Commit}
    (h : writePartialCommit lib c commit imp = .ok u imp') : PairStep lib e [] imp imp' := by
  obtain ⟨_, r₁, hmark, h₁⟩ := onRepo_bind_ok h
  cases hmark
  obtain ⟨_, r₂, hwrite, h₂⟩ := onRepo_bind_ok h₁
  obtain ⟨_, _, rfl⟩ := Repo.writeCommit_ok hwrite
  rw [assertEq_ok h₂]
  exact .other rfl rfl (.of_eq rfl)

/-- Detached metadata is written beside the commit. -/
theorem writeDetached_pairs {c : Checksum} {d : Dict}
    (h : onRepo (Repo.writeCommitDetachedMetadata c d) imp = .ok u imp') :
    PairStep lib e [] imp imp' := by
  obtain ⟨r₁, hwrite, rfl⟩ := onRepo_ok h
  cases hwrite
  exact .other rfl rfl (.of_eq rfl)

/-- A file needs a pending reference. -/
theorem PairStep.file_pending {c : Checksum} (h : PairStep lib e [.file c] imp imp') :
    imp.nextXattrs ≠ none := by
  intro hnone
  cases h with
  | stored _ x hsome =>
      rw [hnone] at hsome
      cases hsome
  | written _ x o hsome =>
      rw [hnone] at hsome
      cases hsome

theorem suffix_of_objtype {sfx : String} {ty : ObjectType} (h : objtypeFromString sfx = some ty) :
    sfx = objectSuffix ty := by
  unfold objtypeFromString at h
  grind [objectSuffix]

/-- A metadata object is neither a reference nor a file. -/
theorem itemMarks_metadata {p : Path} {c : Checksum} {ty : ObjectType}
    (h : parseMetadataEntry p = .ok (c, ty)) (hty : ty ≠ .file) :
    itemMarks lib (.ok (e, p)) = [] := by
  obtain ⟨sfx, hobj, hsfx⟩ := objectOfPath_of_parse h
  rw [suffix_of_objtype hsfx] at hobj
  refine itemMarks_of_suffix hobj ?_
  cases ty with
  | file => exact absurd rfl hty
  | commit => decide
  | commitMeta => decide
  | dirTree => decide
  | dirMeta => decide

/-- The object after the commit is no file: no reference is pending. -/
theorem importNextObject_pairs {c : Checksum} {p : Path} (hnone : imp.nextXattrs = none)
    (h : importNextObject lib c e p imp = .ok u imp') :
    PairStep lib e [] imp imp' ∧ itemMarks lib (.ok (e, p)) = [] := by
  obtain ⟨⟨x, ty⟩, hparse, h₁⟩ := liftR_bind_ok h
  obtain ⟨sfx, hobj, hsfx⟩ := objectOfPath_of_parse hparse
  rw [suffix_of_objtype hsfx] at hobj
  have hoffer : offer e p = [(x, objectSuffix ty, e)] := by
    rw [offer, hobj]
    rfl
  have hobject (hrun : importObject lib e p imp = .ok u imp') :
      PairStep lib e ([(x, objectSuffix ty, e)].filterMap (mark lib)) imp imp' := by
    rw [← hoffer]
    exact importObject_pairs hrun
  cases ty with
  | commitMeta =>
      obtain ⟨d, _, h₂⟩ := liftR_bind_ok h₁
      exact ⟨writeDetached_pairs h₂, itemMarks_metadata hparse (by decide)⟩
  | commit => exact ⟨hobject h₁, itemMarks_metadata hparse (by decide)⟩
  | dirTree => exact ⟨hobject h₁, itemMarks_metadata hparse (by decide)⟩
  | dirMeta => exact ⟨hobject h₁, itemMarks_metadata hparse (by decide)⟩
  | file => exact absurd hnone (hobject h₁).file_pending

theorem Paired.idle (hinv : Paired lib bs r ms imp) (hbody : e.body ∈ bs)
    (h : PairStep lib e [] imp imp') : Paired lib bs r ms imp' := by
  have hstep := hinv.step hbody h
  rw [List.append_nil] at hstep
  exact hstep

/-- **The head of a commit stream** has no mark. -/
theorem Paired.head {c : Checksum} {commit : Commit} {p : Path} {next : Checksum × ObjectType}
    (hinv : Paired lib bs r [] imp) (hnone : imp.nextXattrs = none) (hbody : e.body ∈ bs)
    (hparse : parseMetadataEntry p = .ok next)
    (h : importHead lib c commit e p next imp = .ok u imp') :
    Paired lib bs r [] imp' ∧ itemMarks lib (.ok (e, p)) = [] := by
  obtain ⟨i, s, hget, h₁⟩ := bind_ok h
  cases hget
  cases hremote : imp.remote with
  | none =>
      rw [hremote] at h₁
      obtain ⟨_, i, hwrite, h₂⟩ := bind_ok h₁
      have hpart : PairStep lib e [] imp i := writePartialCommit_pairs hwrite
      have hnone' : i.nextXattrs = none := by
        cases hpart with
        | other hnext => exact hnext.trans hnone
      obtain ⟨hstep, hmarks⟩ := importNextObject_pairs hnone' h₂
      exact ⟨(hinv.idle hbody hpart).idle hbody hstep, hmarks⟩
  | some remote =>
      rw [hremote] at h₁
      obtain ⟨x, ty⟩ := next
      have hverified : importVerified lib remote c commit e x ty imp = .ok u imp' := h₁
      rcases @importVerified_cases lib remote c commit e x ty imp with
        ⟨stop, hstop⟩ | ⟨d, rfl, rfl, _, _, hrun⟩
      · rw [hstop] at hverified
        cases hverified
      · have h₂ := hrun.symm.trans hverified
        obtain ⟨_, i, hwrite, h₃⟩ := bind_ok h₂
        have hsigned : Paired lib bs r [] { imp with repo := Repo.record (.accepted remote
            (lib.commit.toBytes commit) (lib.dict.toBytes d)) imp.repo } :=
          hinv.idle hbody (.other rfl rfl (.of_eq rfl))
        have hpart := hsigned.idle hbody (writePartialCommit_pairs hwrite)
        exact ⟨hpart.idle hbody (writeDetached_pairs h₃), itemMarks_metadata hparse (by decide)⟩

end Runs

-- ── Accepted streams ──────────────────────────────────────────────────────────

/-- The bodies of the entries of a stream. -/
def bodies (s : Stream) : List Bytes := s.filterMap fun item => item.toOption.map Entry.body

/-- A stream that `import_objects` or `import_commit` accepts, by a fresh importer. -/
def Accepts (lib : Libostree) (s : Stream) (r : Repo) (imp : Importer) : Prop :=
  importObjects lib s (.newForObjectSet r) = .ok ⟨⟩ imp ∨
    ∃ remote, importCommit lib s (.newForCommit remote r) = .ok ⟨⟩ imp

/-- **Each file object written gets its xattrs**: of all bodies in the stream, the one whose
    checksum the reference before the file points to. -/
def WritesXattrs (lib : Libostree) (s : Stream) (r r' : Repo) : Prop :=
  ∀ (c : Checksum) (o : FileObject), c ∉ r.files → r'.files[c]? = some o →
    ∃ pre x post, marks lib s = pre ++ .reference c (some x) :: .file c :: post ∧
      .file c ∉ pre ∧ o.xattrs ∈ bodies s ∧ lib.sha256 o.xattrs = x ∧
      ∀ b ∈ bodies s, lib.sha256 b = x → b = o.xattrs

section Accepted

variable {lib : Libostree} {s : Stream} {r : Repo} {imp : Importer}

theorem body_mem_bodies {e : Entry} {p : Path} (h : .ok (e, p) ∈ filterEntries s) :
    e.body ∈ bodies s := by
  rw [filterEntries, List.mem_filterMap] at h
  obtain ⟨item, hitem, h⟩ := h
  rw [bodies, List.mem_filterMap]
  cases item with
  | error m =>
      injection h with h
      cases h
  | ok e' =>
      refine ⟨.ok e', hitem, ?_⟩
      dsimp only at h
      obtain ⟨q, hq, h⟩ := Option.map_eq_some_iff.mp h
      injection h with h
      subst h
      have he : e' = e := by
        rw [filterEntry] at hq
        split at hq
        · cases hq
        split at hq
        · cases hq
        split at hq
        · cases hq
        · cases hq
          rfl
      rw [he]
      rfl

/-- **An accepted stream** leaves the importer with everything paired but the last reference. -/
theorem Accepts.paired (h : Accepts lib s r imp) :
    Paired lib (bodies s) r (marks lib s) imp := by
  rcases h with h | ⟨remote, h⟩
  · have hfresh : Paired lib (bodies s) r [] (.newForObjectSet r) := .fresh rfl rfl rfl
    exact hfresh.run (fun e p hep => body_mem_bodies hep) h
  · have hfresh : Paired lib (bodies s) r [] (.newForCommit remote r) := .fresh rfl rfl rfl
    rcases @importCommit_head_cases lib s with ⟨stop, hstop⟩ | ⟨commitEnt, commitPath, nextEnt,
      nextPath, rest, next, checksum, commit, hents, hnext, hparse, hcommit, hrun⟩
    · rw [hstop] at h
      cases h
    have hbodies : ∀ e p, .ok (e, p) ∈ filterEntries s → Entry.body e ∈ bodies s :=
      fun e p hep => body_mem_bodies hep
    rw [hents] at hbodies
    rw [hrun] at h
    obtain ⟨_, i, hhead, h₁⟩ := bind_ok h
    obtain ⟨hinv, hmarks⟩ := hfresh.head rfl (hbodies nextEnt nextPath (by simp)) hnext hhead
    obtain ⟨_, j, hmodify, h₂⟩ := bind_ok h₁
    cases hmodify
    have hmode : Paired lib (bodies s) r [] { i with data := .commit (some checksum) } :=
      ⟨hinv.closed, hinv.pending, hinv.cache, hinv.known, hinv.files⟩
    have hall := hmode.run (fun e p hep => hbodies e p (by simp [hep])) h₂
    have hsplit : marks lib s = [] ++ marksOf lib rest := by
      rw [marks, hents, marksOf, List.flatMap_cons, List.flatMap_cons,
        itemMarks_metadata hparse (by decide), hmarks]
      rfl
    rw [hsplit]
    exact hall

/-- **References and files pair up, unless the stream ends with a reference.**  For every
    stream that is accepted: the references and files of the stream alternate, each reference
    before the file that it names, and every file written has the xattrs that its reference
    points to, if and only if the last of them is not a reference. -/
theorem pairing_iff (hsha : Set.InjOn lib.sha256 {b | b ∈ bodies s}) (h : Accepts lib s r imp) :
    Alternates (marks lib s) ∧ WritesXattrs lib s r imp.repo ↔ ¬ EndsOpen (marks lib s) := by
  have hinv := h.paired
  constructor
  · rintro ⟨halt, -⟩
    exact halt.not_endsOpen
  · intro hopen
    constructor
    · cases hnext : imp.nextXattrs with
      | none => exact hinv.closed hnext
      | some p =>
          obtain ⟨c, x⟩ := p
          obtain ⟨pre, hms, -⟩ := hinv.pending c x hnext
          exact absurd ⟨pre, c, some x, hms⟩ hopen
    · intro c o hnew hstored
      rcases hinv.files c o hstored with hold | ⟨pre, x, post, hms, hpre, hsum, hmem⟩
      · exact absurd (Std.ExtTreeMap.mem_iff_isSome_getElem?.mpr (by rw [hold]; rfl)) hnew
      · refine ⟨pre, x, post, hms, hpre, hmem, hsum, fun b hb hx => ?_⟩
        exact hsha hb hmem (hx.trans hsum.symm)

end Accepted

-- ── Two small streams ─────────────────────────────────────────────────────────

/-- The sample tables, with the checksum of the text `hi`. -/
def motdTables : LibTables where
  sums := ([104, 105, 10], "98ea6e4f216f2fb4b69fff9b3a44842c38686ca685f3f55dc48c5d3fb1107be4")
    :: sampleTables.sums
  files := sampleTables.files
  sums_isSha256 := by decide +kernel
  files_isSha256 := sampleTables.files_isSha256

/-- The regular file of the sample commit, with its xattrs and the reference to them. -/
def motdEntries : List Entry :=
  [dataEntry (motdTables.lib.sha256 []) "file-xattrs" [],
   xattrsLinkEntry sampleMotdSum (motdTables.lib.sha256 []),
   contentEntry sampleTar sampleMotdSum sampleMotd]

theorem fileChecksum_motdTables : motdTables.lib.fileChecksum sampleMotd = sampleMotdSum := by
  decide +kernel

theorem motdEntries_accepted :
    ∃ imp, Accepts motdTables.lib (motdEntries.map Except.ok) {} imp := by
  have hmotd : IsSha256 sampleMotdSum := by decide +kernel
  have hlookup : ((∅ : ExtTreeMap Checksum Bytes).insert (motdTables.lib.sha256 []) [])[
      motdTables.lib.sha256 sampleMotd.xattrs]? = some sampleMotd.xattrs := by
    rw [show sampleMotd.xattrs = [] from rfl, Std.ExtTreeMap.lookup_insert, if_pos rfl]
  have hrun : ∃ imp, forM motdEntries (readEntry motdTables.lib) (.newForObjectSet {})
      = .ok ⟨⟩ imp := by
    rw [motdEntries, List.forM_cons, bind_of_ok (readEntry_xattrs (by decide) _), List.forM_cons,
      bind_of_ok (readEntry_xattrsLink hmotd (motdTables.lib.sha256_isSha256 []) _ rfl),
      List.forM_cons]
    obtain ⟨trace, hcontent⟩ := readEntry_content sampleTar_keepsLinks fileChecksum_motdTables
      (show (0o100644 : UInt32) &&& sIfmt = sIfreg by decide)
      { Importer.newForObjectSet {} with
        xattrs := (∅ : ExtTreeMap Checksum Bytes).insert (motdTables.lib.sha256 []) []
        nextXattrs := some (sampleMotdSum, motdTables.lib.sha256 []) } rfl hlookup
      (show ImporterMode.Fresh sampleMotdSum (.objectSet ∅) by simp [ImporterMode.Fresh])
    exact ⟨_, bind_of_ok hcontent⟩
  obtain ⟨imp, hrun⟩ := hrun
  refine ⟨imp, .inl ?_⟩
  rw [importObjects, importObjects_entries]
  exact hrun

theorem bodies_motdEntries : bodies (motdEntries.map Except.ok) = [[], [], [104, 105, 10]] := rfl

theorem motdEntries_injOn :
    Set.InjOn motdTables.lib.sha256 {b | b ∈ bodies (motdEntries.map Except.ok)} := by
  have hne : motdTables.lib.sha256 [] ≠ motdTables.lib.sha256 [104, 105, 10] := by decide +kernel
  intro a ha b hb hab
  rw [bodies_motdEntries] at ha hb
  simp only [Set.mem_ofPred_eq, List.mem_cons, List.not_mem_nil, or_false] at ha hb
  rcases ha with rfl | rfl | rfl <;> rcases hb with rfl | rfl | rfl
  · rfl
  · rfl
  · exact absurd hab hne
  · rfl
  · rfl
  · exact absurd hab hne
  · exact absurd hab.symm hne
  · exact absurd hab.symm hne
  · rfl

/-- The pairing at this stream. -/
theorem motdEntries_paired : ∃ imp, Accepts motdTables.lib (motdEntries.map Except.ok) {} imp ∧
    (Alternates (marks motdTables.lib (motdEntries.map Except.ok)) ∧
      WritesXattrs motdTables.lib (motdEntries.map Except.ok) {} imp.repo ↔
        ¬ EndsOpen (marks motdTables.lib (motdEntries.map Except.ok))) := by
  obtain ⟨imp, haccepts⟩ := motdEntries_accepted
  exact ⟨imp, haccepts, pairing_iff motdEntries_injOn haccepts⟩

/-- A reference without its file. -/
def danglingStream : Stream :=
  [xattrsLinkEntry sampleMotdSum (sampleTables.lib.sha256 [])].map Except.ok

/-- **A reference at the end of the stream is accepted**, and no file follows it. -/
theorem danglingStream_accepted : ∃ imp,
    Set.InjOn sampleTables.lib.sha256 {b | b ∈ bodies danglingStream} ∧
    Accepts sampleTables.lib danglingStream {} imp ∧
    ¬ Alternates (marks sampleTables.lib danglingStream) := by
  have hmotd : IsSha256 sampleMotdSum := by decide +kernel
  have hrun := @readEntry_xattrsLink sampleTables.lib _ _ hmotd
    (sampleTables.lib.sha256_isSha256 []) (.newForObjectSet {}) rfl
  have haccepts : Accepts sampleTables.lib danglingStream {} { Importer.newForObjectSet {} with
      nextXattrs := some (sampleMotdSum, sampleTables.lib.sha256 []) } := by
    refine .inl ?_
    rw [importObjects, danglingStream, importObjects_entries, List.forM_cons, bind_of_ok hrun]
    rfl
  refine ⟨_, ?_, haccepts, fun halt => ?_⟩
  · intro a ha b hb _
    rw [show bodies danglingStream = [[]] from rfl] at ha hb
    rw [List.mem_singleton.mp ha, List.mem_singleton.mp hb]
  · obtain ⟨pre, hms, -⟩ := haccepts.paired.pending _ _ rfl
    exact halt.not_endsOpen ⟨pre, _, _, hms⟩

end OstreeExt.Tar
