import OstreeExt.Tar.Entry

/-!
# What object file names decode to

`parse_object_entry_path` followed by `parse_checksum`, on every path of plain names.  The
parser drops the extension, and then `.file` as often as it ends the rest: it is there for the
legacy names `<rest>.file.xattrs`, and other names lose it as well.  `decodeObject_eq_ok` says
what decodes, and `object_names_exact_iff` for which names that is what the two forms promise.
-/

namespace OstreeExt.Tar

open OstreeExt

/-- `parse_object_entry_path` followed by `parse_checksum`: the checksum and the suffix. -/
def decodeObject (path : Path) : Result (Checksum × String) := do
  let parts ← parseObjectEntryPath path
  let checksum ← parseChecksum parts.1 parts.2.1
  .ok (checksum, parts.2.2)

/-- The path of a file in a directory, both of plain names. -/
def plainPath (dir : List String) (name : String) : Path :=
  dir.map Component.normal ++ [.normal name]

/-- The file name of an object with `.file` in front of its suffix, `n` times. -/
def paddedName (c : Checksum) (n : Nat) (suffix : String) : List Char :=
  (csumRest c).toList ++ (List.replicate n ".file".toList).flatten ++ '.' :: suffix.toList

/-- The directory is the one for a checksum, and the checksum is one. -/
def InShard (dir : List String) (c : Checksum) : Prop :=
  IsSha256 c ∧ dir.getLast? = some (csumFirst c)

instance (dir : List String) (c : Checksum) : Decidable (InShard dir c) :=
  inferInstanceAs (Decidable (_ ∧ _))

/-- **The two forms of object file names**: the digits with a suffix, and `.file.xattrs`. -/
def NamesObject (dir : List String) (name : String) (c : Checksum) (suffix : String) : Prop :=
  InShard dir c ∧ '.' ∉ suffix.toList ∧
    (name.toList = paddedName c 0 suffix ∨ (suffix = "xattrs" ∧ name.toList = paddedName c 1 suffix))

/-- The name has `.file` where neither form has it: twice or more, or once in front of a suffix
    other than `xattrs`. -/
def OverPadded (dir : List String) (name : String) : Prop :=
  ∃ c n suffix, InShard dir c ∧ '.' ∉ suffix.toList ∧ name.toList = paddedName c n suffix ∧
    (2 ≤ n ∨ (n = 1 ∧ suffix ≠ "xattrs"))

/-- The two forms of the name of one object's xattrs. -/
def XattrsTwins (dir : List String) (a b : String) : Prop :=
  ∃ c, InShard dir c ∧ a.toList = paddedName c 0 "xattrs" ∧ b.toList = paddedName c 1 "xattrs"

-- ── Trimming `.file` ──────────────────────────────────────────────────────────

/-- What was trimmed is some number of `.file`. -/
theorem trimFileRev_split (s : List Char) :
    ∃ n, s = (List.replicate n ".file".toList.reverse).flatten ++ trimFileRev s := by
  induction s using trimFileRev.induct with
  | case1 s ih =>
      obtain ⟨n, hn⟩ := ih
      refine ⟨n + 1, ?_⟩
      rw [trimFileRev, List.replicate_succ, List.flatten_cons, List.append_assoc, ← hn]
      rfl
  | case2 s hs =>
      refine ⟨0, ?_⟩
      rw [trimFileRev]
      · rfl
      · exact hs

theorem reverse_flatten_replicate (n : Nat) (s : List Char) :
    (List.replicate n s).flatten.reverse = (List.replicate n s.reverse).flatten := by
  rw [List.reverse_flatten, List.map_replicate, List.reverse_replicate]

theorem trimEndFile_split (s : List Char) :
    ∃ n, s = trimEndFile s ++ (List.replicate n ".file".toList).flatten := by
  obtain ⟨n, hn⟩ := trimFileRev_split s.reverse
  refine ⟨n, ?_⟩
  rw [trimEndFile, ← List.reverse_inj, List.reverse_append, List.reverse_reverse,
    reverse_flatten_replicate]
  exact hn

/-- `.file` goes away however often it is there. -/
theorem trimFileRev_append (n : Nat) (s : List Char) :
    trimFileRev ((List.replicate n ".file".toList.reverse).flatten ++ s) = trimFileRev s := by
  induction n with
  | zero => rfl
  | succ n ih =>
      rw [List.replicate_succ, List.flatten_cons, List.append_assoc]
      show trimFileRev ('e' :: 'l' :: 'i' :: 'f' :: '.' :: _) = _
      rw [trimFileRev]
      exact ih

theorem trimEndFile_append {s : List Char} (hs : '.' ∉ s) (n : Nat) :
    trimEndFile (s ++ (List.replicate n ".file".toList).flatten) = s := by
  have hself : trimEndFile s = s := trimEndFile_of_not_mem hs
  rw [trimEndFile, List.reverse_append, reverse_flatten_replicate, trimFileRev_append]
  exact hself

-- ── The extension ─────────────────────────────────────────────────────────────

/-- A text with a dot has a last one. -/
theorem exists_rsplitDot {s : List Char} (hs : '.' ∈ s) : ∃ p, rsplitDot s = some p := by
  induction s with
  | nil => exact absurd hs (by simp)
  | cons c s ih =>
      rw [rsplitDot]
      cases hrest : rsplitDot s with
      | some p => exact ⟨_, rfl⟩
      | none =>
          have hc : c = '.' := by
            rcases List.mem_cons.mp hs with h | h
            · exact h.symm
            · obtain ⟨p, hp⟩ := ih h
              exact absurd (hrest.symm.trans hp) (by simp)
          exact ⟨([], s), if_pos hc⟩

/-- The last dot splits a text into what is before it and a part without dots. -/
theorem rsplitDot_eq_some {s a b : List Char} :
    rsplitDot s = some (a, b) ↔ s = a ++ '.' :: b ∧ '.' ∉ b := by
  constructor
  · intro h
    induction s generalizing a with
    | nil => exact absurd h (by simp [rsplitDot])
    | cons c s ih =>
        rw [rsplitDot] at h
        cases hs : rsplitDot s with
        | some p =>
            obtain ⟨a', b'⟩ := p
            rw [hs] at h
            injection h with h
            injection h with ha hb
            subst ha hb
            obtain ⟨hs', hb⟩ := ih hs
            exact ⟨by rw [hs', List.cons_append], hb⟩
        | none =>
            rw [hs] at h
            replace h : (if c = '.' then some (([] : List Char), s) else none) = some (a, b) := h
            by_cases hc : c = '.'
            · rw [if_pos hc] at h
              injection h with h
              injection h with ha hb
              subst ha hb hc
              refine ⟨rfl, fun hmem => ?_⟩
              obtain ⟨p, hp⟩ := exists_rsplitDot hmem
              exact absurd (hs.symm.trans hp) (by simp)
            · rw [if_neg hc] at h
              exact absurd h (by simp)
  · rintro ⟨rfl, hb⟩
    exact rsplitDot_append a hb

/-- A name with an extension: the stem is not empty, and the extension has no dots. -/
theorem extension_eq_some {name suffix : String} :
    extension name = some suffix ↔ ∃ stem, stem ≠ [] ∧ '.' ∉ suffix.toList ∧
      name.toList = stem ++ '.' :: suffix.toList := by
  rw [extension]
  constructor
  · intro h
    cases hsplit : rsplitDot name.toList with
    | none =>
        rw [hsplit] at h
        exact absurd h (by simp)
    | some p =>
        obtain ⟨a, b⟩ := p
        rw [hsplit] at h
        replace h : (if a.isEmpty then none else some (String.ofList b)) = some suffix := h
        by_cases ha : a.isEmpty = true
        · rw [if_pos ha] at h
          exact absurd h (by simp)
        · rw [if_neg ha] at h
          injection h with h
          subst h
          obtain ⟨hname, hb⟩ := rsplitDot_eq_some.mp hsplit
          rw [String.toList_ofList]
          exact ⟨a, fun hnil => ha (by rw [hnil]; rfl), hb, hname⟩
  · rintro ⟨stem, hstem, hs, hname⟩
    rw [hname, rsplitDot_append stem hs]
    simp [hstem]

/-- The stem of a name with an extension. -/
theorem fileStem_eq {name suffix : String} {stem : List Char} (hstem : stem ≠ [])
    (hs : '.' ∉ suffix.toList) (hname : name.toList = stem ++ '.' :: suffix.toList) :
    fileStem name = String.ofList stem := by
  rw [fileStem, hname, rsplitDot_append stem hs]
  simp [hstem]

-- ── What decodes ──────────────────────────────────────────────────────────────

/-- A checksum in two parts, of two and of sixty-two bytes. -/
theorem csum_parts {parent rest : String} (hp : strLen parent.toList = 2)
    (hc : IsSha256 (parent ++ rest)) :
    csumFirst (parent ++ rest) = parent ∧ csumRest (parent ++ rest) = rest := by
  have hascii : ∀ d ∈ parent.toList, d.val ≤ 127 := by
    intro d hd
    refine isHexDigit_ascii (hc.2 d ?_)
    rw [String.toList_append]
    exact List.mem_append_left _ hd
  have hlen : parent.toList.length = 2 := by rw [← strLen_ascii hascii, hp]
  constructor
  · rw [csumFirst, String.toList_append, ← hlen, List.take_left, String.ofList_toList]
  · rw [csumRest, String.toList_append, ← hlen, List.drop_left, String.ofList_toList]

/-- `validate_sha256` accepts the checksums. -/
theorem validateSha256_eq_ok {s c : String} :
    validateSha256 s = .ok c ↔ IsSha256 s ∧ c = s := by
  constructor
  · intro h
    rw [validateSha256] at h
    by_cases hlen : strLen s.toList = 64
    · rw [if_neg (by simpa using hlen)] at h
      by_cases hall : s.toList.all isHexDigit = true
      · rw [if_neg (by simpa using hall)] at h
        injection h with h
        have hhex : ∀ d ∈ s.toList, isHexDigit d = true := List.all_eq_true.mp hall
        refine ⟨⟨?_, hhex⟩, h.symm⟩
        rw [← strLen_ascii (fun d hd => isHexDigit_ascii (hhex d hd)), hlen]
      · rw [if_pos (by simpa using hall)] at h
        exact absurd h (by simp)
    · rw [if_pos hlen] at h
      exact absurd h (by simp)
  · rintro ⟨hs, rfl⟩
    exact validateSha256_ok hs

theorem fileName_map_normal (dir : List String) :
    Path.fileName (dir.map Component.normal) = dir.getLast? := by
  rw [Path.fileName, List.getLast?_map]
  cases dir.getLast? with
  | none => rfl
  | some s => rfl

/-- `parse_object_entry_path` on a path of plain names. -/
theorem parseObjectEntryPath_eq_ok {dir : List String} {name : String}
    {x : String × String × String} :
    parseObjectEntryPath (plainPath dir name) = .ok x ↔
      ∃ parent suffix, dir.getLast? = some parent ∧ strLen parent.toList = 2 ∧
        extension name = some suffix ∧ x = (parent, name, suffix) := by
  rw [parseObjectEntryPath, plainPath, Path.parent_append_normal, Option.bind_some,
    fileName_map_normal, Path.fileName_append_normal]
  constructor
  · intro h
    obtain ⟨parent, hparent, h⟩ := result_bind_eq_ok.mp h
    by_cases hlen : strLen parent.toList = 2
    · rw [if_neg (by simpa using hlen)] at h
      obtain ⟨name', hname, h⟩ := result_bind_eq_ok.mp h
      obtain rfl := Option.some.inj (okOr_eq_ok.mp hname)
      obtain ⟨suffix, hsuffix, h⟩ := result_bind_eq_ok.mp h
      injection h with h
      exact ⟨parent, suffix, okOr_eq_ok.mp hparent, hlen, okOr_eq_ok.mp hsuffix, h.symm⟩
    · rw [if_pos hlen] at h
      exact absurd h (by simp)
  · rintro ⟨parent, suffix, hparent, hlen, hsuffix, rfl⟩
    rw [hparent, okOr_some, bind_ok_eq, if_neg (by simpa using hlen), okOr_some, bind_ok_eq,
      hsuffix, okOr_some, bind_ok_eq]

/-- `parse_checksum`: the stem is the digits and any number of `.file`. -/
theorem parseChecksum_eq_ok {parent name c : String} (hp : strLen parent.toList = 2) :
    parseChecksum parent name = .ok c ↔
      IsSha256 c ∧ csumFirst c = parent ∧
        ∃ n, (fileStem name).toList = (csumRest c).toList ++ (List.replicate n ".file".toList).flatten := by
  simp only [parseChecksum]
  constructor
  · intro h
    by_cases hlen : strLen (String.ofList (trimEndFile (fileStem name).toList)).toList = 62
    · rw [if_neg (by simpa using hlen)] at h
      obtain ⟨hc, rfl⟩ := validateSha256_eq_ok.mp h
      obtain ⟨hfirst, hrest⟩ := csum_parts hp hc
      refine ⟨hc, hfirst, ?_⟩
      rw [hrest, String.toList_ofList]
      exact trimEndFile_split _
    · rw [if_pos hlen] at h
      exact absurd h (by simp)
  · rintro ⟨hc, rfl, n, hstem⟩
    rw [hstem, trimEndFile_append (dot_not_mem_csumRest hc), String.ofList_toList,
      if_neg (by rw [strLen_csumRest hc]; decide), csumFirst_append_csumRest]
    exact validateSha256_ok hc

/-- **What decodes**: the digits of a checksum, `.file` any number of times, and a suffix. -/
theorem decodeObject_eq_ok {dir : List String} {name suffix : String} {c : Checksum} :
    decodeObject (plainPath dir name) = .ok (c, suffix) ↔
      InShard dir c ∧ '.' ∉ suffix.toList ∧ ∃ n, name.toList = paddedName c n suffix := by
  rw [decodeObject]
  constructor
  · intro h
    obtain ⟨x, hx, h⟩ := result_bind_eq_ok.mp h
    obtain ⟨parent, suffix', hparent, hlen, hext, rfl⟩ := parseObjectEntryPath_eq_ok.mp hx
    obtain ⟨c', hc', h⟩ := result_bind_eq_ok.mp h
    injection h with h
    injection h with h1 h2
    subst h1 h2
    obtain ⟨hc, rfl, n, hstem⟩ := (parseChecksum_eq_ok hlen).mp hc'
    obtain ⟨stem, hne, hs, hname⟩ := extension_eq_some.mp hext
    rw [fileStem_eq hne hs hname, String.toList_ofList] at hstem
    exact ⟨⟨hc, hparent⟩, hs, n, by rw [hname, hstem, paddedName]⟩
  · rintro ⟨⟨hc, hparent⟩, hs, n, hname⟩
    have hne : (csumRest c).toList ++ (List.replicate n ".file".toList).flatten ≠ [] :=
      List.append_ne_nil_of_left_ne_nil (csumRest_ne_nil hc) _
    have hlen := strLen_csumFirst hc
    have hobj := parseObjectEntryPath_eq_ok.mpr
      ⟨_, _, hparent, hlen, extension_eq_some.mpr ⟨_, hne, hs, hname⟩, rfl⟩
    have hsum : parseChecksum (csumFirst c) name = .ok c := by
      refine (parseChecksum_eq_ok hlen).mpr ⟨hc, rfl, n, ?_⟩
      rw [fileStem_eq hne hs hname, String.toList_ofList]
    rw [hobj, bind_ok_eq]
    show (parseChecksum (csumFirst c) name >>= _) = _
    rw [hsum]
    rfl

/-- A name is the padded name of one object only, and its padding can be counted. -/
theorem paddedName_unique {dir : List String} {name s t : String} {c d : Checksum} {n m : Nat}
    (hc : InShard dir c) (hd : InShard dir d) (hs : '.' ∉ s.toList) (ht : '.' ∉ t.toList)
    (hn : name.toList = paddedName c n s) (hm : name.toList = paddedName d m t) :
    c = d ∧ s = t ∧ n = m := by
  have h1 : decodeObject (plainPath dir name) = .ok (c, s) := decodeObject_eq_ok.mpr ⟨hc, hs, n, hn⟩
  have h2 : decodeObject (plainPath dir name) = .ok (d, t) := decodeObject_eq_ok.mpr ⟨hd, ht, m, hm⟩
  have heq := h1.symm.trans h2
  injection heq with heq
  injection heq with hcd hst
  subst hcd hst
  have hlen := congrArg List.length (hn.symm.trans hm)
  simp only [paddedName, List.length_append, List.length_flatten, List.map_replicate,
    List.sum_replicate_nat, List.length_cons] at hlen
  have hfile : ".file".toList.length = 5 := rfl
  rw [hfile] at hlen
  refine ⟨rfl, rfl, ?_⟩
  omega

/-- One of the two forms decodes. -/
theorem NamesObject.decodes {dir : List String} {name suffix : String} {c : Checksum}
    (h : NamesObject dir name c suffix) :
    decodeObject (plainPath dir name) = .ok (c, suffix) := by
  obtain ⟨hc, hs, hname | ⟨_, hname⟩⟩ := h
  · exact decodeObject_eq_ok.mpr ⟨hc, hs, 0, hname⟩
  · exact decodeObject_eq_ok.mpr ⟨hc, hs, 1, hname⟩

/-- What decodes has one of the two forms, unless it is padded otherwise. -/
theorem namesObject_of_decodes {dir : List String} {name suffix : String} {c : Checksum}
    (hname : ¬ OverPadded dir name)
    (h : decodeObject (plainPath dir name) = .ok (c, suffix)) : NamesObject dir name c suffix := by
  obtain ⟨hc, hs, n, hn⟩ := decodeObject_eq_ok.mp h
  refine ⟨hc, hs, ?_⟩
  by_cases h0 : n = 0
  · rw [h0] at hn
    exact .inl hn
  · by_cases h1 : n = 1 ∧ suffix = "xattrs"
    · rw [h1.1] at hn
      exact .inr ⟨h1.2, hn⟩
    · refine absurd ⟨c, n, suffix, hc, hs, hn, ?_⟩ hname
      by_cases h2 : n = 1
      · exact .inr ⟨h2, fun hsfx => h1 ⟨h2, hsfx⟩⟩
      · exact .inl (by omega)

/-- A name that is padded otherwise decodes, and has neither form. -/
theorem OverPadded.decodes {dir : List String} {name : String} (h : OverPadded dir name) :
    ∃ c suffix, decodeObject (plainPath dir name) = .ok (c, suffix) ∧
      ¬ NamesObject dir name c suffix := by
  obtain ⟨c, n, suffix, hc, hs, hn, hpad⟩ := h
  refine ⟨c, suffix, decodeObject_eq_ok.mpr ⟨hc, hs, n, hn⟩, ?_⟩
  rintro ⟨_, _, h0 | ⟨hsfx, h1⟩⟩
  · obtain ⟨_, _, rfl⟩ := paddedName_unique hc hc hs hs hn h0
    omega
  · obtain ⟨_, _, rfl⟩ := paddedName_unique hc hc hs hs hn h1
    rcases hpad with h2 | ⟨_, hne⟩
    · omega
    · exact hne hsfx

/-- Two names of one object in one directory: the same, or the two forms for its xattrs. -/
theorem eq_or_twins {dir : List String} {a b suffix : String} {c : Checksum}
    (ha : NamesObject dir a c suffix) (hb : NamesObject dir b c suffix) :
    a = b ∨ XattrsTwins dir a b ∨ XattrsTwins dir b a := by
  obtain ⟨hc, _, ha | ⟨hsfx, ha⟩⟩ := ha
  · obtain ⟨_, _, hb | ⟨hsfx, hb⟩⟩ := hb
    · exact .inl (String.toList_inj.mp (ha.trans hb.symm))
    · subst hsfx
      exact .inr (.inl ⟨c, hc, ha, hb⟩)
  · subst hsfx
    obtain ⟨_, _, hb | ⟨_, hb⟩⟩ := hb
    · exact .inr (.inr ⟨c, hc, hb, ha⟩)
    · exact .inl (String.toList_inj.mp (ha.trans hb.symm))

/-- The two forms are different names for the same thing. -/
theorem XattrsTwins.collide {dir : List String} {a b : String} (h : XattrsTwins dir a b) :
    a ≠ b ∧ ∃ c, decodeObject (plainPath dir a) = .ok (c, "xattrs") ∧
      decodeObject (plainPath dir b) = .ok (c, "xattrs") := by
  obtain ⟨c, hc, ha, hb⟩ := h
  have hs : '.' ∉ "xattrs".toList := by decide
  refine ⟨?_, c, decodeObject_eq_ok.mpr ⟨hc, hs, 0, ha⟩, decodeObject_eq_ok.mpr ⟨hc, hs, 1, hb⟩⟩
  rintro rfl
  obtain ⟨_, _, h01⟩ := paddedName_unique hc hc hs hs ha hb
  exact absurd h01 (by decide)

-- ── Names that are written ────────────────────────────────────────────────────

/-- A written path decodes to the checksum and the suffix it was made from. -/
theorem decodeObject_objectFile {c : Checksum} (hc : IsSha256 c) {suffix : String}
    (hs : '.' ∉ suffix.toList) : decodeObject (objectFile c suffix) = .ok (c, suffix) := by
  have hpath : objectFile c suffix
      = plainPath ["sysroot", "ostree", "repo", "objects", csumFirst c] (objectFileName c suffix) := rfl
  rw [hpath]
  refine decodeObject_eq_ok.mpr ⟨⟨hc, rfl⟩, hs, 0, ?_⟩
  rw [objectFileName_toList, paddedName]
  simp

-- ── Main result ───────────────────────────────────────────────────────────────

/-- **Object paths are parsed exactly, except for padded names.**  Decoding inverts encoding.
    Two names of one directory decode to what the two forms say, and to different things, if and
    only if neither is padded with `.file` outside these forms, and they are not the two forms
    for the xattrs of one object. -/
theorem object_names_exact_iff (dir : List String) (a b : String) :
    (∀ c, IsSha256 c →
      (∀ ty, decodeObject (objectPath ty c) = .ok (c, objectSuffix ty)) ∧
      decodeObject (v1XattrsObjectPath c) = .ok (c, "file-xattrs") ∧
      decodeObject (v1XattrsLinkObjectPath c) = .ok (c, "file-xattrs-link")) ∧
    (((∀ c suffix, decodeObject (plainPath dir a) = .ok (c, suffix) ↔ NamesObject dir a c suffix) ∧
      (∀ c suffix, decodeObject (plainPath dir b) = .ok (c, suffix) ↔ NamesObject dir b c suffix) ∧
      (∀ x, decodeObject (plainPath dir a) = .ok x → decodeObject (plainPath dir b) = .ok x →
        a = b)) ↔
     ¬ OverPadded dir a ∧ ¬ OverPadded dir b ∧ ¬ XattrsTwins dir a b ∧ ¬ XattrsTwins dir b a) := by
  constructor
  · intro c hc
    have hty : ∀ ty, decodeObject (objectPath ty c) = .ok (c, objectSuffix ty) := by
      intro ty
      refine decodeObject_objectFile hc ?_
      cases ty <;> decide
    exact ⟨hty, decodeObject_objectFile hc (by decide), decodeObject_objectFile hc (by decide)⟩
  · constructor
    · rintro ⟨ha, hb, hinj⟩
      have hover : ∀ name, (∀ c suffix, decodeObject (plainPath dir name) = .ok (c, suffix) ↔
          NamesObject dir name c suffix) → ¬ OverPadded dir name := by
        intro name hname hpad
        obtain ⟨c, suffix, hdec, hnot⟩ := hpad.decodes
        exact hnot ((hname c suffix).mp hdec)
      refine ⟨hover a ha, hover b hb, fun h => ?_, fun h => ?_⟩
      · obtain ⟨hne, c, h1, h2⟩ := h.collide
        exact hne (hinj _ h1 h2)
      · obtain ⟨hne, c, h1, h2⟩ := h.collide
        exact hne (hinj _ h2 h1).symm
    · rintro ⟨ha, hb, hab, hba⟩
      refine ⟨fun c suffix => ⟨namesObject_of_decodes ha, fun h => h.decodes⟩,
        fun c suffix => ⟨namesObject_of_decodes hb, fun h => h.decodes⟩, ?_⟩
      rintro ⟨c, suffix⟩ h1 h2
      rcases eq_or_twins (namesObject_of_decodes ha h1) (namesObject_of_decodes hb h2) with h | h | h
      · exact h
      · exact absurd h hab
      · exact absurd h hba

/-- **A padded name decodes as well**: `<rest>.file.commit` is taken for the commit object that
    `<rest>.commit` names. -/
theorem padded_commit_decodes :
    decodeObject (plainPath ["b8"]
      "627e3ef0f255a322d2bd9610cfaaacc8f122b7f8d17c0e7e3caafa160f9fc7.file.commit")
      = .ok ("b8627e3ef0f255a322d2bd9610cfaaacc8f122b7f8d17c0e7e3caafa160f9fc7", "commit") ∧
    decodeObject (plainPath ["b8"]
      "627e3ef0f255a322d2bd9610cfaaacc8f122b7f8d17c0e7e3caafa160f9fc7.commit")
      = .ok ("b8627e3ef0f255a322d2bd9610cfaaacc8f122b7f8d17c0e7e3caafa160f9fc7", "commit") ∧
    ¬ NamesObject ["b8"]
      "627e3ef0f255a322d2bd9610cfaaacc8f122b7f8d17c0e7e3caafa160f9fc7.file.commit"
      "b8627e3ef0f255a322d2bd9610cfaaacc8f122b7f8d17c0e7e3caafa160f9fc7" "commit" := by
  have hc : InShard ["b8"] "b8627e3ef0f255a322d2bd9610cfaaacc8f122b7f8d17c0e7e3caafa160f9fc7" := by
    decide
  have hs : '.' ∉ "commit".toList := by decide
  refine ⟨decodeObject_eq_ok.mpr ⟨hc, hs, 1, by decide⟩,
    decodeObject_eq_ok.mpr ⟨hc, hs, 0, by decide⟩, ?_⟩
  rintro ⟨_, _, h | ⟨h, _⟩⟩
  · exact absurd h (by decide)
  · exact absurd h (by decide)

end OstreeExt.Tar
