import OstreeExt.Path
import OstreeExt.Refescape

/-!
# Escaped names as paths

A ref is stored as a file, so its name has to be a path: components that are not empty, of the
characters that a ref may have.  **`prefixEscapeForRef_spec`** says that escaping gives such a
path, for every text that it accepts, and that the text can be read back.

Slashes of the text that separate two components stay slashes.  The path of one text can therefore
lie below the path of another one; `escapeForRef_below_iff` says when.
-/

namespace OstreeExt.Refescape

open OstreeExt

-- ── Characters ────────────────────────────────────────────────────────────────

/-- A character of a path component in a ref: an ASCII letter or digit, `-` or `_`. -/
def IsRefChar (c : Char) : Prop := c.isAlphanum = true ∨ c = '-' ∨ c = '_'

theorem not_refChar_slash : ¬ IsRefChar '/' := by
  rintro (h | h | h)
  · exact absurd h (by decide)
  · exact absurd h (by decide)
  · exact absurd h (by decide)

theorem alphanum_digitChar {d : Nat} (hd : d < 16) : IsRefChar (Nat.digitChar d).toUpper := by
  refine .inl ?_
  interval_cases d <;> decide

theorem escapeC_refChars (c : Char) : ∀ d ∈ escapeC c, IsRefChar d := by
  intro d hd
  rw [escapeC, List.cons_append, List.mem_cons, List.mem_append, List.mem_singleton] at hd
  rcases hd with rfl | hd | rfl
  · exact .inr (.inr rfl)
  · exact hexUpper_forall (fun _ => alphanum_digitChar) _ d hd
  · exact .inr (.inr rfl)

-- ── The fragments ─────────────────────────────────────────────────────────────

/-- A round writes a slash, or characters of a component. -/
theorem escapeOut_cases (prev hasNext : Bool) (c : Char) :
    (escapeOut prev hasNext c = ['/'] ∧ c = '/' ∧ prev = true ∧ hasNext = true) ∨
      (escapeOut prev hasNext c ≠ [] ∧ ∀ d ∈ escapeOut prev hasNext c, IsRefChar d) := by
  rw [escapeOut]
  by_cases halnum : c.isAlphanum = true
  · rw [if_pos halnum]
    refine .inr ⟨by simp, fun d hd => ?_⟩
    rw [List.mem_singleton.mp hd]
    exact .inl halnum
  rw [if_neg halnum]
  by_cases hslash : c = '/' ∧ prev ∧ hasNext
  · rw [if_pos hslash, hslash.1]
    exact .inl ⟨rfl, rfl, hslash.2.1, hslash.2.2⟩
  rw [if_neg hslash]
  by_cases hdash : c = '-'
  · rw [if_pos hdash, hdash]
    refine .inr ⟨by simp, fun d hd => ?_⟩
    rw [List.mem_singleton.mp hd]
    exact .inr (.inl rfl)
  rw [if_neg hdash]
  by_cases hund : c = '_'
  · rw [if_pos hund]
    refine .inr ⟨by simp, fun d hd => .inr (.inr ?_)⟩
    simpa using hd
  rw [if_neg hund]
  exact .inr ⟨by simp [escapeC], escapeC_refChars c⟩

-- ── What can be escaped ───────────────────────────────────────────────────────

/-- **The loop fails for NUL characters only.** -/
theorem escapeLoop_error_iff {s : List Char} {prev : Bool} :
    (∃ e, escapeLoop prev s = .error e) ↔ '\x00' ∈ s := by
  induction s generalizing prev with
  | nil => simp [escapeLoop]
  | cons c it ih =>
      by_cases hc : c = '\x00'
      · subst hc
        rw [escapeLoop_nul]
        simp
      · rw [escapeLoop_cons hc, List.mem_cons, or_iff_right (fun h => hc h.symm), ← @ih c.isAlphanum]
        cases escapeLoop c.isAlphanum it <;> simp [Except.map]

/-- **The invariant of the loop**: all fragments have characters of a ref, and none is empty but
    the first one, which goes on with what was written before. -/
theorem escapeLoop_fragments {s r : List Char} {prev : Bool} (h : escapeLoop prev s = .ok r) :
    ∃ f fs, splitChar '/' r = f :: fs ∧ (∀ g ∈ f :: fs, ∀ c ∈ g, IsRefChar c) ∧
      (∀ g ∈ fs, g ≠ []) ∧ (prev = false → s ≠ [] → f ≠ []) := by
  induction s generalizing prev r with
  | nil =>
      injection h with h
      subst h
      exact ⟨[], [], rfl, by simp, by simp, fun _ hne => absurd rfl hne⟩
  | cons c it ih =>
      obtain ⟨_, r', hrest, rfl⟩ := escapeLoop_cons_ok h
      obtain ⟨f, fs, hsplit, hchars, hfull, hfirst⟩ := ih hrest
      rcases escapeOut_cases prev (!it.isEmpty) c with ⟨hout, rfl, hprev, hnext⟩ | ⟨hne, hout⟩
      · -- after the slash a new fragment begins, and it is not empty
        have hit : it ≠ [] := by simpa using hnext
        have hf : f ≠ [] := hfirst (by decide) hit
        refine ⟨[], f :: fs, ?_, ?_, ?_, fun h => absurd (h.symm.trans hprev) (by simp)⟩
        · rw [hout, List.singleton_append, splitChar_cons_self, hsplit]
        · intro g hg
          rcases List.mem_cons.mp hg with rfl | hg
          · simp
          · exact hchars g hg
        · intro g hg
          rcases List.mem_cons.mp hg with rfl | hg
          · exact hf
          · exact hfull g hg
      · have hslash : '/' ∉ escapeOut prev (!it.isEmpty) c :=
          fun h => not_refChar_slash (hout _ h)
        refine ⟨_, fs, splitChar_prepend hslash hsplit, ?_, hfull, fun _ _ => by simp [hne]⟩
        intro g hg d hd
        rcases List.mem_cons.mp hg with rfl | hg
        · rcases List.mem_append.mp hd with hd | hd
          · exact hout d hd
          · exact hchars f (List.mem_cons_self ..) d hd
        · exact hchars g (List.mem_cons_of_mem _ hg) d hd

/-- A path of a ref: fragments of ref characters, none of them empty, joined by single slashes. -/
def IsRefPath (l : List Char) : Prop :=
  ∃ fragments : List (List Char), fragments ≠ [] ∧ l = joinChar '/' fragments ∧
    ∀ f ∈ fragments, f ≠ [] ∧ ∀ c ∈ f, IsRefChar c

theorem isRefPath_escapeForRef {s r : List Char} (h : escapeForRef s = .ok r) : IsRefPath r := by
  rw [escapeForRef] at h
  split at h
  · exact absurd h (by simp)
  next hne =>
  obtain ⟨f, fs, hsplit, hchars, hfull, hfirst⟩ := escapeLoop_fragments h
  have hf : f ≠ [] := hfirst rfl (by simpa using hne)
  refine ⟨f :: fs, by simp, ?_, fun g hg => ⟨?_, hchars g hg⟩⟩
  · rw [← hsplit, joinChar_splitChar]
  · rcases List.mem_cons.mp hg with rfl | hg
    · exact hf
    · exact hfull g hg

/-- `escape_for_ref` fails for the empty text, and for NUL characters. -/
theorem escapeForRef_error_iff {s : List Char} :
    (∃ e, escapeForRef s = .error e) ↔ s = [] ∨ '\x00' ∈ s := by
  rw [escapeForRef]
  by_cases hs : s = []
  · subst hs
    simp
  · rw [if_neg (by simpa using hs), escapeLoop_error_iff, or_iff_right hs]

/-- **Escaping is a valid encoding that can be inverted**: it fails just for the empty text and for
    NUL characters; otherwise what follows the prefix is a path of a ref, and unescaping gives the
    text back.  So no two texts have one escaped form. -/
theorem prefixEscapeForRef_spec (pfx s : String) :
    ((∃ e, prefixEscapeForRef pfx s = .error e) ↔ s = "" ∨ '\x00' ∈ s.toList) ∧
    (∀ r, prefixEscapeForRef pfx s = .ok r → (∃ l, r = pfx ++ "/" ++ String.ofList l ∧ IsRefPath l) ∧
      unprefixUnescapeRef pfx r = .ok s) ∧
    ∀ t r, prefixEscapeForRef pfx s = .ok r → prefixEscapeForRef pfx t = .ok r → s = t := by
  have hinv : ∀ {t r : String}, prefixEscapeForRef pfx t = .ok r →
      unprefixUnescapeRef pfx r = .ok t := unprefixUnescapeRef_prefixEscapeForRef
  refine ⟨?_, ?_, fun t r hs ht => Except.ok.inj ((hinv hs).symm.trans (hinv ht))⟩
  · have hempty : s = "" ↔ s.toList = [] := by
      rw [← String.toList_inj]
      rfl
    rw [hempty, ← escapeForRef_error_iff, prefixEscapeForRef]
    cases escapeForRef s.toList <;> simp [Except.map]
  · intro r hr
    refine ⟨?_, hinv hr⟩
    rw [prefixEscapeForRef] at hr
    cases hescape : escapeForRef s.toList with
    | error e =>
        rw [hescape] at hr
        exact absurd hr (by simp [Except.map])
    | ok l =>
        rw [hescape] at hr
        injection hr with hr
        exact ⟨l, hr.symm, isRefPath_escapeForRef hescape⟩

/-- An image name comes back from its ref. -/
theorem unescape_ociName : unprefixUnescapeRef "container" "container/oci_3A_os" = .ok "oci:os" :=
  ((prefixEscapeForRef_spec "container" "oci:os").2.1 _ (by decide +kernel)).2

-- ── One name below another ────────────────────────────────────────────────────

/-- The loop variable of `escape_for_ref` behind a text. -/
def lastAlphanumeric (prev : Bool) : List Char → Bool
  | [] => prev
  | c :: it => lastAlphanumeric c.isAlphanum it

theorem lastAlphanumeric_iff {s : List Char} :
    lastAlphanumeric false s = true ↔ ∃ c, s.getLast? = some c ∧ c.isAlphanum = true := by
  have hall : ∀ prev, lastAlphanumeric prev s = (s.getLast?.map Char.isAlphanum).getD prev := by
    induction s with
    | nil => exact fun prev => rfl
    | cons c it ih =>
        intro prev
        rw [lastAlphanumeric, ih]
        cases it with
        | nil => rfl
        | cons d it =>
            rw [List.getLast?_cons_cons, List.getLast?_eq_some_getLast (by simp)]
            rfl
  rw [hall]
  cases s.getLast? <;> simp

/-- Only a slash is written in another way at the end. -/
theorem escapeOut_hasNext (prev hasNext : Bool) (c : Char) :
    escapeOut prev hasNext c = escapeOut prev true c ∨
      (c = '/' ∧ prev = true ∧ hasNext = false) := by
  cases hasNext with
  | true => exact .inl rfl
  | false =>
      by_cases hc : c = '/' ∧ prev = true
      · exact .inr ⟨hc.1, hc.2, rfl⟩
      · refine .inl ?_
        have hnot : ∀ b : Prop, ¬ (c = '/' ∧ prev = true ∧ b) := fun b h => hc ⟨h.1, h.2.1⟩
        rw [escapeOut, escapeOut, if_neg (hnot _), if_neg (hnot _)]

/-- Where the escaped form of a longer text goes on with a slash, that text does, behind a letter
    or digit and in front of more. -/
theorem slash_of_escaped {s r rest t : List Char} {prev : Bool} (h : escapeLoop prev s = .ok r)
    (h' : escapeLoop prev (s ++ '/' :: rest) = .ok (r ++ '/' :: t)) :
    rest ≠ [] ∧ lastAlphanumeric prev s = true := by
  induction s generalizing prev r with
  | nil =>
      injection h with h
      subst h
      obtain ⟨_, r', _, heq⟩ := escapeLoop_cons_ok h'
      rcases escapeOut_cases prev (!rest.isEmpty) '/' with ⟨_, _, hprev, hnext⟩ | ⟨hne, hout⟩
      · exact ⟨by simpa using hnext, hprev⟩
      · obtain ⟨d, ds, hds⟩ := List.exists_cons_of_ne_nil hne
        rw [hds] at heq hout
        injection heq with hd _
        exact absurd (hout d (List.mem_cons_self ..)) (hd ▸ not_refChar_slash)
  | cons c it ih =>
      obtain ⟨_, r₁, hrest, rfl⟩ := escapeLoop_cons_ok h
      rw [List.cons_append] at h'
      obtain ⟨_, r₁', hrest', heq⟩ := escapeLoop_cons_ok h'
      have hnext : (!(it ++ '/' :: rest).isEmpty) = true := by simp
      rw [hnext, List.append_assoc] at heq
      rcases escapeOut_hasNext prev (!it.isEmpty) c with hout | ⟨rfl, rfl, hend⟩
      · rw [hout] at heq
        have hcancel := List.append_cancel_left heq
        rw [← hcancel] at hrest'
        exact ih hrest hrest'
      · -- a slash at the end of the text is escaped, but not the same one inside the longer text
        have hlast : escapeOut true false '/' = ['_', '2', 'F', '_'] := by decide
        have hinner : escapeOut true true '/' = ['/'] := by decide
        rw [hend, hlast, hinner] at heq
        injection heq with hd _
        exact absurd hd (by decide)

/-- Behind a letter or digit a slash in front of more stays a slash. -/
theorem escaped_slash {s r rest r' : List Char} {prev : Bool} (h : escapeLoop prev s = .ok r)
    (hlast : lastAlphanumeric prev s = true) (hrest : rest ≠ [])
    (h' : escapeLoop prev (s ++ '/' :: rest) = .ok r') : ∃ t, r' = r ++ '/' :: t := by
  induction s generalizing prev r r' with
  | nil =>
      injection h with h
      subst h
      obtain ⟨_, t, _, rfl⟩ := escapeLoop_cons_ok h'
      have hprev : prev = true := hlast
      have hnext : (!rest.isEmpty) = true := by simpa using hrest
      have hout : escapeOut true true '/' = ['/'] := by decide
      rw [hprev, hnext, hout]
      exact ⟨t, rfl⟩
  | cons c it ih =>
      obtain ⟨_, r₁, hrun, rfl⟩ := escapeLoop_cons_ok h
      rw [List.cons_append] at h'
      obtain ⟨_, r₁', hrun', rfl⟩ := escapeLoop_cons_ok h'
      obtain ⟨t, rfl⟩ := ih hrun hlast hrun'
      have hnext : (!(it ++ '/' :: rest).isEmpty) = true := by simp
      rw [hnext]
      rcases escapeOut_hasNext prev (!it.isEmpty) c with hout | ⟨rfl, _, hend⟩
      · exact ⟨t, by rw [hout, List.append_assoc]⟩
      · -- a slash at the end of the text is no letter or digit
        obtain rfl : it = [] := by simpa using hend
        rw [lastAlphanumeric, lastAlphanumeric] at hlast
        exact absurd hlast (by decide)

/-- **When an escaped text lies below another one**: the text goes on where the other one ends, with
    a slash behind a letter or digit. -/
theorem escapeLoop_below_iff {s t r r' : List Char} {prev : Bool} (hs : escapeLoop prev s = .ok r)
    (ht : escapeLoop prev t = .ok r') : (∃ u, r' = r ++ '/' :: u) ↔
      ∃ rest, t = s ++ '/' :: rest ∧ rest ≠ [] ∧ lastAlphanumeric prev s = true := by
  constructor
  · rintro ⟨u, rfl⟩
    -- reading the longer form gives the shorter text back first
    have hread := unescapeLoop_escapeLoop t prev _ ht
    rw [unescapeLoop_escapeLoop_append hs, unescapeLoop, if_neg (by decide), if_pos (.inr rfl)] at hread
    cases hrest : unescapeLoop .text u with
    | error e =>
        rw [hrest] at hread
        exact absurd hread (by simp [Except.map])
    | ok rest =>
        rw [hrest] at hread
        injection hread with hread
        subst hread
        exact ⟨rest, rfl, slash_of_escaped hs ht⟩
  · rintro ⟨rest, rfl, hrest, hlast⟩
    exact escaped_slash hs hlast hrest ht

/-- The same for refs under one prefix, by their components. -/
theorem prefixEscapeForRef_below_iff {pfx s t r r' : String} (hs : prefixEscapeForRef pfx s = .ok r)
    (ht : prefixEscapeForRef pfx t = .ok r') :
    (splitChar '/' r.toList <+: splitChar '/' r'.toList ∧
        splitChar '/' r.toList ≠ splitChar '/' r'.toList) ↔
      ∃ rest, t.toList = s.toList ++ '/' :: rest ∧ rest ≠ [] ∧
        ∃ c, s.toList.getLast? = some c ∧ c.isAlphanum = true := by
  have hloop : ∀ {s r : String}, prefixEscapeForRef pfx s = .ok r →
      ∃ l, escapeLoop false s.toList = .ok l ∧ r.toList = pfx.toList ++ '/' :: l := by
    intro s r h
    rw [prefixEscapeForRef] at h
    cases hescape : escapeForRef s.toList with
    | error e =>
        rw [hescape] at h
        exact absurd h (by simp [Except.map])
    | ok l =>
        rw [hescape] at h
        injection h with h
        refine ⟨l, ?_, by rw [← h]; simp⟩
        rw [escapeForRef] at hescape
        split at hescape
        · exact absurd hescape (by simp)
        · exact hescape
  obtain ⟨l, hl, hr⟩ := hloop hs
  obtain ⟨l', hl', hr'⟩ := hloop ht
  rw [splitChar_properPrefix, hr, hr', ← lastAlphanumeric_iff]
  refine Iff.trans ?_ ((escapeLoop_below_iff hl hl').trans (exists_congr fun rest => Iff.rfl))
  refine exists_congr (fun u => ?_)
  rw [List.append_assoc, List.append_cancel_left_eq, List.cons_append, List.cons.injEq,
    and_iff_right rfl]

end OstreeExt.Refescape
