import OstreeExt.Prelude
import Mathlib.Tactic.IntervalCases

/-!
# Escaping strings for ostree refs

The scheme of `refescape.rs`: ASCII letters and digits and `-` stand for themselves,
`_` is doubled, a `/` stays where it separates two path components, and every other
character is written as its code point in upper-case hex between underscores.

`unescapeForRef_escapeForRef` is the round trip; the store relies on it to get image
names and layer digests back from ref names.
-/

namespace OstreeExt.Refescape

open OstreeExt

/-- The digits of `{:02X}`. -/
def hexUpper (n : Nat) : List Char :=
  let ds := (Nat.toDigits 16 n).map Char.toUpper
  if ds.length < 2 then '0' :: ds else ds

/-- `_{:02X}_` of a character. -/
def escapeC (c : Char) : List Char :=
  '_' :: hexUpper c.toNat ++ ['_']

/-- The loop of `escape_for_ref`; `previousAlphanumeric` is its loop variable. -/
def escapeLoop (previousAlphanumeric : Bool) : List Char → Result (List Char)
  | [] => .ok []
  | c :: it =>
      let hasNext := !it.isEmpty
      if c = '\x00' then .error (.err "Invalid embedded NUL in string for ostree ref")
      else
        let currentAlphanumeric := c.isAlphanum
        let out :=
          if currentAlphanumeric then [c]
          else if c = '/' ∧ previousAlphanumeric ∧ hasNext then [c]
          else if c = '-' then [c]
          else if c = '_' then ['_', '_']
          else escapeC c
        (escapeLoop currentAlphanumeric it).map (out ++ ·)

/-- `escape_for_ref`. -/
def escapeForRef (s : List Char) : Result (List Char) :=
  if s.isEmpty then .error (.err "Invalid empty string for ref")
  else escapeLoop false s

/-- `prefix_escape_for_ref`. -/
def prefixEscapeForRef (pfx s : String) : Result String :=
  (escapeForRef s.toList).map (fun r => pfx ++ "/" ++ String.ofList r)

/-- The value of one hex digit, either case. -/
def hexVal (c : Char) : Option Nat :=
  if '0' ≤ c ∧ c ≤ '9' then some (c.toNat - '0'.toNat)
  else if 'a' ≤ c ∧ c ≤ 'f' then some (c.toNat - 'a'.toNat + 10)
  else if 'A' ≤ c ∧ c ≤ 'F' then some (c.toNat - 'A'.toNat + 10)
  else none

/-- Accumulate hex digits, most significant first. -/
def hexFold : Nat → List Char → Option Nat
  | acc, [] => some acc
  | acc, c :: cs => (hexVal c).bind (fun d => hexFold (16 * acc + d) cs)

/-- `u32::from_str_radix(buf, 16)`: an optional `+`, at least one digit, no overflow. -/
def fromStrRadix16 (buf : List Char) : Option Nat :=
  let digits := match buf with
    | '+' :: d :: ds => d :: ds
    | _ => buf
  if digits.isEmpty then none
  else (hexFold 0 digits).filter (· < 2 ^ 32)

/-- The character between two underscores: parse the number, then `char::try_from`. -/
def decodeBuf (buf : List Char) : Result Char :=
  match fromStrRadix16 buf with
  | none => .error (.err "invalid digit found in string")
  | some v =>
      if v.isValidChar then .ok (Char.ofNat v)
      else .error (.err "converted integer out of range for `char`")

/-- Where `unescape_for_ref` stands: in plain text, right after an underscore, or
    collecting the digits of a code point in `buf`. -/
inductive UnescapeState where
  | text
  | quote
  | code (buf : List Char)

/-- The loops of `unescape_for_ref`; the inner `for` over the iterator is the
    `code` state. -/
def unescapeLoop : UnescapeState → List Char → Result (List Char)
  | .text, [] => .ok []
  | .text, c :: it =>
      if c.isAlphanum then (unescapeLoop .text it).map (c :: ·)
      else if c = '-' ∨ c = '/' then (unescapeLoop .text it).map (c :: ·)
      else if c = '_' then unescapeLoop .quote it
      else .error (.err ("Invalid character " ++ String.singleton c))
  -- an underscore at the very end is dropped
  | .quote, [] => .ok []
  | .quote, c :: it =>
      if c = '_' then (unescapeLoop .text it).map ('_' :: ·)
      else unescapeLoop (.code [c]) it
  | .code buf, [] => (decodeBuf buf).map ([·])
  | .code buf, c :: it =>
      if c = '_' then
        (decodeBuf buf).bind (fun d => (unescapeLoop .text it).map (d :: ·))
      else unescapeLoop (.code (buf ++ [c])) it

/-- `unescape_for_ref`. -/
def unescapeForRef (s : List Char) : Result (List Char) :=
  unescapeLoop .text s

/-- `unprefix_unescape_ref`. -/
def unprefixUnescapeRef (pfx ostreeRef : String) : Result String :=
  match (stripPrefix pfx.toList ostreeRef.toList).bind (stripPrefix ['/']) with
  | none => .error (.err ("ref does not match expected prefix " ++ ostreeRef ++ "/: " ++ pfx))
  | some rest => (unescapeForRef rest).map String.ofList

-- ── Hex digits read back ──────────────────────────────────────────────────────

theorem hexVal_digitChar {d : Nat} (hd : d < 16) :
    hexVal (Nat.digitChar d).toUpper = some d := by
  interval_cases d <;> decide

theorem digitChar_not_underscore {d : Nat} (hd : d < 16) :
    (Nat.digitChar d).toUpper ≠ '_' ∧ (Nat.digitChar d).toUpper ≠ '+' := by
  interval_cases d <;> decide

theorem hexFold_append (acc : Nat) (l₁ l₂ : List Char) :
    hexFold acc (l₁ ++ l₂) = (hexFold acc l₁).bind (fun v => hexFold v l₂) := by
  induction l₁ generalizing acc with
  | nil => rfl
  | cons c l ih =>
      rw [List.cons_append, hexFold, hexFold]
      cases hexVal c with
      | none => rfl
      | some d => exact ih (16 * acc + d)

/-- Reading the upper-case hex digits of `n` gives `n`. -/
theorem hexFold_toDigits (n : Nat) :
    hexFold 0 ((Nat.toDigits 16 n).map Char.toUpper) = some n := by
  induction n using Nat.strongRecOn with
  | ind n ih =>
      rw [Nat.toDigits_eq_if (by decide)]
      by_cases hn : n < 16
      · rw [if_pos hn, List.map_singleton, hexFold, hexVal_digitChar hn]
        simp [hexFold]
      · have hdiv : n / 16 < n := by omega
        have hmod : n % 16 < 16 := by omega
        rw [if_neg hn, List.map_append, hexFold_append, ih _ hdiv, Option.bind_some,
          List.map_singleton, hexFold, hexVal_digitChar hmod, Option.bind_some, hexFold]
        congr 1
        omega

/-- What is true of each digit is true of the digits of a number. -/
theorem toDigits_forall {P : Char → Prop} (h : ∀ d < 16, P (Nat.digitChar d).toUpper) (n : Nat) :
    ∀ c ∈ (Nat.toDigits 16 n).map Char.toUpper, P c := by
  induction n using Nat.strongRecOn with
  | ind n ih =>
      rw [Nat.toDigits_eq_if (by decide)]
      by_cases hn : n < 16
      · rw [if_pos hn]
        intro c hc
        rw [List.map_singleton, List.mem_singleton] at hc
        rw [hc]
        exact h n hn
      · rw [if_neg hn, List.map_append]
        intro c hc
        rcases List.mem_append.mp hc with hc | hc
        · exact ih _ (by omega) c hc
        · rw [List.map_singleton, List.mem_singleton] at hc
          rw [hc]
          exact h _ (by omega)

theorem hexUpper_forall {P : Char → Prop} (h : ∀ d < 16, P (Nat.digitChar d).toUpper) (n : Nat) :
    ∀ c ∈ hexUpper n, P c := by
  intro c hc
  simp only [hexUpper] at hc
  split at hc
  · rcases List.mem_cons.mp hc with rfl | hc
    · exact h 0 (by decide)
    · exact toDigits_forall h n c hc
  · exact toDigits_forall h n c hc

/-- No digit of a hex number is an underscore or a plus sign. -/
theorem hexUpper_ne (n : Nat) : ∀ c ∈ hexUpper n, c ≠ '_' ∧ c ≠ '+' :=
  hexUpper_forall (fun _ => digitChar_not_underscore) n

theorem hexUpper_ne_nil (n : Nat) : hexUpper n ≠ [] := by
  simp only [hexUpper]
  split
  · exact List.cons_ne_nil _ _
  · intro h
    exact Nat.toDigits_ne_nil (List.map_eq_nil_iff.mp h)

theorem hexFold_hexUpper (n : Nat) : hexFold 0 (hexUpper n) = some n := by
  simp only [hexUpper]
  split
  · rw [hexFold, show hexVal '0' = some 0 by decide, Option.bind_some]
    exact hexFold_toDigits n
  · exact hexFold_toDigits n

theorem char_toNat_isValidChar (c : Char) : c.toNat.isValidChar := c.valid

/-- The code point written by `escapeC` decodes to the character. -/
theorem decodeBuf_hexUpper (c : Char) : decodeBuf (hexUpper c.toNat) = .ok c := by
  have hne : hexUpper c.toNat ≠ [] := hexUpper_ne_nil _
  have hhead : fromStrRadix16 (hexUpper c.toNat) = some c.toNat := by
    have hplus := hexUpper_ne c.toNat
    have hlt : c.toNat < 2 ^ 32 := c.val.toNat_lt
    simp only [fromStrRadix16]
    split
    · next d ds heq =>
        -- a leading plus sign cannot occur among the digits
        exact absurd rfl (hplus '+' (by rw [heq]; exact List.mem_cons_self ..)).2
    · rw [hexFold_hexUpper]
      simpa [hne] using hlt
  unfold decodeBuf
  rw [hhead]
  simp only [char_toNat_isValidChar, if_true, Char.ofNat_toNat]

-- ── One round of the loop ─────────────────────────────────────────────────────

/-- What one round of `escape_for_ref` writes. -/
def escapeOut (previousAlphanumeric hasNext : Bool) (c : Char) : List Char :=
  if c.isAlphanum then [c]
  else if c = '/' ∧ previousAlphanumeric ∧ hasNext then [c]
  else if c = '-' then [c]
  else if c = '_' then ['_', '_']
  else escapeC c

theorem escapeLoop_nul (prev : Bool) (it : List Char) : escapeLoop prev ('\x00' :: it)
    = .error (.err "Invalid embedded NUL in string for ostree ref") := by
  rw [escapeLoop, if_pos rfl]

theorem escapeLoop_cons {c : Char} (hc : c ≠ '\x00') (prev : Bool) (it : List Char) :
    escapeLoop prev (c :: it)
      = (escapeLoop c.isAlphanum it).map (escapeOut prev (!it.isEmpty) c ++ ·) := by
  simp only [escapeLoop]
  rw [if_neg hc]
  rfl

theorem escapeLoop_cons_ok {c : Char} {prev : Bool} {it r : List Char}
    (h : escapeLoop prev (c :: it) = .ok r) : c ≠ '\x00' ∧ ∃ r',
      escapeLoop c.isAlphanum it = .ok r' ∧ r = escapeOut prev (!it.isEmpty) c ++ r' := by
  have hc : c ≠ '\x00' := by
    rintro rfl
    rw [escapeLoop_nul] at h
    exact absurd h (by simp)
  rw [escapeLoop_cons hc] at h
  cases hrest : escapeLoop c.isAlphanum it with
  | error e =>
      rw [hrest] at h
      exact absurd h (by simp [Except.map])
  | ok r' =>
      rw [hrest] at h
      injection h with h
      exact ⟨hc, r', rfl, h.symm⟩

-- ── The round trip ────────────────────────────────────────────────────────────

/-- Collecting digits up to the closing underscore. -/
theorem unescapeLoop_code (buf ds rest : List Char) (hds : ∀ c ∈ ds, c ≠ '_') :
    unescapeLoop (.code buf) (ds ++ '_' :: rest)
      = (decodeBuf (buf ++ ds)).bind (fun d => (unescapeLoop .text rest).map (d :: ·)) := by
  induction ds generalizing buf with
  | nil => simp [unescapeLoop]
  | cons c ds ih =>
      have hc : c ≠ '_' := hds c (List.mem_cons_self ..)
      rw [List.cons_append, unescapeLoop, if_neg hc,
        ih (buf ++ [c]) (fun d hd => hds d (List.mem_cons_of_mem _ hd)), List.append_assoc]
      rfl

/-- An escaped character reads back as that character. -/
theorem unescapeLoop_escapeC (c : Char) (rest : List Char) :
    unescapeLoop .text (escapeC c ++ rest) = (unescapeLoop .text rest).map (c :: ·) := by
  obtain ⟨d, ds, hds⟩ := List.exists_cons_of_ne_nil (hexUpper_ne_nil c.toNat)
  have hne := hexUpper_ne c.toNat
  rw [hds] at hne
  have hdec := decodeBuf_hexUpper c
  rw [hds] at hdec
  unfold escapeC
  rw [hds]
  show unescapeLoop .text ('_' :: (d :: (ds ++ ['_'])) ++ rest) = _
  rw [List.cons_append, unescapeLoop, if_neg (by decide), if_neg (by decide), if_pos rfl,
    List.cons_append, unescapeLoop, if_neg (hne d (List.mem_cons_self ..)).1,
    List.append_assoc, List.singleton_append,
    unescapeLoop_code _ _ _ (fun e he => (hne e (List.mem_cons_of_mem _ he)).1)]
  show (decodeBuf (d :: ds)).bind _ = _
  rw [hdec]
  rfl

/-- What one round wrote reads back as its character. -/
theorem unescapeLoop_escapeOut (prev hasNext : Bool) (c : Char) (rest : List Char) :
    unescapeLoop .text (escapeOut prev hasNext c ++ rest)
      = (unescapeLoop .text rest).map (c :: ·) := by
  rw [escapeOut]
  by_cases halnum : c.isAlphanum = true
  · rw [if_pos halnum, List.singleton_append, unescapeLoop, if_pos halnum]
  rw [if_neg halnum]
  by_cases hslash : c = '/' ∧ prev ∧ hasNext
  · rw [if_pos hslash, List.singleton_append, unescapeLoop, if_neg halnum, if_pos (.inr hslash.1)]
  rw [if_neg hslash]
  by_cases hdash : c = '-'
  · rw [if_pos hdash, List.singleton_append, unescapeLoop, if_neg halnum, if_pos (.inl hdash)]
  rw [if_neg hdash]
  by_cases hund : c = '_'
  · subst hund
    rw [if_pos rfl]
    show unescapeLoop .text ('_' :: '_' :: rest) = _
    rw [unescapeLoop, if_neg (by decide), if_neg (by decide), if_pos rfl, unescapeLoop, if_pos rfl]
  · rw [if_neg hund]
    exact unescapeLoop_escapeC c rest

/-- Unescaping undoes the escape loop, whatever the loop variable was, and goes on behind it. -/
theorem unescapeLoop_escapeLoop_append {s r : List Char} {prev : Bool}
    (h : escapeLoop prev s = .ok r) (rest : List Char) :
    unescapeLoop .text (r ++ rest) = (unescapeLoop .text rest).map (s ++ ·) := by
  induction s generalizing prev r with
  | nil =>
      injection h with h
      subst h
      rw [List.nil_append]
      cases unescapeLoop .text rest <;> rfl
  | cons c it ih =>
      obtain ⟨_, r', hrest, rfl⟩ := escapeLoop_cons_ok h
      rw [List.append_assoc, unescapeLoop_escapeOut, ih hrest]
      cases unescapeLoop .text rest <;> rfl

theorem unescapeLoop_escapeLoop (s : List Char) (prev : Bool) (r : List Char)
    (h : escapeLoop prev s = .ok r) : unescapeLoop .text r = .ok s := by
  have hall := unescapeLoop_escapeLoop_append h []
  rw [List.append_nil] at hall
  rw [hall]
  show Except.ok (s ++ []) = _
  rw [List.append_nil]

/-- **Escaping is inverted by unescaping.** -/
theorem unescapeForRef_escapeForRef {s r : List Char} (h : escapeForRef s = .ok r) :
    unescapeForRef r = .ok s := by
  unfold escapeForRef at h
  split at h
  · exact nomatch h
  · exact unescapeLoop_escapeLoop s false r h

/-- The same through the ref prefix. -/
theorem unprefixUnescapeRef_prefixEscapeForRef {pfx s r : String}
    (h : prefixEscapeForRef pfx s = .ok r) : unprefixUnescapeRef pfx r = .ok s := by
  unfold prefixEscapeForRef at h
  cases he : escapeForRef s.toList with
  | error e => rw [he] at h; exact nomatch h
  | ok l =>
      rw [he] at h
      injection h with h
      have hlist : r.toList = pfx.toList ++ ('/' :: l) := by
        rw [← h]
        simp
      unfold unprefixUnescapeRef
      rw [hlist, stripPrefix_append, Option.bind_some,
        show '/' :: l = ['/'] ++ l from rfl, stripPrefix_append]
      show Except.map _ (unescapeForRef l) = _
      rw [unescapeForRef_escapeForRef he]
      simp [Except.map]

end OstreeExt.Refescape
