import Mathlib.Algebra.GroupWithZero.Nat
import Mathlib.Data.List.Basic
import Mathlib.Data.List.Induction
import Mathlib.Data.String.Basic

/-!
# Shared vocabulary

Results, byte strings, and the few `str` operations that the code uses on paths,
refs and image names.  Strings are handled as lists of characters and wrapped back
into `String`; `String.toList` is injective, so nothing is lost.
-/

namespace OstreeExt

/-- How a modelled call stops early: an `anyhow` error with its message, a Rust
    panic (`assert!`, `unwrap`, `panic!`), or a recursion bound of the model that was
    too small for its input. -/
inductive Stop where
  | err (msg : String)
  | panic (msg : String)
  | fuel
  deriving DecidableEq, Repr

/-- The crate's `Result<T>`. -/
abbrev Result (α : Type) := Except Stop α

/-- Byte strings. -/
abbrev Bytes := List UInt8

/-- An object checksum: 64 lower-case hex digits where the code has validated it. -/
abbrev Checksum := String

/-- `x.ok_or_else(|| anyhow!(msg))`. -/
def okOr {α : Type} (msg : String) : Option α → Result α
  | some a => .ok a
  | none => .error (.err msg)

@[simp] theorem okOr_some {α : Type} (msg : String) (a : α) : okOr msg (some a) = .ok a := rfl

theorem okOr_eq_ok {α : Type} {msg : String} {o : Option α} {a : α} :
    okOr msg o = .ok a ↔ o = some a := by
  cases o with
  | none => simp [okOr]
  | some b => simp [okOr]

@[simp] theorem bind_ok_eq {α β : Type} (a : α) (f : α → Result β) :
    ((Except.ok a : Result α) >>= f) = f a := rfl

@[simp] theorem bind_error_eq {α β : Type} (e : Stop) (f : α → Result β) :
    ((Except.error e : Result α) >>= f) = .error e := rfl

/-- A sequence of fallible computations succeeds when each does. -/
theorem result_bind_eq_ok {α β : Type} {x : Result α} {f : α → Result β} {b : β} :
    (x >>= f) = .ok b ↔ ∃ a, x = .ok a ∧ f a = .ok b := by
  cases x with
  | ok a => simp
  | error e => simp

/-- A loop of fallible computations succeeds when each does. -/
theorem mapM_exists {α β : Type} {f : α → Result β} {l : List α} (h : ∀ a ∈ l, ∃ b, f a = .ok b) :
    ∃ bs, l.mapM f = .ok bs := by
  induction l with
  | nil => exact ⟨[], rfl⟩
  | cons a l ih =>
      obtain ⟨b, hb⟩ := h a (List.mem_cons_self ..)
      obtain ⟨bs, hbs⟩ := ih (fun a' ha' => h a' (List.mem_cons_of_mem _ ha'))
      refine ⟨b :: bs, ?_⟩
      rw [List.mapM_cons, hb, bind_ok_eq, hbs]
      rfl

/-- A loop whose computations are known to succeed. -/
theorem mapM_ok {α β : Type} {f : α → Result β} {g : α → β} {l : List α}
    (h : ∀ a ∈ l, f a = .ok (g a)) : l.mapM f = .ok (l.map g) := by
  induction l with
  | nil => rfl
  | cons a l ih =>
      rw [List.mapM_cons, h a (List.mem_cons_self ..), bind_ok_eq,
        ih (fun b hb => h b (List.mem_cons_of_mem _ hb))]
      rfl

/-- The results of a loop that succeeded. -/
theorem mem_mapM {α β : Type} {f : α → Result β} {l : List α} {bs : List β}
    (h : l.mapM f = .ok bs) (b : β) : b ∈ bs ↔ ∃ a ∈ l, f a = .ok b := by
  induction l generalizing bs with
  | nil =>
      cases h
      simp
  | cons a l ih =>
      rw [List.mapM_cons] at h
      obtain ⟨b', hb', h⟩ := result_bind_eq_ok.mp h
      obtain ⟨bs', hbs', h⟩ := result_bind_eq_ok.mp h
      cases h
      rw [List.mem_cons, ih hbs']
      constructor
      · rintro (rfl | ⟨a', ha', hfa'⟩)
        · exact ⟨a, List.mem_cons_self .., hb'⟩
        · exact ⟨a', List.mem_cons_of_mem _ ha', hfa'⟩
      · rintro ⟨a', ha', hfa'⟩
        rcases List.mem_cons.mp ha' with rfl | ha'
        · exact .inl (Except.ok.inj (hfa'.symm.trans hb'))
        · exact .inr ⟨a', ha', hfa'⟩

/-- In a loop that succeeded each computation did. -/
theorem exists_of_mapM {α β : Type} {f : α → Result β} {l : List α} {bs : List β}
    (h : l.mapM f = .ok bs) {a : α} (ha : a ∈ l) : ∃ b, f a = .ok b := by
  induction l generalizing bs with
  | nil => exact absurd ha (by simp)
  | cons a' l ih =>
      rw [List.mapM_cons] at h
      obtain ⟨b', hb', h⟩ := result_bind_eq_ok.mp h
      obtain ⟨bs', hbs', _⟩ := result_bind_eq_ok.mp h
      rcases List.mem_cons.mp ha with rfl | ha
      · exact ⟨b', hb'⟩
      · exact ih hbs' ha

/-- A loop that succeeds has one result for each element. -/
theorem length_of_mapM {α β : Type} {f : α → Result β} {l : List α} {bs : List β}
    (h : l.mapM f = .ok bs) : bs.length = l.length := by
  induction l generalizing bs with
  | nil =>
      cases h
      rfl
  | cons a l ih =>
      rw [List.mapM_cons] at h
      obtain ⟨b, _, h⟩ := result_bind_eq_ok.mp h
      obtain ⟨bs', hbs', h⟩ := result_bind_eq_ok.mp h
      cases h
      rw [List.length_cons, List.length_cons, ih hbs']

/-- Run a pure fallible computation inside a stateful one. -/
def liftR {σ α : Type} : Result α → EStateM Stop σ α
  | .ok a => pure a
  | .error e => throw e

@[simp] theorem liftR_ok {σ α : Type} (a : α) (s : σ) :
    (liftR (.ok a) : EStateM Stop σ α) s = .ok a s := rfl

@[simp] theorem liftR_error {σ α : Type} (e : Stop) (s : σ) :
    (liftR (.error e : Result α) : EStateM Stop σ α) s = .error e s := rfl

/-- A lifted computation that succeeds leaves the state alone. -/
theorem liftR_eq_ok {σ α : Type} {r : Result α} {a : α} {s s' : σ}
    (h : (liftR r : EStateM Stop σ α) s = .ok a s') : r = .ok a ∧ s' = s := by
  cases r with
  | ok b =>
      rw [liftR_ok] at h
      injection h with h1 h2
      exact ⟨by rw [h1], h2.symm⟩
  | error e => rw [liftR_error] at h; exact nomatch h

/-- `str::len`: the length in UTF-8 bytes. -/
def strLen (s : List Char) : Nat := (s.map Char.utf8Size).sum

/-- On characters below 128 the byte length is the number of characters. -/
theorem strLen_ascii {s : List Char} (h : ∀ c ∈ s, c.val ≤ 127) : strLen s = s.length := by
  unfold strLen
  induction s with
  | nil => rfl
  | cons c s ih =>
      have hc : c.utf8Size = 1 := Char.utf8Size_eq_one_iff.mpr (h c (List.mem_cons_self ..))
      have hs := ih (fun d hd => h d (List.mem_cons_of_mem _ hd))
      rw [List.map_cons, List.sum_cons, hs, hc, List.length_cons]
      omega

/-- `str::split_once`: the text before and after the first `c`. -/
def splitOnce (c : Char) : List Char → Option (List Char × List Char)
  | [] => none
  | d :: s =>
      if d = c then some ([], s)
      else (splitOnce c s).map (fun p => (d :: p.1, p.2))

/-- The first occurrence is found right after a part without it. -/
theorem splitOnce_append {c : Char} {a : List Char} (ha : c ∉ a) (b : List Char) :
    splitOnce c (a ++ c :: b) = some (a, b) := by
  induction a with
  | nil => simp [splitOnce]
  | cons d a ih =>
      have hd : d ≠ c := fun h => ha (h ▸ List.mem_cons_self ..)
      have hrest : c ∉ a := fun h => ha (List.mem_cons_of_mem _ h)
      rw [List.cons_append, splitOnce, if_neg hd, ih hrest]
      rfl

/-- `strip_prefix`, on characters or on path components. -/
def stripPrefix {α : Type} [DecidableEq α] : List α → List α → Option (List α)
  | [], s => some s
  | _ :: _, [] => none
  | c :: p, d :: s => if c = d then stripPrefix p s else none

@[simp] theorem stripPrefix_append {α : Type} [DecidableEq α] (p s : List α) :
    stripPrefix p (p ++ s) = some s := by
  induction p with
  | nil => rfl
  | cons c p ih => rw [List.cons_append, stripPrefix, if_pos rfl, ih]

theorem stripPrefix_eq_some {α : Type} [DecidableEq α] {p s r : List α} :
    stripPrefix p s = some r ↔ s = p ++ r := by
  constructor
  · intro h
    induction p generalizing s with
    | nil => exact Option.some.inj h
    | cons c p ih =>
        cases s with
        | nil => exact nomatch h
        | cons d s =>
            rw [stripPrefix] at h
            by_cases hcd : c = d
            · rw [if_pos hcd] at h
              rw [ih h, hcd]
              rfl
            · rw [if_neg hcd] at h
              exact nomatch h
  · rintro rfl
    exact stripPrefix_append p r

end OstreeExt
