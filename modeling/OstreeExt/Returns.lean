import OstreeExt.Lib.Fails
import OstreeExt.Prelude

/-!
# Calls that return

A call returns when it ends in a value or in an `anyhow` error.  A panic is neither: the release
profile of the crate aborts the process.  `ReturnsResult` says so of a run, and `Fails Stop.Aborts` is
its opposite, for which there are exact rules.
-/

namespace OstreeExt

open Exec

/-- What ends the process, or leaves the model's bounds, instead of being returned. -/
def Stop.Aborts (e : Stop) : Prop := ∀ msg, e ≠ .err msg

@[simp] theorem Stop.not_aborts_err (msg : String) : ¬ (Stop.err msg).Aborts :=
  fun h => h msg rfl

@[simp] theorem Stop.aborts_panic (msg : String) : (Stop.panic msg).Aborts := by
  intro m h
  exact absurd h (by simp)

@[simp] theorem not_refuses_okOr {α : Type} (msg : String) (o : Option α) :
    ¬ Refuses Stop.Aborts (okOr msg o) := by
  cases o with
  | none => simp [okOr]
  | some a => simp

/-- A computation inside a program fails as it does outside. -/
@[simp] theorem fails_liftR_iff {σ α : Type} {B : Stop → Prop} {r : Result α} {s : σ} :
    Fails B (liftR r : EStateM Stop σ α) s ↔ Refuses B r := by
  cases r with
  | ok a => simp [not_fails_of_ok (liftR_ok a s)]
  | error e => rw [fails_of_error (liftR_error e s), refuses_error_iff]

/-- A lifted computation in front of a program. -/
theorem fails_liftR_bind_iff {σ α β : Type} {B : Stop → Prop} {r : Result α}
    {f : α → EStateM Stop σ β} {s : σ} :
    Fails B (liftR r >>= f) s ↔ Refuses B r ∨ ∃ a, r = .ok a ∧ Fails B (f a) s := by
  cases r with
  | ok a => simp [fails_bind_of_ok (liftR_ok a s)]
  | error e =>
      rw [Fails, bind_of_error (liftR_error e s)]
      simp [Refuses]

/-- A run that returns: with a value, or with an error. -/
def ReturnsResult {σ α : Type} (x : EStateM Stop σ α) (s : σ) : Prop :=
  (∃ a s', x s = .ok a s') ∨ ∃ msg s', x s = .error (.err msg) s'

theorem returnsResult_iff {σ α : Type} {x : EStateM Stop σ α} {s : σ} :
    ReturnsResult x s ↔ ¬ Fails Stop.Aborts x s := by
  constructor
  · rintro (⟨a, s', h⟩ | ⟨msg, s', h⟩)
    · exact not_fails_of_ok h
    · rw [fails_of_error h]
      simp
  · intro h
    cases hx : x s with
    | ok a s' => exact .inl ⟨a, s', hx⟩
    | error e s' =>
        rw [fails_of_error hx, Stop.Aborts, not_forall] at h
        obtain ⟨msg, h⟩ := h
        exact .inr ⟨msg, s', not_not.mp h ▸ hx⟩

end OstreeExt
