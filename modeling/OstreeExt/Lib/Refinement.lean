import Mathlib.Logic.Relation

/-!
# Runs and refinement

A system is a relation `step l s s'` between labels and states, and `Run step ls s s'` does one step
for each label of a list.  A function `view` from the states of one system to those of another one
is a refinement if each step, seen through it, is a step of the other system with the same label;
**`Run.refines`** says the same of runs.  What runs of the other system keep is then true of what is
seen.
-/

namespace Refinement

variable {ℓ σ τ : Type}

/-- One step for each label. -/
inductive Run (step : ℓ → σ → σ → Prop) : List ℓ → σ → σ → Prop where
  | done (s : σ) : Run step [] s s
  | next {l : ℓ} {ls : List ℓ} {s s' s'' : σ} (first : step l s s') (rest : Run step ls s' s'') :
      Run step (l :: ls) s s''

section Run

variable {step : ℓ → σ → σ → Prop} {ls : List ℓ} {s s' : σ}

/-- What each step keeps, a run keeps. -/
theorem Run.keeps {I : σ → Prop} (hstep : ∀ l s s', I s → step l s s' → I s')
    (h : Run step ls s s') (hs : I s) : I s' := by
  induction h with
  | done s => exact hs
  | next first _ ih => exact ih (hstep _ _ _ hs first)

/-- **A run is seen as a run**, if each step from a state with the invariant is seen as a step, and
    keeps the invariant. -/
theorem Run.refines {spec : ℓ → τ → τ → Prop} {I : σ → Prop} {view : σ → τ}
    (hstep : ∀ l s s', I s → step l s s' → I s' ∧ spec l (view s) (view s'))
    (h : Run step ls s s') (hs : I s) : I s' ∧ Run spec ls (view s) (view s') := by
  induction h with
  | done s => exact ⟨hs, .done _⟩
  | next first _ ih =>
      obtain ⟨hnext, hspec⟩ := hstep _ _ _ hs first
      obtain ⟨hend, hrest⟩ := ih hnext
      exact ⟨hend, .next hspec hrest⟩

end Run

end Refinement
