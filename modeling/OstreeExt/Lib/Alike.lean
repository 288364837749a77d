import OstreeExt.Lib.Exec
import Mathlib.Data.List.Forall2

/-!
# Two programs that end alike

`Alike` compares two programs over states that are related: they both succeed, with related
values and in related states again, or they both fail.  The programs need not be the same, and
in a loop neither need the lists that they run over.
-/

namespace Exec

variable {ε σ α β γ δ ι κ : Type}

/-- From related states both programs succeed, and stay related, or both fail. -/
def Alike (R : σ → σ → Prop) (S : α → β → Prop) (x : EStateM ε σ α) (y : EStateM ε σ β) : Prop :=
  ∀ s t, R s t →
    (∃ a s' b t', x s = .ok a s' ∧ y t = .ok b t' ∧ S a b ∧ R s' t') ∨
    (∃ e s' e' t', x s = .error e s' ∧ y t = .error e' t')

section Alike

variable {R : σ → σ → Prop}

theorem Alike.pure {S : α → β → Prop} {a : α} {b : β} (h : S a b) :
    Alike R S (Pure.pure a : EStateM ε σ α) (Pure.pure b) :=
  fun s t hst => .inl ⟨a, s, b, t, rfl, rfl, h, hst⟩

theorem Alike.throw {S : α → β → Prop} (e e' : ε) :
    Alike R S (MonadExcept.throw e : EStateM ε σ α) (MonadExcept.throw e') :=
  fun s t _ => .inr ⟨e, s, e', t, rfl, rfl⟩

theorem Alike.update {f g : σ → σ} (h : ∀ s t, R s t → R (f s) (g t)) :
    Alike R (fun _ _ => True) (modify f : EStateM ε σ PUnit) (modify g) :=
  fun s t hst => .inl ⟨⟨⟩, f s, ⟨⟩, g t, rfl, rfl, trivial, h s t hst⟩

theorem Alike.bind {S : α → β → Prop} {T : γ → δ → Prop} {x : EStateM ε σ α} {y : EStateM ε σ β}
    {f : α → EStateM ε σ γ} {g : β → EStateM ε σ δ} (hxy : Alike R S x y)
    (hfg : ∀ a b, S a b → Alike R T (f a) (g b)) : Alike R T (x >>= f) (y >>= g) := by
  intro s t hst
  rcases hxy s t hst with ⟨a, s', b, t', hx, hy, hab, hst'⟩ | ⟨e, s', e', t', hx, hy⟩
  · rw [bind_of_ok hx, bind_of_ok hy]
    exact hfg a b hab s' t' hst'
  · exact .inr ⟨e, s', e', t', bind_of_error hx, bind_of_error hy⟩

/-- The loop rule, for lists whose elements are related. -/
theorem Alike.loop {Q : ι → κ → Prop} {l : List ι} {l' : List κ} {f : ι → EStateM ε σ PUnit}
    {g : κ → EStateM ε σ PUnit} (hl : List.Forall₂ Q l l')
    (hfg : ∀ a ∈ l, ∀ b, Q a b → Alike R (fun _ _ => True) (f a) (g b)) :
    Alike R (fun _ _ => True) (forM l f) (forM l' g) := by
  induction hl with
  | nil => exact Alike.pure trivial
  | @cons a b l l' hab _ ih =>
      rw [List.forM_cons, List.forM_cons]
      refine Alike.bind (hfg a (List.mem_cons_self ..) b hab) (fun _ _ _ => ?_)
      exact ih (fun c hc => hfg c (List.mem_cons_of_mem _ hc))

end Alike

end Exec
