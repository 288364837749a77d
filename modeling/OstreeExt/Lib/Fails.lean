import OstreeExt.Lib.Exec

/-!
# Errors of a kind

A program over a state can end in more than one kind of error, and a caller may care about
one kind only: the errors it cannot handle.  For a predicate `B` on errors:

* **`Fails`** — from a state, the program ends in an error of the kind `B`; exact rules say
  when a sequence or a loop does;
* **`Never`** — from no state it does; the rules for `pure`, `throw` and sequencing.

A computation without state refuses with such an error (`Refuses`).
-/

namespace Exec

variable {ε σ α β : Type}

-- ── Computations without state ────────────────────────────────────────────────

/-- The computation ends in an error of the kind `B`. -/
def Refuses (B : ε → Prop) (r : Except ε α) : Prop := ∃ e, r = .error e ∧ B e

section Refuses

variable {B : ε → Prop}

@[simp] theorem not_refuses_ok (a : α) : ¬ Refuses B (.ok a : Except ε α) := by
  rintro ⟨e, h, _⟩
  exact absurd h (by simp)

@[simp] theorem refuses_error_iff (e : ε) : Refuses B (.error e : Except ε α) ↔ B e := by
  constructor
  · rintro ⟨e', h, hB⟩
    injection h with h
    exact h ▸ hB
  · intro hB
    exact ⟨e, rfl, hB⟩

theorem refuses_map_iff {r : Except ε α} {f : α → β} : Refuses B (r.map f) ↔ Refuses B r := by
  cases r with
  | ok a => exact iff_of_false (not_refuses_ok (f a)) (not_refuses_ok a)
  | error e => exact (refuses_error_iff (α := β) e).trans (refuses_error_iff e).symm

/-- A sequence refuses in its first half, or in its second. -/
theorem refuses_bind_iff {x : Except ε α} {f : α → Except ε β} :
    Refuses B (x >>= f) ↔ Refuses B x ∨ ∃ a, x = .ok a ∧ Refuses B (f a) := by
  cases x with
  | ok a =>
      show Refuses B (f a) ↔ _
      simp
  | error e =>
      show Refuses B (.error e : Except ε β) ↔ _
      simp

end Refuses

-- ── Programs over a state ─────────────────────────────────────────────────────

/-- From the state `s` the program ends in an error of the kind `B`. -/
def Fails (B : ε → Prop) (x : EStateM ε σ α) (s : σ) : Prop := ∃ e s', x s = .error e s' ∧ B e

/-- From no state the program ends in an error of the kind `B`. -/
def Never (B : ε → Prop) (x : EStateM ε σ α) : Prop := ∀ s, ¬ Fails B x s

section Fails

variable {B : ε → Prop} {s : σ}

theorem not_fails_of_ok {x : EStateM ε σ α} {a : α} {s' : σ} (h : x s = .ok a s') :
    ¬ Fails B x s := by
  rintro ⟨e, s'', he, _⟩
  rw [h] at he
  exact absurd he (by simp)

theorem fails_of_error {x : EStateM ε σ α} {e : ε} {s' : σ} (h : x s = .error e s') :
    Fails B x s ↔ B e := by
  constructor
  · rintro ⟨e', s'', he, hB⟩
    rw [h] at he
    injection he with he _
    exact he ▸ hB
  · intro hB
    exact ⟨e, s', h, hB⟩

/-- Only the result of the run counts. -/
theorem fails_congr {x y : EStateM ε σ α} {t : σ} (h : x s = y t) :
    Fails B x s ↔ Fails B y t := by
  rw [Fails, Fails, h]

@[simp] theorem fails_throw_iff (e : ε) : Fails B (throw e : EStateM ε σ α) s ↔ B e :=
  fails_of_error rfl

/-- A sequence fails in its first half, or in its second. -/
theorem fails_bind_iff {x : EStateM ε σ α} {f : α → EStateM ε σ β} :
    Fails B (x >>= f) s ↔ Fails B x s ∨ ∃ a s', x s = .ok a s' ∧ Fails B (f a) s' := by
  constructor
  · rintro ⟨e, s'', h, hB⟩
    rcases bind_error h with h | ⟨a, s', ha, h⟩
    · exact .inl ⟨e, s'', h, hB⟩
    · exact .inr ⟨a, s', ha, e, s'', h, hB⟩
  · rintro (⟨e, s', h, hB⟩ | ⟨a, s', ha, e, s'', h, hB⟩)
    · exact ⟨e, s', bind_of_error h, hB⟩
    · exact ⟨e, s'', (bind_of_ok ha).trans h, hB⟩

/-- After a first half that succeeds, a sequence fails where its second half does. -/
theorem fails_bind_of_ok {x : EStateM ε σ α} {f : α → EStateM ε σ β} {a : α} {s' : σ}
    (h : x s = .ok a s') : Fails B (x >>= f) s ↔ Fails B (f a) s' := by
  rw [Fails, Fails, bind_of_ok h]

/-- **A loop fails in one of its rounds**, those before it having succeeded. -/
theorem fails_forM_iff {l : List α} {f : α → EStateM ε σ PUnit} :
    Fails B (forM l f) s ↔
      ∃ pre a post s', l = pre ++ a :: post ∧ forM pre f s = .ok ⟨⟩ s' ∧ Fails B (f a) s' := by
  induction l generalizing s with
  | nil =>
      constructor
      · rintro ⟨e, s', h, _⟩
        exact absurd h (by simp)
      · rintro ⟨pre, a, post, s', h, _⟩
        exact absurd h (by simp)
  | cons b l ih =>
      rw [List.forM_cons, fails_bind_iff]
      constructor
      · rintro (h | ⟨u, s', hb, h⟩)
        · exact ⟨[], b, l, s, rfl, rfl, h⟩
        · obtain ⟨pre, a, post, t, rfl, hpre, ha⟩ := ih.mp h
          refine ⟨b :: pre, a, post, t, rfl, ?_, ha⟩
          rw [List.forM_cons, bind_of_ok hb]
          exact hpre
      · rintro ⟨pre, a, post, t, hl, hpre, ha⟩
        rcases pre with _ | ⟨b', pre⟩
        · injection hl with hb hl
          injection hpre with _ hs
          subst hb hs
          exact .inl ha
        · injection hl with hb hl
          subst hb hl
          rw [List.forM_cons] at hpre
          obtain ⟨u, s', hb, hpre⟩ := bind_ok hpre
          exact .inr ⟨u, s', hb, ih.mpr ⟨pre, a, post, t, rfl, hpre, ha⟩⟩

/-- In a loop that succeeds each round does. -/
theorem forM_ok_round {l : List α} {f : α → EStateM ε σ PUnit} {s s' : σ} {u : PUnit}
    (h : forM l f s = .ok u s') {a : α} (ha : a ∈ l) : ∃ t t', f a t = .ok ⟨⟩ t' := by
  induction l generalizing s with
  | nil => exact absurd ha List.not_mem_nil
  | cons b l ih =>
      rw [List.forM_cons] at h
      obtain ⟨_, s₁, hb, hrest⟩ := bind_ok h
      rcases List.mem_cons.mp ha with rfl | ha
      · exact ⟨s, s₁, hb⟩
      · exact ih hrest ha

theorem Never.pure (a : α) : Never B (Pure.pure a : EStateM ε σ α) := fun _ => not_fails_of_ok rfl

theorem Never.throw {e : ε} (h : ¬ B e) : Never B (MonadExcept.throw e : EStateM ε σ α) := by
  intro s
  rw [fails_of_error (x := MonadExcept.throw e) rfl]
  exact h

theorem Never.update (f : σ → σ) : Never B (modify f : EStateM ε σ PUnit) :=
  fun _ => not_fails_of_ok rfl

theorem Never.bind {x : EStateM ε σ α} {f : α → EStateM ε σ β} (hx : Never B x)
    (hf : ∀ a, Never B (f a)) : Never B (x >>= f) := by
  intro s
  rw [fails_bind_iff]
  rintro (h | ⟨a, s', _, h⟩)
  · exact hx s h
  · exact hf a s' h

/-- A loop that collects values. -/
theorem Never.mapM {l : List α} {f : α → EStateM ε σ β} (h : ∀ a ∈ l, Never B (f a)) :
    Never B (l.mapM f) := by
  induction l with
  | nil =>
      rw [List.mapM_nil]
      exact Never.pure []
  | cons a l ih =>
      rw [List.mapM_cons]
      refine Never.bind (h a (List.mem_cons_self ..)) (fun b => ?_)
      exact Never.bind (ih fun a' ha' => h a' (List.mem_cons_of_mem _ ha')) (fun _ => Never.pure _)

/-- The rest of a program, after a first step that reads the state. -/
theorem Never.read {f : σ → EStateM ε σ β} (hf : ∀ s, Never B (f s)) : Never B (get >>= f) :=
  Never.bind (fun _ => not_fails_of_ok rfl) hf

end Fails

end Exec
