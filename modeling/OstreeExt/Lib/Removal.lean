import Mathlib.Logic.Basic
import OstreeExt.Lib.Exec

/-!
# Programs that only take entries out

For a state that is read through `look : σ → κ → Option ν`, **`Removes look B S φ x s`** says of the
program `x` started in `s` what it takes out, whether it ends well or not:

* when it ends with a value, that value satisfies `φ`, the entries of `S` are gone and all others
  are as they were;
* when it fails, it does so with an error of the kind `B`, and nothing but some entries of `S` is
  gone.

The rules are for `pure`, `throw`, sequencing and loops.
-/

namespace Exec

variable {ε σ κ ν α β : Type}

-- ── What is left of a table ───────────────────────────────────────────────────

open Classical in
/-- A table without the entries of `S`. -/
noncomputable def leftOf (L : κ → Option ν) (S : κ → Prop) : κ → Option ν :=
  fun k => if S k then none else L k

/-- Of a table, nothing but some entries of `S` is gone. -/
def Within (S : κ → Prop) (L L' : κ → Option ν) : Prop := ∀ k, L' k = L k ∨ (S k ∧ L' k = none)

section Tables

variable {L L' L'' : κ → Option ν} {S T : κ → Prop} {k : κ}

theorem leftOf_of (h : S k) : leftOf L S k = none := if_pos h

theorem leftOf_of_not (h : ¬ S k) : leftOf L S k = L k := if_neg h

theorem leftOf_eq_some_iff {v : ν} : leftOf L S k = some v ↔ ¬ S k ∧ L k = some v := by
  by_cases h : S k
  · simp [leftOf_of h, h]
  · simp [leftOf_of_not h, h]

/-- Only what is there can be taken out. -/
theorem leftOf_congr (h : ∀ k v, L k = some v → (S k ↔ T k)) : leftOf L S = leftOf L T := by
  funext k
  cases hL : L k with
  | none =>
      have hnone : ∀ U : κ → Prop, leftOf L U k = none := by
        intro U
        by_cases hU : U k
        · exact leftOf_of hU
        · rw [leftOf_of_not hU, hL]
      rw [hnone S, hnone T]
  | some v =>
      by_cases hS : S k
      · rw [leftOf_of hS, leftOf_of ((h k v hL).mp hS)]
      · rw [leftOf_of_not hS, leftOf_of_not fun hT => hS ((h k v hL).mpr hT)]

theorem leftOf_empty (h : ∀ k v, L k = some v → ¬ S k) : leftOf L S = L := by
  rw [leftOf_congr fun k v hk => iff_of_false (h k v hk) not_false]
  exact funext fun k => leftOf_of_not not_false

theorem leftOf_leftOf : leftOf (leftOf L S) T = leftOf L (fun k => S k ∨ T k) := by
  funext k
  by_cases hT : T k
  · rw [leftOf_of hT, leftOf_of (.inr hT)]
  · rw [leftOf_of_not hT]
    by_cases hS : S k
    · rw [leftOf_of hS, leftOf_of (.inl hS)]
    · rw [leftOf_of_not hS, leftOf_of_not fun h => h.elim hS hT]

theorem Within.refl : Within S L L := fun _ => .inl rfl

theorem within_leftOf : Within S L (leftOf L S) := by
  intro k
  by_cases hS : S k
  · exact .inr ⟨hS, leftOf_of hS⟩
  · exact .inl (leftOf_of_not hS)

theorem Within.trans (h : Within S L L') (h' : Within T L' L'') :
    Within (fun k => S k ∨ T k) L L'' := by
  intro k
  rcases h' k with heq | ⟨hT, hnone⟩
  · rcases h k with heq' | ⟨hS, hnone⟩
    · exact .inl (heq.trans heq')
    · exact .inr ⟨.inl hS, heq.trans hnone⟩
  · exact .inr ⟨.inr hT, hnone⟩

theorem Within.mono (h : Within S L L') (hST : ∀ k v, L k = some v → S k → T k) :
    Within T L L' := by
  intro k
  rcases h k with heq | ⟨hS, hnone⟩
  · exact .inl heq
  · cases hL : L k with
    | none => exact .inl hnone
    | some v => exact .inr ⟨hST k v hL hS, hnone⟩

/-- What is still there is what was there. -/
theorem Within.eq_some (h : Within S L L') {v : ν} (hk : L' k = some v) : L k = some v := by
  rcases h k with heq | ⟨_, hnone⟩
  · exact heq ▸ hk
  · rw [hk] at hnone
    exact absurd hnone (by simp)

/-- What is not in `S` stays. -/
theorem Within.eq_of_not (h : Within S L L') (hS : ¬ S k) : L' k = L k :=
  (h k).resolve_right fun h => hS h.1

end Tables

-- ── The judgement ─────────────────────────────────────────────────────────────

/-- Started in `s`, the program takes out `S` and returns a value of `φ`, or fails on the way with
    an error of the kind `B`. -/
def Removes (look : σ → κ → Option ν) (B : ε → Prop) (S : κ → Prop) (φ : α → Prop)
    (x : EStateM ε σ α) (s : σ) : Prop :=
  (∀ a s', x s = .ok a s' → look s' = leftOf (look s) S ∧ φ a) ∧
    ∀ e s', x s = .error e s' → Within S (look s) (look s') ∧ B e

section Removes

variable {look : σ → κ → Option ν} {B : ε → Prop} {S T : κ → Prop} {φ : α → Prop} {s : σ}

/-- A program that changes nothing. -/
theorem Removes.pure {a : α} (ha : φ a) (hS : ∀ k v, look s k = some v → ¬ S k) :
    Removes look B S φ (Pure.pure a) s := by
  refine ⟨?_, ?_⟩
  · intro b s' h
    injection h with hb hs
    subst hb hs
    exact ⟨(leftOf_empty hS).symm, ha⟩
  · intro e s' h
    exact absurd h (by simp)

theorem Removes.throw {e : ε} (he : B e) :
    Removes look B S φ (MonadExcept.throw e : EStateM ε σ α) s := by
  refine ⟨?_, ?_⟩
  · intro a s' h
    exact absurd h (by simp)
  · intro e' s' h
    injection h with he' hs
    subst he' hs
    exact ⟨Within.refl, he⟩

/-- A change of the state that takes `S` out. -/
theorem Removes.update {f : σ → σ} (h : look (f s) = leftOf (look s) S) :
    Removes look B S (fun _ => True) (modify f : EStateM ε σ PUnit) s := by
  refine ⟨?_, ?_⟩
  · intro a s' ha
    injection ha with _ hs
    subst hs
    exact ⟨h, trivial⟩
  · intro e s' he
    exact absurd he (by simp)

theorem Removes.bind {x : EStateM ε σ α} {f : α → EStateM ε σ β} {ψ : β → Prop}
    (hx : Removes look B S φ x s)
    (hf : ∀ a s', φ a → look s' = leftOf (look s) S → Removes look B T ψ (f a) s') :
    Removes look B (fun k => S k ∨ T k) ψ (x >>= f) s := by
  refine ⟨?_, ?_⟩
  · intro b s'' h
    obtain ⟨a, s', ha, hb⟩ := bind_ok h
    obtain ⟨hs', hφ⟩ := hx.1 a s' ha
    obtain ⟨hs'', hψ⟩ := (hf a s' hφ hs').1 b s'' hb
    exact ⟨by rw [hs'', hs', leftOf_leftOf], hψ⟩
  · intro e s'' h
    rcases bind_error h with h | ⟨a, s', ha, h⟩
    · obtain ⟨hw, he⟩ := hx.2 e s'' h
      exact ⟨hw.mono fun k _ _ hS => .inl hS, he⟩
    · obtain ⟨hs', hφ⟩ := hx.1 a s' ha
      obtain ⟨hw, he⟩ := (hf a s' hφ hs').2 e s'' h
      rw [hs'] at hw
      exact ⟨within_leftOf.trans hw, he⟩

/-- A program whose value is only looked at afterwards. -/
theorem Removes.returning {x : EStateM ε σ α} {g : α → β} {ψ : β → Prop}
    (hx : Removes look B S φ x s) (hg : ∀ a, φ a → ψ (g a)) :
    Removes look B S ψ (x >>= fun a => Pure.pure (g a)) s := by
  refine ⟨?_, ?_⟩
  · intro b s'' h
    obtain ⟨a, s', ha, hb⟩ := bind_ok h
    injection hb with hb hs
    subst hb hs
    exact ⟨(hx.1 a s' ha).1, hg a (hx.1 a s' ha).2⟩
  · intro e s'' h
    rcases bind_error h with h | ⟨a, s', _, h⟩
    · exact hx.2 e s'' h
    · exact absurd h (by simp)

/-- A first half that returns and changes nothing. -/
theorem Removes.bind_of_ok {x : EStateM ε σ α} {f : α → EStateM ε σ β} {ψ : β → Prop} {a : α}
    (hx : x s = .ok a s) (hf : Removes look B T ψ (f a) s) :
    Removes look B T ψ (x >>= f) s := by
  rw [Removes, Exec.bind_of_ok hx]
  exact hf

/-- The entries taken out may be described otherwise, as far as they are there. -/
theorem Removes.congr {x : EStateM ε σ α} (h : Removes look B S φ x s)
    (hST : ∀ k v, look s k = some v → (S k ↔ T k)) : Removes look B T φ x s := by
  refine ⟨?_, ?_⟩
  · intro a s' ha
    rw [← leftOf_congr hST]
    exact h.1 a s' ha
  · intro e s' he
    exact ⟨(h.2 e s' he).1.mono fun k v hk => (hST k v hk).mp, (h.2 e s' he).2⟩

theorem Removes.weaken {x : EStateM ε σ α} {ψ : α → Prop} (h : Removes look B S φ x s)
    (hφ : ∀ a, φ a → ψ a) : Removes look B S ψ x s :=
  ⟨fun a s' ha => ⟨(h.1 a s' ha).1, hφ a (h.1 a s' ha).2⟩, h.2⟩

/-- The loop rule: each element has entries of its own that its round takes out, in a state where
    those of the elements before it are gone. -/
theorem Removes.fold {l : List α} {f : β → α → EStateM ε σ β} {S : α → κ → Prop}
    {φ : List α → β → Prop} {b : β} (hb : φ [] b)
    (h : ∀ pre a post b s', l = pre ++ a :: post → φ pre b →
      look s' = leftOf (look s) (fun k => ∃ c ∈ pre, S c k) →
      Removes look B (S a) (φ (pre ++ [a])) (f b a) s') :
    Removes look B (fun k => ∃ c ∈ l, S c k) (φ l) (l.foldlM f b) s := by
  -- the induction is on what is left, with the handled prefix and the state it led to as parameters
  have key : ∀ (post pre : List α) (b : β) (s' : σ), l = pre ++ post → φ pre b →
      look s' = leftOf (look s) (fun k => ∃ c ∈ pre, S c k) →
      Removes look B (fun k => ∃ c ∈ post, S c k) (φ l) (post.foldlM f b) s' := by
    intro post
    induction post with
    | nil =>
        intro pre b s' hl hφ _
        rw [List.append_nil] at hl
        refine Removes.pure (hl ▸ hφ) ?_
        rintro k v _ ⟨c, hc, _⟩
        exact absurd hc List.not_mem_nil
    | cons a post ih =>
        intro pre b s' hl hφ hs'
        rw [List.foldlM_cons]
        have hround := h pre a post b s' hl hφ hs'
        have hseq := hround.bind (T := fun k => ∃ c ∈ post, S c k) (ψ := φ l)
          (f := fun b' => post.foldlM f b') fun b' s'' hφ' hs'' =>
            ih (pre ++ [a]) b' s'' (by rw [hl, List.append_assoc]; rfl) hφ' (by
              rw [hs'', hs', leftOf_leftOf]
              refine leftOf_congr fun k _ _ => ?_
              simp [or_and_right, exists_or])
        refine hseq.congr fun k _ _ => ?_
        simp
  have hall := key l [] b s rfl hb (leftOf_empty fun k _ _ => by simp).symm
  exact hall

/-- The same for a loop without a value. -/
theorem Removes.loop {l : List α} {f : α → EStateM ε σ PUnit} {S : α → κ → Prop}
    (h : ∀ pre a post s', l = pre ++ a :: post →
      look s' = leftOf (look s) (fun k => ∃ c ∈ pre, S c k) →
      Removes look B (S a) (fun _ => True) (f a) s') :
    Removes look B (fun k => ∃ c ∈ l, S c k) (fun _ => True) (forM l f) s := by
  have hfold : ∀ l : List α, forM l f = l.foldlM (fun _ a => f a) PUnit.unit := by
    intro l
    induction l with
    | nil => rfl
    | cons a l ih => rw [List.forM_cons, List.foldlM_cons, ih]
  rw [hfold]
  exact Removes.fold (φ := fun _ _ => True) trivial
    fun pre a post _ s' hl _ hs' => h pre a post s' hl hs'

end Removes

end Exec
