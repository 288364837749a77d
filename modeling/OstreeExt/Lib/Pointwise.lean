import Mathlib.Data.List.Forall2
import OstreeExt.Lib.Exec

/-!
# A program mapped or folded over a list

What relates each element of the list to its result, for a program that is mapped over it:
as the outcome of a run that is known to have succeeded, and as a postcondition.  For a fold
that has succeeded, the rule of its invariant.
-/

namespace Exec

variable {ε σ α β : Type}

section Members

variable {R : α → β → Prop} {l : List α} {l' : List β}

theorem forall₂_mem_left (h : List.Forall₂ R l l') {a : α} (ha : a ∈ l) : ∃ b ∈ l', R a b := by
  induction h with
  | nil => exact absurd ha List.not_mem_nil
  | cons hab _ ih =>
      rcases List.mem_cons.mp ha with rfl | ha
      · exact ⟨_, List.mem_cons_self .., hab⟩
      · obtain ⟨b, hb, hab⟩ := ih ha
        exact ⟨b, List.mem_cons_of_mem _ hb, hab⟩

theorem forall₂_mem_right (h : List.Forall₂ R l l') {b : β} (hb : b ∈ l') : ∃ a ∈ l, R a b :=
  forall₂_mem_left h.flip hb

end Members

/-- A step that is known to have succeeded. -/
theorem Steps.of_ok {R : σ → σ → Prop} {x : EStateM ε σ α} (h : Steps R x) {s s' : σ} {a : α}
    (hrun : x s = .ok a s') : R s s' := by
  have hstep := h s
  rw [hrun] at hstep
  exact hstep

section Mapped

variable {l : List α} {f : α → EStateM ε σ β} {R : σ → σ → Prop}

/-- What every round does to the state, the run does. -/
theorem mapM_ok_steps (hrefl : ∀ s, R s s) (htrans : ∀ a b c, R a b → R b c → R a c)
    (hf : ∀ a ∈ l, ∀ s b s', f a s = .ok b s' → R s s') {s s' : σ} {bs : List β}
    (h : l.mapM f s = .ok bs s') : R s s' := by
  induction l generalizing s bs with
  | nil =>
      cases h
      exact hrefl _
  | cons a l ih =>
      rw [List.mapM_cons] at h
      obtain ⟨b, s₁, hone, h₁⟩ := bind_ok h
      obtain ⟨bs', s₂, hrest, h₂⟩ := bind_ok h₁
      cases h₂
      exact htrans _ _ _ (hf a (List.mem_cons_self ..) s b s₁ hone)
        (ih (fun a' ha' => hf a' (List.mem_cons_of_mem _ ha')) hrest)

/-- Each element is related to its result.  The invariant and the relation may need a property
    `Q` of the state that a round ends in; the last state has it, and every round passes it back
    to where it began. -/
theorem mapM_ok_pointwise (hrefl : ∀ s, R s s) (htrans : ∀ a b c, R a b → R b c → R a c)
    {Q I : σ → Prop} {P : σ → α → β → Prop} (hf : ∀ a ∈ l, ∀ s b s', f a s = .ok b s' → R s s')
    (hback : ∀ s s', R s s' → Q s' → Q s)
    (hstep : ∀ a ∈ l, ∀ s b s', I s → f a s = .ok b s' → Q s' → I s' ∧ P s' a b)
    (hkeep : ∀ a b s s', R s s' → P s a b → P s' a b) {s s' : σ} {bs : List β} (hI : I s)
    (h : l.mapM f s = .ok bs s') (hQ : Q s') : I s' ∧ List.Forall₂ (P s') l bs := by
  induction l generalizing s bs with
  | nil =>
      cases h
      exact ⟨hI, .nil⟩
  | cons a l ih =>
      rw [List.mapM_cons] at h
      obtain ⟨b, s₁, hone, h₁⟩ := bind_ok h
      obtain ⟨bs', s₂, hrest, h₂⟩ := bind_ok h₁
      cases h₂
      have hfl : ∀ a ∈ l, ∀ s b s', f a s = .ok b s' → R s s' :=
        fun a' ha' => hf a' (List.mem_cons_of_mem _ ha')
      have hlater := mapM_ok_steps hrefl htrans hfl hrest
      obtain ⟨hI₁, hP⟩ := hstep a (List.mem_cons_self ..) s b s₁ hI hone (hback _ _ hlater hQ)
      obtain ⟨hI', hall⟩ := ih hfl (fun a' ha' => hstep a' (List.mem_cons_of_mem _ ha')) hI₁ hrest
      exact ⟨hI', .cons (hkeep _ _ _ _ hlater hP) hall⟩

/-- What every round of a fold does to the state, the fold does. -/
theorem foldlM_ok_steps {g : β → α → EStateM ε σ β} (hrefl : ∀ s, R s s)
    (htrans : ∀ a b c, R a b → R b c → R a c)
    (hg : ∀ b, ∀ a ∈ l, ∀ s b' s', g b a s = .ok b' s' → R s s') {b b' : β} {s s' : σ}
    (h : l.foldlM g b s = .ok b' s') : R s s' := by
  induction l generalizing b s with
  | nil =>
      cases h
      exact hrefl _
  | cons a l ih =>
      rw [List.foldlM_cons] at h
      obtain ⟨b₁, s₁, hone, hrest⟩ := bind_ok h
      exact htrans _ _ _ (hg b a (List.mem_cons_self ..) s b₁ s₁ hone)
        (ih (fun b a' ha' => hg b a' (List.mem_cons_of_mem _ ha')) hrest)

/-- The loop rule for a fold that is known to have succeeded: an invariant of the elements that
    were handled, which may need a property `Q` of the state that a round ends in. -/
theorem foldlM_ok_invariant {g : β → α → EStateM ε σ β} (hrefl : ∀ s, R s s)
    (htrans : ∀ a b c, R a b → R b c → R a c) {Q : σ → Prop} {I : List α → β → σ → Prop}
    (hg : ∀ b, ∀ a ∈ l, ∀ s b' s', g b a s = .ok b' s' → R s s')
    (hback : ∀ s s', R s s' → Q s' → Q s)
    (hstep : ∀ pre, ∀ a ∈ l, ∀ b s b' s', I pre b s → g b a s = .ok b' s' → Q s' →
      I (pre ++ [a]) b' s') {b b' : β} {s s' : σ} (hI : I [] b s)
    (h : l.foldlM g b s = .ok b' s') (hQ : Q s') : I l b' s' := by
  -- the induction is on what is left, with the handled prefix as a parameter
  have key : ∀ (post pre : List α) (b : β) (s : σ), (∀ a ∈ post, a ∈ l) → I pre b s →
      post.foldlM g b s = .ok b' s' → I (pre ++ post) b' s' := by
    intro post
    induction post with
    | nil =>
        intro pre b s _ hI hrun
        cases hrun
        rw [List.append_nil]
        exact hI
    | cons a post ih =>
        intro pre b s hin hI hrun
        rw [List.foldlM_cons] at hrun
        obtain ⟨b₁, s₁, hone, hrest⟩ := bind_ok hrun
        have hin' : ∀ a ∈ post, a ∈ l := fun a' ha' => hin a' (List.mem_cons_of_mem _ ha')
        have hlater := foldlM_ok_steps hrefl htrans (fun b a' ha' => hg b a' (hin' a' ha')) hrest
        have hI₁ := hstep pre a (hin a (List.mem_cons_self ..)) b s b₁ s₁ hI hone
          (hback _ _ hlater hQ)
        have hdone := ih (pre ++ [a]) b₁ s₁ hin' hI₁ hrest
        rw [List.append_assoc] at hdone
        exact hdone
  exact key l [] b s (fun _ ha => ha) hI h

/-- Rounds that end well make a run that ends well. -/
theorem Ends.mapM {I : σ → Prop} {P : α → β → Prop}
    (h : ∀ a ∈ l, Ends I (f a) (fun b s' => P a b ∧ I s')) :
    Ends I (l.mapM f) (fun bs s' => List.Forall₂ P l bs ∧ I s') := by
  induction l with
  | nil => exact fun s hs => ⟨[], s, rfl, .nil, hs⟩
  | cons a l ih =>
      intro s hs
      obtain ⟨b, s₁, hone, hP, hI₁⟩ := h a (List.mem_cons_self ..) s hs
      obtain ⟨bs, s₂, hrest, hall, hI₂⟩ :=
        ih (fun a' ha' => h a' (List.mem_cons_of_mem _ ha')) s₁ hI₁
      refine ⟨b :: bs, s₂, ?_, .cons hP hall, hI₂⟩
      rw [List.mapM_cons, bind_of_ok hone, bind_of_ok hrest]
      rfl

end Mapped

end Exec
