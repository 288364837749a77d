import Mathlib.Data.List.Basic
import Mathlib.Data.List.Induction

/-!
# Programs that fail and still change the state

`EStateM ε σ α` runs over a state `σ` and ends in a value or an error; either way
the state it reached survives.  This is what a sequence of library calls with `?`
between them does: the calls made before the failing one have happened.

Four judgements about such programs, each with its rules for `pure`, `throw`,
sequencing and loops over lists:

* **`Ends`** — the program ends without an error in a state and value that
  satisfy a postcondition;
* **`Steps`** — the start and end states are related, error or not (frame
  conditions: "refs only grow", "this field is untouched");
* **`Follows`** — a second run succeeds wherever a first one did, and stays related to it;
* inversion lemmas for a run that is known to have succeeded.
-/

namespace Exec

variable {ε σ α β : Type}

/-- The state a run ends in, whether it returned or threw. -/
def finalState : EStateM.Result ε σ α → σ
  | .ok _ s => s
  | .error _ s => s

@[simp] theorem finalState_ok (a : α) (s : σ) :
    finalState (.ok a s : EStateM.Result ε σ α) = s := rfl

@[simp] theorem finalState_error (e : ε) (s : σ) :
    finalState (.error e s : EStateM.Result ε σ α) = s := rfl

-- ── Inversion of successful runs ──────────────────────────────────────────────

/-- A sequence succeeds when both halves do. -/
theorem bind_ok {x : EStateM ε σ α} {f : α → EStateM ε σ β} {s s'' : σ} {b : β}
    (h : (x >>= f) s = .ok b s'') :
    ∃ a s', x s = .ok a s' ∧ f a s' = .ok b s'' := by
  change EStateM.bind x f s = _ at h
  unfold EStateM.bind at h
  cases hx : x s with
  | ok a s' => rw [hx] at h; exact ⟨a, s', rfl, h⟩
  | error e s' => rw [hx] at h; exact nomatch h

/-- Running the second half after a first half that succeeded. -/
theorem bind_of_ok {x : EStateM ε σ α} {f : α → EStateM ε σ β} {s s' : σ} {a : α}
    (h : x s = .ok a s') : (x >>= f) s = f a s' := by
  change EStateM.bind x f s = _
  unfold EStateM.bind
  rw [h]

/-- A sequence whose first half fails fails with the same error and state. -/
theorem bind_of_error {x : EStateM ε σ α} {f : α → EStateM ε σ β} {s s' : σ} {e : ε}
    (h : x s = .error e s') : (x >>= f) s = .error e s' := by
  change EStateM.bind x f s = _
  unfold EStateM.bind
  rw [h]

/-- Sequences whose first halves agree on a state agree there when their second halves do
    where the first ones end. -/
theorem bind_congr_ok {x y : EStateM ε σ α} {f g : α → EStateM ε σ β} {s : σ}
    (hxy : x s = y s) (h : ∀ a s', y s = .ok a s' → f a s' = g a s') :
    (x >>= f) s = (y >>= g) s := by
  cases hy : y s with
  | ok a s' => rw [bind_of_ok (hxy.trans hy), bind_of_ok hy, h a s' hy]
  | error e s' => rw [bind_of_error (hxy.trans hy), bind_of_error hy]

/-- Sequences whose first halves end alike, from whatever states, end alike. -/
theorem bind_congr_start {x y : EStateM ε σ α} {s t : σ} (h : x s = y t)
    (f : α → EStateM ε σ β) : (x >>= f) s = (y >>= f) t := by
  change EStateM.bind x f s = EStateM.bind y f t
  unfold EStateM.bind
  rw [h]

/-- A sequence fails in its first half, or in its second. -/
theorem bind_error {x : EStateM ε σ α} {f : α → EStateM ε σ β} {s s'' : σ} {e : ε}
    (h : (x >>= f) s = .error e s'') :
    x s = .error e s'' ∨ ∃ a s', x s = .ok a s' ∧ f a s' = .error e s'' := by
  cases hx : x s with
  | ok a s' =>
      rw [bind_of_ok hx] at h
      exact .inr ⟨a, s', rfl, h⟩
  | error e' s' =>
      rw [bind_of_error hx] at h
      cases h
      exact .inl rfl

@[simp] theorem pure_run (a : α) (s : σ) : (pure a : EStateM ε σ α) s = .ok a s := rfl

@[simp] theorem throw_run (e : ε) (s : σ) :
    (throw e : EStateM ε σ α) s = .error e s := rfl

@[simp] theorem get_run (s : σ) : (get : EStateM ε σ σ) s = .ok s s := rfl

@[simp] theorem set_run (t s : σ) : (set t : EStateM ε σ PUnit) s = .ok ⟨⟩ t := rfl

@[simp] theorem modify_run (f : σ → σ) (s : σ) :
    (modify f : EStateM ε σ PUnit) s = .ok ⟨⟩ (f s) := rfl

/-- A loop over a joined list runs the first list, then the second. -/
theorem forM_append (f : α → EStateM ε σ PUnit) (l₁ l₂ : List α) :
    forM (l₁ ++ l₂) f = (do forM l₁ f; forM l₂ f) := by
  induction l₁ with
  | nil => rfl
  | cons a l ih => simp only [List.cons_append, List.forM_cons, ih, bind_assoc]

/-- A loop over one element. -/
theorem forM_single {f : α → EStateM ε σ PUnit} {a : α} {s s' : σ} (h : f a s = .ok ⟨⟩ s') :
    forM [a] f s = .ok ⟨⟩ s' := by
  rw [List.forM_cons, bind_of_ok h]
  rfl

/-- What every round preserves, a loop that succeeds preserves. -/
theorem forM_invariant {I : σ → Prop} {l : List α} {f : α → EStateM ε σ PUnit}
    (hf : ∀ a ∈ l, ∀ s s' u, I s → f a s = .ok u s' → I s') {s s' : σ} {u : PUnit} (hs : I s)
    (h : forM l f s = .ok u s') : I s' := by
  induction l generalizing s with
  | nil =>
      injection h with _ h
      exact h ▸ hs
  | cons a l ih =>
      rw [List.forM_cons] at h
      obtain ⟨u₁, s₁, hstep, hrest⟩ := bind_ok h
      exact ih (fun b hb => hf b (List.mem_cons_of_mem _ hb))
        (hf a (List.mem_cons_self ..) s s₁ u₁ hs hstep) hrest

/-- A loop over a flattened list is a nested loop. -/
theorem forM_flatMap (g : β → List α) (f : α → EStateM ε σ PUnit) (l : List β) :
    forM (l.flatMap g) f = forM l (fun b => forM (g b) f) := by
  induction l with
  | nil => rfl
  | cons b l ih => rw [List.flatMap_cons, forM_append, ih, List.forM_cons]

/-- A loop over a mapped list. -/
theorem forM_map (g : β → α) (f : α → EStateM ε σ PUnit) (l : List β) :
    forM (l.map g) f = forM l (fun b => f (g b)) := by
  induction l with
  | nil => rfl
  | cons b l ih => rw [List.map_cons, List.forM_cons, ih, List.forM_cons]

/-- Two loops agree when their bodies agree on the states of an invariant that one of them
    keeps. -/
theorem forM_congr {f g : α → EStateM ε σ PUnit} (I : σ → Prop) {l : List α}
    (hfg : ∀ a ∈ l, ∀ s, I s → f a s = g a s)
    (hkeep : ∀ a ∈ l, ∀ s s', I s → g a s = .ok ⟨⟩ s' → I s') (s : σ) (hs : I s) :
    forM l f s = forM l g s := by
  induction l generalizing s with
  | nil => rfl
  | cons a l ih =>
      have ha := hfg a (List.mem_cons_self ..) s hs
      rw [List.forM_cons, List.forM_cons]
      cases hg : g a s with
      | ok u s' =>
          rw [bind_of_ok hg, bind_of_ok (ha.trans hg)]
          exact ih (fun b hb => hfg b (List.mem_cons_of_mem _ hb))
            (fun b hb => hkeep b (List.mem_cons_of_mem _ hb)) s'
            (hkeep a (List.mem_cons_self ..) s s' hs hg)
      | error e s' => rw [bind_of_error hg, bind_of_error (ha.trans hg)]

/-- The loop rule for a run that may fail: an invariant of the elements handled so far holds at
    the end, or it holds in front of the element that fails. -/
theorem forM_reaches {l : List α} {f : α → EStateM ε σ PUnit} (I : List α → σ → Prop) {s : σ}
    (hs : I [] s)
    (hstep : ∀ pre a post t t', l = pre ++ a :: post → I pre t → f a t = .ok ⟨⟩ t' →
      I (pre ++ [a]) t') :
    (∃ s', forM l f s = .ok ⟨⟩ s' ∧ I l s') ∨
    ∃ pre a post t e s', l = pre ++ a :: post ∧ I pre t ∧ f a t = .error e s' ∧
      forM l f s = .error e s' := by
  induction l using List.reverseRecOn with
  | nil => exact .inl ⟨s, rfl, hs⟩
  | append_singleton l a ih =>
      have hprev := ih (fun pre b post t t' hl => hstep pre b (post ++ [a]) t t' (by rw [hl]; simp))
      rcases hprev with ⟨t, hrun, ht⟩ | ⟨pre, b, post, t, e, s', hl, ht, hb, hrun⟩
      · cases ha : f a t with
        | ok u t' =>
            refine .inl ⟨t', ?_, hstep l a [] t t' rfl ht ha⟩
            rw [forM_append, bind_of_ok hrun]
            exact forM_single ha
        | error e t' =>
            refine .inr ⟨l, a, [], t, e, t', rfl, ht, ha, ?_⟩
            rw [forM_append, bind_of_ok hrun, List.forM_cons, bind_of_error ha]
      · refine .inr ⟨pre, b, post ++ [a], t, e, s', by rw [hl]; simp, ht, hb, ?_⟩
        rw [forM_append, bind_of_error hrun]

-- ── `Ends`: total correctness ─────────────────────────────────────────────────

/-- From every state that satisfies `P` the program ends without an error, in a
    value and state that satisfy `Q`. -/
def Ends (P : σ → Prop) (x : EStateM ε σ α) (Q : α → σ → Prop) : Prop :=
  ∀ s, P s → ∃ a s', x s = .ok a s' ∧ Q a s'

theorem Ends.bind {P : σ → Prop} {x : EStateM ε σ α} {Q : α → σ → Prop}
    {f : α → EStateM ε σ β} {R : β → σ → Prop}
    (hx : Ends P x Q) (hf : ∀ a, Ends (Q a) (f a) R) : Ends P (x >>= f) R := by
  intro s hs
  obtain ⟨a, s', hrun, hq⟩ := hx s hs
  obtain ⟨b, s'', hrun', hr⟩ := hf a s' hq
  exact ⟨b, s'', by rw [bind_of_ok hrun]; exact hrun', hr⟩

/-- The loop rule: an invariant indexed by the elements already handled. -/
theorem Ends.loop {l : List α} {f : α → EStateM ε σ PUnit} (I : List α → σ → Prop)
    (h : ∀ pre a post, l = pre ++ a :: post →
      Ends (I pre) (f a) (fun _ s' => I (pre ++ [a]) s')) :
    Ends (I []) (forM l f) (fun _ s' => I l s') := by
  -- the induction is on what is left, with the handled prefix as a parameter
  have key : ∀ (post pre : List α), l = pre ++ post →
      Ends (I pre) (forM post f) (fun _ s' => I l s') := by
    intro post
    induction post with
    | nil =>
        intro pre hl s hs
        rw [List.append_nil] at hl
        exact ⟨⟨⟩, s, rfl, by rw [hl]; exact hs⟩
    | cons a post ih =>
        intro pre hl
        rw [List.forM_cons]
        refine Ends.bind (h pre a post hl) (fun _ => ?_)
        exact ih (pre ++ [a]) (by rw [hl, List.append_assoc]; rfl)
  exact key l [] rfl

/-- What holds in the end of the first part, if that is the end, and else of the second one. -/
theorem finalState_bind {P : σ → Prop} {x : EStateM ε σ α} {f : α → EStateM ε σ β} {s : σ}
    (hx : P (finalState (x s))) (hf : ∀ a s', x s = .ok a s' → P (finalState (f a s'))) :
    P (finalState ((x >>= f) s)) := by
  cases hr : x s with
  | ok a s' =>
      rw [bind_of_ok hr]
      exact hf a s' hr
  | error e s' =>
      rw [hr] at hx
      rw [bind_of_error hr]
      exact hx

/-- What comes after it only reads. -/
theorem finalState_bind_reads (x : EStateM ε σ α) {f : α → EStateM ε σ β}
    (hf : ∀ a s, finalState (f a s) = s) (s : σ) :
    finalState ((x >>= f) s) = finalState (x s) := by
  cases hr : x s with
  | ok a s' => rw [bind_of_ok hr, hf, finalState_ok]
  | error e s' => rw [bind_of_error hr, finalState_error, finalState_error]

theorem finalState_bind_pure (x : EStateM ε σ α) (f : α → β) (s : σ) :
    finalState ((x >>= fun a => pure (f a)) s) = finalState (x s) :=
  finalState_bind_reads x (fun _ _ => rfl) s

-- ── `Steps`: relations between the start and the end state ────────────────────

/-- Start and end state are related by `R`, whether the program fails or not. -/
def Steps (R : σ → σ → Prop) (x : EStateM ε σ α) : Prop :=
  ∀ s, R s (finalState (x s))

section Steps

variable {R : σ → σ → Prop}

theorem Steps.pure (hrefl : ∀ s, R s s) (a : α) :
    Steps R (Pure.pure a : EStateM ε σ α) := fun s => hrefl s

theorem Steps.throw (hrefl : ∀ s, R s s) (e : ε) :
    Steps R (MonadExcept.throw e : EStateM ε σ α) := fun s => hrefl s

theorem Steps.bind (htrans : ∀ a b c, R a b → R b c → R a c)
    {x : EStateM ε σ α} {f : α → EStateM ε σ β}
    (hx : Steps R x) (hf : ∀ a, Steps R (f a)) : Steps R (x >>= f) := by
  intro s
  have h1 := hx s
  cases hr : x s with
  | ok a s' =>
      rw [hr] at h1
      rw [bind_of_ok hr]
      exact htrans _ _ _ h1 (hf a s')
  | error e s' =>
      rw [hr] at h1
      rw [bind_of_error hr]
      exact h1

theorem Steps.loop (hrefl : ∀ s, R s s) (htrans : ∀ a b c, R a b → R b c → R a c)
    {l : List α} {f : α → EStateM ε σ PUnit} (hf : ∀ a ∈ l, Steps R (f a)) :
    Steps R (forM l f) := by
  induction l with
  | nil => exact Steps.pure hrefl _
  | cons a l ih =>
      rw [List.forM_cons]
      refine Steps.bind htrans (hf a (List.mem_cons_self ..)) (fun _ => ?_)
      exact ih (fun b hb => hf b (List.mem_cons_of_mem _ hb))

theorem Steps.mapM (hrefl : ∀ s, R s s) (htrans : ∀ a b c, R a b → R b c → R a c)
    {l : List α} {f : α → EStateM ε σ β} (hf : ∀ a ∈ l, Steps R (f a)) : Steps R (l.mapM f) := by
  induction l with
  | nil => exact Steps.pure hrefl _
  | cons a l ih =>
      rw [List.mapM_cons]
      refine Steps.bind htrans (hf a (List.mem_cons_self ..)) (fun _ => ?_)
      refine Steps.bind htrans (ih (fun b hb => hf b (List.mem_cons_of_mem _ hb))) (fun _ => ?_)
      exact Steps.pure hrefl _

theorem Steps.foldlM (hrefl : ∀ s, R s s) (htrans : ∀ a b c, R a b → R b c → R a c)
    {l : List α} {f : β → α → EStateM ε σ β} (hf : ∀ b, ∀ a ∈ l, Steps R (f b a)) (b : β) :
    Steps R (l.foldlM f b) := by
  induction l generalizing b with
  | nil => exact Steps.pure hrefl _
  | cons a l ih =>
      rw [List.foldlM_cons]
      refine Steps.bind htrans (hf b a (List.mem_cons_self ..)) (fun b' => ?_)
      exact ih (fun b a ha => hf b a (List.mem_cons_of_mem _ ha)) b'

/-- A property that each round of a mapped program brings about, and that later rounds keep. -/
theorem mapM_ok_forall (htrans : ∀ a b c, R a b → R b c → R a c) {l : List α}
    {f : α → EStateM ε σ β} {P : α → σ → Prop} (hrefl : ∀ s, R s s)
    (hf : ∀ a ∈ l, Steps R (f a)) (hP : ∀ a s b s', f a s = .ok b s' → P a s')
    (hkeep : ∀ a s s', R s s' → P a s → P a s') {s s' : σ} {bs : List β}
    (h : l.mapM f s = .ok bs s') : ∀ a ∈ l, P a s' := by
  induction l generalizing s bs with
  | nil => exact fun a ha => absurd ha List.not_mem_nil
  | cons a l ih =>
      rw [List.mapM_cons] at h
      obtain ⟨b, s₁, hone, h₁⟩ := bind_ok h
      obtain ⟨bs', s₂, hrest, h₂⟩ := bind_ok h₁
      cases h₂
      have hfl : ∀ a ∈ l, Steps R (f a) := fun a ha => hf a (List.mem_cons_of_mem _ ha)
      have hstep := Steps.mapM hrefl htrans hfl s₁
      rw [hrest] at hstep
      intro a' ha'
      rcases List.mem_cons.mp ha' with rfl | ha'
      · exact hkeep a' s₁ _ hstep (hP a' s b s₁ hone)
      · exact ih hfl hrest a' ha'

/-- The same for a fold. -/
theorem foldlM_ok_forall (htrans : ∀ a b c, R a b → R b c → R a c) {l : List α}
    {f : β → α → EStateM ε σ β} {P : α → σ → Prop} (hrefl : ∀ s, R s s)
    (hf : ∀ b, ∀ a ∈ l, Steps R (f b a)) (hP : ∀ b a s b' s', f b a s = .ok b' s' → P a s')
    (hkeep : ∀ a s s', R s s' → P a s → P a s') {b b' : β} {s s' : σ}
    (h : l.foldlM f b s = .ok b' s') : ∀ a ∈ l, P a s' := by
  induction l generalizing b s with
  | nil => exact fun a ha => absurd ha List.not_mem_nil
  | cons a l ih =>
      rw [List.foldlM_cons] at h
      obtain ⟨b₁, s₁, hone, hrest⟩ := bind_ok h
      have hfl : ∀ b, ∀ a ∈ l, Steps R (f b a) := fun b a ha => hf b a (List.mem_cons_of_mem _ ha)
      have hstep := Steps.foldlM hrefl htrans hfl b₁ s₁
      rw [hrest] at hstep
      intro a' ha'
      rcases List.mem_cons.mp ha' with rfl | ha'
      · exact hkeep a' s₁ s' hstep (hP b a' s b₁ s₁ hone)
      · exact ih hfl hrest a' ha'

end Steps

-- ── `Follows`: two runs side by side ──────────────────────────────────────────

/-- Whenever the first program succeeds and ends in a state of `G`, the second one succeeds
    from every state related to the start of the first, with the same value and in a state
    related to the end of the first. -/
def Follows (G : σ → Prop) (R : σ → σ → Prop) (x y : EStateM ε σ α) : Prop :=
  ∀ s t a s', R s t → x s = .ok a s' → G s' → ∃ t', y t = .ok a t' ∧ R s' t'

section Follows

variable {G : σ → Prop} {R : σ → σ → Prop}

theorem Follows.pure (a : α) : Follows G R (Pure.pure a : EStateM ε σ α) (Pure.pure a) := by
  intro s t b s' h hx _
  cases hx
  exact ⟨t, rfl, h⟩

theorem Follows.throw (e : ε) (y : EStateM ε σ α) : Follows G R (MonadExcept.throw e) y := by
  intro s t b s' _ hx _
  cases hx

theorem Follows.update {f g : σ → σ} (h : ∀ s t, R s t → R (f s) (g t)) :
    Follows G R (modify f : EStateM ε σ PUnit) (modify g) := by
  intro s t b s' hst hx _
  cases hx
  exact ⟨g t, rfl, h s t hst⟩

/-- In a sequence, the goal of the whole run must hold at the end of the first half as well:
    the second half cannot have brought it about. -/
theorem Follows.bind {x y : EStateM ε σ α} {f g : α → EStateM ε σ β} (hx : Follows G R x y)
    (hback : ∀ a, Steps (fun s s' => G s' → G s) (f a)) (hf : ∀ a, Follows G R (f a) (g a)) :
    Follows G R (x >>= f) (y >>= g) := by
  intro s t b s'' hst hrun hg
  obtain ⟨a, s', h₁, h₂⟩ := bind_ok hrun
  have hback := hback a s'
  rw [h₂] at hback
  obtain ⟨t', ht₁, hst'⟩ := hx s t a s' hst h₁ (hback hg)
  obtain ⟨t'', ht₂, hst''⟩ := hf a s' t' b s'' hst' h₂ hg
  exact ⟨t'', by rw [bind_of_ok ht₁]; exact ht₂, hst''⟩

theorem Follows.loop {l : List α} {f g : α → EStateM ε σ PUnit}
    (hback : ∀ a ∈ l, Steps (fun s s' => G s' → G s) (f a))
    (hf : ∀ a ∈ l, Follows G R (f a) (g a)) : Follows G R (forM l f) (forM l g) := by
  induction l with
  | nil => exact Follows.pure _
  | cons a l ih =>
      rw [List.forM_cons, List.forM_cons]
      refine Follows.bind (hf a (List.mem_cons_self ..)) (fun _ => ?_) (fun _ => ?_)
      · exact Steps.loop (fun _ h => h) (fun _ _ _ h h' hg => h (h' hg))
          (fun b hb => hback b (List.mem_cons_of_mem _ hb))
      · exact ih (fun b hb => hback b (List.mem_cons_of_mem _ hb))
          (fun b hb => hf b (List.mem_cons_of_mem _ hb))

end Follows

end Exec
