import OstreeExt.Lib.Exec

/-!
# A writer and the reader of its output

Two programs joined by a stream: one appends items to an output that is part of its
state, the other is run on those items later.  `Relay I x J` says that the writer `x`
succeeds from every pair of states related by `I`, that the reader accepts what was
appended, and that `J` relates the states afterwards.  Because the reader starts where it
stood before, relays compose: a simulation of the whole stream is put together from one
lemma per primitive of the writer.
-/

namespace Exec

variable {ε ε' σ τ ι α β : Type}

/-- The writer `x` succeeds, its output grows by items that the reader accepts, and the
    states end related by `J`. -/
def Relay (output : σ → List ι) (read : ι → EStateM ε' τ PUnit) (I : σ → τ → Prop)
    (x : EStateM ε σ α) (J : α → σ → τ → Prop) : Prop :=
  ∀ s t, I s t → ∃ a s' items t', x s = .ok a s' ∧ output s' = output s ++ items
    ∧ forM items read t = .ok ⟨⟩ t' ∧ J a s' t'

section Relay

variable {output : σ → List ι} {read : ι → EStateM ε' τ PUnit}

/-- A writer that appends nothing. -/
theorem Relay.silent {I : σ → τ → Prop} {x : EStateM ε σ α} {J : α → σ → τ → Prop}
    (h : ∀ s t, I s t → ∃ a s', x s = .ok a s' ∧ output s' = output s ∧ J a s' t) :
    Relay output read I x J := by
  intro s t hI
  obtain ⟨a, s', hx, hout, hJ⟩ := h s t hI
  exact ⟨a, s', [], t, hx, by rw [hout, List.append_nil], rfl, hJ⟩

theorem Relay.pure {I : σ → τ → Prop} {a : α} {J : α → σ → τ → Prop}
    (h : ∀ s t, I s t → J a s t) :
    Relay output read I (Pure.pure a : EStateM ε σ α) J :=
  Relay.silent (fun s t hI => ⟨a, s, rfl, rfl, h s t hI⟩)

/-- A writer that appends one item. -/
theorem Relay.item {I : σ → τ → Prop} {x : EStateM ε σ α} {J : α → σ → τ → Prop}
    (h : ∀ s t, I s t → ∃ a s' i t', x s = .ok a s' ∧ output s' = output s ++ [i]
      ∧ read i t = .ok ⟨⟩ t' ∧ J a s' t') :
    Relay output read I x J := by
  intro s t hI
  obtain ⟨a, s', i, t', hx, hout, hread, hJ⟩ := h s t hI
  exact ⟨a, s', [i], t', hx, hout, forM_single hread, hJ⟩

theorem Relay.bind {I : σ → τ → Prop} {x : EStateM ε σ α} {J : α → σ → τ → Prop}
    {f : α → EStateM ε σ β} {K : β → σ → τ → Prop}
    (hx : Relay output read I x J) (hf : ∀ a, Relay output read (J a) (f a) K) :
    Relay output read I (x >>= f) K := by
  intro s t hI
  obtain ⟨a, s', is, t', hrun, hout, hread, hJ⟩ := hx s t hI
  obtain ⟨b, s'', js, t'', hrun', hout', hread', hK⟩ := hf a s' t' hJ
  refine ⟨b, s'', is ++ js, t'', ?_, ?_, ?_, hK⟩
  · rw [bind_of_ok hrun]; exact hrun'
  · rw [hout', hout, List.append_assoc]
  · rw [forM_append, bind_of_ok hread]; exact hread'

theorem Relay.conseq {I I' : σ → τ → Prop} {x : EStateM ε σ α} {J J' : α → σ → τ → Prop}
    (hx : Relay output read I x J) (hI : ∀ s t, I' s t → I s t)
    (hJ : ∀ a s t, J a s t → J' a s t) : Relay output read I' x J' := by
  intro s t hs
  obtain ⟨a, s', is, t', hrun, hout, hread, hpost⟩ := hx s t (hI s t hs)
  exact ⟨a, s', is, t', hrun, hout, hread, hJ a s' t' hpost⟩

/-- The loop rule: a relation indexed by the elements already handled. -/
theorem Relay.loop {l : List α} {f : α → EStateM ε σ PUnit} (I : List α → σ → τ → Prop)
    (h : ∀ pre a post, l = pre ++ a :: post →
      Relay output read (I pre) (f a) (fun _ => I (pre ++ [a]))) :
    Relay output read (I []) (forM l f) (fun _ => I l) := by
  -- the induction is on what is left, with the handled prefix as a parameter
  have key : ∀ (post pre : List α), l = pre ++ post →
      Relay output read (I pre) (forM post f) (fun _ => I l) := by
    intro post
    induction post with
    | nil =>
        intro pre hl
        rw [List.append_nil] at hl
        rw [hl]
        exact Relay.pure (fun _ _ hI => hI)
    | cons a post ih =>
        intro pre hl
        rw [List.forM_cons]
        refine Relay.bind (h pre a post hl) (fun _ => ?_)
        exact ih (pre ++ [a]) (by rw [hl, List.append_assoc]; rfl)
  exact key l [] rfl

end Relay

end Exec
