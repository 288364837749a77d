import OstreeExt.Lib.Exec
import Mathlib.Logic.Function.Basic
import Mathlib.Logic.Relation

/-!
# Programs that share a state

A `Prog` is a program of actions, each of which is done as a whole; a `Pool` is a state with the
programs that share it.  In each step of a pool one of its programs does its next action, so that
between two actions of a program anything can happen that the other ones do.

`Outline` is a judgement about one program: between two actions it relies on an assertion that
what the others do in front of its next action keeps.  `Pool.keeps` puts the outlines together:
what every action keeps true in its outline holds in every state that the pool reaches.
-/

namespace Exec

open Relation

variable {κ : Type} {Res : κ → Type} {ε σ α β γ ι : Type}

/-- A program of actions; what follows an action depends on what it has returned. -/
inductive Prog (Res : κ → Type) (ε α : Type) : Type where
  | done (a : α)
  | fail (e : ε)
  | act (k : κ) (next : Res k → Prog Res ε α)

namespace Prog

/-- One action. -/
def perform (k : κ) : Prog Res ε (Res k) := .act k .done

/-- What is computed without looking at the state. -/
def ofExcept : Except ε α → Prog Res ε α
  | .ok a => .done a
  | .error e => .fail e

/-- First one program, then another one. -/
def andThen : Prog Res ε α → (α → Prog Res ε β) → Prog Res ε β
  | .done a, f => f a
  | .fail e, _ => .fail e
  | .act k next, f => .act k (fun b => (next b).andThen f)

instance : Monad (Prog Res ε) where
  pure := .done
  bind := andThen

theorem andThen_done (p : Prog Res ε α) : p.andThen .done = p := by
  induction p with
  | done a => rfl
  | fail e => rfl
  | act k next ih =>
      rw [andThen]
      exact congrArg (Prog.act k) (funext ih)

theorem andThen_assoc (p : Prog Res ε α) (f : α → Prog Res ε β) (g : β → Prog Res ε γ) :
    (p.andThen f).andThen g = p.andThen (fun a => (f a).andThen g) := by
  induction p with
  | done a => rfl
  | fail e => rfl
  | act k next ih =>
      rw [andThen, andThen, andThen]
      exact congrArg (Prog.act k) (funext ih)

instance : LawfulMonad (Prog Res ε) :=
  LawfulMonad.mk' _ andThen_done (fun _ _ => rfl) andThen_assoc

/-- Nothing is left to do. -/
def Idle : Prog Res ε α → Prop
  | .done _ | .fail _ => True
  | .act _ _ => False

/-- The next action, if there is one. -/
def nextAct : Prog Res ε α → Option κ
  | .done _ | .fail _ => none
  | .act k _ => some k

theorem Idle.nextAct {p : Prog Res ε α} (h : p.Idle) : p.nextAct = none := by
  cases p with
  | done a => rfl
  | fail e => rfl
  | act k next => exact absurd h (fun hidle => hidle)

-- ── A program on its own ──────────────────────────────────────────────────────

section Run

variable (exec : ∀ k, EStateM ε σ (Res k))

/-- The program run from its start to its end, with nothing in between. -/
def run : Prog Res ε α → EStateM ε σ α
  | .done a => pure a
  | .fail e => throw e
  | .act k next => do
      let b ← exec k
      (next b).run

theorem run_perform (k : κ) : (perform k : Prog Res ε (Res k)).run exec = exec k :=
  bind_pure (exec k)

theorem run_bind (p : Prog Res ε α) (f : α → Prog Res ε β) :
    (p >>= f).run exec = (do
      let a ← p.run exec
      (f a).run exec) := by
  induction p with
  | done a =>
      show (f a).run exec = _
      rw [run, pure_bind]
  | fail e => rfl
  | act k next ih =>
      show (do
        let b ← exec k
        (next b >>= f).run exec) = _
      rw [run, bind_assoc]
      exact congrArg (exec k >>= ·) (funext ih)

/-- A sequence is run as its halves are. -/
theorem run_bind_eq {p : Prog Res ε α} {f : α → Prog Res ε β} {x : EStateM ε σ α}
    {g : α → EStateM ε σ β} (hp : p.run exec = x) (hf : ∀ a, (f a).run exec = g a) :
    (p >>= f).run exec = x >>= g := by
  rw [run_bind, hp]
  exact congrArg (x >>= ·) (funext hf)

theorem run_mapM (f : α → Prog Res ε β) (l : List α) :
    (l.mapM f).run exec = l.mapM (fun a => (f a).run exec) := by
  induction l with
  | nil => rfl
  | cons a l ih =>
      rw [List.mapM_cons, List.mapM_cons]
      exact run_bind_eq exec rfl (fun b => run_bind_eq exec ih (fun _ => rfl))

theorem run_foldlM (f : β → α → Prog Res ε β) (l : List α) (b : β) :
    (l.foldlM f b).run exec = l.foldlM (fun b a => (f b a).run exec) b := by
  induction l generalizing b with
  | nil => rfl
  | cons a l ih =>
      rw [List.foldlM_cons, List.foldlM_cons]
      exact run_bind_eq exec rfl ih

end Run

end Prog

-- ── Outlines ──────────────────────────────────────────────────────────────────

section Outline

variable (exec : ∀ k, EStateM ε σ (Res k)) (I : σ → Prop) (A : κ → σ → Prop)
  (E : κ → σ → σ → Prop)

/-- From states of `P` each action of the program keeps `I` true, if it is admitted by `A`, and the
    program ends in `Q`.  In front of an action `k` it relies on an assertion that steps of `E k`
    keep. -/
inductive Outline : (σ → Prop) → Prog Res ε α → (α → σ → Prop) → Prop
  | done {P : σ → Prop} {a : α} {Q : α → σ → Prop} (post : ∀ s, I s → P s → Q a s) :
      Outline P (.done a) Q
  | fail {P : σ → Prop} {e : ε} {Q : α → σ → Prop} : Outline P (.fail e) Q
  | act {P : σ → Prop} {k : κ} {next : Res k → Prog Res ε α} {Q : α → σ → Prop} (K : σ → Prop)
      (M : Res k → σ → Prop) (pre : ∀ s, I s → P s → K s)
      (stable : ∀ s s', K s → E k s s' → K s')
      (keeps : ∀ s, I s → K s → A k s → I (finalState (exec k s)))
      (post : ∀ s b s', I s → K s → A k s → exec k s = .ok b s' → M b s')
      (rest : ∀ b, Outline (M b) (next b) Q) : Outline P (.act k next) Q

variable {exec I A E}

namespace Outline

variable {P P' : σ → Prop} {Q : α → σ → Prop}

theorem conseq {p : Prog Res ε α} (h : Outline exec I A E P p Q) (hP : ∀ s, I s → P' s → P s) :
    Outline exec I A E P' p Q := by
  cases h with
  | done post => exact .done (fun s hI hP' => post s hI (hP s hI hP'))
  | fail => exact .fail
  | act K M pre stable keeps post rest =>
      exact .act K M (fun s hI hP' => pre s hI (hP s hI hP')) stable keeps post rest

theorem bind {p : Prog Res ε α} {f : α → Prog Res ε β} {R : β → σ → Prop}
    (h : Outline exec I A E P p Q) (hf : ∀ a, Outline exec I A E (Q a) (f a) R) :
    Outline exec I A E P (p >>= f) R := by
  induction h with
  | @done P a Q post => exact (hf a).conseq post
  | fail => exact .fail
  | act K M pre stable keeps post rest ih =>
      exact .act K M pre stable keeps post (fun b => ih b hf)

/-- What holds of the program's text, as part of its precondition. -/
theorem of_fact {p : Prog Res ε α} {φ : Prop} (h : φ → Outline exec I A E P p Q) :
    Outline exec I A E (fun s => φ ∧ P s) p Q := by
  by_cases hφ : φ
  · exact (h hφ).conseq (fun s _ hs => hs.2)
  · -- there is no such state
    have hnone : ∀ s, I s → (φ ∧ P s) → False := fun s _ hs => hφ hs.1
    induction p with
    | done a => exact .done (fun s hI hs => (hnone s hI hs).elim)
    | fail e => exact .fail
    | act k next ih =>
        refine .act (fun _ => False) (fun _ s => φ ∧ P s) hnone (fun _ _ hs _ => hs)
          (fun _ _ hs => hs.elim) (fun _ _ _ _ hs => hs.elim) (fun b => ih b ?_)
        exact fun hφ' => absurd hφ' hφ

theorem pure {a : α} (h : ∀ s, I s → P s → Q a s) :
    Outline exec I A E P (Pure.pure a : Prog Res ε α) Q := .done h

theorem ofExcept (x : Except ε α) :
    Outline exec I A E P (Prog.ofExcept x : Prog Res ε α) (fun a s => x = .ok a ∧ P s) := by
  cases x with
  | ok a => exact .done (fun _ _ hs => ⟨rfl, hs⟩)
  | error e => exact .fail

theorem perform {k : κ} {M : Res k → σ → Prop} (stable : ∀ s s', P s → E k s s' → P s')
    (keeps : ∀ s, I s → P s → A k s → I (finalState (exec k s)))
    (post : ∀ s b s', I s → P s → A k s → exec k s = .ok b s' → M b s') :
    Outline exec I A E P (Prog.perform k : Prog Res ε (Res k)) M :=
  .act P M (fun _ _ hs => hs) stable keeps post (fun _ => .done (fun _ _ hs => hs))

/-- The loop rule: an invariant indexed by the elements already handled. -/
theorem mapM {l : List α} {f : α → Prog Res ε β} (J : List α → σ → Prop)
    (h : ∀ pre a post, l = pre ++ a :: post →
      Outline exec I A E (J pre) (f a) (fun _ => J (pre ++ [a]))) :
    Outline exec I A E (J []) (l.mapM f) (fun _ => J l) := by
  -- the induction is on what is left, with the handled prefix as a parameter
  have key : ∀ (post pre : List α), l = pre ++ post →
      Outline exec I A E (J pre) (post.mapM f) (fun _ => J l) := by
    intro post
    induction post with
    | nil =>
        intro pre hl
        rw [List.append_nil] at hl
        exact .pure (fun s _ hs => hl ▸ hs)
    | cons a post ih =>
        intro pre hl
        rw [List.mapM_cons]
        refine (h pre a post hl).bind (fun _ => ?_)
        refine (ih (pre ++ [a]) (by rw [hl, List.append_assoc]; rfl)).bind (fun _ => ?_)
        exact .pure (fun _ _ hs => hs)
  exact key l [] rfl

/-- The same for a fold. -/
theorem foldlM {l : List α} {f : β → α → Prog Res ε β} (J : List α → σ → Prop)
    (h : ∀ pre a post b, l = pre ++ a :: post →
      Outline exec I A E (J pre) (f b a) (fun _ => J (pre ++ [a]))) (b : β) :
    Outline exec I A E (J []) (l.foldlM f b) (fun _ => J l) := by
  have key : ∀ (post pre : List α) (b : β), l = pre ++ post →
      Outline exec I A E (J pre) (post.foldlM f b) (fun _ => J l) := by
    intro post
    induction post with
    | nil =>
        intro pre b hl
        rw [List.append_nil] at hl
        exact .pure (fun s _ hs => hl ▸ hs)
    | cons a post ih =>
        intro pre b hl
        rw [List.foldlM_cons]
        refine (h pre a post b hl).bind (fun b' => ?_)
        exact ih (pre ++ [a]) b' (by rw [hl, List.append_assoc]; rfl)
  exact key l [] b rfl

end Outline

end Outline

-- ── Pools ─────────────────────────────────────────────────────────────────────

/-- A state, and the programs that share it. -/
structure Pool (ι : Type) (Res : κ → Type) (ε σ α : Type) where
  state : σ
  programs : ι → Prog Res ε α

namespace Pool

/-- The pool in which one program has got on. -/
def advance [DecidableEq ι] (pool : Pool ι Res ε σ α) (i : ι) (s : σ) (p : Prog Res ε α) :
    Pool ι Res ε σ α :=
  { state := s, programs := Function.update pool.programs i p }

section Step

variable [DecidableEq ι] (exec : ∀ k, EStateM ε σ (Res k)) (starts : Prog Res ε α → Prop)
  (A : κ → σ → Prop) (C : κ → κ → σ → Prop)

/-- One step: a new program in the place of one that has ended, or the next action of one.  The
    action is admitted by `A`, and by `C` beside each action that another program is in front
    of. -/
inductive Step : Pool ι Res ε σ α → Pool ι Res ε σ α → Prop
  | start {pool : Pool ι Res ε σ α} {i : ι} {p : Prog Res ε α} (idle : (pool.programs i).Idle)
      (new : starts p) : Step pool (pool.advance i pool.state p)
  | act {pool : Pool ι Res ε σ α} {i : ι} {k : κ} {next : Res k → Prog Res ε α} {b : Res k} {s : σ}
      (now : pool.programs i = .act k next) (admitted : A k pool.state)
      (beside : ∀ j, j ≠ i → ∀ k', (pool.programs j).nextAct = some k' → C k k' pool.state)
      (run : exec k pool.state = .ok b s) : Step pool (pool.advance i s (next b))
  | stop {pool : Pool ι Res ε σ α} {i : ι} {k : κ} {next : Res k → Prog Res ε α} {e : ε} {s : σ}
      (now : pool.programs i = .act k next) (admitted : A k pool.state)
      (beside : ∀ j, j ≠ i → ∀ k', (pool.programs j).nextAct = some k' → C k k' pool.state)
      (run : exec k pool.state = .error e s) : Step pool (pool.advance i s (.fail e))

/-- Any number of steps. -/
def Run : Pool ι Res ε σ α → Pool ι Res ε σ α → Prop := ReflTransGen (Step exec starts A C)

end Step

section Keeps

variable [DecidableEq ι] {exec : ∀ k, EStateM ε σ (Res k)} {starts : Prog Res ε α → Prop}
  {I : σ → Prop} {A : κ → σ → Prop} {C : κ → κ → σ → Prop} {E : κ → σ → σ → Prop}

/-- The state is one of `I`, and each program is at a place of its outline. -/
structure Outlined (exec : ∀ k, EStateM ε σ (Res k)) (I : σ → Prop) (A : κ → σ → Prop)
    (E : κ → σ → σ → Prop) (pool : Pool ι Res ε σ α) : Prop where
  state : I pool.state
  programs : ∀ i, ∃ P, P pool.state ∧
    Outline exec I A E P (pool.programs i) (fun _ _ => True)

theorem outlined_of_idle {p : Prog Res ε α} (h : p.Idle) (s : σ) :
    ∃ P : σ → Prop, P s ∧ Outline exec I A E P p (fun _ _ => True) := by
  cases p with
  | done a => exact ⟨fun _ => True, trivial, .done (fun _ _ _ => trivial)⟩
  | fail e => exact ⟨fun _ => True, trivial, .fail⟩
  | act k next => exact absurd h (fun hidle => hidle)

/-- What a program relies on is still there after an action of another one. -/
theorem outlined_beside {p : Prog Res ε α} {P : σ → Prop} {s s' : σ}
    (h : Outline exec I A E P p (fun _ _ => True)) (hI : I s) (hP : P s)
    (hE : ∀ k, p.nextAct = some k → E k s s') :
    ∃ P : σ → Prop, P s' ∧ Outline exec I A E P p (fun _ _ => True) := by
  cases h with
  | done post => exact ⟨fun _ => True, trivial, .done (fun _ _ _ => trivial)⟩
  | fail => exact ⟨fun _ => True, trivial, .fail⟩
  | act K M pre stable keeps post rest =>
      exact ⟨K, stable s s' (pre s hI hP) (hE _ rfl),
        .act K M (fun _ _ hs => hs) stable keeps post rest⟩

section Others

variable {pool : Pool ι Res ε σ α} {i : ι}

/-- A pool in which one program has got on is outlined if that one is, and the others rely on
    nothing that has changed. -/
theorem Outlined.advance (h : Outlined exec I A E pool) {s : σ} {p : Prog Res ε α} (hI : I s)
    (hE : ∀ j, j ≠ i → ∀ k, (pool.programs j).nextAct = some k → E k pool.state s)
    (hp : ∃ P : σ → Prop, P s ∧ Outline exec I A E P p (fun _ _ => True)) :
    Outlined exec I A E (pool.advance i s p) where
  state := hI
  programs j := by
    show ∃ P : σ → Prop, P s ∧
      Outline exec I A E P (Function.update pool.programs i p j) (fun _ _ => True)
    by_cases hj : j = i
    · rw [hj, Function.update_self]
      exact hp
    · rw [Function.update_of_ne hj]
      obtain ⟨P, hP, hout⟩ := h.programs j
      exact outlined_beside hout h.state hP (hE j hj)

end Others

/-- **One step of a pool.** -/
theorem Step.outlined
    (hstarts : ∀ p, starts p → Outline exec I A E (fun _ => True) p (fun _ _ => True))
    (hrely : ∀ k k' s, I s → A k s → C k k' s → E k' s (finalState (exec k s)))
    (hrefl : ∀ k s, E k s s) {a b : Pool ι Res ε σ α} (hstep : Step exec starts A C a b)
    (h : Outlined exec I A E a) : Outlined exec I A E b := by
  cases hstep with
  | start idle new =>
      exact h.advance h.state (fun _ _ k _ => hrefl k _) ⟨_, trivial, hstarts _ new⟩
  | @act i k next b s now admitted beside run =>
      obtain ⟨P, hP, hout⟩ := h.programs i
      rw [now] at hout
      cases hout with
      | act K M pre stable keeps post rest =>
          have hK := pre _ h.state hP
          have hI := keeps _ h.state hK admitted
          have hE : ∀ k', C k k' a.state → E k' a.state s := by
            intro k' hC
            have hfinal := hrely k k' _ h.state admitted hC
            rw [run] at hfinal
            exact hfinal
          rw [run] at hI
          exact h.advance hI (fun j hj k' hk' => hE k' (beside j hj k' hk'))
            ⟨M b, post _ b s h.state hK admitted run, rest b⟩
  | @stop i k next e s now admitted beside run =>
      obtain ⟨P, hP, hout⟩ := h.programs i
      rw [now] at hout
      cases hout with
      | act K M pre stable keeps post rest =>
          have hI := keeps _ h.state (pre _ h.state hP) admitted
          have hE : ∀ k', C k k' a.state → E k' a.state s := by
            intro k' hC
            have hfinal := hrely k k' _ h.state admitted hC
            rw [run] at hfinal
            exact hfinal
          rw [run] at hI
          exact h.advance hI (fun j hj k' hk' => hE k' (beside j hj k' hk'))
            ⟨fun _ => True, trivial, .fail⟩

/-- **Any interleaving** keeps what the outlines keep. -/
theorem keeps (hstarts : ∀ p, starts p → Outline exec I A E (fun _ => True) p (fun _ _ => True))
    (hrely : ∀ k k' s, I s → A k s → C k k' s → E k' s (finalState (exec k s)))
    (hrefl : ∀ k s, E k s s) {a b : Pool ι Res ε σ α} (hrun : Run exec starts A C a b)
    (hI : I a.state) (hidle : ∀ i, (a.programs i).Idle) : I b.state := by
  have hstart : Outlined exec I A E a := ⟨hI, fun i => outlined_of_idle (hidle i) a.state⟩
  have hend : Outlined exec I A E b := by
    induction hrun with
    | refl => exact hstart
    | tail _ hstep ih => exact hstep.outlined hstarts hrely hrefl ih
  exact hend.state

end Keeps

end Pool

end Exec
