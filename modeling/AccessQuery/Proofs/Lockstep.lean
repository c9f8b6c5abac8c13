/-
**Two computations in lockstep.**

Two computations are in lockstep when states that are related lead to results that are related, and
to states that still are.  Sequences, choices and loops are followed piece by piece, on both sides
at once.

Main definitions:

* `AccessQuery.Lockstep` — the judgement;
* `AccessQuery.SameOutcome` — outcomes that fail alike, or succeed with related results.

Main results:

* `AccessQuery.Lockstep.bind`, `AccessQuery.Lockstep.ite` — sequences, and choices.
-/

set_option relaxedAutoImplicit false
set_option autoImplicit false

namespace AccessQuery

variable {σ α β ε : Type}

/-- Outcomes that fail with one error, or succeed with related results. -/
inductive SameOutcome (R : α → α → Prop) : Except ε α → Except ε α → Prop
  | error (e : ε) : SameOutcome R (.error e) (.error e)
  | ok {a a' : α} : R a a' → SameOutcome R (.ok a) (.ok a')

theorem SameOutcome.of_eq {outcome outcome' : Except ε α} (h : outcome' = outcome) :
    SameOutcome Eq outcome outcome' := by
  cases h
  cases outcome with
  | error e => exact .error e
  | ok a => exact .ok rfl

/-- Related states lead to related results and to related states. -/
def Lockstep (P : σ → σ → Prop) (m m' : StateM σ α) (R : α → α → Prop) : Prop :=
  ∀ s s', P s s' → R (m s).1 (m' s').1 ∧ P (m s).2 (m' s').2

namespace Lockstep

variable {P : σ → σ → Prop} {R : α → α → Prop}

theorem pure {a a' : α} (h : R a a') : Lockstep P (Pure.pure a) (Pure.pure a') R :=
  fun _ _ hs => ⟨h, hs⟩

/-- What each side reads of its state is related as the states are. -/
theorem get : Lockstep P MonadState.get MonadState.get P :=
  fun _ _ hs => ⟨hs, hs⟩

theorem set {t t' : σ} (h : P t t') :
    Lockstep P (MonadStateOf.set t) (MonadStateOf.set t') (fun _ _ => True) :=
  fun _ _ _ => ⟨trivial, h⟩

theorem bind {m m' : StateM σ α} {f f' : α → StateM σ β} {Q : β → β → Prop}
    (hm : Lockstep P m m' R) (hf : ∀ a a', R a a' → Lockstep P (f a) (f' a') Q) :
    Lockstep P (m >>= f) (m' >>= f') Q := by
  intro s s' hs
  obtain ⟨ha, hs⟩ := hm s s' hs
  exact hf _ _ ha _ _ hs

/-- Where both sides decide alike, each branch is followed. -/
theorem ite {p p' : Prop} [Decidable p] [Decidable p'] (hp : p' ↔ p) {m m' n n' : StateM σ α}
    (hm : Lockstep P m m' R) (hn : Lockstep P n n' R) :
    Lockstep P (if p then m else n) (if p' then m' else n') R := by
  by_cases h : p
  · rw [if_pos h, if_pos (hp.2 h)]
    exact hm
  · rw [if_neg h, if_neg fun h' => h (hp.1 h')]
    exact hn

end Lockstep

end AccessQuery
