/-
**What a stateful computation ensures.**

A computation ensures a postcondition from a precondition when every state with the one leads to a
result and a state with the other.  Sequences, choices and loops are reasoned about piece by piece.

Main definitions:

* `AccessQuery.Ensures` — the judgement.

Main results:

* `AccessQuery.Ensures.bind`, `AccessQuery.Ensures.weaken` — sequences, and weaker conclusions.
-/

set_option relaxedAutoImplicit false
set_option autoImplicit false

namespace AccessQuery

variable {σ α β : Type}

/-- Every state with `P` leads to a result and a state with `Q`. -/
def Ensures (P : σ → Prop) (m : StateM σ α) (Q : α → σ → Prop) : Prop :=
  ∀ s, P s → Q (m s).1 (m s).2

namespace Ensures

theorem pure {P : σ → Prop} {Q : α → σ → Prop} {a : α} (h : ∀ s, P s → Q a s) :
    Ensures P (Pure.pure a : StateM σ α) Q :=
  h

theorem bind {P : σ → Prop} {m : StateM σ α} {f : α → StateM σ β} {M : α → σ → Prop}
    {Q : β → σ → Prop} (hm : Ensures P m M) (hf : ∀ a, Ensures (M a) (f a) Q) :
    Ensures P (m >>= f) Q :=
  fun s hs => hf (m s).1 (m s).2 (hm s hs)

theorem weaken {P : σ → Prop} {m : StateM σ α} {M Q : α → σ → Prop} (hm : Ensures P m M)
    (h : ∀ a s, M a s → Q a s) : Ensures P m Q :=
  fun s hs => h _ _ (hm s hs)

theorem strengthen {P N : σ → Prop} {m : StateM σ α} {Q : α → σ → Prop} (hm : Ensures N m Q)
    (h : ∀ s, P s → N s) : Ensures P m Q :=
  fun s hs => hm s (h s hs)

/-- What the precondition says besides the state is a hypothesis. -/
theorem of_and {p : Prop} {P : σ → Prop} {m : StateM σ α} {Q : α → σ → Prop}
    (h : p → Ensures P m Q) : Ensures (fun s => p ∧ P s) m Q :=
  fun s hs => h hs.1 s hs.2

theorem of_exists {ι : Type} {P : ι → σ → Prop} {m : StateM σ α} {Q : α → σ → Prop}
    (h : ∀ i, Ensures (P i) m Q) : Ensures (fun s => ∃ i, P i s) m Q :=
  fun s hs => hs.elim fun i hi => h i s hi

theorem get {P : σ → Prop} {Q : σ → σ → Prop} (h : ∀ s, P s → Q s s) :
    Ensures P (MonadState.get : StateM σ σ) Q :=
  h

theorem modify {P : σ → Prop} {f : σ → σ} {Q : Unit → σ → Prop} (h : ∀ s, P s → Q () (f s)) :
    Ensures P (modify f : StateM σ Unit) Q :=
  h

end Ensures

end AccessQuery
