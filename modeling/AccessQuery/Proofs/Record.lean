/-
**The record of calls.**

The record of a bridge tells which references its calls were given, which they acquired and which
they released.  A stretch of a record is *orderly* when each of its calls is given references that
have been acquired before and not yet released, or one root reference that was there already.

Main definitions:

* `AccessQuery.Call.given`, `AccessQuery.Call.acquired`, `AccessQuery.Call.released` — the
  references of one call;
* `AccessQuery.Orderly` — stretches in which no reference is used too early or too late.

Main results:

* `AccessQuery.Orderly.concat` — one more call keeps a stretch orderly.
-/

import AccessQuery.Bridge

set_option relaxedAutoImplicit false
set_option autoImplicit false

namespace AccessQuery

namespace Call

/-- The references that a call is given. -/
def given : Call → List NativeRef
  | .children ref _ | .parent ref _ | .attributes ref _ | .siblingIndex ref _ | .release ref _ =>
      [ref]
  | .sameObject a b _ => [a, b]

/-- The references that a call acquires. -/
def acquired : Call → List NativeRef
  | .children _ (.ok refs) => refs
  | .parent _ (.ok (some ref)) => [ref]
  | _ => []

/-- The references that a call releases; a release that fails counts too. -/
def released : Call → List NativeRef
  | .release ref _ => [ref]
  | _ => []

end Call

/-- Every call is given the root reference or references acquired by the calls before it, and none
that they released. -/
def Orderly (root : NativeRef) (made : List Call) : Prop :=
  ∀ earlier call later, made = earlier ++ call :: later → ∀ ref ∈ call.given,
    (ref = root ∨ ref ∈ earlier.flatMap Call.acquired) ∧ ref ∉ earlier.flatMap Call.released

theorem Orderly.nil (root : NativeRef) : Orderly root [] := by
  intro earlier call later h
  simp at h

theorem Orderly.concat {root : NativeRef} {made : List Call} {call : Call}
    (h : Orderly root made) (hg : ∀ ref ∈ call.given,
      (ref = root ∨ ref ∈ made.flatMap Call.acquired) ∧ ref ∉ made.flatMap Call.released) :
    Orderly root (made ++ [call]) := by
  intro earlier other later he
  rcases List.append_eq_append_iff.1 he with ⟨rest, rfl, hrest⟩ | ⟨rest, rfl, hrest⟩
  · -- the call in question is the new one
    cases rest with
    | nil =>
        cases hrest
        simpa using hg
    | cons a rest => simp at hrest
  · cases rest with
    | nil =>
        cases hrest
        simpa using hg
    | cons a rest =>
        cases hrest
        exact h earlier other rest rfl

end AccessQuery
