/-
**Bounds on a resolution.**

A resolution may be confined to the nodes on the screen and to a number of levels, and it may be
stopped early, by a deadline or by a flag that someone raises while it runs.  The flag is described
by the number of bridge calls after which it is up.

Main definitions:

* `AccessQuery.ResolveOptions` — the bounds;
* `AccessQuery.Interrupt`, `AccessQuery.ResolveOptions.interrupt?` — whether to stop;
* `AccessQuery.ResolveError` — why there is no result.

Main results:

* `AccessQuery.ResolveOptions.allowsBelow_mono` — what a bound allows, a greater one allows too.
-/

import AccessQuery.Bridge

set_option relaxedAutoImplicit false
set_option autoImplicit false

namespace AccessQuery

/-! ### Options -/

/-- A moment by which a resolution has to be complete. -/
inductive Deadline
  /-- It has gone by. -/
  | past
  /-- It is further off than any resolution takes. -/
  | far
  deriving DecidableEq, Repr

/-- Bounds on a resolution. -/
structure ResolveOptions where
  /-- Whether nodes that are not showing are passed over, with everything below them. -/
  visibleOnly : Bool := false
  /-- How many levels below a node a descendant step looks at; at least one. -/
  maxDepth : Option Nat := none
  /-- When to give up. -/
  deadline : Option Deadline := none
  /-- The number of calls in the record of the bridge from which on the cancel flag is up. -/
  cancelAt : Option Nat := none
  deriving DecidableEq, Repr

namespace ResolveOptions

/-- Bounds the number of levels. -/
def withMaxDepth (options : ResolveOptions) (depth : Nat) : ResolveOptions :=
  { options with maxDepth := some (max depth 1) }

/-- Raises the cancel flag before the resolution starts. -/
def cancelled (options : ResolveOptions) : ResolveOptions :=
  { options with cancelAt := some 0 }

/-- Raises the cancel flag after some number of further calls, at least one, where some number has
been made already. -/
def cancelAfter (options : ResolveOptions) (made calls : Nat) : ResolveOptions :=
  { options with cancelAt := some (made + max calls 1) }

/-- Whether a descendant step looks below nodes at a depth. -/
def allowsBelow (options : ResolveOptions) (depth : Nat) : Bool :=
  match options.maxDepth with
  | none => true
  | some bound => depth < max bound 1

theorem allowsBelow_mono {a b : ResolveOptions} {m n depth : Nat} (ha : a.maxDepth = some m)
    (hb : b.maxDepth = some n) (hmn : m ≤ n) (h : a.allowsBelow depth = true) :
    b.allowsBelow depth = true := by
  simp only [allowsBelow, ha, hb, decide_eq_true_eq] at h ⊢
  omega

theorem allowsBelow_anti (options : ResolveOptions) {depth deeper : Nat} (hd : depth ≤ deeper)
    (h : options.allowsBelow deeper = true) : options.allowsBelow depth = true := by
  unfold allowsBelow at *
  split
  · rfl
  · next bound hb =>
      rw [hb] at h
      simp only [decide_eq_true_eq] at h ⊢
      omega

end ResolveOptions

/-! ### Stopping early -/

/-- Why a resolution stops early. -/
inductive Interrupt
  | cancelled | deadlineExceeded
  deriving DecidableEq, Repr

/-- Whether to stop, where some number of calls has been made; the flag is looked at first. -/
def ResolveOptions.interrupt? (options : ResolveOptions) (made : Nat) : Option Interrupt :=
  if options.cancelAt.any (· ≤ made) then some .cancelled
  else if options.deadline = some .past then some .deadlineExceeded
  else none

/-! ### Errors -/

/-- Why there is no result. -/
inductive ResolveError
  /-- The root cannot be read. -/
  | rootUnreachable (error : BridgeError)
  /-- The root belongs to another session. -/
  | sessionMismatch (expected found : SessionId)
  /-- The resolution was stopped. -/
  | interrupted (cause : Interrupt)
  deriving DecidableEq

/-- The message of an error. -/
def ResolveError.message : ResolveError → String
  | .rootUnreachable error => "Root node is unreachable: " ++ error.message
  | .sessionMismatch expected found =>
      "Root handle belongs to session " ++ found.label ++ ", expected " ++ expected.label
  | .interrupted .cancelled => "Resolution was cancelled"
  | .interrupted .deadlineExceeded => "Resolution deadline exceeded"

end AccessQuery
