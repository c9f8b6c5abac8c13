/-
**The children of a node, taken one at a time.**

The children of a node are acquired together and taken in order, each with its place among them.
Those that are not wanted can be given back before they are taken, and then the rest is renumbered;
those never taken are given back at the end.

Places and counts are natural numbers.  Counters of 32 bits would hold the same numbers for fewer
than 2³² children, since none is larger than the number of children that were acquired.

Main definitions:

* `AccessQuery.SiblingPosition` — a place among siblings;
* `AccessQuery.Siblings` — the children that are left, with `next?`, `retain` and `drop`;
* `AccessQuery.Session.children`, `AccessQuery.Session.siblingPosition` — acquiring the children of
  a node, and asking for the place of one.

Main results:

* `AccessQuery.Siblings.remaining_cons` — taking one after another yields the remaining children
  with consecutive places.
-/

import AccessQuery.Session

set_option relaxedAutoImplicit false
set_option autoImplicit false

namespace AccessQuery

/-! ### Places -/

/-- The place of a node among its siblings.  Both numbers fit into 32 bits if there are fewer than
2³² siblings. -/
structure SiblingPosition where
  /-- The zero-based place. -/
  index : Nat
  /-- The number of siblings, the node included. -/
  count : Nat
  deriving DecidableEq, Repr

namespace SiblingPosition

/-- The place of a node without siblings. -/
def alone : SiblingPosition := ⟨0, 1⟩

/-- The one-based place. -/
def place (position : SiblingPosition) : Nat :=
  position.index + 1

theorem place_eq (position : SiblingPosition) : position.place = position.index + 1 := rfl

/-- Whether it is the last place. -/
def isLast (position : SiblingPosition) : Bool :=
  position.place == position.count

end SiblingPosition

/-! ### Children -/

/-- The children of a node that have not been taken. -/
structure Siblings where
  /-- The place of the next child. -/
  nextIndex : Nat
  /-- The number of children, those already taken included. -/
  count : Nat
  /-- The children not yet taken, in order. -/
  unvisited : List Handle
  deriving DecidableEq

namespace Siblings

/-- Children of which none has been taken.  They are counted exactly, however many there are. -/
def ofList (handles : List Handle) : Siblings :=
  ⟨0, handles.length, handles⟩

/-- Takes the next child. -/
def next? (siblings : Siblings) : Option ((Handle × SiblingPosition) × Siblings) :=
  match siblings.unvisited with
  | [] => none
  | handle :: rest =>
      some ((handle, ⟨siblings.nextIndex, siblings.count⟩),
        { siblings with nextIndex := siblings.nextIndex + 1, unvisited := rest })

/-- The children not yet taken, with their places. -/
def remaining (siblings : Siblings) : List (Handle × SiblingPosition) :=
  siblings.unvisited.zipIdx siblings.nextIndex |>.map fun (handle, index) =>
    (handle, ⟨index, siblings.count⟩)

@[simp] theorem length_remaining (siblings : Siblings) :
    siblings.remaining.length = siblings.unvisited.length := by
  simp [remaining]

theorem remaining_nil {siblings : Siblings} (h : siblings.next? = none) :
    siblings.remaining = [] := by
  unfold next? at h
  split at h
  · next hu => simp [remaining, hu]
  · simp at h

theorem remaining_cons {siblings rest : Siblings} {next : Handle × SiblingPosition}
    (h : siblings.next? = some (next, rest)) :
    siblings.remaining = next :: rest.remaining := by
  unfold next? at h
  split at h
  · simp at h
  · next hu =>
      cases h
      simp [remaining, hu]

/-- Sorts out the handles to keep, giving the others back as soon as they are refused. -/
def keepFrom {m : Type → Type} [Monad m] (release : Handle → m Unit) (keep : Handle → m Bool) :
    List Handle → m (List Handle)
  | [] => pure []
  | handle :: rest => do
      if ← keep handle then
        let kept ← keepFrom release keep rest
        return handle :: kept
      else
        release handle
        keepFrom release keep rest

/-- Keeps some of the children not yet taken and renumbers them. -/
def retain {m : Type → Type} [Monad m] (release : Handle → m Unit) (keep : Handle → m Bool)
    (siblings : Siblings) : m Siblings := do
  let kept ← keepFrom release keep siblings.unvisited
  return { siblings with count := siblings.nextIndex + kept.length, unvisited := kept }

/-- Gives the children back that were not taken. -/
def drop {tree : Tree} (siblings : Siblings) : SessionM tree Unit :=
  Session.releaseAll siblings.unvisited

end Siblings

/-! ### Calls -/

namespace Session

variable {tree : Tree}

/-- Acquires the children of a node. -/
def children (handle : Handle) : SessionM tree (Except BridgeError Siblings) := do
  return (← acquireChildren handle).map Siblings.ofList

/-- Asks for the place of a node among its siblings. -/
def siblingPosition (handle : Handle) : SessionM tree (Except BridgeError SiblingPosition) := do
  return (← onBridge (Bridge.siblingIndex handle)).map fun place => ⟨place.1, place.2⟩

end Session

end AccessQuery
