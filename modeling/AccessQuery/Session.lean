/-
**Sessions and the handles they owe.**

A session pairs a bridge with a ledger.  Every handle that is acquired through the session is
entered as outstanding until it is released, so a handle is given back to the bridge at most once:
releasing a handle that is not outstanding, or belongs to another session, is refused and never
reaches the bridge.  Borrowed views are ignored.

Main definitions:

* `AccessQuery.Ledger` — the outstanding references and three counters;
* `AccessQuery.Session` — a bridge with its ledger, `AccessQuery.SessionM` what uses one;
* `AccessQuery.Session.adopt`, `AccessQuery.Session.release` — entering and giving back;
* `AccessQuery.Session.acquireChildren`, `AccessQuery.Session.parent` and the other calls of the
  bridge, made through the session.

Main results:

* `AccessQuery.Ledger.mem_enter`, `AccessQuery.Ledger.mem_strike` — what is outstanding after an
  entry, and after it has been struck out;
* `AccessQuery.Session.afterRelease_borrowed` — releasing a view does nothing;
* `AccessQuery.Session.afterRelease_refused` — a refused release is only counted.
-/

import Std.Data.ExtTreeSet
import AccessQuery.Bridge

set_option relaxedAutoImplicit false
set_option autoImplicit false

namespace AccessQuery

/-! ### Ledgers -/

/-- The references that a session has acquired and not released, with counters. -/
structure Ledger where
  /-- The references acquired and not yet released. -/
  outstanding : Std.ExtTreeSet NativeRef
  /-- How many references have been entered. -/
  acquired : Nat
  /-- How many have been released. -/
  released : Nat
  /-- How many releases have been refused. -/
  rejected : Nat
  deriving DecidableEq

namespace Ledger

/-- A ledger without entries. -/
def empty : Ledger := ⟨∅, 0, 0, 0⟩

/-- Enters a reference, unless it is outstanding already. -/
def enter (ledger : Ledger) (ref : NativeRef) : Ledger :=
  if ref ∈ ledger.outstanding then ledger
  else { ledger with
    outstanding := ledger.outstanding.insert ref
    acquired := ledger.acquired + 1 }

/-- Strikes a reference out. -/
def strike (ledger : Ledger) (ref : NativeRef) : Ledger :=
  { ledger with
    outstanding := ledger.outstanding.erase ref
    released := ledger.released + 1 }

/-- Counts a refused release. -/
def refuse (ledger : Ledger) : Ledger :=
  { ledger with rejected := ledger.rejected + 1 }

theorem mem_enter {ledger : Ledger} {ref other : NativeRef} :
    other ∈ (ledger.enter ref).outstanding ↔ other = ref ∨ other ∈ ledger.outstanding := by
  unfold enter
  split
  · next h =>
      refine ⟨Or.inr, ?_⟩
      rintro (rfl | h')
      · exact h
      · exact h'
  · simp [Std.ExtTreeSet.mem_insert, eq_comm (a := other)]

theorem mem_strike {ledger : Ledger} {ref other : NativeRef} :
    other ∈ (ledger.strike ref).outstanding ↔ other ≠ ref ∧ other ∈ ledger.outstanding := by
  simp [strike, Std.ExtTreeSet.mem_erase, eq_comm (a := other)]

end Ledger

/-! ### Sessions -/

/-- A session with the bridge to a tree. -/
structure Session (tree : Tree) where
  /-- The identifier of the session. -/
  id : SessionId
  /-- The bridge. -/
  bridge : Bridge tree
  /-- The handles that the session owes. -/
  ledger : Ledger

/-- A computation within a session. -/
abbrev SessionM (tree : Tree) := StateM (Session tree)

namespace Session

variable {tree : Tree}

/-- A session that has not been used. -/
def new (id : SessionId) (bridge : Bridge tree) : Session tree :=
  ⟨id, bridge, Ledger.empty⟩

/-- Uses the bridge of a session. -/
def onBridge {α : Type} (use : BridgeM tree α) : SessionM tree α := fun session =>
  let (a, bridge) := use session.bridge
  (a, { session with bridge := bridge })

/-- Enters a handle in the ledger. -/
def track (handle : Handle) : SessionM tree Unit :=
  modify fun session => { session with ledger := session.ledger.enter handle.ref }

/-- Enters handles in the ledger. -/
def trackAll : List Handle → SessionM tree Unit
  | [] => pure ()
  | handle :: rest => do
      track handle
      trackAll rest

theorem bridge_trackAll (handles : List Handle) (session : Session tree) :
    (trackAll handles session).2.bridge = session.bridge := by
  induction handles generalizing session with
  | nil => rfl
  | cons handle rest ih => exact ih { session with ledger := session.ledger.enter handle.ref }

/-- Takes responsibility for a handle that was acquired elsewhere, if it is owned and belongs to
the session. -/
def adopt (handle : Handle) : SessionM tree Unit := do
  if handle.isBorrowed = false ∧ handle.session = (← get).id then track handle

/-! ### Releasing -/

/-- The session after a handle has been given back.  A failure of the bridge changes nothing: the
handle counts as released. -/
def afterRelease (session : Session tree) (handle : Handle) : Session tree :=
  if handle.isBorrowed then session
  else if handle.session ≠ session.id ∨ handle.ref ∉ session.ledger.outstanding then
    { session with ledger := session.ledger.refuse }
  else
    { session with
      bridge := (Bridge.release handle session.bridge).2
      ledger := session.ledger.strike handle.ref }

/-- Gives a handle back, once. -/
def release (handle : Handle) : SessionM tree Unit :=
  modify (·.afterRelease handle)

/-- Gives handles back, one after another. -/
def releaseAll : List Handle → SessionM tree Unit
  | [] => pure ()
  | handle :: rest => do
      release handle
      releaseAll rest

theorem afterRelease_borrowed {session : Session tree} {handle : Handle}
    (h : handle.isBorrowed = true) : session.afterRelease handle = session := by
  rw [afterRelease, if_pos h]

theorem afterRelease_refused {session : Session tree} {handle : Handle}
    (hb : handle.isBorrowed = false)
    (h : handle.session ≠ session.id ∨ handle.ref ∉ session.ledger.outstanding) :
    session.afterRelease handle = { session with ledger := session.ledger.refuse } := by
  rw [afterRelease, if_neg (by simp [hb]), if_pos h]

/-! ### Calls -/

/-- Handles to the children of a node, in sibling order. -/
def acquireChildren (handle : Handle) : SessionM tree (Except BridgeError (List Handle)) := do
  match ← onBridge (Bridge.children handle) with
  | .error e => return .error e
  | .ok handles =>
      trackAll handles
      return .ok handles

/-- A handle to the parent of a node, if it has one. -/
def parent (handle : Handle) : SessionM tree (Except BridgeError (Option Handle)) := do
  match ← onBridge (Bridge.parent handle) with
  | .error e => return .error e
  | .ok none => return .ok none
  | .ok (some found) =>
      track found
      return .ok (some found)

/-- The attributes of a node. -/
def attributes (handle : Handle) : SessionM tree (Except BridgeError Snapshot) :=
  onBridge (Bridge.attributes handle)

/-- Whether two handles denote one node. -/
def sameObject (a b : Handle) : SessionM tree (Except BridgeError Bool) :=
  onBridge (Bridge.sameObject a b)

/-- The attributes of some nodes, without those that cannot be read. -/
def snapshots : List Handle → SessionM tree (List Snapshot)
  | [] => pure []
  | handle :: rest => do
      let found ← attributes handle
      let others ← snapshots rest
      match found with
      | .ok snapshot => return snapshot :: others
      | .error _ => return others

end Session

end AccessQuery
