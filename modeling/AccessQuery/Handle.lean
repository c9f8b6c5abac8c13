/-
**Handles to the nodes of a live tree.**

A handle is the only way to name a node of a remote tree.  It carries the session it belongs to,
the native reference under which the bridge knows the node, and the interfaces the node supports.
Two references may denote the same node, so equality of handles says nothing about identity.  An
owned handle has to be given back exactly once; a borrowed view never is.

Main definitions:

* `AccessQuery.SessionId`, `AccessQuery.NativeRef` — the two identifiers;
* `AccessQuery.Capability`, `AccessQuery.Capabilities` — the interfaces of a node, and sets of
  them;
* `AccessQuery.Handle` — the handle, and `AccessQuery.Handle.view` its borrowed view.

Main results:

* `AccessQuery.Capabilities.contains_add`, `AccessQuery.Capabilities.ext_contains` — sets of
  capabilities are determined by their members, and adding adds one member;
* `AccessQuery.Handle.isBorrowed_view` — a view is borrowed.
-/

import AccessQuery.Text.Decimal

set_option relaxedAutoImplicit false
set_option autoImplicit false

namespace AccessQuery

/-! ### Identifiers -/

/-- The identifier of one bridge session. -/
structure SessionId where
  /-- The identifier of the virtual machine that the session is connected to. -/
  vm : Int32
  deriving DecidableEq

/-- The name of a session in messages. -/
def SessionId.label (session : SessionId) : String :=
  "vm#" ++ String.ofList (Text.integer session.vm.toInt)

/-- A native object reference. -/
structure NativeRef where
  /-- The value of the reference. -/
  address : Nat
  deriving DecidableEq

namespace NativeRef

/-- A reference in hexadecimal. -/
def label (ref : NativeRef) : String :=
  "0x" ++ String.ofList (Nat.toDigits 16 ref.address)

instance : Ord NativeRef := ⟨fun a b => compare a.address b.address⟩

instance : Std.TransOrd NativeRef where
  eq_swap {a b} :=
    (Std.OrientedOrd.eq_swap : compare a.address b.address = (compare b.address a.address).swap)
  isLE_trans {a b c} h₁ h₂ := by
    change (compare a.address c.address).isLE
    exact Std.TransCmp.isLE_trans h₁ h₂

instance : Std.LawfulEqOrd NativeRef where
  compare_self {a} := (Std.ReflOrd.compare_self : compare a.address a.address = .eq)
  eq_of_compare {a b} h := by
    have hv : a.address = b.address := Std.LawfulEqOrd.eq_of_compare h
    cases a
    cases b
    simp_all

end NativeRef

/-! ### Capabilities -/

/-- An interface that a node may support besides the accessible context that every node has. -/
inductive Capability
  | component | action | selection | text | hypertext | table | value
  deriving DecidableEq, Repr

namespace Capability

/-- Every capability, in the order of their places in a set. -/
def all : List Capability :=
  [.component, .action, .selection, .text, .hypertext, .table, .value]

/-- The place of a capability in a set of capabilities. -/
def place : Capability → Fin 7
  | .component => 0
  | .action => 1
  | .selection => 2
  | .text => 3
  | .hypertext => 4
  | .table => 5
  | .value => 6

/-- The name of a capability in documents. -/
def name : Capability → String
  | .component => "component"
  | .action => "action"
  | .selection => "selection"
  | .text => "text"
  | .hypertext => "hypertext"
  | .table => "table"
  | .value => "value"

/-- The capability with a given name. -/
def ofName? (s : String) : Option Capability :=
  all.find? fun capability => capability.name == s

theorem mem_all (capability : Capability) : capability ∈ all := by
  cases capability <;> decide

theorem place_injective {a b : Capability} (h : a.place = b.place) : a = b := by
  cases a <;> cases b <;> first | rfl | exact absurd h (by decide)

theorem exists_place (i : Fin 7) : ∃ capability : Capability, capability.place = i := by
  match i with
  | 0 => exact ⟨.component, rfl⟩
  | 1 => exact ⟨.action, rfl⟩
  | 2 => exact ⟨.selection, rfl⟩
  | 3 => exact ⟨.text, rfl⟩
  | 4 => exact ⟨.hypertext, rfl⟩
  | 5 => exact ⟨.table, rfl⟩
  | 6 => exact ⟨.value, rfl⟩

@[simp] theorem ofName?_name (capability : Capability) :
    ofName? capability.name = some capability := by
  cases capability <;> decide

end Capability

/-- A set of capabilities. -/
structure Capabilities where
  /-- One bit for each capability, at its place. -/
  bits : BitVec 7
  deriving DecidableEq

namespace Capabilities

/-- The set without capabilities. -/
def empty : Capabilities := ⟨0⟩

/-- The set with one more capability. -/
def add (set : Capabilities) (capability : Capability) : Capabilities :=
  ⟨set.bits ||| BitVec.twoPow 7 capability.place⟩

/-- Whether a capability is in the set. -/
def contains (set : Capabilities) (capability : Capability) : Bool :=
  set.bits.getLsbD capability.place

/-- The set of the capabilities in a list. -/
def ofList (capabilities : List Capability) : Capabilities :=
  capabilities.foldl add empty

/-- The members of a set, in the order of their places. -/
def toList (set : Capabilities) : List Capability :=
  Capability.all.filter set.contains

/-- Whether the set has no members. -/
def isEmpty (set : Capabilities) : Bool :=
  set.bits == 0

@[simp] theorem contains_empty (capability : Capability) : empty.contains capability = false := by
  simp [contains, empty]

theorem contains_add (set : Capabilities) (a b : Capability) :
    (set.add a).contains b = (set.contains b || decide (b = a)) := by
  have h : (b.place : Nat) = a.place ↔ b = a :=
    ⟨fun h => Capability.place_injective (Fin.ext h), fun h => by rw [h]⟩
  simp [contains, add, ← h]

theorem ext_contains {s t : Capabilities} (h : ∀ c, s.contains c = t.contains c) : s = t := by
  cases s with
  | mk s =>
      cases t with
      | mk t =>
          congr
          refine BitVec.eq_of_getLsbD_eq fun i hi => ?_
          obtain ⟨c, hc⟩ := Capability.exists_place ⟨i, hi⟩
          simpa [contains, hc] using h c

end Capabilities

/-! ### Handles -/

/-- Who gives a handle back. -/
inductive Ownership
  /-- The holder gives it back, exactly once. -/
  | owned
  /-- Someone else holds it; giving the view back does nothing. -/
  | borrowed
  deriving DecidableEq, Repr

/-- A reference to one node of a live tree. -/
structure Handle where
  /-- The session that the reference belongs to. -/
  session : SessionId
  /-- The reference under which the bridge knows the node. -/
  ref : NativeRef
  /-- The interfaces that the node supports. -/
  capabilities : Capabilities
  /-- Who gives the handle back. -/
  ownership : Ownership
  deriving DecidableEq

namespace Handle

/-- A handle to be given back by its holder. -/
def owned (session : SessionId) (ref : NativeRef) (capabilities : Capabilities) : Handle :=
  ⟨session, ref, capabilities, .owned⟩

/-- A view of a handle that someone else gives back. -/
def view (handle : Handle) : Handle :=
  { handle with ownership := .borrowed }

/-- Whether the handle is a borrowed view. -/
def isBorrowed (handle : Handle) : Bool :=
  handle.ownership == .borrowed

/-- Whether the node supports an interface. -/
def supports (handle : Handle) (capability : Capability) : Bool :=
  handle.capabilities.contains capability

/-- The description of a handle in messages. -/
def label (handle : Handle) : String :=
  "NodeHandle(" ++ handle.session.label ++ ", " ++ handle.ref.label ++
    (if handle.isBorrowed then ", borrowed)" else ")")

@[simp] theorem isBorrowed_view (handle : Handle) : handle.view.isBorrowed = true := rfl

end Handle

end AccessQuery
