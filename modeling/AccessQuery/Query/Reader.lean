/-
**Reading queries.**

A path is split into steps first, all of them; then the predicates of the steps are read in order.
A step may have several groups of predicates, which are joined by `and`, and blank groups say
nothing.

Main definitions:

* `AccessQuery.Step.ofRaw` — a step from its parts;
* `AccessQuery.Query.parse` — the query of a text.
-/

import AccessQuery.Predicate.Reader
import AccessQuery.Query.Segment

set_option relaxedAutoImplicit false
set_option autoImplicit false

namespace AccessQuery

/-- The role test that the role of a step in a path stands for. -/
def RoleTest.ofText (role : String) : RoleTest :=
  if role = "*" ∨ role = "." then .wildcard else .role role

/-- Joins the predicates of further groups to the predicate of the groups before them. -/
def Predicate.joinGroups (before : Option Predicate) :
    List String → Except QueryError (Option Predicate)
  | [] => .ok before
  | group :: groups => do
      let next ← Predicate.read? group
      joinGroups (Predicate.both? before next) groups

/-- The axis of a step whose predicate is known: where a descendant step asks for nothing, any
node will do. -/
def Axis.refine (axis : Axis) (roleTest : RoleTest) (predicate : Option Predicate) : Axis :=
  if axis = .descendant ∧ roleTest = .wildcard ∧ predicate = none then .any else axis

/-- A step from its parts. -/
def Step.ofRaw (raw : RawStep) : Except QueryError Step := do
  let predicate ← Predicate.joinGroups none raw.predicates
  let roleTest := RoleTest.ofText raw.role
  return ⟨raw.axis.refine roleTest predicate, roleTest, predicate⟩

/-- The query of a text. -/
def Query.parse (text : String) : Except QueryError Query := do
  let raw ← segment text
  let steps ← raw.mapM Step.ofRaw
  match Query.ofSteps? steps with
  | some query => .ok query
  | none => .error .emptyQuery

end AccessQuery
