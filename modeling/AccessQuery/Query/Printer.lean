/-
**The canonical text of a query.**

Every conjunct of a predicate is printed between brackets of its own, so that an `or` below an
`and` keeps its grouping although the grammar has no parentheses.

Main definitions:

* `AccessQuery.RoleTest.display`, `AccessQuery.Step.display`, `AccessQuery.Query.display` — the
  canonical texts;
* `AccessQuery.Predicate.brackets` — the groups of a predicate.
-/

import AccessQuery.Query
import AccessQuery.Predicate.Printer

set_option relaxedAutoImplicit false
set_option autoImplicit false

namespace AccessQuery

/-- The canonical text of a role test. -/
def RoleTest.display : RoleTest → String
  | .role name => name
  | .wildcard => "*"

/-- The groups of a predicate, one for each conjunct. -/
def Predicate.brackets (p : Predicate) : String :=
  String.join (p.conjuncts.map fun c => "[" ++ c.display ++ "]")

/-- The canonical text of the axis and the role test of a step. -/
def Step.path (step : Step) : String :=
  match step.axis with
  | .self => "/."
  | .any => "//*"
  | .child => "/" ++ step.roleTest.display
  | .descendant => "//" ++ step.roleTest.display

/-- The canonical text of a step. -/
def Step.display (step : Step) : String :=
  match step.predicate with
  | none => step.path
  | some p => step.path ++ p.brackets

/-- The canonical text of a query. -/
def Query.display (query : Query) : String :=
  String.join (query.steps.map Step.display)

end AccessQuery
