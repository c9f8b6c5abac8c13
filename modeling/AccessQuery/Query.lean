/-
**Queries.**

A query is a non-empty path of steps.  Each step says how its nodes are related to those selected
by the step before it, which role they have, and which predicate they satisfy.  A query mentions no
tree and may be resolved any number of times.

Main definitions:

* `AccessQuery.Axis`, `AccessQuery.RoleTest`, `AccessQuery.Step` — the parts of a path;
* `AccessQuery.Step.effectiveRoleTest` — the role test that a step applies;
* `AccessQuery.Query` — the paths, `AccessQuery.Query.ofSteps?` from a list of steps.

Main results:

* `AccessQuery.Query.ofSteps?_steps` — every query is the query of its steps.
-/

import AccessQuery.Predicate

set_option relaxedAutoImplicit false
set_option autoImplicit false

namespace AccessQuery

/-! ### Steps -/

/-- How the nodes of a step are related to those of the step before it. -/
inductive Axis
  /-- The same nodes. -/
  | self
  /-- Their children. -/
  | child
  /-- The nodes below them. -/
  | descendant
  /-- The nodes below them, of any role. -/
  | any
  deriving DecidableEq, Repr

/-- The role that the nodes of a step have. -/
inductive RoleTest
  /-- One role, by its `en_US` name. -/
  | role (name : String)
  /-- Any role. -/
  | wildcard
  deriving DecidableEq, Repr

/-- Whether a node whose role is known, or not, passes. -/
def RoleTest.accepts (test : RoleTest) (role : Option String) : Bool :=
  match test with
  | .wildcard => true
  | .role name => role == some name

/-- One step of a path. -/
structure Step where
  /-- The relation to the nodes of the step before. -/
  axis : Axis
  /-- The role asked for. -/
  roleTest : RoleTest
  /-- The filter, if there is one. -/
  predicate : Option Predicate
  deriving DecidableEq

/-- The role test that a step applies: none on the axis that admits any role. -/
def Step.effectiveRoleTest (step : Step) : RoleTest :=
  match step.axis with
  | .any => .wildcard
  | _ => step.roleTest

/-! ### Paths -/

/-- A path of at least one step. -/
structure Query where
  /-- The steps, in the order of the path. -/
  steps : List Step
  /-- There is at least one step. -/
  steps_ne_nil : steps ≠ []
  deriving DecidableEq

namespace Query

/-- The path of the given steps, unless there are none. -/
def ofSteps? (steps : List Step) : Option Query :=
  if h : steps ≠ [] then some ⟨steps, h⟩ else none

/-- The path of a single step. -/
def single (step : Step) : Query :=
  ⟨[step], by simp⟩

@[simp] theorem ofSteps?_steps (query : Query) : ofSteps? query.steps = some query := by
  simp [ofSteps?, query.steps_ne_nil]

end Query

end AccessQuery
