/-
**Finding elements.**

An element is found by compiling its locator to a query and resolving that query.

Main definitions:

* `AccessQuery.LookupError` — why nothing was looked up;
* `AccessQuery.Session.findElements`, `AccessQuery.Session.findElement` — every element that a
  locator names, or the first.
-/

import AccessQuery.Locator
import AccessQuery.Resolution

set_option relaxedAutoImplicit false
set_option autoImplicit false

namespace AccessQuery

/-- Why nothing was looked up. -/
inductive LookupError
  /-- The locator has no query. -/
  | query (error : QueryError)
  /-- The query could not be resolved. -/
  | resolution (error : ResolveError)
  deriving DecidableEq

/-- The message of an error. -/
def LookupError.message : LookupError → String
  | .query error => "Query is invalid: " ++ error.message
  | .resolution error => "Resolution failed: " ++ error.message

namespace Session

variable {tree : Tree}

/-- Every element below a root that a locator names. -/
def findElements (options : ResolveOptions) (locator : Locator) (root : Handle) :
    SessionM tree (Except LookupError (List Handle)) :=
  match locator.query with
  | .error e => pure (.error (.query e))
  | .ok query => do
      return (← resolve options query root).mapError .resolution

/-- The first element below a root that a locator names. -/
def findElement (options : ResolveOptions) (locator : Locator) (root : Handle) :
    SessionM tree (Except LookupError (Option Handle)) :=
  match locator.query with
  | .error e => pure (.error (.query e))
  | .ok query => do
      return (← findFirst options query root).mapError .resolution

end Session

end AccessQuery
