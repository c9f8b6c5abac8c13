/-
**Resolving a query.**

A resolution starts from a borrowed view of a root and takes the steps of the query one after
another.  Its result lists handles to the selected nodes as the last step came upon them: the nodes
selected from one context are in document order, but contexts may lie inside one another, and then
the whole list need not be.  The handles belong to the caller, except for the view of the root
itself, where that is selected.

Main definitions:

* `AccessQuery.Resolution` — the selected nodes, and the failed calls passed over;
* `AccessQuery.Session.resolveDetailed`, `AccessQuery.Session.resolve`,
  `AccessQuery.Session.findFirst` — all nodes, or the first.

Main results:

* `AccessQuery.Session.run_of_foreign` — a root of another session is refused at once.
-/

import AccessQuery.Resolution.Walk

set_option relaxedAutoImplicit false
set_option autoImplicit false

namespace AccessQuery

/-- The result of a resolution. -/
structure Resolution where
  /-- The selected nodes, context by context. -/
  selected : List Handle
  /-- The failed calls that were passed over, in order. -/
  diagnostics : List BridgeError

namespace Session

variable {tree : Tree}

/-- Resolves a query below a root. -/
def run (options : ResolveOptions) (demand : Demand) (query : Query) (root : Handle) :
    SessionM tree (Except ResolveError Resolution) := fun session =>
  if root.session ≠ session.id then (.error (.sessionMismatch session.id root.session), session)
  else
    let (found, walk) := Walk.applySteps options demand query.steps [root.view] ⟨session, [], ∅⟩
    match found.failure with
    | some error => (.error error, walk.session)
    | none => (.ok ⟨found.selected, walk.diagnostics⟩, walk.session)

theorem run_of_foreign {options : ResolveOptions} {demand : Demand} {query : Query}
    {root : Handle} {session : Session tree} (h : root.session ≠ session.id) :
    run options demand query root session =
      (.error (.sessionMismatch session.id root.session), session) := by
  rw [run, if_pos h]

/-- Every node that a query selects below a root, with the failed calls passed over. -/
def resolveDetailed (options : ResolveOptions) (query : Query) (root : Handle) :
    SessionM tree (Except ResolveError Resolution) :=
  run options .all query root

/-- Every node that a query selects below a root. -/
def resolve (options : ResolveOptions) (query : Query) (root : Handle) :
    SessionM tree (Except ResolveError (List Handle)) := do
  return (← run options .all query root).map Resolution.selected

/-- The first node that a query selects below a root. -/
def findFirst (options : ResolveOptions) (query : Query) (root : Handle) :
    SessionM tree (Except ResolveError (Option Handle)) := do
  return (← run options .first query root).map fun found => found.selected.head?

end Session

end AccessQuery
