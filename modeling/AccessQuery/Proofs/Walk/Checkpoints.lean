/-
**Where a resolution looks at its cancel flag.**

A resolution looks at the flag before it judges a candidate and before it filters a context, and
nowhere else.  The states in which it does so follow its own course: each definition here is beside
the one of the walk of the same shape, and lists what that one comes to on its way.

Main definitions:

* `AccessQuery.Walk.Checkpoints` — the states in which a computation looks at the flag, in order;
* `AccessQuery.Walk.checkpointsEach`, `AccessQuery.Walk.checkpointsBelow` — those of a visit;
* `AccessQuery.Walk.checkpointsOf`, `AccessQuery.Walk.checkpointsAll` — those of one context and of
  all of them;
* `AccessQuery.Session.checkpoints` — those of a resolution.
-/

import AccessQuery.Resolution

set_option relaxedAutoImplicit false
set_option autoImplicit false

namespace AccessQuery

variable {tree : Tree}

namespace Walk

/-- The states in which a computation that starts in a state looks at the cancel flag, in order. -/
abbrev Checkpoints (tree : Tree) := Walk tree → List (Walk tree)

namespace Checkpoints

variable {α : Type}

/-- The flag is not looked at. -/
def never : Checkpoints tree :=
  fun _ => []

/-- The flag is looked at, and nothing else. -/
def here : Checkpoints tree :=
  fun walk => [walk]

/-- A computation is followed by another. -/
def bind (points : Checkpoints tree) (m : WalkM tree α) (next : α → Checkpoints tree) :
    Checkpoints tree :=
  fun walk => points walk ++ next (m walk).1 (m walk).2

/-- A computation that does not look at the flag is followed by another. -/
def after (m : WalkM tree α) (next : α → Checkpoints tree) : Checkpoints tree :=
  fun walk => next (m walk).1 (m walk).2

end Checkpoints

open Checkpoints

/-! ### Visits -/

/-- Before each candidate is judged, and on the way below it. -/
def checkpointsEach (options : ResolveOptions) (step : Step) (demand : Demand)
    (earlier : List Handle) (deeper : Bool) (visitChildren : Siblings → WalkM tree Visit)
    (pointsChildren : Siblings → Checkpoints tree) :
    List (Handle × SiblingPosition) → Checkpoints tree
  | [] => never
  | (node, position) :: rest =>
      here.bind (checkpoint options) fun found =>
        match found with
        | some _ => never
        | none =>
            after (settle options step earlier deeper node position) fun (kept, below) =>
              if demand.isMetBy kept then never
              else
                (below.elim never pointsChildren).bind (below.elim (pure .nothing) visitChildren)
                  fun inner =>
                    match inner.stop with
                    | some _ => never
                    | none =>
                        checkpointsEach options step demand earlier deeper visitChildren
                          pointsChildren rest

/-- On a visit of siblings at a depth and of what lies below them. -/
def checkpointsBelow (options : ResolveOptions) (step : Step) (demand : Demand)
    (earlier : List Handle) : Nat → Nat → Siblings → Checkpoints tree
  | 0, _, _ => never
  | fuel + 1, depth, siblings =>
      checkpointsEach options step demand earlier (options.allowsBelow depth)
        (visitBelow options step demand earlier fuel (depth + 1))
        (checkpointsBelow options step demand earlier fuel (depth + 1)) siblings.remaining

/-! ### Contexts -/

/-- On the way through one context. -/
def checkpointsOf (options : ResolveOptions) (step : Step) (demand : Demand) (context : Context)
    (selected : List Handle) : Checkpoints tree :=
  match step.axis with
  | .self => here
  | .child =>
      after (enumerate options context.handle) fun found =>
        match found with
        | .error _ => never
        | .ok siblings =>
            checkpointsEach options step demand [] false (fun _ => pure .nothing) (fun _ => never)
              siblings.remaining
  | .descendant | .any =>
      after (enumerate options context.handle) fun found =>
        match found with
        | .error _ => never
        | .ok siblings =>
            checkpointsBelow options step demand (if context.nested then selected else [])
              tree.size 1 siblings

/-- On the way through contexts in order. -/
def checkpointsAll (options : ResolveOptions) (step : Step) (demand : Demand) :
    List Context → List Handle → Checkpoints tree
  | [], _ => never
  | context :: rest, selected =>
      if demand.isMetBy selected then
        after (release context.handle) fun _ =>
          checkpointsAll options step demand rest selected
      else
        (checkpointsOf options step demand context selected).bind
          (expand options step demand context selected) fun found =>
            match found.failure with
            | some _ => never
            | none => checkpointsAll options step demand rest (selected ++ found.selected)

/-! ### Steps -/

/-- On the way of one step. -/
def checkpointsStep (options : ResolveOptions) (step : Step) (demand : Demand)
    (frontier : List Handle) : Checkpoints tree :=
  after (contextsFor options step frontier) fun contexts =>
    checkpointsAll options step demand contexts []

/-- On the way of one step after another. -/
def checkpointsSteps (options : ResolveOptions) (demand : Demand) :
    List Step → List Handle → Checkpoints tree
  | [], _ => never
  | step :: rest, frontier =>
      let demand' := if rest.isEmpty then demand else .all
      (checkpointsStep options step demand' frontier).bind
        (applyStep options step demand' frontier) fun found =>
          if found.failure.isSome || found.selected.isEmpty then never
          else checkpointsSteps options demand rest found.selected

end Walk

/-- The states in which a resolution looks at the cancel flag, in order. -/
def Session.checkpoints (options : ResolveOptions) (demand : Demand) (query : Query)
    (root : Handle) (session : Session tree) : List (Walk tree) :=
  if root.session ≠ session.id then []
  else Walk.checkpointsSteps options demand query.steps [root.view] ⟨session, [], ∅⟩

end AccessQuery
