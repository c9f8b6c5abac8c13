/-
**What a resolution comes to, node by node.**

Which nodes a resolution selects depends on the tree, on the calls that fail and on the options,
and on nothing else: not on references, ledgers or what was read before.  This module says what it
selects in terms of nodes alone, following the walk step by step.  That the walk over handles comes
to the same is the subject of the modules under `AccessQuery.Proofs.Walk`.

Main definitions:

* `AccessQuery.Outlook` — the options of a resolution and the faults it meets;
* `AccessQuery.Outlook.judge`, `AccessQuery.Outlook.offspring` — what is learnt of one node;
* `AccessQuery.Outlook.walkBelow`, `AccessQuery.Outlook.separate` — the walk below a context, and
  the contexts of a step;
* `AccessQuery.Outlook.step` — the nodes that a step selects from a frontier;
* `AccessQuery.Outlook.resolve` — the nodes that a query selects, or why it selects none.
-/

import AccessQuery.Resolution

set_option relaxedAutoImplicit false
set_option autoImplicit false

namespace AccessQuery

variable {tree : Tree}

/-- The options of a resolution, and the faults of the nodes: why a call on one fails, if it
does. -/
structure Outlook (tree : Tree) where
  options : ResolveOptions
  fault? : BridgeOp → tree.NodeId → Option BridgeError

/-- Why a call on a node fails within a session.  Where the session is not that of the bridge, every
call does. -/
def Session.fault? (session : Session tree) (op : BridgeOp) (node : tree.NodeId) :
    Option BridgeError :=
  if session.id ≠ session.bridge.session then some ⟨op, foreignSession⟩
  else (session.bridge.failures op node.val).map fun code => ⟨op, code⟩

/-- The outlook of a resolution within a session. -/
def Session.outlook (session : Session tree) (options : ResolveOptions) : Outlook tree :=
  ⟨options, session.fault?⟩

@[simp] theorem Session.outlook_options (session : Session tree) (options : ResolveOptions) :
    (session.outlook options).options = options :=
  rfl

@[simp] theorem Session.outlook_fault? (session : Session tree) (options : ResolveOptions) :
    (session.outlook options).fault? = session.fault? :=
  rfl

/-- What is selected where only so many nodes are asked for. -/
def Demand.cut {α : Type} (demand : Demand) (nodes : List α) : List α :=
  match demand with
  | .all => nodes
  | .first => nodes.take 1

/-- Nodes with their places among one another. -/
def placed (nodes : List tree.NodeId) : List (tree.NodeId × SiblingPosition) :=
  nodes.zipIdx.map fun (node, index) => (node, ⟨index, nodes.length⟩)

namespace Outlook

variable (o : Outlook tree)

/-! ### One node -/

/-- Whether a node can be read and is showing. -/
def isShown (node : tree.NodeId) : Bool :=
  (o.fault? .attributes node).isNone && (tree.attributes node).isShowing

/-- The children of a node that a resolution takes notice of. -/
def offspring (node : tree.NodeId) : List tree.NodeId :=
  if o.options.visibleOnly then (tree.children node).filter o.isShown else tree.children node

/-- The attributes of a candidate, or none where none are needed. -/
def reading (step : Step) (node : tree.NodeId) : Except BridgeError Snapshot :=
  if Walk.needsAttributes o.options step then
    match o.fault? .attributes node with
    | some e => .error e
    | none => .ok (tree.attributes node)
  else .ok ∅

/-- The place of a candidate: the known one, or its place in the tree, where one is needed. -/
def position (predicate : Predicate) (node : tree.NodeId) (known : Option SiblingPosition) :
    Except BridgeError SiblingPosition :=
  match known with
  | some position => .ok position
  | none =>
      if predicate.usesPosition then
        match o.fault? .siblingIndex node with
        | some e => .error e
        | none => .ok ⟨(tree.place node).1, (tree.place node).2⟩
      else .ok .alone

/-- What a step says of a candidate. -/
def judge (step : Step) (node : tree.NodeId) (known : Option SiblingPosition) :
    Except BridgeError Verdict :=
  match o.reading step node with
  | .error e => .error e
  | .ok snapshot =>
      if o.options.visibleOnly && !snapshot.isShowing then .ok .hidden
      else if !step.effectiveRoleTest.accepts snapshot.role? then .ok .rejected
      else match step.predicate with
        | none => .ok .accepted
        | some predicate =>
            match o.position predicate node known with
            | .error e => .error e
            | .ok position =>
                .ok (if predicate.holds snapshot position.place position.count
                  then .accepted else .rejected)

/-- What a step says of a candidate at a known place; one that cannot be judged is hidden. -/
def verdict (step : Step) (candidate : tree.NodeId × SiblingPosition) : Verdict :=
  match o.judge step candidate.1 (some candidate.2) with
  | .ok verdict => verdict
  | .error _ => .hidden

/-- Whether two nodes are found to be one. -/
def same (a b : tree.NodeId) : Bool :=
  (o.fault? .sameObject a).isNone && (o.fault? .sameObject b).isNone && a == b

/-- Whether a node is found among others. -/
def isAmong (node : tree.NodeId) (others : List tree.NodeId) : Bool :=
  others.any (o.same node)

/-! ### The nodes below a context -/

/-- A candidate itself, if it is selected and not found among those selected earlier. -/
def chosen (step : Step) (earlier : List tree.NodeId)
    (candidate : tree.NodeId × SiblingPosition) : List tree.NodeId :=
  if o.verdict step candidate = .accepted ∧ !o.isAmong candidate.1 earlier then [candidate.1]
  else []

/-- The children of a candidate that the walk goes on to. -/
def opened (step : Step) (deeper : Bool) (candidate : tree.NodeId × SiblingPosition) :
    List tree.NodeId :=
  if deeper && o.verdict step candidate != .hidden && (o.fault? .children candidate.1).isNone
  then o.offspring candidate.1 else []

/-- The nodes selected among siblings, each followed by those selected below it. -/
def walkEach (step : Step) (earlier : List tree.NodeId) (deeper : Bool)
    (below : List tree.NodeId → List tree.NodeId)
    (candidates : List (tree.NodeId × SiblingPosition)) : List tree.NodeId :=
  candidates.flatMap fun candidate =>
    o.chosen step earlier candidate ++ below (o.opened step deeper candidate)

/-- The nodes selected among siblings at a depth below the context, and below them. -/
def walkBelow (step : Step) (earlier : List tree.NodeId) :
    Nat → Nat → List tree.NodeId → List tree.NodeId
  | 0, _, _ => []
  | fuel + 1, depth, siblings =>
      o.walkEach step earlier (o.options.allowsBelow depth)
        (walkBelow step earlier fuel (depth + 1)) (placed siblings)

theorem walkBelow_nil {o : Outlook tree} {step : Step} {earlier : List tree.NodeId}
    {fuel depth : Nat} : o.walkBelow step earlier fuel depth [] = [] := by
  cases fuel <;> rfl

/-! ### Contexts -/

/-- The parent of a node, if it has one that can be asked for. -/
def above? (node : tree.NodeId) : Option tree.NodeId :=
  match o.fault? .parent node with
  | some _ => none
  | none => tree.parent? node

/-- Whether one of the targets is found on the way from a node up to the root. -/
def climb (targets : List tree.NodeId) : Nat → Option tree.NodeId → Bool
  | _, none => false
  | 0, some _ => false
  | fuel + 1, some node => o.isAmong node targets || climb targets fuel (o.above? node)

/-- Whether a node is found to lie below one of the outer contexts. -/
def isBelow (node : tree.NodeId) (contexts : List (tree.NodeId × Bool)) : Bool :=
  o.climb ((contexts.filter fun c => !c.2).map Prod.fst) tree.size (o.above? node)

/-- Adds the nodes of a frontier to the contexts before them, each with whether it is nested. -/
def separate : List (tree.NodeId × Bool) → List tree.NodeId → List (tree.NodeId × Bool)
  | contexts, [] => contexts
  | contexts, node :: rest =>
      if contexts.isEmpty || !o.isBelow node contexts then
        separate (contexts ++ [(node, false)]) rest
      else if o.options.maxDepth.isSome then separate (contexts ++ [(node, true)]) rest
      else separate contexts rest

/-- The contexts of a step. -/
def contextsFor (step : Step) (frontier : List tree.NodeId) : List (tree.NodeId × Bool) :=
  if (step.axis = .descendant ∨ step.axis = .any) ∧ 1 < frontier.length then
    o.separate [] frontier
  else frontier.map fun node => (node, false)

/-- Why a step cannot be taken from a context, if it cannot. -/
def obstacle? (step : Step) (node : tree.NodeId) : Option BridgeError :=
  match step.axis with
  | .self =>
      match o.judge step node none with
      | .error e => some e
      | .ok _ => none
  | _ => o.fault? .children node

/-- The nodes that a step selects from one context, where some have been selected before. -/
def expand (step : Step) (context : tree.NodeId × Bool) (selected : List tree.NodeId) :
    List tree.NodeId :=
  if (o.obstacle? step context.1).isSome then []
  else match step.axis with
    | .self => if o.judge step context.1 none matches .ok .accepted then [context.1] else []
    | .child => o.walkEach step [] false (fun _ => []) (placed (o.offspring context.1))
    | .descendant | .any =>
        o.walkBelow step (if context.2 then selected else []) tree.size 1 (o.offspring context.1)

/-- The nodes that a step selects from contexts, after those selected before. -/
def expandAll (step : Step) : List (tree.NodeId × Bool) → List tree.NodeId → List tree.NodeId
  | [], selected => selected
  | context :: rest, selected =>
      expandAll step rest (selected ++ o.expand step context selected)

/-- The nodes that a step selects from a frontier. -/
def step (step : Step) (frontier : List tree.NodeId) : List tree.NodeId :=
  o.expandAll step (o.contextsFor step frontier) []

theorem step_nil {step : Step} : o.step step [] = [] := by
  simp [Outlook.step, contextsFor, expandAll]

/-- The nodes that steps select from a frontier, one after another.  As long as the frontier is the
root itself, it must be readable. -/
def resolve : List Step → Bool → List tree.NodeId → Except BridgeError (List tree.NodeId)
  | [], _, frontier => .ok frontier
  | step :: rest, atRoot, frontier =>
      match if atRoot then frontier.findSome? (o.obstacle? step) else none with
      | some e => .error e
      | none => resolve rest (atRoot && step.axis = .self) (o.step step frontier)

theorem resolve_nil (steps : List Step) (atRoot : Bool) : o.resolve steps atRoot [] = .ok [] := by
  induction steps generalizing atRoot with
  | nil => rfl
  | cons step rest ih => cases atRoot <;> simpa [resolve, step_nil] using ih _

end Outlook

end AccessQuery
