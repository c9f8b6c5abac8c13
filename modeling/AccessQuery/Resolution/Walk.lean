/-
**Walking a tree for one step.**

A step turns a frontier of nodes into the nodes that it selects from them.  Every handle acquired
on the way is either selected or given back, on every path, the early ends included.  Calls that
fail are noted and cost only the node they were made on, with what lies below it; only the root,
which is the one borrowed handle in a frontier, must be readable.

Candidates are taken in document order.  The walk below a context is a recursion on the open
siblings, level by level; when it stops early it hands back the handles that are still open, so
that they can be given back in order.

Main definitions:

* `AccessQuery.Walk`, `AccessQuery.WalkM` — the state of a resolution, and what uses it;
* `AccessQuery.Walk.judge` — whether a candidate is selected, and looked below;
* `AccessQuery.Walk.visitEach`, `AccessQuery.Walk.visitBelow` — the candidates among siblings, and
  below them;
* `AccessQuery.Walk.separate` — contexts that do not repeat one another's work;
* `AccessQuery.Walk.applyStep` — one step.
-/

import AccessQuery.Predicate.Evaluation
import AccessQuery.Query
import AccessQuery.Resolution.Options
import AccessQuery.Siblings

set_option relaxedAutoImplicit false
set_option autoImplicit false

namespace AccessQuery

/-! ### The state of a resolution -/

/-- The state of a resolution. -/
structure Walk (tree : Tree) where
  /-- The session in which the tree is walked. -/
  session : Session tree
  /-- The failed calls that were passed over, in order. -/
  diagnostics : List BridgeError
  /-- The attributes read while hidden children were sorted out, until their node is judged. -/
  prefetched : Std.ExtTreeMap NativeRef Snapshot

/-- A computation within a resolution. -/
abbrev WalkM (tree : Tree) := StateM (Walk tree)

/-- Whether every selected node is asked for, or the first one only. -/
inductive Demand
  | all | first
  deriving DecidableEq, Repr

/-- Whether no further node is asked for. -/
def Demand.isMetBy (demand : Demand) (selected : List Handle) : Bool :=
  demand == .first && !selected.isEmpty

/-- What a step says of a candidate. -/
inductive Verdict
  /-- Neither the candidate nor what lies below it. -/
  | hidden
  /-- Not the candidate, but perhaps what lies below it. -/
  | rejected
  /-- The candidate. -/
  | accepted
  deriving DecidableEq, Repr

/-- Why a visit ends before its candidates do. -/
inductive Stop
  /-- No further node is asked for. -/
  | satisfied
  /-- The resolution is to stop. -/
  | interrupted (cause : Interrupt)
  deriving DecidableEq, Repr

/-- What a visit of candidates came to. -/
structure Visit where
  /-- The selected nodes. -/
  selected : List Handle
  /-- Why the visit ended early, if it did. -/
  stop : Option Stop
  /-- The handles that an early end left open, the outermost first. -/
  abandoned : List Handle

/-- The visit of no candidates. -/
def Visit.nothing : Visit := ⟨[], none, []⟩

/-- What the walk from one context, or from all of them, came to. -/
structure Expansion where
  /-- The selected nodes. -/
  selected : List Handle
  /-- Why the resolution fails, if it does. -/
  failure : Option ResolveError

/-- A node from which a step is taken. -/
structure Context where
  /-- The node. -/
  handle : Handle
  /-- Whether it lies below an earlier context of the same step. -/
  nested : Bool

namespace Walk

variable {tree : Tree}

/-! ### Calls -/

/-- Uses the session of a resolution. -/
def inSession {α : Type} (use : SessionM tree α) : WalkM tree α := fun walk =>
  let (a, session) := use walk.session
  (a, { walk with session := session })

/-- Gives a handle back. -/
def release (handle : Handle) : WalkM tree Unit :=
  inSession (Session.release handle)

/-- Gives handles back, one after another. -/
def releaseAll (handles : List Handle) : WalkM tree Unit :=
  inSession (Session.releaseAll handles)

theorem releaseAll_cons (handle : Handle) (handles : List Handle) :
    (releaseAll (handle :: handles) : WalkM tree Unit) =
      release handle >>= fun _ => releaseAll handles :=
  rfl

/-- Notes a failed call. -/
def diagnose (error : BridgeError) : WalkM tree Unit :=
  modify fun walk => { walk with diagnostics := walk.diagnostics ++ [error] }

/-- Whether to stop now. -/
def checkpoint (options : ResolveOptions) : WalkM tree (Option Interrupt) := do
  return options.interrupt? (← get).session.bridge.calls.size

/-- The parent of a node; a failed call is noted and finds none. -/
def parentOf (node : Handle) : WalkM tree (Option Handle) := do
  match ← inSession (Session.parent node) with
  | .ok parent => return parent
  | .error e =>
      diagnose e
      return none

/-- Whether two handles denote one node; a failed call is noted and finds two. -/
def same (a b : Handle) : WalkM tree Bool := do
  match ← inSession (Session.sameObject a b) with
  | .ok answer => return answer
  | .error e =>
      diagnose e
      return false

/-- Whether a handle denotes one of the nodes of others, which are asked about in order until one
is found. -/
def isAmong (node : Handle) : List Handle → WalkM tree Bool
  | [] => pure false
  | other :: rest => do
      if ← same node other then return true
      else isAmong node rest

/-- Whether a child is showing; the attributes of one that is are kept until it is judged. -/
def isShowing (child : Handle) : WalkM tree Bool := do
  match ← inSession (Session.attributes child) with
  | .error e =>
      diagnose e
      return false
  | .ok snapshot =>
      if snapshot.isShowing then
        modify fun walk =>
          { walk with prefetched := walk.prefetched.insert child.ref snapshot }
        return true
      else return false

/-- The children of a node, without the hidden ones where only visible nodes are asked for. -/
def enumerate (options : ResolveOptions) (node : Handle) :
    WalkM tree (Except BridgeError Siblings) := do
  match ← inSession (Session.children node) with
  | .error e => return .error e
  | .ok siblings =>
      if options.visibleOnly then
        let shown ← siblings.retain release isShowing
        return .ok shown
      else return .ok siblings

/-! ### Judging a candidate -/

/-- Whether the attributes of candidates are needed. -/
def needsAttributes (options : ResolveOptions) (step : Step) : Bool :=
  options.visibleOnly || step.effectiveRoleTest != .wildcard ||
    step.predicate.any Predicate.usesAttributes

/-- The attributes of a candidate: those kept from its enumeration, or read now, or none where none
are needed. -/
def attributesFor (options : ResolveOptions) (step : Step) (node : Handle) :
    WalkM tree (Except BridgeError Snapshot) := do
  let walk ← get
  match walk.prefetched[node.ref]? with
  | some snapshot =>
      set { walk with prefetched := walk.prefetched.erase node.ref }
      return .ok snapshot
  | none =>
      if needsAttributes options step then inSession (Session.attributes node)
      else return .ok ∅

/-- The place of a candidate: the one at which it was enumerated, or asked for now, or none in
particular where none is needed. -/
def positionFor (predicate : Predicate) (node : Handle) (position : Option SiblingPosition) :
    WalkM tree (Except BridgeError SiblingPosition) :=
  match position with
  | some position => pure (.ok position)
  | none =>
      if predicate.usesPosition then inSession (Session.siblingPosition node)
      else pure (.ok .alone)

/-- Decides whether a step selects a candidate, and whether to look below it.  The place is known
where the candidate was reached by enumerating its parent. -/
def judge (options : ResolveOptions) (step : Step) (node : Handle)
    (position : Option SiblingPosition) : WalkM tree (Except BridgeError Verdict) := do
  match ← attributesFor options step node with
  | .error e => return .error e
  | .ok snapshot =>
      -- Hidden children are sorted out when they are enumerated; this concerns self steps.
      if options.visibleOnly && !snapshot.isShowing then return .ok .hidden
      else if !step.effectiveRoleTest.accepts snapshot.role? then return .ok .rejected
      else match step.predicate with
        | none => return .ok .accepted
        | some predicate =>
            match ← positionFor predicate node position with
            | .error e => return .error e
            | .ok position =>
                return .ok (if predicate.holds snapshot position.place position.count
                  then .accepted else .rejected)

/-- Judges a candidate; a failed call is noted and hides it. -/
def judgeOrHide (options : ResolveOptions) (step : Step) (node : Handle)
    (position : SiblingPosition) : WalkM tree Verdict := do
  match ← judge options step node (some position) with
  | .ok verdict => return verdict
  | .error e =>
      diagnose e
      return .hidden

/-- The children of a candidate to look at; a failed call is noted and finds none. -/
def openBelow (options : ResolveOptions) (node : Handle) : WalkM tree (Option Siblings) := do
  match ← enumerate options node with
  | .ok siblings => return some siblings
  | .error e =>
      diagnose e
      return none

/-- Judges a candidate, then selects it or gives it back.  A candidate that denotes one of the
nodes selected earlier is not selected again.  Where the walk goes deeper, the children of a
candidate are acquired before the candidate is settled. -/
def settle (options : ResolveOptions) (step : Step) (earlier : List Handle) (deeper : Bool)
    (node : Handle) (position : SiblingPosition) :
    WalkM tree (List Handle × Option Siblings) := do
  let verdict ← judgeOrHide options step node position
  -- The children come first, because acquiring them needs the handle.
  let below ← if deeper && verdict != .hidden then openBelow options node else pure none
  if verdict = .accepted then
    if ← isAmong node earlier then
      release node
      return ([], below)
    else return ([node], below)
  else
    release node
    return ([], below)

/-- A candidate is settled in the same way whether or not its children were acquired. -/
theorem settle_eq (options : ResolveOptions) (step : Step) (earlier : List Handle) (deeper : Bool)
    (node : Handle) (position : SiblingPosition) :
    (settle options step earlier deeper node position : WalkM tree _) =
      judgeOrHide options step node position >>= fun verdict =>
        (if deeper && verdict != .hidden then openBelow options node else pure none) >>=
          fun below =>
            if verdict = .accepted then do
              if ← isAmong node earlier then
                release node
                return ([], below)
              else return ([node], below)
            else do
              release node
              return ([], below) := by
  unfold settle
  congr 1
  funext verdict
  cases deeper && verdict != .hidden <;> rfl

/-! ### Visiting candidates -/

/-- Visits candidates in order, each before what lies below it. -/
def visitEach (options : ResolveOptions) (step : Step) (demand : Demand) (earlier : List Handle)
    (deeper : Bool) (visitChildren : Siblings → WalkM tree Visit) :
    List (Handle × SiblingPosition) → WalkM tree Visit
  | [] => pure .nothing
  | (node, position) :: rest => do
      match ← checkpoint options with
      | some cause =>
          release node
          return ⟨[], some (.interrupted cause), rest.map Prod.fst⟩
      | none =>
          let (kept, below) ← settle options step earlier deeper node position
          if demand.isMetBy kept then
            -- What lies below the last candidate is never visited.
            releaseAll (below.elim [] Siblings.unvisited)
            return ⟨kept, some .satisfied, rest.map Prod.fst⟩
          else
            let inner ← below.elim (pure .nothing) visitChildren
            match inner.stop with
            | some stop =>
                return ⟨kept ++ inner.selected, some stop, rest.map Prod.fst ++ inner.abandoned⟩
            | none =>
                let outer ←
                  visitEach options step demand earlier deeper visitChildren rest
                return { outer with selected := kept ++ inner.selected ++ outer.selected }

/-- Visits siblings at a depth below the context, with everything below them that the bounds allow.
The fuel bounds the number of levels; siblings beyond it are given back. -/
def visitBelow (options : ResolveOptions) (step : Step) (demand : Demand) (earlier : List Handle) :
    Nat → Nat → Siblings → WalkM tree Visit
  | 0, _, siblings => do
      releaseAll siblings.unvisited
      return .nothing
  | fuel + 1, depth, siblings =>
      visitEach options step demand earlier (options.allowsBelow depth)
        (visitBelow options step demand earlier fuel (depth + 1)) siblings.remaining

/-! ### Contexts -/

/-- What an unreadable context comes to: the failure of the resolution, if it is the root. -/
def unreachable (node : Handle) (error : BridgeError) : WalkM tree Expansion := do
  if node.isBorrowed then return ⟨[], some (.rootUnreachable error)⟩
  else
    diagnose error
    release node
    return ⟨[], none⟩

/-- Filters a context itself. -/
def filterSelf (options : ResolveOptions) (step : Step) (node : Handle) :
    WalkM tree Expansion := do
  match ← checkpoint options with
  | some cause =>
      release node
      return ⟨[], some (.interrupted cause)⟩
  | none =>
      match ← judge options step node none with
      | .error e => unreachable node e
      | .ok .accepted => return ⟨[node], none⟩
      | .ok _ =>
          release node
          return ⟨[], none⟩

/-- Selects among the children of a context. -/
def expandChildren (options : ResolveOptions) (step : Step) (demand : Demand) (node : Handle) :
    WalkM tree Expansion := do
  match ← enumerate options node with
  | .error e => unreachable node e
  | .ok siblings =>
      let visit ←
        visitEach options step demand [] false (fun _ => pure .nothing) siblings.remaining
      match visit.stop with
      | some (.interrupted cause) =>
          -- An interrupted context is given back before the children it leaves open.
          release node
          releaseAll visit.abandoned
          return ⟨visit.selected, some (.interrupted cause)⟩
      | _ =>
          releaseAll visit.abandoned
          release node
          return ⟨visit.selected, none⟩

/-- Selects among the nodes below a context.  Below a nested context, candidates are compared with
the nodes selected earlier, which are not selected again. -/
def expandDescendants (options : ResolveOptions) (step : Step) (demand : Demand)
    (context : Context) (selected : List Handle) : WalkM tree Expansion := do
  match ← enumerate options context.handle with
  | .error e => unreachable context.handle e
  | .ok siblings =>
      let earlier := if context.nested then selected else []
      let visit ← visitBelow options step demand earlier tree.size 1 siblings
      releaseAll visit.abandoned
      release context.handle
      match visit.stop with
      | some (.interrupted cause) => return ⟨visit.selected, some (.interrupted cause)⟩
      | _ => return ⟨visit.selected, none⟩

/-- Selects from one context, where some nodes have been selected from those before it. -/
def expand (options : ResolveOptions) (step : Step) (demand : Demand) (context : Context)
    (selected : List Handle) : WalkM tree Expansion :=
  match step.axis with
  | .self => filterSelf options step context.handle
  | .child => expandChildren options step demand context.handle
  | .descendant | .any => expandDescendants options step demand context selected

/-- Selects from contexts in order.  Once no further node is asked for, the contexts that are left
are given back; if the resolution fails, so are the nodes selected so far. -/
def expandAll (options : ResolveOptions) (step : Step) (demand : Demand) :
    List Context → List Handle → WalkM tree Expansion
  | [], selected => pure ⟨selected, none⟩
  | context :: rest, selected => do
      if demand.isMetBy selected then
        release context.handle
        expandAll options step demand rest selected
      else
        let found ← expand options step demand context selected
        match found.failure with
        | none => expandAll options step demand rest (selected ++ found.selected)
        | some error =>
            releaseAll (selected ++ found.selected)
            releaseAll (rest.map Context.handle)
            return ⟨[], some error⟩

/-! ### Nested contexts -/

/-- Climbs from a node towards the root and looks for one of the given nodes.  The fuel bounds the
number of ancestors. -/
def climb (targets : List Handle) : Nat → Option Handle → WalkM tree Bool
  | _, none => pure false
  | 0, some ancestor => do
      release ancestor
      return false
  | fuel + 1, some ancestor => do
      if ← isAmong ancestor targets then
        release ancestor
        return true
      else
        let above ← parentOf ancestor
        release ancestor
        climb targets fuel above

/-- Whether a node lies below one of the outer contexts. -/
def isBelow (node : Handle) (contexts : List Context) : WalkM tree Bool := do
  let parent ← parentOf node
  climb ((contexts.filter fun c => !c.nested).map Context.handle) tree.size parent

/-- Adds the nodes of a frontier to the contexts before them.  A frontier lists ancestors before
what lies below them, so a node that lies below another context would repeat its work and is given
back; where levels are bounded it may reach deeper, and stays as a nested context. -/
def separate (options : ResolveOptions) : List Context → List Handle → WalkM tree (List Context)
  | contexts, [] => pure contexts
  | contexts, node :: rest => do
      let nested ← if contexts.isEmpty then pure false else isBelow node contexts
      if !nested then separate options (contexts ++ [⟨node, false⟩]) rest
      else if options.maxDepth.isSome then separate options (contexts ++ [⟨node, true⟩]) rest
      else
        release node
        separate options contexts rest

/-- A node is sorted in the same way whether or not there were contexts to look for it below. -/
theorem separate_cons (options : ResolveOptions) (contexts : List Context) (node : Handle)
    (rest : List Handle) :
    (separate options contexts (node :: rest) : WalkM tree (List Context)) =
      (if contexts.isEmpty then pure false else isBelow node contexts) >>= fun nested =>
        if !nested then separate options (contexts ++ [⟨node, false⟩]) rest
        else if options.maxDepth.isSome then separate options (contexts ++ [⟨node, true⟩]) rest
        else release node >>= fun _ => separate options contexts rest := by
  rw [separate]
  cases contexts.isEmpty <;> rfl

/-- The contexts of a step. -/
def contextsFor (options : ResolveOptions) (step : Step) (frontier : List Handle) :
    WalkM tree (List Context) :=
  if (step.axis = .descendant ∨ step.axis = .any) ∧ 1 < frontier.length then
    separate options [] frontier
  else pure (frontier.map fun node => ⟨node, false⟩)

/-! ### Steps -/

/-- Takes one step from every node of a frontier. -/
def applyStep (options : ResolveOptions) (step : Step) (demand : Demand)
    (frontier : List Handle) : WalkM tree Expansion := do
  let contexts ← contextsFor options step frontier
  expandAll options step demand contexts []

/-- Takes steps one after another until one selects nothing; the demand is that of the last. -/
def applySteps (options : ResolveOptions) (demand : Demand) :
    List Step → List Handle → WalkM tree Expansion
  | [], frontier => pure ⟨frontier, none⟩
  | step :: rest, frontier => do
      let found ← applyStep options step (if rest.isEmpty then demand else .all) frontier
      if found.failure.isSome || found.selected.isEmpty then return found
      else applySteps options demand rest found.selected

end Walk

end AccessQuery
