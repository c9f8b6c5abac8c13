/-
**A bridge to a tree.**

A bridge gives access to a tree the way a remote application does: nodes are named by handles,
every acquisition yields a fresh reference, each reference has to be released exactly once, and
whether two handles denote one node can only be asked.  A call fails for a handle of another
session, for a reference that is not live, and where the bridge has been told to fail.  The bridge
keeps a record of every call.

Main definitions:

* `AccessQuery.BridgeOp`, `AccessQuery.BridgeError` — the calls, and how one fails;
* `AccessQuery.Call` — a call with its outcome;
* `AccessQuery.Bridge` — the state of a bridge to a tree;
* `AccessQuery.Bridge.children`, `AccessQuery.Bridge.parent`, `AccessQuery.Bridge.attributes`,
  `AccessQuery.Bridge.siblingIndex`, `AccessQuery.Bridge.sameObject`,
  `AccessQuery.Bridge.release` — the calls.

Main results:

* `AccessQuery.Bridge.locate_foreign` — a handle of another session is refused before anything
  else is looked at;
* `AccessQuery.Bridge.locate_of_not_live` — so is a reference that is not live.
-/

import Std.Data.ExtTreeMap
import AccessQuery.Tree

set_option relaxedAutoImplicit false
set_option autoImplicit false

namespace AccessQuery

/-! ### Calls -/

/-- The calls that a bridge answers. -/
inductive BridgeOp
  | children | parent | attributes | siblingIndex | sameObject | release
  deriving DecidableEq, Repr

/-- The name of a call in messages. -/
def BridgeOp.name : BridgeOp → String
  | .children => "get_children"
  | .parent => "get_parent"
  | .attributes => "get_attributes"
  | .siblingIndex => "get_sibling_index"
  | .sameObject => "is_same_object"
  | .release => "release"

/-- A failed call. -/
structure BridgeError where
  /-- The call that failed. -/
  op : BridgeOp
  /-- The code that the bridge gave. -/
  code : Int32
  deriving DecidableEq

/-- The message of a failed call. -/
def BridgeError.message (error : BridgeError) : String :=
  "bridge call " ++ error.op.name ++ " failed with code " ++
    String.ofList (Text.integer error.code.toInt)

/-- The code for a reference that is unknown or already released. -/
def invalidReference : Int32 := -1

/-- The code for a handle of another session. -/
def foreignSession : Int32 := -2

/-- A call with the references it was given and its outcome. -/
inductive Call
  | children (node : NativeRef) (outcome : Except BridgeError (List NativeRef))
  | parent (node : NativeRef) (outcome : Except BridgeError (Option NativeRef))
  | attributes (node : NativeRef) (outcome : Except BridgeError Unit)
  | siblingIndex (node : NativeRef) (outcome : Except BridgeError (Nat × Nat))
  | sameObject (a b : NativeRef) (outcome : Except BridgeError Bool)
  | release (node : NativeRef) (outcome : Except BridgeError Unit)

namespace Call

/-- Which call it is. -/
def op : Call → BridgeOp
  | .children .. => .children
  | .parent .. => .parent
  | .attributes .. => .attributes
  | .siblingIndex .. => .siblingIndex
  | .sameObject .. => .sameObject
  | .release .. => .release

end Call

/-! ### The state of a bridge -/

/-- The state of a bridge to a tree. -/
structure Bridge (tree : Tree) where
  /-- The session that the handles of the bridge belong to. -/
  session : SessionId
  /-- The calls that fail, by the place of the node they are made on, with their codes.  No call is
  made on a place that the tree does not have. -/
  failures : BridgeOp → Nat → Option Int32
  /-- The references that have been acquired and not released, with their nodes. -/
  live : Std.ExtTreeMap NativeRef tree.NodeId
  /-- How many references have been acquired. -/
  acquired : Nat
  /-- How many references have been released. -/
  released : Nat
  /-- How many releases named a reference that was not live. -/
  invalidReleases : Nat
  /-- The calls so far. -/
  calls : Array Call
  /-- A live reference is one of those that have been acquired, which are numbered from
  `0x1001` on. -/
  issued : ∀ ref ∈ live, ref.address ≤ 0x1000 + acquired

/-- A computation that uses a bridge. -/
abbrev BridgeM (tree : Tree) := StateM (Bridge tree)

namespace Bridge

variable {tree : Tree}

/-- A bridge that has not been used. -/
def new (tree : Tree) (session : SessionId) : Bridge tree where
  session := session
  failures := fun _ _ => none
  live := ∅
  acquired := 0
  released := 0
  invalidReleases := 0
  calls := #[]
  issued _ h := absurd h Std.ExtTreeMap.not_mem_empty

/-- Lets every further call on a node fail, which is given by its place in the table. -/
def failOn (bridge : Bridge tree) (op : BridgeOp) (place : Nat) (code : Int32) : Bridge tree :=
  { bridge with
    failures := fun o p => if o = op ∧ p = place then some code else bridge.failures o p }

/-- How many references are live. -/
def liveCount (bridge : Bridge tree) : Nat :=
  bridge.live.size

/-- The node that a live reference stands for. -/
def nodeOf? (bridge : Bridge tree) (handle : Handle) : Option tree.NodeId :=
  bridge.live[handle.ref]?

/-- The name that was written to the node that a live reference stands for. -/
def nameOf? (bridge : Bridge tree) (handle : Handle) : Option String :=
  (bridge.nodeOf? handle).bind fun node => (tree.element node).written.name?

/-- The reference that the next acquisition yields; none is ever as small as a node. -/
def nextRef (bridge : Bridge tree) : NativeRef :=
  ⟨0x1000 + (bridge.acquired + 1)⟩

/-- Adds a call to the record. -/
def record (bridge : Bridge tree) (call : Call) : Bridge tree :=
  { bridge with calls := bridge.calls.push call }

/-! ### Handles -/

/-- Acquires a handle to a node. -/
def acquire (node : tree.NodeId) : BridgeM tree Handle := fun bridge =>
  (Handle.owned bridge.session bridge.nextRef (tree.element node).capabilities,
    { bridge with
      live := bridge.live.insert bridge.nextRef node
      acquired := bridge.acquired + 1
      issued := by
        intro ref h
        rcases Std.ExtTreeMap.mem_insert.1 h with h | h
        · exact Std.LawfulEqOrd.eq_of_compare h ▸ Nat.le_refl (0x1000 + (bridge.acquired + 1))
        · exact Nat.le_succ_of_le (bridge.issued ref h) })

/-- Acquires handles to some nodes, one after another. -/
def acquireAll : List tree.NodeId → BridgeM tree (List Handle)
  | [] => pure []
  | node :: rest => do
      let handle ← acquire node
      let handles ← acquireAll rest
      return handle :: handles

/-- The node that a call on a handle is about, or why the call fails. -/
def locate (bridge : Bridge tree) (op : BridgeOp) (handle : Handle) :
    Except BridgeError tree.NodeId :=
  if handle.session ≠ bridge.session then .error ⟨op, foreignSession⟩
  else match bridge.live[handle.ref]? with
    | none => .error ⟨op, invalidReference⟩
    | some node =>
        match bridge.failures op node.val with
        | some code => .error ⟨op, code⟩
        | none => .ok node

theorem locate_foreign {bridge : Bridge tree} {handle : Handle} (op : BridgeOp)
    (h : handle.session ≠ bridge.session) :
    bridge.locate op handle = .error ⟨op, foreignSession⟩ := by
  simp [locate, h]

theorem locate_of_not_live {bridge : Bridge tree} {handle : Handle} (op : BridgeOp)
    (hs : handle.session = bridge.session) (h : bridge.live[handle.ref]? = none) :
    bridge.locate op handle = .error ⟨op, invalidReference⟩ := by
  simp [locate, hs, h]

/-! ### The calls -/

/-- Acquires handles to the children of a node, in sibling order. -/
def children (handle : Handle) : BridgeM tree (Except BridgeError (List Handle)) := do
  match (← get).locate .children handle with
  | .error e =>
      modify (·.record (.children handle.ref (.error e)))
      return .error e
  | .ok node =>
      let handles ← acquireAll (tree.children node)
      modify (·.record (.children handle.ref (.ok (handles.map Handle.ref))))
      return .ok handles

/-- Acquires a handle to the parent of a node, if it has one. -/
def parent (handle : Handle) : BridgeM tree (Except BridgeError (Option Handle)) := do
  match (← get).locate .parent handle with
  | .error e =>
      modify (·.record (.parent handle.ref (.error e)))
      return .error e
  | .ok node =>
      match tree.parent? node with
      | none =>
          modify (·.record (.parent handle.ref (.ok none)))
          return .ok none
      | some above =>
          let found ← acquire above
          modify (·.record (.parent handle.ref (.ok (some found.ref))))
          return .ok (some found)

/-- Reads the attributes of a node. -/
def attributes (handle : Handle) : BridgeM tree (Except BridgeError Snapshot) := do
  match (← get).locate .attributes handle with
  | .error e =>
      modify (·.record (.attributes handle.ref (.error e)))
      return .error e
  | .ok node =>
      modify (·.record (.attributes handle.ref (.ok ())))
      return .ok (tree.attributes node)

/-- Reads the zero-based place of a node among its siblings, and their number; both fit into 32 bits
if there are fewer than 2³² siblings. -/
def siblingIndex (handle : Handle) : BridgeM tree (Except BridgeError (Nat × Nat)) := do
  match (← get).locate .siblingIndex handle with
  | .error e =>
      modify (·.record (.siblingIndex handle.ref (.error e)))
      return .error e
  | .ok node =>
      modify (·.record (.siblingIndex handle.ref (.ok (tree.place node))))
      return .ok (tree.place node)

/-- Asks whether two handles denote one node; the first handle is looked at first. -/
def sameObject (a b : Handle) : BridgeM tree (Except BridgeError Bool) := do
  let bridge ← get
  let outcome := do
    let left ← bridge.locate .sameObject a
    let right ← bridge.locate .sameObject b
    return left == right
  set (bridge.record (.sameObject a.ref b.ref outcome))
  return outcome

/-- Gives a reference back.  The reference is no longer live afterwards, even where the bridge has
been told to fail. -/
def release (handle : Handle) : BridgeM tree (Except BridgeError Unit) := do
  let bridge ← get
  match bridge.live[handle.ref]? with
  | none =>
      let outcome := .error ⟨.release, invalidReference⟩
      set ({ bridge with invalidReleases := bridge.invalidReleases + 1 }.record
        (.release handle.ref outcome))
      return outcome
  | some node =>
      let outcome := match bridge.failures .release node.val with
        | some code => .error ⟨.release, code⟩
        | none => .ok ()
      set ({ bridge with
        live := bridge.live.erase handle.ref
        released := bridge.released + 1
        issued := fun ref h => bridge.issued ref (Std.ExtTreeMap.mem_erase.1 h).2 }.record
          (.release handle.ref outcome))
      return outcome

end Bridge

end AccessQuery
