/-
**Trees built call by call.**

A builder is told of the nodes of a tree one after another: of the root first, and of every other
node as the last child of one that it knows already.  In between it is told what to write to them.
Nodes go by their place in the table.  Asking for a second root, or naming a node that is not there,
is a mistake of the caller, to which there is no answer.

A builder stores with every node the list of its children and its depth.  Neither is part of a
tree, where both follow from the parents; what a builder stores of a tree is nevertheless the same
either way (`Builder.ofTree`).

Main definitions:

* `AccessQuery.BuildCall`, `AccessQuery.Edit` — what a builder is told;
* `AccessQuery.Tree.call?`, `AccessQuery.Tree.build?` — the tree after one call, and after some;
* `AccessQuery.Builder`, `AccessQuery.Builder.call?`, `AccessQuery.Builder.run?` — the same of what
  a builder stores;
* `AccessQuery.Builder.ofTree` — what is stored of a tree;
* `AccessQuery.Fixture.calls` — the calls that load a fixture.

Main results:

* `AccessQuery.Element.written_edit` — what an edit changes in the attributes of a node;
* `AccessQuery.Tree.size_call` — which calls add a node.
-/

import AccessQuery.Tree.Fixture

set_option relaxedAutoImplicit false
set_option autoImplicit false

namespace AccessQuery

/-! ### Edits -/

/-- What can be written to a node. -/
inductive Edit
  | description (text : String)
  /-- A comma-separated list of states. -/
  | states (csv : String)
  | attr (name : String) (value : AttrValue)
  | capability (added : Capability)

namespace Edit

/-- Writes to an element. -/
def apply : Edit → Element → Element
  | .description text, element => element.describe text
  | .states csv, element => element.setStates csv
  | .attr name value, element => element.write name value
  | .capability added, element => element.addCapability added

/-- The attributes that an edit writes, in order. -/
def writes : Edit → List (String × AttrValue)
  | .description text => [(AttrName.description, .text text)]
  | .states csv => [(AttrName.states, .ofCsv csv), (AttrName.statesEnUs, .ofCsv csv)]
  | .attr name value => [(name, value)]
  | .capability _ => []

end Edit

namespace Snapshot

/-- Writes some attributes, one after another. -/
def insertAll (snapshot : Snapshot) (writes : List (String × AttrValue)) : Snapshot :=
  writes.foldl (fun s entry => s.insert entry.1 entry.2) snapshot

end Snapshot

namespace Element

/-- The attributes that a new element is written, in order. -/
def firstWrites (role name : String) : List (String × AttrValue) :=
  [(AttrName.role, .text role), (AttrName.roleEnUs, .text role), (AttrName.name, .text name),
   (AttrName.description, .text "")]

theorem written_new (role name : String) :
    (new role name).written = Snapshot.empty.insertAll (firstWrites role name) :=
  rfl

theorem written_edit (edit : Edit) (element : Element) :
    (edit.apply element).written = element.written.insertAll edit.writes := by
  cases edit <;> rfl

end Element

/-! ### Calls -/

/-- What a builder is told. -/
inductive BuildCall
  /-- The root of the tree. -/
  | root (role name : String)
  /-- The last child of a node. -/
  | child (parent : Nat) (role name : String)
  /-- Something to be written to a node. -/
  | edit (node : Nat) (edit : Edit)

/-- Whether a call adds a node. -/
def BuildCall.adds : BuildCall → Bool
  | .root .. | .child .. => true
  | .edit .. => false

/-! ### Trees -/

namespace Tree

/-- The tree after a call; none where the call is a mistake. -/
def call? (tree : Tree) : BuildCall → Option Tree
  | .root role name => if tree.size = 0 then some (single (.new role name)) else none
  | .child parent role name =>
      if h : parent < tree.size then some (tree.addChild ⟨parent, h⟩ (.new role name)) else none
  | .edit node edit =>
      if h : node < tree.size then some (tree.update ⟨node, h⟩ edit.apply) else none

/-- The tree after some calls. -/
def build? (tree : Tree) (calls : List BuildCall) : Option Tree :=
  calls.foldlM call? tree

theorem size_call {tree built : Tree} {call : BuildCall} (h : tree.call? call = some built) :
    built.size = tree.size + if call.adds then 1 else 0 := by
  cases call with
  | root role name =>
      obtain ⟨h0, h⟩ := Option.ite_none_right_eq_some.1 h
      obtain rfl := Option.some.inj h
      rw [h0]
      rfl
  | child parent role name =>
      obtain ⟨hp, h⟩ := Option.dite_none_right_eq_some.1 h
      obtain rfl := Option.some.inj h
      exact size_addChild _ _ _
  | edit node edit =>
      obtain ⟨hn, h⟩ := Option.dite_none_right_eq_some.1 h
      obtain rfl := Option.some.inj h
      exact size_update _ _ _

end Tree

/-! ### What a builder stores -/

/-- A node as a builder stores it. -/
structure Builder.Entry where
  /-- What is written to the node. -/
  element : Element
  /-- The place of the parent. -/
  parent : Option Nat
  /-- The places of the children, in order. -/
  children : List Nat
  /-- The number of steps up to the root. -/
  depth : Nat

/-- The nodes that a builder knows. -/
structure Builder where
  entries : Array Builder.Entry

namespace Builder

/-- A builder that has been told nothing. -/
def empty : Builder :=
  ⟨#[]⟩

/-- Stores a new node; none where its parent is not there. -/
def push? (builder : Builder) (element : Element) : Option Nat → Option Builder
  | none => some ⟨builder.entries.push ⟨element, none, [], 0⟩⟩
  | some parent => do
      let above ← builder.entries[parent]?
      let entries := builder.entries.push ⟨element, some parent, [], above.depth + 1⟩
      return ⟨entries.modify parent fun entry =>
        { entry with children := entry.children ++ [builder.entries.size] }⟩

/-- What is stored after a call; none where the call is a mistake. -/
def call? (builder : Builder) : BuildCall → Option Builder
  | .root role name =>
      if builder.entries.size = 0 then builder.push? (.new role name) none else none
  | .child parent role name => builder.push? (.new role name) (some parent)
  | .edit node edit =>
      if node < builder.entries.size then
        some ⟨builder.entries.modify node fun entry =>
          { entry with element := edit.apply entry.element }⟩
      else none

/-- What is stored after some calls. -/
def run? (builder : Builder) (calls : List BuildCall) : Option Builder :=
  calls.foldlM call? builder

/-- What is stored of a tree: its nodes, with their parents, children and depths. -/
def ofTree (tree : Tree) : Builder where
  entries := Array.ofFn fun node : tree.NodeId =>
    { element := tree.element node
      parent := (tree.parent? node).map Fin.val
      children := (tree.children node).map Fin.val
      depth := tree.depth node }

end Builder

/-! ### Fixtures -/

namespace Fixture

/-- The edits of the topmost node of a fixture. -/
def edits (fixture : Fixture) : List Edit :=
  .description fixture.description ::
    (if fixture.states = "" then [] else [.states fixture.states]) ++
    fixture.capabilities.map .capability ++
    fixture.attributes.toList.map fun entry => .attr entry.1 entry.2

/-- The call that adds the topmost node of a fixture, as the root or below a node. -/
def placing (parent : Option Nat) (role name : String) : BuildCall :=
  match parent with
  | none => .root role name
  | some p => .child p role name

mutual

/-- The calls that load a fixture, as the root or below a node.  Every node is numbered when it is
added, by the number of nodes before it; `start` is the number of the topmost one. -/
def calls (parent : Option Nat) (start : Nat) : Fixture → List BuildCall
  | ⟨role, name, description, states, capabilities, attributes, children⟩ =>
      placing parent role name ::
        (edits ⟨role, name, description, states, capabilities, attributes, children⟩).map
          (.edit start) ++
        callsList start (start + 1) children

/-- The calls that load fixtures with a common parent, one after another. -/
def callsList (parent start : Nat) : List Fixture → List BuildCall
  | [] => []
  | fixture :: rest =>
      calls (some parent) start fixture ++ callsList parent (start + count fixture) rest

end

theorem foldl_apply_edits (fixture : Fixture) :
    fixture.edits.foldl (fun element edit => edit.apply element)
      (.new fixture.role fixture.name) = fixture.element := by
  simp only [edits, element, List.foldl_cons, List.foldl_append, List.foldl_map]
  split <;> rfl

end Fixture

end AccessQuery
