/-
**Accessibility trees.**

A tree is a table of nodes.  Each node but the first has a parent that stands before it in the
table, so the first node, if there is one, is the root and every other one lies below it; the
children of a node are those that name it as their parent, in the order of the table.  A node
carries the attributes that were written to it; its place, its depth and the number of its children
follow from the table.

Main definitions:

* `AccessQuery.Element` — what is written to a node;
* `AccessQuery.Tree` — the tables, `AccessQuery.Tree.NodeId` the nodes of one;
* `AccessQuery.Tree.root?`, `AccessQuery.Tree.parent?`, `AccessQuery.Tree.children`,
  `AccessQuery.Tree.depth`, `AccessQuery.Tree.place` — the shape of a tree;
* `AccessQuery.Tree.attributes` — what a bridge reports for a node;
* `AccessQuery.Tree.empty`, `AccessQuery.Tree.single`, `AccessQuery.Tree.addChild`,
  `AccessQuery.Tree.update` — building.

Main results:

* `AccessQuery.Tree.parent?_lt` — a parent stands before its children;
* `AccessQuery.Tree.parent?_eq_none_iff` — only the root has no parent;
* `AccessQuery.Tree.mem_children` — children and parents are two views of one relation.
-/

import AccessQuery.Handle
import AccessQuery.Snapshot

set_option relaxedAutoImplicit false
set_option autoImplicit false

namespace AccessQuery

/-! ### Elements -/

/-- What is written to a node. -/
structure Element where
  /-- The attributes, without those that follow from the place of the node. -/
  written : Snapshot
  /-- The interfaces that the node supports. -/
  capabilities : Capabilities
  deriving DecidableEq

namespace Element

/-- A new element: a role, a name, an empty description, and the capability every element has. -/
def new (role name : String) : Element where
  written := Snapshot.empty
    |>.insert AttrName.role (.text role)
    |>.insert AttrName.roleEnUs (.text role)
    |>.insert AttrName.name (.text name)
    |>.insert AttrName.description (.text "")
  capabilities := Capabilities.empty.add .component

/-- Writes an attribute. -/
def write (element : Element) (name : String) (value : AttrValue) : Element :=
  { element with written := element.written.insert name value }

/-- Writes the description. -/
def describe (element : Element) (description : String) : Element :=
  element.write AttrName.description (.text description)

/-- Writes the states, from a comma-separated list. -/
def setStates (element : Element) (csv : String) : Element :=
  (element.write AttrName.states (.ofCsv csv)).write AttrName.statesEnUs (.ofCsv csv)

/-- Adds a capability. -/
def addCapability (element : Element) (capability : Capability) : Element :=
  { element with capabilities := element.capabilities.add capability }

end Element

/-! ### Tables of nodes -/

/-- An entry of a tree. -/
structure Node where
  /-- The place of the parent in the table. -/
  parent : Option Nat
  /-- What is written to the node. -/
  element : Element
  deriving DecidableEq

/-- A table of nodes, of which the first is the root; it may have no nodes. -/
structure Tree where
  /-- The entries. -/
  nodes : Array Node
  /-- Only the first entry has no parent. -/
  eq_zero_of_parent : ∀ (i : Nat) (h : i < nodes.size), nodes[i].parent = none → i = 0
  /-- Parents stand before their children. -/
  parent_lt : ∀ (i : Nat) (h : i < nodes.size) (p : Nat), nodes[i].parent = some p → p < i

namespace Tree

/-- The number of nodes. -/
abbrev size (tree : Tree) : Nat :=
  tree.nodes.size

/-- A node of a tree, by its place in the table. -/
abbrev NodeId (tree : Tree) : Type :=
  Fin tree.size

variable (tree : Tree)

/-- What is written to a node. -/
def element (node : tree.NodeId) : Element :=
  tree.nodes[node].element

/-! ### Shape -/

/-- The first node of the table, if it has any. -/
def root? : Option tree.NodeId :=
  if h : 0 < tree.size then some ⟨0, h⟩ else none

theorem root?_eq_some_iff {node : tree.NodeId} : tree.root? = some node ↔ node.val = 0 := by
  simp [root?, Fin.ext_iff, Nat.lt_of_le_of_lt (Nat.zero_le _) node.isLt, eq_comm]

/-- The parent of a node; the root has none. -/
def parent? (node : tree.NodeId) : Option tree.NodeId :=
  match h : tree.nodes[node].parent with
  | none => none
  | some p => some ⟨p, Nat.lt_trans (tree.parent_lt node node.isLt p h) node.isLt⟩

theorem parent?_lt {node parent : tree.NodeId} (h : tree.parent? node = some parent) :
    parent < node := by
  unfold parent? at h
  split at h
  · cases h
  · next p hp =>
      cases h
      exact tree.parent_lt node node.isLt p hp

theorem parent?_eq_none_iff {node : tree.NodeId} :
    tree.parent? node = none ↔ tree.root? = some node := by
  rw [root?_eq_some_iff]
  constructor
  · intro h
    refine tree.eq_zero_of_parent node node.isLt ?_
    unfold parent? at h
    split at h
    · next h' => exact h'
    · simp at h
  · intro h0
    cases h : tree.parent? node with
    | none => rfl
    | some p =>
        have hlt : p.val < node.val := tree.parent?_lt h
        omega

/-- The children of a node, in the order of the table. -/
def children (node : tree.NodeId) : List tree.NodeId :=
  (List.finRange tree.size).filter fun child => tree.parent? child == some node

theorem mem_children {node child : tree.NodeId} :
    child ∈ tree.children node ↔ tree.parent? child = some node := by
  simp [children]

/-- The number of steps from a node up to the root. -/
def depth (node : tree.NodeId) : Nat :=
  match h : tree.parent? node with
  | none => 0
  | some parent =>
      have := tree.parent?_lt h
      depth parent + 1
termination_by node.val

/-- The zero-based place of a node among its siblings, and their number. -/
def place (node : tree.NodeId) : Nat × Nat :=
  match tree.parent? node with
  | none => (0, 1)
  | some parent => ((tree.children parent).idxOf node, (tree.children parent).length)

/-! ### Attributes -/

/-- The attributes that a bridge reports for a node: the written ones, those that follow from its
place in the tree, and empty sets of states where no states were written. -/
def attributes (node : tree.NodeId) : Snapshot :=
  let placed := (tree.element node).written
    |>.insert AttrName.indexInParent (.int (Int64.ofNat (tree.place node).1))
    |>.insert AttrName.childrenCount (.int (Int64.ofNat (tree.children node).length))
    |>.insert AttrName.objectDepth (.int (Int64.ofNat (tree.depth node)))
  -- One set is looked for, but where it is missing both are written.
  if placed.get? AttrName.states = none then
    (placed.insert AttrName.states (.states ∅)).insert AttrName.statesEnUs (.states ∅)
  else placed

/-! ### Building -/

/-- The tree without nodes. -/
def empty : Tree where
  nodes := #[]
  eq_zero_of_parent i h _ := by simp at h
  parent_lt i h p _ := by simp at h

/-- The tree of one node. -/
def single (element : Element) : Tree where
  nodes := #[⟨none, element⟩]
  eq_zero_of_parent i h _ := by simpa using h
  parent_lt i h p hp := by
    have : i = 0 := by simpa using h
    subst this
    simp at hp

variable {tree}

/-- Appends a node as the last child of another. -/
def addChild (tree : Tree) (parent : tree.NodeId) (element : Element) : Tree where
  nodes := tree.nodes.push ⟨some parent, element⟩
  eq_zero_of_parent i h hn := by
    rw [Array.getElem_push] at hn
    split at hn
    · next hi => exact tree.eq_zero_of_parent i hi hn
    · simp at hn
  parent_lt i h p hp := by
    rw [Array.getElem_push] at hp
    split at hp
    · next hi => exact tree.parent_lt i hi p hp
    · obtain rfl : parent.val = p := by simpa using hp
      have hp := parent.isLt
      simp only [Array.size_push, size] at h hp
      omega

/-- Changes what is written to a node. -/
def update (tree : Tree) (node : tree.NodeId) (f : Element → Element) : Tree where
  nodes := tree.nodes.modify node fun n => { n with element := f n.element }
  eq_zero_of_parent i h hn := by
    refine tree.eq_zero_of_parent i (by simpa using h) ?_
    rw [Array.getElem_modify] at hn
    split at hn <;> exact hn
  parent_lt i h p hp := by
    refine tree.parent_lt i (by simpa using h) p ?_
    rw [Array.getElem_modify] at hp
    split at hp <;> exact hp

@[simp] theorem size_single (element : Element) : (single element).size = 1 := rfl

@[simp] theorem size_addChild (tree : Tree) (parent : tree.NodeId) (element : Element) :
    (tree.addChild parent element).size = tree.size + 1 := by
  simp [addChild, size]

@[simp] theorem size_update (tree : Tree) (node : tree.NodeId) (f : Element → Element) :
    (tree.update node f).size = tree.size := by
  simp [update, size]

end Tree

end AccessQuery
