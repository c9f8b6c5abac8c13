/-
**What is built is what was asked for.**

The shape of a tree is the list of its parents: the children and the depths follow from it.  A call
either appends to that list or leaves it alone, so what a builder stores with its nodes stays what
the tree says, call by call.  Loading a fixture makes the calls of its nodes in pre-order and yields
the table of the fixture.

Main definitions:

* `AccessQuery.Tree.parents` — the shape of a tree.

Main results:

* `AccessQuery.Tree.map_val_children`, `AccessQuery.Tree.depth_congr` — children and depths follow
  from the shape;
* `AccessQuery.Builder.run?_ofTree` — a builder stores what the tree says;
* `AccessQuery.Fixture.build?_calls` — the calls of a fixture build its tree.
-/

import Mathlib.Data.List.Sort
import AccessQuery.Proofs.DocumentOrder
import AccessQuery.Tree.Builder

set_option relaxedAutoImplicit false
set_option autoImplicit false

namespace AccessQuery

/-! ### Shapes -/

namespace Tree

/-- The places of the parents, node by node. -/
def parents (tree : Tree) : List (Option Nat) :=
  tree.nodes.toList.map Node.parent

@[simp] theorem length_parents (tree : Tree) : tree.parents.length = tree.size := by
  simp [parents]

theorem getElem?_parents (tree : Tree) (node : tree.NodeId) :
    tree.parents[node.val]? = some ((tree.parent? node).map Fin.val) := by
  rw [map_val_parent?]
  simp [parents]

theorem parent?_eq_some_iff {tree : Tree} {node parent : tree.NodeId} :
    tree.parent? node = some parent ↔ tree.parents[node.val]? = some (some parent.val) := by
  rw [getElem?_parents, Option.some.injEq, Option.map_eq_some_iff]
  constructor
  · intro h
    exact ⟨parent, h, rfl⟩
  · rintro ⟨p, hp, hv⟩
    exact hp.trans (congrArg some (Fin.ext hv))

/-- The children of a node are found in the list of parents. -/
theorem map_val_children (tree : Tree) (node : tree.NodeId) :
    (tree.children node).map Fin.val = tree.parents.findIdxs (· == some node.val) := by
  -- both lists increase and have the same members
  have hleft : ((tree.children node).map Fin.val).Pairwise (· < ·) :=
    List.pairwise_map.2 (tree.children_pairwise node)
  refine hleft.eq_of_mem_iff List.pairwise_findIdxs fun i => ?_
  rw [List.mem_map, List.mem_findIdxs_iff_exists_getElem_pos]
  constructor
  · rintro ⟨child, hc, rfl⟩
    have h := parent?_eq_some_iff.1 (tree.mem_children.1 hc)
    obtain ⟨hlt, h⟩ := List.getElem?_eq_some_iff.1 h
    exact ⟨hlt, beq_iff_eq.2 h⟩
  · rintro ⟨hlt, h⟩
    refine ⟨⟨i, by simpa using hlt⟩, tree.mem_children.2 (parent?_eq_some_iff.2 ?_), rfl⟩
    exact List.getElem?_eq_some_iff.2 ⟨hlt, beq_iff_eq.1 h⟩

/-- The depth of a node depends on the shape up to it only. -/
theorem depth_congr {tree other : Tree} (h : tree.parents <+: other.parents) (node : tree.NodeId)
    (node' : other.NodeId) (hv : node'.val = node.val) : other.depth node' = tree.depth node := by
  -- on the place of the node, whose parent stands before it
  induction hn : node.val using Nat.strongRecOn generalizing node node' with
  | ind n ih =>
      have hparent : (other.parent? node').map Fin.val = (tree.parent? node).map Fin.val := by
        have hother := other.getElem?_parents node'
        rw [hv, (List.prefix_iff_getElem?.1 h _ (by simp)).trans
          (List.getElem?_eq_getElem _).symm, getElem?_parents] at hother
        exact (Option.some.inj hother).symm
      cases hp : tree.parent? node with
      | none =>
          rw [hp, Option.map_none, Option.map_eq_none_iff] at hparent
          rw [depth_of_root hp, depth_of_root hparent]
      | some p =>
          rw [hp, Option.map_some, Option.map_eq_some_iff] at hparent
          obtain ⟨p', hp', hval⟩ := hparent
          rw [depth_of_parent hp, depth_of_parent hp',
            ih p.val (hn ▸ tree.parent?_lt hp) p p' hval rfl]

@[simp] theorem parents_addChild (tree : Tree) (parent : tree.NodeId) (element : Element) :
    (tree.addChild parent element).parents = tree.parents ++ [some parent.val] := by
  simp [parents, addChild]

@[simp] theorem parents_update (tree : Tree) (node : tree.NodeId) (f : Element → Element) :
    (tree.update node f).parents = tree.parents := by
  refine List.ext_getElem? fun i => ?_
  simp only [parents, update, List.getElem?_map, Array.getElem?_toList, Array.getElem?_modify]
  split
  · rw [Option.map_map]
    rfl
  · rfl

theorem element_addChild_of_lt {tree : Tree} {parent : tree.NodeId} {element : Element} {i : Nat}
    (h : i < tree.size) {h' : i < (tree.addChild parent element).size} :
    (tree.addChild parent element).element ⟨i, h'⟩ = tree.element ⟨i, h⟩ := by
  simp [Tree.element, addChild, Array.getElem_push, h]

theorem element_addChild_size {tree : Tree} {parent : tree.NodeId} {element : Element}
    {h' : tree.size < (tree.addChild parent element).size} :
    (tree.addChild parent element).element ⟨tree.size, h'⟩ = element := by
  simp [Tree.element, addChild]

theorem element_update {tree : Tree} {node : tree.NodeId} {f : Element → Element} {i : Nat}
    (h : i < tree.size) {h' : i < (tree.update node f).size} :
    (tree.update node f).element ⟨i, h'⟩ =
      if node.val = i then f (tree.element ⟨i, h⟩) else tree.element ⟨i, h⟩ := by
  simp only [Tree.element, update, Fin.getElem_fin, Array.getElem_modify]
  split <;> rfl

/-- No node stands before its parent. -/
theorem findIdxs_parents_of_size_le {tree : Tree} {i : Nat} (h : tree.size ≤ i) :
    tree.parents.findIdxs (· == some i) = [] := by
  rw [List.findIdxs_eq_nil_iff]
  intro entry hentry
  obtain ⟨node, hnode, rfl⟩ := List.mem_map.1 hentry
  obtain ⟨j, hj, rfl⟩ := List.mem_iff_getElem.1 hnode
  refine beq_eq_false_iff_ne.2 fun hp => ?_
  have hlt := tree.parent_lt j (by simpa using hj) i (by simpa using hp)
  have hj : j < tree.size := by simpa using hj
  omega

theorem ext_nodes {a b : Tree} (h : a.nodes = b.nodes) : a = b := by
  cases a
  cases b
  cases h
  rfl

end Tree

/-! ### What is stored -/

namespace Builder

theorem ext_entries {a b : Builder} (h : ∀ i : Nat, a.entries[i]? = b.entries[i]?) : a = b := by
  cases a
  cases b
  exact congrArg Builder.mk (Array.ext_getElem? h)

@[simp] theorem size_ofTree (tree : Tree) : (ofTree tree).entries.size = tree.size := by
  simp [ofTree]

theorem getElem?_ofTree {tree : Tree} {i : Nat} (h : i < tree.size) :
    (ofTree tree).entries[i]? = some {
      element := tree.element ⟨i, h⟩
      parent := (tree.parent? ⟨i, h⟩).map Fin.val
      children := tree.parents.findIdxs (· == some i)
      depth := tree.depth ⟨i, h⟩ } := by
  rw [Array.getElem?_eq_getElem (by simpa using h)]
  simp only [ofTree, Array.getElem_ofFn, Tree.map_val_children]

theorem getElem?_ofTree_of_size_le (tree : Tree) {i : Nat} (h : tree.size ≤ i) :
    (ofTree tree).entries[i]? = none :=
  Array.getElem?_eq_none (by simpa using h)

theorem ofTree_empty : ofTree Tree.empty = empty :=
  ext_entries fun _ => getElem?_ofTree_of_size_le Tree.empty (Nat.zero_le _)

/-- What is stored of a node that some calls leave where it is. -/
theorem getElem?_ofTree_of_prefix {tree other : Tree} (h : tree.parents <+: other.parents) {i : Nat}
    (hi : i < tree.size) (hi' : i < other.size) : (ofTree other).entries[i]? = some {
      element := other.element ⟨i, hi'⟩
      parent := (tree.parent? ⟨i, hi⟩).map Fin.val
      children := other.parents.findIdxs (· == some i)
      depth := tree.depth ⟨i, hi⟩ } := by
  rw [getElem?_ofTree hi', Tree.depth_congr h ⟨i, hi⟩ ⟨i, hi'⟩ rfl]
  have hparent := List.prefix_iff_getElem?.1 h i (by simpa using hi)
  rw [other.getElem?_parents ⟨i, hi'⟩, ← List.getElem?_eq_getElem,
    tree.getElem?_parents ⟨i, hi⟩, Option.some.injEq] at hparent
  rw [hparent]

/-- A root has no children yet, and stands at depth zero. -/
theorem push?_root {tree : Tree} (h : tree.size = 0) (element : Element) :
    (ofTree tree).push? element none = some (ofTree (Tree.single element)) := by
  obtain rfl : tree = Tree.empty := Tree.ext_nodes (Array.eq_empty_of_size_eq_zero h)
  refine congrArg some (ext_entries fun i => ?_)
  rw [ofTree_empty]
  cases i with
  | zero =>
      have hroot : (Tree.single element).parent? ⟨0, Nat.one_pos⟩ = none := rfl
      rw [getElem?_ofTree (show 0 < (Tree.single element).size from Nat.one_pos), hroot,
        Tree.depth_of_root hroot]
      rfl
  | succ i =>
      rw [getElem?_ofTree_of_size_le (Tree.single element) (by simp)]
      rfl

/-- A child goes to the end of the children of its parent, one step further down. -/
theorem push?_child (tree : Tree) (parent : tree.NodeId) (element : Element) :
    (ofTree tree).push? element (some parent.val) =
      some (ofTree (tree.addChild parent element)) := by
  have hparents := tree.parents_addChild parent element
  have hprefix : tree.parents <+: (tree.addChild parent element).parents :=
    ⟨_, hparents.symm⟩
  rw [push?, getElem?_ofTree parent.isLt]
  refine congrArg some (ext_entries fun i => ?_)
  simp only [Array.getElem?_modify, Array.getElem?_push, size_ofTree]
  rcases Nat.lt_trichotomy i tree.size with hi | rfl | hi
  · have hi' : i < (tree.addChild parent element).size := by
      rw [Tree.size_addChild]
      exact Nat.lt_succ_of_lt hi
    rw [if_neg (Nat.ne_of_lt hi), getElem?_ofTree hi, getElem?_ofTree_of_prefix hprefix hi hi',
      Tree.element_addChild_of_lt hi, hparents, List.findIdxs_append, List.findIdxs_singleton,
      Tree.length_parents, Nat.zero_add]
    by_cases hp : parent.val = i <;> simp [hp]
  · have hi' : tree.size < (tree.addChild parent element).size := by simp
    have hnew : (tree.addChild parent element).parent? ⟨tree.size, hi'⟩ =
        some ⟨parent.val, Nat.lt_trans parent.isLt hi'⟩ := by
      rw [Tree.parent?_eq_some_iff, hparents]
      simp
    rw [if_pos rfl, if_neg (Nat.ne_of_lt parent.isLt), getElem?_ofTree hi', hnew,
      Tree.depth_of_parent hnew, Tree.element_addChild_size,
      Tree.depth_congr hprefix parent ⟨parent.val, Nat.lt_trans parent.isLt hi'⟩ rfl, hparents,
      List.findIdxs_append, Tree.findIdxs_parents_of_size_le (Nat.le_refl _),
      List.findIdxs_singleton, if_neg (by simpa using Nat.ne_of_lt parent.isLt)]
    rfl
  · have hi' : (tree.addChild parent element).size ≤ i := by
      rw [Tree.size_addChild]
      exact Nat.succ_le_of_lt hi
    rw [if_neg (Nat.ne_of_gt hi), getElem?_ofTree_of_size_le tree (Nat.le_of_lt hi),
      getElem?_ofTree_of_size_le _ hi']
    split <;> rfl

theorem modify_ofTree (tree : Tree) (node : tree.NodeId) (f : Element → Element) :
    Builder.mk ((ofTree tree).entries.modify node fun entry =>
      { entry with element := f entry.element }) = ofTree (tree.update node f) := by
  refine ext_entries fun i => ?_
  have hparents := tree.parents_update node f
  have hprefix : tree.parents <+: (tree.update node f).parents := ⟨[], by simp⟩
  rw [Array.getElem?_modify]
  by_cases hi : i < tree.size
  · have hi' : i < (tree.update node f).size := by simpa using hi
    rw [getElem?_ofTree hi, getElem?_ofTree_of_prefix hprefix hi hi', hparents,
      Tree.element_update hi]
    split <;> rfl
  · rw [getElem?_ofTree_of_size_le tree (Nat.le_of_not_lt hi),
      getElem?_ofTree_of_size_le (tree.update node f) (by simpa using hi)]
    split <;> rfl

theorem call?_ofTree (tree : Tree) (call : BuildCall) :
    (ofTree tree).call? call = (tree.call? call).map ofTree := by
  cases call with
  | root role name =>
      simp only [call?, Tree.call?, size_ofTree]
      split
      · next h => exact push?_root h _
      · rfl
  | child parent role name =>
      simp only [call?, Tree.call?]
      split
      · next h => exact push?_child tree ⟨parent, h⟩ _
      · next h =>
          rw [push?, Array.getElem?_eq_none (by simpa using h)]
          rfl
  | edit node edit =>
      simp only [call?, Tree.call?, size_ofTree]
      split
      · next h => exact congrArg some (modify_ofTree tree ⟨node, h⟩ edit.apply)
      · rfl

/-- A builder stores what the tree says, whatever it is told. -/
theorem run?_ofTree (tree : Tree) (calls : List BuildCall) :
    (ofTree tree).run? calls = (tree.build? calls).map ofTree := by
  induction calls generalizing tree with
  | nil => rfl
  | cons call rest ih =>
      simp only [run?, Tree.build?, List.foldlM_cons, call?_ofTree] at ih ⊢
      cases tree.call? call with
      | none => rfl
      | some next => exact ih next

end Builder

/-! ### Fixtures -/

namespace Fixture

/-- Whether a node can be added where a fixture is to go. -/
def Fits (tree : Tree) : Option Nat → Prop
  | none => tree.size = 0
  | some parent => parent < tree.size

theorem build?_append (tree : Tree) (first rest : List BuildCall) :
    tree.build? (first ++ rest) = (tree.build? first).bind (·.build? rest) :=
  List.foldlM_append ..

theorem call?_placing {tree : Tree} {parent : Option Nat} (h : Fits tree parent)
    (role name : String) : ∃ built, tree.call? (placing parent role name) = some built ∧
      built.nodes = tree.nodes.push ⟨parent, .new role name⟩ := by
  cases parent with
  | none =>
      refine ⟨_, if_pos h, ?_⟩
      rw [Array.eq_empty_of_size_eq_zero h]
      rfl
  | some p => exact ⟨_, dif_pos h, rfl⟩

theorem modify_push_size {α : Type} (items : Array α) (last : α) (f : α → α) :
    (items.push last).modify items.size f = items.push (f last) := by
  refine Array.ext_getElem? fun i => ?_
  simp only [Array.getElem?_modify, Array.getElem?_push]
  rcases Nat.lt_trichotomy i items.size with h | rfl | h
  · simp [Nat.ne_of_lt h, Nat.ne_of_gt h]
  · simp
  · simp [Nat.ne_of_lt h, Nat.ne_of_gt h]

/-- Edits of one node take effect one after another. -/
theorem build?_edits (edits : List Edit) {tree : Tree} {node : Nat} (h : node < tree.size) :
    ∃ built, tree.build? (edits.map (.edit node)) = some built ∧
      built.nodes = tree.nodes.modify node fun n =>
        { n with element := edits.foldl (fun element edit => edit.apply element) n.element } := by
  induction edits generalizing tree with
  | nil =>
      refine ⟨tree, rfl, Array.ext_getElem? fun i => ?_⟩
      rw [Array.getElem?_modify]
      split
      · exact Option.map_id'.symm
      · rfl
  | cons edit rest ih =>
      have hnode : node < (tree.update ⟨node, h⟩ edit.apply).size := by simpa
      obtain ⟨built, hbuilt, hnodes⟩ := ih hnode
      refine ⟨built, ?_, hnodes.trans (Array.ext_getElem? fun i => ?_)⟩
      · have hcall : tree.call? (.edit node edit) = some (tree.update ⟨node, h⟩ edit.apply) :=
          dif_pos h
        simpa [Tree.build?, hcall] using hbuilt
      · simp only [Tree.update, Array.getElem?_modify, List.foldl_cons]
        split
        · rw [Option.map_map]
          rfl
        · rfl

mutual

/-- The calls of a fixture append its table. -/
theorem build?_calls_append {tree : Tree} {parent : Option Nat} (h : Fits tree parent)
    (fixture : Fixture) : ∃ built, tree.build? (calls parent tree.size fixture) = some built ∧
      built.nodes = tree.nodes ++ (flatten parent tree.size fixture).toArray := by
  cases fixture with
  | mk role name description states capabilities attributes children =>
      let fixture : Fixture :=
        ⟨role, name, description, states, capabilities, attributes, children⟩
      obtain ⟨placed, hplaced, hnodes⟩ := call?_placing h role name
      have hsize : placed.size = tree.size + 1 := by simp [Tree.size, hnodes]
      obtain ⟨edited, hedited, hedits⟩ := build?_edits fixture.edits
        (show tree.size < placed.size by omega)
      have hall : edited.nodes = tree.nodes.push ⟨parent, fixture.element⟩ := by
        rw [hedits, hnodes, modify_push_size, ← foldl_apply_edits fixture]
      have hsize' : edited.size = tree.size + 1 := by simp [Tree.size, hall]
      obtain ⟨built, hbuilt, hlast⟩ := build?_callsList
        (show tree.size < edited.size by omega) children
      refine ⟨built, ?_, ?_⟩
      · have hfirst : tree.build?
            (placing parent role name :: fixture.edits.map (.edit tree.size)) = some edited := by
          rw [← hedited, Tree.build?, List.foldlM_cons, hplaced]
          rfl
        rw [calls, ← hsize', build?_append, hfirst]
        exact hbuilt
      · rw [hlast, hall, hsize', flatten]
        simp
        rfl

/-- The calls of fixtures with a common parent append their tables. -/
theorem build?_callsList {tree : Tree} {parent : Nat} (h : parent < tree.size)
    (fixtures : List Fixture) : ∃ built,
      tree.build? (callsList parent tree.size fixtures) = some built ∧
      built.nodes = tree.nodes ++ (flattenList parent tree.size fixtures).toArray := by
  cases fixtures with
  | nil => exact ⟨tree, rfl, by simp [flattenList]⟩
  | cons fixture rest =>
      obtain ⟨first, hfirst, hnodes⟩ := build?_calls_append
        (show Fits tree (some parent) from h) fixture
      have hsize : first.size = tree.size + fixture.count := by
        simp [Tree.size, hnodes, length_flatten]
      obtain ⟨built, hbuilt, hlast⟩ := build?_callsList (show parent < first.size by omega) rest
      refine ⟨built, ?_, ?_⟩
      · rw [callsList, build?_append, hfirst, ← hsize]
        exact hbuilt
      · rw [hlast, hnodes, flattenList, ← hsize]
        simp

end

/-- The calls of a fixture build its tree. -/
theorem build?_calls (fixture : Fixture) :
    Tree.empty.build? (fixture.calls none 0) = some (Tree.ofFixture fixture) := by
  obtain ⟨built, hbuilt, hnodes⟩ := build?_calls_append (show Fits Tree.empty none from rfl)
    fixture
  refine hbuilt.trans (congrArg some (Tree.ext_nodes ?_))
  rw [hnodes]
  simp [Tree.empty, Tree.ofFixture, Tree.size]

end Fixture

end AccessQuery
