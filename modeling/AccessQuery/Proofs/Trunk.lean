/-
**What is left of a tree.**

When nodes of a tree are deleted with everything below them, the nodes that are left are again a
tree, in the order of the old table.  Every node of the new tree comes from a node of the old one.
Parents and depths stay what they were, children are those that are left, and a node reports the
same attributes, but for its place among its siblings and the number of its children.

Main definitions:

* `AccessQuery.Tree.Trunk` — a choice of nodes to leave, `AccessQuery.Tree.Trunk.cut` the tree of
  them, `AccessQuery.Tree.Trunk.origin` the node that one of them comes from;
* `AccessQuery.Snapshot.AgreeUncounted` — the same attributes, but for those two.

Main results:

* `AccessQuery.Tree.Trunk.parent?_origin`, `AccessQuery.Tree.Trunk.map_children` — the shape of what
  is left;
* `AccessQuery.Tree.Trunk.attributes_origin` — what its nodes report.
-/

import AccessQuery.Proofs.Lineage

set_option relaxedAutoImplicit false
set_option autoImplicit false

namespace AccessQuery

/-! ### Snapshots -/

namespace Snapshot

variable {s t : Snapshot}

/-- Two snapshots have the same attributes, except perhaps for the place of the node among its
siblings and the number of its children. -/
def AgreeUncounted (s t : Snapshot) : Prop :=
  ∀ key : String, key ≠ AttrName.indexInParent → key ≠ AttrName.childrenCount →
    s.entries[key]? = t.entries[key]?

theorem AgreeUncounted.insert (h : s.AgreeUncounted t) (name : String) (value : AttrValue) :
    (s.insert name value).AgreeUncounted (t.insert name value) := by
  intro key hindex hcount
  rw [entries_insert, entries_insert, h key hindex hcount]

theorem AgreeUncounted.insert_counted (h : s.AgreeUncounted t) {name : String}
    (hn : canonicalName name = AttrName.indexInParent ∨ canonicalName name = AttrName.childrenCount)
    (v w : AttrValue) : (s.insert name v).AgreeUncounted (t.insert name w) := by
  intro key hindex hcount
  have hne : canonicalName name ≠ key := by
    rintro rfl
    exact hn.elim hindex hcount
  rw [entries_insert, entries_insert, if_neg hne, if_neg hne, h key hindex hcount]

theorem AgreeUncounted.get? (h : s.AgreeUncounted t) {name : String}
    (hindex : canonicalName name ≠ AttrName.indexInParent)
    (hcount : canonicalName name ≠ AttrName.childrenCount) : s.get? name = t.get? name := by
  -- a name that is spelled canonically is its own canonical spelling
  have hne {canonical : String} (hc : canonicalName canonical = canonical)
      (hn : canonicalName name ≠ canonical) : name ≠ canonical := by
    rintro rfl
    exact hn hc
  rw [Snapshot.get?, Snapshot.get?, h _ hindex hcount,
    h _ (hne (by decide +kernel) hindex) (hne (by decide +kernel) hcount)]

theorem AgreeUncounted.text? (h : s.AgreeUncounted t) {name : String}
    (hindex : canonicalName name ≠ AttrName.indexInParent)
    (hcount : canonicalName name ≠ AttrName.childrenCount) : s.text? name = t.text? name := by
  rw [Snapshot.text?, Snapshot.text?, h.get? hindex hcount]

theorem AgreeUncounted.role? (h : s.AgreeUncounted t) : s.role? = t.role? := by
  rw [Snapshot.role?, Snapshot.role?, h.text? (by decide +kernel) (by decide +kernel),
    h.text? (by decide +kernel) (by decide +kernel)]

theorem AgreeUncounted.textContent? (h : s.AgreeUncounted t) :
    s.textContent? = t.textContent? := by
  rw [Snapshot.textContent?, Snapshot.textContent?, Snapshot.name?, Snapshot.name?,
    h.text? (by decide +kernel) (by decide +kernel),
    h.text? (by decide +kernel) (by decide +kernel)]

/-- Empty sets of states are written to both, or to neither. -/
theorem AgreeUncounted.insert_missing_states (h : s.AgreeUncounted t) :
    (if s.get? AttrName.states = none then
      (s.insert AttrName.states (.states ∅)).insert AttrName.statesEnUs (.states ∅)
    else s).AgreeUncounted
    (if t.get? AttrName.states = none then
      (t.insert AttrName.states (.states ∅)).insert AttrName.statesEnUs (.states ∅)
    else t) := by
  rw [h.get? (by decide +kernel) (by decide +kernel)]
  split
  · exact (h.insert _ _).insert _ _
  · exact h

end Snapshot

namespace Tree

variable {tree : Tree}

/-! ### Trunks -/

/-- A choice of nodes that contains the parents of its nodes. -/
structure Trunk (tree : Tree) where
  /-- The nodes that are left. -/
  keeps : tree.NodeId → Bool
  /-- With a node, its parent is left. -/
  keeps_parent : ∀ {node parent : tree.NodeId}, tree.parent? node = some parent →
    keeps node = true → keeps parent = true

namespace Trunk

variable (t : Trunk tree)

/-- The nodes that are left, in the order of the table. -/
def kept : List tree.NodeId :=
  (List.finRange tree.size).filter t.keeps

theorem mem_kept {node : tree.NodeId} : node ∈ t.kept ↔ t.keeps node = true := by
  simp [kept]

theorem kept_pairwise : t.kept.Pairwise (· < ·) :=
  (List.pairwise_lt_finRange _).filter _

theorem getElem_kept_lt {i j : Nat} (hj : j < t.kept.length) (hij : i < j) :
    t.kept[i] < t.kept[j] :=
  List.pairwise_iff_getElem.1 t.kept_pairwise i j (by omega) hj hij

/-- The entry of a node in the table of what is left. -/
def entry (node : tree.NodeId) : Node :=
  ⟨(tree.parent? node).map t.kept.idxOf, tree.element node⟩

theorem idxOf_lt_of_parent {i : Nat} (h : i < t.kept.length) {parent : tree.NodeId}
    (hp : tree.parent? t.kept[i] = some parent) : t.kept.idxOf parent < i := by
  have hkept : parent ∈ t.kept :=
    t.mem_kept.2 (t.keeps_parent hp (t.mem_kept.1 (List.getElem_mem h)))
  have hidx := List.idxOf_lt_length_iff.2 hkept
  have hget : t.kept[t.kept.idxOf parent] = parent := List.getElem_idxOf hidx
  by_contra hn
  -- otherwise the parent would not stand before the node in the old table
  have hle : t.kept[i] ≤ parent := by
    rcases Nat.lt_or_eq_of_le (not_lt.1 hn) with hlt | heq
    · exact hget ▸ le_of_lt (t.getElem_kept_lt hidx hlt)
    · exact hget ▸ le_of_eq (by simp only [← heq])
  exact absurd (tree.parent?_lt hp) (not_lt.2 hle)

/-- The tree of the nodes that are left. -/
def cut : Tree where
  nodes := (t.kept.map t.entry).toArray
  eq_zero_of_parent i h hn := by
    have hi : i < t.kept.length := by simpa using h
    have hroot : tree.parent? t.kept[i] = none := by simpa [entry] using hn
    have hzero := tree.root?_eq_some_iff.1 (tree.parent?_eq_none_iff.1 hroot)
    by_contra hne
    have hlt := t.getElem_kept_lt hi (Nat.pos_of_ne_zero hne)
    rw [Fin.lt_def, hzero] at hlt
    exact absurd hlt (Nat.not_lt_zero _)
  parent_lt i h p hp := by
    have hi : i < t.kept.length := by simpa using h
    obtain ⟨parent, hparent, rfl⟩ : ∃ parent, tree.parent? t.kept[i] = some parent ∧
        t.kept.idxOf parent = p := by simpa [entry] using hp
    exact t.idxOf_lt_of_parent hi hparent

theorem size_cut : t.cut.size = t.kept.length := by
  simp [cut, size]

theorem size_cut_le : t.cut.size ≤ tree.size := by
  rw [size_cut]
  exact (List.length_filter_le _ _).trans (by simp)

/-- The node of the old tree that a node of the new one comes from. -/
def origin (node : t.cut.NodeId) : tree.NodeId :=
  t.kept.get (node.cast t.size_cut)

theorem keeps_origin (node : t.cut.NodeId) : t.keeps (t.origin node) = true :=
  t.mem_kept.1 (List.getElem_mem _)

theorem origin_lt {a b : t.cut.NodeId} (h : a < b) : t.origin a < t.origin b :=
  t.getElem_kept_lt _ h

theorem origin_injective : Function.Injective t.origin := by
  intro a b h
  rcases lt_trichotomy a b with hab | hab | hab
  · exact absurd h (ne_of_lt (t.origin_lt hab))
  · exact hab
  · exact absurd h.symm (ne_of_lt (t.origin_lt hab))

/-- The place in the new tree of a node that is left. -/
def left (node : tree.NodeId) (h : t.keeps node = true) : t.cut.NodeId :=
  ⟨t.kept.idxOf node, t.size_cut.symm ▸ List.idxOf_lt_length_iff.2 (t.mem_kept.2 h)⟩

theorem origin_left (node : tree.NodeId) (h : t.keeps node = true) :
    t.origin (t.left node h) = node :=
  List.getElem_idxOf (List.idxOf_lt_length_iff.2 (t.mem_kept.2 h))

theorem map_origin : (List.finRange t.cut.size).map t.origin = t.kept := by
  refine List.ext_getElem (by simp [size_cut]) fun i hi hi' => ?_
  simp [origin]

/-! ### The shape of what is left -/

theorem nodes_cut (node : t.cut.NodeId) : t.cut.nodes[node] = t.entry (t.origin node) := by
  have h : node.val < (t.kept.map t.entry).length := by simpa [size_cut] using node.isLt
  exact (List.getElem_toArray h).trans (List.getElem_map t.entry)

theorem element_origin (node : t.cut.NodeId) :
    t.cut.element node = tree.element (t.origin node) := by
  rw [element, nodes_cut]
  rfl

/-- What is left below a node was below it before. -/
theorem parent?_origin (node : t.cut.NodeId) :
    tree.parent? (t.origin node) = (t.cut.parent? node).map t.origin := by
  have hentry : (t.cut.parent? node).map Fin.val =
      (tree.parent? (t.origin node)).map t.kept.idxOf := by
    rw [map_val_parent?, nodes_cut]
    rfl
  cases hold : tree.parent? (t.origin node) with
  | none =>
      rw [hold, Option.map_none, Option.map_eq_none_iff] at hentry
      rw [hentry, Option.map_none]
  | some parent =>
      rw [hold, Option.map_some, Option.map_eq_some_iff] at hentry
      obtain ⟨place, hplace, hval⟩ := hentry
      have hkeeps := t.keeps_parent hold (t.keeps_origin node)
      obtain rfl : place = t.left parent hkeeps := Fin.ext hval
      rw [hplace, Option.map_some, origin_left]

theorem above_origin {a x : t.cut.NodeId} (h : t.cut.Above a x) :
    tree.Above (t.origin a) (t.origin x) := by
  induction h with
  | parent hp => exact .parent (by rw [t.parent?_origin, hp, Option.map_some])
  | up hp _ ih => exact .up (by rw [t.parent?_origin, hp, Option.map_some]) ih

theorem atOrAbove_origin {a x : t.cut.NodeId} (h : t.cut.AtOrAbove a x) :
    tree.AtOrAbove (t.origin a) (t.origin x) :=
  h.imp (congrArg t.origin) t.above_origin

theorem map_children (node : t.cut.NodeId) :
    (t.cut.children node).map t.origin = (tree.children (t.origin node)).filter t.keeps := by
  have hparent (child : t.cut.NodeId) : (t.cut.parent? child == some node) =
      (tree.parent? (t.origin child) == some (t.origin node)) := by
    rw [Bool.eq_iff_iff, beq_iff_eq, beq_iff_eq, t.parent?_origin, Option.map_eq_some_iff]
    constructor
    · intro h
      exact ⟨node, h, rfl⟩
    · rintro ⟨parent, hp, ho⟩
      exact t.origin_injective ho ▸ hp
  have hfilter := List.filter_map (f := t.origin)
    (p := fun child => tree.parent? child == some (t.origin node)) (l := List.finRange t.cut.size)
  rw [t.map_origin] at hfilter
  rw [children, List.filter_congr fun child _ => hparent child]
  refine hfilter.symm.trans ?_
  rw [kept, children, List.filter_filter, List.filter_filter]
  simp only [Bool.and_comm]

theorem depth_origin (node : t.cut.NodeId) : t.cut.depth node = tree.depth (t.origin node) := by
  -- on the place of the node, whose parent stands before it
  induction hn : node.val using Nat.strongRecOn generalizing node with
  | ind n ih =>
      have hold := t.parent?_origin node
      cases hp : t.cut.parent? node with
      | none =>
          rw [hp, Option.map_none] at hold
          rw [depth_of_root hp, depth_of_root hold]
      | some parent =>
          rw [hp, Option.map_some] at hold
          rw [depth_of_parent hp, depth_of_parent hold,
            ih parent.val (hn ▸ t.cut.parent?_lt hp) parent rfl]

/-! ### What its nodes report -/

theorem attributes_origin (node : t.cut.NodeId) :
    (t.cut.attributes node).AgreeUncounted (tree.attributes (t.origin node)) := by
  have hwritten : (t.cut.element node).written.AgreeUncounted
      (tree.element (t.origin node)).written := by
    intro key _ _
    rw [t.element_origin]
  have hindex : canonicalName AttrName.indexInParent = AttrName.indexInParent := by decide +kernel
  have hcount : canonicalName AttrName.childrenCount = AttrName.childrenCount := by decide +kernel
  unfold attributes
  rw [t.depth_origin]
  refine Snapshot.AgreeUncounted.insert_missing_states ?_
  refine Snapshot.AgreeUncounted.insert ?_ _ _
  exact (hwritten.insert_counted (Or.inl hindex) _ _).insert_counted (Or.inr hcount) _ _

end Trunk

end Tree

end AccessQuery
