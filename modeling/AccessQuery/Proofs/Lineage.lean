/-
**Ancestors.**

A node is above another when it is found on the way from the other up to the root.  Ancestors stand
earlier in the table of a tree, so nothing is above itself, and two ancestors of one node are one or
stand above one another.

Main definitions:

* `AccessQuery.Tree.Above` — proper ancestors;
* `AccessQuery.Tree.AtOrAbove` — ancestors and the node itself.

Main results:

* `AccessQuery.Tree.Above.lt`, `AccessQuery.Tree.Above.trans` — a strict order;
* `AccessQuery.Tree.Above.comparable` — the ancestors of a node are a chain;
* `AccessQuery.Tree.depth_of_root`, `AccessQuery.Tree.depth_of_parent` — depths, from the root down.
-/

import Mathlib.Data.List.FinRange
import AccessQuery.Tree

set_option relaxedAutoImplicit false
set_option autoImplicit false

namespace AccessQuery.Tree

/-- One node is a proper ancestor of another. -/
inductive Above (tree : Tree) (a : tree.NodeId) : tree.NodeId → Prop
  | parent {x : tree.NodeId} : tree.parent? x = some a → Above tree a x
  | up {x y : tree.NodeId} : tree.parent? y = some x → Above tree a x → Above tree a y

namespace Above

variable {tree : Tree} {a b x y : tree.NodeId}

theorem iff_parent : tree.Above a x ↔ ∃ p, tree.parent? x = some p ∧ (p = a ∨ tree.Above a p) := by
  constructor
  · rintro (h | ⟨h, ha⟩)
    · exact ⟨a, h, Or.inl rfl⟩
    · exact ⟨_, h, Or.inr ha⟩
  · rintro ⟨p, h, rfl | ha⟩
    · exact .parent h
    · exact .up h ha

theorem lt (h : tree.Above a x) : a < x := by
  induction h with
  | parent h => exact tree.parent?_lt h
  | up h _ ih => exact Fin.lt_trans ih (tree.parent?_lt h)

theorem irrefl (x : tree.NodeId) : ¬ tree.Above x x :=
  fun h => absurd h.lt (Fin.lt_irrefl x)

theorem trans (hab : tree.Above a b) (hbx : tree.Above b x) : tree.Above a x := by
  induction hbx with
  | parent h => exact .up h hab
  | up h _ ih => exact .up h ih

theorem asymm (h : tree.Above a x) : ¬ tree.Above x a :=
  fun h' => irrefl a (h.trans h')

/-- Two ancestors of a node are one, or one is above the other. -/
theorem comparable (ha : tree.Above a x) (hb : tree.Above b x) :
    a = b ∨ tree.Above a b ∨ tree.Above b a := by
  induction ha with
  | parent h =>
      obtain ⟨p, hp, hb⟩ := iff_parent.1 hb
      obtain rfl : p = a := Option.some.inj (hp.symm.trans h)
      rcases hb with rfl | hb
      · exact Or.inl rfl
      · exact Or.inr (Or.inr hb)
  | up h ha ih =>
      obtain ⟨p, hp, hb⟩ := iff_parent.1 hb
      obtain rfl := Option.some.inj (hp.symm.trans h)
      rcases hb with rfl | hb
      · exact Or.inr (Or.inl ha)
      · exact ih hb

/-- The first node on the way down. -/
theorem head (h : tree.Above a x) : ∃ b, tree.parent? b = some a ∧ (x = b ∨ tree.Above b x) := by
  induction h with
  | parent h => exact ⟨_, h, Or.inl rfl⟩
  | up h _ ih =>
      obtain ⟨b, hb, rfl | hx⟩ := ih
      · exact ⟨_, hb, Or.inr (.parent h)⟩
      · exact ⟨b, hb, Or.inr (.up h hx)⟩

/-- What is above a child is its parent, or above it. -/
theorem of_child {p : tree.NodeId} (hp : tree.parent? x = some p) (h : tree.Above a x) :
    a = p ∨ tree.Above a p := by
  obtain ⟨q, hq, ha⟩ := iff_parent.1 h
  obtain rfl := Option.some.inj (hq.symm.trans hp)
  exact ha.imp_left Eq.symm

theorem iff_of_child {p : tree.NodeId} (hp : tree.parent? x = some p) :
    tree.Above a x ↔ a = p ∨ tree.Above a p := by
  constructor
  · exact of_child hp
  · rintro (rfl | h)
    · exact .parent hp
    · exact .up hp h

theorem not_of_root (hp : tree.parent? x = none) : ¬ tree.Above a x := by
  intro h
  obtain ⟨p, hp', _⟩ := iff_parent.1 h
  rw [hp] at hp'
  cases hp'

end Above

/-- Whether a node is found on the way from another up to the root. -/
def isAbove (tree : Tree) (a x : tree.NodeId) : Bool :=
  match h : tree.parent? x with
  | none => false
  | some p =>
      have := tree.parent?_lt h
      p == a || isAbove tree a p
termination_by x.val

theorem isAbove_iff {tree : Tree} {a x : tree.NodeId} :
    tree.isAbove a x = true ↔ tree.Above a x := by
  -- on the place of the node, whose parent stands before it
  induction hn : x.val using Nat.strongRecOn generalizing x with
  | ind n ih =>
      rw [isAbove]
      split
      · next hp => simp [Above.not_of_root hp]
      · next p hp =>
          rw [Bool.or_eq_true, beq_iff_eq, ih p.val (hn ▸ tree.parent?_lt hp) rfl,
            Above.iff_of_child hp]
          exact or_congr eq_comm Iff.rfl

instance (tree : Tree) (a x : tree.NodeId) : Decidable (tree.Above a x) :=
  decidable_of_iff _ isAbove_iff

/-- One node is on the way from the root down to another: the other itself, or above it. -/
def AtOrAbove (tree : Tree) (a x : tree.NodeId) : Prop :=
  a = x ∨ tree.Above a x

instance (tree : Tree) (a x : tree.NodeId) : Decidable (tree.AtOrAbove a x) :=
  inferInstanceAs (Decidable (_ ∨ _))

section AtOrAbove

variable {tree : Tree} {a b x : tree.NodeId}

theorem Above.of_atOrAbove (hab : tree.Above a b) (h : tree.AtOrAbove b x) : tree.Above a x := by
  rcases h with rfl | h
  · exact hab
  · exact hab.trans h

theorem AtOrAbove.trans (hab : tree.AtOrAbove a b) (h : tree.AtOrAbove b x) :
    tree.AtOrAbove a x := by
  rcases hab with rfl | hab
  · exact h
  · exact Or.inr (hab.of_atOrAbove h)

theorem AtOrAbove.comparable (ha : tree.AtOrAbove a x) (hb : tree.AtOrAbove b x) :
    a = b ∨ tree.Above a b ∨ tree.Above b a := by
  rcases ha with rfl | ha
  · rcases hb with rfl | hb
    · exact Or.inl rfl
    · exact Or.inr (Or.inr hb)
  · rcases hb with rfl | hb
    · exact Or.inr (Or.inl ha)
    · exact ha.comparable hb

end AtOrAbove

theorem nodup_children (tree : Tree) (node : tree.NodeId) : (tree.children node).Nodup :=
  (List.nodup_finRange _).filter _

theorem above_of_mem_children {tree : Tree} {node child : tree.NodeId}
    (h : child ∈ tree.children node) : tree.Above node child :=
  .parent (tree.mem_children.1 h)

/-! ### Depths -/

section Depth

variable {tree : Tree}

theorem map_val_parent? (node : tree.NodeId) :
    (tree.parent? node).map Fin.val = tree.nodes[node].parent := by
  unfold parent?
  split
  · next h => exact h.symm
  · next p h => exact h.symm

theorem depth_of_root {node : tree.NodeId} (h : tree.parent? node = none) :
    tree.depth node = 0 := by
  rw [depth]
  split
  · rfl
  · next parent hp => rw [hp] at h; cases h

theorem depth_of_parent {node parent : tree.NodeId} (h : tree.parent? node = some parent) :
    tree.depth node = tree.depth parent + 1 := by
  rw [depth]
  split
  · next hn => rw [hn] at h; cases h
  · next p hp =>
      obtain rfl := Option.some.inj (hp.symm.trans h)
      rfl

end Depth

end AccessQuery.Tree
