/-
**Document order.**

The trail of a node lists the nodes on the way from the root down to it.  One node precedes another
in document order when its trail is the smaller one: either a beginning of the other, so that the
node is an ancestor, or smaller where the two ways part.

Main definitions:

* `AccessQuery.Tree.trail` — the way from the root;
* `AccessQuery.Tree.Precedes` — document order;
* `AccessQuery.Tree.preorder` — a node and everything below it, depth first.

Main results:

* `AccessQuery.Tree.Precedes.of_above`, `AccessQuery.Tree.Precedes.of_siblings` — what precedes
  what;
* `AccessQuery.Tree.preorder_pairwise`, `AccessQuery.Tree.mem_preorder` — a depth-first walk lists
  the nodes in document order.
-/

import AccessQuery.Proofs.Lineage

set_option relaxedAutoImplicit false
set_option autoImplicit false

namespace AccessQuery.Tree

variable {tree : Tree} {a b p x y : tree.NodeId}

/-! ### Trails -/

/-- The nodes on the way from the root down to a node, the node included. -/
def trail (tree : Tree) (node : tree.NodeId) : List Nat :=
  match h : tree.parent? node with
  | none => [node.val]
  | some parent =>
      have := tree.parent?_lt h
      trail tree parent ++ [node.val]
termination_by node.val

theorem trail_of_parent (h : tree.parent? x = some p) : tree.trail x = tree.trail p ++ [x.val] := by
  rw [trail]
  split
  · next hn => rw [hn] at h; cases h
  · next q hq =>
      obtain rfl := Option.some.inj (hq.symm.trans h)
      rfl

theorem trail_of_root (h : tree.parent? x = none) : tree.trail x = [x.val] := by
  rw [trail]
  split
  · rfl
  · next q hq => rw [hq] at h; cases h

theorem trail_eq_concat (x : tree.NodeId) : ∃ rest, tree.trail x = rest ++ [x.val] := by
  cases h : tree.parent? x with
  | none => exact ⟨[], trail_of_root h⟩
  | some p => exact ⟨_, trail_of_parent h⟩

theorem trail_injective (h : tree.trail x = tree.trail y) : x = y := by
  obtain ⟨r, hr⟩ := tree.trail_eq_concat x
  obtain ⟨s, hs⟩ := tree.trail_eq_concat y
  rw [hr, hs] at h
  exact Fin.ext (List.append_inj_right' h rfl |> List.singleton_inj.1)

theorem trail_of_above (h : tree.Above a x) :
    ∃ z rest, tree.trail x = tree.trail a ++ z :: rest := by
  induction h with
  | parent h => exact ⟨_, [], trail_of_parent h⟩
  | @up x y h _ ih =>
      obtain ⟨z, rest, hr⟩ := ih
      exact ⟨z, rest ++ [y.val], by rw [trail_of_parent h, hr]; simp⟩

theorem trail_of_eq_or_above (h : x = a ∨ tree.Above a x) :
    ∃ rest, tree.trail x = tree.trail a ++ rest := by
  rcases h with rfl | h
  · exact ⟨[], by simp⟩
  · obtain ⟨z, rest, hr⟩ := trail_of_above h
    exact ⟨z :: rest, hr⟩

theorem eq_or_above_of_trail (h : tree.trail a <+: tree.trail x) : a = x ∨ tree.Above a x := by
  -- on the place of the node, whose parent stands before it
  induction hn : x.val using Nat.strongRecOn generalizing x with
  | ind n ih =>
      cases hp : tree.parent? x with
      | none =>
          obtain ⟨rest, hrest⟩ := tree.trail_eq_concat a
          rw [trail_of_root hp, ← List.nil_append [x.val], List.prefix_concat_iff] at h
          rcases h with h | h
          · exact Or.inl (trail_injective (h.trans (trail_of_root hp).symm))
          · simp [hrest] at h
      | some p =>
          rw [trail_of_parent hp, List.prefix_concat_iff] at h
          rcases h with h | h
          · exact Or.inl (trail_injective (h.trans (trail_of_parent hp).symm))
          · rcases ih p.val (hn ▸ tree.parent?_lt hp) h rfl with rfl | ha
            · exact Or.inr (.parent hp)
            · exact Or.inr (.up hp ha)

/-- Lists that part are in the same order whatever follows. -/
theorem append_lt_append {l m : List Nat} (h : l < m) (hp : ¬ l <+: m) (r s : List Nat) :
    l ++ r < m ++ s := by
  induction l generalizing m with
  | nil => exact absurd List.nil_prefix hp
  | cons a l ih =>
      cases m with
      | nil => exact absurd h (List.not_lt_nil _)
      | cons b m =>
          rw [List.cons_append, List.cons_append]
          rcases List.cons_lt_cons_iff.1 h with hab | ⟨rfl, hlm⟩
          · exact List.cons_lt_cons_iff.2 (Or.inl hab)
          · refine List.cons_lt_cons_iff.2 (Or.inr ⟨rfl, ih hlm fun hp' => hp ?_⟩)
            exact (List.prefix_cons_inj a).2 hp'

/-! ### Document order -/

/-- One node comes before another in document order. -/
def Precedes (tree : Tree) (x y : tree.NodeId) : Prop :=
  tree.trail x < tree.trail y

instance (tree : Tree) (x y : tree.NodeId) : Decidable (tree.Precedes x y) :=
  inferInstanceAs (Decidable (tree.trail x < tree.trail y))

namespace Precedes

theorem irrefl (x : tree.NodeId) : ¬ tree.Precedes x x :=
  List.lt_irrefl _

theorem trans {z : tree.NodeId} (h : tree.Precedes x y) (h' : tree.Precedes y z) :
    tree.Precedes x z :=
  List.lt_trans h h'

theorem asymm (h : tree.Precedes x y) : ¬ tree.Precedes y x :=
  fun h' => irrefl x (h.trans h')

theorem total (h : x ≠ y) : tree.Precedes x y ∨ tree.Precedes y x := by
  by_contra hn
  rw [not_or] at hn
  exact h (trail_injective (List.le_antisymm (List.not_lt.1 hn.2) (List.not_lt.1 hn.1)))

theorem of_above (h : tree.Above x y) : tree.Precedes x y := by
  obtain ⟨z, rest, hr⟩ := trail_of_above h
  have hlt : tree.trail x ++ [] < tree.trail x ++ z :: rest := List.append_left_lt (by simp)
  rwa [List.append_nil, ← hr] at hlt

/-- What lies below the earlier of two siblings precedes what lies below the later one. -/
theorem of_siblings (ha : tree.parent? a = some p) (hb : tree.parent? b = some p) (hab : a < b)
    (hx : x = a ∨ tree.Above a x) (hy : y = b ∨ tree.Above b y) : tree.Precedes x y := by
  obtain ⟨r, hr⟩ := trail_of_eq_or_above hx
  obtain ⟨s, hs⟩ := trail_of_eq_or_above hy
  rw [Precedes, hr, hs, trail_of_parent ha, trail_of_parent hb, List.append_assoc,
    List.append_assoc]
  exact List.append_left_lt (List.cons_lt_cons_iff.2 (Or.inl hab))

/-- What lies below the earlier of two nodes that lie apart precedes what lies below the other. -/
theorem of_apart {c d : tree.NodeId} (h : tree.Precedes c d) (hcd : ¬ tree.Above c d)
    (hx : x = c ∨ tree.Above c x) (hy : y = d ∨ tree.Above d y) : tree.Precedes x y := by
  -- the trails part before either ends, so that nothing below the nodes changes their order
  have hprefix : ¬ tree.trail c <+: tree.trail d := by
    intro hp
    rcases eq_or_above_of_trail hp with rfl | ha
    · exact irrefl _ h
    · exact hcd ha
  obtain ⟨r, hr⟩ := trail_of_eq_or_above hx
  obtain ⟨s, hs⟩ := trail_of_eq_or_above hy
  rw [Precedes, hr, hs]
  exact append_lt_append h hprefix r s

theorem not_above (h : tree.Precedes x y) : ¬ tree.Above y x :=
  fun ha => h.asymm (of_above ha)

end Precedes

/-! ### Depth-first walks -/

/-- A node and everything below it, depth first.  The fuel bounds the number of levels. -/
def preorderWith (tree : Tree) : Nat → tree.NodeId → List tree.NodeId
  | 0, node => [node]
  | fuel + 1, node => node :: (tree.children node).flatMap (preorderWith tree fuel)

/-- A node and everything below it, depth first. -/
def preorder (tree : Tree) (node : tree.NodeId) : List tree.NodeId :=
  tree.preorderWith tree.size node

theorem children_pairwise (tree : Tree) (node : tree.NodeId) :
    (tree.children node).Pairwise (· < ·) :=
  (List.pairwise_lt_finRange _).filter _

theorem eq_or_above_of_mem_preorderWith {fuel : Nat} (h : x ∈ tree.preorderWith fuel a) :
    x = a ∨ tree.Above a x := by
  induction fuel generalizing a with
  | zero => exact Or.inl (List.mem_singleton.1 h)
  | succ fuel ih =>
      rcases List.mem_cons.1 h with rfl | h
      · exact Or.inl rfl
      · obtain ⟨b, hb, hx⟩ := List.mem_flatMap.1 h
        have hab := above_of_mem_children hb
        rcases ih hx with rfl | hx
        · exact Or.inr hab
        · exact Or.inr (hab.trans hx)

/-- Depth first is in document order. -/
theorem preorderWith_pairwise (tree : Tree) (fuel : Nat) (node : tree.NodeId) :
    (tree.preorderWith fuel node).Pairwise tree.Precedes := by
  induction fuel generalizing node with
  | zero => exact List.pairwise_singleton _ _
  | succ fuel ih =>
      rw [preorderWith, List.pairwise_cons, List.pairwise_flatMap]
      refine ⟨fun x hx => ?_, fun child _ => ih child, ?_⟩
      · obtain ⟨b, hb, hx⟩ := List.mem_flatMap.1 hx
        have hab := above_of_mem_children hb
        rcases eq_or_above_of_mem_preorderWith hx with rfl | hx
        · exact .of_above hab
        · exact .of_above (hab.trans hx)
      · refine (tree.children_pairwise node).imp_of_mem fun ha hb hab x hx y hy => ?_
        exact .of_siblings (tree.mem_children.1 ha) (tree.mem_children.1 hb) hab
          (eq_or_above_of_mem_preorderWith hx) (eq_or_above_of_mem_preorderWith hy)

theorem preorder_pairwise (tree : Tree) (node : tree.NodeId) :
    (tree.preorder node).Pairwise tree.Precedes :=
  tree.preorderWith_pairwise tree.size node

theorem mem_preorderWith {fuel : Nat} (h : x = a ∨ tree.Above a x) (hf : x.val < a.val + fuel) :
    x ∈ tree.preorderWith fuel a := by
  induction fuel generalizing a with
  | zero =>
      rcases h with rfl | h
      · omega
      · have hlt : a.val < x.val := h.lt
        omega
  | succ fuel ih =>
      rcases h with rfl | h
      · exact List.mem_cons_self
      · obtain ⟨b, hb, hx⟩ := h.head
        have hlt : a.val < b.val := tree.parent?_lt hb
        exact List.mem_cons_of_mem _ (List.mem_flatMap.2
          ⟨b, tree.mem_children.2 hb, ih hx (by omega)⟩)

/-- A depth-first walk lists a node and everything below it. -/
theorem mem_preorder : x ∈ tree.preorder a ↔ x = a ∨ tree.Above a x :=
  ⟨eq_or_above_of_mem_preorderWith, fun h => mem_preorderWith h (by omega)⟩

end AccessQuery.Tree
