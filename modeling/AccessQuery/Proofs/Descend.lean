/-
**The nodes below a node.**

Going down from a node by its children, each child before what lies below it, meets everything that
is seen below the node within some number of levels, in document order.

Main definitions:

* `AccessQuery.Tree.descend` — the nodes that are met.

Main results:

* `AccessQuery.Tree.mem_descend`, `AccessQuery.Tree.mem_descend_one` — which nodes are met;
* `AccessQuery.Tree.descend_pairwise` — and in which order;
* `AccessQuery.Tree.descend_eq_of_le` — more fuel than there are levels makes no difference.
-/

import AccessQuery.Proofs.DocumentOrder
import AccessQuery.Proofs.Selection

set_option relaxedAutoImplicit false
set_option autoImplicit false

namespace AccessQuery

variable {tree : Tree}

namespace Tree

variable {options : ResolveOptions} {c x : tree.NodeId}

/-- The nodes that a walk meets below a node, children at some depth first.  The fuel bounds the
number of levels. -/
def descend (tree : Tree) (options : ResolveOptions) :
    Nat → Nat → tree.NodeId → List tree.NodeId
  | 0, _, _ => []
  | fuel + 1, depth, node => (tree.seenChildren options node).flatMap fun child =>
      child :: if options.allowsBelow depth then descend tree options fuel (depth + 1) child else []

theorem mem_descend_succ {fuel depth : Nat} : x ∈ tree.descend options (fuel + 1) depth c ↔
    ∃ y ∈ tree.seenChildren options c, x = y ∨
      options.allowsBelow depth = true ∧ x ∈ tree.descend options fuel (depth + 1) y := by
  rw [descend, List.mem_flatMap]
  refine exists_congr fun y => and_congr_right fun _ => ?_
  rw [List.mem_cons]
  by_cases h : options.allowsBelow depth = true
  · simp [h]
  · simp [h]

/-- What a walk meets lies below the context, by some number of levels that the options allow. -/
theorem mem_descend {fuel depth : Nat} : x ∈ tree.descend options fuel depth c ↔
    ∃ n, n < fuel ∧ tree.SeenBelow options c (n + 1) x ∧
      (n = 0 ∨ options.allowsBelow (depth + n - 1) = true) := by
  induction fuel generalizing depth c with
  | zero => simp [descend]
  | succ fuel ih =>
      rw [mem_descend_succ]
      constructor
      · rintro ⟨y, hy, rfl | ⟨hd, hx⟩⟩
        · exact ⟨0, by omega, .child hy, Or.inl rfl⟩
        · obtain ⟨n, hn, hx, ha⟩ := ih.1 hx
          refine ⟨n + 1, by omega, ?_, Or.inr ?_⟩
          · have h := (SeenBelow.child hy).trans hx
            rwa [Nat.add_comm 1] at h
          · rcases ha with rfl | ha
            · exact hd
            · rwa [show depth + (n + 1) - 1 = depth + 1 + n - 1 by omega]
      · rintro ⟨n, hn, hx, ha⟩
        obtain ⟨y, hy, hx⟩ := hx.head
        cases n with
        | zero => exact ⟨y, hy, Or.inl hx.eq_of_zero⟩
        | succ n =>
            have ha : options.allowsBelow (depth + n) = true := ha.resolve_left (by omega)
            refine ⟨y, hy, Or.inr ⟨options.allowsBelow_anti (by omega) ha,
              ih.2 ⟨n, by omega, hx, ?_⟩⟩⟩
            rcases Nat.eq_zero_or_pos n with hn | hn
            · exact Or.inl hn
            · exact Or.inr (by rwa [show depth + 1 + n - 1 = depth + n by omega])

/-- A walk from a context meets everything below it that is within reach. -/
theorem mem_descend_one : x ∈ tree.descend options tree.size 1 c ↔
    ∃ n, options.reaches n ∧ tree.SeenBelow options c n x := by
  rw [mem_descend]
  constructor
  · rintro ⟨n, _, hx, ha⟩
    refine ⟨n + 1, ⟨by omega, fun bound hb => ?_⟩, hx⟩
    rcases ha with rfl | ha
    · omega
    · simp only [ResolveOptions.allowsBelow, Option.mem_def.1 hb, decide_eq_true_eq] at ha
      omega
  · rintro ⟨n, ⟨hn, hr⟩, hx⟩
    obtain ⟨n, rfl⟩ := Nat.exists_eq_succ_of_ne_zero (Nat.one_le_iff_ne_zero.1 hn)
    refine ⟨n, ?_, hx, ?_⟩
    · have := hx.add_le
      omega
    · by_cases h0 : n = 0
      · exact Or.inl h0
      · refine Or.inr ?_
        unfold ResolveOptions.allowsBelow
        split
        · rfl
        · next bound hb =>
            have := hr bound (Option.mem_def.2 hb)
            exact decide_eq_true (by omega)

theorem above_of_mem_descend {fuel depth : Nat}
    (h : x ∈ tree.descend options fuel depth c) : tree.Above c x := by
  obtain ⟨n, _, hx, _⟩ := mem_descend.1 h
  exact hx.above

/-- A walk meets nodes in document order. -/
theorem descend_pairwise (tree : Tree) (options : ResolveOptions) (fuel depth : Nat)
    (node : tree.NodeId) : (tree.descend options fuel depth node).Pairwise tree.Precedes := by
  induction fuel generalizing depth node with
  | zero => exact List.Pairwise.nil
  | succ fuel ih =>
      have hmem {child x : tree.NodeId}
          (h : x ∈ child :: if options.allowsBelow depth then
            tree.descend options fuel (depth + 1) child else []) :
          x = child ∨ tree.Above child x := by
        rcases List.mem_cons.1 h with rfl | h
        · exact Or.inl rfl
        · split at h
          · exact Or.inr (above_of_mem_descend h)
          · cases h
      rw [descend, List.pairwise_flatMap]
      refine ⟨fun child _ => List.pairwise_cons.2 ⟨fun x hx => ?_, ?_⟩, ?_⟩
      · split at hx
        · exact .of_above (above_of_mem_descend hx)
        · cases hx
      · split
        · exact ih (depth + 1) child
        · exact List.Pairwise.nil
      · refine ((tree.children_pairwise node).sublist
          (tree.seenChildren_sublist options node)).imp_of_mem fun ha hb hab x hx y hy => ?_
        exact .of_siblings (parent?_of_seen ha) (parent?_of_seen hb) hab (hmem hx) (hmem hy)

/-- What is met was a child of the node, or of one below it. -/
theorem exists_parent_of_mem_descend {fuel depth : Nat}
    (h : x ∈ tree.descend options fuel depth c) :
    ∃ p, tree.AtOrAbove c p ∧ x ∈ tree.seenChildren options p := by
  induction fuel generalizing depth c with
  | zero => exact absurd h List.not_mem_nil
  | succ fuel ih =>
      obtain ⟨y, hy, rfl | ⟨-, hx⟩⟩ := mem_descend_succ.1 h
      · exact ⟨c, Or.inl rfl, hy⟩
      · obtain ⟨p, hyp, hx⟩ := ih hx
        exact ⟨p, Or.inr (Above.of_atOrAbove (.parent (parent?_of_seen hy)) hyp), hx⟩

/-- How far a walk goes does not depend on the fuel, once there is enough of it. -/
theorem descend_eq_of_le {fuel more depth : Nat} {node : tree.NodeId}
    (hf : tree.size ≤ node.val + fuel) (hle : fuel ≤ more) :
    tree.descend options fuel depth node = tree.descend options more depth node := by
  induction fuel generalizing more depth node with
  | zero => exact absurd node.isLt (by omega)
  | succ fuel ih =>
      obtain ⟨more, rfl⟩ := Nat.exists_eq_succ_of_ne_zero (by omega : more ≠ 0)
      rw [descend, descend]
      refine List.flatMap_congr fun child hc => ?_
      have hlt : node.val < child.val := tree.parent?_lt (parent?_of_seen hc)
      have hchild : tree.descend options fuel (depth + 1) child =
          tree.descend options more (depth + 1) child := ih (by omega) (by omega)
      rw [hchild]

end Tree

end AccessQuery
