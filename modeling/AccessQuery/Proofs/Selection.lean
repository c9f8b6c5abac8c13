/-
**Which nodes a query selects.**

A query selects from a set of nodes, step by step.  A step relates each of the nodes to candidates
and keeps the candidates that pass its role test and its predicate; what it selects is the union
over the nodes.  Nothing here is said of an order, of handles, or of how candidates are found.

Main definitions:

* `AccessQuery.Tree.seenChildren`, `AccessQuery.Tree.seenPlace` — the children that are taken notice
  of, and the places of nodes among them;
* `AccessQuery.Tree.SeenBelow` — nodes some number of levels below others;
* `AccessQuery.Step.admitsRole`, `AccessQuery.Step.passes`, `AccessQuery.Step.Selects` — the nodes
  that a step selects from one;
* `AccessQuery.selection` — the nodes that steps select from a set.

Main results:

* `AccessQuery.Tree.SeenBelow.between` — a node between two others lies some levels below the one
  and above the other.
-/

import Mathlib.Data.Set.Basic
import AccessQuery.Predicate.Evaluation
import AccessQuery.Proofs.Lineage
import AccessQuery.Query
import AccessQuery.Resolution.Options
import AccessQuery.Siblings

set_option relaxedAutoImplicit false
set_option autoImplicit false

namespace AccessQuery

variable {tree : Tree} {options : ResolveOptions}

namespace Tree

variable {a b c x y : tree.NodeId}

/-! ### Children that are seen -/

/-- The children of a node, without those that lack the state of showing where only visible nodes
are asked for. -/
def seenChildren (tree : Tree) (options : ResolveOptions) (node : tree.NodeId) :
    List tree.NodeId :=
  if options.visibleOnly then
    (tree.children node).filter fun child => (tree.attributes child).hasState "showing"
  else tree.children node

/-- The place of a node among the children of its parent that are seen. -/
def seenPlace (tree : Tree) (options : ResolveOptions) (node : tree.NodeId) : SiblingPosition :=
  match tree.parent? node with
  | none => .alone
  | some parent =>
      ⟨(tree.seenChildren options parent).idxOf node, (tree.seenChildren options parent).length⟩

/-- One node lies a number of levels below another, and every node on the way down is seen. -/
inductive SeenBelow (tree : Tree) (options : ResolveOptions) (a : tree.NodeId) :
    Nat → tree.NodeId → Prop
  | here : SeenBelow tree options a 0 a
  | deeper {n : Nat} {x y : tree.NodeId} :
      SeenBelow tree options a n x → y ∈ tree.seenChildren options x →
      SeenBelow tree options a (n + 1) y

theorem seenChildren_sublist (tree : Tree) (options : ResolveOptions) (node : tree.NodeId) :
    (tree.seenChildren options node).Sublist (tree.children node) := by
  unfold seenChildren
  split
  · exact List.filter_sublist
  · exact List.Sublist.refl _

theorem parent?_of_seen (h : y ∈ tree.seenChildren options x) : tree.parent? y = some x :=
  tree.mem_children.1 ((tree.seenChildren_sublist options x).mem h)

theorem nodup_seenChildren (tree : Tree) (options : ResolveOptions) (node : tree.NodeId) :
    (tree.seenChildren options node).Nodup :=
  (tree.nodup_children node).sublist (tree.seenChildren_sublist options node)

theorem showing_of_seen (h : y ∈ tree.seenChildren options x) (hv : options.visibleOnly = true) :
    (tree.attributes y).isShowing = true := by
  rw [seenChildren, if_pos hv] at h
  rw [Snapshot.isShowing_eq]
  exact (List.mem_filter.1 h).2

/-! ### Levels -/

namespace SeenBelow

variable {m n : Nat}

theorem trans (hb : tree.SeenBelow options a m b) (hx : tree.SeenBelow options b n x) :
    tree.SeenBelow options a (m + n) x := by
  induction hx with
  | here => exact hb
  | deeper _ hy ih => exact .deeper ih hy

theorem child (h : x ∈ tree.seenChildren options a) : tree.SeenBelow options a 1 x :=
  .deeper .here h

/-- The first node on the way down. -/
theorem head (h : tree.SeenBelow options a (n + 1) x) :
    ∃ y ∈ tree.seenChildren options a, tree.SeenBelow options y n x := by
  generalize hm : n + 1 = m at h
  induction h generalizing n with
  | here => cases hm
  | @deeper m z x h hx ih =>
      obtain rfl : n = m := Nat.succ.inj hm
      cases h with
      | here => exact ⟨x, hx, .here⟩
      | deeper h hz =>
          obtain ⟨y, hy, hz⟩ := ih rfl
          exact ⟨y, hy, .deeper hz hx⟩

theorem eq_of_zero (h : tree.SeenBelow options a 0 x) : x = a := by
  cases h
  rfl

theorem above (h : tree.SeenBelow options a (n + 1) x) : tree.Above a x := by
  generalize hm : n + 1 = m at h
  induction h generalizing n with
  | here => cases hm
  | @deeper m y x h hx ih =>
      cases h with
      | here => exact .parent (parent?_of_seen hx)
      | deeper h hy => exact .up (parent?_of_seen hx) (ih rfl)

theorem eq_or_above (h : tree.SeenBelow options a n x) : x = a ∨ tree.Above a x := by
  cases n with
  | zero => exact Or.inl h.eq_of_zero
  | succ n => exact Or.inr h.above

/-- Lower levels have later nodes. -/
theorem add_le (h : tree.SeenBelow options a n x) : a.val + n ≤ x.val := by
  induction h with
  | here => exact Nat.le_refl _
  | deeper _ hy ih =>
      have hlt : _ < _ := tree.parent?_lt (parent?_of_seen hy)
      rw [Fin.lt_def] at hlt
      omega

/-- A node that is above another lies on the way down to it. -/
theorem between (h : tree.SeenBelow options a n x) (hb : tree.Above b x) (hab : tree.Above a b) :
    ∃ i j, i + (j + 1) = n ∧ tree.SeenBelow options a i b ∧ tree.SeenBelow options b (j + 1) x := by
  induction h with
  | here => exact absurd hb hab.asymm
  | @deeper n y x h hx ih =>
      rcases hb.of_child (parent?_of_seen hx) with rfl | hb
      · exact ⟨n, 0, rfl, h, .child hx⟩
      · obtain ⟨i, j, rfl, hi, hj⟩ := ih hb
        exact ⟨i, j + 1, rfl, hi, .deeper hj hx⟩

/-- The way down to a node passes through everything between. -/
theorem lower (h : tree.SeenBelow options a n x) (hb : tree.Above b x)
    (hab : a = b ∨ tree.Above a b) :
    ∃ j, j + 1 ≤ n ∧ tree.SeenBelow options b (j + 1) x := by
  rcases hab with rfl | hab
  · cases n with
    | zero => exact absurd (h.eq_of_zero ▸ hb) (Above.irrefl _)
    | succ n => exact ⟨n, Nat.le_refl _, h⟩
  · obtain ⟨i, j, rfl, _, hj⟩ := h.between hb hab
    exact ⟨j, by omega, hj⟩

end SeenBelow

end Tree

/-! ### Steps -/

/-- Whether a step admits a node of a role.  A step along the axis that admits any role does, and so
does one that asks for no role. -/
def Step.admitsRole (step : Step) (role : Option String) : Bool :=
  match step.axis, step.roleTest with
  | .any, _ => true
  | _, .wildcard => true
  | _, .role name => role == some name

/-- Whether a node passes the role test and the predicate of a step, at a place.  Predicates count
places from one: of `n` siblings the first is at 1, and the last at `n`. -/
def Step.passes (step : Step) (node : tree.NodeId) (position : SiblingPosition) : Bool :=
  step.admitsRole (tree.attributes node).role? &&
    step.predicate.all fun p => p.holds (tree.attributes node) (position.index + 1) position.count

/-- How deep below a node the options let a step look. -/
def ResolveOptions.reaches (options : ResolveOptions) (levels : Nat) : Prop :=
  1 ≤ levels ∧ ∀ bound ∈ options.maxDepth, levels ≤ max bound 1

/-- A step selects a node from another.  A self step asks for the place that the tree reports; the
other steps go by the children that are seen. -/
def Step.Selects (step : Step) (options : ResolveOptions) (c x : tree.NodeId) : Prop :=
  match step.axis with
  | .self =>
      x = c ∧ (options.visibleOnly = true → (tree.attributes x).hasState "showing" = true) ∧
        step.passes x ⟨(tree.place x).1, (tree.place x).2⟩ = true
  | .child =>
      x ∈ tree.seenChildren options c ∧ step.passes x (tree.seenPlace options x) = true
  | .descendant | .any =>
      (∃ n, options.reaches n ∧ tree.SeenBelow options c n x) ∧
        step.passes x (tree.seenPlace options x) = true

/-- The role test that is applied admits the same roles. -/
theorem Step.accepts_effectiveRoleTest (step : Step) (role : Option String) :
    step.effectiveRoleTest.accepts role = step.admitsRole role := by
  unfold effectiveRoleTest admitsRole
  cases step.axis <;> cases step.roleTest <;> rfl

theorem Step.Selects.eq_or_above {step : Step} {c x : tree.NodeId}
    (h : step.Selects options c x) : x = c ∨ tree.Above c x := by
  unfold Step.Selects at h
  cases ha : step.axis <;> rw [ha] at h
  case self => exact Or.inl h.1
  case child => exact Or.inr (.parent (Tree.parent?_of_seen h.1))
  case descendant | any =>
    obtain ⟨⟨n, _, h⟩, _⟩ := h
    exact h.eq_or_above

theorem Step.Selects.atOrAbove {step : Step} {c x : tree.NodeId}
    (h : step.Selects options c x) : tree.AtOrAbove c x :=
  h.eq_or_above.imp_left Eq.symm

/-- Where levels are not bounded, what is selected below a node is selected below every node from
which that one is seen. -/
theorem Step.Selects.of_seenBelow {step : Step} {c d x : tree.NodeId} {n : Nat}
    (h : step.Selects options d x) (ha : step.axis = .descendant ∨ step.axis = .any)
    (hm : options.maxDepth = none) (hcd : tree.SeenBelow options c n d) :
    step.Selects options c x := by
  unfold Step.Selects at h ⊢
  rcases ha with ha | ha
  all_goals
    rw [ha] at h ⊢
    obtain ⟨⟨k, ⟨hk, _⟩, hx⟩, hpass⟩ := h
    refine ⟨⟨n + k, ⟨by omega, ?_⟩, hcd.trans hx⟩, hpass⟩
    simp [hm]

/-- The nodes that steps select, one after another, from a set of nodes. -/
def selection (options : ResolveOptions) : List Step → Set tree.NodeId → Set tree.NodeId
  | [], nodes => nodes
  | step :: rest, nodes =>
      selection options rest {x | ∃ c ∈ nodes, step.Selects options c x}

end AccessQuery
