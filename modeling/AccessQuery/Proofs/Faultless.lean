/-
**Outlooks without faults.**

Where no call fails, what is learnt of a node is what the tree says of it: reading lazily comes to
the same as reading everything, the walk below a context meets every node below it that the bounds
allow, and climbing finds every ancestor.

Main definitions:

* `AccessQuery.Outlook.Faultless` — no call fails;
* `AccessQuery.Outlook.admits` — whether a step selects a node that is met.

Main results:

* `AccessQuery.Outlook.judge_faultless` — what a step says of a candidate;
* `AccessQuery.Outlook.meet_faultless` — what a walk meets;
* `AccessQuery.Outlook.isBelow_faultless` — what climbing finds.
-/

import AccessQuery.Proofs.Picks

set_option relaxedAutoImplicit false
set_option autoImplicit false

namespace AccessQuery

variable {tree : Tree}

/-! ### Predicates that do not look -/

theorem Predicate.holds_of_usesAttributes {p : Predicate} (h : p.usesAttributes = false)
    (s t : Snapshot) (place count : Nat) : p.holds s place count = p.holds t place count := by
  induction p with
  | comparison => cases h
  | function => cases h
  | position => rfl
  | last => rfl
  | and l r ihl ihr | or l r ihl ihr =>
      simp only [usesAttributes, Bool.or_eq_false_iff] at h
      simp only [holds, ihl h.1, ihr h.2]

theorem Predicate.holds_of_usesPosition {p : Predicate} (h : p.usesPosition = false)
    (s : Snapshot) (i m j n : Nat) : p.holds s i m = p.holds s j n := by
  induction p with
  | comparison => rfl
  | function => rfl
  | position => cases h
  | last => cases h
  | and l r ihl ihr | or l r ihl ihr =>
      simp only [usesPosition, Bool.or_eq_false_iff] at h
      simp only [holds, ihl h.1, ihr h.2]

namespace Outlook

variable {o : Outlook tree} {step : Step} {node : tree.NodeId}

/-- No call fails. -/
def Faultless (o : Outlook tree) : Prop :=
  ∀ op node, o.fault? op node = none

/-! ### One node -/

theorem offspring_faultless (hf : o.Faultless) (node : tree.NodeId) :
    o.offspring node = tree.seenChildren o.options node := by
  have hs : o.isShown = fun child => (tree.attributes child).hasState "showing" := by
    funext child
    simp [isShown, hf _ _, Snapshot.isShowing_eq]
  rw [offspring, Tree.seenChildren, hs]

/-- The attributes of a candidate may be left out where they make no difference. -/
theorem reading_faultless (hf : o.Faultless) (step : Step) (node : tree.NodeId) :
    ∃ snapshot, o.reading step node = .ok snapshot ∧
    (o.options.visibleOnly && !snapshot.isShowing) =
      (o.options.visibleOnly && !(tree.attributes node).isShowing) ∧
    ∀ position : SiblingPosition, (step.effectiveRoleTest.accepts snapshot.role? &&
        step.predicate.all fun p => p.holds snapshot position.place position.count) =
      step.passes node position := by
  unfold reading
  by_cases hn : Walk.needsAttributes o.options step = true
  · rw [if_pos hn, hf]
    refine ⟨tree.attributes node, rfl, rfl, fun position => ?_⟩
    rw [Step.passes, step.accepts_effectiveRoleTest, position.place_eq]
  · -- nothing is read, and neither the role nor the predicate would have looked
    rw [if_neg hn]
    simp only [Walk.needsAttributes, Bool.not_eq_true, Bool.or_eq_false_iff,
      bne_eq_false_iff_eq] at hn
    obtain ⟨⟨hv, hr⟩, hp⟩ := hn
    refine ⟨∅, rfl, by rw [hv]; rfl, fun position => ?_⟩
    rw [Step.passes, ← step.accepts_effectiveRoleTest, position.place_eq, hr]
    cases hpred : step.predicate with
    | none => rfl
    | some p =>
        rw [hpred] at hp
        exact congrArg (true && ·) (Predicate.holds_of_usesAttributes hp _ _ _ _)

/-- The place of a candidate need not be asked for where it makes no difference. -/
theorem position_faultless (hf : o.Faultless) (node : tree.NodeId) (predicate : Predicate)
    (known : Option SiblingPosition) : ∃ position,
    o.position predicate node known = .ok position ∧ ∀ s : Snapshot,
      predicate.holds s position.place position.count =
        predicate.holds s (known.getD ⟨(tree.place node).1, (tree.place node).2⟩).place
          (known.getD ⟨(tree.place node).1, (tree.place node).2⟩).count := by
  cases known with
  | some position => exact ⟨position, rfl, fun _ => rfl⟩
  | none =>
      unfold position
      by_cases hu : predicate.usesPosition = true
      · simp only [hu, if_true, hf .siblingIndex node]
        exact ⟨_, rfl, fun _ => rfl⟩
      · -- the place that is made up is not looked at
        simp only [hu]
        exact ⟨.alone, rfl, fun s => Predicate.holds_of_usesPosition (by simpa using hu) _ _ _ _ _⟩

/-- What a step says of a candidate is said of its own attributes and of its place. -/
theorem judge_faultless (hf : o.Faultless) (known : Option SiblingPosition) :
    o.judge step node known = .ok
      (if o.options.visibleOnly && !(tree.attributes node).isShowing then .hidden
      else if step.passes node (known.getD ⟨(tree.place node).1, (tree.place node).2⟩) then
        .accepted
      else .rejected) := by
  obtain ⟨snapshot, hr, hv, hp⟩ := reading_faultless hf step node
  unfold judge
  simp only [hr, hv, ← hp]
  by_cases hhidden : (o.options.visibleOnly && !(tree.attributes node).isShowing) = true
  · simp only [hhidden, if_true]
  simp only [hhidden]
  by_cases ha : step.effectiveRoleTest.accepts snapshot.role? = true
  · simp only [ha, Bool.not_true, Bool.true_and]
    cases step.predicate with
    | none => rfl
    | some predicate =>
        obtain ⟨position, hpos, hholds⟩ := position_faultless hf node predicate known
        simp only [hpos, hholds, Option.all_some]
        rfl
  · simp only [ha]
    rfl

/-! ### Nodes that are met -/

/-- Whether a step selects a node that is met below a context. -/
def admits (o : Outlook tree) (step : Step) (node : tree.NodeId) : Bool :=
  step.passes node (tree.seenPlace o.options node)

theorem spot_faultless (hf : o.Faultless) (node : tree.NodeId) :
    o.spot node = tree.seenPlace o.options node :=
  spot_eq_seenPlace (offspring_faultless hf) node

theorem verdict_faultless (hf : o.Faultless) {parent : tree.NodeId}
    (h : node ∈ tree.seenChildren o.options parent) :
    o.verdict step (node, o.spot node) = if o.admits step node then .accepted else .rejected := by
  have hv : (o.options.visibleOnly && !(tree.attributes node).isShowing) = false := by
    cases hv : o.options.visibleOnly with
    | false => rfl
    | true => simp [Tree.showing_of_seen h hv]
  rw [verdict, judge_faultless hf, hv, spot_faultless hf]
  rfl

theorem admitted_faultless (hf : o.Faultless) {parent : tree.NodeId}
    (h : node ∈ tree.seenChildren o.options parent) :
    o.admitted step node = o.admits step node := by
  rw [admitted, verdict_faultless hf h]
  cases o.admits step node <;> rfl

/-- A walk goes on from every node that it meets, so it meets all that there are. -/
theorem meet_faultless (hf : o.Faultless) (fuel depth : Nat) (node : tree.NodeId) :
    o.meet step fuel depth node = tree.descend o.options fuel depth node := by
  induction fuel generalizing depth node with
  | zero => rfl
  | succ fuel ih =>
      rw [meet, Tree.descend, offspring_faultless hf]
      refine List.flatMap_congr fun child hc => ?_
      have hentered : o.entered step child = true := by
        rw [entered, verdict_faultless hf hc, hf .children child]
        cases o.admits step child <;> rfl
      rw [hentered, Bool.and_true, ih]

/-! ### Contexts -/

theorem isAmong_faultless (hf : o.Faultless) (others : List tree.NodeId) :
    o.isAmong node others = decide (node ∈ others) := by
  rw [Bool.eq_iff_iff, decide_eq_true_eq]
  exact ⟨mem_of_isAmong, fun h => isAmong_of_mem h (hf _ _)⟩

/-- Climbing from a node finds an outer context if one is above the node. -/
theorem isBelow_faultless (hf : o.Faultless) (node : tree.NodeId)
    (contexts : List (tree.NodeId × Bool)) :
    o.isBelow node contexts = true ↔ ∃ c, (c, false) ∈ contexts ∧ tree.Above c node := by
  constructor
  · exact above_of_isBelow
  · rintro ⟨c, hc, h⟩
    exact isBelow_of_above hc h (hf _ _) fun _ _ _ => hf _ _

end Outlook

end AccessQuery
