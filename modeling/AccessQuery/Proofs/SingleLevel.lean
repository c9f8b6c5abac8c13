/-
**Looking one level down is looking at the children.**

Where a resolution is confined to one level, its steps to descendants look at the children of their
contexts, as child steps do, but in another way: they climb from contexts to find out whether they
are nested, and compare what they select below nested ones with what they have selected before.
Both may fail, and neither makes a difference.  No context is left out where levels are bounded, and
no two contexts have a child in common, so nothing that is compared is found.

Main definitions:

* `AccessQuery.Step.toChild`, `AccessQuery.Query.toChildren` — the same with child steps.

Main results:

* `AccessQuery.Outlook.picks_toChild` — steps from one context;
* `AccessQuery.Outlook.step_eq_flatMap` — contexts contribute one after another;
* `AccessQuery.Outlook.resolve_toChildren` — paths;
* `AccessQuery.Session.matched_toChildren` — resolutions.
-/

import AccessQuery.Proofs.Matches
import AccessQuery.Proofs.Picks

set_option relaxedAutoImplicit false
set_option autoImplicit false

namespace AccessQuery

variable {tree : Tree}

/-! ### Child steps -/

/-- A step to children, in place of one to descendants. -/
def Step.toChild (step : Step) : Step :=
  match step.axis with
  | .self | .child => step
  | .descendant => { step with axis := .child }
  | .any => { step with axis := .child, roleTest := .wildcard }

/-- A path with child steps in place of those to descendants. -/
def Query.toChildren (query : Query) : Query :=
  ⟨query.steps.map Step.toChild, by simp [query.steps_ne_nil]⟩

namespace Step

theorem toChild_of_self {step : Step} (h : step.axis = .self) : step.toChild = step := by
  rw [toChild, h]

theorem axis_toChild {step : Step} (h : step.axis ≠ .self) : step.toChild.axis = .child := by
  unfold toChild
  cases ha : step.axis with
  | self => exact absurd ha h
  | child => exact ha
  | descendant | any => rfl

@[simp] theorem effectiveRoleTest_toChild (step : Step) :
    step.toChild.effectiveRoleTest = step.effectiveRoleTest := by
  obtain ⟨axis, roleTest, predicate⟩ := step
  cases axis <;> rfl

@[simp] theorem predicate_toChild (step : Step) : step.toChild.predicate = step.predicate := by
  obtain ⟨axis, roleTest, predicate⟩ := step
  cases axis <;> rfl

end Step

/-- Where levels are confined to one, nothing lies deeper. -/
theorem ResolveOptions.allowsBelow_one {options : ResolveOptions}
    (h : ∃ bound ∈ options.maxDepth, bound ≤ 1) : options.allowsBelow 1 = false := by
  obtain ⟨bound, hbound, hle⟩ := h
  simp only [allowsBelow, Option.mem_def.1 hbound, decide_eq_false_iff_not]
  omega

namespace Outlook

variable {o : Outlook tree} {step : Step} {c d x : tree.NodeId}

/-! ### One context -/

theorem judge_toChild (o : Outlook tree) (step : Step) (node : tree.NodeId)
    (known : Option SiblingPosition) :
    o.judge step.toChild node known = o.judge step node known := by
  simp [judge, reading, Walk.needsAttributes]

theorem admitted_toChild (o : Outlook tree) (step : Step) :
    o.admitted step.toChild = o.admitted step := by
  funext node
  simp only [admitted, verdict, judge_toChild]

theorem obstacle?_toChild (o : Outlook tree) (step : Step) (node : tree.NodeId) :
    o.obstacle? step.toChild node = o.obstacle? step node := by
  by_cases hs : step.axis = .self
  · rw [Step.toChild_of_self hs]
  · unfold obstacle?
    rw [Step.axis_toChild hs]
    cases ha : step.axis with
    | self => exact absurd ha hs
    | child | descendant | any => rfl

section SingleLevel

variable (hb : ∃ bound ∈ o.options.maxDepth, bound ≤ 1)
include hb

/-- A walk that goes one level down meets the children. -/
theorem meet_one (step : Step) (node : tree.NodeId) :
    o.meet step tree.size 1 node = o.offspring node := by
  obtain ⟨levels, hlevels⟩ : ∃ levels, tree.size = levels + 1 :=
    Nat.exists_eq_add_one.2 (Nat.zero_lt_of_lt node.isLt)
  rw [hlevels, meet, o.options.allowsBelow_one hb]
  simp

theorem picks_toChild (step : Step) (node : tree.NodeId) :
    o.picks step.toChild node = o.picks step node := by
  by_cases hs : step.axis = .self
  · rw [Step.toChild_of_self hs]
  · unfold picks
    rw [obstacle?_toChild, Step.axis_toChild hs, admitted_toChild]
    cases ha : step.axis with
    | self => exact absurd ha hs
    | child => rfl
    | descendant | any => simp only [meet_one hb]

/-- No two nodes have a pick in common. -/
theorem eq_of_mem_picks (hc : x ∈ o.picks step c) (hd : x ∈ o.picks step d) : c = d := by
  rw [← picks_toChild hb] at hc hd
  by_cases hs : step.axis = .self
  · rw [Step.toChild_of_self hs] at hc hd
    exact ((mem_picks_self hs).1 hc).1.symm.trans ((mem_picks_self hs).1 hd).1
  · have hxc := parent?_of_offspring ((mem_picks_child (Step.axis_toChild hs)).1 hc).2.1
    have hxd := parent?_of_offspring ((mem_picks_child (Step.axis_toChild hs)).1 hd).2.1
    exact Option.some.inj (hxc.symm.trans hxd)

/-! ### Frontiers -/

/-- No node of a frontier is left out of the contexts. -/
theorem map_fst_contextsFor (step : Step) (nodes : List tree.NodeId) :
    (o.contextsFor step nodes).map Prod.fst = nodes := by
  have hmax : o.options.maxDepth.isSome = true := by
    obtain ⟨bound, hbound, -⟩ := hb
    rw [Option.mem_def.1 hbound]
    rfl
  have hseparate (nodes : List tree.NodeId) : (o.separate [] nodes).map Prod.fst = nodes := by
    induction nodes using List.reverseRecOn with
    | nil => rfl
    | append_singleton nodes node ih =>
        rw [separate_concat, if_pos hmax]
        split <;> rw [List.map_append, ih] <;> rfl
  unfold contextsFor
  split
  · exact hseparate nodes
  · rw [List.map_map]
    exact List.map_id nodes

/-- Contexts without repetitions contribute what each of them picks, one after another: nothing is
found among what was selected before. -/
theorem expandAll_eq_flatMap (step : Step) (contexts : List (tree.NodeId × Bool))
    (h : (contexts.map Prod.fst).Nodup) :
    o.expandAll step contexts [] = (contexts.map Prod.fst).flatMap (o.picks step) := by
  induction contexts using List.reverseRecOn with
  | nil => rfl
  | append_singleton contexts context ih =>
      obtain ⟨node, nested⟩ := context
      rw [List.map_append, List.nodup_append] at h
      obtain ⟨hcontexts, -, hnew⟩ := h
      rw [expandAll_concat, List.map_append, List.flatMap_append, ← ih hcontexts]
      congr 1
      rw [List.map_singleton, List.flatMap_singleton]
      cases nested with
      | false => exact expand_eq_picks node _
      | true =>
          by_cases ha : step.axis = .descendant ∨ step.axis = .any
          · rw [expand_nested_eq_filter ha, List.filter_eq_self]
            intro x hx
            rw [Bool.not_eq_true']
            refine eq_false_of_ne_true fun hfound => ?_
            obtain ⟨other, hother, hx'⟩ := mem_expandAll.1 (mem_of_isAmong hfound)
            exact hnew other.1 (List.mem_map_of_mem hother) node (List.mem_singleton_self node)
              (eq_of_mem_picks hb hx' hx)
          · rw [expand_nested_of_ne (not_or.1 ha).1 (not_or.1 ha).2, expand_eq_picks]

theorem step_eq_flatMap (step : Step) {nodes : List tree.NodeId} (h : nodes.Nodup) :
    o.step step nodes = nodes.flatMap (o.picks step) := by
  have hcontexts := map_fst_contextsFor hb step nodes
  rw [Outlook.step, expandAll_eq_flatMap hb step _ (hcontexts.symm ▸ h), hcontexts]

theorem nodup_step (step : Step) {nodes : List tree.NodeId} (h : nodes.Nodup) :
    (o.step step nodes).Nodup := by
  rw [step_eq_flatMap hb step h, List.nodup_flatMap]
  refine ⟨fun c _ => ?_, h.imp fun hne x hc hd => hne (eq_of_mem_picks hb hc hd)⟩
  refine (o.picks_pairwise step c).imp fun {a b} hab heq => ?_
  exact Tree.Precedes.irrefl b (heq ▸ hab)

/-! ### Paths -/

/-- A path selects the same nodes with child steps, in the same order, or fails alike. -/
theorem resolve_toChildren (steps : List Step) (atRoot : Bool) {nodes : List tree.NodeId}
    (h : nodes.Nodup) :
    o.resolve (steps.map Step.toChild) atRoot nodes = o.resolve steps atRoot nodes := by
  induction steps generalizing atRoot nodes with
  | nil => rfl
  | cons step rest ih =>
      have hobstacle : o.obstacle? step.toChild = o.obstacle? step :=
        funext (o.obstacle?_toChild step)
      have hpicks : o.picks step.toChild = o.picks step := funext (picks_toChild hb step)
      have hself : (step.toChild.axis = .self) = (step.axis = .self) := by
        by_cases hs : step.axis = .self
        · rw [Step.toChild_of_self hs]
        · simp [Step.axis_toChild hs, hs]
      rw [List.map_cons, resolve, resolve, hobstacle, step_eq_flatMap hb step.toChild h, hpicks,
        ← step_eq_flatMap hb step h]
      simp only [hself]
      rw [ih _ (nodup_step hb step h)]

end SingleLevel

end Outlook

/-! ### Resolutions -/

namespace Session

/-- A resolution that is confined to one level matches the same nodes with child steps, in the same
order, or fails alike. -/
theorem matched_toChildren (options : ResolveOptions) (query : Query) (root : Handle)
    (start : Session tree) (hb : ∃ bound ∈ options.maxDepth, bound ≤ 1)
    (hd : options.deadline ≠ some .past) (hc : options.cancelAt = none)
    (ho : ∀ ref ∈ start.ledger.outstanding, ref.address ≤ 0x1000 + start.bridge.acquired) :
    matched options query.toChildren root start = matched options query root start := by
  by_cases hs : root.session = start.id
  · cases hl : start.bridge.nodeOf? root with
    | some node =>
        have hsteady : start.Steady options root node := ⟨hs, hl, ho, hd, hc⟩
        rw [matched_steady hsteady, matched_steady hsteady, Query.toChildren,
          Outlook.resolve_toChildren hb _ _ (List.nodup_singleton node)]
    | none =>
        refine matched_unrooted_congr hl options options.maxDepth options.maxDepth
          (List.forall₂_map_left_iff.2 (List.forall₂_same.2 ?_))
        intro step _
        by_cases hself : step.axis = .self
        · exact Or.inl (Step.toChild_of_self hself)
        · exact Or.inr ⟨by simp [Step.axis_toChild hself], hself⟩
  · rw [matched_foreign hs, matched_foreign hs]

/-- Below the root of a tree in which parents cannot be asked for, and nodes cannot be compared. -/
theorem matched_toChildren_opening :
    let tree := (((Tree.single (Element.new "frame" "")).addChild ⟨0, by decide⟩
      (Element.new "panel" "")).addChild ⟨1, by decide⟩ (Element.new "panel" "")).addChild
      ⟨2, by decide⟩ (Element.new "label" "")
    let opened := opening tree ⟨0, by decide⟩ fun op place =>
      if op = .parent ∧ place = 2 ∨ op = .sameObject ∧ place = 1 then some 5 else none
    let options : ResolveOptions := { maxDepth := some 0 }
    let query : Query :=
      ⟨[⟨.any, .wildcard, none⟩, ⟨.descendant, .role "panel", none⟩,
        ⟨.any, .role "panel", none⟩], by decide⟩
    (∃ bound ∈ options.maxDepth, bound ≤ 1) ∧ options.deadline ≠ some .past ∧
      options.cancelAt = none ∧
      (∀ ref ∈ opened.2.ledger.outstanding,
        ref.address ≤ 0x1000 + opened.2.bridge.acquired) ∧
      matched options query.toChildren opened.1 opened.2 =
        matched options query opened.1 opened.2 := by
  intro tree opened options query
  have hb : ∃ bound ∈ options.maxDepth, bound ≤ 1 := ⟨0, rfl, by decide⟩
  have hsteady : opened.2.Steady options opened.1 ⟨0, by decide⟩ :=
    steady_opening tree ⟨0, by decide⟩ _ (by decide) rfl
  exact ⟨hb, hsteady.deadline_ne, hsteady.cancelAt_eq, hsteady.outstanding_issued,
    matched_toChildren options query opened.1 opened.2 hb hsteady.deadline_ne hsteady.cancelAt_eq
      hsteady.outstanding_issued⟩

end Session

end AccessQuery
