/-
**What a step picks where calls fail.**

A walk below a context passes over the nodes that cannot be read, with everything below them, so it
meets fewer nodes than lie below the context.  What it meets is still in document order, and closed
upwards: with a node, it meets everything on the way down to it.  A step picks, from the contexts
that it makes of a frontier, what each of them picks by itself; comparing with what was selected
earlier only leaves out what has been selected already.

Climbing to find out whether a node is nested may fail to find what is there, but never finds what
is not there.

Main definitions:

* `AccessQuery.Outlook.spot`, `AccessQuery.Outlook.admitted`, `AccessQuery.Outlook.entered` — what
  is made of a node that is met;
* `AccessQuery.Outlook.meet` — the nodes that a walk meets;
* `AccessQuery.Outlook.picks` — what a step selects from one context by itself.

Main results:

* `AccessQuery.Outlook.walkBelow_offspring` — a walk selects of the nodes that it meets;
* `AccessQuery.Outlook.meet_sublist`, `AccessQuery.Outlook.mem_meet_of_above` — which nodes it
  meets;
* `AccessQuery.Outlook.mem_expandAll` — what contexts contribute together;
* `AccessQuery.Outlook.above_of_isBelow`, `AccessQuery.Outlook.isBelow_of_above` — what climbing
  finds.
-/

import Mathlib.Data.List.Flatten
import Mathlib.Data.List.Induction
import AccessQuery.Proofs.Descend
import AccessQuery.Proofs.Outlook

set_option relaxedAutoImplicit false
set_option autoImplicit false

namespace AccessQuery

variable {tree : Tree}

namespace Outlook

variable {o : Outlook tree} {step : Step}

/-! ### Nodes that are met -/

/-- The place of a node among the children of its parent that are taken notice of. -/
def spot (o : Outlook tree) (node : tree.NodeId) : SiblingPosition :=
  match tree.parent? node with
  | none => .alone
  | some parent => ⟨(o.offspring parent).idxOf node, (o.offspring parent).length⟩

/-- Whether a step selects a node that is met below a context. -/
def admitted (o : Outlook tree) (step : Step) (node : tree.NodeId) : Bool :=
  o.verdict step (node, o.spot node) == .accepted

/-- Whether a walk goes on to the children of a node that it meets. -/
def entered (o : Outlook tree) (step : Step) (node : tree.NodeId) : Bool :=
  o.verdict step (node, o.spot node) != .hidden && (o.fault? .children node).isNone

theorem offspring_sublist (o : Outlook tree) (node : tree.NodeId) :
    (o.offspring node).Sublist (tree.seenChildren o.options node) := by
  unfold offspring Tree.seenChildren
  split
  · refine List.monotone_filter_right _ fun child h => ?_
    exact (Bool.and_eq_true _ _ ▸ h).2
  · exact List.Sublist.refl _

theorem parent?_of_offspring {parent child : tree.NodeId} (h : child ∈ o.offspring parent) :
    tree.parent? child = some parent :=
  Tree.parent?_of_seen ((o.offspring_sublist parent).mem h)

theorem nodup_offspring (o : Outlook tree) (node : tree.NodeId) : (o.offspring node).Nodup :=
  (tree.nodup_seenChildren o.options node).sublist (o.offspring_sublist node)

theorem spot_eq_seenPlace (h : ∀ parent, o.offspring parent = tree.seenChildren o.options parent)
    (node : tree.NodeId) : o.spot node = tree.seenPlace o.options node := by
  unfold spot Tree.seenPlace
  cases tree.parent? node with
  | none => rfl
  | some parent => simp only [h]

/-- The children that are taken notice of, with their places. -/
theorem placed_offspring (o : Outlook tree) (node : tree.NodeId) :
    placed (o.offspring node) = (o.offspring node).map fun child => (child, o.spot child) := by
  refine List.ext_getElem (by simp [placed]) fun i hi hi' => ?_
  have hlt : i < (o.offspring node).length := by simpa [placed] using hi
  have hp := parent?_of_offspring (List.getElem_mem hlt)
  have hidx : (o.offspring node).idxOf (o.offspring node)[i] = i :=
    (o.nodup_offspring node).idxOf_getElem i hlt
  simp [placed, spot, hp, hidx]

/-- The nodes that a walk meets below a node, children at some depth first.  The fuel bounds the
number of levels. -/
def meet (o : Outlook tree) (step : Step) : Nat → Nat → tree.NodeId → List tree.NodeId
  | 0, _, _ => []
  | fuel + 1, depth, node => (o.offspring node).flatMap fun child =>
      child :: if o.options.allowsBelow depth && o.entered step child then
        meet o step fuel (depth + 1) child else []

theorem chosen_spot (earlier : List tree.NodeId) (node : tree.NodeId) :
    o.chosen step earlier (node, o.spot node) =
      [node].filter fun x => o.admitted step x && !o.isAmong x earlier := by
  rw [List.filter_singleton, chosen, admitted, Bool.cond_eq_ite]
  simp only [Bool.and_eq_true, beq_iff_eq]

theorem opened_spot (deeper : Bool) (node : tree.NodeId) :
    o.opened step deeper (node, o.spot node) =
      if deeper && o.entered step node then o.offspring node else [] := by
  rw [opened, entered, Bool.and_assoc]

/-- A walk selects, of the nodes that it meets, those that the step admits and that it has not
selected earlier. -/
theorem walkBelow_offspring (earlier : List tree.NodeId) (fuel depth : Nat) (node : tree.NodeId) :
    o.walkBelow step earlier fuel depth (o.offspring node) =
      (o.meet step fuel depth node).filter fun x => o.admitted step x && !o.isAmong x earlier := by
  induction fuel generalizing depth node with
  | zero => rfl
  | succ fuel ih =>
      rw [walkBelow, walkEach, placed_offspring, List.flatMap_map, meet, List.filter_flatMap]
      refine List.flatMap_congr fun child _ => ?_
      rw [chosen_spot, opened_spot, ← List.singleton_append
        (l := if o.options.allowsBelow depth && o.entered step child then _ else _),
        List.filter_append]
      congr 1
      split
      · exact ih (depth + 1) child
      · exact walkBelow_nil

theorem mem_meet_succ {fuel depth : Nat} {c x : tree.NodeId} :
    x ∈ o.meet step (fuel + 1) depth c ↔ ∃ y ∈ o.offspring c, x = y ∨
      (o.options.allowsBelow depth = true ∧ o.entered step y = true) ∧
        x ∈ o.meet step fuel (depth + 1) y := by
  rw [meet, List.mem_flatMap]
  refine exists_congr fun y => and_congr_right fun _ => ?_
  rw [List.mem_cons, ← Bool.and_eq_true]
  by_cases h : (o.options.allowsBelow depth && o.entered step y) = true
  · simp [h]
  · simp [h]

/-- A walk meets no more than there is, in the same order. -/
theorem meet_sublist (o : Outlook tree) (step : Step) (fuel depth : Nat) (node : tree.NodeId) :
    (o.meet step fuel depth node).Sublist (tree.descend o.options fuel depth node) := by
  induction fuel generalizing depth node with
  | zero => exact List.Sublist.refl _
  | succ fuel ih =>
      refine ((o.offspring_sublist node).flatMap _).trans ?_
      refine List.Sublist.flatMap_right _ fun child _ => ?_
      refine List.Sublist.cons_cons child ?_
      by_cases ha : o.options.allowsBelow depth = true
      · simp only [ha, Bool.true_and, if_true]
        split
        · exact ih (depth + 1) child
        · exact List.nil_sublist _
      · simp [ha]

theorem above_of_mem_meet {fuel depth : Nat} {c x : tree.NodeId}
    (h : x ∈ o.meet step fuel depth c) : tree.Above c x :=
  Tree.above_of_mem_descend ((o.meet_sublist step fuel depth c).mem h)

/-- With a node, a walk meets everything on the way down to it. -/
theorem mem_meet_of_above {fuel depth : Nat} {c x y : tree.NodeId}
    (h : x ∈ o.meet step fuel depth c) (hy : tree.Above y x) (hc : tree.Above c y) :
    y ∈ o.meet step fuel depth c := by
  induction fuel generalizing depth c with
  | zero => exact absurd h List.not_mem_nil
  | succ fuel ih =>
      obtain ⟨z, hz, hx⟩ := mem_meet_succ.1 h
      have hcz := parent?_of_offspring hz
      rcases hx with rfl | ⟨hd, hx⟩
      · -- nothing lies between a node and its child
        rcases hy.of_child hcz with rfl | hyc
        · exact absurd hc (Tree.Above.irrefl _)
        · exact absurd hyc hc.asymm
      · rcases hy.comparable (above_of_mem_meet hx) with rfl | hyz | hzy
        · exact mem_meet_succ.2 ⟨y, hz, Or.inl rfl⟩
        · rcases hyz.of_child hcz with rfl | hyc
          · exact absurd hc (Tree.Above.irrefl _)
          · exact absurd hyc hc.asymm
        · exact mem_meet_succ.2 ⟨z, hz, Or.inr ⟨hd, ih hx hzy⟩⟩

/-- A walk meets a node if it goes on from everything on the way down to it. -/
theorem mem_meet_of_entered {fuel depth : Nat} {c x : tree.NodeId}
    (h : x ∈ tree.descend o.options fuel depth c)
    (hseen : ∀ y z, y ∈ tree.seenChildren o.options z → y ∈ o.offspring z)
    (he : ∀ y, tree.Above c y → tree.Above y x → o.entered step y = true) :
    x ∈ o.meet step fuel depth c := by
  induction fuel generalizing depth c with
  | zero => exact absurd h List.not_mem_nil
  | succ fuel ih =>
      obtain ⟨y, hy, hx⟩ := Tree.mem_descend_succ.1 h
      have hcy : tree.Above c y := .parent (Tree.parent?_of_seen hy)
      refine mem_meet_succ.2 ⟨y, hseen y c hy, ?_⟩
      rcases hx with rfl | ⟨hd, hx⟩
      · exact Or.inl rfl
      · have hyx := Tree.above_of_mem_descend hx
        refine Or.inr ⟨⟨hd, he y hcy hyx⟩, ih hx fun z hyz hzx => ?_⟩
        exact he z (hcy.trans hyz) hzx

/-! ### One context -/

/-- The nodes that a step selects from one context, by itself. -/
def picks (o : Outlook tree) (step : Step) (node : tree.NodeId) : List tree.NodeId :=
  if (o.obstacle? step node).isSome then []
  else match step.axis with
    | .self => if o.judge step node none matches .ok .accepted then [node] else []
    | .child => (o.offspring node).filter (o.admitted step)
    | .descendant | .any => (o.meet step tree.size 1 node).filter (o.admitted step)

theorem isAmong_nil (o : Outlook tree) (node : tree.NodeId) : o.isAmong node [] = false := rfl

theorem mem_of_isAmong {node : tree.NodeId} {others : List tree.NodeId}
    (h : o.isAmong node others = true) : node ∈ others := by
  obtain ⟨other, hm, hs⟩ := List.any_eq_true.1 h
  simp only [same, Bool.and_eq_true, beq_iff_eq] at hs
  exact hs.2 ▸ hm

/-- A node is found among others if it is one of them, and can be compared. -/
theorem isAmong_of_mem {node : tree.NodeId} {others : List tree.NodeId} (h : node ∈ others)
    (hf : o.fault? .sameObject node = none) : o.isAmong node others = true :=
  List.any_eq_true.2 ⟨node, h, by simp [same, hf]⟩

/-- What an outer context contributes. -/
theorem expand_eq_picks (node : tree.NodeId) (selected : List tree.NodeId) :
    o.expand step (node, false) selected = o.picks step node := by
  unfold expand picks
  split
  · rfl
  · cases step.axis with
    | self => rfl
    | child =>
        dsimp only
        rw [walkEach, placed_offspring, List.flatMap_map]
        conv_rhs => rw [← List.flatMap_singleton' (o.offspring node), List.filter_flatMap]
        refine List.flatMap_congr fun x _ => ?_
        rw [chosen_spot]
        simp [isAmong_nil]
    | descendant | any =>
        dsimp only
        rw [walkBelow_offspring]
        simp [isAmong_nil]

/-- What a nested context contributes to a step below contexts. -/
theorem expand_nested_eq_filter (ha : step.axis = .descendant ∨ step.axis = .any)
    (node : tree.NodeId) (selected : List tree.NodeId) :
    o.expand step (node, true) selected =
      (o.picks step node).filter fun x => !o.isAmong x selected := by
  unfold expand picks
  split
  · rfl
  · rcases ha with ha | ha
    all_goals
      simp only [ha, if_true]
      rw [walkBelow_offspring, List.filter_filter]
      simp only [Bool.and_comm]

/-- Whether a context is nested makes a difference to steps below contexts only. -/
theorem expand_nested_of_ne (ha : step.axis ≠ .descendant) (ha' : step.axis ≠ .any)
    (node : tree.NodeId) (selected : List tree.NodeId) :
    o.expand step (node, true) selected = o.expand step (node, false) selected := by
  unfold expand
  cases hax : step.axis with
  | self | child => rfl
  | descendant => exact absurd hax ha
  | any => exact absurd hax ha'

theorem expand_sublist (context : tree.NodeId × Bool) (selected : List tree.NodeId) :
    (o.expand step context selected).Sublist (o.picks step context.1) := by
  obtain ⟨node, nested⟩ := context
  cases nested with
  | false => exact (expand_eq_picks node selected) ▸ List.Sublist.refl _
  | true =>
      by_cases ha : step.axis = .descendant ∨ step.axis = .any
      · rw [expand_nested_eq_filter ha]
        exact List.filter_sublist
      · rw [expand_nested_of_ne (not_or.1 ha).1 (not_or.1 ha).2, expand_eq_picks]

/-- What a context does not contribute again has been selected. -/
theorem mem_expand_or_mem {context : tree.NodeId × Bool} {selected : List tree.NodeId}
    {x : tree.NodeId} (h : x ∈ o.picks step context.1) :
    x ∈ o.expand step context selected ∨ x ∈ selected := by
  obtain ⟨node, nested⟩ := context
  cases nested with
  | false => exact Or.inl ((expand_eq_picks node selected).symm ▸ h)
  | true =>
      by_cases ha : step.axis = .descendant ∨ step.axis = .any
      · rw [expand_nested_eq_filter ha, List.mem_filter]
        cases hm : o.isAmong x selected with
        | true => exact Or.inr (mem_of_isAmong hm)
        | false => exact Or.inl ⟨h, rfl⟩
      · rw [expand_nested_of_ne (not_or.1 ha).1 (not_or.1 ha).2, expand_eq_picks]
        exact Or.inl h

/-- What a step picks from a node is in document order. -/
theorem picks_pairwise (o : Outlook tree) (step : Step) (node : tree.NodeId) :
    (o.picks step node).Pairwise tree.Precedes := by
  unfold picks
  split
  · exact List.Pairwise.nil
  · cases step.axis with
    | self =>
        dsimp only
        split
        · exact List.pairwise_singleton _ _
        · exact List.Pairwise.nil
    | child =>
        refine (((tree.children_pairwise node).sublist ((o.offspring_sublist node).trans
          (tree.seenChildren_sublist o.options node))).imp_of_mem fun ha hb hab => ?_).filter _
        exact .of_siblings (parent?_of_offspring ha) (parent?_of_offspring hb) hab (Or.inl rfl)
          (Or.inl rfl)
    | descendant | any =>
        exact ((tree.descend_pairwise o.options _ _ node).sublist
          (o.meet_sublist step _ _ node)).filter _

theorem mem_picks_self (ha : step.axis = .self) {c x : tree.NodeId} :
    x ∈ o.picks step c ↔ x = c ∧ o.judge step c none = .ok .accepted := by
  unfold picks obstacle?
  simp only [ha]
  cases hj : o.judge step c none with
  | error e => simp
  | ok verdict => cases verdict <;> simp

theorem mem_picks_child (ha : step.axis = .child) {c x : tree.NodeId} :
    x ∈ o.picks step c ↔ o.fault? .children c = none ∧ x ∈ o.offspring c ∧
      o.admitted step x = true := by
  unfold picks obstacle?
  simp only [ha]
  cases o.fault? .children c with
  | some e => simp
  | none => simp

theorem mem_picks_below (ha : step.axis = .descendant ∨ step.axis = .any) {c x : tree.NodeId} :
    x ∈ o.picks step c ↔ o.fault? .children c = none ∧ x ∈ o.meet step tree.size 1 c ∧
      o.admitted step x = true := by
  unfold picks obstacle?
  cases o.fault? .children c with
  | some e => rcases ha with ha | ha <;> simp [ha]
  | none => rcases ha with ha | ha <;> simp [ha]

/-- Any other step picks nodes below it. -/
theorem above_of_mem_picks (ha : step.axis ≠ .self) {c x : tree.NodeId}
    (h : x ∈ o.picks step c) : tree.Above c x := by
  cases hax : step.axis with
  | self => exact absurd hax ha
  | child => exact .parent (parent?_of_offspring ((mem_picks_child hax).1 h).2.1)
  | descendant => exact above_of_mem_meet ((mem_picks_below (Or.inl hax)).1 h).2.1
  | any => exact above_of_mem_meet ((mem_picks_below (Or.inr hax)).1 h).2.1

theorem atOrAbove_of_mem_picks {c x : tree.NodeId} (h : x ∈ o.picks step c) :
    tree.AtOrAbove c x := by
  by_cases ha : step.axis = .self
  · exact Or.inl ((mem_picks_self ha).1 h).1.symm
  · exact Or.inr (above_of_mem_picks ha h)

/-! ### Contexts -/

theorem expandAll_concat (step : Step) (contexts : List (tree.NodeId × Bool))
    (context : tree.NodeId × Bool) (selected : List tree.NodeId) :
    o.expandAll step (contexts ++ [context]) selected =
      o.expandAll step contexts selected ++
        o.expand step context (o.expandAll step contexts selected) := by
  induction contexts generalizing selected with
  | nil => rfl
  | cons c contexts ih => exact ih _

/-- Contexts contribute together what each of them picks by itself. -/
theorem mem_expandAll {contexts : List (tree.NodeId × Bool)} {x : tree.NodeId} :
    x ∈ o.expandAll step contexts [] ↔ ∃ c ∈ contexts, x ∈ o.picks step c.1 := by
  induction contexts using List.reverseRecOn with
  | nil => simp [expandAll]
  | append_singleton contexts context ih =>
      rw [expandAll_concat, List.mem_append, ih]
      constructor
      · rintro (⟨c, hc, hx⟩ | hx)
        · exact ⟨c, List.mem_append_left _ hc, hx⟩
        · exact ⟨context, by simp, (expand_sublist _ _).mem hx⟩
      · rintro ⟨c, hc, hx⟩
        rcases List.mem_append.1 hc with hc | hc
        · exact Or.inl ⟨c, hc, hx⟩
        · rw [List.mem_singleton.1 hc] at hx
          exact (mem_expand_or_mem hx).symm.imp_left ih.1

/-- What contexts contribute is related if what each of them picks is, and if what one contributes
is related to what those before it do. -/
theorem pairwise_expandAll {R : tree.NodeId → tree.NodeId → Prop}
    {contexts : List (tree.NodeId × Bool)} (hin : ∀ c ∈ contexts, (o.picks step c.1).Pairwise R)
    (hacross : ∀ before c after, contexts = before ++ c :: after →
      ∀ x ∈ o.expandAll step before [], ∀ y ∈ o.expand step c (o.expandAll step before []), R x y) :
    (o.expandAll step contexts []).Pairwise R := by
  induction contexts using List.reverseRecOn with
  | nil => exact List.Pairwise.nil
  | append_singleton contexts context ih =>
      rw [expandAll_concat, List.pairwise_append]
      refine ⟨ih (fun c hc => hin c (List.mem_append_left _ hc)) fun before c after h => ?_, ?_, ?_⟩
      · exact hacross before c (after ++ [context]) (by simp [h])
      · exact (hin context (by simp)).sublist (expand_sublist _ _)
      · exact hacross contexts context [] rfl

/-! ### Nesting -/

theorem parent?_of_above? {node parent : tree.NodeId} (h : o.above? node = some parent) :
    tree.parent? node = some parent := by
  unfold above? at h
  split at h
  · cases h
  · exact h

theorem above?_of_none {node : tree.NodeId} (h : o.fault? .parent node = none) :
    o.above? node = tree.parent? node := by
  rw [above?, h]

/-- Climbing finds only what is there. -/
theorem eq_or_above_of_climb {targets : List tree.NodeId} {fuel : Nat} {node : tree.NodeId}
    (h : o.climb targets fuel (some node) = true) :
    ∃ t ∈ targets, t = node ∨ tree.Above t node := by
  induction fuel generalizing node with
  | zero => cases h
  | succ fuel ih =>
      rw [climb, Bool.or_eq_true] at h
      rcases h with h | h
      · exact ⟨node, mem_of_isAmong h, Or.inl rfl⟩
      · cases ha : o.above? node with
        | none =>
            rw [ha] at h
            cases fuel <;> cases h
        | some parent =>
            rw [ha] at h
            have hp := parent?_of_above? ha
            obtain ⟨t, ht, rfl | htp⟩ := ih h
            · exact ⟨t, ht, Or.inr (.parent hp)⟩
            · exact ⟨t, ht, Or.inr (.up hp htp)⟩

/-- Climbing finds a target on the way up, if the parents of the nodes below it can be asked for and
it can be compared. -/
theorem climb_of_above {targets : List tree.NodeId} {fuel : Nat} {node t : tree.NodeId}
    (ht : t ∈ targets) (h : t = node ∨ tree.Above t node) (hs : o.fault? .sameObject t = none)
    (hp : ∀ y, tree.Above t y → (y = node ∨ tree.Above y node) → o.fault? .parent y = none)
    (hf : node.val < fuel) : o.climb targets fuel (some node) = true := by
  induction fuel generalizing node with
  | zero => omega
  | succ fuel ih =>
      rw [climb, Bool.or_eq_true]
      rcases h with rfl | h
      · exact Or.inl (isAmong_of_mem ht hs)
      · obtain ⟨parent, hparent, htp⟩ := Tree.Above.iff_parent.1 h
        have hlt : parent.val < node.val := tree.parent?_lt hparent
        rw [above?_of_none (hp node h (Or.inl rfl)), hparent]
        refine Or.inr (ih (htp.imp_left Eq.symm) (fun y hy hyp => hp y hy (Or.inr ?_)) (by omega))
        rcases hyp with rfl | hyp
        · exact .parent hparent
        · exact .up hparent hyp

theorem mem_outer {contexts : List (tree.NodeId × Bool)} {t : tree.NodeId} :
    t ∈ (contexts.filter fun c => !c.2).map Prod.fst ↔ (t, false) ∈ contexts := by
  simp

/-- A node that is found to be nested lies below an outer context. -/
theorem above_of_isBelow {contexts : List (tree.NodeId × Bool)} {node : tree.NodeId}
    (h : o.isBelow node contexts = true) : ∃ t, (t, false) ∈ contexts ∧ tree.Above t node := by
  unfold isBelow at h
  cases ha : o.above? node with
  | none =>
      rw [ha] at h
      cases hn : tree.size <;> rw [hn] at h <;> cases h
  | some parent =>
      rw [ha] at h
      have hp := parent?_of_above? ha
      obtain ⟨t, ht, rfl | htp⟩ := eq_or_above_of_climb h
      · exact ⟨t, mem_outer.1 ht, .parent hp⟩
      · exact ⟨t, mem_outer.1 ht, .up hp htp⟩

/-- A node below an outer context is found to be nested, if nothing between them is at fault. -/
theorem isBelow_of_above {contexts : List (tree.NodeId × Bool)} {node t : tree.NodeId}
    (ht : (t, false) ∈ contexts) (h : tree.Above t node) (hs : o.fault? .sameObject t = none)
    (hp : ∀ y, tree.Above t y → (y = node ∨ tree.Above y node) → o.fault? .parent y = none) :
    o.isBelow node contexts = true := by
  obtain ⟨parent, hparent, htp⟩ := Tree.Above.iff_parent.1 h
  rw [isBelow, above?_of_none (hp node h (Or.inl rfl)), hparent]
  refine climb_of_above (mem_outer.2 ht) (htp.imp_left Eq.symm) hs (fun y hy hyp => ?_) parent.isLt
  refine hp y hy (Or.inr ?_)
  rcases hyp with rfl | hyp
  · exact .parent hparent
  · exact .up hparent hyp

theorem separate_concat (contexts : List (tree.NodeId × Bool)) (nodes : List tree.NodeId)
    (node : tree.NodeId) :
    o.separate contexts (nodes ++ [node]) =
      if (o.separate contexts nodes).isEmpty || !o.isBelow node (o.separate contexts nodes) then
        o.separate contexts nodes ++ [(node, false)]
      else if o.options.maxDepth.isSome then o.separate contexts nodes ++ [(node, true)]
      else o.separate contexts nodes := by
  induction nodes generalizing contexts with
  | nil => rfl
  | cons a nodes ih =>
      simp only [List.cons_append, separate]
      split
      · exact ih _
      · split
        · next hm => simpa only [hm, if_true] using ih (contexts ++ [(a, true)])
        · next hm => simpa only [hm, Bool.false_eq_true, if_false] using ih contexts

/-- Contexts are nodes of the frontier, in its order. -/
theorem separate_sublist (o : Outlook tree) (nodes : List tree.NodeId) :
    ((o.separate [] nodes).map Prod.fst).Sublist nodes := by
  induction nodes using List.reverseRecOn with
  | nil => exact List.Sublist.refl _
  | append_singleton nodes node ih =>
      rw [separate_concat]
      split
      · rw [List.map_append]
        exact ih.append_right [node]
      · split
        · rw [List.map_append]
          exact ih.append_right [node]
        · exact ih.trans (List.sublist_append_left _ _)

theorem contextsFor_sublist (o : Outlook tree) (step : Step) (nodes : List tree.NodeId) :
    ((o.contextsFor step nodes).map Prod.fst).Sublist nodes := by
  unfold contextsFor
  split
  · exact o.separate_sublist nodes
  · rw [List.map_map]
    exact (List.map_id nodes).symm ▸ List.Sublist.refl nodes

/-- What a step selects, it picks from a node of the frontier. -/
theorem exists_mem_picks {nodes : List tree.NodeId} {x : tree.NodeId}
    (h : x ∈ o.step step nodes) : ∃ c ∈ nodes, x ∈ o.picks step c := by
  obtain ⟨c, hc, hx⟩ := mem_expandAll.1 h
  exact ⟨c.1, (o.contextsFor_sublist step nodes).mem (List.mem_map_of_mem hc), hx⟩

/-- A node of the frontier is a context or, where levels are not bounded, lies below one. -/
theorem mem_separate_or_above {nodes : List tree.NodeId} {c : tree.NodeId} (h : c ∈ nodes) :
    c ∈ (o.separate [] nodes).map Prod.fst ∨
      o.options.maxDepth = none ∧ ∃ t ∈ (o.separate [] nodes).map Prod.fst, tree.Above t c := by
  induction nodes using List.reverseRecOn with
  | nil => cases h
  | append_singleton nodes node ih =>
      have hmono : ∀ t ∈ (o.separate [] nodes).map Prod.fst,
          t ∈ (o.separate [] (nodes ++ [node])).map Prod.fst := by
        intro t ht
        rw [separate_concat]
        split
        · exact List.map_append ▸ List.mem_append_left _ ht
        · split
          · exact List.map_append ▸ List.mem_append_left _ ht
          · exact ht
      rcases List.mem_append.1 h with hc | hc
      · refine (ih hc).imp (hmono c) ?_
        rintro ⟨hmax, t, ht, htc⟩
        exact ⟨hmax, t, hmono t ht, htc⟩
      · obtain rfl := List.mem_singleton.1 hc
        by_cases hb : ((o.separate [] nodes).isEmpty || !o.isBelow c (o.separate [] nodes)) = true
        · exact Or.inl (by rw [separate_concat, if_pos hb]; simp)
        · by_cases hmax : o.options.maxDepth.isSome = true
          · exact Or.inl (by rw [separate_concat, if_neg hb, if_pos hmax]; simp)
          · -- it was left out because a context was found above it
            have hbelow : o.isBelow c (o.separate [] nodes) = true := by
              simp only [Bool.or_eq_true, not_or, Bool.not_eq_true, Bool.not_eq_false'] at hb
              exact hb.2
            obtain ⟨t, ht, htc⟩ := above_of_isBelow hbelow
            exact Or.inr ⟨by simpa using hmax, t, hmono t (List.mem_map_of_mem ht), htc⟩

/-- A context is nested if it was found to lie below those before it, and is then kept only where
levels are bounded. -/
def WellNested (o : Outlook tree) (contexts : List (tree.NodeId × Bool)) : Prop :=
  ∀ before c after, contexts = before ++ c :: after →
    (c.2 = true ↔ before ≠ [] ∧ o.isBelow c.1 before = true) ∧
    (c.2 = true → o.options.maxDepth.isSome = true)

theorem WellNested.concat {contexts : List (tree.NodeId × Bool)} {context : tree.NodeId × Bool}
    (h : o.WellNested contexts)
    (hc : context.2 = true ↔ contexts ≠ [] ∧ o.isBelow context.1 contexts = true)
    (hm : context.2 = true → o.options.maxDepth.isSome = true) :
    o.WellNested (contexts ++ [context]) := by
  intro before c after he
  rcases List.eq_nil_or_concat after with rfl | ⟨after, last, rfl⟩
  · obtain ⟨rfl, hlast⟩ := List.append_inj' he rfl
    obtain rfl := List.singleton_inj.1 hlast
    exact ⟨hc, hm⟩
  · rw [List.concat_eq_append, ← List.cons_append, ← List.append_assoc] at he
    exact h before c after (List.append_inj' he rfl).1

theorem wellNested_separate (o : Outlook tree) (nodes : List tree.NodeId) :
    o.WellNested (o.separate [] nodes) := by
  induction nodes using List.reverseRecOn with
  | nil =>
      intro before c after he
      simp [separate] at he
  | append_singleton nodes node ih =>
      rw [separate_concat]
      split
      · next h =>
          refine ih.concat ?_ (by simp)
          simpa [imp_iff_not_or] using h
      · next h =>
          split
          · next hm => exact ih.concat (by simpa using h) fun _ => hm
          · exact ih

/-! ### Queries -/

theorem resolve_cons_ok {rest : List Step} {atRoot : Bool} {frontier nodes : List tree.NodeId}
    (h : o.resolve (step :: rest) atRoot frontier = .ok nodes) :
    (atRoot = true → ∀ c ∈ frontier, o.obstacle? step c = none) ∧
      o.resolve rest (atRoot && step.axis = .self) (o.step step frontier) = .ok nodes := by
  rw [resolve] at h
  cases atRoot with
  | false => exact ⟨by simp, h⟩
  | true =>
      split at h
      · cases h
      · next hnone => exact ⟨fun _ => List.findSome?_eq_none_iff.1 hnone, h⟩

end Outlook

end AccessQuery
