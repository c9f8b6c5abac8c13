/-
**Frontiers.**

Where no call fails, every frontier of a resolution lists its nodes once, ancestors before what lies
below them, and all of them are seen from the root.  On such frontiers, leaving out the contexts
that lie below others, or keeping them and comparing what they select, comes to gathering what each
node selects by itself.

Main definitions:

* `AccessQuery.Outlook.candidates` — what a step selects from one node by itself;
* `AccessQuery.Outlook.Frontier` — what holds of every frontier.

Main results:

* `AccessQuery.Outlook.mem_candidates` — what a step selects, and nothing else;
* `AccessQuery.Outlook.step_faultless` — a step gathers it;
* `AccessQuery.Outlook.Frontier.of_step` — and leaves a frontier.
-/

import AccessQuery.Proofs.Faultless
import AccessQuery.Proofs.Gather

set_option relaxedAutoImplicit false
set_option autoImplicit false

namespace AccessQuery

variable {tree : Tree}

/-! ### What a step selects -/

/-- Of the nodes that steps select from different contexts, a later one is not above an earlier one,
unless it is selected from the earlier context too. -/
theorem Step.Selects.not_above {step : Step} {options : ResolveOptions} {c d x y : tree.NodeId}
    (hcd : ¬ tree.Above d c) (hx : step.Selects options c x) (hy : step.Selects options d y)
    (hn : ¬ step.Selects options c y) : ¬ tree.Above y x := by
  intro hyx
  unfold Step.Selects at hx hy hn
  cases ha : step.axis with
  | self =>
      rw [ha] at hx hy
      exact hcd (hx.1 ▸ hy.1 ▸ hyx)
  | child =>
      rw [ha] at hx hy
      have hdy : tree.Above d y := .parent (Tree.parent?_of_seen hy.1)
      rcases hyx.of_child (Tree.parent?_of_seen hx.1) with rfl | hyc
      · exact hcd hdy
      · exact hcd (hdy.trans hyc)
  | descendant | any =>
      rw [ha] at hx hy hn
      obtain ⟨⟨m, hm, hcx⟩, _⟩ := hx
      obtain ⟨⟨n, hn', hdy⟩, hpass⟩ := hy
      obtain ⟨m, rfl⟩ := Nat.exists_eq_succ_of_ne_zero (Nat.one_le_iff_ne_zero.1 hm.1)
      obtain ⟨n, rfl⟩ := Nat.exists_eq_succ_of_ne_zero (Nat.one_le_iff_ne_zero.1 hn'.1)
      rcases hcx.above.comparable hyx with rfl | hcy | hyc
      · exact hcd hdy.above
      · -- the later node lies on the way down from the earlier context
        obtain ⟨i, j, hij, hcy', _⟩ := hcx.between hyx hcy
        refine hn ⟨⟨i, ⟨?_, fun bound hb => ?_⟩, hcy'⟩, hpass⟩
        · rcases Nat.eq_zero_or_pos i with rfl | hi
          · exact absurd (hcy'.eq_of_zero ▸ hcy) (Tree.Above.irrefl _)
          · exact hi
        · have := hm.2 bound hb
          omega
      · exact hcd (hdy.above.trans hyc)

namespace Outlook

variable {o : Outlook tree} {step : Step} {root : tree.NodeId}

/-- The nodes that a step selects from one node, by itself. -/
def candidates (o : Outlook tree) (step : Step) (node : tree.NodeId) : List tree.NodeId :=
  match step.axis with
  | .self => if o.judge step node none matches .ok .accepted then [node] else []
  | .child => (tree.seenChildren o.options node).filter (o.admits step)
  | .descendant | .any => (tree.descend o.options tree.size 1 node).filter (o.admits step)

theorem matches_accepted {result : Except BridgeError Verdict} :
    (result matches .ok .accepted) = true ↔ result = .ok .accepted := by
  cases result with
  | error e => simp
  | ok verdict => cases verdict <;> simp

theorem judge_eq_accepted (hf : o.Faultless) {node : tree.NodeId} :
    o.judge step node none = .ok .accepted ↔
      (o.options.visibleOnly = true → (tree.attributes node).hasState "showing" = true) ∧
        step.passes node ⟨(tree.place node).1, (tree.place node).2⟩ = true := by
  rw [judge_faultless hf, Option.getD_none, Snapshot.isShowing_eq]
  cases o.options.visibleOnly <;> cases (tree.attributes node).hasState "showing" <;>
    cases step.passes node ⟨(tree.place node).1, (tree.place node).2⟩ <;> simp

theorem mem_candidates (hf : o.Faultless) {c x : tree.NodeId} :
    x ∈ o.candidates step c ↔ step.Selects o.options c x := by
  unfold candidates Step.Selects
  cases step.axis with
  | self =>
      simp only [matches_accepted, judge_eq_accepted hf]
      by_cases hj : (o.options.visibleOnly = true → (tree.attributes c).hasState "showing" = true) ∧
          step.passes c ⟨(tree.place c).1, (tree.place c).2⟩ = true
      · rw [if_pos hj, List.mem_singleton]
        exact ⟨fun h => ⟨h, h ▸ hj⟩, And.left⟩
      · rw [if_neg hj]
        simp only [List.not_mem_nil, false_iff]
        exact fun h => hj (h.1 ▸ h.2)
  | child => simp [admits]
  | descendant | any => simp [admits, Tree.mem_descend_one]

theorem obstacle?_faultless (hf : o.Faultless) (node : tree.NodeId) :
    o.obstacle? step node = none := by
  unfold obstacle?
  cases step.axis with
  | self =>
      dsimp only
      rw [judge_faultless hf]
  | _ => exact hf _ _

/-- What a step picks from one context is what it selects from it. -/
theorem picks_faultless (hf : o.Faultless) (node : tree.NodeId) :
    o.picks step node = o.candidates step node := by
  unfold picks candidates
  rw [obstacle?_faultless hf]
  simp only [Option.isSome_none, Bool.false_eq_true, if_false]
  cases step.axis with
  | self => rfl
  | child =>
      dsimp only
      rw [offspring_faultless hf]
      exact List.filter_congr fun x hx => admitted_faultless hf hx
  | descendant | any =>
      dsimp only
      rw [meet_faultless hf]
      refine List.filter_congr fun x hx => ?_
      obtain ⟨parent, -, hx⟩ := Tree.exists_parent_of_mem_descend hx
      exact admitted_faultless hf hx

/-- What a step selects from one node is in document order. -/
theorem candidates_pairwise (hf : o.Faultless) (step : Step) (node : tree.NodeId) :
    (o.candidates step node).Pairwise tree.Precedes :=
  picks_faultless hf node ▸ o.picks_pairwise step node

theorem nodup_candidates (hf : o.Faultless) (step : Step) (node : tree.NodeId) :
    (o.candidates step node).Nodup := by
  refine (candidates_pairwise hf step node).imp ?_
  rintro x _ h rfl
  exact Tree.Precedes.irrefl x h

/-- What an outer context contributes. -/
theorem expand_outer (hf : o.Faultless) (node : tree.NodeId) (selected : List tree.NodeId) :
    o.expand step (node, false) selected = o.candidates step node := by
  rw [expand_eq_picks, picks_faultless hf]

/-- What a nested context contributes. -/
theorem expand_nested (hf : o.Faultless) (ha : step.axis = .descendant ∨ step.axis = .any)
    (node : tree.NodeId) (selected : List tree.NodeId) :
    o.expand step (node, true) selected =
      (o.candidates step node).filter fun x => x ∉ selected := by
  rw [expand_nested_eq_filter ha, picks_faultless hf]
  refine List.filter_congr fun x _ => ?_
  rw [isAmong_faultless hf]
  simp

/-! ### Frontiers -/

/-- The nodes of a frontier are listed once, ancestors first, and seen from the root. -/
structure Frontier (o : Outlook tree) (root : tree.NodeId) (nodes : List tree.NodeId) : Prop where
  nodup : nodes.Nodup
  ancestorsFirst : nodes.Pairwise fun x y => ¬ tree.Above y x
  inView : ∀ x ∈ nodes, ∃ n, tree.SeenBelow o.options root n x

theorem Frontier.singleton (o : Outlook tree) (root : tree.NodeId) : o.Frontier root [root] where
  nodup := List.nodup_singleton _
  ancestorsFirst := List.pairwise_singleton _ _
  inView _ hx := ⟨0, List.mem_singleton.1 hx ▸ .here⟩

theorem inView_of_candidates (hf : o.Faultless) {c x : tree.NodeId}
    (hc : ∃ n, tree.SeenBelow o.options root n c) (hx : x ∈ o.candidates step c) :
    ∃ n, tree.SeenBelow o.options root n x := by
  obtain ⟨n, hc⟩ := hc
  have hx := (mem_candidates hf).1 hx
  unfold Step.Selects at hx
  cases ha : step.axis <;> rw [ha] at hx
  case self => exact ⟨n, hx.1 ▸ hc⟩
  case child => exact ⟨n + 1, .deeper hc hx.1⟩
  case descendant | any =>
    obtain ⟨⟨m, _, hx⟩, _⟩ := hx
    exact ⟨n + m, hc.trans hx⟩

/-- What a step gathers from a frontier is a frontier. -/
theorem Frontier.gather (hf : o.Faultless) {nodes : List tree.NodeId}
    (h : o.Frontier root nodes) (step : Step) :
    o.Frontier root (AccessQuery.gather (o.candidates step) nodes) where
  nodup := nodup_gather fun c _ => nodup_candidates hf step c
  ancestorsFirst := by
    -- from one node in document order, which puts ancestors first
    refine pairwise_gather (fun _ c _ _ => (candidates_pairwise hf step c).imp fun h _ _ =>
      h.not_above) ?_
    rintro before d after rfl c hc x hx y hy hn
    have hn := hn c hc
    simp only [mem_candidates hf] at hx hy hn
    have hcd := (List.pairwise_append.1 h.ancestorsFirst).2.2 c hc d List.mem_cons_self
    exact hx.not_above hcd hy hn
  inView x hx := by
    obtain ⟨c, hc, hx⟩ := mem_gather.1 hx
    exact inView_of_candidates hf (h.inView c hc) hx

/-! ### Contexts -/

theorem expandAll_outer (hf : o.Faultless) (nodes : List tree.NodeId) :
    o.expandAll step (nodes.map fun node => (node, false)) [] =
      nodes.flatMap (o.candidates step) := by
  induction nodes using List.reverseRecOn with
  | nil => rfl
  | append_singleton nodes node ih =>
      rw [List.map_append, List.map_singleton, expandAll_concat, ih, expand_outer hf,
        List.flatMap_append, List.flatMap_singleton]

theorem Frontier.init {nodes : List tree.NodeId} {node : tree.NodeId}
    (h : o.Frontier root (nodes ++ [node])) : o.Frontier root nodes where
  nodup := (List.nodup_append.1 h.nodup).1
  ancestorsFirst := (List.pairwise_append.1 h.ancestorsFirst).1
  inView x hx := h.inView x (List.mem_append_left _ hx)

theorem Frontier.not_above_of_concat {nodes : List tree.NodeId} {node c : tree.NodeId}
    (h : o.Frontier root (nodes ++ [node])) (hc : c ∈ nodes) : ¬ tree.Above node c :=
  (List.pairwise_append.1 h.ancestorsFirst).2.2 c hc node (List.mem_singleton_self _)

/-- The topmost of the nodes above a given one has no other node above it. -/
theorem exists_outermost {nodes : List tree.NodeId} {x : tree.NodeId}
    (h : ∃ c ∈ nodes, tree.Above c x) :
    ∃ c ∈ nodes, tree.Above c x ∧ ∀ d ∈ nodes, ¬ tree.Above d c := by
  obtain ⟨c, hc, hcx⟩ := h
  -- on the place of the node: what is above it stands before it
  induction hn : c.val using Nat.strongRecOn generalizing c with
  | ind n ih =>
      by_cases hd : ∃ d ∈ nodes, tree.Above d c
      · obtain ⟨d, hd, hdc⟩ := hd
        exact ih d.val (hn ▸ hdc.lt) d hd (hdc.trans hcx) rfl
      · exact ⟨c, hc, hcx, fun d hd' hdc => hd ⟨d, hd', hdc⟩⟩

/-- Whether a node is nested, where the contexts before it are known. -/
theorem isBelow_iff_of_mem (hf : o.Faultless) {nodes : List tree.NodeId} (node : tree.NodeId)
    {contexts : List (tree.NodeId × Bool)}
    (hc : ∀ c, (c, false) ∈ contexts ↔ c ∈ nodes ∧ ∀ d ∈ nodes, ¬ tree.Above d c) :
    o.isBelow node contexts = true ↔ ∃ c ∈ nodes, tree.Above c node := by
  rw [isBelow_faultless hf]
  constructor
  · rintro ⟨c, hm, hcn⟩
    exact ⟨c, ((hc c).1 hm).1, hcn⟩
  · intro h
    obtain ⟨c, hm, hcn, hout⟩ := exists_outermost h
    exact ⟨c, (hc c).2 ⟨hm, hout⟩, hcn⟩

/-- A node is added to the contexts as one of either kind, or not at all. -/
theorem separate_concat_of_mem (hf : o.Faultless) {nodes : List tree.NodeId} (node : tree.NodeId)
    (hc : ∀ c, (c, false) ∈ o.separate [] nodes ↔ c ∈ nodes ∧ ∀ d ∈ nodes, ¬ tree.Above d c) :
    (¬ (∃ c ∈ nodes, tree.Above c node) ∧
        o.separate [] (nodes ++ [node]) = o.separate [] nodes ++ [(node, false)]) ∨
      ((∃ c ∈ nodes, tree.Above c node) ∧ o.options.maxDepth.isSome = true ∧
        o.separate [] (nodes ++ [node]) = o.separate [] nodes ++ [(node, true)]) ∨
      ((∃ c ∈ nodes, tree.Above c node) ∧ o.options.maxDepth = none ∧
        o.separate [] (nodes ++ [node]) = o.separate [] nodes) := by
  have hbelow := isBelow_iff_of_mem hf node hc
  rw [separate_concat]
  by_cases h : ∃ c ∈ nodes, tree.Above c node
  · have hb := hbelow.2 h
    have hne : (o.separate [] nodes).isEmpty = false := by
      obtain ⟨c, hm, _, hout⟩ := exists_outermost h
      simpa using List.ne_nil_of_mem ((hc c).2 ⟨hm, hout⟩)
    rw [hne, hb]
    simp only [Bool.not_true, Bool.or_self, Bool.false_eq_true, if_false]
    cases hm : o.options.maxDepth with
    | some bound => exact Or.inr (Or.inl ⟨h, rfl, rfl⟩)
    | none => exact Or.inr (Or.inr ⟨h, rfl, rfl⟩)
  · have hb : o.isBelow node (o.separate [] nodes) = false := by
      simpa using fun hb => h (hbelow.1 hb)
    rw [hb]
    exact Or.inl ⟨h, by simp⟩

theorem outermost_concat {nodes : List tree.NodeId} {node : tree.NodeId}
    (h : o.Frontier root (nodes ++ [node])) (c : tree.NodeId) :
    (c ∈ nodes ++ [node] ∧ ∀ d ∈ nodes ++ [node], ¬ tree.Above d c) ↔
      (c ∈ nodes ∧ ∀ d ∈ nodes, ¬ tree.Above d c) ∨
        c = node ∧ ¬ ∃ d ∈ nodes, tree.Above d node := by
  simp only [List.mem_append, List.mem_singleton]
  constructor
  · rintro ⟨hc | rfl, hout⟩
    · exact Or.inl ⟨hc, fun d hd => hout d (Or.inl hd)⟩
    · exact Or.inr ⟨rfl, fun ⟨d, hd, hdc⟩ => hout d (Or.inl hd) hdc⟩
  · rintro (⟨hc, hout⟩ | ⟨rfl, hout⟩)
    · refine ⟨Or.inl hc, ?_⟩
      rintro d (hd | rfl)
      · exact hout d hd
      · exact h.not_above_of_concat hc
    · refine ⟨Or.inr rfl, ?_⟩
      rintro d (hd | rfl) hdc
      · exact hout ⟨d, hd, hdc⟩
      · exact Tree.Above.irrefl _ hdc

/-- The contexts that are not nested are those without another node of the frontier above them. -/
theorem mem_separate (hf : o.Faultless) {nodes : List tree.NodeId} (h : o.Frontier root nodes)
    (c : tree.NodeId) :
    (c, false) ∈ o.separate [] nodes ↔ c ∈ nodes ∧ ∀ d ∈ nodes, ¬ tree.Above d c := by
  induction nodes using List.reverseRecOn generalizing c with
  | nil => simp [separate]
  | append_singleton nodes node ih =>
      have ih := ih h.init
      rw [outermost_concat h]
      -- the node becomes an outer context, a nested one, or none
      obtain ⟨hn, hs⟩ | ⟨hn, _, hs⟩ | ⟨hn, _, hs⟩ := separate_concat_of_mem hf node ih
      · simp [hs, ih, hn]
      · simp [hs, ih, hn]
      · simp [hs, ih, hn]

/-! ### Steps -/

/-- What a node selects is selected from every node above it, where levels are not bounded. -/
theorem candidates_of_above (hf : o.Faultless) (ha : step.axis = .descendant ∨ step.axis = .any)
    (hm : o.options.maxDepth = none) {c d x : tree.NodeId}
    (hd : ∃ n, tree.SeenBelow o.options root n d) (hc : ∃ n, tree.SeenBelow o.options root n c)
    (hcd : tree.Above c d) (hx : x ∈ o.candidates step d) : x ∈ o.candidates step c := by
  obtain ⟨n, hd⟩ := hd
  obtain ⟨m, hc⟩ := hc
  obtain ⟨j, _, hcd⟩ := hd.lower hcd (hc.eq_or_above.imp_left Eq.symm)
  exact (mem_candidates hf).2 (((mem_candidates hf).1 hx).of_seenBelow ha hm hcd)

/-- What is selected lies below the node that it is selected from. -/
theorem above_of_candidates (hf : o.Faultless) (ha : step.axis ≠ .self) {c x : tree.NodeId}
    (hx : x ∈ o.candidates step c) : tree.Above c x :=
  above_of_mem_picks ha (picks_faultless hf c ▸ hx)

/-- The contexts of a step below them gather what each node selects. -/
theorem expandAll_separate (hf : o.Faultless)
    (ha : step.axis = .descendant ∨ step.axis = .any) {nodes : List tree.NodeId}
    (h : o.Frontier root nodes) :
    o.expandAll step (o.separate [] nodes) [] = AccessQuery.gather (o.candidates step) nodes := by
  induction nodes using List.reverseRecOn with
  | nil => rfl
  | append_singleton nodes node ih =>
      have ih := ih h.init
      have hself : step.axis ≠ .self := by
        rcases ha with ha | ha <;> simp [ha]
      rw [gather_concat]
      obtain ⟨hn, hs⟩ | ⟨hn, _, hs⟩ | ⟨hn, hm, hs⟩ :=
        separate_concat_of_mem hf node (mem_separate hf h.init)
      · -- what lies below an outer context does not lie below an earlier one
        have hnew : ∀ x ∈ o.candidates step node,
            x ∉ AccessQuery.gather (o.candidates step) nodes := by
          intro x hx hg
          obtain ⟨c, hc, hxc⟩ := mem_gather.1 hg
          rcases (above_of_candidates hf hself hx).comparable (above_of_candidates hf hself hxc)
            with rfl | hnc | hcn
          · exact (List.nodup_append.1 h.nodup).2.2 _ hc _ (List.mem_singleton_self _) rfl
          · exact h.not_above_of_concat hc hnc
          · exact hn ⟨c, hc, hcn⟩
        rw [hs, expandAll_concat, ih, expand_outer hf,
          List.filter_eq_self.2 fun x hx => decide_eq_true (hnew x hx)]
      · -- what lies below a nested context is compared with what has been selected
        rw [hs, expandAll_concat, ih, expand_nested hf ha]
      · -- what lies below a nested context has been selected
        rw [hs, ih]
        refine (List.append_right_eq_self.2 (List.filter_eq_nil_iff.2 fun x hx => ?_)).symm
        obtain ⟨c, hc, hcn⟩ := hn
        have hnode : node ∈ nodes ++ [node] := by simp
        have hxc := candidates_of_above hf ha hm (h.inView node hnode)
          (h.inView c (List.mem_append_left _ hc)) hcn hx
        simpa using mem_gather.2 ⟨c, hc, hxc⟩

/-- What different nodes select is different, except below them. -/
theorem candidates_disjoint (hf : o.Faultless) (ha : step.axis = .self ∨ step.axis = .child)
    {c d x : tree.NodeId} (hcd : c ≠ d) (hx : x ∈ o.candidates step c) :
    x ∉ o.candidates step d := by
  intro hxd
  rw [mem_candidates hf] at hx hxd
  unfold Step.Selects at hx hxd
  rcases ha with ha | ha
  · rw [ha] at hx hxd
    exact hcd (hx.1.symm.trans hxd.1)
  · rw [ha] at hx hxd
    exact hcd (Option.some.inj
      ((Tree.parent?_of_seen hx.1).symm.trans (Tree.parent?_of_seen hxd.1)))

/-- A step gathers what each node of a frontier selects by itself. -/
theorem step_faultless (hf : o.Faultless) {nodes : List tree.NodeId}
    (h : o.Frontier root nodes) :
    o.step step nodes = AccessQuery.gather (o.candidates step) nodes := by
  rw [Outlook.step, contextsFor]
  by_cases hbelow : step.axis = .descendant ∨ step.axis = .any
  · by_cases hlen : 1 < nodes.length
    · rw [if_pos ⟨hbelow, hlen⟩]
      exact expandAll_separate hf hbelow h
    · rw [if_neg fun hc => hlen hc.2, expandAll_outer hf]
      cases nodes with
      | nil => rfl
      | cons node rest =>
          cases rest with
          | nil => simp [AccessQuery.gather]
          | cons next rest => exact absurd (by simp) hlen
  · have ha : step.axis = .self ∨ step.axis = .child := by
      cases hax : step.axis <;> simp [hax] at hbelow ⊢
    rw [if_neg fun hc => hbelow hc.1, expandAll_outer hf]
    -- the contexts are not separated, since what they select does not overlap
    exact (gather_eq_flatMap (h.nodup.imp fun hcd x hx => candidates_disjoint hf ha hcd hx)).symm

/-- A step leaves a frontier. -/
theorem Frontier.of_step (hf : o.Faultless) {nodes : List tree.NodeId}
    (h : o.Frontier root nodes) (step : Step) : o.Frontier root (o.step step nodes) :=
  step_faultless hf h ▸ h.gather hf step

/-! ### Queries -/

/-- A query gathers, step by step. -/
def gatherSteps (o : Outlook tree) (steps : List Step) (nodes : List tree.NodeId) :
    List tree.NodeId :=
  steps.foldl (fun nodes step => AccessQuery.gather (o.candidates step) nodes) nodes

theorem resolve_faultless (hf : o.Faultless) (steps : List Step) (atRoot : Bool)
    {nodes : List tree.NodeId} (h : o.Frontier root nodes) :
    o.resolve steps atRoot nodes = .ok (o.gatherSteps steps nodes) := by
  induction steps generalizing atRoot nodes with
  | nil => rfl
  | cons step rest ih =>
      -- the root is readable
      have hreach : (if atRoot then nodes.findSome? (o.obstacle? step) else none) = none := by
        cases atRoot with
        | false => rfl
        | true => exact List.findSome?_eq_none_iff.2 fun node _ => obstacle?_faultless hf node
      rw [resolve, hreach]
      dsimp only
      rw [ih _ (h.of_step hf step), step_faultless hf h]
      rfl

theorem Frontier.gatherSteps (hf : o.Faultless) (steps : List Step) {nodes : List tree.NodeId}
    (h : o.Frontier root nodes) : o.Frontier root (o.gatherSteps steps nodes) := by
  induction steps generalizing nodes with
  | nil => exact h
  | cons step rest ih => exact ih (h.gather hf step)

/-- What a query gathers is what it selects. -/
theorem mem_gatherSteps (hf : o.Faultless) (steps : List Step) {nodes : List tree.NodeId}
    {x : tree.NodeId} :
    x ∈ o.gatherSteps steps nodes ↔ x ∈ selection o.options steps {c | c ∈ nodes} := by
  induction steps generalizing nodes with
  | nil => rfl
  | cons step rest ih =>
      have hstep : {c | c ∈ AccessQuery.gather (o.candidates step) nodes} =
          {x | ∃ c ∈ nodes, step.Selects o.options c x} := by
        ext x
        simp only [Set.mem_ofPred_eq, mem_gather, mem_candidates hf]
      have h := @ih (AccessQuery.gather (o.candidates step) nodes)
      rw [hstep] at h
      exact h

end Outlook

end AccessQuery
