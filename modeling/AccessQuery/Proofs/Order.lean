/-
**Queries that stay in document order.**

Whether matches are listed in document order depends on the tree, but some queries list them so in
every tree: those that look for children only below nodes that lie apart.  Nodes lie apart while
every step takes one level or none; below the first step that takes more, nodes may lie below one
another.  There, descendant steps without a bound still keep the order, since what they select below
a nested node has been selected before.

Main definitions:

* `AccessQuery.ResolveOptions.keepsOrder` — the queries that stay in document order;
* `AccessQuery.Tree.Apart` — nodes that do not lie below one another.

Main results:

* `AccessQuery.Outlook.gatherSteps_pairwise` — what such a query gathers is in document order;
* `AccessQuery.Session.resolve_in_order` — and so is what a resolution returns.
-/

import AccessQuery.Proofs.Listing

set_option relaxedAutoImplicit false
set_option autoImplicit false

namespace AccessQuery

variable {tree : Tree} {options : ResolveOptions} {step : Step} {c d x y : tree.NodeId}

/-- Whether steps keep a frontier in document order, where its nodes are known to lie apart or
not. -/
def ResolveOptions.keepsOrder (options : ResolveOptions) : Bool → List Step → Bool
  | _, [] => true
  | apart, step :: rest =>
      match step.axis, options.maxDepth with
      | .self, _ => keepsOrder options apart rest
      | .child, _ => apart && keepsOrder options true rest
      | .descendant, none | .any, none => keepsOrder options false rest
      | .descendant, some bound | .any, some bound =>
          apart && keepsOrder options (decide (bound ≤ 1)) rest

/-- The nodes of a list do not lie below one another. -/
def Tree.Apart (tree : Tree) (nodes : List tree.NodeId) : Prop :=
  nodes.Pairwise fun x y => ¬ tree.Above x y ∧ ¬ tree.Above y x

/-! ### One step -/

/-- A step takes one level. -/
def Step.takesLevel (step : Step) (options : ResolveOptions) : Prop :=
  match step.axis with
  | .self => False
  | .child => True
  | .descendant | .any => ∃ bound ∈ options.maxDepth, bound ≤ 1

theorem Step.Selects.parent? (hl : step.takesLevel options) (h : step.Selects options c x) :
    tree.parent? x = some c := by
  unfold Step.Selects at h
  unfold Step.takesLevel at hl
  cases ha : step.axis <;> rw [ha] at h hl
  case self => exact hl.elim
  case child => exact Tree.parent?_of_seen h.1
  case descendant | any =>
    obtain ⟨bound, hb, hle⟩ := hl
    obtain ⟨⟨n, ⟨hn, hr⟩, h⟩, _⟩ := h
    obtain rfl : n = 1 := by
      have := hr bound hb
      omega
    obtain ⟨y, hy, h⟩ := h.head
    exact h.eq_of_zero ▸ Tree.parent?_of_seen hy

namespace Outlook

variable {o : Outlook tree} {root : tree.NodeId} {nodes : List tree.NodeId}

/-- What a step gathers is in document order, if what it selects from a node that lies below an
earlier one either is that node or has been selected from the earlier one. -/
theorem gather_precedes (hf : o.Faultless) (hp : nodes.Pairwise tree.Precedes)
    (hnested : nodes.Pairwise fun c d => tree.Above c d →
      ∀ x ∈ o.candidates step c, ∀ y ∈ o.candidates step d, y ∉ o.candidates step c →
        tree.Precedes x y) :
    (AccessQuery.gather (o.candidates step) nodes).Pairwise tree.Precedes := by
  refine pairwise_gather
    (fun _ c _ _ => (candidates_pairwise hf step c).imp fun h _ _ => h) ?_
  rintro before c after rfl d hd x hx y hy hn
  have hdc : tree.Precedes d c := (List.pairwise_append.1 hp).2.2 d hd c List.mem_cons_self
  -- everything below the earlier of two nodes that lie apart precedes what is below the other
  by_cases ha : tree.Above d c
  · exact (List.pairwise_append.1 hnested).2.2 d hd c List.mem_cons_self ha x hx y hy (hn d hd)
  · exact hdc.of_apart ha ((mem_candidates hf).1 hx).eq_or_above
      ((mem_candidates hf).1 hy).eq_or_above

theorem gather_precedes_of_apart (hf : o.Faultless) (hp : nodes.Pairwise tree.Precedes)
    (ha : tree.Apart nodes) :
    (AccessQuery.gather (o.candidates step) nodes).Pairwise tree.Precedes := by
  refine gather_precedes hf hp (ha.imp ?_)
  exact fun h hcd => absurd hcd h.1

/-- Nodes one level below nodes that lie apart lie apart. -/
theorem gather_apart (hf : o.Faultless) (hl : step.takesLevel o.options)
    (ha : tree.Apart nodes) : tree.Apart (AccessQuery.gather (o.candidates step) nodes) := by
  -- a node one level below another is not above a node one level below a third
  have hlevel {c d x y : tree.NodeId} (hcd : ¬ tree.Above c d) (hx : x ∈ o.candidates step c)
      (hy : y ∈ o.candidates step d) : ¬ tree.Above x y := by
    intro hxy
    have hcx := ((mem_candidates hf).1 hx).parent? hl
    have hdy := ((mem_candidates hf).1 hy).parent? hl
    rcases hxy.of_child hdy with rfl | hxd
    · exact hcd (.parent hcx)
    · exact hcd (Tree.Above.trans (.parent hcx) hxd)
  refine pairwise_gather (fun _ c _ _ => ?_) ?_
  · refine List.Pairwise.imp_of_mem (fun hx hy _ _ _ => ?_) (candidates_pairwise hf step c)
    exact ⟨hlevel (Tree.Above.irrefl c) hx hy, hlevel (Tree.Above.irrefl c) hy hx⟩
  · rintro before c after rfl d hd x hx y hy _
    have hdc := (List.pairwise_append.1 ha).2.2 d hd c List.mem_cons_self
    exact ⟨hlevel hdc.1 hx hy, hlevel hdc.2 hy hx⟩

/-- What a self step gathers is related as the nodes are. -/
theorem gather_self_pairwise (hf : o.Faultless) (ha : step.axis = .self)
    {R : tree.NodeId → tree.NodeId → Prop} (h : nodes.Pairwise R) :
    (AccessQuery.gather (o.candidates step) nodes).Pairwise R := by
  have hself {c x : tree.NodeId} (hx : x ∈ o.candidates step c) : x = c := by
    rw [mem_candidates hf, Step.Selects, ha] at hx
    exact hx.1
  refine pairwise_gather (fun _ c _ _ => ?_) ?_
  · refine (candidates_pairwise hf step c).imp_of_mem fun hx hy hxy _ _ => ?_
    rw [hself hx, hself hy] at hxy
    exact absurd hxy (Tree.Precedes.irrefl c)
  · rintro before c after rfl d hd x hx y hy _
    rw [hself hx, hself hy]
    exact (List.pairwise_append.1 h).2.2 d hd c List.mem_cons_self

/-- Below nested nodes, steps without a bound select what they have selected before. -/
theorem gather_precedes_of_unbounded (hf : o.Faultless)
    (ha : step.axis = .descendant ∨ step.axis = .any) (hm : o.options.maxDepth = none)
    (hfr : o.Frontier root nodes) (hp : nodes.Pairwise tree.Precedes) :
    (AccessQuery.gather (o.candidates step) nodes).Pairwise tree.Precedes := by
  refine gather_precedes hf hp (hp.imp_of_mem fun hc hd _ hcd x _ y hy hn => absurd ?_ hn)
  exact candidates_of_above hf ha hm (hfr.inView _ hd) (hfr.inView _ hc) hcd hy

/-! ### Queries -/

/-- What a query gathers stays in document order, if it keeps the order. -/
theorem gatherSteps_pairwise (hf : o.Faultless) (steps : List Step) {apart : Bool}
    (hk : o.options.keepsOrder apart steps = true) (hfr : o.Frontier root nodes)
    (hp : nodes.Pairwise tree.Precedes) (ha : apart = true → tree.Apart nodes) :
    (o.gatherSteps steps nodes).Pairwise tree.Precedes := by
  -- the order alone is not kept: whether the nodes lie apart is carried along
  induction steps generalizing nodes apart with
  | nil => exact hp
  | cons step rest ih =>
      have hnext := hfr.gather hf step
      cases hax : step.axis with
      | self =>
          simp only [ResolveOptions.keepsOrder, hax] at hk
          exact ih hk hnext (gather_self_pairwise hf hax hp)
            fun h => gather_self_pairwise hf hax (ha h)
      | child =>
          simp only [ResolveOptions.keepsOrder, hax, Bool.and_eq_true] at hk
          have hlevel : step.takesLevel o.options := by simp [Step.takesLevel, hax]
          exact ih hk.2 hnext (gather_precedes_of_apart hf hp (ha hk.1))
            fun _ => gather_apart hf hlevel (ha hk.1)
      | descendant | any =>
          cases hm : o.options.maxDepth with
          | none =>
              simp only [ResolveOptions.keepsOrder, hax, hm] at hk
              exact ih hk hnext (gather_precedes_of_unbounded hf (by simp [hax]) hm hfr hp)
                fun h => nomatch h
          | some bound =>
              simp only [ResolveOptions.keepsOrder, hax, hm, Bool.and_eq_true] at hk
              refine ih hk.2 hnext (gather_precedes_of_apart hf hp (ha hk.1)) fun h => ?_
              have hlevel : step.takesLevel o.options := by
                simpa [Step.takesLevel, hax, hm] using h
              exact gather_apart hf hlevel (ha hk.1)

end Outlook

/-- An undisturbed resolution of a query that keeps the order lists its matches in document order,
and a search for one match finds the first of them. -/
theorem Session.resolve_in_order {start : Session tree} {handle : Handle} {node : tree.NodeId}
    (h : start.Undisturbed options handle node) {query : Query}
    (hk : options.keepsOrder true query.steps = true) :
    ∃ (found : List Handle) (after : Session tree) (nodes : List tree.NodeId)
      (first : Option Handle) (after' : Session tree),
      resolve options query handle start = (.ok found, after) ∧
      after.nodesOf found = nodes.map some ∧ nodes.Pairwise tree.Precedes ∧
      findFirst options query handle start = (.ok first, after') ∧
      after'.nodesOf first.toList = nodes.head?.toList.map some ∧
      IsFirstOf (selection options query.steps {node}) nodes.head? := by
  obtain ⟨found, after, hrun, hnodes⟩ := resolve_undisturbed h query
  obtain ⟨first, after', hrun', hnodes'⟩ := findFirst_undisturbed h query
  have hp := Outlook.gatherSteps_pairwise h.faultless_outlook query.steps hk
    (Outlook.Frontier.singleton (start.outlook options) node) (List.pairwise_singleton _ _)
    fun _ => List.pairwise_singleton _ _
  exact ⟨found, after, _, first, after', hrun, hnodes, hp, hrun', hnodes',
    selection_eq_gathered h query ▸ isFirstOf_head? hp⟩

end AccessQuery
