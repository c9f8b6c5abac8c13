/-
**The order in which matches are listed.**

Steps lead from a node to others along routes.  A resolution lists its matches in the order of their
first routes, where routes are compared node by node in document order.  This is not document order:
a node may be reached early along a route that passes it by and comes back.  It is document order if
the frontiers stay in document order, which they do until children are looked for below nodes that
lie below one another.

Main definitions:

* `AccessQuery.Route` — the ways along which steps lead from one node to another;
* `AccessQuery.ListedBefore` — the order of first routes.

Main results:

* `AccessQuery.Outlook.gatherSteps_listed` — what a query gathers is listed in that order;
* `AccessQuery.Session.resolve_in_order_iff` — whether a resolution returns document order.
-/

import AccessQuery.Proofs.Semantics

set_option relaxedAutoImplicit false
set_option autoImplicit false

namespace AccessQuery

variable {tree : Tree} {options : ResolveOptions} {root c x y : tree.NodeId}
variable {r s : List tree.NodeId}

/-! ### Routes -/

/-- Steps lead from one node to another along a route: the nodes that they select, one after
another. -/
def Route (options : ResolveOptions) :
    List Step → tree.NodeId → List tree.NodeId → tree.NodeId → Prop
  | [], c, route, x => route = [] ∧ x = c
  | step :: rest, c, route, x =>
      ∃ b later, route = b :: later ∧ step.Selects options c b ∧ Route options rest b later x

/-- One node is listed before another: along one of its routes it is reached before the other is
reached along any of its own. -/
def ListedBefore (options : ResolveOptions) (steps : List Step) (root x y : tree.NodeId) : Prop :=
  ∃ r, Route options steps root r x ∧
    ∀ s, Route options steps root s y → List.Lex tree.Precedes r s

theorem Route.length_eq {steps : List Step} (h : Route options steps c r x) :
    r.length = steps.length := by
  induction steps generalizing c r with
  | nil => rw [h.1, List.length_nil, List.length_nil]
  | cons step rest ih =>
      obtain ⟨b, later, rfl, _, h⟩ := h
      rw [List.length_cons, List.length_cons, ih h]

theorem route_concat {steps : List Step} {step : Step} :
    Route options (steps ++ [step]) c r x ↔
      ∃ b earlier, r = earlier ++ [x] ∧ Route options steps c earlier b ∧
        step.Selects options b x := by
  induction steps generalizing c r with
  | nil =>
      constructor
      · rintro ⟨b, later, rfl, hb, rfl, rfl⟩
        exact ⟨c, [], rfl, ⟨rfl, rfl⟩, hb⟩
      · rintro ⟨b, earlier, rfl, ⟨rfl, rfl⟩, hx⟩
        exact ⟨x, [], rfl, hx, rfl, rfl⟩
  | cons a steps ih =>
      constructor
      · rintro ⟨b, later, rfl, hb, h⟩
        obtain ⟨d, earlier, rfl, hd, hx⟩ := ih.1 h
        exact ⟨d, b :: earlier, rfl, ⟨b, earlier, rfl, hb, hd⟩, hx⟩
      · rintro ⟨d, earlier, rfl, ⟨b, later, rfl, hb, hd⟩, hx⟩
        exact ⟨b, later ++ [x], rfl, hb, ih.2 ⟨d, later, rfl, hd, hx⟩⟩

/-- Routes lead to the nodes that are selected. -/
theorem mem_selection_iff_route {steps : List Step} {nodes : Set tree.NodeId} :
    x ∈ selection options steps nodes ↔ ∃ c ∈ nodes, ∃ r, Route options steps c r x := by
  induction steps generalizing nodes with
  | nil =>
      constructor
      · exact fun h => ⟨x, h, [], rfl, rfl⟩
      · rintro ⟨c, hc, r, rfl, rfl⟩
        exact hc
  | cons step rest ih =>
      rw [selection, ih]
      constructor
      · rintro ⟨b, ⟨c, hc, hb⟩, r, hr⟩
        exact ⟨c, hc, b :: r, b, r, rfl, hb, hr⟩
      · rintro ⟨c, hc, _, b, r, rfl, hb, hr⟩
        exact ⟨b, ⟨c, hc, hb⟩, r, hr⟩

/-! ### Comparing routes -/

theorem lex_append {α : Type} {R : α → α → Prop} {a b : List α} (h : List.Lex R a b)
    (hl : a.length = b.length) (u v : List α) : List.Lex R (a ++ u) (b ++ v) := by
  induction h with
  | nil => cases hl
  | rel h => exact .rel h
  | cons _ ih => exact .cons (ih (Nat.succ.inj hl))

theorem lex_append_left {α : Type} {R : α → α → Prop} (a : List α) {u v : List α}
    (h : List.Lex R u v) : List.Lex R (a ++ u) (a ++ v) := by
  induction a with
  | nil => exact h
  | cons a as ih => exact .cons ih

theorem lt_of_lex (h : List.Lex tree.Precedes r s) : r.map tree.trail < s.map tree.trail := by
  induction h with
  | nil => exact .nil
  | rel h => exact .rel h
  | cons _ ih => exact .cons ih

theorem lex_asymm (h : List.Lex tree.Precedes r s) : ¬ List.Lex tree.Precedes s r :=
  fun h' => List.lt_irrefl _ (List.lt_trans (lt_of_lex h) (lt_of_lex h'))

/-- Of two nodes, one at most is listed before the other. -/
theorem ListedBefore.asymm {steps : List Step} (h : ListedBefore options steps root x y) :
    ¬ ListedBefore options steps root y x := by
  rintro ⟨s, hs, hys⟩
  obtain ⟨r, hr, hxr⟩ := h
  exact lex_asymm (hxr s hs) (hys r hr)

/-! ### First routes -/

/-- Nodes are ranked by their first routes, and listed by rank. -/
structure Ranked (options : ResolveOptions) (steps : List Step) (root : tree.NodeId)
    (nodes : List tree.NodeId) (rank : tree.NodeId → List tree.NodeId) : Prop where
  /-- The rank is a route, -/
  route : ∀ x ∈ nodes, Route options steps root (rank x) x
  /-- and every other route comes later. -/
  first : ∀ x ∈ nodes, ∀ s, Route options steps root s x →
    s = rank x ∨ List.Lex tree.Precedes (rank x) s
  listed : nodes.Pairwise fun x y => List.Lex tree.Precedes (rank x) (rank y)

theorem Ranked.pairwise {steps : List Step} {nodes : List tree.NodeId}
    {rank : tree.NodeId → List tree.NodeId} (h : Ranked options steps root nodes rank) :
    nodes.Pairwise (ListedBefore options steps root) := by
  refine h.listed.imp_of_mem fun {x y} hx hy hxy => ⟨rank x, h.route x hx, fun s hs => ?_⟩
  rcases h.first y hy s hs with rfl | hlt
  · exact hxy
  · exact List.lex_trans (fun hab hbc => Tree.Precedes.trans hab hbc) hxy hlt

/-- Routes through a later context come later. -/
theorem Ranked.first_of_split {steps : List Step} {before after : List tree.NodeId}
    {rank : tree.NodeId → List tree.NodeId}
    (h : Ranked options steps root (before ++ c :: after) rank) {e : tree.NodeId}
    (he : e = c ∨ e ∈ after) (hs : Route options steps root s e) :
    s = rank c ∨ List.Lex tree.Precedes (rank c) s := by
  rcases he with rfl | he
  · exact h.first e (by simp) s hs
  · have hlisted : List.Lex tree.Precedes (rank c) (rank e) :=
      List.rel_of_pairwise_cons (List.pairwise_append.1 h.listed).2.1 he
    rcases h.first e (by simp [he]) s hs with rfl | hlt
    · exact Or.inr hlisted
    · exact Or.inr (List.lex_trans (fun hab hbc => Tree.Precedes.trans hab hbc) hlisted hlt)

namespace Outlook

variable {o : Outlook tree} {step : Step}

/-- The first of some contexts from which a node is selected. -/
def firstContext (o : Outlook tree) (step : Step) (contexts : List tree.NodeId) (x : tree.NodeId) :
    tree.NodeId :=
  (contexts.find? fun c => decide (x ∈ o.candidates step c)).getD x

theorem firstContext_eq {before after : List tree.NodeId} (hx : x ∈ o.candidates step c)
    (hn : ∀ d ∈ before, x ∉ o.candidates step d) :
    o.firstContext step (before ++ c :: after) x = c := by
  have hb : before.find? (fun c => decide (x ∈ o.candidates step c)) = none :=
    List.find?_eq_none.2 fun d hd => by simpa using hn d hd
  rw [firstContext, List.find?_append, hb]
  simp [hx]

/-- Where a node is selected from some context, the first one splits the contexts. -/
theorem exists_firstContext {contexts : List tree.NodeId}
    (hx : ∃ c ∈ contexts, x ∈ o.candidates step c) : ∃ before d after,
    contexts = before ++ d :: after ∧ o.firstContext step contexts x = d ∧
      x ∈ o.candidates step d ∧ ∀ e ∈ before, x ∉ o.candidates step e := by
  obtain ⟨c, hc, hx⟩ := hx
  cases hfind : contexts.find? fun c => decide (x ∈ o.candidates step c) with
  | none => exact absurd (decide_eq_true hx) (List.find?_eq_none.1 hfind c hc)
  | some d =>
      obtain ⟨hd, before, after, hsplit, hn⟩ := List.find?_eq_some_iff_append.1 hfind
      refine ⟨before, d, after, hsplit, ?_, of_decide_eq_true hd,
        fun e he => by simpa using hn e he⟩
      rw [firstContext, hfind, Option.getD_some]

/-- Gathering extends first routes: the first route to a node passes through the first context from
which it is selected. -/
theorem ranked_gather (hf : o.Faultless) {steps : List Step} {nodes : List tree.NodeId}
    {rank : tree.NodeId → List tree.NodeId} (h : Ranked o.options steps root nodes rank)
    (hall : ∀ x r, Route o.options steps root r x → x ∈ nodes) :
    Ranked o.options (steps ++ [step]) root (AccessQuery.gather (o.candidates step) nodes)
      fun x => rank (o.firstContext step nodes x) ++ [x] where
  route x hx := by
    obtain ⟨before, d, after, rfl, hd, hxd, _⟩ := exists_firstContext (mem_gather.1 hx)
    rw [hd]
    exact route_concat.2 ⟨d, _, rfl, h.route d (by simp), (mem_candidates hf).1 hxd⟩
  first x hx s hs := by
    obtain ⟨before, d, after, rfl, hd, _, hn⟩ := exists_firstContext (mem_gather.1 hx)
    obtain ⟨e, s, rfl, hs, hxe⟩ := route_concat.1 hs
    have he : e = d ∨ e ∈ after := by
      rcases List.mem_append.1 (hall e s hs) with he | he
      · exact absurd ((mem_candidates hf).2 hxe) (hn e he)
      · exact List.mem_cons.1 he
    rw [hd]
    -- routes to contexts are all as long as one another, so that what follows does not count
    rcases h.first_of_split he hs with rfl | hlt
    · exact Or.inl rfl
    · refine Or.inr (lex_append hlt ?_ _ _)
      rw [(h.route d (by simp)).length_eq, hs.length_eq]
  listed := by
    refine pairwise_gather ?_ ?_
    · -- from one context: the routes differ in their last node only
      rintro before c after rfl
      refine (candidates_pairwise hf step c).imp_of_mem fun hx hy hxy hnx hny => ?_
      rw [firstContext_eq hx hnx, firstContext_eq hy hny]
      exact lex_append_left _ (.rel hxy)
    · -- from different contexts: the earlier one may not be the first that selects `x`
      rintro before c after rfl d hd x hx y hy hn
      obtain ⟨first, e, later, rfl, _, hxe, hne⟩ := exists_firstContext ⟨d, hd, hx⟩
      have hlisted : List.Lex tree.Precedes (rank e) (rank c) :=
        (List.pairwise_append.1 h.listed).2.2 e (by simp) c List.mem_cons_self
      rw [firstContext_eq hy hn, List.append_assoc, List.cons_append, firstContext_eq hxe hne]
      refine lex_append hlisted ?_ _ _
      rw [(h.route e (by simp)).length_eq, (h.route c (by simp)).length_eq]

/-- A query gathers the nodes to which there are routes. -/
theorem mem_gatherSteps_iff_route (hf : o.Faultless) (steps : List Step) :
    x ∈ o.gatherSteps steps [root] ↔ ∃ r, Route o.options steps root r x := by
  rw [mem_gatherSteps hf, mem_selection_iff_route]
  simp

/-- What a query gathers is listed in the order of first routes. -/
theorem gatherSteps_ranked (hf : o.Faultless) (root : tree.NodeId) (steps : List Step) :
    ∃ rank, Ranked o.options steps root (o.gatherSteps steps [root]) rank := by
  induction steps using List.reverseRecOn with
  | nil =>
      refine ⟨fun _ => [], ?_, ?_, List.pairwise_singleton _ _⟩
      · exact fun x hx => ⟨rfl, List.mem_singleton.1 hx⟩
      · exact fun x _ s hs => Or.inl hs.1
  | append_singleton steps step ih =>
      -- the last step is taken from contexts whose first routes are known
      obtain ⟨rank, h⟩ := ih
      rw [gatherSteps, List.foldl_append]
      exact ⟨_, ranked_gather hf h fun x r hr => (mem_gatherSteps_iff_route hf steps).2 ⟨r, hr⟩⟩

theorem gatherSteps_listed (hf : o.Faultless) (root : tree.NodeId) (steps : List Step) :
    (o.gatherSteps steps [root]).Pairwise (ListedBefore o.options steps root) := by
  obtain ⟨rank, h⟩ := gatherSteps_ranked hf root steps
  exact h.pairwise

/-- What a query gathers is in document order if the order of first routes is. -/
theorem gatherSteps_pairwise_iff (hf : o.Faultless) (steps : List Step) :
    (o.gatherSteps steps [root]).Pairwise tree.Precedes ↔
      ∀ x ∈ selection o.options steps {root}, ∀ y ∈ selection o.options steps {root},
        tree.Precedes x y → ListedBefore o.options steps root x y := by
  have hmem (x : tree.NodeId) :
      x ∈ o.gatherSteps steps [root] ↔ x ∈ selection o.options steps {root} := by
    rw [mem_gatherSteps hf]
    simp
  have hlisted := gatherSteps_listed hf root steps
  simp only [← hmem]
  constructor
  · -- two places of one list are in its order, or in the reverse of it
    intro hp x hx y hy
    have hforth : (o.gatherSteps steps [root]).Pairwise fun x y =>
        tree.Precedes x y → ListedBefore o.options steps root x y := by
      refine hlisted.imp ?_
      exact fun h _ => h
    have hback : (o.gatherSteps steps [root]).Pairwise (flip fun x y =>
        tree.Precedes x y → ListedBefore o.options steps root x y) := by
      refine hp.imp ?_
      exact fun hxy hyx => absurd hyx hxy.asymm
    exact hforth.forall_of_forall_of_flip (fun x _ hxx => absurd hxx (Tree.Precedes.irrefl x))
      hback hx hy
  · intro h
    refine hlisted.imp_of_mem fun {x y} hx hy hxy => ?_
    have hne : x ≠ y := by
      rintro rfl
      exact hxy.asymm hxy
    rcases Tree.Precedes.total hne with hp | hp
    · exact hp
    · exact absurd (h y hy x hx hp) hxy.asymm

end Outlook

/-! ### Resolutions in document order -/

/-- A node is the first of a set in document order; there is none if the set is empty. -/
def IsFirstOf (nodes : Set tree.NodeId) : Option tree.NodeId → Prop
  | none => nodes = ∅
  | some x => x ∈ nodes ∧ ∀ y ∈ nodes, y ≠ x → tree.Precedes x y

theorem isFirstOf_head? {nodes : List tree.NodeId} (h : nodes.Pairwise tree.Precedes) :
    IsFirstOf {x | x ∈ nodes} nodes.head? := by
  cases nodes with
  | nil =>
      ext x
      simp
  | cons x nodes =>
      refine ⟨List.mem_cons_self, fun y hy hne => ?_⟩
      exact List.rel_of_pairwise_cons h ((List.mem_cons.1 hy).resolve_left hne)

namespace Session

variable {start : Session tree} {handle : Handle} {node : tree.NodeId}

/-- The matches of an undisturbed resolution are listed in the order of their first routes, and a
search for one match finds the first of them.  So they are listed in document order, and the search
finds the first match in document order, exactly if every match that precedes another is listed
before it. -/
theorem resolve_in_order_iff (h : start.Undisturbed options handle node) (query : Query) :
    ∃ (found : List Handle) (after : Session tree) (nodes : List tree.NodeId)
      (first : Option Handle) (after' : Session tree),
      resolve options query handle start = (.ok found, after) ∧
      after.nodesOf found = nodes.map some ∧
      findFirst options query handle start = (.ok first, after') ∧
      after'.nodesOf first.toList = nodes.head?.toList.map some ∧
      (∀ x, x ∈ nodes ↔ x ∈ selection options query.steps {node}) ∧
      nodes.Pairwise (ListedBefore options query.steps node) ∧
      (nodes.Pairwise tree.Precedes ∧
          IsFirstOf (selection options query.steps {node}) nodes.head? ↔
        ∀ x ∈ selection options query.steps {node}, ∀ y ∈ selection options query.steps {node},
          tree.Precedes x y → ListedBefore options query.steps node x y) := by
  obtain ⟨found, after, hrun, hnodes⟩ := resolve_undisturbed h query
  obtain ⟨first, after', hrun', hnodes'⟩ := findFirst_undisturbed h query
  have hf := h.faultless_outlook
  refine ⟨found, after, _, first, after', hrun, hnodes, hrun', hnodes', mem_gathered_iff h query,
    Outlook.gatherSteps_listed hf node _, ?_⟩
  -- once the list is in document order, its head comes first
  refine Iff.trans ?_ (Outlook.gatherSteps_pairwise_iff hf query.steps)
  rw [selection_eq_gathered h query]
  exact and_iff_left_of_imp isFirstOf_head?

/-- Below the root of a tree in which nodes lie below one another. -/
theorem resolve_in_order_iff_opening :
    let tree := ((Tree.single (Element.new "frame" "")).addChild ⟨0, by decide⟩
      (Element.new "panel" "")).addChild ⟨1, by decide⟩ (Element.new "label" "")
    let opened := opening tree ⟨0, by decide⟩ fun _ _ => none
    let options : ResolveOptions := { visibleOnly := true, maxDepth := some 2 }
    let query : Query := ⟨[⟨.any, .wildcard, none⟩, ⟨.child, .role "label", some .last⟩],
      by decide⟩
    opened.2.Undisturbed options opened.1 ⟨0, by decide⟩ ∧
      ∃ (found : List Handle) (after : Session tree) (nodes : List tree.NodeId)
        (first : Option Handle) (after' : Session tree),
        resolve options query opened.1 opened.2 = (.ok found, after) ∧
        after.nodesOf found = nodes.map some ∧
        findFirst options query opened.1 opened.2 = (.ok first, after') ∧
        after'.nodesOf first.toList = nodes.head?.toList.map some ∧
        (∀ x, x ∈ nodes ↔ x ∈ selection options query.steps {⟨0, by decide⟩}) ∧
        nodes.Pairwise (ListedBefore options query.steps ⟨0, by decide⟩) ∧
        (nodes.Pairwise tree.Precedes ∧
            IsFirstOf (selection options query.steps {⟨0, by decide⟩}) nodes.head? ↔
          ∀ x ∈ selection options query.steps {⟨0, by decide⟩},
            ∀ y ∈ selection options query.steps {⟨0, by decide⟩},
            tree.Precedes x y → ListedBefore options query.steps ⟨0, by decide⟩ x y) := by
  intro tree opened options query
  have h : opened.2.Undisturbed options opened.1 ⟨0, by decide⟩ :=
    undisturbed_opening tree ⟨0, by decide⟩ (by decide) rfl
  exact ⟨h, resolve_in_order_iff h query⟩

/-- Children are looked for below a node and below another that lies below it.  The one that comes
back up is listed too late, and the search for one match finds another. -/
theorem resolve_out_of_order :
    let tree := ((((Tree.single (Element.new "frame" "")).addChild ⟨0, by decide⟩
      (Element.new "panel" "")).addChild ⟨1, by decide⟩ (Element.new "panel" "")).addChild
      ⟨1, by decide⟩ (Element.new "label" "")).addChild ⟨2, by decide⟩ (Element.new "label" "")
    let opened := opening tree ⟨0, by decide⟩ fun _ _ => none
    let query : Query := ⟨[⟨.any, .wildcard, none⟩, ⟨.child, .wildcard, some .last⟩], by decide⟩
    opened.2.Undisturbed {} opened.1 ⟨0, by decide⟩ ∧
      ∃ (found : List Handle) (after : Session tree) (first : Option Handle)
        (after' : Session tree),
        resolve {} query opened.1 opened.2 = (.ok found, after) ∧
        after.nodesOf found = [some ⟨3, by decide⟩, some ⟨4, by decide⟩] ∧
        findFirst {} query opened.1 opened.2 = (.ok first, after') ∧
        after'.nodesOf first.toList = [some ⟨3, by decide⟩] ∧
        tree.Precedes ⟨4, by decide⟩ ⟨3, by decide⟩ := by
  intro tree opened query
  have h : opened.2.Undisturbed {} opened.1 ⟨0, by decide⟩ :=
    undisturbed_opening tree ⟨0, by decide⟩ (by decide) rfl
  have hgather : (opened.2.outlook {}).gatherSteps query.steps [⟨0, by decide⟩] =
      [⟨3, by decide⟩, ⟨4, by decide⟩] := by decide +kernel
  obtain ⟨found, after, hrun, hnodes⟩ := resolve_undisturbed h query
  obtain ⟨first, after', hrun', hnodes'⟩ := findFirst_undisturbed h query
  rw [hgather] at hnodes hnodes'
  exact ⟨h, found, after, first, after', hrun, hnodes, hrun', hnodes', by decide +kernel⟩

end Session

end AccessQuery
