/-
**No node is matched twice, unless comparing it failed.**

Steps below contexts avoid repetitions by climbing from one context to another, and by comparing
what they select.  Either may fail, and what cannot be compared counts as different.  So a node may
be matched more than once, but only if, of two nodes on the way down to it, the upper one cannot be
compared or the lower one cannot be asked for its parent, or if what was selected cannot be
compared: every other failure, and a failure anywhere else, does no harm.

What the proof follows through a resolution are the nodes of a frontier that lie on the way down to
one node.  They are listed from the top down.

Main definitions:

* `AccessQuery.Tree.TopDown` — nodes on the way down to one, in order;
* `AccessQuery.Outlook.TellsApart`, `AccessQuery.Session.TellsApart` — nothing on the way down to a
  node fails where nodes are told apart.

Main results:

* `AccessQuery.Outlook.Descent.of_step` — what each step preserves;
* `AccessQuery.Session.resolve_matches_once` — such a node is matched at most once;
* `AccessQuery.Session.resolve_matches_twice` — others may be matched more than once.
-/

import Mathlib.Data.List.Nodup
import AccessQuery.Proofs.Picks
import AccessQuery.Proofs.Steady

set_option relaxedAutoImplicit false
set_option autoImplicit false

namespace AccessQuery

variable {tree : Tree}

/-! ### On the way down -/

namespace Tree

variable {a b x : tree.NodeId}

/-- If two nodes are both on the way down to a node, the first is above the second. -/
def Leads (tree : Tree) (x a b : tree.NodeId) : Prop :=
  tree.AtOrAbove a x → tree.AtOrAbove b x → tree.Above a b

theorem Precedes.leads (h : tree.Precedes a b) : tree.Leads x a b := by
  intro ha hb
  rcases ha.comparable hb with rfl | hab | hba
  · exact absurd h (Precedes.irrefl a)
  · exact hab
  · exact absurd hba h.not_above

/-- The parents of two nodes on the way down are in the order of the nodes. -/
theorem leads_of_parents {c d : tree.NodeId} (hdc : tree.Above d c)
    (hpa : tree.parent? a = some d) (hpb : tree.parent? b = some c) : tree.Leads x a b := by
  intro ha hb
  rcases ha.comparable hb with rfl | hab | hba
  · have hsame : d = c := Option.some.inj (hpa.symm.trans hpb)
    exact absurd (hsame ▸ hdc) (Above.irrefl _)
  · exact hab
  · -- the parent of the one would be at or below that of the other
    have hcb : tree.Above c b := .parent hpb
    have hcd : tree.Above c d := hcb.of_atOrAbove (hba.of_child hpa)
    exact absurd hcd hdc.asymm

/-- The nodes of a list that lie on the way down to a node are listed from the top down. -/
def TopDown (tree : Tree) (x : tree.NodeId) (nodes : List tree.NodeId) : Prop :=
  nodes.Pairwise (tree.Leads x)

/-- So the node itself is listed once, if at all. -/
theorem TopDown.count_le_one {nodes : List tree.NodeId} (h : tree.TopDown x nodes) :
    nodes.count x ≤ 1 := by
  by_contra hcount
  have htwice : [x, x].Sublist nodes := List.replicate_sublist_iff.2 (not_le.1 hcount)
  have hxx := List.rel_of_pairwise_cons (h.sublist htwice) (List.mem_singleton_self x)
  exact Above.irrefl x (hxx (Or.inl rfl) (Or.inl rfl))

end Tree

namespace Outlook

variable {o : Outlook tree} {step : Step} {root x : tree.NodeId}

/-! ### Steps -/

/-- What tells nodes apart does not fail on the way from a root down to a node. -/
structure TellsApart (o : Outlook tree) (root x : tree.NodeId) : Prop where
  contexts : ∀ y z, tree.Above root y → tree.Above y z → tree.Above z x →
    o.fault? .sameObject y = none ∧ o.fault? .parent z = none
  selected : o.options.maxDepth.isSome = true → ∀ y, tree.Above root y → tree.AtOrAbove y x →
    o.fault? .sameObject y = none

/-- The frontier is the root itself or lies below it, and what it has on the way down to a node is
listed from the top down. -/
structure Descent (root x : tree.NodeId) (nodes : List tree.NodeId) : Prop where
  below : nodes = [root] ∨ ∀ a ∈ nodes, tree.Above root a
  topDown : tree.TopDown x nodes

theorem Descent.singleton (root x : tree.NodeId) : Descent root x [root] :=
  ⟨Or.inl rfl, List.pairwise_singleton _ _⟩

/-- A frontier of more than one node lies below the root. -/
theorem Descent.above_root {nodes : List tree.NodeId} (h : Descent root x nodes)
    (hlen : 1 < nodes.length) {a : tree.NodeId} (ha : a ∈ nodes) : tree.Above root a := by
  rcases h.below with rfl | hbelow
  · exact absurd hlen (by simp)
  · exact hbelow a ha

/-- A context below another on the way down to a node is recognized as nested. -/
theorem nested_of_above (hx : o.TellsApart root x) {contexts : List (tree.NodeId × Bool)}
    (hw : o.WellNested contexts) (hroot : ∀ c ∈ contexts, tree.Above root c.1)
    {before after : List (tree.NodeId × Bool)} {c d : tree.NodeId × Bool}
    (hsplit : contexts = before ++ c :: after) (hd : d ∈ before) (hdc : tree.Above d.1 c.1)
    (hcx : tree.Above c.1 x) : c.2 = true ∧ o.options.maxDepth.isSome = true := by
  have hmem : ∀ t ∈ before, t ∈ contexts := fun t ht => hsplit ▸ List.mem_append_left _ ht
  -- an outer context stands above the other one, or is the other one itself
  obtain ⟨t, ht, htc⟩ : ∃ t, (t, false) ∈ before ∧ tree.Above t c.1 := by
    obtain ⟨d, nested⟩ := d
    cases nested with
    | false => exact ⟨d, hd, hdc⟩
    | true =>
        obtain ⟨front, back, rfl⟩ := List.append_of_mem hd
        have hbelow := (hw front (d, true) (back ++ c :: after) (by simp [hsplit])).1.1 rfl
        obtain ⟨t, ht, htd⟩ := above_of_isBelow hbelow.2
        exact ⟨t, List.mem_append_left _ ht, htd.trans hdc⟩
  have hroott : tree.Above root t := hroot (t, false) (hmem _ ht)
  have hbelow : o.isBelow c.1 before = true := by
    refine isBelow_of_above ht htc (hx.contexts t c.1 hroott htc hcx).1 fun y hty hyc => ?_
    refine (hx.contexts t y hroott hty ?_).2
    rcases hyc with rfl | hyc
    · exact hcx
    · exact hyc.trans hcx
  have hnested := (hw before c after hsplit).1.2 ⟨List.ne_nil_of_mem hd, hbelow⟩
  exact ⟨hnested, (hw before c after hsplit).2 hnested⟩

/-- What a nested context adds below another is not above what the other selects. -/
theorem leads_of_nested (hx : o.TellsApart root x) (ha : step.axis = .descendant ∨ step.axis = .any)
    {c d a b : tree.NodeId} {selected : List tree.NodeId} (hroot : tree.Above root c)
    (hdc : tree.Above d c) (hsel : ∀ y ∈ o.picks step d, y ∈ selected)
    (hmax : o.options.maxDepth.isSome = true) (had : a ∈ o.picks step d)
    (hb : b ∈ o.expand step (c, true) selected) : tree.Leads x a b := by
  intro hxa hxb
  rw [expand_nested_eq_filter ha, List.mem_filter] at hb
  obtain ⟨hbc, hnew⟩ := hb
  have hcb := above_of_mem_meet ((mem_picks_below ha).1 hbc).2.1
  -- a node that was selected before would have been recognized
  have hfault : o.fault? .sameObject b = none := hx.selected hmax b (hroot.trans hcb) hxb
  have hb : b ∉ o.picks step d := fun hbd => by
    simp [isAmong_of_mem (hsel b hbd) hfault] at hnew
  rcases hxa.comparable hxb with rfl | hab | hba
  · exact absurd had hb
  · exact hab
  · -- it would have been met on the way down from the other context
    obtain ⟨hf, hmeet, -⟩ := (mem_picks_below ha).1 had
    refine absurd ((mem_picks_below ha).2 ⟨hf, ?_, ((mem_picks_below ha).1 hbc).2.2⟩) hb
    exact mem_meet_of_above hmeet hba (hdc.trans hcb)

/-- Where there are two contexts, they lie below the root, and those that are on the way down are
in order. -/
theorem Descent.of_contexts {nodes : List tree.NodeId} (h : Descent root x nodes)
    {before after : List (tree.NodeId × Bool)} {c d : tree.NodeId × Bool}
    (hsplit : o.contextsFor step nodes = before ++ c :: after) (hd : d ∈ before) :
    1 < nodes.length ∧ (∀ t ∈ o.contextsFor step nodes, tree.Above root t.1) ∧
      tree.Leads x d.1 c.1 := by
  have hsub : ((o.contextsFor step nodes).map Prod.fst).Sublist nodes :=
    o.contextsFor_sublist step nodes
  have hlen : 1 < nodes.length := by
    have hle := hsub.length_le
    have hpos := List.length_pos_of_mem hd
    rw [hsplit] at hle
    simp only [List.length_map, List.length_append, List.length_cons] at hle
    omega
  refine ⟨hlen, fun t ht => h.above_root hlen (hsub.mem (List.mem_map_of_mem ht)), ?_⟩
  have hpair := h.topDown.sublist hsub
  rw [hsplit, List.map_append, List.pairwise_append] at hpair
  exact hpair.2.2 _ (List.mem_map_of_mem hd) _ (by simp)

/-- Of what two contexts select, one after the other, the first leads. -/
theorem leads_of_contexts (hx : o.TellsApart root x) {nodes : List tree.NodeId}
    (h : Descent root x nodes) {before after : List (tree.NodeId × Bool)}
    {c : tree.NodeId × Bool} (hsplit : o.contextsFor step nodes = before ++ c :: after)
    {a b : tree.NodeId} (ha : a ∈ o.expandAll step before [])
    (hb : b ∈ o.expand step c (o.expandAll step before [])) : tree.Leads x a b := by
  intro hxa hxb
  obtain ⟨d, hd, had⟩ := mem_expandAll.1 ha
  have hbc := (expand_sublist c _).mem hb
  obtain ⟨hlen, hroot, hleads⟩ := h.of_contexts hsplit hd
  -- the contexts themselves are on the way down, the first above the second
  have hda : tree.AtOrAbove d.1 a := atOrAbove_of_mem_picks had
  have hcb : tree.AtOrAbove c.1 b := atOrAbove_of_mem_picks hbc
  have hdc : tree.Above d.1 c.1 := hleads (hda.trans hxa) (hcb.trans hxb)
  cases hax : step.axis with
  | self =>
      obtain ⟨rfl, -⟩ := (mem_picks_self hax).1 had
      obtain ⟨rfl, -⟩ := (mem_picks_self hax).1 hbc
      exact hdc
  | child =>
      have hpa := parent?_of_offspring ((mem_picks_child hax).1 had).2.1
      have hpb := parent?_of_offspring ((mem_picks_child hax).1 hbc).2.1
      exact Tree.leads_of_parents hdc hpa hpb hxa hxb
  | descendant | any =>
      have haxis : step.axis = .descendant ∨ step.axis = .any := by simp [hax]
      have hw : o.WellNested (o.contextsFor step nodes) := by
        rw [contextsFor, if_pos ⟨haxis, hlen⟩]
        exact o.wellNested_separate nodes
      have hcb := above_of_mem_meet ((mem_picks_below haxis).1 hbc).2.1
      obtain ⟨hnested, hmax⟩ := nested_of_above hx hw hroot hsplit hd hdc (hcb.of_atOrAbove hxb)
      obtain ⟨c, nested⟩ := c
      obtain rfl : nested = true := hnested
      exact leads_of_nested hx haxis (hroot (c, true) (by simp [hsplit])) hdc
        (fun y hy => mem_expandAll.2 ⟨d, hd, hy⟩) hmax had hb hxa hxb

theorem step_singleton (o : Outlook tree) (step : Step) (node : tree.NodeId) :
    o.step step [node] = o.picks step node := by
  simp [Outlook.step, contextsFor, expandAll, expand_eq_picks]

/-- A self step from the root leads to the root, or nowhere. -/
theorem step_root_of_self (o : Outlook tree) (ha : step.axis = .self) (root : tree.NodeId) :
    o.step step [root] = [] ∨ o.step step [root] = [root] := by
  rw [step_singleton, picks]
  simp only [ha]
  split
  · exact Or.inl rfl
  · split
    · exact Or.inr rfl
    · exact Or.inl rfl

/-- A step from the root leads to the root itself or below it, and so does every further step. -/
theorem below_of_step {nodes : List tree.NodeId}
    (h : nodes = [root] ∨ ∀ a ∈ nodes, tree.Above root a) :
    o.step step nodes = [root] ∨ ∀ a ∈ o.step step nodes, tree.Above root a := by
  rcases h with rfl | h
  · by_cases ha : step.axis = .self
    · rcases o.step_root_of_self ha root with h | h
      · exact Or.inr (by simp [h])
      · exact Or.inl h
    · rw [step_singleton]
      exact Or.inr fun a => above_of_mem_picks ha
  · refine Or.inr fun a ha => ?_
    obtain ⟨c, hc, hac⟩ := exists_mem_picks ha
    exact (h c hc).of_atOrAbove (atOrAbove_of_mem_picks hac)

/-- Each step leaves a frontier with what is on the way down to the node listed from the top
down. -/
theorem Descent.of_step (hx : o.TellsApart root x) {nodes : List tree.NodeId}
    (h : Descent root x nodes) (step : Step) : Descent root x (o.step step nodes) where
  below := below_of_step h.below
  topDown := by
    refine pairwise_expandAll (fun c _ => (o.picks_pairwise step c.1).imp fun h => h.leads) ?_
    intro before c after hsplit a ha b hb
    exact leads_of_contexts hx h hsplit ha hb

/-! ### Queries -/

theorem Descent.of_resolve (hx : o.TellsApart root x) {steps : List Step} {atRoot : Bool}
    {frontier nodes : List tree.NodeId} (h : Descent root x frontier)
    (hr : o.resolve steps atRoot frontier = .ok nodes) : Descent root x nodes := by
  induction steps generalizing atRoot frontier with
  | nil => exact Except.ok.inj hr ▸ h
  | cons step rest ih => exact ih (h.of_step hx step) (resolve_cons_ok hr).2

/-- Where the children of the root cannot be had, nothing but the root is found. -/
theorem below_of_resolve_of_fault (hf : o.fault? .children root ≠ none) {steps : List Step}
    {nodes : List tree.NodeId} (hr : o.resolve steps true [root] = .ok nodes) :
    nodes = [] ∨ nodes = [root] := by
  induction steps with
  | nil => exact Or.inr (Except.ok.inj hr).symm
  | cons step rest ih =>
      obtain ⟨hroot, hr⟩ := resolve_cons_ok hr
      have hnone := hroot rfl root (List.mem_singleton_self root)
      cases hax : step.axis with
      | self =>
          rw [hax] at hr
          rcases o.step_root_of_self hax root with h | h
          · rw [h, resolve_nil] at hr
            exact Or.inl (Except.ok.inj hr).symm
          · exact ih (h ▸ hr)
      | child | descendant | any =>
          simp only [obstacle?, hax] at hnone
          exact absurd hnone hf

end Outlook

/-! ### Resolutions -/

namespace Session

variable {start : Session tree} {options : ResolveOptions} {root : Handle}
variable {node x : tree.NodeId} {query : Query}

/-- The bridge has not been told to fail where nodes are told apart, on the way from one node down
to another. -/
structure TellsApart (start : Session tree) (options : ResolveOptions) (node x : tree.NodeId) :
    Prop where
  /-- Of two nodes strictly between, the upper one can be compared, and the lower one can be asked
  for its parent. -/
  contexts : ∀ y z, tree.Above node y → tree.Above y z → tree.Above z x →
    start.bridge.failures .sameObject y.val = none ∧ start.bridge.failures .parent z.val = none
  /-- Where levels are bounded, the lower one and all nodes between can be compared. -/
  selected : options.maxDepth.isSome = true → ∀ y, tree.Above node y → tree.AtOrAbove y x →
    start.bridge.failures .sameObject y.val = none

theorem TellsApart.outlook (h : start.TellsApart options node x)
    (hs : start.id = start.bridge.session) : (start.outlook options).TellsApart node x := by
  have hnone {op : BridgeOp} {y : tree.NodeId} (hy : start.bridge.failures op y.val = none) :
      start.fault? op y = none := by
    rw [start.fault?_eq_map hs, hy, Option.map_none]
  refine ⟨fun y z hny hyz hzx => ?_, fun hmax y hny hyx => hnone (h.selected hmax y hny hyx)⟩
  obtain ⟨hcompares, hclimbs⟩ := h.contexts y z hny hyz hzx
  exact ⟨hnone hcompares, hnone hclimbs⟩

/-- A resolution matches a node at most once, whatever fails, if nothing fails where the nodes on
the way down to it are told apart. -/
theorem resolve_matches_once {found : List Handle} {after : Session tree}
    (hl : start.bridge.nodeOf? root = some node)
    (ho : ∀ ref ∈ start.ledger.outstanding, ref.address ≤ 0x1000 + start.bridge.acquired)
    (hr : resolve options query root start = (.ok found, after))
    (hx : start.TellsApart options node x) : (after.nodesOf found).count (some x) ≤ 1 := by
  obtain ⟨nodes, hnodes, hfound⟩ := nodesOf_resolve hl ho hr
  rw [hfound, List.count_map_of_injective _ _ (Option.some_injective _)]
  by_cases hs : start.id = start.bridge.session
  · have hdescent := (Outlook.Descent.singleton node x).of_resolve (hx.outlook hs) hnodes
    exact hdescent.topDown.count_le_one
  · -- every call fails
    have hfault : (start.outlook options).fault? .children node ≠ none := by
      rw [outlook_fault?, fault?, if_pos hs]
      simp
    rcases Outlook.below_of_resolve_of_fault hfault hnodes with rfl | rfl
    · exact Nat.zero_le 1
    · exact List.count_le_length

/-- Below the root of a tree in which other calls fail, and calls on other nodes, and the outer
panel cannot be asked for its parent. -/
theorem resolve_matches_once_opening :
    let tree := ((((Tree.single (Element.new "frame" "")).addChild ⟨0, by decide⟩
      (Element.new "panel" "")).addChild ⟨1, by decide⟩ (Element.new "panel" "")).addChild
      ⟨2, by decide⟩ (Element.new "label" "")).addChild ⟨2, by decide⟩ (Element.new "label" "")
    let opened := opening tree ⟨0, by decide⟩ fun op place =>
      if op = .parent ∧ place ≠ 2 ∨ op = .attributes ∧ place = 4 then some 5 else none
    let options : ResolveOptions := { maxDepth := some 3 }
    let query : Query :=
      ⟨[⟨.descendant, .role "panel", none⟩, ⟨.descendant, .role "label", none⟩], by decide⟩
    opened.2.TellsApart options ⟨0, by decide⟩ ⟨3, by decide⟩ ∧
      ∃ (found : List Handle) (after : Session tree),
        resolve options query opened.1 opened.2 = (.ok found, after) ∧
        after.nodesOf found = [some ⟨3, by decide⟩] ∧
        (after.nodesOf found).count (some ⟨3, by decide⟩) ≤ 1 := by
  intro tree opened options query
  have hsteady : opened.2.Steady options opened.1 ⟨0, by decide⟩ :=
    steady_opening tree ⟨0, by decide⟩ _ (by decide) rfl
  have hx : opened.2.TellsApart options ⟨0, by decide⟩ ⟨3, by decide⟩ := by
    refine ⟨fun y z h0 hyz h3 => ⟨rfl, if_neg ?_⟩, fun _ _ _ _ => rfl⟩
    have h0 : 0 < y.val := h0.lt
    have hyz : y.val < z.val := hyz.lt
    have h3 : z.val < 3 := h3.lt
    simp only [reduceCtorEq, false_and, or_false, true_and]
    omega
  have hq : (opened.2.outlook options).resolve query.steps true [⟨0, by decide⟩] =
      .ok [⟨3, by decide⟩] := by decide +kernel
  obtain ⟨found, after, hr, hnodes⟩ := resolve_steady hsteady hq
  exact ⟨hx, found, after, hr, hnodes,
    resolve_matches_once hsteady.denotes hsteady.outstanding_issued hr hx⟩

/-- Labels are looked for below a panel and below another that lies below it.  The label is matched
twice if the lower panel cannot be asked for its parent, if the upper one cannot be compared, or,
with levels bounded, if the label itself cannot be compared. -/
theorem resolve_matches_twice :
    let tree := (((Tree.single (Element.new "frame" "")).addChild ⟨0, by decide⟩
      (Element.new "panel" "")).addChild ⟨1, by decide⟩ (Element.new "panel" "")).addChild
      ⟨2, by decide⟩ (Element.new "label" "")
    let query : Query :=
      ⟨[⟨.descendant, .role "panel", none⟩, ⟨.descendant, .role "label", none⟩], by decide⟩
    let opened (op : BridgeOp) (place : Nat) := opening tree ⟨0, by decide⟩ fun o p =>
      if o = op ∧ p = place then some 5 else none
    let twice (options : ResolveOptions) (op : BridgeOp) (place : Nat) : Prop :=
      ∃ (found : List Handle) (after : Session tree),
        resolve options query (opened op place).1 (opened op place).2 = (.ok found, after) ∧
        after.nodesOf found = [some ⟨3, by decide⟩, some ⟨3, by decide⟩]
    twice {} .parent 2 ∧ twice {} .sameObject 1 ∧
      twice { maxDepth := some 3 } .sameObject 3 := by
  intro tree query opened twice
  have htwice (options : ResolveOptions) (hd : options.deadline ≠ some .past)
      (hc : options.cancelAt = none) (op : BridgeOp) (place : Nat)
      (hq : ((opened op place).2.outlook options).resolve query.steps true [⟨0, by decide⟩] =
        .ok [⟨3, by decide⟩, ⟨3, by decide⟩]) : twice options op place :=
    resolve_steady (steady_opening tree ⟨0, by decide⟩ _ hd hc) hq
  refine ⟨?_, ?_, ?_⟩
  · exact htwice _ (by decide) rfl _ _ (by decide +kernel)
  · exact htwice _ (by decide) rfl _ _ (by decide +kernel)
  · exact htwice _ (by decide) rfl _ _ (by decide +kernel)

end Session

end AccessQuery
