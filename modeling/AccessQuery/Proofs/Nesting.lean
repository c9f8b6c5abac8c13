/-
**Frontiers list ancestors first.**

The walk of a step below contexts leaves out a context that lies below an earlier one, or compares
what it selects there.  To find out which contexts those are, it climbs from each node of the
frontier and looks for the outer contexts before it.  Two things might go wrong.  A context could
stand before one above it, and would then be walked although its nodes are walked again later.  And
a context could lie below a nested one only, which is not looked for.

Neither happens where no call fails.  After every step the frontier lists each node once, and none
after a node below it, although it need not be in document order.  So climbing finds an outer
context whenever an earlier node of the frontier is above, since the topmost such node is an outer
context itself; and no node lies below two outer contexts.

Main definitions:

* `AccessQuery.Session.IsAbove` — a handle denotes a node above that of another;
* `AccessQuery.Session.ListsAncestorsFirst` — nodes listed once, none after a node below it;
* `AccessQuery.Session.DenotesApart` — nodes that have none in common in their subtrees;
* `AccessQuery.Stage.AncestorsFirst` — what follows for a step.

Main results:

* `AccessQuery.Outlook.Frontier.of_sublist`, `AccessQuery.Outlook.Frontier.outer_apart` — what is
  left of a frontier, and its outer contexts;
* `AccessQuery.Walk.separate_append` — the contexts of the first nodes of a frontier come first;
* `AccessQuery.Walk.Stands.isBelow_iff` — what climbing finds;
* `AccessQuery.Session.stages_ancestorsFirst` — every stage of a resolution is like that.
-/

import AccessQuery.Proofs.Semantics
import AccessQuery.Proofs.Walk.Stages

set_option relaxedAutoImplicit false
set_option autoImplicit false

namespace AccessQuery

variable {tree : Tree}

theorem Demand.cut_sublist {α : Type} (demand : Demand) (nodes : List α) :
    (demand.cut nodes).Sublist nodes := by
  cases demand with
  | all => exact List.Sublist.refl _
  | first => exact List.take_sublist _ _

/-! ### Nodes -/

namespace Outlook.Frontier

variable {o : Outlook tree} {root : tree.NodeId} {nodes : List tree.NodeId}

theorem of_sublist {others : List tree.NodeId} (h : o.Frontier root nodes)
    (hs : others.Sublist nodes) : o.Frontier root others where
  nodup := h.nodup.sublist hs
  ancestorsFirst := h.ancestorsFirst.sublist hs
  inView x hx := h.inView x (hs.mem hx)

/-- No node lies below two of the outer contexts. -/
theorem outer_apart (hf : o.Faultless) (h : o.Frontier root nodes) :
    (((o.separate [] nodes).filter fun c => !c.2).map Prod.fst).Pairwise fun a b =>
      ¬ ∃ z, tree.AtOrAbove a z ∧ tree.AtOrAbove b z := by
  have hnodup : (((o.separate [] nodes).filter fun c => !c.2).map Prod.fst).Nodup :=
    h.nodup.sublist ((List.filter_sublist.map _).trans (o.separate_sublist nodes))
  refine hnodup.pairwise_of_forall_ne ?_
  rintro a ha b hb hne ⟨z, haz, hbz⟩
  obtain ⟨ha, hout⟩ := (mem_separate hf h a).1 (mem_outer.1 ha)
  obtain ⟨hb, hout'⟩ := (mem_separate hf h b).1 (mem_outer.1 hb)
  rcases haz.comparable hbz with hab | hab | hba
  · exact hne hab
  · exact hout' a ha hab
  · exact hout b hb hba

end Outlook.Frontier

/-! ### Handles -/

namespace Session

/-- A handle denotes a node above that of another. -/
def IsAbove (session : Session tree) (a b : Handle) : Prop :=
  ∃ x y, session.bridge.nodeOf? a = some x ∧ session.bridge.nodeOf? b = some y ∧ tree.Above x y

/-- Handles denote nodes, each of them once, and none after a node below it. -/
def ListsAncestorsFirst (session : Session tree) (handles : List Handle) : Prop :=
  ∃ nodes : List tree.NodeId, session.nodesOf handles = nodes.map some ∧ nodes.Nodup ∧
    nodes.Pairwise fun x y => ¬ tree.Above y x

/-- Handles denote nodes of which no two have a node in common in their subtrees. -/
def DenotesApart (session : Session tree) (handles : List Handle) : Prop :=
  ∃ nodes : List tree.NodeId, session.nodesOf handles = nodes.map some ∧
    nodes.Pairwise fun x y => ¬ ∃ z, tree.AtOrAbove x z ∧ tree.AtOrAbove y z

end Session

namespace Walk

variable {start : Session tree} {options : ResolveOptions} {x : Holding tree}
variable {nodes : List tree.NodeId} {frontier : List Handle} {walk : Walk tree}

/-- The nodes of a frontier are sorted one after another. -/
theorem separate_append (options : ResolveOptions) (contexts : List Context)
    (earlier later : List Handle) :
    (separate options contexts (earlier ++ later) : WalkM tree (List Context)) =
      separate options contexts earlier >>= fun contexts => separate options contexts later := by
  induction earlier generalizing contexts with
  | nil => rfl
  | cons node earlier ih =>
      rw [List.cons_append, separate_cons, separate_cons, bind_assoc]
      refine bind_congr fun nested => ?_
      split
      · exact ih _
      · split
        · exact ih _
        · rw [bind_assoc]
          exact bind_congr fun _ => ih _

/-- A frontier that is held is sorted as its nodes are. -/
theorem Keeps.separates {root : NativeRef} {frontier held : List (Holding tree)}
    (h : Keeps start options root (frontier ++ held) walk) :
    Separates start options root
      ((start.outlook options).separate [] (frontier.map Holding.node)) frontier held
      (separate options [] (frontier.map Holding.handle) walk).1
      (separate options [] (frontier.map Holding.handle) walk).2 :=
  separate_ensures frontier [] walk h

theorem Keeps.isAbove_iff {root : NativeRef} {held : List (Holding tree)} {y z : Holding tree}
    (h : Keeps start options root held walk) (hy : y ∈ held) (hz : z ∈ held) :
    walk.session.IsAbove y.handle z.handle ↔ tree.Above y.node z.node := by
  have hdenotes (w : Holding tree) (hw : w ∈ held) :
      walk.session.bridge.nodeOf? w.handle = some w.node := h.custody.denotes w hw
  simp [Session.IsAbove, hdenotes y hy, hdenotes z hz]

namespace Stands

theorem listsAncestorsFirst (h : Stands start options x nodes frontier walk)
    (hf : (start.outlook options).Frontier x.node nodes) :
    walk.session.ListsAncestorsFirst frontier :=
  ⟨nodes, h.nodesOf, hf.nodup, hf.ancestorsFirst⟩

/-- Where no call fails, climbing from a node of a frontier finds an outer context before it if an
earlier node of the frontier is above. -/
theorem isBelow_iff (h : Stands start options x nodes frontier walk)
    (hl : (start.outlook options).Faultless)
    (hf : (start.outlook options).Frontier x.node nodes) {earlier later : List Handle}
    {handle : Handle} (he : frontier = earlier ++ handle :: later) :
    (isBelow handle (separate options [] earlier walk).1
        (separate options [] earlier walk).2).1 = true ↔
      ∃ other ∈ earlier, walk.session.IsAbove other handle := by
  obtain ⟨_, held, rfl, rfl, -, hk⟩ := h
  obtain ⟨before, rest, rfl, rfl, hrest⟩ := List.map_eq_append_iff.1 he
  obtain ⟨y, after, rfl, rfl, rfl⟩ := List.map_eq_cons_iff.1 hrest
  obtain ⟨contexts, hcontexts, hnodes, -, hkeeps⟩ := hk.separates
  obtain ⟨hbelow, -⟩ := isBelow_ensures (x := y) contexts (by simp)
    (fun c hc => List.mem_append_left _ (List.mem_map_of_mem hc)) _ hkeeps
  have hearlier := hf.of_sublist ((List.sublist_append_left before (y :: after)).map Holding.node)
  rw [hcontexts, contextsOf, hbelow, hnodes,
    Outlook.isBelow_iff_of_mem hl y.node (Outlook.mem_separate hl hearlier)]
  have habove {z : Holding tree} (hz : z ∈ before) :
      walk.session.IsAbove z.handle y.handle ↔ tree.Above z.node y.node :=
    hk.isAbove_iff (by simp [hz]) (by simp)
  constructor
  · rintro ⟨_, hc, hcy⟩
    obtain ⟨z, hz, rfl⟩ := List.mem_map.1 hc
    exact ⟨z.handle, List.mem_map_of_mem hz, (habove hz).2 hcy⟩
  · rintro ⟨_, hother, hoy⟩
    obtain ⟨z, hz, rfl⟩ := List.mem_map.1 hother
    exact ⟨z.node, List.mem_map_of_mem hz, (habove hz).1 hoy⟩

/-- Where no call fails, the outer contexts of a frontier have no nodes in common. -/
theorem denotesApart (h : Stands start options x nodes frontier walk)
    (hl : (start.outlook options).Faultless)
    (hf : (start.outlook options).Frontier x.node nodes) :
    (separate options [] frontier walk).2.session.DenotesApart
      (((separate options [] frontier walk).1.filter fun c => !c.nested).map Context.handle) := by
  obtain ⟨_, held, rfl, rfl, -, hk⟩ := h
  obtain ⟨contexts, hcontexts, hnodes, -, hkeeps⟩ := ((List.append_nil held).symm ▸ hk).separates
  have hapart := hf.outer_apart hl
  have houter : ((contextsOf contexts).filter fun c => !c.nested).map Context.handle =
      ((contexts.filter fun c => !c.2).map Prod.fst).map Holding.handle := by
    simp [contextsOf, List.filter_map, Function.comp_def]
  have hmem : ∀ y ∈ (contexts.filter fun c => !c.2).map Prod.fst,
      y ∈ contexts.map Prod.fst ++ [] := by
    intro y hy
    exact List.mem_append_left _ ((List.filter_sublist.map Prod.fst).mem hy)
  rw [← hnodes] at hapart
  refine ⟨_, ?_, hapart⟩
  rw [hcontexts, houter, hkeeps.nodesOf hmem]
  simp [List.filter_map, Function.comp_def]

end Stands

end Walk

/-! ### Resolutions -/

/-- Around a step, ancestors come first. -/
structure Stage.AncestorsFirst (options : ResolveOptions) (demand : Demand) (stage : Stage tree) :
    Prop where
  /-- The frontier lists each node once, and none after a node below it. -/
  frontier : stage.before.session.ListsAncestorsFirst stage.frontier
  /-- So does what the step selects, unless it is interrupted. -/
  selected : match stage.taken options demand with
    | (⟨selected, none⟩, after) => after.session.ListsAncestorsFirst selected
    | (⟨_, some error⟩, _) => ∃ cause, error = .interrupted cause
  /-- When the contexts are sorted out, climbing from a node of the frontier finds an outer context
  if an earlier node of the frontier is above it, and otherwise not. -/
  isBelow_iff : ∀ {earlier : List Handle} {handle : Handle} {later : List Handle},
    stage.frontier = earlier ++ handle :: later →
      let (contexts, walk) := Walk.separate options [] earlier stage.before
      Walk.separate options [] stage.frontier stage.before =
          Walk.separate options contexts (handle :: later) walk ∧
        ((Walk.isBelow handle contexts walk).1 = true ↔
          ∃ other ∈ earlier, stage.before.session.IsAbove other handle)
  /-- The outer contexts have no nodes of their subtrees in common. -/
  apart : let (contexts, walk) := Walk.separate options [] stage.frontier stage.before
    walk.session.DenotesApart ((contexts.filter fun c => !c.nested).map Context.handle)

namespace Session

variable {start : Session tree} {options : ResolveOptions} {root : Handle} {node : tree.NodeId}

/-- Where no call fails, what is in hand at every stage of a resolution is a frontier. -/
theorem frontier_of_mem_stages (hl : start.bridge.nodeOf? root = some node)
    (ho : ∀ ref ∈ start.ledger.outstanding, ref.address ≤ 0x1000 + start.bridge.acquired)
    (hf : (start.outlook options).Faultless) (demand : Demand) (query : Query) :
    ∀ stage ∈ start.stages options demand query root, ∃ nodes,
      Walk.Stands start options ⟨root.view, node⟩ nodes stage.frontier stage.before ∧
        (start.outlook options).Frontier node nodes :=
  stands_of_mem_stages hl ho (Outlook.Frontier.singleton (start.outlook options) node)
    (fun demand step _ h => (h.of_step hf step).of_sublist (demand.cut_sublist _)) demand query

/-- Where no call fails, every stage of a resolution has its ancestors first: its frontier, what its
step selects, and the contexts that are sorted out between them. -/
theorem stages_ancestorsFirst (hl : start.bridge.nodeOf? root = some node)
    (ho : ∀ ref ∈ start.ledger.outstanding, ref.address ≤ 0x1000 + start.bridge.acquired)
    (hf : ∀ op node, start.fault? op node = none) (options : ResolveOptions) (demand : Demand)
    (query : Query) :
    ∀ stage ∈ start.stages options demand query root, stage.AncestorsFirst options demand := by
  have hfaultless : (start.outlook options).Faultless := hf
  intro stage hstage
  obtain ⟨nodes, hstands, hfrontier⟩ :=
    frontier_of_mem_stages hl ho hfaultless demand query stage hstage
  refine ⟨hstands.listsAncestorsFirst hfrontier, ?_, fun {earlier handle later} he => ?_,
    hstands.denotesApart hfaultless hfrontier⟩
  · rcases htaken : stage.taken options demand with ⟨⟨selected, failure⟩, after⟩
    cases failure with
    | none =>
        exact (hstands.of_taken rfl htaken).listsAncestorsFirst
          ((hfrontier.of_step hfaultless stage.step).of_sublist (Demand.cut_sublist _ _))
    | some error =>
        rcases hstands.of_failed rfl htaken with ⟨e, x, -, -, he⟩ | ⟨cause, _, he, -⟩
        · rw [Outlook.obstacle?_faultless hfaultless] at he
          cases he
        · exact ⟨cause, he⟩
  · refine ⟨?_, hstands.isBelow_iff hfaultless hfrontier he⟩
    rw [he, Walk.separate_append]
    rfl

/-- The frontier of the second step has nodes below one another. -/
theorem stages_ancestorsFirst_opening :
    let tree := ((Tree.single (Element.new "frame" "")).addChild ⟨0, by decide⟩
      (Element.new "panel" "")).addChild ⟨1, by decide⟩ (Element.new "label" "")
    let opened := opening tree ⟨0, by decide⟩ fun _ _ => none
    let options : ResolveOptions := { maxDepth := some 2 }
    let query : Query := ⟨[⟨.any, .wildcard, none⟩, ⟨.descendant, .role "label", none⟩], by decide⟩
    opened.2.bridge.nodeOf? opened.1 = some ⟨0, by decide⟩ ∧
      (∀ ref ∈ opened.2.ledger.outstanding, ref.address ≤ 0x1000 + opened.2.bridge.acquired) ∧
      (∀ op node, opened.2.fault? op node = none) ∧
      (opened.2.stages options .all query opened.1).map (fun stage => stage.frontier.length) =
        [1, 2] ∧
      ∀ stage ∈ opened.2.stages options .all query opened.1,
        stage.AncestorsFirst options .all := by
  intro tree opened options query
  have h : opened.2.Undisturbed options opened.1 ⟨0, by decide⟩ :=
    undisturbed_opening tree ⟨0, by decide⟩ (by decide) rfl
  exact ⟨h.denotes, h.outstanding_issued, h.faultless, by decide +kernel,
    stages_ancestorsFirst h.denotes h.outstanding_issued h.faultless options .all query⟩

end Session

end AccessQuery
