/-
**Resolutions select what queries say.**

Where no call fails and nothing interrupts, a resolution succeeds, and the nodes of its matches are
those that the query selects from the root, each of them once.  How contexts are separated, what is
read ahead and what is not read at all cannot be observed.

Main definitions:

* `AccessQuery.Session.Undisturbed` — no call fails, and nothing interrupts.

Main results:

* `AccessQuery.Session.run_undisturbed` — undisturbed resolutions return what is gathered;
* `AccessQuery.Session.resolve_selects` — and that is what the query selects.
-/

import AccessQuery.Proofs.Frontier
import AccessQuery.Proofs.Steady

set_option relaxedAutoImplicit false
set_option autoImplicit false

namespace AccessQuery.Session

variable {tree : Tree} {start : Session tree} {options : ResolveOptions} {root : Handle}
variable {node : tree.NodeId}

/-- A resolution below a root is undisturbed: the root denotes a node and belongs to the session,
everything that is owed was acquired, no call fails, and nothing interrupts. -/
structure Undisturbed (start : Session tree) (options : ResolveOptions) (root : Handle)
    (node : tree.NodeId) : Prop where
  session_eq : root.session = start.id
  denotes : start.bridge.nodeOf? root = some node
  outstanding_issued : ∀ ref ∈ start.ledger.outstanding,
    ref.address ≤ 0x1000 + start.bridge.acquired
  faultless : ∀ op node, start.fault? op node = none
  deadline_ne : options.deadline ≠ some .past
  cancelAt_eq : options.cancelAt = none

theorem Undisturbed.steady (h : start.Undisturbed options root node) :
    start.Steady options root node :=
  ⟨h.session_eq, h.denotes, h.outstanding_issued, h.deadline_ne, h.cancelAt_eq⟩

theorem Steady.undisturbed (h : start.Steady options root node)
    (hf : ∀ op node, start.fault? op node = none) : start.Undisturbed options root node :=
  ⟨h.session_eq, h.denotes, h.outstanding_issued, hf, h.deadline_ne, h.cancelAt_eq⟩

theorem Undisturbed.faultless_outlook (h : start.Undisturbed options root node) :
    (start.outlook options).Faultless :=
  h.faultless

/-- What an undisturbed resolution gathers. -/
theorem run_undisturbed (h : start.Undisturbed options root node) (demand : Demand)
    (query : Query) : ∃ (found : Resolution) (after : Session tree),
      run options demand query root start = (.ok found, after) ∧
      after.nodesOf found.selected =
        (demand.cut ((start.outlook options).gatherSteps query.steps [node])).map some :=
  run_steady h.steady demand (Outlook.resolve_faultless h.faultless_outlook query.steps true
    (Outlook.Frontier.singleton _ node))

theorem resolve_undisturbed (h : start.Undisturbed options root node) (query : Query) :
    ∃ (found : List Handle) (after : Session tree),
      resolve options query root start = (.ok found, after) ∧
      after.nodesOf found = ((start.outlook options).gatherSteps query.steps [node]).map some :=
  resolve_steady h.steady (Outlook.resolve_faultless h.faultless_outlook query.steps true
    (Outlook.Frontier.singleton _ node))

theorem findFirst_undisturbed (h : start.Undisturbed options root node) (query : Query) :
    ∃ (found : Option Handle) (after : Session tree),
      findFirst options query root start = (.ok found, after) ∧
      after.nodesOf found.toList =
        ((start.outlook options).gatherSteps query.steps [node]).head?.toList.map some := by
  have htake {α : Type} (l : List α) : l.head?.toList = l.take 1 := by
    cases l <;> rfl
  obtain ⟨found, after, hrun, hnodes⟩ := run_undisturbed h .first query
  refine ⟨found.selected.head?, after, ?_, ?_⟩
  · simp only [findFirst, bind, StateT.bind, hrun]
    rfl
  · rw [nodesOf] at hnodes ⊢
    rw [htake, htake, List.map_take, hnodes, List.map_take, Demand.cut, List.map_take,
      List.take_take]
    rfl

theorem mem_gathered_iff (h : start.Undisturbed options root node) (query : Query)
    (x : tree.NodeId) : x ∈ (start.outlook options).gatherSteps query.steps [node] ↔
      x ∈ selection options query.steps {node} := by
  rw [Outlook.mem_gatherSteps h.faultless_outlook]
  simp

theorem selection_eq_gathered (h : start.Undisturbed options root node) (query : Query) :
    selection options query.steps {node} =
      {x | x ∈ (start.outlook options).gatherSteps query.steps [node]} := by
  ext x
  exact (mem_gathered_iff h query x).symm

/-- An undisturbed resolution succeeds, matches no node twice, and matches the nodes that the query
selects from the root. -/
theorem resolve_selects (h : start.Undisturbed options root node) (query : Query) :
    ∃ (found : List Handle) (after : Session tree) (nodes : List tree.NodeId),
      resolve options query root start = (.ok found, after) ∧
      after.nodesOf found = nodes.map some ∧ nodes.Nodup ∧
      ∀ x, x ∈ nodes ↔ x ∈ selection options query.steps {node} := by
  obtain ⟨found, after, hrun, hnodes⟩ := resolve_undisturbed h query
  have hfrontier := (Outlook.Frontier.singleton (start.outlook options) node).gatherSteps
    h.faultless_outlook query.steps
  exact ⟨found, after, _, hrun, hnodes, hfrontier.nodup, mem_gathered_iff h query⟩

/-- New sessions without failures are undisturbed, unless the options interrupt. -/
theorem undisturbed_opening (tree : Tree) (node : tree.NodeId) {options : ResolveOptions}
    (hd : options.deadline ≠ some .past) (hc : options.cancelAt = none) :
    (opening tree node fun _ _ => none).2.Undisturbed options
      (opening tree node fun _ _ => none).1 node :=
  (steady_opening tree node _ hd hc).undisturbed fun _ _ => rfl

/-- One panel lies in another, and labels are looked for that come second, at most two levels below
a panel.  There are two; the first is reached from both panels, and the other from the inner panel
alone. -/
theorem resolve_selects_opening :
    let tree := ((((((Tree.single (Element.new "frame" "")).addChild ⟨0, by decide⟩
      (Element.new "panel" "")).addChild ⟨1, by decide⟩ (Element.new "panel" "")).addChild
      ⟨2, by decide⟩ (Element.new "label" "")).addChild ⟨2, by decide⟩
      (Element.new "label" "")).addChild ⟨4, by decide⟩ (Element.new "label" "")).addChild
      ⟨4, by decide⟩ (Element.new "label" "")
    let node : tree.NodeId := ⟨0, by decide⟩
    let opened := opening tree node fun _ _ => none
    let options : ResolveOptions := { maxDepth := some 2 }
    let query : Query := ⟨[⟨.descendant, .role "panel", none⟩,
      ⟨.descendant, .role "label", some (.position 2)⟩], by decide⟩
    opened.2.Undisturbed options opened.1 node ∧
      ∃ (found : List Handle) (after : Session tree) (nodes : List tree.NodeId),
        resolve options query opened.1 opened.2 = (.ok found, after) ∧
        after.nodesOf found = nodes.map some ∧ nodes.map (fun x => x.val) = [4, 6] ∧
        nodes.Nodup ∧ ∀ x, x ∈ nodes ↔ x ∈ selection options query.steps {node} := by
  intro tree node opened options query
  have h : opened.2.Undisturbed options opened.1 node :=
    undisturbed_opening tree node (by decide) rfl
  have hq : (opened.2.outlook options).resolve query.steps true [node] =
      .ok [⟨4, by decide⟩, ⟨6, by decide⟩] := by decide +kernel
  obtain ⟨found, after, nodes, hrun, hfound, hnodup, hselects⟩ := resolve_selects h query
  obtain ⟨nodes', hnodes', hfound'⟩ := nodesOf_resolve h.denotes h.outstanding_issued hrun
  obtain rfl := Except.ok.inj (hnodes'.symm.trans hq)
  obtain rfl := List.map_injective_iff.2 (Option.some_injective _) (hfound.symm.trans hfound')
  exact ⟨h, found, after, _, hrun, hfound, rfl, hnodup, hselects⟩

end AccessQuery.Session
