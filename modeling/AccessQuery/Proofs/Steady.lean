/-
**Resolutions that nothing interrupts.**

Calls may fail in such a resolution, but it goes on until it is complete, or fails for the one
reason that the outlook gives.

Main definitions:

* `AccessQuery.Session.Steady` — the root is fit for a resolution, and nothing interrupts it;
* `AccessQuery.Session.nodesOf` — the nodes that handles denote.

Main results:

* `AccessQuery.Session.nodesOf_run`, `AccessQuery.Session.nodesOf_resolve` — the matches of a
  resolution are those of the outlook;
* `AccessQuery.Session.run_steady`, `AccessQuery.Session.resolve_steady` — there are matches where
  the outlook has some.
-/

import AccessQuery.Proofs.Resolution

set_option relaxedAutoImplicit false
set_option autoImplicit false

namespace AccessQuery.Session

variable {tree : Tree} {start : Session tree} {options : ResolveOptions} {root : Handle}
variable {node : tree.NodeId} {query : Query}

/-- The root denotes a node and belongs to the session, everything that is owed was acquired, and
nothing interrupts. -/
structure Steady (start : Session tree) (options : ResolveOptions) (root : Handle)
    (node : tree.NodeId) : Prop where
  session_eq : root.session = start.id
  denotes : start.bridge.nodeOf? root = some node
  outstanding_issued : ∀ ref ∈ start.ledger.outstanding,
    ref.address ≤ 0x1000 + start.bridge.acquired
  deadline_ne : options.deadline ≠ some .past
  cancelAt_eq : options.cancelAt = none

theorem Steady.interrupt? (h : start.Steady options root node) (made : Nat) :
    options.interrupt? made = none := by
  simp [ResolveOptions.interrupt?, h.cancelAt_eq, h.deadline_ne]

/-- Resolutions in new sessions are steady, unless the options interrupt. -/
theorem steady_opening (tree : Tree) (node : tree.NodeId)
    (failures : BridgeOp → Nat → Option Int32) (hd : options.deadline ≠ some .past)
    (hc : options.cancelAt = none) :
    (opening tree node failures).2.Steady options (opening tree node failures).1 node where
  session_eq := rfl
  denotes := live_opening tree node _
  outstanding_issued ref hr := Bridge.issued _ ref (outstanding_opening tree node _ ref hr)
  deadline_ne := hd
  cancelAt_eq := hc

/-- Within the session of the bridge, the calls that fail are those that the bridge has been told to
fail. -/
theorem fault?_eq_map (start : Session tree) (hs : start.id = start.bridge.session)
    (op : BridgeOp) (node : tree.NodeId) :
    start.fault? op node = (start.bridge.failures op node.val).map fun code => ⟨op, code⟩ :=
  if_neg (not_not.2 hs)

/-- The nodes that handles denote, if they denote any. -/
def nodesOf (session : Session tree) (handles : List Handle) : List (Option tree.NodeId) :=
  handles.map session.bridge.nodeOf?

/-! ### Runs -/

/-- The matches of a run are those of the outlook, cut to what was asked for. -/
theorem nodesOf_run {demand : Demand} {found : Resolution} {after : Session tree}
    (hl : start.bridge.nodeOf? root = some node)
    (ho : ∀ ref ∈ start.ledger.outstanding, ref.address ≤ 0x1000 + start.bridge.acquired)
    (hr : run options demand query root start = (.ok found, after)) :
    ∃ nodes, (start.outlook options).resolve query.steps true [node] = .ok nodes ∧
      after.nodesOf found.selected = (demand.cut nodes).map some := by
  by_cases hs : root.session = start.id
  · obtain ⟨kept, hc, -, hsettled⟩ := run_settled options demand query hs hl ho
    rw [hr] at hc hsettled
    obtain ⟨hsel, hnodes⟩ := hsettled
    cases hq : (start.outlook options).resolve query.steps true [node] with
    | error e =>
        rw [hq] at hnodes
        cases hnodes
    | ok nodes =>
        rw [hq] at hnodes
        refine ⟨nodes, rfl, ?_⟩
        rw [show found.selected = _ from hsel, Except.ok.inj hnodes, nodesOf, List.map_map,
          List.map_map]
        exact List.map_congr_left fun x hx => hc.denotes x hx
  · rw [run_of_foreign hs] at hr
    cases hr

/-- A run that nothing interrupts finds what the outlook says. -/
theorem run_steady (h : start.Steady options root node) (demand : Demand)
    {nodes : List tree.NodeId}
    (hq : (start.outlook options).resolve query.steps true [node] = .ok nodes) :
    ∃ (found : Resolution) (after : Session tree),
      run options demand query root start = (.ok found, after) ∧
      after.nodesOf found.selected = (demand.cut nodes).map some := by
  have hrun := run_settled options demand query h.session_eq h.denotes h.outstanding_issued
  rcases hr : run options demand query root start with ⟨result, after⟩
  cases result with
  | error e =>
      rw [hr] at hrun
      obtain ⟨kept, -, -, hcause⟩ := hrun
      cases e with
      | rootUnreachable e =>
          have hcause := hcause.2
          rw [hq] at hcause
          cases hcause
      | sessionMismatch _ _ => exact hcause.elim
      | interrupted cause =>
          obtain ⟨-, made, hmade⟩ := hcause
          rw [h.interrupt?] at hmade
          cases hmade
  | ok found =>
      obtain ⟨nodes', hq', hnodes⟩ := nodesOf_run h.denotes h.outstanding_issued hr
      obtain rfl : nodes' = nodes := Except.ok.inj (hq'.symm.trans hq)
      exact ⟨found, after, rfl, hnodes⟩

/-! ### Resolutions -/

theorem resolve_eq (options : ResolveOptions) (query : Query) (root : Handle)
    (start : Session tree) : resolve options query root start =
      ((run options .all query root start).1.map Resolution.selected,
        (run options .all query root start).2) :=
  rfl

/-- The matches of a resolution are those of the outlook. -/
theorem nodesOf_resolve {found : List Handle} {after : Session tree}
    (hl : start.bridge.nodeOf? root = some node)
    (ho : ∀ ref ∈ start.ledger.outstanding, ref.address ≤ 0x1000 + start.bridge.acquired)
    (hr : resolve options query root start = (.ok found, after)) :
    ∃ nodes, (start.outlook options).resolve query.steps true [node] = .ok nodes ∧
      after.nodesOf found = nodes.map some := by
  rw [resolve_eq] at hr
  rcases hrun : run options .all query root start with ⟨result, after⟩
  rw [hrun] at hr
  cases result with
  | error e => cases hr
  | ok resolution =>
      obtain ⟨hfound, rfl⟩ := Prod.mk.inj hr
      obtain rfl : resolution.selected = found := Except.ok.inj hfound
      exact nodesOf_run hl ho hrun

/-- A resolution that nothing interrupts finds what the outlook says. -/
theorem resolve_steady (h : start.Steady options root node) {nodes : List tree.NodeId}
    (hq : (start.outlook options).resolve query.steps true [node] = .ok nodes) :
    ∃ (found : List Handle) (after : Session tree),
      resolve options query root start = (.ok found, after) ∧
      after.nodesOf found = nodes.map some := by
  obtain ⟨found, after, hrun, hnodes⟩ := run_steady h .all hq
  refine ⟨found.selected, after, ?_, hnodes⟩
  rw [resolve_eq, hrun]
  rfl

end AccessQuery.Session
