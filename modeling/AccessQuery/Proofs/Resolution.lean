/-
**What a resolution comes to.**

A resolution below a live root of its session leaves its matches in custody, and nothing else.  Its
matches are those of the outlook, cut to what was asked for; it fails as the outlook says, or is
interrupted.

Main definitions:

* `AccessQuery.Session.Settled` — what a resolution comes to;
* `AccessQuery.Session.opening` — a new session with a handle in it.

Main results:

* `AccessQuery.Session.run_settled` — every resolution comes to that;
* `AccessQuery.Session.live_opening`, `AccessQuery.Session.outstanding_opening` — new sessions are
  fit for resolutions.
-/

import AccessQuery.Proofs.Walk.Steps

set_option relaxedAutoImplicit false
set_option autoImplicit false

namespace AccessQuery

namespace Session

variable {tree : Tree}

/-- What a resolution of a query below a root comes to, where the root denotes a node. -/
def Settled (start : Session tree) (options : ResolveOptions) (demand : Demand) (query : Query)
    (root : Handle) (node : tree.NodeId) (result : Except ResolveError (List Handle))
    (after : Session tree) : Prop :=
  ∃ kept : List (Holding tree), Custody start root.ref kept after ∧
    (∀ y ∈ kept, y.handle.isBorrowed = true → y.handle = root.view ∧ y.node = node) ∧
    match result with
    | .ok selected => selected = kept.map Holding.handle ∧
        ((start.outlook options).resolve query.steps true [node]).map demand.cut =
          .ok (kept.map Holding.node)
    | .error (.rootUnreachable e) => kept = [] ∧
        (start.outlook options).resolve query.steps true [node] = .error e
    | .error (.interrupted cause) => kept = [] ∧ ∃ made, options.interrupt? made = some cause
    | .error (.sessionMismatch ..) => False

theorem run_settled {start : Session tree} {root : Handle} {node : tree.NodeId}
    (options : ResolveOptions) (demand : Demand) (query : Query) (hs : root.session = start.id)
    (hl : start.bridge.live[root.ref]? = some node)
    (ho : ∀ ref ∈ start.ledger.outstanding, ref.address ≤ 0x1000 + start.bridge.acquired) :
    Settled start options demand query root node
      ((run options demand query root start).1.map Resolution.selected)
      (run options demand query root start).2 := by
  have hb := root.isBorrowed_view
  have hc : Custody start root.ref [⟨root.view, node⟩] start :=
    Custody.refl (h := ⟨root.view, node⟩) hs hb hl ho
  have hk : Walk.Keeps start options root.ref ([⟨root.view, node⟩] ++ []) ⟨start, [], ∅⟩ :=
    ⟨hc, by simp, by simp⟩
  have hf : Walk.IsFrontier (⟨root.view, node⟩ : Holding tree) true [⟨root.view, node⟩] := rfl
  have h := Walk.applySteps_ensures query.steps demand hb true hf (fun _ => Nat.le_refl _) _ hk
  unfold run
  rw [if_neg (not_not.2 hs)]
  generalize hfound : Walk.applySteps options demand query.steps [root.view] ⟨start, [], ∅⟩ = found
  simp only [List.map_cons, List.map_nil, hfound] at h ⊢
  obtain ⟨⟨selected, failure⟩, walk⟩ := found
  obtain ⟨atRoot, kept, hsel, hans, hviews, hfail, hkeeps⟩ := h
  simp only at hsel hans hfail hkeeps
  have hcustody : Custody start root.ref kept walk.session := by simpa using hkeeps.custody
  have hborrowed : ∀ y ∈ kept, y.handle.isBorrowed = true →
      y.handle = root.view ∧ y.node = node := by
    intro y hy hyb
    rcases hviews with rfl | hviews
    · cases hy
    · cases atRoot with
      | true =>
          obtain rfl : kept = [⟨root.view, node⟩] := hviews
          obtain rfl := List.mem_singleton.1 hy
          exact ⟨rfl, rfl⟩
      | false => exact absurd hyb (by simp [show ∀ y ∈ kept, _ from hviews, hy])
  refine ⟨kept, ?_⟩
  cases failure with
  | none => exact ⟨hcustody, hborrowed, hsel, hans⟩
  | some error =>
      refine ⟨hcustody, hborrowed, ?_⟩
      have hkept := hfail rfl
      cases error with
      | rootUnreachable e =>
          have hmap : Except.map demand.cut ((start.outlook options).resolve query.steps true
              [node]) = .error e := hans
          cases hr : (start.outlook options).resolve query.steps true [node] <;> rw [hr] at hmap
          · exact ⟨hkept, congrArg Except.error (Except.error.inj hmap)⟩
          · cases hmap
      | sessionMismatch _ _ => exact hans
      | interrupted cause => exact ⟨hkept, hans⟩

/-! ### New sessions -/

/-- A new session, on a bridge whose calls fail as given, that has acquired and adopted a handle to
a node. -/
def opening (tree : Tree) (node : tree.NodeId) (failures : BridgeOp → Nat → Option Int32) :
    Handle × Session tree :=
  (do
    let root ← onBridge (Bridge.acquire node)
    adopt root
    return root) (Session.new ⟨1⟩ { Bridge.new tree ⟨1⟩ with failures := failures })

theorem live_opening (tree : Tree) (node : tree.NodeId)
    (failures : BridgeOp → Nat → Option Int32) :
    (opening tree node failures).2.bridge.live[(opening tree node failures).1.ref]? = some node :=
  Std.ExtTreeMap.getElem?_insert_self

theorem mem_live_opening (tree : Tree) (node : tree.NodeId)
    (failures : BridgeOp → Nat → Option Int32) :
    (opening tree node failures).1.ref ∈ (opening tree node failures).2.bridge.live :=
  Std.ExtTreeMap.mem_iff_isSome_getElem?.2 (by rw [live_opening]; rfl)

theorem outstanding_opening (tree : Tree) (node : tree.NodeId)
    (failures : BridgeOp → Nat → Option Int32) :
    ∀ ref ∈ (opening tree node failures).2.ledger.outstanding,
      ref ∈ (opening tree node failures).2.bridge.live := by
  intro ref h
  have h : ref = (opening tree node failures).1.ref ∨ ref ∈ Ledger.empty.outstanding :=
    Ledger.mem_enter.1 h
  rcases h with rfl | h
  · exact mem_live_opening tree node failures
  · exact absurd h Std.ExtTreeSet.not_mem_empty

end Session

end AccessQuery
