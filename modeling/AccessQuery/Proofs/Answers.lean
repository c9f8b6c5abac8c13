/-
**What a bridge answers about a live handle.**

A call about a live handle finds its node, unless it has been made to fail, and answers what the
tree says of that node.  Handles that are yielded denote the nodes that the tree names, and those
that were live before still denote what they did.

Main definitions:

* `AccessQuery.Bridge.Denotes` — a live handle with its node;
* `AccessQuery.Bridge.Continues` — a later state of a bridge that has lost no handles.

Main results:

* `AccessQuery.Bridge.locate_of_denotes`, `AccessQuery.Bridge.denotes_of_locate` — the node of a
  live handle is found;
* `AccessQuery.Bridge.children_of_locate`, `AccessQuery.Bridge.parent_of_locate`,
  `AccessQuery.Bridge.attributes_of_locate`, `AccessQuery.Bridge.siblingIndex_of_locate`,
  `AccessQuery.Bridge.sameObject_of_locate` — what the calls answer.
-/

import AccessQuery.Proofs.Custody

set_option relaxedAutoImplicit false
set_option autoImplicit false

namespace AccessQuery.Bridge

variable {tree : Tree} {bridge : Bridge tree} {handle : Handle} {node : tree.NodeId}

/-- A handle of the session of a bridge is live and stands for a node. -/
structure Denotes (bridge : Bridge tree) (handle : Handle) (node : tree.NodeId) : Prop where
  session_eq : handle.session = bridge.session
  node_eq : bridge.nodeOf? handle = some node

/-- A later state of a bridge, in which what was live still is. -/
structure Continues (before after : Bridge tree) : Prop where
  session_eq : after.session = before.session
  failures_eq : after.failures = before.failures
  kept : ∀ (ref : NativeRef) (node : tree.NodeId),
    before.live[ref]? = some node → after.live[ref]? = some node

namespace Continues

theorem refl (bridge : Bridge tree) : bridge.Continues bridge :=
  ⟨rfl, rfl, fun _ _ h => h⟩

theorem trans {a b c : Bridge tree} (h : a.Continues b) (h' : b.Continues c) : a.Continues c where
  session_eq := h'.session_eq.trans h.session_eq
  failures_eq := h'.failures_eq.trans h.failures_eq
  kept ref node hr := h'.kept ref node (h.kept ref node hr)

theorem of_gains {before after : Bridge tree} {gained : List (Holding tree)}
    (h : before.Gains gained after) : before.Continues after where
  session_eq := h.session_eq
  failures_eq := h.failures_eq
  kept ref node hr := by rw [h.kept ref (le_of_live hr), hr]

theorem denotes {before after : Bridge tree} (h : before.Continues after)
    (hd : before.Denotes handle node) : after.Denotes handle node where
  session_eq := hd.session_eq.trans h.session_eq.symm
  node_eq := h.kept _ _ hd.node_eq

end Continues

/-! ### Locating -/

theorem locate_of_denotes {op : BridgeOp} (h : bridge.Denotes handle node)
    (hf : bridge.failures op node.val = none) : bridge.locate op handle = .ok node := by
  have hnode : bridge.live[handle.ref]? = some node := h.node_eq
  simp [locate, h.session_eq, hnode, hf]

theorem denotes_of_locate {op : BridgeOp} (h : bridge.locate op handle = .ok node) :
    bridge.Denotes handle node := by
  unfold locate at h
  split at h
  · cases h
  · next hs =>
      cases hl : bridge.live[handle.ref]? with
      | none =>
          rw [hl] at h
          cases h
      | some other =>
          rw [hl] at h
          dsimp only at h
          split at h
          · cases h
          · cases h
            exact ⟨not_not.1 hs, hl⟩

theorem Gains.denotes_of_mem {before after : Bridge tree} {gained : List (Holding tree)}
    (h : before.Gains gained after) {x : Holding tree} (hx : x ∈ gained) :
    after.Denotes x.handle x.node where
  session_eq := (h.session_of_mem x hx).trans h.session_eq.symm
  node_eq := h.denotes x hx

/-! ### Answers -/

theorem attributes_of_locate (h : bridge.locate .attributes handle = .ok node) :
    (attributes handle bridge).1 = .ok (tree.attributes node) := by
  simp only [attributes, bind, StateT.bind, get, getThe, MonadStateOf.get, StateT.get, pure, h]
  rfl

theorem siblingIndex_of_locate (h : bridge.locate .siblingIndex handle = .ok node) :
    (siblingIndex handle bridge).1 = .ok (tree.place node) := by
  simp only [siblingIndex, bind, StateT.bind, get, getThe, MonadStateOf.get, StateT.get, pure, h]
  rfl

theorem sameObject_of_locate {other : Handle} {node' : tree.NodeId}
    (h : bridge.locate .sameObject handle = .ok node)
    (h' : bridge.locate .sameObject other = .ok node') :
    (sameObject handle other bridge).1 = .ok (node == node') := by
  simp only [sameObject, bind, StateT.bind, get, getThe, MonadStateOf.get, StateT.get, pure, h, h']
  rfl

/-- The handles to the children denote the children, in sibling order. -/
theorem children_of_locate (h : bridge.locate .children handle = .ok node) :
    ∃ (gained : List (Holding tree)) (after : Bridge tree),
      children handle bridge = (.ok (gained.map Holding.handle), after) ∧
      gained.map Holding.node = tree.children node ∧ bridge.Continues after ∧
      ∀ x ∈ gained, after.Denotes x.handle x.node := by
  obtain ⟨gained, hhandles, hnodes, hgains⟩ := gains_acquireAll (tree.children node) bridge
  have hrun : children handle bridge = (.ok (gained.map Holding.handle),
      (acquireAll (tree.children node) bridge).2.record
        (.children handle.ref (.ok ((gained.map Holding.handle).map Handle.ref)))) := by
    simp only [children, bind, StateT.bind, get, getThe, MonadStateOf.get, StateT.get, pure, h,
      ← hhandles]
    rfl
  refine ⟨gained, _, hrun, hnodes, ?_, fun x hx => ?_⟩
  · obtain ⟨hsession, hfailures, hkept⟩ := Continues.of_gains hgains
    exact ⟨hsession, hfailures, hkept⟩
  · obtain ⟨hsession, hnode⟩ := hgains.denotes_of_mem hx
    exact ⟨hsession, hnode⟩

/-- The handle to the parent denotes the parent; the root has none. -/
theorem parent_of_locate (h : bridge.locate .parent handle = .ok node) :
    match tree.parent? node with
    | none => (parent handle bridge).1 = .ok none
    | some above => ∃ found after, parent handle bridge = (.ok (some found), after) ∧
        bridge.Continues after ∧ after.Denotes found above := by
  cases hp : tree.parent? node with
  | none =>
      simp only [parent, bind, StateT.bind, get, getThe, MonadStateOf.get, StateT.get, pure, h, hp]
      rfl
  | some above =>
      have hgains := gains_acquire bridge above
      have hrun : parent handle bridge = (.ok (some (acquire above bridge).1),
          (acquire above bridge).2.record
            (.parent handle.ref (.ok (some (acquire above bridge).1.ref)))) := by
        simp only [parent, bind, StateT.bind, get, getThe, MonadStateOf.get, StateT.get, pure, h,
          hp]
        rfl
      obtain ⟨hsession, hfailures, hkept⟩ := Continues.of_gains hgains
      obtain ⟨hs, hnode⟩ := hgains.denotes_of_mem (List.mem_singleton_self _)
      exact ⟨_, _, hrun, ⟨hsession, hfailures, hkept⟩, hs, hnode⟩

end AccessQuery.Bridge
