/-
**The calls of a session, on handles in custody.**

A call on a handle that is held comes to what the tree says of its node, unless the node has a
fault, and leaves everything in custody; the handles that it acquires are held from then on, and
their references are later than all those before.

Main results:

* `AccessQuery.Custody.attributes`, `AccessQuery.Custody.siblingPosition`,
  `AccessQuery.Custody.sameObject` — asking;
* `AccessQuery.Custody.children`, `AccessQuery.Custody.parent` — acquiring.
-/

import AccessQuery.Proofs.Custody
import AccessQuery.Proofs.Outlook

set_option relaxedAutoImplicit false
set_option autoImplicit false

namespace AccessQuery

namespace Custody

variable {tree : Tree} {start now : Session tree} {root : NativeRef} {held : List (Holding tree)}
variable {x y : Holding tree}

/-- A handle that is held is refused only for a fault of its node. -/
theorem locate (h : Custody start root held now) (hx : x ∈ held) (op : BridgeOp) :
    now.bridge.locate op x.handle =
      match start.fault? op x.node with
      | some e => .error e
      | none => .ok x.node := by
  have hs := h.session_of_mem x hx
  unfold Bridge.locate Session.fault?
  rw [h.session_eq, hs, h.denotes x hx, h.failures_eq]
  by_cases hi : start.id = start.bridge.session
  · simp only [hi, ne_eq, not_true, if_false]
    cases start.bridge.failures op x.node.val <;> rfl
  · simp [hi]

/-- A handle that is not refused belongs to the session of the bridge. -/
theorem session_of_fault (h : Custody start root held now) {op : BridgeOp} {node : tree.NodeId}
    (hf : start.fault? op node = none) : now.bridge.session = now.id := by
  unfold Session.fault? at hf
  split at hf
  · simp at hf
  · next hi => rw [h.session_eq, h.id_eq, not_not.1 hi]

/-! ### Asking -/

theorem attributes (h : Custody start root held now) (hx : x ∈ held) :
    (Session.attributes x.handle now).1 =
        (match start.fault? .attributes x.node with
          | some e => .error e
          | none => .ok (tree.attributes x.node)) ∧
      Custody start root held (Session.attributes x.handle now).2 ∧
      (Session.attributes x.handle now).2.bridge.acquired = now.bridge.acquired := by
  have hl := h.locate hx .attributes
  simp only [Session.attributes, Session.onBridge, Bridge.attributes, bind, StateT.bind, get,
    getThe, MonadStateOf.get, StateT.get, pure, hl]
  cases start.fault? .attributes x.node with
  | some e =>
      refine ⟨rfl, h.record (.attributes x.handle.ref (.error e)) ?_ rfl rfl, rfl⟩
      simpa [Call.given] using ⟨x, hx, rfl⟩
  | none =>
      refine ⟨rfl, h.record (.attributes x.handle.ref (.ok ())) ?_ rfl rfl, rfl⟩
      simpa [Call.given] using ⟨x, hx, rfl⟩

theorem siblingPosition (h : Custody start root held now) (hx : x ∈ held) :
    (Session.siblingPosition x.handle now).1 =
        (match start.fault? .siblingIndex x.node with
          | some e => .error e
          | none => .ok ⟨(tree.place x.node).1, (tree.place x.node).2⟩) ∧
      Custody start root held (Session.siblingPosition x.handle now).2 ∧
      (Session.siblingPosition x.handle now).2.bridge.acquired = now.bridge.acquired := by
  have hl := h.locate hx .siblingIndex
  simp only [Session.siblingPosition, Session.onBridge, Bridge.siblingIndex, bind, StateT.bind,
    get, getThe, MonadStateOf.get, StateT.get, pure, hl]
  cases start.fault? .siblingIndex x.node with
  | some e =>
      refine ⟨rfl, h.record (.siblingIndex x.handle.ref (.error e)) ?_ rfl rfl, rfl⟩
      simpa [Call.given] using ⟨x, hx, rfl⟩
  | none =>
      refine ⟨rfl, h.record (.siblingIndex x.handle.ref (.ok (tree.place x.node))) ?_ rfl
        rfl, rfl⟩
      simpa [Call.given] using ⟨x, hx, rfl⟩

/-- What comparing two nodes comes to: a fault of the first of them, or else of the second, or
whether they are one. -/
def comparison (start : Session tree) (a b : tree.NodeId) : Except BridgeError Bool :=
  match start.fault? .sameObject a, start.fault? .sameObject b with
  | some e, _ => .error e
  | none, some e => .error e
  | none, none => .ok (a == b)

theorem sameObject (h : Custody start root held now) (hx : x ∈ held) (hy : y ∈ held) :
    (Session.sameObject x.handle y.handle now).1 = comparison start x.node y.node ∧
      Custody start root held (Session.sameObject x.handle y.handle now).2 ∧
      (Session.sameObject x.handle y.handle now).2.bridge.acquired = now.bridge.acquired := by
  have hl := h.locate hx .sameObject
  have hl' := h.locate hy .sameObject
  have hg (outcome : Except BridgeError Bool) :
      Custody start root held { now with
        bridge := now.bridge.record (.sameObject x.handle.ref y.handle.ref outcome) } := by
    refine h.record _ (fun ref hr => ?_) rfl rfl
    rcases List.mem_cons.1 hr with rfl | hr
    · exact ⟨x, hx, rfl⟩
    · exact ⟨y, hy, (List.mem_singleton.1 hr).symm⟩
  refine ⟨?_, hg _, rfl⟩
  simp only [Session.sameObject, Session.onBridge, Bridge.sameObject, bind, StateT.bind, get,
    getThe, MonadStateOf.get, StateT.get, set, pure, hl, hl', comparison]
  cases start.fault? .sameObject x.node <;> cases start.fault? .sameObject y.node <;> rfl

/-! ### Acquiring -/

theorem trackAll_eq (gained : List (Holding tree)) (session : Session tree) :
    Session.trackAll (gained.map Holding.handle) session =
      ((), { session with
        ledger := gained.foldl (fun l x => l.enter x.handle.ref) session.ledger }) := by
  induction gained generalizing session with
  | nil => rfl
  | cons x gained ih =>
      exact ih { session with ledger := session.ledger.enter x.handle.ref }

theorem children (h : Custody start root held now) (hx : x ∈ held) :
    match start.fault? .children x.node with
    | some e => (Session.children x.handle now).1 = .error e ∧
        Custody start root held (Session.children x.handle now).2 ∧
        (Session.children x.handle now).2.bridge.acquired = now.bridge.acquired
    | none => ∃ gained : List (Holding tree),
        (Session.children x.handle now).1 = .ok (.ofList (gained.map Holding.handle)) ∧
        gained.map Holding.node = tree.children x.node ∧
        (∀ y ∈ gained, y.handle.isBorrowed = false ∧
          0x1000 + now.bridge.acquired < y.handle.ref.address) ∧
        Custody start root (gained ++ held) (Session.children x.handle now).2 ∧
        now.bridge.acquired ≤ (Session.children x.handle now).2.bridge.acquired := by
  have hl := h.locate hx .children
  cases hf : start.fault? .children x.node with
  | some e =>
      rw [hf] at hl
      simp only [Session.children, Session.acquireChildren, Session.onBridge, Bridge.children, bind,
        StateT.bind, get, getThe, MonadStateOf.get, StateT.get, pure, hl]
      refine ⟨rfl, h.record (.children x.handle.ref (.error e)) ?_ rfl rfl, rfl⟩
      simpa [Call.given] using ⟨x, hx, rfl⟩
  | none =>
      rw [hf] at hl
      obtain ⟨gained, hh, hn, hgain⟩ :=
        Bridge.gains_acquireAll (tree.children x.node) now.bridge
      generalize ha : Bridge.acquireAll (tree.children x.node) now.bridge = acquisition at *
      obtain ⟨handles, after⟩ := acquisition
      obtain rfl : handles = gained.map Holding.handle := hh
      have hnext := h.acquire hgain (.children x.handle.ref
          (.ok ((gained.map Holding.handle).map Handle.ref))) (h.session_of_fault hf)
        (by simpa [Call.given] using ⟨x, hx, rfl⟩) (by simp [Call.acquired, Function.comp_def]) rfl
      have heq : Session.children x.handle now =
          (.ok (.ofList (gained.map Holding.handle)), { now with
            bridge := after.record
              (.children x.handle.ref (.ok ((gained.map Holding.handle).map Handle.ref)))
            ledger := gained.foldl (fun l x => l.enter x.handle.ref) now.ledger }) := by
        simp only [Session.children, Session.acquireChildren, Session.onBridge, Bridge.children,
          bind, StateT.bind, get, getThe, MonadStateOf.get, StateT.get, pure, hl, ha, modify,
          modifyGet, MonadStateOf.modifyGet, StateT.modifyGet]
        have htrack := trackAll_eq gained { now with
          bridge := after.record
            (.children x.handle.ref (.ok ((gained.map Holding.handle).map Handle.ref))) }
        exact congrArg
          (fun tracked => (Except.ok (Siblings.ofList (gained.map Holding.handle)), tracked.2))
          htrack
      rw [heq]
      exact ⟨gained, rfl, hn, fun y hy => ⟨hgain.owned y hy, (hgain.fresh y hy).1⟩, hnext,
        hgain.acquired_le⟩

theorem parent (h : Custody start root held now) (hx : x ∈ held) :
    match start.fault? .parent x.node with
    | some e => (Session.parent x.handle now).1 = .error e ∧
        Custody start root held (Session.parent x.handle now).2 ∧
        (Session.parent x.handle now).2.bridge.acquired = now.bridge.acquired
    | none => ∃ gained : Option (Holding tree),
        (Session.parent x.handle now).1 = .ok (gained.map Holding.handle) ∧
        gained.map Holding.node = tree.parent? x.node ∧
        (∀ y ∈ gained, 0x1000 + now.bridge.acquired < y.handle.ref.address) ∧
        Custody start root (gained.toList ++ held) (Session.parent x.handle now).2 ∧
        now.bridge.acquired ≤ (Session.parent x.handle now).2.bridge.acquired := by
  have hl := h.locate hx .parent
  have hg (outcome : Except BridgeError (Option NativeRef)) :
      ∀ ref ∈ (Call.parent x.handle.ref outcome).given, ∃ x ∈ held, x.handle.ref = ref := by
    simpa [Call.given] using ⟨x, hx, rfl⟩
  cases hf : start.fault? .parent x.node with
  | some e =>
      rw [hf] at hl
      simp only [Session.parent, Session.onBridge, Bridge.parent, bind, StateT.bind, get, getThe,
        MonadStateOf.get, StateT.get, pure, hl]
      exact ⟨rfl, h.record _ (hg (.error e)) rfl rfl, rfl⟩
  | none =>
      rw [hf] at hl
      simp only [Session.parent, Session.onBridge, Bridge.parent, bind, StateT.bind, get, getThe,
        MonadStateOf.get, StateT.get, pure, hl]
      cases hp : tree.parent? x.node with
      | none =>
          exact ⟨none, rfl, rfl, by simp, h.record _ (hg (.ok none)) rfl rfl, Nat.le_refl _⟩
      | some above =>
          have hgain := now.bridge.gains_acquire above
          exact ⟨some ⟨(Bridge.acquire above now.bridge).1, above⟩, rfl, rfl,
            by simpa using (hgain.fresh _ List.mem_cons_self).1,
            h.acquire hgain _ (h.session_of_fault hf) (hg (.ok (some _))) rfl rfl,
            hgain.acquired_le⟩

/-! ### Giving back -/

theorem acquired_release (handle : Handle) (session : Session tree) :
    (session.afterRelease handle).bridge.acquired = session.bridge.acquired := by
  unfold Session.afterRelease
  split
  · rfl
  · split
    · rfl
    · simp only [Bridge.release, bind, StateT.bind, get, getThe, MonadStateOf.get, StateT.get, pure]
      cases session.bridge.live[handle.ref]? <;> rfl

end Custody

end AccessQuery
