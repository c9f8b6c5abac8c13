/-
**What a bridge refuses.**

A handle belongs to the session that it was issued in.  A bridge of another session may have the
same reference live, for a node of its own, so a call that looks for a handle looks at its session
first and at its reference only then.  A call that looks for two handles fails for the first one
that it does not find.  A call that is refused leaves nothing behind but its entry in the record.

A release does not look for its handle.  It takes the reference as it is, so that a handle of
another session gives back whatever is live here under its reference.

Main definitions:

* `AccessQuery.Bridge.Request.sought?` — the handles that a request looks for;
* `AccessQuery.Bridge.Request.IsRefused` — a request fails and changes nothing.

Main results:

* `AccessQuery.Bridge.isRefused_of_mapM` — a request is refused for the first handle that it does
  not find;
* `AccessQuery.Bridge.sameBooks_release_iff`, `AccessQuery.Bridge.release_foreign_iff` — when a
  release spares what is live, and when it fails as if it were refused for its session;
* `AccessQuery.Bridge.foreign_refused` — what becomes of a handle of another session;
* `AccessQuery.Bridge.release_foreign_frees` — a node is lost to it.
-/

import AccessQuery.Proofs.Issuance

set_option relaxedAutoImplicit false
set_option autoImplicit false

namespace AccessQuery.Bridge

variable {tree : Tree} {bridge : Bridge tree} {request : Request tree} {handle : Handle}
variable {error : BridgeError}

/-! ### Requests that look for handles -/

/-- The call that looks for handles, and the handles in the order in which it looks for them. -/
def Request.sought? : Request tree → Option (BridgeOp × List Handle)
  | .children handle => some (.children, [handle])
  | .parent handle => some (.parent, [handle])
  | .attributes handle => some (.attributes, [handle])
  | .siblingIndex handle => some (.siblingIndex, [handle])
  | .sameObject a b => some (.sameObject, [a, b])
  | .root | .acquire _ | .release _ | .failOn .. => none

/-- A request fails, and but for the record the bridge stays as it was. -/
structure Request.IsRefused (request : Request tree) (bridge : Bridge tree)
    (error : BridgeError) : Prop where
  answer_eq : (request.answer bridge).1 = .error error
  after_eq : ∃ call, (request.answer bridge).2 = bridge.record call

theorem locate_of_mapM {op : BridgeOp} (h : [handle].mapM (bridge.locate op) = .error error) :
    bridge.locate op handle = .error error := by
  rw [List.mapM_cons] at h
  cases hl : bridge.locate op handle with
  | error e =>
      rw [hl] at h
      cases h
      rfl
  | ok node =>
      rw [hl] at h
      cases h

/-- A request is refused for the first handle that it does not find. -/
theorem isRefused_of_mapM {op : BridgeOp} {handles : List Handle}
    (hs : request.sought? = some (op, handles))
    (h : handles.mapM (bridge.locate op) = .error error) : request.IsRefused bridge error := by
  cases request with
  | root | acquire node | release handle | failOn op place code => cases hs
  | children handle | parent handle | attributes handle | siblingIndex handle =>
      cases hs
      have hl := locate_of_mapM h
      constructor <;>
        simp only [Request.answer, children, parent, attributes, siblingIndex, bind, StateT.bind,
          get, getThe, MonadStateOf.get, StateT.get, pure, hl]
      · rfl
      · exact ⟨_, rfl⟩
  | sameObject a b =>
      cases hs
      refine ⟨?_, _, rfl⟩
      -- the answer is the comparison of the nodes, which is not reached
      have hanswer : ((Request.sameObject a b).answer bridge).1 =
          ([a, b].mapM (bridge.locate .sameObject)).map fun _ => [] := by
        rw [List.mapM_cons, List.mapM_cons, List.mapM_nil]
        change Except.map _ (do
          let left ← bridge.locate .sameObject a
          let right ← bridge.locate .sameObject b
          return left == right) = _
        cases bridge.locate .sameObject a with
        | error e => rfl
        | ok left => cases bridge.locate .sameObject b <;> rfl
      rw [hanswer, h]
      rfl

/-! ### Releases -/

theorem answer_release_of_none (h : bridge.nodeOf? handle = none) :
    ((Request.release handle).answer bridge).1 = .error ⟨.release, invalidReference⟩ ∧
      SameBooks ((Request.release handle).answer bridge).2 bridge := by
  have hlive : bridge.live[handle.ref]? = none := h
  simp only [Request.answer, release, bind, StateT.bind, get, getThe, MonadStateOf.get,
    StateT.get, pure, hlive]
  exact ⟨rfl, rfl, rfl, rfl⟩

theorem answer_release_of_some {node : tree.NodeId} (h : bridge.nodeOf? handle = some node) :
    ((Request.release handle).answer bridge).1 =
        (match bridge.failures .release node.val with
          | some code => .error ⟨.release, code⟩
          | none => .ok []) ∧
      ((Request.release handle).answer bridge).2.released = bridge.released + 1 := by
  have hlive : bridge.live[handle.ref]? = some node := h
  simp only [Request.answer, release, bind, StateT.bind, get, getThe, MonadStateOf.get,
    StateT.get, pure, hlive]
  cases bridge.failures .release node.val <;> exact ⟨rfl, rfl⟩

/-- A release spares what is live exactly if its reference is not. -/
theorem sameBooks_release_iff : SameBooks ((Request.release handle).answer bridge).2 bridge ↔
    bridge.nodeOf? handle = none := by
  refine ⟨fun hbooks => ?_, fun hnone => (answer_release_of_none hnone).2⟩
  cases hnode : bridge.nodeOf? handle with
  | none => rfl
  | some node =>
      have hreleased := (answer_release_of_some hnode).2
      rw [hbooks.released_eq] at hreleased
      omega

/-- It fails as a call that is refused for the session only where the bridge has been told to. -/
theorem release_foreign_iff :
    ((Request.release handle).answer bridge).1 = .error ⟨.release, foreignSession⟩ ↔
      ∃ node, bridge.nodeOf? handle = some node ∧
        bridge.failures .release node.val = some foreignSession := by
  cases hnode : bridge.nodeOf? handle with
  | none =>
      rw [(answer_release_of_none hnode).1]
      simp [invalidReference, foreignSession]
  | some node =>
      rw [(answer_release_of_some hnode).1]
      cases hcode : bridge.failures .release node.val with
      | none => simp [hcode]
      | some code => simp [hcode]

/-! ### Handles of another session -/

/-- A call that looks for a handle of another session is refused, whatever the reference of the
handle, its interfaces and its holder are: for the session, unless the call fails before for a
handle that it looks for first.  A release of the handle fails so only where it has been made to,
and spares what is live only if its reference is not. -/
theorem foreign_refused (h : handle.session ≠ bridge.session) :
    (Request.children handle).IsRefused bridge ⟨.children, foreignSession⟩ ∧
    (Request.parent handle).IsRefused bridge ⟨.parent, foreignSession⟩ ∧
    (Request.attributes handle).IsRefused bridge ⟨.attributes, foreignSession⟩ ∧
    (Request.siblingIndex handle).IsRefused bridge ⟨.siblingIndex, foreignSession⟩ ∧
    (∀ other, (Request.sameObject handle other).IsRefused bridge ⟨.sameObject, foreignSession⟩ ∧
      (Request.sameObject other handle).IsRefused bridge
        (match bridge.locate .sameObject other with
          | .error error => error
          | .ok _ => ⟨.sameObject, foreignSession⟩)) ∧
    (SameBooks ((Request.release handle).answer bridge).2 bridge ↔
      bridge.nodeOf? handle = none) ∧
    (((Request.release handle).answer bridge).1 = .error ⟨.release, foreignSession⟩ ↔
      ∃ node, bridge.nodeOf? handle = some node ∧
        bridge.failures .release node.val = some foreignSession) := by
  have hfirst (op : BridgeOp) (rest : List Handle) :
      (handle :: rest).mapM (bridge.locate op) = .error ⟨op, foreignSession⟩ := by
    rw [List.mapM_cons, locate_foreign op h]
    rfl
  refine ⟨isRefused_of_mapM rfl (hfirst _ _), isRefused_of_mapM rfl (hfirst _ _),
    isRefused_of_mapM rfl (hfirst _ _), isRefused_of_mapM rfl (hfirst _ _), fun other => ⟨?_, ?_⟩,
    sameBooks_release_iff, release_foreign_iff⟩
  · exact isRefused_of_mapM rfl (hfirst _ _)
  · refine isRefused_of_mapM rfl ?_
    rw [List.mapM_cons]
    cases bridge.locate .sameObject other with
    | error error => rfl
    | ok node =>
        rw [hfirst]
        rfl

/-- A handle of another session, whose reference is live here. -/
theorem foreign_refused_live :
    let tree := Tree.single (.new "frame" "Main")
    let bridge := (acquire ⟨0, by decide⟩ (new tree ⟨1⟩)).2
    let handle : Handle := ⟨⟨9⟩, ⟨0x1001⟩, .empty, .owned⟩
    handle.session ≠ bridge.session ∧ bridge.nodeOf? handle = some ⟨0, by decide⟩ ∧
      (Request.children handle).IsRefused bridge ⟨.children, foreignSession⟩ ∧
      (Request.parent handle).IsRefused bridge ⟨.parent, foreignSession⟩ ∧
      (Request.attributes handle).IsRefused bridge ⟨.attributes, foreignSession⟩ ∧
      (Request.siblingIndex handle).IsRefused bridge ⟨.siblingIndex, foreignSession⟩ ∧
      (∀ other, (Request.sameObject handle other).IsRefused bridge ⟨.sameObject, foreignSession⟩ ∧
        (Request.sameObject other handle).IsRefused bridge
          (match bridge.locate .sameObject other with
            | .error error => error
            | .ok _ => ⟨.sameObject, foreignSession⟩)) ∧
      (SameBooks ((Request.release handle).answer bridge).2 bridge ↔
        bridge.nodeOf? handle = none) ∧
      (((Request.release handle).answer bridge).1 = .error ⟨.release, foreignSession⟩ ↔
        ∃ node, bridge.nodeOf? handle = some node ∧
          bridge.failures .release node.val = some foreignSession) := by
  intro tree bridge handle
  have hforeign : handle.session ≠ bridge.session := by decide
  exact ⟨hforeign, by decide +kernel, foreign_refused hforeign⟩

/-- A release gives back the node of another session that has the same reference. -/
theorem release_foreign_frees :
    let tree := Tree.single (.new "frame" "Main")
    let acquired := acquire ⟨0, by decide⟩ (new tree ⟨1⟩)
    let handle : Handle := ⟨⟨9⟩, ⟨0x1001⟩, .empty, .owned⟩
    let after := (release handle acquired.2).2
    handle.session ≠ acquired.2.session ∧
      acquired.2.nodeOf? acquired.1 = some ⟨0, by decide⟩ ∧ acquired.2.released = 0 ∧
      (release handle acquired.2).1 = .ok () ∧ after.nodeOf? acquired.1 = none ∧
      after.released = 1 := by
  decide +kernel

end AccessQuery.Bridge
