/-
**Sessions in use.**

A session may be used in any order: handles are acquired from the bridge and adopted, iterators over
children are opened and are in use side by side, handles of any origin are given back, and whole
queries are resolved.  The ledger and the bridge agree at all times, where the session and the
bridge have different identifiers too, and whichever calls fail.

The one thing asked of the user is that a handle is adopted only while its reference is live.

Main definitions:

* `AccessQuery.Client`, `AccessQuery.Operation` — a session in use, and what is done with it;
* `AccessQuery.Client.perform`, `AccessQuery.Client.Runs` — one operation, and sequences of them.

Main results:

* `AccessQuery.Client.agrees_perform` — an operation keeps the books in agreement;
* `AccessQuery.Client.history_agrees` — so does every sequence of operations, and a release that is
  refused is counted and changes nothing else.
-/

import AccessQuery.Proofs.Agreement

set_option relaxedAutoImplicit false
set_option autoImplicit false

namespace AccessQuery

variable {tree : Tree}

/-! ### Refused releases -/

namespace Session

/-- A session refuses to give a handle back that is no view, and belongs to another session or is
not owed. -/
def Refuses (session : Session tree) (handle : Handle) : Prop :=
  handle.isBorrowed = false ∧
    (handle.session ≠ session.id ∨ handle.ref ∉ session.ledger.outstanding)

instance (session : Session tree) (handle : Handle) : Decidable (session.Refuses handle) :=
  inferInstanceAs (Decidable (_ ∧ _))

/-- Only a release that is refused is counted as such. -/
theorem rejected_of_not_refuses {session : Session tree} {handle : Handle}
    (h : ¬ session.Refuses handle) :
    (session.afterRelease handle).ledger.rejected = session.ledger.rejected := by
  unfold afterRelease
  split
  · rfl
  · next hb =>
      split
      · next hr => exact absurd ⟨by simpa using hb, hr⟩ h
      · rfl

end Session

/-! ### Operations -/

/-- A session in use. -/
structure Client (tree : Tree) where
  /-- The session. -/
  session : Session tree
  /-- The iterators over children that are open. -/
  opened : List Siblings

/-- What is done with a session.  Iterators are named by their place among those that are open. -/
inductive Operation (tree : Tree)
  /-- A handle is acquired from the bridge, past the session. -/
  | acquire (node : tree.NodeId)
  /-- From now on, a call on a node fails. -/
  | failOn (op : BridgeOp) (place : Nat) (code : Int32)
  | adopt (handle : Handle)
  /-- An iterator is opened. -/
  | children (handle : Handle)
  /-- The next child is taken out of an iterator. -/
  | next (i : Nat)
  /-- The children in an iterator are sorted out. -/
  | retain (i : Nat) (keep : Handle → Bool)
  /-- An iterator is closed. -/
  | drop (i : Nat)
  | parent (handle : Handle)
  | attributes (handle : Handle)
  | siblingPosition (handle : Handle)
  | sameObject (a b : Handle)
  | release (handle : Handle)
  | releaseAll (handles : List Handle)
  | resolve (options : ResolveOptions) (demand : Demand) (query : Query) (root : Handle)

namespace Client

/-- A new session over a bridge of its own, whose calls fail as given. -/
def new (tree : Tree) (id bridgeId : SessionId) (failures : BridgeOp → Nat → Option Int32) :
    Client tree :=
  ⟨Session.new id { Bridge.new tree bridgeId with failures := failures }, []⟩

/-- Uses the session and leaves the iterators alone. -/
def inSession {α : Type} (client : Client tree) (use : SessionM tree α) : Client tree :=
  { client with session := (use client.session).2 }

/-- The state after an operation.  An iterator that is not open is left alone. -/
def perform (client : Client tree) : Operation tree → Client tree
  | .acquire node => client.inSession (Session.onBridge (Bridge.acquire node))
  | .failOn op place code => client.inSession (Session.onBridge (modify (·.failOn op place code)))
  | .adopt handle => client.inSession (Session.adopt handle)
  | .children handle =>
      match Session.children handle client.session with
      | (.ok siblings, session) => ⟨session, client.opened ++ [siblings]⟩
      | (.error _, session) => { client with session := session }
  | .next i =>
      { client with opened := client.opened.modify i fun siblings =>
          siblings.next?.elim siblings Prod.snd }
  | .retain i keep =>
      match client.opened[i]? with
      | none => client
      | some siblings =>
          let (kept, session) :=
            siblings.retain Session.release (fun child => pure (keep child)) client.session
          ⟨session, client.opened.set i kept⟩
  | .drop i =>
      match client.opened[i]? with
      | none => client
      | some siblings => ⟨(siblings.drop client.session).2, client.opened.eraseIdx i⟩
  | .parent handle => client.inSession (Session.parent handle)
  | .attributes handle => client.inSession (Session.attributes handle)
  | .siblingPosition handle => client.inSession (Session.siblingPosition handle)
  | .sameObject a b => client.inSession (Session.sameObject a b)
  | .release handle => client.inSession (Session.release handle)
  | .releaseAll handles => client.inSession (Session.releaseAll handles)
  | .resolve options demand query root => client.inSession (Session.run options demand query root)

/-- A handle may be adopted while its reference is live; everything else is allowed. -/
def Permits (client : Client tree) : Operation tree → Prop
  | .adopt handle => handle.ref ∈ client.session.bridge.live
  | _ => True

/-- Operations lead from one state to another. -/
inductive Runs : Client tree → List (Operation tree) → Client tree → Prop
  | nil (client : Client tree) : Runs client [] client
  | cons {client after : Client tree} {op : Operation tree} {rest : List (Operation tree)} :
      client.Permits op → Runs (client.perform op) rest after → Runs client (op :: rest) after

/-! ### The books -/

variable {client after : Client tree}

theorem agrees_adopt {session : Session tree} (h : session.Agrees) {handle : Handle}
    (hl : handle.ref ∈ session.bridge.live) : (Session.adopt handle session).2.Agrees := by
  simp only [Session.adopt, bind, StateT.bind, get, getThe, MonadStateOf.get, StateT.get, pure]
  split
  · exact h.track hl
  · exact h

theorem agrees_keepFrom {session : Session tree} (h : session.Agrees) (keep : Handle → Bool)
    (handles : List Handle) :
    (Siblings.keepFrom Session.release (fun child => pure (keep child)) handles
      session).2.Agrees := by
  induction handles generalizing session with
  | nil => exact h
  | cons handle rest ih =>
      simp only [Siblings.keepFrom, bind, StateT.bind, pure]
      cases keep handle with
      | true => exact ih h
      | false => exact ih (h.release handle)

/-- An operation keeps the books in agreement. -/
theorem agrees_perform (h : client.session.Agrees) {op : Operation tree} (hp : client.Permits op) :
    (client.perform op).session.Agrees := by
  have hI : Session.Invariant (Session.Agrees : Session tree → Prop) := Session.invariant_agrees
  cases op with
  | acquire node => exact h.gains (client.session.bridge.gains_acquire node)
  | failOn op place code =>
      exact ⟨⟨h.bridge_sound.live_issued, h.bridge_sound.givenBack_issued,
        h.bridge_sound.givenBack_gone, h.bridge_sound.givenBack_nodup, h.bridge_sound.invalid_eq⟩,
        h.ledger_balanced, h.outstanding_live⟩
  | adopt handle => exact agrees_adopt h hp
  | children handle =>
      have hc := hI.children handle client.session h
      simp only [perform]
      split
      · next heq => rwa [heq] at hc
      · next heq => rwa [heq] at hc
  | next i => exact h
  | retain i keep =>
      simp only [perform]
      split
      · exact h
      · next siblings _ => exact agrees_keepFrom h keep siblings.unvisited
  | drop i =>
      simp only [perform]
      split
      · exact h
      · next siblings _ => exact hI.releaseAll siblings.unvisited h
  | parent handle => exact hI.parent handle client.session h
  | attributes handle => exact hI.attributes handle client.session h
  | siblingPosition handle => exact hI.siblingPosition handle client.session h
  | sameObject a b => exact hI.sameObject a b client.session h
  | release handle => exact h.release handle
  | releaseAll handles => exact hI.releaseAll handles h
  | resolve options demand query root => exact hI.run options demand query root h

theorem agrees_of_runs {ops : List (Operation tree)} (h : client.session.Agrees)
    (hr : Runs client ops after) : after.session.Agrees := by
  induction hr with
  | nil client => exact h
  | cons hp _ ih => exact ih (agrees_perform h hp)

/-- The ledger and the bridge agree after every sequence of operations on a new session, whatever
the identifiers and the failures, and a release that is refused is counted and does nothing else. -/
theorem history_agrees {id bridgeId : SessionId} {failures : BridgeOp → Nat → Option Int32}
    {ops : List (Operation tree)} (h : Runs (new tree id bridgeId failures) ops after) :
    after.session.Agrees ∧ ∀ handle,
      if after.session.Refuses handle then
        (Session.release handle after.session).2 =
          { after.session with ledger := after.session.ledger.refuse }
      else (Session.release handle after.session).2.ledger.rejected =
        after.session.ledger.rejected := by
  refine ⟨agrees_of_runs (Session.Agrees.of_new tree id bridgeId failures) h, fun handle => ?_⟩
  split
  · next hr => exact Session.afterRelease_refused hr.1 hr.2
  · next hr => exact Session.rejected_of_not_refuses hr

/-- A session whose identifier is not that of the bridge, with a handle that is released twice and
another that was never acquired. -/
theorem history_agrees_foreign :
    let tree := (Tree.single (Element.new "panel" "")).addChild ⟨0, by decide⟩
      (Element.new "label" "")
    let client := Client.new tree ⟨1⟩ ⟨2⟩ fun op place =>
      if place = 1 ∧ op = .release then some 7 else none
    let root : Handle := ⟨⟨1⟩, ⟨0x1001⟩, Capabilities.empty, .owned⟩
    let bridged : Handle := { root with session := ⟨2⟩ }
    let forged : Handle := { root with ref := ⟨0x1002⟩ }
    let ops : List (Operation tree) :=
      [.acquire ⟨0, by decide⟩, .adopt root, .children bridged, .next 0, .release forged,
        .drop 0, .resolve {} .all (Query.single ⟨.descendant, .wildcard, none⟩) root,
        .release root, .release root]
    let after := ops.foldl Client.perform client
    Runs client ops after ∧ after.session.Agrees ∧ ∀ handle,
      if after.session.Refuses handle then
        (Session.release handle after.session).2 =
          { after.session with ledger := after.session.ledger.refuse }
      else (Session.release handle after.session).2.ledger.rejected =
        after.session.ledger.rejected := by
  intro tree client root bridged forged ops after
  have hlive : client.perform (.acquire ⟨0, by decide⟩) |>.Permits (.adopt root) :=
    Std.ExtTreeMap.mem_insert_self
  have h : Runs client ops after :=
    .cons trivial (.cons hlive (.cons trivial (.cons trivial (.cons trivial (.cons trivial
      (.cons trivial (.cons trivial (.cons trivial (.nil _)))))))))
  exact ⟨h, history_agrees h⟩

end Client

end AccessQuery
