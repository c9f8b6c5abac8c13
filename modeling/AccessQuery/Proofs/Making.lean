/-
**One call after another.**

Whatever is asked of a session, the bridge makes one call, or none where a release is refused.  The
record gains that call, and the references that it acquires come right after all that were acquired
before.  So the references acquired in a stretch of a record are told from all earlier ones by their
addresses, and how often a reference has been read can be counted call by call.

Main definitions:

* `AccessQuery.Bridge.Makes` — a bridge makes a call;
* `AccessQuery.Bridge.reads`, `AccessQuery.Bridge.readsSince` — how often attributes have been read;
* `AccessQuery.Bridge.Numbered` — what a bridge acquires since an earlier state comes later.

Main results:

* `AccessQuery.Session.makes_children`, `AccessQuery.Session.makes_parent`,
  `AccessQuery.Session.makes_attributes`, `AccessQuery.Session.makes_siblingPosition`,
  `AccessQuery.Session.makes_sameObject`, `AccessQuery.Session.makes_release` — the calls;
* `AccessQuery.Session.invariant_numbered` — references are numbered in the order of acquisition;
* `AccessQuery.Bridge.reads_eq_add` — reads are counted stretch by stretch.
-/

import AccessQuery.Proofs.Agreement
import AccessQuery.Proofs.Walk.Upholds

set_option relaxedAutoImplicit false
set_option autoImplicit false

namespace AccessQuery

variable {tree : Tree}

/-! ### Reads -/

/-- Whether a call reads the attributes of a reference. -/
def Call.reads (ref : NativeRef) : Call → Bool
  | .attributes node _ => node = ref
  | _ => false

namespace Bridge

/-- How often the attributes of a reference have been read. -/
def reads (bridge : Bridge tree) (ref : NativeRef) : Nat :=
  bridge.calls.toList.countP (Call.reads ref)

/-- How often they have been read since an earlier state. -/
def readsSince (start now : Bridge tree) (ref : NativeRef) : Nat :=
  (start.callsSince now).countP (Call.reads ref)

variable {start before now after : Bridge tree} {call : Call}

/-- What is recorded since an earlier state comes after what was recorded then. -/
theorem calls_eq_append (h : start.calls.toList <+: now.calls.toList) :
    now.calls.toList = start.calls.toList ++ start.callsSince now := by
  obtain ⟨since, hsince⟩ := h
  rw [callsSince, ← hsince, ← Array.length_toList, List.drop_left]

theorem reads_eq_add (h : start.calls.toList <+: now.calls.toList) (ref : NativeRef) :
    now.reads ref = start.reads ref + start.readsSince now ref := by
  rw [reads, calls_eq_append h, List.countP_append]
  rfl

@[simp] theorem readsSince_self (bridge : Bridge tree) (ref : NativeRef) :
    bridge.readsSince bridge ref = 0 := by
  simp [readsSince]

@[simp] theorem acquiredSince_self (bridge : Bridge tree) : bridge.acquiredSince bridge = [] := by
  simp [acquiredSince]

/-- What is read in one stretch and in the next. -/
theorem readsSince_eq_add (h : start.calls.toList <+: before.calls.toList)
    (h' : before.calls.toList <+: after.calls.toList) (ref : NativeRef) :
    start.readsSince after ref = start.readsSince before ref + before.readsSince after ref := by
  have hsum := reads_eq_add (h.trans h') ref
  rw [reads_eq_add h', reads_eq_add h] at hsum
  omega

/-- What is acquired in one stretch and in the next. -/
theorem acquiredSince_append (h : start.calls.toList <+: before.calls.toList)
    (h' : before.calls.toList <+: after.calls.toList) :
    start.acquiredSince after = start.acquiredSince before ++ before.acquiredSince after := by
  have hafter := calls_eq_append (h.trans h')
  rw [calls_eq_append h', calls_eq_append h, List.append_assoc] at hafter
  rw [acquiredSince, ← List.append_cancel_left hafter, List.flatMap_append]
  rfl

/-! ### Calls -/

/-- A bridge makes a call: the record gains it, and what it acquires comes after all that was
acquired before. -/
structure Makes (before after : Bridge tree) (call : Call) : Prop where
  calls_eq : after.calls = before.calls.push call
  acquired_le : before.acquired ≤ after.acquired
  fresh : ∀ ref ∈ call.acquired,
    0x1000 + before.acquired < ref.address ∧ ref.address ≤ 0x1000 + after.acquired
  nodup : call.acquired.Nodup

theorem makes_record (bridge : Bridge tree) (h : call.acquired = []) :
    bridge.Makes (bridge.record call) call where
  calls_eq := rfl
  acquired_le := Nat.le_refl _
  fresh ref hr := by simp [h] at hr
  nodup := by simp [h]

/-- A call that acquires handles. -/
theorem Gains.makes {gained : List (Holding tree)} (h : before.Gains gained now)
    (hc : call.acquired = gained.map fun x => x.handle.ref) :
    before.Makes (now.record call) call where
  calls_eq := congrArg (Array.push · call) h.calls_eq
  acquired_le := h.acquired_le
  fresh ref hr := by
    rw [hc] at hr
    obtain ⟨x, hx, rfl⟩ := List.mem_map.1 hr
    exact h.fresh x hx
  nodup := hc ▸ h.nodup

theorem Makes.reads_eq (h : before.Makes after call) (ref : NativeRef) :
    after.reads ref = before.reads ref + if call.reads ref then 1 else 0 := by
  rw [reads, h.calls_eq, Array.toList_push, List.countP_append, List.countP_singleton]
  rfl

/-- Reading one reference is not reading another. -/
theorem Makes.reads_of_ne {ref other : NativeRef} {outcome : Except BridgeError Unit}
    (h : before.Makes after (.attributes ref outcome)) (hne : ref ≠ other) :
    after.reads other = before.reads other := by
  rw [h.reads_eq, if_neg (by simpa [Call.reads] using hne)]
  rfl

/-- A bridge has gone on, and what it has acquired since an earlier state comes after what it had
acquired by then. -/
structure Numbered (start now : Bridge tree) : Prop where
  calls_prefix : start.calls.toList <+: now.calls.toList
  acquired_le : start.acquired ≤ now.acquired
  fresh : ∀ ref ∈ start.acquiredSince now,
    0x1000 + start.acquired < ref.address ∧ ref.address ≤ 0x1000 + now.acquired

theorem Numbered.refl (bridge : Bridge tree) : bridge.Numbered bridge where
  calls_prefix := List.prefix_rfl
  acquired_le := Nat.le_refl _
  fresh ref hr := by simp at hr

theorem Numbered.makes (h : start.Numbered before) (hm : before.Makes after call) :
    start.Numbered after where
  calls_prefix := by
    rw [hm.calls_eq, Array.toList_push]
    exact h.calls_prefix.trans (List.prefix_append _ _)
  acquired_le := Nat.le_trans h.acquired_le hm.acquired_le
  fresh ref hr := by
    rw [acquiredSince_push h.calls_prefix hm.calls_eq] at hr
    have hle := h.acquired_le
    have hle' := hm.acquired_le
    rcases List.mem_append.1 hr with hr | hr
    · have hfresh := h.fresh ref hr
      omega
    · have hfresh := hm.fresh ref hr
      omega

end Bridge

namespace Session

/-! ### What is asked of a session -/

/-- The children of a node are acquired by one call, unless it fails. -/
theorem makes_children (handle : Handle) (session : Session tree) :
    session.bridge.Makes (Session.children handle session).2.bridge
      (.children handle.ref ((Session.children handle session).1.map fun siblings =>
        siblings.unvisited.map Handle.ref)) := by
  simp only [Session.children, acquireChildren, onBridge, bind, StateT.bind, pure]
  rcases session.bridge.children_cases handle with ⟨e, he⟩ | ⟨gained, after, hg, hok⟩
  · rw [he]
    exact Bridge.makes_record _ rfl
  · rw [hok]
    refine (bridge_trackAll _ _).symm ▸ hg.makes ?_
    exact List.map_map

theorem makes_parent (handle : Handle) (session : Session tree) :
    session.bridge.Makes (Session.parent handle session).2.bridge
      (.parent handle.ref ((Session.parent handle session).1.map fun found =>
        found.map Handle.ref)) := by
  simp only [Session.parent, onBridge, bind, StateT.bind, pure]
  rcases session.bridge.parent_cases handle with ⟨e, he⟩ | hnone | ⟨x, after, hg, hok⟩
  · rw [he]
    exact Bridge.makes_record _ rfl
  · rw [hnone]
    exact Bridge.makes_record _ rfl
  · rw [hok]
    exact hg.makes rfl

theorem makes_attributes (handle : Handle) (session : Session tree) :
    session.bridge.Makes (Session.attributes handle session).2.bridge
      (.attributes handle.ref ((Session.attributes handle session).1.map fun _ => ())) := by
  simp only [Session.attributes, onBridge, Bridge.attributes, bind, StateT.bind, get, getThe,
    MonadStateOf.get, StateT.get, pure]
  cases session.bridge.locate .attributes handle <;> exact Bridge.makes_record _ rfl

theorem makes_siblingPosition (handle : Handle) (session : Session tree) :
    session.bridge.Makes (Session.siblingPosition handle session).2.bridge
      (.siblingIndex handle.ref ((Session.siblingPosition handle session).1.map fun position =>
        (position.index, position.count))) := by
  simp only [Session.siblingPosition, onBridge, Bridge.siblingIndex, bind, StateT.bind, get,
    getThe, MonadStateOf.get, StateT.get, pure]
  cases session.bridge.locate .siblingIndex handle <;> exact Bridge.makes_record _ rfl

theorem makes_sameObject (a b : Handle) (session : Session tree) :
    session.bridge.Makes (Session.sameObject a b session).2.bridge
      (.sameObject a.ref b.ref (Session.sameObject a b session).1) :=
  Bridge.makes_record _ rfl

/-- Giving a handle back makes one call, or none. -/
theorem makes_release (handle : Handle) (session : Session tree) :
    (session.afterRelease handle).bridge = session.bridge ∨
      ∃ outcome, session.bridge.Makes (session.afterRelease handle).bridge
        (.release handle.ref outcome) := by
  unfold afterRelease
  split
  · exact Or.inl rfl
  · split
    · exact Or.inl rfl
    · refine Or.inr ?_
      simp only [Bridge.release, bind, StateT.bind, get, getThe, MonadStateOf.get, StateT.get, pure]
      cases session.bridge.live[handle.ref]? with
      | none => exact ⟨_, rfl, Nat.le_refl _, by simp [Call.acquired], List.nodup_nil⟩
      | some node => exact ⟨_, rfl, Nat.le_refl _, by simp [Call.acquired], List.nodup_nil⟩

theorem reads_afterRelease (handle : Handle) (session : Session tree) (ref : NativeRef) :
    (session.afterRelease handle).bridge.reads ref = session.bridge.reads ref := by
  rcases makes_release handle session with he | ⟨outcome, hm⟩
  · rw [he]
  · rw [hm.reads_eq]
    rfl

/-- Every call leaves what is acquired numbered. -/
theorem invariant_numbered (start : Bridge tree) :
    Invariant fun session : Session tree => start.Numbered session.bridge where
  children handle session h := h.makes (makes_children handle session)
  parent handle session h := h.makes (makes_parent handle session)
  attributes handle session h := h.makes (makes_attributes handle session)
  siblingPosition handle session h := h.makes (makes_siblingPosition handle session)
  sameObject a b session h := h.makes (makes_sameObject a b session)
  release handle session h := by
    rcases makes_release handle session with he | ⟨outcome, hm⟩
    · exact he.symm ▸ h
    · exact h.makes hm

end Session

end AccessQuery
