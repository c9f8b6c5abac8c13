/-
**The ledger and the bridge agree.**

A session and its bridge keep separate books of the references that are out.  They agree where the
ledger owes only live references, as many as it entered and did not strike out, and where the bridge
has been asked to release no reference twice.  No call of a session makes them disagree, whatever
handles it is given: they may be stale, forged or of another session.

Main definitions:

* `AccessQuery.Bridge.IsSound`, `AccessQuery.Ledger.IsBalanced` — the books, one at a time;
* `AccessQuery.Session.Agrees` — the books agree.

Main results:

* `AccessQuery.Bridge.IsSound.release`, `AccessQuery.Session.Agrees.release` — giving back;
* `AccessQuery.Session.invariant_agrees` — every call preserves agreement.
-/

import AccessQuery.Proofs.Custody
import AccessQuery.Proofs.Walk.Upholds

set_option relaxedAutoImplicit false
set_option autoImplicit false

namespace AccessQuery

variable {tree : Tree}

/-! ### Bridges -/

namespace Bridge

variable {bridge : Bridge tree}

/-- A reference is among those that have been acquired so far. -/
def HasIssued (bridge : Bridge tree) (ref : NativeRef) : Prop :=
  0x1000 < ref.address ∧ ref.address ≤ 0x1000 + bridge.acquired

/-- The references of the releases that have reached the bridge, in order. -/
def givenBack (bridge : Bridge tree) : List NativeRef :=
  bridge.calls.toList.flatMap Call.released

/-- No reference was released twice, or before it was acquired, and none that was released is
live. -/
structure IsSound (bridge : Bridge tree) : Prop where
  live_issued : ∀ ref ∈ bridge.live, bridge.HasIssued ref
  givenBack_issued : ∀ ref ∈ bridge.givenBack, bridge.HasIssued ref
  givenBack_gone : ∀ ref ∈ bridge.givenBack, ref ∉ bridge.live
  givenBack_nodup : bridge.givenBack.Nodup
  invalid_eq : bridge.invalidReleases = 0

theorem isSound_new (tree : Tree) (session : SessionId)
    (failures : BridgeOp → Nat → Option Int32) :
    IsSound { Bridge.new tree session with failures := failures } where
  live_issued _ h := absurd h Std.ExtTreeMap.not_mem_empty
  givenBack_issued _ h := absurd h List.not_mem_nil
  givenBack_gone _ h := absurd h List.not_mem_nil
  givenBack_nodup := List.nodup_nil
  invalid_eq := rfl

theorem mem_live_iff {ref : NativeRef} :
    ref ∈ bridge.live ↔ ∃ node, bridge.live[ref]? = some node := by
  rw [Std.ExtTreeMap.mem_iff_isSome_getElem?, Option.isSome_iff_exists]

/-- Asking for children fails, or acquires them; either is recorded. -/
theorem children_cases (handle : Handle) (bridge : Bridge tree) :
    (∃ e, children handle bridge = (.error e, bridge.record (.children handle.ref (.error e)))) ∨
      ∃ (gained : List (Holding tree)) (after : Bridge tree), bridge.Gains gained after ∧
        children handle bridge = (.ok (gained.map Holding.handle), after.record
          (.children handle.ref (.ok ((gained.map Holding.handle).map Handle.ref)))) := by
  simp only [children, bind, StateT.bind, get, getThe, MonadStateOf.get, StateT.get, pure]
  cases bridge.locate .children handle with
  | error e => exact Or.inl ⟨e, rfl⟩
  | ok node =>
      obtain ⟨gained, hh, -, hg⟩ := gains_acquireAll (tree.children node) bridge
      refine Or.inr ⟨gained, (acquireAll (tree.children node) bridge).2, hg, ?_⟩
      rw [← hh]
      rfl

/-- Asking for a parent fails, or finds none, or acquires it. -/
theorem parent_cases (handle : Handle) (bridge : Bridge tree) :
    (∃ e, parent handle bridge = (.error e, bridge.record (.parent handle.ref (.error e)))) ∨
      parent handle bridge = (.ok none, bridge.record (.parent handle.ref (.ok none))) ∨
      ∃ (x : Holding tree) (after : Bridge tree), bridge.Gains [x] after ∧
        parent handle bridge =
          (.ok (some x.handle), after.record (.parent handle.ref (.ok (some x.handle.ref)))) := by
  simp only [parent, bind, StateT.bind, get, getThe, MonadStateOf.get, StateT.get, pure]
  cases bridge.locate .parent handle with
  | error e => exact Or.inl ⟨e, rfl⟩
  | ok node =>
      dsimp only
      cases tree.parent? node with
      | none => exact Or.inr (Or.inl rfl)
      | some above =>
          refine Or.inr (Or.inr ?_)
          exact ⟨⟨(acquire above bridge).1, above⟩, _, bridge.gains_acquire above, rfl⟩

theorem givenBack_record (bridge : Bridge tree) (call : Call) :
    (bridge.record call).givenBack = bridge.givenBack ++ call.released := by
  simp [givenBack, record]

namespace IsSound

/-- A call that releases nothing changes nothing but the record. -/
theorem record (h : bridge.IsSound) {call : Call} (hc : call.released = []) :
    (bridge.record call).IsSound := by
  have hg : (bridge.record call).givenBack = bridge.givenBack := by
    rw [givenBack_record, hc, List.append_nil]
  exact
    { live_issued := h.live_issued
      givenBack_issued := fun ref hr => h.givenBack_issued ref (hg ▸ hr)
      givenBack_gone := fun ref hr => h.givenBack_gone ref (hg ▸ hr)
      givenBack_nodup := hg ▸ h.givenBack_nodup
      invalid_eq := h.invalid_eq }

theorem gains {after : Bridge tree} {gained : List (Holding tree)} (h : bridge.IsSound)
    (hg : bridge.Gains gained after) : after.IsSound := by
  have hback : after.givenBack = bridge.givenBack := by rw [givenBack, hg.calls_eq, givenBack]
  have hle := hg.acquired_le
  exact
    { live_issued := fun ref hr => by
        refine ⟨?_, after.issued ref hr⟩
        by_cases hold : ref.address ≤ 0x1000 + bridge.acquired
        · -- what is not new was live before
          obtain ⟨node, hn⟩ := mem_live_iff.1 hr
          rw [hg.kept ref hold] at hn
          exact (h.live_issued ref (mem_live_iff.2 ⟨node, hn⟩)).1
        · omega
      givenBack_issued := fun ref hr => by
        obtain ⟨hlt, hold⟩ := h.givenBack_issued ref (hback ▸ hr)
        exact ⟨hlt, by omega⟩
      givenBack_gone := fun ref hr hl => by
        have hr := hback ▸ hr
        obtain ⟨node, hn⟩ := mem_live_iff.1 hl
        rw [hg.kept ref (h.givenBack_issued ref hr).2] at hn
        exact h.givenBack_gone ref hr (mem_live_iff.2 ⟨node, hn⟩)
      givenBack_nodup := hback ▸ h.givenBack_nodup
      invalid_eq := hg.invalid_eq.trans h.invalid_eq }

/-- A live reference may be given back, which is the end of it. -/
theorem release (h : bridge.IsSound) {handle : Handle} (hl : handle.ref ∈ bridge.live) :
    (Bridge.release handle bridge).2.IsSound := by
  obtain ⟨node, hn⟩ := mem_live_iff.1 hl
  obtain ⟨outcome, hlive, hcalls, -, -, hacquired, hinvalid⟩ := release_of_live hn
  generalize (Bridge.release handle bridge).2 = after at *
  have hback : after.givenBack = bridge.givenBack ++ [handle.ref] := by
    rw [givenBack, hcalls]
    simp [givenBack, Call.released]
  have hissued {ref : NativeRef} : after.HasIssued ref ↔ bridge.HasIssued ref := by
    rw [HasIssued, HasIssued, hacquired]
  have hmem {ref : NativeRef} : ref ∈ after.live ↔ ref ≠ handle.ref ∧ ref ∈ bridge.live := by
    rw [hlive, Std.ExtTreeMap.mem_erase, ne_eq, Std.LawfulEqOrd.compare_eq_iff_eq, ne_comm]
  have hnew : handle.ref ∉ bridge.givenBack := fun hr => h.givenBack_gone _ hr hl
  exact
    { live_issued := fun ref hr => hissued.2 (h.live_issued ref (hmem.1 hr).2)
      givenBack_issued := fun ref hr => by
        rw [hback, List.mem_append, List.mem_singleton] at hr
        rcases hr with hr | rfl
        · exact hissued.2 (h.givenBack_issued ref hr)
        · exact hissued.2 (h.live_issued _ hl)
      givenBack_gone := fun ref hr hm => by
        rw [hback, List.mem_append, List.mem_singleton] at hr
        rcases hr with hr | rfl
        · exact h.givenBack_gone ref hr (hmem.1 hm).2
        · exact (hmem.1 hm).1 rfl
      givenBack_nodup := by
        rw [hback, List.nodup_append]
        refine ⟨h.givenBack_nodup, List.nodup_singleton _, fun a ha b hb hab => ?_⟩
        rw [List.mem_singleton.1 hb] at hab
        exact hnew (hab ▸ ha)
      invalid_eq := hinvalid.trans h.invalid_eq }

end IsSound

end Bridge

/-! ### Ledgers -/

namespace Ledger

variable {ledger : Ledger} {ref : NativeRef}

/-- What was entered has been struck out or is outstanding. -/
def IsBalanced (ledger : Ledger) : Prop :=
  ledger.acquired = ledger.released + ledger.outstanding.size

theorem IsBalanced.enter (h : ledger.IsBalanced) (ref : NativeRef) :
    (ledger.enter ref).IsBalanced := by
  unfold Ledger.enter
  split
  · exact h
  · next hr =>
      simp only [IsBalanced] at h ⊢
      rw [Std.ExtTreeSet.size_insert, if_neg (by simpa using hr), h]
      omega

theorem IsBalanced.strike (h : ledger.IsBalanced) (hr : ref ∈ ledger.outstanding) :
    (ledger.strike ref).IsBalanced := by
  have hpos : 0 < ledger.outstanding.size := Nat.pos_of_ne_zero fun h0 =>
    Std.ExtTreeSet.ne_empty_of_mem hr (Std.ExtTreeSet.eq_empty_iff_size_eq_zero.2 h0)
  have hsize := size_strike hr
  simp only [IsBalanced, Ledger.strike] at h hsize ⊢
  omega

end Ledger

/-! ### Sessions -/

namespace Session

/-- The ledger owes as many references as it should, and only live ones, and the bridge has been
asked to release none twice. -/
structure Agrees (session : Session tree) : Prop where
  bridge_sound : session.bridge.IsSound
  ledger_balanced : session.ledger.IsBalanced
  outstanding_live : ∀ ref ∈ session.ledger.outstanding, ref ∈ session.bridge.live

namespace Agrees

variable {session : Session tree}

theorem track (h : session.Agrees) {handle : Handle} (hl : handle.ref ∈ session.bridge.live) :
    (Session.track handle session).2.Agrees where
  bridge_sound := h.bridge_sound
  ledger_balanced := h.ledger_balanced.enter handle.ref
  outstanding_live ref hr := by
    rcases Ledger.mem_enter.1 hr with rfl | hr
    · exact hl
    · exact h.outstanding_live ref hr

theorem trackAll (h : session.Agrees) {handles : List Handle}
    (hl : ∀ handle ∈ handles, handle.ref ∈ session.bridge.live) :
    (Session.trackAll handles session).2.Agrees := by
  induction handles generalizing session with
  | nil => exact h
  | cons handle rest ih =>
      refine ih (h.track (hl handle List.mem_cons_self)) fun other ho => ?_
      exact hl other (List.mem_cons_of_mem _ ho)

/-- A call that releases nothing. -/
theorem record (h : session.Agrees) {call : Call} (hc : call.released = []) :
    Agrees { session with bridge := session.bridge.record call } where
  bridge_sound := h.bridge_sound.record hc
  ledger_balanced := h.ledger_balanced
  outstanding_live := h.outstanding_live

theorem gains (h : session.Agrees) {after : Bridge tree} {gained : List (Holding tree)}
    (hg : session.bridge.Gains gained after) : Agrees { session with bridge := after } where
  bridge_sound := h.bridge_sound.gains hg
  ledger_balanced := h.ledger_balanced
  outstanding_live ref hr := by
    have hl := h.outstanding_live ref hr
    obtain ⟨node, hn⟩ := Bridge.mem_live_iff.1 hl
    refine Bridge.mem_live_iff.2 ⟨node, ?_⟩
    simpa only [hg.kept ref (session.bridge.issued ref hl)] using hn

/-- Handles that a call acquired are entered. -/
theorem acquire (h : session.Agrees) {after : Bridge tree} {gained : List (Holding tree)}
    (hg : session.bridge.Gains gained after) {call : Call} (hc : call.released = []) :
    (Session.trackAll (gained.map Holding.handle)
      { session with bridge := after.record call }).2.Agrees := by
  refine ((h.gains hg).record hc).trackAll fun handle hh => ?_
  obtain ⟨x, hx, rfl⟩ := List.mem_map.1 hh
  exact Bridge.mem_live_iff.2 ⟨x.node, hg.denotes x hx⟩

/-- A handle is given back to the bridge only where the ledger owes it. -/
theorem release (h : session.Agrees) (handle : Handle) : (session.afterRelease handle).Agrees := by
  unfold afterRelease
  split
  · exact h
  · split
    · exact ⟨h.bridge_sound, h.ledger_balanced, h.outstanding_live⟩
    · next hr =>
        have hmem : handle.ref ∈ session.ledger.outstanding :=
          not_not.1 fun hn => hr (Or.inr hn)
        have hl := h.outstanding_live _ hmem
        obtain ⟨node, hn⟩ := Bridge.mem_live_iff.1 hl
        obtain ⟨_, hlive, -⟩ := Bridge.release_of_live hn
        refine ⟨h.bridge_sound.release hl, h.ledger_balanced.strike hmem, fun ref ho => ?_⟩
        obtain ⟨hne, ho⟩ := Ledger.mem_strike.1 ho
        simp only [hlive]
        rw [Std.ExtTreeMap.mem_erase]
        exact ⟨fun he => hne (Std.LawfulEqOrd.eq_of_compare he).symm, h.outstanding_live ref ho⟩

theorem of_new (tree : Tree) (id bridgeId : SessionId) (failures : BridgeOp → Nat → Option Int32) :
    Agrees (Session.new id { Bridge.new tree bridgeId with failures := failures }) where
  bridge_sound := Bridge.isSound_new tree bridgeId failures
  ledger_balanced := rfl
  outstanding_live _ h := absurd h Std.ExtTreeSet.not_mem_empty

end Agrees

/-- The calls of a session keep its books, whatever handles they are given. -/
theorem invariant_agrees : Invariant (Agrees : Session tree → Prop) where
  children handle session h := by
    simp only [Session.children, acquireChildren, onBridge, bind, StateT.bind, pure]
    rcases session.bridge.children_cases handle with ⟨e, he⟩ | ⟨gained, after, hg, hok⟩
    · rw [he]
      exact h.record rfl
    · rw [hok]
      exact h.acquire hg rfl
  parent handle session h := by
    simp only [Session.parent, onBridge, bind, StateT.bind, pure]
    rcases session.bridge.parent_cases handle with ⟨e, he⟩ | hnone | ⟨x, after, hg, hok⟩
    · rw [he]
      exact h.record rfl
    · rw [hnone]
      exact h.record rfl
    · rw [hok]
      exact h.acquire hg rfl
  attributes handle session h := by
    simp only [Session.attributes, onBridge, Bridge.attributes, bind, StateT.bind, get, getThe,
      MonadStateOf.get, StateT.get, pure]
    cases session.bridge.locate .attributes handle <;> exact h.record rfl
  siblingPosition handle session h := by
    simp only [Session.siblingPosition, onBridge, Bridge.siblingIndex, bind, StateT.bind, get,
      getThe, MonadStateOf.get, StateT.get, pure]
    cases session.bridge.locate .siblingIndex handle <;> exact h.record rfl
  sameObject a b session h := h.record rfl
  release handle session h := h.release handle

end Session

end AccessQuery
