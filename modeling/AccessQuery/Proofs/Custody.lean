/-
**Handles in custody.**

Between two states of a session, some code acquires handles, holds them for a while and gives some
of them back.  Custody says that nothing has gone astray on the way: what the record acquired is
what it released together with what is still held, the ledger owes exactly that, every handle that
is held is live and denotes its node, and whatever was live at the start still is.

The handles that are held are listed with their nodes, in no particular order.  A borrowed view
among them is one of the root, and is not owed.

Main definitions:

* `AccessQuery.Holding` — a handle with its node, `AccessQuery.owed` the references owed;
* `AccessQuery.Bridge.callsSince` — what the record has gained;
* `AccessQuery.Custody` — the invariant.

Main results:

* `AccessQuery.Custody.record`, `AccessQuery.Custody.acquire`, `AccessQuery.Custody.release` — what
  asking, acquiring and giving back do to it;
* `AccessQuery.Custody.locate` — a handle that is held is refused only for a fault of its node.
-/

import Mathlib.Data.List.Basic
import Mathlib.Data.List.Nodup
import Mathlib.Data.List.Perm.Basic
import AccessQuery.Proofs.Record
import AccessQuery.Siblings

set_option relaxedAutoImplicit false
set_option autoImplicit false

namespace AccessQuery

variable {tree : Tree}

/-! ### Handles in hand -/

/-- A handle with the node that it denotes. -/
structure Holding (tree : Tree) where
  /-- The handle. -/
  handle : Handle
  /-- The node. -/
  node : tree.NodeId

/-- The references owed for the handles that are held: those of the handles that are no views. -/
def owed (held : List (Holding tree)) : List NativeRef :=
  (held.filter fun h => !h.handle.isBorrowed).map fun h => h.handle.ref

@[simp] theorem owed_nil : owed ([] : List (Holding tree)) = [] := rfl

theorem owed_cons_of_borrowed {h : Holding tree} (hb : h.handle.isBorrowed = true)
    (held : List (Holding tree)) : owed (h :: held) = owed held := by
  simp [owed, hb]

theorem owed_cons_of_owned {h : Holding tree} (hb : h.handle.isBorrowed = false)
    (held : List (Holding tree)) : owed (h :: held) = h.handle.ref :: owed held := by
  simp [owed, hb]

@[simp] theorem owed_append (a b : List (Holding tree)) : owed (a ++ b) = owed a ++ owed b := by
  simp [owed]

theorem owed_of_owned {held : List (Holding tree)}
    (h : ∀ x ∈ held, x.handle.isBorrowed = false) :
    owed held = held.map fun x => x.handle.ref := by
  rw [owed, List.filter_eq_self.2 fun x hx => by simp [h x hx]]

theorem mem_owed_of_mem {held : List (Holding tree)} {h : Holding tree} (hm : h ∈ held)
    (hb : h.handle.isBorrowed = false) : h.handle.ref ∈ owed held :=
  List.mem_map.2 ⟨h, List.mem_filter.2 ⟨hm, by simp [hb]⟩, rfl⟩

theorem owed_perm {a b : List (Holding tree)} (h : a.Perm b) : (owed a).Perm (owed b) :=
  (h.filter _).map _

/-! ### Live references -/

theorem getElem?_insert_of_ne {live : Std.ExtTreeMap NativeRef tree.NodeId} {ref other : NativeRef}
    {node : tree.NodeId} (h : ref ≠ other) : (live.insert other node)[ref]? = live[ref]? := by
  rw [Std.ExtTreeMap.getElem?_insert, if_neg]
  exact fun he => h (Std.LawfulEqOrd.eq_of_compare he).symm

theorem getElem?_erase_of_ne {live : Std.ExtTreeMap NativeRef tree.NodeId} {ref other : NativeRef}
    (h : ref ≠ other) : (live.erase other)[ref]? = live[ref]? := by
  rw [Std.ExtTreeMap.getElem?_erase, if_neg]
  exact fun he => h (Std.LawfulEqOrd.eq_of_compare he).symm

theorem Bridge.le_of_live {bridge : Bridge tree} {ref : NativeRef} {node : tree.NodeId}
    (h : bridge.live[ref]? = some node) : ref.address ≤ 0x1000 + bridge.acquired :=
  bridge.issued ref (Std.ExtTreeMap.mem_iff_isSome_getElem?.2 (by rw [h]; rfl))

theorem Ledger.size_strike {ledger : Ledger} {ref : NativeRef} (h : ref ∈ ledger.outstanding) :
    (ledger.strike ref).outstanding.size = ledger.outstanding.size - 1 := by
  simp only [strike]
  rw [Std.ExtTreeSet.size_erase, if_pos (by simpa using h)]

/-- What giving a live reference back does to a bridge. -/
theorem Bridge.release_of_live {bridge : Bridge tree} {handle : Handle} {node : tree.NodeId}
    (h : bridge.live[handle.ref]? = some node) : ∃ outcome,
    (release handle bridge).2.live = bridge.live.erase handle.ref ∧
    (release handle bridge).2.calls = bridge.calls.push (.release handle.ref outcome) ∧
    (release handle bridge).2.session = bridge.session ∧
    (release handle bridge).2.failures = bridge.failures ∧
    (release handle bridge).2.acquired = bridge.acquired ∧
    (release handle bridge).2.invalidReleases = bridge.invalidReleases := by
  simp only [release, bind, StateT.bind, get, getThe, MonadStateOf.get, StateT.get, pure, h]
  exact ⟨_, rfl, rfl, rfl, rfl, rfl, rfl⟩

/-! ### Fresh references -/

/-- What acquiring handles does to a bridge, the record aside. -/
structure Bridge.Gains (before : Bridge tree) (gained : List (Holding tree))
    (after : Bridge tree) : Prop where
  session_eq : after.session = before.session
  failures_eq : after.failures = before.failures
  invalid_eq : after.invalidReleases = before.invalidReleases
  calls_eq : after.calls = before.calls
  acquired_le : before.acquired ≤ after.acquired
  /-- The handles are owned, -/
  owned : ∀ x ∈ gained, x.handle.isBorrowed = false
  /-- belong to the session of the bridge, -/
  session_of_mem : ∀ x ∈ gained, x.handle.session = before.session
  /-- and have references of their own that were never used before. -/
  fresh : ∀ x ∈ gained, 0x1000 + before.acquired < x.handle.ref.address ∧
    x.handle.ref.address ≤ 0x1000 + after.acquired
  nodup : (gained.map fun x => x.handle.ref).Nodup
  denotes : ∀ x ∈ gained, after.live[x.handle.ref]? = some x.node
  kept : ∀ ref : NativeRef, ref.address ≤ 0x1000 + before.acquired →
    after.live[ref]? = before.live[ref]?

theorem Bridge.gains_nil (bridge : Bridge tree) : bridge.Gains [] bridge where
  session_eq := rfl
  failures_eq := rfl
  invalid_eq := rfl
  calls_eq := rfl
  acquired_le := Nat.le_refl _
  owned := by simp
  session_of_mem := by simp
  fresh := by simp
  nodup := by simp
  denotes := by simp
  kept _ _ := rfl

theorem Bridge.gains_acquire (bridge : Bridge tree) (node : tree.NodeId) :
    bridge.Gains [⟨(acquire node bridge).1, node⟩] (acquire node bridge).2 where
  session_eq := rfl
  failures_eq := rfl
  invalid_eq := rfl
  calls_eq := rfl
  acquired_le := Nat.le_succ _
  owned := by simp [acquire, Handle.owned, Handle.isBorrowed]
  session_of_mem := by simp [acquire, Handle.owned]
  fresh := by
    simp only [List.mem_singleton, forall_eq, acquire, Handle.owned, nextRef]
    omega
  nodup := by simp
  denotes := by
    simp only [List.mem_singleton, forall_eq, acquire, Handle.owned]
    exact Std.ExtTreeMap.getElem?_insert_self
  kept ref h := by
    refine getElem?_insert_of_ne ?_
    rintro rfl
    simp only [nextRef] at h
    omega

theorem Bridge.Gains.append {a b c : Bridge tree} {first rest : List (Holding tree)}
    (h : a.Gains first b) (h' : b.Gains rest c) : a.Gains (first ++ rest) c where
  session_eq := h'.session_eq.trans h.session_eq
  failures_eq := h'.failures_eq.trans h.failures_eq
  invalid_eq := h'.invalid_eq.trans h.invalid_eq
  calls_eq := h'.calls_eq.trans h.calls_eq
  acquired_le := Nat.le_trans h.acquired_le h'.acquired_le
  owned x hx := (List.mem_append.1 hx).elim (h.owned x) (h'.owned x)
  session_of_mem x hx := (List.mem_append.1 hx).elim (h.session_of_mem x)
    fun hx => (h'.session_of_mem x hx).trans h.session_eq
  fresh x hx := by
    have hab := h.acquired_le
    have hbc := h'.acquired_le
    rcases List.mem_append.1 hx with hx | hx
    · have := h.fresh x hx
      omega
    · have := h'.fresh x hx
      omega
  nodup := by
    rw [List.map_append, List.nodup_append]
    refine ⟨h.nodup, h'.nodup, ?_⟩
    intro _ hxs _ hys he
    obtain ⟨x, hx, rfl⟩ := List.mem_map.1 hxs
    obtain ⟨y, hy, rfl⟩ := List.mem_map.1 hys
    have hle := (h.fresh x hx).2
    have hlt := (h'.fresh y hy).1
    rw [he] at hle
    omega
  denotes x hx := by
    rcases List.mem_append.1 hx with hx | hx
    · rw [h'.kept _ (h.fresh x hx).2, h.denotes x hx]
    · exact h'.denotes x hx
  kept ref hr := by
    have hle := h.acquired_le
    rw [h'.kept ref (by omega), h.kept ref hr]

theorem Bridge.gains_acquireAll (nodes : List tree.NodeId) (bridge : Bridge tree) :
    ∃ gained : List (Holding tree), (acquireAll nodes bridge).1 = gained.map Holding.handle ∧
      gained.map Holding.node = nodes ∧ bridge.Gains gained (acquireAll nodes bridge).2 := by
  induction nodes generalizing bridge with
  | nil => exact ⟨[], rfl, rfl, bridge.gains_nil⟩
  | cons node rest ih =>
      obtain ⟨gained, hh, hn, hg⟩ := ih (acquire node bridge).2
      refine ⟨⟨(acquire node bridge).1, node⟩ :: gained, ?_, ?_,
        (bridge.gains_acquire node).append hg⟩
      · exact congrArg ((acquire node bridge).1 :: ·) hh
      · exact congrArg (node :: ·) hn

/-- Entering references that are not outstanding. -/
theorem Ledger.enter_fresh (gained : List (Holding tree)) {ledger : Ledger}
    (hn : (gained.map fun x => x.handle.ref).Nodup)
    (hf : ∀ x ∈ gained, x.handle.ref ∉ ledger.outstanding) :
    let after := gained.foldl (fun l x => l.enter x.handle.ref) ledger
    after.rejected = ledger.rejected ∧
      (∀ ref, ref ∈ after.outstanding ↔
        ref ∈ ledger.outstanding ∨ ref ∈ gained.map fun x => x.handle.ref) ∧
      after.outstanding.size = ledger.outstanding.size + gained.length := by
  induction gained generalizing ledger with
  | nil => simp
  | cons x gained ih =>
      have hx : x.handle.ref ∉ ledger.outstanding := hf x List.mem_cons_self
      simp only [List.map_cons, List.nodup_cons] at hn
      have hf' : ∀ y ∈ gained, y.handle.ref ∉ (ledger.enter x.handle.ref).outstanding := by
        intro y hy hm
        rcases Ledger.mem_enter.1 hm with he | hm
        · exact hn.1 (he ▸ List.mem_map.2 ⟨y, hy, rfl⟩)
        · exact hf y (List.mem_cons_of_mem _ hy) hm
      obtain ⟨hr, hm, hsize⟩ := ih hn.2 hf'
      have henter : ledger.enter x.handle.ref =
          { ledger with
            outstanding := ledger.outstanding.insert x.handle.ref
            acquired := ledger.acquired + 1 } := if_neg hx
      refine ⟨?_, fun ref => ?_, ?_⟩
      · rw [List.foldl_cons, hr, henter]
      · rw [List.foldl_cons, hm, Ledger.mem_enter, List.map_cons, List.mem_cons, or_assoc]
        exact or_left_comm
      · rw [List.foldl_cons, hsize, henter]
        simp only [List.length_cons]
        rw [Std.ExtTreeSet.size_insert, if_neg (by simpa using hx)]
        omega

/-! ### What the record has gained -/

/-- The calls that the record of a bridge has gained since an earlier state. -/
def Bridge.callsSince (start now : Bridge tree) : List Call :=
  now.calls.toList.drop start.calls.size

/-- The references acquired since an earlier state. -/
def Bridge.acquiredSince (start now : Bridge tree) : List NativeRef :=
  (start.callsSince now).flatMap Call.acquired

/-- The references released since an earlier state. -/
def Bridge.releasedSince (start now : Bridge tree) : List NativeRef :=
  (start.callsSince now).flatMap Call.released

@[simp] theorem Bridge.callsSince_self (start : Bridge tree) : start.callsSince start = [] := by
  simp [callsSince]

theorem Bridge.callsSince_push {start now after : Bridge tree} {call : Call}
    (h : start.calls.toList <+: now.calls.toList) (hc : after.calls = now.calls.push call) :
    start.callsSince after = start.callsSince now ++ [call] := by
  have hle : start.calls.size ≤ now.calls.toList.length := by simpa using h.length_le
  rw [callsSince, hc, Array.toList_push, List.drop_append_of_le_length hle, callsSince]

theorem Bridge.acquiredSince_push {start now after : Bridge tree} {call : Call}
    (h : start.calls.toList <+: now.calls.toList) (hc : after.calls = now.calls.push call) :
    start.acquiredSince after = start.acquiredSince now ++ call.acquired := by
  simp [acquiredSince, callsSince_push h hc]

theorem Bridge.releasedSince_push {start now after : Bridge tree} {call : Call}
    (h : start.calls.toList <+: now.calls.toList) (hc : after.calls = now.calls.push call) :
    start.releasedSince after = start.releasedSince now ++ call.released := by
  simp [releasedSince, callsSince_push h hc]

/-! ### Custody -/

/-- Since `start`, handles have been acquired and given back, and those in `held` are in hand. -/
structure Custody (start : Session tree) (root : NativeRef) (held : List (Holding tree))
    (now : Session tree) : Prop where
  /-- The root was acquired before the start, -/
  root_issued : root.address ≤ 0x1000 + start.bridge.acquired
  /-- and so was everything that was owed then. -/
  outstanding_issued : ∀ ref ∈ start.ledger.outstanding,
    ref.address ≤ 0x1000 + start.bridge.acquired
  /-- The identifiers and the failures are those of the start. -/
  id_eq : now.id = start.id
  session_eq : now.bridge.session = start.bridge.session
  failures_eq : now.bridge.failures = start.bridge.failures
  /-- No release has been refused, by the bridge or by the ledger. -/
  invalid_eq : now.bridge.invalidReleases = start.bridge.invalidReleases
  rejected_eq : now.ledger.rejected = start.ledger.rejected
  /-- What was live at the start is live now. -/
  kept : ∀ (ref : NativeRef) (node : tree.NodeId), start.bridge.live[ref]? = some node →
    now.bridge.live[ref]? = some node
  /-- What is held is live, -/
  denotes : ∀ h ∈ held, now.bridge.live[h.handle.ref]? = some h.node
  /-- belongs to the session, -/
  session_of_mem : ∀ h ∈ held, h.handle.session = start.id
  /-- and a view of the root, if it is a view. -/
  root_of_borrowed : ∀ h ∈ held, h.handle.isBorrowed = true → h.handle.ref = root
  /-- The ledger owes what it owed at the start, and what is held. -/
  mem_outstanding : ∀ ref, ref ∈ now.ledger.outstanding ↔
    ref ∈ start.ledger.outstanding ∨ ref ∈ owed held
  size_outstanding :
    now.ledger.outstanding.size = start.ledger.outstanding.size + (owed held).length
  /-- The record has only grown, -/
  calls_prefix : start.bridge.calls.toList <+: now.bridge.calls.toList
  /-- by calls that used no reference too early or too late. -/
  orderly : Orderly root (start.bridge.callsSince now.bridge)
  /-- Every acquisition yielded a reference of its own, later than those of the start. -/
  acquired_le : start.bridge.acquired ≤ now.bridge.acquired
  acquired_nodup : (start.bridge.acquiredSince now.bridge).Nodup
  acquired_fresh : ∀ ref ∈ start.bridge.acquiredSince now.bridge,
    0x1000 + start.bridge.acquired < ref.address ∧ ref.address ≤ 0x1000 + now.bridge.acquired
  /-- What has been acquired has been released or is held. -/
  acquired_perm : (start.bridge.acquiredSince now.bridge).Perm
    (start.bridge.releasedSince now.bridge ++ owed held)

namespace Custody

variable {start now : Session tree} {root : NativeRef} {held : List (Holding tree)}

/-- At the start, views of the root may be held. -/
theorem refl {h : Holding tree} (hs : h.handle.session = start.id)
    (hb : h.handle.isBorrowed = true) (hl : start.bridge.live[h.handle.ref]? = some h.node)
    (ho : ∀ ref ∈ start.ledger.outstanding, ref.address ≤ 0x1000 + start.bridge.acquired) :
    Custody start h.handle.ref [h] start where
  root_issued := Bridge.le_of_live hl
  outstanding_issued := ho
  id_eq := rfl
  session_eq := rfl
  failures_eq := rfl
  invalid_eq := rfl
  rejected_eq := rfl
  kept _ _ h := h
  denotes x hx := by
    obtain rfl := List.mem_singleton.1 hx
    exact hl
  session_of_mem x hx := by
    obtain rfl := List.mem_singleton.1 hx
    exact hs
  root_of_borrowed x hx _ := by
    obtain rfl := List.mem_singleton.1 hx
    rfl
  mem_outstanding ref := by simp [owed_cons_of_borrowed hb]
  size_outstanding := by simp [owed_cons_of_borrowed hb]
  calls_prefix := List.prefix_rfl
  orderly := by simpa using Orderly.nil _
  acquired_le := Nat.le_refl _
  acquired_nodup := by simp [Bridge.acquiredSince]
  acquired_fresh := by simp [Bridge.acquiredSince]
  acquired_perm := by simp [Bridge.acquiredSince, Bridge.releasedSince, owed_cons_of_borrowed hb]

theorem of_perm {held' : List (Holding tree)} (h : Custody start root held now)
    (hp : held.Perm held') : Custody start root held' now :=
  { h with
    denotes := fun x hx => h.denotes x (hp.mem_iff.2 hx)
    session_of_mem := fun x hx => h.session_of_mem x (hp.mem_iff.2 hx)
    root_of_borrowed := fun x hx => h.root_of_borrowed x (hp.mem_iff.2 hx)
    mem_outstanding := fun ref => by rw [h.mem_outstanding, (owed_perm hp).mem_iff]
    size_outstanding := by rw [h.size_outstanding, (owed_perm hp).length_eq]
    acquired_perm := h.acquired_perm.trans ((owed_perm hp).append_left _) }

theorem owed_nodup (h : Custody start root held now) : (owed held).Nodup :=
  (List.nodup_append.1 (h.acquired_perm.nodup_iff.1 h.acquired_nodup)).2.1

theorem owed_fresh (h : Custody start root held now) {ref : NativeRef} (hr : ref ∈ owed held) :
    0x1000 + start.bridge.acquired < ref.address :=
  (h.acquired_fresh ref (h.acquired_perm.mem_iff.2 (List.mem_append_right _ hr))).1

/-- A handle that is held may be used: it was acquired, and it has not been released. -/
theorem usable (h : Custody start root held now) {x : Holding tree} (hx : x ∈ held) :
    (x.handle.ref = root ∨ x.handle.ref ∈ start.bridge.acquiredSince now.bridge) ∧
      x.handle.ref ∉ start.bridge.releasedSince now.bridge := by
  have hmem {ref} : ref ∈ start.bridge.acquiredSince now.bridge ↔ _ := h.acquired_perm.mem_iff
  cases hb : x.handle.isBorrowed with
  | true =>
      -- a view of the root, which is older than everything acquired since
      have hroot := h.root_of_borrowed x hx hb
      refine ⟨Or.inl hroot, fun hr => ?_⟩
      have := (h.acquired_fresh _ (hmem.2 (List.mem_append_left _ hr))).1
      rw [hroot] at this
      exact absurd h.root_issued (by omega)
  | false =>
      -- what has been released and what is held are different acquisitions
      have ho := mem_owed_of_mem hx hb
      refine ⟨Or.inr (hmem.2 (List.mem_append_right _ ho)), fun hr => ?_⟩
      exact (List.nodup_append.1 (h.acquired_perm.nodup_iff.1 h.acquired_nodup)).2.2 _ hr _ ho rfl

/-- A call that is given what is held is in order. -/
theorem orderly_push (h : Custody start root held now) {call : Call} {after : Bridge tree}
    (hc : after.calls = now.bridge.calls.push call)
    (hg : ∀ ref ∈ call.given, ∃ x ∈ held, x.handle.ref = ref) :
    Orderly root (start.bridge.callsSince after) := by
  rw [Bridge.callsSince_push h.calls_prefix hc]
  refine h.orderly.concat fun ref href => ?_
  obtain ⟨x, hx, rfl⟩ := hg ref href
  exact h.usable hx

/-! ### Calls that acquire and release nothing -/

theorem record (h : Custody start root held now) (call : Call)
    (hg : ∀ ref ∈ call.given, ∃ x ∈ held, x.handle.ref = ref) (ha : call.acquired = [])
    (hr : call.released = []) :
    Custody start root held { now with bridge := now.bridge.record call } := by
  have hc : (now.bridge.record call).calls = now.bridge.calls.push call := rfl
  have hsa : start.bridge.acquiredSince (now.bridge.record call) =
      start.bridge.acquiredSince now.bridge := by
    rw [Bridge.acquiredSince_push h.calls_prefix hc, ha, List.append_nil]
  have hsr : start.bridge.releasedSince (now.bridge.record call) =
      start.bridge.releasedSince now.bridge := by
    rw [Bridge.releasedSince_push h.calls_prefix hc, hr, List.append_nil]
  exact
    { h with
      calls_prefix := h.calls_prefix.trans (by simp [Bridge.record])
      orderly := h.orderly_push hc hg
      acquired_nodup := hsa ▸ h.acquired_nodup
      acquired_fresh := fun ref href => h.acquired_fresh ref (hsa ▸ href)
      acquired_perm := by
        rw [hsa, hsr]
        exact h.acquired_perm }

/-! ### Acquiring -/

/-- What the ledger owes was acquired by now. -/
theorem outstanding_le (h : Custody start root held now) {ref : NativeRef}
    (hr : ref ∈ now.ledger.outstanding) : ref.address ≤ 0x1000 + now.bridge.acquired := by
  rcases (h.mem_outstanding ref).1 hr with ho | ho
  · have := h.outstanding_issued ref ho
    have := h.acquired_le
    omega
  · exact (h.acquired_fresh ref (h.acquired_perm.mem_iff.2 (List.mem_append_right _ ho))).2

/-- What is gained now was not acquired before. -/
theorem nodup_gained (h : Custody start root held now) {gained : List (Holding tree)}
    {after : Bridge tree} (hgain : now.bridge.Gains gained after) :
    (start.bridge.acquiredSince now.bridge ++ gained.map fun x => x.handle.ref).Nodup := by
  rw [List.nodup_append]
  refine ⟨h.acquired_nodup, hgain.nodup, ?_⟩
  intro ref href _ hxs he
  obtain ⟨x, hx, rfl⟩ := List.mem_map.1 hxs
  have hle := (h.acquired_fresh _ href).2
  have hlt := (hgain.fresh x hx).1
  rw [he] at hle
  omega

theorem acquire (h : Custody start root held now) {gained : List (Holding tree)}
    {after : Bridge tree} (hgain : now.bridge.Gains gained after) (call : Call)
    (hs : now.bridge.session = now.id) (hg : ∀ ref ∈ call.given, ∃ x ∈ held, x.handle.ref = ref)
    (ha : call.acquired = gained.map fun x => x.handle.ref) (hr : call.released = []) :
    Custody start root (gained ++ held)
      { now with
        bridge := after.record call
        ledger := gained.foldl (fun l x => l.enter x.handle.ref) now.ledger } := by
  have howed : owed gained = gained.map fun x => x.handle.ref := owed_of_owned hgain.owned
  have hnew : ∀ x ∈ gained, x.handle.ref ∉ now.ledger.outstanding := by
    intro x hx hm
    have hle := h.outstanding_le hm
    have hlt := (hgain.fresh x hx).1
    omega
  obtain ⟨hrejected, hmem, hsize⟩ := Ledger.enter_fresh gained hgain.nodup hnew
  have hc : (after.record call).calls = now.bridge.calls.push call := by
    rw [Bridge.record, hgain.calls_eq]
  have hsa : start.bridge.acquiredSince (after.record call) =
      start.bridge.acquiredSince now.bridge ++ gained.map fun x => x.handle.ref := by
    rw [Bridge.acquiredSince_push h.calls_prefix hc, ha]
  have hsr : start.bridge.releasedSince (after.record call) =
      start.bridge.releasedSince now.bridge := by
    rw [Bridge.releasedSince_push h.calls_prefix hc, hr, List.append_nil]
  exact
    { root_issued := h.root_issued
      outstanding_issued := h.outstanding_issued
      id_eq := h.id_eq
      session_eq := hgain.session_eq.trans h.session_eq
      failures_eq := hgain.failures_eq.trans h.failures_eq
      invalid_eq := hgain.invalid_eq.trans h.invalid_eq
      rejected_eq := hrejected.trans h.rejected_eq
      kept := fun ref node hl => by
        have hk := h.kept ref node hl
        exact (hgain.kept ref (Bridge.le_of_live hk)).trans hk
      denotes := fun x hx => by
        rcases List.mem_append.1 hx with hx | hx
        · exact hgain.denotes x hx
        · have hd := h.denotes x hx
          exact (hgain.kept _ (Bridge.le_of_live hd)).trans hd
      session_of_mem := fun x hx => by
        rcases List.mem_append.1 hx with hx | hx
        · rw [hgain.session_of_mem x hx, hs, h.id_eq]
        · exact h.session_of_mem x hx
      root_of_borrowed := fun x hx hb => by
        rcases List.mem_append.1 hx with hx | hx
        · rw [hgain.owned x hx] at hb
          cases hb
        · exact h.root_of_borrowed x hx hb
      mem_outstanding := fun ref => by
        rw [hmem, h.mem_outstanding, owed_append, howed, List.mem_append, or_assoc,
          or_comm (a := ref ∈ owed held)]
      size_outstanding := by
        rw [hsize, h.size_outstanding, owed_append, howed, List.length_append, List.length_map]
        omega
      calls_prefix := h.calls_prefix.trans (by simp [Bridge.record, hgain.calls_eq])
      orderly := h.orderly_push hc hg
      acquired_le := Nat.le_trans h.acquired_le hgain.acquired_le
      acquired_nodup := hsa ▸ h.nodup_gained hgain
      acquired_fresh := fun ref href => by
        have hle := hgain.acquired_le
        have hle' := h.acquired_le
        simp only [Bridge.record]
        rcases List.mem_append.1 (hsa ▸ href) with hm | hm
        · have := h.acquired_fresh ref hm
          omega
        · obtain ⟨x, hx, rfl⟩ := List.mem_map.1 hm
          have := hgain.fresh x hx
          omega
      acquired_perm := by
        rw [hsa, hsr, owed_append, howed]
        refine (h.acquired_perm.append_right _).trans ?_
        rw [List.append_assoc]
        exact List.perm_append_comm.append_left _ }

/-! ### Giving back -/

/-- A view is dropped without a trace. -/
theorem drop {x : Holding tree} (h : Custody start root (x :: held) now)
    (hb : x.handle.isBorrowed = true) : Custody start root held now :=
  have ho := owed_cons_of_borrowed hb held
  { h with
    denotes := fun y hy => h.denotes y (List.mem_cons_of_mem _ hy)
    session_of_mem := fun y hy => h.session_of_mem y (List.mem_cons_of_mem _ hy)
    root_of_borrowed := fun y hy => h.root_of_borrowed y (List.mem_cons_of_mem _ hy)
    mem_outstanding := fun ref => by rw [h.mem_outstanding, ho]
    size_outstanding := by rw [h.size_outstanding, ho]
    acquired_perm := ho ▸ h.acquired_perm }

/-- The references of the other handles in hand are others. -/
theorem ref_ne {x y : Holding tree} (h : Custody start root (x :: held) now)
    (hb : x.handle.isBorrowed = false) (hy : y ∈ held) : y.handle.ref ≠ x.handle.ref := by
  have hx : x.handle.ref ∈ owed (x :: held) := mem_owed_of_mem List.mem_cons_self hb
  cases hyb : y.handle.isBorrowed with
  | true =>
      intro he
      have hroot := h.root_of_borrowed y (List.mem_cons_of_mem _ hy) hyb
      have := h.owed_fresh hx
      rw [← he, hroot] at this
      exact absurd h.root_issued (by omega)
  | false =>
      have hn := h.owed_nodup
      rw [owed_cons_of_owned hb, List.nodup_cons] at hn
      intro he
      exact hn.1 (he ▸ mem_owed_of_mem hy hyb)

/-- Without a handle that is given back, the ledger owes the rest. -/
theorem mem_strike {x : Holding tree} (h : Custody start root (x :: held) now)
    (hb : x.handle.isBorrowed = false) {ref : NativeRef} :
    ref ∈ (now.ledger.strike x.handle.ref).outstanding ↔
      ref ∈ start.ledger.outstanding ∨ ref ∈ owed held := by
  have hn := h.owed_nodup
  rw [owed_cons_of_owned hb, List.nodup_cons] at hn
  have hstart : x.handle.ref ∉ start.ledger.outstanding := by
    intro hs
    have hle := h.outstanding_issued _ hs
    have hlt := h.owed_fresh (mem_owed_of_mem List.mem_cons_self hb)
    omega
  have hstrike : ref ∈ (now.ledger.strike x.handle.ref).outstanding ↔ _ := Ledger.mem_strike
  rw [hstrike, h.mem_outstanding, owed_cons_of_owned hb, List.mem_cons]
  constructor
  · rintro ⟨hne, h | h | h⟩
    · exact Or.inl h
    · exact absurd h hne
    · exact Or.inr h
  · rintro (h | h)
    · exact ⟨fun he => hstart (he ▸ h), Or.inl h⟩
    · exact ⟨fun he => hn.1 (he ▸ h), Or.inr (Or.inr h)⟩

theorem release {x : Holding tree} (h : Custody start root (x :: held) now) :
    Custody start root held (now.afterRelease x.handle) := by
  cases hb : x.handle.isBorrowed with
  | true =>
      rw [Session.afterRelease_borrowed hb]
      exact h.drop hb
  | false =>
      have hx : x.handle.ref ∈ owed (x :: held) := mem_owed_of_mem List.mem_cons_self hb
      have hlive := h.denotes x List.mem_cons_self
      have hmem : x.handle.ref ∈ now.ledger.outstanding := (h.mem_outstanding _).2 (Or.inr hx)
      have hid : x.handle.session = now.id := by
        rw [h.id_eq]
        exact h.session_of_mem x List.mem_cons_self
      obtain ⟨outcome, hlive', hcalls, hsession, hfailures, hacquired, hinvalid⟩ :=
        Bridge.release_of_live hlive
      -- the ledger owes the handle, so that it reaches the bridge
      rw [Session.afterRelease, if_neg (by simp [hb]), if_neg (by simp [hid, hmem])]
      have hsa : start.bridge.acquiredSince (Bridge.release x.handle now.bridge).2 =
          start.bridge.acquiredSince now.bridge := by
        rw [Bridge.acquiredSince_push h.calls_prefix hcalls]
        simp [Call.acquired]
      have hsr : start.bridge.releasedSince (Bridge.release x.handle now.bridge).2 =
          start.bridge.releasedSince now.bridge ++ [x.handle.ref] := by
        rw [Bridge.releasedSince_push h.calls_prefix hcalls, Call.released]
      exact
        { root_issued := h.root_issued
          outstanding_issued := h.outstanding_issued
          id_eq := h.id_eq
          session_eq := hsession.trans h.session_eq
          failures_eq := hfailures.trans h.failures_eq
          invalid_eq := hinvalid.trans h.invalid_eq
          rejected_eq := h.rejected_eq
          kept := fun ref node hr => by
            have hne : ref ≠ x.handle.ref := by
              rintro rfl
              exact absurd (h.owed_fresh hx) (by have := Bridge.le_of_live hr; omega)
            rw [hlive', getElem?_erase_of_ne hne, h.kept ref node hr]
          denotes := fun y hy => by
            rw [hlive', getElem?_erase_of_ne (h.ref_ne hb hy),
              h.denotes y (List.mem_cons_of_mem _ hy)]
          session_of_mem := fun y hy => h.session_of_mem y (List.mem_cons_of_mem _ hy)
          root_of_borrowed := fun y hy => h.root_of_borrowed y (List.mem_cons_of_mem _ hy)
          mem_outstanding := fun ref => h.mem_strike hb
          size_outstanding := by
            have hsize := h.size_outstanding
            rw [owed_cons_of_owned hb, List.length_cons] at hsize
            have hstruck := Ledger.size_strike hmem
            simp only at hstruck ⊢
            omega
          calls_prefix := h.calls_prefix.trans (by simp [hcalls])
          orderly := h.orderly_push hcalls (by simp [Call.given])
          acquired_le := hacquired ▸ h.acquired_le
          acquired_nodup := hsa ▸ h.acquired_nodup
          acquired_fresh := fun ref hr => hacquired ▸ h.acquired_fresh ref (hsa ▸ hr)
          acquired_perm := by
            have hp := h.acquired_perm
            rw [owed_cons_of_owned hb] at hp
            rw [hsa, hsr, List.append_assoc]
            exact hp }

end Custody

end AccessQuery
