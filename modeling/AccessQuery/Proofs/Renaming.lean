/-
**References under other names.**

References are handed out by counting, so the same work done later yields other references.  Two
sessions in which as many references have been acquired since their starts correspond: a reference
acquired since one start stands for the one acquired as the same in number since the other, and a
given root for a given root.  What was there before is not looked at.  Each call on corresponding
handles then comes to the same on both sides, and leaves sessions that correspond.

Main definitions:

* `AccessQuery.Renaming` — the correspondence of references;
* `AccessQuery.Call.references`, `AccessQuery.Call.rename` — the references of a call, and the call
  under other names;
* `AccessQuery.Renaming.Ties` — corresponding handles;
* `AccessQuery.Bridge.Alike`, `AccessQuery.Session.Alike` — corresponding states.

Main results:

* `AccessQuery.Renaming.apply_inj` — the correspondence is one-to-one;
* `AccessQuery.Session.lockstep_children`, `AccessQuery.Session.lockstep_parent` and the lemmas
  after them — the calls keep it.
-/

import Mathlib.Data.List.Forall2
import Mathlib.Data.Set.Function
import AccessQuery.Proofs.Lockstep
import AccessQuery.Proofs.Record
import AccessQuery.Siblings

set_option relaxedAutoImplicit false
set_option autoImplicit false

namespace AccessQuery

/-! ### Renamings -/

/-- A correspondence of references: of two roots, and of those acquired since two starts. -/
structure Renaming where
  /-- The root on the one side, -/
  root : NativeRef
  /-- and on the other. -/
  root' : NativeRef
  /-- How many references had been acquired on the one side, -/
  base : Nat
  /-- and on the other. -/
  base' : Nat
  /-- The roots were there before. -/
  root_le : root.address ≤ 0x1000 + base
  root_le' : root'.address ≤ 0x1000 + base'

namespace Renaming

variable {ρ : Renaming} {ref other : NativeRef}

/-- A reference acquired since the start. -/
def IsFresh (ρ : Renaming) (ref : NativeRef) : Prop :=
  0x1000 + ρ.base < ref.address

/-- A reference that has a counterpart. -/
def Covers (ρ : Renaming) (ref : NativeRef) : Prop :=
  ref = ρ.root ∨ ρ.IsFresh ref

/-- The counterpart of a reference. -/
def apply (ρ : Renaming) (ref : NativeRef) : NativeRef :=
  if ref = ρ.root then ρ.root' else ⟨ref.address - ρ.base + ρ.base'⟩

theorem covers_root (ρ : Renaming) : ρ.Covers ρ.root :=
  Or.inl rfl

theorem IsFresh.covers (h : ρ.IsFresh ref) : ρ.Covers ref :=
  Or.inr h

@[simp] theorem apply_root (ρ : Renaming) : ρ.apply ρ.root = ρ.root' :=
  if_pos rfl

theorem IsFresh.apply_eq (h : ρ.IsFresh ref) :
    ρ.apply ref = ⟨ref.address - ρ.base + ρ.base'⟩ := by
  refine if_neg ?_
  rintro rfl
  exact Nat.not_lt.2 ρ.root_le h

/-- What has been acquired since the one start, has a counterpart acquired since the other. -/
theorem IsFresh.lt_apply (h : ρ.IsFresh ref) : 0x1000 + ρ.base' < (ρ.apply ref).address := by
  rw [h.apply_eq]
  unfold IsFresh at h
  dsimp only
  omega

theorem IsFresh.apply_ne_root (h : ρ.IsFresh ref) : ρ.apply ref ≠ ρ.root' := by
  intro heq
  have hlt := h.lt_apply
  rw [heq] at hlt
  exact Nat.not_lt.2 ρ.root_le' hlt

/-- The correspondence is one-to-one. -/
theorem apply_inj (hr : ρ.Covers ref) (ho : ρ.Covers other) :
    ρ.apply ref = ρ.apply other ↔ ref = other := by
  refine ⟨fun h => ?_, fun h => h ▸ rfl⟩
  rcases hr with rfl | hr
  · rcases ho with rfl | ho
    · rfl
    · rw [apply_root] at h
      exact absurd h.symm ho.apply_ne_root
  · rcases ho with rfl | ho
    · rw [apply_root] at h
      exact absurd h hr.apply_ne_root
    · rw [hr.apply_eq, ho.apply_eq, NativeRef.mk.injEq] at h
      unfold IsFresh at hr ho
      obtain ⟨a⟩ := ref
      obtain ⟨b⟩ := other
      rw [NativeRef.mk.injEq]
      dsimp only at h hr ho
      omega

theorem injOn (ρ : Renaming) : Set.InjOn ρ.apply {ref | ρ.Covers ref} :=
  fun _ ha _ hb h => (apply_inj ha hb).1 h

end Renaming

/-! ### Calls under other names -/

namespace Call

/-- The references that occur in a call. -/
def references (call : Call) : List NativeRef :=
  call.given ++ call.acquired

/-- A call with other references in it. -/
def rename (f : NativeRef → NativeRef) : Call → Call
  | .children node outcome => .children (f node) (outcome.map (List.map f))
  | .parent node outcome => .parent (f node) (outcome.map (Option.map f))
  | .attributes node outcome => .attributes (f node) outcome
  | .siblingIndex node outcome => .siblingIndex (f node) outcome
  | .sameObject a b outcome => .sameObject (f a) (f b) outcome
  | .release node outcome => .release (f node) outcome

end Call

/-! ### Corresponding handles -/

namespace Renaming

/-- Handles that correspond.  Those that are given back some day have been acquired since the
start. -/
structure Ties (ρ : Renaming) (handle handle' : Handle) : Prop where
  session_eq : handle'.session = handle.session
  ownership_eq : handle'.ownership = handle.ownership
  covers : ρ.Covers handle.ref
  ref_eq : handle'.ref = ρ.apply handle.ref
  fresh_of_owned : handle.isBorrowed = false → ρ.IsFresh handle.ref

variable {ρ : Renaming} {handle handle' : Handle} {handles handles' : List Handle}

theorem Ties.isBorrowed_eq (h : ρ.Ties handle handle') :
    handle'.isBorrowed = handle.isBorrowed := by
  rw [Handle.isBorrowed, h.ownership_eq, Handle.isBorrowed]

/-- Siblings that correspond. -/
structure TiesSiblings (ρ : Renaming) (siblings siblings' : Siblings) : Prop where
  nextIndex_eq : siblings'.nextIndex = siblings.nextIndex
  count_eq : siblings'.count = siblings.count
  unvisited : List.Forall₂ ρ.Ties siblings.unvisited siblings'.unvisited

theorem refs_eq_of_ties (h : List.Forall₂ ρ.Ties handles handles') :
    handles'.map Handle.ref = (handles.map Handle.ref).map ρ.apply ∧
      ∀ ref ∈ handles.map Handle.ref, ρ.Covers ref := by
  induction h with
  | nil => exact ⟨rfl, List.forall_mem_nil _⟩
  | cons hhead _ ih =>
      obtain ⟨hrefs, hcovers⟩ := ih
      refine ⟨?_, List.forall_mem_cons.2 ⟨hhead.covers, hcovers⟩⟩
      rw [List.map_cons, hrefs, hhead.ref_eq]
      rfl

end Renaming

/-! ### Corresponding bridges -/

variable {tree : Tree} {ρ : Renaming}

/-- Bridges in which as much has been done since two starts. -/
structure Bridge.Alike (ρ : Renaming) (start start' now now' : Bridge tree) : Prop where
  session_eq : now'.session = now.session
  failures_eq : now'.failures = now.failures
  /-- As many references have been acquired, -/
  acquired_eq : ∃ n, now.acquired = ρ.base + n ∧ now'.acquired = ρ.base' + n
  /-- corresponding references denote one node or are not live, -/
  live_eq : ∀ ref, ρ.Covers ref → now'.live[ρ.apply ref]? = now.live[ref]?
  /-- and the same calls have been made, on references that correspond. -/
  calls_eq : ∃ made, now.calls.toList = start.calls.toList ++ made ∧
    now'.calls.toList = start'.calls.toList ++ made.map (Call.rename ρ.apply) ∧
    ∀ call ∈ made, ∀ ref ∈ call.references, ρ.Covers ref

namespace Bridge

variable {start start' now now' : Bridge tree} {handle handle' : Handle}

namespace Alike

/-- A call on corresponding handles fails alike, or concerns one node. -/
theorem locate_eq (h : Alike ρ start start' now now') (hh : ρ.Ties handle handle')
    (op : BridgeOp) : now'.locate op handle' = now.locate op handle := by
  rw [locate, locate, hh.session_eq, hh.ref_eq, h.session_eq, h.failures_eq,
    h.live_eq _ hh.covers]

theorem record (h : Alike ρ start start' now now') {call : Call}
    (hc : ∀ ref ∈ call.references, ρ.Covers ref) :
    Alike ρ start start' (now.record call) (now'.record (call.rename ρ.apply)) where
  session_eq := h.session_eq
  failures_eq := h.failures_eq
  acquired_eq := h.acquired_eq
  live_eq := h.live_eq
  calls_eq := by
    obtain ⟨made, hmade, hmade', hcovers⟩ := h.calls_eq
    refine ⟨made ++ [call], ?_, ?_, ?_⟩
    · rw [Bridge.record, Array.toList_push, hmade, List.append_assoc]
    · rw [Bridge.record, Array.toList_push, hmade', List.map_append, List.append_assoc]
      rfl
    · exact List.forall_mem_append.2 ⟨hcovers, List.forall_mem_singleton.2 hc⟩

theorem nextRef_eq (h : Alike ρ start start' now now') :
    ρ.IsFresh now.nextRef ∧ now'.nextRef = ρ.apply now.nextRef := by
  obtain ⟨n, hn, hn'⟩ := h.acquired_eq
  have hfresh : ρ.IsFresh now.nextRef := by
    rw [Renaming.IsFresh, nextRef, hn]
    dsimp only
    omega
  refine ⟨hfresh, ?_⟩
  rw [hfresh.apply_eq, nextRef, nextRef, hn, hn', NativeRef.mk.injEq]
  dsimp only
  omega

end Alike

/-! ### Acquiring -/

theorem lockstep_acquire (node : tree.NodeId) :
    Lockstep (Alike ρ start start') (acquire node) (acquire node) ρ.Ties := by
  intro now now' h
  obtain ⟨hfresh, hnext⟩ := h.nextRef_eq
  refine ⟨⟨h.session_eq, rfl, hfresh.covers, hnext, fun _ => hfresh⟩, ?_⟩
  exact
    { session_eq := h.session_eq
      failures_eq := h.failures_eq
      acquired_eq := by
        obtain ⟨n, hn, hn'⟩ := h.acquired_eq
        exact ⟨n + 1, congrArg Nat.succ hn, congrArg Nat.succ hn'⟩
      live_eq := fun ref hr => by
        simp only [acquire, Std.ExtTreeMap.getElem?_insert, hnext,
          Std.LawfulEqOrd.compare_eq_iff_eq, Renaming.apply_inj hfresh.covers hr, h.live_eq ref hr]
      calls_eq := h.calls_eq }

theorem lockstep_acquireAll (nodes : List tree.NodeId) :
    Lockstep (Alike ρ start start') (acquireAll nodes) (acquireAll nodes)
      (List.Forall₂ ρ.Ties) := by
  induction nodes with
  | nil => exact .pure .nil
  | cons node rest ih =>
      exact (lockstep_acquire node).bind fun _ _ hhandle =>
        ih.bind fun _ _ hhandles => .pure (.cons hhandle hhandles)

/-! ### Calls -/

/-- A call is written down on both sides, as the last thing that is done. -/
theorem lockstep_note {α : Type} {R : α → α → Prop} {call call' : Call} {a a' : α}
    (hcall : call' = call.rename ρ.apply) (hc : ∀ ref ∈ call.references, ρ.Covers ref)
    (hr : R a a') :
    Lockstep (Alike ρ start start')
      (do
        modify (·.record call)
        return a)
      (do
        modify (·.record call')
        return a') R :=
  fun _ _ h => ⟨hr, hcall ▸ h.record hc⟩

theorem lockstep_children (hh : ρ.Ties handle handle') :
    Lockstep (Alike ρ start start') (children handle) (children handle')
      (SameOutcome (List.Forall₂ ρ.Ties)) := by
  refine Lockstep.get.bind fun now now' h => ?_
  rw [h.locate_eq hh, hh.ref_eq]
  cases now.locate .children handle with
  | error e => exact lockstep_note rfl (List.forall_mem_singleton.2 hh.covers) (.error e)
  | ok node =>
      refine (lockstep_acquireAll (tree.children node)).bind fun handles handles' hhandles => ?_
      obtain ⟨hrefs, hcovers⟩ := Renaming.refs_eq_of_ties hhandles
      rw [hrefs]
      exact lockstep_note rfl (List.forall_mem_cons.2 ⟨hh.covers, hcovers⟩) (.ok hhandles)

theorem lockstep_parent (hh : ρ.Ties handle handle') :
    Lockstep (Alike ρ start start') (parent handle) (parent handle')
      (SameOutcome (Option.Rel ρ.Ties)) := by
  refine Lockstep.get.bind fun now now' h => ?_
  rw [h.locate_eq hh, hh.ref_eq]
  have hgiven := List.forall_mem_singleton.2 hh.covers
  cases now.locate .parent handle with
  | error e => exact lockstep_note rfl hgiven (.error e)
  | ok node =>
      dsimp only
      cases tree.parent? node with
      | none => exact lockstep_note rfl hgiven (.ok .none)
      | some above =>
          refine (lockstep_acquire above).bind fun found found' hfound => ?_
          have hfresh := List.forall_mem_singleton.2 hfound.covers
          rw [hfound.ref_eq]
          exact lockstep_note rfl (List.forall_mem_cons.2 ⟨hh.covers, hfresh⟩) (.ok (.some hfound))

theorem lockstep_attributes (hh : ρ.Ties handle handle') :
    Lockstep (Alike ρ start start') (attributes handle) (attributes handle')
      (SameOutcome Eq) := by
  refine Lockstep.get.bind fun now now' h => ?_
  rw [h.locate_eq hh, hh.ref_eq]
  have hgiven := List.forall_mem_singleton.2 hh.covers
  cases now.locate .attributes handle with
  | error e => exact lockstep_note rfl hgiven (.error e)
  | ok node => exact lockstep_note rfl hgiven (.ok rfl)

theorem lockstep_siblingIndex (hh : ρ.Ties handle handle') :
    Lockstep (Alike ρ start start') (siblingIndex handle) (siblingIndex handle')
      (SameOutcome Eq) := by
  refine Lockstep.get.bind fun now now' h => ?_
  rw [h.locate_eq hh, hh.ref_eq]
  have hgiven := List.forall_mem_singleton.2 hh.covers
  cases now.locate .siblingIndex handle with
  | error e => exact lockstep_note rfl hgiven (.error e)
  | ok node => exact lockstep_note rfl hgiven (.ok rfl)

theorem lockstep_sameObject {a a' b b' : Handle} (ha : ρ.Ties a a') (hb : ρ.Ties b b') :
    Lockstep (Alike ρ start start') (sameObject a b) (sameObject a' b') (SameOutcome Eq) := by
  refine Lockstep.get.bind fun now now' h => ?_
  rw [h.locate_eq ha, h.locate_eq hb, ha.ref_eq, hb.ref_eq]
  have hgiven := List.forall_mem_cons.2 ⟨ha.covers, List.forall_mem_singleton.2 hb.covers⟩
  exact fun _ _ _ => ⟨.of_eq rfl, h.record hgiven⟩

theorem Alike.release (h : Alike ρ start start' now now') (hh : ρ.Ties handle handle') :
    Alike ρ start start' (Bridge.release handle now).2 (Bridge.release handle' now').2 := by
  have hgiven := List.forall_mem_singleton.2 hh.covers
  have hlive' : now'.live[ρ.apply handle.ref]? = now.live[handle.ref]? := h.live_eq _ hh.covers
  simp only [Bridge.release, bind, StateT.bind, get, getThe, MonadStateOf.get, StateT.get, pure,
    hh.ref_eq, h.failures_eq, hlive']
  cases now.live[handle.ref]? with
  | none =>
      refine Alike.record ?_ hgiven
      exact ⟨h.session_eq, rfl, h.acquired_eq, h.live_eq, h.calls_eq⟩
  | some node =>
      refine Alike.record ?_ hgiven
      refine ⟨h.session_eq, rfl, h.acquired_eq, fun ref hr => ?_, h.calls_eq⟩
      -- what is released corresponds, so the same is left on both sides
      simp only [Std.ExtTreeMap.getElem?_erase, Std.LawfulEqOrd.compare_eq_iff_eq,
        Renaming.apply_inj hh.covers hr, h.live_eq ref hr]

end Bridge

/-! ### Corresponding sessions -/

/-- Sessions in which as much has been done since two starts. -/
structure Session.Alike (ρ : Renaming) (start start' now now' : Session tree) : Prop where
  id_eq : now'.id = now.id
  bridge : Bridge.Alike ρ start.bridge start'.bridge now.bridge now'.bridge
  /-- Of the references acquired since, corresponding ones are owed. -/
  outstanding_iff : ∀ ref, ρ.IsFresh ref →
    (ρ.apply ref ∈ now'.ledger.outstanding ↔ ref ∈ now.ledger.outstanding)

namespace Session

variable {start start' now now' : Session tree} {handle handle' : Handle}
variable {α : Type} {R : α → α → Prop}

theorem lockstep_onBridge {use use' : BridgeM tree α}
    (h : Lockstep (Bridge.Alike ρ start.bridge start'.bridge) use use' R) :
    Lockstep (Alike ρ start start') (onBridge use) (onBridge use') R := by
  intro now now' hnow
  obtain ⟨hresult, hbridge⟩ := h _ _ hnow.bridge
  exact ⟨hresult, hnow.id_eq, hbridge, hnow.outstanding_iff⟩

theorem lockstep_track (hh : ρ.Ties handle handle') :
    Lockstep (Alike ρ start start') (track handle) (track handle') (fun _ _ => True) := by
  intro now now' h
  refine ⟨trivial, h.id_eq, h.bridge, fun ref hr => ?_⟩
  change _ ∈ (now'.ledger.enter handle'.ref).outstanding ↔
    ref ∈ (now.ledger.enter handle.ref).outstanding
  rw [Ledger.mem_enter, Ledger.mem_enter, hh.ref_eq, Renaming.apply_inj hr.covers hh.covers,
    h.outstanding_iff ref hr]

theorem lockstep_trackAll {handles handles' : List Handle}
    (hh : List.Forall₂ ρ.Ties handles handles') :
    Lockstep (Alike ρ start start') (trackAll handles) (trackAll handles') (fun _ _ => True) := by
  induction hh with
  | nil => exact .pure trivial
  | cons hhead _ ih => exact (lockstep_track hhead).bind fun _ _ _ => ih

/-- Handles that correspond are given back alike. -/
theorem Alike.afterRelease (h : Alike ρ start start' now now') (hh : ρ.Ties handle handle') :
    Alike ρ start start' (now.afterRelease handle) (now'.afterRelease handle') := by
  have hsession : handle'.session ≠ now'.id ↔ handle.session ≠ now.id := by
    rw [hh.session_eq, h.id_eq]
  cases hb : handle.isBorrowed with
  | true =>
      rw [afterRelease_borrowed hb, afterRelease_borrowed (hh.isBorrowed_eq.trans hb)]
      exact h
  | false =>
      have hfresh := hh.fresh_of_owned hb
      have hrefused : handle'.session ≠ now'.id ∨ handle'.ref ∉ now'.ledger.outstanding ↔
          handle.session ≠ now.id ∨ handle.ref ∉ now.ledger.outstanding := by
        rw [hsession, hh.ref_eq, h.outstanding_iff _ hfresh]
      rw [Session.afterRelease, Session.afterRelease, hh.isBorrowed_eq, hb]
      simp only [Bool.false_eq_true, if_false]
      by_cases hr : handle.session ≠ now.id ∨ handle.ref ∉ now.ledger.outstanding
      · rw [if_pos hr, if_pos (hrefused.2 hr)]
        exact ⟨h.id_eq, h.bridge, h.outstanding_iff⟩
      · rw [if_neg hr, if_neg fun hr' => hr (hrefused.1 hr')]
        refine ⟨h.id_eq, h.bridge.release hh, fun ref href => ?_⟩
        rw [Ledger.mem_strike, Ledger.mem_strike, hh.ref_eq, ne_eq, ne_eq,
          Renaming.apply_inj href.covers hh.covers, h.outstanding_iff ref href]

theorem lockstep_release (hh : ρ.Ties handle handle') :
    Lockstep (Alike ρ start start') (release handle) (release handle') (fun _ _ => True) :=
  fun _ _ h => ⟨trivial, h.afterRelease hh⟩

theorem lockstep_releaseAll {handles handles' : List Handle}
    (hh : List.Forall₂ ρ.Ties handles handles') :
    Lockstep (Alike ρ start start') (releaseAll handles) (releaseAll handles')
      (fun _ _ => True) := by
  induction hh with
  | nil => exact .pure trivial
  | cons hhead _ ih => exact (lockstep_release hhead).bind fun _ _ _ => ih

/-! ### Calls -/

theorem lockstep_children (hh : ρ.Ties handle handle') :
    Lockstep (Alike ρ start start') (children handle) (children handle')
      (SameOutcome ρ.TiesSiblings) := by
  have hacquire : Lockstep (Alike ρ start start') (acquireChildren handle)
      (acquireChildren handle') (SameOutcome (List.Forall₂ ρ.Ties)) := by
    refine (lockstep_onBridge (Bridge.lockstep_children hh)).bind fun found found' hfound => ?_
    cases hfound with
    | error e => exact .pure (.error e)
    | ok hhandles => exact (lockstep_trackAll hhandles).bind fun _ _ _ => .pure (.ok hhandles)
  refine hacquire.bind fun found found' hfound => ?_
  cases hfound with
  | error e => exact .pure (.error e)
  | ok hhandles => exact .pure (.ok ⟨rfl, hhandles.length_eq.symm, hhandles⟩)

theorem lockstep_parent (hh : ρ.Ties handle handle') :
    Lockstep (Alike ρ start start') (parent handle) (parent handle')
      (SameOutcome (Option.Rel ρ.Ties)) := by
  refine (lockstep_onBridge (Bridge.lockstep_parent hh)).bind fun found found' hfound => ?_
  cases hfound with
  | error e => exact .pure (.error e)
  | ok hparent =>
      cases hparent with
      | none => exact .pure (.ok .none)
      | some hparent => exact (lockstep_track hparent).bind fun _ _ _ => .pure (.ok (.some hparent))

theorem lockstep_attributes (hh : ρ.Ties handle handle') :
    Lockstep (Alike ρ start start') (attributes handle) (attributes handle') (SameOutcome Eq) :=
  lockstep_onBridge (Bridge.lockstep_attributes hh)

theorem lockstep_siblingPosition (hh : ρ.Ties handle handle') :
    Lockstep (Alike ρ start start') (siblingPosition handle) (siblingPosition handle')
      (SameOutcome Eq) := by
  refine (lockstep_onBridge (Bridge.lockstep_siblingIndex hh)).bind fun found found' hfound => ?_
  cases hfound with
  | error e => exact .pure (.error e)
  | ok hplace => exact .pure (.ok (hplace ▸ rfl))

theorem lockstep_sameObject {a a' b b' : Handle} (ha : ρ.Ties a a') (hb : ρ.Ties b b') :
    Lockstep (Alike ρ start start') (sameObject a b) (sameObject a' b') (SameOutcome Eq) :=
  lockstep_onBridge (Bridge.lockstep_sameObject ha hb)

end Session

end AccessQuery
