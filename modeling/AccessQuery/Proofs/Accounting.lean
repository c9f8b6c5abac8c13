/-
**No handle goes astray.**

Whatever a resolution comes to, every reference that it acquired is returned to the caller or was
released, and not both; what was live before is live after; and no call was given a reference that
had been released.  This holds for every tree, every table of failures and every set of options, and
so on every early end.

Main definitions:

* `AccessQuery.Accounted` — nothing has gone astray between two states of a session.

Main results:

* `AccessQuery.Session.resolution_accounted` — nothing does in a resolution.
-/

import AccessQuery.Proofs.Resolution

set_option relaxedAutoImplicit false
set_option autoImplicit false

namespace AccessQuery

variable {tree : Tree}

/-- The references of the handles that their holder gives back. -/
def ownedRefs (handles : List Handle) : List NativeRef :=
  (handles.filter fun h => !h.isBorrowed).map Handle.ref

/-- Between two states of a session, every reference has been accounted for: those of the handles
returned, and no others, are still to be released. -/
structure Accounted (start : Session tree) (root : Handle) (returned : List Handle)
    (after : Session tree) : Prop where
  /-- The record of the bridge has only grown, -/
  calls_prefix : start.bridge.calls.toList <+: after.bridge.calls.toList
  /-- by calls that were given no reference that had been released. -/
  orderly : Orderly root.ref (start.bridge.callsSince after.bridge)
  /-- Every acquisition yielded a reference of its own, -/
  acquired_nodup : (start.bridge.acquiredSince after.bridge).Nodup
  /-- which was either released once or returned once. -/
  acquired_perm : (start.bridge.acquiredSince after.bridge).Perm
    (start.bridge.releasedSince after.bridge ++ ownedRefs returned)
  /-- Returned views are views of the root. -/
  views : ∀ h ∈ returned, h.isBorrowed = true → h = root.view
  /-- What is returned is live, -/
  returned_live : ∀ h ∈ returned, h.ref ∈ after.bridge.live
  /-- and what was live denotes what it did. -/
  live : ∀ (ref : NativeRef) (node : tree.NodeId), start.bridge.live[ref]? = some node →
    after.bridge.live[ref]? = some node
  /-- No release was refused, by the ledger or by the bridge. -/
  rejected_eq : after.ledger.rejected = start.ledger.rejected
  invalid_eq : after.bridge.invalidReleases = start.bridge.invalidReleases
  /-- The ledger owes what was returned, besides what it owed. -/
  mem_outstanding : ∀ ref, ref ∈ after.ledger.outstanding ↔
    ref ∈ start.ledger.outstanding ∨ ref ∈ ownedRefs returned
  size_outstanding : after.ledger.outstanding.size =
    start.ledger.outstanding.size + (returned.filter fun h => !h.isBorrowed).length

theorem Accounted.refl (session : Session tree) (root : Handle) :
    Accounted session root [] session where
  calls_prefix := List.prefix_rfl
  orderly := by simpa using Orderly.nil _
  acquired_nodup := by simp [Bridge.acquiredSince]
  acquired_perm := by simp [Bridge.acquiredSince, Bridge.releasedSince, ownedRefs]
  views := by simp
  returned_live := by simp
  live _ _ h := h
  rejected_eq := rfl
  invalid_eq := rfl
  mem_outstanding := by simp [ownedRefs]
  size_outstanding := rfl

theorem ownedRefs_map (held : List (Holding tree)) :
    ownedRefs (held.map Holding.handle) = owed held := by
  simp [ownedRefs, owed, List.filter_map, Function.comp_def]

/-- Handing out everything that is held accounts for it. -/
theorem Custody.accounted {start now : Session tree} {root : Handle} {held : List (Holding tree)}
    (h : Custody start root.ref held now)
    (hv : ∀ x ∈ held, x.handle.isBorrowed = true → x.handle = root.view) :
    Accounted start root (held.map Holding.handle) now where
  calls_prefix := h.calls_prefix
  orderly := h.orderly
  acquired_nodup := h.acquired_nodup
  acquired_perm := by
    rw [ownedRefs_map]
    exact h.acquired_perm
  views handle hh hb := by
    obtain ⟨x, hx, rfl⟩ := List.mem_map.1 hh
    exact hv x hx hb
  returned_live handle hh := by
    obtain ⟨x, hx, rfl⟩ := List.mem_map.1 hh
    exact Std.ExtTreeMap.mem_iff_isSome_getElem?.2 (by rw [h.denotes x hx]; rfl)
  live := h.kept
  rejected_eq := h.rejected_eq
  invalid_eq := h.invalid_eq
  mem_outstanding ref := by rw [h.mem_outstanding, ownedRefs_map]
  size_outstanding := by
    rw [h.size_outstanding, ← ownedRefs_map]
    simp [ownedRefs]

namespace Session

/-- The handles that a resolution returns; one that fails returns none. -/
def returned : Except ResolveError (List Handle) → List Handle
  | .ok handles => handles
  | .error _ => []

theorem run_accounted {start : Session tree} {root : Handle} (options : ResolveOptions)
    (demand : Demand) (query : Query) (hl : root.ref ∈ start.bridge.live)
    (ho : ∀ ref ∈ start.ledger.outstanding, ref.address ≤ 0x1000 + start.bridge.acquired) :
    Accounted start root
      (returned ((run options demand query root start).1.map Resolution.selected))
      (run options demand query root start).2 := by
  by_cases hs : root.session = start.id
  · obtain ⟨node, hnode⟩ := Option.isSome_iff_exists.1 (Std.ExtTreeMap.mem_iff_isSome_getElem?.1 hl)
    obtain ⟨kept, hc, hv, hr⟩ := run_settled options demand query hs hnode ho
    have hacc := hc.accounted fun x hx hb => (hv x hx hb).1
    generalize (run options demand query root start).1.map Resolution.selected = result at *
    match result, hr with
    | .ok selected, ⟨hsel, _⟩ => exact hsel ▸ hacc
    | .error (.rootUnreachable _), ⟨hkept, _⟩ => exact (hkept ▸ hacc : Accounted start root [] _)
    | .error (.interrupted _), ⟨hkept, _⟩ => exact (hkept ▸ hacc : Accounted start root [] _)
  · rw [run_of_foreign hs]
    exact Accounted.refl start root

/-- The first of the nodes that a search for one node has in hand is all of them. -/
theorem Settled.length_le_one {start after : Session tree} {options : ResolveOptions}
    {query : Query} {root : Handle} {node : tree.NodeId} {selected : List Handle}
    (h : Settled start options .first query root node (.ok selected) after) :
    selected.length ≤ 1 := by
  obtain ⟨kept, _, _, rfl, hnodes⟩ := h
  cases hr : (start.outlook options).resolve query.steps true [node] with
  | error e =>
      rw [hr] at hnodes
      cases hnodes
  | ok nodes =>
      rw [hr] at hnodes
      have hlen := congrArg List.length (Except.ok.inj hnodes)
      simp only [Demand.cut, List.length_take, List.length_map] at hlen ⊢
      omega

theorem returned_findFirst {start : Session tree} {root : Handle} (options : ResolveOptions)
    (query : Query) (hl : root.ref ∈ start.bridge.live)
    (ho : ∀ ref ∈ start.ledger.outstanding, ref.address ≤ 0x1000 + start.bridge.acquired) :
    returned ((findFirst options query root start).1.map Option.toList) =
      returned ((run options .first query root start).1.map Resolution.selected) := by
  have hf : (findFirst options query root start).1 =
      (run options .first query root start).1.map fun found => found.selected.head? := rfl
  rw [hf]
  by_cases hs : root.session = start.id
  · obtain ⟨node, hnode⟩ := Option.isSome_iff_exists.1 (Std.ExtTreeMap.mem_iff_isSome_getElem?.1 hl)
    have h := run_settled options .first query hs hnode ho
    cases hr : (run options .first query root start).1 with
    | error e => rfl
    | ok found =>
        rw [hr] at h
        have hlen := h.length_le_one
        obtain ⟨selected, diagnostics⟩ := found
        match selected, hlen with
        | [], _ => rfl
        | [handle], _ => rfl
  · rw [run_of_foreign hs]
    rfl

/-- Nothing goes astray in a resolution, whether every match is asked for or the first one only,
and whether it succeeds or fails. -/
theorem resolution_accounted (start : Session tree) (root : Handle) (options : ResolveOptions)
    (query : Query) (hl : root.ref ∈ start.bridge.live)
    (ho : ∀ ref ∈ start.ledger.outstanding, ref ∈ start.bridge.live) :
    Accounted start root (returned (resolve options query root start).1)
        (resolve options query root start).2 ∧
      Accounted start root (returned ((findFirst options query root start).1.map Option.toList))
        (findFirst options query root start).2 := by
  have hissued : ∀ ref ∈ start.ledger.outstanding, ref.address ≤ 0x1000 + start.bridge.acquired :=
    fun ref hr => start.bridge.issued ref (ho ref hr)
  refine ⟨run_accounted options .all query hl hissued, ?_⟩
  rw [returned_findFirst options query hl hissued]
  exact run_accounted options .first query hl hissued

/-- A new session is one in which nothing goes astray, even where the attributes of the one child
of the root cannot be read and its handle cannot be released. -/
theorem resolution_accounted_opening :
    let tree := (Tree.single (Element.new "panel" "")).addChild ⟨0, by decide⟩
      (Element.new "label" "")
    let opened := opening tree ⟨0, by decide⟩ fun op place =>
      if place = 1 ∧ (op = .attributes ∨ op = .release) then some 7 else none
    let query := Query.single ⟨.descendant, .role "label", none⟩
    opened.1.ref ∈ opened.2.bridge.live ∧
      (∀ ref ∈ opened.2.ledger.outstanding, ref ∈ opened.2.bridge.live) ∧
      Accounted opened.2 opened.1 (returned (resolve {} query opened.1 opened.2).1)
        (resolve {} query opened.1 opened.2).2 ∧
      Accounted opened.2 opened.1
        (returned ((findFirst {} query opened.1 opened.2).1.map Option.toList))
        (findFirst {} query opened.1 opened.2).2 := by
  intro tree opened query
  have hl := mem_live_opening tree ⟨0, by decide⟩ fun op place =>
    if place = 1 ∧ (op = .attributes ∨ op = .release) then some 7 else none
  have ho := outstanding_opening tree ⟨0, by decide⟩ fun op place =>
    if place = 1 ∧ (op = .attributes ∨ op = .release) then some 7 else none
  exact ⟨hl, ho, resolution_accounted opened.2 opened.1 {} query hl ho⟩

end Session

end AccessQuery
