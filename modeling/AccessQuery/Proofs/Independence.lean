/-
**A resolution does not depend on what was done before it.**

Two states of a session may differ in everything that earlier work leaves behind: how many
references have been acquired, which of them are live, which are owed, what has been counted.  As
long as the tree and its failures are the same and the roots denote one node, a resolution comes to
the same in both: to one error, or to matches that denote the same nodes in the same order.  It even
makes the same calls, on references under other names.

Main definitions:

* `AccessQuery.Session.Peers` — states with a common node that differ in their history only;
* `AccessQuery.Session.SameMatches` — matches that say the same.

Main results:

* `AccessQuery.Session.Peers.run_alike` — resolutions in peers correspond;
* `AccessQuery.Session.run_independent` — resolutions do not depend on the history;
* `AccessQuery.Session.peers_run` — a session is a peer of what it was before a resolution, so
  queries can be resolved again.
-/

import AccessQuery.Proofs.Accounting
import AccessQuery.Proofs.Agreement
import AccessQuery.Proofs.Steady
import AccessQuery.Proofs.Walk.Alike

set_option relaxedAutoImplicit false
set_option autoImplicit false

namespace AccessQuery

/-- Results that correspond. -/
structure Resolution.Alike (ρ : Renaming) (found found' : Resolution) : Prop where
  selected : List.Forall₂ ρ.Ties found.selected found'.selected
  diagnostics_eq : found'.diagnostics = found.diagnostics

/-- What is owed after a resolution can be given back, if it could before. -/
theorem Accounted.outstanding_live {tree : Tree} {s after : Session tree} {root : Handle}
    {returned : List Handle}
    (h : Accounted s root returned after)
    (ho : ∀ ref ∈ s.ledger.outstanding, ref ∈ s.bridge.live) :
    ∀ ref ∈ after.ledger.outstanding, ref ∈ after.bridge.live := by
  intro ref hr
  rcases (h.mem_outstanding ref).1 hr with hold | hnew
  · obtain ⟨node, hnode⟩ := Bridge.mem_live_iff.1 (ho ref hold)
    exact Bridge.mem_live_iff.2 ⟨node, h.live ref node hnode⟩
  · obtain ⟨x, hx, rfl⟩ := List.mem_map.1 hnew
    exact h.returned_live x (List.mem_filter.1 hx).1

namespace Session

variable {tree : Tree} {s s' : Session tree} {root root' : Handle} {node : tree.NodeId}
variable {options : ResolveOptions}

theorem outstanding_issued (ho : ∀ ref ∈ s.ledger.outstanding, ref ∈ s.bridge.live) :
    ∀ ref ∈ s.ledger.outstanding, ref.address ≤ 0x1000 + s.bridge.acquired :=
  fun ref hr => s.bridge.issued ref (ho ref hr)

theorem live_eq_none {ref : NativeRef} (h : 0x1000 + s.bridge.acquired < ref.address) :
    s.bridge.live[ref]? = none :=
  Option.eq_none_iff_forall_ne_some.2 fun _ hl => Nat.not_lt.2 (Bridge.le_of_live hl) h

/-! ### Peers -/

/-- Two states of a session with the same failures, each with a root that denotes the same node. -/
structure Peers (s s' : Session tree) (root root' : Handle) (node : tree.NodeId) : Prop where
  id_eq : s'.id = s.id
  session_eq : s'.bridge.session = s.bridge.session
  failures_eq : s'.bridge.failures = s.bridge.failures
  root_session_eq : root'.session = root.session
  denotes : s.bridge.nodeOf? root = some node
  denotes' : s'.bridge.nodeOf? root' = some node
  /-- What is owed can be given back. -/
  outstanding_live : ∀ ref ∈ s.ledger.outstanding, ref ∈ s.bridge.live
  outstanding_live' : ∀ ref ∈ s'.ledger.outstanding, ref ∈ s'.bridge.live

namespace Peers

variable (h : s.Peers s' root root' node)
include h

/-- The references that a resolution in the one state comes across, and in the other. -/
def names : Renaming where
  root := root.ref
  root' := root'.ref
  base := s.bridge.acquired
  base' := s'.bridge.acquired
  root_le := Bridge.le_of_live h.denotes
  root_le' := Bridge.le_of_live h.denotes'

theorem ties_view : h.names.Ties root.view root'.view where
  session_eq := h.root_session_eq
  ownership_eq := rfl
  covers := h.names.covers_root
  ref_eq := h.names.apply_root.symm
  fresh_of_owned hb := by cases hb

theorem live_root : root.ref ∈ s.bridge.live :=
  Bridge.mem_live_iff.2 ⟨node, h.denotes⟩

/-- Nothing has been done yet. -/
theorem alike : Alike h.names s s' s s' := by
  refine ⟨h.id_eq, ⟨h.session_eq, h.failures_eq, ⟨0, rfl, rfl⟩, ?_, ?_⟩, ?_⟩
  · rintro ref (rfl | hr)
    · rw [Renaming.apply_root]
      exact h.denotes'.trans h.denotes.symm
    · -- a reference yet to be acquired is live on neither side,
      rw [live_eq_none hr, live_eq_none hr.lt_apply]
  · exact ⟨[], (List.append_nil _).symm, (List.append_nil _).symm, List.forall_mem_nil _⟩
  · -- and owed on neither
    intro ref hr
    have hle := outstanding_issued h.outstanding_live ref
    have hle' := outstanding_issued h.outstanding_live' (h.names.apply ref)
    exact ⟨fun ho => absurd hr.lt_apply (Nat.not_lt.2 (hle' ho)),
      fun ho => absurd hr (Nat.not_lt.2 (hle ho))⟩

/-- Resolutions in peers correspond. -/
theorem run_alike (hc : options.cancelAt = none) (demand : Demand) (query : Query) :
    SameOutcome (Resolution.Alike h.names) (run options demand query root s).1
        (run options demand query root' s').1 ∧
      Alike h.names s s' (run options demand query root s).2
        (run options demand query root' s').2 := by
  have hforeign : root'.session ≠ s'.id ↔ root.session ≠ s.id := by
    rw [h.root_session_eq, h.id_eq]
  by_cases hs : root.session ≠ s.id
  · rw [run_of_foreign hs, run_of_foreign (hforeign.2 hs), h.root_session_eq, h.id_eq]
    exact ⟨.error _, h.alike⟩
  · have hwalk : Walk.Alike h.names s s' ⟨s, [], ∅⟩ ⟨s', [], ∅⟩ := by
      refine ⟨h.alike, rfl, fun ref _ => ?_⟩
      rw [Std.ExtTreeMap.getElem?_empty, Std.ExtTreeMap.getElem?_empty]
    have hsteps := Walk.lockstep_applySteps hc demand query.steps
      (.cons h.ties_view .nil) _ _ hwalk
    unfold run
    rw [if_neg hs, if_neg fun hs' => hs (hforeign.1 hs')]
    generalize Walk.applySteps options demand query.steps [root.view] ⟨s, [], ∅⟩ = outcome
      at hsteps ⊢
    generalize Walk.applySteps options demand query.steps [root'.view] ⟨s', [], ∅⟩ = outcome'
      at hsteps ⊢
    obtain ⟨⟨selected, failure⟩, walk⟩ := outcome
    obtain ⟨⟨selected', failure'⟩, walk'⟩ := outcome'
    obtain ⟨⟨hselected, hfailure⟩, hwalk⟩ := hsteps
    dsimp only at hfailure
    subst hfailure
    cases failure' with
    | some error => exact ⟨.error error, hwalk.session⟩
    | none => exact ⟨.ok ⟨hselected, hwalk.diagnostics_eq⟩, hwalk.session⟩

end Peers

/-! ### Independence -/

/-- Matches that denote the same nodes in the same order, with the same failed calls. -/
def SameMatches (after after' : Session tree) (found found' : Resolution) : Prop :=
  found'.diagnostics = found.diagnostics ∧
    ∃ nodes : List tree.NodeId, after.nodesOf found.selected = nodes.map some ∧
      after'.nodesOf found'.selected = nodes.map some

/-- A resolution comes to the same in two states: to one error, or to matches that say the same.  It
makes the same calls, but for the names of the references, which correspond one to one. -/
def ResolvesAlike (s s' : Session tree) (root root' : Handle) (options : ResolveOptions)
    (demand : Demand) (query : Query) : Prop :=
  let left := run options demand query root s
  let right := run options demand query root' s'
  SameOutcome (SameMatches left.2 right.2) left.1 right.1 ∧
    ∃ rename : NativeRef → NativeRef,
      Set.InjOn rename
        {ref | ∃ call ∈ s.bridge.callsSince left.2.bridge, ref ∈ call.references} ∧
      s'.bridge.callsSince right.2.bridge =
        (s.bridge.callsSince left.2.bridge).map (Call.rename rename)

theorem exists_nodesOf_eq {handles : List Handle} (h : ∀ x ∈ handles, x.ref ∈ s.bridge.live) :
    ∃ nodes : List tree.NodeId, s.nodesOf handles = nodes.map some := by
  induction handles with
  | nil => exact ⟨[], rfl⟩
  | cons x handles ih =>
      obtain ⟨node, hnode⟩ := Bridge.mem_live_iff.1 (h x List.mem_cons_self)
      obtain ⟨nodes, hnodes⟩ := ih fun y hy => h y (List.mem_cons_of_mem x hy)
      exact ⟨node :: nodes, congrArg₂ List.cons hnode hnodes⟩

/-- Handles that correspond denote the same nodes. -/
theorem Alike.nodesOf_eq {ρ : Renaming} {start start' : Session tree}
    (h : Alike ρ start start' s s') {handles handles' : List Handle}
    (hh : List.Forall₂ ρ.Ties handles handles') : s'.nodesOf handles' = s.nodesOf handles := by
  induction hh with
  | nil => rfl
  | cons hhead _ ih =>
      refine congrArg₂ List.cons ?_ ih
      rw [Bridge.nodeOf?, hhead.ref_eq]
      exact h.bridge.live_eq _ hhead.covers

theorem Alike.callsSince_eq {ρ : Renaming} {start start' : Session tree}
    (h : Alike ρ start start' s s') :
    start'.bridge.callsSince s'.bridge =
        (start.bridge.callsSince s.bridge).map (Call.rename ρ.apply) ∧
      ∀ call ∈ start.bridge.callsSince s.bridge, ∀ ref ∈ call.references, ρ.Covers ref := by
  obtain ⟨made, hmade, hmade', hcovers⟩ := h.bridge.calls_eq
  have hsince : start.bridge.callsSince s.bridge = made := by
    rw [Bridge.callsSince, hmade, ← Array.length_toList, List.drop_left]
  have hsince' : start'.bridge.callsSince s'.bridge = made.map (Call.rename ρ.apply) := by
    rw [Bridge.callsSince, hmade', ← Array.length_toList, List.drop_left]
  rw [hsince, hsince']
  exact ⟨rfl, hcovers⟩

/-- A resolution does not depend on the history of its session. -/
theorem run_independent (h : s.Peers s' root root' node) (hc : options.cancelAt = none)
    (demand : Demand) (query : Query) : s.ResolvesAlike s' root root' options demand query := by
  obtain ⟨houtcome, halike⟩ := h.run_alike hc demand query
  obtain ⟨hcalls, hcovers⟩ := halike.callsSince_eq
  refine ⟨?_, h.names.apply, h.names.injOn.mono ?_, hcalls⟩
  · have hissued := outstanding_issued h.outstanding_live
    have hlive := (run_accounted options demand query h.live_root hissued).returned_live
    revert houtcome hlive
    generalize (run options demand query root s).1 = outcome
    generalize (run options demand query root' s').1 = outcome'
    intro houtcome hlive
    cases houtcome with
    | error e => exact .error e
    | ok hfound =>
        obtain ⟨nodes, hnodes⟩ := exists_nodesOf_eq hlive
        exact .ok ⟨hfound.diagnostics_eq, nodes, hnodes,
          (halike.nodesOf_eq hfound.selected).trans hnodes⟩
  · rintro ref ⟨call, hcall, hr⟩
    exact hcovers call hcall ref hr

/-! ### Resolving again -/

/-- What a session was before a resolution, it is a peer of afterwards. -/
theorem peers_run (hl : s.bridge.nodeOf? root = some node)
    (ho : ∀ ref ∈ s.ledger.outstanding, ref ∈ s.bridge.live) (options : ResolveOptions)
    (demand : Demand) (query : Query) :
    s.Peers (run options demand query root s).2 root root node := by
  by_cases hs : root.session = s.id
  · have hissued := outstanding_issued ho
    have hlive : root.ref ∈ s.bridge.live := Bridge.mem_live_iff.2 ⟨node, hl⟩
    have haccounted := run_accounted options demand query hlive hissued
    obtain ⟨kept, hcustody, -⟩ := run_settled options demand query hs hl hissued
    exact ⟨hcustody.id_eq, hcustody.session_eq, hcustody.failures_eq, rfl, hl,
      hcustody.kept _ _ hl, ho, haccounted.outstanding_live ho⟩
  · rw [run_of_foreign hs]
    exact ⟨rfl, rfl, rfl, rfl, hl, hl, ho, ho⟩

/-- A query is resolved again, after a resolution that has returned two handles and met with a
failure. -/
theorem run_independent_again :
    let tree := (((Tree.single (Element.new "frame" "")).addChild ⟨0, by decide⟩
      (Element.new "panel" "")).addChild ⟨1, by decide⟩ (Element.new "label" "")).addChild
      ⟨0, by decide⟩ (Element.new "panel" "")
    let opened := opening tree ⟨0, by decide⟩ fun op place =>
      if place = 2 ∧ op = .attributes then some 7 else none
    let query := Query.single ⟨.descendant, .role "panel", none⟩
    let after := (run {} .all query opened.1 opened.2).2
    opened.2.bridge.acquired < after.bridge.acquired ∧
      opened.2.Peers after opened.1 opened.1 ⟨0, by decide⟩ ∧
      opened.2.ResolvesAlike after opened.1 opened.1 {} .all query := by
  intro tree opened query after
  have hl : opened.2.bridge.nodeOf? opened.1 = some ⟨0, by decide⟩ :=
    live_opening tree ⟨0, by decide⟩ fun op place =>
      if place = 2 ∧ op = .attributes then some 7 else none
  have ho : ∀ ref ∈ opened.2.ledger.outstanding, ref ∈ opened.2.bridge.live :=
    outstanding_opening tree ⟨0, by decide⟩ fun op place =>
      if place = 2 ∧ op = .attributes then some 7 else none
  have hpeers := peers_run hl ho {} .all query
  exact ⟨by decide +kernel, hpeers, run_independent hpeers rfl .all query⟩

end Session

end AccessQuery
