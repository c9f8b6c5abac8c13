/-
**The matches of a resolution, whatever its root.**

A resolution is asked to start from a handle, and the handle may be of no use: it may belong to
another session, or denote nothing, having been given back or made up.  A foreign handle is refused.
One that denotes nothing is the root until something is asked of it, which fails; so a query comes
to an error then, or to that handle, and only its steps up to the first that leaves the root have a
say, and no bound on the number of levels.  Otherwise the matches are those of the outlook.

Main definitions:

* `AccessQuery.ResolveOptions.within` — options with another bound;
* `AccessQuery.Session.matched` — the nodes that a resolution matches, or why it fails;
* `AccessQuery.Walk.Unrooted` — the root denotes nothing.

Main results:

* `AccessQuery.Walk.applySteps_unrooted_congr` — a walk from a root that denotes nothing;
* `AccessQuery.Session.matched_foreign`, `AccessQuery.Session.matched_steady` — what is matched
  below a foreign root, and below one that denotes a node;
* `AccessQuery.Session.matched_unrooted_congr` — and below one that denotes nothing.
-/

import AccessQuery.Proofs.Steady
import AccessQuery.Proofs.Walk.Rooted
import AccessQuery.Proofs.Walk.Upholds

set_option relaxedAutoImplicit false
set_option autoImplicit false

namespace AccessQuery

variable {tree : Tree}

/-- The options with another bound on the number of levels, or with none. -/
abbrev ResolveOptions.within (options : ResolveOptions) (bound : Option Nat) : ResolveOptions :=
  { options with maxDepth := bound }

/-- A handle that denotes nothing is refused by every call. -/
theorem Bridge.exists_locate_error {bridge : Bridge tree} {handle : Handle}
    (h : bridge.nodeOf? handle = none) (op : BridgeOp) :
    ∃ e, bridge.locate op handle = .error e := by
  by_cases hs : handle.session = bridge.session
  · exact ⟨_, locate_of_not_live op hs h⟩
  · exact ⟨_, locate_foreign op hs⟩

namespace Walk

variable {options : ResolveOptions} {step : Step} {root : Handle} {walk : Walk tree}

/-- The root of a walk denotes nothing. -/
def Unrooted (root : Handle) (walk : Walk tree) : Prop :=
  walk.session.bridge.nodeOf? root = none

/-! ### Steps from the root -/

/-- A step from one node is taken from it alone. -/
theorem applyStep_singleton (demand : Demand) (node : Handle) :
    (applyStep options step demand [node] : WalkM tree Expansion) = (do
      let found ← expand options step demand ⟨node, false⟩ []
      match found.failure with
      | none => return ⟨found.selected, none⟩
      | some error =>
          releaseAll found.selected
          return ⟨[], some error⟩) := by
  have hdemand : demand.isMetBy [] = false := by cases demand <;> rfl
  have hcontexts : (contextsFor options step [node] : WalkM tree (List Context)) =
      pure [⟨node, false⟩] := if_neg (by simp)
  rw [applyStep, hcontexts, pure_bind, expandAll, hdemand]
  rfl

/-- A self step is the same within any bound. -/
theorem filterSelf_within (options : ResolveOptions) (bound : Option Nat) (step : Step)
    (node : Handle) : (filterSelf (options.within bound) step node : WalkM tree Expansion) =
      filterSelf options step node := by
  have hcheckpoint : (checkpoint (options.within bound) : WalkM tree (Option Interrupt)) =
      checkpoint options := rfl
  have hattributes : (attributesFor (options.within bound) step node : WalkM tree _) =
      attributesFor options step node := rfl
  have hjudge : (judge (options.within bound) step node none : WalkM tree _) =
      judge options step node none := by
    simp only [judge, hattributes]
  simp only [filterSelf, hcheckpoint, hjudge]

/-- A view is never given back. -/
theorem session_release_view (walk : Walk tree) :
    (release root.view walk).2.session = walk.session :=
  Session.afterRelease_borrowed root.isBorrowed_view

/-- What a self step asks of a root acquires nothing. -/
theorem unrooted_filterSelf (h : Unrooted root walk) (options : ResolveOptions) (step : Step) :
    Unrooted root (filterSelf options step root.view walk).2 := by
  let I : Session tree → Prop := fun session => session.bridge.nodeOf? root = none
  have hattributes (session : Session tree) (hs : I session) :
      I (Session.attributes root.view session).2 := by
    simp only [Session.attributes, Session.onBridge, Bridge.attributes, bind, StateT.bind, get,
      getThe, MonadStateOf.get, StateT.get, pure]
    cases session.bridge.locate .attributes root.view <;> exact hs
  have hposition (session : Session tree) (hs : I session) :
      I (Session.siblingPosition root.view session).2 := by
    simp only [Session.siblingPosition, Session.onBridge, Bridge.siblingIndex, bind, StateT.bind,
      get, getThe, MonadStateOf.get, StateT.get, pure]
    cases session.bridge.locate .siblingIndex root.view <;> exact hs
  have hrelease : Upholds I (release root.view) := .of_session_eq session_release_view
  have hself : Upholds I (filterSelf options step root.view) := by
    refine (upholds_checkpoint options).bind fun found => ?_
    cases found with
    | some cause => exact hrelease.bind fun _ => .pure _
    | none =>
        refine (upholds_judge_of hattributes hposition options step none).bind fun verdict => ?_
        split
        · exact .pure _
        · exact .pure _
        · exact hrelease.bind fun _ => .pure _
  exact hself walk h

/-- A self step keeps such a root, or comes to nothing; the root denotes nothing afterwards. -/
theorem applyStep_unrooted_self (h : Unrooted root walk) (options : ResolveOptions)
    (hs : step.axis = .self) (demand : Demand) :
    (applyStep options step demand [root.view] walk).1.selected.Sublist [root.view] ∧
      Unrooted root (applyStep options step demand [root.view] walk).2 := by
  have hsub := returns_filterSelf options step root.view walk
  have hnext := unrooted_filterSelf h options step
  rw [applyStep_singleton, expand, hs]
  simp only [bind, StateT.bind]
  generalize filterSelf options step root.view walk = outcome at hsub hnext
  obtain ⟨⟨selected, failure⟩, after⟩ := outcome
  cases failure with
  | none => exact ⟨hsub, hnext⟩
  | some error =>
      refine ⟨List.nil_sublist _, ?_⟩
      rcases List.sublist_singleton.1 hsub with rfl | rfl
      · exact hnext
      · change ((after.session.afterRelease root.view).bridge.nodeOf? root) = none
        rw [Session.afterRelease_borrowed root.isBorrowed_view]
        exact hnext

/-- A walk goes on from such a step only if it is still at the root. -/
theorem eq_root_of_goes_on {found : Expansion} (hsub : found.selected.Sublist [root.view])
    (hgoes : ¬(found.failure.isSome || found.selected.isEmpty) = true) :
    found.selected = [root.view] := by
  rcases List.sublist_singleton.1 hsub with hnil | hroot
  · simp [hnil] at hgoes
  · exact hroot

/-- Every other step fails alike, since the children of such a root cannot be had. -/
theorem applyStep_unrooted (h : Unrooted root walk) : ∃ (e : BridgeError) (after : Walk tree),
    ∀ (options : ResolveOptions) (step : Step) (demand : Demand), step.axis ≠ .self →
      applyStep options step demand [root.view] walk =
        (⟨[], some (.rootUnreachable e)⟩, after) := by
  obtain ⟨e, he⟩ := Bridge.exists_locate_error h .children
  let after : Session tree :=
    { walk.session with bridge := walk.session.bridge.record (.children root.ref (.error e)) }
  have hchildren : Session.children root.view walk.session = (.error e, after) := by
    simp only [Session.children, Session.acquireChildren, Session.onBridge, Bridge.children, bind,
      StateT.bind, get, getThe, MonadStateOf.get, StateT.get, pure]
    rw [show walk.session.bridge.locate .children root.view = .error e from he]
    rfl
  have henumerate (options : ResolveOptions) : enumerate options root.view walk =
      (.error e, { walk with session := after }) := by
    simp only [enumerate, inSession, bind, StateT.bind, hchildren]
    rfl
  refine ⟨e, { walk with session := after }, fun options step demand hs => ?_⟩
  rw [applyStep_singleton, expand]
  cases ha : step.axis with
  | self => exact absurd ha hs
  | child | descendant | any =>
      simp only [expandChildren, expandDescendants, bind, StateT.bind, henumerate]
      rfl

/-! ### Walks from the root -/

/-- Only the steps up to the first that leaves the root have a say, and not where it leads, nor how
far it looks. -/
theorem applySteps_unrooted_congr (h : Unrooted root walk) (options : ResolveOptions)
    (bound bound' : Option Nat) (demand : Demand) {steps others : List Step}
    (hsteps : List.Forall₂ (fun s t => s = t ∨ s.axis ≠ .self ∧ t.axis ≠ .self) steps others) :
    applySteps (options.within bound) demand steps [root.view] walk =
      applySteps (options.within bound') demand others [root.view] walk := by
  induction hsteps generalizing walk with
  | nil => rfl
  | @cons step other rest rest' hstep hrest ih =>
      have hempty : rest.isEmpty = rest'.isEmpty := by cases hrest <;> rfl
      rw [applySteps, applySteps, hempty]
      generalize (if rest'.isEmpty then demand else .all) = demand'
      simp only [bind, StateT.bind]
      by_cases hs : step.axis = .self
      · obtain rfl : step = other := hstep.resolve_right fun hne => hne.1 hs
        have hsame : (applyStep (options.within bound) step demand' [root.view] :
            WalkM tree Expansion) = applyStep (options.within bound') step demand' [root.view] := by
          simp only [applyStep_singleton, expand, hs, filterSelf_within]
        obtain ⟨hsub, hnext⟩ := applyStep_unrooted_self h (options.within bound') hs demand'
        rw [hsame]
        generalize applyStep _ step demand' [root.view] walk = outcome at hsub hnext
        obtain ⟨found, after⟩ := outcome
        dsimp only at hsub hnext ⊢
        by_cases hidle : (found.failure.isSome || found.selected.isEmpty) = true
        · rw [if_pos hidle, if_pos hidle]
        · rw [if_neg hidle, if_neg hidle, eq_root_of_goes_on hsub hidle]
          exact ih hnext
      · have hother : other.axis ≠ .self := by
          rcases hstep with rfl | hne
          · exact hs
          · exact hne.2
        obtain ⟨e, after, hfails⟩ := applyStep_unrooted h
        rw [hfails _ step demand' hs, hfails _ other demand' hother]
        simp only [Option.isSome_some, Bool.true_or, if_true]

end Walk

/-! ### Resolutions -/

namespace Session

/-- The nodes that a resolution matches, or why it fails. -/
def matched (options : ResolveOptions) (query : Query) (root : Handle) (start : Session tree) :
    Except ResolveError (List (Option tree.NodeId)) :=
  (resolve options query root start).1.map (resolve options query root start).2.nodesOf

variable {start : Session tree} {options : ResolveOptions} {root : Handle} {query : Query}

theorem matched_foreign (h : root.session ≠ start.id) :
    matched options query root start = .error (.sessionMismatch start.id root.session) := by
  rw [matched, resolve_eq, run_of_foreign h]
  rfl

/-- What is matched below a root that denotes a node. -/
theorem matched_steady {node : tree.NodeId} (h : start.Steady options root node) :
    matched options query root start =
      match (start.outlook options).resolve query.steps true [node] with
      | .ok nodes => .ok (nodes.map some)
      | .error e => .error (.rootUnreachable e) := by
  have hrun := run_settled options .all query h.session_eq h.denotes h.outstanding_issued
  cases hq : (start.outlook options).resolve query.steps true [node] with
  | ok nodes =>
      obtain ⟨found, after, hr, hnodes⟩ := resolve_steady h hq
      rw [matched, hr]
      exact congrArg Except.ok hnodes
  | error e =>
      rw [matched, resolve_eq]
      generalize run options .all query root start = outcome at hrun
      obtain ⟨result, after⟩ := outcome
      obtain ⟨kept, -, -, hresult⟩ := hrun
      cases result with
      | ok found =>
          have hcut := hresult.2
          rw [hq] at hcut
          cases hcut
      | error cause =>
          cases cause with
          | rootUnreachable e' =>
              have hcause := hresult.2
              rw [hq] at hcause
              cases hcause
              rfl
          | sessionMismatch expected found => exact hresult.elim
          | interrupted cause =>
              obtain ⟨-, made, hmade⟩ := hresult
              rw [h.interrupt?] at hmade
              cases hmade

/-- Whether a root that denotes nothing is matched does not depend on bounds, nor on where a query
goes from it. -/
theorem matched_unrooted_congr (h : start.bridge.nodeOf? root = none) (options : ResolveOptions)
    (bound bound' : Option Nat) {other : Query}
    (hsteps : List.Forall₂ (fun s t => s = t ∨ s.axis ≠ .self ∧ t.axis ≠ .self)
      query.steps other.steps) :
    matched (options.within bound) query root start =
      matched (options.within bound') other root start := by
  have hwalk := Walk.applySteps_unrooted_congr (show Walk.Unrooted root ⟨start, [], ∅⟩ from h)
    options bound bound' .all hsteps
  have hrun : run (options.within bound) .all query root start =
      run (options.within bound') .all other root start := by
    unfold run
    rw [hwalk]
  rw [matched, matched, resolve_eq, resolve_eq, hrun]

end Session

end AccessQuery
