/-
**A cancelled resolution is cut short, and nothing else.**

A resolution whose flag goes up after some number of calls is compared with the one whose flag never
does, from the same state.  They run alike up to the first look at the flag that finds it up.  If
there is none, they are the same to the end.  Otherwise the first one fails, and all that it still
does is to give handles back.

Main definitions:

* `AccessQuery.Session.OnlyReleasesSince` — states between which nothing but releases was called;
* `AccessQuery.Walk.Cuts` — a computation that is another one, cut at its first checkpoint at or
  after a number of calls;
* `AccessQuery.Session.Truncates` — the same of outcomes of resolutions.

Main results:

* `AccessQuery.Walk.Cuts.bind` — computations are cut where the first of their parts is;
* `AccessQuery.Walk.cuts_applySteps` — so is the walk;
* `AccessQuery.Session.cancelled_truncates` — and resolutions, whatever they are asked for.
-/

import Mathlib.Data.List.Infix
import AccessQuery.Proofs.Agreement
import AccessQuery.Proofs.Walk.Checkpoints

set_option relaxedAutoImplicit false
set_option autoImplicit false

namespace AccessQuery

variable {tree : Tree}

namespace Session

/-! ### Giving back and nothing else -/

/-- Nothing but releases has been added to the record since. -/
def OnlyReleasesSince (before after : Session tree) : Prop :=
  ∃ releases : List Call,
    after.bridge.calls.toList = before.bridge.calls.toList ++ releases ∧
      ∀ call ∈ releases, call.op = .release

theorem OnlyReleasesSince.refl (session : Session tree) : session.OnlyReleasesSince session :=
  ⟨[], (List.append_nil _).symm, List.forall_mem_nil _⟩

theorem OnlyReleasesSince.trans {a b c : Session tree} (hab : a.OnlyReleasesSince b)
    (hbc : b.OnlyReleasesSince c) : a.OnlyReleasesSince c := by
  obtain ⟨first, hb, hfirst⟩ := hab
  obtain ⟨rest, hc, hrest⟩ := hbc
  exact ⟨first ++ rest, by rw [hc, hb, List.append_assoc],
    List.forall_mem_append.2 ⟨hfirst, hrest⟩⟩

theorem onlyReleasesSince_afterRelease (session : Session tree) (handle : Handle) :
    session.OnlyReleasesSince (session.afterRelease handle) := by
  unfold afterRelease
  split
  · exact .refl session
  · split
    · exact .refl session
    · simp only [Bridge.release, bind, StateT.bind, get, getThe, MonadStateOf.get, StateT.get, pure]
      cases session.bridge.live[handle.ref]? <;>
        exact ⟨[.release handle.ref _], Array.toList_push, by simp [Call.op]⟩

theorem onlyReleasesSince_releaseAll (handles : List Handle) (session : Session tree) :
    session.OnlyReleasesSince (Session.releaseAll handles session).2 := by
  induction handles generalizing session with
  | nil => exact .refl session
  | cons handle rest ih =>
      exact (onlyReleasesSince_afterRelease session handle).trans (ih (session.afterRelease handle))

/-! ### The record grows -/

theorem prefix_record {made : List Call} {bridge after : Bridge tree} (call : Call)
    (h : made <+: bridge.calls.toList) (hc : after.calls = bridge.calls) :
    made <+: (after.record call).calls.toList := by
  rw [Bridge.record, hc, Array.toList_push]
  exact h.trans (List.prefix_append _ _)

/-- No call takes anything out of the record. -/
theorem invariant_prefix (made : List Call) :
    Invariant fun session : Session tree => made <+: session.bridge.calls.toList where
  children handle session h := by
    simp only [Session.children, acquireChildren, onBridge, bind, StateT.bind, pure]
    rcases session.bridge.children_cases handle with ⟨e, he⟩ | ⟨gained, after, hg, hok⟩
    · rw [he]
      exact prefix_record _ h rfl
    · rw [hok]
      exact (bridge_trackAll _ _).symm ▸ prefix_record _ h hg.calls_eq
  parent handle session h := by
    simp only [Session.parent, onBridge, bind, StateT.bind, pure]
    rcases session.bridge.parent_cases handle with ⟨e, he⟩ | hnone | ⟨x, after, hg, hok⟩
    · rw [he]
      exact prefix_record _ h rfl
    · rw [hnone]
      exact prefix_record _ h rfl
    · rw [hok]
      exact prefix_record _ h hg.calls_eq
  attributes handle session h := by
    simp only [Session.attributes, onBridge, Bridge.attributes, bind, StateT.bind, get, getThe,
      MonadStateOf.get, StateT.get, pure]
    cases session.bridge.locate .attributes handle <;> exact prefix_record _ h rfl
  siblingPosition handle session h := by
    simp only [Session.siblingPosition, onBridge, Bridge.siblingIndex, bind, StateT.bind, get,
      getThe, MonadStateOf.get, StateT.get, pure]
    cases session.bridge.locate .siblingIndex handle <;> exact prefix_record _ h rfl
  sameObject a b session h := prefix_record _ h rfl
  release handle session h := by
    obtain ⟨releases, hr, _⟩ := onlyReleasesSince_afterRelease session handle
    rw [hr]
    exact h.trans (List.prefix_append _ _)

end Session

/-! ### Computations that are cut -/

/-- The options without a flag. -/
abbrev ResolveOptions.unflagged (options : ResolveOptions) : ResolveOptions :=
  { options with cancelAt := none }

/-- The options with a flag that goes up when some number of calls has been made. -/
abbrev ResolveOptions.flaggedAt (options : ResolveOptions) (limit : Nat) : ResolveOptions :=
  { options with cancelAt := some limit }

/-- A visit that the flag has ended. -/
def Visit.IsCancelled (visit : Visit) : Prop :=
  visit.stop = some (.interrupted .cancelled)

/-- An expansion that the flag has ended. -/
def Expansion.IsCancelled (found : Expansion) : Prop :=
  found.failure = some (.interrupted .cancelled)

namespace Walk

open Checkpoints

variable {α β : Type} {limit : Nat} {options : ResolveOptions}

/-- How many calls have been made. -/
def made (walk : Walk tree) : Nat :=
  walk.session.bridge.calls.size

/-- A computation only adds to the record. -/
def Extends (m : WalkM tree α) : Prop :=
  ∀ calls, Upholds (fun session => calls <+: session.bridge.calls.toList) m

/-- A computation gives handles back and does nothing else, and ends with a result of some kind. -/
def CleansUp (m : WalkM tree α) (Kind : α → Prop) : Prop :=
  ∀ walk, Kind (m walk).1 ∧ walk.session.OnlyReleasesSince (m walk).2.session

namespace CleansUp

variable {m : WalkM tree α} {Kind : α → Prop}

theorem pure {a : α} (h : Kind a) : CleansUp (Pure.pure a : WalkM tree α) Kind :=
  fun walk => ⟨h, .refl walk.session⟩

theorem release (node : Handle) (hm : CleansUp m Kind) :
    CleansUp (Walk.release node >>= fun _ => m) Kind := by
  intro walk
  obtain ⟨hkind, hrest⟩ := hm (Walk.release node walk).2
  exact ⟨hkind, (Session.onlyReleasesSince_afterRelease walk.session node).trans hrest⟩

theorem releaseAll (nodes : List Handle) (hm : CleansUp m Kind) :
    CleansUp (Walk.releaseAll nodes >>= fun _ => m) Kind := by
  intro walk
  obtain ⟨hkind, hrest⟩ := hm (Walk.releaseAll nodes walk).2
  exact ⟨hkind, (Session.onlyReleasesSince_releaseAll nodes walk.session).trans hrest⟩

end CleansUp

/-- A computation runs like another one up to the first of its checkpoints at or after a number of
calls.  From there on it gives handles back and does nothing else, and its result tells that it has
been cut. -/
def Cuts (limit : Nat) (points : Checkpoints tree) (full cut : WalkM tree α)
    (IsCut : α → Prop) : Prop :=
  ∀ walk, walk.session.bridge.calls.toList <+: (full walk).2.session.bridge.calls.toList ∧
    match (points walk).find? fun seen => limit ≤ seen.made with
    | none => cut walk = full walk
    | some seen => IsCut (cut walk).1 ∧ seen.session.OnlyReleasesSince (cut walk).2.session ∧
        seen.session.bridge.calls.toList <+: (full walk).2.session.bridge.calls.toList

namespace Cuts

variable {points : Checkpoints tree} {full cut : WalkM tree α} {IsCut : α → Prop}
variable {IsCut' : β → Prop}

/-- What does not look at the flag runs like itself. -/
theorem same {m : WalkM tree α} (hm : Extends m) : Cuts limit never m m IsCut :=
  fun walk => ⟨hm _ walk List.prefix_rfl, rfl⟩

/-- Of two computations after one another the first one is cut, or else the second. -/
theorem bind {next : α → Checkpoints tree} {f g : α → WalkM tree β}
    (hm : Cuts limit points full cut IsCut) (hf : ∀ a, Cuts limit (next a) (f a) (g a) IsCut')
    (hg : ∀ a, IsCut a → CleansUp (g a) IsCut') :
    Cuts limit (points.bind full next) (full >>= f) (cut >>= g) IsCut' := by
  intro walk
  obtain ⟨hfirst, hm⟩ := hm walk
  obtain ⟨hrest, hf⟩ := hf (full walk).1 (full walk).2
  refine ⟨hfirst.trans hrest, ?_⟩
  rw [Checkpoints.bind, List.find?_append]
  cases hfind : (points walk).find? fun seen => limit ≤ seen.made with
  | some seen =>
      rw [hfind] at hm
      obtain ⟨hcut, hreleases, hseen⟩ := hm
      obtain ⟨hcut', hreleases'⟩ := hg _ hcut (cut walk).2
      exact ⟨hcut', hreleases.trans hreleases', hseen.trans hrest⟩
  | none =>
      rw [hfind] at hm
      have hnext : (cut >>= g) walk = g (full walk).1 (full walk).2 := by
        rw [← hm]
        rfl
      rw [Option.none_or, hnext]
      exact hf

/-- A computation that does not look at the flag may come first, -/
theorem after {m : WalkM tree α} {next : α → Checkpoints tree} {f g : α → WalkM tree β}
    (hm : Extends m) (hf : ∀ a, Cuts limit (next a) (f a) (g a) IsCut') :
    Cuts limit (Checkpoints.after m next) (m >>= f) (m >>= g) IsCut' :=
  fun walk => ⟨(hm _ walk List.prefix_rfl).trans (hf _ _).1, (hf _ _).2⟩

/-- or last. -/
theorem before {f : α → WalkM tree β} (hm : Cuts limit points full cut IsCut)
    (hf : ∀ a, Extends (f a)) (hg : ∀ a, IsCut a → CleansUp (f a) IsCut') :
    Cuts limit points (full >>= f) (cut >>= f) IsCut' := by
  have hbind := hm.bind (fun a => same (hf a)) hg
  have hpoints : points.bind full (fun _ => never) = points :=
    funext fun walk => List.append_nil (points walk)
  rwa [hpoints] at hbind

theorem ite {p : Prop} [Decidable p] {points' : Checkpoints tree} {full' cut' : WalkM tree α}
    (h : Cuts limit points full cut IsCut) (h' : Cuts limit points' full' cut' IsCut) :
    Cuts limit (if p then points else points') (if p then full else full')
      (if p then cut else cut') IsCut := by
  split
  · exact h
  · exact h'

end Cuts

/-! ### Visits -/

theorem cuts_checkpoint (options : ResolveOptions) (limit : Nat) :
    Cuts limit (here : Checkpoints tree) (checkpoint options.unflagged)
      (checkpoint (options.flaggedAt limit)) (· = some .cancelled) := by
  intro walk
  refine ⟨List.prefix_rfl, ?_⟩
  have hmade : checkpoint (options.flaggedAt limit) walk =
      ((options.flaggedAt limit).interrupt? walk.made, walk) := rfl
  by_cases hlimit : limit ≤ walk.made
  · rw [here, List.find?_singleton, if_pos (decide_eq_true hlimit), hmade]
    exact ⟨by simp [ResolveOptions.interrupt?, hlimit], .refl walk.session, List.prefix_rfl⟩
  · rw [here, List.find?_singleton, if_neg (by simpa using hlimit), hmade]
    have hinterrupt : (options.flaggedAt limit).interrupt? walk.made =
        options.unflagged.interrupt? walk.made := by
      simp [ResolveOptions.interrupt?, hlimit]
    rw [hinterrupt]
    rfl

theorem extends_release (node : Handle) : Extends (release node : WalkM tree Unit) :=
  fun calls => upholds_release (Session.invariant_prefix calls) node

theorem extends_releaseAll (nodes : List Handle) : Extends (releaseAll nodes : WalkM tree Unit) :=
  fun calls => upholds_releaseAll (Session.invariant_prefix calls) nodes

theorem Extends.bind {m : WalkM tree α} {f : α → WalkM tree β} (hm : Extends m)
    (hf : ∀ a, Extends (f a)) : Extends (m >>= f) :=
  fun calls => (hm calls).bind fun a => hf a calls

theorem extends_pure (a : α) : Extends (Pure.pure a : WalkM tree α) :=
  fun _ => .pure a

theorem cuts_visitEach (step : Step) (demand : Demand) (earlier : List Handle) (deeper : Bool)
    {full cut : Siblings → WalkM tree Visit} {points : Siblings → Checkpoints tree}
    (hv : ∀ siblings,
      Cuts limit (points siblings) (full siblings) (cut siblings) Visit.IsCancelled)
    (candidates : List (Handle × SiblingPosition)) :
    Cuts limit
      (checkpointsEach options.unflagged step demand earlier deeper full points candidates)
      (visitEach options.unflagged step demand earlier deeper full candidates)
      (visitEach (options.flaggedAt limit) step demand earlier deeper cut candidates)
      Visit.IsCancelled := by
  induction candidates with
  | nil => exact .same (extends_pure _)
  | cons candidate rest ih =>
      obtain ⟨node, position⟩ := candidate
      refine (cuts_checkpoint options limit).bind (fun found => ?_) (fun found hfound => ?_)
      · cases found with
        | some cause => exact .same ((extends_release node).bind fun _ => extends_pure _)
        | none =>
            have hsettle : Extends
                (settle options.unflagged step earlier deeper node position : WalkM tree _) :=
              fun calls => upholds_settle (Session.invariant_prefix calls) _ step earlier deeper
                node position
            refine Cuts.after hsettle fun settled => ?_
            refine .ite (.same ((extends_releaseAll _).bind fun _ => extends_pure _)) ?_
            have hbelow : Cuts limit (settled.2.elim never points)
                (settled.2.elim (pure .nothing) full) (settled.2.elim (pure .nothing) cut)
                Visit.IsCancelled := by
              cases settled.2 with
              | none => exact .same (extends_pure _)
              | some siblings => exact hv siblings
            refine hbelow.bind (fun inner => ?_) (fun inner hinner => ?_)
            · cases inner.stop with
              | some stop => exact .same (extends_pure _)
              | none =>
                  exact ih.before (fun _ => extends_pure _) fun outer houter => .pure houter
            · rw [hinner]
              exact .pure rfl
      · rw [hfound]
        exact .release node (.pure rfl)

theorem cuts_visitBelow (step : Step) (demand : Demand) (earlier : List Handle)
    (fuel depth : Nat) (siblings : Siblings) :
    Cuts limit (checkpointsBelow options.unflagged step demand earlier fuel depth siblings)
      (visitBelow options.unflagged step demand earlier fuel depth siblings : WalkM tree Visit)
      (visitBelow (options.flaggedAt limit) step demand earlier fuel depth siblings)
      Visit.IsCancelled := by
  induction fuel generalizing depth siblings with
  | zero => exact .same ((extends_releaseAll _).bind fun _ => extends_pure _)
  | succ fuel ih => exact cuts_visitEach step demand earlier _ (ih (depth + 1)) _

/-! ### Contexts -/

theorem extends_unreachable (node : Handle) (error : BridgeError) :
    Extends (unreachable node error : WalkM tree Expansion) :=
  fun calls => upholds_unreachable (Session.invariant_prefix calls) node error

theorem extends_enumerate (options : ResolveOptions) (node : Handle) :
    Extends (enumerate options node : WalkM tree (Except BridgeError Siblings)) :=
  fun calls => upholds_enumerate (Session.invariant_prefix calls) options node

theorem cuts_filterSelf (step : Step) (node : Handle) :
    Cuts limit (here : Checkpoints tree) (filterSelf options.unflagged step node)
      (filterSelf (options.flaggedAt limit) step node) Expansion.IsCancelled := by
  refine (cuts_checkpoint options limit).before (fun found => ?_) (fun found hfound => ?_)
  · cases found with
    | some cause => exact (extends_release node).bind fun _ => extends_pure _
    | none =>
        have hjudge : Extends (judge options.unflagged step node none : WalkM tree _) :=
          fun calls => upholds_judge (Session.invariant_prefix calls) _ step node none
        refine hjudge.bind fun verdict => ?_
        split
        · exact extends_unreachable node _
        · exact extends_pure _
        · exact (extends_release node).bind fun _ => extends_pure _
  · rw [hfound]
    exact .release node (.pure rfl)

theorem cuts_expandChildren (step : Step) (demand : Demand) (node : Handle) :
    Cuts limit
      (Checkpoints.after (enumerate options.unflagged node) fun found =>
        match found with
        | .error _ => never
        | .ok siblings =>
            checkpointsEach options.unflagged step demand [] false (fun _ => pure .nothing)
              (fun _ => never) siblings.remaining)
      (expandChildren options.unflagged step demand node : WalkM tree Expansion)
      (expandChildren (options.flaggedAt limit) step demand node) Expansion.IsCancelled := by
  refine Cuts.after (extends_enumerate _ node) fun found => ?_
  cases found with
  | error e => exact .same (extends_unreachable node e)
  | ok siblings =>
      refine (cuts_visitEach step demand [] false (fun _ => .same (extends_pure _)) _).before
        (fun visit => ?_) (fun visit hvisit => ?_)
      · split
        · exact (extends_release node).bind fun _ =>
            (extends_releaseAll _).bind fun _ => extends_pure _
        · exact (extends_releaseAll _).bind fun _ =>
            (extends_release node).bind fun _ => extends_pure _
      · rw [hvisit]
        exact .release node (.releaseAll _ (.pure rfl))

theorem cuts_expandDescendants (step : Step) (demand : Demand) (context : Context)
    (selected : List Handle) :
    Cuts limit
      (Checkpoints.after (enumerate options.unflagged context.handle) fun found =>
        match found with
        | .error _ => never
        | .ok siblings =>
            checkpointsBelow options.unflagged step demand
              (if context.nested then selected else []) tree.size 1 siblings)
      (expandDescendants options.unflagged step demand context selected : WalkM tree Expansion)
      (expandDescendants (options.flaggedAt limit) step demand context selected)
      Expansion.IsCancelled := by
  refine Cuts.after (extends_enumerate _ context.handle) fun found => ?_
  cases found with
  | error e => exact .same (extends_unreachable context.handle e)
  | ok siblings =>
      refine (cuts_visitBelow step demand _ tree.size 1 siblings).before
        (fun visit => ?_) (fun visit hvisit => ?_)
      · refine (extends_releaseAll _).bind fun _ => (extends_release _).bind fun _ => ?_
        split <;> exact extends_pure _
      · rw [hvisit]
        exact .releaseAll _ (.release _ (.pure rfl))

theorem cuts_expand (step : Step) (demand : Demand) (context : Context)
    (selected : List Handle) :
    Cuts limit (checkpointsOf options.unflagged step demand context selected)
      (expand options.unflagged step demand context selected : WalkM tree Expansion)
      (expand (options.flaggedAt limit) step demand context selected) Expansion.IsCancelled := by
  unfold checkpointsOf expand
  cases step.axis with
  | self => exact cuts_filterSelf step context.handle
  | child => exact cuts_expandChildren step demand context.handle
  | descendant | any => exact cuts_expandDescendants step demand context selected

theorem cuts_expandAll (step : Step) (demand : Demand) (contexts : List Context)
    (selected : List Handle) :
    Cuts limit (checkpointsAll options.unflagged step demand contexts selected)
      (expandAll options.unflagged step demand contexts selected : WalkM tree Expansion)
      (expandAll (options.flaggedAt limit) step demand contexts selected)
      Expansion.IsCancelled := by
  induction contexts generalizing selected with
  | nil => exact .same (extends_pure _)
  | cons context rest ih =>
      refine .ite (Cuts.after (extends_release _) fun _ => ih selected) ?_
      refine (cuts_expand step demand context selected).bind (fun found => ?_)
        (fun found hfound => ?_)
      · cases found.failure with
        | some error =>
            exact .same ((extends_releaseAll _).bind fun _ =>
              (extends_releaseAll _).bind fun _ => extends_pure _)
        | none => exact ih _
      · rw [hfound]
        exact .releaseAll _ (.releaseAll _ (.pure rfl))

/-! ### Steps -/

/-- Contexts are told apart without a look at the flag. -/
theorem separate_flaggedAt (contexts : List Context) (frontier : List Handle) :
    (separate (options.flaggedAt limit) contexts frontier : WalkM tree (List Context)) =
      separate options.unflagged contexts frontier := by
  induction frontier generalizing contexts with
  | nil => rfl
  | cons node rest ih => simp only [separate, ih]

theorem cuts_applyStep (step : Step) (demand : Demand) (frontier : List Handle) :
    Cuts limit (checkpointsStep options.unflagged step demand frontier)
      (applyStep options.unflagged step demand frontier : WalkM tree Expansion)
      (applyStep (options.flaggedAt limit) step demand frontier) Expansion.IsCancelled := by
  have hsame : (contextsFor (options.flaggedAt limit) step frontier : WalkM tree _) =
      contextsFor options.unflagged step frontier := by
    simp only [contextsFor, separate_flaggedAt]
  have hcontexts : Extends (contextsFor options.unflagged step frontier : WalkM tree _) :=
    fun calls => upholds_contextsFor (Session.invariant_prefix calls) _ step frontier
  rw [applyStep, applyStep, hsame]
  exact Cuts.after hcontexts fun contexts => cuts_expandAll step demand contexts []

theorem cuts_applySteps (options : ResolveOptions) (limit : Nat) (demand : Demand)
    (steps : List Step) (frontier : List Handle) :
    Cuts limit (checkpointsSteps options.unflagged demand steps frontier)
      (applySteps options.unflagged demand steps frontier : WalkM tree Expansion)
      (applySteps (options.flaggedAt limit) demand steps frontier) Expansion.IsCancelled := by
  induction steps generalizing frontier with
  | nil => exact .same (extends_pure _)
  | cons step rest ih =>
      rw [checkpointsSteps, applySteps, applySteps]
      refine (cuts_applyStep step _ frontier).bind (fun found => ?_) (fun found hfound => ?_)
      · exact .ite (.same (extends_pure _)) (ih found.selected)
      · have hfailed : (found.failure.isSome || found.selected.isEmpty) = true := by
          rw [hfound]
          rfl
        rw [if_pos hfailed]
        exact .pure hfound

end Walk

/-! ### Resolutions -/

namespace Session

/-- An outcome is another one, cut short at the first of some states in which enough calls had been
made: the resolution has been cancelled, and its calls are those up to that state, and releases.
Where there is no such state, the outcomes are the same; they are whenever there is a result. -/
def Truncates (start : Session tree) (limit : Nat) (points : List (Walk tree)) {α : Type}
    (full cut : Except ResolveError α × Session tree) : Prop :=
  (∀ a, cut.1 = .ok a → cut = full) ∧
    match points.find? fun seen => start.bridge.calls.size + limit ≤ seen.made with
    | none => cut = full
    | some seen => cut.1 = .error (.interrupted .cancelled) ∧
        start.bridge.callsSince seen.session.bridge <+: start.bridge.callsSince full.2.bridge ∧
        limit ≤ (start.bridge.callsSince seen.session.bridge).length ∧
        ∃ releases, start.bridge.callsSince cut.2.bridge =
            start.bridge.callsSince seen.session.bridge ++ releases ∧
          ∀ call ∈ releases, call.op = .release

namespace Truncates

variable {start : Session tree} {limit : Nat} {points : List (Walk tree)} {α β : Type}
variable {full cut : Except ResolveError α × Session tree}

theorem refl (h : ∀ seen ∈ points, ¬ start.bridge.calls.size + limit ≤ seen.made) :
    start.Truncates limit points full full := by
  have hnone : points.find? (fun seen => start.bridge.calls.size + limit ≤ seen.made) = none :=
    List.find?_eq_none.2 fun seen hseen => by simpa using h seen hseen
  refine ⟨fun _ _ => rfl, ?_⟩
  rw [hnone]

/-- What is made of a result does not change where it is cut. -/
theorem map (h : start.Truncates limit points full cut) (f : α → β) :
    start.Truncates limit points (full.1.map f, full.2) (cut.1.map f, cut.2) := by
  obtain ⟨hok, hcut⟩ := h
  refine ⟨fun b hb => ?_, ?_⟩
  · cases hresult : cut.1 with
    | error e =>
        rw [hresult] at hb
        cases hb
    | ok a => rw [← hresult, hok a hresult]
  · split
    · next hnone =>
        rw [hnone] at hcut
        obtain rfl : cut = full := hcut
        rfl
    · next seen hseen =>
        rw [hseen] at hcut
        exact ⟨by rw [hcut.1]; rfl, hcut.2⟩

end Truncates

/-- A resolution is cut where its walk is. -/
theorem run_truncates_at (options : ResolveOptions) (demand : Demand) (query : Query)
    (root : Handle) (start : Session tree) (limit : Nat) :
    start.Truncates limit (start.checkpoints options.unflagged demand query root)
      (run options.unflagged demand query root start)
      (run (options.flaggedAt (start.bridge.calls.size + limit)) demand query root start) := by
  by_cases hs : root.session ≠ start.id
  · rw [run_of_foreign hs, run_of_foreign hs, checkpoints, if_pos hs]
    exact .refl (List.forall_mem_nil _)
  · have hcuts := Walk.cuts_applySteps options (start.bridge.calls.size + limit) demand
      query.steps [root.view] ⟨start, [], ∅⟩
    unfold run checkpoints
    rw [if_neg hs, if_neg hs, if_neg hs]
    generalize Walk.applySteps options.unflagged demand query.steps [root.view] ⟨start, [], ∅⟩ =
      full at hcuts ⊢
    generalize Walk.applySteps (options.flaggedAt _) demand query.steps [root.view]
      ⟨start, [], ∅⟩ = cut at hcuts ⊢
    obtain ⟨-, hcut⟩ := hcuts
    unfold Truncates
    split at hcut
    · obtain rfl : cut = full := hcut
      exact ⟨fun _ _ => rfl, rfl⟩
    · next seen hfind =>
        obtain ⟨hfailure, ⟨releases, hcalls, hreleases⟩, hseen⟩ := hcut
        have hlimit : start.bridge.calls.size + limit ≤ seen.session.bridge.calls.size := by
          have h := List.find?_some hfind
          exact of_decide_eq_true h
        obtain ⟨⟨selected, failure⟩, walk⟩ := cut
        obtain rfl : failure = some (.interrupted .cancelled) := hfailure
        refine ⟨fun _ h => (by cases h), rfl, ?_, ?_, releases, ?_, hreleases⟩
        · obtain ⟨⟨selected, failure⟩, walk⟩ := full
          cases failure <;> exact List.IsPrefix.drop hseen _
        · rw [Bridge.callsSince, List.length_drop, Array.length_toList]
          omega
        · have hle : start.bridge.calls.size ≤ seen.session.bridge.calls.toList.length := by
            rw [Array.length_toList]
            omega
          rw [Bridge.callsSince, Bridge.callsSince, hcalls, List.drop_append_of_le_length hle]

theorem run_truncates (options : ResolveOptions) (demand : Demand) (query : Query) (root : Handle)
    (start : Session tree) (calls : Nat) :
    start.Truncates (max calls 1) (start.checkpoints options.unflagged demand query root)
      (run options.unflagged demand query root start)
      (run (options.cancelAfter start.bridge.calls.size calls) demand query root start) :=
  run_truncates_at options demand query root start (max calls 1)

/-- A resolution that is cancelled after some number of calls, at least one, is cut short at the
next checkpoint, or not at all, whatever it is asked for. -/
theorem cancelled_truncates (options : ResolveOptions) (query : Query) (root : Handle)
    (start : Session tree) (calls : Nat) :
    let flagged := options.cancelAfter start.bridge.calls.size calls
    let points demand := start.checkpoints options.unflagged demand query root
    start.Truncates (max calls 1) (points .all)
      (resolveDetailed options.unflagged query root start)
      (resolveDetailed flagged query root start) ∧
    start.Truncates (max calls 1) (points .all) (resolve options.unflagged query root start)
      (resolve flagged query root start) ∧
    start.Truncates (max calls 1) (points .first) (findFirst options.unflagged query root start)
      (findFirst flagged query root start) := by
  intro flagged points
  have hall := run_truncates options .all query root start calls
  have hfirst := run_truncates options .first query root start calls
  exact ⟨hall, hall.map Resolution.selected, hfirst.map fun found => found.selected.head?⟩

end Session

end AccessQuery
