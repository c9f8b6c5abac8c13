/-
**Every failed call is noted once.**

A resolution passes over the calls that fail and notes each of them, with one exception: where the
root cannot be read there is no result, and the error says why.  Calls fail in many places: when
candidates are judged, when children are enumerated or looked through for those that are showing,
when parents are looked up, and when nodes are compared.  In each of them the failure is noted
before anything else is called, so the notes are the errors in the record, in their order.  Releases
are the only calls whose failures are not noted.

Nothing is assumed of the session, of the root, or of the options: a resolution that is interrupted
has noted as much up to then.

Main definitions:

* `AccessQuery.Call.fault?` — why a call failed that is no release;
* `AccessQuery.Walk.Noted`, `AccessQuery.Walk.Unnoted` — states between which every failure has been
  noted, or every one but the last;
* `AccessQuery.Walk.Notes`, `AccessQuery.Walk.Reports`, `AccessQuery.Walk.Concludes` — computations
  that lead to such states;
* `AccessQuery.Session.AccountsFor` — what the outcome of a resolution says of the failed calls.

Main results:

* `AccessQuery.Walk.reports_judge`, `AccessQuery.Walk.reports_enumerate` — failures that are left to
  be noted;
* `AccessQuery.Walk.notes_visitBelow`, `AccessQuery.Walk.notes_contextsFor` — failures that are
  noted at once;
* `AccessQuery.Walk.concludes_applySteps` — the whole walk;
* `AccessQuery.Session.diagnostics_accounted` — the notes of a resolution, or its error.
-/

import AccessQuery.Proofs.Truncation
import AccessQuery.Proofs.Walk.Rooted

set_option relaxedAutoImplicit false
set_option autoImplicit false

namespace AccessQuery

variable {tree : Tree}

/-! ### Failed calls -/

/-- Why a call failed, if it did and was no release. -/
def Call.fault? : Call → Option BridgeError
  | .children _ (.error e) | .parent _ (.error e) | .attributes _ (.error e)
  | .siblingIndex _ (.error e) | .sameObject _ _ (.error e) => some e
  | _ => none

theorem Call.fault?_of_release {call : Call} (h : call.op = .release) : call.fault? = none := by
  cases call <;> first | rfl | cases h

theorem Call.filterMap_fault?_releases {releases : List Call}
    (h : ∀ call ∈ releases, call.op = .release) : releases.filterMap Call.fault? = [] :=
  List.filterMap_eq_nil_iff.2 fun call hc => Call.fault?_of_release (h call hc)

namespace Session

variable {α : Type}

/-- A use of a session makes one call, on some references; the record tells whether it failed. -/
def Calls (refs : List NativeRef) (use : SessionM tree (Except BridgeError α)) : Prop :=
  ∀ session, ∃ call, (use session).2.bridge.calls = session.bridge.calls.push call ∧
    call.given = refs ∧
    call.fault? = match (use session).1 with
      | .ok _ => none
      | .error e => some e

theorem calls_children (handle : Handle) :
    Calls [handle.ref] (Session.children handle : SessionM tree _) := by
  intro session
  simp only [Session.children, acquireChildren, onBridge, bind, StateT.bind, pure]
  rcases session.bridge.children_cases handle with ⟨e, he⟩ | ⟨gained, after, hg, hok⟩
  · rw [he]
    exact ⟨_, rfl, rfl, rfl⟩
  · rw [hok]
    refine ⟨.children handle.ref (.ok ((gained.map Holding.handle).map Handle.ref)), ?_, rfl, rfl⟩
    rw [← hg.calls_eq]
    exact congrArg Bridge.calls (bridge_trackAll _ _)

theorem calls_parent (handle : Handle) :
    Calls [handle.ref] (Session.parent handle : SessionM tree _) := by
  intro session
  simp only [Session.parent, onBridge, bind, StateT.bind, pure]
  rcases session.bridge.parent_cases handle with ⟨e, he⟩ | hnone | ⟨x, after, hg, hok⟩
  · rw [he]
    exact ⟨_, rfl, rfl, rfl⟩
  · rw [hnone]
    exact ⟨_, rfl, rfl, rfl⟩
  · rw [hok]
    refine ⟨.parent handle.ref (.ok (some x.handle.ref)), ?_, rfl, rfl⟩
    rw [← hg.calls_eq]
    rfl

theorem calls_attributes (handle : Handle) :
    Calls [handle.ref] (Session.attributes handle : SessionM tree _) := by
  intro session
  simp only [Session.attributes, onBridge, Bridge.attributes, bind, StateT.bind, get, getThe,
    MonadStateOf.get, StateT.get, pure]
  cases session.bridge.locate .attributes handle <;> exact ⟨_, rfl, rfl, rfl⟩

theorem calls_siblingPosition (handle : Handle) :
    Calls [handle.ref] (Session.siblingPosition handle : SessionM tree _) := by
  intro session
  simp only [Session.siblingPosition, onBridge, Bridge.siblingIndex, bind, StateT.bind, get, getThe,
    MonadStateOf.get, StateT.get, pure]
  cases session.bridge.locate .siblingIndex handle <;> exact ⟨_, rfl, rfl, rfl⟩

theorem calls_sameObject (a b : Handle) :
    Calls [a.ref, b.ref] (Session.sameObject a b : SessionM tree _) := by
  intro session
  refine ⟨_, rfl, rfl, ?_⟩
  change Call.fault? (.sameObject a.ref b.ref (Session.sameObject a b session).1) = _
  cases (Session.sameObject a b session).1 <;> rfl

end Session

namespace Walk

variable {α β : Type} {refs : List NativeRef} {error : BridgeError}

/-! ### Between two states -/

/-- Every call that failed between two states has been noted, unless it was a release. -/
def Noted (before after : Walk tree) : Prop :=
  ∃ made : List Call,
    after.session.bridge.calls.toList = before.session.bridge.calls.toList ++ made ∧
      after.diagnostics = before.diagnostics ++ made.filterMap Call.fault?

/-- So has every one but the last call, which was made on some references and failed. -/
def Unnoted (refs : List NativeRef) (error : BridgeError) (before after : Walk tree) : Prop :=
  ∃ (made : List Call) (call : Call),
    after.session.bridge.calls.toList = before.session.bridge.calls.toList ++ (made ++ [call]) ∧
      call.given = refs ∧ call.fault? = some error ∧
      after.diagnostics = before.diagnostics ++ made.filterMap Call.fault?

theorem Noted.refl (walk : Walk tree) : Noted walk walk :=
  ⟨[], (List.append_nil _).symm, (List.append_nil _).symm⟩

theorem Noted.trans {a b c : Walk tree} (hab : Noted a b) (hbc : Noted b c) : Noted a c := by
  obtain ⟨first, hb, hfirst⟩ := hab
  obtain ⟨rest, hc, hrest⟩ := hbc
  refine ⟨first ++ rest, ?_, ?_⟩
  · rw [hc, hb, List.append_assoc]
  · rw [hrest, hfirst, List.filterMap_append, List.append_assoc]

theorem Noted.unnoted {a b c : Walk tree} (hab : Noted a b) (hbc : Unnoted refs error b c) :
    Unnoted refs error a c := by
  obtain ⟨first, hb, hfirst⟩ := hab
  obtain ⟨rest, call, hc, hgiven, hfault, hrest⟩ := hbc
  refine ⟨first ++ rest, call, ?_, hgiven, hfault, ?_⟩
  · rw [hc, hb, List.append_assoc, List.append_assoc]
  · rw [hrest, hfirst, List.filterMap_append, List.append_assoc]

/-- Noting the last failure leaves none to be noted. -/
theorem Unnoted.diagnose {before now : Walk tree} (h : Unnoted refs error before now) :
    Noted before (diagnose error now).2 := by
  obtain ⟨made, call, hcalls, -, hfault, hdiagnostics⟩ := h
  refine ⟨made ++ [call], hcalls, ?_⟩
  change now.diagnostics ++ [error] = _
  rw [hdiagnostics, List.filterMap_append, List.append_assoc, List.filterMap_cons, hfault,
    List.filterMap_nil]

/-- Nothing need be noted of releases. -/
theorem noted_of_onlyReleases {before after : Walk tree}
    (h : before.session.OnlyReleasesSince after.session)
    (hd : after.diagnostics = before.diagnostics) : Noted before after := by
  obtain ⟨releases, hcalls, hreleases⟩ := h
  refine ⟨releases, hcalls, ?_⟩
  rw [hd, Call.filterMap_fault?_releases hreleases, List.append_nil]

/-! ### Computations -/

/-- A computation notes every failure. -/
def Notes (m : WalkM tree α) : Prop :=
  ∀ walk, Noted walk (m walk).2

/-- A computation notes every failure, except that of a last call on some references, with which it
fails itself. -/
def Reports (refs : List NativeRef) (m : WalkM tree (Except BridgeError α)) : Prop :=
  ∀ walk, match (m walk).1 with
    | .ok _ => Noted walk (m walk).2
    | .error e => Unnoted refs e walk (m walk).2

namespace Notes

theorem pure (a : α) : Notes (Pure.pure a : WalkM tree α) :=
  Noted.refl

theorem bind {m : WalkM tree α} {f : α → WalkM tree β} (hm : Notes m) (hf : ∀ a, Notes (f a)) :
    Notes (m >>= f) :=
  fun walk => (hm walk).trans (hf (m walk).1 (m walk).2)

theorem ite {p : Prop} [Decidable p] {m n : WalkM tree α} (hm : Notes m) (hn : Notes n) :
    Notes (if p then m else n) := by
  split
  · exact hm
  · exact hn

/-- What makes no calls and notes nothing has nothing to note. -/
theorem of_eq {m : WalkM tree α} (hs : ∀ walk, (m walk).2.session = walk.session)
    (hd : ∀ walk, (m walk).2.diagnostics = walk.diagnostics) : Notes m :=
  fun walk => noted_of_onlyReleases ((hs walk).symm ▸ .refl walk.session) (hd walk)

/-- A computation that may precede one which leaves its failure to be noted. -/
theorem reports {m : WalkM tree α} {f : α → WalkM tree (Except BridgeError β)} (hm : Notes m)
    (hf : ∀ a, Reports refs (f a)) : Reports refs (m >>= f) := by
  intro walk
  have hnext := hf (m walk).1 (m walk).2
  change match (f (m walk).1 (m walk).2).1 with
    | .ok _ => Noted walk (f (m walk).1 (m walk).2).2
    | .error e => Unnoted refs e walk (f (m walk).1 (m walk).2).2
  split at hnext
  · exact (hm walk).trans hnext
  · exact (hm walk).unnoted hnext

end Notes

namespace Reports

variable {m : WalkM tree (Except BridgeError α)}

theorem ok (a : α) : Reports refs (Pure.pure (.ok a) : WalkM tree (Except BridgeError α)) :=
  Noted.refl

theorem ite {p : Prop} [Decidable p] {n : WalkM tree (Except BridgeError α)}
    (hm : Reports refs m) (hn : Reports refs n) : Reports refs (if p then m else n) := by
  split
  · exact hm
  · exact hn

/-- A failure is passed on. -/
theorem bind {f : Except BridgeError α → WalkM tree (Except BridgeError β)} (hm : Reports refs m)
    (hok : ∀ a, Reports refs (f (.ok a))) (herror : ∀ e, f (.error e) = Pure.pure (.error e)) :
    Reports refs (m >>= f) := by
  intro walk
  have hfirst := hm walk
  change match (f (m walk).1 (m walk).2).1 with
    | .ok _ => Noted walk (f (m walk).1 (m walk).2).2
    | .error e => Unnoted refs e walk (f (m walk).1 (m walk).2).2
  cases hr : (m walk).1 with
  | error e =>
      rw [hr] at hfirst
      rw [herror]
      exact hfirst
  | ok a =>
      rw [hr] at hfirst
      have hnext := hok a (m walk).2
      split at hnext
      · exact hfirst.trans hnext
      · exact hfirst.unnoted hnext

/-- A failure is noted, before anything else is done. -/
theorem noting {f : Except BridgeError α → WalkM tree β} {g : BridgeError → WalkM tree β}
    (hm : Reports refs m) (hok : ∀ a, Notes (f (.ok a)))
    (herror : ∀ e, f (.error e) = diagnose e >>= fun _ => g e) (hg : ∀ e, Notes (g e)) :
    Notes (m >>= f) := by
  intro walk
  have hfirst := hm walk
  change Noted walk (f (m walk).1 (m walk).2).2
  cases hr : (m walk).1 with
  | error e =>
      rw [hr] at hfirst
      rw [herror]
      exact hfirst.diagnose.trans (hg e _)
  | ok a =>
      rw [hr] at hfirst
      exact hfirst.trans (hok a _)

end Reports

/-! ### Calls -/

theorem notes_release (node : Handle) : Notes (release node : WalkM tree Unit) :=
  fun walk => noted_of_onlyReleases (Session.onlyReleasesSince_afterRelease walk.session node) rfl

theorem notes_releaseAll (nodes : List Handle) : Notes (releaseAll nodes : WalkM tree Unit) :=
  fun walk => noted_of_onlyReleases (Session.onlyReleasesSince_releaseAll nodes walk.session) rfl

theorem notes_checkpoint (options : ResolveOptions) :
    Notes (checkpoint options : WalkM tree (Option Interrupt)) :=
  .of_eq (fun _ => rfl) fun _ => rfl

/-- A call that fails is left to be noted. -/
theorem reports_inSession {use : SessionM tree (Except BridgeError α)}
    (h : Session.Calls refs use) : Reports refs (inSession use) := by
  intro walk
  obtain ⟨call, hcalls, hgiven, hfault⟩ := h walk.session
  have hlist : (inSession use walk).2.session.bridge.calls.toList =
      walk.session.bridge.calls.toList ++ [call] := by
    change (use walk.session).2.bridge.calls.toList = _
    rw [hcalls, Array.toList_push]
  have hsame : (inSession use walk).1 = (use walk.session).1 := rfl
  rw [hsame]
  cases hr : (use walk.session).1 with
  | ok a =>
      rw [hr] at hfault
      refine ⟨[call], hlist, ?_⟩
      rw [List.filterMap_cons, hfault]
      exact (List.append_nil _).symm
  | error e =>
      rw [hr] at hfault
      exact ⟨[], call, hlist, hgiven, hfault, (List.append_nil _).symm⟩

theorem notes_parentOf (node : Handle) : Notes (parentOf node : WalkM tree (Option Handle)) :=
  (reports_inSession (Session.calls_parent node)).noting (fun _ => .pure _) (fun _ => rfl)
    fun _ => .pure none

theorem notes_same (a b : Handle) : Notes (same a b : WalkM tree Bool) :=
  (reports_inSession (Session.calls_sameObject a b)).noting (fun _ => .pure _) (fun _ => rfl)
    fun _ => .pure false

theorem notes_isAmong (node : Handle) (others : List Handle) :
    Notes (isAmong node others : WalkM tree Bool) := by
  induction others with
  | nil => exact .pure false
  | cons other rest ih => exact (notes_same node other).bind fun _ => .ite (.pure true) ih

/-! ### Candidates -/

theorem notes_isShowing (child : Handle) : Notes (isShowing child : WalkM tree Bool) := by
  refine (reports_inSession (Session.calls_attributes child)).noting (fun snapshot => ?_)
    (fun _ => rfl) fun _ => .pure false
  exact .ite (.of_eq (fun _ => rfl) fun _ => rfl) (.pure false)

theorem notes_keepFrom {keep : Handle → WalkM tree Bool} (hk : ∀ handle, Notes (keep handle))
    (handles : List Handle) : Notes (Siblings.keepFrom release keep handles) := by
  induction handles with
  | nil => exact .pure []
  | cons handle rest ih =>
      refine (hk handle).bind fun _ => .ite ?_ ?_
      · exact ih.bind fun kept => .pure (handle :: kept)
      · exact (notes_release handle).bind fun _ => ih

theorem reports_enumerate (options : ResolveOptions) (node : Handle) :
    Reports [node.ref] (enumerate options node : WalkM tree _) := by
  refine (reports_inSession (Session.calls_children node)).bind (fun siblings => ?_) fun _ => rfl
  refine .ite (Notes.reports (.bind ?_ fun _ => .pure _) fun shown => .ok shown) (.ok siblings)
  exact notes_keepFrom notes_isShowing siblings.unvisited

theorem reports_attributesFor (options : ResolveOptions) (step : Step) (node : Handle) :
    Reports [node.ref] (attributesFor options step node : WalkM tree _) := by
  intro walk
  simp only [attributesFor, bind, StateT.bind, get, getThe, MonadStateOf.get, StateT.get, pure]
  cases walk.prefetched[node.ref]? with
  | some snapshot => exact ⟨[], (List.append_nil _).symm, (List.append_nil _).symm⟩
  | none =>
      by_cases hn : needsAttributes options step = true
      · simp only [hn, if_true]
        exact reports_inSession (Session.calls_attributes node) walk
      · simp only [hn]
        exact Noted.refl walk

theorem reports_positionFor (predicate : Predicate) (node : Handle)
    (position : Option SiblingPosition) :
    Reports [node.ref] (positionFor predicate node position : WalkM tree _) := by
  cases position with
  | some position => exact .ok position
  | none =>
      refine .ite (reports_inSession ?_) (.ok SiblingPosition.alone)
      exact Session.calls_siblingPosition node

/-- A candidate is not judged where one of the calls on it fails. -/
theorem reports_judge (options : ResolveOptions) (step : Step) (node : Handle)
    (position : Option SiblingPosition) :
    Reports [node.ref] (judge options step node position : WalkM tree _) := by
  refine (reports_attributesFor options step node).bind (fun snapshot => ?_) fun _ => rfl
  refine .ite (.ok _) (.ite (.ok _) ?_)
  cases step.predicate with
  | none => exact .ok _
  | some predicate =>
      exact (reports_positionFor predicate node position).bind (fun _ => .ok _) fun _ => rfl

theorem notes_judgeOrHide (options : ResolveOptions) (step : Step) (node : Handle)
    (position : SiblingPosition) :
    Notes (judgeOrHide options step node position : WalkM tree Verdict) :=
  (reports_judge options step node (some position)).noting (fun _ => .pure _) (fun _ => rfl)
    fun _ => .pure Verdict.hidden

theorem notes_openBelow (options : ResolveOptions) (node : Handle) :
    Notes (openBelow options node : WalkM tree (Option Siblings)) :=
  (reports_enumerate options node).noting (fun _ => .pure _) (fun _ => rfl) fun _ => .pure none

theorem notes_settle (options : ResolveOptions) (step : Step) (earlier : List Handle)
    (deeper : Bool) (node : Handle) (position : SiblingPosition) :
    Notes (settle options step earlier deeper node position : WalkM tree _) := by
  rw [settle_eq]
  refine (notes_judgeOrHide options step node position).bind fun verdict => ?_
  refine (Notes.ite (notes_openBelow options node) (.pure none)).bind fun below => ?_
  have hdrop : @Notes tree _ (do release node; return (([] : List Handle), below)) :=
    (notes_release node).bind fun _ => .pure _
  exact .ite ((notes_isAmong node earlier).bind fun _ => .ite hdrop (.pure _)) hdrop

/-! ### Visits -/

theorem notes_visitEach (options : ResolveOptions) (step : Step) (demand : Demand)
    (earlier : List Handle) (deeper : Bool) {visitChildren : Siblings → WalkM tree Visit}
    (hv : ∀ siblings, Notes (visitChildren siblings))
    (candidates : List (Handle × SiblingPosition)) :
    Notes (visitEach options step demand earlier deeper visitChildren candidates) := by
  induction candidates with
  | nil => exact .pure _
  | cons candidate rest ih =>
      obtain ⟨node, position⟩ := candidate
      refine (notes_checkpoint options).bind fun found => ?_
      cases found with
      | some cause => exact (notes_release node).bind fun _ => .pure _
      | none =>
          refine (notes_settle options step earlier deeper node position).bind fun settled => ?_
          refine .ite ((notes_releaseAll _).bind fun _ => .pure _) ?_
          have hbelow : Notes (settled.2.elim (pure .nothing) visitChildren) := by
            cases settled.2 with
            | none => exact .pure _
            | some siblings => exact hv siblings
          refine hbelow.bind fun inner => ?_
          cases inner.stop with
          | some stop => exact .pure _
          | none => exact ih.bind fun _ => .pure _

theorem notes_visitBelow (options : ResolveOptions) (step : Step) (demand : Demand)
    (earlier : List Handle) (fuel depth : Nat) (siblings : Siblings) :
    Notes (visitBelow options step demand earlier fuel depth siblings : WalkM tree Visit) := by
  induction fuel generalizing depth siblings with
  | zero => exact (notes_releaseAll _).bind fun _ => .pure _
  | succ fuel ih => exact notes_visitEach options step demand earlier _ (ih (depth + 1)) _

theorem notes_climb (targets : List Handle) (fuel : Nat) (node : Option Handle) :
    Notes (climb targets fuel node : WalkM tree Bool) := by
  induction fuel generalizing node with
  | zero =>
      cases node with
      | none => exact .pure false
      | some ancestor => exact (notes_release ancestor).bind fun _ => .pure false
  | succ fuel ih =>
      cases node with
      | none => exact .pure false
      | some ancestor =>
          refine (notes_isAmong ancestor targets).bind fun _ => .ite ?_ ?_
          · exact (notes_release ancestor).bind fun _ => .pure true
          · exact (notes_parentOf ancestor).bind fun above =>
              (notes_release ancestor).bind fun _ => ih above

theorem notes_isBelow (node : Handle) (contexts : List Context) :
    Notes (isBelow node contexts : WalkM tree Bool) :=
  (notes_parentOf node).bind fun above => notes_climb _ tree.size above

theorem notes_separate (options : ResolveOptions) (contexts : List Context)
    (frontier : List Handle) :
    Notes (separate options contexts frontier : WalkM tree (List Context)) := by
  induction frontier generalizing contexts with
  | nil => exact .pure contexts
  | cons node rest ih =>
      rw [separate_cons]
      refine (Notes.ite (.pure false) (notes_isBelow node contexts)).bind fun nested => ?_
      exact .ite (ih _) (.ite (ih _) ((notes_release node).bind fun _ => ih contexts))

theorem notes_contextsFor (options : ResolveOptions) (step : Step) (frontier : List Handle) :
    Notes (contextsFor options step frontier : WalkM tree (List Context)) :=
  .ite (notes_separate options [] frontier) (.pure _)

/-! ### Contexts -/

/-- What a failure says of the calls made since a state: if the root was unreachable, a call on it
was the last one but for releases.  Otherwise every failed call has been noted, whether or not the
walk was interrupted.  It is not within a walk that a root turns out to be foreign. -/
def Closing (root : NativeRef) (before : Walk tree) : Option ResolveError → Walk tree → Prop
  | none, after | some (.interrupted _), after => Noted before after
  | some (.rootUnreachable e), after =>
      ∃ now, Unnoted [root] e before now ∧ now.session.OnlyReleasesSince after.session
  | some (.sessionMismatch ..), _ => False

/-- A computation notes every failure, or fails itself because the root was unreachable. -/
def Concludes (root : NativeRef) (m : WalkM tree Expansion) : Prop :=
  ∀ walk, Closing root walk (m walk).1.failure (m walk).2

namespace Closing

variable {root : NativeRef} {failure : Option ResolveError}

theorem of_noted {a b c : Walk tree} (hab : Noted a b) (hbc : Closing root b failure c) :
    Closing root a failure c := by
  unfold Closing at hbc ⊢
  split at hbc
  · exact hab.trans hbc
  · exact hab.trans hbc
  · obtain ⟨now, hnow, hreleases⟩ := hbc
    exact ⟨now, hab.unnoted hnow, hreleases⟩
  · exact hbc

/-- Releases may follow. -/
theorem releaseAll {before now : Walk tree} (h : Closing root before failure now)
    (nodes : List Handle) : Closing root before failure (Walk.releaseAll nodes now).2 := by
  unfold Closing at h ⊢
  split at h
  · exact h.trans (notes_releaseAll nodes now)
  · exact h.trans (notes_releaseAll nodes now)
  · obtain ⟨last, hlast, hreleases⟩ := h
    exact ⟨last, hlast, hreleases.trans (Session.onlyReleasesSince_releaseAll nodes now.session)⟩
  · exact h

end Closing

theorem concludes_completed {root : NativeRef} (selected : List Handle) :
    Concludes root (pure ⟨selected, none⟩ : WalkM tree Expansion) :=
  Noted.refl

theorem concludes_interrupted {root : NativeRef} (selected : List Handle) (cause : Interrupt) :
    Concludes root (pure ⟨selected, some (.interrupted cause)⟩ : WalkM tree Expansion) :=
  Noted.refl

theorem Notes.thenConcludes {root : NativeRef} {m : WalkM tree α} {f : α → WalkM tree Expansion}
    (hm : Notes m) (hf : ∀ a, Concludes root (f a)) : Concludes root (m >>= f) :=
  fun walk => (hf (m walk).1 (m walk).2).of_noted (hm walk)

theorem Concludes.ite {root : NativeRef} {p : Prop} [Decidable p] {m n : WalkM tree Expansion}
    (hm : Concludes root m) (hn : Concludes root n) : Concludes root (if p then m else n) := by
  split
  · exact hm
  · exact hn

/-- A view that cannot be read is that of the root; what else cannot be read is noted. -/
theorem closing_unreachable {root : NativeRef} {node : Handle} {before now : Walk tree}
    (hroot : node.isBorrowed = true → node.ref = root) (h : Unnoted [node.ref] error before now) :
    Closing root before (unreachable node error now).1.failure
      (unreachable node error now).2 := by
  unfold unreachable
  by_cases hb : node.isBorrowed = true
  · rw [if_pos hb]
    exact ⟨now, hroot hb ▸ h, .refl now.session⟩
  · rw [if_neg hb]
    exact h.diagnose.trans (notes_release node _)

/-- A failure that is left to be noted may be that of the root. -/
theorem Reports.concludes {root : NativeRef} {node : Handle}
    {m : WalkM tree (Except BridgeError α)} {f : Except BridgeError α → WalkM tree Expansion}
    (hroot : node.isBorrowed = true → node.ref = root) (hm : Reports [node.ref] m)
    (hok : ∀ a, Concludes root (f (.ok a))) (herror : ∀ e, f (.error e) = unreachable node e) :
    Concludes root (m >>= f) := by
  intro walk
  have hfirst := hm walk
  change Closing root walk (f (m walk).1 (m walk).2).1.failure (f (m walk).1 (m walk).2).2
  cases hr : (m walk).1 with
  | error e =>
      rw [hr] at hfirst
      rw [herror]
      exact closing_unreachable hroot hfirst
  | ok a =>
      rw [hr] at hfirst
      exact (hok a _).of_noted hfirst

variable {root : NativeRef}

theorem concludes_filterSelf (options : ResolveOptions) (step : Step) {node : Handle}
    (hroot : node.isBorrowed = true → node.ref = root) :
    Concludes root (filterSelf options step node : WalkM tree Expansion) := by
  refine (notes_checkpoint options).thenConcludes fun found => ?_
  cases found with
  | some cause =>
      exact (notes_release node).thenConcludes fun _ => concludes_interrupted [] cause
  | none =>
      refine (reports_judge options step node none).concludes hroot (fun verdict => ?_)
        fun _ => rfl
      cases verdict with
      | accepted => exact concludes_completed [node]
      | hidden | rejected =>
          exact (notes_release node).thenConcludes fun _ => concludes_completed []

theorem concludes_expandChildren (options : ResolveOptions) (step : Step) (demand : Demand)
    {node : Handle} (hroot : node.isBorrowed = true → node.ref = root) :
    Concludes root (expandChildren options step demand node : WalkM tree Expansion) := by
  refine (reports_enumerate options node).concludes hroot (fun siblings => ?_) fun _ => rfl
  refine (notes_visitEach options step demand [] false (fun _ => .pure _)
    siblings.remaining).thenConcludes fun visit => ?_
  split
  · exact (notes_release node).thenConcludes fun _ => (notes_releaseAll _).thenConcludes fun _ =>
      concludes_interrupted _ _
  · exact (notes_releaseAll _).thenConcludes fun _ => (notes_release node).thenConcludes fun _ =>
      concludes_completed _

theorem concludes_expandDescendants (options : ResolveOptions) (step : Step) (demand : Demand)
    {context : Context} (hroot : context.handle.isBorrowed = true → context.handle.ref = root)
    (selected : List Handle) :
    Concludes root
      (expandDescendants options step demand context selected : WalkM tree Expansion) := by
  refine (reports_enumerate options context.handle).concludes hroot (fun siblings => ?_)
    fun _ => rfl
  refine (notes_visitBelow options step demand _ tree.size 1 siblings).thenConcludes
    fun visit => ?_
  refine (notes_releaseAll _).thenConcludes fun _ => (notes_release _).thenConcludes fun _ => ?_
  split
  · exact concludes_interrupted _ _
  · exact concludes_completed _

theorem concludes_expand (options : ResolveOptions) (step : Step) (demand : Demand)
    {context : Context} (hroot : context.handle.isBorrowed = true → context.handle.ref = root)
    (selected : List Handle) :
    Concludes root (expand options step demand context selected : WalkM tree Expansion) := by
  unfold expand
  cases step.axis with
  | self => exact concludes_filterSelf options step hroot
  | child => exact concludes_expandChildren options step demand hroot
  | descendant | any => exact concludes_expandDescendants options step demand hroot selected

theorem concludes_expandAll (options : ResolveOptions) (step : Step) (demand : Demand)
    (contexts : List Context)
    (hroot : ∀ context ∈ contexts, context.handle.isBorrowed = true → context.handle.ref = root)
    (selected : List Handle) :
    Concludes root (expandAll options step demand contexts selected : WalkM tree Expansion) := by
  induction contexts generalizing selected with
  | nil => exact concludes_completed _
  | cons context rest ih =>
      obtain ⟨hcontext, hrest⟩ := List.forall_mem_cons.1 hroot
      refine .ite ((notes_release _).thenConcludes fun _ => ih hrest selected) fun walk => ?_
      have hfirst := concludes_expand options step demand hcontext selected walk
      simp only [bind, StateT.bind]
      generalize expand options step demand context selected walk = outcome at hfirst
      obtain ⟨⟨found, failure⟩, now⟩ := outcome
      cases failure with
      | none => exact (ih hrest (selected ++ found) now).of_noted hfirst
      | some error => exact (hfirst.releaseAll (selected ++ found)).releaseAll _

/-! ### Steps -/

theorem concludes_applyStep (options : ResolveOptions) (step : Step) (demand : Demand)
    {root : Handle} {frontier : List Handle} (h : IsRooted root frontier) :
    Concludes root.ref (applyStep options step demand frontier : WalkM tree Expansion) := by
  intro walk
  have hcontexts := returns_contextsFor options step frontier walk
  refine (concludes_expandAll options step demand _ (fun context hc hb => ?_) [] _).of_noted
    (notes_contextsFor options step frontier walk)
  rw [h.eq_view (hcontexts.mem (List.mem_map_of_mem hc)) hb]
  rfl

theorem concludes_applySteps (options : ResolveOptions) (demand : Demand) (steps : List Step)
    {root : Handle} {frontier : List Handle} (h : IsRooted root frontier) :
    Concludes root.ref (applySteps options demand steps frontier : WalkM tree Expansion) := by
  induction steps generalizing frontier with
  | nil => exact concludes_completed _
  | cons step rest ih =>
      intro walk
      rw [applySteps]
      generalize (if rest.isEmpty then demand else .all) = demand'
      have hfirst := concludes_applyStep options step demand' h walk
      have hfrontier := returns_applyStep options step demand' h walk
      simp only [bind, StateT.bind]
      generalize applyStep options step demand' frontier walk = outcome at hfirst hfrontier
      obtain ⟨⟨found, failure⟩, now⟩ := outcome
      cases failure with
      | some error => exact hfirst
      | none =>
          by_cases he : found.isEmpty = true
          · simp only [he]
            exact hfirst
          · simp only [he]
            exact (ih hfrontier now).of_noted hfirst

end Walk

/-! ### Resolutions -/

namespace Session

/-- What the outcome of a resolution says of the calls that failed during it.  Its notes are their
errors.  An unreachable root means that a call on the root failed, after which nothing but releases
was called. -/
def AccountsFor (start : Session tree) (root : Handle) (outcome : Except ResolveError Resolution)
    (after : Session tree) : Prop :=
  match outcome with
  | .ok found => found.diagnostics = (start.bridge.callsSince after.bridge).filterMap Call.fault?
  | .error (.rootUnreachable e) => ∃ (earlier : List Call) (call : Call) (releases : List Call),
      start.bridge.callsSince after.bridge = earlier ++ call :: releases ∧
        call.given = [root.ref] ∧ call.fault? = some e ∧ ∀ c ∈ releases, c.op = .release
  | .error (.sessionMismatch ..) => start.bridge.callsSince after.bridge = []
  | .error (.interrupted _) => True

/-- The notes of a resolution are the errors of the calls that failed during it, in order, releases
aside; and a root is called unreachable on account of a failed call on it, which is the last one but
for releases. -/
theorem diagnostics_accounted (options : ResolveOptions) (query : Query) (root : Handle)
    (start : Session tree) :
    start.AccountsFor root (resolveDetailed options query root start).1
      (resolveDetailed options query root start).2 := by
  have hsince {calls : List Call} {now : Bridge tree}
      (h : now.calls.toList = start.bridge.calls.toList ++ calls) :
      start.bridge.callsSince now = calls := by
    rw [Bridge.callsSince, h, ← Array.length_toList, List.drop_left]
  have hwalk := Walk.concludes_applySteps options .all query.steps
    (Or.inl rfl : Walk.IsRooted root [root.view]) (⟨start, [], ∅⟩ : Walk tree)
  unfold resolveDetailed run
  by_cases hs : root.session ≠ start.id
  · rw [if_pos hs]
    exact Bridge.callsSince_self _
  · rw [if_neg hs]
    generalize Walk.applySteps options .all query.steps [root.view] ⟨start, [], ∅⟩ = found at hwalk
    obtain ⟨⟨selected, failure⟩, walk⟩ := found
    cases failure with
    | none =>
        obtain ⟨made, hcalls, hdiagnostics⟩ := hwalk
        exact hdiagnostics.trans (congrArg (List.filterMap Call.fault?) (hsince hcalls).symm)
    | some error =>
        cases error with
        | rootUnreachable e =>
            obtain ⟨now, ⟨made, call, hcalls, hgiven, hfault, -⟩, releases, hafter, hreleases⟩ :=
              hwalk
            refine ⟨made, call, releases, hsince ?_, hgiven, hfault, hreleases⟩
            rw [hafter, hcalls]
            simp
        | sessionMismatch expected found => exact hwalk.elim
        | interrupted cause => trivial

end Session

end AccessQuery
