/-
**Calls that come late.**

A call is late if the flag was up before it.  Parts of a walk are followed one after another: a call
within the first part is late only where the flag was up when the walk got there, and where the flag
goes up on the way, it is up for all the parts that are left.  So each part has two bounds, one for
either case, and they add up crosswise.

A look at the flag ends what was up before it.  What makes calls between two looks is judging a
candidate, asking for its place or for its children; enumerating the children of a context; and
passing from one context to the next.  Bounds are given where no hidden children are sorted out, no
contexts are told apart, and no candidates are compared.

Main definitions:

* `AccessQuery.Session.late` — the calls made after some number of them, releases aside;
* `AccessQuery.Walk.Paced` — bounds on the calls that a computation makes late;
* `AccessQuery.Step.lead`, `AccessQuery.Step.trail` — the bounds of a step from one context.

Main results:

* `AccessQuery.Walk.Paced.bind`, `AccessQuery.Walk.Paced.guarded` — computations after one another,
  and after a look at the flag;
* `AccessQuery.Walk.paced_visitEach`, `AccessQuery.Walk.paced_visitBelow` — candidates;
* `AccessQuery.Walk.paced_expandAll`, `AccessQuery.Walk.paced_applyStep` — contexts, and a step.
-/

import Mathlib.Data.Bool.Basic
import AccessQuery.Proofs.Diagnostics

set_option relaxedAutoImplicit false
set_option autoImplicit false

namespace AccessQuery

variable {tree : Tree}

/-- From some number of calls on, the flag is up. -/
theorem ResolveOptions.interrupt?_flaggedAt (options : ResolveOptions) {limit made : Nat}
    (h : limit ≤ made) : (options.flaggedAt limit).interrupt? made = some .cancelled := by
  simp [interrupt?, h]

/-! ### Late calls -/

namespace Session

/-- How many calls, releases aside, the record holds beyond some number of calls. -/
def late (limit : Nat) (session : Session tree) : Nat :=
  (session.bridge.calls.toList.drop limit).countP fun call => call.op ≠ .release

theorem late_of_size_le {limit : Nat} {session : Session tree}
    (h : session.bridge.calls.size ≤ limit) : session.late limit = 0 := by
  rw [late, List.drop_eq_nil_of_le (by simpa using h)]
  rfl

theorem late_of_calls_eq {limit : Nat} {before after : Session tree} {made : List Call}
    (h : after.bridge.calls.toList = before.bridge.calls.toList ++ made)
    (hl : limit ≤ before.bridge.calls.size) : after.late limit =
      before.late limit + made.countP fun call => call.op ≠ .release := by
  rw [late, h, List.drop_append_of_le_length (by simpa using hl), List.countP_append]
  rfl

theorem countP_releases {releases : List Call} (h : ∀ call ∈ releases, call.op = .release) :
    (releases.countP fun call => call.op ≠ .release) = 0 :=
  List.countP_eq_zero.2 fun call hc => by simp [h call hc]

/-- Giving handles back is not late. -/
theorem late_of_onlyReleases {limit : Nat} {before after : Session tree}
    (h : before.OnlyReleasesSince after) : after.late limit = before.late limit := by
  obtain ⟨releases, hcalls, hreleases⟩ := h
  by_cases hl : limit ≤ before.bridge.calls.size
  · rw [late_of_calls_eq hcalls hl, countP_releases hreleases, Nat.add_zero]
  · have hbefore : before.late limit = 0 := late_of_size_le (by omega)
    rw [hbefore, late, hcalls, List.drop_append, List.countP_append,
      countP_releases fun call hc => hreleases call (List.mem_of_mem_drop hc)]
    exact hbefore

end Session

namespace Walk

variable {α β : Type} {limit up up' during during' : Nat} {options : ResolveOptions}

/-- A computation makes at most so many calls late where the flag is up when it starts, and at most
so many where the flag goes up on the way. -/
structure Paced (limit up during : Nat) (m : WalkM tree α) : Prop where
  grows : ∀ walk, walk.made ≤ (m walk).2.made
  of_up : ∀ walk, limit ≤ walk.made →
    (m walk).2.session.late limit ≤ walk.session.late limit + up
  of_down : ∀ walk, walk.made < limit → (m walk).2.session.late limit ≤ during

namespace Paced

variable {m n : WalkM tree α} {f : α → WalkM tree β}

theorem weaken (h : Paced limit up during m) (hu : up ≤ up') (hd : during ≤ during') :
    Paced limit up' during' m where
  grows := h.grows
  of_up walk hw := Nat.le_trans (h.of_up walk hw) (Nat.add_le_add_left hu _)
  of_down walk hw := Nat.le_trans (h.of_down walk hw) hd

theorem of_onlyReleases
    (h : ∀ walk : Walk tree, walk.session.OnlyReleasesSince (m walk).2.session) :
    Paced limit 0 0 m where
  grows walk := by
    obtain ⟨releases, hcalls, -⟩ := h walk
    simp [made, ← Array.length_toList, hcalls]
  of_up walk _ := Nat.le_of_eq (Session.late_of_onlyReleases (h walk))
  of_down walk hw := by
    rw [Session.late_of_onlyReleases (h walk), Session.late_of_size_le (Nat.le_of_lt hw)]

theorem pure (a : α) : Paced limit 0 0 (Pure.pure a : WalkM tree α) :=
  .of_onlyReleases fun walk => .refl walk.session

/-- A single call is late only where the flag was up before it. -/
theorem of_calls {refs : List NativeRef} {use : SessionM tree (Except BridgeError α)}
    (h : Session.Calls refs use) : Paced limit 1 0 (inSession use) where
  grows walk := by
    obtain ⟨call, hcalls, -⟩ := h walk.session
    change walk.session.bridge.calls.size ≤ (use walk.session).2.bridge.calls.size
    rw [hcalls, Array.size_push]
    exact Nat.le_succ _
  of_up walk hw := by
    obtain ⟨call, hcalls, -⟩ := h walk.session
    have hlist : (use walk.session).2.bridge.calls.toList =
        walk.session.bridge.calls.toList ++ [call] := by rw [hcalls, Array.toList_push]
    have hone : ([call].countP fun call => call.op ≠ .release) ≤ 1 := List.countP_le_length
    change (use walk.session).2.late limit ≤ walk.session.late limit + 1
    rw [Session.late_of_calls_eq hlist hw]
    exact Nat.add_le_add_left hone _
  of_down walk hw := by
    obtain ⟨call, hcalls, -⟩ := h walk.session
    have hle : (use walk.session).2.bridge.calls.size ≤ limit := by
      rw [hcalls, Array.size_push]
      exact hw
    exact Nat.le_of_eq (Session.late_of_size_le hle)

theorem of_cases (h : ∀ walk, ∃ n : WalkM tree α, Paced limit up during n ∧ m walk = n walk) :
    Paced limit up during m where
  grows walk := by
    obtain ⟨n, hn, heq⟩ := h walk
    exact heq ▸ hn.grows walk
  of_up walk hw := by
    obtain ⟨n, hn, heq⟩ := h walk
    exact heq ▸ hn.of_up walk hw
  of_down walk hw := by
    obtain ⟨n, hn, heq⟩ := h walk
    exact heq ▸ hn.of_down walk hw

/-- If the flag goes up during the first of two computations, it is up when the second starts. -/
theorem bind (hm : Paced limit up during m) (hf : ∀ a, Paced limit up' during' (f a)) :
    Paced limit (up + up') (max (during + up') during') (m >>= f) where
  grows walk := Nat.le_trans (hm.grows walk) ((hf (m walk).1).grows (m walk).2)
  of_up walk hw := by
    have hfirst := hm.of_up walk hw
    have hrest := (hf (m walk).1).of_up (m walk).2 (Nat.le_trans hw (hm.grows walk))
    rw [← Nat.add_assoc]
    exact Nat.le_trans hrest (Nat.add_le_add_right hfirst up')
  of_down walk hw := by
    have hfirst := hm.of_down walk hw
    rcases Nat.lt_or_ge (m walk).2.made limit with hdown | hup
    · exact Nat.le_trans ((hf (m walk).1).of_down (m walk).2 hdown) (Nat.le_max_right _ _)
    · have hrest := (hf (m walk).1).of_up (m walk).2 hup
      exact Nat.le_trans hrest (Nat.le_trans (Nat.add_le_add_right hfirst up')
        (Nat.le_max_left _ _))

/-- What makes no calls leaves the flag as it is. -/
theorem silently (hm : ∀ walk : Walk tree, (m walk).2.session = walk.session)
    (hf : ∀ a, Paced limit up during (f a)) : Paced limit up during (m >>= f) where
  grows walk := by
    have hmade : (m walk).2.made = walk.made := by rw [made, hm walk, made]
    exact hmade ▸ (hf (m walk).1).grows (m walk).2
  of_up walk hw := by
    have hmade : (m walk).2.made = walk.made := by rw [made, hm walk, made]
    have h := (hf (m walk).1).of_up (m walk).2 (hmade.symm ▸ hw)
    rwa [hm walk] at h
  of_down walk hw := by
    have hmade : (m walk).2.made = walk.made := by rw [made, hm walk, made]
    exact (hf (m walk).1).of_down (m walk).2 (hmade.symm ▸ hw)

/-- What makes no call late may come first, -/
theorem after (hm : Paced limit 0 0 m) (hf : ∀ a, Paced limit up during (f a)) :
    Paced limit up (max up during) (m >>= f) := by
  have h := hm.bind hf
  rwa [Nat.zero_add] at h

/-- or last. -/
theorem before (hm : Paced limit up during m) (hf : ∀ a, Paced limit 0 0 (f a)) :
    Paced limit up during (m >>= f) := by
  have h := hm.bind hf
  rwa [Nat.add_zero, Nat.add_zero, Nat.max_zero] at h

theorem ite {p : Prop} [Decidable p] (hm : Paced limit up during m)
    (hn : Paced limit up during n) : Paced limit up during (if p then m else n) := by
  split
  · exact hm
  · exact hn

/-- No call is late where the flag is looked at before, and nothing but releases follows if it is
up. -/
theorem guarded {f : Option Interrupt → WalkM tree α}
    (hstop : ∀ cause, Paced limit 0 0 (f (some cause))) (hgo : Paced limit up during (f none)) :
    Paced limit 0 during (checkpoint (options.flaggedAt limit) >>= f) where
  grows walk := by
    change walk.made ≤ (f ((options.flaggedAt limit).interrupt? walk.made) walk).2.made
    cases (options.flaggedAt limit).interrupt? walk.made with
    | some cause => exact (hstop cause).grows walk
    | none => exact hgo.grows walk
  of_up walk hw := by
    change (f ((options.flaggedAt limit).interrupt? walk.made) walk).2.session.late limit ≤ _
    rw [options.interrupt?_flaggedAt hw]
    exact (hstop .cancelled).of_up walk hw
  of_down walk hw := by
    change (f ((options.flaggedAt limit).interrupt? walk.made) walk).2.session.late limit ≤ _
    cases (options.flaggedAt limit).interrupt? walk.made with
    | some cause => exact Nat.le_trans ((hstop cause).of_down walk hw) (Nat.zero_le during)
    | none => exact hgo.of_down walk hw

end Paced

/-! ### Calls -/

theorem paced_release (node : Handle) : Paced limit 0 0 (release node : WalkM tree Unit) :=
  .of_onlyReleases fun walk => Session.onlyReleasesSince_afterRelease walk.session node

theorem paced_releaseAll (nodes : List Handle) :
    Paced limit 0 0 (releaseAll nodes : WalkM tree Unit) :=
  .of_onlyReleases fun walk => Session.onlyReleasesSince_releaseAll nodes walk.session

theorem paced_diagnose (error : BridgeError) :
    Paced limit 0 0 (diagnose error : WalkM tree Unit) :=
  .of_onlyReleases fun walk => .refl walk.session

/-- Where no hidden children are sorted out, acquiring the children is one call. -/
theorem paced_enumerate (hv : options.visibleOnly = false) (node : Handle) :
    Paced limit 1 0 (enumerate options node : WalkM tree (Except BridgeError Siblings)) := by
  refine (Paced.of_calls (Session.calls_children node)).before fun found => ?_
  cases found with
  | error e => exact .pure _
  | ok siblings =>
      dsimp only
      rw [hv]
      exact .pure _

/-! ### Candidates -/

theorem paced_attributesFor (options : ResolveOptions) (step : Step) (node : Handle) :
    Paced limit 1 0 (attributesFor options step node : WalkM tree _) := by
  have hcall : Paced limit 1 0 (inSession (Session.attributes node) : WalkM tree _) :=
    .of_calls (Session.calls_attributes node)
  refine .of_cases fun walk => ?_
  simp only [attributesFor, bind, StateT.bind, get, getThe, MonadStateOf.get, StateT.get, pure]
  cases walk.prefetched[node.ref]? with
  | some snapshot =>
      refine ⟨fun now => (.ok snapshot, { now with prefetched := now.prefetched.erase node.ref }),
        ?_, rfl⟩
      exact (Paced.of_onlyReleases fun now => .refl now.session).weaken (Nat.zero_le 1)
        (Nat.le_refl 0)
  | none =>
      dsimp only
      split
      · exact ⟨_, hcall, rfl⟩
      · exact ⟨_, (Paced.pure (.ok ∅)).weaken (Nat.zero_le 1) (Nat.le_refl 0), rfl⟩

/-- Without need of the attributes no call is made for them. -/
theorem attributesFor_silent {step : Step} (h : needsAttributes options step = false)
    (node : Handle) (walk : Walk tree) :
    (attributesFor options step node walk).2.session = walk.session := by
  simp only [attributesFor, bind, StateT.bind, get, getThe, MonadStateOf.get, StateT.get, pure]
  cases walk.prefetched[node.ref]? with
  | some snapshot => rfl
  | none =>
      dsimp only
      rw [h]
      rfl

theorem paced_positionFor (predicate : Predicate) (node : Handle)
    (position : Option SiblingPosition) :
    Paced limit (position.isNone && predicate.usesPosition).toNat 0
      (positionFor predicate node position : WalkM tree _) := by
  cases position with
  | some position => exact .pure _
  | none =>
      unfold positionFor
      cases predicate.usesPosition with
      | false => exact .pure _
      | true => exact .of_calls (Session.calls_siblingPosition node)

/-- Whether judging a candidate of unknown place takes two calls. -/
def needsBoth (options : ResolveOptions) (step : Step) : Bool :=
  needsAttributes options step && step.predicate.any Predicate.usesPosition

/-- Judging a candidate makes a call late where it takes two: the place is asked for last. -/
theorem paced_judge (options : ResolveOptions) (step : Step) (node : Handle)
    (position : Option SiblingPosition) :
    Paced limit 2 (position.isNone && needsBoth options step).toNat
      (judge options step node position : WalkM tree (Except BridgeError Verdict)) := by
  let asks : Nat := (position.isNone && step.predicate.any Predicate.usesPosition).toNat
  have hasks : asks ≤ 1 := Bool.toNat_le _
  obtain ⟨f, hjudge, hrest⟩ : ∃ f : Except BridgeError Snapshot → WalkM tree _,
      judge options step node position = attributesFor options step node >>= f ∧
        ∀ found, Paced limit asks 0 (f found) := by
    refine ⟨_, rfl, fun found => ?_⟩
    have hpure (verdict : Except BridgeError Verdict) :
        Paced limit asks 0 (pure verdict : WalkM tree _) :=
      (Paced.pure _).weaken (Nat.zero_le _) (Nat.le_refl 0)
    cases found with
    | error e => exact hpure _
    | ok snapshot =>
        refine .ite (hpure _) (.ite (hpure _) ?_)
        dsimp only [asks]
        cases step.predicate with
        | none => exact (Paced.pure _).weaken (Nat.zero_le _) (Nat.le_refl 0)
        | some predicate =>
            refine (paced_positionFor predicate node position).before fun found => ?_
            cases found <;> exact .pure _
  rw [hjudge]
  cases hneeds : needsAttributes options step with
  | false =>
      exact (Paced.silently (attributesFor_silent hneeds node) hrest).weaken (by omega)
        (Nat.zero_le _)
  | true =>
      have hboth : needsBoth options step = step.predicate.any Predicate.usesPosition := by
        rw [needsBoth, hneeds, Bool.true_and]
      rw [hboth]
      exact ((paced_attributesFor options step node).bind hrest).weaken (by omega) (by simp [asks])

theorem paced_judgeOrHide (options : ResolveOptions) (step : Step) (node : Handle)
    (position : SiblingPosition) :
    Paced limit 2 0 (judgeOrHide options step node position : WalkM tree Verdict) := by
  refine (paced_judge options step node (some position)).before fun found => ?_
  cases found with
  | ok verdict => exact .pure verdict
  | error e => exact (paced_diagnose e).before fun _ => .pure _

theorem paced_openBelow (hv : options.visibleOnly = false) (node : Handle) :
    Paced limit 1 0 (openBelow options node : WalkM tree (Option Siblings)) := by
  refine (paced_enumerate hv node).before fun found => ?_
  cases found with
  | ok siblings => exact .pure _
  | error e => exact (paced_diagnose e).before fun _ => .pure _

/-- The children of a candidate are acquired late where the flag goes up while it is judged. -/
theorem paced_settle (hv : options.visibleOnly = false) (step : Step) (deeper : Bool)
    (node : Handle) (position : SiblingPosition) :
    Paced limit 3 deeper.toNat
      (settle options step [] deeper node position :
        WalkM tree (List Handle × Option Siblings)) := by
  have hbelow (verdict : Verdict) : Paced limit deeper.toNat 0
      (if deeper && verdict != .hidden then openBelow options node else pure none :
        WalkM tree (Option Siblings)) := by
    cases deeper with
    | false => exact .pure none
    | true => exact .ite (paced_openBelow hv node) ((Paced.pure none).weaken (by simp) (by simp))
  have hdrop (below : Option Siblings) : Paced limit 0 0
      (release node >>= fun _ => pure (([] : List Handle), below) : WalkM tree _) :=
    (paced_release node).before fun _ => .pure _
  have hall : Paced limit (2 + deeper.toNat) (max (0 + deeper.toNat) 0)
      (settle options step [] deeper node position : WalkM tree _) := by
    rw [settle_eq]
    refine (paced_judgeOrHide options step node position).bind fun verdict => ?_
    refine (hbelow verdict).before fun below => ?_
    refine .ite ?_ (hdrop below)
    -- there are no nodes selected earlier to compare it with
    exact (Paced.pure false).before fun _ => .ite (hdrop below) (.pure _)
  have hone := deeper.toNat_le
  exact hall.weaken (by omega) (by omega)

/-! ### Visits -/

/-- Between candidates the flag is looked at. -/
theorem paced_visitEach (hv : options.visibleOnly = false) (step : Step) (demand : Demand)
    (deeper : Bool) {visitChildren : Siblings → WalkM tree Visit}
    (hc : ∀ siblings, Paced limit 0 deeper.toNat (visitChildren siblings))
    (candidates : List (Handle × SiblingPosition)) :
    Paced limit 0 deeper.toNat
      (visitEach (options.flaggedAt limit) step demand [] deeper visitChildren candidates) := by
  induction candidates with
  | nil => exact (Paced.pure _).weaken (Nat.le_refl 0) (Nat.zero_le _)
  | cons candidate rest ih =>
      obtain ⟨node, position⟩ := candidate
      have hinner (settled : List Handle × Option Siblings) : Paced limit 0 deeper.toNat
          (settled.2.elim (pure .nothing) visitChildren) := by
        cases settled.2 with
        | none => exact (Paced.pure _).weaken (Nat.le_refl 0) (Nat.zero_le _)
        | some siblings => exact hc siblings
      refine .guarded (fun cause => (paced_release node).before fun _ => .pure _)
        (((paced_settle hv step deeper node position).bind fun settled =>
          (?_ : Paced limit 0 deeper.toNat _)).weaken (Nat.le_refl _) (by simp))
      have hmet (visit : Visit) : Paced limit 0 0
          (releaseAll (settled.2.elim [] Siblings.unvisited) >>= fun _ => pure visit :
            WalkM tree Visit) := (paced_releaseAll _).before fun _ => .pure _
      refine .ite ((hmet _).weaken (Nat.le_refl 0) (Nat.zero_le _)) ?_
      refine ((hinner settled).bind fun inner =>
        (?_ : Paced limit 0 deeper.toNat _)).weaken (Nat.le_refl 0) (by simp)
      cases inner.stop with
      | some stop => exact (Paced.pure _).weaken (Nat.le_refl 0) (Nat.zero_le _)
      | none => exact ih.before fun _ => .pure _

theorem paced_visitBelow (hv : options.visibleOnly = false) (step : Step) (demand : Demand)
    (fuel depth : Nat) (siblings : Siblings) :
    Paced limit 0 (options.allowsBelow depth).toNat
      (visitBelow (options.flaggedAt limit) step demand [] fuel depth siblings :
        WalkM tree Visit) := by
  induction fuel generalizing depth siblings with
  | zero =>
      have hdrop : Paced limit 0 0 (releaseAll siblings.unvisited >>= fun _ => pure .nothing :
          WalkM tree Visit) := (paced_releaseAll _).before fun _ => .pure _
      exact hdrop.weaken (Nat.le_refl 0) (Nat.zero_le _)
  | succ fuel ih =>
      have hdeeper : (options.allowsBelow (depth + 1)).toNat ≤ (options.allowsBelow depth).toNat :=
        Bool.toNat_le_toNat (Bool.le_iff_imp.2 (options.allowsBelow_anti (Nat.le_succ depth)))
      exact paced_visitEach hv step demand _
        (fun below => (ih (depth + 1) below).weaken (Nat.le_refl 0) hdeeper) _

/-! ### Contexts -/

theorem paced_unreachable (node : Handle) (error : BridgeError) :
    Paced limit 0 0 (unreachable node error : WalkM tree Expansion) :=
  .ite (.pure _) ((paced_diagnose error).before fun _ => (paced_release node).before fun _ =>
    .pure _)

theorem paced_filterSelf (options : ResolveOptions) (step : Step) (node : Handle) :
    Paced limit 0 (needsBoth options step).toNat
      (filterSelf (options.flaggedAt limit) step node : WalkM tree Expansion) := by
  have hdrop (found : Expansion) : Paced limit 0 0
      (release node >>= fun _ => pure found : WalkM tree Expansion) :=
    (paced_release node).before fun _ => .pure _
  refine .guarded (fun cause => hdrop _)
    ((paced_judge (options.flaggedAt limit) step node none).before fun found => ?_)
  cases found with
  | error e => exact paced_unreachable node e
  | ok verdict =>
      cases verdict with
      | accepted => exact .pure _
      | hidden | rejected => exact hdrop _

theorem paced_expandChildren (hv : options.visibleOnly = false) (step : Step) (demand : Demand)
    (node : Handle) :
    Paced limit 1 0
      (expandChildren (options.flaggedAt limit) step demand node : WalkM tree Expansion) := by
  have hchildren : Paced limit 1 0 (enumerate (options.flaggedAt limit) node : WalkM tree _) :=
    paced_enumerate hv node
  refine hchildren.before fun found => ?_
  cases found with
  | error e => exact paced_unreachable node e
  | ok siblings =>
      refine (paced_visitEach hv step demand false (fun _ => .pure _) _).before fun visit => ?_
      split
      · exact (paced_release node).before fun _ => (paced_releaseAll _).before fun _ => .pure _
      · exact (paced_releaseAll _).before fun _ => (paced_release node).before fun _ => .pure _

theorem paced_expandDescendants (hv : options.visibleOnly = false) (step : Step)
    (demand : Demand) {context : Context} (hn : context.nested = false)
    (selected : List Handle) :
    Paced limit 1 (options.allowsBelow 1).toNat
      (expandDescendants (options.flaggedAt limit) step demand context selected :
        WalkM tree Expansion) := by
  have hvisit (siblings : Siblings) : Paced limit 0 (options.allowsBelow 1).toNat
      (visitBelow (options.flaggedAt limit) step demand (if context.nested then selected else [])
        tree.size 1 siblings : WalkM tree Visit) := by
    rw [hn]
    exact paced_visitBelow hv step demand tree.size 1 siblings
  have hchildren : Paced limit 1 0
      (enumerate (options.flaggedAt limit) context.handle : WalkM tree _) :=
    paced_enumerate hv context.handle
  refine (hchildren.bind fun found =>
    (?_ : Paced limit 0 (options.allowsBelow 1).toNat _)).weaken (Nat.le_refl 1) (by simp)
  cases found with
  | error e => exact (paced_unreachable _ e).weaken (Nat.le_refl 0) (Nat.zero_le _)
  | ok siblings =>
      refine (hvisit siblings).before fun visit => ?_
      refine (paced_releaseAll _).before fun _ => (paced_release _).before fun _ => ?_
      split <;> exact .pure _

end Walk

/-- The calls that a step makes before its first look at the flag. -/
def Step.lead (step : Step) : Nat :=
  if step.axis = .self then 0 else 1

theorem Step.lead_le (step : Step) : step.lead ≤ 1 := by
  unfold lead
  split <;> omega

/-- The calls that a step may make late where the flag goes up on the way. -/
def Step.trail (options : ResolveOptions) (step : Step) : Nat :=
  match step.axis with
  | .self => (Walk.needsBoth options step).toNat
  | .child => 0
  | .descendant | .any => (options.allowsBelow 1).toNat

theorem Step.trail_le (options : ResolveOptions) (step : Step) : step.trail options ≤ 1 := by
  unfold trail
  cases step.axis with
  | self => exact Bool.toNat_le _
  | child => exact Nat.zero_le 1
  | descendant | any => exact Bool.toNat_le _

/-- A step goes down, if at all, from no more than one node, and has no hidden children to sort
out. -/
def Step.GoesStraight (options : ResolveOptions) (step : Step) (frontier : List Handle) : Prop :=
  step.axis ≠ .self → options.visibleOnly = false ∧ frontier.length ≤ 1

namespace Walk

variable {limit : Nat} {options : ResolveOptions}

theorem paced_expand {step : Step} (hv : step.axis ≠ .self → options.visibleOnly = false)
    (demand : Demand) {context : Context} (hn : context.nested = false)
    (selected : List Handle) :
    Paced limit step.lead (step.trail options)
      (expand (options.flaggedAt limit) step demand context selected : WalkM tree Expansion) := by
  unfold expand Step.lead Step.trail
  cases ha : step.axis with
  | self => exact paced_filterSelf options step context.handle
  | child => exact paced_expandChildren (hv (by simp [ha])) step demand context.handle
  | descendant | any => exact paced_expandDescendants (hv (by simp [ha])) step demand hn selected

/-- Between contexts the flag is not looked at. -/
theorem paced_expandAll {step : Step} (hv : step.axis ≠ .self → options.visibleOnly = false)
    (demand : Demand) (contexts : List Context) (hn : ∀ context ∈ contexts, context.nested = false)
    (selected : List Handle) :
    Paced limit (contexts.length * step.lead)
      (step.trail options + (contexts.length - 1) * step.lead)
      (expandAll (options.flaggedAt limit) step demand contexts selected :
        WalkM tree Expansion) := by
  induction contexts generalizing selected with
  | nil => exact (Paced.pure _).weaken (Nat.zero_le _) (Nat.zero_le _)
  | cons context rest ih =>
      obtain ⟨hcontext, hrest⟩ := List.forall_mem_cons.1 hn
      have hup : step.lead + rest.length * step.lead = (rest.length + 1) * step.lead := by
        rw [Nat.succ_mul, Nat.add_comm]
      have hduring : (rest.length - 1) * step.lead ≤ rest.length * step.lead :=
        Nat.mul_le_mul_right _ (Nat.sub_le _ _)
      rw [List.length_cons, Nat.add_sub_cancel]
      refine .ite ?_ ?_
      · exact ((paced_release _).after fun _ => ih hrest selected).weaken (by omega) (by omega)
      · refine ((paced_expand hv demand hcontext selected).bind fun found =>
          (?_ : Paced limit (rest.length * step.lead)
            (step.trail options + (rest.length - 1) * step.lead) _)).weaken (by omega) (by omega)
        cases found.failure with
        | none => exact ih hrest _
        | some error =>
            have hdrop : Paced limit 0 0 (releaseAll (selected ++ found.selected) >>= fun _ =>
                releaseAll (rest.map Context.handle) >>= fun _ => pure ⟨[], some error⟩ :
                WalkM tree Expansion) :=
              (paced_releaseAll _).before fun _ => (paced_releaseAll _).before fun _ => .pure _
            exact hdrop.weaken (Nat.zero_le _) (Nat.zero_le _)

/-! ### Steps -/

/-- From the root alone, or from a node alone, no contexts are told apart. -/
theorem contextsFor_of_length_le (options : ResolveOptions) {step : Step} {frontier : List Handle}
    (h : step.axis = .descendant ∨ step.axis = .any → frontier.length ≤ 1) :
    (contextsFor options step frontier : WalkM tree (List Context)) =
      pure (frontier.map fun node => ⟨node, false⟩) :=
  if_neg fun hc => absurd (h hc.1) (Nat.not_le.2 hc.2)

/-- A step that goes straight makes at most one call late. -/
theorem paced_applyStep {step : Step} {frontier : List Handle}
    (h : step.GoesStraight options frontier) (demand : Demand) :
    Paced limit step.lead (step.trail options)
      (applyStep (options.flaggedAt limit) step demand frontier : WalkM tree Expansion) := by
  have hall : Paced limit (frontier.length * step.lead)
      (step.trail options + (frontier.length - 1) * step.lead)
      (expandAll (options.flaggedAt limit) step demand
        (frontier.map fun node => ⟨node, false⟩) [] : WalkM tree Expansion) := by
    rw [← List.length_map fun node : Handle => (⟨node, false⟩ : Context)]
    exact paced_expandAll (fun ha => (h ha).1) demand _ (by simp) []
  have hone : step.axis = .descendant ∨ step.axis = .any → frontier.length ≤ 1 :=
    fun ha => (h (by rcases ha with ha | ha <;> simp [ha])).2
  rw [applyStep, contextsFor_of_length_le _ hone, pure_bind]
  by_cases ha : step.axis = .self
  · have hlead : step.lead = 0 := if_pos ha
    rw [hlead] at hall ⊢
    exact hall
  · have hlength := (h ha).2
    refine hall.weaken (Nat.le_trans (Nat.mul_le_mul_right _ hlength) (Nat.one_mul _).le) ?_
    rw [Nat.sub_eq_zero_of_le hlength, Nat.zero_mul, Nat.add_zero]

end Walk

end AccessQuery
