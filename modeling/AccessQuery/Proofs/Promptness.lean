/-
**How promptly a cancelled resolution stops.**

Once its flag is up, a resolution goes on to the next look at the flag, and gives handles back from
there.  So the calls that it still makes, releases aside, are those that it would have made up to
that look anyway.  There may be any number of them: hidden children are sorted out, contexts are
told apart, and contexts without children are passed by, without a look.

At most one call comes late where a walk goes down from single nodes with nothing to sort out, and
never straight after a step that may itself make a call late.

Main definitions:

* `AccessQuery.Walk.OnceUp` — what comes of a computation that starts with the flag up;
* `AccessQuery.Walk.GoesStraight`, `AccessQuery.Session.GoesStraight` — where at most one call comes
  late;
* `AccessQuery.Session.nextLook` — the state in which the flag is found up.

Main results:

* `AccessQuery.Walk.onceUp_applyStep` — no step selects anything with the flag up;
* `AccessQuery.Walk.late_applySteps` — a walk that goes straight;
* `AccessQuery.Session.cancelled_late` — the calls that a resolution makes late;
* `AccessQuery.Session.cancelled_overruns` — there may be more than one.
-/

import AccessQuery.Proofs.Pacing
import AccessQuery.Proofs.Resolution

set_option relaxedAutoImplicit false
set_option autoImplicit false

namespace AccessQuery

variable {tree : Tree}

namespace Walk

variable {limit : Nat} {options : ResolveOptions}

/-! ### Once the flag is up -/

/-- A computation that starts with the flag up ends with a result of some kind. -/
def OnceUp {α : Type} (limit : Nat) (m : WalkM tree α) (Kind : α → Prop) : Prop :=
  ∀ walk, limit ≤ walk.made → Kind (m walk).1

theorem made_le_of_extends {α : Type} {m : WalkM tree α} (h : Extends m) (walk : Walk tree) :
    walk.made ≤ (m walk).2.made := by
  have hprefix := (h walk.session.bridge.calls.toList walk List.prefix_rfl).length_le
  rwa [Array.length_toList, Array.length_toList] at hprefix

namespace OnceUp

variable {α β : Type} {m n : WalkM tree α} {f : α → WalkM tree β}
variable {Kind : α → Prop} {Kind' : β → Prop}

theorem pure {a : α} (h : Kind a) : OnceUp limit (Pure.pure a : WalkM tree α) Kind :=
  fun _ _ => h

theorem bind (hm : OnceUp limit m Kind) (he : Extends m)
    (hf : ∀ a, Kind a → OnceUp limit (f a) Kind') : OnceUp limit (m >>= f) Kind' :=
  fun walk hw => hf _ (hm walk hw) (m walk).2 (Nat.le_trans hw (made_le_of_extends he walk))

/-- The flag stays up whatever is done. -/
theorem after (he : Extends m) (hf : ∀ a, OnceUp limit (f a) Kind') :
    OnceUp limit (m >>= f) Kind' :=
  fun walk hw => hf _ (m walk).2 (Nat.le_trans hw (made_le_of_extends he walk))

theorem ite {p : Prop} [Decidable p] (hm : OnceUp limit m Kind) (hn : OnceUp limit n Kind) :
    OnceUp limit (if p then m else n) Kind := by
  split
  · exact hm
  · exact hn

/-- At a look at the flag the computation is cut. -/
theorem guarded {f : Option Interrupt → WalkM tree β}
    (h : OnceUp limit (f (some .cancelled)) Kind') :
    OnceUp limit (checkpoint (options.flaggedAt limit) >>= f) Kind' := by
  intro walk hw
  change Kind' (f ((options.flaggedAt limit).interrupt? walk.made) walk).1
  rw [options.interrupt?_flaggedAt hw]
  exact h walk hw

end OnceUp

theorem onceUp_visitEach (step : Step) (demand : Demand) (earlier : List Handle) (deeper : Bool)
    (visitChildren : Siblings → WalkM tree Visit)
    (candidates : List (Handle × SiblingPosition)) :
    OnceUp limit
      (visitEach (options.flaggedAt limit) step demand earlier deeper visitChildren candidates)
      (·.selected = []) := by
  cases candidates with
  | nil => exact .pure rfl
  | cons candidate rest =>
      exact .guarded (.after (extends_release _) fun _ => .pure rfl)

theorem onceUp_visitBelow (step : Step) (demand : Demand) (earlier : List Handle)
    (fuel depth : Nat) (siblings : Siblings) :
    OnceUp limit
      (visitBelow (options.flaggedAt limit) step demand earlier fuel depth siblings :
        WalkM tree Visit) (·.selected = []) := by
  cases fuel with
  | zero => exact .after (extends_releaseAll _) fun _ => .pure rfl
  | succ fuel => exact onceUp_visitEach step demand earlier _ _ _

theorem onceUp_unreachable (node : Handle) (error : BridgeError) :
    OnceUp limit (unreachable node error : WalkM tree Expansion) (·.selected = []) := by
  unfold unreachable
  exact .ite (.pure rfl) fun _ _ => rfl

theorem onceUp_expandChildren (step : Step) (demand : Demand) (node : Handle) :
    OnceUp limit
      (expandChildren (options.flaggedAt limit) step demand node : WalkM tree Expansion)
      (·.selected = []) := by
  refine .after (extends_enumerate _ node) fun found => ?_
  cases found with
  | error e => exact onceUp_unreachable node e
  | ok siblings =>
      refine (onceUp_visitEach step demand [] false _ _).bind ?_ fun visit hvisit => ?_
      · exact fun calls => upholds_visitEach (Session.invariant_prefix calls) _ step demand []
          false (fun _ => .pure _) _
      · split
        · exact .after (extends_release _) fun _ => .after (extends_releaseAll _) fun _ =>
            .pure hvisit
        · exact .after (extends_releaseAll _) fun _ => .after (extends_release _) fun _ =>
            .pure hvisit

theorem onceUp_expandDescendants (step : Step) (demand : Demand) (context : Context)
    (selected : List Handle) :
    OnceUp limit
      (expandDescendants (options.flaggedAt limit) step demand context selected :
        WalkM tree Expansion) (·.selected = []) := by
  refine .after (extends_enumerate _ context.handle) fun found => ?_
  cases found with
  | error e => exact onceUp_unreachable _ e
  | ok siblings =>
      refine (onceUp_visitBelow step demand _ tree.size 1 siblings).bind ?_ fun visit hvisit => ?_
      · exact fun calls => upholds_visitBelow (Session.invariant_prefix calls) _ step demand _
          tree.size 1 siblings
      · refine .after (extends_releaseAll _) fun _ => .after (extends_release _) fun _ => ?_
        split <;> exact .pure hvisit

theorem onceUp_expand (step : Step) (demand : Demand) (context : Context)
    (selected : List Handle) :
    OnceUp limit
      (expand (options.flaggedAt limit) step demand context selected : WalkM tree Expansion)
      (·.selected = []) := by
  unfold expand
  cases step.axis with
  | self => exact .guarded (.after (extends_release _) fun _ => .pure rfl)
  | child => exact onceUp_expandChildren step demand context.handle
  | descendant | any => exact onceUp_expandDescendants step demand context selected

theorem onceUp_expandAll (step : Step) (demand : Demand) (contexts : List Context) :
    OnceUp limit
      (expandAll (options.flaggedAt limit) step demand contexts [] : WalkM tree Expansion)
      (·.selected = []) := by
  induction contexts with
  | nil => exact .pure rfl
  | cons context rest ih =>
      refine .ite (.after (extends_release _) fun _ => ih) ?_
      refine (onceUp_expand step demand context []).bind ?_ fun found hfound => ?_
      · exact fun calls => upholds_expand (Session.invariant_prefix calls) _ step demand context []
      · cases found.failure with
        | some error => exact fun _ _ => rfl
        | none => rwa [hfound, List.append_nil]

/-- A step that starts with the flag up selects nothing. -/
theorem onceUp_applyStep (step : Step) (demand : Demand) (frontier : List Handle) :
    OnceUp limit
      (applyStep (options.flaggedAt limit) step demand frontier : WalkM tree Expansion)
      (·.selected = []) :=
  .after (fun calls => upholds_contextsFor (Session.invariant_prefix calls) _ step frontier)
    fun contexts => onceUp_expandAll step demand contexts

/-! ### Steps after one another -/

/-- Every step goes straight from what the steps before it select, and none that goes down follows
straight on one that may make a call late. -/
def GoesStraight (options : ResolveOptions) (steps : List Step) (frontier : List Handle)
    (walk : Walk tree) : Prop :=
  ∀ before step after, steps = before ++ step :: after →
    step.GoesStraight options
      (applySteps options.unflagged .all before frontier walk).1.selected ∧
    (step.axis ≠ .self → ∀ last ∈ before.getLast?, last.trail options = 0)

namespace GoesStraight

variable {step : Step} {rest : List Step} {frontier : List Handle} {walk : Walk tree}

theorem head (h : GoesStraight options (step :: rest) frontier walk) :
    step.GoesStraight options frontier :=
  (h [] step rest rfl).1

theorem tail (h : GoesStraight options (step :: rest) frontier walk) {selected : List Handle}
    {now : Walk tree}
    (hs : applyStep options.unflagged step .all frontier walk = (⟨selected, none⟩, now))
    (hne : selected ≠ []) : GoesStraight options rest selected now := by
  intro before next after hrest
  obtain ⟨hnext, hlast⟩ := h (step :: before) next after (by rw [hrest, List.cons_append])
  have hbefore : applySteps options.unflagged .all (step :: before) frontier walk =
      applySteps options.unflagged .all before selected now := by
    rw [applySteps_cons (by rwa [ite_self]), if_neg (by simpa using hne)]
  rw [hbefore] at hnext
  refine ⟨hnext, fun ha last hl => hlast ha last ?_⟩
  rw [List.getLast?_cons, Option.mem_def.1 hl]
  rfl

/-- One call may come late at the end of a step or at the start of the next, but not both. -/
theorem trail_add_lead_le (h : GoesStraight options (step :: rest) frontier walk) :
    step.trail options + rest.head?.elim 0 Step.lead ≤ 1 := by
  cases rest with
  | nil => exact step.trail_le options
  | cons next after =>
      by_cases ha : next.axis = .self
      · have hlead : next.lead = 0 := if_pos ha
        simpa [hlead] using step.trail_le options
      · have htrail : step.trail options = 0 := (h [step] next after rfl).2 ha step rfl
        have hlead : next.lead = 1 := if_neg ha
        simp [htrail, hlead]

end GoesStraight

/-- A step that the flag does not end is taken as without one. -/
theorem applyStep_of_completed {step : Step} {demand : Demand} {frontier selected : List Handle}
    {walk now : Walk tree} (h : applyStep (options.flaggedAt limit) step demand frontier walk =
      (⟨selected, none⟩, now)) :
    applyStep options.unflagged step demand frontier walk = (⟨selected, none⟩, now) := by
  have hcuts : Cuts limit _ (applyStep options.unflagged step demand frontier : WalkM tree _)
      (applyStep (options.flaggedAt limit) step demand frontier) Expansion.IsCancelled :=
    cuts_applyStep step demand frontier
  obtain ⟨-, hcut⟩ := hcuts walk
  rw [h] at hcut
  split at hcut
  · exact hcut.symm
  · exact nomatch hcut.1

/-- Where the flag is up when a walk starts, no more than the first step makes calls late. -/
theorem late_applySteps_of_up {steps : List Step} {frontier : List Handle} {walk : Walk tree}
    (h : GoesStraight options steps frontier walk) (demand : Demand) (hw : limit ≤ walk.made) :
    (applySteps (options.flaggedAt limit) demand steps frontier walk).2.session.late limit ≤
      walk.session.late limit + steps.head?.elim 0 Step.lead := by
  cases steps with
  | nil => exact Nat.le_refl _
  | cons step rest =>
      have hfirst := (paced_applyStep h.head (if rest.isEmpty then demand else .all)).of_up walk hw
      have hnone : (applyStep (options.flaggedAt limit) step
          (if rest.isEmpty then demand else .all) frontier walk).1.selected = [] :=
        onceUp_applyStep step _ frontier walk hw
      rcases hstep : applyStep (options.flaggedAt limit) step
        (if rest.isEmpty then demand else .all) frontier walk with ⟨⟨selected, failure⟩, now⟩
      rw [hstep] at hfirst hnone
      obtain rfl : selected = [] := hnone
      rw [applySteps_cons hstep, if_pos (by simp)]
      exact hfirst

/-- At most one call comes late in a walk that goes straight. -/
theorem late_applySteps {steps : List Step} {frontier : List Handle} {walk : Walk tree}
    (h : GoesStraight options steps frontier walk) (demand : Demand) (hw : walk.made < limit) :
    (applySteps (options.flaggedAt limit) demand steps frontier walk).2.session.late limit ≤ 1 := by
  induction steps generalizing frontier walk with
  | nil =>
      refine Nat.le_trans (Nat.le_of_eq ?_) (Nat.zero_le 1)
      exact Session.late_of_size_le (Nat.le_of_lt hw)
  | cons step rest ih =>
      have hfirst :=
        (paced_applyStep h.head (if rest.isEmpty then demand else .all)).of_down walk hw
      rcases hstep : applyStep (options.flaggedAt limit) step
        (if rest.isEmpty then demand else .all) frontier walk with ⟨⟨selected, failure⟩, now⟩
      rw [hstep] at hfirst
      rw [applySteps_cons hstep]
      by_cases hends : (failure.isSome || selected.isEmpty) = true
      · rw [if_pos hends]
        exact Nat.le_trans hfirst (step.trail_le options)
      rw [if_neg hends]
      obtain ⟨hok, hne⟩ : failure = none ∧ selected ≠ [] := by simpa using hends
      subst hok
      cases rest with
      | nil => exact Nat.le_trans hfirst (step.trail_le options)
      | cons next after =>
          -- the step has not been cut, so the next one starts as in the walk without a flag
          have hrest := h.tail (applyStep_of_completed hstep) hne
          rcases Nat.lt_or_ge now.made limit with hdown | hup
          · exact ih hrest hdown
          · have hlate := late_applySteps_of_up hrest demand hup
            have hboth := h.trail_add_lead_le
            dsimp only at hfirst
            omega

end Walk

/-! ### Resolutions -/

namespace Session

variable {start : Session tree} {options : ResolveOptions} {query : Query} {root : Handle}

/-- Every step of a resolution goes straight, and none that goes down follows straight on one that
may make a call late. -/
def GoesStraight (start : Session tree) (options : ResolveOptions) (query : Query)
    (root : Handle) : Prop :=
  Walk.GoesStraight options query.steps [root.view] ⟨start, [], ∅⟩

/-- A single step goes straight, unless hidden children are sorted out. -/
theorem goesStraight_single (start : Session tree) {step : Step} (root : Handle)
    (h : step.axis ≠ .self → options.visibleOnly = false) :
    start.GoesStraight options (.single step) root := by
  intro before last after hsteps
  obtain ⟨rfl, rfl, -⟩ : before = [] ∧ last = step ∧ after = [] := by
    have hone : [step] = before ++ last :: after := hsteps
    rw [List.singleton_eq_append_iff] at hone
    simpa using hone
  exact ⟨fun ha => ⟨h ha, Nat.le_refl 1⟩, fun _ _ hl => by cases hl⟩

/-- The state in which a resolution looks at the flag for the first time after some number of calls
has been made; or the last one, if it never does. -/
def nextLook (limit : Nat) (points : List (Walk tree)) (last : Session tree) : Session tree :=
  (points.find? fun seen => limit ≤ seen.made).elim last Walk.session

theorem late_eq_callsSince (start : Session tree) (made : Nat) (after : Session tree) :
    after.late (start.bridge.calls.size + made) =
      ((start.bridge.callsSince after.bridge).drop made).countP fun call => call.op ≠ .release := by
  rw [late, Bridge.callsSince, List.drop_drop]

/-- What is cut short makes no call late but those up to the cut. -/
theorem Truncates.late_eq {α : Type} {made : Nat} {points : List (Walk tree)}
    {full cut : Except ResolveError α × Session tree} (h : start.Truncates made points full cut) :
    cut.2.late (start.bridge.calls.size + made) =
      (nextLook (start.bridge.calls.size + made) points full.2).late
        (start.bridge.calls.size + made) := by
  obtain ⟨-, hcut⟩ := h
  unfold nextLook
  split at hcut
  · next hfind =>
      rw [hfind, hcut]
      rfl
  · next seen hfind =>
      obtain ⟨-, -, hmade, releases, hcalls, hreleases⟩ := hcut
      rw [hfind, Option.elim_some, late_eq_callsSince, late_eq_callsSince, hcalls,
        List.drop_append_of_le_length hmade, List.countP_append, countP_releases hreleases,
        Nat.add_zero]

/-- At most one call comes late in a run that goes straight. -/
theorem late_run (h : start.GoesStraight options query root) (demand : Demand) (made : Nat) :
    (run (options.flaggedAt (start.bridge.calls.size + made)) demand query root start).2.late
      (start.bridge.calls.size + made) ≤ 1 := by
  have hnone : start.late (start.bridge.calls.size + made) = 0 :=
    late_of_size_le (Nat.le_add_right _ _)
  by_cases hs : root.session ≠ start.id
  · rw [run_of_foreign hs, hnone]
    exact Nat.zero_le 1
  · have hwalk : (Walk.applySteps (options.flaggedAt (start.bridge.calls.size + made)) demand
        query.steps [root.view] ⟨start, [], ∅⟩).2.session.late (start.bridge.calls.size + made) ≤
          1 := by
      cases made with
      | zero =>
          refine Nat.le_trans (Walk.late_applySteps_of_up h demand (Nat.le_refl _)) ?_
          rw [hnone, Nat.zero_add]
          cases query.steps.head? with
          | none => exact Nat.zero_le 1
          | some step => exact step.lead_le
      | succ made => exact Walk.late_applySteps h demand (Nat.lt_add_of_pos_right made.succ_pos)
    unfold run
    rw [if_neg hs]
    generalize Walk.applySteps _ demand query.steps [root.view] ⟨start, [], ∅⟩ = found at hwalk ⊢
    obtain ⟨⟨selected, failure⟩, walk⟩ := found
    cases failure <;> exact hwalk

/-- Once the flag is up, a resolution makes the calls up to its next look at the flag, and releases.
If it goes straight, that is at most one call, at whatever call the flag goes up. -/
theorem cancelled_late (options : ResolveOptions) (query : Query) (root : Handle)
    (start : Session tree) (made : Nat) :
    let limit := start.bridge.calls.size + made
    let full := options.unflagged
    let flagged := options.flaggedAt limit
    let points demand := start.checkpoints full demand query root
    ((resolveDetailed flagged query root start).2.late limit =
        (nextLook limit (points .all) (resolveDetailed full query root start).2).late limit ∧
      (resolve flagged query root start).2.late limit =
        (nextLook limit (points .all) (resolve full query root start).2).late limit ∧
      (findFirst flagged query root start).2.late limit =
        (nextLook limit (points .first) (findFirst full query root start).2).late limit) ∧
    (start.GoesStraight options query root →
      (resolveDetailed flagged query root start).2.late limit ≤ 1 ∧
      (resolve flagged query root start).2.late limit ≤ 1 ∧
      (findFirst flagged query root start).2.late limit ≤ 1) := by
  intro limit full flagged points
  have hall := run_truncates_at options .all query root start made
  have hfirst := run_truncates_at options .first query root start made
  exact ⟨⟨hall.late_eq, hall.late_eq, hfirst.late_eq⟩, fun h =>
    ⟨late_run h .all made, late_run h .all made, late_run h .first made⟩⟩

/-- Below the root of a tree in which a panel cannot be asked for its children; the flag goes up
when its attributes have been read. -/
theorem cancelled_late_opening :
    let tree := ((Tree.single (Element.new "frame" "")).addChild ⟨0, by decide⟩
      (Element.new "panel" "")).addChild ⟨1, by decide⟩ (Element.new "label" "")
    let opened := opening tree ⟨0, by decide⟩ fun op place =>
      if op = .children ∧ place = 1 then some 7 else none
    let options : ResolveOptions := {}
    let query := Query.single ⟨.descendant, .role "label", none⟩
    let limit := opened.2.bridge.calls.size + 2
    let full := options.unflagged
    let flagged := options.flaggedAt limit
    let points demand := opened.2.checkpoints full demand query opened.1
    opened.2.GoesStraight options query opened.1 ∧
    ((resolveDetailed flagged query opened.1 opened.2).2.late limit =
        (nextLook limit (points .all)
          (resolveDetailed full query opened.1 opened.2).2).late limit ∧
      (resolve flagged query opened.1 opened.2).2.late limit =
        (nextLook limit (points .all) (resolve full query opened.1 opened.2).2).late limit ∧
      (findFirst flagged query opened.1 opened.2).2.late limit =
        (nextLook limit (points .first) (findFirst full query opened.1 opened.2).2).late limit) ∧
    (resolveDetailed flagged query opened.1 opened.2).2.late limit ≤ 1 ∧
    (resolve flagged query opened.1 opened.2).2.late limit ≤ 1 ∧
    (findFirst flagged query opened.1 opened.2).2.late limit ≤ 1 := by
  intro tree opened options query limit full flagged points
  have hstraight : opened.2.GoesStraight options query opened.1 :=
    goesStraight_single opened.2 opened.1 fun _ => rfl
  have hlate := cancelled_late options query opened.1 opened.2 2
  exact ⟨hstraight, hlate.1, hlate.2 hstraight⟩

/-- Where hidden children are to be sorted out, every child of the root is read although the flag is
up from the start. -/
theorem cancelled_overruns :
    let label := (Element.new "label" "").setStates "showing"
    let tree := (((Tree.single (Element.new "frame" "")).addChild ⟨0, by decide⟩
      label).addChild ⟨0, by decide⟩ label).addChild ⟨0, by decide⟩ label
    let opened := opening tree ⟨0, by decide⟩ fun _ _ => none
    let options : ResolveOptions := { visibleOnly := true }
    let query := Query.single ⟨.child, .role "label", none⟩
    (resolve options.cancelled query opened.1 opened.2).2.late opened.2.bridge.calls.size = 4 := by
  decide +kernel

end Session

end AccessQuery
