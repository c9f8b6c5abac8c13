/-
**The moves of a walk.**

A resolution changes its walk by six moves only: it gives a handle back, asks for a parent, compares
two nodes, acquires the children of a node, judges a candidate, and notes a failed call.  So a
property of walks that each of these preserves, for every handle, is preserved by every stretch of a
resolution, however it ends.

A walk is reached from a session if moves lead to it from the start of a resolution.  They may be
made in any order and on any handles, so that many more walks are reached than any resolution comes
through.

Main definitions:

* `AccessQuery.Walk.Preserves` — the computations that preserve a property of the walk;
* `AccessQuery.Walk.Gentle` — the properties that the moves preserve which look at no candidate;
* `AccessQuery.Walk.Invariant` — the properties that every move preserves;
* `AccessQuery.Walk.Reached` — the walks that moves lead to.

Main results:

* `AccessQuery.Walk.preserves_applySteps` — what every move preserves, a resolution preserves;
* `AccessQuery.Walk.Invariant.of_reached` — and it holds of every walk that is reached;
* `AccessQuery.Walk.reached_applySteps` — a resolution makes no other moves.
-/

import AccessQuery.Proofs.Ensures
import AccessQuery.Resolution

set_option relaxedAutoImplicit false
set_option autoImplicit false

namespace AccessQuery

namespace Walk

variable {tree : Tree} {α β : Type} {I : Walk tree → Prop} {options : ResolveOptions}

/-! ### Preservation -/

/-- A computation preserves a property of the walk. -/
def Preserves (I : Walk tree → Prop) (m : WalkM tree α) : Prop :=
  ∀ walk, I walk → I (m walk).2

namespace Preserves

theorem pure (a : α) : Preserves I (Pure.pure a : WalkM tree α) :=
  fun _ h => h

theorem bind {m : WalkM tree α} {f : α → WalkM tree β} (hm : Preserves I m)
    (hf : ∀ a, Preserves I (f a)) : Preserves I (m >>= f) :=
  fun walk h => hf (m walk).1 (m walk).2 (hm walk h)

theorem ite {p : Prop} [Decidable p] {m n : WalkM tree α} (hm : Preserves I m)
    (hn : Preserves I n) : Preserves I (if p then m else n) := by
  split
  · exact hm
  · exact hn

theorem ensures {m : WalkM tree α} (h : Preserves I m) : Ensures I m fun _ => I :=
  h

end Preserves

theorem preserves_checkpoint (options : ResolveOptions) :
    Preserves I (checkpoint options : WalkM tree (Option Interrupt)) :=
  fun _ h => h

/-- Giving back, climbing, comparing and noting preserve a property of walks, whatever handles they
are given. -/
structure Gentle (I : Walk tree → Prop) : Prop where
  release : ∀ handle, Preserves I (release handle)
  parentOf : ∀ node, Preserves I (parentOf node)
  same : ∀ a b, Preserves I (same a b)
  diagnose : ∀ error, Preserves I (diagnose error)

/-- Every move of a resolution preserves a property of walks, whatever handles it is given. -/
structure Invariant (options : ResolveOptions) (I : Walk tree → Prop) : Prop extends Gentle I where
  enumerate : ∀ node, Preserves I (enumerate options node)
  judge : ∀ step node position, Preserves I (judge options step node position)

/-! ### What moves are made of -/

section Parts

variable {node : Handle}

theorem preserves_parentOf (hp : Preserves I (inSession (Session.parent node)))
    (hd : ∀ error, Preserves I (diagnose error)) : Preserves I (parentOf node) := by
  refine hp.bind fun found => ?_
  cases found with
  | ok parent => exact .pure parent
  | error e => exact (hd e).bind fun _ => .pure none

theorem preserves_same {other : Handle}
    (hs : Preserves I (inSession (Session.sameObject node other)))
    (hd : ∀ error, Preserves I (diagnose error)) : Preserves I (same node other) := by
  refine hs.bind fun found => ?_
  cases found with
  | ok answer => exact .pure answer
  | error e => exact (hd e).bind fun _ => .pure false

theorem preserves_keepFrom {keep : Handle → WalkM tree Bool}
    (hr : ∀ handle, Preserves I (release handle)) (hk : ∀ handle, Preserves I (keep handle))
    (handles : List Handle) : Preserves I (Siblings.keepFrom release keep handles) := by
  induction handles with
  | nil => exact .pure []
  | cons handle rest ih =>
      refine (hk handle).bind fun _ => .ite ?_ ?_
      · exact ih.bind fun kept => .pure (handle :: kept)
      · exact (hr handle).bind fun _ => ih

theorem preserves_enumerate (hc : Preserves I (inSession (Session.children node)))
    (hr : ∀ handle, Preserves I (release handle))
    (hs : options.visibleOnly = true → ∀ child, Preserves I (isShowing child)) :
    Preserves I (enumerate options node) := by
  refine hc.bind fun found => ?_
  cases found with
  | error e => exact .pure _
  | ok siblings =>
      dsimp only
      split
      · next hv =>
          exact ((preserves_keepFrom hr (hs hv) siblings.unvisited).bind fun _ => .pure _).bind
            fun _ => .pure _
      · exact .pure _

/-- Judging a candidate begins with its attributes, and goes on with its place at most. -/
theorem ensures_judge {P : Walk tree → Prop} {step : Step}
    (ha : Ensures P (attributesFor options step node) fun _ => I)
    (hp : Preserves I (inSession (Session.siblingPosition node)))
    (position : Option SiblingPosition) :
    Ensures P (judge options step node position) fun _ => I := by
  refine ha.bind fun reading => ?_
  cases reading with
  | error e => exact Ensures.pure fun _ h => h
  | ok snapshot =>
      refine Preserves.ite (.pure _) (.ite (.pure _) ?_)
      cases step.predicate with
      | none => exact .pure _
      | some predicate =>
          have hposition : Preserves I (positionFor predicate node position) := by
            cases position with
            | some position => exact .pure _
            | none => exact .ite hp (.pure _)
          refine hposition.bind fun found => ?_
          cases found <;> exact .pure _

theorem preserves_judge {step : Step} (ha : Preserves I (attributesFor options step node))
    (hp : Preserves I (inSession (Session.siblingPosition node)))
    (position : Option SiblingPosition) : Preserves I (judge options step node position) :=
  ensures_judge ha hp position

end Parts

/-! ### Moves repeated -/

section Repeated

variable (hg : Gentle I)
include hg

theorem preserves_releaseAll (handles : List Handle) : Preserves I (releaseAll handles) := by
  induction handles with
  | nil => exact .pure ()
  | cons handle rest ih =>
      rw [releaseAll_cons]
      exact (hg.release handle).bind fun _ => ih

theorem preserves_isAmong (node : Handle) (others : List Handle) :
    Preserves I (isAmong node others) := by
  induction others with
  | nil => exact .pure false
  | cons other rest ih => exact (hg.same node other).bind fun _ => .ite (.pure true) ih

theorem preserves_unreachable (node : Handle) (error : BridgeError) :
    Preserves I (unreachable node error) :=
  .ite (.pure _) ((hg.diagnose error).bind fun _ => (hg.release node).bind fun _ => .pure _)

theorem preserves_climb (targets : List Handle) (fuel : Nat) (node : Option Handle) :
    Preserves I (climb targets fuel node) := by
  induction fuel generalizing node with
  | zero =>
      cases node with
      | none => exact .pure false
      | some ancestor => exact (hg.release ancestor).bind fun _ => .pure false
  | succ fuel ih =>
      cases node with
      | none => exact .pure false
      | some ancestor =>
          refine (preserves_isAmong hg ancestor targets).bind fun _ => .ite ?_ ?_
          · exact (hg.release ancestor).bind fun _ => .pure true
          · exact (hg.parentOf ancestor).bind fun above =>
              (hg.release ancestor).bind fun _ => ih above

theorem preserves_isBelow (node : Handle) (contexts : List Context) :
    Preserves I (isBelow node contexts) :=
  (hg.parentOf node).bind fun above => preserves_climb hg _ tree.size above

theorem preserves_separate (contexts : List Context) (frontier : List Handle) :
    Preserves I (separate options contexts frontier) := by
  induction frontier generalizing contexts with
  | nil => exact .pure contexts
  | cons node rest ih =>
      rw [separate_cons]
      refine (Preserves.ite (.pure false) (preserves_isBelow hg node contexts)).bind
        fun nested => ?_
      exact .ite (ih _) (.ite (ih _) ((hg.release node).bind fun _ => ih contexts))

theorem preserves_contextsFor (step : Step) (frontier : List Handle) :
    Preserves I (contextsFor options step frontier) :=
  .ite (preserves_separate hg [] frontier) (.pure _)

end Repeated

section Stretches

variable (hI : Invariant options I)
include hI

/-! ### Candidates -/

theorem preserves_judgeOrHide (step : Step) (node : Handle) (position : SiblingPosition) :
    Preserves I (judgeOrHide options step node position) := by
  refine (hI.judge step node (some position)).bind fun found => ?_
  cases found with
  | ok verdict => exact .pure verdict
  | error e => exact (hI.diagnose e).bind fun _ => .pure _

theorem preserves_openBelow (node : Handle) : Preserves I (openBelow options node) := by
  refine (hI.enumerate node).bind fun found => ?_
  cases found with
  | ok siblings => exact .pure (some siblings)
  | error e => exact (hI.diagnose e).bind fun _ => .pure none

theorem preserves_settle (step : Step) (earlier : List Handle) (deeper : Bool) (node : Handle)
    (position : SiblingPosition) :
    Preserves I (settle options step earlier deeper node position) := by
  rw [settle_eq]
  refine (preserves_judgeOrHide hI step node position).bind fun verdict => ?_
  refine (Preserves.ite (preserves_openBelow hI node) (.pure none)).bind fun below => ?_
  have hdrop := (hI.release node).bind fun _ => .pure (([] : List Handle), below)
  exact .ite ((preserves_isAmong hI.toGentle node earlier).bind fun _ => .ite hdrop (.pure _)) hdrop

/-! ### Visits -/

theorem preserves_visitEach (step : Step) (demand : Demand) (earlier : List Handle)
    (deeper : Bool) {visitChildren : Siblings → WalkM tree Visit}
    (hv : ∀ siblings, Preserves I (visitChildren siblings))
    (candidates : List (Handle × SiblingPosition)) :
    Preserves I (visitEach options step demand earlier deeper visitChildren candidates) := by
  induction candidates with
  | nil => exact .pure _
  | cons candidate rest ih =>
      obtain ⟨node, position⟩ := candidate
      refine (preserves_checkpoint options).bind fun found => ?_
      cases found with
      | some cause => exact (hI.release node).bind fun _ => .pure _
      | none =>
          refine (preserves_settle hI step earlier deeper node position).bind fun settled => ?_
          refine .ite ((preserves_releaseAll hI.toGentle _).bind fun _ => .pure _) ?_
          have hbelow : Preserves I (settled.2.elim (pure .nothing) visitChildren) := by
            cases settled.2 with
            | none => exact .pure _
            | some siblings => exact hv siblings
          refine hbelow.bind fun inner => ?_
          cases inner.stop with
          | some stop => exact .pure _
          | none => exact ih.bind fun _ => .pure _

theorem preserves_visitBelow (step : Step) (demand : Demand) (earlier : List Handle)
    (fuel depth : Nat) (siblings : Siblings) :
    Preserves I (visitBelow options step demand earlier fuel depth siblings) := by
  induction fuel generalizing depth siblings with
  | zero => exact (preserves_releaseAll hI.toGentle _).bind fun _ => .pure _
  | succ fuel ih => exact preserves_visitEach hI step demand earlier _ (ih (depth + 1)) _

/-! ### Contexts -/

theorem preserves_filterSelf (step : Step) (node : Handle) :
    Preserves I (filterSelf options step node) := by
  refine (preserves_checkpoint options).bind fun found => ?_
  cases found with
  | some cause => exact (hI.release node).bind fun _ => .pure _
  | none =>
      refine (hI.judge step node none).bind fun verdict => ?_
      split
      · exact preserves_unreachable hI.toGentle node _
      · exact .pure _
      · exact (hI.release node).bind fun _ => .pure _

theorem preserves_expandChildren (step : Step) (demand : Demand) (node : Handle) :
    Preserves I (expandChildren options step demand node) := by
  refine (hI.enumerate node).bind fun found => ?_
  cases found with
  | error e => exact preserves_unreachable hI.toGentle node e
  | ok siblings =>
      refine (preserves_visitEach hI step demand [] false (fun _ => .pure _)
        siblings.remaining).bind fun visit => ?_
      split
      · exact (hI.release node).bind fun _ =>
          (preserves_releaseAll hI.toGentle visit.abandoned).bind fun _ => .pure _
      · exact (preserves_releaseAll hI.toGentle visit.abandoned).bind fun _ =>
          (hI.release node).bind fun _ => .pure _

theorem preserves_expandDescendants (step : Step) (demand : Demand) (context : Context)
    (selected : List Handle) :
    Preserves I (expandDescendants options step demand context selected) := by
  refine (hI.enumerate context.handle).bind fun found => ?_
  cases found with
  | error e => exact preserves_unreachable hI.toGentle context.handle e
  | ok siblings =>
      refine (preserves_visitBelow hI step demand _ tree.size 1 siblings).bind fun visit => ?_
      refine (preserves_releaseAll hI.toGentle visit.abandoned).bind fun _ =>
        (hI.release context.handle).bind fun _ => ?_
      split <;> exact .pure _

theorem preserves_expand (step : Step) (demand : Demand) (context : Context)
    (selected : List Handle) : Preserves I (expand options step demand context selected) := by
  unfold expand
  cases step.axis with
  | self => exact preserves_filterSelf hI step context.handle
  | child => exact preserves_expandChildren hI step demand context.handle
  | descendant | any => exact preserves_expandDescendants hI step demand context selected

theorem preserves_expandAll (step : Step) (demand : Demand) (contexts : List Context)
    (selected : List Handle) : Preserves I (expandAll options step demand contexts selected) := by
  induction contexts generalizing selected with
  | nil => exact .pure _
  | cons context rest ih =>
      refine .ite ((hI.release context.handle).bind fun _ => ih selected) ?_
      refine (preserves_expand hI step demand context selected).bind fun found => ?_
      split
      · exact ih _
      · exact (preserves_releaseAll hI.toGentle _).bind fun _ =>
          (preserves_releaseAll hI.toGentle _).bind fun _ => .pure _

/-! ### Steps -/

theorem preserves_applyStep (step : Step) (demand : Demand) (frontier : List Handle) :
    Preserves I (applyStep options step demand frontier) :=
  (preserves_contextsFor hI.toGentle step frontier).bind fun contexts =>
    preserves_expandAll hI step demand contexts []

theorem preserves_applySteps (demand : Demand) (steps : List Step) (frontier : List Handle) :
    Preserves I (applySteps options demand steps frontier) := by
  induction steps generalizing frontier with
  | nil => exact .pure _
  | cons step rest ih =>
      exact (preserves_applyStep hI step _ frontier).bind fun found =>
        .ite (.pure found) (ih found.selected)

end Stretches

/-! ### Walks that are reached -/

/-- Moves lead to a walk from the start of a resolution. -/
inductive Reached (options : ResolveOptions) (start : Session tree) : Walk tree → Prop
  | opening : Reached options start ⟨start, [], ∅⟩
  | release {walk : Walk tree} (handle : Handle) :
      Reached options start walk → Reached options start (Walk.release handle walk).2
  | parentOf {walk : Walk tree} (node : Handle) :
      Reached options start walk → Reached options start (Walk.parentOf node walk).2
  | same {walk : Walk tree} (a b : Handle) :
      Reached options start walk → Reached options start (Walk.same a b walk).2
  | enumerate {walk : Walk tree} (node : Handle) :
      Reached options start walk → Reached options start (Walk.enumerate options node walk).2
  | judge {walk : Walk tree} (step : Step) (node : Handle) (position : Option SiblingPosition) :
      Reached options start walk →
      Reached options start (Walk.judge options step node position walk).2
  | diagnose {walk : Walk tree} (error : BridgeError) :
      Reached options start walk → Reached options start (Walk.diagnose error walk).2

variable {start : Session tree}

theorem invariant_reached (options : ResolveOptions) (start : Session tree) :
    Invariant options (Reached options start) where
  release handle _ h := h.release handle
  parentOf node _ h := h.parentOf node
  same a b _ h := h.same a b
  enumerate node _ h := h.enumerate node
  judge step node position _ h := h.judge step node position
  diagnose error _ h := h.diagnose error

/-- What holds at the start and is preserved by every move holds of every walk that is reached. -/
theorem Invariant.of_reached (hI : Invariant options I) (hopening : I ⟨start, [], ∅⟩)
    {walk : Walk tree} (h : Reached options start walk) : I walk := by
  induction h with
  | opening => exact hopening
  | release handle _ ih => exact hI.release handle _ ih
  | parentOf node _ ih => exact hI.parentOf node _ ih
  | same a b _ ih => exact hI.same a b _ ih
  | enumerate node _ ih => exact hI.enumerate node _ ih
  | judge step node position _ ih => exact hI.judge step node position _ ih
  | diagnose error _ ih => exact hI.diagnose error _ ih

/-- Every step of a resolution leads from walks that are reached to others. -/
theorem reached_applySteps {walk : Walk tree} (h : Reached options start walk) (demand : Demand)
    (steps : List Step) (frontier : List Handle) :
    Reached options start (applySteps options demand steps frontier walk).2 :=
  preserves_applySteps (invariant_reached options start) demand steps frontier walk h

end Walk

end AccessQuery
