/-
**What every call preserves, a resolution preserves.**

A resolution uses its session through six calls only: it asks for the children, the parent, the
attributes and the place of a node, compares two nodes, and gives handles back.  So a property of
sessions that each of these preserves, for every handle, is preserved by every move of a walk, and
by a whole resolution, however it ends.  Nothing is assumed of the root: it may be foreign, or
released long ago, or made up.

Main definitions:

* `AccessQuery.Session.Invariant` — the properties that every call preserves;
* `AccessQuery.Walk.Upholds` — the computations that preserve a property of the session.

Main results:

* `AccessQuery.Session.Invariant.releaseAll` — giving back many handles preserves them;
* `AccessQuery.Session.Invariant.walk` — so does every move of a walk;
* `AccessQuery.Session.Invariant.run` — so does a resolution.
-/

import AccessQuery.Proofs.Walk.Moves

set_option relaxedAutoImplicit false
set_option autoImplicit false

namespace AccessQuery

variable {tree : Tree}

namespace Session

/-- Every call preserves a property of sessions, whatever handles it is given. -/
structure Invariant (I : Session tree → Prop) : Prop where
  children : ∀ handle session, I session → I (Session.children handle session).2
  parent : ∀ handle session, I session → I (Session.parent handle session).2
  attributes : ∀ handle session, I session → I (Session.attributes handle session).2
  siblingPosition : ∀ handle session, I session → I (Session.siblingPosition handle session).2
  sameObject : ∀ a b session, I session → I (Session.sameObject a b session).2
  release : ∀ handle session, I session → I (session.afterRelease handle)

theorem Invariant.releaseAll {I : Session tree → Prop} (hI : Invariant I) (handles : List Handle)
    {session : Session tree} (h : I session) : I (Session.releaseAll handles session).2 := by
  induction handles generalizing session with
  | nil => exact h
  | cons handle rest ih => exact ih (hI.release handle session h)

end Session

namespace Walk

variable {α β : Type} {I : Session tree → Prop}

/-- A computation preserves a property of the session. -/
def Upholds (I : Session tree → Prop) (m : WalkM tree α) : Prop :=
  ∀ walk, I walk.session → I (m walk).2.session

namespace Upholds

theorem pure (a : α) : Upholds I (Pure.pure a : WalkM tree α) :=
  Preserves.pure a

theorem bind {m : WalkM tree α} {f : α → WalkM tree β} (hm : Upholds I m)
    (hf : ∀ a, Upholds I (f a)) : Upholds I (m >>= f) :=
  Preserves.bind hm hf

theorem ite {p : Prop} [Decidable p] {m n : WalkM tree α} (hm : Upholds I m) (hn : Upholds I n) :
    Upholds I (if p then m else n) :=
  Preserves.ite hm hn

/-- What leaves the session alone preserves all of its properties. -/
theorem of_session_eq {m : WalkM tree α} (h : ∀ walk, (m walk).2.session = walk.session) :
    Upholds I m :=
  fun walk hw => (h walk).symm ▸ hw

theorem inSession {use : SessionM tree α} (h : ∀ session, I session → I (use session).2) :
    Upholds I (inSession use) :=
  fun walk hw => h walk.session hw

end Upholds

/-! ### Calls -/

theorem upholds_diagnose (error : BridgeError) : Upholds I (diagnose error) :=
  .of_session_eq fun _ => rfl

theorem upholds_checkpoint (options : ResolveOptions) :
    Upholds I (checkpoint options : WalkM tree (Option Interrupt)) :=
  .of_session_eq fun _ => rfl

/-! ### Judging a candidate -/

section Judge

variable {node : Handle} (ha : ∀ session, I session → I (Session.attributes node session).2)
include ha

theorem upholds_attributesFor (options : ResolveOptions) (step : Step) :
    Upholds I (attributesFor options step node) := by
  intro walk h
  simp only [attributesFor, bind, StateT.bind, get, getThe, MonadStateOf.get, StateT.get, pure]
  cases walk.prefetched[node.ref]? with
  | some snapshot => exact h
  | none =>
      by_cases hn : needsAttributes options step = true
      · simp only [hn, if_true]
        exact ha walk.session h
      · simp only [hn]
        exact h

variable (hp : ∀ session, I session → I (Session.siblingPosition node session).2)
include hp

/-- Judging a candidate takes two calls on it at most. -/
theorem upholds_judge_of (options : ResolveOptions) (step : Step)
    (position : Option SiblingPosition) : Upholds I (judge options step node position) :=
  preserves_judge (upholds_attributesFor ha options step) (Upholds.inSession hp) position

end Judge

/-! ### Moves -/

variable (hI : Session.Invariant I)
include hI

theorem upholds_release (handle : Handle) : Upholds I (release handle) :=
  .inSession (hI.release handle)

theorem upholds_releaseAll (handles : List Handle) : Upholds I (releaseAll handles) :=
  .inSession fun _ h => hI.releaseAll handles h

theorem upholds_isShowing (child : Handle) : Upholds I (isShowing child) := by
  refine (Upholds.inSession (hI.attributes child)).bind fun found => ?_
  cases found with
  | error e => exact (upholds_diagnose e).bind fun _ => .pure false
  | ok snapshot =>
      refine .ite ?_ (.pure false)
      exact (Upholds.of_session_eq fun _ => rfl).bind fun _ => .pure true

theorem upholds_enumerate (options : ResolveOptions) (node : Handle) :
    Upholds I (enumerate options node) :=
  preserves_enumerate (Upholds.inSession (hI.children node)) (upholds_release hI)
    fun _ => upholds_isShowing hI

theorem upholds_judge (options : ResolveOptions) (step : Step) (node : Handle)
    (position : Option SiblingPosition) : Upholds I (judge options step node position) :=
  upholds_judge_of (hI.attributes node) (hI.siblingPosition node) options step position

end Walk

/-- What every call preserves, every move of a walk preserves. -/
theorem Session.Invariant.walk {I : Session tree → Prop} (hI : Session.Invariant I)
    (options : ResolveOptions) : Walk.Invariant options fun walk : Walk tree => I walk.session where
  release handle := Walk.upholds_release hI handle
  parentOf node :=
    Walk.preserves_parentOf (Walk.Upholds.inSession (hI.parent node)) Walk.upholds_diagnose
  same a b :=
    Walk.preserves_same (Walk.Upholds.inSession (hI.sameObject a b)) Walk.upholds_diagnose
  enumerate node := Walk.upholds_enumerate hI options node
  judge step node position := Walk.upholds_judge hI options step node position
  diagnose error := Walk.upholds_diagnose error

namespace Walk

variable {I : Session tree → Prop} (hI : Session.Invariant I)
include hI

/-! ### Stretches of a resolution -/

theorem upholds_settle (options : ResolveOptions) (step : Step) (earlier : List Handle)
    (deeper : Bool) (node : Handle) (position : SiblingPosition) :
    Upholds I (settle options step earlier deeper node position) :=
  preserves_settle (hI.walk options) step earlier deeper node position

theorem upholds_visitEach (options : ResolveOptions) (step : Step) (demand : Demand)
    (earlier : List Handle) (deeper : Bool) {visitChildren : Siblings → WalkM tree Visit}
    (hv : ∀ siblings, Upholds I (visitChildren siblings))
    (candidates : List (Handle × SiblingPosition)) :
    Upholds I (visitEach options step demand earlier deeper visitChildren candidates) :=
  preserves_visitEach (hI.walk options) step demand earlier deeper hv candidates

theorem upholds_visitBelow (options : ResolveOptions) (step : Step) (demand : Demand)
    (earlier : List Handle) (fuel depth : Nat) (siblings : Siblings) :
    Upholds I (visitBelow options step demand earlier fuel depth siblings) :=
  preserves_visitBelow (hI.walk options) step demand earlier fuel depth siblings

theorem upholds_unreachable (node : Handle) (error : BridgeError) :
    Upholds I (unreachable node error) :=
  preserves_unreachable (hI.walk {}).toGentle node error

theorem upholds_expand (options : ResolveOptions) (step : Step) (demand : Demand)
    (context : Context) (selected : List Handle) :
    Upholds I (expand options step demand context selected) :=
  preserves_expand (hI.walk options) step demand context selected

theorem upholds_expandAll (options : ResolveOptions) (step : Step) (demand : Demand)
    (contexts : List Context) (selected : List Handle) :
    Upholds I (expandAll options step demand contexts selected) :=
  preserves_expandAll (hI.walk options) step demand contexts selected

theorem upholds_contextsFor (options : ResolveOptions) (step : Step) (frontier : List Handle) :
    Upholds I (contextsFor options step frontier) :=
  preserves_contextsFor (hI.walk options).toGentle step frontier

end Walk

/-- A resolution leaves its session as its last step does. -/
theorem Session.snd_run {options : ResolveOptions} {demand : Demand} {query : Query}
    {root : Handle} {session : Session tree} (hs : root.session = session.id) :
    (Session.run options demand query root session).2 =
      (Walk.applySteps options demand query.steps [root.view] ⟨session, [], ∅⟩).2.session := by
  unfold Session.run
  rw [if_neg fun hne => hne hs]
  generalize Walk.applySteps options demand query.steps [root.view] ⟨session, [], ∅⟩ = outcome
  obtain ⟨⟨selected, failure⟩, walk⟩ := outcome
  cases failure <;> rfl

/-- What every call preserves is preserved by a resolution, whether it succeeds or fails. -/
theorem Session.Invariant.run {I : Session tree → Prop} (hI : Session.Invariant I)
    (options : ResolveOptions) (demand : Demand) (query : Query) (root : Handle)
    {session : Session tree} (h : I session) :
    I (Session.run options demand query root session).2 := by
  by_cases hs : root.session = session.id
  · rw [Session.snd_run hs]
    exact Walk.preserves_applySteps (hI.walk options) demand query.steps [root.view]
      ⟨session, [], ∅⟩ h
  · rw [run_of_foreign hs]
    exact h

end AccessQuery
