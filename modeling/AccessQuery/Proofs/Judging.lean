/-
**Judging a candidate.**

A candidate is judged by as little as possible.  Its attributes are read only where visibility, the
role test or the predicate ask for them, and not a second time where they were read while hidden
children were sorted out; its place among its siblings is asked for only where it is not known and
the predicate looks at it.  None of this can be told from the verdict.

Main definitions:

* `AccessQuery.Bridge.Evolves` — a later state of a bridge;
* `AccessQuery.Step.verdict` — what a step says of a candidate with some attributes, at some place;
* `AccessQuery.Walk.IsUpToDate` — what was read ahead is what would be read now;
* `AccessQuery.Walk.judgeEagerly`, `AccessQuery.Walk.Judgeable` — judging with every call made, and
  handles on which none of these calls fails.

Main results:

* `AccessQuery.Walk.invariant_isUpToDate` — what is read ahead stays up to date;
* `AccessQuery.Walk.judge_of_isUpToDate`, `AccessQuery.Walk.judgeEagerly_of_judgeable` — both ways
  of judging come to what the step says of the attributes and the place of the node;
* `AccessQuery.Walk.judge_exact` — so their verdicts are the same, in every walk that is reached.
-/

import AccessQuery.Proofs.Agreement
import AccessQuery.Proofs.Answers
import AccessQuery.Proofs.Faultless
import AccessQuery.Proofs.Resolution
import AccessQuery.Proofs.Walk.Candidates

set_option relaxedAutoImplicit false
set_option autoImplicit false

namespace AccessQuery

variable {tree : Tree}

/-! ### Bridges that go on -/

namespace Bridge

/-- A later state of a bridge, in which a reference that had been acquired stands for the node that
it stood for, if it is still live. -/
structure Evolves (before after : Bridge tree) : Prop where
  acquired_le : before.acquired ≤ after.acquired
  live_of_issued : ∀ (ref : NativeRef) (node : tree.NodeId),
    ref.address ≤ 0x1000 + before.acquired →
    after.live[ref]? = some node → before.live[ref]? = some node

namespace Evolves

variable {a b c before after : Bridge tree}

theorem refl (bridge : Bridge tree) : bridge.Evolves bridge :=
  ⟨Nat.le_refl _, fun _ _ _ h => h⟩

theorem trans (hab : a.Evolves b) (hbc : b.Evolves c) : a.Evolves c where
  acquired_le := Nat.le_trans hab.acquired_le hbc.acquired_le
  live_of_issued ref node hr hl := by
    have hle := hab.acquired_le
    exact hab.live_of_issued ref node hr (hbc.live_of_issued ref node (by omega) hl)

theorem record (h : before.Evolves after) (call : Call) : before.Evolves (after.record call) :=
  ⟨h.acquired_le, h.live_of_issued⟩

theorem of_gains {gained : List (Holding tree)} (h : before.Gains gained after) :
    before.Evolves after :=
  ⟨h.acquired_le, fun ref _ hr hl => h.kept ref hr ▸ hl⟩

theorem of_release (handle : Handle) (bridge : Bridge tree) :
    bridge.Evolves (release handle bridge).2 := by
  cases hlive : bridge.live[handle.ref]? with
  | none =>
      simp only [release, bind, StateT.bind, get, getThe, MonadStateOf.get, StateT.get, pure, hlive]
      exact ⟨Nat.le_refl _, fun _ _ _ h => h⟩
  | some node =>
      obtain ⟨_, herase, -, -, -, hacquired, -⟩ := release_of_live hlive
      refine ⟨Nat.le_of_eq hacquired.symm, fun ref other _ hl => ?_⟩
      rw [herase, Std.ExtTreeMap.getElem?_erase] at hl
      split at hl
      · cases hl
      · exact hl

end Evolves

end Bridge

/-- Every call of a session lets its bridge go on. -/
theorem Session.invariant_evolves (start : Bridge tree) :
    Session.Invariant fun session : Session tree => start.Evolves session.bridge where
  children handle session h := by
    simp only [Session.children, acquireChildren, onBridge, bind, StateT.bind, pure]
    rcases session.bridge.children_cases handle with ⟨e, he⟩ | ⟨gained, after, hg, hok⟩
    · rw [he]
      exact h.record _
    · rw [hok]
      exact (bridge_trackAll _ _).symm ▸ (h.trans (.of_gains hg)).record _
  parent handle session h := by
    simp only [Session.parent, onBridge, bind, StateT.bind, pure]
    rcases session.bridge.parent_cases handle with ⟨e, he⟩ | hnone | ⟨x, after, hg, hok⟩
    · rw [he]
      exact h.record _
    · rw [hnone]
      exact h.record _
    · rw [hok]
      exact (h.trans (.of_gains hg)).record _
  attributes handle session h := by
    simp only [Session.attributes, onBridge, Bridge.attributes, bind, StateT.bind, get, getThe,
      MonadStateOf.get, StateT.get, pure]
    cases session.bridge.locate .attributes handle <;> exact h.record _
  siblingPosition handle session h := by
    simp only [Session.siblingPosition, onBridge, Bridge.siblingIndex, bind, StateT.bind, get,
      getThe, MonadStateOf.get, StateT.get, pure]
    cases session.bridge.locate .siblingIndex handle <;> exact h.record _
  sameObject a b session h := h.record _
  release handle session h := by
    unfold afterRelease
    split
    · exact h
    · split
      · exact h
      · exact h.trans (.of_release handle session.bridge)

/-! ### Verdicts -/

/-- What a step says of a candidate with some attributes, at some place. -/
def Step.verdict (options : ResolveOptions) (step : Step) (snapshot : Snapshot)
    (position : SiblingPosition) : Verdict :=
  if options.visibleOnly && !snapshot.isShowing then .hidden
  else if step.effectiveRoleTest.accepts snapshot.role? &&
      step.predicate.all fun p => p.holds snapshot position.place position.count then .accepted
  else .rejected

/-- What it says with the attributes of a node is that the node passes, or not. -/
theorem Step.verdict_attributes (options : ResolveOptions) (step : Step) (node : tree.NodeId)
    (position : SiblingPosition) : step.verdict options (tree.attributes node) position =
      if options.visibleOnly && !(tree.attributes node).isShowing then .hidden
      else if step.passes node position then .accepted else .rejected := by
  rw [verdict, passes, accepts_effectiveRoleTest, position.place_eq]

namespace Walk

variable {options : ResolveOptions} {start : Session tree} {walk : Walk tree} {α : Type}
variable {node : tree.NodeId} {handle : Handle}

/-! ### Attributes read ahead -/

/-- What has been read ahead was read because only visible nodes are asked for, of references that
had been acquired, and for those that are live it is what would be read now. -/
def IsUpToDate (options : ResolveOptions) (walk : Walk tree) : Prop :=
  ∀ (ref : NativeRef) (snapshot : Snapshot), walk.prefetched[ref]? = some snapshot →
    options.visibleOnly = true ∧ ref.address ≤ 0x1000 + walk.session.bridge.acquired ∧
      ∀ node, walk.session.bridge.live[ref]? = some node → snapshot = tree.attributes node

theorem IsUpToDate.of_evolves {session : Session tree} (h : IsUpToDate options walk)
    (he : walk.session.bridge.Evolves session.bridge) :
    IsUpToDate options { walk with session := session } := by
  intro ref snapshot hs
  obtain ⟨hv, hissued, hread⟩ := h ref snapshot hs
  refine ⟨hv, Nat.le_trans hissued (Nat.add_le_add_left he.acquired_le _), fun node hl => ?_⟩
  exact hread node (he.live_of_issued ref node hissued hl)

theorem IsUpToDate.insert {ref : NativeRef} (h : IsUpToDate options walk)
    (hv : options.visibleOnly = true) (hl : walk.session.bridge.live[ref]? = some node) :
    IsUpToDate options
      { walk with prefetched := walk.prefetched.insert ref (tree.attributes node) } := by
  intro other snapshot hs
  rw [Std.ExtTreeMap.getElem?_insert] at hs
  split at hs
  · next he =>
      cases Std.LawfulEqOrd.eq_of_compare he
      cases hs
      refine ⟨hv, Bridge.le_of_live hl, fun node' hl' => ?_⟩
      cases hl.symm.trans hl'
      rfl
  · exact h other snapshot hs

theorem IsUpToDate.erase (h : IsUpToDate options walk) (ref : NativeRef) :
    IsUpToDate options { walk with prefetched := walk.prefetched.erase ref } := by
  intro other snapshot hs
  rw [Std.ExtTreeMap.getElem?_erase] at hs
  split at hs
  · cases hs
  · exact h other snapshot hs

theorem isUpToDate_inSession {use : SessionM tree α}
    (hu : ∀ session : Session tree, session.bridge.Evolves (use session).2.bridge) :
    Preserves (IsUpToDate options) (inSession use) :=
  fun walk h => h.of_evolves (hu walk.session)

theorem isUpToDate_diagnose (error : BridgeError) :
    Preserves (IsUpToDate options) (diagnose error : WalkM tree Unit) :=
  fun _ h => h

/-- What is read is read of the node that the reference stands for. -/
theorem attributes_isUpToDate (handle : Handle) :
    Ensures (IsUpToDate options)
      (inSession (Session.attributes handle) : WalkM tree (Except BridgeError Snapshot))
      fun found walk => IsUpToDate options walk ∧ ∀ snapshot, found = .ok snapshot →
        ∃ node, walk.session.bridge.live[handle.ref]? = some node ∧
          snapshot = tree.attributes node := by
  intro walk h
  refine ⟨h.of_evolves ((Session.invariant_evolves walk.session.bridge).attributes handle _
    (.refl _)), fun snapshot hs => ?_⟩
  simp only [inSession, Session.attributes, Session.onBridge, Bridge.attributes, bind,
    StateT.bind, get, getThe, MonadStateOf.get, StateT.get, pure] at hs ⊢
  cases hlocate : walk.session.bridge.locate .attributes handle with
  | error e =>
      rw [hlocate] at hs
      cases hs
  | ok node =>
      rw [hlocate] at hs
      cases hs
      exact ⟨node, (Bridge.denotes_of_locate hlocate).node_eq, rfl⟩

theorem isUpToDate_isShowing (hv : options.visibleOnly = true) (child : Handle) :
    Preserves (IsUpToDate options) (isShowing child : WalkM tree Bool) := by
  suffices Ensures (IsUpToDate options) (isShowing child : WalkM tree Bool)
      fun _ => IsUpToDate options from this
  refine (attributes_isUpToDate child).bind fun found => ?_
  cases found with
  | error e => exact fun _ h => h.1
  | ok snapshot =>
      by_cases hs : snapshot.isShowing = true
      · simp only [hs, if_true]
        rintro walk ⟨h, hread⟩
        obtain ⟨node, hl, rfl⟩ := hread snapshot rfl
        exact h.insert hv hl
      · simp only [hs]
        exact fun _ h => h.1

theorem isUpToDate_attributesFor (step : Step) (node : Handle) :
    Preserves (IsUpToDate options)
      (attributesFor options step node : WalkM tree (Except BridgeError Snapshot)) := by
  intro walk h
  simp only [attributesFor, bind, StateT.bind, get, getThe, MonadStateOf.get, StateT.get, pure]
  cases walk.prefetched[node.ref]? with
  | some snapshot => exact h.erase node.ref
  | none =>
      dsimp only
      split
      · exact (attributes_isUpToDate node walk h).1
      · exact h

/-- Nothing that a resolution does puts what was read ahead out of date. -/
theorem invariant_isUpToDate (options : ResolveOptions) :
    Invariant options (IsUpToDate options : Walk tree → Prop) where
  release handle := isUpToDate_inSession fun session =>
    (Session.invariant_evolves session.bridge).release handle session (.refl _)
  parentOf node := preserves_parentOf (isUpToDate_inSession fun session =>
    (Session.invariant_evolves session.bridge).parent node session (.refl _)) isUpToDate_diagnose
  same a b := preserves_same (isUpToDate_inSession fun session =>
    (Session.invariant_evolves session.bridge).sameObject a b session (.refl _))
    isUpToDate_diagnose
  enumerate node := preserves_enumerate (isUpToDate_inSession fun session =>
    (Session.invariant_evolves session.bridge).children node session (.refl _))
    (fun handle => isUpToDate_inSession fun session =>
      (Session.invariant_evolves session.bridge).release handle session (.refl _))
    isUpToDate_isShowing
  judge step node position := preserves_judge (isUpToDate_attributesFor step node)
    (isUpToDate_inSession fun session =>
      (Session.invariant_evolves session.bridge).siblingPosition node session (.refl _)) position
  diagnose := isUpToDate_diagnose

/-! ### Both ways of judging -/

/-- A candidate is judged with every call made: its attributes are read, and its place is asked for
where it is not known. -/
def judgeEagerly (options : ResolveOptions) (step : Step) (node : Handle)
    (known : Option SiblingPosition) : WalkM tree (Except BridgeError Verdict) := do
  match ← inSession (Session.attributes node) with
  | .error e => return .error e
  | .ok snapshot =>
      match ← known.elim (inSession (Session.siblingPosition node)) (pure <| .ok ·) with
      | .error e => return .error e
      | .ok position => return .ok (step.verdict options snapshot position)

/-- No call that judging takes fails on the node of a handle. -/
structure Judgeable (handle : Handle) (node : tree.NodeId) (walk : Walk tree) : Prop where
  attributes : walk.session.bridge.locate .attributes handle = .ok node
  siblingIndex : walk.session.bridge.locate .siblingIndex handle = .ok node

theorem Judgeable.record {walk : Walk tree} (h : Judgeable handle node walk) (call : Call) :
    Judgeable handle node
      { walk with session := { walk.session with bridge := walk.session.bridge.record call } } :=
  ⟨h.attributes, h.siblingIndex⟩

theorem attributes_of_judgeable :
    Ensures (Judgeable handle node) (inSession (Session.attributes handle))
      fun found walk => found = .ok (tree.attributes node) ∧ Judgeable handle node walk := by
  intro walk h
  simp only [inSession, Session.attributes, Session.onBridge, Bridge.attributes, bind,
    StateT.bind, get, getThe, MonadStateOf.get, StateT.get, pure, h.attributes]
  exact ⟨rfl, h.record _⟩

theorem siblingPosition_of_judgeable :
    Ensures (Judgeable handle node) (inSession (Session.siblingPosition handle))
      fun found walk => found = .ok ⟨(tree.place node).1, (tree.place node).2⟩ ∧
        Judgeable handle node walk := by
  intro walk h
  simp only [inSession, Session.siblingPosition, Session.onBridge, Bridge.siblingIndex, bind,
    StateT.bind, get, getThe, MonadStateOf.get, StateT.get, pure, h.siblingIndex]
  exact ⟨rfl, h.record _⟩

/-- The outlook of a resolution none of whose calls fails. -/
def untroubled (tree : Tree) (options : ResolveOptions) : Outlook tree :=
  ⟨options, fun _ _ => none⟩

@[simp] theorem untroubled_options : (untroubled tree options).options = options :=
  rfl

@[simp] theorem untroubled_fault? (op : BridgeOp) (node : tree.NodeId) :
    (untroubled tree options).fault? op node = none :=
  rfl

theorem attributesFor_of_isUpToDate (step : Step) :
    Ensures (fun walk => IsUpToDate options walk ∧ Judgeable handle node walk)
      (attributesFor options step handle)
      fun found walk =>
        found = (untroubled tree options).reading step node ∧ Judgeable handle node walk := by
  rintro walk ⟨h, hj⟩
  have hl := (Bridge.denotes_of_locate hj.attributes).node_eq
  simp only [attributesFor, bind, StateT.bind, get, getThe, MonadStateOf.get, StateT.get, pure]
  cases hs : walk.prefetched[handle.ref]? with
  | some snapshot =>
      -- what was read ahead is needed, so that the outlook reads it too
      obtain ⟨hv, -, hread⟩ := h handle.ref snapshot hs
      refine ⟨?_, hj.attributes, hj.siblingIndex⟩
      simp only [Outlook.reading, untroubled_options, untroubled_fault?,
        needsAttributes_of_visibleOnly hv step, if_true, hread node hl]
      rfl
  | none =>
      by_cases hn : needsAttributes options step = true
      · simp only [hn, if_true]
        obtain ⟨hread, hj'⟩ := attributes_of_judgeable walk hj
        refine ⟨?_, hj'⟩
        simp only [Outlook.reading, untroubled_options, untroubled_fault?, hn, if_true, hread]
      · simp only [Outlook.reading, untroubled_options, hn]
        exact ⟨rfl, hj⟩

theorem positionFor_of_judgeable (options : ResolveOptions) (predicate : Predicate)
    (known : Option SiblingPosition) :
    Ensures (Judgeable handle node) (positionFor predicate handle known) fun found walk =>
      found = (untroubled tree options).position predicate node known ∧
        Judgeable handle node walk := by
  cases known with
  | some position => exact Ensures.pure fun _ h => ⟨rfl, h⟩
  | none =>
      simp only [positionFor, Outlook.position]
      by_cases hu : predicate.usesPosition = true
      · simp only [hu, if_true]
        exact siblingPosition_of_judgeable
      · simp only [hu]
        exact Ensures.pure fun _ h => ⟨rfl, h⟩

/-- Judging by as little as possible says what the step says of the node. -/
theorem judge_of_isUpToDate (step : Step) (known : Option SiblingPosition) :
    Ensures (fun walk => IsUpToDate options walk ∧ Judgeable handle node walk)
      (judge options step handle known)
      fun found _ => found = .ok (step.verdict options (tree.attributes node)
        (known.getD ⟨(tree.place node).1, (tree.place node).2⟩)) := by
  have hverdict : (untroubled tree options).judge step node known =
      .ok (step.verdict options (tree.attributes node)
        (known.getD ⟨(tree.place node).1, (tree.place node).2⟩)) := by
    rw [Step.verdict_attributes]
    exact Outlook.judge_faultless (fun _ _ => rfl) known
  exact (judge_ensures_of (attributesFor_of_isUpToDate step) fun predicate =>
    positionFor_of_judgeable options predicate known).weaken fun _ _ h => h.1.trans hverdict

/-- Judging with every call made says what the step says of the node. -/
theorem judgeEagerly_of_judgeable (step : Step) (known : Option SiblingPosition) :
    Ensures (Judgeable handle node) (judgeEagerly options step handle known)
      fun found _ => found = .ok (step.verdict options (tree.attributes node)
        (known.getD ⟨(tree.place node).1, (tree.place node).2⟩)) := by
  refine attributes_of_judgeable.bind fun reading => Ensures.of_and fun hr => ?_
  subst hr
  cases known with
  | some position => exact Ensures.pure fun _ _ => rfl
  | none =>
      refine siblingPosition_of_judgeable.bind fun position => Ensures.of_and fun hp => ?_
      subst hp
      exact Ensures.pure fun _ _ => rfl

/-- What a predicate does not ask for makes no difference to it, and in every walk that is reached a
candidate none of whose calls fails is judged as if its attributes were always read and its place
were always known. -/
theorem judge_exact (options : ResolveOptions) :
    (∀ (p : Predicate) (s : Snapshot) (place count place' count' : Nat),
      p.usesPosition = false → p.holds s place count = p.holds s place' count') ∧
    (∀ (p : Predicate) (s t : Snapshot) (place count : Nat),
      p.usesAttributes = false → p.holds s place count = p.holds t place count) ∧
    ∀ (tree : Tree) (start : Session tree) (walk : Walk tree) (step : Step) (handle : Handle)
      (node : tree.NodeId) (known : Option SiblingPosition),
      Reached options start walk → Judgeable handle node walk →
        ∃ verdict, (judge options step handle known walk).1 = .ok verdict ∧
          (judgeEagerly options step handle known walk).1 = .ok verdict := by
  refine ⟨fun p s i m j n h => Predicate.holds_of_usesPosition h s i m j n,
    fun p s t i m h => Predicate.holds_of_usesAttributes h s t i m, ?_⟩
  intro tree start walk step handle node known hreached hj
  have hopening : IsUpToDate options (⟨start, [], ∅⟩ : Walk tree) := by
    intro ref snapshot hs
    simp at hs
  have h := (invariant_isUpToDate options).of_reached hopening hreached
  exact ⟨_, judge_of_isUpToDate step known walk ⟨h, hj⟩,
    judgeEagerly_of_judgeable step known walk hj⟩

/-- A child whose attributes were read when hidden children were sorted out is judged. -/
theorem judge_exact_child :
    let tree := (Tree.single (Element.new "panel" "")).addChild ⟨0, by decide⟩
      ((Element.new "label" "").setStates "showing")
    let opened := Session.opening tree ⟨0, by decide⟩ fun _ _ => none
    let options : ResolveOptions := { visibleOnly := true }
    let walk := (enumerate options opened.1 ⟨opened.2, [], ∅⟩).2
    let child := Handle.owned ⟨1⟩ ⟨0x1002⟩ .empty
    let named : Predicate := .comparison .text .eq (.text "OK")
    walk.prefetched.isEmpty = false ∧
      (∀ s : Snapshot, named.holds s 1 2 = named.holds s 2 2) ∧
      (∀ s t : Snapshot, Predicate.last.holds s 1 2 = Predicate.last.holds t 1 2) ∧
      Judgeable child ⟨1, by decide⟩ walk ∧
      ∃ verdict,
        (judge options ⟨.child, .role "label", some .last⟩ child none walk).1 = .ok verdict ∧
        (judgeEagerly options ⟨.child, .role "label", some .last⟩ child none walk).1 =
          .ok verdict := by
  intro tree opened options walk child named
  have hj : Judgeable child ⟨1, by decide⟩ walk := ⟨by decide +kernel, by decide +kernel⟩
  obtain ⟨hposition, hattributes, hjudge⟩ := judge_exact options
  exact ⟨by decide +kernel, fun s => hposition named s 1 2 2 2 rfl,
    fun s t => hattributes .last s t 1 2 rfl, hj,
    hjudge tree opened.2 walk _ child ⟨1, by decide⟩ none (.enumerate opened.1 .opening) hj⟩

end Walk

end AccessQuery
