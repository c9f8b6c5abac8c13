/-
**A resolution sees corresponding handles alike.**

Two resolutions with the same bounds, from states that correspond and on handles that correspond, do
the same: each piece of the walk comes to results that correspond, and leaves states that do.  The
attributes that are kept for later are found again under the other name, since names correspond one
to one; nodes are compared through the bridge only.

Main definitions:

* `AccessQuery.Walk.Alike` — corresponding states of two resolutions;
* `AccessQuery.Visit.Alike`, `AccessQuery.Expansion.Alike`, `AccessQuery.Context.Alike` — results
  that correspond.

Main results:

* `AccessQuery.Walk.lockstep_settle`, `AccessQuery.Walk.lockstep_visitBelow`,
  `AccessQuery.Walk.lockstep_expandAll` and the lemmas between them — one for each piece of the
  walk;
* `AccessQuery.Walk.lockstep_applySteps` — all of it.
-/

import AccessQuery.Proofs.Renaming
import AccessQuery.Resolution

set_option relaxedAutoImplicit false
set_option autoImplicit false

namespace AccessQuery

variable {tree : Tree} {ρ : Renaming} {start start' : Session tree}

/-- States of two resolutions in which as much has been done since two starts. -/
structure Walk.Alike (ρ : Renaming) (start start' : Session tree) (walk walk' : Walk tree) :
    Prop where
  session : Session.Alike ρ start start' walk.session walk'.session
  diagnostics_eq : walk'.diagnostics = walk.diagnostics
  /-- The same attributes are kept, under corresponding references. -/
  prefetched_eq : ∀ ref, ρ.Covers ref →
    walk'.prefetched[ρ.apply ref]? = walk.prefetched[ref]?

/-- Visits that correspond. -/
structure Visit.Alike (ρ : Renaming) (visit visit' : Visit) : Prop where
  selected : List.Forall₂ ρ.Ties visit.selected visit'.selected
  stop_eq : visit'.stop = visit.stop
  abandoned : List.Forall₂ ρ.Ties visit.abandoned visit'.abandoned

/-- Expansions that correspond. -/
structure Expansion.Alike (ρ : Renaming) (found found' : Expansion) : Prop where
  selected : List.Forall₂ ρ.Ties found.selected found'.selected
  failure_eq : found'.failure = found.failure

/-- Contexts that correspond. -/
structure Context.Alike (ρ : Renaming) (context context' : Context) : Prop where
  handle : ρ.Ties context.handle context'.handle
  nested_eq : context'.nested = context.nested

/-- A candidate that corresponds to another, at the same place. -/
def Renaming.TiesCandidate (ρ : Renaming) (candidate candidate' : Handle × SiblingPosition) :
    Prop :=
  ρ.Ties candidate.1 candidate'.1 ∧ candidate'.2 = candidate.2

theorem Renaming.TiesSiblings.remaining {siblings siblings' : Siblings}
    (h : ρ.TiesSiblings siblings siblings') :
    List.Forall₂ ρ.TiesCandidate siblings.remaining siblings'.remaining := by
  obtain ⟨nextIndex, count, unvisited⟩ := siblings
  obtain ⟨nextIndex', count', unvisited'⟩ := siblings'
  obtain ⟨hindex, hcount, hunvisited⟩ := h
  dsimp only at hindex hcount hunvisited
  subst hindex hcount
  simp only [Siblings.remaining]
  induction hunvisited generalizing nextIndex' with
  | nil => exact .nil
  | cons hhead _ ih =>
      rw [List.zipIdx_cons, List.zipIdx_cons]
      exact .cons ⟨hhead, rfl⟩ (ih (nextIndex' + 1))

theorem Renaming.handles_of_tiesCandidate {candidates candidates' : List (Handle × SiblingPosition)}
    (h : List.Forall₂ ρ.TiesCandidate candidates candidates') :
    List.Forall₂ ρ.Ties (candidates.map Prod.fst) (candidates'.map Prod.fst) :=
  List.rel_map (fun _ _ h => h.1) h

theorem isEmpty_eq_of_forall₂ {α : Type} {R : α → α → Prop} {as as' : List α}
    (h : List.Forall₂ R as as') : as'.isEmpty = as.isEmpty := by
  cases h <;> rfl

namespace Walk

variable {options : ResolveOptions} {step : Step} {demand : Demand}
variable {handle handle' node node' : Handle} {α : Type} {R : α → α → Prop}

/-! ### Calls -/

theorem lockstep_inSession {use use' : SessionM tree α}
    (h : Lockstep (Session.Alike ρ start start') use use' R) :
    Lockstep (Alike ρ start start') (inSession use) (inSession use') R := by
  intro walk walk' hw
  obtain ⟨hresult, hsession⟩ := h _ _ hw.session
  exact ⟨hresult, hsession, hw.diagnostics_eq, hw.prefetched_eq⟩

theorem lockstep_release (hh : ρ.Ties handle handle') :
    Lockstep (Alike ρ start start') (release handle) (release handle') (fun _ _ => True) :=
  lockstep_inSession (Session.lockstep_release hh)

theorem lockstep_releaseAll {handles handles' : List Handle}
    (hh : List.Forall₂ ρ.Ties handles handles') :
    Lockstep (Alike ρ start start') (releaseAll handles) (releaseAll handles')
      (fun _ _ => True) :=
  lockstep_inSession (Session.lockstep_releaseAll hh)

theorem lockstep_diagnose (error : BridgeError) :
    Lockstep (Alike ρ start start') (diagnose error) (diagnose error) (fun _ _ => True) := by
  intro walk walk' h
  exact ⟨trivial, h.session, congrArg (· ++ [error]) h.diagnostics_eq, h.prefetched_eq⟩

/-- Where nobody raises the flag, both sides stop alike. -/
theorem lockstep_checkpoint (hc : options.cancelAt = none) :
    Lockstep (Alike ρ start start') (checkpoint options) (checkpoint options) Eq := by
  intro walk walk' h
  have hsame (made made' : Nat) : options.interrupt? made = options.interrupt? made' := by
    simp [ResolveOptions.interrupt?, hc]
  exact ⟨hsame _ _, h⟩

/-- A failed call is noted on both sides, and something else is returned instead. -/
theorem lockstep_diagnoseThen (error : BridgeError) {a a' : α} (h : R a a') :
    Lockstep (Alike ρ start start')
      (do
        diagnose error
        return a)
      (do
        diagnose error
        return a') R :=
  (lockstep_diagnose error).bind fun _ _ _ => .pure h

/-- A handle is given back on both sides, and something is returned. -/
theorem lockstep_releaseThen (hh : ρ.Ties handle handle') {a a' : α} (h : R a a') :
    Lockstep (Alike ρ start start')
      (do
        release handle
        return a)
      (do
        release handle'
        return a') R :=
  (lockstep_release hh).bind fun _ _ _ => .pure h

theorem lockstep_parentOf (hh : ρ.Ties node node') :
    Lockstep (Alike ρ start start') (parentOf node) (parentOf node') (Option.Rel ρ.Ties) := by
  refine (lockstep_inSession (Session.lockstep_parent hh)).bind fun found found' hfound => ?_
  cases hfound with
  | ok hparent => exact .pure hparent
  | error e => exact lockstep_diagnoseThen e .none

theorem lockstep_same {a a' b b' : Handle} (ha : ρ.Ties a a') (hb : ρ.Ties b b') :
    Lockstep (Alike ρ start start') (same a b) (same a' b') Eq := by
  refine (lockstep_inSession (Session.lockstep_sameObject ha hb)).bind fun found found' hfound => ?_
  cases hfound with
  | ok hanswer => exact .pure hanswer
  | error e => exact lockstep_diagnoseThen e rfl

theorem lockstep_isAmong (hn : ρ.Ties node node') {others others' : List Handle}
    (ho : List.Forall₂ ρ.Ties others others') :
    Lockstep (Alike ρ start start') (isAmong node others) (isAmong node' others') Eq := by
  induction ho with
  | nil => exact .pure rfl
  | cons hhead _ ih =>
      refine (lockstep_same hn hhead).bind fun found found' hfound => ?_
      cases hfound
      exact .ite Iff.rfl (.pure rfl) ih

theorem lockstep_isShowing (hh : ρ.Ties handle handle') :
    Lockstep (Alike ρ start start') (isShowing handle) (isShowing handle') Eq := by
  refine (lockstep_inSession (Session.lockstep_attributes hh)).bind fun found found' hfound => ?_
  cases hfound with
  | error e => exact lockstep_diagnoseThen e rfl
  | @ok snapshot snapshot' hsnapshot =>
      cases hsnapshot
      refine .ite Iff.rfl ?_ (.pure rfl)
      have hkeep : Lockstep (Alike ρ start start')
          (modify fun walk : Walk tree =>
            { walk with prefetched := walk.prefetched.insert handle.ref snapshot })
          (modify fun walk : Walk tree =>
            { walk with prefetched := walk.prefetched.insert handle'.ref snapshot })
          (fun _ _ => True) := by
        intro walk walk' h
        refine ⟨trivial, h.session, h.diagnostics_eq, fun ref hr => ?_⟩
        simp only [modify, modifyGet, MonadStateOf.modifyGet, StateT.modifyGet, pure, hh.ref_eq,
          Std.ExtTreeMap.getElem?_insert, Std.LawfulEqOrd.compare_eq_iff_eq,
          Renaming.apply_inj hh.covers hr, h.prefetched_eq ref hr]
      exact hkeep.bind fun _ _ _ => .pure rfl

theorem lockstep_keepFrom {keep : Handle → WalkM tree Bool}
    (hk : ∀ handle handle', ρ.Ties handle handle' →
      Lockstep (Alike ρ start start') (keep handle) (keep handle') Eq)
    {handles handles' : List Handle} (hh : List.Forall₂ ρ.Ties handles handles') :
    Lockstep (Alike ρ start start') (Siblings.keepFrom release keep handles)
      (Siblings.keepFrom release keep handles') (List.Forall₂ ρ.Ties) := by
  induction hh with
  | nil => exact .pure .nil
  | cons hhead _ ih =>
      refine (hk _ _ hhead).bind fun kept kept' hkept => ?_
      cases hkept
      refine .ite Iff.rfl ?_ ?_
      · exact ih.bind fun _ _ hrest => .pure (.cons hhead hrest)
      · exact (lockstep_release hhead).bind fun _ _ _ => ih

theorem lockstep_enumerate (hh : ρ.Ties node node') :
    Lockstep (Alike ρ start start') (enumerate options node) (enumerate options node')
      (SameOutcome ρ.TiesSiblings) := by
  refine (lockstep_inSession (Session.lockstep_children hh)).bind fun found found' hfound => ?_
  cases hfound with
  | error e => exact .pure (.error e)
  | ok hsiblings =>
      refine .ite Iff.rfl (.bind ?_ fun _ _ hshown => .pure (.ok hshown)) (.pure (.ok hsiblings))
      refine (lockstep_keepFrom (fun _ _ => lockstep_isShowing) hsiblings.unvisited).bind
        fun kept kept' hkept => .pure ⟨hsiblings.nextIndex_eq, ?_, hkept⟩
      rw [hsiblings.nextIndex_eq, hkept.length_eq]

/-! ### Candidates -/

theorem lockstep_attributesFor (hh : ρ.Ties node node') :
    Lockstep (Alike ρ start start') (attributesFor options step node)
      (attributesFor options step node') (SameOutcome Eq) := by
  refine Lockstep.get.bind fun walk walk' h => ?_
  rw [hh.ref_eq, h.prefetched_eq _ hh.covers]
  cases walk.prefetched[node.ref]? with
  | some snapshot =>
      have hnext : Alike ρ start start'
          { walk with prefetched := walk.prefetched.erase node.ref }
          { walk' with prefetched := walk'.prefetched.erase (ρ.apply node.ref) } := by
        refine ⟨h.session, h.diagnostics_eq, fun ref hr => ?_⟩
        simp only [Std.ExtTreeMap.getElem?_erase, Std.LawfulEqOrd.compare_eq_iff_eq,
          Renaming.apply_inj hh.covers hr, h.prefetched_eq ref hr]
      exact (Lockstep.set hnext).bind fun _ _ _ => .pure (.of_eq rfl)
  | none =>
      exact .ite Iff.rfl (lockstep_inSession (Session.lockstep_attributes hh)) (.pure (.ok rfl))

theorem lockstep_positionFor (hh : ρ.Ties node node') (predicate : Predicate)
    (position : Option SiblingPosition) :
    Lockstep (Alike ρ start start') (positionFor predicate node position)
      (positionFor predicate node' position) (SameOutcome Eq) := by
  cases position with
  | some position => exact .pure (.ok rfl)
  | none =>
      refine .ite Iff.rfl (lockstep_inSession ?_) (.pure (.ok rfl))
      exact Session.lockstep_siblingPosition hh

theorem lockstep_judge (hh : ρ.Ties node node') (position : Option SiblingPosition) :
    Lockstep (Alike ρ start start') (judge options step node position)
      (judge options step node' position) (SameOutcome Eq) := by
  refine (lockstep_attributesFor hh).bind fun reading reading' hreading => ?_
  cases hreading with
  | error e => exact .pure (.error e)
  | ok hsnapshot =>
      cases hsnapshot
      refine .ite Iff.rfl (.pure (.ok rfl)) (.ite Iff.rfl (.pure (.ok rfl)) ?_)
      cases step.predicate with
      | none => exact .pure (.ok rfl)
      | some predicate =>
          refine (lockstep_positionFor hh predicate position).bind fun found found' hfound => ?_
          cases hfound with
          | error e => exact .pure (.error e)
          | ok hplace =>
              cases hplace
              exact .pure (.ok rfl)

theorem lockstep_judgeOrHide (hh : ρ.Ties node node') (position : SiblingPosition) :
    Lockstep (Alike ρ start start') (judgeOrHide options step node position)
      (judgeOrHide options step node' position) Eq := by
  refine (lockstep_judge hh (some position)).bind fun found found' hfound => ?_
  cases hfound with
  | ok hverdict => exact .pure hverdict
  | error e => exact lockstep_diagnoseThen e rfl

theorem lockstep_openBelow (hh : ρ.Ties node node') :
    Lockstep (Alike ρ start start') (openBelow options node) (openBelow options node')
      (Option.Rel ρ.TiesSiblings) := by
  refine (lockstep_enumerate hh).bind fun found found' hfound => ?_
  cases hfound with
  | ok hsiblings => exact .pure (.some hsiblings)
  | error e => exact lockstep_diagnoseThen e .none

theorem isMetBy_iff_of_ties {selected selected' : List Handle}
    (h : List.Forall₂ ρ.Ties selected selected') :
    demand.isMetBy selected' = true ↔ demand.isMetBy selected = true := by
  rw [Demand.isMetBy, isEmpty_eq_of_forall₂ h, Demand.isMetBy]

/-- What has been settled corresponds. -/
def SettledAlike (ρ : Renaming) (settled settled' : List Handle × Option Siblings) : Prop :=
  List.Forall₂ ρ.Ties settled.1 settled'.1 ∧ Option.Rel ρ.TiesSiblings settled.2 settled'.2

theorem lockstep_settle {earlier earlier' : List Handle}
    (he : List.Forall₂ ρ.Ties earlier earlier') (deeper : Bool) (hh : ρ.Ties node node')
    (position : SiblingPosition) :
    Lockstep (Alike ρ start start') (settle options step earlier deeper node position)
      (settle options step earlier' deeper node' position) (SettledAlike ρ) := by
  rw [settle_eq, settle_eq]
  refine (lockstep_judgeOrHide hh position).bind fun verdict verdict' hverdict => ?_
  cases hverdict
  refine (Lockstep.ite Iff.rfl (lockstep_openBelow hh) (.pure Option.Rel.none)).bind
    fun below below' hbelow => ?_
  have hnone : SettledAlike ρ ([], below) ([], below') := ⟨.nil, hbelow⟩
  refine .ite Iff.rfl ?_ (lockstep_releaseThen hh hnone)
  refine (lockstep_isAmong hh he).bind fun found found' hfound => ?_
  cases hfound
  exact .ite Iff.rfl (lockstep_releaseThen hh hnone) (.pure ⟨.cons hh .nil, hbelow⟩)

/-! ### Visits -/

theorem lockstep_visitEach (hc : options.cancelAt = none) {earlier earlier' : List Handle}
    (he : List.Forall₂ ρ.Ties earlier earlier') (deeper : Bool)
    {visitChildren visitChildren' : Siblings → WalkM tree Visit}
    (hv : ∀ siblings siblings', ρ.TiesSiblings siblings siblings' →
      Lockstep (Alike ρ start start') (visitChildren siblings) (visitChildren' siblings')
        (Visit.Alike ρ))
    {candidates candidates' : List (Handle × SiblingPosition)}
    (hcandidates : List.Forall₂ ρ.TiesCandidate candidates candidates') :
    Lockstep (Alike ρ start start')
      (visitEach options step demand earlier deeper visitChildren candidates)
      (visitEach options step demand earlier' deeper visitChildren' candidates')
      (Visit.Alike ρ) := by
  induction hcandidates with
  | nil => exact .pure ⟨.nil, rfl, .nil⟩
  | @cons candidate candidate' rest rest' hhead htail ih =>
      obtain ⟨node, position⟩ := candidate
      obtain ⟨node', position'⟩ := candidate'
      obtain ⟨hnode, hposition⟩ := hhead
      cases hposition
      have hrest := Renaming.handles_of_tiesCandidate htail
      refine (lockstep_checkpoint hc).bind fun found found' hfound => ?_
      cases hfound
      cases found with
      | some cause => exact lockstep_releaseThen hnode ⟨.nil, rfl, hrest⟩
      | none =>
          refine (lockstep_settle he deeper hnode position).bind fun settled settled' hsettled => ?_
          obtain ⟨kept, below⟩ := settled
          obtain ⟨kept', below'⟩ := settled'
          obtain ⟨hkept, hbelow⟩ := hsettled
          refine .ite (isMetBy_iff_of_ties hkept) ?_ ?_
          · have hopen : List.Forall₂ ρ.Ties (below.elim [] Siblings.unvisited)
                (below'.elim [] Siblings.unvisited) := by
              cases hbelow with
              | none => exact .nil
              | some hsiblings => exact hsiblings.unvisited
            exact (lockstep_releaseAll hopen).bind fun _ _ _ => .pure ⟨hkept, rfl, hrest⟩
          · have hvisit : Lockstep (Alike ρ start start') (below.elim (pure .nothing) visitChildren)
                (below'.elim (pure .nothing) visitChildren') (Visit.Alike ρ) := by
              cases hbelow with
              | none => exact .pure ⟨.nil, rfl, .nil⟩
              | some hsiblings => exact hv _ _ hsiblings
            refine hvisit.bind fun inner inner' hinner => ?_
            have hselected := List.rel_append hkept hinner.selected
            rw [hinner.stop_eq]
            cases inner.stop with
            | some stop => exact .pure ⟨hselected, rfl, List.rel_append hrest hinner.abandoned⟩
            | none =>
                exact ih.bind fun outer outer' houter =>
                  .pure ⟨List.rel_append hselected houter.selected, houter.stop_eq,
                    houter.abandoned⟩

theorem lockstep_visitBelow (hc : options.cancelAt = none) {earlier earlier' : List Handle}
    (he : List.Forall₂ ρ.Ties earlier earlier') (fuel depth : Nat)
    {siblings siblings' : Siblings} (hs : ρ.TiesSiblings siblings siblings') :
    Lockstep (Alike ρ start start') (visitBelow options step demand earlier fuel depth siblings)
      (visitBelow options step demand earlier' fuel depth siblings') (Visit.Alike ρ) := by
  induction fuel generalizing depth siblings siblings' with
  | zero =>
      exact (lockstep_releaseAll hs.unvisited).bind fun _ _ _ => .pure ⟨.nil, rfl, .nil⟩
  | succ fuel ih =>
      exact lockstep_visitEach hc he _ (fun _ _ h => ih (depth + 1) h) hs.remaining

/-! ### Contexts -/

theorem lockstep_unreachable (hh : ρ.Ties node node') (error : BridgeError) :
    Lockstep (Alike ρ start start') (unreachable node error) (unreachable node' error)
      (Expansion.Alike ρ) := by
  refine .ite (by rw [hh.isBorrowed_eq]) (.pure ⟨.nil, rfl⟩) ?_
  exact (lockstep_diagnose error).bind fun _ _ _ => lockstep_releaseThen hh ⟨.nil, rfl⟩

theorem lockstep_filterSelf (hc : options.cancelAt = none) (hh : ρ.Ties node node') :
    Lockstep (Alike ρ start start') (filterSelf options step node) (filterSelf options step node')
      (Expansion.Alike ρ) := by
  refine (lockstep_checkpoint hc).bind fun found found' hfound => ?_
  cases hfound
  cases found with
  | some cause => exact lockstep_releaseThen hh ⟨.nil, rfl⟩
  | none =>
      refine (lockstep_judge hh none).bind fun verdict verdict' hverdict => ?_
      cases hverdict with
      | error e => exact lockstep_unreachable hh e
      | @ok verdict verdict' hverdict =>
          cases hverdict
          cases verdict with
          | accepted => exact .pure ⟨.cons hh .nil, rfl⟩
          | hidden | rejected => exact lockstep_releaseThen hh ⟨.nil, rfl⟩

theorem lockstep_expandChildren (hc : options.cancelAt = none) (hh : ρ.Ties node node') :
    Lockstep (Alike ρ start start') (expandChildren options step demand node)
      (expandChildren options step demand node') (Expansion.Alike ρ) := by
  refine (lockstep_enumerate hh).bind fun found found' hfound => ?_
  cases hfound with
  | error e => exact lockstep_unreachable hh e
  | ok hsiblings =>
      refine (lockstep_visitEach hc .nil false (fun _ _ _ => .pure ⟨.nil, rfl, .nil⟩)
        hsiblings.remaining).bind fun visit visit' hvisit => ?_
      rw [hvisit.stop_eq]
      split
      · exact (lockstep_release hh).bind fun _ _ _ =>
          (lockstep_releaseAll hvisit.abandoned).bind fun _ _ _ => .pure ⟨hvisit.selected, rfl⟩
      · exact (lockstep_releaseAll hvisit.abandoned).bind fun _ _ _ =>
          (lockstep_release hh).bind fun _ _ _ => .pure ⟨hvisit.selected, rfl⟩

theorem lockstep_expandDescendants (hc : options.cancelAt = none) {context context' : Context}
    (hcontext : context.Alike ρ context') {selected selected' : List Handle}
    (hs : List.Forall₂ ρ.Ties selected selected') :
    Lockstep (Alike ρ start start') (expandDescendants options step demand context selected)
      (expandDescendants options step demand context' selected') (Expansion.Alike ρ) := by
  refine (lockstep_enumerate hcontext.handle).bind fun found found' hfound => ?_
  cases hfound with
  | error e => exact lockstep_unreachable hcontext.handle e
  | ok hsiblings =>
      have hearlier : List.Forall₂ ρ.Ties (if context.nested then selected else [])
          (if context'.nested then selected' else []) := by
        rw [hcontext.nested_eq]
        split
        · exact hs
        · exact .nil
      refine (lockstep_visitBelow hc hearlier tree.size 1 hsiblings).bind
        fun visit visit' hvisit => ?_
      refine (lockstep_releaseAll hvisit.abandoned).bind fun _ _ _ =>
        (lockstep_release hcontext.handle).bind fun _ _ _ => ?_
      rw [hvisit.stop_eq]
      split <;> exact .pure ⟨hvisit.selected, rfl⟩

theorem lockstep_expand (hc : options.cancelAt = none) {context context' : Context}
    (hcontext : context.Alike ρ context') {selected selected' : List Handle}
    (hs : List.Forall₂ ρ.Ties selected selected') :
    Lockstep (Alike ρ start start') (expand options step demand context selected)
      (expand options step demand context' selected') (Expansion.Alike ρ) := by
  unfold expand
  cases step.axis with
  | self => exact lockstep_filterSelf hc hcontext.handle
  | child => exact lockstep_expandChildren hc hcontext.handle
  | descendant | any => exact lockstep_expandDescendants hc hcontext hs

theorem lockstep_expandAll (hc : options.cancelAt = none) {contexts contexts' : List Context}
    (hcontexts : List.Forall₂ (Context.Alike ρ) contexts contexts')
    {selected selected' : List Handle} (hs : List.Forall₂ ρ.Ties selected selected') :
    Lockstep (Alike ρ start start') (expandAll options step demand contexts selected)
      (expandAll options step demand contexts' selected') (Expansion.Alike ρ) := by
  induction hcontexts generalizing selected selected' with
  | nil => exact .pure ⟨hs, rfl⟩
  | @cons context context' rest rest' hhead htail ih =>
      refine .ite (isMetBy_iff_of_ties hs)
        ((lockstep_release hhead.handle).bind fun _ _ _ => ih hs) ?_
      refine (lockstep_expand hc hhead hs).bind fun found found' hfound => ?_
      have hselected := List.rel_append hs hfound.selected
      have hrest : List.Forall₂ ρ.Ties (rest.map Context.handle) (rest'.map Context.handle) :=
        List.rel_map (fun _ _ h => h.handle) htail
      rw [hfound.failure_eq]
      cases found.failure with
      | none => exact ih hselected
      | some error =>
          exact (lockstep_releaseAll hselected).bind fun _ _ _ =>
            (lockstep_releaseAll hrest).bind fun _ _ _ => .pure ⟨.nil, rfl⟩

/-! ### Nested contexts -/

theorem lockstep_climb {targets targets' : List Handle}
    (ht : List.Forall₂ ρ.Ties targets targets') (fuel : Nat) {above above' : Option Handle}
    (ha : Option.Rel ρ.Ties above above') :
    Lockstep (Alike ρ start start') (climb targets fuel above) (climb targets' fuel above') Eq := by
  induction fuel generalizing above above' with
  | zero =>
      cases ha with
      | none => exact .pure rfl
      | some hancestor => exact lockstep_releaseThen hancestor rfl
  | succ fuel ih =>
      cases ha with
      | none => exact .pure rfl
      | some hancestor =>
          refine (lockstep_isAmong hancestor ht).bind fun found found' hfound => ?_
          cases hfound
          refine .ite Iff.rfl (lockstep_releaseThen hancestor rfl) ?_
          exact (lockstep_parentOf hancestor).bind fun _ _ hparent =>
            (lockstep_release hancestor).bind fun _ _ _ => ih hparent

theorem lockstep_isBelow (hh : ρ.Ties node node') {contexts contexts' : List Context}
    (hcontexts : List.Forall₂ (Context.Alike ρ) contexts contexts') :
    Lockstep (Alike ρ start start') (isBelow node contexts) (isBelow node' contexts') Eq := by
  have houter : List.Forall₂ (Context.Alike ρ) (contexts.filter fun c => !c.nested)
      (contexts'.filter fun c => !c.nested) :=
    List.rel_filter (fun _ _ h => by simp only [h.nested_eq]) hcontexts
  refine (lockstep_parentOf hh).bind fun parent parent' hparent => ?_
  exact lockstep_climb (List.rel_map (fun _ _ h => h.handle) houter) tree.size hparent

theorem lockstep_separate {contexts contexts' : List Context}
    (hcontexts : List.Forall₂ (Context.Alike ρ) contexts contexts')
    {frontier frontier' : List Handle} (hf : List.Forall₂ ρ.Ties frontier frontier') :
    Lockstep (Alike ρ start start') (separate options contexts frontier)
      (separate options contexts' frontier') (List.Forall₂ (Context.Alike ρ)) := by
  induction hf generalizing contexts contexts' with
  | nil => exact .pure hcontexts
  | @cons node node' rest rest' hnode _ ih =>
      have hadd (nested : Bool) : List.Forall₂ (Context.Alike ρ) (contexts ++ [⟨node, nested⟩])
          (contexts' ++ [⟨node', nested⟩]) :=
        List.rel_append hcontexts (.cons ⟨hnode, rfl⟩ .nil)
      rw [separate_cons, separate_cons]
      have hempty : contexts'.isEmpty = true ↔ contexts.isEmpty = true := by
        rw [isEmpty_eq_of_forall₂ hcontexts]
      refine (Lockstep.ite hempty (.pure rfl) (lockstep_isBelow hnode hcontexts)).bind
        fun nested nested' hnested => ?_
      cases hnested
      exact .ite Iff.rfl (ih (hadd false)) (.ite Iff.rfl (ih (hadd true))
        ((lockstep_release hnode).bind fun _ _ _ => ih hcontexts))

theorem lockstep_contextsFor {frontier frontier' : List Handle}
    (hf : List.Forall₂ ρ.Ties frontier frontier') :
    Lockstep (Alike ρ start start') (contextsFor options step frontier)
      (contextsFor options step frontier') (List.Forall₂ (Context.Alike ρ)) := by
  refine .ite (by rw [hf.length_eq]) (lockstep_separate .nil hf) (.pure ?_)
  exact List.rel_map (fun _ _ h => ⟨h, rfl⟩) hf

/-! ### Steps -/

theorem lockstep_applySteps (hc : options.cancelAt = none) (demand : Demand) (steps : List Step)
    {frontier frontier' : List Handle} (hf : List.Forall₂ ρ.Ties frontier frontier') :
    Lockstep (Alike ρ start start') (applySteps options demand steps frontier)
      (applySteps options demand steps frontier') (Expansion.Alike ρ) := by
  induction steps generalizing frontier frontier' with
  | nil => exact .pure ⟨hf, rfl⟩
  | cons step rest ih =>
      have hstep : Lockstep (Alike ρ start start')
          (applyStep options step (if rest.isEmpty then demand else .all) frontier)
          (applyStep options step (if rest.isEmpty then demand else .all) frontier')
          (Expansion.Alike ρ) :=
        (lockstep_contextsFor hf).bind fun _ _ hcontexts => lockstep_expandAll hc hcontexts .nil
      refine hstep.bind fun found found' hfound => ?_
      have hdone : (found'.failure.isSome || found'.selected.isEmpty) = true ↔
          (found.failure.isSome || found.selected.isEmpty) = true := by
        rw [hfound.failure_eq, isEmpty_eq_of_forall₂ hfound.selected]
      exact .ite hdone (.pure hfound) (ih hfound.selected)

end Walk

end AccessQuery
