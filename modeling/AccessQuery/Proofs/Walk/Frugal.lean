/-
**No candidate is read twice.**

The attributes of a node are read when hidden children are sorted out, and when a candidate is
judged.  What was read in the one place is kept for the other, so that a child is read once on both
ways together.  Self steps judge the nodes of their frontier, which have been judged before; each of
them is read once more.

While a step is taken, some references are still to be judged.  Each of these has not been read
since the step began, or its attributes have been kept.  Those that were selected have been judged
already.  No reference is on both lists, or on one of them twice, since every acquisition yields a
new one.  So every judgement takes a reference from the one list to the other, or away from both.

Main definitions:

* `AccessQuery.Walk.Unread` — references that have not been read;
* `AccessQuery.Walk.Frugal` — what holds while a step is taken.

Main results:

* `AccessQuery.Walk.gentle_frugal` — only reading and enumerating matter;
* `AccessQuery.Walk.keepFrom_frugal`, `AccessQuery.Walk.attributesFor_frugal` — the two places where
  attributes are read;
* `AccessQuery.Walk.visitBelow_frugal`, `AccessQuery.Walk.expandAll_frugal`,
  `AccessQuery.Walk.applyStep_frugal` — visits, contexts and a step.
-/

import Mathlib.Data.List.Perm.Subperm
import AccessQuery.Proofs.Making
import AccessQuery.Proofs.Walk.Rooted

set_option relaxedAutoImplicit false
set_option autoImplicit false

namespace AccessQuery

variable {tree : Tree}

/-- The references of some handles. -/
abbrev refsOf (handles : List Handle) : List NativeRef :=
  handles.map Handle.ref

namespace Walk

/-! ### The invariant -/

/-- Some references have not been read since the bridge was as given. -/
def Unread (base : Bridge tree) (refs : List NativeRef) (walk : Walk tree) : Prop :=
  ∀ ref ∈ refs, walk.session.bridge.reads ref ≤ base.reads ref

/-- Since a step began, when the bridge was as given, no reference has been read twice, and none
that is older than some address or has not been acquired has been read at all.  Some references
have been judged, and others are to be judged, which have not been read unless their attributes have
been kept. -/
structure Frugal (base : Bridge tree) (oldest : Nat) (judged due : List NativeRef)
    (walk : Walk tree) : Prop where
  acquired_le : base.acquired ≤ walk.session.bridge.acquired
  oldest_le : oldest ≤ 0x1001 + base.acquired
  once : ∀ ref, walk.session.bridge.reads ref ≤ base.reads ref + 1
  spared : ∀ ref : NativeRef,
    ref.address < oldest ∨ 0x1000 + walk.session.bridge.acquired < ref.address →
    walk.session.bridge.reads ref ≤ base.reads ref
  distinct : (judged ++ due).Nodup
  issued : ∀ ref ∈ judged ++ due, ref.address ≤ 0x1000 + walk.session.bridge.acquired
  recent : ∀ ref ∈ due, oldest ≤ ref.address
  unread : ∀ ref ∈ due, ref ∈ walk.prefetched ∨ walk.session.bridge.reads ref ≤ base.reads ref

variable {base : Bridge tree} {oldest : Nat} {judged judged' due due' : List NativeRef}
variable {walk : Walk tree} {options : ResolveOptions} {node : Handle}

namespace Frugal

/-- What is neither to be selected nor to be judged any more is forgotten. -/
theorem of_subperm (h : Frugal base oldest judged due walk)
    (hs : (judged' ++ due').Subperm (judged ++ due)) (hd : due' ⊆ due) :
    Frugal base oldest judged' due' walk where
  acquired_le := h.acquired_le
  oldest_le := h.oldest_le
  once := h.once
  spared := h.spared
  distinct := by
    obtain ⟨kept, hp, hsub⟩ := hs
    exact hp.nodup_iff.1 (h.distinct.sublist hsub)
  issued ref hr := h.issued ref (hs.subset hr)
  recent ref hr := h.recent ref (hd hr)
  unread ref hr := h.unread ref (hd hr)

theorem of_perm (h : Frugal base oldest judged due walk) (hj : judged'.Perm judged)
    (hd : due'.Perm due) : Frugal base oldest judged' due' walk :=
  h.of_subperm (hj.append hd).subperm hd.subset

/-- What is due need not be judged. -/
theorem drop (due : List NativeRef) (h : Frugal base oldest judged (due ++ due') walk) :
    Frugal base oldest judged due' walk :=
  h.of_subperm (((List.sublist_append_right due due').append_left judged).subperm)
    (List.subset_append_right due due')

/-- What has been judged need not be selected. -/
theorem reject (judged : List NativeRef) (h : Frugal base oldest (judged ++ judged') due walk) :
    Frugal base oldest judged' due walk :=
  h.of_subperm (((List.sublist_append_right judged judged').append_right due).subperm)
    (List.Subset.refl due)

/-- The next reference that is due has been judged. -/
theorem judge {ref : NativeRef} (h : Frugal base oldest judged (ref :: due) walk) :
    Frugal base oldest (ref :: judged) due walk :=
  h.of_subperm List.perm_middle.symm.subperm (List.subset_cons_self ref due)

/-- A call that reads no attributes changes nothing. -/
theorem makes {session : Session tree} {call : Call} (h : Frugal base oldest judged due walk)
    (hm : walk.session.bridge.Makes session.bridge call)
    (hq : ∀ ref, call.reads ref = false) :
    Frugal base oldest judged due { walk with session := session } := by
  have hle := hm.acquired_le
  have hreads (ref : NativeRef) : session.bridge.reads ref = walk.session.bridge.reads ref := by
    rw [hm.reads_eq, hq]
    rfl
  constructor
  · exact Nat.le_trans h.acquired_le hle
  · exact h.oldest_le
  · exact fun ref => hreads ref ▸ h.once ref
  · intro ref hr
    refine hreads ref ▸ h.spared ref (hr.imp_right fun hlt => ?_)
    dsimp only at hlt
    omega
  · exact h.distinct
  · intro ref hr
    exact Nat.le_trans (h.issued ref hr) (Nat.add_le_add_left hle _)
  · exact h.recent
  · exact fun ref hr => hreads ref ▸ h.unread ref hr

/-- References that are acquired have not been read, and are due. -/
theorem gain {session : Session tree} {call : Call} (h : Frugal base oldest judged due walk)
    (hm : walk.session.bridge.Makes session.bridge call)
    (hq : ∀ ref, call.reads ref = false) :
    Frugal base oldest judged (call.acquired ++ due) { walk with session := session } ∧
      Unread base call.acquired { walk with session := session } := by
  have hnow := h.makes hm hq
  have hunread : Unread base call.acquired { walk with session := session } := by
    intro ref hr
    dsimp only
    rw [hm.reads_eq, hq]
    exact h.spared ref (Or.inr (hm.fresh ref hr).1)
  have hnew : ∀ ref ∈ call.acquired, ref ∉ judged ++ due := by
    intro ref hr hold
    exact absurd (h.issued ref hold) (Nat.not_le.2 (hm.fresh ref hr).1)
  have hperm : (judged ++ (call.acquired ++ due)).Perm (call.acquired ++ (judged ++ due)) := by
    rw [← List.append_assoc, ← List.append_assoc]
    exact List.perm_append_comm.append_right due
  refine ⟨⟨hnow.acquired_le, hnow.oldest_le, hnow.once, hnow.spared, ?_, ?_, ?_, ?_⟩, hunread⟩
  · rw [hperm.nodup_iff, List.nodup_append']
    exact ⟨hm.nodup, h.distinct, hnew⟩
  · intro ref hr
    rcases List.mem_append.1 (hperm.mem_iff.1 hr) with hr | hr
    · exact (hm.fresh ref hr).2
    · exact hnow.issued ref hr
  · intro ref hr
    rcases List.mem_append.1 hr with hr | hr
    · have hfresh := (hm.fresh ref hr).1
      have hle := h.acquired_le
      have hold := h.oldest_le
      omega
    · exact hnow.recent ref hr
  · intro ref hr
    rcases List.mem_append.1 hr with hr | hr
    · exact Or.inr (hunread ref hr)
    · exact hnow.unread ref hr

/-- What is due is due once. -/
theorem notMem_due {ref : NativeRef} (h : Frugal base oldest judged (ref :: due) walk) :
    ref ∉ due :=
  (List.nodup_cons.1 (List.nodup_append.1 h.distinct).2.1).1

/-- A reference that is due is read, if it has not been read. -/
theorem read {session : Session tree} {ref : NativeRef} {outcome : Except BridgeError Unit}
    (h : Frugal base oldest judged (ref :: due) walk)
    (hu : walk.session.bridge.reads ref ≤ base.reads ref)
    (hm : walk.session.bridge.Makes session.bridge (.attributes ref outcome)) :
    Frugal base oldest (ref :: judged) due { walk with session := session } := by
  have hself : session.bridge.reads ref = walk.session.bridge.reads ref + 1 := by
    rw [hm.reads_eq, if_pos (by simp [Call.reads])]
  have hold : ref.address ≤ 0x1000 + walk.session.bridge.acquired := h.issued ref (by simp)
  have hrecent : oldest ≤ ref.address := h.recent ref List.mem_cons_self
  have hle := hm.acquired_le
  have hnow := h.judge
  refine ⟨Nat.le_trans h.acquired_le hle, h.oldest_le, fun other => ?_, fun other hr => ?_,
    hnow.distinct, fun other hr => ?_, hnow.recent, fun other hr => ?_⟩
  · by_cases hne : ref = other
    · rw [← hne, hself]
      exact Nat.succ_le_succ hu
    · rw [hm.reads_of_ne hne]
      exact h.once other
  · have hne : ref ≠ other := by
      rintro rfl
      dsimp only at hr
      omega
    rw [hm.reads_of_ne hne]
    refine h.spared other (hr.imp_right fun hlt => ?_)
    dsimp only at hlt
    omega
  · exact Nat.le_trans (hnow.issued other hr) (Nat.add_le_add_left hle _)
  · have hne : ref ≠ other := by
      rintro rfl
      exact h.notMem_due hr
    rw [hm.reads_of_ne hne]
    exact hnow.unread other hr

/-- Attributes that have been read are kept until their node is judged. -/
theorem keep {ref : NativeRef} (h : Frugal base oldest (ref :: judged) due walk)
    (hr : oldest ≤ ref.address) (snapshot : Snapshot) :
    Frugal base oldest judged (ref :: due)
      { walk with prefetched := walk.prefetched.insert ref snapshot } where
  acquired_le := h.acquired_le
  oldest_le := h.oldest_le
  once := h.once
  spared := h.spared
  distinct := List.perm_middle.nodup_iff.2 h.distinct
  issued other ho := h.issued other (List.perm_middle.mem_iff.1 ho)
  recent other ho := by
    rcases List.mem_cons.1 ho with rfl | ho
    · exact hr
    · exact h.recent other ho
  unread other ho := by
    rcases List.mem_cons.1 ho with rfl | ho
    · exact Or.inl Std.ExtTreeMap.mem_insert_self
    · exact (h.unread other ho).imp_left fun hm => Std.ExtTreeMap.mem_insert.2 (Or.inr hm)

/-- They are used up when the node is judged. -/
theorem consume {ref : NativeRef} (h : Frugal base oldest judged (ref :: due) walk) :
    Frugal base oldest (ref :: judged) due
      { walk with prefetched := walk.prefetched.erase ref } := by
  have hnow := h.judge
  refine ⟨hnow.acquired_le, hnow.oldest_le, hnow.once, hnow.spared, hnow.distinct, hnow.issued,
    hnow.recent, fun other ho => (hnow.unread other ho).imp_left fun hm => ?_⟩
  have hne : ref ≠ other := by
    rintro rfl
    exact h.notMem_due ho
  exact Std.ExtTreeMap.mem_erase.2
    ⟨fun he => hne (Std.LawfulEqOrd.eq_of_compare he), hm⟩

end Frugal

/-! ### Moves that read nothing -/

theorem frugal_inSession {α : Type} {use : SessionM tree α} {call : Session tree → Call}
    (hm : ∀ session : Session tree, session.bridge.Makes (use session).2.bridge (call session))
    (hq : ∀ session ref, (call session).reads ref = false) :
    Preserves (Frugal base oldest judged due) (inSession use) :=
  fun walk h => h.makes (hm walk.session) (hq walk.session)

theorem frugal_diagnose (error : BridgeError) :
    Preserves (Frugal base oldest judged due : Walk tree → Prop) (diagnose error) :=
  fun _ h => ⟨h.acquired_le, h.oldest_le, h.once, h.spared, h.distinct, h.issued, h.recent,
    h.unread⟩

theorem frugal_release (handle : Handle) :
    Preserves (Frugal base oldest judged due : Walk tree → Prop) (release handle) := by
  intro walk h
  rcases Session.makes_release handle walk.session with he | ⟨outcome, hm⟩
  · have hsame : (release handle walk).2.session.bridge = walk.session.bridge := he
    constructor
    · exact hsame ▸ h.acquired_le
    · exact h.oldest_le
    · exact hsame ▸ h.once
    · exact hsame ▸ h.spared
    · exact h.distinct
    · exact hsame ▸ h.issued
    · exact h.recent
    · exact hsame ▸ h.unread
  · exact h.makes hm fun _ => rfl

/-- Giving back, climbing, comparing and noting read nothing. -/
theorem gentle_frugal : Gentle (Frugal base oldest judged due : Walk tree → Prop) where
  release := frugal_release
  parentOf node := preserves_parentOf
    (frugal_inSession (Session.makes_parent node) fun _ _ => rfl) frugal_diagnose
  same a b := preserves_same
    (frugal_inSession (Session.makes_sameObject a b) fun _ _ => rfl) frugal_diagnose
  diagnose := frugal_diagnose

theorem frugal_siblingPosition (node : Handle) :
    Preserves (Frugal base oldest judged due : Walk tree → Prop)
      (inSession (Session.siblingPosition node)) :=
  frugal_inSession (Session.makes_siblingPosition node) fun _ _ => rfl

/-! ### Enumerating -/

/-- The references of siblings, if there are any. -/
abbrev siblingRefs (siblings : Option Siblings) : List NativeRef :=
  refsOf (siblings.elim [] Siblings.unvisited)

/-- A child is looked at once; one that is showing is due, with its attributes kept. -/
theorem isShowing_frugal (child : Handle) (others : List NativeRef) (ho : others ⊆ due) :
    Ensures
      (fun walk : Walk tree => Frugal base oldest judged (child.ref :: due) walk ∧
        Unread base (child.ref :: others) walk)
      (isShowing child) fun shown walk =>
        Frugal base oldest judged (if shown then child.ref :: due else due) walk ∧
          Unread base others walk := by
  have hread : Ensures
      (fun walk : Walk tree => Frugal base oldest judged (child.ref :: due) walk ∧
        Unread base (child.ref :: others) walk)
      (inSession (Session.attributes child)) fun _ walk => oldest ≤ child.ref.address ∧
        Frugal base oldest (child.ref :: judged) due walk ∧ Unread base others walk := by
    rintro walk ⟨h, hu⟩
    have hm := Session.makes_attributes child walk.session
    refine ⟨h.recent _ List.mem_cons_self, h.read (hu _ List.mem_cons_self) hm, fun ref hr => ?_⟩
    have hne : child.ref ≠ ref := by
      rintro rfl
      exact h.notMem_due (ho hr)
    exact Nat.le_trans (Nat.le_of_eq (hm.reads_of_ne hne)) (hu ref (List.mem_cons_of_mem _ hr))
  refine hread.bind fun result => Ensures.of_and fun hrecent => ?_
  cases result with
  | error e =>
      exact fun walk h => ⟨(frugal_diagnose e walk h.1).reject [child.ref], h.2⟩
  | ok snapshot =>
      dsimp only
      split
      · exact fun walk h => ⟨h.1.keep hrecent snapshot, h.2⟩
      · exact fun walk h => ⟨h.1.reject [child.ref], h.2⟩

/-- Of children that have not been read, those that are kept are due. -/
theorem keepFrom_frugal (handles : List Handle) :
    Ensures
      (fun walk : Walk tree =>
        Frugal base oldest judged (refsOf handles ++ due) walk ∧ Unread base (refsOf handles) walk)
      (Siblings.keepFrom release isShowing handles) fun kept walk =>
        Frugal base oldest judged (refsOf kept ++ due) walk := by
  induction handles generalizing due with
  | nil => exact Ensures.pure fun _ h => h.1
  | cons child rest ih =>
      refine (isShowing_frugal child (refsOf rest)
        (List.subset_append_left _ due)).bind fun shown => ?_
      cases shown with
      | true =>
          have hnext := (@ih (child.ref :: due)).strengthen
            (P := fun walk : Walk tree =>
              Frugal base oldest judged (child.ref :: (refsOf rest ++ due)) walk ∧
                Unread base (refsOf rest) walk)
            fun walk h => ⟨h.1.of_perm (.refl _) List.perm_middle, h.2⟩
          exact hnext.bind fun kept => Ensures.pure fun _ h =>
            h.of_perm (.refl _) List.perm_middle.symm
      | false =>
          refine Ensures.bind (M := fun _ walk =>
            Frugal base oldest judged (refsOf rest ++ due) walk ∧ Unread base (refsOf rest) walk)
            (fun walk h => ⟨frugal_release child walk h.1, fun ref hr => ?_⟩) fun _ => ih
          exact (Session.reads_afterRelease child walk.session ref).symm ▸ h.2 ref hr

/-- The children that are taken notice of are due. -/
theorem enumerate_frugal (node : Handle) :
    Ensures (Frugal base oldest judged due : Walk tree → Prop) (enumerate options node)
      fun found walk => Frugal base oldest judged (siblingRefs found.toOption ++ due) walk := by
  have hchildren : Ensures (Frugal base oldest judged due : Walk tree → Prop)
      (inSession (Session.children node)) fun found walk =>
        Frugal base oldest judged (siblingRefs found.toOption ++ due) walk ∧
          Unread base (siblingRefs found.toOption) walk := by
    intro walk h
    have hgain := h.gain (Session.makes_children node walk.session) fun _ => rfl
    change Frugal base oldest judged (siblingRefs (Session.children node walk.session).1.toOption ++
        due) _ ∧ Unread base (siblingRefs (Session.children node walk.session).1.toOption) _
    generalize (Session.children node walk.session).1 = found at hgain
    cases found <;> exact hgain
  refine hchildren.bind fun found => ?_
  cases found with
  | error e => exact Ensures.pure fun _ h => h.1
  | ok siblings =>
      dsimp only
      split
      · exact ((keepFrom_frugal siblings.unvisited).bind fun _ =>
          Ensures.pure fun _ h => h).bind fun _ => Ensures.pure fun _ h => h
      · exact Ensures.pure fun _ h => h.1

theorem openBelow_frugal (node : Handle) :
    Ensures (Frugal base oldest judged due : Walk tree → Prop) (openBelow options node)
      fun below walk => Frugal base oldest judged (siblingRefs below ++ due) walk := by
  refine (enumerate_frugal node).bind fun found => ?_
  cases found with
  | ok siblings => exact Ensures.pure fun _ h => h
  | error e => exact (frugal_diagnose e).ensures.bind fun _ => Ensures.pure fun _ h => h

/-! ### Judging -/

/-- A candidate that is due is read once, unless its attributes have been kept. -/
theorem attributesFor_frugal (step : Step) (node : Handle) :
    Ensures (Frugal base oldest judged (node.ref :: due) : Walk tree → Prop)
      (attributesFor options step node) fun _ => Frugal base oldest (node.ref :: judged) due := by
  intro walk h
  simp only [attributesFor, bind, StateT.bind, get, getThe, MonadStateOf.get, StateT.get, pure]
  cases hp : walk.prefetched[node.ref]? with
  | some snapshot => exact h.consume
  | none =>
      have hunread : walk.session.bridge.reads node.ref ≤ base.reads node.ref := by
        refine (h.unread node.ref List.mem_cons_self).resolve_left fun hm => ?_
        rw [Std.ExtTreeMap.mem_iff_isSome_getElem?, hp] at hm
        cases hm
      dsimp only
      split
      · exact h.read hunread (Session.makes_attributes node walk.session)
      · exact h.judge

theorem judge_frugal (step : Step) (node : Handle) (position : Option SiblingPosition) :
    Ensures (Frugal base oldest judged (node.ref :: due) : Walk tree → Prop)
      (judge options step node position) fun _ => Frugal base oldest (node.ref :: judged) due :=
  ensures_judge (attributesFor_frugal step node) (frugal_siblingPosition node) position

theorem judgeOrHide_frugal (step : Step) (node : Handle) (position : SiblingPosition) :
    Ensures (Frugal base oldest judged (node.ref :: due) : Walk tree → Prop)
      (judgeOrHide options step node position)
      fun _ => Frugal base oldest (node.ref :: judged) due := by
  refine (judge_frugal step node (some position)).bind fun result => ?_
  cases result with
  | ok verdict => exact Ensures.pure fun _ h => h
  | error e => exact (frugal_diagnose e).ensures.bind fun _ => Ensures.pure fun _ h => h

/-- A candidate is judged, and its children are due where the walk goes on to them. -/
theorem settle_frugal (step : Step) (earlier : List Handle) (deeper : Bool) (node : Handle)
    (position : SiblingPosition) :
    Ensures (Frugal base oldest judged (node.ref :: due) : Walk tree → Prop)
      (settle options step earlier deeper node position) fun settled walk =>
        Frugal base oldest (refsOf settled.1 ++ judged) (siblingRefs settled.2 ++ due) walk := by
  rw [settle_eq]
  refine (judgeOrHide_frugal step node position).bind fun verdict => ?_
  refine Ensures.bind (M := fun below walk =>
    Frugal base oldest (node.ref :: judged) (siblingRefs below ++ due) walk) ?_ fun below => ?_
  · split
    · exact openBelow_frugal node
    · exact Ensures.pure fun _ h => h
  · have hdrop : Ensures
        (Frugal base oldest (node.ref :: judged) (siblingRefs below ++ due) : Walk tree → Prop)
        (do
          release node
          return (([] : List Handle), below)) fun settled walk =>
          Frugal base oldest (refsOf settled.1 ++ judged) (siblingRefs settled.2 ++ due) walk :=
      (frugal_release node).ensures.bind fun _ =>
        Ensures.pure fun _ h => h.reject [node.ref]
    split
    · refine (preserves_isAmong gentle_frugal node earlier).ensures.bind fun found => ?_
      split
      · exact hdrop
      · exact Ensures.pure fun _ h => h
    · exact hdrop

/-! ### Visits -/

/-- What is selected comes to what was selected before it. -/
theorem Frugal.select {first second : List NativeRef}
    (h : Frugal base oldest (second ++ (first ++ judged)) due walk) :
    Frugal base oldest ((first ++ second) ++ judged) due walk := by
  refine h.of_perm ?_ (.refl _)
  rw [← List.append_assoc second]
  exact List.perm_append_comm.append_right judged

/-- Every candidate is judged once, and selected or not. -/
theorem visitEach_frugal (step : Step) (demand : Demand) (earlier : List Handle) (deeper : Bool)
    {visitChildren : Siblings → WalkM tree Visit}
    (hv : ∀ (siblings : Siblings) (judged due : List NativeRef),
      Ensures (Frugal base oldest judged (refsOf siblings.unvisited ++ due))
        (visitChildren siblings) fun visit =>
          Frugal base oldest (refsOf visit.selected ++ judged) due)
    (candidates : List (Handle × SiblingPosition)) :
    Ensures (Frugal base oldest judged (refsOf (candidates.map Prod.fst) ++ due))
      (visitEach options step demand earlier deeper visitChildren candidates) fun visit =>
        Frugal base oldest (refsOf visit.selected ++ judged) due := by
  induction candidates generalizing judged with
  | nil => exact Ensures.pure fun _ h => h
  | cons candidate rest ih =>
      obtain ⟨node, position⟩ := candidate
      refine (preserves_checkpoint options).ensures.bind fun found => ?_
      cases found with
      | some cause =>
          exact (frugal_release node).ensures.bind fun _ => Ensures.pure fun _ h =>
            h.drop (node.ref :: refsOf (rest.map Prod.fst))
      | none =>
          refine (settle_frugal step earlier deeper node position).bind fun settled => ?_
          obtain ⟨kept, below⟩ := settled
          dsimp only
          split
          · exact (preserves_releaseAll gentle_frugal _).ensures.bind fun _ =>
              Ensures.pure fun _ h => (h.drop _).drop _
          · have hbelow : Ensures
                (Frugal base oldest (refsOf kept ++ judged)
                  (siblingRefs below ++ (refsOf (rest.map Prod.fst) ++ due)))
                (below.elim (pure .nothing) visitChildren) fun visit =>
                  Frugal base oldest (refsOf visit.selected ++ (refsOf kept ++ judged))
                    (refsOf (rest.map Prod.fst) ++ due) := by
              cases below with
              | none => exact Ensures.pure fun _ h => h
              | some siblings => exact hv siblings _ _
            refine hbelow.bind fun inner => ?_
            cases inner.stop with
            | some stop =>
                exact Ensures.pure fun _ h => by simpa [refsOf] using (h.drop _).select
            | none =>
                exact ih.bind fun outer => Ensures.pure fun _ h => by
                  simpa [refsOf] using h.select.select

/-- A visit of siblings judges each of them once, and everything below them. -/
theorem visitBelow_frugal (step : Step) (demand : Demand) (earlier : List Handle)
    (fuel depth : Nat) (siblings : Siblings) (judged due : List NativeRef) :
    Ensures (Frugal base oldest judged (refsOf siblings.unvisited ++ due) : Walk tree → Prop)
      (visitBelow options step demand earlier fuel depth siblings) fun visit =>
        Frugal base oldest (refsOf visit.selected ++ judged) due := by
  induction fuel generalizing depth siblings judged due with
  | zero =>
      exact (preserves_releaseAll gentle_frugal _).ensures.bind fun _ =>
        Ensures.pure fun _ h => h.drop _
  | succ fuel ih =>
      rw [visitBelow, ← map_fst_remaining siblings]
      exact visitEach_frugal step demand earlier _ (ih (depth + 1)) siblings.remaining

/-! ### Contexts -/

/-- The handles among the contexts of a step that it judges themselves. -/
def judgedBy (step : Step) (handles : List Handle) : List NativeRef :=
  if step.axis = .self then refsOf handles else []

theorem unreachable_frugal (node : Handle) (error : BridgeError) :
    Ensures (Frugal base oldest judged due : Walk tree → Prop) (unreachable node error)
      fun found => Frugal base oldest (refsOf found.selected ++ judged) due := by
  unfold unreachable
  split
  · exact Ensures.pure fun _ h => h
  · exact (frugal_diagnose error).ensures.bind fun _ => (frugal_release node).ensures.bind fun _ =>
      Ensures.pure fun _ h => h

theorem filterSelf_frugal (step : Step) (node : Handle) :
    Ensures (Frugal base oldest judged (node.ref :: due) : Walk tree → Prop)
      (filterSelf options step node) fun found =>
        Frugal base oldest (refsOf found.selected ++ judged) due := by
  refine (preserves_checkpoint options).ensures.bind fun found => ?_
  cases found with
  | some cause =>
      exact (frugal_release node).ensures.bind fun _ => Ensures.pure fun _ h => h.drop [node.ref]
  | none =>
      refine (judge_frugal step node none).bind fun verdict => ?_
      split
      · exact (unreachable_frugal node _).strengthen fun _ h => h.reject [node.ref]
      · exact Ensures.pure fun _ h => h
      · exact (frugal_release node).ensures.bind fun _ =>
          Ensures.pure fun _ h => h.reject [node.ref]

theorem expandChildren_frugal (step : Step) (demand : Demand) (node : Handle) :
    Ensures (Frugal base oldest judged due : Walk tree → Prop)
      (expandChildren options step demand node) fun found =>
        Frugal base oldest (refsOf found.selected ++ judged) due := by
  refine (enumerate_frugal node).bind fun found => ?_
  cases found with
  | error e => exact unreachable_frugal node e
  | ok siblings =>
      have hvisit : Ensures
          (Frugal base oldest judged (refsOf siblings.unvisited ++ due) : Walk tree → Prop)
          (visitEach options step demand [] false (fun _ => pure .nothing) siblings.remaining)
          fun visit => Frugal base oldest (refsOf visit.selected ++ judged) due := by
        rw [← map_fst_remaining siblings]
        refine visitEach_frugal step demand [] false (fun children judged due => ?_) _
        exact Ensures.pure fun _ h => h.drop _
      refine hvisit.bind fun visit => ?_
      split
      · exact (frugal_release node).ensures.bind fun _ =>
          (preserves_releaseAll gentle_frugal visit.abandoned).ensures.bind fun _ =>
            Ensures.pure fun _ h => h
      · exact (preserves_releaseAll gentle_frugal visit.abandoned).ensures.bind fun _ =>
          (frugal_release node).ensures.bind fun _ => Ensures.pure fun _ h => h

theorem expandDescendants_frugal (step : Step) (demand : Demand) (context : Context)
    (selected : List Handle) :
    Ensures (Frugal base oldest judged due : Walk tree → Prop)
      (expandDescendants options step demand context selected) fun found =>
        Frugal base oldest (refsOf found.selected ++ judged) due := by
  refine (enumerate_frugal context.handle).bind fun found => ?_
  cases found with
  | error e => exact unreachable_frugal context.handle e
  | ok siblings =>
      refine (visitBelow_frugal step demand _ tree.size 1 siblings judged due).bind fun visit => ?_
      refine (preserves_releaseAll gentle_frugal visit.abandoned).ensures.bind fun _ =>
        (frugal_release context.handle).ensures.bind fun _ => ?_
      split <;> exact Ensures.pure fun _ h => h

/-- A context is judged in a self step, and in no other. -/
theorem expand_frugal (step : Step) (demand : Demand) (context : Context)
    (selected : List Handle) :
    Ensures
      (Frugal base oldest judged (judgedBy step [context.handle] ++ due) : Walk tree → Prop)
      (expand options step demand context selected) fun found =>
        Frugal base oldest (refsOf found.selected ++ judged) due := by
  unfold expand judgedBy
  cases step.axis with
  | self => exact filterSelf_frugal step context.handle
  | child => exact expandChildren_frugal step demand context.handle
  | descendant | any => exact expandDescendants_frugal step demand context selected

theorem judgedBy_append (step : Step) (a b : List Handle) :
    judgedBy step (a ++ b) = judgedBy step a ++ judgedBy step b := by
  unfold judgedBy
  split
  · exact List.map_append
  · rfl

/-- What has been selected has been judged, from whichever contexts. -/
theorem expandAll_frugal (step : Step) (demand : Demand) (contexts : List Context)
    (selected : List Handle) :
    Ensures
      (Frugal base oldest (refsOf selected) (judgedBy step (contexts.map Context.handle)) :
        Walk tree → Prop)
      (expandAll options step demand contexts selected) fun found =>
        Frugal base oldest (refsOf found.selected) [] := by
  induction contexts generalizing selected with
  | nil =>
      refine Ensures.pure fun _ h => ?_
      rw [← List.append_nil (judgedBy step _)] at h
      exact h.drop _
  | cons context rest ih =>
      rw [List.map_cons, ← List.singleton_append, judgedBy_append]
      rw [expandAll]
      split
      · exact (frugal_release context.handle).ensures.bind fun _ =>
          (ih selected).strengthen fun _ h => h.drop _
      · refine (expand_frugal step demand context selected).bind fun found => ?_
        split
        · refine (ih _).strengthen fun _ h => ?_
          rw [refsOf, List.map_append]
          exact h.of_perm List.perm_append_comm (.refl _)
        · exact (preserves_releaseAll gentle_frugal _).ensures.bind fun _ =>
            (preserves_releaseAll gentle_frugal _).ensures.bind fun _ =>
              Ensures.pure fun _ h => h.of_subperm List.nil_subperm (List.nil_subset _)

/-- A step judges what it selects, and nothing twice. -/
theorem applyStep_frugal (step : Step) (demand : Demand) (frontier : List Handle) :
    Ensures (Frugal base oldest [] (judgedBy step frontier) : Walk tree → Prop)
      (applyStep options step demand frontier) fun found =>
        Frugal base oldest (refsOf found.selected) [] := by
  refine Ensures.bind (M := fun contexts walk =>
    Frugal base oldest [] (judgedBy step (contexts.map Context.handle)) walk) ?_ fun contexts =>
      expandAll_frugal step demand contexts []
  by_cases hs : step.axis = .self
  · -- the contexts of a self step are all of its frontier
    rw [contextsFor, if_neg (by simp [hs])]
    exact Ensures.pure fun _ h => by simpa [Function.comp_def] using h
  · simp only [judgedBy, if_neg hs]
    exact (preserves_contextsFor gentle_frugal step frontier).ensures

end Walk

end AccessQuery
