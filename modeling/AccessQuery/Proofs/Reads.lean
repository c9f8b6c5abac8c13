/-
**Nodes are met once and read once.**

A step goes over its contexts one after another, and contexts may lie below one another; nodes may
be met while a walk passes from one to the next, read when hidden ones are sorted out, and read when
they are judged.  Where no call fails and levels are not bounded, a step meets each node at most
once: its contexts have no nodes in common, since those below others are left out.  Whichever calls
fail, a step reads each reference at most once, and reads what was acquired before it only if it is
a self step.

So the attributes of a reference that a resolution acquires are read at most once in the step that
acquires it, and at most once in each self step that is taken later.

Main definitions:

* `AccessQuery.Stage.acquired`, `AccessQuery.Stage.reads`, `AccessQuery.Stage.encounters` — what a
  step acquires, how often it reads a reference, and the candidates that it encounters;
* `AccessQuery.Stage.ReadsOnce`, `AccessQuery.Stage.MeetsOnce` — at most once each;
* `AccessQuery.Walk.Fit` — a frontier from which nothing is read twice.

Main results:

* `AccessQuery.Outlook.Frontier.nodup_met` — what a step meets from a frontier;
* `AccessQuery.Walk.Fit.taken` — a step from a frontier that is fit leads to another;
* `AccessQuery.Walk.Fit.readsSince_le`, `AccessQuery.Walk.Fit.exists_stage` — steps one after
  another;
* `AccessQuery.Session.run_readsOnce` — a resolution.
-/

import AccessQuery.Proofs.Nesting
import AccessQuery.Proofs.Walk.Frugal
import AccessQuery.Proofs.Walk.Meeting

set_option relaxedAutoImplicit false
set_option autoImplicit false

namespace AccessQuery

variable {tree : Tree}

/-! ### Nodes that are met -/

namespace Outlook

variable {o : Outlook tree} {step : Step} {root : tree.NodeId} {nodes : List tree.NodeId}

/-- Where levels are not bounded, no context is nested. -/
theorem filter_outer_separate (hm : o.options.maxDepth = none) (nodes : List tree.NodeId) :
    (o.separate [] nodes).filter (fun c => !c.2) = o.separate [] nodes := by
  refine List.filter_eq_self.2 fun c hc => ?_
  obtain ⟨before, after, he⟩ := List.append_of_mem hc
  have hnested := (o.wellNested_separate nodes before c after he).2
  rw [hm] at hnested
  simpa using hnested

/-- The contexts of a step have no nodes in common that it meets. -/
theorem Frontier.disjoint_met (hf : o.Faultless) (h : o.Frontier root nodes)
    (hm : o.options.maxDepth = none) :
    (o.contextsFor step nodes).Pairwise fun c d => (o.met step c.1).Disjoint (o.met step d.1) := by
  unfold contextsFor
  split
  · next ha =>
      have hapart := h.outer_apart hf
      rw [filter_outer_separate hm, List.pairwise_map] at hapart
      exact hapart.imp fun hcd x hc hd => hcd
        ⟨x, Or.inr (above_of_mem_met ha.1 hc), Or.inr (above_of_mem_met ha.1 hd)⟩
  · next hn =>
      rw [List.pairwise_map]
      by_cases ha : step.axis = .self ∨ step.axis = .child
      · exact h.nodup.imp fun hne x hc hd => hne (eq_of_mem_met ha hc hd)
      · -- a step below contexts that are not told apart has one of them at most
        have hbelow : step.axis = .descendant ∨ step.axis = .any := by
          cases hs : step.axis with
          | self => exact absurd (Or.inl hs) ha
          | child => exact absurd (Or.inr hs) ha
          | descendant => exact Or.inl rfl
          | any => exact Or.inr rfl
        have hfew : nodes.length ≤ 1 := Nat.not_lt.1 fun hlt => hn ⟨hbelow, hlt⟩
        match nodes, hfew with
        | [], _ => exact List.Pairwise.nil
        | [_], _ => exact List.pairwise_singleton _ _

/-- Where no call fails and levels are not bounded, a step from a frontier meets each node once. -/
theorem Frontier.nodup_met (hf : o.Faultless) (h : o.Frontier root nodes)
    (hm : o.options.maxDepth = none) :
    ((o.contextsFor step nodes).flatMap fun c => o.met step c.1).Nodup :=
  List.nodup_flatMap.2 ⟨fun c _ => o.nodup_met step c.1, h.disjoint_met hf hm⟩

end Outlook

/-! ### Stages -/

namespace Stage

/-- The references that a step acquires. -/
def acquired (options : ResolveOptions) (demand : Demand) (stage : Stage tree) : List NativeRef :=
  stage.before.session.bridge.acquiredSince (stage.taken options demand).2.session.bridge

/-- How often a step reads the attributes of a reference. -/
def reads (options : ResolveOptions) (demand : Demand) (stage : Stage tree) (ref : NativeRef) :
    Nat :=
  stage.before.session.bridge.readsSince (stage.taken options demand).2.session.bridge ref

/-- The candidates that a step encounters. -/
def encounters (options : ResolveOptions) (demand : Demand) (stage : Stage tree) :
    List (Handle × Walk tree) :=
  Walk.encountersStep options stage.step (if stage.later.isEmpty then demand else .all)
    stage.frontier stage.before

/-- A step reads no reference twice.  It reads none that is acquired later, and unless it is a self
step, none that was acquired before. -/
structure ReadsOnce (options : ResolveOptions) (demand : Demand) (stage : Stage tree) : Prop where
  once : ∀ ref, stage.reads options demand ref ≤ 1
  not_later : ∀ ref : NativeRef,
    0x1000 + (stage.taken options demand).2.session.bridge.acquired < ref.address →
    stage.reads options demand ref = 0
  not_earlier : stage.step.axis ≠ .self → ∀ ref : NativeRef,
    ref.address ≤ 0x1000 + stage.before.session.bridge.acquired → stage.reads options demand ref = 0

/-- A step meets no node twice. -/
structure MeetsOnce (options : ResolveOptions) (demand : Demand) (stage : Stage tree) : Prop where
  /-- There is a candidate for each look at the cancel flag, -/
  at_looks : (stage.encounters options demand).map Prod.snd =
    Walk.checkpointsStep options stage.step (if stage.later.isEmpty then demand else .all)
      stage.frontier stage.before
  /-- what the step selects is among the candidates, -/
  selected : (stage.taken options demand).1.selected.Sublist
    ((stage.encounters options demand).map Prod.fst)
  /-- and they denote nodes, none of them twice. -/
  distinct : ∃ nodes : List tree.NodeId, ((stage.encounters options demand).map fun e =>
    e.2.session.bridge.nodeOf? e.1) = nodes.map some ∧ nodes.Nodup

end Stage

namespace Walk

variable {options : ResolveOptions} {demand : Demand} {step : Step}
variable {frontier : List Handle} {walk : Walk tree}

/-! ### A step -/

/-- The references of a frontier differ, and have been acquired. -/
structure Fit (frontier : List Handle) (walk : Walk tree) : Prop where
  distinct : (refsOf frontier).Nodup
  issued : ∀ ref ∈ refsOf frontier, ref.address ≤ 0x1000 + walk.session.bridge.acquired

theorem numbered_taken (options : ResolveOptions) (demand : Demand) (stage : Stage tree) :
    stage.before.session.bridge.Numbered (stage.taken options demand).2.session.bridge :=
  preserves_applyStep ((Session.invariant_numbered stage.before.session.bridge).walk options)
    stage.step _ stage.frontier stage.before (.refl _)

theorem numbered_applySteps (options : ResolveOptions) (demand : Demand) (steps : List Step)
    (frontier : List Handle) (walk : Walk tree) :
    walk.session.bridge.Numbered
      (applySteps options demand steps frontier walk).2.session.bridge :=
  preserves_applySteps ((Session.invariant_numbered walk.session.bridge).walk options) demand steps
    frontier walk (.refl _)

namespace Fit

/-- Nothing has been read yet when a step begins. -/
theorem frugal (h : Fit frontier walk) (step : Step) :
    Frugal walk.session.bridge
      (if step.axis = .self then 0 else 0x1001 + walk.session.bridge.acquired) []
      (judgedBy step frontier) walk where
  acquired_le := Nat.le_refl _
  oldest_le := by
    split
    · exact Nat.zero_le _
    · exact Nat.le_refl _
  once _ := Nat.le_succ _
  spared _ _ := Nat.le_refl _
  distinct := by
    unfold judgedBy
    split
    · exact h.distinct
    · exact List.nodup_nil
  issued := by
    unfold judgedBy
    split
    · exact h.issued
    · simp
  recent := by
    unfold judgedBy
    split <;> simp
  unread _ _ := Or.inr (Nat.le_refl _)

/-- A step from a frontier that is fit, and what it selects. -/
theorem taken {stage : Stage tree} (h : Fit stage.frontier stage.before) (options : ResolveOptions)
    (demand : Demand) : stage.ReadsOnce options demand ∧
      Fit (stage.taken options demand).1.selected (stage.taken options demand).2 := by
  have hfrugal : Frugal stage.before.session.bridge _
      (refsOf (stage.taken options demand).1.selected) [] (stage.taken options demand).2 :=
    applyStep_frugal stage.step _ stage.frontier stage.before (h.frugal stage.step)
  have hnumbered := numbered_taken options demand stage
  have hreads (ref : NativeRef) : (stage.taken options demand).2.session.bridge.reads ref =
      stage.before.session.bridge.reads ref + stage.reads options demand ref :=
    Bridge.reads_eq_add hnumbered.calls_prefix ref
  have hspared (ref : NativeRef) (hle : (stage.taken options demand).2.session.bridge.reads ref ≤
      stage.before.session.bridge.reads ref) : stage.reads options demand ref = 0 := by
    have := hreads ref
    omega
  refine ⟨⟨fun ref => ?_, fun ref hr => ?_, fun ha ref hr => ?_⟩, ?_, fun ref hr => ?_⟩
  · have := hfrugal.once ref
    have := hreads ref
    omega
  · exact hspared ref (hfrugal.spared ref (Or.inr hr))
  · refine hspared ref (hfrugal.spared ref (Or.inl ?_))
    rw [if_neg ha]
    omega
  · exact List.append_nil (refsOf _) ▸ hfrugal.distinct
  · exact hfrugal.issued ref (List.mem_append_left _ hr)

/-! ### Steps -/

/-- A reference that was acquired before is read in self steps only, once in each. -/
theorem readsSince_le (h : Fit frontier walk) (options : ResolveOptions) (demand : Demand)
    (steps : List Step) {ref : NativeRef}
    (hr : ref.address ≤ 0x1000 + walk.session.bridge.acquired) :
    walk.session.bridge.readsSince
        (applySteps options demand steps frontier walk).2.session.bridge ref ≤
      (stages options demand steps frontier walk).countP fun stage => stage.step.axis = .self := by
  induction steps generalizing frontier walk with
  | nil => exact Nat.le_of_eq (Bridge.readsSince_self _ ref)
  | cons step rest ih =>
      let stage : Stage tree := ⟨step, rest, frontier, walk⟩
      obtain ⟨honce, hfit⟩ := @taken tree stage h options demand
      have hnumbered := numbered_taken options demand stage
      have hstep :
          stage.reads options demand ref ≤ if decide (step.axis = .self) then 1 else 0 := by
        split
        · exact honce.once ref
        · next ha => exact Nat.le_of_eq (honce.not_earlier (by simpa using ha) ref hr)
      rcases stages_cons_cases options demand stage with ⟨hrun, hstages⟩ | ⟨-, hrun, hstages⟩
      · rw [hrun, hstages, List.countP_singleton]
        exact hstep
      · have hrest := numbered_applySteps options demand rest
          (stage.taken options demand).1.selected (stage.taken options demand).2
        rw [hrun, hstages, List.countP_cons, Nat.add_comm,
          Bridge.readsSince_eq_add hnumbered.calls_prefix hrest.calls_prefix]
        refine Nat.add_le_add hstep (ih hfit ?_)
        exact Nat.le_trans hr (Nat.add_le_add_left hnumbered.acquired_le _)

/-- A reference that is acquired on the way is read once in the step that acquires it, and once in
each self step that is taken later, or less often. -/
theorem exists_stage (h : Fit frontier walk) (options : ResolveOptions) (demand : Demand)
    (steps : List Step) {ref : NativeRef}
    (hr : ref ∈ walk.session.bridge.acquiredSince
      (applySteps options demand steps frontier walk).2.session.bridge) :
    ∃ earlier stage later, stages options demand steps frontier walk = earlier ++ stage :: later ∧
      ref ∈ stage.acquired options demand ∧
      walk.session.bridge.readsSince
          (applySteps options demand steps frontier walk).2.session.bridge ref ≤
        1 + later.countP fun stage => stage.step.axis = .self := by
  induction steps generalizing frontier walk with
  | nil => exact absurd (Bridge.acquiredSince_self _ ▸ hr) List.not_mem_nil
  | cons step rest ih =>
      let stage : Stage tree := ⟨step, rest, frontier, walk⟩
      obtain ⟨honce, hfit⟩ := @taken tree stage h options demand
      have hnumbered := numbered_taken options demand stage
      rcases stages_cons_cases options demand stage with ⟨hrun, hstages⟩ | ⟨-, hrun, hstages⟩
      · rw [hrun] at hr ⊢
        exact ⟨[], stage, [], hstages, hr, honce.once ref⟩
      · have hrest := numbered_applySteps options demand rest
          (stage.taken options demand).1.selected (stage.taken options demand).2
        rw [hrun, Bridge.acquiredSince_append hnumbered.calls_prefix hrest.calls_prefix] at hr
        rw [hrun, hstages, Bridge.readsSince_eq_add hnumbered.calls_prefix hrest.calls_prefix]
        rcases List.mem_append.1 hr with hr | hr
        · refine ⟨[], stage, _, rfl, hr, Nat.add_le_add (honce.once ref) ?_⟩
          exact hfit.readsSince_le options demand rest (hnumbered.fresh ref hr).2
        · -- it has not been acquired yet
          have hnone : stage.reads options demand ref = 0 :=
            honce.not_later ref (hrest.fresh ref hr).1
          obtain ⟨earlier, found, later, hlater, hmem, hle⟩ := ih hfit hr
          refine ⟨stage :: earlier, found, later, congrArg (stage :: ·) hlater, hmem, ?_⟩
          rw [Stage.reads] at hnone
          rwa [hnone, Nat.zero_add]

end Fit

end Walk

/-! ### Resolutions -/

namespace Session

variable {start : Session tree} {options : ResolveOptions} {root : Handle} {node : tree.NodeId}

/-- At the start only the root is at hand. -/
theorem fit_root (hr : root.ref.address ≤ 0x1000 + start.bridge.acquired) :
    Walk.Fit [root.view] ⟨start, [], ∅⟩ where
  distinct := List.nodup_singleton _
  issued _ h := List.mem_singleton.1 h ▸ hr

/-- Every stage of a resolution starts from a frontier that is fit. -/
theorem fit_of_mem_stages (hr : root.ref.address ≤ 0x1000 + start.bridge.acquired)
    (options : ResolveOptions) (demand : Demand) (query : Query) :
    ∀ stage ∈ start.stages options demand query root, Walk.Fit stage.frontier stage.before := by
  refine forall_mem_stages (P := fun stage => Walk.Fit stage.frontier stage.before) ?_
    (fun _ _ _ => fit_root hr) query
  intro stage found after step rest hfit _ htaken
  have hnext := (hfit.taken options demand).2
  rwa [htaken] at hnext

/-- Where no call fails and levels are not bounded, every stage meets each node at most once. -/
theorem meetsOnce_of_mem_stages (hl : start.bridge.nodeOf? root = some node)
    (ho : ∀ ref ∈ start.ledger.outstanding, ref.address ≤ 0x1000 + start.bridge.acquired)
    (hf : ∀ op node, start.fault? op node = none) (hm : options.maxDepth = none) (demand : Demand)
    (query : Query) :
    ∀ stage ∈ start.stages options demand query root, stage.MeetsOnce options demand := by
  have hfaultless : (start.outlook options).Faultless := hf
  intro stage hstage
  obtain ⟨nodes, ⟨_, held, hfrontier, rfl, -, hk⟩, hnodes⟩ :=
    frontier_of_mem_stages hl ho hfaultless demand query stage hstage
  obtain ⟨found, hfound, hsub⟩ := Walk.encountersStep_meets stage.step
    (if stage.later.isEmpty then demand else .all) held stage.before
    ((List.append_nil held).symm ▸ hk)
  refine ⟨Walk.map_snd_encountersStep .., Walk.selected_sublist_encountersStep ..,
    found, ?_, (hnodes.nodup_met hfaultless hm).sublist hsub⟩
  rw [Stage.encounters, hfrontier]
  exact hfound

/-- A resolution reads a reference that it acquires at most once in the step that acquires it, and
at most once in each self step that is taken later.  Each step reads a reference at most once and,
unless it is a self step, none that had been acquired before.  Where no call fails and levels are
not bounded, each step meets a node at most once. -/
theorem run_readsOnce (hr : root.ref.address ≤ 0x1000 + start.bridge.acquired)
    (options : ResolveOptions) (demand : Demand) (query : Query) :
    (∀ ref ∈ start.bridge.acquiredSince (run options demand query root start).2.bridge,
      ∃ earlier stage later, start.stages options demand query root = earlier ++ stage :: later ∧
        ref ∈ stage.acquired options demand ∧
        start.bridge.readsSince (run options demand query root start).2.bridge ref ≤
          1 + later.countP fun stage => stage.step.axis = .self) ∧
    (∀ stage ∈ start.stages options demand query root, stage.ReadsOnce options demand) ∧
    ∀ node, start.bridge.nodeOf? root = some node →
      (∀ ref ∈ start.ledger.outstanding, ref.address ≤ 0x1000 + start.bridge.acquired) →
      (∀ op node, start.fault? op node = none) → options.maxDepth = none →
      ∀ stage ∈ start.stages options demand query root, stage.MeetsOnce options demand := by
  refine ⟨fun ref href => ?_, fun stage hs => ?_, fun node hl ho hf hm =>
    meetsOnce_of_mem_stages hl ho hf hm demand query⟩
  · by_cases hs : root.session = start.id
    · rw [snd_run hs] at href ⊢
      rw [stages, if_neg fun hne => hne hs]
      exact (fit_root hr).exists_stage options demand query.steps href
    · rw [run_of_foreign hs] at href
      exact absurd (Bridge.acquiredSince_self _ ▸ href) List.not_mem_nil
  · exact ((fit_of_mem_stages hr options demand query stage hs).taken options demand).1

/-- The second step climbs from a context below another, and leaves it out; what it selects is read
again in the third. -/
theorem run_readsOnce_opening :
    let panel := (Element.new "panel" "").setStates "showing"
    let label := (Element.new "label" "").setStates "showing"
    let tree := ((Tree.single (Element.new "frame" "")).addChild ⟨0, by decide⟩
      panel).addChild ⟨1, by decide⟩ label
    let opened := opening tree ⟨0, by decide⟩ fun _ _ => none
    let options : ResolveOptions := { visibleOnly := true }
    let query : Query := ⟨[⟨.any, .wildcard, none⟩, ⟨.descendant, .role "label", none⟩,
      ⟨.self, .wildcard, none⟩], by decide⟩
    let after := (run options .all query opened.1 opened.2).2
    let stages := opened.2.stages options .all query opened.1
    opened.1.ref.address ≤ 0x1000 + opened.2.bridge.acquired ∧
      opened.2.bridge.nodeOf? opened.1 = some ⟨0, by decide⟩ ∧
      (∀ ref ∈ opened.2.ledger.outstanding, ref.address ≤ 0x1000 + opened.2.bridge.acquired) ∧
      (∀ op node, opened.2.fault? op node = none) ∧ options.maxDepth = none ∧
      (opened.2.bridge.acquiredSince after.bridge).map (opened.2.bridge.readsSince after.bridge) =
        [1, 1, 0, 2] ∧
      (∀ ref ∈ opened.2.bridge.acquiredSince after.bridge,
        ∃ earlier stage later, stages = earlier ++ stage :: later ∧
          ref ∈ stage.acquired options .all ∧ opened.2.bridge.readsSince after.bridge ref ≤
            1 + later.countP fun stage => stage.step.axis = .self) ∧
      (∀ stage ∈ stages, stage.ReadsOnce options .all) ∧
      ∀ stage ∈ stages, stage.MeetsOnce options .all := by
  intro panel label tree opened options query after stages
  have h : opened.2.Undisturbed options opened.1 ⟨0, by decide⟩ :=
    undisturbed_opening tree ⟨0, by decide⟩ (by decide) rfl
  have hr : opened.1.ref.address ≤ 0x1000 + opened.2.bridge.acquired := by decide +kernel
  obtain ⟨hreads, honce, hmeets⟩ := run_readsOnce hr options .all query
  exact ⟨hr, h.denotes, h.outstanding_issued, h.faultless, rfl, by decide +kernel, hreads, honce,
    hmeets _ h.denotes h.outstanding_issued h.faultless rfl⟩

end Session

end AccessQuery
