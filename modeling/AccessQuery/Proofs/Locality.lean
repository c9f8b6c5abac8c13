/-
**Failures stay where they are.**

Where all children are taken notice of, a failing call costs a resolution no more than what lies at
or below the node it is made on.  Nothing is selected that would not be selected if no call failed,
since what can be judged is judged the same.  And what is selected then is still selected, unless
something fails on the way from the root down to it: a context that was left out because another
lies above it is made up for by that other one, which is on the same way.

Main definitions:

* `AccessQuery.Outlook.mended`, `AccessQuery.Session.mended` — the same where no call fails;
* `AccessQuery.Outlook.Clear` — nothing fails on the way from one node down to another.

Main results:

* `AccessQuery.Outlook.selects_of_mem_picks`, `AccessQuery.Outlook.mem_picks_of_clear` — what a step
  picks from one context;
* `AccessQuery.Outlook.mem_step_of_clear` — and from a frontier;
* `AccessQuery.Session.resolve_within_mended` — a resolution compared with one in which no call
  fails.
-/

import Mathlib.Tactic.SplitIfs
import AccessQuery.Proofs.Semantics

set_option relaxedAutoImplicit false
set_option autoImplicit false

namespace AccessQuery

variable {tree : Tree}

/-- Where all children are taken notice of, everything below a node is seen from it. -/
theorem Tree.SeenBelow.of_above {options : ResolveOptions} {a x : tree.NodeId}
    (hv : options.visibleOnly = false) (h : tree.Above a x) :
    ∃ n, tree.SeenBelow options a (n + 1) x := by
  have hseen {p y : tree.NodeId} (hp : tree.parent? y = some p) :
      y ∈ tree.seenChildren options p := by
    rw [seenChildren, hv]
    exact tree.mem_children.2 hp
  induction h with
  | parent hp => exact ⟨0, .child (hseen hp)⟩
  | up hp _ ih =>
      obtain ⟨n, hn⟩ := ih
      exact ⟨n + 1, .deeper hn (hseen hp)⟩

namespace Outlook

variable {o : Outlook tree} {step : Step} {c x root : tree.NodeId}

/-! ### One node -/

/-- The same options, where no call fails. -/
def mended (o : Outlook tree) : Outlook tree :=
  { o with fault? := fun _ _ => none }

theorem mended_faultless (o : Outlook tree) : o.mended.Faultless :=
  fun _ _ => rfl

theorem reading_mended {snapshot : Snapshot} (h : o.reading step x = .ok snapshot) :
    o.mended.reading step x = .ok snapshot := by
  unfold reading at h ⊢
  split at h
  · next hn =>
      split at h
      · cases h
      · exact (if_pos hn).trans h
  · next hn => exact (if_neg hn).trans h

theorem position_mended {predicate : Predicate} {known : Option SiblingPosition}
    {place : SiblingPosition} (h : o.position predicate x known = .ok place) :
    o.mended.position predicate x known = .ok place := by
  cases known with
  | some known => exact h
  | none =>
      unfold position at h ⊢
      dsimp only at h ⊢
      split at h
      · next hu =>
          split at h
          · cases h
          · exact (if_pos hu).trans h
      · next hu => exact (if_neg hu).trans h

/-- What can be judged is judged as if no call failed. -/
theorem judge_mended {known : Option SiblingPosition} {verdict : Verdict}
    (h : o.judge step x known = .ok verdict) : o.mended.judge step x known = .ok verdict := by
  unfold judge at h ⊢
  cases hr : o.reading step x with
  | error e =>
      rw [hr] at h
      cases h
  | ok snapshot =>
      rw [hr] at h
      rw [reading_mended hr, show o.mended.options = o.options from rfl]
      dsimp only at h ⊢
      split_ifs at h ⊢ with hhidden hrole
      · exact h
      · exact h
      · cases hp : step.predicate with
        | none => rwa [hp] at h
        | some predicate =>
            rw [hp] at h
            dsimp only at h ⊢
            cases hpos : o.position predicate x known with
            | error e =>
                rw [hpos] at h
                cases h
            | ok place => rwa [position_mended hpos, ← hpos]

/-- A node on which no call fails is judged as if none failed anywhere. -/
theorem judge_of_clear (h : ∀ op, o.fault? op x = none) (known : Option SiblingPosition) :
    o.judge step x known = o.mended.judge step x known := by
  have hr : o.reading step x = o.mended.reading step x := by
    simp only [reading, h]
    rfl
  have hp (predicate : Predicate) :
      o.position predicate x known = o.mended.position predicate x known := by
    simp only [position, h]
    rfl
  simp only [judge, hr, hp]
  rfl

theorem offspring_of_all (hv : o.options.visibleOnly = false) (node : tree.NodeId) :
    o.offspring node = tree.seenChildren o.options node := by
  rw [offspring, Tree.seenChildren, hv]
  rfl

theorem spot_of_all (hv : o.options.visibleOnly = false) (node : tree.NodeId) :
    o.spot node = tree.seenPlace o.options node :=
  spot_eq_seenPlace (offspring_of_all hv) node

theorem verdict_eq_accepted {candidate : tree.NodeId × SiblingPosition} :
    o.verdict step candidate = .accepted ↔
      o.judge step candidate.1 (some candidate.2) = .ok .accepted := by
  unfold verdict
  cases o.judge step candidate.1 (some candidate.2) <;> simp

/-- What a step admits would be admitted if no call failed. -/
theorem admits_of_admitted (hv : o.options.visibleOnly = false) (h : o.admitted step x = true) :
    o.admits step x = true := by
  rw [admitted, beq_iff_eq, verdict_eq_accepted, spot_of_all hv] at h
  have hj := judge_mended h
  rw [judge_faultless o.mended_faultless, Option.getD_some] at hj
  by_contra hn
  have hv' : o.mended.options.visibleOnly = false := hv
  simp [hv', show step.passes x _ = false from eq_false_of_ne_true hn] at hj

/-- A node on which no call fails is admitted if it would be, and gone on from in any case. -/
theorem verdict_of_clear (hv : o.options.visibleOnly = false) (hx : ∀ op, o.fault? op x = none) :
    o.verdict step (x, o.spot x) = if o.admits step x then .accepted else .rejected := by
  have hv' : o.mended.options.visibleOnly = false := hv
  rw [verdict, judge_of_clear hx, judge_faultless o.mended_faultless, Option.getD_some, hv',
    spot_of_all hv]
  rfl

/-! ### One context -/

/-- No call fails on the nodes from one down to another. -/
def Clear (o : Outlook tree) (c x : tree.NodeId) : Prop :=
  ∀ y, tree.AtOrAbove c y → tree.AtOrAbove y x → ∀ op, o.fault? op y = none

theorem Clear.lower {y : tree.NodeId} (h : o.Clear c x) (hy : tree.AtOrAbove c y) :
    o.Clear y x :=
  fun z hyz => h z (hy.trans hyz)

theorem Clear.upper {y : tree.NodeId} (h : o.Clear c x) (hy : tree.AtOrAbove y x) :
    o.Clear c y :=
  fun z hcz hzy => h z hcz (hzy.trans hy)

/-- What a step picks from a context it would select if no call failed. -/
theorem selects_of_mem_picks (hv : o.options.visibleOnly = false) (h : x ∈ o.picks step c) :
    step.Selects o.options c x := by
  unfold Step.Selects
  cases ha : step.axis with
  | self =>
      obtain ⟨rfl, hj⟩ := (mem_picks_self ha).1 h
      exact ⟨rfl, (judge_eq_accepted o.mended_faultless).1 (judge_mended hj)⟩
  | child =>
      obtain ⟨-, hx, hadmitted⟩ := (mem_picks_child ha).1 h
      exact ⟨(o.offspring_sublist c).mem hx, admits_of_admitted hv hadmitted⟩
  | descendant | any =>
      obtain ⟨-, hx, hadmitted⟩ := (mem_picks_below (by simp [ha])).1 h
      exact ⟨Tree.mem_descend_one.1 ((o.meet_sublist step _ _ c).mem hx),
        admits_of_admitted hv hadmitted⟩

/-- What it would select, it picks, if nothing fails on the way from the context down. -/
theorem mem_picks_of_clear (hv : o.options.visibleOnly = false) (hc : o.Clear c x)
    (h : step.Selects o.options c x) : x ∈ o.picks step c := by
  have hcx : tree.AtOrAbove c x := h.atOrAbove
  have hfault := hc c (Or.inl rfl) hcx
  have hadmitted (hx : o.admits step x = true) : o.admitted step x = true := by
    rw [admitted, verdict_of_clear hv (hc x hcx (Or.inl rfl)), hx]
    rfl
  unfold Step.Selects at h
  cases ha : step.axis with
  | self =>
      rw [ha] at h
      obtain ⟨rfl, hpass⟩ := h
      refine (mem_picks_self ha).2 ⟨rfl, ?_⟩
      rw [judge_of_clear hfault]
      exact (judge_eq_accepted o.mended_faultless).2 hpass
  | child =>
      rw [ha] at h
      refine (mem_picks_child ha).2 ⟨hfault .children, ?_, hadmitted h.2⟩
      exact offspring_of_all hv c ▸ h.1
  | descendant | any =>
      rw [ha] at h
      refine (mem_picks_below (by simp [ha])).2 ⟨hfault .children, ?_, hadmitted h.2⟩
      refine mem_meet_of_entered (Tree.mem_descend_one.2 h.1)
        (fun y z hy => offspring_of_all hv z ▸ hy) fun y hcy hyx => ?_
      -- a node on the way is gone on from whether or not the step admits it
      have hy := hc y (Or.inr hcy) (Or.inr hyx)
      rw [entered, verdict_of_clear hv hy, hy .children]
      cases o.admits step y <;> rfl

/-! ### Frontiers -/

/-- What a step selects from a frontier it would select if no call failed. -/
theorem selects_of_mem_step (hv : o.options.visibleOnly = false) {nodes : List tree.NodeId}
    (h : x ∈ o.step step nodes) : ∃ c ∈ nodes, step.Selects o.options c x := by
  obtain ⟨c, hc, hx⟩ := exists_mem_picks h
  exact ⟨c, hc, selects_of_mem_picks hv hx⟩

theorem mem_step_of_picks {nodes : List tree.NodeId}
    (hc : c ∈ (o.contextsFor step nodes).map Prod.fst) (h : x ∈ o.picks step c) :
    x ∈ o.step step nodes := by
  obtain ⟨context, hm, rfl⟩ := List.mem_map.1 hc
  exact mem_expandAll.2 ⟨context, hm, h⟩

/-- What it would select, it selects, if nothing fails on the way from the root down. -/
theorem mem_step_of_clear (hv : o.options.visibleOnly = false) {nodes : List tree.NodeId}
    (hroot : ∀ a ∈ nodes, tree.AtOrAbove root a) (hclear : o.Clear root x) (hc : c ∈ nodes)
    (h : step.Selects o.options c x) : x ∈ o.step step nodes := by
  have hx := mem_picks_of_clear hv (hclear.lower (hroot c hc)) h
  by_cases hsep : (step.axis = .descendant ∨ step.axis = .any) ∧ 1 < nodes.length
  · have hcontexts : o.contextsFor step nodes = o.separate [] nodes := if_pos hsep
    rcases mem_separate_or_above hc with hc | ⟨hmax, t, ht, htc⟩
    · exact mem_step_of_picks (hcontexts ▸ hc) hx
    · -- what lies below the context that was left out is below another one, on the same way
      obtain ⟨n, htc⟩ := Tree.SeenBelow.of_above hv htc
      have htnodes := (o.separate_sublist nodes).mem ht
      refine mem_step_of_picks (hcontexts ▸ ht) ?_
      exact mem_picks_of_clear hv (hclear.lower (hroot t htnodes)) (h.of_seenBelow hsep.1 hmax htc)
  · have hcontexts : o.contextsFor step nodes = nodes.map fun node => (node, false) := if_neg hsep
    exact mem_step_of_picks (by simpa [hcontexts] using hc) hx

theorem atOrAbove_of_step {nodes : List tree.NodeId} (h : ∀ a ∈ nodes, tree.AtOrAbove root a) :
    ∀ a ∈ o.step step nodes, tree.AtOrAbove root a := by
  intro a ha
  obtain ⟨c, hc, hac⟩ := exists_mem_picks ha
  exact (h c hc).trans (atOrAbove_of_mem_picks hac)

/-! ### Queries -/

/-- Nothing keeps a resolution from its result if no call on the root fails. -/
theorem resolve_ok_of_clear (hroot : ∀ op, o.fault? op root = none) (steps : List Step)
    {atRoot : Bool} {nodes : List tree.NodeId} (h : atRoot = true → ∀ a ∈ nodes, a = root) :
    ∃ found, o.resolve steps atRoot nodes = .ok found := by
  induction steps generalizing atRoot nodes with
  | nil => exact ⟨nodes, rfl⟩
  | cons step rest ih =>
      have hobstacle : o.obstacle? step root = none := by
        unfold obstacle?
        rw [judge_of_clear hroot, judge_faultless o.mended_faultless, hroot .children]
        cases step.axis <;> rfl
      have hreach : (if atRoot then nodes.findSome? (o.obstacle? step) else none) = none := by
        cases atRoot with
        | false => rfl
        | true => exact List.findSome?_eq_none_iff.2 fun a ha => h rfl a ha ▸ hobstacle
      rw [resolve, hreach]
      refine ih fun hself a ha => ?_
      -- the frontier is still the root after a self step
      simp only [Bool.and_eq_true, decide_eq_true_eq] at hself
      obtain ⟨c, hc, hac⟩ := exists_mem_picks ha
      exact ((mem_picks_self hself.2).1 hac).1.trans (h hself.1 c hc)

/-- What a query selects would be selected if no call failed. -/
theorem mem_selection_of_resolve (hv : o.options.visibleOnly = false) {steps : List Step}
    {atRoot : Bool} {nodes found : List tree.NodeId} {selected : Set tree.NodeId}
    (hsub : ∀ a ∈ nodes, a ∈ selected) (hr : o.resolve steps atRoot nodes = .ok found)
    (hx : x ∈ found) : x ∈ selection o.options steps selected := by
  induction steps generalizing atRoot nodes selected with
  | nil => exact hsub x (Except.ok.inj hr ▸ hx)
  | cons step rest ih =>
      refine ih (fun a ha => ?_) (resolve_cons_ok hr).2
      obtain ⟨c, hc, hca⟩ := selects_of_mem_step hv ha
      exact ⟨c, hsub c hc, hca⟩

/-- What would be selected is, if nothing fails on the way from the root down. -/
theorem mem_resolve_of_clear (hv : o.options.visibleOnly = false) {steps : List Step}
    {atRoot : Bool} {nodes found : List tree.NodeId} {selected : Set tree.NodeId}
    (hroot : ∀ a ∈ nodes, tree.AtOrAbove root a)
    (hbelow : ∀ a ∈ selected, tree.AtOrAbove root a)
    (hsup : ∀ a ∈ selected, o.Clear root a → a ∈ nodes)
    (hr : o.resolve steps atRoot nodes = .ok found) (hclear : o.Clear root x)
    (hx : x ∈ selection o.options steps selected) : x ∈ found := by
  induction steps generalizing atRoot nodes selected with
  | nil => exact Except.ok.inj hr ▸ hsup x hx hclear
  | cons step rest ih =>
      refine ih (atOrAbove_of_step hroot) ?_ ?_ (resolve_cons_ok hr).2 hx
      · rintro a ⟨c, hc, hca⟩
        exact (hbelow c hc).trans hca.atOrAbove
      · rintro a ⟨c, hc, hca⟩ ha
        have hcc := ha.upper hca.atOrAbove
        exact mem_step_of_clear hv hroot ha (hsup c hc hcc) hca

end Outlook

/-! ### Resolutions -/

namespace Session

variable {start : Session tree} {options : ResolveOptions} {root : Handle} {node : tree.NodeId}

/-- The same session, on a bridge whose calls do not fail. -/
def mended (start : Session tree) : Session tree :=
  { start with bridge := { start.bridge with failures := fun _ _ => none } }

theorem Steady.mended (h : start.Steady options root node)
    (hs : start.id = start.bridge.session) : start.mended.Undisturbed options root node :=
  have hmended : start.mended.Steady options root node :=
    ⟨h.session_eq, h.denotes, h.outstanding_issued, h.deadline_ne, h.cancelAt_eq⟩
  hmended.undisturbed (start.mended.fault?_eq_map hs)

/-- A resolution succeeds whatever fails, if nothing fails on the root and all children are taken
notice of.  It matches nothing that it would not match if no call failed, and everything that it
would match if nothing fails on the nodes from just below the root down to it. -/
theorem resolve_within_mended (h : start.Steady options root node)
    (hs : start.id = start.bridge.session) (hv : options.visibleOnly = false)
    (hroot : ∀ op, start.bridge.failures op node.val = none) (query : Query) :
    ∃ (found : List Handle) (after : Session tree) (nodes : List tree.NodeId)
      (found' : List Handle) (after' : Session tree) (nodes' : List tree.NodeId),
      resolve options query root start = (.ok found, after) ∧
      after.nodesOf found = nodes.map some ∧
      resolve options query root start.mended = (.ok found', after') ∧
      after'.nodesOf found' = nodes'.map some ∧
      (∀ x ∈ nodes, x ∈ nodes') ∧
      ∀ x ∈ nodes', (∀ y, tree.Above node y → tree.AtOrAbove y x →
        ∀ op, start.bridge.failures op y.val = none) → x ∈ nodes := by
  have hnone {op : BridgeOp} {y : tree.NodeId} (hy : start.bridge.failures op y.val = none) :
      (start.outlook options).fault? op y = none := by
    rw [outlook_fault?, start.fault?_eq_map hs, hy, Option.map_none]
  obtain ⟨nodes, hnodes⟩ := Outlook.resolve_ok_of_clear (fun op => hnone (hroot op)) query.steps
    fun _ a ha => List.mem_singleton.1 ha
  obtain ⟨found, after, hrun, hfound⟩ := resolve_steady h hnodes
  obtain ⟨found', after', nodes', hrun', hfound', -, hnodes'⟩ := resolve_selects (h.mended hs) query
  refine ⟨found, after, nodes, found', after', nodes', hrun, hfound, hrun', hfound', ?_, ?_⟩
  · intro x hx
    exact (hnodes' x).2 (Outlook.mem_selection_of_resolve hv (by simp) hnodes hx)
  · intro x hx hfree
    have hclear : (start.outlook options).Clear node x := by
      rintro y (rfl | hy) hyx op
      · exact hnone (hroot op)
      · exact hnone (hfree y hy hyx op)
    refine Outlook.mem_resolve_of_clear hv ?_ ?_ ?_ hnodes hclear ((hnodes' x).1 hx)
    · exact fun a ha => Or.inl (List.mem_singleton.1 ha).symm
    · exact fun a ha => Or.inl ha.symm
    · exact fun a ha _ => List.mem_singleton.2 ha

/-- Below the root of a tree where one of two panels cannot be asked for its children. -/
theorem resolve_within_mended_opening :
    let tree := ((((Tree.single (Element.new "frame" "")).addChild ⟨0, by decide⟩
      (Element.new "panel" "")).addChild ⟨0, by decide⟩ (Element.new "panel" "")).addChild
      ⟨1, by decide⟩ (Element.new "label" "")).addChild ⟨2, by decide⟩ (Element.new "label" "")
    let opened := opening tree ⟨0, by decide⟩ fun op place =>
      if op = .children ∧ place = 1 then some 5 else none
    let options : ResolveOptions := { maxDepth := some 3 }
    let query : Query :=
      ⟨[⟨.descendant, .role "panel", none⟩, ⟨.descendant, .role "label", none⟩], by decide⟩
    opened.2.Steady options opened.1 ⟨0, by decide⟩ ∧
      opened.2.id = opened.2.bridge.session ∧ options.visibleOnly = false ∧
      (∀ op, opened.2.bridge.failures op 0 = none) ∧
      ∃ (found : List Handle) (after : Session tree) (nodes : List tree.NodeId)
        (found' : List Handle) (after' : Session tree) (nodes' : List tree.NodeId),
        resolve options query opened.1 opened.2 = (.ok found, after) ∧
        after.nodesOf found = nodes.map some ∧
        resolve options query opened.1 opened.2.mended = (.ok found', after') ∧
        after'.nodesOf found' = nodes'.map some ∧
        (∀ x ∈ nodes, x ∈ nodes') ∧
        ∀ x ∈ nodes', (∀ y, tree.Above ⟨0, by decide⟩ y → tree.AtOrAbove y x →
          ∀ op, opened.2.bridge.failures op y.val = none) → x ∈ nodes := by
  intro tree opened options query
  have h : opened.2.Steady options opened.1 ⟨0, by decide⟩ :=
    steady_opening tree ⟨0, by decide⟩ _ (by decide) rfl
  have hroot (op : BridgeOp) : opened.2.bridge.failures op 0 = none := if_neg (by simp)
  exact ⟨h, rfl, rfl, hroot, resolve_within_mended h rfl rfl hroot query⟩

end Session

end AccessQuery
