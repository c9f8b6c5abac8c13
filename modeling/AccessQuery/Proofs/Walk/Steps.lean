/-
**Steps in the keeping of a walk.**

A step, and a sequence of steps, selects what the outlook of the resolution says, or fails for the
reason that it gives, unless it is interrupted.  What it selects is in hand afterwards, and nothing
else is; a step that fails leaves nothing in hand.

Main definitions:

* `AccessQuery.Walk.Expands` — what expanding contexts comes to.

Main results:

* `AccessQuery.Walk.expand_ensures`, `AccessQuery.Walk.expandAll_ensures` — one context, and all;
* `AccessQuery.Walk.applySteps_ensures` — a whole query.
-/

import AccessQuery.Proofs.Walk.Contexts
import AccessQuery.Proofs.Walk.Visits

set_option relaxedAutoImplicit false
set_option autoImplicit false

namespace AccessQuery

namespace Walk

variable {tree : Tree} {start : Session tree} {options : ResolveOptions} {root : NativeRef}
variable {held : List (Holding tree)} {x : Holding tree}

/-! ### One context -/

/-- Nodes were selected, or there is a failure, in accordance with an outcome; interruptions are
left to the options. -/
def Answers (options : ResolveOptions) (outcome : Except BridgeError (List tree.NodeId))
    (nodes : List tree.NodeId) : Option ResolveError → Prop
  | none => outcome = .ok nodes
  | some (.rootUnreachable e) => outcome = .error e
  | some (.interrupted cause) => ∃ made, options.interrupt? made = some cause
  | some (.sessionMismatch ..) => False

/-- A failure leaves open which nodes were selected. -/
theorem Answers.of_failure {outcome : Except BridgeError (List tree.NodeId)}
    {nodes nodes' : List tree.NodeId} {error : ResolveError}
    (h : Answers options outcome nodes (some error)) :
    Answers options outcome nodes' (some error) := by
  cases error <;> exact h

/-- A failure where there are nodes to select is an interruption, whichever they are. -/
theorem Answers.of_interruption {nodes nodes' kept kept' : List tree.NodeId} {error : ResolveError}
    (h : Answers options (.ok nodes) kept (some error)) :
    Answers options (.ok nodes') kept' (some error) := by
  cases error with
  | rootUnreachable e => cases h
  | sessionMismatch _ _ => exact h
  | interrupted cause => exact h

/-- What an expansion comes to that has these nodes to select, or this reason to fail.  A self step
selects nodes of a pool, the other steps select nodes that they acquire. -/
def Expands (start : Session tree) (options : ResolveOptions) (root : NativeRef) (step : Step)
    (outcome : Except BridgeError (List tree.NodeId)) (pool held : List (Holding tree))
    (expansion : Expansion) (walk : Walk tree) : Prop :=
  ∃ kept : List (Holding tree), expansion.selected = kept.map Holding.handle ∧
    Answers options outcome (kept.map Holding.node) expansion.failure ∧
    (if step.axis = .self then kept.Sublist pool else ∀ y ∈ kept, y.handle.isBorrowed = false) ∧
    Keeps start options root (kept ++ held) walk

/-- What comes of one context: the nodes it has to select, or why it cannot be read if it is the
root. -/
def outcomeOf (o : Outlook tree) (step : Step) (demand : Demand) (context : Holding tree × Bool)
    (selected : List tree.NodeId) : Except BridgeError (List tree.NodeId) :=
  match o.obstacle? step context.1.node, context.1.handle.isBorrowed with
  | some e, true => .error e
  | _, _ => .ok (demand.cut (o.expand step (context.1.node, context.2) selected))

theorem outcomeOf_owned {o : Outlook tree} {step : Step} {demand : Demand}
    {context : Holding tree × Bool} {selected : List tree.NodeId}
    (hb : context.1.handle.isBorrowed = false) : outcomeOf o step demand context selected =
      .ok (demand.cut (o.expand step (context.1.node, context.2) selected)) := by
  unfold outcomeOf
  rw [hb]
  split
  · next h => cases h
  · rfl

theorem Keeps.drop {walk : Walk tree} (h : Keeps start options root (x :: held) walk)
    (hb : x.handle.isBorrowed = true) : Keeps start options root held walk :=
  ⟨h.custody.drop hb, h.prefetched_issued,
    fun y hy => h.prefetched_read y (List.mem_cons_of_mem _ hy)⟩

@[simp] theorem Demand.cut_nil {α : Type} (demand : Demand) :
    demand.cut ([] : List α) = [] := by
  cases demand <;> rfl

theorem unreachable_ensures {step : Step} {demand : Demand} {nested : Bool}
    {selected : List tree.NodeId} {e : BridgeError}
    (he : (start.outlook options).obstacle? step x.node = some e) :
    Ensures (Keeps start options root (x :: held)) (unreachable x.handle e)
      (Expands start options root step
        (outcomeOf (start.outlook options) step demand (x, nested) selected) [x] held) := by
  unfold unreachable outcomeOf
  rw [he]
  by_cases hb : x.handle.isBorrowed = true
  · simp only [hb, if_true]
    exact Ensures.pure fun _ hk => ⟨[], rfl, rfl, by simp, hk.drop hb⟩
  · simp only [hb]
    refine (diagnose_ensures e).bind fun _ => release_ensures.bind fun _ =>
      Ensures.pure fun _ hk => ⟨[], rfl, ?_, by simp, hk⟩
    simp [Answers, Outlook.expand, he]

theorem filterSelf_ensures {step : Step} (ha : step.axis = .self) (demand : Demand) (nested : Bool)
    (selected : List tree.NodeId) :
    Ensures (Keeps start options root (x :: held)) (filterSelf options step x.handle)
      (Expands start options root step
        (outcomeOf (start.outlook options) step demand (x, nested) selected) [x] held) := by
  refine checkpoint_ensures.bind fun found => Ensures.of_and fun hfound => ?_
  cases found with
  | some cause =>
      exact release_ensures.bind fun _ => Ensures.pure fun _ hk => ⟨[], rfl, hfound, by simp, hk⟩
  | none =>
      refine (judge_ensures step List.mem_cons_self none).bind fun result =>
        Ensures.of_and fun hr => ?_
      cases result with
      | error e =>
          refine unreachable_ensures ?_
          simp only [Outlook.obstacle?, ha, ← hr]
      | ok verdict =>
          have ho : (start.outlook options).obstacle? step x.node = none := by
            simp only [Outlook.obstacle?, ha, ← hr]
          simp only [outcomeOf, ho, Outlook.expand, ha, ← hr]
          cases verdict with
          | accepted =>
              refine Ensures.pure fun _ hk => ⟨[x], rfl, ?_, by simp [ha], hk⟩
              cases demand <;> rfl
          | hidden | rejected =>
              refine release_ensures.bind fun _ => Ensures.pure fun _ hk =>
                ⟨[], rfl, ?_, by simp, hk⟩
              simp [Answers]

/-- How many nodes are kept of those that a visit has to select. -/
theorem cut_of_visit {demand : Demand} {nodes kept : List tree.NodeId} (h : kept = nodes)
    (hd : demand = .first → nodes = []) : kept = demand.cut nodes := by
  cases demand with
  | all => exact h
  | first => rw [h, hd rfl, Demand.cut_nil]

/-- A context is given back after what a visit below it left open. -/
theorem leave_ensures {step : Step} (ha : step.axis ≠ .self) {demand : Demand}
    {nodes : List tree.NodeId} {pool : List (Holding tree)} {visit : Visit} :
    Ensures (Visits start options root demand nodes (x :: held) visit)
      (do
        releaseAll visit.abandoned
        release x.handle
        match visit.stop with
        | some (.interrupted cause) => return ⟨visit.selected, some (.interrupted cause)⟩
        | _ => return ⟨visit.selected, none⟩)
      (Expands start options root step (.ok (demand.cut nodes)) pool held) := by
  obtain ⟨selected, stop, abandoned⟩ := visit
  refine Ensures.of_exists fun kept => Ensures.of_exists fun left => Ensures.of_and fun hs =>
    Ensures.of_and fun hl => Ensures.of_and fun ho => Ensures.of_and fun hstop => ?_
  simp only at hs hl
  subst hs hl
  have hp : (kept ++ left ++ x :: held).Perm (left ++ x :: (kept ++ held)) := by
    refine Multiset.coe_eq_coe.1 ?_
    simp only [← Multiset.coe_add, ← Multiset.cons_coe, ← Multiset.singleton_add]
    abel
  refine ((releaseAll_ensures left).strengthen fun _ hk => hk.of_perm hp).bind fun _ =>
    release_ensures.bind fun _ => ?_
  -- either everything was visited, or the one node asked for was found, or time was up
  match stop, hstop with
  | none, ⟨hn, hleft, hd⟩ =>
      exact Ensures.pure fun _ hk => ⟨kept, rfl, congrArg Except.ok (cut_of_visit hn hd).symm,
        by simpa [ha] using ho, hk⟩
  | some .satisfied, ⟨hd, hne, hn⟩ =>
      exact Ensures.pure fun _ hk => ⟨kept, rfl, by subst hd; exact congrArg Except.ok hn.symm,
        by simpa [ha] using ho, hk⟩
  | some (.interrupted cause), hmade =>
      exact Ensures.pure fun _ hk => ⟨kept, rfl, hmade, by simpa [ha] using ho, hk⟩

/-- An interrupted context is given back before what the visit left open. -/
theorem quit_ensures {step : Step} (ha : step.axis ≠ .self) {demand : Demand}
    {nodes : List tree.NodeId} {outcome : Except BridgeError (List tree.NodeId)}
    {pool : List (Holding tree)} {visit : Visit} {cause : Interrupt}
    (hstop : visit.stop = some (.interrupted cause)) :
    Ensures (Visits start options root demand nodes (x :: held) visit)
      (do
        release x.handle
        releaseAll visit.abandoned
        return ⟨visit.selected, some (.interrupted cause)⟩)
      (Expands start options root step outcome pool held) := by
  refine Ensures.of_exists fun kept => Ensures.of_exists fun left => Ensures.of_and fun hs =>
    Ensures.of_and fun hl => Ensures.of_and fun ho => ?_
  rw [hstop, hl]
  refine Ensures.of_and fun hmade => ?_
  have hp : (kept ++ left ++ x :: held).Perm (x :: (left ++ (kept ++ held))) := by
    refine Multiset.coe_eq_coe.1 ?_
    simp only [← Multiset.coe_add, ← Multiset.cons_coe, ← Multiset.singleton_add]
    abel
  refine (release_ensures.strengthen fun _ hk => hk.of_perm hp).bind fun _ =>
    (releaseAll_ensures left).bind fun _ => ?_
  exact Ensures.pure fun _ hk => ⟨kept, hs, hmade, by simpa [ha] using ho, hk⟩

/-- A context whose children have been visited is left either way. -/
theorem leaveChildren_ensures {step : Step} (ha : step.axis ≠ .self) {demand : Demand}
    {nodes : List tree.NodeId} {pool : List (Holding tree)} {visit : Visit} :
    Ensures (Visits start options root demand nodes (x :: held) visit)
      (match visit.stop with
      | some (.interrupted cause) => do
          release x.handle
          releaseAll visit.abandoned
          return ⟨visit.selected, some (.interrupted cause)⟩
      | _ => do
          releaseAll visit.abandoned
          release x.handle
          return ⟨visit.selected, none⟩)
      (Expands start options root step (.ok (demand.cut nodes)) pool held) := by
  obtain ⟨selected, stop, abandoned⟩ := visit
  match stop with
  | some (.interrupted cause) => exact quit_ensures ha rfl
  | some .satisfied => exact leave_ensures ha
  | none => exact leave_ensures ha

/-- What a step makes of a context is what it makes of the children; the context is unreachable, if
they cannot be had. -/
theorem enumerated_ensures {step : Step} {demand : Demand} {nested : Bool}
    {selected : List tree.NodeId} {use : Except BridgeError Siblings → WalkM tree Expansion}
    (hobstacle : (start.outlook options).obstacle? step x.node = start.fault? .children x.node)
    (herror : ∀ e, use (.error e) = unreachable x.handle e)
    (hok : start.fault? .children x.node = none → ∀ gained : List (Holding tree),
      gained.map Holding.node = (start.outlook options).offspring x.node →
      (∀ y ∈ gained, y.handle.isBorrowed = false) →
      Ensures (Keeps start options root (gained ++ (x :: held)))
        (use (.ok (.ofList (gained.map Holding.handle))))
        (Expands start options root step
          (outcomeOf (start.outlook options) step demand (x, nested) selected) [x] held)) :
    Ensures (Keeps start options root (x :: held)) (enumerate options x.handle >>= use)
      (Expands start options root step
        (outcomeOf (start.outlook options) step demand (x, nested) selected) [x] held) := by
  refine (enumerate_ensures List.mem_cons_self).bind fun result => ?_
  cases hf : start.fault? .children x.node with
  | some e =>
      refine Ensures.of_and fun hr => ?_
      subst hr
      rw [herror]
      exact unreachable_ensures (hobstacle.trans hf)
  | none =>
      refine Ensures.of_exists fun gained => Ensures.of_and fun hr => Ensures.of_and fun hn =>
        Ensures.of_and fun ho => ?_
      subst hr
      exact hok hf gained hn ho

theorem expandChildren_ensures {step : Step} (ha : step.axis = .child) (demand : Demand)
    (nested : Bool) (selected : List tree.NodeId) :
    Ensures (Keeps start options root (x :: held)) (expandChildren options step demand x.handle)
      (Expands start options root step
        (outcomeOf (start.outlook options) step demand (x, nested) selected) [x] held) := by
  have hobstacle : (start.outlook options).obstacle? step x.node =
      start.fault? .children x.node := by
    simp only [Outlook.obstacle?, ha, Session.outlook_fault?]
  have ha' : step.axis ≠ .self := by simp [ha]
  refine enumerated_ensures hobstacle (fun _ => rfl) fun hf gained hn ho => ?_
  -- children are not looked below
  have hbelow (candidate : tree.NodeId × SiblingPosition) (opened held : List (Holding tree))
      (hopened : opened.map Holding.node =
        (start.outlook options).opened step false candidate) :
      Ensures (Keeps start options root (opened ++ held)) (pure .nothing)
        (Visits start options root demand [] held) := by
    obtain rfl : opened = [] := by simpa [Outlook.opened] using hopened
    exact Visits.nothing
  refine (visitSiblings_ensures step [] false (fun _ => []) rfl
    (fun candidate opened held hopened _ _ => hbelow candidate opened held hopened) gained ho
    (by simp)).bind fun visit => ?_
  simp only [outcomeOf, hobstacle, hf, Outlook.expand, ha, ← hn]
  exact leaveChildren_ensures ha'

theorem expandDescendants_ensures {step : Step} (ha : step.axis = .descendant ∨ step.axis = .any)
    (demand : Demand) (nested : Bool) (selected : List (Holding tree))
    (hs : ∀ y ∈ selected, y ∈ held) :
    Ensures (Keeps start options root (x :: held))
      (expandDescendants options step demand ⟨x.handle, nested⟩ (selected.map Holding.handle))
      (Expands start options root step
        (outcomeOf (start.outlook options) step demand (x, nested) (selected.map Holding.node)) [x]
        held) := by
  have hobstacle : (start.outlook options).obstacle? step x.node =
      start.fault? .children x.node := by
    rcases ha with ha | ha <;> simp only [Outlook.obstacle?, ha, Session.outlook_fault?]
  have ha' : step.axis ≠ .self := by
    rcases ha with ha | ha <;> simp [ha]
  refine enumerated_ensures hobstacle (fun _ => rfl) fun hf gained hn ho => ?_
  have hmap {β : Type} (f : Holding tree → β) :
      (if nested then selected.map f else []) = (if nested then selected else []).map f := by
    cases nested <;> rfl
  have hexpand : (start.outlook options).expand step (x.node, nested)
      (selected.map Holding.node) = (start.outlook options).walkBelow step
        ((if nested then selected else []).map Holding.node) tree.size 1
        (gained.map Holding.node) := by
    rcases ha with ha | ha <;> simp [Outlook.expand, hobstacle, hf, ha, hn, hmap]
  simp only [outcomeOf, hobstacle, hf, hexpand, hmap]
  refine (visitBelow_ensures tree.size 1 gained (x :: held) ho fun y hy => ?_).bind fun visit =>
    leave_ensures ha'
  cases nested with
  | false => cases hy
  | true => exact List.mem_cons_of_mem _ (hs y hy)

/-- One context. -/
theorem expand_ensures (held : List (Holding tree)) (step : Step) (demand : Demand) (nested : Bool)
    (selected : List (Holding tree)) (hs : ∀ y ∈ selected, y ∈ held) :
    Ensures (Keeps start options root (x :: held))
      (expand options step demand ⟨x.handle, nested⟩ (selected.map Holding.handle))
      (Expands start options root step
        (outcomeOf (start.outlook options) step demand (x, nested) (selected.map Holding.node)) [x]
        held) := by
  unfold expand
  cases ha : step.axis with
  | self => exact filterSelf_ensures ha demand nested _
  | child => exact expandChildren_ensures ha demand nested _
  | descendant => exact expandDescendants_ensures (Or.inl ha) demand nested selected hs
  | any => exact expandDescendants_ensures (Or.inr ha) demand nested selected hs

/-! ### All contexts -/

theorem Expands.of_sublist {step : Step} {outcome : Except BridgeError (List tree.NodeId)}
    {pool pool' : List (Holding tree)} {expansion : Expansion} {walk : Walk tree}
    (h : Expands start options root step outcome pool held expansion walk)
    (hp : step.axis = .self → pool.Sublist pool') :
    Expands start options root step outcome pool' held expansion walk := by
  obtain ⟨kept, hs, ho, hk, hh⟩ := h
  refine ⟨kept, hs, ho, ?_, hh⟩
  split at hk
  · next ha => exact (if_pos ha).symm ▸ hk.trans (hp ha)
  · next ha => exact (if_neg ha).symm ▸ hk

/-- An expansion of contexts that are no views selects none. -/
theorem Expands.owned {step : Step} {pool kept : List (Holding tree)}
    (hp : ∀ y ∈ pool, y.handle.isBorrowed = false)
    (h : if step.axis = .self then kept.Sublist pool else ∀ y ∈ kept, y.handle.isBorrowed = false) :
    ∀ y ∈ kept, y.handle.isBorrowed = false := by
  split at h
  · exact fun y hy => hp y (h.mem hy)
  · exact h

theorem Demand.isMetBy_iff {demand : Demand} {selected : List (Holding tree)}
    {nodes : List tree.NodeId} (hs : selected.map Holding.node = demand.cut nodes) :
    demand.isMetBy (selected.map Holding.handle) = true ↔ demand = .first ∧ nodes ≠ [] := by
  rw [Demand.isMetBy_map]
  refine and_congr_right fun hd => not_congr ?_
  subst hd
  rw [← List.map_eq_nil_iff (f := Holding.node), hs]
  cases nodes <;> simp [Demand.cut]

/-- As long as a demand is not met, everything there was to select has been selected. -/
theorem Demand.of_not_isMetBy {demand : Demand} {selected : List (Holding tree)}
    {nodes : List tree.NodeId} (hs : selected.map Holding.node = demand.cut nodes)
    (hmet : ¬demand.isMetBy (selected.map Holding.handle) = true) :
    selected.map Holding.node = nodes ∧ (demand = .first → nodes = []) := by
  have hnil : demand = .first → nodes = [] := fun hd =>
    not_not.1 fun hne => hmet ((Demand.isMetBy_iff hs).2 ⟨hd, hne⟩)
  refine ⟨?_, hnil⟩
  cases demand with
  | all => exact hs
  | first =>
      rw [hs, hnil rfl]
      rfl

/-- After a failure everything is given back: what was selected, and the contexts that are left. -/
theorem giveUp_ensures {step : Step} {outcome : Except BridgeError (List tree.NodeId)}
    {pool : List (Holding tree)} {error : ResolveError}
    (h : Answers options outcome [] (some error)) (selected : List (Holding tree))
    (contexts : List (Holding tree × Bool)) :
    Ensures (Keeps start options root (selected ++ (contexts.map Prod.fst ++ held)))
      (do
        releaseAll (selected.map Holding.handle)
        releaseAll ((contextsOf contexts).map Context.handle)
        return ⟨[], some error⟩)
      fun expansion walk => Expands start options root step outcome pool held expansion walk ∧
        (expansion.failure.isSome = true → expansion.selected = []) := by
  have hrest : (contextsOf contexts).map Context.handle =
      (contexts.map Prod.fst).map Holding.handle := by
    simp [contextsOf, Function.comp_def]
  rw [hrest]
  exact (releaseAll_ensures selected).bind fun _ => (releaseAll_ensures _).bind fun _ =>
    Ensures.pure fun _ hk => ⟨⟨[], rfl, h, by simp, hk⟩, fun _ => rfl⟩

/-- Contexts that are no views: only an interruption makes them fail, and then nothing is left in
hand. -/
theorem expandAll_ensures (step : Step) (demand : Demand) (contexts : List (Holding tree × Bool))
    (hc : ∀ c ∈ contexts, c.1.handle.isBorrowed = false) (selected : List (Holding tree))
    (ho : ∀ y ∈ selected, y.handle.isBorrowed = false) (nodes : List tree.NodeId)
    (hs : selected.map Holding.node = demand.cut nodes) :
    Ensures (Keeps start options root (selected ++ (contexts.map Prod.fst ++ held)))
      (expandAll options step demand (contextsOf contexts) (selected.map Holding.handle))
      fun expansion walk =>
        Expands start options root step (.ok (demand.cut ((start.outlook options).expandAll step
          (contexts.map fun c => (c.1.node, c.2)) nodes))) (selected ++ contexts.map Prod.fst) held
          expansion walk ∧ (expansion.failure.isSome = true → expansion.selected = []) := by
  induction contexts generalizing selected nodes with
  | nil =>
      refine Ensures.pure fun _ hk => ⟨⟨selected, rfl, congrArg Except.ok hs.symm, ?_, hk⟩, by simp⟩
      split
      · simp
      · exact ho
  | cons c contexts ih =>
      obtain ⟨x, nested⟩ := c
      have hx : x.handle.isBorrowed = false := hc (x, nested) List.mem_cons_self
      have hc' : ∀ c ∈ contexts, c.1.handle.isBorrowed = false := fun c hm =>
        hc c (List.mem_cons_of_mem _ hm)
      simp only [contextsOf, List.map_cons, expandAll, Outlook.expandAll]
      by_cases hmet : demand.isMetBy (selected.map Holding.handle) = true
      · -- the node that was asked for is at hand, and what comes later does not change that
        simp only [hmet, if_true]
        obtain ⟨rfl, hne⟩ := (Demand.isMetBy_iff hs).1 hmet
        refine (release_ensures.strengthen fun _ hk => hk.of_perm List.perm_middle).bind fun _ => ?_
        refine (ih hc' selected ho _ ?_).weaken fun expansion walk h =>
          ⟨h.1.of_sublist fun _ => (List.sublist_cons_self _ _).append_left _, h.2⟩
        rw [hs]
        cases nodes with
        | nil => exact absurd rfl hne
        | cons a nodes => rfl
      · simp only [hmet]
        obtain ⟨hnodes, hnil⟩ := Demand.of_not_isMetBy hs hmet
        refine ((expand_ensures (selected ++ (contexts.map Prod.fst ++ held)) step demand nested
          selected fun y hy => List.mem_append_left _ hy).strengthen fun _ hk =>
            hk.of_perm List.perm_middle).bind fun expansion => ?_
        obtain ⟨_, failure⟩ := expansion
        refine Ensures.of_exists fun kept => Ensures.of_and fun hkept => Ensures.of_and fun hout =>
          Ensures.of_and fun hself => ?_
        simp only at hkept
        subst hkept
        have hown := Expands.owned (by simpa using hx) hself
        rw [outcomeOf_owned hx, hnodes] at hout
        cases failure with
        | none =>
            have hcut : (selected ++ kept).map Holding.node = demand.cut (nodes ++
                (start.outlook options).expand step (x.node, nested) nodes) := by
              rw [List.map_append, ← Except.ok.inj hout, hnodes]
              cases demand with
              | all => rfl
              | first =>
                  rw [hnil rfl]
                  rfl
            have hnext := ih hc' (selected ++ kept) (fun y hy =>
              (List.mem_append.1 hy).elim (ho y) (hown y)) _ hcut
            rw [List.map_append] at hnext
            refine (hnext.strengthen fun _ hk => hk.selected_first).weaken fun e walk h =>
              ⟨h.1.of_sublist fun ha => ?_, h.2⟩
            rw [if_pos ha] at hself
            simpa using hself.append_right (contexts.map Prod.fst)
        | some error =>
            rw [← List.map_append]
            exact (giveUp_ensures hout.of_interruption (selected ++ kept) contexts).strengthen
              fun _ hk => hk.selected_first

/-! ### A step -/

/-- A frontier is the root, or nodes that have been acquired. -/
def IsFrontier (x : Holding tree) (atRoot : Bool) (frontier : List (Holding tree)) : Prop :=
  if atRoot then frontier = [x] else ∀ y ∈ frontier, y.handle.isBorrowed = false

/-- What comes of a step from a frontier. -/
def stepOutcome (o : Outlook tree) (step : Step) (demand : Demand) (atRoot : Bool)
    (frontier : List tree.NodeId) : Except BridgeError (List tree.NodeId) :=
  match if atRoot then frontier.findSome? (o.obstacle? step) else none with
  | some e => .error e
  | none => .ok (demand.cut (o.step step frontier))

/-- What a step comes to.  The frontier that it leaves may be empty, whether or not it would be the
root. -/
def Takes (start : Session tree) (options : ResolveOptions) (root : NativeRef) (x : Holding tree)
    (atRoot : Bool) (outcome : Except BridgeError (List tree.NodeId)) (held : List (Holding tree))
    (expansion : Expansion) (walk : Walk tree) : Prop :=
  ∃ kept : List (Holding tree), expansion.selected = kept.map Holding.handle ∧
    Answers options outcome (kept.map Holding.node) expansion.failure ∧
    (kept = [] ∨ IsFrontier x atRoot kept) ∧ (expansion.failure.isSome = true → kept = []) ∧
    Keeps start options root (kept ++ held) walk

theorem expandRoot_ensures (step : Step) (demand : Demand) (hb : x.handle.isBorrowed = true) :
    Ensures (Keeps start options root (x :: held))
      (expandAll options step demand [⟨x.handle, false⟩] [])
      (Takes start options root x (step.axis = .self)
        (stepOutcome (start.outlook options) step demand true [x.node]) held) := by
  have hmet : demand.isMetBy [] = false := by cases demand <;> rfl
  have hstep : (start.outlook options).step step [x.node] =
      (start.outlook options).expand step (x.node, false) [] := by
    simp [Outlook.step, Outlook.contextsFor, Outlook.expandAll]
  have hout : outcomeOf (start.outlook options) step demand (x, false) [] =
      stepOutcome (start.outlook options) step demand true [x.node] := by
    simp only [outcomeOf, stepOutcome, hb, hstep, if_true, List.findSome?_singleton]
    cases (start.outlook options).obstacle? step x.node <;> rfl
  rw [expandAll]
  simp only [hmet]
  refine (expand_ensures held step demand false [] (by simp)).bind fun expansion => ?_
  obtain ⟨_, failure⟩ := expansion
  refine Ensures.of_exists fun kept => Ensures.of_and fun hkept => Ensures.of_and fun hdone =>
    Ensures.of_and fun hself => ?_
  simp only at hkept
  subst hkept
  rw [List.map_nil, hout] at hdone
  cases failure with
  | none =>
      refine Ensures.pure fun _ hk => ⟨kept, rfl, hdone, ?_, by simp, hk⟩
      split at hself
      · next ha => simpa [IsFrontier, ha] using List.sublist_singleton.1 hself
      · next ha => simpa [IsFrontier, ha] using Or.inr hself
  | some error =>
      exact (releaseAll_ensures kept).bind fun _ => Ensures.pure fun _ hk =>
        ⟨[], rfl, hdone.of_failure, Or.inl rfl, fun _ => rfl, hk⟩

theorem applyStep_ensures (step : Step) (demand : Demand) (hb : x.handle.isBorrowed = true)
    {atRoot : Bool} {frontier : List (Holding tree)} (hf : IsFrontier x atRoot frontier) :
    Ensures (Keeps start options root (frontier ++ held))
      (applyStep options step demand (frontier.map Holding.handle))
      (Takes start options root x (atRoot && step.axis = .self)
        (stepOutcome (start.outlook options) step demand atRoot (frontier.map Holding.node))
        held) := by
  cases atRoot with
  | true =>
      obtain rfl : frontier = [x] := hf
      have hc : (contextsFor options step ([x].map Holding.handle) : WalkM tree _) =
          pure [⟨x.handle, false⟩] := by simp [contextsFor]
      rw [applyStep, hc]
      exact expandRoot_ensures step demand hb
  | false =>
      have hown : ∀ y ∈ frontier, y.handle.isBorrowed = false := hf
      refine (contextsFor_ensures step frontier).bind fun found => ?_
      refine Ensures.of_exists fun contexts => Ensures.of_and fun hc => Ensures.of_and fun hn =>
        Ensures.of_and fun hm => ?_
      subst hc
      have hcontexts : ∀ c ∈ contexts, c.1.handle.isBorrowed = false :=
        fun c hc => hown c.1 (hm c hc)
      refine (expandAll_ensures step demand contexts hcontexts [] (by simp) [] (by simp)).weaken
        fun expansion walk h => ?_
      obtain ⟨⟨kept, hk, hdone, hself, hh⟩, hfail⟩ := h
      refine ⟨kept, hk, ?_, Or.inr (Expands.owned (fun y hy => ?_) hself), fun he => ?_, hh⟩
      · rw [hn] at hdone
        exact hdone
      · obtain ⟨c, hc, rfl⟩ := List.mem_map.1 hy
        exact hcontexts c hc
      · simpa [hk] using hfail he

/-! ### Steps -/

theorem resolve_of_error {o : Outlook tree} {step : Step} {demand : Demand} {atRoot : Bool}
    {nodes : List tree.NodeId} {e : BridgeError} (rest : List Step)
    (h : stepOutcome o step demand atRoot nodes = .error e) :
    o.resolve (step :: rest) atRoot nodes = .error e := by
  unfold stepOutcome at h
  rw [Outlook.resolve]
  generalize (if atRoot then nodes.findSome? (o.obstacle? step) else none) = found at h ⊢
  cases found with
  | some _ => exact congrArg Except.error (Except.error.inj h)
  | none => cases h

theorem resolve_of_ok {o : Outlook tree} {step : Step} {demand : Demand} {atRoot : Bool}
    {nodes kept : List tree.NodeId} (rest : List Step)
    (h : stepOutcome o step demand atRoot nodes = .ok kept) :
    kept = demand.cut (o.step step nodes) ∧ o.resolve (step :: rest) atRoot nodes =
      o.resolve rest (atRoot && step.axis = .self) (o.step step nodes) := by
  unfold stepOutcome at h
  rw [Outlook.resolve]
  generalize (if atRoot then nodes.findSome? (o.obstacle? step) else none) = found at h ⊢
  cases found with
  | some _ => cases h
  | none => exact ⟨(Except.ok.inj h).symm, rfl⟩

/-- What follows the first step, if it selects anything. -/
theorem applySteps_cons {step : Step} {rest : List Step} {demand : Demand}
    {frontier selected : List Handle} {failure : Option ResolveError} {walk now : Walk tree}
    (h : applyStep options step (if rest.isEmpty then demand else .all) frontier walk =
      (⟨selected, failure⟩, now)) :
    applySteps options demand (step :: rest) frontier walk =
      if failure.isSome || selected.isEmpty then (⟨selected, failure⟩, now)
      else applySteps options demand rest selected now := by
  rw [applySteps]
  simp only [bind, StateT.bind, h]
  split <;> rfl

/-- Steps from the root, or from nodes that have been acquired. -/
theorem applySteps_ensures (steps : List Step) (demand : Demand) (hb : x.handle.isBorrowed = true)
    (atRoot : Bool) {frontier : List (Holding tree)} (hf : IsFrontier x atRoot frontier)
    (hsteps : steps = [] → frontier.length ≤ 1) :
    Ensures (Keeps start options root (frontier ++ held))
      (applySteps options demand steps (frontier.map Holding.handle)) fun expansion walk =>
        ∃ atRoot', Takes start options root x atRoot'
          (((start.outlook options).resolve steps atRoot
            (frontier.map Holding.node)).map demand.cut) held expansion walk := by
  induction steps generalizing frontier atRoot with
  | nil =>
      refine Ensures.pure fun _ hk => ⟨atRoot, frontier, rfl, ?_, Or.inr hf, by simp, hk⟩
      refine congrArg Except.ok ?_
      cases demand with
      | all => rfl
      | first => exact List.take_of_length_le (by simpa using hsteps rfl)
  | cons step rest ih =>
      refine (applyStep_ensures step _ hb hf).bind fun found => ?_
      obtain ⟨_, failure⟩ := found
      refine Ensures.of_exists fun kept => Ensures.of_and fun hk => Ensures.of_and fun hdone =>
        Ensures.of_and fun hnext => Ensures.of_and fun hfail => ?_
      simp only at hk hdone hfail
      subst hk
      cases failure with
      | some error =>
          -- the steps that are left are not taken
          obtain rfl : kept = [] := hfail rfl
          refine Ensures.pure fun _ hk => ⟨atRoot, [], rfl, ?_, Or.inl rfl, fun _ => rfl, hk⟩
          cases error with
          | rootUnreachable e =>
              exact congrArg (Except.map demand.cut) (resolve_of_error rest hdone)
          | sessionMismatch _ _ => exact hdone
          | interrupted cause => exact hdone
      | none =>
          obtain ⟨hkept, hresolve⟩ := resolve_of_ok rest hdone
          rw [hresolve]
          cases rest with
          | nil =>
              have hlast : Ensures (Keeps start options root (kept ++ held))
                  (pure ⟨kept.map Holding.handle, none⟩) fun expansion walk => ∃ atRoot',
                    Takes start options root x atRoot'
                      (Except.map demand.cut (.ok ((start.outlook options).step step
                        (frontier.map Holding.node)))) held expansion walk :=
                Ensures.pure fun _ hk =>
                  ⟨_, kept, rfl, congrArg Except.ok hkept.symm, hnext, by simp, hk⟩
              split
              · exact hlast
              · exact hlast
          | cons next rest =>
              have hnodes : kept.map Holding.node =
                  (start.outlook options).step step (frontier.map Holding.node) := hkept
              by_cases he : kept = []
              · -- nothing to go on from, as the steps that are left would find
                subst he
                refine Ensures.pure fun _ hk => ⟨atRoot, [], rfl, ?_, Or.inl rfl, fun _ => rfl, hk⟩
                rw [← hnodes, List.map_nil, Outlook.resolve_nil]
                exact congrArg Except.ok (Demand.cut_nil demand)
              · have hne : (kept.map Holding.handle).isEmpty = false := by simpa using he
                simp only [hne, ← hnodes]
                exact ih _ (hnext.resolve_left he) (by simp)

end Walk

end AccessQuery
