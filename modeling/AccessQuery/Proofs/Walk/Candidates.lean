/-
**Candidates in the keeping of a walk.**

Enumerating the children of a node, judging a candidate and settling it come to what the outlook of
the resolution says of the nodes, and nothing goes astray on the way.

Main results:

* `AccessQuery.Walk.enumerate_ensures` — the children that are taken notice of;
* `AccessQuery.Walk.judge_ensures_of`, `AccessQuery.Walk.judge_ensures` — what a step says of a
  candidate;
* `AccessQuery.Walk.settle_ensures` — a candidate is selected or given back, and its children are
  held where the walk goes on to them.
-/

import AccessQuery.Proofs.Walk.Keeps

set_option relaxedAutoImplicit false
set_option autoImplicit false

namespace AccessQuery

namespace Walk

variable {tree : Tree} {start : Session tree} {options : ResolveOptions} {root : NativeRef}
variable {held : List (Holding tree)} {x : Holding tree}

/-! ### Enumerating -/

theorem Keeps.prefetch {walk : Walk tree} (h : Keeps start options root held walk) (hx : x ∈ held)
    (hv : options.visibleOnly = true) (hf : start.fault? .attributes x.node = none) :
    Keeps start options root held
      { walk with
        prefetched := walk.prefetched.insert x.handle.ref (tree.attributes x.node) } where
  custody := h.custody
  prefetched_issued ref hr := by
    rcases Std.ExtTreeMap.mem_insert.1 hr with he | hr
    · rw [← Std.LawfulEqOrd.eq_of_compare he]
      exact Bridge.le_of_live (h.custody.denotes x hx)
    · exact h.prefetched_issued ref hr
  prefetched_read y hy snapshot hs := by
    rw [Std.ExtTreeMap.getElem?_insert] at hs
    split at hs
    · next he =>
        -- a reference denotes one node, under whichever handle it is held
        have hxd := h.custody.denotes x hx
        rw [Std.LawfulEqOrd.eq_of_compare he, h.custody.denotes y hy] at hxd
        cases hs
        rw [Option.some.inj hxd]
        exact ⟨hv, hf, rfl⟩
    · exact h.prefetched_read y hy snapshot hs

theorem isShowing_ensures (hx : x ∈ held) (hv : options.visibleOnly = true) :
    Ensures (Keeps start options root held) (isShowing x.handle) fun shown walk =>
      shown = (start.outlook options).isShown x.node ∧ Keeps start options root held walk := by
  refine (attributes_ensures hx).bind fun result => Ensures.of_and fun hr => ?_
  subst hr
  simp only [Outlook.isShown, Session.outlook_fault?]
  cases hf : start.fault? .attributes x.node with
  | some e => exact (diagnose_ensures e).bind fun _ => Ensures.pure fun _ hk => ⟨rfl, hk⟩
  | none =>
      simp only [Option.isNone_none, Bool.true_and]
      cases (tree.attributes x.node).isShowing with
      | false => exact Ensures.pure fun _ hk => ⟨rfl, hk⟩
      | true =>
          refine Ensures.bind (M := fun _ => Keeps start options root held)
            (Ensures.modify fun _ hk => hk.prefetch hx hv hf) fun _ => ?_
          exact Ensures.pure fun _ hk => ⟨rfl, hk⟩

theorem keepFrom_ensures (hv : options.visibleOnly = true) (gained : List (Holding tree)) :
    Ensures (Keeps start options root (gained ++ held))
      (Siblings.keepFrom release isShowing (gained.map Holding.handle)) fun kept walk =>
        ∃ shown : List (Holding tree),
          shown = gained.filter (fun x => (start.outlook options).isShown x.node) ∧
          kept = shown.map Holding.handle ∧ Keeps start options root (shown ++ held) walk := by
  induction gained generalizing held with
  | nil => exact Ensures.pure fun _ hk => ⟨[], rfl, rfl, hk⟩
  | cons x gained ih =>
      rw [List.map_cons, Siblings.keepFrom]
      refine (isShowing_ensures List.mem_cons_self hv).bind fun shown =>
        Ensures.of_and fun hs => ?_
      rw [List.filter_cons, ← hs]
      cases shown with
      | true =>
          refine ((@ih (x :: held)).strengthen fun _ hk =>
            hk.of_perm List.perm_middle.symm).bind fun kept => ?_
          refine Ensures.of_exists fun shown => Ensures.of_and fun hshown =>
            Ensures.of_and fun hkept => Ensures.pure fun _ hk => ?_
          exact ⟨x :: shown, by rw [hshown]; rfl, by rw [hkept]; rfl, hk.of_perm List.perm_middle⟩
      | false => exact release_ensures.bind fun _ => ih

theorem retain_ensures (hv : options.visibleOnly = true) (gained : List (Holding tree)) :
    Ensures (Keeps start options root (gained ++ held))
      (Siblings.retain release isShowing (.ofList (gained.map Holding.handle))) fun kept walk =>
        ∃ shown : List (Holding tree),
          shown = gained.filter (fun x => (start.outlook options).isShown x.node) ∧
          kept = .ofList (shown.map Holding.handle) ∧
          Keeps start options root (shown ++ held) walk := by
  refine (keepFrom_ensures hv gained).bind fun kept => ?_
  refine Ensures.of_exists fun shown => Ensures.of_and fun hs => Ensures.of_and fun hk => ?_
  refine Ensures.pure fun _ h => ⟨shown, hs, ?_, h⟩
  rw [hk]
  simp [Siblings.ofList]

/-- The children of a node that are taken notice of are held, in order. -/
theorem enumerate_ensures (hx : x ∈ held) :
    Ensures (Keeps start options root held) (enumerate options x.handle) fun result walk =>
      match start.fault? .children x.node with
      | some e => result = .error e ∧ Keeps start options root held walk
      | none => ∃ gained : List (Holding tree),
          result = .ok (.ofList (gained.map Holding.handle)) ∧
          gained.map Holding.node = (start.outlook options).offspring x.node ∧
          (∀ y ∈ gained, y.handle.isBorrowed = false) ∧
          Keeps start options root (gained ++ held) walk := by
  refine (children_ensures hx).bind fun result => ?_
  cases start.fault? .children x.node with
  | some e =>
      refine Ensures.of_and fun hr => ?_
      subst hr
      exact Ensures.pure fun _ hk => ⟨rfl, hk⟩
  | none =>
      refine Ensures.of_exists fun gained => Ensures.of_and fun hr => Ensures.of_and fun hn =>
        Ensures.of_and fun hb => ?_
      subst hr
      simp only [Outlook.offspring, Session.outlook_options]
      by_cases hv : options.visibleOnly = true
      · simp only [hv, if_true]
        refine (retain_ensures hv gained).bind fun shown => ?_
        refine Ensures.of_exists fun kept => Ensures.of_and fun hk => Ensures.of_and fun hs => ?_
        refine Ensures.pure fun _ h => ⟨kept, congrArg Except.ok hs, ?_, ?_, h⟩
        · rw [hk, ← hn, List.filter_map]
          rfl
        · intro y hy
          rw [hk] at hy
          exact hb y (List.mem_filter.1 hy).1
      · simp only [hv]
        exact Ensures.pure fun _ hk => ⟨gained, rfl, hn, hb, hk⟩

/-! ### Judging -/

theorem needsAttributes_of_visibleOnly (hv : options.visibleOnly = true) (step : Step) :
    needsAttributes options step = true := by
  simp [needsAttributes, hv]

theorem Keeps.consume {walk : Walk tree} (h : Keeps start options root held walk)
    (ref : NativeRef) :
    Keeps start options root held { walk with prefetched := walk.prefetched.erase ref } where
  custody := h.custody
  prefetched_issued other hr := h.prefetched_issued other (Std.ExtTreeMap.mem_erase.1 hr).2
  prefetched_read y hy snapshot hs := by
    rw [Std.ExtTreeMap.getElem?_erase] at hs
    split at hs
    · cases hs
    · exact h.prefetched_read y hy snapshot hs

theorem attributesFor_ensures (step : Step) (hx : x ∈ held) :
    Ensures (Keeps start options root held) (attributesFor options step x.handle)
      fun result walk =>
        result = (start.outlook options).reading step x.node ∧
        Keeps start options root held walk := by
  refine Ensures.bind (M := fun now walk => now = walk ∧ Keeps start options root held walk)
    (Ensures.get fun walk hk => ⟨rfl, hk⟩) fun now => ?_
  simp only [Outlook.reading, Session.outlook_fault?, Session.outlook_options]
  cases hp : now.prefetched[x.handle.ref]? with
  | some snapshot =>
      -- the snapshot was taken when the children were looked through, and is used up
      rintro walk ⟨rfl, hk⟩
      obtain ⟨hv, hf, hs⟩ := hk.prefetched_read x hx snapshot hp
      subst hs
      refine ⟨?_, hk.consume x.handle.ref⟩
      simp only [needsAttributes_of_visibleOnly hv step, if_true, hf]
      rfl
  | none =>
      by_cases hn : needsAttributes options step = true
      · simp only [hn, if_true]
        exact (attributes_ensures hx).strengthen fun _ h => h.2
      · simp only [hn]
        exact Ensures.pure fun _ h => ⟨rfl, h.2⟩

theorem positionFor_ensures (predicate : Predicate) (hx : x ∈ held)
    (known : Option SiblingPosition) :
    Ensures (Keeps start options root held) (positionFor predicate x.handle known)
      fun result walk =>
        result = (start.outlook options).position predicate x.node known ∧
        Keeps start options root held walk := by
  cases known with
  | some position => exact Ensures.pure fun _ hk => ⟨rfl, hk⟩
  | none =>
      simp only [positionFor, Outlook.position, Session.outlook_fault?]
      by_cases hu : predicate.usesPosition = true
      · simp only [hu, if_true]
        exact siblingPosition_ensures hx
      · simp only [hu]
        exact Ensures.pure fun _ hk => ⟨rfl, hk⟩

/-- A candidate is judged as an outlook says, if its attributes and its place are what the outlook
says they are. -/
theorem judge_ensures_of {o : Outlook tree} {P Q : Walk tree → Prop} {step : Step}
    {handle : Handle} {node : tree.NodeId} {known : Option SiblingPosition}
    (hreading : Ensures P (attributesFor o.options step handle) fun result walk =>
      result = o.reading step node ∧ Q walk)
    (hposition : ∀ predicate, Ensures Q (positionFor predicate handle known) fun result walk =>
      result = o.position predicate node known ∧ Q walk) :
    Ensures P (judge o.options step handle known) fun result walk =>
      result = o.judge step node known ∧ Q walk := by
  refine hreading.bind fun reading => Ensures.of_and fun hr => ?_
  simp only [Outlook.judge, ← hr]
  cases reading with
  | error e => exact Ensures.pure fun _ hk => ⟨rfl, hk⟩
  | ok snapshot =>
      by_cases hv : (o.options.visibleOnly && !snapshot.isShowing) = true
      · simp only [hv, if_true]
        exact Ensures.pure fun _ hk => ⟨rfl, hk⟩
      simp only [hv]
      by_cases ha : (!step.effectiveRoleTest.accepts snapshot.role?) = true
      · simp only [ha, if_true]
        exact Ensures.pure fun _ hk => ⟨rfl, hk⟩
      simp only [ha]
      cases step.predicate with
      | none => exact Ensures.pure fun _ hk => ⟨rfl, hk⟩
      | some predicate =>
          refine (hposition predicate).bind fun position => Ensures.of_and fun hp => ?_
          simp only [← hp]
          cases position with
          | error e => exact Ensures.pure fun _ hk => ⟨rfl, hk⟩
          | ok position => exact Ensures.pure fun _ hk => ⟨rfl, hk⟩

/-- What a step says of a candidate depends on its node only, and on its place. -/
theorem judge_ensures (step : Step) (hx : x ∈ held) (known : Option SiblingPosition) :
    Ensures (Keeps start options root held) (judge options step x.handle known)
      fun result walk =>
        result = (start.outlook options).judge step x.node known ∧
        Keeps start options root held walk :=
  judge_ensures_of (attributesFor_ensures step hx) fun predicate =>
    positionFor_ensures predicate hx known

theorem judgeOrHide_ensures (step : Step) (hx : x ∈ held) (position : SiblingPosition) :
    Ensures (Keeps start options root held) (judgeOrHide options step x.handle position)
      fun verdict walk =>
        verdict = (start.outlook options).verdict step (x.node, position) ∧
        Keeps start options root held walk := by
  refine (judge_ensures step hx (some position)).bind fun result => Ensures.of_and fun hr => ?_
  simp only [Outlook.verdict, ← hr]
  cases result with
  | error e => exact (diagnose_ensures e).bind fun _ => Ensures.pure fun _ hk => ⟨rfl, hk⟩
  | ok verdict => exact Ensures.pure fun _ hk => ⟨rfl, hk⟩

/-! ### Settling -/

/-- Siblings held for a list of nodes, none of them taken. -/
def Opens (start : Session tree) (options : ResolveOptions) (root : NativeRef)
    (nodes : List tree.NodeId) (held : List (Holding tree)) (below : Option Siblings)
    (walk : Walk tree) : Prop :=
  ∃ gained : List (Holding tree),
    (below = none ∧ gained = [] ∨ below = some (.ofList (gained.map Holding.handle))) ∧
    gained.map Holding.node = nodes ∧ (∀ y ∈ gained, y.handle.isBorrowed = false) ∧
    Keeps start options root (gained ++ held) walk

theorem openBelow_ensures (hx : x ∈ held) :
    Ensures (Keeps start options root held) (openBelow options x.handle)
      (Opens start options root (if (start.fault? .children x.node).isNone then
        (start.outlook options).offspring x.node else []) held) := by
  refine (enumerate_ensures hx).bind fun result => ?_
  cases start.fault? .children x.node with
  | some e =>
      refine Ensures.of_and fun hr => ?_
      subst hr
      exact (diagnose_ensures e).bind fun _ =>
        Ensures.pure fun _ hk => ⟨[], Or.inl ⟨rfl, rfl⟩, rfl, by simp, hk⟩
  | none =>
      refine Ensures.of_exists fun gained => Ensures.of_and fun hr => Ensures.of_and fun hn =>
        Ensures.of_and fun hb => ?_
      subst hr
      exact Ensures.pure fun _ hk => ⟨gained, Or.inr rfl, hn, hb, hk⟩

/-- A candidate is given back, and the children that have been acquired are held. -/
theorem giveBack_ensures (gained : List (Holding tree)) (below : Option Siblings) :
    Ensures (Keeps start options root (gained ++ x :: held))
      (do release x.handle; return ([], below) : WalkM tree (List Handle × Option Siblings))
      fun outcome walk => outcome = ([], below) ∧
        Keeps start options root (gained ++ held) walk :=
  (release_ensures.strengthen fun _ hk => hk.of_perm List.perm_middle).bind fun _ =>
    Ensures.pure fun _ hk => ⟨rfl, hk⟩

/-- A candidate is selected if it is accepted and was not selected before, once its children have
been acquired. -/
theorem finish_ensures (verdict : Verdict) (earlier : List (Holding tree))
    (he : ∀ y ∈ earlier, y ∈ held) (nodes : List tree.NodeId) (below : Option Siblings) :
    Ensures (Opens start options root nodes (x :: held) below)
      (if verdict = .accepted then do
          if ← isAmong x.handle (earlier.map Holding.handle) then
            release x.handle
            return ([], below)
          else return ([x.handle], below)
        else do
          release x.handle
          return ([], below))
      fun outcome walk => ∃ kept : List (Holding tree),
        (kept = [] ∨ kept = [x]) ∧ outcome.1 = kept.map Holding.handle ∧
        kept.map Holding.node =
          (if verdict = .accepted ∧
              !(start.outlook options).isAmong x.node (earlier.map Holding.node)
            then [x.node] else []) ∧
        Opens start options root nodes (kept ++ held) outcome.2 walk := by
  refine Ensures.of_exists fun gained => Ensures.of_and fun hg => Ensures.of_and fun hn =>
    Ensures.of_and fun hb => ?_
  by_cases ha : verdict = .accepted
  · simp only [ha, if_true, true_and]
    have hmem : x ∈ gained ++ x :: held := List.mem_append_right _ List.mem_cons_self
    refine (isAmong_ensures hmem earlier fun y hy => List.mem_append_right _
      (List.mem_cons_of_mem _ (he y hy))).bind fun found => Ensures.of_and fun hf => ?_
    simp only [← hf]
    cases found with
    | true =>
        refine (giveBack_ensures gained below).weaken fun outcome walk h => ?_
        exact ⟨[], Or.inl rfl, by rw [h.1]; rfl, rfl, gained, by rw [h.1]; exact hg, hn, hb, h.2⟩
    | false =>
        refine Ensures.pure fun walk hk => ?_
        exact ⟨[x], Or.inr rfl, rfl, rfl, gained, hg, hn, hb, hk⟩
  · simp only [ha, if_false, false_and]
    refine (giveBack_ensures gained below).weaken fun outcome walk h => ?_
    exact ⟨[], Or.inl rfl, by rw [h.1]; rfl, rfl, gained, by rw [h.1]; exact hg, hn, hb, h.2⟩

/-- A candidate is selected or given back, and the children that the walk goes on to are held. -/
theorem settle_ensures (step : Step) (earlier : List (Holding tree))
    (he : ∀ y ∈ earlier, y ∈ held) (deeper : Bool) (position : SiblingPosition) :
    Ensures (Keeps start options root (x :: held))
      (settle options step (earlier.map Holding.handle) deeper x.handle position)
      fun outcome walk => ∃ kept : List (Holding tree),
        (kept = [] ∨ kept = [x]) ∧ outcome.1 = kept.map Holding.handle ∧
        kept.map Holding.node = (start.outlook options).chosen step
          (earlier.map Holding.node) (x.node, position) ∧
        Opens start options root ((start.outlook options).opened step deeper (x.node, position))
          (kept ++ held) outcome.2 walk := by
  have hx : x ∈ x :: held := List.mem_cons_self
  refine (judgeOrHide_ensures step hx position).bind fun verdict => Ensures.of_and fun hv => ?_
  simp only [Outlook.chosen, Outlook.opened, ← hv, Session.outlook_fault?]
  -- the children are acquired before the candidate is settled, which may give it back
  cases hd : (deeper && verdict != .hidden) with
  | true =>
      simp only [if_true, Bool.true_and]
      exact (openBelow_ensures hx).bind fun below => finish_ensures verdict earlier he _ below
  | false =>
      simp only [if_false, Bool.false_and, Bool.false_eq_true]
      refine Ensures.bind (M := Opens start options root [] (x :: held))
        (Ensures.pure fun _ hk => ?_) fun below => finish_ensures verdict earlier he _ below
      exact ⟨[], Or.inl ⟨rfl, rfl⟩, rfl, by simp, hk⟩

end Walk

end AccessQuery
