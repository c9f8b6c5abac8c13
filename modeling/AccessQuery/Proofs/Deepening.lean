/-
**Looking deeper finds more, unless contexts are left out.**

With a greater bound on the number of levels, a walk below a context meets all that it met before,
and more.  So does a resolution, as long as levels are bounded, since no context is left out then.
Without a bound, a context is left out where another one lies above it, which is to make up for it.
It does, if the walk from there comes by: calls for children do not fail on the way, or the context
would not have been reached in the first place; but attributes may not have been needed then.  So a
match can be lost where attributes cannot be read between two contexts, and in no other case.

What the proof follows through two resolutions are the nodes of their frontiers that lie on the way
down to one node.  Those of the one are found in the other.

Main definitions:

* `AccessQuery.Outlook.within` — the same with another bound;
* `AccessQuery.Outlook.Reached` — nodes on the way to which nothing fails that is asked of all;
* `AccessQuery.Outlook.Retains` — steps that lose nothing on the way down to a node;
* `AccessQuery.Outlook.Readable`, `AccessQuery.Session.Readable` — attributes can be read where a
  context may be left out.

Main results:

* `AccessQuery.Outlook.mem_picks_within` — what is picked within a bound is within a greater one;
* `AccessQuery.Outlook.retains_of_bounded`, `AccessQuery.Outlook.retains_of_readable` — steps;
* `AccessQuery.Outlook.mem_resolve_within` — paths;
* `AccessQuery.Session.matched_deeper` — resolutions;
* `AccessQuery.Session.matched_unbounded_loses` — a match is lost without a bound.
-/

import AccessQuery.Proofs.Locality
import AccessQuery.Proofs.Matches
import AccessQuery.Proofs.Repetition

set_option relaxedAutoImplicit false
set_option autoImplicit false

namespace AccessQuery

variable {tree : Tree}

/-- A bound allows what another one does, at every depth. -/
def ResolveOptions.AllowsMore (options : ResolveOptions) (less more : Option Nat) : Prop :=
  ∀ depth, (options.within less).allowsBelow depth = true →
    (options.within more).allowsBelow depth = true

theorem ResolveOptions.allowsMore_of_le (options : ResolveOptions) {m n : Nat} (h : m ≤ n) :
    options.AllowsMore (some m) (some n) :=
  fun _ => allowsBelow_mono rfl rfl h

theorem ResolveOptions.allowsMore_none (options : ResolveOptions) (less : Option Nat) :
    options.AllowsMore less none :=
  fun _ _ => rfl

namespace Outlook

variable {o : Outlook tree} {step : Step} {bound less more : Option Nat}
variable {root c t x y : tree.NodeId}

/-! ### Other bounds -/

/-- The same outlook with another bound. -/
def within (o : Outlook tree) (bound : Option Nat) : Outlook tree :=
  { o with options := o.options.within bound }

/-- A walk meets within a bound what it meets within a lesser one. -/
theorem mem_meet_within (h : o.options.AllowsMore less more) {fuel depth : Nat}
    (hx : x ∈ (o.within less).meet step fuel depth c) :
    x ∈ (o.within more).meet step fuel depth c := by
  induction fuel generalizing depth c with
  | zero => exact hx
  | succ fuel ih =>
      obtain ⟨y, hy, hx⟩ := mem_meet_succ.1 hx
      refine mem_meet_succ.2 ⟨y, hy, hx.imp_right ?_⟩
      rintro ⟨⟨hdepth, hentered⟩, hx⟩
      exact ⟨⟨h depth hdepth, hentered⟩, ih hx⟩

/-- So does a step pick. -/
theorem mem_picks_within (h : o.options.AllowsMore less more)
    (hx : x ∈ (o.within less).picks step c) : x ∈ (o.within more).picks step c := by
  cases ha : step.axis with
  | self => exact (mem_picks_self ha).2 ((mem_picks_self (o := o.within less) ha).1 hx)
  | child => exact (mem_picks_child ha).2 ((mem_picks_child (o := o.within less) ha).1 hx)
  | descendant | any =>
      obtain ⟨hf, hmeet, hadmitted⟩ := (mem_picks_below (by simp [ha])).1 hx
      exact (mem_picks_below (by simp [ha])).2 ⟨hf, mem_meet_within h hmeet, hadmitted⟩

/-- Bounds make no difference to self steps. -/
theorem picks_within_of_self (ha : step.axis = .self) (node : tree.NodeId) :
    (o.within less).picks step node = (o.within more).picks step node := by
  unfold picks
  simp only [ha]
  rfl

/-! ### Nodes that can be reached -/

/-- The nodes that some query might reach from a root: those whose parents can be asked for their
children and that are taken notice of, all the way up. -/
inductive Reached (o : Outlook tree) (root : tree.NodeId) : tree.NodeId → Prop
  | root : Reached o root root
  | child {p x : tree.NodeId} (hp : Reached o root p) (hf : o.fault? .children p = none)
      (hx : x ∈ o.offspring p) : Reached o root x

namespace Reached

/-- Everything on the way could be asked for its children. -/
theorem children_of_above (h : o.Reached root x) (hy : tree.AtOrAbove root y)
    (hyx : tree.Above y x) : o.fault? .children y = none := by
  induction h with
  | root => exact absurd (hyx.of_atOrAbove hy) (Tree.Above.irrefl y)
  | child hp hf hx ih =>
      rcases hyx.of_child (parent?_of_offspring hx) with rfl | hyp
      · exact hf
      · exact ih hyp

/-- Everything below the root on the way has been taken notice of. -/
theorem shown_of_atOrAbove (h : o.Reached root x) (hv : o.options.visibleOnly = true)
    (hy : tree.Above root y) (hyx : tree.AtOrAbove y x) : o.isShown y = true := by
  induction h with
  | root => exact absurd (hy.of_atOrAbove hyx) (Tree.Above.irrefl root)
  | child hp _ hx ih =>
      rcases hyx with rfl | hyx
      · rw [offspring, if_pos hv] at hx
        exact (List.mem_filter.1 hx).2
      · exact ih (hyx.of_child (parent?_of_offspring hx))

/-- A walk meets only nodes that can be reached, if its context can. -/
theorem of_mem_meet (h : o.Reached root c) (hf : o.fault? .children c = none) {fuel depth : Nat}
    (hx : x ∈ (o.within bound).meet step fuel depth c) : o.Reached root x := by
  induction fuel generalizing depth c with
  | zero => cases hx
  | succ fuel ih =>
      obtain ⟨y, hy, hx⟩ := mem_meet_succ.1 hx
      have hreached : o.Reached root y := .child h hf hy
      rcases hx with rfl | ⟨⟨-, hentered⟩, hx⟩
      · exact hreached
      · refine ih hreached ?_ hx
        exact Option.isNone_iff_eq_none.1 (Bool.and_eq_true _ _ ▸ hentered).2

theorem of_mem_picks (h : o.Reached root c) (hx : x ∈ (o.within bound).picks step c) :
    o.Reached root x := by
  cases ha : step.axis with
  | self => exact ((mem_picks_self ha).1 hx).1 ▸ h
  | child =>
      obtain ⟨hf, hx, -⟩ := (mem_picks_child ha).1 hx
      exact .child h hf hx
  | descendant | any =>
      obtain ⟨hf, hx, -⟩ := (mem_picks_below (by simp [ha])).1 hx
      exact h.of_mem_meet hf hx

theorem of_mem_step {nodes : List tree.NodeId} (h : ∀ a ∈ nodes, o.Reached root a) :
    ∀ a ∈ (o.within bound).step step nodes, o.Reached root a := by
  intro a ha
  obtain ⟨c, hc, ha⟩ := exists_mem_picks ha
  exact (h c hc).of_mem_picks ha

end Reached

/-! ### Walks without a bound -/

/-- A node is not hidden if it is showing, where that is asked for, and can be read, where it needs
to be. -/
theorem verdict_ne_hidden {place : SiblingPosition}
    (hshown : o.options.visibleOnly = true → o.isShown y = true)
    (hread : Walk.needsAttributes o.options step = true → o.fault? .attributes y = none) :
    o.verdict step (y, place) ≠ .hidden := by
  obtain ⟨snapshot, hsnapshot, hshows⟩ : ∃ snapshot, o.reading step y = .ok snapshot ∧
      (o.options.visibleOnly && !snapshot.isShowing) = false := by
    unfold reading
    by_cases hn : Walk.needsAttributes o.options step = true
    · rw [if_pos hn, hread hn]
      refine ⟨_, rfl, ?_⟩
      cases hv : o.options.visibleOnly with
      | false => rfl
      | true =>
          have hshowing := hshown hv
          rw [isShown, Bool.and_eq_true] at hshowing
          rw [hshowing.2]
          rfl
    · refine ⟨∅, if_neg hn, ?_⟩
      simp only [Walk.needsAttributes, Bool.or_eq_true, not_or, Bool.not_eq_true] at hn
      rw [hn.1.1]
      rfl
  unfold verdict judge
  simp only [hsnapshot, hshows, position, Bool.false_eq_true, if_false]
  cases step.effectiveRoleTest.accepts snapshot.role? with
  | false => simp
  | true =>
      cases step.predicate with
      | none => simp
      | some predicate =>
          dsimp only
          cases predicate.holds snapshot place.place place.count <;> simp

/-- A walk without a bound goes on to the children of the nodes that it enters. -/
theorem mem_meet_offspring (hm : o.options.maxDepth = none) {fuel depth : Nat}
    (hy : y ∈ o.meet step fuel depth t) (he : o.entered step y = true) (hx : x ∈ o.offspring y)
    (hf : x.val < t.val + fuel) : x ∈ o.meet step fuel depth t := by
  induction fuel generalizing depth t with
  | zero => cases hy
  | succ fuel ih =>
      obtain ⟨z, hz, hy⟩ := mem_meet_succ.1 hy
      have hdepth : o.options.allowsBelow depth = true := by
        rw [ResolveOptions.allowsBelow, hm]
      have htz : t.val < z.val := tree.parent?_lt (parent?_of_offspring hz)
      rcases hy with rfl | ⟨⟨-, hz'⟩, hy⟩
      · -- the child is met on the next level, if there is one
        have hyx : y.val < x.val := tree.parent?_lt (parent?_of_offspring hx)
        obtain ⟨fuel, rfl⟩ : ∃ levels, fuel = levels + 1 := Nat.exists_eq_add_one.2 (by omega)
        exact mem_meet_succ.2 ⟨y, hz, Or.inr ⟨⟨hdepth, he⟩, mem_meet_succ.2 ⟨x, hx, Or.inl rfl⟩⟩⟩
      · exact mem_meet_succ.2 ⟨z, hz, Or.inr ⟨⟨hdepth, hz'⟩, ih hy (by omega)⟩⟩

/-- It meets a node that can be reached, if it enters everything on the way down to it. -/
theorem mem_meet_of_reached (h : o.Reached root x) (ht : tree.AtOrAbove root t)
    (htx : tree.Above t x) (he : ∀ y, tree.Above t y → tree.Above y x → o.entered step y = true) :
    x ∈ (o.within none).meet step tree.size 1 t := by
  induction h with
  | root => exact absurd (htx.of_atOrAbove ht) (Tree.Above.irrefl t)
  | @child p x _ _ hx ih =>
      have hpx := parent?_of_offspring hx
      rcases htx.of_child hpx with rfl | htp
      · obtain ⟨levels, hlevels⟩ : ∃ levels, tree.size = levels + 1 :=
          Nat.exists_eq_add_one.2 (Nat.zero_lt_of_lt x.isLt)
        rw [hlevels]
        exact mem_meet_succ.2 ⟨x, hx, Or.inl rfl⟩
      · have hmeet := ih htp fun y hty hyp => he y hty (.up hpx hyp)
        exact mem_meet_offspring rfl hmeet (he p htp (.parent hpx)) hx
          (Nat.lt_add_left t.val x.isLt)

/-! ### Steps that lose nothing -/

/-- The frontiers of a resolution: the root, or nodes below it, all of which can be reached. -/
structure ReachedFrontier (o : Outlook tree) (root : tree.NodeId) (nodes : List tree.NodeId) :
    Prop where
  below : nodes = [root] ∨ ∀ a ∈ nodes, tree.Above root a
  reached : ∀ a ∈ nodes, o.Reached root a

theorem ReachedFrontier.singleton (o : Outlook tree) (root : tree.NodeId) :
    o.ReachedFrontier root [root] :=
  ⟨Or.inl rfl, fun _ ha => List.mem_singleton.1 ha ▸ .root⟩

theorem ReachedFrontier.of_step {nodes : List tree.NodeId} (h : o.ReachedFrontier root nodes)
    (step : Step) : o.ReachedFrontier root ((o.within bound).step step nodes) :=
  ⟨below_of_step h.below, Reached.of_mem_step h.reached⟩

/-- A step within a bound selects from a frontier what it picks from any node of it by itself, on
the way down to a node. -/
def Retains (o : Outlook tree) (bound : Option Nat) (root x : tree.NodeId) (step : Step) : Prop :=
  ∀ nodes, o.ReachedFrontier root nodes → ∀ c ∈ nodes, ∀ a ∈ (o.within bound).picks step c,
    tree.AtOrAbove a x → a ∈ (o.within bound).step step nodes

/-- Where levels are bounded, no context is left out. -/
theorem retains_of_bounded (o : Outlook tree) (n : Nat) (root x : tree.NodeId) (step : Step) :
    o.Retains (some n) root x step := by
  intro nodes _ c hc a ha _
  refine mem_step_of_picks ?_ ha
  unfold contextsFor
  split
  · rcases mem_separate_or_above hc with hc | ⟨hmax, -⟩
    · exact hc
    · cases hmax
  · simpa using hc

/-- Attributes can be read between two nodes below a root on the way down to a node, where a step
below contexts needs them. -/
def Readable (o : Outlook tree) (root x : tree.NodeId) (step : Step) : Prop :=
  o.options.visibleOnly = true ∨
    ((step.axis = .descendant ∨ step.axis = .any) → Walk.needsAttributes o.options step = true →
      ∀ t y, tree.Above root t → tree.Above t y → tree.Above y x → o.fault? .attributes y = none)

/-- Where they are not bounded, a context that is left out is made up for by the one above it. -/
theorem retains_of_readable (hr : o.Readable root x step) : o.Retains none root x step := by
  intro nodes hnodes c hc a ha hax
  by_cases hsep : (step.axis = .descendant ∨ step.axis = .any) ∧ 1 < nodes.length
  · have hcontexts : (o.within none).contextsFor step nodes = (o.within none).separate [] nodes :=
      if_pos hsep
    rcases mem_separate_or_above hc with hc | ⟨-, t, ht, htc⟩
    · exact mem_step_of_picks (hcontexts ▸ hc) ha
    · have htnodes : t ∈ nodes := ((o.within none).separate_sublist nodes).mem ht
      have hroot : tree.Above root t := by
        rcases hnodes.below with rfl | hbelow
        · exact absurd hsep.2 (by simp)
        · exact hbelow t htnodes
      obtain ⟨-, hmeet, hadmitted⟩ := (mem_picks_below hsep.1).1 ha
      have hreached : o.Reached root a := (hnodes.reached c hc).of_mem_picks ha
      have hta : tree.Above t a := htc.trans (above_of_mem_meet hmeet)
      refine mem_step_of_picks (hcontexts ▸ ht) ((mem_picks_below hsep.1).2 ⟨?_, ?_, hadmitted⟩)
      · exact hreached.children_of_above (Or.inr hroot) hta
      · -- everything between the upper context and the node is entered
        refine mem_meet_of_reached hreached (Or.inr hroot) hta fun y hty hya => ?_
        have hshown (hv : o.options.visibleOnly = true) : o.isShown y = true :=
          hreached.shown_of_atOrAbove hv (hroot.trans hty) (Or.inr hya)
        have hverdict : o.verdict step (y, o.spot y) ≠ .hidden := by
          refine verdict_ne_hidden hshown fun hn => ?_
          rcases hr with hv | hread
          · exact Option.isNone_iff_eq_none.1 (Bool.and_eq_true _ _ ▸ hshown hv).1
          · exact hread hsep.1 hn t y hroot hty (hya.of_atOrAbove hax)
        rw [entered, hreached.children_of_above (Or.inr (hroot.trans hty)) hya,
          bne_iff_ne.2 hverdict]
        rfl
  · have hcontexts : (o.within none).contextsFor step nodes = nodes.map fun node => (node, false) :=
      if_neg hsep
    exact mem_step_of_picks (by simpa [hcontexts] using hc) ha

/-- Where the children of the root cannot be had, there is no other frontier to lose a node of. -/
theorem retains_of_fault (hf : o.fault? .children root ≠ none) : o.Retains bound root x step := by
  intro nodes hnodes c hc a ha _
  rcases hnodes.below with rfl | hbelow
  · rw [step_singleton]
    exact List.mem_singleton.1 hc ▸ ha
  · exact absurd ((hnodes.reached c hc).children_of_above (Or.inl rfl) (hbelow c hc)) hf

/-! ### Queries -/

/-- A resolution that comes to a result within one bound does so within any other. -/
theorem exists_resolve_within {steps : List Step} {atRoot : Bool}
    {nodes nodes' found : List tree.NodeId}
    (h : atRoot = true → nodes' = nodes ∧ (nodes = [] ∨ nodes = [root]))
    (hr : (o.within less).resolve steps atRoot nodes = .ok found) :
    ∃ found', (o.within more).resolve steps atRoot nodes' = .ok found' := by
  induction steps generalizing atRoot nodes nodes' with
  | nil => exact ⟨nodes', rfl⟩
  | cons step rest ih =>
      obtain ⟨hobstacle, hr⟩ := resolve_cons_ok hr
      have hnone : (if atRoot then nodes'.findSome? ((o.within more).obstacle? step) else none) =
          none := by
        cases atRoot with
        | false => rfl
        | true =>
            rw [(h rfl).1]
            exact List.findSome?_eq_none_iff.2 (hobstacle rfl)
      rw [resolve, hnone]
      refine ih (fun hself => ?_) hr
      -- self steps from the root are the same within any bound
      simp only [Bool.and_eq_true, decide_eq_true_eq] at hself
      obtain ⟨rfl, rfl | rfl⟩ := h hself.1
      · exact ⟨by rw [step_nil, step_nil], Or.inl (step_nil _)⟩
      · refine ⟨?_, step_root_of_self _ hself.2 root⟩
        rw [step_singleton, step_singleton, picks_within_of_self hself.2]

/-- What is found on the way down to a node within a bound is found within a greater one, if no step
loses it. -/
theorem mem_resolve_within (h : o.options.AllowsMore less more) {steps : List Step}
    (hsteps : ∀ step ∈ steps, o.Retains more root x step) {atRoot atRoot' : Bool}
    {nodes nodes' found found' : List tree.NodeId} (hnodes : o.ReachedFrontier root nodes')
    (hsub : ∀ a ∈ nodes, tree.AtOrAbove a x → a ∈ nodes')
    (hr : (o.within less).resolve steps atRoot nodes = .ok found)
    (hr' : (o.within more).resolve steps atRoot' nodes' = .ok found') (hx : x ∈ found) :
    x ∈ found' := by
  induction steps generalizing atRoot atRoot' nodes nodes' with
  | nil => exact Except.ok.inj hr' ▸ hsub x (Except.ok.inj hr ▸ hx) (Or.inl rfl)
  | cons step rest ih =>
      obtain ⟨hstep, hrest⟩ := List.forall_mem_cons.1 hsteps
      refine ih hrest (hnodes.of_step step) (fun a ha hax => ?_) (resolve_cons_ok hr).2
        (resolve_cons_ok hr').2
      obtain ⟨c, hc, ha⟩ := exists_mem_picks ha
      have hcx : tree.AtOrAbove c x := (atOrAbove_of_mem_picks ha).trans hax
      exact hstep nodes' hnodes c (hsub c hc hcx) a (mem_picks_within h ha) hax

/-- The first step is taken from the root, so only the steps after it may lose something. -/
theorem mem_resolve_root_within (h : o.options.AllowsMore less more) {steps : List Step}
    (hsteps : ∀ step ∈ steps.tail, o.Retains more root x step) {found found' : List tree.NodeId}
    (hr : (o.within less).resolve steps true [root] = .ok found)
    (hr' : (o.within more).resolve steps true [root] = .ok found') (hx : x ∈ found) :
    x ∈ found' := by
  cases steps with
  | nil => exact Except.ok.inj hr' ▸ Except.ok.inj hr ▸ hx
  | cons step rest =>
      refine mem_resolve_within h hsteps ((ReachedFrontier.singleton o root).of_step step) ?_
        (resolve_cons_ok hr).2 (resolve_cons_ok hr').2 hx
      intro a ha _
      rw [step_singleton] at ha ⊢
      exact mem_picks_within h ha

end Outlook

/-! ### Resolutions -/

namespace Session

variable {start : Session tree} {options : ResolveOptions} {root : Handle} {query : Query}
variable {less more : Option Nat}

/-- On the way from the root down to a node, attributes can be read below another node that lies
below the root, where a step after the first needs them below contexts. -/
def Readable (start : Session tree) (options : ResolveOptions) (query : Query) (root : Handle)
    (x : tree.NodeId) : Prop :=
  options.visibleOnly = true ∨ ∀ step ∈ query.steps.tail,
    (step.axis = .descendant ∨ step.axis = .any) → Walk.needsAttributes options step = true →
      ∀ node t y, start.bridge.nodeOf? root = some node → tree.Above node t → tree.Above t y →
        tree.Above y x → start.bridge.failures .attributes y.val = none

/-- A resolution that comes to a result within a bound on the number of levels comes to one within
any other, which holds of the matches those that no step loses. -/
theorem exists_matched_within (hd : options.deadline ≠ some .past) (hc : options.cancelAt = none)
    (ho : ∀ ref ∈ start.ledger.outstanding, ref.address ≤ 0x1000 + start.bridge.acquired)
    (h : options.AllowsMore less more) {nodes : List (Option tree.NodeId)}
    (hm : matched (options.within less) query root start = .ok nodes) :
    ∃ nodes', matched (options.within more) query root start = .ok nodes' ∧
      ∀ x, some x ∈ nodes → (∀ node, start.bridge.nodeOf? root = some node →
        ∀ step ∈ query.steps.tail, (start.outlook options).Retains more node x step) →
        some x ∈ nodes' := by
  by_cases hs : root.session = start.id
  · cases hl : start.bridge.nodeOf? root with
    | none =>
        have hsame := matched_unrooted_congr hl options less more (List.forall₂_same.2
          (fun step _ => Or.inl rfl : ∀ step ∈ query.steps, _))
        exact ⟨nodes, hsame ▸ hm, fun x hx _ => hx⟩
    | some node =>
        have hsteady (bound : Option Nat) : start.Steady (options.within bound) root node :=
          ⟨hs, hl, ho, hd, hc⟩
        rw [matched_steady (hsteady less)] at hm
        cases hr : (start.outlook (options.within less)).resolve query.steps true [node] with
        | error e =>
            rw [hr] at hm
            cases hm
        | ok found =>
            rw [hr] at hm
            obtain rfl : found.map some = nodes := Except.ok.inj hm
            obtain ⟨found', hr'⟩ : ∃ found', ((start.outlook options).within more).resolve
                query.steps true [node] = .ok found' :=
              Outlook.exists_resolve_within (fun _ => ⟨rfl, Or.inr rfl⟩) hr
            refine ⟨found'.map some, ?_, fun x hx hretains => ?_⟩
            · rw [matched_steady (hsteady more),
                show (start.outlook (options.within more)).resolve query.steps true [node] =
                  .ok found' from hr']
            · have hxfound := (List.mem_map_of_injective (Option.some_injective _)).1 hx
              exact List.mem_map_of_mem
                (Outlook.mem_resolve_root_within h (hretains node rfl) hr hr' hxfound)
  · rw [matched_foreign hs] at hm
    cases hm

/-- A resolution that comes to a result within a bound on the number of levels comes to one within
any other.  What it matches is matched within every greater bound; without a bound it is, if
attributes can be read between the contexts on the way down. -/
theorem matched_deeper (hd : options.deadline ≠ some .past) (hc : options.cancelAt = none)
    (ho : ∀ ref ∈ start.ledger.outstanding, ref.address ≤ 0x1000 + start.bridge.acquired)
    {d : Nat} {nodes : List (Option tree.NodeId)}
    (hm : matched (options.within (some d)) query root start = .ok nodes) :
    (∀ d', d ≤ d' → ∃ nodes', matched (options.within (some d')) query root start = .ok nodes' ∧
      ∀ x, some x ∈ nodes → some x ∈ nodes') ∧
    ∃ nodes', matched (options.within none) query root start = .ok nodes' ∧
      ∀ x, some x ∈ nodes → start.Readable options query root x → some x ∈ nodes' := by
  constructor
  · intro d' hle
    obtain ⟨nodes', hm', hsub⟩ := exists_matched_within hd hc ho (options.allowsMore_of_le hle) hm
    exact ⟨nodes', hm', fun x hx => hsub x hx fun node _ step _ =>
      (start.outlook options).retains_of_bounded d' node x step⟩
  · obtain ⟨nodes', hm', hsub⟩ := exists_matched_within hd hc ho (options.allowsMore_none _) hm
    refine ⟨nodes', hm', fun x hx hread => hsub x hx fun node hl step hstep => ?_⟩
    by_cases hs : start.id = start.bridge.session
    · refine Outlook.retains_of_readable (hread.imp_right fun hread ha hn t y hroot hty hyx => ?_)
      rw [outlook_fault?, start.fault?_eq_map hs, hread step hstep ha hn node t y hl hroot hty hyx]
      rfl
    · -- every call fails, so nothing is reached but the root
      refine Outlook.retains_of_fault ?_
      rw [outlook_fault?, fault?, if_pos hs]
      exact Option.some_ne_none _

/-- A label is looked for below two panels, one below the other.  The calls that fail are not those
that the match depends on: the attributes of the upper panel, and the parent of the label. -/
theorem matched_deeper_opening :
    let tree := (((Tree.single (Element.new "frame" "")).addChild ⟨0, by decide⟩
      (Element.new "panel" "")).addChild ⟨1, by decide⟩ (Element.new "panel" "")).addChild
      ⟨2, by decide⟩ (Element.new "label" "")
    let opened := opening tree ⟨0, by decide⟩ fun op place =>
      if op = .attributes ∧ place = 1 ∨ op = .parent ∧ place = 3 then some 5 else none
    let options : ResolveOptions := {}
    let query : Query :=
      ⟨[⟨.any, .wildcard, none⟩, ⟨.descendant, .role "label", none⟩], by decide⟩
    let nodes : List (Option tree.NodeId) := [some ⟨3, by decide⟩]
    options.deadline ≠ some .past ∧ options.cancelAt = none ∧
      (∀ ref ∈ opened.2.ledger.outstanding, ref.address ≤ 0x1000 + opened.2.bridge.acquired) ∧
      matched (options.within (some 2)) query opened.1 opened.2 = .ok nodes ∧
      opened.2.Readable options query opened.1 ⟨3, by decide⟩ ∧
      (∀ d', 2 ≤ d' → ∃ nodes',
        matched (options.within (some d')) query opened.1 opened.2 = .ok nodes' ∧
        ∀ x, some x ∈ nodes → some x ∈ nodes') ∧
      ∃ nodes', matched (options.within none) query opened.1 opened.2 = .ok nodes' ∧
        ∀ x, some x ∈ nodes → opened.2.Readable options query opened.1 x → some x ∈ nodes' := by
  intro tree opened options query nodes
  have hsteady (bound : Option Nat) :
      opened.2.Steady (options.within bound) opened.1 ⟨0, by decide⟩ :=
    steady_opening tree ⟨0, by decide⟩ _ (by simp [options]) rfl
  have hread : opened.2.Readable options query opened.1 ⟨3, by decide⟩ := by
    refine Or.inr fun step _ _ _ node t y hl hroot hty hyx => if_neg ?_
    -- two levels below the root, there is no upper panel
    have h0 : node.val < t.val := hroot.lt
    have h1 : t.val < y.val := hty.lt
    simp only [reduceCtorEq, false_and, or_false, true_and]
    omega
  have hm : matched (options.within (some 2)) query opened.1 opened.2 = .ok nodes := by
    rw [matched_steady (hsteady (some 2))]
    decide +kernel
  exact ⟨(hsteady none).deadline_ne, rfl, (hsteady none).outstanding_issued, hm, hread,
    matched_deeper (hsteady none).deadline_ne rfl (hsteady none).outstanding_issued hm⟩

/-- If the attributes of the lower panel cannot be read, the label is matched below that panel where
levels are bounded.  Otherwise the panel is left out for the upper one, from which the walk does not
come by, and the match is lost. -/
theorem matched_unbounded_loses :
    let tree := (((Tree.single (Element.new "frame" "")).addChild ⟨0, by decide⟩
      (Element.new "panel" "")).addChild ⟨1, by decide⟩ (Element.new "panel" "")).addChild
      ⟨2, by decide⟩ (Element.new "label" "")
    let opened := opening tree ⟨0, by decide⟩ fun op place =>
      if op = .attributes ∧ place = 2 then some 5 else none
    let query : Query :=
      ⟨[⟨.any, .wildcard, none⟩, ⟨.descendant, .role "label", none⟩], by decide⟩
    matched { maxDepth := some 2 } query opened.1 opened.2 = .ok [some ⟨3, by decide⟩] ∧
      matched {} query opened.1 opened.2 = .ok [] := by
  intro tree opened query
  have hsteady (bound : Option Nat) :
      opened.2.Steady { maxDepth := bound } opened.1 ⟨0, by decide⟩ :=
    steady_opening tree ⟨0, by decide⟩ _ (by simp) rfl
  rw [matched_steady (hsteady (some 2)), matched_steady (hsteady none)]
  exact ⟨by decide +kernel, by decide +kernel⟩

end Session

end AccessQuery
