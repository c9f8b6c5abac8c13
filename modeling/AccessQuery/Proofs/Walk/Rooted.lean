/-
**The view of the root is the only view in a walk.**

A resolution starts from a view of its root, which the caller gives back.  Every other handle that
it comes by was acquired on the way and is owned.  So a frontier is the view of the root, or holds
no view at all, whatever the session is like, whichever calls fail, and however the walk ends.

Main definitions:

* `AccessQuery.Walk.Returns` — what holds of the result of a computation in every state;
* `AccessQuery.Walk.IsRooted` — frontiers of which only the root may be a view.

Main results:

* `AccessQuery.Walk.returns_visitBelow` — visits select handles that were acquired;
* `AccessQuery.Walk.returns_expand` — so do steps from one context, unless they keep the context;
* `AccessQuery.Walk.returns_applyStep` — a step from a rooted frontier leads to another.
-/

import AccessQuery.Proofs.Custody
import AccessQuery.Resolution

set_option relaxedAutoImplicit false
set_option autoImplicit false

namespace AccessQuery

variable {tree : Tree}

/-- None of some handles is a view. -/
def AllOwned (handles : List Handle) : Prop :=
  ∀ node ∈ handles, node.isBorrowed = false

theorem allOwned_nil : AllOwned [] :=
  List.forall_mem_nil _

theorem allOwned_singleton {node : Handle} (h : node.isBorrowed = false) : AllOwned [node] :=
  List.forall_mem_singleton.2 h

theorem AllOwned.append {handles others : List Handle} (h : AllOwned handles)
    (h' : AllOwned others) : AllOwned (handles ++ others) :=
  List.forall_mem_append.2 ⟨h, h'⟩

theorem AllOwned.of_sublist {handles others : List Handle} (h : AllOwned handles)
    (hs : others.Sublist handles) : AllOwned others :=
  fun node hn => h node (hs.mem hn)

/-- The children that a session acquires are owned. -/
theorem Session.allOwned_children (handle : Handle) (session : Session tree) {siblings : Siblings}
    (h : (Session.children handle session).1 = .ok siblings) : AllOwned siblings.unvisited := by
  have hbridge : ∀ handles, (Bridge.children handle session.bridge).1 = .ok handles →
      AllOwned handles := by
    intro handles hh
    simp only [Bridge.children, bind, StateT.bind, get, getThe, MonadStateOf.get, StateT.get,
      pure] at hh
    cases hl : session.bridge.locate .children handle with
    | error e =>
        rw [hl] at hh
        cases hh
    | ok node =>
        rw [hl] at hh
        obtain ⟨gained, hg, -, hgains⟩ :=
          Bridge.gains_acquireAll (tree.children node) session.bridge
        obtain rfl : (Bridge.acquireAll (tree.children node) session.bridge).1 = handles :=
          Except.ok.inj hh
        intro x hx
        rw [hg] at hx
        obtain ⟨y, hy, rfl⟩ := List.mem_map.1 hx
        exact hgains.owned y hy
  simp only [Session.children, Session.acquireChildren, Session.onBridge, bind, StateT.bind,
    pure] at h
  generalize Bridge.children handle session.bridge = found at hbridge h
  obtain ⟨result, after⟩ := found
  cases result with
  | error e => cases h
  | ok handles =>
      obtain rfl : Siblings.ofList handles = siblings := Except.ok.inj h
      exact hbridge handles rfl

namespace Walk

variable {α β : Type} {options : ResolveOptions} {step : Step}

/-! ### Results -/

/-- The result of a computation has a property, whatever the state it starts from. -/
def Returns (m : WalkM tree α) (P : α → Prop) : Prop :=
  ∀ walk, P (m walk).1

namespace Returns

variable {m : WalkM tree α} {P : α → Prop} {Q : β → Prop}

theorem pure {a : α} (h : P a) : Returns (Pure.pure a : WalkM tree α) P :=
  fun _ => h

theorem bind {f : α → WalkM tree β} (hm : Returns m P) (hf : ∀ a, P a → Returns (f a) Q) :
    Returns (m >>= f) Q :=
  fun walk => hf (m walk).1 (hm walk) (m walk).2

/-- What comes first may have any result. -/
theorem after {f : α → WalkM tree β} (hf : ∀ a, Returns (f a) Q) : Returns (m >>= f) Q :=
  fun walk => hf (m walk).1 (m walk).2

theorem ite {p : Prop} [Decidable p] {n : WalkM tree α} (hm : p → Returns m P)
    (hn : ¬p → Returns n P) : Returns (if p then m else n) P := by
  split
  · next h => exact hm h
  · next h => exact hn h

theorem anything : Returns m fun _ => True :=
  fun _ => trivial

theorem weaken {Q : α → Prop} (hm : Returns m P) (h : ∀ a, P a → Q a) : Returns m Q :=
  fun walk => h _ (hm walk)

end Returns

/-! ### Candidates -/

theorem returns_keepFrom {keep : Handle → WalkM tree Bool} (handles : List Handle) :
    Returns (Siblings.keepFrom release keep handles) (·.Sublist handles) := by
  induction handles with
  | nil => exact .pure (List.Sublist.refl [])
  | cons handle rest ih =>
      refine .after fun shown => .ite (fun _ => ?_) fun _ => ?_
      · exact ih.bind fun kept hk => .pure (hk.cons_cons handle)
      · exact .after fun _ => ih.weaken fun kept hk => hk.cons handle

/-- The children that are taken notice of are owned. -/
theorem returns_enumerate (options : ResolveOptions) (node : Handle) :
    Returns (enumerate options node : WalkM tree _) fun result =>
      ∀ siblings, result = .ok siblings → AllOwned siblings.unvisited := by
  have hchildren : Returns (inSession (Session.children node) : WalkM tree _) fun result =>
      ∀ siblings, result = .ok siblings → AllOwned siblings.unvisited :=
    fun walk siblings h => Session.allOwned_children node walk.session h
  refine hchildren.bind fun result hr => ?_
  cases result with
  | error e => exact .pure fun siblings h => by cases h
  | ok siblings =>
      have howned := hr siblings rfl
      refine .ite (fun _ => ?_) fun _ => .pure hr
      refine Returns.bind (P := fun shown => AllOwned shown.unvisited) ?_ fun shown hs =>
        .pure fun kept hk => Except.ok.inj hk ▸ hs
      exact (returns_keepFrom siblings.unvisited).bind fun kept hk =>
        .pure (howned.of_sublist hk)

theorem returns_openBelow (options : ResolveOptions) (node : Handle) :
    Returns (openBelow options node : WalkM tree _) fun below =>
      ∀ siblings, below = some siblings → AllOwned siblings.unvisited := by
  refine (returns_enumerate options node).bind fun result hr => ?_
  cases result with
  | error e => exact .after fun _ => .pure fun siblings h => by cases h
  | ok siblings => exact .pure fun kept hk => hr kept (congrArg Except.ok (Option.some.inj hk))

/-- A candidate is selected or not, and its children are owned. -/
theorem returns_settle (options : ResolveOptions) (step : Step) (earlier : List Handle)
    (deeper : Bool) (node : Handle) (position : SiblingPosition) :
    Returns (settle options step earlier deeper node position : WalkM tree _) fun settled =>
      (settled.1 = [] ∨ settled.1 = [node]) ∧
      ∀ siblings, settled.2 = some siblings → AllOwned siblings.unvisited := by
  rw [settle_eq]
  refine .after fun verdict => ?_
  have hopened : @Returns tree _
      (if deeper && verdict != .hidden then openBelow options node else pure none) fun below =>
        ∀ siblings, below = some siblings → AllOwned siblings.unvisited :=
    .ite (fun _ => returns_openBelow options node) fun _ => .pure fun _ h => by cases h
  refine hopened.bind fun below hbelow => .ite (fun _ => .after fun found => ?_) fun _ => ?_
  · refine .ite (fun _ => .after fun _ => .pure ?_) fun _ => .pure ?_
    · exact ⟨Or.inl rfl, hbelow⟩
    · exact ⟨Or.inr rfl, hbelow⟩
  · exact .after fun _ => .pure ⟨Or.inl rfl, hbelow⟩

/-! ### Visits -/

/-- A visit of owned candidates selects owned handles, if the visits below them do. -/
theorem returns_visitEach {demand : Demand} {earlier : List Handle} {deeper : Bool}
    {visitChildren : Siblings → WalkM tree Visit}
    (hv : ∀ siblings, AllOwned siblings.unvisited →
      Returns (visitChildren siblings) fun visit => AllOwned visit.selected)
    (candidates : List (Handle × SiblingPosition)) (hc : AllOwned (candidates.map Prod.fst)) :
    Returns (visitEach options step demand earlier deeper visitChildren candidates)
      fun visit => AllOwned visit.selected := by
  induction candidates with
  | nil => exact .pure allOwned_nil
  | cons candidate rest ih =>
      obtain ⟨node, position⟩ := candidate
      obtain ⟨hnode, hrest⟩ := List.forall_mem_cons.1 hc
      refine .after fun found => ?_
      cases found with
      | some cause => exact .after fun _ => .pure allOwned_nil
      | none =>
          refine (returns_settle options step earlier deeper node position).bind
            fun settled hsettled => ?_
          obtain ⟨kept, below⟩ := settled
          obtain ⟨hkept, hbelow⟩ := hsettled
          have howned : AllOwned kept := by
            rcases hkept with rfl | rfl
            · exact allOwned_nil
            · exact allOwned_singleton hnode
          refine .ite (fun _ => .after fun _ => .pure howned) fun _ => ?_
          have hinner : Returns (below.elim (pure .nothing) visitChildren)
              fun visit => AllOwned visit.selected := by
            cases below with
            | none => exact .pure allOwned_nil
            | some siblings => exact hv siblings (hbelow siblings rfl)
          refine hinner.bind fun inner hi => ?_
          cases inner.stop with
          | some stop => exact .pure (howned.append hi)
          | none => exact (ih hrest).bind fun outer ho => .pure ((howned.append hi).append ho)

theorem map_fst_remaining (siblings : Siblings) :
    siblings.remaining.map Prod.fst = siblings.unvisited := by
  rw [Siblings.remaining, List.map_map]
  exact List.zipIdx_map_fst siblings.nextIndex siblings.unvisited

theorem returns_visitBelow {demand : Demand} {earlier : List Handle} (fuel depth : Nat)
    (siblings : Siblings) (hs : AllOwned siblings.unvisited) :
    Returns (visitBelow options step demand earlier fuel depth siblings : WalkM tree Visit)
      fun visit => AllOwned visit.selected := by
  induction fuel generalizing depth siblings with
  | zero => exact .after fun _ => .pure allOwned_nil
  | succ fuel ih =>
      exact returns_visitEach (ih (depth + 1)) _ ((map_fst_remaining siblings).symm ▸ hs)

/-! ### Contexts -/

theorem returns_unreachable (node : Handle) (error : BridgeError) :
    Returns (unreachable node error : WalkM tree Expansion) (·.selected = []) :=
  .ite (fun _ => .pure rfl) fun _ => .after fun _ => .after fun _ => .pure rfl

theorem returns_filterSelf (options : ResolveOptions) (step : Step) (node : Handle) :
    Returns (filterSelf options step node : WalkM tree Expansion)
      (·.selected.Sublist [node]) := by
  have hnil : ([] : List Handle).Sublist [node] := List.nil_sublist _
  refine .after fun found => ?_
  cases found with
  | some cause => exact .after fun _ => .pure hnil
  | none =>
      refine .after fun verdict => ?_
      split
      · exact (returns_unreachable node _).weaken fun expansion h => h ▸ hnil
      · exact .pure (List.Sublist.refl _)
      · exact .after fun _ => .pure hnil

theorem returns_expandChildren (demand : Demand) (node : Handle) :
    Returns (expandChildren options step demand node : WalkM tree Expansion)
      fun found => AllOwned found.selected := by
  refine (returns_enumerate options node).bind fun result hr => ?_
  cases result with
  | error e => exact (returns_unreachable node e).weaken fun found h => h ▸ allOwned_nil
  | ok siblings =>
      refine (returns_visitEach (fun _ _ => .pure allOwned_nil) siblings.remaining
        ((map_fst_remaining siblings).symm ▸ hr siblings rfl)).bind fun visit hvisit => ?_
      split
      · exact .after fun _ => .after fun _ => .pure hvisit
      · exact .after fun _ => .after fun _ => .pure hvisit

theorem returns_expandDescendants (demand : Demand) (context : Context) (selected : List Handle) :
    Returns (expandDescendants options step demand context selected : WalkM tree Expansion)
      fun found => AllOwned found.selected := by
  refine (returns_enumerate options context.handle).bind fun result hr => ?_
  cases result with
  | error e => exact (returns_unreachable context.handle e).weaken fun found h => h ▸ allOwned_nil
  | ok siblings =>
      refine (returns_visitBelow tree.size 1 siblings (hr siblings rfl)).bind
        fun visit hvisit => .after fun _ => .after fun _ => ?_
      split
      · exact .pure hvisit
      · exact .pure hvisit

/-- A self step keeps its context or nothing; the other steps select what they acquire. -/
theorem returns_expand (demand : Demand) (context : Context) (selected : List Handle) :
    Returns (expand options step demand context selected : WalkM tree Expansion) fun found =>
      if step.axis = .self then found.selected.Sublist [context.handle]
      else AllOwned found.selected := by
  unfold expand
  cases ha : step.axis with
  | self => exact returns_filterSelf options step context.handle
  | child => exact returns_expandChildren demand context.handle
  | descendant | any => exact returns_expandDescendants demand context selected

/-- So do steps from many contexts. -/
theorem returns_expandAll (demand : Demand) (contexts : List Context) (selected : List Handle) :
    Returns (expandAll options step demand contexts selected : WalkM tree Expansion) fun found =>
      if step.axis = .self then found.selected.Sublist (selected ++ contexts.map Context.handle)
      else AllOwned selected → AllOwned found.selected := by
  induction contexts generalizing selected with
  | nil =>
      refine .pure ?_
      split
      · exact List.sublist_append_left _ _
      · exact id
  | cons context rest ih =>
      refine .ite (fun _ => .after fun _ => (ih selected).weaken fun found h => ?_) fun _ => ?_
      · split at h
        · next ha =>
            rw [if_pos ha]
            exact h.trans ((List.sublist_cons_self _ _).append_left _)
        · next ha => rwa [if_neg ha]
      · refine (returns_expand demand context selected).bind fun found hfound => ?_
        cases found.failure with
        | some error =>
            refine .after fun _ => .after fun _ => .pure ?_
            split
            · exact List.nil_sublist _
            · exact fun _ => allOwned_nil
        | none =>
            refine (ih (selected ++ found.selected)).weaken fun all h => ?_
            by_cases ha : step.axis = .self
            · rw [if_pos ha] at hfound h ⊢
              rw [List.append_assoc] at h
              exact h.trans ((hfound.append_right _).append_left _)
            · rw [if_neg ha] at hfound h ⊢
              exact fun hs => h (hs.append hfound)

/-- Contexts are made of handles of the frontier. -/
theorem returns_separate (contexts : List Context) (frontier : List Handle) :
    Returns (separate options contexts frontier : WalkM tree (List Context)) fun found =>
      (found.map Context.handle).Sublist (contexts.map Context.handle ++ frontier) := by
  induction frontier generalizing contexts with
  | nil => exact .pure (List.sublist_append_left _ _)
  | cons node rest ih =>
      have hstays (nested : Bool) : @Returns tree _
          (separate options (contexts ++ [⟨node, nested⟩]) rest) fun found =>
            (found.map Context.handle).Sublist (contexts.map Context.handle ++ node :: rest) := by
        refine (ih (contexts ++ [⟨node, nested⟩])).weaken fun found h => ?_
        simpa using h
      rw [separate_cons]
      refine .after fun nested => .ite (fun _ => hstays false) fun _ =>
        .ite (fun _ => hstays true) fun _ => .after fun _ => ?_
      refine (ih contexts).weaken fun found h => h.trans ?_
      exact (List.sublist_cons_self node rest).append_left _

theorem returns_contextsFor (options : ResolveOptions) (step : Step) (frontier : List Handle) :
    Returns (contextsFor options step frontier : WalkM tree (List Context)) fun contexts =>
      (contexts.map Context.handle).Sublist frontier := by
  refine .ite (fun _ => ?_) fun _ => .pure ?_
  · exact returns_separate [] frontier
  · rw [List.map_map]
    exact (List.map_id frontier).symm ▸ List.Sublist.refl _

/-! ### Steps -/

/-- A frontier is the view of a root, or holds no views. -/
def IsRooted (root : Handle) (frontier : List Handle) : Prop :=
  frontier = [root.view] ∨ AllOwned frontier

/-- A view in a frontier is that of the root. -/
theorem IsRooted.eq_view {root : Handle} {frontier : List Handle} (h : IsRooted root frontier)
    {node : Handle} (hn : node ∈ frontier) (hb : node.isBorrowed = true) : node = root.view := by
  rcases h with rfl | howned
  · exact List.mem_singleton.1 hn
  · rw [howned node hn] at hb
    cases hb

theorem IsRooted.of_sublist {root : Handle} {frontier kept : List Handle}
    (h : IsRooted root frontier) (hs : kept.Sublist frontier) : IsRooted root kept := by
  rcases h with rfl | howned
  · rcases List.sublist_singleton.1 hs with rfl | rfl
    · exact Or.inr allOwned_nil
    · exact Or.inl rfl
  · exact Or.inr (howned.of_sublist hs)

/-- A step from a rooted frontier leads to another. -/
theorem returns_applyStep (options : ResolveOptions) (step : Step) (demand : Demand)
    {root : Handle} {frontier : List Handle} (h : IsRooted root frontier) :
    Returns (applyStep options step demand frontier : WalkM tree Expansion) fun found =>
      IsRooted root found.selected := by
  refine (returns_contextsFor options step frontier).bind fun contexts hc => ?_
  refine (returns_expandAll demand contexts []).weaken fun found hfound => ?_
  split at hfound
  · exact h.of_sublist (hfound.trans hc)
  · exact Or.inr (hfound allOwned_nil)

end Walk

end AccessQuery
