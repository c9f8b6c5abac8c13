/-
**The nodes that a walk meets.**

From a context, a step may come upon the context itself, upon the children that are taken notice of,
or upon what a walk below the context meets.  Going down over handles encounters some of that, in
the same order: all of it, unless a failed call hides something, the demand is met, or the
resolution is interrupted.  So a step encounters some of what is met from each of its contexts, one
after another.

Main definitions:

* `AccessQuery.Outlook.met` — what a step meets from one node;
* `AccessQuery.Walk.Encounters.Meets` — which nodes the candidates denote that are encountered.

Main results:

* `AccessQuery.Outlook.nodup_met` — each node is met once;
* `AccessQuery.Walk.encountersEach_meets`, `AccessQuery.Walk.encountersBelow_meets` — visits;
* `AccessQuery.Walk.encountersStep_meets` — a step.
-/

import AccessQuery.Proofs.Picks
import AccessQuery.Proofs.Walk.Encounters
import AccessQuery.Proofs.Walk.Steps

set_option relaxedAutoImplicit false
set_option autoImplicit false

namespace AccessQuery

variable {tree : Tree}

/-! ### Nodes -/

namespace Outlook

variable {o : Outlook tree} {step : Step}

/-- The nodes that a step meets from one node: those that may turn out to be candidates. -/
def met (o : Outlook tree) (step : Step) (node : tree.NodeId) : List tree.NodeId :=
  match step.axis with
  | .self => [node]
  | .child => o.offspring node
  | .descendant | .any => o.meet step tree.size 1 node

theorem nodup_met (o : Outlook tree) (step : Step) (node : tree.NodeId) :
    (o.met step node).Nodup := by
  unfold met
  cases step.axis with
  | self => exact List.nodup_singleton node
  | child => exact o.nodup_offspring node
  | descendant | any =>
      refine (Tree.descend_pairwise tree o.options tree.size 1 node).sublist
        (o.meet_sublist step tree.size 1 node) |>.imp ?_
      rintro x _ h rfl
      exact Tree.Precedes.irrefl x h

theorem above_of_mem_met (ha : step.axis = .descendant ∨ step.axis = .any) {c x : tree.NodeId}
    (h : x ∈ o.met step c) : tree.Above c x := by
  unfold met at h
  rcases ha with ha | ha <;> rw [ha] at h <;> exact above_of_mem_meet h

/-- A step that does not go below children meets each node from one context only. -/
theorem eq_of_mem_met (ha : step.axis = .self ∨ step.axis = .child) {c d x : tree.NodeId}
    (hc : x ∈ o.met step c) (hd : x ∈ o.met step d) : c = d := by
  unfold met at hc hd
  rcases ha with ha | ha <;> rw [ha] at hc hd
  · rw [← List.mem_singleton.1 hc, ← List.mem_singleton.1 hd]
  · exact Option.some.inj ((parent?_of_offspring hc).symm.trans (parent?_of_offspring hd))

end Outlook

/-! ### Candidates -/

namespace Walk

open Encounters

section Nodes

variable {α : Type} {P Q : Walk tree → Prop} {nodes nodes' : List tree.NodeId}
variable {start : Session tree} {options : ResolveOptions} {root : NativeRef}
variable {held : List (Holding tree)}

/-- From a state of some kind, the candidates denote some of these nodes, in order, when they are
encountered. -/
def Encounters.Meets (P : Walk tree → Prop) (met : Encounters tree) (nodes : List tree.NodeId) :
    Prop :=
  ∀ walk, P walk → ∃ found : List tree.NodeId,
    ((met walk).map fun e => e.2.session.bridge.nodeOf? e.1) = found.map some ∧ found.Sublist nodes

namespace Encounters.Meets

variable {met : Encounters tree} {m : WalkM tree α} {M : α → Walk tree → Prop}
variable {next : α → Encounters tree}

theorem never : Meets P never nodes :=
  fun _ _ => ⟨[], rfl, List.nil_sublist nodes⟩

theorem one {x : Holding tree} (hx : x ∈ held) :
    Meets (Keeps start options root held) (one x.handle) [x.node] :=
  fun _ hk => ⟨[x.node], congrArg ([·]) (hk.custody.denotes x hx), List.Sublist.refl _⟩

theorem bind (h : met.Meets P nodes) (hm : Ensures P m M) (hn : ∀ a, (next a).Meets (M a) nodes') :
    (met.bind m next).Meets P (nodes ++ nodes') := by
  intro walk hw
  obtain ⟨found, hfound, hsub⟩ := h walk hw
  obtain ⟨found', hfound', hsub'⟩ := hn _ _ (hm walk hw)
  refine ⟨found ++ found', ?_, hsub.append hsub'⟩
  rw [Encounters.bind, List.map_append, hfound, hfound', List.map_append]

theorem after (hm : Ensures P m M) (hn : ∀ a, (next a).Meets (M a) nodes) :
    (Encounters.after m next).Meets P nodes :=
  fun walk hw => hn _ _ (hm walk hw)

theorem strengthen (h : met.Meets Q nodes) (hp : ∀ walk, P walk → Q walk) : met.Meets P nodes :=
  fun walk hw => h walk (hp walk hw)

theorem of_sublist (h : met.Meets P nodes) (hs : nodes.Sublist nodes') : met.Meets P nodes' := by
  intro walk hw
  obtain ⟨found, hfound, hsub⟩ := h walk hw
  exact ⟨found, hfound, hsub.trans hs⟩

/-- What the state is known to be like besides is a hypothesis. -/
theorem of_and {p : Prop} (h : p → met.Meets P nodes) : met.Meets (fun walk => p ∧ P walk) nodes :=
  fun walk hw => h hw.1 walk hw.2

theorem of_exists {ι : Type} {P : ι → Walk tree → Prop} (h : ∀ i, met.Meets (P i) nodes) :
    met.Meets (fun walk => ∃ i, P i walk) nodes :=
  fun walk hw => hw.elim fun i hi => h i walk hi

end Encounters.Meets

/-- Visiting what lies below siblings comes to nodes that depend on their children, and it meets
nodes that depend on each sibling. -/
structure Reaches (start : Session tree) (options : ResolveOptions) (root : NativeRef)
    (step : Step) (demand : Demand) (earlier : List (Holding tree)) (deeper : Bool)
    (visitChildren : Siblings → WalkM tree Visit) (metChildren : Siblings → Encounters tree)
    (below : List tree.NodeId → List tree.NodeId) (reach : tree.NodeId → List tree.NodeId) :
    Prop where
  below_nil : below [] = []
  met_nil : metChildren (.ofList []) = never
  visits : ∀ candidate, ∀ gained held : List (Holding tree),
    gained.map Holding.node = (start.outlook options).opened step deeper candidate →
    (∀ y ∈ gained, y.handle.isBorrowed = false) → (∀ y ∈ earlier, y ∈ held) →
    Ensures (Keeps start options root (gained ++ held))
      (visitChildren (.ofList (gained.map Holding.handle)))
      (Visits start options root demand (below (gained.map Holding.node)) held)
  meets : ∀ node, ∀ gained held : List (Holding tree),
    gained.map Holding.node = (start.outlook options).offspring node →
    (∀ y ∈ gained, y.handle.isBorrowed = false) → (∀ y ∈ earlier, y ∈ held) →
    (metChildren (.ofList (gained.map Holding.handle))).Meets
      (Keeps start options root (gained ++ held)) (reach node)

section Siblings

variable {step : Step} {demand : Demand} {earlier : List (Holding tree)} {deeper : Bool}
variable {visitChildren : Siblings → WalkM tree Visit} {metChildren : Siblings → Encounters tree}
variable {below : List tree.NodeId → List tree.NodeId} {reach : tree.NodeId → List tree.NodeId}

/-- The candidates among siblings, and what is met below those that the walk enters. -/
theorem encountersEach_meets
    (hr : Reaches start options root step demand earlier deeper visitChildren metChildren below
      reach) (candidates : List (Holding tree × SiblingPosition))
    (howned : ∀ c ∈ candidates, c.1.handle.isBorrowed = false)
    (hspot : ∀ c ∈ candidates, c.2 = (start.outlook options).spot c.1.node)
    (he : ∀ y ∈ earlier, y ∈ held) :
    (encountersEach options step demand (earlier.map Holding.handle) deeper visitChildren
      metChildren (candidates.map fun c => (c.1.handle, c.2))).Meets
        (Keeps start options root (candidates.map Prod.fst ++ held))
        (candidates.flatMap fun c => c.1.node ::
          if deeper && (start.outlook options).entered step c.1.node then reach c.1.node
          else []) := by
  induction candidates generalizing held with
  | nil => exact .never
  | cons c candidates ih =>
      obtain ⟨x, position⟩ := c
      obtain rfl : position = (start.outlook options).spot x.node := hspot (x, _) List.mem_cons_self
      have howned' : ∀ c ∈ candidates, c.1.handle.isBorrowed = false := fun c hc =>
        howned c (List.mem_cons_of_mem _ hc)
      have hspot' : ∀ c ∈ candidates, c.2 = (start.outlook options).spot c.1.node := fun c hc =>
        hspot c (List.mem_cons_of_mem _ hc)
      simp only [List.map_cons, List.cons_append, encountersEach, List.flatMap_cons]
      rw [← List.singleton_append]
      refine (Encounters.Meets.one List.mem_cons_self).bind checkpoint_ensures fun found =>
        Encounters.Meets.of_and fun _ => ?_
      cases found with
      | some cause => exact .never
      | none =>
          refine Encounters.Meets.after (settle_ensures step earlier
            (fun y hy => List.mem_append_right _ (he y hy)) deeper _) fun settled => ?_
          refine Encounters.Meets.of_exists fun kept => Encounters.Meets.of_and fun hkept =>
            Encounters.Meets.of_and fun hsel => Encounters.Meets.of_and fun hnodes => ?_
          obtain ⟨chosen, opened⟩ := settled
          simp only at hsel
          subst hsel
          refine Encounters.Meets.of_exists fun gained => Encounters.Meets.of_and fun hopen =>
            Encounters.Meets.of_and fun hgn => Encounters.Meets.of_and fun hgb => ?_
          dsimp only
          split
          · exact .never
          · have he' : ∀ y ∈ earlier, y ∈ kept ++ (candidates.map Prod.fst ++ held) := fun y hy =>
              List.mem_append_right _ (List.mem_append_right _ (he y hy))
            refine Encounters.Meets.bind ?_ (visitOpened_ensures hr.below_nil hopen
              (hr.visits _ gained _ hgn hgb he')) fun inner => ?_
            · rw [Outlook.opened_spot] at hgn
              rcases hopen with ⟨rfl, -⟩ | rfl
              · exact .never
              · split at hgn
                · next henter =>
                    rw [if_pos henter]
                    exact hr.meets x.node gained _ hgn hgb he'
                · obtain rfl := List.map_eq_nil_iff.1 hgn
                  rw [List.map_nil, Option.elim_some, hr.met_nil]
                  exact .never
            · obtain ⟨selectedBelow, stop, abandonedBelow⟩ := inner
              cases stop with
              | some stop => exact .never
              | none =>
                  refine Encounters.Meets.strengthen
                    (Encounters.Meets.of_exists fun keptBelow => ?_) fun _ h => h.done
                  refine Encounters.Meets.of_and fun _ => Encounters.Meets.of_and fun _ =>
                    Encounters.Meets.of_and fun _ => Encounters.Meets.of_and fun _ => ?_
                  exact (ih howned' hspot' fun y hy => List.mem_append_right _
                    (List.mem_append_right _ (he y hy))).strengthen fun _ hk => hk.rest_first

/-- The children of a node that have been acquired, and what is met below them. -/
theorem encountersSiblings_meets
    (hr : Reaches start options root step demand earlier deeper visitChildren metChildren below
      reach) {node : tree.NodeId} (gained : List (Holding tree))
    (hn : gained.map Holding.node = (start.outlook options).offspring node)
    (howned : ∀ y ∈ gained, y.handle.isBorrowed = false) (he : ∀ y ∈ earlier, y ∈ held) :
    (encountersEach options step demand (earlier.map Holding.handle) deeper visitChildren
      metChildren (Siblings.ofList (gained.map Holding.handle)).remaining).Meets
        (Keeps start options root (gained ++ held))
        (((start.outlook options).offspring node).flatMap fun child => child ::
          if deeper && (start.outlook options).entered step child then reach child else []) := by
  have hfst := map_fst_positioned gained
  have hplaced := placed_eq gained
  rw [hn, Outlook.placed_offspring] at hplaced
  have h := encountersEach_meets hr (positioned gained)
    (fun c hc => howned c.1 (hfst ▸ List.mem_map_of_mem hc)) (fun c hc => ?_) he
  · rw [hfst, ← remaining_ofList] at h
    rw [← hn, List.flatMap_map]
    conv_rhs => rw [← hfst, List.flatMap_map]
    exact h
  · -- each child stands where its parent has it
    have hmem : (c.1.node, c.2) ∈ ((start.outlook options).offspring node).map fun child =>
        (child, (start.outlook options).spot child) := hplaced ▸ List.mem_map_of_mem hc
    obtain ⟨child, -, hchild⟩ := List.mem_map.1 hmem
    obtain ⟨hnode, hposition⟩ := Prod.mk.inj hchild
    rw [← hposition, hnode]

end Siblings

/-- What is met below a node whose children have been acquired. -/
theorem encountersBelow_meets {step : Step} {demand : Demand} {earlier : List (Holding tree)}
    (fuel depth : Nat) (node : tree.NodeId) (gained held : List (Holding tree))
    (hn : gained.map Holding.node = (start.outlook options).offspring node)
    (howned : ∀ y ∈ gained, y.handle.isBorrowed = false) (he : ∀ y ∈ earlier, y ∈ held) :
    (encountersBelow options step demand (earlier.map Holding.handle) fuel depth
      (.ofList (gained.map Holding.handle))).Meets (Keeps start options root (gained ++ held))
        ((start.outlook options).meet step fuel depth node) := by
  induction fuel generalizing depth node gained held with
  | zero => exact .never
  | succ fuel ih =>
      refine encountersSiblings_meets ⟨Outlook.walkBelow_nil, ?_,
        fun _ gained held _ ho he => visitBelow_ensures fuel (depth + 1) gained held ho he,
        fun node gained held hn ho he => ih (depth + 1) node gained held hn ho he⟩
        gained hn howned he
      cases fuel <;> rfl

/-- What is met from a node is what is met among its children; nothing, if they cannot be had. -/
theorem enumerated_meets {x : Holding tree} {nodes : List tree.NodeId}
    {next : Except BridgeError Siblings → Encounters tree} (herror : ∀ e, next (.error e) = never)
    (hok : ∀ gained : List (Holding tree),
      gained.map Holding.node = (start.outlook options).offspring x.node →
      (∀ y ∈ gained, y.handle.isBorrowed = false) →
      (next (.ok (.ofList (gained.map Holding.handle)))).Meets
        (Keeps start options root (gained ++ x :: held)) nodes) :
    (Encounters.after (enumerate options x.handle) next).Meets
      (Keeps start options root (x :: held)) nodes := by
  refine Encounters.Meets.after (enumerate_ensures List.mem_cons_self) fun found => ?_
  cases start.fault? .children x.node with
  | some e =>
      refine Encounters.Meets.of_and fun hr => ?_
      rw [hr, herror]
      exact .never
  | none =>
      refine Encounters.Meets.of_exists fun gained => Encounters.Meets.of_and fun hr =>
        Encounters.Meets.of_and fun hn => Encounters.Meets.of_and fun ho => ?_
      rw [hr]
      exact hok gained hn ho

/-- What is met from one context. -/
theorem encountersOf_meets {x : Holding tree} (step : Step) (demand : Demand) (nested : Bool)
    (selected : List (Holding tree)) (hs : ∀ y ∈ selected, y ∈ held) :
    (encountersOf options step demand ⟨x.handle, nested⟩ (selected.map Holding.handle)).Meets
      (Keeps start options root (x :: held)) ((start.outlook options).met step x.node) := by
  have hmap : (if nested then selected.map Holding.handle else []) =
      (if nested then selected else []).map Holding.handle := by
    cases nested <;> rfl
  have hearlier : ∀ y ∈ if nested then selected else [], y ∈ x :: held := by
    cases nested with
    | false => simp
    | true => exact fun y hy => List.mem_cons_of_mem _ (hs y hy)
  unfold encountersOf Outlook.met
  cases step.axis with
  | self => exact .one List.mem_cons_self
  | child =>
      refine enumerated_meets (fun _ => rfl) fun gained hn ho => ?_
      have hr : Reaches start options root step demand [] false (fun _ => pure .nothing)
          (fun _ => never) (fun _ => []) fun _ => [] := by
        refine ⟨rfl, rfl, fun candidate gained held hgained _ _ => ?_, fun _ _ _ _ _ _ => .never⟩
        -- children are not looked below
        obtain rfl : gained = [] := by simpa [Outlook.opened] using hgained
        exact Visits.nothing
      simpa using encountersSiblings_meets hr gained hn ho (by simp)
  | descendant | any =>
      refine enumerated_meets (fun _ => rfl) fun gained hn ho => ?_
      dsimp only
      rw [hmap]
      exact encountersBelow_meets tree.size 1 x.node gained _ hn ho hearlier

/-- What is met from contexts in order. -/
theorem encountersAll_meets (step : Step) (demand : Demand) (contexts : List (Holding tree × Bool))
    (selected : List (Holding tree)) :
    (encountersAll options step demand (contextsOf contexts) (selected.map Holding.handle)).Meets
      (Keeps start options root (selected ++ (contexts.map Prod.fst ++ held)))
      (contexts.flatMap fun c => (start.outlook options).met step c.1.node) := by
  induction contexts generalizing selected with
  | nil => exact .never
  | cons c contexts ih =>
      obtain ⟨x, nested⟩ := c
      have hselected : ∀ y ∈ selected, y ∈ selected ++ (contexts.map Prod.fst ++ held) :=
        fun y hy => List.mem_append_left _ hy
      simp only [contextsOf, List.map_cons, List.cons_append, encountersAll, List.flatMap_cons]
      split
      · refine Encounters.Meets.after (release_ensures.strengthen fun _ hk =>
          hk.of_perm List.perm_middle) fun _ => ?_
        exact (ih selected).of_sublist (List.sublist_append_right _ _)
      · refine Encounters.Meets.strengthen ?_ fun _ hk => hk.of_perm List.perm_middle
        refine (encountersOf_meets step demand nested selected hselected).bind
          (expand_ensures _ step demand nested selected hselected) fun expansion => ?_
        obtain ⟨_, failure⟩ := expansion
        refine Encounters.Meets.of_exists fun kept => Encounters.Meets.of_and fun hkept =>
          Encounters.Meets.of_and fun _ => Encounters.Meets.of_and fun _ => ?_
        simp only at hkept
        subst hkept
        cases failure with
        | some error => exact .never
        | none =>
            have hnext := ih (selected ++ kept)
            rw [List.map_append] at hnext
            exact hnext.strengthen fun _ hk => hk.selected_first

/-- A step meets some of what there is to meet from each of its contexts, one after another. -/
theorem encountersStep_meets (step : Step) (demand : Demand) (frontier : List (Holding tree)) :
    (encountersStep options step demand (frontier.map Holding.handle)).Meets
      (Keeps start options root (frontier ++ held))
      (((start.outlook options).contextsFor step (frontier.map Holding.node)).flatMap fun c =>
        (start.outlook options).met step c.1) := by
  refine Encounters.Meets.after (contextsFor_ensures step frontier) fun found => ?_
  refine Encounters.Meets.of_exists fun contexts => Encounters.Meets.of_and fun hc =>
    Encounters.Meets.of_and fun hn => Encounters.Meets.of_and fun _ => ?_
  rw [hc, ← hn, List.flatMap_map]
  exact encountersAll_meets step demand contexts []

end Nodes

end Walk

end AccessQuery
