/-
**The first match is the head of the matches.**

A resolution that asks for the first match only is compared with the one that asks for all of them,
from the same state.  They run alike up to the moment when the first match is settled.  From there
on the one gives handles back and does nothing else; the other goes on, and whatever it finds comes
after that match.  If there is no match, or no result, they are the same to the end.

The other must not fail after the first match, though a resolution that fails has no matches at all.
It cannot: only the root is fatal, and where the root is a context, it is the only one.

Main definitions:

* `AccessQuery.ResolveOptions.Uninterrupted` — nothing interrupts a resolution;
* `AccessQuery.Walk.Anticipates` — a computation that is another one, up to the first node that is
  selected.

Main results:

* `AccessQuery.Walk.returns_expandAll_owned` — acquired contexts are not fatal;
* `AccessQuery.Walk.anticipates_visitBelow`, `AccessQuery.Walk.anticipates_expandAll`,
  `AccessQuery.Walk.anticipates_applySteps` — visits, contexts and walks;
* `AccessQuery.Session.findFirst_eq_head` — and resolutions, with their calls.
-/

import AccessQuery.Proofs.Steady
import AccessQuery.Proofs.Truncation
import AccessQuery.Proofs.Walk.Rooted

set_option relaxedAutoImplicit false
set_option autoImplicit false

namespace AccessQuery

variable {tree : Tree}

/-- Nothing interrupts a resolution. -/
def ResolveOptions.Uninterrupted (options : ResolveOptions) : Prop :=
  ∀ made, options.interrupt? made = none

theorem ResolveOptions.uninterrupted {options : ResolveOptions}
    (hd : options.deadline ≠ some .past) (hc : options.cancelAt = none) :
    options.Uninterrupted := by
  intro made
  simp [interrupt?, hc, hd]

/-- The first node that a visit selects. -/
def Visit.head? (visit : Visit) : Option Handle :=
  visit.selected.head?

/-- A visit that has ended with a node, as no further one is asked for. -/
def Visit.EndsWith (head : Handle) (visit : Visit) : Prop :=
  visit.selected = [head] ∧ visit.stop = some .satisfied

/-- The first node that an expansion selects; one that fails selects none. -/
def Expansion.head? (found : Expansion) : Option Handle :=
  match found.failure with
  | none => found.selected.head?
  | some _ => none

/-- An expansion that has come to one node. -/
def Expansion.IsJust (head : Handle) (found : Expansion) : Prop :=
  found = ⟨[head], none⟩

theorem Expansion.head?_eq_some {found : Expansion} {head : Handle}
    (h : found.head? = some head) : found.failure = none ∧ found.selected.head? = some head := by
  unfold Expansion.head? at h
  split at h
  · next hf => exact ⟨hf, h⟩
  · cases h

/-- A walk ends with an expansion that selects no first node. -/
theorem Expansion.head?_eq_none_iff {found : Expansion} :
    found.head? = none ↔ (found.failure.isSome || found.selected.isEmpty) = true := by
  obtain ⟨selected, failure⟩ := found
  cases failure <;> simp [Expansion.head?]

namespace Walk

variable {α β : Type} {options : ResolveOptions} {step : Step}

/-! ### Walks that nothing interrupts -/

theorem checkpoint_eq (h : options.Uninterrupted) :
    (checkpoint options : WalkM tree (Option Interrupt)) = pure none :=
  funext fun walk => congrArg (·, walk) (h _)

/-- A visit that asks for all nodes comes to the end of its candidates. -/
theorem returns_visitEach_all (h : options.Uninterrupted) {earlier : List Handle} {deeper : Bool}
    {visitChildren : Siblings → WalkM tree Visit}
    (hv : ∀ siblings, Returns (visitChildren siblings) (·.stop = none))
    (candidates : List (Handle × SiblingPosition)) :
    Returns (visitEach options step .all earlier deeper visitChildren candidates)
      (·.stop = none) := by
  induction candidates with
  | nil => exact .pure rfl
  | cons candidate rest ih =>
      obtain ⟨node, position⟩ := candidate
      simp only [visitEach, checkpoint_eq h, pure_bind]
      refine .after fun settled => ?_
      have hbelow : Returns (settled.2.elim (pure .nothing) visitChildren) (·.stop = none) := by
        cases settled.2 with
        | none => exact .pure rfl
        | some siblings => exact hv siblings
      refine hbelow.bind fun inner hinner => ?_
      rw [hinner]
      exact ih.bind fun outer houter => .pure houter

theorem returns_visitBelow_all (h : options.Uninterrupted) {earlier : List Handle}
    (fuel depth : Nat) (siblings : Siblings) :
    Returns (visitBelow options step .all earlier fuel depth siblings : WalkM tree Visit)
      (·.stop = none) := by
  induction fuel generalizing depth siblings with
  | zero => exact .after fun _ => .pure rfl
  | succ fuel ih => exact returns_visitEach_all h (ih (depth + 1)) _

theorem returns_unreachable_owned {node : Handle} (hn : node.isBorrowed = false)
    (error : BridgeError) :
    Returns (unreachable node error : WalkM tree Expansion) (·.failure = none) := by
  refine .ite (fun hb => ?_) fun _ => .after fun _ => .after fun _ => .pure rfl
  rw [hn] at hb
  cases hb

/-- A context that was acquired is not fatal. -/
theorem returns_expand_owned (h : options.Uninterrupted) {context : Context}
    (hc : context.handle.isBorrowed = false) (selected : List Handle) :
    Returns (expand options step .all context selected : WalkM tree Expansion)
      (·.failure = none) := by
  unfold expand
  cases step.axis with
  | self =>
      simp only [filterSelf, checkpoint_eq h, pure_bind]
      refine .after fun verdict => ?_
      split
      · exact returns_unreachable_owned hc _
      · exact .pure rfl
      · exact .after fun _ => .pure rfl
  | child =>
      refine .after fun result => ?_
      cases result with
      | error e => exact returns_unreachable_owned hc e
      | ok siblings =>
          refine (returns_visitEach_all h (fun _ => .pure rfl) _).bind fun visit hvisit => ?_
          rw [hvisit]
          exact .after fun _ => .after fun _ => .pure rfl
  | descendant | any =>
      refine .after fun result => ?_
      cases result with
      | error e => exact returns_unreachable_owned hc e
      | ok siblings =>
          refine (returns_visitBelow_all h tree.size 1 siblings).bind fun visit hvisit =>
            .after fun _ => .after fun _ => ?_
          rw [hvisit]
          exact .pure rfl

/-- Contexts that were acquired only add to what was selected before. -/
theorem returns_expandAll_owned (h : options.Uninterrupted) (contexts : List Context)
    (hc : ∀ context ∈ contexts, context.handle.isBorrowed = false) (selected : List Handle) :
    Returns (expandAll options step .all contexts selected : WalkM tree Expansion) fun found =>
      found.failure = none ∧ selected <+: found.selected := by
  induction contexts generalizing selected with
  | nil => exact .pure ⟨rfl, List.prefix_rfl⟩
  | cons context rest ih =>
      obtain ⟨hcontext, hrest⟩ := List.forall_mem_cons.1 hc
      refine (returns_expand_owned h hcontext selected).bind fun found hfound => ?_
      rw [hfound]
      refine (ih hrest (selected ++ found.selected)).weaken fun all hall => ?_
      exact ⟨hall.1, (List.prefix_append _ _).trans hall.2⟩

/-! ### Up to the first node -/

/-- A computation runs like another one until a node is selected.  From there on it gives handles
back and does nothing else, and its result is the node that the other one selects first.  Where the
other one selects none, they are the same. -/
def Anticipates (first : α → Option Handle) (Found : Handle → α → Prop)
    (full early : WalkM tree α) : Prop :=
  ∀ walk, match first (full walk).1 with
    | none => early walk = full walk
    | some head => Found head (early walk).1 ∧ ∃ seen : Walk tree,
        seen.session.bridge.calls.toList <+: (full walk).2.session.bridge.calls.toList ∧
          seen.session.OnlyReleasesSince (early walk).2.session

namespace Anticipates

variable {first : α → Option Handle} {Found : Handle → α → Prop}
variable {first' : β → Option Handle} {Found' : Handle → β → Prop}
variable {full early : WalkM tree α} {f g : α → WalkM tree β} {P : α → Prop}

/-- A computation that selects one node at most anticipates itself. -/
theorem refl {m : WalkM tree α}
    (h : Returns m fun a => ∀ head, first a = some head → Found head a) :
    Anticipates first Found m m := by
  intro walk
  split
  · rfl
  · next head hhead => exact ⟨h walk head hhead, (m walk).2, List.prefix_rfl, .refl _⟩

/-- So does one that selects none. -/
theorem refl_of_none {m : WalkM tree α} (h : Returns m (first · = none)) :
    Anticipates first Found m m :=
  refl <| h.weaken fun a ha head hhead => by
    rw [ha] at hhead
    cases hhead

/-- The computations may go on alike where nothing has been selected.  Where a node has, the one
goes on without selecting another before it, and the other one is to clean up. -/
theorem bind (hm : Anticipates first Found full early) (hr : Returns full P)
    (hnone : ∀ a, P a → first a = none → Anticipates first' Found' (f a) (g a))
    (hsome : ∀ a head, P a → first a = some head →
      Extends (f a) ∧ Returns (f a) (first' · = some head))
    (hfound : ∀ a head, Found head a → CleansUp (g a) (Found' head)) :
    Anticipates first' Found' (full >>= f) (early >>= g) := by
  intro walk
  have hearly := hm walk
  have hresult := hr walk
  change match first' (f (full walk).1 (full walk).2).1 with
    | none => g (early walk).1 (early walk).2 = f (full walk).1 (full walk).2
    | some head => Found' head (g (early walk).1 (early walk).2).1 ∧ ∃ seen : Walk tree,
        seen.session.bridge.calls.toList <+:
          (f (full walk).1 (full walk).2).2.session.bridge.calls.toList ∧
          seen.session.OnlyReleasesSince (g (early walk).1 (early walk).2).2.session
  cases hfirst : first (full walk).1 with
  | none =>
      rw [hfirst] at hearly
      rw [show early walk = full walk from hearly]
      exact hnone _ hresult hfirst (full walk).2
  | some head =>
      rw [hfirst] at hearly
      obtain ⟨hfoundEarly, seen, hcalls, hreleases⟩ := hearly
      obtain ⟨hextends, hhead⟩ := hsome _ head hresult hfirst
      obtain ⟨hfound', hreleases'⟩ := hfound _ head hfoundEarly (early walk).2
      rw [hhead (full walk).2]
      exact ⟨hfound', seen, hextends _ _ hcalls, hreleases.trans hreleases'⟩

/-- What comes first may be the same for both. -/
theorem after {m : WalkM tree α} (hr : Returns m P)
    (h : ∀ a, P a → Anticipates first' Found' (f a) (g a)) :
    Anticipates first' Found' (m >>= f) (m >>= g) :=
  fun walk => h (m walk).1 (hr walk) (m walk).2

end Anticipates

/-! ### Visits -/

theorem extends_visitEach {demand : Demand} {earlier : List Handle} {deeper : Bool}
    {visitChildren : Siblings → WalkM tree Visit}
    (hv : ∀ siblings, Extends (visitChildren siblings))
    (candidates : List (Handle × SiblingPosition)) :
    Extends (visitEach options step demand earlier deeper visitChildren candidates) :=
  fun calls => upholds_visitEach (Session.invariant_prefix calls) options step demand earlier deeper
    (fun siblings => hv siblings calls) candidates

/-- A candidate is settled in the same way, whatever is asked for. -/
theorem anticipates_settle (options : ResolveOptions) (step : Step) (earlier : List Handle)
    (deeper : Bool) (node : Handle) (position : SiblingPosition) :
    Anticipates (fun settled => settled.1.head?) (fun head settled => settled.1 = [head])
      (settle options step earlier deeper node position : WalkM tree _)
      (settle options step earlier deeper node position) := by
  refine .refl ((returns_settle options step earlier deeper node position).weaken ?_)
  rintro ⟨kept, below⟩ ⟨hkept, -⟩ head hhead
  rcases hkept with rfl | rfl
  · cases hhead
  · obtain rfl : node = head := Option.some.inj hhead
    rfl

theorem anticipates_visitEach (h : options.Uninterrupted) {earlier : List Handle} {deeper : Bool}
    {full early : Siblings → WalkM tree Visit}
    (hstop : ∀ siblings, Returns (full siblings) (·.stop = none))
    (hextends : ∀ siblings, Extends (full siblings))
    (hv : ∀ siblings, Anticipates Visit.head? Visit.EndsWith (full siblings) (early siblings))
    (candidates : List (Handle × SiblingPosition)) :
    Anticipates Visit.head? Visit.EndsWith
      (visitEach options step .all earlier deeper full candidates)
      (visitEach options step .first earlier deeper early candidates) := by
  induction candidates with
  | nil => exact .refl_of_none (.pure rfl)
  | cons candidate rest ih =>
      obtain ⟨node, position⟩ := candidate
      simp only [visitEach, checkpoint_eq h, pure_bind]
      -- what the full visit does below the candidate, and after it
      have hbelow (below : Option Siblings) :
          Returns (below.elim (pure .nothing) full) (·.stop = none) ∧
            Extends (below.elim (pure .nothing) full) := by
        cases below with
        | none => exact ⟨.pure rfl, extends_pure _⟩
        | some siblings => exact ⟨hstop siblings, hextends siblings⟩
      have hafter : Extends (visitEach options step .all earlier deeper full rest) :=
        extends_visitEach hextends rest
      refine (anticipates_settle options step earlier deeper node position).bind .anything ?_ ?_ ?_
      · rintro ⟨kept, below⟩ - hnone
        obtain rfl : kept = [] := List.head?_eq_none_iff.1 hnone
        have hinner : Anticipates Visit.head? Visit.EndsWith (below.elim (pure .nothing) full)
            (below.elim (pure .nothing) early) := by
          cases below with
          | none => exact .refl_of_none (.pure rfl)
          | some siblings => exact hv siblings
        refine hinner.bind (hbelow below).1 ?_ ?_ ?_
        · rintro ⟨selected, stop, abandoned⟩ (rfl : stop = none) hnone
          obtain rfl : selected = [] := List.head?_eq_none_iff.1 hnone
          have hdone : (fun outer : Visit => (pure { outer with
              selected := [] ++ [] ++ outer.selected } : WalkM tree Visit)) = pure := rfl
          simp only [hdone, bind_pure]
          exact ih
        · rintro ⟨selected, stop, abandoned⟩ head (rfl : stop = none) hhead
          refine ⟨hafter.bind fun _ => extends_pure _, .after fun outer => .pure ?_⟩
          change (selected ++ outer.selected).head? = some head
          rw [List.head?_append, show selected.head? = some head from hhead]
          rfl
        · rintro ⟨selected, stop, abandoned⟩ head ⟨rfl, rfl⟩
          exact .pure ⟨rfl, rfl⟩
      · rintro ⟨kept, below⟩ head - hhead
        refine ⟨(hbelow below).2.bind fun inner => ?_, (hbelow below).1.bind fun inner hinner => ?_⟩
        · cases inner.stop with
          | some stop => exact extends_pure _
          | none => exact hafter.bind fun _ => extends_pure _
        · rw [hinner]
          refine .after fun outer => .pure ?_
          change (kept ++ inner.selected ++ outer.selected).head? = some head
          rw [List.append_assoc, List.head?_append, show kept.head? = some head from hhead]
          rfl
      · rintro ⟨kept, below⟩ head rfl
        exact .releaseAll _ (.pure ⟨rfl, rfl⟩)

theorem extends_visitBelow {demand : Demand} {earlier : List Handle} (fuel depth : Nat)
    (siblings : Siblings) :
    Extends (visitBelow options step demand earlier fuel depth siblings : WalkM tree Visit) :=
  fun calls => upholds_visitBelow (Session.invariant_prefix calls) options step demand earlier fuel
    depth siblings

theorem anticipates_visitBelow (h : options.Uninterrupted) {earlier : List Handle}
    (fuel depth : Nat) (siblings : Siblings) :
    Anticipates Visit.head? Visit.EndsWith
      (visitBelow options step .all earlier fuel depth siblings : WalkM tree Visit)
      (visitBelow options step .first earlier fuel depth siblings) := by
  induction fuel generalizing depth siblings with
  | zero => exact .refl_of_none (.after fun _ => .pure rfl)
  | succ fuel ih =>
      exact anticipates_visitEach h (returns_visitBelow_all h fuel (depth + 1))
        (extends_visitBelow fuel (depth + 1)) (ih (depth + 1)) _

/-! ### Contexts -/

theorem anticipates_unreachable (node : Handle) (error : BridgeError) :
    Anticipates Expansion.head? Expansion.IsJust
      (unreachable node error : WalkM tree Expansion) (unreachable node error) := by
  refine .refl_of_none ((returns_unreachable node error).weaken ?_)
  rintro ⟨selected, failure⟩ (rfl : selected = [])
  cases failure <;> rfl

theorem anticipates_filterSelf (options : ResolveOptions) (step : Step) (node : Handle) :
    Anticipates Expansion.head? Expansion.IsJust
      (filterSelf options step node : WalkM tree Expansion) (filterSelf options step node) := by
  refine .refl ((returns_filterSelf options step node).weaken ?_)
  intro found hfound head hhead
  obtain ⟨hfailure, hselected⟩ := Expansion.head?_eq_some hhead
  obtain ⟨selected, failure⟩ := found
  obtain rfl : failure = none := hfailure
  rcases List.sublist_singleton.1 hfound with rfl | rfl
  · cases hselected
  · obtain rfl : node = head := Option.some.inj hselected
    rfl

/-- A context is left in the same way whether its visit was cut short or not. -/
theorem Anticipates.leave {full early : WalkM tree Visit}
    (hm : Anticipates Visit.head? Visit.EndsWith full early) (hr : Returns full (·.stop = none))
    (node : Handle) {close : Visit → WalkM tree Expansion}
    (hclose : ∀ visit, visit.stop = none ∨ visit.stop = some .satisfied → close visit = do
      releaseAll visit.abandoned
      release node
      return ⟨visit.selected, none⟩) :
    Anticipates Expansion.head? Expansion.IsJust (full >>= close) (early >>= close) := by
  refine hm.bind hr ?_ ?_ ?_
  · intro visit hstop hnone
    rw [hclose visit (Or.inl hstop)]
    exact .refl_of_none (.after fun _ => .after fun _ => .pure hnone)
  · intro visit head hstop hhead
    rw [hclose visit (Or.inl hstop)]
    exact ⟨(extends_releaseAll _).bind fun _ => (extends_release _).bind fun _ => extends_pure _,
      .after fun _ => .after fun _ => .pure hhead⟩
  · rintro visit head ⟨hselected, hstop⟩
    rw [hclose visit (Or.inr hstop), hselected]
    exact .releaseAll _ (.release _ (.pure rfl))

theorem anticipates_expandChildren (h : options.Uninterrupted) (node : Handle) :
    Anticipates Expansion.head? Expansion.IsJust
      (expandChildren options step .all node : WalkM tree Expansion)
      (expandChildren options step .first node) := by
  refine .after .anything fun result _ => ?_
  cases result with
  | error e => exact anticipates_unreachable node e
  | ok siblings =>
      have hnothing (siblings : Siblings) :
          Returns (pure .nothing : WalkM tree Visit) (·.stop = none) := .pure rfl
      refine (anticipates_visitEach h hnothing (fun _ => extends_pure _)
        (fun _ => .refl_of_none (.pure rfl)) siblings.remaining).leave
        (returns_visitEach_all h hnothing siblings.remaining) node ?_
      rintro ⟨selected, stop, abandoned⟩ (rfl | rfl) <;> rfl

theorem anticipates_expandDescendants (h : options.Uninterrupted) (context : Context)
    (selected : List Handle) :
    Anticipates Expansion.head? Expansion.IsJust
      (expandDescendants options step .all context selected : WalkM tree Expansion)
      (expandDescendants options step .first context selected) := by
  refine .after .anything fun result _ => ?_
  cases result with
  | error e => exact anticipates_unreachable context.handle e
  | ok siblings =>
      refine (anticipates_visitBelow h tree.size 1 siblings).leave
        (returns_visitBelow_all h tree.size 1 siblings) context.handle ?_
      rintro ⟨selected, stop, abandoned⟩ (rfl | rfl) <;> rfl

theorem anticipates_expand (h : options.Uninterrupted) (context : Context)
    (selected : List Handle) :
    Anticipates Expansion.head? Expansion.IsJust
      (expand options step .all context selected : WalkM tree Expansion)
      (expand options step .first context selected) := by
  unfold expand
  cases step.axis with
  | self => exact anticipates_filterSelf options step context.handle
  | child => exact anticipates_expandChildren h context.handle
  | descendant | any => exact anticipates_expandDescendants h context selected

/-- Once a node has been found, contexts are only given back. -/
theorem cleansUp_expandAll (contexts : List Context) (head : Handle) :
    CleansUp (expandAll options step .first contexts [head] : WalkM tree Expansion)
      (Expansion.IsJust head) := by
  induction contexts with
  | nil => exact .pure rfl
  | cons context rest ih => exact .release context.handle ih

theorem extends_expandAll (contexts : List Context) (selected : List Handle) :
    Extends (expandAll options step .all contexts selected : WalkM tree Expansion) :=
  fun calls =>
    upholds_expandAll (Session.invariant_prefix calls) options step .all contexts selected

/-- A node found in one context is not lost on account of the next ones, which were acquired. -/
theorem anticipates_expandAll (h : options.Uninterrupted) (contexts : List Context)
    (hc : ∀ context ∈ contexts.tail, context.handle.isBorrowed = false) :
    Anticipates Expansion.head? Expansion.IsJust
      (expandAll options step .all contexts [] : WalkM tree Expansion)
      (expandAll options step .first contexts []) := by
  induction contexts with
  | nil => exact .refl_of_none (.pure rfl)
  | cons context rest ih =>
      refine (anticipates_expand h context []).bind .anything ?_ ?_ ?_
      · rintro ⟨selected, failure⟩ - hnone
        cases failure with
        | some error => exact .refl_of_none (.after fun _ => .after fun _ => .pure rfl)
        | none =>
            obtain rfl : selected = [] := List.head?_eq_none_iff.1 hnone
            exact ih fun context hcontext => hc context (List.mem_of_mem_tail hcontext)
      · rintro found head - hhead
        obtain ⟨hfailure, hselected⟩ := Expansion.head?_eq_some hhead
        rw [hfailure]
        refine ⟨extends_expandAll rest _, (returns_expandAll_owned h rest hc _).weaken ?_⟩
        rintro ⟨selected, failure⟩ ⟨rfl, more, rfl⟩
        change ([] ++ found.selected ++ more).head? = some head
        rw [List.nil_append, List.head?_append, hselected]
        rfl
      · rintro found head rfl
        exact cleansUp_expandAll rest head

/-! ### Steps -/

theorem anticipates_applyStep (h : options.Uninterrupted) {root : Handle} {frontier : List Handle}
    (hf : IsRooted root frontier) :
    Anticipates Expansion.head? Expansion.IsJust
      (applyStep options step .all frontier : WalkM tree Expansion)
      (applyStep options step .first frontier) := by
  refine .after (returns_contextsFor options step frontier) fun contexts hsub => ?_
  refine anticipates_expandAll h contexts fun context hcontext => ?_
  have hmem : context.handle ∈ (contexts.map Context.handle).tail :=
    List.map_tail ▸ List.mem_map_of_mem hcontext
  rcases hf with rfl | howned
  · rcases List.sublist_singleton.1 hsub with hnil | hone
    · rw [hnil] at hmem
      cases hmem
    · rw [hone] at hmem
      cases hmem
  · exact howned _ (hsub.mem (List.mem_of_mem_tail hmem))

/-- Only the last step is cut short. -/
theorem anticipates_applySteps (h : options.Uninterrupted) (steps : List Step) (hs : steps ≠ [])
    {root : Handle} {frontier : List Handle} (hf : IsRooted root frontier) :
    Anticipates Expansion.head? Expansion.IsJust
      (applySteps options .all steps frontier : WalkM tree Expansion)
      (applySteps options .first steps frontier) := by
  induction steps generalizing frontier with
  | nil => exact absurd rfl hs
  | cons step rest ih =>
      cases rest with
      | nil =>
          refine (anticipates_applyStep h hf).bind .anything ?_ ?_ ?_
          · intro found _ hnone
            have hidle := Expansion.head?_eq_none_iff.1 hnone
            rw [if_pos hidle, if_pos hidle]
            exact .refl_of_none (.pure hnone)
          · intro found head _ hhead
            have hgoes : ¬(found.failure.isSome || found.selected.isEmpty) = true := by
              rw [← Expansion.head?_eq_none_iff, hhead]
              exact Option.some_ne_none head
            rw [if_neg hgoes]
            exact ⟨extends_pure _, .pure (Expansion.head?_eq_some hhead).2⟩
          · rintro found head rfl
            exact .pure rfl
      | cons next others =>
          refine .after (returns_applyStep options step .all hf) fun found hfound => ?_
          split
          · next hidle => exact .refl_of_none (.pure (Expansion.head?_eq_none_iff.2 hidle))
          · exact ih (List.cons_ne_nil next others) hfound

end Walk

/-! ### Resolutions -/

namespace Session

/-- The first match is the head of the matches, or both resolutions fail alike; and the calls up to
it are those of the full resolution, after which handles are given back. -/
theorem findFirst_anticipates (options : ResolveOptions) (query : Query) (root : Handle)
    (start : Session tree) (h : options.Uninterrupted) :
    (findFirst options query root start).1 = (resolve options query root start).1.map List.head? ∧
      ∃ made releases, start.bridge.callsSince (findFirst options query root start).2.bridge =
          made ++ releases ∧
        made <+: start.bridge.callsSince (resolve options query root start).2.bridge ∧
        ∀ call ∈ releases, call.op = .release := by
  by_cases hs : root.session ≠ start.id
  · have hnothing : start.bridge.callsSince start.bridge = [] := Bridge.callsSince_self _
    simp only [findFirst, resolve, bind, StateT.bind, run_of_foreign hs]
    refine ⟨rfl, [], [], hnothing, List.nil_prefix, List.forall_mem_nil _⟩
  · have hsteps := Walk.anticipates_applySteps h query.steps query.steps_ne_nil
      (Or.inl rfl : Walk.IsRooted root [root.view]) (⟨start, [], ∅⟩ : Walk tree)
    simp only [findFirst, resolve, bind, StateT.bind, run, if_neg hs]
    generalize Walk.applySteps options .all query.steps [root.view] ⟨start, [], ∅⟩ = full at hsteps
    generalize Walk.applySteps options .first query.steps [root.view] ⟨start, [], ∅⟩ = early
      at hsteps
    obtain ⟨⟨selected, failure⟩, after⟩ := full
    cases hfirst : Expansion.head? ⟨selected, failure⟩ with
    | none =>
        rw [hfirst] at hsteps
        obtain rfl : early = (⟨selected, failure⟩, after) := hsteps
        cases failure with
        | some error => exact ⟨rfl, _, [], (List.append_nil _).symm, List.prefix_rfl, by simp⟩
        | none => exact ⟨rfl, _, [], (List.append_nil _).symm, List.prefix_rfl, by simp⟩
    | some head =>
        rw [hfirst] at hsteps
        obtain ⟨hjust, seen, hcalls, releases, hafter, hreleases⟩ := hsteps
        obtain ⟨found, after'⟩ := early
        obtain rfl : found = ⟨[head], none⟩ := hjust
        obtain ⟨rfl, hselected⟩ := Expansion.head?_eq_some hfirst
        let made := start.bridge.calls.size
        refine ⟨congrArg Except.ok hselected.symm, seen.session.bridge.calls.toList.drop made,
          releases.drop (made - seen.session.bridge.calls.toList.length), ?_, hcalls.drop made,
          fun call hcall => hreleases call (List.mem_of_mem_drop hcall)⟩
        rw [← List.drop_append, ← hafter]
        rfl

/-- The handle that heads the result of a run denotes the first match of the outlook. -/
theorem nodeOf?_head_run {node : tree.NodeId} {options : ResolveOptions} {demand : Demand}
    {query : Query} {root head : Handle} {start : Session tree}
    (hl : start.bridge.nodeOf? root = some node)
    (ho : ∀ ref ∈ start.ledger.outstanding, ref.address ≤ 0x1000 + start.bridge.acquired)
    (hh : (run options demand query root start).1.map (fun found => found.selected.head?) =
      .ok (some head)) :
    ∃ nodes x, (start.outlook options).resolve query.steps true [node] = .ok nodes ∧
      nodes.head? = some x ∧
      (run options demand query root start).2.bridge.nodeOf? head = some x := by
  rcases hr : run options demand query root start with ⟨result, after⟩
  rw [hr] at hh
  cases result with
  | error e => cases hh
  | ok found =>
      obtain ⟨nodes, hq, hnodes⟩ := nodesOf_run hl ho hr
      have hselected : found.selected.head? = some head := Except.ok.inj hh
      have hcut : (demand.cut nodes).head? = nodes.head? := by
        cases demand with
        | all => rfl
        | first => cases nodes <;> rfl
      have hfirst : nodes.head?.map some = some (after.bridge.nodeOf? head) := by
        rw [← hcut, ← List.head?_map, ← hnodes, nodesOf, List.head?_map, hselected]
        rfl
      obtain ⟨x, hx, hdenotes⟩ := Option.map_eq_some_iff.1 hfirst
      exact ⟨nodes, x, hq, hx, hdenotes.symm⟩

/-- Where nothing interrupts, the first match is the head of the matches, or both resolutions fail
alike.  The handle of the first match denotes the same node in the end, and the calls up to it are
those of the full resolution, after which handles are given back. -/
theorem findFirst_eq_head (options : ResolveOptions) (query : Query) (root : Handle)
    (start : Session tree) (hd : options.deadline ≠ some .past) (hc : options.cancelAt = none) :
    let full := resolve options query root start
    let first := findFirst options query root start
    first.1 = full.1.map List.head? ∧
      (∃ made releases, start.bridge.callsSince first.2.bridge = made ++ releases ∧
        made <+: start.bridge.callsSince full.2.bridge ∧
        ∀ call ∈ releases, call.op = .release) ∧
      ∀ node, start.bridge.nodeOf? root = some node →
        (∀ ref ∈ start.ledger.outstanding, ref.address ≤ 0x1000 + start.bridge.acquired) →
        ∀ head, first.1 = .ok (some head) → ∃ x : tree.NodeId,
          first.2.bridge.nodeOf? head = some x ∧ full.2.bridge.nodeOf? head = some x := by
  intro full first
  obtain ⟨hresult, hcalls⟩ := findFirst_anticipates options query root start
    (ResolveOptions.uninterrupted hd hc)
  refine ⟨hresult, hcalls, fun node hl ho head hhead => ?_⟩
  obtain ⟨nodes, x, hq, hx, hdenotes⟩ := nodeOf?_head_run hl ho hhead
  have hhead' : (run options .all query root start).1.map (fun found => found.selected.head?) =
      .ok (some head) := by
    rw [← hhead, hresult, resolve_eq]
    cases (run options .all query root start).1 <;> rfl
  obtain ⟨nodes', x', hq', hx', hdenotes'⟩ := nodeOf?_head_run hl ho hhead'
  obtain rfl : nodes' = nodes := Except.ok.inj (hq'.symm.trans hq)
  obtain rfl : x' = x := Option.some.inj (hx'.symm.trans hx)
  exact ⟨x', hdenotes, hdenotes'⟩

/-- Below the root of a tree in which a panel cannot be asked for its children, so that the label
below it is passed over for those after it. -/
theorem findFirst_eq_head_opening :
    let tree := ((((Tree.single (Element.new "frame" "")).addChild ⟨0, by decide⟩
      (Element.new "panel" "")).addChild ⟨1, by decide⟩ (Element.new "label" "")).addChild
      ⟨0, by decide⟩ (Element.new "label" "")).addChild ⟨0, by decide⟩ (Element.new "label" "")
    let opened := opening tree ⟨0, by decide⟩ fun op place =>
      if op = .children ∧ place = 1 then some 7 else none
    let options : ResolveOptions := {}
    let query := Query.single ⟨.descendant, .role "label", none⟩
    let full := resolve options query opened.1 opened.2
    let first := findFirst options query opened.1 opened.2
    options.deadline ≠ some .past ∧ options.cancelAt = none ∧
      first.1 = full.1.map List.head? ∧
      (∃ made releases, opened.2.bridge.callsSince first.2.bridge = made ++ releases ∧
        made <+: opened.2.bridge.callsSince full.2.bridge ∧
        ∀ call ∈ releases, call.op = .release) ∧
      ∀ node, opened.2.bridge.nodeOf? opened.1 = some node →
        (∀ ref ∈ opened.2.ledger.outstanding, ref.address ≤ 0x1000 + opened.2.bridge.acquired) →
        ∀ head, first.1 = .ok (some head) → ∃ x : tree.NodeId,
          first.2.bridge.nodeOf? head = some x ∧ full.2.bridge.nodeOf? head = some x := by
  intro tree opened options query
  have hd : options.deadline ≠ some .past := by decide
  have hc : options.cancelAt = none := rfl
  exact ⟨hd, hc, findFirst_eq_head options query opened.1 opened.2 hd hc⟩

end Session

end AccessQuery
