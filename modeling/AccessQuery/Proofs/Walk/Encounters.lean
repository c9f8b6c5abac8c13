/-
**The candidates that a walk encounters.**

A walk looks at its cancel flag before it judges a candidate, and then only.  Here the candidates
are listed beside the states in which it does so: each definition is of the shape of the one that
lists those states, and so of the walk itself.  What a step selects is among the candidates that it
encounters, in the same order.

Main definitions:

* `AccessQuery.Walk.Encounters` — the candidates that a computation encounters, in order;
* `AccessQuery.Walk.encountersEach`, `AccessQuery.Walk.encountersBelow` — those of a visit;
* `AccessQuery.Walk.encountersOf`, `AccessQuery.Walk.encountersAll`,
  `AccessQuery.Walk.encountersStep` — those of one context, of all of them, and of a step;
* `AccessQuery.Walk.Encounters.IsAt`, `AccessQuery.Walk.Encounters.Accounts` — in which states they
  are encountered, and what is selected of them.

Main results:

* `AccessQuery.Walk.map_snd_encountersStep` — the states are those in which the flag is looked at;
* `AccessQuery.Walk.selected_sublist_encountersStep` — what a step selects.
-/

import AccessQuery.Proofs.Walk.Checkpoints
import AccessQuery.Proofs.Walk.Rooted

set_option relaxedAutoImplicit false
set_option autoImplicit false

namespace AccessQuery

variable {tree : Tree}

namespace Walk

/-- The candidates that a computation encounters which starts in a state, in order, each with the
state before it is judged. -/
abbrev Encounters (tree : Tree) := Walk tree → List (Handle × Walk tree)

namespace Encounters

variable {α : Type}

/-- There is no candidate. -/
def never : Encounters tree :=
  fun _ => []

/-- There is one candidate. -/
def one (node : Handle) : Encounters tree :=
  fun walk => [(node, walk)]

/-- A computation is followed by another. -/
def bind (met : Encounters tree) (m : WalkM tree α) (next : α → Encounters tree) :
    Encounters tree :=
  fun walk => met walk ++ next (m walk).1 (m walk).2

/-- A computation that encounters no candidate is followed by another. -/
def after (m : WalkM tree α) (next : α → Encounters tree) : Encounters tree :=
  fun walk => next (m walk).1 (m walk).2

end Encounters

open Encounters

/-! ### Visits -/

/-- Each candidate, and those on the way below it. -/
def encountersEach (options : ResolveOptions) (step : Step) (demand : Demand)
    (earlier : List Handle) (deeper : Bool) (visitChildren : Siblings → WalkM tree Visit)
    (metChildren : Siblings → Encounters tree) :
    List (Handle × SiblingPosition) → Encounters tree
  | [] => never
  | (node, position) :: rest =>
      (one node).bind (checkpoint options) fun found =>
        match found with
        | some _ => never
        | none =>
            after (settle options step earlier deeper node position) fun (kept, below) =>
              if demand.isMetBy kept then never
              else
                (below.elim never metChildren).bind (below.elim (pure .nothing) visitChildren)
                  fun inner =>
                    match inner.stop with
                    | some _ => never
                    | none =>
                        encountersEach options step demand earlier deeper visitChildren
                          metChildren rest

/-- On a visit of siblings at a depth and of what lies below them. -/
def encountersBelow (options : ResolveOptions) (step : Step) (demand : Demand)
    (earlier : List Handle) : Nat → Nat → Siblings → Encounters tree
  | 0, _, _ => never
  | fuel + 1, depth, siblings =>
      encountersEach options step demand earlier (options.allowsBelow depth)
        (visitBelow options step demand earlier fuel (depth + 1))
        (encountersBelow options step demand earlier fuel (depth + 1)) siblings.remaining

/-! ### Contexts -/

/-- On the way through one context, which is the candidate of a self step. -/
def encountersOf (options : ResolveOptions) (step : Step) (demand : Demand) (context : Context)
    (selected : List Handle) : Encounters tree :=
  match step.axis with
  | .self => one context.handle
  | .child =>
      after (enumerate options context.handle) fun found =>
        match found with
        | .error _ => never
        | .ok siblings =>
            encountersEach options step demand [] false (fun _ => pure .nothing) (fun _ => never)
              siblings.remaining
  | .descendant | .any =>
      after (enumerate options context.handle) fun found =>
        match found with
        | .error _ => never
        | .ok siblings =>
            encountersBelow options step demand (if context.nested then selected else [])
              tree.size 1 siblings

/-- On the way through contexts in order. -/
def encountersAll (options : ResolveOptions) (step : Step) (demand : Demand) :
    List Context → List Handle → Encounters tree
  | [], _ => never
  | context :: rest, selected =>
      if demand.isMetBy selected then
        after (release context.handle) fun _ =>
          encountersAll options step demand rest selected
      else
        (encountersOf options step demand context selected).bind
          (expand options step demand context selected) fun found =>
            match found.failure with
            | some _ => never
            | none => encountersAll options step demand rest (selected ++ found.selected)

/-- On the way of one step. -/
def encountersStep (options : ResolveOptions) (step : Step) (demand : Demand)
    (frontier : List Handle) : Encounters tree :=
  after (contextsFor options step frontier) fun contexts =>
    encountersAll options step demand contexts []

/-! ### The states -/

section States

variable {α : Type} {options : ResolveOptions} {step : Step} {demand : Demand}

/-- The candidates are encountered where the flag is looked at. -/
def Encounters.IsAt (met : Encounters tree) (points : Checkpoints tree) : Prop :=
  ∀ walk, (met walk).map Prod.snd = points walk

namespace Encounters.IsAt

theorem never : @IsAt tree never .never :=
  fun _ => rfl

theorem one (node : Handle) : @IsAt tree (one node) .here :=
  fun _ => rfl

theorem bind {met : Encounters tree} {points : Checkpoints tree} {m : WalkM tree α}
    {next : α → Encounters tree} {next' : α → Checkpoints tree} (h : met.IsAt points)
    (hn : ∀ a, (next a).IsAt (next' a)) : (met.bind m next).IsAt (points.bind m next') := by
  intro walk
  rw [Encounters.bind, List.map_append, h, hn]
  rfl

theorem after {m : WalkM tree α} {next : α → Encounters tree} {next' : α → Checkpoints tree}
    (hn : ∀ a, (next a).IsAt (next' a)) :
    (Encounters.after m next).IsAt (Checkpoints.after m next') :=
  fun walk => hn (m walk).1 (m walk).2

end Encounters.IsAt

theorem encountersEach_isAt {earlier : List Handle} {deeper : Bool}
    {visitChildren : Siblings → WalkM tree Visit} {metChildren : Siblings → Encounters tree}
    {pointsChildren : Siblings → Checkpoints tree}
    (hc : ∀ siblings, (metChildren siblings).IsAt (pointsChildren siblings))
    (candidates : List (Handle × SiblingPosition)) :
    (encountersEach options step demand earlier deeper visitChildren metChildren candidates).IsAt
      (checkpointsEach options step demand earlier deeper visitChildren pointsChildren
        candidates) := by
  induction candidates with
  | nil => exact .never
  | cons c rest ih =>
      refine (IsAt.one c.1).bind fun found => ?_
      cases found with
      | some _ => exact .never
      | none =>
          refine IsAt.after fun settled => ?_
          obtain ⟨kept, below⟩ := settled
          dsimp only
          split
          · exact .never
          · refine IsAt.bind ?_ fun inner => ?_
            · cases below with
              | none => exact .never
              | some siblings => exact hc siblings
            · cases inner.stop with
              | some _ => exact .never
              | none => exact ih

theorem encountersBelow_isAt {earlier : List Handle} (fuel depth : Nat) (siblings : Siblings) :
    (encountersBelow options step demand earlier fuel depth siblings : Encounters tree).IsAt
      (checkpointsBelow options step demand earlier fuel depth siblings) := by
  induction fuel generalizing depth siblings with
  | zero => exact .never
  | succ fuel ih => exact encountersEach_isAt (ih (depth + 1)) _

theorem encountersOf_isAt (context : Context) (selected : List Handle) :
    (encountersOf options step demand context selected : Encounters tree).IsAt
      (checkpointsOf options step demand context selected) := by
  unfold encountersOf checkpointsOf
  cases step.axis with
  | self => exact .one _
  | child =>
      refine IsAt.after fun found => ?_
      cases found with
      | error _ => exact .never
      | ok siblings => exact encountersEach_isAt (fun _ => .never) _
  | descendant | any =>
      refine IsAt.after fun found => ?_
      cases found with
      | error _ => exact .never
      | ok siblings => exact encountersBelow_isAt _ _ _

theorem encountersAll_isAt (contexts : List Context) (selected : List Handle) :
    (encountersAll options step demand contexts selected : Encounters tree).IsAt
      (checkpointsAll options step demand contexts selected) := by
  induction contexts generalizing selected with
  | nil => exact .never
  | cons context rest ih =>
      rw [encountersAll, checkpointsAll]
      split
      · exact IsAt.after fun _ => ih selected
      · refine (encountersOf_isAt context selected).bind fun found => ?_
        cases found.failure with
        | some _ => exact .never
        | none => exact ih _

/-- The candidates of a step are encountered where it looks at the cancel flag. -/
theorem map_snd_encountersStep (options : ResolveOptions) (step : Step) (demand : Demand)
    (frontier : List Handle) (walk : Walk tree) :
    (encountersStep options step demand frontier walk).map Prod.snd =
      checkpointsStep options step demand frontier walk :=
  IsAt.after (fun contexts => encountersAll_isAt contexts []) walk

end States

/-! ### What is selected -/

section Selected

variable {α β : Type} {options : ResolveOptions} {step : Step} {demand : Demand}

/-- What a computation comes to stands in some relation to the candidates that it encounters. -/
def Encounters.Accounts (met : Encounters tree) (m : WalkM tree α) (P : α → List Handle → Prop) :
    Prop :=
  ∀ walk, P (m walk).1 ((met walk).map Prod.fst)

namespace Encounters.Accounts

variable {met : Encounters tree} {m : WalkM tree α} {N : α → List Handle → Prop}
variable {f : α → WalkM tree β} {next : α → Encounters tree} {P : β → List Handle → Prop}

theorem never (h : Returns m fun a => N a []) : Accounts never m N :=
  h

theorem one {node : Handle} (h : Returns m fun a => N a [node]) : Accounts (one node) m N :=
  h

theorem bind (hm : met.Accounts m N) (hf : ∀ a handles, N a handles →
    (next a).Accounts (f a) fun b others => P b (handles ++ others)) :
    (met.bind m next).Accounts (m >>= f) P := by
  intro walk
  have h := hf _ _ (hm walk) (m walk).2
  simp only [← List.map_append] at h
  exact h

theorem after {M : α → Prop} (hm : Returns m M) (hf : ∀ a, M a → (next a).Accounts (f a) P) :
    (Encounters.after m next).Accounts (m >>= f) P :=
  fun walk => hf _ (hm walk) (m walk).2

/-- What follows need not encounter anything. -/
theorem followed (hm : met.Accounts m N)
    (hf : ∀ a handles, N a handles → Returns (f a) fun b => P b handles) :
    met.Accounts (m >>= f) P :=
  fun walk => hf _ _ (hm walk) (m walk).2

theorem weaken {N' : α → List Handle → Prop} (hm : met.Accounts m N)
    (h : ∀ a handles, N a handles → N' a handles) : met.Accounts m N' :=
  fun walk => h _ _ (hm walk)

end Encounters.Accounts

theorem encountersEach_accounts {earlier : List Handle} {deeper : Bool}
    {visitChildren : Siblings → WalkM tree Visit} {metChildren : Siblings → Encounters tree}
    (hc : ∀ siblings, (metChildren siblings).Accounts (visitChildren siblings)
      fun visit handles => visit.selected.Sublist handles)
    (candidates : List (Handle × SiblingPosition)) :
    (encountersEach options step demand earlier deeper visitChildren metChildren
      candidates).Accounts
        (visitEach options step demand earlier deeper visitChildren candidates)
        fun visit handles => visit.selected.Sublist handles := by
  induction candidates with
  | nil => exact .never (.pure (List.Sublist.refl []))
  | cons c rest ih =>
      obtain ⟨node, position⟩ := c
      refine Accounts.bind (N := fun _ handles => handles = [node]) (.one fun _ => rfl)
        fun found _ hhandles => ?_
      subst hhandles
      cases found with
      | some cause => exact .never (.after fun _ => .pure (List.nil_sublist _))
      | none =>
          refine .after (returns_settle options step earlier deeper node position)
            fun settled hsettled => ?_
          obtain ⟨kept, below⟩ := settled
          have hkept : kept.Sublist [node] := by
            rcases hsettled.1 with rfl | rfl
            · exact List.nil_sublist _
            · exact List.Sublist.refl _
          dsimp only
          split
          · exact .never (.after fun _ => .pure hkept)
          · refine Accounts.bind (N := fun visit handles => visit.selected.Sublist handles) ?_
              fun inner handles hinner => ?_
            · cases below with
              | none => exact .never (.pure (List.Sublist.refl []))
              | some siblings => exact hc siblings
            · cases inner.stop with
              | some stop =>
                  refine .never (.pure (hkept.append ?_))
                  rw [List.append_nil]
                  exact hinner
              | none =>
                  refine ih.followed fun outer others houter => .pure ?_
                  exact (List.append_assoc kept _ _).symm ▸ hkept.append (hinner.append houter)

theorem encountersBelow_accounts {earlier : List Handle} (fuel depth : Nat) (siblings : Siblings) :
    (encountersBelow options step demand earlier fuel depth siblings : Encounters tree).Accounts
      (visitBelow options step demand earlier fuel depth siblings)
      fun visit handles => visit.selected.Sublist handles := by
  induction fuel generalizing depth siblings with
  | zero => exact .never (.after fun _ => .pure (List.Sublist.refl []))
  | succ fuel ih => exact encountersEach_accounts (ih (depth + 1)) _

theorem encountersOf_accounts (context : Context) (selected : List Handle) :
    (encountersOf options step demand context selected : Encounters tree).Accounts
      (expand options step demand context selected)
      fun found handles => found.selected.Sublist handles := by
  have hunreachable (e : BridgeError) : Accounts never
      (unreachable context.handle e : WalkM tree Expansion)
      fun found handles => found.selected.Sublist handles :=
    .never ((returns_unreachable context.handle e).weaken fun found h => h ▸ List.nil_sublist _)
  unfold encountersOf expand
  cases step.axis with
  | self => exact .one (returns_filterSelf options step context.handle)
  | child =>
      refine .after .anything fun found _ => ?_
      cases found with
      | error e => exact hunreachable e
      | ok siblings =>
          refine (encountersEach_accounts (fun _ => .never (.pure (List.Sublist.refl [])))
            siblings.remaining).followed fun visit handles hvisit => ?_
          split
          · exact .after fun _ => .after fun _ => .pure hvisit
          · exact .after fun _ => .after fun _ => .pure hvisit
  | descendant | any =>
      refine .after .anything fun found _ => ?_
      cases found with
      | error e => exact hunreachable e
      | ok siblings =>
          refine (encountersBelow_accounts tree.size 1 siblings).followed
            fun visit handles hvisit => .after fun _ => .after fun _ => ?_
          split
          · exact .pure hvisit
          · exact .pure hvisit

theorem encountersAll_accounts (contexts : List Context) (selected : List Handle) :
    (encountersAll options step demand contexts selected : Encounters tree).Accounts
      (expandAll options step demand contexts selected)
      fun found handles => found.selected.Sublist (selected ++ handles) := by
  induction contexts generalizing selected with
  | nil => exact .never (.pure (List.sublist_append_left _ _))
  | cons context rest ih =>
      rw [encountersAll, expandAll]
      split
      · exact .after .anything fun _ _ => ih selected
      · refine (encountersOf_accounts context selected).bind fun found handles hfound => ?_
        cases found.failure with
        | some error =>
            exact .never (.after fun _ => .after fun _ => .pure (List.nil_sublist _))
        | none =>
            refine (ih (selected ++ found.selected)).weaken fun all others hall => ?_
            rw [List.append_assoc] at hall
            exact hall.trans ((hfound.append_right others).append_left selected)

/-- What a step selects, it has encountered. -/
theorem selected_sublist_encountersStep (options : ResolveOptions) (step : Step) (demand : Demand)
    (frontier : List Handle) (walk : Walk tree) :
    (applyStep options step demand frontier walk).1.selected.Sublist
      ((encountersStep options step demand frontier walk).map Prod.fst) :=
  Accounts.after (P := fun (found : Expansion) handles => found.selected.Sublist handles) .anything
    (fun contexts _ => encountersAll_accounts contexts []) walk

end Selected

end Walk

end AccessQuery
