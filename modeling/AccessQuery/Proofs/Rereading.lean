/-
**What the text of a query keeps of its meaning.**

The text of a query that has been read from a text is read again as a query that says the same.
Only the grouping of its conjunctions may change, and a conjunction holds if its conjuncts do; so
the text is canonical, and it is also the text of what is read from it.

Queries that have been assembled in another way may say what no text says.  The text of a step shows
the conjuncts of its predicate, and of each conjunct the alternatives that are left when its
grouping is forgotten.  Whoever satisfies the predicate satisfies what the text says, but an
alternative below a conjunction below an alternative becomes an alternative of the whole.  The text
of a self step does not show a role.

Main definitions:

* `AccessQuery.Step.accepts` — what a step says of a candidate;
* `AccessQuery.Step.Restates` — steps that differ in how conjunctions are grouped;
* `AccessQuery.Predicate.isFlat`, `AccessQuery.Step.isFlat` — predicates and steps whose text says
  all of what they say.

Main results:

* `AccessQuery.Predicate.holds_regroup` — what the text of a predicate says;
* `AccessQuery.Query.parse_display_restates` — what has been read from a text is read again as a
  query that says the same;
* `AccessQuery.Query.parse_display_accepts` — what is read from the text of any query that can be
  spelled.
-/

import Mathlib.Data.List.Forall2
import AccessQuery.Predicate.Evaluation
import AccessQuery.Proofs.RoundTrip

set_option relaxedAutoImplicit false
set_option autoImplicit false

namespace AccessQuery

variable {snapshot : Snapshot} {place count : Nat}

/-! ### Conjunctions -/

namespace Predicate

/-- A predicate holds if its conjuncts do. -/
theorem holds_conjuncts (p : Predicate) :
    (p.conjuncts.all fun c => c.holds snapshot place count) = p.holds snapshot place count := by
  induction p with
  | and l r ihl ihr => rw [conjuncts, List.all_append, ihl, ihr, holds]
  | _ => simp [conjuncts]

/-- What is joined from predicates holds if all of them do. -/
theorem holds_conjoin (ps : List Predicate) :
    ((conjoin ps).all fun p => p.holds snapshot place count) =
      ps.all fun p => p.holds snapshot place count := by
  induction ps using List.reverseRecOn with
  | nil => rfl
  | append_singleton ps p ih =>
      rw [conjoin_concat, List.all_append, ← ih]
      cases conjoin ps <;> simp [both?, holds]

theorem display_brackets_congr {p q : Predicate} (h : p.conjuncts = q.conjuncts) :
    p.brackets = q.brackets := by
  rw [brackets, brackets, h]

end Predicate

/-! ### Queries that have been read -/

/-- One step says what another one says, in the same words, except that conjunctions may be grouped
in another way. -/
structure Step.Restates (again step : Step) : Prop where
  axis_eq : again.axis = step.axis
  roleTest_eq : again.roleTest = step.roleTest
  conjuncts_eq : again.predicate.map Predicate.conjuncts = step.predicate.map Predicate.conjuncts
  holds_eq : ∀ (snapshot : Snapshot) (place count : Nat),
    again.predicate.map (Predicate.holds snapshot place count) =
      step.predicate.map (Predicate.holds snapshot place count)

theorem Step.restates_leaned (step : Step) : step.leaned.Restates step := by
  obtain ⟨axis, roleTest, predicate⟩ := step
  cases predicate with
  | none => exact ⟨rfl, rfl, rfl, fun _ _ _ => rfl⟩
  | some p =>
      obtain ⟨q, hq, _, hc⟩ := Predicate.conjoin_spec (Predicate.conjuncts_ne_nil p)
        fun c hc => Predicate.conjuncts_of_mem_conjuncts hc
      have hleaned : leaned ⟨axis, roleTest, some p⟩ = ⟨axis, roleTest, some q⟩ := by
        rw [leaned, Option.bind_some, hq]
      rw [hleaned]
      refine ⟨rfl, rfl, congrArg some hc, fun snapshot place count => congrArg some ?_⟩
      rw [← Predicate.holds_conjuncts, hc, Predicate.holds_conjuncts]

/-- What is said in the same words has the same text. -/
theorem Step.Restates.display_eq {again step : Step} (h : again.Restates step) :
    again.display = step.display := by
  have hpath : again.path = step.path := by
    rw [path, path, h.axis_eq, h.roleTest_eq]
  have hconjuncts := h.conjuncts_eq
  rw [display, display, hpath]
  cases hq : again.predicate with
  | none =>
      rw [hq, Option.map_none, eq_comm, Option.map_eq_none_iff] at hconjuncts
      rw [hconjuncts]
  | some q =>
      rw [hq, Option.map_some, eq_comm, Option.map_eq_some_iff] at hconjuncts
      obtain ⟨p, hp, hc⟩ := hconjuncts
      rw [hp]
      exact congrArg (step.path ++ ·) (Predicate.display_brackets_congr hc.symm)

namespace Query

/-- The text of a query that has been read from a text is read again, as a query that says the same
in the same words and has the same text. -/
theorem parse_display_restates {text : String} {query : Query} (h : parse text = .ok query) :
    ∃ again, parse query.display = .ok again ∧
      List.Forall₂ Step.Restates again.steps query.steps ∧ again.display = query.display := by
  have hread := isRead_of_parse h
  have hparse := parse_display (List.all_eq_true.2 fun step hs => (hread step hs).spellable)
  have hrestates : ∀ step ∈ query.steps, step.reread.Restates step := fun step hs =>
    (hread step hs).reread_eq ▸ step.restates_leaned
  refine ⟨query.reread, hparse, ?_, ?_⟩
  · rw [reread, List.forall₂_map_left_iff, List.forall₂_same]
    exact hrestates
  · rw [display, display, reread, List.map_map]
    exact congrArg String.join
      (List.map_congr_left fun step hs => (hrestates step hs).display_eq)

/-- A path with a self step, a blank group, a group that is grouped to the right, and texts with
brackets, slashes and quotes in them. -/
theorem parse_display_restates_groups :
    let text := "/.[ ]//text[@x=+007 or @y != '[/]'][1][2 and contains(text(), \"it's\")]"
    let query : Query := ⟨[⟨.self, .wildcard, none⟩, ⟨.descendant, .role "text",
      some (.and (.and (.or (.comparison (.named "x") .eq (.int 7))
        (.comparison (.named "y") .notEq (.text "[/]"))) (.position 1))
        (.and (.position 2) (.function .contains .text "it's")))⟩], by decide⟩
    parse text = .ok query ∧ ∃ again, parse query.display = .ok again ∧
      List.Forall₂ Step.Restates again.steps query.steps ∧ again.display = query.display := by
  intro text query
  have h : parse text = .ok query := by decide +kernel
  exact ⟨h, parse_display_restates h⟩

end Query

/-! ### What the text of a predicate says -/

namespace Predicate

theorem holds_joined_and (chain : Chain Predicate) :
    (chain.joined .and).holds snapshot place count =
      chain.toList.all fun t => t.holds snapshot place count := by
  obtain ⟨first, others⟩ := chain
  rw [Chain.joined]
  induction others using List.reverseRecOn with
  | nil => simp [Chain.toList]
  | append_singleton others t ih =>
      rw [List.foldl_append, List.foldl_cons, List.foldl_nil, holds, ih]
      simp [Chain.toList, Bool.and_assoc]

theorem holds_joined_or (chain : Chain Predicate) :
    (chain.joined .or).holds snapshot place count =
      chain.toList.any fun t => t.holds snapshot place count := by
  obtain ⟨first, others⟩ := chain
  rw [Chain.joined]
  induction others using List.reverseRecOn with
  | nil => simp [Chain.toList]
  | append_singleton others t ih =>
      rw [List.foldl_append, List.foldl_cons, List.foldl_nil, holds, ih]
      simp [Chain.toList, Bool.or_assoc]

/-- The text of a predicate says that all tests of one of its alternatives hold. -/
theorem holds_regroup (p : Predicate) : p.regroup.holds snapshot place count =
    p.alternatives.toList.any fun chain =>
      chain.toList.all fun t => t.holds snapshot place count := by
  have hitems : (p.alternatives.map (Chain.joined .and)).toList =
      p.alternatives.toList.map (Chain.joined .and) := rfl
  rw [regroup, join, holds_joined_or, hitems, List.any_map]
  exact congrArg p.alternatives.toList.any (funext fun chain => holds_joined_and chain)

/-- Where one alternative holds on each side of a conjunction, one does in the text of the
conjunction. -/
theorem exists_mem_fuse {α : Type} {P : α → Prop} {a b : Chain (Chain α)}
    (ha : ∃ c ∈ a.toList, ∀ x ∈ c.toList, P x) (hb : ∃ c ∈ b.toList, ∀ x ∈ c.toList, P x) :
    ∃ c ∈ (a.fuse b).toList, ∀ x ∈ c.toList, P x := by
  obtain ⟨first, others⟩ := a
  rw [Chain.fuse]
  dsimp only
  induction others generalizing first with
  | nil =>
      -- the last alternative on the left has become one with the first on the right
      obtain ⟨c, hc, hcP⟩ := ha
      obtain rfl := List.mem_singleton.1 hc
      obtain ⟨d, hd, hdP⟩ := hb
      rcases List.mem_cons.1 hd with rfl | hd
      · refine ⟨c.append b.first, List.mem_cons_self, fun x hx => ?_⟩
        rw [Chain.toList_append, List.mem_append] at hx
        exact hx.elim (hcP x) (hdP x)
      · exact ⟨d, List.mem_cons_of_mem _ hd, hdP⟩
  | cons next others ih =>
      obtain ⟨c, hc, hcP⟩ := ha
      rcases List.mem_cons.1 hc with rfl | hc
      · exact ⟨c, List.mem_cons_self, hcP⟩
      · obtain ⟨d, hd, hdP⟩ := ih next ⟨c, hc, hcP⟩
        exact ⟨d, List.mem_cons_of_mem _ hd, hdP⟩

/-- Where a predicate holds, so does what its text says. -/
theorem holds_regroup_of_holds {p : Predicate} (h : p.holds snapshot place count = true) :
    p.regroup.holds snapshot place count = true := by
  simp only [holds_regroup, List.any_eq_true, List.all_eq_true]
  induction p with
  | and l r ihl ihr =>
      obtain ⟨hl, hr⟩ := Bool.and_eq_true_iff.1 h
      exact exists_mem_fuse (ihl hl) (ihr hr)
  | or l r ihl ihr =>
      have hside : ∃ c ∈ l.alternatives.toList ++ r.alternatives.toList,
          ∀ t ∈ c.toList, t.holds snapshot place count = true := by
        rcases Bool.or_eq_true_iff.1 h with hl | hr
        · obtain ⟨c, hc, hct⟩ := ihl hl
          exact ⟨c, List.mem_append_left _ hc, hct⟩
        · obtain ⟨c, hc, hct⟩ := ihr hr
          exact ⟨c, List.mem_append_right _ hc, hct⟩
      rwa [alternatives, Chain.toList_append]
  | _ => exact ⟨_, List.mem_cons_self, fun t ht => List.mem_singleton.1 ht ▸ h⟩

/-- Whether a predicate has no alternatives in it. -/
def isChain : Predicate → Bool
  | .or _ _ => false
  | .and l r => l.isChain && r.isChain
  | _ => true

/-- Whether no alternatives stand below a conjunction in a predicate. -/
def isFlat : Predicate → Bool
  | .or l r => l.isFlat && r.isFlat
  | .and l r => l.isChain && r.isChain
  | _ => true

theorem alternatives_of_isChain {p : Predicate} (h : p.isChain = true) :
    ∃ chain : Chain Predicate, p.alternatives = ⟨chain, []⟩ ∧
      ∀ (snapshot : Snapshot) (place count : Nat),
        (chain.toList.all fun t => t.holds snapshot place count) =
          p.holds snapshot place count := by
  induction p with
  | or l r => cases h
  | and l r ihl ihr =>
      obtain ⟨hl, hr⟩ := Bool.and_eq_true_iff.1 h
      obtain ⟨c, hc, hcall⟩ := ihl hl
      obtain ⟨d, hd, hdall⟩ := ihr hr
      refine ⟨c.append d, by rw [alternatives, hc, hd]; rfl, fun snapshot place count => ?_⟩
      rw [Chain.toList_append, List.all_append, hcall, hdall, holds]
  | _ => exact ⟨⟨_, []⟩, rfl, fun _ _ _ => by simp [Chain.toList]⟩

/-- The text of a flat predicate says what the predicate says. -/
theorem holds_regroup_of_isFlat {p : Predicate} (h : p.isFlat = true) :
    p.regroup.holds snapshot place count = p.holds snapshot place count := by
  rw [holds_regroup]
  induction p with
  | or l r ihl ihr =>
      obtain ⟨hl, hr⟩ := Bool.and_eq_true_iff.1 h
      rw [alternatives, Chain.toList_append, List.any_append, ihl hl, ihr hr, holds]
  | and l r =>
      obtain ⟨chain, hc, hall⟩ := alternatives_of_isChain (p := .and l r) h
      rw [hc, ← hall]
      exact Bool.or_false _
  | _ => simp [alternatives, Chain.toList]

end Predicate

/-! ### What the text of a step says -/

namespace Step

/-- Whether a step selects a candidate with a snapshot, at a one-based place among some number of
siblings. -/
def accepts (step : Step) (snapshot : Snapshot) (place count : Nat) : Bool :=
  step.effectiveRoleTest.accepts snapshot.role? &&
    step.predicate.all fun p => p.holds snapshot place count

/-- Whether the text of a step says all of what the step says: a self step asks for no role, and in
no conjunct of the predicate do alternatives stand below a conjunction. -/
def isFlat (step : Step) : Bool :=
  !(step.axis == .self && step.roleTest != .wildcard) &&
    step.predicate.all fun p => p.conjuncts.all Predicate.isFlat

/-- A step goes to all nodes below. -/
def isAnyBelow (step : Step) : Prop :=
  step.axis = .any ∨ step.axis = .descendant ∧ step.roleTest = .wildcard

/-- Two steps have one axis; the two ways to write the step to all nodes below count as one. -/
def SameAxis (again step : Step) : Prop :=
  again.axis = step.axis ∨ again.isAnyBelow ∧ step.isAnyBelow

theorem sameAxis_reread (step : Step) : step.reread.SameAxis step := by
  have haxis : step.reread.axis = step.shownAxis := rfl
  have htest : step.reread.roleTest = step.shownTest := rfl
  unfold SameAxis isAnyBelow
  rw [haxis, htest, shownAxis, shownTest]
  cases ha : step.axis with
  | self | child => exact Or.inl rfl
  | descendant =>
      dsimp only
      split_ifs with hall
      · exact Or.inr ⟨Or.inl rfl, Or.inr ⟨rfl, hall.1⟩⟩
      · exact Or.inl rfl
  | any =>
      refine Or.inr ⟨?_, Or.inl rfl⟩
      dsimp only
      split_ifs
      · exact Or.inl rfl
      · exact Or.inr ⟨rfl, rfl⟩

/-- The role that the text of a step asks for is the one that the step asks for, except on a self
step. -/
theorem effectiveRoleTest_reread (step : Step) : step.reread.effectiveRoleTest =
    if step.axis = .self then .wildcard else step.effectiveRoleTest := by
  have haxis : step.reread.axis = step.shownAxis := rfl
  have htest : step.reread.roleTest = step.shownTest := rfl
  unfold effectiveRoleTest
  rw [haxis, htest, shownAxis, shownTest]
  cases ha : step.axis with
  | self | child => rfl
  | descendant =>
      dsimp only
      split_ifs with hall <;> simp_all
  | any =>
      dsimp only
      split_ifs <;> simp_all

/-- What is read from the text of a step holds where the text of every conjunct does. -/
theorem holds_reread (step : Step) :
    (step.reread.predicate.all fun p => p.holds snapshot place count) =
      step.predicate.all fun p => p.conjuncts.all fun c =>
        c.regroup.holds snapshot place count := by
  unfold reread
  cases step.predicate with
  | none => rfl
  | some p =>
      dsimp only [Option.bind_some, Option.all_some]
      rw [Predicate.holds_conjoin, List.all_map]
      rfl

/-- What a step accepts, its text accepts. -/
theorem accepts_reread_of_accepts {step : Step} (h : step.accepts snapshot place count = true) :
    step.reread.accepts snapshot place count = true := by
  obtain ⟨hrole, hpredicate⟩ := Bool.and_eq_true_iff.1 h
  rw [accepts, holds_reread, effectiveRoleTest_reread, Bool.and_eq_true]
  constructor
  · split
    · rfl
    · exact hrole
  · cases hp : step.predicate with
    | none => rfl
    | some p =>
        rw [hp, Option.all_some, ← Predicate.holds_conjuncts, List.all_eq_true] at hpredicate
        rw [Option.all_some, List.all_eq_true]
        exact fun c hc => Predicate.holds_regroup_of_holds (hpredicate c hc)

/-- A flat step accepts nothing else. -/
theorem accepts_reread_of_isFlat {step : Step} (h : step.isFlat = true) (snapshot : Snapshot)
    (place count : Nat) :
    step.reread.accepts snapshot place count = step.accepts snapshot place count := by
  obtain ⟨hself, hflat⟩ := Bool.and_eq_true_iff.1 h
  have htest : step.reread.effectiveRoleTest = step.effectiveRoleTest := by
    rw [effectiveRoleTest_reread]
    split
    · next ha => simp_all [effectiveRoleTest]
    · rfl
  rw [accepts, accepts, htest, holds_reread]
  congr 1
  cases hp : step.predicate with
  | none => rfl
  | some p =>
      rw [hp, Option.all_some, List.all_eq_true] at hflat
      rw [Option.all_some, Option.all_some, ← Predicate.holds_conjuncts, Bool.eq_iff_iff,
        List.all_eq_true, List.all_eq_true]
      exact forall₂_congr fun c hc => by rw [Predicate.holds_regroup_of_isFlat (hflat c hc)]

end Step

namespace Query

/-- The text of a query that can be spelled is read, as a query with the same axes whose steps
accept what those of the query accept; a flat step accepts nothing else afterwards. -/
theorem parse_display_accepts {query : Query} (h : query.isSpellable = true) :
    ∃ again, parse query.display = .ok again ∧
      List.Forall₂ (fun again step => again.SameAxis step ∧
        ∀ (snapshot : Snapshot) (place count : Nat),
          (step.accepts snapshot place count = true →
            again.accepts snapshot place count = true) ∧
          (step.isFlat = true →
            again.accepts snapshot place count = step.accepts snapshot place count))
        again.steps query.steps := by
  refine ⟨query.reread, parse_display h, ?_⟩
  rw [reread, List.forall₂_map_left_iff, List.forall₂_same]
  exact fun step _ => ⟨step.sameAxis_reread, fun snapshot place count =>
    ⟨Step.accepts_reread_of_accepts, fun hflat =>
      Step.accepts_reread_of_isFlat hflat snapshot place count⟩⟩

/-- A self step, and a step whose predicate has alternatives below a conjunction and below one of
its conjuncts only. -/
theorem parse_display_accepts_steps :
    let query : Query := ⟨[⟨.self, .wildcard, some (.position 1)⟩, ⟨.any, .role "panel",
      some (.and (.or (.and (.position 2) .last) (.position 4)) (.or .last
        (.comparison (.named "name") .eq (.text "it's"))))⟩], by decide⟩
    query.isSpellable = true ∧ ∃ again, parse query.display = .ok again ∧
      List.Forall₂ (fun again step => again.SameAxis step ∧
        ∀ (snapshot : Snapshot) (place count : Nat),
          (step.accepts snapshot place count = true →
            again.accepts snapshot place count = true) ∧
          (step.isFlat = true →
            again.accepts snapshot place count = step.accepts snapshot place count))
        again.steps query.steps := by
  intro query
  have h : query.isSpellable = true := by decide +kernel
  exact ⟨h, parse_display_accepts h⟩

/-- The text of a self step does not show its role, and alternatives below a conjunction below
another alternative do not stay together: both steps accept more afterwards. -/
theorem parse_display_widens :
    let self : Step := ⟨.self, .role "panel", none⟩
    let below : Step := ⟨.descendant, .wildcard,
      some (.or (.and (.or (.position 1) (.position 2)) .last) (.position 4))⟩
    let query : Query := ⟨[self, below], by decide⟩
    query.isSpellable = true ∧ query.display = "/.//*[1 or 2 and last() or 4]" ∧
      ∃ self' below' : Step, parse query.display = .ok ⟨[self', below'], by simp⟩ ∧
        (self.accepts ∅ 1 3 = false ∧ self'.accepts ∅ 1 3 = true) ∧
        below.accepts ∅ 1 3 = false ∧ below'.accepts ∅ 1 3 = true := by
  intro self below query
  refine ⟨by decide +kernel, by decide +kernel, ⟨.self, .wildcard, none⟩, ⟨.descendant, .wildcard,
    some (.or (.or (.position 1) (.and (.position 2) .last)) (.position 4))⟩, ?_, ?_, ?_⟩
  all_goals decide +kernel

end Query

end AccessQuery
