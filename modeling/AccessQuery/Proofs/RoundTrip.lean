/-
**Queries are read back.**

The text of a query that can be spelled is read again, as a query with as many steps.  What a step
does not show is lost: the role test of a self step, and how tests are grouped.  A query that has
been read from a text shows everything but the grouping of its conjunctions.  Each conjunct is
printed between brackets of its own, and groups are joined from the left, so a query is read back as
it is if its conjunctions lean to the left; otherwise they do afterwards.

Main definitions:

* `AccessQuery.Step.isSpellable` — steps that can be spelled;
* `AccessQuery.Step.reread` — the step that is read from the text of a step;
* `AccessQuery.Step.leaned` — a step with its conjunctions joined from the left.

Main results:

* `AccessQuery.Query.parse_display` — a query that can be spelled is read again;
* `AccessQuery.Query.parse_display_iff` — which queries are read back as they are.
-/

import AccessQuery.Proofs.Grammar.Predicates
import AccessQuery.Proofs.Segmentation
import AccessQuery.Query.Printer
import AccessQuery.Query.Reader

set_option relaxedAutoImplicit false
set_option autoImplicit false

namespace AccessQuery

/-! ### Lists of outcomes -/

theorem mapM_eq_ok {ε α β : Type} {f : α → Except ε β} {g : α → β} {l : List α}
    (h : ∀ a ∈ l, f a = .ok (g a)) : l.mapM f = .ok (l.map g) := by
  induction l with
  | nil => rfl
  | cons a l ih =>
      rw [List.mapM_cons, h a List.mem_cons_self, ih fun b hb => h b (List.mem_cons_of_mem a hb)]
      rfl

theorem exists_of_mapM_eq_ok {ε α β : Type} {f : α → Except ε β} {l : List α} {bs : List β}
    (h : l.mapM f = .ok bs) : ∀ b ∈ bs, ∃ a ∈ l, f a = .ok b := by
  induction l generalizing bs with
  | nil =>
      cases h
      simp
  | cons a l ih =>
      rw [List.mapM_cons] at h
      obtain ⟨b, hb, h⟩ := bind_eq_ok.1 h
      obtain ⟨rest, hrest, h⟩ := bind_eq_ok.1 h
      cases h
      intro c hc
      rcases List.mem_cons.1 hc with rfl | hc
      · exact ⟨a, List.mem_cons_self, hb⟩
      · obtain ⟨d, hd, hc⟩ := ih hrest c hc
        exact ⟨d, List.mem_cons_of_mem a hd, hc⟩

/-! ### What a step shows -/

/-- A role test can be spelled. -/
def RoleTest.isSpellable : RoleTest → Bool
  | .wildcard => true
  | .role name => Locator.isSpellableRole name

namespace RoleTest

theorem ofText_display {test : RoleTest} (h : test.isSpellable = true) :
    ofText test.display = test := by
  cases test with
  | wildcard => rfl
  | role name =>
      have hstar : name ≠ "*" := by
        rintro rfl
        exact absurd h (by decide)
      have hdot : name ≠ "." := by
        rintro rfl
        exact absurd h (by decide)
      rw [display, ofText, if_neg (by simp [hstar, hdot])]

theorem display_eq_star_iff {test : RoleTest} (h : test.isSpellable = true) :
    test.display = "*" ↔ test = .wildcard := by
  constructor
  · intro hstar
    rw [← ofText_display h, hstar]
    rfl
  · rintro rfl
    rfl

theorem display_ne_dot {test : RoleTest} (h : test.isSpellable = true) : test.display ≠ "." := by
  intro hdot
  have hself := ofText_display h
  rw [hdot] at hself
  rw [← hself] at hdot
  exact absurd hdot (by decide)

theorem isPathRole_display {test : RoleTest} (h : test.isSpellable = true) :
    IsPathRole test.display := by
  cases test with
  | wildcard => exact Or.inl rfl
  | role name => exact Or.inr (Or.inr h)

end RoleTest

namespace Step

/-- A step can be spelled. -/
def isSpellable (step : Step) : Bool :=
  step.roleTest.isSpellable && step.predicate.all Predicate.isSpellable

/-- The role test that the text of a step shows. -/
def shownTest (step : Step) : RoleTest :=
  match step.axis with
  | .self | .any => .wildcard
  | .child | .descendant => step.roleTest

/-- The axis that the text of a step shows. -/
def shownAxis (step : Step) : Axis :=
  match step.axis with
  | .self => .self
  | .child => .child
  | .descendant | .any =>
      if step.shownTest = .wildcard ∧ step.predicate = none then .any else .descendant

/-- The step that is read from the text of a step. -/
def reread (step : Step) : Step :=
  ⟨step.shownAxis, step.shownTest,
    step.predicate.bind fun p => Predicate.conjoin (p.conjuncts.map Predicate.regroup)⟩

/-- The parts of the text of a step. -/
def raw (step : Step) : RawStep :=
  ⟨step.shownAxis, if step.axis = .self then "." else step.shownTest.display,
    (step.predicate.map fun p => p.conjuncts.map Predicate.display).getD []⟩

theorem toList_brackets (p : Predicate) :
    p.brackets.toList =
      Segment.bracketed ((p.conjuncts.map Predicate.display).map String.toList) := by
  simp [Predicate.brackets, Segment.bracketed, List.flatMap_map]

theorem slashes_raw (step : Step) : step.raw.slashes =
    match step.axis with
    | .self | .child => 1
    | .descendant | .any => 2 := by
  unfold raw RawStep.slashes shownAxis
  cases step.axis with
  | self | child => rfl
  | descendant | any =>
      dsimp only
      split_ifs <;> rfl

theorem toList_path (step : Step) : step.path.toList =
    List.replicate step.raw.slashes '/' ++ step.raw.role.toList := by
  rw [slashes_raw]
  unfold path raw shownTest
  cases step.axis with
  | self => simp
  | child => simp
  | descendant => simp [List.replicate]
  | any => simp [List.replicate, RoleTest.display]

theorem toList_display (step : Step) : step.display.toList = step.raw.spelled := by
  unfold display
  cases hp : step.predicate with
  | none =>
      have hnone : step.raw.predicates = [] := by simp [raw, hp]
      simp [toList_path, RawStep.spelled, RawStep.body, hnone, Segment.bracketed]
  | some p =>
      have hsome : step.raw.predicates = p.conjuncts.map Predicate.display := by simp [raw, hp]
      simp [toList_path, RawStep.spelled, RawStep.body, hsome, toList_brackets]

/-! ### Reading what a step shows -/

variable {step : Step}

theorem isSpellable_shownTest (h : step.isSpellable = true) :
    step.shownTest.isSpellable = true := by
  have htest := (Bool.and_eq_true_iff.1 h).1
  unfold shownTest
  split <;> first | rfl | exact htest

theorem predicates_raw_eq_nil_iff : step.raw.predicates = [] ↔ step.predicate = none := by
  unfold raw
  cases step.predicate with
  | none => simp
  | some p => simp [Predicate.conjuncts_ne_nil]

theorem shownTest_of_self (h : step.axis = .self) : step.shownTest = .wildcard := by
  rw [shownTest, h]

theorem role_raw_of_ne_self (h : step.axis ≠ .self) : step.raw.role = step.shownTest.display := by
  rw [raw, if_neg h]

/-- The role in the text of a step is the one that the step shows. -/
theorem ofText_role (h : step.isSpellable = true) :
    RoleTest.ofText step.raw.role = step.shownTest := by
  by_cases ha : step.axis = .self
  · rw [raw, if_pos ha, shownTest_of_self ha]
    rfl
  · rw [role_raw_of_ne_self ha]
    exact RoleTest.ofText_display (isSpellable_shownTest h)

theorem balanced_predicates (h : step.isSpellable = true) :
    ∀ group ∈ step.raw.predicates, Segment.Balanced group.toList := by
  intro group hg
  have hpredicate := (Bool.and_eq_true_iff.1 h).2
  cases hp : step.predicate with
  | none =>
      rw [predicates_raw_eq_nil_iff.2 hp] at hg
      cases hg
  | some p =>
      simp only [raw, hp, Option.map_some, Option.getD_some] at hg
      rw [hp, Option.all_some] at hpredicate
      obtain ⟨c, hc, rfl⟩ := List.mem_map.1 hg
      exact Predicate.balanced_display (Predicate.isSpellable_of_mem_conjuncts hpredicate hc)

/-- The text of a step shows its axis. -/
theorem axisOf_raw (h : step.isSpellable = true) :
    Segment.axisOf step.raw.slashes step.raw.role (!step.raw.predicates.isEmpty) =
      .ok step.raw.axis := by
  have hshown := isSpellable_shownTest h
  have hunfiltered : (!!step.raw.predicates.isEmpty) = true ↔ step.predicate = none := by
    rw [Bool.not_not, List.isEmpty_iff, predicates_raw_eq_nil_iff]
  have haxis : step.raw.axis = step.shownAxis := rfl
  rw [slashes_raw, haxis, Segment.axisOf]
  unfold shownAxis
  cases ha : step.axis with
  | self =>
      rw [raw, if_pos ha]
      rfl
  | child =>
      rw [role_raw_of_ne_self (by simp [ha]), if_neg (RoleTest.display_ne_dot hshown)]
      rfl
  | descendant | any =>
      rw [role_raw_of_ne_self (by simp [ha]), if_neg (RoleTest.display_ne_dot hshown)]
      simp only [if_true, RoleTest.display_eq_star_iff hshown, hunfiltered]

theorem isSpelling_raw (h : step.isSpellable = true) : step.raw.IsSpelling where
  role := by
    by_cases ha : step.axis = .self
    · exact Or.inr (Or.inl (by rw [raw, if_pos ha]))
    · rw [role_raw_of_ne_self ha]
      exact RoleTest.isPathRole_display (isSpellable_shownTest h)
  self_iff := (RawStep.axisOf_slashes_iff.1 (axisOf_raw h)).1
  any_iff := (RawStep.axisOf_slashes_iff.1 (axisOf_raw h)).2
  balanced := balanced_predicates h

theorem joinGroups_display {conjuncts : List Predicate}
    (h : ∀ c ∈ conjuncts, c.isSpellable = true) (before : Option Predicate) :
    Predicate.joinGroups before (conjuncts.map Predicate.display) =
      .ok ((conjuncts.map Predicate.regroup).foldl
        (fun before p => Predicate.both? before (some p)) before) := by
  induction conjuncts generalizing before with
  | nil => rfl
  | cons c conjuncts ih =>
      rw [List.map_cons, Predicate.joinGroups, Predicate.read?_display (h c List.mem_cons_self)]
      exact ih (fun d hd => h d (List.mem_cons_of_mem c hd)) _

theorem reread_predicate_eq_none_iff : step.reread.predicate = none ↔ step.predicate = none := by
  unfold reread
  cases step.predicate with
  | none => simp
  | some p => simp [Predicate.conjoin_ne_none, Predicate.conjuncts_ne_nil]

theorem refine_shownAxis (step : Step) :
    step.shownAxis.refine step.shownTest step.reread.predicate = step.shownAxis := by
  rw [Axis.refine, if_neg]
  rintro ⟨haxis, hall⟩
  rw [reread_predicate_eq_none_iff] at hall
  unfold shownAxis at haxis
  split at haxis
  · cases haxis
  · cases haxis
  · rw [if_pos hall] at haxis
    cases haxis
  · rw [if_pos hall] at haxis
    cases haxis

theorem ofRaw_raw (h : step.isSpellable = true) : ofRaw step.raw = .ok step.reread := by
  have hpredicate := (Bool.and_eq_true_iff.1 h).2
  have hjoin : Predicate.joinGroups none step.raw.predicates = .ok step.reread.predicate := by
    unfold raw reread
    cases hp : step.predicate with
    | none => rfl
    | some p =>
        rw [hp, Option.all_some] at hpredicate
        exact joinGroups_display (fun c hc => Predicate.isSpellable_of_mem_conjuncts hpredicate hc)
          none
  have haxis : step.raw.axis = step.shownAxis := rfl
  rw [ofRaw, hjoin]
  simp only [bind, Except.bind, ofText_role h, haxis, refine_shownAxis]
  rfl

end Step

namespace Query

/-- A query can be spelled. -/
def isSpellable (query : Query) : Bool :=
  query.steps.all Step.isSpellable

/-- The query that is read from the text of a query. -/
def reread (query : Query) : Query :=
  ⟨query.steps.map Step.reread, by simpa using query.steps_ne_nil⟩

/-- A query that can be spelled is read again. -/
theorem parse_display {query : Query} (h : query.isSpellable = true) :
    parse query.display = .ok query.reread := by
  have hsteps : ∀ step ∈ query.steps, step.isSpellable = true := List.all_eq_true.1 h
  have htext : query.display =
      String.ofList ((query.steps.map Step.raw).flatMap RawStep.spelled) := by
    rw [← String.toList_inj, display]
    simp [List.flatMap_map, Step.toList_display]
  have hsegment : segment query.display = .ok (query.steps.map Step.raw) := by
    rw [htext]
    exact segment_spelled ⟨by simpa using query.steps_ne_nil,
      List.forall_mem_map.2 fun step hs => Step.isSpelling_raw (hsteps step hs)⟩
  have hread : (query.steps.map Step.raw).mapM Step.ofRaw =
      (.ok (query.steps.map Step.reread) : Except QueryError (List Step)) := by
    rw [List.mapM_map]
    exact mapM_eq_ok fun step hs => Step.ofRaw_raw (hsteps step hs)
  have hquery : ofSteps? (query.steps.map Step.reread) = some query.reread :=
    ofSteps?_steps query.reread
  rw [parse, hsegment]
  simp only [bind, Except.bind, hread, hquery]

end Query

/-! ### What has been read -/

/-- A step that has been read from some text. -/
structure Step.IsRead (step : Step) : Prop where
  /-- It can be spelled, -/
  spellable : step.isSpellable = true
  /-- its text shows its axis -/
  axis : step.shownAxis = step.axis
  /-- and its role test, -/
  roleTest : step.shownTest = step.roleTest
  /-- and its conjuncts have the form that readers give them. -/
  regrouped : ∀ p ∈ step.predicate, ∀ c ∈ p.conjuncts, c.regroup = c

namespace Predicate

theorem isRead_of_read? {text : String} {p : Predicate} (h : read? text = .ok (some p)) :
    p.regroup = p ∧ p.isSpellable = true := by
  unfold read? at h
  split at h
  · cases h
  · split at h
    · next hp =>
        cases h
        exact Scan.yields_predicate _ _ _ hp
    · cases h

theorem isRead_of_joinGroups {groups : List String} {before after : Option Predicate}
    (h : joinGroups before groups = .ok after)
    (hb : ∀ p ∈ before, p.isSpellable = true ∧ ∀ c ∈ p.conjuncts, c.regroup = c) :
    ∀ p ∈ after, p.isSpellable = true ∧ ∀ c ∈ p.conjuncts, c.regroup = c := by
  induction groups generalizing before with
  | nil =>
      cases h
      exact hb
  | cons group groups ih =>
      obtain ⟨next, hnext, h⟩ := bind_eq_ok.1 h
      refine ih h ?_
      -- a blank group adds nothing
      cases next with
      | none =>
          cases before with
          | none => simp [both?]
          | some l => exact hb
      | some r =>
          obtain ⟨hregroup, hspell⟩ := isRead_of_read? hnext
          have hr : r.isSpellable = true ∧ ∀ c ∈ r.conjuncts, c.regroup = c :=
            ⟨hspell, fun c hc => regroup_of_mem_conjuncts hregroup hc⟩
          cases before with
          | none =>
              rintro _ ⟨⟩
              exact hr
          | some l =>
              have hl := hb l rfl
              rintro _ ⟨⟩
              refine ⟨Bool.and_eq_true_iff.2 ⟨hl.1, hr.1⟩, fun c hc => ?_⟩
              exact (List.mem_append.1 hc).elim (hl.2 c) (hr.2 c)

end Predicate

theorem RoleTest.isSpellable_ofText {role : String} (h : IsPathRole role) :
    (ofText role).isSpellable = true := by
  unfold ofText
  split
  · rfl
  · next hne =>
      rw [not_or] at hne
      exact (h.resolve_left hne.1).resolve_left hne.2

/-- What a step is read from shows its axis and its role test. -/
theorem Step.shown_of_isSpelling {raw : RawStep} {predicate : Option Predicate}
    (hr : raw.IsSpelling) (hp : raw.predicates = [] → predicate = none) :
    let step : Step := ⟨raw.axis.refine (RoleTest.ofText raw.role) predicate,
      RoleTest.ofText raw.role, predicate⟩
    step.shownAxis = step.axis ∧ step.shownTest = step.roleTest := by
  dsimp only
  cases ha : raw.axis with
  | self =>
      rw [hr.self_iff.1 ha]
      exact ⟨rfl, rfl⟩
  | child => exact ⟨rfl, rfl⟩
  | descendant =>
      -- blank groups vanish, so that a step with groups may turn out to have no predicate
      rw [Axis.refine]
      by_cases hall : RoleTest.ofText raw.role = .wildcard ∧ predicate = none
      · rw [if_pos ⟨rfl, hall⟩]
        simp [shownAxis, shownTest, hall]
      · rw [if_neg fun h => hall h.2]
        exact ⟨if_neg hall, rfl⟩
  | any =>
      obtain ⟨_, hrole, hnil⟩ := hr.any_iff.1 ha
      rw [hrole, hp hnil]
      exact ⟨rfl, rfl⟩

theorem Step.isRead_of_ofRaw {raw : RawStep} {step : Step} (hr : raw.IsSpelling)
    (h : ofRaw raw = .ok step) : step.IsRead := by
  obtain ⟨predicate, hp, h⟩ := bind_eq_ok.1 h
  cases h
  have hread := Predicate.isRead_of_joinGroups hp (by simp)
  have hnil : raw.predicates = [] → predicate = none := by
    intro hnil
    rw [hnil] at hp
    cases hp
    rfl
  obtain ⟨haxis, htest⟩ := shown_of_isSpelling hr hnil
  refine ⟨Bool.and_eq_true_iff.2 ⟨RoleTest.isSpellable_ofText hr.role, ?_⟩, haxis, htest,
    fun p hp => (hread p hp).2⟩
  exact (Option.all_eq_true _ _).2 fun p hp => (hread p hp).1

theorem Query.isRead_of_parse {text : String} {query : Query} (h : parse text = .ok query) :
    ∀ step ∈ query.steps, step.IsRead := by
  obtain ⟨raws, hraws, h⟩ := bind_eq_ok.1 h
  obtain ⟨steps, hsteps, h⟩ := bind_eq_ok.1 h
  have hquery : query.steps = steps := by
    unfold ofSteps? at h
    split at h
    · next hne =>
        split at hne
        · cases hne
          cases h
          rfl
        · cases hne
    · cases h
  intro step hs
  rw [hquery] at hs
  obtain ⟨raw, hraw, hread⟩ := exists_of_mapM_eq_ok hsteps step hs
  exact Step.isRead_of_ofRaw ((path_of_segment hraws).1.2 raw hraw) hread

/-! ### Reading back what has been read -/

/-- A step with its conjunctions joined from the left. -/
def Step.leaned (step : Step) : Step :=
  { step with predicate := step.predicate.bind fun p => Predicate.conjoin p.conjuncts }

/-- What has been read from a text is read again with its conjunctions joined from the left. -/
theorem Step.IsRead.reread_eq {step : Step} (h : step.IsRead) : step.reread = step.leaned := by
  have hpredicate : (step.predicate.bind fun p =>
      Predicate.conjoin (p.conjuncts.map Predicate.regroup)) =
      step.predicate.bind fun p => Predicate.conjoin p.conjuncts := by
    cases hp : step.predicate with
    | none => rfl
    | some p =>
        have hid : p.conjuncts.map Predicate.regroup = p.conjuncts.map id :=
          List.map_congr_left (h.regrouped p hp)
        rw [Option.bind_some, Option.bind_some, hid, List.map_id]
  rw [Step.reread, h.axis, h.roleTest, hpredicate]
  rfl

theorem Step.leaned_eq_iff {step : Step} :
    step.leaned = step ↔ ∀ p ∈ step.predicate, p.leansLeft = true := by
  obtain ⟨axis, roleTest, predicate⟩ := step
  cases predicate with
  | none => simp [leaned]
  | some p => simp [leaned, Predicate.conjoin_conjuncts_iff]

namespace Query

/-- The query with the conjunctions of all steps joined from the left. -/
def leaned (query : Query) : Query :=
  ⟨query.steps.map Step.leaned, by simpa using query.steps_ne_nil⟩

theorem leaned_eq_iff {query : Query} :
    query.leaned = query ↔ ∀ step ∈ query.steps, ∀ p ∈ step.predicate, p.leansLeft = true := by
  obtain ⟨steps, hne⟩ := query
  have hid : steps.map Step.leaned = steps ↔ ∀ step ∈ steps, step.leaned = step := by
    conv => lhs; rhs; rw [← List.map_id steps]
    exact List.map_inj_left
  rw [leaned, mk.injEq, hid]
  exact forall₂_congr fun step _ => Step.leaned_eq_iff

/-- The text of a query that has been read from a text is read again, with the conjunctions joined
from the left.  It is read back as it was exactly if they were so before. -/
theorem parse_display_iff {text : String} {query : Query} (h : parse text = .ok query) :
    parse query.display = .ok query.leaned ∧
      (parse query.display = .ok query ↔
        ∀ step ∈ query.steps, ∀ p ∈ step.predicate, p.leansLeft = true) := by
  have hread := isRead_of_parse h
  have hreread : query.reread = query.leaned := by
    rw [reread, leaned, mk.injEq]
    exact List.map_congr_left fun step hs => (hread step hs).reread_eq
  have hparse : parse query.display = .ok query.leaned :=
    hreread ▸ parse_display (List.all_eq_true.2 fun step hs => (hread step hs).spellable)
  refine ⟨hparse, ?_⟩
  rw [hparse, ← leaned_eq_iff]
  exact ⟨Except.ok.inj, congrArg Except.ok⟩

/-- A path of two steps, of which one has more than one group. -/
theorem parse_display_iff_groups :
    let query : Query := ⟨[⟨.descendant, .role "list item", some (.and (.or (.position 2) .last)
        (.comparison (.named "name") .eq (.text "it's")))⟩, ⟨.any, .wildcard, none⟩], by decide⟩
    parse " //list item[2 or last()][@name = \"it's\"][ ]//*" = .ok query ∧
      parse query.display = .ok query.leaned ∧
      (parse query.display = .ok query ↔
        ∀ step ∈ query.steps, ∀ p ∈ step.predicate, p.leansLeft = true) := by
  intro query
  have h : parse " //list item[2 or last()][@name = \"it's\"][ ]//*" = .ok query := by
    decide +kernel
  exact ⟨h, parse_display_iff h⟩

/-- A conjunction in the second group becomes two groups, and is joined with the first group before
the last one is added. -/
theorem parse_display_regroups :
    ∃ query again : Query, parse "//text[1][2 and 3]" = .ok query ∧
      query.display = "//text[1][2][3]" ∧ parse query.display = .ok again ∧ again ≠ query := by
  refine ⟨⟨[⟨.descendant, .role "text", some (.and (.position 1) (.and (.position 2)
    (.position 3)))⟩], by decide⟩, ⟨[⟨.descendant, .role "text", some (.and (.and (.position 1)
    (.position 2)) (.position 3))⟩], by decide⟩, ?_, ?_, ?_, ?_⟩
  all_goals decide +kernel

end Query

end AccessQuery
