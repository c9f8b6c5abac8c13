/-
**Lists of states as conjunctions.**

A set of states is compared with a comma-separated list by looking for each item.  So a test for two
lists joined by a comma is the conjunction of the tests for the two, and neither the order of the
items, nor how often they are repeated, nor the blanks around them make a difference.  A blank list
is another matter: it stands for the empty set, and is left out here.

Main definitions:

* `AccessQuery.listItems` — the items of a list, as they stand;
* `AccessQuery.Rewritten` — items that are reordered, repeated and padded with blanks.

Main results:

* `AccessQuery.stateNames_append`, `AccessQuery.stateNames_intercalate_eq_flatMap` — the states that
  joined lists name;
* `AccessQuery.Rewritten.mem_stateNames_iff`, `AccessQuery.Rewritten.isBlankText_eq_false` —
  rewriting keeps the states that are named, and does not make a list blank;
* `AccessQuery.Predicate.states_conjunctive` — what follows for tests of a set of states.
-/

import AccessQuery.Predicate.Evaluation
import AccessQuery.Proofs.Grammar.Groups

set_option relaxedAutoImplicit false
set_option autoImplicit false

namespace AccessQuery

open Text

/-! ### Blanks around an item -/

/-- Blanks around a text are trimmed away with those that it has. -/
theorem Text.trim_pad {before after : List Char} (hb : AllBlank before) (ha : AllBlank after)
    (s : List Char) : trim (before ++ (s ++ after)) = trim s := by
  by_cases h : trim s = []
  · have hs : AllBlank s := trim_eq_nil_iff.1 h
    rw [h, trim_eq_nil_iff]
    exact hb.append (hs.append ha)
  · obtain ⟨front, back, hfront, hback, hs⟩ := exists_trim_eq s
    obtain ⟨hfirst, hlast⟩ := isSolid_trim h
    have hassoc : before ++ (s ++ after) = (before ++ front) ++ (trim s ++ (back ++ after)) := by
      conv_lhs => rw [hs]
      simp only [List.append_assoc]
    rw [hassoc, trim_between (hb.append hfront) (hback.append ha) hfirst hlast]

theorem isBlankText_eq_true_iff {s : String} : isBlankText s = true ↔ AllBlank s.toList :=
  List.all_eq_true

/-- No blank separates items. -/
theorem Text.AllBlank.notMem_comma {s : List Char} (h : AllBlank s) : ',' ∉ s :=
  fun hc => absurd (h ',' hc) (by decide)

/-! ### The states that a list names -/

/-- The items of a comma-separated list, as they stand. -/
def listItems (csv : String) : List String :=
  (csv.toList.splitOn ',').map String.ofList

theorem intercalate_listItems (csv : String) : ",".intercalate (listItems csv) = csv := by
  rw [← String.toList_inj, String.toList_intercalate, listItems, List.map_map]
  have hid : String.toList ∘ String.ofList = id := funext fun _ => String.toList_ofList
  rw [hid, List.map_id]
  exact List.intercalate_splitOn ','

theorem stateNames_append (a b : String) :
    stateNames (a ++ "," ++ b) = stateNames a ++ stateNames b := by
  have hsplit : (a ++ "," ++ b).toList.splitOn ',' =
      a.toList.splitOn ',' ++ b.toList.splitOn ',' := by
    rw [String.toList_append, String.toList_append, List.append_assoc]
    exact List.splitOn_append_cons_self _ _
  rw [stateNames, hsplit, List.map_append, List.filter_append]
  rfl

theorem stateNames_intercalate_eq_flatMap (items : List String) :
    stateNames (",".intercalate items) = items.flatMap stateNames := by
  induction items with
  | nil => decide
  | cons item rest ih =>
      cases rest with
      | nil => simp
      | cons next rest => rw [String.intercalate_cons_cons, stateNames_append, ih]; rfl

theorem mem_stateNames_iff {csv name : String} : name ∈ stateNames csv ↔
    ∃ item ∈ listItems csv, trim item.toList ≠ [] ∧ String.ofList (trim item.toList) = name := by
  simp only [stateNames, listItems, List.mem_filter, List.mem_map, decide_eq_true_eq]
  constructor
  · rintro ⟨⟨item, hitem, rfl⟩, hne⟩
    refine ⟨String.ofList item, ⟨item, hitem, rfl⟩, ?_, by rw [String.toList_ofList]⟩
    rwa [String.toList_ofList, ne_eq, ← String.ofList_eq_empty_iff]
  · rintro ⟨-, ⟨item, hitem, rfl⟩, hne, rfl⟩
    rw [String.toList_ofList] at hne ⊢
    exact ⟨⟨item, hitem, rfl⟩, mt String.ofList_eq_empty_iff.1 hne⟩

theorem stateNames_pad {before item after : String} (hb : isBlankText before = true)
    (ha : isBlankText after = true) (hi : ',' ∉ item.toList) :
    stateNames (before ++ item ++ after) = stateNames item := by
  rw [isBlankText_eq_true_iff] at hb ha
  have hpad :
      (before ++ item ++ after).toList = before.toList ++ (item.toList ++ after.toList) := by
    rw [String.toList_append, String.toList_append, List.append_assoc]
  have hone : ',' ∉ before.toList ++ (item.toList ++ after.toList) := by
    simp only [List.mem_append, not_or]
    exact ⟨hb.notMem_comma, hi, ha.notMem_comma⟩
  rw [stateNames, hpad, List.splitOn_eq_singleton hone, stateNames, List.splitOn_eq_singleton hi,
    List.map_singleton, trim_pad hb ha, List.map_singleton]

/-! ### Blank lists -/

theorem isBlankText_append (a b : String) :
    isBlankText (a ++ b) = (isBlankText a && isBlankText b) := by
  rw [isBlankText, String.toList_append, List.all_append, isBlankText, isBlankText]

theorem isBlankText_append_comma (a b : String) : isBlankText (a ++ "," ++ b) = false := by
  have hcomma : isBlankText "," = false := by decide
  rw [isBlankText_append, isBlankText_append, hcomma, Bool.and_false, Bool.false_and]

/-- A list is blank if it has one item at most, which is blank. -/
theorem isBlankText_intercalate {items : List String} :
    isBlankText (",".intercalate items) = true ↔
      items.length ≤ 1 ∧ ∀ item ∈ items, isBlankText item = true := by
  cases items with
  | nil => decide
  | cons item rest =>
      cases rest with
      | nil => simp
      | cons next rest =>
          rw [String.intercalate_cons_cons, isBlankText_append_comma]
          simp

/-! ### Rewriting -/

/-- One list of items comes from another by reordering items, repeating them, and padding them with
blanks. -/
inductive Rewritten : List String → List String → Prop
  | reorder {items others : List String} : items.Perm others → Rewritten items others
  | duplicate {items : List String} {item : String} : item ∈ items → Rewritten items (item :: items)
  | pad {front back : List String} {before item after : String} :
      isBlankText before = true → isBlankText after = true → ',' ∉ item.toList →
      Rewritten (front ++ item :: back) (front ++ (before ++ item ++ after) :: back)
  | trans {a b c : List String} : Rewritten a b → Rewritten b c → Rewritten a c

namespace Rewritten

variable {items others : List String}

/-- Rewriting keeps the states that are named. -/
theorem mem_stateNames_iff (h : Rewritten items others) (name : String) :
    name ∈ stateNames (",".intercalate others) ↔ name ∈ stateNames (",".intercalate items) := by
  induction h with
  | reorder hperm =>
      simp only [stateNames_intercalate_eq_flatMap]
      exact (hperm.symm.flatMap_right stateNames).mem_iff
  | @duplicate items item hitem =>
      simp only [stateNames_intercalate_eq_flatMap, List.flatMap_cons, List.mem_append,
        List.mem_flatMap]
      exact or_iff_right_of_imp fun hname => ⟨item, hitem, hname⟩
  | pad hbefore hafter hitem =>
      simp only [stateNames_intercalate_eq_flatMap, List.flatMap_append, List.flatMap_cons,
        stateNames_pad hbefore hafter hitem]
  | trans _ _ ihab ihbc => exact ihbc.trans ihab

/-- Rewriting does not make a list blank. -/
theorem isBlankText_eq_false (h : Rewritten items others)
    (hb : isBlankText (",".intercalate items) = false) :
    isBlankText (",".intercalate others) = false := by
  rw [← Bool.not_eq_true] at hb ⊢
  induction h with
  | reorder hperm =>
      refine mt (fun hblank => ?_) hb
      rw [isBlankText_intercalate] at hblank ⊢
      exact ⟨hperm.length_eq ▸ hblank.1, fun item hitem => hblank.2 item (hperm.mem_iff.1 hitem)⟩
  | @duplicate items item hitem =>
      rw [isBlankText_intercalate]
      have hlength := List.length_pos_of_mem hitem
      rintro ⟨hle, -⟩
      rw [List.length_cons] at hle
      omega
  | @pad front back before item after hbefore hafter _ =>
      refine mt (fun hblank => ?_) hb
      simp only [isBlankText_intercalate, List.length_append, List.length_cons,
        List.forall_mem_append, List.forall_mem_cons, isBlankText_append, hbefore, hafter,
        Bool.true_and, Bool.and_true] at hblank ⊢
      exact hblank
  | trans _ _ ihab ihbc => exact ihbc (ihab hb)

end Rewritten

/-! ### Sets of states -/

theorem StateSet.hasAll_iff {set : StateSet} {csv : String} :
    StateSet.hasAll set csv = true ↔ ∀ name ∈ stateNames csv, name ∈ set := by
  rw [StateSet.hasAll, List.all_eq_true]
  exact forall₂_congr fun name _ => Std.ExtTreeSet.contains_iff_mem

theorem StateSet.hasAll_append (set : StateSet) (a b : String) :
    StateSet.hasAll set (a ++ "," ++ b) = (StateSet.hasAll set a && StateSet.hasAll set b) := by
  rw [StateSet.hasAll, stateNames_append, List.all_append, StateSet.hasAll, StateSet.hasAll]

/-- A list that is not blank is looked for item by item. -/
theorem StateSet.agrees_eq_hasAll {csv : String} (h : isBlankText csv = false) (set : StateSet) :
    StateSet.agrees set csv = StateSet.hasAll set csv := by
  rw [StateSet.agrees, h, if_neg Bool.false_ne_true]

namespace Predicate

variable {attr : AttrRef} {snapshot : Snapshot} {set : StateSet}

theorem equals_states (h : attr.value? snapshot = some (.states set)) {csv : String}
    (hb : isBlankText csv = false) (place count : Nat) :
    (Predicate.comparison attr .eq (.text csv)).holds snapshot place count =
      StateSet.hasAll set csv := by
  rw [holds, h]
  exact StateSet.agrees_eq_hasAll hb set

theorem contains_states (h : attr.value? snapshot = some (.states set)) (csv : String)
    (place count : Nat) :
    (Predicate.function .contains attr csv).holds snapshot place count =
      StateSet.hasAll set csv := by
  rw [holds, h]
  rfl

/-- Tests of a set of states for lists that are not blank: a joined list is a conjunction, equality
and containment agree and look for each item, rewriting the items makes no difference, and what
holds of a set holds of every larger one. -/
theorem states_conjunctive (attr : AttrRef) (snapshot : Snapshot) (set : StateSet)
    (place count : Nat) (h : attr.value? snapshot = some (.states set)) :
    let equals (csv : String) :=
      (Predicate.comparison attr .eq (.text csv)).holds snapshot place count
    let contains (csv : String) :=
      (Predicate.function .contains attr csv).holds snapshot place count
    (∀ a b, isBlankText a = false → isBlankText b = false →
      equals (a ++ "," ++ b) = (equals a && equals b)) ∧
    (∀ a, isBlankText a = false → equals a = contains a ∧
      (equals a = true ↔ ∀ item ∈ listItems a, trim item.toList ≠ [] →
        String.ofList (trim item.toList) ∈ set)) ∧
    (∀ a items, isBlankText a = false → Rewritten (listItems a) items →
      equals (",".intercalate items) = equals a) ∧
    ∀ (larger : Snapshot) (others : StateSet),
      attr.value? larger = some (.states others) → (∀ name ∈ set, name ∈ others) →
      ∀ a, isBlankText a = false → equals a = true →
        (Predicate.comparison attr .eq (.text a)).holds larger place count = true := by
  intro equals contains
  refine ⟨fun a b ha hb => ?_, fun a ha => ⟨?_, ?_⟩, fun a items ha hr => ?_, ?_⟩
  · simp only [equals, equals_states h ha, equals_states h hb,
      equals_states h (isBlankText_append_comma a b), StateSet.hasAll_append]
  · simp only [equals, contains, equals_states h ha, contains_states h]
  · simp only [equals, equals_states h ha, StateSet.hasAll_iff, mem_stateNames_iff]
    exact ⟨fun hall item hitem hne => hall _ ⟨item, hitem, hne, rfl⟩,
      fun hall name ⟨item, hitem, hne, hname⟩ => hname ▸ hall item hitem hne⟩
  · have hjoin : ",".intercalate (listItems a) = a := intercalate_listItems a
    have hblank := hr.isBlankText_eq_false (hjoin.symm ▸ ha)
    simp only [equals, equals_states h ha, equals_states h hblank]
    rw [Bool.eq_iff_iff, StateSet.hasAll_iff, StateSet.hasAll_iff]
    have hmem := hr.mem_stateNames_iff
    rw [hjoin] at hmem
    exact forall_congr' fun name => imp_congr_left (hmem name)
  · intro larger others hlarger hsub a ha hholds
    simp only [equals, equals_states h ha] at hholds
    rw [equals_states hlarger ha, StateSet.hasAll_iff]
    exact fun name hname => hsub name (StateSet.hasAll_iff.1 hholds name hname)

/-- A set of two states, and one with a third. -/
theorem states_conjunctive_showing :
    let set : StateSet := Std.ExtTreeSet.ofList ["enabled", "showing"]
    let others : StateSet := Std.ExtTreeSet.ofList ["enabled", "focused", "showing"]
    let snapshot := Snapshot.empty.insert AttrName.states (.states set)
    let larger := Snapshot.empty.insert AttrName.states (.states others)
    let test (csv : String) := Predicate.comparison (.named AttrName.states) .eq (.text csv)
    (test ("showing" ++ "," ++ " enabled")).holds snapshot 1 1 =
        ((test "showing").holds snapshot 1 1 && (test " enabled").holds snapshot 1 1) ∧
      (test "showing").holds snapshot 1 1 = true ∧
      (test (",".intercalate [" " ++ "showing" ++ "", "showing"])).holds snapshot 1 1 =
        (test "showing").holds snapshot 1 1 ∧
      (test "showing").holds larger 1 1 = true := by
  intro set others snapshot larger test
  have hset : (AttrRef.named AttrName.states).value? snapshot = some (.states set) := by
    decide +kernel
  have hothers : (AttrRef.named AttrName.states).value? larger = some (.states others) := by
    decide +kernel
  have hsub : ∀ name ∈ set, name ∈ others := by
    intro name hname
    simp only [set, others, Std.ExtTreeSet.mem_ofList, List.contains_iff_mem,
      List.mem_cons] at hname ⊢
    tauto
  have hrewritten : Rewritten (listItems "showing") [" " ++ "showing" ++ "", "showing"] := by
    have hitems : listItems "showing" = ["showing"] := by decide +kernel
    have hpad : Rewritten ([] ++ "showing" :: ["showing"])
        ([] ++ (" " ++ "showing" ++ "") :: ["showing"]) :=
      .pad (by decide) (by decide) (by decide)
    rw [hitems]
    exact .trans (.duplicate List.mem_cons_self) hpad
  obtain ⟨hjoined, hone, hsame, hmono⟩ :=
    states_conjunctive (.named AttrName.states) snapshot set 1 1 hset
  have hholds : (test "showing").holds snapshot 1 1 = true := by decide +kernel
  exact ⟨hjoined "showing" " enabled" (by decide) (by decide), hholds,
    hsame "showing" _ (by decide) hrewritten,
    hmono larger others hothers hsub "showing" (by decide) hholds⟩

end Predicate

end AccessQuery
