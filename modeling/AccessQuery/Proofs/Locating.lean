/-
**Locators.**

The value of a locator goes into a query as it is.  There are two ways in which it could fail to
come out again when the query is printed and read: a text with quotes of both kinds stands between
quotes that it contains, and a role with characters of the path grammar is taken apart.  These
values are refused, and all others survive.

A list of states is written as one text, with commas between the names.  It is split where it was
joined, so that it asks for all of the states, and for no others.  The empty list is written as the
empty text, which does not ask for nothing: it stands for the empty set.

Main definitions:

* `AccessQuery.Locator.IsUnspellable` — the value of a locator cannot be written in a query;
* `AccessQuery.IsStateName` — the name of a state that a list can hold.

Main results:

* `AccessQuery.Locator.parse_attributeQuery`, `AccessQuery.Locator.parse_roleQuery` — the queries of
  locators are read back;
* `AccessQuery.Locator.query_read_back` — exactly what cannot be written is refused, and everything
  else is read back;
* `AccessQuery.stateNames_intercalate` — a list of states is split where it was joined;
* `AccessQuery.Locator.states_holds_iff` — what a list of states asks for.
-/

import AccessQuery.Proofs.RoundTrip
import AccessQuery.Proofs.StateLists

set_option relaxedAutoImplicit false
set_option autoImplicit false

namespace AccessQuery

namespace Locator

/-! ### What is refused -/

/-- The value of a locator cannot be written in a query: as a text, because of its quotes, or as a
role, because it is empty, has blanks at its ends or has characters that roles do not have.  A path
cannot be read. -/
def IsUnspellable : Locator → Prop
  | .name value | .description value => HasBothQuotes value
  | .states values => HasBothQuotes (",".intercalate values)
  | .role value => value = "" ∨ Text.trim value.toList ≠ value.toList ∨
      ∃ c ∈ value.toList, Segment.isRoleChar c = false
  | .objectDepth _ | .childrenCount _ | .indexInParent _ => False
  | .path text => ∃ error, Query.parse text = .error error

theorem isSpellableRole_iff {role : String} :
    isSpellableRole role = true ↔ ¬ (Locator.role role).IsUnspellable := by
  simp only [isSpellableRole, IsUnspellable, Bool.and_eq_true, beq_iff_eq, List.all_eq_true,
    not_or, not_exists, not_and, Bool.not_eq_false, Bool.not_eq_true', List.isEmpty_eq_false_iff,
    not_not, ne_eq, String.toList_eq_nil_iff, and_assoc]

/-! ### What is read back -/

/-- A query for an attribute and a literal that can be spelled is read back. -/
theorem parse_attributeQuery {attr : String} {value : Literal}
    (ha : (AttrRef.named attr).isSpellable = true) (hv : value.isSpellable = true) :
    Query.parse (attributeQuery attr value).display = .ok (attributeQuery attr value) := by
  have hspell : (attributeQuery attr value).isSpellable = true := by
    simp [attributeQuery, Query.isSpellable, Query.single, Step.isSpellable, RoleTest.isSpellable,
      Predicate.isSpellable, ha, hv]
  rw [Query.parse_display hspell]
  rfl

/-- A query for a role that can be spelled is two slashes and the role, and is read back. -/
theorem parse_roleQuery {role : String} (h : isSpellableRole role = true) :
    let query := Query.single ⟨.descendant, .role role, none⟩
    query.display = "//" ++ role ∧ Query.parse query.display = .ok query := by
  intro query
  have hspell : query.isSpellable = true := by
    simp [query, Query.isSpellable, Query.single, Step.isSpellable, RoleTest.isSpellable, h]
  refine ⟨by simp [query, Query.display, Query.single, Step.display, Step.path, RoleTest.display],
    ?_⟩
  rw [Query.parse_display hspell]
  rfl

theorem textLiteral_of_hasBothQuotes {s : String} (h : HasBothQuotes s) :
    textLiteral s = .error (.invalidPredicate s) :=
  if_pos h

theorem textLiteral_of_not {s : String} (h : ¬ HasBothQuotes s) : textLiteral s = .ok (.text s) :=
  if_neg h

/-- A query for an attribute and a text is refused because of the quotes of the text, or else is
read back. -/
theorem textLiteral_read_back (attr value : String)
    (ha : (AttrRef.named attr).isSpellable = true) :
    ((∃ error, (textLiteral value).map (attributeQuery attr) = .error error) ↔
        HasBothQuotes value) ∧
      ∀ query, (textLiteral value).map (attributeQuery attr) = .ok query →
        Query.parse query.display = .ok query := by
  by_cases h : HasBothQuotes value
  · rw [textLiteral_of_hasBothQuotes h]
    exact ⟨⟨fun _ => h, fun _ => ⟨_, rfl⟩⟩, fun query hq => by cases hq⟩
  · rw [textLiteral_of_not h]
    refine ⟨⟨fun ⟨_, he⟩ => (by cases he), fun hb => absurd hb h⟩, fun query hq => ?_⟩
    cases hq
    exact parse_attributeQuery ha (isQuotable_iff.2 h)

/-- A locator other than a path is refused exactly if its value cannot be written in a query.
Otherwise its query is read back, and that of a role also from two slashes and the role. -/
theorem query_read_back {locator : Locator} (h : ∀ text, locator ≠ .path text) :
    ((∃ error, locator.query = .error error) ↔ locator.IsUnspellable) ∧
      ∀ query, locator.query = .ok query →
        Query.parse query.display = .ok query ∧
          ∀ role, locator = .role role → Query.parse ("//" ++ role) = .ok query := by
  cases locator with
  | name value =>
      obtain ⟨hrefused, hread⟩ := textLiteral_read_back AttrName.name value (by decide)
      exact ⟨hrefused, fun query hq => ⟨hread query hq, fun role hr => by cases hr⟩⟩
  | description value =>
      obtain ⟨hrefused, hread⟩ := textLiteral_read_back AttrName.description value (by decide)
      exact ⟨hrefused, fun query hq => ⟨hread query hq, fun role hr => by cases hr⟩⟩
  | states values =>
      obtain ⟨hrefused, hread⟩ :=
        textLiteral_read_back AttrName.statesEnUs (",".intercalate values) (by decide)
      exact ⟨hrefused, fun query hq => ⟨hread query hq, fun role hr => by cases hr⟩⟩
  | objectDepth value | childrenCount value | indexInParent value =>
      refine ⟨⟨fun ⟨_, he⟩ => (by cases he), False.elim⟩, fun query hq => ?_⟩
      cases hq
      exact ⟨parse_attributeQuery (by decide) rfl, fun role hr => by cases hr⟩
  | role value =>
      simp only [query]
      by_cases hs : isSpellableRole value = true
      · rw [if_pos hs]
        refine ⟨⟨fun ⟨_, he⟩ => (by cases he), fun hu => absurd hu (isSpellableRole_iff.1 hs)⟩,
          fun query hq => ?_⟩
        cases hq
        obtain ⟨hdisplay, hparse⟩ := parse_roleQuery hs
        refine ⟨hparse, fun role hr => ?_⟩
        cases hr
        rw [← hdisplay, hparse]
      · rw [if_neg hs]
        exact ⟨⟨fun _ => not_not.1 (mt isSpellableRole_iff.2 hs), fun _ => ⟨_, rfl⟩⟩,
          fun query hq => by cases hq⟩
  | path text => exact absurd rfl (h text)

/-- Two states with a quote and brackets between them, and a role. -/
theorem query_read_back_states :
    let locator := Locator.states ["it's [x]/", " "]
    (∀ text, locator ≠ .path text) ∧ ¬ locator.IsUnspellable ∧
      ((∃ error, locator.query = .error error) ↔ locator.IsUnspellable) ∧
      ∀ query, locator.query = .ok query →
        Query.parse query.display = .ok query ∧
          ∀ role, locator = .role role → Query.parse ("//" ++ role) = .ok query := by
  intro locator
  have hpath (text : String) : locator ≠ .path text := Locator.noConfusion
  refine ⟨hpath, fun h => ?_, query_read_back hpath⟩
  exact absurd h.2 (by decide +kernel)

end Locator

/-! ### Lists of states -/

/-- The name of a state that a list can hold: not empty, without blanks at its ends, commas and
quotes. -/
structure IsStateName (name : String) : Prop where
  ne_empty : name ≠ ""
  trim_eq : Text.trim name.toList = name.toList
  notMem_comma : ',' ∉ name.toList
  notMem_apostrophe : '\x27' ∉ name.toList
  notMem_quote : '"' ∉ name.toList

namespace IsStateName

variable {name : String}

theorem stateNames_eq (h : IsStateName name) : stateNames name = [name] := by
  rw [stateNames, List.splitOn_eq_singleton h.notMem_comma, List.map_singleton, h.trim_eq,
    String.ofList_toList, List.filter_singleton, decide_eq_true h.ne_empty]
  rfl

theorem isBlankText_eq_false (h : IsStateName name) : isBlankText name = false := by
  rw [← Bool.not_eq_true, isBlankText_eq_true_iff]
  intro hblank
  -- it would be blank throughout, and trimmed at the same time
  have htrim := Text.trim_eq_nil_iff.2 hblank
  rw [h.trim_eq, String.toList_eq_nil_iff] at htrim
  exact h.ne_empty htrim

end IsStateName

/-- A list of names is split where it was joined. -/
theorem stateNames_intercalate {names : List String} (h : ∀ name ∈ names, IsStateName name) :
    stateNames (",".intercalate names) = names := by
  rw [stateNames_intercalate_eq_flatMap,
    List.flatMap_congr fun name hname => (h name hname).stateNames_eq, List.flatMap_singleton']

/-- A list has no characters but commas and those of its items. -/
theorem notMem_intercalate {c : Char} {names : List String} (hc : c ≠ ',')
    (h : ∀ name ∈ names, c ∉ name.toList) : c ∉ (",".intercalate names).toList := by
  induction names with
  | nil => simp
  | cons name names ih =>
      rw [List.forall_mem_cons] at h
      cases names with
      | nil => simpa using h.1
      | cons next names =>
          rw [String.intercalate_cons_cons]
          simpa [hc, h.1] using ih h.2

/-- A list of names can be quoted. -/
theorem not_hasBothQuotes_intercalate {names : List String}
    (h : ∀ name ∈ names, IsStateName name) : ¬ HasBothQuotes (",".intercalate names) :=
  fun hboth => notMem_intercalate (by decide) (fun name hname => (h name hname).notMem_quote)
    hboth.2

/-- A list of names is not blank, unless it is empty. -/
theorem isBlankText_intercalate_iff {names : List String} (h : ∀ name ∈ names, IsStateName name) :
    isBlankText (",".intercalate names) = true ↔ names = [] := by
  rw [isBlankText_intercalate]
  cases names with
  | nil => simp
  | cons name rest => simp [(h name List.mem_cons_self).isBlankText_eq_false]

/-- A set of states agrees with a list of names if all of them are in it; it agrees with the empty
list only if it is empty itself. -/
theorem agrees_intercalate_iff {names : List String} (h : ∀ name ∈ names, IsStateName name)
    (set : StateSet) : StateSet.agrees set (",".intercalate names) = true ↔
      if names = [] then set = ∅ else ∀ name ∈ names, name ∈ set := by
  by_cases hnil : names = []
  · rw [StateSet.agrees, if_pos ((isBlankText_intercalate_iff h).2 hnil), if_pos hnil,
      Std.ExtTreeSet.isEmpty_iff]
  · have hblank := Bool.not_eq_true _ ▸ mt (isBlankText_intercalate_iff h).1 hnil
    rw [StateSet.agrees_eq_hasAll hblank, StateSet.hasAll_iff, stateNames_intercalate h,
      if_neg hnil]

namespace Locator

/-- The query of a list of states asks for all of them, and that of the empty list for the empty
set. -/
theorem states_holds_iff {names : List String} (h : ∀ name ∈ names, IsStateName name)
    {snapshot : Snapshot} {set : StateSet}
    (hset : snapshot.get? AttrName.statesEnUs = some (.states set)) :
    ∃ p, (states names).query = .ok (.single ⟨.descendant, .wildcard, some p⟩) ∧
      ∀ place count, p.holds snapshot place count = true ↔
        if names = [] then set = ∅ else ∀ name ∈ names, name ∈ set := by
  refine ⟨.comparison (.named AttrName.statesEnUs) .eq (.text (",".intercalate names)), ?_,
    fun place count => ?_⟩
  · rw [query, textLiteral_of_not (not_hasBothQuotes_intercalate h)]
    rfl
  · rw [Predicate.holds, AttrRef.value?, hset]
    exact agrees_intercalate_iff h set

/-- Two states, of which a set has one. -/
theorem states_holds_iff_showing :
    let names := ["showing", "multi line"]
    let set : StateSet := Std.ExtTreeSet.ofList ["enabled", "showing"]
    let snapshot := Snapshot.empty.insert AttrName.statesEnUs (.states set)
    (∀ name ∈ names, IsStateName name) ∧
      snapshot.get? AttrName.statesEnUs = some (.states set) ∧
      ∃ p, (states names).query = .ok (.single ⟨.descendant, .wildcard, some p⟩) ∧
        ∀ place count, p.holds snapshot place count = true ↔
          if names = [] then set = ∅ else ∀ name ∈ names, name ∈ set := by
  intro names set snapshot
  have hnames : ∀ name ∈ names, IsStateName name := by
    have hcheck : ∀ name ∈ names, name ≠ "" ∧ Text.trim name.toList = name.toList ∧
        ',' ∉ name.toList ∧ '\x27' ∉ name.toList ∧ '"' ∉ name.toList := by decide +kernel
    intro name hname
    obtain ⟨hempty, htrim, hcomma, hapostrophe, hquote⟩ := hcheck name hname
    exact ⟨hempty, htrim, hcomma, hapostrophe, hquote⟩
  have hset : snapshot.get? AttrName.statesEnUs = some (.states set) := by decide +kernel
  exact ⟨hnames, hset, states_holds_iff hnames hset⟩

/-- No states are asked for, and a set that has one is turned down. -/
theorem not_holds_states_nil :
    let names : List String := []
    let set : StateSet := Std.ExtTreeSet.ofList ["showing"]
    let snapshot := Snapshot.empty.insert AttrName.statesEnUs (.states set)
    (∀ name ∈ names, IsStateName name) ∧
      snapshot.get? AttrName.statesEnUs = some (.states set) ∧
      ∃ p, (states names).query = .ok (.single ⟨.descendant, .wildcard, some p⟩) ∧
        ¬ (p.holds snapshot 1 1 = true ↔ ∀ name ∈ names, name ∈ set) := by
  intro names set snapshot
  have hnone {P : String → Prop} : ∀ name ∈ names, P name :=
    fun _ hname => absurd hname List.not_mem_nil
  refine ⟨hnone, by decide +kernel,
    .comparison (.named AttrName.statesEnUs) .eq (.text ""), by decide +kernel, fun hiff => ?_⟩
  exact absurd (hiff.2 hnone) (by decide +kernel)

end Locator

end AccessQuery
