/-
**Reading on from the middle of a predicate.**

Whether the text of a predicate is read to its end does not depend on the tests at its beginning.
If they can be spelled they are read, and what counts is how the text goes on: behind a whole test
there is nothing more, or a word that joins it with a further text that is read to its end.

The same holds in the middle of the last test, behind a text between double quotes.  In a comparison
the test ends there; in a function a parenthesis is missing.

Main definitions:

* `AccessQuery.Scan.IsRead`, `AccessQuery.Scan.IsReadOn` — texts that are read to their ends, as
  predicates or behind a test;
* `AccessQuery.TextPlace`, `AccessQuery.TextPlace.IsReadOn` — where texts stand in a test, and what
  is read to its end behind them;
* `AccessQuery.Scan.ResumesTest`, `AccessQuery.TextPlace.Resumes` — how a text must begin there.

Main results:

* `AccessQuery.Scan.isRead_append_iff` — the tests at the beginning are passed over;
* `AccessQuery.TextPlace.isRead_comparison_iff`, `AccessQuery.TextPlace.isRead_function_iff` — so is
  the beginning of a test, up to a text;
* `AccessQuery.TextPlace.IsReadOn.resumes`, `AccessQuery.TextPlace.resumes_of_append` — what is read
  to its end begins as it must, and that shows before the first double quote.
-/

import Mathlib.Data.List.TakeWhile
import AccessQuery.Proofs.Grammar.Completeness
import AccessQuery.Proofs.Grammar.Groups
import AccessQuery.Proofs.Grammar.Predicates

set_option relaxedAutoImplicit false
set_option autoImplicit false

namespace AccessQuery

namespace Scan

open Grammar (bind_eq_some pure_eq_some)

variable {text rest : List Char}

/-! ### Behind a test -/

/-- A text is read to its end as a predicate. -/
def IsRead (text : List Char) : Prop :=
  ∃ p, predicate text = some (p, [])

/-- What is left behind a test when no further test and no further alternative is read. -/
def leftBehind (text : List Char) : List Char :=
  (manyFrom (do keyword "or"; conjunction) (manyFrom (do keyword "and"; term) text).2).2

/-- A text is read to its end behind a test. -/
def IsReadOn (text : List Char) : Prop :=
  leftBehind (text.dropWhile isGap) = []

theorem chain_eq_some {operand : Scan Predicate} {w : String}
    {join : Predicate → Predicate → Predicate} :
    (∃ p, chain operand w join text = some (p, rest)) ↔
      ∃ first middle, operand text = some (first, middle) ∧
        (manyFrom (do keyword w; operand) middle).2 = rest := by
  constructor
  · rintro ⟨p, h⟩
    obtain ⟨first, middle, hfirst, h⟩ := bind_eq_some.1 h
    obtain ⟨others, behind, hothers, h⟩ := bind_eq_some.1 h
    obtain ⟨-, rfl⟩ := pure_eq_some.1 h
    exact ⟨first, middle, hfirst, congrArg Prod.snd (Option.some.inj hothers)⟩
  · rintro ⟨first, middle, hfirst, rfl⟩
    exact ⟨_, bind_of_eq hfirst⟩

/-- A predicate begins with a test. -/
theorem isRead_iff : IsRead text ↔ ∃ t rest, term text = some (t, rest) ∧ leftBehind rest = [] := by
  rw [IsRead, predicate, chain_eq_some]
  constructor
  · rintro ⟨first, middle, hfirst, hothers⟩
    obtain ⟨t, behind, ht, rfl⟩ := chain_eq_some.1 ⟨first, hfirst⟩
    exact ⟨t, behind, ht, hothers⟩
  · rintro ⟨t, behind, ht, hothers⟩
    obtain ⟨first, hfirst⟩ := chain_eq_some.2 ⟨t, behind, ht, rfl⟩
    exact ⟨first, _, hfirst, hothers⟩

theorem isRead_of_term {t : Predicate} (h : term text = some (t, rest.dropWhile isGap)) :
    IsRead text ↔ IsReadOn rest := by
  rw [isRead_iff, h]
  constructor
  · rintro ⟨_, _, he, hrest⟩
    cases he
    exact hrest
  · exact fun hrest => ⟨_, _, rfl, hrest⟩

/-! ### Behind a word -/

theorem length_le_of_term {t : Predicate} (h : term text = some (t, rest)) :
    rest.length ≤ text.length :=
  (Grammar.test_of_read h).1.length_le Grammar.Test.length_le

theorem length_le_of_conjunction {p : Predicate} (h : conjunction text = some (p, rest)) :
    rest.length ≤ text.length :=
  (Grammar.conjunction_eq_some h).1.length_le fun h => h.length_le Grammar.Test.length_le

/-- Behind a word of a chain an item must follow. -/
theorem manyFrom_word {operand : Scan Predicate} {w : String} (hw : IsSeparator w)
    (hskip : Grammar.SkipsGap operand)
    (hlength : ∀ {text rest : List Char} {p : Predicate}, operand text = some (p, rest) →
      rest.length ≤ text.length) (text : List Char) :
    (manyFrom (do keyword w; operand) (w.toList ++ ' ' :: text)).2 =
      match operand text with
      | some (_, rest) => (manyFrom (do keyword w; operand) rest).2
      | none => w.toList ++ ' ' :: text := by
  have hread : (do keyword w; operand) (w.toList ++ ' ' :: text) = operand text := by
    rw [bind_of_eq (hw.read text), hskip]
  cases hoperand : operand text with
  | none => rw [manyFrom_of_none (hread.trans hoperand)]
  | some r =>
      obtain ⟨p, rest⟩ := r
      have hless : rest.length < (w.toList ++ ' ' :: text).length := by
        have hle := hlength hoperand
        simp only [List.length_append, List.length_cons]
        omega
      rw [manyFrom_of_eq (hread.trans hoperand) hless]

theorem leftBehind_and (text : List Char) :
    leftBehind ("and".toList ++ ' ' :: text) = [] ↔ IsRead text := by
  rw [isRead_iff, leftBehind,
    manyFrom_word isSeparator_and Grammar.skipsGap_term length_le_of_term]
  cases hterm : term text with
  | none =>
      -- without a test the word is left, and it is not the other one
      have hkeyword : keyword "or" ("and".toList ++ ' ' :: text) = none := rfl
      dsimp only
      rw [manyFrom_of_none (bind_of_none hkeyword)]
      simp
  | some r =>
      obtain ⟨t, rest⟩ := r
      simp [leftBehind]

theorem leftBehind_or (text : List Char) :
    leftBehind ("or".toList ++ ' ' :: text) = [] ↔ IsRead text := by
  have hkeyword : keyword "and" ("or".toList ++ ' ' :: text) = none := rfl
  have hskip : Grammar.SkipsGap conjunction := Grammar.skipsGap_term.chain "and" .and
  rw [IsRead, predicate, chain_eq_some, leftBehind, manyFrom_of_none (bind_of_none hkeyword)]
  dsimp only
  rw [manyFrom_word isSeparator_or hskip length_le_of_conjunction]
  cases hconjunction : conjunction text with
  | none => simp
  | some r =>
      obtain ⟨p, rest⟩ := r
      simp

/-- Tests that can be spelled are passed over, and so is the word behind them. -/
theorem isRead_append_iff {p : Predicate} (h : p.isSpellable = true) {w : String}
    (hw : w = "and" ∨ w = "or") (text : List Char) :
    IsRead (p.display.toList ++ ' ' :: (w.toList ++ ' ' :: text)) ↔ IsRead text := by
  induction p generalizing w text with
  | and l r ihl ihr =>
      obtain ⟨hl, hr⟩ := Bool.and_eq_true_iff.1 h
      have hsplit : (Predicate.and l r).display.toList ++ ' ' :: (w.toList ++ ' ' :: text) =
          l.display.toList ++ ' ' :: ("and".toList ++ ' ' ::
            (r.display.toList ++ ' ' :: (w.toList ++ ' ' :: text))) := by
        simp [Predicate.display]
      rw [hsplit, ihl hl (Or.inl rfl), ihr hr hw]
  | or l r ihl ihr =>
      obtain ⟨hl, hr⟩ := Bool.and_eq_true_iff.1 h
      have hsplit : (Predicate.or l r).display.toList ++ ' ' :: (w.toList ++ ' ' :: text) =
          l.display.toList ++ ' ' :: ("or".toList ++ ' ' ::
            (r.display.toList ++ ' ' :: (w.toList ++ ' ' :: text))) := by
        simp [Predicate.display]
      rw [hsplit, ihl hl (Or.inr rfl), ihr hr hw]
  | _ =>
      have hends : Ends (' ' :: (w.toList ++ ' ' :: text)) := by simp [Ends, isGap]
      rw [isRead_of_term (term_display rfl h hends), IsReadOn]
      rcases hw with rfl | rfl
      · exact leftBehind_and text
      · exact leftBehind_or text

/-! ### How a text begins behind a test -/

/-- The code points of the blank characters. -/
def blankPoints : List Nat :=
  List.range' 0x09 5 ++ List.range' 0x2000 11 ++
    [0x20, 0x85, 0xA0, 0x1680, 0x2028, 0x2029, 0x202F, 0x205F, 0x3000]

theorem isNameChar_of_isBlank {c : Char} (h : Text.isBlank c = true) : isNameChar c = false := by
  have hpoint : c.toNat ∈ blankPoints := by
    simp only [Text.isBlank, Bool.or_eq_true, Bool.and_eq_true, decide_eq_true_eq, beq_iff_eq] at h
    simp only [blankPoints, List.mem_append, List.mem_range'_1, List.mem_cons, List.not_mem_nil,
      or_false]
    omega
  have hall : ∀ n ∈ blankPoints, isNameChar (Char.ofNat n) = false := by decide +kernel
  rw [← Char.ofNat_toNat c]
  exact hall _ hpoint

theorem keyword_ne_none_iff {w : String} : keyword w text ≠ none ↔
    ∃ behind, text.dropWhile isGap = w.toList ++ behind ∧ Stops isNameChar behind := by
  constructor
  · intro h
    obtain ⟨⟨_, rest⟩, hread⟩ := Option.ne_none_iff_exists'.1 h
    obtain ⟨behind, hbehind, hstop, -⟩ := Grammar.keyword_eq_some hread
    exact ⟨behind, hbehind, hstop⟩
  · rintro ⟨behind, hbehind, hstop⟩
    have hword : (do word w; notBefore isNameChar) (text.dropWhile isGap) = some ((), behind) := by
      rw [hbehind, bind_of_eq (Grammar.word_append w behind), notBefore_of_stops hstop]
    rw [keyword, padded_of_eq hword]
    exact Option.some_ne_none _

/-- A word is read, whatever follows behind the text in which it stands. -/
theorem keyword_append_ne_none {w : String} (hw : w.toList ≠ []) (h : keyword w text ≠ none)
    (hrest : Stops isNameChar rest) : keyword w (text ++ rest) ≠ none := by
  obtain ⟨behind, hbehind, hstop⟩ := keyword_ne_none_iff.1 h
  refine keyword_ne_none_iff.2 ⟨behind ++ rest, ?_, ?_⟩
  · rw [List.dropWhile_append, hbehind, if_neg (by simp [hw]), List.append_assoc]
  · cases behind with
    | nil => exact hrest
    | cons c behind => exact stops_cons.2 (stops_cons.1 hstop)

theorem dropWhile_append_cons {test : Char → Bool} {c : Char} (hc : test c = false)
    (text rest : List Char) :
    (text ++ c :: rest).dropWhile test = text.dropWhile test ++ c :: rest := by
  rw [List.dropWhile_append]
  split
  · next h => rw [List.isEmpty_iff.1 h, (stops_cons.2 hc).dropWhile_eq, List.nil_append]
  · rfl

/-- A word that is read does not reach up to a character that it does not have. -/
theorem keyword_ne_none_of_append {w : String} {c : Char} (hw : c ∉ w.toList)
    (hc : isGap c = false) (h : keyword w (text ++ c :: rest) ≠ none) : keyword w text ≠ none := by
  obtain ⟨behind, hbehind, hstop⟩ := keyword_ne_none_iff.1 h
  rw [dropWhile_append_cons hc] at hbehind
  refine keyword_ne_none_iff.2 ?_
  rcases List.append_eq_append_iff.1 hbehind with ⟨more, hmore, hrest⟩ | ⟨more, hmore, hrest⟩
  · cases more with
    | nil => exact ⟨[], by rw [List.append_nil, hmore, List.append_nil], stops_nil _⟩
    | cons d more =>
        rw [List.cons_append, List.cons.injEq] at hrest
        exact absurd (by rw [hmore, hrest.1]; simp) hw
  · refine ⟨more, hmore, ?_⟩
    rw [hrest] at hstop
    cases more with
    | nil => exact stops_nil _
    | cons d more => exact stops_cons.2 (stops_cons.1 hstop)

/-- A text begins as one that stands behind a test in a group: with a bracket that closes the
group, or with a word. -/
def ResumesTest (text : List Char) : Prop :=
  (Text.trimStart text).head? = some ']' ∨ keyword "and" text ≠ none ∨ keyword "or" text ≠ none

/-- Behind a test that is read to its end stand blanks only, or one of the two words. -/
theorem IsReadOn.eq_nil_or_keyword (h : IsReadOn text) :
    text.dropWhile isGap = [] ∨ keyword "and" text ≠ none ∨ keyword "or" text ≠ none := by
  by_contra hno
  simp only [not_or, not_not] at hno
  obtain ⟨hne, hand, hor⟩ := hno
  have hskip (w : String) : keyword w (text.dropWhile isGap) = keyword w text :=
    padded_dropWhile _ text
  rw [← hskip] at hand hor
  rw [IsReadOn, leftBehind, manyFrom_of_none (bind_of_none hand),
    manyFrom_of_none (bind_of_none hor)] at h
  exact hne h

/-- A text that is read to its end behind a test, with the bracket that closes the group. -/
theorem IsReadOn.resumesTest (h : IsReadOn text) {gap : List Char} (hgap : Text.AllBlank gap)
    (rest : List Char) : ResumesTest (text ++ (gap ++ ']' :: rest)) := by
  have hstop : Stops isNameChar (gap ++ ']' :: rest) := by
    cases gap with
    | nil => exact stops_cons.2 rfl
    | cons c gap => exact stops_cons.2 (isNameChar_of_isBlank (hgap c List.mem_cons_self))
  rcases h.eq_nil_or_keyword with hnil | hand | hor
  · have hblank : Text.AllBlank text := fun c hc =>
      isBlank_of_isGap (List.dropWhile_eq_nil_iff.1 hnil c hc)
    refine Or.inl ?_
    rw [Text.trimStart_append hblank, Text.trimStart_append hgap]
    rfl
  · exact Or.inr (Or.inl (keyword_append_ne_none (by decide) hand hstop))
  · exact Or.inr (Or.inr (keyword_append_ne_none (by decide) hor hstop))

/-- How a text begins shows before the first double quote in it. -/
theorem resumesTest_of_append (h : ResumesTest (text ++ '"' :: rest)) : ResumesTest text := by
  rcases h with hclose | hand | hor
  · refine Or.inl ?_
    rw [Text.trimStart, dropWhile_append_cons (by decide)] at hclose
    rw [Text.trimStart]
    cases hstart : text.dropWhile Text.isBlank with
    | nil => simp [hstart] at hclose
    | cons c start => simpa [hstart] using hclose
  · exact Or.inr (Or.inl (keyword_ne_none_of_append (by decide) rfl hand))
  · exact Or.inr (Or.inr (keyword_ne_none_of_append (by decide) rfl hor))

end Scan

/-! ### Behind a text -/

/-- Where the texts of a predicate stand. -/
inductive TextPlace
  /-- At the end of a comparison. -/
  | comparison
  /-- Behind the comma of a function. -/
  | function
  deriving DecidableEq

namespace TextPlace

open Scan

variable {q : Char} {chars text : List Char}

/-- A text is read to its end behind the closing quote of a text. -/
def IsReadOn (place : TextPlace) (text : List Char) : Prop :=
  match place with
  | .comparison => Scan.IsReadOn text
  | .function => ∃ behind, text.dropWhile isGap = ')' :: behind ∧ Scan.IsReadOn behind

/-- Behind the closing quote, a comparison has been read. -/
theorem isRead_comparison_iff {attr : AttrRef} (ha : attr.isSpellable = true) (op : CompareOp)
    (hq : '"' ∉ chars) (text : List Char) : IsRead (attr.display.toList ++
      ' ' :: (op.sign.toList ++ ' ' :: '"' :: (chars ++ '"' :: text))) ↔
        TextPlace.comparison.IsReadOn text := by
  have hvalue : Grammar.Value ('"' :: (chars ++ '"' :: text)) (.text (String.ofList chars)) text :=
    .text (.quotation rfl hq)
  have hattr : Grammar.Attr (attr.display.toList ++
      ' ' :: (op.sign.toList ++ ' ' :: '"' :: (chars ++ '"' :: text))) attr _ :=
    Grammar.attr_eq_some (attrRef_display ha (stops_cons.2 (by decide)))
  generalize attr.display.toList ++ _ = whole at hattr ⊢
  have hbegins := hattr.begins
  have hfunction : functionValue ('"' :: (chars ++ '"' :: text)) = none :=
    bind_of_none (Grammar.functionName_of_begins hvalue.begins rfl)
  have hread : Grammar.bareTerm whole =
      some (.comparison attr op (.text (String.ofList chars)), text) := by
    rw [Grammar.bareTerm_of_begins hbegins rfl,
      orElse_of_none (Grammar.functionCall_of_begins hbegins rfl)]
    refine orElse_of_eq ?_
    rw [Grammar.comparison_read op hattr (.blank rfl .none) (.blank rfl .none) hvalue.begins rfl
      rfl, Grammar.operandOf, orElse_of_none (bind_of_none hfunction), bind_of_eq hvalue.read]
    rfl
  exact isRead_of_term (Grammar.padded_read .none (hbegins.stops rfl) hread)

/-- What begins with no digit is no place. -/
theorem position_of_stops (h : Stops Char.isDigit text) : position text = none := by
  have hrun : run Char.isDigit text = some ([], text) := run_append (List.forall_mem_nil _) h
  rw [position, place]
  exact bind_of_none (bind_of_eq hrun)

/-- What a function reads behind its text. -/
def closing (func : TextFunction) (attr : AttrRef) (value : String) : Scan Predicate := do
  char ')'
  return .function func attr value

theorem functionCall_quoted {attr : AttrRef} (ha : attr.isSpellable = true) (func : TextFunction)
    (hq : '"' ∉ chars) (text : List Char) : functionCall (func.name.toList ++ '(' ::
      (attr.display.toList ++ ',' :: ' ' :: '"' :: (chars ++ '"' :: text))) =
        closing func attr (String.ofList chars) (text.dropWhile isGap) := by
  have hattr : padded attrRef (attr.display.toList ++ ',' :: ' ' :: '"' :: (chars ++ '"' :: text)) =
      some (attr, ',' :: ' ' :: '"' :: (chars ++ '"' :: text)) :=
    padded_append (isSolidFirst_attrRef attr) (attrRef_display ha (stops_cons.2 (by decide)))
      (stops_cons.2 (by decide))
  have hstring := string_append (Or.inr rfl) hq text
  have hvalue : padded literal (' ' :: '"' :: (chars ++ '"' :: text)) =
      some (.text (String.ofList chars), text.dropWhile isGap) :=
    Grammar.padded_read (.blank rfl .none) (stops_cons.2 rfl) (orElse_of_eq (bind_of_eq hstring))
  rw [functionCall, bind_of_eq (functionName_name func _),
    bind_of_eq (padded_char (by decide) _),
    ((isSolidFirst_attrRef attr).append _).stops.dropWhile_eq, bind_of_eq hattr,
    bind_of_eq (char_cons ',' _), bind_of_eq hvalue]
  rfl

/-- Nothing else begins like a function. -/
theorem bareTerm_function (func : TextFunction) (text : List Char) :
    Grammar.bareTerm (func.name.toList ++ text) = functionCall (func.name.toList ++ text) := by
  have hbegins := Grammar.begins_functionName func text
  have hposition : position (func.name.toList ++ text) = none := by
    cases func <;> exact position_of_stops (stops_cons.2 (by decide))
  rw [Grammar.bareTerm_of_begins hbegins rfl]
  cases hcall : functionCall (func.name.toList ++ text) with
  | none =>
      rw [orElse_of_none hcall, orElse_of_none (Grammar.comparison_of_begins hbegins rfl),
        hposition]
  | some r => exact orElse_of_eq hcall

/-- Behind the closing quote, a function is read if a parenthesis follows. -/
theorem isRead_function_iff {attr : AttrRef} (ha : attr.isSpellable = true) (func : TextFunction)
    (hq : '"' ∉ chars) (text : List Char) : IsRead (func.name.toList ++ '(' ::
      (attr.display.toList ++ ',' :: ' ' :: '"' :: (chars ++ '"' :: text))) ↔
        TextPlace.function.IsReadOn text := by
  have hbare := (bareTerm_function func _).trans (functionCall_quoted ha func hq text)
  have hsolid := (Grammar.begins_functionName func
    ('(' :: (attr.display.toList ++ ',' :: ' ' :: '"' :: (chars ++ '"' :: text)))).stops rfl
  generalize func.name.toList ++ _ = whole at hbare hsolid ⊢
  by_cases hclose : ∃ behind, text.dropWhile isGap = ')' :: behind
  · obtain ⟨behind, hbehind⟩ := hclose
    rw [hbehind, closing, bind_of_eq (char_cons ')' behind)] at hbare
    rw [isRead_of_term (Grammar.padded_read .none hsolid hbare), IsReadOn, hbehind]
    simp
  · have hchar : char ')' (text.dropWhile isGap) = none := by
      cases hread : char ')' (text.dropWhile isGap) with
      | none => rfl
      | some r => exact absurd ⟨r.2, Grammar.char_eq_some hread⟩ hclose
    have hterm : term whole = none := by
      rw [Grammar.term_eq, padded, bind_of_eq (blanks_eq whole), hsolid.dropWhile_eq,
        bind_of_none (hbare.trans (bind_of_none hchar))]
    constructor
    · intro h
      obtain ⟨t, rest, ht, _⟩ := isRead_iff.1 h
      rw [hterm] at ht
      cases ht
    · rintro ⟨behind, hbehind, _⟩
      exact absurd ⟨behind, hbehind⟩ hclose

/-! ### How a text begins behind a text -/

/-- A text begins as one that stands behind the closing quote of a text in a group: in a function,
with a parenthesis. -/
def Resumes (place : TextPlace) (text : List Char) : Prop :=
  match place with
  | .comparison => ResumesTest text
  | .function => ∃ behind, text.dropWhile isGap = ')' :: behind ∧ ResumesTest behind

theorem IsReadOn.resumes {place : TextPlace} (h : place.IsReadOn text) {gap : List Char}
    (hgap : Text.AllBlank gap) (rest : List Char) :
    place.Resumes (text ++ (gap ++ ']' :: rest)) := by
  cases place with
  | comparison => exact Scan.IsReadOn.resumesTest h hgap rest
  | function =>
      obtain ⟨behind, hbehind, h⟩ := h
      refine ⟨behind ++ (gap ++ ']' :: rest), ?_, h.resumesTest hgap rest⟩
      rw [List.dropWhile_append, hbehind]
      rfl

/-- How a text begins shows before the first double quote in it. -/
theorem resumes_of_append {place : TextPlace} {rest : List Char}
    (h : place.Resumes (text ++ '"' :: rest)) : place.Resumes text := by
  cases place with
  | comparison => exact resumesTest_of_append h
  | function =>
      obtain ⟨behind, hbehind, h⟩ := h
      rw [dropWhile_append_cons (by decide)] at hbehind
      cases hstart : text.dropWhile isGap with
      | nil => simp [hstart] at hbehind
      | cons c start =>
          rw [hstart, List.cons_append, List.cons.injEq] at hbehind
          obtain ⟨rfl, rfl⟩ := hbehind
          exact ⟨start, hstart, resumesTest_of_append h⟩

end TextPlace

end AccessQuery
