/-
**The grammar of predicates.**

A derivation says what the beginning of a text stands for, and which text is left behind it.
Derivations know nothing of readers: nothing is tried in turn, and nothing is taken as far as it
goes.  What a reader settles by looking ahead stands here as a condition on the text that is left:
a word that joins predicates, and an integer literal, must not run into a further character of a
name.

Blanks may stand between any two tokens.  A name behind its sign `@`, the name of a function, a
number with its sign and a text with its quotes are single tokens.

Main definitions:

* `AccessQuery.Grammar.Gap` — blanks between tokens;
* `AccessQuery.Grammar.Attr`, `AccessQuery.Grammar.Value`, `AccessQuery.Grammar.Place` — the parts
  of a test;
* `AccessQuery.Grammar.Test` — the tests;
* `AccessQuery.Grammar.Joined` — chains, which lean to the left;
* `AccessQuery.Grammar.Derives` — the predicates that whole texts stand for.

Main results:

* `AccessQuery.Grammar.Test.length_le`, `AccessQuery.Grammar.Joined.length_le` — what is left of a
  text is no longer than the text.
-/

import AccessQuery.Proofs.Grammar.Spelling
import AccessQuery.Query.Segment

set_option relaxedAutoImplicit false
set_option autoImplicit false

namespace AccessQuery.Grammar

open Scan (Stops isGap isNameChar)

/-- Relates a text to what it begins with, and to the text that is left. -/
abbrev Reading (α : Type) := List Char → α → List Char → Prop

variable {α : Type}

/-! ### Tokens -/

/-- Blanks, or nothing, before the text that is left. -/
inductive Gap : List Char → List Char → Prop
  | none {rest : List Char} : Gap rest rest
  | blank {c : Char} {text rest : List Char} :
      isGap c = true → Gap text rest → Gap (c :: text) rest

theorem Gap.trans {text middle rest : List Char} (h : Gap text middle) (h' : Gap middle rest) :
    Gap text rest := by
  induction h with
  | none => exact h'
  | blank hc _ ih => exact .blank hc (ih h')

/-- A name with an empty pair of parentheses. -/
inductive Call (name : String) : List Char → List Char → Prop
  | call {text inside rest : List Char} :
      Gap text ('(' :: inside) → Gap inside (')' :: rest) → Call name (name.toList ++ text) rest

/-- What a test reads. -/
inductive Attr : Reading AttrRef
  | named {c : Char} {chars rest : List Char} :
      isNameStart c = true → (∀ d ∈ chars, isNameRest d = true) →
      Attr ('@' :: c :: (chars ++ rest)) (.named (String.ofList (c :: chars))) rest
  | text {text rest : List Char} : Call "text" text rest → Attr text .text rest

/-- A text between quotes of one kind, that are not in it. -/
inductive Quotation : Reading String
  | quotation {q : Char} {chars rest : List Char} :
      Segment.isQuote q = true → q ∉ chars →
      Quotation (q :: (chars ++ q :: rest)) (String.ofList chars) rest

/-- One or more digits. -/
def IsNumeral (digits : List Char) : Prop :=
  digits ≠ [] ∧ ∀ c ∈ digits, c.isDigit = true

/-- The number that digits stand for. -/
def number (digits : List Char) : Nat :=
  Nat.ofDigitChars 10 digits 0

/-- A one-based place of 32 bits, without a sign. -/
inductive Place : Reading UInt32
  | digits {digits rest : List Char} {n : UInt32} :
      IsNumeral digits → 1 ≤ n.toNat → n.toNat = number digits → Place (digits ++ rest) n rest

/-- An integer of 64 bits, with a sign or without one. -/
inductive Integer : Reading Int64
  | unsigned {digits rest : List Char} {n : Int64} :
      IsNumeral digits → n.toInt = number digits → Integer (digits ++ rest) n rest
  | plus {digits rest : List Char} {n : Int64} :
      IsNumeral digits → n.toInt = number digits → Integer ('+' :: (digits ++ rest)) n rest
  | minus {digits rest : List Char} {n : Int64} :
      IsNumeral digits → n.toInt = -number digits → Integer ('-' :: (digits ++ rest)) n rest

/-- A literal. -/
inductive Value : Reading Literal
  | text {text rest : List Char} {s : String} : Quotation text s rest → Value text (.text s) rest
  | int {text rest : List Char} {n : Int64} :
      Integer text n rest → Stops isNameChar rest → Value text (.int n) rest

/-! ### Tests -/

/-- A test. -/
inductive Test : Reading Predicate
  | last {text rest : List Char} : Call "last" text rest → Test text .last rest
  | position {text t₁ t₂ t₃ rest : List Char} {n : UInt32} :
      Call "position" text t₁ → Gap t₁ ('=' :: t₂) → Gap t₂ t₃ → Place t₃ n rest →
      Test text (.position n) rest
  | place {text rest : List Char} {n : UInt32} : Place text n rest → Test text (.position n) rest
  /-- An attribute and a literal, of which the text counts. -/
  | function {func : TextFunction} {attr : AttrRef} {value : Literal}
      {t₁ t₂ t₃ t₄ t₅ t₆ t₇ rest : List Char} :
      Gap t₁ ('(' :: t₂) → Gap t₂ t₃ → Attr t₃ attr t₄ → Gap t₄ (',' :: t₅) → Gap t₅ t₆ →
      Value t₆ value t₇ → Gap t₇ (')' :: rest) →
      Test (func.name.toList ++ t₁) (.function func attr value.plain) rest
  | comparison {attr : AttrRef} {op : CompareOp} {value : Literal}
      {text t₁ t₂ t₃ rest : List Char} :
      Attr text attr t₁ → Gap t₁ (op.sign.toList ++ t₂) → Gap t₂ t₃ → Value t₃ value rest →
      Test text (.comparison attr op value) rest
  /-- A function of a text in the place of a value, behind an equals sign. -/
  | functionValue {attr : AttrRef} {func : TextFunction} {s : String}
      {text t₁ t₂ t₃ t₄ t₅ t₆ rest : List Char} :
      Attr text attr t₁ → Gap t₁ ('=' :: t₂) → Gap t₂ (func.name.toList ++ t₃) →
      Gap t₃ ('(' :: t₄) → Gap t₄ t₅ → Quotation t₅ s t₆ → Gap t₆ (')' :: rest) →
      Test text (.function func attr s) rest

/-! ### Chains -/

/-- Something with blanks around it. -/
inductive Padded (Item : Reading α) : Reading α
  | padded {a : α} {text inside outside rest : List Char} :
      Gap text inside → Item inside a outside → Gap outside rest → Padded Item text a rest

/-- Items with a word between them, joined from the left.  The word does not run into a further
character of a name. -/
inductive Joined (Item : Reading Predicate) (word : String)
    (join : Predicate → Predicate → Predicate) : Reading Predicate
  | one {text rest : List Char} {p : Predicate} :
      Item text p rest → Joined Item word join text p rest
  | more {text behind rest : List Char} {l r : Predicate} :
      Joined Item word join text l (word.toList ++ behind) → Stops isNameChar behind →
      Item behind r rest → Joined Item word join text (join l r) rest

/-- Tests joined by `and`. -/
def Conjunction : Reading Predicate :=
  Joined (Padded Test) "and" .and

/-- Conjunctions joined by `or`. -/
def Disjunction : Reading Predicate :=
  Joined Conjunction "or" .or

/-- A text in full stands for a predicate. -/
def Derives (text : List Char) (p : Predicate) : Prop :=
  Disjunction text p []

/-! ### What is left -/

variable {text rest : List Char}

theorem Gap.length_le (h : Gap text rest) : rest.length ≤ text.length := by
  induction h with
  | none => exact Nat.le_refl _
  | blank _ _ ih => exact Nat.le_succ_of_le ih

theorem Call.length_le {name : String} (h : Call name text rest) :
    rest.length ≤ text.length := by
  cases h with
  | call hopen hclose =>
      have := hopen.length_le
      have := hclose.length_le
      simp only [List.length_append, List.length_cons] at *
      omega

theorem Attr.length_le {attr : AttrRef} (h : Attr text attr rest) :
    rest.length ≤ text.length := by
  cases h with
  | named _ _ => simp; omega
  | text hcall => exact hcall.length_le

theorem Quotation.length_le {s : String} (h : Quotation text s rest) :
    rest.length ≤ text.length := by
  cases h with
  | quotation _ _ => simp; omega

theorem Place.length_le {n : UInt32} (h : Place text n rest) : rest.length ≤ text.length := by
  cases h with
  | digits _ _ _ => simp

theorem Integer.length_le {n : Int64} (h : Integer text n rest) : rest.length ≤ text.length := by
  cases h with
  | unsigned _ _ => simp
  | plus _ _ | minus _ _ => simp; omega

theorem Value.length_le {value : Literal} (h : Value text value rest) :
    rest.length ≤ text.length := by
  cases h with
  | text hs => exact hs.length_le
  | int hn _ => exact hn.length_le

theorem Test.length_le {t : Predicate} (h : Test text t rest) : rest.length ≤ text.length := by
  cases h with
  | last hcall => exact hcall.length_le
  | position hcall hsign hgap hn =>
      have hcall := hcall.length_le
      have hsign := hsign.length_le
      have hn := Nat.le_trans hn.length_le hgap.length_le
      rw [List.length_cons] at hsign
      omega
  | place hn => exact hn.length_le
  | function hopen hgap hattr hcomma hgap' hvalue hclose =>
      have hopen := hopen.length_le
      have hattr := Nat.le_trans hattr.length_le hgap.length_le
      have hcomma := hcomma.length_le
      have hvalue := Nat.le_trans hvalue.length_le hgap'.length_le
      have hclose := hclose.length_le
      simp only [List.length_append, List.length_cons] at *
      omega
  | comparison hattr hop hgap hvalue =>
      have hattr := hattr.length_le
      have hop := hop.length_le
      have hvalue := Nat.le_trans hvalue.length_le hgap.length_le
      rw [List.length_append] at hop
      omega
  | functionValue hattr hop hgap hopen hgap' hs hclose =>
      have hattr := hattr.length_le
      have hop := hop.length_le
      have hfunc := hgap.length_le
      have hopen := hopen.length_le
      have hs := Nat.le_trans hs.length_le hgap'.length_le
      have hclose := hclose.length_le
      simp only [List.length_append, List.length_cons] at *
      omega

theorem Padded.length_le {Item : Reading α} {a : α}
    (hitem : ∀ {text rest : List Char} {a : α}, Item text a rest → rest.length ≤ text.length)
    (h : Padded Item text a rest) : rest.length ≤ text.length := by
  cases h with
  | padded hbefore ha hbehind =>
      exact Nat.le_trans hbehind.length_le (Nat.le_trans (hitem ha) hbefore.length_le)

theorem Joined.length_le {Item : Reading Predicate} {w : String}
    {join : Predicate → Predicate → Predicate} {q : Predicate}
    (hitem : ∀ {text rest : List Char} {p : Predicate}, Item text p rest →
      rest.length ≤ text.length)
    (h : Joined Item w join text q rest) : rest.length ≤ text.length := by
  induction h with
  | one hp => exact hitem hp
  | more _ _ hr ih =>
      have hr := hitem hr
      rw [List.length_append] at ih
      omega

end AccessQuery.Grammar
