/-
**What can be spelled.**

Not everything that can be assembled can be written down.  The name of an attribute is a word, a
text has quotes of one kind at most, and places count from one.  What is read always can be written
down again, and what has been read as one predicate is joined from the left.

Main definitions:

* `AccessQuery.AttrRef.isSpellable`, `AccessQuery.Predicate.isSpellable` — what can be spelled;
* `AccessQuery.HasBothQuotes` — texts that cannot be quoted.

Main results:

* `AccessQuery.Scan.yields_predicate` — what is read as a predicate can be spelled, and is not
  changed by regrouping.
-/

import AccessQuery.Proofs.Grammar.Chains
import AccessQuery.Proofs.Grammar.Scan

set_option relaxedAutoImplicit false
set_option autoImplicit false

namespace AccessQuery

/-! ### The parts of a predicate -/

/-- The characters that a name may begin with. -/
def isNameStart (c : Char) : Bool :=
  Text.isAlphabetic c || c == '_'

/-- The characters that a name may go on with. -/
def isNameRest (c : Char) : Bool :=
  Text.isAlphanumeric c || c == '_'

/-- A text without quotes of one of the two kinds can be quoted. -/
def isQuotable (s : List Char) : Bool :=
  !(s.contains '\x27' && s.contains '"')

/-- A text with quotes of both kinds. -/
def HasBothQuotes (s : String) : Prop :=
  '\x27' ∈ s.toList ∧ '"' ∈ s.toList

theorem isQuotable_iff {s : String} : isQuotable s.toList = true ↔ ¬ HasBothQuotes s := by
  simp [isQuotable, HasBothQuotes, imp_iff_not_or]

/-- What a test reads can be spelled. -/
def AttrRef.isSpellable : AttrRef → Bool
  | .named name =>
      match name.toList with
      | [] => false
      | c :: rest => isNameStart c && rest.all isNameRest
  | .text => true

/-- A literal can be spelled. -/
def Literal.isSpellable : Literal → Bool
  | .text s => isQuotable s.toList
  | .int _ => true

/-- A predicate can be spelled. -/
def Predicate.isSpellable : Predicate → Bool
  | .comparison attr _ value => attr.isSpellable && value.isSpellable
  | .function _ attr value => attr.isSpellable && isQuotable value.toList
  | .position n => decide (1 ≤ n.toNat)
  | .last => true
  | .and l r | .or l r => l.isSpellable && r.isSpellable

/-- The tests of a predicate that can be spelled can be spelled. -/
theorem Predicate.isSpellable_of_mem_alternatives {p t : Predicate} (hp : p.isSpellable = true)
    (ht : t ∈ p.alternatives.flatten) : t.isTerm = true ∧ t.isSpellable = true :=
  of_mem_flatten_alternatives (P := fun p => p.isSpellable = true) hp
    (fun l r h => by simpa [isSpellable] using h) (fun l r h => by simpa [isSpellable] using h) ht

/-- So can its conjuncts. -/
theorem Predicate.isSpellable_of_mem_conjuncts {p c : Predicate} (hp : p.isSpellable = true)
    (hc : c ∈ p.conjuncts) : c.isSpellable = true := by
  induction p with
  | and l r ihl ihr =>
      obtain ⟨hl, hr⟩ := Bool.and_eq_true_iff.1 hp
      exact (List.mem_append.1 hc).elim (ihl hl) (ihr hr)
  | _ => exact List.mem_singleton.1 hc ▸ hp

theorem isQuotable_of_notMem {q : Char} (hq : q = '\x27' ∨ q = '"') {s : List Char}
    (h : q ∉ s) : isQuotable s = true := by
  rcases hq with rfl | rfl <;> simp [isQuotable, h]

/-- Numbers have no quotes. -/
theorem isQuotable_intText (n : Int64) : isQuotable (intText n).toList = true := by
  refine isQuotable_of_notMem (Or.inl rfl) ?_
  rw [intText, String.toList_ofList]
  cases n.toInt with
  | ofNat m => exact fun h => absurd (Text.isDigit_of_mem_natural h) (by decide)
  | negSucc m =>
      intro h
      rcases List.mem_cons.1 h with h | h
      · cases h
      · exact absurd (Text.isDigit_of_mem_natural h) (by decide)

theorem Literal.isQuotable_plain {value : Literal} (h : value.isSpellable = true) :
    isQuotable value.plain.toList = true := by
  cases value with
  | text s => exact h
  | int n => exact isQuotable_intText n

namespace Scan

/-! ### What is read -/

theorem yields_attributeName :
    Yields attributeName fun name => (AttrRef.named name).isSpellable = true := by
  refine (Yields.satisfy _).bind fun first hfirst => (Yields.run _).bind fun rest hrest => ?_
  refine Yields.pure ?_
  rw [AttrRef.isSpellable, String.toList_ofList]
  exact Bool.and_eq_true_iff.2 ⟨hfirst, List.all_eq_true.2 hrest⟩

theorem yields_attrRef : Yields attrRef fun attr => attr.isSpellable = true := by
  refine Yields.orElse (Yields.after fun _ => ?_) (Yields.after fun _ => Yields.pure rfl)
  exact yields_attributeName.bind fun name h => Yields.pure h

theorem yields_between {q : Char} (hq : q = '\x27' ∨ q = '"') :
    Yields (between q) fun s => isQuotable s.toList = true := by
  refine Yields.after fun _ => (Yields.run _).bind fun s hs => Yields.after fun _ => ?_
  refine Yields.pure ?_
  rw [String.toList_ofList]
  exact isQuotable_of_notMem hq fun h => by simpa using hs q h

theorem yields_string : Yields string fun s => isQuotable s.toList = true :=
  (yields_between (Or.inl rfl)).orElse (yields_between (Or.inr rfl))

theorem yields_literal : Yields literal fun value => value.isSpellable = true := by
  refine Yields.orElse (yields_string.bind fun s h => Yields.pure h) (Yields.after fun n => ?_)
  exact Yields.after fun _ => Yields.pure rfl

theorem yields_place : Yields place fun n => (Predicate.position n).isSpellable = true := by
  refine Yields.after fun digits => ?_
  split
  · next n _ =>
      split
      · next hn =>
          refine Yields.pure ?_
          simp [Predicate.isSpellable, Nat.mod_eq_of_lt hn.2, hn.1]
      · exact Yields.failure
  · exact Yields.failure

/-- A test that can be spelled. -/
theorem yields_term : Yields term fun t => t.isTerm = true ∧ t.isSpellable = true := by
  have hlast : Yields lastCall fun t => t.isTerm = true ∧ t.isSpellable = true :=
    Yields.after fun _ => Yields.pure ⟨rfl, rfl⟩
  have hplace : Yields positionCall fun t => t.isTerm = true ∧ t.isSpellable = true :=
    Yields.after fun _ => Yields.after fun _ =>
      yields_place.bind fun n hn => Yields.pure ⟨rfl, hn⟩
  have hnumber : Yields position fun t => t.isTerm = true ∧ t.isSpellable = true :=
    yields_place.bind fun n hn => Yields.pure ⟨rfl, hn⟩
  have hfunction : Yields functionCall fun t => t.isTerm = true ∧ t.isSpellable = true := by
    refine Yields.after fun func => Yields.after fun _ => ?_
    refine yields_attrRef.padded.bind fun attr ha => Yields.after fun _ => ?_
    refine yields_literal.padded.bind fun value hv => Yields.after fun _ => Yields.pure ⟨rfl, ?_⟩
    exact Bool.and_eq_true_iff.2 ⟨ha, Literal.isQuotable_plain hv⟩
  have hvalue : Yields functionValue fun r => isQuotable r.2.toList = true := by
    refine Yields.after fun func => Yields.after fun _ => ?_
    exact yields_string.bind fun s hs => Yields.after fun _ => Yields.pure hs
  have hcomparison : Yields comparison fun t => t.isTerm = true ∧ t.isSpellable = true := by
    refine yields_attrRef.bind fun attr ha => Yields.after fun _ => Yields.after fun op => ?_
    refine Yields.orElse (hvalue.bind fun r hr => ?_) (yields_literal.bind fun value hv => ?_)
    · dsimp only
      split
      · exact Yields.pure ⟨rfl, Bool.and_eq_true_iff.2 ⟨ha, hr⟩⟩
      · exact Yields.failure
    · exact Yields.pure ⟨rfl, Bool.and_eq_true_iff.2 ⟨ha, hv⟩⟩
  exact (hlast.orElse (hplace.orElse (hfunction.orElse (hcomparison.orElse hnumber)))).padded

/-- A conjunction of tests, joined from the left. -/
theorem yields_conjunction : Yields conjunction fun p =>
    (p.regroup = p ∧ p.alternatives.others = []) ∧ p.isSpellable = true := by
  refine (yields_term.chain "and" .and).mono ?_
  rintro _ ⟨first, others, hfirst, hothers, rfl⟩
  induction others using List.reverseRecOn with
  | nil =>
      refine ⟨⟨Predicate.regroup_of_isTerm hfirst.1, ?_⟩, hfirst.2⟩
      rw [List.foldl_nil, Predicate.alternatives_of_isTerm hfirst.1]
  | append_singleton others t ih =>
      have ht := hothers t (by simp)
      obtain ⟨⟨hregroup, hsingle⟩, hspell⟩ := ih fun p hp => hothers p (List.mem_append_left _ hp)
      rw [List.foldl_append]
      exact ⟨Predicate.regroup_and hregroup hsingle ht.1, Bool.and_eq_true_iff.2 ⟨hspell, ht.2⟩⟩

/-- What is read as a predicate can be spelled, and is not changed by regrouping. -/
theorem yields_predicate :
    Yields predicate fun p => p.regroup = p ∧ p.isSpellable = true := by
  refine (yields_conjunction.chain "or" .or).mono ?_
  rintro _ ⟨first, others, hfirst, hothers, rfl⟩
  induction others using List.reverseRecOn with
  | nil => exact ⟨hfirst.1.1, hfirst.2⟩
  | append_singleton others p ih =>
      have hp := hothers p (by simp)
      obtain ⟨hregroup, hspell⟩ := ih fun p hp => hothers p (List.mem_append_left _ hp)
      rw [List.foldl_append]
      exact ⟨Predicate.regroup_or hregroup hp.1.1 hp.1.2, Bool.and_eq_true_iff.2 ⟨hspell, hp.2⟩⟩

end Scan

end AccessQuery
