/-
**The comparison operators as one family.**

Inequality denies equality, whatever is compared with whatever.  The four operators of order need
two integers: the attribute has to be one, or a text that reads as one, and so has the literal.
They are then the order of the two integers, its converse, and the denials of these; without two
integers none of them holds.

Main definitions:

* `AccessQuery.AttrValue.integer?` — the integer that a value reads as.

Main results:

* `AccessQuery.CompareOp.holds_notEq` — inequality denies equality;
* `AccessQuery.CompareOp.holds_of_isOrdering` — an operator of order looks at two integers only;
* `AccessQuery.CompareOp.holds_eq_int` — integers are equal to literals that read as them;
* `AccessQuery.Predicate.comparison_consistent` — the laws together.
-/

import AccessQuery.Predicate.Evaluation

set_option relaxedAutoImplicit false
set_option autoImplicit false

namespace AccessQuery

/-! ### Operands -/

/-- The integer that a value reads as: the integer that it is, or that it is the text of. -/
def AttrValue.integer? : AttrValue → Option Int64
  | .int n => some n
  | .text s => readInt? s
  | .states _ => none

/-- Integers in 64 bits are compared as the integers that they stand for. -/
theorem compare_int64 (n m : Int64) : compare n m = compare n.toInt m.toInt := by
  change compareOfLessAndEq n m = compareOfLessAndEq n.toInt m.toInt
  simp [compareOfLessAndEq, Int64.lt_iff_toInt_lt, Int64.toInt_inj]

namespace CompareOp

variable {value : Option AttrValue} {literal : Literal}

/-! ### Equality -/

theorem admits_notEq (order : Ordering) : notEq.admits order = !eq.admits order := by
  cases order <;> rfl

theorem holds_notEq (value : Option AttrValue) (literal : Literal) :
    notEq.holds value literal = !eq.holds value literal := by
  cases value with
  | none => rfl
  | some value =>
      cases value with
      | int n =>
          simp only [holds]
          cases literal.int? with
          | none => rfl
          | some m => exact admits_notEq (compare n m)
      | text s => rfl
      | states set => rfl

theorem holds_eq_int {n m : Int64} (h : literal.int? = some m) :
    eq.holds (some (.int n)) literal = decide (n.toInt = m.toInt) := by
  simp only [holds, h, admits, compare_int64]
  rw [Bool.eq_iff_iff, Ordering.isEq_iff_eq_eq, decide_eq_true_iff]
  exact Int.compare_eq_eq

/-! ### Order -/

/-- The operators that ask for an order. -/
def isOrdering : CompareOp → Bool
  | .eq | .notEq => false
  | .less | .lessOrEqual | .greater | .greaterOrEqual => true

/-- The answer of an operator of order, where there are two integers to look at. -/
def admitsBetween (op : CompareOp) : Option Int64 → Option Int64 → Bool
  | some n, some m => op.admits (compare n m)
  | _, _ => false

theorem holds_of_isOrdering {op : CompareOp} (h : op.isOrdering = true)
    (value : Option AttrValue) (literal : Literal) :
    op.holds value literal =
      op.admitsBetween (value.bind AttrValue.integer?) literal.int? := by
  have hne : (op == .notEq) = false := by cases op <;> first | rfl | cases h
  cases value with
  | none => exact hne
  | some value =>
      cases value with
      | int n =>
          simp only [holds, Option.bind_some, AttrValue.integer?]
          cases literal.int? with
          | none => exact hne
          | some m => rfl
      | text s =>
          -- texts have an equality of their own, which the operators of order do not use
          cases op with
          | eq | notEq => cases h
          | less | lessOrEqual | greater | greaterOrEqual =>
              simp only [holds, Option.bind_some, AttrValue.integer?]
              cases readInt? s <;> cases literal.int? <;> rfl
      | states set => cases op <;> first | rfl | cases h

theorem admits_less (n m : Int64) : less.admits (compare n m) = decide (n.toInt < m.toInt) := by
  rw [admits, compare_int64, Bool.eq_iff_iff, Ordering.isLT_iff_eq_lt, decide_eq_true_iff]
  exact Int.compare_eq_lt

theorem admits_greater (n m : Int64) :
    greater.admits (compare n m) = decide (m.toInt < n.toInt) := by
  rw [admits, compare_int64, Bool.eq_iff_iff, Ordering.isGT_iff_eq_gt, decide_eq_true_iff]
  exact Int.compare_eq_gt

theorem admits_lessOrEqual (order : Ordering) :
    lessOrEqual.admits order = !greater.admits order := by
  cases order <;> rfl

theorem admits_greaterOrEqual (order : Ordering) :
    greaterOrEqual.admits order = !less.admits order := by
  cases order <;> rfl

end CompareOp

/-- The six operators agree with one another, and with the order of the integers. -/
theorem Predicate.comparison_consistent (attr : AttrRef) (literal : Literal) (snapshot : Snapshot)
    (place count : Nat) :
    let test (op : CompareOp) := (Predicate.comparison attr op literal).holds snapshot place count
    test .notEq = !test .eq ∧
      (match (attr.value? snapshot).bind AttrValue.integer?, literal.int? with
        | some n, some m =>
            test .less = decide (n.toInt < m.toInt) ∧ test .greater = decide (m.toInt < n.toInt) ∧
              test .lessOrEqual = !test .greater ∧ test .greaterOrEqual = !test .less
        | _, _ =>
            test .less = false ∧ test .greater = false ∧ test .lessOrEqual = false ∧
              test .greaterOrEqual = false) ∧
      ∀ n m, attr.value? snapshot = some (.int n) → literal.int? = some m →
        test .eq = decide (n.toInt = m.toInt) := by
  intro test
  refine ⟨CompareOp.holds_notEq _ _, ?_, ?_⟩
  · have htest (op : CompareOp) (h : op.isOrdering = true) :
        test op = op.admitsBetween ((attr.value? snapshot).bind AttrValue.integer?) literal.int? :=
      CompareOp.holds_of_isOrdering h _ _
    rw [htest .less rfl, htest .greater rfl, htest .lessOrEqual rfl, htest .greaterOrEqual rfl]
    cases (attr.value? snapshot).bind AttrValue.integer? with
    | none => exact ⟨rfl, rfl, rfl, rfl⟩
    | some n =>
        cases literal.int? with
        | none => exact ⟨rfl, rfl, rfl, rfl⟩
        | some m =>
            exact ⟨CompareOp.admits_less n m, CompareOp.admits_greater n m,
              CompareOp.admits_lessOrEqual _, CompareOp.admits_greaterOrEqual _⟩
  · intro n m hn hm
    change CompareOp.eq.holds (attr.value? snapshot) literal = _
    rw [hn]
    exact CompareOp.holds_eq_int hm

/-- A depth that is a number, and a literal that reads as another. -/
theorem Predicate.comparison_consistent_depth :
    let snapshot := Snapshot.empty.insert "objectDepth" (.int 3)
    let test (op : CompareOp) :=
      (Predicate.comparison (.named "objectDepth") op (.text " 5 ")).holds snapshot 1 1
    (AttrRef.named "objectDepth").value? snapshot = some (.int 3) ∧
      (Literal.text " 5 ").int? = some 5 ∧
      test .notEq = !test .eq ∧ test .eq = decide ((3 : Int64).toInt = (5 : Int64).toInt) := by
  intro snapshot test
  have hvalue : (AttrRef.named "objectDepth").value? snapshot = some (.int 3) := by
    decide +kernel
  have hliteral : (Literal.text " 5 ").int? = some 5 := by decide +kernel
  obtain ⟨hnotEq, -, heq⟩ :=
    comparison_consistent (.named "objectDepth") (.text " 5 ") snapshot 1 1
  exact ⟨hvalue, hliteral, hnotEq, heq 3 5 hvalue hliteral⟩

end AccessQuery
