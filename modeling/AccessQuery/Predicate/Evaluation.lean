/-
**When a predicate holds.**

A predicate is evaluated against a snapshot of the attributes of a node, its one-based place among
its siblings and their number.

* An attribute that is absent is different from everything, and passes no other test.
* Texts are equal exactly; they are ordered as integers, where both sides read as integers.
* An integer is compared with a literal that reads as one; it is different from every other.
* A set of states equals a list when every listed state is in it; a blank list stands for the empty
  set.  Sets of states have no order.

Main definitions:

* `AccessQuery.AttrRef.value?` — what a test reads;
* `AccessQuery.CompareOp.holds`, `AccessQuery.TextFunction.holds` — the two kinds of test;
* `AccessQuery.Predicate.holds` — the predicates.
-/

import AccessQuery.Predicate.Printer
import AccessQuery.Snapshot

set_option relaxedAutoImplicit false
set_option autoImplicit false

namespace AccessQuery

/-! ### Operands -/

/-- What a test reads from a snapshot. -/
def AttrRef.value? (attr : AttrRef) (snapshot : Snapshot) : Option AttrValue :=
  match attr with
  | .named name => snapshot.get? name
  | .text => snapshot.textContent?.map .text

/-- The integer that a text stands for, blanks at its ends aside. -/
def readInt? (s : String) : Option Int64 :=
  Text.readInt64? (Text.trim s.toList)

/-- The integer that a literal stands for. -/
def Literal.int? : Literal → Option Int64
  | .int n => some n
  | .text s => readInt? s

/-- Whether a text is blank throughout. -/
def isBlankText (s : String) : Bool :=
  s.toList.all Text.isBlank

/-! ### Comparisons -/

namespace CompareOp

/-- Whether the order of two integers is the one that the operator asks for. -/
def admits (op : CompareOp) (order : Ordering) : Bool :=
  match op with
  | .eq => order.isEq
  | .notEq => order.isNe
  | .less => order.isLT
  | .lessOrEqual => order.isLE
  | .greater => order.isGT
  | .greaterOrEqual => order.isGE

/-- The answer for something that equals the literal, or not, and has no order. -/
def admitsEquality (op : CompareOp) (equal : Bool) : Bool :=
  match op with
  | .eq => equal
  | .notEq => !equal
  | _ => false

end CompareOp

/-- Whether every state in a comma-separated list is in a set. -/
def StateSet.hasAll (set : StateSet) (csv : String) : Bool :=
  (stateNames csv).all set.contains

/-- Whether a set of states is the one that a comma-separated list describes. -/
def StateSet.agrees (set : StateSet) (csv : String) : Bool :=
  if isBlankText csv then set.isEmpty else StateSet.hasAll set csv

/-- Whether a value, if there is one, compares with a literal as an operator asks. -/
def CompareOp.holds (op : CompareOp) (value : Option AttrValue) (literal : Literal) : Bool :=
  match value with
  | none => op == .notEq
  | some (.int n) =>
      match literal.int? with
      | some m => op.admits (compare n m)
      | none => op == .notEq
  | some (.text s) =>
      match op with
      | .eq => s == literal.plain
      | .notEq => s != literal.plain
      | op =>
          match readInt? s, literal.int? with
          | some n, some m => op.admits (compare n m)
          | _, _ => false
  | some (.states set) => op.admitsEquality (StateSet.agrees set literal.plain)

/-! ### Text functions -/

/-- Whether a text has another somewhere in it. -/
def isWithin (needle : List Char) : List Char → Bool
  | [] => needle.isEmpty
  | c :: text => needle.isPrefixOf (c :: text) || isWithin needle text

theorem isWithin_iff {needle text : List Char} :
    isWithin needle text = true ↔ needle <:+: text := by
  induction text with
  | nil => simp [isWithin]
  | cons c text ih =>
      simp only [isWithin, Bool.or_eq_true, List.isPrefixOf_iff_prefix, ih, List.infix_cons_iff]

/-- Whether a text function holds of a text. -/
def TextFunction.holdsOf (func : TextFunction) (text needle : String) : Bool :=
  match func with
  | .startsWith => needle.toList.isPrefixOf text.toList
  | .endsWith => needle.toList.isSuffixOf text.toList
  | .contains => isWithin needle.toList text.toList

/-- Whether a text function holds of a set of states: of some member, or, to contain, of every
listed state. -/
def TextFunction.holdsOfStates (func : TextFunction) (set : StateSet) (needle : String) : Bool :=
  match func with
  | .contains => StateSet.hasAll set needle
  | func => set.toList.any fun state => func.holdsOf state needle

/-- Whether a text function holds of a value, if there is one. -/
def TextFunction.holds (func : TextFunction) (value : Option AttrValue) (needle : String) : Bool :=
  match value with
  | none => false
  | some (.int n) => func.holdsOf (intText n) needle
  | some (.text s) => func.holdsOf s needle
  | some (.states set) => func.holdsOfStates set needle

/-! ### Predicates -/

/-- Whether a predicate holds of a node with a snapshot, at a one-based place among some number of
siblings. -/
def Predicate.holds (snapshot : Snapshot) (place count : Nat) : Predicate → Bool
  | .comparison attr op value => op.holds (attr.value? snapshot) value
  | .function func attr value => func.holds (attr.value? snapshot) value
  | .position n => place == n.toNat
  | .last => place == count
  | .and l r => l.holds snapshot place count && r.holds snapshot place count
  | .or l r => l.holds snapshot place count || r.holds snapshot place count

end AccessQuery
