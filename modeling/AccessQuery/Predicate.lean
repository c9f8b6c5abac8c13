/-
**Predicates.**

A predicate filters the candidates of a step.  It compares attributes with literals, applies text
functions to them, asks for a place among the siblings, and combines such tests with `and` and
`or`.

Main definitions:

* `AccessQuery.AttrRef`, `AccessQuery.CompareOp`, `AccessQuery.TextFunction`,
  `AccessQuery.Literal` — the parts of a test;
* `AccessQuery.Predicate` — the predicates;
* `AccessQuery.Predicate.usesPosition`, `AccessQuery.Predicate.usesAttributes` — what has to be
  known to evaluate one;
* `AccessQuery.Predicate.conjuncts` — the operands of a chain of conjunctions.

Main results:

* `AccessQuery.Predicate.conjuncts_ne_nil` — there is at least one conjunct.
-/

set_option relaxedAutoImplicit false
set_option autoImplicit false

namespace AccessQuery

/-! ### The parts of a test -/

/-- What a test reads. -/
inductive AttrRef
  /-- An attribute by its name; unknown names read as absent. -/
  | named (name : String)
  /-- The text of the node: its name, or its description where the name is empty. -/
  | text
  deriving DecidableEq, Repr

/-- The comparison operators. -/
inductive CompareOp
  | eq | notEq | less | lessOrEqual | greater | greaterOrEqual
  deriving DecidableEq, Repr

/-- The functions that test a text. -/
inductive TextFunction
  | startsWith | endsWith | contains
  deriving DecidableEq, Repr

/-- The right-hand side of a comparison. -/
inductive Literal
  | text (s : String)
  | int (n : Int64)
  deriving DecidableEq

/-! ### Predicates -/

/-- A filter on the candidates of a step. -/
inductive Predicate
  | comparison (attr : AttrRef) (op : CompareOp) (value : Literal)
  | function (func : TextFunction) (attr : AttrRef) (value : String)
  /-- The one-based place among the siblings. -/
  | position (n : UInt32)
  /-- The last place among the siblings. -/
  | last
  | and (l r : Predicate)
  | or (l r : Predicate)
  deriving DecidableEq

namespace Predicate

/-- Whether the place of a node has to be known. -/
def usesPosition : Predicate → Bool
  | .position _ | .last => true
  | .and l r | .or l r => l.usesPosition || r.usesPosition
  | .comparison .. | .function .. => false

/-- Whether the attributes of a node have to be known. -/
def usesAttributes : Predicate → Bool
  | .comparison .. | .function .. => true
  | .and l r | .or l r => l.usesAttributes || r.usesAttributes
  | .position _ | .last => false

/-- The operands of a chain of conjunctions, from left to right. -/
def conjuncts : Predicate → List Predicate
  | .and l r => l.conjuncts ++ r.conjuncts
  | p => [p]

theorem conjuncts_ne_nil (p : Predicate) : p.conjuncts ≠ [] := by
  induction p with
  | and l r ihl _ => simp [conjuncts, ihl]
  | _ => simp [conjuncts]

/-- The conjunction of two filters of which each may be missing. -/
def both? : Option Predicate → Option Predicate → Option Predicate
  | some l, some r => some (.and l r)
  | some l, none => some l
  | none, r => r

end Predicate

end AccessQuery
