/-
**The canonical text of a predicate.**

Texts are quoted with single quotes unless they contain one.  There are no escapes and no
parentheses: a text with quotes of both kinds has no form that reads back, and the grouping of a
mixed chain of `and` and `or` is not shown.

Main definitions:

* `AccessQuery.quoted` — a text with its quotes;
* `AccessQuery.AttrRef.display`, `AccessQuery.Literal.display`, `AccessQuery.Predicate.display` —
  the canonical texts.
-/

import AccessQuery.Predicate
import AccessQuery.Text.Decimal

set_option relaxedAutoImplicit false
set_option autoImplicit false

namespace AccessQuery

/-! ### The parts of a test -/

/-- The canonical text of what a test reads. -/
def AttrRef.display : AttrRef → String
  | .named name => "@" ++ name
  | .text => "text()"

/-- The sign of an operator. -/
def CompareOp.sign : CompareOp → String
  | .eq => "="
  | .notEq => "!="
  | .less => "<"
  | .lessOrEqual => "<="
  | .greater => ">"
  | .greaterOrEqual => ">="

/-- The name of a function. -/
def TextFunction.name : TextFunction → String
  | .startsWith => "starts-with"
  | .endsWith => "ends-with"
  | .contains => "contains"

/-- A text between quotes that it does not contain, if there are such quotes. -/
def quoted (s : String) : String :=
  if '\x27' ∈ s.toList then "\"" ++ s ++ "\"" else "'" ++ s ++ "'"

/-- The decimal text of a 64-bit integer. -/
def intText (n : Int64) : String :=
  String.ofList (Text.integer n.toInt)

/-- The canonical text of a literal. -/
def Literal.display : Literal → String
  | .text s => quoted s
  | .int n => intText n

/-- A literal as a text without quotes. -/
def Literal.plain : Literal → String
  | .text s => s
  | .int n => intText n

/-! ### Predicates -/

/-- The canonical text of a predicate. -/
def Predicate.display : Predicate → String
  | .comparison attr op value => attr.display ++ " " ++ op.sign ++ " " ++ value.display
  | .function func attr value => func.name ++ "(" ++ attr.display ++ ", " ++ quoted value ++ ")"
  | .position n => String.ofList (Text.natural n.toNat)
  | .last => "last()"
  | .and l r => l.display ++ " and " ++ r.display
  | .or l r => l.display ++ " or " ++ r.display

end AccessQuery
