/-
**Reading predicates.**

The grammar, loosest binding first; it has no parentheses:

    predicate   ::=  conjunction ("or" conjunction)*
    conjunction ::=  term ("and" term)*
    term        ::=  "last()" | "position()" "=" DIGITS | function | comparison | DIGITS
    function    ::=  ("starts-with" | "ends-with" | "contains") "(" attr "," literal ")"
    comparison  ::=  attr OP literal | attr "=" FUNCTION "(" STRING ")"
    attr        ::=  "@" NAME | "text()"
    literal     ::=  STRING | INTEGER

Chains lean to the left.  Blanks may stand around the tokens.  The words `and` and `or` and an
integer literal must not run into a further name character.

Main definitions:

* `AccessQuery.Scan` — readers of a piece of text, which hand on the rest of it;
* `AccessQuery.Scan.predicate` — the grammar;
* `AccessQuery.Predicate.read?` — the predicate of a text, or none if the text is blank.
-/

import AccessQuery.Predicate.Printer
import AccessQuery.Query.Error
import AccessQuery.Text.Blank
import AccessQuery.Text.Letter

set_option relaxedAutoImplicit false
set_option autoImplicit false

namespace AccessQuery

/-- A reader of a piece of text: what it stands for and the rest of the text, or nothing. -/
abbrev Scan := StateT (List Char) Option

namespace Scan

variable {α : Type}

/-! ### Characters and tokens -/

/-- One character that passes a test. -/
def satisfy (test : Char → Bool) : Scan Char
  | c :: rest => if test c then some (c, rest) else none
  | [] => none

/-- The longest run of characters that pass a test. -/
def run (test : Char → Bool) : Scan (List Char) := fun text =>
  some (text.takeWhile test, text.dropWhile test)

/-- One given character. -/
def char (c : Char) : Scan Unit := do
  let _ ← satisfy (· == c)

/-- A given word. -/
def word (w : String) : Scan Unit := fun text =>
  if w.toList.isPrefixOf text then some ((), text.drop w.toList.length) else none

/-- Succeeds where the text is at its end or the next character does not pass a test. -/
def notBefore (test : Char → Bool) : Scan Unit
  | c :: rest => if test c then none else some ((), c :: rest)
  | [] => some ((), [])

/-- The characters that may stand between tokens. -/
def isGap (c : Char) : Bool :=
  c == ' ' || c == '\t' || c == '\r' || c == '\n'

/-- Blanks, if there are any. -/
def blanks : Scan Unit := do
  let _ ← run isGap

/-- Something with blanks around it. -/
def padded (p : Scan α) : Scan α := do
  blanks
  let a ← p
  blanks
  return a

/-- The items that a reader finds one after another, each of them not empty. -/
def manyFrom (p : Scan α) (text : List Char) : List α × List Char :=
  match p text with
  | none => ([], text)
  | some (a, rest) =>
      if rest.length < text.length then
        let others := manyFrom p rest
        (a :: others.1, others.2)
      else ([], text)
termination_by text.length

/-- Any number of items. -/
def many (p : Scan α) : Scan (List α) := fun text =>
  some (manyFrom p text)

/-! ### Names, words and numbers -/

/-- The characters that a word of the grammar must not run into. -/
def isNameChar (c : Char) : Bool :=
  Text.isAlphanumeric c || c == '_' || c == '-'

/-- One of the words that join predicates. -/
def keyword (w : String) : Scan Unit :=
  padded do
    word w
    notBefore isNameChar

/-- A name with an empty pair of parentheses. -/
def emptyCall (name : String) : Scan Unit := do
  word name
  padded (char '(')
  char ')'

/-- The name of an attribute. -/
def attributeName : Scan String := do
  let first ← satisfy fun c => Text.isAlphabetic c || c == '_'
  let rest ← run fun c => Text.isAlphanumeric c || c == '_'
  return String.ofList (first :: rest)

/-- What a test reads. -/
def attrRef : Scan AttrRef :=
  (do char '@'; return .named (← attributeName)) <|> (do emptyCall "text"; return .text)

/-- A one-based place. -/
def place : Scan UInt32 := do
  let digits ← run Char.isDigit
  match Text.readNatural? digits with
  | some n => if 1 ≤ n ∧ n < UInt32.size then return UInt32.ofNat n else failure
  | none => failure

/-- A sign, if there is one. -/
def sign : Scan (List Char)
  | '+' :: rest => some (['+'], rest)
  | '-' :: rest => some (['-'], rest)
  | text => some ([], text)

/-- A signed integer of 64 bits. -/
def integer : Scan Int64 := do
  let s ← sign
  let digits ← run Char.isDigit
  match Text.readInt64? (s ++ digits) with
  | some n => return n
  | none => failure

/-- A text between quotes of one kind. -/
def between (q : Char) : Scan String := do
  char q
  let s ← run (· != q)
  char q
  return String.ofList s

/-- A text between quotes. -/
def string : Scan String :=
  between '\x27' <|> between '"'

/-- A literal. -/
def literal : Scan Literal :=
  (do return .text (← string)) <|>
  (do
    let n ← integer
    notBefore isNameChar
    return .int n)

/-- A comparison operator. -/
def compareOp : Scan CompareOp :=
  (do word "!="; return .notEq) <|>
  (do word "<="; return .lessOrEqual) <|>
  (do word ">="; return .greaterOrEqual) <|>
  (do word "="; return .eq) <|>
  (do word "<"; return .less) <|>
  (do word ">"; return .greater)

/-- The name of a text function. -/
def functionName : Scan TextFunction :=
  (do word "starts-with"; return .startsWith) <|>
  (do word "ends-with"; return .endsWith) <|>
  (do word "contains"; return .contains)

/-! ### Terms -/

/-- The last place. -/
def lastCall : Scan Predicate := do
  emptyCall "last"
  return .last

/-- A place, spelled as a comparison. -/
def positionCall : Scan Predicate := do
  emptyCall "position"
  padded (char '=')
  return .position (← place)

/-- A text function of an attribute and a literal. -/
def functionCall : Scan Predicate := do
  let func ← functionName
  padded (char '(')
  let attr ← padded attrRef
  char ','
  let value ← padded literal
  char ')'
  return .function func attr value.plain

/-- A text function in the place of a value. -/
def functionValue : Scan (TextFunction × String) := do
  let func ← functionName
  padded (char '(')
  let value ← string
  padded (char ')')
  return (func, value)

/-- A comparison; a text function in the place of the value needs an equals sign. -/
def comparison : Scan Predicate := do
  let attr ← attrRef
  blanks
  let op ← padded compareOp
  (do
    let (func, value) ← functionValue
    -- No literal starts like a function, so nothing else is tried for other operators.
    if op = .eq then return .function func attr value else failure) <|>
  (do return .comparison attr op (← literal))

/-- A place, spelled as a number. -/
def position : Scan Predicate := do
  return .position (← place)

/-- A test. -/
def term : Scan Predicate :=
  padded (lastCall <|> positionCall <|> functionCall <|> comparison <|> position)

/-! ### Chains -/

/-- Operands with a word between them, joined from the left. -/
def chain (operand : Scan Predicate) (w : String)
    (join : Predicate → Predicate → Predicate) : Scan Predicate := do
  let first ← operand
  let others ← many do
    keyword w
    operand
  return others.foldl join first

/-- Tests joined by `and`. -/
def conjunction : Scan Predicate :=
  chain term "and" .and

/-- Conjunctions joined by `or`. -/
def predicate : Scan Predicate :=
  chain conjunction "or" .or

end Scan

/-- The predicate of a text, or none if the text is blank. -/
def Predicate.read? (raw : String) : Except QueryError (Option Predicate) :=
  match Text.trim raw.toList with
  | [] => .ok none
  | text =>
      match Scan.predicate text with
      | some (p, []) => .ok (some p)
      | _ => .error (.invalidPredicate raw)

end AccessQuery
