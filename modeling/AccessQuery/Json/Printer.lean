/-
**Writing JSON text.**

Two layouts: one line without blanks, and an indented one with each item and member on a line of
its own.  A character is escaped only where it must be, and containers without content take no
second line.

Main definitions:

* `AccessQuery.Json.quote` — a string with its quotes;
* `AccessQuery.Json.compact`, `AccessQuery.Json.pretty` — the two layouts.
-/

import AccessQuery.Json

set_option relaxedAutoImplicit false
set_option autoImplicit false

namespace AccessQuery.Json

/-! ### Strings -/

/-- A 16-bit unit as four hexadecimal digits after a backslash and a letter. -/
def escapedUnit (unit : Nat) : List Char :=
  let digits := Nat.toDigits 16 unit
  '\\' :: 'u' :: (List.replicate (4 - digits.length) '0' ++ digits)

/-- A code point as it stands between quotes. -/
def CodePoint.escape : CodePoint → List Char
  | .char '"' => ['\\', '"']
  | .char '\\' => ['\\', '\\']
  | .char '\x08' => ['\\', 'b']
  | .char '\x0c' => ['\\', 'f']
  | .char '\n' => ['\\', 'n']
  | .char '\r' => ['\\', 'r']
  | .char '\t' => ['\\', 't']
  | .char c => if c.toNat < 0x20 then escapedUnit c.toNat else [c]
  | .surrogate code => escapedUnit code

/-- A string with its quotes. -/
def quote (s : List CodePoint) : String :=
  String.ofList ('"' :: s.flatMap CodePoint.escape ++ ['"'])

/-! ### One line -/

mutual

/-- The text of a value on one line. -/
def compact : Json → String
  | .null => "null"
  | .bool b => if b then "true" else "false"
  | .integer n => String.ofList (Text.integer n)
  | .decimal spelling => String.ofList spelling
  | .string s => quote s
  | .array items => "[" ++ ",".intercalate (compactItems items) ++ "]"
  | .object members => "\x7b" ++ ",".intercalate (compactMembers members) ++ "\x7d"

/-- The texts of items. -/
def compactItems : List Json → List String
  | [] => []
  | value :: rest => compact value :: compactItems rest

/-- The texts of members. -/
def compactMembers : List (List CodePoint × Json) → List String
  | [] => []
  | (key, value) :: rest => (quote key ++ ":" ++ compact value) :: compactMembers rest

end

/-! ### Indented -/

/-- The blanks before the lines at a level of nesting. -/
def indentation (level : Nat) : String :=
  String.ofList (List.replicate (2 * level) ' ')

/-- Lines between two brackets at a level of nesting. -/
def bracketed (level : Nat) (opening closing : String) (lines : List String) : String :=
  if lines.isEmpty then opening ++ closing
  else opening ++ "\n" ++ ",\n".intercalate lines ++ "\n" ++ indentation level ++ closing

mutual

/-- The text of a value with each item and member on a line of its own, for a value that stands at
a level of nesting. -/
def pretty (level : Nat) : Json → String
  | .array items => bracketed level "[" "]" (prettyItems (level + 1) items)
  | .object members => bracketed level "\x7b" "\x7d" (prettyMembers (level + 1) members)
  | .null => "null"
  | .bool b => if b then "true" else "false"
  | .integer n => String.ofList (Text.integer n)
  | .decimal spelling => String.ofList spelling
  | .string s => quote s

/-- The lines of items. -/
def prettyItems (level : Nat) : List Json → List String
  | [] => []
  | value :: rest => (indentation level ++ pretty level value) :: prettyItems level rest

/-- The lines of members. -/
def prettyMembers (level : Nat) : List (List CodePoint × Json) → List String
  | [] => []
  | (key, value) :: rest =>
      (indentation level ++ quote key ++ ": " ++ pretty level value) :: prettyMembers level rest

end

end AccessQuery.Json
