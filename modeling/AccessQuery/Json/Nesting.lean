/-
**Nesting of JSON values.**

Main definitions:

* `AccessQuery.Json.nesting` — how many containers lie inside one another at most.
-/

import AccessQuery.Json

set_option relaxedAutoImplicit false
set_option autoImplicit false

namespace AccessQuery.Json

mutual

/-- How many arrays and objects lie inside one another at most, the outermost included. -/
def nesting : Json → Nat
  | .array items => itemsNesting items + 1
  | .object members => membersNesting members + 1
  | _ => 0

/-- The greatest nesting among items. -/
def itemsNesting : List Json → Nat
  | [] => 0
  | value :: rest => max (nesting value) (itemsNesting rest)

/-- The greatest nesting among members. -/
def membersNesting : List (List CodePoint × Json) → Nat
  | [] => 0
  | (_, value) :: rest => max (nesting value) (membersNesting rest)

end

end AccessQuery.Json
