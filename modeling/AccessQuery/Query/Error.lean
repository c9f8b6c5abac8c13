/-
**Why a text is no query.**

Main definitions:

* `AccessQuery.QueryError` — the causes;
* `AccessQuery.QueryError.message` — their wording.
-/

import AccessQuery.Text.Decimal

set_option relaxedAutoImplicit false
set_option autoImplicit false

namespace AccessQuery

/-- Why a text is no query, or a locator has none. -/
inductive QueryError
  /-- There is nothing but blanks. -/
  | emptyQuery
  /-- The path does not start with a slash. -/
  | noLeadingSlash
  /-- There are more than two slashes at a byte offset. -/
  | tooManySlashes (offset : Nat) (query : String)
  /-- Nothing follows the slashes at a byte offset. -/
  | emptyStep (offset : Nat) (query : String)
  /-- Something other than a bracket follows the closing bracket of a predicate. -/
  | trailingText (rest step : String)
  /-- The role of a step has characters that roles do not have. -/
  | invalidRole (role : String)
  /-- The self step follows two slashes. -/
  | doubleSlashSelf
  /-- The role of a locator cannot be written in a path. -/
  | unspellableRole (role : String)
  /-- Brackets are not balanced, or the text between them is no predicate. -/
  | invalidPredicate (text : String)
  deriving DecidableEq, Repr

/-- The message of an error. -/
def QueryError.message : QueryError → String
  | .emptyQuery => "Invalid query: empty query"
  | .noLeadingSlash => "Invalid query: must start with / or //"
  | .tooManySlashes offset query =>
      "Invalid query: too many '/' at offset " ++ String.ofList (Text.natural offset) ++ " in '" ++
        query ++ "'"
  | .emptyStep offset query =>
      "Invalid query: empty step at offset " ++ String.ofList (Text.natural offset) ++ " in '" ++
        query ++ "'"
  | .trailingText rest step =>
      "Invalid query: unexpected '" ++ rest ++ "' after predicate in step '" ++ step ++ "'"
  | .invalidRole role => "Invalid query: invalid role test '" ++ role ++ "'"
  | .doubleSlashSelf => "Invalid query: '.' must follow a single '/'"
  | .unspellableRole role => "Invalid query: role '" ++ role ++ "'"
  | .invalidPredicate text => "Invalid predicate '" ++ text ++ "'"

end AccessQuery
