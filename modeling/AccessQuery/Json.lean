/-
**JSON values.**

The values of JSON documents, kept closely enough to their text for strict reading: the members of
an object stay in the order of the text and may repeat, integers are told from numbers written with
a fraction or an exponent, and a string is a sequence of code points, because an escape may leave a
surrogate without its partner.

Main definitions:

* `AccessQuery.Json` — the values;
* `AccessQuery.Json.ofString`, `AccessQuery.Json.string?` — the strings that are text;
* `AccessQuery.Json.ofSnapshot`, `AccessQuery.Json.snapshot?` — the form of a snapshot.

Main results:

* `AccessQuery.Json.string?_ofString` — a text is read back from its JSON form.
-/

import AccessQuery.Snapshot
import AccessQuery.Text.Decimal

set_option relaxedAutoImplicit false
set_option autoImplicit false

namespace AccessQuery

/-! ### Values -/

/-- One element of a JSON string. -/
inductive Json.CodePoint
  /-- A character. -/
  | char (c : Char)
  /-- A surrogate without its partner. -/
  | surrogate (code : Nat)
  deriving DecidableEq

/-- A JSON value. -/
inductive Json
  | null
  | bool (b : Bool)
  /-- A number written as an integer. -/
  | integer (n : Int)
  /-- Any other number, in the spelling of the document. -/
  | decimal (spelling : List Char)
  | string (s : List Json.CodePoint)
  | array (items : List Json)
  /-- The members in the order of the document, repetitions included. -/
  | object (members : List (List Json.CodePoint × Json))

namespace Json

instance : Inhabited Json := ⟨.null⟩

/-! ### Text -/

/-- The character of a code point, unless it is a surrogate. -/
def CodePoint.char? : CodePoint → Option Char
  | .char c => some c
  | .surrogate _ => none

/-- The code points of a text. -/
def codePoints (s : String) : List CodePoint :=
  s.toList.map .char

/-- The text that code points spell, unless there is a surrogate among them. -/
def textOf? (s : List CodePoint) : Option String :=
  (s.mapM CodePoint.char?).map String.ofList

/-- A text as a JSON string. -/
def ofString (s : String) : Json :=
  .string (codePoints s)

/-- The text of a JSON string. -/
def string? : Json → Option String
  | .string s => textOf? s
  | _ => none

theorem textOf?_codePoints (s : String) : textOf? (codePoints s) = some s := by
  have h : ∀ l : List Char, (l.map CodePoint.char).mapM CodePoint.char? = some l := by
    intro l
    induction l with
    | nil => rfl
    | cons c l ih => simp [CodePoint.char?, ih]
  simp [textOf?, codePoints, h]

@[simp] theorem string?_ofString (s : String) : (ofString s).string? = some s :=
  textOf?_codePoints s

/-- An object with the given members. -/
def ofMembers (members : List (String × Json)) : Json :=
  .object (members.map fun m => (codePoints m.1, m.2))

/-- The members of an object whose keys are all texts. -/
def membersOf? (members : List (List CodePoint × Json)) : Option (List (String × Json)) :=
  members.mapM fun m => (textOf? m.1).map fun key => (key, m.2)

/-! ### Attributes and snapshots -/

/-- The form of an attribute value: an integer, a string, or the sorted list of the states. -/
def ofAttrValue : AttrValue → Json
  | .int n => .integer n.toInt
  | .text s => ofString s
  | .states set => .array (set.toList.map ofString)

/-- The attribute value that a JSON value stands for. -/
def attrValue? : Json → Option AttrValue
  | .integer n => (Text.toInt64? n).map .int
  | .string s => (textOf? s).map .text
  | .array items => (items.mapM string?).map fun names => .states (Std.ExtTreeSet.ofList names)
  | _ => none

/-- The form of a map of attributes: the members in increasing order of their names. -/
def ofAttributes (attributes : Std.ExtTreeMap String AttrValue) : Json :=
  ofMembers (attributes.toList.map fun entry => (entry.1, ofAttrValue entry.2))

/-- The map of attributes that an object stands for; of two members with one name the later
counts. -/
def attributes? : Json → Option (Std.ExtTreeMap String AttrValue)
  | .object members => do
      let named ← membersOf? members
      let entries ← named.mapM fun m => m.2.attrValue?.map fun value => (m.1, value)
      return Std.ExtTreeMap.ofList entries
  | _ => none

/-- The form of a snapshot: one member for each attribute. -/
def ofSnapshot (snapshot : Snapshot) : Json :=
  ofAttributes snapshot.entries

/-- The snapshot that an object stands for; names are kept as they are spelled. -/
def snapshot? (json : Json) : Option Snapshot :=
  json.attributes?.map Snapshot.mk

end Json

end AccessQuery
