/-
**Locators.**

A locator names an element by one of its attributes.  Each locator is a query over everything below
the root.  Its value goes into the query as it is, so it needs no escaping; a value that no query
text could spell is refused.

Main definitions:

* `AccessQuery.Locator` — the locators;
* `AccessQuery.Locator.query` — the query of a locator.
-/

import AccessQuery.Attribute
import AccessQuery.Query.Reader

set_option relaxedAutoImplicit false
set_option autoImplicit false

namespace AccessQuery

/-- How to find an element below a root. -/
inductive Locator
  | name (value : String)
  | description (value : String)
  | role (value : String)
  /-- Every listed state is present. -/
  | states (values : List String)
  | objectDepth (value : Int64)
  | childrenCount (value : Int64)
  | indexInParent (value : Int64)
  /-- A query in its textual form. -/
  | path (text : String)
  deriving DecidableEq

namespace Locator

/-- A query for the nodes whose attribute equals a literal. -/
def attributeQuery (attr : String) (value : Literal) : Query :=
  .single ⟨.descendant, .wildcard, some (.comparison (.named attr) .eq value)⟩

/-- A text as a literal, unless it contains quotes of both kinds. -/
def textLiteral (s : String) : Except QueryError Literal :=
  if '\x27' ∈ s.toList ∧ '"' ∈ s.toList then .error (.invalidPredicate s) else .ok (.text s)

/-- Whether a role can be written in a path. -/
def isSpellableRole (role : String) : Bool :=
  !role.toList.isEmpty && Text.trim role.toList == role.toList &&
    role.toList.all Segment.isRoleChar

/-- The query of a locator. -/
def query : Locator → Except QueryError Query
  | .name value => (textLiteral value).map (attributeQuery AttrName.name)
  | .description value => (textLiteral value).map (attributeQuery AttrName.description)
  | .role value =>
      if isSpellableRole value then .ok (.single ⟨.descendant, .role value, none⟩)
      else .error (.unspellableRole value)
  | .states values =>
      (textLiteral (",".intercalate values)).map (attributeQuery AttrName.statesEnUs)
  | .objectDepth value => .ok (attributeQuery AttrName.objectDepth (.int value))
  | .childrenCount value => .ok (attributeQuery AttrName.childrenCount (.int value))
  | .indexInParent value => .ok (attributeQuery AttrName.indexInParent (.int value))
  | .path text => Query.parse text

end Locator

end AccessQuery
