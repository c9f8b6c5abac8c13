/-
**Trees written as documents.**

A fixture describes a tree as a JSON document: an object for each node, with the children nested in
their parent.  Only the role is required; unknown members are skipped.  A node may also be written
as an array of its fields in order, of which the last may be missing.  Documents may nest 127
containers, those inside skipped members aside.

Main definitions:

* `AccessQuery.Fixture` — a node with everything below it;
* `AccessQuery.Fixture.ofJson?`, `AccessQuery.Fixture.read?` — decoding a document;
* `AccessQuery.Fixture.Problem` — why a document gives no tree;
* `AccessQuery.Fixture.toJson` — the document of a fixture, with every field;
* `AccessQuery.Fixture.flatten`, `AccessQuery.Tree.ofFixture` — the table of a fixture, in
  pre-order;
* `AccessQuery.Fixture.root` — the topmost node in it.

Main results:

* `AccessQuery.Fixture.length_flatten`, `AccessQuery.Tree.size_ofFixture` — the table has one entry
  for each node;
* `AccessQuery.Fixture.parent_flatten` — parents stand before their children in it.
-/

import AccessQuery.Json.Nesting
import AccessQuery.Json.Reader
import AccessQuery.Tree

set_option relaxedAutoImplicit false
set_option autoImplicit false

namespace AccessQuery

/-- A node of a document with everything below it. -/
structure Fixture where
  /-- The role. -/
  role : String
  /-- The accessible name. -/
  name : String := ""
  /-- The accessible description. -/
  description : String := ""
  /-- The states, as a comma-separated list. -/
  states : String := ""
  /-- The capabilities besides the one that every node has. -/
  capabilities : List Capability := []
  /-- Further attributes. -/
  attributes : Std.ExtTreeMap String AttrValue := ∅
  /-- The children. -/
  children : List Fixture := []

namespace Fixture

/-! ### Decoding -/

/-- The fields of a node, in the order of the array form. -/
def fieldNames : List String :=
  ["role", "name", "description", "states", "capabilities", "attributes", "children"]

/-- The fields of a node with their names, from either of its forms. -/
def fields? : Json → Option (List (String × Json))
  | .object members => Json.membersOf? members
  | .array items => if items.length ≤ fieldNames.length then some (fieldNames.zip items) else none
  | _ => none

/-- The value of a field that must be present, once. -/
def required {α : Type} (fields : List (String × Json)) (name : String)
    (read : Json → Option α) : Option α :=
  match fields.filter fun field => field.1 == name with
  | [field] => read field.2
  | _ => none

/-- The value of a field that may be present, once. -/
def optional {α : Type} (fields : List (String × Json)) (name : String)
    (read : Json → Option α) (absent : α) : Option α :=
  match fields.filter fun field => field.1 == name with
  | [] => some absent
  | [field] => read field.2
  | _ => none

/-- The capability that a name, or an object with a name and no content, stands for. -/
def capability? : Json → Option Capability
  | .string name => (Json.textOf? name).bind Capability.ofName?
  | .object [(name, .null)] => (Json.textOf? name).bind Capability.ofName?
  | _ => none

/-- The capabilities in a list. -/
def capabilities? : Json → Option (List Capability)
  | .array items => items.mapM capability?
  | _ => none

/-- Reads a value that nests no more containers than are left. -/
def within {α : Type} (left : Nat) (read : Json → Option α) (json : Json) : Option α :=
  if json.nesting ≤ left then read json else none

mutual

/-- The node that a value stands for, if no more containers are nested than are left. -/
def ofJson? : Nat → Json → Option Fixture
  | 0, _ => none
  | left + 1, json => do
      let fields ← fields? json
      return {
        role := ← required fields "role" Json.string?
        name := ← optional fields "name" Json.string? ""
        description := ← optional fields "description" Json.string? ""
        states := ← optional fields "states" Json.string? ""
        capabilities := ← optional fields "capabilities" (within left capabilities?) []
        attributes := ← optional fields "attributes" (within left Json.attributes?) ∅
        children := ← optional fields "children" (listOfJson? left) [] }

/-- The nodes in a list, if no more containers are nested than are left. -/
def listOfJson? : Nat → Json → Option (List Fixture)
  | left + 1, .array items => items.mapM (ofJson? left)
  | _, _ => none

end

/-- The number of containers that documents may nest. -/
def nestingLimit : Nat := 127

/-- The fixture that a document describes. -/
def read? (text : String) : Option Fixture :=
  (Json.parse? text).bind (ofJson? nestingLimit)

/-- Why a document gives no tree. -/
inductive Problem
  /-- The document cannot be read; the reason is that of the operating system. -/
  | unreadable (reason : String)
  /-- The document is not JSON, or describes no tree. -/
  | malformed
  deriving DecidableEq, Repr

/-- The message of a problem. -/
def Problem.message : Problem → String
  | .unreadable reason => "I/O error: " ++ reason
  | .malformed => "Invalid fixture: not the document of a tree"

/-! ### Encoding -/

mutual

/-- The document of a fixture, with every field. -/
def toJson : Fixture → Json
  | ⟨role, name, description, states, capabilities, attributes, children⟩ =>
      Json.ofMembers [
        ("role", .ofString role),
        ("name", .ofString name),
        ("description", .ofString description),
        ("states", .ofString states),
        ("capabilities", .array (capabilities.map fun c => .ofString c.name)),
        ("attributes", .ofAttributes attributes),
        ("children", .array (listToJson children))]

/-- The documents of some fixtures. -/
def listToJson : List Fixture → List Json
  | [] => []
  | fixture :: rest => toJson fixture :: listToJson rest

end

/-! ### The table of a fixture -/

/-- What a fixture writes to its topmost node: states only where some are given, and further
attributes in increasing order of their names. -/
def element (fixture : Fixture) : Element :=
  let described := (Element.new fixture.role fixture.name).describe fixture.description
  let stated := if fixture.states = "" then described else described.setStates fixture.states
  let capable := fixture.capabilities.foldl Element.addCapability stated
  fixture.attributes.toList.foldl (fun element entry => element.write entry.1 entry.2) capable

mutual

/-- The number of nodes of a fixture. -/
def count : Fixture → Nat
  | ⟨_, _, _, _, _, _, children⟩ => countList children + 1

/-- The number of nodes of some fixtures. -/
def countList : List Fixture → Nat
  | [] => 0
  | fixture :: rest => count fixture + countList rest

end

mutual

/-- The entries of a fixture in pre-order, for a table in which its topmost node stands at a given
place. -/
def flatten (parent : Option Nat) (start : Nat) : Fixture → List Node
  | ⟨role, name, description, states, capabilities, attributes, children⟩ =>
      ⟨parent, element ⟨role, name, description, states, capabilities, attributes, children⟩⟩ ::
        flattenList start (start + 1) children

/-- The entries of fixtures with a common parent, one after another. -/
def flattenList (parent start : Nat) : List Fixture → List Node
  | [] => []
  | fixture :: rest =>
      flatten (some parent) start fixture ++
        flattenList parent (start + count fixture) rest

end

mutual

theorem length_flatten (parent : Option Nat) (start : Nat) (fixture : Fixture) :
    (flatten parent start fixture).length = count fixture := by
  cases fixture with
  | mk role name description states capabilities attributes children =>
      simp [flatten, count, length_flattenList start (start + 1) children]

theorem length_flattenList (parent start : Nat) (fixtures : List Fixture) :
    (flattenList parent start fixtures).length = countList fixtures := by
  cases fixtures with
  | nil => rfl
  | cons fixture rest =>
      simp [flattenList, countList, length_flatten, length_flattenList parent _ rest]

end

mutual

theorem parent_flatten {parent : Option Nat} {start : Nat} {fixture : Fixture} {i : Nat}
    {node : Node} (h : (flatten parent start fixture)[i]? = some node) :
    (i = 0 ∧ node.parent = parent) ∨ ∃ p, node.parent = some p ∧ start ≤ p ∧ p < start + i := by
  cases fixture with
  | mk role name description states capabilities attributes children =>
      cases i with
      | zero =>
          left
          simp only [flatten, List.getElem?_cons_zero, Option.some.injEq] at h
          exact ⟨rfl, h ▸ rfl⟩
      | succ i =>
          right
          simp only [flatten, List.getElem?_cons_succ] at h
          obtain ⟨p, hp, hs, hi⟩ := parent_flattenList (Nat.lt_succ_self start) h
          exact ⟨p, hp, hs, by omega⟩

theorem parent_flattenList {parent start : Nat} {fixtures : List Fixture} {i : Nat} {node : Node}
    (hlt : parent < start) (h : (flattenList parent start fixtures)[i]? = some node) :
    ∃ p, node.parent = some p ∧ parent ≤ p ∧ p < start + i := by
  cases fixtures with
  | nil => simp [flattenList] at h
  | cons fixture rest =>
      rw [flattenList, List.getElem?_append] at h
      split at h
      · rcases parent_flatten h with ⟨rfl, hp⟩ | ⟨p, hp, hs, hi⟩
        · exact ⟨parent, hp, Nat.le_refl _, by omega⟩
        · exact ⟨p, hp, by omega, hi⟩
      · next hi =>
          rw [length_flatten] at h hi
          obtain ⟨p, hp, hs, hj⟩ := parent_flattenList (by omega) h
          exact ⟨p, hp, hs, by omega⟩

end

end Fixture

/-- The tree that a fixture describes. -/
def Tree.ofFixture (fixture : Fixture) : Tree where
  nodes := (fixture.flatten none 0).toArray
  eq_zero_of_parent i h hn := by
    simp only [List.getElem_toArray] at hn
    rcases Fixture.parent_flatten (List.getElem?_eq_getElem (by simpa using h)) with
      ⟨rfl, -⟩ | ⟨p, hp, -⟩
    · rfl
    · exact absurd (hn.symm.trans hp) (by simp)
  parent_lt i h p hp := by
    simp only [List.getElem_toArray] at hp
    rcases Fixture.parent_flatten (List.getElem?_eq_getElem (by simpa using h)) with
      ⟨rfl, hn⟩ | ⟨q, hq, -, hlt⟩
    · exact absurd (hp.symm.trans hn) (by simp)
    · obtain rfl : p = q := Option.some.inj (hp.symm.trans hq)
      omega

@[simp] theorem Tree.size_ofFixture (fixture : Fixture) :
    (Tree.ofFixture fixture).size = fixture.count := by
  simp [Tree.ofFixture, Tree.size, Fixture.length_flatten]

namespace Fixture

theorem count_pos (fixture : Fixture) : 0 < fixture.count := by
  cases fixture
  simp [count]

/-- The topmost node of a fixture. -/
def root (fixture : Fixture) : (Tree.ofFixture fixture).NodeId :=
  ⟨0, by simpa using fixture.count_pos⟩

end Fixture

end AccessQuery
