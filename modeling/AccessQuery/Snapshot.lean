/-
**Snapshots of a node's attributes.**

A snapshot is a copy of every attribute that a bridge reports for one node, read in one call and
never refreshed.  It is a finite map from attribute names to values.  Inserting goes through the
canonical spelling of the name; looking up tries the name as it is given first and its canonical
spelling second, so a map that was read with other keys stays readable.

Main definitions:

* `AccessQuery.Snapshot` — the map, with `insert` and `get?`;
* `AccessQuery.Snapshot.role?` — the role that role tests read;
* `AccessQuery.Snapshot.textContent?` — the text that `text()` stands for;
* `AccessQuery.Snapshot.hasState` — whether a state is reported.

Main results:

* `AccessQuery.Snapshot.ext_entries` — two snapshots with the same entries are equal;
* `AccessQuery.Snapshot.entries_insert` — an insertion, seen through the entries.
-/

import Std.Data.ExtTreeMap
import AccessQuery.Attribute
import AccessQuery.Vocabulary

set_option relaxedAutoImplicit false
set_option autoImplicit false

namespace AccessQuery

/-- The attributes of one node at one moment. -/
structure Snapshot where
  /-- The values by name, names spelled as they are kept. -/
  entries : Std.ExtTreeMap String AttrValue
  deriving DecidableEq

namespace Snapshot

/-! ### Building -/

/-- The snapshot without attributes. -/
def empty : Snapshot := ⟨∅⟩

instance : EmptyCollection Snapshot := ⟨empty⟩

instance : Inhabited Snapshot := ⟨empty⟩

/-- Writes an attribute under the canonical spelling of its name. -/
def insert (snapshot : Snapshot) (name : String) (value : AttrValue) : Snapshot :=
  ⟨snapshot.entries.insert (canonicalName name) value⟩

theorem ext_entries {a b : Snapshot} (h : ∀ key : String, a.entries[key]? = b.entries[key]?) :
    a = b := by
  cases a
  cases b
  congr
  exact Std.ExtTreeMap.ext_getElem? h

theorem entries_insert (snapshot : Snapshot) (name : String) (value : AttrValue) (key : String) :
    (snapshot.insert name value).entries[key]? =
      if canonicalName name = key then some value else snapshot.entries[key]? := by
  simp [insert, Std.ExtTreeMap.getElem?_insert]

/-! ### Reading -/

/-- The value of an attribute, by its name as given or else by the canonical spelling of it. -/
def get? (snapshot : Snapshot) (name : String) : Option AttrValue :=
  snapshot.entries[name]? <|> snapshot.entries[canonicalName name]?

/-- The value of an attribute that is a text. -/
def text? (snapshot : Snapshot) (name : String) : Option String :=
  (snapshot.get? name).bind AttrValue.text?

/-- The value of an attribute that is an integer. -/
def int? (snapshot : Snapshot) (name : String) : Option Int64 :=
  (snapshot.get? name).bind AttrValue.int?

/-- The accessible name. -/
def name? (snapshot : Snapshot) : Option String :=
  snapshot.text? AttrName.name

/-- The role that role tests read: the `en_US` role, or the role where the former is absent. -/
def role? (snapshot : Snapshot) : Option String :=
  snapshot.text? AttrName.roleEnUs <|> snapshot.text? AttrName.role

/-- The text that `text()` stands for: the name, or the description where the name is empty or
missing. -/
def textContent? (snapshot : Snapshot) : Option String :=
  match snapshot.name? with
  | none => snapshot.text? AttrName.description
  | some name => if name = "" then snapshot.text? AttrName.description <|> some name else some name

/-- Whether a state is reported, in the `en_US` set or, without one, in the other. -/
def hasState (snapshot : Snapshot) (state : String) : Bool :=
  match (snapshot.get? AttrName.statesEnUs <|> snapshot.get? AttrName.states) with
  | some (.states set) => set.contains state
  | _ => false

/-- Whether the node is on the screen. -/
def isShowing (snapshot : Snapshot) : Bool :=
  snapshot.hasState State.showing.name

theorem isShowing_eq (snapshot : Snapshot) : snapshot.isShowing = snapshot.hasState "showing" := rfl

/-- The names under which attributes are kept, in increasing order. -/
def keys (snapshot : Snapshot) : List String :=
  snapshot.entries.keys

/-- Whether there are no attributes. -/
def isEmpty (snapshot : Snapshot) : Bool :=
  snapshot.entries.isEmpty

end Snapshot

end AccessQuery
