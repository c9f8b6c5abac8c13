/-
**Attributes of a node.**

An attribute is a name with a typed value: an integer, a text, or a set of state names.  Names are
kept in one canonical spelling, and several older spellings stand for the same attribute.  Bridges
report sets of states as comma-separated text.

Main definitions:

* `AccessQuery.canonicalName` — the spelling under which an attribute is kept;
* `AccessQuery.stateNames` — the items of a comma-separated list of states;
* `AccessQuery.AttrValue` — a typed value, `AccessQuery.AttrValue.ofCsv` the set of the states in
  such a list.

Main results:

* `AccessQuery.canonicalName_canonicalName` — a canonical spelling is its own canonical spelling.
-/

import Std.Data.ExtTreeSet
import AccessQuery.Text.Blank

set_option relaxedAutoImplicit false
set_option autoImplicit false

namespace AccessQuery

/-! ### Names -/

namespace AttrName

/-- The attribute that holds the accessible name. -/
def name : String := "name"

/-- The attribute that holds the accessible description. -/
def description : String := "description"

/-- The role in the locale of the application. -/
def role : String := "role"

/-- The role in the `en_US` locale. -/
def roleEnUs : String := "role_en_us"

/-- The states in the locale of the application. -/
def states : String := "states"

/-- The states in the `en_US` locale. -/
def statesEnUs : String := "states_en_us"

/-- The zero-based place of a node among its siblings. -/
def indexInParent : String := "index_in_parent"

/-- The number of children of a node. -/
def childrenCount : String := "children_count"

/-- The distance of a node from the root. -/
def objectDepth : String := "object_depth"

/-- The older spellings of attribute names, in lower case, with the canonical ones. -/
def aliases : List (String × String) :=
  [("objectdepth", objectDepth), ("childrencount", childrenCount),
   ("indexinparent", indexInParent), ("roleenus", roleEnUs), ("stateenus", statesEnUs),
   ("statesenus", statesEnUs)]

end AttrName

/-- The spelling under which an attribute is kept: ASCII capitals in lower case, and no older
alias. -/
def canonicalName (name : String) : String :=
  (AttrName.aliases.lookup name.toLower).getD name.toLower

theorem char_toLower_toLower (c : Char) : c.toLower.toLower = c.toLower := by
  delta Char.toLower
  split
  · split
    · next h₁ h₂ =>
        simp only [UInt32.le_iff_toNat_le, UInt32.toNat_add, seval] at h₁ h₂
        omega
    · simp
  · rfl

theorem toLower_toLower (s : String) : s.toLower.toLower = s.toLower := by
  change (s.map Char.toLower).map Char.toLower = s.map Char.toLower
  rw [← String.toList_inj]
  simp only [String.toList_map, List.map_map, Function.comp_def, char_toLower_toLower]

theorem canonicalName_canonicalName (name : String) :
    canonicalName (canonicalName name) = canonicalName name := by
  cases h : AttrName.aliases.lookup name.toLower with
  | none => simp [canonicalName, h, toLower_toLower]
  | some target =>
      have key : ∀ p ∈ AttrName.aliases, canonicalName p.2 = p.2 := by decide +kernel
      have hm : ∃ p ∈ AttrName.aliases, p.2 = target := by
        obtain ⟨l, r, hp, -⟩ := List.lookup_eq_some_iff.1 h
        exact ⟨(name.toLower, target), by simp [hp], rfl⟩
      obtain ⟨p, hp, rfl⟩ := hm
      have : canonicalName name = p.2 := by simp [canonicalName, h]
      rw [this, key p hp]

/-! ### Lists of states -/

/-- The items of a comma-separated list, without the blanks around them and without the items
that are blank. -/
def stateNames (csv : String) : List String :=
  ((csv.toList.splitOn ',').map fun item => String.ofList (Text.trim item)).filter (· ≠ "")

/-! ### Values -/

/-- A set of state names. -/
abbrev StateSet := Std.ExtTreeSet String

/-- The value of an attribute. -/
inductive AttrValue
  /-- A signed 64-bit integer. -/
  | int (n : Int64)
  /-- A text. -/
  | text (s : String)
  /-- A set of state names. -/
  | states (set : StateSet)
  deriving DecidableEq

namespace AttrValue

/-- The set of the states in a comma-separated list. -/
def ofCsv (csv : String) : AttrValue :=
  .states (Std.ExtTreeSet.ofList (stateNames csv))

/-- The integer, where the value is one. -/
def int? : AttrValue → Option Int64
  | .int n => some n
  | _ => none

/-- The text, where the value is one. -/
def text? : AttrValue → Option String
  | .text s => some s
  | _ => none

/-- The set of states, where the value is one. -/
def states? : AttrValue → Option StateSet
  | .states set => some set
  | _ => none

end AttrValue

end AccessQuery
