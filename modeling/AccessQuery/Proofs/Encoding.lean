/-
**What is written as JSON is read back.**

A value says by its shape alone which kind of attribute it stands for, so the forms of attributes,
of snapshots and of fixtures can be decoded without further marks.  Sets and maps are written in
increasing order and read in any; nothing is lost in between.  A fixture is decoded if its document
nests no more containers than the limit allows, and is refused otherwise: the decoder hands down
what is left of the limit exactly as the nesting of the document uses it up.

Main results:

* `AccessQuery.Json.snapshot?_ofSnapshot` — snapshots are read back;
* `AccessQuery.Fixture.ofJson?_toJson` — fixtures are, within the limit that is left;
* `AccessQuery.Fixture.encoded_read_back` — both, as documents are read.
-/

import AccessQuery.Tree.Fixture

set_option relaxedAutoImplicit false
set_option autoImplicit false

namespace AccessQuery

/-! ### Lists, sets and maps -/

theorem mapM_map_eq_some {α β : Type} {encode : α → β} {decode : β → Option α} {items : List α}
    (h : ∀ a ∈ items, decode (encode a) = some a) :
    (items.map encode).mapM decode = some items := by
  induction items with
  | nil => rfl
  | cons a items ih =>
      have ha := h a List.mem_cons_self
      have ih := ih fun b hb => h b (List.mem_cons_of_mem a hb)
      rw [List.map_cons, List.mapM_cons, ha, ih]
      rfl

theorem stateSet_ofList_toList (set : StateSet) : Std.ExtTreeSet.ofList set.toList = set := by
  refine Std.ExtTreeSet.ext_mem fun state => ?_
  rw [Std.ExtTreeSet.mem_ofList, List.contains_iff_mem, Std.ExtTreeSet.mem_toList]

theorem attributes_ofList_toList (attributes : Std.ExtTreeMap String AttrValue) :
    Std.ExtTreeMap.ofList attributes.toList = attributes := by
  refine Std.ExtTreeMap.ext_getElem? fun name => ?_
  cases h : attributes[name]? with
  | some value =>
      have hmem := Std.ExtTreeMap.mem_toList_iff_getElem?_eq_some.2 h
      exact Std.ExtTreeMap.getElem?_ofList_of_mem Std.ReflOrd.compare_self
        Std.ExtTreeMap.distinct_keys_toList hmem
  | none =>
      refine Std.ExtTreeMap.getElem?_ofList_of_contains_eq_false ?_
      rw [Bool.eq_false_iff, ne_eq, List.contains_iff_mem]
      intro hname
      obtain ⟨⟨key, value⟩, hmem, rfl⟩ := List.mem_map.1 hname
      rw [Std.ExtTreeMap.mem_toList_iff_getElem?_eq_some, h] at hmem
      cases hmem

namespace Json

/-! ### Attributes and snapshots -/

/-- Integers, texts and sets are told apart by their shape. -/
@[simp] theorem attrValue?_ofAttrValue (value : AttrValue) :
    (ofAttrValue value).attrValue? = some value := by
  cases value with
  | int n => simp [ofAttrValue, attrValue?, Text.toInt64?_toInt]
  | text s => simp [ofAttrValue, ofString, attrValue?, textOf?_codePoints]
  | states set =>
      have hnames : (set.toList.map ofString).mapM string? = some set.toList :=
        mapM_map_eq_some fun state _ => string?_ofString state
      rw [ofAttrValue, attrValue?, hnames, Option.map_some, stateSet_ofList_toList]

theorem membersOf?_codePoints (members : List (String × Json)) :
    membersOf? (members.map fun m => (codePoints m.1, m.2)) = some members :=
  mapM_map_eq_some fun m _ => by rw [textOf?_codePoints, Option.map_some]

@[simp] theorem attributes?_ofAttributes (attributes : Std.ExtTreeMap String AttrValue) :
    (ofAttributes attributes).attributes? = some attributes := by
  have hentries : (attributes.toList.map fun entry => (entry.1, ofAttrValue entry.2)).mapM
      (fun m => m.2.attrValue?.map fun value => (m.1, value)) = some attributes.toList :=
    mapM_map_eq_some fun entry _ => by rw [attrValue?_ofAttrValue, Option.map_some]
  rw [ofAttributes, ofMembers, attributes?, membersOf?_codePoints, Option.bind_eq_bind,
    Option.bind_some, hentries, Option.bind_eq_bind, Option.bind_some, attributes_ofList_toList]
  rfl

/-- A snapshot is read back from its JSON form, however the names in it are spelled. -/
theorem snapshot?_ofSnapshot (snapshot : Snapshot) :
    (ofSnapshot snapshot).snapshot? = some snapshot := by
  rw [ofSnapshot, snapshot?, attributes?_ofAttributes, Option.map_some]

/-! ### Nesting -/

@[simp] theorem nesting_ofString (s : String) : (ofString s).nesting = 0 := by
  simp [ofString, nesting]

theorem itemsNesting_map_ofString {α : Type} (name : α → String) (items : List α) :
    itemsNesting (items.map fun a => ofString (name a)) = 0 := by
  induction items with
  | nil => rfl
  | cons a items ih => rw [List.map_cons, itemsNesting, nesting_ofString, ih, Nat.max_self]

end Json

namespace Fixture

open Json

/-! ### Fixtures -/

@[simp] theorem capability?_name (capability : Capability) :
    capability? (.ofString capability.name) = some capability := by
  rw [ofString, capability?, textOf?_codePoints, Option.bind_some, Capability.ofName?_name]

theorem capabilities?_names (capabilities : List Capability) :
    capabilities? (.array (capabilities.map fun c => .ofString c.name)) = some capabilities :=
  mapM_map_eq_some fun capability _ => capability?_name capability

/-- The document of a fixture with its fields in order, -/
theorem fields?_toJson (fixture : Fixture) : fields? fixture.toJson = some [
    ("role", .ofString fixture.role),
    ("name", .ofString fixture.name),
    ("description", .ofString fixture.description),
    ("states", .ofString fixture.states),
    ("capabilities", .array (fixture.capabilities.map fun c => .ofString c.name)),
    ("attributes", .ofAttributes fixture.attributes),
    ("children", .array (listToJson fixture.children))] := by
  cases fixture
  rw [toJson, ofMembers, fields?, membersOf?_codePoints]

/-- and how deep it nests: its capabilities are the shallowest container in it. -/
theorem nesting_toJson (fixture : Fixture) : fixture.toJson.nesting =
    max (ofAttributes fixture.attributes).nesting (itemsNesting (listToJson fixture.children) + 1) +
      1 := by
  have hcap : nesting (.array (fixture.capabilities.map fun c => .ofString c.name)) = 1 := by
    rw [nesting, itemsNesting_map_ofString]
  cases fixture
  simp only [toJson, ofMembers, List.map_cons, List.map_nil, nesting, membersNesting,
    nesting_ofString] at hcap ⊢
  omega

theorem within_capabilities (left : Nat) (capabilities : List Capability) :
    within left capabilities? (.array (capabilities.map fun c => .ofString c.name)) =
      if 1 ≤ left then some capabilities else none := by
  rw [within, capabilities?_names, nesting, itemsNesting_map_ofString]

theorem within_attributes (left : Nat) (attributes : Std.ExtTreeMap String AttrValue) :
    within left Json.attributes? (.ofAttributes attributes) =
      if (ofAttributes attributes).nesting ≤ left then some attributes else none := by
  rw [within, attributes?_ofAttributes]

mutual

/-- A fixture is read back if its document nests no more containers than are left, and refused
otherwise. -/
theorem ofJson?_toJson (left : Nat) (fixture : Fixture) : ofJson? left fixture.toJson =
    if fixture.toJson.nesting ≤ left then some fixture else none := by
  cases fixture with
  | mk role name description states capabilities attributes children =>
      cases left with
      | zero => rw [ofJson?, if_neg (by rw [nesting_toJson]; omega)]
      | succ left =>
          have hchildren := listOfJson?_listToJson left children
          rw [nesting_toJson, ofJson?, fields?_toJson]
          -- each field is looked up by its name; the texts among them are read whatever is left
          simp only [Option.bind_eq_bind, Option.bind_some, required, optional, List.filter,
            String.reduceBEq, string?_ofString, within_capabilities, within_attributes, hchildren,
            Nat.add_le_add_iff_right, Nat.max_le]
          by_cases hattr : (ofAttributes attributes).nesting ≤ left
          · by_cases hnest : itemsNesting (listToJson children) + 1 ≤ left
            · have hleft : 1 ≤ left := Nat.le_of_add_left_le hnest
              simp [hattr, hnest, hleft]
            · simp [hnest]
          · simp [hattr]

theorem listOfJson?_listToJson (left : Nat) (fixtures : List Fixture) :
    listOfJson? left (.array (listToJson fixtures)) =
      if itemsNesting (listToJson fixtures) + 1 ≤ left then some fixtures else none := by
  cases left with
  | zero => rw [listOfJson?, if_neg (Nat.not_succ_le_zero _)]; simp
  | succ left =>
      cases fixtures with
      | nil => simp [listOfJson?, listToJson, itemsNesting]
      | cons fixture rest =>
          have hfirst := ofJson?_toJson left fixture
          have hrest := listOfJson?_listToJson (left + 1) rest
          rw [listOfJson?] at hrest ⊢
          rw [listToJson, List.mapM_cons, hfirst, hrest, itemsNesting]
          simp only [Nat.add_le_add_iff_right, Nat.max_le]
          by_cases hf : fixture.toJson.nesting ≤ left
          · by_cases hr : itemsNesting (listToJson rest) ≤ left
            · simp [hf, hr]
            · simp [hr]
          · simp [hf]

end

/-- What is written as a document is read back: a fixture as long as its document nests no more
containers than documents may, whatever text the document is read from, and a snapshot always.
Documents that nest more are refused. -/
theorem encoded_read_back (fixture : Fixture) (snapshot : Snapshot) :
    ofJson? nestingLimit fixture.toJson =
      (if fixture.toJson.nesting ≤ nestingLimit then some fixture else none) ∧
    (∀ text, Json.parse? text = some fixture.toJson → read? text =
      if fixture.toJson.nesting ≤ nestingLimit then some fixture else none) ∧
    (ofSnapshot snapshot).snapshot? = some snapshot := by
  have hfixture := ofJson?_toJson nestingLimit fixture
  refine ⟨hfixture, fun text htext => ?_, snapshot?_ofSnapshot snapshot⟩
  rw [read?, htext, Option.bind_some, hfixture]

end Fixture

end AccessQuery
