/-
**What a bridge reports of what was written.**

The calls that build a tree write attributes to its nodes, under any spelling of their names; one
call may write two attributes, and a later one may overwrite what an earlier one wrote.  What is
kept of a node is, name by name, the value written last.  A bridge reports it together with the
attributes that follow from the place of the node.

Where no states were written a bridge reports empty sets of them.  It looks at one of the two
sets to decide about both: where `states` was not written, the other set is lost whatever it holds,
and where `states` was written alone, no other set is reported.

Main definitions:

* `AccessQuery.writesTo` — the attributes that some calls write to a node;
* `AccessQuery.lastWritten` — the value written last under a name;
* `AccessQuery.AsWritten` — a snapshot that holds what was written and empty sets of states for
  those that were not;
* `AccessQuery.StatesAgree` — both sets of states were written, or neither.

Main results:

* `AccessQuery.Tree.entries_build` — what some calls leave under a name;
* `AccessQuery.Tree.entries_attributes` — what is reported under a name;
* `AccessQuery.Bridge.attributes_as_written_iff` — when a bridge reports what was written;
* `AccessQuery.Bridge.attributes_lose_states` — it may not.
-/

import AccessQuery.Proofs.Answers
import AccessQuery.Proofs.Building

set_option relaxedAutoImplicit false
set_option autoImplicit false

namespace AccessQuery

/-! ### What is written -/

/-- The attributes that a call writes to a node, where so many nodes are there before. -/
def BuildCall.writesTo (node size : Nat) : BuildCall → List (String × AttrValue)
  | .root role name | .child _ role name =>
      if size = node then Element.firstWrites role name else []
  | .edit target change => if target = node then change.writes else []

/-- The attributes that some calls write to a node, in order, where so many nodes are there
before. -/
def writesTo (node : Nat) : Nat → List BuildCall → List (String × AttrValue)
  | _, [] => []
  | size, call :: rest =>
      call.writesTo node size ++ writesTo node (size + if call.adds then 1 else 0) rest

/-- The value written last under a name, which is given as it is kept. -/
def lastWritten (key : String) (writes : List (String × AttrValue)) : Option AttrValue :=
  writes.reverse.findSome? fun entry => if canonicalName entry.1 = key then some entry.2 else none

theorem lastWritten_append (key : String) (first rest : List (String × AttrValue)) :
    lastWritten key (first ++ rest) = (lastWritten key rest).or (lastWritten key first) := by
  simp [lastWritten, List.findSome?_append]

theorem Snapshot.entries_insertAll (snapshot : Snapshot) (writes : List (String × AttrValue))
    (key : String) : (snapshot.insertAll writes).entries[key]? =
      (lastWritten key writes).or snapshot.entries[key]? := by
  induction writes generalizing snapshot with
  | nil => rfl
  | cons entry rest ih =>
      have hfirst : (snapshot.insert entry.1 entry.2).entries[key]? =
          (lastWritten key [entry]).or snapshot.entries[key]? := by
        rw [entries_insert]
        by_cases h : canonicalName entry.1 = key <;> simp [lastWritten, h]
      have hrest := ih (snapshot.insert entry.1 entry.2)
      rw [hfirst, ← Option.or_assoc, ← lastWritten_append] at hrest
      exact hrest

/-- The names of the attributes that follow from the place of a node. -/
def AttrName.placed : List String :=
  [indexInParent, childrenCount, objectDepth]

namespace Tree

/-- What is kept under a name of the node at a place. -/
def kept (tree : Tree) (node : Nat) (key : String) : Option AttrValue :=
  tree.nodes[node]?.bind fun n => n.element.written.entries[key]?

theorem kept_val (tree : Tree) (node : tree.NodeId) (key : String) :
    tree.kept node.val key = (tree.element node).written.entries[key]? := by
  simp [kept, element]

theorem kept_push {tree built : Tree} {parent : Option Nat} {role name : String}
    (h : built.nodes = tree.nodes.push ⟨parent, .new role name⟩) (node : Nat) (key : String) :
    built.kept node key =
      (lastWritten key (if tree.size = node then Element.firstWrites role name else [])).or
        (tree.kept node key) := by
  simp only [kept, h, Array.getElem?_push]
  by_cases hn : tree.size = node
  · rw [if_pos hn.symm, if_pos hn, Array.getElem?_eq_none (Nat.le_of_eq hn)]
    rw [Option.bind_some, Element.written_new, Snapshot.entries_insertAll]
    rfl
  · rw [if_neg (Ne.symm hn), if_neg hn]
    rfl

/-- A call changes what is kept by what it writes. -/
theorem kept_call {tree built : Tree} {call : BuildCall} (h : tree.call? call = some built)
    (node : Nat) (key : String) : built.kept node key =
      (lastWritten key (call.writesTo node tree.size)).or (tree.kept node key) := by
  cases call with
  | root role name =>
      obtain ⟨h0, h⟩ := Option.ite_none_right_eq_some.1 h
      obtain rfl := Option.some.inj h
      obtain rfl : tree = Tree.empty := ext_nodes (Array.eq_empty_of_size_eq_zero h0)
      exact kept_push rfl node key
  | child parent role name =>
      obtain ⟨hp, h⟩ := Option.dite_none_right_eq_some.1 h
      obtain rfl := Option.some.inj h
      exact kept_push rfl node key
  | edit target change =>
      obtain ⟨ht, h⟩ := Option.dite_none_right_eq_some.1 h
      obtain rfl := Option.some.inj h
      simp only [kept, update, Array.getElem?_modify, BuildCall.writesTo]
      by_cases hn : target = node
      · subst hn
        rw [if_pos rfl, if_pos rfl, Array.getElem?_eq_getElem ht]
        rw [Option.map_some, Option.bind_some, Option.bind_some, Element.written_edit,
          Snapshot.entries_insertAll]
      · rw [if_neg hn, if_neg hn]
        rfl

/-- What is kept after some calls: the value written last, or what was kept before. -/
theorem kept_build {tree built : Tree} {calls : List BuildCall}
    (h : tree.build? calls = some built) (node : Nat) (key : String) :
    built.kept node key =
      (lastWritten key (writesTo node tree.size calls)).or (tree.kept node key) := by
  induction calls generalizing tree with
  | nil =>
      obtain rfl := Option.some.inj h
      rfl
  | cons call rest ih =>
      obtain ⟨next, hcall, hrest⟩ := Option.bind_eq_some_iff.1 h
      rw [ih hrest, kept_call hcall, size_call hcall, writesTo, lastWritten_append, Option.or_assoc]

/-- What some calls leave under a name: the value that they wrote last. -/
theorem entries_build {calls : List BuildCall} {tree : Tree}
    (h : Tree.empty.build? calls = some tree) (node : tree.NodeId) (key : String) :
    (tree.element node).written.entries[key]? = lastWritten key (writesTo node.val 0 calls) := by
  rw [← kept_val, kept_build h]
  exact Option.or_none

/-! ### What is reported -/

theorem canonicalName_placed : ∀ name ∈ AttrName.placed, canonicalName name = name := by
  decide +kernel

theorem canonicalName_states : canonicalName AttrName.states = AttrName.states ∧
    canonicalName AttrName.statesEnUs = AttrName.statesEnUs := by
  decide +kernel

/-- The attributes that follow from the place of a node are written under names of their own. -/
theorem exists_placed (tree : Tree) (node : tree.NodeId) : ∃ placed : Snapshot,
    (∀ key ∉ AttrName.placed, placed.entries[key]? = (tree.element node).written.entries[key]?) ∧
    (placed.entries[AttrName.indexInParent]? =
        some (.int (Int64.ofNat (tree.place node).1)) ∧
      placed.entries[AttrName.childrenCount]? =
        some (.int (Int64.ofNat (tree.children node).length)) ∧
      placed.entries[AttrName.objectDepth]? = some (.int (Int64.ofNat (tree.depth node)))) ∧
    tree.attributes node =
      if placed.get? AttrName.states = none then
        (placed.insert AttrName.states (.states ∅)).insert AttrName.statesEnUs (.states ∅)
      else placed := by
  have hread (snapshot : Snapshot) (name : String) (value : AttrValue) (key : String)
      (hname : name ∈ AttrName.placed) : (snapshot.insert name value).entries[key]? =
        if name = key then some value else snapshot.entries[key]? := by
    rw [Snapshot.entries_insert, canonicalName_placed name hname]
  have hindex : AttrName.indexInParent ∈ AttrName.placed := by decide
  have hcount : AttrName.childrenCount ∈ AttrName.placed := by decide
  have hdepth : AttrName.objectDepth ∈ AttrName.placed := by decide
  refine ⟨_, fun key hkey => ?_, ⟨?_, ?_, ?_⟩, rfl⟩
  · rw [hread _ _ _ _ hdepth, hread _ _ _ _ hcount, hread _ _ _ _ hindex,
      if_neg (ne_of_mem_of_not_mem hdepth hkey), if_neg (ne_of_mem_of_not_mem hcount hkey),
      if_neg (ne_of_mem_of_not_mem hindex hkey)]
  · rw [hread _ _ _ _ hdepth, if_neg (by decide), hread _ _ _ _ hcount, if_neg (by decide),
      hread _ _ _ _ hindex, if_pos rfl]
  · rw [hread _ _ _ _ hdepth, if_neg (by decide), hread _ _ _ _ hcount, if_pos rfl]
  · rw [hread _ _ _ _ hdepth, if_pos rfl]

/-- What is reported of the place of a node. -/
theorem get?_attributes_placed (tree : Tree) (node : tree.NodeId) :
    (tree.attributes node).get? AttrName.indexInParent =
        some (.int (Int64.ofNat (tree.place node).1)) ∧
      (tree.attributes node).get? AttrName.childrenCount =
        some (.int (Int64.ofNat (tree.children node).length)) ∧
      (tree.attributes node).get? AttrName.objectDepth =
        some (.int (Int64.ofNat (tree.depth node))) := by
  obtain ⟨placed, -, ⟨hindex, hcount, hdepth⟩, hattributes⟩ := tree.exists_placed node
  -- the sets of states go by other names
  have hread {name : String} {value : AttrValue} (hname : name ∈ AttrName.placed)
      (h : placed.entries[name]? = some value) :
      (tree.attributes node).get? name = some value := by
    have hstates : AttrName.states ≠ name := (ne_of_mem_of_not_mem hname (by decide)).symm
    have hen : AttrName.statesEnUs ≠ name := (ne_of_mem_of_not_mem hname (by decide)).symm
    rw [hattributes]
    split
    · simp [Snapshot.get?, Snapshot.entries_insert, canonicalName_states, hstates, hen, h]
    · simp [Snapshot.get?, h]
  exact ⟨hread (by decide) hindex, hread (by decide) hcount, hread (by decide) hdepth⟩

/-- What is reported under a name that does not follow from the place of the node. -/
theorem entries_attributes (tree : Tree) (node : tree.NodeId) {key : String}
    (hkey : key ∉ AttrName.placed) : (tree.attributes node).entries[key]? =
      let written := (tree.element node).written.entries
      if written[AttrName.states]? = none ∧ (key = AttrName.states ∨ key = AttrName.statesEnUs) then
        some (.states ∅)
      else written[key]? := by
  obtain ⟨placed, hplaced, -, hattributes⟩ := tree.exists_placed node
  dsimp only
  rw [hattributes, Snapshot.get?, canonicalName_states.1, hplaced AttrName.states (by decide)]
  cases (tree.element node).written.entries[AttrName.states]? with
  | some value =>
      rw [if_neg (by simp), hplaced key hkey]
      exact (if_neg fun h => Option.some_ne_none value h.1).symm
  | none =>
      rw [if_pos (by rfl), Snapshot.entries_insert, Snapshot.entries_insert, canonicalName_states.1,
        canonicalName_states.2, hplaced key hkey]
      by_cases hen : AttrName.statesEnUs = key
      · simp [hen]
      · by_cases hst : AttrName.states = key
        · simp [hst]
        · simp [hen, hst, Ne.symm hen, Ne.symm hst]

end Tree

/-- What was written to a node stands in a snapshot, and empty sets of states do where no states
were written.  Attributes that follow from the place of the node are left out of account. -/
def AsWritten (writes : List (String × AttrValue)) (snapshot : Snapshot) : Prop :=
  ∀ key ∉ AttrName.placed, snapshot.entries[key]? = match lastWritten key writes with
    | some value => some value
    | none =>
        if key = AttrName.states ∨ key = AttrName.statesEnUs then some (.states ∅) else none

/-- Both sets of states were written or neither was, a set that is empty aside. -/
def StatesAgree (writes : List (String × AttrValue)) : Prop :=
  match lastWritten AttrName.states writes with
  | none => ∀ value, lastWritten AttrName.statesEnUs writes = some value → value = .states ∅
  | some _ => lastWritten AttrName.statesEnUs writes ≠ none

/-- The decision about both sets is right exactly if both were written or neither was. -/
theorem asWritten_iff {writes : List (String × AttrValue)} {snapshot : Snapshot}
    (h : ∀ key ∉ AttrName.placed, snapshot.entries[key]? =
      if lastWritten AttrName.states writes = none ∧
          (key = AttrName.states ∨ key = AttrName.statesEnUs) then some (.states ∅)
      else lastWritten key writes) : AsWritten writes snapshot ↔ StatesAgree writes := by
  have hen : AttrName.statesEnUs ∉ AttrName.placed := by decide
  unfold StatesAgree
  cases hstates : lastWritten AttrName.states writes with
  | none =>
      simp only [hstates, true_and] at h ⊢
      constructor
      · intro hw value hvalue
        have hread := hw _ hen
        rw [h _ hen, if_pos (Or.inr rfl), hvalue] at hread
        exact (Option.some.inj hread).symm
      · intro hw key hkey
        rw [h key hkey]
        cases hvalue : lastWritten key writes with
        | none => rfl
        | some value =>
            split
            · next hor =>
                rcases hor with rfl | rfl
                · rw [hstates] at hvalue
                  cases hvalue
                · rw [hw value hvalue]
            · rfl
  | some set =>
      simp only [hstates, reduceCtorEq, false_and, if_false] at h ⊢
      constructor
      · intro hw hnone
        have hread := hw _ hen
        rw [h _ hen, hnone] at hread
        exact Option.some_ne_none _ hread.symm
      · intro hw key hkey
        rw [h key hkey]
        cases hvalue : lastWritten key writes with
        | some value => rfl
        | none =>
            refine (if_neg ?_).symm
            rintro (rfl | rfl)
            · rw [hstates] at hvalue
              cases hvalue
            · exact hw hvalue

namespace Bridge

/-- A bridge to a tree that was built, by some calls or by those of a fixture, reports what was
written last to a node, exactly if both sets of states were written or neither was.  In any case it
reports empty sets where `states` was not written, and else what was written. -/
theorem attributes_as_written_iff (calls : List BuildCall) (tree : Tree)
    (hb : Tree.empty.build? calls = some tree ∨
      ∃ fixture : Fixture, calls = fixture.calls none 0 ∧ tree = Tree.ofFixture fixture)
    (node : tree.NodeId) (bridge : Bridge tree) (handle : Handle) (hd : bridge.Denotes handle node)
    (hf : bridge.failures .attributes node.val = none) :
    let writes := writesTo node.val 0 calls
    ∃ snapshot, (attributes handle bridge).1 = .ok snapshot ∧
      (AsWritten writes snapshot ↔ StatesAgree writes) ∧
      ∀ key ∉ AttrName.placed, snapshot.entries[key]? =
        if lastWritten AttrName.states writes = none ∧
            (key = AttrName.states ∨ key = AttrName.statesEnUs) then some (.states ∅)
        else lastWritten key writes := by
  intro writes
  have hbuild : Tree.empty.build? calls = some tree := by
    rcases hb with hb | ⟨fixture, rfl, rfl⟩
    · exact hb
    · exact fixture.build?_calls
  have hreported (key : String) (hkey : key ∉ AttrName.placed) :
      (tree.attributes node).entries[key]? =
        if lastWritten AttrName.states writes = none ∧
            (key = AttrName.states ∨ key = AttrName.statesEnUs) then some (.states ∅)
        else lastWritten key writes := by
    rw [tree.entries_attributes node hkey]
    simp only [Tree.entries_build hbuild, writes]
  exact ⟨tree.attributes node, attributes_of_locate (locate_of_denotes hd hf),
    asWritten_iff hreported, hreported⟩

/-- A panel is built that is focused, and focused is what is reported. -/
theorem attributes_as_written_iff_panel :
    let calls : List BuildCall :=
      [.root "panel" "Main", .edit 0 (.states "focused"), .edit 0 (.attr "NAME" (.text "Side"))]
    let tree := ((Tree.single (.new "panel" "Main")).update ⟨0, by decide⟩
      (·.setStates "focused")).update ⟨0, by decide⟩ (·.write "NAME" (.text "Side"))
    let acquired := acquire ⟨0, by decide⟩ (new tree ⟨7⟩)
    let writes := writesTo 0 0 calls
    Tree.empty.build? calls = some tree ∧ acquired.2.Denotes acquired.1 ⟨0, by decide⟩ ∧
      acquired.2.failures .attributes 0 = none ∧ StatesAgree writes ∧
      ∃ snapshot, (attributes acquired.1 acquired.2).1 = .ok snapshot ∧
        (AsWritten writes snapshot ↔ StatesAgree writes) ∧
        ∀ key ∉ AttrName.placed, snapshot.entries[key]? =
          if lastWritten AttrName.states writes = none ∧
              (key = AttrName.states ∨ key = AttrName.statesEnUs) then some (.states ∅)
          else lastWritten key writes := by
  intro calls tree acquired writes
  have hbuild : Tree.empty.build? calls = some tree := rfl
  have hdenotes : acquired.2.Denotes acquired.1 ⟨0, by decide⟩ := ⟨rfl, by decide +kernel⟩
  have hstates : lastWritten AttrName.states writes = some (.ofCsv "focused") := by decide +kernel
  have hen : lastWritten AttrName.statesEnUs writes ≠ none := by decide +kernel
  have hagree : StatesAgree writes := by
    rw [StatesAgree, hstates]
    exact hen
  exact ⟨hbuild, hdenotes, rfl, hagree,
    attributes_as_written_iff calls tree (.inl hbuild) ⟨0, by decide⟩ acquired.2 acquired.1
      hdenotes rfl⟩

/-- States that were written as `states_en_us` alone are lost: an empty set is reported. -/
theorem attributes_lose_states :
    let focused : AttrValue := .ofCsv "focused"
    let fixture : Fixture :=
      { role := "panel", attributes := Std.ExtTreeMap.ofList [(AttrName.statesEnUs, focused)] }
    let tree := Tree.ofFixture fixture
    let acquired := acquire (⟨0, by decide⟩ : tree.NodeId) (new tree ⟨7⟩)
    let reported := (attributes acquired.1 acquired.2).1.toOption
    acquired.2.nodeOf? acquired.1 = some ⟨0, by decide⟩ ∧
      lastWritten AttrName.statesEnUs (writesTo 0 0 (fixture.calls none 0)) = some focused ∧
      focused ≠ .states ∅ ∧
      (reported.bind fun snapshot => snapshot.entries[AttrName.statesEnUs]?) =
        some (.states ∅) := by
  decide +kernel

end Bridge

end AccessQuery
