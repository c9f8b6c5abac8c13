/-
**The numbers of the nodes of a fixture.**

The table of a fixture lists its nodes depth first.  So the node with a given number is the part of
the document that a depth-first reading comes to after as many others, its children are the parts
nested in it, in their order, and a depth-first walk through the tree counts from one number to the
next.

Main definitions:

* `AccessQuery.Fixture.parts` — a fixture and everything nested in it, depth first;
* `AccessQuery.Fixture.starts` — the numbers of fixtures that stand one after another.

Main results:

* `AccessQuery.Fixture.element_ofFixture` — what is written to the node with a given number;
* `AccessQuery.Fixture.map_children_ofFixture` — the children of a node are the parts nested in it;
* `AccessQuery.Fixture.preorder_ofFixture` — numbers are counted in pre-order.
-/

import AccessQuery.Proofs.Building

set_option relaxedAutoImplicit false
set_option autoImplicit false

namespace AccessQuery.Fixture

/-! ### Parts -/

mutual

/-- A fixture and everything nested in it, depth first. -/
def parts : Fixture → List Fixture
  | ⟨role, name, description, states, capabilities, attributes, children⟩ =>
      ⟨role, name, description, states, capabilities, attributes, children⟩ :: partsList children

/-- Some fixtures and everything nested in them, depth first. -/
def partsList : List Fixture → List Fixture
  | [] => []
  | fixture :: rest => parts fixture ++ partsList rest

end

/-- The numbers of fixtures that stand one after another, from a place on. -/
def starts (place : Nat) : List Fixture → List Nat
  | [] => []
  | fixture :: rest => place :: starts (place + fixture.count) rest

theorem parts_eq (fixture : Fixture) : fixture.parts = fixture :: partsList fixture.children := by
  cases fixture
  rfl

theorem count_eq (fixture : Fixture) : fixture.count = countList fixture.children + 1 := by
  cases fixture
  rfl

theorem flatten_eq (parent : Option Nat) (start : Nat) (fixture : Fixture) :
    flatten parent start fixture =
      ⟨parent, fixture.element⟩ :: flattenList start (start + 1) fixture.children := by
  cases fixture
  rfl

mutual

theorem length_parts (fixture : Fixture) : fixture.parts.length = fixture.count := by
  cases fixture with
  | mk role name description states capabilities attributes children =>
      rw [parts, List.length_cons, length_partsList children, count]

theorem length_partsList (fixtures : List Fixture) :
    (partsList fixtures).length = countList fixtures := by
  cases fixtures with
  | nil => rfl
  | cons fixture rest =>
      rw [partsList, List.length_append, length_parts fixture, length_partsList rest, countList]

end

mutual

/-- The table holds what the parts write. -/
theorem map_element_flatten (parent : Option Nat) (start : Nat) (fixture : Fixture) :
    (flatten parent start fixture).map Node.element = fixture.parts.map element := by
  cases fixture with
  | mk role name description states capabilities attributes children =>
      rw [flatten, parts, List.map_cons, List.map_cons, map_element_flattenList _ _ children]

theorem map_element_flattenList (parent start : Nat) (fixtures : List Fixture) :
    (flattenList parent start fixtures).map Node.element = (partsList fixtures).map element := by
  cases fixtures with
  | nil => rfl
  | cons fixture rest =>
      rw [flattenList, partsList, List.map_append, List.map_append, map_element_flatten _ _ fixture,
        map_element_flattenList _ _ rest]

end

/-! ### Parts by their numbers -/

/-- Fixtures that stand one after another are found at their numbers. -/
theorem getElem?_starts (before after : List Fixture) (fixtures : List Fixture) :
    (starts before.length fixtures).map ((before ++ partsList fixtures ++ after)[·]?) =
      fixtures.map some := by
  induction fixtures generalizing before with
  | nil => rfl
  | cons fixture rest ih =>
      have hrest := ih (before ++ fixture.parts)
      rw [List.length_append, length_parts] at hrest
      rw [starts, partsList, List.map_cons, List.map_cons, ← hrest]
      simp [parts_eq]

mutual

/-- From the number of a part on stand the parts of that part. -/
theorem exists_parts_append {fixture part : Fixture} {i : Nat} (h : fixture.parts[i]? = some part) :
    ∃ before after, fixture.parts = before ++ part.parts ++ after ∧ before.length = i := by
  cases fixture with
  | mk role name description states capabilities attributes children =>
      rw [parts] at h ⊢
      cases i with
      | zero =>
          obtain rfl := Option.some.inj h
          exact ⟨[], [], by simp [parts], rfl⟩
      | succ i =>
          obtain ⟨before, after, hparts, hlength⟩ := exists_partsList_append children h
          exact ⟨_ :: before, after, by rw [hparts]; rfl, by simp [hlength]⟩

theorem exists_partsList_append (fixtures : List Fixture) {part : Fixture} {i : Nat}
    (h : (partsList fixtures)[i]? = some part) :
    ∃ before after, partsList fixtures = before ++ part.parts ++ after ∧ before.length = i := by
  cases fixtures with
  | nil => cases h
  | cons fixture rest =>
      rw [partsList, List.getElem?_append] at h
      rw [partsList]
      split at h
      · obtain ⟨before, after, hparts, hlength⟩ := exists_parts_append h
        exact ⟨before, after ++ partsList rest, by rw [hparts]; simp, hlength⟩
      · next hi =>
          obtain ⟨before, after, hparts, hlength⟩ := exists_partsList_append rest h
          exact ⟨fixture.parts ++ before, after, by rw [hparts]; simp, by
            rw [List.length_append, hlength]; omega⟩

end

/-- The parts nested in a part are found at the numbers that follow. -/
theorem getElem?_starts_of_part {fixture part : Fixture} {i : Nat}
    (h : fixture.parts[i]? = some part) :
    (starts (i + 1) part.children).map (fixture.parts[·]?) = part.children.map some := by
  obtain ⟨before, after, hparts, rfl⟩ := exists_parts_append h
  have hstarts := getElem?_starts (before ++ [part]) after part.children
  rw [List.length_append, List.length_singleton] at hstarts
  rw [← hstarts, hparts, parts_eq part]
  simp

/-! ### Parents in the table -/

theorem mem_parents_flatten {parent : Option Nat} {start p : Nat} {fixture : Fixture}
    (h : some p ∈ (flatten parent start fixture).map Node.parent) :
    some p = parent ∨ start ≤ p ∧ p < start + fixture.count := by
  obtain ⟨node, hnode, hp⟩ := List.mem_map.1 h
  obtain ⟨i, hi⟩ := List.mem_iff_getElem?.1 hnode
  have hlt := (List.getElem?_eq_some_iff.1 hi).1
  rw [length_flatten] at hlt
  rcases parent_flatten hi with ⟨-, hparent⟩ | ⟨q, hq, hs, hqi⟩
  · exact Or.inl (hp.symm.trans hparent)
  · obtain rfl : p = q := Option.some.inj (hp.symm.trans hq)
    exact Or.inr ⟨hs, by omega⟩

theorem mem_parents_flattenList {parent start p : Nat} {fixtures : List Fixture}
    (h : some p ∈ (flattenList parent start fixtures).map Node.parent) :
    p = parent ∨ start ≤ p := by
  induction fixtures generalizing start with
  | nil => cases h
  | cons fixture rest ih =>
      rw [flattenList, List.map_append, List.mem_append] at h
      rcases h with h | h
      · rcases mem_parents_flatten h with h | ⟨hs, -⟩
        · exact Or.inl (Option.some.inj h)
        · exact Or.inr hs
      · rcases ih h with h | hs
        · exact Or.inl h
        · exact Or.inr (by omega)

/-- Where the children of a node stand among some entries, counted from a place on. -/
def childrenIn (place node : Nat) (entries : List Node) : List Nat :=
  (entries.map Node.parent).findIdxs (· == some node) place

theorem childrenIn_append (place node : Nat) (first rest : List Node) :
    childrenIn place node (first ++ rest) =
      childrenIn place node first ++ childrenIn (place + first.length) node rest := by
  simp [childrenIn, List.findIdxs_append]

theorem childrenIn_eq_nil {entries : List Node} {node : Nat}
    (h : ∀ p, some p ∈ entries.map Node.parent → p ≠ node) (place : Nat) :
    childrenIn place node entries = [] := by
  refine List.findIdxs_eq_nil_iff.2 fun above hmem => beq_eq_false_iff_ne.2 ?_
  rintro rfl
  exact h node hmem rfl

/-- Of the table of a fixture below a node, only the topmost node is a child of that node. -/
theorem childrenIn_flatten_parent {parent start : Nat} (h : parent < start) (fixture : Fixture)
    (place : Nat) : childrenIn place parent (flatten (some parent) start fixture) = [place] := by
  have hnone : childrenIn (place + 1) parent
      (flattenList start (start + 1) fixture.children) = [] :=
    childrenIn_eq_nil (fun p hp => by have := mem_parents_flattenList hp; omega) _
  rw [flatten_eq, childrenIn, List.map_cons, List.findIdxs_cons, if_pos (by simp)]
  exact congrArg (place :: ·) hnone

/-- Fixtures with a common parent are its children. -/
theorem childrenIn_flattenList_parent {parent start : Nat} (h : parent < start)
    (fixtures : List Fixture) :
    childrenIn start parent (flattenList parent start fixtures) = starts start fixtures := by
  induction fixtures generalizing start with
  | nil => rfl
  | cons fixture rest ih =>
      rw [flattenList, childrenIn_append, childrenIn_flatten_parent h, length_flatten,
        ih (by omega)]
      rfl

mutual

/-- The children of a part stand where the parts nested in it start. -/
theorem childrenIn_flatten {parent : Option Nat} {start : Nat}
    (h : ∀ p, parent = some p → p < start) {fixture part : Fixture} {i : Nat}
    (hi : fixture.parts[i]? = some part) :
    childrenIn start (start + i) (flatten parent start fixture) =
      starts (start + i + 1) part.children := by
  cases fixture with
  | mk role name description states capabilities attributes children =>
      have hhead : ¬(parent == some (start + i)) = true := by
        intro hp
        have hlt := h _ (beq_iff_eq.1 hp)
        omega
      rw [flatten, childrenIn, List.map_cons, List.findIdxs_cons, if_neg hhead]
      cases i with
      | zero =>
          obtain rfl := Option.some.inj hi
          exact childrenIn_flattenList_parent (Nat.lt_succ_self start) children
      | succ i =>
          have hrest := childrenIn_flattenList (Nat.lt_succ_self start) children hi
          rwa [Nat.add_assoc start 1 i, Nat.add_comm 1 i] at hrest

theorem childrenIn_flattenList {parent start : Nat} (h : parent < start) (fixtures : List Fixture)
    {part : Fixture} {i : Nat} (hi : (partsList fixtures)[i]? = some part) :
    childrenIn start (start + i) (flattenList parent start fixtures) =
      starts (start + i + 1) part.children := by
  cases fixtures with
  | nil => cases hi
  | cons fixture rest =>
      rw [partsList, List.getElem?_append] at hi
      rw [flattenList, childrenIn_append, length_flatten]
      split at hi
      · next hlt =>
          -- what follows has its parents further on
          rw [length_parts] at hlt
          have hfirst : childrenIn start (start + i) (flatten (some parent) start fixture) =
              starts (start + i + 1) part.children :=
            childrenIn_flatten (by rintro _ ⟨⟩; exact h) hi
          have hrest : childrenIn (start + fixture.count) (start + i)
              (flattenList parent (start + fixture.count) rest) = [] :=
            childrenIn_eq_nil (fun p hp => by have := mem_parents_flattenList hp; omega) _
          rw [hfirst, hrest, List.append_nil]
      · next hge =>
          -- what comes before has its parents further back
          rw [length_parts] at hge hi
          have hfirst :
              childrenIn start (start + i) (flatten (some parent) start fixture) = [] := by
            refine childrenIn_eq_nil (fun p hp => ?_) _
            rcases mem_parents_flatten hp with hp | hp
            · have := Option.some.inj hp
              omega
            · omega
          have hlt : parent < start + fixture.count := by omega
          have hrest := childrenIn_flattenList hlt rest hi
          have hplace : start + fixture.count + (i - fixture.count) = start + i := by omega
          rw [hplace] at hrest
          rw [hfirst, hrest, List.nil_append]

end

/-! ### The tree of a fixture -/

variable {fixture part : Fixture}

/-- The node with a given number carries what the part with that number writes. -/
theorem element_ofFixture {node : (Tree.ofFixture fixture).NodeId}
    (h : fixture.parts[node.val]? = some part) :
    (Tree.ofFixture fixture).element node = part.element := by
  have hall := congrArg (·[node.val]?) (map_element_flatten none 0 fixture)
  simp only [List.getElem?_map, h, Option.map_some] at hall
  obtain ⟨entry, hentry, helement⟩ := Option.map_eq_some_iff.1 hall
  obtain ⟨hlt, rfl⟩ := List.getElem?_eq_some_iff.1 hentry
  exact helement

theorem map_val_children_ofFixture {node : (Tree.ofFixture fixture).NodeId}
    (h : fixture.parts[node.val]? = some part) :
    ((Tree.ofFixture fixture).children node).map Fin.val = starts (node.val + 1) part.children := by
  have hchildren : childrenIn 0 (0 + node.val) (flatten none 0 fixture) =
      starts (0 + node.val + 1) part.children := childrenIn_flatten (by simp) h
  rw [Nat.zero_add] at hchildren
  rw [Tree.map_val_children, ← hchildren]
  rfl

/-- The children of a node are the parts nested in it, in their order. -/
theorem map_children_ofFixture {node : (Tree.ofFixture fixture).NodeId}
    (h : fixture.parts[node.val]? = some part) :
    ((Tree.ofFixture fixture).children node).map (fun child => fixture.parts[child.val]?) =
      part.children.map some := by
  rw [← getElem?_starts_of_part h, ← map_val_children_ofFixture h, List.map_map]
  rfl

/-- Walks from fixtures that stand one after another count on from each to the next. -/
theorem flatMap_preorderWith {fuel place : Nat} {nodes : List (Tree.ofFixture fixture).NodeId}
    {fixtures : List Fixture}
    (ih : ∀ (node : (Tree.ofFixture fixture).NodeId) (part : Fixture),
      fixture.parts[node.val]? = some part → part.count ≤ fuel + 1 →
      ((Tree.ofFixture fixture).preorderWith fuel node).map Fin.val =
        List.range' node.val part.count)
    (hnodes : nodes.map Fin.val = starts place fixtures)
    (hparts : nodes.map (fun node => fixture.parts[node.val]?) = fixtures.map some)
    (hfuel : countList fixtures ≤ fuel + 1) :
    (nodes.flatMap ((Tree.ofFixture fixture).preorderWith fuel)).map Fin.val =
      List.range' place (countList fixtures) := by
  induction fixtures generalizing nodes place with
  | nil =>
      obtain rfl := List.map_eq_nil_iff.1 hnodes
      rfl
  | cons first rest ihrest =>
      obtain ⟨node, others, rfl, rfl, hothers⟩ := List.map_eq_cons_iff.1 hnodes
      obtain ⟨hnode, hrest⟩ := List.cons.inj hparts
      rw [countList] at hfuel ⊢
      rw [List.flatMap_cons, List.map_append, ih node first hnode (by omega),
        ihrest hothers hrest (by omega), List.range'_append_1]

theorem preorderWith_ofFixture {fuel : Nat} {node : (Tree.ofFixture fixture).NodeId}
    (h : fixture.parts[node.val]? = some part) (hfuel : part.count ≤ fuel + 1) :
    ((Tree.ofFixture fixture).preorderWith fuel node).map Fin.val =
      List.range' node.val part.count := by
  induction fuel generalizing node part with
  | zero =>
      have hone : part.count = 1 := by
        have := part.count_pos
        omega
      rw [hone]
      rfl
  | succ fuel ih =>
      rw [count_eq] at hfuel ⊢
      rw [Tree.preorderWith, List.map_cons, List.range'_succ,
        flatMap_preorderWith (fun node part => ih) (map_val_children_ofFixture h)
          (map_children_ofFixture h) (by omega)]

/-- A depth-first walk through the tree of a fixture counts its nodes. -/
theorem preorder_ofFixture (fixture : Fixture) :
    (Tree.ofFixture fixture).preorder fixture.root =
      List.finRange (Tree.ofFixture fixture).size := by
  have hroot : fixture.parts[fixture.root.val]? = some fixture := by
    rw [parts_eq]
    rfl
  refine List.map_injective_iff.2 Fin.val_injective ?_
  rw [Tree.preorder, preorderWith_ofFixture hroot (by simp), List.map_coe_finRange_eq_range,
    List.range_eq_range']
  exact congrArg (List.range' 0) (Tree.size_ofFixture fixture).symm

end AccessQuery.Fixture
