/-
**How predicates are grouped.**

The text of a predicate shows its tests and the words between them, and nothing else.  Whatever the
nesting was, a text of alternatives, each of them a chain of tests, is what remains; reading it
joins both kinds of chains from the left.  A predicate that has this form already is not changed by
printing and reading it.

Main definitions:

* `AccessQuery.Chain` — at least one item, in a row;
* `AccessQuery.Predicate.alternatives` — the chains of tests that the text of a predicate shows;
* `AccessQuery.Predicate.regroup` — the predicate that is joined from them;
* `AccessQuery.Predicate.conjoin`, `AccessQuery.Predicate.leansLeft` — conjunctions that are joined
  from the left.

Main results:

* `AccessQuery.Predicate.display_eq_spelled` — what the text of a predicate shows;
* `AccessQuery.Predicate.regroup_or`, `AccessQuery.Predicate.regroup_and`,
  `AccessQuery.Predicate.regroup_of_mem_conjuncts` — predicates that are not changed;
* `AccessQuery.Predicate.conjoin_conjuncts_iff` — joining the conjuncts of a predicate gives the
  predicate back if it leans to the left.
-/

import Mathlib.Data.List.Basic
import Mathlib.Data.List.Induction
import AccessQuery.Predicate.Printer

set_option relaxedAutoImplicit false
set_option autoImplicit false

namespace AccessQuery

/-! ### Chains -/

/-- At least one item, in a row. -/
structure Chain (α : Type) where
  /-- The item at the beginning. -/
  first : α
  /-- The items that follow it. -/
  others : List α
  deriving DecidableEq

namespace Chain

variable {α β : Type}

/-- The items of a chain. -/
def toList (chain : Chain α) : List α :=
  chain.first :: chain.others

/-- An item before a chain. -/
def cons (a : α) (chain : Chain α) : Chain α :=
  ⟨a, chain.toList⟩

/-- One chain after another. -/
def append (a b : Chain α) : Chain α :=
  ⟨a.first, a.others ++ b.toList⟩

def map (f : α → β) (chain : Chain α) : Chain β :=
  ⟨f chain.first, chain.others.map f⟩

/-- The items joined from the left. -/
def joined (join : α → α → α) (chain : Chain α) : α :=
  chain.others.foldl join chain.first

/-- The text of a chain: a word stands between its items. -/
def spelled (word : String) (spell : α → List Char) (chain : Chain α) : List Char :=
  spell chain.first ++ chain.others.flatMap fun a => ' ' :: word.toList ++ ' ' :: spell a

/-- One chain of chains after another, where the last chain of the one and the first chain of the
other become one. -/
def fuse (a b : Chain (Chain α)) : Chain (Chain α) :=
  fuseFrom a.first a.others
where
  /-- The same, from an item of the first chain on. -/
  fuseFrom (c : Chain α) : List (Chain α) → Chain (Chain α)
    | [] => ⟨c.append b.first, b.others⟩
    | d :: rest => (fuseFrom d rest).cons c

/-- The items of a chain of chains. -/
def flatten (chain : Chain (Chain α)) : List α :=
  chain.toList.flatMap toList

@[simp] theorem toList_append (a b : Chain α) : (a.append b).toList = a.toList ++ b.toList :=
  rfl

theorem spelled_cons (word : String) (spell : α → List Char) (a : α) (chain : Chain α) :
    (chain.cons a).spelled word spell =
      spell a ++ ' ' :: word.toList ++ ' ' :: chain.spelled word spell := by
  simp [spelled, cons, toList]

theorem spelled_append (word : String) (spell : α → List Char) (a b : Chain α) :
    (a.append b).spelled word spell =
      a.spelled word spell ++ ' ' :: word.toList ++ ' ' :: b.spelled word spell := by
  simp [spelled, append, toList]

theorem flatten_cons (a : Chain α) (chain : Chain (Chain α)) :
    (chain.cons a).flatten = a.toList ++ chain.flatten :=
  rfl

theorem flatten_append (a b : Chain (Chain α)) :
    (a.append b).flatten = a.flatten ++ b.flatten := by
  simp [flatten]

theorem flatten_fuse (a b : Chain (Chain α)) : (a.fuse b).flatten = a.flatten ++ b.flatten := by
  obtain ⟨c, rest⟩ := a
  rw [fuse]
  dsimp only
  -- on the chains up to the last one, which is where the two are fused
  induction rest generalizing c with
  | nil => simp [fuse.fuseFrom, flatten, toList, append]
  | cons d rest ih =>
      rw [fuse.fuseFrom, flatten_cons, ih d, ← List.append_assoc]
      rfl

theorem spelled_fuse (outer inner : String) (spell : α → List Char) (a b : Chain (Chain α)) :
    (a.fuse b).spelled outer (spelled inner spell) =
      a.spelled outer (spelled inner spell) ++ ' ' :: inner.toList ++
        ' ' :: b.spelled outer (spelled inner spell) := by
  obtain ⟨c, rest⟩ := a
  rw [fuse]
  dsimp only
  induction rest generalizing c with
  | nil => simp [fuse.fuseFrom, spelled, append, toList]
  | cons d rest ih =>
      have hcons : (⟨c, d :: rest⟩ : Chain (Chain α)) = cons c ⟨d, rest⟩ := rfl
      rw [fuse.fuseFrom, spelled_cons, ih d, hcons, spelled_cons]
      simp

theorem mem_flatten {chain : Chain (Chain α)} {c : Chain α} {a : α} (hc : c ∈ chain.toList)
    (ha : a ∈ c.toList) : a ∈ chain.flatten :=
  List.mem_flatMap.2 ⟨c, hc, ha⟩

end Chain

namespace Predicate

/-! ### What the text of a predicate shows -/

/-- A test, that is neither a conjunction nor a disjunction. -/
def isTerm : Predicate → Bool
  | .and _ _ | .or _ _ => false
  | _ => true

/-- The chains of tests that the text of a predicate shows. -/
def alternatives : Predicate → Chain (Chain Predicate)
  | .or l r => l.alternatives.append r.alternatives
  | .and l r => l.alternatives.fuse r.alternatives
  | p => ⟨⟨p, []⟩, []⟩

theorem alternatives_of_isTerm {p : Predicate} (h : p.isTerm = true) :
    p.alternatives = ⟨⟨p, []⟩, []⟩ := by
  cases p with
  | and l r | or l r => cases h
  | _ => rfl

/-- The text of a predicate shows its alternatives. -/
theorem display_eq_spelled (p : Predicate) : p.display.toList =
    p.alternatives.spelled "or" (Chain.spelled "and" fun t => t.display.toList) := by
  induction p with
  | and l r ihl ihr =>
      rw [alternatives, Chain.spelled_fuse, ← ihl, ← ihr, display]
      simp
  | or l r ihl ihr =>
      rw [alternatives, Chain.spelled_append, ← ihl, ← ihr, display]
      simp
  | _ => simp [alternatives, Chain.spelled]

/-- The tests of a predicate are tests, and have every property that passes from a predicate to its
operands. -/
theorem of_mem_flatten_alternatives {P : Predicate → Prop} {p t : Predicate} (hp : P p)
    (hand : ∀ l r, P (.and l r) → P l ∧ P r) (hor : ∀ l r, P (.or l r) → P l ∧ P r)
    (ht : t ∈ p.alternatives.flatten) : t.isTerm = true ∧ P t := by
  induction p with
  | and l r ihl ihr =>
      rw [alternatives, Chain.flatten_fuse, List.mem_append] at ht
      exact ht.elim (ihl (hand l r hp).1) (ihr (hand l r hp).2)
  | or l r ihl ihr =>
      rw [alternatives, Chain.flatten_append, List.mem_append] at ht
      exact ht.elim (ihl (hor l r hp).1) (ihr (hor l r hp).2)
  | _ =>
      obtain rfl : t = _ := by simpa [alternatives, Chain.flatten, Chain.toList] using ht
      exact ⟨rfl, hp⟩

/-! ### Joining from the left -/

/-- Alternatives of tests, joined from the left. -/
def join (alternatives : Chain (Chain Predicate)) : Predicate :=
  (alternatives.map (Chain.joined .and)).joined .or

/-- The predicate that is joined from what the text of a predicate shows. -/
def regroup (p : Predicate) : Predicate :=
  join p.alternatives

theorem regroup_of_isTerm {p : Predicate} (h : p.isTerm = true) : p.regroup = p := by
  rw [regroup, alternatives_of_isTerm h]
  rfl

theorem join_append (a : Chain (Chain Predicate)) (c : Chain Predicate) :
    join (a.append ⟨c, []⟩) = .or (join a) (c.joined .and) := by
  simp [join, Chain.joined, Chain.map, Chain.append, Chain.toList]

/-- A disjunction is not changed by regrouping if its operands are not, and the one on the right
has no alternatives. -/
theorem regroup_or {l r : Predicate} (hl : l.regroup = l) (hr : r.regroup = r)
    (hs : r.alternatives.others = []) : (Predicate.or l r).regroup = .or l r := by
  have hr' : r.alternatives = ⟨r.alternatives.first, []⟩ := by rw [← hs]
  have hjoin : r.alternatives.first.joined .and = r := by
    rw [regroup, hr'] at hr
    exact hr
  rw [regroup, alternatives, hr', join_append, hjoin]
  exact congrArg (Predicate.or · r) hl

/-- A conjunction is not changed by regrouping if its left operand is not and has no alternatives,
and the other one is a test. -/
theorem regroup_and {l r : Predicate} (hl : l.regroup = l) (hs : l.alternatives.others = [])
    (hr : r.isTerm = true) : (Predicate.and l r).regroup = .and l r ∧
      (Predicate.and l r).alternatives.others = [] := by
  have hl' : l.alternatives = ⟨l.alternatives.first, []⟩ := by rw [← hs]
  have hjoin : l.alternatives.first.joined .and = l := by
    rw [regroup, hl'] at hl
    exact hl
  have halt : (Predicate.and l r).alternatives = ⟨l.alternatives.first.append ⟨r, []⟩, []⟩ := by
    rw [alternatives, alternatives_of_isTerm hr, hl']
    rfl
  refine ⟨?_, by rw [halt]⟩
  calc (Predicate.and l r).regroup = (l.alternatives.first.append ⟨r, []⟩).joined .and := by
        rw [regroup, halt]
        rfl
    _ = .and (l.alternatives.first.joined .and) r := by
        simp [Chain.joined, Chain.append, Chain.toList]
    _ = .and l r := by rw [hjoin]

theorem conjuncts_of_isTerm {p : Predicate} (h : p.isTerm = true) : p.conjuncts = [p] := by
  cases p with
  | and l r | or l r => cases h
  | _ => rfl

theorem conjuncts_foldl (p : Predicate) (ps : List Predicate) :
    (ps.foldl .and p).conjuncts = p.conjuncts ++ ps.flatMap conjuncts := by
  induction ps generalizing p with
  | nil => simp
  | cons q ps ih => rw [List.foldl_cons, ih, conjuncts, List.flatMap_cons, List.append_assoc]

/-- Where a predicate is not changed by regrouping, its conjuncts are not. -/
theorem regroup_of_mem_conjuncts {p c : Predicate} (h : p.regroup = p) (hc : c ∈ p.conjuncts) :
    c.regroup = c := by
  have hterm (t : Predicate) (ht : t ∈ p.alternatives.flatten) : t.isTerm = true :=
    (of_mem_flatten_alternatives (P := fun _ => True) trivial (by simp) (by simp) ht).1
  rw [regroup] at h
  generalize halt : p.alternatives = alternatives at h hterm
  obtain ⟨⟨t, ts⟩, others⟩ := alternatives
  cases others using List.reverseRecOn with
  | nil =>
      -- a chain of tests, which are its conjuncts
      have hts (q : Predicate) (hq : q ∈ t :: ts) : q.isTerm = true :=
        hterm q (Chain.mem_flatten List.mem_cons_self hq)
      have hp : ts.foldl .and t = p := h
      rw [← hp, conjuncts_foldl, ← List.flatMap_cons] at hc
      obtain ⟨q, hq, hc⟩ := List.mem_flatMap.1 hc
      rw [conjuncts_of_isTerm (hts q hq), List.mem_singleton] at hc
      exact hc ▸ regroup_of_isTerm (hts q hq)
  | append_singleton others last =>
      -- more than one alternative: the predicate is a disjunction, and its only conjunct
      have hp : p = .or (join ⟨⟨t, ts⟩, others⟩) (last.joined .and) :=
        h.symm.trans (join_append ⟨⟨t, ts⟩, others⟩ last)
      rw [hp] at hc
      rw [List.mem_singleton.1 hc, ← hp, regroup, halt, h]

/-! ### Conjunctions that lean to the left -/

/-- The conjunction of some predicates, joined from the left. -/
def conjoin (ps : List Predicate) : Option Predicate :=
  ps.foldl (fun before p => both? before (some p)) none

/-- Whether no right operand in a chain of conjunctions is a conjunction. -/
def leansLeft : Predicate → Bool
  | .and _ (.and _ _) => false
  | .and l _ => l.leansLeft
  | _ => true

theorem conjoin_concat (ps : List Predicate) (p : Predicate) :
    conjoin (ps ++ [p]) = both? (conjoin ps) (some p) := by
  rw [conjoin, List.foldl_append]
  rfl

theorem conjoin_ne_none {ps : List Predicate} (h : ps ≠ []) : conjoin ps ≠ none := by
  rw [← List.dropLast_concat_getLast h, conjoin_concat]
  cases conjoin ps.dropLast <;> simp [both?]

theorem conjuncts_of_mem_conjuncts {p c : Predicate} (hc : c ∈ p.conjuncts) :
    c.conjuncts = [c] := by
  induction p with
  | and l r ihl ihr => exact (List.mem_append.1 hc).elim ihl ihr
  | _ =>
      rw [List.mem_singleton.1 hc]
      rfl

/-- A conjunction is not its only conjunct. -/
theorem ne_and_of_conjuncts {p : Predicate} (h : p.conjuncts = [p]) (l r : Predicate) :
    p ≠ .and l r := by
  rintro rfl
  have hlen := congrArg List.length h
  have hl := List.length_pos_of_ne_nil (conjuncts_ne_nil l)
  have hr := List.length_pos_of_ne_nil (conjuncts_ne_nil r)
  simp only [conjuncts, List.length_append, List.length_singleton] at hlen
  omega

theorem leansLeft_of_conjuncts {p : Predicate} (h : p.conjuncts = [p]) : p.leansLeft = true := by
  cases p with
  | and l r => exact absurd rfl (ne_and_of_conjuncts h l r)
  | _ => rfl

theorem leansLeft_and {l r : Predicate} (h : r.conjuncts = [r]) :
    (Predicate.and l r).leansLeft = l.leansLeft := by
  cases r with
  | and a b => exact absurd rfl (ne_and_of_conjuncts h a b)
  | _ => rfl

/-- What is joined from conjuncts leans to the left and has these conjuncts. -/
theorem conjoin_spec {ps : List Predicate} (hps : ps ≠ []) (h : ∀ p ∈ ps, p.conjuncts = [p]) :
    ∃ p, conjoin ps = some p ∧ p.leansLeft = true ∧ p.conjuncts = ps := by
  induction ps using List.reverseRecOn with
  | nil => exact absurd rfl hps
  | append_singleton ps p ih =>
      have hp : p.conjuncts = [p] := h p (by simp)
      by_cases hnil : ps = []
      · subst hnil
        exact ⟨p, rfl, leansLeft_of_conjuncts hp, hp⟩
      · obtain ⟨q, hq, hl, hc⟩ := ih hnil fun q hq => h q (List.mem_append_left _ hq)
        refine ⟨.and q p, ?_, ?_, ?_⟩
        · rw [conjoin_concat, hq]
          rfl
        · rw [leansLeft_and hp, hl]
        · rw [conjuncts, hc, hp]

theorem conjoin_conjuncts_of_leansLeft {p : Predicate} (h : p.leansLeft = true) :
    conjoin p.conjuncts = some p := by
  induction p with
  | and l r ihl _ =>
      cases r with
      | and a b => cases h
      | _ =>
          change conjoin (l.conjuncts ++ [_]) = _
          rw [conjoin_concat, ihl h]
          rfl
  | _ => rfl

/-- Joining the conjuncts of a predicate gives the predicate back if it leans to the left. -/
theorem conjoin_conjuncts_iff {p : Predicate} :
    conjoin p.conjuncts = some p ↔ p.leansLeft = true := by
  constructor
  · intro h
    obtain ⟨q, hq, hl, _⟩ := conjoin_spec (conjuncts_ne_nil p) fun c hc =>
      conjuncts_of_mem_conjuncts hc
    obtain rfl := Option.some.inj (h.symm.trans hq)
    exact hl
  · exact conjoin_conjuncts_of_leansLeft

end Predicate

end AccessQuery
