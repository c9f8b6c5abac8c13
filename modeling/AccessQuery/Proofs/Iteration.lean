/-
**Children taken one at a time.**

The children of a node are taken and sorted out in any order, any number of times, until the rest is
dropped.  Whatever sorts them out may use the session and remember things; it is asked of each child
that is left whether it is wanted, once and in order.  No child is lost and none is given back
twice: each has been taken, or was refused and given back at once, or is still to be taken.  The
places that are handed out number the children that have been taken, and the count that goes with a
place is that of the children which are left in play when it is handed out.

Main definitions:

* `AccessQuery.Siblings.Use`, `AccessQuery.Siblings.Iteration` — a use of children, and what uses
  have led to;
* `AccessQuery.Siblings.wanted`, `AccessQuery.Siblings.unwanted` — what was answered of children;
* `AccessQuery.Siblings.Sorts` — sorting out keeps the children that are wanted, and no others;
* `AccessQuery.Siblings.Accounted` — the children and the numbers add up.

Main results:

* `AccessQuery.Siblings.Iteration.keepFrom_sifts`, `AccessQuery.Siblings.Iteration.sorts_retain` —
  so it does, and gives the others back;
* `AccessQuery.Siblings.Accounted.perform`, `AccessQuery.Siblings.Accounted.run` — a use leaves the
  account in order, and so do any uses;
* `AccessQuery.Siblings.iteration_accounted` — so it holds of children that are newly acquired, with
  what it says of the next place and of a drop.
-/

import AccessQuery.Siblings

set_option relaxedAutoImplicit false
set_option autoImplicit false

namespace AccessQuery

variable {tree : Tree} {κ : Type}

/-- Handles are given back one after another. -/
theorem Session.releaseAll_eq_foldl (handles : List Handle) (session : Session tree) :
    Session.releaseAll handles session = ((), handles.foldl Session.afterRelease session) := by
  induction handles generalizing session with
  | nil => rfl
  | cons handle rest ih => exact ih (session.afterRelease handle)

namespace Siblings

/-! ### Answers -/

/-- The children that were wanted, going by the answers. -/
def wanted (answers : List (Handle × Bool)) : List Handle :=
  (answers.filter fun answer => answer.2).map Prod.fst

/-- The children that were not. -/
def unwanted (answers : List (Handle × Bool)) : List Handle :=
  (answers.filter fun answer => !answer.2).map Prod.fst

theorem unwanted_append (answers more : List (Handle × Bool)) :
    unwanted (answers ++ more) = unwanted answers ++ unwanted more := by
  rw [unwanted, List.filter_append, List.map_append]
  rfl

theorem wanted_sublist (answers : List (Handle × Bool)) :
    (wanted answers).Sublist (answers.map Prod.fst) :=
  List.filter_sublist.map Prod.fst

theorem unwanted_wanted_perm (answers : List (Handle × Bool)) :
    (unwanted answers ++ wanted answers).Perm (answers.map Prod.fst) := by
  rw [unwanted, wanted, ← List.map_append]
  refine List.Perm.map Prod.fst (List.perm_append_comm.trans ?_)
  exact List.filter_append_perm (fun answer => answer.2) answers

/-! ### Uses -/

/-- One use of the children of a node.  What sorts them out has the session, and something that it
remembers. -/
inductive Use (tree : Tree) (κ : Type)
  | next
  | retain (keep : Handle → StateM (Session tree × κ) Bool)

/-- What uses of the children of a node have led to. -/
structure Iteration (tree : Tree) (κ : Type) where
  /-- The children that are left. -/
  siblings : Siblings
  /-- The children that have been taken, with their places. -/
  yielded : List (Handle × SiblingPosition)
  /-- The children of which it was asked whether they are wanted, with the answers. -/
  asked : List (Handle × Bool)
  /-- The children that have been given back. -/
  released : List Handle
  /-- The session. -/
  session : Session tree
  /-- What is remembered. -/
  memory : κ

namespace Iteration

/-- Children that have been acquired and not used. -/
def opening (handles : List Handle) (session : Session tree) (memory : κ) : Iteration tree κ :=
  ⟨.ofList handles, [], [], [], session, memory⟩

/-- Gives a child back, which is noted. -/
def giveBack (handle : Handle) : StateM (Iteration tree κ) Unit :=
  modify fun it =>
    { it with released := it.released ++ [handle], session := it.session.afterRelease handle }

/-- Asks whether a child is wanted, and notes the answer. -/
def ask (keep : Handle → StateM (Session tree × κ) Bool) (handle : Handle) :
    StateM (Iteration tree κ) Bool := fun it =>
  let (answer, session, memory) := keep handle (it.session, it.memory)
  (answer, { it with
    asked := it.asked ++ [(handle, answer)]
    session := session
    memory := memory })

/-- Makes one use of the children. -/
def perform (it : Iteration tree κ) : Use tree κ → Iteration tree κ
  | .next =>
      match it.siblings.next? with
      | none => it
      | some (child, rest) => { it with siblings := rest, yielded := it.yielded ++ [child] }
  | .retain keep =>
      let (siblings, after) := it.siblings.retain giveBack (ask keep) it
      { after with siblings := siblings }

/-- Makes uses of the children, one after another. -/
def run (it : Iteration tree κ) (uses : List (Use tree κ)) : Iteration tree κ :=
  uses.foldl perform it

/-! ### Sorting out -/

section Sorting

variable (keep : Handle → StateM (Session tree × κ) Bool)

/-- What is kept is numbered anew, from the next place on. -/
theorem perform_retain (it : Iteration tree κ) :
    let sorted := keepFrom giveBack (ask keep) it.siblings.unvisited it
    it.perform (.retain keep) = { sorted.2 with
      siblings := ⟨it.siblings.nextIndex, it.siblings.nextIndex + sorted.1.length, sorted.1⟩ } :=
  rfl

theorem keepFrom_cons (handle : Handle) (rest : List Handle) (it : Iteration tree κ) :
    keepFrom giveBack (ask keep) (handle :: rest) it =
      if (ask keep handle it).1 then
        (handle :: (keepFrom giveBack (ask keep) rest (ask keep handle it).2).1,
          (keepFrom giveBack (ask keep) rest (ask keep handle it).2).2)
      else keepFrom giveBack (ask keep) rest (giveBack handle (ask keep handle it).2).2 := by
  simp only [keepFrom, bind, StateT.bind]
  generalize ask keep handle it = asked
  obtain ⟨wanted, after⟩ := asked
  cases wanted <;> rfl

/-- Of each of the children that are sorted out it is asked, in order, whether it is wanted; those
that are wanted are kept, and the others are given back. -/
theorem keepFrom_sifts (handles : List Handle) (it : Iteration tree κ) :
    let sorted := keepFrom giveBack (ask keep) handles it
    ∃ answers, answers.map Prod.fst = handles ∧ sorted.1 = wanted answers ∧
      sorted.2.siblings = it.siblings ∧ sorted.2.yielded = it.yielded ∧
      sorted.2.asked = it.asked ++ answers ∧
      sorted.2.released = it.released ++ unwanted answers := by
  induction handles generalizing it with
  | nil => exact ⟨[], rfl, rfl, rfl, rfl, (List.append_nil _).symm, (List.append_nil _).symm⟩
  | cons handle rest ih =>
      rw [keepFrom_cons]
      have hasked : (ask keep handle it).2.asked = it.asked ++ [(handle, (ask keep handle it).1)] :=
        rfl
      by_cases hwanted : (ask keep handle it).1 = true
      · obtain ⟨answers, hall, hkept, hsiblings, hyielded, htold, hreleased⟩ :=
          ih (ask keep handle it).2
        rw [if_pos hwanted]
        refine ⟨(handle, true) :: answers, congrArg (handle :: ·) hall,
          congrArg (handle :: ·) hkept, hsiblings, hyielded, ?_, hreleased⟩
        rw [htold, hasked, hwanted, List.append_assoc, List.singleton_append]
      · obtain ⟨answers, hall, hkept, hsiblings, hyielded, htold, hreleased⟩ :=
          ih (giveBack handle (ask keep handle it).2).2
        rw [if_neg hwanted]
        refine ⟨(handle, false) :: answers, congrArg (handle :: ·) hall, hkept, hsiblings,
          hyielded, ?_, hreleased.trans (List.append_assoc _ [handle] _)⟩
        refine htold.trans ?_
        change (ask keep handle it).2.asked ++ answers = _
        rw [hasked, eq_false_of_ne_true hwanted, List.append_assoc, List.singleton_append]

end Sorting

end Iteration

/-- From one state to another, the children that are left have been sorted out: of each it was
asked, once and in order, whether it is wanted; those that are wanted are left, and the others have
been given back. -/
def Sorts (before after : Iteration tree κ) : Prop :=
  ∃ answers, answers.map Prod.fst = before.siblings.unvisited ∧
    after.asked = before.asked ++ answers ∧ after.siblings.unvisited = wanted answers ∧
    after.released = before.released ++ unwanted answers ∧ after.yielded = before.yielded

theorem Iteration.sorts_retain (it : Iteration tree κ)
    (keep : Handle → StateM (Session tree × κ) Bool) : Sorts it (it.perform (.retain keep)) := by
  obtain ⟨answers, hall, hkept, -, hyielded, hasked, hreleased⟩ :=
    keepFrom_sifts keep it.siblings.unvisited it
  exact ⟨answers, hall, hasked, hkept, hreleased, hyielded⟩

/-! ### The account -/

/-- The children that were acquired, and the numbers that go with them, are accounted for. -/
structure Accounted (handles : List Handle) (it : Iteration tree κ) : Prop where
  /-- The places handed out are 0, 1, 2 and so on. -/
  indexes : it.yielded.map (fun child => child.2.index) = List.range it.yielded.length
  /-- The next place is the number of children taken. -/
  nextIndex : it.siblings.nextIndex = it.yielded.length
  /-- The count is that of the children taken and of those left. -/
  count : it.siblings.count = it.yielded.length + it.siblings.unvisited.length
  /-- The children taken, and those left after them, come in the order of acquisition. -/
  order : (it.yielded.map Prod.fst ++ it.siblings.unvisited).Sublist handles
  /-- The children given back are those that were not wanted. -/
  released : it.released = unwanted it.asked
  /-- Each child has been taken, or given back, or is left. -/
  conserved : (it.yielded.map Prod.fst ++ it.released ++ it.siblings.unvisited).Perm handles

namespace Accounted

variable {handles : List Handle} {it : Iteration tree κ}

theorem opening (handles : List Handle) (session : Session tree) (memory : κ) :
    Accounted handles (.opening handles session memory) where
  indexes := rfl
  nextIndex := rfl
  count := (Nat.zero_add _).symm
  order := List.Sublist.refl handles
  released := rfl
  conserved := List.Perm.refl handles

theorem next (h : Accounted handles it) : Accounted handles (it.perform .next) := by
  cases hleft : it.siblings.unvisited with
  | nil =>
      have hsame : it.perform .next = it := by simp [Iteration.perform, next?, hleft]
      rwa [hsame]
  | cons child rest =>
      have htaken : it.perform .next = { it with
          siblings := ⟨it.siblings.nextIndex + 1, it.siblings.count, rest⟩
          yielded := it.yielded ++ [(child, ⟨it.siblings.nextIndex, it.siblings.count⟩)] } := by
        simp [Iteration.perform, next?, hleft]
      obtain ⟨hindexes, hnext, hcount, horder, hreleased, hconserved⟩ := h
      rw [hleft] at hcount horder hconserved
      rw [htaken]
      refine ⟨?_, ?_, ?_, ?_, hreleased, ?_⟩
      · simp [hindexes, hnext, List.range_succ]
      · simp [hnext]
      · simp only [hcount, List.length_cons, List.length_append, List.length_nil]
        omega
      · simpa using horder
      · refine List.Perm.trans ?_ hconserved
        simpa only [List.map_append, List.map_cons, List.map_nil, List.append_assoc,
          List.cons_append, List.nil_append] using List.perm_middle.symm.append_left _

theorem retain (h : Accounted handles it) (keep : Handle → StateM (Session tree × κ) Bool) :
    Accounted handles (it.perform (.retain keep)) := by
  obtain ⟨answers, hall, hasked, hkept, hreleased, hyielded⟩ := it.sorts_retain keep
  obtain ⟨hindexes, hnext, -, horder, hagree, hconserved⟩ := h
  have hplaces : (it.perform (.retain keep)).siblings.nextIndex = it.siblings.nextIndex ∧
      (it.perform (.retain keep)).siblings.count =
        it.siblings.nextIndex + (it.perform (.retain keep)).siblings.unvisited.length := by
    rw [Iteration.perform_retain]
    exact ⟨rfl, rfl⟩
  rw [← hall] at horder hconserved
  refine ⟨?_, ?_, ?_, ?_, ?_, ?_⟩
  · rw [hyielded, hindexes]
  · rw [hyielded, hplaces.1, hnext]
  · rw [hyielded, hplaces.2, hnext]
  · rw [hyielded, hkept]
    exact ((wanted_sublist answers).append_left _).trans horder
  · rw [hreleased, hasked, hagree, unwanted_append]
  · rw [hyielded, hreleased, hkept]
    refine List.Perm.trans ?_ hconserved
    simpa only [List.append_assoc] using
      ((unwanted_wanted_perm answers).append_left it.released).append_left _

theorem perform (h : Accounted handles it) (use : Use tree κ) :
    Accounted handles (it.perform use) := by
  cases use with
  | next => exact h.next
  | retain keep => exact h.retain keep

theorem run (h : Accounted handles it) (uses : List (Use tree κ)) :
    Accounted handles (it.run uses) := by
  induction uses generalizing it with
  | nil => exact h
  | cons use rest ih => exact ih (h.perform use)

/-- No number is larger than that of the children that were acquired. -/
theorem count_le (h : Accounted handles it) : it.siblings.count ≤ handles.length := by
  have hle := h.order.length_le
  rw [List.length_append, List.length_map] at hle
  exact h.count ▸ hle

/-- The place handed out next is the number of children taken; it is the last place exactly where no
child is left after it. -/
theorem next? (h : Accounted handles it) {child : Handle × SiblingPosition} {rest : Siblings}
    (hn : it.siblings.next? = some (child, rest)) :
    child.2.index = it.yielded.length ∧
      child.2.count = it.yielded.length + 1 + rest.unvisited.length ∧
      (child.2.isLast = true ↔ rest.unvisited = []) := by
  cases hleft : it.siblings.unvisited with
  | nil => simp [Siblings.next?, hleft] at hn
  | cons handle others =>
      simp only [Siblings.next?, hleft, Option.some.injEq, Prod.mk.injEq] at hn
      obtain ⟨rfl, rfl⟩ := hn
      have hcount := h.count
      rw [hleft, List.length_cons] at hcount
      refine ⟨h.nextIndex, by dsimp only; omega, ?_⟩
      rw [SiblingPosition.isLast, SiblingPosition.place_eq, beq_iff_eq, ← List.length_eq_zero_iff]
      have hindex := h.nextIndex
      dsimp only
      omega

end Accounted

/-- However the children of a node are used, they are accounted for, the next place and count are
those of the children taken and left, sorting out asks of each child that is left and keeps those
that are wanted, and a drop gives back the children that are left. -/
theorem iteration_accounted (handles : List Handle) (session : Session tree) (memory : κ)
    (uses : List (Use tree κ)) :
    let it := (Iteration.opening handles session memory).run uses
    Accounted handles it ∧ it.siblings.count ≤ handles.length ∧
      (match it.siblings.next? with
        | none => it.siblings.unvisited = []
        | some (child, rest) =>
            child.2.index = it.yielded.length ∧
              child.2.count = it.yielded.length + 1 + rest.unvisited.length ∧
              (child.2.isLast = true ↔ rest.unvisited = [])) ∧
      (∀ keep, Sorts it (it.perform (.retain keep))) ∧
      it.siblings.drop it.session =
        ((), it.siblings.unvisited.foldl Session.afterRelease it.session) := by
  intro it
  have h : Accounted handles it := (Accounted.opening handles session memory).run uses
  refine ⟨h, h.count_le, ?_, it.sorts_retain, Session.releaseAll_eq_foldl _ _⟩
  cases hn : it.siblings.next? with
  | none => simpa using congrArg List.length (remaining_nil hn)
  | some taken => exact h.next? hn

end Siblings

end AccessQuery
