/-
**Gathering without repetition.**

Lists are gathered one after another, and what has been gathered before is left out.  What is
gathered is the union of the lists, each member at the place where it is met first.

Main definitions:

* `AccessQuery.gather` — the members of lists, in the order in which they are met.

Main results:

* `AccessQuery.mem_gather`, `AccessQuery.nodup_gather` — the union, without repetition;
* `AccessQuery.pairwise_gather` — how gathered members are related.
-/

import Mathlib.Data.List.Basic
import Mathlib.Data.List.Induction
import Mathlib.Data.List.Nodup

set_option relaxedAutoImplicit false
set_option autoImplicit false

namespace AccessQuery

variable {α β : Type} [DecidableEq β] {f : α → List β} {contexts : List α}

/-- The members of lists, one list for each context, each of them where it is met first. -/
def gather (f : α → List β) (contexts : List α) : List β :=
  contexts.foldl (fun gathered c => gathered ++ (f c).filter fun x => x ∉ gathered) []

@[simp] theorem gather_nil (f : α → List β) : gather f [] = [] := rfl

theorem gather_concat (f : α → List β) (contexts : List α) (c : α) :
    gather f (contexts ++ [c]) =
      gather f contexts ++ (f c).filter fun x => x ∉ gather f contexts := by
  rw [gather, List.foldl_append]
  rfl

theorem mem_gather {x : β} : x ∈ gather f contexts ↔ ∃ c ∈ contexts, x ∈ f c := by
  induction contexts using List.reverseRecOn with
  | nil => simp
  | append_singleton contexts c ih =>
      rw [gather_concat, List.mem_append, List.mem_filter, decide_eq_true_eq, ih]
      constructor
      · rintro (⟨d, hd, hx⟩ | ⟨hx, _⟩)
        · exact ⟨d, List.mem_append_left _ hd, hx⟩
        · exact ⟨c, by simp, hx⟩
      · rintro ⟨d, hd, hx⟩
        by_cases hc : ∃ d ∈ contexts, x ∈ f d
        · exact Or.inl hc
        · refine Or.inr ⟨?_, hc⟩
          rcases List.mem_append.1 hd with hd | hd
          · exact absurd ⟨d, hd, hx⟩ hc
          · exact List.mem_singleton.1 hd ▸ hx

/-- Gathered members are related if those met first in one list are, and if what is met first in a
list is related to the members of the lists before it. -/
theorem pairwise_gather {R : β → β → Prop}
    (hin : ∀ before c after, contexts = before ++ c :: after →
      (f c).Pairwise fun x y => (∀ d ∈ before, x ∉ f d) → (∀ d ∈ before, y ∉ f d) → R x y)
    (hacross : ∀ before c after, contexts = before ++ c :: after → ∀ d ∈ before, ∀ x ∈ f d,
      ∀ y ∈ f c, (∀ e ∈ before, y ∉ f e) → R x y) :
    (gather f contexts).Pairwise R := by
  induction contexts using List.reverseRecOn with
  | nil => simp
  | append_singleton contexts c ih =>
      have hnew {x : β} (hx : x ∈ (f c).filter fun x => x ∉ gather f contexts) :
          x ∈ f c ∧ ∀ d ∈ contexts, x ∉ f d := by
        rw [List.mem_filter, decide_eq_true_eq, mem_gather] at hx
        exact ⟨hx.1, fun d hd hxd => hx.2 ⟨d, hd, hxd⟩⟩
      rw [gather_concat, List.pairwise_append]
      refine ⟨ih (fun before d after h => hin before d (after ++ [c]) (by simp [h]))
        (fun before d after h => hacross before d (after ++ [c]) (by simp [h])), ?_, ?_⟩
      · refine ((hin contexts c [] rfl).filter _).imp_of_mem fun hx hy h => ?_
        exact h (hnew hx).2 (hnew hy).2
      · intro x hx y hy
        obtain ⟨d, hd, hx⟩ := mem_gather.1 hx
        exact hacross contexts c [] rfl d hd x hx y (hnew hy).1 (hnew hy).2

theorem nodup_gather (hin : ∀ c ∈ contexts, (f c).Nodup) : (gather f contexts).Nodup := by
  induction contexts using List.reverseRecOn with
  | nil => simp
  | append_singleton contexts c ih =>
      rw [gather_concat, List.nodup_append]
      refine ⟨ih fun d hd => hin d (List.mem_append_left _ hd),
        (hin c (by simp)).filter _, fun x hx y hy he => ?_⟩
      rw [List.mem_filter, decide_eq_true_eq] at hy
      exact hy.2 (he ▸ hx)

/-- Gathering along maps, of which that of the members does not identify any. -/
theorem gather_map {α' β' : Type} [DecidableEq β'] {f' : α' → List β'} {g : α → α'} {k : β → β'}
    (hk : Function.Injective k) (h : ∀ c ∈ contexts, (f c).map k = f' (g c)) :
    (gather f contexts).map k = gather f' (contexts.map g) := by
  induction contexts using List.reverseRecOn with
  | nil => rfl
  | append_singleton contexts c ih =>
      have ih := ih fun d hd => h d (List.mem_append_left _ hd)
      rw [gather_concat, List.map_append, List.map_append, List.map_singleton, gather_concat, ← ih,
        ← h c (by simp), List.filter_map]
      congr 2
      refine List.filter_congr fun x _ => decide_eq_decide.2 (not_congr ?_)
      exact (List.mem_map_of_injective hk).symm

theorem gather_congr {f' : α → List β} (h : ∀ c ∈ contexts, f c = f' c) :
    gather f contexts = gather f' contexts := by
  induction contexts using List.reverseRecOn with
  | nil => rfl
  | append_singleton contexts c ih =>
      rw [gather_concat, gather_concat, ih fun d hd => h d (List.mem_append_left _ hd),
        h c (by simp)]

/-- Sifting each of the lists sifts what is gathered. -/
theorem gather_filter (f : α → List β) (keep : β → Bool) (contexts : List α) :
    gather (fun c => (f c).filter keep) contexts = (gather f contexts).filter keep := by
  induction contexts using List.reverseRecOn with
  | nil => rfl
  | append_singleton contexts c ih =>
      rw [gather_concat, gather_concat, ih, List.filter_append, List.filter_filter,
        List.filter_filter]
      congr 1
      refine List.filter_congr fun x _ => ?_
      -- of what is kept, nothing is left out that has not been gathered
      cases hx : keep x <;> simp [List.mem_filter, hx]

/-- Lists without common members are gathered by appending them. -/
theorem gather_eq_flatMap
    (hd : contexts.Pairwise fun c d => ∀ x ∈ f c, x ∉ f d) :
    gather f contexts = contexts.flatMap f := by
  induction contexts using List.reverseRecOn with
  | nil => rfl
  | append_singleton contexts c ih =>
      rw [List.pairwise_append] at hd
      rw [gather_concat, ih hd.1, List.flatMap_append, List.flatMap_singleton]
      congr 1
      refine List.filter_eq_self.2 fun x hx => decide_eq_true fun hm => ?_
      obtain ⟨d, hdm, hxd⟩ := List.mem_flatMap.1 hm
      exact hd.2.2 d hdm c (List.mem_singleton_self c) x hxd hx

end AccessQuery
