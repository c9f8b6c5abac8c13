/-
**Contexts in the keeping of a walk.**

Sorting out which nodes of a frontier lie below others comes to what the outlook of the resolution
says.  The ancestors acquired on the way are given back, and so are the contexts that are dropped.

Main results:

* `AccessQuery.Walk.climb_ensures`, `AccessQuery.Walk.isBelow_ensures` — looking for an ancestor;
* `AccessQuery.Walk.contextsFor_ensures` — the contexts of a step.
-/

import AccessQuery.Proofs.Walk.Candidates

set_option relaxedAutoImplicit false
set_option autoImplicit false

namespace AccessQuery

namespace Walk

variable {tree : Tree} {start : Session tree} {options : ResolveOptions} {root : NativeRef}
variable {held : List (Holding tree)} {x : Holding tree}

/-! ### Ancestors -/

theorem climb_ensures (targets : List (Holding tree)) (ht : ∀ y ∈ targets, y ∈ held) (fuel : Nat)
    (ancestor : Option (Holding tree)) :
    Ensures (Keeps start options root (ancestor.toList ++ held))
      (climb (targets.map Holding.handle) fuel (ancestor.map Holding.handle)) fun found walk =>
        found = (start.outlook options).climb (targets.map Holding.node) fuel
          (ancestor.map Holding.node) ∧
        Keeps start options root held walk := by
  induction fuel generalizing ancestor with
  | zero =>
      cases ancestor with
      | none => exact Ensures.pure fun _ hk => ⟨rfl, hk⟩
      | some x => exact release_ensures.bind fun _ => Ensures.pure fun _ hk => ⟨rfl, hk⟩
  | succ fuel ih =>
      cases ancestor with
      | none => exact Ensures.pure fun _ hk => ⟨rfl, hk⟩
      | some x =>
          have hx : x ∈ x :: held := List.mem_cons_self
          refine (isAmong_ensures hx targets fun y hy =>
            List.mem_cons_of_mem _ (ht y hy)).bind fun found => Ensures.of_and fun hf => ?_
          simp only [Option.map_some, Outlook.climb, ← hf]
          cases found with
          | true => exact release_ensures.bind fun _ => Ensures.pure fun _ hk => ⟨rfl, hk⟩
          | false =>
              -- the ancestor is given back once its own parent is held
              refine (parentOf_ensures hx).bind fun above => ?_
              refine Ensures.of_exists fun gained => Ensures.of_and fun ha =>
                Ensures.of_and fun hn => ?_
              subst ha
              rw [← hn]
              refine (release_ensures.strengthen fun _ hk =>
                hk.of_perm List.perm_middle).bind fun _ => ?_
              simpa using ih gained

theorem isBelow_ensures (contexts : List (Holding tree × Bool)) (hx : x ∈ held)
    (hc : ∀ c ∈ contexts, c.1 ∈ held) :
    Ensures (Keeps start options root held)
      (isBelow x.handle (contexts.map fun c => ⟨c.1.handle, c.2⟩)) fun found walk =>
        found = (start.outlook options).isBelow x.node (contexts.map fun c => (c.1.node, c.2)) ∧
        Keeps start options root held walk := by
  refine (parentOf_ensures hx).bind fun above => ?_
  refine Ensures.of_exists fun gained => Ensures.of_and fun ha => Ensures.of_and fun hn => ?_
  subst ha
  have htargets {β : Type} (f : Holding tree → β) :
      (((contexts.map fun c => (f c.1, c.2)).filter fun c => !c.2).map Prod.fst) =
        ((contexts.filter fun c => !c.2).map Prod.fst).map f := by
    simp [List.filter_map, Function.comp_def]
  have hhandles : (((contexts.map fun c => (⟨c.1.handle, c.2⟩ : Context)).filter
      fun c => !c.nested).map Context.handle) =
        ((contexts.filter fun c => !c.2).map Prod.fst).map Holding.handle := by
    simp [List.filter_map, Function.comp_def]
  rw [hhandles, Outlook.isBelow, htargets, ← hn]
  refine climb_ensures _ (fun y hy => ?_) tree.size gained
  obtain ⟨c, hm, rfl⟩ := List.mem_map.1 hy
  exact hc c (List.mem_filter.1 hm).1

/-! ### Separating -/

/-- The contexts made of nodes that are held. -/
def contextsOf (contexts : List (Holding tree × Bool)) : List Context :=
  contexts.map fun c => ⟨c.1.handle, c.2⟩

/-- Contexts are held for these nodes, taken from those in a pool. -/
def Separates (start : Session tree) (options : ResolveOptions) (root : NativeRef)
    (nodes : List (tree.NodeId × Bool)) (pool held : List (Holding tree)) (found : List Context)
    (walk : Walk tree) : Prop :=
  ∃ contexts : List (Holding tree × Bool),
    found = contextsOf contexts ∧ contexts.map (fun c => (c.1.node, c.2)) = nodes ∧
    (∀ c ∈ contexts, c.1 ∈ pool) ∧
    Keeps start options root (contexts.map Prod.fst ++ held) walk

/-- Whether a node lies below earlier contexts; there may be none. -/
theorem nests_ensures (contexts : List (Holding tree × Bool)) (hx : x ∈ held)
    (hc : ∀ c ∈ contexts, c.1 ∈ held) :
    Ensures (Keeps start options root held)
      (if (contextsOf contexts).isEmpty then pure false else isBelow x.handle (contextsOf contexts))
      fun found walk =>
        found = (!contexts.isEmpty && (start.outlook options).isBelow x.node
          (contexts.map fun c => (c.1.node, c.2))) ∧
        Keeps start options root held walk := by
  cases contexts with
  | nil => exact Ensures.pure fun _ hk => ⟨rfl, hk⟩
  | cons c contexts => simpa [contextsOf] using isBelow_ensures (c :: contexts) hx hc

theorem separate_ensures (frontier : List (Holding tree)) (contexts : List (Holding tree × Bool)) :
    Ensures (Keeps start options root (contexts.map Prod.fst ++ frontier ++ held))
      (separate options (contextsOf contexts) (frontier.map Holding.handle))
      (Separates start options root
        ((start.outlook options).separate (contexts.map fun c => (c.1.node, c.2))
          (frontier.map Holding.node)) (contexts.map Prod.fst ++ frontier) held) := by
  induction frontier generalizing contexts with
  | nil =>
      refine Ensures.pure fun _ hk => ⟨contexts, rfl, rfl, fun c hc => ?_, by simpa using hk⟩
      exact List.mem_append_left _ (List.mem_map_of_mem hc)
  | cons x frontier ih =>
      have hx : x ∈ contexts.map Prod.fst ++ x :: frontier ++ held := by simp
      -- the node may stay as a context of either kind
      have hstays (nested : Bool) :
          Ensures (Keeps start options root (contexts.map Prod.fst ++ x :: frontier ++ held))
            (separate options (contextsOf contexts ++ [⟨x.handle, nested⟩])
              (frontier.map Holding.handle))
            (Separates start options root
              ((start.outlook options).separate
                ((contexts.map fun c => (c.1.node, c.2)) ++ [(x.node, nested)])
                (frontier.map Holding.node)) (contexts.map Prod.fst ++ x :: frontier) held) := by
        simpa [contextsOf] using ih (contexts ++ [(x, nested)])
      rw [List.map_cons, List.map_cons, separate_cons]
      refine (nests_ensures contexts hx fun c hc => List.mem_append_left _
        (List.mem_append_left _ (List.mem_map_of_mem hc))).bind fun nested =>
        Ensures.of_and fun hn => ?_
      have hempty : (contexts.map fun c => (c.1.node, c.2)).isEmpty = contexts.isEmpty := by
        cases contexts <;> rfl
      have hcond : (contexts.isEmpty || !(start.outlook options).isBelow x.node
          (contexts.map fun c => (c.1.node, c.2))) = !nested := by
        rw [hn, Bool.not_and, Bool.not_not]
      rw [Outlook.separate, hempty, hcond]
      cases nested with
      | false => exact hstays false
      | true =>
          simp only [Bool.not_true, Bool.false_eq_true, if_false]
          by_cases hd : options.maxDepth.isSome = true
          · simp only [Session.outlook_options, hd, if_true]
            exact hstays true
          · -- without a bound, everything below the node is below an earlier context
            simp only [Session.outlook_options, hd]
            have hp : (contexts.map Prod.fst ++ x :: frontier ++ held).Perm
                (x :: (contexts.map Prod.fst ++ frontier ++ held)) := by simp
            refine (release_ensures.strengthen fun _ hk => hk.of_perm hp).bind fun _ => ?_
            refine (ih contexts).weaken fun found walk ⟨kept, hf, hnodes, hm, hk⟩ => ?_
            refine ⟨kept, hf, hnodes, fun c hc => ?_, hk⟩
            exact ((List.sublist_cons_self x frontier).append_left _).mem (hm c hc)

/-- The contexts of a step are nodes of its frontier. -/
theorem contextsFor_ensures (step : Step) (frontier : List (Holding tree)) :
    Ensures (Keeps start options root (frontier ++ held))
      (contextsFor options step (frontier.map Holding.handle))
      (Separates start options root
        ((start.outlook options).contextsFor step (frontier.map Holding.node)) frontier held) := by
  rw [contextsFor, Outlook.contextsFor, List.length_map, List.length_map]
  by_cases h : (step.axis = .descendant ∨ step.axis = .any) ∧ 1 < frontier.length
  · rw [if_pos h, if_pos h]
    exact separate_ensures frontier []
  · rw [if_neg h, if_neg h]
    refine Ensures.pure fun _ hk => ⟨frontier.map fun x => (x, false), ?_, ?_, ?_, ?_⟩
    · simp [contextsOf, Function.comp_def]
    · simp [Function.comp_def]
    · simp
    · simpa [Function.comp_def] using hk

end Walk

end AccessQuery
