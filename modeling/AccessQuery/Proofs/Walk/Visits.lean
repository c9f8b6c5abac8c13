/-
**Visits in the keeping of a walk.**

A visit of siblings, and of everything below them, selects what the outlook of the resolution says,
or the first of it where no more is asked for, unless it is interrupted.  The handles that it
selects and those that an early end leaves open are in hand, and nothing else is.

Main definitions:

* `AccessQuery.Walk.Visits` — what a visit comes to.

Main results:

* `AccessQuery.Walk.visitEach_ensures`, `AccessQuery.Walk.visitBelow_ensures` — the two recursions.
-/

import Mathlib.Algebra.Order.Group.Multiset
import Mathlib.Tactic.Abel
import AccessQuery.Proofs.Walk.Candidates

set_option relaxedAutoImplicit false
set_option autoImplicit false

namespace AccessQuery

namespace Walk

variable {tree : Tree} {start : Session tree} {options : ResolveOptions} {root : NativeRef}
variable {held : List (Holding tree)} {x : Holding tree}

/-- What is held is the same in any order. -/
theorem Keeps.of_multiset {walk : Walk tree} {held' : List (Holding tree)}
    (h : Keeps start options root held walk) (he : (held : Multiset (Holding tree)) = held') :
    Keeps start options root held' walk :=
  h.of_perm (Multiset.coe_eq_coe.1 he)

/-- Candidates that are still to come are put before what has been selected. -/
theorem Keeps.rest_first {walk : Walk tree} {below kept rest : List (Holding tree)}
    (h : Keeps start options root (below ++ (kept ++ (rest ++ held))) walk) :
    Keeps start options root (rest ++ (below ++ (kept ++ held))) walk := by
  refine h.of_multiset ?_
  simp only [← Multiset.coe_add]
  abel

/-- What was selected before is put before what has been selected. -/
theorem Keeps.selected_first {walk : Walk tree} {kept selected : List (Holding tree)}
    (h : Keeps start options root (kept ++ (selected ++ held)) walk) :
    Keeps start options root (selected ++ kept ++ held) walk := by
  refine h.of_multiset ?_
  simp only [← Multiset.coe_add]
  abel

/-- What a visit comes to whose candidates have these nodes to select. -/
def Visits (start : Session tree) (options : ResolveOptions) (root : NativeRef) (demand : Demand)
    (nodes : List tree.NodeId) (held : List (Holding tree)) (visit : Visit) (walk : Walk tree) :
    Prop :=
  ∃ kept left : List (Holding tree),
    visit.selected = kept.map Holding.handle ∧ visit.abandoned = left.map Holding.handle ∧
    (∀ y ∈ kept, y.handle.isBorrowed = false) ∧
    (match visit.stop with
      | none => kept.map Holding.node = nodes ∧ left = [] ∧ (demand = .first → nodes = [])
      | some .satisfied =>
          demand = .first ∧ nodes ≠ [] ∧ kept.map Holding.node = nodes.take 1
      | some (.interrupted cause) => ∃ made, options.interrupt? made = some cause) ∧
    Keeps start options root (kept ++ left ++ held) walk

theorem checkpoint_ensures {P : Walk tree → Prop} :
    Ensures P (checkpoint options) fun found walk =>
      (∃ made, options.interrupt? made = found) ∧ P walk :=
  fun _ h => ⟨⟨_, rfl⟩, h⟩

theorem Visits.nothing {demand : Demand} :
    Ensures (Keeps start options root held) (pure .nothing)
      (Visits start options root demand [] held) :=
  Ensures.pure fun _ hk => ⟨[], [], rfl, rfl, by simp, ⟨rfl, rfl, fun _ => rfl⟩, hk⟩

/-- What was selected before a visit comes before what the visit selects. -/
theorem Visits.after {demand : Demand} {kept : List (Holding tree)}
    {nodes nodes' : List tree.NodeId} {visit : Visit} {walk : Walk tree}
    (hown : ∀ y ∈ kept, y.handle.isBorrowed = false)
    (hkept : kept.map Holding.node = nodes) (hunmet : demand = .first → kept = [])
    (h : Visits start options root demand nodes' (kept ++ held) visit walk) :
    Visits start options root demand (nodes ++ nodes') held
      { visit with selected := kept.map Holding.handle ++ visit.selected } walk := by
  obtain ⟨more, left, hsel, hleft, hown', hstop, hk⟩ := h
  obtain ⟨selected, stop, abandoned⟩ := visit
  simp only at hsel
  subst hsel hkept
  refine ⟨kept ++ more, left, by simp, hleft, ?_, ?_, hk.of_multiset ?_⟩
  · intro y hy
    exact (List.mem_append.1 hy).elim (hown y) (hown' y)
  · cases stop with
    | none =>
        obtain ⟨hn, hl, hnil⟩ := hstop
        refine ⟨by simp [hn], hl, fun hfirst => ?_⟩
        rw [hunmet hfirst, hnil hfirst]
        rfl
    | some stop =>
        cases stop with
        | interrupted cause => exact hstop
        | satisfied =>
            obtain ⟨hfirst, hne, hcut⟩ := hstop
            -- nothing was selected before, or the visit would not have been made
            obtain rfl := hunmet hfirst
            exact ⟨hfirst, hne, hcut⟩
  · simp only [← Multiset.coe_add]
    abel

/-- An early end leaves open what was to come. -/
theorem Visits.early {demand : Demand} {rest : List (Holding tree)} {nodes : List tree.NodeId}
    {selected abandoned : List Handle} {stop : Stop} {walk : Walk tree}
    (h : Visits start options root demand nodes (rest ++ held) ⟨selected, some stop, abandoned⟩
      walk) (nodes' : List tree.NodeId) :
    Visits start options root demand (nodes ++ nodes') held
      ⟨selected, some stop, rest.map Holding.handle ++ abandoned⟩ walk := by
  obtain ⟨kept, left, hsel, hleft, hown, hstop, hk⟩ := h
  simp only at hleft
  subst hleft
  refine ⟨kept, rest ++ left, hsel, by simp, hown, ?_, hk.of_multiset ?_⟩
  · cases stop with
    | interrupted cause => exact hstop
    | satisfied =>
        obtain ⟨hfirst, hne, hcut⟩ := hstop
        refine ⟨hfirst, by simp [hne], ?_⟩
        rw [hcut, List.take_append_of_le_length (List.length_pos_iff.2 hne)]
  · simp only [← Multiset.coe_add]
    abel

/-- A visit that comes to its end has selected all that it had to. -/
theorem Visits.done {demand : Demand} {nodes : List tree.NodeId} {selected abandoned : List Handle}
    {walk : Walk tree}
    (h : Visits start options root demand nodes held ⟨selected, none, abandoned⟩ walk) :
    ∃ kept : List (Holding tree), selected = kept.map Holding.handle ∧
      (∀ y ∈ kept, y.handle.isBorrowed = false) ∧ kept.map Holding.node = nodes ∧
      (demand = .first → kept = []) ∧ Keeps start options root (kept ++ held) walk := by
  obtain ⟨kept, left, hsel, -, hown, ⟨hn, rfl, hnil⟩, hk⟩ := h
  refine ⟨kept, hsel, hown, hn, fun hfirst => ?_, by simpa using hk⟩
  exact List.map_eq_nil_iff.1 (hn.trans (hnil hfirst))

theorem Demand.isMetBy_map {demand : Demand} {kept : List (Holding tree)} :
    demand.isMetBy (kept.map Holding.handle) = true ↔ demand = .first ∧ kept ≠ [] := by
  cases demand <;> cases kept <;> simp [Demand.isMetBy]

/-- The children that a candidate opened are visited, if there are any. -/
theorem visitOpened_ensures {demand : Demand} {visitChildren : Siblings → WalkM tree Visit}
    {below : List tree.NodeId → List tree.NodeId} (hnil : below [] = [])
    {gained : List (Holding tree)} {opened : Option Siblings}
    (ho : opened = none ∧ gained = [] ∨ opened = some (.ofList (gained.map Holding.handle)))
    (hbelow : Ensures (Keeps start options root (gained ++ held))
      (visitChildren (.ofList (gained.map Holding.handle)))
      (Visits start options root demand (below (gained.map Holding.node)) held)) :
    Ensures (Keeps start options root (gained ++ held))
      (opened.elim (pure .nothing) visitChildren)
      (Visits start options root demand (below (gained.map Holding.node)) held) := by
  rcases ho with ⟨rfl, rfl⟩ | rfl
  · rw [List.map_nil, hnil]
    exact Visits.nothing
  · exact hbelow

/-- The children that a candidate opened are given back, if there are any. -/
theorem releaseOpened_ensures {gained : List (Holding tree)} {opened : Option Siblings}
    (ho : opened = none ∧ gained = [] ∨ opened = some (.ofList (gained.map Holding.handle))) :
    Ensures (Keeps start options root (gained ++ held))
      (releaseAll (opened.elim [] Siblings.unvisited))
      fun _ => Keeps start options root held := by
  rcases ho with ⟨rfl, rfl⟩ | rfl
  · exact fun _ hk => hk
  · exact releaseAll_ensures gained

/-- The candidates among siblings, where visiting what lies below one comes to `below`. -/
theorem visitEach_ensures (step : Step) {demand : Demand} {earlier : List (Holding tree)}
    (deeper : Bool) {visitChildren : Siblings → WalkM tree Visit}
    {below : List tree.NodeId → List tree.NodeId} (hnil : below [] = [])
    (hbelow : ∀ candidate, ∀ gained held : List (Holding tree),
      gained.map Holding.node = (start.outlook options).opened step deeper candidate →
      (∀ y ∈ gained, y.handle.isBorrowed = false) → (∀ y ∈ earlier, y ∈ held) →
      Ensures (Keeps start options root (gained ++ held))
        (visitChildren (.ofList (gained.map Holding.handle)))
        (Visits start options root demand (below (gained.map Holding.node)) held))
    (candidates : List (Holding tree × SiblingPosition))
    (howned : ∀ c ∈ candidates, c.1.handle.isBorrowed = false) (he : ∀ y ∈ earlier, y ∈ held) :
    Ensures (Keeps start options root (candidates.map Prod.fst ++ held))
      (visitEach options step demand (earlier.map Holding.handle) deeper visitChildren
        (candidates.map fun c => (c.1.handle, c.2)))
      (Visits start options root demand
        ((start.outlook options).walkEach step (earlier.map Holding.node) deeper below
          (candidates.map fun c => (c.1.node, c.2))) held) := by
  induction candidates generalizing held with
  | nil => exact Visits.nothing
  | cons c candidates ih =>
      obtain ⟨x, position⟩ := c
      have howned' : ∀ c ∈ candidates, c.1.handle.isBorrowed = false := fun c hc =>
        howned c (List.mem_cons_of_mem _ hc)
      have hrest : (candidates.map fun c => (c.1.handle, c.2)).map Prod.fst =
          (candidates.map Prod.fst).map Holding.handle := by simp [Function.comp_def]
      simp only [List.map_cons, List.cons_append, visitEach, hrest, Outlook.walkEach,
        List.flatMap_cons]
      refine checkpoint_ensures.bind fun found => Ensures.of_and fun hfound => ?_
      cases found with
      | some cause =>
          refine release_ensures.bind fun _ => Ensures.pure fun _ hk => ?_
          exact ⟨[], candidates.map Prod.fst, rfl, rfl, by simp, hfound, hk⟩
      | none =>
          refine (settle_ensures step earlier (fun y hy => List.mem_append_right _ (he y hy)) deeper
            position).bind fun settled => ?_
          refine Ensures.of_exists fun kept => Ensures.of_and fun hkept =>
            Ensures.of_and fun hsel => Ensures.of_and fun hnodes => ?_
          obtain ⟨chosen, opened⟩ := settled
          simp only at hsel
          subst hsel
          have hkeptOwned : ∀ y ∈ kept, y.handle.isBorrowed = false := by
            intro y hy
            rcases hkept with rfl | rfl
            · cases hy
            · obtain rfl := List.mem_singleton.1 hy
              exact howned (y, position) List.mem_cons_self
          refine Ensures.of_exists fun gained => Ensures.of_and fun hopen =>
            Ensures.of_and fun hgn => Ensures.of_and fun hgb => ?_
          rw [← hnodes, ← hgn]
          by_cases hmet : demand.isMetBy (kept.map Holding.handle) = true
          · -- the candidate was asked for, and nothing else
            simp only [hmet, if_true]
            obtain ⟨hfirst, hne⟩ := Demand.isMetBy_map.1 hmet
            obtain rfl := hkept.resolve_left hne
            refine (releaseOpened_ensures hopen).bind fun _ => Ensures.pure fun _ hk => ?_
            exact ⟨[x], candidates.map Prod.fst, rfl, rfl, hkeptOwned, ⟨hfirst, by simp, by simp⟩,
              by simpa using hk⟩
          · simp only [hmet]
            -- an unmet demand for one node means that the candidate was not selected
            have hunmet : demand = .first → kept = [] := fun hd =>
              not_not.1 fun hne => hmet (Demand.isMetBy_map.2 ⟨hd, hne⟩)
            refine (visitOpened_ensures hnil hopen (hbelow _ gained _ hgn hgb fun y hy =>
              List.mem_append_right _ (List.mem_append_right _ (he y hy)))).bind fun inner => ?_
            obtain ⟨selectedBelow, stop, abandonedBelow⟩ := inner
            cases stop with
            | some stop =>
                refine Ensures.pure fun _ h => ?_
                exact (h.after hkeptOwned rfl hunmet).early _
            | none =>
                refine Ensures.strengthen (Ensures.of_exists fun keptBelow => ?_) fun _ h => h.done
                refine Ensures.of_and fun hselBelow => Ensures.of_and fun hownedBelow =>
                  Ensures.of_and fun hnodesBelow => Ensures.of_and fun hunmetBelow => ?_
                subst hselBelow
                -- what was selected so far is held while the rest is visited
                refine ((ih howned' fun y hy => List.mem_append_right _ (List.mem_append_right _
                  (he y hy))).strengthen fun _ hk => hk.rest_first).bind fun outer =>
                  Ensures.pure fun _ h => ?_
                have hrest := h.after hownedBelow hnodesBelow hunmetBelow
                have hall := hrest.after hkeptOwned rfl hunmet
                simpa only [List.append_assoc, Outlook.walkEach] using hall

/-- Siblings that are held, each with its place among them. -/
def positioned (gained : List (Holding tree)) : List (Holding tree × SiblingPosition) :=
  gained.zipIdx.map fun (x, index) => (x, ⟨index, gained.length⟩)

theorem map_fst_positioned (gained : List (Holding tree)) :
    (positioned gained).map Prod.fst = gained := by
  rw [positioned, List.map_map]
  exact List.zipIdx_map_fst 0 gained

theorem remaining_ofList (gained : List (Holding tree)) :
    (Siblings.ofList (gained.map Holding.handle)).remaining =
      (positioned gained).map fun c => (c.1.handle, c.2) := by
  simp [positioned, Siblings.remaining, Siblings.ofList, List.zipIdx_map, Function.comp_def]

theorem placed_eq (gained : List (Holding tree)) :
    placed (gained.map Holding.node) = (positioned gained).map fun c => (c.1.node, c.2) := by
  simp [positioned, placed, List.zipIdx_map, Function.comp_def]

/-- The siblings at hand, visited with whatever comes below each of them. -/
theorem visitSiblings_ensures (step : Step) {demand : Demand} (earlier : List (Holding tree))
    (deeper : Bool) {visitChildren : Siblings → WalkM tree Visit}
    (below : List tree.NodeId → List tree.NodeId) (hnil : below [] = [])
    (hbelow : ∀ candidate, ∀ gained held : List (Holding tree),
      gained.map Holding.node = (start.outlook options).opened step deeper candidate →
      (∀ y ∈ gained, y.handle.isBorrowed = false) → (∀ y ∈ earlier, y ∈ held) →
      Ensures (Keeps start options root (gained ++ held))
        (visitChildren (.ofList (gained.map Holding.handle)))
        (Visits start options root demand (below (gained.map Holding.node)) held))
    (gained : List (Holding tree)) (howned : ∀ y ∈ gained, y.handle.isBorrowed = false)
    (he : ∀ y ∈ earlier, y ∈ held) :
    Ensures (Keeps start options root (gained ++ held))
      (visitEach options step demand (earlier.map Holding.handle) deeper visitChildren
        (Siblings.ofList (gained.map Holding.handle)).remaining)
      (Visits start options root demand
        ((start.outlook options).walkEach step (earlier.map Holding.node) deeper below
          (placed (gained.map Holding.node))) held) := by
  have hfst := map_fst_positioned gained
  have h := visitEach_ensures step deeper hnil hbelow (positioned gained)
    (fun c hc => howned c.1 (hfst ▸ List.mem_map_of_mem hc)) he
  rw [hfst, ← remaining_ofList, ← placed_eq] at h
  exact h

/-- The siblings at a depth below the context, and everything below them. -/
theorem visitBelow_ensures {step : Step} {demand : Demand} {earlier : List (Holding tree)}
    (fuel depth : Nat) (gained held : List (Holding tree))
    (howned : ∀ y ∈ gained, y.handle.isBorrowed = false) (he : ∀ y ∈ earlier, y ∈ held) :
    Ensures (Keeps start options root (gained ++ held))
      (visitBelow options step demand (earlier.map Holding.handle) fuel depth
        (.ofList (gained.map Holding.handle)))
      (Visits start options root demand
        ((start.outlook options).walkBelow step (earlier.map Holding.node) fuel depth
          (gained.map Holding.node)) held) := by
  induction fuel generalizing depth gained held with
  | zero => exact (releaseAll_ensures gained).bind fun _ => Visits.nothing
  | succ fuel ih =>
      refine visitSiblings_ensures step earlier _ _ ?_
        (fun _ gained held _ ho he => ih (depth + 1) gained held ho he) gained howned he
      exact Outlook.walkBelow_nil

end Walk

end AccessQuery
