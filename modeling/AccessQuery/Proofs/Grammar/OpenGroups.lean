/-
**Paths that break off inside a group.**

Of a path, nothing may be known but its beginning, up to somewhere between the brackets of a group.
If the steps and the groups before can be read, and neither a bracket nor a quote has been left open
inside the group, then the scanners come to the end of the beginning and stand inside one group and
no quotes.  From there on they do not know what they have passed over.  So whether the path can be
read depends on how it goes on and, for the group that has been begun, on the beginning of its
predicate, and on nothing else.

Main definitions:

* `AccessQuery.Predicate.IsReadable`, `AccessQuery.RawStep.IsReadable` — groups, and steps, that can
  be read;
* `AccessQuery.OpenGroup` — the beginning of a path, up to somewhere inside a group;
* `AccessQuery.Segment.Continues` — how a path can go on from there.

Main results:

* `AccessQuery.Query.exists_parse_iff` — a path is read if its groups are;
* `AccessQuery.OpenGroup.exists_parse_iff` — a path is read if it goes on as it can.
-/

import AccessQuery.Proofs.RoundTrip

set_option relaxedAutoImplicit false
set_option autoImplicit false

namespace AccessQuery

/-! ### Groups that can be read -/

/-- The text of a group can be read: it is blank, or a predicate. -/
def Predicate.IsReadable (group : String) : Prop :=
  ∃ p, Predicate.read? group = .ok p

/-- The groups of a step can be read. -/
def RawStep.IsReadable (raw : RawStep) : Prop :=
  ∀ group ∈ raw.predicates, Predicate.IsReadable group

theorem Predicate.exists_joinGroups_iff {groups : List String} (before : Option Predicate) :
    (∃ p, joinGroups before groups = .ok p) ↔ ∀ group ∈ groups, IsReadable group := by
  induction groups generalizing before with
  | nil => simp [joinGroups]
  | cons group groups ih =>
      rw [List.forall_mem_cons]
      constructor
      · rintro ⟨p, h⟩
        obtain ⟨next, hnext, h⟩ := bind_eq_ok.1 h
        exact ⟨⟨next, hnext⟩, (ih _).1 ⟨p, h⟩⟩
      · rintro ⟨⟨next, hnext⟩, hgroups⟩
        obtain ⟨p, hp⟩ := (ih (both? before next)).2 hgroups
        exact ⟨p, bind_eq_ok.2 ⟨next, hnext, hp⟩⟩

theorem Step.exists_ofRaw_iff {raw : RawStep} :
    (∃ step, ofRaw raw = .ok step) ↔ raw.IsReadable := by
  rw [RawStep.IsReadable, ← Predicate.exists_joinGroups_iff none]
  constructor
  · rintro ⟨step, h⟩
    obtain ⟨p, hp, -⟩ := bind_eq_ok.1 h
    exact ⟨p, hp⟩
  · rintro ⟨p, hp⟩
    exact ⟨_, bind_eq_ok.2 ⟨p, hp, rfl⟩⟩

theorem exists_mapM_iff {ε α β : Type} {f : α → Except ε β} {l : List α} :
    (∃ bs, l.mapM f = .ok bs) ↔ ∀ a ∈ l, ∃ b, f a = .ok b := by
  induction l with
  | nil => simp [pure, Except.pure]
  | cons a l ih =>
      rw [List.forall_mem_cons, ← ih, List.mapM_cons]
      constructor
      · rintro ⟨bs, h⟩
        obtain ⟨b, hb, h⟩ := bind_eq_ok.1 h
        obtain ⟨rest, hrest, -⟩ := bind_eq_ok.1 h
        exact ⟨⟨b, hb⟩, rest, hrest⟩
      · rintro ⟨⟨b, hb⟩, rest, hrest⟩
        exact ⟨b :: rest, bind_eq_ok.2 ⟨b, hb, bind_eq_ok.2 ⟨rest, hrest, rfl⟩⟩⟩

/-- A path is read if it is split into steps and their groups are read. -/
theorem Query.exists_parse_iff {text : String} : (∃ query, parse text = .ok query) ↔
    ∃ raws, segment text = .ok raws ∧ ∀ raw ∈ raws, raw.IsReadable := by
  constructor
  · rintro ⟨query, h⟩
    obtain ⟨raws, hraws, h⟩ := bind_eq_ok.1 h
    obtain ⟨steps, hsteps, -⟩ := bind_eq_ok.1 h
    exact ⟨raws, hraws, fun raw hraw =>
      Step.exists_ofRaw_iff.1 (exists_mapM_iff.1 ⟨steps, hsteps⟩ raw hraw)⟩
  · rintro ⟨raws, hraws, hreadable⟩
    obtain ⟨steps, hsteps⟩ := exists_mapM_iff.2 fun raw hraw =>
      Step.exists_ofRaw_iff.2 (hreadable raw hraw)
    -- a path has steps
    have hne : steps ≠ [] := by
      obtain ⟨raw, rest, rfl⟩ := List.exists_cons_of_ne_nil (path_of_segment hraws).1.1
      rw [List.mapM_cons] at hsteps
      obtain ⟨step, -, h⟩ := bind_eq_ok.1 hsteps
      obtain ⟨others, -, h⟩ := bind_eq_ok.1 h
      cases h
      exact List.cons_ne_nil step others
    obtain ⟨query, hquery⟩ : ∃ query, ofSteps? steps = some query :=
      ⟨⟨steps, hne⟩, ofSteps?_steps ⟨steps, hne⟩⟩
    refine ⟨query, bind_eq_ok.2 ⟨raws, hraws, bind_eq_ok.2 ⟨steps, hsteps, ?_⟩⟩⟩
    rw [hquery]

/-! ### The scanners -/

theorem Text.IsSolidLast.trimEnd_append {s : List Char} (h : IsSolidLast s) (t : List Char) :
    trimEnd (s ++ t) = s ++ trimEnd t := by
  obtain ⟨gap, hgap, ht⟩ := exists_trimEnd_eq t
  have hsolid : IsSolidLast (s ++ trimEnd t) := by
    by_cases hnil : trimEnd t = []
    · rwa [hnil, List.append_nil]
    · exact (isSolidLast_trimEnd hnil).append s
  conv_lhs => rw [ht, ← List.append_assoc]
  rw [Text.trimEnd_append _ hgap, hsolid.trimEnd_eq]

theorem Text.trim_append {s : List Char} (hf : IsSolidFirst s) (hl : IsSolidLast s)
    (t : List Char) : trim (s ++ t) = s ++ trimEnd t := by
  rw [trim, (hf.append t).trimStart_eq, hl.trimEnd_append]

namespace Segment

variable {step query : String} {offset : Nat} {text inside rest : List Char}

theorem groups_cons_iff {found : List String} : groups step ('[' :: inside) = .ok found ↔
    ∃ group rest others, takeGroup 0 none inside = some (group, rest) ∧
      groups step rest = .ok others ∧ found = String.ofList group :: others := by
  have htrim : Text.trimStart ('[' :: inside) = '[' :: inside :=
    Text.IsSolidFirst.trimStart_eq ⟨'[', inside, rfl, by decide⟩
  constructor
  · intro h
    rw [groups] at h
    split at h
    · next heq => rw [htrim] at heq; cases heq
    · next heq =>
        obtain rfl := (List.cons.inj (htrim.symm.trans heq)).2
        split at h
        · cases h
        · next group rest hg =>
            obtain ⟨others, hothers, h⟩ := bind_eq_ok.1 h
            cases h
            exact ⟨group, rest, others, hg, hothers, rfl⟩
    · next hne => exact absurd htrim (hne inside)
  · rintro ⟨group, rest, others, hg, hothers, rfl⟩
    exact groups_of_takeGroup htrim hg hothers

/-- Groups that have been closed are passed over. -/
theorem groups_bracketed_iff {closed found : List String}
    (hb : ∀ group ∈ closed, Balanced group.toList) :
    groups step (bracketed (closed.map String.toList) ++ text) = .ok found ↔
      ∃ others, groups step text = .ok others ∧ found = closed ++ others := by
  induction closed generalizing found with
  | nil => simp [bracketed]
  | cons group closed ih =>
      rw [List.forall_mem_cons] at hb
      have htake (rest : List Char) :
          takeGroup 0 none (group.toList ++ ']' :: rest) = some (group.toList, rest) := by
        rw [takeGroup_balanced hb.1, takeGroup]
        simp [isQuote]
      rw [List.map_cons, bracketed_cons, List.cons_append, List.append_assoc, List.cons_append,
        groups_cons_iff, htake]
      constructor
      · rintro ⟨_, _, behind, he, hbehind, rfl⟩
        cases he
        obtain ⟨others, hothers, rfl⟩ := (ih hb.2).1 hbehind
        exact ⟨others, hothers, by simp⟩
      · rintro ⟨others, hothers, rfl⟩
        exact ⟨_, _, closed ++ others, rfl, (ih hb.2).2 ⟨others, hothers, rfl⟩, by simp⟩

/-- What the errors would say makes no difference to the groups, -/
theorem groups_congr {found : List String} (h : groups step text = .ok found) (step' : String) :
    groups step' text = .ok found := by
  obtain ⟨hspaced, hbalanced⟩ := spaced_of_groups h
  have hgroups := groups_spaced step' hspaced (List.forall_mem_map.2 hbalanced)
  rw [hgroups]
  simp

/-- nor to the steps. -/
theorem stepsFrom_congr {found : List RawStep} (hs : EndsStep text)
    (h : stepsFrom query offset text = .ok found) (query' : String) (offset' : Nat) :
    stepsFrom query' offset' text = .ok found := by
  obtain ⟨hspelling, texts, htexts, rfl⟩ := spaced_of_stepsFrom hs h
  exact stepsFrom_spaced query' hspelling htexts offset'

theorem endsStep_spelled (raws : List RawStep) (hs : EndsStep text) :
    EndsStep (raws.flatMap RawStep.spelled ++ text) := by
  cases raws with
  | nil => exact hs
  | cons raw raws =>
      obtain ⟨n, hn⟩ := Nat.exists_eq_add_of_le' raw.slashes_bounds.1
      exact Or.inr ⟨_, by rw [List.flatMap_cons, RawStep.spelled, hn]; rfl⟩

/-- Whole steps are passed over. -/
theorem stepsFrom_spelled_iff {raws found : List RawStep} (hr : ∀ raw ∈ raws, raw.IsSpelling)
    (hs : EndsStep text) :
    stepsFrom query offset (raws.flatMap RawStep.spelled ++ text) = .ok found ↔
      ∃ others, stepsFrom query offset text = .ok others ∧ found = raws ++ others := by
  induction raws generalizing offset found with
  | nil => simp
  | cons raw raws ih =>
      rw [List.forall_mem_cons] at hr
      have hk := spaced_bracketed (raw.predicates.map String.toList)
      have htake := takeStep_body hr.1 (List.forall_mem_nil _) hk (endsStep_spelled raws hs)
      have hraw := rawStep_body hr.1 (List.forall_mem_nil _) hk
      have htrim := trim_body_ne_nil hr.1.role [] (bracketed (raw.predicates.map String.toList))
      have hstop := stops_body hr.1.role (List.forall_mem_nil _)
        (bracketed (raw.predicates.map String.toList) ++ (raws.flatMap RawStep.spelled ++ text))
      rw [List.nil_append] at htake hraw htrim hstop
      rw [← List.append_assoc] at hstop
      rw [List.flatMap_cons, RawStep.spelled, RawStep.body, List.append_assoc, List.append_assoc,
        stepsFrom_eq_ok_iff raw.slashes_bounds hstop, htake]
      constructor
      · rintro ⟨_, _, raw', behind, he, -, hraw', hbehind, rfl⟩
        cases he
        cases hraw.symm.trans hraw'
        obtain ⟨others, hothers, rfl⟩ := (ih hr.2).1 hbehind
        exact ⟨others, stepsFrom_congr hs hothers query offset, rfl⟩
      · rintro ⟨others, hothers, rfl⟩
        exact ⟨_, _, raw, raws ++ others, rfl, htrim, hraw,
          (ih hr.2).2 ⟨others, stepsFrom_congr hs hothers query _, rfl⟩, rfl⟩

/-! ### Going on -/

/-- How a step can go on inside a group: the group is closed, what stands in it has a property, and
further groups follow that can be read. -/
def ContinuesStep (Inside : List Char → Prop) (text : List Char) : Prop :=
  ∃ group rest others, takeGroup 0 none (Text.trimEnd text) = some (group, rest) ∧ Inside group ∧
    groups "" rest = .ok others ∧ ∀ other ∈ others, Predicate.IsReadable other

/-- How a path can go on inside a group: the step comes to its end, and further steps follow that
can be read. -/
def Continues (Inside : List Char → Prop) (text : List Char) : Prop :=
  ∃ step rest raws, takeStep 1 none text = some (step, rest) ∧ ContinuesStep Inside step ∧
    stepsFrom "" 0 rest = .ok raws ∧ ∀ raw ∈ raws, raw.IsReadable

end Segment

open Segment

/-- The beginning of a path, up to somewhere inside a group. -/
structure OpenGroup where
  /-- The steps before the one that has been begun. -/
  raws : List RawStep
  /-- The slashes of the step, -/
  slashes : Nat
  /-- its role, -/
  role : String
  /-- and the groups before the one that has been begun. -/
  closed : List String
  /-- What stands in the group. -/
  inside : List Char
  spelling : ∀ raw ∈ raws, raw.IsSpelling ∧ raw.IsReadable
  slashes_bounds : 1 ≤ slashes ∧ slashes ≤ 2
  isPathRole : IsPathRole role
  slashes_of_dot : role = "." → slashes = 1
  balanced_closed : ∀ group ∈ closed, Balanced group.toList ∧ Predicate.IsReadable group
  balanced_inside : Balanced inside
  solidLast_inside : Text.IsSolidLast inside

namespace OpenGroup

variable (g : OpenGroup)

/-- The text of the step that has been begun, behind its slashes. -/
def body : List Char :=
  g.role.toList ++ (bracketed (g.closed.map String.toList) ++ '[' :: g.inside)

/-- The text of the beginning. -/
def text : List Char :=
  g.raws.flatMap RawStep.spelled ++ (List.replicate g.slashes '/' ++ g.body)

theorem solidLast_body : Text.IsSolidLast g.body := by
  have h := g.solidLast_inside.append
    (g.role.toList ++ (bracketed (g.closed.map String.toList) ++ ['[']))
  simpa [body] using h

/-- The scanner for slashes comes to the end of the beginning inside one group. -/
theorem takeStep_body_append (t : List Char) :
    takeStep 0 none (g.body ++ t) = before g.body (takeStep 1 none t) := by
  have hbalanced : ∀ group ∈ g.closed.map String.toList, Balanced group :=
    List.forall_mem_map.2 fun group hg => (g.balanced_closed group hg).1
  simp only [body, List.append_assoc, List.cons_append]
  rw [takeStep_outside (isPathRole_chars g.isPathRole),
    takeStep_spaced (spaced_bracketed _) hbalanced, takeStep_open,
    takeStep_balanced g.balanced_inside]
  simp only [before_before]
  simp

theorem axisOf_slashes (filtered : Bool) :
    ∃ axis, axisOf g.slashes g.role filtered = .ok axis := by
  unfold axisOf
  split
  · next hdot => exact ⟨.self, by rw [if_pos (g.slashes_of_dot hdot)]⟩
  · split <;> exact ⟨_, rfl⟩

/-- The groups are read if they go on as they can. -/
theorem groups_iff {step : String} {t : List Char} {found : List String} :
    groups step (bracketed (g.closed.map String.toList) ++ '[' :: (g.inside ++ t)) = .ok found ↔
      ∃ group rest others, takeGroup 0 none t = some (group, rest) ∧
        groups step rest = .ok others ∧
        found = g.closed ++ String.ofList (g.inside ++ group) :: others := by
  rw [groups_bracketed_iff fun group hg => (g.balanced_closed group hg).1]
  simp only [groups_cons_iff, takeGroup_balanced g.balanced_inside, Segment.before,
    Option.map_eq_some_iff, Prod.exists, Prod.mk.injEq]
  constructor
  · rintro ⟨_, ⟨_, rest, others, ⟨group, _, htake, rfl, rfl⟩, hothers, rfl⟩, rfl⟩
    exact ⟨group, _, others, htake, hothers, rfl⟩
  · rintro ⟨group, rest, others, htake, hothers, rfl⟩
    exact ⟨_, ⟨_, rest, others, ⟨group, rest, htake, rfl, rfl⟩, hothers, rfl⟩, rfl⟩

/-- The step is read if it goes on as it can. -/
theorem exists_rawStep_iff (t : List Char) :
    (∃ raw, rawStep g.slashes (g.body ++ t) = .ok raw ∧ raw.IsReadable) ↔
      ContinuesStep (fun group => Predicate.IsReadable (String.ofList (g.inside ++ group))) t := by
  have htrim : Text.trim (g.body ++ t) = g.role.toList ++ ([] ++
      (bracketed (g.closed.map String.toList) ++ '[' :: (g.inside ++ Text.trimEnd t))) := by
    have hfirst : Text.IsSolidFirst g.body := (isPathRole_solid g.isPathRole).1.append _
    rw [Text.trim_append hfirst g.solidLast_body, body]
    simp
  have hstop : Scan.Stops (· != '[')
      (bracketed (g.closed.map String.toList) ++ '[' :: (g.inside ++ Text.trimEnd t)) := by
    cases g.closed.map String.toList with
    | nil => exact Scan.stops_cons.2 rfl
    | cons group closed =>
        rw [bracketed_cons]
        exact Scan.stops_cons.2 rfl
  rw [rawStep_eq g.isPathRole (List.forall_mem_nil _) hstop htrim]
  constructor
  · rintro ⟨raw, h, hreadable⟩
    obtain ⟨predicates, hgroups, h⟩ := bind_eq_ok.1 h
    obtain ⟨axis, -, rfl⟩ := map_eq_ok.1 h
    obtain ⟨group, rest, others, htake, hothers, rfl⟩ := g.groups_iff.1 hgroups
    have hinside := List.forall_mem_cons.1 (List.forall_mem_append.1 hreadable).2
    exact ⟨group, rest, others, htake, hinside.1, groups_congr hothers "", hinside.2⟩
  · rintro ⟨group, rest, others, htake, hinside, hothers, hreadable⟩
    obtain ⟨axis, haxis⟩ :=
      g.axisOf_slashes (!(g.closed ++ String.ofList (g.inside ++ group) :: others).isEmpty)
    refine ⟨_, bind_eq_ok.2 ⟨_, g.groups_iff.2 ⟨group, rest, others, htake,
      groups_congr hothers _, rfl⟩, map_eq_ok.2 ⟨axis, haxis, rfl⟩⟩, ?_⟩
    exact List.forall_mem_append.2 ⟨fun closed hc => (g.balanced_closed closed hc).2,
      List.forall_mem_cons.2 ⟨hinside, hreadable⟩⟩

theorem endsStep_body (t : List Char) :
    EndsStep (List.replicate g.slashes '/' ++ (g.body ++ t)) := by
  obtain ⟨n, hn⟩ := Nat.exists_eq_add_of_le' g.slashes_bounds.1
  exact Or.inr ⟨_, by rw [hn]; rfl⟩

/-- The steps of the path are found and read if it goes on as it can. -/
theorem exists_stepsFrom_iff (query : String) (offset : Nat) (t : List Char) :
    (∃ raws, stepsFrom query offset (g.text ++ t) = .ok raws ∧ ∀ raw ∈ raws, raw.IsReadable) ↔
      Continues (fun group => Predicate.IsReadable (String.ofList (g.inside ++ group))) t := by
  have hstop : Scan.Stops (· == '/') (g.body ++ t) := by
    rw [body, List.append_assoc]
    exact stops_body g.isPathRole (List.forall_mem_nil _) _
  have hspelled (found : List RawStep) : stepsFrom query offset (g.raws.flatMap RawStep.spelled ++
      (List.replicate g.slashes '/' ++ (g.body ++ t))) = .ok found ↔ _ :=
    stepsFrom_spelled_iff (fun raw hraw => (g.spelling raw hraw).1) (g.endsStep_body t)
  simp only [text, List.append_assoc, hspelled, stepsFrom_eq_ok_iff g.slashes_bounds hstop,
    takeStep_body_append, Segment.before, Option.map_eq_some_iff, Prod.exists, Prod.mk.injEq]
  constructor
  · rintro ⟨_, ⟨_, ⟨_, _, raw, others, ⟨step, rest, htake, rfl, rfl⟩, _, hraw, hothers, rfl⟩, rfl⟩,
      hreadable⟩
    have hrest := List.forall_mem_cons.1 (List.forall_mem_append.1 hreadable).2
    exact ⟨step, rest, others, htake, (g.exists_rawStep_iff step).1 ⟨raw, hraw, hrest.1⟩,
      stepsFrom_congr (endsStep_of_takeStep htake) hothers "" 0, hrest.2⟩
  · rintro ⟨step, rest, others, htake, hstep, hothers, hreadable⟩
    obtain ⟨raw, hraw, hreads⟩ := (g.exists_rawStep_iff step).2 hstep
    have htrim : Text.trim (g.body ++ step) ≠ [] := by
      rw [body, List.append_assoc]
      exact trim_body_ne_nil g.isPathRole [] _
    refine ⟨_, ⟨_, ⟨_, rest, raw, others, ⟨step, rest, htake, rfl, rfl⟩, htrim, hraw,
      stepsFrom_congr (endsStep_of_takeStep htake) hothers query _, rfl⟩, rfl⟩, ?_⟩
    exact List.forall_mem_append.2 ⟨fun raw hraw => (g.spelling raw hraw).2,
      List.forall_mem_cons.2 ⟨hreads, hreadable⟩⟩

/-- A path is read if it goes on as it can. -/
theorem exists_parse_iff (t : List Char) :
    (∃ query, Query.parse (String.ofList (g.text ++ t)) = .ok query) ↔
      Continues (fun group => Predicate.IsReadable (String.ofList (g.inside ++ group)))
        (Text.trimEnd t) := by
  obtain ⟨tail, htail⟩ : ∃ tail, g.text = '/' :: tail := by
    have hends := endsStep_spelled g.raws (g.endsStep_body [])
    rw [List.append_nil] at hends
    exact hends.resolve_left (by simp [body])
  have hfirst : Text.IsSolidFirst g.text := ⟨'/', tail, htail, by decide⟩
  have hlast : Text.IsSolidLast g.text := by
    rw [text]
    exact (g.solidLast_body.append _).append _
  have htrim : Text.trim (g.text ++ t) = g.text ++ Text.trimEnd t := Text.trim_append hfirst hlast t
  have hsegment : segment (String.ofList (g.text ++ t)) =
      stepsFrom (String.ofList (g.text ++ Text.trimEnd t)) 0 (g.text ++ Text.trimEnd t) := by
    rw [segment, String.toList_ofList, htrim, htail]
    rfl
  rw [Query.exists_parse_iff, hsegment, exists_stepsFrom_iff]

end OpenGroup

end AccessQuery
