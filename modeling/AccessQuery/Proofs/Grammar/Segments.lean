/-
**Paths are split where they were put together.**

A step is written as one or two slashes, a role and groups between brackets.  Blanks may stand
around the role and around every group.  Written one after another, steps are found again, whatever
blanks there are.

Main definitions:

* `AccessQuery.RawStep.IsSpelling`, `AccessQuery.RawStep.ArePath` — steps that can be written, one
  after another;
* `AccessQuery.RawStep.spelled` — the text of a step;
* `AccessQuery.RawStep.IsSpacedAs`, `AccessQuery.RawStep.AreSpacedAs` — the texts that show a step,
  or steps, with blanks.

Main results:

* `AccessQuery.Segment.stepsFrom_spaced` — steps are found again, whatever blanks there are;
* `AccessQuery.segment_spaced`, `AccessQuery.segment_spelled` — so are the steps of a path.
-/

import Mathlib.Data.List.Forall2
import AccessQuery.Locator
import AccessQuery.Proofs.Grammar.Groups

set_option relaxedAutoImplicit false
set_option autoImplicit false

namespace AccessQuery

/-! ### The text of a step -/

/-- A role, or one of the two characters that stand in its place. -/
def IsPathRole (role : String) : Prop :=
  role = "*" ∨ role = "." ∨ Locator.isSpellableRole role = true

namespace RawStep

/-- How many slashes stand before a step. -/
def slashes (raw : RawStep) : Nat :=
  match raw.axis with
  | .self | .child => 1
  | .descendant | .any => 2

theorem slashes_bounds (raw : RawStep) : 1 ≤ raw.slashes ∧ raw.slashes ≤ 2 := by
  unfold slashes
  split <;> decide

/-- The text of a step behind its slashes. -/
def body (raw : RawStep) : List Char :=
  raw.role.toList ++ Segment.bracketed (raw.predicates.map String.toList)

/-- The text of a step. -/
def spelled (raw : RawStep) : List Char :=
  List.replicate raw.slashes '/' ++ raw.body

/-- A text that shows a step, with blanks before its role and around its groups. -/
def IsSpacedAs (raw : RawStep) (text : List Char) : Prop :=
  ∃ before rest, Text.AllBlank before ∧ Segment.Spaced (raw.predicates.map String.toList) rest ∧
    text = List.replicate raw.slashes '/' ++ (before ++ (raw.role.toList ++ rest))

theorem isSpacedAs_spelled (raw : RawStep) : raw.IsSpacedAs raw.spelled :=
  ⟨[], _, List.forall_mem_nil _, Segment.spaced_bracketed _, rfl⟩

/-- A step that can be written. -/
structure IsSpelling (raw : RawStep) : Prop where
  /-- Its role can be, -/
  role : IsPathRole raw.role
  /-- a dot stands for the node itself and for nothing else, -/
  self_iff : raw.axis = .self ↔ raw.role = "."
  /-- a star behind two slashes stands for any node if no group follows, -/
  any_iff : raw.axis = .any ↔ raw.slashes = 2 ∧ raw.role = "*" ∧ raw.predicates = []
  /-- and its groups end where their brackets close. -/
  balanced : ∀ group ∈ raw.predicates, Segment.Balanced group.toList

/-- Steps that can be written one after another. -/
def ArePath (raws : List RawStep) : Prop :=
  raws ≠ [] ∧ ∀ raw ∈ raws, raw.IsSpelling

/-- A text that shows steps one after another, with blanks. -/
def AreSpacedAs (raws : List RawStep) (text : List Char) : Prop :=
  ∃ texts, List.Forall₂ IsSpacedAs raws texts ∧ texts.flatten = text

theorem areSpacedAs_spelled (raws : List RawStep) : AreSpacedAs raws (raws.flatMap spelled) :=
  ⟨raws.map spelled, List.forall₂_map_right_iff.2
    (List.forall₂_same.2 fun raw _ => raw.isSpacedAs_spelled), List.flatMap_def.symm⟩

/-- The axis of a step that can be written is the one that its text shows. -/
theorem axisOf_slashes_iff {raw : RawStep} :
    Segment.axisOf raw.slashes raw.role (!raw.predicates.isEmpty) = .ok raw.axis ↔
      (raw.axis = .self ↔ raw.role = ".") ∧
        (raw.axis = .any ↔ raw.slashes = 2 ∧ raw.role = "*" ∧ raw.predicates = []) := by
  obtain ⟨axis, role, predicates⟩ := raw
  by_cases hdot : role = "."
  · subst hdot
    cases axis <;> simp [Segment.axisOf, slashes]
  · by_cases hall : role = "*" ∧ predicates = []
    · obtain ⟨rfl, rfl⟩ := hall
      cases axis <;> simp [Segment.axisOf, slashes]
    · cases axis <;> simp [Segment.axisOf, slashes, hdot, hall]

end RawStep

/-! ### Roles -/

theorem isPathRole_chars {role : String} (h : IsPathRole role) :
    ∀ c ∈ role.toList, Segment.isOutside c = true := by
  intro c hc
  rcases h with rfl | rfl | h
  · rw [show c = '*' from List.mem_singleton.1 hc]
    decide
  · rw [show c = '.' from List.mem_singleton.1 hc]
    decide
  · simp only [Locator.isSpellableRole, Bool.and_eq_true, List.all_eq_true] at h
    have hchar := h.2 c hc
    have hne (d : Char) (hd : Segment.isRoleChar d = false) : c ≠ d := ne_of_passes hchar hd
    simp [Segment.isOutside, hne '[' (by decide), hne ']' (by decide), hne '/' (by decide)]

theorem isPathRole_solid {role : String} (h : IsPathRole role) :
    Text.IsSolidFirst role.toList ∧ Text.IsSolidLast role.toList := by
  rcases h with rfl | rfl | h
  · exact ⟨⟨'*', [], rfl, by decide⟩, ⟨[], '*', rfl, by decide⟩⟩
  · exact ⟨⟨'.', [], rfl, by decide⟩, ⟨[], '.', rfl, by decide⟩⟩
  · simp only [Locator.isSpellableRole, Bool.and_eq_true, beq_iff_eq, Bool.not_eq_true',
      List.isEmpty_eq_false_iff] at h
    obtain ⟨⟨hne, htrim⟩, _⟩ := h
    rw [← htrim]
    exact Text.isSolid_trim (by rwa [htrim])

theorem isPathRole_ne_empty {role : String} (h : IsPathRole role) : role ≠ "" := by
  rintro rfl
  obtain ⟨c, rest, hc, _⟩ := (isPathRole_solid h).1
  cases hc

/-- The reader of steps refuses none of these roles, -/
theorem isPathRole_not_refused {role : String} (h : IsPathRole role) :
    ¬ (role ≠ "*" ∧ role ≠ "." ∧ !role.toList.all Segment.isRoleChar) := by
  rintro ⟨hstar, hdot, hall⟩
  have hs := (h.resolve_left hstar).resolve_left hdot
  simp only [Locator.isSpellableRole, Bool.and_eq_true] at hs
  simp [hs.2] at hall

/-- and no others. -/
theorem isPathRole_of_not_refused {role : String} (htrim : Text.trim role.toList = role.toList)
    (hne : role ≠ "")
    (h : ¬ (role ≠ "*" ∧ role ≠ "." ∧ !role.toList.all Segment.isRoleChar)) : IsPathRole role := by
  by_cases hstar : role = "*"
  · exact Or.inl hstar
  by_cases hdot : role = "."
  · exact Or.inr (Or.inl hdot)
  refine Or.inr (Or.inr ?_)
  have hall : role.toList.all Segment.isRoleChar = true := by simpa [hstar, hdot] using h
  rw [Locator.isSpellableRole, htrim, hall]
  simpa using hne

/-! ### One step -/

namespace Segment

variable {raw : RawStep} {before kept rest : List Char}

/-- What may follow a step: nothing, or a slash. -/
def EndsStep (rest : List Char) : Prop :=
  rest = [] ∨ ∃ text, rest = '/' :: text

theorem EndsStep.takeStep_eq (h : EndsStep rest) : takeStep 0 none rest = some ([], rest) := by
  rcases h with rfl | ⟨text, rfl⟩
  · rfl
  · rw [takeStep]
    simp [isQuote]

/-- A step is passed over. -/
theorem takeStep_body (h : raw.IsSpelling) (hb : Text.AllBlank before)
    (hk : Spaced (raw.predicates.map String.toList) kept) (hr : EndsStep rest) :
    takeStep 0 none (before ++ (raw.role.toList ++ kept) ++ rest) =
      some (before ++ (raw.role.toList ++ kept), rest) := by
  have hgroups : ∀ group ∈ raw.predicates.map String.toList, Balanced group :=
    List.forall_mem_map.2 h.balanced
  have hbefore : ∀ c ∈ before, isOutside c = true := fun c hc => isOutside_of_isBlank (hb c hc)
  rw [List.append_assoc, List.append_assoc, takeStep_outside hbefore,
    takeStep_outside (isPathRole_chars h.role), takeStep_spaced hk hgroups, hr.takeStep_eq,
    before_some, before_some, before_some, List.append_nil]

/-- Behind a role, and blanks, the groups of a step are read. -/
theorem rawStep_eq {role : String} (hrole : IsPathRole role) {gap tail text : List Char}
    (hgap : Text.AllBlank gap) (hstop : Scan.Stops (· != '[') tail)
    (htext : Text.trim text = role.toList ++ (gap ++ tail)) (slashes : Nat) :
    rawStep slashes text = groups (String.ofList (Text.trim text)) tail >>= fun predicates =>
      (axisOf slashes role !predicates.isEmpty).map fun axis => ⟨axis, role, predicates⟩ := by
  obtain ⟨hrf, hrl⟩ := isPathRole_solid hrole
  -- up to the first bracket stand the role and blanks
  have hplain : ∀ c ∈ role.toList ++ gap, (c != '[') = true := by
    refine List.forall_mem_append.2 ⟨fun c hc => ?_, fun c hc => ?_⟩
    · have hc := isPathRole_chars hrole c hc
      simp only [isOutside, Bool.and_eq_true] at hc
      exact hc.1.1
    · have hc := isOutside_of_isBlank (hgap c hc)
      simp only [isOutside, Bool.and_eq_true] at hc
      exact hc.1.1
  have htake : (Text.trim text).takeWhile (· != '[') = role.toList ++ gap := by
    rw [htext, ← List.append_assoc, List.takeWhile_append_of_pos hplain, hstop.takeWhile_eq,
      List.append_nil]
  have hdrop : (Text.trim text).dropWhile (· != '[') = tail := by
    rw [htext, ← List.append_assoc, List.dropWhile_append_of_pos hplain, hstop.dropWhile_eq]
  have htrim : Text.trim (role.toList ++ gap) = role.toList :=
    @Text.trim_between [] _ _ (List.forall_mem_nil _) hgap hrf hrl
  rw [rawStep]
  simp only [htake, hdrop, htrim, String.ofList_toList, if_neg (isPathRole_ne_empty hrole),
    if_neg (isPathRole_not_refused hrole)]

/-- Groups without blanks at their end can be read behind a role. -/
theorem rawStep_solid (h : raw.IsSpelling) {text : List Char}
    (hk : Spaced (raw.predicates.map String.toList) kept)
    (htext : Text.trim text = raw.role.toList ++ kept) : rawStep raw.slashes text = .ok raw := by
  obtain ⟨gap, groups, rfl, hgap, hgroups, hstop⟩ := hk.exists_gap
  have hfound := groups_spaced (String.ofList (Text.trim text)) hgroups
    (List.forall_mem_map.2 h.balanced)
  have htexts : (raw.predicates.map String.toList).map String.ofList = raw.predicates := by
    simp
  have haxis := RawStep.axisOf_slashes_iff.2 ⟨h.self_iff, h.any_iff⟩
  rw [rawStep_eq h.role hgap hstop htext, hfound, htexts]
  simp only [bind, Except.bind, haxis]
  rfl

/-- A step is read, whatever blanks stand in it. -/
theorem rawStep_body (h : raw.IsSpelling) (hb : Text.AllBlank before)
    (hk : Spaced (raw.predicates.map String.toList) kept) :
    rawStep raw.slashes (before ++ (raw.role.toList ++ kept)) = .ok raw := by
  obtain ⟨hrf, hrl⟩ := isPathRole_solid h.role
  obtain ⟨kept, gap, rfl, hgap, hkept, hlast⟩ := hk.exists_solid
  have hsolid : Text.IsSolidLast (raw.role.toList ++ kept) := by
    rcases hlast with rfl | hlast
    · rwa [List.append_nil]
    · exact hlast.append _
  refine rawStep_solid h hkept ?_
  rw [← List.append_assoc raw.role.toList, Text.trim_between hb hgap (hrf.append _) hsolid]

/-! ### Paths -/

/-- One step and what follows it. -/
theorem stepsFrom_eq_ok_iff {query : String} {offset n : Nat} {text : List Char}
    {found : List RawStep} (hn : 1 ≤ n ∧ n ≤ 2) (hstop : Scan.Stops (· == '/') text) :
    stepsFrom query offset (List.replicate n '/' ++ text) = .ok found ↔
      ∃ body rest raw others, takeStep 0 none text = some (body, rest) ∧ Text.trim body ≠ [] ∧
        rawStep n body = .ok raw ∧
        stepsFrom query (offset + n + byteLength body) rest = .ok others ∧
        found = raw :: others := by
  have hslash : ∀ c ∈ List.replicate n '/', (c == '/') = true := fun c hc => by
    simpa using List.eq_of_mem_replicate hc
  have hslashes : (List.replicate n '/' ++ text).takeWhile (· == '/') = List.replicate n '/' := by
    rw [List.takeWhile_append_of_pos hslash, hstop.takeWhile_eq, List.append_nil]
  have hbody : (List.replicate n '/' ++ text).dropWhile (· == '/') = text := by
    rw [List.dropWhile_append_of_pos hslash, hstop.dropWhile_eq]
  have hne : List.replicate n '/' ++ text ≠ [] := by
    simp [Nat.one_le_iff_ne_zero.1 hn.1]
  rw [stepsFrom, if_neg hne]
  simp only [hslashes, hbody, List.length_replicate, if_neg (Nat.not_lt.2 hn.2)]
  -- the match binds its scrutinee, so the result is taken from its equation
  split
  · next hnone =>
      rw [hbody] at hnone
      simp [hnone]
  · next body rest hsome =>
      rw [hbody] at hsome
      by_cases htrim : Text.trim body = []
      · simp [hsome, htrim]
      · rw [dif_neg htrim, bind_eq_ok]
        constructor
        · rintro ⟨raw, hraw, h⟩
          obtain ⟨others, hothers, h⟩ := bind_eq_ok.1 h
          cases h
          exact ⟨body, rest, raw, others, hsome, htrim, hraw, hothers, rfl⟩
        · rintro ⟨_, _, raw, others, he, _, hraw, hothers, rfl⟩
          obtain ⟨rfl, rfl⟩ := Prod.mk.inj (Option.some.inj (hsome.symm.trans he))
          exact ⟨raw, hraw, bind_eq_ok.2 ⟨others, hothers, rfl⟩⟩

theorem stops_body {role : String} (h : IsPathRole role) (hb : Text.AllBlank before)
    (rest : List Char) : Scan.Stops (· == '/') (before ++ (role.toList ++ rest)) := by
  have hslash {c : Char} (hc : isOutside c = true) : (c == '/') = false := by
    simp only [isOutside, Bool.and_eq_true, bne_iff_ne] at hc
    exact beq_false_of_ne hc.2
  cases before with
  | nil =>
      obtain ⟨c, chars, hc, _⟩ := (isPathRole_solid h).1
      rw [hc]
      exact Scan.stops_cons.2 (hslash (isPathRole_chars h c (hc ▸ List.mem_cons_self)))
  | cons c before =>
      exact Scan.stops_cons.2 (hslash (isOutside_of_isBlank (hb c List.mem_cons_self)))

theorem trim_body_ne_nil {role : String} (h : IsPathRole role) (before rest : List Char) :
    Text.trim (before ++ (role.toList ++ rest)) ≠ [] := by
  obtain ⟨c, chars, hc, hsolid⟩ := (isPathRole_solid h).1
  intro hnil
  have hblank := Text.trim_eq_nil_iff.1 hnil c
  rw [hc] at hblank
  rw [hblank (by simp)] at hsolid
  cases hsolid

theorem endsStep_flatten {raws : List RawStep} {texts : List (List Char)}
    (h : List.Forall₂ RawStep.IsSpacedAs raws texts) : EndsStep texts.flatten := by
  cases h with
  | nil => exact Or.inl rfl
  | @cons raw text raws texts ht _ =>
      obtain ⟨before, rest, _, _, rfl⟩ := ht
      obtain ⟨n, hn⟩ := Nat.exists_eq_add_of_le' raw.slashes_bounds.1
      exact Or.inr ⟨_, by rw [hn]; rfl⟩

/-- Steps are found again, one after another, -/
theorem stepsFrom_spaced (query : String) {raws : List RawStep} {texts : List (List Char)}
    (h : ∀ raw ∈ raws, raw.IsSpelling) (ht : List.Forall₂ RawStep.IsSpacedAs raws texts)
    (offset : Nat) : stepsFrom query offset texts.flatten = .ok raws := by
  induction ht generalizing offset with
  | nil =>
      rw [List.flatten_nil, stepsFrom]
      rfl
  | @cons raw text raws texts htext hrest ih =>
      have hraw := h raw List.mem_cons_self
      have ih := ih fun r hr => h r (List.mem_cons_of_mem raw hr)
      obtain ⟨before, kept, hb, hk, rfl⟩ := htext
      have hstop : Scan.Stops (· == '/')
          (before ++ (raw.role.toList ++ kept) ++ texts.flatten) := by
        rw [List.append_assoc, List.append_assoc]
        exact stops_body hraw.role hb _
      rw [List.flatten_cons, List.append_assoc, stepsFrom_eq_ok_iff raw.slashes_bounds hstop]
      exact ⟨_, _, raw, raws, takeStep_body hraw hb hk (endsStep_flatten hrest),
        trim_body_ne_nil hraw.role before kept, rawStep_body hraw hb hk, ih _, rfl⟩

end Segment

/-- and so are the steps of a path. -/
theorem segment_spaced {query : String} {raws : List RawStep} (h : RawStep.ArePath raws)
    (ht : RawStep.AreSpacedAs raws (Text.trim query.toList)) : segment query = .ok raws := by
  obtain ⟨texts, htexts, hq⟩ := ht
  have hread := Segment.stepsFrom_spaced (String.ofList texts.flatten) h.2 htexts 0
  rcases Segment.endsStep_flatten htexts with hnil | ⟨text, htext⟩
  · -- a path without text has no steps
    rw [hnil, Segment.stepsFrom] at hread
    exact absurd (Except.ok.inj hread).symm h.1
  · rw [segment, ← hq]
    rw [htext] at hread ⊢
    exact hread

theorem isSolidFirst_spelled (raw : RawStep) : Text.IsSolidFirst raw.spelled := by
  obtain ⟨n, hn⟩ := Nat.exists_eq_add_of_le' raw.slashes_bounds.1
  exact ⟨'/', _, by rw [RawStep.spelled, hn]; rfl, by decide⟩

theorem isSolidLast_spelled {raw : RawStep} (h : raw.IsSpelling) :
    Text.IsSolidLast raw.spelled := by
  rw [RawStep.spelled, RawStep.body]
  refine Text.IsSolidLast.append ?_ _
  cases hp : raw.predicates.map String.toList using List.reverseRecOn with
  | nil => simpa [Segment.bracketed] using (isPathRole_solid h.role).2
  | append_singleton groups group =>
      refine Text.IsSolidLast.append
        ⟨Segment.bracketed groups ++ '[' :: group, ']', ?_, by decide⟩ _
      simp [Segment.bracketed]

/-- A path has no blanks at its ends. -/
theorem trim_spelled {raws : List RawStep} (h : RawStep.ArePath raws) :
    Text.trim (raws.flatMap RawStep.spelled) = raws.flatMap RawStep.spelled := by
  obtain ⟨hne, h⟩ := h
  have hfirst : Text.IsSolidFirst (raws.flatMap RawStep.spelled) := by
    obtain ⟨raw, others, rfl⟩ := List.exists_cons_of_ne_nil hne
    rw [List.flatMap_cons]
    exact (isSolidFirst_spelled raw).append _
  have hlast : Text.IsSolidLast (raws.flatMap RawStep.spelled) := by
    rw [← List.dropLast_concat_getLast hne, List.flatMap_append, List.flatMap_singleton]
    exact (isSolidLast_spelled (h _ (List.getLast_mem hne))).append _
  exact Text.trim_eq_self hfirst hlast

/-- Steps that are written one after another are found again. -/
theorem segment_spelled {raws : List RawStep} (h : RawStep.ArePath raws) :
    segment (String.ofList (raws.flatMap RawStep.spelled)) = .ok raws := by
  refine segment_spaced h ?_
  rw [String.toList_ofList, trim_spelled h]
  exact RawStep.areSpacedAs_spelled raws

end AccessQuery
