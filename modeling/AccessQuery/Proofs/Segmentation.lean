/-
**What a path is split into stands in it.**

Steps that are written one after another are found again.  In the other direction, whatever text is
split into steps shows them: each of them can be written, and the text is what they are written as,
but for blanks around the roles and around the groups.  So the steps of a text are determined by
what stands in it, and every text in which no steps stand is refused.

Main results:

* `AccessQuery.Segment.spaced_of_rawStep`, `AccessQuery.Segment.spaced_of_stepsFrom` — what is read
  stands in the text;
* `AccessQuery.segment_eq_ok_iff` — which texts are split into which steps;
* `AccessQuery.segment_inverts` — steps that can be written are found again, and nothing else is.
-/

import AccessQuery.Proofs.Grammar.Segments

set_option relaxedAutoImplicit false
set_option autoImplicit false

namespace AccessQuery

namespace Segment

/-! ### Where a step ends -/

/-- A step that stands outside brackets ends before a slash or with the text. -/
theorem endsStep_of_takeStep {depth : Nat} {quote : Option Char} {text step rest : List Char}
    (h : takeStep depth quote text = some (step, rest)) : EndsStep rest := by
  fun_induction takeStep depth quote text generalizing step rest with
  | case1 =>
      cases h
      exact Or.inl rfl
  | case2 | case6 => cases h
  | case8 depth c text _ _ _ hslash =>
      cases h
      rw [hslash.1]
      exact Or.inr ⟨text, rfl⟩
  | _ =>
      rename_i ih
      obtain ⟨⟨step, rest⟩, hr, he⟩ := Option.map_eq_some_iff.1 h
      cases he
      exact ih hr

/-! ### What a step has been read from -/

theorem slashes_of_axisOf {slashes : Nat} {role : String} {filtered : Bool} {axis : Axis}
    (hn : 1 ≤ slashes ∧ slashes ≤ 2) (h : axisOf slashes role filtered = .ok axis)
    (predicates : List String) : (⟨axis, role, predicates⟩ : RawStep).slashes = slashes := by
  unfold axisOf at h
  split at h
  · split at h
    · next hone =>
        cases h
        exact hone.symm
    · cases h
  · split at h
    · next htwo =>
        cases h
        rw [htwo]
        split <;> rfl
    · next htwo =>
        cases h
        exact Nat.le_antisymm hn.1 (Nat.le_of_lt_succ (Nat.lt_of_le_of_ne hn.2 htwo))

/-- A step that has been read can be written, and stands in what it has been read from. -/
theorem spaced_of_rawStep {slashes : Nat} {text : List Char} {raw : RawStep}
    (hn : 1 ≤ slashes ∧ slashes ≤ 2) (h : rawStep slashes text = .ok raw) :
    raw.IsSpelling ∧ raw.IsSpacedAs (List.replicate slashes '/' ++ text) := by
  rw [rawStep] at h
  obtain ⟨predicates, hgroups, h⟩ := bind_eq_ok.1 h
  obtain ⟨before, after, hbefore, hafter, htext⟩ := Text.exists_trim_eq text
  obtain ⟨hspaced, hbalanced⟩ := spaced_of_groups hgroups
  obtain ⟨left, right, hleft, hright, htoken⟩ :=
    Text.exists_trim_eq ((Text.trim text).takeWhile (· != '['))
  have hsplit := List.takeWhile_append_dropWhile (p := (· != '[')) (l := Text.trim text)
  have htrim := Text.trim_trim ((Text.trim text).takeWhile (· != '['))
  generalize Text.trim ((Text.trim text).takeWhile (· != '[')) = role at h htoken htrim
  split at h
  · cases h
  · next hne =>
      split at h
      · cases h
      · next hchars =>
          obtain ⟨axis, haxis, rfl⟩ := map_eq_ok.1 h
          have hslashes := slashes_of_axisOf hn haxis predicates
          have hshown : axisOf (RawStep.slashes ⟨axis, String.ofList role, predicates⟩)
              (String.ofList role) (!predicates.isEmpty) = .ok axis := by
            rw [hslashes]
            exact haxis
          obtain ⟨hself, hany⟩ := RawStep.axisOf_slashes_iff.1 hshown
          refine ⟨⟨isPathRole_of_not_refused (by simpa using htrim) hne hchars, hself, hany,
            hbalanced⟩, before ++ left, right ++ ((Text.trim text).dropWhile (· != '[') ++ after),
            hbefore.append hleft, (hspaced.append hafter).prepend hright, ?_⟩
          rw [hslashes, String.toList_ofList]
          congr 1
          conv_lhs => rw [htext, ← hsplit, htoken]
          simp

/-! ### What a path has been read from -/

/-- The steps of a text can be written, and stand in it one after another. -/
theorem spaced_of_stepsFrom {query : String} {offset : Nat} {text : List Char}
    {raws : List RawStep} (hs : EndsStep text) (h : stepsFrom query offset text = .ok raws) :
    (∀ raw ∈ raws, raw.IsSpelling) ∧ RawStep.AreSpacedAs raws text := by
  -- on the recursion of the reader: all but the last case end in an error or in no steps
  fun_induction stepsFrom query offset text generalizing raws with
  | case1 =>
      cases h
      exact ⟨List.forall_mem_nil _, [], .nil, rfl⟩
  | case2 | case3 | case4 => cases h
  | case5 offset text hne slashes body hbound step rest htake htrim =>
      rename_i ih
      obtain ⟨raw, hraw, h⟩ := bind_eq_ok.1 h
      obtain ⟨others, hothers, h⟩ := bind_eq_ok.1 h
      cases h
      -- the slashes that have been counted stand at the beginning
      obtain ⟨chars, rfl⟩ := hs.resolve_left hne
      have hslashes : List.replicate slashes '/' = ('/' :: chars).takeWhile (· == '/') := by
        refine (List.eq_replicate_iff.2 ⟨rfl, fun c hc => ?_⟩).symm
        simpa using List.all_eq_true.1 List.all_takeWhile c hc
      have hpos : 1 ≤ slashes := by simp [slashes]
      obtain ⟨hspelling, hspaced⟩ := spaced_of_rawStep ⟨hpos, Nat.not_lt.1 hbound⟩ hraw
      obtain ⟨hothers, texts, htexts, hflat⟩ := ih (endsStep_of_takeStep htake) hothers
      refine ⟨List.forall_mem_cons.2 ⟨hspelling, hothers⟩, _ :: texts, .cons hspaced htexts, ?_⟩
      rw [List.flatten_cons, hflat, List.append_assoc, takeStep_append htake, hslashes,
        List.takeWhile_append_dropWhile]

end Segment

/-- What a path is split into is a path, and stands in it. -/
theorem path_of_segment {query : String} {raws : List RawStep} (h : segment query = .ok raws) :
    RawStep.ArePath raws ∧ RawStep.AreSpacedAs raws (Text.trim query.toList) := by
  unfold segment at h
  split at h
  · cases h
  · next rest htrim =>
      obtain ⟨hspelling, hspaced⟩ := Segment.spaced_of_stepsFrom (Or.inr ⟨rest, rfl⟩) h
      rw [htrim]
      refine ⟨⟨?_, hspelling⟩, hspaced⟩
      rintro rfl
      obtain ⟨texts, htexts, hflat⟩ := hspaced
      cases htexts
      cases hflat
  · cases h

/-- A text is split into the steps that stand in it, if they can be written. -/
theorem segment_eq_ok_iff {query : String} {raws : List RawStep} :
    segment query = .ok raws ↔
      RawStep.ArePath raws ∧ RawStep.AreSpacedAs raws (Text.trim query.toList) :=
  ⟨path_of_segment, fun h => segment_spaced h.1 h.2⟩

/-- Steps that can be written are found again where they have been written; a text is split into
steps exactly if they can be written and it shows them, but for blanks at its ends; and every other
text is refused. -/
theorem segment_inverts :
    (∀ raws, RawStep.ArePath raws →
      segment (String.ofList (raws.flatMap RawStep.spelled)) = .ok raws) ∧
    (∀ query raws, segment query = .ok raws ↔
      RawStep.ArePath raws ∧ RawStep.AreSpacedAs raws (Text.trim query.toList)) ∧
    ∀ query, (¬ ∃ raws, RawStep.ArePath raws ∧
        RawStep.AreSpacedAs raws (Text.trim query.toList)) →
      ∃ error, segment query = .error error := by
  refine ⟨fun _ => segment_spelled, fun _ _ => segment_eq_ok_iff, fun query hnone => ?_⟩
  cases hread : segment query with
  | error error => exact ⟨error, rfl⟩
  | ok raws => exact absurd ⟨raws, segment_eq_ok_iff.1 hread⟩ hnone

/-- Blanks are ignored before a slash, too: behind the last group of a step they stand neither
beside a role nor between groups. -/
theorem segment_blank_before_slash :
    let query := "/panel[1] /text"
    let raws : List RawStep := [⟨.child, "panel", ["1"]⟩, ⟨.child, "text", []⟩]
    segment query = .ok raws ∧
      ¬ ∃ texts, List.Forall₂ (fun raw text => raw.IsSpacedAs text ∧
          (raw.predicates ≠ [] → text.getLast? = some ']')) raws texts ∧
        texts.flatten = Text.trim query.toList := by
  refine ⟨by decide +kernel, ?_⟩
  rintro ⟨texts, htexts, hflat⟩
  cases htexts with
  | @cons _ first _ _ hfirst hrest =>
  cases hrest with
  | @cons _ second _ _ hsecond hnil =>
  cases hnil
  obtain ⟨before, rest, _, _, hslash⟩ := hsecond.1
  have htrim : Text.trim "/panel[1] /text".toList = "/panel[1] /text".toList := by
    decide +kernel
  have htext : first ++ second = "/panel[1] /text".toList := by
    rw [← htrim, ← hflat, List.flatten_cons, List.flatten_cons, List.flatten_nil, List.append_nil]
  -- no bracket of the text stands right before a slash
  have hapart : ∀ n < 16, ¬ (("/panel[1] /text".toList.take n).getLast? = some ']' ∧
      ("/panel[1] /text".toList.drop n).head? = some '/') := by
    decide +kernel
  have hlength : first.length < 16 := by
    have h := congrArg List.length htext
    rw [List.length_append, show "/panel[1] /text".toList.length = 15 by decide +kernel] at h
    omega
  refine hapart first.length hlength ⟨?_, ?_⟩
  · rw [← htext, List.take_left]
    exact hfirst.2 (by decide)
  · rw [← htext, List.drop_left, hslash]
    rfl

end AccessQuery
