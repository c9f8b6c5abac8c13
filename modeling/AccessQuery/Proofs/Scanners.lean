/-
**The two scanners agree.**

The scanner that looks for the end of a step minds quotes inside brackets only, and goes over all of
the path.  The scanner that looks for the end of a group minds quotes everywhere, and starts again
at every group of a trimmed step.  Yet behind an opening bracket they make the same moves: inside
brackets both mind quotes, and both come out of the last bracket at the same place.  Between the
groups of a step, where they could differ, the second does not look for anything, since whatever is
not blank there is refused.

So nothing goes wrong when a path is split by byte offsets.  Every slice begins and ends between
characters, every step ends behind its beginning, and every group of a step ends at the next bracket
at which the scanner of steps has come out of all brackets.

Main results:

* `AccessQuery.Segment.stepEnd?_cons_cases` — what one character does to the scanner of steps;
* `AccessQuery.Segment.exists_group_of_stepEnd?` — behind an opening bracket the scanners agree;
* `AccessQuery.Segment.groupsAt_eq`, `AccessQuery.Segment.splitStep_eq`,
  `AccessQuery.Segment.stepsAt_eq` — the groups of a step, a step and a path are split without a
  mishap;
* `AccessQuery.Segment.scanners_agree` — every path is, and every step that has an end.
-/

import AccessQuery.Proofs.Grammar.Groups
import AccessQuery.Proofs.Grammar.Offsets

set_option relaxedAutoImplicit false
set_option autoImplicit false

namespace AccessQuery.Segment

open Text

variable {depth offset stop slashes : Nat} {quote : Option Char} {closings : List Nat}
  {text step rest gap s : List Char}

/-! ### Without a mishap -/

namespace Checked

theorem ok_bind {α β : Type} (a : α) (f : α → Checked β) : (.ok a : Checked α) >>= f = f a :=
  rfl

theorem smooth_bind {α β : Type} (x : Except QueryError α) (f : α → Except QueryError β) :
    smooth (x >>= f) = smooth x >>= fun a => smooth (f a) := by
  cases x <;> rfl

theorem smooth_ne_fail {α : Type} (x : Except QueryError α) (what : Mishap) :
    smooth x ≠ fail what := by
  cases x <;> simp [smooth, fail, Except.mapError]

end Checked

/-! ### The scanner of steps, one character at a time -/

/-- The scanner refuses a character, stops before it, or moves on.  Where it keeps an offset, the
character closes the last open bracket. -/
theorem stepEnd?_cons_cases (depth : Nat) (quote : Option Char) (c : Char) :
    (∀ offset rest, stepEnd? depth quote offset (c :: rest) = none ∧
      takeStep depth quote (c :: rest) = none) ∨
    (∀ offset rest, stepEnd? depth quote offset (c :: rest) = some (offset, []) ∧
      takeStep depth quote (c :: rest) = some ([], c :: rest) ∧ depth = 0 ∧ quote = none) ∨
    ∃ (depth' : Nat) (quote' : Option Char) (closes : Bool),
      (∀ q ∈ quote', q ∈ quote ∨ isQuote q = true) ∧ ∀ offset rest,
      stepEnd? depth quote offset (c :: rest) =
        (stepEnd? depth' quote' (offset + c.utf8Size) rest).map
          (fun r => (r.1, if closes then offset :: r.2 else r.2)) ∧
      takeStep depth quote (c :: rest) = before [c] (takeStep depth' quote' rest) := by
  have hid (r : Option (Nat × List Nat)) : r.map (fun r => (r.1, r.2)) = r := by
    cases r <;> rfl
  cases quote with
  | some q =>
      -- between quotes only the closing quote counts
      refine Or.inr (Or.inr
        ⟨depth, if c = q then none else some q, false, ?_, fun offset rest => ?_⟩)
      · intro p hp
        split at hp
        · cases hp
        · exact Or.inl hp
      · exact ⟨by simp [stepEnd?, hid], by rw [takeStep]; rfl⟩
  | none =>
      by_cases hquote : isQuote c = true ∧ 0 < depth
      · refine Or.inr (Or.inr ⟨depth, some c, false, ?_, fun offset rest => ?_⟩)
        · intro p hp
          cases hp
          exact Or.inr hquote.1
        · exact ⟨by simp [stepEnd?, hquote, hid], by simp [takeStep, hquote, before]⟩
      by_cases hopen : c = '['
      · subst hopen
        exact Or.inr (Or.inr ⟨depth + 1, none, false, by simp, fun offset rest =>
          ⟨by simp [stepEnd?, isQuote, hid], takeStep_open depth rest⟩⟩)
      by_cases hclose : c = ']'
      · subst hclose
        by_cases hd : depth = 0
        · exact Or.inl fun offset rest =>
            ⟨by simp [stepEnd?, isQuote, hd], by simp [takeStep, isQuote, hd]⟩
        · refine Or.inr (Or.inr
            ⟨depth - 1, none, decide (depth = 1), by simp, fun offset rest => ?_⟩)
          exact ⟨by simp [stepEnd?, isQuote, hd], by simp [takeStep, isQuote, hd, before]⟩
      by_cases hslash : c = '/' ∧ depth = 0
      · obtain ⟨rfl, rfl⟩ := hslash
        exact Or.inr (Or.inl fun offset rest =>
          ⟨by simp [stepEnd?, isQuote], by simp [takeStep, isQuote], rfl, rfl⟩)
      · refine Or.inr (Or.inr ⟨depth, none, false, by simp, fun offset rest => ⟨?_, ?_⟩⟩)
        · simp [stepEnd?, hquote, hopen, hclose, hslash, hid]
        · simp [takeStep, hquote, hopen, hclose, hslash, before]

/-- Told by offsets, a step ends where it is split off, whatever follows it. -/
theorem stepEnd?_of_takeStep (h : takeStep depth quote text = some (step, rest)) (offset : Nat) :
    ∃ closings, stepEnd? depth quote offset text = some (offset + byteLength step, closings) ∧
      stepEnd? depth quote offset step = some (offset + byteLength step, closings) := by
  induction text generalizing depth quote offset step with
  | nil =>
      rw [takeStep] at h
      split at h
      · next hd =>
          cases h
          exact ⟨[], by rw [stepEnd?_nil, if_pos hd]; rfl, by rw [stepEnd?_nil, if_pos hd]; rfl⟩
      · cases h
  | cons c text ih =>
      obtain hnone | hstop | ⟨depth', quote', closes, -, hmove⟩ := stepEnd?_cons_cases depth quote c
      · rw [(hnone offset text).2] at h
        cases h
      · obtain ⟨hend, htake, rfl, rfl⟩ := hstop offset text
        rw [htake] at h
        cases h
        exact ⟨[], hend, rfl⟩
      · rw [(hmove offset text).2] at h
        obtain ⟨⟨step, rest⟩, hr, he⟩ := Option.map_eq_some_iff.1 h
        cases he
        obtain ⟨closings, htext, hstep⟩ := ih hr (offset + c.utf8Size)
        rw [List.singleton_append, byteLength_cons, ← Nat.add_assoc, (hmove offset text).1, htext,
          (hmove offset step).1, hstep]
        exact ⟨_, rfl, rfl⟩

theorem stepEnd?_of_takeStep_eq_none (h : takeStep depth quote text = none) (offset : Nat) :
    stepEnd? depth quote offset text = none := by
  induction text generalizing depth quote offset with
  | nil =>
      rw [takeStep] at h
      split at h
      · cases h
      · next hd => rw [stepEnd?_nil, if_neg hd]
  | cons c text ih =>
      obtain hnone | hstop | ⟨depth', quote', closes, -, hmove⟩ := stepEnd?_cons_cases depth quote c
      · exact (hnone offset text).1
      · rw [(hstop offset text).2.1] at h
        cases h
      · rw [(hmove offset text).2, before, Option.map_eq_none_iff] at h
        rw [(hmove offset text).1, ih h]
        rfl

/-! ### Inside brackets -/

/-- Inside brackets the scanners make the same move, unless the last open bracket closes. -/
theorem inside_cons_cases (depth : Nat) (quote : Option Char) (c : Char) :
    (c = ']' ∧ depth = 0 ∧ quote = none) ∨
    ∃ (depth' : Nat) (quote' : Option Char),
      (∀ offset rest, stepEnd? (depth + 1) quote offset (c :: rest) =
        stepEnd? (depth' + 1) quote' (offset + c.utf8Size) rest) ∧
      (∀ rest, takeGroup depth quote (c :: rest) = before [c] (takeGroup depth' quote' rest)) ∧
      ∀ place rest, groupEnd (depth + 1) quote place (c :: rest) =
        groupEnd (depth' + 1) quote' (place + c.utf8Size) rest := by
  cases quote with
  | some q =>
      refine Or.inr ⟨depth, if c = q then none else some q, fun offset rest => ?_, fun rest => ?_,
        fun place rest => ?_⟩
      · rw [stepEnd?]
      · rw [takeGroup]
        rfl
      · rw [groupEnd]
  | none =>
      by_cases hquote : isQuote c = true
      · refine Or.inr ⟨depth, some c, fun offset rest => ?_, fun rest => ?_, fun place rest => ?_⟩
        · simp [stepEnd?, hquote]
        · simp [takeGroup, hquote, before]
        · simp [groupEnd, hquote]
      by_cases hopen : c = '['
      · subst hopen
        refine Or.inr ⟨depth + 1, none, fun offset rest => ?_, takeGroup_open depth,
          fun place rest => ?_⟩
        · simp [stepEnd?, isQuote]
        · exact groupEnd_open (depth + 1) place rest
      by_cases hclose : c = ']'
      · subst hclose
        cases depth with
        | zero => exact Or.inl ⟨rfl, rfl, rfl⟩
        | succ depth =>
            refine Or.inr ⟨depth, none, fun offset rest => ?_, takeGroup_close depth,
              fun place rest => ?_⟩
            · simp [stepEnd?, isQuote]
            · simp [groupEnd, isQuote]
      · refine Or.inr ⟨depth, none, fun offset rest => ?_, fun rest => ?_, fun place rest => ?_⟩
        · simp [stepEnd?, hquote, hopen, hclose]
        · simp [takeGroup, hquote, hopen, hclose, before]
        · simp [groupEnd, hquote, hopen, hclose]

/-- Behind an opening bracket, where a step has an end, the group has one as well: it is the next
bracket at which the scanner of steps comes out of all brackets, and from there that scanner goes
on. -/
theorem exists_group_of_stepEnd?
    (h : stepEnd? (depth + 1) quote offset text = some (stop, closings)) :
    ∃ group rest later, takeGroup depth quote text = some (group, rest) ∧
      (∀ place, groupEnd (depth + 1) quote place text = .ok (some (place + byteLength group))) ∧
      closings = (offset + byteLength group) :: later ∧
      stepEnd? 0 none (offset + byteLength group + 1) rest = some (stop, later) := by
  -- on the text, with the state in which both scanners stand
  induction text generalizing depth quote offset with
  | nil => simp [stepEnd?_nil] at h
  | cons c text ih =>
      obtain ⟨rfl, rfl, rfl⟩ | ⟨depth', quote', hstep, htake, hend⟩ :=
        inside_cons_cases depth quote c
      · have hclose : stepEnd? 1 none offset (']' :: text) =
            (stepEnd? 0 none (offset + 1) text).map fun r => (r.1, offset :: r.2) := by
          simp [stepEnd?, isQuote, Char.utf8Size]
        rw [Nat.zero_add, hclose] at h
        obtain ⟨⟨last, later⟩, hrest, he⟩ := Option.map_eq_some_iff.1 h
        cases he
        refine ⟨[], text, later, by simp [takeGroup, isQuote], fun place => ?_, ?_, ?_⟩
        · simp [groupEnd, isQuote, byteLength_nil]
        · rw [byteLength_nil, Nat.add_zero]
        · rw [byteLength_nil, Nat.add_zero, hrest]
      · rw [hstep] at h
        obtain ⟨group, rest, later, hg, hgroup, hclosings, hrest⟩ := ih h
        refine ⟨c :: group, rest, later, by rw [htake, hg]; rfl, fun place => ?_, ?_, ?_⟩
        · rw [hend, hgroup, byteLength_cons, Nat.add_assoc]
        · rw [hclosings, byteLength_cons, Nat.add_assoc]
        · rw [byteLength_cons, ← Nat.add_assoc offset, hrest]

/-! ### Outside brackets -/

/-- Outside brackets, the scanner of steps goes over what has no brackets and no slashes. -/
theorem stepEnd?_outside (h : ∀ c ∈ s, isOutside c = true) (offset : Nat) (rest : List Char) :
    stepEnd? 0 none offset (s ++ rest) = stepEnd? 0 none (offset + byteLength s) rest := by
  induction s generalizing offset with
  | nil => rfl
  | cons c s ih =>
      have hc := h c List.mem_cons_self
      simp only [isOutside, Bool.and_eq_true, bne_iff_ne] at hc
      rw [List.cons_append, stepEnd?]
      simp only [hc, Nat.lt_irrefl, and_false, false_and, if_false,
        ih fun d hd => h d (List.mem_cons_of_mem c hd)]
      rw [byteLength_cons, Nat.add_assoc]

/-- Where a step ends with its text, what stands before the first bracket is gone over. -/
theorem isOutside_of_stepEnd? (hs : '[' ∉ s)
    (h : stepEnd? 0 none offset (s ++ rest) = some (offset + byteLength (s ++ rest), closings)) :
    ∀ c ∈ s, isOutside c = true := by
  induction s generalizing offset with
  | nil => exact List.forall_mem_nil _
  | cons c s ih =>
      obtain ⟨hopen, hs⟩ := not_or.1 (mt List.mem_cons.2 hs)
      have hopen : c ≠ '[' := fun he => hopen he.symm
      rw [List.cons_append, stepEnd?] at h
      simp only [Nat.lt_irrefl, and_false, if_false, if_neg hopen, if_true] at h
      split at h
      · cases h
      · next hclose =>
          split at h
          · -- at a slash the step would end earlier
            have hstop := congrArg Prod.fst (Option.some.inj h)
            have hpos := c.utf8Size_pos
            rw [byteLength_cons] at hstop
            dsimp only at hstop
            omega
          · next hslash =>
              rw [byteLength_cons, ← Nat.add_assoc] at h
              refine List.forall_mem_cons.2 ⟨?_, ih hs h⟩
              have hslash : c ≠ '/' := fun he => hslash ⟨he, trivial⟩
              simp [isOutside, hopen, hclose, hslash]

/-- Behind it, the step still ends with its text. -/
theorem stepEnd?_behind (hs : '[' ∉ s)
    (h : stepEnd? 0 none offset (s ++ rest) = some (offset + byteLength (s ++ rest), closings)) :
    stepEnd? 0 none (offset + byteLength s) rest =
      some (offset + byteLength s + byteLength rest, closings) := by
  rw [← stepEnd?_outside (isOutside_of_stepEnd? hs h), h, byteLength_append, Nat.add_assoc]

/-! ### Blanks -/

/-- Blanks change nothing, wherever the scanner of steps stands. -/
theorem stepEnd?_gap (hgap : AllBlank gap) (hq : ∀ q ∈ quote, isQuote q = true) (offset : Nat)
    (rest : List Char) : stepEnd? depth quote offset (gap ++ rest) =
      stepEnd? depth quote (offset + byteLength gap) rest := by
  induction gap generalizing offset with
  | nil => rfl
  | cons c gap ih =>
      obtain ⟨hc, hgap⟩ := List.forall_mem_cons.1 hgap
      have hmove : stepEnd? depth quote offset (c :: (gap ++ rest)) =
          stepEnd? depth quote (offset + c.utf8Size) (gap ++ rest) := by
        have hne (d : Char) (hd : isBlank d = false) : c ≠ d := ne_of_passes hc hd
        cases quote with
        | none => simp [stepEnd?, isQuote, hne '\x27' (by decide), hne '"' (by decide),
            hne '[' (by decide), hne ']' (by decide), hne '/' (by decide)]
        | some q =>
            have hquote : isBlank q = false := by
              rcases Bool.or_eq_true_iff.1 (hq q rfl) with he | he
              · rw [eq_of_beq he]
                decide
              · rw [eq_of_beq he]
                decide
            rw [stepEnd?, if_neg (hne q hquote)]
      rw [List.cons_append, hmove, ih hgap, byteLength_cons, Nat.add_assoc]

/-- A step that ends with its text ends with what is left of it without the blanks at its end. -/
theorem stepEnd?_of_append_gap (hgap : AllBlank gap) (hq : ∀ q ∈ quote, isQuote q = true)
    (h : stepEnd? depth quote offset (s ++ gap) =
      some (offset + byteLength (s ++ gap), closings)) :
    stepEnd? depth quote offset s = some (offset + byteLength s, closings) := by
  induction s generalizing depth quote offset closings with
  | nil =>
      have hend : stepEnd? depth quote offset (gap ++ []) =
          stepEnd? depth quote (offset + byteLength gap) [] := stepEnd?_gap hgap hq offset []
      rw [List.append_nil] at hend
      rw [List.nil_append, hend, stepEnd?_nil] at h
      rw [stepEnd?_nil]
      split at h
      · next hd =>
          cases h
          rw [if_pos hd, byteLength_nil, Nat.add_zero]
      · cases h
  | cons c s ih =>
      rw [List.cons_append] at h
      obtain hnone | hstop | ⟨depth', quote', closes, hq', hmove⟩ :=
        stepEnd?_cons_cases depth quote c
      · rw [(hnone offset _).1] at h
        cases h
      · rw [(hstop offset _).1] at h
        have hend := congrArg Prod.fst (Option.some.inj h)
        have hpos := c.utf8Size_pos
        rw [byteLength_cons] at hend
        dsimp only at hend
        omega
      · rw [(hmove offset _).1, byteLength_cons, ← Nat.add_assoc] at h
        obtain ⟨⟨last, later⟩, hrest, he⟩ := Option.map_eq_some_iff.1 h
        cases he
        have hquote : ∀ q ∈ quote', isQuote q = true := fun q hm => (hq' q hm).elim (hq q) id
        rw [(hmove offset s).1, ih hquote hrest, byteLength_cons, ← Nat.add_assoc]
        rfl

/-! ### Groups -/

theorem groupsAt_of_nil {step : String} (h : trimStart text = []) :
    groupsAt step offset closings text = .ok [] := by
  rw [groupsAt]
  split
  · rfl
  · next heq => rw [h] at heq; cases heq
  · next hnil _ => exact absurd h hnil

/-- A group that ends at the next bracket is split off. -/
theorem groupsAt_of_groupEnd {step : String} {group rest : List Char} {later : List Nat}
    (h : trimStart text = '[' :: (group ++ ']' :: rest))
    (hend : groupEnd 1 none 1 (group ++ ']' :: rest) = .ok (some (1 + byteLength group))) :
    groupsAt step offset
        ((offset + byteLength (text.takeWhile isBlank) + (1 + byteLength group)) :: later) text =
      groupsAt step
          (offset + byteLength (text.takeWhile isBlank) + (1 + byteLength group + 1)) later rest >>=
        fun others => .ok (String.ofList group :: others) := by
  have hopen : groupEnd 0 none 0 ('[' :: (group ++ ']' :: rest)) =
      .ok (some (1 + byteLength group)) := by
    rw [groupEnd_open]
    exact hend
  have hgroup : slice 1 (1 + byteLength group) ('[' :: (group ++ ']' :: rest)) = .ok group :=
    slice_append ['['] group (']' :: rest)
  have hrest : sliceFrom (1 + byteLength group + 1) ('[' :: (group ++ ']' :: rest)) = .ok rest := by
    have hsplit := sliceFrom_append ('[' :: (group ++ [']'])) rest
    have hlength : byteLength ('[' :: (group ++ [']'])) = 1 + byteLength group + 1 := by
      rw [byteLength_cons, byteLength_append, ← Nat.add_assoc]
      rfl
    rw [hlength] at hsplit
    simpa using hsplit
  rw [groupsAt]
  split
  · next heq => rw [h] at heq; cases heq
  · next heq =>
      obtain rfl := (List.cons.inj (h.symm.trans heq)).2
      simp only [bind, Except.bind, hopen, List.head?_cons, if_true, hgroup, List.tail_cons]
      split
      · next hfail => rw [hrest] at hfail; cases hfail
      · next hok =>
          obtain rfl := Except.ok.inj (hrest.symm.trans hok)
          rfl
  · next hne => exact absurd h (hne _)

/-- A step whose next group is split off goes on behind it. -/
theorem exists_group_of_trimStart {inside : List Char} (htext : trimStart text = '[' :: inside)
    (h : stepEnd? 0 none offset text = some (offset + byteLength text, closings)) :
    ∃ group rest later, takeGroup 0 none inside = some (group, rest) ∧
      groupEnd 1 none 1 inside = .ok (some (1 + byteLength group)) ∧
      closings = (offset + byteLength (text.takeWhile isBlank) + (1 + byteLength group)) :: later ∧
      stepEnd? 0 none (offset + byteLength (text.takeWhile isBlank) + (1 + byteLength group + 1))
        rest = some (offset + byteLength (text.takeWhile isBlank) + (1 + byteLength group + 1) +
          byteLength rest, later) := by
  have hgap : AllBlank (text.takeWhile isBlank) := List.all_eq_true.1 List.all_takeWhile
  have hsplit : text.takeWhile isBlank ++ trimStart text = text :=
    List.takeWhile_append_dropWhile
  have hinside : stepEnd? 1 none (offset + byteLength (text.takeWhile isBlank) + 1) inside =
      some (offset + byteLength text, closings) := by
    rw [← h]
    conv_rhs => rw [← hsplit, htext, stepEnd?_gap hgap (by simp), stepEnd?]
    simp [isQuote, Char.utf8Size]
  obtain ⟨group, rest, later, hg, hend, rfl, hrest⟩ := exists_group_of_stepEnd? hinside
  -- the places of the group and of its end, counted from the brackets and from the step
  have hplace : offset + byteLength (text.takeWhile isBlank) + 1 + byteLength group =
      offset + byteLength (text.takeWhile isBlank) + (1 + byteLength group) := by
    rw [Nat.add_assoc _ 1]
  have hlength : byteLength text = byteLength (text.takeWhile isBlank) +
      (1 + (byteLength group + (1 + byteLength rest))) := by
    conv_lhs => rw [← hsplit, htext, ← takeGroup_append hg]
    rw [byteLength_append, byteLength_cons, byteLength_append, byteLength_cons]
    rfl
  refine ⟨group, rest, later, hg, hend 1, by rw [hplace], ?_⟩
  rw [hplace, Nat.add_assoc _ _ 1] at hrest
  rw [hrest, hlength]
  congr 2
  omega

/-- The groups of a step that has an end are split off without a mishap. -/
theorem groupsAt_eq (step : String)
    (h : stepEnd? 0 none offset text = some (offset + byteLength text, closings)) :
    groupsAt step offset closings text = .smooth (groups step text) := by
  -- on the recursion of the reader: every group leaves a text that has an end as well
  fun_induction groups step text generalizing offset closings with
  | case1 text htext => exact groupsAt_of_nil htext
  | case2 text inside htext hg =>
      obtain ⟨group, rest, later, hgroup, -⟩ := exists_group_of_trimStart htext h
      rw [hg] at hgroup
      cases hgroup
  | case3 text inside htext group rest hg _ _ ih =>
      obtain ⟨_, _, later, hgroup, hend, rfl, hrest⟩ := exists_group_of_trimStart htext h
      obtain ⟨rfl, rfl⟩ := Prod.mk.inj (Option.some.inj (hg.symm.trans hgroup))
      rw [← takeGroup_append hg] at htext hend
      rw [groupsAt_of_groupEnd htext hend, ih hrest, Checked.smooth_bind]
      rfl
  | case4 text hnil hopen =>
      rw [groupsAt]
      split
      · next heq => exact absurd heq hnil
      · next heq => exact absurd heq (hopen _)
      · rfl

/-! ### Steps -/

/-- A step that has an end is read without a mishap. -/
theorem splitStep_eq (slashes : Nat)
    (h : stepEnd? 0 none 0 text = some (byteLength text, closings)) :
    splitStep slashes closings text = .smooth (rawStep slashes text) := by
  have hbefore : AllBlank (text.takeWhile isBlank) := List.all_eq_true.1 List.all_takeWhile
  have hstart : text.takeWhile isBlank ++ trimStart text = text :=
    List.takeWhile_append_dropWhile
  obtain ⟨after, hafter, htrim⟩ := exists_trimEnd_eq (trimStart text)
  -- blanks at both ends change no offset but the first
  have hsolid : stepEnd? 0 none (byteLength (text.takeWhile isBlank)) (trim text) =
      some (byteLength (text.takeWhile isBlank) + byteLength (trim text), closings) := by
    refine stepEnd?_of_append_gap hafter (by simp) ?_
    rw [trim, ← htrim, ← byteLength_append, hstart, ← h]
    conv_rhs => rw [← hstart, stepEnd?_gap hbefore (by simp), Nat.zero_add]
  have hrole : (trim text).takeWhile (· != '[') ++ (trim text).dropWhile (· != '[') = trim text :=
    List.takeWhile_append_dropWhile
  have hopen : '[' ∉ (trim text).takeWhile (· != '[') := fun hm => by
    simpa using List.all_eq_true.1 List.all_takeWhile '[' hm
  have hslice : slice 0 (byteLength ((trim text).takeWhile (· != '['))) (trim text) =
      .ok ((trim text).takeWhile (· != '[')) := by
    have hsliced := slice_append [] ((trim text).takeWhile (· != '['))
      ((trim text).dropWhile (· != '['))
    rwa [hrole, List.nil_append, byteLength_nil, Nat.zero_add] at hsliced
  have hfrom : sliceFrom (byteLength ((trim text).takeWhile (· != '['))) (trim text) =
      .ok ((trim text).dropWhile (· != '[')) := by
    have hsliced := sliceFrom_append ((trim text).takeWhile (· != '['))
      ((trim text).dropWhile (· != '['))
    rwa [hrole] at hsliced
  have hgroups := groupsAt_eq (String.ofList (trim text))
    (stepEnd?_behind hopen ((congrArg _ hrole).trans hsolid |>.trans (by rw [hrole])))
  rw [splitStep, rawStep, Checked.smooth_bind, ← hgroups, hslice, hfrom, Checked.ok_bind,
    Checked.ok_bind]
  -- what is left looks at no offsets
  refine bind_congr fun predicates => ?_
  rw [apply_ite Checked.smooth, apply_ite Checked.smooth]
  rfl

/-! ### Paths -/

theorem byteLength_slashes (h : ∀ c ∈ s, c = '/') : byteLength s = s.length := by
  induction s with
  | nil => rfl
  | cons c s ih =>
      obtain ⟨rfl, hs⟩ := List.forall_mem_cons.1 h
      rw [byteLength_cons, ih hs, List.length_cons, Nat.add_comm]
      rfl

theorem byteLength_pos (h : s ≠ []) : 0 < byteLength s := by
  obtain ⟨c, rest, rfl⟩ := List.exists_cons_of_ne_nil h
  have hpos := c.utf8Size_pos
  rw [byteLength_cons]
  omega

/-- The scanner of steps by offsets finds the step that is split off, wherever it begins. -/
theorem stepEnd_of_takeStep (front : List Char) {body : List Char}
    (h : takeStep 0 none body = some (step, rest)) :
    ∃ closings,
      stepEnd (byteLength front) (front ++ body) =
        .ok (byteLength front + byteLength step, closings) ∧
      stepEnd? 0 none 0 step = some (byteLength step, closings) := by
  obtain ⟨closings, hbody, hstep⟩ := stepEnd?_of_takeStep h 0
  rw [Nat.zero_add] at hbody hstep
  refine ⟨closings, ?_, hstep⟩
  rw [stepEnd, sliceFrom_append, Checked.ok_bind, hbody]

theorem stepEnd_of_takeStep_eq_none {front body : List Char} (h : takeStep 0 none body = none) :
    stepEnd (byteLength front) (front ++ body) =
      .refuse (.invalidPredicate (String.ofList body)) := by
  rw [stepEnd, sliceFrom_append, Checked.ok_bind, stepEnd?_of_takeStep_eq_none h]

/-- One round over a path: behind the slashes a step is split off, and it is not empty. -/
theorem stepsAt_append (front : List Char) (hne : text ≠ []) :
    stepsAt (front ++ text) (byteLength front) =
      if 2 < (text.takeWhile (· == '/')).length then
        .refuse (.tooManySlashes (byteLength front) (String.ofList (front ++ text)))
      else match takeStep 0 none (text.dropWhile (· == '/')) with
        | none => .refuse (.invalidPredicate (String.ofList (text.dropWhile (· == '/'))))
        | some (step, _) =>
            if trim step = [] then
              .refuse (.emptyStep (byteLength front) (String.ofList (front ++ text)))
            else Checked.smooth (rawStep (text.takeWhile (· == '/')).length step) >>= fun raw =>
              stepsAt (front ++ text)
                  (byteLength (front ++ (text.takeWhile (· == '/') ++ step))) >>= fun others =>
                .ok (raw :: others) := by
  have hpos : byteLength front < byteLength (front ++ text) := by
    have hpos := byteLength_pos hne
    rw [byteLength_append front]
    omega
  have hsplit : text.takeWhile (· == '/') ++ text.dropWhile (· == '/') = text :=
    List.takeWhile_append_dropWhile
  have hcount : byteLength (text.takeWhile (· == '/')) = (text.takeWhile (· == '/')).length :=
    byteLength_slashes fun c hc => eq_of_beq (List.all_eq_true.1 List.all_takeWhile c hc)
  rw [stepsAt, if_pos hpos, sliceFrom_append, Checked.ok_bind]
  dsimp only
  generalize text.takeWhile (· == '/') = slashes at hsplit hcount ⊢
  generalize text.dropWhile (· == '/') = body at hsplit ⊢
  split
  · rfl
  rw [← hcount, ← byteLength_append, ← hsplit, ← List.append_assoc front slashes body]
  cases htake : takeStep 0 none body with
  | none =>
      rw [stepEnd_of_takeStep_eq_none htake]
      rfl
  | some split =>
      obtain ⟨step, rest⟩ := split
      obtain ⟨closings, hend, hstep⟩ := stepEnd_of_takeStep (front ++ slashes) htake
      have hslice : slice (byteLength (front ++ slashes))
          (byteLength (front ++ slashes) + byteLength step) (front ++ slashes ++ body) =
            .ok step := by
        rw [← takeStep_append htake, slice_append]
      rw [hend, Checked.ok_bind]
      dsimp only
      rw [hslice, Checked.ok_bind]
      split
      · rfl
      · next hblank =>
        have hforward : byteLength front < byteLength (front ++ slashes) + byteLength step := by
          have hstep : 0 < byteLength step := byteLength_pos fun hn => hblank (by rw [hn]; rfl)
          rw [byteLength_append]
          omega
        rw [splitStep_eq _ hstep, hcount]
        refine bind_congr fun raw => ?_
        rw [if_pos hforward, ← byteLength_append, List.append_assoc front slashes step]
        rfl

/-- The steps of a path are split off without a mishap, from any of their ends on. -/
theorem stepsAt_eq (front : List Char) : stepsAt (front ++ text) (byteLength front) =
    .smooth (stepsFrom (String.ofList (front ++ text)) (byteLength front) text) := by
  generalize hquery : String.ofList (front ++ text) = query
  generalize hoffset : byteLength front = offset
  -- on the recursion of the reader: what has been read goes to the front
  fun_induction stepsFrom query offset text generalizing front with
  | case1 =>
      rw [stepsAt, if_neg (by rw [List.append_nil, hoffset]; exact Nat.lt_irrefl _)]
      rfl
  | case2 offset text hne slashes =>
      rename_i hmany
      rw [← hoffset, stepsAt_append front hne, if_pos hmany, hquery]
      rfl
  | case3 offset text hne slashes body hfew =>
      rename_i htake
      rw [← hoffset, stepsAt_append front hne, if_neg hfew, htake]
      rfl
  | case4 offset text hne slashes body hfew step rest htake =>
      rename_i hblank
      rw [← hoffset, stepsAt_append front hne, if_neg hfew, htake, hquery]
      exact if_pos hblank
  | case5 offset text hne slashes body hfew step rest htake hblank =>
      rename_i ih
      subst hoffset
      have hslashes : byteLength (text.takeWhile (· == '/')) = slashes :=
        byteLength_slashes fun c hc => eq_of_beq (List.all_eq_true.1 List.all_takeWhile c hc)
      have htext : front ++ text = front ++ (text.takeWhile (· == '/') ++ step) ++ rest := by
        rw [List.append_assoc, List.append_assoc, takeStep_append htake,
          List.takeWhile_append_dropWhile]
      have hend : byteLength (front ++ (text.takeWhile (· == '/') ++ step)) =
          byteLength front + slashes + byteLength step := by
        rw [byteLength_append, byteLength_append, hslashes, Nat.add_assoc]
      have hrest := ih _ (htext ▸ hquery) hend
      rw [stepsAt_append front hne, if_neg hfew, htake]
      dsimp only
      rw [if_neg hblank, Checked.smooth_bind, htext, hend, hrest]
      refine bind_congr fun raw => ?_
      rw [Checked.smooth_bind]
      rfl

theorem segmentAt_eq (query : String) : segmentAt query = .smooth (segment query) := by
  unfold segmentAt segment
  generalize trim query.toList = text
  cases text with
  | nil => rfl
  | cons c rest =>
      by_cases hslash : c = '/'
      · rw [hslash]
        exact stepsAt_eq []
      · simp [hslash, Checked.refuse, Checked.smooth, Except.mapError]

/-! ### The agreement -/

/-- A step that has an end is the slice up to it. -/
theorem exists_step_of_stepEnd {start : Nat} (h : stepEnd start text = .ok (stop, closings)) :
    ∃ step, slice start stop text = .ok step ∧ stop = start + byteLength step ∧
      stepEnd? 0 none 0 step = some (byteLength step, closings) := by
  unfold stepEnd sliceFrom at h
  split at h
  · next front body hcut =>
      obtain ⟨rfl, rfl⟩ := cut?_eq_some_iff.1 hcut
      rw [Checked.ok_bind] at h
      cases htake : takeStep 0 none body with
      | none =>
          rw [stepEnd?_of_takeStep_eq_none htake] at h
          cases h
      | some split =>
          obtain ⟨step, rest⟩ := split
          obtain ⟨passed, hbody, hstep⟩ := stepEnd?_of_takeStep htake 0
          rw [hbody, Nat.zero_add] at h
          rw [Nat.zero_add] at hstep
          cases h
          refine ⟨step, ?_, rfl, hstep⟩
          rw [← takeStep_append htake, slice_append]
  · cases h

/-- Every path is split by byte offsets as it is split by characters.  All slices begin and end
between characters, every step ends behind its beginning, and where groups are looked for no bracket
closes that none has opened and the end of every group is found: the next bracket at which the
scanner of steps has come out of all brackets.  This holds of every step that has an end, wherever
it stands. -/
theorem scanners_agree :
    (∀ query, segmentAt query = .smooth (segment query)) ∧
    (∀ query what, segmentAt query ≠ .fail what) ∧
    ∀ text start stop closings, stepEnd start text = .ok (stop, closings) →
      ∃ step, slice start stop text = .ok step ∧ stop = start + byteLength step ∧
        ∀ slashes, splitStep slashes closings step = .smooth (rawStep slashes step) ∧
          ∀ what, splitStep slashes closings step ≠ .fail what := by
  refine ⟨segmentAt_eq, fun query what => ?_, fun text start stop closings h => ?_⟩
  · rw [segmentAt_eq]
    exact Checked.smooth_ne_fail _ what
  · obtain ⟨step, hslice, hstop, hend⟩ := exists_step_of_stepEnd h
    refine ⟨step, hslice, hstop, fun slashes => ⟨splitStep_eq slashes hend, fun what => ?_⟩⟩
    rw [splitStep_eq slashes hend]
    exact Checked.smooth_ne_fail _ what

/-- A quote in a role counts for neither scanner, and one in a group shields a bracket for both. -/
theorem scanners_agree_quoted :
    stepEnd 1 "/a'[@x=']']".toList = .ok (11, [9]) ∧
      ∃ step, slice 1 11 "/a'[@x=']']".toList = .ok step ∧ 11 = 1 + byteLength step ∧
        ∀ slashes, splitStep slashes [9] step = .smooth (rawStep slashes step) ∧
          ∀ what, splitStep slashes [9] step ≠ .fail what := by
  have hend : stepEnd 1 "/a'[@x=']']".toList = .ok (11, [9]) := by decide +kernel
  exact ⟨hend, scanners_agree.2.2 "/a'[@x=']']".toList 1 11 [9] hend⟩

end AccessQuery.Segment
