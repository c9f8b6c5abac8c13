/-
**Brackets and quotes.**

The two scanners of a path look at brackets, quotes and slashes only.  They pass over a text whose
quotes are closed and whose brackets, outside quotes, are balanced, and come out of it as they went
in; and whatever stands between the brackets of a group is such a text.  The text of a predicate
that can be spelled has no brackets at all outside its literals: what looks like a bracket or a
slash in them stands between quotes.

Main definitions:

* `AccessQuery.Segment.Balanced` — texts that one pair of brackets can enclose;
* `AccessQuery.Segment.bracketed`, `AccessQuery.Segment.Spaced` — groups, each between brackets, and
  such groups with blanks around them.

Main results:

* `AccessQuery.Segment.takeGroup_balanced`, `AccessQuery.Segment.takeStep_spaced` — the scanners
  pass over them;
* `AccessQuery.Segment.balanced_of_takeGroup` — what a group encloses is balanced;
* `AccessQuery.Segment.groups_spaced`, `AccessQuery.Segment.spaced_of_groups` — groups are found
  where they stand, and nowhere else;
* `AccessQuery.Predicate.balanced_display` — the texts of predicates are balanced.
-/

import AccessQuery.Proofs.Grammar.Tokens
import AccessQuery.Query.Segment

set_option relaxedAutoImplicit false
set_option autoImplicit false

namespace AccessQuery

/-! ### Results that are not errors -/

theorem bind_eq_ok {ε α β : Type} {x : Except ε α} {f : α → Except ε β} {b : β} :
    x >>= f = .ok b ↔ ∃ a, x = .ok a ∧ f a = .ok b := by
  cases x with
  | error e => simp [bind, Except.bind]
  | ok a => simp [bind, Except.bind]

theorem map_eq_ok {ε α β : Type} {x : Except ε α} {f : α → β} {b : β} :
    x.map f = .ok b ↔ ∃ a, x = .ok a ∧ f a = b := by
  cases x with
  | error e => simp [Except.map]
  | ok a => simp [Except.map]

/-! ### Blank texts -/

namespace Text

/-- A text of blanks only. -/
def AllBlank (s : List Char) : Prop :=
  ∀ c ∈ s, isBlank c = true

theorem AllBlank.append {s t : List Char} (hs : AllBlank s) (ht : AllBlank t) :
    AllBlank (s ++ t) :=
  List.forall_mem_append.2 ⟨hs, ht⟩

theorem trimStart_append {gap : List Char} (h : AllBlank gap) (s : List Char) :
    trimStart (gap ++ s) = trimStart s :=
  List.dropWhile_append_of_pos h

theorem trimEnd_append (s : List Char) {gap : List Char} (h : AllBlank gap) :
    trimEnd (s ++ gap) = trimEnd s := by
  have hgap : AllBlank gap.reverse := fun c hc => h c (List.mem_reverse.1 hc)
  rw [trimEnd, List.reverse_append, trimStart_append hgap, trimEnd]

theorem exists_trimStart_eq (s : List Char) : ∃ gap, AllBlank gap ∧ s = gap ++ trimStart s :=
  ⟨s.takeWhile isBlank, List.all_eq_true.1 List.all_takeWhile,
    List.takeWhile_append_dropWhile.symm⟩

theorem exists_trimEnd_eq (s : List Char) : ∃ gap, AllBlank gap ∧ s = trimEnd s ++ gap := by
  obtain ⟨gap, hgap, hs⟩ := exists_trimStart_eq s.reverse
  refine ⟨gap.reverse, fun c hc => hgap c (List.mem_reverse.1 hc), ?_⟩
  rw [trimEnd, ← List.reverse_append, ← hs, List.reverse_reverse]

/-- A text is what trimming leaves of it, between blanks. -/
theorem exists_trim_eq (s : List Char) :
    ∃ before after, AllBlank before ∧ AllBlank after ∧ s = before ++ (trim s ++ after) := by
  obtain ⟨before, hbefore, hs⟩ := exists_trimStart_eq s
  obtain ⟨after, hafter, htrim⟩ := exists_trimEnd_eq (trimStart s)
  exact ⟨before, after, hbefore, hafter, by rw [trim, ← htrim, ← hs]⟩

/-- Blanks around a text that has none at its ends are trimmed away. -/
theorem trim_between {before s after : List Char} (hb : AllBlank before) (ha : AllBlank after)
    (hf : IsSolidFirst s) (hl : IsSolidLast s) : trim (before ++ (s ++ after)) = s := by
  rw [trim, trimStart_append hb, (hf.append after).trimStart_eq, trimEnd_append s ha, hl.trimEnd_eq]

end Text

namespace Segment

open Text

variable {s t text rest gap group : List Char} {groups : List (List Char)} {depth : Nat}
variable {c q : Char}

/-! ### Balanced texts -/

/-- A character that the scanners pass over inside brackets. -/
def isPlain (c : Char) : Bool :=
  !isQuote c && c != '[' && c != ']'

/-- A text that one pair of brackets can enclose: quotes shield what is between them and are all
closed, and outside them every bracket that opens is closed and none closes that was not opened. -/
inductive Balanced : List Char → Prop
  | nil : Balanced []
  | plain {c : Char} {s : List Char} : isPlain c = true → Balanced s → Balanced (c :: s)
  | quoted {q : Char} {t s : List Char} :
      isQuote q = true → q ∉ t → Balanced s → Balanced (q :: (t ++ q :: s))
  | nested {t s : List Char} : Balanced t → Balanced s → Balanced ('[' :: (t ++ ']' :: s))

theorem Balanced.append (hs : Balanced s) (ht : Balanced t) : Balanced (s ++ t) := by
  induction hs with
  | nil => exact ht
  | plain hc _ ih => exact .plain hc ih
  | quoted hq hn _ ih =>
      rw [List.cons_append, List.append_assoc]
      exact .quoted hq hn ih
  | nested hi _ _ ih =>
      rw [List.cons_append, List.append_assoc]
      exact .nested hi ih

theorem balanced_of_all (h : s.all isPlain = true) : Balanced s := by
  induction s with
  | nil => exact .nil
  | cons c s ih =>
      rw [List.all_cons, Bool.and_eq_true] at h
      exact .plain h.1 (ih h.2)

/-! ### Passing over -/

/-- Puts a text before what has been split off. -/
def before (s : List Char) (r : Option (List Char × List Char)) : Option (List Char × List Char) :=
  r.map fun r => (s ++ r.1, r.2)

theorem before_before (s t : List Char) (r : Option (List Char × List Char)) :
    before s (before t r) = before (s ++ t) r := by
  cases r <;> simp [before]

@[simp] theorem before_nil (r : Option (List Char × List Char)) : before [] r = r := by
  cases r <;> rfl

@[simp] theorem before_some (s t rest : List Char) :
    before s (some (t, rest)) = some (s ++ t, rest) :=
  rfl

/-- Inside quotes, everything up to the closing quote is passed over. -/
theorem takeGroup_quoted (h : q ∉ t) (depth : Nat) (rest : List Char) :
    takeGroup depth (some q) (t ++ q :: rest) = before (t ++ [q]) (takeGroup depth none rest) := by
  induction t with
  | nil => simp [takeGroup, before]
  | cons c t ih =>
      have hne : c ≠ q := fun he => h (he ▸ List.mem_cons_self)
      rw [List.cons_append, takeGroup]
      simp only [if_neg hne]
      rw [ih fun hm => h (List.mem_cons_of_mem c hm)]
      exact before_before [c] _ _

theorem takeStep_quoted (h : q ∉ t) (depth : Nat) (rest : List Char) :
    takeStep depth (some q) (t ++ q :: rest) = before (t ++ [q]) (takeStep depth none rest) := by
  induction t with
  | nil => simp [takeStep, before]
  | cons c t ih =>
      have hne : c ≠ q := fun he => h (he ▸ List.mem_cons_self)
      rw [List.cons_append, takeStep]
      simp only [if_neg hne]
      rw [ih fun hm => h (List.mem_cons_of_mem c hm)]
      exact before_before [c] _ _

theorem takeGroup_open (depth : Nat) (rest : List Char) :
    takeGroup depth none ('[' :: rest) = before ['['] (takeGroup (depth + 1) none rest) := by
  rw [takeGroup]
  rfl

theorem takeGroup_close (depth : Nat) (rest : List Char) :
    takeGroup (depth + 1) none (']' :: rest) = before [']'] (takeGroup depth none rest) := by
  rw [takeGroup]
  rfl

theorem takeStep_open (depth : Nat) (rest : List Char) :
    takeStep depth none ('[' :: rest) = before ['['] (takeStep (depth + 1) none rest) := by
  rw [takeStep]
  rfl

theorem takeStep_close (depth : Nat) (rest : List Char) :
    takeStep (depth + 1) none (']' :: rest) = before [']'] (takeStep depth none rest) := by
  rw [takeStep]
  rfl

/-- Outside quotes, a balanced text is passed over, -/
theorem takeGroup_balanced (h : Balanced s) (depth : Nat) (rest : List Char) :
    takeGroup depth none (s ++ rest) = before s (takeGroup depth none rest) := by
  induction h generalizing depth rest with
  | nil => simp
  | @plain c s hc _ ih =>
      simp only [isPlain, Bool.and_eq_true, Bool.not_eq_true', bne_iff_ne] at hc
      rw [List.cons_append, takeGroup]
      simp only [hc, Bool.false_eq_true, if_false, ih]
      exact before_before [c] s _
  | @quoted q t s hq hn _ ih =>
      rw [List.cons_append, List.append_assoc, List.cons_append, takeGroup]
      simp only [hq, if_true]
      rw [takeGroup_quoted hn, ih, before_before, ← List.append_cons]
      exact before_before [q] _ _
  | @nested t s _ _ iht ihs =>
      -- one level down for what is inside, and up again
      rw [List.cons_append, List.append_assoc, List.cons_append, takeGroup_open, iht,
        takeGroup_close, ihs, before_before, before_before, before_before]
      simp

/-- inside brackets even by the scanner that looks for slashes. -/
theorem takeStep_balanced (h : Balanced s) (depth : Nat) (rest : List Char) :
    takeStep (depth + 1) none (s ++ rest) = before s (takeStep (depth + 1) none rest) := by
  induction h generalizing depth rest with
  | nil => simp
  | @plain c s hc _ ih =>
      simp only [isPlain, Bool.and_eq_true, Bool.not_eq_true', bne_iff_ne] at hc
      rw [List.cons_append, takeStep]
      simp only [hc, Bool.false_eq_true, false_and, and_false, Nat.succ_ne_zero, if_false, ih]
      exact before_before [c] s _
  | @quoted q t s hq hn _ ih =>
      rw [List.cons_append, List.append_assoc, List.cons_append, takeStep]
      simp only [hq, Nat.succ_pos, and_self, if_true]
      rw [takeStep_quoted hn, ih, before_before, ← List.append_cons]
      exact before_before [q] _ _
  | @nested t s _ _ iht ihs =>
      rw [List.cons_append, List.append_assoc, List.cons_append, takeStep_open, iht,
        takeStep_close, ihs, before_before, before_before, before_before]
      simp

/-! ### What a group encloses -/

/-- A text that closes some number of brackets, one after another, and ends in a balanced text. -/
def Closes : Nat → List Char → Prop
  | 0, s => Balanced s
  | depth + 1, s => ∃ t rest, Balanced t ∧ Closes depth rest ∧ s = t ++ ']' :: rest

theorem Closes.prepend (ht : Balanced t) (h : Closes depth s) : Closes depth (t ++ s) := by
  cases depth with
  | zero => exact ht.append h
  | succ depth =>
      obtain ⟨t', rest, ht', hrest, rfl⟩ := h
      exact ⟨t ++ t', rest, ht.append ht', hrest, (List.append_assoc ..).symm⟩

/-- The same of a scan that stands between quotes, or does not: they are closed first. -/
def Finishes (depth : Nat) : Option Char → List Char → Prop
  | none, s => Closes depth s
  | some q, s => ∃ t rest, q ∉ t ∧ Closes depth rest ∧ s = t ++ q :: rest

/-- What the scan of a group passes over closes what is open. -/
theorem finishes_of_takeGroup {quote : Option Char}
    (h : takeGroup depth quote text = some (group, rest)) : Finishes depth quote group := by
  -- on the recursion of the scanner, with the state in which it stands
  fun_induction takeGroup depth quote text generalizing group rest with
  | case1 => cases h
  | case2 depth c text q ih =>
      obtain ⟨⟨group, rest⟩, hr, he⟩ := Option.map_eq_some_iff.1 h
      cases he
      have ih := ih hr
      by_cases hc : c = q
      · rw [if_pos hc] at ih
        exact ⟨[], group, List.not_mem_nil, ih, by rw [hc]; rfl⟩
      · rw [if_neg hc] at ih
        obtain ⟨t, s, hn, hs, rfl⟩ := ih
        refine ⟨c :: t, s, fun hm => ?_, hs, rfl⟩
        exact (List.mem_cons.1 hm).elim (fun he => hc he.symm) hn
  | case3 depth c text hc ih =>
      obtain ⟨⟨group, rest⟩, hr, he⟩ := Option.map_eq_some_iff.1 h
      cases he
      obtain ⟨t, s, hn, hs, rfl⟩ := ih hr
      have hquoted := Closes.prepend (.quoted hc hn .nil) hs
      simpa [Finishes] using hquoted
  | case4 depth text _ ih =>
      obtain ⟨⟨group, rest⟩, hr, he⟩ := Option.map_eq_some_iff.1 h
      cases he
      obtain ⟨t, s, ht, hs, rfl⟩ := ih hr
      have hnested := Closes.prepend (.nested ht .nil) hs
      simpa [Finishes] using hnested
  | case5 =>
      cases h
      exact Balanced.nil
  | case6 depth text hd _ _ ih =>
      obtain ⟨⟨group, rest⟩, hr, he⟩ := Option.map_eq_some_iff.1 h
      cases he
      obtain ⟨depth, rfl⟩ := Nat.exists_eq_succ_of_ne_zero hd
      exact ⟨[], group, .nil, ih hr, rfl⟩
  | case7 depth c text hq ho hc ih =>
      obtain ⟨⟨group, rest⟩, hr, he⟩ := Option.map_eq_some_iff.1 h
      cases he
      have hplain : isPlain c = true := by simp [isPlain, hq, ho, hc]
      exact Closes.prepend (.plain hplain .nil) (ih hr)

/-- What the brackets of a group enclose is balanced. -/
theorem balanced_of_takeGroup (h : takeGroup 0 none text = some (group, rest)) : Balanced group :=
  finishes_of_takeGroup h

/-! ### Groups -/

/-- Groups, each between brackets. -/
def bracketed (groups : List (List Char)) : List Char :=
  groups.flatMap fun group => '[' :: group ++ [']']

theorem bracketed_cons (group : List Char) (groups : List (List Char)) :
    bracketed (group :: groups) = '[' :: (group ++ ']' :: bracketed groups) := by
  simp [bracketed]

/-- Groups between brackets, with blanks before them, between them and after them. -/
inductive Spaced : List (List Char) → List Char → Prop
  | nil {gap : List Char} : AllBlank gap → Spaced [] gap
  | cons {gap group text : List Char} {groups : List (List Char)} :
      AllBlank gap → Spaced groups text →
        Spaced (group :: groups) (gap ++ '[' :: (group ++ ']' :: text))

/-- There may be no blanks at all. -/
theorem Spaced.cons_tight (group : List Char) (h : Spaced groups text) :
    Spaced (group :: groups) ('[' :: (group ++ ']' :: text)) :=
  @Spaced.cons [] group text groups (List.forall_mem_nil _) h

theorem spaced_bracketed (groups : List (List Char)) : Spaced groups (bracketed groups) := by
  induction groups with
  | nil => exact .nil (List.forall_mem_nil _)
  | cons group groups ih =>
      rw [bracketed_cons]
      exact ih.cons_tight group

theorem Spaced.prepend (hgap : AllBlank gap) (h : Spaced groups text) :
    Spaced groups (gap ++ text) := by
  cases h with
  | nil hg => exact .nil (hgap.append hg)
  | cons hg hrest =>
      rw [← List.append_assoc]
      exact .cons (hgap.append hg) hrest

theorem Spaced.append (h : Spaced groups text) (hgap : AllBlank gap) :
    Spaced groups (text ++ gap) := by
  induction h with
  | nil hg => exact .nil (hg.append hgap)
  | cons hg _ ih =>
      rw [List.append_assoc, List.cons_append, List.append_assoc, List.cons_append]
      exact .cons hg ih

/-- The blanks at the end can be told apart. -/
theorem Spaced.exists_solid (h : Spaced groups text) : ∃ kept gap, text = kept ++ gap ∧
    AllBlank gap ∧ Spaced groups kept ∧ (kept = [] ∨ IsSolidLast kept) := by
  induction h with
  | nil hg => exact ⟨[], _, rfl, hg, .nil (List.forall_mem_nil _), Or.inl rfl⟩
  | @cons gap group text groups hg _ ih =>
      obtain ⟨kept, after, rfl, hafter, hkept, hlast⟩ := ih
      refine ⟨gap ++ '[' :: (group ++ ']' :: kept), after, by simp, hafter, .cons hg hkept,
        Or.inr ?_⟩
      rcases hlast with rfl | hlast
      · exact ⟨gap ++ '[' :: group, ']', by simp, by decide⟩
      · have h := hlast.append (gap ++ '[' :: (group ++ [']']))
        simpa using h

/-- So can those at the beginning. -/
theorem Spaced.exists_gap (h : Spaced groups text) : ∃ gap rest, text = gap ++ rest ∧
    AllBlank gap ∧ Spaced groups rest ∧ Scan.Stops (· != '[') rest := by
  cases h with
  | nil hg => exact ⟨_, [], (List.append_nil _).symm, hg, .nil (List.forall_mem_nil _),
      Scan.stops_nil _⟩
  | @cons gap group text groups hg hrest =>
      exact ⟨gap, '[' :: (group ++ ']' :: text), rfl, hg,
        hrest.cons_tight group, Scan.stops_cons.2 (by decide)⟩

/-! ### Groups are found where they stand -/

/-- A character that the scanner for slashes passes over outside brackets. -/
def isOutside (c : Char) : Bool :=
  c != '[' && c != ']' && c != '/'

theorem isOutside_of_isBlank (h : isBlank c = true) : isOutside c = true := by
  have hne (d : Char) (hd : isBlank d = false) : c ≠ d := ne_of_passes h hd
  simp [isOutside, hne '[' (by decide), hne ']' (by decide), hne '/' (by decide)]

/-- Outside brackets, the scanner for slashes stops at nothing else. -/
theorem takeStep_outside (h : ∀ c ∈ s, isOutside c = true) (rest : List Char) :
    takeStep 0 none (s ++ rest) = before s (takeStep 0 none rest) := by
  induction s with
  | nil => simp
  | cons c s ih =>
      have hc := h c List.mem_cons_self
      simp only [isOutside, Bool.and_eq_true, bne_iff_ne] at hc
      rw [List.cons_append, takeStep]
      simp only [hc, Nat.lt_irrefl, and_false, false_and, if_false,
        ih fun d hd => h d (List.mem_cons_of_mem c hd)]
      exact before_before [c] s _

theorem takeStep_spaced (h : Spaced groups text) (hb : ∀ group ∈ groups, Balanced group)
    (rest : List Char) :
    takeStep 0 none (text ++ rest) = before text (takeStep 0 none rest) := by
  induction h with
  | nil hg => exact takeStep_outside (fun c hc => isOutside_of_isBlank (hg c hc)) rest
  | @cons gap group text groups hg _ ih =>
      have hgap : ∀ c ∈ gap, isOutside c = true := fun c hc => isOutside_of_isBlank (hg c hc)
      have hgroup := hb group List.mem_cons_self
      have ih := ih fun g hm => hb g (List.mem_cons_of_mem group hm)
      -- into the brackets, over what they enclose, and out again
      rw [List.append_assoc, takeStep_outside hgap, List.cons_append, List.append_assoc,
        List.cons_append, takeStep_open, takeStep_balanced hgroup, takeStep_close, ih,
        before_before, before_before, before_before, before_before]
      simp

theorem groups_of_nil {step : String} (h : trimStart text = []) :
    Segment.groups step text = .ok [] := by
  rw [Segment.groups]
  split
  · rfl
  · next heq => rw [h] at heq; cases heq
  · next hnil _ => exact absurd h hnil

theorem groups_of_takeGroup {step : String} {inside : List Char}
    (h : trimStart text = '[' :: inside) (hg : takeGroup 0 none inside = some (group, rest))
    {others : List String} (hr : Segment.groups step rest = .ok others) :
    Segment.groups step text = .ok (String.ofList group :: others) := by
  rw [Segment.groups]
  split
  · next heq => rw [h] at heq; cases heq
  · next heq =>
      obtain rfl := (List.cons.inj (h.symm.trans heq)).2
      split
      · next hnone => rw [hg] at hnone; cases hnone
      · next hsome =>
          obtain ⟨rfl, rfl⟩ := Prod.mk.inj (Option.some.inj (hg.symm.trans hsome))
          rw [hr]
          rfl
  · next hne => exact absurd h (hne inside)

/-- Groups are found, -/
theorem groups_spaced (step : String) (h : Spaced groups text)
    (hb : ∀ group ∈ groups, Balanced group) :
    Segment.groups step text = .ok (groups.map String.ofList) := by
  induction h with
  | nil hg => exact groups_of_nil (trimStart_eq_nil_iff.2 hg)
  | @cons gap group text groups hg _ ih =>
      have hgroup := hb group List.mem_cons_self
      have ih := ih fun g hm => hb g (List.mem_cons_of_mem group hm)
      have htake : takeGroup 0 none (group ++ ']' :: text) = some (group, text) := by
        rw [takeGroup_balanced hgroup, takeGroup]
        simp [isQuote]
      have htext : trimStart (gap ++ '[' :: (group ++ ']' :: text)) =
          '[' :: (group ++ ']' :: text) := by
        rw [trimStart_append hg]
        exact IsSolidFirst.trimStart_eq ⟨'[', _, rfl, by decide⟩
      exact groups_of_takeGroup htext htake ih

/-- and what is found stands there. -/
theorem spaced_of_groups {step : String} {found : List String}
    (h : Segment.groups step text = .ok found) :
    Spaced (found.map String.toList) text ∧ ∀ group ∈ found, Balanced group.toList := by
  fun_induction Segment.groups step text generalizing found with
  | case1 text htext =>
      cases h
      exact ⟨.nil (trimStart_eq_nil_iff.1 htext), List.forall_mem_nil _⟩
  | case2 | case4 => cases h
  | case3 text inside htext group rest hg _ _ ih =>
      obtain ⟨others, hothers, h⟩ := bind_eq_ok.1 h
      cases h
      obtain ⟨hrest, hbalanced⟩ := ih hothers
      obtain ⟨gap, hgap, htrim⟩ := exists_trimStart_eq text
      constructor
      · rw [htrim, htext, ← takeGroup_append hg, List.map_cons, String.toList_ofList]
        exact .cons hgap hrest
      · rw [List.forall_mem_cons, String.toList_ofList]
        exact ⟨balanced_of_takeGroup hg, hbalanced⟩

end Segment

/-! ### The texts of predicates -/

open Segment

theorem isPlain_of_isNameChar {c : Char} (h : Scan.isNameChar c = true) : isPlain c = true := by
  have hne (d : Char) (hd : Scan.isNameChar d = false) : c ≠ d := ne_of_passes h hd
  simp [isPlain, isQuote, hne '\x27' (by decide), hne '"' (by decide), hne '[' (by decide),
    hne ']' (by decide)]

theorem balanced_natural (n : Nat) : Balanced (Text.natural n) :=
  balanced_of_all (List.all_eq_true.2 fun _ hc =>
    isPlain_of_isNameChar (isNameChar_of_isDigit (Text.isDigit_of_mem_natural hc)))

/-- A text is shielded by quotes that it does not contain. -/
theorem balanced_quoted {s : String} (h : isQuotable s.toList = true) :
    Balanced (quoted s).toList := by
  unfold quoted
  split
  · -- with one kind of quotes in it, the text has none of the other
    next hs =>
      have hd : '"' ∉ s.toList := fun hd => by simp [isQuotable, hs, hd] at h
      have hquoted := Balanced.quoted (q := '"') rfl hd .nil
      simpa using hquoted
  · next hs =>
      have hquoted := Balanced.quoted (q := '\x27') rfl hs .nil
      simpa using hquoted

theorem Literal.balanced_display {value : Literal} (h : value.isSpellable = true) :
    Balanced value.display.toList := by
  cases value with
  | text s => exact balanced_quoted h
  | int n =>
      rw [display, intText, String.toList_ofList]
      cases n.toInt with
      | ofNat m => exact balanced_natural m
      | negSucc m => exact .plain (by decide) (balanced_natural (m + 1))

theorem isPlain_of_mem_attrRef {name : String} (h : (AttrRef.named name).isSpellable = true)
    {c : Char} (hc : c ∈ name.toList) : isPlain c = true := by
  refine isPlain_of_isNameChar (isNameChar_of_isNameRest ?_)
  cases hn : name.toList with
  | nil =>
      rw [hn] at hc
      cases hc
  | cons d chars =>
      simp only [AttrRef.isSpellable, hn, Bool.and_eq_true, List.all_eq_true] at h
      rw [hn] at hc
      rcases List.mem_cons.1 hc with rfl | hc
      · exact isNameRest_of_isNameStart h.1
      · exact h.2 c hc

theorem AttrRef.balanced_display {attr : AttrRef} (h : attr.isSpellable = true) :
    Balanced attr.display.toList := by
  cases attr with
  | text => exact balanced_of_all (by decide)
  | named name =>
      rw [display, String.toList_append]
      exact .plain (by decide)
        (balanced_of_all (List.all_eq_true.2 fun c hc => isPlain_of_mem_attrRef h hc))

/-- The text of a predicate that can be spelled is balanced. -/
theorem Predicate.balanced_display {p : Predicate} (h : p.isSpellable = true) :
    Balanced p.display.toList := by
  induction p with
  | comparison attr op value =>
      obtain ⟨ha, hv⟩ := Bool.and_eq_true_iff.1 h
      have hblank : Balanced " ".toList := balanced_of_all (by decide)
      have hop : Balanced op.sign.toList := balanced_of_all (by cases op <;> decide)
      simp only [display, String.toList_append]
      exact ((((AttrRef.balanced_display ha).append hblank).append hop).append hblank).append
        (Literal.balanced_display hv)
  | function func attr value =>
      obtain ⟨ha, hv⟩ := Bool.and_eq_true_iff.1 h
      have hname : Balanced func.name.toList := balanced_of_all (by cases func <;> decide)
      have hopen : Balanced "(".toList := balanced_of_all (by decide)
      have hcomma : Balanced ", ".toList := balanced_of_all (by decide)
      have hclose : Balanced ")".toList := balanced_of_all (by decide)
      simp only [display, String.toList_append]
      exact ((((hname.append hopen).append (AttrRef.balanced_display ha)).append hcomma).append
        (balanced_quoted hv)).append hclose
  | position n =>
      rw [display, String.toList_ofList]
      exact balanced_natural n.toNat
  | last => exact balanced_of_all (by decide)
  | and l r ihl ihr | or l r ihl ihr =>
      obtain ⟨hl, hr⟩ := Bool.and_eq_true_iff.1 h
      rw [display, String.toList_append, String.toList_append]
      exact ((ihl hl).append (balanced_of_all (by decide))).append (ihr hr)

end AccessQuery
