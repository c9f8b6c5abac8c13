/-
**Blank characters and trimming.**

Queries, predicates and state lists are trimmed before they are read, and a text that is blank
throughout stands for nothing at all.  What counts as blank is the Unicode property `White_Space`,
twenty-five characters in all; the class of `Char.isWhitespace` is smaller.

Main definitions:

* `AccessQuery.Text.isBlank` — the blank characters;
* `AccessQuery.Text.trim` — a text without the blanks at its two ends;
* `AccessQuery.Text.IsSolidFirst`, `AccessQuery.Text.IsSolidLast` — texts with no blank at one end.

Main results:

* `AccessQuery.Text.length_trimStart_le` — trimming never lengthens;
* `AccessQuery.Text.trim_eq_nil_iff` — only a blank text trims to nothing;
* `AccessQuery.Text.trim_eq_self`, `AccessQuery.Text.trim_trim` — what is trimmed already does not
  change.
-/

set_option relaxedAutoImplicit false
set_option autoImplicit false

namespace AccessQuery.Text

/-! ### The class -/

/-- The characters with the Unicode property `White_Space`. -/
def isBlank (c : Char) : Bool :=
  (0x09 ≤ c.toNat && c.toNat ≤ 0x0D) || c.toNat == 0x20 || c.toNat == 0x85 || c.toNat == 0xA0 ||
  c.toNat == 0x1680 || (0x2000 ≤ c.toNat && c.toNat ≤ 0x200A) || c.toNat == 0x2028 ||
  c.toNat == 0x2029 || c.toNat == 0x202F || c.toNat == 0x205F || c.toNat == 0x3000

/-! ### Trimming -/

/-- A text without its leading blanks. -/
def trimStart (s : List Char) : List Char :=
  s.dropWhile isBlank

/-- A text without its trailing blanks. -/
def trimEnd (s : List Char) : List Char :=
  (trimStart s.reverse).reverse

/-- A text without the blanks at its two ends. -/
def trim (s : List Char) : List Char :=
  trimEnd (trimStart s)

theorem length_trimStart_le (s : List Char) : (trimStart s).length ≤ s.length :=
  (List.dropWhile_sublist isBlank).length_le

@[simp] theorem trim_nil : trim [] = [] := rfl

theorem trimStart_eq_nil_iff {s : List Char} : trimStart s = [] ↔ ∀ c ∈ s, isBlank c = true := by
  induction s with
  | nil => simp [trimStart]
  | cons c s ih =>
      cases h : isBlank c with
      | true =>
          simp only [trimStart, List.dropWhile_cons, h, if_true, List.forall_mem_cons, true_and]
          exact ih
      | false => simp [trimStart, h]

theorem trimEnd_eq_nil_iff {s : List Char} : trimEnd s = [] ↔ ∀ c ∈ s, isBlank c = true := by
  rw [trimEnd, List.reverse_eq_nil_iff, trimStart_eq_nil_iff]
  simp only [List.mem_reverse]

theorem trim_eq_nil_iff {s : List Char} : trim s = [] ↔ ∀ c ∈ s, isBlank c = true := by
  rw [trim, trimEnd_eq_nil_iff, trimStart]
  refine ⟨fun h => ?_, fun h c hc => h c ((List.dropWhile_sublist isBlank).subset hc)⟩
  cases hs : s.dropWhile isBlank with
  | nil => exact trimStart_eq_nil_iff.1 hs
  | cons a r =>
      have ha := List.head_dropWhile_not isBlank (by simp [hs] : s.dropWhile isBlank ≠ [])
      simp [hs, h a (by simp [hs])] at ha

/-! ### Texts that are trimmed -/

/-- A text that begins with something other than a blank. -/
def IsSolidFirst (s : List Char) : Prop :=
  ∃ c rest, s = c :: rest ∧ isBlank c = false

/-- A text that ends with something other than a blank. -/
def IsSolidLast (s : List Char) : Prop :=
  ∃ rest c, s = rest ++ [c] ∧ isBlank c = false

theorem IsSolidFirst.append {s : List Char} (h : IsSolidFirst s) (t : List Char) :
    IsSolidFirst (s ++ t) := by
  obtain ⟨c, rest, rfl, hc⟩ := h
  exact ⟨c, rest ++ t, rfl, hc⟩

theorem IsSolidLast.append {t : List Char} (h : IsSolidLast t) (s : List Char) :
    IsSolidLast (s ++ t) := by
  obtain ⟨rest, c, rfl, hc⟩ := h
  exact ⟨s ++ rest, c, by rw [List.append_assoc], hc⟩

theorem IsSolidFirst.trimStart_eq {s : List Char} (h : IsSolidFirst s) : trimStart s = s := by
  obtain ⟨c, rest, rfl, hc⟩ := h
  rw [trimStart, List.dropWhile_cons, if_neg (by simp [hc])]

theorem IsSolidLast.trimEnd_eq {s : List Char} (h : IsSolidLast s) : trimEnd s = s := by
  obtain ⟨rest, c, rfl, hc⟩ := h
  rw [trimEnd, List.reverse_append, List.reverse_singleton, List.singleton_append,
    IsSolidFirst.trimStart_eq ⟨c, _, rfl, hc⟩, List.reverse_cons, List.reverse_reverse]

theorem trim_eq_self {s : List Char} (hf : IsSolidFirst s) (hl : IsSolidLast s) : trim s = s := by
  rw [trim, hf.trimStart_eq, hl.trimEnd_eq]

theorem isSolidFirst_trimStart {s : List Char} (h : trimStart s ≠ []) :
    IsSolidFirst (trimStart s) := by
  have hc := List.head_dropWhile_not isBlank h
  exact ⟨_, _, (List.cons_head_tail h).symm, hc⟩

theorem isSolidLast_trimEnd {s : List Char} (h : trimEnd s ≠ []) : IsSolidLast (trimEnd s) := by
  obtain ⟨c, rest, hs, hc⟩ := isSolidFirst_trimStart (s := s.reverse) (by simpa [trimEnd] using h)
  exact ⟨rest.reverse, c, by rw [trimEnd, hs, List.reverse_cons], hc⟩

theorem trimEnd_prefix (s : List Char) : trimEnd s <+: s := by
  have h : trimStart s.reverse <:+ s.reverse := List.dropWhile_suffix isBlank
  rwa [← List.reverse_prefix, List.reverse_reverse] at h

/-- What is left of a text has no blanks at its ends, if anything is left. -/
theorem isSolid_trim {s : List Char} (h : trim s ≠ []) :
    IsSolidFirst (trim s) ∧ IsSolidLast (trim s) := by
  refine ⟨?_, isSolidLast_trimEnd h⟩
  have hstart : trimStart s ≠ [] := by
    intro hnil
    rw [trim, hnil] at h
    exact h rfl
  obtain ⟨c, rest, hs, hc⟩ := isSolidFirst_trimStart hstart
  obtain ⟨d, front, hd⟩ := List.exists_cons_of_ne_nil h
  have hprefix : trim s <+: trimStart s := trimEnd_prefix _
  rw [hd, hs, List.cons_prefix_cons] at hprefix
  exact ⟨d, front, hd, hprefix.1 ▸ hc⟩

/-- Trimming a second time changes nothing. -/
@[simp] theorem trim_trim (s : List Char) : trim (trim s) = trim s := by
  by_cases h : trim s = []
  · rw [h, trim_nil]
  · exact trim_eq_self (isSolid_trim h).1 (isSolid_trim h).2

end AccessQuery.Text
