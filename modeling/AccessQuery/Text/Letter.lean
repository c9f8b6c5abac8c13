/-
**Letters and digits.**

Role names and attribute names are made of letters and digits of any script: a letter has the
Unicode property `Alphabetic`, and a digit belongs to one of the number categories, so that roman
numerals, fractions and superscripts count too.

Main definitions:

* `AccessQuery.Text.isAlphabetic`, `AccessQuery.Text.isNumeric`, `AccessQuery.Text.isAlphanumeric`.

Main results:

* `AccessQuery.Text.isNumeric_of_isDigit` — the ASCII digits are among them.
-/

import AccessQuery.Text.Ranges

set_option relaxedAutoImplicit false
set_option autoImplicit false

namespace AccessQuery.Text

/-- Whether a code point lies in one of the inclusive ranges. -/
def inRanges (ranges : List (Nat × Nat)) (n : Nat) : Bool :=
  ranges.any fun r => r.1 ≤ n && n ≤ r.2

/-- The characters with the Unicode property `Alphabetic`. -/
def isAlphabetic (c : Char) : Bool :=
  if c.toNat < 0x80 then c.isAlpha
  else if c.toNat < 0x1000 then inRanges alphabeticBelow1000 c.toNat
  else if c.toNat < 0x10000 then inRanges alphabeticBelow10000 c.toNat
  else inRanges alphabeticSupplementary c.toNat

/-- The characters of the general categories `Nd`, `Nl` and `No`. -/
def isNumeric (c : Char) : Bool :=
  if c.toNat < 0x80 then c.isDigit else inRanges numeric c.toNat

/-- Letters and digits of any script. -/
def isAlphanumeric (c : Char) : Bool :=
  isAlphabetic c || isNumeric c

theorem isNumeric_of_isDigit {c : Char} (h : c.isDigit = true) : isNumeric c = true := by
  have hc : c.toNat < 0x80 := by
    simp only [Char.isDigit, Bool.and_eq_true, decide_eq_true_eq, ge_iff_le,
      UInt32.le_iff_toNat_le] at h
    simp only [Char.toNat]
    exact Nat.lt_of_le_of_lt h.2 (by decide)
  simp [isNumeric, hc, h]

end AccessQuery.Text
