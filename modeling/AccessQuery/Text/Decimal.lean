/-
**Decimal integers.**

Attribute values and integer literals are signed 64-bit integers written in decimal.  They are
written without a plus sign or leading zeros; they are read with an optional sign of either kind
and any number of leading zeros, and a value that does not fit is no integer at all.

Main definitions:

* `AccessQuery.Text.natural`, `AccessQuery.Text.integer` — writing;
* `AccessQuery.Text.readNatural?`, `AccessQuery.Text.readInteger?`, `AccessQuery.Text.readInt64?` —
  reading the whole of a text.

Main results:

* `AccessQuery.Text.readNatural?_natural`, `AccessQuery.Text.readInteger?_integer`,
  `AccessQuery.Text.readInt64?_integer` — what is written is read back.
-/

set_option relaxedAutoImplicit false
set_option autoImplicit false

namespace AccessQuery.Text

/-! ### Writing -/

/-- The decimal text of a natural number. -/
def natural (n : Nat) : List Char :=
  Nat.toDigits 10 n

/-- The decimal text of an integer. -/
def integer : Int → List Char
  | .ofNat n => natural n
  | .negSucc n => '-' :: natural (n + 1)

theorem natural_ne_nil (n : Nat) : natural n ≠ [] :=
  Nat.toDigits_ne_nil

theorem isDigit_of_mem_natural {n : Nat} {c : Char} (h : c ∈ natural n) : c.isDigit = true :=
  Nat.isDigit_of_mem_toDigits (by decide) (by decide) h

/-! ### Reading -/

/-- The number a text of one or more ASCII digits stands for. -/
def readNatural? (s : List Char) : Option Nat :=
  if s ≠ [] ∧ s.all Char.isDigit then some (Nat.ofDigitChars 10 s 0) else none

/-- The integer that a sign, if any, and one or more ASCII digits stand for. -/
def readInteger? : List Char → Option Int
  | '+' :: s => (readNatural? s).map Int.ofNat
  | '-' :: s => (readNatural? s).map fun n => -Int.ofNat n
  | s => (readNatural? s).map Int.ofNat

/-- An integer as a signed 64-bit word, if it fits. -/
def toInt64? (i : Int) : Option Int64 :=
  if Int64.minValue.toInt ≤ i ∧ i ≤ Int64.maxValue.toInt then some (Int64.ofInt i) else none

/-- The signed 64-bit integer a text stands for. -/
def readInt64? (s : List Char) : Option Int64 :=
  (readInteger? s).bind toInt64?

/-! ### What is written is read back -/

@[simp] theorem readNatural?_natural (n : Nat) : readNatural? (natural n) = some n := by
  have h : (natural n).all Char.isDigit = true :=
    List.all_eq_true.2 fun _ hc => isDigit_of_mem_natural hc
  rw [readNatural?, if_pos ⟨natural_ne_nil n, h⟩, natural, Nat.ofDigitChars_ten_toDigits]

theorem readInteger?_of_isDigit {s : List Char} (h : ∀ c ∈ s, c.isDigit = true) :
    readInteger? s = (readNatural? s).map Int.ofNat := by
  cases s with
  | nil => rfl
  | cons c s =>
      have hc := h c (by simp)
      unfold readInteger?
      split
      · next heq => cases heq; exact absurd hc (by decide)
      · next heq => cases heq; exact absurd hc (by decide)
      · rfl

@[simp] theorem readInteger?_integer (i : Int) : readInteger? (integer i) = some i := by
  cases i with
  | ofNat n =>
      rw [integer, readInteger?_of_isDigit fun _ hc => isDigit_of_mem_natural hc]
      simp
  | negSucc n => simp [integer, readInteger?, Int.negSucc_eq]

theorem toInt64?_toInt (n : Int64) : toInt64? n.toInt = some n := by
  rw [toInt64?, if_pos ⟨Int64.minValue_le_toInt n, Int64.toInt_le n⟩, Int64.ofInt_toInt]

@[simp] theorem readInt64?_integer (n : Int64) : readInt64? (integer n.toInt) = some n := by
  simp [readInt64?, toInt64?_toInt]

end AccessQuery.Text
