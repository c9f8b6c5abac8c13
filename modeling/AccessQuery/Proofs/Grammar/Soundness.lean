/-
**What is read has a derivation.**

A reader that yields something has gone along a derivation of it, up to the text that it leaves.
The readers of a test are followed one token after another.  A chain is followed item by item: what
has been joined so far is derived from the text up to here, and each further item extends it to the
right, which is how chains lean to the left.

Main results:

* `AccessQuery.Grammar.bind_eq_some`, `AccessQuery.Grammar.padded_eq_some`,
  `AccessQuery.Grammar.keyword_eq_some` — what is known where a composed reader yields something;
* `AccessQuery.Grammar.test_of_read` — tests that are read;
* `AccessQuery.Grammar.joined_of_chain` — chains that are read;
* `AccessQuery.Grammar.disjunction_of_predicate` — predicates that are read.
-/

import AccessQuery.Proofs.Grammar.Derivation
import AccessQuery.Proofs.Grammar.Tokens

set_option relaxedAutoImplicit false
set_option autoImplicit false

namespace AccessQuery.Grammar

open Scan

variable {α β : Type} {p q : Scan α} {f : α → Scan β} {text rest : List Char}

/-! ### Readers that yield something -/

theorem bind_eq_some {b : β} : (p >>= f) text = some (b, rest) ↔
    ∃ a middle, p text = some (a, middle) ∧ f a middle = some (b, rest) := by
  rw [bind_eq, Option.bind_eq_some_iff, Prod.exists]

theorem pure_eq_some {a b : α} : (pure a : Scan α) text = some (b, rest) ↔ a = b ∧ text = rest := by
  change some (a, text) = some (b, rest) ↔ _
  rw [Option.some.injEq, Prod.mk.injEq]

theorem of_orElse_eq_some {r : α × List Char} (h : (p <|> q) text = some r) :
    p text = some r ∨ q text = some r := by
  cases hp : p text with
  | none => exact Or.inr (by rwa [orElse_of_none hp] at h)
  | some s => exact Or.inl (by rwa [orElse_of_eq hp] at h)

theorem satisfy_eq_some {test : Char → Bool} {c : Char} (h : satisfy test text = some (c, rest)) :
    test c = true ∧ text = c :: rest := by
  unfold satisfy at h
  split at h
  · split at h
    · next hc =>
        obtain ⟨rfl, rfl⟩ := Prod.mk.inj (Option.some.inj h)
        exact ⟨hc, rfl⟩
    · cases h
  · cases h

theorem run_eq_some {test : Char → Bool} {s : List Char} (h : run test text = some (s, rest)) :
    (∀ c ∈ s, test c = true) ∧ text = s ++ rest := by
  obtain ⟨rfl, rfl⟩ := Prod.mk.inj (Option.some.inj h)
  exact ⟨List.all_eq_true.1 List.all_takeWhile, List.takeWhile_append_dropWhile.symm⟩

theorem char_eq_some {c : Char} {u : Unit} (h : char c text = some (u, rest)) :
    text = c :: rest := by
  obtain ⟨d, middle, hd, h⟩ := bind_eq_some.1 h
  obtain ⟨-, rfl⟩ := pure_eq_some.1 h
  obtain ⟨hc, rfl⟩ := satisfy_eq_some hd
  rw [beq_iff_eq.1 hc]

theorem word_eq_some {w : String} {u : Unit} (h : word w text = some (u, rest)) :
    text = w.toList ++ rest := by
  unfold word at h
  split at h
  · next hw =>
      obtain ⟨s, rfl⟩ := List.isPrefixOf_iff_prefix.1 hw
      obtain ⟨-, rfl⟩ := Prod.mk.inj (Option.some.inj h)
      rw [List.drop_left]
  · cases h

theorem notBefore_eq_some {test : Char → Bool} {u : Unit}
    (h : notBefore test text = some (u, rest)) : Stops test rest ∧ text = rest := by
  unfold notBefore at h
  split at h
  · next c tail =>
      split at h
      · cases h
      · next hc =>
          obtain ⟨-, rfl⟩ := Prod.mk.inj (Option.some.inj h)
          exact ⟨stops_cons.2 (by simpa using hc), rfl⟩
  · obtain ⟨-, rfl⟩ := Prod.mk.inj (Option.some.inj h)
    exact ⟨stops_nil test, rfl⟩

theorem gap_dropWhile (text : List Char) : Gap text (text.dropWhile isGap) := by
  induction text with
  | nil => exact .none
  | cons c text ih =>
      rw [List.dropWhile_cons]
      split
      · next hc => exact .blank hc ih
      · exact .none

theorem rest_of_blanks {u : Unit} (h : blanks text = some (u, rest)) :
    rest = text.dropWhile isGap := by
  rw [blanks_eq] at h
  exact (Prod.mk.inj (Option.some.inj h)).2.symm

/-- Between blanks, a reader has yielded the same, and no blank is left. -/
theorem padded_eq_some {a : α} (h : padded p text = some (a, rest)) :
    ∃ outside, p (text.dropWhile isGap) = some (a, outside) ∧
      Gap outside rest ∧ Stops isGap rest := by
  obtain ⟨_, inside, hinside, h⟩ := bind_eq_some.1 h
  obtain ⟨b, outside, hp, h⟩ := bind_eq_some.1 h
  obtain ⟨_, after, hafter, h⟩ := bind_eq_some.1 h
  obtain ⟨rfl, rfl⟩ := pure_eq_some.1 h
  obtain rfl := rest_of_blanks hinside
  obtain rfl := rest_of_blanks hafter
  exact ⟨outside, hp, gap_dropWhile outside, stops_dropWhile isGap outside⟩

theorem padded_char_eq_some {c : Char} {u : Unit} (h : padded (char c) text = some (u, rest)) :
    ∃ behind, Gap text (c :: behind) ∧ Gap behind rest := by
  obtain ⟨outside, hc, hgap, -⟩ := padded_eq_some h
  exact ⟨outside, char_eq_some hc ▸ gap_dropWhile text, hgap⟩

/-- Where a word that joins predicates has been read, it is there, and nothing of a name follows. -/
theorem keyword_eq_some {w : String} {u : Unit} (h : keyword w text = some (u, rest)) :
    ∃ behind, text.dropWhile isGap = w.toList ++ behind ∧ Stops isNameChar behind ∧
      rest = behind.dropWhile isGap := by
  obtain ⟨_, inside, hinside, h⟩ := bind_eq_some.1 h
  obtain ⟨_, outside, hp, h⟩ := bind_eq_some.1 h
  obtain ⟨_, after, hafter, h⟩ := bind_eq_some.1 h
  obtain ⟨-, rfl⟩ := pure_eq_some.1 h
  obtain rfl := rest_of_blanks hinside
  obtain rfl := rest_of_blanks hafter
  obtain ⟨_, behind, hword, hstop⟩ := bind_eq_some.1 hp
  obtain ⟨hstop, rfl⟩ := notBefore_eq_some hstop
  exact ⟨behind, word_eq_some hword, hstop, rfl⟩

/-! ### Numbers -/

theorem toInt64?_eq_some_iff {i : Int} {n : Int64} : Text.toInt64? i = some n ↔ n.toInt = i := by
  constructor
  · intro h
    unfold Text.toInt64? at h
    split at h
    · next hi =>
        obtain rfl := Option.some.inj h
        exact Int64.toInt_ofInt_of_le hi.1 (Int.lt_of_le_of_lt hi.2 (by decide))
    · cases h
  · rintro rfl
    exact Text.toInt64?_toInt n

theorem readNatural?_eq_some_iff {digits : List Char} {n : Nat} :
    Text.readNatural? digits = some n ↔ IsNumeral digits ∧ n = number digits := by
  rw [Text.readNatural?, number, IsNumeral]
  by_cases h : digits ≠ [] ∧ digits.all Char.isDigit = true
  · rw [if_pos h, Option.some.injEq, eq_comm, ← List.all_eq_true, and_iff_right h]
  · rw [if_neg h, ← List.all_eq_true]
    exact ⟨fun hn => absurd hn.symm (Option.some_ne_none n), fun hn => absurd hn.1 h⟩

theorem place_eq_some {n : UInt32} (h : place text = some (n, rest)) : Place text n rest := by
  obtain ⟨digits, behind, hrun, hread⟩ := bind_eq_some.1 h
  obtain ⟨-, htext⟩ := run_eq_some hrun
  cases hm : Text.readNatural? digits with
  | none => cases hm ▸ hread
  | some m =>
      obtain ⟨hdigits, rfl⟩ := readNatural?_eq_some_iff.1 hm
      rw [hm] at hread
      dsimp only at hread
      split at hread
      · next hn =>
          obtain ⟨rfl, rfl⟩ := pure_eq_some.1 hread
          have hvalue : (UInt32.ofNat (number digits)).toNat = number digits :=
            Nat.mod_eq_of_lt hn.2
          exact htext ▸ .digits hdigits (hvalue.symm ▸ hn.1) hvalue
      · cases hread

/-- What a sign and digits say together. -/
theorem integer_of_readInt64? {s digits : List Char} {n : Int64}
    (hs : s = ['+'] ∨ s = ['-'] ∨ s = []) (hd : ∀ c ∈ digits, c.isDigit = true)
    (h : Text.readInt64? (s ++ digits) = some n) (rest : List Char) :
    Integer (s ++ (digits ++ rest)) n rest := by
  obtain ⟨i, hi, hn⟩ := Option.bind_eq_some_iff.1 h
  rw [toInt64?_eq_some_iff] at hn
  rcases hs with rfl | rfl | rfl
  · obtain ⟨m, hm, rfl⟩ := Option.map_eq_some_iff.1 hi
    obtain ⟨hdigits, rfl⟩ := readNatural?_eq_some_iff.1 hm
    exact .plus hdigits hn
  · obtain ⟨m, hm, rfl⟩ := Option.map_eq_some_iff.1 hi
    obtain ⟨hdigits, rfl⟩ := readNatural?_eq_some_iff.1 hm
    exact .minus hdigits hn
  · rw [List.nil_append, Text.readInteger?_of_isDigit hd] at hi
    obtain ⟨m, hm, rfl⟩ := Option.map_eq_some_iff.1 hi
    obtain ⟨hdigits, rfl⟩ := readNatural?_eq_some_iff.1 hm
    exact .unsigned hdigits hn

theorem sign_eq_some {s : List Char} (h : sign text = some (s, rest)) :
    (s = ['+'] ∨ s = ['-'] ∨ s = []) ∧ text = s ++ rest := by
  unfold sign at h
  split at h <;> obtain ⟨rfl, rfl⟩ := Prod.mk.inj (Option.some.inj h)
  · exact ⟨Or.inl rfl, rfl⟩
  · exact ⟨Or.inr (Or.inl rfl), rfl⟩
  · exact ⟨Or.inr (Or.inr rfl), rfl⟩

theorem integer_eq_some {n : Int64} (h : integer text = some (n, rest)) :
    Integer text n rest := by
  obtain ⟨s, unsigned, hsign, h₁⟩ := bind_eq_some.1 h
  obtain ⟨digits, behind, hrun, h₂⟩ := bind_eq_some.1 h₁
  obtain ⟨hs, htext⟩ := sign_eq_some hsign
  obtain ⟨hd, hunsigned⟩ := run_eq_some hrun
  cases hm : Text.readInt64? (s ++ digits) with
  | none => cases hm ▸ h₂
  | some m =>
      rw [hm] at h₂
      obtain ⟨rfl, rfl⟩ := pure_eq_some.1 h₂
      rw [htext, hunsigned]
      exact integer_of_readInt64? hs hd hm behind

/-! ### The parts of a test -/

theorem call_eq_some {name : String} {u : Unit} (h : emptyCall name text = some (u, rest)) :
    Call name text rest := by
  obtain ⟨_, behind, hname, h₁⟩ := bind_eq_some.1 h
  obtain ⟨_, inside, hopen, h₂⟩ := bind_eq_some.1 h₁
  obtain ⟨t, hopen, hgap⟩ := padded_char_eq_some hopen
  rw [char_eq_some h₂] at hgap
  exact word_eq_some hname ▸ .call hopen hgap

theorem attr_eq_some {attr : AttrRef} (h : attrRef text = some (attr, rest)) :
    Attr text attr rest := by
  rcases of_orElse_eq_some h with h | h
  · obtain ⟨_, t₁, hat, h₁⟩ := bind_eq_some.1 h
    obtain ⟨name, t₂, hname, h₂⟩ := bind_eq_some.1 h₁
    obtain ⟨c, t₃, hfirst, h₃⟩ := bind_eq_some.1 hname
    obtain ⟨chars, t₄, hrun, h₄⟩ := bind_eq_some.1 h₃
    obtain ⟨rfl, rfl⟩ := pure_eq_some.1 h₄
    obtain ⟨rfl, rfl⟩ := pure_eq_some.1 h₂
    obtain ⟨hc, ht₁⟩ := satisfy_eq_some hfirst
    obtain ⟨hchars, ht₃⟩ := run_eq_some hrun
    rw [char_eq_some hat, ht₁, ht₃]
    exact .named hc hchars
  · obtain ⟨_, t₁, hcall, h₁⟩ := bind_eq_some.1 h
    obtain ⟨rfl, rfl⟩ := pure_eq_some.1 h₁
    exact .text (call_eq_some hcall)

theorem quotation_of_between {q : Char} (hq : Segment.isQuote q = true) {s : String}
    (h : between q text = some (s, rest)) : Quotation text s rest := by
  obtain ⟨_, t₁, hopen, h₁⟩ := bind_eq_some.1 h
  obtain ⟨chars, t₂, hrun, h₂⟩ := bind_eq_some.1 h₁
  obtain ⟨_, t₃, hclose, h₃⟩ := bind_eq_some.1 h₂
  obtain ⟨rfl, rfl⟩ := pure_eq_some.1 h₃
  obtain ⟨hchars, ht₁⟩ := run_eq_some hrun
  rw [char_eq_some hopen, ht₁, char_eq_some hclose]
  exact .quotation hq fun hm => by simpa using hchars q hm

theorem quotation_eq_some {s : String} (h : string text = some (s, rest)) :
    Quotation text s rest :=
  (of_orElse_eq_some h).elim (quotation_of_between rfl) (quotation_of_between rfl)

theorem value_eq_some {value : Literal} (h : literal text = some (value, rest)) :
    Value text value rest := by
  rcases of_orElse_eq_some h with h | h
  · obtain ⟨s, t₁, hs, h₁⟩ := bind_eq_some.1 h
    obtain ⟨rfl, rfl⟩ := pure_eq_some.1 h₁
    exact .text (quotation_eq_some hs)
  · obtain ⟨n, t₁, hn, h₁⟩ := bind_eq_some.1 h
    obtain ⟨_, t₂, hend, h₂⟩ := bind_eq_some.1 h₁
    obtain ⟨rfl, rfl⟩ := pure_eq_some.1 h₂
    obtain ⟨hstop, rfl⟩ := notBefore_eq_some hend
    exact .int (integer_eq_some hn) hstop

/-- A word that stands for something. -/
theorem word_return_eq_some {a b : α} {w : String}
    (h : (do word w; return a : Scan α) text = some (b, rest)) :
    a = b ∧ text = w.toList ++ rest := by
  obtain ⟨_, t₁, hw, h₁⟩ := bind_eq_some.1 h
  obtain ⟨rfl, rfl⟩ := pure_eq_some.1 h₁
  exact ⟨rfl, word_eq_some hw⟩

theorem compareOp_eq_some {op : CompareOp} (h : compareOp text = some (op, rest)) :
    text = op.sign.toList ++ rest := by
  have hword (op' : CompareOp)
      (h : (do word op'.sign; return op' : Scan CompareOp) text = some (op, rest)) :
      text = op.sign.toList ++ rest := by
    obtain ⟨rfl, htext⟩ := word_return_eq_some h
    exact htext
  refine (of_orElse_eq_some h).elim (hword .notEq) fun h => ?_
  refine (of_orElse_eq_some h).elim (hword .lessOrEqual) fun h => ?_
  refine (of_orElse_eq_some h).elim (hword .greaterOrEqual) fun h => ?_
  refine (of_orElse_eq_some h).elim (hword .eq) fun h => ?_
  exact (of_orElse_eq_some h).elim (hword .less) (hword .greater)

theorem functionName_eq_some {func : TextFunction} (h : functionName text = some (func, rest)) :
    text = func.name.toList ++ rest := by
  have hword (func' : TextFunction)
      (h : (do word func'.name; return func' : Scan TextFunction) text = some (func, rest)) :
      text = func.name.toList ++ rest := by
    obtain ⟨rfl, htext⟩ := word_return_eq_some h
    exact htext
  refine (of_orElse_eq_some h).elim (hword .startsWith) fun h => ?_
  exact (of_orElse_eq_some h).elim (hword .endsWith) (hword .contains)

/-! ### Tests -/

theorem test_of_positionCall {t : Predicate} (h : positionCall text = some (t, rest)) :
    Test text t rest := by
  obtain ⟨_, t₁, hcall, h₁⟩ := bind_eq_some.1 h
  obtain ⟨_, t₂, hsign, h₂⟩ := bind_eq_some.1 h₁
  obtain ⟨n, t₃, hn, h₃⟩ := bind_eq_some.1 h₂
  obtain ⟨rfl, rfl⟩ := pure_eq_some.1 h₃
  obtain ⟨behind, hsign, hgap⟩ := padded_char_eq_some hsign
  exact .position (call_eq_some hcall) hsign hgap (place_eq_some hn)

theorem test_of_functionCall {t : Predicate} (h : functionCall text = some (t, rest)) :
    Test text t rest := by
  obtain ⟨func, t₁, hfunc, h₁⟩ := bind_eq_some.1 h
  obtain ⟨_, t₂, hopen, h₂⟩ := bind_eq_some.1 h₁
  obtain ⟨attr, t₃, hattr, h₃⟩ := bind_eq_some.1 h₂
  obtain ⟨_, t₄, hcomma, h₄⟩ := bind_eq_some.1 h₃
  obtain ⟨value, t₅, hvalue, h₅⟩ := bind_eq_some.1 h₄
  obtain ⟨_, t₆, hclose, h₆⟩ := bind_eq_some.1 h₅
  obtain ⟨rfl, rfl⟩ := pure_eq_some.1 h₆
  obtain ⟨inside, hopen, hgap⟩ := padded_char_eq_some hopen
  obtain ⟨behindAttr, hattr, hgapAttr, -⟩ := padded_eq_some hattr
  obtain ⟨behindValue, hvalue, hgapValue, -⟩ := padded_eq_some hvalue
  rw [char_eq_some hcomma] at hgapAttr
  rw [char_eq_some hclose] at hgapValue
  rw [functionName_eq_some hfunc]
  exact .function hopen (hgap.trans (gap_dropWhile t₂)) (attr_eq_some hattr) hgapAttr
    (gap_dropWhile t₄) (value_eq_some hvalue) hgapValue

/-- The reader of a function in the place of a value takes the blanks behind it, too. -/
theorem function_of_functionValue {func : TextFunction} {s : String}
    (h : functionValue text = some ((func, s), rest)) :
    ∃ t₁ t₂ t₃ t₄ outside : List Char, text = func.name.toList ++ t₁ ∧ Gap t₁ ('(' :: t₂) ∧
      Gap t₂ t₃ ∧ Quotation t₃ s t₄ ∧ Gap t₄ (')' :: outside) ∧ Gap outside rest := by
  obtain ⟨func', t₁, hname, h₁⟩ := bind_eq_some.1 h
  obtain ⟨_, t₂, hopen, h₂⟩ := bind_eq_some.1 h₁
  obtain ⟨s', t₃, hs, h₃⟩ := bind_eq_some.1 h₂
  obtain ⟨_, t₄, hclose, h₄⟩ := bind_eq_some.1 h₃
  obtain ⟨hpair, rfl⟩ := pure_eq_some.1 h₄
  obtain ⟨rfl, rfl⟩ := Prod.mk.inj hpair
  obtain ⟨inside, hopen, hgap⟩ := padded_char_eq_some hopen
  obtain ⟨outside, hclose, hend⟩ := padded_char_eq_some hclose
  exact ⟨t₁, inside, t₂, t₃, outside, functionName_eq_some hname, hopen, hgap,
    quotation_eq_some hs, hclose, hend⟩

theorem test_of_comparison {t : Predicate} (h : comparison text = some (t, rest)) :
    ∃ outside, Test text t outside ∧ Gap outside rest := by
  obtain ⟨attr, t₁, hattr, h₁⟩ := bind_eq_some.1 h
  obtain ⟨_, t₂, hblanks, h₂⟩ := bind_eq_some.1 h₁
  obtain ⟨op, t₃, hop, h₃⟩ := bind_eq_some.1 h₂
  obtain ⟨behindOp, hop, hgapOp, -⟩ := padded_eq_some hop
  obtain rfl := rest_of_blanks hblanks
  have hsign := (gap_dropWhile t₁).trans (gap_dropWhile (t₁.dropWhile isGap))
  rw [compareOp_eq_some hop] at hsign
  rcases of_orElse_eq_some h₃ with h₄ | h₄
  · obtain ⟨⟨func, s⟩, t₄, hfunc, h₅⟩ := bind_eq_some.1 h₄
    dsimp only at h₅
    split at h₅
    · next heq =>
        subst heq
        obtain ⟨rfl, rfl⟩ := pure_eq_some.1 h₅
        obtain ⟨u₁, u₂, u₃, u₄, outside, rfl, hopen, hgap, hs, hclose, hend⟩ :=
          function_of_functionValue hfunc
        exact ⟨outside, .functionValue (attr_eq_some hattr) hsign hgapOp hopen hgap hs hclose, hend⟩
    · cases h₅
  · obtain ⟨value, t₄, hvalue, h₅⟩ := bind_eq_some.1 h₄
    obtain ⟨rfl, rfl⟩ := pure_eq_some.1 h₅
    exact ⟨_, .comparison (attr_eq_some hattr) hsign hgapOp (value_eq_some hvalue), .none⟩

/-- A test that has been read, with the blanks around it. -/
theorem test_of_read {t : Predicate} (h : term text = some (t, rest)) :
    Padded Test text t rest ∧ Stops isGap rest := by
  obtain ⟨outside, htest, hend, hstop⟩ := padded_eq_some h
  refine ⟨?_, hstop⟩
  -- each of the readers, in the order in which they are tried
  rcases of_orElse_eq_some htest with htest | htest
  · obtain ⟨_, t₁, hcall, h₁⟩ := bind_eq_some.1 htest
    obtain ⟨rfl, rfl⟩ := pure_eq_some.1 h₁
    exact .padded (gap_dropWhile text) (.last (call_eq_some hcall)) hend
  rcases of_orElse_eq_some htest with htest | htest
  · exact .padded (gap_dropWhile text) (test_of_positionCall htest) hend
  rcases of_orElse_eq_some htest with htest | htest
  · exact .padded (gap_dropWhile text) (test_of_functionCall htest) hend
  rcases of_orElse_eq_some htest with htest | htest
  · obtain ⟨behind, htest, hgap⟩ := test_of_comparison htest
    exact .padded (gap_dropWhile text) htest (hgap.trans hend)
  · obtain ⟨n, t₁, hn, h₁⟩ := bind_eq_some.1 htest
    obtain ⟨rfl, rfl⟩ := pure_eq_some.1 h₁
    exact .padded (gap_dropWhile text) (.place (place_eq_some hn)) hend

/-! ### Chains -/

section Chains

variable {operand : Scan Predicate} {Item : Reading Predicate} {w : String}
variable {join : Predicate → Predicate → Predicate}

/-- Blanks before an item make no difference to its reader. -/
def SkipsGap (operand : Scan Predicate) : Prop :=
  ∀ text, operand (text.dropWhile isGap) = operand text

theorem skipsGap_term : SkipsGap term :=
  padded_dropWhile _

theorem SkipsGap.chain (h : SkipsGap operand) (w : String)
    (join : Predicate → Predicate → Predicate) : SkipsGap (chain operand w join) := by
  intro text
  rw [Scan.chain, bind_eq, bind_eq, h text]

/-- The items that are read after others extend the chain of those. -/
theorem joined_of_manyFrom (hskip : SkipsGap operand)
    (hitem : ∀ {text rest : List Char} {p : Predicate}, operand text = some (p, rest) →
      Item text p rest ∧ Stops isGap rest) (start text : List Char) :
    ∀ p, Joined Item w join start p text → Stops isGap text →
      Joined Item w join start ((manyFrom (do keyword w; operand) text).1.foldl join p)
          (manyFrom (do keyword w; operand) text).2 ∧
        Stops isGap (manyFrom (do keyword w; operand) text).2 := by
  fun_induction manyFrom (do keyword w; operand) text with
  | case1 => exact fun p h hstop => ⟨h, hstop⟩
  | case2 text r rest hread _ others ih =>
      intro p h hstop
      obtain ⟨_, middle, hkeyword, hread⟩ := bind_eq_some.1 hread
      obtain ⟨behind, htext, hend, rfl⟩ := keyword_eq_some hkeyword
      rw [hskip] at hread
      obtain ⟨hr, hrest⟩ := hitem hread
      rw [hstop.dropWhile_eq] at htext
      rw [htext] at h
      exact ih (join p r) (.more h hend hr) hrest
  | case3 => exact fun p h hstop => ⟨h, hstop⟩

/-- A chain that has been read. -/
theorem joined_of_chain (hskip : SkipsGap operand)
    (hitem : ∀ {text rest : List Char} {p : Predicate}, operand text = some (p, rest) →
      Item text p rest ∧ Stops isGap rest)
    {text rest : List Char} {p : Predicate} (h : chain operand w join text = some (p, rest)) :
    Joined Item w join text p rest ∧ Stops isGap rest := by
  obtain ⟨first, t₁, hfirst, h₁⟩ := bind_eq_some.1 h
  obtain ⟨others, t₂, hothers, h₂⟩ := bind_eq_some.1 h₁
  obtain ⟨rfl, rfl⟩ := pure_eq_some.1 h₂
  obtain ⟨rfl, rfl⟩ := Prod.mk.inj (Option.some.inj hothers)
  obtain ⟨hone, hstop⟩ := hitem hfirst
  exact joined_of_manyFrom hskip hitem text t₁ first (.one hone) hstop

end Chains

theorem conjunction_eq_some {p : Predicate} (h : conjunction text = some (p, rest)) :
    Conjunction text p rest ∧ Stops isGap rest :=
  joined_of_chain skipsGap_term test_of_read h

/-- What is read as a predicate has a derivation. -/
theorem disjunction_of_predicate {p : Predicate} (h : predicate text = some (p, rest)) :
    Disjunction text p rest :=
  (joined_of_chain (skipsGap_term.chain "and" .and) conjunction_eq_some h).1

end AccessQuery.Grammar
