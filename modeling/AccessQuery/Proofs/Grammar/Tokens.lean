/-
**Tests are read back.**

The text of a test that can be spelled, followed by a blank or by nothing, is read as that test.
The parts of a test are followed by other characters, but never by one that they could run into.

Main definitions:

* `AccessQuery.Scan.Ends` — a text that a test does not run into.

Main results:

* `AccessQuery.Scan.attrRef_display`, `AccessQuery.Scan.string_quoted`,
  `AccessQuery.Scan.literal_display` — the parts of a test are read back;
* `AccessQuery.Scan.term_display` — and so is the test;
* `AccessQuery.Predicate.isSolidFirst_display`, `AccessQuery.Predicate.isSolidLast_display` — the
  text of a predicate has no blanks at its ends.
-/

import AccessQuery.Proofs.Grammar.Spelling

set_option relaxedAutoImplicit false
set_option autoImplicit false

namespace AccessQuery

/-! ### Characters -/

theorem ne_of_passes {test : Char → Bool} {c d : Char} (hc : test c = true)
    (hd : test d = false) : c ≠ d := by
  rintro rfl
  rw [hc] at hd
  cases hd

theorem notMem_of_passes {test : Char → Bool} {c : Char} {cs : List Char} (hc : test c = true)
    (h : cs.any test = false) : c ∉ cs := by
  intro hm
  rw [List.any_eq_true.2 ⟨c, hm, hc⟩] at h
  cases h

theorem isNameChar_of_isDigit {c : Char} (h : c.isDigit = true) : Scan.isNameChar c = true := by
  simp [Scan.isNameChar, Text.isAlphanumeric, Text.isNumeric_of_isDigit h]

theorem isNameRest_of_isNameStart {c : Char} (h : isNameStart c = true) : isNameRest c = true := by
  simp only [isNameStart, Bool.or_eq_true] at h
  simp only [isNameRest, Text.isAlphanumeric, Bool.or_eq_true]
  exact h.imp_left Or.inl

theorem isNameChar_of_isNameRest {c : Char} (h : isNameRest c = true) :
    Scan.isNameChar c = true := by
  rw [isNameRest] at h
  rw [Scan.isNameChar, h, Bool.true_or]

theorem isBlank_of_isDigit {c : Char} (h : c.isDigit = true) : Text.isBlank c = false := by
  simp only [Char.isDigit, Bool.and_eq_true, decide_eq_true_eq, ge_iff_le,
    UInt32.le_iff_toNat_le] at h
  have hle : 48 ≤ c.toNat ∧ c.toNat ≤ 57 := h
  simp [Text.isBlank]
  omega

theorem isBlank_of_isGap {c : Char} (h : Scan.isGap c = true) : Text.isBlank c = true := by
  simp only [Scan.isGap, Bool.or_eq_true, beq_iff_eq] at h
  rcases h with ((rfl | rfl) | rfl) | rfl <;> decide

/-- Nothing is passed over before a text that does not begin with a blank. -/
theorem Text.IsSolidFirst.stops {s : List Char} (h : Text.IsSolidFirst s) :
    Scan.Stops Scan.isGap s := by
  obtain ⟨c, rest, rfl, hc⟩ := h
  have hblank : Scan.Stops Text.isBlank (c :: rest) := Scan.stops_cons.2 hc
  exact hblank.mono fun d hd => isBlank_of_isGap hd

theorem Scan.padded_blank {α : Type} (p : Scan α) (text : List Char) :
    Scan.padded p (' ' :: text) = Scan.padded p text :=
  rfl

/-- Something between texts that are not blank. -/
theorem Scan.padded_append {α : Type} {p : Scan α} {a : α} {s rest : List Char}
    (hs : Text.IsSolidFirst s) (h : p (s ++ rest) = some (a, rest))
    (hrest : Scan.Stops Scan.isGap rest) : Scan.padded p (s ++ rest) = some (a, rest) := by
  have hread := (congrArg p (hs.append rest).stops.dropWhile_eq).trans h
  rw [Scan.padded_of_eq hread, hrest.dropWhile_eq]

/-- A number begins with a digit. -/
theorem exists_digit_natural (n : Nat) :
    ∃ c rest, Text.natural n = c :: rest ∧ c.isDigit = true := by
  obtain ⟨c, rest, h⟩ := List.exists_cons_of_ne_nil (Text.natural_ne_nil n)
  exact ⟨c, rest, h, Text.isDigit_of_mem_natural (h ▸ List.mem_cons_self)⟩

namespace Scan

variable {rest : List Char}

/-! ### The parts of a test -/

theorem between_append {q : Char} {s : List Char} (h : q ∉ s) (rest : List Char) :
    between q (q :: (s ++ q :: rest)) = some (String.ofList s, rest) := by
  have hs : ∀ c ∈ s, (c != q) = true := fun c hc => by
    simpa using fun he : c = q => h (he ▸ hc)
  rw [between, bind_of_eq (char_cons q _), bind_of_eq (run_append hs (by simp)),
    bind_of_eq (char_cons q rest)]
  rfl

/-- A text between quotes of either kind. -/
theorem string_append {q : Char} {s : List Char} (hq : q = '\x27' ∨ q = '"') (h : q ∉ s)
    (rest : List Char) : string (q :: (s ++ q :: rest)) = some (String.ofList s, rest) := by
  rcases hq with rfl | rfl
  · exact orElse_of_eq (between_append h rest)
  · have hfirst : between '\x27' ('"' :: (s ++ '"' :: rest)) = none :=
      bind_of_none (char_cons_of_ne (by decide))
    rw [string, orElse_of_none hfirst, between_append h]

theorem string_quoted {s : String} (h : isQuotable s.toList = true) (rest : List Char) :
    string ((quoted s).toList ++ rest) = some (s, rest) := by
  unfold quoted
  split
  · next hs =>
      have hd : '"' ∉ s.toList := fun hd => by simp [isQuotable, hs, hd] at h
      have htext : ("\"" ++ s ++ "\"").toList ++ rest = '"' :: (s.toList ++ '"' :: rest) := by simp
      rw [htext, string_append (Or.inr rfl) hd, String.ofList_toList]
  · next hs =>
      have htext : ("'" ++ s ++ "'").toList ++ rest = '\x27' :: (s.toList ++ '\x27' :: rest) := by
        simp
      rw [htext, string_append (Or.inl rfl) hs, String.ofList_toList]

/-- A digit is no sign. -/
theorem sign_cons_of_isDigit {c : Char} (h : c.isDigit = true) (rest : List Char) :
    sign (c :: rest) = some ([], c :: rest) := by
  rw [sign.eq_def]
  split
  · next heq => exact absurd (List.cons.inj heq).1 (ne_of_passes h (by decide))
  · next heq => exact absurd (List.cons.inj heq).1 (ne_of_passes h (by decide))
  · rfl

/-- A number has no sign. -/
theorem sign_natural (n : Nat) (rest : List Char) :
    sign (Text.natural n ++ rest) = some ([], Text.natural n ++ rest) := by
  obtain ⟨c, digits, hc, hd⟩ := exists_digit_natural n
  rw [hc, List.cons_append, sign_cons_of_isDigit hd]

/-- The text of an integer is read back where no digit follows. -/
theorem integer_intText {n : Int64} (h : Stops Char.isDigit rest) :
    integer ((intText n).toList ++ rest) = some (n, rest) := by
  have hread := Text.readInt64?_integer n
  rw [intText, String.toList_ofList]
  cases hn : n.toInt with
  | ofNat m =>
      rw [hn, Text.integer] at hread
      rw [Text.integer, integer, bind_of_eq (sign_natural m rest),
        bind_of_eq (run_append (fun c hc => Text.isDigit_of_mem_natural hc) h), List.nil_append,
        hread]
      rfl
  | negSucc m =>
      rw [hn, Text.integer] at hread
      have hsign : sign ('-' :: (Text.natural (m + 1) ++ rest)) =
          some (['-'], Text.natural (m + 1) ++ rest) := rfl
      rw [Text.integer, List.cons_append, integer, bind_of_eq hsign,
        bind_of_eq (run_append (fun c hc => Text.isDigit_of_mem_natural hc) h),
        List.singleton_append, hread]
      rfl

/-- A place is read back where no digit follows. -/
theorem place_natural {n : UInt32} (hn : 1 ≤ n.toNat) (h : Stops Char.isDigit rest) :
    place (Text.natural n.toNat ++ rest) = some (n, rest) := by
  rw [place, bind_of_eq (run_append (fun c hc => Text.isDigit_of_mem_natural hc) h),
    Text.readNatural?_natural]
  dsimp only
  rw [if_pos ⟨hn, n.toNat_lt_size⟩, UInt32.ofNat_toNat]
  rfl

theorem string_cons_of_ne {c : Char} (hs : c ≠ '\x27') (hd : c ≠ '"') (rest : List Char) :
    string (c :: rest) = none := by
  have h {q : Char} (hq : c ≠ q) : between q (c :: rest) = none := bind_of_none (char_cons_of_ne hq)
  rw [string, orElse_of_none (h hs), h hd]

/-- The text of an integer begins with a digit or with a minus sign. -/
theorem exists_cons_intText (n : Int64) : ∃ c digits,
    (intText n).toList = c :: digits ∧ (c.isDigit = true ∨ c = '-') := by
  rw [intText, String.toList_ofList]
  cases n.toInt with
  | ofNat m =>
      obtain ⟨c, digits, h, hd⟩ := exists_digit_natural m
      exact ⟨c, digits, h, Or.inl hd⟩
  | negSucc m => exact ⟨'-', _, rfl, Or.inr rfl⟩

/-- A literal is read back where it does not run into a word. -/
theorem literal_display {value : Literal} (hv : value.isSpellable = true)
    (h : Stops isNameChar rest) : literal (value.display.toList ++ rest) = some (value, rest) := by
  cases value with
  | text s =>
      refine orElse_of_eq ?_
      rw [Literal.display, bind_of_eq (string_quoted hv rest)]
      rfl
  | int n =>
      have hstring : string ((intText n).toList ++ rest) = none := by
        obtain ⟨c, digits, hc, hd⟩ := exists_cons_intText n
        rw [hc, List.cons_append]
        rcases hd with hd | rfl
        · exact string_cons_of_ne (ne_of_passes hd (by decide)) (ne_of_passes hd (by decide)) _
        · exact string_cons_of_ne (by decide) (by decide) _
      have hdigit := h.mono fun c hc => isNameChar_of_isDigit hc
      rw [Literal.display, literal, orElse_of_none (bind_of_none hstring),
        bind_of_eq (integer_intText hdigit), bind_of_eq (notBefore_of_stops h)]
      rfl

theorem attributeName_eq : attributeName = (do
    let first ← satisfy isNameStart
    let chars ← run isNameRest
    return String.ofList (first :: chars)) :=
  rfl

/-- An attribute is read back where it does not run into a word. -/
theorem attrRef_display {attr : AttrRef} (ha : attr.isSpellable = true)
    (h : Stops isNameChar rest) : attrRef (attr.display.toList ++ rest) = some (attr, rest) := by
  cases attr with
  | named name =>
      cases hn : name.toList with
      | nil => simp [AttrRef.isSpellable, hn] at ha
      | cons c chars =>
          simp only [AttrRef.isSpellable, hn, Bool.and_eq_true, List.all_eq_true] at ha
          have htext : (AttrRef.named name).display.toList ++ rest =
              '@' :: c :: (chars ++ rest) := by
            simp [AttrRef.display, hn]
          have hstop := h.mono fun c hc => isNameChar_of_isNameRest hc
          have hread : attributeName (c :: (chars ++ rest)) = some (name, rest) := by
            rw [attributeName_eq, bind_of_eq (satisfy_cons ha.1 _),
              bind_of_eq (run_append ha.2 hstop), ← hn, String.ofList_toList]
            rfl
          refine orElse_of_eq ?_
          rw [htext, bind_of_eq (char_cons '@' _), bind_of_eq hread]
          rfl
  | text => rfl

/-! ### Tests -/

/-- A text that a test does not run into: there is nothing, or a blank. -/
def Ends (rest : List Char) : Prop :=
  ∀ c ∈ rest.head?, isGap c = true

theorem Ends.stops (h : Ends rest) : Stops isNameChar rest := by
  intro c hc
  have hg := h c hc
  simp only [isGap, Bool.or_eq_true, beq_iff_eq] at hg
  rcases hg with ((rfl | rfl) | rfl) | rfl <;> decide

theorem emptyCall_cons_of_ne {name : String} {c d : Char} (hn : name.toList.head? = some d)
    (h : c ≠ d) (rest : List Char) : emptyCall name (c :: rest) = none := by
  refine bind_of_none (word_cons_of_ne (by simpa [hn] using h) fun hnil => ?_)
  rw [hnil] at hn
  cases hn

theorem attrRef_cons_of_ne {c : Char} (hat : c ≠ '@') (ht : c ≠ 't') (rest : List Char) :
    attrRef (c :: rest) = none := by
  rw [attrRef, orElse_of_none (bind_of_none (char_cons_of_ne hat)),
    bind_of_none (emptyCall_cons_of_ne rfl ht rest)]

theorem functionName_cons_of_notMem {c : Char} (h : c ∉ ['s', 'e', 'c']) (rest : List Char) :
    functionName (c :: rest) = none := by
  simp only [List.mem_cons, List.not_mem_nil, or_false, not_or] at h
  have hword {w : String} {d : Char} (hw : w.toList.head? = some d) (hd : c ≠ d) :
      word w (c :: rest) = none := by
    refine word_cons_of_ne (by simpa [hw] using hd) fun hnil => ?_
    rw [hnil] at hw
    cases hw
  rw [functionName, orElse_of_none (bind_of_none (hword rfl h.1)),
    orElse_of_none (bind_of_none (hword rfl h.2.1)), bind_of_none (hword rfl h.2.2)]

/-- A test that does not begin like one of the places is a function, a comparison or a number. -/
theorem term_cons {c : Char} {text : List Char} {t : Predicate} (hl : c ≠ 'l') (hp : c ≠ 'p')
    (hb : Text.isBlank c = false)
    (h : (functionCall <|> comparison <|> position) (c :: text) = some (t, rest)) :
    term (c :: text) = some (t, rest.dropWhile isGap) := by
  refine padded_of_eq ?_
  rw [(Text.IsSolidFirst.stops ⟨c, text, rfl, hb⟩).dropWhile_eq, lastCall, positionCall,
    orElse_of_none (bind_of_none (emptyCall_cons_of_ne rfl hl text)),
    orElse_of_none (bind_of_none (emptyCall_cons_of_ne rfl hp text)), h]

theorem exists_cons_attrRef (attr : AttrRef) :
    ∃ c chars, attr.display.toList = c :: chars ∧ (c = '@' ∨ c = 't') := by
  cases attr with
  | named name => exact ⟨'@', name.toList, by simp [AttrRef.display], Or.inl rfl⟩
  | text => exact ⟨'t', _, rfl, Or.inr rfl⟩

theorem position_natural {n : UInt32} (hn : 1 ≤ n.toNat) (h : Stops isNameChar rest) :
    (functionCall <|> comparison <|> position) (Text.natural n.toNat ++ rest) =
      some (.position n, rest) := by
  have hread : position (Text.natural n.toNat ++ rest) = some (.position n, rest) := by
    rw [position, bind_of_eq (place_natural hn (h.mono fun c hc => isNameChar_of_isDigit hc))]
    rfl
  obtain ⟨c, digits, hc, hd⟩ := exists_digit_natural n.toNat
  rw [hc, List.cons_append] at hread ⊢
  have hfunction : functionName (c :: (digits ++ rest)) = none :=
    functionName_cons_of_notMem (notMem_of_passes hd (by decide)) _
  have hattr : attrRef (c :: (digits ++ rest)) = none :=
    attrRef_cons_of_ne (ne_of_passes hd (by decide)) (ne_of_passes hd (by decide)) _
  rw [functionCall, orElse_of_none (bind_of_none hfunction), comparison,
    orElse_of_none (bind_of_none hattr), hread]

theorem isSolidFirst_attrRef (attr : AttrRef) : Text.IsSolidFirst attr.display.toList := by
  obtain ⟨c, chars, hc, rfl | rfl⟩ := exists_cons_attrRef attr <;>
    exact ⟨_, chars, hc, by decide⟩

/-- A literal does not begin like a function. -/
theorem exists_cons_literal (value : Literal) : ∃ c chars, value.display.toList = c :: chars ∧
    Text.isBlank c = false ∧ c ∉ ['s', 'e', 'c'] := by
  cases value with
  | text s =>
      rw [Literal.display, quoted]
      split
      · exact ⟨'"', s.toList ++ ['"'], by simp, by decide, by decide⟩
      · exact ⟨'\x27', s.toList ++ ['\x27'], by simp, by decide, by decide⟩
  | int n =>
      obtain ⟨c, digits, hc, hd | rfl⟩ := exists_cons_intText n
      · exact ⟨c, digits, hc, isBlank_of_isDigit hd, notMem_of_passes hd (by decide)⟩
      · exact ⟨'-', digits, hc, by decide, by decide⟩

theorem isSolidFirst_literal (value : Literal) : Text.IsSolidFirst value.display.toList := by
  obtain ⟨c, chars, hc, hb, _⟩ := exists_cons_literal value
  exact ⟨c, chars, hc, hb⟩

/-- An operator is read back, blanks around it included. -/
theorem padded_compareOp (op : CompareOp) (rest : List Char) :
    padded compareOp (' ' :: (op.sign.toList ++ ' ' :: rest)) =
      some (op, rest.dropWhile isGap) := by
  cases op <;> rfl

theorem functionName_name (func : TextFunction) (rest : List Char) :
    functionName (func.name.toList ++ rest) = some (func, rest) := by
  cases func <;> rfl

theorem toList_comparison (attr : AttrRef) (op : CompareOp) (value : Literal) (rest : List Char) :
    (Predicate.comparison attr op value).display.toList ++ rest =
      attr.display.toList ++ ' ' :: (op.sign.toList ++ ' ' :: (value.display.toList ++ rest)) := by
  simp [Predicate.display]

theorem toList_function (func : TextFunction) (attr : AttrRef) (value : String)
    (rest : List Char) : (Predicate.function func attr value).display.toList ++ rest =
      func.name.toList ++ '(' ::
        (attr.display.toList ++ ',' :: ' ' :: ((quoted value).toList ++ ')' :: rest)) := by
  simp [Predicate.display]

theorem comparison_display {attr : AttrRef} {op : CompareOp} {value : Literal}
    (hs : (Predicate.comparison attr op value).isSpellable = true) (h : Stops isNameChar rest) :
    comparison ((Predicate.comparison attr op value).display.toList ++ rest) =
      some (.comparison attr op value, rest) := by
  obtain ⟨ha, hv⟩ := Bool.and_eq_true_iff.1 hs
  have hfunction : functionValue (value.display.toList ++ rest) = none := by
    obtain ⟨c, chars, hc, _, hn⟩ := exists_cons_literal value
    rw [hc, List.cons_append, functionValue,
      bind_of_none (functionName_cons_of_notMem hn (chars ++ rest))]
  have hop : padded compareOp
      ((' ' :: (op.sign.toList ++ ' ' :: (value.display.toList ++ rest))).dropWhile isGap) =
        some (op, value.display.toList ++ rest) := by
    rw [padded_dropWhile, padded_compareOp,
      ((isSolidFirst_literal value).append rest).stops.dropWhile_eq]
  rw [toList_comparison, comparison, bind_of_eq (attrRef_display ha (stops_cons.2 (by decide))),
    bind_of_eq (blanks_eq _), bind_of_eq hop, orElse_of_none (bind_of_none hfunction),
    bind_of_eq (literal_display hv h)]
  rfl

theorem function_display {func : TextFunction} {attr : AttrRef} {value : String}
    (hs : (Predicate.function func attr value).isSpellable = true) (rest : List Char) :
    functionCall ((Predicate.function func attr value).display.toList ++ rest) =
      some (.function func attr value, rest) := by
  obtain ⟨ha, hv⟩ := Bool.and_eq_true_iff.1 hs
  have hattr : padded attrRef
      (attr.display.toList ++ ',' :: ' ' :: ((quoted value).toList ++ ')' :: rest)) =
      some (attr, ',' :: ' ' :: ((quoted value).toList ++ ')' :: rest)) :=
    padded_append (isSolidFirst_attrRef attr) (attrRef_display ha (stops_cons.2 (by decide)))
      (stops_cons.2 (by decide))
  have hvalue : padded literal (' ' :: ((quoted value).toList ++ ')' :: rest)) =
      some (.text value, ')' :: rest) := by
    have hsolid := isSolidFirst_literal (.text value)
    have hread := @literal_display (')' :: rest) (.text value) hv (stops_cons.2 (by decide))
    rw [Literal.display] at hsolid hread
    rw [padded_blank, padded_append hsolid hread (stops_cons.2 (by decide))]
  rw [toList_function, functionCall, bind_of_eq (functionName_name func _),
    bind_of_eq (padded_char (by decide) _),
    ((isSolidFirst_attrRef attr).append _).stops.dropWhile_eq, bind_of_eq hattr,
    bind_of_eq (char_cons ',' _), bind_of_eq hvalue, bind_of_eq (char_cons ')' rest)]
  rfl

theorem exists_cons_functionName (func : TextFunction) : ∃ c chars,
    func.name.toList = c :: chars ∧ Text.isBlank c = false ∧ c ∈ ['s', 'e', 'c'] := by
  cases func <;> exact ⟨_, _, rfl, by decide, by decide⟩

/-- A test is read back. -/
theorem term_display {t : Predicate} (ht : t.isTerm = true) (hs : t.isSpellable = true)
    (h : Ends rest) : term (t.display.toList ++ rest) = some (t, rest.dropWhile isGap) := by
  cases t with
  | and l r | or l r => cases ht
  | last => exact padded_of_eq rfl
  | position n =>
      have hread := position_natural (of_decide_eq_true hs) h.stops
      obtain ⟨c, digits, hc, hd⟩ := exists_digit_natural n.toNat
      rw [Predicate.display, String.toList_ofList]
      rw [hc] at hread ⊢
      exact term_cons (ne_of_passes hd (by decide)) (ne_of_passes hd (by decide))
        (isBlank_of_isDigit hd) hread
  | comparison attr op value =>
      have hread := comparison_display hs h.stops
      obtain ⟨c, chars, hc, hat⟩ := exists_cons_attrRef attr
      rw [toList_comparison, hc, List.cons_append] at hread ⊢
      rcases hat with rfl | rfl
      all_goals
        refine term_cons (by decide) (by decide) (by decide) ?_
        rw [functionCall,
          orElse_of_none (bind_of_none (functionName_cons_of_notMem (by decide) _)),
          orElse_of_eq hread]
  | function func attr value =>
      have hread := orElse_of_eq (q := comparison <|> position) (function_display hs rest)
      obtain ⟨c, chars, hc, hb, hn⟩ := exists_cons_functionName func
      rw [toList_function, hc, List.cons_append] at hread ⊢
      have hne {d : Char} (hd : d ∉ ['s', 'e', 'c']) : c ≠ d := fun he => hd (he ▸ hn)
      exact term_cons (hne (by decide)) (hne (by decide)) hb hread

end Scan

/-! ### The ends of a test -/

theorem Text.isSolidLast_natural (n : Nat) : Text.IsSolidLast (Text.natural n) := by
  refine ⟨_, _, (List.dropLast_concat_getLast (Text.natural_ne_nil n)).symm, ?_⟩
  exact isBlank_of_isDigit (Text.isDigit_of_mem_natural (List.getLast_mem _))

theorem Literal.isSolidLast_display (value : Literal) :
    Text.IsSolidLast value.display.toList := by
  cases value with
  | text s =>
      rw [Literal.display, quoted]
      split
      · exact ⟨'"' :: s.toList, '"', by simp, by decide⟩
      · exact ⟨'\x27' :: s.toList, '\x27', by simp, by decide⟩
  | int n =>
      rw [Literal.display, intText, String.toList_ofList]
      cases n.toInt with
      | ofNat m => exact Text.isSolidLast_natural m
      | negSucc m => exact (Text.isSolidLast_natural (m + 1)).append ['-']

namespace Predicate

/-- The text of a predicate begins with no blank. -/
theorem isSolidFirst_display (p : Predicate) : Text.IsSolidFirst p.display.toList := by
  induction p with
  | comparison attr op value =>
      rw [← List.append_nil (display _).toList, Scan.toList_comparison]
      exact (Scan.isSolidFirst_attrRef attr).append _
  | function func attr value =>
      obtain ⟨c, chars, hc, hb, _⟩ := Scan.exists_cons_functionName func
      rw [← List.append_nil (display _).toList, Scan.toList_function]
      exact Text.IsSolidFirst.append ⟨c, chars, hc, hb⟩ _
  | position n =>
      obtain ⟨c, digits, hc, hd⟩ := exists_digit_natural n.toNat
      rw [display, String.toList_ofList]
      exact ⟨c, digits, hc, isBlank_of_isDigit hd⟩
  | last => exact ⟨'l', _, rfl, by decide⟩
  | and l r ihl _ | or l r ihl _ =>
      rw [display, String.append_assoc, String.toList_append]
      exact ihl.append _

/-- The text of a predicate ends with no blank. -/
theorem isSolidLast_display (p : Predicate) : Text.IsSolidLast p.display.toList := by
  induction p with
  | comparison attr op value =>
      rw [display, String.toList_append]
      exact value.isSolidLast_display.append _
  | function func attr value =>
      rw [display, String.toList_append]
      exact Text.IsSolidLast.append ⟨[], ')', rfl, by decide⟩ _
  | position n =>
      rw [display, String.toList_ofList]
      exact Text.isSolidLast_natural n.toNat
  | last => exact ⟨['l', 'a', 's', 't', '('], ')', rfl, by decide⟩
  | and l r _ ihr | or l r _ ihr =>
      rw [display, String.toList_append]
      exact ihr.append _

end Predicate

end AccessQuery
