/-
**Tests that have a derivation are read.**

A derivation may leave a text where a reader would go on: digits can be taken one by one, and
blanks can be left behind.  So a reader follows a derivation only up to a text that it would not run
into.  A test runs into digits, which is all that is asked of the text behind it.

Readers are tried one after another, and the first that yields something wins.  Which of them it is
shows in the first character of the text, except for the two places, and these are words of their
own.

Main definitions:

* `AccessQuery.Grammar.Begins` — texts that begin with a character of some kind;
* `AccessQuery.Grammar.bareTerm` — the reader of a test, without the blanks around it.

Main results:

* `AccessQuery.Grammar.Attr.read`, `AccessQuery.Grammar.Quotation.read`,
  `AccessQuery.Grammar.Value.read`, `AccessQuery.Grammar.Place.read` — the parts of a test are read;
* `AccessQuery.Grammar.Test.read` — and so is the test.
-/

import AccessQuery.Proofs.Grammar.Soundness

set_option relaxedAutoImplicit false
set_option autoImplicit false

namespace AccessQuery.Grammar

open Scan

variable {α : Type} {p : Scan α} {a : α} {text rest : List Char} {c : Char}
variable {test : Char → Bool}

/-! ### First characters -/

/-- The characters of which gaps are made. -/
def gaps : List Char :=
  [' ', '\t', '\r', '\n']

theorem mem_gaps (h : isGap c = true) : c ∈ gaps := by
  simpa [isGap, gaps, or_assoc] using h

theorem eq_false_of_isGap (htest : gaps.any test = false) (c : Char) (hc : isGap c = true) :
    test c = false := by
  cases h : test c with
  | false => rfl
  | true => exact absurd (mem_gaps hc) (notMem_of_passes h htest)

/-- A text begins with a character that passes a test. -/
def Begins (test : Char → Bool) (text : List Char) : Prop :=
  ∃ c tail, text = c :: tail ∧ test c = true

theorem Begins.append (h : Begins test text) (rest : List Char) : Begins test (text ++ rest) := by
  obtain ⟨c, tail, rfl, hc⟩ := h
  exact ⟨c, tail ++ rest, rfl, hc⟩

theorem Begins.mono {test' : Char → Bool} (h : Begins test text)
    (ht : ∀ c, test c = true → test' c = true) : Begins test' text := by
  obtain ⟨c, tail, rfl, hc⟩ := h
  exact ⟨c, tail, rfl, ht c hc⟩

/-- A text that begins in a way in which no gap does. -/
theorem Begins.stops (h : Begins test text) (htest : gaps.any test = false) :
    Stops isGap text := by
  obtain ⟨c, tail, rfl, hc⟩ := h
  refine stops_cons.2 ?_
  cases hg : isGap c with
  | false => rfl
  | true => exact absurd ((eq_false_of_isGap htest c hg).symm.trans hc) (by decide)

theorem Begins.stops_beq {d : Char} (h : Begins test text) (hd : test d = false) :
    Stops (· == d) text := by
  obtain ⟨c, tail, rfl, hc⟩ := h
  exact stops_cons.2 (beq_eq_false_iff_ne.2 (ne_of_passes hc hd))

/-! ### Blanks -/

theorem Gap.dropWhile_eq (h : Gap text rest) (hrest : Stops isGap rest) :
    text.dropWhile isGap = rest := by
  induction h with
  | none => exact hrest.dropWhile_eq
  | blank hc _ ih => rw [List.dropWhile_cons_of_pos hc, ih hrest]

/-- A text that stops goes on stopping where blanks are put before it. -/
theorem Gap.stops (h : Gap text rest) (hrest : Stops test rest) (htest : gaps.any test = false) :
    Stops test text := by
  cases h with
  | none => exact hrest
  | blank hc _ => exact stops_cons.2 (eq_false_of_isGap htest _ hc)

theorem padded_read {inside outside : List Char} (hgap : Gap text inside)
    (hsolid : Stops isGap inside) (h : p inside = some (a, outside)) :
    padded p text = some (a, outside.dropWhile isGap) :=
  padded_of_eq ((congrArg p (hgap.dropWhile_eq hsolid)).trans h)

theorem padded_char_read {behind : List Char} (hgap : Gap text (c :: behind))
    (hc : isGap c = false) : padded (char c) text = some ((), behind.dropWhile isGap) :=
  padded_read hgap (stops_cons.2 hc) (char_cons c behind)

/-! ### Numbers -/

theorem IsNumeral.begins {digits : List Char} (h : IsNumeral digits) :
    Begins Char.isDigit digits := by
  obtain ⟨c, tail, rfl⟩ := List.exists_cons_of_ne_nil h.1
  exact ⟨c, tail, rfl, h.2 c List.mem_cons_self⟩

theorem IsNumeral.readNatural? {digits : List Char} (h : IsNumeral digits) :
    Text.readNatural? digits = some (number digits) :=
  readNatural?_eq_some_iff.2 ⟨h, rfl⟩

theorem Place.begins {n : UInt32} (h : Place text n rest) : Begins Char.isDigit text := by
  cases h with
  | digits hd _ _ => exact hd.begins.append rest

theorem Place.read {n : UInt32} (h : Place text n rest) (hrest : Stops Char.isDigit rest) :
    place text = some (n, rest) := by
  cases h with
  | digits hd hpos hn =>
      rw [place, bind_of_eq (run_append hd.2 hrest), hd.readNatural?]
      dsimp only
      rw [← hn, if_pos ⟨hpos, n.toNat_lt_size⟩, UInt32.ofNat_toNat]
      rfl

/-- The characters that an integer begins with. -/
def beginsInteger (c : Char) : Bool :=
  c.isDigit || c == '+' || c == '-'

theorem Integer.begins {n : Int64} (h : Integer text n rest) : Begins beginsInteger text := by
  cases h with
  | unsigned hd _ => exact (hd.begins.append rest).mono fun c hc => by simp [beginsInteger, hc]
  | plus _ _ => exact ⟨'+', _, rfl, rfl⟩
  | minus _ _ => exact ⟨'-', _, rfl, rfl⟩

theorem integer_read {s digits : List Char} {n : Int64} (hd : IsNumeral digits)
    (hrest : Stops Char.isDigit rest)
    (hsign : sign (s ++ (digits ++ rest)) = some (s, digits ++ rest))
    (hn : Text.readInt64? (s ++ digits) = some n) :
    integer (s ++ (digits ++ rest)) = some (n, rest) := by
  rw [integer, bind_of_eq hsign, bind_of_eq (run_append hd.2 hrest), hn]
  rfl

theorem Integer.read {n : Int64} (h : Integer text n rest) (hrest : Stops Char.isDigit rest) :
    integer text = some (n, rest) := by
  cases h with
  | @unsigned digits _ _ hd hn =>
      obtain ⟨c, tail, hc, hdigit⟩ := hd.begins.append rest
      have hsign : sign ([] ++ (digits ++ rest)) = some ([], digits ++ rest) := by
        rw [List.nil_append, hc, sign_cons_of_isDigit hdigit]
      refine integer_read hd hrest hsign ?_
      rw [List.nil_append, Text.readInt64?, Text.readInteger?_of_isDigit hd.2, hd.readNatural?]
      exact toInt64?_eq_some_iff.2 hn
  | plus hd hn =>
      refine integer_read (s := ['+']) hd hrest rfl ?_
      rw [List.singleton_append, Text.readInt64?, Text.readInteger?, hd.readNatural?]
      exact toInt64?_eq_some_iff.2 hn
  | minus hd hn =>
      refine integer_read (s := ['-']) hd hrest rfl ?_
      rw [List.singleton_append, Text.readInt64?, Text.readInteger?, hd.readNatural?]
      exact toInt64?_eq_some_iff.2 hn

/-! ### The parts of a test -/

theorem word_append (w : String) (rest : List Char) :
    word w (w.toList ++ rest) = some ((), rest) := by
  rw [word, if_pos (List.isPrefixOf_iff_prefix.2 (List.prefix_append _ _)), List.drop_left]

theorem Call.text_eq {name : String} (h : Call name text rest) :
    ∃ behind, text = name.toList ++ behind := by
  cases h with
  | call _ _ => exact ⟨_, rfl⟩

theorem Call.read {name : String} (h : Call name text rest) :
    emptyCall name text = some ((), rest) := by
  cases h with
  | call hopen hclose =>
      rw [emptyCall, bind_of_eq (word_append name _), bind_of_eq (padded_char_read hopen rfl),
        hclose.dropWhile_eq (stops_cons.2 rfl), char_cons]

/-- The characters that an attribute begins with. -/
def beginsAttr (c : Char) : Bool :=
  c == '@' || c == 't'

theorem Attr.begins {attr : AttrRef} (h : Attr text attr rest) : Begins beginsAttr text := by
  cases h with
  | named _ _ => exact ⟨'@', _, rfl, rfl⟩
  | text hcall =>
      obtain ⟨behind, rfl⟩ := hcall.text_eq
      exact ⟨'t', _, rfl, rfl⟩

/-- An attribute is read where its name does not go on. -/
theorem Attr.read {attr : AttrRef} (h : Attr text attr rest) (hrest : Stops isNameRest rest) :
    attrRef text = some (attr, rest) := by
  cases h with
  | @named c chars _ hc hchars =>
      have hname : attributeName (c :: (chars ++ rest)) =
          some (String.ofList (c :: chars), rest) := by
        rw [attributeName_eq, bind_of_eq (satisfy_cons hc _),
          bind_of_eq (run_append hchars hrest)]
        rfl
      refine orElse_of_eq ?_
      rw [bind_of_eq (char_cons '@' _), bind_of_eq hname]
      rfl
  | text hcall =>
      obtain ⟨behind, rfl⟩ := hcall.text_eq
      have hat : char '@' ("text".toList ++ behind) = none := char_cons_of_ne (by decide)
      rw [attrRef, orElse_of_none (bind_of_none hat), bind_of_eq hcall.read]
      rfl

theorem Quotation.begins {s : String} (h : Quotation text s rest) :
    Begins Segment.isQuote text := by
  cases h with
  | quotation hq _ => exact ⟨_, _, rfl, hq⟩

theorem Quotation.read {s : String} (h : Quotation text s rest) :
    string text = some (s, rest) := by
  cases h with
  | quotation hq hn =>
      exact string_append (by simpa [Segment.isQuote] using hq) hn rest

/-- The characters that a literal begins with. -/
def beginsValue (c : Char) : Bool :=
  Segment.isQuote c || beginsInteger c

theorem Value.begins {value : Literal} (h : Value text value rest) : Begins beginsValue text := by
  cases h with
  | text hs => exact hs.begins.mono fun c hc => by simp [beginsValue, hc]
  | int hn _ => exact hn.begins.mono fun c hc => by simp [beginsValue, hc]

theorem Value.read {value : Literal} (h : Value text value rest) :
    literal text = some (value, rest) := by
  cases h with
  | text hs =>
      refine orElse_of_eq ?_
      rw [bind_of_eq hs.read]
      rfl
  | int hn hstop =>
      have hstring : string text = none := by
        obtain ⟨c, tail, rfl, hc⟩ := hn.begins
        exact string_cons_of_ne (ne_of_passes hc (by decide)) (ne_of_passes hc (by decide)) tail
      rw [literal, orElse_of_none (bind_of_none hstring),
        bind_of_eq (hn.read (hstop.mono fun c hc => isNameChar_of_isDigit hc)),
        bind_of_eq (notBefore_of_stops hstop)]
      rfl

/-! ### Operators and functions -/

/-- An operator is read where no equals sign follows. -/
theorem compareOp_sign (op : CompareOp) (hrest : Stops (· == '=') rest) :
    compareOp (op.sign.toList ++ rest) = some (op, rest) := by
  -- the operators of two characters, one of which another operator begins with
  have hword {w : String} {c : Char} (hw : w.toList = [c, '=']) : word w (c :: rest) = none := by
    rw [word, hw, if_neg]
    cases rest with
    | nil => simp
    | cons d tail => simpa using fun he : '=' = d => by simp [← he] at hrest
  cases op with
  | less =>
      refine (orElse_of_none rfl).trans ?_
      exact orElse_of_none (bind_of_none (hword (c := '<') rfl))
  | greater =>
      refine (orElse_of_none rfl).trans ((orElse_of_none rfl).trans ?_)
      exact orElse_of_none (bind_of_none (hword (c := '>') rfl))
  | _ => rfl

theorem begins_functionName (func : TextFunction) (rest : List Char) :
    Begins (fun c => ['s', 'e', 'c'].contains c) (func.name.toList ++ rest) := by
  cases func <;> exact ⟨_, _, rfl, rfl⟩

theorem functionName_of_begins (h : Begins test text) (htest : ['s', 'e', 'c'].any test = false) :
    functionName text = none := by
  obtain ⟨c, tail, rfl, hc⟩ := h
  exact functionName_cons_of_notMem (notMem_of_passes hc htest) tail

/-- A function in the place of a value is read together with the blanks behind it. -/
theorem functionValue_read {func : TextFunction} {s : String} {t₁ t₂ t₃ t₄ : List Char}
    (hopen : Gap t₁ ('(' :: t₂)) (hgap : Gap t₂ t₃) (hs : Quotation t₃ s t₄)
    (hclose : Gap t₄ (')' :: rest)) :
    functionValue (func.name.toList ++ t₁) = some ((func, s), rest.dropWhile isGap) := by
  rw [functionValue, bind_of_eq (functionName_name func t₁),
    bind_of_eq (padded_char_read hopen rfl), hgap.dropWhile_eq (hs.begins.stops rfl),
    bind_of_eq hs.read, bind_of_eq (padded_char_read hclose rfl)]
  rfl

theorem positionCall_read {n : UInt32} {t₁ t₂ t₃ : List Char} (hcall : Call "position" text t₁)
    (hsign : Gap t₁ ('=' :: t₂)) (hgap : Gap t₂ t₃) (hn : Place t₃ n rest)
    (hrest : Stops Char.isDigit rest) : positionCall text = some (.position n, rest) := by
  rw [positionCall, bind_of_eq hcall.read, bind_of_eq (padded_char_read hsign rfl),
    hgap.dropWhile_eq (hn.begins.stops rfl), bind_of_eq (hn.read hrest)]
  rfl

theorem functionCall_read (func : TextFunction) {attr : AttrRef} {value : Literal}
    {t₁ t₂ t₃ t₄ t₅ t₆ t₇ : List Char} (hopen : Gap t₁ ('(' :: t₂)) (hgap : Gap t₂ t₃)
    (hattr : Attr t₃ attr t₄) (hcomma : Gap t₄ (',' :: t₅)) (hgap' : Gap t₅ t₆)
    (hvalue : Value t₆ value t₇) (hclose : Gap t₇ (')' :: rest)) :
    functionCall (func.name.toList ++ t₁) = some (.function func attr value.plain, rest) := by
  have hreadAttr : padded attrRef t₂ = some (attr, ',' :: t₅) := by
    rw [padded_read hgap (hattr.begins.stops rfl)
      (hattr.read (hcomma.stops (stops_cons.2 rfl) rfl)), hcomma.dropWhile_eq (stops_cons.2 rfl)]
  have hreadValue : padded literal t₅ = some (value, ')' :: rest) := by
    rw [padded_read hgap' (hvalue.begins.stops rfl) hvalue.read,
      hclose.dropWhile_eq (stops_cons.2 rfl)]
  rw [functionCall, bind_of_eq (functionName_name func t₁),
    bind_of_eq (padded_char_read hopen rfl),
    bind_of_eq ((padded_dropWhile _ _).trans hreadAttr), bind_of_eq (char_cons ',' t₅),
    bind_of_eq hreadValue, bind_of_eq (char_cons ')' rest)]
  rfl

/-! ### Tests -/

/-- The reader of a test, without the blanks around it. -/
def bareTerm : Scan Predicate :=
  lastCall <|> positionCall <|> functionCall <|> comparison <|> position

theorem term_eq : term = padded bareTerm :=
  rfl

/-- What begins like neither of the places is none of them. -/
theorem bareTerm_of_begins (h : Begins test text) (htest : ['l', 'p'].any test = false) :
    bareTerm text = (functionCall <|> comparison <|> position) text := by
  obtain ⟨c, tail, rfl, hc⟩ := h
  have hne := notMem_of_passes hc htest
  simp only [List.mem_cons, List.not_mem_nil, or_false, not_or] at hne
  rw [bareTerm, lastCall, positionCall,
    orElse_of_none (bind_of_none (emptyCall_cons_of_ne rfl hne.1 tail)),
    orElse_of_none (bind_of_none (emptyCall_cons_of_ne rfl hne.2 tail))]

theorem functionCall_of_begins (h : Begins test text) (htest : ['s', 'e', 'c'].any test = false) :
    functionCall text = none :=
  bind_of_none (functionName_of_begins h htest)

theorem comparison_of_begins (h : Begins test text) (htest : ['@', 't'].any test = false) :
    comparison text = none := by
  obtain ⟨c, tail, rfl, hc⟩ := h
  have hne := notMem_of_passes hc htest
  simp only [List.mem_cons, List.not_mem_nil, or_false, not_or] at hne
  exact bind_of_none (attrRef_cons_of_ne hne.1 hne.2 tail)

/-- What a comparison reads behind its operator. -/
def operandOf (attr : AttrRef) (op : CompareOp) : Scan Predicate :=
  (do
    let (func, value) ← functionValue
    if op = .eq then return .function func attr value else failure) <|>
  (do return .comparison attr op (← literal))

theorem comparison_read {attr : AttrRef} (op : CompareOp) {t₁ t₂ t₃ : List Char}
    (hattr : Attr text attr t₁) (hop : Gap t₁ (op.sign.toList ++ t₂)) (hgap : Gap t₂ t₃)
    (hbegins : Begins test t₃) (hgaps : gaps.any test = false) (hequals : test '=' = false) :
    comparison text = operandOf attr op t₃ := by
  have hsign : Stops isGap (op.sign.toList ++ t₂) := by cases op <;> exact stops_cons.2 rfl
  have hname : Stops isNameRest (op.sign.toList ++ t₂) := by cases op <;> exact stops_cons.2 rfl
  have hequals : Stops (· == '=') t₂ := hgap.stops (hbegins.stops_beq hequals) rfl
  have hread : padded compareOp (op.sign.toList ++ t₂) = some (op, t₂.dropWhile isGap) :=
    padded_read .none hsign (compareOp_sign op hequals)
  rw [comparison, bind_of_eq (hattr.read (hop.stops hname rfl)), bind_of_eq (blanks_eq t₁),
    hop.dropWhile_eq hsign, bind_of_eq hread, hgap.dropWhile_eq (hbegins.stops hgaps)]
  rfl

/-- A test is read where no digit follows, possibly together with blanks behind it. -/
theorem Test.read {t : Predicate} (h : Test text t rest) (hrest : Stops Char.isDigit rest) :
    Stops isGap text ∧ ∃ outside, bareTerm text = some (t, outside) ∧
      outside.dropWhile isGap = rest.dropWhile isGap := by
  cases h with
  | last hcall =>
      obtain ⟨behind, rfl⟩ := hcall.text_eq
      refine ⟨stops_cons.2 rfl, rest, orElse_of_eq ?_, rfl⟩
      rw [lastCall, bind_of_eq hcall.read]
      rfl
  | position hcall hsign hgap hn =>
      have hread := positionCall_read hcall hsign hgap hn hrest
      obtain ⟨behind, rfl⟩ := hcall.text_eq
      have hlast : lastCall ("position".toList ++ behind) = none :=
        bind_of_none (emptyCall_cons_of_ne rfl (by decide) _)
      exact ⟨stops_cons.2 rfl, rest, (orElse_of_none hlast).trans (orElse_of_eq hread), rfl⟩
  | place hn =>
      refine ⟨hn.begins.stops rfl, rest, ?_, rfl⟩
      rw [bareTerm_of_begins hn.begins rfl,
        orElse_of_none (functionCall_of_begins hn.begins rfl),
        orElse_of_none (comparison_of_begins hn.begins rfl), Scan.position,
        bind_of_eq (hn.read hrest)]
      rfl
  | @function func _ _ t₁ _ _ _ _ _ _ _ hopen hgap hattr hcomma hgap' hvalue hclose =>
      have hbegins := begins_functionName func t₁
      have hread := functionCall_read func hopen hgap hattr hcomma hgap' hvalue hclose
      exact ⟨hbegins.stops rfl, rest,
        (bareTerm_of_begins hbegins rfl).trans (orElse_of_eq hread), rfl⟩
  | @comparison attr op value _ t₁ t₂ t₃ _ hattr hop hgap hvalue =>
      have hbegins := hattr.begins
      refine ⟨hbegins.stops rfl, rest, ?_, rfl⟩
      have hfunction : Scan.functionValue t₃ = none :=
        bind_of_none (functionName_of_begins hvalue.begins rfl)
      rw [bareTerm_of_begins hbegins rfl, orElse_of_none (functionCall_of_begins hbegins rfl)]
      refine orElse_of_eq ?_
      rw [comparison_read op hattr hop hgap hvalue.begins rfl rfl, operandOf,
        orElse_of_none (bind_of_none hfunction), bind_of_eq hvalue.read]
      rfl
  | @functionValue attr func s _ t₁ t₂ t₃ t₄ t₅ t₆ _ hattr hop hgap hopen hgap' hs hclose =>
      have hbegins := hattr.begins
      refine ⟨hbegins.stops rfl, rest.dropWhile isGap, ?_, ?_⟩
      · rw [bareTerm_of_begins hbegins rfl, orElse_of_none (functionCall_of_begins hbegins rfl)]
        refine orElse_of_eq ?_
        rw [comparison_read .eq hattr hop hgap (begins_functionName func t₃) rfl rfl, operandOf]
        refine orElse_of_eq ?_
        rw [bind_of_eq (functionValue_read hopen hgap' hs hclose)]
        rfl
      · exact (stops_dropWhile isGap rest).dropWhile_eq

end AccessQuery.Grammar
