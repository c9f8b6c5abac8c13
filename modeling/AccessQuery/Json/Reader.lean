/-
**Reading JSON text.**

Documents are read strictly: nothing but one value with blanks around it, no leading zeros, no raw
control characters in strings, no unknown escapes.  The text is first split into tokens; the tokens
then drive a machine whose state says what may follow and which containers are still open, so
nesting of any depth is read without recursion.

Main definitions:

* `AccessQuery.Json.Token`, `AccessQuery.Json.lex` — the tokens of a text;
* `AccessQuery.Json.Pending`, `AccessQuery.Json.Pending.step` — the states of the machine and its
  transitions;
* `AccessQuery.Json.parse?` — the value of a text.

Main results:

* `AccessQuery.Json.length_stringBody_lt` — a string is shorter than the text it starts.
-/

import AccessQuery.Json

set_option relaxedAutoImplicit false
set_option autoImplicit false

namespace AccessQuery.Json

/-! ### Strings -/

/-- The value of one hexadecimal digit. -/
def hexDigit? (c : Char) : Option Nat :=
  if c.isDigit then some (c.toNat - '0'.toNat)
  else if 'a' ≤ c ∧ c ≤ 'f' then some (c.toNat - 'a'.toNat + 10)
  else if 'A' ≤ c ∧ c ≤ 'F' then some (c.toNat - 'A'.toNat + 10)
  else none

/-- The value of four hexadecimal digits. -/
def hexUnit? (a b c d : Char) : Option Nat := do
  return (((← hexDigit? a) * 16 + (← hexDigit? b)) * 16 + (← hexDigit? c)) * 16 + (← hexDigit? d)

/-- The character that a backslash and one character stand for. -/
def escaped? : Char → Option Char
  | '"' => some '"'
  | '\\' => some '\\'
  | '/' => some '/'
  | 'b' => some '\x08'
  | 'f' => some '\x0c'
  | 'n' => some '\n'
  | 'r' => some '\r'
  | 't' => some '\t'
  | _ => none

/-- Puts an escaped 16-bit unit before code points; a high surrogate joins a low one. -/
def consUnit (unit : Nat) (rest : List CodePoint) : List CodePoint :=
  if 0xD800 ≤ unit ∧ unit < 0xE000 then
    match rest with
    | .surrogate low :: after =>
        if unit < 0xDC00 ∧ 0xDC00 ≤ low then
          .char (Char.ofNat (0x10000 + (unit - 0xD800) * 0x400 + (low - 0xDC00))) :: after
        else .surrogate unit :: rest
    | _ => .surrogate unit :: rest
  else .char (Char.ofNat unit) :: rest

/-- Reads a string after its opening quote; the rest begins after the closing one. -/
def stringBody : List Char → Option (List CodePoint × List Char)
  | [] => none
  | '"' :: rest => some ([], rest)
  | '\\' :: 'u' :: a :: b :: c :: d :: rest => do
      let unit ← hexUnit? a b c d
      let (s, after) ← stringBody rest
      return (consUnit unit s, after)
  | '\\' :: e :: rest => do
      let c ← escaped? e
      let (s, after) ← stringBody rest
      return (.char c :: s, after)
  | c :: rest =>
      if c.toNat < 0x20 ∨ c = '\\' then none
      else do
        let (s, after) ← stringBody rest
        return (.char c :: s, after)

theorem length_stringBody_lt {text after : List Char} {s : List CodePoint}
    (h : stringBody text = some (s, after)) : after.length < text.length := by
  fun_induction stringBody text generalizing s after with
  | case1 => simp at h
  | case2 rest =>
      obtain ⟨-, rfl⟩ : [] = s ∧ rest = after := by simpa using h
      simp
  | case3 a b c d rest ih =>
      simp only [Option.bind_eq_bind, Option.bind_eq_some_iff] at h
      obtain ⟨_, -, ⟨_, _⟩, hr, he⟩ := h
      cases he
      have := ih hr
      simp only [List.length_cons]
      omega
  | case4 e rest _ ih =>
      simp only [Option.bind_eq_bind, Option.bind_eq_some_iff] at h
      obtain ⟨_, -, ⟨_, _⟩, hr, he⟩ := h
      cases he
      have := ih hr
      simp only [List.length_cons]
      omega
  | case5 => simp at h
  | case6 c rest _ _ _ _ ih =>
      simp only [Option.bind_eq_bind, Option.bind_eq_some_iff] at h
      obtain ⟨⟨_, _⟩, hr, he⟩ := h
      cases he
      have := ih hr
      simp only [List.length_cons]
      omega

/-! ### Numbers and names -/

/-- The characters of which numbers are made. -/
def isNumberChar (c : Char) : Bool :=
  c.isDigit || c == '-' || c == '+' || c == '.' || c == 'e' || c == 'E'

/-- Whether a text is empty or the exponent of a number. -/
def isExponent : List Char → Bool
  | [] => true
  | c :: rest =>
      let digits := match rest with
        | '+' :: digits => digits
        | '-' :: digits => digits
        | digits => digits
      (c == 'e' || c == 'E') && !digits.isEmpty && digits.all Char.isDigit

/-- Whether a text is what may follow the integer part of a number. -/
def isFractionAndExponent : List Char → Bool
  | '.' :: rest =>
      !(rest.takeWhile Char.isDigit).isEmpty && isExponent (rest.dropWhile Char.isDigit)
  | rest => isExponent rest

/-- The number that a text spells; minus zero is not an integer. -/
def number? (text : List Char) : Option Json :=
  let unsigned := match text with
    | '-' :: rest => rest
    | rest => rest
  let digits := unsigned.takeWhile Char.isDigit
  let rest := unsigned.dropWhile Char.isDigit
  if digits = [] ∨ (digits.head? = some '0' ∧ 1 < digits.length) then none
  -- Minus zero differs from zero, so it stays with the decimals.
  else if rest = [] ∧ text ≠ ['-', '0'] then (Text.readInteger? text).map .integer
  else if isFractionAndExponent rest then some (.decimal text)
  else none

/-- The value that a bare word stands for. -/
def word? (text : List Char) : Option Json :=
  if text = "null".toList then some .null
  else if text = "true".toList then some (.bool true)
  else if text = "false".toList then some (.bool false)
  else none

/-! ### Tokens -/

/-- A token of a JSON text. -/
inductive Token
  | openArray | closeArray | openObject | closeObject | comma | colon
  /-- A value that is no container. -/
  | scalar (value : Json)

/-- The punctuation token that a character is. -/
def punctuation? : Char → Option Token
  | '[' => some .openArray
  | ']' => some .closeArray
  | '\x7b' => some .openObject
  | '\x7d' => some .closeObject
  | ',' => some .comma
  | ':' => some .colon
  | _ => none

/-- The blanks between tokens. -/
def isGap (c : Char) : Bool :=
  c == ' ' || c == '\t' || c == '\n' || c == '\r'

/-- The tokens of a text. -/
def lex (text : List Char) : Option (List Token) :=
  match text with
  | [] => some []
  | c :: rest =>
      if isGap c then lex rest
      else match punctuation? c with
        | some token => (lex rest).map (token :: ·)
        | none =>
            if c = '"' then
              match h : stringBody rest with
              | none => none
              | some (s, after) =>
                  have := length_stringBody_lt h
                  (lex after).map (.scalar (.string s) :: ·)
            else if isNumberChar c then do
              let value ← number? (c :: rest.takeWhile isNumberChar)
              (lex (rest.dropWhile isNumberChar)).map (.scalar value :: ·)
            else do
              let value ← word? (c :: rest.takeWhile Char.isAlpha)
              (lex (rest.dropWhile Char.isAlpha)).map (.scalar value :: ·)
termination_by text.length
decreasing_by
  · simp
  · simp
  · simp only [List.length_cons]
    omega
  · exact Nat.lt_succ_of_le (List.dropWhile_sublist _).length_le
  · exact Nat.lt_succ_of_le (List.dropWhile_sublist _).length_le

/-! ### Containers -/

/-- A container that waits for a value. -/
inductive Frame
  /-- An array, with the items before the value, the latest first. -/
  | item (before : List Json)
  /-- An object, with the members before the value, the latest first, and the key of the value. -/
  | member (before : List (List CodePoint × Json)) (key : List CodePoint)

/-- What may follow, with the containers that are open. -/
inductive Pending
  /-- A value. -/
  | anyValue (frames : List Frame)
  /-- The first item of an array, or its end. -/
  | firstItem (frames : List Frame)
  /-- The first key of an object, or its end. -/
  | firstKey (frames : List Frame)
  /-- A key after a comma. -/
  | nextKey (members : List (List CodePoint × Json)) (frames : List Frame)
  /-- The colon after a key. -/
  | colon (members : List (List CodePoint × Json)) (key : List CodePoint) (frames : List Frame)
  /-- A comma or the end of an array. -/
  | afterItem (items : List Json) (frames : List Frame)
  /-- A comma or the end of an object. -/
  | afterMember (members : List (List CodePoint × Json)) (frames : List Frame)
  /-- Nothing: the document is complete. -/
  | nothing (value : Json)

namespace Pending

/-- What may follow once a value is complete. -/
def deliver (value : Json) : List Frame → Pending
  | [] => .nothing value
  | .item before :: frames => .afterItem (value :: before) frames
  | .member before key :: frames => .afterMember ((key, value) :: before) frames

/-- What may follow once a value has begun. -/
def start (frames : List Frame) : Token → Option Pending
  | .scalar value => some (deliver value frames)
  | .openArray => some (.firstItem frames)
  | .openObject => some (.firstKey frames)
  | _ => none

/-- One transition of the machine. -/
def step : Pending → Token → Option Pending
  | .anyValue frames, token => start frames token
  | .firstItem frames, .closeArray => some (deliver (.array []) frames)
  | .firstItem frames, token => start (.item [] :: frames) token
  | .firstKey frames, .closeObject => some (deliver (.object []) frames)
  | .firstKey frames, .scalar (.string key) => some (.colon [] key frames)
  | .nextKey members frames, .scalar (.string key) => some (.colon members key frames)
  | .colon members key frames, .colon => some (.anyValue (.member members key :: frames))
  | .afterItem items frames, .comma => some (.anyValue (.item items :: frames))
  | .afterItem items frames, .closeArray => some (deliver (.array items.reverse) frames)
  | .afterMember members frames, .comma => some (.nextKey members frames)
  | .afterMember members frames, .closeObject => some (deliver (.object members.reverse) frames)
  | _, _ => none

end Pending

/-- The value of a JSON text. -/
def parse? (text : String) : Option Json := do
  let tokens ← lex text.toList
  match ← tokens.foldlM Pending.step (.anyValue []) with
  | .nothing value => some value
  | _ => none

end AccessQuery.Json
