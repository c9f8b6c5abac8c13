/-
**Splitting a path into steps.**

The text of a path is split before its predicates are read.  Two scanners do the work.  The first
finds the slash that ends a step: brackets shield slashes, and inside brackets so do quotes.  The
second finds the bracket that closes a group: quotes shield brackets, and brackets nest.  Neither
looks at what a predicate says.

Main definitions:

* `AccessQuery.RawStep` — a step whose predicates are still text;
* `AccessQuery.Segment.takeStep`, `AccessQuery.Segment.takeGroup` — the two scanners;
* `AccessQuery.segment` — the steps of a text.

Main results:

* `AccessQuery.Segment.takeStep_append` — a step and what follows it make up the text;
* `AccessQuery.Segment.length_takeGroup_lt` — less remains after a group.
-/

import AccessQuery.Query
import AccessQuery.Query.Error
import AccessQuery.Text.Blank
import AccessQuery.Text.Letter

set_option relaxedAutoImplicit false
set_option autoImplicit false

namespace AccessQuery

/-- A step whose predicates are still text. -/
structure RawStep where
  /-- The relation to the nodes of the step before. -/
  axis : Axis
  /-- The role, a star or a dot. -/
  role : String
  /-- The texts between the brackets, in order. -/
  predicates : List String
  deriving DecidableEq, Repr

namespace Segment

/-- The characters of which roles are made. -/
def isRoleChar (c : Char) : Bool :=
  Text.isAlphanumeric c || c == ' ' || c == '_' || c == '-'

/-- The two quotes. -/
def isQuote (c : Char) : Bool :=
  c == '\x27' || c == '"'

/-! ### The end of a step -/

/-- Splits a text at the first slash outside brackets.  The scan stands inside some number of
brackets and, possibly, of one pair of quotes, which count inside brackets only.  There is no
result where a bracket closes that was not open, or where one is never closed. -/
def takeStep (depth : Nat) (quote : Option Char) : List Char → Option (List Char × List Char)
  | [] => if depth = 0 ∧ quote = none then some ([], []) else none
  | c :: rest =>
      match quote with
      | some q =>
          (takeStep depth (if c = q then none else some q) rest).map fun r => (c :: r.1, r.2)
      | none =>
          if isQuote c ∧ 0 < depth then
            (takeStep depth (some c) rest).map fun r => (c :: r.1, r.2)
          else if c = '[' then (takeStep (depth + 1) none rest).map fun r => (c :: r.1, r.2)
          else if c = ']' then
            if depth = 0 then none
            else (takeStep (depth - 1) none rest).map fun r => (c :: r.1, r.2)
          else if c = '/' ∧ depth = 0 then some ([], c :: rest)
          else (takeStep depth none rest).map fun r => (c :: r.1, r.2)

theorem takeStep_append {depth : Nat} {quote : Option Char} {text step rest : List Char}
    (h : takeStep depth quote text = some (step, rest)) : step ++ rest = text := by
  fun_induction takeStep depth quote text generalizing step rest with
  | case1 =>
      obtain ⟨rfl, rfl⟩ : [] = step ∧ [] = rest := by simpa using h
      rfl
  | case2 => simp at h
  | case6 => simp at h
  | case8 =>
      obtain ⟨rfl, rfl⟩ : [] = step ∧ _ = rest := by simpa using h
      rfl
  | _ =>
      obtain ⟨⟨a, b⟩, hr, he⟩ := Option.map_eq_some_iff.1 h
      cases he
      simp_all

/-! ### The end of a group -/

/-- Splits a text, that stands after an opening bracket, at the bracket that closes it.  The scan
stands inside some number of further brackets and, possibly, of one pair of quotes. -/
def takeGroup (depth : Nat) (quote : Option Char) : List Char → Option (List Char × List Char)
  | [] => none
  | c :: rest =>
      match quote with
      | some q =>
          (takeGroup depth (if c = q then none else some q) rest).map fun r => (c :: r.1, r.2)
      | none =>
          if isQuote c then (takeGroup depth (some c) rest).map fun r => (c :: r.1, r.2)
          else if c = '[' then (takeGroup (depth + 1) none rest).map fun r => (c :: r.1, r.2)
          else if c = ']' then
            if depth = 0 then some ([], rest)
            else (takeGroup (depth - 1) none rest).map fun r => (c :: r.1, r.2)
          else (takeGroup depth none rest).map fun r => (c :: r.1, r.2)

theorem takeGroup_append {depth : Nat} {quote : Option Char} {text group rest : List Char}
    (h : takeGroup depth quote text = some (group, rest)) : group ++ ']' :: rest = text := by
  fun_induction takeGroup depth quote text generalizing group rest with
  | case1 => simp at h
  | case5 =>
      obtain ⟨rfl, rfl⟩ : [] = group ∧ _ = rest := by simpa using h
      simp_all
  | _ =>
      obtain ⟨⟨a, b⟩, hr, he⟩ := Option.map_eq_some_iff.1 h
      cases he
      simp_all

theorem length_takeGroup_lt {depth : Nat} {quote : Option Char} {text group rest : List Char}
    (h : takeGroup depth quote text = some (group, rest)) : rest.length < text.length := by
  rw [← takeGroup_append h]
  simp only [List.length_append, List.length_cons]
  omega

/-! ### One step -/

/-- The texts of the groups that follow a role, up to the end of the step. -/
def groups (step : String) (text : List Char) : Except QueryError (List String) :=
  match _h : Text.trimStart text with
  | [] => .ok []
  | '[' :: inside =>
      match hg : takeGroup 0 none inside with
      | none => .error (.invalidPredicate (String.ofList ('[' :: inside)))
      | some (group, rest) => do
          have := length_takeGroup_lt hg
          have := Text.length_trimStart_le text
          let others ← groups step rest
          return String.ofList group :: others
  | rest => .error (.trailingText (String.ofList rest) step)
termination_by text.length
decreasing_by
  simp only [_h, List.length_cons] at *
  omega

/-- The axis of a step, from the slashes before it, its role and whether a predicate follows. -/
def axisOf (slashes : Nat) (role : String) (filtered : Bool) : Except QueryError Axis :=
  if role = "." then if slashes = 1 then .ok .self else .error .doubleSlashSelf
  else if slashes = 2 then .ok (if role = "*" ∧ !filtered then .any else .descendant)
  else .ok .child

/-- Reads the text of one step, without the slashes before it. -/
def rawStep (slashes : Nat) (text : List Char) : Except QueryError RawStep := do
  let text := Text.trim text
  -- The groups are read before the role is looked at, so their errors come first.
  let role := String.ofList (Text.trim (text.takeWhile (· != '[')))
  let predicates ← groups (String.ofList text) (text.dropWhile (· != '['))
  if role = "" then .error (.invalidPredicate (String.ofList text))
  else if role ≠ "*" ∧ role ≠ "." ∧ !role.toList.all isRoleChar then .error (.invalidRole role)
  else (axisOf slashes role !predicates.isEmpty).map fun axis => ⟨axis, role, predicates⟩

/-! ### The whole path -/

/-- The number of bytes of a text. -/
def byteLength (text : List Char) : Nat :=
  (String.ofList text).utf8ByteSize

/-- The steps of what remains of a path from a byte offset on. -/
def stepsFrom (query : String) (offset : Nat) (text : List Char) :
    Except QueryError (List RawStep) :=
  if text = [] then .ok []
  else
    let slashes := (text.takeWhile (· == '/')).length
    let body := text.dropWhile (· == '/')
    if 2 < slashes then .error (.tooManySlashes offset query)
    else match h : takeStep 0 none body with
      | none => .error (.invalidPredicate (String.ofList body))
      | some (step, rest) =>
          if hs : Text.trim step = [] then .error (.emptyStep offset query)
          else do
            have : rest.length < text.length := by
              have hb : body.length ≤ text.length := (List.dropWhile_sublist _).length_le
              have hc := congrArg List.length (takeStep_append h)
              have hp : 0 < step.length := List.length_pos_iff.2 fun hn => hs (by simp [hn])
              simp only [List.length_append] at hc
              omega
            let raw ← rawStep slashes step
            let others ← stepsFrom query (offset + slashes + byteLength step) rest
            return raw :: others
termination_by text.length

end Segment

/-- Splits the text of a path into its steps. -/
def segment (query : String) : Except QueryError (List RawStep) :=
  match Text.trim query.toList with
  | [] => .error .emptyQuery
  | '/' :: rest =>
      Segment.stepsFrom (String.ofList ('/' :: rest)) 0 ('/' :: rest)
  | _ => .error .noLeadingSlash

end AccessQuery
