/-
**Splitting a path by byte offsets.**

The texts that a path is split into are slices of it, between byte offsets that the scanners have
counted.  Much could go wrong there.  A slice could begin in the middle of a character, a step could
end where it begins, and the scanner of groups could see a bracket close that it has not seen open,
run off the end of a step, or stop elsewhere than the scanner of steps came out of all brackets.

Here the path is split in that way, and all of this is looked at.  What the scanner of steps passes
on its way is kept beside the end of the step: the brackets that close the last open one.  Every
group must end at the next of them.

Main definitions:

* `AccessQuery.Segment.cut?`, `AccessQuery.Segment.slice` — the parts of a text between byte
  offsets;
* `AccessQuery.Segment.Mishap` — what must not happen;
* `AccessQuery.Segment.stepEnd`, `AccessQuery.Segment.groupEnd` — the two scanners, by offsets;
* `AccessQuery.Segment.splitStep`, `AccessQuery.Segment.segmentAt` — one step, and a path.

Main results:

* `AccessQuery.Segment.cut?_eq_some_iff`, `AccessQuery.Segment.isSome_cut?_iff` — a text can be cut
  where a character begins, and at its end.
-/

import AccessQuery.Query.Segment

set_option relaxedAutoImplicit false
set_option autoImplicit false

namespace AccessQuery.Segment

/-! ### Bytes -/

theorem byteLength_nil : byteLength [] = 0 :=
  rfl

theorem byteLength_append (a b : List Char) :
    byteLength (a ++ b) = byteLength a + byteLength b := by
  rw [byteLength, String.ofList_append, String.utf8ByteSize_append, byteLength, byteLength]

theorem byteLength_cons (c : Char) (rest : List Char) :
    byteLength (c :: rest) = c.utf8Size + byteLength rest := by
  rw [byteLength, String.ofList_cons, String.utf8ByteSize_append, String.utf8ByteSize_singleton,
    byteLength]

/-- The two parts of a text before and behind a byte offset, if no character stands on both
sides. -/
def cut? : Nat → List Char → Option (List Char × List Char)
  | 0, text => some ([], text)
  | _ + 1, [] => none
  | offset + 1, c :: rest =>
      if c.utf8Size ≤ offset + 1 then
        (cut? (offset + 1 - c.utf8Size) rest).map fun r => (c :: r.1, r.2)
      else none

/-- A text can be cut where some of its characters end. -/
theorem cut?_append (a b : List Char) : cut? (byteLength a) (a ++ b) = some (a, b) := by
  induction a with
  | nil => rw [byteLength_nil, List.nil_append, cut?]
  | cons c a ih =>
      obtain ⟨offset, hoffset⟩ : ∃ offset, byteLength (c :: a) = offset + 1 := by
        have hpos := c.utf8Size_pos
        exact ⟨byteLength (c :: a) - 1, by rw [byteLength_cons]; omega⟩
      have hrest : offset + 1 - c.utf8Size = byteLength a := by
        rw [← hoffset, byteLength_cons, Nat.add_sub_cancel_left]
      have hle : c.utf8Size ≤ offset + 1 := by
        rw [← hoffset, byteLength_cons]
        exact Nat.le_add_right _ _
      rw [List.cons_append, hoffset, cut?, if_pos hle, hrest, ih]
      rfl

theorem cut?_eq_some_iff {offset : Nat} {text a b : List Char} :
    cut? offset text = some (a, b) ↔ text = a ++ b ∧ byteLength a = offset := by
  constructor
  · intro h
    fun_induction cut? offset text generalizing a b with
    | case1 text =>
        obtain ⟨rfl, rfl⟩ := Prod.mk.inj (Option.some.inj h)
        exact ⟨rfl, byteLength_nil⟩
    | case2 | case4 => cases h
    | case3 offset c rest hle ih =>
        obtain ⟨⟨front, back⟩, hr, he⟩ := Option.map_eq_some_iff.1 h
        cases he
        obtain ⟨rfl, hfront⟩ := ih hr
        refine ⟨rfl, ?_⟩
        rw [byteLength_cons, hfront]
        omega
  · rintro ⟨rfl, rfl⟩
    exact cut?_append a b

/-- The offsets at which a text can be cut are the valid positions of the string. -/
theorem isSome_cut?_iff {offset : Nat} {text : List Char} :
    (cut? offset text).isSome = true ↔
      String.Pos.Raw.IsValid (String.ofList text) ⟨offset⟩ := by
  rw [String.Pos.Raw.isValid_ofList, Option.isSome_iff_exists]
  constructor
  · rintro ⟨⟨a, b⟩, h⟩
    obtain ⟨rfl, rfl⟩ := cut?_eq_some_iff.1 h
    exact ⟨a.length, by rw [List.take_left]; rfl⟩
  · rintro ⟨n, hn⟩
    refine ⟨(text.take n, text.drop n), cut?_eq_some_iff.2 ⟨?_, hn.symm⟩⟩
    exact (List.take_append_drop n text).symm

/-! ### What can go wrong -/

/-- What must not happen while a path is split. -/
inductive Mishap
  /-- A slice begins or ends in the middle of a character, or outside the text, or the wrong way
  round. -/
  | boundary
  /-- A step ends no later than the slashes before it begin. -/
  | standstill
  /-- Where groups are looked for, a bracket closes that none has opened. -/
  | underflow
  /-- The end of a group is not found. -/
  | unclosed
  /-- A group ends elsewhere than at the next bracket that closes the last open one. -/
  | astray
  deriving DecidableEq, Repr

/-- Why a path is not split. -/
inductive Trouble
  /-- Something has happened that must not. -/
  | mishap (what : Mishap)
  /-- The text is refused. -/
  | refused (error : QueryError)
  deriving DecidableEq, Repr

/-- What is done with every slice, every loop and every offset looked at. -/
abbrev Checked (α : Type) := Except Trouble α

namespace Checked

/-- What goes on without a mishap. -/
def smooth {α : Type} (x : Except QueryError α) : Checked α :=
  x.mapError .refused

/-- Something happens that must not. -/
def fail {α : Type} (what : Mishap) : Checked α :=
  .error (.mishap what)

/-- The text is refused. -/
def refuse {α : Type} (error : QueryError) : Checked α :=
  .error (.refused error)

end Checked

/-- The part of a text behind a byte offset. -/
def sliceFrom (start : Nat) (text : List Char) : Checked (List Char) :=
  match cut? start text with
  | some (_, rest) => .ok rest
  | none => .fail .boundary

/-- The part of a text between two byte offsets. -/
def slice (start stop : Nat) (text : List Char) : Checked (List Char) :=
  match cut? stop text with
  | some (front, _) => sliceFrom start front
  | none => .fail .boundary

theorem sliceFrom_append (a b : List Char) : sliceFrom (byteLength a) (a ++ b) = .ok b := by
  rw [sliceFrom, cut?_append]

theorem slice_append (a b c : List Char) :
    slice (byteLength a) (byteLength a + byteLength b) (a ++ (b ++ c)) = .ok b := by
  rw [slice, ← byteLength_append, ← List.append_assoc, cut?_append]
  exact sliceFrom_append a b

theorem length_sliceFrom_succ_lt {start : Nat} {text rest : List Char}
    (h : sliceFrom (start + 1) text = .ok rest) : rest.length < text.length := by
  unfold sliceFrom at h
  split at h
  · next front back hcut =>
      cases h
      obtain ⟨rfl, hfront⟩ := cut?_eq_some_iff.1 hcut
      have hne : front ≠ [] := by
        rintro rfl
        rw [byteLength_nil] at hfront
        omega
      have hpos := List.length_pos_iff.2 hne
      rw [List.length_append]
      omega
  · cases h

/-! ### The scanners, by offsets -/

/-- The offset at which a step ends, and those of the brackets on the way that close the last open
one.  The scan stands at an offset, inside some number of brackets and, possibly, of one pair of
quotes. -/
def stepEnd? (depth : Nat) (quote : Option Char) (offset : Nat) :
    List Char → Option (Nat × List Nat)
  | [] => if depth = 0 ∧ quote = none then some (offset, []) else none
  | c :: rest =>
      let next := offset + c.utf8Size
      match quote with
      | some q => stepEnd? depth (if c = q then none else some q) next rest
      | none =>
          if isQuote c ∧ 0 < depth then stepEnd? depth (some c) next rest
          else if c = '[' then stepEnd? (depth + 1) none next rest
          else if c = ']' then
            if depth = 0 then none
            else (stepEnd? (depth - 1) none next rest).map fun r =>
              (r.1, if depth = 1 then offset :: r.2 else r.2)
          else if c = '/' ∧ depth = 0 then some (offset, [])
          else stepEnd? depth none next rest

theorem stepEnd?_nil (depth : Nat) (quote : Option Char) (offset : Nat) :
    stepEnd? depth quote offset [] =
      if depth = 0 ∧ quote = none then some (offset, []) else none := by
  rw [stepEnd?]

/-- Where the step ends that begins at an offset of a path, with the brackets on the way told by
their offsets in the step. -/
def stepEnd (start : Nat) (query : List Char) : Checked (Nat × List Nat) := do
  let text ← sliceFrom start query
  match stepEnd? 0 none 0 text with
  | some (length, closings) => .ok (start + length, closings)
  | none => .refuse (.invalidPredicate (String.ofList text))

/-- The offset of the bracket that closes a group, if there is one.  The opening bracket is counted
like the others. -/
def groupEnd (depth : Nat) (quote : Option Char) (offset : Nat) :
    List Char → Checked (Option Nat)
  | [] => .ok none
  | c :: rest =>
      let next := offset + c.utf8Size
      match quote with
      | some q => groupEnd depth (if c = q then none else some q) next rest
      | none =>
          if isQuote c then groupEnd depth (some c) next rest
          else if c = '[' then groupEnd (depth + 1) none next rest
          else if c = ']' then
            if depth = 0 then .fail .underflow
            else if depth = 1 then .ok (some offset)
            else groupEnd (depth - 1) none next rest
          else groupEnd depth none next rest

theorem groupEnd_open (depth offset : Nat) (rest : List Char) :
    groupEnd depth none offset ('[' :: rest) =
      groupEnd (depth + 1) none (offset + '['.utf8Size) rest := by
  simp [groupEnd, isQuote]

/-! ### A step and a path, by offsets -/

/-- The texts of the groups that follow a role.  They begin at an offset in the step, and the
brackets are given at which they must end. -/
def groupsAt (step : String) (offset : Nat) (closings : List Nat) (text : List Char) :
    Checked (List String) :=
  match _h : Text.trimStart text with
  | [] => .ok []
  | '[' :: inside => do
      let offset := offset + byteLength (text.takeWhile Text.isBlank)
      match ← groupEnd 0 none 0 ('[' :: inside) with
      | none => .fail .unclosed
      | some close =>
          if closings.head? = some (offset + close) then
            let group ← slice 1 close ('[' :: inside)
            match hr : sliceFrom (close + 1) ('[' :: inside) with
            | .error trouble => .error trouble
            | .ok rest => do
                have := length_sliceFrom_succ_lt hr
                have := Text.length_trimStart_le text
                let others ← groupsAt step (offset + (close + 1)) closings.tail rest
                return String.ofList group :: others
          else .fail .astray
  | rest => .refuse (.trailingText (String.ofList rest) step)
termination_by text.length
decreasing_by
  simp only [_h] at *
  omega

/-- Reads the text of one step, without the slashes before it. -/
def splitStep (slashes : Nat) (closings : List Nat) (text : List Char) : Checked RawStep := do
  let blanks := byteLength (text.takeWhile Text.isBlank)
  let text := Text.trim text
  let roleEnd := byteLength (text.takeWhile (· != '['))
  let role := String.ofList (Text.trim (← slice 0 roleEnd text))
  let predicates ← groupsAt (String.ofList text) (blanks + roleEnd) closings
    (← sliceFrom roleEnd text)
  if role = "" then .refuse (.invalidPredicate (String.ofList text))
  else if role ≠ "*" ∧ role ≠ "." ∧ !role.toList.all isRoleChar then .refuse (.invalidRole role)
  else .smooth ((axisOf slashes role !predicates.isEmpty).map fun axis => ⟨axis, role, predicates⟩)

/-- The steps of a path from a byte offset on. -/
def stepsAt (query : List Char) (offset : Nat) : Checked (List RawStep) :=
  if offset < byteLength query then do
    let slashes := ((← sliceFrom offset query).takeWhile (· == '/')).length
    if 2 < slashes then .refuse (.tooManySlashes offset (String.ofList query))
    else
      let start := offset + slashes
      let (stop, closings) ← stepEnd start query
      let text ← slice start stop query
      if Text.trim text = [] then .refuse (.emptyStep offset (String.ofList query))
      else
        let raw ← splitStep slashes closings text
        if offset < stop then
          let others ← stepsAt query stop
          return raw :: others
        else .fail .standstill
  else .ok []
termination_by byteLength query - offset

/-- Splits the text of a path into its steps. -/
def segmentAt (query : String) : Checked (List RawStep) :=
  match Text.trim query.toList with
  | [] => .refuse .emptyQuery
  | '/' :: rest => stepsAt ('/' :: rest) 0
  | _ => .refuse .noLeadingSlash

end AccessQuery.Segment
