/-
**Texts that cannot be quoted.**

A text with quotes of both kinds is printed between double quotes all the same, and the first double
quote in it ends the literal.  Most queries with such a text cannot be read any more.  But what
stands behind that quote may go on as a query goes on, and then the text of the query is read, and
as another query.

Which of the two it is does not depend on what stands before.  If everything up to the text can be
spelled, its readers stand behind a text in a group, and whatever they have read, they go on as they
would behind a short one.  To go on they need a bracket or a word right behind the quote, or, in a
function, a parenthesis first.

Main definitions:

* `AccessQuery.Predicate.texts` — the texts of a predicate;
* `AccessQuery.Query.isNameable` — everything but the texts can be spelled;
* `AccessQuery.Predicate.BreaksAt`, `AccessQuery.Query.BreaksAt` — the first part that cannot be
  spelled is a text with quotes of both kinds;
* `AccessQuery.TextPlace.stem` — a short text that ends behind a text in a group.

Main results:

* `AccessQuery.Query.exists_breaksAt` — where nothing else is wrong, such a text comes first;
* `AccessQuery.Query.BreaksAt.exists_parse_iff` — the text of a query is read exactly if a short
  path is read that goes on in the same way;
* `AccessQuery.Query.BreaksAt.resumes` — the text of a query that is read goes on with a bracket or
  a word;
* `AccessQuery.Query.parse_display_of_hasBothQuotes` — what becomes of a query with such a text.
-/

import AccessQuery.Proofs.Acceptance
import AccessQuery.Proofs.Grammar.OpenGroups
import AccessQuery.Proofs.Grammar.Resumption

set_option relaxedAutoImplicit false
set_option autoImplicit false

namespace AccessQuery

variable {place : TextPlace} {value behind : String}

/-! ### The texts of a predicate -/

namespace Predicate

/-- The texts that a predicate compares with, or hands to functions. -/
def texts : Predicate → List String
  | .comparison _ _ (.text s) => [s]
  | .function _ _ value => [value]
  | .and l r | .or l r => l.texts ++ r.texts
  | _ => []

/-- Everything in a predicate but its texts can be spelled. -/
def isNameable : Predicate → Bool
  | .comparison attr _ _ | .function _ attr _ => attr.isSpellable
  | .position n => decide (1 ≤ n.toNat)
  | .last => true
  | .and l r | .or l r => l.isNameable && r.isNameable

theorem isSpellable_iff {p : Predicate} :
    p.isSpellable = true ↔ p.isNameable = true ∧ ∀ s ∈ p.texts, ¬ HasBothQuotes s := by
  induction p with
  | comparison attr op value =>
      cases value with
      | text s => simp [isSpellable, isNameable, texts, Literal.isSpellable, isQuotable_iff]
      | int n => simp [isSpellable, isNameable, texts, Literal.isSpellable]
  | function func attr value => simp [isSpellable, isNameable, texts, isQuotable_iff]
  | position n => simp [isSpellable, isNameable, texts]
  | last => simp [isSpellable, isNameable, texts]
  | and l r ihl ihr | or l r ihl ihr =>
      simp only [isSpellable, isNameable, texts, Bool.and_eq_true, ihl, ihr, List.mem_append,
        or_imp, forall_and]
      exact and_and_and_comm

/-- The first part of a predicate that cannot be spelled is a text with quotes of both kinds.  It
stands at some place, and something is written behind its closing quote. -/
inductive BreaksAt : Predicate → TextPlace → String → String → Prop
  | comparison {attr : AttrRef} {op : CompareOp} {value : String} :
      attr.isSpellable = true → HasBothQuotes value →
      BreaksAt (.comparison attr op (.text value)) .comparison value ""
  | function {func : TextFunction} {attr : AttrRef} {value : String} :
      attr.isSpellable = true → HasBothQuotes value →
      BreaksAt (.function func attr value) .function value ")"
  | andLeft {l r : Predicate} {place : TextPlace} {value behind : String} :
      BreaksAt l place value behind →
      BreaksAt (.and l r) place value (behind ++ " and " ++ r.display)
  | andRight {l r : Predicate} {place : TextPlace} {value behind : String} :
      l.isSpellable = true → BreaksAt r place value behind → BreaksAt (.and l r) place value behind
  | orLeft {l r : Predicate} {place : TextPlace} {value behind : String} :
      BreaksAt l place value behind →
      BreaksAt (.or l r) place value (behind ++ " or " ++ r.display)
  | orRight {l r : Predicate} {place : TextPlace} {value behind : String} :
      l.isSpellable = true → BreaksAt r place value behind → BreaksAt (.or l r) place value behind

theorem BreaksAt.hasBothQuotes {p : Predicate} (h : p.BreaksAt place value behind) :
    HasBothQuotes value := by
  induction h <;> assumption

/-- Of two predicates that cannot both be spelled, the first one that cannot. -/
theorem left_or_right {l r : Predicate} (hn : (l.isNameable && r.isNameable) = true)
    (hs : ¬ (l.isSpellable && r.isSpellable) = true) :
    (l.isNameable = true ∧ ¬ l.isSpellable = true) ∨
      (l.isSpellable = true ∧ r.isNameable = true ∧ ¬ r.isSpellable = true) := by
  obtain ⟨hl, hr⟩ := Bool.and_eq_true_iff.1 hn
  by_cases hleft : l.isSpellable = true
  · exact Or.inr ⟨hleft, hr, fun hright => hs (Bool.and_eq_true_iff.2 ⟨hleft, hright⟩)⟩
  · exact Or.inl ⟨hl, hleft⟩

/-- Where nothing else is wrong, such a text is the first part that cannot be spelled. -/
theorem exists_breaksAt {p : Predicate} (hn : p.isNameable = true) (hs : ¬ p.isSpellable = true) :
    ∃ place value behind, p.BreaksAt place value behind := by
  induction p with
  | comparison attr op value =>
      cases value with
      | text s =>
          have hquotes : HasBothQuotes s := by
            simpa [isSpellable_iff, hn, texts] using hs
          exact ⟨_, _, _, .comparison hn hquotes⟩
      | int n => exact absurd (isSpellable_iff.2 ⟨hn, by simp [texts]⟩) hs
  | function func attr value =>
      have hquotes : HasBothQuotes value := by
        simpa [isSpellable_iff, hn, texts] using hs
      exact ⟨_, _, _, .function hn hquotes⟩
  | position n => exact absurd hn hs
  | last => exact absurd hn hs
  | and l r ihl ihr =>
      obtain ⟨hl, hleft⟩ | ⟨hleft, hr, hright⟩ := left_or_right hn hs
      · obtain ⟨place, value, behind, hbreak⟩ := ihl hl hleft
        exact ⟨_, _, _, .andLeft hbreak⟩
      · obtain ⟨place, value, behind, hbreak⟩ := ihr hr hright
        exact ⟨_, _, _, .andRight hleft hbreak⟩
  | or l r ihl ihr =>
      obtain ⟨hl, hleft⟩ | ⟨hleft, hr, hright⟩ := left_or_right hn hs
      · obtain ⟨place, value, behind, hbreak⟩ := ihl hl hleft
        exact ⟨_, _, _, .orLeft hbreak⟩
      · obtain ⟨place, value, behind, hbreak⟩ := ihr hr hright
        exact ⟨_, _, _, .orRight hleft hbreak⟩

end Predicate

/-! ### The text before -/

open Segment (Balanced)

/-- A text that a predicate may begin with, up to the opening quote of a text at some place. -/
structure TextPlace.Opens (place : TextPlace) (front : List Char) : Prop where
  solidFirst : Text.IsSolidFirst front
  balanced : Balanced front
  isRead_iff : ∀ {chars : List Char}, '"' ∉ chars → ∀ text,
    Scan.IsRead (front ++ '"' :: (chars ++ '"' :: text)) ↔ place.IsReadOn text

namespace TextPlace

theorem opens_comparison {attr : AttrRef} (ha : attr.isSpellable = true) (op : CompareOp) :
    TextPlace.comparison.Opens (attr.display ++ " " ++ op.sign ++ " ").toList where
  solidFirst := by
    simp only [String.toList_append, List.append_assoc]
    exact (Scan.isSolidFirst_attrRef attr).append _
  balanced := by
    have hblank : Balanced " ".toList := Segment.balanced_of_all (by decide)
    have hop : Balanced op.sign.toList := Segment.balanced_of_all (by cases op <;> decide)
    simp only [String.toList_append]
    exact (((AttrRef.balanced_display ha).append hblank).append hop).append hblank
  isRead_iff hq text := by
    rw [← isRead_comparison_iff ha op hq text]
    simp

theorem opens_function {attr : AttrRef} (ha : attr.isSpellable = true) (func : TextFunction) :
    TextPlace.function.Opens (func.name ++ "(" ++ attr.display ++ ", ").toList where
  solidFirst := by
    obtain ⟨c, chars, hc, hblank, -⟩ := Scan.exists_cons_functionName func
    simp only [String.toList_append, List.append_assoc]
    exact Text.IsSolidFirst.append ⟨c, chars, hc, hblank⟩ _
  balanced := by
    have hname : Balanced func.name.toList := Segment.balanced_of_all (by cases func <;> decide)
    have hopen : Balanced "(".toList := Segment.balanced_of_all (by decide)
    have hcomma : Balanced ", ".toList := Segment.balanced_of_all (by decide)
    simp only [String.toList_append]
    exact ((hname.append hopen).append (AttrRef.balanced_display ha)).append hcomma
  isRead_iff hq text := by
    rw [← isRead_function_iff ha func hq text]
    simp

/-- Further tests may stand before. -/
theorem Opens.after {front : List Char} (h : place.Opens front) {p : Predicate}
    (hp : p.isSpellable = true) {w : String} (hw : w = "and" ∨ w = "or") :
    place.Opens (p.display.toList ++ ' ' :: (w.toList ++ ' ' :: front)) where
  solidFirst := p.isSolidFirst_display.append _
  balanced := by
    have hword : Balanced (' ' :: (w.toList ++ [' '])) := by
      rcases hw with rfl | rfl <;> exact Segment.balanced_of_all (by decide)
    simpa using (Predicate.balanced_display hp).append (hword.append h.balanced)
  isRead_iff {chars} hq text := by
    have hafter := Scan.isRead_append_iff hp hw (front ++ '"' :: (chars ++ '"' :: text))
    simpa using hafter.trans (h.isRead_iff hq text)

end TextPlace

/-- The text of a predicate up to a text that cannot be quoted. -/
theorem Predicate.BreaksAt.exists_front {p : Predicate} (h : p.BreaksAt place value behind) :
    ∃ front, place.Opens front ∧
      p.display.toList = front ++ '"' :: (value.toList ++ '"' :: behind.toList) := by
  induction h with
  | @comparison attr op value ha hv =>
      refine ⟨_, TextPlace.opens_comparison ha op, ?_⟩
      simp [Predicate.display, Literal.display, quoted, hv.1]
  | @function func attr value ha hv =>
      refine ⟨_, TextPlace.opens_function ha func, ?_⟩
      simp [Predicate.display, quoted, hv.1]
  | andLeft _ ih | orLeft _ ih =>
      obtain ⟨front, hopens, hfront⟩ := ih
      refine ⟨front, hopens, ?_⟩
      simp [Predicate.display, hfront]
  | andRight hl _ ih =>
      obtain ⟨front, hopens, hfront⟩ := ih
      refine ⟨_, hopens.after hl (Or.inl rfl), ?_⟩
      simp [Predicate.display, hfront]
  | orRight hl _ ih =>
      obtain ⟨front, hopens, hfront⟩ := ih
      refine ⟨_, hopens.after hl (Or.inr rfl), ?_⟩
      simp [Predicate.display, hfront]

/-! ### Paths -/

namespace Query

/-- Everything in a query but the texts in its predicates can be spelled. -/
def isNameable (query : Query) : Bool :=
  query.steps.all fun step => step.roleTest.isSpellable && step.predicate.all Predicate.isNameable

/-- The first part of a query that cannot be spelled is a text with quotes of both kinds.  It stands
at some place, and something is written behind its closing quote. -/
inductive BreaksAt : Query → TextPlace → String → String → Prop
  | intro {query : Query} {steps later : List Step} {step : Step} {p c : Predicate}
      {closed others : List Predicate} {place : TextPlace} {value behind : String} :
      query.steps = steps ++ step :: later → (∀ s ∈ steps, s.isSpellable = true) →
      step.roleTest.isSpellable = true → step.predicate = some p →
      p.conjuncts = closed ++ c :: others → (∀ d ∈ closed, d.isSpellable = true) →
      c.BreaksAt place value behind →
      BreaksAt query place value (behind ++ "]" ++
        String.join (others.map fun d => "[" ++ d.display ++ "]") ++
        String.join (later.map Step.display))

end Query

/-- The first item of a list that does not pass a test. -/
theorem exists_first_of_all_eq_false {α : Type} {test : α → Bool} {l : List α}
    (h : l.all test = false) : ∃ before a after, l = before ++ a :: after ∧
      (∀ b ∈ before, test b = true) ∧ test a = false := by
  cases hfind : l.find? fun a => !test a with
  | none =>
      have hall : l.all test = true := by simpa using hfind
      rw [hall] at h
      cases h
  | some a =>
      obtain ⟨ha, before, after, hsplit, hbefore⟩ := List.find?_eq_some_iff_append.1 hfind
      exact ⟨before, a, after, hsplit, by simpa using hbefore, by simpa using ha⟩

namespace Predicate

theorem all_conjuncts_isSpellable (p : Predicate) :
    p.conjuncts.all isSpellable = p.isSpellable := by
  induction p with
  | and l r ihl ihr => rw [conjuncts, List.all_append, ihl, ihr, isSpellable]
  | _ => simp [conjuncts]

theorem all_conjuncts_isNameable (p : Predicate) :
    p.conjuncts.all isNameable = p.isNameable := by
  induction p with
  | and l r ihl ihr => rw [conjuncts, List.all_append, ihl, ihr, isNameable]
  | _ => simp [conjuncts]

end Predicate

namespace Query

theorem BreaksAt.hasBothQuotes {query : Query} (h : query.BreaksAt place value behind) :
    HasBothQuotes value := by
  cases h with
  | intro _ _ _ _ _ _ hbreaks => exact hbreaks.hasBothQuotes

/-- Where nothing else is wrong, a text with quotes of both kinds is the first part that cannot be
spelled. -/
theorem exists_breaksAt {query : Query} (hn : query.isNameable = true)
    (hs : query.isSpellable = false) : ∃ place value behind, query.BreaksAt place value behind := by
  obtain ⟨steps, step, later, hsteps, hbefore, hstep⟩ := exists_first_of_all_eq_false hs
  have hmem : step ∈ query.steps := hsteps ▸ List.mem_append_right steps List.mem_cons_self
  obtain ⟨hrole, hnames⟩ := Bool.and_eq_true_iff.1 (List.all_eq_true.1 hn step hmem)
  rw [Step.isSpellable, hrole, Bool.true_and] at hstep
  cases hp : step.predicate with
  | none =>
      rw [hp] at hstep
      cases hstep
  | some p =>
      rw [hp, Option.all_some] at hstep hnames
      rw [← Predicate.all_conjuncts_isSpellable] at hstep
      rw [← Predicate.all_conjuncts_isNameable] at hnames
      obtain ⟨closed, c, others, hconjuncts, hclosed, hc⟩ := exists_first_of_all_eq_false hstep
      have hcmem : c ∈ p.conjuncts := hconjuncts ▸ List.mem_append_right closed List.mem_cons_self
      obtain ⟨place, value, behind, hbreaks⟩ := Predicate.exists_breaksAt
        (List.all_eq_true.1 hnames c hcmem) (by rw [hc]; decide)
      exact ⟨_, _, _, .intro hsteps hbefore hrole hp hconjuncts hclosed hbreaks⟩

end Query

/-! ### Reading on -/

open Segment (Continues)

/-- A group that is not blank is read if it is read to its end. -/
theorem Predicate.isReadable_iff {group : String} (h : Text.trim group.toList ≠ []) :
    IsReadable group ↔ Scan.IsRead (Text.trim group.toList) := by
  rw [IsReadable, read?_of_nonblank h]
  constructor
  · rintro ⟨p, hp⟩
    split at hp
    · next q hq => exact ⟨q, hq⟩
    · cases hp
  · rintro ⟨p, hp⟩
    rw [hp]
    exact ⟨some p, rfl⟩

/-- A path that breaks off behind the closing quote of a text is read if it goes on as it can behind
a text at this place. -/
theorem OpenGroup.exists_parse_iff_of_opens (g : OpenGroup) {front kept : List Char}
    (h : place.Opens front) (hk : '"' ∉ kept) (hg : g.inside = front ++ '"' :: (kept ++ ['"']))
    (t : List Char) : (∃ query, Query.parse (String.ofList (g.text ++ t)) = .ok query) ↔
      Continues (fun group => place.IsReadOn (Text.trimEnd group)) (Text.trimEnd t) := by
  have hfirst : Text.IsSolidFirst g.inside := hg ▸ h.solidFirst.append _
  have hread (group : List Char) : Predicate.IsReadable (String.ofList (g.inside ++ group)) ↔
      place.IsReadOn (Text.trimEnd group) := by
    have htrim : Text.trim (String.ofList (g.inside ++ group)).toList =
        front ++ '"' :: (kept ++ '"' :: Text.trimEnd group) := by
      rw [String.toList_ofList, Text.trim_append hfirst g.solidLast_inside, hg]
      simp
    rw [Predicate.isReadable_iff (by rw [htrim]; simp), htrim, h.isRead_iff hk]
  rw [g.exists_parse_iff, funext fun group => propext (hread group)]

/-- The role of a step that can be spelled stands in the text of the step. -/
theorem Step.isPathRole_raw {step : Step} (h : step.roleTest.isSpellable = true) :
    IsPathRole step.raw.role ∧ (step.raw.role = "." → step.raw.slashes = 1) := by
  -- the predicate of the step plays no part
  let bare : Step := ⟨step.axis, step.roleTest, none⟩
  have hspell : bare.isSpellable = true := by simp [bare, isSpellable, h]
  have hbare := isSpelling_raw hspell
  refine ⟨hbare.role, fun hdot => ?_⟩
  have haxis : bare.raw.axis = .self := hbare.self_iff.2 hdot
  have hslashes : bare.raw.slashes = step.raw.slashes := by rw [slashes_raw, slashes_raw]
  rw [← hslashes, RawStep.slashes, haxis]

theorem Step.isReadable_raw {step : Step} (h : step.isSpellable = true) : step.raw.IsReadable :=
  Step.exists_ofRaw_iff.1 ⟨_, ofRaw_raw h⟩

theorem Step.toList_display_of_some {step : Step} {p : Predicate} (hp : step.predicate = some p) :
    step.display.toList = List.replicate step.raw.slashes '/' ++ (step.raw.role.toList ++
      Segment.bracketed ((p.conjuncts.map Predicate.display).map String.toList)) := by
  rw [display, hp, String.toList_append, toList_path, toList_brackets, List.append_assoc]

/-- The text of a query up to a text that cannot be quoted. -/
theorem Query.BreaksAt.exists_openGroup {query : Query} (h : query.BreaksAt place value behind) :
    ∃ front, place.Opens front ∧ ∀ kept rest : List Char, value.toList = kept ++ '"' :: rest →
      '"' ∉ kept → ∃ g : OpenGroup, g.inside = front ++ '"' :: (kept ++ ['"']) ∧
        query.display.toList = g.text ++ (rest ++ '"' :: behind.toList) := by
  cases h with
  | @intro steps later step p c closed others _ _ behind hsteps hbefore hrole hp hconjuncts
      hclosed hbreaks =>
  obtain ⟨front, hopens, hfront⟩ := hbreaks.exists_front
  obtain ⟨hpath, hdot⟩ := Step.isPathRole_raw hrole
  refine ⟨front, hopens, fun kept rest hvalue hk => ?_⟩
  refine ⟨{
    raws := steps.map Step.raw
    slashes := step.raw.slashes
    role := step.raw.role
    closed := closed.map Predicate.display
    inside := front ++ '"' :: (kept ++ ['"'])
    spelling := List.forall_mem_map.2 fun s hs =>
      ⟨Step.isSpelling_raw (hbefore s hs), Step.isReadable_raw (hbefore s hs)⟩
    slashes_bounds := step.raw.slashes_bounds
    isPathRole := hpath
    slashes_of_dot := hdot
    balanced_closed := List.forall_mem_map.2 fun d hd =>
      ⟨Predicate.balanced_display (hclosed d hd), _, Predicate.read?_display (hclosed d hd)⟩
    balanced_inside := hopens.balanced.append (.quoted rfl hk .nil)
    solidLast_inside := ⟨front ++ '"' :: kept, '"', by simp, by decide⟩ }, rfl, ?_⟩
  have hstep := Step.toList_display_of_some hp
  rw [hconjuncts] at hstep
  simp [Query.display, hsteps, OpenGroup.text, OpenGroup.body, hstep, hfront, hvalue,
    Segment.bracketed, List.flatMap_map, Step.toList_display]

namespace TextPlace

/-- The short text that a predicate may begin with, up to the opening quote of a text. -/
def shortFront : TextPlace → String
  | .comparison => "text() = "
  | .function => "contains(text(), "

/-- A short path that breaks off behind a text in a group. -/
def stem (place : TextPlace) : String :=
  "//*[" ++ place.shortFront ++ "\"\""

theorem opens_shortFront (place : TextPlace) : place.Opens place.shortFront.toList := by
  cases place with
  | comparison => exact @opens_comparison .text rfl .eq
  | function => exact @opens_function .text rfl .contains

/-- The short path is the beginning of a path. -/
def shortGroup (place : TextPlace) : OpenGroup where
  raws := []
  slashes := 2
  role := "*"
  closed := []
  inside := place.shortFront.toList ++ '"' :: ([] ++ ['"'])
  spelling := List.forall_mem_nil _
  slashes_bounds := by decide
  isPathRole := Or.inl rfl
  slashes_of_dot := by decide
  balanced_closed := List.forall_mem_nil _
  balanced_inside := place.opens_shortFront.balanced.append (.quoted rfl List.not_mem_nil .nil)
  solidLast_inside := ⟨place.shortFront.toList ++ ['"'], '"', by simp, by decide⟩

theorem exists_parse_stem_iff (place : TextPlace) (text : String) :
    (∃ again, Query.parse (place.stem ++ text) = .ok again) ↔
      Continues (fun group => place.IsReadOn (Text.trimEnd group)) (Text.trimEnd text.toList) := by
  have htext : place.stem ++ text = String.ofList (place.shortGroup.text ++ text.toList) := by
    rw [← String.toList_inj]
    simp [stem, shortGroup, OpenGroup.text, OpenGroup.body, Segment.bracketed]
  rw [htext, place.shortGroup.exists_parse_iff_of_opens place.opens_shortFront List.not_mem_nil rfl]

/-- A path that goes on as it can goes on with a bracket or with a word. -/
theorem resumes_of_continues {text : List Char}
    (h : Continues (fun group => place.IsReadOn (Text.trimEnd group)) text) :
    place.Resumes text := by
  obtain ⟨step, rest, raws, htake, ⟨group, more, others, hgroup, hread, -, -⟩, -, -⟩ := h
  obtain ⟨gap, hgap, htrim⟩ := Text.exists_trimEnd_eq group
  obtain ⟨after, -, hstep⟩ := Text.exists_trimEnd_eq step
  have htext : text = Text.trimEnd group ++ (gap ++ ']' :: (more ++ (after ++ rest))) := by
    rw [← Segment.takeStep_append htake, hstep, ← Segment.takeGroup_append hgroup]
    conv_lhs => rw [htrim]
    simp
  rw [htext]
  exact IsReadOn.resumes hread hgap _

end TextPlace

namespace Query

variable {query : Query} {kept rest : String}

theorem BreaksAt.exists_parse_display_iff (h : query.BreaksAt place (kept ++ "\"" ++ rest) behind)
    (hk : '"' ∉ kept.toList) : (∃ again, parse query.display = .ok again) ↔
      Continues (fun group => place.IsReadOn (Text.trimEnd group))
        (Text.trimEnd (rest.toList ++ '"' :: behind.toList)) := by
  obtain ⟨front, hopens, hgroup⟩ := h.exists_openGroup
  obtain ⟨g, hg, hdisplay⟩ := hgroup kept.toList rest.toList (by simp) hk
  rw [← g.exists_parse_iff_of_opens hopens hk hg, ← hdisplay, String.ofList_toList]

/-- The text of a query is read exactly if a short path is read that goes on as the text does behind
the first double quote in the text that cannot be quoted. -/
theorem BreaksAt.exists_parse_iff (h : query.BreaksAt place (kept ++ "\"" ++ rest) behind)
    (hk : '"' ∉ kept.toList) : (∃ again, parse query.display = .ok again) ↔
      ∃ again, parse (place.stem ++ (rest ++ "\"" ++ behind)) = .ok again := by
  rw [h.exists_parse_display_iff hk, place.exists_parse_stem_iff]
  simp

/-- To be read it must go on with a bracket or a word. -/
theorem BreaksAt.resumes (h : query.BreaksAt place (kept ++ "\"" ++ rest) behind)
    (hk : '"' ∉ kept.toList) (hread : ∃ again, parse query.display = .ok again) :
    place.Resumes rest.toList := by
  have hcontinues := (h.exists_parse_display_iff hk).1 hread
  have hquote : Text.IsSolidLast (rest.toList ++ ['"']) := ⟨rest.toList, '"', rfl, by decide⟩
  have htrim : Text.trimEnd (rest.toList ++ '"' :: behind.toList) =
      rest.toList ++ '"' :: Text.trimEnd behind.toList := by
    rw [List.append_cons, hquote.trimEnd_append, ← List.append_cons]
  rw [htrim] at hcontinues
  exact TextPlace.resumes_of_append (TextPlace.resumes_of_continues hcontinues)

/-! ### Queries with a text that cannot be quoted -/

/-- The texts in the predicates of a query. -/
def texts (query : Query) : List String :=
  query.steps.flatMap fun step => (step.predicate.map Predicate.texts).getD []

theorem exists_not_isSpellable (h : ∃ s ∈ query.texts, HasBothQuotes s) :
    ∃ step ∈ query.steps, step.isSpellable = false := by
  obtain ⟨s, hs, hquotes⟩ := h
  obtain ⟨step, hstep, hs⟩ := List.mem_flatMap.1 hs
  refine ⟨step, hstep, ?_⟩
  cases hp : step.predicate with
  | none => simp [hp] at hs
  | some p =>
      have hmem : s ∈ p.texts := by simpa [hp] using hs
      have hspell : p.isSpellable = false := by
        rw [← Bool.not_eq_true, Predicate.isSpellable_iff]
        exact fun h => h.2 s hmem hquotes
      rw [Step.isSpellable, hp, Option.all_some, hspell, Bool.and_false]

/-- The text of a query with such a text is never read as the query itself.  It is not read at all
where everything before the text can be spelled and what stands behind the first double quote in it
does not begin as a query goes on; and where it does, what stands before makes no difference. -/
theorem parse_display_of_hasBothQuotes (h : ∃ s ∈ query.texts, HasBothQuotes s) :
    (∀ again, parse query.display = .ok again → again ≠ query) ∧
    (query.isNameable = true → ∃ place kept rest behind,
      query.BreaksAt place (kept ++ "\"" ++ rest) behind ∧ '"' ∉ kept.toList) ∧
    ∀ place kept rest behind, query.BreaksAt place (kept ++ "\"" ++ rest) behind →
      '"' ∉ kept.toList →
        (¬ place.Resumes rest.toList → ∃ error, parse query.display = .error error) ∧
        ((∃ again, parse query.display = .ok again) ↔
          ∃ again, parse (place.stem ++ (rest ++ "\"" ++ behind)) = .ok again) := by
  obtain ⟨step, hstep, hspell⟩ := exists_not_isSpellable h
  refine ⟨?_, fun hn => ?_, fun place kept rest behind hbreaks hk =>
    ⟨fun hno => ?_, hbreaks.exists_parse_iff hk⟩⟩
  · rintro again hread rfl
    rw [(isRead_of_parse hread step hstep).spellable] at hspell
    cases hspell
  · have hquery : query.isSpellable = false := List.all_eq_false.2 ⟨step, hstep, by simp [hspell]⟩
    obtain ⟨place, value, behind, hbreaks⟩ := exists_breaksAt hn hquery
    obtain ⟨kept, rest, hvalue, hk⟩ := List.eq_append_cons_of_mem hbreaks.hasBothQuotes.2
    have htext : value = String.ofList kept ++ "\"" ++ String.ofList rest := by
      rw [← String.toList_inj, hvalue]
      simp
    exact ⟨place, String.ofList kept, String.ofList rest, behind, htext ▸ hbreaks,
      by simpa using hk⟩
  · cases hread : parse query.display with
    | error error => exact ⟨error, rfl⟩
    | ok again => exact absurd (hbreaks.resumes hk ⟨again, hread⟩) hno

/-- A text that does not go on as a query. -/
theorem parse_display_of_hasBothQuotes_say :
    let query := single ⟨.descendant, .wildcard,
      some (.comparison (.named "name") .eq (.text "say \"it's\""))⟩
    (∃ s ∈ query.texts, HasBothQuotes s) ∧ query.isNameable = true ∧
      query.BreaksAt .comparison ("say " ++ "\"" ++ "it's\"") "]" ∧
      ¬ TextPlace.comparison.Resumes "it's\"".toList ∧
      (∀ again, parse query.display = .ok again → again ≠ query) ∧
      (query.isNameable = true → ∃ place kept rest behind,
        query.BreaksAt place (kept ++ "\"" ++ rest) behind ∧ '"' ∉ kept.toList) ∧
      ∀ place kept rest behind, query.BreaksAt place (kept ++ "\"" ++ rest) behind →
        '"' ∉ kept.toList →
          (¬ place.Resumes rest.toList → ∃ error, parse query.display = .error error) ∧
          ((∃ again, parse query.display = .ok again) ↔
            ∃ again, parse (place.stem ++ (rest ++ "\"" ++ behind)) = .ok again) := by
  intro query
  have hquotes : HasBothQuotes "say \"it's\"" := by
    constructor <;> decide +kernel
  have htexts : ∃ s ∈ query.texts, HasBothQuotes s :=
    ⟨_, by simp [query, texts, single, Predicate.texts], hquotes⟩
  have hbreaks : query.BreaksAt .comparison ("say " ++ "\"" ++ "it's\"") "]" :=
    @BreaksAt.intro query [] [] _ _ _ [] [] _ _ _ rfl (List.forall_mem_nil _) rfl rfl rfl
      (List.forall_mem_nil _) (.comparison (by decide) hquotes)
  refine ⟨htexts, by decide, hbreaks, ?_, parse_display_of_hasBothQuotes htexts⟩
  rintro (h | h | h) <;> exact absurd h (by decide +kernel)

/-- A text that goes on as a query, which is read as another query. -/
theorem parse_display_disjunction :
    ∃ query again : Query, "a\" or @name = \"it's" ∈ query.texts ∧
      HasBothQuotes "a\" or @name = \"it's" ∧
      query.display = "//*[@name = \"a\" or @name = \"it's\"]" ∧
      parse query.display = .ok again ∧ again ≠ query := by
  refine ⟨single ⟨.descendant, .wildcard,
      some (.comparison (.named "name") .eq (.text "a\" or @name = \"it's"))⟩,
    single ⟨.descendant, .wildcard, some (.or (.comparison (.named "name") .eq (.text "a"))
      (.comparison (.named "name") .eq (.text "it's")))⟩, ?_, ?_, ?_, ?_, ?_⟩
  · simp [texts, single, Predicate.texts]
  · constructor <;> decide +kernel
  all_goals decide +kernel

end Query

end AccessQuery
