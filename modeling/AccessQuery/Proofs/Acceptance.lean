/-
**Exactly what the grammar derives is read.**

Between the tests of a predicate stand words, and behind the last one nothing.  Neither is anything
that a test runs into, so tests are read where their derivations end, and so are chains of them, as
long as what follows is not the word of the chain.  As the text of a predicate is read in full,
nothing has to be given back: a word without an operand behind it leaves a rest, and then there is
no derivation either.

Since what is derived is what a reader yields, a text stands for one predicate at most.

Main definitions:

* `AccessQuery.Grammar.Follows` — a reader follows derivations up to texts of some kind;
* `AccessQuery.Grammar.EndsTest`, `AccessQuery.Grammar.EndsConjunction` — the texts that tests and
  conjunctions do not run into.

Main results:

* `AccessQuery.Grammar.Joined.chain_eq`, `AccessQuery.Grammar.Follows.chain` — chains are followed;
* `AccessQuery.Grammar.predicate_iff_derives` — exactly what has a derivation is read;
* `AccessQuery.Grammar.Derives.unique` — a text stands for one predicate at most;
* `AccessQuery.Predicate.read?_iff_derives` — the outcomes of reading the text of a predicate.
-/

import AccessQuery.Proofs.Grammar.Completeness

set_option relaxedAutoImplicit false
set_option autoImplicit false

namespace AccessQuery.Grammar

open Scan

variable {text rest : List Char} {p q : Predicate}

/-! ### Chains -/

theorem keyword_append {w : String} {behind : List Char} (hw : Stops isGap (w.toList ++ behind))
    (hbehind : Stops isNameChar behind) :
    keyword w (w.toList ++ behind) = some ((), behind.dropWhile isGap) := by
  refine padded_read .none hw ?_
  rw [bind_of_eq (word_append w behind), notBefore_of_stops hbehind]

/-- A reader follows derivations up to texts of some kind. -/
structure Follows (operand : Scan Predicate) (Item : Reading Predicate)
    (Ends : List Char → Prop) : Prop where
  /-- What has a derivation up to such a text is read up to there. -/
  read : ∀ {text rest : List Char} {p : Predicate}, Item text p rest → Ends rest →
    operand text = some (p, rest)
  /-- Blanks before an item make no difference. -/
  skipsGap : SkipsGap operand
  /-- Nothing is put back. -/
  length_le : ∀ {text rest : List Char} {p : Predicate}, Item text p rest →
    rest.length ≤ text.length
  /-- The texts do not begin with blanks. -/
  stops : ∀ {rest : List Char}, Ends rest → Stops isGap rest

section Chains

variable {operand : Scan Predicate} {Item : Reading Predicate} {w : String}
variable {join : Predicate → Predicate → Predicate} {Ends : List Char → Prop}

/-- Behind a chain that has a derivation the reader goes on as it would behind a first item. -/
theorem Joined.chain_eq (h : Joined Item w join text q rest) (hfollows : Follows operand Item Ends)
    (hw : w.toList ≠ []) (hword : ∀ behind, Ends (w.toList ++ behind)) (hrest : Ends rest) :
    chain operand w join text =
      some ((manyFrom (do keyword w; operand) rest).1.foldl join q,
        (manyFrom (do keyword w; operand) rest).2) := by
  induction h with
  | one hp =>
      rw [chain, bind_of_eq (hfollows.read hp hrest)]
      rfl
  | @more _ behind rest l r _ hbehind hr ih =>
      have hnext : (do keyword w; operand) (w.toList ++ behind) = some (r, rest) := by
        rw [bind_of_eq (keyword_append (hfollows.stops (hword behind)) hbehind),
          hfollows.skipsGap, hfollows.read hr hrest]
      -- the reader of many items goes on only where the rest is shorter
      have hless : rest.length < (w.toList ++ behind).length := by
        have hr := hfollows.length_le hr
        have hw := List.length_pos_of_ne_nil hw
        rw [List.length_append]
        omega
      rw [ih (hword behind), manyFrom_of_eq hnext hless]
      rfl

/-- Where the items are followed, so are chains of them, up to texts that do not go on with the
word of the chain. -/
theorem Follows.chain (h : Follows operand Item Ends) (hw : w.toList ≠ [])
    (hword : ∀ behind, Ends (w.toList ++ behind)) (join : Predicate → Predicate → Predicate) :
    Follows (chain operand w join) (Joined Item w join)
      fun rest => Ends rest ∧ keyword w rest = none where
  read hp hrest := by
    rw [hp.chain_eq h hw hword hrest.1, manyFrom_of_none (bind_of_none hrest.2)]
    rfl
  skipsGap := h.skipsGap.chain w join
  length_le hp := hp.length_le h.length_le
  stops hrest := h.stops hrest.1

end Chains

/-- A text that a test does not run into. -/
def EndsTest (rest : List Char) : Prop :=
  Stops isGap rest ∧ Stops Char.isDigit rest

theorem follows_term : Follows term (Padded Test) EndsTest where
  read := by
    rintro text rest t ⟨hbefore, htest, hbehind⟩ hrest
    obtain ⟨hsolid, outside, hread, houtside⟩ := htest.read (hbehind.stops hrest.2 rfl)
    rw [term_eq, padded_read hbefore hsolid hread, houtside, hbehind.dropWhile_eq hrest.1]
  skipsGap := skipsGap_term
  length_le h := h.length_le Test.length_le
  stops h := h.1

/-- A text that a conjunction does not run into. -/
def EndsConjunction (rest : List Char) : Prop :=
  EndsTest rest ∧ keyword "and" rest = none

theorem follows_conjunction : Follows conjunction Conjunction EndsConjunction :=
  follows_term.chain (by decide) (fun _ => ⟨stops_cons.2 rfl, stops_cons.2 rfl⟩) .and

theorem follows_predicate : Follows predicate Disjunction
    fun rest => EndsConjunction rest ∧ keyword "or" rest = none :=
  follows_conjunction.chain (by decide) (fun _ => ⟨⟨stops_cons.2 rfl, stops_cons.2 rfl⟩, rfl⟩) .or

/-! ### Whole texts -/

/-- A text is read in full as a predicate exactly if it stands for it. -/
theorem predicate_iff_derives :
    predicate text = some (q, []) ↔ Derives text q :=
  ⟨disjunction_of_predicate, fun h =>
    follows_predicate.read h ⟨⟨⟨stops_nil _, stops_nil _⟩, rfl⟩, rfl⟩⟩

/-- A text stands for one predicate at most, as one at most is read. -/
theorem Derives.unique (hp : Derives text p) (hq : Derives text q) : p = q := by
  have hread := (predicate_iff_derives.2 hp).symm.trans (predicate_iff_derives.2 hq)
  exact (Prod.mk.inj (Option.some.inj hread)).1

end AccessQuery.Grammar

namespace AccessQuery.Predicate

open Grammar (Derives)

theorem read?_eq_ok_none_iff {raw : String} :
    read? raw = .ok none ↔ ∀ c ∈ raw.toList, Text.isBlank c = true := by
  rw [← Text.trim_eq_nil_iff, read?]
  split
  · next h => simp [h]
  · next h =>
      refine ⟨fun hread => ?_, fun hnil => absurd hnil h⟩
      split at hread <;> cases hread

theorem read?_of_nonblank {raw : String} (h : Text.trim raw.toList ≠ []) :
    read? raw = match Scan.predicate (Text.trim raw.toList) with
      | some (p, []) => .ok (some p)
      | _ => .error (.invalidPredicate raw) := by
  rw [read?]
  split
  · next hnil => exact absurd hnil h
  · rfl

/-- A text stands for a predicate exactly if the predicate is read. -/
theorem read?_eq_ok_some_iff {raw : String} {p : Predicate} :
    read? raw = .ok (some p) ↔ Derives (Text.trim raw.toList) p := by
  rw [← Grammar.predicate_iff_derives]
  by_cases h : Text.trim raw.toList = []
  · rw [h, read?, h]
    exact ⟨nofun, nofun⟩
  · rw [read?_of_nonblank h]
    split
    · next q hq =>
        rw [hq]
        simp
    · next hno =>
        refine ⟨nofun, fun hp => absurd hp (hno p)⟩

theorem eq_of_read?_eq_error {raw : String} {e : QueryError} (h : read? raw = .error e) :
    e = .invalidPredicate raw := by
  rw [read?] at h
  split at h
  · cases h
  · split at h
    · cases h
    · exact (Except.error.inj h).symm

/-- The outcomes of reading the text of a predicate.  A blank text is no predicate at all; a text
that stands for a predicate, and it stands for one only, is read as this one; every other text is
refused. -/
theorem read?_iff_derives (raw : String) :
    (read? raw = .ok none ↔ ∀ c ∈ raw.toList, Text.isBlank c = true) ∧
    (∀ p, read? raw = .ok (some p) ↔ Derives (Text.trim raw.toList) p) ∧
    (∀ p q, Derives (Text.trim raw.toList) p → Derives (Text.trim raw.toList) q → p = q) ∧
    (∀ e, read? raw = .error e ↔ e = .invalidPredicate raw ∧
      (¬ ∀ c ∈ raw.toList, Text.isBlank c = true) ∧ ∀ p, ¬ Derives (Text.trim raw.toList) p) := by
  refine ⟨read?_eq_ok_none_iff, fun p => read?_eq_ok_some_iff, fun p q => Derives.unique,
    fun e => ?_⟩
  rw [← read?_eq_ok_none_iff]
  constructor
  · intro h
    refine ⟨eq_of_read?_eq_error h, fun hnone => ?_, fun p hp => ?_⟩
    · cases h.symm.trans hnone
    · cases h.symm.trans (read?_eq_ok_some_iff.2 hp)
  · rintro ⟨rfl, hsome, hno⟩
    match hread : read? raw with
    | .ok none => exact absurd hread hsome
    | .ok (some p) => exact absurd (read?_eq_ok_some_iff.1 hread) (hno p)
    | .error e => rw [eq_of_read?_eq_error hread]

end AccessQuery.Predicate
