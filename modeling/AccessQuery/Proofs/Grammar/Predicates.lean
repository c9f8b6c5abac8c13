/-
**Predicates are read back.**

A chain is read back item by item: after each item stands either the word of the chain or something
that is not that word.  Two kinds of chains make up a predicate, and what is read from its text are
the chains that the text shows, joined from the left.

Main results:

* `AccessQuery.Scan.chain_spelled` — a chain is read back, whatever its items are;
* `AccessQuery.Scan.predicate_display` — a predicate is read back up to its grouping;
* `AccessQuery.Predicate.read?_display` — and so it is as a text of its own.
-/

import AccessQuery.Proofs.Grammar.Tokens

set_option relaxedAutoImplicit false
set_option autoImplicit false

namespace AccessQuery.Scan

variable {α : Type} {rest : List Char}

/-! ### Chains -/

/-- A word that may stand between the items of a chain. -/
structure IsSeparator (w : String) : Prop where
  /-- The word is read, and the blanks behind it. -/
  read : ∀ text, keyword w (w.toList ++ ' ' :: text) = some ((), text.dropWhile isGap)
  /-- It does not begin with a blank. -/
  stops : ∀ text, Stops isGap (w.toList ++ text)

/-- An item of a chain is read back where it is followed by a text of some kind. -/
structure ReadsBack (operand : Scan Predicate) (spell : α → List Char) (value : α → Predicate)
    (Follows : List Char → Prop) (a : α) : Prop where
  /-- The item is read, and the blanks behind it. -/
  read : ∀ rest, Follows rest →
    operand (spell a ++ rest) = some (value a, rest.dropWhile isGap)
  /-- It does not begin with a blank. -/
  solid : Text.IsSolidFirst (spell a)

variable {operand : Scan Predicate} {w : String} {spell : α → List Char} {value : α → Predicate}
variable {Follows : List Char → Prop}

theorem follows_others (hmore : ∀ text, Follows (' ' :: (w.toList ++ ' ' :: text)))
    (hrest : Follows rest) (spell : α → List Char) (others : List α) :
    Follows (others.flatMap (fun a => ' ' :: w.toList ++ ' ' :: spell a) ++ rest) := by
  cases others with
  | nil => exact hrest
  | cons a others => simpa using hmore _

/-- The items of a chain behind the first one are read back. -/
theorem manyFrom_spelled (hw : IsSeparator w) {others : List α}
    (hread : ∀ a ∈ others, ReadsBack operand spell value Follows a)
    (hmore : ∀ text, Follows (' ' :: (w.toList ++ ' ' :: text))) (hrest : Follows rest)
    (hstop : keyword w (rest.dropWhile isGap) = none) :
    manyFrom (do keyword w; operand)
        ((others.flatMap (fun a => ' ' :: w.toList ++ ' ' :: spell a) ++ rest).dropWhile isGap) =
      (others.map value, rest.dropWhile isGap) := by
  induction others with
  | nil => exact manyFrom_of_none (bind_of_none hstop)
  | cons a others ih =>
      have ih := ih fun b hb => hread b (List.mem_cons_of_mem a hb)
      have ha := hread a List.mem_cons_self
      have hfollows := follows_others hmore hrest spell others
      -- what follows the item is one text from here on, whatever it was put together from
      generalize htail : others.flatMap (fun a => ' ' :: w.toList ++ ' ' :: spell a) ++ rest = tail
        at ih hfollows
      have htext : ((a :: others).flatMap (fun a => ' ' :: w.toList ++ ' ' :: spell a) ++
          rest).dropWhile isGap = w.toList ++ ' ' :: (spell a ++ tail) := by
        rw [← (hw.stops (' ' :: (spell a ++ tail))).dropWhile_eq, ← htail]
        simp [isGap]
      have hitem : (do keyword w; operand) (w.toList ++ ' ' :: (spell a ++ tail)) =
          some (value a, tail.dropWhile isGap) := by
        rw [bind_of_eq (hw.read _), (ha.solid.append tail).stops.dropWhile_eq,
          ha.read tail hfollows]
      -- the reader of many items goes on only where the rest is shorter
      have hshorter : (tail.dropWhile isGap).length <
          (w.toList ++ ' ' :: (spell a ++ tail)).length := by
        have hle := (List.dropWhile_sublist isGap (l := tail)).length_le
        simp only [List.length_append, List.length_cons]
        omega
      rw [htext, manyFrom_of_eq hitem hshorter, ih]
      rfl

/-- A chain is read back. -/
theorem chain_spelled (hw : IsSeparator w) {items : Chain α}
    (hread : ∀ a ∈ items.toList, ReadsBack operand spell value Follows a)
    (hmore : ∀ text, Follows (' ' :: (w.toList ++ ' ' :: text))) (hrest : Follows rest)
    (hstop : keyword w (rest.dropWhile isGap) = none)
    (join : Predicate → Predicate → Predicate) :
    chain operand w join (items.spelled w spell ++ rest) =
      some ((items.map value).joined join, rest.dropWhile isGap) := by
  obtain ⟨first, others⟩ := items
  have hfirst := (hread first List.mem_cons_self).read _
    (follows_others hmore hrest spell others)
  have hothers : ∀ a ∈ others, ReadsBack operand spell value Follows a :=
    fun a ha => hread a (List.mem_cons_of_mem first ha)
  have hmany : many (do keyword w; operand) ((others.flatMap (fun a =>
      ' ' :: w.toList ++ ' ' :: spell a) ++ rest).dropWhile isGap) =
      some (others.map value, rest.dropWhile isGap) :=
    congrArg some (manyFrom_spelled hw hothers hmore hrest hstop)
  rw [Chain.spelled, List.append_assoc, chain, bind_of_eq hfirst, bind_of_eq hmany]
  rfl

/-! ### Conjunctions and predicates -/

theorem isSeparator_and : IsSeparator "and" :=
  ⟨fun _ => rfl, fun _ => stops_cons.2 (by decide)⟩

theorem isSeparator_or : IsSeparator "or" :=
  ⟨fun _ => rfl, fun _ => stops_cons.2 (by decide)⟩

/-- What may follow a conjunction: nothing, or an alternative. -/
def EndsAlternative (rest : List Char) : Prop :=
  rest = [] ∨ ∃ text, rest = ' ' :: ("or".toList ++ ' ' :: text)

theorem EndsAlternative.ends (h : EndsAlternative rest) : Ends rest := by
  rcases h with rfl | ⟨text, rfl⟩
  · simp [Ends]
  · simp [Ends, isGap]

theorem EndsAlternative.keyword_and (h : EndsAlternative rest) :
    keyword "and" (rest.dropWhile isGap) = none := by
  rcases h with rfl | ⟨text, rfl⟩ <;> rfl

/-- A test that can be spelled. -/
theorem readsBack_term {t : Predicate} (h : t.isTerm = true ∧ t.isSpellable = true) :
    ReadsBack term (fun t => t.display.toList) id Ends t where
  read _ hrest := term_display h.1 h.2 hrest
  solid := t.isSolidFirst_display

/-- A chain of tests that can be spelled. -/
theorem readsBack_conjunction {items : Chain Predicate}
    (h : ∀ t ∈ items.toList, t.isTerm = true ∧ t.isSpellable = true) :
    ReadsBack conjunction (Chain.spelled "and" fun t => t.display.toList) (Chain.joined .and)
      EndsAlternative items where
  read rest hrest := by
    have hread := chain_spelled isSeparator_and (fun t ht => readsBack_term (h t ht))
      (fun text => by simp [Ends, isGap]) hrest.ends hrest.keyword_and .and
    rw [show items.map id = items from by simp [Chain.map]] at hread
    exact hread
  solid := items.first.isSolidFirst_display.append _

/-- A predicate is read back up to its grouping. -/
theorem predicate_display {p : Predicate} (h : p.isSpellable = true) :
    predicate p.display.toList = some (p.regroup, []) := by
  have hitems : ∀ items ∈ p.alternatives.toList, ReadsBack conjunction
      (Chain.spelled "and" fun t => t.display.toList) (Chain.joined .and) EndsAlternative items :=
    fun items hitems => readsBack_conjunction fun t ht =>
      Predicate.isSpellable_of_mem_alternatives h (Chain.mem_flatten hitems ht)
  have hread := chain_spelled isSeparator_or hitems (fun text => Or.inr ⟨text, rfl⟩)
    (Or.inl (Eq.refl [])) rfl .or
  rw [List.append_nil, ← Predicate.display_eq_spelled] at hread
  exact hread

end AccessQuery.Scan

namespace AccessQuery.Predicate

/-- The text of a predicate that can be spelled is the text of its regrouping. -/
theorem read?_display {p : Predicate} (h : p.isSpellable = true) :
    read? p.display = .ok (some p.regroup) := by
  have htrim := Text.trim_eq_self p.isSolidFirst_display p.isSolidLast_display
  obtain ⟨c, rest, hc, _⟩ := p.isSolidFirst_display
  have hread := Scan.predicate_display h
  rw [hc] at htrim hread
  rw [read?, hc, htrim]
  dsimp only
  rw [hread]

end AccessQuery.Predicate
