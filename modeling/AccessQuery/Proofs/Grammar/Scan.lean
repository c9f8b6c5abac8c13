/-
**Readers.**

How the readers of predicates act on a text, and what they yield.  The equations follow a reader
through its text from the left; they are what is used when the text is known.  Where only the
outcome is known, a property of everything that a reader yields follows from the properties of its
parts.

Main definitions:

* `AccessQuery.Scan.Yields` — whatever a reader yields has a property.

Main results:

* `AccessQuery.Scan.bind_of_eq`, `AccessQuery.Scan.orElse_of_none` — readers in sequence, and
  readers tried one after another;
* `AccessQuery.Scan.run_append` — runs at the beginning of a text;
* `AccessQuery.Scan.Yields.bind`, `AccessQuery.Scan.Yields.chain` — what composed readers yield.
-/

import AccessQuery.Predicate.Reader

set_option relaxedAutoImplicit false
set_option autoImplicit false

namespace AccessQuery.Scan

variable {α β : Type} {p q : Scan α} {f : α → Scan β} {a : α} {text rest : List Char}
variable {test : Char → Bool}

/-! ### Equations -/

theorem bind_eq (p : Scan α) (f : α → Scan β) (text : List Char) :
    (p >>= f) text = (p text).bind fun r => f r.1 r.2 :=
  rfl

theorem bind_of_eq (h : p text = some (a, rest)) : (p >>= f) text = f a rest := by
  rw [bind_eq, h]
  rfl

theorem bind_of_none (h : p text = none) : (p >>= f) text = none := by
  rw [bind_eq, h]
  rfl

theorem orElse_eq (p q : Scan α) (text : List Char) :
    (p <|> q) text = (p text).orElse fun _ => q text :=
  rfl

theorem orElse_of_eq (h : p text = some (a, rest)) : (p <|> q) text = some (a, rest) := by
  rw [orElse_eq, h]
  rfl

theorem orElse_of_none (h : p text = none) : (p <|> q) text = q text := by
  rw [orElse_eq, h]
  rfl

/-! ### Runs and words -/

/-- A text is at its end, or goes on with a character that does not pass a test. -/
def Stops (test : Char → Bool) (rest : List Char) : Prop :=
  ∀ c ∈ rest.head?, test c = false

@[simp] theorem stops_nil (test : Char → Bool) : Stops test [] := by
  simp [Stops]

@[simp] theorem stops_cons {c : Char} : Stops test (c :: rest) ↔ test c = false := by
  simp [Stops]

theorem Stops.mono {test' : Char → Bool} (h : Stops test rest)
    (ht : ∀ c, test' c = true → test c = true) : Stops test' rest := by
  intro c hc
  cases hc' : test' c with
  | false => rfl
  | true => exact absurd ((ht c hc').symm.trans (h c hc)) (by decide)

theorem Stops.dropWhile_eq (h : Stops test rest) : rest.dropWhile test = rest := by
  cases rest with
  | nil => rfl
  | cons c rest => rw [List.dropWhile_cons, if_neg (by simp [stops_cons.1 h])]

theorem stops_dropWhile (test : Char → Bool) (text : List Char) :
    Stops test (text.dropWhile test) := by
  intro c hc
  have h := List.head?_dropWhile_not test text
  rw [Option.mem_def.1 hc] at h
  exact h

theorem Stops.takeWhile_eq (h : Stops test rest) : rest.takeWhile test = [] := by
  cases rest with
  | nil => rfl
  | cons c rest => rw [List.takeWhile_cons, if_neg (by simp [stops_cons.1 h])]

/-- A run ends where the text stops. -/
theorem run_append {s : List Char} (hs : ∀ c ∈ s, test c = true) (h : Stops test rest) :
    run test (s ++ rest) = some (s, rest) := by
  rw [run, List.takeWhile_append_of_pos hs, List.dropWhile_append_of_pos hs, h.takeWhile_eq,
    h.dropWhile_eq, List.append_nil]

theorem word_cons_of_ne {w : String} {c : Char} (h : some c ≠ w.toList.head?)
    (hw : w.toList ≠ []) : word w (c :: rest) = none := by
  rw [word, if_neg]
  intro hp
  obtain ⟨d, ws, hd⟩ := List.exists_cons_of_ne_nil hw
  rw [hd, List.isPrefixOf_cons_cons, Bool.and_eq_true, beq_iff_eq] at hp
  rw [hd, List.head?_cons] at h
  exact h (congrArg some hp.1.symm)

theorem satisfy_cons {c : Char} (h : test c = true) (rest : List Char) :
    satisfy test (c :: rest) = some (c, rest) := by
  rw [satisfy, if_pos h]

theorem char_cons (c : Char) (rest : List Char) : char c (c :: rest) = some ((), rest) := by
  rw [char, bind_eq, satisfy, if_pos (beq_self_eq_true c)]
  rfl

theorem char_cons_of_ne {c d : Char} (h : d ≠ c) : char c (d :: rest) = none := by
  rw [char, bind_eq, satisfy, if_neg (by simpa using h)]
  rfl

theorem notBefore_of_stops (h : Stops test rest) : notBefore test rest = some ((), rest) := by
  cases rest with
  | nil => rfl
  | cons c rest => rw [notBefore, if_neg (by simp [stops_cons.1 h])]

theorem blanks_eq (text : List Char) : blanks text = some ((), text.dropWhile isGap) :=
  rfl

/-- A reader that stands between blanks. -/
theorem padded_of_eq (h : p (text.dropWhile isGap) = some (a, rest)) :
    padded p text = some (a, rest.dropWhile isGap) := by
  rw [padded, bind_of_eq (blanks_eq text), bind_of_eq h, bind_of_eq (blanks_eq rest)]
  rfl

/-- Blanks that have been passed over are not missed. -/
theorem padded_dropWhile (p : Scan α) (text : List Char) :
    padded p (text.dropWhile isGap) = padded p text := by
  rw [padded, bind_of_eq (blanks_eq _), bind_of_eq (blanks_eq text),
    (stops_dropWhile isGap text).dropWhile_eq]

theorem padded_char {c : Char} (hc : isGap c = false) (rest : List Char) :
    padded (char c) (c :: rest) = some ((), rest.dropWhile isGap) := by
  refine padded_of_eq ?_
  rw [Stops.dropWhile_eq (stops_cons.2 hc), char_cons]

theorem manyFrom_of_none (h : p text = none) : manyFrom p text = ([], text) := by
  rw [manyFrom.eq_def, h]

theorem manyFrom_of_eq (h : p text = some (a, rest)) (hl : rest.length < text.length) :
    manyFrom p text = (a :: (manyFrom p rest).1, (manyFrom p rest).2) := by
  rw [manyFrom.eq_def, h]
  dsimp only
  rw [if_pos hl]

/-! ### What readers yield -/

/-- Whatever a reader yields has a property. -/
def Yields (p : Scan α) (P : α → Prop) : Prop :=
  ∀ text a rest, p text = some (a, rest) → P a

namespace Yields

variable {P P' : α → Prop} {Q : β → Prop}

theorem mono (h : Yields p P) (hP : ∀ a, P a → P' a) : Yields p P' :=
  fun text a rest he => hP a (h text a rest he)

theorem anything (p : Scan α) : Yields p fun _ => True :=
  fun _ _ _ _ => trivial

theorem pure (h : P a) : Yields (pure a : Scan α) P := by
  intro text b rest he
  cases he
  exact h

theorem failure : Yields (failure : Scan α) P := by
  intro text a rest he
  cases he

theorem bind (hp : Yields p P) (hf : ∀ a, P a → Yields (f a) Q) : Yields (p >>= f) Q := by
  intro text b rest he
  rw [bind_eq] at he
  obtain ⟨⟨a, middle⟩, ha, hb⟩ := Option.bind_eq_some_iff.1 he
  exact hf a (hp text a middle ha) middle b rest hb

/-- Nothing is asked of the first of two readers. -/
theorem after (hf : ∀ a, Yields (f a) Q) : Yields (p >>= f) Q :=
  (anything p).bind fun a _ => hf a

theorem orElse (hp : Yields p P) (hq : Yields q P) : Yields (p <|> q) P := by
  intro text a rest he
  cases hr : p text with
  | none =>
      rw [orElse_of_none hr] at he
      exact hq text a rest he
  | some r => exact hp text a rest (hr.trans ((orElse_of_eq hr).symm.trans he))

theorem padded (hp : Yields p P) : Yields (padded p) P :=
  after fun _ => hp.bind fun _ ha => after fun _ => pure ha

theorem run (test : Char → Bool) : Yields (run test) fun s => ∀ c ∈ s, test c = true := by
  intro text s rest he c hc
  cases he
  exact List.all_eq_true.1 List.all_takeWhile c hc

theorem satisfy (test : Char → Bool) : Yields (satisfy test) fun c => test c = true := by
  intro text c rest he
  unfold Scan.satisfy at he
  split at he
  · split at he
    · cases he
      assumption
    · cases he
  · cases he

theorem manyFrom (hp : Yields p P) (text : List Char) : ∀ a ∈ (manyFrom p text).1, P a := by
  fun_induction Scan.manyFrom p text with
  | case1 => simp
  | case2 text a rest he _ others ih =>
      intro b hb
      rcases List.mem_cons.1 hb with rfl | hb
      · exact hp _ _ _ he
      · exact ih b hb
  | case3 => simp

theorem many (hp : Yields p P) : Yields (many p) fun items => ∀ a ∈ items, P a := by
  intro text items rest he
  obtain rfl : (Scan.manyFrom p text).1 = items := congrArg Prod.fst (Option.some.inj he)
  exact hp.manyFrom text

/-- Chains are joined from what their operand yields. -/
theorem chain {operand : Scan Predicate} {P : Predicate → Prop} (hp : Yields operand P)
    (w : String) (join : Predicate → Predicate → Predicate) :
    Yields (chain operand w join) fun joined =>
      ∃ (first : Predicate) (others : List Predicate),
        P first ∧ (∀ p ∈ others, P p) ∧ joined = others.foldl join first :=
  hp.bind fun first hfirst =>
    (many (after fun _ => hp)).bind fun others hothers =>
      pure ⟨first, others, hfirst, hothers, rfl⟩

end Yields

end AccessQuery.Scan
