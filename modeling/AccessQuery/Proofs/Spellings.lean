/-
**Snapshots are maps up to spelling.**

An attribute goes by several names: capitals do not count, and some names have older spellings.
What is written under any of them is kept under the canonical one, so a snapshot that was made by
writing attributes has no other keys.  Looking up a name as it is given therefore never finds
anything that its canonical spelling would not, and the snapshot is a map whose keys are names up
to spelling: a later value replaces an earlier one under every name that is spelled alike.

Main definitions:

* `AccessQuery.Snapshot.IsCanonical` — every attribute is kept under the canonical spelling of its
  name.

Main results:

* `AccessQuery.lastWritten_eq_some_iff`, `AccessQuery.lastWritten_eq_none_iff` — which value was
  written last, and when there is none;
* `AccessQuery.Snapshot.IsCanonical.insert`, `AccessQuery.Snapshot.IsCanonical.insertAll` — writing
  leaves no other keys;
* `AccessQuery.Snapshot.IsCanonical.get?_eq` — all spellings read the same value;
* `AccessQuery.Snapshot.IsCanonical.eq_iff` — what is read determines the snapshot;
* `AccessQuery.Snapshot.insertAll_read_back` — all of this for snapshots that were written.
-/

import AccessQuery.Proofs.Reporting

set_option relaxedAutoImplicit false
set_option autoImplicit false

namespace AccessQuery

/-! ### The value written last -/

/-- A value is the one written last under a name if nothing has been written under it since. -/
theorem lastWritten_eq_some_iff {key : String} {writes : List (String × AttrValue)}
    {value : AttrValue} : lastWritten key writes = some value ↔
      ∃ before name after, writes = before ++ (name, value) :: after ∧ canonicalName name = key ∧
        ∀ entry ∈ after, canonicalName entry.1 ≠ key := by
  rw [lastWritten, List.findSome?_eq_some_iff]
  constructor
  · rintro ⟨after, ⟨name, written⟩, before, hwrites, hfound, hafter⟩
    obtain ⟨hname, hvalue⟩ := Option.ite_none_right_eq_some.1 hfound
    obtain rfl : written = value := Option.some.inj hvalue
    refine ⟨before.reverse, name, after.reverse, ?_, hname, fun entry he hk => ?_⟩
    · rw [← List.reverse_reverse writes, hwrites]
      simp
    · simpa [hk] using hafter entry (List.mem_reverse.1 he)
  · rintro ⟨before, name, after, rfl, hname, hafter⟩
    refine ⟨after.reverse, (name, value), before.reverse, by simp, if_pos hname, fun entry he => ?_⟩
    exact if_neg (hafter entry (List.mem_reverse.1 he))

theorem lastWritten_eq_none_iff {key : String} {writes : List (String × AttrValue)} :
    lastWritten key writes = none ↔ ∀ entry ∈ writes, canonicalName entry.1 ≠ key := by
  simp [lastWritten, List.findSome?_eq_none_iff]

namespace Snapshot

/-! ### Keys -/

/-- Every attribute is kept under the canonical spelling of its name. -/
def IsCanonical (snapshot : Snapshot) : Prop :=
  ∀ (key : String) (value : AttrValue),
    snapshot.entries[key]? = some value → canonicalName key = key

theorem isCanonical_empty : empty.IsCanonical := by
  intro key value h
  simp [empty] at h

namespace IsCanonical

variable {snapshot a b : Snapshot}

theorem insert (h : snapshot.IsCanonical) (name : String) (value : AttrValue) :
    (snapshot.insert name value).IsCanonical := by
  intro key other hread
  rw [entries_insert] at hread
  split at hread
  · next hkey => rw [← hkey, canonicalName_canonicalName]
  · exact h key other hread

theorem insertAll (h : snapshot.IsCanonical) (writes : List (String × AttrValue)) :
    (snapshot.insertAll writes).IsCanonical := by
  induction writes generalizing snapshot with
  | nil => exact h
  | cons entry rest ih => exact ih (h.insert entry.1 entry.2)

/-! ### Reading -/

/-- The name as it is given finds nothing that its canonical spelling does not find. -/
theorem get?_eq (h : snapshot.IsCanonical) (name : String) :
    snapshot.get? name = snapshot.entries[canonicalName name]? := by
  unfold get?
  cases hread : snapshot.entries[name]? with
  | none => rfl
  | some value =>
      rw [h name value hread, hread]
      rfl

theorem get?_congr (h : snapshot.IsCanonical) {name spelling : String}
    (hs : canonicalName spelling = canonicalName name) :
    snapshot.get? spelling = snapshot.get? name := by
  rw [h.get?_eq, h.get?_eq, hs]

/-- What is kept under a name that is not canonical: nothing. -/
theorem entries_eq_none (h : snapshot.IsCanonical) {key : String} (hk : canonicalName key ≠ key) :
    snapshot.entries[key]? = none :=
  Option.eq_none_iff_forall_ne_some.2 fun value hread => hk (h key value hread)

/-- Two snapshots in which every name reads the same value are one. -/
theorem eq_iff (ha : a.IsCanonical) (hb : b.IsCanonical) :
    a = b ↔ ∀ name, a.get? name = b.get? name := by
  refine ⟨fun he name => by rw [he], fun h => ext_entries fun key => ?_⟩
  by_cases hk : canonicalName key = key
  · have hread := h key
    rwa [ha.get?_eq, hb.get?_eq, hk] at hread
  · rw [ha.entries_eq_none hk, hb.entries_eq_none hk]

end IsCanonical

/-! ### Snapshots that were written -/

theorem get?_insertAll (writes : List (String × AttrValue)) (name : String) :
    (empty.insertAll writes).get? name = lastWritten (canonicalName name) writes := by
  rw [(isCanonical_empty.insertAll writes).get?_eq, entries_insertAll]
  exact Option.or_none

/-- Of a snapshot that was made by writing attributes, every name reads the value that was written
last under a name spelled alike, and nothing if there is none; so all spellings of a name read the
same value, where a canonical spelling is its own, and two such snapshots are one if every name
reads the same of both. -/
theorem insertAll_read_back (writes others : List (String × AttrValue)) :
    (∀ name value, (empty.insertAll writes).get? name = some value ↔
      ∃ before spelling after, writes = before ++ (spelling, value) :: after ∧
        canonicalName spelling = canonicalName name ∧
        ∀ entry ∈ after, canonicalName entry.1 ≠ canonicalName name) ∧
    (∀ name, (empty.insertAll writes).get? name = none ↔
      ∀ entry ∈ writes, canonicalName entry.1 ≠ canonicalName name) ∧
    (∀ name spelling, canonicalName spelling = canonicalName name →
      (empty.insertAll writes).get? spelling = (empty.insertAll writes).get? name) ∧
    (∀ name, canonicalName (canonicalName name) = canonicalName name) ∧
    (empty.insertAll writes = empty.insertAll others ↔
      ∀ name, (empty.insertAll writes).get? name = (empty.insertAll others).get? name) := by
  have hwrites := isCanonical_empty.insertAll writes
  refine ⟨fun name value => ?_, fun name => ?_, fun name spelling => hwrites.get?_congr,
    canonicalName_canonicalName, hwrites.eq_iff (isCanonical_empty.insertAll others)⟩
  · rw [get?_insertAll, lastWritten_eq_some_iff]
  · rw [get?_insertAll, lastWritten_eq_none_iff]

end Snapshot

end AccessQuery
