/-
**The references that a bridge hands out.**

A bridge may be asked anything in any order, about handles that are stale, forged or of another
session, and it may be told to fail at any time.  However it is used, its counters agree with what
is live, no reference is handed out twice, and a reference denotes one node from its acquisition to
its first release and nothing from then on.

A request does one of three things to the books: it acquires handles to some nodes, it releases a
live reference, or it fails and leaves them alone.  What holds over a whole use follows from that.

Main definitions:

* `AccessQuery.Bridge.Request`, `AccessQuery.Bridge.Request.answer` — what is asked of a bridge;
* `AccessQuery.Bridge.SameBooks` — bridges that differ in the record and in failures at most;
* `AccessQuery.Bridge.served`, `AccessQuery.Bridge.granted` — the bridge after some requests, and
  the references that they were granted.

Main results:

* `AccessQuery.Bridge.answer_cases` — what a request does to the books;
* `AccessQuery.Bridge.Balanced.served` — the counters agree with what is live;
* `AccessQuery.Bridge.granted_eq` — references are numbered in the order of their acquisition;
* `AccessQuery.Bridge.live_served` — what a reference denotes after some requests;
* `AccessQuery.Bridge.references_accounted` — all of this over every use of a new bridge.
-/

import AccessQuery.Proofs.Custody

set_option relaxedAutoImplicit false
set_option autoImplicit false

namespace AccessQuery.Bridge

variable {tree : Tree}

/-! ### Requests -/

/-- What is asked of a bridge.  A failure is set up for a place, whether or not the tree has it. -/
inductive Request (tree : Tree)
  /-- A handle to the first node of the table, if there is one. -/
  | root
  | acquire (node : tree.NodeId)
  | children (handle : Handle)
  | parent (handle : Handle)
  | attributes (handle : Handle)
  | siblingIndex (handle : Handle)
  | sameObject (a b : Handle)
  | release (handle : Handle)
  | failOn (op : BridgeOp) (place : Nat) (code : Int32)

namespace Request

/-- The handles that a request yields, or why it fails. -/
def answer : Request tree → BridgeM tree (Except BridgeError (List Handle))
  | .root => do return .ok (← acquireAll tree.root?.toList)
  | .acquire node => do return .ok (← acquireAll [node])
  | .children handle => Bridge.children handle
  | .parent handle => do return (← Bridge.parent handle).map Option.toList
  | .attributes handle => do return (← Bridge.attributes handle).map fun _ => []
  | .siblingIndex handle => do return (← Bridge.siblingIndex handle).map fun _ => []
  | .sameObject a b => do return (← Bridge.sameObject a b).map fun _ => []
  | .release handle => do return (← Bridge.release handle).map fun _ => []
  | .failOn op place code => do
      modify (·.failOn op place code)
      return .ok []

/-- Whether a request gives a reference back. -/
def releases (ref : NativeRef) : Request tree → Bool
  | .release handle => handle.ref == ref
  | _ => false

/-- A live reference is given back, and the bridge has been told to fail. -/
def IsInjectedFailure (bridge : Bridge tree) (error : BridgeError) : Request tree → Prop
  | .release handle => ∃ node code, bridge.nodeOf? handle = some node ∧
      bridge.failures .release node.val = some code ∧ error = ⟨.release, code⟩
  | _ => False

end Request

/-- The bridge after some requests. -/
def served (bridge : Bridge tree) : List (Request tree) → Bridge tree
  | [] => bridge
  | request :: rest => (request.answer bridge).2.served rest

/-- The references that some requests are granted, in order. -/
def granted (bridge : Bridge tree) : List (Request tree) → List NativeRef
  | [] => []
  | request :: rest =>
      ((request.answer bridge).1.toOption.getD []).map Handle.ref ++
        (request.answer bridge).2.granted rest

/-! ### Books -/

/-- Two bridges have the same references live, and have acquired and released as many. -/
structure SameBooks (a b : Bridge tree) : Prop where
  live_eq : a.live = b.live
  acquired_eq : a.acquired = b.acquired
  released_eq : a.released = b.released

theorem SameBooks.refl (bridge : Bridge tree) : SameBooks bridge bridge :=
  ⟨rfl, rfl, rfl⟩

theorem sameBooks_record (bridge : Bridge tree) (call : Call) :
    SameBooks (bridge.record call) bridge :=
  ⟨rfl, rfl, rfl⟩

/-- A request gives back nothing that is live. -/
def Request.SparesLive (bridge : Bridge tree) (request : Request tree) : Prop :=
  ∀ ref, request.releases ref = true → bridge.live[ref]? = none

/-- A request acquires handles to some nodes, or fails, or gives a live reference back. -/
theorem answer_cases (request : Request tree) (bridge : Bridge tree) :
    (request.SparesLive bridge ∧ ∃ nodes,
        (request.answer bridge).1 = .ok (acquireAll nodes bridge).1 ∧
        SameBooks (request.answer bridge).2 (acquireAll nodes bridge).2) ∨
      (request.SparesLive bridge ∧ ∃ error, (request.answer bridge).1 = .error error ∧
        SameBooks (request.answer bridge).2 bridge) ∨
      ∃ handle node, request = .release handle ∧ bridge.nodeOf? handle = some node ∧
        (request.answer bridge).1 = (match bridge.failures .release node.val with
          | some code => .error ⟨.release, code⟩
          | none => .ok []) ∧
        (request.answer bridge).2.live = bridge.live.erase handle.ref ∧
        (request.answer bridge).2.acquired = bridge.acquired ∧
        (request.answer bridge).2.released = bridge.released + 1 := by
  have hspares {request : Request tree} (h : ∀ ref, request.releases ref = false) :
      request.SparesLive bridge :=
    fun ref hr => absurd ((h ref).symm.trans hr) Bool.false_ne_true
  cases request with
  | root => exact Or.inl ⟨hspares fun _ => rfl, _, rfl, .refl _⟩
  | acquire node => exact Or.inl ⟨hspares fun _ => rfl, [node], rfl, .refl _⟩
  | children handle =>
      simp only [Request.answer, children, bind, StateT.bind, get, getThe, MonadStateOf.get,
        StateT.get, pure]
      cases bridge.locate .children handle with
      | error e => exact Or.inr (Or.inl ⟨hspares fun _ => rfl, e, rfl, sameBooks_record bridge _⟩)
      | ok node =>
          exact Or.inl ⟨hspares fun _ => rfl, tree.children node, rfl, sameBooks_record _ _⟩
  | parent handle =>
      simp only [Request.answer, parent, bind, StateT.bind, get, getThe, MonadStateOf.get,
        StateT.get, pure]
      cases bridge.locate .parent handle with
      | error e => exact Or.inr (Or.inl ⟨hspares fun _ => rfl, e, rfl, sameBooks_record bridge _⟩)
      | ok node =>
          dsimp only
          cases tree.parent? node with
          | none => exact Or.inl ⟨hspares fun _ => rfl, [], rfl, sameBooks_record bridge _⟩
          | some above => exact Or.inl ⟨hspares fun _ => rfl, [above], rfl, sameBooks_record _ _⟩
  | attributes handle =>
      simp only [Request.answer, attributes, bind, StateT.bind, get, getThe, MonadStateOf.get,
        StateT.get, pure]
      cases bridge.locate .attributes handle with
      | error e => exact Or.inr (Or.inl ⟨hspares fun _ => rfl, e, rfl, sameBooks_record bridge _⟩)
      | ok node => exact Or.inl ⟨hspares fun _ => rfl, [], rfl, sameBooks_record bridge _⟩
  | siblingIndex handle =>
      simp only [Request.answer, siblingIndex, bind, StateT.bind, get, getThe, MonadStateOf.get,
        StateT.get, pure]
      cases bridge.locate .siblingIndex handle with
      | error e => exact Or.inr (Or.inl ⟨hspares fun _ => rfl, e, rfl, sameBooks_record bridge _⟩)
      | ok node => exact Or.inl ⟨hspares fun _ => rfl, [], rfl, sameBooks_record bridge _⟩
  | sameObject a b =>
      have hanswer : ((Request.sameObject a b).answer bridge).1 =
          (sameObject a b bridge).1.map fun _ => [] := rfl
      cases hr : (sameObject a b bridge).1 with
      | error e =>
          exact Or.inr (Or.inl ⟨hspares fun _ => rfl, e, by rw [hanswer, hr]; rfl,
            sameBooks_record bridge _⟩)
      | ok answer =>
          exact Or.inl ⟨hspares fun _ => rfl, [], by rw [hanswer, hr]; rfl,
            sameBooks_record bridge _⟩
  | release handle =>
      simp only [Request.answer, release, bind, StateT.bind, get, getThe, MonadStateOf.get,
        StateT.get, pure, nodeOf?]
      cases hl : bridge.live[handle.ref]? with
      | none =>
          refine Or.inr (Or.inl ⟨fun ref hr => ?_, _, rfl, ⟨rfl, rfl, rfl⟩⟩)
          obtain rfl : handle.ref = ref := eq_of_beq hr
          exact hl
      | some node =>
          refine Or.inr (Or.inr ⟨handle, node, rfl, hl, ?_, rfl, rfl, rfl⟩)
          dsimp only
          cases bridge.failures .release node.val <;> rfl
  | failOn op place code => exact Or.inl ⟨hspares fun _ => rfl, [], rfl, ⟨rfl, rfl, rfl⟩⟩

/-! ### Acquiring -/

theorem acquired_acquireAll (nodes : List tree.NodeId) (bridge : Bridge tree) :
    (acquireAll nodes bridge).2.acquired = bridge.acquired + nodes.length := by
  induction nodes generalizing bridge with
  | nil => rfl
  | cons node rest ih =>
      rw [List.length_cons, Nat.add_comm rest.length, ← Nat.add_assoc]
      exact ih (acquire node bridge).2

theorem released_acquireAll (nodes : List tree.NodeId) (bridge : Bridge tree) :
    (acquireAll nodes bridge).2.released = bridge.released := by
  induction nodes generalizing bridge with
  | nil => rfl
  | cons node rest ih => exact ih (acquire node bridge).2

/-- The next reference is not live, so that acquiring it adds to what is. -/
theorem liveCount_acquireAll (nodes : List tree.NodeId) (bridge : Bridge tree) :
    (acquireAll nodes bridge).2.liveCount = bridge.liveCount + nodes.length := by
  induction nodes generalizing bridge with
  | nil => rfl
  | cons node rest ih =>
      have hnew : bridge.nextRef ∉ bridge.live := by
        intro h
        have hle := bridge.issued _ h
        simp only [nextRef] at hle
        omega
      have hone : (acquire node bridge).2.liveCount = bridge.liveCount + 1 := by
        simp only [liveCount, acquire]
        rw [Std.ExtTreeMap.size_insert, if_neg (by simpa using hnew)]
      have hrest := ih (acquire node bridge).2
      rw [hone, Nat.add_assoc, Nat.add_comm 1] at hrest
      exact hrest

theorem refs_acquireAll (nodes : List tree.NodeId) (bridge : Bridge tree) :
    (acquireAll nodes bridge).1.map (fun handle => handle.ref.address) =
      List.range' (0x1001 + bridge.acquired) nodes.length := by
  induction nodes generalizing bridge with
  | nil => rfl
  | cons node rest ih =>
      have hnext : bridge.nextRef.address = 0x1001 + bridge.acquired := by
        simp only [nextRef]
        omega
      rw [List.length_cons, List.range'_succ, ← hnext]
      have hrest := ih (acquire node bridge).2
      exact congrArg (bridge.nextRef.address :: ·) (hnext ▸ hrest)

/-! ### What a request keeps -/

/-- What has been acquired has been released or is live. -/
def Balanced (bridge : Bridge tree) : Prop :=
  bridge.acquired = bridge.released + bridge.liveCount

theorem Balanced.answer {bridge : Bridge tree} (h : bridge.Balanced) (request : Request tree) :
    (request.answer bridge).2.Balanced := by
  unfold Balanced at *
  rcases answer_cases request bridge with
    ⟨-, nodes, -, hlive, hacquired, hreleased⟩ | ⟨-, e, -, hlive, hacquired, hreleased⟩ |
    ⟨handle, node, -, hnode, -, hlive, hacquired, hreleased⟩
  · have hcount := liveCount_acquireAll nodes bridge
    rw [hacquired, hreleased, liveCount, hlive, acquired_acquireAll, released_acquireAll]
    rw [liveCount] at hcount
    omega
  · rw [hacquired, hreleased, liveCount, hlive]
    exact h
  · have hmem : handle.ref ∈ bridge.live :=
      Std.ExtTreeMap.mem_iff_isSome_getElem?.2 (Option.isSome_iff_exists.2 ⟨node, hnode⟩)
    have hpos : bridge.live.size ≠ 0 := fun h0 =>
      Std.ExtTreeMap.ne_empty_of_mem hmem (Std.ExtTreeMap.eq_empty_iff_size_eq_zero.2 h0)
    rw [hacquired, hreleased, liveCount, hlive, Std.ExtTreeMap.size_erase,
      if_pos (by simpa using hmem)]
    rw [liveCount] at h
    omega

theorem Balanced.served {bridge : Bridge tree} (h : bridge.Balanced)
    (requests : List (Request tree)) : (bridge.served requests).Balanced := by
  induction requests generalizing bridge with
  | nil => exact h
  | cons request rest ih => exact ih (h.answer request)

/-! ### References -/

/-- A request is granted the references that come next, as many as it acquires. -/
theorem granted_answer (request : Request tree) (bridge : Bridge tree) :
    ∃ n, (request.answer bridge).2.acquired = bridge.acquired + n ∧
      ((request.answer bridge).1.toOption.getD []).map (fun handle => handle.ref.address) =
        List.range' (0x1001 + bridge.acquired) n := by
  rcases answer_cases request bridge with
    ⟨-, nodes, hanswer, hbooks⟩ | ⟨-, e, hanswer, hbooks⟩ |
    ⟨handle, node, -, -, hanswer, -, hacquired, -⟩
  · refine ⟨nodes.length, hbooks.acquired_eq.trans (acquired_acquireAll nodes bridge), ?_⟩
    rw [hanswer]
    exact refs_acquireAll nodes bridge
  · refine ⟨0, hbooks.acquired_eq, ?_⟩
    rw [hanswer]
    rfl
  · refine ⟨0, hacquired, ?_⟩
    rw [hanswer]
    cases bridge.failures .release node.val <;> rfl

/-- The references that requests are granted are numbered in the order of their acquisition. -/
theorem granted_eq (requests : List (Request tree)) (bridge : Bridge tree) :
    ∃ n, (bridge.served requests).acquired = bridge.acquired + n ∧
      (bridge.granted requests).map NativeRef.address =
        List.range' (0x1001 + bridge.acquired) n := by
  induction requests generalizing bridge with
  | nil => exact ⟨0, rfl, rfl⟩
  | cons request rest ih =>
      obtain ⟨m, hm, hfirst⟩ := granted_answer request bridge
      obtain ⟨n, hn, hrest⟩ := ih (request.answer bridge).2
      refine ⟨m + n, ?_, ?_⟩
      · rw [served, hn, hm, Nat.add_assoc]
      · have hmap : (((request.answer bridge).1.toOption.getD []).map Handle.ref).map
            NativeRef.address = List.range' (0x1001 + bridge.acquired) m := by
          rw [List.map_map]
          exact hfirst
        rw [granted, List.map_append, hmap, hrest, hm, ← Nat.add_assoc, List.range'_append_1]

/-- A request changes what a reference denotes that has been handed out only by giving it back. -/
theorem live_answer {bridge : Bridge tree} {ref : NativeRef}
    (h : ref.address ≤ 0x1000 + bridge.acquired) (request : Request tree) :
    (request.answer bridge).2.live[ref]? =
      if request.releases ref then none else bridge.live[ref]? := by
  rcases answer_cases request bridge with
    ⟨hspares, nodes, -, hlive, -⟩ | ⟨hspares, e, -, hlive, -⟩ |
    ⟨handle, node, rfl, -, -, hlive, -⟩
  · obtain ⟨gained, -, -, hgains⟩ := gains_acquireAll nodes bridge
    rw [hlive, hgains.kept ref h]
    split
    · next hr => exact hspares ref hr
    · rfl
  · rw [hlive]
    split
    · next hr => exact hspares ref hr
    · rfl
  · rw [hlive, Std.ExtTreeMap.getElem?_erase]
    simp only [Request.releases, beq_iff_eq, Std.LawfulEqOrd.compare_eq_iff_eq]

/-- What a reference denotes that has been handed out: what it did, until it is given back. -/
theorem live_served {bridge : Bridge tree} {ref : NativeRef}
    (h : ref.address ≤ 0x1000 + bridge.acquired) (later : List (Request tree)) :
    (bridge.served later).live[ref]? =
      if later.any (Request.releases ref) then none else bridge.live[ref]? := by
  induction later generalizing bridge with
  | nil => rfl
  | cons request rest ih =>
      obtain ⟨n, hn, -⟩ := granted_answer request bridge
      rw [served, ih (by omega), live_answer h request, List.any_cons]
      cases request.releases ref <;> cases rest.any (Request.releases ref) <;> rfl

/-- What a request yields denotes a node until it is given back, and nothing from then on. -/
theorem exists_denotes {bridge : Bridge tree} {request : Request tree} {handles : List Handle}
    (h : (request.answer bridge).1 = .ok handles) {handle : Handle} (hh : handle ∈ handles) :
    ∃ node, ∀ later, ((request.answer bridge).2.served later).nodeOf? handle =
      if later.any (Request.releases handle.ref) then none else some node := by
  rcases answer_cases request bridge with
    ⟨-, nodes, hanswer, hbooks⟩ | ⟨-, e, hanswer, -⟩ | ⟨-, node, -, -, hanswer, -⟩
  · obtain ⟨gained, hhandles, -, hgains⟩ := gains_acquireAll nodes bridge
    obtain rfl : handles = gained.map Holding.handle :=
      (Except.ok.inj (h.symm.trans hanswer)).trans hhandles
    obtain ⟨x, hx, rfl⟩ := List.mem_map.1 hh
    have hissued : x.handle.ref.address ≤ 0x1000 + (request.answer bridge).2.acquired := by
      rw [hbooks.acquired_eq]
      exact (hgains.fresh x hx).2
    refine ⟨x.node, fun later => ?_⟩
    rw [nodeOf?, live_served hissued, hbooks.live_eq, hgains.denotes x hx]
  · rw [hanswer] at h
    cases h
  · -- a release that succeeds yields no handles
    rw [hanswer] at h
    cases hf : bridge.failures .release node.val with
    | some code =>
        rw [hf] at h
        cases h
    | none =>
        rw [hf] at h
        obtain rfl : [] = handles := Except.ok.inj h
        cases hh

/-- A request that fails changes no books, unless a release has been made to fail. -/
theorem sameBooks_of_error {bridge : Bridge tree} {request : Request tree} {error : BridgeError}
    (h : (request.answer bridge).1 = .error error) :
    SameBooks (request.answer bridge).2 bridge ∨ request.IsInjectedFailure bridge error := by
  rcases answer_cases request bridge with
    ⟨-, nodes, hanswer, -⟩ | ⟨-, e, -, hbooks⟩ | ⟨handle, node, rfl, hnode, hanswer, -⟩
  · rw [hanswer] at h
    cases h
  · exact Or.inl hbooks
  · rw [hanswer] at h
    cases hf : bridge.failures .release node.val with
    | some code =>
        rw [hf] at h
        exact Or.inr ⟨node, code, hnode, hf, (Except.error.inj h).symm⟩
    | none =>
        rw [hf] at h
        cases h

/-! ### Every use of a bridge -/

/-- However a new bridge is used, its counters agree with what is live; the references that it hands
out are numbered from `0x1001` on, so that none comes twice; what a request yields denotes one node
until it is given back and nothing from then on; and a request that fails acquires and releases
nothing, unless it is a release that has been made to fail. -/
theorem references_accounted (tree : Tree) (session : SessionId) (requests : List (Request tree)) :
    let bridge := (Bridge.new tree session).served requests
    let refs := (Bridge.new tree session).granted requests
    bridge.acquired = bridge.released + bridge.liveCount ∧
      (refs.Nodup ∧ refs.map NativeRef.address = List.range' 0x1001 bridge.acquired) ∧
      ∀ request : Request tree, match request.answer bridge with
        | (.ok handles, after) => ∀ handle ∈ handles, ∃ node, ∀ later : List (Request tree),
            (after.served later).nodeOf? handle =
              if later.any (Request.releases handle.ref) then none else some node
        | (.error error, after) =>
            SameBooks after bridge ∨ request.IsInjectedFailure bridge error := by
  intro bridge refs
  have hnew : (Bridge.new tree session).Balanced := rfl
  obtain ⟨n, hn, hrefs⟩ := granted_eq requests (Bridge.new tree session)
  obtain rfl : bridge.acquired = n := hn.trans (Nat.zero_add n)
  refine ⟨hnew.served requests, ⟨?_, hrefs⟩, fun request => ?_⟩
  · refine List.Nodup.of_map NativeRef.address ?_
    rw [hrefs]
    exact List.nodup_range'
  · split
    · next handles after h =>
        obtain ⟨hanswer, rfl⟩ := Prod.ext_iff.1 h
        exact fun handle hh => exists_denotes hanswer hh
    · next error after h =>
        obtain ⟨hanswer, rfl⟩ := Prod.ext_iff.1 h
        exact sameBooks_of_error hanswer

end AccessQuery.Bridge
