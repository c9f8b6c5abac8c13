/-
**Finding the way in a tree that was built.**

Whatever tree is built, a bridge leads through it consistently: the parent of a child is the node
that it is a child of, places and depths agree with the children that are yielded, and descending
from the root comes by every node once.  In the tree of a fixture the nodes are numbered in
pre-order, one for each node of the document.

Main definitions:

* `AccessQuery.Bridge.crawl` — a handle and handles to everything below it, depth first;
* `AccessQuery.Bridge.Reports` — an integer among the attributes of a node;
* `AccessQuery.Bridge.ChildrenPlaced`, `AccessQuery.Tree.Navigable` — what a bridge says of the
  children of a node, and of the whole tree.

Main results:

* `AccessQuery.Bridge.crawl_eq` — what is met on a depth-first way down;
* `AccessQuery.Tree.navigable` — bridges lead through every tree consistently;
* `AccessQuery.Builder.built_navigable` — so they do through whatever is built.
-/

import AccessQuery.Proofs.Numbering
import AccessQuery.Proofs.Reporting

set_option relaxedAutoImplicit false
set_option autoImplicit false

namespace AccessQuery

variable {tree : Tree}

namespace Bridge

/-! ### What is asked -/

/-- Descends from a handle so many levels, and yields it with the handles on the way, depth
first. -/
def crawl : Nat → Handle → ExceptT BridgeError (BridgeM tree) (List Handle)
  | 0, handle => return [handle]
  | levels + 1, handle => do
      let handles ← ExceptT.mk (children handle)
      let below ← handles.mapM (crawl levels)
      return handle :: below.flatten

/-- No call has been made to fail. -/
def Undisturbed (bridge : Bridge tree) : Prop :=
  ∀ op place, bridge.failures op place = none

/-- An attribute of the node of a handle is reported to be an integer. -/
def Reports (bridge : Bridge tree) (handle : Handle) (name : String) (n : Nat) : Prop :=
  ∃ snapshot, (attributes handle bridge).1 = .ok snapshot ∧
    snapshot.get? name = some (.int (Int64.ofNat n))

/-- The children of a node are yielded, in order, and what is said of each agrees with that. -/
structure ChildrenPlaced (bridge : Bridge tree) (handle : Handle) (handles : List Handle)
    (after : Bridge tree) : Prop where
  children_eq : children handle bridge = (.ok handles, after)
  count_reported : Reports after handle AttrName.childrenCount handles.length
  /-- The parent of a child is the node. -/
  parent_same : ∀ child ∈ handles, ∃ above later,
    parent child after = (.ok (some above), later) ∧ (sameObject above handle later).1 = .ok true
  place_eq : ∀ (i : Nat) (h : i < handles.length),
    (siblingIndex handles[i] after).1 = .ok (i, handles.length)
  index_reported : ∀ (i : Nat) (h : i < handles.length),
    Reports after handles[i] AttrName.indexInParent i
  /-- A child stands one step further down. -/
  depth_reported : ∃ depth, Reports after handle AttrName.objectDepth depth ∧
    ∀ child ∈ handles, Reports after child AttrName.objectDepth (depth + 1)

variable {bridge : Bridge tree} {handle : Handle} {node : tree.NodeId}

theorem Undisturbed.of_continues {before after : Bridge tree} (h : before.Undisturbed)
    (hc : before.Continues after) : after.Undisturbed :=
  fun op place => (congrFun (congrFun hc.failures_eq op) place).trans (h op place)

theorem Undisturbed.locate (h : bridge.Undisturbed) (hd : bridge.Denotes handle node)
    (op : BridgeOp) : bridge.locate op handle = .ok node :=
  locate_of_denotes hd (h op node.val)

theorem map_nodeOf?_of_denotes {held : List (Holding tree)}
    (h : ∀ x ∈ held, bridge.Denotes x.handle x.node) :
    (held.map Holding.handle).map bridge.nodeOf? = (held.map Holding.node).map some := by
  rw [List.map_map, List.map_map]
  exact List.map_congr_left fun x hx => (h x hx).node_eq

/-! ### What is reported of the place of a node -/

theorem reports_of_get? (h : bridge.Undisturbed) (hd : bridge.Denotes handle node) {name : String}
    {n : Nat} (hn : (tree.attributes node).get? name = some (.int (Int64.ofNat n))) :
    Reports bridge handle name n :=
  ⟨_, attributes_of_locate (h.locate hd .attributes), hn⟩

theorem reports_index (h : bridge.Undisturbed) (hd : bridge.Denotes handle node) :
    Reports bridge handle AttrName.indexInParent (tree.place node).1 :=
  reports_of_get? h hd (tree.get?_attributes_placed node).1

theorem reports_count (h : bridge.Undisturbed) (hd : bridge.Denotes handle node) :
    Reports bridge handle AttrName.childrenCount (tree.children node).length :=
  reports_of_get? h hd (tree.get?_attributes_placed node).2.1

theorem reports_depth (h : bridge.Undisturbed) (hd : bridge.Denotes handle node) :
    Reports bridge handle AttrName.objectDepth (tree.depth node) :=
  reports_of_get? h hd (tree.get?_attributes_placed node).2.2

/-- The children of a node are placed as the tree says. -/
theorem exists_childrenPlaced (h : bridge.Undisturbed) (hd : bridge.Denotes handle node) :
    ∃ (gained : List (Holding tree)) (after : Bridge tree),
      ChildrenPlaced bridge handle (gained.map Holding.handle) after ∧
      gained.map Holding.node = tree.children node ∧ bridge.Continues after ∧
      ∀ x ∈ gained, after.Denotes x.handle x.node := by
  obtain ⟨gained, after, hrun, hnodes, hc, hgained⟩ :=
    children_of_locate (h.locate hd .children)
  have hafter := h.of_continues hc
  have hparent? {x : Holding tree} (hx : x ∈ gained) : tree.parent? x.node = some node :=
    tree.mem_children.1 (hnodes ▸ List.mem_map_of_mem hx)
  have hlength : (gained.map Holding.handle).length = (tree.children node).length := by
    rw [← hnodes, List.length_map, List.length_map]
  have hplace (i : Nat) (hi : i < gained.length) :
      tree.place gained[i].node = (i, (gained.map Holding.handle).length) := by
    have hi' : i < (tree.children node).length := by
      rw [← hlength]
      simpa using hi
    have hget : (tree.children node)[i] = gained[i].node := by simp [← hnodes]
    rw [Tree.place, hparent? (List.getElem_mem hi)]
    dsimp only
    rw [hlength, ← hget, (tree.nodup_children node).idxOf_getElem]
  have hdenotes (i : Nat) (hi : i < gained.length) (hi' : i < (gained.map Holding.handle).length) :
      after.Denotes (gained.map Holding.handle)[i] gained[i].node := by
    rw [List.getElem_map]
    exact hgained _ (List.getElem_mem hi)
  refine ⟨gained, after, ⟨hrun, ?_, ?_, ?_, ?_, tree.depth node, ?_, ?_⟩, hnodes, hc, hgained⟩
  · rw [hlength]
    exact reports_count hafter (hc.denotes hd)
  · intro child hchild
    obtain ⟨x, hx, rfl⟩ := List.mem_map.1 hchild
    have hparent := parent_of_locate (hafter.locate (hgained x hx) .parent)
    rw [hparent? hx] at hparent
    obtain ⟨above, later, hrun, hlater, habove⟩ := hparent
    have hundisturbed := hafter.of_continues hlater
    refine ⟨above, later, hrun, ?_⟩
    rw [sameObject_of_locate (hundisturbed.locate habove .sameObject)
      (hundisturbed.locate (hlater.denotes (hc.denotes hd)) .sameObject), beq_self_eq_true]
  · intro i hi
    have hi' : i < gained.length := by simpa using hi
    rw [siblingIndex_of_locate (hafter.locate (hdenotes i hi' hi) .siblingIndex), hplace i hi']
  · intro i hi
    have hi' : i < gained.length := by simpa using hi
    have hindex := reports_index hafter (hdenotes i hi' hi)
    rwa [hplace i hi'] at hindex
  · exact reports_depth hafter (hc.denotes hd)
  · intro child hchild
    obtain ⟨x, hx, rfl⟩ := List.mem_map.1 hchild
    rw [← Tree.depth_of_parent (hparent? hx)]
    exact reports_depth hafter (hgained x hx)

/-! ### Descending -/

/-- A call that succeeds hands over to what follows. -/
theorem run_bind_ok {α β : Type} {first : ExceptT BridgeError (BridgeM tree) α}
    {next : α → ExceptT BridgeError (BridgeM tree) β} {before after : Bridge tree} {a : α}
    (h : first.run before = (.ok a, after)) :
    (first >>= next).run before = (next a).run after := by
  rw [ExceptT.run_bind]
  simp only [bind, StateT.bind, h]

/-- What one level of a descent comes to, where the next ones are known. -/
theorem mapM_crawl {levels : Nat}
    (ih : ∀ {bridge : Bridge tree} {handle : Handle} {node : tree.NodeId}, bridge.Undisturbed →
      bridge.Denotes handle node → ∃ (met : List (Holding tree)) (after : Bridge tree),
        (crawl levels handle).run bridge = (.ok (met.map Holding.handle), after) ∧
        met.map Holding.node = tree.preorderWith levels node ∧ bridge.Continues after ∧
        ∀ x ∈ met, after.Denotes x.handle x.node)
    (gained : List (Holding tree)) {bridge : Bridge tree} (h : bridge.Undisturbed)
    (hgained : ∀ x ∈ gained, bridge.Denotes x.handle x.node) :
    ∃ (met : List (List (Holding tree))) (after : Bridge tree),
      ((gained.map Holding.handle).mapM (crawl levels)).run bridge =
        (.ok (met.map (List.map Holding.handle)), after) ∧
      met.flatten.map Holding.node =
        (gained.map Holding.node).flatMap (tree.preorderWith levels) ∧
      bridge.Continues after ∧ ∀ x ∈ met.flatten, after.Denotes x.handle x.node := by
  induction gained generalizing bridge with
  | nil => exact ⟨[], bridge, rfl, rfl, .refl bridge, by simp⟩
  | cons x rest ihrest =>
      obtain ⟨first, middle, hrun, hnodes, hc, hfirst⟩ := ih h (hgained x List.mem_cons_self)
      obtain ⟨others, after, hrun', hnodes', hc', hothers⟩ :=
        ihrest (h.of_continues hc) fun y hy => hc.denotes (hgained y (List.mem_cons_of_mem x hy))
      refine ⟨first :: others, after, ?_, ?_, hc.trans hc', ?_⟩
      · rw [List.map_cons, List.mapM_cons, run_bind_ok hrun, run_bind_ok hrun']
        rfl
      · simp [hnodes, hnodes']
      · intro y hy
        rw [List.flatten_cons, List.mem_append] at hy
        exact hy.elim (fun hy => hc'.denotes (hfirst y hy)) (hothers y)

/-- Descending from a node comes by what a depth-first walk lists. -/
theorem crawl_eq (levels : Nat) {bridge : Bridge tree} {handle : Handle} {node : tree.NodeId}
    (h : bridge.Undisturbed) (hd : bridge.Denotes handle node) :
    ∃ (met : List (Holding tree)) (after : Bridge tree),
      (crawl levels handle).run bridge = (.ok (met.map Holding.handle), after) ∧
      met.map Holding.node = tree.preorderWith levels node ∧ bridge.Continues after ∧
      ∀ x ∈ met, after.Denotes x.handle x.node := by
  induction levels generalizing bridge handle node with
  | zero => exact ⟨[⟨handle, node⟩], bridge, rfl, rfl, .refl bridge, by simpa using hd⟩
  | succ levels ih =>
      obtain ⟨gained, middle, hrun, hnodes, hc, hgained⟩ :=
        children_of_locate (h.locate hd .children)
      obtain ⟨met, after, hrun', hnodes', hc', hmet⟩ :=
        mapM_crawl ih gained (h.of_continues hc) hgained
      refine ⟨⟨handle, node⟩ :: met.flatten, after, ?_, ?_, hc.trans hc', ?_⟩
      · have hfirst : (ExceptT.mk (children handle)).run bridge =
            (.ok (gained.map Holding.handle), middle) := hrun
        rw [crawl, run_bind_ok hfirst, run_bind_ok hrun', List.map_cons, List.map_flatten]
        rfl
      · rw [List.map_cons, hnodes', hnodes, Tree.preorderWith]
      · intro x hx
        rcases List.mem_cons.1 hx with rfl | hx
        · exact hc'.denotes (hc.denotes hd)
        · exact hmet x hx

end Bridge

/-! ### Every tree -/

namespace Tree

/-- Every node is the root or lies below it. -/
theorem eq_or_above_of_root {root : tree.NodeId} (hroot : tree.root? = some root)
    (node : tree.NodeId) : node = root ∨ tree.Above root node := by
  -- on the place of the node, whose parent stands before it
  induction hn : node.val using Nat.strongRecOn generalizing node with
  | ind n ih =>
      cases hp : tree.parent? node with
      | none =>
          rw [parent?_eq_none_iff, hroot] at hp
          exact Or.inl (Option.some.inj hp).symm
      | some p =>
          rcases ih p.val (hn ▸ tree.parent?_lt hp) p rfl with rfl | ha
          · exact Or.inr (.parent hp)
          · exact Or.inr (.up hp ha)

/-- Bridges lead through a tree consistently. -/
structure Navigable (tree : Tree) : Prop where
  /-- What is said of the children of a node agrees with the handles that are yielded to them. -/
  children_placed : ∀ (bridge : Bridge tree) (handle : Handle) (node : tree.NodeId),
    bridge.Undisturbed → bridge.Denotes handle node →
    ∃ handles after, Bridge.ChildrenPlaced bridge handle handles after ∧
      handles.map after.nodeOf? = (tree.children node).map some
  /-- The root has no parent, no siblings, and depth zero. -/
  root_placed : ∀ (bridge : Bridge tree) (handle : Handle) (root : tree.NodeId),
    bridge.Undisturbed → tree.root? = some root → bridge.Denotes handle root →
    (bridge.parent handle).1 = .ok none ∧ (bridge.siblingIndex handle).1 = .ok (0, 1) ∧
      Bridge.Reports bridge handle AttrName.objectDepth 0
  /-- Descending from the root comes by the nodes depth first, by none of them twice, and by every
  node if it goes on. -/
  reached_once : ∀ (bridge : Bridge tree) (handle : Handle) (root : tree.NodeId),
    bridge.Undisturbed → tree.root? = some root → bridge.Denotes handle root →
    ∀ levels, ∃ handles after, (Bridge.crawl levels handle).run bridge = (.ok handles, after) ∧
      handles.map after.nodeOf? = (tree.preorderWith levels root).map some ∧
      (handles.map after.nodeOf?).Nodup ∧
      (tree.size ≤ levels → ∀ node, some node ∈ handles.map after.nodeOf?)

theorem navigable (tree : Tree) : tree.Navigable where
  children_placed bridge handle node h hd := by
    obtain ⟨gained, after, hplaced, hnodes, -, hgained⟩ := Bridge.exists_childrenPlaced h hd
    exact ⟨_, after, hplaced, by rw [← hnodes, Bridge.map_nodeOf?_of_denotes hgained]⟩
  root_placed bridge handle root h hroot hd := by
    have hnone := tree.parent?_eq_none_iff.2 hroot
    have hparent := Bridge.parent_of_locate (h.locate hd .parent)
    have hdepth := Bridge.reports_depth h hd
    rw [hnone] at hparent
    rw [depth_of_root hnone] at hdepth
    refine ⟨hparent, ?_, hdepth⟩
    rw [Bridge.siblingIndex_of_locate (h.locate hd .siblingIndex), place, hnone]
  reached_once bridge handle root h hroot hd levels := by
    obtain ⟨met, after, hrun, hnodes, -, hmet⟩ := Bridge.crawl_eq levels h hd
    have hnodeOf := Bridge.map_nodeOf?_of_denotes hmet
    rw [hnodes] at hnodeOf
    refine ⟨_, after, hrun, hnodeOf, ?_, fun hle node => ?_⟩
    · have hnodup : (tree.preorderWith levels root).Nodup := by
        refine (tree.preorderWith_pairwise levels root).imp ?_
        rintro a _ h rfl
        exact Precedes.irrefl a h
      rw [hnodeOf]
      exact hnodup.map (Option.some_injective _)
    · rw [hnodeOf]
      exact List.mem_map_of_mem (mem_preorderWith (eq_or_above_of_root hroot node) (by omega))

end Tree

/-! ### Whatever is built -/

/-- A builder stores what a tree says, whatever calls it is told; bridges lead through that tree
consistently.  The calls that load a fixture yield one node for each of its parts, numbered in
pre-order, and the children of a node are the parts nested in it, in their order. -/
theorem Builder.built_navigable :
    (∀ (calls : List BuildCall) (builder : Builder), Builder.empty.run? calls = some builder →
      ∃ tree, Tree.empty.build? calls = some tree ∧ builder = Builder.ofTree tree ∧
        tree.Navigable) ∧
    ∀ fixture : Fixture,
      let tree := Tree.ofFixture fixture
      Builder.empty.run? (fixture.calls none 0) = some (Builder.ofTree tree) ∧
        tree.Navigable ∧ tree.size = fixture.parts.length ∧
        tree.preorder fixture.root = List.finRange tree.size ∧
        ∀ (node : tree.NodeId) (part : Fixture), fixture.parts[node.val]? = some part →
          tree.element node = part.element ∧
          (tree.children node).map (fun child => fixture.parts[child.val]?) =
            part.children.map some := by
  refine ⟨fun calls builder h => ?_, fun fixture => ?_⟩
  · rw [← Builder.ofTree_empty, Builder.run?_ofTree] at h
    obtain ⟨tree, hbuild, rfl⟩ := Option.map_eq_some_iff.1 h
    exact ⟨tree, hbuild, rfl, tree.navigable⟩
  · intro tree
    refine ⟨?_, tree.navigable, ?_, fixture.preorder_ofFixture, fun node part hpart =>
      ⟨Fixture.element_ofFixture hpart, Fixture.map_children_ofFixture hpart⟩⟩
    · rw [← Builder.ofTree_empty, Builder.run?_ofTree, fixture.build?_calls]
      rfl
    · rw [Tree.size_ofFixture, Fixture.length_parts]

/-- A check box is built below a frame, call by call and from a document. -/
theorem Builder.built_navigable_pair :
    let calls : List BuildCall := [.root "frame" "Main", .child 0 "check box" "Chin"]
    let tree := (Tree.single (.new "frame" "Main")).addChild ⟨0, by decide⟩
      (.new "check box" "Chin")
    let box : Fixture := { role := "check box", name := "Chin" }
    let fixture : Fixture := { role := "frame", name := "Main", children := [box] }
    let loaded := Tree.ofFixture fixture
    let acquired := Bridge.acquire fixture.root (Bridge.new loaded ⟨7⟩)
    (Builder.empty.run? calls = some (Builder.ofTree tree) ∧
      ∃ built, Tree.empty.build? calls = some built ∧ Builder.ofTree tree = Builder.ofTree built ∧
        built.Navigable) ∧
    (fixture.parts[1]? = some box ∧
      ∀ node : loaded.NodeId, node.val = 1 → loaded.element node = box.element) ∧
    (acquired.2.Undisturbed ∧ acquired.2.Denotes acquired.1 fixture.root ∧
      ∃ handles after, Bridge.ChildrenPlaced acquired.2 acquired.1 handles after ∧
        handles.map after.nodeOf? = (loaded.children fixture.root).map some) := by
  intro calls tree box fixture loaded acquired
  have hrun : Builder.empty.run? calls = some (Builder.ofTree tree) := by
    rw [← Builder.ofTree_empty, Builder.run?_ofTree]
    rfl
  have hpart : fixture.parts[1]? = some box := rfl
  have hundisturbed : acquired.2.Undisturbed := fun _ _ => rfl
  have hdenotes : acquired.2.Denotes acquired.1 fixture.root := ⟨rfl, by decide +kernel⟩
  obtain ⟨-, hnavigable, -, -, hparts⟩ := Builder.built_navigable.2 fixture
  refine ⟨⟨hrun, Builder.built_navigable.1 calls _ hrun⟩, ⟨hpart, fun node hnode => ?_⟩,
    hundisturbed, hdenotes, hnavigable.children_placed _ _ _ hundisturbed hdenotes⟩
  exact (hparts node box (by rw [hnode]; exact hpart)).1

end AccessQuery
