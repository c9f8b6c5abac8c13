/-
**Passing over hidden nodes is resolving on a smaller tree.**

A resolution that passes over the nodes that are not showing comes to the same as one that takes
notice of all nodes, on the tree from which the hidden nodes below the root have been deleted with
everything below them.  The query must not be able to tell: a predicate may not read, as attributes,
the place of a node among its siblings or the number of its children, which a bridge reports of the
whole tree, and a self step may not ask for a place.

The two resolutions are on two trees.  They are followed side by side, along the map that sends a
node of the smaller tree to the node that it comes from.

Main definitions:

* `AccessQuery.Tree.pruned` — the nodes that are left, `AccessQuery.Tree.prune` the tree of them;
* `AccessQuery.Step.ignoresHidden` — the steps that cannot tell;
* `AccessQuery.ResolveOptions.PassesOver` — options that differ in whether hidden nodes are passed
  over.

Main results:

* `AccessQuery.Tree.map_seenChildren`, `AccessQuery.Tree.map_descend` — what a walk meets;
* `AccessQuery.Outlook.map_candidates`, `AccessQuery.Outlook.map_gatherSteps` — what is selected;
* `AccessQuery.Session.resolve_pruned` — the matches of the two resolutions.
-/

import AccessQuery.Proofs.Semantics
import AccessQuery.Proofs.Trunk

set_option relaxedAutoImplicit false
set_option autoImplicit false

namespace AccessQuery

variable {tree : Tree}

/-! ### Steps that cannot tell -/

/-- Whether a test reads the place of a node among its siblings or the number of its children as an
attribute, in any spelling. -/
def AttrRef.readsCounted : AttrRef → Bool
  | .named name =>
      canonicalName name == AttrName.indexInParent || canonicalName name == AttrName.childrenCount
  | .text => false

/-- Whether some test of a predicate does. -/
def Predicate.readsCounted : Predicate → Bool
  | .comparison attr _ _ | .function _ attr _ => attr.readsCounted
  | .position _ | .last => false
  | .and l r | .or l r => l.readsCounted || r.readsCounted

/-- Whether a step does not depend on hidden nodes: neither through attributes that count them nor,
for a self step, through the place of a node. -/
def Step.ignoresHidden (step : Step) : Bool :=
  step.predicate.all fun p => !p.readsCounted && !(step.axis == .self && p.usesPosition)

theorem AttrRef.value?_congr {attr : AttrRef} (hr : attr.readsCounted = false) {s t : Snapshot}
    (h : s.AgreeUncounted t) : attr.value? s = attr.value? t := by
  cases attr with
  | named name =>
      simp only [readsCounted, Bool.or_eq_false_iff, beq_eq_false_iff_ne] at hr
      exact h.get? hr.1 hr.2
  | text => rw [value?, value?, h.textContent?]

theorem Predicate.holds_congr {p : Predicate} (hr : p.readsCounted = false) {s t : Snapshot}
    (h : s.AgreeUncounted t) (place count : Nat) :
    p.holds s place count = p.holds t place count := by
  induction p with
  | comparison attr op value => rw [holds, holds, AttrRef.value?_congr hr h]
  | function func attr value => rw [holds, holds, AttrRef.value?_congr hr h]
  | position | last => rfl
  | and l r ihl ihr | or l r ihl ihr =>
      simp only [readsCounted, Bool.or_eq_false_iff] at hr
      rw [holds, holds, ihl hr.1, ihr hr.2]

/-- A step that cannot tell says the same of a node that is left as of the node that it comes
from. -/
theorem Step.passes_origin {step : Step} (hs : step.ignoresHidden = true) (t : tree.Trunk)
    (node : t.cut.NodeId) (position : SiblingPosition) :
    step.passes node position = step.passes (t.origin node) position := by
  have h := t.attributes_origin node
  rw [passes, passes, h.role?]
  cases hp : step.predicate with
  | none => rw [Option.all_none, Option.all_none]
  | some p =>
      simp only [ignoresHidden, hp, Option.all_some, Bool.and_eq_true, Bool.not_eq_true'] at hs
      rw [Option.all_some, Option.all_some, Predicate.holds_congr hs.1 h]

/-- A self step that cannot tell does not look at places. -/
theorem Step.passes_of_self {step : Step} (hs : step.ignoresHidden = true)
    (ha : step.axis = .self) (node : tree.NodeId) (p q : SiblingPosition) :
    step.passes node p = step.passes node q := by
  rw [passes, passes]
  cases hp : step.predicate with
  | none => rw [Option.all_none, Option.all_none]
  | some predicate =>
      simp only [ignoresHidden, hp, ha, Option.all_some, beq_self_eq_true, Bool.true_and,
        Bool.and_eq_true, Bool.not_eq_true'] at hs
      rw [Option.all_some, Option.all_some, Predicate.holds_of_usesPosition hs.2]

/-- Options that differ in nothing that matters to what is selected but whether hidden nodes are
passed over. -/
structure ResolveOptions.PassesOver (on off : ResolveOptions) : Prop where
  visible : on.visibleOnly = true
  all : off.visibleOnly = false
  maxDepth_eq : off.maxDepth = on.maxDepth

theorem ResolveOptions.PassesOver.allowsBelow_eq {on off : ResolveOptions} (h : on.PassesOver off)
    (depth : Nat) : off.allowsBelow depth = on.allowsBelow depth := by
  rw [allowsBelow, allowsBelow, h.maxDepth_eq]

/-! ### The smaller tree -/

theorem idxOf_map {α β : Type} [DecidableEq α] [DecidableEq β] {f : α → β}
    (hf : Function.Injective f) (l : List α) (a : α) : (l.map f).idxOf (f a) = l.idxOf a := by
  induction l with
  | nil => rfl
  | cons b l ih =>
      have hb : (f b == f a) = (b == a) := by
        rw [Bool.eq_iff_iff, beq_iff_eq, beq_iff_eq, hf.eq_iff]
      rw [List.map_cons, List.idxOf_cons, List.idxOf_cons, hb, ih]

namespace Tree

variable {root : tree.NodeId} {on off : ResolveOptions}

/-- The nodes that are left when those below a root that are not showing are deleted, with
everything below them. -/
def pruned (tree : Tree) (root : tree.NodeId) : tree.Trunk where
  keeps node := decide (∀ y, tree.Above root y → tree.AtOrAbove y node →
    (tree.attributes y).isShowing = true)
  keeps_parent hp hkeeps := by
    simp only [decide_eq_true_eq] at hkeeps ⊢
    exact fun y hroot hy => hkeeps y hroot (hy.trans (Or.inr (.parent hp)))

/-- The tree without the hidden nodes below a root and without what is below them. -/
abbrev prune (tree : Tree) (root : tree.NodeId) : Tree :=
  (tree.pruned root).cut

/-- The node that a node of the smaller tree comes from. -/
abbrev unpruned (root : tree.NodeId) (node : (tree.prune root).NodeId) : tree.NodeId :=
  (tree.pruned root).origin node

theorem keeps_pruned {node : tree.NodeId} : (tree.pruned root).keeps node = true ↔
    ∀ y, tree.Above root y → tree.AtOrAbove y node → (tree.attributes y).isShowing = true :=
  decide_eq_true_iff

/-- The root itself is left. -/
theorem keeps_root (root : tree.NodeId) : (tree.pruned root).keeps root = true := by
  refine keeps_pruned.2 fun y hroot hy => ?_
  exact absurd (hroot.of_atOrAbove hy) (Above.irrefl root)

/-- The root, as a node of the smaller tree. -/
def prunedRoot (root : tree.NodeId) : (tree.prune root).NodeId :=
  (tree.pruned root).left root (keeps_root root)

theorem unpruned_prunedRoot (root : tree.NodeId) : unpruned root (prunedRoot root) = root :=
  (tree.pruned root).origin_left root _

/-- What is left at or below a showing root is showing. -/
theorem showing_unpruned (hshow : (tree.attributes root).isShowing = true)
    {node : (tree.prune root).NodeId} (hroot : tree.AtOrAbove root (unpruned root node)) :
    (tree.attributes (unpruned root node)).isShowing = true := by
  rcases hroot with heq | hroot
  · exact heq ▸ hshow
  · exact keeps_pruned.1 ((tree.pruned root).keeps_origin node) _ hroot (Or.inl rfl)

/-- Of the children of a node that is left, those that are showing are left. -/
theorem keeps_child {node child : tree.NodeId} (hkeeps : (tree.pruned root).keeps node = true)
    (hroot : tree.AtOrAbove root node) (hp : tree.parent? child = some node) :
    (tree.pruned root).keeps child = (tree.attributes child).isShowing := by
  have hchild : tree.Above node child := .parent hp
  rw [Bool.eq_iff_iff, keeps_pruned]
  constructor
  · intro h
    refine h child ?_ (Or.inl rfl)
    rcases hroot with rfl | hroot
    · exact hchild
    · exact hroot.trans hchild
  · rintro h y hrooty (rfl | hy)
    · exact h
    · exact keeps_pruned.1 hkeeps y hrooty (hy.of_child hp)

/-- The children that are left are those that a resolution takes notice of. -/
theorem map_seenChildren (h : on.PassesOver off) {node : (tree.prune root).NodeId}
    (hroot : tree.AtOrAbove root (unpruned root node)) :
    ((tree.prune root).seenChildren off node).map (unpruned root) =
      tree.seenChildren on (unpruned root node) := by
  rw [seenChildren, h.all, seenChildren, h.visible]
  refine ((tree.pruned root).map_children node).trans (List.filter_congr fun child hc => ?_)
  exact keeps_child ((tree.pruned root).keeps_origin node) hroot (tree.mem_children.1 hc)

theorem atOrAbove_of_seen {node child : (tree.prune root).NodeId}
    (hroot : tree.AtOrAbove root (unpruned root node))
    (hc : child ∈ (tree.prune root).seenChildren off node) :
    tree.AtOrAbove root (unpruned root child) :=
  hroot.trans ((tree.pruned root).atOrAbove_origin (Or.inr (.parent (parent?_of_seen hc))))

/-- Places among the children are kept. -/
theorem seenPlace_unpruned (h : on.PassesOver off) {node child : (tree.prune root).NodeId}
    (hroot : tree.AtOrAbove root (unpruned root node))
    (hc : child ∈ (tree.prune root).seenChildren off node) :
    (tree.prune root).seenPlace off child = tree.seenPlace on (unpruned root child) := by
  have hp := (tree.pruned root).parent?_origin child
  have hnew := parent?_of_seen hc
  rw [hnew, Option.map_some] at hp
  simp only [seenPlace, hnew, hp, ← map_seenChildren h hroot, List.length_map]
  rw [idxOf_map (tree.pruned root).origin_injective]

/-- A walk meets the same nodes. -/
theorem map_descend (h : on.PassesOver off) {fuel depth : Nat} {node : (tree.prune root).NodeId}
    (hroot : tree.AtOrAbove root (unpruned root node)) :
    ((tree.prune root).descend off fuel depth node).map (unpruned root) =
      tree.descend on fuel depth (unpruned root node) := by
  induction fuel generalizing depth node with
  | zero => rfl
  | succ fuel ih =>
      rw [descend, descend, ← map_seenChildren h hroot, List.map_flatMap, List.flatMap_map]
      refine List.flatMap_congr fun child hc => ?_
      rw [List.map_cons, h.allowsBelow_eq]
      split
      · rw [ih (atOrAbove_of_seen hroot hc)]
      · rfl

end Tree

namespace Outlook

variable {root : tree.NodeId} {o : Outlook tree} {o' : Outlook (tree.prune root)} {step : Step}

/-! ### What is selected -/

/-- Two outlooks without faults, of which the one passes over the hidden nodes that the other's tree
does not have. -/
structure Prunes (o : Outlook tree) (o' : Outlook (tree.prune root)) : Prop where
  options : o.options.PassesOver o'.options
  faultless : o.Faultless
  faultless_pruned : o'.Faultless
  root_showing : (tree.attributes root).isShowing = true

/-- A step admits the same children. -/
theorem admits_unpruned (h : o.Prunes o') (hs : step.ignoresHidden = true)
    {node child : (tree.prune root).NodeId}
    (hroot : tree.AtOrAbove root (Tree.unpruned root node))
    (hc : child ∈ (tree.prune root).seenChildren o'.options node) :
    o'.admits step child = o.admits step (Tree.unpruned root child) := by
  rw [admits, admits, Step.passes_origin hs, Tree.seenPlace_unpruned h.options hroot hc]

/-- A self step selects the same nodes. -/
theorem judge_unpruned (h : o.Prunes o') (hs : step.ignoresHidden = true)
    (ha : step.axis = .self) {node : (tree.prune root).NodeId}
    (hroot : tree.AtOrAbove root (Tree.unpruned root node)) :
    o'.judge step node none = o.judge step (Tree.unpruned root node) none := by
  rw [judge_faultless h.faultless_pruned, judge_faultless h.faultless, h.options.all,
    Tree.showing_unpruned h.root_showing hroot, Option.getD_none, Option.getD_none,
    Step.passes_origin hs, Step.passes_of_self hs ha (Tree.unpruned root node) _
      ⟨(tree.place (Tree.unpruned root node)).1, (tree.place (Tree.unpruned root node)).2⟩]
  simp

/-- A step selects the same nodes from one at or below the root. -/
theorem map_candidates (h : o.Prunes o') (hs : step.ignoresHidden = true)
    {node : (tree.prune root).NodeId} (hroot : tree.AtOrAbove root (Tree.unpruned root node)) :
    (o'.candidates step node).map (Tree.unpruned root) =
      o.candidates step (Tree.unpruned root node) := by
  unfold candidates
  cases ha : step.axis with
  | self =>
      dsimp only
      rw [judge_unpruned h hs ha hroot]
      split <;> rfl
  | child =>
      dsimp only
      rw [← Tree.map_seenChildren h.options hroot, List.filter_map]
      congr 1
      exact List.filter_congr fun child hc => admits_unpruned h hs hroot hc
  | descendant | any =>
      dsimp only
      -- the smaller tree comes with less fuel, which is enough
      have hfuel : (tree.prune root).descend o'.options (tree.prune root).size 1 node =
          (tree.prune root).descend o'.options tree.size 1 node :=
        Tree.descend_eq_of_le (Nat.le_add_left _ _) (tree.pruned root).size_cut_le
      rw [hfuel, ← Tree.map_descend h.options hroot, List.filter_map]
      congr 1
      refine List.filter_congr fun x hx => ?_
      obtain ⟨parent, hparent, hx⟩ := Tree.exists_parent_of_mem_descend hx
      exact admits_unpruned h hs (hroot.trans ((tree.pruned root).atOrAbove_origin hparent)) hx

/-- What a query gathers from nodes at or below the root it gathers from the nodes that they come
from. -/
theorem map_gatherSteps (h : o.Prunes o') {steps : List Step}
    (hs : ∀ step ∈ steps, step.ignoresHidden = true) {nodes : List (tree.prune root).NodeId}
    (hroot : ∀ node ∈ nodes, tree.AtOrAbove root (Tree.unpruned root node)) :
    (o'.gatherSteps steps nodes).map (Tree.unpruned root) =
      o.gatherSteps steps (nodes.map (Tree.unpruned root)) := by
  induction steps generalizing nodes with
  | nil => rfl
  | cons step rest ih =>
      have hstep := hs step List.mem_cons_self
      have hgather : (AccessQuery.gather (o'.candidates step) nodes).map (Tree.unpruned root) =
          AccessQuery.gather (o.candidates step) (nodes.map (Tree.unpruned root)) :=
        gather_map (tree.pruned root).origin_injective
          fun node hn => map_candidates h hstep (hroot node hn)
      rw [gatherSteps, gatherSteps, List.foldl_cons, List.foldl_cons, ← hgather]
      refine ih (fun step hmem => hs step (List.mem_cons_of_mem _ hmem)) fun x hx => ?_
      -- nothing is selected that is not at or below the node that it is selected from
      obtain ⟨c, hc, hx⟩ := mem_gather.1 hx
      have hx := List.mem_map_of_mem (f := Tree.unpruned root) hx
      rw [map_candidates h hstep (hroot c hc), mem_candidates h.faultless] at hx
      exact (hroot c hc).trans hx.atOrAbove

end Outlook

/-! ### Resolutions -/

namespace Session

variable {node : tree.NodeId} {on off : ResolveOptions} {start : Session tree}
variable {start' : Session (tree.prune node)} {root root' : Handle}

/-- A resolution that passes over hidden nodes matches the nodes that a resolution without regard
to that matches on the smaller tree, in the same order. -/
theorem resolve_pruned (h : start.Undisturbed on root node)
    (h' : start'.Undisturbed off root' (Tree.prunedRoot node)) (ho : on.PassesOver off)
    (hshow : (tree.attributes node).isShowing = true) {query : Query}
    (hs : ∀ step ∈ query.steps, step.ignoresHidden = true) :
    ∃ (found : List Handle) (after : Session tree) (found' : List Handle)
      (after' : Session (tree.prune node)) (nodes : List (tree.prune node).NodeId),
      resolve on query root start = (.ok found, after) ∧
      resolve off query root' start' = (.ok found', after') ∧
      after'.nodesOf found' = nodes.map some ∧
      after.nodesOf found = (nodes.map (Tree.unpruned node)).map some := by
  obtain ⟨found, after, hrun, hnodes⟩ := resolve_undisturbed h query
  obtain ⟨found', after', hrun', hnodes'⟩ := resolve_undisturbed h' query
  refine ⟨found, after, found', after', _, hrun, hrun', hnodes', ?_⟩
  have hprunes : (start.outlook on).Prunes (start'.outlook off) :=
    ⟨ho, h.faultless_outlook, h'.faultless_outlook, hshow⟩
  have hroot : ∀ left ∈ [Tree.prunedRoot node],
      tree.AtOrAbove node (Tree.unpruned node left) := by
    intro left hleft
    rw [List.mem_singleton.1 hleft, Tree.unpruned_prunedRoot]
    exact Or.inl rfl
  rw [hnodes, Outlook.map_gatherSteps hprunes hs hroot, List.map_singleton,
    Tree.unpruned_prunedRoot]

/-- Below the root of a tree that has a hidden node with a showing one below it. -/
theorem resolve_pruned_opening :
    let shown (role : String) := (Element.new role "").setStates "showing"
    let tree := ((((Tree.single (shown "frame")).addChild ⟨0, by decide⟩
      (Element.new "panel" "")).addChild ⟨0, by decide⟩ (shown "panel")).addChild ⟨1, by decide⟩
      (shown "label")).addChild ⟨2, by decide⟩ (shown "label")
    let root : tree.NodeId := ⟨0, by decide⟩
    let opened := opening tree root fun _ _ => none
    let opened' := opening (tree.prune root) (Tree.prunedRoot root) fun _ _ => none
    let on : ResolveOptions := { visibleOnly := true, maxDepth := some 2 }
    let off : ResolveOptions := { maxDepth := some 2 }
    let query : Query :=
      ⟨[⟨.self, .role "frame", none⟩, ⟨.descendant, .role "panel", some (.position 1)⟩,
        ⟨.child, .wildcard, some (.comparison (.named "name") .eq (.text ""))⟩], by decide⟩
    opened.2.Undisturbed on opened.1 root ∧
      opened'.2.Undisturbed off opened'.1 (Tree.prunedRoot root) ∧ on.PassesOver off ∧
      (tree.attributes root).isShowing = true ∧
      (∀ step ∈ query.steps, step.ignoresHidden = true) ∧
      ∃ (found : List Handle) (after : Session tree) (found' : List Handle)
        (after' : Session (tree.prune root)) (nodes : List (tree.prune root).NodeId),
        resolve on query opened.1 opened.2 = (.ok found, after) ∧
        resolve off query opened'.1 opened'.2 = (.ok found', after') ∧
        after'.nodesOf found' = nodes.map some ∧
        after.nodesOf found = (nodes.map (Tree.unpruned root)).map some := by
  intro shown tree root opened opened' on off query
  have h : opened.2.Undisturbed on opened.1 root := undisturbed_opening tree root (by decide) rfl
  have h' : opened'.2.Undisturbed off opened'.1 (Tree.prunedRoot root) :=
    undisturbed_opening (tree.prune root) (Tree.prunedRoot root) (by decide) rfl
  have ho : on.PassesOver off := ⟨rfl, rfl, rfl⟩
  have hshow : (tree.attributes root).isShowing = true := by decide +kernel
  have hs : ∀ step ∈ query.steps, step.ignoresHidden = true := by decide +kernel
  exact ⟨h, h', ho, hshow, hs, resolve_pruned h h' ho hshow hs⟩

end Session

end AccessQuery
