/-
**A condition on the last step, and a step of its own for it.**

A query can be narrowed in two ways: a further predicate is added to its last step, or a self step
with that predicate follows.  Both sift the nodes that the query selects, in the order in which it
gathers them.  They differ in the place that a node is said to have.  A step to children, or below,
counts the children that are seen; a self step asks the tree, which counts all of them.  Where
hidden nodes are passed over, the two places need not be the same, and then neither are the
matches.

Main definitions:

* `AccessQuery.Query.narrowed`, `AccessQuery.Query.sifted` — the two ways;
* `AccessQuery.Step.placeOf` — the place by which a step judges a node.

Main results:

* `AccessQuery.Outlook.gatherSteps_narrowed`, `AccessQuery.Outlook.gatherSteps_sifted` — what the
  two queries gather;
* `AccessQuery.Session.resolve_narrowed_iff` — when their matches are the same.
-/

import AccessQuery.Proofs.Semantics

set_option relaxedAutoImplicit false
set_option autoImplicit false

namespace AccessQuery

variable {tree : Tree} {options : ResolveOptions} {step : Step} {p : Predicate}
variable {node x : tree.NodeId}

/-! ### Two ways to narrow a query -/

/-- A step with a further condition. -/
def Step.narrowed (step : Step) (p : Predicate) : Step :=
  { step with predicate := Predicate.both? step.predicate (some p) }

/-- The step that keeps the nodes of which a predicate holds. -/
def Step.sieve (p : Predicate) : Step :=
  ⟨.self, .wildcard, some p⟩

namespace Query

/-- The last step of a query. -/
def lastStep (query : Query) : Step :=
  query.steps.getLast query.steps_ne_nil

/-- A query with a further condition on its last step. -/
def narrowed (query : Query) (p : Predicate) : Query :=
  ⟨query.steps.dropLast ++ [query.lastStep.narrowed p], by simp⟩

/-- A query followed by a self step with a condition. -/
def sifted (query : Query) (p : Predicate) : Query :=
  ⟨query.steps ++ [.sieve p], by simp⟩

theorem steps_eq_concat (query : Query) :
    query.steps = query.steps.dropLast ++ [query.lastStep] :=
  (List.dropLast_concat_getLast query.steps_ne_nil).symm

end Query

/-! ### Places -/

/-- The place of a node among all children of its parent. -/
def Tree.fullPlace (tree : Tree) (node : tree.NodeId) : SiblingPosition :=
  ⟨(tree.place node).1, (tree.place node).2⟩

/-- The place by which a step judges a node. -/
def Step.placeOf (step : Step) (options : ResolveOptions) (node : tree.NodeId) : SiblingPosition :=
  if step.axis = .self then tree.fullPlace node else tree.seenPlace options node

/-- Whether a predicate holds of a node at a place, which it counts from one. -/
def Predicate.holdsAt (p : Predicate) (node : tree.NodeId) (position : SiblingPosition) : Bool :=
  p.holds (tree.attributes node) (position.index + 1) position.count

/-- Where all nodes are taken notice of, all children are seen. -/
theorem Tree.seenPlace_eq_fullPlace (hv : options.visibleOnly = false) (node : tree.NodeId) :
    tree.seenPlace options node = tree.fullPlace node := by
  have hseen (parent : tree.NodeId) : tree.seenChildren options parent = tree.children parent := by
    rw [Tree.seenChildren, hv]
    rfl
  rw [Tree.seenPlace, Tree.fullPlace, Tree.place]
  cases tree.parent? node with
  | none => rfl
  | some parent => simp only [hseen parent]

/-- The place by which a step judges a node makes no difference where it is the place in the tree,
or where the predicate does not look at it. -/
theorem Predicate.holdsAt_placeOf
    (h : options.visibleOnly = false ∨ p.usesPosition = false ∨ step.axis = .self)
    (node : tree.NodeId) :
    p.holdsAt node (step.placeOf options node) = p.holdsAt node (tree.fullPlace node) := by
  by_cases ha : step.axis = .self
  · rw [Step.placeOf, if_pos ha]
  rw [Step.placeOf, if_neg ha]
  rcases h with hv | hp | hself
  · rw [Tree.seenPlace_eq_fullPlace hv]
  · exact Predicate.holds_of_usesPosition hp _ _ _ _ _
  · exact absurd hself ha

theorem Step.passes_narrowed (step : Step) (p : Predicate) (node : tree.NodeId)
    (position : SiblingPosition) : (step.narrowed p).passes node position =
      (step.passes node position && p.holdsAt node position) := by
  have htest : (step.narrowed p).admitsRole = step.admitsRole := rfl
  rw [passes, passes, htest, Bool.and_assoc, narrowed]
  cases step.predicate with
  | none => rfl
  | some q => rfl

/-- Where hidden nodes are passed over, what a step selects is showing. -/
theorem Step.Selects.isShowing {c : tree.NodeId} (h : step.Selects options c x)
    (hv : options.visibleOnly = true) : (tree.attributes x).isShowing = true := by
  unfold Step.Selects at h
  cases ha : step.axis <;> rw [ha] at h
  case self => exact h.2.1 hv
  case child => exact Tree.showing_of_seen h.1 hv
  case descendant | any =>
    obtain ⟨⟨n, hn, hx⟩, _⟩ := h
    obtain ⟨n, rfl⟩ := Nat.exists_eq_succ_of_ne_zero (Nat.one_le_iff_ne_zero.1 hn.1)
    cases hx with
    | deeper _ hx => exact Tree.showing_of_seen hx hv

/-! ### What the two queries gather -/

namespace Outlook

variable {o : Outlook tree} {nodes : List tree.NodeId}

/-- A further condition sifts what a step selects from one node. -/
theorem candidates_narrowed (hf : o.Faultless) (step : Step) (p : Predicate) (c : tree.NodeId) :
    o.candidates (step.narrowed p) c = (o.candidates step c).filter fun x =>
      p.holdsAt x (step.placeOf o.options x) := by
  have hadmits (ha : step.axis ≠ .self) (x : tree.NodeId) : o.admits (step.narrowed p) x =
      (p.holdsAt x (step.placeOf o.options x) && o.admits step x) := by
    rw [admits, Step.passes_narrowed, Bool.and_comm, Step.placeOf, if_neg ha, admits]
  have haxis : (step.narrowed p).axis = step.axis := rfl
  unfold candidates
  rw [haxis]
  cases ha : step.axis with
  | self =>
      have hplace : step.placeOf o.options c = tree.fullPlace c := if_pos ha
      dsimp only
      rw [judge_faultless hf, judge_faultless hf, Option.getD_none, Step.passes_narrowed]
      cases hc : (o.options.visibleOnly && !(tree.attributes c).isShowing) with
      | true => rfl
      | false =>
          cases step.passes c ⟨(tree.place c).1, (tree.place c).2⟩ with
          | false => rfl
          | true =>
              have hholds : p.holdsAt c ⟨(tree.place c).1, (tree.place c).2⟩ =
                  p.holdsAt c (step.placeOf o.options c) := by rw [hplace]; rfl
              rw [Bool.true_and, hholds]
              cases hp : p.holdsAt c (step.placeOf o.options c) <;> simp [hp]
  | child | descendant | any =>
      dsimp only
      rw [List.filter_filter]
      exact List.filter_congr fun x _ => hadmits (by simp [ha]) x

/-- A sieve keeps a node that is showing if its predicate holds at its place in the tree. -/
theorem candidates_sieve (hf : o.Faultless) (p : Predicate) (c : tree.NodeId)
    (hshow : o.options.visibleOnly = true → (tree.attributes c).isShowing = true) :
    o.candidates (.sieve p) c = [c].filter fun x => p.holdsAt x (tree.fullPlace x) := by
  have hhidden : (o.options.visibleOnly && !(tree.attributes c).isShowing) = false := by
    cases hv : o.options.visibleOnly with
    | false => rfl
    | true => simp [hshow hv]
  have hpasses : (Step.sieve p).passes c ⟨(tree.place c).1, (tree.place c).2⟩ =
      p.holdsAt c (tree.fullPlace c) :=
    Bool.true_and _
  have haxis : (Step.sieve p).axis = .self := rfl
  unfold candidates
  rw [haxis]
  dsimp only
  rw [judge_faultless hf, Option.getD_none, hhidden, hpasses]
  cases hp : p.holdsAt c (tree.fullPlace c) <;> simp [hp]

theorem gatherSteps_concat (o : Outlook tree) (steps : List Step) (step : Step)
    (nodes : List tree.NodeId) : o.gatherSteps (steps ++ [step]) nodes =
      AccessQuery.gather (o.candidates step) (o.gatherSteps steps nodes) := by
  rw [gatherSteps, List.foldl_append]
  rfl

/-- A query with a further condition on its last step gathers what the query gathers, sifted by the
place that the last step goes by. -/
theorem gatherSteps_narrowed (hf : o.Faultless) (query : Query) (p : Predicate)
    (nodes : List tree.NodeId) : o.gatherSteps (query.narrowed p).steps nodes =
      (o.gatherSteps query.steps nodes).filter fun x =>
        p.holdsAt x (query.lastStep.placeOf o.options x) := by
  have hcandidates : o.candidates (query.lastStep.narrowed p) = fun c =>
      (o.candidates query.lastStep c).filter fun x =>
        p.holdsAt x (query.lastStep.placeOf o.options x) :=
    funext fun c => candidates_narrowed hf query.lastStep p c
  rw [query.steps_eq_concat, gatherSteps_concat, ← gather_filter, ← hcandidates]
  exact gatherSteps_concat o query.steps.dropLast (query.lastStep.narrowed p) nodes

/-- A query followed by a sieve gathers what the query gathers, sifted by the place in the tree. -/
theorem gatherSteps_sifted (hf : o.Faultless) (query : Query) (p : Predicate) {root : tree.NodeId}
    (h : o.Frontier root nodes) : o.gatherSteps (query.sifted p).steps nodes =
      (o.gatherSteps query.steps nodes).filter fun x => p.holdsAt x (tree.fullPlace x) := by
  have hnodup := (h.gatherSteps hf query.steps).nodup
  -- everything gathered has been selected by the last step, so it is showing
  have hshow : ∀ x ∈ o.gatherSteps query.steps nodes,
      o.options.visibleOnly = true → (tree.attributes x).isShowing = true := by
    intro x hx
    rw [query.steps_eq_concat, gatherSteps_concat] at hx
    obtain ⟨c, _, hx⟩ := mem_gather.1 hx
    exact ((mem_candidates hf).1 hx).isShowing
  have hcandidates :
      AccessQuery.gather (o.candidates (.sieve p)) (o.gatherSteps query.steps nodes) =
      AccessQuery.gather (fun c => [c].filter fun x => p.holdsAt x (tree.fullPlace x))
        (o.gatherSteps query.steps nodes) :=
    gather_congr fun c hc => candidates_sieve hf p c (hshow c hc)
  have hsingle : AccessQuery.gather (fun c => [c]) (o.gatherSteps query.steps nodes) =
      o.gatherSteps query.steps nodes := by
    rw [gather_eq_flatMap (hnodup.imp fun hne x hx => by simp_all), List.flatMap_singleton']
  rw [Query.sifted, gatherSteps_concat, hcandidates, gather_filter (fun c => [c]), hsingle]

end Outlook

/-! ### Resolutions -/

/-- Sifting a list by two tests comes to the same if they agree on its members. -/
theorem filter_eq_filter_iff {α : Type} {l : List α} {keep keep' : α → Bool} :
    l.filter keep = l.filter keep' ↔ ∀ a ∈ l, keep a = keep' a := by
  refine ⟨fun h a ha => ?_, List.filter_congr⟩
  have hmem : a ∈ l.filter keep ↔ a ∈ l.filter keep' := by rw [h]
  rw [List.mem_filter, List.mem_filter] at hmem
  exact Bool.eq_iff_iff.2 ⟨fun hk => (hmem.1 ⟨ha, hk⟩).2, fun hk => (hmem.2 ⟨ha, hk⟩).2⟩

namespace Session

variable {start : Session tree} {root : Handle}

/-- A query with a condition on its last step and the query followed by a self step with that
condition have the same matches in the same order exactly if the condition says the same of every
node that the query selects, at the place by which the last step goes and at its place in the tree.
This is so if no hidden nodes are passed over, if the condition does not look at places, or if the
last step is a self step too. -/
theorem resolve_narrowed_iff (h : start.Undisturbed options root node) (query : Query)
    (p : Predicate) :
    ∃ (found found' : List Handle) (after after' : Session tree) (nodes nodes' : List tree.NodeId),
      resolve options (query.narrowed p) root start = (.ok found, after) ∧
      after.nodesOf found = nodes.map some ∧
      resolve options (query.sifted p) root start = (.ok found', after') ∧
      after'.nodesOf found' = nodes'.map some ∧
      (nodes = nodes' ↔ ∀ x ∈ selection options query.steps {node},
        p.holdsAt x (query.lastStep.placeOf options x) = p.holdsAt x (tree.fullPlace x)) ∧
      (options.visibleOnly = false ∨ p.usesPosition = false ∨ query.lastStep.axis = .self →
        nodes = nodes') := by
  have hf := h.faultless_outlook
  obtain ⟨found, after, hrun, hnodes⟩ := resolve_undisturbed h (query.narrowed p)
  obtain ⟨found', after', hrun', hnodes'⟩ := resolve_undisturbed h (query.sifted p)
  rw [Outlook.gatherSteps_narrowed hf, Session.outlook_options] at hnodes
  rw [Outlook.gatherSteps_sifted hf query p (Outlook.Frontier.singleton _ node)] at hnodes'
  refine ⟨found, found', after, after', _, _, hrun, hnodes, hrun', hnodes', ?_, fun hplace => ?_⟩
  · rw [filter_eq_filter_iff]
    exact forall_congr' fun x => by rw [mem_gathered_iff h query]
  · exact List.filter_congr fun x _ => Predicate.holdsAt_placeOf hplace x

/-- Below the root of a tree in which a hidden node comes first, with a condition that does not look
at places. -/
theorem resolve_narrowed_iff_opening :
    let shown (name : String) := ((Element.new "label" name).setStates "showing")
    let tree := (((Tree.single (Element.new "frame" "")).addChild ⟨0, by decide⟩
      (Element.new "label" "a")).addChild ⟨0, by decide⟩ (shown "b")).addChild ⟨0, by decide⟩
      (shown "a")
    let opened := opening tree ⟨0, by decide⟩ fun _ _ => none
    let options : ResolveOptions := { visibleOnly := true, maxDepth := some 1 }
    let query : Query := ⟨[⟨.descendant, .role "label", some (.or (.position 2) .last)⟩], by decide⟩
    let p : Predicate := .comparison (.named "name") .eq (.text "a")
    opened.2.Undisturbed options opened.1 ⟨0, by decide⟩ ∧
      ∃ (found found' : List Handle) (after after' : Session tree)
        (nodes nodes' : List tree.NodeId),
        resolve options (query.narrowed p) opened.1 opened.2 = (.ok found, after) ∧
        after.nodesOf found = nodes.map some ∧
        resolve options (query.sifted p) opened.1 opened.2 = (.ok found', after') ∧
        after'.nodesOf found' = nodes'.map some ∧
        (nodes = nodes' ↔ ∀ x ∈ selection options query.steps {⟨0, by decide⟩},
          p.holdsAt x (query.lastStep.placeOf options x) = p.holdsAt x (tree.fullPlace x)) ∧
        (options.visibleOnly = false ∨ p.usesPosition = false ∨ query.lastStep.axis = .self →
          nodes = nodes') := by
  intro shown tree opened options query p
  have h : opened.2.Undisturbed options opened.1 ⟨0, by decide⟩ :=
    undisturbed_opening tree ⟨0, by decide⟩ (by decide) rfl
  exact ⟨h, resolve_narrowed_iff h query p⟩

/-- Behind a hidden sibling, the first node that is showing is not the first child: it is matched
where the condition stands on the step that finds it, and not where it stands on a self step. -/
theorem resolve_narrowed_ne :
    let tree := ((Tree.single (Element.new "frame" "")).addChild ⟨0, by decide⟩
      (Element.new "label" "")).addChild ⟨0, by decide⟩
      ((Element.new "label" "").setStates "showing")
    let opened := opening tree ⟨0, by decide⟩ fun _ _ => none
    let options : ResolveOptions := { visibleOnly := true }
    let query : Query := ⟨[⟨.descendant, .role "label", none⟩], by decide⟩
    opened.2.Undisturbed options opened.1 ⟨0, by decide⟩ ∧
      ∃ (found found' : List Handle) (after after' : Session tree),
        resolve options (query.narrowed (.position 1)) opened.1 opened.2 = (.ok found, after) ∧
        after.nodesOf found = [some ⟨2, by decide⟩] ∧
        resolve options (query.sifted (.position 1)) opened.1 opened.2 = (.ok found', after') ∧
        after'.nodesOf found' = [] := by
  intro tree opened options query
  have h : opened.2.Undisturbed options opened.1 ⟨0, by decide⟩ :=
    undisturbed_opening tree ⟨0, by decide⟩ (by decide) rfl
  have hgather : (opened.2.outlook options).gatherSteps (query.narrowed (.position 1)).steps
      [⟨0, by decide⟩] = [⟨2, by decide⟩] := by decide +kernel
  have hgather' : (opened.2.outlook options).gatherSteps (query.sifted (.position 1)).steps
      [⟨0, by decide⟩] = [] := by decide +kernel
  obtain ⟨found, after, hrun, hnodes⟩ := resolve_undisturbed h (query.narrowed (.position 1))
  obtain ⟨found', after', hrun', hnodes'⟩ := resolve_undisturbed h (query.sifted (.position 1))
  rw [hgather] at hnodes
  rw [hgather'] at hnodes'
  exact ⟨h, found, found', after, after', hrun, hnodes, hrun', hnodes'⟩

end Session

end AccessQuery
