/-
**A resolution, step by step.**

Between two steps of a resolution there is a frontier, and the walk has come to some state.  A stage
is a step together with what it starts from.  The stages of a resolution are those of its steps that
are taken: the last of them is that of the last step, unless a step before it fails or selects
nothing.  What comes of the last stage is what comes of the resolution.

At every stage the nodes of the frontier are in hand, and nothing else is.  They are those that the
steps before it select, according to the outlook.

Main definitions:

* `AccessQuery.Stage`, `AccessQuery.Stage.taken` — a step about to be taken, and what comes of it;
* `AccessQuery.Walk.stages`, `AccessQuery.Session.stages` — the stages of a walk and of a
  resolution;
* `AccessQuery.Walk.Stands` — which nodes are in hand.

Main results:

* `AccessQuery.Walk.stages_cons_cases` — one step, and the stages after it;
* `AccessQuery.Walk.applySteps_eq_stages` — what comes of a walk comes of its last stage;
* `AccessQuery.Walk.forall_mem_stages` — what every step that is taken preserves holds of every
  stage;
* `AccessQuery.Walk.Stands.of_taken` — what is in hand after a step.
-/

import AccessQuery.Proofs.Steady

set_option relaxedAutoImplicit false
set_option autoImplicit false

namespace AccessQuery

variable {tree : Tree}

/-! ### Stages -/

/-- A step of a resolution that is about to be taken. -/
structure Stage (tree : Tree) where
  /-- The step. -/
  step : Step
  /-- The steps after it. -/
  later : List Step
  /-- What it is taken from. -/
  frontier : List Handle
  /-- The state of the walk. -/
  before : Walk tree

/-- What comes of the step, and the state in which it leaves the walk. -/
def Stage.taken (options : ResolveOptions) (demand : Demand) (stage : Stage tree) :
    Expansion × Walk tree :=
  Walk.applyStep options stage.step (if stage.later.isEmpty then demand else .all) stage.frontier
    stage.before

namespace Walk

/-- The stages of a walk. -/
def stages (options : ResolveOptions) (demand : Demand) :
    List Step → List Handle → Walk tree → List (Stage tree)
  | [], _, _ => []
  | step :: rest, frontier, walk =>
      let stage : Stage tree := ⟨step, rest, frontier, walk⟩
      let (found, after) := stage.taken options demand
      stage :: if found.failure.isSome || found.selected.isEmpty then []
        else stages options demand rest found.selected after

variable {options : ResolveOptions} {demand : Demand} {steps rest : List Step} {step : Step}
variable {frontier selected : List Handle} {failure : Option ResolveError} {walk after : Walk tree}

/-- After a step the walk stops, or it goes on to the next stages. -/
theorem stages_cons_cases (options : ResolveOptions) (demand : Demand) (stage : Stage tree) :
    (applySteps options demand (stage.step :: stage.later) stage.frontier stage.before =
        stage.taken options demand ∧
      stages options demand (stage.step :: stage.later) stage.frontier stage.before = [stage]) ∨
    ((stage.taken options demand).1.failure = none ∧
      applySteps options demand (stage.step :: stage.later) stage.frontier stage.before =
        applySteps options demand stage.later (stage.taken options demand).1.selected
          (stage.taken options demand).2 ∧
      stages options demand (stage.step :: stage.later) stage.frontier stage.before =
        stage :: stages options demand stage.later (stage.taken options demand).1.selected
          (stage.taken options demand).2) := by
  rcases h : stage.taken options demand with ⟨⟨selected, failure⟩, after⟩
  rw [applySteps_cons h, stages]
  simp only [h]
  by_cases hstop : (failure.isSome || selected.isEmpty) = true
  · rw [if_pos hstop, if_pos hstop]
    exact Or.inl ⟨rfl, rfl⟩
  · rw [if_neg hstop, if_neg hstop]
    refine Or.inr ⟨?_, rfl, rfl⟩
    cases failure with
    | none => rfl
    | some error => exact absurd rfl hstop

/-- What comes of a walk comes of its last stage. -/
theorem applySteps_eq_stages (steps : List Step) (frontier : List Handle) (walk : Walk tree) :
    applySteps options demand steps frontier walk =
      ((stages options demand steps frontier walk).getLast?.map
        (Stage.taken options demand)).getD (⟨frontier, none⟩, walk) := by
  induction steps generalizing frontier walk with
  | nil => rfl
  | cons step rest ih =>
      rcases stages_cons_cases options demand ⟨step, rest, frontier, walk⟩ with
        ⟨hrun, hstages⟩ | ⟨hgoes, hrun, hstages⟩
      · rw [hrun, hstages, List.getLast?_singleton, Option.map_some, Option.getD_some]
      · rw [hrun, hstages, ih, List.getLast?_cons]
        dsimp only
        cases (stages options demand rest _ _).getLast? with
        | some stage => rfl
        | none =>
            -- nothing is left to be taken, so this step was the last
            rw [Option.map_none, Option.getD_none, Option.getD_none, Option.map_some,
              Option.getD_some, ← hgoes]

/-- What every step that is taken preserves holds of every stage. -/
theorem forall_mem_stages {P : Stage tree → Prop}
    (hnext : ∀ stage found after step rest, P stage → stage.later = step :: rest →
      stage.taken options demand = (⟨found, none⟩, after) → P ⟨step, rest, found, after⟩)
    (hfirst : ∀ step rest, steps = step :: rest → P ⟨step, rest, frontier, walk⟩) :
    ∀ stage ∈ stages options demand steps frontier walk, P stage := by
  induction steps generalizing frontier walk with
  | nil => exact fun stage hs => absurd hs List.not_mem_nil
  | cons step rest ih =>
      have hstage := hfirst step rest rfl
      rcases stages_cons_cases options demand ⟨step, rest, frontier, walk⟩ with
        ⟨-, hstages⟩ | ⟨hgoes, -, hstages⟩
      · rw [hstages]
        exact List.forall_mem_singleton.2 hstage
      · rw [hstages]
        refine List.forall_mem_cons.2 ⟨hstage, ih fun next others hrest => ?_⟩
        exact hnext _ _ _ _ _ hstage hrest (by rw [← hgoes])

/-! ### What is in hand -/

/-- Handles that are held denote their nodes. -/
theorem Keeps.nodesOf {start : Session tree} {root : NativeRef}
    {held holdings : List (Holding tree)} (h : Keeps start options root held walk)
    (hh : ∀ y ∈ holdings, y ∈ held) :
    walk.session.nodesOf (holdings.map Holding.handle) = (holdings.map Holding.node).map some := by
  rw [Session.nodesOf, List.map_map, List.map_map]
  exact List.map_congr_left fun y hy => h.custody.denotes y (hh y hy)

/-- Where a step cannot be taken, there is an obstacle. -/
theorem exists_obstacle_of_stepOutcome {o : Outlook tree} {atRoot : Bool}
    {nodes : List tree.NodeId} {e : BridgeError}
    (h : stepOutcome o step demand atRoot nodes = .error e) :
    ∃ node ∈ nodes, o.obstacle? step node = some e := by
  unfold stepOutcome at h
  cases atRoot with
  | false => cases h
  | true =>
      rw [if_pos rfl] at h
      cases hfound : nodes.findSome? (o.obstacle? step) with
      | none =>
          rw [hfound] at h
          cases h
      | some e' =>
          rw [hfound] at h
          cases h
          exact List.exists_of_findSome?_eq_some hfound

/-- The handles of a frontier denote these nodes, and nothing else is in hand. -/
def Stands (start : Session tree) (options : ResolveOptions) (x : Holding tree)
    (nodes : List tree.NodeId) (frontier : List Handle) (walk : Walk tree) : Prop :=
  ∃ (atRoot : Bool) (held : List (Holding tree)), frontier = held.map Holding.handle ∧
    held.map Holding.node = nodes ∧ IsFrontier x atRoot held ∧
    Keeps start options x.handle.ref held walk

namespace Stands

variable {start : Session tree} {x : Holding tree} {nodes : List tree.NodeId} {error : ResolveError}

theorem nodesOf (h : Stands start options x nodes frontier walk) :
    walk.session.nodesOf frontier = nodes.map some := by
  obtain ⟨_, held, rfl, rfl, -, hk⟩ := h
  exact hk.nodesOf fun _ hy => hy

/-- After a step, what it selects is in hand. -/
theorem of_taken (h : Stands start options x nodes frontier walk)
    (hb : x.handle.isBorrowed = true)
    (ht : applyStep options step demand frontier walk = (⟨selected, none⟩, after)) :
    Stands start options x (demand.cut ((start.outlook options).step step nodes)) selected
      after := by
  obtain ⟨atRoot, held, rfl, rfl, hf, hk⟩ := h
  rw [← List.append_nil held] at hk
  have htakes := applyStep_ensures step demand hb hf walk hk
  rw [ht] at htakes
  obtain ⟨kept, hsel, hans, hfrontier, -, hkeeps⟩ := htakes
  have hkept := (resolve_of_ok [] hans).1
  rw [List.append_nil] at hkeeps
  rcases hfrontier with rfl | hfrontier
  · exact ⟨false, [], hsel, hkept, by simp [IsFrontier], hkeeps⟩
  · exact ⟨_, kept, hsel, hkept, hfrontier, hkeeps⟩

/-- A step fails because the root cannot be read, or because it is interrupted. -/
theorem of_failed (h : Stands start options x nodes frontier walk)
    (hb : x.handle.isBorrowed = true)
    (ht : applyStep options step demand frontier walk = (⟨selected, some error⟩, after)) :
    (∃ e node, error = .rootUnreachable e ∧ node ∈ nodes ∧
        (start.outlook options).obstacle? step node = some e) ∨
      ∃ cause made, error = .interrupted cause ∧ options.interrupt? made = some cause := by
  obtain ⟨atRoot, held, rfl, rfl, hf, hk⟩ := h
  rw [← List.append_nil held] at hk
  have htakes := applyStep_ensures step demand hb hf walk hk
  rw [ht] at htakes
  obtain ⟨kept, -, hans, -⟩ := htakes
  cases error with
  | sessionMismatch _ _ => exact hans.elim
  | interrupted cause =>
      obtain ⟨made, hmade⟩ := hans
      exact Or.inr ⟨cause, made, rfl, hmade⟩
  | rootUnreachable e =>
      obtain ⟨node, hnode, he⟩ := exists_obstacle_of_stepOutcome hans
      exact Or.inl ⟨e, node, rfl, hnode, he⟩

end Stands

end Walk

/-! ### Resolutions -/

namespace Session

/-- The stages of a resolution.  A root of another session is refused, and no step is taken. -/
def stages (options : ResolveOptions) (demand : Demand) (query : Query) (root : Handle)
    (start : Session tree) : List (Stage tree) :=
  if root.session ≠ start.id then []
  else Walk.stages options demand query.steps [root.view] ⟨start, [], ∅⟩

variable {start : Session tree} {options : ResolveOptions} {root : Handle} {node : tree.NodeId}

/-- What holds at the start and every step that is taken preserves holds of every stage. -/
theorem forall_mem_stages {P : Stage tree → Prop} {demand : Demand}
    (hnext : ∀ stage found after step rest, P stage → stage.later = step :: rest →
      stage.taken options demand = (⟨found, none⟩, after) → P ⟨step, rest, found, after⟩)
    (hfirst : root.session = start.id → ∀ step rest, P ⟨step, rest, [root.view], ⟨start, [], ∅⟩⟩)
    (query : Query) : ∀ stage ∈ start.stages options demand query root, P stage := by
  unfold stages
  split
  · exact fun stage hs => absurd hs List.not_mem_nil
  · next hs => exact Walk.forall_mem_stages hnext fun step rest _ => hfirst (not_not.1 hs) step rest

/-- At the start a view of the root is in hand. -/
theorem stands_root (hs : root.session = start.id) (hl : start.bridge.nodeOf? root = some node)
    (ho : ∀ ref ∈ start.ledger.outstanding, ref.address ≤ 0x1000 + start.bridge.acquired) :
    Walk.Stands start options ⟨root.view, node⟩ [node] [root.view] ⟨start, [], ∅⟩ :=
  ⟨true, [⟨root.view, node⟩], rfl, rfl, rfl,
    Custody.refl (h := ⟨root.view, node⟩) hs rfl hl ho, by simp, by simp⟩

/-- At every stage of a resolution the nodes of the frontier are in hand, and what every step
preserves of the nodes that it starts from holds of them. -/
theorem stands_of_mem_stages (hl : start.bridge.nodeOf? root = some node)
    (ho : ∀ ref ∈ start.ledger.outstanding, ref.address ≤ 0x1000 + start.bridge.acquired)
    {P : List tree.NodeId → Prop} (hroot : P [node])
    (hstep : ∀ (demand : Demand) (step : Step) (nodes : List tree.NodeId), P nodes →
      P (demand.cut ((start.outlook options).step step nodes)))
    (demand : Demand) (query : Query) :
    ∀ stage ∈ start.stages options demand query root, ∃ nodes,
      Walk.Stands start options ⟨root.view, node⟩ nodes stage.frontier stage.before ∧ P nodes := by
  refine forall_mem_stages ?_ (fun hs _ _ => ⟨[node], stands_root hs hl ho, hroot⟩) query
  rintro stage found after step rest ⟨nodes, hstands, hp⟩ - htaken
  exact ⟨_, hstands.of_taken rfl htaken, hstep _ _ _ hp⟩

end Session

end AccessQuery
