import AugmentedCampus.Search.SearchInvariant

/-! Both `while` loops of `findPath(to:)` end. A removed step either eliminates a
new node, or was one of the finitely many waiting steps whose node was already
eliminated, and no visit adds a step of that second kind. -/
namespace AugmentedCampus

open Foundation

universe u v

variable {Node : Type u} {Cost : Type v} [BEq Node]

/-- How many nodes of the graph are not eliminated yet. -/
def FiniteGraph.unseen (graph : FiniteGraph Node Cost) (state : SearchState Node Cost) : Nat :=
  (graph.nodes.filter (fun node => !state.eliminatedNodes.contains node)).length

namespace SearchState

/-- How many steps wait for a node that is already eliminated. -/
def reopened (state : SearchState Node Cost) : Nat :=
  (state.possibleSteps.filter
    (fun ref => state.eliminatedNodes.contains (state.steps ref).node)).length

variable {state changed : SearchState Node Cost}

theorem reopened_congr (waiting : changed.possibleSteps = state.possibleSteps)
    (eliminated : changed.eliminatedNodes = state.eliminatedNodes)
    (nodes : ∀ ref ∈ state.possibleSteps, (changed.steps ref).node = (state.steps ref).node) :
    changed.reopened = state.reopened := by
  unfold reopened
  rw [waiting, eliminated]
  congr 1
  apply List.filter_congr
  intro ref waits
  rw [nodes ref waits]

/-- A step for a node that is not eliminated does not count. -/
theorem reopened_insertStep [Add Cost] [LinearOrder Cost] {step : StepRef}
    (fresh : ¬ state.eliminatedNodes.contains (state.steps step).node = true) :
    (state.insertStep step).reopened = state.reopened := by
  unfold reopened
  rw [((insertStep_perm state step).filter _).length_eq, insertStep_steps,
    insertStep_eliminatedNodes, List.filter_cons, if_neg fresh]

end SearchState

private theorem filter_length_lt {α : Type*} {items : List α} {narrow wide : α → Bool}
    (included : ∀ item ∈ items, narrow item = true → wide item = true) {lost : α}
    (member : lost ∈ items) (before : wide lost = true) (after : narrow lost = false) :
    (items.filter narrow).length < (items.filter wide).length := by
  have nested : (items.filter wide).filter narrow = items.filter narrow := by
    rw [List.filter_filter]
    apply List.filter_congr
    intro item present
    cases kept : narrow item with
    | false => rfl
    | true => simp [included item present kept]
  rw [← nested]
  apply List.length_filter_lt_length_iff_exists.mpr
  exact ⟨lost, List.mem_filter.mpr ⟨member, before⟩, by simp [after]⟩

namespace SearchInvariant

variable {graph : FiniteGraph Node Cost} {start goal : Node} {current : Option StepRef}
  {pending : List Node} {state : SearchState Node Cost} {node : Node} {step : StepRef}
  {rest : List StepRef}

theorem unseen_eliminate [EquivBEq Node] (valid : SearchInvariant graph start current [] state)
    (first : state.possibleSteps = step :: rest)
    (new : ¬ state.eliminatedNodes.contains (state.steps step).node = true) :
    graph.unseen (state.eliminate step rest) < graph.unseen state := by
  have inside := valid.listed step (valid.first_allocated first)
  apply filter_length_lt _ inside (by simpa using new)
  · have own : (state.eliminate step rest).eliminatedNodes.contains (state.steps step).node = true :=
      DistinctSet.contains_insert_self _ _
    simp [own]
  · intro other present remains
    rw [Bool.not_eq_true', ← Bool.not_eq_true] at remains ⊢
    exact fun old => remains (DistinctSet.contains_insert_of_contains old)

theorem reopened_eliminate (first : state.possibleSteps = step :: rest)
    (old : state.eliminatedNodes.contains (state.steps step).node = true) :
    (state.eliminate step rest).reopened < state.reopened := by
  have unchanged : (state.eliminate step rest).eliminatedNodes = state.eliminatedNodes :=
    DistinctSet.insert_present old
  unfold SearchState.reopened
  rw [unchanged, first, List.filter_cons, if_pos old, List.length_cons]
  exact Nat.lt_succ_self _

variable [Add Cost] [LinearOrder Cost]

theorem eliminatedNodes_visit (graph : GraphNode Node Cost) (goal : Node) (step : StepRef)
    (state : SearchState Node Cost) (node : Node) :
    (state.visit graph goal step node).eliminatedNodes = state.eliminatedNodes := by
  rcases SearchState.visit_cases graph goal step state node with
    ⟨_, _, _, same⟩ | ⟨_, _, _, same⟩ | ⟨_, same⟩ <;>
    rw [same] <;> rfl

theorem reopened_visit (valid : SearchInvariant graph start (some step) (node :: pending) state) :
    (state.visit graph.toGraphNode goal step node).reopened = state.reopened := by
  have extended : (state.extended graph.toGraphNode goal step node).reopened = state.reopened := by
    refine SearchState.reopened_congr ?_ ?_ fun ref waits => ?_
    · rfl
    · rfl
    · rw [SearchState.extended_old _ _ _ _ _ (valid.waiting ref waits)]
  rcases SearchState.visit_cases graph.toGraphNode goal step state node with
    ⟨waiting, found, _, same⟩ | ⟨waiting, found, _, same⟩ | ⟨_, same⟩
  · rw [same]
    refine (SearchState.reopened_congr ?_ ?_ fun ref _ => ?_).trans extended
    · rfl
    · rfl
    · rw [SearchState.reparent_steps_node]
  · rw [same]
    exact extended
  · rw [same]
    refine (SearchState.reopened_insertStep ?_).trans extended
    rw [SearchState.extended_new]
    obtain ⟨_, _, _, ahead⟩ := valid.active step rfl
    exact (ahead node (List.mem_cons_self ..)).2

variable [EquivBEq Node]

/-- Neither count moves while the neighbours of one removed step are visited. -/
theorem counts_visited {order : IterationOrder Node} (member : start ∈ graph.nodes)
    (reached : Reached graph.toGraphNode order start goal (some step) pending state) :
    let visited := pending.foldl (SearchState.visit graph.toGraphNode goal step) state
    graph.unseen visited = graph.unseen state ∧ visited.reopened = state.reopened := by
  induction pending generalizing state with
  | nil => exact ⟨rfl, rfl⟩
  | cons node rest ih =>
    obtain ⟨unseen, reopened⟩ := ih reached.visit
    refine ⟨unseen.trans ?_, reopened.trans (reached.invariant member).reopened_visit⟩
    unfold FiniteGraph.unseen
    rw [eliminatedNodes_visit]

/-- One iteration of the outer loop lowers the pair of counts lexicographically. -/
theorem counts_decrease {order : IterationOrder Node} (member : start ∈ graph.nodes)
    (reached : Reached graph.toGraphNode order start goal current [] state)
    (first : state.possibleSteps = step :: rest)
    (other : ¬ ((state.steps step).node == goal) = true) :
    let eliminated := state.eliminate step rest
    let next := (eliminated.nextNodes graph.toGraphNode order step).foldl
      (SearchState.visit graph.toGraphNode goal step) eliminated
    Prod.Lex (· < ·) (· < ·) (graph.unseen next, next.reopened)
      (graph.unseen state, state.reopened) := by
  obtain ⟨unseen, reopened⟩ := counts_visited member (reached.remove first other)
  simp only [unseen, reopened]
  by_cases old : state.eliminatedNodes.contains (state.steps step).node = true
  · have unchanged : (state.eliminate step rest).eliminatedNodes = state.eliminatedNodes :=
      DistinctSet.insert_present old
    have same : graph.unseen (state.eliminate step rest) = graph.unseen state := by
      unfold FiniteGraph.unseen
      rw [unchanged]
    rw [same]
    exact .right _ (reopened_eliminate first old)
  · exact .left _ _ ((reached.invariant member).unseen_eliminate first old)

end SearchInvariant

variable [Add Cost] [LinearOrder Cost]

/-- The two ways out of the outer loop and the array returned by each. -/
inductive Outcome (graph : GraphNode Node Cost) (order : IterationOrder Node) (start goal : Node) :
    List Node → Prop where
  | exhausted {current : Option StepRef} {state : SearchState Node Cost}
      (reached : Reached graph order start goal current [] state)
      (empty : state.possibleSteps = []) : Outcome graph order start goal [start]
  | found {current : Option StepRef} {state : SearchState Node Cost} {step : StepRef}
      {rest : List StepRef} {nodes : List Node}
      (reached : Reached graph order start goal current [] state)
      (first : state.possibleSteps = step :: rest)
      (arrived : ((state.steps step).node == goal) = true)
      (explored : Explored graph start state step nodes) : Outcome graph order start goal nodes

variable [EquivBEq Node] {graph : FiniteGraph Node Cost} {order : IterationOrder Node}
  {start goal : Node}

theorem search_outcome (member : start ∈ graph.nodes) {current : Option StepRef}
    {state : SearchState Node Cost}
    (reached : Reached graph.toGraphNode order start goal current [] state) :
    ∃ fuel path, search graph.toGraphNode order goal fuel state [start] = some path ∧
      Outcome graph.toGraphNode order start goal path := by
  cases waiting : state.possibleSteps with
  | nil => exact ⟨1, [start], by simp [search, waiting], .exhausted reached waiting⟩
  | cons step rest =>
    by_cases arrived : ((state.steps step).node == goal) = true
    · have valid := reached.invariant member
      obtain ⟨nodes, explored⟩ := valid.explored step (valid.first_allocated waiting)
      refine ⟨nodes.length + 1, nodes, ?_, .found reached waiting arrived explored⟩
      have rebuilt := explored.trail.unwind [] (Nat.le_refl _)
      simpa [search, waiting, arrived] using rebuilt
    · obtain ⟨fuel, path, finished, outcome⟩ :=
        search_outcome member (reached.remove waiting arrived).visited
      exact ⟨fuel + 1, path, by simpa [search, waiting, arrived] using finished, outcome⟩
termination_by (graph.unseen state, state.reopened)
decreasing_by exact SearchInvariant.counts_decrease member reached waiting arrived

theorem findPath_outcome (graph : FiniteGraph Node Cost) (order : IterationOrder Node)
    (start goal : Node) (member : start ∈ graph.nodes) :
    ∃ path, Returns graph.toGraphNode order start goal path ∧
      Outcome graph.toGraphNode order start goal path := by
  have entered : Reached graph.toGraphNode order start goal none _ _ := .enter
  obtain ⟨fuel, path, finished, outcome⟩ := search_outcome member entered.seeded
  exact ⟨path, .of_findPath finished, outcome⟩

/-- `findPath(to:)` ends on every finite graph, and at every loop head no step
comes back to itself along `previous`. -/
theorem findPath_terminates (graph : FiniteGraph Node Cost) (order : IterationOrder Node)
    (start goal : Node) (member : start ∈ graph.nodes) :
    (∃ path, Returns graph.toGraphNode order start goal path) ∧
      ∀ current pending state, Reached graph.toGraphNode order start goal current pending state →
        ∀ step < state.allocated, ¬ Relation.TransGen (Precedes state.steps) step step := by
  constructor
  · obtain ⟨path, returned, _⟩ := findPath_outcome graph order start goal member
    exact ⟨path, returned⟩
  · intro current pending state reached step bound
    obtain ⟨nodes, explored⟩ := (reached.invariant member).explored step bound
    exact explored.trail.acyclic

theorem findPath_terminates_crossroads :
    (∃ path, Returns crossroads.toGraphNode (listOrder (Fin 4)) 0 3 path) ∧
      ∀ current pending state,
        Reached crossroads.toGraphNode (listOrder (Fin 4)) 0 3 current pending state →
          ∀ step < state.allocated, ¬ Relation.TransGen (Precedes state.steps) step step :=
  findPath_terminates crossroads.toFiniteGraph (listOrder (Fin 4)) 0 3 (by decide)

end AugmentedCampus
