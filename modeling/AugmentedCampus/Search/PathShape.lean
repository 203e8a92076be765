import AugmentedCampus.Search.Termination

/-! `findPath(to:)` answers with a route exactly when there is one, for any
costs and heuristic: a search that ends without one has closed off a set of
nodes around the start. -/
namespace AugmentedCampus

open Foundation

universe u v

variable {Node : Type u} {Cost : Type v} [BEq Node]

/-- Connections leave a set only to nodes equal to one of the set. -/
def GraphNode.Confined (graph : GraphNode Node Cost) (inside : Node → Prop) : Prop :=
  ∀ node, inside node → ∀ next, graph.Edge node next →
    ∃ other, inside other ∧ (other == next) = true

theorem FiniteGraph.walk_listed (graph : FiniteGraph Node Cost) {source target : Node}
    {nodes : List Node} (walk : IsWalk graph.Edge source target nodes)
    (member : source ∈ graph.nodes) : ∀ node ∈ nodes, node ∈ graph.nodes := by
  induction walk with
  | stay => simpa using member
  | move step rest ih =>
    intro node listed
    rcases List.mem_cons.mp listed with rfl | later
    · exact member
    · exact ih (graph.closed _ member _ step) node later

/-- Once nothing waits, connections do not leave the eliminated nodes. -/
theorem SearchInvariant.confined {graph : FiniteGraph Node Cost} {start : Node}
    {current : Option StepRef} {state : SearchState Node Cost}
    (valid : SearchInvariant graph start current [] state) (empty : state.possibleSteps = []) :
    graph.Confined (· ∈ state.eliminatedNodes.elements) := by
  intro node member next edge
  rcases valid.covered node member next edge with done | later | ⟨ref, waits, _⟩
  · exact DistinctSet.contains_iff.mp done
  · exact nomatch later
  · rw [empty] at waits
    exact nomatch waits

section Equivalence

variable [EquivBEq Node] [Add Cost] [LinearOrder Cost] {graph : FiniteGraph Node Cost}
  {order : IterationOrder Node} {start goal : Node} {current : Option StepRef}
  {pending : List Node} {state : SearchState Node Cost}

/-- The goal is never eliminated: the loop leaves when it removes a step to it. -/
theorem Reached.goal_open (different : ¬ (start == goal) = true)
    (reached : Reached graph.toGraphNode order start goal current pending state) :
    ¬ state.eliminatedNodes.contains goal = true := by
  induction reached with
  | enter =>
    intro present
    obtain ⟨node, member, same⟩ := DistinctSet.contains_iff.mp present
    rw [List.mem_singleton.mp member] at same
    exact different same
  | seed earlier ih => exact ih
  | remove earlier first other ih =>
    intro present
    rcases DistinctSet.contains_insert.mp present with old | same
    · exact ih old
    · exact other same
  | visit earlier ih =>
    rwa [SearchInvariant.eliminatedNodes_visit]

end Equivalence

namespace DistinctGraph

variable {graph : DistinctGraph Node Cost} {start goal : Node}

theorem contains_iff_mem {set : DistinctSet Node} {node : Node}
    (inside : ∀ element ∈ set.elements, element ∈ graph.nodes) (member : node ∈ graph.nodes) :
    set.contains node = true ↔ node ∈ set.elements := by
  rw [DistinctSet.contains_iff]
  constructor
  · intro member
    obtain ⟨element, present, same⟩ := member
    rwa [← (graph.separated element (inside element present) node member).mp same]
  · intro present
    exact ⟨node, present, (graph.separated node member node member).mpr rfl⟩

theorem mem_insert_iff {set : DistinctSet Node} {node element : Node}
    (inside : ∀ element ∈ set.elements, element ∈ graph.nodes) (member : node ∈ graph.nodes) :
    element ∈ (set.insert node).elements ↔ element ∈ set.elements ∨ element = node := by
  constructor
  · exact DistinctSet.mem_insert_cases
  · rintro (old | same)
    · exact DistinctSet.mem_insert_of_mem old
    · by_cases present : set.contains node = true
      · rw [DistinctSet.insert_present present, same]
        exact (contains_iff_mem inside member).mp present
      · rw [DistinctSet.insert_absent present, same]
        exact List.mem_append_right _ (List.mem_singleton.mpr rfl)

theorem edge_of_adjacent {source target : Node} (known : source ∈ graph.nodes)
    (member : target ∈ graph.nodes) (adjacent : graph.Adjacent source target) :
    graph.Edge source target :=
  (contains_iff_mem (graph.closed source known) member).mp adjacent

/-- A confined set around the start has all that is reachable from there. -/
theorem mem_of_confined {inside : Node → Prop} (listed : ∀ node, inside node → node ∈ graph.nodes)
    (confined : graph.Confined inside) (origin : inside start)
    (reaches : graph.Reaches start goal) : inside goal := by
  induction reaches with
  | refl => exact origin
  | @tail node next earlier edge ih =>
    obtain ⟨other, member, same⟩ := confined node ih next edge
    have target := graph.closed node (listed node ih) next edge
    rwa [← (graph.separated other (listed other member) next target).mp same]

end DistinctGraph

variable [EquivBEq Node] {graph : DistinctGraph Node Cost} {order : IterationOrder Node}
  {start goal : Node} {current : Option StepRef} {pending : List Node}
  {state : SearchState Node Cost} {step : StepRef} {nodes : List Node}

/-- What the search has explored is a walk that meets nothing twice after the start. -/
theorem Explored.route (valid : SearchInvariant graph.toFiniteGraph start current pending state)
    (bound : step < state.allocated) (explored : Explored graph.toGraphNode start state step nodes) :
    IsWalk graph.Edge start (state.steps step).node nodes ∧ nodes.tail.Nodup := by
  have listed := valid.trail_listed bound explored.trail
  constructor
  · apply explored.trail.walk.imp
    exact fun first one second two =>
      DistinctGraph.edge_of_adjacent (listed first one) (listed second two)
  · refine List.Pairwise.imp (fun {first second} apart same => ?_) explored.distinct
    rw [same, BEq.rfl] at apart
    exact nomatch apart

variable [Add Cost] [LinearOrder Cost]

/-- What the two ways out of the outer loop say about the returned array. -/
theorem Outcome.shape {path : List Node} (member : start ∈ graph.nodes)
    (target : goal ∈ graph.nodes) (different : start ≠ goal)
    (outcome : Outcome graph.toGraphNode order start goal path) :
    (goal ∈ path ↔ graph.Reaches start goal) ∧
      (goal ∈ path → path.head? = some start ∧ path.getLast? = some goal ∧
        path.IsChain (fun node next => next ∈ (graph.connectedNodes node).elements) ∧
        path.tail.Nodup) := by
  have apart : ¬ (start == goal) = true := mt (graph.separated start member goal target).mp different
  cases outcome with
  | exhausted reached empty =>
    have absent : goal ∉ [start] := fun present => different (List.mem_singleton.mp present).symm
    refine ⟨⟨fun present => absurd present absent, fun reaches => ?_⟩,
      fun present => absurd present absent⟩
    have valid := reached.invariant member
    have eliminated := DistinctGraph.mem_of_confined valid.inside (valid.confined empty) valid.origin
      reaches
    exact absurd (DistinctSet.contains_of_mem eliminated) (reached.goal_open apart)
  | @found current state step rest path reached first arrived explored =>
    have valid := reached.invariant member
    have bound := valid.first_allocated first
    have same := (graph.separated _ (valid.listed step bound) goal target).mp arrived
    obtain ⟨walk, distinct⟩ := explored.route valid bound
    rw [same] at walk
    have present : goal ∈ path := List.mem_of_getLast? walk.last
    exact ⟨⟨fun _ => walk.reaches, fun _ => present⟩,
      fun _ => ⟨walk.head, walk.last, walk.chain, distinct⟩⟩

/-- A search that could not succeed returns the start alone. -/
theorem Outcome.alone {path : List Node} (member : start ∈ graph.nodes) (target : goal ∈ graph.nodes)
    (different : start ≠ goal) (outcome : Outcome graph.toGraphNode order start goal path)
    (blocked : ¬ graph.Reaches start goal) : path = [start] := by
  have absent := mt (outcome.shape member target different).1.mp blocked
  cases outcome with
  | exhausted reached empty => rfl
  | found reached first arrived explored =>
    have bound := (reached.invariant member).first_allocated first
    have same := (graph.separated _ ((reached.invariant member).listed _ bound) goal target).mp arrived
    exact absurd (same ▸ List.mem_of_getLast? explored.trail.walk.last) absent

/-- For every graph, costs, heuristic and visiting order: the array contains the
goal exactly when the goal is reachable, and is then a walk from the start to
the goal on which only the start may be met again. -/
theorem findPath_shape (graph : DistinctGraph Node Cost) (order : IterationOrder Node)
    (start goal : Node) (member : start ∈ graph.nodes) (target : goal ∈ graph.nodes)
    (different : start ≠ goal) :
    ∃ path, Returns graph.toGraphNode order start goal path ∧
      (goal ∈ path ↔ graph.Reaches start goal) ∧
      (goal ∈ path → path.head? = some start ∧ path.getLast? = some goal ∧
        path.IsChain (fun node next => next ∈ (graph.connectedNodes node).elements) ∧
        path.tail.Nodup) := by
  obtain ⟨path, returned, outcome⟩ :=
    findPath_outcome graph.toFiniteGraph order start goal member
  exact ⟨path, returned, outcome.shape member target different⟩

theorem findPath_shape_crossroads :
    ∃ path, Returns crossroads.toGraphNode (listOrder (Fin 4)) 0 3 path ∧
      (3 ∈ path ↔ crossroads.Reaches 0 3) ∧
      (3 ∈ path → path.head? = some 0 ∧ path.getLast? = some 3 ∧
        path.IsChain (fun node next => next ∈ (crossroads.connectedNodes node).elements) ∧
        path.tail.Nodup) :=
  findPath_shape crossroads (listOrder (Fin 4)) 0 3 (by decide) (by decide) (by decide)

/-- The array is never empty, so it is empty exactly when there is no route only
where there is a route; without one it is the start alone. -/
theorem findPath_empty_iff (graph : DistinctGraph Node Cost) (order : IterationOrder Node)
    (start goal : Node) (member : start ∈ graph.nodes) (target : goal ∈ graph.nodes)
    (different : start ≠ goal) :
    ∃ path, Returns graph.toGraphNode order start goal path ∧
      (path = [start] ↔ ¬ graph.Reaches start goal) ∧
      ((path = [] ↔ ¬ graph.Reaches start goal) ↔ graph.Reaches start goal) := by
  obtain ⟨path, returned, outcome⟩ :=
    findPath_outcome graph.toFiniteGraph order start goal member
  have shape := outcome.shape member target different
  refine ⟨path, returned, ?_, by simp [returned.ne_nil]⟩
  constructor
  · intro alone reaches
    have present := shape.1.mpr reaches
    rw [alone] at present
    exact different (List.mem_singleton.mp present).symm
  · exact outcome.alone member target different

theorem crossroads_blocked : ¬ crossroads.Reaches 3 0 := by
  intro reaches
  obtain same | ⟨next, edge, _⟩ := reaches.cases_head
  · exact absurd same (by decide)
  · exact absurd edge List.not_mem_nil

theorem findPath_empty_iff_crossroads :
    (∃ path, Returns crossroads.toGraphNode (listOrder (Fin 4)) 3 0 path ∧ path = [3]) ∧
      ∃ path, Returns crossroads.toGraphNode (listOrder (Fin 4)) 0 3 path ∧ path ≠ [0] := by
  constructor
  · obtain ⟨path, returned, alone, _⟩ :=
      findPath_empty_iff crossroads (listOrder (Fin 4)) 3 0 (by decide) (by decide) (by decide)
    exact ⟨path, returned, alone.mpr crossroads_blocked⟩
  · obtain ⟨path, returned, alone, _⟩ :=
      findPath_empty_iff crossroads (listOrder (Fin 4)) 0 3 (by decide) (by decide) (by decide)
    exact ⟨path, returned, fun same => alone.mp same (.single (by decide))⟩

theorem findPath_not_empty :
    ¬ crossroads.Reaches 3 0 ∧
      ∀ path, Returns crossroads.toGraphNode (listOrder (Fin 4)) 3 0 path → path ≠ [] :=
  ⟨crossroads_blocked, fun _ returned => returned.ne_nil⟩

end AugmentedCampus
