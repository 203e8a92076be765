import AugmentedCampus.Search.LoopHeads
import AugmentedCampus.Search.OpenList
import AugmentedCampus.Search.PathShape
import Mathlib.Algebra.Order.Group.Int
import Mathlib.Tactic.Abel

/-! When `findPath(to:)` is optimal. Re-parenting a waiting step keeps its old
`stepCost` and place, so a later, dearer offer can overwrite a cheaper one; as
long as that assignment is never reached the search is A* and finds the minimum. -/
namespace AugmentedCampus

open Foundation

universe u v

variable {Node : Type u} {Cost : Type v} [BEq Node] [AddCommGroup Cost]

/-- `stepCost` agrees with the one link the step has. -/
def Priced (graph : GraphNode Node Cost) (start : Node) (steps : StepRef → Step Node Cost)
    (ref : StepRef) : Prop :=
  match (steps ref).previous with
  | none => (steps ref).stepCost = graph.cost start (steps ref).node
  | some previous => (steps ref).stepCost =
      (steps previous).stepCost + graph.cost (steps previous).node (steps ref).node

/-- Steps that exist keep their price when a new object is allocated. -/
theorem SearchInvariant.priced_create {graph : FiniteGraph Node Cost} {start : Node}
    {current : Option StepRef} {pending : List Node} {state : SearchState Node Cost}
    (valid : SearchInvariant graph start current pending state) (fresh : Step Node Cost)
    {ref : StepRef} (old : ref < state.allocated)
    (price : Priced graph.toGraphNode start state.steps ref) :
    Priced graph.toGraphNode start (state.create fresh).steps ref := by
  unfold Priced at price ⊢
  rw [SearchState.create_steps_old _ _ old]
  cases link : (state.steps ref).previous with
  | none => simpa [link] using price
  | some previous =>
    have bound := (valid.links ref old previous link).1
    simpa [link, SearchState.create_steps_old _ _ bound] using price

/-- A new step is priced by its one link. -/
theorem priced_direct (graph : GraphNode Node Cost) (start goal node : Node)
    (state : SearchState Node Cost) :
    Priced graph start (state.create (Step.direct graph start node goal)).steps
      state.allocated := by
  simp [Priced, Step.direct]

theorem priced_extending (graph : GraphNode Node Cost) (start goal node : Node)
    (state : SearchState Node Cost) {step : StepRef} (older : step < state.allocated) :
    Priced graph start (state.extended graph goal step node).steps state.allocated := by
  unfold Priced
  rw [SearchState.extended_new]
  simp only [Step.extending]
  rw [SearchState.extended_old _ _ _ _ _ older]

/-- Along a trail the links add up to the weight of the walk. -/
theorem Trail.priced {graph : GraphNode Node Cost} {start : Node}
    {steps : StepRef → Step Node Cost} {step : StepRef} {nodes : List Node}
    (trail : Trail graph start steps step nodes) (kept : StepRef → Prop) (member : kept step)
    (closed : ∀ ref, kept ref → ∀ previous, (steps ref).previous = some previous → kept previous)
    (all : ∀ ref, kept ref → Priced graph start steps ref) :
    (steps step).stepCost = walkCost graph.cost nodes := by
  induction trail with
  | @first step root edge =>
    have own := all step member
    unfold Priced at own
    rw [root] at own
    simpa [walkCost] using own
  | @next step previous nodes link earlier edge ih =>
    have own := all step member
    unfold Priced at own
    rw [link] at own
    rw [earlier.walk.cost_snoc graph.cost, ← ih (closed step member previous link)]
    exact own

/-- The `stepCost` a neighbour visited in the current loop is given. -/
def offer (graph : GraphNode Node Cost) (start : Node) (state : SearchState Node Cost) :
    Option StepRef → Node → Cost
  | none, next => graph.cost start next
  | some step, next => (state.steps step).stepCost + graph.cost (state.steps step).node next

variable [LinearOrder Cost]

/-- No visit of the run reaches `possibleSteps[index].previous = step`. -/
def Unrewired (graph : GraphNode Node Cost) (order : IterationOrder Node) (start goal : Node) :
    Prop :=
  ∀ step node pending state, Reached graph order start goal (some step) (node :: pending) state →
    ¬ state.Rewires graph goal step node

/-- The heuristic never drops by more than the edge along `connectedNodes`. -/
def Consistent (graph : FiniteGraph Node Cost) (goal : Node) : Prop :=
  ∀ first second, graph.Edge first second →
    graph.estimatedCost first goal ≤ graph.cost first second + graph.estimatedCost second goal

/-- The costs of a run without re-parenting: every step is priced by its own
trail, and the border of the eliminated nodes is offered at the best price. -/
structure CostInvariant (graph : FiniteGraph Node Cost) (start goal : Node)
    (current : Option StepRef) (pending : List Node) (state : SearchState Node Cost) : Prop where
  priced : ∀ ref < state.allocated, Priced graph.toGraphNode start state.steps ref
  estimated : ∀ ref < state.allocated,
    (state.steps ref).goalCost = graph.estimatedCost (state.steps ref).node goal
  border : ∀ node ∈ state.eliminatedNodes.elements, ∀ next, graph.Edge node next →
    next ∉ state.eliminatedNodes.elements → ∀ nodes, IsWalk graph.Edge start node nodes →
      (next ∈ pending ∧ offer graph.toGraphNode start state current next ≤
        walkCost graph.cost nodes + graph.cost node next) ∨
      ∃ ref ∈ state.possibleSteps, (state.steps ref).node = next ∧
        (state.steps ref).stepCost ≤ walkCost graph.cost nodes + graph.cost node next

namespace CostInvariant

variable {graph : DistinctGraph Node Cost} {order : IterationOrder Node} {start goal : Node}
  {current : Option StepRef} {pending : List Node} {state : SearchState Node Cost} {node : Node}
  {step : StepRef} {rest : List StepRef}

theorem stepCost_eq (valid : SearchInvariant graph.toFiniteGraph start current pending state)
    (costs : CostInvariant graph.toFiniteGraph start goal current pending state)
    (bound : step < state.allocated)
    {nodes : List Node} (trail : Trail graph.toGraphNode start state.steps step nodes) :
    (state.steps step).stepCost = walkCost graph.cost nodes :=
  trail.priced (· < state.allocated) bound
    (fun ref older previous link => (valid.links ref older previous link).1) costs.priced

/-- A new object with the right costs; what exists keeps its price. -/
theorem created (valid : SearchInvariant graph.toFiniteGraph start current pending state)
    (costs : CostInvariant graph.toFiniteGraph start goal current pending state)
    {fresh : Step Node Cost}
    (price : Priced graph.toGraphNode start (state.create fresh).steps state.allocated)
    (estimate : fresh.goalCost = graph.estimatedCost fresh.node goal) :
    CostInvariant graph.toFiniteGraph start goal current pending (state.create fresh) where
  priced := by
    intro ref bound
    rcases Nat.lt_succ_iff_lt_or_eq.mp bound with older | newest
    · exact valid.priced_create fresh older (costs.priced ref older)
    · rwa [newest]
  estimated := by
    intro ref bound
    rcases Nat.lt_succ_iff_lt_or_eq.mp bound with older | newest
    · rw [SearchState.create_steps_old _ _ older]
      exact costs.estimated ref older
    · rw [newest, SearchState.create_steps_new]
      exact estimate
  border := by
    intro source member next edge away nodes walk
    rcases costs.border source member next edge away nodes walk with
      ⟨later, cheap⟩ | ⟨ref, waits, same, cheap⟩
    · refine .inl ⟨later, ?_⟩
      cases current with
      | none => exact cheap
      | some step =>
        simp only [offer] at cheap ⊢
        rwa [SearchState.create_steps_old _ _ (valid.active step rfl).1]
    · refine .inr ⟨ref, waits, ?_⟩
      rw [SearchState.create_steps_old _ _ (valid.waiting ref waits)]
      exact ⟨same, cheap⟩

theorem inserted (costs : CostInvariant graph.toFiniteGraph start goal current pending state)
    (ref : StepRef) :
    CostInvariant graph.toFiniteGraph start goal current pending (state.insertStep ref) where
  priced := costs.priced
  estimated := costs.estimated
  border := by
    intro source member next edge away nodes walk
    rcases costs.border source member next edge away nodes walk with later | ⟨other, waits, cheap⟩
    · left
      cases current <;> exact later
    · exact .inr ⟨other, (SearchState.mem_insertStep ..).mpr (.inr waits), cheap⟩

/-- A visited neighbour leaves `pending` once a step waits for it at the offered price. -/
theorem discharge
    (costs : CostInvariant graph.toFiniteGraph start goal current (node :: pending) state)
    (waits : ∃ ref ∈ state.possibleSteps, (state.steps ref).node = node ∧
      (state.steps ref).stepCost ≤ offer graph.toGraphNode start state current node) :
    CostInvariant graph.toFiniteGraph start goal current pending state where
  priced := costs.priced
  estimated := costs.estimated
  border := by
    intro source member next edge away nodes walk
    rcases costs.border source member next edge away nodes walk with ⟨later, cheap⟩ | waiting
    · rcases List.mem_cons.mp later with same | rest
      · obtain ⟨ref, present, own, paid⟩ := waits
        rw [same] at cheap ⊢
        exact .inr ⟨ref, present, own, paid.trans cheap⟩
      · exact .inl ⟨rest, cheap⟩
    · exact .inr waiting

theorem seed (valid : SearchInvariant graph.toFiniteGraph start none (node :: pending) state)
    (costs : CostInvariant graph.toFiniteGraph start goal none (node :: pending) state) :
    CostInvariant graph.toFiniteGraph start goal none pending
      (state.seed graph.toGraphNode start goal node) := by
  have grown := costs.created valid (priced_direct graph.toGraphNode start goal node state) rfl
  refine (grown.inserted state.allocated).discharge ⟨state.allocated, by simp, ?_, ?_⟩
  · simp [Step.direct]
  · simp [Step.direct, offer]

theorem visit (valid : SearchInvariant graph.toFiniteGraph start (some step) (node :: pending) state)
    (costs : CostInvariant graph.toFiniteGraph start goal (some step) (node :: pending) state)
    (kept : ¬ state.Rewires graph.toGraphNode goal step node) :
    CostInvariant graph.toFiniteGraph start goal (some step) pending
      (state.visit graph.toGraphNode goal step node) := by
  have older := (valid.active step rfl).1
  have price := priced_extending graph.toGraphNode start goal node state older
  have extended : CostInvariant graph.toFiniteGraph start goal (some step) (node :: pending)
      (state.extended graph.toGraphNode goal step node) := costs.created valid price rfl
  have offered : ((state.extended graph.toGraphNode goal step node).steps state.allocated).stepCost =
      offer graph.toGraphNode start (state.extended graph.toGraphNode goal step node)
        (some step) node := by
    simp only [offer]
    rw [SearchState.extended_new, SearchState.extended_old _ _ _ _ _ older]
    rfl
  rcases SearchState.visit_cases graph.toGraphNode goal step state node with
    ⟨_, _, rewires, _⟩ | ⟨waiting, found, _, same⟩ | ⟨_, same⟩
  · exact absurd rewires kept
  · rw [same]
    refine extended.discharge ⟨waiting, found.mem, ?_, ?_⟩
    · rw [SearchState.extended_old _ _ _ _ _ (valid.waiting waiting found.mem)]
      exact (graph.separated _ (valid.listed waiting (valid.waiting waiting found.mem)) node
        valid.ahead_listed).mp (valid.hit_node found)
    · rw [← offered]
      exact le_of_not_gt fun cheaper => kept ⟨waiting, found, cheaper⟩
  · rw [same]
    refine (extended.inserted state.allocated).discharge ⟨state.allocated, by simp, ?_, ?_⟩
    · rw [SearchState.insertStep_steps, SearchState.extended_new]
      rfl
    · exact le_of_eq offered

variable [IsOrderedAddMonoid Cost]

theorem enter (consistent : Consistent graph.toFiniteGraph goal) (order : IterationOrder Node) :
    CostInvariant graph.toFiniteGraph start goal none
      (order.arrange none (graph.connectedNodes start)) (.initial graph.toGraphNode start goal) where
  priced := fun _ bound => nomatch bound
  estimated := fun _ bound => nomatch bound
  border := by
    intro source member next edge away nodes walk
    rw [List.mem_singleton.mp member] at edge walk ⊢
    have loop := walk.potential_le graph.cost
      (fun node => graph.estimatedCost node goal) consistent
    have nonneg : 0 ≤ walkCost graph.cost nodes := le_add_iff_nonneg_left _ |>.mp loop
    refine .inl ⟨(order.perm _ _).mem_iff.mpr edge, ?_⟩
    exact le_add_of_nonneg_left nonneg

/-- The step removed for a new node carries the weight of a lightest walk to it. -/
theorem removed_le (consistent : Consistent graph.toFiniteGraph goal)
    (valid : SearchInvariant graph.toFiniteGraph start current [] state)
    (costs : CostInvariant graph.toFiniteGraph start goal current [] state) (sorted : state.Sorted)
    (first : state.possibleSteps = step :: rest)
    (new : (state.steps step).node ∉ state.eliminatedNodes.elements) {nodes : List Node}
    (walk : IsWalk graph.Edge start (state.steps step).node nodes) :
    (state.steps step).stepCost ≤ walkCost graph.cost nodes := by
  obtain ⟨last, next, front, back, inside, outside, edge, before, after, same⟩ :=
    walk.crossing (· ∈ state.eliminatedNodes.elements) valid.origin new
  rcases costs.border last inside next edge outside front before with
    ⟨later, _⟩ | ⟨ref, waits, own, cheap⟩
  · exact nomatch later
  have bound := valid.first_allocated first
  have least := sorted.first_le first waits
  unfold Step.cost at least
  rw [costs.estimated step bound, costs.estimated ref (valid.waiting ref waits), own] at least
  have ahead := after.potential_le graph.cost
    (fun node => graph.estimatedCost node goal) consistent
  refine le_of_add_le_add_right (?_ : _ + graph.estimatedCost (state.steps step).node goal ≤ _)
  calc (state.steps step).stepCost + graph.estimatedCost (state.steps step).node goal
      ≤ (state.steps ref).stepCost + graph.estimatedCost next goal := least
    _ ≤ (walkCost graph.cost front + graph.cost last next) +
          (walkCost graph.cost back + graph.estimatedCost (state.steps step).node goal) := by gcongr
    _ = walkCost graph.cost nodes + graph.estimatedCost (state.steps step).node goal := by
          rw [same, before.cost_bridge graph.cost after]
          abel

omit [AddCommGroup Cost] [LinearOrder Cost] [IsOrderedAddMonoid Cost] in
/-- Removing the first step eliminates its node and no other. -/
theorem mem_eliminate (valid : SearchInvariant graph.toFiniteGraph start current pending state)
    (bound : step < state.allocated) (rest : List StepRef) (node : Node) :
    node ∈ (state.eliminate step rest).eliminatedNodes.elements ↔
      node ∈ state.eliminatedNodes.elements ∨ node = (state.steps step).node :=
  DistinctGraph.mem_insert_iff valid.inside (valid.listed step bound)

theorem remove (consistent : Consistent graph.toFiniteGraph goal)
    (valid : SearchInvariant graph.toFiniteGraph start current [] state)
    (costs : CostInvariant graph.toFiniteGraph start goal current [] state) (sorted : state.Sorted)
    (first : state.possibleSteps = step :: rest) :
    CostInvariant graph.toFiniteGraph start goal (some step)
      ((state.eliminate step rest).nextNodes graph.toGraphNode order step)
      (state.eliminate step rest) where
  priced := costs.priced
  estimated := costs.estimated
  border := by
    have bound := valid.first_allocated first
    have eliminated := mem_eliminate valid bound rest
    intro source present next edge away nodes walk
    have open_before : next ∉ state.eliminatedNodes.elements :=
      fun old => away ((eliminated next).mpr (.inl old))
    by_cases old : source ∈ state.eliminatedNodes.elements
    · rcases costs.border source old next edge open_before nodes walk with
        ⟨later, _⟩ | ⟨ref, waits, own, cheap⟩
      · exact nomatch later
      · rw [first] at waits
        rcases List.mem_cons.mp waits with chosen | remaining
        · rw [chosen] at own
          exact absurd ((eliminated next).mpr (.inr own.symm)) away
        · exact .inr ⟨ref, remaining, own, cheap⟩
    · have same : source = (state.steps step).node :=
        ((eliminated source).mp present).resolve_left old
      rw [same] at edge walk old ⊢
      have least := costs.removed_le consistent valid sorted first old walk
      have target := graph.closed _ (valid.listed step bound) next edge
      have unseen := mt (DistinctGraph.contains_iff_mem (valid.eliminate_inside bound rest)
        target).mp away
      have ahead := (SearchInvariant.mem_nextNodes graph.toFiniteGraph state step order rest
        next).mpr ⟨edge, unseen⟩
      exact .inl ⟨ahead, add_le_add_left least _⟩

end CostInvariant

variable [EquivBEq Node] [IsOrderedAddMonoid Cost]

theorem Reached.costs {graph : DistinctGraph Node Cost} {order : IterationOrder Node}
    {start goal : Node} {current : Option StepRef} {pending : List Node}
    {state : SearchState Node Cost} (member : start ∈ graph.nodes)
    (consistent : Consistent graph.toFiniteGraph goal)
    (kept : Unrewired graph.toGraphNode order start goal)
    (reached : Reached graph.toGraphNode order start goal current pending state) :
    CostInvariant graph.toFiniteGraph start goal current pending state := by
  induction reached with
  | enter => exact .enter consistent order
  | seed earlier ih => exact ih.seed (earlier.invariant member)
  | remove earlier first other ih =>
    exact ih.remove consistent (earlier.invariant member) (earlier.sorted member) first
  | visit earlier ih => exact ih.visit (earlier.invariant member) (kept _ _ _ _ earlier)

/-- With a consistent heuristic and no re-parenting in the run, the array is a
lightest walk from the start to the goal. -/
theorem findPath_optimal (graph : DistinctGraph Node Cost) (order : IterationOrder Node)
    (start goal : Node) (member : start ∈ graph.nodes) (target : goal ∈ graph.nodes)
    (different : start ≠ goal) (reaches : graph.Reaches start goal)
    (consistent : Consistent graph.toFiniteGraph goal)
    (kept : Unrewired graph.toGraphNode order start goal) :
    ∃ path, Returns graph.toGraphNode order start goal path ∧
      IsWalk graph.Edge start goal path ∧
      ∀ walk, IsWalk graph.Edge start goal walk →
        walkCost graph.cost path ≤ walkCost graph.cost walk := by
  have apart : ¬ (start == goal) = true := mt (graph.separated start member goal target).mp different
  obtain ⟨path, returned, outcome⟩ :=
    findPath_outcome graph.toFiniteGraph order start goal member
  refine ⟨path, returned, ?_⟩
  cases outcome with
  | exhausted reached empty =>
    have valid := reached.invariant member
    have eliminated := DistinctGraph.mem_of_confined valid.inside (valid.confined empty) valid.origin
      reaches
    exact absurd (DistinctSet.contains_of_mem eliminated) (reached.goal_open apart)
  | @found current state step rest path reached first arrived explored =>
    have valid := reached.invariant member
    have costs := reached.costs member consistent kept
    have bound := valid.first_allocated first
    have same := (graph.separated _ (valid.listed step bound) goal target).mp arrived
    have new : goal ∉ state.eliminatedNodes.elements :=
      fun old => reached.goal_open apart (DistinctSet.contains_of_mem old)
    have walk := (explored.route valid bound).1
    rw [← costs.stepCost_eq valid bound explored.trail]
    rw [← same] at new
    rw [same] at walk
    refine ⟨walk, fun other path => ?_⟩
    rw [← same] at path
    exact costs.removed_le consistent valid (reached.sorted member) first new path

/-- Three ways of cost 5 from node 0 to node 4, and a dead end. Nodes 3 and 4 are both met
again while a step for them waits, and at the price it has. -/
def blocks : DistinctGraph (Fin 6) Int where
  connectedNodes
    | 0 => ⟨[1, 2], by decide⟩
    | 1 => ⟨[3, 4], by decide⟩
    | 2 => ⟨[3, 5], by decide⟩
    | 3 => .singleton 4
    | 4 => .empty
    | 5 => .empty
  estimatedCost
    | 0, _ => 3
    | 1, _ => 2
    | 2, _ => 2
    | 3, _ => 1
    | 4, _ => 0
    | 5, _ => 4
  cost
    | 0, 1 => 1
    | 0, 2 => 1
    | 1, 3 => 2
    | 2, 3 => 2
    | 1, 4 => 4
    | 3, 4 => 2
    | 2, 5 => 1
    | _, _ => 0
  nodes := [0, 1, 2, 3, 4, 5]
  closed := by decide
  separated := by decide

/-- All loop heads of the search from node 0 to node 4. -/
def blocksHeads : List (LoopHead (Fin 6) Int) :=
  LoopHead.heads blocks.toGraphNode (listOrder (Fin 6)) 0 4 20
    (LoopHead.first blocks.toGraphNode (listOrder (Fin 6)) 0 4)

theorem blocksHeads_ended : blocksHeads.length < 20 := by decide +kernel

/-- At two of them a waiting step is met. -/
example : (blocksHeads.filter fun head => ¬ head.Visits fun step node state =>
    ∀ waiting ∈ state.possibleSteps, ¬ state.hit blocks.toGraphNode 4 step node waiting).length =
      2 := by
  decide +kernel

theorem blocks_unrewired : Unrewired blocks.toGraphNode (listOrder (Fin 6)) 0 4 := by
  have all : ∀ head ∈ blocksHeads, head.Visits fun step node state =>
      ¬ state.Rewires blocks.toGraphNode 4 step node := by
    decide +kernel
  exact LoopHead.of_heads blocksHeads_ended all

/-- None of the other ways is shorter than the one through node 1. -/
theorem findPath_optimal_blocks :
    Returns blocks.toGraphNode (listOrder (Fin 6)) 0 4 [0, 1, 4] ∧
      ∀ walk, IsWalk blocks.Edge 0 4 walk → 5 ≤ walkCost blocks.cost walk := by
  obtain ⟨path, returned, _, least⟩ := findPath_optimal blocks (listOrder (Fin 6)) 0 4 (by decide)
    (by decide) (by decide) (.tail (.single (by decide)) (by decide : blocks.Edge 1 4))
    (by unfold Consistent; decide) blocks_unrewired
  have found : Returns blocks.toGraphNode (listOrder (Fin 6)) 0 4 [0, 1, 4] :=
    .of_findPath (by decide +kernel : findPath _ _ 6 _ _ = _)
  rw [returned.unique found] at least
  exact ⟨found, least⟩

/-- On `crossroads` the waiting step to 3 is re-parented first to 1 and then, at
a higher price, to 2: the array costs 20 although the walk `0, 1, 3` costs 15. -/
theorem findPath_not_optimal :
    (∀ first second, 0 ≤ crossroads.cost first second) ∧ Consistent crossroads.toFiniteGraph 3 ∧
      crossroads.estimatedCost 3 3 = 0 ∧ crossroads.Reaches 0 3 ∧
      ∀ path, Returns crossroads.toGraphNode (listOrder (Fin 4)) 0 3 path →
        ∃ walk, IsWalk crossroads.Edge 0 3 walk ∧
          walkCost crossroads.cost walk < walkCost crossroads.cost path := by
  refine ⟨by decide, by unfold Consistent; decide, rfl, .single (by decide), ?_⟩
  intro path returned
  have settled : findPath crossroads.toGraphNode (listOrder (Fin 4)) 6 0 3 = some [0, 1, 2, 3] := by
    decide +kernel
  rw [returned.unique (.of_findPath settled)]
  exact ⟨[0, 1, 3], .move (by decide) (.move (by decide) .stay), by decide⟩

end AugmentedCampus
