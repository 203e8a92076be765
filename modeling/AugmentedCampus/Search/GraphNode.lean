import AugmentedCampus.Foundation.DistinctSet
import AugmentedCampus.Foundation.Walk
import AugmentedCampus.Search.ArrayExtension
import Mathlib.Logic.Function.Basic

/-! The `GraphNode` protocol, the `Step` objects and `findPath(to:)`. Steps are
mutable objects shared through `previous`, so they live in an explicit heap. -/
namespace AugmentedCampus

open Foundation

universe u v

variable {Node : Type u} {Cost : Type v} [BEq Node]

/-- The requirements of the protocol; `==` on nodes is the `BEq` instance. -/
structure GraphNode (Node : Type u) (Cost : Type v) [BEq Node] where
  connectedNodes : Node → DistinctSet Node
  estimatedCost : Node → Node → Cost
  cost : Node → Node → Cost

/-- `node` is in `connectedNodes` of the first argument. -/
def GraphNode.Edge (graph : GraphNode Node Cost) (source target : Node) : Prop :=
  target ∈ (graph.connectedNodes source).elements

instance [LawfulBEq Node] (graph : GraphNode Node Cost) (source target : Node) :
    Decidable (graph.Edge source target) :=
  inferInstanceAs (Decidable (target ∈ (graph.connectedNodes source).elements))

/-- `connectedNodes` of the first argument contains the second, which `==` decides. -/
def GraphNode.Adjacent (graph : GraphNode Node Cost) (source target : Node) : Prop :=
  (graph.connectedNodes source).contains target = true

instance (graph : GraphNode Node Cost) (source target : Node) :
    Decidable (graph.Adjacent source target) :=
  inferInstanceAs (Decidable (_ = true))

theorem GraphNode.Edge.adjacent [EquivBEq Node] {graph : GraphNode Node Cost}
    {source target other : Node} (edge : graph.Edge source target)
    (same : (other == target) = true) : graph.Adjacent source other :=
  (DistinctSet.contains_congr same).mpr (DistinctSet.contains_of_mem edge)

/-- Reachability along `connectedNodes`. -/
def GraphNode.Reaches (graph : GraphNode Node Cost) (source target : Node) : Prop :=
  Relation.ReflTransGen graph.Edge source target

/-- Connections do not lead out of the listed nodes. -/
structure FiniteGraph (Node : Type u) (Cost : Type v) [BEq Node] extends GraphNode Node Cost where
  nodes : List Node
  closed : ∀ source ∈ nodes, ∀ target ∈ (connectedNodes source).elements, target ∈ nodes

/-- A finite graph whose vertices are the nodes as `==` sees them: where the search compares
by `==`, it compares vertices. -/
structure DistinctGraph (Node : Type u) (Cost : Type v) [BEq Node] extends
    FiniteGraph Node Cost where
  separated : ∀ first ∈ nodes, ∀ second ∈ nodes, (first == second) = true ↔ first = second

/-- A reference to a `Step` object: its position in order of creation. -/
abbrev StepRef := Nat

structure Step (Node : Type u) (Cost : Type v) where
  node : Node
  previous : Option StepRef
  stepCost : Cost
  goalCost : Cost

/-- `init(from:to:goal:)` -/
def Step.direct (graph : GraphNode Node Cost) (start destination goal : Node) : Step Node Cost :=
  { node := destination
    previous := none
    stepCost := graph.cost start destination
    goalCost := graph.estimatedCost destination goal }

/-- `init(destination:previous:goal:)`; `steps previous` is the object behind the reference. -/
def Step.extending [Add Cost] (graph : GraphNode Node Cost) (steps : StepRef → Step Node Cost)
    (destination : Node) (previous : StepRef) (goal : Node) : Step Node Cost :=
  { node := destination
    previous := some previous
    stepCost := (steps previous).stepCost + graph.cost (steps previous).node destination
    goalCost := graph.estimatedCost destination goal }

def Step.cost [Add Cost] (step : Step Node Cost) : Cost := step.stepCost + step.goalCost

/-- The locals of `findPath(to:)` and the objects they refer to. References from
`allocated` on have not been handed out. -/
structure SearchState (Node : Type u) (Cost : Type v) [BEq Node] where
  steps : StepRef → Step Node Cost
  allocated : Nat
  possibleSteps : List StepRef
  eliminatedNodes : DistinctSet Node

/-- The order in which the set of one `for` loop is visited: the start's
neighbours (`none`), or those generated for one removed step. -/
structure IterationOrder (Node : Type u) [BEq Node] where
  arrange : Option StepRef → DistinctSet Node → List Node
  perm : ∀ loop set, (arrange loop set).Perm set.elements

namespace SearchState

variable (state : SearchState Node Cost) (fresh : Step Node Cost) (waiting step : StepRef)

/-- `Step.==` on the objects behind two references. -/
def same (first second : StepRef) : Bool :=
  (state.steps first).node == (state.steps second).node

/-- Allocate a new object; its reference is the old `allocated`. -/
def create : SearchState Node Cost :=
  { state with
    steps := Function.update state.steps state.allocated fresh
    allocated := state.allocated + 1 }

/-- `possibleSteps[index].previous = step` -/
def reparent : SearchState Node Cost :=
  { state with
    steps := Function.update state.steps waiting
      { state.steps waiting with previous := some step } }

/-- `eliminatedNodes.insert(step.node)`, the step being already out of `possibleSteps`. -/
def eliminate (rest : List StepRef) : SearchState Node Cost :=
  { state with
    possibleSteps := rest
    eliminatedNodes := state.eliminatedNodes.insert (state.steps step).node }

/-- `step.node.connectedNodes.subtracting(eliminatedNodes)` in its visiting order. -/
def nextNodes (graph : GraphNode Node Cost) (order : IterationOrder Node)
    (state : SearchState Node Cost) (step : StepRef) : List Node :=
  order.arrange (some step)
    ((graph.connectedNodes (state.steps step).node).subtracting state.eliminatedNodes)

/-- The locals before the first loop. The unallocated cells hold a step that nothing reads. -/
def initial (graph : GraphNode Node Cost) (start goal : Node) : SearchState Node Cost :=
  { steps := fun _ => Step.direct graph start start goal
    allocated := 0
    possibleSteps := []
    eliminatedNodes := .singleton start }

@[simp] theorem create_steps_new : (state.create fresh).steps state.allocated = fresh :=
  Function.update_self ..

theorem create_steps_old {ref : StepRef} (older : ref < state.allocated) :
    (state.create fresh).steps ref = state.steps ref :=
  Function.update_of_ne (Nat.ne_of_lt older) ..

@[simp] theorem create_possibleSteps :
    (state.create fresh).possibleSteps = state.possibleSteps := rfl

@[simp] theorem reparent_steps_same : (state.reparent waiting step).steps waiting =
    { state.steps waiting with previous := some step } :=
  Function.update_self ..

theorem reparent_steps_other {ref : StepRef} (different : ref ≠ waiting) :
    (state.reparent waiting step).steps ref = state.steps ref :=
  Function.update_of_ne different ..

@[simp] theorem reparent_allocated :
    (state.reparent waiting step).allocated = state.allocated := rfl

@[simp] theorem reparent_possibleSteps :
    (state.reparent waiting step).possibleSteps = state.possibleSteps := rfl

@[simp] theorem reparent_eliminatedNodes :
    (state.reparent waiting step).eliminatedNodes = state.eliminatedNodes := rfl

/-- Re-parenting rewrites `previous` and nothing else of any step. -/
theorem reparent_steps (ref : StepRef) :
    (state.reparent waiting step).steps ref =
      { state.steps ref with previous := ((state.reparent waiting step).steps ref).previous } := by
  by_cases same : ref = waiting
  · rw [same, reparent_steps_same]
  · rw [reparent_steps_other state waiting step same]

@[simp] theorem reparent_steps_node (ref : StepRef) :
    ((state.reparent waiting step).steps ref).node = (state.steps ref).node := by
  rw [reparent_steps]

variable [Add Cost] [LinearOrder Cost]

/-- `Step.<` on the objects behind two references. -/
def less (first second : StepRef) : Bool :=
  decide ((state.steps first).cost < (state.steps second).cost)

/-- `possibleSteps.sortedInsert(newElement:)` -/
def insertStep : SearchState Node Cost :=
  { state with possibleSteps := ArrayExtension.sortedInsert state.less state.possibleSteps step }

/-- The body of the first loop, over the start's neighbours. -/
def seed (graph : GraphNode Node Cost) (start goal : Node) (state : SearchState Node Cost)
    (connectedNode : Node) : SearchState Node Cost :=
  (state.create (Step.direct graph start connectedNode goal)).insertStep state.allocated

/-- The body of the loop over `nextNodes` for the removed `step`. -/
def visit (graph : GraphNode Node Cost) (goal : Node) (step : StepRef)
    (state : SearchState Node Cost) (node : Node) : SearchState Node Cost :=
  let nextStep := state.allocated
  let created := state.create (Step.extending graph state.steps node step goal)
  let index := ArrayExtension.binarySearch created.less created.possibleSteps nextStep
  match created.possibleSteps[index]? with
  | some waiting =>
    if created.same waiting nextStep then
      if (created.steps nextStep).stepCost < (created.steps waiting).stepCost then
        created.reparent waiting step
      else created
    else created.insertStep nextStep
  | none => created.insertStep nextStep

@[simp] theorem insertStep_steps : (state.insertStep step).steps = state.steps := rfl

@[simp] theorem insertStep_eliminatedNodes :
    (state.insertStep step).eliminatedNodes = state.eliminatedNodes := rfl

@[simp] theorem mem_insertStep {ref : StepRef} :
    ref ∈ (state.insertStep step).possibleSteps ↔ ref = step ∨ ref ∈ state.possibleSteps :=
  ArrayExtension.mem_sortedInsert ..

theorem insertStep_perm :
    (state.insertStep step).possibleSteps.Perm (step :: state.possibleSteps) :=
  ArrayExtension.sortedInsert_perm ..

end SearchState

/-- `while let previous = cursor.previous`, inserting each node at index 1. -/
def unwind (steps : StepRef → Step Node Cost) : Nat → StepRef → List Node → Option (List Node)
  | 0, _, _ => none
  | fuel + 1, cursor, path =>
    match (steps cursor).previous with
    | none => some path
    | some previous => unwind steps fuel previous (path.insertIdx 1 (steps previous).node)

variable [Add Cost] [LinearOrder Cost]

/-- `while !possibleSteps.isEmpty`; `none` when `fuel` iterations were not enough. -/
def search (graph : GraphNode Node Cost) (order : IterationOrder Node) (goal : Node) :
    Nat → SearchState Node Cost → List Node → Option (List Node)
  | 0, _, _ => none
  | fuel + 1, state, path =>
    match state.possibleSteps with
    | [] => some path
    | step :: rest =>
      if (state.steps step).node == goal then
        unwind state.steps fuel step (path.insertIdx 1 (state.steps step).node)
      else
        let state := state.eliminate step rest
        search graph order goal fuel
          ((state.nextNodes graph order step).foldl (SearchState.visit graph goal step) state) path

/-- `findPath(to:)`; `fuel` bounds the iterations of both `while` loops. -/
def findPath (graph : GraphNode Node Cost) (order : IterationOrder Node) (fuel : Nat)
    (start goal : Node) : Option (List Node) :=
  let connectedNodes := order.arrange none (graph.connectedNodes start)
  search graph order goal fuel
    (connectedNodes.foldl (SearchState.seed graph start goal)
      (SearchState.initial graph start goal)) [start]

/-- `findPath(to:)` ends with `path`: every large enough bound gives it. -/
def Returns (graph : GraphNode Node Cost) (order : IterationOrder Node) (start goal : Node)
    (path : List Node) : Prop :=
  ∃ bound, ∀ fuel, bound ≤ fuel → findPath graph order fuel start goal = some path

omit [BEq Node] [Add Cost] [LinearOrder Cost] in
theorem unwind_mono {steps : StepRef → Step Node Cost} {fuel more : Nat} {cursor : StepRef}
    {path result : List Node} (finished : unwind steps fuel cursor path = some result)
    (enough : fuel ≤ more) : unwind steps more cursor path = some result := by
  induction fuel generalizing more cursor path with
  | zero => cases finished
  | succ fuel ih =>
    obtain ⟨extra, rfl⟩ : ∃ extra, more = extra + 1 := ⟨more - 1, by omega⟩
    cases link : (steps cursor).previous with
    | none => simpa [unwind, link] using finished
    | some previous =>
      simp only [unwind, link] at finished ⊢
      exact ih finished (Nat.le_of_succ_le_succ enough)

theorem search_mono {graph : GraphNode Node Cost} {order : IterationOrder Node} {goal : Node}
    {fuel more : Nat} {state : SearchState Node Cost} {path result : List Node}
    (finished : search graph order goal fuel state path = some result) (enough : fuel ≤ more) :
    search graph order goal more state path = some result := by
  induction fuel generalizing more state with
  | zero => cases finished
  | succ fuel ih =>
    obtain ⟨extra, rfl⟩ : ∃ extra, more = extra + 1 := ⟨more - 1, by omega⟩
    cases waiting : state.possibleSteps with
    | nil => simpa [search, waiting] using finished
    | cons step rest =>
      simp only [search, waiting] at finished ⊢
      by_cases found : ((state.steps step).node == goal) = true
      · simp only [found, ↓reduceIte] at finished ⊢
        exact unwind_mono finished (Nat.le_of_succ_le_succ enough)
      · simp only [found] at finished ⊢
        exact ih finished (Nat.le_of_succ_le_succ enough)

/-- One bound that suffices settles the result. -/
theorem Returns.of_findPath {graph : GraphNode Node Cost} {order : IterationOrder Node}
    {start goal : Node} {path : List Node} {fuel : Nat}
    (finished : findPath graph order fuel start goal = some path) :
    Returns graph order start goal path :=
  ⟨fuel, fun _ enough => search_mono finished enough⟩

omit [BEq Node] [Add Cost] [LinearOrder Cost] in
theorem unwind_head {steps : StepRef → Step Node Cost} {fuel : Nat} {cursor : StepRef} {start : Node}
    {path result : List Node} (head : path.head? = some start)
    (finished : unwind steps fuel cursor path = some result) : result.head? = some start := by
  induction fuel generalizing cursor path with
  | zero => cases finished
  | succ fuel ih =>
    obtain ⟨rest, rfl⟩ := List.head?_eq_some_iff.mp head
    cases link : (steps cursor).previous with
    | none =>
      simp only [unwind, link, Option.some.injEq] at finished
      rwa [← finished]
    | some previous =>
      simp only [unwind, link] at finished
      exact ih (by simp) finished

/-- Nodes are only ever inserted behind the first. -/
theorem search_head {graph : GraphNode Node Cost} {order : IterationOrder Node} {goal start : Node}
    {fuel : Nat} {state : SearchState Node Cost} {path result : List Node}
    (head : path.head? = some start)
    (finished : search graph order goal fuel state path = some result) :
    result.head? = some start := by
  induction fuel generalizing state with
  | zero => cases finished
  | succ fuel ih =>
    cases waiting : state.possibleSteps with
    | nil =>
      simp only [search, waiting, Option.some.injEq] at finished
      rwa [← finished]
    | cons step rest =>
      simp only [search, waiting] at finished
      by_cases found : ((state.steps step).node == goal) = true
      · obtain ⟨others, rfl⟩ := List.head?_eq_some_iff.mp head
        simp only [found, ↓reduceIte] at finished
        exact unwind_head (by simp) finished
      · simp only [found] at finished
        exact ih finished

/-- On any graph, what `findPath(to:)` returns begins with the start. -/
theorem findPath_head {graph : GraphNode Node Cost} {order : IterationOrder Node} {fuel : Nat}
    {start goal : Node} {path : List Node}
    (finished : findPath graph order fuel start goal = some path) : path.head? = some start :=
  search_head rfl finished

theorem Returns.head {graph : GraphNode Node Cost} {order : IterationOrder Node}
    {start goal : Node} {path : List Node} (returned : Returns graph order start goal path) :
    path.head? = some start := by
  obtain ⟨bound, settled⟩ := returned
  exact findPath_head (settled bound (Nat.le_refl _))

theorem Returns.ne_nil {graph : GraphNode Node Cost} {order : IterationOrder Node}
    {start goal : Node} {path : List Node} (returned : Returns graph order start goal path) :
    path ≠ [] := by
  intro empty
  have head := returned.head
  rw [empty] at head
  cases head

/-- A start without neighbours is the whole answer. -/
theorem Returns.isolated {graph : GraphNode Node Cost} {order : IterationOrder Node}
    {start goal : Node} (alone : (graph.connectedNodes start).elements = []) :
    Returns graph order start goal [start] := by
  have visits : order.arrange none (graph.connectedNodes start) = [] :=
    List.Perm.eq_nil (alone ▸ order.perm none (graph.connectedNodes start))
  have finished : findPath graph order 1 start goal = some [start] := by
    simp [findPath, visits, search, SearchState.initial]
  exact .of_findPath finished

theorem Returns.unique {graph : GraphNode Node Cost} {order : IterationOrder Node}
    {start goal : Node} {first second : List Node} (one : Returns graph order start goal first)
    (other : Returns graph order start goal second) : first = second := by
  obtain ⟨bound, settled⟩ := one
  obtain ⟨limit, decided⟩ := other
  have early := settled (bound + limit) (Nat.le_add_right _ _)
  have late := decided (bound + limit) (Nat.le_add_left _ _)
  exact Option.some.inj (early.symm.trans late)

/-- The states at the head of a loop of `findPath(to:)`. `pending` is what the
inner loop has still to visit and `current` the removed step it belongs to;
the outer loop is at its head when nothing is pending. -/
inductive Reached (graph : GraphNode Node Cost) (order : IterationOrder Node) (start goal : Node) :
    Option StepRef → List Node → SearchState Node Cost → Prop where
  | enter : Reached graph order start goal none
      (order.arrange none (graph.connectedNodes start)) (.initial graph start goal)
  | seed {connectedNode : Node} {pending : List Node} {state : SearchState Node Cost}
      (earlier : Reached graph order start goal none (connectedNode :: pending) state) :
      Reached graph order start goal none pending (state.seed graph start goal connectedNode)
  | remove {current : Option StepRef} {state : SearchState Node Cost} {step : StepRef}
      {rest : List StepRef} (earlier : Reached graph order start goal current [] state)
      (first : state.possibleSteps = step :: rest)
      (other : ¬ ((state.steps step).node == goal) = true) :
      Reached graph order start goal (some step)
        ((state.eliminate step rest).nextNodes graph order step) (state.eliminate step rest)
  | visit {step : StepRef} {node : Node} {pending : List Node} {state : SearchState Node Cost}
      (earlier : Reached graph order start goal (some step) (node :: pending) state) :
      Reached graph order start goal (some step) pending (state.visit graph goal step node)

section Loops

variable {graph : GraphNode Node Cost} {order : IterationOrder Node} {start goal : Node}
  {pending : List Node} {state : SearchState Node Cost}

theorem Reached.seeded (reached : Reached graph order start goal none pending state) :
    Reached graph order start goal none []
      (pending.foldl (SearchState.seed graph start goal) state) := by
  induction pending generalizing state with
  | nil => exact reached
  | cons node rest ih => exact ih reached.seed

theorem Reached.visited {step : StepRef}
    (reached : Reached graph order start goal (some step) pending state) :
    Reached graph order start goal (some step) []
      (pending.foldl (SearchState.visit graph goal step) state) := by
  induction pending generalizing state with
  | nil => exact reached
  | cons node rest ih => exact ih reached.visit

end Loops

/-- Node 3 is reachable from node 0 directly, through 1, and through 1 and 2; the
cheapest of the three is the second. -/
def crossroads : DistinctGraph (Fin 4) Int where
  connectedNodes
    | 0 => ⟨[3, 1], by decide⟩
    | 1 => ⟨[3, 2], by decide⟩
    | 2 => ⟨[3], by decide⟩
    | 3 => .empty
  estimatedCost _ _ := 0
  cost
    | 0, 3 => 25
    | 0, 1 => 5
    | 1, 3 => 10
    | 1, 2 => 11
    | 2, 3 => 4
    | _, _ => 0
  nodes := [0, 1, 2, 3]
  closed := by decide
  separated := by decide

/-- Visit every set in the order of its list. -/
def listOrder (Node : Type u) [BEq Node] : IterationOrder Node :=
  ⟨fun _ set => set.elements, fun _ _ => .refl _⟩

end AugmentedCampus
