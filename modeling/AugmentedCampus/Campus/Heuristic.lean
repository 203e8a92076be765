import AugmentedCampus.Campus.Navigation
import AugmentedCampus.Search.Removals
import Mathlib.Analysis.InnerProductSpace.PiL2

/-! Over the reals the cost of an edge is a distance in the plane. The estimate is
therefore consistent and admissible on every graph of locations. -/
namespace AugmentedCampus

open Foundation

universe u v

variable {Id : Type u}

namespace NavigationLocation

/-- The coordinates as a point of the plane. -/
noncomputable def point (location : NavigationLocation Id ℝ) : EuclideanSpace ℝ (Fin 2) :=
  !₂[location.latitude, location.longitude]

theorem cost_eq_dist (location node : NavigationLocation Id ℝ) :
    location.cost node = dist location.point node.point := by
  rw [EuclideanSpace.dist_eq, Fin.sum_univ_two]
  simp only [Real.dist_eq, sq_abs]
  rfl

theorem cost_self (location : NavigationLocation Id ℝ) : location.cost location = 0 := by
  rw [cost_eq_dist, dist_self]

theorem cost_triangle (location between node : NavigationLocation Id ℝ) :
    location.cost node ≤ location.cost between + between.cost node := by
  simp only [cost_eq_dist]
  exact dist_triangle location.point between.point node.point

/-- No way to the goal is cheaper than the estimate, along whatever edges. -/
theorem estimatedCost_le_walkCost
    {edge : NavigationLocation Id ℝ → NavigationLocation Id ℝ → Prop}
    {location goal : NavigationLocation Id ℝ} {nodes : List (NavigationLocation Id ℝ)}
    (walk : IsWalk edge location goal nodes) :
    location.estimatedCost goal ≤ walkCost cost nodes :=
  walk.weight_le cost cost_triangle goal.cost_self

end NavigationLocation

/-- Locations as graph nodes, whatever they are connected to. -/
def locationGraph {K : Type v} [DecidableEq K] [Ring K] [SquareRoot K]
    (connectedNodes : NavigationLocation Id K → DistinctSet (NavigationLocation Id K)) :
    GraphNode (NavigationLocation Id K) K where
  connectedNodes := connectedNodes
  estimatedCost := NavigationLocation.estimatedCost
  cost := NavigationLocation.cost

/-- The estimate never drops by more than an edge costs, and no walk to the goal is
cheaper than the estimate at its start. -/
theorem estimatedCost_admissible
    (connectedNodes : NavigationLocation Id ℝ → DistinctSet (NavigationLocation Id ℝ)) :
    (∀ location between goal : NavigationLocation Id ℝ,
      (locationGraph connectedNodes).estimatedCost location goal ≤
        (locationGraph connectedNodes).cost location between +
          (locationGraph connectedNodes).estimatedCost between goal) ∧
    ∀ location goal nodes, IsWalk (locationGraph connectedNodes).Edge location goal nodes →
      (locationGraph connectedNodes).estimatedCost location goal ≤
        walkCost (locationGraph connectedNodes).cost nodes := by
  constructor
  · intro location between goal
    exact location.cost_triangle between goal
  · intro location goal nodes walk
    exact NavigationLocation.estimatedCost_le_walkCost walk

section Loaded

variable (manager : DataManager Int ℝ) (start : NavigationNode Int ℝ)

/-- In the graph of the app, as a search from `start` sees it, the estimate is admissible. -/
theorem DataManager.estimatedCost_le_walkCost {location goal : NavigationLocation Int ℝ}
    {nodes : List (NavigationLocation Int ℝ)}
    (walk : IsWalk (manager.graphNode start).Edge location goal nodes) :
    (manager.graphNode start).estimatedCost location goal ≤
      walkCost (manager.graphNode start).cost nodes :=
  NavigationLocation.estimatedCost_le_walkCost walk

theorem DataManager.searchGraph_consistent (goal : NavigationLocation Int ℝ) :
    Consistent (manager.searchGraph start) goal :=
  fun first second _ => first.cost_triangle second goal

/-- Over the reals every search of the app removes its steps in order of cost. -/
theorem DataManager.removalOrder {order : IterationOrder (NavigationLocation Int ℝ)}
    {goal : NavigationLocation Int ℝ} {removed : List StepRef} {current : Option StepRef}
    {pending : List (NavigationLocation Int ℝ)}
    {state : SearchState (NavigationLocation Int ℝ) ℝ}
    (run : Run (manager.graphNode start) order start.toNavigationLocation goal removed current
      pending state) :
    RemovalOrder removed current state := by
  have seen : Run (manager.searchGraph start).toGraphNode order start.toNavigationLocation goal
      removed current pending state := run
  exact seen.removalOrder List.mem_cons_self (manager.searchGraph_consistent start goal)

end Loaded

end AugmentedCampus
