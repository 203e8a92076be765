import AugmentedCampus.Search.BinarySearch
import AugmentedCampus.Search.Termination

/-! `possibleSteps` stays in order of `cost()`: insertions search by that key,
and re-parenting leaves it alone. -/
namespace AugmentedCampus

open Foundation

universe u v

variable {Node : Type u} {Cost : Type v} [BEq Node] [Add Cost]

theorem SearchState.reparent_cost (state : SearchState Node Cost) (waiting step ref : StepRef) :
    ((state.reparent waiting step).steps ref).cost = (state.steps ref).cost := by
  rw [SearchState.reparent_steps]
  rfl

variable [LinearOrder Cost]

def SearchState.Sorted (state : SearchState Node Cost) : Prop :=
  state.possibleSteps.Pairwise
    (fun first second => (state.steps first).cost ≤ (state.steps second).cost)

/-- Steps of one cost are tied: `Step.<` is a strict weak order and no more. -/
theorem SearchState.less_strictWeakOrder (state : SearchState Node Cost) :
    IsStrictWeakOrder StepRef (fun first second => state.less first second = true) :=
  ArrayExtension.strictWeakOrder_of_key state.less (fun _ _ => decide_eq_true_iff)

/-- The loops over the array give the waiting steps that the search goes on with. -/
theorem SearchState.insertStep_settles (state : SearchState Node Cost) (step : StepRef) :
    Settles Halt.outOfFuel state.possibleSteps.length
      (fun fuel => IndexedArray.sortedInsert state.less fuel state.possibleSteps step)
      (state.insertStep step).possibleSteps :=
  IndexedArray.sortedInsert_settles state.less state.possibleSteps step

section Order

variable {graph : FiniteGraph Node Cost} {order : IterationOrder Node} {start goal : Node}
  {current : Option StepRef} {pending : List Node} {state changed : SearchState Node Cost}

theorem SearchState.Sorted.insertStep (sorted : state.Sorted) (step : StepRef) :
    (state.insertStep step).Sorted := by
  apply ArrayExtension.sortedInsert_sorted _ _ _ (fun ref => (state.steps ref).cost) _ sorted
  intro first second
  exact decide_eq_true_iff

/-- Sortedness only depends on the costs of the waiting steps. -/
theorem SearchState.Sorted.congr (sorted : state.Sorted)
    (waiting : changed.possibleSteps = state.possibleSteps)
    (costs : ∀ ref ∈ state.possibleSteps, (changed.steps ref).cost = (state.steps ref).cost) :
    changed.Sorted := by
  unfold SearchState.Sorted
  rw [waiting]
  refine List.Pairwise.imp_of_mem ?_ sorted
  intro first second one other ordered
  rwa [costs first one, costs second other]

theorem SearchState.Sorted.create (sorted : state.Sorted)
    (valid : SearchInvariant graph start current pending state) (fresh : Step Node Cost) :
    (state.create fresh).Sorted := by
  apply sorted.congr (SearchState.create_possibleSteps _ _)
  intro ref waits
  rw [SearchState.create_steps_old _ _ (valid.waiting ref waits)]

theorem SearchState.Sorted.reparent (sorted : state.Sorted) (waiting step : StepRef) :
    (state.reparent waiting step).Sorted :=
  sorted.congr (SearchState.reparent_possibleSteps _ _ _)
    (fun ref _ => SearchState.reparent_cost state waiting step ref)

theorem Reached.sorted [EquivBEq Node] (member : start ∈ graph.nodes)
    (reached : Reached graph.toGraphNode order start goal current pending state) :
    state.Sorted := by
  induction reached with
  | enter => exact List.Pairwise.nil
  | seed earlier ih => exact (ih.create (earlier.invariant member) _).insertStep _
  | remove earlier first other ih =>
    unfold SearchState.Sorted at ih
    rw [first] at ih
    exact (List.pairwise_cons.mp ih).2
  | @visit step node pending state earlier ih =>
    have extended : (state.extended graph.toGraphNode goal step node).Sorted :=
      ih.create (earlier.invariant member) _
    rcases SearchState.visit_cases graph.toGraphNode goal step state node with
      ⟨waiting, _, _, same⟩ | ⟨_, _, _, same⟩ | ⟨_, same⟩
    · rw [same]
      exact extended.reparent waiting step
    · rwa [same]
    · rw [same]
      exact extended.insertStep _

/-- The removed step is one of least cost. -/
theorem SearchState.Sorted.first_le {step : StepRef} {rest : List StepRef} (sorted : state.Sorted)
    (first : state.possibleSteps = step :: rest) {ref : StepRef} (waits : ref ∈ state.possibleSteps) :
    (state.steps step).cost ≤ (state.steps ref).cost := by
  unfold SearchState.Sorted at sorted
  rw [first] at sorted waits
  rcases List.mem_cons.mp waits with same | later
  · rw [same]
  · exact (List.pairwise_cons.mp sorted).1 ref later

end Order

end AugmentedCampus
