import AugmentedCampus.Search.OpenList
import AugmentedCampus.Search.Optimality

/-! The steps that a run of `findPath(to:)` has removed from `possibleSteps`, in
order, and their costs. -/
namespace AugmentedCampus

open Foundation

universe u v

variable {Node : Type u} {Cost : Type v} [BEq Node]

section Runs

variable [Add Cost] [LinearOrder Cost]

/-- The loop heads as in `Reached`, with the steps whose neighbours have been
generated so far. -/
inductive Run (graph : GraphNode Node Cost) (order : IterationOrder Node) (start goal : Node) :
    List StepRef → Option StepRef → List Node → SearchState Node Cost → Prop where
  | enter : Run graph order start goal [] none
      (order.arrange none (graph.connectedNodes start)) (.initial graph start goal)
  | seed {removed : List StepRef} {connectedNode : Node} {pending : List Node}
      {state : SearchState Node Cost}
      (earlier : Run graph order start goal removed none (connectedNode :: pending) state) :
      Run graph order start goal removed none pending (state.seed graph start goal connectedNode)
  | remove {removed : List StepRef} {current : Option StepRef} {state : SearchState Node Cost}
      {step : StepRef} {rest : List StepRef}
      (earlier : Run graph order start goal removed current [] state)
      (first : state.possibleSteps = step :: rest)
      (other : ¬ ((state.steps step).node == goal) = true) :
      Run graph order start goal (removed ++ [step]) (some step)
        ((state.eliminate step rest).nextNodes graph order step) (state.eliminate step rest)
  | visit {removed : List StepRef} {step : StepRef} {node : Node} {pending : List Node}
      {state : SearchState Node Cost}
      (earlier : Run graph order start goal removed (some step) (node :: pending) state) :
      Run graph order start goal removed (some step) pending (state.visit graph goal step node)

variable {graph : GraphNode Node Cost} {order : IterationOrder Node} {start goal : Node}
  {removed : List StepRef} {current : Option StepRef} {pending : List Node}
  {state : SearchState Node Cost} {step : StepRef}

theorem Run.reached (run : Run graph order start goal removed current pending state) :
    Reached graph order start goal current pending state := by
  induction run with
  | enter => exact .enter
  | seed earlier ih => exact ih.seed
  | remove earlier first other ih => exact ih.remove first other
  | visit earlier ih => exact ih.visit

theorem Reached.run (reached : Reached graph order start goal current pending state) :
    ∃ removed, Run graph order start goal removed current pending state := by
  induction reached with
  | enter => exact ⟨[], .enter⟩
  | seed earlier ih =>
    obtain ⟨removed, run⟩ := ih
    exact ⟨removed, run.seed⟩
  | remove earlier first other ih =>
    obtain ⟨removed, run⟩ := ih
    exact ⟨_, run.remove first other⟩
  | visit earlier ih =>
    obtain ⟨removed, run⟩ := ih
    exact ⟨removed, run.visit⟩

/-- A removal whose next nodes are known. -/
theorem Run.removing (earlier : Run graph order start goal removed current [] state)
    (step : StepRef) (rest : List StepRef) (pending : List Node) (first : state.possibleSteps = step :: rest)
    (other : ¬ ((state.steps step).node == goal) = true)
    (ahead : (state.eliminate step rest).nextNodes graph order step = pending) :
    Run graph order start goal (removed ++ [step]) (some step) pending
      (state.eliminate step rest) :=
  ahead ▸ earlier.remove first other

/-- Nothing is removed while the start's neighbours are inserted. -/
theorem Run.seeding (run : Run graph order start goal removed current pending state)
    (none : current = none) : removed = [] := by
  induction run with
  | enter => rfl
  | seed earlier ih => exact ih rfl
  | remove earlier first other ih => cases none
  | visit earlier ih => exact ih none

/-- The step whose neighbours are visited was removed. -/
theorem Run.active (run : Run graph order start goal removed current pending state)
    (active : current = some step) : step ∈ removed := by
  induction run with
  | enter => cases active
  | seed earlier ih => cases active
  | remove earlier first other ih =>
    cases active
    exact List.mem_append_right _ (List.mem_singleton.mpr rfl)
  | visit earlier ih => exact ih active

end Runs

namespace SearchState

variable [Add Cost] [LinearOrder Cost] (graph : GraphNode Node Cost) (goal : Node) (step : StepRef)
  (state : SearchState Node Cost) (node : Node)

/-- A visit creates one step and changes nothing but `previous` of the others. -/
theorem visit_steps (ref : StepRef) :
    (state.visit graph goal step node).steps ref =
      { (state.extended graph goal step node).steps ref with
        previous := ((state.visit graph goal step node).steps ref).previous } := by
  rcases visit_cases graph goal step state node with
    ⟨waiting, _, _, same⟩ | ⟨_, _, _, same⟩ | ⟨_, same⟩
  · rw [same]
    exact reparent_steps _ waiting step ref
  · rw [same]
  · rw [same]
    rfl

theorem visit_cost (ref : StepRef) :
    ((state.visit graph goal step node).steps ref).cost =
      ((state.extended graph goal step node).steps ref).cost := by
  rw [visit_steps]
  rfl

theorem visit_node (ref : StepRef) :
    ((state.visit graph goal step node).steps ref).node =
      ((state.extended graph goal step node).steps ref).node := by
  rw [visit_steps]

theorem visit_goalCost (ref : StepRef) :
    ((state.visit graph goal step node).steps ref).goalCost =
      ((state.extended graph goal step node).steps ref).goalCost := by
  rw [visit_steps]

@[simp] theorem visit_allocated :
    (state.visit graph goal step node).allocated = state.allocated + 1 := by
  rcases visit_cases graph goal step state node with
    ⟨waiting, _, _, same⟩ | ⟨_, _, _, same⟩ | ⟨_, same⟩
  · rw [same]
    rfl
  · rw [same]
    rfl
  · rw [same]
    rfl

/-- The new step starts to wait unless the search has found one for its node. -/
theorem visit_possibleSteps :
    (state.visit graph goal step node).possibleSteps = state.possibleSteps ∧
        (∃ waiting, state.hit graph goal step node waiting) ∨
      (∀ waiting, ¬ state.hit graph goal step node waiting) ∧
        (state.visit graph goal step node).possibleSteps.Perm
          (state.allocated :: state.possibleSteps) := by
  rcases visit_cases graph goal step state node with
    ⟨waiting, found, _, same⟩ | ⟨waiting, found, _, same⟩ | ⟨missed, same⟩
  · rw [same]
    exact .inl ⟨rfl, waiting, found⟩
  · rw [same]
    exact .inl ⟨rfl, waiting, found⟩
  · rw [same]
    exact .inr ⟨missed, insertStep_perm _ _⟩

variable {graph goal step state node}

theorem mem_visit {ref : StepRef}
    (waits : ref ∈ (state.visit graph goal step node).possibleSteps) :
    ref = state.allocated ∨ ref ∈ state.possibleSteps := by
  rcases visit_possibleSteps graph goal step state node with ⟨same, _⟩ | ⟨_, perm⟩
  · exact .inr (same ▸ waits)
  · exact List.mem_cons.mp (perm.mem_iff.mp waits)

theorem mem_visit_of_mem {ref : StepRef} (waits : ref ∈ state.possibleSteps) :
    ref ∈ (state.visit graph goal step node).possibleSteps := by
  rcases visit_possibleSteps graph goal step state node with ⟨same, _⟩ | ⟨_, perm⟩
  · exact same ▸ waits
  · exact perm.mem_iff.mpr (List.mem_cons_of_mem _ waits)

end SearchState

section Removed

variable [Add Cost] [LinearOrder Cost] [EquivBEq Node] {graph : FiniteGraph Node Cost}
  {order : IterationOrder Node} {start goal : Node} {removed : List StepRef}
  {current : Option StepRef} {pending : List Node} {state : SearchState Node Cost}

theorem Run.removed_allocated (member : start ∈ graph.nodes)
    (run : Run graph.toGraphNode order start goal removed current pending state) :
    ∀ gone ∈ removed, gone < state.allocated := by
  induction run with
  | enter => exact fun _ gone => nomatch gone
  | seed earlier ih => exact fun gone before => Nat.lt_succ_of_lt (ih gone before)
  | remove earlier first other ih =>
    intro gone before
    rcases List.mem_append.mp before with old | last
    · exact ih gone old
    · rw [List.mem_singleton.mp last]
      exact (earlier.reached.invariant member).first_allocated first
  | visit earlier ih =>
    intro gone before
    rw [SearchState.visit_allocated]
    exact Nat.lt_succ_of_lt (ih gone before)

omit [EquivBEq Node] in
theorem Reached.estimated {graph : GraphNode Node Cost}
    (reached : Reached graph order start goal current pending state) :
    ∀ ref < state.allocated,
      (state.steps ref).goalCost = graph.estimatedCost (state.steps ref).node goal := by
  induction reached with
  | enter => exact fun _ bound => nomatch bound
  | @seed node pending state earlier ih =>
    intro ref bound
    simp only [SearchState.seed, SearchState.insertStep_steps]
    rcases Nat.lt_succ_iff_lt_or_eq.mp bound with older | newest
    · rw [SearchState.create_steps_old _ _ older]
      exact ih ref older
    · rw [newest, SearchState.create_steps_new]
      rfl
  | remove earlier first other ih => exact ih
  | @visit step node pending state earlier ih =>
    intro ref bound
    rw [SearchState.visit_goalCost, SearchState.visit_node]
    rw [SearchState.visit_allocated] at bound
    rcases Nat.lt_succ_iff_lt_or_eq.mp bound with older | newest
    · rw [SearchState.extended_old _ _ _ _ _ older]
      exact ih ref older
    · rw [newest, SearchState.extended_new]
      rfl

end Removed

section Costs

variable [AddCommGroup Cost] [LinearOrder Cost]

/-- What was removed costs at most what is removed later. -/
structure RemovalOrder (removed : List StepRef) (current : Option StepRef)
    (state : SearchState Node Cost) : Prop where
  sorted : removed.Pairwise
    (fun first second => (state.steps first).cost ≤ (state.steps second).cost)
  below : ∀ gone ∈ removed, ∀ ref ∈ state.possibleSteps,
    (state.steps gone).cost ≤ (state.steps ref).cost
  last : ∀ step, current = some step → ∀ gone ∈ removed,
    (state.steps gone).cost ≤ (state.steps step).cost

variable {graph : FiniteGraph Node Cost} {order : IterationOrder Node} {start goal : Node}
  {removed : List StepRef} {current : Option StepRef} {pending : List Node}
  {state : SearchState Node Cost} {step : StepRef} {rest : List StepRef} {node : Node}

theorem RemovalOrder.empty : RemovalOrder [] current state := by
  constructor <;> simp

/-- The removal of a cheapest waiting step. -/
theorem RemovalOrder.append (falling : RemovalOrder removed current state)
    (first : state.possibleSteps = step :: rest) :
    (removed ++ [step]).Pairwise
      (fun first second => (state.steps first).cost ≤ (state.steps second).cost) := by
  refine List.pairwise_append.mpr ⟨falling.sorted, List.pairwise_singleton _ _, ?_⟩
  intro gone before other last
  rw [List.mem_singleton.mp last]
  exact falling.below gone before step (by rw [first]; exact List.mem_cons_self)

theorem RemovalOrder.remove (falling : RemovalOrder removed current state) (sorted : state.Sorted)
    (first : state.possibleSteps = step :: rest) :
    RemovalOrder (removed ++ [step]) (some step) (state.eliminate step rest) := by
  have least (ref : StepRef) (waits : ref ∈ rest) : ref ∈ state.possibleSteps := by
    rw [first]
    exact List.mem_cons_of_mem _ waits
  refine ⟨falling.append first, fun gone before ref waits => ?_, fun other chosen gone before => ?_⟩
  · rcases List.mem_append.mp before with old | last
    · exact falling.below gone old ref (least ref waits)
    · rw [List.mem_singleton.mp last]
      exact sorted.first_le first (least ref waits)
  · cases chosen
    rcases List.mem_append.mp before with old | last
    · exact falling.below gone old step (by rw [first]; exact List.mem_cons_self)
    · rw [List.mem_singleton.mp last]

/-- A step generated from another costs at least as much, by consistency. -/
theorem cost_le_extending [IsOrderedAddMonoid Cost] (consistent : Consistent graph goal)
    (edge : graph.Edge (state.steps step).node node)
    (estimated : (state.steps step).goalCost = graph.estimatedCost (state.steps step).node goal) :
    (state.steps step).cost ≤ (Step.extending graph.toGraphNode state.steps node step goal).cost := by
  unfold Step.cost
  rw [estimated]
  calc (state.steps step).stepCost + graph.estimatedCost (state.steps step).node goal
      ≤ (state.steps step).stepCost +
          (graph.cost (state.steps step).node node + graph.estimatedCost node goal) :=
        add_le_add_right (consistent _ _ edge) _
    _ = (state.steps step).stepCost + graph.cost (state.steps step).node node +
          graph.estimatedCost node goal := (add_assoc _ _ _).symm

theorem Run.removalOrder [EquivBEq Node] [IsOrderedAddMonoid Cost] (member : start ∈ graph.nodes)
    (consistent : Consistent graph goal)
    (run : Run graph.toGraphNode order start goal removed current pending state) :
    RemovalOrder removed current state := by
  induction run with
  | enter => exact .empty
  | seed earlier ih =>
    rw [earlier.seeding rfl]
    exact .empty
  | remove earlier first other ih => exact ih.remove (earlier.reached.sorted member) first
  | @visit removed step node pending state earlier ih =>
    have valid := earlier.reached.invariant member
    obtain ⟨older, _, _, ahead⟩ := valid.active step rfl
    have kept (ref : StepRef) (bound : ref < state.allocated) :
        ((state.visit graph.toGraphNode goal step node).steps ref).cost = (state.steps ref).cost := by
      rw [SearchState.visit_cost, SearchState.extended_old _ _ _ _ _ bound]
    have gone_before := earlier.removed_allocated member
    refine ⟨?_, fun gone before ref waits => ?_, fun other chosen gone before => ?_⟩
    · refine ih.sorted.imp_of_mem fun {first second} one two ordered => ?_
      rwa [kept first (gone_before first one), kept second (gone_before second two)]
    · rw [kept gone (gone_before gone before)]
      rcases SearchState.mem_visit waits with newest | old
      · rw [newest, SearchState.visit_cost, SearchState.extended_new]
        exact (ih.last step rfl gone before).trans (cost_le_extending consistent
          (ahead node List.mem_cons_self).1 (earlier.reached.estimated step older))
      · rw [kept ref (valid.waiting ref old)]
        exact ih.below gone before ref old
    · cases chosen
      rw [kept gone (gone_before gone before), kept step older]
      exact ih.last step rfl gone before

/-- At every loop head the waiting steps are in order of cost and the first is a
cheapest. With a consistent heuristic the removed steps, the last one included,
are in order of cost too. -/
theorem findPath_steps_sorted [EquivBEq Node] (graph : FiniteGraph Node Cost)
    (order : IterationOrder Node) (start goal : Node) (member : start ∈ graph.nodes) :
    (∀ current pending state, Reached graph.toGraphNode order start goal current pending state →
      state.possibleSteps.Pairwise
        (fun first second => (state.steps first).cost ≤ (state.steps second).cost) ∧
      ∀ step rest, state.possibleSteps = step :: rest → ∀ ref ∈ state.possibleSteps,
        (state.steps step).cost ≤ (state.steps ref).cost) ∧
    ([IsOrderedAddMonoid Cost] → Consistent graph goal → ∀ removed current state step rest,
      Run graph.toGraphNode order start goal removed current [] state →
        state.possibleSteps = step :: rest →
          (removed ++ [step]).Pairwise
            (fun first second => (state.steps first).cost ≤ (state.steps second).cost)) := by
  constructor
  · intro current pending state reached
    have sorted := reached.sorted member
    exact ⟨sorted, fun step rest first ref waits => sorted.first_le first waits⟩
  · intro _ consistent removed current state step rest run first
    exact (run.removalOrder member consistent).append first

theorem findPath_steps_sorted_crossroads :
    (∀ current pending state,
      Reached crossroads.toGraphNode (listOrder (Fin 4)) 0 3 current pending state → state.Sorted) ∧
    ∀ removed current state step rest,
      Run crossroads.toGraphNode (listOrder (Fin 4)) 0 3 removed current [] state →
        state.possibleSteps = step :: rest →
          (removed ++ [step]).Pairwise
            (fun first second => (state.steps first).cost ≤ (state.steps second).cost) := by
  obtain ⟨sorted, falling⟩ :=
    findPath_steps_sorted crossroads.toFiniteGraph (listOrder (Fin 4)) 0 3 (by decide)
  exact ⟨fun current pending state reached => (sorted current pending state reached).1,
    falling (by unfold Consistent; decide)⟩

end Costs

end AugmentedCampus
