import AugmentedCampus.Search.Removals

/-! `stepCost` against the walk along `previous`. The cost is fixed when a step is
created and the link is not, so the two agree as long as no link is changed. -/
namespace AugmentedCampus

open Foundation

universe u v

variable {Node : Type u} {Cost : Type v} [BEq Node] [AddCommGroup Cost]

/-- `stepCost` is the weight of the walk that `previous` leads back along. -/
def Accurate (graph : GraphNode Node Cost) (start : Node) (state : SearchState Node Cost)
    (ref : StepRef) : Prop :=
  ∃ nodes, Trail graph start state.steps ref nodes ∧
    (state.steps ref).stepCost = walkCost graph.cost nodes

variable [LinearOrder Cost] [EquivBEq Node] {order : IterationOrder Node} {start goal : Node}
  {current : Option StepRef} {pending : List Node} {state : SearchState Node Cost}
  {step : StepRef} {node : Node}

theorem Reached.priced {graph : FiniteGraph Node Cost} (member : start ∈ graph.nodes)
    (kept : Unrewired graph.toGraphNode order start goal)
    (reached : Reached graph.toGraphNode order start goal current pending state) :
    ∀ ref < state.allocated, Priced graph.toGraphNode start state.steps ref := by
  induction reached with
  | enter => exact fun _ bound => nomatch bound
  | @seed node pending state earlier ih =>
    intro ref bound
    rcases Nat.lt_succ_iff_lt_or_eq.mp bound with older | newest
    · exact (earlier.invariant member).priced_create _ older (ih ref older)
    · rw [newest]
      exact priced_direct graph.toGraphNode start goal node state
  | remove earlier first other ih => exact ih
  | @visit step node pending state earlier ih =>
    have valid := earlier.invariant member
    have extended : ∀ ref < state.allocated + 1, Priced graph.toGraphNode start
        (state.extended graph.toGraphNode goal step node).steps ref := by
      intro ref bound
      rcases Nat.lt_succ_iff_lt_or_eq.mp bound with older | newest
      · exact valid.priced_create _ older (ih ref older)
      · rw [newest]
        exact priced_extending graph.toGraphNode start goal node state (valid.active step rfl).1
    rw [SearchState.visit_allocated]
    rcases SearchState.visit_cases graph.toGraphNode goal step state node with
      ⟨_, _, rewires, _⟩ | ⟨_, _, _, same⟩ | ⟨_, same⟩
    · exact absurd rewires (kept _ _ _ _ earlier)
    · rwa [same]
    · rw [same]
      exact extended

/-- A re-parented step is not accurate any more if its new predecessor was: the
walk became lighter and `stepCost` did not. -/
theorem SearchInvariant.not_accurate {graph : DistinctGraph Node Cost}
    (valid : SearchInvariant graph.toFiniteGraph start (some step) (node :: pending) state)
    {waiting : StepRef} (found : state.hit graph.toGraphNode goal step node waiting)
    (cheaper : ((state.extended graph.toGraphNode goal step node).steps state.allocated).stepCost <
      ((state.extended graph.toGraphNode goal step node).steps waiting).stepCost)
    (accurate : Accurate graph.toGraphNode start state step) :
    ¬ Accurate graph.toGraphNode start
      ((state.extended graph.toGraphNode goal step node).reparent waiting step) waiting := by
  obtain ⟨older, removed, _, _⟩ := valid.active step rfl
  have before := valid.waiting waiting found.mem
  have apart : step ≠ waiting := fun same => removed (same ▸ found.mem)
  have own : (state.steps waiting).node = node :=
    (graph.separated _ (valid.listed waiting before) node valid.ahead_listed).mp
      (valid.hit_node found)
  obtain ⟨nodes, trail, price⟩ := accurate
  have created : SearchInvariant graph.toFiniteGraph start (some step) (node :: pending)
      (state.extended graph.toGraphNode goal step node) :=
    valid.created valid.ahead_listed valid.extended_linked valid.extended_explored
  have unchanged : Trail graph.toGraphNode start
      ((state.extended graph.toGraphNode goal step node).reparent waiting step).steps step nodes :=
    created.trail_reparent found.mem (Nat.lt_succ_of_lt older) apart
      (valid.trail_create _ older trail)
  intro again
  obtain ⟨others, back, weight⟩ := again
  cases back with
  | first root edge => simp at root
  | @next _ previous others link earlier edge =>
    rw [SearchState.reparent_steps_same] at link
    cases link
    have linked : ((state.extended graph.toGraphNode goal step node).reparent waiting step).steps step =
        state.steps step := by
      rw [SearchState.reparent_steps_other _ _ _ apart, SearchState.extended_old _ _ _ _ _ older]
    have target : (((state.extended graph.toGraphNode goal step node).reparent waiting step).steps
        waiting).node = node := by
      rw [SearchState.reparent_steps_node, SearchState.extended_old _ _ _ _ _ before, own]
    have kept : (((state.extended graph.toGraphNode goal step node).reparent waiting step).steps
        waiting).stepCost = (state.steps waiting).stepCost := by
      rw [SearchState.reparent_steps_same, SearchState.extended_old _ _ _ _ _ before]
    rw [earlier.walk.cost_snoc graph.cost, ← unchanged.unique earlier, ← price, kept, linked,
      target] at weight
    rw [SearchState.extended_new, SearchState.extended_old _ _ _ _ _ before, weight] at cheaper
    exact lt_irrefl _ cheaper

def AlwaysAccurate (graph : GraphNode Node Cost) (order : IterationOrder Node) (start goal : Node) :
    Prop :=
  ∀ removed current pending state, Run graph order start goal removed current pending state →
    ∀ ref, ref ∈ state.possibleSteps ∨ ref ∈ removed → Accurate graph start state ref

/-- The first visit that re-parents a step leaves an inaccurate one. -/
theorem AlwaysAccurate.unrewired {graph : DistinctGraph Node Cost} (member : start ∈ graph.nodes)
    (accurate : AlwaysAccurate graph.toGraphNode order start goal) :
    Unrewired graph.toGraphNode order start goal := by
  intro step node pending state reached rewires
  obtain ⟨removed, run⟩ := reached.run
  have before := accurate _ _ _ _ run step (.inr (run.active rfl))
  rcases SearchState.visit_cases graph.toGraphNode goal step state node with
    ⟨waiting, found, ⟨other, again, cheaper⟩, same⟩ | ⟨_, _, kept, _⟩ | ⟨missed, _⟩
  · cases found.unique again
    have after := accurate _ _ _ _ run.visit waiting
    rw [same] at after
    exact (reached.invariant member).not_accurate found cheaper before (after (.inl found.mem))
  · exact kept rewires
  · obtain ⟨waiting, found, _⟩ := rewires
    exact missed waiting found

/-- Every waiting or removed step costs what the walk along its links costs, in
all loop heads of a run, exactly when no visit re-parents a step. -/
theorem stepCost_accurate_iff (graph : DistinctGraph Node Cost) (order : IterationOrder Node)
    (start goal : Node) (member : start ∈ graph.nodes) :
    AlwaysAccurate graph.toGraphNode order start goal ↔
      Unrewired graph.toGraphNode order start goal := by
  refine ⟨AlwaysAccurate.unrewired member, fun kept removed current pending state run ref present => ?_⟩
  have reached := run.reached
  have valid := reached.invariant member
  have bound : ref < state.allocated :=
    present.elim (valid.waiting ref) (run.removed_allocated member ref)
  obtain ⟨nodes, explored⟩ := valid.explored ref bound
  refine ⟨nodes, explored.trail, ?_⟩
  exact explored.trail.priced (· < state.allocated) bound
    (fun ref older previous link => (valid.links ref older previous link).1)
    (reached.priced member kept)

theorem stepCost_accurate_iff_blocks : AlwaysAccurate blocks.toGraphNode (listOrder (Fin 6)) 0 4 :=
  (stepCost_accurate_iff blocks (listOrder (Fin 6)) 0 4 (by decide)).mpr blocks_unrewired

/-- On `crossroads` the step to 3, created for 25, is re-parented to 1 at 15. -/
theorem stepCost_not_accurate : ¬ AlwaysAccurate crossroads.toGraphNode (listOrder (Fin 4)) 0 3 := by
  intro accurate
  have kept := AlwaysAccurate.unrewired (by decide) accurate
  have entered : Run crossroads.toGraphNode (listOrder (Fin 4)) 0 3 [] none [3, 1] _ := .enter
  have removed := entered.seed.seed.removing 1 [0] [3, 2] (by decide +kernel) (by decide +kernel)
    (by decide +kernel)
  refine kept 1 3 [2] _ removed.reached ⟨0, ⟨?_, ?_⟩, ?_⟩
  · decide +kernel
  · decide +kernel
  · decide +kernel

end AugmentedCampus
