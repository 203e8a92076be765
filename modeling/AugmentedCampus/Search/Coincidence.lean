import AugmentedCampus.Search.Expansion

/-! Nodes that are equal and not the same. The search takes one for the other: a neighbour
is left out for a node equal to it. A search that runs out of steps although the goal can
be reached has done so. -/
namespace AugmentedCampus

open Foundation

universe u v

variable {Node : Type u} {Cost : Type v} [BEq Node] [Add Cost] [LinearOrder Cost]

/-- A neighbour that has not been expanded itself is subtracted because an equal node is
eliminated, or a waiting step is taken for one to it that is to an equal node. -/
inductive PassesOver (graph : GraphNode Node Cost) (order : IterationOrder Node)
    (start goal : Node) : Prop
  | subtracted {removed : List StepRef} {current : Option StepRef} {state : SearchState Node Cost}
    {step : StepRef} {rest : List StepRef} {next : Node}
    (run : Run graph order start goal removed current [] state)
    (first : state.possibleSteps = step :: rest)
    (other : ¬ ((state.steps step).node == goal) = true)
    (edge : graph.Edge (state.steps step).node next)
    (eliminated : (state.eliminate step rest).eliminatedNodes.contains next = true)
    (unexpanded : next ∉ state.expandedNodes start (removed ++ [step])) :
    PassesOver graph order start goal
  | taken {removed : List StepRef} {step waiting : StepRef} {node : Node} {pending : List Node}
    {state : SearchState Node Cost}
    (run : Run graph order start goal removed (some step) (node :: pending) state)
    (found : state.hit graph goal step node waiting)
    (different : (state.steps waiting).node ≠ node) : PassesOver graph order start goal

section Results

variable {graph : GraphNode Node Cost} {order : IterationOrder Node} {start goal : Node}

/-- The rest of the inner loop. -/
def SearchState.finish (graph : GraphNode Node Cost) (start goal : Node) (pending : List Node)
    (state : SearchState Node Cost) : Option StepRef → SearchState Node Cost
  | none => pending.foldl (seed graph start goal) state
  | some step => pending.foldl (visit graph goal step) state

end Results

section Runs

variable [EquivBEq Node] {graph : FiniteGraph Node Cost} {order : IterationOrder Node}
  {start goal : Node} {removed : List StepRef} {current : Option StepRef} {pending : List Node}
  {state : SearchState Node Cost}

theorem Run.expandedNodes_visit {step : StepRef} {node : Node} (member : start ∈ graph.nodes)
    (earlier : Run graph.toGraphNode order start goal removed (some step) (node :: pending) state) :
    (state.visit graph.toGraphNode goal step node).expandedNodes start removed =
      state.expandedNodes start removed := by
  refine congrArg (start :: ·) (List.map_congr_left fun gone before => ?_)
  rw [SearchState.visit_node,
    SearchState.extended_old _ _ _ _ _ (earlier.removed_allocated member gone before)]

omit [EquivBEq Node] [Add Cost] [LinearOrder Cost] in
theorem SearchState.mem_expandedNodes_concat {step : StepRef} {node : Node} :
    node ∈ state.expandedNodes start (removed ++ [step]) ↔
      node ∈ state.expandedNodes start removed ∨ node = (state.steps step).node := by
  simp [expandedNodes, or_assoc]

/-- Every neighbour of an expanded node is expanded, waits, or is about to be visited, itself
and not only an equal node. -/
theorem Run.covers (member : start ∈ graph.nodes)
    (kept : ¬ PassesOver graph.toGraphNode order start goal)
    (run : Run graph.toGraphNode order start goal removed current pending state) :
    ∀ node ∈ state.expandedNodes start removed, ∀ next, graph.Edge node next →
      next ∈ state.expandedNodes start removed ∨ next ∈ pending ∨
        ∃ ref ∈ state.possibleSteps, (state.steps ref).node = next := by
  induction run with
  | enter =>
    intro node expanded next edge
    rw [List.mem_singleton.mp expanded] at edge
    exact .inr (.inl ((order.perm _ _).mem_iff.mpr edge))
  | @seed removed node pending state earlier ih =>
    have valid := earlier.reached.invariant member
    have old (ref : StepRef) (bound : ref < state.allocated) :
        ((state.seed graph.toGraphNode start goal node).steps ref).node = (state.steps ref).node := by
      rw [SearchState.seed, SearchState.insertStep_steps, SearchState.create_steps_old _ _ bound]
    have started := earlier.seeding rfl
    subst started
    intro source present next edge
    rcases ih source present next edge with done | ahead | ⟨ref, waits, own⟩
    · exact .inl done
    · rcases List.mem_cons.mp ahead with rfl | later
      · refine .inr (.inr ⟨state.allocated, (SearchState.mem_insertStep _ _).mpr (.inl rfl), ?_⟩)
        rw [SearchState.seed, SearchState.insertStep_steps, SearchState.create_steps_new]
        rfl
      · exact .inr (.inl later)
    · exact .inr (.inr ⟨ref, (SearchState.mem_insertStep _ _).mpr (.inr waits),
        (old ref (valid.waiting ref waits)).trans own⟩)
  | @remove removed current state step rest earlier first other ih =>
    intro source present next edge
    rcases SearchState.mem_expandedNodes_concat.mp present with old | own
    · rcases ih source old next edge with done | ahead | ⟨ref, waits, own⟩
      · exact .inl (SearchState.mem_expandedNodes_concat.mpr (.inl done))
      · exact absurd ahead List.not_mem_nil
      · rw [first] at waits
        rcases List.mem_cons.mp waits with newest | later
        · rw [newest] at own
          exact .inl (SearchState.mem_expandedNodes_concat.mpr (.inr own.symm))
        · exact .inr (.inr ⟨ref, later, own⟩)
    · -- The neighbours of the removed step are visited, or have been expanded themselves.
      rw [own] at edge
      by_cases eliminated : (state.eliminate step rest).eliminatedNodes.contains next = true
      · by_cases expanded : next ∈ state.expandedNodes start (removed ++ [step])
        · exact .inl expanded
        · exact absurd (.subtracted earlier first other edge eliminated expanded) kept
      · exact .inr (.inl ((SearchInvariant.mem_nextNodes graph state step order rest next).mpr
          ⟨edge, eliminated⟩))
  | @visit removed step node pending state earlier ih =>
    have valid := earlier.reached.invariant member
    have old (ref : StepRef) (bound : ref < state.allocated) :
        ((state.visit graph.toGraphNode goal step node).steps ref).node =
          (state.steps ref).node := by
      rw [SearchState.visit_node, SearchState.extended_old _ _ _ _ _ bound]
    rw [earlier.expandedNodes_visit member]
    intro source present next edge
    rcases ih source present next edge with done | ahead | ⟨ref, waits, own⟩
    · exact .inl done
    · rcases List.mem_cons.mp ahead with rfl | later
      · refine .inr (.inr ?_)
        rcases SearchState.visit_possibleSteps graph.toGraphNode goal step state next with
          ⟨_, waiting, found⟩ | ⟨_, perm⟩
        · have own : (state.steps waiting).node = next := by
            by_contra different
            exact kept (.taken earlier found different)
          exact ⟨waiting, SearchState.mem_visit_of_mem found.mem,
            (old waiting (valid.waiting waiting found.mem)).trans own⟩
        · refine ⟨state.allocated, perm.mem_iff.mpr List.mem_cons_self, ?_⟩
          rw [SearchState.visit_node, SearchState.extended_new]
          rfl
      · exact .inr (.inl later)
    · exact .inr (.inr ⟨ref, SearchState.mem_visit_of_mem waits,
        (old ref (valid.waiting ref waits)).trans own⟩)

end Runs

end AugmentedCampus
