import AugmentedCampus.Search.SearchInvariant

/-! The loop heads of a search, computed one after the other, so that what holds at all of
them can be decided where the search ends. -/
namespace AugmentedCampus

universe u v

variable {Node : Type u} {Cost : Type v} [BEq Node]

/-- The arguments of `Reached`. -/
structure LoopHead (Node : Type u) (Cost : Type v) [BEq Node] where
  current : Option StepRef
  pending : List Node
  state : SearchState Node Cost

namespace LoopHead

/-- What is to be visited next satisfies the property. -/
def Visits (property : StepRef → Node → SearchState Node Cost → Prop) :
    LoopHead Node Cost → Prop
  | ⟨some step, node :: _, state⟩ => property step node state
  | _ => True

instance (property : StepRef → Node → SearchState Node Cost → Prop)
    [∀ step node state, Decidable (property step node state)] :
    DecidablePred (Visits property)
  | ⟨some _, _ :: _, _⟩ => inferInstanceAs (Decidable (property _ _ _))
  | ⟨some _, [], _⟩ => inferInstanceAs (Decidable True)
  | ⟨none, _, _⟩ => inferInstanceAs (Decidable True)

variable [Add Cost] [LinearOrder Cost] (graph : GraphNode Node Cost) (order : IterationOrder Node)
  (start goal : Node)

def first : LoopHead Node Cost :=
  ⟨none, order.arrange none (graph.connectedNodes start), .initial graph start goal⟩

/-- The head after one round of the inner or the outer loop; none when the search is over. -/
def next : LoopHead Node Cost → Option (LoopHead Node Cost)
  | ⟨none, node :: pending, state⟩ => some ⟨none, pending, state.seed graph start goal node⟩
  | ⟨some step, node :: pending, state⟩ =>
    some ⟨some step, pending, state.visit graph goal step node⟩
  | ⟨_, [], state⟩ =>
    match state.possibleSteps with
    | [] => none
    | step :: rest =>
      if (state.steps step).node == goal then none
      else
        some ⟨some step, (state.eliminate step rest).nextNodes graph order step,
          state.eliminate step rest⟩

/-- At most `fuel` heads from the given one on. -/
def heads : Nat → LoopHead Node Cost → List (LoopHead Node Cost)
  | 0, _ => []
  | fuel + 1, head => head :: (head.next graph order start goal).elim [] (heads fuel)

variable {graph order start goal} {fuel : Nat} {head later : LoopHead Node Cost}

theorem next_mem (ended : (heads graph order start goal fuel head).length < fuel)
    (member : later ∈ heads graph order start goal fuel head) {after : LoopHead Node Cost}
    (follows : later.next graph order start goal = some after) :
    after ∈ heads graph order start goal fuel head := by
  induction fuel generalizing head with
  | zero => cases member
  | succ fuel ih =>
    rw [heads, List.length_cons] at ended
    rcases List.mem_cons.mp member with rfl | further
    · rw [follows] at ended
      cases fuel with
      | zero => simp at ended
      | succ fuel => simp [heads, follows]
    · refine List.mem_cons_of_mem _ ?_
      cases second : head.next graph order start goal with
      | none => simp [second] at further
      | some other =>
        rw [second] at ended further
        exact ih (Nat.lt_of_succ_lt_succ ended) further

/-- When the search has ended, its heads are all there are. -/
theorem mem_heads {current : Option StepRef} {pending : List Node} {state : SearchState Node Cost}
    (ended : (heads graph order start goal fuel (first graph order start goal)).length < fuel)
    (reached : Reached graph order start goal current pending state) :
    ⟨current, pending, state⟩ ∈ heads graph order start goal fuel (first graph order start goal) := by
  induction reached with
  | enter =>
    cases fuel with
    | zero => simp at ended
    | succ fuel => exact List.mem_cons_self
  | seed earlier ih => exact next_mem ended ih rfl
  | remove earlier waiting other ih =>
    refine next_mem ended ih ?_
    simp [next, waiting, other]
  | visit earlier ih => exact next_mem ended ih rfl

/-- A property of the visits is decided by going through the heads. -/
theorem of_heads {property : StepRef → Node → SearchState Node Cost → Prop}
    (ended : (heads graph order start goal fuel (first graph order start goal)).length < fuel)
    (all : ∀ head ∈ heads graph order start goal fuel (first graph order start goal),
      head.Visits property) :
    ∀ step node pending state, Reached graph order start goal (some step) (node :: pending) state →
      property step node state :=
  fun _ _ _ _ reached => all _ (mem_heads ended reached)

end LoopHead

namespace SearchState

variable [Add Cost] [LinearOrder Cost] (graph : GraphNode Node Cost) (goal : Node) (step : StepRef)
  (state : SearchState Node Cost) (node : Node)

instance (waiting : StepRef) : Decidable (state.hit graph goal step node waiting) :=
  inferInstanceAs (Decidable (_ ∧ _))

instance : Decidable (state.Rewires graph goal step node) :=
  decidable_of_iff (∃ waiting ∈ state.possibleSteps, state.hit graph goal step node waiting ∧
    ((state.extended graph goal step node).steps state.allocated).stepCost <
      ((state.extended graph goal step node).steps waiting).stepCost)
    ⟨fun ⟨waiting, _, found⟩ => ⟨waiting, found⟩, fun ⟨waiting, found⟩ => ⟨waiting, found.1.mem, found⟩⟩

end SearchState

end AugmentedCampus
