import AugmentedCampus.Search.GraphNode

/-! The chain of `previous` links of a step. A step with a trail back to the
start is never met again on the way, and the inner `while` loop rebuilds it. -/
namespace AugmentedCampus

open Foundation

universe u v

variable {Node : Type u} {Cost : Type v} [BEq Node]

/-- The nodes met from the start to a step along its `previous` links, read
forwards: `[start, ..., step.node]`. -/
inductive Trail (graph : GraphNode Node Cost) (start : Node) (steps : StepRef → Step Node Cost) :
    StepRef → List Node → Prop where
  | first {step : StepRef} (root : (steps step).previous = none)
      (edge : graph.Adjacent start (steps step).node) :
      Trail graph start steps step [start, (steps step).node]
  | next {step previous : StepRef} {nodes : List Node}
      (link : (steps step).previous = some previous)
      (earlier : Trail graph start steps previous nodes)
      (edge : graph.Adjacent (steps previous).node (steps step).node) :
      Trail graph start steps step (nodes ++ [(steps step).node])

section Trails

variable {graph : GraphNode Node Cost} {start : Node} {steps changed : StepRef → Step Node Cost}
  {step : StepRef} {nodes : List Node}

theorem Trail.walk (trail : Trail graph start steps step nodes) :
    IsWalk graph.Adjacent start (steps step).node nodes := by
  induction trail with
  | first root edge => exact .move edge .stay
  | next link earlier edge ih => exact ih.snoc edge

theorem Trail.exists_snoc (trail : Trail graph start steps step nodes) :
    ∃ front, front ≠ [] ∧ nodes = front ++ [(steps step).node] := by
  cases trail with
  | first root edge => exact ⟨[start], by simp, rfl⟩
  | @next step previous nodes link earlier edge =>
    obtain ⟨rest, same⟩ := earlier.walk.exists_cons
    exact ⟨nodes, by simp [same], rfl⟩

theorem Trail.unique {others : List Node} (trail : Trail graph start steps step nodes)
    (again : Trail graph start steps step others) : nodes = others := by
  induction trail generalizing others with
  | first root edge =>
    cases again with
    | first root edge => rfl
    | next link earlier edge => cases root.symm.trans link
  | next link earlier edge ih =>
    cases again with
    | first root edge => cases root.symm.trans link
    | next other before edge =>
      cases link.symm.trans other
      rw [ih before]

/-- A trail survives writes outside a set of steps closed under `previous`. -/
theorem Trail.congr (trail : Trail graph start steps step nodes) (kept : StepRef → Prop)
    (member : kept step)
    (closed : ∀ ref, kept ref → ∀ previous, (steps ref).previous = some previous → kept previous)
    (agree : ∀ ref, kept ref → changed ref = steps ref) :
    Trail graph start changed step nodes := by
  induction trail with
  | @first step root edge =>
    have same := agree step member
    rw [← same] at root edge ⊢
    exact .first root edge
  | @next step previous nodes link earlier edge ih =>
    have back := closed step member previous link
    have same := agree step member
    have before := agree previous back
    rw [← same] at link edge ⊢
    rw [← before] at edge
    exact .next link (ih back) edge

/-- What holds of the start and of every step on the way back holds along the trail. -/
theorem Trail.forall_mem (trail : Trail graph start steps step nodes) {holds : Node → Prop}
    (kept : StepRef → Prop) (member : kept step)
    (closed : ∀ ref, kept ref → ∀ previous, (steps ref).previous = some previous → kept previous)
    (origin : holds start) (all : ∀ ref, kept ref → holds (steps ref).node) :
    ∀ node ∈ nodes, holds node := by
  induction trail with
  | @first step root edge =>
    intro node present
    rcases List.mem_cons.mp present with same | last
    · rw [same]
      exact origin
    · rw [List.mem_singleton.mp last]
      exact all step member
  | @next step previous nodes link earlier edge ih =>
    intro node present
    rcases List.mem_append.mp present with before | last
    · exact ih (closed step member previous link) node before
    · rw [List.mem_singleton.mp last]
      exact all step member

/-- The inner `while` loop rebuilds the trail in front of what it has inserted. -/
theorem Trail.unwind (trail : Trail graph start steps step nodes) (suffix : List Node) {fuel : Nat}
    (enough : nodes.length ≤ fuel) :
    unwind steps fuel step (start :: (steps step).node :: suffix) = some (nodes ++ suffix) := by
  induction trail generalizing fuel suffix with
  | first root edge =>
    obtain ⟨extra, rfl⟩ : ∃ extra, fuel = extra + 1 := ⟨fuel - 1, by simp at enough; omega⟩
    simp [AugmentedCampus.unwind, root]
  | @next step previous nodes link earlier edge ih =>
    rw [List.length_append, List.length_singleton] at enough
    obtain ⟨extra, rfl⟩ : ∃ extra, fuel = extra + 1 := ⟨fuel - 1, by omega⟩
    have inner := ih ((steps step).node :: suffix) (Nat.le_of_succ_le_succ enough)
    simpa [AugmentedCampus.unwind, link] using inner

def Precedes (steps : StepRef → Step Node Cost) (step previous : StepRef) : Prop :=
  (steps step).previous = some previous

/-- A step with a trail is not met again on the way back along `previous`. -/
theorem Trail.acyclic (trail : Trail graph start steps step nodes) :
    ¬ Relation.TransGen (Precedes steps) step step := by
  have grounded : Acc (fun previous step => Precedes steps step previous) step := by
    induction trail with
    | @first step root edge =>
      refine Acc.intro step fun previous link => ?_
      rw [Precedes, root] at link
      cases link
    | @next step previous nodes link earlier edge ih =>
      refine Acc.intro step fun other linked => ?_
      rw [Precedes, link] at linked
      rwa [← Option.some.inj linked]
  intro cycle
  have backwards : Relation.TransGen (fun previous step => Precedes steps step previous) step step :=
    Relation.transGen_swap.mpr cycle
  have closed := grounded.transGen
  clear cycle trail grounded
  induction closed with
  | intro step _ ih => exact ih step backwards backwards

end Trails

end AugmentedCampus
