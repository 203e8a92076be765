import AugmentedCampus.Search.Trail

/-! What every loop head of `findPath(to:)` satisfies: each step's `previous`
links form a walk from the start through eliminated nodes, and every neighbour
of an eliminated node is eliminated, waiting, or about to be visited. -/
namespace AugmentedCampus

open Foundation

universe u v

variable {Node : Type u} {Cost : Type v} [BEq Node]

namespace SearchState

variable [Add Cost] (graph : GraphNode Node Cost) (goal : Node) (step : StepRef)
  (state : SearchState Node Cost) (node : Node)

/-- The state in which `visit` searches: the new step exists but is not waiting yet. -/
def extended : SearchState Node Cost :=
  state.create (Step.extending graph state.steps node step goal)

@[simp] theorem extended_new : (state.extended graph goal step node).steps state.allocated =
    Step.extending graph state.steps node step goal := create_steps_new ..

theorem extended_old {ref : StepRef} (older : ref < state.allocated) :
    (state.extended graph goal step node).steps ref = state.steps ref :=
  create_steps_old _ _ older

@[simp] theorem extended_possibleSteps :
    (state.extended graph goal step node).possibleSteps = state.possibleSteps := rfl

variable [LinearOrder Cost]

/-- The waiting step in the slot found for the new step, if it has the same node. -/
def hit (waiting : StepRef) : Prop :=
  let created := state.extended graph goal step node
  created.possibleSteps[ArrayExtension.binarySearch created.less created.possibleSteps
    state.allocated]? = some waiting ∧ created.same waiting state.allocated = true

/-- `visit` reaches `possibleSteps[index].previous = step`. -/
def Rewires : Prop :=
  ∃ waiting, state.hit graph goal step node waiting ∧
    ((state.extended graph goal step node).steps state.allocated).stepCost <
      ((state.extended graph goal step node).steps waiting).stepCost

variable {graph goal step state node} in
theorem hit.unique {first second : StepRef} (found : state.hit graph goal step node first)
    (again : state.hit graph goal step node second) : first = second :=
  Option.some.inj (found.1.symm.trans again.1)

/-- The three things one visit can do with the new step. -/
theorem visit_cases :
    (∃ waiting, state.hit graph goal step node waiting ∧ state.Rewires graph goal step node ∧
      state.visit graph goal step node =
        (state.extended graph goal step node).reparent waiting step) ∨
    (∃ waiting, state.hit graph goal step node waiting ∧ ¬ state.Rewires graph goal step node ∧
      state.visit graph goal step node = state.extended graph goal step node) ∨
    ((∀ waiting, ¬ state.hit graph goal step node waiting) ∧ state.visit graph goal step node =
      (state.extended graph goal step node).insertStep state.allocated) := by
  unfold visit
  simp only
  split
  · rename_i waiting slot
    split
    · rename_i matching
      have found : state.hit graph goal step node waiting := ⟨slot, matching⟩
      split
      · rename_i cheaper
        exact .inl ⟨waiting, found, ⟨waiting, found, cheaper⟩, rfl⟩
      · rename_i dearer
        refine .inr (.inl ⟨waiting, found, ?_, rfl⟩)
        intro rewires
        obtain ⟨other, again, cheaper⟩ := rewires
        rw [again.unique found] at cheaper
        exact dearer cheaper
    · rename_i different
      refine .inr (.inr ⟨fun other again => different ?_, rfl⟩)
      rw [← Option.some.inj (again.1.symm.trans slot)]
      exact again.2
  · rename_i slot
    refine .inr (.inr ⟨fun other again => ?_, rfl⟩)
    cases again.1.symm.trans slot

variable {graph goal step state node}

theorem hit.mem {waiting : StepRef} (found : state.hit graph goal step node waiting) :
    waiting ∈ state.possibleSteps :=
  List.mem_of_getElem? found.1

end SearchState

/-- A trail as the search builds them: no node twice after the start, and every
node before the last already eliminated. -/
structure Explored (graph : GraphNode Node Cost) (start : Node) (state : SearchState Node Cost)
    (step : StepRef) (nodes : List Node) : Prop where
  trail : Trail graph start state.steps step nodes
  distinct : nodes.tail.Pairwise (fun first second => (first == second) = false)
  eliminated : ∀ node ∈ nodes.dropLast, state.eliminatedNodes.contains node = true

/-- The invariant of the loop heads; `current` and `pending` are those of `Reached`.
A step may wait for a node equal to a neighbour, the two being different objects. -/
structure SearchInvariant (graph : FiniteGraph Node Cost) (start : Node)
    (current : Option StepRef) (pending : List Node) (state : SearchState Node Cost) : Prop where
  waiting : ∀ ref ∈ state.possibleSteps, ref < state.allocated
  once : state.possibleSteps.Nodup
  links : ∀ ref < state.allocated, ∀ previous, (state.steps ref).previous = some previous →
    previous < state.allocated ∧ previous ∉ state.possibleSteps
  listed : ∀ ref < state.allocated, (state.steps ref).node ∈ graph.nodes
  explored : ∀ ref < state.allocated, ∃ nodes, Explored graph.toGraphNode start state ref nodes
  origin : start ∈ state.eliminatedNodes.elements
  inside : ∀ node ∈ state.eliminatedNodes.elements, node ∈ graph.nodes
  covered : ∀ node ∈ state.eliminatedNodes.elements, ∀ next, graph.Edge node next →
    state.eliminatedNodes.contains next = true ∨ next ∈ pending ∨
      ∃ ref ∈ state.possibleSteps, ((state.steps ref).node == next) = true
  seeding : current = none → ∀ node ∈ pending, graph.Edge start node
  active : ∀ step, current = some step → step < state.allocated ∧ step ∉ state.possibleSteps ∧
    state.eliminatedNodes.contains (state.steps step).node = true ∧
    ∀ node ∈ pending, graph.Edge (state.steps step).node node ∧
      ¬ state.eliminatedNodes.contains node = true

namespace SearchInvariant

variable {graph : FiniteGraph Node Cost} {start goal : Node} {current : Option StepRef}
  {pending : List Node} {state : SearchState Node Cost} {node : Node} {step : StepRef}
  {rest : List StepRef}

theorem first_allocated (valid : SearchInvariant graph start current pending state)
    (first : state.possibleSteps = step :: rest) : step < state.allocated :=
  valid.waiting step (by rw [first]; exact List.mem_cons_self ..)

/-- The nodes of a trail are those of the graph. -/
theorem trail_listed (valid : SearchInvariant graph start current pending state)
    (bound : step < state.allocated) {nodes : List Node}
    (trail : Trail graph.toGraphNode start state.steps step nodes) :
    ∀ node ∈ nodes, node ∈ graph.nodes :=
  trail.forall_mem (· < state.allocated) bound
    (fun ref older previous link => (valid.links ref older previous link).1)
    (valid.inside start valid.origin) valid.listed

/-- A visited neighbour is a node of the graph. -/
theorem ahead_listed (valid : SearchInvariant graph start (some step) (node :: pending) state) :
    node ∈ graph.nodes := by
  obtain ⟨older, _, _, ahead⟩ := valid.active step rfl
  exact graph.closed _ (valid.listed step older) node (ahead node (List.mem_cons_self ..)).1

/-- All of a removed step's trail is eliminated, its own node included. -/
theorem trail_eliminated {nodes : List Node}
    (explored : Explored graph.toGraphNode start state step nodes)
    (own : state.eliminatedNodes.contains (state.steps step).node = true) :
    ∀ node ∈ nodes, state.eliminatedNodes.contains node = true := by
  obtain ⟨front, _, same⟩ := explored.trail.exists_snoc
  have earlier := explored.eliminated
  rw [same, List.dropLast_concat] at earlier
  intro node member
  rw [same, List.mem_append, List.mem_singleton] at member
  rcases member with before | last
  · exact earlier node before
  · rwa [last]

/-- Steps that exist keep their trails when a new object is allocated. -/
theorem trail_create (valid : SearchInvariant graph start current pending state)
    (fresh : Step Node Cost) {ref : StepRef} (old : ref < state.allocated) {nodes : List Node}
    (trail : Trail graph.toGraphNode start state.steps ref nodes) :
    Trail graph.toGraphNode start (state.create fresh).steps ref nodes := by
  apply trail.congr (· < state.allocated) old
  · intro other older previous link
    exact (valid.links other older previous link).1
  · intro other older
    exact SearchState.create_steps_old _ fresh older

theorem explored_create (valid : SearchInvariant graph start current pending state)
    (fresh : Step Node Cost) {ref : StepRef} (old : ref < state.allocated) {nodes : List Node}
    (explored : Explored graph.toGraphNode start state ref nodes) :
    Explored graph.toGraphNode start (state.create fresh) ref nodes :=
  ⟨valid.trail_create fresh old explored.trail, explored.distinct, explored.eliminated⟩

/-- No other step has a waiting one on its way back, so each keeps its trail
when that one is re-parented. -/
theorem trail_reparent (valid : SearchInvariant graph start current pending state)
    {waiting : StepRef} (waits : waiting ∈ state.possibleSteps) {ref : StepRef}
    (old : ref < state.allocated) (apart : ref ≠ waiting) {nodes : List Node}
    (trail : Trail graph.toGraphNode start state.steps ref nodes) :
    Trail graph.toGraphNode start (state.reparent waiting step).steps ref nodes := by
  apply trail.congr (fun other => other < state.allocated ∧ other ≠ waiting) ⟨old, apart⟩
  · intro other kept previous link
    obtain ⟨bound, gone⟩ := valid.links other kept.1 previous link
    exact ⟨bound, fun same => gone (same ▸ waits)⟩
  · intro other kept
    exact SearchState.reparent_steps_other _ waiting _ kept.2

theorem created (valid : SearchInvariant graph start current pending state) {fresh : Step Node Cost}
    (listed : fresh.node ∈ graph.nodes)
    (linked : ∀ previous, fresh.previous = some previous →
      previous < state.allocated ∧ previous ∉ state.possibleSteps)
    (explored : ∃ nodes, Explored graph.toGraphNode start (state.create fresh) state.allocated nodes) :
    SearchInvariant graph start current pending (state.create fresh) where
  waiting := fun ref member => Nat.lt_succ_of_lt (valid.waiting ref member)
  once := valid.once
  links := by
    intro ref bound previous link
    rcases Nat.lt_succ_iff_lt_or_eq.mp bound with older | newest
    · rw [SearchState.create_steps_old _ fresh older] at link
      have kept := valid.links ref older previous link
      exact ⟨Nat.lt_succ_of_lt kept.1, kept.2⟩
    · rw [newest, SearchState.create_steps_new] at link
      have kept := linked previous link
      exact ⟨Nat.lt_succ_of_lt kept.1, kept.2⟩
  listed := by
    intro ref bound
    rcases Nat.lt_succ_iff_lt_or_eq.mp bound with older | newest
    · rw [SearchState.create_steps_old _ fresh older]
      exact valid.listed ref older
    · rw [newest, SearchState.create_steps_new]
      exact listed
  explored := by
    intro ref bound
    rcases Nat.lt_succ_iff_lt_or_eq.mp bound with older | newest
    · obtain ⟨nodes, before⟩ := valid.explored ref older
      exact ⟨nodes, valid.explored_create fresh older before⟩
    · rw [newest]
      exact explored
  origin := valid.origin
  inside := valid.inside
  covered := by
    intro node member next edge
    rcases valid.covered node member next edge with done | later | ⟨ref, waits, same⟩
    · exact .inl done
    · exact .inr (.inl later)
    · refine .inr (.inr ⟨ref, waits, ?_⟩)
      rwa [SearchState.create_steps_old _ fresh (valid.waiting ref waits)]
  seeding := valid.seeding
  active := by
    intro step chosen
    obtain ⟨older, removed, own, ahead⟩ := valid.active step chosen
    rw [SearchState.create_steps_old _ fresh older]
    exact ⟨Nat.lt_succ_of_lt older, removed, own, ahead⟩

/-- A visited neighbour leaves `pending` once a step waits for it. -/
theorem discharge (valid : SearchInvariant graph start current (node :: pending) state)
    (waits : ∃ ref ∈ state.possibleSteps, ((state.steps ref).node == node) = true) :
    SearchInvariant graph start current pending state where
  waiting := valid.waiting
  once := valid.once
  links := valid.links
  listed := valid.listed
  explored := valid.explored
  origin := valid.origin
  inside := valid.inside
  covered := by
    intro source member next edge
    rcases valid.covered source member next edge with done | later | waiting
    · exact .inl done
    · rcases List.mem_cons.mp later with same | rest
      · rw [same]
        exact .inr (.inr waits)
      · exact .inr (.inl rest)
    · exact .inr (.inr waiting)
  seeding := fun none other member => valid.seeding none other (List.mem_cons_of_mem _ member)
  active := by
    intro step chosen
    obtain ⟨older, removed, own, ahead⟩ := valid.active step chosen
    exact ⟨older, removed, own, fun other member => ahead other (List.mem_cons_of_mem _ member)⟩

theorem enter (member : start ∈ graph.nodes) (order : IterationOrder Node) :
    SearchInvariant graph start none (order.arrange none (graph.connectedNodes start))
      (.initial graph.toGraphNode start goal) where
  waiting := fun _ member => nomatch member
  once := List.nodup_nil
  links := fun _ bound => nomatch bound
  listed := fun _ bound => nomatch bound
  explored := fun _ bound => nomatch bound
  origin := List.mem_singleton.mpr rfl
  inside := by
    intro node present
    rw [List.mem_singleton.mp present]
    exact member
  covered := by
    intro node member next edge
    rw [List.mem_singleton.mp member] at edge
    exact .inr (.inl ((order.perm _ _).mem_iff.mpr edge))
  seeding := fun _ node member => (order.perm _ _).mem_iff.mp member
  active := fun _ chosen => nomatch chosen

theorem eliminate_inside (valid : SearchInvariant graph start current pending state)
    (bound : step < state.allocated) (rest : List StepRef) :
    ∀ node ∈ (state.eliminate step rest).eliminatedNodes.elements, node ∈ graph.nodes := by
  intro node present
  rcases DistinctSet.mem_insert_cases present with old | same
  · exact valid.inside node old
  · rw [same]
    exact valid.listed step bound

/-- The next nodes are the neighbours that are not eliminated. -/
theorem mem_nextNodes (graph : FiniteGraph Node Cost) (state : SearchState Node Cost)
    (step : StepRef) (order : IterationOrder Node) (rest : List StepRef) (node : Node) :
    node ∈ (state.eliminate step rest).nextNodes graph.toGraphNode order step ↔
      graph.Edge (state.steps step).node node ∧
        ¬ (state.eliminate step rest).eliminatedNodes.contains node = true :=
  (order.perm _ _).mem_iff.trans DistinctSet.mem_subtracting

section Equivalence

variable [EquivBEq Node]

/-- What an eliminated node leads to is eliminated, waits, or lies ahead of the removed step. -/
theorem covered_eliminate (order : IterationOrder Node)
    (valid : SearchInvariant graph start current [] state)
    (first : state.possibleSteps = step :: rest)
    (present : node ∈ (state.eliminate step rest).eliminatedNodes.elements) {next : Node}
    (edge : graph.Edge node next) :
    (state.eliminate step rest).eliminatedNodes.contains next = true ∨
      next ∈ (state.eliminate step rest).nextNodes graph.toGraphNode order step ∨
        ∃ ref ∈ rest, ((state.steps ref).node == next) = true := by
  by_cases done : (state.eliminate step rest).eliminatedNodes.contains next = true
  · exact .inl done
  · rcases DistinctSet.mem_insert_cases present with old | same
    · rcases valid.covered node old next edge with before | later | ⟨ref, waits, own⟩
      · exact .inl (DistinctSet.contains_insert_of_contains before)
      · exact nomatch later
      · rw [first] at waits
        rcases List.mem_cons.mp waits with chosen | remaining
        · rw [chosen] at own
          exact .inl (DistinctSet.contains_insert.mpr (.inr own))
        · exact .inr (.inr ⟨ref, remaining, own⟩)
    · rw [same] at edge
      exact .inr (.inl ((mem_nextNodes graph state step order rest next).mpr ⟨edge, done⟩))

theorem remove (order : IterationOrder Node) (valid : SearchInvariant graph start current [] state)
    (first : state.possibleSteps = step :: rest) :
    SearchInvariant graph start (some step)
      ((state.eliminate step rest).nextNodes graph.toGraphNode order step)
      (state.eliminate step rest) := by
  have bound := valid.first_allocated first
  have once := valid.once
  rw [first] at once
  obtain ⟨absent, distinct⟩ := List.nodup_cons.mp once
  have still : ∀ ref ∈ rest, ref ∈ state.possibleSteps := by
    intro ref waits
    rw [first]
    exact List.mem_cons_of_mem _ waits
  have visits := mem_nextNodes graph state step order rest
  constructor
  · exact fun ref waits => valid.waiting ref (still ref waits)
  · exact distinct
  · intro ref older previous link
    obtain ⟨before, gone⟩ := valid.links ref older previous link
    exact ⟨before, fun waits => gone (still previous waits)⟩
  · exact valid.listed
  · intro ref older
    obtain ⟨nodes, explored⟩ := valid.explored ref older
    exact ⟨nodes, explored.trail, explored.distinct,
      fun node before => DistinctSet.contains_insert_of_contains (explored.eliminated node before)⟩
  · exact DistinctSet.mem_insert_of_mem valid.origin
  · exact valid.eliminate_inside bound rest
  · exact fun node present next edge => valid.covered_eliminate order first present edge
  · exact fun none => nomatch none
  · intro other chosen
    rw [← Option.some.inj chosen]
    exact ⟨bound, absent, DistinctSet.contains_insert_self _ _,
      fun node ahead => (visits node).mp ahead⟩

/-- A step one edge further than an eliminated step, to a node not eliminated. -/
theorem extend_explored {changed : SearchState Node Cost} {ref : StepRef} {nodes : List Node}
    (explored : Explored graph.toGraphNode start changed step nodes)
    (own : changed.eliminatedNodes.contains (changed.steps step).node = true)
    (link : (changed.steps ref).previous = some step)
    (edge : graph.Adjacent (changed.steps step).node (changed.steps ref).node)
    (fresh : ¬ changed.eliminatedNodes.contains (changed.steps ref).node = true) :
    Explored graph.toGraphNode start changed ref (nodes ++ [(changed.steps ref).node]) := by
  have all := trail_eliminated explored own
  obtain ⟨rest, same⟩ := explored.trail.walk.exists_cons
  refine ⟨.next link explored.trail edge, ?_, ?_⟩
  · have distinct := explored.distinct
    rw [same, List.tail_cons] at distinct
    rw [same, List.cons_append, List.tail_cons]
    refine List.pairwise_append.mpr ⟨distinct, List.pairwise_singleton _ _, ?_⟩
    intro first early second late
    rw [List.mem_singleton.mp late]
    refine Bool.eq_false_iff.mpr fun equal => fresh ?_
    apply (DistinctSet.contains_congr equal).mp
    apply all first
    rw [same]
    exact List.mem_cons_of_mem _ early
  · rw [List.dropLast_concat]
    exact all

/-- Only a waiting step is written, and no step refers back to it. -/
theorem reparented (valid : SearchInvariant graph start (some step) pending state)
    {waiting : StepRef} (waits : waiting ∈ state.possibleSteps) (ahead : node ∈ pending)
    (same : ((state.steps waiting).node == node) = true) :
    SearchInvariant graph start (some step) pending (state.reparent waiting step) := by
  obtain ⟨older, removed, own, next⟩ := valid.active step rfl
  have keep : ∀ ref, ref < state.allocated ∧ ref ≠ waiting → ∀ nodes,
      Explored graph.toGraphNode start state ref nodes →
      Explored graph.toGraphNode start (state.reparent waiting step) ref nodes := by
    intro ref kept nodes explored
    exact ⟨valid.trail_reparent waits kept.1 kept.2 explored.trail, explored.distinct,
      explored.eliminated⟩
  have apart : step ≠ waiting := fun same => removed (same ▸ waits)
  refine ⟨valid.waiting, valid.once, ?_, ?_, ?_, valid.origin, valid.inside, ?_, ?_, ?_⟩
  · intro ref bound previous link
    by_cases same : ref = waiting
    · rw [same, SearchState.reparent_steps_same] at link
      rw [← Option.some.inj link]
      exact ⟨older, removed⟩
    · rw [SearchState.reparent_steps_other _ waiting _ same] at link
      exact valid.links ref bound previous link
  · simpa using valid.listed
  · intro ref bound
    by_cases chosen : ref = waiting
    · obtain ⟨nodes, explored⟩ := valid.explored step older
      obtain ⟨edge, fresh⟩ := next node ahead
      rw [chosen]
      refine ⟨_, extend_explored (keep step ⟨older, apart⟩ nodes explored) ?_ ?_ ?_ ?_⟩
      · simpa using own
      · simp
      · simpa using edge.adjacent same
      · simpa [DistinctSet.contains_congr same] using fresh
    · obtain ⟨nodes, explored⟩ := valid.explored ref bound
      exact ⟨nodes, keep ref ⟨bound, chosen⟩ nodes explored⟩
  · simpa using valid.covered
  · exact fun none => nomatch none
  · simpa using valid.active

end Equivalence

variable [Add Cost]

theorem extended_linked (valid : SearchInvariant graph start (some step) pending state) :
    ∀ previous, (Step.extending graph.toGraphNode state.steps node step goal).previous =
      some previous → previous < state.allocated ∧ previous ∉ state.possibleSteps := by
  intro previous link
  obtain ⟨older, removed, _, _⟩ := valid.active step rfl
  rw [← Option.some.inj link]
  exact ⟨older, removed⟩

/-- The new step of a visit, one edge beyond the removed step. -/
theorem extended_explored [EquivBEq Node]
    (valid : SearchInvariant graph start (some step) (node :: pending) state) :
    ∃ nodes, Explored graph.toGraphNode start (state.extended graph.toGraphNode goal step node)
      state.allocated nodes := by
  obtain ⟨older, removed, own, ahead⟩ := valid.active step rfl
  obtain ⟨edge, fresh⟩ := ahead node (List.mem_cons_self ..)
  obtain ⟨nodes, explored⟩ := valid.explored step older
  have before := valid.explored_create (Step.extending graph.toGraphNode state.steps node step goal)
    older explored
  refine ⟨_, extend_explored before ?_ ?_ ?_ ?_⟩
  · rwa [SearchState.extended_old _ _ _ _ _ older]
  · rw [SearchState.extended_new]
    rfl
  · rw [SearchState.extended_old _ _ _ _ _ older, SearchState.extended_new]
    exact edge.adjacent BEq.rfl
  · rw [SearchState.extended_new]
    exact fresh

variable [LinearOrder Cost]

theorem inserted (valid : SearchInvariant graph start current pending state) {ref : StepRef}
    (bound : ref < state.allocated) (absent : ref ∉ state.possibleSteps)
    (unlinked : ∀ other < state.allocated, (state.steps other).previous ≠ some ref)
    (inactive : current ≠ some ref) :
    SearchInvariant graph start current pending (state.insertStep ref) where
  waiting := by
    intro other member
    rcases (SearchState.mem_insertStep ..).mp member with same | old
    · rw [same]
      exact bound
    · exact valid.waiting other old
  once := (SearchState.insertStep_perm ..).nodup_iff.mpr (List.nodup_cons.mpr ⟨absent, valid.once⟩)
  links := by
    intro other older previous link
    obtain ⟨before, gone⟩ := valid.links other older previous link
    refine ⟨before, fun member => ?_⟩
    rcases (SearchState.mem_insertStep ..).mp member with same | old
    · exact unlinked other older (same ▸ link)
    · exact gone old
  listed := valid.listed
  explored := by
    intro other older
    obtain ⟨nodes, explored⟩ := valid.explored other older
    exact ⟨nodes, explored.trail, explored.distinct, explored.eliminated⟩
  origin := valid.origin
  inside := valid.inside
  covered := by
    intro node member next edge
    rcases valid.covered node member next edge with done | later | ⟨other, waits, same⟩
    · exact .inl done
    · exact .inr (.inl later)
    · exact .inr (.inr ⟨other, (SearchState.mem_insertStep ..).mpr (.inr waits), same⟩)
  seeding := valid.seeding
  active := by
    intro step chosen
    obtain ⟨older, removed, own, ahead⟩ := valid.active step chosen
    refine ⟨older, fun member => ?_, own, ahead⟩
    rcases (SearchState.mem_insertStep ..).mp member with same | old
    · exact inactive (same ▸ chosen)
    · exact removed old

/-- Allocate a step for the visited neighbour and let it wait. -/
theorem appended (valid : SearchInvariant graph start current (node :: pending) state)
    {fresh : Step Node Cost} (own : (fresh.node == node) = true) (listed : fresh.node ∈ graph.nodes)
    (linked : ∀ previous, fresh.previous = some previous →
      previous < state.allocated ∧ previous ∉ state.possibleSteps)
    (explored : ∃ nodes, Explored graph.toGraphNode start (state.create fresh) state.allocated nodes) :
    SearchInvariant graph start current pending ((state.create fresh).insertStep state.allocated) := by
  have grown := valid.created listed linked explored
  have waits := grown.inserted (Nat.lt_succ_self state.allocated)
    (fun member => Nat.lt_irrefl _ (valid.waiting _ member)) ?_ ?_
  · exact waits.discharge ⟨state.allocated, by simp, by simp [own]⟩
  · intro other bound link
    rcases Nat.lt_succ_iff_lt_or_eq.mp bound with older | newest
    · rw [SearchState.create_steps_old _ fresh older] at link
      exact Nat.lt_irrefl _ (valid.links other older _ link).1
    · rw [newest, SearchState.create_steps_new] at link
      exact Nat.lt_irrefl _ (linked _ link).1
  · intro chosen
    exact Nat.lt_irrefl _ (valid.active _ chosen).1

variable [EquivBEq Node]

theorem seed (valid : SearchInvariant graph start none (node :: pending) state) :
    SearchInvariant graph start none pending (state.seed graph.toGraphNode start goal node) := by
  have edge := valid.seeding rfl node (List.mem_cons_self ..)
  have listed := graph.closed _ (valid.inside start valid.origin) node edge
  refine valid.appended BEq.rfl listed (fun _ link => nomatch link) ⟨[start, node], ?_, ?_, ?_⟩
  · have root : Trail graph.toGraphNode start
        (state.create (Step.direct graph.toGraphNode start node goal)).steps state.allocated
        [start, ((state.create (Step.direct graph.toGraphNode start node goal)).steps
          state.allocated).node] := by
      apply Trail.first
      · simp [Step.direct]
      · simpa [Step.direct] using edge.adjacent BEq.rfl
    simpa [Step.direct] using root
  · simp
  · intro other member
    rw [show [start, node].dropLast = [start] from rfl, List.mem_singleton] at member
    rw [member]
    exact DistinctSet.contains_of_mem valid.origin

omit [EquivBEq Node] in
/-- Equality of steps is equality of their nodes. -/
theorem hit_node (valid : SearchInvariant graph start current pending state) {waiting : StepRef}
    (found : state.hit graph.toGraphNode goal step node waiting) :
    ((state.steps waiting).node == node) = true := by
  have older := valid.waiting waiting found.mem
  have matching := found.2
  unfold SearchState.same at matching
  rw [SearchState.extended_old _ _ _ _ _ older, SearchState.extended_new] at matching
  exact matching

theorem visit (valid : SearchInvariant graph start (some step) (node :: pending) state) :
    SearchInvariant graph start (some step) pending
      (state.visit graph.toGraphNode goal step node) := by
  have created : SearchInvariant graph start (some step) (node :: pending)
      (state.extended graph.toGraphNode goal step node) :=
    valid.created valid.ahead_listed valid.extended_linked valid.extended_explored
  rcases SearchState.visit_cases graph.toGraphNode goal step state node with
    ⟨waiting, found, _, same⟩ | ⟨waiting, found, _, same⟩ | ⟨_, same⟩
  · have older := valid.waiting waiting found.mem
    have own : (((state.extended graph.toGraphNode goal step node).steps waiting).node == node) =
        true := by
      rw [SearchState.extended_old _ _ _ _ _ older]
      exact valid.hit_node found
    rw [same]
    refine (created.reparented found.mem (List.mem_cons_self ..) own).discharge
      ⟨waiting, found.mem, ?_⟩
    rwa [SearchState.reparent_steps_node]
  · have older := valid.waiting waiting found.mem
    rw [same]
    refine created.discharge ⟨waiting, found.mem, ?_⟩
    rw [SearchState.extended_old _ _ _ _ _ older]
    exact valid.hit_node found
  · rw [same]
    exact valid.appended BEq.rfl valid.ahead_listed valid.extended_linked valid.extended_explored

end SearchInvariant

variable [EquivBEq Node] [Add Cost] [LinearOrder Cost] {graph : FiniteGraph Node Cost}
  {order : IterationOrder Node} {start goal : Node} {current : Option StepRef}
  {pending : List Node} {state : SearchState Node Cost}

theorem Reached.invariant (member : start ∈ graph.nodes)
    (reached : Reached graph.toGraphNode order start goal current pending state) :
    SearchInvariant graph start current pending state := by
  induction reached with
  | enter => exact .enter member order
  | seed earlier ih => exact ih.seed
  | remove earlier first other ih => exact ih.remove order first
  | visit earlier ih => exact ih.visit

end AugmentedCampus
