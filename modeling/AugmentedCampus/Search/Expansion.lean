import AugmentedCampus.Search.Removals

/-! How often a node is expanded. Removed steps are not looked up in
`eliminatedNodes`, so it comes down to whether two steps for one node wait at
the same time, and the search for a waiting step goes by cost. The start is
expanded first, and no step for it was removed. -/
namespace AugmentedCampus

open Foundation

universe u v

variable {Node : Type u} {Cost : Type v} [BEq Node] [Add Cost] [LinearOrder Cost]

/-- The visit inserts a step although one for an equal node waits. -/
def SearchState.Duplicates (graph : GraphNode Node Cost) (goal : Node) (step : StepRef)
    (state : SearchState Node Cost) (node : Node) : Prop :=
  (∃ ref ∈ state.possibleSteps, ((state.steps ref).node == node) = true) ∧
    ∀ waiting, ¬ state.hit graph goal step node waiting

instance (graph : GraphNode Node Cost) (goal : Node) (step : StepRef)
    (state : SearchState Node Cost) (node : Node) :
    Decidable (state.Duplicates graph goal step node) :=
  decidable_of_iff ((∃ ref ∈ state.possibleSteps, ((state.steps ref).node == node) = true) ∧
    ∀ waiting ∈ state.possibleSteps, ¬ state.hit graph goal step node waiting)
    (and_congr_right fun _ => ⟨fun missed waiting found => missed waiting found.mem found,
      fun missed waiting _ => missed waiting⟩)

/-- No visit of the run inserts a second step for a node, and the first loop none for the
start itself. -/
structure Unduplicated (graph : GraphNode Node Cost) (order : IterationOrder Node)
    (start goal : Node) : Prop where
  loopless : ¬ graph.Adjacent start start
  visits : ∀ step node pending state,
    Reached graph order start goal (some step) (node :: pending) state →
      ¬ state.Duplicates graph goal step node

/-- The nodes whose neighbours have been generated: the start by the first loop, the
others for removed steps. -/
def SearchState.expandedNodes (start : Node) (removed : List StepRef)
    (state : SearchState Node Cost) : List Node :=
  start :: removed.map fun ref => (state.steps ref).node

/-- No two nodes whose neighbours have been generated are equal. -/
def ExpandedOnce (graph : GraphNode Node Cost) (order : IterationOrder Node) (start goal : Node) :
    Prop :=
  ∀ removed current pending state, Run graph order start goal removed current pending state →
    (state.expandedNodes start removed).Pairwise fun first second => (first == second) = false

/-- The steps that wait or are removed, one for each node. -/
structure Sole (removed : List StepRef) (current : Option StepRef) (pending : List Node)
    (state : SearchState Node Cost) : Prop where
  waiting : state.possibleSteps.Pairwise (fun first second => state.same first second = false)
  gone : removed.Pairwise (fun first second => state.same first second = false)
  apart : ∀ gone ∈ removed, ∀ ref ∈ state.possibleSteps, state.same gone ref = false
  eliminated : ∀ gone ∈ removed, state.eliminatedNodes.contains (state.steps gone).node = true
  fresh : current = none → pending.Pairwise (fun first second => (first == second) = false) ∧
    ∀ node ∈ pending, ∀ ref ∈ state.possibleSteps, ((state.steps ref).node == node) = false

omit [Add Cost] [LinearOrder Cost] in
/-- Steps are compared by their nodes. -/
theorem SearchState.same_congr {state changed : SearchState Node Cost} {first second : StepRef}
    (one : (changed.steps first).node = (state.steps first).node)
    (other : (changed.steps second).node = (state.steps second).node) :
    changed.same first second = state.same first second := by
  unfold SearchState.same
  rw [one, other]

theorem beq_false_comm [PartialEquivBEq Node] {first second : Node}
    (apart : (first == second) = false) : (second == first) = false := by
  rwa [BEq.comm]

section Steps

variable [EquivBEq Node] {graph : FiniteGraph Node Cost} {order : IterationOrder Node}
  {start goal : Node} {removed : List StepRef} {current : Option StepRef} {pending : List Node}
  {state changed : SearchState Node Cost} {step : StepRef} {rest : List StepRef} {node : Node}

omit [Add Cost] [LinearOrder Cost] in
/-- A new waiting step for a node that no waiting step has. -/
theorem Sole.waiting_insert (sole : Sole removed current pending state)
    (valid : SearchInvariant graph start current pending state)
    (perm : changed.possibleSteps.Perm (state.allocated :: state.possibleSteps))
    (nodes : ∀ ref < state.allocated, (changed.steps ref).node = (state.steps ref).node)
    (own : (changed.steps state.allocated).node = node)
    (new : ∀ ref ∈ state.possibleSteps, ((state.steps ref).node == node) = false) :
    changed.possibleSteps.Pairwise (fun first second => changed.same first second = false) := by
  refine (perm.pairwise_iff fun apart => beq_false_comm apart).mpr
    (List.pairwise_cons.mpr ⟨fun ref waits => ?_, ?_⟩)
  · have unlike := new ref waits
    rw [← own, ← nodes ref (valid.waiting ref waits)] at unlike
    exact beq_false_comm unlike
  · refine sole.waiting.imp_of_mem fun {first second} one two apart => ?_
    exact (SearchState.same_congr (nodes first (valid.waiting first one))
      (nodes second (valid.waiting second two))).trans apart

theorem Sole.seed (sole : Sole removed none (node :: pending) state)
    (valid : SearchInvariant graph start none (node :: pending) state) (empty : removed = []) :
    Sole removed none pending (state.seed graph.toGraphNode start goal node) := by
  subst empty
  obtain ⟨others, waiting⟩ := sole.fresh rfl
  obtain ⟨unlike, later⟩ := List.pairwise_cons.mp others
  have nodes : ∀ ref < state.allocated,
      ((state.seed graph.toGraphNode start goal node).steps ref).node = (state.steps ref).node := by
    intro ref older
    simp only [SearchState.seed, SearchState.insertStep_steps]
    rw [SearchState.create_steps_old _ _ older]
  have own : ((state.seed graph.toGraphNode start goal node).steps state.allocated).node = node := by
    simp [SearchState.seed, Step.direct]
  have perm : (state.seed graph.toGraphNode start goal node).possibleSteps.Perm
      (state.allocated :: state.possibleSteps) := SearchState.insertStep_perm _ _
  refine ⟨sole.waiting_insert valid perm nodes own (waiting node List.mem_cons_self),
    List.Pairwise.nil, fun _ gone => absurd gone List.not_mem_nil,
    fun _ gone => absurd gone List.not_mem_nil, fun _ => ⟨later, ?_⟩⟩
  intro other ahead ref waits
  rcases List.mem_cons.mp (perm.mem_iff.mp waits) with newest | old
  · rw [newest, own]
    exact unlike other ahead
  · rw [nodes ref (valid.waiting ref old)]
    exact waiting other (List.mem_cons_of_mem _ ahead) ref old

omit [Add Cost] [LinearOrder Cost] in
theorem Sole.remove (sole : Sole removed current [] state)
    (first : state.possibleSteps = step :: rest) (ahead : List Node) :
    Sole (removed ++ [step]) (some step) ahead (state.eliminate step rest) := by
  have waiting := sole.waiting
  have apart := sole.apart
  rw [first] at waiting apart
  obtain ⟨others, later⟩ := List.pairwise_cons.mp waiting
  refine ⟨later, ?_, fun gone before ref waits => ?_, fun gone before => ?_, fun none => (nomatch none)⟩
  · refine List.pairwise_append.mpr ⟨sole.gone, List.pairwise_singleton _ _, ?_⟩
    intro gone before other last
    rw [List.mem_singleton.mp last]
    exact apart gone before step List.mem_cons_self
  · rcases List.mem_append.mp before with old | last
    · exact apart gone old ref (List.mem_cons_of_mem _ waits)
    · rw [List.mem_singleton.mp last]
      exact others ref waits
  · rcases List.mem_append.mp before with old | last
    · exact DistinctSet.contains_insert_of_contains (sole.eliminated gone old)
    · rw [List.mem_singleton.mp last]
      exact DistinctSet.contains_insert_self _ _

theorem Sole.visit (sole : Sole removed (some step) (node :: pending) state)
    (valid : SearchInvariant graph start (some step) (node :: pending) state)
    (before : ∀ gone ∈ removed, gone < state.allocated)
    (kept : ¬ state.Duplicates graph.toGraphNode goal step node) :
    Sole removed (some step) pending (state.visit graph.toGraphNode goal step node) := by
  obtain ⟨_, _, _, ahead⟩ := valid.active step rfl
  have open_node := (ahead node List.mem_cons_self).2
  have nodes : ∀ ref < state.allocated,
      ((state.visit graph.toGraphNode goal step node).steps ref).node = (state.steps ref).node := by
    intro ref older
    rw [SearchState.visit_node, SearchState.extended_old _ _ _ _ _ older]
  have own : ((state.visit graph.toGraphNode goal step node).steps state.allocated).node = node := by
    rw [SearchState.visit_node, SearchState.extended_new]
    rfl
  refine ⟨?_, ?_, fun gone earlier ref waits => ?_, fun gone earlier => ?_, fun none => (nomatch none)⟩
  · rcases SearchState.visit_possibleSteps graph.toGraphNode goal step state node with ⟨same, _⟩ | ⟨missed, perm⟩
    · rw [same]
      refine sole.waiting.imp_of_mem fun {first second} one two apart => ?_
      exact (SearchState.same_congr (nodes first (valid.waiting first one))
        (nodes second (valid.waiting second two))).trans apart
    · refine sole.waiting_insert valid perm nodes own fun ref waits => ?_
      exact Bool.eq_false_iff.mpr fun equal => kept ⟨⟨ref, waits, equal⟩, missed⟩
  · refine sole.gone.imp_of_mem fun {first second} one two apart => ?_
    exact (SearchState.same_congr (nodes first (before first one))
      (nodes second (before second two))).trans apart
  · rcases SearchState.mem_visit waits with newest | old
    · -- The visited neighbour is not eliminated, and what was removed is.
      rw [newest, SearchState.same, own, nodes gone (before gone earlier)]
      refine Bool.eq_false_iff.mpr fun equal => open_node ?_
      exact (DistinctSet.contains_congr equal).mp (sole.eliminated gone earlier)
    · exact (SearchState.same_congr (nodes gone (before gone earlier))
        (nodes ref (valid.waiting ref old))).trans (sole.apart gone earlier ref old)
  · rw [SearchInvariant.eliminatedNodes_visit, nodes gone (before gone earlier)]
    exact sole.eliminated gone earlier

/-- The run lemma: without duplicates each node has one step. -/
theorem Run.sole (member : start ∈ graph.nodes)
    (kept : ∀ step node pending state,
      Reached graph.toGraphNode order start goal (some step) (node :: pending) state →
        ¬ state.Duplicates graph.toGraphNode goal step node)
    (run : Run graph.toGraphNode order start goal removed current pending state) :
    Sole removed current pending state := by
  induction run with
  | enter =>
    refine ⟨List.Pairwise.nil, List.Pairwise.nil, fun _ gone => (nomatch gone),
      fun _ gone => (nomatch gone), fun _ => ⟨?_, fun _ _ _ waits => (nomatch waits)⟩⟩
    exact ((order.perm _ _).pairwise_iff fun apart => beq_false_comm apart).mpr
      (graph.connectedNodes start).distinct
  | seed earlier ih => exact ih.seed (earlier.reached.invariant member) (earlier.seeding rfl)
  | remove earlier first other ih => exact ih.remove first _
  | visit earlier ih =>
    exact ih.visit (earlier.reached.invariant member) (earlier.removed_allocated member)
      (kept _ _ _ _ earlier.reached)

/-- A step for the start is created by the first loop or never. -/
theorem Reached.away (member : start ∈ graph.nodes) (alone : ¬ graph.Adjacent start start)
    (reached : Reached graph.toGraphNode order start goal current pending state) :
    ∀ ref < state.allocated, (start == (state.steps ref).node) = false := by
  induction reached with
  | enter => exact fun ref bound => absurd bound (Nat.not_lt_zero ref)
  | @seed node pending state earlier ih =>
    intro ref bound
    rcases Nat.lt_succ_iff_lt_or_eq.mp bound with older | newest
    · rw [SearchState.seed, SearchState.insertStep_steps, SearchState.create_steps_old _ _ older]
      exact ih ref older
    · have edge := (earlier.invariant member).seeding rfl node List.mem_cons_self
      rw [newest, SearchState.seed, SearchState.insertStep_steps, SearchState.create_steps_new]
      exact Bool.eq_false_iff.mpr fun same => alone (edge.adjacent same)
  | remove earlier first other ih => exact ih
  | @visit step node pending state earlier ih =>
    intro ref bound
    rw [SearchState.visit_allocated] at bound
    rw [SearchState.visit_node]
    rcases Nat.lt_succ_iff_lt_or_eq.mp bound with older | newest
    · rw [SearchState.extended_old _ _ _ _ _ older]
      exact ih ref older
    · have valid := earlier.invariant member
      obtain ⟨_, _, _, ahead⟩ := valid.active step rfl
      rw [newest, SearchState.extended_new]
      refine Bool.eq_false_iff.mpr fun same => (ahead node List.mem_cons_self).2 ?_
      exact (DistinctSet.contains_congr same).mp (DistinctSet.contains_of_mem valid.origin)

end Steps

section Exhaustion

variable {graph : FiniteGraph Node Cost} {order : IterationOrder Node} {start goal : Node}
  {removed all : List StepRef} {current : Option StepRef} {pending : List Node}
  {state next final : SearchState Node Cost} {step : StepRef} {rest : List StepRef}

/-- A later loop head: what waited has been removed or still waits, for the same node. -/
structure Continues (removed : List StepRef) (state : SearchState Node Cost) (all : List StepRef)
    (final : SearchState Node Cost) : Prop where
  kept : ∀ ref, ref ∈ removed ∨ ref ∈ state.possibleSteps → ref ∈ all ∨ ref ∈ final.possibleSteps
  nodes : ∀ ref < state.allocated,
    ref < final.allocated ∧ (final.steps ref).node = (state.steps ref).node

omit [Add Cost] [LinearOrder Cost] in
theorem Continues.trans {more : List StepRef} (first : Continues removed state all next)
    (second : Continues all next more final) : Continues removed state more final where
  kept ref present := second.kept ref (first.kept ref present)
  nodes ref bound := by
    obtain ⟨between, same⟩ := first.nodes ref bound
    obtain ⟨last, equal⟩ := second.nodes ref between
    exact ⟨last, equal.trans same⟩

theorem Continues.visits (graph : GraphNode Node Cost) (goal : Node) (removed : List StepRef)
    (step : StepRef) (pending : List Node) (state : SearchState Node Cost) :
    Continues removed state removed (pending.foldl (SearchState.visit graph goal step) state) := by
  induction pending generalizing state with
  | nil => exact ⟨fun _ present => present, fun _ bound => ⟨bound, rfl⟩⟩
  | cons node rest ih =>
    refine Continues.trans ⟨fun ref present => ?_, fun ref bound => ⟨?_, ?_⟩⟩ (ih _)
    · exact present.imp_right SearchState.mem_visit_of_mem
    · rw [SearchState.visit_allocated]
      exact Nat.lt_succ_of_lt bound
    · rw [SearchState.visit_node, SearchState.extended_old _ _ _ _ _ bound]

theorem Continues.seeds (graph : GraphNode Node Cost) (start goal : Node) (removed : List StepRef)
    (pending : List Node) (state : SearchState Node Cost) :
    Continues removed state removed (pending.foldl (SearchState.seed graph start goal) state) := by
  induction pending generalizing state with
  | nil => exact ⟨fun _ present => present, fun _ bound => ⟨bound, rfl⟩⟩
  | cons node rest ih =>
    refine Continues.trans ⟨fun ref present => ?_, fun ref bound => ⟨?_, ?_⟩⟩ (ih _)
    · exact present.imp_right fun waits => (SearchState.mem_insertStep _ _).mpr (.inr waits)
    · exact Nat.lt_succ_of_lt bound
    · rw [SearchState.seed, SearchState.insertStep_steps, SearchState.create_steps_old _ _ bound]

/-- The first loop leaves a step for each neighbour. -/
theorem SearchState.seeds_wait (graph : GraphNode Node Cost) (start goal : Node)
    (pending : List Node) (state : SearchState Node Cost) :
    ∀ node ∈ pending, ∃ ref < (pending.foldl (seed graph start goal) state).allocated,
      ref ∈ (pending.foldl (seed graph start goal) state).possibleSteps ∧
        ((pending.foldl (seed graph start goal) state).steps ref).node = node := by
  induction pending generalizing state with
  | nil => exact fun _ listed => absurd listed List.not_mem_nil
  | cons first rest ih =>
    intro node listed
    rcases List.mem_cons.mp listed with rfl | later
    · have continues := Continues.seeds graph start goal [] rest (state.seed graph start goal node)
      have bound : state.allocated < (state.seed graph start goal node).allocated :=
        Nat.lt_succ_self _
      have waits : state.allocated ∈ (state.seed graph start goal node).possibleSteps :=
        (mem_insertStep _ _).mpr (.inl rfl)
      refine ⟨state.allocated, (continues.nodes _ bound).1,
        (continues.kept _ (.inr waits)).resolve_left List.not_mem_nil, ?_⟩
      rw [List.foldl_cons, (continues.nodes _ bound).2, seed, insertStep_steps, create_steps_new]
      rfl
    · exact ih _ node later

theorem Run.seeded {graph : GraphNode Node Cost}
    (run : Run graph order start goal removed none pending state) :
    Run graph order start goal removed none []
      (pending.foldl (SearchState.seed graph start goal) state) := by
  induction pending generalizing state with
  | nil => exact run
  | cons node rest ih => exact ih run.seed

theorem Run.visited {graph : GraphNode Node Cost}
    (run : Run graph order start goal removed (some step) pending state) :
    Run graph order start goal removed (some step) []
      (pending.foldl (SearchState.visit graph goal step) state) := by
  induction pending generalizing state with
  | nil => exact run
  | cons node rest ih => exact ih run.visit

/-- A search that never removes the goal goes on until everything is removed. -/
theorem Run.exhausts [EquivBEq Node] (member : start ∈ graph.nodes)
    (never : ∀ current state step rest,
      Reached graph.toGraphNode order start goal current [] state →
        state.possibleSteps = step :: rest → ¬ ((state.steps step).node == goal) = true)
    {removed : List StepRef} {current : Option StepRef} {state : SearchState Node Cost}
    (run : Run graph.toGraphNode order start goal removed current [] state) :
    ∃ all last final, Run graph.toGraphNode order start goal all last [] final ∧
      final.possibleSteps = [] ∧ Continues removed state all final := by
  cases waiting : state.possibleSteps with
  | nil =>
    exact ⟨removed, current, state, run, waiting, fun _ present => present, fun _ bound => ⟨bound, rfl⟩⟩
  | cons step rest =>
    have other := never current state step rest run.reached waiting
    obtain ⟨all, last, final, finished, empty, continues⟩ :=
      (run.remove waiting other).visited.exhausts member never
    refine ⟨all, last, final, finished, empty, Continues.trans ?_
      ((Continues.visits graph.toGraphNode goal (removed ++ [step]) step _ _).trans continues)⟩
    refine ⟨fun ref present => ?_, fun ref bound => ⟨bound, rfl⟩⟩
    rcases present with before | waits
    · exact .inl (List.mem_append_left _ before)
    · rw [waiting] at waits
      rcases List.mem_cons.mp waits with first | later
      · exact .inl (List.mem_append_right _ (List.mem_singleton.mpr first))
      · exact .inr later
termination_by (graph.unseen state, state.reopened)
decreasing_by exact SearchInvariant.counts_decrease member run.reached waiting other

/-- Where the search removes all that waits, a start that is its own neighbour is
expanded again. -/
theorem ExpandedOnce.loopless [EquivBEq Node] (member : start ∈ graph.nodes)
    (never : ∀ current state step rest,
      Reached graph.toGraphNode order start goal current [] state →
        state.possibleSteps = step :: rest → ¬ ((state.steps step).node == goal) = true)
    (once : ExpandedOnce graph.toGraphNode order start goal) : ¬ graph.Adjacent start start := by
  intro adjacent
  obtain ⟨own, listed, same⟩ := DistinctSet.contains_iff.mp adjacent
  have entered : Run graph.toGraphNode order start goal [] none _ _ := .enter
  obtain ⟨ref, bound, waits, node⟩ := SearchState.seeds_wait graph.toGraphNode start goal _
    (.initial graph.toGraphNode start goal) own ((order.perm none _).mem_iff.mpr listed)
  obtain ⟨all, last, final, finished, empty, continues⟩ := entered.seeded.exhausts member never
  have remains := continues.kept ref (.inr waits)
  rw [empty] at remains
  have gone := remains.resolve_right List.not_mem_nil
  have apart := (List.pairwise_cons.mp (once _ _ _ _ finished)).1 _
    (List.mem_map_of_mem gone)
  rw [(continues.nodes ref bound).2, node] at apart
  exact absurd same (Bool.eq_false_iff.mp (beq_false_comm apart))

/-- Two waiting steps for one node are then both expanded. -/
theorem ExpandedOnce.unduplicated [EquivBEq Node] (member : start ∈ graph.nodes)
    (never : ∀ current state step rest,
      Reached graph.toGraphNode order start goal current [] state →
        state.possibleSteps = step :: rest → ¬ ((state.steps step).node == goal) = true)
    (once : ExpandedOnce graph.toGraphNode order start goal) :
    Unduplicated graph.toGraphNode order start goal := by
  refine ⟨once.loopless member never, fun step node pending state reached duplicates => ?_⟩
  obtain ⟨⟨ref, waits, equal⟩, missed⟩ := duplicates
  have older := (reached.invariant member).waiting ref waits
  obtain ⟨removed, run⟩ := reached.run
  obtain ⟨all, last, final, finished, empty, continues⟩ := run.visit.visited.exhausts member never
  have later := (Continues.visits graph.toGraphNode goal removed step pending _).trans continues
  have gone (other : StepRef)
      (present : other ∈ (state.visit graph.toGraphNode goal step node).possibleSteps) :
      other ∈ all := by
    have remains := later.kept other (.inr present)
    rw [empty] at remains
    exact remains.resolve_right List.not_mem_nil
  have grown : ref < (state.visit graph.toGraphNode goal step node).allocated := by
    rw [SearchState.visit_allocated]
    exact Nat.lt_succ_of_lt older
  have newest : state.allocated < (state.visit graph.toGraphNode goal step node).allocated := by
    rw [SearchState.visit_allocated]
    exact Nat.lt_succ_self _
  have added : state.allocated ∈ (state.visit graph.toGraphNode goal step node).possibleSteps := by
    rcases SearchState.visit_possibleSteps graph.toGraphNode goal step state node with
      ⟨_, waiting, found⟩ | ⟨_, perm⟩
    · exact absurd found (missed waiting)
    · exact perm.mem_iff.mpr List.mem_cons_self
  have symmetric : Std.Symm fun first second => final.same first second = false :=
    ⟨fun first second apart => beq_false_comm apart⟩
  have removals : all.Pairwise fun first second => final.same first second = false :=
    List.pairwise_map.mp (List.pairwise_cons.mp (once _ _ _ _ finished)).2
  have apart := removals.forall (gone ref (SearchState.mem_visit_of_mem waits)) (gone _ added)
    (Nat.ne_of_lt older)
  rw [SearchState.same, (later.nodes ref grown).2, (later.nodes _ newest).2, SearchState.visit_node,
    SearchState.visit_node, SearchState.extended_old _ _ _ _ _ older,
    SearchState.extended_new] at apart
  exact absurd equal (Bool.eq_false_iff.mp apart)

end Exhaustion

/-- As long as no visit inserts a second step for a waiting node, and the start is not its
own neighbour, no node is expanded twice; where there is no route to the goal, only then. -/
theorem findPath_expandedOnce [EquivBEq Node] (graph : DistinctGraph Node Cost)
    (order : IterationOrder Node) (start goal : Node) (member : start ∈ graph.nodes)
    (target : goal ∈ graph.nodes) :
    (Unduplicated graph.toGraphNode order start goal →
      ExpandedOnce graph.toGraphNode order start goal) ∧
    (¬ graph.Reaches start goal → ExpandedOnce graph.toGraphNode order start goal →
      Unduplicated graph.toGraphNode order start goal) := by
  constructor
  · intro kept removed current pending state run
    refine List.pairwise_cons.mpr ⟨fun node listed => ?_, ?_⟩
    · obtain ⟨ref, gone, rfl⟩ := List.mem_map.mp listed
      exact run.reached.away member kept.loopless ref (run.removed_allocated member ref gone)
    · exact List.pairwise_map.mpr (run.sole member kept.visits).gone
  · intro blocked
    refine ExpandedOnce.unduplicated member fun current state step rest reached first arrived => ?_
    have valid := reached.invariant member
    have bound := valid.first_allocated first
    obtain ⟨nodes, explored⟩ := valid.explored step bound
    have same := (graph.separated _ (valid.listed step bound) goal target).mp arrived
    exact blocked (same ▸ (explored.route valid bound).1.reaches)

theorem blocks_unduplicated : Unduplicated blocks.toGraphNode (listOrder (Fin 6)) 0 4 := by
  have all : ∀ head ∈ blocksHeads, head.Visits fun step node state =>
      ¬ state.Duplicates blocks.toGraphNode 4 step node := by
    decide +kernel
  exact ⟨by decide, LoopHead.of_heads blocksHeads_ended all⟩

/-- Node 0 leads to itself and to 1, and neither to 2. -/
def loop : DistinctGraph (Fin 3) Int where
  connectedNodes
    | 0 => ⟨[0, 1], by decide⟩
    | _ => .empty
  estimatedCost _ _ := 0
  cost _ _ := 0
  nodes := [0, 1, 2]
  closed := by decide
  separated := by decide

theorem loop_blocked : ¬ loop.Reaches 0 2 := by
  have closed : ∀ source target, loop.Edge source target → target ≠ 2 := by decide
  intro reaches
  obtain same | ⟨node, _, edge⟩ := reaches.cases_tail
  · exact absurd same (by decide)
  · exact closed node 2 edge rfl

/-- Between the blocks each node is expanded once; the start with the loop is not. -/
theorem findPath_expandedOnce_blocks :
    ExpandedOnce blocks.toGraphNode (listOrder (Fin 6)) 0 4 ∧
      ¬ ExpandedOnce loop.toGraphNode (listOrder (Fin 3)) 0 2 := by
  constructor
  · exact (findPath_expandedOnce blocks (listOrder (Fin 6)) 0 4 (by decide) (by decide)).1
      blocks_unduplicated
  · intro once
    have kept := (findPath_expandedOnce loop (listOrder (Fin 3)) 0 2 (by decide) (by decide)).2
      loop_blocked once
    exact kept.loopless (by decide)

/-- Two ways from node 0 to node 3, the one met second being the longer one. -/
def diamond : DistinctGraph (Fin 5) Int where
  connectedNodes
    | 0 => ⟨[2, 1], by decide⟩
    | 1 => .singleton 3
    | 2 => .singleton 3
    | 3 => .singleton 4
    | 4 => .empty
  estimatedCost _ _ := 0
  cost
    | 0, 1 => 1
    | 0, 2 => 1
    | 1, 3 => 1
    | 2, 3 => 2
    | 3, 4 => 5
    | _, _ => 0
  nodes := [0, 1, 2, 3, 4]
  closed := by decide
  separated := by decide

/-- The longer way to node 3 is inserted behind the shorter one, and both are expanded. -/
theorem findPath_expands_twice :
    (∀ first second, 0 ≤ diamond.cost first second) ∧ Consistent diamond.toFiniteGraph 4 ∧
      ¬ ExpandedOnce diamond.toGraphNode (listOrder (Fin 5)) 0 4 := by
  refine ⟨by decide, by unfold Consistent; decide, fun once => ?_⟩
  have entered : Run diamond.toGraphNode (listOrder (Fin 5)) 0 4 [] none [2, 1] _ := .enter
  have first := entered.seed.seed.removing 1 [0] [3] (by decide +kernel) (by decide +kernel)
    (by decide +kernel)
  have second := first.visit.removing 0 [2] [3] (by decide +kernel) (by decide +kernel)
    (by decide +kernel)
  have third := second.visit.removing 2 [3] [4] (by decide +kernel) (by decide +kernel)
    (by decide +kernel)
  have fourth := third.visit.removing 3 [4] [4] (by decide +kernel) (by decide +kernel)
    (by decide +kernel)
  exact absurd (once _ _ _ _ fourth) (by decide +kernel)

end AugmentedCampus
