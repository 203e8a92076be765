import AugmentedCampus.Campus.Navigation
import AugmentedCampus.Foundation.HashedSet

/-! The hash values of node objects and of the steps built on them. `==` compares
coordinates while the hash reads the name and the id, and every `Set` of the import and
of the search counts on the two to agree. -/
namespace AugmentedCampus

open Foundation

universe u v

/-- A hash function of strings, which gives one value to strings that are equal. -/
structure StringHash (equal : Setoid String) where
  value : String → Int
  respects : ∀ first second, equal.r first second → value first = value second

variable {equal : Setoid String} {K : Type v}

/-- `"\(name)\(id)"` -/
def NavigationLocation.label (location : NavigationLocation Int K) : String :=
  location.name ++ toString location.id

def NavigationLocation.hashValue (hash : StringHash equal) (location : NavigationLocation Int K) :
    Int :=
  hash.value location.label

/-- `Step.hashValue`, from that of its node. -/
def Step.hashValue {Node : Type u} {Cost : Type v} (hashValue : Node → Int)
    (step : Step Node Cost) : Int :=
  hashValue step.node

/-- `Step.==` -/
instance {Node : Type u} {Cost : Type v} [BEq Node] : BEq (Step Node Cost) :=
  ⟨fun lhs rhs => lhs.node == rhs.node⟩

variable [DecidableEq K]

/-- What `==` identifies among the nodes hashes alike, as node and as step, and the sets
of these nodes are determined by `==` in every layout. -/
structure HashAgrees (hash : StringHash equal) (nodes : List (NavigationLocation Int K)) :
    Prop where
  locations : ∀ first ∈ nodes, ∀ second ∈ nodes, (first == second) = true →
    first.hashValue hash = second.hashValue hash
  steps : ∀ first second : Step (NavigationLocation Int K) K, first.node ∈ nodes →
    second.node ∈ nodes → (first == second) = true →
      first.hashValue (NavigationLocation.hashValue hash) =
        second.hashValue (NavigationLocation.hashValue hash)
  contains : ∀ (layout : Layout (NavigationLocation.hashValue hash))
    (set : DistinctSet (NavigationLocation Int K)), set.Within nodes →
      ∀ item ∈ nodes, layout.contains set.elements item = set.contains item
  insert : ∀ (layout : Layout (NavigationLocation.hashValue hash))
    (set : DistinctSet (NavigationLocation Int K)), set.Within nodes →
      ∀ item ∈ nodes, layout.insert set.elements item = (set.insert item).elements
  subtracting : ∀ (layout : Layout (NavigationLocation.hashValue hash))
    (set removed : DistinctSet (NavigationLocation Int K)), set.Within nodes →
      removed.Within nodes →
        layout.subtracting set.elements removed.elements = (set.subtracting removed).elements

variable {hash : StringHash equal} {nodes : List (NavigationLocation Int K)}

theorem HashAgrees.of_lawful (lawful : LawfulHash (NavigationLocation.hashValue hash) nodes) :
    HashAgrees hash nodes where
  locations := lawful
  steps first second one other same := lawful first.node one second.node other same
  contains layout _ inside _ member := lawful.contains_eq layout inside member
  insert layout _ inside _ member := lawful.insert_eq layout inside member
  subtracting layout _ _ inside other := lawful.subtracting_eq layout inside other

theorem HashAgrees.of_contains
    (determined : ∀ (layout : Layout (NavigationLocation.hashValue hash))
      (set : DistinctSet (NavigationLocation Int K)), set.Within nodes →
        ∀ item ∈ nodes, layout.contains set.elements item = set.contains item) :
    HashAgrees hash nodes :=
  .of_lawful (.of_contains determined)

/-- A connection is made in the same set, however that set is laid out. -/
theorem HashAgrees.makeConnection (agrees : HashAgrees hash nodes)
    (layout : Layout (NavigationLocation.hashValue hash)) {location : NavigationNode Int K}
    {node : NavigationLocation Int K} (inside : location.connectedNodes.Within nodes)
    (member : node ∈ nodes) :
    layout.insert location.connectedNodes.elements node =
      (location.makeConnection node).connectedNodes.elements :=
  agrees.insert layout location.connectedNodes inside node member

section Runs

variable {Number : Type v} [AddCommGroup Number] [LinearOrder Number]
  {graph : FiniteGraph (NavigationLocation Int Number) Number}
  {order : IterationOrder (NavigationLocation Int Number)}
  {start goal : NavigationLocation Int Number} {current : Option StepRef}
  {state : SearchState (NavigationLocation Int Number) Number} {step : StepRef}
  {rest : List StepRef}

/-- In every run the two sets of a removal are the ones the search goes on with. -/
theorem HashAgrees.expansion (agrees : HashAgrees hash graph.nodes) (member : start ∈ graph.nodes)
    (reached : Reached graph.toGraphNode order start goal current [] state)
    (first : state.possibleSteps = step :: rest)
    (layout : Layout (NavigationLocation.hashValue hash)) :
    layout.insert state.eliminatedNodes.elements (state.steps step).node =
        (state.eliminate step rest).eliminatedNodes.elements ∧
      layout.subtracting (graph.connectedNodes (state.steps step).node).elements
          (state.eliminate step rest).eliminatedNodes.elements =
        ((graph.connectedNodes (state.steps step).node).subtracting
          (state.eliminate step rest).eliminatedNodes).elements := by
  have valid := reached.invariant member
  have listed := valid.listed step (valid.first_allocated first)
  constructor
  · exact agrees.insert layout state.eliminatedNodes valid.inside _ listed
  · refine agrees.subtracting layout _ _ (graph.closed _ listed) fun node eliminated => ?_
    rcases DistinctSet.mem_insert_cases eliminated with old | new
    · exact valid.inside node old
    · rw [new]
      exact listed

end Runs

/-- Where coordinates tell the loaded nodes apart, their hash values are in order. -/
theorem DataManager.Scattered.hashAgrees {Number : Type v} [Field Number] [LinearOrder Number]
    {manager : DataManager Int Number} (scattered : manager.Scattered)
    (referenced : manager.Referenced) (hash : StringHash equal) :
    HashAgrees hash (manager.navLocations.values.map NavigationNode.toNavigationLocation) := by
  refine HashAgrees.of_lawful fun first one second other same => ?_
  obtain ⟨node, loaded, rfl⟩ := List.mem_map.mp one
  obtain ⟨next, present, rfl⟩ := List.mem_map.mp other
  rw [scattered.eq_of_beq referenced loaded present same]

open Classical in
noncomputable def StringHash.separating (equal : Setoid String) (text : String) :
    StringHash equal where
  value other := if equal.r other text then 0 else 1
  respects first second same := by
    have alike : equal.r first text ↔ equal.r second text :=
      ⟨fun left => equal.trans (equal.symm same) left, fun right => equal.trans same right⟩
    simp only [alike]

theorem StringHash.separating_eq {text other : String}
    (same : (separating equal text).value text = (separating equal text).value other) :
    equal.r text other := by
  by_contra apart
  have back : ¬ equal.r other text := fun other => apart (equal.symm other)
  simp [separating, back] at same

/-- Hash values and sets agree with `==`, for every hash function of strings and every
layout, exactly for nodes of which no two share their coordinates but not the string made of
name and id. -/
theorem hashValue_agrees_iff (equal : Setoid String) (nodes : List (NavigationLocation Int K)) :
    (∀ hash : StringHash equal, HashAgrees hash nodes) ↔
      ∀ first ∈ nodes, ∀ second ∈ nodes, first.latitude = second.latitude →
        first.longitude = second.longitude →
          equal.r (first.name ++ toString first.id) (second.name ++ toString second.id) := by
  constructor
  · intro agrees first one second other latitude longitude
    have same := NavigationLocation.beq_iff.mpr ⟨latitude, longitude⟩
    exact StringHash.separating_eq ((agrees (.separating equal first.label)).locations
      first one second other same)
  · intro labels hash
    refine HashAgrees.of_lawful fun first one second other same => ?_
    obtain ⟨latitude, longitude⟩ := NavigationLocation.beq_iff.mp same
    exact hash.respects _ _ (labels first one second other latitude longitude)

private def firstFloor : NavigationLocation Int ℚ :=
  { latitude := 3, longitude := 4, name := "Darden, first floor", id := 2 }

private def secondFloor : NavigationLocation Int ℚ :=
  { latitude := 3, longitude := 4, name := "Darden, second floor", id := 3 }

private def lengthHash : StringHash ⟨Eq, eq_equivalence⟩ where
  value text := text.length
  respects _ _ same := by rw [same]

/-- Two floors of a building are equal and hash differently. A table with a bucket for
each hash value does not find the one by the other, takes both in, and does not subtract
the one for the other, and a single bucket finds it. -/
theorem hashValue_disagrees :
    (firstFloor == secondFloor) = true ∧
      firstFloor.hashValue lengthHash ≠ secondFloor.hashValue lengthHash ∧
      ¬ (∀ hash : StringHash ⟨Eq, eq_equivalence⟩, HashAgrees hash [firstFloor, secondFloor]) ∧
      ∃ layout : Layout (NavigationLocation.hashValue (K := ℚ) lengthHash),
        layout.contains [firstFloor] secondFloor = false ∧
        layout.insert [firstFloor] secondFloor = [firstFloor, secondFloor] ∧
        layout.subtracting [secondFloor] [firstFloor] = [secondFloor] ∧
        (Layout.scan (NavigationLocation.hashValue lengthHash)).contains [firstFloor]
          secondFloor = true := by
  have same : (firstFloor == secondFloor) = true := by decide +kernel
  have apart : firstFloor.hashValue lengthHash ≠ secondFloor.hashValue lengthHash := by
    decide +kernel
  refine ⟨same, apart, fun agrees => ?_, .buckets _, ?_, ?_, ?_, ?_⟩
  · exact apart ((agrees lengthHash).locations _ List.mem_cons_self _
      (List.mem_cons_of_mem _ List.mem_cons_self) same)
  all_goals decide +kernel

end AugmentedCampus
