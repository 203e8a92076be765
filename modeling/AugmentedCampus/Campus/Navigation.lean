import AugmentedCampus.Campus.ImportInvariant
import AugmentedCampus.Foundation.RunningMinimum
import AugmentedCampus.Search.Coincidence
import Mathlib.Algebra.Order.Round
import Mathlib.Data.Rat.Floor

/-! Choosing where to start, the route from there, and following it to "Arrived". -/
namespace AugmentedCampus

open Foundation

universe u v

variable {K : Type v} [Field K] [LinearOrder K]

namespace DataManager

section Search

variable [SquareRoot K]

/-- An object for the user's location; it is in no graph. -/
def temp (latitude longitude : K) : NavigationNode Int K :=
  { latitude := latitude
    longitude := longitude
    name := ""
    id := -1
    connectedNodes := .empty }

structure Closest (K : Type v) [DecidableEq K] where
  distance : K
  closest : NavigationNode Int K

def closer (temp destination : NavigationNode Int K) (best : Closest K)
    (x : NavigationNode Int K) : Closest K :=
  if (x.toNavigationLocation == destination.toNavigationLocation) = true then best
  else if x.cost destination.toNavigationLocation >
      temp.cost destination.toNavigationLocation then best
  else
    let temp2 := temp.cost x.toNavigationLocation
    if temp2 < best.distance then ⟨temp2, x⟩ else best

def findClosest (order : Dictionary.Order Int (NavigationNode Int K)) (manager : DataManager Int K)
    (latitude longitude : K) (destination : NavigationNode Int K) : NavigationNode Int K :=
  ((order.arrange manager.navLocations).foldl
    (closer (temp latitude longitude) destination)
    ⟨99999.9, temp latitude longitude⟩).closest

def connectedNodes (manager : DataManager Int K) (location : NavigationLocation Int K) :
    DistinctSet (NavigationLocation Int K) :=
  match manager.getNode location.id with
  | some node => node.connectedNodes
  | none => .empty

/-- The node objects as seen from `start`, which need not be a loaded one. -/
def graphNode (manager : DataManager Int K) (start : NavigationNode Int K) :
    GraphNode (NavigationLocation Int K) K where
  connectedNodes location :=
    if location = start.toNavigationLocation then start.connectedNodes
    else manager.connectedNodes location
  estimatedCost := NavigationLocation.estimatedCost
  cost := NavigationLocation.cost

end Search

end DataManager

structure Navigation (K : Type v) where
  path : List (NavigationLocation Int K)
  pathFinding : Bool
  title : String
  deriving DecidableEq

/-- `Double(round(10 * distance) / 10)`; distances are not negative. -/
def rounded [FloorRing K] (distance : K) : K := (round (10 * distance) : K) / 10

/-- `none` when the search needs more than `fuel` iterations. -/
def unwindToARViewController [SquareRoot K] (order : Dictionary.Order Int (NavigationNode Int K))
    (visits : IterationOrder (NavigationLocation Int K)) (fuel : Nat) (graph : DataManager Int K)
    (latitude longitude : K) (destination : NavigationNode Int K) : Option (Navigation K) :=
  let start := graph.findClosest order latitude longitude destination
  (findPath (graph.graphNode start) visits fuel start.toNavigationLocation
    destination.toNavigationLocation).map fun path =>
      { path := path, pathFinding := true, title := destination.name }

section Following

variable {Fix : Type u} [FloorRing K] (distance : Fix → K → K → K)

def Near (loc : Fix) (node : NavigationLocation Int K) : Prop :=
  rounded (distance loc node.latitude node.longitude) < 8

instance (loc : Fix) (node : NavigationLocation Int K) : Decidable (Near distance loc node) :=
  inferInstanceAs (Decidable (_ < _))

/-- `none` when `path[0]` is out of range. -/
def followPath (navigation : Navigation K) (loc : Fix) : Option (Navigation K) :=
  match navigation.path with
  | [] => none
  | first :: rest =>
    if Near distance loc first then
      if rest.isEmpty then some ⟨rest, false, "Arrived"⟩
      else some { navigation with path := rest }
    else some navigation

def didUpdateLocations (navigation : Navigation K) (loc : Fix) : Option (Navigation K) :=
  if navigation.pathFinding then followPath distance navigation loc else some navigation

/-- Whatever fixes come, `pathFinding` ends on none that is not near the destination. -/
def Honest (navigation : Navigation K) (destination : NavigationLocation Int K) : Prop :=
  ∀ (fixes : List Fix) (loc : Fix) (before after : Navigation K),
    fixes.foldlM (didUpdateLocations distance) navigation = some before →
      before.pathFinding = true → didUpdateLocations distance before loc = some after →
        after.pathFinding = false → Near distance loc destination

variable {distance} {navigation before after : Navigation K} {loc : Fix}
  {last destination : NavigationLocation Int K}

theorem Near.congr (near : Near distance loc last) (same : (last == destination) = true) :
    Near distance loc destination := by
  obtain ⟨north, east⟩ := NavigationLocation.beq_iff.mp same
  rwa [Near, ← north, ← east]

/-- A fix takes the first node off the route or changes nothing. -/
theorem didUpdateLocations_cases (updated : didUpdateLocations distance before loc = some after) :
    (after = before ∧ (before.pathFinding = true →
      ∀ first ∈ before.path.head?, ¬ Near distance loc first)) ∨
      before.pathFinding = true ∧ ∃ first, Near distance loc first ∧
        before.path = first :: after.path ∧ after.pathFinding = !after.path.isEmpty := by
  unfold didUpdateLocations at updated
  by_cases finding : before.pathFinding = true
  · simp only [finding, ↓reduceIte, followPath] at updated
    cases steps : before.path with
    | nil => simp [steps] at updated
    | cons first rest =>
      simp only [steps] at updated
      by_cases near : Near distance loc first
      · refine .inr ⟨finding, first, near, ?_⟩
        cases rest with
        | nil =>
          simp only [near, ↓reduceIte, List.isEmpty_nil, Option.some.injEq] at updated
          subst updated
          exact ⟨rfl, rfl⟩
        | cons second others =>
          simp only [near, ↓reduceIte, List.isEmpty_cons, Bool.false_eq_true,
            Option.some.injEq] at updated
          subst updated
          exact ⟨rfl, rfl⟩
      · simp only [near, ↓reduceIte, Option.some.injEq] at updated
        subst updated
        exact .inl ⟨rfl, fun _ => by simpa using near⟩
  · simp only [finding, Bool.false_eq_true, ↓reduceIte, Option.some.injEq] at updated
    exact .inl ⟨updated.symm, fun still => absurd still finding⟩

private theorem didUpdateLocations_last
    (route : before.pathFinding = true → before.path.getLast? = some last)
    (updated : didUpdateLocations distance before loc = some after) :
    (after.pathFinding = true → after.path.getLast? = some last) ∧
      (before.pathFinding = true → after.pathFinding = false → Near distance loc last) := by
  rcases didUpdateLocations_cases updated with ⟨rfl, _⟩ | ⟨finding, first, near, steps, goes⟩
  · exact ⟨route, fun still stopped => absurd (still.symm.trans stopped) nofun⟩
  · have ends := route finding
    rw [steps] at ends
    cases remaining : after.path with
    | nil =>
      rw [remaining] at ends goes
      cases Option.some.inj ends
      exact ⟨fun still => absurd (still.symm.trans goes) nofun, fun _ _ => near⟩
    | cons second others =>
      rw [remaining] at ends goes
      rw [List.getLast?_cons_cons] at ends
      exact ⟨fun _ => ends, fun _ stopped => absurd (goes.symm.trans stopped) nofun⟩

private theorem updates_last {fixes : List Fix}
    (route : navigation.pathFinding = true → navigation.path.getLast? = some last)
    (updated : fixes.foldlM (didUpdateLocations distance) navigation = some after) :
    after.pathFinding = true → after.path.getLast? = some last :=
  foldlM_preserves
    (fun navigation => navigation.pathFinding = true → navigation.path.getLast? = some last)
    (fun _ _ _ route updated => (didUpdateLocations_last route updated).1) route updated

theorem honest_of_last (route : navigation.path.getLast? = some last)
    (close : ∀ loc, Near distance loc last → Near distance loc destination) :
    Honest distance navigation destination := by
  intro fixes loc before after updated finding arrived stopped
  have ends := updates_last (fun _ => route) updated
  exact close loc ((didUpdateLocations_last ends arrived).2 finding stopped)

theorem Honest.single {title : String}
    (honest : Honest distance (⟨[last], true, title⟩ : Navigation K) destination)
    (near : Near distance loc last) : Near distance loc destination :=
  honest [] loc ⟨[last], true, title⟩ ⟨[], false, "Arrived"⟩ rfl rfl
    (by simp [didUpdateLocations, followPath, near]) rfl

end Following

namespace DataManager

section FindClosest

variable [SquareRoot K]

/-- Neither of the two tests of the loop skips the node. -/
def Suitable (temp destination x : NavigationNode Int K) : Prop :=
  ¬ (x.toNavigationLocation == destination.toNavigationLocation) = true ∧
    ¬ x.cost destination.toNavigationLocation > temp.cost destination.toNavigationLocation

theorem closer_cases (temp destination : NavigationNode Int K) (best : Closest K)
    (x : NavigationNode Int K) :
    (closer temp destination best x = best ∧
      (Suitable temp destination x → ¬ temp.cost x.toNavigationLocation < best.distance)) ∨
      Suitable temp destination x ∧
        temp.cost x.toNavigationLocation < best.distance ∧
        closer temp destination best x = ⟨temp.cost x.toNavigationLocation, x⟩ := by
  unfold closer
  split
  · rename_i same
    exact .inl ⟨rfl, fun suitable => absurd same suitable.1⟩
  · rename_i different
    split
    · rename_i far
      exact .inl ⟨rfl, fun suitable => absurd far suitable.2⟩
    · rename_i between
      by_cases improves : temp.cost x.toNavigationLocation < best.distance
      · exact .inr ⟨⟨different, between⟩, improves, by simp [improves]⟩
      · exact .inl ⟨by simp [improves], fun _ => improves⟩

/-- The loop of `findClosest` is a running minimum with a strict test. -/
theorem closer_keepsBest (temp destination : NavigationNode Int K) :
    KeepsBest (· < ·) (Suitable temp destination) (fun x => temp.cost x.toNavigationLocation)
      Closest.distance Closest.closest (closer temp destination) where
  weaken _ _ := le_of_lt
  trans _ _ _ := lt_trans
  step best x := by
    rcases closer_cases temp destination best x with ⟨same, skipped⟩ | ⟨suits, below, taken⟩
    · exact .inl ⟨same, fun suitable => le_of_not_gt (skipped suitable)⟩
    · exact .inr ⟨suits, below, by rw [taken], by rw [taken]⟩

def HasStart (manager : DataManager Int K) (latitude longitude : K)
    (destination : NavigationNode Int K) : Prop :=
  ∃ x ∈ manager.navLocations.values, Suitable (temp latitude longitude) destination x ∧
    (temp latitude longitude).cost x.toNavigationLocation < 99999.9

instance (manager : DataManager Int K) (latitude longitude : K)
    (destination : NavigationNode Int K) :
    Decidable (manager.HasStart latitude longitude destination) := by
  unfold HasStart Suitable
  infer_instance

/-- The result is a suitable loaded node if there is one, and else no node of the graph. -/
theorem findClosest_cases (order : Dictionary.Order Int (NavigationNode Int K))
    (manager : DataManager Int K) (latitude longitude : K) (destination : NavigationNode Int K) :
    (manager.HasStart latitude longitude destination ∧
      manager.findClosest order latitude longitude destination ∈ manager.navLocations.values ∧
      Suitable (temp latitude longitude) destination
        (manager.findClosest order latitude longitude destination)) ∨
      ¬ manager.HasStart latitude longitude destination ∧
        manager.findClosest order latitude longitude destination = temp latitude longitude := by
  have listed (x : NavigationNode Int K) :
      x ∈ order.arrange manager.navLocations ↔ x ∈ manager.navLocations.values :=
    (order.perm manager.navLocations).mem_iff
  unfold findClosest
  rcases (closer_keepsBest (temp latitude longitude) destination).run
    (order.arrange manager.navLocations) ⟨99999.9, temp latitude longitude⟩ with
    ⟨kept, none⟩ | ⟨x, member, suits, below, chosen, _⟩
  · refine .inr ⟨?_, by rw [kept]⟩
    intro start
    obtain ⟨x, member, suitable, close⟩ := start
    exact not_lt_of_ge (none x ((listed x).mpr member) suitable) close
  · rw [chosen]
    exact .inl ⟨⟨x, (listed x).mp member, suits, below⟩, (listed x).mp member, suits⟩

end FindClosest

section Routes

variable {manager : DataManager Int K}

/-- No two loaded nodes are at the same coordinates. -/
def Scattered (manager : DataManager Int K) : Prop :=
  ∀ first ∈ manager.navLocations.values, ∀ second ∈ manager.navLocations.values,
    (first.toNavigationLocation == second.toNavigationLocation) = true → first.id = second.id

instance : Decidable manager.Scattered := by unfold Scattered; infer_instance

def Leads (manager : DataManager Int K) (source target : NavigationLocation Int K) : Prop :=
  Relation.ReflTransGen (fun node next => next ∈ (manager.connectedNodes node).elements)
    source target

omit [Field K] in
theorem Referenced.connectedNodes (referenced : manager.Referenced) {node : NavigationNode Int K}
    (loaded : node ∈ manager.navLocations.values) :
    manager.connectedNodes node.toNavigationLocation = node.connectedNodes := by
  simp [DataManager.connectedNodes, referenced.mem_values.mp loaded]

omit [Field K] in
theorem Scattered.eq_of_beq (scattered : manager.Scattered) (referenced : manager.Referenced)
    {first second : NavigationNode Int K} (one : first ∈ manager.navLocations.values)
    (other : second ∈ manager.navLocations.values)
    (same : (first.toNavigationLocation == second.toNavigationLocation) = true) :
    first = second := by
  have found := referenced.mem_values.mp one
  rw [scattered first one second other same, referenced.mem_values.mp other] at found
  exact (Option.some.inj found).symm

variable [SquareRoot K]

theorem Referenced.graphNode (referenced : manager.Referenced) {start : NavigationNode Int K}
    (loaded : start ∈ manager.navLocations.values) (location : NavigationLocation Int K) :
    (manager.graphNode start).connectedNodes location = manager.connectedNodes location := by
  by_cases same : location = start.toNavigationLocation
  · subst same
    rw [referenced.connectedNodes loaded]
    exact if_pos rfl
  · exact if_neg same

def Referenced.finiteGraph (referenced : manager.Referenced) {start : NavigationNode Int K}
    (loaded : start ∈ manager.navLocations.values) : FiniteGraph (NavigationLocation Int K) K where
  toGraphNode := manager.graphNode start
  nodes := manager.navLocations.values.map NavigationNode.toNavigationLocation
  closed source listed target edge := by
    obtain ⟨node, member, rfl⟩ := List.mem_map.mp listed
    rw [referenced.graphNode loaded, referenced.connectedNodes member] at edge
    obtain ⟨next, found, same⟩ :=
      referenced.target node.id node (referenced.mem_values.mp member) target edge
    exact List.mem_map.mpr ⟨next, Dictionary.mem_values.mpr ⟨_, found⟩, same⟩

/-- All that a search from `start` can come upon, in any graph. -/
def searchGraph (manager : DataManager Int K) (start : NavigationNode Int K) :
    FiniteGraph (NavigationLocation Int K) K where
  toGraphNode := manager.graphNode start
  nodes := start.toNavigationLocation :: (start.connectedNodes.elements ++
    manager.navLocations.values.flatMap fun node => node.connectedNodes.elements)
  closed source _ target edge := by
    refine List.mem_cons_of_mem _ (List.mem_append.mpr ?_)
    by_cases same : source = start.toNavigationLocation
    · simp only [DataManager.graphNode, if_pos same] at edge
      exact .inl edge
    · simp only [DataManager.graphNode, if_neg same] at edge
      cases found : manager.getNode source.id with
      | none => simp [DataManager.connectedNodes, found, DistinctSet.empty] at edge
      | some node =>
        simp only [DataManager.connectedNodes, found] at edge
        exact .inr (List.mem_flatMap.mpr ⟨node, Dictionary.mem_values.mpr ⟨_, found⟩, edge⟩)

theorem exists_route (manager : DataManager Int K) (visits : IterationOrder (NavigationLocation Int K))
    (start : NavigationNode Int K) (goal : NavigationLocation Int K) :
    ∃ path, Returns (manager.graphNode start) visits start.toNavigationLocation goal path := by
  obtain ⟨path, returned, _⟩ :=
    findPath_outcome (manager.searchGraph start) visits _ goal List.mem_cons_self
  exact ⟨path, returned⟩

theorem Referenced.reaches (referenced : manager.Referenced) {start : NavigationNode Int K}
    (loaded : start ∈ manager.navLocations.values) {goal : NavigationLocation Int K}
    (leads : manager.Leads start.toNavigationLocation goal) :
    (manager.graphNode start).Reaches start.toNavigationLocation goal := by
  have edges (node next : NavigationLocation Int K)
      (edge : next ∈ (manager.connectedNodes node).elements) :
      (manager.graphNode start).Edge node next := by
    rwa [GraphNode.Edge, referenced.graphNode loaded]
  exact Relation.ReflTransGen.mono edges _ _ leads

end Routes

end DataManager

section Examples

def entranceNodes : Dictionary String (NodeRecord Int ℚ) :=
  [("node001", ⟨1, "Library", 0, 0⟩), ("node002", ⟨2, "Darden", 3, 4⟩)].foldl
    (fun nodes entry => nodes.insert entry.1 entry.2) ∅

def entranceEdges : Dictionary String (EdgeRecord Int ℚ) :=
  [⟨"node001_node002", 1, 2, false, 5⟩, ⟨"node002_node001", 2, 1, false, 5⟩].foldl
    (fun edges edge => edges.insert edge.id edge) ∅

def entrances : DataManager Int ℚ :=
  (DataManager.convertToNavigationLocations .asStored .asStored .empty entranceNodes
    entranceEdges).getD .empty

def dardenEntrance : NavigationNode Int ℚ :=
  (entrances.getNode 2).getD (DataManager.temp 0 0)

/-- A hundred metres a degree, along the streets. -/
def streetDistance (loc : ℚ × ℚ) (latitude longitude : ℚ) : ℚ :=
  100 * (|loc.1 - latitude| + |loc.2 - longitude|)

end Examples

end AugmentedCampus
