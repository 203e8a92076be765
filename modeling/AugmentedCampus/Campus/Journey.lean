import AugmentedCampus.Campus.RouteFollowing
import AugmentedCampus.Campus.StoredRoute

/-! From the editor to the arrow: a campus is recorded, the app is launched on it, a
building is chosen in the menu, and the user is led to one of its entrances. -/
namespace AugmentedCampus

open Foundation

universe v

variable {Fix K : Type v} {store : Database K}

theorem Database.Route.last [Ring K] [SquareRoot K] {i : Nat} {goal : NodeRecord Nat K}
    {path : List (NavigationLocation Int K)} (route : store.Route i goal.id path)
    (present : store.HasNode goal) : path.getLast? = some goal.parsed.navLoc := by
  have ends := route.walk.last
  rw [List.getLast?_map, Option.map_eq_some_iff] at ends
  obtain ⟨location, last, own⟩ := ends
  obtain ⟨node, found, rfl⟩ := route.stops location (List.mem_of_getLast? last)
  rw [DataManager.number_parsed] at own
  rw [last, found.eq present own]

namespace DataManager

variable [LinearOrder K] {manager : DataManager Int K}

/-- The row of a building has stored entrances. -/
theorem Mirrors.entrance (mirrors : manager.Mirrors store) (contains : String → String → Bool)
    (order : Dictionary.Order Int (NavigationNode Int K)) {row : Building Int K}
    (listed : row ∈ initBuildingsArray contains order manager []) :
    row.nodes ≠ [] ∧ row.name ∈ buildingNames ∧ ∀ object ∈ row.nodes,
      object ∈ manager.navLocations.values ∧ ∃ entrance, store.HasNode entrance ∧
        object.toNavigationLocation = entrance.parsed.navLoc ∧
        contains entrance.description row.name = true := by
  have catalogued := initBuildingsArray_catalogued contains order manager
  refine ⟨catalogued.occupied row listed, catalogued.named _ (List.mem_map_of_mem listed),
    fun object member => ?_⟩
  obtain ⟨entered, matching⟩ := catalogued.entrances row listed object member
  have loaded := (order.perm _).mem_iff.mp entered
  obtain ⟨entrance, found, same⟩ :=
    mirrors.stored object.id object (mirrors.referenced.mem_values.mp loaded)
  refine ⟨loaded, entrance, found, same, ?_⟩
  have named : object.name = entrance.description := congrArg NavigationLocation.name same
  rw [← named]
  exact (mem_matchedNames.mp matching).2.2

variable [Field K] [SquareRoot K] [FloorRing K]

/-- A selection on the stored graph: where the route starts and how far it leads. -/
theorem Mirrors.selection (mirrors : manager.Mirrors store) (formed : store.WellFormed)
    (spread : store.Spread) (distance : Fix → K → K → K)
    (order : Dictionary.Order Int (NavigationNode Int K))
    (visits : IterationOrder (NavigationLocation Int K)) (latitude longitude : K)
    {destination : NavigationNode Int K} {entrance : NodeRecord Nat K}
    (present : store.HasNode entrance)
    (ends : destination.toNavigationLocation = entrance.parsed.navLoc) :
    ∃ navigation bound,
      (∀ fuel, bound ≤ fuel → unwindToARViewController order visits fuel manager latitude longitude
        destination = some navigation) ∧
      (manager.HasStart latitude longitude destination → ∃ first, store.HasNode first ∧
        first.id ≠ entrance.id ∧
        (store.Connected first.id entrance.id → store.Route first.id entrance.id navigation.path ∧
          Honest distance navigation entrance.parsed.navLoc) ∧
        (¬ store.Connected first.id entrance.id → navigation.path = [first.parsed.navLoc])) ∧
      (¬ manager.HasStart latitude longitude destination →
        navigation.path = [(temp latitude longitude).toNavigationLocation]) := by
  have answered {start : NavigationNode Int K} {path : List (NavigationLocation Int K)}
      (chosen : manager.findClosest order latitude longitude destination = start)
      (returned : Returns (manager.graphNode start) visits start.toNavigationLocation
        destination.toNavigationLocation path) :
      ∃ bound, ∀ fuel, bound ≤ fuel → unwindToARViewController order visits fuel manager latitude
        longitude destination = some ⟨path, true, destination.name⟩ := by
    obtain ⟨bound, settled⟩ := returned
    exact ⟨bound, fun fuel enough => by simp [unwindToARViewController, chosen, settled fuel enough]⟩
  rcases manager.findClosest_cases order latitude longitude destination with
    ⟨start, inside, suits⟩ | ⟨none, outside⟩
  · generalize chosen : manager.findClosest order latitude longitude destination = source
      at inside suits
    obtain ⟨first, found, starts⟩ :=
      mirrors.stored source.id source (mirrors.referenced.mem_values.mp inside)
    have different : first.id ≠ entrance.id := by
      intro same
      refine suits.1 ?_
      rw [starts, ends, found.eq present same]
      exact BEq.rfl
    obtain ⟨path, returned, leads, stays⟩ :=
      mirrors.route formed spread visits found present different inside starts ends
    obtain ⟨bound, settled⟩ := answered chosen returned
    refine ⟨_, bound, settled, fun _ => ⟨first, found, different, fun connected => ?_,
      fun apart => ?_⟩, fun none => absurd start none⟩
    · exact ⟨leads connected, honest_of_last ((leads connected).last present) fun _ near => near⟩
    · rw [← starts]
      exact stays apart
  · -- The fall-through: an object without connections.
    obtain ⟨bound, settled⟩ := answered outside (.isolated (by simp [graphNode, temp, DistinctSet.empty]))
    exact ⟨_, bound, settled, fun start => absurd start none, fun _ => rfl⟩

end DataManager

/-- Complete calls of the editor, a launch of the app, and a row of its menu. The place
that is selected is the entrance of that building that is nearest to the user, with the
building's name in its description. If `findClosest` finds a start, it is another stored
place; when the store connects the two, the app leads along a route of the store, and
announces arrival near the entrance only, whatever fixes come. Without a start the route
is the user's own place. -/
theorem menu_leads_to_entrance [Field K] [LinearOrder K] [IsStrictOrderedRing K] [FloorRing K]
    [SquareRoot K] (services : Services Fix K)
    (contains : String → String → Bool) (order : EntryOrder K)
    (nodeOrder edgeOrder : Dictionary.Order String (Fields K))
    (rows : Dictionary.Order Int (NavigationNode Int K)) (writes : List (Write K))
    (operations : List (Operation K))
    (formed : (writes.foldl Database.apply ⟨none, ∅, ∅⟩).WellFormed)
    (spread : (operations.foldl (Database.complete order)
      (writes.foldl Database.apply ⟨none, ∅, ∅⟩)).Spread)
    (menu : Selection K)
    (loaded : let tree := (writes ++ (writes.foldl Database.apply ⟨none, ∅, ∅⟩).editorWrites order
        operations).foldl Stored.apply Tree.empty
      viewDidLoadFields nodeOrder edgeOrder tree tree = some (some menu.graph))
    (loc : Fix) (heading : Option K) (row : Building Int K)
    (listed : row ∈ DataManager.initBuildingsArray contains rows menu.graph []) :
    let store := operations.foldl (Database.complete order) (writes.foldl Database.apply ⟨none, ∅, ∅⟩)
    let chosen := menu.didSelectRowAt services ⟨some loc, heading⟩ row
    let user := DataManager.temp (services.latitude loc) (services.longitude loc)
    ∃ entrance, store.HasNode entrance ∧
      chosen.selectedNavLoc.toNavigationLocation = entrance.parsed.navLoc ∧
      contains entrance.description row.name = true ∧
      (∀ object ∈ row.nodes, user.cost entrance.parsed.navLoc ≤
        user.cost object.toNavigationLocation) ∧
      ∃ navigation bound,
        (∀ fuel, bound ≤ fuel → chosen.navigation services loc fuel = some navigation) ∧
        (menu.graph.HasStart (services.latitude loc) (services.longitude loc) chosen.selectedNavLoc →
          ∃ first, store.HasNode first ∧ first.id ≠ entrance.id ∧
            (store.Connected first.id entrance.id →
              store.Route first.id entrance.id navigation.path ∧
                Honest services.distance navigation entrance.parsed.navLoc) ∧
            (¬ store.Connected first.id entrance.id →
              navigation.path = [first.parsed.navLoc])) ∧
        (¬ menu.graph.HasStart (services.latitude loc) (services.longitude loc)
            chosen.selectedNavLoc → navigation.path = [user.toNavigationLocation]) := by
  intro store chosen user
  have kept : store.WellFormed := formed.calls order operations
  have lies : store.Lies ((writes ++ (writes.foldl Database.apply ⟨none, ∅, ∅⟩).editorWrites order
      operations).foldl Stored.apply Tree.empty) := by
    have built := Database.lies_empty.foldl
      (writes ++ (writes.foldl Database.apply ⟨none, ∅, ∅⟩).editorWrites order operations)
    rwa [List.foldl_append, Database.foldl_editorWrites] at built
  obtain ⟨waits, loads⟩ := kept.launch lies nodeOrder edgeOrder
  have drawn : store.edges.entries ≠ [] := by
    intro empty
    cases (waits empty).symm.trans loaded
  obtain ⟨manager, same, mirrored⟩ := loads drawn
  cases loaded.symm.trans same
  have mirrors := mirrored spread
  obtain ⟨occupied, _, entrances⟩ := mirrors.entrance contains rows listed
  obtain ⟨member, nearest⟩ : chosen.selectedNavLoc ∈ row.nodes ∧ ∀ object ∈ row.nodes,
      user.cost chosen.selectedNavLoc.toNavigationLocation ≤
        user.cost object.toNavigationLocation :=
    Selection.didSelectRowAt_nearest rfl occupied menu
  obtain ⟨_, entrance, present, ends, named⟩ := entrances chosen.selectedNavLoc member
  refine ⟨entrance, present, ends, named, fun object other => ?_, ?_⟩
  · rw [← ends]
    exact nearest object other
  · exact mirrors.selection kept spread services.distance chosen.order chosen.visits _ _ present ends

section Examples

def joinedGraph : DataManager Int ℚ :=
  (viewDidLoadFields .asStored .asStored joinedPlacesTree joinedPlacesTree).join.getD .empty

theorem joinedGraph_loaded :
    viewDidLoadFields .asStored .asStored joinedPlacesTree joinedPlacesTree =
      some (some joinedGraph) := by
  have loads : (viewDidLoadFields .asStored .asStored joinedPlacesTree joinedPlacesTree).join.isSome
      = true := by decide +kernel
  obtain ⟨graph, loaded⟩ := Option.isSome_iff_exists.mp loads
  rw [joinedGraph, loaded]
  exact Option.join_eq_some_iff.mp loaded

/-- Three degrees south of the library the way to Darden is by the library. -/
theorem menu_leads_to_entrance_joinedPlaces :
    ∃ row ∈ DataManager.initBuildingsArray containsIgnoringCase .asStored joinedGraph [],
      ∃ navigation bound, row.name = "Darden" ∧
        (∀ fuel, bound ≤ fuel → ((⟨joinedGraph, .asStored, listOrder _, DataManager.temp 0 0⟩ :
          Selection ℚ).didSelectRowAt streetServices ⟨some (-3, 0), none⟩ row).navigation
            streetServices (-3, 0) fuel = some navigation) ∧
        joinedPlacesStore.Route 1 2 navigation.path := by
  have ids : ∀ node ∈ joinedPlacesStore.nodes.values, node.id = 1 ∨
      node.id = 2 := by decide +kernel
  have darden : ∀ node ∈ joinedPlacesStore.nodes.values,
      containsIgnoringCase node.description "Darden" = true → node.id = 2 := by decide +kernel
  have listed : ∃ row ∈ DataManager.initBuildingsArray containsIgnoringCase .asStored joinedGraph [],
      row.name = "Darden" ∧ joinedGraph.HasStart (-3) 0
        (DataManager.findClosestEntrance (-3) 0 row.nodes) := by
    decide +kernel
  obtain ⟨row, listed, named, start⟩ := listed
  obtain ⟨entrance, present, _, holds, _, navigation, bound, settled, leads, _⟩ :=
    menu_leads_to_entrance streetServices containsIgnoringCase .asStored .asStored .asStored .asStored
      firstWrites joinedPlaces emptyCampus_wellFormed (spread_of_values (by decide +kernel))
      ⟨joinedGraph, .asStored, listOrder _, DataManager.temp 0 0⟩ joinedGraph_loaded (-3, 0) none row
      listed
  obtain ⟨first, found, different, route, _⟩ := leads start
  rw [named] at holds
  have goal := darden entrance (Dictionary.mem_values.mpr ⟨_, present⟩) holds
  have source := (ids first (Dictionary.mem_values.mpr ⟨_, found⟩)).resolve_right
    fun same => different (same.trans goal.symm)
  rw [source, goal] at route
  exact ⟨row, listed, navigation, bound, named, settled, (route joinedPlaces_joined).1⟩

end Examples

end AugmentedCampus
