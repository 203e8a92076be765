import AugmentedCampus.Campus.Navigation
import AugmentedCampus.Campus.Snapshot
import AugmentedCampus.Editor.Consistency

/-! From the records of a well-formed store to the routes of the app: the loaded graph is
the stored one, and a route goes along stored edges and is as long as they say. -/
namespace AugmentedCampus

open Foundation

universe v

variable {K : Type v}

namespace Database

/-- A stored edge leads from the first node to the second. -/
def Joined (store : Database K) (i j : Nat) : Prop :=
  ∃ edge, store.HasEdge edge ∧ edge.fromNode = i ∧ edge.toNode = j

def Connected (store : Database K) (i j : Nat) : Prop := Relation.ReflTransGen store.Joined i j

/-- The stored weight of the edge. -/
def stretch [Zero K] (store : Database K) (i j : Nat) : K :=
  match store.edges.lookup (edgeKey i j) with
  | some edge => edge.weight
  | none => 0

/-- `node` is the stored node of its id. -/
def HasNode (store : Database K) (node : NodeRecord Nat K) : Prop :=
  store.nodes.lookup (nodeKey node.id) = some node

/-- No two stored nodes are at the same coordinates. -/
def Spread (store : Database K) : Prop :=
  ∀ first second, store.HasNode first → store.HasNode second →
    first.latitude = second.latitude → first.longitude = second.longitude → first.id = second.id

variable {store : Database K}

theorem Keyed.hasNode (keyed : store.Keyed) {key : String} {node : NodeRecord Nat K}
    (found : store.nodes.lookup key = some node) : store.HasNode node := by
  rwa [HasNode, ← keyed.node key node found]

theorem HasNode.eq {first second : NodeRecord Nat K} (one : store.HasNode first)
    (other : store.HasNode second) (same : first.id = second.id) : first = second := by
  unfold HasNode at one
  rw [same] at one
  exact Option.some.inj (one.symm.trans other)

theorem Keyed.stores_iff_hasNode (keyed : store.Keyed) {id : Nat} :
    store.Stores id ↔ ∃ node, store.HasNode node ∧ node.id = id := by
  constructor
  · rintro ⟨key, node, found, own⟩
    exact ⟨node, keyed.hasNode found, own⟩
  · rintro ⟨node, found, own⟩
    exact ⟨_, node, found, own⟩

section WellFormed

variable [Ring K] [SquareRoot K]

theorem WellFormed.joined_comm (formed : store.WellFormed) {i j : Nat} (joined : store.Joined i j) :
    store.Joined j i := by
  obtain ⟨edge, found, rfl, rfl⟩ := joined
  exact ⟨_, formed.reversed edge found, rfl, rfl⟩

/-- There is a way back. -/
theorem WellFormed.connected_comm (formed : store.WellFormed) {i j : Nat} :
    store.Connected i j ↔ store.Connected j i := by
  have turned {i j : Nat} (connected : store.Connected i j) : store.Connected j i := by
    induction connected with
    | refl => exact .refl
    | tail _ joined ih => exact .head (formed.joined_comm joined) ih
  exact ⟨turned, turned⟩

/-- A stored weight is the cost of the way between the stored ends. -/
theorem WellFormed.stretch_eq (formed : store.WellFormed) {first second : NodeRecord Nat K}
    (one : store.HasNode first) (other : store.HasNode second)
    (joined : store.Joined first.id second.id) :
    store.stretch first.id second.id = first.navLoc.cost second.navLoc := by
  obtain ⟨edge, found, leaves, enters⟩ := joined
  obtain ⟨fNode, tNode, left, right, weight⟩ := formed.weighted edge found
  have stored := formed.keyed.hasEdge_iff.mp found
  rw [formed.keyed.edge_id found, leaves, enters] at stored
  rw [leaves, one] at left
  rw [enters, other] at right
  cases left
  cases right
  rw [stretch, stored]
  exact weight

end WellFormed

section Parsed

theorem Keyed.mem_parsedNodes (keyed : store.Keyed) {record : NodeRecord Int K} :
    record ∈ store.parsedNodes.values ↔ ∃ node, store.HasNode node ∧ record = node.parsed := by
  simp only [parsedNodes, Dictionary.values_convertValues, List.mem_filterMap, Option.some.injEq,
    Dictionary.mem_values]
  constructor
  · rintro ⟨node, ⟨key, found⟩, rfl⟩
    exact ⟨node, keyed.hasNode found, rfl⟩
  · rintro ⟨node, found, rfl⟩
    exact ⟨node, ⟨_, found⟩, rfl⟩

theorem HasNode.eq_of_parsed {first second : NodeRecord Nat K} (one : store.HasNode first)
    (other : store.HasNode second) (same : first.parsed.id = second.parsed.id) : first = second :=
  one.eq other (Int.ofNat.inj same)

theorem mem_parsedEdges {record : EdgeRecord Int K} :
    record ∈ store.parsedEdges.values ↔ ∃ edge, store.HasEdge edge ∧ record = edge.parsed := by
  simp only [parsedEdges, Dictionary.values_convertValues, List.mem_filterMap, Option.some.injEq,
    Dictionary.mem_values]
  exact exists_congr fun edge => and_congr_right fun _ => eq_comm

end Parsed

end Database

namespace DataManager

variable [DecidableEq K] {store : Database K} {manager : DataManager Int K}

/-- The loaded graph is the stored one. -/
structure Mirrors (manager : DataManager Int K) (store : Database K) : Prop where
  referenced : manager.Referenced
  loaded : ∀ node, store.HasNode node → ∃ location, manager.getNode node.id = some location ∧
    location.toNavigationLocation = node.parsed.navLoc
  stored : ∀ id location, manager.getNode id = some location →
    ∃ node, store.HasNode node ∧ location.toNavigationLocation = node.parsed.navLoc
  connected : ∀ location node, manager.getNode node.id = some location → store.HasNode node →
    ∀ next, next ∈ location.connectedNodes.elements ↔
      ∃ target, store.HasNode target ∧ next = target.parsed.navLoc ∧ store.Joined node.id target.id

/-- Every import of a well-formed store ends. -/
theorem exists_convert [Ring K] [SquareRoot K] (formed : store.WellFormed)
    (nodeOrder : Dictionary.Order String (NodeRecord Int K))
    (edgeOrder : Dictionary.Order String (EdgeRecord Int K)) :
    ∃ manager, convertToNavigationLocations nodeOrder edgeOrder empty store.parsedNodes
      store.parsedEdges = some manager := by
  refine Option.ne_none_iff_exists'.mp fun trapped => ?_
  obtain ⟨record, listed, missing⟩ := convert_eq_none.mp trapped
  obtain ⟨edge, found, rfl⟩ := Database.mem_parsedEdges.mp listed
  obtain ⟨leaves, enters⟩ := formed.safe.resolvable edge found
  have absurd_ {id : Nat} (stored : store.Stores id)
      (absent : ∀ node ∈ store.parsedNodes.values, node.id ≠ (id : Int)) : False := by
    obtain ⟨node, present, rfl⟩ := formed.keyed.stores_iff_hasNode.mp stored
    exact absent node.parsed (formed.keyed.mem_parsedNodes.mpr ⟨node, present, rfl⟩) rfl
  rcases missing with absent | absent
  · exact absurd_ leaves absent
  · exact absurd_ enters absent

/-- If no two nodes are at the same coordinates, it ends with the stored graph. -/
theorem mirrors_of_convert [Ring K] [SquareRoot K] (formed : store.WellFormed)
    (spread : store.Spread) {nodeOrder : Dictionary.Order String (NodeRecord Int K)}
    {edgeOrder : Dictionary.Order String (EdgeRecord Int K)} {manager : DataManager Int K}
    (converted : convertToNavigationLocations nodeOrder edgeOrder empty store.parsedNodes
      store.parsedEdges = some manager) : manager.Mirrors store := by
  have keyed := formed.keyed
  have referenced := referenced_of_convert converted
  have imported : Imported store.parsedNodes.values store.parsedEdges.values manager :=
    ((imported_nodes (nodeOrder.arrange store.parsedNodes)).addEdges converted).congr
      (fun node => (nodeOrder.perm _).mem_iff) (fun edge => by
        simpa using (edgeOrder.perm _).mem_iff)
  refine ⟨referenced, fun node found => ?_, fun id location found => ?_,
    fun location node found here next => ?_⟩
  · obtain ⟨location, loaded⟩ :=
      imported.complete node.parsed (keyed.mem_parsedNodes.mpr ⟨node, found, rfl⟩)
    obtain ⟨record, listed, own, same⟩ := imported.recorded node.parsed.id location loaded
    obtain ⟨other, present, rfl⟩ := keyed.mem_parsedNodes.mp listed
    obtain rfl := present.eq_of_parsed found own
    exact ⟨location, loaded, same⟩
  · obtain ⟨record, listed, own, same⟩ := imported.recorded id location found
    obtain ⟨node, present, rfl⟩ := keyed.mem_parsedNodes.mp listed
    exact ⟨node, present, same⟩
  · constructor
    · intro member
      obtain ⟨record, drawn, entry, listed, leaves, enters, rfl⟩ :=
        imported.sound node.id location found next member
      obtain ⟨edge, made, rfl⟩ := Database.mem_parsedEdges.mp drawn
      obtain ⟨target, present, rfl⟩ := keyed.mem_parsedNodes.mp listed
      exact ⟨target, present, rfl, edge, made, Int.ofNat.inj leaves, Int.ofNat.inj enters⟩
    · rintro ⟨target, present, rfl, edge, made, leaves, enters⟩
      have from_ : manager.getNode edge.parsed.fromNode = some location := by
        rw [EdgeRecord.parsed, leaves]
        exact found
      obtain ⟨record, listed, arrives, known⟩ :=
        imported.covered edge.parsed (Database.mem_parsedEdges.mpr ⟨edge, made, rfl⟩) location from_
      obtain ⟨other, there, rfl⟩ := keyed.mem_parsedNodes.mp listed
      obtain rfl := there.eq_of_parsed present (arrives.trans (congrArg Nat.cast enters))
      -- What stands in the set at these coordinates is the target: no other node is there.
      obtain ⟨element, member, same⟩ := DistinctSet.contains_iff.mp known
      obtain ⟨_, _, entry, placed, _, _, rfl⟩ := imported.sound node.id location found element member
      obtain ⟨kept, inside, rfl⟩ := keyed.mem_parsedNodes.mp placed
      obtain ⟨latitude, longitude⟩ := NavigationLocation.beq_iff.mp same
      obtain rfl := inside.eq present (spread kept other inside present latitude longitude)
      exact member

end DataManager

/-- The number of a node, as the editor has it. -/
def NavigationLocation.number (location : NavigationLocation Int K) : Nat := location.id.toNat

/-- The route stops at stored nodes, goes along stored edges from one node to the other
without coming to any node twice, and is as long as the stored weights say. -/
structure Database.Route [Ring K] [SquareRoot K] (store : Database K) (i j : Nat)
    (path : List (NavigationLocation Int K)) : Prop where
  stops : ∀ location ∈ path, ∃ node, store.HasNode node ∧ location = node.parsed.navLoc
  walk : IsWalk store.Joined i j (path.map NavigationLocation.number)
  distinct : (path.map NavigationLocation.number).tail.Nodup
  length : walkCost NavigationLocation.cost path =
    walkCost store.stretch (path.map NavigationLocation.number)

namespace DataManager

theorem number_parsed (node : NodeRecord Nat K) : node.parsed.navLoc.number = node.id :=
  Int.toNat_natCast node.id

theorem parsed_injective {store : Database K} {first second : NodeRecord Nat K} (one : store.HasNode first)
    (other : store.HasNode second) (same : first.parsed.navLoc = second.parsed.navLoc) :
    first = second :=
  one.eq_of_parsed other (congrArg NavigationLocation.id same)

section Routes

variable [Field K] [LinearOrder K] [SquareRoot K] {store : Database K} {manager : DataManager Int K}
  {start : NavigationNode Int K}

omit [Field K] [SquareRoot K] in
theorem Mirrors.mem_locations (mirrors : manager.Mirrors store) {location : NavigationLocation Int K} :
    location ∈ manager.navLocations.values.map NavigationNode.toNavigationLocation ↔
      ∃ node, store.HasNode node ∧ location = node.parsed.navLoc := by
  rw [List.mem_map]
  constructor
  · rintro ⟨object, listed, rfl⟩
    exact mirrors.stored object.id object (mirrors.referenced.mem_values.mp listed)
  · rintro ⟨node, found, rfl⟩
    obtain ⟨object, loaded, same⟩ := mirrors.loaded node found
    exact ⟨object, Dictionary.mem_values.mpr ⟨_, loaded⟩, same⟩

/-- The search sees the stored nodes, and tells them apart. -/
def Mirrors.distinctGraph (mirrors : manager.Mirrors store) (spread : store.Spread)
    (loaded : start ∈ manager.navLocations.values) :
    DistinctGraph (NavigationLocation Int K) K where
  toFiniteGraph := mirrors.referenced.finiteGraph loaded
  separated first one second other := by
    obtain ⟨source, found, rfl⟩ := mirrors.mem_locations.mp one
    obtain ⟨target, present, rfl⟩ := mirrors.mem_locations.mp other
    constructor
    · intro same
      obtain ⟨latitude, longitude⟩ := NavigationLocation.beq_iff.mp same
      rw [found.eq present (spread source target found present latitude longitude)]
    · intro same
      rw [same]
      exact BEq.rfl

section Edges

variable (mirrors : manager.Mirrors store) (loaded : start ∈ manager.navLocations.values)

include mirrors loaded

theorem Mirrors.edge_iff {node : NodeRecord Nat K} (found : store.HasNode node)
    (next : NavigationLocation Int K) :
    (manager.graphNode start).Edge node.parsed.navLoc next ↔
      ∃ target, store.HasNode target ∧ next = target.parsed.navLoc ∧
        store.Joined node.id target.id := by
  obtain ⟨object, there, same⟩ := mirrors.loaded node found
  have member : object ∈ manager.navLocations.values := Dictionary.mem_values.mpr ⟨_, there⟩
  rw [GraphNode.Edge, mirrors.referenced.graphNode loaded, ← same,
    mirrors.referenced.connectedNodes member]
  exact mirrors.connected object node there found next

theorem Mirrors.joined_of_edge {first second : NodeRecord Nat K} (one : store.HasNode first)
    (other : store.HasNode second)
    (edge : (manager.graphNode start).Edge first.parsed.navLoc second.parsed.navLoc) :
    store.Joined first.id second.id := by
  obtain ⟨target, found, same, joined⟩ := (mirrors.edge_iff loaded one _).mp edge
  rwa [parsed_injective other found same]

/-- What can be reached in the loaded graph is what is connected in the store. -/
theorem Mirrors.reaches_iff (formed : store.WellFormed) {first second : NodeRecord Nat K}
    (one : store.HasNode first) (other : store.HasNode second) :
    (manager.graphNode start).Reaches first.parsed.navLoc second.parsed.navLoc ↔
      store.Connected first.id second.id := by
  constructor
  · intro reaches
    have reached (location : NavigationLocation Int K)
        (reaches : (manager.graphNode start).Reaches first.parsed.navLoc location) :
        ∃ node, store.HasNode node ∧ location = node.parsed.navLoc ∧
          store.Connected first.id node.id := by
      induction reaches with
      | refl => exact ⟨first, one, rfl, .refl⟩
      | tail _ edge ih =>
        obtain ⟨node, found, rfl, connected⟩ := ih
        obtain ⟨target, present, rfl, joined⟩ := (mirrors.edge_iff loaded found _).mp edge
        exact ⟨target, present, rfl, connected.tail joined⟩
    obtain ⟨node, found, same, connected⟩ := reached _ reaches
    rwa [parsed_injective other found same]
  · intro connected
    have reached (id : Nat) (connected : store.Connected first.id id) :
        ∃ node, store.HasNode node ∧ node.id = id ∧
          (manager.graphNode start).Reaches first.parsed.navLoc node.parsed.navLoc := by
      induction connected with
      | refl => exact ⟨first, one, rfl, .refl⟩
      | tail _ joined ih =>
        obtain ⟨node, found, rfl, reaches⟩ := ih
        obtain ⟨edge, made, leaves, rfl⟩ := joined
        obtain ⟨target, present, own⟩ :=
          formed.keyed.stores_iff_hasNode.mp (formed.safe.resolvable edge made).2
        refine ⟨target, present, own, reaches.tail ?_⟩
        exact (mirrors.edge_iff loaded found _).mpr ⟨target, present, rfl, edge, made, leaves, own.symm⟩
    obtain ⟨node, found, same, reaches⟩ := reached _ connected
    rwa [found.eq other same] at reaches

/-- A walk through the loaded graph is a route of the store. -/
theorem Mirrors.route_of_walk (formed : store.WellFormed) {first second : NodeRecord Nat K}
    (one : store.HasNode first) {path : List (NavigationLocation Int K)}
    (walk : IsWalk (manager.graphNode start).Edge first.parsed.navLoc second.parsed.navLoc path)
    (distinct : path.tail.Nodup) : store.Route first.id second.id path := by
  have stops : ∀ location ∈ path, ∃ node, store.HasNode node ∧ location = node.parsed.navLoc := by
    intro location member
    exact mirrors.mem_locations.mp <| (mirrors.referenced.finiteGraph loaded).walk_listed walk
      (mirrors.mem_locations.mpr ⟨first, one, rfl⟩) location member
  have joins {location next : NavigationLocation Int K} (here : location ∈ path)
      (there : next ∈ path) (edge : (manager.graphNode start).Edge location next) :
      store.Joined location.number next.number ∧
        location.cost next = store.stretch location.number next.number := by
    obtain ⟨node, found, rfl⟩ := stops location here
    obtain ⟨target, present, rfl⟩ := stops next there
    have joined := mirrors.joined_of_edge loaded found present edge
    rw [number_parsed, number_parsed, formed.stretch_eq found present joined]
    exact ⟨joined, rfl⟩
  refine ⟨stops, ?_, ?_, ?_⟩
  · have mapped := walk.map NavigationLocation.number fun location here next there edge =>
      (joins here there edge).1
    rwa [number_parsed, number_parsed] at mapped
  · rw [← List.map_tail]
    refine distinct.map_on fun location here next there same => ?_
    obtain ⟨node, found, rfl⟩ := stops location (List.mem_of_mem_tail here)
    obtain ⟨target, present, rfl⟩ := stops next (List.mem_of_mem_tail there)
    rw [number_parsed, number_parsed] at same
    rw [found.eq present same]
  · exact walk.cost_map NavigationLocation.cost store.stretch NavigationLocation.number
      fun location here next there edge => (joins here there edge).2

end Edges

/-- Between two loaded nodes: the search answers with a route of the store if the two are
connected there, and else with the start alone. -/
theorem Mirrors.route (mirrors : manager.Mirrors store) (formed : store.WellFormed)
    (spread : store.Spread) (visits : IterationOrder (NavigationLocation Int K))
    {goal : NavigationNode Int K} {first second : NodeRecord Nat K} (one : store.HasNode first)
    (other : store.HasNode second) (different : first.id ≠ second.id)
    (loaded : start ∈ manager.navLocations.values)
    (starts : start.toNavigationLocation = first.parsed.navLoc)
    (ends : goal.toNavigationLocation = second.parsed.navLoc) :
    ∃ path, Returns (manager.graphNode start) visits start.toNavigationLocation
        goal.toNavigationLocation path ∧
      (store.Connected first.id second.id → store.Route first.id second.id path) ∧
      (¬ store.Connected first.id second.id → path = [start.toNavigationLocation]) := by
  have member : first.parsed.navLoc ∈ (mirrors.distinctGraph spread loaded).nodes :=
    mirrors.mem_locations.mpr ⟨first, one, rfl⟩
  have target : second.parsed.navLoc ∈ (mirrors.distinctGraph spread loaded).nodes :=
    mirrors.mem_locations.mpr ⟨second, other, rfl⟩
  have apart : first.parsed.navLoc ≠ second.parsed.navLoc :=
    fun same => different (congrArg NodeRecord.id (parsed_injective one other same))
  rw [starts, ends]
  obtain ⟨path, returned, outcome⟩ :=
    findPath_outcome (mirrors.distinctGraph spread loaded).toFiniteGraph visits _
      second.parsed.navLoc member
  have reaches := mirrors.reaches_iff loaded formed one other
  refine ⟨path, returned, fun connected => ?_, fun apart_ => ?_⟩
  · have shape := Outcome.shape member target apart outcome
    obtain ⟨head, last, chain, distinct⟩ := shape.2 (shape.1.mpr (reaches.mpr connected))
    exact mirrors.route_of_walk loaded formed one (.of_chain head last chain) distinct
  · exact Outcome.alone member target apart outcome (mt reaches.mp apart_)

end Routes

end DataManager

section Calls

/-- The writes of complete calls lead where the calls lead. -/
theorem Database.foldl_editorWrites [Ring K] [SquareRoot K] (order : EntryOrder K)
    (store : Database K) (operations : List (Operation K)) :
    (store.editorWrites order operations).foldl apply store =
      operations.foldl (complete order) store := by
  induction operations generalizing store with
  | nil => rfl
  | cons operation rest ih =>
    rw [editorWrites, List.map_cons, callLog, List.foldl_append]
    exact ih _

/-- What a complete call keeps, complete calls keep. -/
theorem Database.WellFormed.calls [CommRing K] [SquareRoot K] {store : Database K}
    (formed : store.WellFormed) (order : EntryOrder K) (operations : List (Operation K)) :
    (operations.foldl (Database.complete order) store).WellFormed := by
  induction operations generalizing store with
  | nil => exact formed
  | cons operation rest ih => exact ih (formed.complete order operation)

/-- An edge has ends. -/
theorem Database.Safe.located {store : Database K} (safe : store.Safe)
    (connected : store.edges.entries ≠ []) : store.nodes.entries ≠ [] := by
  intro empty
  refine connected (Dictionary.entries_eq_nil.mpr fun key => ?_)
  refine Option.eq_none_iff_forall_ne_some.mpr fun edge found => ?_
  obtain ⟨⟨place, node, stored, _⟩, _⟩ := safe.resolvable edge ⟨key, found⟩
  cases (Dictionary.entries_eq_nil.mp empty place).symm.trans stored

variable [Field K] [LinearOrder K] [IsStrictOrderedRing K] [FloorRing K] [SquareRoot K]
  {store : Database K}

/-- A launch on a well-formed store: it waits for the first edge, and then loads the graph. -/
theorem Database.WellFormed.launch (formed : store.WellFormed) {tree : Stored K}
    (lies : store.Lies tree)
    (nodeOrder edgeOrder : Dictionary.Order String (Fields K)) :
    (store.edges.entries = [] → viewDidLoadFields nodeOrder edgeOrder tree tree = none) ∧
      (store.edges.entries ≠ [] → ∃ manager,
        viewDidLoadFields nodeOrder edgeOrder tree tree = some (some manager) ∧
          (store.Spread → manager.Mirrors store)) := by
  obtain ⟨waits, loads⟩ := lies.viewDidLoad lies nodeOrder edgeOrder
  refine ⟨fun empty => waits (.inr empty), fun connected => ?_⟩
  obtain ⟨nodeRecords, edgeRecords, loaded⟩ := loads (formed.safe.located connected) connected
  obtain ⟨manager, converted⟩ := DataManager.exists_convert formed nodeRecords edgeRecords
  exact ⟨manager, by rw [loaded, converted],
    fun spread => DataManager.mirrors_of_convert formed spread converted⟩

/-- Complete calls of the editor, and then a launch of the app. It waits just as long as
no edge is stored, and there is a way back exactly when there is a way. With no two nodes
at the same coordinates, a search of the app from one stored node to another finds a
route of stored edges, as long as their weights say, if the two are connected in the
store, and else stays at its start. -/
theorem launch_routes (order : EntryOrder K) (nodeOrder edgeOrder : Dictionary.Order String (Fields K))
    (writes : List (Write K)) (operations : List (Operation K))
    (formed : (writes.foldl Database.apply ⟨none, ∅, ∅⟩).WellFormed) :
    let start : Database K := writes.foldl Database.apply ⟨none, ∅, ∅⟩
    let store := operations.foldl (Database.complete order) start
    let tree := (writes ++ start.editorWrites order operations).foldl Stored.apply Tree.empty
    (store.edges.entries = [] → viewDidLoadFields nodeOrder edgeOrder tree tree = none) ∧
      (store.edges.entries ≠ [] → ∃ manager,
        viewDidLoadFields nodeOrder edgeOrder tree tree = some (some manager) ∧
        ∀ (visits : IterationOrder (NavigationLocation Int K)) (i j : Nat), store.Stores i →
          store.Stores j → i ≠ j →
          (store.Connected i j ↔ store.Connected j i) ∧ (store.Spread →
          ∃ source goal, manager.getNode i = some source ∧ manager.getNode j = some goal ∧
            ∃ path, Returns (manager.graphNode source) visits source.toNavigationLocation
                goal.toNavigationLocation path ∧
              (store.Connected i j → store.Route i j path) ∧
              (¬ store.Connected i j → path = [source.toNavigationLocation]))) := by
  intro start store tree
  have kept : store.WellFormed := formed.calls order operations
  have lies : store.Lies tree := by
    have built := Database.lies_empty.foldl (writes ++ start.editorWrites order operations)
    rwa [List.foldl_append, Database.foldl_editorWrites] at built
  obtain ⟨waits, loads⟩ := kept.launch lies nodeOrder edgeOrder
  refine ⟨waits, fun connected => ?_⟩
  obtain ⟨manager, loaded, mirrors⟩ := loads connected
  refine ⟨manager, loaded, fun visits i j one other different => ⟨kept.connected_comm,
    fun spread => ?_⟩⟩
  have mirrors := mirrors spread
  obtain ⟨first, found, rfl⟩ := kept.keyed.stores_iff_hasNode.mp one
  obtain ⟨second, present, rfl⟩ := kept.keyed.stores_iff_hasNode.mp other
  obtain ⟨source, there, starts⟩ := mirrors.loaded first found
  obtain ⟨goal, reached, ends⟩ := mirrors.loaded second present
  exact ⟨source, goal, there, reached, mirrors.route kept spread visits found present different
    (Dictionary.mem_values.mpr ⟨_, there⟩) starts ends⟩

end Calls

section Examples

/-- A counter, and then two places and the way between them. -/
def firstWrites : List (Write ℚ) := [.index 0]

def joinedPlaces : List (Operation ℚ) :=
  [.saveNode "Library" (some 0) (some 0), .saveNode "Darden" (some 3) (some 4),
    .saveEdge (.filled true) 1 2 0]

def joinedPlacesStore : Database ℚ :=
  joinedPlaces.foldl (Database.complete .asStored) (firstWrites.foldl Database.apply ⟨none, ∅, ∅⟩)

def joinedPlacesTree : Stored ℚ :=
  (firstWrites ++ (firstWrites.foldl Database.apply ⟨none, ∅, ∅⟩).editorWrites .asStored
    joinedPlaces).foldl Stored.apply Tree.empty

theorem spread_of_values {store : Database K}
    (apart : ∀ first ∈ store.nodes.values, ∀ second ∈ store.nodes.values,
      first.latitude = second.latitude → first.longitude = second.longitude →
        first.id = second.id) : store.Spread :=
  fun first second one other => apart first (Dictionary.mem_values.mpr ⟨_, one⟩) second
    (Dictionary.mem_values.mpr ⟨_, other⟩)

theorem joinedPlaces_joined : joinedPlacesStore.Connected 1 2 :=
  .single ⟨⟨"node001_node002", 1, 2, true, 5⟩, ⟨"node001_node002", by decide +kernel⟩, rfl, rfl⟩

theorem launch_routes_joinedPlaces :
    ∃ manager source goal path,
      viewDidLoadFields .asStored .asStored joinedPlacesTree joinedPlacesTree = some (some manager) ∧
        manager.getNode 1 = some source ∧ manager.getNode 2 = some goal ∧
        Returns (manager.graphNode source) (listOrder _) source.toNavigationLocation
          goal.toNavigationLocation path ∧
        joinedPlacesStore.Route 1 2 path := by
  have formed : (firstWrites.foldl Database.apply ⟨none, ∅, ∅⟩).WellFormed :=
    emptyCampus_wellFormed
  have spread : joinedPlacesStore.Spread := spread_of_values (by decide +kernel)
  have drawn : joinedPlacesStore.edges.entries ≠ [] := by decide +kernel
  obtain ⟨manager, loaded, routes⟩ :=
    (launch_routes .asStored .asStored .asStored firstWrites joinedPlaces formed).2 drawn
  have one : joinedPlacesStore.Stores 1 := ⟨"node001", ⟨1, "Library", 0, 0⟩, by decide +kernel, rfl⟩
  have other : joinedPlacesStore.Stores 2 := ⟨"node002", ⟨2, "Darden", 3, 4⟩, by decide +kernel, rfl⟩
  obtain ⟨_, found⟩ := routes (listOrder _) 1 2 one other (by decide)
  obtain ⟨source, goal, there, reached, path, returned, route, _⟩ := found spread
  exact ⟨manager, source, goal, path, loaded, there, reached, returned, route joinedPlaces_joined⟩

end Examples

end AugmentedCampus
