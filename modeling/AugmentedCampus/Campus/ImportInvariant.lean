import AugmentedCampus.Campus.DataManager
import AugmentedCampus.Foundation.GuardedLog

/-! Which nodes and connections the import leaves, against what is recorded. -/
namespace AugmentedCampus

open Foundation

universe u v

namespace DataManager

variable {Id : Type u} {K : Type v} [DecidableEq Id] [DecidableEq K]

/-- The edges in `made` have been gone through. -/
structure Imported (nodes : List (NodeRecord Id K)) (made : List (EdgeRecord Id K))
    (manager : DataManager Id K) : Prop where
  recorded : ∀ id location, manager.getNode id = some location →
    ∃ node ∈ nodes, node.id = id ∧ location.toNavigationLocation = node.navLoc
  complete : ∀ node ∈ nodes, ∃ location, manager.getNode node.id = some location
  sound : ∀ id location, manager.getNode id = some location →
    ∀ neighbour ∈ location.connectedNodes.elements,
      ∃ edge ∈ made, ∃ node ∈ nodes,
        edge.fromNode = id ∧ edge.toNode = node.id ∧ neighbour = node.navLoc
  covered : ∀ edge ∈ made, ∀ location, manager.getNode edge.fromNode = some location →
    ∃ node ∈ nodes, node.id = edge.toNode ∧ location.connectedNodes.contains node.navLoc = true

/-- The state of the manager when the edge loop is entered. -/
theorem imported_nodes (nodes : List (NodeRecord Id K)) :
    Imported nodes [] (nodes.foldl addNode empty) where
  recorded id location found := by
    rcases getNode_addNodes empty nodes id with ⟨_, absent⟩ | ⟨node, member, own, last⟩
    · cases absent.symm.trans found
    · cases last.symm.trans found
      exact ⟨node, member, own, rfl⟩
  complete node member := by
    rcases getNode_addNodes empty nodes node.id with ⟨absent, _⟩ | ⟨later, _, _, last⟩
    · exact absurd rfl (absent node member)
    · exact ⟨_, last⟩
  sound id location found neighbour connected := by
    rcases getNode_addNodes empty nodes id with ⟨_, absent⟩ | ⟨node, member, own, last⟩
    · cases absent.symm.trans found
    · cases last.symm.trans found
      cases connected
  covered edge member := by cases member

variable {nodes : List (NodeRecord Id K)} {made : List (EdgeRecord Id K)}
  {manager later : DataManager Id K}

/-- The step lemma of the edge loop. -/
theorem Imported.addEdge (imported : Imported nodes made manager) {edge : EdgeRecord Id K}
    (added : manager.addEdge edge = some later) : Imported nodes (made ++ [edge]) later := by
  obtain ⟨source, target, from_, to_, result⟩ := getNode_addEdge added
  obtain ⟨record, listed, own, same⟩ := imported.recorded edge.toNode target to_
  refine ⟨fun id location found => ?_, fun node member => ?_, fun id location found => ?_,
    fun other member location found => ?_⟩
  · rw [result] at found
    by_cases here : id = edge.fromNode
    · rw [if_pos here] at found
      cases found
      obtain ⟨node, known, carries, equal⟩ := imported.recorded edge.fromNode source from_
      exact ⟨node, known, carries.trans here.symm, equal⟩
    · exact imported.recorded id location (by simpa [here] using found)
  · rw [result]
    by_cases here : node.id = edge.fromNode
    · exact ⟨_, if_pos here⟩
    · simpa [here] using imported.complete node member
  · intro neighbour connected
    rw [result] at found
    by_cases here : id = edge.fromNode
    · rw [if_pos here] at found
      cases found
      rcases DistinctSet.mem_insert_cases connected with old | rfl
      · obtain ⟨earlier, before, node, known, leaves, enters, equal⟩ :=
          imported.sound edge.fromNode source from_ neighbour old
        exact ⟨earlier, by simp [before], node, known, leaves.trans here.symm, enters, equal⟩
      · exact ⟨edge, by simp, record, listed, here.symm, own.symm, same⟩
    · obtain ⟨earlier, before, rest⟩ :=
        imported.sound id location (by simpa [here] using found) neighbour connected
      exact ⟨earlier, by simp [before], rest⟩
  · rw [result] at found
    rcases List.mem_append.mp member with before | last
    · by_cases here : other.fromNode = edge.fromNode
      · rw [if_pos here] at found
        cases found
        obtain ⟨node, known, carries, present⟩ :=
          imported.covered other before source (here ▸ from_)
        exact ⟨node, known, carries, DistinctSet.contains_insert_of_contains present⟩
      · exact imported.covered other before location (by simpa [here] using found)
    · cases List.mem_singleton.mp last
      rw [if_pos rfl] at found
      cases found
      refine ⟨record, listed, own, ?_⟩
      rw [← same]
      exact DistinctSet.contains_insert_self _ _

/-- The run lemma of the edge loop. -/
theorem Imported.addEdges (imported : Imported nodes made manager)
    {edges : List (EdgeRecord Id K)} (added : edges.foldlM DataManager.addEdge manager = some later) :
    Imported nodes (made ++ edges) later :=
  foldlM_keeps (fun _ _ _ _ holds added => holds.addEdge added) imported added

theorem Imported.congr {listed : List (NodeRecord Id K)} {drawn : List (EdgeRecord Id K)}
    (imported : Imported nodes made manager) (same : ∀ node, node ∈ nodes ↔ node ∈ listed)
    (equal : ∀ edge, edge ∈ made ↔ edge ∈ drawn) : Imported listed drawn manager where
  recorded := by simpa only [same] using imported.recorded
  complete := by simpa only [same] using imported.complete
  sound := by simpa only [same, equal] using imported.sound
  covered := by simpa only [same, equal] using imported.covered

/-- Objects lie under their own ids, and a reference in a set leads to the object
under its id. -/
structure Referenced (manager : DataManager Id K) : Prop where
  own : ∀ id location, manager.getNode id = some location → location.id = id
  target : ∀ id location, manager.getNode id = some location →
    ∀ neighbour ∈ location.connectedNodes.elements,
      ∃ node, manager.getNode neighbour.id = some node ∧ node.toNavigationLocation = neighbour

theorem Referenced.mem_values (referenced : manager.Referenced) {node : NavigationNode Id K} :
    node ∈ manager.navLocations.values ↔ manager.getNode node.id = some node := by
  rw [Dictionary.mem_values]
  constructor
  · intro stored
    obtain ⟨id, found⟩ := stored
    rwa [referenced.own id node found]
  · exact fun found => ⟨_, found⟩

theorem referenced_nodes (nodes : List (NodeRecord Id K)) :
    Referenced (nodes.foldl addNode empty) where
  own id location found := by
    rcases getNode_addNodes empty nodes id with ⟨_, absent⟩ | ⟨node, _, own, last⟩
    · cases absent.symm.trans found
    · cases last.symm.trans found
      exact own
  target id location found neighbour connected := by
    rcases getNode_addNodes empty nodes id with ⟨_, absent⟩ | ⟨node, _, _, last⟩
    · cases absent.symm.trans found
    · cases last.symm.trans found
      cases connected

theorem Referenced.addEdge (referenced : manager.Referenced) {edge : EdgeRecord Id K}
    (added : manager.addEdge edge = some later) : later.Referenced := by
  obtain ⟨source, target, from_, to_, result⟩ := getNode_addEdge added
  -- A connection changes no constant field of any object.
  have stays {id : Id} {location : NavigationNode Id K}
      (found : manager.getNode id = some location) :
      ∃ node, later.getNode id = some node ∧
        node.toNavigationLocation = location.toNavigationLocation := by
    rw [result]
    by_cases here : id = edge.fromNode
    · subst id
      cases from_.symm.trans found
      exact ⟨_, if_pos rfl, rfl⟩
    · exact ⟨location, by rw [if_neg here, found], rfl⟩
  refine ⟨fun id location found => ?_, fun id location found neighbour connected => ?_⟩
  · rw [result] at found
    by_cases here : id = edge.fromNode
    · rw [if_pos here] at found
      cases found
      exact (referenced.own edge.fromNode source from_).trans here.symm
    · exact referenced.own id location (by simpa [here] using found)
  · rw [result] at found
    have old {node : NavigationNode Id K} (place : Id) (known : manager.getNode place = some node)
        (member : neighbour ∈ node.connectedNodes.elements) :
        ∃ node, later.getNode neighbour.id = some node ∧
          node.toNavigationLocation = neighbour := by
      obtain ⟨reached, there, same⟩ := referenced.target place node known neighbour member
      obtain ⟨node, present, equal⟩ := stays there
      exact ⟨node, present, equal.trans same⟩
    by_cases here : id = edge.fromNode
    · rw [if_pos here] at found
      cases found
      rcases DistinctSet.mem_insert_cases connected with earlier | rfl
      · exact old edge.fromNode from_ earlier
      · rw [referenced.own edge.toNode target to_]
        exact stays to_
    · exact old id (by simpa [here] using found) connected

/-- The graph of a finished import. -/
theorem referenced_of_convert {nodeOrder : Dictionary.Order String (NodeRecord Id K)}
    {edgeOrder : Dictionary.Order String (EdgeRecord Id K)}
    {nodes : Dictionary String (NodeRecord Id K)} {edges : Dictionary String (EdgeRecord Id K)}
    (converted : convertToNavigationLocations nodeOrder edgeOrder empty nodes edges =
      some manager) : manager.Referenced :=
  foldlM_preserves Referenced (fun _ _ _ holds added => holds.addEdge added) (referenced_nodes _)
    converted

section Dictionaries

variable (nodes : Dictionary String (NodeRecord Id K)) (edges : Dictionary String (EdgeRecord Id K))

/-- The loaded graph is the recorded one. -/
structure Represents (manager : DataManager Id K) : Prop where
  present : ∀ id, manager.getNode id ≠ none ↔ ∃ node ∈ nodes.values, node.id = id
  carried : ∀ node ∈ nodes.values, ∀ location, manager.getNode node.id = some location →
    location.latitude = node.latitude ∧ location.longitude = node.longitude ∧
      location.name = node.description
  connected : ∀ i j,
    (∃ location, manager.getNode i = some location ∧
      ∃ neighbour ∈ location.connectedNodes.elements, neighbour.id = j) ↔
      ∃ edge ∈ edges.values, edge.fromNode = i ∧ edge.toNode = j

/-- No node has recorded edges to two nodes at the same coordinates. -/
def Apart : Prop :=
  ∀ first ∈ edges.values, ∀ second ∈ edges.values, first.fromNode = second.fromNode →
    ∀ one ∈ nodes.values, one.id = first.toNode →
      ∀ other ∈ nodes.values, other.id = second.toNode →
        (one.navLoc == other.navLoc) = true → one.id = other.id

variable {nodes edges}

theorem Imported.represents (distinct : (nodes.values.map NodeRecord.id).Nodup)
    (resolved : ∀ edge ∈ edges.values, ∃ node ∈ nodes.values, node.id = edge.fromNode)
    (imported : Imported nodes.values edges.values manager) (apart : Apart nodes edges) :
    manager.Represents nodes edges where
  present id := by
    constructor
    · intro found
      obtain ⟨location, found⟩ := Option.ne_none_iff_exists'.mp found
      obtain ⟨node, member, own, _⟩ := imported.recorded id location found
      exact ⟨node, member, own⟩
    · intro recorded
      obtain ⟨node, member, rfl⟩ := recorded
      obtain ⟨location, found⟩ := imported.complete node member
      simp [found]
  carried node member location found := by
    obtain ⟨record, listed, own, same⟩ := imported.recorded node.id location found
    have equal : record = node := List.inj_on_of_nodup_map distinct listed member own
    rw [same, equal]
    exact ⟨rfl, rfl, rfl⟩
  connected i j := by
    constructor
    · intro joined
      obtain ⟨location, found, neighbour, member, rfl⟩ := joined
      obtain ⟨edge, made, node, _, leaves, enters, rfl⟩ :=
        imported.sound i location found neighbour member
      exact ⟨edge, made, leaves, enters⟩
    · intro recorded
      obtain ⟨edge, made, rfl, rfl⟩ := recorded
      obtain ⟨start, listed, own⟩ := resolved edge made
      obtain ⟨location, found⟩ := imported.complete start listed
      rw [own] at found
      obtain ⟨node, known, carries, present⟩ := imported.covered edge made location found
      -- The set holds something at these coordinates; by `apart` it is the node itself.
      obtain ⟨neighbour, member, same⟩ := DistinctSet.contains_iff.mp present
      obtain ⟨other, placed, kept, there, leaves, enters, rfl⟩ :=
        imported.sound edge.fromNode location found neighbour member
      refine ⟨location, found, kept.navLoc, member, ?_⟩
      rw [← carries]
      exact apart other placed edge made leaves kept there enters.symm node known carries same

theorem Represents.apart (represents : manager.Represents nodes edges)
    (imported : Imported nodes.values edges.values manager)
    (distinct : (nodes.values.map NodeRecord.id).Nodup) : Apart nodes edges := by
  intro first made second later leaves one listed arrives other known enters same
  -- Both targets are in the set, which holds no two elements that `==` identifies.
  obtain ⟨location, found, left, member, leftId⟩ :=
    (represents.connected first.fromNode first.toNode).mpr ⟨first, made, rfl, rfl⟩
  obtain ⟨again, refound, right, present, rightId⟩ :=
    (represents.connected first.fromNode second.toNode).mpr ⟨second, later, leaves.symm, rfl⟩
  cases found.symm.trans refound
  have located {neighbour : NavigationLocation Id K} (node : NodeRecord Id K)
      (recorded : node ∈ nodes.values) (own : neighbour.id = node.id)
      (connected : neighbour ∈ location.connectedNodes.elements) : neighbour = node.navLoc := by
    obtain ⟨_, _, record, there, _, _, rfl⟩ :=
      imported.sound first.fromNode location found neighbour connected
    rw [List.inj_on_of_nodup_map distinct there recorded own]
  have leftNode := located one listed (leftId.trans arrives.symm) member
  have rightNode := located other known (rightId.trans enters.symm) present
  subst leftNode rightNode
  exact congrArg NavigationLocation.id (DistinctSet.eq_of_beq member present same)

instance : Decidable (Apart nodes edges) := by unfold Apart; infer_instance

/-- In every iteration order the import gives back the recorded graph exactly
when no node has recorded edges to two nodes at the same coordinates. -/
theorem convert_represents_iff (nodeOrder : Dictionary.Order String (NodeRecord Id K))
    (edgeOrder : Dictionary.Order String (EdgeRecord Id K))
    (nodes : Dictionary String (NodeRecord Id K)) (edges : Dictionary String (EdgeRecord Id K))
    (distinct : (nodes.values.map NodeRecord.id).Nodup)
    (resolved : ∀ edge ∈ edges.values, (∃ node ∈ nodes.values, node.id = edge.fromNode) ∧
      ∃ node ∈ nodes.values, node.id = edge.toNode) :
    (∃ manager, convertToNavigationLocations nodeOrder edgeOrder empty nodes edges = some manager ∧
      manager.Represents nodes edges) ↔ Apart nodes edges := by
  have loaded : convertToNavigationLocations nodeOrder edgeOrder empty nodes edges ≠ none := by
    intro trapped
    obtain ⟨edge, made, missing | missing⟩ := convert_eq_none.mp trapped
    · obtain ⟨node, member, own⟩ := (resolved edge made).1
      exact missing node member own
    · obtain ⟨node, member, own⟩ := (resolved edge made).2
      exact missing node member own
  obtain ⟨manager, converted⟩ := Option.ne_none_iff_exists'.mp loaded
  have imported : Imported nodes.values edges.values manager :=
    ((imported_nodes (nodeOrder.arrange nodes)).addEdges converted).congr
      (fun node => (nodeOrder.perm nodes).mem_iff) (fun edge => by
        simpa using (edgeOrder.perm edges).mem_iff)
  constructor
  · intro loads
    obtain ⟨_, found, represents⟩ := loads
    cases converted.symm.trans found
    exact represents.apart imported distinct
  · intro apart
    exact ⟨manager, converted,
      imported.represents distinct (fun edge made => (resolved edge made).1) apart⟩

end Dictionaries

end DataManager

/-- Two floors of one building, each joined to the library. -/
def stackedNodes : Dictionary String (NodeRecord Int ℚ) :=
  [("node001", ⟨1, "Library", 0, 0⟩), ("node002", ⟨2, "Darden, first floor", 3, 4⟩),
    ("node003", ⟨3, "Darden, second floor", 3, 4⟩)].foldl
    (fun nodes entry => nodes.insert entry.1 entry.2) ∅

def stackedEdges : Dictionary String (EdgeRecord Int ℚ) :=
  [⟨"node001_node002", 1, 2, false, 5⟩, ⟨"node002_node001", 2, 1, false, 5⟩,
    ⟨"node001_node003", 1, 3, true, 5⟩, ⟨"node003_node001", 3, 1, true, 5⟩].foldl
    (fun edges edge => edges.insert edge.id edge) ∅

theorem convert_represents_iff_stackedNodes :
    ∃ manager, DataManager.convertToNavigationLocations .asStored .asStored .empty stackedNodes
        (stackedEdges.erase "node001_node003") = some manager ∧
      manager.Represents stackedNodes (stackedEdges.erase "node001_node003") :=
  (DataManager.convert_represents_iff .asStored .asStored stackedNodes
    (stackedEdges.erase "node001_node003") (by decide +kernel) (by decide +kernel)).mpr
      (by decide +kernel)

/-- With all four edges recorded, one floor is no neighbour of the library after the import. -/
theorem convert_drops_neighbour :
    (stackedNodes.values.map NodeRecord.id).Nodup ∧
      (∀ edge ∈ stackedEdges.values, (∃ node ∈ stackedNodes.values, node.id = edge.fromNode) ∧
        ∃ node ∈ stackedNodes.values, node.id = edge.toNode) ∧
      ¬ ∃ manager, DataManager.convertToNavigationLocations .asStored .asStored .empty
          stackedNodes stackedEdges = some manager ∧
        manager.Represents stackedNodes stackedEdges := by
  refine ⟨by decide +kernel, by decide +kernel, ?_⟩
  intro loads
  obtain ⟨manager, converted, represents⟩ := loads
  have neighbours : (DataManager.convertToNavigationLocations .asStored .asStored .empty
      stackedNodes stackedEdges).map (fun manager => (manager.getNode 1).map fun location =>
        location.connectedNodes.elements.map NavigationLocation.id) = some (some [3]) := by
    decide +kernel
  have recorded (id : Int) (target : id = 2 ∨ id = 3) :
      ∃ edge ∈ stackedEdges.values, edge.fromNode = 1 ∧ edge.toNode = id := by
    rcases target with rfl | rfl <;> decide +kernel
  obtain ⟨location, found, neighbour, member, own⟩ :=
    (represents.connected 1 2).mpr (recorded 2 (.inl rfl))
  rw [converted, Option.map_some, found, Option.map_some, Option.some.injEq,
    Option.some.injEq] at neighbours
  have listed : neighbour.id ∈ location.connectedNodes.elements.map NavigationLocation.id :=
    List.mem_map_of_mem member
  rw [neighbours, own] at listed
  cases List.mem_singleton.mp listed

end AugmentedCampus
