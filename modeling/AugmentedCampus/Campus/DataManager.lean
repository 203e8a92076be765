import AugmentedCampus.Campus.NavigationLocation
import AugmentedCampus.Editor.Database

/-! The import of the stored records into node objects. -/
namespace AugmentedCampus

open Foundation

universe u v

/-- A node object. Its set holds references to node objects; only `connectedNodes`
ever changes, so a reference is written as the constant fields behind it. -/
structure NavigationNode (Id : Type u) (K : Type v) [DecidableEq K] extends
    NavigationLocation Id K where
  connectedNodes : DistinctSet (NavigationLocation Id K)

/-- `makeConnection(to:)` -/
def NavigationNode.makeConnection {Id : Type u} {K : Type v} [DecidableEq K]
    (location : NavigationNode Id K) (node : NavigationLocation Id K) : NavigationNode Id K :=
  { location with connectedNodes := location.connectedNodes.insert node }

def NodeRecord.navLoc {Id : Type u} {K : Type v} (node : NodeRecord Id K) :
    NavigationLocation Id K :=
  { latitude := node.latitude
    longitude := node.longitude
    name := node.description
    id := node.id }

/-- An object is in `navLocations` under its own id only. -/
structure DataManager (Id : Type u) (K : Type v) [DecidableEq K] where
  navLocations : Dictionary Id (NavigationNode Id K)

namespace DataManager

variable {Id : Type u} {K : Type v} [DecidableEq Id] [DecidableEq K]

def empty : DataManager Id K := ⟨∅⟩

def addNode (manager : DataManager Id K) (node : NodeRecord Id K) : DataManager Id K :=
  ⟨manager.navLocations.insert node.id { node.navLoc with connectedNodes := .empty }⟩

/-- The body of the loop over `edges.values`; `none` when a force-unwrap meets nil. -/
def addEdge (manager : DataManager Id K) (edge : EdgeRecord Id K) : Option (DataManager Id K) :=
  match manager.navLocations.lookup edge.fromNode, manager.navLocations.lookup edge.toNode with
  | some location, some node =>
    some ⟨manager.navLocations.insert edge.fromNode
      (location.makeConnection node.toNavigationLocation)⟩
  | _, _ => none

/-- `none` when the call traps. -/
def convertToNavigationLocations (nodeOrder : Dictionary.Order String (NodeRecord Id K))
    (edgeOrder : Dictionary.Order String (EdgeRecord Id K)) (manager : DataManager Id K)
    (nodes : Dictionary String (NodeRecord Id K)) (edges : Dictionary String (EdgeRecord Id K)) :
    Option (DataManager Id K) :=
  (edgeOrder.arrange edges).foldlM addEdge ((nodeOrder.arrange nodes).foldl addNode manager)

def getNode (manager : DataManager Id K) (id : Id) : Option (NavigationNode Id K) :=
  manager.navLocations.lookup id

theorem getNode_addNode (manager : DataManager Id K) (node : NodeRecord Id K) (id : Id) :
    (manager.addNode node).getNode id =
      if id = node.id then some { node.navLoc with connectedNodes := .empty }
      else manager.getNode id := by
  by_cases same : id = node.id
  · subst id
    simp [getNode, addNode]
  · simp [getNode, addNode, same, AList.lookup_insert_ne]

/-- What the node loop leaves under an id: the object of the last record with it. -/
theorem getNode_addNodes (manager : DataManager Id K) (nodes : List (NodeRecord Id K)) (id : Id) :
    (∀ node ∈ nodes, node.id ≠ id) ∧
        (nodes.foldl addNode manager).getNode id = manager.getNode id ∨
      ∃ node ∈ nodes, node.id = id ∧
        (nodes.foldl addNode manager).getNode id =
          some { node.navLoc with connectedNodes := .empty } := by
  induction nodes generalizing manager with
  | nil => simp
  | cons node rest ih =>
    rcases ih (manager.addNode node) with ⟨absent, same⟩ | ⟨later, member, own, found⟩
    · rw [List.foldl_cons, same, getNode_addNode]
      by_cases last : id = node.id
      · right
        exact ⟨node, List.mem_cons_self, last.symm, by simp [last]⟩
      · left
        refine ⟨fun other member => ?_, by simp [last]⟩
        rcases List.mem_cons.mp member with rfl | later
        · exact Ne.symm last
        · exact absent other later
    · exact .inr ⟨later, List.mem_cons_of_mem _ member, own, found⟩

theorem addEdge_eq_none {manager : DataManager Id K} {edge : EdgeRecord Id K} :
    manager.addEdge edge = none ↔
      manager.getNode edge.fromNode = none ∨ manager.getNode edge.toNode = none := by
  unfold addEdge getNode
  cases manager.navLocations.lookup edge.fromNode <;>
    cases manager.navLocations.lookup edge.toNode <;> simp

/-- A connection made changes the set of the source by one insertion and nothing else. -/
theorem getNode_addEdge {manager later : DataManager Id K} {edge : EdgeRecord Id K}
    (added : manager.addEdge edge = some later) :
    ∃ location node, manager.getNode edge.fromNode = some location ∧
      manager.getNode edge.toNode = some node ∧
      ∀ id, later.getNode id =
        if id = edge.fromNode then some (location.makeConnection node.toNavigationLocation)
        else manager.getNode id := by
  unfold addEdge at added
  cases source : manager.navLocations.lookup edge.fromNode with
  | none => simp [source] at added
  | some location =>
    cases target : manager.navLocations.lookup edge.toNode with
    | none => simp [source, target] at added
    | some node =>
      simp only [source, target, Option.some.injEq] at added
      subst added
      refine ⟨location, node, source, target, fun id => ?_⟩
      by_cases same : id = edge.fromNode
      · subst id
        simp [getNode]
      · simp [getNode, same, AList.lookup_insert_ne]

/-- Connections are made between nodes that are there; none appears or goes. -/
theorem getNode_isSome_addEdge {manager later : DataManager Id K} {edge : EdgeRecord Id K}
    (added : manager.addEdge edge = some later) (id : Id) :
    later.getNode id = none ↔ manager.getNode id = none := by
  obtain ⟨location, node, source, target, result⟩ := getNode_addEdge added
  rw [result]
  by_cases same : id = edge.fromNode
  · simp [same, source]
  · simp [same]

theorem addEdges_eq_none {manager : DataManager Id K} {edges : List (EdgeRecord Id K)} :
    edges.foldlM addEdge manager = none ↔
      ∃ edge ∈ edges,
        manager.getNode edge.fromNode = none ∨ manager.getNode edge.toNode = none := by
  induction edges generalizing manager with
  | nil => simp
  | cons edge rest ih =>
    cases added : manager.addEdge edge with
    | none =>
      simp only [List.foldlM_cons, added, Option.bind_eq_bind, Option.bind_none, true_iff]
      exact ⟨edge, List.mem_cons_self, addEdge_eq_none.mp added⟩
    | some later =>
      have resolved : ¬ (manager.getNode edge.fromNode = none ∨
          manager.getNode edge.toNode = none) := mt addEdge_eq_none.mpr (by simp [added])
      simp only [List.foldlM_cons, added, Option.bind_eq_bind, Option.bind_some, ih,
        getNode_isSome_addEdge added, List.mem_cons, exists_eq_or_imp, resolved, false_or]

/-- The import traps exactly when an edge names an id that no node record carries. -/
theorem convert_eq_none {nodeOrder : Dictionary.Order String (NodeRecord Id K)}
    {edgeOrder : Dictionary.Order String (EdgeRecord Id K)}
    {nodes : Dictionary String (NodeRecord Id K)} {edges : Dictionary String (EdgeRecord Id K)} :
    convertToNavigationLocations nodeOrder edgeOrder empty nodes edges = none ↔
      ∃ edge ∈ edges.values, (∀ node ∈ nodes.values, node.id ≠ edge.fromNode) ∨
        ∀ node ∈ nodes.values, node.id ≠ edge.toNode := by
  have loaded (id : Id) : ((nodeOrder.arrange nodes).foldl addNode empty).getNode id = none ↔
      ∀ node ∈ nodes.values, node.id ≠ id := by
    rcases getNode_addNodes empty (nodeOrder.arrange nodes) id with
      ⟨absent, same⟩ | ⟨node, member, own, found⟩
    · have unknown : (empty : DataManager Id K).getNode id = none := rfl
      simp only [same, unknown, true_iff]
      exact fun node member => absent node ((nodeOrder.perm nodes).mem_iff.mpr member)
    · simp only [found, reduceCtorEq, false_iff, not_forall]
      exact ⟨node, (nodeOrder.perm nodes).mem_iff.mp member, by simp [own]⟩
  simp only [convertToNavigationLocations, addEdges_eq_none, loaded,
    (edgeOrder.perm edges).mem_iff]

end DataManager

end AugmentedCampus
