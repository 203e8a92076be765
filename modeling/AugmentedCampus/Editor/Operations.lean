import AugmentedCampus.Campus.NavigationLocation
import AugmentedCampus.Editor.Database

/-! The four editor operations. Each reads the client's copy of the store and
issues its writes one by one. -/
namespace AugmentedCampus

open Foundation

universe v

/-- Why a call ended early: `set()` refused a value that is not a number, or a
property of null was read. -/
inductive Thrown where
  | notANumber
  | typeError
  deriving DecidableEq

/-- The writes a call made, in order, and whether it threw after them. -/
structure Issued (K : Type v) where
  writes : List (Write K)
  thrown : Option Thrown
  deriving DecidableEq

/-- The order in which `Object.entries(edges)` lists the edges. -/
abbrev EntryOrder (K : Type v) := Dictionary.Order String (EdgeRecord Nat K)

/-- What `saveEdge` reads of the page: whether the box `yes-stairs` is there and ticked,
and which of `markers` have an `infoWindow`. -/
structure EdgeForm where
  yesStairs : Option Bool
  windows : List Bool
  deriving DecidableEq

namespace EdgeForm

/-- `saveEdge` gets past the box and past `markers[index].infoWindow.close()`. -/
structure Closes (form : EdgeForm) (index : Nat) : Prop where
  box : form.yesStairs.isSome = true
  window : form.windows[index]? = some true

def filled (hasStairs : Bool) : EdgeForm := ⟨some hasStairs, [true]⟩

end EdgeForm

section Functions

variable {K : Type v}

/-- `none` for a coordinate that is not a number. The id is taken to be below `2^53`, where
adding one is exact. -/
def saveNode (copy : Database K) (desc : String) (lat lng : Option K) : Issued K :=
  match copy.index with
  | none => ⟨[], some .notANumber⟩
  | some nodeCount =>
    let id := nodeCount + 1
    match lat, lng with
    | some latitude, some longitude =>
      let node : NodeRecord Nat K :=
        { id := id
          description := if desc ≠ "" then desc else "node" ++ padToThree id
          latitude := latitude
          longitude := longitude }
      ⟨[.index id, .node (nodeKey node.id) (some node)], none⟩
    | _, _ => ⟨[.index id], some .notANumber⟩

/-- The loop over `Object.entries(edges)`, setting the edges that pass `test` to null. -/
def removeEdges (order : EntryOrder K) (copy : Database K) (test : EdgeRecord Nat K → Bool) :
    List (Write K) :=
  ((order.arrange copy.edges).filter test).map fun value => .edge value.id none

/-- `edges` is null when no edge is stored, and `Object.entries(null)` throws. -/
def deleteNode (order : EntryOrder K) (copy : Database K) (nodeId : Nat) : Issued K :=
  if copy.edges.entries.isEmpty then ⟨[], some .typeError⟩
  else
    ⟨removeEdges order copy (fun value => value.fromNode == nodeId || value.toNode == nodeId) ++
      [.node (nodeKey nodeId) none], none⟩

def deleteEdge (order : EntryOrder K) (copy : Database K) (edgeFrom edgeTo : Nat) : Issued K :=
  if copy.edges.entries.isEmpty then ⟨[], some .typeError⟩
  else
    ⟨removeEdges order copy (fun value =>
      value.fromNode == edgeFrom && value.toNode == edgeTo ||
        value.fromNode == edgeTo && value.toNode == edgeFrom), none⟩

variable [Ring K] [SquareRoot K]

/-- `eWeight` -/
def edgeWeight (fNode tNode : NodeRecord Nat K) : K :=
  let deltaLat := fNode.latitude - tNode.latitude
  let deltaLng := fNode.longitude - tNode.longitude
  SquareRoot.squareRoot (deltaLat ^ 2 + deltaLng ^ 2)

/-- `saveEdge` from `var fNode` on. Equal ends are only logged. -/
def storeEdge (copy : Database K) (fromNode toNode : Nat) (hasStairs : Bool) : Issued K :=
  let fNodeName := "node" ++ padToThree fromNode
  let tNodeName := "node" ++ padToThree toNode
  match copy.nodes.lookup fNodeName, copy.nodes.lookup tNodeName with
  | some fNode, some tNode =>
    let eWeight := edgeWeight fNode tNode
    let edge1 : EdgeRecord Nat K :=
      { id := fNodeName ++ "_" ++ tNodeName
        fromNode := fromNode
        toNode := toNode
        stairs := hasStairs
        weight := eWeight }
    let edge2 : EdgeRecord Nat K :=
      { id := tNodeName ++ "_" ++ fNodeName
        fromNode := toNode
        toNode := fromNode
        stairs := hasStairs
        weight := eWeight }
    ⟨[.edge edge1.id (some edge1), .edge edge2.id (some edge2)], none⟩
  | _, _ => ⟨[], some .typeError⟩

/-- A box that is not there is null, and a marker that is not there or has no window
throws at `close()`. -/
def saveEdge (copy : Database K) (form : EdgeForm) (fromNode toNode index : Nat) : Issued K :=
  match form.yesStairs with
  | none => ⟨[], some .typeError⟩
  | some hasStairs =>
    if form.windows[index]? = some true then storeEdge copy fromNode toNode hasStairs
    else ⟨[], some .typeError⟩

end Functions

/-- A call of the editor with its arguments and what it reads of the page. -/
inductive Operation (K : Type v) where
  | saveNode (desc : String) (lat lng : Option K)
  | saveEdge (form : EdgeForm) (fromNode toNode index : Nat)
  | deleteNode (nodeId : Nat)
  | deleteEdge (edgeFrom edgeTo : Nat)
  deriving DecidableEq

variable {K : Type v}

def Operation.issued [Ring K] [SquareRoot K] (order : EntryOrder K) (copy : Database K) :
    Operation K → Issued K
  | .saveNode desc lat lng => AugmentedCampus.saveNode copy desc lat lng
  | .saveEdge form fromNode toNode index =>
    AugmentedCampus.saveEdge copy form fromNode toNode index
  | .deleteNode nodeId => AugmentedCampus.deleteNode order copy nodeId
  | .deleteEdge edgeFrom edgeTo => AugmentedCampus.deleteEdge order copy edgeFrom edgeTo

/-- The store after all the writes of an uninterrupted call. -/
def Database.complete [Ring K] [SquareRoot K] (order : EntryOrder K) (store : Database K)
    (operation : Operation K) : Database K :=
  (operation.issued order store).writes.foldl apply store

def edgeRecord (fromNode toNode : Nat) (hasStairs : Bool) (eWeight : K) : EdgeRecord Nat K :=
  { id := edgeKey fromNode toNode
    fromNode := fromNode
    toNode := toNode
    stairs := hasStairs
    weight := eWeight }

section Specifications

variable {copy : Database K} {order : EntryOrder K} {write : Write K}

theorem mem_removeEdges {test : EdgeRecord Nat K → Bool} :
    write ∈ removeEdges order copy test ↔
      ∃ edge, copy.HasEdge edge ∧ test edge = true ∧ write = .edge edge.id none := by
  simp only [removeEdges, List.mem_map, List.mem_filter, Dictionary.Order.mem_arrange]
  constructor
  · intro issued
    obtain ⟨edge, ⟨found, passes⟩, rfl⟩ := issued
    exact ⟨edge, found, passes, rfl⟩
  · intro removed
    obtain ⟨edge, found, passes, rfl⟩ := removed
    exact ⟨edge, ⟨found, passes⟩, rfl⟩

theorem saveNode_writes (copy : Database K) (desc : String) (lat lng : Option K) :
    (saveNode copy desc lat lng).writes = [] ∨
      ∃ nodeCount, copy.index = some nodeCount ∧
        ((saveNode copy desc lat lng).writes = [.index (nodeCount + 1)] ∨
          ∃ node : NodeRecord Nat K, node.id = nodeCount + 1 ∧
            (saveNode copy desc lat lng).writes =
              [.index (nodeCount + 1), .node (nodeKey node.id) (some node)]) := by
  cases counted : copy.index with
  | none => exact .inl (by simp [saveNode, counted])
  | some nodeCount =>
    right
    refine ⟨nodeCount, rfl, ?_⟩
    cases lat with
    | none => exact .inl (by simp [saveNode, counted])
    | some latitude =>
      cases lng with
      | none => exact .inl (by simp [saveNode, counted])
      | some longitude =>
        right
        refine ⟨⟨nodeCount + 1, if desc ≠ "" then desc else nodeKey (nodeCount + 1), latitude,
          longitude⟩, rfl, ?_⟩
        simp only [saveNode, counted, nodeKey]

/-- A deletion throws before its first write or goes through all stored edges. -/
theorem deleteNode_writes (order : EntryOrder K) (copy : Database K) (nodeId : Nat) :
    (deleteNode order copy nodeId).writes = [] ∨
      (deleteNode order copy nodeId).writes =
        removeEdges order copy
          (fun value => value.fromNode == nodeId || value.toNode == nodeId) ++
            [.node (nodeKey nodeId) none] := by
  by_cases empty : copy.edges.entries.isEmpty = true
  · exact .inl (by simp [deleteNode, empty])
  · exact .inr (by simp [deleteNode, empty])

theorem mem_deleteNode_writes {nodeId : Nat}
    (issued : write ∈ (deleteNode order copy nodeId).writes) :
    (∃ edge, copy.HasEdge edge ∧ (edge.fromNode = nodeId ∨ edge.toNode = nodeId) ∧
      write = .edge edge.id none) ∨ write = .node (nodeKey nodeId) none := by
  obtain none | all := deleteNode_writes order copy nodeId
  · simp [none] at issued
  · rw [all, List.mem_append, List.mem_singleton] at issued
    rcases issued with removed | last
    · obtain ⟨edge, found, touches, rfl⟩ := mem_removeEdges.mp removed
      exact .inl ⟨edge, found, by simpa using touches, rfl⟩
    · exact .inr last

theorem deletion_mem_deleteNode {nodeId : Nat} {edge : EdgeRecord Nat K} (found : copy.HasEdge edge)
    (touches : edge.fromNode = nodeId ∨ edge.toNode = nodeId) :
    .edge edge.id none ∈ (deleteNode order copy nodeId).writes := by
  have nonempty : copy.edges.entries ≠ [] := by
    intro empty
    obtain ⟨key, present⟩ := found
    cases (Dictionary.entries_eq_nil.mp empty key).symm.trans present
  simp only [deleteNode, List.isEmpty_iff, nonempty, ↓reduceIte, List.mem_append]
  exact .inl (mem_removeEdges.mpr ⟨edge, found, by simpa using touches, rfl⟩)

/-- In a keyed copy this is the edge under the key of its ends. -/
theorem Database.Keyed.deletion_mem_deleteNode (keyed : copy.Keyed) {nodeId fromNode toNode : Nat}
    (seen : copy.edges.lookup (edgeKey fromNode toNode) ≠ none)
    (touches : fromNode = nodeId ∨ toNode = nodeId) :
    .edge (edgeKey fromNode toNode) none ∈ (deleteNode order copy nodeId).writes := by
  obtain ⟨edge, present⟩ := Option.ne_none_iff_exists'.mp seen
  obtain ⟨rfl, rfl⟩ := keyed.edge_ends present
  rw [← keyed.edge_id ⟨_, present⟩]
  exact AugmentedCampus.deletion_mem_deleteNode ⟨_, present⟩ touches

theorem mem_deleteEdge_writes {edgeFrom edgeTo : Nat}
    (issued : write ∈ (deleteEdge order copy edgeFrom edgeTo).writes) :
    ∃ edge, copy.HasEdge edge ∧ write = .edge edge.id none := by
  by_cases empty : copy.edges.entries.isEmpty = true
  · simp [deleteEdge, empty] at issued
  · simp only [deleteEdge, empty] at issued
    obtain ⟨edge, found, _, rfl⟩ := mem_removeEdges.mp issued
    exact ⟨edge, found, rfl⟩

section SaveEdge

variable [Ring K] [SquareRoot K] {form : EdgeForm} {fromNode toNode index : Nat}

theorem storeEdge_missing (hasStairs : Bool)
    (missing : copy.nodes.lookup (nodeKey fromNode) = none ∨
      copy.nodes.lookup (nodeKey toNode) = none) :
    storeEdge copy fromNode toNode hasStairs = ⟨[], some .typeError⟩ := by
  simp only [nodeKey] at missing
  rcases missing with first | second
  · simp [storeEdge, first]
  · cases first : copy.nodes.lookup ("node" ++ padToThree fromNode) with
    | none => simp [storeEdge, first]
    | some fNode => simp [storeEdge, first, second]

theorem storeEdge_stored (hasStairs : Bool) {fNode tNode : NodeRecord Nat K}
    (first : copy.nodes.lookup (nodeKey fromNode) = some fNode)
    (second : copy.nodes.lookup (nodeKey toNode) = some tNode) :
    (storeEdge copy fromNode toNode hasStairs).writes =
      [.edge (edgeKey fromNode toNode)
        (some (edgeRecord fromNode toNode hasStairs (edgeWeight fNode tNode))),
       .edge (edgeKey toNode fromNode)
        (some (edgeRecord toNode fromNode hasStairs (edgeWeight fNode tNode)))] := by
  simp only [nodeKey] at first second
  simp [storeEdge, first, second, edgeRecord, edgeKey, nodeKey]

theorem EdgeForm.Closes.saveEdge_eq (closes : form.Closes index) (copy : Database K)
    (fromNode toNode : Nat) :
    ∃ hasStairs ∈ form.yesStairs,
      saveEdge copy form fromNode toNode index = storeEdge copy fromNode toNode hasStairs := by
  obtain ⟨hasStairs, ticked⟩ := Option.isSome_iff_exists.mp closes.box
  exact ⟨hasStairs, ticked, by simp [saveEdge, ticked, closes.window]⟩

/-- The call throws at the box or at `close()`, before its first write. -/
theorem saveEdge_thrown (stuck : ¬ form.Closes index) (copy : Database K)
    (fromNode toNode : Nat) :
    saveEdge copy form fromNode toNode index = ⟨[], some .typeError⟩ := by
  cases box : form.yesStairs with
  | none => simp [saveEdge, box]
  | some hasStairs =>
    have window : form.windows[index]? ≠ some true := fun there => stuck ⟨by simp [box], there⟩
    simp [saveEdge, box, window]

theorem saveEdge_missing (form : EdgeForm) (index : Nat)
    (missing : copy.nodes.lookup (nodeKey fromNode) = none ∨
      copy.nodes.lookup (nodeKey toNode) = none) :
    (saveEdge copy form fromNode toNode index).writes = [] := by
  by_cases closes : form.Closes index
  · obtain ⟨hasStairs, _, same⟩ := closes.saveEdge_eq copy fromNode toNode
    rw [same, storeEdge_missing hasStairs missing]
  · rw [saveEdge_thrown closes]

theorem saveEdge_writes (copy : Database K) (form : EdgeForm) (fromNode toNode index : Nat) :
    (saveEdge copy form fromNode toNode index).writes = [] ∨
      ∃ hasStairs fNode tNode, copy.nodes.lookup (nodeKey fromNode) = some fNode ∧
        copy.nodes.lookup (nodeKey toNode) = some tNode ∧
        (saveEdge copy form fromNode toNode index).writes =
          [.edge (edgeKey fromNode toNode)
            (some (edgeRecord fromNode toNode hasStairs (edgeWeight fNode tNode))),
           .edge (edgeKey toNode fromNode)
            (some (edgeRecord toNode fromNode hasStairs (edgeWeight fNode tNode)))] := by
  by_cases closes : form.Closes index
  · obtain ⟨hasStairs, _, same⟩ := closes.saveEdge_eq copy fromNode toNode
    cases first : copy.nodes.lookup (nodeKey fromNode) with
    | none => exact .inl (saveEdge_missing form index (.inl first))
    | some fNode =>
      cases second : copy.nodes.lookup (nodeKey toNode) with
      | none => exact .inl (saveEdge_missing form index (.inr second))
      | some tNode =>
        exact .inr ⟨hasStairs, fNode, tNode, rfl, rfl, same ▸ storeEdge_stored hasStairs first second⟩
  · exact .inl (by rw [saveEdge_thrown closes])

end SaveEdge

end Specifications

end AugmentedCampus
