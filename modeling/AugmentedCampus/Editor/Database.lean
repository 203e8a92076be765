import AugmentedCampus.Foundation.Dictionary
import AugmentedCampus.Editor.Keys

/-! The records under `Graph/` and the writes that single `set()` calls make. -/
namespace AugmentedCampus

open Foundation

universe u v

structure NodeRecord (Id : Type u) (K : Type v) where
  id : Id
  description : String
  latitude : K
  longitude : K
  deriving DecidableEq

structure EdgeRecord (Id : Type u) (K : Type v) where
  id : String
  fromNode : Id
  toNode : Id
  stairs : Bool
  weight : K
  deriving DecidableEq

/-- What is stored under `Graph/index`, `Graph/Nodes` and `Graph/Edges`. Counts and ids are
exact numbers, as those of the code are below `2^53`. -/
structure Database (K : Type v) where
  index : Option Nat
  nodes : Dictionary String (NodeRecord Nat K)
  edges : Dictionary String (EdgeRecord Nat K)

/-- One `set()`. A record all of whose fields are null is no record: `none` deletes. -/
inductive Write (K : Type v) where
  | index (value : Nat)
  | node (key : String) (record : Option (NodeRecord Nat K))
  | edge (key : String) (record : Option (EdgeRecord Nat K))
  deriving DecidableEq

namespace Database

variable {K : Type v}

def apply (store : Database K) : Write K → Database K
  | .index value => { store with index := some value }
  | .node key record => { store with nodes := Dictionary.set store.nodes key record }
  | .edge key record => { store with edges := Dictionary.set store.edges key record }

@[simp] theorem apply_index_index (store : Database K) (value : Nat) :
    (store.apply (.index value)).index = some value := rfl

@[simp] theorem apply_index_nodes (store : Database K) (value : Nat) :
    (store.apply (.index value)).nodes = store.nodes := rfl

@[simp] theorem lookup_apply_node (store : Database K) (key other : String)
    (record : Option (NodeRecord Nat K)) :
    (store.apply (.node key record)).nodes.lookup other =
      if other = key then record else store.nodes.lookup other :=
  Dictionary.lookup_set ..

@[simp] theorem lookup_apply_edge (store : Database K) (key other : String)
    (record : Option (EdgeRecord Nat K)) :
    (store.apply (.edge key record)).edges.lookup other =
      if other = key then record else store.edges.lookup other :=
  Dictionary.lookup_set ..

/-- `id` is the `_id` of a stored node. -/
def Stores (store : Database K) (id : Nat) : Prop :=
  ∃ key record, store.nodes.lookup key = some record ∧ record.id = id

/-- `edge` is stored under some key. -/
def HasEdge (store : Database K) (edge : EdgeRecord Nat K) : Prop :=
  ∃ key, store.edges.lookup key = some edge

/-- Every stored edge joins stored nodes. -/
def Resolvable (store : Database K) : Prop :=
  ∀ edge, store.HasEdge edge → store.Stores edge.fromNode ∧ store.Stores edge.toNode

/-- Records lie under the keys `saveNode` and `saveEdge` give them. -/
structure Keyed (store : Database K) : Prop where
  node : ∀ key record, store.nodes.lookup key = some record → key = nodeKey record.id
  edge : ∀ key edge, store.edges.lookup key = some edge →
    edge.id = key ∧ key = edgeKey edge.fromNode edge.toNode

variable {store : Database K}

theorem Keyed.stores_iff (keyed : store.Keyed) {id : Nat} :
    store.Stores id ↔ ∃ record, store.nodes.lookup (nodeKey id) = some record := by
  constructor
  · intro stored
    obtain ⟨key, record, found, rfl⟩ := stored
    exact ⟨record, keyed.node key record found ▸ found⟩
  · intro stored
    obtain ⟨record, found⟩ := stored
    exact ⟨_, record, found, (nodeKey_injective (keyed.node _ record found)).symm⟩

theorem Keyed.hasEdge_iff (keyed : store.Keyed) {edge : EdgeRecord Nat K} :
    store.HasEdge edge ↔ store.edges.lookup edge.id = some edge := by
  constructor
  · intro stored
    obtain ⟨key, found⟩ := stored
    rwa [(keyed.edge key edge found).1]
  · exact fun found => ⟨_, found⟩

theorem Keyed.edge_ends (keyed : store.Keyed) {fromNode toNode : Nat} {edge : EdgeRecord Nat K}
    (found : store.edges.lookup (edgeKey fromNode toNode) = some edge) :
    edge.fromNode = fromNode ∧ edge.toNode = toNode := by
  obtain ⟨_, same⟩ := keyed.edge _ edge found
  obtain ⟨left, right⟩ := edgeKey_injective same
  exact ⟨left.symm, right.symm⟩

/-- Two stored edges with one `_id` are one edge. -/
theorem Keyed.edge_unique (keyed : store.Keyed) {first second : EdgeRecord Nat K}
    (found : store.HasEdge first) (other : store.HasEdge second) (same : first.id = second.id) :
    first = second := by
  have left := keyed.hasEdge_iff.mp found
  rw [same, keyed.hasEdge_iff.mp other] at left
  exact (Option.some.inj left).symm

theorem Keyed.edge_id (keyed : store.Keyed) {edge : EdgeRecord Nat K} (found : store.HasEdge edge) :
    edge.id = edgeKey edge.fromNode edge.toNode := by
  obtain ⟨key, present⟩ := found
  obtain ⟨own, built⟩ := keyed.edge key edge present
  exact own.trans built

end Database

/-- The write stores a record under the key of its fields, or deletes under such a key. -/
def Write.Keyed {K : Type v} : Write K → Prop
  | .index _ => True
  | .node key record => ∃ id, key = nodeKey id ∧ ∀ node ∈ record, node.id = id
  | .edge key record => ∃ fromNode toNode, key = edgeKey fromNode toNode ∧
      ∀ edge ∈ record, edge.id = key ∧ edge.fromNode = fromNode ∧ edge.toNode = toNode

namespace Database

variable {K : Type v} {store : Database K}

theorem Keyed.apply (keyed : store.Keyed) {write : Write K} (formed : write.Keyed) :
    (store.apply write).Keyed := by
  cases write with
  | index value => exact ⟨keyed.node, keyed.edge⟩
  | node key record =>
    obtain ⟨id, rfl, carries⟩ := formed
    refine ⟨fun other node found => ?_, keyed.edge⟩
    rw [lookup_apply_node] at found
    by_cases same : other = nodeKey id
    · rw [if_pos same] at found
      rw [same, carries node found]
    · exact keyed.node other node (by simpa [same] using found)
  | edge key record =>
    obtain ⟨fromNode, toNode, rfl, carries⟩ := formed
    refine ⟨keyed.node, fun other edge found => ?_⟩
    rw [lookup_apply_edge] at found
    by_cases same : other = edgeKey fromNode toNode
    · rw [if_pos same] at found
      obtain ⟨own, left, right⟩ := carries edge found
      rw [own, same, left, right]
      exact ⟨rfl, rfl⟩
    · exact keyed.edge other edge (by simpa [same] using found)

theorem Keyed.stores_saved (keyed : store.Keyed) {node : NodeRecord Nat K} {id : Nat} :
    (store.apply (.node (nodeKey node.id) (some node))).Stores id ↔
      id = node.id ∨ store.Stores id := by
  have after : (store.apply (.node (nodeKey node.id) (some node))).Keyed :=
    keyed.apply ⟨node.id, rfl, by simp⟩
  rw [after.stores_iff, keyed.stores_iff, lookup_apply_node]
  by_cases same : id = node.id
  · simp [same]
  · simp [same]

theorem Keyed.stores_deleted (keyed : store.Keyed) {gone id : Nat} :
    (store.apply (.node (nodeKey gone) none)).Stores id ↔ id ≠ gone ∧ store.Stores id := by
  have after : (store.apply (.node (nodeKey gone) none)).Keyed := keyed.apply ⟨gone, rfl, by simp⟩
  rw [after.stores_iff, keyed.stores_iff, lookup_apply_node]
  by_cases same : id = gone
  · simp [same]
  · simp [same]

theorem Keyed.hasEdge_saved (keyed : store.Keyed) (edge other : EdgeRecord Nat K)
    (own : edge.id = edgeKey edge.fromNode edge.toNode) :
    (store.apply (.edge edge.id (some edge))).HasEdge other ↔
      other = edge ∨ other.id ≠ edge.id ∧ store.HasEdge other := by
  have after : (store.apply (.edge edge.id (some edge))).Keyed :=
    keyed.apply ⟨edge.fromNode, edge.toNode, own, by simp⟩
  rw [after.hasEdge_iff, keyed.hasEdge_iff, lookup_apply_edge]
  by_cases same : other.id = edge.id
  · simp [same, eq_comm]
  · simp only [same, ↓reduceIte, ne_eq, not_false_eq_true, true_and]
    constructor
    · exact .inr
    · rintro (rfl | found)
      · exact absurd rfl same
      · exact found

theorem Keyed.hasEdge_deleted {key : String} {edge : EdgeRecord Nat K} (keyed : store.Keyed) :
    (store.apply (.edge key none)).HasEdge edge ↔ edge.id ≠ key ∧ store.HasEdge edge := by
  constructor
  · intro stored
    obtain ⟨other, found⟩ := stored
    rw [lookup_apply_edge] at found
    by_cases same : other = key
    · simp [same] at found
    · simp only [same, ↓reduceIte] at found
      rw [(keyed.edge other edge found).1]
      exact ⟨same, other, found⟩
  · intro kept
    obtain ⟨different, found⟩ := kept
    refine ⟨edge.id, ?_⟩
    rw [lookup_apply_edge, if_neg different]
    exact keyed.hasEdge_iff.mp found

end Database

end AugmentedCampus
