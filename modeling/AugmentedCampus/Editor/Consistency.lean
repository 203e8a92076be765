import AugmentedCampus.Campus.DataManager
import AugmentedCampus.Editor.WriteInvariant

/-! Complete calls of one client: the stored graph stays symmetric and every
weight stays the cost the app computes from the stored endpoints. -/
namespace AugmentedCampus

open Foundation

universe v

variable {K : Type v}

namespace Database

/-- What holds between any two complete calls. -/
structure WellFormed [Ring K] [SquareRoot K] (store : Database K) : Prop where
  counted : ∃ nodeCount, store.index = some nodeCount ∧ ∀ id, store.Stores id → id ≤ nodeCount
  keyed : store.Keyed
  reversed : ∀ edge, store.HasEdge edge →
    store.HasEdge (edgeRecord edge.toNode edge.fromNode edge.stairs edge.weight)
  weighted : ∀ edge, store.HasEdge edge →
    ∃ fNode tNode, store.nodes.lookup (nodeKey edge.fromNode) = some fNode ∧
      store.nodes.lookup (nodeKey edge.toNode) = some tNode ∧
      edge.weight = fNode.navLoc.cost tNode.navLoc

/-- `eWeight` of the editor is `cost(to:)` of the app. -/
theorem edgeWeight_eq_cost [Ring K] [SquareRoot K] (fNode tNode : NodeRecord Nat K) :
    edgeWeight fNode tNode = fNode.navLoc.cost tNode.navLoc := rfl

variable {store : Database K}

theorem WellFormed.safe [Ring K] [SquareRoot K] (formed : store.WellFormed) : store.Safe where
  counted := formed.counted
  keyed := formed.keyed
  resolvable edge found := by
    obtain ⟨fNode, tNode, left, right, _⟩ := formed.weighted edge found
    exact ⟨formed.keyed.stores_iff.mpr ⟨fNode, left⟩, formed.keyed.stores_iff.mpr ⟨tNode, right⟩⟩

theorem nodes_removed {writes : List (Write K)}
    (removals : ∀ write ∈ writes, ∃ fromNode toNode,
      write = .edge (edgeKey fromNode toNode) none) :
    (writes.foldl apply store).nodes = store.nodes := by
  induction writes generalizing store with
  | nil => rfl
  | cons write rest ih =>
    obtain ⟨fromNode, toNode, rfl⟩ := removals write (by simp)
    exact ih (fun write member => removals write (List.mem_cons_of_mem _ member))

section Steps

variable [CommRing K] [SquareRoot K]

theorem WellFormed.saveNode (formed : store.WellFormed) (desc : String) (lat lng : Option K) :
    ((AugmentedCampus.saveNode store desc lat lng).writes.foldl apply store).WellFormed := by
  have safe : ((AugmentedCampus.saveNode store desc lat lng).writes.foldl apply store).Safe :=
    (saveNode_admitted store desc lat lng).foldl (fun _ _ => Safe.apply) formed.safe
  obtain none | ⟨nodeCount, counted, single | ⟨node, own, both⟩⟩ :=
    saveNode_writes store desc lat lng
  · simpa [none] using formed
  · rw [single] at safe ⊢
    exact ⟨safe.counted, safe.keyed, formed.reversed, formed.weighted⟩
  · rw [both] at safe ⊢
    refine ⟨safe.counted, safe.keyed, formed.reversed, fun edge found => ?_⟩
    obtain ⟨fNode, tNode, left, right, weight⟩ := formed.weighted edge found
    -- The new id is above every stored one, so no endpoint is overwritten.
    have fresh {id : Nat} {stored : NodeRecord Nat K}
        (present : store.nodes.lookup (nodeKey id) = some stored) : id ≠ node.id := by
      obtain ⟨reserved, same, bounded⟩ := formed.counted
      cases counted.symm.trans same
      have below := bounded id (formed.keyed.stores_iff.mpr ⟨stored, present⟩)
      omega
    refine ⟨fNode, tNode, ?_, ?_, weight⟩
    · simpa [fresh left] using left
    · simpa [fresh right] using right

theorem WellFormed.saveEdge (formed : store.WellFormed) (form : EdgeForm)
    (fromNode toNode index : Nat) :
    ((AugmentedCampus.saveEdge store form fromNode toNode index).writes.foldl apply
      store).WellFormed := by
  have admitted := formed.safe.saveEdge_admitted form fromNode toNode index
  have safe := admitted.foldl (fun _ _ => Safe.apply) formed.safe
  obtain none | ⟨hasStairs, fNode, tNode, left, right, both⟩ :=
    saveEdge_writes store form fromNode toNode index
  · simpa [none] using formed
  · rw [both] at safe ⊢
    set edge1 := edgeRecord fromNode toNode hasStairs (edgeWeight fNode tNode)
    set edge2 := edgeRecord toNode fromNode hasStairs (edgeWeight fNode tNode)
    have middle : (store.apply (.edge edge1.id (some edge1))).Keyed :=
      formed.keyed.apply ⟨fromNode, toNode, rfl, by simp [edge1, edgeRecord]⟩
    have after (edge : EdgeRecord Nat K) :
        ([Write.edge (edgeKey fromNode toNode) (some edge1),
            .edge (edgeKey toNode fromNode) (some edge2)].foldl apply store).HasEdge edge ↔
          edge = edge2 ∨ edge.id ≠ edge2.id ∧
            (edge = edge1 ∨ edge.id ≠ edge1.id ∧ store.HasEdge edge) := by
      have outer := middle.hasEdge_saved edge2 edge rfl
      rw [formed.keyed.hasEdge_saved edge1 edge rfl] at outer
      exact outer
    refine ⟨safe.counted, safe.keyed, fun edge found => ?_, fun edge found => ?_⟩
    · rw [after] at found ⊢
      rcases found with rfl | ⟨apart, rfl | ⟨away, old⟩⟩
      · by_cases loop : edge1.id = edge2.id
        · -- One node at both ends: the two records are one.
          obtain ⟨rfl, _⟩ := edgeKey_injective loop
          exact .inl rfl
        · exact .inr ⟨loop, .inl rfl⟩
      · exact .inl rfl
      · refine .inr ⟨fun same => away ?_, .inr ⟨fun same => apart ?_, formed.reversed edge old⟩⟩
        · obtain ⟨enters, leaves⟩ := edgeKey_injective same
          rw [formed.keyed.edge_id old, enters, leaves]
          rfl
        · obtain ⟨enters, leaves⟩ := edgeKey_injective same
          rw [formed.keyed.edge_id old, enters, leaves]
          rfl
    · rcases (after edge).mp found with rfl | ⟨_, rfl | ⟨_, old⟩⟩
      · refine ⟨tNode, fNode, right, left, ?_⟩
        rw [NavigationLocation.cost_comm]
        exact edgeWeight_eq_cost fNode tNode
      · exact ⟨fNode, tNode, left, right, edgeWeight_eq_cost fNode tNode⟩
      · exact formed.weighted edge old

/-- A deletion whose test does not tell an edge from its reverse, over an
up-to-date copy. -/
theorem WellFormed.removeEdges (formed : store.WellFormed) (order : EntryOrder K)
    (test : EdgeRecord Nat K → Bool)
    (symmetric : ∀ edge, test (edgeRecord edge.toNode edge.fromNode edge.stairs edge.weight) =
      test edge) :
    ((AugmentedCampus.removeEdges order store test).foldl apply store).WellFormed := by
  have removals := formed.keyed.removeEdges order test
  have safe := (admitted_removals removals).foldl (fun _ _ => Safe.apply) formed.safe
  refine ⟨safe.counted, safe.keyed, fun edge found => ?_, fun edge found => ?_⟩
  · rw [formed.keyed.hasEdge_removeEdges] at found ⊢
    obtain ⟨present, fails⟩ := found
    exact ⟨formed.reversed edge present, by rw [symmetric, fails]⟩
  · rw [nodes_removed removals]
    exact formed.weighted edge ((formed.keyed.hasEdge_removeEdges order test).mp found).1

theorem WellFormed.deleteNode (formed : store.WellFormed) (order : EntryOrder K) (nodeId : Nat) :
    ((AugmentedCampus.deleteNode order store nodeId).writes.foldl apply store).WellFormed := by
  have admitted := formed.safe.deleteNode_admitted order nodeId
  have safe := admitted.foldl (fun _ _ => Safe.apply) formed.safe
  obtain none | all := deleteNode_writes order store nodeId
  · simpa [none] using formed
  · rw [all] at safe ⊢
    rw [List.foldl_append] at safe ⊢
    have cleared := formed.removeEdges order
      (fun value => value.fromNode == nodeId || value.toNode == nodeId)
      (fun edge => Bool.or_comm _ _)
    refine ⟨safe.counted, safe.keyed, cleared.reversed, fun edge found => ?_⟩
    obtain ⟨fNode, tNode, left, right, weight⟩ := cleared.weighted edge found
    have fails := ((formed.keyed.hasEdge_removeEdges order _).mp found).2
    obtain ⟨leaves, enters⟩ : edge.fromNode ≠ nodeId ∧ edge.toNode ≠ nodeId := by
      simpa using fails
    refine ⟨fNode, tNode, ?_, ?_, weight⟩
    · simpa [leaves] using left
    · simpa [enters] using right

theorem WellFormed.deleteEdge (formed : store.WellFormed) (order : EntryOrder K)
    (edgeFrom edgeTo : Nat) :
    ((AugmentedCampus.deleteEdge order store edgeFrom edgeTo).writes.foldl apply
      store).WellFormed := by
  by_cases empty : store.edges.entries.isEmpty = true
  · simpa [AugmentedCampus.deleteEdge, empty] using formed
  · simp only [AugmentedCampus.deleteEdge, empty]
    apply formed.removeEdges
    intro edge
    rw [Bool.or_comm]
    congr 1 <;> exact Bool.and_comm _ _

/-- The step lemma: an uninterrupted call keeps the store well formed. -/
theorem WellFormed.complete (formed : store.WellFormed) (order : EntryOrder K)
    (operation : Operation K) : (store.complete order operation).WellFormed := by
  cases operation with
  | saveNode desc lat lng => exact formed.saveNode desc lat lng
  | saveEdge form fromNode toNode index => exact formed.saveEdge form fromNode toNode index
  | deleteNode nodeId => exact formed.deleteNode order nodeId
  | deleteEdge edgeFrom edgeTo => exact formed.deleteEdge order edgeFrom edgeTo

/-- Whatever is called with whatever arguments, the store stays well formed. -/
theorem run_wellFormed (order : EntryOrder K) (store : Database K)
    (operations : List (Operation K)) (formed : store.WellFormed) :
    (operations.foldl (Database.complete order) store).WellFormed := by
  induction operations generalizing store with
  | nil => exact formed
  | cons operation rest ih => exact ih _ (formed.complete order operation)

end Steps

end Database

theorem emptyCampus_wellFormed : emptyCampus.WellFormed where
  counted := emptyCampus_safe.counted
  keyed := emptyCampus_safe.keyed
  reversed := fun edge ⟨key, found⟩ => by simp [emptyCampus] at found
  weighted := fun edge ⟨key, found⟩ => by simp [emptyCampus] at found

/-- The last two calls throw: there is no marker 1, and no node 4. -/
def surveyCalls : List (Operation ℚ) :=
  [.saveNode "" (some 0) (some 0), .saveNode "Library" (some 3) (some 4),
    .saveEdge (.filled true) 1 2 0, .saveNode "Darden" (some 0) none, .deleteNode 7,
    .saveEdge (.filled false) 2 1 1, .saveEdge (.filled false) 4 2 0]

theorem run_wellFormed_emptyCampus :
    ((surveyCalls.foldl (Database.complete .asStored) emptyCampus).edges.lookup
        "node002_node001").map EdgeRecord.weight = some 5 ∧
      (surveyCalls.foldl (Database.complete .asStored) emptyCampus).WellFormed :=
  ⟨by decide +kernel, Database.run_wellFormed .asStored emptyCampus surveyCalls emptyCampus_wellFormed⟩

end AugmentedCampus
