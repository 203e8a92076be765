import AugmentedCampus.Campus.DataManager
import AugmentedCampus.Editor.WriteInvariant

/-! The two reads of a launching app, between the writes of an editor. -/
namespace AugmentedCampus

open Foundation

universe v

variable {K : Type v}

/-- `snapshot.value`: null, without a call of the completion, when nothing is stored. -/
def snapshotValue {Value : Type v} (stored : Dictionary String Value) :
    Option (Dictionary String Value) :=
  if stored.entries.isEmpty then none else some stored

theorem snapshotValue_eq_none {Value : Type v} {stored : Dictionary String Value} :
    snapshotValue stored = none ↔ ∀ key, stored.lookup key = none := by
  simp [snapshotValue, Dictionary.entries_eq_nil]

theorem snapshotValue_eq_some {Value : Type v} {stored read : Dictionary String Value}
    (found : snapshotValue stored = some read) : read = stored := by
  unfold snapshotValue at found
  split at found
  · cases found
  · exact (Option.some.inj found).symm

namespace Database

def fetchNodes (store : Database K) : Option (Dictionary String (NodeRecord Nat K)) :=
  snapshotValue store.nodes

def fetchEdges (store : Database K) : Option (Dictionary String (EdgeRecord Nat K)) :=
  snapshotValue store.edges

/-- The store once the first `count` of the writes have been applied. -/
def after (store : Database K) (writes : List (Write K)) (count : Nat) : Database K :=
  (writes.take count).foldl apply store

/-- The writes of uninterrupted calls of one editor. -/
def editorWrites [Ring K] [SquareRoot K] (order : EntryOrder K) (store : Database K)
    (operations : List (Operation K)) : List (Write K) :=
  callLog apply (operations.map fun operation store => (operation.issued order store).writes) store

end Database

/-- How far a launch gets. -/
inductive Launch (K : Type v) [DecidableEq K] where
  | waiting
  | loaded (manager : DataManager Nat K)
  | trapped

def Launch.isTrapped [DecidableEq K] : Launch K → Bool
  | .trapped => true
  | _ => false

theorem Launch.isTrapped_iff [DecidableEq K] {launch : Launch K} :
    launch.isTrapped = true ↔ launch = .trapped := by
  cases launch <;> simp [isTrapped]

/-- The nested fetches of `viewDidLoad`: `Nodes` is read from the first store,
and in its completion `Edges` from the second. -/
def viewDidLoad [DecidableEq K] (nodeOrder : Dictionary.Order String (NodeRecord Nat K))
    (edgeOrder : Dictionary.Order String (EdgeRecord Nat K)) (first second : Database K) :
    Launch K :=
  match first.fetchNodes with
  | none => .waiting
  | some nodesDict =>
    match second.fetchEdges with
    | none => .waiting
    | some edgesDict =>
      match DataManager.convertToNavigationLocations nodeOrder edgeOrder .empty nodesDict
        edgesDict with
      | some manager => .loaded manager
      | none => .trapped

namespace Database

variable {store : Database K}

theorem mem_nodes_values {id : Nat} :
    (∃ node ∈ store.nodes.values, node.id = id) ↔ store.Stores id := by
  simp only [Dictionary.mem_values]
  constructor
  · intro listed
    obtain ⟨node, ⟨key, found⟩, own⟩ := listed
    exact ⟨key, node, found, own⟩
  · intro stored
    obtain ⟨key, node, found, own⟩ := stored
    exact ⟨node, ⟨key, found⟩, own⟩

theorem fetchNodes_eq_none : store.fetchNodes = none ↔ ∀ id, ¬ store.Stores id := by
  rw [fetchNodes, snapshotValue_eq_none]
  constructor
  · intro absent id stored
    obtain ⟨key, node, found, _⟩ := stored
    cases (absent key).symm.trans found
  · intro absent key
    cases found : store.nodes.lookup key with
    | none => rfl
    | some node => exact absurd ⟨key, node, found, rfl⟩ (absent node.id)

theorem fetchEdges_eq_none : store.fetchEdges = none ↔ ∀ edge, ¬ store.HasEdge edge := by
  rw [fetchEdges, snapshotValue_eq_none]
  constructor
  · intro absent edge stored
    obtain ⟨key, found⟩ := stored
    cases (absent key).symm.trans found
  · intro absent key
    cases found : store.edges.lookup key with
    | none => rfl
    | some edge => exact absurd ⟨key, found⟩ (absent edge)

/-- What the force-unwraps need of the two snapshots. -/
theorem viewDidLoad_trapped [DecidableEq K]
    {nodeOrder : Dictionary.Order String (NodeRecord Nat K)}
    {edgeOrder : Dictionary.Order String (EdgeRecord Nat K)} {first second : Database K} :
    viewDidLoad nodeOrder edgeOrder first second = .trapped ↔
      (∃ id, first.Stores id) ∧ ∃ edge, second.HasEdge edge ∧
        ¬ (first.Stores edge.fromNode ∧ first.Stores edge.toNode) := by
  unfold viewDidLoad
  cases nodesRead : first.fetchNodes with
  | none => simp [fetchNodes_eq_none.mp nodesRead]
  | some nodesDict =>
    have nonempty : ∃ id, first.Stores id := by
      by_contra empty
      cases (fetchNodes_eq_none.mpr (not_exists.mp empty)).symm.trans nodesRead
    cases edgesRead : second.fetchEdges with
    | none => simp [fetchEdges_eq_none.mp edgesRead]
    | some edgesDict =>
      cases snapshotValue_eq_some nodesRead
      cases snapshotValue_eq_some edgesRead
      have missing (id : Nat) :
          (∀ node ∈ first.nodes.values, node.id ≠ id) ↔ ¬ first.Stores id := by
        simp [← mem_nodes_values]
      have unresolved : DataManager.convertToNavigationLocations nodeOrder edgeOrder .empty
          first.nodes second.edges = none ↔ ∃ edge, second.HasEdge edge ∧
            ¬ (first.Stores edge.fromNode ∧ first.Stores edge.toNode) := by
        simp only [DataManager.convert_eq_none, missing, ← not_and_or]
        simp only [Dictionary.mem_values, HasEdge]
      simp only [nonempty, true_and, ← unresolved]
      cases DataManager.convertToNavigationLocations nodeOrder edgeOrder .empty first.nodes
        second.edges <;> simp

/-- An edge that is there after some writes was there before or was set by one of them. -/
theorem hasEdge_foldl {writes : List (Write K)} {edge : EdgeRecord Nat K}
    (found : (writes.foldl apply store).HasEdge edge) :
    store.HasEdge edge ∨ ∃ key, Write.edge key (some edge) ∈ writes := by
  induction writes generalizing store with
  | nil => exact .inl found
  | cons write rest ih =>
    rcases ih found with ⟨key, before⟩ | ⟨key, later⟩
    · cases write with
      | index value => exact .inl ⟨key, before⟩
      | node other record => exact .inl ⟨key, before⟩
      | edge other record =>
        rw [lookup_apply_edge] at before
        by_cases same : key = other
        · rw [if_pos same] at before
          exact .inr ⟨other, by simp [before]⟩
        · exact .inl ⟨key, by simpa [same] using before⟩
    · exact .inr ⟨key, List.mem_cons_of_mem _ later⟩

theorem Linked.editorWrites [Ring K] [SquareRoot K] (linked : store.Linked) (order : EntryOrder K)
    (operations : List (Operation K)) :
    store.AdmitsAll (store.editorWrites order operations) := by
  refine Admitted.callLog (fun _ _ => Linked.apply) (fun call member state holds => ?_) linked
  obtain ⟨operation, _, rfl⟩ := List.mem_map.mp member
  exact holds.issued order operation

/-- What happens to the store between two reads. -/
theorem after_of_le {writes : List (Write K)} {early late : Nat} (inOrder : early ≤ late) :
    store.after writes late =
      ((writes.take late).drop early).foldl apply (store.after writes early) := by
  have split := List.take_append_drop early (writes.take late)
  rw [List.take_take, min_eq_left inOrder] at split
  rw [after, after, ← List.foldl_append, split]

end Database

/-- The app reads `Nodes` after `early` and `Edges` after `late` writes of an
editor. Its force-unwraps find both ends of every edge exactly when no node was
stored at the first read, or every edge set between the two reads and still
stored at the second joins nodes that were stored at the first. -/
theorem viewDidLoad_not_trapped_iff [DecidableEq K] [Ring K] [SquareRoot K]
    (nodeOrder : Dictionary.Order String (NodeRecord Nat K))
    (edgeOrder : Dictionary.Order String (EdgeRecord Nat K)) (order : EntryOrder K)
    (store : Database K) (operations : List (Operation K)) (early late : Nat)
    (inOrder : early ≤ late) (keyed : store.Keyed) (resolvable : store.Resolvable) :
    viewDidLoad nodeOrder edgeOrder (store.after (store.editorWrites order operations) early)
        (store.after (store.editorWrites order operations) late) ≠ .trapped ↔
      (∀ id, ¬ (store.after (store.editorWrites order operations) early).Stores id) ∨
        ∀ key edge,
          Write.edge key (some edge) ∈
            ((store.editorWrites order operations).take late).drop early →
          (store.after (store.editorWrites order operations) late).HasEdge edge →
          (store.after (store.editorWrites order operations) early).Stores edge.fromNode ∧
            (store.after (store.editorWrites order operations) early).Stores edge.toNode := by
  have linked : store.Linked := ⟨keyed, resolvable⟩
  have first : (store.after (store.editorWrites order operations) early).Linked :=
    ((linked.editorWrites order operations).take early).foldl
      (fun _ _ => Database.Linked.apply) linked
  rw [Ne, Database.viewDidLoad_trapped, not_and_or, not_exists]
  apply or_congr_right
  constructor
  · intro resolved key edge _ found
    by_contra missing
    exact resolved ⟨edge, found, missing⟩
  · intro set dangling
    obtain ⟨edge, found, missing⟩ := dangling
    have later := found
    rw [Database.after_of_le inOrder] at later
    rcases Database.hasEdge_foldl later with old | ⟨key, written⟩
    · exact missing (first.resolvable edge old)
    · exact missing (set key edge written found)

/-- A survey of two places and the path between them. -/
def pathSurvey : List (Operation ℚ) :=
  [.saveNode "Library" (some 0) (some 0), .saveNode "Darden" (some 3) (some 4),
    .saveEdge (.filled false) 1 2 0]

/-- `Nodes` is read before the second place is written, `Edges` at the end. -/
theorem viewDidLoad_traps :
    emptyCampus.Keyed ∧ emptyCampus.Resolvable ∧
      viewDidLoad .asStored .asStored
        (emptyCampus.after (emptyCampus.editorWrites .asStored pathSurvey) 2)
        (emptyCampus.after (emptyCampus.editorWrites .asStored pathSurvey) 6) = .trapped := by
  refine ⟨emptyCampus_safe.keyed, emptyCampus_safe.resolvable, Launch.isTrapped_iff.mp ?_⟩
  decide +kernel

theorem viewDidLoad_not_trapped_iff_pathSurvey :
    viewDidLoad .asStored .asStored
      (emptyCampus.after (emptyCampus.editorWrites .asStored pathSurvey) 4)
      (emptyCampus.after (emptyCampus.editorWrites .asStored pathSurvey) 6) ≠ .trapped := by
  apply (viewDidLoad_not_trapped_iff .asStored .asStored .asStored emptyCampus pathSurvey 4 6
    (by decide) emptyCampus_safe.keyed emptyCampus_safe.resolvable).mpr
  right
  intro key edge written _
  have between : ((emptyCampus.editorWrites .asStored pathSurvey).take 6).drop 4 =
      [.edge "node001_node002" (some ⟨"node001_node002", 1, 2, false, 5⟩),
        .edge "node002_node001" (some ⟨"node002_node001", 2, 1, false, 5⟩)] := by
    decide +kernel
  have library : (emptyCampus.after (emptyCampus.editorWrites .asStored pathSurvey) 4).Stores 1 :=
    ⟨"node001", ⟨1, "Library", 0, 0⟩, by decide +kernel, rfl⟩
  have darden : (emptyCampus.after (emptyCampus.editorWrites .asStored pathSurvey) 4).Stores 2 :=
    ⟨"node002", ⟨2, "Darden", 3, 4⟩, by decide +kernel, rfl⟩
  simp only [between, List.mem_cons, Write.edge.injEq, Option.some.injEq, List.not_mem_nil,
    or_false] at written
  rcases written with ⟨_, rfl⟩ | ⟨_, rfl⟩
  · exact ⟨library, darden⟩
  · exact ⟨darden, library⟩

end AugmentedCampus
