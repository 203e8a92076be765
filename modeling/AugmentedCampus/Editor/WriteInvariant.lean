import AugmentedCampus.Foundation.GuardedLog
import AugmentedCampus.Editor.Operations

/-! One client, cut off anywhere: the guard that every single write of the
editor meets, and what the store satisfies between any two of them. -/
namespace AugmentedCampus

open Foundation

universe v

variable {K : Type v}

namespace Database

/-- Records lie under their keys and edges join stored nodes. -/
structure Linked (store : Database K) : Prop where
  keyed : store.Keyed
  resolvable : store.Resolvable

/-- What holds between any two writes of a client that reads an up-to-date copy. -/
structure Safe (store : Database K) : Prop extends store.Linked where
  counted : ∃ nodeCount, store.index = some nodeCount ∧ ∀ id, store.Stores id → id ≤ nodeCount

/-- Index before node, endpoints before edge, edges away before node. -/
def Admits (store : Database K) : Write K → Prop
  | .index value => ∀ nodeCount, store.index = some nodeCount → nodeCount < value
  | .node key (some node) => key = nodeKey node.id ∧ store.index = some node.id
  | .node key none => ∃ id, key = nodeKey id ∧
      ∀ edge, store.HasEdge edge → edge.fromNode ≠ id ∧ edge.toNode ≠ id
  | .edge key (some edge) => key = edge.id ∧ edge.id = edgeKey edge.fromNode edge.toNode ∧
      store.Stores edge.fromNode ∧ store.Stores edge.toNode
  | .edge key none => ∃ fromNode toNode, key = edgeKey fromNode toNode

/-- Every write meets the guard when its turn comes. -/
abbrev AdmitsAll (store : Database K) (writes : List (Write K)) : Prop :=
  Admitted apply Admits store writes

variable {store : Database K}

theorem Admits.keyed {write : Write K} (admitted : store.Admits write) : write.Keyed := by
  cases write with
  | index value => trivial
  | node key record =>
    cases record with
    | none =>
      obtain ⟨id, rfl, _⟩ := admitted
      exact ⟨id, rfl, by simp⟩
    | some node => exact ⟨node.id, admitted.1, by simp⟩
  | edge key record =>
    cases record with
    | none =>
      obtain ⟨fromNode, toNode, rfl⟩ := admitted
      exact ⟨fromNode, toNode, rfl, by simp⟩
    | some edge =>
      obtain ⟨rfl, own, _⟩ := admitted
      exact ⟨edge.fromNode, edge.toNode, own, by simp⟩

/-- An admitted write keeps the edges resolved. -/
theorem Linked.apply {write : Write K} (linked : store.Linked) (admitted : store.Admits write) :
    (store.apply write).Linked := by
  refine ⟨linked.keyed.apply admitted.keyed, ?_⟩
  cases write with
  | index value => exact linked.resolvable
  | node key record =>
    intro edge found
    obtain ⟨left, right⟩ := linked.resolvable edge found
    cases record with
    | none =>
      obtain ⟨gone, rfl, free⟩ := admitted
      obtain ⟨apart, away⟩ := free edge found
      exact ⟨linked.keyed.stores_deleted.mpr ⟨apart, left⟩,
        linked.keyed.stores_deleted.mpr ⟨away, right⟩⟩
    | some node =>
      obtain ⟨rfl, _⟩ := admitted
      exact ⟨linked.keyed.stores_saved.mpr (.inr left), linked.keyed.stores_saved.mpr (.inr right)⟩
  | edge key record =>
    intro edge found
    cases record with
    | none => exact linked.resolvable edge (linked.keyed.hasEdge_deleted.mp found).2
    | some saved =>
      obtain ⟨rfl, own, left, right⟩ := admitted
      rcases (linked.keyed.hasEdge_saved _ _ own).mp found with rfl | ⟨_, old⟩
      · exact ⟨left, right⟩
      · exact linked.resolvable edge old

/-- The step lemma: an admitted write keeps the store safe. -/
theorem Safe.apply {write : Write K} (safe : store.Safe) (admitted : store.Admits write) :
    (store.apply write).Safe := by
  refine ⟨safe.toLinked.apply admitted, ?_⟩
  obtain ⟨nodeCount, counted, bounded⟩ := safe.counted
  cases write with
  | index value => exact ⟨value, rfl, fun id stored =>
      (bounded id stored).trans (admitted nodeCount counted).le⟩
  | node key record =>
    refine ⟨nodeCount, counted, fun id stored => ?_⟩
    cases record with
    | none =>
      obtain ⟨gone, rfl, _⟩ := admitted
      exact bounded id (safe.keyed.stores_deleted.mp stored).2
    | some node =>
      obtain ⟨rfl, reserved⟩ := admitted
      rcases safe.keyed.stores_saved.mp stored with rfl | old
      · exact (Option.some.inj (reserved.symm.trans counted)).le
      · exact bounded id old
  | edge key record => exact ⟨nodeCount, counted, bounded⟩

/-- The edges that deletions leave behind. -/
theorem hasEdge_removed {writes : List (Write K)} (keyed : store.Keyed)
    (removals : ∀ write ∈ writes, ∃ fromNode toNode,
      write = .edge (edgeKey fromNode toNode) none) {edge : EdgeRecord Nat K} :
    (writes.foldl apply store).HasEdge edge ↔
      store.HasEdge edge ∧ Write.edge edge.id none ∉ writes := by
  induction writes generalizing store with
  | nil => simp
  | cons write rest ih =>
    obtain ⟨fromNode, toNode, rfl⟩ := removals write (by simp)
    have after : (store.apply (.edge (edgeKey fromNode toNode) none)).Keyed :=
      keyed.apply ⟨fromNode, toNode, rfl, by simp⟩
    have others : ∀ write ∈ rest, ∃ fromNode toNode,
        write = .edge (edgeKey fromNode toNode) none :=
      fun write member => removals write (List.mem_cons_of_mem _ member)
    simp only [List.foldl_cons, ih after others, keyed.hasEdge_deleted, List.mem_cons,
      Write.edge.injEq, and_true]
    tauto

theorem admitted_removals {writes : List (Write K)}
    (removals : ∀ write ∈ writes, ∃ fromNode toNode,
      write = .edge (edgeKey fromNode toNode) none) : store.AdmitsAll writes := by
  induction writes generalizing store with
  | nil => trivial
  | cons write rest ih =>
    obtain ⟨fromNode, toNode, rfl⟩ := removals write (by simp)
    exact ⟨⟨fromNode, toNode, rfl⟩,
      ih (fun write member => removals write (List.mem_cons_of_mem _ member))⟩

/-- The loop of a deletion over an up-to-date copy removes exactly what passes the test. -/
theorem Keyed.removeEdges (keyed : store.Keyed) (order : EntryOrder K)
    (test : EdgeRecord Nat K → Bool) :
    ∀ write ∈ AugmentedCampus.removeEdges order store test,
      ∃ fromNode toNode, write = .edge (edgeKey fromNode toNode) none := by
  intro write issued
  obtain ⟨edge, found, _, rfl⟩ := mem_removeEdges.mp issued
  exact ⟨edge.fromNode, edge.toNode, by rw [keyed.edge_id found]⟩

theorem Keyed.hasEdge_removeEdges (keyed : store.Keyed) (order : EntryOrder K)
    (test : EdgeRecord Nat K → Bool) {edge : EdgeRecord Nat K} :
    ((AugmentedCampus.removeEdges order store test).foldl Database.apply store).HasEdge edge ↔
      store.HasEdge edge ∧ test edge = false := by
  rw [hasEdge_removed keyed (keyed.removeEdges order test)]
  constructor
  · intro left
    obtain ⟨found, kept⟩ := left
    refine ⟨found, ?_⟩
    by_contra passes
    exact kept (mem_removeEdges.mpr ⟨edge, found, by simpa using passes, rfl⟩)
  · intro left
    obtain ⟨found, fails⟩ := left
    refine ⟨found, fun issued => ?_⟩
    obtain ⟨other, present, passes, same⟩ := mem_removeEdges.mp issued
    have equal : edge = other := keyed.edge_unique found present (by simpa using same)
    simp [equal, passes] at fails

theorem saveNode_admitted (store : Database K) (desc : String) (lat lng : Option K) :
    store.AdmitsAll (saveNode store desc lat lng).writes := by
  obtain none | ⟨nodeCount, counted, single | ⟨node, own, both⟩⟩ := saveNode_writes store desc lat lng
  · simp [none]
  · rw [single]
    refine ⟨fun stored found => ?_, trivial⟩
    cases counted.symm.trans found
    exact Nat.lt_succ_self _
  · rw [both]
    refine ⟨fun stored found => ?_, ⟨by rw [own], by simp [own]⟩, trivial⟩
    cases counted.symm.trans found
    exact Nat.lt_succ_self _

theorem Linked.saveEdge_admitted [Ring K] [SquareRoot K] (linked : store.Linked)
    (form : EdgeForm) (fromNode toNode index : Nat) :
    store.AdmitsAll (saveEdge store form fromNode toNode index).writes := by
  obtain none | ⟨_, fNode, tNode, left, right, both⟩ :=
    saveEdge_writes store form fromNode toNode index
  · simp [none]
  · have first : store.Stores fromNode := linked.keyed.stores_iff.mpr ⟨fNode, left⟩
    have second : store.Stores toNode := linked.keyed.stores_iff.mpr ⟨tNode, right⟩
    rw [both]
    exact ⟨⟨rfl, rfl, first, second⟩, ⟨rfl, rfl, second, first⟩, trivial⟩

theorem Linked.deleteNode_admitted (linked : store.Linked) (order : EntryOrder K) (nodeId : Nat) :
    store.AdmitsAll (deleteNode order store nodeId).writes := by
  obtain none | all := deleteNode_writes order store nodeId
  · simp [none]
  · rw [all]
    refine Admitted.append_iff.mpr
      ⟨admitted_removals (linked.keyed.removeEdges order _), ⟨nodeId, rfl, ?_⟩, trivial⟩
    intro edge found
    have kept := ((linked.keyed.hasEdge_removeEdges order _).mp found).2
    simpa using kept

theorem Linked.deleteEdge_admitted (linked : store.Linked) (order : EntryOrder K)
    (edgeFrom edgeTo : Nat) :
    store.AdmitsAll (deleteEdge order store edgeFrom edgeTo).writes := by
  apply admitted_removals
  intro write issued
  obtain ⟨edge, found, rfl⟩ := mem_deleteEdge_writes issued
  exact ⟨edge.fromNode, edge.toNode, by rw [linked.keyed.edge_id found]⟩

/-- An uninterrupted call writes nothing that the guard forbids. -/
theorem Linked.issued [Ring K] [SquareRoot K] (linked : store.Linked) (order : EntryOrder K)
    (operation : Operation K) :
    store.AdmitsAll (operation.issued order store).writes := by
  cases operation with
  | saveNode desc lat lng => exact saveNode_admitted store desc lat lng
  | saveEdge form fromNode toNode index =>
    exact linked.saveEdge_admitted form fromNode toNode index
  | deleteNode nodeId => exact linked.deleteNode_admitted order nodeId
  | deleteEdge edgeFrom edgeTo => exact linked.deleteEdge_admitted order edgeFrom edgeTo

end Database

/-- A call of which only the first `cut` writes go out; the client then reloads. -/
structure Attempt (K : Type v) where
  operation : Operation K
  cut : Nat

section Runs

variable {store : Database K}

/-- The ids handed out: `saveNode` reserves its id with its first write, to the
index, and no other call writes there. A call cut off before that write leaves
nothing behind. -/
def handedOut (writes : List (Write K)) : List Nat :=
  writes.filterMap fun
    | .index value => some value
    | _ => none

/-- The `_id`s of the node records written. -/
def created (writes : List (Write K)) : List Nat :=
  writes.filterMap fun
    | .node _ (some node) => some node.id
    | _ => none

@[simp] theorem handedOut_append (first second : List (Write K)) :
    handedOut (first ++ second) = handedOut first ++ handedOut second :=
  List.filterMap_append ..

@[simp] theorem created_append (first second : List (Write K)) :
    created (first ++ second) = created first ++ created second :=
  List.filterMap_append ..

theorem mem_handedOut {writes : List (Write K)} {id : Nat} :
    id ∈ handedOut writes ↔ Write.index id ∈ writes := by
  simp only [handedOut, List.mem_filterMap]
  constructor
  · intro reserved
    obtain ⟨write, member, same⟩ := reserved
    cases write with
    | index value =>
      cases same
      exact member
    | node key record => cases same
    | edge key record => cases same
  · exact fun member => ⟨_, member, rfl⟩

theorem mem_created {writes : List (Write K)} {id : Nat} :
    id ∈ created writes ↔ ∃ key node, Write.node key (some node) ∈ writes ∧ node.id = id := by
  simp only [created, List.mem_filterMap]
  constructor
  · intro saved
    obtain ⟨write, member, same⟩ := saved
    cases write with
    | index value => cases same
    | edge key record => cases same
    | node key record =>
      cases record with
      | none => cases same
      | some node => exact ⟨key, node, member, Option.some.inj same⟩
  · intro saved
    obtain ⟨key, node, member, rfl⟩ := saved
    exact ⟨_, member, rfl⟩

theorem handedOut_increasing {writes : List (Write K)} {nodeCount : Nat}
    (counted : store.index = some nodeCount) (admitted : store.AdmitsAll writes) :
    (∀ id ∈ handedOut writes, nodeCount < id) ∧ (handedOut writes).Pairwise (· < ·) := by
  induction writes generalizing store nodeCount with
  | nil => simp [handedOut]
  | cons write rest ih =>
    obtain ⟨guard, later⟩ := admitted
    cases write with
    | index value =>
      have grown : nodeCount < value := guard nodeCount counted
      obtain ⟨above, sorted⟩ := ih rfl later
      have head : handedOut (.index value :: rest : List (Write K)) = value :: handedOut rest := rfl
      rw [head]
      refine ⟨?_, List.pairwise_cons.mpr ⟨above, sorted⟩⟩
      intro id member
      rcases List.mem_cons.mp member with rfl | reserved
      · exact grown
      · exact grown.trans (above id reserved)
    | node key record =>
      have same : (store.apply (.node key record)).index = some nodeCount := counted
      exact ih same later
    | edge key record =>
      have same : (store.apply (.edge key record)).index = some nodeCount := counted
      exact ih same later

private theorem created_nil {writes : List (Write K)}
    (unsaved : ∀ key node, Write.node key (some node) ∉ writes) : created writes = [] := by
  apply List.filterMap_eq_nil_iff.mpr
  intro write member
  cases write with
  | index value => rfl
  | edge key record => rfl
  | node key record =>
    cases record with
    | none => rfl
    | some node => exact absurd member (unsaved key node)

/-- A node record goes out only after the index write that reserves its id. -/
theorem saveNode_reserves (store : Database K) (desc : String) (lat lng : Option K) (cut : Nat) :
    (created ((saveNode store desc lat lng).writes.take cut)).Sublist
      (handedOut ((saveNode store desc lat lng).writes.take cut)) := by
  obtain none | ⟨nodeCount, _, single | ⟨node, own, both⟩⟩ := saveNode_writes store desc lat lng
  · simp [none, created]
  · rw [single, created_nil]
    · exact List.nil_sublist _
    · intro key node member
      cases List.mem_singleton.mp (List.mem_of_mem_take member)
  · rw [both]
    match cut with
    | 0 => simp [created]
    | 1 => simp [created]
    | more + 2 => simp [created, handedOut, own]

variable [Ring K] [SquareRoot K]

def Attempt.writes (order : EntryOrder K) (store : Database K) (attempt : Attempt K) :
    List (Write K) :=
  (attempt.operation.issued order store).writes.take attempt.cut

/-- All writes of a run, in order. -/
def runWrites (order : EntryOrder K) (store : Database K) (attempts : List (Attempt K)) :
    List (Write K) :=
  callLog Database.apply (attempts.map fun attempt store => attempt.writes order store) store

theorem Database.Safe.runWrites (safe : store.Safe) (order : EntryOrder K)
    (attempts : List (Attempt K)) :
    store.AdmitsAll (AugmentedCampus.runWrites order store attempts) := by
  refine Admitted.callLog (fun _ _ => Database.Safe.apply) (fun call member state holds => ?_) safe
  obtain ⟨attempt, _, rfl⟩ := List.mem_map.mp member
  exact (holds.issued order attempt.operation).take attempt.cut

theorem Attempt.created_sublist (order : EntryOrder K) (store : Database K) (attempt : Attempt K) :
    (created (attempt.writes order store)).Sublist (handedOut (attempt.writes order store)) := by
  obtain ⟨operation, cut⟩ := attempt
  have unsaved (absent : ∀ key node,
      Write.node key (some node) ∉ (operation.issued order store).writes) :
      (created (Attempt.writes order store ⟨operation, cut⟩)).Sublist
        (handedOut (Attempt.writes order store ⟨operation, cut⟩)) := by
    rw [Attempt.writes, created_nil fun key node member =>
      absent key node (List.mem_of_mem_take member)]
    exact List.nil_sublist _
  cases operation with
  | saveNode desc lat lng => exact saveNode_reserves store desc lat lng cut
  | saveEdge form fromNode toNode index =>
    apply unsaved
    intro key node issued
    obtain none | ⟨_, _, _, _, _, both⟩ := saveEdge_writes store form fromNode toNode index
    · simp [Operation.issued, none] at issued
    · simp [Operation.issued, both] at issued
  | deleteNode nodeId =>
    apply unsaved
    intro key node issued
    obtain ⟨_, _, _, edge⟩ | last := mem_deleteNode_writes issued
    · cases edge
    · cases last
  | deleteEdge edgeFrom edgeTo =>
    apply unsaved
    intro key node issued
    obtain ⟨_, _, edge⟩ := mem_deleteEdge_writes issued
    cases edge

theorem created_runWrites_sublist (order : EntryOrder K) (store : Database K)
    (attempts : List (Attempt K)) :
    (created (runWrites order store attempts)).Sublist
      (handedOut (runWrites order store attempts)) := by
  induction attempts generalizing store with
  | nil => exact List.nil_sublist _
  | cons attempt rest ih =>
    simp only [runWrites, List.map_cons, callLog, created_append, handedOut_append]
    exact (attempt.created_sublist order store).append (ih _)

/-- However the calls of a run are cut off, after every single write each stored
edge joins stored nodes and the index is at least every stored id. The ids
handed out go up strictly from above the stored ones, and node records are
written under such ids, each at most once. -/
theorem interrupted_run_safe (order : EntryOrder K) (store : Database K)
    (attempts : List (Attempt K)) (safe : store.Safe) :
    (∀ reached ∈ (runWrites order store attempts).scanl Database.apply store,
      reached.Resolvable ∧
        ∃ nodeCount, reached.index = some nodeCount ∧
          ∀ id, reached.Stores id → id ≤ nodeCount) ∧
      (handedOut (runWrites order store attempts)).Pairwise (· < ·) ∧
      (∀ id ∈ handedOut (runWrites order store attempts),
        ∀ stored, store.Stores stored → stored < id) ∧
      (created (runWrites order store attempts)).Sublist
        (handedOut (runWrites order store attempts)) := by
  have admitted := safe.runWrites order attempts
  obtain ⟨nodeCount, counted, bounded⟩ := safe.counted
  obtain ⟨above, sorted⟩ := handedOut_increasing counted admitted
  refine ⟨fun reached member => ?_, sorted, ?_, created_runWrites_sublist order store attempts⟩
  · have after := admitted.scanl (fun _ _ => Database.Safe.apply) safe reached member
    exact ⟨after.resolvable, after.counted⟩
  · intro id reserved stored found
    exact (bounded stored found).trans_lt (above id reserved)

end Runs

/-- A campus with nothing on it yet. -/
def emptyCampus : Database ℚ := ⟨some 0, ∅, ∅⟩

theorem emptyCampus_safe : emptyCampus.Safe where
  counted := ⟨0, rfl, fun id ⟨key, record, found, _⟩ => by simp [emptyCampus] at found⟩
  keyed := ⟨fun key record found => by simp [emptyCampus] at found,
    fun key edge found => by simp [emptyCampus] at found⟩
  resolvable := fun edge ⟨key, found⟩ => by simp [emptyCampus] at found

/-- The second call is cut off between its writes, the deletion before its last. -/
def interruptedAttempts : List (Attempt ℚ) :=
  [⟨.saveNode "" (some 0) (some 0), 2⟩, ⟨.saveNode "Library" (some 3) (some 4), 1⟩,
    ⟨.saveNode "Darden" (some 3) (some 4), 2⟩, ⟨.saveEdge (.filled false) 1 3 0, 2⟩, ⟨.deleteNode 1, 2⟩]

theorem interrupted_run_safe_emptyCampus :
    handedOut (runWrites .asStored emptyCampus interruptedAttempts) = [1, 2, 3] ∧
      created (runWrites .asStored emptyCampus interruptedAttempts) = [1, 3] ∧
      ∀ reached ∈ (runWrites .asStored emptyCampus interruptedAttempts).scanl
        Database.apply emptyCampus, reached.Resolvable :=
  ⟨by decide +kernel, by decide +kernel, fun reached member =>
    ((interrupted_run_safe .asStored emptyCampus interruptedAttempts emptyCampus_safe).1
      reached member).1⟩

end AugmentedCampus
