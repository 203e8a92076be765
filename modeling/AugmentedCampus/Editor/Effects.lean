import AugmentedCampus.Editor.Consistency

/-! What one uninterrupted call leaves in the store, record by record. -/
namespace AugmentedCampus

open Foundation

universe v

variable {K : Type v}

namespace Database

variable {store after : Database K}

section SaveEdge

/-- The ends are equal, or one of them is not stored. -/
def Refuses (store : Database K) (fromNode toNode : Nat) : Prop :=
  fromNode = toNode ∨ store.nodes.lookup (nodeKey fromNode) = none ∨
    store.nodes.lookup (nodeKey toNode) = none

/-- Both directed records, with what is ticked and one weight. -/
def HasRecords (store : Database K) (form : EdgeForm) (fromNode toNode : Nat) (weight : K) :
    Prop :=
  ∃ hasStairs ∈ form.yesStairs,
    store.edges.lookup (edgeKey fromNode toNode) =
        some (edgeRecord fromNode toNode hasStairs weight) ∧
      store.edges.lookup (edgeKey toNode fromNode) =
        some (edgeRecord toNode fromNode hasStairs weight)

/-- What `saveEdge` is for: both directed records or, for ends that are equal or
not stored, nothing. -/
structure SavesEdge (store after : Database K) (form : EdgeForm) (fromNode toNode : Nat) :
    Prop where
  nothing : store.Refuses fromNode toNode →
    ∀ key, after.edges.lookup key = store.edges.lookup key
  both : ¬ store.Refuses fromNode toNode →
    ∃ weight, after.HasRecords form fromNode toNode weight ∧
      ∀ key, key ≠ edgeKey fromNode toNode → key ≠ edgeKey toNode fromNode →
        after.edges.lookup key = store.edges.lookup key
  nodes : after.nodes = store.nodes
  index : after.index = store.index

theorem savesEdge_refused {form : EdgeForm} {fromNode toNode : Nat}
    (refuses : store.Refuses fromNode toNode) : store.SavesEdge store form fromNode toNode :=
  ⟨fun _ _ => rfl, fun accepted => absurd refuses accepted, rfl, rfl⟩

variable [Ring K] [SquareRoot K] {form : EdgeForm} {fromNode toNode index : Nat}
  {fNode tNode : NodeRecord Nat K}

theorem edgeWeight_self (node : NodeRecord Nat K) :
    edgeWeight node node = SquareRoot.squareRoot 0 := by
  simp [edgeWeight]

theorem saveEdge_missing_unchanged (order : EntryOrder K) (form : EdgeForm) (index : Nat)
    (missing : store.nodes.lookup (nodeKey fromNode) = none ∨
      store.nodes.lookup (nodeKey toNode) = none) :
    store.complete order (.saveEdge form fromNode toNode index) = store := by
  simp [complete, Operation.issued, saveEdge_missing form index missing]

theorem saveEdge_thrown_unchanged (order : EntryOrder K) (store : Database K)
    (fromNode toNode : Nat) (stuck : ¬ form.Closes index) :
    store.complete order (.saveEdge form fromNode toNode index) = store := by
  simp [complete, Operation.issued, saveEdge_thrown stuck]

/-- The store after a call that gets to its writes. -/
theorem saveEdge_lookup (order : EntryOrder K) (closes : form.Closes index)
    (first : store.nodes.lookup (nodeKey fromNode) = some fNode)
    (second : store.nodes.lookup (nodeKey toNode) = some tNode) :
    ∃ hasStairs ∈ form.yesStairs, ∀ key,
      (store.complete order (.saveEdge form fromNode toNode index)).edges.lookup key =
        if key = edgeKey toNode fromNode then
          some (edgeRecord toNode fromNode hasStairs (edgeWeight fNode tNode))
        else if key = edgeKey fromNode toNode then
          some (edgeRecord fromNode toNode hasStairs (edgeWeight fNode tNode))
        else store.edges.lookup key := by
  obtain ⟨hasStairs, ticked, same⟩ := closes.saveEdge_eq store fromNode toNode
  refine ⟨hasStairs, ticked, fun key => ?_⟩
  simp [complete, Operation.issued, same, storeEdge_stored hasStairs first second]

theorem saveEdge_frame (order : EntryOrder K) (store : Database K) (form : EdgeForm)
    (fromNode toNode index : Nat) :
    (store.complete order (.saveEdge form fromNode toNode index)).nodes = store.nodes ∧
      (store.complete order (.saveEdge form fromNode toNode index)).index = store.index := by
  obtain none | ⟨_, _, _, _, _, both⟩ := saveEdge_writes store form fromNode toNode index
  · simp [complete, Operation.issued, none]
  · simp [complete, Operation.issued, both, apply]

theorem saveEdge_saves (order : EntryOrder K) (closes : form.Closes index)
    (first : store.nodes.lookup (nodeKey fromNode) = some fNode)
    (second : store.nodes.lookup (nodeKey toNode) = some tNode) (different : fromNode ≠ toNode) :
    store.SavesEdge (store.complete order (.saveEdge form fromNode toNode index)) form fromNode
      toNode := by
  obtain ⟨nodes, counter⟩ := saveEdge_frame order store form fromNode toNode index
  obtain ⟨hasStairs, ticked, after⟩ := saveEdge_lookup order closes first second
  have accepted : ¬ store.Refuses fromNode toNode := by
    intro refuses
    rcases refuses with same | none | none
    · exact different same
    · cases first.symm.trans none
    · cases second.symm.trans none
  have apart : edgeKey fromNode toNode ≠ edgeKey toNode fromNode := fun same =>
    different (edgeKey_injective same).1
  refine ⟨fun refuses => absurd refuses accepted, fun _ => ⟨edgeWeight fNode tNode, ⟨hasStairs,
    ticked, ?_, ?_⟩, fun key away other => ?_⟩, nodes, counter⟩
  · rw [after, if_neg apart, if_pos rfl]
  · rw [after, if_pos rfl]
  · rw [after, if_neg other, if_neg away]

/-- A call that gets past its checks stores the loop it reports. -/
theorem saveEdge_loop_iff (order : EntryOrder K) (closes : form.Closes index)
    (stored : store.nodes.lookup (nodeKey fromNode) = some fNode) :
    store.SavesEdge (store.complete order (.saveEdge form fromNode fromNode index)) form fromNode
        fromNode ↔
      store.HasRecords form fromNode fromNode (SquareRoot.squareRoot 0) := by
  obtain ⟨nodes, counter⟩ := saveEdge_frame order store form fromNode fromNode index
  obtain ⟨hasStairs, ticked, after⟩ := saveEdge_lookup order closes stored stored
  rw [edgeWeight_self] at after
  constructor
  · intro saves
    have unchanged := saves.nothing (.inl rfl) (edgeKey fromNode fromNode)
    rw [after, if_pos rfl] at unchanged
    exact ⟨hasStairs, ticked, unchanged.symm, unchanged.symm⟩
  · intro records
    obtain ⟨other, same, present, _⟩ := records
    cases ticked.symm.trans same
    refine ⟨fun _ key => ?_, fun accepted => absurd (.inl rfl) accepted, nodes, counter⟩
    by_cases own : key = edgeKey fromNode fromNode
    · rw [after, if_pos own, own, present]
    · rw [after, if_neg own, if_neg own]

/-- The call is all or nothing exactly when an end is not stored; or the ends are equal
and it throws at the form, or the loop it writes was there before; or the ends differ
and it does not throw at the form, or both records were there before. -/
theorem saveEdge_allOrNothing_iff (order : EntryOrder K) (store : Database K) (form : EdgeForm)
    (fromNode toNode index : Nat) :
    store.SavesEdge (store.complete order (.saveEdge form fromNode toNode index)) form fromNode
        toNode ↔
      (store.nodes.lookup (nodeKey fromNode) = none ∨
        store.nodes.lookup (nodeKey toNode) = none) ∨
      (fromNode = toNode ∧ (¬ form.Closes index ∨
        store.HasRecords form fromNode toNode (SquareRoot.squareRoot 0))) ∨
      (fromNode ≠ toNode ∧ (form.Closes index ∨
        ∃ weight, store.HasRecords form fromNode toNode weight)) := by
  by_cases missing : store.nodes.lookup (nodeKey fromNode) = none ∨
      store.nodes.lookup (nodeKey toNode) = none
  · rw [saveEdge_missing_unchanged order form index missing]
    exact iff_of_true (savesEdge_refused (.inr missing)) (.inl missing)
  rw [or_iff_right missing]
  obtain ⟨fNode, first⟩ := Option.ne_none_iff_exists'.mp fun none => missing (.inl none)
  obtain ⟨tNode, second⟩ := Option.ne_none_iff_exists'.mp fun none => missing (.inr none)
  by_cases loop : fromNode = toNode
  · subst loop
    by_cases closes : form.Closes index
    · simpa [closes] using saveEdge_loop_iff order closes first
    · rw [saveEdge_thrown_unchanged order store fromNode fromNode closes]
      exact iff_of_true (savesEdge_refused (.inl rfl)) (.inl ⟨rfl, .inl closes⟩)
  · by_cases closes : form.Closes index
    · exact iff_of_true (saveEdge_saves order closes first second loop)
        (.inr ⟨loop, .inl closes⟩)
    · -- Nothing is written, so the records must be there.
      rw [saveEdge_thrown_unchanged order store fromNode toNode closes]
      have accepted : ¬ store.Refuses fromNode toNode := not_or.mpr ⟨loop, missing⟩
      constructor
      · intro saves
        obtain ⟨weight, records, _⟩ := saves.both accepted
        exact .inr ⟨loop, .inr ⟨weight, records⟩⟩
      · intro condition
        obtain ⟨same, _⟩ | ⟨_, thrown | ⟨weight, records⟩⟩ := condition
        · exact absurd same loop
        · exact absurd thrown closes
        · exact ⟨fun refuses => absurd refuses accepted,
            fun _ => ⟨weight, records, fun _ _ _ => rfl⟩, rfl, rfl⟩

end SaveEdge

section DeleteNode

/-- What `deleteNode` is for: the node and its edges, and nothing else, are gone. -/
structure DeletesNode (store after : Database K) (nodeId : Nat) : Prop where
  nodes : ∀ key, after.nodes.lookup key =
    if key = nodeKey nodeId then none else store.nodes.lookup key
  edges : ∀ key, after.edges.lookup key = (store.edges.lookup key).filter
    fun edge => edge.fromNode ≠ nodeId ∧ edge.toNode ≠ nodeId
  index : after.index = store.index

theorem index_removed {writes : List (Write K)}
    (removals : ∀ write ∈ writes, ∃ fromNode toNode,
      write = .edge (edgeKey fromNode toNode) none) :
    (writes.foldl Database.apply store).index = store.index := by
  induction writes generalizing store with
  | nil => rfl
  | cons write rest ih =>
    obtain ⟨fromNode, toNode, rfl⟩ := removals write List.mem_cons_self
    exact ih fun write member => removals write (List.mem_cons_of_mem _ member)

theorem lookup_removed {writes : List (Write K)}
    (removals : ∀ write ∈ writes, ∃ fromNode toNode,
      write = .edge (edgeKey fromNode toNode) none) {key : String}
    (kept : Write.edge key none ∉ writes) :
    (writes.foldl Database.apply store).edges.lookup key = store.edges.lookup key := by
  induction writes generalizing store with
  | nil => rfl
  | cons write rest ih =>
    obtain ⟨fromNode, toNode, rfl⟩ := removals write List.mem_cons_self
    have away : key ≠ edgeKey fromNode toNode := by
      intro same
      exact kept (same ▸ List.mem_cons_self)
    rw [List.foldl_cons, ih (fun write member => removals write (List.mem_cons_of_mem _ member))
      (fun later => kept (List.mem_cons_of_mem _ later)), lookup_apply_edge, if_neg away]

theorem lookup_deleted {writes : List (Write K)}
    (removals : ∀ write ∈ writes, ∃ fromNode toNode,
      write = .edge (edgeKey fromNode toNode) none) {key : String}
    (deleted : Write.edge key none ∈ writes) :
    (writes.foldl Database.apply store).edges.lookup key = none := by
  induction writes generalizing store with
  | nil => cases deleted
  | cons write rest ih =>
    have others := fun write member => removals write (List.mem_cons_of_mem _ member)
    by_cases later : Write.edge key none ∈ rest
    · exact ih others later
    · cases (List.mem_cons.mp deleted).resolve_right later
      rw [List.foldl_cons, lookup_removed others later, lookup_apply_edge, if_pos rfl]

/-- The loop of a deletion takes out exactly the edges that pass the test. -/
theorem Keyed.lookup_removeEdges (keyed : store.Keyed) (order : EntryOrder K)
    (test : EdgeRecord Nat K → Bool) (key : String) :
    ((AugmentedCampus.removeEdges order store test).foldl Database.apply store).edges.lookup key =
      (store.edges.lookup key).filter fun edge => !test edge := by
  have removals := keyed.removeEdges order test
  cases found : store.edges.lookup key with
  | none =>
    have kept : Write.edge key none ∉ AugmentedCampus.removeEdges order store test := by
      intro removed
      obtain ⟨edge, present, _, own⟩ := mem_removeEdges.mp removed
      cases own
      cases (keyed.hasEdge_iff.mp present).symm.trans found
    rw [lookup_removed removals kept, found]
    rfl
  | some edge =>
    have own : edge.id = key := (keyed.edge key edge found).1
    by_cases passes : test edge = true
    · rw [lookup_deleted removals (mem_removeEdges.mpr ⟨edge, ⟨key, found⟩, passes, by rw [own]⟩),
        Option.filter_some_neg (by simp [passes])]
    · have kept : Write.edge key none ∉ AugmentedCampus.removeEdges order store test := by
        intro removed
        obtain ⟨other, present, tested, same⟩ := mem_removeEdges.mp removed
        cases same
        cases (keyed.hasEdge_iff.mp present).symm.trans found
        exact passes tested
      rw [lookup_removed removals kept, found, Option.filter_some_pos (by simp [passes])]

variable [Ring K] [SquareRoot K]

theorem Keyed.deletesNode (keyed : store.Keyed) (order : EntryOrder K) (nodeId : Nat)
    (nonempty : store.edges.entries ≠ []) :
    store.DeletesNode (store.complete order (.deleteNode nodeId)) nodeId := by
  have removals := keyed.removeEdges order
    fun value => value.fromNode == nodeId || value.toNode == nodeId
  have writes : (Operation.issued order store (.deleteNode nodeId)).writes =
      AugmentedCampus.removeEdges order store (fun value => value.fromNode == nodeId || value.toNode == nodeId) ++
        [.node (nodeKey nodeId) none] := by
    simp [Operation.issued, AugmentedCampus.deleteNode, nonempty]
  unfold complete
  rw [writes, List.foldl_append]
  refine ⟨fun key => ?_, fun key => ?_, ?_⟩
  · rw [List.foldl_cons, List.foldl_nil, lookup_apply_node, nodes_removed removals]
  · refine (keyed.lookup_removeEdges order _ key).trans ?_
    congr 1
    funext edge
    simp [beq_eq_decide]
  · exact index_removed removals

/-- The call deletes exactly the node and its edges if and only if some edge is stored. -/
theorem deleteNode_exact_iff (order : EntryOrder K) (store : Database K) (nodeId : Nat)
    (keyed : store.Keyed) (stored : store.Stores nodeId) :
    store.DeletesNode (store.complete order (.deleteNode nodeId)) nodeId ↔
      ∃ edge, store.HasEdge edge := by
  constructor
  · intro deletes
    by_contra none
    have empty : store.edges.entries = [] := by
      refine Dictionary.entries_eq_nil.mpr fun key => ?_
      by_contra present
      obtain ⟨edge, found⟩ := Option.ne_none_iff_exists'.mp present
      exact none ⟨edge, key, found⟩
    have unchanged : store.complete order (.deleteNode nodeId) = store := by
      simp [complete, Operation.issued, AugmentedCampus.deleteNode, empty]
    obtain ⟨node, found⟩ := keyed.stores_iff.mp stored
    have gone := deletes.nodes (nodeKey nodeId)
    rw [unchanged, if_pos rfl, found] at gone
    cases gone
  · intro some
    obtain ⟨edge, key, found⟩ := some
    refine keyed.deletesNode order nodeId fun empty => ?_
    cases (Dictionary.entries_eq_nil.mp empty key).symm.trans found

end DeleteNode

end Database

section Examples

/-- Two places that no edge joins. -/
def unjoined : Database ℚ :=
  [.saveNode "" (some 0) (some 0), .saveNode "Library" (some 3) (some 4)].foldl
    (Database.complete .asStored) emptyCampus

def joined : Database ℚ := unjoined.complete .asStored (.saveEdge (.filled true) 1 2 0)

theorem unjoined_wellFormed : unjoined.WellFormed :=
  (emptyCampus_wellFormed.complete .asStored _).complete .asStored _

/-- The call reports that a node cannot lead to itself and then stores the loop. Once the
first marker has lost its window it joins nothing. -/
theorem saveEdge_not_allOrNothing :
    ¬ unjoined.SavesEdge (unjoined.complete .asStored (.saveEdge (.filled false) 1 1 0))
        (.filled false) 1 1 ∧
      ¬ unjoined.SavesEdge
        (unjoined.complete .asStored (.saveEdge ⟨some true, [false, true]⟩ 1 2 0))
        ⟨some true, [false, true]⟩ 1 2 := by
  constructor
  · intro saves
    have unchanged := saves.nothing (.inl rfl) "node001_node001"
    exact absurd unchanged (by decide +kernel)
  · intro saves
    have accepted : ¬ unjoined.Refuses 1 2 := by
      unfold Database.Refuses
      decide +kernel
    obtain ⟨weight, ⟨hasStairs, _, first, _⟩, _⟩ := saves.both accepted
    have absent : ((unjoined.complete .asStored
        (.saveEdge ⟨some true, [false, true]⟩ 1 2 0)).edges.lookup "node001_node002").isSome =
          false := by
      decide +kernel
    have present := congrArg Option.isSome first
    rw [show edgeKey 1 2 = "node001_node002" by decide, absent] at present
    cases present

theorem stores_of_lookup {store : Database ℚ} {id : Nat} (key : String)
    (found : (store.nodes.lookup key).map NodeRecord.id = some id) : store.Stores id := by
  obtain ⟨node, present, own⟩ := Option.map_eq_some_iff.mp found
  exact ⟨key, node, present, own⟩

theorem deleteNode_exact_iff_joined :
    joined.DeletesNode (joined.complete .asStored (.deleteNode 1)) 1 := by
  have formed : joined.WellFormed := unjoined_wellFormed.complete .asStored _
  refine (Database.deleteNode_exact_iff .asStored joined 1 formed.keyed
    (stores_of_lookup "node001" (by decide +kernel))).mpr ?_
  have present : (joined.edges.lookup "node001_node002").isSome = true := by decide +kernel
  obtain ⟨edge, found⟩ := Option.isSome_iff_exists.mp present
  exact ⟨edge, _, found⟩

/-- Without edges the call throws before it deletes the node. -/
theorem deleteNode_not_exact :
    unjoined.WellFormed ∧ unjoined.Stores 1 ∧
      ¬ unjoined.DeletesNode (unjoined.complete .asStored (.deleteNode 1)) 1 := by
  refine ⟨unjoined_wellFormed, stores_of_lookup "node001" (by decide +kernel), ?_⟩
  intro deletes
  exact absurd (deletes.nodes "node001") (by decide +kernel)

end Examples

end AugmentedCampus
