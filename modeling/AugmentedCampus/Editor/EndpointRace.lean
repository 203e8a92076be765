import AugmentedCampus.Campus.Launch
import AugmentedCampus.Foundation.Replica

/-! Several clients that save and delete edges and delete nodes, each on its own
copy of the graph. -/
namespace AugmentedCampus

open Foundation

universe u v

variable {Client : Type u} {K : Type v}

/-- A call that edits the graph without a new node. -/
inductive GraphEdit where
  | saveEdge (form : EdgeForm) (fromNode toNode index : Nat)
  | deleteNode (nodeId : Nat)
  | deleteEdge (edgeFrom edgeTo : Nat)

def GraphEdit.operation : GraphEdit → Operation K
  | .saveEdge form fromNode toNode index => .saveEdge form fromNode toNode index
  | .deleteNode nodeId => .deleteNode nodeId
  | .deleteEdge edgeFrom edgeTo => .deleteEdge edgeFrom edgeTo

def GraphEdit.writes [Ring K] [SquareRoot K] (order : EntryOrder K) (copy : Database K)
    (edit : GraphEdit) : List (Write K) :=
  (edit.operation.issued order copy).writes

def EdgeRecord.Touches (edge : EdgeRecord Nat K) (id : Nat) : Prop :=
  edge.fromNode = id ∨ edge.toNode = id

abbrev Editors (Client : Type u) (K : Type v) := Cluster Client (Database K) (Write K)

def Editors.move [DecidableEq Client] [Ring K] [SquareRoot K] (order : EntryOrder K)
    (editors : Editors Client K) (event : Move Client GraphEdit) : Editors Client K :=
  Cluster.move Database.apply (GraphEdit.writes order) editors event

/-- The node is stored and no deletion of it is in flight. -/
def Editors.Present (editors : Editors Client K) (id : Nat) : Prop :=
  editors.store.Stores id ∧ ∀ client, Write.node (nodeKey id) none ∉ editors.inFlight client

/-- Each time the key is set, it is deleted later in the log. -/
def Retracted (key : String) : List (Write K) → Prop
  | [] => True
  | write :: rest =>
    (∀ edge, write = .edge key (some edge) → Write.edge key none ∈ rest) ∧ Retracted key rest

/-- A call that writes an edge finds both ends present. A call that deletes a
node finds no edge at it that another client is about to set for good, and finds
each stored edge at it in the caller's copy or already being written. -/
def Editors.Careful (editors : Editors Client K) : Move Client GraphEdit → Prop
  | .call client (.saveEdge _ fromNode toNode _) =>
    (editors.view client).nodes.lookup (nodeKey fromNode) ≠ none →
      (editors.view client).nodes.lookup (nodeKey toNode) ≠ none →
        editors.Present fromNode ∧ editors.Present toNode
  | .call client (.deleteNode nodeId) =>
    (editors.view client).edges.entries ≠ [] →
      (∀ other, other ≠ client → ∀ fromNode toNode, fromNode = nodeId ∨ toNode = nodeId →
        Retracted (edgeKey fromNode toNode) (editors.inFlight other)) ∧
        ∀ edge, editors.store.HasEdge edge → edge.Touches nodeId →
          (editors.view client).edges.lookup edge.id ≠ none ∨
            ∃ other record, Write.edge edge.id record ∈ editors.inFlight other
  | _ => True

/-- A deletion, or an edge under its own key. -/
def Write.Edits : Write K → Prop
  | .index _ => False
  | .node key record => record = none ∧ ∃ id, key = nodeKey id
  | .edge key record => ∃ fromNode toNode, key = edgeKey fromNode toNode ∧
      ∀ edge ∈ record, edge.id = key ∧ edge.fromNode = fromNode ∧ edge.toNode = toNode

section Logs

variable {key : String} {first second writes : List (Write K)} {store : Database K}

theorem Write.Edits.keyed {write : Write K} (edits : write.Edits) : write.Keyed := by
  cases write with
  | index value => exact edits.elim
  | node key record =>
    obtain ⟨rfl, id, own⟩ := edits
    exact ⟨id, own, by simp⟩
  | edge key record => exact edits

theorem retracted_of_unset (unset : ∀ edge, Write.edge key (some edge) ∉ writes) :
    Retracted key writes := by
  induction writes with
  | nil => trivial
  | cons write rest ih =>
    refine ⟨fun edge same => ?_, ih fun edge member => unset edge (List.mem_cons_of_mem _ member)⟩
    exact absurd (same ▸ List.mem_cons_self) (unset edge)

theorem Retracted.append (left : Retracted key first) (right : Retracted key second) :
    Retracted key (first ++ second) := by
  induction first with
  | nil => exact right
  | cons write rest ih =>
    obtain ⟨head, tail⟩ := left
    exact ⟨fun edge same => List.mem_append_left _ (head edge same), ih tail⟩

/-- A deletion at the end retracts whatever was set before. -/
theorem Retracted.append_deletion (deleted : Write.edge key none ∈ second)
    (right : Retracted key second) : Retracted key (first ++ second) := by
  induction first with
  | nil => exact right
  | cons write rest ih => exact ⟨fun _ _ => List.mem_append_right _ deleted, ih⟩

theorem deleted_of_lookup (before : store.edges.lookup key ≠ none)
    (after : (writes.foldl Database.apply store).edges.lookup key = none) :
    Write.edge key none ∈ writes := by
  induction writes generalizing store with
  | nil => exact absurd after before
  | cons write rest ih =>
    by_cases now : (store.apply write).edges.lookup key = none
    · -- This is the write that takes the record away.
      cases write with
      | index value => exact absurd now before
      | node place record => exact absurd now before
      | edge place record =>
        rw [Database.lookup_apply_edge] at now
        by_cases same : key = place
        · rw [if_pos same] at now
          subst same now
          exact List.mem_cons_self
        · exact absurd (by simpa [same] using now) before
    · exact List.mem_cons_of_mem _ (ih now after)

/-- What a log leaves unset it has retracted. -/
theorem retracted_of_lookup (after : (writes.foldl Database.apply store).edges.lookup key = none) :
    Retracted key writes := by
  induction writes generalizing store with
  | nil => trivial
  | cons write rest ih =>
    refine ⟨fun edge same => ?_, ih after⟩
    subst same
    exact deleted_of_lookup (by simp) after

theorem GraphEdit.writes_edits [Ring K] [SquareRoot K] (order : EntryOrder K)
    (keyed : store.Keyed) (edit : GraphEdit) :
    ∀ write ∈ edit.writes order store, write.Edits := by
  have deletion {edge : EdgeRecord Nat K} (found : store.HasEdge edge) :
      (Write.edge edge.id none : Write K).Edits :=
    ⟨edge.fromNode, edge.toNode, keyed.edge_id found, by simp⟩
  intro write member
  cases edit with
  | saveEdge form fromNode toNode index =>
    rcases saveEdge_writes store form fromNode toNode index with
      none | ⟨_, fNode, tNode, _, _, both⟩
    · simp [writes, operation, Operation.issued, none] at member
    · simp only [writes, operation, Operation.issued, both] at member
      rcases List.mem_cons.mp member with rfl | last
      · exact ⟨fromNode, toNode, rfl, by simp [edgeRecord]⟩
      · cases List.mem_singleton.mp last
        exact ⟨toNode, fromNode, rfl, by simp [edgeRecord]⟩
  | deleteNode nodeId =>
    rcases mem_deleteNode_writes member with ⟨edge, found, _, rfl⟩ | rfl
    · exact deletion found
    · exact ⟨rfl, nodeId, rfl⟩
  | deleteEdge edgeFrom edgeTo =>
    obtain ⟨edge, found, rfl⟩ := mem_deleteEdge_writes member
    exact deletion found

end Logs

namespace Editors

/-- What is set at the node is deleted later in its queue, and what is stored at
it is about to be written again. -/
structure Clear (editors : Editors Client K) (id : Nat) : Prop where
  retracted : ∀ fromNode toNode, fromNode = id ∨ toNode = id →
    ∀ client, Retracted (edgeKey fromNode toNode) (editors.inFlight client)
  pending : ∀ edge, editors.store.HasEdge edge → edge.Touches id →
    ∃ client record, Write.edge edge.id record ∈ editors.inFlight client

/-- Every node that is not, or soon no longer, stored is clear of edges. -/
def Settling (editors : Editors Client K) : Prop :=
  ∀ id, ¬ editors.Present id → editors.Clear id

structure Valid (editors : Editors Client K) : Prop where
  settling : editors.Settling
  synced : Cluster.Synced Database.apply Database.Keyed Write.Edits editors

variable {editors next : Editors Client K}

/-- In a quiescent state nothing is stored around a missing node. -/
theorem Settling.resolvable (settling : editors.Settling) (quiescent : editors.Quiescent) :
    editors.store.Resolvable := by
  intro edge found
  have stored {id : Nat} (touches : edge.Touches id) : editors.store.Stores id := by
    by_contra missing
    obtain ⟨client, record, flying⟩ :=
      (settling id fun present => missing present.1).pending edge found touches
    rw [quiescent client] at flying
    cases flying
  exact ⟨stored (.inl rfl), stored (.inr rfl)⟩

section Queues

variable [DecidableEq Client] {client : Client} {writes : List (Write K)} {id : Nat}

theorem Present.queued_iff (queued : editors.Queued next client writes)
    (undeleted : Write.node (nodeKey id) none ∉ writes) :
    next.Present id ↔ editors.Present id := by
  simp only [Present, queued.store, queued.mem_inFlight, not_or, not_and]
  constructor
  · exact fun ⟨stored, idle⟩ => ⟨stored, fun other => (idle other).1⟩
  · exact fun ⟨stored, idle⟩ => ⟨stored, fun other => ⟨idle other, fun _ => undeleted⟩⟩

/-- New writes that set no edge at the node keep it clear. -/
theorem Clear.queued (clear : editors.Clear id) (queued : editors.Queued next client writes)
    (unset : ∀ key edge, Write.edge key (some edge) ∈ writes →
      key = edgeKey edge.fromNode edge.toNode ∧ ¬ edge.Touches id) : next.Clear id where
  retracted fromNode toNode touches other := by
    have old := clear.retracted fromNode toNode touches
    rw [queued.inFlight]
    by_cases same : other = client
    · rw [if_pos same]
      refine (old client).append (retracted_of_unset fun edge member => ?_)
      obtain ⟨own, apart⟩ := unset _ edge member
      obtain ⟨rfl, rfl⟩ := edgeKey_injective own
      exact apart touches
    · rw [if_neg same]
      exact old other
  pending edge found touches := by
    rw [queued.store] at found
    obtain ⟨other, record, flying⟩ := clear.pending edge found touches
    exact ⟨other, record, queued.mem_inFlight.mpr (.inl flying)⟩

variable {write : Write K} {rest : List (Write K)}

theorem Present.arrived (present : editors.Present id)
    (arrived : Cluster.Arrived Database.apply editors next client write rest)
    (keyed : editors.store.Keyed) (edits : write.Edits) : next.Present id := by
  obtain ⟨stored, idle⟩ := present
  refine ⟨?_, fun other member => idle other (arrived.mem member)⟩
  rw [arrived.store]
  cases write with
  | index value => exact edits.elim
  | edge key record => exact stored
  | node key record =>
    obtain ⟨rfl, gone, rfl⟩ := edits
    refine keyed.stores_deleted.mpr ⟨fun same => idle client ?_, stored⟩
    rw [arrived.queue, same]
    exact List.mem_cons_self

theorem Clear.arrived (clear : editors.Clear id)
    (arrived : Cluster.Arrived Database.apply editors next client write rest)
    (keyed : editors.store.Keyed) (edits : write.Edits) : next.Clear id where
  retracted fromNode toNode touches other := by
    have old := clear.retracted fromNode toNode touches
    rw [arrived.inFlight]
    by_cases same : other = client
    · have head := old client
      rw [arrived.queue] at head
      rw [if_pos same]
      exact head.2
    · rw [if_neg same]
      exact old other
  pending edge found touches := by
    have waits (before : editors.store.HasEdge edge)
        (other : ∀ record, write ≠ .edge edge.id record) :
        ∃ client record, Write.edge edge.id record ∈ next.inFlight client := by
      obtain ⟨author, record, flying⟩ := clear.pending edge before touches
      rcases arrived.split flying with ⟨_, same⟩ | remains
      · exact absurd same.symm (other record)
      · exact ⟨author, record, remains⟩
    rw [arrived.store] at found
    cases write with
    | index value => exact edits.elim
    | node key record => exact waits found (by simp)
    | edge key record =>
      cases record with
      | none =>
        obtain ⟨apart, before⟩ := keyed.hasEdge_deleted.mp found
        exact waits before (by simp [Ne.symm apart])
      | some saved =>
        obtain ⟨fromNode, toNode, rfl, carries⟩ := edits
        obtain ⟨own, rfl, rfl⟩ := carries saved rfl
        rw [← own, keyed.hasEdge_saved saved edge own] at found
        rcases found with rfl | ⟨apart, before⟩
        · -- The edge that arrives is retracted by the rest of its queue.
          have head := clear.retracted edge.fromNode edge.toNode touches client
          rw [arrived.queue] at head
          refine ⟨client, none, ?_⟩
          rw [arrived.inFlight, if_pos rfl, own]
          exact head.1 edge rfl
        · exact waits before (by simp [← own, Ne.symm apart])

end Queues

section Steps

variable [DecidableEq Client] [Ring K] [SquareRoot K] {order : EntryOrder K} {client : Client}

theorem Valid.queued (valid : editors.Valid) (order : EntryOrder K) (client : Client)
    (edit : GraphEdit) : editors.Queued (editors.move order (.call client edit)) client
      (edit.writes order (editors.view client)) :=
  Cluster.queued_call edit (valid.synced.arrived client)

theorem Valid.saveEdge (valid : editors.Valid) {form : EdgeForm} {fromNode toNode index : Nat}
    (careful : editors.Careful (.call client (.saveEdge form fromNode toNode index))) :
    (editors.move order (.call client (.saveEdge form fromNode toNode index))).Settling := by
  have queued := valid.queued order client (.saveEdge form fromNode toNode index)
  intro id absent
  rcases saveEdge_writes (editors.view client) form fromNode toNode index with
    none | ⟨_, fNode, tNode, left, right, both⟩
  · have nothing : (GraphEdit.saveEdge form fromNode toNode index).writes order
        (editors.view client) = [] := none
    rw [nothing] at queued
    rw [Present.queued_iff queued (by simp)] at absent
    exact (valid.settling id absent).queued queued (by simp)
  · have two : (GraphEdit.saveEdge form fromNode toNode index).writes order
        (editors.view client) = _ := both
    rw [two] at queued
    rw [Present.queued_iff queued (by simp)] at absent
    obtain ⟨first, second⟩ := careful (by simp [left]) (by simp [right])
    have ends : ¬ (fromNode = id ∨ toNode = id) := by
      rintro (rfl | rfl)
      · exact absent first
      · exact absent second
    refine (valid.settling id absent).queued queued fun key edge member => ?_
    simp only [List.mem_cons, Write.edge.injEq, Option.some.injEq, List.not_mem_nil,
      or_false] at member
    rcases member with ⟨rfl, rfl⟩ | ⟨rfl, rfl⟩
    · exact ⟨rfl, ends⟩
    · exact ⟨rfl, fun touches => ends touches.symm⟩

theorem Valid.deleteEdge (valid : editors.Valid) {edgeFrom edgeTo : Nat} :
    (editors.move order (.call client (.deleteEdge edgeFrom edgeTo))).Settling := by
  have queued := valid.queued order client (.deleteEdge edgeFrom edgeTo)
  intro id absent
  rw [Present.queued_iff queued] at absent
  · refine (valid.settling id absent).queued queued fun key edge member => ?_
    obtain ⟨_, _, same⟩ := mem_deleteEdge_writes member
    cases same
  · intro member
    obtain ⟨_, _, same⟩ := mem_deleteEdge_writes member
    cases same

theorem deleteNode_unset {nodeId : Nat} {copy : Database K} (key : String) (edge : EdgeRecord Nat K) :
    Write.edge key (some edge) ∉ (GraphEdit.deleteNode nodeId).writes order copy := by
  intro member
  rcases mem_deleteNode_writes member with ⟨_, _, _, same⟩ | same <;> cases same

omit [DecidableEq Client] [Ring K] [SquareRoot K] in
theorem Valid.view_keyed (valid : editors.Valid) : (editors.view client).Keyed :=
  valid.synced.good_view (fun _ _ holds edits => holds.apply edits.keyed) client

omit [DecidableEq Client] in
/-- After the call its client has every edge at the node deleted or never set. -/
theorem Valid.retracted_deleteNode (valid : editors.Valid) {nodeId fromNode toNode : Nat}
    (touches : fromNode = nodeId ∨ toNode = nodeId) :
    Retracted (edgeKey fromNode toNode) (editors.inFlight client ++
      (GraphEdit.deleteNode nodeId).writes order (editors.view client)) := by
  have unset (edge : EdgeRecord Nat K) : Write.edge (edgeKey fromNode toNode) (some edge) ∉
      (GraphEdit.deleteNode nodeId).writes order (editors.view client) := deleteNode_unset _ edge
  by_cases seen : (editors.view client).edges.lookup (edgeKey fromNode toNode) = none
  · obtain ⟨earlier, view⟩ := valid.synced.own_writes client
    rw [view] at seen
    exact (retracted_of_lookup seen).append (retracted_of_unset unset)
  · have deleted : Write.edge (edgeKey fromNode toNode) none ∈
        (GraphEdit.deleteNode nodeId).writes order (editors.view client) :=
      valid.view_keyed.deletion_mem_deleteNode seen touches
    exact .append_deletion deleted (retracted_of_unset unset)

theorem Valid.deleteNode (valid : editors.Valid) {nodeId : Nat}
    (careful : editors.Careful (.call client (.deleteNode nodeId))) :
    (editors.move order (.call client (.deleteNode nodeId))).Settling := by
  have queued := valid.queued order client (.deleteNode nodeId)
  set writes := (GraphEdit.deleteNode nodeId).writes order (editors.view client) with issues
  intro id absent
  by_cases before : editors.Present id
  · -- The call deletes this node, so the condition on its edges applies.
    have last : Write.node (nodeKey id) none ∈ writes := by
      by_contra kept
      exact absent ((Present.queued_iff queued kept).mpr before)
    have same : id = nodeId := by
      rcases mem_deleteNode_writes last with ⟨_, _, _, same⟩ | same
      · cases same
      · exact nodeKey_injective (Write.node.inj same).1
    subst same
    have nonempty : (editors.view client).edges.entries ≠ [] := by
      intro empty
      simp [issues, GraphEdit.writes, GraphEdit.operation, Operation.issued,
        AugmentedCampus.deleteNode, empty] at last
    obtain ⟨others, copied⟩ := careful nonempty
    refine ⟨fun fromNode toNode touches other => ?_, fun edge found touches => ?_⟩
    · rw [queued.inFlight]
      by_cases own : other = client
      · rw [if_pos own]
        exact valid.retracted_deleteNode touches
      · rw [if_neg own]
        exact others other own fromNode toNode touches
    · rw [queued.store] at found
      rcases copied edge found touches with seen | ⟨other, record, flying⟩
      · have stored : editors.store.Keyed := valid.synced.store
        rw [stored.edge_id found] at seen ⊢
        have deleted : Write.edge (edgeKey edge.fromNode edge.toNode) none ∈ writes :=
          valid.view_keyed.deletion_mem_deleteNode seen touches
        exact ⟨client, none, queued.mem_inFlight.mpr (.inr ⟨rfl, deleted⟩)⟩
      · exact ⟨other, record, queued.mem_inFlight.mpr (.inl flying)⟩
  · exact (valid.settling id before).queued queued fun key edge member =>
      absurd member (deleteNode_unset key edge)

/-- The step lemma: a careful call, an arrival or a delivery. -/
theorem Valid.move (valid : editors.Valid) (event : Move Client GraphEdit)
    (careful : editors.Careful event) : (editors.move order event).Valid := by
  have synced : Cluster.Synced Database.apply Database.Keyed Write.Edits
      (editors.move order event) :=
    valid.synced.move (fun _ _ holds edits => holds.apply edits.keyed)
      (fun _ edit keyed => edit.writes_edits order keyed) event
  refine ⟨?_, synced⟩
  cases event with
  | call client edit =>
    cases edit with
    | saveEdge form fromNode toNode index => exact valid.saveEdge careful
    | deleteNode nodeId => exact valid.deleteNode careful
    | deleteEdge edgeFrom edgeTo => exact valid.deleteEdge
  | arrive client =>
    rcases Cluster.arrive_cases Database.apply (GraphEdit.writes order) editors client
      with same | ⟨write, rest, arrived⟩
    · rw [Editors.move, same]
      exact valid.settling
    · have edits := valid.synced.writes client write arrived.issued_write
      intro id absent
      have before : ¬ editors.Present id := fun present =>
        absent (present.arrived arrived valid.synced.store edits)
      exact (valid.settling id before).arrived arrived valid.synced.store edits
  | deliver client =>
    have queued := Cluster.queued_deliver Database.apply (GraphEdit.writes order) editors client
    intro id absent
    rw [Editors.move, Present.queued_iff queued (by simp)] at absent
    exact (valid.settling id absent).queued queued (by simp)

end Steps

end Editors

/-- Two places are joined by one client, and the other is told of the first half of it. -/
def joins : List (Move Bool GraphEdit) :=
  [.call false (.saveEdge (.filled true) 1 2 0), .arrive false, .deliver true]

end AugmentedCampus
