import AugmentedCampus.Foundation.GuardedLog
import AugmentedCampus.Foundation.Replica
import AugmentedCampus.Editor.WriteInvariant

/-! Several clients that call `saveNode`, each counting up from its own copy of
the index. -/
namespace AugmentedCampus

open Foundation

universe u v

variable {Client : Type u} {K : Type v}

/-- The arguments of one call of `saveNode`. -/
structure NewNode (K : Type v) where
  desc : String
  lat : Option K
  lng : Option K

def NewNode.writes (copy : Database K) (node : NewNode K) : List (Write K) :=
  (saveNode copy node.desc node.lat node.lng).writes

/-- Clients that do nothing but save nodes. -/
abbrev Savers (Client : Type u) (K : Type v) := Cluster Client (Database K) (Write K)

def Savers.move [DecidableEq Client] (savers : Savers Client K)
    (event : Move Client (NewNode K)) : Savers Client K :=
  Cluster.move Database.apply NewNode.writes savers event

/-- The caller has an index that is not behind the stored one, and no index
write of another client is in flight. -/
def Savers.TakesTurn (savers : Savers Client K) : Move Client (NewNode K) → Prop
  | .call client _ =>
    (∀ stored ∈ savers.store.index, ∀ nodeCount ∈ (savers.view client).index,
      stored ≤ nodeCount) ∧
      ∀ other, other ≠ client → handedOut (savers.inFlight other) = []
  | .arrive _ => True
  | .deliver _ => True

instance [Fintype Client] [DecidableEq Client] (savers : Savers Client K)
    (event : Move Client (NewNode K)) : Decidable (savers.TakesTurn event) := by
  cases event <;> unfold Savers.TakesTurn <;> infer_instance

/-- The keys of the node records written. -/
def createdKeys (writes : List (Write K)) : List String :=
  writes.filterMap fun
    | .node key (some _) => some key
    | _ => none

/-- The index is a number and at least every id that `initial` stores. -/
def Database.Counts (initial store : Database K) : Prop :=
  ∃ nodeCount, store.index = some nodeCount ∧ ∀ id, initial.Stores id → id ≤ nodeCount

/-- A write for a node that `initial` does not store. -/
def Write.New (initial : Database K) : Write K → Prop
  | .index value => ∀ id, initial.Stores id → id < value
  | .node key (some record) =>
    key = nodeKey record.id ∧ ∀ id, initial.Stores id → id < record.id
  | _ => False

section Logs

variable {initial store : Database K} {writes : List (Write K)}

theorem Database.Counts.apply {write : Write K} (counts : initial.Counts store)
    (new : write.New initial) : initial.Counts (store.apply write) := by
  obtain ⟨nodeCount, counted, bounded⟩ := counts
  cases write with
  | index value => exact ⟨value, rfl, fun id stored => (new id stored).le⟩
  | node key record => exact ⟨nodeCount, counted, bounded⟩
  | edge key record => exact ⟨nodeCount, counted, bounded⟩

/-- What a call writes when its copy of the index is a number. -/
theorem NewNode.writes_cases (node : NewNode K) {nodeCount : Nat}
    (counted : store.index = some nodeCount) :
    node.writes store = [] ∨ node.writes store = [.index (nodeCount + 1)] ∨
      ∃ record : NodeRecord Nat K, record.id = nodeCount + 1 ∧
        node.writes store =
          [.index (nodeCount + 1), .node (nodeKey record.id) (some record)] := by
  rcases saveNode_writes store node.desc node.lat node.lng with
    none | ⟨count, same, single | ⟨record, own, both⟩⟩
  · exact .inl none
  · cases counted.symm.trans same
    exact .inr (.inl single)
  · cases counted.symm.trans same
    exact .inr (.inr ⟨record, own, by rw [NewNode.writes, both, own]⟩)

/-- A call hands out the next id or none. -/
theorem NewNode.handedOut_writes (node : NewNode K) {nodeCount : Nat}
    (counted : store.index = some nodeCount) :
    handedOut (node.writes store) = [] ∨ handedOut (node.writes store) = [nodeCount + 1] := by
  rcases node.writes_cases counted with none | single | ⟨record, _, both⟩
  · exact .inl (by simp [none, handedOut])
  · exact .inr (by simp [single, handedOut])
  · exact .inr (by simp [both, handedOut])

theorem NewNode.created_sublist (node : NewNode K) (store : Database K) :
    (created (node.writes store)).Sublist (handedOut (node.writes store)) := by
  have whole := saveNode_reserves store node.desc node.lat node.lng (node.writes store).length
  rwa [← NewNode.writes, List.take_length] at whole

theorem NewNode.writes_new (node : NewNode K) (counts : initial.Counts store) :
    ∀ write ∈ node.writes store, write.New initial := by
  obtain ⟨nodeCount, counted, bounded⟩ := counts
  have above (id : Nat) (stored : initial.Stores id) : id < nodeCount + 1 :=
    Nat.lt_succ_of_le (bounded id stored)
  intro write member
  rcases node.writes_cases counted with none | single | ⟨record, own, both⟩
  · simp [none] at member
  · rw [single, List.mem_singleton] at member
    subst member
    exact above
  · rw [both] at member
    rcases List.mem_cons.mp member with rfl | last
    · exact above
    · cases List.mem_singleton.mp last
      exact ⟨rfl, fun id stored => own ▸ above id stored⟩

/-- The last of ascending index writes decides the index. -/
theorem index_foldl {nodeCount : Nat} (counted : store.index = some nodeCount)
    (ascending : (nodeCount :: handedOut writes).Pairwise (· < ·)) :
    ∃ last, (writes.foldl Database.apply store).index = some last ∧
      ∀ id ∈ nodeCount :: handedOut writes, id ≤ last := by
  induction writes generalizing store nodeCount with
  | nil => exact ⟨nodeCount, counted, by simp [handedOut]⟩
  | cons write rest ih =>
    cases write with
    | index value =>
      have head : handedOut (.index value :: rest : List (Write K)) = value :: handedOut rest := rfl
      rw [head] at ascending ⊢
      obtain ⟨below, sorted⟩ := List.pairwise_cons.mp ascending
      have set : (store.apply (.index value)).index = some value := rfl
      obtain ⟨last, decided, bounded⟩ := ih set sorted
      refine ⟨last, decided, fun id member => ?_⟩
      rcases List.mem_cons.mp member with rfl | later
      · exact (below value List.mem_cons_self).le.trans (bounded value List.mem_cons_self)
      · exact bounded id later
    | node key record =>
      have same : (store.apply (.node key record)).index = some nodeCount := counted
      exact ih same ascending
    | edge key record =>
      have same : (store.apply (.edge key record)).index = some nodeCount := counted
      exact ih same ascending

theorem index_of_mem (store : Database K) {value : Nat} (member : Write.index value ∈ writes)
    (ascending : (handedOut writes).Pairwise (· < ·)) :
    ∃ last, (writes.foldl Database.apply store).index = some last ∧ value ≤ last := by
  induction writes generalizing store with
  | nil => cases member
  | cons write rest ih =>
    cases write with
    | index first =>
      have set : (store.apply (.index first)).index = some first := rfl
      obtain ⟨last, decided, bounded⟩ := index_foldl set ascending
      exact ⟨last, decided, bounded value (mem_handedOut.mpr member)⟩
    | node key record => exact ih _ (by simpa using member) ascending
    | edge key record => exact ih _ (by simpa using member) ascending

/-- Under ascending ids a log has one record for each id. -/
theorem created_unique {key other : String} {node record : NodeRecord Nat K}
    (ascending : (created writes).Pairwise (· < ·))
    (member : Write.node key (some node) ∈ writes)
    (present : Write.node other (some record) ∈ writes) (same : node.id = record.id) :
    node = record := by
  induction writes with
  | nil => cases member
  | cons write rest ih =>
    cases write with
    | index value => exact ih ascending (by simpa using member) (by simpa using present)
    | edge first saved => exact ih ascending (by simpa using member) (by simpa using present)
    | node first saved =>
      cases saved with
      | none => exact ih ascending (by simpa using member) (by simpa using present)
      | some head =>
        have split : created (.node first (some head) :: rest) = head.id :: created rest := rfl
        rw [split] at ascending
        obtain ⟨below, sorted⟩ := List.pairwise_cons.mp ascending
        have later {place : String} {found : NodeRecord Nat K}
            (tail : Write.node place (some found) ∈ rest) : head.id < found.id :=
          below found.id (mem_created.mpr ⟨place, found, tail, rfl⟩)
        simp only [List.mem_cons, Write.node.injEq, Option.some.injEq] at member present
        rcases member with ⟨_, rfl⟩ | tail <;> rcases present with ⟨_, rfl⟩ | last
        · rfl
        · exact absurd same (later last).ne
        · exact absurd same (later tail).ne'
        · exact ih sorted tail last

theorem createdKeys_eq (new : ∀ write ∈ writes, write.New initial) :
    createdKeys writes = (created writes).map nodeKey := by
  induction writes with
  | nil => rfl
  | cons write rest ih =>
    have later := ih fun write member => new write (List.mem_cons_of_mem _ member)
    have first := new write List.mem_cons_self
    cases write with
    | index value => exact later
    | edge key record => exact first.elim
    | node key record =>
      cases record with
      | none => exact first.elim
      | some node =>
        obtain ⟨rfl, _⟩ := first
        exact congrArg (nodeKey node.id :: ·) later

end Logs

/-- What holds at every moment of a run in which the calls take turns. -/
structure Savers.Serial (savers : Savers Client K) : Prop where
  alone : ∀ client other value number, Write.index value ∈ savers.inFlight client →
    Write.index number ∈ savers.inFlight other → client = other
  ahead : ∀ client value stored, Write.index value ∈ savers.inFlight client →
    savers.store.index = some stored → stored < value
  ascending : ∀ client, (handedOut (savers.issued client)).Pairwise (· < ·)
  covered : ∀ client, ∀ id ∈ handedOut (savers.issued client),
    (∃ stored, savers.store.index = some stored ∧ id ≤ stored) ∨
      ∃ other value, Write.index value ∈ savers.inFlight other ∧ id ≤ value
  reserved : ∀ client, (created (savers.issued client)).Sublist (handedOut (savers.issued client))
  apart : ∀ client other, client ≠ other →
    (handedOut (savers.issued client)).Disjoint (handedOut (savers.issued other))
  kept : ∀ client key node, Write.node key (some node) ∈ savers.issued client →
    Write.node key (some node) ∈ savers.inFlight client ∨
      savers.store.nodes.lookup key = some node

namespace Savers

theorem serial_start (store : Database K) (view : Client → Database K) :
    Serial (Cluster.start store view : Savers Client K) where
  alone client other value number first := by cases first
  ahead client value stored first := by cases first
  ascending client := .nil
  covered client id member := by cases member
  reserved client := .refl _
  apart client other different := List.disjoint_nil_left _
  kept client key node member := by cases member

variable {initial : Database K} {savers : Savers Client K}

/-- All that is known of a run: the queues are in step and the calls take turns. -/
structure Valid (initial : Database K) (savers : Savers Client K) : Prop extends
    savers.Serial where
  synced : Cluster.Synced Database.apply initial.Counts (Write.New initial) savers

/-- Records with one id are written by one client. -/
theorem Valid.author_unique (valid : savers.Valid initial) {one other : Client}
    {key place : String} {node record : NodeRecord Nat K}
    (member : Write.node key (some node) ∈ savers.issued one)
    (present : Write.node place (some record) ∈ savers.issued other)
    (same : node.id = record.id) : one = other := by
  by_contra different
  apply valid.apart one other different
  · exact (valid.reserved one).subset (mem_created.mpr ⟨key, node, member, rfl⟩)
  · exact (valid.reserved other).subset (mem_created.mpr ⟨place, record, present, same.symm⟩)

/-- A client's copy of the index is not behind its own writes in flight. -/
theorem Valid.own_index (valid : savers.Valid initial) {client : Client} {value nodeCount : Nat}
    (flying : Write.index value ∈ savers.inFlight client)
    (counted : (savers.view client).index = some nodeCount) : value ≤ nodeCount := by
  obtain ⟨earlier, view⟩ := valid.synced.own_writes client
  have sorted : (handedOut (savers.inFlight client)).Pairwise (· < ·) :=
    (valid.ascending client).sublist ((List.drop_sublist _ _).filterMap _)
  obtain ⟨last, decided, bounded⟩ := index_of_mem earlier flying sorted
  rw [← view] at decided
  cases counted.symm.trans decided
  exact bounded

variable [DecidableEq Client] {next : Savers Client K} {client : Client} {write : Write K}
  {writes rest : List (Write K)}

/-- What one client adds when it takes its turn: ids above all others, and no
other client has an index write in flight. -/
structure Extends (savers next : Savers Client K) (client : Client) (writes : List (Write K)) :
    Prop where
  queued : savers.Queued next client writes
  ascending : (handedOut writes).Pairwise (· < ·)
  reserved : (created writes).Sublist (handedOut writes)
  above : ∀ id ∈ handedOut writes, ∀ other, ∀ taken ∈ handedOut (savers.issued other), taken < id
  ahead : ∀ id ∈ handedOut writes, ∀ stored, savers.store.index = some stored → stored < id
  idle : ∀ id ∈ handedOut writes, ∀ other value, Write.index value ∈ savers.inFlight other →
    other = client

/-- An id that takes its turn is above all ids handed out before. -/
theorem Valid.fresh (valid : savers.Valid initial) {other : Client} {node : NewNode K}
    {nodeCount id : Nat} (turn : savers.TakesTurn (.call client node))
    (counted : (savers.view client).index = some nodeCount)
    (taken : id ∈ handedOut (savers.issued other)) : id ≤ nodeCount := by
  obtain ⟨current, idle⟩ := turn
  rcases valid.covered other id taken with ⟨stored, found, below⟩ | ⟨third, value, flying, below⟩
  · exact below.trans (current stored found nodeCount counted)
  · have listed := mem_handedOut.mpr flying
    by_cases own : third = client
    · subst third
      exact below.trans (valid.own_index flying counted)
    · simp [idle third own] at listed

theorem Valid.extends_call (valid : savers.Valid initial) {node : NewNode K}
    (turn : savers.TakesTurn (.call client node)) :
    savers.Extends (savers.move (.call client node)) client
      (node.writes (savers.view client)) := by
  obtain ⟨nodeCount, counted, _⟩ := valid.synced.good_view
    (fun _ _ => Database.Counts.apply) client
  have numbered {id : Nat} (member : id ∈ handedOut (node.writes (savers.view client))) :
      id = nodeCount + 1 := by
    rcases node.handedOut_writes counted with none | single
    · simp [none] at member
    · simpa [single] using member
  refine ⟨Cluster.queued_call node (valid.synced.arrived client), ?_, node.created_sublist _,
    fun id member other taken old => ?_, fun id member stored found => ?_,
    fun id member other value flying => ?_⟩
  · rcases node.handedOut_writes counted with none | single
    · simp [none]
    · simp [single]
  · rw [numbered member]
    exact Nat.lt_succ_of_le (valid.fresh turn counted old)
  · rw [numbered member]
    exact Nat.lt_succ_of_le (turn.1 stored found nodeCount counted)
  · by_contra different
    have listed := mem_handedOut.mpr flying
    simp [turn.2 other different] at listed

theorem Serial.extends (serial : savers.Serial) (added : savers.Extends next client writes) :
    next.Serial where
  alone one other value number first second := by
    rcases added.queued.mem_inFlight.mp first with old | ⟨mine, new⟩ <;>
      rcases added.queued.mem_inFlight.mp second with before | ⟨yours, late⟩
    · exact serial.alone one other value number old before
    · exact (added.idle number (mem_handedOut.mpr late) one value old).trans yours.symm
    · exact mine.trans (added.idle value (mem_handedOut.mpr new) other number before).symm
    · exact mine.trans yours.symm
  ahead one value stored flying found := by
    rw [added.queued.store] at found
    rcases added.queued.mem_inFlight.mp flying with old | ⟨_, new⟩
    · exact serial.ahead one value stored old found
    · exact added.ahead value (mem_handedOut.mpr new) stored found
  ascending one := by
    rw [added.queued.issued]
    by_cases same : one = client
    · rw [if_pos same, handedOut_append, List.pairwise_append]
      exact ⟨serial.ascending client, added.ascending,
        fun taken old id new => added.above id new client taken old⟩
    · rw [if_neg same]
      exact serial.ascending one
  covered one id taken := by
    rw [added.queued.store]
    rcases added.queued.mem_issued.mp (mem_handedOut.mp taken) with old | ⟨mine, new⟩
    · rcases serial.covered one id (mem_handedOut.mpr old) with
        stored | ⟨other, value, flying, below⟩
      · exact .inl stored
      · exact .inr ⟨other, value, added.queued.mem_inFlight.mpr (.inl flying), below⟩
    · exact .inr ⟨one, id, added.queued.mem_inFlight.mpr (.inr ⟨mine, new⟩), Nat.le_refl _⟩
  reserved one := by
    rw [added.queued.issued]
    by_cases same : one = client
    · rw [if_pos same, created_append, handedOut_append]
      exact (serial.reserved client).append added.reserved
    · rw [if_neg same]
      exact serial.reserved one
  apart one other different id left right := by
    rcases added.queued.mem_issued.mp (mem_handedOut.mp left) with old | ⟨mine, new⟩ <;>
      rcases added.queued.mem_issued.mp (mem_handedOut.mp right) with before | ⟨yours, late⟩
    · exact serial.apart one other different (mem_handedOut.mpr old) (mem_handedOut.mpr before)
    · exact Nat.lt_irrefl id
        (added.above id (mem_handedOut.mpr late) one id (mem_handedOut.mpr old))
    · exact Nat.lt_irrefl id
        (added.above id (mem_handedOut.mpr new) other id (mem_handedOut.mpr before))
    · exact different (mine.trans yours.symm)
  kept one key node member := by
    rw [added.queued.store, added.queued.mem_inFlight]
    rcases added.queued.mem_issued.mp member with old | new
    · exact (serial.kept one key node old).imp_left .inl
    · exact .inl (.inr new)

section Arrivals

variable (valid : savers.Valid initial)
  (arrived : Cluster.Arrived Database.apply savers next client write rest)

include valid arrived

theorem Valid.arrived_ahead {other : Client} {number last : Nat}
    (flies : Write.index number ∈ next.inFlight other) (found : next.store.index = some last) :
    last < number := by
  rw [arrived.store] at found
  cases write with
  | node key record => exact valid.ahead other number last (arrived.mem flies) found
  | edge key record => exact valid.ahead other number last (arrived.mem flies) found
  | index value =>
    have same : value = last := Option.some.inj found
    subst last
    have head : Write.index value ∈ savers.inFlight client := by simp [arrived.queue]
    have own : other = client := valid.alone other client number value (arrived.mem flies) head
    have sorted : (handedOut (savers.inFlight client)).Pairwise (· < ·) :=
      (valid.ascending client).sublist ((List.drop_sublist _ _).filterMap _)
    rw [arrived.inFlight, if_pos own] at flies
    rw [arrived.queue] at sorted
    exact (List.pairwise_cons.mp sorted).1 number (mem_handedOut.mpr flies)

/-- The index write that covers an id has arrived or is still in flight. -/
theorem Valid.arrived_covered {other : Client} {id : Nat}
    (taken : id ∈ handedOut (next.issued other)) :
    (∃ stored, next.store.index = some stored ∧ id ≤ stored) ∨
      ∃ third value, Write.index value ∈ next.inFlight third ∧ id ≤ value := by
  rw [arrived.issued] at taken
  rw [arrived.store]
  rcases valid.covered other id taken with ⟨old, found, below⟩ | ⟨third, number, flies, below⟩
  · cases write with
    | node key record => exact .inl ⟨old, found, below⟩
    | edge key record => exact .inl ⟨old, found, below⟩
    | index value =>
      have grown := valid.ahead client value old (by simp [arrived.queue]) found
      exact .inl ⟨value, rfl, by omega⟩
  · rcases arrived.split flies with ⟨_, rfl⟩ | remains
    · exact .inl ⟨number, rfl, below⟩
    · exact .inr ⟨third, number, remains, below⟩

/-- A node record that has arrived is not overwritten: its id was handed out once. -/
theorem Valid.arrived_kept {other : Client} {key : String} {node : NodeRecord Nat K}
    (member : Write.node key (some node) ∈ next.issued other) :
    Write.node key (some node) ∈ next.inFlight other ∨
      next.store.nodes.lookup key = some node := by
  rw [arrived.issued] at member
  rw [arrived.store]
  have new := valid.synced.writes client write arrived.issued_write
  have waits : Write.node key (some node) ∈ savers.inFlight other →
      Write.node key (some node) = write ∨ Write.node key (some node) ∈ next.inFlight other :=
    fun flies => (arrived.split flies).imp_left And.right
  cases write with
  | edge place record => exact new.elim
  | index value =>
    rcases valid.kept other key node member with flies | found
    · exact .inl ((waits flies).resolve_left nofun)
    · exact .inr found
  | node place record =>
    cases record with
    | none => exact new.elim
    | some saved =>
      obtain ⟨rfl, _⟩ := new
      obtain ⟨rfl, _⟩ := valid.synced.writes other _ member
      rw [Database.lookup_apply_node]
      by_cases same : nodeKey node.id = nodeKey saved.id
      · -- The id was handed out once, so this is the very record that arrives.
        have equal := nodeKey_injective same
        have own := valid.author_unique member arrived.issued_write equal
        subst own
        have ascending := (valid.ascending other).sublist (valid.reserved other)
        rw [if_pos same, created_unique ascending member arrived.issued_write equal]
        exact .inr rfl
      · rw [if_neg same]
        rcases valid.kept other _ node member with flies | found
        · exact .inl ((waits flies).resolve_left fun equal => same (Write.node.inj equal).1)
        · exact .inr found

/-- The first write of a queue reaches the store. -/
theorem Valid.serial_arrived : next.Serial where
  alone one other value number first second :=
    valid.alone one other value number (arrived.mem first) (arrived.mem second)
  ahead _ _ _ flies found := valid.arrived_ahead arrived flies found
  ascending := by simpa only [arrived.issued] using valid.ascending
  covered _ _ taken := valid.arrived_covered arrived taken
  reserved := by simpa only [arrived.issued] using valid.reserved
  apart := by simpa only [arrived.issued] using valid.apart
  kept _ _ _ member := valid.arrived_kept arrived member

end Arrivals

/-- The step lemma: a call that takes its turn, an arrival or a delivery. -/
theorem Valid.move (valid : savers.Valid initial) (event : Move Client (NewNode K))
    (turn : savers.TakesTurn event) : (savers.move event).Valid initial := by
  have synced : Cluster.Synced Database.apply initial.Counts (Write.New initial)
      (savers.move event) :=
    valid.synced.move (fun _ _ => Database.Counts.apply)
      (fun _ node counts => node.writes_new counts) event
  refine ⟨?_, synced⟩
  cases event with
  | call client node => exact valid.toSerial.extends (valid.extends_call turn)
  | arrive client =>
    rcases Cluster.arrive_cases Database.apply NewNode.writes savers client
      with same | ⟨write, rest, arrived⟩
    · rw [Savers.move, same]
      exact valid.toSerial
    · exact valid.serial_arrived arrived
  | deliver client =>
    have queued := Cluster.queued_deliver Database.apply NewNode.writes savers client
    have nothing {id : Nat} (member : id ∈ handedOut ([] : List (Write K))) : False := by
      simp [handedOut] at member
    exact valid.toSerial.extends ⟨queued, .nil, .refl _, fun _ member => (nothing member).elim,
      fun _ member => (nothing member).elim, fun _ member => (nothing member).elim⟩

/-- The run lemma. -/
theorem Valid.run (valid : savers.Valid initial) {events : List (Move Client (NewNode K))}
    (turns : Admitted Savers.move TakesTurn savers events) :
    (events.foldl Savers.move savers).Valid initial :=
  turns.foldl (fun _ _ holds turn => holds.move _ turn) valid

/-- No event takes the stored index back. -/
theorem Valid.index_mono (valid : savers.Valid initial) (event : Move Client (NewNode K))
    {stored : Nat} (found : savers.store.index = some stored) :
    ∃ later, (savers.move event).store.index = some later ∧ stored ≤ later := by
  cases event with
  | call client node => exact ⟨stored, found, Nat.le_refl _⟩
  | deliver client =>
    refine ⟨stored, ?_, Nat.le_refl _⟩
    rw [Savers.move, (Cluster.deliver_store Database.apply NewNode.writes savers client).1, found]
  | arrive client =>
    rcases Cluster.arrive_cases Database.apply NewNode.writes savers client
      with same | ⟨write, rest, arrived⟩
    · exact ⟨stored, by rw [Savers.move, same, found], Nat.le_refl _⟩
    · rw [Savers.move, arrived.store]
      cases write with
      | index value =>
        exact ⟨value, rfl, (valid.ahead client value stored (by simp [arrived.queue]) found).le⟩
      | node key record => exact ⟨stored, found, Nat.le_refl _⟩
      | edge key record => exact ⟨stored, found, Nat.le_refl _⟩

end Savers

/-- While the calls of `saveNode` take turns, any clients may make them and
arrivals and deliveries may fall in between in any order: the nodes created get
pairwise distinct ids and keys, none is stored before or overwritten after, and
the stored index never goes down. -/
theorem saveNode_distinct [DecidableEq Client] (store : Database K) (view : Client → Database K)
    (events : List (Move Client (NewNode K))) (stored : store.Counts store)
    (loaded : ∀ client, store.Counts (view client))
    (turns : Admitted Savers.move Savers.TakesTurn (Cluster.start store view) events) :
    let savers := events.foldl Savers.move (Cluster.start store view)
    (∀ client, (created (savers.issued client)).Nodup ∧
      (createdKeys (savers.issued client)).Nodup) ∧
      (∀ client other, client ≠ other →
        (created (savers.issued client)).Disjoint (created (savers.issued other)) ∧
          (createdKeys (savers.issued client)).Disjoint (createdKeys (savers.issued other))) ∧
      (∀ client key node, Write.node key (some node) ∈ savers.issued client →
        ¬ store.Stores node.id ∧
          (Write.node key (some node) ∈ savers.inFlight client ∨
            savers.store.nodes.lookup key = some node)) ∧
      ∀ event index, savers.store.index = some index →
        ∃ later, (savers.move event).store.index = some later ∧ index ≤ later := by
  intro savers
  have start : Savers.Valid store (Cluster.start store view) :=
    ⟨Savers.serial_start store view, Cluster.synced_start stored loaded⟩
  have valid : savers.Valid store := start.run turns
  have distinct (client : Client) : (created (savers.issued client)).Nodup :=
    ((valid.ascending client).sublist (valid.reserved client)).imp Nat.ne_of_lt
  have disjoint {client other : Client} (different : client ≠ other) :
      (created (savers.issued client)).Disjoint (created (savers.issued other)) :=
    fun id left right => valid.apart client other different
      ((valid.reserved client).subset left) ((valid.reserved other).subset right)
  refine ⟨fun client => ⟨distinct client, ?_⟩, fun client other different =>
    ⟨disjoint different, ?_⟩, fun client key node member => ⟨fun old => ?_, ?_⟩,
    fun event index found => valid.index_mono event found⟩
  · rw [createdKeys_eq (valid.synced.writes client)]
    exact (distinct client).map nodeKey_injective
  · rw [createdKeys_eq (valid.synced.writes client), createdKeys_eq (valid.synced.writes other)]
    exact List.disjoint_map nodeKey_injective (disjoint different)
  · obtain ⟨_, above⟩ := valid.synced.writes client _ member
    exact absurd (above node.id old) (Nat.lt_irrefl _)
  · exact valid.kept client key node member

/-- Two clients, each saving one node. -/
def library : NewNode ℚ := ⟨"Library", some 0, some 0⟩

def darden : NewNode ℚ := ⟨"Darden", some 3, some 4⟩

theorem emptyCampus_counts : emptyCampus.Counts emptyCampus := emptyCampus_safe.counted

theorem saveNode_distinct_turns :
    let savers := [.call false library, .arrive false, .arrive false, .deliver true,
      .deliver true, .call true darden].foldl Savers.move
        (Cluster.start emptyCampus fun _ => emptyCampus)
    created (savers.issued false) = [1] ∧ created (savers.issued true) = [2] ∧
      (created (savers.issued false)).Disjoint (created (savers.issued true)) :=
  ⟨by decide +kernel, by decide +kernel,
    ((saveNode_distinct emptyCampus (fun _ => emptyCampus) [.call false library, .arrive false,
      .arrive false, .deliver true, .deliver true, .call true darden] emptyCampus_counts
      (fun _ => emptyCampus_counts) (by decide +kernel)).2.1 false true (by decide)).1⟩

/-- Both clients count up from the index they loaded; one place is lost. -/
theorem saveNode_overwrites :
    emptyCampus.Counts emptyCampus ∧
      let savers := [.call false library, .call true darden, .arrive false, .arrive false,
        .arrive true, .arrive true].foldl Savers.move
          (Cluster.start emptyCampus fun _ => emptyCampus)
      ¬ (created (savers.issued false)).Disjoint (created (savers.issued true)) ∧
        savers.inFlight false = [] ∧ savers.inFlight true = [] ∧
        savers.store.nodes.values.map NodeRecord.description = ["Darden"] := by
  refine ⟨emptyCampus_counts, fun disjoint => ?_, by decide +kernel, by decide +kernel,
    by decide +kernel⟩
  have left : ([1] : List Nat).Disjoint [1] := by
    convert disjoint using 1 <;> decide +kernel
  exact left List.mem_cons_self List.mem_cons_self

end AugmentedCampus
