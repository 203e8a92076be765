import Mathlib.Data.List.Basic
import Mathlib.Logic.Function.Basic

/-! Clients of one store. A client acts on its own view: the last snapshot
delivered to it under its own later writes. Its writes arrive in the order of
issue, and after each arrival every client is sent a snapshot. -/
namespace AugmentedCampus.Foundation

universe u v w x

structure Cluster (Client : Type u) (State : Type v) (Write : Type w) where
  store : State
  view : Client → State
  issued : Client → List Write
  /-- How many of the issued writes the store has. -/
  arrived : Client → Nat
  /-- Snapshots on the way, each with the number of the client's own writes in it. -/
  inbox : Client → List (State × Nat)

inductive Move (Client : Type u) (Operation : Type x) where
  | call (client : Client) (operation : Operation)
  | arrive (client : Client)
  | deliver (client : Client)

namespace Cluster

variable {Client : Type u} {State : Type v} {Write : Type w} {Operation : Type x}

/-- Nothing is on the way. -/
def start (store : State) (view : Client → State) : Cluster Client State Write :=
  { store := store
    view := view
    issued := fun _ => []
    arrived := fun _ => 0
    inbox := fun _ => [] }

def inFlight (cluster : Cluster Client State Write) (client : Client) : List Write :=
  (cluster.issued client).drop (cluster.arrived client)

theorem mem_issued {cluster : Cluster Client State Write} {client : Client} {write : Write}
    (flying : write ∈ cluster.inFlight client) : write ∈ cluster.issued client :=
  List.mem_of_mem_drop flying

/-- No write is in flight. -/
def Quiescent (cluster : Cluster Client State Write) : Prop :=
  ∀ client, cluster.inFlight client = []

variable [DecidableEq Client] (apply : State → Write → State)
  (issue : State → Operation → List Write)

/-- An arrival or a delivery with nothing to arrive or to deliver is no event. -/
def move (cluster : Cluster Client State Write) :
    Move Client Operation → Cluster Client State Write
  | .call client operation =>
    let writes := issue (cluster.view client) operation
    { cluster with
      view := Function.update cluster.view client (writes.foldl apply (cluster.view client))
      issued := Function.update cluster.issued client (cluster.issued client ++ writes) }
  | .arrive client =>
    match cluster.inFlight client with
    | [] => cluster
    | write :: _ =>
      let store := apply cluster.store write
      let arrived := Function.update cluster.arrived client (cluster.arrived client + 1)
      { cluster with
        store := store
        arrived := arrived
        inbox := fun other => cluster.inbox other ++ [(store, arrived other)] }
  | .deliver client =>
    match cluster.inbox client with
    | [] => cluster
    | (snapshot, known) :: rest =>
      { cluster with
        view := Function.update cluster.view client
          (((cluster.issued client).drop known).foldl apply snapshot)
        inbox := Function.update cluster.inbox client rest }

/-- The facts that tie views, queues and snapshots together. `good` is kept by
every write that is `fair`. -/
structure Synced (good : State → Prop) (fair : Write → Prop)
    (cluster : Cluster Client State Write) : Prop where
  store : good cluster.store
  writes : ∀ client, ∀ write ∈ cluster.issued client, fair write
  arrived : ∀ client, cluster.arrived client ≤ (cluster.issued client).length
  inbox : ∀ client, ∀ notice ∈ cluster.inbox client,
    good notice.1 ∧ notice.2 ≤ cluster.arrived client
  view : ∀ client, ∃ snapshot known, good snapshot ∧ known ≤ cluster.arrived client ∧
    cluster.view client = ((cluster.issued client).drop known).foldl apply snapshot

variable {apply issue} {good : State → Prop} {fair : Write → Prop}
  {cluster : Cluster Client State Write}

omit [DecidableEq Client] in
theorem synced_start {store : State} {view : Client → State} (stored : good store)
    (copied : ∀ client, good (view client)) :
    Synced apply good fair (start store view) where
  store := stored
  writes client write member := by cases member
  arrived client := Nat.le_refl _
  inbox client notice member := by cases member
  view client := ⟨view client, 0, copied client, Nat.le_refl _, rfl⟩

section Effects

variable {next : Cluster Client State Write} {client other : Client} {write : Write}
  {writes rest : List Write}

/-- One client has issued `writes`, and nothing has reached the store. -/
structure Queued (cluster next : Cluster Client State Write) (client : Client)
    (writes : List Write) : Prop where
  store : next.store = cluster.store
  issued : ∀ other, next.issued other =
    if other = client then cluster.issued client ++ writes else cluster.issued other
  inFlight : ∀ other, next.inFlight other =
    if other = client then cluster.inFlight client ++ writes else cluster.inFlight other

theorem Queued.mem_issued (queued : cluster.Queued next client writes) :
    write ∈ next.issued other ↔ write ∈ cluster.issued other ∨ other = client ∧ write ∈ writes := by
  rw [queued.issued]
  by_cases same : other = client
  · subst other
    simp
  · simp [same]

theorem Queued.mem_inFlight (queued : cluster.Queued next client writes) :
    write ∈ next.inFlight other ↔
      write ∈ cluster.inFlight other ∨ other = client ∧ write ∈ writes := by
  rw [queued.inFlight]
  by_cases same : other = client
  · subst other
    simp
  · simp [same]

/-- A call queues its writes at the caller. -/
theorem queued_call (operation : Operation)
    (bounded : cluster.arrived client ≤ (cluster.issued client).length) :
    cluster.Queued (cluster.move apply issue (.call client operation)) client
      (issue (cluster.view client) operation) where
  store := rfl
  issued other := by
    by_cases same : other = client
    · subst other
      simp [move]
    · simp [move, same]
  inFlight other := by
    by_cases same : other = client
    · subst other
      simp [Cluster.inFlight, move, List.drop_append_of_le_length bounded]
    · simp [Cluster.inFlight, move, same]

/-- The first write of one queue has reached the store. -/
structure Arrived (apply : State → Write → State) (cluster next : Cluster Client State Write)
    (client : Client) (write : Write) (rest : List Write) : Prop where
  queue : cluster.inFlight client = write :: rest
  store : next.store = apply cluster.store write
  issued : next.issued = cluster.issued
  inFlight : ∀ other, next.inFlight other =
    if other = client then rest else cluster.inFlight other

theorem Arrived.issued_write (arrived : Arrived apply cluster next client write rest) :
    write ∈ cluster.issued client :=
  Cluster.mem_issued (by simp [arrived.queue])

/-- What is still in flight was in flight. -/
theorem Arrived.mem (arrived : Arrived apply cluster next client write rest) {later : Write}
    (member : later ∈ next.inFlight other) : later ∈ cluster.inFlight other := by
  rw [arrived.inFlight] at member
  by_cases same : other = client
  · subst other
    rw [arrived.queue]
    exact List.mem_cons_of_mem _ (by simpa using member)
  · simpa [same] using member

/-- What was in flight has arrived or is still in flight. -/
theorem Arrived.split (arrived : Arrived apply cluster next client write rest) {earlier : Write}
    (member : earlier ∈ cluster.inFlight other) :
    other = client ∧ earlier = write ∨ earlier ∈ next.inFlight other := by
  rw [arrived.inFlight]
  by_cases same : other = client
  · subst other
    rw [arrived.queue, List.mem_cons] at member
    simpa using member
  · exact .inr (by simpa [same] using member)

/-- What an arrival does: nothing, or it moves the first write of a queue to the store. -/
theorem arrive_cases (apply : State → Write → State) (issue : State → Operation → List Write)
    (cluster : Cluster Client State Write) (client : Client) :
    cluster.move apply issue (.arrive client) = cluster ∨
      ∃ write rest,
        Arrived apply cluster (cluster.move apply issue (.arrive client)) client write rest := by
  cases queue : cluster.inFlight client with
  | nil => exact .inl (by simp [move, queue])
  | cons write rest =>
    refine .inr ⟨write, rest, queue, by simp [move, queue], by simp [move, queue], fun other => ?_⟩
    by_cases same : other = client
    · subst other
      have tail : (cluster.issued client).drop (cluster.arrived client + 1) = rest := by
        rw [← List.tail_drop]
        exact congrArg List.tail queue
      simp only [move, queue]
      simpa [inFlight] using tail
    · simp only [move, queue]
      simp [inFlight, same]

/-- A delivery changes a view and nothing of the store or the queues. -/
theorem deliver_store (apply : State → Write → State) (issue : State → Operation → List Write)
    (cluster : Cluster Client State Write) (client : Client) :
    (cluster.move apply issue (.deliver client)).store = cluster.store ∧
      (cluster.move apply issue (.deliver client)).issued = cluster.issued ∧
      (cluster.move apply issue (.deliver client)).inFlight = cluster.inFlight := by
  cases queue : cluster.inbox client with
  | nil => simp [move, queue]
  | cons notice rest =>
    refine ⟨by simp [move, queue], by simp [move, queue], ?_⟩
    funext other
    simp [move, queue, inFlight]

theorem queued_deliver (apply : State → Write → State) (issue : State → Operation → List Write)
    (cluster : Cluster Client State Write) (client : Client) :
    cluster.Queued (cluster.move apply issue (.deliver client)) client [] := by
  obtain ⟨store, issued, flying⟩ := deliver_store apply issue cluster client
  refine ⟨store, fun other => ?_, fun other => ?_⟩
  · by_cases same : other = client
    · simp [issued, same]
    · simp [issued, same]
  · by_cases same : other = client
    · simp [flying, same]
    · simp [flying, same]

end Effects

section Steps

variable (preserved : ∀ state write, good state → fair write → good (apply state write))

include preserved

omit [DecidableEq Client] in
private theorem good_foldl {state : State} {writes : List Write} (holds : good state)
    (allFair : ∀ write ∈ writes, fair write) : good (writes.foldl apply state) := by
  induction writes generalizing state with
  | nil => exact holds
  | cons write rest ih =>
    exact ih (preserved state write holds (allFair write List.mem_cons_self))
      fun write member => allFair write (List.mem_cons_of_mem _ member)

omit [DecidableEq Client] in
theorem Synced.good_view (synced : Synced apply good fair cluster) (client : Client) :
    good (cluster.view client) := by
  obtain ⟨snapshot, known, holds, _, same⟩ := synced.view client
  rw [same]
  exact good_foldl preserved holds fun write member =>
    synced.writes client write (List.mem_of_mem_drop member)

theorem Synced.call
    (issues : ∀ copy operation, good copy → ∀ write ∈ issue copy operation, fair write)
    (synced : Synced apply good fair cluster) (client : Client) (operation : Operation) :
    Synced apply good fair (cluster.move apply issue (.call client operation)) := by
  have fresh := issues (cluster.view client) operation (synced.good_view preserved client)
  refine ⟨synced.store, fun other write member => ?_, fun other => ?_, synced.inbox,
    fun other => ?_⟩
  · by_cases same : other = client
    · subst other
      simp only [move, Function.update_self, List.mem_append] at member
      exact member.elim (synced.writes client write) (fresh write)
    · exact synced.writes other write (by simpa [move, same] using member)
  · have bounded := synced.arrived other
    by_cases same : other = client
    · subst other
      simp only [move, Function.update_self, List.length_append]
      omega
    · simpa [move, same] using bounded
  · obtain ⟨snapshot, known, holds, old, view⟩ := synced.view other
    refine ⟨snapshot, known, holds, old, ?_⟩
    by_cases same : other = client
    · subst other
      simp only [move, Function.update_self]
      rw [List.drop_append_of_le_length (Nat.le_trans old (synced.arrived client)),
        List.foldl_append, view]
    · simpa [move, same] using view

theorem Synced.arrive (synced : Synced apply good fair cluster) (client : Client) :
    Synced apply good fair (cluster.move apply issue (.arrive client)) := by
  cases queue : cluster.inFlight client with
  | nil => simpa [Cluster.move, queue] using synced
  | cons write rest =>
    have member : write ∈ cluster.issued client := mem_issued (by simp [queue])
    have stored : good (apply cluster.store write) :=
      preserved _ _ synced.store (synced.writes client write member)
    have room : cluster.arrived client + 1 ≤ (cluster.issued client).length := by
      have long := congrArg List.length queue
      simp only [inFlight, List.length_drop, List.length_cons] at long
      omega
    have grown (other : Client) : cluster.arrived other ≤
        Function.update cluster.arrived client (cluster.arrived client + 1) other := by
      by_cases same : other = client
      · subst other
        simp
      · simp [same]
    simp only [Cluster.move, queue]
    refine ⟨stored, synced.writes, fun other => ?_, fun other notice member => ?_, fun other => ?_⟩
    · by_cases same : other = client
      · subst other
        simpa using room
      · simpa [same] using synced.arrived other
    · rcases List.mem_append.mp member with old | last
      · obtain ⟨holds, known⟩ := synced.inbox other notice old
        exact ⟨holds, Nat.le_trans known (grown other)⟩
      · cases List.mem_singleton.mp last
        exact ⟨stored, Nat.le_refl _⟩
    · obtain ⟨snapshot, known, holds, old, view⟩ := synced.view other
      exact ⟨snapshot, known, holds, Nat.le_trans old (grown other), view⟩

omit preserved in
theorem Synced.deliver (synced : Synced apply good fair cluster) (client : Client) :
    Synced apply good fair (cluster.move apply issue (.deliver client)) := by
  cases queue : cluster.inbox client with
  | nil => simpa [Cluster.move, queue] using synced
  | cons notice rest =>
    obtain ⟨snapshot, known⟩ := notice
    obtain ⟨holds, old⟩ := synced.inbox client (snapshot, known) (by simp [queue])
    simp only [Cluster.move, queue]
    refine ⟨synced.store, synced.writes, synced.arrived, fun other notice member => ?_,
      fun other => ?_⟩
    · by_cases same : other = client
      · subst other
        simp only [Function.update_self] at member
        exact synced.inbox client notice (by simp [queue, member])
      · exact synced.inbox other notice (by simpa [same] using member)
    · by_cases same : other = client
      · subst other
        exact ⟨snapshot, known, holds, old, by simp⟩
      · simpa [same] using synced.view other

/-- The step lemma of the clients. -/
theorem Synced.move
    (issues : ∀ copy operation, good copy → ∀ write ∈ issue copy operation, fair write)
    (synced : Synced apply good fair cluster) (event : Move Client Operation) :
    Synced apply good fair (cluster.move apply issue event) := by
  cases event with
  | call client operation => exact synced.call preserved issues client operation
  | arrive client => exact synced.arrive preserved client
  | deliver client => exact synced.deliver client

end Steps

omit [DecidableEq Client] in
/-- A client sees its own writes in flight: its view is some state with these on top. -/
theorem Synced.own_writes (synced : Synced apply good fair cluster) (client : Client) :
    ∃ earlier, cluster.view client = (cluster.inFlight client).foldl apply earlier := by
  obtain ⟨snapshot, known, _, old, view⟩ := synced.view client
  refine ⟨((((cluster.issued client).drop known).take (cluster.arrived client - known)).foldl
    apply snapshot), ?_⟩
  have split := List.take_append_drop (cluster.arrived client - known)
    ((cluster.issued client).drop known)
  rw [List.drop_drop, Nat.add_sub_cancel' old] at split
  rw [view, ← List.foldl_append, inFlight, split]

end Cluster

end AugmentedCampus.Foundation
