import AugmentedCampus.Foundation.History

/-! Clients that take turns. While no client writes before what the others have written has
arrived and it has been told of it, one state stands for the whole cluster: the one the
store will be in when nothing is in flight any more. -/
namespace AugmentedCampus.Foundation

universe u v w x

namespace Cluster

variable {Client : Type u} {State : Type v} {Write : Type w} {Operation : Type x}

/-- No other client has a write in flight, and the client sees all that has arrived. -/
structure Turn (apply : State → Write → State) (cluster : Cluster Client State Write)
    (client : Client) : Prop where
  others : ∀ other, other ≠ client → cluster.inFlight other = []
  view : cluster.view client = (cluster.inFlight client).foldl apply cluster.store

/-- At most one client has writes in flight; with them the store becomes the state. -/
inductive Settles (apply : State → Write → State) (cluster : Cluster Client State Write) :
    State → Prop
  | quiet (quiescent : cluster.Quiescent) : Settles apply cluster cluster.store
  | busy {client : Client} (others : ∀ other, other ≠ client → cluster.inFlight other = []) :
    Settles apply cluster ((cluster.inFlight client).foldl apply cluster.store)

variable {apply : State → Write → State} {issue : State → Operation → List Write}
  {cluster next : Cluster Client State Write} {client : Client} {settled : State}

theorem settles_start (state : State) (view : Client → State) :
    Settles apply (start state view : Cluster Client State Write) state :=
  .quiet fun _ => rfl

theorem Settles.eq_of_others (settles : Settles apply cluster settled)
    (others : ∀ other, other ≠ client → cluster.inFlight other = []) :
    settled = (cluster.inFlight client).foldl apply cluster.store := by
  cases settles with
  | quiet quiescent =>
    rw [quiescent client]
    rfl
  | @busy writer silent =>
    by_cases same : writer = client
    · rw [same]
    · rw [others writer same, silent client (Ne.symm same)]

theorem Settles.quiescent (settles : Settles apply cluster settled)
    (quiescent : cluster.Quiescent) : cluster.store = settled := by
  cases settles with
  | quiet _ => rfl
  | @busy writer _ =>
    rw [quiescent writer]
    rfl

/-- The client whose turn it is sees the state. -/
theorem Settles.view (settles : Settles apply cluster settled) (turn : Turn apply cluster client) :
    cluster.view client = settled :=
  turn.view.trans (settles.eq_of_others turn.others).symm

/-- What changes neither the store nor the queues changes no outcome. -/
theorem Settles.congr (settles : Settles apply cluster settled)
    (store : next.store = cluster.store) (inFlight : next.inFlight = cluster.inFlight) :
    Settles apply next settled := by
  cases settles with
  | quiet quiescent =>
    rw [← store]
    exact .quiet fun client => (congrFun inFlight client).trans (quiescent client)
  | busy others =>
    rw [← store, ← inFlight]
    exact .busy fun other apart => (congrFun inFlight other).trans (others other apart)

variable [DecidableEq Client]

/-- A client that has been told of everything has its turn if nothing of another is in flight. -/
theorem Recorded.turn {initial : State} {history : List (Client × Write)} {seen : Client → Nat}
    (recorded : Recorded apply initial history seen cluster)
    (others : ∀ other, other ≠ client → cluster.inFlight other = [])
    (drained : cluster.inbox client = []) : Turn apply cluster client :=
  ⟨others, recorded.view_of_drained drained⟩

/-- A call in turn takes effect at once: the next outcome is the last one with its writes. -/
theorem Settles.call (settles : Settles apply cluster settled) (turn : Turn apply cluster client)
    (bounded : cluster.arrived client ≤ (cluster.issued client).length) (operation : Operation) :
    Settles apply (cluster.move apply issue (.call client operation))
      ((issue settled operation).foldl apply settled) := by
  have queued : cluster.Queued (cluster.move apply issue (.call client operation)) client _ :=
    queued_call operation bounded
  have outcome : (issue settled operation).foldl apply settled =
      ((cluster.move apply issue (.call client operation)).inFlight client).foldl apply
        (cluster.move apply issue (.call client operation)).store := by
    rw [queued.inFlight, if_pos rfl, queued.store, List.foldl_append,
      ← settles.eq_of_others turn.others, settles.view turn]
  rw [outcome]
  refine .busy fun other apart => ?_
  rw [queued.inFlight, if_neg apart]
  exact turn.others other apart

/-- A call that writes nothing may come at any time. -/
theorem Settles.silent (settles : Settles apply cluster settled)
    (bounded : cluster.arrived client ≤ (cluster.issued client).length) {operation : Operation}
    (silent : issue (cluster.view client) operation = []) :
    Settles apply (cluster.move apply issue (.call client operation)) settled := by
  have queued : cluster.Queued (cluster.move apply issue (.call client operation)) client _ :=
    queued_call operation bounded
  refine settles.congr queued.store (funext fun other => ?_)
  rw [queued.inFlight, silent, List.append_nil]
  split
  · next same => rw [same]
  · rfl

theorem Settles.arrive (settles : Settles apply cluster settled) (client : Client) :
    Settles apply (cluster.move apply issue (.arrive client)) settled := by
  rcases arrive_cases apply issue cluster client with same | ⟨write, rest, arrived⟩
  · rw [same]
    exact settles
  · cases settles with
    | quiet quiescent => cases arrived.queue.symm.trans (quiescent client)
    | @busy writer others =>
      have same : client = writer := by
        by_contra apart
        cases arrived.queue.symm.trans (others client apart)
      subst writer
      have outcome : (cluster.inFlight client).foldl apply cluster.store =
          ((cluster.move apply issue (.arrive client)).inFlight client).foldl apply
            (cluster.move apply issue (.arrive client)).store := by
        rw [arrived.inFlight, if_pos rfl, arrived.store, arrived.queue, List.foldl_cons]
      rw [outcome]
      refine .busy fun other apart => ?_
      rw [arrived.inFlight, if_neg apart]
      exact others other apart

theorem Settles.deliver (settles : Settles apply cluster settled) (client : Client) :
    Settles apply (cluster.move apply issue (.deliver client)) settled := by
  obtain ⟨store, _, inFlight⟩ := deliver_store apply issue cluster client
  exact settles.congr store inFlight

end Cluster

end AugmentedCampus.Foundation
