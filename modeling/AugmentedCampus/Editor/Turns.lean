import AugmentedCampus.Editor.Session
import AugmentedCampus.Foundation.Turns

/-! Several clients edit the map in turn: each waits until the work of the others has arrived
and it has been told of it. Then the store is edited as if by a single one. -/
namespace AugmentedCampus

open Foundation

universe u v

namespace Workshop

variable {Client : Type u} {K : Type v} [DecidableEq Client]

section Turns

variable [Ring K] [SquareRoot K] (nodeOrder : Dictionary.Order String (NodeRecord Nat K))
  (order : EntryOrder K)

/-- A page writes only when it is its client's turn. -/
def TakesTurns (initial : Database K) (events : List (WorkshopEvent Client K)) : Prop :=
  ∀ earlier event later, events = earlier ++ event :: later → ∀ client,
    writesOf nodeOrder order (run nodeOrder order initial earlier) client event ≠ [] →
      Cluster.Turn Database.apply (run nodeOrder order initial earlier).shared client

/-- Each event in turn is nothing or a complete call on the store that the earlier ones have
led to, and this is the store that they all lead to. -/
inductive Sequential (initial : Database K) :
    List (WorkshopEvent Client K) → Database K → Prop
  | start : Sequential initial [] initial
  | silent {events : List (WorkshopEvent Client K)} {event : WorkshopEvent Client K}
    {store : Database K} (before : Sequential initial events store)
    (unwritten : ∀ client,
      writesOf nodeOrder order (run nodeOrder order initial events) client event = []) :
    Sequential initial (events ++ [event]) store
  | call {events : List (WorkshopEvent Client K)} {event : WorkshopEvent Client K}
    {store : Database K} {client : Client} (call : EntryOrder K × Operation K)
    (before : Sequential initial events store)
    (written : writesOf nodeOrder order (run nodeOrder order initial events) client event =
      callWrites store call) :
    Sequential initial (events ++ [event]) (store.complete call.1 call.2)

end Turns

section Runs

variable [Ring K] [SquareRoot K] {nodeOrder : Dictionary.Order String (NodeRecord Nat K)}
  {order : EntryOrder K} {initial : Database K} {events : List (WorkshopEvent Client K)}
  {event : WorkshopEvent Client K}

theorem TakesTurns.of_concat (turns : TakesTurns nodeOrder order initial (events ++ [event])) :
    TakesTurns nodeOrder order initial events :=
  fun earlier spoken later cut => turns earlier spoken (later ++ [event]) (by simp [cut])

theorem shared_page (workshop : Workshop Client K) (client : Client) (event : PageEvent K)
    (heard : List (List Listener)) :
    (workshop.step nodeOrder order (.page client event heard)).shared = send workshop.shared
      (.call client (writesOf nodeOrder order workshop client (.page client event heard))) := by
  simp [step, writesOf]

/-- The step lemma. -/
theorem Sequential.step {store : Database K} (before : Sequential nodeOrder order initial events store)
    (settles : Cluster.Settles Database.apply (run nodeOrder order initial events).shared store)
    (served : ∀ client, Served nodeOrder order initial client (events ++ [event]))
    (turns : TakesTurns nodeOrder order initial (events ++ [event])) :
    ∃ next, Sequential nodeOrder order initial (events ++ [event]) next ∧
      Cluster.Settles Database.apply (run nodeOrder order initial (events ++ [event])).shared next := by
  obtain ⟨history, seen, recorded⟩ := run_recorded nodeOrder order initial events
  have inTurn := turns events event [] rfl
  rw [run_snoc]
  cases event with
  | arrive client =>
    have arrived : Cluster.Settles Database.apply (send _ (.arrive client)) store :=
      settles.arrive client
    exact ⟨store, .silent before fun _ => rfl, arrived⟩
  | deliver client heard =>
    have delivered : Cluster.Settles Database.apply (send _ (.deliver client)) store :=
      settles.deliver client
    exact ⟨store, .silent before fun _ => rfl, delivered⟩
  | page client event heard =>
    rw [shared_page]
    by_cases silent : writesOf nodeOrder order (run nodeOrder order initial events) client
        (.page client event heard) = []
    · refine ⟨store, .silent before fun other => ?_, settles.silent (recorded.arrived client) silent⟩
      by_cases same : client = other
      · rw [← same]
        exact silent
      · exact if_neg same
    · have turn := inTurn client silent
      obtain ⟨call, written⟩ : ∃ call, writesOf nodeOrder order (run nodeOrder order initial events)
          client (.page client event heard) = callWrites store call := by
        rw [writesOf, if_pos rfl] at silent ⊢
        obtain ⟨call, issued⟩ := (served client).writes.resolve_left silent
        exact ⟨call, issued.trans (congrArg (callWrites · call) (settles.view turn))⟩
      refine ⟨store.complete call.1 call.2, .call call before written, ?_⟩
      rw [written]
      exact settles.call turn (recorded.arrived client) (callWrites store call)

end Runs

variable [CommRing K] [SquareRoot K] (nodeOrder : Dictionary.Order String (NodeRecord Nat K))
  (order : EntryOrder K)

theorem Sequential.wellFormed {initial store : Database K} {events : List (WorkshopEvent Client K)}
    (sequential : Sequential nodeOrder order initial events store) (first : initial.WellFormed) :
    store.WellFormed := by
  induction sequential with
  | start => exact first
  | silent before unwritten ih => exact ih
  | call call before written ih => exact ih.complete call.1 call.2

/-- The run lemma. -/
theorem exists_sequential {initial : Database K} {events : List (WorkshopEvent Client K)}
    (served : ∀ client, Served nodeOrder order initial client events)
    (turns : TakesTurns nodeOrder order initial events) :
    ∃ store, Sequential nodeOrder order initial events store ∧
      Cluster.Settles Database.apply (run nodeOrder order initial events).shared store := by
  induction events using List.reverseRecOn with
  | nil => exact ⟨initial, .start, Cluster.settles_start initial _⟩
  | append_singleton events event ih =>
    obtain ⟨store, before, settles⟩ := ih (fun client => (served client).of_concat) turns.of_concat
    exact before.step settles served turns

/-- As long as the clients take turns, and the client libraries serve their pages, the presses of
buttons are complete calls of the editor one after the other, each on the store that the
earlier ones have led to. With nothing in flight any more the store is what all of them have
led to, and a client sees it as soon as it has been told of what the others have written. -/
theorem run_turns (initial : Database K) (events : List (WorkshopEvent Client K))
    (served : ∀ client, Served nodeOrder order initial client events)
    (turns : TakesTurns nodeOrder order initial events) :
    let shared := (run nodeOrder order initial events).shared
    ∃ store, Sequential nodeOrder order initial events store ∧
      (initial.WellFormed → store.WellFormed) ∧
      (shared.Quiescent → shared.store = store) ∧
      ∀ client, (∀ other, other ≠ client → shared.inFlight other = []) →
        shared.inbox client = [] → shared.view client = store := by
  intro shared
  obtain ⟨store, sequential, settles⟩ := exists_sequential nodeOrder order served turns
  obtain ⟨history, seen, recorded⟩ := run_recorded nodeOrder order initial events
  refine ⟨store, sequential, sequential.wellFormed nodeOrder order, settles.quiescent, ?_⟩
  intro client others drained
  exact settles.view (recorded.turn others drained)

section Examples

def adds (client : Bool) (lat : ℚ) : List (WorkshopEvent Bool ℚ) :=
  [.page client (.dblclick lat 0) [],
    .page client (.press (.loose 0) (.saveNode "Annex")) [Page.everyone, Page.everyone],
    .arrive client, .arrive client]

/-- A node is added by one client, and after its arrival one by the other. -/
def annexes : List (WorkshopEvent Bool ℚ) :=
  loads true ++ loads false ++ adds true 1 ++
    [.deliver false Page.everyone, .deliver false Page.everyone] ++ adds false 2

/-- The buttons are pressed in two places of the run. -/
theorem annexes_press {earlier later : List (WorkshopEvent Bool ℚ)} {client : Bool} {place : Place}
    {button : Button} {heard : List (List Listener)}
    (cut : annexes = earlier ++ .page client (.press place button) heard :: later) :
    button = .saveNode "Annex" ∧ heard = [Page.everyone, Page.everyone] ∧
      (client = true ∧ earlier = annexes.take 7 ∨ client = false ∧ earlier = annexes.take 13) := by
  simp [annexes, loads, adds, List.cons_eq_append_iff] at cut
  obtain ⟨front, rfl, ⟨rfl, ⟨rfl, ⟨rfl, rfl⟩, rfl⟩, -⟩ | ⟨rfl, ⟨rfl, ⟨rfl, rfl⟩, rfl⟩, -⟩⟩ := cut
  · exact ⟨rfl, rfl, .inl ⟨rfl, rfl⟩⟩
  · exact ⟨rfl, rfl, .inr ⟨rfl, rfl⟩⟩

theorem annexes_served (client : Bool) : Served .asStored .asStored joined client annexes :=
  served_of_serves (by cases client <;> decide +kernel)

theorem annexes_takesTurns : TakesTurns .asStored .asStored joined annexes := by
  intro earlier event later cut client wrote
  obtain ⟨history, seen, recorded⟩ := run_recorded .asStored .asStored joined earlier
  cases event with
  | arrive actor => exact absurd rfl wrote
  | deliver actor heard => exact absurd rfl wrote
  | page actor event heard =>
    have same : actor = client := by
      by_contra apart
      exact wrote (if_neg apart)
    rw [writesOf, if_pos same] at wrote
    by_cases pressed : ∃ place button, event = .press place button
    · obtain ⟨place, button, rfl⟩ := pressed
      rw [same] at cut
      have first : (run .asStored .asStored joined (annexes.take 7)).shared.inFlight false = [] ∧
        (run .asStored .asStored joined (annexes.take 7)).shared.inbox true = [] := by decide +kernel
      have second : (run .asStored .asStored joined (annexes.take 13)).shared.inFlight true = [] ∧
        (run .asStored .asStored joined (annexes.take 13)).shared.inbox false = [] := by
        decide +kernel
      obtain ⟨-, -, ⟨rfl, rfl⟩ | ⟨rfl, rfl⟩⟩ := annexes_press cut
      · refine recorded.turn (fun other apart => ?_) first.2
        rw [Bool.eq_false_iff.mpr apart]
        exact first.1
      · refine recorded.turn (fun other apart => ?_) second.2
        rw [Bool.eq_true_of_not_eq_false apart]
        exact second.1
    · exact absurd (Page.step_writes fun place button spoken => pressed ⟨place, button, spoken⟩) wrote

theorem run_turns_annexes :
    (run .asStored .asStored joined annexes).shared.store.WellFormed ∧
    (run .asStored .asStored joined annexes).shared.store.nodes.values.map NodeRecord.id =
      [4, 3, 2, 1] := by
  obtain ⟨store, -, formed, settled, -⟩ :=
    run_turns .asStored .asStored joined annexes annexes_served annexes_takesTurns
  refine ⟨?_, by decide +kernel⟩
  rw [settled (Bool.forall_bool.mpr ⟨by decide +kernel, by decide +kernel⟩)]
  exact formed (unjoined_wellFormed.complete .asStored _)

end Examples

end Workshop

end AugmentedCampus
