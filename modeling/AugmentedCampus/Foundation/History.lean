import AugmentedCampus.Foundation.Replica

/-! The one history behind a cluster: the writes that have reached the store, in order.
Each client has gone through a part of it that only grows, and its view is the state
after that part under its own later writes. -/
namespace AugmentedCampus.Foundation

universe u v w x

namespace Cluster

variable {Client : Type u} {State : Type v} {Write : Type w} {Operation : Type x}

/-- The state after the writes of a history. -/
def replay (apply : State → Write → State) (initial : State) (history : List (Client × Write)) :
    State :=
  (history.map Prod.snd).foldl apply initial

variable [DecidableEq Client]

/-- The writes of one client. -/
def own (client : Client) (history : List (Client × Write)) : List Write :=
  (history.filter fun entry => entry.1 = client).map Prod.snd

/-- The notice sent after the first `count` writes. -/
def notice (apply : State → Write → State) (initial : State) (history : List (Client × Write))
    (client : Client) (count : Nat) : State × Nat :=
  (replay apply initial (history.take count), (own client (history.take count)).length)

/-- `seen client` counts the writes that the client has been told of. -/
structure Recorded (apply : State → Write → State) (initial : State)
    (history : List (Client × Write)) (seen : Client → Nat)
    (cluster : Cluster Client State Write) : Prop where
  store : cluster.store = replay apply initial history
  arrived : ∀ client, cluster.arrived client ≤ (cluster.issued client).length
  part : ∀ client, own client history = (cluster.issued client).take (cluster.arrived client)
  told : ∀ client, seen client ≤ history.length
  inbox : ∀ client, cluster.inbox client =
    (List.range' (seen client + 1) (history.length - seen client)).map
      (notice apply initial history client)
  view : ∀ client, cluster.view client =
    ((cluster.issued client).drop (notice apply initial history client (seen client)).2).foldl
      apply (notice apply initial history client (seen client)).1

variable {apply : State → Write → State} {issue : State → Operation → List Write}
  {initial : State} {history : List (Client × Write)} {seen : Client → Nat}
  {cluster : Cluster Client State Write} {client : Client}

theorem recorded_start (initial : State) :
    Recorded apply initial [] (fun _ => 0) (start initial fun _ : Client => initial) where
  store := rfl
  arrived _ := Nat.le_refl _
  part _ := rfl
  told _ := Nat.le_refl _
  inbox _ := rfl
  view _ := rfl

omit [DecidableEq Client] in
theorem replay_concat (entry : Client × Write) :
    replay apply initial (history ++ [entry]) = apply (replay apply initial history) entry.2 := by
  simp [replay]

theorem own_concat (entry : Client × Write) :
    own client (history ++ [entry]) =
      own client history ++ if entry.1 = client then [entry.2] else [] := by
  by_cases same : entry.1 = client <;> simp [own, same]

theorem notice_append (entry : Client × Write) {count : Nat} (inside : count ≤ history.length) :
    notice apply initial (history ++ [entry]) client count =
      notice apply initial history client count := by
  rw [notice, notice, List.take_append_of_le_length inside]

/-- A client has issued whatever of its own it has been told of. -/
theorem Recorded.notice_le (recorded : Recorded apply initial history seen cluster)
    (client : Client) (count : Nat) :
    (notice apply initial history client count).2 ≤ (cluster.issued client).length := by
  have part : (own client (history.take count)).Sublist (own client history) :=
    ((List.take_sublist count history).filter _).map _
  have all := part.length_le
  rw [recorded.part client, List.length_take] at all
  exact Nat.le_trans all (Nat.min_le_right _ _)

theorem Recorded.call (recorded : Recorded apply initial history seen cluster) (client : Client)
    (operation : Operation) :
    Recorded apply initial history seen (cluster.move apply issue (.call client operation)) := by
  have queued : cluster.Queued (cluster.move apply issue (.call client operation)) client _ :=
    queued_call operation (recorded.arrived client)
  refine ⟨recorded.store, fun other => ?_, fun other => ?_, recorded.told, recorded.inbox,
    fun other => ?_⟩
  all_goals
    by_cases same : other = client
  · subst other
    exact Nat.le_trans (recorded.arrived client) (by rw [queued.issued]; simp)
  · rw [queued.issued, if_neg same]
    exact recorded.arrived other
  · subst other
    rw [queued.issued, if_pos rfl, recorded.part]
    exact (List.take_append_of_le_length (recorded.arrived client)).symm
  · rw [queued.issued, if_neg same]
    exact recorded.part other
  · subst other
    have view := recorded.view client
    rw [queued.issued, if_pos rfl,
      List.drop_append_of_le_length (recorded.notice_le client (seen client)), List.foldl_append,
      ← view]
    simp [move]
  · rw [queued.issued, if_neg same]
    simpa [move, same] using recorded.view other

theorem Recorded.length_own (recorded : Recorded apply initial history seen cluster)
    (client : Client) : (own client history).length = cluster.arrived client := by
  rw [recorded.part, List.length_take]
  exact Nat.min_eq_left (recorded.arrived client)

/-- An arrival appends the write to the history. -/
theorem Recorded.arrive (recorded : Recorded apply initial history seen cluster)
    (client : Client) :
    ∃ more, Recorded apply initial (history ++ more) seen
      (cluster.move apply issue (.arrive client)) := by
  cases queue : cluster.inFlight client with
  | nil => exact ⟨[], by simpa [Cluster.move, queue] using recorded⟩
  | cons write rest =>
    refine ⟨[(client, write)], ?_⟩
    have long := congrArg List.length queue
    simp only [inFlight, List.length_drop, List.length_cons] at long
    have next : (cluster.issued client)[cluster.arrived client]? = some write := by
      have first := congrArg List.head? queue
      rwa [inFlight, List.head?_drop] at first
    have part (other : Client) : own other (history ++ [(client, write)]) =
        (cluster.issued other).take
          (Function.update cluster.arrived client (cluster.arrived client + 1) other) := by
      rw [own_concat, recorded.part]
      by_cases same : other = client
      · subst other
        simp [List.take_add_one, next]
      · simp [same, Ne.symm same]
    have arrived (other : Client) :
        Function.update cluster.arrived client (cluster.arrived client + 1) other ≤
          (cluster.issued other).length := by
      by_cases same : other = client
      · subst other
        simp only [Function.update_self]
        omega
      · simpa [same] using recorded.arrived other
    have last (other : Client) :
        notice apply initial (history ++ [(client, write)]) other (history.length + 1) =
          (apply cluster.store write,
            Function.update cluster.arrived client (cluster.arrived client + 1) other) := by
      have whole : (history ++ [(client, write)]).take (history.length + 1) =
          history ++ [(client, write)] := List.take_of_length_le (by simp)
      rw [notice, whole, replay_concat, part, List.length_take, Nat.min_eq_left (arrived other),
        recorded.store]
    simp only [Cluster.move, queue]
    refine ⟨by rw [replay_concat, recorded.store], arrived, part, fun other => ?_, fun other => ?_,
      fun other => ?_⟩
    · exact Nat.le_trans (recorded.told other) (by simp)
    · have room : (history ++ [(client, write)]).length - seen other =
          history.length - seen other + 1 := by
        have told := recorded.told other
        simp only [List.length_append, List.length_singleton]
        omega
      have top : seen other + 1 + (history.length - seen other) = history.length + 1 := by
        have told := recorded.told other
        omega
      rw [room, List.range'_concat, List.map_append, List.map_singleton, Nat.one_mul, top, last]
      change cluster.inbox other ++ _ = _
      rw [recorded.inbox]
      congr 1
      refine List.map_congr_left fun count member => (notice_append _ ?_).symm
      have bound := List.mem_range'_1.mp member
      omega
    · rw [notice_append _ (recorded.told other)]
      exact recorded.view other

/-- A delivery takes the client one write further. -/
theorem Recorded.deliver (recorded : Recorded apply initial history seen cluster)
    (client : Client) :
    ∃ later, (∀ other, seen other ≤ later other) ∧
      Recorded apply initial history later (cluster.move apply issue (.deliver client)) := by
  cases queue : cluster.inbox client with
  | nil => exact ⟨seen, fun _ => Nat.le_refl _, by simpa [Cluster.move, queue] using recorded⟩
  | cons first rest =>
    have listed := (recorded.inbox client).symm.trans queue
    obtain ⟨room, left⟩ : ∃ room, history.length - seen client = room + 1 := by
      refine Nat.exists_eq_succ_of_ne_zero fun none => ?_
      simp [none] at listed
    rw [left, List.range'_succ, List.map_cons, List.cons.injEq] at listed
    obtain ⟨rfl, rfl⟩ := listed
    refine ⟨Function.update seen client (seen client + 1), fun other => ?_, ?_⟩
    · by_cases same : other = client
      · subst other
        simp
      · simp [same]
    have told := recorded.told client
    simp only [Cluster.move, queue]
    refine ⟨recorded.store, recorded.arrived, recorded.part, fun other => ?_, fun other => ?_,
      fun other => ?_⟩
    all_goals
      by_cases same : other = client
    · subst other
      simp only [Function.update_self]
      omega
    · simpa [same] using recorded.told other
    · subst other
      have rest : history.length - (seen client + 1) = room := by omega
      simp only [Function.update_self, rest]
    · simpa [same] using recorded.inbox other
    · subst other
      simp only [Function.update_self]
    · simpa [same] using recorded.view other

/-- The step lemma of the history. -/
theorem Recorded.move (recorded : Recorded apply initial history seen cluster)
    (event : Move Client Operation) :
    ∃ more later, (∀ client, seen client ≤ later client) ∧
      Recorded apply initial (history ++ more) later (cluster.move apply issue event) := by
  cases event with
  | call client operation =>
    refine ⟨[], seen, fun _ => Nat.le_refl _, ?_⟩
    rw [List.append_nil]
    exact recorded.call client operation
  | arrive client =>
    obtain ⟨more, next⟩ := recorded.arrive client
    exact ⟨more, seen, fun _ => Nat.le_refl _, next⟩
  | deliver client =>
    obtain ⟨later, onward, next⟩ := recorded.deliver client
    refine ⟨[], later, onward, ?_⟩
    rw [List.append_nil]
    exact next

/-- A client that has been told of everything sees the store under its own writes in flight. -/
theorem Recorded.view_of_drained (recorded : Recorded apply initial history seen cluster)
    (drained : cluster.inbox client = []) :
    cluster.view client = (cluster.inFlight client).foldl apply cluster.store := by
  have listed := (recorded.inbox client).symm.trans drained
  have told := recorded.told client
  have all : history.length ≤ seen client := by
    simp only [List.map_eq_nil_iff, List.range'_eq_nil_iff] at listed
    omega
  rw [recorded.view, notice, List.take_of_length_le all, recorded.length_own, recorded.store]
  rfl

theorem own_eq_map (all : ∀ entry ∈ history, entry.1 = client) :
    own client history = history.map Prod.snd := by
  rw [own, List.filter_eq_self.mpr fun entry member => decide_eq_true (all entry member)]

section Sole

variable (sole : ∀ other, other ≠ client → cluster.issued other = [])

include sole

/-- Where only one client writes, the history is what has arrived of its writes. -/
theorem Recorded.writer_of_sole (recorded : Recorded apply initial history seen cluster) :
    ∀ entry ∈ history, entry.1 = client := by
  intro entry member
  by_contra foreign
  have listed : entry.2 ∈ own entry.1 history :=
    List.mem_map.mpr ⟨entry, List.mem_filter.mpr ⟨member, decide_eq_true rfl⟩, rfl⟩
  rw [recorded.part, sole entry.1 foreign] at listed
  simp at listed

theorem Recorded.store_of_sole (recorded : Recorded apply initial history seen cluster) :
    cluster.store = ((cluster.issued client).take (cluster.arrived client)).foldl apply initial := by
  rw [recorded.store, replay, ← own_eq_map (recorded.writer_of_sole sole), recorded.part]

/-- It always sees the state after all of them. -/
theorem Recorded.view_of_sole (recorded : Recorded apply initial history seen cluster) :
    cluster.view client = (cluster.issued client).foldl apply initial := by
  have writer := recorded.writer_of_sole sole
  have known : own client (history.take (seen client)) =
      (history.take (seen client)).map Prod.snd :=
    own_eq_map fun entry member => writer entry (List.mem_of_mem_take member)
  have part : (history.take (seen client)).map Prod.snd <+: cluster.issued client := by
    rw [List.map_take, ← own_eq_map writer, recorded.part]
    exact (List.take_prefix _ _).trans (List.take_prefix _ _)
  rw [recorded.view, notice, known, replay, ← List.foldl_append,
    List.prefix_iff_eq_append.mp part]

end Sole

end Cluster

end AugmentedCampus.Foundation
