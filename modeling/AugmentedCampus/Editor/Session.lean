import AugmentedCampus.Editor.Effects
import AugmentedCampus.Editor.Workshop
import Mathlib.Data.List.Induction

/-! What the pages of a workshop do to the store, whatever is clicked, are complete calls of
the editor, as long as the client library calls the listeners of what has changed. -/
namespace AugmentedCampus

open Foundation

universe u v

namespace Page

variable {K : Type v}

/-- What the listener listens to is not the same in both. -/
def Changed (view next : Database K) : Listener → Prop
  | .base => next.index ≠ view.index ∨ (∃ key, next.nodes.lookup key ≠ view.nodes.lookup key) ∨
    ∃ key, next.edges.lookup key ≠ view.edges.lookup key
  | .index => next.index ≠ view.index
  | .node => ∃ key, next.nodes.lookup key ≠ view.nodes.lookup key
  | .edge => ∃ key, next.edges.lookup key ≠ view.edges.lookup key

/-- The listeners of what has changed are among those that are called. -/
def Heard (view next : Database K) (listeners : List Listener) : Prop :=
  ∀ listener, Changed view next listener → listener ∈ listeners

/-- Each write is followed by calls of the listeners of what it has changed. -/
def Answered : Database K → List (Write K) → List (List Listener) → Prop
  | _, [], _ => True
  | view, write :: writes, heard =>
    Heard view (view.apply write) (heard.headD []) ∧ Answered (view.apply write) writes heard.tail

/-- The listener on what a write sets; besides it there is only `baseRef`. -/
def listenerOf : Write K → Listener
  | .index _ => .index
  | .node _ _ => .node
  | .edge _ _ => .edge

theorem heard_write {view : Database K} {write : Write K} {listeners : List Listener}
    (own : listenerOf write ∈ listeners) (base : .base ∈ listeners) :
    Heard view (view.apply write) listeners := by
  intro listener changed
  cases listener with
  | base => exact base
  | index => cases write <;> first | exact own | simp [Changed, Database.apply] at changed
  | node => cases write <;> first | exact own | simp [Changed, Database.apply] at changed
  | edge => cases write <;> first | exact own | simp [Changed, Database.apply] at changed

/-- Each write is followed by calls of the listener on what it sets and of `baseRef`. -/
def answers : List (Write K) → List (List Listener) → Bool
  | [], _ => true
  | write :: writes, heard =>
    decide (listenerOf write ∈ heard.headD [] ∧ .base ∈ heard.headD []) &&
      answers writes heard.tail

theorem answered_of_answers {view : Database K} {writes : List (Write K)}
    {heard : List (List Listener)} (checked : answers writes heard = true) :
    Answered view writes heard := by
  induction writes generalizing view heard with
  | nil => trivial
  | cons write rest ih =>
    obtain ⟨called, later⟩ := Bool.and_eq_true_iff.mp checked
    obtain ⟨own, base⟩ := of_decide_eq_true called
    exact ⟨heard_write own base, ih later⟩

/-- The listeners are called one and all. -/
def everyone : List Listener := [.base, .index, .node, .edge]

theorem mem_everyone (listener : Listener) : listener ∈ everyone := by
  cases listener <;> simp [everyone]

section Facts

variable {page : Page K} {view : Database K}

/-- `indexRef` has told the page how many nodes there have been. -/
def Counted (view : Database K) (page : Page K) : Prop := page.nodeCount = view.index

/-- `edgeRef` has told the page which edges there are. -/
def Drawn (view : Database K) (page : Page K) : Prop :=
  ∀ key, (page.edges.getD ∅).lookup key = view.edges.lookup key

theorem lookup_snapshotValue {Value : Type v} (stored : Dictionary String Value) (key : String) :
    ((snapshotValue stored).getD ∅).lookup key = stored.lookup key := by
  cases found : snapshotValue stored with
  | none => exact (snapshotValue_eq_none.mp found key).symm
  | some read => rw [Option.getD_some, snapshotValue_eq_some found]

theorem Counted.stable (page next : Page K) (same : Same page next) (counted : page.Counted view) :
    next.Counted view :=
  same.1.trans counted

theorem Drawn.stable (page next : Page K) (same : Same page next) (drawn : page.Drawn view) :
    next.Drawn view := by
  rw [Drawn, same.2.1]
  exact drawn

variable {nodeOrder : Dictionary.Order String (NodeRecord Nat K)} {order : EntryOrder K}
  {listener : Listener}

theorem listen_counted (told : page.Counted view ∨ listener = .index) :
    (listen nodeOrder order view listener page).1.Counted view := by
  cases listener with
  | index => rfl
  | node => exact told.resolve_right (by simp)
  | base =>
    rw [listen]
    refine Script.Keeps.left ?_ (told.resolve_right (by simp))
    apply Script.Keeps.andThen
    · exact .modify fun _ counted => counted
    · exact .reading fun _ _ => keeps_of_same Counted.stable fun _ => initMap_same
  | edge =>
    rw [listen]
    refine Script.Keeps.left ?_ (told.resolve_right (by simp))
    apply Script.Keeps.andThen
    · exact .modify fun _ counted => counted
    · apply Script.Keeps.andThen
      · exact .reading fun _ _ => keeps_of_same Counted.stable fun _ => initPaths_same
      · exact .modify fun _ counted => counted

theorem listen_drawn (told : page.Drawn view ∨ listener = .edge) :
    (listen nodeOrder order view listener page).1.Drawn view := by
  cases listener with
  | index => exact told.resolve_right (by simp)
  | node => exact told.resolve_right (by simp)
  | base =>
    rw [listen]
    refine Script.Keeps.left ?_ (told.resolve_right (by simp))
    apply Script.Keeps.andThen
    · refine .modify fun next drawn key => ?_
      cases read : snapshotValue view.edges with
      | none => exact drawn key
      | some edges => rw [Option.some_or, Option.getD_some, snapshotValue_eq_some read]
    · exact .reading fun _ _ => keeps_of_same Drawn.stable fun _ => initMap_same
  | edge =>
    have drawn : Script.Keeps (Drawn view)
        ((Script.reading fun page : Page K => initPaths order view page.edges).andThen
          (.modify fun page => { page with paths := true })) := by
      apply Script.Keeps.andThen
      · exact .reading fun _ _ => keeps_of_same Drawn.stable fun _ => initPaths_same
      · exact .modify fun _ drawn => drawn
    exact drawn.left (lookup_snapshotValue view.edges)

/-- A property of the page that a listener makes true, that none makes false, and that stays
true while what the listener listens to is the same. -/
structure Tells (nodeOrder : Dictionary.Order String (NodeRecord Nat K)) (order : EntryOrder K)
    (listener : Listener) (property : Database K → Page K → Prop) : Prop where
  listen : ∀ view (page : Page K) spoken, property view page ∨ spoken = listener →
    property view (page.listen nodeOrder order view spoken).1
  steady : ∀ view next page, ¬ Changed view next listener → property view page →
    property next page

theorem counted_tells : Tells nodeOrder order .index Counted where
  listen _ _ _ := listen_counted
  steady _ _ _ same counted := counted.trans (not_not.mp same).symm

theorem drawn_tells : Tells nodeOrder order .edge Drawn where
  listen _ _ _ := listen_drawn
  steady _ _ _ same drawn key := by
    rw [drawn key]
    exact (not_not.mp fun differs => same ⟨key, differs⟩).symm

namespace Tells

variable {property : Database K → Page K → Prop} (tells : Tells nodeOrder order listener property)

include tells

theorem listenAll {listeners : List Listener} (told : property view page ∨ listener ∈ listeners) :
    property view (page.listenAll nodeOrder order view listeners) := by
  induction listeners generalizing page with
  | nil => exact told.resolve_right List.not_mem_nil
  | cons spoken rest ih =>
    rw [List.mem_cons] at told
    rcases told with holds | now | later
    · exact ih (.inl (tells.listen view page spoken (.inl holds)))
    · exact ih (.inl (tells.listen view page spoken (.inr now.symm)))
    · exact ih (.inr later)

theorem heard {next : Database K} {listeners : List Listener} (heard : Heard view next listeners)
    (holds : property view page) : property next (page.listenAll nodeOrder order next listeners) := by
  apply tells.listenAll
  by_cases changed : Changed view next listener
  · exact Or.inr (heard listener changed)
  · exact Or.inl (tells.steady view next page changed holds)

/-- The run lemma of the writes of one call. -/
theorem overhear {writes : List (Write K)} {heard : List (List Listener)}
    (answered : Answered view writes heard) (holds : property view page) :
    property (writes.foldl Database.apply view)
      (page.overhear nodeOrder order view writes heard) := by
  induction writes generalizing view page heard with
  | nil => exact holds
  | cons write rest ih => exact ih answered.2 (tells.heard answered.1 holds)

end Tells

end Facts

section Calls

variable [Ring K] [SquareRoot K] {nodeOrder : Dictionary.Order String (NodeRecord Nat K)}
  {order : EntryOrder K} {view : Database K} {page : Page K}

/-- Once told of the index the page knows it, whatever happens: it counts by itself, too. -/
theorem step_counted {event : PageEvent K} {heard : List (List Listener)}
    (answered : Answered view (page.step nodeOrder order view event).2.writes heard)
    (told : page.Counted view ∨ event = .value .index) :
    let stepped := page.step nodeOrder order view event
    (stepped.1.overhear nodeOrder order view stepped.2.writes heard).Counted
      (stepped.2.writes.foldl Database.apply view) := by
  intro stepped
  by_cases spoken : ∃ listener, event = .value listener
  · obtain ⟨listener, rfl⟩ := spoken
    exact listen_counted (told.imp_right PageEvent.value.inj)
  · have counted := told.resolve_right fun index => spoken ⟨_, index⟩
    have calls : Calls order view page stepped :=
      step_calls fun listener same => spoken ⟨listener, same⟩
    change Answered view stepped.2.writes heard at answered
    generalize stepped = after at calls answered ⊢
    cases calls with
    | silent same unwritten =>
      exact counted_tells.overhear answered (Counted.stable page _ same counted)
    | editing operation same =>
      exact counted_tells.overhear answered (Counted.stable page _ same counted)
    | saving desc lat lng =>
      cases known : page.nodeCount with
      | none =>
        simp only [saveNode, copy, known]
        exact known.symm.trans counted
      | some nodeCount =>
        -- The page has counted the node when its number is written.
        simp only [saveNode, copy, known] at answered ⊢
        rw [overhear, List.foldl_cons]
        exact counted_tells.overhear answered.2 (counted_tells.listenAll (.inl rfl))

/-- Once told of the edges the page knows them. -/
theorem step_drawn {event : PageEvent K} {heard : List (List Listener)}
    (answered : Answered view (page.step nodeOrder order view event).2.writes heard)
    (told : page.Drawn view ∨ event = .value .edge) :
    let stepped := page.step nodeOrder order view event
    (stepped.1.overhear nodeOrder order view stepped.2.writes heard).Drawn
      (stepped.2.writes.foldl Database.apply view) := by
  intro stepped
  refine drawn_tells.overhear answered ?_
  by_cases spoken : ∃ listener, event = .value listener
  · obtain ⟨listener, rfl⟩ := spoken
    exact listen_drawn (told.imp_right PageEvent.value.inj)
  · have drawn := told.resolve_right fun edge => spoken ⟨_, edge⟩
    have calls : Calls order view page stepped :=
      step_calls fun listener same => spoken ⟨listener, same⟩
    generalize stepped = after at calls ⊢
    cases calls with
    | silent same unwritten => exact Drawn.stable page _ same drawn
    | saving desc lat lng => exact drawn
    | editing operation same => exact Drawn.stable page _ same drawn

/-- A call that reads the edges in one order reads those of an equal copy in another. -/
theorem exists_order (order : EntryOrder K) {copy view : Database K} (index : copy.index = view.index)
    (nodes : copy.nodes = view.nodes)
    (edges : ∀ key, copy.edges.lookup key = view.edges.lookup key) (operation : Operation K) :
    ∃ other : EntryOrder K, operation.issued order copy = operation.issued other view := by
  obtain ⟨other, same⟩ := Dictionary.Order.exists_arrange view.edges
    ((order.perm copy.edges).trans (Dictionary.values_perm edges))
  have empty : copy.edges.entries = [] ↔ view.edges.entries = [] := by
    simp only [Dictionary.entries_eq_nil, edges]
  refine ⟨other, ?_⟩
  cases operation with
  | saveNode desc lat lng => simp only [Operation.issued, saveNode, index]
  | saveEdge form fromNode toNode index => simp only [Operation.issued, saveEdge, storeEdge, nodes]
  | deleteNode nodeId =>
    simp only [Operation.issued, deleteNode, removeEdges, same, List.isEmpty_iff, empty]
  | deleteEdge edgeFrom edgeTo =>
    simp only [Operation.issued, deleteEdge, removeEdges, same, List.isEmpty_iff, empty]

/-- A page that knows the store makes a call of the editor on it. -/
theorem step_issued {event : PageEvent K} (counted : page.Counted view) (drawn : page.Drawn view) :
    (page.step nodeOrder order view event).2.writes = [] ∨
      ∃ (other : EntryOrder K) (operation : Operation K),
        (page.step nodeOrder order view event).2.writes = (operation.issued other view).writes := by
  by_cases spoken : ∃ listener, event = .value listener
  · obtain ⟨listener, rfl⟩ := spoken
    exact .inl rfl
  · have calls : Calls order view page (page.step nodeOrder order view event) :=
      step_calls fun listener same => spoken ⟨listener, same⟩
    have index : (page.copy view).index = view.index := counted
    generalize page.step nodeOrder order view event = stepped at calls ⊢
    cases calls with
    | silent same unwritten => exact .inl unwritten
    | saving desc lat lng =>
      obtain ⟨other, same⟩ := exists_order order index rfl drawn
        (.saveNode desc (some lat) (some lng))
      exact .inr ⟨other, _, congrArg Issued.writes same⟩
    | editing operation same =>
      obtain ⟨other, same⟩ := exists_order order index rfl drawn operation
      exact .inr ⟨other, operation, congrArg Issued.writes same⟩

/-- Only the buttons write. -/
theorem step_writes {event : PageEvent K}
    (unpressed : ∀ place button, event ≠ .press place button) :
    (page.step nodeOrder order view event).2.writes = [] := by
  cases event with
  | press place button => exact absurd rfl (unpressed place button)
  | _ => rfl

end Calls

end Page

namespace Workshop

section Runs

variable {Client : Type u} {K : Type v}

/-- The moves of the cluster that an event can be: at a page at most one call. -/
inductive Matches :
    WorkshopEvent Client K → List (Move Client (EntryOrder K × Operation K)) → Prop
  | silent {client : Client} {event : PageEvent K} {heard : List (List Listener)} :
    Matches (.page client event heard) []
  | call {client : Client} {event : PageEvent K} {heard : List (List Listener)}
    (call : EntryOrder K × Operation K) : Matches (.page client event heard) [.call client call]
  | arrive {client : Client} : Matches (.arrive client) [.arrive client]
  | deliver {client : Client} {heard : List Listener} :
    Matches (.deliver client heard) [.deliver client]

variable [DecidableEq Client] [Ring K] [SquareRoot K]
  (nodeOrder : Dictionary.Order String (NodeRecord Nat K)) (order : EntryOrder K)

theorem run_snoc (initial : Database K) (events : List (WorkshopEvent Client K))
    (event : WorkshopEvent Client K) :
    run nodeOrder order initial (events ++ [event]) =
      (run nodeOrder order initial events).step nodeOrder order event := by
  simp [run, follow]

/-- The writes of a call, under an order of the edges. -/
def callWrites (view : Database K) (call : EntryOrder K × Operation K) : List (Write K) :=
  (call.2.issued call.1 view).writes

/-- The client library calls the listeners of what a write or a snapshot has changed. -/
def Attends (workshop : Workshop Client K) (client : Client) : WorkshopEvent Client K → Prop
  | .page other event heard => other = client → Page.Answered (workshop.shared.view client)
    ((workshop.page client).step nodeOrder order (workshop.shared.view client) event).2.writes heard
  | .deliver other heard => other = client → Page.Heard (workshop.shared.view client)
    ((send workshop.shared (.deliver client)).view client) heard
  | .arrive _ => True

/-- What the client library does for the page: it has called `indexRef` and `edgeRef` before
a button is pressed, and calls every listener when something has changed for it. -/
structure Served (initial : Database K) (client : Client) (events : List (WorkshopEvent Client K)) :
    Prop where
  loaded : ∀ earlier place button heard later,
    events = earlier ++ .page client (.press place button) heard :: later →
      ∀ listener ∈ [Listener.index, Listener.edge],
        ∃ heard, .page client (.value listener) heard ∈ earlier
  attended : ∀ earlier event later, events = earlier ++ event :: later →
    Attends nodeOrder order (run nodeOrder order initial earlier) client event

variable {nodeOrder order} {initial : Database K} {client : Client}
  {events : List (WorkshopEvent Client K)} {event : WorkshopEvent Client K}

theorem Served.of_concat (served : Served nodeOrder order initial client (events ++ [event])) :
    Served nodeOrder order initial client events where
  loaded earlier place button heard later cut :=
    served.loaded earlier place button heard (later ++ [event]) (by simp [cut])
  attended earlier spoken later cut :=
    served.attended earlier spoken (later ++ [event]) (by simp [cut])

theorem served_nil : Served nodeOrder order initial client [] where
  loaded earlier place button heard later cut := by simp at cut
  attended earlier event later cut := by simp at cut

/-- What a client library did stays done, and only the last event is new. -/
theorem Served.concat (served : Served nodeOrder order initial client events)
    (loaded : ∀ place button heard, event = .page client (.press place button) heard →
      ∀ listener ∈ [Listener.index, Listener.edge],
        ∃ heard, .page client (.value listener) heard ∈ events)
    (attended : Attends nodeOrder order (run nodeOrder order initial events) client event) :
    Served nodeOrder order initial client (events ++ [event]) where
  loaded earlier place button heard later cut := by
    rcases List.eq_nil_or_concat later with rfl | ⟨rest, last, rfl⟩
    · obtain ⟨rfl, same⟩ := List.append_inj' cut rfl
      exact loaded place button heard (List.singleton_inj.mp same)
    · rw [List.concat_eq_append, ← List.cons_append, ← List.append_assoc] at cut
      exact served.loaded earlier place button heard rest (List.append_inj' cut rfl).1
  attended earlier spoken later cut := by
    rcases List.eq_nil_or_concat later with rfl | ⟨rest, last, rfl⟩
    · obtain ⟨rfl, same⟩ := List.append_inj' cut rfl
      cases List.singleton_inj.mp same
      exact attended
    · rw [List.concat_eq_append, ← List.cons_append, ← List.append_assoc] at cut
      exact served.attended earlier spoken rest (List.append_inj' cut rfl).1

/-- What a listener has told the page is true of what the client sees ever after. -/
theorem Served.told (served : Served nodeOrder order initial client events)
    {property : Database K → Page K → Prop} {listener : Listener}
    (tells : Page.Tells nodeOrder order listener property)
    (keeps : ∀ (page : Page K) view event heard,
      let stepped := page.step nodeOrder order view event
      Page.Answered view stepped.2.writes heard → property view page ∨ event = .value listener →
        property (stepped.2.writes.foldl Database.apply view)
          (stepped.1.overhear nodeOrder order view stepped.2.writes heard))
    (called : ∃ heard, .page client (.value listener) heard ∈ events) :
    property ((run nodeOrder order initial events).shared.view client)
      ((run nodeOrder order initial events).page client) := by
  induction events using List.reverseRecOn with
  | nil => simp at called
  | append_singleton events event ih =>
    have told : (∃ heard, event = .page client (.value listener) heard) ∨
        property ((run nodeOrder order initial events).shared.view client)
          ((run nodeOrder order initial events).page client) := by
      obtain ⟨heard, member⟩ := called
      rcases List.mem_append.mp member with before | last
      · exact Or.inr (ih served.of_concat ⟨heard, before⟩)
      · exact Or.inl ⟨heard, (List.mem_singleton.mp last).symm⟩
    have attended := served.attended events event [] rfl
    rw [run_snoc]
    generalize run nodeOrder order initial events = workshop at told attended ⊢
    cases event with
    | page actor event heard =>
      by_cases same : actor = client
      · subst actor
        have called : property (workshop.shared.view client) (workshop.page client) ∨
            event = .value listener := by
          refine told.symm.imp_right ?_
          rintro ⟨_, spoken⟩
          cases spoken
          rfl
        have next := keeps _ _ event heard (attended rfl) called
        simpa [step, send, Cluster.move] using next
      · have holds := told.resolve_left (by simp [same])
        simpa [step, send, Cluster.move, Ne.symm same] using holds
    | arrive actor =>
      have holds := told.resolve_left (by simp)
      simp only [step, send, Cluster.move]
      split <;> exact holds
    | deliver actor heard =>
      have holds := told.resolve_left (by simp)
      by_cases same : actor = client
      · subst actor
        have next := tells.heard (attended rfl) holds
        simpa [step] using next
      · have unseen : (send workshop.shared (.deliver actor)).view client =
            workshop.shared.view client := by
          simp only [send, Cluster.move]
          split
          · rfl
          · exact Function.update_of_ne (Ne.symm same) _ _
        simpa [step, unseen, Ne.symm same] using holds

/-- What a page writes at an event is nothing, or a complete call on what its client sees. -/
theorem Served.writes {spoken : PageEvent K} {heard : List (List Listener)}
    (served : Served nodeOrder order initial client (events ++ [.page client spoken heard])) :
    let workshop := run nodeOrder order initial events
    let view := workshop.shared.view client
    let writes := ((workshop.page client).step nodeOrder order view spoken).2.writes
    writes = [] ∨ ∃ call : EntryOrder K × Operation K, writes = callWrites view call := by
  intro workshop view writes
  by_cases pressed : ∃ place button, spoken = .press place button
  · obtain ⟨place, button, rfl⟩ := pressed
    have loaded := served.loaded events place button heard [] rfl
    have counted := served.of_concat.told Page.counted_tells (fun _ _ _ _ => Page.step_counted)
      (loaded .index (by simp))
    have drawn := served.of_concat.told Page.drawn_tells (fun _ _ _ _ => Page.step_drawn)
      (loaded .edge (by simp))
    rcases Page.step_issued counted drawn with silent | ⟨other, operation, issued⟩
    · exact Or.inl silent
    · exact Or.inr ⟨(other, operation), issued⟩
  · exact Or.inl (Page.step_writes fun place button same => pressed ⟨place, button, same⟩)

section Check

/-- The client calls the listener by itself. -/
def hears (client : Client) (listener : Listener) : WorkshopEvent Client K → Bool
  | .page other (.value spoken) _ => decide (other = client ∧ spoken = listener)
  | _ => false

/-- An event after `done` at which `baseRef` is called after each write, and all listeners
after a snapshot. -/
def attends (nodeOrder : Dictionary.Order String (NodeRecord Nat K)) (order : EntryOrder K)
    (client : Client) (workshop : Workshop Client K) (done : List (WorkshopEvent Client K)) :
    WorkshopEvent Client K → Bool
  | .page other (.press place button) heard => decide (other ≠ client) ||
    done.any (hears client .index) && done.any (hears client .edge) &&
      Page.answers ((workshop.page client).step nodeOrder order (workshop.shared.view client)
        (.press place button)).2.writes heard
  | .deliver other heard => decide (other ≠ client ∨ ∀ listener ∈ Page.everyone, listener ∈ heard)
  | _ => true

/-- `Served`, checked along the run. -/
def serves (nodeOrder : Dictionary.Order String (NodeRecord Nat K)) (order : EntryOrder K)
    (client : Client) :
    Workshop Client K → List (WorkshopEvent Client K) → List (WorkshopEvent Client K) → Bool
  | _, _, [] => true
  | workshop, done, event :: rest =>
    attends nodeOrder order client workshop done event &&
      serves nodeOrder order client (workshop.step nodeOrder order event) (done ++ [event]) rest

omit [Ring K] [SquareRoot K] in
theorem exists_of_hears {listener : Listener} (called : events.any (hears client listener) = true) :
    ∃ heard, .page client (.value listener) heard ∈ events := by
  obtain ⟨event, member, own⟩ := List.any_eq_true.mp called
  unfold hears at own
  split at own
  · obtain ⟨rfl, rfl⟩ := of_decide_eq_true own
    exact ⟨_, member⟩
  · cases own

theorem Served.concat_of_attends (served : Served nodeOrder order initial client events)
    (checked : attends nodeOrder order client (run nodeOrder order initial events) events event =
      true) :
    Served nodeOrder order initial client (events ++ [event]) := by
  cases event with
  | arrive other => exact served.concat (by simp) trivial
  | deliver other heard =>
    refine served.concat (by simp) fun same listener _ => ?_
    have all := (of_decide_eq_true checked).resolve_left (not_not.mpr same)
    exact all listener (Page.mem_everyone listener)
  | page other spoken heard =>
    by_cases pressed : ∃ place button, spoken = .press place button
    · obtain ⟨place, button, rfl⟩ := pressed
      rcases Bool.or_eq_true_iff.mp checked with onlooker | checks
      · have apart := of_decide_eq_true onlooker
        exact served.concat (fun _ _ _ same => absurd (WorkshopEvent.page.inj same).1 apart)
          fun same => absurd same apart
      · obtain ⟨both, answered⟩ := Bool.and_eq_true_iff.mp checks
        obtain ⟨index, edge⟩ := Bool.and_eq_true_iff.mp both
        refine served.concat (fun _ _ _ _ listener listed => ?_) ?_
        · rcases List.mem_pair.mp listed with rfl | rfl
          · exact exists_of_hears index
          · exact exists_of_hears edge
        · rintro rfl
          exact Page.answered_of_answers answered
    · have unpressed := fun place button same => pressed ⟨place, button, same⟩
      refine served.concat (fun place button _ same => ?_) ?_
      · exact absurd (WorkshopEvent.page.inj same).2.1 (unpressed place button)
      · rintro rfl
        rw [Page.step_writes unpressed]
        trivial

theorem Served.append_of_serves {more : List (WorkshopEvent Client K)}
    (served : Served nodeOrder order initial client events)
    (checked : serves nodeOrder order client (run nodeOrder order initial events) events more =
      true) :
    Served nodeOrder order initial client (events ++ more) := by
  induction more generalizing events with
  | nil => simpa using served
  | cons event rest ih =>
    obtain ⟨now, later⟩ := Bool.and_eq_true_iff.mp checked
    rw [← run_snoc] at later
    rw [← List.singleton_append, ← List.append_assoc]
    exact ih (served.concat_of_attends now) later

theorem served_of_serves (checked : serves nodeOrder order client (start initial) [] events = true) :
    Served nodeOrder order initial client events :=
  Served.append_of_serves served_nil checked

end Check

variable (nodeOrder order)

/-- The step lemma. -/
theorem step_refines (served : ∀ client, Served nodeOrder order initial client (events ++ [event])) :
    let workshop := run nodeOrder order initial events
    ∃ moves, Matches event moves ∧ (workshop.step nodeOrder order event).shared =
      moves.foldl (Cluster.move Database.apply callWrites) workshop.shared := by
  intro workshop
  cases event with
  | page client event heard =>
    rcases (served client).writes with silent | ⟨call, issued⟩
    · refine ⟨[], .silent, ?_⟩
      simp only [step, send, Cluster.move]
      rw [silent]
      simp [workshop]
    · refine ⟨[.call client call], .call call, ?_⟩
      simp only [step, send, Cluster.move, List.foldl_cons, List.foldl_nil]
      rw [issued]
  | arrive client => exact ⟨[.arrive client], .arrive, rfl⟩
  | deliver client heard => exact ⟨[.deliver client], .deliver, rfl⟩

/-- The pages refine the cluster of the editor's calls: while the client libraries serve
them, whatever is clicked and in whatever order writes and snapshots come, the store and
what the clients see are those of a run in which the clients make complete calls, each on
what it sees. -/
theorem run_refines (initial : Database K) (events : List (WorkshopEvent Client K))
    (served : ∀ client, Served nodeOrder order initial client events) :
    ∃ moves, List.Forall₂ Matches events moves ∧ (run nodeOrder order initial events).shared =
      moves.flatten.foldl (Cluster.move Database.apply callWrites)
        (Cluster.start initial fun _ => initial) := by
  induction events using List.reverseRecOn with
  | nil => exact ⟨[], .nil, rfl⟩
  | append_singleton events event ih =>
    obtain ⟨moves, matched, reached⟩ := ih fun client => (served client).of_concat
    obtain ⟨next, one, stepped⟩ := step_refines nodeOrder order served
    refine ⟨moves ++ [next], List.rel_append matched (.cons one .nil), ?_⟩
    rw [run_snoc, stepped, reached, List.flatten_concat, List.foldl_append]

end Runs

section Sole

variable {Client : Type u} {K : Type v}

/-- Only the client presses buttons. -/
def Sole (client : Client) (events : List (WorkshopEvent Client K)) : Prop :=
  ∀ other place button heard, .page other (.press place button) heard ∈ events → other = client

theorem Sole.of_append {client : Client} {events more : List (WorkshopEvent Client K)}
    (sole : Sole client (events ++ more)) : Sole client events :=
  fun other place button heard member =>
    sole other place button heard (List.mem_append_left _ member)

variable [DecidableEq Client]

section Writes

variable [Ring K] [SquareRoot K] {nodeOrder : Dictionary.Order String (NodeRecord Nat K)}
  {order : EntryOrder K} {initial : Database K} {client : Client}
  {events : List (WorkshopEvent Client K)} {event : WorkshopEvent Client K}

/-- What an event makes the client write. -/
def writesOf (nodeOrder : Dictionary.Order String (NodeRecord Nat K)) (order : EntryOrder K)
    (workshop : Workshop Client K) (client : Client) : WorkshopEvent Client K → List (Write K)
  | .page other event _ =>
    if other = client then
      ((workshop.page client).step nodeOrder order (workshop.shared.view client) event).2.writes
    else []
  | _ => []

theorem issued_step (workshop : Workshop Client K) :
    (workshop.step nodeOrder order event).shared.issued client =
      workshop.shared.issued client ++ writesOf nodeOrder order workshop client event := by
  cases event with
  | page other event heard =>
    by_cases same : other = client
    · subst other
      simp [step, send, Cluster.move, writesOf]
    · simp [step, send, Cluster.move, writesOf, same, Ne.symm same]
  | arrive other =>
    simp only [step, send, Cluster.move, writesOf, List.append_nil]
    split <;> rfl
  | deliver other heard =>
    simp only [step, send, Cluster.move, writesOf, List.append_nil]
    split <;> rfl

theorem Sole.issued (sole : Sole client events) {other : Client} (onlooker : other ≠ client) :
    (run nodeOrder order initial events).shared.issued other = [] := by
  induction events using List.reverseRecOn with
  | nil => rfl
  | append_singleton events event ih =>
    rw [run_snoc, issued_step, ih sole.of_append, List.nil_append]
    cases event with
    | page actor event heard =>
      by_cases same : actor = other
      · subst actor
        rw [writesOf, if_pos rfl]
        refine Page.step_writes fun place button pressed => onlooker ?_
        exact sole other place button heard (by simp [pressed])
      · rw [writesOf, if_neg same]
    | arrive actor => rfl
    | deliver actor heard => rfl

/-- The client sees all that it has written, and nothing else. -/
theorem Sole.view (sole : Sole client events) :
    (run nodeOrder order initial events).shared.view client =
      ((run nodeOrder order initial events).shared.issued client).foldl Database.apply initial := by
  obtain ⟨history, seen, recorded⟩ := run_recorded nodeOrder order initial events
  exact recorded.view_of_sole fun other onlooker => sole.issued onlooker

/-- When everything has arrived, the store is what the client sees. -/
theorem Sole.store (sole : Sole client events)
    (arrived : (run nodeOrder order initial events).shared.inFlight client = []) :
    (run nodeOrder order initial events).shared.store =
      (run nodeOrder order initial events).shared.view client := by
  obtain ⟨history, seen, recorded⟩ := run_recorded nodeOrder order initial events
  have all := List.drop_eq_nil_iff.mp arrived
  rw [sole.view]
  refine (recorded.store_of_sole fun other onlooker => sole.issued onlooker).trans ?_
  exact congrArg (List.foldl Database.apply initial) (List.take_of_length_le all)

/-- Each event of the client is nothing or a complete call on what it sees. -/
theorem Sole.view_step (sole : Sole client (events ++ [event]))
    (served : Served nodeOrder order initial client (events ++ [event])) :
    let view := (run nodeOrder order initial events).shared.view client
    let next := (run nodeOrder order initial (events ++ [event])).shared.view client
    next = view ∨ ∃ call : EntryOrder K × Operation K, next = view.complete call.1 call.2 := by
  intro view next
  have written : next = (writesOf nodeOrder order (run nodeOrder order initial events) client
      event).foldl Database.apply view := by
    simp only [next, view]
    rw [sole.view, sole.of_append.view, run_snoc, issued_step, List.foldl_append]
  rw [written]
  cases event with
  | page actor spoken heard =>
    by_cases same : actor = client
    · subst actor
      rw [writesOf, if_pos rfl]
      rcases served.writes with silent | ⟨call, issued⟩
      · exact Or.inl (by rw [silent]; rfl)
      · exact Or.inr ⟨call, by rw [issued]; rfl⟩
    · exact Or.inl (by rw [writesOf, if_neg same]; rfl)
  | arrive actor => exact Or.inl rfl
  | deliver actor heard => exact Or.inl rfl

end Writes

variable [CommRing K] [SquareRoot K] (nodeOrder : Dictionary.Order String (NodeRecord Nat K))
  (order : EntryOrder K)

/-- The run lemma: the edits of the client are complete calls. -/
theorem exists_calls {initial : Database K} {client : Client}
    {events : List (WorkshopEvent Client K)} (sole : Sole client events)
    (served : Served nodeOrder order initial client events) :
    ∃ calls : List (EntryOrder K × Operation K),
      let view := (run nodeOrder order initial events).shared.view client
      view = calls.foldl (fun store call => store.complete call.1 call.2) initial ∧
        (initial.WellFormed → view.WellFormed) := by
  induction events using List.reverseRecOn with
  | nil => exact ⟨[], rfl, id⟩
  | append_singleton events event ih =>
    obtain ⟨calls, reached, formed⟩ := ih sole.of_append served.of_concat
    rcases sole.view_step served with same | ⟨call, next⟩
    · rw [same]
      exact ⟨calls, reached, formed⟩
    · rw [next]
      refine ⟨calls ++ [call], ?_, fun first => (formed first).complete call.1 call.2⟩
      rw [List.foldl_concat, ← reached]

/-- While one page edits and the others only look on, and its client library serves it: it
sees the store after complete calls of the editor on the first one, so it sees a well
formed store; and when all its writes have arrived, that is the store. -/
theorem run_sole (initial : Database K) (client : Client) (events : List (WorkshopEvent Client K))
    (sole : Sole client events) (served : Served nodeOrder order initial client events) :
    let workshop := run nodeOrder order initial events
    (∃ calls : List (EntryOrder K × Operation K), workshop.shared.view client =
      calls.foldl (fun store call => store.complete call.1 call.2) initial) ∧
    (initial.WellFormed → (workshop.shared.view client).WellFormed) ∧
    (workshop.shared.inFlight client = [] →
      workshop.shared.store = workshop.shared.view client) := by
  intro workshop
  obtain ⟨calls, reached, formed⟩ := exists_calls nodeOrder order sole served
  exact ⟨⟨calls, reached⟩, formed, sole.store⟩

end Sole

section Examples

def loads (client : Bool) : List (WorkshopEvent Bool ℚ) :=
  [.page client (.value .index) [], .page client (.value .edge) [], .page client (.value .base) []]

/-- The window of the first node is opened and its edge removed, while another looks on. -/
def tidyUp : List (WorkshopEvent Bool ℚ) :=
  loads true ++ [.page false (.value .base) [], .page true (.click 0) [],
    .page true (.press (.infoWindow 0) (.remove 1)) [[.edge, .base], [.edge, .base]], .arrive true]

/-- One client removes an edge while the other adds a node. -/
def crossing : List (WorkshopEvent Bool ℚ) :=
  loads true ++ loads false ++ [.page true (.click 0) [], .page false (.dblclick 1 0) [],
    .page true (.press (.infoWindow 0) (.remove 1)) [[.edge, .base], [.edge, .base]],
    .page false (.press (.loose 0) (.saveNode "Annex")) [Page.everyone, Page.everyone],
    .arrive true, .arrive false, .deliver false Page.everyone, .arrive true, .arrive false,
    .deliver true Page.everyone]

theorem run_refines_crossing :
    (∀ client, ((run .asStored .asStored joined crossing).shared.issued client).length = 2) ∧
      ∃ moves, List.Forall₂ Matches crossing moves ∧
        (run .asStored .asStored joined crossing).shared =
          moves.flatten.foldl (Cluster.move Database.apply callWrites)
            (Cluster.start joined fun _ => joined) :=
  ⟨by decide +kernel, run_refines .asStored .asStored joined crossing fun client =>
    served_of_serves (by cases client <;> decide +kernel)⟩

theorem run_sole_tidyUp :
    ((run .asStored .asStored joined tidyUp).shared.issued true).length = 2 ∧
      ((run .asStored .asStored joined tidyUp).shared.view true).WellFormed := by
  refine ⟨by decide +kernel, (run_sole .asStored .asStored joined true tidyUp ?_
    (served_of_serves (by decide +kernel))).2.1 ?_⟩
  · intro other place button heard member
    simp [tidyUp, loads] at member
    exact member.1
  · exact unjoined_wellFormed.complete .asStored _

end Examples

end Workshop

end AugmentedCampus
