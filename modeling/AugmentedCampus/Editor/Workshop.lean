import AugmentedCampus.Editor.Rendering
import AugmentedCampus.Foundation.History

/-! Several pages on one store. What a page writes is seen by its own client at once, by
the store and the other clients later. `heard` has the listeners that a client calls after
a snapshot, or after each write of a call. -/
namespace AugmentedCampus

open Foundation

universe u v

structure Workshop (Client : Type u) (K : Type v) where
  shared : Cluster Client (Database K) (Write K)
  page : Client → Page K

inductive WorkshopEvent (Client : Type u) (K : Type v) where
  | page (client : Client) (event : PageEvent K) (heard : List (List Listener))
  | arrive (client : Client)
  | deliver (client : Client) (heard : List Listener)
  deriving DecidableEq

namespace Workshop

variable {Client : Type u} {K : Type v} [DecidableEq Client]

/-- The pages have just been loaded. -/
def start (store : Database K) : Workshop Client K :=
  ⟨Cluster.start store fun _ => store, fun _ => Page.initial⟩

def send (shared : Cluster Client (Database K) (Write K)) (event : Move Client (List (Write K))) :
    Cluster Client (Database K) (Write K) :=
  shared.move Database.apply (fun _ writes => writes) event

theorem recorded_send {initial : Database K} {history : List (Client × Write K)}
    {seen : Client → Nat} {shared : Cluster Client (Database K) (Write K)}
    (recorded : Cluster.Recorded Database.apply initial history seen shared)
    (event : Move Client (List (Write K))) :
    ∃ more later, (∀ client, seen client ≤ later client) ∧
      Cluster.Recorded Database.apply initial (history ++ more) later (send shared event) :=
  recorded.move event

variable (nodeOrder : Dictionary.Order String (NodeRecord Nat K)) (order : EntryOrder K)

section Sleep

variable {store : Database K} {page : Page K}

/-- A page of a store without nodes or without edges. -/
structure Asleep (store : Database K) (page : Page K) : Prop where
  nodes : page.nodes = none ∨ page.nodes = snapshotValue store.nodes
  edges : page.edges = none ∨ page.edges = snapshotValue store.edges
  markers : page.markers = []
  infoWindows : page.infoWindows = []
  loose : page.loose = []
  dblclick : page.dblclick = false

theorem asleep_initial : Asleep store (Page.initial : Page K) :=
  ⟨.inl rfl, .inl rfl, rfl, rfl, rfl, rfl⟩

theorem Asleep.window (asleep : Asleep store page) (place : Place) : page.window place = none := by
  cases place with
  | infoWindow index => simp [Page.window, asleep.infoWindows]
  | marker index => simp [Page.window, asleep.markers]
  | loose position => simp [Page.window, asleep.loose]

theorem Asleep.newMap (asleep : Asleep store page) : Asleep store page.newMap :=
  ⟨asleep.nodes, asleep.edges, by simp [Page.newMap, asleep.markers],
    by simp [Page.newMap, asleep.infoWindows], rfl, rfl⟩

theorem initPaths_asleep (edges : Option (Dictionary String (EdgeRecord Nat K))) :
    Script.Keeps (Asleep store) (Page.initPaths order store edges) := by
  cases edges with
  | none => exact .throw
  | some edges =>
    refine .forEach fun value _ page asleep => ?_
    unfold Page.addLine
    cases store.nodes.lookup (nodeKey value.fromNode) with
    | none => exact asleep
    | some fNode =>
      cases store.nodes.lookup (nodeKey value.toNode) with
      | none => exact asleep
      | some tNode => exact { asleep with }

variable (blank : store.nodes.entries = [] ∨ store.edges.entries = [])

include blank

theorem Asleep.unknown (asleep : Asleep store page) :
    page.mappedNodes store = none ∨ page.mappedEdges store = none := by
  rcases blank with empty | empty
  · left
    rcases asleep.nodes with known | known <;>
      simp [Page.mappedNodes, known, snapshotValue, empty]
  · right
    rcases asleep.edges with known | known <;>
      simp [Page.mappedEdges, known, snapshotValue, empty]

theorem listen_asleep (listener : Listener) :
    Script.Keeps (Asleep store) (Page.listen nodeOrder order store listener) := by
  cases listener with
  | base =>
    intro page asleep
    have told : Asleep store (page.informed store) := by
      refine { asleep with nodes := ?_, edges := ?_ }
      · rcases asleep.nodes with known | known <;> simp [Page.informed, Page.mappedNodes, known]
      · rcases asleep.edges with known | known <;> simp [Page.informed, Page.mappedEdges, known]
    have filled : ∀ nodes ∈ page.mappedNodes store, nodes.entries ≠ [] := by
      intro nodes read
      rcases Option.or_eq_some_iff.mp read with fresh | ⟨_, old⟩
      · exact Page.snapshotValue_filled fresh
      · rcases asleep.nodes with known | known
        · cases known.symm.trans old
        · exact Page.snapshotValue_filled (known.symm.trans old)
    have mapped : Page.listen nodeOrder order store .base page =
        ((page.informed store).newMap, some .typeError) :=
      Page.initMap_blank filled (asleep.unknown blank) (page.informed store)
    rw [mapped]
    exact told.newMap
  | index => exact .modify fun page asleep => { asleep with }
  | node => exact .modify fun page asleep => { asleep with nodes := .inr rfl }
  | edge =>
    rw [Page.listen]
    apply Script.Keeps.andThen
    · exact .modify fun page asleep => { asleep with edges := .inr rfl }
    · apply Script.Keeps.andThen
      · exact .reading fun _ _ => initPaths_asleep order _
      · exact .modify fun page asleep => { asleep with }

theorem listenAll_asleep (listeners : List Listener) (asleep : Asleep store page) :
    Asleep store (page.listenAll nodeOrder order store listeners) := by
  induction listeners generalizing page with
  | nil => exact asleep
  | cons listener rest ih => exact ih ((listen_asleep nodeOrder order blank listener).left asleep)

end Sleep

variable [Ring K] [SquareRoot K]

def step (workshop : Workshop Client K) : WorkshopEvent Client K → Workshop Client K
  | .page client event heard =>
    let view := workshop.shared.view client
    let (page, issued) := (workshop.page client).step nodeOrder order view event
    ⟨send workshop.shared (.call client issued.writes),
      Function.update workshop.page client
        (page.overhear nodeOrder order view issued.writes heard)⟩
  | .arrive client => { workshop with shared := send workshop.shared (.arrive client) }
  | .deliver client heard =>
    let shared := send workshop.shared (.deliver client)
    ⟨shared, Function.update workshop.page client
      ((workshop.page client).listenAll nodeOrder order (shared.view client) heard)⟩

def follow (workshop : Workshop Client K) (events : List (WorkshopEvent Client K)) :
    Workshop Client K :=
  events.foldl (step nodeOrder order) workshop

def run (store : Database K) (events : List (WorkshopEvent Client K)) : Workshop Client K :=
  (start store).follow nodeOrder order events

section History

variable {initial : Database K} {history : List (Client × Write K)} {seen : Client → Nat}
  {workshop : Workshop Client K}

/-- The step lemma: whatever happens at a page is a move of its client. -/
theorem recorded_step
    (recorded : Cluster.Recorded Database.apply initial history seen workshop.shared)
    (event : WorkshopEvent Client K) :
    ∃ more later, (∀ client, seen client ≤ later client) ∧
      Cluster.Recorded Database.apply initial (history ++ more) later
        (workshop.step nodeOrder order event).shared := by
  cases event with
  | page client event heard => exact recorded_send recorded (.call client _)
  | arrive client => exact recorded_send recorded (.arrive client)
  | deliver client heard => exact recorded_send recorded (.deliver client)

theorem recorded_follow (events : List (WorkshopEvent Client K))
    (recorded : Cluster.Recorded Database.apply initial history seen workshop.shared) :
    ∃ more later, (∀ client, seen client ≤ later client) ∧
      Cluster.Recorded Database.apply initial (history ++ more) later
        (workshop.follow nodeOrder order events).shared := by
  induction events generalizing workshop history seen with
  | nil => exact ⟨[], seen, fun _ => Nat.le_refl _, by simpa [follow] using recorded⟩
  | cons event rest ih =>
    obtain ⟨more, later, onward, next⟩ := recorded_step nodeOrder order recorded event
    obtain ⟨most, last, further, reached⟩ := ih next
    refine ⟨more ++ most, last, fun client => Nat.le_trans (onward client) (further client), ?_⟩
    rw [← List.append_assoc]
    exact reached

theorem run_recorded (initial : Database K) (events : List (WorkshopEvent Client K)) :
    ∃ history seen, Cluster.Recorded Database.apply initial history seen
      (run nodeOrder order initial events).shared := by
  have first : Cluster.Recorded Database.apply initial [] (fun _ => 0)
      (start initial : Workshop Client K).shared := Cluster.recorded_start initial
  obtain ⟨history, seen, _, recorded⟩ := recorded_follow nodeOrder order events first
  exact ⟨history, seen, recorded⟩

/-- With nodes and edges stored, `baseRef` puts what the client has of the store on the map. -/
theorem shows_view {page : Page K} {view : Database K} (located : view.nodes.entries ≠ [])
    (connected : view.edges.entries ≠ []) :
    (page.step nodeOrder order view (.value .base)).1.Shows nodeOrder order view.nodes
      view.edges := by
  have nodes : page.mappedNodes view = some view.nodes := by
    simp [Page.mappedNodes, snapshotValue, located]
  have edges : page.mappedEdges view = some view.edges := by
    simp [Page.mappedEdges, snapshotValue, connected]
  have shows : Page.Shows nodeOrder order view.nodes view.edges
      ((page.informed view).mapped nodeOrder order view.nodes view.edges) := Page.mapped_shows
  rw [Page.step_base_mapped nodeOrder order nodes edges]
  exact ⟨shows.onMap, shows.marker, shows.detail⟩

end History

section Idle

variable {store : Database K} {page : Page K} {workshop : Workshop Client K}

section Blank

variable (blank : store.nodes.entries = [] ∨ store.edges.entries = [])

include blank

/-- A sleeping page neither wakes up nor writes. -/
theorem Asleep.step (asleep : Asleep store page) (event : PageEvent K) :
    Asleep store (page.step nodeOrder order store event).1 ∧
      (page.step nodeOrder order store event).2.writes = [] := by
  cases event with
  | value listener => exact ⟨(listen_asleep nodeOrder order blank listener).left asleep, rfl⟩
  | click index => simpa [Page.step, Page.click, asleep.markers] using asleep
  | dblclick lat lng => simpa [Page.step, asleep.dblclick] using asleep
  | press place button => simpa [Page.step, asleep.window place] using asleep
  | dismiss place =>
    refine ⟨?_, rfl⟩
    cases place with
    | infoWindow index =>
      simpa [Page.step, Page.dismiss, Page.closeInfoWindow, asleep.infoWindows] using asleep
    | marker index =>
      simpa [Page.step, Page.dismiss, Page.closeMarkerWindow, asleep.markers] using asleep
    | loose position =>
      exact { asleep with loose := by simp [Page.step, Page.dismiss, asleep.loose] }

/-- Nothing has been written, and nothing is on the way. -/
structure Idle (store : Database K) (workshop : Workshop Client K) : Prop where
  shared : workshop.shared = Cluster.start store fun _ => store
  page : ∀ client, Asleep store (workshop.page client)

theorem Idle.step (idle : Idle store workshop) (event : WorkshopEvent Client K) :
    Idle store (workshop.step nodeOrder order event) := by
  cases event with
  | page client event heard =>
    obtain ⟨asleep, silent⟩ := (idle.page client).step nodeOrder order blank event
    have view : workshop.shared.view client = store := by rw [idle.shared, Cluster.start]
    simp only [Workshop.step, view, silent, Page.overhear]
    refine ⟨?_, fun other => ?_⟩
    · rw [idle.shared]
      simp [send, Cluster.move, Cluster.start]
    · by_cases same : other = client
      · subst other
        simpa using asleep
      · simpa [same] using idle.page other
  | arrive client =>
    refine ⟨?_, idle.page⟩
    simp [Workshop.step, send, Cluster.move, Cluster.inFlight, idle.shared, Cluster.start]
  | deliver client heard =>
    have nothing : send workshop.shared (.deliver client) = Cluster.start store fun _ => store := by
      simp [send, Cluster.move, idle.shared, Cluster.start]
    simp only [Workshop.step, nothing]
    refine ⟨rfl, fun other => ?_⟩
    by_cases same : other = client
    · subst other
      simpa [Cluster.start] using listenAll_asleep nodeOrder order blank heard (idle.page client)
    · simpa [same] using idle.page other

theorem Idle.follow (idle : Idle store workshop) (events : List (WorkshopEvent Client K)) :
    Idle store (workshop.follow nodeOrder order events) := by
  induction events generalizing workshop with
  | nil => exact idle
  | cons event rest ih => exact ih (idle.step nodeOrder order blank event)

end Blank

theorem step_silent {client : Client} {event : PageEvent K} {heard : List (List Listener)}
    (silent : ((workshop.page client).step nodeOrder order (workshop.shared.view client)
      event).2.writes = []) :
    workshop.step nodeOrder order (.page client event heard) =
      ⟨workshop.shared, Function.update workshop.page client
        ((workshop.page client).step nodeOrder order (workshop.shared.view client) event).1⟩ := by
  simp [step, send, Cluster.move, silent, Page.overhear]

/-- With nodes and edges stored, a page that has just been loaded can be clicked twice. -/
theorem awake (located : store.nodes.entries ≠ []) (connected : store.edges.entries ≠ []) :
    let page := (Page.initial.step nodeOrder order store (.value .base)).1
    page.dblclick = true ∧ page.loose = [] ∧ page.nodeCount = some 0 := by
  have nodes : Page.initial.mappedNodes store = some store.nodes := by
    simp [Page.mappedNodes, snapshotValue, located]
  have edges : Page.initial.mappedEdges store = some store.edges := by
    simp [Page.mappedEdges, snapshotValue, connected]
  rw [Page.step_base_mapped nodeOrder order nodes edges]
  exact ⟨rfl, rfl, rfl⟩

/-- The map of a client that has loaded it is clicked twice, and a node is saved there. -/
theorem first_node (located : store.nodes.entries ≠ []) (connected : store.edges.entries ≠ [])
    (client : Client) :
    (run nodeOrder order store [.page client (.value .base) [], .page client (.dblclick 0 0) [],
      .page client (.press (.loose 0) (.saveNode "")) []]).shared.issued client ≠ [] := by
  obtain ⟨dblclick, loose, nodeCount⟩ := awake nodeOrder order located connected
  have heard : step nodeOrder order (start store) (.page client (.value .base) []) = _ :=
    step_silent nodeOrder order rfl
  simp only [run, follow, List.foldl_cons, List.foldl_nil, heard]
  simp only [start, Cluster.start]
  generalize (Page.initial.step nodeOrder order store (.value .base)).1 = page at *
  simp [step, Page.step, dblclick, Page.window, loose, Page.press, Page.copy, nodeCount, saveNode,
    send, Cluster.move, Page.overhear]

/-- A store with both a node and an edge can be edited by every client. One without any
nodes or without any edges stays as it is in every run: no page ever writes to it. -/
theorem run_starts_iff (store : Database K) (client : Client) :
    (∃ events, (run nodeOrder order store events).shared.issued client ≠ []) ↔
      store.nodes.entries ≠ [] ∧ store.edges.entries ≠ [] := by
  constructor
  · rintro ⟨events, wrote⟩
    by_contra blank
    have started : Idle store (start store : Workshop Client K) := ⟨rfl, fun _ => asleep_initial⟩
    have idle := started.follow nodeOrder order (by tauto) events
    exact wrote (by rw [run, idle.shared]; rfl)
  · rintro ⟨located, connected⟩
    exact ⟨_, first_node nodeOrder order located connected client⟩

end Idle

end Workshop

end AugmentedCampus
