import AugmentedCampus.Campus.StoredRoute
import AugmentedCampus.Editor.Session
import Mathlib.Data.List.TakeWhile

/-! The map of the editor and the routes of the app: the lines lead from one marker to
another just where the app does. -/
namespace AugmentedCampus

open Foundation

universe u v

variable {K : Type v}

def NavigationLocation.position (location : NavigationLocation Int K) : K × K :=
  (location.latitude, location.longitude)

/-- Where the stored node of an id is. -/
def Database.position [Zero K] (store : Database K) (id : Nat) : K × K :=
  match store.nodes.lookup (nodeKey id) with
  | some node => (node.latitude, node.longitude)
  | none => (0, 0)

namespace Page

/-- There is a line from one place to the other. -/
def Draws (page : Page K) (place next : K × K) : Prop :=
  ∃ line ∈ page.lines, line.path = (place, next)

/-- The lines lead from one place to the other. -/
def Leads (page : Page K) (place next : K × K) : Prop :=
  Relation.ReflTransGen page.Draws place next

end Page

namespace Database

variable {store : Database K}

theorem HasNode.position [Zero K] {node : NodeRecord Nat K} (found : store.HasNode node) :
    store.position node.id = (node.latitude, node.longitude) := by
  rw [HasNode] at found
  simp only [Database.position, found]

/-- With no two nodes at the same coordinates a node is known by its place. -/
theorem Spread.position_injective [Zero K] (spread : store.Spread) (keyed : store.Keyed) {i j : Nat}
    (one : store.Stores i) (other : store.Stores j) (same : store.position i = store.position j) :
    i = j := by
  obtain ⟨first, found, rfl⟩ := keyed.stores_iff_hasNode.mp one
  obtain ⟨second, present, rfl⟩ := keyed.stores_iff_hasNode.mp other
  rw [found.position, present.position, Prod.mk.injEq] at same
  exact spread first second found present same.1 same.2

section Maps

variable [Ring K] [SquareRoot K] (formed : store.WellFormed)

include formed

/-- Every stored edge can be drawn. -/
theorem WellFormed.line {edge : EdgeRecord Nat K} (stored : store.HasEdge edge) :
    ∃ line, Page.line store edge = some line ∧
      line.path = (store.position edge.fromNode, store.position edge.toNode) := by
  obtain ⟨leaves, enters⟩ := formed.safe.resolvable edge stored
  obtain ⟨fNode, found⟩ := formed.keyed.stores_iff.mp leaves
  obtain ⟨tNode, present⟩ := formed.keyed.stores_iff.mp enters
  simp only [Page.line, Database.position, found, present]
  exact ⟨_, rfl, rfl⟩

/-- What `baseRef` leaves on a map of a page that has heard of the edges. -/
structure Mapped (store : Database K) (map : Page K) : Prop where
  marked : ∀ id, store.Stores id → ∃ marker ∈ map.markers.take map.onMap,
    marker.value.id = id ∧ marker.position = store.position id
  draws : ∀ place next, map.Draws place next ↔
    ∃ i j, store.Joined i j ∧ store.position i = place ∧ store.position j = next

theorem WellFormed.mapped (connected : store.edges.entries ≠ [])
    (nodeOrder : Dictionary.Order String (NodeRecord Nat K)) (order : EntryOrder K)
    {page : Page K} (paths : page.paths = true) :
    store.Mapped (page.step nodeOrder order store (.value .base)).1 := by
  have located := formed.safe.located connected
  have nodes : page.mappedNodes store = some store.nodes := by
    simp [Page.mappedNodes, snapshotValue, located]
  have edges : page.mappedEdges store = some store.edges := by
    simp [Page.mappedEdges, snapshotValue, connected]
  have shows : (page.step nodeOrder order store (.value .base)).1.Shows nodeOrder order store.nodes
      store.edges := Workshop.shows_view nodeOrder order located connected
  have all : (order.arrange store.edges).takeWhile (fun value => (Page.line store value).isSome) =
      order.arrange store.edges := by
    refine List.takeWhile_eq_self_iff.mpr fun edge listed => ?_
    obtain ⟨line, drawn, _⟩ := formed.line (order.mem_arrange.mp listed)
    rw [drawn]
    rfl
  have lines : (page.step nodeOrder order store (.value .base)).1.lines =
      (order.arrange store.edges).filterMap (Page.line store) := by
    rw [Page.step_base_mapped nodeOrder order nodes edges]
    simp only [paths, if_true, all]
  refine ⟨fun id stored => ?_, fun place next => ?_⟩
  · obtain ⟨node, found, rfl⟩ := formed.keyed.stores_iff_hasNode.mp stored
    have listed : node ∈ nodeOrder.arrange store.nodes := nodeOrder.mem_arrange.mpr ⟨_, found⟩
    obtain ⟨index, inside, rfl⟩ := List.getElem_of_mem listed
    have on : index < (page.step nodeOrder order store (.value .base)).1.onMap := by
      rw [shows.onMap]
      exact inside
    have marker := shows.marker index _ (List.getElem?_eq_getElem inside)
    rw [← List.getElem?_take_of_lt on] at marker
    exact ⟨_, List.mem_of_getElem? marker, rfl, found.position.symm⟩
  · simp only [Page.Draws, lines, List.mem_filterMap, order.mem_arrange]
    constructor
    · rintro ⟨line, ⟨edge, stored, drawn⟩, path⟩
      obtain ⟨same, known, ends⟩ := formed.line stored
      obtain rfl := Option.some.inj (drawn.symm.trans known)
      obtain ⟨rfl, rfl⟩ := Prod.mk.inj (path.symm.trans ends)
      exact ⟨_, _, ⟨edge, stored, rfl, rfl⟩, rfl, rfl⟩
    · rintro ⟨_, _, ⟨edge, stored, rfl, rfl⟩, rfl, rfl⟩
      obtain ⟨line, drawn, path⟩ := formed.line stored
      exact ⟨line, ⟨edge, stored, drawn⟩, path⟩

variable {map : Page K}

/-- The lines lead from one node to another exactly if the two are connected. -/
theorem Mapped.leads_iff (mapped : store.Mapped map) (spread : store.Spread) {i j : Nat}
    (one : store.Stores i) (other : store.Stores j) :
    map.Leads (store.position i) (store.position j) ↔ store.Connected i j := by
  constructor
  · intro leads
    have reached (place : K × K) (leads : map.Leads (store.position i) place) :
        ∃ k, store.Stores k ∧ store.position k = place ∧ store.Connected i k := by
      induction leads with
      | refl => exact ⟨i, one, rfl, .refl⟩
      | tail _ drawn ih =>
        obtain ⟨k, stored, rfl, connected⟩ := ih
        obtain ⟨source, target, joined, here, there⟩ := (mapped.draws _ _).mp drawn
        obtain ⟨edge, made, rfl, rfl⟩ := joined
        obtain ⟨leaves, enters⟩ := formed.safe.resolvable edge made
        obtain rfl := spread.position_injective formed.keyed leaves stored here
        exact ⟨edge.toNode, enters, there, connected.tail ⟨edge, made, rfl, rfl⟩⟩
    obtain ⟨k, stored, same, connected⟩ := reached _ leads
    rwa [spread.position_injective formed.keyed stored other same] at connected
  · intro connected
    exact Relation.ReflTransGen.lift store.position (fun source target joined =>
      (mapped.draws _ _).mpr ⟨source, target, joined, rfl, rfl⟩) _ _ connected

omit formed in
/-- Each leg of a route is a line. -/
theorem Mapped.walk (mapped : store.Mapped map) {i j : Nat} {path : List (NavigationLocation Int K)}
    (route : store.Route i j path) :
    IsWalk map.Draws (store.position i) (store.position j)
      (path.map NavigationLocation.position) := by
  have places : path.map NavigationLocation.position =
      (path.map NavigationLocation.number).map store.position := by
    rw [List.map_map]
    refine List.map_congr_left fun location member => ?_
    obtain ⟨node, found, rfl⟩ := route.stops location member
    rw [Function.comp_apply, DataManager.number_parsed, found.position]
    rfl
  rw [places]
  exact route.walk.map store.position fun source _ target _ joined =>
    (mapped.draws _ _).mpr ⟨source, target, joined, rfl, rfl⟩

end Maps

end Database

section Runs

variable {Client : Type u} [DecidableEq Client] [Field K] [LinearOrder K] [IsStrictOrderedRing K]
  [FloorRing K] [SquareRoot K]

/-- One page edits a well formed store, its client library serves it, and all its writes
have arrived; then its map is drawn again, and the app is launched. If there are edges,
the map has a marker for every node; and if no two nodes are at the same coordinates, the
lines lead from one marker to another exactly if the search of the app finds a route.
Each leg of the route is a line. -/
theorem map_leads_as_app (nodeOrder : Dictionary.Order String (NodeRecord Nat K))
    (order : EntryOrder K) (nodeFields edgeFields : Dictionary.Order String (Fields K))
    (initial : Database K) (client : Client) (events : List (WorkshopEvent Client K))
    (tree : Stored K) (formed : initial.WellFormed) (sole : Workshop.Sole client events)
    (served : Workshop.Served nodeOrder order initial client events) :
    let workshop := Workshop.run nodeOrder order initial events
    let store := workshop.shared.store
    let map := ((workshop.page client).step nodeOrder order (workshop.shared.view client)
      (.value .base)).1
    workshop.shared.inFlight client = [] → (workshop.page client).paths = true →
      store.edges.entries ≠ [] → store.Lies tree →
    (∀ id, store.Stores id → ∃ marker ∈ map.markers.take map.onMap,
      marker.value.id = id ∧ marker.position = store.position id) ∧
    ∃ manager, viewDidLoadFields nodeFields edgeFields tree tree = some (some manager) ∧
      (store.Spread → ∀ (visits : IterationOrder (NavigationLocation Int K)) (i j : Nat),
        store.Stores i → store.Stores j → i ≠ j →
        ∃ source goal, manager.getNode i = some source ∧ manager.getNode j = some goal ∧
          ∃ path, Returns (manager.graphNode source) visits source.toNavigationLocation
              goal.toNavigationLocation path ∧
            (map.Leads (store.position i) (store.position j) →
              IsWalk map.Draws (store.position i) (store.position j)
                (path.map NavigationLocation.position)) ∧
            (¬ map.Leads (store.position i) (store.position j) →
              path = [source.toNavigationLocation])) := by
  intro workshop store map arrived paths connected lies
  have seen : store = workshop.shared.view client := sole.store arrived
  obtain ⟨_, _, kept⟩ := Workshop.exists_calls nodeOrder order sole served
  have formed : store.WellFormed := by
    rw [seen]
    exact kept formed
  have mapped : store.Mapped map := by
    simp only [map, ← seen]
    exact formed.mapped connected nodeOrder order paths
  obtain ⟨manager, loaded, mirrored⟩ := (formed.launch lies nodeFields edgeFields).2 connected
  refine ⟨mapped.marked, manager, loaded, fun spread visits i j one other different => ?_⟩
  have mirrors := mirrored spread
  have leads := mapped.leads_iff formed spread one other
  obtain ⟨first, found, rfl⟩ := formed.keyed.stores_iff_hasNode.mp one
  obtain ⟨second, present, rfl⟩ := formed.keyed.stores_iff_hasNode.mp other
  obtain ⟨source, there, starts⟩ := mirrors.loaded first found
  obtain ⟨goal, reached, ends⟩ := mirrors.loaded second present
  obtain ⟨path, returned, route, alone⟩ := mirrors.route formed spread visits found present
    different (Dictionary.mem_values.mpr ⟨_, there⟩) starts ends
  refine ⟨source, goal, there, reached, path, returned, fun linked => ?_, fun apart => ?_⟩
  · exact mapped.walk (route (leads.mp linked))
  · exact alone (mt leads.mpr apart)

section Examples

-- What the run leads to is evaluated by the kernel only.
attribute [local irreducible] Workshop.run

/-- A node is added to the map, and joined to the last one that was there. -/
def addsAnnex : List (WorkshopEvent Unit ℚ) :=
  [.page () (.value .index) [], .page () (.value .edge) [], .page () (.value .base) [],
    .page () (.dblclick 6 8) [],
    .page () (.press (.loose 0) (.saveNode "Annex")) [Page.everyone, Page.everyone],
    .arrive (), .arrive (), .page () (.click 0) [], .page () (.press (.infoWindow 0) .addEdge) [],
    .page () (.click 1) [],
    .page () (.press (.loose 0) (.saveEdge false)) [Page.everyone, Page.everyone],
    .arrive (), .arrive ()]

def annexStore : Database ℚ :=
  (Workshop.run .asStored .asStored joinedPlacesStore addsAnnex).shared.store

def annexTree : Stored ℚ :=
  ((Workshop.run .asStored .asStored joinedPlacesStore addsAnnex).shared.issued ()).foldl
    Stored.apply joinedPlacesTree

theorem addsAnnex_sole : Workshop.Sole () addsAnnex := fun _ _ _ _ _ => rfl

theorem joinedPlacesStore_lies : joinedPlacesStore.Lies joinedPlacesTree := by
  have built := Database.lies_empty.foldl (firstWrites ++ (firstWrites.foldl Database.apply
    ⟨none, ∅, ∅⟩).editorWrites .asStored joinedPlaces)
  rwa [List.foldl_append, Database.foldl_editorWrites] at built

theorem annexStore_lies : annexStore.Lies annexTree := by
  have arrived : (Workshop.run .asStored .asStored joinedPlacesStore addsAnnex).shared.inFlight () =
      [] := by decide +kernel
  rw [annexStore, addsAnnex_sole.store arrived, addsAnnex_sole.view]
  exact joinedPlacesStore_lies.foldl _

/-- The map as it is drawn after the run. -/
def annexMap : Page ℚ :=
  (((Workshop.run .asStored .asStored joinedPlacesStore addsAnnex).page ()).step .asStored .asStored
    ((Workshop.run .asStored .asStored joinedPlacesStore addsAnnex).shared.view ())
      (.value .base)).1

theorem map_leads_as_app_addsAnnex :
    ∃ manager source goal path,
      viewDidLoadFields .asStored .asStored annexTree annexTree = some (some manager) ∧
        manager.getNode 1 = some source ∧ manager.getNode 3 = some goal ∧
        Returns (manager.graphNode source) (listOrder _) source.toNavigationLocation
          goal.toNavigationLocation path ∧
        IsWalk annexMap.Draws (0, 0) (6, 8) (path.map NavigationLocation.position) := by
  have formed : joinedPlacesStore.WellFormed :=
    Database.WellFormed.calls emptyCampus_wellFormed .asStored joinedPlaces
  have served : Workshop.Served .asStored .asStored joinedPlacesStore () addsAnnex :=
    Workshop.served_of_serves (by decide +kernel)
  obtain ⟨_, manager, loaded, routes⟩ := map_leads_as_app .asStored .asStored .asStored .asStored
    joinedPlacesStore () addsAnnex annexTree formed addsAnnex_sole served (by decide +kernel)
    (by decide +kernel) (by decide +kernel) annexStore_lies
  have one : annexStore.Stores 1 := ⟨"node001", ⟨1, "Library", 0, 0⟩, by decide +kernel, rfl⟩
  have other : annexStore.Stores 3 := ⟨"node003", ⟨3, "Annex", 6, 8⟩, by decide +kernel, rfl⟩
  obtain ⟨source, goal, there, reached, path, returned, walk, _⟩ :=
    routes (spread_of_values (by decide +kernel)) (listOrder _) 1 3 one other (by decide)
  have from_ : annexStore.position 1 = (0, 0) := by decide +kernel
  have to_ : annexStore.position 3 = (6, 8) := by decide +kernel
  have first : annexMap.Draws (0, 0) (3, 4) := by
    unfold Page.Draws
    decide +kernel
  have second : annexMap.Draws (3, 4) (6, 8) := by
    unfold Page.Draws
    decide +kernel
  have leads : annexMap.Leads (annexStore.position 1) (annexStore.position 3) := by
    rw [from_, to_]
    exact .tail (.single first) second
  rw [← from_, ← to_]
  exact ⟨manager, source, goal, path, loaded, there, reached, returned, walk leads⟩

end Examples

end Runs

end AugmentedCampus
