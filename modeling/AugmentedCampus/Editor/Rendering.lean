import AugmentedCampus.Editor.PageInvariant
import AugmentedCampus.Editor.Variables

/-! What `initMap` and `initPaths` leave on the map, to the marker and the line. -/
namespace AugmentedCampus

open Foundation

universe v

variable {K : Type v}

section Assign

variable {Value : Type v} {array : List Value} {index : Nat}

theorem take_assign (inside : index ≤ array.length) (value : Value) :
    (assign array index value).take (index + 1) = array.take index ++ [value] := by
  have front : (array.take index).length = index := by simp [inside]
  rw [assign, List.take_append, front, List.take_of_length_le (by omega)]
  simp

theorem drop_assign (inside : index ≤ array.length) (value : Value) (count : Nat) :
    (assign array index value).drop (index + 1 + count) = array.drop (index + 1 + count) := by
  have front : (array.take index).length = index := by simp [inside]
  have past : index + 1 + count - index = count + 1 := by omega
  rw [assign, List.drop_append, front, List.drop_of_length_le (by omega), past,
    List.drop_succ_cons, List.drop_drop, List.nil_append]

end Assign

def NodeRecord.marker (value : NodeRecord Nat K) (i : Nat) : Marker K :=
  ⟨value, i, (value.latitude, value.longitude), value.description, none⟩

namespace Page

variable {nodeOrder : Dictionary.Order String (NodeRecord Nat K)} {order : EntryOrder K}
  {view : Database K} {page : Page K}

/-- Its own window. -/
def detail (order : EntryOrder K) (edges : Dictionary String (EdgeRecord Nat K))
    (value : NodeRecord Nat K) (i : Nat) : InfoWindow K :=
  ⟨.detail value i (edgesFromNode order edges value), false⟩

/-- The line of an edge, between the coordinates that its ends are stored with. -/
def line (view : Database K) (value : EdgeRecord Nat K) : Option (Polyline K) :=
  match view.nodes.lookup (nodeKey value.fromNode), view.nodes.lookup (nodeKey value.toNode) with
  | some fNode, some tNode =>
    some ⟨((fNode.latitude, fNode.longitude), (tNode.latitude, tNode.longitude)),
      if value.stairs then "#FF0000" else "#9B51E0"⟩
  | _, _ => none

/-- `initPaths` finds edges, and both ends of each. -/
def Traceable (view : Database K) : Prop :=
  view.edges.entries ≠ [] ∧ ∀ edge ∈ view.edges.values, line view edge ≠ none

/-- The loop from the node number `page.onMap` on. -/
theorem addMarkers_eq (order : EntryOrder K) (edges : Dictionary String (EdgeRecord Nat K))
    (listing : List (NodeRecord Nat K)) (page : Page K)
    (room : page.onMap ≤ page.markers.length) (shorter : page.onMap ≤ page.infoWindows.length) :
    Script.forEach (addMarker order (some edges)) (listing.zipIdx page.onMap) page =
      ({ page with
          markers := page.markers.take page.onMap ++
            (listing.zipIdx page.onMap).map (fun entry => entry.1.marker entry.2) ++
              page.markers.drop (page.onMap + listing.length)
          infoWindows := page.infoWindows.take page.onMap ++
            (listing.zipIdx page.onMap).map (fun entry => detail order edges entry.1 entry.2) ++
              page.infoWindows.drop (page.onMap + listing.length)
          onMap := page.onMap + listing.length }, none) := by
  induction listing generalizing page with
  | nil => simp [Script.forEach, Script.modify]
  | cons value rest ih =>
    have grown := ih { page with
      markers := assign page.markers page.onMap (value.marker page.onMap)
      infoWindows := assign page.infoWindows page.onMap (detail order edges value page.onMap)
      onMap := page.onMap + 1 } (by simp [length_assign room]) (by simp [length_assign shorter])
    have regrouped : page.onMap + (rest.length + 1) = page.onMap + 1 + rest.length := by omega
    simp only [take_assign room, take_assign shorter, drop_assign room, drop_assign shorter]
      at grown
    simp only [List.zipIdx_cons, Script.forEach, Script.andThen, addMarker, List.map_cons,
      List.length_cons, regrouped]
    refine grown.trans ?_
    simp

/-- The loop stops at the first edge with an end that is not stored. -/
theorem addLines_eq (view : Database K) (listing : List (EdgeRecord Nat K)) (page : Page K) :
    Script.forEach (addLine view) listing page =
      ({ page with
          lines := page.lines ++
            (listing.takeWhile fun value => (line view value).isSome).filterMap (line view) },
        if ∀ value ∈ listing, line view value ≠ none then none else some .typeError) := by
  induction listing generalizing page with
  | nil => simp [Script.forEach, Script.modify]
  | cons value rest ih =>
    cases drawn : line view value with
    | none =>
      have stops : addLine view value page = (page, some .typeError) := by
        unfold line at drawn
        unfold addLine
        split at drawn <;> simp_all
      simp [Script.forEach, Script.andThen, stops, drawn]
    | some polyline =>
      have goes : addLine view value page =
          ({ page with lines := page.lines ++ [polyline] }, none) := by
        unfold line at drawn
        unfold addLine
        split at drawn <;> simp_all
      simp only [Script.forEach, Script.andThen, goes, ih]
      simp [drawn]

/-- The map shows these nodes and, in their windows, these edges. -/
structure Shows (nodeOrder : Dictionary.Order String (NodeRecord Nat K)) (order : EntryOrder K)
    (nodes : Dictionary String (NodeRecord Nat K)) (edges : Dictionary String (EdgeRecord Nat K))
    (page : Page K) : Prop where
  onMap : page.onMap = (nodeOrder.arrange nodes).length
  marker : ∀ (index : Nat) (value : NodeRecord Nat K),
    (nodeOrder.arrange nodes)[index]? = some value →
      page.markers[index]? = some (value.marker index)
  detail : ∀ (index : Nat) (value : NodeRecord Nat K),
    (nodeOrder.arrange nodes)[index]? = some value →
      page.infoWindows[index]? = some (detail order edges value index)

section Maps

variable {nodes : Dictionary String (NodeRecord Nat K)}
  {edges : Dictionary String (EdgeRecord Nat K)}

/-- The map once the loop over the nodes has ended. -/
def mapped (nodeOrder : Dictionary.Order String (NodeRecord Nat K)) (order : EntryOrder K)
    (nodes : Dictionary String (NodeRecord Nat K)) (edges : Dictionary String (EdgeRecord Nat K))
    (page : Page K) : Page K :=
  { page.newMap with
    markers := (nodeOrder.arrange nodes).zipIdx.map (fun entry => entry.1.marker entry.2) ++
      page.newMap.markers.drop (nodeOrder.arrange nodes).length
    infoWindows :=
      (nodeOrder.arrange nodes).zipIdx.map (fun entry => detail order edges entry.1 entry.2) ++
        page.newMap.infoWindows.drop (nodeOrder.arrange nodes).length
    onMap := (nodeOrder.arrange nodes).length
    dblclick := true }

theorem mapped_shows : Shows nodeOrder order nodes edges (page.mapped nodeOrder order nodes edges) where
  onMap := rfl
  marker index value found := by
    obtain ⟨inside, rfl⟩ := List.getElem?_eq_some_iff.mp found
    simp [mapped, List.getElem?_append_left, inside]
  detail index value found := by
    obtain ⟨inside, rfl⟩ := List.getElem?_eq_some_iff.mp found
    simp [mapped, List.getElem?_append_left, inside]

theorem initMap_eq (nodes : Dictionary String (NodeRecord Nat K))
    (edges : Dictionary String (EdgeRecord Nat K)) (page : Page K) :
    initMap nodeOrder order view (some nodes) (some edges) page =
      if page.paths then initPaths order view (some edges) (page.mapped nodeOrder order nodes edges)
      else (page.mapped nodeOrder order nodes edges, none) := by
  have loop := addMarkers_eq order edges (nodeOrder.arrange nodes) page.newMap
    (Nat.zero_le _) (Nat.zero_le _)
  have none_yet : page.newMap.onMap = 0 := rfl
  simp only [none_yet, List.take_zero, List.nil_append, Nat.zero_add] at loop
  have same : page.newMap.paths = page.paths := rfl
  simp only [initMap, Script.andThen, Script.modify, loop, Script.reading, same, mapped]
  split <;> rfl

/-- Nothing is put on the map, and nothing there can be clicked, when the nodes or the edges
are not known. -/
theorem initMap_blank {nodes : Option (Dictionary String (NodeRecord Nat K))}
    {edges : Option (Dictionary String (EdgeRecord Nat K))}
    (filled : ∀ nodes' ∈ nodes, nodes'.entries ≠ []) (unknown : nodes = none ∨ edges = none)
    (page : Page K) :
    initMap nodeOrder order view nodes edges page = (page.newMap, some .typeError) := by
  cases nodes with
  | none => rfl
  | some nodes =>
    obtain rfl := unknown.resolve_left nofun
    have some_ : nodeOrder.arrange nodes ≠ [] := by
      intro empty
      have values : nodes.values = [] := by
        simpa [empty] using (nodeOrder.perm nodes).symm
      exact filled nodes rfl (List.map_eq_nil_iff.mp values)
    obtain ⟨value, rest, listed⟩ := List.exists_cons_of_ne_nil some_
    simp [initMap, Script.andThen, Script.modify, listed, Script.forEach, addMarker]

theorem newMap_window (place : Place) : page.newMap.window place = none := by
  cases place with
  | infoWindow index =>
    simp only [window, newMap, List.getElem?_map]
    cases page.infoWindows[index]? <;> simp [InfoWindow.shown, InfoWindow.close]
  | marker index =>
    simp only [window, newMap, List.getElem?_map]
    cases page.markers[index]? with
    | none => rfl
    | some marker => cases own : marker.infoWindow <;> simp [InfoWindow.shown, InfoWindow.close, own]
  | loose position => rfl

/-- `baseRef` keeps what it does not find: these are the nodes and the edges it maps. -/
def mappedNodes (page : Page K) (view : Database K) : Option (Dictionary String (NodeRecord Nat K)) :=
  (snapshotValue view.nodes).or page.nodes

def mappedEdges (page : Page K) (view : Database K) : Option (Dictionary String (EdgeRecord Nat K)) :=
  (snapshotValue view.edges).or page.edges

theorem Sound.mappedNodes_filled {known : NodeRecord Nat K → Prop}
    {listed : Dictionary String (EdgeRecord Nat K) → Prop} (sound : Sound known listed page) :
    ∀ nodes ∈ page.mappedNodes view, nodes.entries ≠ [] := by
  intro nodes read
  rcases Option.or_eq_some_iff.mp read with fresh | ⟨_, old⟩
  · exact snapshotValue_filled fresh
  · exact (sound.nodes nodes old).1

end Maps

section Runs

variable [Ring K] [SquareRoot K] (nodeOrder : Dictionary.Order String (NodeRecord Nat K))
  (order : EntryOrder K)

/-- The page whose variables have taken in the children that `baseRef` found. -/
def informed (page : Page K) (view : Database K) : Page K :=
  { page with nodes := page.mappedNodes view, edges := page.mappedEdges view }

theorem step_base_eq (page : Page K) (view : Database K) :
    page.step nodeOrder order view (.value .base) =
      ((initMap nodeOrder order view (page.mappedNodes view) (page.mappedEdges view)
          (page.informed view)).1,
        ⟨[], (initMap nodeOrder order view (page.mappedNodes view) (page.mappedEdges view)
          (page.informed view)).2⟩) := rfl

/-- Without nodes or without edges the map stays blank. -/
theorem Sound.step_base_blank {known : NodeRecord Nat K → Prop}
    {listed : Dictionary String (EdgeRecord Nat K) → Prop} (sound : Sound known listed page)
    (unknown : page.mappedNodes view = none ∨ page.mappedEdges view = none) :
    page.step nodeOrder order view (.value .base) =
      ((page.informed view).newMap, ⟨[], some .typeError⟩) := by
  rw [step_base_eq, initMap_blank sound.mappedNodes_filled unknown]

theorem step_base_mapped {nodes : Dictionary String (NodeRecord Nat K)}
    {edges : Dictionary String (EdgeRecord Nat K)} (nodesKnown : page.mappedNodes view = some nodes)
    (edgesKnown : page.mappedEdges view = some edges) :
    page.step nodeOrder order view (.value .base) =
      ({ (page.informed view).mapped nodeOrder order nodes edges with
          lines := if page.paths then
            ((order.arrange edges).takeWhile fun value => (line view value).isSome).filterMap
              (line view) else [] },
        ⟨[], if page.paths = true → ∀ value ∈ order.arrange edges, line view value ≠ none then none
          else some .typeError⟩) := by
  have same : (page.informed view).paths = page.paths := rfl
  rw [step_base_eq, nodesKnown, edgesKnown, initMap_eq, same]
  by_cases paths : page.paths = true
  · have blank : ((page.informed view).mapped nodeOrder order nodes edges).lines = [] := rfl
    simp only [paths, if_true, initPaths, addLines_eq, blank, List.nil_append, forall_const]
  · simp only [paths, Bool.false_eq_true, if_false, false_implies, if_true]
    rfl

omit [Ring K] [SquareRoot K] in
/-- `edgeRef` sets `paths` once it gets to the end of its lines. -/
theorem listen_paths (listener : Listener) (page : Page K) :
    (listen nodeOrder order view listener page).1.paths = true ↔
      page.paths = true ∨ listener = .edge ∧ Traceable view := by
  cases listener with
  | index => simp [listen, Script.modify]
  | node => simp [listen, Script.modify]
  | base =>
    have kept : Script.Keeps (fun next : Page K => next.paths = page.paths)
        (listen nodeOrder order view .base) := by
      rw [listen]
      exact .andThen (.modify fun _ same => same) (.reading fun _ _ =>
        keeps_of_same (fun _ _ same before => same.2.2.trans before) fun _ => initMap_same)
    rw [kept.left rfl]
    simp
  | edge =>
    cases read : snapshotValue view.edges with
    | none =>
      have empty : view.edges.entries = [] := by
        simpa [snapshotValue] using read
      simp [listen, Script.andThen, Script.modify, Script.reading, read, initPaths, Script.throw,
        Traceable, empty]
    | some edges =>
      have filled := snapshotValue_filled read
      obtain rfl := snapshotValue_eq_some read
      simp only [listen, Script.andThen, Script.modify, Script.reading, read, initPaths,
        addLines_eq, (order.perm view.edges).mem_iff]
      by_cases drawn : ∀ value ∈ view.edges.values, line view value ≠ none
      · rw [if_pos drawn]
        exact iff_of_true rfl (.inr ⟨trivial, filled, drawn⟩)
      · rw [if_neg drawn]
        simp [Traceable, drawn]

theorem step_paths (event : PageEvent K) (page : Page K) :
    (page.step nodeOrder order view event).1.paths = true ↔
      page.paths = true ∨ event = .value .edge ∧ Traceable view := by
  by_cases spoken : ∃ listener, event = .value listener
  · obtain ⟨listener, rfl⟩ := spoken
    simpa [step] using listen_paths nodeOrder order listener page
  · have calls : Calls order view page (page.step nodeOrder order view event) :=
      step_calls fun listener same => spoken ⟨listener, same⟩
    have other : event ≠ .value .edge := fun same => spoken ⟨.edge, same⟩
    have kept : (page.step nodeOrder order view event).1.paths = page.paths := by
      cases ran : page.step nodeOrder order view event with
      | mk next issued =>
        rw [ran] at calls
        cases calls with
        | silent same _ => exact same.2.2
        | saving desc lat lng => rfl
        | editing operation same => exact same.2.2
    simp [kept, other]

theorem follow_paths (events : List (Database K × PageEvent K)) (page : Page K) :
    (page.follow nodeOrder order events).paths = true ↔
      page.paths = true ∨ ∃ event ∈ events, event.2 = .value .edge ∧ Traceable event.1 := by
  induction events generalizing page with
  | nil => simp [follow]
  | cons event rest ih =>
    refine (ih (page.step nodeOrder order event.1 event.2).1).trans ?_
    rw [step_paths, or_assoc, List.exists_mem_cons_iff]

/-- What a page shows after `baseRef` was heard, whatever happened before. Without any
nodes or edges the map is blank and dead, and the script throws. Else there are a
marker and a window for each node, and a double click is heard. Once `edgeRef` was heard
when there were edges and all their ends were stored, there are lines for the edges up to
the first one with an end that is not stored, and the script throws exactly if there is
one. -/
theorem run_base (events : List (Database K × PageEvent K)) (view : Database K) :
    let page := run nodeOrder order events
    let heard := page.step nodeOrder order view (.value .base)
    (page.paths = true ↔ ∃ event ∈ events, event.2 = .value .edge ∧ Traceable event.1) ∧
    (page.mappedNodes view = none ∨ page.mappedEdges view = none →
      heard.2.thrown = some .typeError ∧ heard.1.onMap = 0 ∧ heard.1.dblclick = false ∧
        ∀ place, heard.1.window place = none) ∧
    ∀ nodes edges, page.mappedNodes view = some nodes → page.mappedEdges view = some edges →
      heard.1.Shows nodeOrder order nodes edges ∧ heard.1.dblclick = true ∧
        heard.1.lines = (if page.paths then
          ((order.arrange edges).takeWhile fun value => (line view value).isSome).filterMap
            (line view) else []) ∧
        (heard.2.thrown = none ↔
          (page.paths = true → ∀ edge ∈ edges.values, line view edge ≠ none)) := by
  intro page heard
  have sound : Sound (Seen events) (Listed events) page := run_seen events
  refine ⟨?_, ?_, ?_⟩
  · refine (follow_paths nodeOrder order events initial).trans (or_iff_right ?_)
    exact Bool.false_ne_true
  · intro unknown
    have blank : heard = _ := sound.step_base_blank nodeOrder order unknown
    rw [blank]
    exact ⟨rfl, rfl, rfl, newMap_window⟩
  · intro nodes edges nodesKnown edgesKnown
    have shows : Shows nodeOrder order nodes edges
        ((page.informed view).mapped nodeOrder order nodes edges) := mapped_shows
    have mapped : heard = _ := step_base_mapped nodeOrder order nodesKnown edgesKnown
    rw [mapped]
    refine ⟨⟨shows.onMap, shows.marker, shows.detail⟩, rfl, rfl, ?_⟩
    simp [(order.perm edges).mem_iff]

end Runs

end Page

end AugmentedCampus
