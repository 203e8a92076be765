import AugmentedCampus.Campus.Launch
import AugmentedCampus.Foundation.Script

/-! The map page: its variables, its listeners and what can be clicked on its map. A
window is kept with the variable that refers to it; the ones that none refers to are
`loose`. Only what is on the map that was made last can be clicked. -/
namespace AugmentedCampus

open Foundation

universe v

/-- The markup of a window, as far as it decides about the calls of its buttons. `index`
is that of the marker it is opened at. -/
inductive Markup (K : Type v) where
  | detail (node : NodeRecord Nat K) (index : Nat) (edgesFromNode : List Nat)
  | hint (index : Nat)
  | stairs (fromNode : Nat) (nodesForEdge : Option (Nat × Nat)) (index : Nat)
  | deletion (title : String) (node : Nat)
  | creation (lat lng : K)
  deriving DecidableEq

structure InfoWindow (K : Type v) where
  content : Markup K
  opened : Bool
  deriving DecidableEq

def InfoWindow.shown {K : Type v} (window : InfoWindow K) : Option (Markup K) :=
  if window.opened then some window.content else none

def InfoWindow.close {K : Type v} (window : InfoWindow K) : InfoWindow K :=
  { window with opened := false }

/-- `value` is what the click listener of the marker closes over. -/
structure Marker (K : Type v) where
  value : NodeRecord Nat K
  index : Nat
  position : K × K
  title : String
  infoWindow : Option (InfoWindow K)
  deriving DecidableEq

structure Polyline (K : Type v) where
  path : (K × K) × (K × K)
  strokeColor : String
  deriving DecidableEq

/-- `nodes` and `edges` are `none` while they are undefined or null, `nodeCount` when it
is no number. The first `onMap` markers and the lines are on the last map; lines that are
drawn before there is a map are counted too. -/
structure Page (K : Type v) where
  nodeCount : Option Nat
  nodes : Option (Dictionary String (NodeRecord Nat K))
  edges : Option (Dictionary String (EdgeRecord Nat K))
  paths : Bool
  addingEdge : Bool
  markers : List (Marker K)
  infoWindows : List (InfoWindow K)
  nodesForEdge : Option (Nat × Nat)
  onMap : Nat
  dblclick : Bool
  loose : List (Markup K)
  lines : List (Polyline K)
  deriving DecidableEq

/-- `array[index] = value` for an index up to the length. -/
def assign {Value : Type v} (array : List Value) (index : Nat) (value : Value) : List Value :=
  array.take index ++ value :: array.drop (index + 1)

inductive Place where
  | infoWindow (index : Nat)
  | marker (index : Nat)
  | loose (position : Nat)
  deriving DecidableEq

/-- The buttons, with what `getElementById` finds typed or ticked: that is the first element
on the page with the id. -/
inductive Button where
  | addEdge
  | deleteNode
  | remove (edge : Nat)
  | saveEdge (hasStairs : Bool)
  | confirm
  | saveNode (desc : String)
  deriving DecidableEq

inductive Listener where
  | base
  | index
  | node
  | edge
  deriving DecidableEq

inductive PageEvent (K : Type v) where
  | value (listener : Listener)
  | click (index : Nat)
  | dblclick (lat lng : K)
  | press (place : Place) (button : Button)
  | dismiss (place : Place)
  deriving DecidableEq

namespace Page

variable {K : Type v}

def initial : Page K where
  nodeCount := some 0
  nodes := none
  edges := none
  paths := false
  addingEdge := false
  markers := []
  infoWindows := []
  nodesForEdge := none
  onMap := 0
  dblclick := false
  loose := []
  lines := []

def window (page : Page K) : Place → Option (Markup K)
  | .infoWindow index => page.infoWindows[index]?.bind InfoWindow.shown
  | .marker index => (page.markers[index]?.bind Marker.infoWindow).bind InfoWindow.shown
  | .loose position => page.loose[position]?

section Windows

def closeInfoWindow (index : Nat) : Script (Page K) Thrown := fun page =>
  match page.infoWindows[index]? with
  | some window => ({ page with infoWindows := page.infoWindows.set index window.close }, none)
  | none => (page, some .typeError)

def openInfoWindow (index : Nat) : Script (Page K) Thrown := fun page =>
  match page.infoWindows[index]? with
  | some window =>
    ({ page with infoWindows := page.infoWindows.set index { window with opened := true } }, none)
  | none => (page, some .typeError)

def closeMarkerWindow (index : Nat) : Script (Page K) Thrown := fun page =>
  match page.markers[index]? with
  | some marker =>
    match marker.infoWindow with
    | some window =>
      ({ page with
          markers := page.markers.set index { marker with infoWindow := some window.close } }, none)
    | none => (page, some .typeError)
  | none => (page, some .typeError)

/-- `markers[index].infoWindow = new google.maps.InfoWindow(..)`, which is opened. The one
it replaces stays on the map. -/
def newMarkerWindow (index : Nat) (content : Marker K → Markup K) : Script (Page K) Thrown :=
  fun page =>
    match page.markers[index]? with
    | some marker =>
      ({ page with
          markers := page.markers.set index
            { marker with infoWindow := some ⟨content marker, true⟩ }
          loose := page.loose ++ (marker.infoWindow.bind InfoWindow.shown).toList }, none)
    | none => (page, some .typeError)

def addFirstEdge (fromNode index : Nat) : Script (Page K) Thrown :=
  (closeInfoWindow index).andThen <| (newMarkerWindow index fun _ => .hint index).andThen <|
    .modify fun page =>
      { page with addingEdge := true, nodesForEdge := some (fromNode, index) }

/-- `infoWindows[index]` is the old window again once the new one is open. -/
def addSecondEdge (fromNode : NodeRecord Nat K) (index : Nat) : Script (Page K) Thrown :=
  (closeInfoWindow index).andThen <| .modify fun page =>
    { page with
      loose := page.loose ++ [.stairs fromNode.id page.nodesForEdge index]
      addingEdge := false }

def deleteNodeBox (node index : Nat) : Script (Page K) Thrown :=
  (closeInfoWindow index).andThen <| newMarkerWindow index fun marker =>
    .deletion marker.title node

def click (index : Nat) : Script (Page K) Thrown := fun page =>
  match (page.markers.take page.onMap)[index]? with
  | some marker =>
    if page.addingEdge then addSecondEdge marker.value marker.index page
    else openInfoWindow marker.index page
  | none => (page, none)

def dismiss (page : Page K) : Place → Page K
  | .infoWindow index => (closeInfoWindow index page).1
  | .marker index => (closeMarkerWindow index page).1
  | .loose position => { page with loose := page.loose.eraseIdx position }

end Windows

section Rendering

variable (nodeOrder : Dictionary.Order String (NodeRecord Nat K)) (order : EntryOrder K)
  (view : Database K)

def newMap (page : Page K) : Page K :=
  { page with
    markers := page.markers.map fun marker =>
      { marker with infoWindow := marker.infoWindow.map InfoWindow.close }
    infoWindows := page.infoWindows.map InfoWindow.close
    onMap := 0
    dblclick := false
    loose := []
    lines := [] }

def edgesFromNode (edges : Dictionary String (EdgeRecord Nat K)) (value : NodeRecord Nat K) :
    List Nat :=
  ((order.arrange edges).filter fun edgeValue => edgeValue.fromNode == value.id).map
    EdgeRecord.toNode

/-- The body of the loop of `initMap`; `Object.entries(edges)` throws on null. -/
def addMarker (edges : Option (Dictionary String (EdgeRecord Nat K)))
    (entry : NodeRecord Nat K × Nat) : Script (Page K) Thrown := fun page =>
  let (value, i) := entry
  match edges with
  | some edges =>
    ({ page with
        markers := assign page.markers i
          ⟨value, i, (value.latitude, value.longitude), value.description, none⟩
        infoWindows := assign page.infoWindows i
          ⟨.detail value i (edgesFromNode order edges value), false⟩
        onMap := i + 1 }, none)
  | none => (page, some .typeError)

/-- The body of the loop of `initPaths`. The listeners on the two nodes are called at once. -/
def addLine (value : EdgeRecord Nat K) : Script (Page K) Thrown := fun page =>
  match view.nodes.lookup (nodeKey value.fromNode), view.nodes.lookup (nodeKey value.toNode) with
  | some fNode, some tNode =>
    let color := if value.stairs then "#FF0000" else "#9B51E0"
    ({ page with
        lines := page.lines ++
          [⟨((fNode.latitude, fNode.longitude), (tNode.latitude, tNode.longitude)), color⟩] },
      none)
  | _, _ => (page, some .typeError)

def initPaths (edges : Option (Dictionary String (EdgeRecord Nat K))) : Script (Page K) Thrown :=
  match edges with
  | some edges => .forEach (addLine view) (order.arrange edges)
  | none => .throw .typeError

def initMap (nodes : Option (Dictionary String (NodeRecord Nat K)))
    (edges : Option (Dictionary String (EdgeRecord Nat K))) : Script (Page K) Thrown :=
  (Script.modify newMap).andThen <|
    (match nodes with
      | some nodes => Script.forEach (addMarker order edges) (nodeOrder.arrange nodes).zipIdx
      | none => .throw .typeError).andThen <|
    (Script.modify fun page : Page K => { page with dblclick := true }).andThen <|
    .reading fun page => if page.paths then initPaths order view edges else .modify id

/-- A listener is called with what the client has of the store. `baseRef` goes through
the children that are there, and keeps the old value of one that is not. -/
def listen : Listener → Script (Page K) Thrown
  | .base =>
    (Script.modify fun page =>
      { page with
        nodes := (snapshotValue view.nodes).or page.nodes
        edges := (snapshotValue view.edges).or page.edges }).andThen <|
      .reading fun page => initMap nodeOrder order view page.nodes page.edges
  | .index => .modify fun page => { page with nodeCount := view.index }
  | .node => .modify fun page => { page with nodes := snapshotValue view.nodes }
  | .edge =>
    (Script.modify fun page => { page with edges := snapshotValue view.edges }).andThen <|
      (Script.reading fun page => initPaths order view page.edges).andThen <|
      .modify fun page => { page with paths := true }

/-- Listeners that are called one after the other; what one throws does not stop the next. -/
def listenAll (listeners : List Listener) (page : Page K) : Page K :=
  listeners.foldl (fun page listener => (listen nodeOrder order view listener page).1) page

end Rendering

/-- A `set()` calls listeners before it returns; `heard` has those called in each. -/
def overhear (nodeOrder : Dictionary.Order String (NodeRecord Nat K)) (order : EntryOrder K) :
    Database K → List (Write K) → List (List Listener) → Page K → Page K
  | _, [], _, page => page
  | view, write :: writes, heard, page =>
    overhear nodeOrder order (view.apply write) writes heard.tail
      (listenAll nodeOrder order (view.apply write) (heard.headD []) page)

section Calls

variable [Ring K] [SquareRoot K] (nodeOrder : Dictionary.Order String (NodeRecord Nat K))
  (order : EntryOrder K) (view : Database K)

/-- What the calls that write read: variables of the page, and the nodes through listeners. -/
def copy (page : Page K) : Database K := ⟨page.nodeCount, view.nodes, page.edges.getD ∅⟩

def edgeForm (page : Page K) (hasStairs : Bool) : EdgeForm :=
  ⟨some hasStairs, page.markers.map fun marker => marker.infoWindow.isSome⟩

def press (page : Page K) : Markup K → Button → Page K × Issued K
  | .detail node index _, .addEdge =>
    let (page, thrown) := addFirstEdge node.id index page
    (page, ⟨[], thrown⟩)
  | .detail node index _, .deleteNode =>
    let (page, thrown) := deleteNodeBox node.id index page
    (page, ⟨[], thrown⟩)
  | .detail node _ edgesFromNode, .remove edge =>
    if edge ∈ edgesFromNode then (page, deleteEdge order (page.copy view) edge node.id)
    else (page, ⟨[], none⟩)
  | .stairs fromNode (some (toNode, index)) _, .saveEdge hasStairs =>
    ((closeMarkerWindow index page).1,
      saveEdge (page.copy view) (page.edgeForm hasStairs) fromNode toNode index)
  | .stairs _ none _, .saveEdge _ => (page, ⟨[], some .typeError⟩)
  | .deletion _ node, .confirm => (page, deleteNode order (page.copy view) node)
  | .creation lat lng, .saveNode desc =>
    ({ page with nodeCount := page.nodeCount.map (· + 1) },
      saveNode (page.copy view) desc (some lat) (some lng))
  | _, _ => (page, ⟨[], none⟩)

def step (page : Page K) : PageEvent K → Page K × Issued K
  | .value listener =>
    let (page, thrown) := listen nodeOrder order view listener page
    (page, ⟨[], thrown⟩)
  | .click index =>
    let (page, thrown) := page.click index
    (page, ⟨[], thrown⟩)
  | .dblclick lat lng =>
    (if page.dblclick then { page with loose := page.loose ++ [.creation lat lng] } else page,
      ⟨[], none⟩)
  | .press place button =>
    match page.window place with
    | some content => page.press order view content button
    | none => (page, ⟨[], none⟩)
  | .dismiss place => (page.dismiss place, ⟨[], none⟩)

def follow (page : Page K) (events : List (Database K × PageEvent K)) : Page K :=
  events.foldl (fun page event => (page.step nodeOrder order event.1 event.2).1) page

def run (events : List (Database K × PageEvent K)) : Page K := initial.follow nodeOrder order events

end Calls

end Page

end AugmentedCampus
