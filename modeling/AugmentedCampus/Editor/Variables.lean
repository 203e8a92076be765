import AugmentedCampus.Editor.Page

/-! What the events of a page do to its variables. -/
namespace AugmentedCampus

open Foundation

universe v

namespace Page

variable {K : Type v}

/-- The variables besides `nodes` that the listeners set are the same. -/
def Same (page next : Page K) : Prop :=
  next.nodeCount = page.nodeCount ∧ next.edges = page.edges ∧ next.paths = page.paths

theorem Same.refl (page : Page K) : Same page page := ⟨rfl, rfl, rfl⟩

section Windows

variable {page : Page K} {index : Nat}

theorem closeInfoWindow_same : Script.Keeps (Same page) (closeInfoWindow index) := by
  intro next same
  unfold closeInfoWindow
  cases next.infoWindows[index]? <;> exact same

theorem openInfoWindow_same : Script.Keeps (Same page) (openInfoWindow index) := by
  intro next same
  unfold openInfoWindow
  cases next.infoWindows[index]? <;> exact same

theorem closeMarkerWindow_same : Script.Keeps (Same page) (closeMarkerWindow index) := by
  intro next same
  unfold closeMarkerWindow
  rcases next.markers[index]? with _ | ⟨_, _, _, _, _ | _⟩ <;> exact same

theorem newMarkerWindow_same {content : Marker K → Markup K} :
    Script.Keeps (Same page) (newMarkerWindow index content) := by
  intro next same
  unfold newMarkerWindow
  cases next.markers[index]? <;> exact same

theorem addFirstEdge_same {fromNode : Nat} : Script.Keeps (Same page) (addFirstEdge fromNode index) :=
  closeInfoWindow_same.andThen (newMarkerWindow_same.andThen (.modify fun _ same => same))

theorem addSecondEdge_same {fromNode : NodeRecord Nat K} :
    Script.Keeps (Same page) (addSecondEdge fromNode index) :=
  closeInfoWindow_same.andThen (.modify fun _ same => same)

theorem deleteNodeBox_same {node : Nat} : Script.Keeps (Same page) (deleteNodeBox node index) :=
  closeInfoWindow_same.andThen newMarkerWindow_same

theorem click_same : Script.Keeps (Same page) (click index) := by
  intro next same
  unfold click
  cases (next.markers.take next.onMap)[index]? with
  | none => exact same
  | some marker =>
    cases adding : next.addingEdge with
    | true => exact addSecondEdge_same next same
    | false => exact openInfoWindow_same next same

theorem dismiss_same (place : Place) : Same page (page.dismiss place) := by
  cases place with
  | infoWindow index => exact closeInfoWindow_same.left (.refl _)
  | marker index => exact closeMarkerWindow_same.left (.refl _)
  | loose position => exact .refl _

end Windows

section Listeners

variable {page : Page K} {nodeOrder : Dictionary.Order String (NodeRecord Nat K)}
  {order : EntryOrder K} {view : Database K}

theorem initPaths_same {edges : Option (Dictionary String (EdgeRecord Nat K))} :
    Script.Keeps (Same page) (initPaths order view edges) := by
  cases edges with
  | none => exact .throw
  | some edges =>
    refine .forEach fun value _ next same => ?_
    unfold addLine
    cases view.nodes.lookup (nodeKey value.fromNode) with
    | none => exact same
    | some fNode =>
      cases view.nodes.lookup (nodeKey value.toNode) with
      | none => exact same
      | some tNode => exact same

theorem initMap_same {nodes : Option (Dictionary String (NodeRecord Nat K))}
    {edges : Option (Dictionary String (EdgeRecord Nat K))} :
    Script.Keeps (Same page) (initMap nodeOrder order view nodes edges) := by
  refine .andThen (.modify fun _ same => same) (.andThen ?_ (.andThen (.modify fun _ same => same) ?_))
  · cases nodes with
    | none => exact .throw
    | some nodes =>
      refine .forEach fun entry _ next same => ?_
      unfold addMarker
      cases edges <;> exact same
  · refine .reading fun next _ => ?_
    split
    · exact initPaths_same
    · exact .modify fun _ same => same

end Listeners

section Facts

variable {page : Page K}

/-- What depends on these variables only is kept by a script that leaves them alone. -/
theorem keeps_of_same {script : Script (Page K) Thrown} {property : Page K → Prop}
    (stable : ∀ page next, Same page next → property page → property next)
    (same : ∀ page, Script.Keeps (Same page) script) : Script.Keeps property script := by
  intro page holds
  have reached := same page page (.refl page)
  rcases ran : script page with ⟨next, none | error⟩ <;> rw [ran] at reached <;>
    exact stable page next reached holds

end Facts

section Calls

variable [Ring K] [SquareRoot K] {nodeOrder : Dictionary.Order String (NodeRecord Nat K)}
  {order : EntryOrder K} {view : Database K} {page : Page K}

/-- What an event does to the variables that the calls read, unless it is a call of a
listener: one button counts, the others leave them alone. -/
inductive Calls (order : EntryOrder K) (view : Database K) (page : Page K) :
    Page K × Issued K → Prop
  | silent {next : Page K} {issued : Issued K} (same : Same page next)
    (unwritten : issued.writes = []) : Calls order view page (next, issued)
  | saving (desc : String) (lat lng : K) :
    Calls order view page ({ page with nodeCount := page.nodeCount.map (· + 1) },
      saveNode (page.copy view) desc (some lat) (some lng))
  | editing {next : Page K} (operation : Operation K) (same : Same page next) :
    Calls order view page (next, operation.issued order (page.copy view))

theorem press_calls (content : Markup K) (button : Button) :
    Calls order view page (page.press order view content button) := by
  have same := Same.refl page
  cases content with
  | detail node index edgesFromNode =>
    cases button with
    | addEdge => exact .silent (addFirstEdge_same.left same) rfl
    | deleteNode => exact .silent (deleteNodeBox_same.left same) rfl
    | remove edge =>
      by_cases listed : edge ∈ edgesFromNode
      · rw [press, if_pos listed]
        exact .editing (.deleteEdge edge node.id) same
      · rw [press, if_neg listed]
        exact .silent same rfl
    | _ => exact .silent same rfl
  | hint => cases button <;> exact .silent same rfl
  | stairs fromNode nodesForEdge index =>
    cases nodesForEdge with
    | none => cases button <;> exact .silent same rfl
    | some picked =>
      cases button with
      | saveEdge hasStairs =>
        have kept : Same page (closeMarkerWindow picked.2 page).1 := closeMarkerWindow_same.left same
        exact .editing (.saveEdge (page.edgeForm hasStairs) fromNode picked.1 picked.2) kept
      | _ => exact .silent same rfl
  | deletion title node =>
    cases button with
    | confirm => exact .editing (.deleteNode node) same
    | _ => exact .silent same rfl
  | creation lat lng =>
    cases button with
    | saveNode desc => exact .saving desc lat lng
    | _ => exact .silent same rfl

theorem step_calls {event : PageEvent K} (unspoken : ∀ listener, event ≠ .value listener) :
    Calls order view page (page.step nodeOrder order view event) := by
  have same := Same.refl page
  cases event with
  | value listener => exact absurd rfl (unspoken listener)
  | click index => exact .silent (click_same.left same) rfl
  | dblclick lat lng =>
    refine .silent ?_ rfl
    split <;> exact same
  | press place button =>
    rw [step]
    cases page.window place with
    | none => exact .silent same rfl
    | some content => exact press_calls content button
  | dismiss place => exact .silent (dismiss_same place) rfl

end Calls

end Page

end AugmentedCampus
