import AugmentedCampus.Editor.Effects
import AugmentedCampus.Editor.Rendering

/-! Two clicks and a form make an edge. In between the page may be told about the store,
and then the first marker may be another object than the one that was clicked. -/
namespace AugmentedCampus

open Foundation

universe v

variable {K : Type v}

namespace Page

variable {page next : Page K} {index : Nat}

/-- `markers[index].infoWindow` is defined. -/
def Hung (page : Page K) (index : Nat) : Prop :=
  ∃ marker, page.markers[index]? = some marker ∧ marker.infoWindow ≠ none

/-- What an edge in the making depends on is as it was. -/
structure Calm (page next : Page K) : Prop where
  adding : next.addingEdge = page.addingEdge
  picked : next.nodesForEdge = page.nodesForEdge
  hung : ∀ index, next.Hung index ↔ page.Hung index

theorem Calm.refl (page : Page K) : Calm page page := ⟨rfl, rfl, fun _ => Iff.rfl⟩

/-- The markers are the same objects. -/
theorem Calm.of_markers (adding : next.addingEdge = page.addingEdge)
    (picked : next.nodesForEdge = page.nodesForEdge) (markers : next.markers = page.markers) :
    Calm page next :=
  ⟨adding, picked, fun index => by simp [Hung, markers]⟩

theorem Calm.trans {last : Page K} (first : Calm page next) (second : Calm next last) :
    Calm page last where
  adding := second.adding.trans first.adding
  picked := second.picked.trans first.picked
  hung index := (second.hung index).trans (first.hung index)

section Windows

theorem closeInfoWindow_calm (index : Nat) (page : Page K) :
    Calm page (closeInfoWindow index page).1 := by
  unfold closeInfoWindow
  split
  · exact .of_markers rfl rfl rfl
  · exact .refl page

/-- A window is closed where it hangs. -/
theorem closeMarkerWindow_calm (index : Nat) (page : Page K) :
    Calm page (closeMarkerWindow index page).1 := by
  unfold closeMarkerWindow
  split
  · rename_i marker found
    split
    · rename_i window own
      refine ⟨rfl, rfl, fun position => ?_⟩
      by_cases here : position = index
      · subst here
        have inside := (List.getElem?_eq_some_iff.mp found).1
        simp [Hung, List.getElem?_set_self inside, found, own]
      · simp [Hung, List.getElem?_set_ne (Ne.symm here)]
    · exact .refl page
  · exact .refl page

theorem dismiss_calm (page : Page K) (place : Place) : Calm page (page.dismiss place) := by
  cases place with
  | infoWindow index => exact closeInfoWindow_calm index page
  | marker index => exact closeMarkerWindow_calm index page
  | loose position => exact .of_markers rfl rfl rfl

/-- No click changes what hangs at the markers. -/
theorem click_hung (clicked : Nat) (page : Page K) :
    (page.click clicked).1.Hung index ↔ page.Hung index := by
  unfold click
  split
  · rename_i marker _
    split
    · have closes := closeInfoWindow_calm marker.index page
      unfold addSecondEdge Script.andThen
      rcases ran : closeInfoWindow marker.index page with ⟨reached, none | error⟩ <;>
        rw [ran] at closes
      · exact closes.hung index
      · exact closes.hung index
    · unfold openInfoWindow
      split <;> rfl
  · rfl

end Windows

section Events

variable {nodeOrder : Dictionary.Order String (NodeRecord Nat K)} {order : EntryOrder K}
  {view : Database K}

/-- Neither a marker nor one of the two buttons that hang a window at one. -/
def Undisturbed : PageEvent K → Prop
  | .click _ | .press _ .addEdge | .press _ .deleteNode => False
  | _ => True

theorem initPaths_calm {edges : Option (Dictionary String (EdgeRecord Nat K))} :
    Script.Keeps (Calm page) (initPaths order view edges) := by
  cases edges with
  | none => exact .throw
  | some edges =>
    refine .forEach fun value _ next calm => ?_
    unfold addLine
    cases view.nodes.lookup (nodeKey value.fromNode) with
    | none => exact calm
    | some fNode =>
      cases view.nodes.lookup (nodeKey value.toNode) with
      | none => exact calm
      | some tNode => exact calm.trans (.of_markers rfl rfl rfl)

theorem listen_calm {listener : Listener} (other : listener ≠ .base) :
    Script.Keeps (Calm page) (listen nodeOrder order view listener) := by
  cases listener with
  | base => exact absurd rfl other
  | index => exact .modify fun next calm => calm.trans (.of_markers rfl rfl rfl)
  | node => exact .modify fun next calm => calm.trans (.of_markers rfl rfl rfl)
  | edge =>
    rw [listen]
    apply Script.Keeps.andThen
    · exact .modify fun next calm => calm.trans (.of_markers rfl rfl rfl)
    · apply Script.Keeps.andThen
      · exact .reading fun _ _ => initPaths_calm
      · exact .modify fun next calm => calm.trans (.of_markers rfl rfl rfl)

theorem newMap_hung (page : Page K) : page.newMap.Hung index ↔ page.Hung index := by
  simp only [Hung, newMap, List.getElem?_map, Option.map_eq_some_iff]
  constructor
  · rintro ⟨_, ⟨marker, found, rfl⟩, own⟩
    exact ⟨marker, found, by simpa using own⟩
  · rintro ⟨marker, found, own⟩
    exact ⟨_, ⟨marker, found, rfl⟩, by simpa using own⟩

/-- New markers have no window yet; old ones stay in the array beyond them. -/
theorem mapped_hung (order : EntryOrder K) (nodes : Dictionary String (NodeRecord Nat K))
    (edges : Dictionary String (EdgeRecord Nat K)) :
    (page.mapped nodeOrder order nodes edges).Hung index ↔
      page.Hung index ∧ ¬ index < (page.mapped nodeOrder order nodes edges).onMap := by
  have count : (page.mapped nodeOrder order nodes edges).onMap =
      (nodeOrder.arrange nodes).length := rfl
  rw [count]
  by_cases inside : index < (nodeOrder.arrange nodes).length
  · simp [Hung, mapped, List.getElem?_append_left, inside, NodeRecord.marker]
  · have beyond : (page.mapped nodeOrder order nodes edges).markers[index]? =
        page.newMap.markers[index]? := by
      rw [mapped, List.getElem?_append_right (by simpa using inside), List.getElem?_drop]
      congr 1
      simp only [List.length_map, List.length_zipIdx]
      omega
    rw [← newMap_hung page, Hung, beyond]
    simp [Hung, inside]

variable [Ring K] [SquareRoot K]

theorem press_calm {content : Markup K} {button : Button} (first : button ≠ .addEdge)
    (box : button ≠ .deleteNode) : Calm page (page.press order view content button).1 := by
  cases content with
  | detail node index edgesFromNode =>
    cases button with
    | addEdge => exact absurd rfl first
    | deleteNode => exact absurd rfl box
    | remove edge =>
      simp only [press]
      split <;> exact .refl page
    | _ => exact .refl page
  | hint => cases button <;> exact .refl page
  | stairs fromNode nodesForEdge index =>
    cases nodesForEdge with
    | none => cases button <;> exact .refl page
    | some picked =>
      cases button with
      | saveEdge hasStairs =>
        exact closeMarkerWindow_calm picked.2 page
      | _ => exact .refl page
  | deletion title node => cases button <;> exact .refl page
  | creation lat lng =>
    cases button with
    | saveNode desc => exact .of_markers rfl rfl rfl
    | _ => exact .refl page

/-- Apart from `baseRef`, nothing touches an edge in the making. -/
theorem step_calm {event : PageEvent K} (undisturbed : Undisturbed event)
    (other : event ≠ .value .base) : Calm page (page.step nodeOrder order view event).1 := by
  cases event with
  | value listener =>
    exact (listen_calm fun base => other (by rw [base])).left (.refl page)
  | click clicked => exact undisturbed.elim
  | dblclick lat lng =>
    simp only [step]
    split
    · exact .of_markers rfl rfl rfl
    · exact .refl page
  | press place button =>
    simp only [step]
    split
    · refine press_calm ?_ ?_
      · rintro rfl
        exact undisturbed
      · rintro rfl
        exact undisturbed
    · exact .refl page
  | dismiss place => exact dismiss_calm page place

/-- `baseRef` replaces the markers on the map, and leaves an edge in the making alone. -/
theorem Sound.step_base {known : NodeRecord Nat K → Prop}
    {listed : Dictionary String (EdgeRecord Nat K) → Prop} (sound : Sound known listed page) :
    let next := (page.step nodeOrder order view (.value .base)).1
    next.addingEdge = page.addingEdge ∧ next.nodesForEdge = page.nodesForEdge ∧
      ∀ index, next.Hung index ↔ page.Hung index ∧ ¬ index < next.onMap := by
  cases nodesKnown : page.mappedNodes view with
  | none =>
    rw [sound.step_base_blank nodeOrder order (.inl nodesKnown)]
    refine ⟨rfl, rfl, fun index => (newMap_hung _).trans ?_⟩
    exact (and_iff_left (Nat.not_lt_zero index)).symm
  | some nodes =>
    cases edgesKnown : page.mappedEdges view with
    | none =>
      rw [sound.step_base_blank nodeOrder order (.inr edgesKnown)]
      refine ⟨rfl, rfl, fun index => (newMap_hung _).trans ?_⟩
      exact (and_iff_left (Nat.not_lt_zero index)).symm
    | some edges =>
      rw [step_base_mapped nodeOrder order nodesKnown edgesKnown]
      exact ⟨rfl, rfl, fun index => mapped_hung order nodes edges⟩

end Events

section Runs

/-- A sound page, whatever it has seen. -/
abbrev Intact (page : Page K) : Prop := Sound (fun _ => True) (fun _ => True) page

theorem informs_all (view : Database K) : Informs (fun _ => True) (fun _ => True) view :=
  ⟨fun _ _ => trivial, trivial⟩

/-- Add Edge in a detail window chooses its node. -/
theorem Sound.addFirstEdge_picks (intact : page.Intact) {node : NodeRecord Nat K}
    {edgesFromNode : List Nat} (current : Current (fun _ => True) (fun _ => True) page
      (.detail node index edgesFromNode)) :
    ∃ next, addFirstEdge node.id index page = (next, none) ∧ next.addingEdge = true ∧
      next.nodesForEdge = some (node.id, index) ∧ next.Hung index := by
  have standing := current.standing intact
  obtain ⟨marker, stands, _⟩ := standing.2
  obtain ⟨inside, stored, found, _⟩ := getElem?_placed.mp stands
  obtain ⟨window, shown⟩ := intact.exists_infoWindow inside
  have room := (List.getElem?_eq_some_iff.mp found).1
  simp [addFirstEdge, Script.andThen, closeInfoWindow, shown, newMarkerWindow, found,
    Script.modify, Hung, List.getElem?_set_self room]

/-- The second click opens a form for the two nodes. -/
theorem Sound.click_form (intact : page.Intact) {clicked : Nat} {marker : Marker K}
    (stands : page.placed[clicked]? = some marker) (adding : page.addingEdge = true) :
    ∃ place, (page.click clicked).1.window place =
      some (.stairs marker.value.id page.nodesForEdge clicked) := by
  obtain ⟨inside, stored, found, rfl⟩ := getElem?_placed.mp stands
  have same : stored.index = clicked := (intact.placed clicked _ stands).1
  obtain ⟨window, shown⟩ := intact.exists_infoWindow inside
  refine ⟨.loose page.loose.length, ?_⟩
  simp [click, List.getElem?_take_of_lt inside, found, adding, same, addSecondEdge,
    Script.andThen, closeInfoWindow, shown, Script.modify, Page.window]

variable [Ring K] [SquareRoot K] {nodeOrder : Dictionary.Order String (NodeRecord Nat K)}
  {order : EntryOrder K} {view : Database K} {events : List (Database K × PageEvent K)}

theorem Intact.follow (intact : page.Intact) (events : List (Database K × PageEvent K)) :
    (page.follow nodeOrder order events).Intact :=
  Sound.follow (fun event _ _ _ => informs_all event.1) intact

theorem run_intact (events : List (Database K × PageEvent K)) :
    (run nodeOrder order events).Intact :=
  Intact.follow initial_sound events

theorem follow_append (page : Page K) (first second : List (Database K × PageEvent K)) :
    page.follow nodeOrder order (first ++ second) =
      (page.follow nodeOrder order first).follow nodeOrder order second :=
  List.foldl_append

theorem run_concat (events : List (Database K × PageEvent K)) (event : Database K × PageEvent K) :
    run nodeOrder order (events ++ [event]) =
      ((run nodeOrder order events).step nodeOrder order event.1 event.2).1 :=
  follow_append _ _ _

/-- The marker at the index was replaced by a new one. -/
def Rerendered (nodeOrder : Dictionary.Order String (NodeRecord Nat K)) (order : EntryOrder K)
    (page : Page K) (index : Nat) (events : List (Database K × PageEvent K)) : Prop :=
  ∃ earlier view later, events = earlier ++ (view, .value .base) :: later ∧
    index < (page.follow nodeOrder order (earlier ++ [(view, .value .base)])).onMap

theorem rerendered_cons {event : Database K × PageEvent K} :
    Rerendered nodeOrder order page index (event :: events) ↔
      (event.2 = .value .base ∧ index < (page.step nodeOrder order event.1 event.2).1.onMap) ∨
        Rerendered nodeOrder order (page.step nodeOrder order event.1 event.2).1 index events := by
  constructor
  · rintro ⟨earlier, view, later, split, covered⟩
    cases earlier with
    | nil =>
      cases split
      exact .inl ⟨rfl, covered⟩
    | cons first rest =>
      obtain ⟨rfl, rfl⟩ := List.cons_eq_cons.mp split
      exact .inr ⟨rest, view, later, rfl, covered⟩
  · rintro (⟨base, covered⟩ | ⟨earlier, view, later, rfl, covered⟩)
    · obtain ⟨view, happened⟩ := event
      cases base
      exact ⟨[], view, events, rfl, covered⟩
    · exact ⟨event :: earlier, view, later, rfl, covered⟩

/-- The step lemma: a window hangs at a marker until the marker is replaced. -/
theorem Sound.step_hung (intact : page.Intact) {event : PageEvent K}
    (quiet : Undisturbed event ∨ ∃ clicked, event = .click clicked) (index : Nat) :
    (page.step nodeOrder order view event).1.Hung index ↔ page.Hung index ∧
      ¬ (event = .value .base ∧ index < (page.step nodeOrder order view event).1.onMap) := by
  rcases quiet with undisturbed | ⟨clicked, rfl⟩
  · by_cases base : event = .value .base
    · subst base
      simpa using intact.step_base.2.2 index
    · simpa [base] using (step_calm undisturbed base).hung index
  · simpa [Page.step] using click_hung clicked page

/-- The run lemma. -/
theorem Sound.follow_hung (intact : page.Intact)
    (quiet : ∀ event ∈ events, Undisturbed event.2 ∨ ∃ clicked, event.2 = .click clicked)
    (index : Nat) :
    (page.follow nodeOrder order events).Hung index ↔
      page.Hung index ∧ ¬ Rerendered nodeOrder order page index events := by
  induction events generalizing page with
  | nil => simp [Page.follow, Rerendered]
  | cons event rest ih =>
    have next : (page.step nodeOrder order event.1 event.2).1.Intact :=
      Sound.step intact event.2 fun _ _ => informs_all event.1
    rw [rerendered_cons, not_or, ← and_assoc,
      ← intact.step_hung (quiet event List.mem_cons_self) index]
    exact ih next fun later member => quiet later (List.mem_cons_of_mem _ member)

/-- The first node stays chosen. -/
theorem Sound.follow_adding (intact : page.Intact)
    (quiet : ∀ event ∈ events, Undisturbed event.2) :
    (page.follow nodeOrder order events).addingEdge = page.addingEdge ∧
      (page.follow nodeOrder order events).nodesForEdge = page.nodesForEdge := by
  induction events generalizing page with
  | nil => exact ⟨rfl, rfl⟩
  | cons event rest ih =>
    have next : (page.step nodeOrder order event.1 event.2).1.Intact :=
      Sound.step intact event.2 fun _ _ => informs_all event.1
    obtain ⟨adding, picked⟩ := ih next fun later member => quiet later (List.mem_cons_of_mem _ member)
    have kept : (page.step nodeOrder order event.1 event.2).1.addingEdge = page.addingEdge ∧
        (page.step nodeOrder order event.1 event.2).1.nodesForEdge = page.nodesForEdge := by
      by_cases base : event.2 = .value .base
      · rw [base]
        exact ⟨intact.step_base.1, intact.step_base.2.1⟩
      · have calm : Calm page (page.step nodeOrder order event.1 event.2).1 :=
          step_calm (quiet event List.mem_cons_self) base
        exact ⟨calm.adding, calm.picked⟩
    exact ⟨adding.trans kept.1, picked.trans kept.2⟩

omit [Ring K] [SquareRoot K] in
theorem edgeForm_closes_iff (page : Page K) (hasStairs : Bool) :
    (page.edgeForm hasStairs).Closes index ↔ page.Hung index := by
  constructor
  · intro closes
    obtain ⟨marker, found, own⟩ : ∃ marker, page.markers[index]? = some marker ∧
        marker.infoWindow.isSome = true := by
      simpa [edgeForm] using closes.window
    exact ⟨marker, found, Option.isSome_iff_ne_none.mp own⟩
  · intro hung
    obtain ⟨marker, found, own⟩ := hung
    exact ⟨rfl, by simp [edgeForm, found, Option.isSome_iff_ne_none.mpr own]⟩

/-- What a form does depends on what hangs at the first marker. -/
theorem press_form (page : Page K) (view : Database K) (fromNode toNode clicked : Nat)
    (hasStairs : Bool) :
    (page.Hung index →
      (page.press order view (.stairs fromNode (some (toNode, index)) clicked)
        (.saveEdge hasStairs)).2 = storeEdge (page.copy view) fromNode toNode hasStairs) ∧
      (¬ page.Hung index →
        (page.press order view (.stairs fromNode (some (toNode, index)) clicked)
          (.saveEdge hasStairs)).2 = ⟨[], some .typeError⟩) := by
  rw [← page.edgeForm_closes_iff hasStairs]
  constructor
  · intro closes
    obtain ⟨ticked, same, saves⟩ := closes.saveEdge_eq (page.copy view) fromNode toNode
    cases same
    exact saves
  · intro stuck
    exact saveEdge_thrown stuck (page.copy view) fromNode toNode

variable (nodeOrder order)

/-- After Add Edge in the window of one node and a click on the marker of another there is
a form for the two. Whatever the page was told since Add Edge, if only no other marker
was clicked and no other edge or deletion begun, then `saveEdge` goes on to save the edge,
unless `baseRef` has put another marker in the place of the first one: then it throws
and writes nothing. -/
theorem run_pickEdge (events middle later : List (Database K × PageEvent K))
    (first second view : Database K) (place : Place) (node : NodeRecord Nat K) (index : Nat)
    (edgesFromNode : List Nat) (clicked : Nat) (marker : Marker K)
    (opened : (run nodeOrder order events).window place = some (.detail node index edgesFromNode))
    (quiet : ∀ event ∈ middle ++ later, Undisturbed event.2)
    (stands : ((run nodeOrder order (events ++ [(first, .press place .addEdge)])).follow nodeOrder
      order middle).placed[clicked]? = some marker) :
    let picked := run nodeOrder order (events ++ [(first, .press place .addEdge)])
    let form := Markup.stairs marker.value.id (some (node.id, index)) clicked
    let since := middle ++ (second, .click clicked) :: later
    (∃ found, (picked.follow nodeOrder order (middle ++ [(second, .click clicked)])).window found =
      some form) ∧
    ∀ found hasStairs, (picked.follow nodeOrder order since).window found = some form →
      (Rerendered nodeOrder order picked index since →
        ((picked.follow nodeOrder order since).step nodeOrder order view
          (.press found (.saveEdge hasStairs))).2 = ⟨[], some .typeError⟩) ∧
      (¬ Rerendered nodeOrder order picked index since →
        ((picked.follow nodeOrder order since).step nodeOrder order view
          (.press found (.saveEdge hasStairs))).2 =
            storeEdge ((picked.follow nodeOrder order since).copy view) marker.value.id node.id
              hasStairs) := by
  intro picked form since
  have intact : picked.Intact := run_intact _
  obtain ⟨adding, picks, hung⟩ : picked.addingEdge = true ∧
      picked.nodesForEdge = some (node.id, index) ∧ picked.Hung index := by
    obtain ⟨chosen, ran, facts⟩ :=
      (run_intact events).addFirstEdge_picks ((run_intact events).current place opened)
    have chosen_eq : picked = chosen := by
      simp only [picked, run_concat, Page.step, opened, press, ran]
    rwa [chosen_eq]
  have reached : (picked.follow nodeOrder order middle).Intact := Intact.follow intact middle
  obtain ⟨kept, chosen⟩ : (picked.follow nodeOrder order middle).addingEdge = picked.addingEdge ∧
      (picked.follow nodeOrder order middle).nodesForEdge = picked.nodesForEdge :=
    intact.follow_adding fun event member => quiet event (List.mem_append_left later member)
  obtain ⟨found, shown⟩ := reached.click_form stands (kept.trans adding)
  refine ⟨⟨found, ?_⟩, fun found hasStairs open_ => ?_⟩
  · rw [follow_append]
    rw [chosen, picks] at shown
    exact shown
  · have hangs : (picked.follow nodeOrder order since).Hung index ↔
        ¬ Rerendered nodeOrder order picked index since := by
      refine (intact.follow_hung (fun event member => ?_) index).trans (and_iff_right hung)
      rcases List.mem_append.mp member with earlier | after
      · exact .inl (quiet event (List.mem_append_left later earlier))
      · rcases List.mem_cons.mp after with rfl | last
        · exact .inr ⟨clicked, rfl⟩
        · exact .inl (quiet event (List.mem_append_right middle last))
    have outcome := @press_form _ index _ _ order (picked.follow nodeOrder order since) view
      marker.value.id node.id clicked hasStairs
    simp only [Page.step, open_, form]
    rw [hangs, not_not] at outcome
    exact ⟨outcome.2, outcome.1⟩

end Runs

section Examples

/-- The window of the library is open. -/
def openLibrary : List (Database ℚ × PageEvent ℚ) :=
  [(joined, .value .base), (joined, .click 0)]

/-- The same two clicks with and without a snapshot between them. -/
theorem run_pickEdge_joined :
    let picked := run .asStored .asStored
      (openLibrary ++ [(joined, .press (.infoWindow 0) .addEdge)])
    ((picked.follow .asStored .asStored [(joined, .click 1)]).step .asStored .asStored joined
        (.press (.loose 0) (.saveEdge true))).2.writes.length = 2 ∧
      ((picked.follow .asStored .asStored [(joined, .value .base), (joined, .click 1)]).step
        .asStored .asStored joined (.press (.loose 0) (.saveEdge true))).2 =
          ⟨[], some .typeError⟩ := by
  constructor
  · have saves := ((run_pickEdge .asStored .asStored openLibrary [] [] joined joined joined
      (.infoWindow 0) ⟨2, "Library", 3, 4⟩ 0 [1] 1 ⟨⟨1, "node001", 0, 0⟩, 1, (0, 0), "node001", none⟩
      (by decide +kernel) (by simp) (by decide +kernel)).2 (.loose 0) true (by decide +kernel)).2
    have alone := saves fun replaced => by
      rw [List.nil_append, rerendered_cons] at replaced
      simp [Rerendered] at replaced
    rw [List.nil_append] at alone
    rw [alone]
    decide +kernel
  · refine ((run_pickEdge .asStored .asStored openLibrary [(joined, .value .base)] [] joined joined
      joined (.infoWindow 0) ⟨2, "Library", 3, 4⟩ 0 [1] 1
      ⟨⟨1, "node001", 0, 0⟩, 1, (0, 0), "node001", none⟩ (by decide +kernel)
      (by simp [Undisturbed]) (by decide +kernel)).2 (.loose 0) true (by decide +kernel)).1 ?_
    exact ⟨[], joined, [(joined, .click 1)], rfl, by decide +kernel⟩

end Examples

end Page

end AugmentedCampus
