import AugmentedCampus.Editor.Page

/-! What the map shows belongs to the nodes that were put on it, in whatever order the
page is clicked and told about the store. -/
namespace AugmentedCampus

open Foundation

universe v

variable {K : Type v}

section Assign

variable {Value : Type v} {array : List Value} {index : Nat}

theorem length_assign (inside : index ≤ array.length) (value : Value) :
    (assign array index value).length = max array.length (index + 1) := by
  simp only [assign, List.length_append, List.length_take, List.length_cons, List.length_drop]
  omega

theorem getElem?_assign (inside : index ≤ array.length) (value : Value) (position : Nat) :
    (assign array index value)[position]? = if position = index then some value else array[position]? := by
  have front : (array.take index).length = index := by simp [inside]
  rcases lt_trichotomy position index with before | rfl | beyond
  · rw [assign, List.getElem?_append_left (by omega), List.getElem?_take_of_lt before,
      if_neg (by omega)]
  · rw [assign, List.getElem?_append_right (by omega), front, if_pos rfl]
    simp
  · rw [assign, List.getElem?_append_right (by omega), front, if_neg (by omega)]
    obtain ⟨gap, rfl⟩ := Nat.exists_eq_add_of_lt beyond
    have tail : index + gap + 1 - index = gap + 1 := by omega
    rw [tail, List.getElem?_cons_succ, List.getElem?_drop]
    congr 1
    omega

end Assign

namespace Page

variable {page next : Page K}

/-- The markers on the map, without their windows. -/
def placed (page : Page K) : List (Marker K) :=
  (page.markers.take page.onMap).map fun marker => { marker with infoWindow := none }

theorem getElem?_placed {index : Nat} {marker : Marker K} :
    page.placed[index]? = some marker ↔
      index < page.onMap ∧ ∃ stored, page.markers[index]? = some stored ∧
        { stored with infoWindow := none } = marker := by
  rw [placed, List.getElem?_map, Option.map_eq_some_iff]
  by_cases inside : index < page.onMap
  · simp [List.getElem?_take_of_lt inside, inside]
  · simp [inside]

/-- The content speaks of the nodes on the map. `known` and `listed` hold of the nodes and
of the values of `Graph/Edges` that the page has seen. -/
def Current (known : NodeRecord Nat K → Prop)
    (listed : Dictionary String (EdgeRecord Nat K) → Prop) (page : Page K) : Markup K → Prop
  | .detail node index edgesFromNode =>
    (∃ marker : Marker K, page.placed[index]? = some marker ∧ marker.value = node) ∧ known node ∧
      ∃ edges, listed edges ∧ edgesFromNode.Perm
        ((edges.values.filter fun edge => edge.fromNode == node.id).map EdgeRecord.toNode)
  | .hint index => ∃ marker : Marker K, page.placed[index]? = some marker
  | .stairs fromNode nodesForEdge index =>
    (∃ marker : Marker K, page.placed[index]? = some marker ∧ marker.value.id = fromNode) ∧
      ∃ toNode first, nodesForEdge = some (toNode.id, first) ∧ known toNode ∧
        first < page.markers.length
  | .deletion title node =>
    ∃ (index : Nat) (marker : Marker K), page.placed[index]? = some marker ∧ marker.value.id = node ∧
      marker.value.description = title
  | .creation _ _ => page.dblclick = true

/-- What holds between any two events of a page. -/
structure Sound (known : NodeRecord Nat K → Prop)
    (listed : Dictionary String (EdgeRecord Nat K) → Prop) (page : Page K) : Prop where
  lengths : page.infoWindows.length = page.markers.length
  room : page.onMap ≤ page.markers.length
  placed : ∀ (index : Nat) (marker : Marker K), page.placed[index]? = some marker →
    marker.index = index ∧ marker.title = marker.value.description ∧ known marker.value
  details : ∀ (index : Nat) (window : InfoWindow K), page.infoWindows[index]? = some window → index < page.onMap →
    ∃ node edgesFromNode, window.content = .detail node index edgesFromNode ∧
      Current known listed page window.content
  closed : ∀ (index : Nat) (window : InfoWindow K), page.infoWindows[index]? = some window → page.onMap ≤ index →
    window.opened = false
  hung : ∀ (index : Nat) (marker : Marker K) (window : InfoWindow K), page.markers[index]? = some marker →
    marker.infoWindow = some window → window.opened = true →
      Current known listed page window.content
  loose : ∀ content ∈ page.loose, Current known listed page content
  adding : page.addingEdge = true → ∃ toNode index, page.nodesForEdge = some (toNode.id, index) ∧
    known toNode ∧ index < page.markers.length
  nodes : ∀ nodes ∈ page.nodes, nodes.entries ≠ [] ∧ ∀ node ∈ nodes.values, known node
  edges : ∀ edges ∈ page.edges, edges.entries ≠ [] ∧ listed edges

variable {known : NodeRecord Nat K → Prop} {listed : Dictionary String (EdgeRecord Nat K) → Prop}

/-- Whatever is open is about the map. -/
theorem Sound.current (sound : Sound known listed page) (place : Place) {content : Markup K}
    (open_ : page.window place = some content) : Current known listed page content := by
  cases place with
  | infoWindow index =>
    obtain ⟨window, found, shows⟩ := Option.bind_eq_some_iff.mp open_
    by_cases opened : window.opened = true
    · rw [InfoWindow.shown, if_pos opened, Option.some.injEq] at shows
      subst shows
      by_cases inside : index < page.onMap
      · obtain ⟨_, _, _, current⟩ := sound.details index window found inside
        exact current
      · cases (sound.closed index window found (Nat.le_of_not_lt inside)).symm.trans opened
    · rw [InfoWindow.shown, if_neg opened] at shows
      cases shows
  | marker index =>
    obtain ⟨window, found, shows⟩ := Option.bind_eq_some_iff.mp open_
    obtain ⟨marker, stored, own⟩ := Option.bind_eq_some_iff.mp found
    by_cases opened : window.opened = true
    · rw [InfoWindow.shown, if_pos opened, Option.some.injEq] at shows
      subst shows
      exact sound.hung index marker window stored own opened
    · rw [InfoWindow.shown, if_neg opened] at shows
      cases shows
  | loose position => exact sound.loose content (List.mem_of_getElem? open_)

/-- More may have been put on the map, and nothing was taken off it. -/
structure Extends (page next : Page K) : Prop where
  placed : page.placed <+: next.placed
  markers : page.markers.length ≤ next.markers.length
  dblclick : page.dblclick = true → next.dblclick = true

theorem Extends.getElem? (extended : page.Extends next) {index : Nat} {marker : Marker K}
    (found : page.placed[index]? = some marker) : next.placed[index]? = some marker := by
  obtain ⟨rest, same⟩ := extended.placed
  rw [← same]
  obtain ⟨inside, _⟩ := List.getElem?_eq_some_iff.mp found
  rw [List.getElem?_append_left inside, found]

theorem Current.extends {content : Markup K} (current : Current known listed page content)
    (extended : page.Extends next) : Current known listed next content := by
  cases content with
  | detail node index edgesFromNode =>
    obtain ⟨⟨marker, found, own⟩, seen⟩ := current
    exact ⟨⟨marker, extended.getElem? found, own⟩, seen⟩
  | hint index =>
    obtain ⟨marker, found⟩ := current
    exact ⟨marker, extended.getElem? found⟩
  | stairs fromNode nodesForEdge index =>
    obtain ⟨⟨marker, found, own⟩, toNode, first, picked, seen, inside⟩ := current
    exact ⟨⟨marker, extended.getElem? found, own⟩, toNode, first, picked, seen,
      Nat.lt_of_lt_of_le inside extended.markers⟩
  | deletion title node =>
    obtain ⟨index, marker, found, own, titled⟩ := current
    exact ⟨index, marker, extended.getElem? found, own, titled⟩
  | creation lat lng => exact extended.dblclick current

theorem Extends.of_placed (same : next.placed = page.placed)
    (markers : page.markers.length ≤ next.markers.length)
    (dblclick : page.dblclick = true → next.dblclick = true) : page.Extends next :=
  ⟨by rw [same], markers, dblclick⟩

section Transfer

variable (sound : Sound known listed page) (extended : page.Extends next)

include sound extended

theorem Sound.details_extends (index : Nat) (window : InfoWindow K)
    (found : page.infoWindows[index]? = some window) (inside : index < page.onMap) :
    ∃ node edgesFromNode, window.content = .detail node index edgesFromNode ∧
      Current known listed next window.content := by
  obtain ⟨node, edgesFromNode, content, current⟩ := sound.details index window found inside
  exact ⟨node, edgesFromNode, content, current.extends extended⟩

theorem Sound.hung_extends (index : Nat) (marker : Marker K) (window : InfoWindow K)
    (found : page.markers[index]? = some marker) (own : marker.infoWindow = some window)
    (opened : window.opened = true) : Current known listed next window.content :=
  (sound.hung index marker window found own opened).extends extended

theorem Sound.loose_extends (content : Markup K) (member : content ∈ page.loose) :
    Current known listed next content :=
  (sound.loose content member).extends extended

end Transfer

section Clicks

variable {index node : Nat}

theorem placed_set {marker : Marker K} (stored : page.markers[index]? = some marker)
    (infoWindow : Option (InfoWindow K)) :
    Page.placed { page with
      markers := page.markers.set index { marker with infoWindow := infoWindow } } =
      page.placed := by
  refine List.ext_getElem? fun position => Option.ext fun other => ?_
  rw [getElem?_placed, getElem?_placed]
  by_cases here : position = index
  · subst here
    have inside := (List.getElem?_eq_some_iff.mp stored).1
    simp [List.getElem?_set_self inside, stored]
  · simp [List.getElem?_set_ne (Ne.symm here)]

/-- A window of the array is opened or closed. -/
theorem Sound.set_infoWindow (sound : Sound known listed page) {window changed : InfoWindow K}
    (stored : page.infoWindows[index]? = some window) (same : changed.content = window.content)
    (opens : changed.opened = true → index < page.onMap) :
    Sound known listed { page with infoWindows := page.infoWindows.set index changed } := by
  have inside := (List.getElem?_eq_some_iff.mp stored).1
  have extended : page.Extends { page with infoWindows := page.infoWindows.set index changed } :=
    .of_placed rfl le_rfl id
  have at_ {position : Nat} {other : InfoWindow K}
      (found : (page.infoWindows.set index changed)[position]? = some other) :
      position = index ∧ other = changed ∨ page.infoWindows[position]? = some other := by
    by_cases here : position = index
    · subst here
      rw [List.getElem?_set_self inside, Option.some.injEq] at found
      exact .inl ⟨rfl, found.symm⟩
    · exact .inr (by rwa [List.getElem?_set_ne (Ne.symm here)] at found)
  refine ⟨by simpa using sound.lengths, sound.room, sound.placed, ?_, ?_, ?_, ?_, sound.adding,
    sound.nodes, sound.edges⟩
  · intro position other found placed
    rcases at_ found with ⟨rfl, rfl⟩ | old
    · obtain ⟨node, edgesFromNode, content, current⟩ := sound.details position window stored placed
      rw [same]
      exact ⟨node, edgesFromNode, content, current.extends extended⟩
    · exact sound.details_extends extended position other old placed
  · intro position other found beyond
    rcases at_ found with ⟨rfl, rfl⟩ | old
    · exact Bool.eq_false_iff.mpr fun opened => absurd (opens opened) (Nat.not_lt_of_le beyond)
    · exact sound.closed position other old beyond
  · exact sound.hung_extends extended
  · exact sound.loose_extends extended

/-- The window of a marker is opened, closed or replaced. -/
theorem Sound.set_marker (sound : Sound known listed page) {marker : Marker K}
    (stored : page.markers[index]? = some marker) (window : InfoWindow K)
    (current : window.opened = true → Current known listed page window.content) :
    Sound known listed { page with
      markers := page.markers.set index { marker with infoWindow := some window } } := by
  have inside := (List.getElem?_eq_some_iff.mp stored).1
  have same := placed_set stored (some window)
  have extended : page.Extends { page with
      markers := page.markers.set index { marker with infoWindow := some window } } :=
    .of_placed same (by simp) id
  refine ⟨by simpa using sound.lengths, by simpa using sound.room, by simpa only [same] using
    sound.placed, ?_, sound.closed, ?_, ?_, by simpa using sound.adding, sound.nodes,
    sound.edges⟩
  · exact sound.details_extends extended
  · intro position other hanging found own opened
    by_cases here : position = index
    · subst here
      simp only [List.getElem?_set_self inside, Option.some.injEq] at found
      subst found
      cases own
      exact (current opened).extends extended
    · rw [List.getElem?_set_ne (Ne.symm here)] at found
      exact sound.hung_extends extended position other hanging found own opened
  · exact sound.loose_extends extended

theorem Sound.add_loose (sound : Sound known listed page) {contents : List (Markup K)}
    (current : ∀ content ∈ contents, Current known listed page content) :
    Sound known listed { page with loose := page.loose ++ contents } := by
  have extended : page.Extends { page with loose := page.loose ++ contents } :=
    .of_placed rfl le_rfl id
  refine ⟨sound.lengths, sound.room, sound.placed, sound.details_extends extended, sound.closed,
    sound.hung_extends extended, fun content member => ?_, sound.adding, sound.nodes, sound.edges⟩
  rcases List.mem_append.mp member with old | new
  · exact sound.loose_extends extended content old
  · exact (current content new).extends extended

/-- The page is sound, and a marker for the node with the id `node` stands at `index`. -/
def Standing (known : NodeRecord Nat K → Prop)
    (listed : Dictionary String (EdgeRecord Nat K) → Prop) (index node : Nat) (page : Page K) :
    Prop :=
  Sound known listed page ∧
    ∃ marker : Marker K, page.placed[index]? = some marker ∧ marker.value.id = node

theorem Sound.exists_infoWindow (sound : Sound known listed page) (inside : index < page.onMap) :
    ∃ window, page.infoWindows[index]? = some window := by
  have bound : index < page.infoWindows.length := by
    have := sound.room
    have := sound.lengths
    omega
  exact ⟨_, List.getElem?_eq_getElem bound⟩

theorem closeInfoWindow_standing :
    Script.Triple (Standing (K := K) known listed index node) (closeInfoWindow index)
      (Standing known listed index node) fun _ _ => False := by
  rintro page ⟨sound, marker, stands, own⟩
  obtain ⟨window, found⟩ := sound.exists_infoWindow (getElem?_placed.mp stands).1
  simp only [closeInfoWindow, found]
  exact ⟨sound.set_infoWindow found rfl nofun, marker, stands, own⟩

theorem newMarkerWindow_standing (content : Marker K → Markup K)
    (current : ∀ page : Page K, Standing known listed index node page →
      ∀ marker, page.markers[index]? = some marker → Current known listed page (content marker)) :
    Script.Triple (Standing (K := K) known listed index node) (newMarkerWindow index content)
      (Standing known listed index node) fun _ _ => False := by
  rintro page ⟨sound, marker, stands, own⟩
  obtain ⟨_, stored, found, _⟩ := getElem?_placed.mp stands
  have shown := current page ⟨sound, marker, stands, own⟩ stored found
  have replaced : ∀ left ∈ (stored.infoWindow.bind InfoWindow.shown).toList,
      Current known listed page left := by
    intro left member
    exact sound.current (.marker index) (by
      simpa [Page.window, found] using Option.mem_toList.mp member)
  simp only [newMarkerWindow, found]
  have hung := sound.set_marker found ⟨content stored, true⟩ fun _ => shown
  have same := placed_set found (some ⟨content stored, true⟩)
  refine ⟨hung.add_loose fun left member => (replaced left member).extends
    (.of_placed same (by simp) id), marker, ?_, own⟩
  exact (congrArg (·[index]?) same).trans stands

theorem addFirstEdge_standing :
    Script.Triple (Standing (K := K) known listed index node) (addFirstEdge node index)
      (Sound known listed) fun _ _ => False := by
  refine closeInfoWindow_standing.andThen
    ((newMarkerWindow_standing (fun _ => .hint index) fun _ standing _ _ => ?_).andThen
      (.modify ?_))
  · obtain ⟨_, marker, stands, _⟩ := standing
    exact ⟨marker, stands⟩
  · rintro page ⟨sound, marker, stands, rfl⟩
    obtain ⟨_, _, seen⟩ := sound.placed index marker stands
    have inside := Nat.lt_of_lt_of_le (getElem?_placed.mp stands).1 sound.room
    exact { sound with adding := fun _ => ⟨marker.value, index, rfl, seen, inside⟩ }

theorem deleteNodeBox_standing :
    Script.Triple (Standing (K := K) known listed index node) (deleteNodeBox node index)
      (Sound known listed) fun _ _ => False := by
  refine (closeInfoWindow_standing.andThen
    (newMarkerWindow_standing (fun marker => .deletion marker.title node) ?_)).imp
      (fun page standing => standing.1) fun _ _ impossible => impossible
  rintro page ⟨sound, marker, stands, own⟩ stored found
  obtain ⟨_, _, there, rfl⟩ := getElem?_placed.mp stands
  cases there.symm.trans found
  exact ⟨index, _, stands, own, (sound.placed index _ stands).2.1.symm⟩

theorem addSecondEdge_standing {value : NodeRecord Nat K} :
    Script.Triple (fun page => Standing (K := K) known listed index value.id page ∧
        page.addingEdge = true) (addSecondEdge value index)
      (Sound known listed) fun _ _ => False := by
  have closes : Script.Triple (fun page => Standing (K := K) known listed index value.id page ∧
      page.addingEdge = true) (closeInfoWindow index)
      (fun page => Standing known listed index value.id page ∧ page.addingEdge = true)
      fun _ _ => False := by
    rintro page ⟨standing, adding⟩
    have result := closeInfoWindow_standing page standing
    obtain ⟨window, found⟩ := standing.1.exists_infoWindow
      (getElem?_placed.mp standing.2.choose_spec.1).1
    simp only [closeInfoWindow, found] at result ⊢
    exact ⟨result, adding⟩
  refine closes.andThen (.modify ?_)
  rintro page ⟨⟨sound, marker, stands, own⟩, adding⟩
  have shown := sound.add_loose fun content
      (member : content ∈ [.stairs value.id page.nodesForEdge index]) => by
    rw [List.mem_singleton.mp member]
    exact ⟨⟨marker, stands, own⟩, sound.adding adding⟩
  exact { shown with adding := nofun }

theorem click_sound (index : Nat) :
    Script.Triple (Sound (K := K) known listed) (click index) (Sound known listed)
      fun _ _ => False := by
  intro page sound
  unfold click
  cases found : (page.markers.take page.onMap)[index]? with
  | none => exact sound
  | some marker =>
    have stands : page.placed[index]? = some { marker with infoWindow := none } := by
      rw [placed, List.getElem?_map, found]
      rfl
    have own : marker.index = index := (sound.placed index _ stands).1
    have inside := (getElem?_placed.mp stands).1
    by_cases adding : page.addingEdge = true
    · simp only [if_pos adding, own]
      exact addSecondEdge_standing page ⟨⟨sound, _, stands, rfl⟩, adding⟩
    · obtain ⟨window, shown⟩ := sound.exists_infoWindow inside
      simp only [if_neg adding, own, openInfoWindow, shown]
      exact sound.set_infoWindow shown rfl fun _ => inside

theorem closeInfoWindow_sound :
    Script.Keeps (Sound (K := K) known listed) (closeInfoWindow index) := by
  intro page sound
  unfold closeInfoWindow
  cases found : page.infoWindows[index]? with
  | none => exact sound
  | some window => exact sound.set_infoWindow found rfl (by simp [InfoWindow.close])

theorem closeMarkerWindow_sound :
    Script.Keeps (Sound (K := K) known listed) (closeMarkerWindow index) := by
  intro page sound
  unfold closeMarkerWindow
  cases found : page.markers[index]? with
  | none => exact sound
  | some marker =>
    cases own : marker.infoWindow with
    | none => simpa [own] using sound
    | some window => simpa [own] using sound.set_marker found window.close nofun

theorem Sound.dismiss (sound : Sound known listed page) (place : Place) :
    Sound known listed (page.dismiss place) := by
  cases place with
  | infoWindow index => exact closeInfoWindow_sound.left sound
  | marker index => exact closeMarkerWindow_sound.left sound
  | loose position =>
    have extended : page.Extends (page.dismiss (.loose position)) := .of_placed rfl le_rfl id
    exact ⟨sound.lengths, sound.room, sound.placed, sound.details_extends extended, sound.closed,
      sound.hung_extends extended, fun content member =>
        sound.loose_extends extended content (List.mem_of_mem_eraseIdx member), sound.adding,
      sound.nodes, sound.edges⟩

end Clicks

section Rendering

variable {nodeOrder : Dictionary.Order String (NodeRecord Nat K)} {order : EntryOrder K}
  {view : Database K} {nodes : Option (Dictionary String (NodeRecord Nat K))}
  {edges : Option (Dictionary String (EdgeRecord Nat K))}

theorem Sound.newMap (sound : Sound known listed page) : Sound known listed page.newMap where
  lengths := by simpa [Page.newMap] using sound.lengths
  room := Nat.zero_le _
  placed index marker found := absurd (getElem?_placed.mp found).1 (Nat.not_lt_zero _)
  details index window found inside := absurd inside (Nat.not_lt_zero _)
  closed index window found beyond := by
    simp only [Page.newMap, List.getElem?_map, Option.map_eq_some_iff] at found
    obtain ⟨old, _, rfl⟩ := found
    rfl
  hung index marker window found own opened := by
    simp only [Page.newMap, List.getElem?_map, Option.map_eq_some_iff] at found
    obtain ⟨old, _, rfl⟩ := found
    obtain ⟨hanging, _, rfl⟩ := Option.map_eq_some_iff.mp own
    cases opened
  loose content member := by cases member
  adding := by simpa [Page.newMap] using sound.adding
  nodes := sound.nodes
  edges := sound.edges

theorem placed_assign (room : page.onMap ≤ page.markers.length) (marker : Marker K)
    (infoWindows : List (InfoWindow K)) :
    Page.placed { page with
      markers := assign page.markers page.onMap marker
      infoWindows := infoWindows
      onMap := page.onMap + 1 } = page.placed ++ [{ marker with infoWindow := none }] := by
  have front : (page.markers.take page.onMap).length = page.onMap := by simp [room]
  simp only [placed, assign]
  rw [List.take_append, front, List.take_of_length_le (by omega)]
  simp

theorem addMarker_sound {value : NodeRecord Nat K} {i : Nat} (seen : known value)
    (drawn : ∀ edges' ∈ edges, listed edges') :
    Script.Triple (fun page => Sound known listed page ∧ page.onMap = i)
      (addMarker order edges (value, i)) (fun page => Sound known listed page ∧ page.onMap = i + 1)
      fun _ => Sound known listed := by
  rintro page ⟨sound, rfl⟩
  cases edges with
  | none => exact sound
  | some edges =>
    have shorter : page.onMap ≤ page.infoWindows.length := sound.lengths ▸ sound.room
    set marker : Marker K :=
      ⟨value, page.onMap, (value.latitude, value.longitude), value.description, none⟩
    set detail : InfoWindow K := ⟨.detail value page.onMap (edgesFromNode order edges value), false⟩
    have same := placed_assign sound.room marker (assign page.infoWindows page.onMap detail)
    have extended : page.Extends { page with
        markers := assign page.markers page.onMap marker
        infoWindows := assign page.infoWindows page.onMap detail
        onMap := page.onMap + 1 } :=
      ⟨⟨_, same.symm⟩, by simp [length_assign sound.room], id⟩
    have count : page.placed.length = page.onMap := by simp [placed, sound.room]
    refine ⟨⟨?_, ?_, fun index other found => ?_, fun index window found inside => ?_,
      fun index window found beyond => ?_, fun index other window found own opened => ?_,
      sound.loose_extends extended, fun adding => ?_, sound.nodes, sound.edges⟩, rfl⟩
    · simp only [length_assign sound.room, length_assign shorter, sound.lengths]
    · simp [length_assign sound.room]
    · rw [same] at found
      by_cases before : index < page.onMap
      · rw [List.getElem?_append_left (by omega)] at found
        exact sound.placed index other found
      · obtain ⟨last, own⟩ := List.getElem?_eq_some_iff.mp found
        have here : index = page.onMap := by
          simp only [List.length_append, count, List.length_singleton] at last
          omega
        subst here
        rw [List.getElem_append_right (by omega)] at own
        simp only [count, Nat.sub_self, List.getElem_cons_zero] at own
        subst own
        exact ⟨rfl, rfl, seen⟩
    · simp only [getElem?_assign shorter] at found
      by_cases here : index = page.onMap
      · rw [if_pos here, Option.some.injEq] at found
        subst found here
        refine ⟨value, _, rfl, ⟨{ marker with infoWindow := none }, ?_, rfl⟩, seen, edges,
          drawn edges rfl, ((order.perm edges).filter _).map _⟩
        rw [same, List.getElem?_append_right (by omega), count]
        simp
      · rw [if_neg here] at found
        have inside : index < page.onMap := by
          have : index < page.onMap + 1 := inside
          omega
        exact sound.details_extends extended index window found inside
    · simp only [getElem?_assign shorter] at found
      have beyond : page.onMap + 1 ≤ index := beyond
      rw [if_neg (by omega)] at found
      exact sound.closed index window found (by omega)
    · simp only [getElem?_assign sound.room] at found
      by_cases here : index = page.onMap
      · rw [if_pos here, Option.some.injEq] at found
        subst found
        cases own
      · rw [if_neg here] at found
        exact sound.hung_extends extended index other window found own opened
    · obtain ⟨toNode, first, picked, visible, inside⟩ := sound.adding adding
      exact ⟨toNode, first, picked, visible, Nat.lt_of_lt_of_le inside extended.markers⟩

/-- The loop over the nodes; `i` counts the ones gone through. -/
theorem addMarkers_sound {listing : List (NodeRecord Nat K)}
    (seen : ∀ node ∈ listing, known node) (drawn : ∀ edges' ∈ edges, listed edges') :
    Script.Triple (fun page => Sound known listed page ∧ page.onMap = 0)
      (.forEach (addMarker order edges) listing.zipIdx)
      (fun page => Sound known listed page ∧ page.onMap = listing.length)
      fun _ => Sound known listed := by
  refine (Script.Triple.forEach (fun done page => Sound known listed page ∧ page.onMap = done.length)
    listing.zipIdx [] fun earlier item later split => ?_).imp ?_ fun _ _ holds => holds
  · have at_ : listing.zipIdx[earlier.length]? = some item := by
      rw [← List.nil_append listing.zipIdx, split]
      simp
    rw [List.getElem?_zipIdx, Option.map_eq_some_iff] at at_
    obtain ⟨value, found, rfl⟩ := at_
    rw [Nat.zero_add, List.length_append]
    exact addMarker_sound (seen value (List.mem_of_getElem? found)) drawn
  · rintro page ⟨sound, count⟩
    exact ⟨sound, by simpa using count⟩

theorem addLine_sound (value : EdgeRecord Nat K) :
    Script.Keeps (Sound known listed) (addLine view value) := by
  intro page sound
  unfold addLine
  cases view.nodes.lookup (nodeKey value.fromNode) with
  | none => exact sound
  | some fNode =>
    cases view.nodes.lookup (nodeKey value.toNode) with
    | none => exact sound
    | some tNode => exact { sound with }

theorem initPaths_sound : Script.Keeps (Sound known listed) (initPaths order view edges) := by
  cases edges with
  | none => exact .throw
  | some edges => exact .forEach fun value _ => addLine_sound value

theorem Sound.allow_dblclick (sound : Sound known listed page) :
    Sound known listed { page with dblclick := true } := by
  have extended : page.Extends { page with dblclick := true } := .of_placed rfl le_rfl fun _ => rfl
  exact ⟨sound.lengths, sound.room, sound.placed, sound.details_extends extended, sound.closed,
    sound.hung_extends extended, sound.loose_extends extended, sound.adding, sound.nodes,
    sound.edges⟩

theorem initMap_sound (seen : ∀ nodes' ∈ nodes, ∀ node ∈ nodes'.values, known node)
    (drawn : ∀ edges' ∈ edges, listed edges') :
    Script.Keeps (Sound known listed) (initMap nodeOrder order view nodes edges) := by
  have opened : Script.Keeps (Sound (K := K) known listed)
      (.modify fun page => { page with dblclick := true } : Script (Page K) Thrown) :=
    .modify fun _ sound => sound.allow_dblclick
  have lines : Script.Keeps (Sound known listed)
      (.reading fun page => if page.paths then initPaths order view edges else .modify id :
        Script (Page K) Thrown) := by
    refine .reading fun page _ => ?_
    split
    · exact initPaths_sound
    · exact .modify fun _ sound => sound
  have cleared : Script.Triple (Sound known listed) (.modify newMap : Script (Page K) Thrown)
      (fun page => Sound known listed page ∧ page.onMap = 0) fun _ => Sound known listed :=
    .modify fun page sound => ⟨sound.newMap, rfl⟩
  refine cleared.andThen (Script.Triple.andThen ?_ (opened.andThen lines))
  cases nodes with
  | none => exact .throw fun _ started => started.1
  | some nodes =>
    refine (addMarkers_sound (fun node member => ?_) drawn).imp (fun _ done => done.1)
      fun _ _ holds => holds
    exact seen nodes rfl node ((nodeOrder.perm nodes).mem_iff.mp member)

theorem snapshotValue_filled {Value : Type v} {stored read : Dictionary String Value}
    (found : snapshotValue stored = some read) : read.entries ≠ [] := by
  have same := snapshotValue_eq_some found
  subst same
  intro empty
  simp [snapshotValue, empty] at found

/-- What the client has is among what the page is said to have seen. -/
structure Informs (known : NodeRecord Nat K → Prop)
    (listed : Dictionary String (EdgeRecord Nat K) → Prop) (view : Database K) : Prop where
  nodes : ∀ node ∈ view.nodes.values, known node
  edges : listed view.edges

section Listeners

variable (informs : Informs known listed view)

include informs

theorem Informs.seen (nodes : Dictionary String (NodeRecord Nat K))
    (read : snapshotValue view.nodes = some nodes) :
    nodes.entries ≠ [] ∧ ∀ node ∈ nodes.values, known node := by
  refine ⟨snapshotValue_filled read, ?_⟩
  rw [snapshotValue_eq_some read]
  exact informs.nodes

theorem Informs.drawn (edges : Dictionary String (EdgeRecord Nat K))
    (read : snapshotValue view.edges = some edges) :
    edges.entries ≠ [] ∧ listed edges := by
  refine ⟨snapshotValue_filled read, ?_⟩
  rw [snapshotValue_eq_some read]
  exact informs.edges

theorem listen_sound (listener : Listener) :
    Script.Keeps (Sound known listed) (listen nodeOrder order view listener) := by
  cases listener with
  | base =>
    rw [listen]
    apply Script.Keeps.andThen
    · refine .modify fun page sound =>
        { sound with nodes := fun nodes read => ?_, edges := fun edges read => ?_ }
      · rcases Option.or_eq_some_iff.mp read with fresh | ⟨_, old⟩
        · exact informs.seen nodes fresh
        · exact sound.nodes nodes old
      · rcases Option.or_eq_some_iff.mp read with fresh | ⟨_, old⟩
        · exact informs.drawn edges fresh
        · exact sound.edges edges old
    · exact .reading fun page sound => initMap_sound (fun nodes read => (sound.nodes nodes read).2)
        fun edges read => (sound.edges edges read).2
  | index => exact .modify fun page sound => { sound with }
  | node => exact .modify fun page sound => { sound with nodes := informs.seen }
  | edge =>
    rw [listen]
    apply Script.Keeps.andThen
    · exact .modify fun page sound => { sound with edges := informs.drawn }
    · apply Script.Keeps.andThen
      · exact .reading fun _ _ => initPaths_sound
      · exact .modify fun page sound => { sound with }

end Listeners

end Rendering

theorem initial_sound : Sound known listed (initial : Page K) where
  lengths := rfl
  room := le_rfl
  placed index marker found := by simp [initial, Page.placed] at found
  details index window found := by simp [initial] at found
  closed index window found := by simp [initial] at found
  hung index marker window found := by simp [initial] at found
  loose content member := by cases member
  adding := nofun
  nodes nodes read := by cases read
  edges edges read := by cases read

/-- A detail window has its marker on the map. -/
theorem Current.standing {node : NodeRecord Nat K} {index : Nat} {edgesFromNode : List Nat}
    (sound : Sound known listed page)
    (current : Current known listed page (.detail node index edgesFromNode)) :
    Standing known listed index node.id page := by
  obtain ⟨⟨marker, stands, own⟩, _⟩ := current
  exact ⟨sound, marker, stands, by rw [own]⟩

section Runs

variable [Ring K] [SquareRoot K] {nodeOrder : Dictionary.Order String (NodeRecord Nat K)}
  {order : EntryOrder K} {view : Database K}

theorem Sound.press (sound : Sound known listed page) {content : Markup K}
    (current : Current known listed page content) (button : Button) :
    Sound known listed (page.press order view content button).1 := by
  cases content with
  | detail node index edgesFromNode =>
    have standing := current.standing sound
    cases button with
    | addEdge => exact addFirstEdge_standing.left standing nofun
    | deleteNode => exact deleteNodeBox_standing.left standing nofun
    | remove edge =>
      simp only [Page.press]
      split <;> exact sound
    | _ => exact sound
  | hint => cases button <;> exact sound
  | stairs fromNode nodesForEdge index =>
    cases nodesForEdge with
    | none => cases button <;> exact sound
    | some picked =>
      cases button with
      | saveEdge hasStairs =>
        have closed : Sound known listed (closeMarkerWindow picked.2 page).1 :=
          closeMarkerWindow_sound.left sound
        exact closed
      | _ => exact sound
  | deletion title node => cases button <;> exact sound
  | creation lat lng =>
    cases button with
    | saveNode desc => exact { sound with }
    | _ => exact sound

/-- The step lemma of the page. -/
theorem Sound.step (sound : Sound known listed page) (event : PageEvent K)
    (informs : ∀ listener, event = .value listener → Informs known listed view) :
    Sound known listed (page.step nodeOrder order view event).1 := by
  cases event with
  | value listener => exact (listen_sound (informs listener rfl) listener).left sound
  | click index => exact (click_sound index).left sound nofun
  | dblclick lat lng =>
    simp only [Page.step]
    split
    · rename_i allowed
      refine sound.add_loose fun content member => ?_
      rw [List.mem_singleton.mp member]
      exact allowed
    · exact sound
  | press place button =>
    simp only [Page.step]
    cases shown : page.window place with
    | none => exact sound
    | some content => exact sound.press (sound.current place shown) button
  | dismiss place => exact sound.dismiss place

/-- The node was stored like this when one of the listeners was called. -/
def Seen (events : List (Database K × PageEvent K)) (node : NodeRecord Nat K) : Prop :=
  ∃ event ∈ events, (∃ listener, event.2 = .value listener) ∧ node ∈ event.1.nodes.values

/-- These were the edges when one of the listeners was called. -/
def Listed (events : List (Database K × PageEvent K))
    (edges : Dictionary String (EdgeRecord Nat K)) : Prop :=
  ∃ event ∈ events, (∃ listener, event.2 = .value listener) ∧ event.1.edges = edges

/-- The run lemma of the page. -/
theorem Sound.follow {events : List (Database K × PageEvent K)}
    (informs : ∀ event ∈ events, ∀ listener, event.2 = .value listener →
      Informs known listed event.1) (sound : Sound known listed page) :
    Sound known listed (page.follow nodeOrder order events) := by
  induction events generalizing page with
  | nil => exact sound
  | cons event rest ih =>
    exact ih (fun later member => informs later (List.mem_cons_of_mem _ member))
      (sound.step event.2 (informs event List.mem_cons_self))

theorem run_seen (events : List (Database K × PageEvent K)) :
    Sound (Seen events) (Listed events) (run nodeOrder order events) :=
  initial_sound.follow fun event member listener spoken =>
    ⟨fun _ stored => ⟨event, member, ⟨listener, spoken⟩, stored⟩,
      event, member, ⟨listener, spoken⟩, rfl⟩

variable (nodeOrder order)

/-- Whatever is clicked, whenever and whatever the page is told about the store: the
clicks on the map and the buttons that open windows find all that they look up. An
open window is about a node that is on the map now: its details and edges as they were
seen, the title of the node that its deletion deletes, and as the other end of a new
edge a node that was seen. -/
theorem run_windows (events : List (Database K × PageEvent K)) (view : Database K) :
    let page := run nodeOrder order events
    (∀ index, (page.step nodeOrder order view (.click index)).2.thrown = none) ∧
      (∀ place, (page.step nodeOrder order view (.press place .addEdge)).2.thrown = none ∧
        (page.step nodeOrder order view (.press place .deleteNode)).2.thrown = none) ∧
      ∀ place content, page.window place = some content →
        Current (Seen events) (Listed events) page content := by
  intro page
  have sound : Sound (Seen events) (Listed events) page := run_seen events
  refine ⟨fun index => ?_, fun place => ?_, fun place content => sound.current place⟩
  · obtain ⟨_, clicked, _⟩ := (click_sound index).ends sound
    simp [step, clicked]
  · cases shown : page.window place with
    | none => simp [step, shown]
    | some content =>
      cases content with
      | detail node index edgesFromNode =>
        have standing := (sound.current place shown).standing sound
        obtain ⟨_, first, _⟩ := addFirstEdge_standing.ends standing
        obtain ⟨_, box, _⟩ := deleteNodeBox_standing.ends standing
        simp [step, shown, Page.press, first, box]
      | stairs fromNode nodesForEdge index => cases nodesForEdge <;> simp [step, shown, Page.press]
      | _ => simp [step, shown, Page.press]

end Runs

end Page

end AugmentedCampus
