import AugmentedCampus.Campus.RouteFollowing
import AugmentedCampus.Foundation.LastWrite

/-! What the title, the arrow and the distance label show, whatever comes from the menu
and from the location manager. -/
namespace AugmentedCampus

open Foundation

universe v

variable {Fix K : Type v} [Field K] [LinearOrder K]

namespace Event

/-- What the location manager knows while the event is handled. -/
def manager : Event Fix K → LocationManager Fix K
  | selection location heading _ => ⟨some location, heading⟩
  | didUpdateLocations manager _ => manager
  | didUpdateHeading manager => manager

/-- The events that call `updateArrow` while some of a route is left. -/
def turns : Event Fix K → Bool
  | didUpdateLocations _ locations => locations.getLast?.isSome
  | _ => true

end Event

namespace ARViewController

variable (services : Services Fix K)

/-- The angle of the arrow that points to a waypoint, with the place and the heading known. -/
def direction (loc : Fix) (magneticHeading : K) (nextNode : NavigationLocation Int K) : K :=
  let heading := services.toRadians magneticHeading
  let bearing := services.calculateBearing (services.latitude loc) (services.longitude loc)
    nextNode.latitude nextNode.longitude
  if heading < services.pi then heading + services.pi - bearing
  else heading - services.pi - bearing

theorem direction_cases (loc : Fix) (magneticHeading : K) (nextNode : NavigationLocation Int K) :
    let bearing := services.calculateBearing (services.latitude loc) (services.longitude loc)
      nextNode.latitude nextNode.longitude
    direction services loc magneticHeading nextNode =
        services.toRadians magneticHeading + services.pi - bearing ∨
      direction services loc magneticHeading nextNode =
        services.toRadians magneticHeading - services.pi - bearing := by
  by_cases ahead : services.toRadians magneticHeading < services.pi
  · exact Or.inl (if_pos ahead)
  · exact Or.inr (if_neg ahead)

/-- The angle that the manager gives for a route, where it knows enough to give one. -/
def aim (manager : LocationManager Fix K) (path : List (NavigationLocation Int K)) : Option K :=
  match manager.location, manager.heading, path with
  | some loc, some magneticHeading, nextNode :: _ =>
    some (direction services loc magneticHeading nextNode)
  | _, _, _ => none

@[simp] theorem aim_nil (manager : LocationManager Fix K) : aim services manager [] = none := by
  unfold aim
  split <;> simp_all

/-- With the arrow brought up to date. -/
def aimed (manager : LocationManager Fix K) (controller : ARViewController K) :
    ARViewController K :=
  { controller with
    arrowIsHidden := !controller.pathFinding
    eulerAngle := (aim services manager controller.path).getD controller.eulerAngle }

section Labels

variable [FloorRing K]

def distanceText (loc : Fix) (waypoint : NavigationLocation Int K) : String :=
  "Destination: " ++
    toString ⌊rounded (services.distance loc waypoint.latitude waypoint.longitude) * 3.28084⌋ ++
    " feet"

/-- With the distance to the waypoint on the label. -/
def labelled (loc : Fix) (waypoint : NavigationLocation Int K) (controller : ARViewController K) :
    ARViewController K :=
  { controller with
    destinationViewIsHidden := false
    destinationDistanceLabel := distanceText services loc waypoint }

end Labels

/-- The label as far as it is shown. -/
def label (controller : ARViewController K) : Option String :=
  if controller.destinationViewIsHidden then none else some controller.destinationDistanceLabel

/-- The angle that an event gives the arrow. -/
def writesAngle (event : Event Fix K) (after : ARViewController K) :
    Option K :=
  if event.turns then aim services event.manager after.path else none

/-- What an event makes of all that is shown. -/
inductive Draws [FloorRing K] (before : ARViewController K) :
    Event Fix K → ARViewController K → Prop
  | selected {location : Fix} {heading : Option K} {menu : Selection K} {staticDistance : K}
      {path : List (NavigationLocation Int K)} (some : path ≠ []) :
      Draws before (.selection location heading menu)
        (aimed services ⟨location, heading⟩ { before with
          destination := menu.selectedNavLoc
          title := menu.selectedNavLoc.name
          path := path
          staticDistance := staticDistance
          pathFinding := true })
  | arrived {manager : LocationManager Fix K} {locations : List Fix} {loc : Fix}
      (finding : before.pathFinding = true) (fix : locations.getLast? = some loc) :
      Draws before (.didUpdateLocations manager locations) { before with
        path := []
        pathFinding := false
        title := "Arrived"
        destinationViewIsHidden := true }
  | followed {manager : LocationManager Fix K} {locations : List Fix} {loc : Fix}
      {path : List (NavigationLocation Int K)} {waypoint : NavigationLocation Int K}
      (finding : before.pathFinding = true) (fix : locations.getLast? = some loc)
      (last : path.getLast? = some waypoint) :
      Draws before (.didUpdateLocations manager locations)
        (labelled services loc waypoint (aimed services manager { before with path := path }))
  | ignored {manager : LocationManager Fix K} {locations : List Fix}
      (idle : before.path = [] ∧ before.pathFinding = false ∨ locations.getLast? = none) :
      Draws before (.didUpdateLocations manager locations) before
  | turned {manager : LocationManager Fix K} :
      Draws before (.didUpdateHeading manager) (aimed services manager before)

section Steps

variable {services} {manager : LocationManager Fix K} {loc : Fix}
  {controller before after : ARViewController K} {event : Event Fix K} {allowed : Halt → Prop}

theorem updateArrow_eq (following : controller.Following) :
    controller.updateArrow services manager = .ok (controller.aimed services manager) := by
  unfold updateArrow aimed
  by_cases finding : controller.pathFinding = true
  · obtain ⟨first, rest, waiting⟩ := List.exists_cons_of_ne_nil (following.mp finding)
    rw [if_pos finding]
    rcases manager with ⟨_ | place, _ | heading⟩ <;>
      simp [finding, waiting, aim, direction, bind, Except.bind, pure, Except.pure]
  · have empty : controller.path = [] := not_not.mp (mt following.mpr finding)
    rw [if_neg finding]
    simp [Bool.not_eq_true _ ▸ finding, empty]

variable [FloorRing K]

theorem updateDistanceLabel_eq {waypoint : NavigationLocation Int K}
    (last : controller.path.getLast? = some waypoint) :
    controller.updateDistanceLabel services loc =
      .ok (controller.labelled services loc waypoint) := by
  unfold updateDistanceLabel
  rw [last]
  rfl

/-- While some of the route is left, the arrow and the label are brought up to date. -/
private theorem refresh_draws {locations : List Fix} {next : ARViewController K}
    (finding : controller.pathFinding = true) (fix : locations.getLast? = some loc)
    (same : next = { controller with path := next.path }) (nonempty : next.path ≠ []) :
    Ends allowed (Draws services controller (.didUpdateLocations manager locations))
      (if next.pathFinding then do
        let next ← next.updateArrow services manager
        next.updateDistanceLabel services loc
      else return next) := by
  have last := List.getLast?_eq_some_getLast nonempty
  have finds : next.pathFinding = true := by rw [same, finding]
  rw [if_pos finds, updateArrow_eq (by simp [Following, nonempty, finds])]
  have label := @updateDistanceLabel_eq _ _ _ _ services loc (aimed services manager next) _ _ last
  have followed : Draws services controller (.didUpdateLocations manager locations) _ :=
    .followed finding fix last
  rw [← same] at followed
  simpa [bind, Except.bind, label, Ends] using followed

theorem followPath_draws {locations : List Fix} (following : controller.Following)
    (finding : controller.pathFinding = true) (fix : locations.getLast? = some loc) :
    Ends allowed (Draws services controller (.didUpdateLocations manager locations))
      (controller.followPath services manager loc) := by
  obtain ⟨first, rest, waiting⟩ := List.exists_cons_of_ne_nil (following.mp finding)
  unfold followPath
  rw [waiting, List.head?_cons, orFail_some]
  by_cases near : Near services.distance loc first
  · cases rest with
    | nil =>
      have arrived : Draws services controller (.didUpdateLocations manager locations) _ :=
        .arrived finding fix
      simpa [bind, Except.bind, near, pure, Except.pure, Ends] using arrived
    | cons second others =>
      exact refresh_draws finding fix (by simp [near]) (by simp [near])
  · exact refresh_draws finding fix (by simp [near]) (by simp [near, waiting])

theorem didUpdateLocations_draws {locations : List Fix} (following : controller.Following) :
    Ends allowed (Draws services controller (.didUpdateLocations manager locations))
      (controller.didUpdateLocations services manager locations) := by
  unfold didUpdateLocations
  by_cases finding : controller.pathFinding = true
  · rw [if_pos finding]
    cases fix : locations.getLast? with
    | none => exact .ignored (Or.inr fix)
    | some userLoc => exact followPath_draws following finding fix
  · have empty : controller.path = [] := not_not.mp (mt following.mpr finding)
    rw [if_neg finding]
    exact .ignored (Or.inl ⟨empty, Bool.eq_false_of_not_eq_true finding⟩)

theorem updateArrow_draws (following : controller.Following) :
    Ends allowed (Draws services controller (.didUpdateHeading manager))
      (controller.updateArrow services manager) := by
  rw [updateArrow_eq following]
  exact .turned

theorem unwindToARViewController_draws [SquareRoot K] {fuel : Nat} {location : Fix}
    {heading : Option K} {menu : Selection K} :
    Ends (· = .outOfFuel) (Draws services controller (.selection location heading menu))
      (controller.unwindToARViewController services ⟨some location, heading⟩ fuel (some menu)) := by
  refine Ends.bind (.orFail nofun) fun current known => ?_
  cases known
  refine Ends.bind (.orFail fun _ => rfl) fun path found => ?_
  refine Ends.bind (.orFail fun empty => ?_) fun first ahead => ?_
  · have head := findPath_head found
    exact absurd (empty.symm.trans head) nofun
  · have some : path ≠ [] := by
      rintro rfl
      exact absurd ahead nofun
    rw [updateArrow_eq (by simp [Following, some])]
    exact .selected some

/-- What each event draws. -/
theorem handle_draws [SquareRoot K] {fuel : Nat} (following : controller.Following)
    (event : Event Fix K) :
    Ends (· = .outOfFuel) (Draws services controller event)
      (controller.handle services fuel event) := by
  cases event with
  | selection location heading menu => exact unwindToARViewController_draws
  | didUpdateLocations manager locations => exact didUpdateLocations_draws following
  | didUpdateHeading manager => exact updateArrow_draws following

/-- Between selections the title changes on arrival alone. -/
theorem Draws.title (draws : Draws services before event after)
    (unselected : event.isSelection = false) :
    after.destination = before.destination ∧
      (after.title = before.title ∧ after.pathFinding = before.pathFinding ∨
        before.pathFinding = true ∧ after.title = "Arrived" ∧ after.pathFinding = false) := by
  cases draws with
  | selected => exact nomatch unselected
  | arrived finding fix => exact ⟨rfl, Or.inr ⟨finding, rfl, rfl⟩⟩
  | followed | ignored | turned => exact ⟨rfl, Or.inl ⟨rfl, rfl⟩⟩

end Steps

section Runs

variable [FloorRing K] [SquareRoot K] {services} {fuel : Nat} {events : List (Event Fix K)}
  {event : Event Fix K} {before after controller : ARViewController K}

theorem run_settles (services : Services Fix K) (events : List (Event Fix K)) :
    ∃ bound controller, ∀ fuel, bound ≤ fuel → run services fuel events = .ok controller :=
  foldlM_settles (fun _ event following => handle_settles following event) events initial_following

theorem following_of_run (handled : run services fuel events = .ok before) : before.Following := by
  have following : Ends (· = .outOfFuel) Following (run services fuel events) := run_following
  rwa [handled] at following

/-- What holds of every controller that is reached holds unless the iterations run out. -/
theorem run_ends {property : ARViewController K → Prop}
    (reached : ∀ controller, run services fuel events = .ok controller → property controller) :
    Ends (· = .outOfFuel) property (run services fuel events) := by
  have following : Ends (· = .outOfFuel) Following (run services fuel events) := run_following
  cases finished : run services fuel events with
  | error reason => rwa [finished] at following
  | ok controller => exact reached controller finished

theorem run_draws (handled : run services fuel events = .ok before)
    (reached : before.handle services fuel event = .ok after) :
    Draws services before event after := by
  have draws : Ends (· = .outOfFuel) (Draws services before event)
      (before.handle services fuel event) := handle_draws (following_of_run handled) event
  rwa [reached] at draws

/-- The title is that of the last selection until the route is given up. -/
structure Titled (events : List (Event Fix K)) (controller : ARViewController K) : Prop where
  unselected : (∀ event ∈ events, event.isSelection = false) →
    controller.title = "" ∧ controller.pathFinding = false
  selected : ∀ earlier location heading menu later,
    events = earlier ++ .selection location heading menu :: later →
    (∀ event ∈ later, event.isSelection = false) →
      controller.destination = menu.selectedNavLoc ∧
      controller.title = if controller.pathFinding then menu.selectedNavLoc.name else "Arrived"

theorem run_titled (finished : run services fuel events = .ok controller) :
    Titled events controller := by
  refine foldlM_past ⟨fun _ => ⟨rfl, rfl⟩, fun _ _ _ _ _ cut => by simp at cut⟩ ?_ finished
  intro items before event after handled titled reached
  have draws := run_draws handled reached
  constructor
  · intro none
    obtain ⟨title, stopped⟩ := titled.unselected fun other member =>
      none other (List.mem_append_left _ member)
    have last := none event (List.mem_append_right _ List.mem_cons_self)
    rcases (draws.title last).2 with ⟨same, kept⟩ | ⟨finding, _, _⟩
    · exact ⟨same.trans title, kept.trans stopped⟩
    · exact absurd (stopped.symm.trans finding) nofun
  · intro earlier location heading menu later cut none
    rcases concat_eq_append_cons cut with ⟨rfl, rfl, rfl⟩ | ⟨rest, rfl, rfl⟩
    · cases draws
      exact ⟨rfl, rfl⟩
    · obtain ⟨destination, title⟩ := titled.selected _ _ _ _ _ rfl fun other member =>
        none other (List.mem_append_left _ member)
      have last := none event (List.mem_append_right _ List.mem_cons_self)
      obtain ⟨sameDestination, changes⟩ := draws.title last
      refine ⟨sameDestination.trans destination, ?_⟩
      rcases changes with ⟨same, kept⟩ | ⟨_, arrived, stopped⟩
      · rw [same, kept, title]
      · rw [arrived, stopped]
        rfl

theorem angle_keeps (handled : run services fuel events = .ok before)
    (reached : before.handle services fuel event = .ok after) :
    after.eulerAngle = (writesAngle services event after).getD before.eulerAngle := by
  cases run_draws handled reached with
  | selected some => rfl
  | arrived finding fix => simp [writesAngle]
  | followed finding fix last =>
    simp [writesAngle, Event.turns, fix, labelled, aimed, Event.manager]
  | ignored idle =>
    rcases idle with ⟨empty, stopped⟩ | unknown
    · simp [writesAngle, empty]
    · simp [writesAngle, Event.turns, unknown]
  | turned => rfl

/-- The arrow keeps the angle for the waypoint that was first at the last event to write it. -/
theorem run_aimed {earlier later : List (Event Fix K)} {loc : Fix} {magneticHeading : K}
    (finished : run services fuel (earlier ++ event :: later) = .ok controller)
    (turns : event.turns = true) (known : event.manager = ⟨some loc, some magneticHeading⟩)
    (unwritten : Unwritten (fun middle => run services fuel (earlier ++ event :: middle))
      (writesAngle services) later)
    (reached : run services fuel (earlier ++ [event]) = .ok after)
    (finding : after.pathFinding = true) :
    ∃ nextNode, after.path.head? = some nextNode ∧
      controller.eulerAngle = direction services loc magneticHeading nextNode := by
  obtain ⟨nextNode, rest, waiting⟩ :=
    List.exists_cons_of_ne_nil ((following_of_run reached).mp finding)
  refine ⟨nextNode, by rw [waiting, List.head?_cons], ?_⟩
  obtain ⟨before, handled, last⟩ := foldlM_concat_eq_ok.mp reached
  have written : writesAngle services event after =
      some (direction services loc magneticHeading nextNode) := by
    simp [writesAngle, turns, known, waiting, aim]
  have turned := angle_keeps handled last
  rw [written, Option.getD_some] at turned
  rw [← turned]
  have resumed : (fun middle => run services fuel (earlier ++ event :: middle)) =
      fun middle => middle.foldlM (handle services fuel) after := by
    funext middle
    rw [← List.singleton_append, ← List.append_assoc]
    exact foldlM_resume reached middle
  have remaining := (congrFun resumed later).symm.trans finished
  rw [resumed] at unwritten
  have kept : Unwritten _ (writesAngle services) later ∧
      controller.eulerAngle = after.eulerAngle ∨
      LastWrite _ (writesAngle services) later controller.eulerAngle :=
    foldlM_register (fun items before other after left next => angle_keeps
      (foldlM_append_eq_ok.mpr ⟨_, reached, left⟩) next) remaining
  rcases kept with ⟨_, same⟩ | ⟨first, writer, others, state, cut, left, wrote, _⟩
  · exact same
  · cases (unwritten first writer others state cut left).symm.trans wrote

end Runs

end ARViewController

end AugmentedCampus
