import AugmentedCampus.Campus.Closest
import AugmentedCampus.Search.BinarySearch

/-! The view controller with all that its calls read and write. A call that would
trap ends in a failure of its own. -/
namespace AugmentedCampus

open Foundation

universe v

/-- What is taken from the location service and from the mathematical library. -/
structure Services (Fix K : Type v) where
  latitude : Fix → K
  longitude : Fix → K
  distance : Fix → K → K → K
  pi : K
  sin : K → K
  cos : K → K
  atan2 : K → K → K

/-- `locationManager.location` and `locationManager.heading?.magneticHeading`. -/
structure LocationManager (Fix K : Type v) where
  location : Option Fix
  heading : Option K

variable {Fix K : Type v} [Field K]

namespace Services

variable (services : Services Fix K)

def toRadians (degrees : K) : K := degrees * services.pi / 180.0

def calculateBearing (latitude longitude latitude' longitude' : K) : K :=
  let a := services.sin (services.toRadians longitude' - services.toRadians longitude) *
    services.cos (services.toRadians latitude')
  let b := services.cos (services.toRadians latitude) * services.sin (services.toRadians latitude') -
    services.sin (services.toRadians latitude) * services.cos (services.toRadians latitude') *
      services.cos (services.toRadians longitude' - services.toRadians longitude)
  services.atan2 a b

end Services

variable [LinearOrder K]

/-- The graph and the visiting orders at an unwind from the menu, and `selectedNavLoc`. -/
structure Selection (K : Type v) [DecidableEq K] where
  graph : DataManager Int K
  order : Dictionary.Order Int (NavigationNode Int K)
  visits : IterationOrder (NavigationLocation Int K)
  selectedNavLoc : NavigationNode Int K

/-- `tableView(_:didSelectRowAt:)`; without a location the last choice stands. -/
def Selection.didSelectRowAt [SquareRoot K] (services : Services Fix K)
    (manager : LocationManager Fix K) (row : Building Int K) (menu : Selection K) : Selection K :=
  match manager.location with
  | some loc => { menu with
      selectedNavLoc := DataManager.findClosestEntrance (services.latitude loc)
        (services.longitude loc) row.nodes }
  | none => menu

/-- The destination passed back is the entrance of the chosen building that is nearest. -/
theorem Selection.didSelectRowAt_nearest [SquareRoot K] {services : Services Fix K}
    {manager : LocationManager Fix K} {loc : Fix} (known : manager.location = some loc)
    {row : Building Int K} (occupied : row.nodes ≠ []) (menu : Selection K) :
    (menu.didSelectRowAt services manager row).selectedNavLoc ∈ row.nodes ∧
      ∀ entrance ∈ row.nodes,
        (DataManager.temp (services.latitude loc) (services.longitude loc)).cost
            (menu.didSelectRowAt services manager row).selectedNavLoc.toNavigationLocation ≤
          (DataManager.temp (services.latitude loc) (services.longitude loc)).cost
            entrance.toNavigationLocation := by
  rw [didSelectRowAt, known]
  exact DataManager.findClosestEntrance_least _ _ occupied

/-- The answer to a selection made at the location. -/
def Selection.navigation [SquareRoot K] (menu : Selection K) (services : Services Fix K)
    (location : Fix) (fuel : Nat) : Option (Navigation K) :=
  unwindToARViewController menu.order menu.visits fuel menu.graph (services.latitude location)
    (services.longitude location) menu.selectedNavLoc

/-- The fields of the controller, and what the arrow and the labels show. -/
structure ARViewController (K : Type v) [DecidableEq K] extends Navigation K where
  staticDistance : K
  destination : NavigationNode Int K
  arrowIsHidden : Bool
  eulerAngle : K
  destinationViewIsHidden : Bool
  destinationDistanceLabel : String

namespace ARViewController

def initial : ARViewController K where
  path := []
  pathFinding := false
  title := ""
  staticDistance := 0
  destination := ⟨⟨0, 0, "", -1⟩, .empty⟩
  arrowIsHidden := true
  eulerAngle := 0
  destinationViewIsHidden := true
  destinationDistanceLabel := "Destination:"

section Calls

variable (services : Services Fix K) (manager : LocationManager Fix K)

def updateArrow (controller : ARViewController K) : Except Halt (ARViewController K) :=
  if controller.pathFinding then
    let controller := { controller with arrowIsHidden := false }
    match manager.location, manager.heading with
    | some loc, some magneticHeading =>
      if controller.path.isEmpty then .ok { controller with arrowIsHidden := true }
      else do
        let heading := services.toRadians magneticHeading
        let nextNode ← orFail .trap controller.path.head?
        let bearing := services.calculateBearing (services.latitude loc) (services.longitude loc)
          nextNode.latitude nextNode.longitude
        let direction :=
          if heading < services.pi then heading + services.pi - bearing
          else heading - services.pi - bearing
        return { controller with eulerAngle := direction }
    | _, _ => .ok controller
  else .ok { controller with arrowIsHidden := true }

variable [FloorRing K]

/-- The text is in feet; `Int` of a number that is not negative is its floor. -/
def updateDistanceLabel (fromLocation : Fix) (controller : ARViewController K) :
    Except Halt (ARViewController K) := do
  let last ← orFail .trap controller.path.getLast?
  let destinationDistance :=
    ⌊rounded (services.distance fromLocation last.latitude last.longitude) * 3.28084⌋
  return { controller with
    destinationViewIsHidden := false
    destinationDistanceLabel := "Destination: " ++ toString destinationDistance ++ " feet" }

def followPath (loc : Fix) (controller : ARViewController K) : Except Halt (ARViewController K) := do
  let first ← orFail .trap controller.path.head?
  let controller :=
    if Near services.distance loc first then
      let path := controller.path.tail
      if path.isEmpty then
        { controller with
          path := path
          pathFinding := false
          title := "Arrived"
          destinationViewIsHidden := true }
      else { controller with path := path }
    else controller
  if controller.pathFinding then
    let controller ← controller.updateArrow services manager
    controller.updateDistanceLabel services loc
  else return controller

def didUpdateLocations (locations : List Fix) (controller : ARViewController K) :
    Except Halt (ARViewController K) :=
  if controller.pathFinding then
    match locations.getLast? with
    | some userLoc => controller.followPath services manager userLoc
    | none => .ok controller
  else .ok controller

/-- `none` stands for a segue from another controller than the menu. -/
def unwindToARViewController [SquareRoot K] (fuel : Nat) (source : Option (Selection K))
    (controller : ARViewController K) : Except Halt (ARViewController K) :=
  match source with
  | none => .ok controller
  | some menu => do
    let controller := { controller with
      destination := menu.selectedNavLoc
      title := menu.selectedNavLoc.name }
    let current ← orFail .trap manager.location
    let start := menu.graph.findClosest menu.order (services.latitude current)
      (services.longitude current) controller.destination
    let path ← orFail .outOfFuel (findPath (menu.graph.graphNode start) menu.visits fuel
      start.toNavigationLocation controller.destination.toNavigationLocation)
    let controller := { controller with path := path }
    let first ← orFail .trap controller.path.head?
    let controller := { controller with
      staticDistance := rounded (services.distance current first.latitude first.longitude)
      pathFinding := true }
    controller.updateArrow services manager

end Calls

def Following (controller : ARViewController K) : Prop :=
  controller.pathFinding = true ↔ controller.path ≠ []

theorem initial_following : (initial : ARViewController K).Following := by
  simp [Following, initial]

section Steps

variable {services : Services Fix K} {manager : LocationManager Fix K} {loc : Fix}
  {controller : ARViewController K} {allowed : Halt → Prop}

/-- The arrow is turned without touching the route, and `path[0]` is looked up only
where there is one. -/
theorem updateArrow_ends :
    Ends allowed (fun next => next.toNavigation = controller.toNavigation)
      (controller.updateArrow services manager) := by
  unfold updateArrow
  split
  · split
    · cases waiting : controller.path with
      | nil => simp [waiting, Ends]
      | cons first rest => simp [waiting, Ends, bind, Except.bind, pure, Except.pure]
    · rfl
  · rfl

variable [FloorRing K]

theorem updateDistanceLabel_ends (nonempty : controller.path ≠ []) :
    Ends allowed (fun next => next.toNavigation = controller.toNavigation)
      (controller.updateDistanceLabel services loc) := by
  unfold updateDistanceLabel
  rw [List.getLast?_eq_some_getLast nonempty]
  rfl

/-- While the route is followed, the arrow and the label are brought up to date. -/
private theorem refresh_ends (following : controller.Following) :
    Ends allowed (fun next => next.toNavigation = controller.toNavigation)
      (if controller.pathFinding then do
        let controller ← controller.updateArrow services manager
        controller.updateDistanceLabel services loc
      else return controller) := by
  by_cases finding : controller.pathFinding = true
  · rw [if_pos finding]
    refine updateArrow_ends.bind fun turned same => ?_
    have nonempty : turned.path ≠ [] := by
      rw [same]
      exact following.mp finding
    exact (updateDistanceLabel_ends nonempty).imp fun next unchanged => unchanged.trans same
  · rw [if_neg finding]
    rfl

theorem followPath_ends {first : NavigationLocation Int K} {rest : List (NavigationLocation Int K)}
    (finding : controller.pathFinding = true) (waiting : controller.path = first :: rest) :
    Ends allowed
      (fun next => AugmentedCampus.followPath services.distance controller.toNavigation loc =
        some next.toNavigation)
      (controller.followPath services manager loc) := by
  unfold followPath
  rw [waiting, List.head?_cons, orFail_some]
  refine (refresh_ends ?_).imp fun next same => ?_
  · by_cases near : Near services.distance loc first
    · cases rest with
      | nil => simp [Following, near]
      | cons second others => simp [Following, near, finding]
    · simp [Following, waiting, near, finding]
  · rw [same]
    by_cases near : Near services.distance loc first
    · cases rest with
      | nil => simp [AugmentedCampus.followPath, waiting, near]
      | cons second others => simp [AugmentedCampus.followPath, waiting, near]
    · simp [AugmentedCampus.followPath, waiting, near]

/-- A selection is answered as `Navigation` has it; the array that the search
returns is never empty. -/
theorem unwindToARViewController_ends [SquareRoot K] {fuel : Nat} {location : Fix}
    {heading : Option K} {menu : Selection K}
    (bounded : menu.navigation services location fuel = none → allowed .outOfFuel) :
    Ends allowed (fun next => menu.navigation services location fuel = some next.toNavigation)
      (controller.unwindToARViewController services ⟨some location, heading⟩ fuel (some menu)) := by
  refine Ends.bind (.orFail nofun) fun current known => ?_
  cases known
  refine Ends.bind (.orFail fun unsettled => ?_) fun path found => ?_
  · exact bounded (Option.map_eq_none_iff.mpr unsettled)
  refine Ends.bind (.orFail fun empty => ?_) fun first ahead => ?_
  · have head := findPath_head found
    exact absurd (empty.symm.trans head) nofun
  · refine updateArrow_ends.imp fun next same => ?_
    rw [same]
    exact Option.map_eq_some_iff.mpr ⟨path, found, rfl⟩

end Steps

end ARViewController

end AugmentedCampus
