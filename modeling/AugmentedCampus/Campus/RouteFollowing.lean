import AugmentedCampus.Campus.ViewController
import Mathlib.Data.List.Forall2

/-! The view controller as the menu and the location manager drive it: selections,
location fixes and headings in any order. -/
namespace AugmentedCampus

open Foundation

universe v

variable {Fix K : Type v} [Field K] [LinearOrder K]

/-- What the menu and the location manager bring; at a selection the location is known. -/
inductive Event (Fix K : Type v) [DecidableEq K] where
  | selection (location : Fix) (heading : Option K) (menu : Selection K)
  | didUpdateLocations (manager : LocationManager Fix K) (locations : List Fix)
  | didUpdateHeading (manager : LocationManager Fix K)

namespace Event

def isSelection : Event Fix K → Bool
  | selection .. => true
  | _ => false

def userLoc : Event Fix K → Option Fix
  | didUpdateLocations _ locations => locations.getLast?
  | _ => none

end Event

/-- `findPath(to:)` returns the route for a selection made at the location. -/
def Selection.Route [SquareRoot K] (menu : Selection K) (services : Services Fix K)
    (location : Fix) (route : List (NavigationLocation Int K)) : Prop :=
  let start := menu.graph.findClosest menu.order (services.latitude location)
    (services.longitude location) menu.selectedNavLoc
  Returns (menu.graph.graphNode start) menu.visits start.toNavigationLocation
    menu.selectedNavLoc.toNavigationLocation route

namespace ARViewController

section Runs

variable [FloorRing K] [SquareRoot K] (services : Services Fix K)

def handle (fuel : Nat) (controller : ARViewController K) :
    Event Fix K → Except Halt (ARViewController K)
  | .selection location heading menu =>
    controller.unwindToARViewController services ⟨some location, heading⟩ fuel (some menu)
  | .didUpdateLocations manager locations => controller.didUpdateLocations services manager locations
  | .didUpdateHeading manager => controller.updateArrow services manager

/-- The events one after the other, from the state after `viewDidLoad`. -/
def run (fuel : Nat) (events : List (Event Fix K)) : Except Halt (ARViewController K) :=
  events.foldlM (handle services fuel) initial

/-- What an event makes of the route that is followed. -/
inductive Progress (before : ARViewController K) : Event Fix K → ARViewController K → Prop
  | selected {location : Fix} {heading : Option K} {menu : Selection K} {after : ARViewController K}
      (returned : menu.Route services location after.path) (finding : after.pathFinding = true) :
      Progress before (.selection location heading menu) after
  | removed {event : Event Fix K} {loc : Fix} {first : NavigationLocation Int K}
      {after : ARViewController K} (follows : event.isSelection = false)
      (fix : event.userLoc = some loc) (near : Near services.distance loc first)
      (waiting : before.path = first :: after.path)
      (finding : after.pathFinding = !after.path.isEmpty) : Progress before event after
  | kept {event : Event Fix K} {after : ARViewController K} (follows : event.isSelection = false)
      (far : ∀ loc first, event.userLoc = some loc → before.path.head? = some first →
        ¬ Near services.distance loc first)
      (path : after.path = before.path) (finding : after.pathFinding = before.pathFinding) :
      Progress before event after

end Runs

section Steps

variable {services : Services Fix K} {manager : LocationManager Fix K}
  {controller : ARViewController K} {allowed : Halt → Prop} [FloorRing K] [SquareRoot K]

theorem didUpdateLocations_progress {locations : List Fix}
    (following : controller.Following) :
    Ends allowed (Progress services controller (.didUpdateLocations manager locations))
      (controller.didUpdateLocations services manager locations) := by
  unfold didUpdateLocations
  by_cases finding : controller.pathFinding = true
  · rw [if_pos finding]
    cases fix : locations.getLast? with
    | none =>
      refine .kept rfl (fun loc first reported => ?_) rfl rfl
      exact absurd (fix.symm.trans reported) nofun
    | some userLoc =>
      obtain ⟨first, rest, waiting⟩ := List.exists_cons_of_ne_nil (following.mp finding)
      refine (followPath_ends finding waiting).imp fun next followed => ?_
      have updated : AugmentedCampus.didUpdateLocations services.distance controller.toNavigation
          userLoc = some next.toNavigation := by
        rwa [AugmentedCampus.didUpdateLocations, if_pos finding]
      rcases didUpdateLocations_cases updated with ⟨same, far⟩ | ⟨_, first, near, steps, goes⟩
      · refine .kept rfl (fun loc first reported ahead => ?_) (by rw [same]) (by rw [same])
        cases fix.symm.trans reported
        exact far finding first ahead
      · exact .removed rfl fix near steps goes
  · rw [if_neg finding]
    refine .kept rfl (fun loc first reported ahead => ?_) rfl rfl
    have empty : controller.path = [] := not_not.mp (mt following.mpr finding)
    rw [empty] at ahead
    cases ahead

theorem unwindToARViewController_progress {fuel : Nat} {location : Fix}
    {heading : Option K} {menu : Selection K}
    (bounded : menu.navigation services location fuel = none → allowed .outOfFuel) :
    Ends allowed (Progress services controller (.selection location heading menu))
      (controller.unwindToARViewController services ⟨some location, heading⟩ fuel (some menu)) := by
  refine (unwindToARViewController_ends bounded).imp fun next answered => ?_
  obtain ⟨path, found, same⟩ := Option.map_eq_some_iff.mp answered
  refine .selected ?_ (by rw [← same])
  rw [← same]
  exact .of_findPath found

variable {fuel : Nat} {event : Event Fix K} {events : List (Event Fix K)}
  {before after last : ARViewController K}

theorem updateArrow_progress :
    Ends allowed (Progress services controller (.didUpdateHeading manager))
      (controller.updateArrow services manager) :=
  updateArrow_ends.imp fun next same =>
    .kept rfl (fun _ _ reported => nomatch reported) (by rw [same]) (by rw [same])

/-- No event traps, and each makes progress of one of the three kinds. -/
theorem handle_ends (following : controller.Following) (event : Event Fix K) :
    Ends (· = .outOfFuel) (Progress services controller event)
      (controller.handle services fuel event) := by
  cases event with
  | selection location heading menu => exact unwindToARViewController_progress fun _ => rfl
  | didUpdateLocations manager locations => exact didUpdateLocations_progress following
  | didUpdateHeading manager => exact updateArrow_progress

theorem handle_progress (following : before.Following)
    (handled : before.handle services fuel event = .ok after) :
    Progress services before event after := by
  have ends : Ends (· = .outOfFuel) (Progress services before event)
      (before.handle services fuel event) := handle_ends following event
  rwa [handled] at ends

theorem Progress.following (progress : Progress services before event after)
    (following : before.Following) : after.Following := by
  cases progress with
  | selected returned finding => simp [Following, finding, returned.ne_nil]
  | removed follows fix near waiting finding => simp [Following, finding]
  | kept follows far path finding => simpa [Following, finding, path] using following

/-- With iterations enough for the search of a selection, every event is handled. -/
theorem handle_settles (following : controller.Following) (event : Event Fix K) :
    ∃ bound next, next.Following ∧
      ∀ fuel, bound ≤ fuel → controller.handle services fuel event = .ok next := by
  have never (bound : Nat)
      (ends : Ends (fun _ => False) (Progress services controller event)
        (controller.handle services bound event)) :
      ∃ next, controller.handle services bound event = .ok next ∧ next.Following := by
    obtain ⟨next, handled, progress⟩ := ends.exists_ok
    exact ⟨next, handled, progress.following following⟩
  cases event with
  | selection location heading menu =>
    obtain ⟨route, bound, settled⟩ := menu.graph.exists_route menu.visits
      (menu.graph.findClosest menu.order (services.latitude location) (services.longitude location)
        menu.selectedNavLoc) menu.selectedNavLoc.toNavigationLocation
    obtain ⟨next, handled, follows⟩ := never bound
      (unwindToARViewController_progress fun unsettled => by
        simp [Selection.navigation, AugmentedCampus.unwindToARViewController,
          settled bound (le_refl _)] at unsettled)
    refine ⟨bound, next, follows, fun fuel enough => ?_⟩
    -- The bound matters to the search alone, and that is settled.
    rw [← handled]
    simp only [handle, unwindToARViewController, orFail_some, settled fuel enough,
      settled bound (le_refl _), bind, Except.bind]
  | didUpdateLocations manager locations =>
    obtain ⟨next, handled, follows⟩ := never 0 (didUpdateLocations_progress following)
    exact ⟨0, next, follows, fun _ _ => handled⟩
  | didUpdateHeading manager =>
    obtain ⟨next, handled, follows⟩ := never 0 updateArrow_progress
    exact ⟨0, next, follows, fun _ _ => handled⟩

theorem run_following : Ends (· = .outOfFuel) Following (run services fuel events) := by
  refine Ends.foldlM (fun controller event following => ?_) events initial_following
  exact (handle_ends following event).imp fun next progress => progress.following following

/-- Until the next selection every fix takes at most the first waypoint off the route,
and only one that it is near. -/
theorem foldlM_follows (unselected : ∀ event ∈ events, event.isSelection = false)
    (following : controller.Following)
    (finished : events.foldlM (handle services fuel) controller = .ok last) :
    ∃ removed, controller.path = removed ++ last.path ∧
      List.SublistForall₂ (fun waypoint loc => Near services.distance loc waypoint) removed
        (events.filterMap Event.userLoc) := by
  induction events generalizing controller with
  | nil =>
    cases finished
    exact ⟨[], rfl, .nil⟩
  | cons event rest ih =>
    obtain ⟨next, handled, remaining⟩ := foldlM_cons_eq_ok.mp finished
    have progress := handle_progress following handled
    obtain ⟨removed, route, matched⟩ := ih
      (fun other member => unselected other (List.mem_cons_of_mem _ member))
      (progress.following following) remaining
    cases progress with
    | selected returned finding => exact absurd (unselected _ List.mem_cons_self) nofun
    | @removed _ loc first _ follows fix near waiting finding =>
      refine ⟨first :: removed, by rw [waiting, route, List.cons_append], ?_⟩
      rw [List.filterMap_cons_some fix]
      exact .cons near matched
    | kept follows far path finding =>
      refine ⟨removed, path.symm.trans route, ?_⟩
      cases fix : event.userLoc with
      | none => rwa [List.filterMap_cons_none fix]
      | some loc =>
        rw [List.filterMap_cons_some fix]
        exact .cons_right matched

/-- The state after a selection has the route that was found, and the events since
then have used up the part of it that is missing. -/
theorem run_selected {earlier later : List (Event Fix K)} {location : Fix} {heading : Option K}
    {menu : Selection K}
    (finished : run services fuel (earlier ++ .selection location heading menu :: later) = .ok last)
    (unselected : ∀ event ∈ later, event.isSelection = false) :
    ∃ route removed, menu.Route services location route ∧ route = removed ++ last.path ∧
      List.SublistForall₂ (fun waypoint loc => Near services.distance loc waypoint) removed
        (later.filterMap Event.userLoc) := by
  obtain ⟨before, started, remaining⟩ := foldlM_append_eq_ok.mp finished
  obtain ⟨after, handled, followed⟩ := foldlM_cons_eq_ok.mp remaining
  have following : Ends (· = .outOfFuel) Following (run services fuel earlier) := run_following
  rw [run, started] at following
  have progress := handle_progress following handled
  obtain ⟨removed, used, matched⟩ := foldlM_follows unselected (progress.following following) followed
  cases progress with
  | selected returned finding => exact ⟨after.path, removed, returned, used, matched⟩
  | removed follows => exact nomatch follows
  | kept follows => exact nomatch follows

theorem run_unselected (finished : run services fuel events = .ok last)
    (unselected : ∀ event ∈ events, event.isSelection = false) : last.path = [] := by
  obtain ⟨removed, none, _⟩ := foldlM_follows unselected initial_following finished
  exact (List.append_eq_nil_iff.mp none.symm).2

/-- The route is given up on the fix that takes its last waypoint and on no other event. -/
theorem Progress.stops_iff (progress : Progress services before event after)
    (following : before.Following) :
    before.pathFinding = true ∧ after.pathFinding = false ↔
      ∃ loc waypoint, event.userLoc = some loc ∧ Near services.distance loc waypoint ∧
        before.path = [waypoint] ∧ after.path = [] := by
  cases progress with
  | selected returned finding =>
    simp [finding, Event.userLoc]
  | @removed _ loc first _ follows fix near waiting finding =>
    constructor
    · rintro ⟨_, stopped⟩
      have empty : after.path = [] := by simpa [finding] using stopped
      exact ⟨loc, first, fix, near, by rw [waiting, empty], empty⟩
    · rintro ⟨_, _, _, _, _, empty⟩
      exact ⟨following.mpr (by simp [waiting]), by simp [finding, empty]⟩
  | kept follows far path finding =>
    constructor
    · rintro ⟨still, stopped⟩
      exact absurd (still.symm.trans (finding.symm.trans stopped)) nofun
    · rintro ⟨loc, waypoint, fix, near, single, _⟩
      exact absurd near (far loc waypoint fix (by rw [single]; rfl))

/-- Between selections the path changes only by the waypoint that a fix is near. -/
theorem Progress.takes_first (progress : Progress services before event after)
    (unselected : event.isSelection = false) (changed : after.path ≠ before.path) :
    ∃ loc waypoint, event.userLoc = some loc ∧ Near services.distance loc waypoint ∧
      before.path = waypoint :: after.path := by
  cases progress with
  | selected => exact nomatch unselected
  | @removed _ loc first _ follows fix near waiting finding =>
    exact ⟨loc, first, fix, near, waiting⟩
  | kept follows far path => exact absurd path changed

end Steps

variable [FloorRing K] [SquareRoot K]

/-- Every sequence of events is handled, without a trap. While a route is followed
some of it is left; what is left ends the route of the last selection, and what is
gone was taken off its front, each waypoint by a fix of its own within the
threshold. The route is given up on the fix that takes the last one. -/
theorem run_follows_route (services : Services Fix K) (events : List (Event Fix K)) :
    (∃ bound controller, ∀ fuel, bound ≤ fuel → run services fuel events = .ok controller) ∧
      ∀ fuel, run services fuel events ≠ .error .trap ∧
        ∀ controller, run services fuel events = .ok controller →
          (controller.pathFinding = true → controller.path ≠ []) ∧
          ((∀ event ∈ events, event.isSelection = false) → controller.path = []) ∧
          (∀ earlier location heading (menu : Selection K) later,
            events = earlier ++ .selection location heading menu :: later →
            (∀ event ∈ later, event.isSelection = false) →
              ∃ route removed, menu.Route services location route ∧
                route = removed ++ controller.path ∧
                List.SublistForall₂ (fun waypoint loc => Near services.distance loc waypoint)
                  removed (later.filterMap Event.userLoc)) ∧
          ∀ event next, controller.handle services fuel event = .ok next →
            (event.isSelection = false → next.path ≠ controller.path →
              ∃ loc waypoint, event.userLoc = some loc ∧ Near services.distance loc waypoint ∧
                controller.path = waypoint :: next.path) ∧
            (controller.pathFinding = true ∧ next.pathFinding = false ↔
              ∃ loc waypoint, event.userLoc = some loc ∧ Near services.distance loc waypoint ∧
                controller.path = [waypoint] ∧ next.path = []) := by
  constructor
  · exact foldlM_settles (fun controller event following => handle_settles following event) events
      initial_following
  · intro fuel
    have ends : Ends (· = .outOfFuel) Following (run services fuel events) := run_following
    refine ⟨ends.ne_error nofun, fun controller finished => ?_⟩
    have following : controller.Following := by rwa [finished] at ends
    refine ⟨following.mp, run_unselected finished, ?_, fun event next handled => ?_⟩
    · rintro earlier location heading menu later rfl unselected
      exact run_selected finished unselected
    · have progress := handle_progress following handled
      exact ⟨progress.takes_first, progress.stops_iff following⟩

end ARViewController

section Examples

/-- Streets for the distance; the arrow points nowhere in particular. -/
def streetServices : Services (ℚ × ℚ) ℚ where
  latitude := Prod.fst
  longitude := Prod.snd
  distance := streetDistance
  pi := 22 / 7
  sin _ := 0
  cos _ := 1
  atan2 _ _ := 0

def dardenRow : Selection ℚ :=
  Selection.didSelectRowAt streetServices ⟨some (-1 / 100, 0), none⟩ ⟨[dardenEntrance], "Darden"⟩
    ⟨entrances, .asStored, listOrder _, DataManager.temp 0 0⟩

def walkToDarden : List (Event (ℚ × ℚ) ℚ) :=
  [.selection (-1 / 100, 0) none dardenRow,
    .didUpdateLocations ⟨some (0, 0), some 90⟩ [(1, 1), (0, 0)],
    .didUpdateHeading ⟨some (1, 1), some 45⟩,
    .didUpdateLocations ⟨some (3, 4), none⟩ [(3, 4)]]

example : (ARViewController.run streetServices 3 walkToDarden).toOption.map
    ARViewController.toNavigation = some ⟨[], false, "Arrived"⟩ := by
  decide +kernel

end Examples

end AugmentedCampus
