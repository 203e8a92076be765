import AugmentedCampus.Campus.Display
import AugmentedCampus.Foundation.Greedy

/-! When the app announces arrival: exactly when the fixes pass the waypoints in order. -/
namespace AugmentedCampus

open Foundation

universe v

variable {Fix K : Type v} [Field K] [LinearOrder K] [FloorRing K]

/-- The fix is within the threshold of the waypoint. -/
abbrev Services.Passes (services : Services Fix K) (waypoint : NavigationLocation Int K)
    (loc : Fix) : Prop :=
  Near services.distance loc waypoint

instance (services : Services Fix K) : DecidableRel services.Passes :=
  fun _ _ => inferInstanceAs (Decidable (Near _ _ _))

namespace ARViewController

variable [SquareRoot K] {services : Services Fix K} {fuel : Nat} {event : Event Fix K}
  {events : List (Event Fix K)} {controller before after last : ARViewController K}

/-- A fix takes the first waypoint that is left, if it is near; nothing else takes any. -/
theorem Progress.path_eq (progress : Progress services before event after)
    (unselected : event.isSelection = false) :
    after.path = (event.userLoc.toList).foldl (takeFirst services.Passes) before.path := by
  cases progress with
  | selected => exact nomatch unselected
  | removed follows fix near waiting finding =>
    rw [fix, waiting]
    exact (if_pos near).symm
  | kept follows far path finding =>
    rw [path]
    cases fix : event.userLoc with
    | none => rfl
    | some loc =>
      cases waiting : before.path with
      | nil => rfl
      | cons first rest => exact (if_neg (far loc first fix (by rw [waiting]; rfl))).symm

/-- What is left of the route is what the fixes have not taken. -/
theorem foldlM_remaining (unselected : ∀ event ∈ events, event.isSelection = false)
    (following : controller.Following)
    (finished : events.foldlM (handle services fuel) controller = .ok last) :
    last.path = remaining services.Passes controller.path (events.filterMap Event.userLoc) := by
  induction events generalizing controller with
  | nil =>
    cases finished
    rfl
  | cons event rest ih =>
    obtain ⟨next, handled, remains⟩ := foldlM_cons_eq_ok.mp finished
    have progress := handle_progress following handled
    rw [ih (fun other member => unselected other (List.mem_cons_of_mem _ member))
      (progress.following following) remains, progress.path_eq (unselected _ List.mem_cons_self)]
    cases fix : event.userLoc with
    | none => rw [List.filterMap_cons_none fix]; rfl
    | some loc => rw [List.filterMap_cons_some fix]; rfl

/-- Since the last selection, as many waypoints of its route were taken as the fixes pass in
order, whatever other fixes came in between. Arrival is announced exactly when they have
passed all of them; until then the title is that of the destination. -/
theorem run_arrives (services : Services Fix K) (events : List (Event Fix K)) :
    (∃ bound controller, ∀ fuel, bound ≤ fuel → run services fuel events = .ok controller) ∧
      ∀ fuel, Ends (· = .outOfFuel)
        (fun controller => ∀ earlier location heading (menu : Selection K) later,
          events = earlier ++ .selection location heading menu :: later →
          (∀ event ∈ later, event.isSelection = false) →
            let fixes := later.filterMap Event.userLoc
            ∃ route, menu.Route services location route ∧ controller.path <:+ route ∧
              (∀ count ≤ route.length,
                List.SublistForall₂ services.Passes (route.take count) fixes ↔
                  controller.path.length ≤ route.length - count) ∧
              (List.SublistForall₂ services.Passes route fixes →
                controller.pathFinding = false ∧ controller.title = "Arrived") ∧
              (¬ List.SublistForall₂ services.Passes route fixes →
                controller.pathFinding = true ∧ controller.title = menu.selectedNavLoc.name))
        (run services fuel events) := by
  refine ⟨run_settles services events, fun fuel => run_ends fun controller finished => ?_⟩
  intro earlier location heading menu later cut unselected fixes
  have following := following_of_run finished
  have title := ((run_titled finished).selected _ _ _ _ _ cut unselected).2
  subst cut
  obtain ⟨before, started, remains⟩ := foldlM_append_eq_ok.mp finished
  obtain ⟨after, handled, followed⟩ := foldlM_cons_eq_ok.mp remains
  have begins := following_of_run started
  have progress := handle_progress begins handled
  have left := foldlM_remaining unselected (progress.following begins) followed
  cases progress with
  | removed follows => exact nomatch follows
  | kept follows => exact nomatch follows
  | selected returned finding =>
    have ends : controller.pathFinding = false ↔
        List.SublistForall₂ services.Passes after.path fixes := by
      rw [sublistForall₂_iff_remaining, ← left, ← Bool.not_eq_true]
      exact not_iff_comm.mp following.symm
    refine ⟨after.path, returned, ?_, fun count bounded => ?_, fun passed => ?_, fun early => ?_⟩
    · rw [left]
      exact remaining_suffix
    · rw [left]
      exact sublistForall₂_take_iff bounded
    · have stopped := ends.mpr passed
      exact ⟨stopped, by rw [title, stopped]; rfl⟩
    · have still : controller.pathFinding = true := Bool.not_eq_false _ ▸ mt ends.mp early
      exact ⟨still, by rw [title, still]; rfl⟩

end ARViewController

end AugmentedCampus
