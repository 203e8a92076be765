import AugmentedCampus.Campus.Display
import AugmentedCampus.Foundation.Globe

/-! Where the arrow points on the globe, with real numbers for the floating-point ones. -/
namespace AugmentedCampus

open Foundation Real Matrix

namespace Services

section Degrees

universe v

variable {Fix K : Type v} [Field K] (services : Services Fix K)

def toDegrees (radians : K) : K := radians * 180.0 / services.pi

/-- `direction(to:)` of a coordinate -/
def direction (latitude longitude latitude' longitude' : K) : K :=
  services.toDegrees (services.calculateBearing latitude longitude latitude' longitude')

end Degrees

variable {Fix : Type} (latitude longitude : Fix → ℝ) (distance : Fix → ℝ → ℝ → ℝ)

/-- The mathematical library on the real numbers. -/
noncomputable def real : Services Fix ℝ where
  latitude := latitude
  longitude := longitude
  distance := distance
  pi := π
  sin := Real.sin
  cos := Real.cos
  atan2 y x := Complex.arg ⟨x, y⟩

noncomputable def standpoint (latitude longitude : ℝ) : Standpoint :=
  ⟨latitude * π / 180.0, longitude * π / 180.0⟩

variable {latitude longitude distance} {lat lng lat' lng' : ℝ}

theorem real_calculateBearing :
    (real latitude longitude distance).calculateBearing lat lng lat' lng' =
      (standpoint lat lng).azimuth (standpoint lat' lng') := by
  simp only [calculateBearing, real, toRadians, Standpoint.azimuth]
  congr 2
  · simp only [standpoint, Standpoint.up, Standpoint.north, dotProduct, Fin.sum_univ_three,
      Matrix.cons_val, cos_sub]
    ring
  · simp only [standpoint, Standpoint.up, Standpoint.east, dotProduct, Fin.sum_univ_three,
      Matrix.cons_val, sin_sub]
    ring

/-- `direction(to:)` is the azimuth in degrees, in the half-open range of its comment. -/
theorem real_direction_mem :
    (real latitude longitude distance).direction lat lng lat' lng' ∈
      Set.Ioc (-180) 180 := by
  have positive := pi_pos
  obtain ⟨low, high⟩ := Complex.arg_mem_Ioc
    ⟨(standpoint lat' lng').up ⬝ᵥ (standpoint lat lng).north,
      (standpoint lat' lng').up ⬝ᵥ (standpoint lat lng).east⟩
  rw [direction, real_calculateBearing, Standpoint.azimuth, toDegrees]
  simp only [real]
  constructor
  · rw [lt_div_iff₀ positive]
    linarith
  · rw [div_le_iff₀ positive]
    linarith

variable (latitude longitude distance)

theorem angle_of_turn {heading bearing turn : ℝ}
    (turned : turn = heading + π - bearing ∨ turn = heading - π - bearing) :
    ((heading + π - turn : ℝ) : Angle) = bearing := by
  rw [Angle.angle_eq_iff_two_pi_dvd_sub]
  rcases turned with rfl | rfl
  · refine ⟨0, ?_⟩
    push_cast
    ring
  · refine ⟨1, ?_⟩
    push_cast
    ring

/-- The heading of the phone and the angle of the arrow make up the azimuth. -/
theorem real_direction (loc : Fix) (magneticHeading : ℝ) (nextNode : NavigationLocation Int ℝ) :
    (((real latitude longitude distance).toRadians magneticHeading + π -
        ARViewController.direction (real latitude longitude distance) loc magneticHeading nextNode :
        ℝ) : Angle) =
      (standpoint (latitude loc) (longitude loc)).azimuth
        (standpoint nextNode.latitude nextNode.longitude) := by
  rw [← @real_calculateBearing _ latitude longitude distance]
  exact angle_of_turn (ARViewController.direction_cases _ loc magneticHeading nextNode)

end Services

/-- However the events fall, since the last event that gave the arrow an angle it points
along the shortest arc from the place then seen to the waypoint that was then first: held
against the heading then seen, its angle is the course of that arc, and no other course
leads there. -/
theorem ARViewController.run_points {Fix : Type} (latitude longitude : Fix → ℝ)
    (distance : Fix → ℝ → ℝ → ℝ) (events : List (Event Fix ℝ)) :
    let services := Services.real latitude longitude distance
    (∃ bound controller, ∀ fuel, bound ≤ fuel → run services fuel events = .ok controller) ∧
      ∀ fuel, Ends (· = .outOfFuel)
        (fun controller => ∀ earlier event later loc magneticHeading after,
          events = earlier ++ event :: later → event.turns = true →
          event.manager = ⟨some loc, some magneticHeading⟩ →
          Unwritten (fun middle => run services fuel (earlier ++ event :: middle))
            (writesAngle services) later →
          run services fuel (earlier ++ [event]) = .ok after → after.pathFinding = true →
            ∃ nextNode, after.path.head? = some nextNode ∧
              let here := Services.standpoint (latitude loc) (longitude loc)
              let there := Services.standpoint nextNode.latitude nextNode.longitude
              let course := services.toRadians magneticHeading + π - controller.eulerAngle
              here.sail course (here.distance there) = there.up ∧
                ∀ other arc, here.sail other arc = there.up →
                  here.distance there ≤ |arc| ∧
                  (arc = here.distance there → Real.sin arc ≠ 0 → (other : Angle) = course))
        (run services fuel events) := by
  intro services
  refine ⟨run_settles services events, fun fuel => run_ends fun controller finished => ?_⟩
  intro earlier event later loc magneticHeading after cut turns known unwritten reached finding
  subst cut
  obtain ⟨nextNode, first, angle⟩ := run_aimed finished turns known unwritten reached finding
  refine ⟨nextNode, first, ?_⟩
  intro here there course
  have azimuth : (course : Angle) = here.azimuth there := by
    have pointed := Services.real_direction latitude longitude distance loc magneticHeading nextNode
    rw [← angle] at pointed
    exact pointed
  refine ⟨?_, fun other arc reaches => ⟨Standpoint.distance_le reaches, ?_⟩⟩
  · rw [Standpoint.sail_congr azimuth, Standpoint.sail_azimuth]
  · rintro rfl apart
    rw [azimuth]
    exact (Standpoint.sail_eq_iff apart).mp reaches

end AugmentedCampus
