import Mathlib.Analysis.SpecialFunctions.Complex.Arg
import Mathlib.Analysis.SpecialFunctions.Trigonometric.Angle
import Mathlib.Data.Matrix.Mul
import Mathlib.LinearAlgebra.Matrix.Notation

/-! Courses along great circles. At each place of the unit sphere stands a frame of up,
north and east; a course from there leads along an arc in the plane it spans with up. -/
namespace AugmentedCampus.Foundation

open Matrix Real

/-- A place on the sphere, in radians. -/
structure Standpoint where
  latitude : ℝ
  longitude : ℝ

namespace Standpoint

/-- The direction of the place from the centre. -/
noncomputable def up (place : Standpoint) : Fin 3 → ℝ :=
  ![cos place.latitude * cos place.longitude, cos place.latitude * sin place.longitude,
    sin place.latitude]

noncomputable def north (place : Standpoint) : Fin 3 → ℝ :=
  ![-sin place.latitude * cos place.longitude, -sin place.latitude * sin place.longitude,
    cos place.latitude]

noncomputable def east (place : Standpoint) : Fin 3 → ℝ :=
  ![-sin place.longitude, cos place.longitude, 0]

section Frame

variable (place : Standpoint)

theorem up_dotProduct_up : place.up ⬝ᵥ place.up = 1 := by
  simp only [up, dotProduct, Fin.sum_univ_three, cons_val]
  linear_combination sin_sq_add_cos_sq place.latitude +
    cos place.latitude ^ 2 * sin_sq_add_cos_sq place.longitude

theorem north_dotProduct_north : place.north ⬝ᵥ place.north = 1 := by
  simp only [north, dotProduct, Fin.sum_univ_three, cons_val]
  linear_combination sin_sq_add_cos_sq place.latitude +
    sin place.latitude ^ 2 * sin_sq_add_cos_sq place.longitude

theorem east_dotProduct_east : place.east ⬝ᵥ place.east = 1 := by
  simp only [east, dotProduct, Fin.sum_univ_three, cons_val]
  linear_combination sin_sq_add_cos_sq place.longitude

theorem up_dotProduct_north : place.up ⬝ᵥ place.north = 0 := by
  simp only [up, north, dotProduct, Fin.sum_univ_three, cons_val]
  linear_combination
    -cos place.latitude * sin place.latitude * sin_sq_add_cos_sq place.longitude

theorem up_dotProduct_east : place.up ⬝ᵥ place.east = 0 := by
  simp only [up, east, dotProduct, Fin.sum_univ_three, cons_val]
  ring

theorem north_dotProduct_east : place.north ⬝ᵥ place.east = 0 := by
  simp only [north, east, dotProduct, Fin.sum_univ_three, cons_val]
  ring

/-- Every vector is the sum of its parts along the frame. -/
theorem frame_sum (vector : Fin 3 → ℝ) :
    (vector ⬝ᵥ place.up) • place.up +
      ((vector ⬝ᵥ place.north) • place.north + (vector ⬝ᵥ place.east) • place.east) = vector := by
  have latitude := sin_sq_add_cos_sq place.latitude
  have longitude := sin_sq_add_cos_sq place.longitude
  ext index
  fin_cases index <;>
    simp only [up, north, east, dotProduct, Fin.sum_univ_three, cons_val, Pi.add_apply,
      Pi.smul_apply, smul_eq_mul, Fin.zero_eta, Fin.mk_one, Fin.reduceFinMk]
  · linear_combination (vector 0 * cos place.longitude ^ 2 +
      vector 1 * sin place.longitude * cos place.longitude) * latitude + vector 0 * longitude
  · linear_combination (vector 0 * sin place.longitude * cos place.longitude +
      vector 1 * sin place.longitude ^ 2) * latitude + vector 1 * longitude
  · linear_combination vector 2 * latitude

/-- Where a course from the place leads after an arc. -/
noncomputable def sail (course arc : ℝ) : Fin 3 → ℝ :=
  cos arc • place.up + sin arc • (cos course • place.north + sin course • place.east)

theorem sail_dotProduct_up (course arc : ℝ) : place.sail course arc ⬝ᵥ place.up = cos arc := by
  simp [sail, add_dotProduct, smul_dotProduct, up_dotProduct_up, dotProduct_comm place.north,
    dotProduct_comm place.east, up_dotProduct_north, up_dotProduct_east]

theorem sail_dotProduct_north (course arc : ℝ) :
    place.sail course arc ⬝ᵥ place.north = sin arc * cos course := by
  simp [sail, add_dotProduct, smul_dotProduct, north_dotProduct_north, up_dotProduct_north,
    dotProduct_comm place.east, north_dotProduct_east]

theorem sail_dotProduct_east (course arc : ℝ) :
    place.sail course arc ⬝ᵥ place.east = sin arc * sin course := by
  simp [sail, add_dotProduct, smul_dotProduct, east_dotProduct_east, up_dotProduct_east,
    north_dotProduct_east]

variable {place} {course other arc : ℝ}

/-- Full turns make no difference to a course. -/
theorem sail_congr (same : (course : Angle) = other) :
    place.sail course arc = place.sail other arc := by
  have cosine : cos course = cos other := by rw [← Angle.cos_coe, same, Angle.cos_coe]
  have sine : sin course = sin other := by rw [← Angle.sin_coe, same, Angle.sin_coe]
  rw [sail, sail, cosine, sine]

/-- Different courses part, unless the arc leads nowhere or to the other side of the globe. -/
theorem sail_inj (apart : sin arc ≠ 0) :
    place.sail course arc = place.sail other arc ↔ (course : Angle) = other := by
  refine ⟨fun same => ?_, sail_congr⟩
  have north := place.sail_dotProduct_north course arc
  have east := place.sail_dotProduct_east course arc
  rw [same, sail_dotProduct_north] at north
  rw [same, sail_dotProduct_east] at east
  exact Angle.cos_sin_inj (mul_left_cancel₀ apart north.symm) (mul_left_cancel₀ apart east.symm)

end Frame

section Courses

variable (place target : Standpoint)

/-- The shortest arc between the places. -/
noncomputable def distance : ℝ := arccos (target.up ⬝ᵥ place.up)

/-- The course from north to the east. -/
noncomputable def azimuth : ℝ := Complex.arg ⟨target.up ⬝ᵥ place.north, target.up ⬝ᵥ place.east⟩

theorem frame_sq :
    (target.up ⬝ᵥ place.up) ^ 2 +
      ((target.up ⬝ᵥ place.north) ^ 2 + (target.up ⬝ᵥ place.east) ^ 2) = 1 := by
  have whole := congrArg (target.up ⬝ᵥ ·) (place.frame_sum target.up)
  simp only [dotProduct_add, dotProduct_smul, smul_eq_mul, up_dotProduct_up] at whole
  rw [sq, sq, sq, whole]

theorem cos_distance : cos (place.distance target) = target.up ⬝ᵥ place.up := by
  have whole := place.frame_sq target
  apply cos_arccos <;> nlinarith [sq_nonneg (target.up ⬝ᵥ place.north),
    sq_nonneg (target.up ⬝ᵥ place.east)]

theorem sin_distance :
    sin (place.distance target) =
      ‖(⟨target.up ⬝ᵥ place.north, target.up ⬝ᵥ place.east⟩ : ℂ)‖ := by
  have whole := place.frame_sq target
  rw [distance, sin_arccos, Complex.norm_eq_sqrt_sq_add_sq]
  congr 1
  linear_combination -whole

/-- The azimuth leads to the target, along the shortest arc. -/
theorem sail_azimuth : place.sail (place.azimuth target) (place.distance target) = target.up := by
  rw [sail, smul_add, smul_smul, smul_smul, cos_distance, sin_distance, azimuth,
    Complex.norm_mul_cos_arg, Complex.norm_mul_sin_arg, frame_sum]

variable {place target} {course arc : ℝ}

/-- No other arc to the target is shorter. -/
theorem distance_le (reached : place.sail course arc = target.up) :
    place.distance target ≤ |arc| := by
  rcases le_total π |arc| with long | short
  · exact (arccos_le_pi _).trans long
  · rw [distance, ← reached, sail_dotProduct_up, ← cos_abs, arccos_cos (abs_nonneg arc) short]

/-- Of the courses only the azimuth leads along the shortest arc to the target, unless
that is the place itself or lies opposite. -/
theorem sail_eq_iff (apart : sin (place.distance target) ≠ 0) :
    place.sail course (place.distance target) = target.up ↔
      (course : Angle) = place.azimuth target := by
  rw [← sail_inj apart, sail_azimuth]

end Courses

end Standpoint

end AugmentedCampus.Foundation
