import AugmentedCampus.Foundation.DistinctSet
import Mathlib.Analysis.Real.Sqrt
import Mathlib.Data.Rat.Sqrt

/-! The node objects of the app. Coordinates are taken in exact arithmetic over
any ring with a square root. -/
namespace AugmentedCampus

open Foundation

universe u v

/-- `squareRoot()` of a coordinate expression. -/
class SquareRoot (K : Type v) where
  squareRoot : K → K

noncomputable instance : SquareRoot ℝ := ⟨Real.sqrt⟩

/-- Exact on the squares of rationals. -/
instance : SquareRoot ℚ := ⟨Rat.sqrt⟩

/-- The constant fields of a node object. -/
structure NavigationLocation (Id : Type u) (K : Type v) where
  latitude : K
  longitude : K
  name : String
  id : Id
  deriving DecidableEq

namespace NavigationLocation

variable {Id : Type u} {K : Type v}

/-- `==` looks at the coordinates only. -/
instance [DecidableEq K] : BEq (NavigationLocation Id K) :=
  ⟨fun lhs rhs => decide (lhs.latitude = rhs.latitude) && decide (lhs.longitude = rhs.longitude)⟩

theorem beq_iff [DecidableEq K] {lhs rhs : NavigationLocation Id K} :
    (lhs == rhs) = true ↔ lhs.latitude = rhs.latitude ∧ lhs.longitude = rhs.longitude := by
  simp [BEq.beq]

instance [DecidableEq K] : EquivBEq (NavigationLocation Id K) where
  rfl := by simp [beq_iff]
  symm := by simp only [beq_iff]; exact fun ⟨left, right⟩ => ⟨left.symm, right.symm⟩
  trans := by
    simp only [beq_iff]
    exact fun ⟨left, right⟩ ⟨next, last⟩ => ⟨left.trans next, right.trans last⟩

variable [Ring K] [SquareRoot K]

/-- `cost(to:)` -/
def cost (location node : NavigationLocation Id K) : K :=
  let deltaLat := (location.latitude - node.latitude) ^ 2
  let deltaLng := (location.longitude - node.longitude) ^ 2
  SquareRoot.squareRoot (deltaLat + deltaLng)

/-- `estimatedCost(to:)` -/
def estimatedCost (location node : NavigationLocation Id K) : K := location.cost node

end NavigationLocation

theorem NavigationLocation.cost_comm {Id : Type u} {K : Type v} [CommRing K] [SquareRoot K]
    (location node : NavigationLocation Id K) : location.cost node = node.cost location := by
  simp only [cost, sub_sq_comm location.latitude, sub_sq_comm location.longitude]

end AugmentedCampus
