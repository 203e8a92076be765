import AugmentedCampus.Campus.Catalogue
import AugmentedCampus.Campus.Navigation
import Mathlib.Order.WithBot

/-! The two choices of a nearest node: where to start, and which entrance to go to. -/
namespace AugmentedCampus

open Foundation

universe v

namespace DataManager

section Entrances

variable {K : Type v} [Field K] [LinearOrder K] [SquareRoot K]

/-- The loop variables of `findClosestEntrance`; `Double.infinity` is the top. -/
structure ClosestEntrance (K : Type v) [DecidableEq K] where
  distance : WithTop K
  closest : NavigationNode Int K

def nearer (locNL : NavigationNode Int K) (best : ClosestEntrance K)
    (entrance : NavigationNode Int K) : ClosestEntrance K :=
  if (locNL.cost entrance.toNavigationLocation : WithTop K) > best.distance then best
  else ⟨locNL.cost entrance.toNavigationLocation, entrance⟩

def findClosestEntrance (latitude longitude : K) (buildingEntrances : List (NavigationNode Int K)) :
    NavigationNode Int K :=
  (buildingEntrances.foldl (nearer (temp latitude longitude)) ⟨⊤, temp 0 0⟩).closest

/-- The loop of `findClosestEntrance` is a running minimum that takes the last of equals. -/
theorem nearer_keepsBest (locNL : NavigationNode Int K) :
    KeepsBest (· ≤ ·) (fun _ => True)
      (fun entrance => (locNL.cost entrance.toNavigationLocation : WithTop K))
      ClosestEntrance.distance ClosestEntrance.closest (nearer locNL) where
  weaken _ _ := id
  trans _ _ _ := le_trans
  step best entrance := by
    by_cases farther : (locNL.cost entrance.toNavigationLocation : WithTop K) > best.distance
    · exact .inl ⟨if_pos farther, fun _ => le_of_lt farther⟩
    · have taken : nearer locNL best entrance =
          ⟨locNL.cost entrance.toNavigationLocation, entrance⟩ := if_neg farther
      exact .inr ⟨trivial, le_of_not_gt farther, by rw [taken], by rw [taken]⟩

theorem findClosestEntrance_least (latitude longitude : K)
    {entrances : List (NavigationNode Int K)} (nonempty : entrances ≠ []) :
    findClosestEntrance latitude longitude entrances ∈ entrances ∧
      ∀ entrance ∈ entrances,
        (temp latitude longitude).cost
            (findClosestEntrance latitude longitude entrances).toNavigationLocation ≤
          (temp latitude longitude).cost entrance.toNavigationLocation := by
  unfold findClosestEntrance
  rcases (nearer_keepsBest (temp latitude longitude)).run entrances ⟨⊤, temp 0 0⟩ with
    ⟨_, none⟩ | ⟨entrance, member, _, _, chosen, least⟩
  · -- No cost is infinite, so the first entrance is taken.
    obtain ⟨first, rest, rfl⟩ := List.exists_cons_of_ne_nil nonempty
    exact absurd (top_le_iff.mp (none first List.mem_cons_self trivial)) WithTop.coe_ne_top
  · rw [chosen]
    exact ⟨member, fun other present => WithTop.coe_le_coe.mp (least other present trivial)⟩

end Entrances

section Start

variable {K : Type v} [Field K] [LinearOrder K] [SquareRoot K] {manager : DataManager Int K}
  {latitude longitude : K} {destination : NavigationNode Int K}

theorem findClosest_least (order : Dictionary.Order Int (NavigationNode Int K))
    (near : ∀ x ∈ manager.navLocations.values,
      (temp latitude longitude).cost x.toNavigationLocation < 99999.9)
    (start : ∃ x ∈ manager.navLocations.values, Suitable (temp latitude longitude) destination x) :
    manager.findClosest order latitude longitude destination ∈ manager.navLocations.values ∧
      Suitable (temp latitude longitude) destination
        (manager.findClosest order latitude longitude destination) ∧
      ∀ x ∈ manager.navLocations.values, Suitable (temp latitude longitude) destination x →
        (temp latitude longitude).cost
            (manager.findClosest order latitude longitude destination).toNavigationLocation ≤
          (temp latitude longitude).cost x.toNavigationLocation := by
  have listed (x : NavigationNode Int K) :
      x ∈ order.arrange manager.navLocations ↔ x ∈ manager.navLocations.values :=
    (order.perm manager.navLocations).mem_iff
  unfold findClosest
  rcases (closer_keepsBest (temp latitude longitude) destination).run
    (order.arrange manager.navLocations) ⟨99999.9, temp latitude longitude⟩ with
    ⟨_, none⟩ | ⟨x, member, suits, _, chosen, least⟩
  · obtain ⟨x, member, suits⟩ := start
    exact absurd (near x member) (not_lt_of_ge (none x ((listed x).mpr member) suits))
  · rw [chosen]
    exact ⟨(listed x).mp member, suits, fun other present =>
      least other ((listed other).mpr present)⟩

end Start

end DataManager

/-- A latitude and a longitude in degrees. -/
def NavigationLocation.Valid (location : NavigationLocation Int ℝ) : Prop :=
  |location.latitude| ≤ 90 ∧ |location.longitude| ≤ 180

/-- The first distance of `findClosest` is beyond all coordinates. -/
theorem NavigationLocation.Valid.cost_lt {first second : NavigationLocation Int ℝ}
    (valid : first.Valid) (other : second.Valid) : first.cost second < 99999.9 := by
  have north : |first.latitude - second.latitude| ≤ 180 :=
    (abs_sub _ _).trans (by linarith [valid.1, other.1])
  have east : |first.longitude - second.longitude| ≤ 360 :=
    (abs_sub _ _).trans (by linarith [valid.2, other.2])
  have high : (first.latitude - second.latitude) ^ 2 ≤ 180 ^ 2 :=
    sq_le_sq' (abs_le.mp north).1 (abs_le.mp north).2
  have wide : (first.longitude - second.longitude) ^ 2 ≤ 360 ^ 2 :=
    sq_le_sq' (abs_le.mp east).1 (abs_le.mp east).2
  refine (Real.sqrt_lt' (by norm_num)).mpr ?_
  calc (first.latitude - second.latitude) ^ 2 + (first.longitude - second.longitude) ^ 2
      ≤ 180 ^ 2 + 360 ^ 2 := add_le_add high wide
    _ < 99999.9 ^ 2 := by norm_num

namespace DataManager

variable {manager : DataManager Int ℝ} {latitude longitude : ℝ} {destination : NavigationNode Int ℝ}

/-- The distance to the start is the same for every order, also where no node is suitable. -/
theorem findClosest_cost_unique (order other : Dictionary.Order Int (NavigationNode Int ℝ))
    (near : ∀ x ∈ manager.navLocations.values,
      (temp latitude longitude).cost x.toNavigationLocation < 99999.9) :
    (temp latitude longitude).cost
        (manager.findClosest order latitude longitude destination).toNavigationLocation =
      (temp latitude longitude).cost
        (manager.findClosest other latitude longitude destination).toNavigationLocation := by
  by_cases start : ∃ x ∈ manager.navLocations.values, Suitable (temp latitude longitude) destination x
  · obtain ⟨stored, suits, least⟩ := findClosest_least order near start
    obtain ⟨listed, fits, lowest⟩ := findClosest_least other near start
    exact le_antisymm (least _ listed fits) (lowest _ stored suits)
  · have fallen (order : Dictionary.Order Int (NavigationNode Int ℝ)) :
        manager.findClosest order latitude longitude destination = temp latitude longitude := by
      rcases manager.findClosest_cases order latitude longitude destination with
        ⟨⟨x, member, suits, _⟩, _⟩ | ⟨_, same⟩
      · exact absurd ⟨x, member, suits⟩ start
      · exact same
    rw [fallen order, fallen other]

/-- An entrance of a building that was made of the loaded nodes is one of them,
and has a name that the placeholder has not. -/
theorem findClosestEntrance_building (containsIgnoringCase : String → String → Bool)
    (order : Dictionary.Order Int (NavigationNode Int ℝ)) {building : Building Int ℝ}
    (made : building ∈ initBuildingsArray containsIgnoringCase order manager []) :
    findClosestEntrance latitude longitude building.nodes ∈ building.nodes ∧
      findClosestEntrance latitude longitude building.nodes ∈ manager.navLocations.values ∧
      (containsIgnoringCase "" building.name = false →
        findClosestEntrance latitude longitude building.nodes ≠ temp 0 0) := by
  have catalogued := initBuildingsArray_catalogued containsIgnoringCase order manager
  have member := (findClosestEntrance_least latitude longitude
    (catalogued.occupied building made)).1
  obtain ⟨entered, matching⟩ := catalogued.entrances building made _ member
  refine ⟨member, (order.perm _).mem_iff.mp entered, fun unnamed same => ?_⟩
  rw [same] at matching
  have found := (mem_matchedNames.mp matching).2.2
  exact absurd (found.symm.trans unnamed) (by decide)

/-- With valid coordinates `findClosest` returns a nearest one of the nodes that
are not the destination and not farther from it than the user, at a distance no
order changes. `findClosestEntrance` returns a nearest entrance, for a building
of the menu always a loaded node. -/
theorem findClosest_minimal (manager : DataManager Int ℝ) (latitude longitude : ℝ)
    (destination : NavigationNode Int ℝ)
    (valid : ∀ x ∈ manager.navLocations.values, x.Valid)
    (user : (temp latitude longitude).Valid) :
    (∀ order, (∃ x ∈ manager.navLocations.values,
        ¬ (x.toNavigationLocation == destination.toNavigationLocation) = true ∧
          x.cost destination.toNavigationLocation ≤
            (temp latitude longitude).cost destination.toNavigationLocation) →
      let start := manager.findClosest order latitude longitude destination
      start ∈ manager.navLocations.values ∧
        ¬ (start.toNavigationLocation == destination.toNavigationLocation) = true ∧
        start.cost destination.toNavigationLocation ≤
          (temp latitude longitude).cost destination.toNavigationLocation ∧
        ∀ x ∈ manager.navLocations.values,
          ¬ (x.toNavigationLocation == destination.toNavigationLocation) = true →
            x.cost destination.toNavigationLocation ≤
              (temp latitude longitude).cost destination.toNavigationLocation →
            (temp latitude longitude).cost start.toNavigationLocation ≤
              (temp latitude longitude).cost x.toNavigationLocation) ∧
    (∀ order other, (temp latitude longitude).cost
        (manager.findClosest order latitude longitude destination).toNavigationLocation =
      (temp latitude longitude).cost
        (manager.findClosest other latitude longitude destination).toNavigationLocation) ∧
    (∀ entrances : List (NavigationNode Int ℝ), entrances ≠ [] →
      findClosestEntrance latitude longitude entrances ∈ entrances ∧
        ∀ entrance ∈ entrances,
          (temp latitude longitude).cost
              (findClosestEntrance latitude longitude entrances).toNavigationLocation ≤
            (temp latitude longitude).cost entrance.toNavigationLocation) ∧
    ∀ containsIgnoringCase order,
      ∀ building ∈ initBuildingsArray containsIgnoringCase order manager [],
        findClosestEntrance latitude longitude building.nodes ∈ building.nodes ∧
          findClosestEntrance latitude longitude building.nodes ∈ manager.navLocations.values ∧
          (containsIgnoringCase "" building.name = false →
            findClosestEntrance latitude longitude building.nodes ≠ temp 0 0) := by
  have near : ∀ x ∈ manager.navLocations.values,
      (temp latitude longitude).cost x.toNavigationLocation < 99999.9 :=
    fun x member => user.cost_lt (valid x member)
  refine ⟨fun order start => ?_, fun order other => findClosest_cost_unique order other near,
    fun entrances => findClosestEntrance_least latitude longitude,
    fun contains order building => findClosestEntrance_building contains order⟩
  obtain ⟨x, member, apart, close⟩ := start
  obtain ⟨stored, ⟨different, between⟩, least⟩ :=
    findClosest_least order near ⟨x, member, apart, not_lt_of_ge close⟩
  exact ⟨stored, different, le_of_not_gt between, fun other present unlike closer =>
    least other present ⟨unlike, not_lt_of_ge closer⟩⟩

end DataManager

section Examples

/-- Places on one meridian, in exact arithmetic. -/
noncomputable def meridian : DataManager Int ℝ :=
  managerOf [⟨1, "Smiddy", 0, -1⟩, ⟨2, "Library", 0, 1⟩, ⟨3, "Henson", 0, 3⟩, ⟨4, "Darden", 0, 5⟩]

theorem mem_meridian {node : NavigationNode Int ℝ} (member : node ∈ meridian.navLocations.values) :
    node = ⟨⟨0, 5, "Darden", 4⟩, .empty⟩ ∨ node = ⟨⟨0, 3, "Henson", 3⟩, .empty⟩ ∨
      node = ⟨⟨0, 1, "Library", 2⟩, .empty⟩ ∨ node = ⟨⟨0, -1, "Smiddy", 1⟩, .empty⟩ := by
  obtain ⟨id, found⟩ := Dictionary.mem_values.mp member
  change meridian.getNode id = some node at found
  simp only [meridian, managerOf, List.foldl_cons, List.foldl_nil, DataManager.getNode_addNode]
    at found
  split_ifs at found <;> cases found
  · exact .inl rfl
  · exact .inr (.inl rfl)
  · exact .inr (.inr (.inl rfl))
  · exact .inr (.inr (.inr rfl))

theorem cost_of_meridian {first second : NavigationLocation Int ℝ}
    (one : first.latitude = 0) (other : second.latitude = 0) :
    first.cost second = |first.longitude - second.longitude| := by
  simp only [NavigationLocation.cost, one, other, sub_self, ne_eq, OfNat.ofNat_ne_zero,
    not_false_eq_true, zero_pow, zero_add]
  exact Real.sqrt_sq_eq_abs _

/-- The library and Henson are on the way to Darden. Smiddy is as near to the user as the
library, but on the other side. -/
theorem findClosest_minimal_meridian :
    meridian.findClosest .asStored 0 0 ⟨⟨0, 5, "Darden", 4⟩, .empty⟩ =
      ⟨⟨0, 1, "Library", 2⟩, .empty⟩ := by
  have valid : ∀ x ∈ meridian.navLocations.values, x.Valid := by
    intro x member
    rcases mem_meridian member with rfl | rfl | rfl | rfl <;>
      constructor <;> norm_num [abs_of_nonneg]
  have user : (DataManager.temp 0 0 : NavigationNode Int ℝ).Valid := by
    constructor <;> norm_num [DataManager.temp]
  have library : (⟨⟨0, 1, "Library", 2⟩, .empty⟩ : NavigationNode Int ℝ) ∈
      meridian.navLocations.values := by
    refine Dictionary.mem_values.mpr ⟨2, ?_⟩
    change meridian.getNode 2 = _
    simp [meridian, managerOf, DataManager.getNode_addNode, NodeRecord.navLoc]
  have apart : ¬ ((⟨0, 1, "Library", 2⟩ : NavigationLocation Int ℝ) == ⟨0, 5, "Darden", 4⟩) = true := by
    simp [NavigationLocation.beq_iff]
  have between : (⟨0, 1, "Library", 2⟩ : NavigationLocation Int ℝ).cost ⟨0, 5, "Darden", 4⟩ ≤
      (DataManager.temp 0 0 : NavigationNode Int ℝ).cost ⟨0, 5, "Darden", 4⟩ := by
    rw [cost_of_meridian rfl rfl, cost_of_meridian rfl rfl]
    norm_num [DataManager.temp]
  obtain ⟨nearest, _⟩ :=
    DataManager.findClosest_minimal meridian 0 0 ⟨⟨0, 5, "Darden", 4⟩, .empty⟩ valid user
  obtain ⟨stored, different, toward, least⟩ := nearest .asStored ⟨_, library, apart, between⟩
  have close := least _ library apart between
  rcases mem_meridian stored with same | same | same | same <;> rw [same] at different toward close ⊢
  · exact absurd BEq.rfl different
  · rw [cost_of_meridian rfl rfl, cost_of_meridian rfl rfl] at close
    norm_num [DataManager.temp] at close
  · rw [cost_of_meridian rfl rfl, cost_of_meridian rfl rfl] at toward
    norm_num [DataManager.temp, abs_of_nonpos] at toward

end Examples

end AugmentedCampus
