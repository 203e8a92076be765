import AugmentedCampus.Campus.Catalogue

/-! When the menu depends on the order in which the nodes are visited. A node is
listed under its first name alone if that has no building yet, and else under
further ones, so what counts is whether another node can have come first. -/
namespace AugmentedCampus

open Foundation

universe u v

variable {Id : Type u} {K : Type v} [DecidableEq K]

/-- A node with one name, or whose first name is new, is listed under the first. -/
theorem chosen_head {known names : List String} {name : String}
    (plain : names.length ≤ 1 ∨ ∀ first, names.head? = some first → first ∉ known) :
    name ∈ takenNames known names ∨ firstMissing known names = some name ↔
      names.head? = some name := by
  cases names with
  | nil => simp
  | cons first rest =>
    rw [takenNames_cons, firstMissing_cons]
    by_cases present : first ∈ known
    · have alone : rest = [] := by
        rcases plain with short | new
        · exact List.eq_nil_of_length_eq_zero (by simpa using short)
        · exact absurd present (new first rfl)
      simp [present, alone, eq_comm]
    · simp [present]

section Runs

variable {containsIgnoringCase : String → String → Bool} {done nodes : List (NavigationNode Id K)}
  {node other : NavigationNode Id K} {buildings : List (Building Id K)} {name : String}

/-- Every node entered so far is listed under the first of its names and no other. -/
structure FirstNamed (containsIgnoringCase : String → String → Bool)
    (done : List (NavigationNode Id K)) (buildings : List (Building Id K)) : Prop where
  distinct : (existing buildings).Nodup
  names : ∀ name, name ∈ existing buildings ↔
    ∃ node ∈ done, (matchedNames containsIgnoringCase node.name).head? = some name
  listed : ∀ name node, Listed buildings name node ↔
    node ∈ done ∧ (matchedNames containsIgnoringCase node.name).head? = some name

theorem FirstNamed.start (containsIgnoringCase : String → String → Bool) :
    FirstNamed containsIgnoringCase ([] : List (NavigationNode Id K)) [] :=
  ⟨by simp, by simp, by simp [Listed]⟩

theorem FirstNamed.enterNode (first : FirstNamed containsIgnoringCase done buildings)
    (plain : (matchedNames containsIgnoringCase node.name).length ≤ 1 ∨
      ∀ earlier ∈ done, (matchedNames containsIgnoringCase earlier.name).head? ≠
        (matchedNames containsIgnoringCase node.name).head?) :
    FirstNamed containsIgnoringCase (done ++ [node])
      (DataManager.enterNode containsIgnoringCase node buildings) := by
  have chosen (name : String) := @chosen_head (existing buildings)
    (matchedNames containsIgnoringCase node.name) name <| plain.imp_right fun apart head same old => by
      obtain ⟨earlier, entered, equal⟩ := (first.names head).mp old
      exact apart earlier entered (equal.trans same.symm)
  refine ⟨distinct_enterNode first.distinct, fun name => ?_, fun name entrance => ?_⟩
  · have grown : name ∈ existing buildings ∨ firstMissing (existing buildings)
          (matchedNames containsIgnoringCase node.name) = some name ↔
        name ∈ existing buildings ∨
          (matchedNames containsIgnoringCase node.name).head? = some name := by
      rw [← chosen name]
      constructor
      · exact Or.imp_right Or.inr
      · intro known
        rcases known with old | taken | created
        · exact .inl old
        · exact .inl (mem_of_taken taken).2
        · exact .inr created
    rw [existing_enterNode first.distinct, List.mem_append, Option.mem_toList, grown, first.names]
    simp [or_and_right, exists_or]
  · rw [listed_enterNode first.distinct, chosen, first.listed, List.mem_append, List.mem_singleton,
      or_and_right]
    refine or_congr_right (and_congr_right fun same => ?_)
    rw [same]

/-- Where no node with several names shares the first of them, each order lists
every node under its first name. -/
theorem firstNamed_run {all : List (NavigationNode Id K)} (different : all.Nodup)
    (apart : ∀ first ∈ all, ∀ second ∈ all, first ≠ second →
      1 < (matchedNames containsIgnoringCase first.name).length →
        (matchedNames containsIgnoringCase second.name).head? ≠
          (matchedNames containsIgnoringCase first.name).head?) :
    FirstNamed containsIgnoringCase all (all.foldl
      (fun buildings node => DataManager.enterNode containsIgnoringCase node buildings) []) := by
  refine foldl_keeps ?_ rfl (FirstNamed.start containsIgnoringCase)
  intro done node rest buildings split first
  refine first.enterNode ?_
  by_cases plain : (matchedNames containsIgnoringCase node.name).length ≤ 1
  · exact .inl plain
  · refine .inr fun earlier entered => ?_
    rw [← split] at different apart
    refine apart node (by simp) earlier (List.mem_append_left _ entered) ?_ (Nat.lt_of_not_le plain)
    exact Ne.symm ((List.nodup_append.mp different).2.2 earlier entered node List.mem_cons_self)

/-- A node that is not entered any more keeps the lists it is on. -/
theorem listed_rest (distinct : (existing buildings).Nodup) (absent : other ∉ nodes) :
    Listed (nodes.foldl
      (fun buildings node => DataManager.enterNode containsIgnoringCase node buildings) buildings)
        name other ↔ Listed buildings name other := by
  induction nodes generalizing buildings with
  | nil => exact Iff.rfl
  | cons node rest ih =>
    have different : other ≠ node := fun same => absent (same ▸ List.mem_cons_self)
    rw [List.foldl_cons, ih (distinct_enterNode distinct)
      (fun later => absent (List.mem_cons_of_mem _ later)), listed_enterNode distinct]
    simp [different]

theorem nodup_existing_nil : (existing ([] : List (Building Id K))).Nodup := List.nodup_nil

theorem existing_first :
    existing (DataManager.enterNode containsIgnoringCase node []) =
      (matchedNames containsIgnoringCase node.name).head?.toList := by
  rw [existing_enterNode nodup_existing_nil]
  cases matchedNames containsIgnoringCase node.name <;> simp [firstMissing_cons]

/-- The first node entered creates its first name and is on that list alone. -/
theorem listed_first :
    Listed (DataManager.enterNode containsIgnoringCase node []) name other ↔
      other = node ∧ (matchedNames containsIgnoringCase node.name).head? = some name := by
  rw [listed_enterNode nodup_existing_nil, chosen_head (.inr (by simp))]
  simp [Listed]

end Runs

namespace DataManager

variable {containsIgnoringCase : String → String → Bool} {manager : DataManager Id K}

/-- The menu is the same for every order of the dictionary, and the buildings of
a node depend on its name. -/
structure OrderFree (containsIgnoringCase : String → String → Bool) (manager : DataManager Id K) :
    Prop where
  names : ∀ order other name,
    name ∈ existing (initBuildingsArray containsIgnoringCase order manager []) ↔
      name ∈ existing (initBuildingsArray containsIgnoringCase other manager [])
  entrances : ∀ order other name node,
    Listed (initBuildingsArray containsIgnoringCase order manager []) name node ↔
      Listed (initBuildingsArray containsIgnoringCase other manager []) name node
  byName : ∃ chosen : String → String → Prop, ∀ order, ∀ node ∈ manager.navLocations.values,
    ∀ name, Listed (initBuildingsArray containsIgnoringCase order manager []) name node ↔
      chosen node.name name

theorem mem_initBuildingsArray {order : Dictionary.Order Id (NavigationNode Id K)}
    {buildings : List (Building Id K)} {building : Building Id K} :
    building ∈ initBuildingsArray containsIgnoringCase order manager buildings ↔
      building ∈ (order.arrange manager.navLocations).foldl
        (fun buildings node => enterNode containsIgnoringCase node buildings) buildings :=
  (List.perm_insertionSort _ _).mem_iff

theorem listed_initBuildingsArray {order : Dictionary.Order Id (NavigationNode Id K)}
    {name : String} {node : NavigationNode Id K} :
    Listed (initBuildingsArray containsIgnoringCase order manager []) name node ↔
      Listed ((order.arrange manager.navLocations).foldl
        (fun buildings node => enterNode containsIgnoringCase node buildings) []) name node := by
  simp only [Listed, mem_initBuildingsArray]

/-- Two nodes, the first with a second name: the first is listed under that name
only if it is not the one entered first. -/
theorem not_orderFree (different : manager.navLocations.values.Nodup)
    {first second : NavigationNode Id K} (one : first ∈ manager.navLocations.values)
    (two : second ∈ manager.navLocations.values) (apart : first ≠ second)
    {name further : String} {rest : List String}
    (several : matchedNames containsIgnoringCase first.name = name :: further :: rest)
    (shared : (matchedNames containsIgnoringCase second.name).head? = some name) :
    ¬ OrderFree containsIgnoringCase manager := by
  classical
  have later : second ∈ manager.navLocations.values.erase first :=
    (List.mem_erase_of_ne apart.symm).mpr two
  have leading : (first :: second :: (manager.navLocations.values.erase first).erase second).Perm
      manager.navLocations.values :=
    ((List.perm_cons_erase one).trans ((List.perm_cons_erase later).cons first)).symm
  have distinct := leading.nodup_iff.mpr different
  obtain ⟨unlike, outside⟩ := List.nodup_cons.mp distinct
  have absent : first ∉ (manager.navLocations.values.erase first).erase second :=
    fun member => unlike (List.mem_cons_of_mem _ member)
  have away : further ≠ name := by
    have once := matchedNames_nodup containsIgnoringCase first.name
    rw [several] at once
    exact fun same => (List.nodup_cons.mp once).1 (same ▸ List.mem_cons_self)
  obtain ⟨order, arranged⟩ := Dictionary.Order.exists_arrange manager.navLocations leading
  obtain ⟨other, swapped⟩ := Dictionary.Order.exists_arrange manager.navLocations
    ((List.Perm.swap first second _).trans leading)
  have before : ¬ Listed (initBuildingsArray containsIgnoringCase order manager []) further first := by
    rw [listed_initBuildingsArray, arranged, List.foldl_cons,
      listed_rest (distinct_enterNode nodup_existing_nil) unlike, listed_first, several]
    simp [away.symm]
  have after : Listed (initBuildingsArray containsIgnoringCase other manager []) further first := by
    have entered : (existing (enterNode containsIgnoringCase second [])).Nodup :=
      distinct_enterNode nodup_existing_nil
    rw [listed_initBuildingsArray, swapped, List.foldl_cons, List.foldl_cons,
      listed_rest (distinct_enterNode entered) absent, listed_enterNode entered, existing_first, shared,
      several]
    simp [takenNames_cons, firstMissing_cons, away]
  exact fun free => before ((free.entrances order other further first).mpr after)

/-- The menu does not depend on the order exactly when no node whose name has
several building names shares the first of them with another node. -/
theorem initBuildingsArray_orderFree_iff [DecidableEq Id]
    (containsIgnoringCase : String → String → Bool) (manager : DataManager Id K)
    (owned : manager.Owned) :
    OrderFree containsIgnoringCase manager ↔
      ∀ first ∈ manager.navLocations.values, ∀ second ∈ manager.navLocations.values,
        first ≠ second → 1 < (matchedNames containsIgnoringCase first.name).length →
          (matchedNames containsIgnoringCase second.name).head? ≠
            (matchedNames containsIgnoringCase first.name).head? := by
  constructor
  · intro free first one second two apart several shared
    obtain ⟨name, further, rest, names⟩ :
        ∃ name further rest, matchedNames containsIgnoringCase first.name =
          name :: further :: rest := by
      match found : matchedNames containsIgnoringCase first.name with
      | [] => simp [found] at several
      | [name] => simp [found] at several
      | name :: further :: rest => exact ⟨name, further, rest, rfl⟩
    rw [names] at shared
    exact not_orderFree owned.values_nodup one two apart names shared free
  · intro apart
    have stored (order : Dictionary.Order Id (NavigationNode Id K)) (node : NavigationNode Id K) :
        node ∈ order.arrange manager.navLocations ↔ node ∈ manager.navLocations.values :=
      (order.perm manager.navLocations).mem_iff
    have settled (order : Dictionary.Order Id (NavigationNode Id K)) :
        FirstNamed containsIgnoringCase (order.arrange manager.navLocations)
          ((order.arrange manager.navLocations).foldl
            (fun buildings node => enterNode containsIgnoringCase node buildings) []) := by
      refine firstNamed_run ((order.perm _).nodup_iff.mpr owned.values_nodup) ?_
      intro first one second two
      exact apart first ((stored order first).mp one) second ((stored order second).mp two)
    refine ⟨fun order other name => ?_, fun order other name node => ?_,
      fun text name => (matchedNames containsIgnoringCase text).head? = some name,
      fun order node member name => ?_⟩
    · simp only [existing, List.mem_map, mem_initBuildingsArray]
      have left := (settled order).names name
      have right := (settled other).names name
      simp only [existing, List.mem_map, stored] at left right
      rw [left, right]
    · rw [listed_initBuildingsArray, listed_initBuildingsArray, (settled order).listed,
        (settled other).listed, stored, stored]
    · rw [listed_initBuildingsArray, (settled order).listed, stored]
      exact and_iff_right member

end DataManager

section Examples

theorem matchedNames_hensonHall :
    matchedNames containsIgnoringCase "Henson Hall" = ["Henson Hall", "Henson"] := by
  decide +kernel

/-- Whichever of the two doors is entered first is an entrance of Henson Hall
alone, the other one also of Henson. -/
theorem initBuildingsArray_order_matters :
    hensonHall.Owned ∧ ¬ DataManager.OrderFree containsIgnoringCase hensonHall := by
  refine ⟨managerOf_owned _, ?_⟩
  let west : NavigationNode Int ℚ := ⟨⟨0, 0, "Henson Hall", 1⟩, .empty⟩
  let east : NavigationNode Int ℚ := ⟨⟨3, 4, "Henson Hall", 2⟩, .empty⟩
  have one : west ∈ hensonHall.navLocations.values := Dictionary.mem_values.mpr ⟨1, rfl⟩
  have two : east ∈ hensonHall.navLocations.values := Dictionary.mem_values.mpr ⟨2, rfl⟩
  have apart : west ≠ east := fun same => absurd (congrArg (·.id) same) (by decide)
  refine DataManager.not_orderFree (managerOf_owned _).values_nodup one two apart
    matchedNames_hensonHall ?_
  rw [matchedNames_hensonHall]
  rfl

/-- The door of Henson Hall has both names, but not that of Henson first. -/
def hensonDoors : DataManager Int ℚ :=
  managerOf [⟨1, "Henson Hall", 0, 0⟩, ⟨2, "Henson", 3, 4⟩, ⟨3, "Darden", 6, 8⟩]

theorem initBuildingsArray_orderFree_iff_hensonDoors :
    (∃ node ∈ hensonDoors.navLocations.values,
        1 < (matchedNames containsIgnoringCase node.name).length) ∧
      DataManager.OrderFree containsIgnoringCase hensonDoors := by
  have owned : hensonDoors.Owned := managerOf_owned _
  have heads : ∀ first ∈ hensonDoors.navLocations.values, ∀ second ∈ hensonDoors.navLocations.values,
      (matchedNames containsIgnoringCase second.name).head? =
          (matchedNames containsIgnoringCase first.name).head? → first.id = second.id := by
    decide +kernel
  refine ⟨by decide +kernel, (DataManager.initBuildingsArray_orderFree_iff containsIgnoringCase
    hensonDoors owned).mpr ?_⟩
  intro first one second two apart _ shared
  exact apart (owned.eq_of_id one two (heads first one second two shared))

end Examples

end AugmentedCampus
