import AugmentedCampus.Campus.Buildings
import AugmentedCampus.Campus.ImportInvariant
import AugmentedCampus.Foundation.GuardedLog

/-! What `initBuildingsArray` makes of the nodes, whatever their order. -/
namespace AugmentedCampus

open Foundation

universe u v

variable {Id : Type u} {K : Type v} [DecidableEq K]

/-- The node is an entrance of a building of that name. -/
def Listed (buildings : List (Building Id K)) (name : String) (node : NavigationNode Id K) : Prop :=
  ∃ building ∈ buildings, building.name = name ∧ node ∈ building.nodes

theorem firstMissing_eq_some {known names : List String} {name : String}
    (missing : firstMissing known names = some name) : name ∈ names ∧ name ∉ known := by
  induction names with
  | nil => cases missing
  | cons first rest ih =>
    rw [firstMissing_cons] at missing
    by_cases present : first ∈ known
    · rw [if_pos present] at missing
      exact ⟨List.mem_cons_of_mem _ (ih missing).1, (ih missing).2⟩
    · rw [if_neg present] at missing
      cases missing
      exact ⟨List.mem_cons_self, present⟩

section Step

variable {containsIgnoringCase : String → String → Bool} {node other : NavigationNode Id K}
  {buildings : List (Building Id K)} {name : String}

theorem existing_enterNode (distinct : (existing buildings).Nodup) :
    existing (DataManager.enterNode containsIgnoringCase node buildings) =
      existing buildings ++ (firstMissing (existing buildings)
        (matchedNames containsIgnoringCase node.name)).toList := by
  rw [enterNode_eq node containsIgnoringCase distinct]
  cases firstMissing (existing buildings) (matchedNames containsIgnoringCase node.name) <;>
    simp [existing, Function.comp_def]

/-- A building after the step is one from before, the node added to it or not,
or the new one. -/
theorem mem_enterNode (distinct : (existing buildings).Nodup) {building : Building Id K} :
    building ∈ DataManager.enterNode containsIgnoringCase node buildings ↔
      (∃ old ∈ buildings, old.enrolled node (takenNames (existing buildings)
        (matchedNames containsIgnoringCase node.name)) = building) ∨
      ∃ name, firstMissing (existing buildings)
        (matchedNames containsIgnoringCase node.name) = some name ∧
          Building.init node name = building := by
  rw [enterNode_eq node containsIgnoringCase distinct]
  simp

/-- What one node adds to the lists: itself, under the names it takes and the
name it creates. -/
theorem listed_enterNode (distinct : (existing buildings).Nodup) :
    Listed (DataManager.enterNode containsIgnoringCase node buildings) name other ↔
      Listed buildings name other ∨ other = node ∧
        (name ∈ takenNames (existing buildings) (matchedNames containsIgnoringCase node.name) ∨
          firstMissing (existing buildings) (matchedNames containsIgnoringCase node.name) =
            some name) := by
  constructor
  · intro listed
    obtain ⟨building, member, rfl, present⟩ := listed
    rcases (mem_enterNode distinct).mp member with ⟨old, kept, rfl⟩ | ⟨name, missing, rfl⟩
    · rw [Building.enrolled_name]
      rcases Building.mem_enrolled.mp present with before | ⟨taken, added⟩
      · exact .inl ⟨old, kept, rfl, before⟩
      · exact .inr ⟨added, .inl taken⟩
    · exact .inr ⟨List.mem_singleton.mp present, .inr missing⟩
  · intro listed
    rcases listed with ⟨old, kept, rfl, before⟩ | ⟨rfl, taken | missing⟩
    · exact ⟨_, (mem_enterNode distinct).mpr (.inl ⟨old, kept, rfl⟩), old.enrolled_name ..,
        Building.mem_enrolled.mpr (.inl before)⟩
    · obtain ⟨old, kept, rfl⟩ := List.mem_map.mp (mem_of_taken taken).2
      exact ⟨_, (mem_enterNode distinct).mpr (.inl ⟨old, kept, rfl⟩), old.enrolled_name ..,
        Building.mem_enrolled.mpr (.inr ⟨taken, rfl⟩)⟩
    · exact ⟨_, (mem_enterNode distinct).mpr (.inr ⟨name, missing, rfl⟩), rfl,
        List.mem_singleton.mpr rfl⟩

end Step

/-- The buildings made of the nodes entered so far. -/
structure Catalogued (containsIgnoringCase : String → String → Bool)
    (done : List (NavigationNode Id K)) (buildings : List (Building Id K)) : Prop where
  distinct : (existing buildings).Nodup
  named : ∀ name ∈ existing buildings, name ∈ buildingNames
  occupied : ∀ building ∈ buildings, building.nodes ≠ []
  entrances : ∀ building ∈ buildings, ∀ node ∈ building.nodes,
    node ∈ done ∧ building.name ∈ matchedNames containsIgnoringCase node.name
  once : done.Nodup → ∀ building ∈ buildings, building.nodes.Nodup
  covered : ∀ node ∈ done, matchedNames containsIgnoringCase node.name ≠ [] →
    ∃ building ∈ buildings, node ∈ building.nodes

section Run

variable {containsIgnoringCase : String → String → Bool} {done : List (NavigationNode Id K)}
  {node : NavigationNode Id K} {buildings : List (Building Id K)}

theorem distinct_enterNode (distinct : (existing buildings).Nodup) :
    (existing (DataManager.enterNode containsIgnoringCase node buildings)).Nodup := by
  rw [existing_enterNode distinct]
  cases missing : firstMissing (existing buildings)
    (matchedNames containsIgnoringCase node.name) with
  | none => simpa using distinct
  | some name =>
    refine List.nodup_append.mpr ⟨distinct, List.nodup_singleton name, ?_⟩
    intro old present new created same
    rw [List.mem_singleton.mp created] at same
    exact (firstMissing_eq_some missing).2 (same ▸ present)

/-- A node with a match takes or creates the first of its names. -/
theorem covered_enterNode (distinct : (existing buildings).Nodup)
    (matching : matchedNames containsIgnoringCase node.name ≠ []) :
    ∃ building ∈ DataManager.enterNode containsIgnoringCase node buildings,
      node ∈ building.nodes := by
  obtain ⟨name, rest, names⟩ := List.exists_cons_of_ne_nil matching
  have listed : Listed (DataManager.enterNode containsIgnoringCase node buildings) name node := by
    rw [listed_enterNode distinct, names, takenNames_cons, firstMissing_cons]
    by_cases present : name ∈ existing buildings
    · simp [present]
    · simp [present]
  obtain ⟨building, member, _, present⟩ := listed
  exact ⟨building, member, present⟩

/-- The step lemma of the loop over the nodes. -/
theorem Catalogued.enterNode (catalogued : Catalogued containsIgnoringCase done buildings) :
    Catalogued containsIgnoringCase (done ++ [node])
      (DataManager.enterNode containsIgnoringCase node buildings) := by
  have distinct := catalogued.distinct
  refine ⟨distinct_enterNode distinct, ?_, ?_, ?_, ?_, ?_⟩
  · intro name present
    rw [existing_enterNode distinct, List.mem_append, Option.mem_toList] at present
    rcases present with old | created
    · exact catalogued.named name old
    · exact (mem_matchedNames.mp (firstMissing_eq_some created).1).2.1
  · intro building member
    rcases (mem_enterNode distinct).mp member with ⟨old, kept, rfl⟩ | ⟨name, _, rfl⟩
    · obtain ⟨entrance, present⟩ := List.exists_mem_of_ne_nil _ (catalogued.occupied old kept)
      exact List.ne_nil_of_mem (Building.mem_enrolled.mpr (.inl present))
    · exact List.cons_ne_nil _ _
  · intro building member entrance present
    rcases (mem_enterNode distinct).mp member with ⟨old, kept, rfl⟩ | ⟨name, missing, rfl⟩
    · rw [Building.enrolled_name]
      rcases Building.mem_enrolled.mp present with earlier | ⟨taken, rfl⟩
      · obtain ⟨entered, matching⟩ := catalogued.entrances old kept entrance earlier
        exact ⟨List.mem_append_left _ entered, matching⟩
      · exact ⟨List.mem_append_right _ (List.mem_singleton.mpr rfl), (mem_of_taken taken).1⟩
    · rw [List.mem_singleton.mp present]
      exact ⟨List.mem_append_right _ (List.mem_singleton.mpr rfl), (firstMissing_eq_some missing).1⟩
  · intro different building member
    obtain ⟨earlier, _, apart⟩ := List.nodup_append.mp different
    have fresh : node ∉ done := fun entered =>
      apart node entered node (List.mem_singleton.mpr rfl) rfl
    rcases (mem_enterNode distinct).mp member with ⟨old, kept, rfl⟩ | ⟨name, _, rfl⟩
    · have once := catalogued.once earlier old kept
      rw [Building.enrolled_nodes]
      split
      · -- The node has not been entered before, so no building has it yet.
        refine List.nodup_append.mpr ⟨once, List.nodup_singleton node, ?_⟩
        intro earlier present added last same
        rw [List.mem_singleton.mp last] at same
        exact fresh (same ▸ (catalogued.entrances old kept earlier present).1)
      · exact once
    · exact List.nodup_singleton node
  · intro entrance entered matching
    rcases List.mem_append.mp entered with earlier | last
    · obtain ⟨old, kept, present⟩ := catalogued.covered entrance earlier matching
      exact ⟨_, (mem_enterNode distinct).mpr (.inl ⟨old, kept, rfl⟩),
        Building.mem_enrolled.mpr (.inl present)⟩
    · rw [List.mem_singleton.mp last] at matching ⊢
      exact covered_enterNode distinct matching

theorem Catalogued.start (containsIgnoringCase : String → String → Bool) :
    Catalogued containsIgnoringCase ([] : List (NavigationNode Id K)) [] := by
  constructor <;> simp

/-- The run lemma: any list of nodes, entered one after the other. -/
theorem catalogued_run (containsIgnoringCase : String → String → Bool)
    (nodes : List (NavigationNode Id K)) :
    Catalogued containsIgnoringCase nodes (nodes.foldl
      (fun buildings node => DataManager.enterNode containsIgnoringCase node buildings) []) := by
  refine foldl_keeps ?_ rfl (Catalogued.start containsIgnoringCase)
  exact fun done node rest buildings split catalogued => catalogued.enterNode

/-- Sorting the buildings changes nothing else. -/
theorem Catalogued.perm {sorted : List (Building Id K)} (same : sorted.Perm buildings)
    (catalogued : Catalogued containsIgnoringCase done buildings) :
    Catalogued containsIgnoringCase done sorted where
  distinct := (same.map Building.name).nodup_iff.mpr catalogued.distinct
  named name present := catalogued.named name ((same.map Building.name).mem_iff.mp present)
  occupied building member := catalogued.occupied building (same.mem_iff.mp member)
  entrances building member := catalogued.entrances building (same.mem_iff.mp member)
  once different building member := catalogued.once different building (same.mem_iff.mp member)
  covered node entered matching := by
    obtain ⟨building, member, present⟩ := catalogued.covered node entered matching
    exact ⟨building, same.mem_iff.mpr member, present⟩

end Run

namespace DataManager

variable [DecidableEq Id] {manager : DataManager Id K}

/-- The objects are stored under their own ids, as the import stores them. -/
def Owned (manager : DataManager Id K) : Prop :=
  ∀ id location, manager.getNode id = some location → location.id = id

theorem Referenced.owned (referenced : manager.Referenced) : manager.Owned := referenced.own

/-- Objects with the same number are one. -/
theorem Owned.eq_of_id (owned : manager.Owned) {first second : NavigationNode Id K}
    (one : first ∈ manager.navLocations.values) (two : second ∈ manager.navLocations.values)
    (same : first.id = second.id) : first = second := by
  obtain ⟨key, found⟩ := Dictionary.mem_values.mp one
  obtain ⟨other, stored⟩ := Dictionary.mem_values.mp two
  obtain rfl : key = other := (owned key first found).symm.trans (same.trans (owned other second stored))
  exact Option.some.inj (found.symm.trans stored)

theorem Owned.values_nodup (owned : manager.Owned) : manager.navLocations.values.Nodup := by
  refine List.Nodup.map_on ?_ (List.NodupKeys.nodup manager.navLocations.nodupKeys)
  rintro ⟨key, first⟩ one ⟨other, second⟩ two same
  have left := owned key first (AList.mem_lookup_iff.mpr one)
  have right := owned other second (AList.mem_lookup_iff.mpr two)
  simp only at same
  subst same
  rw [left] at right
  rw [right]

omit [DecidableEq Id] in
theorem initBuildingsArray_catalogued (containsIgnoringCase : String → String → Bool)
    (order : Dictionary.Order Id (NavigationNode Id K)) (manager : DataManager Id K) :
    Catalogued containsIgnoringCase (order.arrange manager.navLocations)
      (initBuildingsArray containsIgnoringCase order manager []) :=
  (catalogued_run containsIgnoringCase _).perm (List.perm_insertionSort _ _)

omit [DecidableEq Id] in
theorem initBuildingsArray_sorted (containsIgnoringCase : String → String → Bool)
    (order : Dictionary.Order Id (NavigationNode Id K)) (manager : DataManager Id K)
    (buildings : List (Building Id K)) :
    (initBuildingsArray containsIgnoringCase order manager buildings).Pairwise
      (fun first second => first.name ≤ second.name) := by
  have total : Std.Total fun first second : Building Id K => first.name ≤ second.name :=
    ⟨fun first second => le_total first.name second.name⟩
  have trans : IsTrans (Building Id K) fun first second => first.name ≤ second.name :=
    ⟨fun _ _ _ => le_trans⟩
  exact List.pairwise_insertionSort _ _

/-- The menu is sorted, names each building once and by a campus name, and gives
it entrances, each a node of matching name and none twice. Every node that is no
connection node and matches some name is an entrance. -/
theorem initBuildingsArray_catalogue (containsIgnoringCase : String → String → Bool)
    (order : Dictionary.Order Id (NavigationNode Id K)) (manager : DataManager Id K)
    (owned : manager.Owned) :
    let buildings := initBuildingsArray containsIgnoringCase order manager []
    buildings.Pairwise (fun first second => first.name ≤ second.name) ∧
      (buildings.map Building.name).Nodup ∧
      (∀ building ∈ buildings, building.name ∈ buildingNames ∧ building.nodes ≠ [] ∧
        building.nodes.Nodup ∧ ∀ node ∈ building.nodes, node ∈ manager.navLocations.values ∧
          containsIgnoringCase node.name building.name = true ∧
          containsIgnoringCase node.name "node" = false) ∧
      ∀ node ∈ manager.navLocations.values, containsIgnoringCase node.name "node" = false →
        (∃ name ∈ buildingNames, containsIgnoringCase node.name name = true) →
          ∃ building ∈ buildings, node ∈ building.nodes := by
  intro buildings
  have catalogued := initBuildingsArray_catalogued containsIgnoringCase order manager
  have once := catalogued.once ((order.perm _).nodup_iff.mpr owned.values_nodup)
  refine ⟨initBuildingsArray_sorted .., catalogued.distinct, fun building member => ?_, ?_⟩
  · refine ⟨catalogued.named _ (List.mem_map_of_mem member), catalogued.occupied building member,
      once building member, fun node present => ?_⟩
    obtain ⟨entered, matching⟩ := catalogued.entrances building member node present
    obtain ⟨entrance, _, found⟩ := mem_matchedNames.mp matching
    exact ⟨(order.perm _).mem_iff.mp entered, found, Bool.eq_false_iff.mpr entrance⟩
  · intro node stored entrance matching
    obtain ⟨name, named, found⟩ := matching
    refine catalogued.covered node ((order.perm _).mem_iff.mpr stored) ?_
    exact List.ne_nil_of_mem
      (mem_matchedNames.mpr ⟨Bool.eq_false_iff.mp entrance, named, found⟩)

end DataManager

section Examples

/-- `containsIgnoringCase(find:)` for texts without accents. -/
def containsIgnoringCase (text find : String) : Bool :=
  decide (find.toList.map Char.toLower <:+: text.toList.map Char.toLower)

def managerOf (nodes : List (NodeRecord Int K)) : DataManager Int K :=
  nodes.foldl DataManager.addNode .empty

theorem managerOf_owned (nodes : List (NodeRecord Int K)) : (managerOf nodes).Owned :=
  (DataManager.referenced_nodes nodes).owned

def twoBuildings : DataManager Int ℚ := managerOf [⟨1, "Library", 0, 0⟩, ⟨2, "Darden", 3, 4⟩]

/-- Two doors of one building; the name of another building is in theirs. -/
def hensonHall : DataManager Int ℚ := managerOf [⟨1, "Henson Hall", 0, 0⟩, ⟨2, "Henson Hall", 3, 4⟩]

example : existing (DataManager.initBuildingsArray containsIgnoringCase .asStored twoBuildings []) =
    ["Darden", "Library"] := by
  decide +kernel

theorem initBuildingsArray_catalogue_hensonHall :
    (existing (DataManager.initBuildingsArray containsIgnoringCase .asStored hensonHall [])).Nodup ∧
      ∀ building ∈ DataManager.initBuildingsArray containsIgnoringCase .asStored hensonHall [],
        building.name ∈ buildingNames ∧ building.nodes ≠ [] := by
  obtain ⟨_, distinct, buildings, _⟩ := DataManager.initBuildingsArray_catalogue
    containsIgnoringCase .asStored hensonHall (managerOf_owned _)
  exact ⟨distinct, fun building member =>
    ⟨(buildings building member).1, (buildings building member).2.1⟩⟩

end Examples

end AugmentedCampus
