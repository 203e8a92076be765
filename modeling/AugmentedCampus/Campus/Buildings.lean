import AugmentedCampus.Campus.DataManager
import Mathlib.Data.List.Sort
import Mathlib.Data.String.Basic

/-! The menu of buildings: which nodes are entrances of which building. -/
namespace AugmentedCampus

open Foundation

universe u v

structure Building (Id : Type u) (K : Type v) [DecidableEq K] where
  nodes : List (NavigationNode Id K)
  name : String

namespace Building

variable {Id : Type u} {K : Type v} [DecidableEq K]

/-- `init(node:name:)` -/
def init (node : NavigationNode Id K) (name : String) : Building Id K := ⟨[node], name⟩

def addNavLoc (building : Building Id K) (node : NavigationNode Id K) : Building Id K :=
  { building with nodes := building.nodes ++ [node] }

end Building

def buildingNames : List String :=
  ["Cavalier House", "David J. Prior", "Humphreys-Thomas", "Carl Smith", "Ramseyer Press",
    "Baptist Collegiate", "Culbertson", "Napolean Hill", "Commonwealth", "Lila Vicars Smith",
    "McCraray", "Gilliam Center", "Hunter J. Smith", "Thompson", "Papa John's", "Martha Randolph",
    "Henson Hall", "Library", "Cantrell", "Chapel of All Faiths", "Finacial Aid", "Student Center",
    "Smiddy", "Mondo's", "Bowers-Sturgill", "Stallard Field", "Fred B. Greer Gym",
    "Disability Support", "Darden", "Zehmer", "Henson", "Sandridge", "Physical Plant",
    "Intramural sports", "Observatory", "Alumni Hall", "Wesley Foundation", "Teaching Excellence",
    "Resource Center", "Women's Softball Field", "Lila Vicars Smith House",
    "Humphreys Tennis Complex", "Asbury", "Wyllie Hall", "Townhouses", "Sculpture Garden"]

theorem buildingNames_nodup : buildingNames.Nodup := by decide

namespace DataManager

variable {Id : Type u} {K : Type v} [DecidableEq K]

section Loops

variable (containsIgnoringCase : String → String → Bool) (node : NavigationNode Id K)

/-- The loop over `buildings`: the first one of that name gets the node. -/
def addToBuilding (buildName : String) : List (Building Id K) → List (Building Id K)
  | [] => []
  | building :: rest =>
    if building.name == buildName then building.addNavLoc node :: rest
    else building :: addToBuilding buildName rest

/-- The loop over the names for one node. Adding to a building goes on to the
next name, creating one leaves the loop. -/
def scanNames : List String → List (Building Id K) → List (Building Id K)
  | [], buildings => buildings
  | buildName :: names, buildings =>
    if containsIgnoringCase node.name buildName then
      if buildings.any (fun building => building.name == buildName) then
        scanNames names (addToBuilding node buildName buildings)
      else buildings ++ [Building.init node buildName]
    else scanNames names buildings

/-- The body of the loop over `navLocations`. -/
def enterNode (buildings : List (Building Id K)) : List (Building Id K) :=
  if containsIgnoringCase node.name "node" then buildings
  else scanNames containsIgnoringCase node buildingNames buildings

end Loops

/-- `range(of:options:)` decides `containsIgnoringCase`. -/
def initBuildingsArray (containsIgnoringCase : String → String → Bool)
    (order : Dictionary.Order Id (NavigationNode Id K)) (manager : DataManager Id K)
    (buildings : List (Building Id K)) : List (Building Id K) :=
  ((order.arrange manager.navLocations).foldl
    (fun buildings node => enterNode containsIgnoringCase node buildings) buildings).insertionSort
      fun first second => first.name ≤ second.name

end DataManager

/-- The names of the buildings that exist. -/
abbrev existing {Id : Type u} {K : Type v} [DecidableEq K] (buildings : List (Building Id K)) :
    List String :=
  buildings.map Building.name

/-- The building names found in a node's name, unless it is a connection node. -/
def matchedNames (containsIgnoringCase : String → String → Bool) (name : String) : List String :=
  if containsIgnoringCase name "node" then []
  else buildingNames.filter (containsIgnoringCase name)

/-- Of the names, those before the first without a building. -/
def takenNames (known names : List String) : List String := names.takeWhile (· ∈ known)

/-- The first of the names without a building. -/
def firstMissing (known names : List String) : Option String :=
  (names.dropWhile (· ∈ known)).head?

@[simp] theorem takenNames_nil (known : List String) : takenNames known [] = [] := rfl

@[simp] theorem firstMissing_nil (known : List String) : firstMissing known [] = none := rfl

theorem takenNames_cons (known names : List String) (name : String) :
    takenNames known (name :: names) =
      if name ∈ known then name :: takenNames known names else [] := by
  simp [takenNames, List.takeWhile_cons]

theorem firstMissing_cons (known names : List String) (name : String) :
    firstMissing known (name :: names) =
      if name ∈ known then firstMissing known names else some name := by
  by_cases present : name ∈ known
  · simp [firstMissing, present]
  · simp [firstMissing, present]

theorem mem_of_taken {known names : List String} {name : String}
    (taken : name ∈ takenNames known names) : name ∈ names ∧ name ∈ known := by
  induction names with
  | nil => simp at taken
  | cons first rest ih =>
    rw [takenNames_cons] at taken
    by_cases present : first ∈ known
    · rw [if_pos present] at taken
      rcases List.mem_cons.mp taken with rfl | later
      · exact ⟨List.mem_cons_self, present⟩
      · exact ⟨List.mem_cons_of_mem _ (ih later).1, (ih later).2⟩
    · simp [present] at taken

theorem matchedNames_nodup (containsIgnoringCase : String → String → Bool) (name : String) :
    (matchedNames containsIgnoringCase name).Nodup := by
  unfold matchedNames
  split
  · exact List.nodup_nil
  · exact buildingNames_nodup.filter _

theorem mem_matchedNames {containsIgnoringCase : String → String → Bool} {name buildName : String} :
    buildName ∈ matchedNames containsIgnoringCase name ↔
      ¬ containsIgnoringCase name "node" = true ∧ buildName ∈ buildingNames ∧
        containsIgnoringCase name buildName = true := by
  by_cases connection : containsIgnoringCase name "node" = true
  · simp [matchedNames, connection]
  · simp [matchedNames, connection]

namespace Building

variable {Id : Type u} {K : Type v} [DecidableEq K]

/-- The building once the node has been listed under the chosen names. -/
def enrolled (node : NavigationNode Id K) (chosen : List String) (building : Building Id K) :
    Building Id K :=
  if building.name ∈ chosen then building.addNavLoc node else building

@[simp] theorem addNavLoc_name (building : Building Id K) (node : NavigationNode Id K) :
    (building.addNavLoc node).name = building.name := rfl

@[simp] theorem init_name (node : NavigationNode Id K) (name : String) :
    (init node name).name = name := rfl

@[simp] theorem enrolled_name (node : NavigationNode Id K) (chosen : List String)
    (building : Building Id K) : (building.enrolled node chosen).name = building.name := by
  unfold enrolled
  split <;> rfl

theorem enrolled_nodes (node : NavigationNode Id K) (chosen : List String)
    (building : Building Id K) :
    (building.enrolled node chosen).nodes =
      if building.name ∈ chosen then building.nodes ++ [node] else building.nodes := by
  unfold enrolled
  split <;> rfl

theorem mem_enrolled {node entrance : NavigationNode Id K} {chosen : List String}
    {building : Building Id K} :
    entrance ∈ (building.enrolled node chosen).nodes ↔
      entrance ∈ building.nodes ∨ building.name ∈ chosen ∧ entrance = node := by
  rw [enrolled_nodes]
  by_cases taken : building.name ∈ chosen <;> simp [taken]

@[simp] theorem map_enrolled_nil (node : NavigationNode Id K) (buildings : List (Building Id K)) :
    buildings.map (enrolled node []) = buildings :=
  List.map_id _

/-- Buildings of other names stay as they are. -/
theorem map_enrolled_of_absent (node : NavigationNode Id K) {name : String}
    {buildings : List (Building Id K)} (absent : name ∉ buildings.map Building.name) :
    buildings.map (enrolled node [name]) = buildings := by
  refine (List.map_congr_left fun building member => ?_).trans (List.map_id _)
  have different : building.name ≠ name := by
    intro same
    exact absent (same ▸ List.mem_map_of_mem member)
  simp [enrolled, different]

theorem enrolled_enrolled (node : NavigationNode Id K) {name : String} {chosen : List String}
    (fresh : name ∉ chosen) (building : Building Id K) :
    (building.enrolled node [name]).enrolled node chosen =
      building.enrolled node (name :: chosen) := by
  by_cases same : building.name = name
  · simp [enrolled, same, fresh]
  · by_cases later : building.name ∈ chosen <;> simp [enrolled, same, later]

end Building

section Scan

variable {Id : Type u} {K : Type v} [DecidableEq K] (node : NavigationNode Id K)

theorem addToBuilding_eq {buildings : List (Building Id K)} (distinct : (existing buildings).Nodup)
    (buildName : String) :
    DataManager.addToBuilding node buildName buildings =
      buildings.map (Building.enrolled node [buildName]) := by
  induction buildings with
  | nil => rfl
  | cons building rest ih =>
    obtain ⟨apart, later⟩ := List.nodup_cons.mp distinct
    by_cases same : building.name = buildName
    · rw [DataManager.addToBuilding, List.map_cons,
        Building.map_enrolled_of_absent node (same ▸ apart)]
      simp [Building.enrolled, same]
    · rw [DataManager.addToBuilding, List.map_cons, ← ih later]
      simp [Building.enrolled, same]

/-- The scan lists the node under the matching names that have a building, up
to the first that has none, and creates that one. -/
theorem scanNames_eq (containsIgnoringCase : String → String → Bool) {names : List String}
    (once : names.Nodup) {buildings : List (Building Id K)}
    (distinct : (existing buildings).Nodup) :
    DataManager.scanNames containsIgnoringCase node names buildings =
      buildings.map (Building.enrolled node (takenNames (existing buildings)
        (names.filter (containsIgnoringCase node.name)))) ++
      ((firstMissing (existing buildings)
        (names.filter (containsIgnoringCase node.name))).map (Building.init node)).toList := by
  induction names generalizing buildings with
  | nil => simp [DataManager.scanNames]
  | cons buildName rest ih =>
    obtain ⟨apart, later⟩ := List.nodup_cons.mp once
    by_cases found : containsIgnoringCase node.name buildName = true
    · by_cases known : buildName ∈ existing buildings
      · have present : buildings.any (fun building => building.name == buildName) = true := by
          simpa using known
        have grown : existing (buildings.map (Building.enrolled node [buildName])) =
            existing buildings := by
          simp [existing, Function.comp_def]
        have fresh : buildName ∉ takenNames (existing buildings)
            (rest.filter (containsIgnoringCase node.name)) := by
          intro taken
          exact apart (List.mem_of_mem_filter (mem_of_taken taken).1)
        rw [DataManager.scanNames, if_pos found, if_pos present, addToBuilding_eq node distinct,
          ih later (by rwa [grown]), grown, List.map_map, List.filter_cons_of_pos found,
          takenNames_cons, firstMissing_cons, if_pos known, if_pos known]
        congr 2
        funext building
        exact building.enrolled_enrolled node fresh
      · have absent : ¬ buildings.any (fun building => building.name == buildName) = true := by
          simpa using known
        rw [DataManager.scanNames, if_pos found, if_neg absent, List.filter_cons_of_pos found,
          takenNames_cons, firstMissing_cons, if_neg known, if_neg known]
        simp
    · rw [DataManager.scanNames, if_neg found, ih later distinct, List.filter_cons_of_neg found]

theorem enterNode_eq (containsIgnoringCase : String → String → Bool)
    {buildings : List (Building Id K)} (distinct : (existing buildings).Nodup) :
    DataManager.enterNode containsIgnoringCase node buildings =
      buildings.map (Building.enrolled node (takenNames (existing buildings)
        (matchedNames containsIgnoringCase node.name))) ++
      ((firstMissing (existing buildings)
        (matchedNames containsIgnoringCase node.name)).map (Building.init node)).toList := by
  by_cases connection : containsIgnoringCase node.name "node" = true
  · simp [DataManager.enterNode, matchedNames, connection]
  · rw [DataManager.enterNode, if_neg connection, matchedNames, if_neg connection]
    exact scanNames_eq node containsIgnoringCase buildingNames_nodup distinct

end Scan

end AugmentedCampus
