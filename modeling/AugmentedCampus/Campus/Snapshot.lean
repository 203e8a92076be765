import AugmentedCampus.Campus.Launch
import AugmentedCampus.Foundation.Tree
import Mathlib.Algebra.Order.Floor.Ring

/-! The fields that lie in the database: how the editor sets them, and how the app
reads and casts them. -/
namespace AugmentedCampus

open Foundation

universe v

inductive Leaf (K : Type v) where
  | number (value : K)
  | string (text : String)
  | bool (flag : Bool)
  deriving DecidableEq

abbrev Stored (K : Type v) := Tree String (Leaf K)

namespace Stored

variable {K : Type v}

def leaf (value : Leaf K) : Stored K where
  leaves := AList.singleton [] value
  apart path rest leaf found longer := by
    have away : path ++ rest ≠ [] := by simp [longer]
    rw [← AList.insert_empty, AList.lookup_insert_ne away, AList.lookup_empty]

theorem get_leaf (value : Leaf K) : (leaf value).get [] = some value :=
  AList.lookup_insert ∅

/-- The leaves of a script object; a null field has none. -/
def fieldLeaves (fields : List (String × Option (Leaf K))) :
    Dictionary (List String) (Leaf K) :=
  fields.foldr (fun field leaves => Dictionary.set leaves [field.1] field.2) ∅

theorem lookup_fieldLeaves (fields : List (String × Option (Leaf K))) (path : List String) :
    (fieldLeaves fields).lookup path =
      match path with
      | [name] => (fields.lookup name).join
      | _ => none := by
  induction fields with
  | nil =>
    rw [fieldLeaves, List.foldr_nil, AList.lookup_empty]
    split <;> rfl
  | cons field rest ih =>
    obtain ⟨label, value⟩ := field
    rw [fieldLeaves, List.foldr_cons, Dictionary.lookup_set, ← fieldLeaves, ih]
    rcases path with _ | ⟨name, _ | ⟨below, deeper⟩⟩
    · simp
    · by_cases same : name = label
      · simp [same]
      · simp [same, List.lookup_cons, beq_false_of_ne same]
    · simp

/-- The object that is passed to `set()`. -/
def record (fields : List (String × Option (Leaf K))) : Stored K where
  leaves := fieldLeaves fields
  apart path rest leaf found longer := by
    rw [lookup_fieldLeaves] at found ⊢
    split at found
    · cases rest with
      | nil => exact absurd rfl longer
      | cons _ _ => rfl
    · cases found

theorem get_record (fields : List (String × Option (Leaf K))) (path : List String) :
    (record fields).get path =
      match path with
      | [name] => (fields.lookup name).join
      | _ => none :=
  lookup_fieldLeaves fields path

end Stored

section Sets

variable {K : Type v} [NatCast K]

/-- The object with these values; `emptyNode` is the one with nulls. -/
def NodeRecord.object (node : Option (NodeRecord Nat K)) : Stored K :=
  .record [("_id", node.map fun node => .number node.id),
    ("description", node.map fun node => .string node.description),
    ("latitude", node.map fun node => .number node.latitude),
    ("longitude", node.map fun node => .number node.longitude)]

def EdgeRecord.object (edge : Option (EdgeRecord Nat K)) : Stored K :=
  .record [("_id", edge.map fun edge => .string edge.id),
    ("from", edge.map fun edge => .number edge.fromNode),
    ("to", edge.map fun edge => .number edge.toNode),
    ("stairs", edge.map fun edge => .bool edge.stairs),
    ("weight", edge.map fun edge => .number edge.weight)]

/-- The call of `set()` behind a write. -/
def Stored.apply (tree : Stored K) : Write K → Stored K
  | .index value => tree.set ["Graph", "index"] (Stored.leaf (.number value))
  | .node key record => tree.set ["Graph", "Nodes", key] (NodeRecord.object record)
  | .edge key record => tree.set ["Graph", "Edges", key] (EdgeRecord.object record)

/-- The tree has the records of the store, field by field. -/
structure Database.Lies (store : Database K) (tree : Stored K) : Prop where
  index : tree.get ["Graph", "index"] = store.index.map fun value => .number value
  node : ∀ key rest, tree.get ("Graph" :: "Nodes" :: key :: rest) =
    (NodeRecord.object (store.nodes.lookup key)).get rest
  edge : ∀ key rest, tree.get ("Graph" :: "Edges" :: key :: rest) =
    (EdgeRecord.object (store.edges.lookup key)).get rest

omit [NatCast K] in
/-- An object of nulls is nothing. -/
theorem Stored.get_nulls {fields : List (String × Option (Leaf K))}
    (nulls : ∀ field ∈ fields, field.2 = none) (path : List String) :
    (Stored.record fields).get path = none := by
  rw [Stored.get_record]
  split
  · rename_i name
    cases found : fields.lookup name with
    | none => rfl
    | some value =>
      obtain ⟨_, _, rfl, _⟩ := List.lookup_eq_some_iff.mp found
      exact nulls (name, value) (by simp)
  · rfl

theorem Database.lies_empty : Database.Lies (⟨none, ∅, ∅⟩ : Database K) Tree.empty where
  index := rfl
  node key rest := by
    rw [AList.lookup_empty]
    exact (Stored.get_nulls (by simp) rest).symm
  edge key rest := by
    rw [AList.lookup_empty]
    exact (Stored.get_nulls (by simp) rest).symm

/-- Each write has in the tree the effect that it has on the store. -/
theorem Database.Lies.apply {store : Database K} {tree : Stored K} (lies : store.Lies tree)
    (write : Write K) : (store.apply write).Lies (tree.apply write) := by
  cases write with
  | index value =>
    refine ⟨?_, fun key rest => ?_, fun key rest => ?_⟩
    · exact (tree.get_set_below ["Graph", "index"] _ []).trans (Stored.get_leaf _)
    · rw [Stored.apply, Tree.get_set_apart _ _ (by simp) (by simp)]
      exact lies.node key rest
    · rw [Stored.apply, Tree.get_set_apart _ _ (by simp) (by simp)]
      exact lies.edge key rest
  | node place record =>
    refine ⟨?_, fun key rest => ?_, fun key rest => ?_⟩
    · rw [Stored.apply, Tree.get_set_apart _ _ (by simp) (by simp)]
      exact lies.index
    · rw [lookup_apply_node]
      by_cases same : key = place
      · subst key
        rw [if_pos rfl]
        exact tree.get_set_below ["Graph", "Nodes", place] _ rest
      · rw [if_neg same, Stored.apply, Tree.get_set_apart _ _ (by simp [Ne.symm same]) (by simp [same])]
        exact lies.node key rest
    · rw [Stored.apply, Tree.get_set_apart _ _ (by simp) (by simp)]
      exact lies.edge key rest
  | edge place record =>
    refine ⟨?_, fun key rest => ?_, fun key rest => ?_⟩
    · rw [Stored.apply, Tree.get_set_apart _ _ (by simp) (by simp)]
      exact lies.index
    · rw [Stored.apply, Tree.get_set_apart _ _ (by simp) (by simp)]
      exact lies.node key rest
    · rw [lookup_apply_edge]
      by_cases same : key = place
      · subst key
        rw [if_pos rfl]
        exact tree.get_set_below ["Graph", "Edges", place] _ rest
      · rw [if_neg same, Stored.apply, Tree.get_set_apart _ _ (by simp [Ne.symm same]) (by simp [same])]
        exact lies.edge key rest

/-- The run lemma of the writes. -/
theorem Database.Lies.foldl {store : Database K} {tree : Stored K} (lies : store.Lies tree)
    (writes : List (Write K)) :
    (writes.foldl Database.apply store).Lies (writes.foldl Stored.apply tree) := by
  induction writes generalizing store tree with
  | nil => exact lies
  | cons write rest ih => exact ih (lies.apply write)

end Sets

section Reads

variable {K : Type v}

abbrev Fields (K : Type v) := Dictionary String (Stored K)

/-- `snapshot.value as? [String: [String: Any]]` -/
def Stored.dictionaries (tree : Stored K) : Option (Dictionary String (Fields K)) :=
  tree.object.bind fun children =>
    if ∀ child ∈ children.values, child.object.isSome then some (children.convertValues Tree.object)
    else none

/-- `fetchNodes` and `fetchEdges`: what the completion handler is called with, if it is. -/
def Stored.fetch (tree : Stored K) (child : String) : Option (Option (Dictionary String (Fields K))) :=
  (Stored.dictionaries (tree.snapshot ["Graph", child])).map fun dictionary =>
    if dictionary.entries.isEmpty then none else some dictionary

namespace Leaf

/-- `as! Int`: a number without a fraction. -/
def asInt [Ring K] [LinearOrder K] [FloorRing K] : Leaf K → Option Int
  | .number value => if (⌊value⌋ : K) = value then some ⌊value⌋ else none
  | _ => none

/-- `as! Double` -/
def asDouble : Leaf K → Option K
  | .number value => some value
  | _ => none

/-- `as! String` -/
def asString : Leaf K → Option String
  | .string text => some text
  | _ => none

def asBool : Leaf K → Option Bool
  | .bool flag => some flag
  | _ => none

end Leaf

/-- The subscript of a dictionary of `Any`, as far as a leaf lies there. -/
def Fields.leaf (fields : Fields K) (name : String) : Option (Leaf K) :=
  (fields.lookup name).bind fun value => value.get []

theorem Fields.leaf_object {tree : Stored K} {fields : Fields K} (object : tree.object = some fields)
    (name : String) : Fields.leaf fields name = tree.get [name] := by
  rw [leaf, Tree.lookup_object object]
  by_cases listed : name ∈ tree.labels
  · simp [listed]
  · rw [if_neg listed, Option.bind_none]
    exact (Option.eq_none_iff_forall_ne_some.mpr fun leaf found =>
      listed (Tree.mem_labels.mpr ⟨[], leaf, found⟩)).symm

section Records

variable {Record : Type v} {object : Option Record → Stored K} {tree : Stored K}
  {records : Dictionary String Record}
  (below : ∀ key rest, tree.get (key :: rest) = (object (records.lookup key)).get rest)
  (nulls : ∀ rest, (object none).get rest = none)
  (filled : ∀ record, (object (some record)).get ["_id"] ≠ none)

include below nulls filled

theorem Stored.mem_labels_iff {key : String} :
    key ∈ tree.labels ↔ ∃ record, records.lookup key = some record := by
  rw [Tree.mem_labels]
  cases stored : records.lookup key with
  | none => simp [below, stored, nulls]
  | some record =>
    obtain ⟨leaf, found⟩ := Option.ne_none_iff_exists'.mp (filled record)
    simp only [below, stored, Option.some.injEq, exists_eq', iff_true]
    exact ⟨["_id"], leaf, found⟩

omit nulls in
theorem Stored.object_isSome {key : String} {record : Record}
    (stored : records.lookup key = some record) : (tree.snapshot [key]).object.isSome := by
  rw [Option.isSome_iff_ne_none, Ne, Tree.object_eq_none, not_forall]
  refine ⟨"_id", fun absent => filled record ?_⟩
  have gone := absent []
  rwa [Tree.get_snapshot, List.singleton_append, below, stored] at gone

theorem Stored.dictionaries_of_object {children : Dictionary String (Stored K)}
    (known : tree.object = some children) :
    Stored.dictionaries tree = some (children.convertValues Tree.object) := by
  rw [Stored.dictionaries, known, Option.bind_some, if_pos]
  intro child listed
  obtain ⟨key, found⟩ := Dictionary.mem_values.mp listed
  rw [Tree.lookup_object known] at found
  split at found
  · rename_i label
    cases found
    obtain ⟨record, stored⟩ := (Stored.mem_labels_iff below nulls filled).mp label
    exact Stored.object_isSome below filled stored
  · cases found

theorem Stored.dictionaries_eq_none :
    Stored.dictionaries tree = none ↔ ∀ key, records.lookup key = none := by
  constructor
  · intro unread key
    cases known : tree.object with
    | none =>
      refine Option.eq_none_iff_forall_ne_some.mpr fun record stored => ?_
      obtain ⟨rest, leaf, found⟩ :=
        Tree.mem_labels.mp ((Stored.mem_labels_iff below nulls filled).mpr ⟨record, stored⟩)
      cases (Tree.object_eq_none.mp known key rest).symm.trans found
    | some children => cases (dictionaries_of_object below nulls filled known).symm.trans unread
  · intro unstored
    have nothing : tree.object = none := by
      rw [Tree.object_eq_none]
      exact fun key rest => by rw [below, unstored, nulls]
    rw [dictionaries, nothing, Option.bind_none]

/-- Each record is read as the dictionary of its fields. -/
theorem Stored.lookup_dictionaries {read : Dictionary String (Fields K)}
    (found : Stored.dictionaries tree = some read) (key : String) :
    (records.lookup key = none → read.lookup key = none) ∧
      ∀ record, records.lookup key = some record → ∃ fields, read.lookup key = some fields ∧
        ∀ name, Fields.leaf fields name = (object (some record)).get [name] := by
  cases known : tree.object with
  | none => simp [dictionaries, known] at found
  | some children =>
    obtain rfl := Option.some.inj ((dictionaries_of_object below nulls filled known).symm.trans found)
    rw [Dictionary.lookup_convertValues, Tree.lookup_object known]
    refine ⟨fun unstored => ?_, fun record stored => ?_⟩
    · have unlisted : key ∉ tree.labels := by
        rw [mem_labels_iff below nulls filled]
        simp [unstored]
      rw [if_neg unlisted, Option.bind_none]
    · obtain ⟨fields, inside⟩ :=
        Option.isSome_iff_exists.mp (Stored.object_isSome below filled stored)
      rw [if_pos ((mem_labels_iff below nulls filled).mpr ⟨record, stored⟩), Option.bind_some]
      refine ⟨fields, inside, fun name => ?_⟩
      rw [Fields.leaf_object inside, Tree.get_snapshot, List.singleton_append, below, stored]

end Records

/-- Listing the dictionaries that were read is listing the records in some order. -/
theorem exists_recordOrder {Record Result : Type v} {convert : Fields K → Option Result}
    {parse : Record → Result} {read : Dictionary String (Fields K)}
    {records : Dictionary String Record}
    (lookups : ∀ key, (records.lookup key = none → read.lookup key = none) ∧
      ∀ record, records.lookup key = some record → ∃ fields, read.lookup key = some fields ∧
        convert fields = some (parse record))
    (order : Dictionary.Order String (Fields K)) :
    (∀ fields ∈ order.arrange read, (convert fields).isSome) ∧
      ∃ recordOrder : Dictionary.Order String Result,
        recordOrder.arrange (records.convertValues fun record => some (parse record)) =
          (order.arrange read).filterMap convert := by
  constructor
  · intro fields listed
    obtain ⟨key, found⟩ := order.mem_arrange.mp listed
    cases stored : records.lookup key with
    | none => cases ((lookups key).1 stored).symm.trans found
    | some record =>
      obtain ⟨_, same, converted⟩ := (lookups key).2 record stored
      cases same.symm.trans found
      simp [converted]
  · refine Dictionary.Order.exists_arrange _ ?_
    have read_ : ((order.arrange read).filterMap convert).Perm (read.convertValues convert).values := by
      rw [Dictionary.values_convertValues]
      exact (order.perm read).filterMap convert
    refine read_.trans (Dictionary.values_perm fun key => ?_)
    rw [Dictionary.lookup_convertValues, Dictionary.lookup_convertValues]
    cases stored : records.lookup key with
    | none => simp [(lookups key).1 stored]
    | some record =>
      obtain ⟨fields, found, converted⟩ := (lookups key).2 record stored
      simp [found, converted]

/-- What the completion handler gets, if it is called: the records, under any reading. -/
theorem Stored.fetch_cases {Record Result : Type v} {object : Option Record → Stored K}
    {convert : Fields K → Option Result} {parse : Record → Result} {tree : Stored K}
    {records : Dictionary String Record} {child : String}
    (below : ∀ key rest,
      tree.get ("Graph" :: child :: key :: rest) = (object (records.lookup key)).get rest)
    (nulls : ∀ rest, (object none).get rest = none)
    (filled : ∀ record, (object (some record)).get ["_id"] ≠ none)
    (reads : ∀ record fields, (∀ name, Fields.leaf fields name = (object (some record)).get [name]) →
      convert fields = some (parse record))
    (order : Dictionary.Order String (Fields K)) :
    Stored.fetch tree child = none ∧ records.entries = [] ∨
      ∃ read, Stored.fetch tree child = some (some read) ∧ records.entries ≠ [] ∧
        (∀ fields ∈ order.arrange read, (convert fields).isSome) ∧
          ∃ recordOrder : Dictionary.Order String Result,
            recordOrder.arrange (records.convertValues fun record => some (parse record)) =
              (order.arrange read).filterMap convert := by
  have below_ (key : String) (rest : List String) :
      (tree.snapshot ["Graph", child]).get (key :: rest) = (object (records.lookup key)).get rest := by
    rw [Tree.get_snapshot]
    exact below key rest
  have known := Stored.dictionaries_eq_none below_ nulls filled
  rw [← Dictionary.entries_eq_nil] at known
  cases found : Stored.dictionaries (tree.snapshot ["Graph", child]) with
  | none => exact .inl ⟨by rw [fetch, found, Option.map_none], known.mp found⟩
  | some read =>
    right
    have lookups := Stored.lookup_dictionaries below_ nulls filled found
    have stored : records.entries ≠ [] := fun empty => by cases (known.mpr empty).symm.trans found
    have nonempty : read.entries ≠ [] := by
      intro empty
      refine stored (Dictionary.entries_eq_nil.mpr fun key => ?_)
      refine Option.eq_none_iff_forall_ne_some.mpr fun record present => ?_
      obtain ⟨fields, inside, _⟩ := (lookups key).2 record present
      cases (Dictionary.entries_eq_nil.mp empty key).symm.trans inside
    refine ⟨read, by simp [fetch, found, nonempty], stored, ?_⟩
    refine exists_recordOrder (fun key => ⟨(lookups key).1, fun record present => ?_⟩) order
    obtain ⟨fields, inside, same⟩ := (lookups key).2 record present
    exact ⟨fields, inside, reads record fields same⟩

end Reads

section Import

variable {K : Type v} [Field K] [LinearOrder K]

/-- The same record with an `Int` for its number. -/
def NodeRecord.parsed (node : NodeRecord Nat K) : NodeRecord Int K :=
  ⟨node.id, node.description, node.latitude, node.longitude⟩

def EdgeRecord.parsed (edge : EdgeRecord Nat K) : EdgeRecord Int K :=
  ⟨edge.id, edge.fromNode, edge.toNode, edge.stairs, edge.weight⟩

def Database.parsedNodes (store : Database K) : Dictionary String (NodeRecord Int K) :=
  store.nodes.convertValues fun node => some node.parsed

def Database.parsedEdges (store : Database K) : Dictionary String (EdgeRecord Int K) :=
  store.edges.convertValues fun edge => some edge.parsed

variable [FloorRing K]

/-- The casts of a pass of the node loop. -/
def Fields.node (node : Fields K) : Option (NodeRecord Int K) :=
  match (Fields.leaf node "_id").bind Leaf.asInt,
    (Fields.leaf node "latitude").bind Leaf.asDouble,
    (Fields.leaf node "longitude").bind Leaf.asDouble,
    (Fields.leaf node "description").bind Leaf.asString with
  | some id, some lat, some lng, some dsc => some ⟨id, dsc, lat, lng⟩
  | _, _, _, _ => none

/-- Those of a pass of the edge loop: the stairs and the weight are not read. -/
def Fields.ends (edge : Fields K) : Option (Int × Int) :=
  match (Fields.leaf edge "from").bind Leaf.asInt,
    (Fields.leaf edge "to").bind Leaf.asInt with
  | some fromNode, some toNode => some (fromNode, toNode)
  | _, _ => none

/-- All that lies there of an edge. -/
def Fields.edge (edge : Fields K) : Option (EdgeRecord Int K) :=
  match (Fields.leaf edge "_id").bind Leaf.asString, Fields.ends edge,
    (Fields.leaf edge "stairs").bind Leaf.asBool,
    (Fields.leaf edge "weight").bind Leaf.asDouble with
  | some id, some (fromNode, toNode), some stairs, some weight =>
    some ⟨id, fromNode, toNode, stairs, weight⟩
  | _, _, _, _ => none

namespace DataManager

def addNodeFields (manager : DataManager Int K) (node : Fields K) : Option (DataManager Int K) :=
  (Fields.node node).map manager.addNode

def addEdgeFields (manager : DataManager Int K) (edge : Fields K) : Option (DataManager Int K) :=
  (Fields.ends edge).bind fun (fromNode, toNode) =>
    match manager.navLocations.lookup fromNode, manager.navLocations.lookup toNode with
    | some location, some node =>
      some ⟨manager.navLocations.insert fromNode
        (location.makeConnection node.toNavigationLocation)⟩
    | _, _ => none

/-- `convertToNavigationLocations` on the dictionaries as they are fetched; `none` when a
cast or an unwrap traps. -/
def convertFields (nodeOrder edgeOrder : Dictionary.Order String (Fields K))
    (manager : DataManager Int K) (nodes edges : Dictionary String (Fields K)) :
    Option (DataManager Int K) := do
  let manager ← (nodeOrder.arrange nodes).foldlM addNodeFields manager
  (edgeOrder.arrange edges).foldlM addEdgeFields manager

end DataManager

/-- The nested fetches of `viewDidLoad`: nothing while a completion handler is not called,
and no graph when something traps. -/
def viewDidLoadFields (nodeOrder edgeOrder : Dictionary.Order String (Fields K))
    (first second : Stored K) : Option (Option (DataManager Int K)) :=
  match Stored.fetch first "Nodes" with
  | none => none
  | some none => some none
  | some (some nodesDict) =>
    match Stored.fetch second "Edges" with
    | none => none
    | some none => some none
    | some (some edgesDict) =>
      some (DataManager.convertFields nodeOrder edgeOrder .empty nodesDict edgesDict)

section Records

variable {fields : Fields K}

theorem Fields.ends_of_edge {edge : EdgeRecord Int K} (read : Fields.edge fields = some edge) :
    Fields.ends fields = some (edge.fromNode, edge.toNode) := by
  unfold Fields.edge at read
  split at read
  · rename_i ends _ _
    cases read
    exact ends
  · cases read

theorem addEdgeFields_eq {edge : EdgeRecord Int K} (read : Fields.edge fields = some edge)
    (manager : DataManager Int K) : manager.addEdgeFields fields = manager.addEdge edge := by
  unfold DataManager.addEdgeFields DataManager.addEdge
  simp only [Fields.ends_of_edge read, Option.bind_some]
  cases manager.navLocations.lookup edge.fromNode <;>
    cases manager.navLocations.lookup edge.toNode <;> rfl

theorem addNodeFields_foldlM {listing : List (Fields K)}
    (read : ∀ fields ∈ listing, (Fields.node fields).isSome) (manager : DataManager Int K) :
    listing.foldlM DataManager.addNodeFields manager =
      some ((listing.filterMap Fields.node).foldl DataManager.addNode manager) := by
  induction listing generalizing manager with
  | nil => rfl
  | cons fields rest ih =>
    obtain ⟨node, found⟩ := Option.isSome_iff_exists.mp (read fields List.mem_cons_self)
    rw [List.foldlM_cons, DataManager.addNodeFields, found, List.filterMap_cons_some found]
    exact ih (fun later member => read later (List.mem_cons_of_mem _ member)) _

theorem addEdgeFields_foldlM {listing : List (Fields K)}
    (read : ∀ fields ∈ listing, (Fields.edge fields).isSome) (manager : DataManager Int K) :
    listing.foldlM DataManager.addEdgeFields manager =
      (listing.filterMap Fields.edge).foldlM DataManager.addEdge manager := by
  induction listing generalizing manager with
  | nil => rfl
  | cons fields rest ih =>
    obtain ⟨edge, found⟩ := Option.isSome_iff_exists.mp (read fields List.mem_cons_self)
    rw [List.foldlM_cons, List.filterMap_cons_some found, List.foldlM_cons, addEdgeFields_eq found]
    refine bind_congr fun later => ?_
    exact ih (fun other member => read other (List.mem_cons_of_mem _ member)) later

variable [IsStrictOrderedRing K]

theorem asInt_natCast (value : Nat) : (Leaf.number (value : K)).asInt = some (value : Int) := by
  simp [Leaf.asInt]

/-- The app reads what the editor set. -/
theorem Fields.node_eq {node : NodeRecord Nat K}
    (same : ∀ name, Fields.leaf fields name = (NodeRecord.object (some node)).get [name]) :
    Fields.node fields = some node.parsed := by
  simp [Fields.node, same, NodeRecord.object, Stored.get_record, List.lookup_cons, asInt_natCast,
    Leaf.asDouble, Leaf.asString, NodeRecord.parsed]

theorem Fields.edge_eq {edge : EdgeRecord Nat K}
    (same : ∀ name, Fields.leaf fields name = (EdgeRecord.object (some edge)).get [name]) :
    Fields.edge fields = some edge.parsed := by
  simp [Fields.edge, Fields.ends, same, EdgeRecord.object, Stored.get_record, List.lookup_cons,
    asInt_natCast, Leaf.asString, Leaf.asBool, Leaf.asDouble, EdgeRecord.parsed]

section Fetches

variable {store : Database K} {tree : Stored K}

theorem Database.Lies.fetch_nodes (lies : store.Lies tree)
    (order : Dictionary.Order String (Fields K)) :
    Stored.fetch tree "Nodes" = none ∧ store.nodes.entries = [] ∨
      ∃ read, Stored.fetch tree "Nodes" = some (some read) ∧ store.nodes.entries ≠ [] ∧
        (∀ fields ∈ order.arrange read, (Fields.node fields).isSome) ∧
          ∃ recordOrder : Dictionary.Order String (NodeRecord Int K),
            recordOrder.arrange store.parsedNodes = (order.arrange read).filterMap Fields.node :=
  Stored.fetch_cases lies.node (Stored.get_nulls (by simp))
    (fun record => by simp [NodeRecord.object, Stored.get_record])
    (fun _ _ same => Fields.node_eq same) order

theorem Database.Lies.fetch_edges (lies : store.Lies tree)
    (order : Dictionary.Order String (Fields K)) :
    Stored.fetch tree "Edges" = none ∧ store.edges.entries = [] ∨
      ∃ read, Stored.fetch tree "Edges" = some (some read) ∧ store.edges.entries ≠ [] ∧
        (∀ fields ∈ order.arrange read, (Fields.edge fields).isSome) ∧
          ∃ recordOrder : Dictionary.Order String (EdgeRecord Int K),
            recordOrder.arrange store.parsedEdges = (order.arrange read).filterMap Fields.edge :=
  Stored.fetch_cases lies.edge (Stored.get_nulls (by simp))
    (fun record => by simp [EdgeRecord.object, Stored.get_record])
    (fun _ _ same => Fields.edge_eq same) order

/-- The app waits when there is no node at the first read or no edge at the second. Else every
cast succeeds, and the import is that of the records, in some order of theirs. -/
theorem Database.Lies.viewDidLoad {first second : Database K} {tree later : Stored K}
    (one : first.Lies tree) (two : second.Lies later)
    (nodeOrder edgeOrder : Dictionary.Order String (Fields K)) :
    (first.nodes.entries = [] ∨ second.edges.entries = [] →
      viewDidLoadFields nodeOrder edgeOrder tree later = none) ∧
    (first.nodes.entries ≠ [] → second.edges.entries ≠ [] →
      ∃ (nodeRecords : Dictionary.Order String (NodeRecord Int K))
        (edgeRecords : Dictionary.Order String (EdgeRecord Int K)),
        viewDidLoadFields nodeOrder edgeOrder tree later =
          some (DataManager.convertToNavigationLocations nodeRecords edgeRecords .empty
            first.parsedNodes second.parsedEdges)) := by
  rcases one.fetch_nodes nodeOrder with ⟨unread, nothing⟩ | ⟨nodes, read, stored, converted, arranged⟩
  · refine ⟨fun _ => by simp only [viewDidLoadFields, unread], fun located => ?_⟩
    exact absurd nothing located
  · rcases two.fetch_edges edgeOrder with
      ⟨unread, nothing⟩ | ⟨edges, known, connected, cast, sorted⟩
    · refine ⟨fun _ => by simp only [viewDidLoadFields, read, unread], fun _ joined => ?_⟩
      exact absurd nothing joined
    · refine ⟨fun blank => absurd blank (by simp [stored, connected]), fun _ _ => ?_⟩
      obtain ⟨nodeRecords, nodesEqual⟩ := arranged
      obtain ⟨edgeRecords, edgesEqual⟩ := sorted
      refine ⟨nodeRecords, edgeRecords, ?_⟩
      simp only [viewDidLoadFields, read, known, DataManager.convertFields,
        addNodeFields_foldlM converted, DataManager.convertToNavigationLocations, nodesEqual,
        edgesEqual]
      rw [Option.bind_eq_bind, Option.bind_some, addEdgeFields_foldlM cast]

/-- Whatever was written before the nodes were read, and until the edges were read: the
app waits, traps or loads a graph as the import of the records does. The casts never fail. -/
theorem viewDidLoadFields_eq (nodeOrder edgeOrder : Dictionary.Order String (Fields K))
    (writes more : List (Write K)) :
    let first : Database K := writes.foldl Database.apply ⟨none, ∅, ∅⟩
    let second := more.foldl Database.apply first
    let loaded := viewDidLoadFields nodeOrder edgeOrder (writes.foldl Stored.apply Tree.empty)
      ((writes ++ more).foldl Stored.apply Tree.empty)
    (first.nodes.entries = [] ∨ second.edges.entries = [] → loaded = none) ∧
      (first.nodes.entries ≠ [] → second.edges.entries ≠ [] →
        ∃ (nodeRecords : Dictionary.Order String (NodeRecord Int K))
          (edgeRecords : Dictionary.Order String (EdgeRecord Int K)),
          loaded = some (DataManager.convertToNavigationLocations nodeRecords edgeRecords .empty
            first.parsedNodes second.parsedEdges)) := by
  intro first second loaded
  have one : first.Lies (writes.foldl Stored.apply Tree.empty) := Database.lies_empty.foldl writes
  have two : second.Lies ((writes ++ more).foldl Stored.apply Tree.empty) := by
    rw [List.foldl_append]
    exact one.foldl more
  exact one.viewDidLoad two nodeOrder edgeOrder

def earlyWrites : List (Write ℚ) := .index 0 :: (emptyCampus.editorWrites .asStored pathSurvey).take 2

def laterWrites : List (Write ℚ) := (emptyCampus.editorWrites .asStored pathSurvey).drop 2

/-- `Nodes` is read with one of the two places in it, `Edges` at the end. -/
theorem viewDidLoadFields_eq_survey :
    ∃ (nodeRecords : Dictionary.Order String (NodeRecord Int ℚ))
      (edgeRecords : Dictionary.Order String (EdgeRecord Int ℚ)),
      viewDidLoadFields .asStored .asStored (earlyWrites.foldl Stored.apply Tree.empty)
          ((earlyWrites ++ laterWrites).foldl Stored.apply Tree.empty) =
        some (DataManager.convertToNavigationLocations nodeRecords edgeRecords .empty
          (earlyWrites.foldl Database.apply ⟨none, ∅, ∅⟩).parsedNodes
          (laterWrites.foldl Database.apply (earlyWrites.foldl Database.apply ⟨none, ∅, ∅⟩)).parsedEdges) :=
  (viewDidLoadFields_eq .asStored .asStored earlyWrites laterWrites).2 (by decide +kernel)
    (by decide +kernel)

end Fetches

end Records

end Import

end AugmentedCampus
