import AugmentedCampus.Editor.Database

/-! Ids as the page passes them: `saveNode` counts in numbers, while the buttons write
ids into the text of a call and `deleteNode` takes a string. -/
namespace AugmentedCampus

open Foundation

universe v

/-- What `padToThree` gives back: a number, or a string. -/
inductive Scalar where
  | number (value : Nat)
  | text (value : String)
  deriving DecidableEq

/-- The string that `+` makes of it next to another string. -/
def Scalar.toText : Scalar → String
  | .number value => toString value
  | .text value => value

/-- An id: a number, which is exact and has decimal digits for its text, or a string of
decimal digits. -/
inductive IdValue where
  | number (value : Nat)
  | text (numeral : Numeral)

namespace IdValue

def toNumber : IdValue → Nat
  | .number value => value
  | .text numeral => numeral.value

def toScalar : IdValue → Scalar
  | .number value => .number value
  | .text numeral => .text numeral.text

/-- `padToThree(number)` -/
def padToThree (id : IdValue) : Scalar :=
  if id.toNumber ≤ 999 then .text (sliceLast 3 ("00" ++ id.toScalar.toText)) else id.toScalar

/-- `"node" + padToThree(id)` -/
def nodeKey (id : IdValue) : String := "node" ++ id.padToThree.toText

/-- `fNodeName + '_' + tNodeName` -/
def edgeKey (fromNode toNode : IdValue) : String := fromNode.nodeKey ++ "_" ++ toNode.nodeKey

def decimal (number : Nat) : IdValue := .text (.ofNat number)

/-- The natural number is passed as a number or as its decimal string. -/
def Passes (id : IdValue) (number : Nat) : Prop := id = .number number ∨ id = .decimal number

theorem Passes.toNumber {id : IdValue} {number : Nat} (passes : id.Passes number) :
    id.toNumber = number := by
  rcases passes with rfl | rfl
  · rfl
  · exact Numeral.value_ofNat number

/-- The digits under the text of an id. -/
def numeral : IdValue → Numeral
  | .number value => .ofNat value
  | .text numeral => numeral

theorem value_numeral (id : IdValue) : id.numeral.value = id.toNumber := by
  cases id with
  | number value => exact Numeral.value_ofNat value
  | text numeral => rfl

theorem text_numeral (id : IdValue) : id.toScalar.toText = id.numeral.text := by
  cases id with
  | number value => exact (Numeral.text_ofNat value).symm
  | text numeral => rfl

/-- What follows "node" in a key are digits that stand for the id. -/
theorem padToThree_numeral (id : IdValue) :
    ∃ padded : Numeral, padded.value = id.toNumber ∧ id.padToThree.toText = padded.text := by
  obtain ⟨padded, value, text⟩ := padded_numeral id.numeral
  rw [value_numeral, ← text_numeral] at text
  refine ⟨padded, value.trans id.value_numeral, ?_⟩
  rw [← text, padToThree]
  split <;> rfl

theorem nodeKey_injective {first second : IdValue} (same : first.nodeKey = second.nodeKey) :
    first.toNumber = second.toNumber := by
  obtain ⟨left, leftValue, leftText⟩ := first.padToThree_numeral
  obtain ⟨right, rightValue, rightText⟩ := second.padToThree_numeral
  have texts : left.text = right.text := by
    rw [← leftText, ← rightText]
    exact (String.append_right_inj _).mp same
  rw [← leftValue, ← rightValue, Numeral.value_eq_of_text_eq texts]

theorem separator_not_in_key (id : IdValue) : '_' ∉ id.nodeKey.toList := by
  obtain ⟨padded, _, text⟩ := id.padToThree_numeral
  simp [nodeKey, String.toList_append, text, padded.not_mem_text]

theorem edgeKey_injective {fromNode toNode otherFrom otherTo : IdValue}
    (same : edgeKey fromNode toNode = edgeKey otherFrom otherTo) :
    fromNode.toNumber = otherFrom.toNumber ∧ toNode.toNumber = otherTo.toNumber := by
  obtain ⟨left, right⟩ := joined_injective fromNode.separator_not_in_key
    toNode.separator_not_in_key same
  exact ⟨nodeKey_injective left, nodeKey_injective right⟩

/-- However a number is passed, its key is the one the stored records are kept under. -/
theorem Passes.nodeKey_eq {id : IdValue} {number : Nat} (passes : id.Passes number) :
    id.nodeKey = AugmentedCampus.nodeKey number := by
  have text : id.toScalar.toText = toString number := by
    rcases passes with rfl | rfl
    · rfl
    · exact Numeral.text_ofNat number
  rw [nodeKey, AugmentedCampus.nodeKey, padToThree, AugmentedCampus.padToThree, passes.toNumber,
    text]
  by_cases small : number ≤ 999
  · rw [if_pos small, if_pos small]
    rfl
  · rw [if_neg small, if_neg small, text]

theorem Passes.edgeKey_eq {fromNode toNode : IdValue} {source target : Nat}
    (passes : fromNode.Passes source) (other : toNode.Passes target) :
    edgeKey fromNode toNode = AugmentedCampus.edgeKey source target := by
  rw [edgeKey, passes.nodeKey_eq, other.nodeKey_eq]
  rfl

end IdValue

section Writes

variable {K : Type v} (store : Database K)

theorem Database.lookup_apply_otherNode {id other : IdValue} (different : other.toNumber ≠ id.toNumber)
    (record : Option (NodeRecord Nat K)) :
    (store.apply (.node id.nodeKey record)).nodes.lookup other.nodeKey =
      store.nodes.lookup other.nodeKey := by
  rw [Database.lookup_apply_node, if_neg (mt IdValue.nodeKey_injective different)]

theorem Database.lookup_apply_otherEdge {fromNode toNode otherFrom otherTo : IdValue}
    (different : ¬ (otherFrom.toNumber = fromNode.toNumber ∧ otherTo.toNumber = toNode.toNumber))
    (record : Option (EdgeRecord Nat K)) :
    (store.apply (.edge (fromNode.edgeKey toNode) record)).edges.lookup
        (otherFrom.edgeKey otherTo) = store.edges.lookup (otherFrom.edgeKey otherTo) := by
  rw [Database.lookup_apply_edge, if_neg (mt IdValue.edgeKey_injective different)]

end Writes

/-- Numbers passed either way have one node key only if they are equal, and an edge key
determines its ordered pair. So a record set or deleted under such a key is the only one
that a write changes. -/
theorem keys_never_collide (K : Type v) :
    (∀ (m n : Nat) (first second : IdValue), first.Passes m → second.Passes n →
      first.nodeKey = second.nodeKey → m = n) ∧
    (∀ (m n p q : Nat) (fromNode toNode otherFrom otherTo : IdValue), fromNode.Passes m →
      toNode.Passes n → otherFrom.Passes p → otherTo.Passes q →
        fromNode.edgeKey toNode = otherFrom.edgeKey otherTo → m = p ∧ n = q) ∧
    (∀ (store : Database K) (m : Nat) (id : IdValue) (record : Option (NodeRecord Nat K)),
      id.Passes m →
        (∀ (n : Nat) (other : IdValue), other.Passes n → n ≠ m →
          (store.apply (.node id.nodeKey record)).nodes.lookup other.nodeKey =
            store.nodes.lookup other.nodeKey) ∧
        (store.apply (.node id.nodeKey record)).edges = store.edges ∧
        (store.apply (.node id.nodeKey record)).index = store.index) ∧
    ∀ (store : Database K) (m n : Nat) (fromNode toNode : IdValue)
      (record : Option (EdgeRecord Nat K)), fromNode.Passes m → toNode.Passes n →
        (∀ (p q : Nat) (otherFrom otherTo : IdValue), otherFrom.Passes p → otherTo.Passes q →
          (p, q) ≠ (m, n) →
            (store.apply (.edge (fromNode.edgeKey toNode) record)).edges.lookup
                (otherFrom.edgeKey otherTo) =
              store.edges.lookup (otherFrom.edgeKey otherTo)) ∧
        (store.apply (.edge (fromNode.edgeKey toNode) record)).nodes = store.nodes ∧
        (store.apply (.edge (fromNode.edgeKey toNode) record)).index = store.index := by
  refine ⟨?_, ?_, ?_, ?_⟩
  · intro m n first second one other same
    rw [← one.toNumber, ← other.toNumber]
    exact IdValue.nodeKey_injective same
  · intro m n p q fromNode toNode otherFrom otherTo source target start finish same
    rw [← source.toNumber, ← target.toNumber, ← start.toNumber, ← finish.toNumber]
    exact IdValue.edgeKey_injective same
  · intro store m id record passes
    refine ⟨fun n other passed different => ?_, rfl, rfl⟩
    apply store.lookup_apply_otherNode
    rwa [passed.toNumber, passes.toNumber]
  · intro store m n fromNode toNode record source target
    refine ⟨fun p q otherFrom otherTo start finish different => ?_, rfl, rfl⟩
    apply store.lookup_apply_otherEdge
    rw [start.toNumber, finish.toNumber, source.toNumber, target.toNumber]
    exact fun same => different (Prod.ext same.1 same.2)

end AugmentedCampus
