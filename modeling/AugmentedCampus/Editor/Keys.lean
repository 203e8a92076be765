import AugmentedCampus.Foundation.Numeral

/-! The keys under which the editor stores records. Ids are natural numbers:
`saveNode` counts up from the stored index, and the editor's buttons pass on
the `_id` of a record that is shown. -/
namespace AugmentedCampus

open Foundation

/-- `text.slice(-count)` -/
def sliceLast (count : Nat) (text : String) : String :=
  String.ofList (text.toList.drop (text.toList.length - count))

def padToThree (number : Nat) : String :=
  if number ≤ 999 then sliceLast 3 ("00" ++ toString number) else toString number

/-- `"node" + padToThree(id)` -/
def nodeKey (id : Nat) : String := "node" ++ padToThree id

/-- `fNodeName + '_' + tNodeName` -/
def edgeKey (fromNode toNode : Nat) : String := nodeKey fromNode ++ "_" ++ nodeKey toNode

theorem sliceLast_numeral (numeral : Numeral) :
    sliceLast 3 ("00" ++ numeral.text) = ((numeral.zeros 2).last 3 (by decide)).text := by
  simp [sliceLast, Numeral.text, Numeral.last, Numeral.zeros, String.toList_append]

/-- Below 1000 the slice cuts zeros off only, and from there on nothing is cut: either
way the digits stand for the same number. -/
theorem padded_numeral (numeral : Numeral) :
    ∃ padded : Numeral, padded.value = numeral.value ∧
      (if numeral.value ≤ 999 then sliceLast 3 ("00" ++ numeral.text) else numeral.text) =
        padded.text := by
  by_cases small : numeral.value ≤ 999
  · have room : (numeral.zeros 2).value < 10 ^ 3 := by
      rw [Numeral.value_zeros]
      omega
    refine ⟨(numeral.zeros 2).last 3 (by decide), ?_, ?_⟩
    · rw [Numeral.value_last room, Numeral.value_zeros]
    · rw [if_pos small, sliceLast_numeral]
  · exact ⟨numeral, rfl, if_neg small⟩

theorem padToThree_numeral (number : Nat) :
    ∃ padded : Numeral, padded.value = number ∧ padToThree number = padded.text := by
  obtain ⟨padded, value, text⟩ := padded_numeral (.ofNat number)
  rw [Numeral.value_ofNat] at value text
  rw [Numeral.text_ofNat] at text
  exact ⟨padded, value, text⟩

theorem nodeKey_injective : Function.Injective nodeKey := by
  intro first second same
  obtain ⟨left, leftValue, leftText⟩ := padToThree_numeral first
  obtain ⟨right, rightValue, rightText⟩ := padToThree_numeral second
  have texts : left.text = right.text := by
    rw [← leftText, ← rightText]
    exact (String.append_right_inj _).mp same
  rw [← leftValue, ← rightValue, Numeral.value_eq_of_text_eq texts]

/-- The separator of an edge key occurs in no node key. -/
theorem separator_not_in_nodeKey (id : Nat) : '_' ∉ (nodeKey id).toList := by
  obtain ⟨padded, _, text⟩ := padToThree_numeral id
  simp [nodeKey, String.toList_append, text, padded.not_mem_text]

/-- Two strings joined by a separator that neither holds can be told apart again. -/
theorem joined_injective {left right otherLeft otherRight : String} (free : '_' ∉ left.toList)
    (clear : '_' ∉ right.toList) (same : left ++ "_" ++ right = otherLeft ++ "_" ++ otherRight) :
    left = otherLeft ∧ right = otherRight := by
  have equal : left.toList ++ '_' :: right.toList =
      otherLeft.toList ++ '_' :: otherRight.toList := by
    simpa [String.toList_append] using congrArg String.toList same
  obtain ⟨front, _, back⟩ := (List.append_cons_inj_of_notMem free clear).mp equal
  exact ⟨String.toList_inj.mp front, String.toList_inj.mp back⟩

theorem edgeKey_injective {fromNode toNode otherFrom otherTo : Nat}
    (same : edgeKey fromNode toNode = edgeKey otherFrom otherTo) :
    fromNode = otherFrom ∧ toNode = otherTo := by
  obtain ⟨left, right⟩ := joined_injective (separator_not_in_nodeKey fromNode)
    (separator_not_in_nodeKey toNode) same
  exact ⟨nodeKey_injective left, nodeKey_injective right⟩

@[simp] theorem nodeKey_inj {first second : Nat} : nodeKey first = nodeKey second ↔ first = second :=
  nodeKey_injective.eq_iff

@[simp] theorem edgeKey_inj {fromNode toNode otherFrom otherTo : Nat} :
    edgeKey fromNode toNode = edgeKey otherFrom otherTo ↔
      fromNode = otherFrom ∧ toNode = otherTo :=
  ⟨edgeKey_injective, fun ⟨left, right⟩ => by rw [left, right]⟩

example : edgeKey 7 1007 = "node007_node1007" := by decide

end AugmentedCampus
