import Mathlib.Data.List.Basic
import Mathlib.Data.List.Pairwise

/-! Finite sets kept as lists without two elements that the boolean equality
identifies. Insertion keeps the element that is already present. -/
namespace AugmentedCampus.Foundation

universe u

structure DistinctSet (α : Type u) [BEq α] where
  elements : List α
  distinct : elements.Pairwise (fun first second => (first == second) = false)

namespace DistinctSet

variable {α : Type u} [BEq α]

def empty : DistinctSet α := ⟨[], List.Pairwise.nil⟩

def singleton (item : α) : DistinctSet α := ⟨[item], List.pairwise_singleton _ _⟩

def contains (set : DistinctSet α) (item : α) : Bool := set.elements.any (· == item)

private theorem contains_false {set : DistinctSet α} {item : α} (absent : ¬ set.contains item = true) :
    ∀ element ∈ set.elements, (element == item) = false := by
  intro element member
  apply Bool.eq_false_iff.mpr
  intro same
  exact absent (List.any_eq_true.mpr ⟨element, member, same⟩)

def insert (set : DistinctSet α) (item : α) : DistinctSet α :=
  if present : set.contains item = true then set
  else ⟨set.elements ++ [item], by
    apply List.pairwise_append.mpr
    refine ⟨set.distinct, List.pairwise_singleton _ _, ?_⟩
    intro element member other added
    rw [List.mem_singleton.mp added]
    exact contains_false present element member⟩

def subtracting (set removed : DistinctSet α) : DistinctSet α :=
  ⟨set.elements.filter (fun item => !removed.contains item), set.distinct.filter _⟩

theorem contains_iff {set : DistinctSet α} {item : α} :
    set.contains item = true ↔ ∃ element ∈ set.elements, (element == item) = true :=
  List.any_eq_true

theorem insert_present {set : DistinctSet α} {item : α} (present : set.contains item = true) :
    set.insert item = set := by
  simp [insert, present]

theorem insert_absent {set : DistinctSet α} {item : α} (absent : ¬ set.contains item = true) :
    (set.insert item).elements = set.elements ++ [item] := by
  simp [insert, absent]

/-- Old elements stay; the only possible newcomer is the inserted one. -/
theorem mem_insert_cases {set : DistinctSet α} {item element : α}
    (member : element ∈ (set.insert item).elements) : element ∈ set.elements ∨ element = item := by
  by_cases present : set.contains item = true
  · rw [insert_present present] at member
    exact .inl member
  · rw [insert_absent present, List.mem_append, List.mem_singleton] at member
    exact member

theorem mem_insert_of_mem {set : DistinctSet α} {item element : α}
    (member : element ∈ set.elements) : element ∈ (set.insert item).elements := by
  by_cases present : set.contains item = true
  · rwa [insert_present present]
  · rw [insert_absent present]
    exact List.mem_append_left _ member

theorem contains_insert_of_contains {set : DistinctSet α} {item other : α}
    (present : set.contains other = true) : (set.insert item).contains other = true := by
  obtain ⟨element, member, same⟩ := contains_iff.mp present
  exact contains_iff.mpr ⟨element, mem_insert_of_mem member, same⟩

theorem contains_of_mem [ReflBEq α] {set : DistinctSet α} {item : α}
    (member : item ∈ set.elements) : set.contains item = true :=
  contains_iff.mpr ⟨item, member, BEq.rfl⟩

theorem contains_insert_self [ReflBEq α] (set : DistinctSet α) (item : α) :
    (set.insert item).contains item = true := by
  by_cases present : set.contains item = true
  · rwa [insert_present present]
  · apply contains_of_mem
    simp [insert_absent present]

theorem contains_congr [EquivBEq α] {set : DistinctSet α} {first second : α}
    (same : (first == second) = true) :
    set.contains first = true ↔ set.contains second = true := by
  simp only [contains_iff]
  constructor
  · intro present
    obtain ⟨element, member, equal⟩ := present
    exact ⟨element, member, BEq.trans equal same⟩
  · intro present
    obtain ⟨element, member, equal⟩ := present
    exact ⟨element, member, BEq.trans equal (BEq.symm same)⟩

theorem contains_insert [EquivBEq α] {set : DistinctSet α} {item other : α} :
    (set.insert item).contains other = true ↔
      set.contains other = true ∨ (item == other) = true := by
  constructor
  · intro present
    obtain ⟨element, member, same⟩ := contains_iff.mp present
    rcases mem_insert_cases member with old | new
    · exact .inl (contains_iff.mpr ⟨element, old, same⟩)
    · exact .inr (new ▸ same)
  · rintro (old | same)
    · exact contains_insert_of_contains old
    · exact (contains_congr same).mp (contains_insert_self set item)

/-- Elements that `==` identifies are one element, when `==` is symmetric. -/
theorem eq_of_beq [PartialEquivBEq α] {set : DistinctSet α} {first second : α}
    (member : first ∈ set.elements) (other : second ∈ set.elements)
    (same : (first == second) = true) : first = second := by
  by_contra different
  have symmetric : Std.Symm fun first second : α => (first == second) = false :=
    ⟨fun left right apart => by rwa [BEq.comm]⟩
  have apart := set.distinct.forall member other different
  simp [same] at apart

theorem mem_subtracting {set removed : DistinctSet α} {item : α} :
    item ∈ (set.subtracting removed).elements ↔
      item ∈ set.elements ∧ ¬ removed.contains item = true := by
  simp [subtracting]

end DistinctSet

end AugmentedCampus.Foundation
