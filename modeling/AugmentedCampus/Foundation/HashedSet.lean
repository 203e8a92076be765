import AugmentedCampus.Foundation.DistinctSet

/-! Sets behind a hash table. A lookup compares its item only with the stored elements
the table's layout leads it to: all those of the same hash value and perhaps others.
Where equal items hash alike the layout makes no difference; where they do not, it decides. -/
namespace AugmentedCampus.Foundation

universe u v

variable {α : Type u} {H : Type v}

/-- `compares stored item element`: a lookup of the item meets the stored element. -/
structure Layout (hash : α → H) where
  compares : List α → α → α → Bool
  covers : ∀ stored item, ∀ element ∈ stored, hash element = hash item →
    compares stored item element = true

namespace Layout

/-- A single bucket, in which every lookup meets every element. -/
def scan (hash : α → H) : Layout hash := ⟨fun _ _ _ => true, fun _ _ _ _ _ => rfl⟩

/-- A bucket for each hash value, so that no two values collide. -/
def buckets [DecidableEq H] (hash : α → H) : Layout hash :=
  ⟨fun _ item element => decide (hash element = hash item), fun _ _ _ _ => decide_eq_true⟩

variable [BEq α] {hash : α → H} (layout : Layout hash) (stored removed : List α) (item : α)

def contains : Bool :=
  stored.any (fun element => layout.compares stored item element && element == item)

def insert : List α := if layout.contains stored item then stored else stored ++ [item]

def subtracting : List α := stored.filter (fun element => !layout.contains removed element)

end Layout

variable [BEq α]

/-- Among the items `==` implies equal hash values. -/
def LawfulHash (hash : α → H) (items : List α) : Prop :=
  ∀ first ∈ items, ∀ second ∈ items, (first == second) = true → hash first = hash second

/-- The elements of the set are among the items. -/
def DistinctSet.Within (set : DistinctSet α) (items : List α) : Prop :=
  ∀ element ∈ set.elements, element ∈ items

namespace LawfulHash

variable {hash : α → H} {items : List α} {item : α} {set removed : DistinctSet α}

theorem contains_eq (lawful : LawfulHash hash items) (layout : Layout hash)
    (inside : set.Within items) (member : item ∈ items) :
    layout.contains set.elements item = set.contains item := by
  rw [Bool.eq_iff_iff, Layout.contains, DistinctSet.contains_iff, List.any_eq_true]
  constructor
  · rintro ⟨element, stored, met⟩
    exact ⟨element, stored, (Bool.and_eq_true_iff.mp met).2⟩
  · rintro ⟨element, stored, same⟩
    have alike := lawful element (inside element stored) item member same
    have met := layout.covers set.elements item element stored alike
    exact ⟨element, stored, Bool.and_eq_true_iff.mpr ⟨met, same⟩⟩

theorem insert_eq (lawful : LawfulHash hash items) (layout : Layout hash)
    (inside : set.Within items) (member : item ∈ items) :
    layout.insert set.elements item = (set.insert item).elements := by
  rw [Layout.insert, lawful.contains_eq layout inside member]
  by_cases present : set.contains item = true
  · rw [if_pos present, DistinctSet.insert_present present]
  · rw [if_neg present, DistinctSet.insert_absent present]

theorem subtracting_eq (lawful : LawfulHash hash items) (layout : Layout hash)
    (inside : set.Within items) (other : removed.Within items) :
    layout.subtracting set.elements removed.elements = (set.subtracting removed).elements := by
  refine List.filter_congr fun element stored => ?_
  rw [lawful.contains_eq layout other (inside element stored)]

end LawfulHash

/-- Membership is up to `==` in every layout only if equal items hash alike: with a
bucket for each hash value, an equal item of another value is missed. -/
theorem LawfulHash.of_contains [DecidableEq H] {hash : α → H} {items : List α}
    (determined : ∀ (layout : Layout hash) (set : DistinctSet α), set.Within items →
      ∀ item ∈ items, layout.contains set.elements item = set.contains item) :
    LawfulHash hash items := by
  intro first one second other same
  have inside : (DistinctSet.singleton first).Within items := by
    intro element stored
    rw [List.mem_singleton.mp stored]
    exact one
  have found := determined (.buckets hash) (.singleton first) inside second other
  simp [Layout.contains, Layout.buckets, DistinctSet.singleton, DistinctSet.contains, same] at found
  exact found

end AugmentedCampus.Foundation
