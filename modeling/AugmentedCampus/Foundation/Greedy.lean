import Mathlib.Data.List.Forall2

/-! Items taken in order by the marks of another list. Each mark takes the first item that
is left, if it is near; no other way to match the two gets further. -/
namespace AugmentedCampus.Foundation

open List

universe u v

variable {Item : Type u} {Mark : Type v}

/-- With an item less there is still a match. -/
theorem sublistForall₂_of_cons {near : Item → Mark → Prop} {items : List Item} {marks : List Mark}
    {first : Item} (matched : SublistForall₂ near (first :: items) marks) :
    SublistForall₂ near items marks := by
  obtain ⟨found, along, inside⟩ := sublistForall₂_iff.mp matched
  cases along with
  | cons _ rest => exact sublistForall₂_iff.mpr ⟨_, rest, (sublist_cons_self _ _).trans inside⟩

variable (near : Item → Mark → Prop) [DecidableRel near]

def takeFirst (items : List Item) (mark : Mark) : List Item :=
  match items with
  | [] => []
  | first :: rest => if near first mark then rest else first :: rest

def remaining (items : List Item) (marks : List Mark) : List Item :=
  marks.foldl (takeFirst near) items

variable {near} {items : List Item} {marks : List Mark}

theorem takeFirst_cons (first : Item) (mark : Mark) :
    takeFirst near (first :: items) mark = if near first mark then items else first :: items := rfl

theorem takeFirst_suffix (mark : Mark) : takeFirst near items mark <:+ items := by
  cases items with
  | nil => exact suffix_rfl
  | cons first rest =>
    rw [takeFirst_cons]
    split
    · exact suffix_cons first rest
    · exact suffix_rfl

theorem remaining_suffix : remaining near items marks <:+ items := by
  induction marks generalizing items with
  | nil => exact suffix_rfl
  | cons mark marks ih => exact ih.trans (takeFirst_suffix mark)

theorem sublistForall₂_cons_iff {first : Item} {mark : Mark} :
    SublistForall₂ near (first :: items) (mark :: marks) ↔
      if near first mark then SublistForall₂ near items marks
      else SublistForall₂ near (first :: items) marks := by
  by_cases here : near first mark
  · rw [if_pos here]
    refine ⟨fun matched => ?_, .cons here⟩
    cases matched with
    | cons _ rest => exact rest
    | cons_right later => exact sublistForall₂_of_cons later
  · rw [if_neg here]
    refine ⟨fun matched => ?_, .cons_right⟩
    cases matched with
    | cons close _ => exact absurd close here
    | cons_right later => exact later

/-- As many items are taken as can be matched in order. -/
theorem sublistForall₂_take_iff {count : Nat} (bounded : count ≤ items.length) :
    SublistForall₂ near (items.take count) marks ↔
      (remaining near items marks).length ≤ items.length - count := by
  induction marks generalizing items count with
  | nil =>
    cases count with
    | zero => exact iff_of_true .nil (Nat.le_refl _)
    | succ count =>
      obtain ⟨first, rest, rfl⟩ := exists_cons_of_length_pos (Nat.zero_lt_of_lt bounded)
      refine iff_of_false nofun ?_
      simp only [remaining, foldl_nil, length_cons]
      omega
  | cons mark marks ih =>
    cases count with
    | zero => exact iff_of_true .nil remaining_suffix.length_le
    | succ count =>
      obtain ⟨first, rest, rfl⟩ := exists_cons_of_length_pos (Nat.zero_lt_of_lt bounded)
      rw [take_succ_cons, sublistForall₂_cons_iff, remaining, foldl_cons, takeFirst_cons]
      by_cases here : near first mark
      · rw [if_pos here, if_pos here, ih (Nat.le_of_succ_le_succ bounded), length_cons,
          Nat.succ_sub_succ]
        rfl
      · rw [if_neg here, if_neg here, ← take_succ_cons, ih bounded]
        rfl

/-- All of the items are taken just if they can be matched in order. -/
theorem sublistForall₂_iff_remaining :
    SublistForall₂ near items marks ↔ remaining near items marks = [] := by
  have whole : SublistForall₂ near (items.take items.length) marks ↔ _ :=
    sublistForall₂_take_iff (Nat.le_refl items.length)
  rwa [take_length, Nat.sub_self, Nat.le_zero, length_eq_zero_iff] at whole

end AugmentedCampus.Foundation
