import AugmentedCampus.Foundation.Bisection
import Mathlib.Data.List.InsertIdx
import Mathlib.Data.List.Perm.Basic
import Mathlib.Order.Lattice
import Mathlib.Order.RelClasses

/-! The sorted-array helpers of `Array+Extension`. Both searches are the same
half-open bisection; `less` stands for the element type's `<`. -/
namespace AugmentedCampus.ArrayExtension

open Foundation

universe u

variable {α : Type u}

/-- `binarySearch(predicate:)` -/
def binarySearchBy (array : List α) (predicate : α → Bool) : Nat :=
  bisect (fun index => predicate (array.get index)) (Window.whole array.length)

/-- `sortedInsert(element:predicate:)` -/
def sortedInsertBy (array : List α) (element : α) (predicate : α → α → Bool) : List α :=
  array.insertIdx (binarySearchBy array (fun item => predicate item element)) element

/-- `binarySearch(element:)` -/
def binarySearch (less : α → α → Bool) (array : List α) (element : α) : Nat :=
  bisect (fun index => less (array.get index) element) (Window.whole array.length)

/-- `sortedInsert(newElement:)` -/
def sortedInsert (less : α → α → Bool) (array : List α) (newElement : α) : List α :=
  array.insertIdx (binarySearch less array newElement) newElement

variable (less : α → α → Bool) (array : List α) (element : α)

theorem binarySearch_cut :
    Cut (fun index => less (array.get index) element) (binarySearch less array element) :=
  bisect_cut _ _ (Window.whole_flanked _)

theorem binarySearch_le : binarySearch less array element ≤ array.length :=
  (binarySearch_cut less array element).inside

theorem sortedInsert_perm : (sortedInsert less array element).Perm (element :: array) :=
  List.perm_insertIdx element array (binarySearch_le less array element)

@[simp] theorem mem_sortedInsert {item : α} :
    item ∈ sortedInsert less array element ↔ item = element ∨ item ∈ array := by
  rw [(sortedInsert_perm less array element).mem_iff, List.mem_cons]

/-- No item is below an earlier one. -/
def Sorted : Prop :=
  array.Pairwise (fun earlier later => less later earlier = false)

section WeakOrder

variable [order : IsStrictWeakOrder α (fun first second => less first second = true)]
  {less array}

/-- What is not below an item is not below anything the item is not below. -/
theorem less_of_less_of_not_less {first second third : α} (below : less first third = true)
    (kept : less first second = false) : less second third = true := by
  by_contra other
  by_cases back : less second first = true
  · exact other (order.trans second first third back below)
  · by_cases ahead : less third second = true
    · rw [order.trans first third second below ahead] at kept
      cases kept
    · have tied := order.incomp_trans first second third
        ⟨Bool.eq_false_iff.mp kept, back⟩ ⟨other, ahead⟩
      exact tied.1 below

/-- The position found splits a sorted array into what is below the element and what is not. -/
theorem Sorted.binarySearch_partition (sorted : Sorted less array) :
    Partition (fun index => less (array.get index) element) (binarySearch less array element) := by
  apply (binarySearch_cut less array element).partition
  intro first second earlier below
  rcases Nat.lt_or_eq_of_le earlier with before | same
  · exact less_of_less_of_not_less below (List.pairwise_iff_get.mp sorted first second before)
  · rwa [Fin.ext same]

variable {element}

theorem Sorted.less_of_mem_take (sorted : Sorted less array) {earlier : α}
    (early : earlier ∈ array.take (binarySearch less array element)) :
    less earlier element = true := by
  obtain ⟨index, bound, same⟩ := List.mem_take_iff_getElem.mp early
  have inside : index < array.length := by omega
  rw [← same]
  exact ((sorted.binarySearch_partition element).sides ⟨index, inside⟩).mpr (by simp only; omega)

theorem Sorted.not_less_of_mem_drop (sorted : Sorted less array) {later : α}
    (late : later ∈ array.drop (binarySearch less array element)) :
    less later element = false := by
  obtain ⟨index, bound, same⟩ := List.mem_drop_iff_getElem.mp late
  have kept := mt ((sorted.binarySearch_partition element).sides
    ⟨binarySearch less array element + index, by omega⟩).mp (by simp only; omega)
  rw [← same]
  exact Bool.eq_false_iff.mpr kept

theorem Sorted.sortedInsert (sorted : Sorted less array) :
    Sorted less (sortedInsert less array element) := by
  apply pairwise_insertIdx sorted _ _ (binarySearch_le less array element)
  · intro earlier early
    have below := sorted.less_of_mem_take early
    refine Bool.eq_false_iff.mpr fun back => ?_
    exact order.irrefl earlier (order.trans earlier element earlier below back)
  · intro later late
    exact sorted.not_less_of_mem_drop late

end WeakOrder

/-- Comparing a key strictly is a strict weak order, whatever ties the key leaves. -/
theorem strictWeakOrder_of_key {κ : Type*} [LinearOrder κ] {key : α → κ}
    (strict : ∀ first second, less first second = true ↔ key first < key second) :
    IsStrictWeakOrder α (fun first second => less first second = true) := by
  have same : (fun first second => less first second = true) =
      fun first second => key first < key second := by
    funext first second
    exact propext (strict first second)
  have keys : IsStrictWeakOrder κ (· < ·) := isStrictWeakOrder_of_isOrderConnected
  rw [same]
  exact inferInstanceAs (IsStrictWeakOrder α (Order.Preimage key (· < ·)))

/-- `sortedInsert` keeps a list sorted by a key that `less` compares strictly. -/
theorem sortedInsert_sorted {κ : Type*} [LinearOrder κ] (key : α → κ)
    (strict : ∀ first second, less first second = true ↔ key first < key second)
    (sorted : array.Pairwise (fun first second => key first ≤ key second)) :
    (sortedInsert less array element).Pairwise (fun first second => key first ≤ key second) := by
  have kept : ∀ first second, less second first = false ↔ key first ≤ key second := by
    intro first second
    rw [← Bool.not_eq_true, strict, not_lt]
  have order := strictWeakOrder_of_key less strict
  have inserted : Sorted less (sortedInsert less array element) :=
    Sorted.sortedInsert (sorted.imp fun {first second} => (kept first second).mpr)
  exact inserted.imp fun {first second} => (kept first second).mp

end AugmentedCampus.ArrayExtension
