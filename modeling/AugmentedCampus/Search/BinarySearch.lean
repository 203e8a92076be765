import AugmentedCampus.Foundation.Fallible
import AugmentedCampus.Search.ArrayExtension

/-! `Array+Extension` over the array's own indices: the two loops as they are written,
with a subscript and an `insert(_:at:)` that trap outside the array. -/
namespace AugmentedCampus

open Foundation

/-- Why a call gives no next state: an index is out of range or a nil is unwrapped,
or the search needs more iterations than the bound allows. -/
inductive Halt where
  | trap
  | outOfFuel
  deriving DecidableEq

namespace IndexedArray

universe u

variable {α : Type u}

/-- `self[index]`; `none` stands for the trap. -/
def item (array : List α) (index : Int) : Option α :=
  if 0 ≤ index then array[index.toNat]? else none

/-- `insert(_:at:)` -/
def insert (array : List α) (newElement : α) (index : Int) : Except Halt (List α) :=
  if 0 ≤ index ∧ index ≤ array.length then .ok (array.insertIdx index.toNat newElement)
  else .error .trap

/-- `low.advanced(by: low.distance(to: high) / 2)` -/
def mid (low high : Int) : Int := low + (high - low).tdiv 2

/-- The loop of `binarySearch(predicate:)`. -/
def searchBy (array : List α) (predicate : α → Bool) : Nat → Int → Int → Except Halt Int
  | 0, _, _ => .error .outOfFuel
  | fuel + 1, low, high =>
    if low ≠ high then
      match item array (mid low high) with
      | none => .error .trap
      | some probed =>
        if predicate probed then searchBy array predicate fuel (mid low high + 1) high
        else searchBy array predicate fuel low (mid low high)
    else .ok low

/-- `binarySearch(predicate:)` -/
def binarySearchBy (fuel : Nat) (array : List α) (predicate : α → Bool) : Except Halt Int :=
  searchBy array predicate fuel 0 array.length

/-- `sortedInsert(element:predicate:)` -/
def sortedInsertBy (fuel : Nat) (array : List α) (element : α) (predicate : α → α → Bool) :
    Except Halt (List α) :=
  (binarySearchBy fuel array (fun probed => predicate probed element)).bind (insert array element)

variable (less : α → α → Bool)

/-- The loop of `binarySearch(element:)`. -/
def search (array : List α) (element : α) : Nat → Int → Int → Except Halt Int
  | 0, _, _ => .error .outOfFuel
  | fuel + 1, low, high =>
    if low ≠ high then
      match item array (mid low high) with
      | none => .error .trap
      | some probed =>
        if less probed element then search array element fuel (mid low high + 1) high
        else search array element fuel low (mid low high)
    else .ok low

/-- `binarySearch(element:)` -/
def binarySearch (fuel : Nat) (array : List α) (element : α) : Except Halt Int :=
  search less array element fuel 0 array.length

/-- `sortedInsert(newElement:)` -/
def sortedInsert (fuel : Nat) (array : List α) (newElement : α) : Except Halt (List α) :=
  (binarySearch less fuel array newElement).bind (insert array newElement)

theorem search_eq_searchBy (array : List α) (element : α) (fuel : Nat) (low high : Int) :
    search less array element fuel low high =
      searchBy array (fun probed => less probed element) fuel low high := by
  induction fuel generalizing low high with
  | zero => rfl
  | succ left ih =>
    simp only [search, searchBy]
    cases item array (mid low high) with
    | none => rfl
    | some probed => simp only [ih]

section Window

variable {array : List α} (predicate : α → Bool)

theorem mid_window (window : Window array.length) :
    mid window.low window.high = (window.mid : Int) := by
  have ordered := window.ordered
  simp only [mid, Window.mid]
  rw [Int.tdiv_eq_ediv_of_nonneg (by omega)]
  omega

/-- The subscript of an open window is inside the array. -/
theorem item_window (window : Window array.length) (opened : window.low ≠ window.high) :
    item array window.mid = some (array.get (window.probe opened)) := by
  rw [item, if_pos (Int.natCast_nonneg _), Int.toNat_natCast]
  exact List.getElem?_eq_getElem (window.probe opened).isLt

theorem searchBy_open (window : Window array.length) (opened : window.low ≠ window.high)
    (fuel : Nat) : searchBy array predicate (fuel + 1) window.low window.high =
      if predicate (array.get (window.probe opened)) then
        searchBy array predicate fuel (window.upper opened).low (window.upper opened).high
      else searchBy array predicate fuel (window.lower opened).low (window.lower opened).high := by
  have different : (window.low : Int) ≠ window.high := by omega
  simp only [searchBy, if_pos different, mid_window, item_window window opened]
  rfl

/-- From every window the loop settles at what the bisection of that window gives. -/
theorem searchBy_settles (window : Window array.length) :
    Settles Halt.outOfFuel (window.high - window.low)
      (fun fuel => searchBy array predicate fuel window.low window.high)
      (bisect (fun index => predicate (array.get index)) window : Int) := by
  fun_induction bisect (fun index => predicate (array.get index)) window with
  | case1 window opened kept ih =>
    refine Settles.step rfl (fun fuel => ?_) ih ?_
    · rw [searchBy_open predicate window opened, if_pos kept]
    · have before := window.mid_lt_high opened
      have after := window.low_le_mid
      simp only [Window.upper]
      omega
  | case2 window opened dropped ih =>
    refine Settles.step rfl (fun fuel => ?_) ih ?_
    · rw [searchBy_open predicate window opened, if_neg dropped]
    · have before := window.mid_lt_high opened
      have after := window.low_le_mid
      simp only [Window.lower]
      omega
  | case3 window closed =>
    have same : window.low = window.high := not_not.mp closed
    refine Settles.stop rfl (fun fuel => ?_)
    simp [searchBy, same]

end Window

theorem binarySearchBy_settles (array : List α) (predicate : α → Bool) :
    Settles Halt.outOfFuel array.length (fun fuel => binarySearchBy fuel array predicate)
      (ArrayExtension.binarySearchBy array predicate : Int) :=
  searchBy_settles predicate (Window.whole array.length)

theorem binarySearchBy_cut (array : List α) (predicate : α → Bool) :
    Cut (fun index => predicate (array.get index)) (ArrayExtension.binarySearchBy array predicate) :=
  bisect_cut _ _ (Window.whole_flanked _)

theorem binarySearch_eq (fuel : Nat) (array : List α) (element : α) :
    binarySearch less fuel array element =
      binarySearchBy fuel array (fun probed => less probed element) :=
  search_eq_searchBy less array element fuel 0 array.length

theorem insert_inside {array : List α} {position : Nat} (inside : position ≤ array.length)
    (newElement : α) :
    insert array newElement position = .ok (array.insertIdx position newElement) := by
  rw [insert, if_pos ⟨Int.natCast_nonneg _, Int.ofNat_le.mpr inside⟩, Int.toNat_natCast]

theorem sortedInsertBy_settles (array : List α) (element : α) (predicate : α → α → Bool) :
    Settles Halt.outOfFuel array.length (fun fuel => sortedInsertBy fuel array element predicate)
      (ArrayExtension.sortedInsertBy array element predicate) :=
  (binarySearchBy_settles array _).bind
    (insert_inside (binarySearchBy_cut array _).inside element)

theorem sortedInsert_eq (fuel : Nat) (array : List α) (newElement : α) :
    sortedInsert less fuel array newElement = sortedInsertBy fuel array newElement less := by
  rw [sortedInsert, sortedInsertBy, binarySearch_eq]

/-- The insertion settles at the one by which the search keeps its waiting steps. -/
theorem sortedInsert_settles (array : List α) (newElement : α) :
    Settles Halt.outOfFuel array.length (fun fuel => sortedInsert less fuel array newElement)
      (ArrayExtension.sortedInsert less array newElement) := by
  simp only [sortedInsert_eq]
  exact sortedInsertBy_settles array newElement less

/-- Both searches end at the same cut, whatever the predicate, and a sorted insertion
puts the element before everything that is not less than it. -/
theorem binarySearch_sortedInsert (array : List α) :
    (∀ predicate : α → Bool, ∃ position : Nat,
      Settles Halt.outOfFuel array.length (fun fuel => binarySearchBy fuel array predicate)
        (position : Int) ∧
      Cut (fun index => predicate (array.get index)) position ∧
      ∀ point, Partition (fun index => predicate (array.get index)) point → position = point) ∧
    (∀ (less : α → α → Bool) (element : α) (fuel : Nat),
      binarySearch less fuel array element =
        binarySearchBy fuel array (fun probed => less probed element)) ∧
    (∀ less : α → α → Bool, IsStrictWeakOrder α (fun first second => less first second = true) →
      ArrayExtension.Sorted less array → ∀ newElement : α, ∃ front back inserted : List α,
        Settles Halt.outOfFuel array.length (fun fuel => sortedInsert less fuel array newElement)
          inserted ∧
        array = front ++ back ∧ inserted = front ++ newElement :: back ∧
        ArrayExtension.Sorted less inserted ∧
        (∀ earlier ∈ front, less earlier newElement = true) ∧
        ∀ later ∈ back, less later newElement = false) := by
  refine ⟨?_, fun less element fuel => binarySearch_eq less fuel array element, ?_⟩
  · intro predicate
    have cut := binarySearchBy_cut array predicate
    exact ⟨_, binarySearchBy_settles array predicate, cut, fun point => cut.eq_point⟩
  · intro less order sorted newElement
    refine ⟨array.take (ArrayExtension.binarySearch less array newElement),
      array.drop (ArrayExtension.binarySearch less array newElement), _,
      sortedInsert_settles less array newElement, ?_, ?_, ?_, ?_, ?_⟩
    · exact (List.take_append_drop _ array).symm
    · exact insertIdx_split array newElement (ArrayExtension.binarySearch_le less array newElement)
    · exact sorted.sortedInsert
    · intro earlier early
      exact sorted.less_of_mem_take early
    · intro later late
      exact sorted.not_less_of_mem_drop late

/-- An element tied with two others goes before both. -/
theorem binarySearch_sortedInsert_ties :
    ∃ front back inserted : List (Nat × Nat),
      Settles Halt.outOfFuel 3
        (fun fuel => sortedInsert (fun first second => decide (first.1 < second.1)) fuel
          [(1, 0), (2, 0), (2, 1)] (2, 2)) inserted ∧
      [(1, 0), (2, 0), (2, 1)] = front ++ back ∧ inserted = front ++ (2, 2) :: back ∧
      ArrayExtension.Sorted (fun first second => decide (first.1 < second.1)) inserted ∧
      (∀ earlier ∈ front, decide (earlier.1 < 2) = true) ∧
      ∀ later ∈ back, decide (later.1 < 2) = false :=
  (binarySearch_sortedInsert [(1, 0), (2, 0), (2, 1)]).2.2
    (fun first second => decide (first.1 < second.1))
    (ArrayExtension.strictWeakOrder_of_key _ (fun _ _ => decide_eq_true_iff))
    (by simp [ArrayExtension.Sorted]) (2, 2)

end IndexedArray

end AugmentedCampus
