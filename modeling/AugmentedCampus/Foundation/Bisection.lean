import Mathlib.Data.List.Basic
import Mathlib.Data.List.Pairwise

/-! Half-open bisection over the positions of a finite sequence. The window
carries its bounds, so every probe is inside the sequence by construction. -/
namespace AugmentedCampus.Foundation

universe u

/-- A half-open interval of positions still to be searched. -/
structure Window (size : Nat) where
  low : Nat
  high : Nat
  ordered : low ≤ high
  inside : high ≤ size

namespace Window

variable {size : Nat}

def whole (size : Nat) : Window size := ⟨0, size, Nat.zero_le _, Nat.le_refl _⟩

def mid (window : Window size) : Nat := window.low + (window.high - window.low) / 2

theorem low_le_mid (window : Window size) : window.low ≤ window.mid := Nat.le_add_right _ _

theorem mid_lt_high (window : Window size) (opened : window.low ≠ window.high) :
    window.mid < window.high := by
  have ordered := window.ordered
  unfold mid
  omega

def probe (window : Window size) (opened : window.low ≠ window.high) : Fin size :=
  ⟨window.mid, Nat.lt_of_lt_of_le (window.mid_lt_high opened) window.inside⟩

/-- Keep the positions after the probe. -/
def upper (window : Window size) (opened : window.low ≠ window.high) : Window size :=
  ⟨window.mid + 1, window.high, window.mid_lt_high opened, window.inside⟩

/-- Keep the positions before the probe. -/
def lower (window : Window size) (opened : window.low ≠ window.high) : Window size :=
  ⟨window.low, window.mid, window.low_le_mid,
    Nat.le_trans (Nat.le_of_lt (window.mid_lt_high opened)) window.inside⟩

end Window

variable {size : Nat}

/-- Halve the window until it is empty; `below` decides the side to keep. -/
def bisect (below : Fin size → Bool) (window : Window size) : Nat :=
  if opened : window.low ≠ window.high then
    if below (window.probe opened) then bisect below (window.upper opened)
    else bisect below (window.lower opened)
  else window.low
termination_by window.high - window.low
decreasing_by
  all_goals
    have ordered := window.ordered
    have bound := window.mid_lt_high opened
    have start := window.low_le_mid
    simp only [Window.upper, Window.lower]
    omega

/-- The two sides of a cut: the position before it is below, the one at it is not. -/
structure Cut (below : Fin size → Bool) (position : Nat) : Prop where
  inside : position ≤ size
  before : ∀ index : Fin size, index.val + 1 = position → below index = true
  after : ∀ index : Fin size, index.val = position → below index = false

/-- The window's own bounds already satisfy their side of the cut. -/
structure Window.Flanked (below : Fin size → Bool) (window : Window size) : Prop where
  before : ∀ index : Fin size, index.val + 1 = window.low → below index = true
  after : ∀ index : Fin size, index.val = window.high → below index = false

theorem Window.whole_flanked (below : Fin size → Bool) : (Window.whole size).Flanked below := by
  refine ⟨?_, ?_⟩
  · intro index same
    simp [Window.whole] at same
  · intro index same
    have bound := index.isLt
    simp only [Window.whole] at same
    omega

theorem bisect_cut (below : Fin size → Bool) (window : Window size)
    (flanked : window.Flanked below) : Cut below (bisect below window) := by
  fun_induction bisect below window with
  | case1 window opened kept ih =>
    refine ih ⟨?_, flanked.after⟩
    intro index same
    have probed : index = window.probe opened := Fin.ext (Nat.succ.inj same)
    rw [probed]
    exact kept
  | case2 window opened dropped ih =>
    refine ih ⟨flanked.before, ?_⟩
    intro index same
    have probed : index = window.probe opened := Fin.ext same
    rw [probed]
    exact Bool.eq_false_iff.mpr dropped
  | case3 window closed =>
    have same : window.low = window.high := not_not.mp closed
    refine ⟨Nat.le_trans window.ordered window.inside, flanked.before, ?_⟩
    intro index position
    exact flanked.after index (position.trans same)

/-- `below` holds before the point and at no position from it on. -/
structure Partition (below : Fin size → Bool) (point : Nat) : Prop where
  inside : point ≤ size
  sides : ∀ index : Fin size, below index = true ↔ index.val < point

/-- The position before the cut, if there is one. -/
theorem Cut.last {below : Fin size → Bool} {position : Nat} (cut : Cut below position)
    (positive : 0 < position) : ∃ last : Fin size, last.val + 1 = position ∧ below last = true := by
  have inside := cut.inside
  have same : position - 1 + 1 = position := Nat.sub_add_cancel positive
  exact ⟨⟨position - 1, by omega⟩, same, cut.before _ same⟩

/-- Where `below` never turns back on, the cut splits the whole sequence. -/
theorem Cut.partition {below : Fin size → Bool} {position : Nat} (cut : Cut below position)
    (falling : ∀ first second : Fin size, first ≤ second →
      below second = true → below first = true) : Partition below position := by
  refine ⟨cut.inside, fun index => ⟨fun kept => ?_, fun early => ?_⟩⟩
  · by_contra late
    have bound : position < size := Nat.lt_of_le_of_lt (Nat.le_of_not_lt late) index.isLt
    have first := falling ⟨position, bound⟩ index (Nat.le_of_not_lt late) kept
    rw [cut.after ⟨position, bound⟩ rfl] at first
    cases first
  · obtain ⟨last, same, kept⟩ := cut.last (Nat.zero_lt_of_lt early)
    exact falling index last (Fin.le_def.mpr (by omega)) kept

/-- A partitioned sequence has no cut but its partition point. -/
theorem Cut.eq_point {below : Fin size → Bool} {position point : Nat} (cut : Cut below position)
    (parts : Partition below point) : position = point := by
  rcases Nat.lt_trichotomy position point with early | same | late
  · have bound : position < size := Nat.lt_of_lt_of_le early parts.inside
    have kept := (parts.sides ⟨position, bound⟩).mpr early
    rw [cut.after ⟨position, bound⟩ rfl] at kept
    cases kept
  · exact same
  · obtain ⟨last, before, kept⟩ := cut.last (Nat.zero_lt_of_lt late)
    have reached := (parts.sides last).mp kept
    omega

theorem insertIdx_split {α : Type u} (items : List α) (item : α) {position : Nat}
    (inside : position ≤ items.length) :
    items.insertIdx position item = items.take position ++ item :: items.drop position := by
  induction items generalizing position with
  | nil =>
    have zero : position = 0 := Nat.le_zero.mp inside
    simp [zero]
  | cons first rest ih =>
    cases position with
    | zero => simp
    | succ previous => simp [ih (Nat.le_of_succ_le_succ inside)]

/-- Inserting at a partition point keeps a relation that the two sides respect. -/
theorem pairwise_insertIdx {α : Type u} {related : α → α → Prop} {items : List α} {item : α}
    {position : Nat} (sorted : items.Pairwise related)
    (before : ∀ value ∈ items.take position, related value item)
    (after : ∀ value ∈ items.drop position, related item value)
    (inside : position ≤ items.length) :
    (items.insertIdx position item).Pairwise related := by
  have halves : (items.take position ++ items.drop position).Pairwise related := by
    rw [List.take_append_drop]
    exact sorted
  obtain ⟨front, back, across⟩ := List.pairwise_append.mp halves
  rw [insertIdx_split items item inside]
  refine List.pairwise_append.mpr ⟨front, List.pairwise_cons.mpr ⟨after, back⟩, ?_⟩
  intro value early other late
  rcases List.mem_cons.mp late with same | later
  · rw [same]
    exact before value early
  · exact across value early other later

end AugmentedCampus.Foundation
