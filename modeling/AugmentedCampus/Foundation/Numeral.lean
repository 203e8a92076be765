import Mathlib.Algebra.Order.Ring.Nat
import Mathlib.Data.List.Basic

/-! Decimal numerals: the strings of digits, leading zeros allowed, and the numbers
that they stand for. -/
namespace AugmentedCampus.Foundation

structure Numeral where
  digits : List Char
  decimal : ∀ digit ∈ digits, digit.isDigit = true
  inhabited : digits ≠ []

namespace Numeral

def value (numeral : Numeral) : Nat := Nat.ofDigitChars 10 numeral.digits 0

def text (numeral : Numeral) : String := String.ofList numeral.digits

/-- The numeral without leading zeros. -/
def ofNat (number : Nat) : Numeral where
  digits := Nat.toDigits 10 number
  decimal _ member := Nat.isDigit_of_mem_toDigits (by decide) (by decide) member
  inhabited := List.ne_nil_of_length_pos Nat.length_toDigits_pos

@[simp] theorem value_ofNat (number : Nat) : (ofNat number).value = number :=
  Nat.ofDigitChars_ten_toDigits

@[simp] theorem text_ofNat (number : Nat) : (ofNat number).text = toString number :=
  String.toList_inj.mp (by simp [text, ofNat, Nat.toList_repr])

theorem value_eq_of_text_eq {first second : Numeral} (same : first.text = second.text) :
    first.value = second.value := by
  have digits : first.digits = second.digits := String.ofList_injective same
  rw [value, value, digits]

theorem not_mem_text {other : Char} (numeral : Numeral) (foreign : other.isDigit = false) :
    other ∉ numeral.text.toList := by
  rw [text, String.toList_ofList]
  intro member
  rw [numeral.decimal other member] at foreign
  cases foreign

/-- Zeros in front add nothing. -/
def zeros (count : Nat) (numeral : Numeral) : Numeral where
  digits := List.replicate count '0' ++ numeral.digits
  decimal digit member := by
    rcases List.mem_append.mp member with zero | own
    · rw [List.eq_of_mem_replicate zero]
      rfl
    · exact numeral.decimal digit own
  inhabited := List.append_ne_nil_of_right_ne_nil _ numeral.inhabited

@[simp] theorem value_zeros (count : Nat) (numeral : Numeral) :
    (numeral.zeros count).value = numeral.value := by
  simp [value, zeros, Nat.ofDigitChars_append, Nat.ofDigitChars_replicate_zero]

/-- The last digits, at least one of them. -/
def last (count : Nat) (positive : 0 < count) (numeral : Numeral) : Numeral where
  digits := numeral.digits.drop (numeral.digits.length - count)
  decimal digit member := numeral.decimal digit (List.mem_of_mem_drop member)
  inhabited := by
    have length := List.length_pos_of_ne_nil numeral.inhabited
    apply List.ne_nil_of_length_pos
    rw [List.length_drop]
    omega

/-- A number that the last digits have room for loses nothing when the others are cut off. -/
theorem value_last {count : Nat} {positive : 0 < count} {numeral : Numeral}
    (room : numeral.value < 10 ^ count) : (numeral.last count positive).value = numeral.value := by
  by_cases long : count ≤ numeral.digits.length
  · have split : numeral.value =
        10 ^ count * Nat.ofDigitChars 10 (numeral.digits.take (numeral.digits.length - count)) 0 +
          (numeral.last count positive).value := by
      have parts := List.take_append_drop (numeral.digits.length - count) numeral.digits
      have length : (numeral.digits.drop (numeral.digits.length - count)).length = count := by
        rw [List.length_drop]
        omega
      conv_lhs => rw [value, ← parts, Nat.ofDigitChars_append,
        Nat.ofDigitChars_eq_ofDigitChars_zero, length]
      rfl
    have front : Nat.ofDigitChars 10
        (numeral.digits.take (numeral.digits.length - count)) 0 = 0 := by
      by_contra some
      have large := Nat.le_mul_of_pos_right (10 ^ count) (Nat.pos_of_ne_zero some)
      omega
    rw [split, front]
    omega
  · have all : numeral.digits.length - count = 0 := by omega
    simp [value, last, all]

end Numeral

end AugmentedCampus.Foundation
