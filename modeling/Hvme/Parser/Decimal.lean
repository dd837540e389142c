import Hvme.Model.Parse
import Mathlib.Tactic

set_option autoImplicit false

namespace Hvme

theorem byte_of_digit {c : Char} (digit : c.isDigit = true) :
    48 ≤ c.toNat ∧ c.toNat ≤ 57 ∧ (c.toNat.toUInt8).toNat = c.toNat := by
  have low : '0'.val ≤ c.val := by
    simp only [Char.isDigit, Bool.and_eq_true, decide_eq_true_eq] at digit
    exact digit.1
  have high : c.val ≤ '9'.val := by
    simp only [Char.isDigit, Bool.and_eq_true, decide_eq_true_eq] at digit
    exact digit.2
  rw [UInt32.le_iff_toNat_le] at low high
  have low' : 48 ≤ c.toNat := low
  have high' : c.toNat ≤ 57 := high
  refine ⟨low', high', ?_⟩
  rw [Nat.toUInt8, UInt8.toNat_ofNat']
  exact Nat.mod_eq_of_lt (by omega)

theorem decimal_isdigit (n : Nat) : ∀ b ∈ decimal n, isdigit b = true := by
  intro b member
  obtain ⟨c, digit, rfl⟩ := List.mem_map.mp member
  obtain ⟨low, high, same⟩ := byte_of_digit (Nat.isDigit_of_mem_toDigits (by decide) (by decide) digit)
  simp only [isdigit, Bool.and_eq_true, decide_eq_true_eq, UInt8.le_iff_toNat_le, same]
  exact ⟨low, high⟩

theorem decimal_length_pos (n : Nat) : 0 < (decimal n).length := by
  rw [decimal, List.length_map]
  exact Nat.length_toDigits_pos

theorem decimal_length_le {n count : Nat} (some_ : 0 < count) (small : n < 10 ^ count) :
    (decimal n).length ≤ count := by
  rw [decimal, List.length_map]
  exact (Nat.length_toDigits_le_iff (by decide) some_).mpr small

theorem uintValue_decimal (n : Nat) : uintValue (decimal n) = n := by
  have digits : ∀ c ∈ Nat.toDigits 10 n, c.isDigit = true :=
    fun c member => Nat.isDigit_of_mem_toDigits (by decide) (by decide) member
  have fold : ∀ (cs : List Char) (init_ : Nat), (∀ c ∈ cs, c.isDigit = true) →
      (cs.map fun digit => digit.toNat.toUInt8).foldl
        (fun value digit => value * 10 + (digit.toNat - 48)) init_ = Nat.ofDigitChars 10 cs init_ := by
    intro cs
    induction cs with
    | nil => exact fun _ _ => rfl
    | cons c cs ih =>
      intro init_ digits
      obtain ⟨-, -, same⟩ := byte_of_digit (digits c List.mem_cons_self)
      rw [List.map_cons, List.foldl_cons, same, Nat.ofDigitChars_cons, Nat.mul_comm,
        ih _ fun other member => digits other (List.mem_cons_of_mem _ member)]
      rfl
  rw [uintValue, decimal, fold _ _ digits, Nat.ofDigitChars_toDigits (by decide) (by decide)]

end Hvme
