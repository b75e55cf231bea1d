import Mathlib.Tactic

namespace KernelHobby
set_option autoImplicit true

theorem uint32_toNat_ofInt (x : Int) : (UInt32.ofInt x).toNat = (x % 2 ^ 32).toNat := by
  rw [UInt32.ofInt, UInt32.toNat_ofNat']
  omega

theorem int32_toInt_eq_bmod (x : Int32) : x.toInt = (x.toUInt32.toNat : Int).bmod (2 ^ 32) :=
  BitVec.toInt_eq_toNat_bmod x.toBitVec

theorem int32_toNat_toUInt32 (x : Int32) : (x.toUInt32.toNat : Int) = x.toInt % 2 ^ 32 := by
  have h := x.toUInt32.toNat_lt
  rw [int32_toInt_eq_bmod]
  simp only [Int.bmod]
  split <;> omega

theorem uint32_toInt_toInt32 (x : UInt32) : x.toInt32.toInt = (x.toNat : Int).bmod (2 ^ 32) :=
  int32_toInt_eq_bmod x.toInt32

/-- Rounding a signed size up to blocks of 512 bytes; near the largest value the addition
wraps around and the quotient is negative. -/
theorem int32_round_up (x : Int32) (h : 0 ≤ x.toInt) :
    ((x + 512 - 1) / 512).toInt =
      if x.toInt < 2 ^ 31 - 511 then (x.toInt + 511) / 512
      else -((2 ^ 32 - x.toInt - 511) / 512) := by
  have hx := x.toInt_lt
  have h₅ : (512 : Int32).toInt = 512 := rfl
  have h₁ : (1 : Int32).toInt = 1 := rfl
  have hs : (x + 512 - 1).toInt =
      if x.toInt < 2 ^ 31 - 511 then x.toInt + 511 else x.toInt + 511 - 2 ^ 32 := by
    rw [Int32.toInt_sub, Int32.toInt_add, h₅, h₁]
    simp only [Int.bmod]
    split <;> omega
  rw [Int32.toInt_div, h₅, hs]
  split
  · rw [Int.tdiv_eq_ediv_of_nonneg (by omega)]
    simp only [Int.bmod]
    omega
  · have hq : (x.toInt + 511 - 2 ^ 32).tdiv 512 = -((2 ^ 32 - x.toInt - 511) / 512) := by
      rw [← Int.neg_inj, ← Int.neg_tdiv, Int.tdiv_eq_ediv_of_nonneg (by omega)]
      omega
    rw [hq]
    simp only [Int.bmod]
    omega

end KernelHobby
