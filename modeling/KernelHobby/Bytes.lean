import Mathlib.Tactic
import Mathlib.Data.Nat.Bitwise

namespace KernelHobby
set_option autoImplicit true

/-- The `k`-th byte of a number stored least significant byte first. -/
def leByte (n k : Nat) : UInt8 := UInt8.ofNat (n / 256 ^ k)

/-- Read `w` bytes at `off` as a little-endian number. -/
def leGet (f : Nat → UInt8) (off : Nat) : Nat → Nat
  | 0 => 0
  | w + 1 => (f off).toNat + 256 * leGet f (off + 1) w

theorem leGet_congr (h : ∀ k, k < w → f (off + k) = g (off + k)) :
    leGet f off w = leGet g off w := by
  induction w generalizing off with
  | zero => rfl
  | succ w ih =>
    have h₀ := h 0 (Nat.succ_pos w)
    have hs : ∀ k, k < w → f (off + 1 + k) = g (off + 1 + k) := by
      intro k hk
      have hh := h (k + 1) (Nat.succ_lt_succ hk)
      rwa [show off + (k + 1) = off + 1 + k by omega] at hh
    simp only [Nat.add_zero] at h₀
    simp only [leGet, h₀, ih hs]

theorem leGet_lt (f : Nat → UInt8) (off w : Nat) : leGet f off w < 256 ^ w := by
  induction w generalizing off with
  | zero => simp [leGet]
  | succ w ih =>
    have h := ih (off + 1)
    have hb := (f off).toNat_lt
    rw [leGet, Nat.pow_succ]
    omega

/-- Reading back the bytes of a number gives the number, cut to the width read. -/
theorem leGet_leByte (h : ∀ k, k < w → f (off + k) = leByte n k) :
    leGet f off w = n % 256 ^ w := by
  induction w generalizing off n with
  | zero => simp [leGet, Nat.mod_one]
  | succ w ih =>
    have h₀ : f off = leByte n 0 := h 0 (Nat.succ_pos w)
    have hs : ∀ k, k < w → f (off + 1 + k) = leByte (n / 256) k := by
      intro k hk
      have hh := h (k + 1) (Nat.succ_lt_succ hk)
      rw [show off + (k + 1) = off + 1 + k by omega] at hh
      rw [hh, leByte, leByte, Nat.div_div_eq_div_mul, Nat.pow_succ, Nat.mul_comm]
    have hb : (leByte n 0).toNat = n % 256 := by simp [leByte]
    rw [leGet, h₀, hb, ih hs, Nat.pow_succ, Nat.mul_comm (256 ^ w) 256, Nat.mod_mul]

end KernelHobby
