import Mathlib.Tactic

namespace KernelHobby
set_option autoImplicit true

/-- One's-complement addition of 16-bit numbers: the carry comes in again at the low end. -/
def onesAdd (x y : Nat) : Nat := if x + y < 65536 then x + y else x + y - 65535

/-- The big-endian 16-bit words of a byte sequence, padded with a zero byte. -/
def words : List UInt8 → List Nat
  | a :: b :: l => (a.toNat * 256 + b.toNat) :: words l
  | [a] => [a.toNat * 256]
  | [] => []

/-- The one's-complement sum of a byte sequence. -/
def onesSum (l : List UInt8) : Nat := (words l).foldl onesAdd 0

/-- The same sum without carries. -/
def wordSum (l : List UInt8) : Nat := (words l).sum

/-- What is left of a sum when all carries have come in: a remainder by 65535, with 65535 in the
place of 0 unless nothing was added. -/
def ones (n : Nat) : Nat := if n = 0 then 0 else (n - 1) % 65535 + 1

theorem ones_lt (n : Nat) : ones n < 65536 := by
  rw [ones]
  split
  · omega
  · omega

theorem ones_of_lt (h : n < 65536) : ones n = n := by
  rw [ones]
  split
  · omega
  · omega

theorem onesAdd_ones (m : Nat) (hw : w < 65536) : onesAdd (ones m) w = ones (m + w) := by
  by_cases hm : m = 0
  · rw [hm, Nat.zero_add, ones_of_lt (by decide), onesAdd, Nat.zero_add, if_pos hw, ones_of_lt hw]
  · rw [ones, ones, if_neg hm, if_neg (by omega), onesAdd]
    split
    · omega
    · omega

/-- A carry that comes in changes nothing. -/
theorem ones_carry (n : Nat) : ones (n % 65536 + n / 65536) = ones n := by
  by_cases hn : n = 0
  · rw [hn]
  · rw [ones, ones, if_neg (by omega), if_neg hn]
    omega

theorem ones_eq_max : ones n = 65535 ↔ n ≠ 0 ∧ n % 65535 = 0 := by
  rw [ones]
  split
  · omega
  · omega

theorem words_lt (l : List UInt8) : ∀ w ∈ words l, w < 65536 := by
  induction l using words.induct with
  | case1 a b l ih =>
    have ha := a.toNat_lt
    have hb := b.toNat_lt
    intro w hw
    rcases List.mem_cons.1 hw with rfl | hw
    · omega
    · exact ih w hw
  | case2 a =>
    have ha := a.toNat_lt
    intro w hw
    rw [words, List.mem_singleton] at hw
    omega
  | case3 =>
    intro w hw
    cases hw

theorem foldl_onesAdd (ws : List Nat) (h : ∀ w ∈ ws, w < 65536) (m : Nat) :
    ws.foldl onesAdd (ones m) = ones (m + ws.sum) := by
  induction ws generalizing m with
  | nil => rfl
  | cons w ws ih =>
    rw [List.foldl_cons, onesAdd_ones m (h w List.mem_cons_self),
      ih fun x hx => h x (List.mem_cons_of_mem _ hx), List.sum_cons, Nat.add_assoc]

theorem onesSum_eq (l : List UInt8) : onesSum l = ones (wordSum l) := by
  have h := foldl_onesAdd (words l) (words_lt l) 0
  rw [Nat.zero_add] at h
  exact h

theorem words_append (h : a.length % 2 = 0) (b : List UInt8) : words (a ++ b) = words a ++ words b := by
  induction a using words.induct with
  | case1 x y l ih =>
    have hl : l.length % 2 = 0 := by
      rw [List.length_cons, List.length_cons] at h
      omega
    rw [List.cons_append, List.cons_append, words, words, ih hl, List.cons_append]
  | case2 x => cases h
  | case3 => rfl

theorem wordSum_append (h : a.length % 2 = 0) (b : List UInt8) :
    wordSum (a ++ b) = wordSum a + wordSum b := by
  rw [wordSum, words_append h, List.sum_append, wordSum, wordSum]

theorem words_length (l : List UInt8) : (words l).length = (l.length + 1) / 2 := by
  induction l using words.induct with
  | case1 a b l ih =>
    rw [words, List.length_cons, ih, List.length_cons, List.length_cons]
    omega
  | case2 a => simp [words]
  | case3 => rfl

theorem wordSum_le (l : List UInt8) : wordSum l ≤ 65535 * ((l.length + 1) / 2) := by
  have h := List.sum_le_card_nsmul (words l) 65535 fun w hw => Nat.le_of_lt_succ (words_lt l w hw)
  rw [smul_eq_mul, words_length, Nat.mul_comm] at h
  exact h

/-- A checksum field: what brings a sum to all ones. -/
theorem ones_check (n : Nat) : ones (n + (65535 - ones n)) = 65535 := by
  rw [ones_eq_max]
  by_cases hn : n = 0
  · rw [hn, ones_of_lt (by decide)]
    decide
  · rw [ones, if_neg hn]
    omega

/-- All ones in the field are as good as all zeros, when the sum is not zero. -/
theorem ones_check_max (h : 65535 - ones n = 0) : ones (n + 65535) = 65535 := by
  have hlt := ones_lt n
  have hmax : ones n = 65535 := by omega
  rw [ones_eq_max] at hmax ⊢
  omega

end KernelHobby
