import Mathlib.Tactic

namespace KernelHobby
set_option autoImplicit true

/-- The `n` entries of a ring of size `N` from the free-running index `lo` on. -/
def ringList (f : Nat → α) (N lo n : Nat) : List α :=
  (List.range n).map fun j => f ((lo + j) % N)

@[simp] theorem length_ringList (f : Nat → α) (N lo n : Nat) : (ringList f N lo n).length = n := by
  simp [ringList]

@[simp] theorem ringList_zero (f : Nat → α) (N lo : Nat) : ringList f N lo 0 = [] := rfl

/-- Only the place in the ring matters. -/
theorem ringList_congr (f : Nat → α) (n : Nat) (h : lo % N = lo' % N) :
    ringList f N lo n = ringList f N lo' n := by
  apply List.map_congr_left
  intro j _
  rw [Nat.add_mod, h, ← Nat.add_mod]

theorem ringList_cons (f : Nat → α) (N lo n : Nat) :
    ringList f N lo (n + 1) = f (lo % N) :: ringList f N (lo + 1) n := by
  rw [ringList, List.range_succ_eq_map, List.map_cons, List.map_map]
  congr 1
  apply List.map_congr_left
  intro j _
  rw [Function.comp_apply, Nat.succ_eq_add_one, Nat.add_comm j 1, ← Nat.add_assoc]

theorem ringList_snoc (f : Nat → α) (N lo n : Nat) :
    ringList f N lo (n + 1) = ringList f N lo n ++ [f ((lo + n) % N)] := by
  rw [ringList, List.range_succ, List.map_append, List.map_singleton]
  rfl

/-- The place behind the last entry is free as long as the ring is not full. -/
theorem ringList_next_ne {n N lo j : Nat} (hn : n < N) (hj : j < n) : (lo + j) % N ≠ (lo + n) % N := by
  intro he
  have hmod : j ≡ n [MOD N] := Nat.ModEq.add_left_cancel' lo he
  have : j % N = n % N := hmod
  rw [Nat.mod_eq_of_lt (by omega), Nat.mod_eq_of_lt hn] at this
  omega

theorem ringList_update (f : Nat → α) (v : α) (hn : n < N) :
    ringList (Function.update f ((lo + n) % N) v) N lo n = ringList f N lo n := by
  apply List.map_congr_left
  intro j hj
  exact Function.update_of_ne (ringList_next_ne hn (List.mem_range.1 hj)) _ _

/-- A new entry behind the last. -/
theorem ringList_push (f : Nat → α) (v : α) (hn : n < N) :
    ringList (Function.update f ((lo + n) % N) v) N lo (n + 1) = ringList f N lo n ++ [v] := by
  rw [ringList_snoc, ringList_update f v hn, Function.update_self]

/-- How far a 16-bit index is ahead of another. -/
def gap (lo hi : UInt16) : Nat := (hi - lo).toNat

theorem gap_eq (lo hi : UInt16) : gap lo hi = (2 ^ 16 - lo.toNat + hi.toNat) % 2 ^ 16 :=
  UInt16.toNat_sub hi lo

theorem toNat_succ16 (x : UInt16) : (x + 1).toNat = (x.toNat + 1) % 2 ^ 16 := UInt16.toNat_add x 1

@[simp] theorem gap_self (x : UInt16) : gap x x = 0 := by
  simp [gap]

theorem gap_eq_zero : gap lo hi = 0 ↔ hi = lo := by
  have h₁ := lo.toNat_lt
  have h₂ := hi.toNat_lt
  rw [gap_eq, ← UInt16.toNat_inj]
  omega

theorem gap_succ_right (h : gap lo hi < 2 ^ 16 - 1) : gap lo (hi + 1) = gap lo hi + 1 := by
  have h₁ := lo.toNat_lt
  have h₂ := hi.toNat_lt
  rw [gap_eq, gap_eq, toNat_succ16] at *
  omega

theorem gap_succ_left (h : hi ≠ lo) : gap lo hi = gap (lo + 1) hi + 1 := by
  have h₁ := lo.toNat_lt
  have h₂ := hi.toNat_lt
  have hne : hi.toNat ≠ lo.toNat := fun he => h (UInt16.toNat_inj.1 he)
  rw [gap_eq, gap_eq, toNat_succ16]
  omega

/-- The ring's size divides the range of the indices, so they may run over. -/
theorem succ16_mod (x : UInt16) (hN : N ∣ 2 ^ 16) : (x + 1).toNat % N = (x.toNat + 1) % N := by
  rw [toNat_succ16, Nat.mod_mod_of_dvd _ hN]

theorem add_gap_mod (lo hi : UInt16) (hN : N ∣ 2 ^ 16) : (lo.toNat + gap lo hi) % N = hi.toNat % N := by
  have h₁ := lo.toNat_lt
  have h₂ := hi.toNat_lt
  have he : (lo.toNat + gap lo hi) % 2 ^ 16 = hi.toNat := by
    rw [gap_eq]
    omega
  rw [← Nat.mod_mod_of_dvd _ hN, he]

end KernelHobby
