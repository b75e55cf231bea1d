import Mathlib.Tactic
import Mathlib.Data.Fintype.Card

namespace KernelHobby
set_option autoImplicit true

variable {ι β : Type} [Fintype ι] [DecidableEq ι] [DecidableEq β]

/-- How many positions refer to `n`. -/
def refs (tgt : ι → Option β) (n : β) : Nat := (Finset.univ.filter fun x => tgt x = some n).card

theorem refs_update (tgt : ι → Option β) (x : ι) (v : Option β) (n : β) :
    refs (Function.update tgt x v) n + (if tgt x = some n then 1 else 0) =
      refs tgt n + if v = some n then 1 else 0 := by
  have hsplit (f : ι → Option β) : refs f n =
      ((Finset.univ.erase x).filter fun y => f y = some n).card + if f x = some n then 1 else 0 := by
    rw [refs, ← Finset.insert_erase (Finset.mem_univ x), Finset.filter_insert]
    split
    · rw [Finset.card_insert_of_notMem]
      · simp
      · simp
    · simp
  have hsame : (Finset.univ.erase x).filter (fun y => Function.update tgt x v y = some n) =
      (Finset.univ.erase x).filter fun y => tgt y = some n := by
    apply Finset.filter_congr
    intro y hy
    rw [Function.update_of_ne (Finset.ne_of_mem_erase hy)]
  rw [hsplit (Function.update tgt x v), hsplit tgt, hsame, Function.update_self]
  omega

/-- A position that had no page refers to one. -/
theorem refs_new {tgt : ι → Option β} (hx : tgt x = none) :
    refs (Function.update tgt x (some n)) k = refs tgt k + if k = n then 1 else 0 := by
  have hu := refs_update tgt x (some n) k
  rw [hx] at hu
  simp only [reduceCtorEq, if_false, Option.some.injEq, eq_comm (a := n)] at hu
  exact hu

omit [DecidableEq ι] in
theorem refs_pos {tgt : ι → Option β} (h : tgt x = some n) : 0 < refs tgt n :=
  Finset.card_pos.2 ⟨x, by simp [h]⟩

omit [DecidableEq ι] in
theorem refs_eq_zero {tgt : ι → Option β} : refs tgt n = 0 ↔ ∀ x, tgt x ≠ some n := by
  simp [refs, Finset.filter_eq_empty_iff]

omit [DecidableEq ι] in
/-- References told apart by a key are at most as many as the keys. -/
theorem refs_le_card [Fintype κ] {tgt : ι → Option β} (key : ι → κ)
    (h : ∀ x y, tgt x = some n → tgt y = some n → key x = key y → x = y) :
    refs tgt n ≤ Fintype.card κ := by
  refine Finset.card_le_card_of_injOn key (fun _ _ => Finset.mem_univ _) ?_
  intro x hx y hy hk
  exact h x y (by simpa using hx) (by simpa using hy) hk

omit [DecidableEq ι] in
/-- References that all come from references. -/
theorem refs_le_refs [Fintype κ] [DecidableEq κ] {tgt : ι → Option β} {tgt' : κ → Option β}
    (f : ι → κ) (h : ∀ y, tgt' y = some n → ∃ x, tgt x = some n ∧ f x = y) :
    refs tgt' n ≤ refs tgt n := by
  refine Nat.le_trans (Finset.card_le_card fun y hy => ?_) (Finset.card_image_le (f := f))
  obtain ⟨x, hx, rfl⟩ := h y (Finset.mem_filter.1 hy).2
  exact Finset.mem_image_of_mem f (Finset.mem_filter.2 ⟨Finset.mem_univ x, hx⟩)

/-- Pages with reference counts. Each count is the number of positions that refer to the page,
and of references that were given up without a release; the free pages are those with count 0. -/
structure Balanced (managed : β → Prop) (tgt : ι → Option β) (lost rc : β → Nat)
    (free : List β) : Prop where
  count : ∀ n, managed n → rc n = refs tgt n + lost n
  nodup : free.Nodup
  free : ∀ n, n ∈ free ↔ managed n ∧ rc n = 0
  target : ∀ x n, tgt x = some n → managed n

namespace Balanced
variable {managed : β → Prop} {tgt : ι → Option β} {lost rc : β → Nat} {free : List β} {x y : ι}
  {n k : β}

omit [DecidableEq ι] in
theorem pos (h : Balanced managed tgt lost rc free) (hx : tgt x = some n) : 0 < rc n := by
  have := refs_pos hx
  rw [h.count n (h.target x n hx)]
  omega

omit [DecidableEq ι] in
theorem not_free (h : Balanced managed tgt lost rc free) (hx : tgt x = some n) : n ∉ free := by
  intro hn
  have := h.pos hx
  have := ((h.free n).1 hn).2
  omega

omit [DecidableEq ι] in
/-- Nothing was given up of a free page. -/
theorem free_lost (h : Balanced managed tgt lost rc free) (hn : n ∈ free) : lost n = 0 := by
  obtain ⟨hm, hz⟩ := (h.free n).1 hn
  have hc := h.count n hm
  omega

/-- A page from the free list gets its first reference. -/
theorem alloc (h : Balanced managed tgt lost rc (n :: free)) (hx : tgt x = none) :
    Balanced managed (Function.update tgt x (some n)) lost (Function.update rc n 1) free where
  count k hk := by
    have hc := h.count k hk
    rw [refs_new hx]
    by_cases hkn : k = n
    · subst hkn
      have hz := ((h.free k).1 List.mem_cons_self).2
      rw [Function.update_self, if_pos rfl]
      omega
    · rw [Function.update_of_ne hkn, if_neg hkn]
      exact hc
  free k := by
    have hf := h.free k
    obtain ⟨hn, _⟩ := List.nodup_cons.1 h.nodup
    by_cases hkn : k = n
    · subst hkn
      rw [Function.update_self]
      exact ⟨fun hk => absurd hk hn, fun hk => absurd hk.2 Nat.one_ne_zero⟩
    · rw [Function.update_of_ne hkn, ← hf, List.mem_cons]
      exact ⟨.inr, fun hk => hk.resolve_left hkn⟩
  nodup := (List.nodup_cons.1 h.nodup).2
  target y k hy := by
    by_cases hyx : y = x
    · subst hyx
      rw [Function.update_self] at hy
      cases hy
      exact ((h.free n).1 List.mem_cons_self).1
    · rw [Function.update_of_ne hyx] at hy
      exact h.target y k hy

/-- A page that is referred to gets one more reference. -/
theorem share (h : Balanced managed tgt lost rc free) (hx : tgt x = none) (hy : tgt y = some n) :
    Balanced managed (Function.update tgt x (some n)) lost (Function.update rc n (rc n + 1))
      free where
  count k hk := by
    have hc := h.count k hk
    rw [refs_new hx]
    by_cases hkn : k = n
    · subst hkn
      rw [Function.update_self, if_pos rfl]
      omega
    · rw [Function.update_of_ne hkn, if_neg hkn]
      exact hc
  free k := by
    by_cases hkn : k = n
    · subst hkn
      rw [Function.update_self]
      exact ⟨fun hk => absurd hk (h.not_free hy), fun hk => absurd hk.2 (Nat.succ_ne_zero _)⟩
    · rw [Function.update_of_ne hkn]
      exact h.free k
  nodup := h.nodup
  target z k hz := by
    by_cases hzx : z = x
    · subst hzx
      rw [Function.update_self] at hz
      cases hz
      exact h.target y n hy
    · rw [Function.update_of_ne hzx] at hz
      exact h.target z k hz

theorem target_update_none (h : Balanced managed tgt lost rc free) {z : ι}
    (hz : Function.update tgt x none z = some k) : managed k := by
  by_cases hzx : z = x
  · subst hzx
    rw [Function.update_self] at hz
    cases hz
  · rw [Function.update_of_ne hzx] at hz
    exact h.target z k hz

theorem count_update_none (h : Balanced managed tgt lost rc free) (hx : tgt x = some n)
    (hk : managed k) : rc k = refs (Function.update tgt x none) k + lost k +
      if k = n then 1 else 0 := by
  have hu := refs_update tgt x none k
  have hc := h.count k hk
  by_cases hkn : k = n
  · subst hkn
    rw [if_pos rfl]
    simp only [hx, if_true, reduceCtorEq, if_false] at hu
    omega
  · rw [if_neg hkn]
    simp only [hx, Option.some.injEq, Ne.symm hkn, if_false, reduceCtorEq] at hu
    omega

/-- One of several references is given back. -/
theorem drop (h : Balanced managed tgt lost rc free) (hx : tgt x = some n) (h1 : 1 < rc n) :
    Balanced managed (Function.update tgt x none) lost (Function.update rc n (rc n - 1)) free where
  count k hk := by
    have hc := h.count_update_none hx hk
    by_cases hkn : k = n
    · subst hkn
      rw [Function.update_self]
      rw [if_pos rfl] at hc
      omega
    · rw [Function.update_of_ne hkn]
      rw [if_neg hkn] at hc
      omega
  free k := by
    by_cases hkn : k = n
    · subst hkn
      rw [Function.update_self]
      refine ⟨fun hk => absurd hk (h.not_free hx), fun hk => ?_⟩
      have := hk.2
      omega
    · rw [Function.update_of_ne hkn]
      exact h.free k
  nodup := h.nodup
  target z k hz := h.target_update_none hz

/-- The last reference is given back, and the page is free. -/
theorem dropLast (h : Balanced managed tgt lost rc free) (hx : tgt x = some n) (h1 : rc n ≤ 1) :
    Balanced managed (Function.update tgt x none) lost (Function.update rc n 0) (n :: free) where
  count k hk := by
    have hc := h.count_update_none hx hk
    by_cases hkn : k = n
    · subst hkn
      rw [Function.update_self]
      rw [if_pos rfl] at hc
      omega
    · rw [Function.update_of_ne hkn]
      rw [if_neg hkn] at hc
      omega
  free k := by
    by_cases hkn : k = n
    · subst hkn
      rw [Function.update_self]
      exact ⟨fun _ => ⟨h.target x k hx, rfl⟩, fun _ => List.mem_cons_self⟩
    · rw [Function.update_of_ne hkn, ← h.free k, List.mem_cons]
      exact ⟨fun hk => hk.resolve_left hkn, .inr⟩
  nodup := List.nodup_cons.2 ⟨h.not_free hx, h.nodup⟩
  target z k hz := h.target_update_none hz

/-- A reference is forgotten: its page stays taken for ever. -/
theorem lose (h : Balanced managed tgt lost rc free) (hx : tgt x = some n) :
    Balanced managed (Function.update tgt x none) (Function.update lost n (lost n + 1)) rc
      free where
  count k hk := by
    have hc := h.count_update_none hx hk
    by_cases hkn : k = n
    · subst hkn
      rw [Function.update_self]
      rw [if_pos rfl] at hc
      omega
    · rw [Function.update_of_ne hkn]
      rw [if_neg hkn] at hc
      omega
  free := h.free
  nodup := h.nodup
  target z k hz := h.target_update_none hz

/-- A reference that was given up is found again. -/
theorem find (h : Balanced managed tgt lost rc free) (hm : managed n) (hx : tgt x = none)
    (hl : 0 < lost n) :
    Balanced managed (Function.update tgt x (some n)) (Function.update lost n (lost n - 1)) rc
      free where
  count k hk := by
    have hc := h.count k hk
    rw [refs_new hx]
    by_cases hkn : k = n
    · subst hkn
      rw [Function.update_self, if_pos rfl]
      omega
    · rw [Function.update_of_ne hkn, if_neg hkn]
      exact hc
  free := h.free
  nodup := h.nodup
  target z k hz := by
    by_cases hzx : z = x
    · subst hzx
      rw [Function.update_self] at hz
      cases hz
      exact hm
    · rw [Function.update_of_ne hzx] at hz
      exact h.target z k hz

/-- A reference moves to another position. -/
theorem move (h : Balanced managed tgt lost rc free) (hx : tgt x = some n) (hy : tgt y = none) :
    Balanced managed (Function.update (Function.update tgt x none) y (some n)) lost rc free where
  count k hk := by
    have hxy : y ≠ x := by
      rintro rfl
      rw [hx] at hy
      cases hy
    have hc := h.count_update_none hx hk
    rw [refs_new ((Function.update_of_ne hxy _ _).trans hy)]
    omega
  free := h.free
  nodup := h.nodup
  target z k hz := by
    by_cases hzy : z = y
    · subst hzy
      rw [Function.update_self] at hz
      cases hz
      exact h.target x n hx
    · rw [Function.update_of_ne hzy] at hz
      exact h.target_update_none hz

end Balanced

end KernelHobby
