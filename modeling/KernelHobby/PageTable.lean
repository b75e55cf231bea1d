import Mathlib.Tactic.DeriveFintype
import KernelHobby.Vm

namespace KernelHobby
set_option autoImplicit true

/-- A node of a page table, by the indices that lead to it. -/
inductive Node where
  | root
  | mid (i : Fin 512)
  | low (i j : Fin 512)
  deriving DecidableEq, Fintype

/-- The indices of a virtual page. -/
def ix2 (v : Nat) : Fin 512 := ⟨v / 2 ^ 18 % 512, Nat.mod_lt _ (Nat.succ_pos _)⟩

def ix1 (v : Nat) : Fin 512 := ⟨v / 2 ^ 9 % 512, Nat.mod_lt _ (Nat.succ_pos _)⟩

def ix0 (v : Nat) : Fin 512 := ⟨v % 512, Nat.mod_lt _ (Nat.succ_pos _)⟩

/-- The virtual page of an address. -/
def vpn (va : Nat) : Nat := va / PGSIZE % 2 ^ 27

theorem px_eq (level va : Nat) : px level va = va / 2 ^ (12 + 9 * level) % 512 := by
  rw [px, Nat.shiftRight_eq_div_pow]
  exact Nat.and_two_pow_sub_one_eq_mod _ 9

theorem px_two (va : Nat) : px 2 va = ix2 (vpn va) := by
  simp only [px_eq, ix2, vpn, PGSIZE]
  omega

theorem px_one (va : Nat) : px 1 va = ix1 (vpn va) := by
  simp only [px_eq, ix1, vpn, PGSIZE]
  omega

theorem px_zero (va : Nat) : px 0 va = ix0 (vpn va) := by
  simp only [px_eq, ix0, vpn, PGSIZE]
  omega

theorem vpn_lt (va : Nat) : vpn va < 2 ^ 27 := Nat.mod_lt _ (Nat.two_pow_pos _)

/-- The indices tell virtual pages apart. -/
theorem ix_inj (hv : v < 2 ^ 27) (hw : w < 2 ^ 27) (h₂ : ix2 v = ix2 w) (h₁ : ix1 v = ix1 w)
    (h₀ : ix0 v = ix0 w) : v = w := by
  simp only [ix2, ix1, ix0, Fin.mk.injEq] at h₂ h₁ h₀
  omega

/-- An entry for page `n` with flags `f`. -/
def mkPte (n f : Nat) : Nat := n * 1024 + f

theorem pa2pte_or (n : Nat) (hf : f < 1024) : pa2pte n ||| f = mkPte n f := by
  rw [pa2pte, mkPte, ← Nat.shiftLeft_add_eq_or_of_lt (i := 10) hf, Nat.shiftLeft_eq]

theorem pte2pa_mkPte (n : Nat) (hf : f < 1024) : pte2pa (mkPte n f) = n := by
  rw [pte2pa, mkPte, Nat.shiftRight_eq_div_pow]
  omega

theorem pteFlags_mkPte (n : Nat) (hf : f < 1024) : pteFlags (mkPte n f) = f := by
  rw [pteFlags, mkPte, Nat.and_two_pow_sub_one_eq_mod _ 10]
  omega

/-- The flag bits of an entry are those of its flags. -/
theorem mkPte_and (n : Nat) (hf : f < 1024) (hk : k < 1024) : mkPte n f &&& k = f &&& k := by
  have h := pteFlags_mkPte n hf
  have hkk : 0x3ff &&& k = k := by
    rw [Nat.and_comm, Nat.and_two_pow_sub_one_eq_mod _ 10]
    exact Nat.mod_eq_of_lt hk
  rw [pteFlags] at h
  calc mkPte n f &&& k = mkPte n f &&& (0x3ff &&& k) := by rw [hkk]
    _ = mkPte n f &&& 0x3ff &&& k := (Nat.and_assoc ..).symm
    _ = f &&& k := by rw [h]

theorem mkPte_lt (hn : n < PHYSTOP) (hf : f < 1024) : mkPte n f < 2 ^ 64 := by
  simp only [mkPte, PHYSTOP] at hn ⊢
  omega

theorem mkPte_inj (hf : f < 1024) (hg : g < 1024) (h : mkPte n f = mkPte k g) :
    n = k ∧ f = g := by
  simp only [mkPte] at h
  omega

/-- The entry that leads to a node. -/
def link : Option Nat → Nat
  | none => 0
  | some n => mkPte n PTE_V

/-- The memory holds a page table: its nodes are the pages of `T`, and its lowest entries are
those of `lf`. -/
structure Holds (m : Mem) (T : Node → Option Nat) (lf : Nat → Nat) : Prop where
  root : ∀ r, T .root = some r → ∀ i : Fin 512, (m r).word i = link (T (.mid i))
  mid : ∀ i p, T (.mid i) = some p → ∀ j : Fin 512, (m p).word j = link (T (.low i j))
  low : ∀ v p, v < 2 ^ 27 → T (.low (ix2 v) (ix1 v)) = some p → (m p).word (ix0 v) = lf v
  top : T .root = none → ∀ i, T (.mid i) = none
  up : ∀ i j, T (.mid i) = none → T (.low i j) = none
  absent : ∀ v, v < 2 ^ 27 → T (.low (ix2 v) (ix1 v)) = none → lf v = 0

/-- No page serves as two nodes. -/
def Distinct (T : Node → Option Nat) : Prop := ∀ x y n, T x = some n → T y = some n → x = y

namespace Holds
variable {m m' : Mem} {T : Node → Option Nat} {lf : Nat → Nat}

theorem congr (h : Holds m T lf) (hm : ∀ x n, T x = some n → m' n = m n) : Holds m' T lf where
  root r hr i := by
    rw [hm _ r hr]
    exact h.root r hr i
  mid i p hp j := by
    rw [hm _ p hp]
    exact h.mid i p hp j
  low v p hv hp := by
    rw [hm _ p hp]
    exact h.low v p hv hp
  top := h.top
  up := h.up
  absent := h.absent

theorem low_mid (h : Holds m T lf) (hj : T (.low i j) = some p) : ∃ q, T (.mid i) = some q := by
  cases hi : T (.mid i) with
  | none =>
    rw [h.up i j hi] at hj
    cases hj
  | some q => exact ⟨q, rfl⟩

/-- A lowest entry is written. -/
theorem setLeaf (h : Holds m T lf) (hd : Distinct T) (hv : v < 2 ^ 27)
    (hp : T (.low (ix2 v) (ix1 v)) = some p) (hw : w < 2 ^ 64) :
    Holds (m.setWord p (ix0 v) w) T (Function.update lf v w) where
  root r hr i := by
    have hne : r ≠ p := by
      rintro rfl
      cases hd _ _ r hr hp
    rw [m.word_setWord_of_ne (.inl hne)]
    exact h.root r hr i
  mid i q hq j := by
    have hne : q ≠ p := by
      rintro rfl
      cases hd _ _ q hq hp
    rw [m.word_setWord_of_ne (.inl hne)]
    exact h.mid i q hq j
  low u q hu hq := by
    by_cases huv : u = v
    · subst huv
      rw [hp] at hq
      cases hq
      rw [m.word_setWord_self _ _ hw, Function.update_self]
    · rw [Function.update_of_ne huv, ← h.low u q hu hq]
      apply m.word_setWord_of_ne
      by_cases hqp : q = p
      · subst hqp
        have he := hd _ _ q hq hp
        rw [Node.low.injEq] at he
        right
        intro h₀
        exact huv (ix_inj hu hv he.1 he.2 (Fin.ext h₀))
      · exact .inl hqp
  top := h.top
  up := h.up
  absent u hu hn := by
    have huv : u ≠ v := by
      rintro rfl
      rw [hp] at hn
      cases hn
    rw [Function.update_of_ne huv]
    exact h.absent u hu hn

end Holds

theorem link_lt (hn : n < PHYSTOP) : link (some n) < 2 ^ 64 := mkPte_lt hn (by decide)

theorem Distinct.update (hd : Distinct T) (hn : ∀ x, T x ≠ some n) (x : Node) :
    Distinct (Function.update T x (some n)) := by
  intro y z k hy hz
  by_cases hyx : y = x
  · by_cases hzx : z = x
    · rw [hyx, hzx]
    · subst hyx
      rw [Function.update_self] at hy
      cases hy
      rw [Function.update_of_ne hzx] at hz
      exact absurd hz (hn z)
  · rw [Function.update_of_ne hyx] at hy
    by_cases hzx : z = x
    · subst hzx
      rw [Function.update_self] at hz
      cases hz
      exact absurd hy (hn y)
    · rw [Function.update_of_ne hzx] at hz
      exact hd y z k hy hz

namespace Holds
variable {m : Mem} {T : Node → Option Nat} {lf : Nat → Nat}

/-- A zeroed page becomes a middle node. -/
theorem addMid (h : Holds m T lf) (hd : Distinct T) (hr : T .root = some r)
    (hi : T (.mid i) = none) (hn : ∀ x, T x ≠ some n) (hlt : n < PHYSTOP) :
    Holds ((m.setPage n Page.zero).setWord r i (link (some n)))
      (Function.update T (.mid i) (some n)) lf := by
  have hrn : r ≠ n := fun he => hn _ (he ▸ hr)
  have hold (x : Node) (k : Nat) (hx : T x = some k) (hkr : k ≠ r) (l : Nat) :
      (((m.setPage n Page.zero).setWord r i (link (some n))) k).word l = (m k).word l := by
    have hkn : k ≠ n := fun he => hn x (he ▸ hx)
    rw [Mem.word_setWord_of_ne _ (.inl hkr), m.setPage_of_ne _ hkn]
  have hlow (j k : Fin 512) : Function.update T (.mid i) (some n) (.low j k) = T (.low j k) :=
    Function.update_of_ne Node.noConfusion _ _
  constructor
  · intro r' hr' j
    rw [Function.update_of_ne Node.noConfusion, hr] at hr'
    cases hr'
    by_cases hj : j = i
    · subst hj
      rw [Mem.word_setWord_self _ _ _ (link_lt hlt), Function.update_self]
    · have hne : Node.mid j ≠ .mid i := fun he => hj (Node.mid.inj he)
      rw [Mem.word_setWord_of_ne _ (.inr fun he => hj (Fin.ext he)), m.setPage_of_ne _ hrn,
        h.root r hr j, Function.update_of_ne hne]
  · intro j p hp k
    rw [hlow]
    by_cases hj : j = i
    · subst hj
      rw [Function.update_self] at hp
      cases hp
      rw [Mem.word_setWord_of_ne _ (.inl hrn.symm), m.setPage_self, Page.word_zero, h.up j k hi]
      rfl
    · have hne : Node.mid j ≠ .mid i := fun he => hj (Node.mid.inj he)
      rw [Function.update_of_ne hne] at hp
      have hpr : p ≠ r := by
        rintro rfl
        cases hd _ _ p hp hr
      rw [hold _ p hp hpr]
      exact h.mid j p hp k
  · intro v p hv hp
    rw [hlow] at hp
    have hpr : p ≠ r := by
      rintro rfl
      cases hd _ _ p hp hr
    rw [hold _ p hp hpr]
    exact h.low v p hv hp
  · intro hnone
    rw [Function.update_of_ne Node.noConfusion, hr] at hnone
    cases hnone
  · intro j k hj
    rw [hlow]
    by_cases hji : j = i
    · subst hji
      exact h.up j k hi
    · have hne : Node.mid j ≠ .mid i := fun he => hji (Node.mid.inj he)
      rw [Function.update_of_ne hne] at hj
      exact h.up j k hj
  · intro v hv hp
    rw [hlow] at hp
    exact h.absent v hv hp

/-- A zeroed page becomes a lowest node. -/
theorem addLow (h : Holds m T lf) (hd : Distinct T) (hp : T (.mid i) = some p)
    (hj : T (.low i j) = none) (hn : ∀ x, T x ≠ some n) (hlt : n < PHYSTOP) :
    Holds ((m.setPage n Page.zero).setWord p j (link (some n)))
      (Function.update T (.low i j) (some n)) lf := by
  have hpn : p ≠ n := fun he => hn _ (he ▸ hp)
  have hold (x : Node) (k : Nat) (hx : T x = some k) (hkp : k ≠ p) (l : Nat) :
      (((m.setPage n Page.zero).setWord p j (link (some n))) k).word l = (m k).word l := by
    have hkn : k ≠ n := fun he => hn x (he ▸ hx)
    rw [Mem.word_setWord_of_ne _ (.inl hkp), m.setPage_of_ne _ hkn]
  have hmid (k : Fin 512) : Function.update T (.low i j) (some n) (.mid k) = T (.mid k) :=
    Function.update_of_ne Node.noConfusion _ _
  constructor
  · intro r hr k
    rw [Function.update_of_ne Node.noConfusion] at hr
    have hrp : r ≠ p := by
      rintro rfl
      cases hd _ _ r hr hp
    rw [hold _ r hr hrp, hmid]
    exact h.root r hr k
  · intro k q hq l
    rw [hmid] at hq
    by_cases hqp : q = p
    · subst hqp
      obtain rfl := Node.mid.inj (hd _ _ q hq hp)
      by_cases hl : l = j
      · subst hl
        rw [Mem.word_setWord_self _ _ _ (link_lt hlt), Function.update_self]
      · have hne : Node.low k l ≠ .low k j := fun he => hl (Node.low.inj he).2
        rw [Mem.word_setWord_of_ne _ (.inr fun he => hl (Fin.ext he)), m.setPage_of_ne _ hpn,
          h.mid k q hq l, Function.update_of_ne hne]
    · have hne : Node.low k l ≠ .low i j := by
        intro he
        obtain ⟨rfl, _⟩ := Node.low.inj he
        rw [hp] at hq
        exact hqp (Option.some.inj hq).symm
      rw [hold _ q hq hqp, Function.update_of_ne hne]
      exact h.mid k q hq l
  · intro v q hv hq
    by_cases hv' : Node.low (ix2 v) (ix1 v) = .low i j
    · rw [hv', Function.update_self] at hq
      cases hq
      rw [Mem.word_setWord_of_ne _ (.inl hpn.symm), m.setPage_self, Page.word_zero]
      rw [← hv'] at hj
      exact (h.absent v hv hj).symm
    · rw [Function.update_of_ne hv'] at hq
      have hqp : q ≠ p := by
        rintro rfl
        cases hd _ _ q hq hp
      rw [hold _ q hq hqp]
      exact h.low v q hv hq
  · intro hr k
    rw [Function.update_of_ne Node.noConfusion] at hr
    rw [hmid]
    exact h.top hr k
  · intro k l hk
    rw [hmid] at hk
    have hne : Node.low k l ≠ .low i j := by
      intro he
      obtain ⟨rfl, _⟩ := Node.low.inj he
      rw [hp] at hk
      cases hk
    rw [Function.update_of_ne hne]
    exact h.up k l hk
  · intro v hv hq
    by_cases hv' : Node.low (ix2 v) (ix1 v) = .low i j
    · rw [hv', Function.update_self] at hq
      cases hq
    · rw [Function.update_of_ne hv'] at hq
      exact h.absent v hv hq

end Holds

theorem link_some_and (n : Nat) : mkPte n PTE_V &&& PTE_V ≠ 0 := by
  rw [mkPte_and n (by decide) (by decide)]
  decide

namespace Phys
variable {s : Phys} {T : Node → Option Nat} {lf : Nat → Nat}

theorem walkLevels_found (ht : (s.mem pt).word (px (level + 1) va) = link (some n)) :
    walkLevels alloc va (level + 1) s pt = walkLevels alloc va level s n := by
  rw [walkLevels, ht]
  simp only [link]
  rw [if_pos (link_some_and n), pte2pa_mkPte n (by decide)]

theorem walkLevels_missing (ht : (s.mem pt).word (px (level + 1) va) = link none) :
    walkLevels false va (level + 1) s pt = (none, s) := by
  rw [walkLevels, ht]
  rfl

/-- `walk` on a page table finds the lowest node, when there is one. -/
theorem walk_holds (h : Holds s.mem T lf) (hr : T .root = some r) (va : Nat) :
    s.walk r va false =
      ((T (.low (ix2 (vpn va)) (ix1 (vpn va)))).map fun p => (p, (ix0 (vpn va) : Nat)), s) := by
  have h₂ := h.root r hr (ix2 (vpn va))
  rw [← px_two] at h₂
  cases hm : T (.mid (ix2 (vpn va))) with
  | none =>
    rw [hm] at h₂
    rw [walk, walkLevels_missing h₂, h.up _ _ hm]
    rfl
  | some p =>
    rw [hm] at h₂
    have h₁ := h.mid _ p hm (ix1 (vpn va))
    rw [← px_one] at h₁
    rw [walk, walkLevels_found h₂]
    cases hl : T (.low (ix2 (vpn va)) (ix1 (vpn va))) with
    | none =>
      rw [hl] at h₁
      rw [walkLevels_missing h₁]
      rfl
    | some n =>
      rw [hl] at h₁
      rw [walkLevels_found h₁, walkLevels, px_zero]
      rfl

end Phys

end KernelHobby
