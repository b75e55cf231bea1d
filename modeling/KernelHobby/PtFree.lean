import KernelHobby.PtAlloc

namespace KernelHobby
set_option autoImplicit true

/-- What a loop over the indices below `n` keeps. -/
theorem foldl_range {σ : Type} {f : σ → Nat → σ} {P : Nat → σ → Prop} {s : σ} (h0 : P 0 s)
    (hs : ∀ i s, i < n → P i s → P (i + 1) (f s i)) : P n ((List.range n).foldl f s) := by
  induction n with
  | zero => exact h0
  | succ n ih =>
    rw [List.range_succ, List.foldl_append]
    exact hs n _ (Nat.lt_succ_self n) (ih fun i s hi => hs i s (Nat.lt_succ_of_lt hi))

/-- The entries without those of one lowest node. -/
def cut (lf : Nat → Nat) (i j : Fin 512) : Nat → Nat := fun v =>
  if ix2 v = i ∧ ix1 v = j then 0 else lf v

namespace Holds
variable {m m' : Mem} {T : Node → Option Nat} {lf : Nat → Nat}

/-- A lowest node is taken off its middle node. -/
theorem cutLow (h : Holds m T lf) (hd : Distinct T) (hp : T (.mid i) = some p)
    (hl : T (.low i j) = some l) (hm : ∀ k, k ≠ l → m' k = m k) :
    Holds (m'.setWord p j 0) (Function.update T (.low i j) none) (cut lf i j) := by
  have hold (x : Node) (k : Nat) (hx : T x = some k) (hxl : x ≠ .low i j) (a : Nat)
      (ha : k ≠ p ∨ a ≠ j) : (m'.setWord p j 0 k).word a = (m k).word a := by
    rw [m'.word_setWord_of_ne ha, hm]
    rintro rfl
    exact hxl (hd _ _ k hx hl)
  have hmid (k : Fin 512) : Function.update T (.low i j) none (.mid k) = T (.mid k) :=
    Function.update_of_ne Node.noConfusion _ _
  constructor
  · intro r hr k
    rw [Function.update_of_ne Node.noConfusion] at hr
    have hrp : r ≠ p := by
      rintro rfl
      cases hd _ _ r hr hp
    rw [hold _ r hr Node.noConfusion _ (.inl hrp), hmid]
    exact h.root r hr k
  · intro k q hq a
    rw [hmid] at hq
    by_cases hka : Node.low k a = .low i j
    · obtain ⟨rfl, rfl⟩ := Node.low.inj hka
      rw [hp] at hq
      cases hq
      rw [m'.word_setWord_self _ _ (Nat.two_pow_pos 64), Function.update_self]
      rfl
    · rw [Function.update_of_ne hka, ← h.mid k q hq a]
      refine hold _ q hq Node.noConfusion _ ?_
      by_cases hqp : q = p
      · subst hqp
        obtain rfl := Node.mid.inj (hd _ _ q hq hp)
        exact .inr fun he => hka (by rw [Fin.ext he])
      · exact .inl hqp
  · intro v q hv hq
    by_cases hlow : Node.low (ix2 v) (ix1 v) = .low i j
    · rw [hlow, Function.update_self] at hq
      cases hq
    · rw [Function.update_of_ne hlow] at hq
      have hqp : q ≠ p := by
        rintro rfl
        cases hd _ _ q hq hp
      rw [hold _ q hq hlow _ (.inl hqp), cut, if_neg fun he => hlow (by rw [he.1, he.2])]
      exact h.low v q hv hq
  · intro hr k
    rw [Function.update_of_ne Node.noConfusion] at hr
    rw [hmid]
    exact h.top hr k
  · intro k a hk
    rw [hmid] at hk
    by_cases hka : Node.low k a = .low i j
    · rw [hka, Function.update_self]
    · rw [Function.update_of_ne hka]
      exact h.up k a hk
  · intro v hv hq
    rw [cut]
    split
    · rfl
    · rename_i hne
      rw [Function.update_of_ne fun he => hne (Node.low.inj he)] at hq
      exact h.absent v hv hq

/-- A middle node without lowest nodes is taken off the root. -/
theorem cutMid (h : Holds m T lf) (hd : Distinct T) (hr : T .root = some r)
    (hp : T (.mid i) = some p) (hi : ∀ j, T (.low i j) = none) (hm : ∀ k, k ≠ p → m' k = m k) :
    Holds (m'.setWord r i 0) (Function.update T (.mid i) none) lf := by
  have hold (x : Node) (k : Nat) (hx : T x = some k) (hxp : x ≠ .mid i) (a : Nat)
      (ha : k ≠ r ∨ a ≠ i) : (m'.setWord r i 0 k).word a = (m k).word a := by
    rw [m'.word_setWord_of_ne ha, hm]
    rintro rfl
    exact hxp (hd _ _ k hx hp)
  have hlow (j k : Fin 512) : Function.update T (.mid i) none (.low j k) = T (.low j k) :=
    Function.update_of_ne Node.noConfusion _ _
  constructor
  · intro q hq a
    rw [Function.update_of_ne Node.noConfusion, hr] at hq
    cases hq
    by_cases hai : a = i
    · subst hai
      rw [m'.word_setWord_self _ _ (Nat.two_pow_pos 64), Function.update_self]
      rfl
    · have hne : Node.mid a ≠ .mid i := fun he => hai (Node.mid.inj he)
      rw [Function.update_of_ne hne, ← h.root r hr a]
      exact hold _ r hr Node.noConfusion _ (.inr fun he => hai (Fin.ext he))
  · intro k q hq a
    by_cases hki : Node.mid k = .mid i
    · rw [hki, Function.update_self] at hq
      cases hq
    · rw [Function.update_of_ne hki] at hq
      have hqr : q ≠ r := by
        rintro rfl
        cases hd _ _ q hq hr
      rw [hold _ q hq hki _ (.inl hqr), hlow]
      exact h.mid k q hq a
  · intro v q hv hq
    rw [hlow] at hq
    have hqr : q ≠ r := by
      rintro rfl
      cases hd _ _ q hq hr
    rw [hold _ q hq Node.noConfusion _ (.inl hqr)]
    exact h.low v q hv hq
  · intro hnone
    rw [Function.update_of_ne Node.noConfusion, hr] at hnone
    cases hnone
  · intro k a hk
    rw [hlow]
    by_cases hki : k = i
    · rw [hki]
      exact hi a
    · rw [Function.update_of_ne fun he => hki (Node.mid.inj he)] at hk
      exact h.up k a hk
  · intro v hv hq
    rw [hlow] at hq
    exact h.absent v hv hq

end Holds

variable {ι : Type} [Fintype ι] [DecidableEq ι] {kend : Nat} {s s' s'' : Phys}
  {tgt tgt' tgt'' : ι → Option Nat} {lost : Nat → Nat} {fl fl' fl'' : List Nat} {nd : Node → ι}
  {lf : Nat → Nat}

/-- Nodes of the table are given back, and nothing else changes. -/
structure Pruned (nd : Node → ι) (s : Phys) (tgt : ι → Option Nat) (fl : List Nat) (s' : Phys)
    (tgt' : ι → Option Nat) (fl' : List Nat) : Prop where
  off : ∀ y, (∀ x, y ≠ nd x) → tgt' y = tgt y
  sub : ∀ y n, tgt' y = some n → tgt y = some n
  mem : ∀ n, (∀ x, tgt (nd x) ≠ some n) → s'.mem n = s.mem n
  free : ∀ n ∈ fl', n ∈ fl ∨ ∃ x, tgt (nd x) = some n
  refcnt : ∀ n, (∀ x, tgt (nd x) ≠ some n) → s'.refcnt n = s.refcnt n
  taken : s'.taken = s.taken
  failed : s'.failed = s.failed

namespace Pruned

omit [Fintype ι] [DecidableEq ι] in
theorem refl (nd : Node → ι) (s : Phys) (tgt : ι → Option Nat) (fl : List Nat) :
    Pruned nd s tgt fl s tgt fl :=
  ⟨fun _ _ => rfl, fun _ _ h => h, fun _ _ => rfl, fun _ => .inl, fun _ _ => rfl, rfl, rfl⟩

omit [Fintype ι] [DecidableEq ι] in
theorem trans (h : Pruned nd s tgt fl s' tgt' fl') (h' : Pruned nd s' tgt' fl' s'' tgt'' fl'') :
    Pruned nd s tgt fl s'' tgt'' fl'' where
  off y hy := (h'.off y hy).trans (h.off y hy)
  sub y n hn := h.sub y n (h'.sub y n hn)
  mem n hn := by
    rw [h'.mem n fun x hx => hn x (h.sub _ n hx), h.mem n hn]
  free n hn := by
    rcases h'.free n hn with hf | ⟨x, hx⟩
    · exact h.free n hf
    · exact .inr ⟨x, h.sub _ n hx⟩
  refcnt n hn := by
    rw [h'.refcnt n fun x hx => hn x (h.sub _ n hx), h.refcnt n hn]
  taken := h'.taken.trans h.taken
  failed := h'.failed.trans h.failed

end Pruned

theorem Phys.kfree_taken (s : Phys) (n : Nat) : (s.kfree n).taken = s.taken := by
  rw [kfree]
  split <;> rfl

theorem Phys.kfree_refcnt (s : Phys) (h : k ≠ n) : (s.kfree n).refcnt k = s.refcnt k := by
  rw [kfree]
  split <;> exact Function.update_of_ne h _ _

theorem Phys.kfree_failed (s : Phys) (n : Nat) : (s.kfree n).failed = s.failed := by
  rw [kfree]
  split <;> rfl

namespace Tab

/-- Node `x` is given back, and the memory holds the table without it then. -/
theorem drop (h : Tab kend s tgt lost fl nd lf) (hx : tgt (nd x) = some n) {m : Mem}
    {lf' : Nat → Nat} (hm : Holds m (Function.update (fun y => tgt (nd y)) x none) lf')
    (hframe : ∀ k, (∀ y, y ≠ x → tgt (nd y) ≠ some k) → m k = (s.kfree n).mem k) :
    ∃ fl', Tab kend ((s.kfree n).setMem m) (Function.update tgt (nd x) none) lost fl' nd lf' ∧
      Pruned nd s tgt fl ((s.kfree n).setMem m) (Function.update tgt (nd x) none) fl' := by
  obtain ⟨fl', ha, hfr⟩ := h.alloc.kfree hx
  have hcomp : (fun y => Function.update tgt (nd x) none (nd y)) =
      Function.update (fun y => tgt (nd y)) x none :=
    funext fun y => Function.update_comp_eq_of_injective' _ h.inj _ _ ▸ rfl
  have hsub (y : ι) (k : Nat) (hy : Function.update tgt (nd x) none y = some k) :
      tgt y = some k := by
    by_cases hyx : y = nd x
    · rw [hyx, Function.update_self] at hy
      cases hy
    · rwa [Function.update_of_ne hyx] at hy
  refine ⟨fl', ⟨ha.setMem ?_, hcomp ▸ hm, ?_, h.inj⟩, ?_⟩
  · intro k hk
    refine hframe k fun y hyx hy => ?_
    have hy' : Function.update tgt (nd x) none (nd y) = some k := by
      rw [Function.update_of_ne fun he => hyx (h.inj he)]
      exact hy
    exact ha.bal.not_free hy' hk
  · intro y z k hy hz
    exact h.sole y z k (hsub _ _ hy) (hsub _ _ hz)
  · constructor
    · intro y hy
      exact Function.update_of_ne (hy x) _ _
    · exact hsub
    · intro k hk
      have hkn : k ≠ n := by
        rintro rfl
        exact hk x hx
      exact (hframe k fun y _ => hk y).trans (hfr.other k hkn)
    · intro k hk
      rcases hfr.sub k hk with hk | rfl
      · exact .inl hk
      · exact .inr ⟨x, hx⟩
    · intro k hk
      apply s.kfree_refcnt
      rintro rfl
      exact hk x hx
    · exact s.kfree_taken n
    · exact s.kfree_failed n

end Tab

/-- No entry looks like a link to a lower node. -/
def Leafy (lf : Nat → Nat) : Prop :=
  ∀ v, v < 2 ^ 27 → lf v &&& PTE_V ≠ 0 → lf v &&& (PTE_R ||| PTE_W ||| PTE_X) ≠ 0

theorem Leafy.cut (h : Leafy lf) (i j : Fin 512) : Leafy (cut lf i j) := by
  intro v hv hne
  rw [KernelHobby.cut] at hne ⊢
  split
  · rename_i hin
    rw [if_pos hin] at hne
    exact absurd (Nat.zero_and _) hne
  · rename_i hout
    rw [if_neg hout] at hne
    exact h v hv hne

/-- The page with given indices. -/
def ofIx (i j k : Fin 512) : Nat := i.val * 2 ^ 18 + j.val * 2 ^ 9 + k.val

theorem ofIx_spec (i j k : Fin 512) :
    ofIx i j k < 2 ^ 27 ∧ ix2 (ofIx i j k) = i ∧ ix1 (ofIx i j k) = j ∧ ix0 (ofIx i j k) = k := by
  have hi := i.isLt
  have hj := j.isLt
  have hk := k.isLt
  simp only [ofIx, ix2, ix1, ix0, Fin.ext_iff]
  omega

namespace Phys

/-- The round of `freewalk` for one entry. -/
def freeEntry (depth : Nat) (pt : Nat) (s : Phys) (i : Nat) : Phys :=
  let pte := (s.mem pt).word i
  if pte &&& PTE_V ≠ 0 ∧ pte &&& (PTE_R ||| PTE_W ||| PTE_X) = 0 then
    let s := freewalk depth s (pte2pa pte)
    s.setMem (s.mem.setWord pt i 0)
  else s

theorem freewalk_succ (depth : Nat) (s : Phys) (pt : Nat) :
    freewalk (depth + 1) s pt = ((List.range 512).foldl (freeEntry depth pt) s).kfree pt := rfl

theorem freePagetable_eq (s : Phys) (pt : Nat) :
    s.freePagetable pt = ((List.range 512).foldl (freeEntry 2 pt) s).kfree pt :=
  freewalk_succ 2 s pt

theorem freeEntry_link (hw : (s.mem pt).word i = link (some n)) :
    freeEntry depth pt s i =
      (freewalk depth s n).setMem ((freewalk depth s n).mem.setWord pt i 0) := by
  have hrwx : mkPte n PTE_V &&& (PTE_R ||| PTE_W ||| PTE_X) = 0 := by
    rw [mkPte_and n (by decide) (by decide)]
    decide
  have hlink : (s.mem pt).word i = mkPte n PTE_V := hw
  rw [freeEntry, hlink, if_pos ⟨link_some_and n, hrwx⟩, pte2pa_mkPte n (by decide)]

theorem freeEntry_none (hw : (s.mem pt).word i = link none) : freeEntry depth pt s i = s := by
  rw [freeEntry, hw]
  exact if_neg fun he => he.1 (Nat.zero_and _)

/-- A node whose entries link to no other is only given back. -/
theorem freewalk_leafy (h : ∀ i, i < 512 → (s.mem pt).word i &&& PTE_V ≠ 0 →
    (s.mem pt).word i &&& (PTE_R ||| PTE_W ||| PTE_X) ≠ 0) :
    freewalk (depth + 1) s pt = s.kfree pt := by
  have hloop : (List.range 512).foldl (freeEntry depth pt) s = s := by
    refine foldl_range (P := fun _ s' => s' = s) rfl ?_
    rintro i s' hi rfl
    exact if_neg fun he => h i hi he.1 he.2
  rw [freewalk_succ, hloop]

end Phys

namespace Tab

omit [DecidableEq ι] in
theorem freewalk_low (h : Tab kend s tgt lost fl nd lf) (hlf : Leafy lf)
    (hl : tgt (nd (.low i j)) = some l) : Phys.freewalk (depth + 1) s l = s.kfree l := by
  apply Phys.freewalk_leafy
  intro k hk
  obtain ⟨hlt, h₂, h₁, h₀⟩ := ofIx_spec i j ⟨k, hk⟩
  have hword := h.holds.low _ l hlt (by rw [h₂, h₁, hl])
  rw [h₀] at hword
  rw [hword]
  exact hlf _ hlt

/-- `freewalk` over the entries of a middle node gives back its lowest nodes, and goes no deeper. -/
theorem freeMid (h : Tab kend s tgt lost fl nd lf) (hlf : Leafy lf)
    (hp : tgt (nd (.mid i)) = some p) :
    let s' := (List.range 512).foldl (Phys.freeEntry 1 p) s
    ∃ tgt' fl' lf', Tab kend s' tgt' lost fl' nd lf' ∧ Pruned nd s tgt fl s' tgt' fl' ∧ Leafy lf' ∧
      (∀ j, tgt' (nd (.low i j)) = none) ∧
      (∀ x, (∀ j, x ≠ .low i j) → tgt' (nd x) = tgt (nd x)) ∧
      ∀ depth, (List.range 512).foldl (Phys.freeEntry (depth + 1) p) s = s' := by
  intro s'
  have hloop : ∃ tgt' fl' lf', Tab kend s' tgt' lost fl' nd lf' ∧ Pruned nd s tgt fl s' tgt' fl' ∧
      Leafy lf' ∧ (∀ j : Fin 512, j.val < 512 → tgt' (nd (.low i j)) = none) ∧
      (∀ x, (∀ j, x ≠ .low i j) → tgt' (nd x) = tgt (nd x)) ∧
      ∀ depth, (List.range 512).foldl (Phys.freeEntry (depth + 1) p) s = s' := by
    refine foldl_range (P := fun a s' => ∃ tgt' fl' lf', Tab kend s' tgt' lost fl' nd lf' ∧
      Pruned nd s tgt fl s' tgt' fl' ∧ Leafy lf' ∧
      (∀ j : Fin 512, j.val < a → tgt' (nd (.low i j)) = none) ∧
      (∀ x, (∀ j, x ≠ .low i j) → tgt' (nd x) = tgt (nd x)) ∧
      ∀ depth, (List.range a).foldl (Phys.freeEntry (depth + 1) p) s = s') ?_ ?_
    · exact ⟨tgt, fl, lf, h, .refl .., hlf, fun _ hj => absurd hj (Nat.not_lt_zero _),
        fun _ _ => rfl, fun _ => rfl⟩
    · rintro a s₁ ha ⟨t₁, f₁, l₁, h₁, pr₁, leafy₁, done, keep, deep⟩
      have hnext (depth : Nat) : (List.range (a + 1)).foldl (Phys.freeEntry (depth + 1) p) s =
          Phys.freeEntry (depth + 1) p s₁ a := by
        rw [List.range_succ, List.foldl_append, deep]
        rfl
      have hp₁ : t₁ (nd (.mid i)) = some p := (keep _ fun _ => Node.noConfusion).trans hp
      have hword := h₁.holds.mid i p hp₁ ⟨a, ha⟩
      cases hl : t₁ (nd (.low i ⟨a, ha⟩)) with
      | none =>
        rw [hl] at hword
        rw [Phys.freeEntry_none hword]
        refine ⟨t₁, f₁, l₁, h₁, pr₁, leafy₁, fun j hj => ?_, keep, fun depth => ?_⟩
        · by_cases hja : j.val = a
          · obtain rfl : j = ⟨a, ha⟩ := Fin.ext hja
            exact hl
          · exact done j (by omega)
        · exact (hnext depth).trans (Phys.freeEntry_none hword)
      | some l =>
        rw [hl] at hword
        rw [Phys.freeEntry_link hword, h₁.freewalk_low leafy₁ hl]
        obtain ⟨_, _, hfr⟩ := h₁.alloc.kfree hl
        obtain ⟨f₂, h₂, pr₂⟩ := h₁.drop hl (h₁.holds.cutLow h₁.distinct hp₁ hl hfr.other) (by
          intro k hk
          apply Mem.setWord_of_ne
          rintro rfl
          exact hk _ Node.noConfusion hp₁)
        refine ⟨_, f₂, _, h₂, pr₁.trans pr₂, leafy₁.cut _ _, fun j hj => ?_, fun x hx => ?_,
          fun depth => ?_⟩
        · by_cases hja : j.val = a
          · obtain rfl : j = ⟨a, ha⟩ := Fin.ext hja
            exact Function.update_self ..
          · have hne : nd (.low i j) ≠ nd (.low i ⟨a, ha⟩) := fun he =>
              hja (congrArg Fin.val (Node.low.inj (h.inj he)).2)
            rw [Function.update_of_ne hne]
            exact done j (by omega)
        · rw [Function.update_of_ne fun he => hx _ (h.inj he)]
          exact keep x hx
        · rw [hnext, Phys.freeEntry_link hword, h₁.freewalk_low leafy₁ hl]
  obtain ⟨t, f, l, ht, hpr, hle, hdone, hkeep, hdeep⟩ := hloop
  exact ⟨t, f, l, ht, hpr, hle, fun j => hdone j j.isLt, hkeep, hdeep⟩

/-- `freewalk` over the entries of the root gives back all other nodes. -/
theorem freeRoot (h : Tab kend s tgt lost fl nd lf) (hlf : Leafy lf)
    (hr : tgt (nd .root) = some r) :
    let s' := (List.range 512).foldl (Phys.freeEntry 2 r) s
    ∃ tgt' fl' lf', Tab kend s' tgt' lost fl' nd lf' ∧ Pruned nd s tgt fl s' tgt' fl' ∧
      (∀ i, tgt' (nd (.mid i)) = none) ∧ tgt' (nd .root) = some r ∧
      ∀ depth, (List.range 512).foldl (Phys.freeEntry (depth + 2) r) s = s' := by
  intro s'
  have hloop : ∃ tgt' fl' lf', Tab kend s' tgt' lost fl' nd lf' ∧ Pruned nd s tgt fl s' tgt' fl' ∧
      Leafy lf' ∧ (∀ i : Fin 512, i.val < 512 → tgt' (nd (.mid i)) = none) ∧
      tgt' (nd .root) = some r ∧
      ∀ depth, (List.range 512).foldl (Phys.freeEntry (depth + 2) r) s = s' := by
    refine foldl_range (P := fun a s' => ∃ tgt' fl' lf', Tab kend s' tgt' lost fl' nd lf' ∧
      Pruned nd s tgt fl s' tgt' fl' ∧ Leafy lf' ∧
      (∀ i : Fin 512, i.val < a → tgt' (nd (.mid i)) = none) ∧ tgt' (nd .root) = some r ∧
      ∀ depth, (List.range a).foldl (Phys.freeEntry (depth + 2) r) s = s') ?_ ?_
    · exact ⟨tgt, fl, lf, h, .refl .., hlf, fun _ hj => absurd hj (Nat.not_lt_zero _), hr,
        fun _ => rfl⟩
    · rintro a s₁ ha ⟨t₁, f₁, l₁, h₁, pr₁, leafy₁, done, hr₁, deep⟩
      have hnext (depth : Nat) : (List.range (a + 1)).foldl (Phys.freeEntry (depth + 2) r) s =
          Phys.freeEntry (depth + 2) r s₁ a := by
        rw [List.range_succ, List.foldl_append, deep]
        rfl
      have hword := h₁.holds.root r hr₁ ⟨a, ha⟩
      cases hp : t₁ (nd (.mid ⟨a, ha⟩)) with
      | none =>
        rw [hp] at hword
        rw [Phys.freeEntry_none hword]
        refine ⟨t₁, f₁, l₁, h₁, pr₁, leafy₁, fun i hi => ?_, hr₁, fun depth => ?_⟩
        · by_cases hia : i.val = a
          · obtain rfl : i = ⟨a, ha⟩ := Fin.ext hia
            exact hp
          · exact done i (by omega)
        · exact (hnext depth).trans (Phys.freeEntry_none hword)
      | some p =>
        rw [hp] at hword
        rw [Phys.freeEntry_link hword, Phys.freewalk_succ]
        obtain ⟨t₂, f₂, l₂, h₂, pr₂, leafy₂, hlow, keep, hmid⟩ := h₁.freeMid leafy₁ hp
        have hp₂ : t₂ (nd (.mid ⟨a, ha⟩)) = some p := (keep _ fun _ => Node.noConfusion).trans hp
        have hr₂ : t₂ (nd .root) = some r := (keep _ fun _ => Node.noConfusion).trans hr₁
        obtain ⟨_, _, hfr⟩ := h₂.alloc.kfree hp₂
        obtain ⟨f₃, h₃, pr₃⟩ := h₂.drop hp₂
          (h₂.holds.cutMid h₂.distinct hr₂ hp₂ hlow hfr.other) (by
            intro k hk
            apply Mem.setWord_of_ne
            rintro rfl
            exact hk _ Node.noConfusion hr₂)
        refine ⟨_, f₃, _, h₃, (pr₁.trans pr₂).trans pr₃, leafy₂, fun i hi => ?_, ?_,
          fun depth => ?_⟩
        · by_cases hia : i.val = a
          · obtain rfl : i = ⟨a, ha⟩ := Fin.ext hia
            exact Function.update_self ..
          · have hne : nd (.mid i) ≠ nd (.mid ⟨a, ha⟩) := fun he =>
              hia (congrArg Fin.val (Node.mid.inj (h.inj he)))
            rw [Function.update_of_ne hne, keep _ fun _ => Node.noConfusion]
            exact done i (by omega)
        · rw [Function.update_of_ne fun he => Node.noConfusion (h.inj he)]
          exact hr₂
        · rw [hnext, Phys.freeEntry_link hword, Phys.freewalk_succ, hmid]
  obtain ⟨t, f, l, ht, hpr, _, hdone, hroot, hdeep⟩ := hloop
  exact ⟨t, f, l, ht, hpr, fun i => hdone i i.isLt, hroot, hdeep⟩

/-- The root is given back when it is the only node left. -/
theorem dropRoot (h : Tab kend s tgt lost fl nd lf) (hr : tgt (nd .root) = some r)
    (hmid : ∀ i, tgt (nd (.mid i)) = none) :
    ∃ tgt' fl', Alloc kend (s.kfree r) tgt' lost fl' ∧ Pruned nd s tgt fl (s.kfree r) tgt' fl' ∧
      ∀ x, tgt' (nd x) = none := by
  have hnone (x : Node) : Function.update (fun y => tgt (nd y)) .root none x = none := by
    cases x with
    | root => exact Function.update_self ..
    | mid i => exact (Function.update_of_ne Node.noConfusion _ _).trans (hmid i)
    | low i j =>
      exact (Function.update_of_ne Node.noConfusion _ _).trans (h.holds.up i j (hmid i))
  obtain ⟨f', h', pr'⟩ := h.drop (m := (s.kfree r).mem) hr (.empty hnone _) fun _ _ => rfl
  refine ⟨_, f', h'.alloc, pr', fun x => ?_⟩
  have hx := hnone x
  by_cases hxr : x = .root
  · rw [hxr]
    exact Function.update_self ..
  · rw [Function.update_of_ne hxr] at hx
    rw [Function.update_of_ne fun he => hxr (h.inj he)]
    exact hx

/-- `free_pagetable` gives back every node. -/
theorem freePagetable (h : Tab kend s tgt lost fl nd lf) (hlf : Leafy lf)
    (hr : tgt (nd .root) = some r) :
    ∃ tgt' fl', Alloc kend (s.freePagetable r) tgt' lost fl' ∧
      Pruned nd s tgt fl (s.freePagetable r) tgt' fl' ∧ ∀ x, tgt' (nd x) = none := by
  obtain ⟨t, f, l, ht, hpr, hmid, hroot, _⟩ := h.freeRoot hlf hr
  obtain ⟨t', f', ha, hpr', hnone⟩ := ht.dropRoot hroot hmid
  rw [s.freePagetable_eq r]
  exact ⟨t', f', ha, hpr.trans hpr', hnone⟩

/-- The recursion of `freewalk` ends by itself: more levels change nothing. -/
theorem freewalk_ends (h : Tab kend s tgt lost fl nd lf) (hlf : Leafy lf)
    (hr : tgt (nd .root) = some r) (depth : Nat) :
    Phys.freewalk (depth + 3) s r = s.freePagetable r := by
  obtain ⟨_, _, _, _, _, _, _, hdeep⟩ := h.freeRoot hlf hr
  rw [s.freePagetable_eq r, Phys.freewalk_succ, hdeep]

end Tab

end KernelHobby
