import KernelHobby.PageTable

namespace KernelHobby
set_option autoImplicit true

variable {ι : Type} [Fintype ι] [DecidableEq ι] {kend : Nat} {s : Phys} {tgt : ι → Option Nat}
  {lost : Nat → Nat} {fl : List Nat} {nd : Node → ι} {lf : Nat → Nat}

/-- A page table among the references to pages: node `x` is the page that `nd x` refers to, and no
other reference is to it. -/
structure Tab (kend : Nat) (s : Phys) (tgt : ι → Option Nat) (lost : Nat → Nat) (fl : List Nat)
    (nd : Node → ι) (lf : Nat → Nat) : Prop where
  alloc : Alloc kend s tgt lost fl
  holds : Holds s.mem (fun x => tgt (nd x)) lf
  sole : ∀ x y n, tgt (nd x) = some n → tgt y = some n → y = nd x
  inj : Function.Injective nd

/-- The nodes on the way to page `v` are the only ones that can be new. -/
def OnPath (nd : Node → ι) (v : Nat) (tgt tgt' : ι → Option Nat) : Prop :=
  ∀ x, x ≠ .mid (ix2 v) → x ≠ .low (ix2 v) (ix1 v) → tgt' (nd x) = tgt (nd x)

/-- The table gets more nodes, from the free list, and nothing else changes. -/
structure Grown (nd : Node → ι) (s : Phys) (tgt : ι → Option Nat) (fl : List Nat) (s' : Phys)
    (tgt' : ι → Option Nat) (fl' : List Nat) : Prop where
  off : ∀ y, (∀ x, y ≠ nd x) → tgt' y = tgt y
  keep : ∀ y n, tgt y = some n → tgt' y = some n
  new : ∀ y n, tgt' y = some n → tgt y = some n ∨ n ∈ fl
  mem : ∀ n, n ∉ fl → (∀ x, tgt (nd x) ≠ some n) → s'.mem n = s.mem n
  free : ∃ us, fl = us ++ fl'
  taken : s'.taken = s.taken
  failed : s.failed = true → s'.failed = true

namespace Grown
variable {s' s'' : Phys} {tgt' tgt'' : ι → Option Nat} {fl' fl'' : List Nat}

omit [Fintype ι] [DecidableEq ι] in
theorem refl (nd : Node → ι) (s : Phys) (tgt : ι → Option Nat) (fl : List Nat) :
    Grown nd s tgt fl s tgt fl :=
  ⟨fun _ _ => rfl, fun _ _ h => h, fun _ _ h => .inl h, fun _ _ _ => rfl, ⟨[], rfl⟩, rfl, id⟩

omit [Fintype ι] [DecidableEq ι] in
theorem sub (h : Grown nd s tgt fl s' tgt' fl') (hn : n ∈ fl') : n ∈ fl := by
  obtain ⟨us, hf⟩ := h.free
  rw [hf]
  exact List.mem_append_right us hn

omit [Fintype ι] [DecidableEq ι] in
theorem trans (h : Grown nd s tgt fl s' tgt' fl') (h' : Grown nd s' tgt' fl' s'' tgt'' fl'') :
    Grown nd s tgt fl s'' tgt'' fl'' where
  off y hy := (h'.off y hy).trans (h.off y hy)
  keep y n hn := h'.keep y n (h.keep y n hn)
  new y n hn := by
    rcases h'.new y n hn with hy | hf
    · exact h.new y n hy
    · exact .inr (h.sub hf)
  mem n hn hx := by
    rw [h'.mem n (fun hf => hn (h.sub hf)), h.mem n hn hx]
    intro x hx'
    rcases h.new _ n hx' with ho | hf
    · exact hx x ho
    · exact hn hf
  free := by
    obtain ⟨us, hf⟩ := h.free
    obtain ⟨us', hf'⟩ := h'.free
    exact ⟨us ++ us', by rw [hf, hf', List.append_assoc]⟩
  taken := h'.taken.trans h.taken
  failed hf := h'.failed (h.failed hf)

end Grown

namespace Tab

omit [DecidableEq ι] in
theorem distinct (h : Tab kend s tgt lost fl nd lf) : Distinct fun x => tgt (nd x) := by
  intro x y n hx hy
  exact h.inj (h.sole y (nd x) n hy hx)

/-- A page from the free list becomes node `x`. -/
theorem grow (h : Tab kend s tgt lost fl nd lf) (hx : tgt (nd x) = none) (hn : s.kalloc.1 ≠ 0)
    {m : Mem} (hm : Holds m (Function.update (fun y => tgt (nd y)) x (some s.kalloc.1)) lf)
    (hframe : ∀ k, k ≠ s.kalloc.1 → (∀ y, tgt (nd y) ≠ some k) → m k = s.mem k) :
    ∃ fl', Tab kend (s.kalloc.2.setMem m) (Function.update tgt (nd x) (some s.kalloc.1)) lost fl'
        nd lf ∧
      Grown nd s tgt fl (s.kalloc.2.setMem m) (Function.update tgt (nd x) (some s.kalloc.1))
        fl' := by
  obtain ⟨fl', hfl, hmem, ha⟩ := h.alloc.kalloc hx hn
  have hfree := h.alloc.kalloc_free hn
  have hnone := h.alloc.kalloc_fresh hn
  have hnot : s.kalloc.1 ∉ fl' := by
    have hd := h.alloc.bal.nodup
    rw [hfl] at hd
    exact (List.nodup_cons.1 hd).1
  have hcomp : (fun y => Function.update tgt (nd x) (some s.kalloc.1) (nd y)) =
      Function.update (fun y => tgt (nd y)) x (some s.kalloc.1) :=
    funext fun y => Function.update_comp_eq_of_injective' _ h.inj _ _ ▸ rfl
  have hsub {k : Nat} (hk : k ∈ fl') : k ∈ fl := by
    rw [hfl]
    exact List.mem_cons_of_mem _ hk
  refine ⟨fl', ⟨ha.setMem ?_, ?_, ?_, h.inj⟩, ?_⟩
  · intro k hk
    rw [hmem]
    refine hframe k (fun he => hnot (he ▸ hk)) fun y hy => ?_
    exact h.alloc.bal.not_free hy (hsub hk)
  · rw [hcomp]
    exact hm
  · intro y z k hy hz
    by_cases hkn : k = s.kalloc.1
    · subst hkn
      by_cases hyx : nd y = nd x
      · by_cases hzx : z = nd x
        · rw [hyx, hzx]
        · rw [Function.update_of_ne hzx] at hz
          exact absurd hz (hnone z)
      · rw [Function.update_of_ne hyx] at hy
        exact absurd hy (hnone _)
    · by_cases hyx : nd y = nd x
      · rw [hyx, Function.update_self] at hy
        exact absurd (Option.some.inj hy).symm hkn
      · by_cases hzx : z = nd x
        · rw [hzx, Function.update_self] at hz
          exact absurd (Option.some.inj hz).symm hkn
        · rw [Function.update_of_ne hyx] at hy
          rw [Function.update_of_ne hzx] at hz
          exact h.sole y z k hy hz
  · constructor
    · intro y hy
      exact Function.update_of_ne (hy x) _ _
    · intro y k hy
      have hyx : y ≠ nd x := by
        rintro rfl
        rw [hx] at hy
        cases hy
      rw [Function.update_of_ne hyx]
      exact hy
    · intro y k hy
      by_cases hyx : y = nd x
      · subst hyx
        rw [Function.update_self] at hy
        cases hy
        exact .inr hfree
      · rw [Function.update_of_ne hyx] at hy
        exact .inl hy
    · intro k hk hy
      exact hframe k (fun he => hk (he ▸ hfree)) hy
    · exact ⟨[s.kalloc.1], hfl⟩
    · rw [Phys.kalloc]
      split <;> rfl
    · intro hf
      rw [Phys.kalloc]
      split
      · exact hf
      · rfl

end Tab

namespace Phys

theorem kalloc_mem (s : Phys) : s.kalloc.2.mem = s.mem := by
  rw [kalloc]
  split <;> rfl

theorem walkLevels_alloc (ht : (s.mem pt).word (px (level + 1) va) = link none) :
    walkLevels true va (level + 1) s pt =
      if s.kalloc.1 = 0 then (none, s.kalloc.2)
      else walkLevels true va level (s.kalloc.2.setMem ((s.mem.setPage s.kalloc.1 Page.zero).setWord
        pt (px (level + 1) va) (link (some s.kalloc.1)))) s.kalloc.1 := by
  have hp : pa2pte s.kalloc.1 ||| PTE_V = link (some s.kalloc.1) := pa2pte_or _ (by decide)
  rw [walkLevels, ht]
  simp only [link, Nat.zero_and, ne_eq, not_true_eq_false, if_false, Bool.not_true,
    Bool.false_eq_true, kalloc_mem, hp]

end Phys

namespace Tab

omit [DecidableEq ι] in
/-- A `kalloc` without a page changes nothing. -/
theorem noPage (h : Tab kend s tgt lost fl nd lf) (hz : s.kalloc.1 = 0) :
    Tab kend s.kalloc.2 tgt lost fl nd lf ∧ Grown nd s tgt fl s.kalloc.2 tgt fl ∧
      s.kalloc.2.failed = true ∧ fl = [] := by
  have hfl : fl = [] := by
    by_contra hne
    exact h.alloc.kalloc_ne_zero hne hz
  rw [Phys.kalloc_zero hz]
  refine ⟨⟨⟨h.alloc.kernel, h.alloc.bal, h.alloc.chain, h.alloc.cnt⟩, h.holds, h.sole, h.inj⟩, ?_,
    rfl, hfl⟩
  exact ⟨fun _ _ => rfl, fun _ _ h => h, fun _ _ h => .inl h, fun _ _ _ => rfl, ⟨[], rfl⟩, rfl,
    fun _ => rfl⟩

/-- The lowest level of `walk`, from a middle node on. -/
theorem walk_mid (h : Tab kend s tgt lost fl nd lf) (hp : tgt (nd (.mid (ix2 (vpn va)))) = some p) :
    ∃ tgt' fl', Tab kend (Phys.walkLevels true va 1 s p).2 tgt' lost fl' nd lf ∧
      Grown nd s tgt fl (Phys.walkLevels true va 1 s p).2 tgt' fl' ∧
      OnPath nd (vpn va) tgt tgt' ∧
      ((Phys.walkLevels true va 1 s p).1 = none ∧
          (Phys.walkLevels true va 1 s p).2.failed = true ∧ fl' = [] ∧
          tgt' (nd (.low (ix2 (vpn va)) (ix1 (vpn va)))) = none ∨
        ∃ n, (Phys.walkLevels true va 1 s p).1 = some n ∧
          tgt' (nd (.low (ix2 (vpn va)) (ix1 (vpn va)))) = some n ∧
          (Phys.walkLevels true va 1 s p).2.failed = s.failed) := by
  have hw := h.holds.mid _ p hp (ix1 (vpn va))
  rw [← px_one] at hw
  cases hl : tgt (nd (.low (ix2 (vpn va)) (ix1 (vpn va)))) with
  | some n =>
    rw [hl] at hw
    rw [Phys.walkLevels_found hw]
    exact ⟨tgt, fl, h, .refl .., fun _ _ _ => rfl, .inr ⟨n, rfl, hl, rfl⟩⟩
  | none =>
    rw [hl] at hw
    rw [Phys.walkLevels_alloc hw]
    by_cases hz : s.kalloc.1 = 0
    · rw [if_pos hz]
      obtain ⟨ht, hg, hf, hnil⟩ := h.noPage hz
      exact ⟨tgt, fl, ht, hg, fun _ _ _ => rfl, .inl ⟨rfl, hf, hnil, hl⟩⟩
    · rw [if_neg hz, Phys.walkLevels]
      have hnone (x : Node) := h.alloc.kalloc_fresh hz (nd x)
      have hm := h.holds.addLow h.distinct hp hl hnone (h.alloc.kalloc_lt hz)
      rw [← px_one] at hm
      obtain ⟨fl', ht, hg⟩ := h.grow hl hz hm (by
        intro k hk hy
        rw [Mem.setWord_of_ne _ (fun he => hy _ (he ▸ hp)), Mem.setPage_of_ne _ _ hk])
      refine ⟨_, fl', ht, hg, fun x _ hx => ?_,
        .inr ⟨_, rfl, Function.update_self .., s.kalloc_failed hz⟩⟩
      exact Function.update_of_ne (fun he => hx (h.inj he)) _ _

/-- `walk` with allocation: it comes to the lowest node, or there was no page for a node. -/
theorem walk (h : Tab kend s tgt lost fl nd lf) (hr : tgt (nd .root) = some r) (va : Nat) :
    ∃ tgt' fl', Tab kend (s.walk r va true).2 tgt' lost fl' nd lf ∧
      Grown nd s tgt fl (s.walk r va true).2 tgt' fl' ∧ OnPath nd (vpn va) tgt tgt' ∧
      ((s.walk r va true).1 = none ∧ (s.walk r va true).2.failed = true ∧ fl' = [] ∧
          tgt' (nd (.low (ix2 (vpn va)) (ix1 (vpn va)))) = none ∨
        ∃ n, (s.walk r va true).1 = some (n, (ix0 (vpn va) : Nat)) ∧
          tgt' (nd (.low (ix2 (vpn va)) (ix1 (vpn va)))) = some n ∧
          (s.walk r va true).2.failed = s.failed) := by
  suffices hl : ∃ tgt' fl', Tab kend (Phys.walkLevels true va 2 s r).2 tgt' lost fl' nd lf ∧
      Grown nd s tgt fl (Phys.walkLevels true va 2 s r).2 tgt' fl' ∧
      OnPath nd (vpn va) tgt tgt' ∧
      ((Phys.walkLevels true va 2 s r).1 = none ∧
          (Phys.walkLevels true va 2 s r).2.failed = true ∧ fl' = [] ∧
          tgt' (nd (.low (ix2 (vpn va)) (ix1 (vpn va)))) = none ∨
        ∃ n, (Phys.walkLevels true va 2 s r).1 = some n ∧
          tgt' (nd (.low (ix2 (vpn va)) (ix1 (vpn va)))) = some n ∧
          (Phys.walkLevels true va 2 s r).2.failed = s.failed) by
    obtain ⟨tgt', fl', ht, hg, hpath, hres⟩ := hl
    refine ⟨tgt', fl', ?_⟩
    rw [Phys.walk]
    generalize Phys.walkLevels true va 2 s r = w at ht hg hres
    obtain ⟨o, s'⟩ := w
    rcases hres with ⟨ho, hf⟩ | ⟨n, ho, hn⟩
    · cases ho
      exact ⟨ht, hg, hpath, .inl ⟨rfl, hf⟩⟩
    · cases ho
      exact ⟨ht, hg, hpath, .inr ⟨n, by rw [px_zero], hn⟩⟩
  have hw := h.holds.root r hr (ix2 (vpn va))
  rw [← px_two] at hw
  cases hm : tgt (nd (.mid (ix2 (vpn va)))) with
  | some p =>
    rw [hm] at hw
    rw [Phys.walkLevels_found hw]
    exact h.walk_mid hm
  | none =>
    rw [hm] at hw
    rw [Phys.walkLevels_alloc hw]
    by_cases hz : s.kalloc.1 = 0
    · rw [if_pos hz]
      obtain ⟨ht, hg, hf, hnil⟩ := h.noPage hz
      exact ⟨tgt, fl, ht, hg, fun _ _ _ => rfl, .inl ⟨rfl, hf, hnil, h.holds.up _ _ hm⟩⟩
    · rw [if_neg hz]
      have hnone (x : Node) := h.alloc.kalloc_fresh hz (nd x)
      have hmid := h.holds.addMid h.distinct hr hm hnone (h.alloc.kalloc_lt hz)
      rw [← px_two] at hmid
      obtain ⟨fl', ht, hg⟩ := h.grow hm hz hmid (by
        intro k hk hy
        rw [Mem.setWord_of_ne _ (fun he => hy _ (he ▸ hr)), Mem.setPage_of_ne _ _ hk])
      obtain ⟨tgt'', fl'', ht', hg', hpath, hres⟩ := ht.walk_mid (Function.update_self ..)
      refine ⟨tgt'', fl'', ht', hg.trans hg', fun x hx hx' => ?_, hres.imp id ?_⟩
      · rw [hpath x hx hx', Function.update_of_ne fun he => hx (h.inj he)]
      · rintro ⟨n, hn, hlow, hf⟩
        exact ⟨n, hn, hlow, hf.trans (s.kalloc_failed hz)⟩

omit [DecidableEq ι] in
/-- A lowest entry of the table is written. -/
theorem setLeaf (h : Tab kend s tgt lost fl nd lf) (hv : v < 2 ^ 27)
    (hp : tgt (nd (.low (ix2 v) (ix1 v))) = some p) (hw : w < 2 ^ 64) :
    Tab kend (s.setMem (s.mem.setWord p (ix0 v) w)) tgt lost fl nd (Function.update lf v w) := by
  refine ⟨h.alloc.setMem fun k hk => ?_, h.holds.setLeaf h.distinct hv hp hw, h.sole, h.inj⟩
  apply s.mem.setWord_of_ne
  rintro rfl
  exact h.alloc.bal.not_free hp hk

end Tab

omit [Fintype ι] [DecidableEq ι] in
theorem Grown.setLeaf (hp : tgt (nd x) = some p) :
    Grown nd s tgt fl (s.setMem (s.mem.setWord p i w)) tgt fl := by
  refine ⟨fun _ _ => rfl, fun _ _ h => h, fun _ _ h => .inl h, fun k _ hk => ?_, ⟨[], rfl⟩, rfl, id⟩
  apply s.mem.setWord_of_ne
  rintro rfl
  exact hk x hp

namespace Phys

theorem mapLoop_succ (pt perm k : Nat) (s : Phys) (a pa : Nat) :
    mapLoop pt perm (k + 1) s a pa =
      if (mapLoop pt perm 0 s a pa).1 then
        mapLoop pt perm k (mapLoop pt perm 0 s a pa).2 (a + PGSIZE) ((pa + 1) % 2 ^ 52)
      else (false, (mapLoop pt perm 0 s a pa).2) := by
  rw [mapLoop, mapLoop]
  split
  · rfl
  · split
    · rfl
    · rfl

end Phys

/-- The entries after `k + 1` pages from page `v` on were mapped to the pages from `pa` on. -/
def mapped (lf : Nat → Nat) (v k pa perm : Nat) : Nat → Nat := fun u =>
  if v ≤ u ∧ u ≤ v + k then mkPte (pa + (u - v)) (perm ||| PTE_V) else lf u

namespace Tab

/-- Mapping one page: its entry is written when it was empty and there were pages for the nodes. -/
theorem mapOne (h : Tab kend s tgt lost fl nd lf) (hr : tgt (nd .root) = some r)
    (hpa : pa < PHYSTOP) (hperm : perm ||| PTE_V < 1024) (a : Nat) :
    ∃ tgt' fl', Grown nd s tgt fl (Phys.mapLoop r perm 0 s a pa).2 tgt' fl' ∧
      OnPath nd (vpn a) tgt tgt' ∧
      ((Phys.mapLoop r perm 0 s a pa).1 = true ∧
          (lf (vpn a) &&& PTE_V = 0 ∧ (Phys.mapLoop r perm 0 s a pa).2.failed = s.failed) ∧
          Tab kend (Phys.mapLoop r perm 0 s a pa).2 tgt' lost fl' nd
            (Function.update lf (vpn a) (mkPte pa (perm ||| PTE_V))) ∨
        (Phys.mapLoop r perm 0 s a pa).1 = false ∧
          ((Phys.mapLoop r perm 0 s a pa).2.failed = true ∧ fl' = [] ∧
            tgt' (nd (.low (ix2 (vpn a)) (ix1 (vpn a)))) = none ∨ lf (vpn a) &&& PTE_V ≠ 0) ∧
          Tab kend (Phys.mapLoop r perm 0 s a pa).2 tgt' lost fl' nd lf) := by
  obtain ⟨tgt', fl', ht, hg, hpath, hres⟩ := h.walk hr a
  rw [Phys.mapLoop]
  generalize s.walk r a true = w at ht hg hres
  obtain ⟨o, s'⟩ := w
  rcases hres with ⟨ho, hf⟩ | ⟨n, ho, hn, hfd⟩
  · cases ho
    exact ⟨tgt', fl', hg, hpath, .inr ⟨rfl, .inl hf, ht⟩⟩
  · cases ho
    have hleaf := ht.holds.low (vpn a) n (vpn_lt a) hn
    have hpte : pa2pte pa ||| perm ||| PTE_V = mkPte pa (perm ||| PTE_V) := by
      rw [Nat.or_assoc, pa2pte_or pa hperm]
    dsimp only at ht hg hleaf ⊢
    rw [hleaf, hpte]
    by_cases hv : lf (vpn a) &&& PTE_V = 0
    · rw [if_neg (not_not.2 hv)]
      refine ⟨tgt', fl', hg.trans (.setLeaf hn), hpath, .inl ⟨rfl, ⟨hv, hfd⟩, ?_⟩⟩
      exact ht.setLeaf (vpn_lt a) hn (mkPte_lt hpa hperm)
    · rw [if_pos hv]
      exact ⟨tgt', fl', hg, hpath, .inr ⟨rfl, .inr hv, ht⟩⟩

/-- Mapping a range of pages, with new nodes in `N`. It ends early without a page for a node, or
where something is mapped. -/
theorem mapRange (h : Tab kend s tgt lost fl nd lf) (hr : tgt (nd .root) = some r)
    (hv : v + k < 2 ^ 27) (hpa : pa + k < PHYSTOP) (hperm : perm ||| PTE_V < 1024) :
    let w := Phys.mapLoop r perm k s (v * PGSIZE) pa
    ∃ tgt' fl' lf', Grown nd s tgt fl w.2 tgt' fl' ∧ Tab kend w.2 tgt' lost fl' nd lf' ∧
      (∀ x, (∀ u, v ≤ u → u ≤ v + k → x ≠ .mid (ix2 u) ∧ x ≠ .low (ix2 u) (ix1 u)) →
        tgt' (nd x) = tgt (nd x)) ∧
      (w.1 = true ∧ lf' = mapped lf v k pa perm ∧ w.2.failed = s.failed ∨
        w.1 = false ∧ ∃ u, v ≤ u ∧ u ≤ v + k ∧
          (fl' = [] ∧ tgt' (nd (.low (ix2 u) (ix1 u))) = none ∨ lf u &&& PTE_V ≠ 0)) := by
  have hvpn : vpn (v * PGSIZE) = v := by
    rw [vpn, Nat.mul_div_cancel _ (by decide), Nat.mod_eq_of_lt (by omega)]
  have hpa₀ : pa < PHYSTOP := by omega
  induction k generalizing s tgt fl lf v pa with
  | zero =>
    obtain ⟨tgt', fl', hg, hpath, hres⟩ := h.mapOne hr hpa₀ hperm (v * PGSIZE)
    rw [hvpn] at hpath hres
    have hout (x : Node) (hx : ∀ u, v ≤ u → u ≤ v + 0 →
        x ≠ .mid (ix2 u) ∧ x ≠ .low (ix2 u) (ix1 u)) : tgt' (nd x) = tgt (nd x) := by
      obtain ⟨hmid, hlow⟩ := hx v (Nat.le_refl v) (Nat.le_refl v)
      exact hpath x hmid hlow
    rcases hres with ⟨hok, ⟨_, hfd⟩, ht⟩ | ⟨hno, hwhy, ht⟩
    · refine ⟨tgt', fl', _, hg, ht, hout, .inl ⟨hok, ?_, hfd⟩⟩
      funext u
      by_cases hu : u = v
      · subst hu
        rw [mapped, if_pos ⟨Nat.le_refl u, Nat.le_refl u⟩, Function.update_self, Nat.sub_self]
        rfl
      · rw [mapped, if_neg (by omega), Function.update_of_ne hu]
    · exact ⟨tgt', fl', lf, hg, ht, hout, .inr ⟨hno, v, Nat.le_refl v, Nat.le_refl v,
        hwhy.imp And.right id⟩⟩
  | succ k ih =>
    obtain ⟨tgt', fl', hg, hpath, hres⟩ := h.mapOne hr hpa₀ hperm (v * PGSIZE)
    rw [hvpn] at hpath hres
    have hout (x : Node) (hx : ∀ u, v ≤ u → u ≤ v + (k + 1) →
        x ≠ .mid (ix2 u) ∧ x ≠ .low (ix2 u) (ix1 u)) : tgt' (nd x) = tgt (nd x) := by
      obtain ⟨hmid, hlow⟩ := hx v (Nat.le_refl v) (Nat.le_add_right _ _)
      exact hpath x hmid hlow
    dsimp only
    rw [Phys.mapLoop_succ]
    rcases hres with ⟨hok, ⟨_, hfd⟩, ht⟩ | ⟨hno, hwhy, ht⟩
    · have hnext : v * PGSIZE + PGSIZE = (v + 1) * PGSIZE := (Nat.succ_mul v PGSIZE).symm
      have hpa' : pa + 1 + k < PHYSTOP := by omega
      have hwrap : (pa + 1) % 2 ^ 52 = pa + 1 := by
        rw [PHYSTOP] at hpa'
        omega
      rw [if_pos hok, hnext, hwrap]
      obtain ⟨tgt'', fl'', lf'', hg', ht', hout', hres'⟩ := ih (v := v + 1) ht (hg.keep _ _ hr)
        (by omega) hpa' (by
        rw [vpn, Nat.mul_div_cancel _ (by decide), Nat.mod_eq_of_lt (by omega)]) (by omega)
      refine ⟨tgt'', fl'', lf'', hg.trans hg', ht', fun x hx => ?_, ?_⟩
      · have hx' := hout' x fun u hlo hhi => hx u (by omega) (by omega)
        exact hx'.trans (hout x hx)
      rcases hres' with ⟨hok', hlf, hfd'⟩ | ⟨hno', u, hlo, hhi, hwhy⟩
      · refine .inl ⟨hok', hlf.trans ?_, hfd'.trans hfd⟩
        funext u
        by_cases hu : u = v
        · subst hu
          rw [mapped, mapped, if_neg (by omega), if_pos (by omega), Function.update_self,
            Nat.sub_self]
          rfl
        · rw [mapped, mapped, Function.update_of_ne hu]
          by_cases hin : v ≤ u ∧ u ≤ v + (k + 1)
          · have he : pa + 1 + (u - (v + 1)) = pa + (u - v) := by omega
            rw [if_pos (by omega), if_pos hin, he]
          · rw [if_neg (by omega), if_neg hin]
      · refine .inr ⟨hno', u, by omega, by omega, hwhy.imp id fun hu => ?_⟩
        rwa [Function.update_of_ne (by omega)] at hu
    · rw [hno, if_neg Bool.false_ne_true]
      exact ⟨tgt', fl', lf, hg, ht, hout, .inr ⟨rfl, v, Nat.le_refl v, by omega,
        hwhy.imp And.right id⟩⟩

end Tab

namespace Holds

/-- A zeroed page is the root of an empty table. -/
theorem addRoot {T : Node → Option Nat} (hT : ∀ x, T x = none) (m : Mem) (n : Nat) :
    Holds (m.setPage n Page.zero) (Function.update T .root (some n)) fun _ => 0 := by
  have hoff {x : Node} (hx : x ≠ .root) : Function.update T .root (some n) x = none := by
    rw [Function.update_of_ne hx, hT]
  constructor
  · intro r hr i
    rw [Function.update_self] at hr
    cases hr
    rw [m.setPage_self, Page.word_zero, hoff Node.noConfusion]
    rfl
  · intro i p hp
    rw [hoff Node.noConfusion] at hp
    cases hp
  · intro v p _ hp
    rw [hoff Node.noConfusion] at hp
    cases hp
  · intro hr
    rw [Function.update_self] at hr
    cases hr
  · intro i j _
    exact hoff Node.noConfusion
  · intro v _ _
    rfl

theorem empty {T : Node → Option Nat} (hT : ∀ x, T x = none) (m : Mem) : Holds m T fun _ => 0 := by
  constructor
  · intro r hr
    rw [hT] at hr
    cases hr
  · intro i p hp
    rw [hT] at hp
    cases hp
  · intro v p _ hp
    rw [hT] at hp
    cases hp
  · intro _ i
    exact hT _
  · intro i j _
    exact hT _
  · intro v _ _
    rfl

end Holds

/-- The entries of the kernel's mappings. -/
def kernPte (L : Layout) (u : Nat) : Nat :=
  if 0xC000 ≤ u ∧ u < 0xC400 ∨ 0x10000 ≤ u ∧ u < 0x10009 then mkPte u 7
  else if 0x80200 ≤ u ∧ u < L.etext then mkPte u 11
  else if L.etext ≤ u ∧ u < PHYSTOP then mkPte u 7
  else 0

theorem mapped_kernel (L : Layout) : mapped (mapped (mapped (mapped (mapped (fun _ => 0)
      0x10000 0 0x10000 (PTE_R ||| PTE_W)) 0x10001 7 0x10001 (PTE_R ||| PTE_W))
      0xC000 0x3ff 0xC000 (PTE_R ||| PTE_W)) 0x80200 (L.etext - 0x80200 - 1) 0x80200
      (PTE_R ||| PTE_X)) L.etext (PHYSTOP - L.etext - 1) L.etext (PTE_R ||| PTE_W) = kernPte L := by
  have ht := L.text
  have hd := L.data
  have hr := L.ram
  have hp : PHYSTOP = 0x88000 := rfl
  have h7 : PTE_R ||| PTE_W ||| PTE_V = 7 := rfl
  have h11 : PTE_R ||| PTE_X ||| PTE_V = 11 := rfl
  funext u
  simp only [mapped, h7, h11, kernPte, mkPte]
  repeat' split
  all_goals omega

theorem mappages_pages (s : Phys) (pt v k pa perm : Nat) :
    s.mappages pt (v * PGSIZE) ((k + 1) * PGSIZE) pa perm =
      Phys.mapLoop pt perm k s (v * PGSIZE) pa := by
  have hlast : (v * PGSIZE + (k + 1) * PGSIZE - 1) / PGSIZE = v + k := by
    simp only [PGSIZE]
    omega
  have hk : ((v + k) * PGSIZE - v * PGSIZE) / PGSIZE = k := by
    rw [← Nat.sub_mul, Nat.mul_div_cancel _ (by decide), Nat.add_sub_cancel_left]
  rw [Phys.mappages, hlast, Nat.mul_div_cancel _ (by decide), hk]

end KernelHobby
