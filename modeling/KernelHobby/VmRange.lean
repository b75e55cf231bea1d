import KernelHobby.VmLeaf
import KernelHobby.PtCount

namespace KernelHobby
set_option autoImplicit true

/-- The `k` pages from page `v` on of `p` are no longer mapped. -/
def Ghost.clear (g : Ghost) (p : Slot) (v k : Nat) : Ghost where
  tgt y :=
    match y with
    | (q, .leaf u) => if q = p ∧ v ≤ u.val ∧ u.val < v + k then none else g.tgt (q, .leaf u)
    | _ => g.tgt y
  lf := Function.update g.lf p fun u => if v ≤ u ∧ u < v + k then 0 else g.lf p u
  lost := g.lost
  fl := g.fl

theorem Ghost.clear_zero (g : Ghost) (p : Slot) (v : Nat) : g.clear p v 0 = g := by
  have hno (u : Nat) : ¬ (v ≤ u ∧ u < v + 0) := by omega
  obtain ⟨tgt, lf, lost, fl⟩ := g
  simp only [clear, Ghost.mk.injEq, and_true]
  constructor
  · funext ⟨q, x⟩
    cases x with
    | leaf u => simp only [hno, and_false, if_false]
    | _ => rfl
  · funext q
    by_cases hq : q = p
    · rw [hq, Function.update_self]
      funext u
      rw [if_neg (hno u)]
    · rw [Function.update_of_ne hq]

/-- The first page of the range is cleared alone, and then the others. -/
theorem Ghost.clear_succ (g : Ghost) (p : Slot) {v : UPage} (k : Nat) (fl fl' : List Nat) :
    ((((g.set (p, .leaf v) none).setFl fl).setLf p (Function.update (g.lf p) v 0)).clear p (v + 1)
      k).setFl fl' = (g.clear p v (k + 1)).setFl fl' := by
  obtain ⟨tgt, lf, lost, gl⟩ := g
  simp only [clear, set, setFl, setLf, Ghost.mk.injEq, and_true]
  constructor
  · funext y
    obtain ⟨q, x⟩ := y
    cases x with
    | leaf u =>
      by_cases hq : q = p
      · subst hq
        by_cases huv : u = v
        · subst huv
          simp
        · have hne : u.val ≠ v.val := fun he => huv (Fin.ext he)
          have hiff : v.val + 1 ≤ u.val ∧ u.val < v.val + 1 + k ↔
              v.val ≤ u.val ∧ u.val < v.val + (k + 1) := by omega
          have hpos : (q, SPos.leaf u) ≠ (q, .leaf v) := by simp [huv]
          simp only [hiff, Function.update_of_ne hpos]
      · simp [hq]
    | _ => simp
  · funext q
    by_cases hq : q = p
    · subst hq
      simp only [Function.update_self]
      funext u
      by_cases huv : u = v.val
      · subst huv
        simp
      · have hiff : v.val + 1 ≤ u ∧ u < v.val + 1 + k ↔ v.val ≤ u ∧ u < v.val + (k + 1) := by omega
        simp only [hiff, Function.update_of_ne huv]
    · simp [hq]

/-- Nothing is cleared where nothing is mapped. -/
theorem Ghost.clear_skip (g : Ghost) (p : Slot) {v : UPage} (k : Nat)
    (ht : g.tgt (p, .leaf v) = none) (hl : g.lf p v = 0) :
    g.clear p (v + 1) k = g.clear p v (k + 1) := by
  have h := g.clear_succ p (v := v) k g.fl g.fl
  have hg : ((g.set (p, .leaf v) none).setFl g.fl).setLf p (Function.update (g.lf p) v 0) = g := by
    obtain ⟨tgt, lf, lost, fl⟩ := g
    simp only [set, setFl, setLf, Ghost.mk.injEq, and_true]
    refine ⟨Function.update_eq_self_iff.2 ht.symm, ?_⟩
    rw [Function.update_eq_self_iff, Function.update_eq_self_iff]
    exact hl.symm
  rw [hg] at h
  exact h

/-- Pages went back to the allocator, and entries of `p` were cleared. -/
structure Released (p : Slot) (s : Phys) (g : Ghost) (s' : Phys) (fl' : List Nat) : Prop where
  mem : ∀ k, k ∉ fl' → (∀ y, g.tgt (nd p y) ≠ some k) → s'.mem k = s.mem k
  sup : ∀ k ∈ g.fl, k ∈ fl'
  taken : ∀ t ∈ s'.taken, t ∈ s.taken ∨ t < 0xC000
  failed : s'.failed = s.failed

theorem Released.refl (p : Slot) (s : Phys) (g : Ghost) : Released p s g s g.fl :=
  ⟨fun _ _ _ => rfl, fun _ => id, fun _ => .inl, rfl⟩

theorem Released.trans (h : Released p s g s' fl') (h' : Released p s' g' s'' fl'')
    (hfl : g'.fl = fl') (hn : ∀ y, g'.tgt (nd p y) = g.tgt (nd p y)) : Released p s g s'' fl'' where
  mem k hk hno := by
    have hk' : k ∉ fl' := fun hin => hk (h'.sup k (hfl ▸ hin))
    rw [h'.mem k hk fun y => (hn y).symm ▸ hno y, h.mem k hk' hno]
  sup k hk := h'.sup k (hfl ▸ h.sup k hk)
  taken t ht := by
    rcases h'.taken t ht with ht | ht
    · exact h.taken t ht
    · exact .inr ht
  failed := h'.failed.trans h.failed

namespace Vm
variable {s : Phys} {g : Ghost} {p : Slot} {v : UPage}

/-- An entry is valid when it refers to a page. -/
theorem entry_cases (h : Vm kend s g) (hv : 16 ≤ v.val) :
    g.lf p v = 0 ∧ g.tgt (p, .leaf v) = none ∨
      ∃ n f l, g.lf p v = mkPte n f ∧ (f = 19 ∨ f = 23 ∨ f = 275) ∧
        g.tgt (p, .leaf v) = some n ∧ g.tgt (nd p (lowOf v)) = some l := by
  rcases (h.slot p).leaf v hv with hz | ⟨n, f, ht, hl, hf⟩
  · exact .inl hz
  · have hne : g.lf p v ≠ 0 := by
      rw [hl, mkPte]
      omega
    obtain ⟨l, hlow⟩ := h.low_of_entry v.lt hne
    exact .inr ⟨n, f, l, hl, hf, ht, hlow⟩

theorem leaf_zero (h : Vm kend s g) (hv : 16 ≤ v.val) (hfree : g.tgt (p, .leaf v) = none) :
    g.lf p v = 0 := by
  rcases h.entry_cases (p := p) hv with ⟨hz, _⟩ | ⟨n, _, _, _, _, hn, _⟩
  · exact hz
  · rw [hfree] at hn
    cases hn

theorem walk_user (h : Vm kend s g) (hr : g.tgt (nd p .root) = some r) (hva : vpn va = v.val) :
    s.walk r va false =
      ((g.tgt (nd p (lowOf v))).map fun l => (l, (ix0 v : Nat)), s) := by
  rw [Phys.walk_holds (h.slot p).holds hr, hva]
  rfl

theorem low_word (h : Vm kend s g) (hl : g.tgt (nd p (lowOf v)) = some l) :
    (s.mem l).word (ix0 v) = g.lf p v := (h.slot p).holds.low v l v.lt hl

/-- The entry of a page that is shared for copy on write, made writable for the copy. -/
theorem cowRemap (h : Vm kend s g) (hl : g.tgt (nd p (lowOf v)) = some l)
    (hlf : g.lf p v = mkPte old 275) (fresh : Nat) :
    s.cowRemap (l, (ix0 v : Nat)) fresh =
      s.setMem (s.mem.setWord l (ix0 v) (mkPte fresh 23)) := by
  have hword := h.low_word hl
  rw [hlf] at hword
  have hflags : 275 &&& 0x3ff - PTE_COW ||| PTE_W = 23 := rfl
  rw [Phys.cowRemap]
  simp only
  rw [hword, pteFlags_mkPte old (by decide), hflags, pa2pte_or fresh (by decide)]

theorem flag_valid (hf : f = 19 ∨ f = 23 ∨ f = 275) (n : Nat) : mkPte n f &&& PTE_V ≠ 0 := by
  rw [mkPte_and n (by omega) (by decide)]
  rcases hf with rfl | rfl | rfl <;> decide

theorem vpn_page {v : Nat} (hv : v < 2 ^ 27) : vpn (v * PGSIZE) = v := by
  rw [vpn, Nat.mul_div_cancel _ (by decide), Nat.mod_eq_of_lt hv]

/-- `vm_free_range` over `k` pages from page `v` on, all of them of the process. -/
theorem freeLoop {v : Nat} (h : Vm kend s g) (hr : g.tgt (nd p .root) = some r) (hlo : 16 ≤ v)
    (hhi : v + k ≤ 0xC000) :
    ∃ fl', Vm kend (Phys.freeLoop r k s (v * PGSIZE)) ((g.clear p v k).setFl fl') ∧
      SlotStep (· = p) s g (Phys.freeLoop r k s (v * PGSIZE)) ((g.clear p v k).setFl fl') ∧
      Released p s g (Phys.freeLoop r k s (v * PGSIZE)) fl' := by
  induction k generalizing s g v with
  | zero =>
    refine ⟨g.fl, ?_⟩
    rw [Phys.freeLoop, g.clear_zero]
    exact ⟨h, .refl .., .refl p s g⟩
  | succ k ih =>
    obtain ⟨w, rfl⟩ : ∃ w : UPage, w.val = v := ⟨⟨v, by omega⟩, rfl⟩
    have hnext : w.val * PGSIZE + PGSIZE = (w.val + 1) * PGSIZE := (Nat.succ_mul _ _).symm
    have hwalk := h.walk_user hr (vpn_page w.lt)
    rcases h.entry_cases hlo with ⟨hz, hnone⟩ | ⟨n, f, l, hlf, hf, ht, hl⟩
    · -- nothing is mapped here
      have hskip : Phys.freeLoop r (k + 1) s (w.val * PGSIZE) =
          Phys.freeLoop r k s ((w.val + 1) * PGSIZE) := by
        rw [Phys.freeLoop, hwalk, hnext]
        cases hl : g.tgt (nd p (lowOf w)) with
        | none => rfl
        | some l =>
          have hword := h.low_word hl
          rw [hz] at hword
          simp only [Option.map_some]
          rw [hword, if_neg (by decide)]
      rw [hskip, ← g.clear_skip p k hnone hz]
      exact ih h hr (by omega) (by omega)
    · have hword := h.low_word hl
      rw [hlf] at hword
      have hone : Phys.freeLoop r (k + 1) s (w.val * PGSIZE) =
          Phys.freeLoop r k (((s.kfree n).take (w.val * PGSIZE)).setMem
            ((s.kfree n).mem.setWord l (ix0 w) 0)) ((w.val + 1) * PGSIZE) := by
        rw [Phys.freeLoop, hwalk, hnext, hl]
        simp only [Option.map_some]
        rw [hword, if_pos (flag_valid hf n), pte2pa_mkPte n (by omega)]
        rfl
      obtain ⟨fl₁, h₁, st₁, fr₁⟩ := h.clearLeaf hl ht hlo (w.val * PGSIZE)
      obtain ⟨fl₂, h₂, st₂, re₂⟩ := ih (v := w.val + 1) h₁ (by simpa [Ghost.set, Ghost.setFl,
        Ghost.setLf, nd] using hr) (by omega) (by omega)
      rw [g.clear_succ p k] at h₂ st₂
      have re₁ : Released p s g (((s.kfree n).take (w.val * PGSIZE)).setMem
          ((s.kfree n).mem.setWord l (ix0 w) 0)) fl₁ := by
        constructor
        · intro j hj hnode
          have hjl : j ≠ l := by
            rintro rfl
            exact hnode _ hl
          exact (Mem.setWord_of_ne _ hjl).trans (fr₁.mem j hj)
        · exact fr₁.sup
        · intro t htk
          rcases List.mem_cons.1 htk with rfl | htk
          · right
            rw [Nat.mul_div_cancel _ (by decide), Nat.mod_eq_of_lt w.lt]
            exact w.isLt
          · left
            rw [← s.kfree_taken n]
            exact htk
        · exact s.kfree_failed n
      rw [hone]
      exact ⟨fl₂, h₂, st₁.trans st₂, re₁.trans re₂ rfl fun y => by simp [Ghost.set, Ghost.setFl,
        Ghost.setLf, nd]⟩

/-- `walk` with allocation, in the page table of one process. -/
theorem walk (h : Vm kend s g) (hr : g.tgt (nd p .root) = some r) (va : Nat) :
    ∃ tgt' fl', let g' : Ghost := { g with tgt := tgt', fl := fl' }
      Vm kend (s.walk r va true).2 g' ∧ SlotStep (· = p) s g (s.walk r va true).2 g' ∧
      Grown (nd p) s g.tgt g.fl (s.walk r va true).2 tgt' fl' ∧
      OnPath (nd p) (vpn va) g.tgt tgt' ∧
      ((s.walk r va true).1 = none ∧ (s.walk r va true).2.failed = true ∧ fl' = [] ∧
          tgt' (nd p (lowOf (vpn va))) = none ∨
        ∃ n, (s.walk r va true).1 = some (n, (ix0 (vpn va) : Nat)) ∧
          tgt' (nd p (lowOf (vpn va))) = some n ∧ (s.walk r va true).2.failed = s.failed) := by
  obtain ⟨tgt', fl', ht, hg, hpath, hres⟩ := (h.tab p).walk hr va
  have hp := h.slot p
  have hvm := h.grown hg ht hp.leaf hp.write
  have hst := h.slotStep_grown hg (g.lf p)
  rw [Function.update_eq_self] at hvm hst
  exact ⟨tgt', fl', hvm, hst, hg, hpath, hres⟩

/-- Mapping the page in hand at page `v` of the process. -/
theorem mapFresh (h : Vm kend s g) (hr : g.tgt (nd p .root) = some r)
    (hn : g.tgt (p, .fresh) = some n) (hv : 16 ≤ v.val) (hva : vpn a = v.val)
    (hf : perm ||| PTE_V = 19 ∨ perm ||| PTE_V = 23) :
    let w := Phys.mapLoop r perm 0 s a n
    ∃ g', Vm kend w.2 g' ∧ SlotStep (· = p) s g w.2 g' ∧ s.freecnt ≤ w.2.freecnt + 2 ∧
      (w.1 = true ∧ (g.lf p v = 0 ∧ w.2.failed = s.failed) ∧
          (∃ tgt' fl', Grown (nd p) s g.tgt g.fl w.2 tgt' fl' ∧ g' =
            ((({ g with tgt := tgt', fl := fl' } : Ghost).set (p, .fresh) none).set (p, .leaf v)
              (some n)).setLf p (Function.update (g.lf p) v (mkPte n (perm ||| PTE_V)))) ∨
        w.1 = false ∧ (w.2.failed = true ∧ g'.fl = [] ∨ g.lf p v ≠ 0) ∧
          ∃ tgt' fl', Grown (nd p) s g.tgt g.fl w.2 tgt' fl' ∧
            g' = { g with tgt := tgt', fl := fl' }) := by
  intro w
  obtain ⟨tgt', fl', hvm, hst, hg, hpath, hres⟩ := h.walk hr a
  have hcnt := hpath.two hg h.alloc hvm.alloc
  have hoff (x : SPos) (hx : ∀ y, x ≠ .node y) : tgt' (p, x) = g.tgt (p, x) := hg.off _ (ne_nd hx)
  have hw : w = Phys.mapLoop r perm 0 s a n := rfl
  rw [Phys.mapLoop] at hw
  generalize s.walk r a true = o at hvm hst hg hcnt hres hw
  obtain ⟨o, s'⟩ := o
  rcases hres with ⟨ho, hfail, hnil, _⟩ | ⟨l, ho, hl, hfd⟩
  · cases ho
    rw [hw]
    exact ⟨_, hvm, hst, hcnt, .inr ⟨rfl, .inl ⟨hfail, hnil⟩, tgt', fl', hg, rfl⟩⟩
  · cases ho
    rw [hva] at hl hw
    have hword : (s'.mem l).word (ix0 v) = g.lf p v := hvm.low_word hl
    have hpte : pa2pte n ||| perm ||| PTE_V = mkPte n (perm ||| PTE_V) := by
      rw [Nat.or_assoc, pa2pte_or n (by omega)]
    dsimp only at hw
    rw [hword, hpte] at hw
    rcases (h.slot p).leaf v hv with ⟨hz, hnone⟩ | ⟨k, f, _, hlf, hfl⟩
    · rw [hz, if_neg (by decide)] at hw
      obtain ⟨hput, hput'⟩ := hvm.putLeaf (p := p) (n := n) (f := perm ||| PTE_V) hl
        ((hoff .fresh fun _ => SPos.noConfusion).trans hn) hv
        ((hoff (.leaf v) fun _ => SPos.noConfusion).trans hnone) (by omega)
      rw [hw]
      refine ⟨_, hput, hst.trans hput', hcnt, .inl ⟨rfl, ⟨hz, hfd⟩, tgt', fl', ?_, rfl⟩⟩
      exact hg.trans (.setLeaf hl)
    · rw [hlf, if_pos (flag_valid hfl k)] at hw
      rw [hw]
      refine ⟨_, hvm, hst, hcnt, .inr ⟨rfl, .inr ?_, tgt', fl', hg, rfl⟩⟩
      rw [hlf, mkPte]
      omega

end Vm

end KernelHobby
