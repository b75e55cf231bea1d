import KernelHobby.MapPages
import KernelHobby.VmRoom

namespace KernelHobby
set_option autoImplicit true

/-- The kernel's mappings are in every page table as `map_kernel` made them, and no page was given
back or shared through one of them. -/
structure KernelKept (L : Layout) (k : Kern) : Prop where
  mapped : ∀ p, (k.proc p).state ≠ .unused → (k.proc p).pagetable ≠ 0 →
    ∀ v, v < 2 ^ 27 → kernPte L v ≠ 0 → k.pte p (v * PGSIZE) = kernPte L v
  taken : ∀ t ∈ k.phys.taken, kernPte L t = 0

/-- The kernel's mappings lie above the pages of processes. -/
theorem kernPte_high (h : kernPte L v ≠ 0) : 0xC000 ≤ v := by
  by_contra hlt
  exact h (kernPte_low L (Nat.not_le.1 hlt))

theorem VmInv.kernelKept (h : VmInv L k g) : KernelKept L k where
  mapped p _ hpt v hv hk := by
    rw [h.pte_page hpt hv]
    exact (h.linked p).kern hpt v (kernPte_high hk) hv
  taken t ht := kernPte_low L (h.taken t ht)

namespace Phys

/-- A range is gone through in two parts. -/
theorem freeLoop_add (pt a b : Nat) (s : Phys) (va : Nat) :
    freeLoop pt (a + b) s va = freeLoop pt b (freeLoop pt a s va) (va + a * PGSIZE) := by
  induction a generalizing s va with
  | zero =>
    rw [Nat.zero_add, Nat.zero_mul, Nat.add_zero]
    rfl
  | succ a ih =>
    have hnext : va + (a + 1) * PGSIZE = va + PGSIZE + a * PGSIZE := by
      rw [Nat.succ_mul]
      omega
    rw [Nat.succ_add, freeLoop, freeLoop, hnext, walk_nodeAt]
    cases nodeAt s.mem pt (.low (ix2 (vpn va)) (ix1 (vpn va))) with
    | none => exact ih s _
    | some n =>
      dsimp only [Option.map_some]
      split
      · exact ih _ _
      · exact ih _ _

theorem remapUserCode_taken (s : Phys) (pt n : Nat) : (s.remapUserCode pt n).taken = s.taken := by
  rw [remapUserCode, walk_nodeAt]
  cases nodeAt s.mem pt (.low (ix2 (vpn USERVA)) (ix1 (vpn USERVA))) <;> rfl

end Phys

/-- `vm_free_range` from the heap on over the first page of the devices gives that page back. -/
theorem Vm.freeLoop_device (h : Vm L.kend s g) (hr : g.tgt (nd p .root) = some r)
    (hk : g.lf p 0xC000 = kernPte L 0xC000) :
    0xC000 ∈ (Phys.freeLoop r 0xBFF1 s HEAPBASE).taken := by
  have hstart : HEAPBASE = 16 * PGSIZE := rfl
  have hsum : 0xBFF1 = 0xBFF0 + 1 := rfl
  have hdev : 16 * PGSIZE + 0xBFF0 * PGSIZE = 0xC000 * PGSIZE := rfl
  have hpte : kernPte L 0xC000 = mkPte 0xC000 7 := by
    rw [kernPte, if_pos (by omega)]
  obtain ⟨fl, h₁, _⟩ := h.freeLoop (k := 0xBFF0) hr (Nat.le_refl 16) (by decide)
  rw [hsum, hstart, Phys.freeLoop_add, hdev]
  have hr₁ : ((g.clear p 16 0xBFF0).setFl fl).tgt (nd p .root) = some r := hr
  have hlf : ((g.clear p 16 0xBFF0).setFl fl).lf p 0xC000 = mkPte 0xC000 7 := by
    simp [Ghost.setFl, Ghost.clear, hk, hpte]
  generalize (g.clear p 16 0xBFF0).setFl fl = e at h₁ hr₁ hlf
  generalize Phys.freeLoop r 0xBFF0 s (16 * PGSIZE) = s₁ at h₁
  have hlt : 0xC000 < 2 ^ 27 := by decide
  obtain ⟨l, hl⟩ := h₁.low_of_entry (u := 0xC000) hlt (by
    rw [hlf]
    decide)
  have hword := (h₁.slot p).holds.low 0xC000 l hlt hl
  have hvalid : mkPte 0xC000 7 &&& PTE_V ≠ 0 := by decide
  rw [Phys.freeLoop, s₁.walk_holds (h₁.slot p).holds hr₁, Vm.vpn_page hlt]
  change e.tgt (nd p (.low (ix2 0xC000) (ix1 0xC000))) = some l at hl
  rw [hl]
  simp only [Option.map_some]
  rw [hword, hlf, if_pos hvalid]
  exact List.mem_cons_self ..

end KernelHobby
