import KernelHobby.ForkExec

namespace KernelHobby
set_option autoImplicit true

namespace Kern

/-- The `sepc` of a trap frame at `f`. -/
def frameSepc (k : Kern) (p : Slot) (f : Nat) : Nat :=
  leGet (fun i => (k.userLoad p (f + i)).getD 0) 240 8

/-- Byte `i` of the trap frame that the child should find: `a0` is 0, and it goes on after the
`ecall`. -/
def childFrame (k : Kern) (p : Slot) (f i : Nat) : Option UInt8 :=
  if 64 ≤ i ∧ i < 72 then some 0
  else if 240 ≤ i ∧ i < 248 then some (leByte (wrap64 (k.frameSepc p f + 4)) (i - 240))
  else k.userLoad p (f + i)

/-- The addresses of memory that `proc_fork` writes through the child's frame. -/
def FrameWrite (us f a : Nat) : Prop :=
  ∃ d i, (d = 64 ∨ d = 240) ∧ i < 8 ∧ a = wrap64 (us * PGSIZE + 2 ^ 64 + f - USERSTACK + d + i)

/-- The frame of the child is that of its parent, and was built inside the child. -/
structure FrameCopied (k : Kern) (p c : Slot) (f : Nat) (k' : Kern) : Prop where
  table : (k'.proc c).pagetable ≠ 0
  frame : ∀ i < 256, k'.userLoad c ((k'.proc c).tfVa + i) = k.childFrame p f i
  inside : ∀ a, FrameWrite (k'.proc c).ustack f a → a / PGSIZE = (k'.proc c).ustack

/-- The nodes below the root that lead to the pages of every process. -/
def tableNodes (L : Layout) : Set Node :=
  {x | ∃ u, UserPages L u ∧ (x = .mid (ix2 u) ∨ x = .low (ix2 u) (ix1 u))}

/-- How many pages a child takes before its heap: its stack, and the page table. -/
noncomputable def tablePages (L : Layout) : Nat := 2 + (tableNodes L).ncard

theorem tablePages_nodes (L : Layout) :
    ∃ N : Finset Node, tablePages L = 2 + N.card ∧ ∀ x, x ∈ N ↔ x ∈ tableNodes L := by
  have hfin : (tableNodes L).Finite := Set.toFinite _
  refine ⟨hfin.toFinset, ?_, fun x => hfin.mem_toFinset⟩
  rw [tablePages, Set.ncard_eq_toFinset_card _ hfin]

end Kern

/-- The addresses of a process below the kernel's. -/
theorem vpn_of_lt (hva : va < 2 ^ 38) : vpn va = va / PGSIZE := by
  rw [vpn, PGSIZE, Nat.mod_eq_of_lt]
  omega

namespace VmInv
variable {L : Layout} {k k' : Kern} {g : Ghost} {p c : Slot}

/-- An address that the process can write is on its stack or above. -/
theorem writable (h : VmInv L k g) (hpt : (k.proc p).pagetable ≠ 0)
    (ht : k.translate p va PTE_W = some n) :
    va < 0xC000 * PGSIZE ∧ (va / PGSIZE = 4 ∨ 16 ≤ va / PGSIZE) := by
  have hlt : va < 2 ^ 38 := by
    rw [Kern.translate_pte] at ht
    by_contra hge
    rw [if_neg fun hand => hge hand.1] at ht
    cases ht
  have hv := vpn_of_lt hlt
  simp only [PGSIZE] at hv ⊢
  cases h.translate hpt (by decide) ht with
  | code _ _ hf => exact absurd rfl hf
  | stack h4 => omega
  | leaf v _ hu hv' =>
    have hvlt := v.isLt
    omega

/-- A frame that starts on the stack page ends there. -/
theorem frameOk (h : VmInv L k g) (hpt : (k.proc p).pagetable ≠ 0)
    (hfr : ∀ i < 256, ∃ n, k.translate p (f + i) PTE_W = some n)
    (hf : f / PGSIZE = USERSTACK / PGSIZE) : FrameOk f ∧ f + 256 ≤ USERSTACKTOP := by
  obtain ⟨n, hn⟩ := hfr 255 (by decide)
  obtain ⟨_, hw⟩ := h.writable hpt hn
  have htop : USERSTACKTOP = 0x5000 := rfl
  have hbot : USERSTACK = 0x4000 := rfl
  rw [FrameOk, htop, hbot]
  rw [hbot] at hf
  simp only [PGSIZE] at hf hw
  omega

/-- What the process has on its stack page. -/
theorem stack_load (h : VmInv L k g) (hpt : (k.proc p).pagetable ≠ 0)
    (ht : k.translate p va PTE_W = some n) (hv : va / PGSIZE = 4) :
    k.userLoad p va = some (k.phys.mem (k.proc p).ustack (va % PGSIZE)) := by
  have hlt : va < 2 ^ 38 := by
    have hb := (h.writable hpt ht).1
    simp only [PGSIZE] at hb
    omega
  have hv4 : vpn va = 4 := (vpn_of_lt hlt).trans hv
  have hlf : k.pte p va = mkPte (k.proc p).ustack 23 := by
    have hne : k.pte p va ≠ 0 := by
      intro hz
      rw [Kern.translate_pte, hz, if_neg fun hand => hand.2.1 (Nat.zero_and _)] at ht
      cases ht
    rw [h.pte hpt, hv4] at hne ⊢
    rcases (h.linked p).code 4 (by decide) with hz | ⟨h1, _⟩ | ⟨_, hw⟩
    · exact absurd hz hne
    · cases h1
    · exact hw
  rw [Kern.userLoad, Kern.translate_mkPte hlt hlf (by decide) (by decide) (by decide) (by decide)
    (by decide)]
  rfl

/-- The writes through the child's frame stay in its stack page only for a frame on the stack. -/
theorem frame_inside (h : VmInv L k g) (hpt : (k.proc p).pagetable ≠ 0)
    (hfr : ∀ i < 256, ∃ n, k.translate p (f + i) PTE_W = some n) (hn : n < PHYSTOP) :
    (∀ a, Kern.FrameWrite n f a → a / PGSIZE = n) ↔ f / PGSIZE = USERSTACK / PGSIZE := by
  have hbot : USERSTACK = 0x4000 := rfl
  constructor
  · intro hin
    have ha := hin _ ⟨64, 0, .inl rfl, by decide, rfl⟩
    obtain ⟨j, hj⟩ := hfr 0 (by decide)
    obtain ⟨hlt, hw⟩ := h.writable hpt hj
    rw [hbot] at ha ⊢
    simp only [wrap64, PGSIZE, PHYSTOP] at ha hlt hw hn ⊢
    omega
  · rintro hf a ⟨d, i, hd, hi, rfl⟩
    obtain ⟨⟨hlo, _⟩, hhi⟩ := h.frameOk hpt hfr hf
    have htop : USERSTACKTOP = 0x5000 := rfl
    rw [htop] at hhi
    rw [hbot] at hlo ⊢
    simp only [wrap64, PGSIZE, PHYSTOP] at hn ⊢
    omega

/-- The child reads its stack page at `va`, once that is mapped. -/
theorem child_load (h' : VmInv L k' g') (hpt : (k'.proc c).pagetable ≠ 0)
    (hlf : g'.lf c 4 = mkPte us 23) (hva : va / PGSIZE = 4) :
    k'.userLoad c va = some (k'.phys.mem us (va % PGSIZE)) := by
  have hlt : va < 2 ^ 38 := by
    simp only [PGSIZE] at hva
    omega
  have hpte : k'.pte c va = mkPte us 23 := by
    rw [h'.pte hpt, vpn_of_lt hlt, hva]
    exact hlf
  rw [Kern.userLoad, Kern.translate_mkPte hlt hpte (by decide) (by decide) (by decide) (by decide)
    (by decide)]
  rfl

/-- A frame on the stack is copied with the stack, and then the two words of it are written. -/
theorem frame_copied (h : VmInv L k g) (hp : k.Runs p)
    (hfr : ∀ i < 256, ∃ n, k.translate p (f + i) PTE_W = some n)
    (hf : f / PGSIZE = USERSTACK / PGSIZE) (hroom : Kern.tablePages L ≤ k.phys.freecnt)
    (hpc : p ≠ c) (hz : k.phys.kalloc.1 ≠ 0) (sp : Spawned L k g p c pt s₃ g₃)
    (hk' : k' = k.forkDone p c pt k.phys.kalloc.1 s₃ f (k.frameSepc p f)) :
    k.FrameCopied p c f k' := by
  obtain ⟨hok, hhi⟩ := h.frameOk hp.table hfr hf
  obtain ⟨h', _, _⟩ := h.forked hp.run hp.idle hok hpc hz sp hk'
  have hus := h.vm.alloc.kalloc_lt hz
  obtain ⟨N, hcard, hN⟩ := Kern.tablePages_nodes L
  obtain ⟨hpt, htab⟩ := sp.user.resolve_right fun hs => by
    have hlt := hs N fun u hu => ⟨(hN _).2 ⟨u, hu, .inl rfl⟩, (hN _).2 ⟨u, hu, .inr rfl⟩⟩
    have hcnt := h.vm.alloc.cnt
    omega
  have hlf : g₃.lf c 4 = mkPte k.phys.kalloc.1 23 := by
    rw [htab 4 (h.userPages_heap hp.run (.inr (.inr rfl)))]
    exact Function.update_self ..
  have hcproc : k'.proc c = k.childProc p c pt k.phys.kalloc.1 f := by
    rw [hk']
    exact Kern.setProc_self ..
  have hmem : k'.phys.mem = pokeFrame s₃.mem k.phys.kalloc.1 f (k.frameSepc p f) := by
    rw [hk']
    rfl
  have hpt' : (k'.proc c).pagetable ≠ 0 := by
    rw [hcproc]
    exact hpt
  have hst : g.tgt (p, .ustack) = some (k.proc p).ustack := by
    rw [(h.linked p).ustack]
    exact ptr_of_ne ((h.linked p).running hp.run).2.1
  refine ⟨hpt', fun i hi => ?_, ?_⟩
  · obtain ⟨n, hn⟩ := hfr i hi
    have htop : USERSTACKTOP = 0x5000 := rfl
    have hbot : USERSTACK = 0x4000 := rfl
    have hlo := hok.1
    rw [htop] at hhi
    rw [hbot] at hlo
    have hva : (f + i) / PGSIZE = 4 := by
      simp only [PGSIZE]
      omega
    have hmod : (f + i) % PGSIZE = f - USERSTACK + i := by
      rw [hbot]
      simp only [PGSIZE]
      omega
    have htf : (k'.proc c).tfVa = f := congrArg UProc.tfVa hcproc
    rw [htf, child_load h' hpt' hlf hva, hmem, hmod, pokeFrame_page _ hok hus,
      sp.fork.copy _ hst, Kern.childFrame, h.stack_load hp.table hn hva, hmod]
    by_cases h64 : 64 ≤ i ∧ i < 72
    · rw [if_pos h64, if_neg (by omega), if_pos (by omega)]
    · by_cases h240 : 240 ≤ i ∧ i < 248
      · have hoff : f - USERSTACK + i - (f - USERSTACK + 240) = i - 240 := by omega
        rw [if_neg h64, if_pos h240, if_pos (by omega), hoff]
      · rw [if_neg h64, if_neg h240, if_neg (by omega), if_neg (by omega)]
  · have husc : (k'.proc c).ustack = k.phys.kalloc.1 := congrArg UProc.ustack hcproc
    rw [husc]
    exact (h.frame_inside hp.table hfr hus).2 hf

/-- A child that finds its frame has the page table up to there. -/
theorem pages_of_frame (h : VmInv L k g) (hp : k.Runs p)
    (hfr : ∀ i < 256, ∃ n, k.translate p (f + i) PTE_W = some n)
    (hf : f / PGSIZE = USERSTACK / PGSIZE)
    (hpc : p ≠ c) (hz : k.phys.kalloc.1 ≠ 0) (sp : Spawned L k g p c pt s₃ g₃)
    (hk' : k' = k.forkDone p c pt k.phys.kalloc.1 s₃ f (k.frameSepc p f))
    (hb : k.FrameCopied p c f k') : Kern.tablePages L ≤ k.phys.freecnt := by
  obtain ⟨hok, _⟩ := h.frameOk hp.table hfr hf
  obtain ⟨h', _, _⟩ := h.forked hp.run hp.idle hok hpc hz sp hk'
  have hcproc : k'.proc c = k.childProc p c pt k.phys.kalloc.1 f := by
    rw [hk']
    exact Kern.setProc_self ..
  have htf : (k'.proc c).tfVa = f := congrArg UProc.tfVa hcproc
  have hpt : pt ≠ 0 := by
    have hne := hb.table
    rw [hcproc] at hne
    exact hne
  have hlf4 : g₃.lf c 4 ≠ 0 := by
    intro hzero
    obtain ⟨n, hn⟩ := hfr 0 (by decide)
    have hload := hb.frame 0 (by decide)
    have hva : (f + 0) / PGSIZE = 4 := hf
    have hv4 : vpn (f + 0) = 4 := by
      rw [vpn_of_lt, hva]
      simp only [PGSIZE] at hva
      omega
    rw [htf, Kern.childFrame, if_neg (by decide), if_neg (by decide), h.stack_load hp.table hn hva,
      Kern.userLoad, Kern.translate_pte, h'.pte hb.table, hv4, hzero,
      if_neg fun hand => hand.2.1 (Nat.zero_and _)] at hload
    cases hload
  obtain ⟨hmid4, hlow4⟩ := path_some sp.vm hlf4 (by decide)
  obtain ⟨N, hcard, hN⟩ := Kern.tablePages_nodes L
  have hroot : Node.root ∉ N := by
    intro hr
    obtain ⟨u, _, he | he⟩ := (hN _).1 hr
    · cases he
    · cases he
  have hpath (u : Nat) (hu : UserPages L u) : g₃.tgt (nd c (.mid (ix2 u))) ≠ none ∧
      g₃.tgt (nd c (.low (ix2 u) (ix1 u))) ≠ none := by
    rcases hu with hk | rfl | rfl
    · have hge : 0xC000 ≤ u := by
        by_contra hlt
        exact hk (kernPte_low L (by omega))
      refine path_some sp.vm ?_ (userPages_lt (L := L) (.inl hk))
      rw [sp.kern hpt u hge]
      exact hk
    -- the code page is next to the stack
    · exact ⟨hmid4, hlow4⟩
    · exact ⟨hmid4, hlow4⟩
  have hle := sp.pages_le h (N := insert .root N) fun x hx => by
    rcases Finset.mem_insert.1 hx with rfl | hx
    · rw [sp.root, ptr_of_ne hpt]
      exact Option.some_ne_none _
    · obtain ⟨u, hu, he⟩ := (hN x).1 hx
      obtain ⟨hmid, hlow⟩ := hpath u hu
      rcases he with rfl | rfl
      · exact hmid
      · exact hlow
  rw [Finset.card_insert_of_notMem hroot] at hle
  omega

end VmInv

/-- The child's trap frame is its parent's exactly when that is on the stack page, and the free
pages are enough for the child's stack and page table. -/
theorem frameCopied_iff (hr : TameReach L k) (hp : k.Runs p)
    (hfr : ∀ i < 256, ∃ n, k.translate p (f + i) PTE_W = some n) (hc : k.freeSlot = some c)
    (hs : k.procFork L p f (k.frameSepc p f) = some k') :
    k.FrameCopied p c f k' ↔
      f / PGSIZE = USERSTACK / PGSIZE ∧ Kern.tablePages L ≤ k.phys.freecnt := by
  obtain ⟨g, h⟩ := hr.inv
  obtain ⟨hz, pt, s₂, s₃, htab, hsh, hk'⟩ := Kern.procFork_some hc hs
  obtain ⟨hpc, g₃, sp⟩ := h.spawn hp.run hp.table hc hz htab hsh
  constructor
  · intro hb
    have hus : (k'.proc c).ustack = k.phys.kalloc.1 := by
      rw [hk']
      exact congrArg UProc.ustack (Kern.setProc_self ..)
    have hin := hb.inside
    rw [hus] at hin
    have hf := (h.frame_inside hp.table hfr (h.vm.alloc.kalloc_lt hz)).1 hin
    exact ⟨hf, h.pages_of_frame hp hfr hf hpc hz sp hk' hb⟩
  · rintro ⟨hf, hroom⟩
    exact h.frame_copied hp hfr hf hroom hpc hz sp hk'

theorem Kern.tablePages_le (L : Layout) : tablePages L ≤ 1538 := by
  obtain ⟨N, hcard, hN⟩ := tablePages_nodes L
  have hsub : N ⊆ kernNodes := by
    intro x hx
    obtain ⟨u, hu, he⟩ := (hN x).1 hx
    rcases he with rfl | rfl
    · exact (userPages_path hu).1
    · exact (userPages_path hu).2
  have hle := (Finset.card_le_card hsub).trans kernNodes_card
  omega

/-- The first fork of the shell. -/
theorem frameCopied_boot : ∃ k c k', Kern.boot smallKernel (fun _ => Page.zero) 18 spinElf = some k ∧
    k.procFork smallKernel .shell (USERSTACKTOP - 256)
      (k.frameSepc .shell (USERSTACKTOP - 256)) = some k' ∧
    k.FrameCopied .shell c (USERSTACKTOP - 256) k' := by
  obtain ⟨k, pt, code, us, ks, hb, hs, hcnt⟩ := smallKernel_boot
  have hr := TameReach.boot spinElf_fits hb
  have hrun := hs.runs
  obtain ⟨q, hq⟩ : ∃ q : Slot, q ≠ .shell := ⟨⟨1, by decide⟩, by decide⟩
  obtain ⟨c, hc⟩ := Kern.freeSlot_some (hs.unused hq)
  obtain ⟨k', _, hk', _⟩ := hr.fork hrun hc (by omega) (f := USERSTACKTOP - 256)
    ⟨by decide, by decide⟩ (k.frameSepc .shell (USERSTACKTOP - 256))
  have htop : USERSTACKTOP = 0x5000 := rfl
  refine ⟨k, c, k', hb, hk', (frameCopied_iff hr hrun (fun i hi => ⟨us, ?_⟩) hc hk').2 ⟨rfl, ?_⟩⟩
  · have hlt : USERSTACKTOP - 256 + i < 2 ^ 38 := by omega
    have hv : vpn (USERSTACKTOP - 256 + i) = 4 := by
      rw [vpn_of_lt hlt, htop]
      simp only [PGSIZE]
      omega
    refine Kern.translate_mkPte (f := 23) hlt ?_ (by decide) (by decide) (by decide) (by decide)
      (by decide)
    rw [hs.pte, hv]
    exact Function.update_self ..
  · have hle := Kern.tablePages_le smallKernel
    omega

/-- A program whose stack pointer is on its heap: the child's frame is looked for outside of its
stack page. -/
theorem heap_frame_outside : ∃ k c k', TameReach smallKernel k ∧ k.Runs .shell ∧
    (∀ i < 256, ∃ n, k.translate .shell (HEAPBASE + 0x100 + i) PTE_W = some n) ∧
    k.freeSlot = some c ∧
    k.procFork smallKernel .shell (HEAPBASE + 0x100)
      (k.frameSepc .shell (HEAPBASE + 0x100)) = some k' ∧
    ¬ k.FrameCopied .shell c (HEAPBASE + 0x100) k' := by
  obtain ⟨k, hr, hrun, _, ⟨n, hn⟩, ⟨c, hc⟩, hcnt⟩ := smallKernel_heap
  obtain ⟨g, h⟩ := hr.inv
  have hle := h.forkPages_le hrun.run
  obtain ⟨k', _, _, _, hk', _, hz, _, _, hdone⟩ := h.fork_room hrun.run hrun.table hc (by omega)
    (HEAPBASE + 0x100) (k.frameSepc .shell (HEAPBASE + 0x100))
  have hbase : HEAPBASE = 0x10000 := rfl
  have hfr (i : Nat) (hi : i < 256) :
      k.translate .shell (HEAPBASE + 0x100 + i) PTE_W = some n := by
    have hlt : HEAPBASE + 0x100 + i < 2 ^ 38 := by omega
    have hv : vpn (HEAPBASE + 0x100 + i) = 16 := by
      rw [vpn_of_lt hlt, hbase]
      simp only [PGSIZE]
      omega
    refine Kern.translate_mkPte (f := 23) hlt ?_ (by decide) (by decide) (by decide) (by decide)
      (by decide)
    rw [h.pte hrun.table, hv, ← h.pte_page hrun.table (by decide)]
    exact hn
  refine ⟨k, c, k', hr, hrun, fun i hi => ⟨n, hfr i hi⟩, hc, hk', fun hb => ?_⟩
  have hus : (k'.proc c).ustack = k.phys.kalloc.1 := by
    rw [hdone]
    exact congrArg UProc.ustack (Kern.setProc_self ..)
  have hin := hb.inside
  rw [hus] at hin
  have hf := (h.frame_inside hrun.table (fun i hi => ⟨n, hfr i hi⟩) (h.vm.alloc.kalloc_lt hz)).1 hin
  cases hf

end KernelHobby
