import KernelHobby.VmBoot

namespace KernelHobby
set_option autoImplicit true

/-- The first two user pages and the kernel's pages are in reach of `kernNodes`. -/
theorem userPages_path (h : UserPages L u) : PathIn kernNodes u := by
  apply mem_kernNodes
  have hp : PHYSTOP = 0x88000 := rfl
  have ht := L.text
  rcases h with h | h | h
  · rw [kernPte] at h
    split at h
    · omega
    · split at h
      · rename_i hin
        have hd := L.data
        have hr := L.ram
        omega
      · split at h
        · omega
        · exact absurd rfl h
  · omega
  · omega

namespace Tab
variable {ι : Type} [Fintype ι] [DecidableEq ι] {kend : Nat} {s s' : Phys} {tgt tgt' : ι → Option Nat}
  {lost : Nat → Nat} {fl fl' : List Nat} {nd : Node → ι} {lf : Nat → Nat}

/-- A page table with the kernel's mappings takes some fifteen hundred pages at most. -/
theorem newTable_ok (L : Layout) (h : Tab kend s tgt lost fl nd fun _ => 0)
    (hnone : ∀ y, tgt (nd y) = none) (hroom : 1537 < s.freecnt) :
    s.kalloc.1 ≠ 0 ∧ ∃ s' tgt' fl',
      Phys.mapKernel L (s.kalloc.2.setMem (s.kalloc.2.mem.setPage s.kalloc.1 Page.zero))
        s.kalloc.1 = some s' ∧ Tab kend s' tgt' lost fl' nd (kernPte L) ∧
      s'.failed = s.failed ∧ s.freecnt ≤ s'.freecnt + 1537 := by
  have hz := h.alloc.kalloc_room (by omega)
  have hcard := kernNodes_card
  have hcnt := h.alloc.cnt
  rcases h.newTable L hnone hz with ⟨s₁, t₁, f₁, e₁, _, _, b₁, d₁, c₁⟩ | ⟨_, hs⟩
  · have hc := c₁ kernNodes fun u hu => userPages_path hu
    have hcnt₁ := b₁.alloc.cnt
    exact ⟨hz, s₁, t₁, f₁, e₁, b₁, d₁, by omega⟩
  · have hle := hs kernNodes fun u hu => userPages_path hu
    omega

theorem procPagetable_ok (L : Layout) (h : Tab kend s tgt lost fl nd fun _ => 0)
    (hnone : ∀ y, tgt (nd y) = none) (huc : uc < PHYSTOP) (hus : us < PHYSTOP)
    (hroom : 1537 < s.freecnt) :
    s.kalloc.1 ≠ 0 ∧ ∃ s' tgt' fl', s.procPagetable L uc us = some (s.kalloc.1, s') ∧
      tgt' (nd .root) = some s.kalloc.1 ∧ Tab kend s' tgt' lost fl' nd (userPte L uc us) ∧
      s'.failed = s.failed ∧ s.freecnt ≤ s'.freecnt + 1537 := by
  have hcard := kernNodes_card
  have hcnt := h.alloc.cnt
  rcases h.procPagetable L hnone huc hus with ⟨_, _, rfl⟩ | ⟨_, hs⟩ |
    ⟨s', tgt', fl', lf', e, hz, _, b, _, hr, hc, ⟨hf, rfl⟩ | ⟨_, hs⟩⟩
  · rw [hcnt] at hroom
    cases hroom
  · have hle := hs kernNodes fun u hu => userPages_path hu
    omega
  · have hc := hc kernNodes fun u hu => userPages_path hu
    have hcnt' := b.alloc.cnt
    exact ⟨hz, s', tgt', fl', e, hr, b, hf, by omega⟩
  · have hle := hs kernNodes fun u hu => userPages_path hu
    omega

end Tab

namespace Blank
variable {kend : Nat} {s : Phys} {fl : List Nat}

theorem cnt (h : Blank kend s fl) : s.freecnt = fl.length := by
  obtain ⟨lost, ha⟩ := h
  exact ha.cnt

theorem kvminit_ok (L : Layout) (h : Blank kend s fl) (hroom : 1537 < s.freecnt) :
    ∃ pt s' fl', s.kvminit L = some (pt, s') ∧ Blank kend s' fl' ∧ s'.failed = s.failed ∧
      s.freecnt ≤ s'.freecnt + 1537 := by
  obtain ⟨lost, ha⟩ := h
  obtain ⟨hz, s₁, t₁, f₁, e₁, b₁, d₁, c₁⟩ :=
    (ha.vm.tab .shell).newTable_ok L (fun _ => rfl) hroom
  refine ⟨s.kalloc.1, s₁, f₁, ?_, b₁.alloc.blank, d₁, c₁⟩
  rw [Phys.kvminit]
  dsimp only
  rw [if_neg hz, e₁]
  rfl

theorem driverPages_ok (h : Blank kend s fl) (hroom : n < s.freecnt) :
    (Kern.driverPages n s).failed = s.failed ∧
      s.freecnt ≤ (Kern.driverPages n s).freecnt + n := by
  induction n generalizing s fl with
  | zero => exact ⟨rfl, Nat.le_refl _⟩
  | succ n ih =>
    obtain ⟨lost, ha⟩ := h
    have hz := ha.kalloc_room (by omega)
    obtain ⟨fl₁, h₁⟩ := Blank.kalloc ⟨lost, ha⟩
    have hc := s.kalloc_freecnt hz
    obtain ⟨hf, hcnt⟩ := ih h₁ (by omega)
    refine ⟨hf.trans (s.kalloc_failed hz), ?_⟩
    have hcnt' : s.kalloc.2.freecnt ≤ (Kern.driverPages (n + 1) s).freecnt + n := hcnt
    omega

theorem room (h : Blank kend s fl) (hroom : 0 < s.freecnt) : s.kalloc.1 ≠ 0 := by
  obtain ⟨lost, ha⟩ := h
  exact ha.kalloc_room hroom

end Blank

/-- The kernel with its first process ready, and all its pages there. -/
structure Started (L : Layout) (k : Kern) (pt code us ks : Nat) : Prop where
  proc : k.proc = Function.update (fun _ => UProc.zero) .shell (firstProc pt code us ks)
  table : pt ≠ 0
  pid : k.nextPid = 2
  pte : ∀ va, k.pte .shell va = userPte L code us (vpn va)
  failed : k.phys.failed = false

theorem Kern.makeUserProc_eq (hz : s.kalloc.1 ≠ 0) (hl : init.loads = true)
    (hs : s₁ = s.kalloc.2.setMem
      (loadElf init s.kalloc.1 (s.kalloc.2.mem.setPage s.kalloc.1 Page.zero)).2)
    (hus : s₁.kalloc.1 ≠ 0)
    (hpt : s₁.kalloc.2.procPagetable L s.kalloc.1 s₁.kalloc.1 = some (pt, s₂)) :
    makeUserProc L s kpt init = some ⟨s₂.kalloc.2, Function.update (fun _ => UProc.zero) .shell
      (firstProc pt s.kalloc.1 s₁.kalloc.1 s₂.kalloc.1), 2, kpt⟩ := by
  rw [makeUserProc]
  dsimp only
  rw [if_neg hz, loadElf_fst, hl, ← hs, Bool.not_true, if_neg Bool.false_ne_true, if_neg hus, hpt]
  rfl

theorem Blank.makeUserProc_ok {L : Layout} (h : Blank L.kend s fl) (hi : init.Fits)
    (hl : init.loads = true) (hf : s.failed = false) (hroom : 1545 < s.freecnt) (kpt : Nat) :
    ∃ k pt code us ks, Kern.makeUserProc L s kpt init = some k ∧ Started L k pt code us ks ∧
      s.freecnt ≤ k.phys.freecnt + 1544 := by
  have hz := h.room (by omega)
  obtain ⟨g₂, h₂, f₂, hc₂, hs₂, hnone, hlf, fl₁, hb₁⟩ := h.firstPages hi hz
  generalize hs₁ : s.kalloc.2.setMem
    (loadElf init s.kalloc.1 (s.kalloc.2.mem.setPage s.kalloc.1 Page.zero)).2 = s₁
    at h₂ hs₂ hb₁
  have hcnt₁ : s₁.freecnt = s.freecnt - 1 := by
    rw [← hs₁]
    exact s.kalloc_freecnt hz
  have hus := hb₁.room (by omega)
  have hcnt₂ := s₁.kalloc_freecnt hus
  have hlt {x : Pos} {n : Nat} (hx : g₂.tgt x = some n) : n < PHYSTOP :=
    (h₂.alloc.bal.target x n hx).2
  have htab := h₂.tab .shell
  rw [hlf] at htab
  obtain ⟨hpt, s₂, t₂, fl₂, e₂, r₂, b₂, d₂, c₂⟩ := htab.procPagetable_ok L
    (fun y => hnone (.node y) SPos.noConfusion SPos.noConfusion) (hlt hc₂)
    (hlt (hs₂.trans (ptr_of_ne hus))) (by omega)
  have hks := b₂.alloc.kalloc_room (by omega)
  have hcnt₃ := s₂.kalloc_freecnt hks
  refine ⟨_, _, _, _, _, Kern.makeUserProc_eq hz hl hs₁.symm hus e₂,
    ⟨rfl, hpt, rfl, fun va => ?_, ?_⟩, ?_⟩
  · refine Kern.pte_holds (T := fun x => t₂ (nd .shell x)) ?_ r₂ va
    dsimp only
    rw [s₂.kalloc_mem]
    exact b₂.holds
  · have hf₁ : s₁.failed = s.failed := by
      rw [← hs₁]
      exact s.kalloc_failed hz
    exact (s₂.kalloc_failed hks).trans (d₂.trans ((s₁.kalloc_failed hus).trans (hf₁.trans hf)))
  · dsimp only
    omega

/-- The kernel comes up, with all but some three thousand pages left. -/
theorem Kern.boot_ok (L : Layout) (m : Mem) (drivers : Nat) (hi : init.Fits) (hl : init.loads = true)
    (hroom : L.kend + drivers + 3090 < PHYSTOP) :
    ∃ k pt code us ks, Kern.boot L m drivers init = some k ∧ Started L k pt code us ks ∧
      PHYSTOP ≤ k.phys.freecnt + L.kend + drivers + 3081 := by
  have ht := L.text
  have hd := L.data
  obtain ⟨fl, ha, hlen, _, hf⟩ := kinit_alloc (ι := Pos) m (show 0 < L.kend by omega) L.ram
  have hblank : Blank L.kend (Phys.kinit m L.kend) fl := ⟨_, ha⟩
  have hcnt := hblank.cnt
  obtain ⟨pt, s₁, fl₁, e₁, h₁, f₁, c₁⟩ := hblank.kvminit_ok L (by omega)
  obtain ⟨f₂, c₂⟩ := h₁.driverPages_ok (n := drivers) (by omega)
  obtain ⟨_, fl₂, h₂⟩ := h₁.driverPages (n := drivers)
  obtain ⟨k, pt', code, us, ks, e₃, h₃, c₃⟩ :=
    h₂.makeUserProc_ok hi hl (f₂.trans (f₁.trans hf)) (by omega) pt
  refine ⟨k, pt', code, us, ks, ?_, h₃, by omega⟩
  rw [Kern.boot, e₁]
  exact e₃

/-- A program of one segment, `j .`, at the start of the code page. -/
def spinElf : ElfImage
  | 0 => 0x7f
  | 1 => 0x45
  | 2 => 0x4c
  | 3 => 0x46
  | 25 => 0x10
  | 32 => 64
  | 54 => 56
  | 56 => 1
  | 64 => 1
  | 68 => 5
  | 72 => 120
  | 81 => 0x10
  | 96 => 4
  | 104 => 4
  | 120 => 0x6f
  | _ => 0

theorem spinElf_loads : spinElf.loads = true := by decide

theorem spinElf_fits : spinElf.Fits := by
  intro i hi _ _
  have hn : spinElf.phnum = 1 := by decide
  have hz : i = 0 := by omega
  rw [hz]
  decide

/-- A layout of a kernel of some seven hundred pages. -/
def smallKernel : Layout := ⟨0x80210, 0x804c0, by decide, by decide, by decide⟩

/-- Process `p` runs its program. -/
structure Kern.Runs (k : Kern) (p : Slot) : Prop where
  run : (k.proc p).state = .runnable
  table : (k.proc p).pagetable ≠ 0
  idle : (k.proc p).cow = .idle

theorem Kern.Runs.congr {k k' : Kern} (h : k.Runs p) (hs : (k'.proc p).state = (k.proc p).state)
    (ht : (k'.proc p).pagetable = (k.proc p).pagetable) (hc : (k'.proc p).cow = (k.proc p).cow) :
    k'.Runs p := by
  constructor
  · rw [hs]
    exact h.run
  · rw [ht]
    exact h.table
  · rw [hc]
    exact h.idle

theorem Kern.Runs.of_proc {k k' : Kern} (h : k.Runs p) (hp : k'.proc = k.proc) : k'.Runs p :=
  h.congr (by rw [hp]) (by rw [hp]) (by rw [hp])

/-- A process that takes a step runs its program, or is in the middle of a copy. -/
theorem Kern.step_runs {k k' : Kern} (hs : k.step L p a = some k')
    (ha : a ≠ .cowCopy ∧ a ≠ .cowMap ∧ a ≠ .cowFree) : k.Runs p := by
  obtain ⟨hrun, htable⟩ := Kern.step_live hs
  refine ⟨hrun, htable, ?_⟩
  obtain ⟨hcopy, hmap, hfree⟩ := ha
  unfold Kern.step at hs
  dsimp only at hs
  rw [if_pos ⟨hrun, htable⟩] at hs
  cases hcow : (k.proc p).cow with
  | idle => rfl
  | got va loc fresh old =>
    rw [hcow] at hs
    cases a with
    | cowCopy => exact absurd rfl hcopy
    | _ => cases hs
  | copied va loc fresh old =>
    rw [hcow] at hs
    cases a with
    | cowMap => exact absurd rfl hmap
    | _ => cases hs
  | mapped va old =>
    rw [hcow] at hs
    cases a with
    | cowFree => exact absurd rfl hfree
    | _ => cases hs

namespace Kern.Runs
variable {k k' : Kern} {p : Slot}

theorem step_store (h : k.Runs p) (L : Layout) (va : Nat) (b : UInt8) :
    k.step L p (.store va b) = k.userStore p va b := by
  unfold Kern.step
  dsimp only
  rw [if_pos ⟨h.run, h.table⟩, h.idle]

theorem step_exec (h : k.Runs p) (L : Layout) (he : k.procExec p file = some k') :
    k.step L p (.exec file) = some k' := by
  unfold Kern.step
  dsimp only
  rw [if_pos ⟨h.run, h.table⟩, h.idle]
  exact he

theorem step_fork (h : k.Runs p) (L : Layout) (hf : k.procFork L p f sepc = some k') :
    k.step L p (.fork f sepc) = some k' := by
  unfold Kern.step
  dsimp only
  rw [if_pos ⟨h.run, h.table⟩, h.idle]
  exact hf

theorem step_sbrk (h : k.Runs p) (L : Layout) (n : Int32) :
    k.step L p (.sbrk n) = some (k.procSbrk p n) := by
  unfold Kern.step
  dsimp only
  rw [if_pos ⟨h.run, h.table⟩, h.idle]

theorem step_mmap (h : k.Runs p) (L : Layout) (file : Option (UInt32 × UInt32)) :
    k.step L p (.mmap file) = some (k.procMmap p file) := by
  unfold Kern.step
  dsimp only
  rw [if_pos ⟨h.run, h.table⟩, h.idle]

theorem step_fault (h : k.Runs p) (L : Layout) (va : Nat) (store : Bool) (data : Page) :
    k.step L p (.fault va store data) = some (k.procPagefault p va store data) := by
  unfold Kern.step
  dsimp only
  rw [if_pos ⟨h.run, h.table⟩, h.idle]

theorem step_exit (h : k.Runs p) (L : Layout) :
    k.step L p .exit = some (k.setProc p { k.proc p with state := .zombie }) := by
  unfold Kern.step
  dsimp only
  rw [if_pos ⟨h.run, h.table⟩, h.idle]

theorem step_reap (h : k.Runs p) (L : Layout) (hc : k.zombieChild p = some c) :
    k.step L p .wait = some ((k.procFreeimage c).setProc c
      { (k.procFreeimage c).proc c with parent := none, state := .unused }) := by
  unfold Kern.step
  dsimp only
  rw [if_pos ⟨h.run, h.table⟩, h.idle]
  dsimp only
  rw [hc]

end Kern.Runs

theorem smallKernel_boot : ∃ k pt code us ks,
    Kern.boot smallKernel (fun _ => Page.zero) 18 spinElf = some k ∧
      Started smallKernel k pt code us ks ∧ 28000 < k.phys.freecnt := by
  obtain ⟨k, pt, code, us, ks, hb, hs, hcnt⟩ := Kern.boot_ok smallKernel (fun _ => Page.zero)
    18 spinElf_fits spinElf_loads (by decide)
  have hkend : smallKernel.kend = 0x804c0 := rfl
  have hp : PHYSTOP = 0x88000 := rfl
  exact ⟨k, pt, code, us, ks, hb, hs, by omega⟩

theorem Started.shell (h : Started L k pt code us ks) :
    k.proc .shell = firstProc pt code us ks := by
  rw [h.proc, Function.update_self]

theorem Started.top (h : Started L k pt code us ks) : (k.proc .shell).heapTop = HEAPBASE := by
  rw [h.shell]
  rfl

theorem Started.unused (h : Started L k pt code us ks) (hq : q ≠ .shell) :
    (k.proc q).state = .unused := by
  rw [h.proc, Function.update_of_ne hq]
  rfl

theorem Started.runs (h : Started L k pt code us ks) : k.Runs .shell := by
  have hp := h.shell
  constructor
  · rw [hp]
    rfl
  · rw [hp]
    exact h.table
  · rw [hp]
    rfl

/-- A load from a page that has no memory yet, when there is memory for it. -/
theorem VmInv.touchNew {L : Layout} {v : UPage} (h : VmInv L k g) (hp : k.Runs p)
    (hv : 16 ≤ v.val) (hnone : g.tgt (p, .leaf v) = none) (hroom : 4 < k.phys.freecnt)
    (hperm : perm ||| PTE_V = 19 ∨ perm ||| PTE_V = 23)
    (he : k' = (k.fillPage p (v * PGSIZE) data perm).2) :
    ∃ g' n, VmInv L k' g' ∧ SlotStep (· = p) k.phys g k'.phys g' ∧ g'.lost = g.lost ∧
      k'.proc = k.proc ∧ k.phys.freecnt ≤ k'.phys.freecnt + 3 ∧
      k'.phys.failed = k.phys.failed ∧ g'.tgt (p, .leaf v) = some n ∧
      g'.lf p v = mkPte n (perm ||| PTE_V) ∧ k'.phys.mem n = data := by
  have hlf : g.lf p v = 0 := by
    rcases (h.vm.slot p).leaf v hv with ⟨hz, _⟩ | ⟨n, _, ht, _⟩
    · exact hz
    · rw [hnone] at ht
      cases ht
  obtain ⟨g', h', st, hlost, hproc, hcnt, hres⟩ := h.fillPage hp.table hp.idle hv data hperm
  rw [← he] at h' st hproc hcnt hres
  rcases hres with ⟨_, ⟨_, hle⟩ | hne, _⟩ | ⟨_, ⟨_, hfail⟩, _, n, ht, hent, hdata⟩
  · omega
  · exact absurd hlf hne
  · exact ⟨g', n, h', st, hlost, hproc, hcnt, hfail, ht, hent, hdata⟩

/-- A fault at a page of the heap. -/
theorem Kern.procPagefault_heap {k : Kern} (hv : (k.proc p).Heap v) (data : Page) :
    k.procPagefault p (v * PGSIZE) false data =
      (k.fillPage p (v * PGSIZE) Page.zero (PTE_R ||| PTE_W ||| PTE_U)).2 := by
  have hpg : v * PGSIZE / PGSIZE = v := Nat.mul_div_cancel _ (by decide)
  have hheap : HEAPBASE ≤ v * PGSIZE ∧ v * PGSIZE < (k.proc p).heapTop := by
    refine ⟨?_, hv.2⟩
    have hlo := hv.1
    simp only [HEAPBASE, PGSIZE]
    omega
  rw [procPagefault]
  dsimp only
  rw [if_neg Bool.false_ne_true]
  dsimp only
  rw [hpg, if_pos hheap, VmInv.mapFresh_eq]

/-- A fault at a page of the mapped file. -/
theorem Kern.procPagefault_file {k : Kern} (hlo : 16 ≤ v) (hno : ¬ (k.proc p).Heap v)
    (hin : (k.proc p).Ranges v) (data : Page) :
    k.procPagefault p (v * PGSIZE) false data =
      (k.fillPage p (v * PGSIZE) data (PTE_R ||| PTE_U)).2 := by
  have hpg : v * PGSIZE / PGSIZE = v := Nat.mul_div_cancel _ (by decide)
  have hheap : ¬ (HEAPBASE ≤ v * PGSIZE ∧ v * PGSIZE < (k.proc p).heapTop) := fun hh =>
    hno ⟨hlo, hh.2⟩
  rw [procPagefault]
  dsimp only
  rw [if_neg Bool.false_ne_true]
  dsimp only
  rw [hpg, if_neg hheap, if_pos (hin.resolve_left hno), VmInv.mapFresh_eq]

namespace TameReach
variable {L : Layout} {k : Kern} {p : Slot}

theorem boot (hi : init.Fits) (hb : Kern.boot L m drivers init = some k) : TameReach L k :=
  ⟨m, drivers, init, k, [], hi, hb, trivial, rfl⟩

/-- `proc_sbrk` by a positive number of bytes, up to the devices at most. -/
theorem sbrk (hr : TameReach L k) (hp : k.Runs p) (n : Int32) (hn : 0 < n.toInt)
    (htop : (k.proc p).heapTop + n.toInt.toNat ≤ PLIC) :
    ∃ k', TameReach L k' ∧ k'.Runs p ∧ k'.phys = k.phys ∧ k'.nextPid = k.nextPid ∧
      (k'.proc p).heapTop = (k.proc p).heapTop + n.toInt.toNat ∧
      (∀ va, k'.pte p va = k.pte p va) ∧ ∀ q, q ≠ p → k'.proc q = k.proc q := by
  have hw := wrap64_of_le htop
  have hstep := hp.step_sbrk L n
  have hproc : (k.procSbrk p n).proc p =
      { k.proc p with heapTop := (k.proc p).heapTop + n.toInt.toNat } := by
    rw [Kern.procSbrk, if_pos hn, hw, Kern.setProc_self]
  have hphys : (k.procSbrk p n).phys = k.phys := by
    rw [Kern.procSbrk, if_pos hn, Kern.setProc_phys]
  refine ⟨k.procSbrk p n, hr.step (a := .sbrk n) (fun _ => htop) hstep, ?_, hphys, ?_, ?_,
    fun va => ?_, fun q hq => ?_⟩
  · exact hp.congr (by rw [hproc]) (by rw [hproc]) (by rw [hproc])
  · rw [Kern.procSbrk, if_pos hn]
    rfl
  · rw [hproc]
  · rw [Kern.pte, Kern.pte, hphys, hproc]
  · rw [Kern.procSbrk, if_pos hn]
    exact Kern.setProc_of_ne _ _ hq

/-- A load from a page of the heap that has no memory yet. -/
theorem touch (hr : TameReach L k) (hp : k.Runs p) (hv : (k.proc p).Heap v) :
    ∃ k', TameReach L k' ∧ k'.proc = k.proc ∧ k.phys.freecnt ≤ k'.phys.freecnt + 3 ∧
      k'.nextPid = k.nextPid ∧
      (∀ u, u < 2 ^ 27 → u ≠ v → k'.pte p (u * PGSIZE) = k.pte p (u * PGSIZE)) ∧
      (k'.phys.freecnt ≤ 1 ∨ k.pte p (v * PGSIZE) ≠ 0 ∧
          k'.pte p (v * PGSIZE) = k.pte p (v * PGSIZE) ∨
        ∃ n, k'.pte p (v * PGSIZE) = mkPte n 23) := by
  obtain ⟨g, h⟩ := hr.inv
  obtain ⟨hlo, hhi⟩ := h.heap_bounds hp.run hv
  have hlt : v < 2 ^ 27 := Nat.lt_trans hhi (by decide)
  have hstep : k.step L p (.fault (v * PGSIZE) false Page.zero) =
      some (k.fillPage p (v * PGSIZE) Page.zero (PTE_R ||| PTE_W ||| PTE_U)).2 := by
    rw [hp.step_fault, Kern.procPagefault_heap hv]
  have hr' := hr.step (a := .fault (v * PGSIZE) false Page.zero) trivial hstep
  have hnext : (k.fillPage p (v * PGSIZE) Page.zero (PTE_R ||| PTE_W ||| PTE_U)).2.nextPid =
      k.nextPid := by
    rw [Kern.fillPage]
    dsimp only
    split
    · rfl
    · split
      · rfl
      · rfl
  have hperm : PTE_R ||| PTE_W ||| PTE_U ||| PTE_V = 19 ∨ PTE_R ||| PTE_W ||| PTE_U ||| PTE_V = 23 :=
    .inr rfl
  obtain ⟨g', h', _, _, hproc, hcnt, hres⟩ := h.fillPage (v := ⟨v, hhi⟩) hp.table hp.idle hlo
    Page.zero hperm
  generalize k.fillPage p (v * PGSIZE) Page.zero (PTE_R ||| PTE_W ||| PTE_U) = w
    at hr' hnext h' hproc hcnt hres
  have hpt' : (w.2.proc p).pagetable ≠ 0 := by
    rw [hproc]
    exact hp.table
  have hpte {u : Nat} (hu : u < 2 ^ 27)
      (hs : ∀ x : UPage, x.val = u → Same k.phys g w.2.phys g' p x) :
      w.2.pte p (u * PGSIZE) = k.pte p (u * PGSIZE) := by
    rw [h'.pte_page hpt' hu, h.pte_page hp.table hu]
    exact h.lf_same h' hp.table hproc hs hu
  refine ⟨w.2, hr', hproc, hcnt, hnext, fun u hu hne => hpte hu fun x hx => ?_, ?_⟩
  · rcases hres with ⟨_, _, hsame⟩ | ⟨_, _, hsame, _⟩
    · exact hsame x
    · refine hsame x fun he => hne ?_
      rw [← hx, he]
  · rcases hres with ⟨_, ⟨_, hle⟩ | hne, hsame⟩ | ⟨_, _, _, n, _, hlf, _⟩
    · exact .inl hle
    · refine .inr (.inl ⟨?_, hpte hlt fun x _ => hsame x⟩)
      rw [h.pte_page hp.table hlt]
      exact hne
    · refine .inr (.inr ⟨n, ?_⟩)
      rw [h'.pte_page hpt' hlt]
      exact hlf

/-- Going through the heap from its start, page by page, until memory runs out. -/
theorem touchAll (hr : TameReach L k) (hp : k.Runs p) (htop : (k.proc p).heapTop = PLIC) (n : Nat)
    (hn : 16 + n ≤ 0xC000) :
    ∃ k', TameReach L k' ∧ k'.proc = k.proc ∧ k'.nextPid = k.nextPid ∧
      (∀ u, u < 16 → k'.pte p (u * PGSIZE) = k.pte p (u * PGSIZE)) ∧
      (k'.phys.freecnt ≤ 1 ∨ ∀ u, 16 ≤ u → u < 16 + n → k'.pte p (u * PGSIZE) ≠ 0) := by
  induction n with
  | zero => exact ⟨k, hr, rfl, rfl, fun _ _ => rfl, .inr fun u hlo hhi => by omega⟩
  | succ n ih =>
    obtain ⟨k₁, hr₁, hproc₁, hpid₁, hlow₁, hres⟩ := ih (by omega)
    rcases hres with hle | hall
    · exact ⟨k₁, hr₁, hproc₁, hpid₁, hlow₁, .inl hle⟩
    · have hp₁ : k₁.Runs p := hp.of_proc hproc₁
      have hv : (k₁.proc p).Heap (16 + n) := by
        rw [hproc₁]
        refine ⟨by omega, ?_⟩
        rw [htop]
        simp only [PGSIZE, PLIC]
        omega
      obtain ⟨k₂, hr₂, hproc₂, _, hpid₂, hsame, hres⟩ := hr₁.touch hp₁ hv
      refine ⟨k₂, hr₂, hproc₂.trans hproc₁, hpid₂.trans hpid₁, fun u hu => ?_, ?_⟩
      · exact (hsame u (by omega) (by omega)).trans (hlow₁ u hu)
      · rcases hres with hle | hres
        · exact .inl hle
        · refine .inr fun u hlo hhi => ?_
          by_cases hu : u = 16 + n
          · subst hu
            rcases hres with ⟨hne, he⟩ | ⟨m, he⟩
            · rw [he]
              exact hne
            · rw [he, mkPte]
              exact Nat.succ_ne_zero _
          · rw [hsame u (by omega) hu]
            exact hall u hlo (by omega)

/-- There are fewer pages than the heap may have. -/
theorem exhaust (hr : TameReach L k) (hp : k.Runs p) (htop : (k.proc p).heapTop = PLIC) :
    ∃ k', TameReach L k' ∧ k'.proc = k.proc ∧ k'.nextPid = k.nextPid ∧
      (∀ u, u < 16 → k'.pte p (u * PGSIZE) = k.pte p (u * PGSIZE)) ∧ k'.phys.freecnt ≤ 1 := by
  obtain ⟨k', hr', hproc, hpid, hlow, hle | hall⟩ := hr.touchAll hp htop (0xC000 - 16) (by decide)
  · exact ⟨k', hr', hproc, hpid, hlow, hle⟩
  · exfalso
    obtain ⟨g, h⟩ := hr'.inv
    have hpt : (k'.proc p).pagetable ≠ 0 := by
      rw [hproc]
      exact hp.table
    have hleaf (u : UPage) (hu : 16 ≤ u.val) : ∃ n, g.tgt (p, .leaf u) = some n := by
      have hne := hall u hu u.isLt
      rw [h.pte_page hpt (Nat.lt_trans u.isLt (by decide))] at hne
      rcases (h.vm.slot p).leaf u hu with ⟨hz, _⟩ | ⟨n, _, hn, _⟩
      · exact absurd hz hne
      · exact ⟨n, hn⟩
    let page : Nat → Nat := fun i =>
      if hi : 16 + i < 0xC000 then (g.tgt (p, .leaf ⟨16 + i, hi⟩)).getD 0 else 0
    have hpage (i : Nat) (hi : 16 + i < 0xC000) :
        g.tgt (p, .leaf ⟨16 + i, hi⟩) = some (page i) := by
      obtain ⟨n, hn⟩ := hleaf ⟨16 + i, hi⟩ (Nat.le_add_right 16 i)
      simp only [page, dif_pos hi, hn, Option.getD_some]
    have hmaps : ∀ i ∈ Finset.range 49136, page i ∈ Finset.Ico L.kend PHYSTOP := by
      intro i hi
      have hin := h.vm.alloc.bal.target _ _ (hpage i (by simp at hi; omega))
      exact Finset.mem_Ico.2 hin
    have hinj : Set.InjOn page (Finset.range 49136) := by
      intro i hi j hj he
      have hi' : 16 + i < 0xC000 := by simp at hi; omega
      have hj' : 16 + j < 0xC000 := by simp at hj; omega
      have hpi := hpage i hi'
      rw [he] at hpi
      have heq := (h.vm.slot p).inslot _ _ _ hpi (hpage j hj')
      have hval := congrArg Fin.val (SPos.leaf.inj heq)
      dsimp only at hval
      omega
    have hcard := Finset.card_le_card_of_injOn page hmaps hinj
    rw [Finset.card_range, Nat.card_Ico] at hcard
    have hp : PHYSTOP = 0x88000 := rfl
    have ht := L.text
    have hd := L.data
    omega

end TameReach

end KernelHobby
