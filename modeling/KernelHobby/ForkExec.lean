import KernelHobby.VmRoom

namespace KernelHobby
set_option autoImplicit true

/-- What a call that returns -1 leaves as it was: the process table, the page tables, the free list
and the counts. -/
structure Intact (k k' : Kern) : Prop where
  proc : k'.proc = k.proc
  pte : ∀ q, (k.proc q).pagetable ≠ 0 → ∀ va, k'.pte q va = k.pte q va
  free : ∀ fl, Chain k'.phys.mem k'.phys.freelist fl ↔ Chain k.phys.mem k.phys.freelist fl
  refcnt : k'.phys.refcnt = k.phys.refcnt

theorem Intact.refl (k : Kern) : Intact k k :=
  ⟨rfl, fun _ _ _ => rfl, fun _ => Iff.rfl, rfl⟩

/-- The entry of a page of the heap once it is shared: writable no more. -/
def cowPte (w : Nat) : Nat :=
  if w &&& PTE_W ≠ 0 then pa2pte (pte2pa w) ||| (pteFlags w &&& (0x3ff - PTE_W) ||| PTE_COW) else w

/-- A child as `proc_fork` should leave it: a copy of the stack up to the two words of the trap
frame, a page table of its own with all pages of the heap that its parent has. -/
structure Built (L : Layout) (k : Kern) (p c : Slot) (f : Nat) (k' : Kern) : Prop where
  proc : ∃ pt us, pt ≠ 0 ∧ us ≠ 0 ∧ k'.proc = Function.update k.proc c
    (k.childProc p c pt us f)
  stack : ∀ i, ¬ (f - USERSTACK + 64 ≤ i ∧ i < f - USERSTACK + 72) →
    ¬ (f - USERSTACK + 240 ≤ i ∧ i < f - USERSTACK + 248) →
    k'.phys.mem (k'.proc c).ustack i = k.phys.mem (k.proc p).ustack i
  table : ∀ u, u < 2 ^ 27 → ¬ (k.proc p).Heap u →
    k'.pte c (u * PGSIZE) = userPte L (k.proc p).ucode (k'.proc c).ustack u ∧
    k'.pte p (u * PGSIZE) = k.pte p (u * PGSIZE)
  heap : ∀ u, (k.proc p).Heap u →
    k'.pte c (u * PGSIZE) = cowPte (k.pte p (u * PGSIZE)) ∧
    k'.pte p (u * PGSIZE) = cowPte (k.pte p (u * PGSIZE))

namespace Kern

/-- What `proc_fork` returns, as an `int`. -/
def forkRet (k : Kern) : Int := if k.freeSlot = none then -1 else k.nextPid.bmod (2 ^ 32)

/-- `proc_fork` builds the whole child, or returns -1 with everything as before. -/
def ForkClean (L : Layout) (k : Kern) (p : Slot) (f sepc : Nat) : Prop :=
  ∃ k', k.procFork L p f sepc = some k' ∧ (k.forkRet = -1 ∧ Intact k k' ∨
    0 < k.forkRet ∧ ∃ c, k.freeSlot = some c ∧ Built L k p c f k')

/-- The new program: its page, which the process runs from, and neither heap nor mapped file. -/
structure Entered (k : Kern) (p : Slot) (img : ElfImage) (k' : Kern) : Prop where
  proc : ∃ code, code ≠ 0 ∧ k'.proc = Function.update k.proc p
    { k.proc p with heapTop := HEAPBASE, mmapBase := 0, ucode := code }
  code : k'.pte p USERVA = mkPte (k'.proc p).ucode 27
  data : k'.phys.mem (k'.proc p).ucode =
    (loadElf img (k'.proc p).ucode (k.phys.mem.setPage (k'.proc p).ucode Page.zero)).2
      (k'.proc p).ucode

/-- `proc_exec` enters the program that was read when `load_elf` takes it, and returns -1 with
everything as before else. -/
def ExecClean (k : Kern) (p : Slot) (file : Option ElfImage) : Prop :=
  ∃ k', k.procExec p file = some k' ∧
    (∀ img, file = some img → img.loads = true → Entered k p img k') ∧
    ((∀ img, file = some img → img.loads = false) → Intact k k')

/-- The pages that the child of `p` has in its page table. -/
def ForkMaps (L : Layout) (k : Kern) (p : Slot) (u : Nat) : Prop :=
  UserPages L u ∨ (k.proc p).Heap u ∧ k.pte p (u * PGSIZE) ≠ 0

/-- The nodes below the root that the page table of the child needs. -/
def forkNodes (L : Layout) (k : Kern) (p : Slot) : Set Node :=
  {x | ∃ u, k.ForkMaps L p u ∧ (x = .mid (ix2 u) ∨ x = .low (ix2 u) (ix1 u))}

/-- How many pages `proc_fork` takes: the child's stack, and its page table. -/
noncomputable def forkPages (L : Layout) (k : Kern) (p : Slot) : Nat :=
  2 + (k.forkNodes L p).ncard

theorem forkPages_nodes (L : Layout) (k : Kern) (p : Slot) :
    ∃ N : Finset Node, k.forkPages L p = 2 + N.card ∧ ∀ x, x ∈ N ↔ x ∈ k.forkNodes L p := by
  have hfin : (k.forkNodes L p).Finite := Set.toFinite _
  refine ⟨hfin.toFinset, ?_, fun x => hfin.mem_toFinset⟩
  rw [forkPages, Set.ncard_eq_toFinset_card _ hfin]

end Kern

namespace Spawned
variable {L : Layout} {k : Kern} {g e : Ghost} {p c : Slot}

/-- The stack and the nodes of the child are pages that were free. -/
theorem pages_le (sp : Spawned L k g p c pt s e) (h : VmInv L k g) {N : Finset Node}
    (hN : ∀ x ∈ N, e.tgt (nd c x) ≠ none) : 1 + N.card ≤ k.phys.freecnt := by
  have hin {x y : SPos} {n : Nat} (hx : e.tgt (c, x) = some n) (hy : e.tgt (c, y) = some n) :
      x = y := (sp.vm.slot c).inslot x y n hx hy
  let page : Node → Nat := fun x => (e.tgt (nd c x)).getD 0
  have hpage (x : Node) (hx : x ∈ N) : e.tgt (nd c x) = some (page x) := by
    cases ht : e.tgt (nd c x) with
    | none => exact absurd ht (hN x hx)
    | some n => simp only [page, ht, Option.getD_some]
  have hinj : Set.InjOn page N := by
    intro x hx y hy he
    have hx' := hpage x hx
    rw [he] at hx'
    cases hin hx' (hpage y hy)
    rfl
  have hus : k.phys.kalloc.1 ∉ N.image page := by
    intro hmem
    obtain ⟨x, hx, he⟩ := Finset.mem_image.1 hmem
    exact sp.fork.stack_not_node sp.vm c x (he ▸ hpage x hx)
  have hsub : insert k.phys.kalloc.1 (N.image page) ⊆ g.fl.toFinset := by
    intro n hn
    rw [List.mem_toFinset]
    rcases Finset.mem_insert.1 hn with rfl | hn
    · exact sp.fork.fresh
    · obtain ⟨x, hx, rfl⟩ := Finset.mem_image.1 hn
      exact sp.fork.node x _ (hpage x hx)
  have hcard : 1 + N.card = (insert k.phys.kalloc.1 (N.image page)).card := by
    rw [Finset.card_insert_of_notMem hus, Finset.card_image_of_injOn hinj, Nat.add_comm]
  calc 1 + N.card = (insert k.phys.kalloc.1 (N.image page)).card := hcard
    _ ≤ g.fl.toFinset.card := Finset.card_le_card hsub
    _ ≤ g.fl.length := List.toFinset_card_le _
    _ = k.phys.freecnt := h.vm.alloc.cnt.symm

end Spawned

theorem cowPte_leaf (hf : f = 19 ∨ f = 23 ∨ f = 275) :
    cowPte (mkPte n f) = mkPte n (if f = 23 then 275 else f) := by
  have hlt : f < 1024 := by omega
  have hw : mkPte n f &&& PTE_W = f &&& PTE_W := mkPte_and n hlt (by decide)
  rw [cowPte, hw, pte2pa_mkPte n hlt, pteFlags_mkPte n hlt]
  rcases hf with rfl | rfl | rfl
  · rfl
  · exact pa2pte_or n (by decide)
  · rfl

theorem userPte_ne (h : UserPages L u) : userPte L uc us u ≠ 0 := by
  rw [userPte]
  by_cases h4 : u = 4
  · rw [h4, Function.update_self, mkPte]
    exact Nat.succ_ne_zero _
  · rw [Function.update_of_ne h4]
    by_cases h1 : u = 1
    · rw [h1, Function.update_self, mkPte]
      exact Nat.succ_ne_zero _
    · rw [Function.update_of_ne h1]
      exact (h.resolve_right fun h => h.elim h1 h4)

theorem userPte_heap (L : Layout) (uc us : Nat) (hlo : 16 ≤ u) (hhi : u < 0xC000) :
    userPte L uc us u = 0 := by
  rw [userPte, Function.update_of_ne (by omega), Function.update_of_ne (by omega)]
  exact kernPte_low L hhi

namespace VmInv
variable {L : Layout} {k k' : Kern} {g e : Ghost} {p c : Slot}

theorem forkMaps (h : VmInv L k g) (hrun : (k.proc p).state = .runnable)
    (hpt : (k.proc p).pagetable ≠ 0) :
    k.ForkMaps L p u ↔ UserPages L u ∨ g.Has p (k.proc p).Heap u := by
  refine or_congr Iff.rfl (and_congr_right fun hu => ?_)
  have hb := h.heap_bounds hrun hu
  rw [h.pte_page hpt (Nat.lt_trans hb.2 (by decide))]

/-- A fork takes some fifteen hundred pages at most. -/
theorem forkPages_le (h : VmInv L k g) (hrun : (k.proc p).state = .runnable) :
    k.forkPages L p ≤ 1538 := by
  obtain ⟨N, hcard, hN⟩ := k.forkPages_nodes L p
  have hsub : N ⊆ kernNodes := by
    intro x hx
    obtain ⟨u, hu, he⟩ := (hN x).1 hx
    have hpath : PathIn kernNodes u := by
      rcases hu with hu | ⟨hu, _⟩
      · exact userPages_path hu
      · exact mem_kernNodes (.inl (Nat.lt_trans (h.heap_bounds hrun hu).2 (by decide)))
    rcases he with rfl | rfl
    · exact hpath.1
    · exact hpath.2
  have hle := (Finset.card_le_card hsub).trans kernNodes_card
  omega

/-- With the pages it takes, `proc_fork` gets through, and the child is whole. -/
theorem fork_room (h : VmInv L k g) (hrun : (k.proc p).state = .runnable)
    (hpt : (k.proc p).pagetable ≠ 0) (hc : k.freeSlot = some c)
    (hroom : k.forkPages L p ≤ k.phys.freecnt) (f sepc : Nat) :
    ∃ k' pt s₃ g₃, k.procFork L p f sepc = some k' ∧ p ≠ c ∧ k.phys.kalloc.1 ≠ 0 ∧
      Spawned L k g p c pt s₃ g₃ ∧ Whole L k g p c pt s₃ g₃ ∧
      k' = k.forkDone p c pt k.phys.kalloc.1 s₃ f sepc := by
  obtain ⟨N, hcard, hN⟩ := k.forkPages_nodes L p
  rw [hcard] at hroom
  have hcnt := h.vm.alloc.cnt
  have hcov (u : Nat) (hu : UserPages L u ∨ g.Has p (k.proc p).Heap u) : PathIn N u := by
    have hm := (h.forkMaps hrun hpt).2 hu
    exact ⟨(hN _).2 ⟨u, hm, .inl rfl⟩, (hN _).2 ⟨u, hm, .inr rfl⟩⟩
  have hz := h.vm.alloc.kalloc_room (by omega)
  have hun := Kern.freeSlot_unused hc
  have hpc : p ≠ c := by
    rintro rfl
    rw [hrun] at hun
    cases hun
  obtain ⟨g₁, h₁, f₁, _, hnode₁, _, _, hlen⟩ := h.forkPages hpc hrun hun hz
  have huc := (h₁.alloc.bal.target _ _ f₁.ucode).2
  have hus := (h₁.alloc.bal.target _ _ f₁.ustack).2
  rcases (h₁.emptyTab hnode₁).procPagetable L hnode₁ huc hus with ⟨_, _, hnil⟩ | ⟨_, hs⟩ |
    ⟨s₂, _, _, _, he, hne, _⟩
  · rw [hnil, List.length_nil] at hlen
    omega
  · have hle := hs N fun u hu => hcov u (.inl hu)
    omega
  · obtain ⟨s₃, hsh⟩ : ∃ s₃, Kern.shareHeap s₂ (k.proc p) _ = some s₃ := ⟨_, if_pos hne⟩
    obtain ⟨k', hk'⟩ := Kern.procFork_eq f sepc hc hz he hsh
    obtain ⟨_, g₃, sp⟩ := h.spawn hrun hpt hc hz he hsh
    obtain ⟨_, pt', s₂', s₃', he', hsh', hk⟩ := Kern.procFork_some hc hk'
    rw [he] at he'
    cases he'
    rw [hsh] at hsh'
    cases hsh'
    refine ⟨k', _, s₃, g₃, hk', hpc, hz, sp, sp.all.resolve_right ?_, hk⟩
    rintro ⟨_, hs⟩
    have hlt := hs N hcov
    omega

/-- Parent and child have the entries that a fork should give them. -/
theorem built (h : VmInv L k g) (hrun : (k.proc p).state = .runnable)
    (hpt : (k.proc p).pagetable ≠ 0) (hidle : (k.proc p).cow = .idle) (hf : FrameOk f)
    (hpc : p ≠ c) (hz : k.phys.kalloc.1 ≠ 0) (sp : Spawned L k g p c pt s₃ g₃)
    (hw : Whole L k g p c pt s₃ g₃)
    (hk' : k' = k.forkDone p c pt k.phys.kalloc.1 s₃ f sepc) : Built L k p c f k' := by
  obtain ⟨h', _, _⟩ := h.forked hrun hidle hf hpc hz sp hk'
  have hproc : k'.proc = Function.update k.proc c (k.childProc p c pt k.phys.kalloc.1 f) := by
    rw [hk']
    rfl
  have hcproc := congrFun hproc c
  rw [Function.update_self] at hcproc
  have hpproc := congrFun hproc p
  rw [Function.update_of_ne hpc] at hpproc
  have hcpt : (k'.proc c).pagetable ≠ 0 := by
    rw [hcproc]
    exact hw.root
  have hppt : (k'.proc p).pagetable ≠ 0 := by
    rw [hpproc]
    exact hpt
  have hus : (k'.proc c).ustack = k.phys.kalloc.1 := congrArg UProc.ustack hcproc
  refine ⟨⟨pt, k.phys.kalloc.1, hw.root, hz, hproc⟩, fun i h64 h240 => ?_, fun u hu hno => ⟨?_, ?_⟩,
    fun u hu => ?_⟩
  · have hst : g.tgt (p, .ustack) = some (k.proc p).ustack := by
      rw [(h.linked p).ustack]
      exact ptr_of_ne ((h.linked p).running hrun).2.1
    have hmem : k'.phys.mem = pokeFrame s₃.mem k.phys.kalloc.1 f sepc := by
      rw [hk']
      rfl
    rw [hus, hmem, pokeFrame_page _ hf (h.vm.alloc.kalloc_lt hz), if_neg h240, if_neg h64,
      sp.fork.copy _ hst]
  · rw [h'.pte_page hcpt hu, hus]
    exact hw.table u hno
  · rw [h'.pte_page hppt hu, h.pte_page hpt hu]
    rcases sp.plf u with he | ⟨hin, _⟩
    · exact he
    · exact absurd hin hno
  · obtain ⟨hlo, hhi⟩ := h.heap_bounds hrun hu
    have hlt : u < 2 ^ 27 := Nat.lt_trans hhi (by decide)
    obtain ⟨_, hc, hnw⟩ := hw.heap ⟨u, hhi⟩ hu
    rw [h'.pte_page hcpt hlt, h'.pte_page hppt hlt, h.pte_page hpt hlt]
    have he : g₃.lf p u = cowPte (g.lf p u) := by
      rcases (h.vm.slot p).leaf ⟨u, hhi⟩ hlo with ⟨h0, _⟩ | ⟨n, b, _, hlf, hb⟩
      · have h0 : g.lf p u = 0 := h0
        rcases sp.plf u with he | ⟨_, j, hj, _⟩
        · rw [he, h0]
          rfl
        · rw [h0, mkPte] at hj
          omega
      · have hlf : g.lf p u = mkPte n b := hlf
        have hnw : g₃.lf p u &&& PTE_W = 0 := hnw
        rw [hlf, cowPte_leaf hb]
        rcases sp.plf u with he | ⟨_, j, hj, hj'⟩
        · rw [he, hlf, mkPte_and n (by omega) (by decide)] at hnw
          rw [he, hlf, if_neg]
          rintro rfl
          cases hnw
        · rw [hlf, mkPte, mkPte] at hj
          have hb23 : b = 23 := by omega
          have hnj : n = j := by omega
          rw [hj', if_pos hb23, hnj]
    exact ⟨hc.trans he, he⟩

/-- A page that is mapped has its nodes. -/
theorem path_some (h : Vm kend s g) (hlf : g.lf c u ≠ 0) (hu : u < 2 ^ 27) :
    g.tgt (nd c (.mid (ix2 u))) ≠ none ∧ g.tgt (nd c (.low (ix2 u) (ix1 u))) ≠ none := by
  have hh := (h.slot c).holds
  cases hl : g.tgt (nd c (.low (ix2 u) (ix1 u))) with
  | none => exact absurd (hh.absent u hu hl) hlf
  | some l =>
    obtain ⟨n, hn⟩ := hh.low_mid hl
    have hn : g.tgt (nd c (.mid (ix2 u))) = some n := hn
    rw [hn]
    exact ⟨Option.some_ne_none n, Option.some_ne_none l⟩

theorem userPages_lt (hu : UserPages L u) : u < 2 ^ 27 := by
  have hp : PHYSTOP = 0x88000 := rfl
  have hr := L.ram
  have hd := L.data
  rcases hu with hu | hu | hu
  · by_contra hge
    apply hu
    rw [kernPte, if_neg (by omega), if_neg (by omega), if_neg (by omega)]
  · omega
  · omega

theorem userPages_heap (h : VmInv L k g) (hrun : (k.proc p).state = .runnable)
    (hu : UserPages L u) : ¬ (k.proc p).Heap u := by
  intro hin
  obtain ⟨hlo, hhi⟩ := h.heap_bounds hrun hin
  rcases hu with hu | hu | hu
  · exact hu (kernPte_low L hhi)
  · omega
  · omega

/-- A child that was built took all these pages. -/
theorem pages_of_built (h : VmInv L k g) (hrun : (k.proc p).state = .runnable)
    (hpt : (k.proc p).pagetable ≠ 0) (hidle : (k.proc p).cow = .idle) (hf : FrameOk f)
    (hpc : p ≠ c) (hz : k.phys.kalloc.1 ≠ 0) (sp : Spawned L k g p c pt s₃ g₃)
    (hk' : k' = k.forkDone p c pt k.phys.kalloc.1 s₃ f sepc) (hb : Built L k p c f k') :
    k.forkPages L p ≤ k.phys.freecnt := by
  obtain ⟨h', _, _⟩ := h.forked hrun hidle hf hpc hz sp hk'
  obtain ⟨pt', us', hne, _, hproc⟩ := hb.proc
  have hcproc := congrFun hproc c
  rw [Function.update_self] at hcproc
  have hcpt : (k'.proc c).pagetable ≠ 0 := by
    rw [hcproc]
    exact hne
  have hmap (u : Nat) (hu : k.ForkMaps L p u) : g₃.lf c u ≠ 0 ∧ u < 2 ^ 27 := by
    rcases hu with hu | ⟨hu, hpte⟩
    · have hlt := userPages_lt hu
      rw [← h'.pte_page hcpt hlt, (hb.table u hlt (h.userPages_heap hrun hu)).1]
      exact ⟨userPte_ne hu, hlt⟩
    · obtain ⟨hlo, hhi⟩ := h.heap_bounds hrun hu
      have hlt : u < 2 ^ 27 := Nat.lt_trans hhi (by decide)
      rw [← h'.pte_page hcpt hlt, (hb.heap u hu).1]
      rw [h.pte_page hpt hlt] at hpte ⊢
      rcases (h.vm.slot p).leaf ⟨u, hhi⟩ hlo with ⟨h0, _⟩ | ⟨n, b, _, hlf, hb⟩
      · exact absurd h0 hpte
      · have hlf : g.lf p u = mkPte n b := hlf
        rw [hlf, cowPte_leaf hb, mkPte]
        refine ⟨?_, hlt⟩
        split <;> omega
  obtain ⟨N, hcard, hN⟩ := k.forkPages_nodes L p
  have hroot : Node.root ∉ N := by
    intro hr
    obtain ⟨u, _, he | he⟩ := (hN _).1 hr
    · cases he
    · cases he
  have hle := sp.pages_le h (N := insert .root N) fun x hx => by
    rcases Finset.mem_insert.1 hx with rfl | hx
    · rw [h'.root hcpt]
      exact Option.some_ne_none _
    · obtain ⟨u, hu, he⟩ := (hN x).1 hx
      obtain ⟨hlf, hlt⟩ := hmap u hu
      obtain ⟨hmid, hlow⟩ := path_some sp.vm hlf hlt
      rcases he with rfl | rfl
      · exact hmid
      · exact hlow
  rw [Finset.card_insert_of_notMem hroot] at hle
  omega

/-- `proc_fork` is clean exactly when it finds no slot, or the pages for the whole child. -/
theorem forkClean (h : VmInv L k g) (hrun : (k.proc p).state = .runnable)
    (hpt : (k.proc p).pagetable ≠ 0) (hidle : (k.proc p).cow = .idle) (hf : FrameOk f) :
    k.ForkClean L p f sepc ↔ k.freeSlot = none ∨
      0 < k.nextPid.bmod (2 ^ 32) ∧ k.forkPages L p ≤ k.phys.freecnt := by
  cases hc : k.freeSlot with
  | none =>
    refine ⟨fun _ => .inl rfl, fun _ => ⟨k, ?_, .inl ⟨if_pos hc, .refl k⟩⟩⟩
    rw [Kern.procFork, hc]
  | some c =>
    have hret : k.forkRet = k.nextPid.bmod (2 ^ 32) := by
      rw [Kern.forkRet, hc]
      exact if_neg (Option.some_ne_none c)
    constructor
    · rintro ⟨k', hs, hres⟩
      right
      obtain ⟨hz, pt, s₂, s₃, htab, hsh, hk'⟩ := Kern.procFork_some hc hs
      obtain ⟨hpc, g₃, sp⟩ := h.spawn hrun hpt hc hz htab hsh
      rcases hres with ⟨_, hin⟩ | ⟨hpos, c', hc', hb⟩
      · have hst : (k'.proc c).state = .runnable := by
          rw [hk']
          exact congrArg UProc.state (Kern.setProc_self ..)
        rw [hin.proc, Kern.freeSlot_unused hc] at hst
        cases hst
      · cases hc.symm.trans hc'
        exact ⟨hret ▸ hpos, h.pages_of_built hrun hpt hidle hf hpc hz sp hk' hb⟩
    · rintro (hno | ⟨hpos, hroom⟩)
      · cases hno
      · obtain ⟨k', pt, s₃, g₃, hs, hpc, hz, sp, hw, hk'⟩ := h.fork_room hrun hpt hc hroom f sepc
        exact ⟨k', hs, .inr ⟨hret ▸ hpos, c, hc, h.built hrun hpt hidle hf hpc hz sp hw hk'⟩⟩

/-- A file that `load_elf` does not take leaves everything as it was. -/
theorem execIntact (h : VmInv L k g) (hrun : (k.proc p).state = .runnable)
    (hpt : (k.proc p).pagetable ≠ 0) (hidle : (k.proc p).cow = .idle) {img : ElfImage}
    (hfit : img.Fits) (hl : img.loads = false) (hs : k.procExec p (some img) = some k') :
    Intact k k' := by
  have hfits : ∀ i, some img = some i → i.Fits := fun i hi => Option.some.inj hi ▸ hfit
  obtain ⟨g', h', hst, _, ⟨_, he, hl', _⟩ | ⟨_, hproc, _, hsame⟩⟩ :=
    h.procExec hrun hpt hidle hfits hs
  · cases he
    rw [hl] at hl'
    cases hl'
  · rw [Kern.procExec] at hs
    by_cases hz : k.phys.kalloc.1 = 0
    · simp [hz] at hs
    · simp only [hz, if_false, loadElf_fst, hl, Bool.not_false, if_true] at hs
      obtain ⟨hchain, hrc⟩ := h.vm.alloc.kfree_kalloc hz (m := (loadElf img k.phys.kalloc.1
        (k.phys.kalloc.2.mem.setPage k.phys.kalloc.1 Page.zero)).2) fun j hj => by
          rw [loadElf_other img hfit (h.vm.alloc.kalloc_lt hz) hj, Mem.setPage_of_ne _ _ hj,
            k.phys.kalloc_mem]
      have hphys := congrArg Kern.phys (Option.some.inj hs)
      dsimp only [Kern.setPhys] at hphys
      rw [hphys] at hchain hrc
      refine ⟨hproc, fun q hq va => ?_, fun fl => ⟨fun hc => ?_, fun hc => ?_⟩, hrc⟩
      · have hq' : (k'.proc q).pagetable ≠ 0 := by
          rw [hproc]
          exact hq
        rw [h.pte hq, h'.pte hq']
        by_cases hqp : q = p
        · subst hqp
          exact h.lf_same h' hq hproc (fun v _ => hsame v) (vpn_lt va)
        · rw [hst.lf q hqp]
      · rw [hc.unique hchain]
        exact h.vm.alloc.chain
      · rw [hc.unique h.vm.alloc.chain]
        exact hchain

/-- `proc_exec` is clean exactly when there is no file, or a page for its program. -/
theorem execClean (h : VmInv L k g) (hrun : (k.proc p).state = .runnable)
    (hpt : (k.proc p).pagetable ≠ 0) (hidle : (k.proc p).cow = .idle)
    (hcode : k.pte p USERVA ≠ 0) {file : Option ElfImage}
    (hfit : ∀ img, file = some img → img.Fits) :
    k.ExecClean p file ↔ file = none ∨ 0 < k.phys.freecnt := by
  cases file with
  | none =>
    refine ⟨fun _ => .inl rfl, fun _ => ⟨k, rfl, fun img hi => ?_, fun _ => .refl k⟩⟩
    cases hi
  | some img =>
    by_cases hz : k.phys.kalloc.1 = 0
    · have hzero : ¬ 0 < k.phys.freecnt := fun hpos => h.vm.alloc.kalloc_room hpos hz
      have hnone : k.procExec p (some img) = none := by
        simp [Kern.procExec, hz]
      constructor
      · rintro ⟨k', hs, _⟩
        rw [hnone] at hs
        cases hs
      · rintro (hno | hpos)
        · cases hno
        · exact absurd hpos hzero
    · have hpos : 0 < k.phys.freecnt := by
        rw [h.vm.alloc.cnt]
        exact List.length_pos_of_mem (h.vm.alloc.kalloc_free hz)
      obtain ⟨k', hs⟩ : ∃ k', k.procExec p (some img) = some k' := by
        simp only [Kern.procExec, hz, if_false]
        split
        · exact ⟨_, rfl⟩
        · exact ⟨_, rfl⟩
      refine ⟨fun _ => .inr hpos, fun _ => ⟨k', hs, fun i hi hl => ?_, fun hl => ?_⟩⟩
      · cases hi
        obtain ⟨g', h', _, _, ⟨i, he, _, hex⟩ | ⟨hno, _⟩⟩ := h.procExec hrun hpt hidle hfit hs
        · cases he
          have hproc := congrFun hex.proc p
          rw [Function.update_self] at hproc
          have huc : (k'.proc p).ucode = k.phys.kalloc.1 := congrArg UProc.ucode hproc
          have hpt' : (k'.proc p).pagetable ≠ 0 := by
            rw [hproc]
            exact hpt
          refine ⟨⟨_, hz, hex.proc⟩, ?_, ?_⟩
          · rw [h'.pte hpt', huc]
            rw [h.pte hpt] at hcode
            exact hex.code hcode
          · rw [huc, hex.data, k.phys.kalloc_mem]
        · rw [hno img rfl] at hl
          cases hl
      · exact h.execIntact hrun hpt hidle (hfit img rfl) (hl img rfl) hs

end VmInv

/-- A fork with pages enough for any child. -/
theorem TameReach.fork {L : Layout} {k : Kern} {p c : Slot} (hr : TameReach L k) (hp : k.Runs p)
    (hc : k.freeSlot = some c) (hroom : 1538 ≤ k.phys.freecnt) (hf : FrameOk f) (sepc : Nat) :
    ∃ k', TameReach L k' ∧ k.procFork L p f sepc = some k' ∧ p ≠ c ∧ k'.Runs p ∧
      Built L k p c f k' ∧ k.phys.freecnt ≤ k'.phys.freecnt + 1538 ∧
      k'.phys.failed = k.phys.failed := by
  obtain ⟨g, h⟩ := hr.inv
  have hle := h.forkPages_le (p := p) hp.run
  obtain ⟨k', pt, s₃, g₃, hs, hpc, hz, sp, hw, hk'⟩ := h.fork_room hp.run hp.table hc
    (Nat.le_trans hle hroom) f sepc
  have hstep := hp.step_fork L hs
  have hpproc : k'.proc p = k.proc p := by
    rw [hk']
    exact Kern.setProc_of_ne _ _ hpc
  refine ⟨k', hr.step (a := .fork f sepc) hf hstep, hs, hpc, ?_,
    h.built hp.run hp.table hp.idle hf hpc hz sp hw hk', ?_, ?_⟩
  · exact hp.congr (by rw [hpproc]) (by rw [hpproc]) (by rw [hpproc])
  · obtain ⟨N, hcard, hN⟩ := k.forkPages_nodes L p
    have hcount := sp.count N fun u hu => by
      have hm := (h.forkMaps hp.run hp.table).2 hu
      exact ⟨(hN _).2 ⟨u, hm, .inl rfl⟩, (hN _).2 ⟨u, hm, .inr rfl⟩⟩
    have hcnt := h.vm.alloc.cnt
    have hcnt' : k'.phys.freecnt = g₃.fl.length := by
      rw [hk']
      exact sp.vm.alloc.cnt
    omega
  · rw [hk']
    exact hw.failed

/-- The shell with one page of heap, which it has touched. -/
theorem smallKernel_heap : ∃ k, TameReach smallKernel k ∧ k.Runs .shell ∧
    (k.proc .shell).heapTop = HEAPBASE + PGSIZE ∧ (∃ n, k.pte .shell (16 * PGSIZE) = mkPte n 23) ∧
    (∃ c, k.freeSlot = some c) ∧ 27000 < k.phys.freecnt := by
  obtain ⟨k, pt, code, us, ks, hb, hs, hcnt⟩ := smallKernel_boot
  obtain ⟨k₁, hr₁, hrun₁, hphys₁, _, htop₁, hpte₁, hother₁⟩ :=
    (TameReach.boot spinElf_fits hb).sbrk hs.runs 4096 (by decide) (by
      rw [hs.top]
      decide)
  have htop : (k₁.proc .shell).heapTop = HEAPBASE + PGSIZE := by
    rw [htop₁, hs.top]
    rfl
  have hheap : (k₁.proc .shell).Heap 16 := by
    refine ⟨Nat.le_refl 16, ?_⟩
    rw [htop]
    decide
  have hzero : k₁.pte .shell (16 * PGSIZE) = 0 := by
    rw [hpte₁, hs.pte]
    exact userPte_heap smallKernel code us (by decide) (by decide)
  obtain ⟨k₂, hr₂, hproc₂, hcnt₂, _, _, hres⟩ := hr₁.touch hrun₁ hheap
  have hcnt₁ : k₁.phys.freecnt = k.phys.freecnt := congrArg Phys.freecnt hphys₁
  obtain ⟨q, hq⟩ : ∃ q : Slot, q ≠ .shell := ⟨⟨1, by decide⟩, by decide⟩
  refine ⟨k₂, hr₂, hrun₁.of_proc hproc₂, ?_, ?_, Kern.freeSlot_some (q := q) ?_, by omega⟩
  · rw [hproc₂]
    exact htop
  · rcases hres with hle | ⟨hne, _⟩ | hn
    · omega
    · exact absurd hzero hne
    · exact hn
  · rw [hproc₂, hother₁ q hq]
    exact hs.unused hq

/-- Fork and exec fail cleanly exactly when there is memory enough, or they stop before they need
any. -/
theorem fork_exec_clean_iff (hr : TameReach L k) (hrun : (k.proc p).state = .runnable)
    (hpt : (k.proc p).pagetable ≠ 0) (hidle : (k.proc p).cow = .idle)
    (hcode : k.pte p USERVA ≠ 0) (hf : FrameOk f)
    (hfit : ∀ img, file = some img → img.Fits) :
    (k.ForkClean L p f sepc ↔ k.freeSlot = none ∨
      0 < k.nextPid.bmod (2 ^ 32) ∧ k.forkPages L p ≤ k.phys.freecnt) ∧
    (k.ExecClean p file ↔ file = none ∨ 0 < k.phys.freecnt) := by
  obtain ⟨g, h⟩ := hr.inv
  exact ⟨h.forkClean hrun hpt hidle hf, h.execClean hrun hpt hidle hcode hfit⟩

/-- The first fork of the shell, and its first exec. -/
theorem fork_exec_clean_boot : ∃ k, Kern.boot smallKernel (fun _ => Page.zero) 18 spinElf = some k ∧
    k.ForkClean smallKernel .shell (USERSTACKTOP - 256) USERVA ∧
    k.ExecClean .shell (some spinElf) := by
  obtain ⟨k, pt, code, us, ks, hb, hs, hcnt⟩ := smallKernel_boot
  have hr := TameReach.boot spinElf_fits hb
  obtain ⟨g, h⟩ := hr.inv
  have hrun := hs.runs
  have hcode : k.pte .shell USERVA ≠ 0 := by
    rw [hs.pte]
    exact userPte_ne (.inr (.inl rfl))
  have hfits : ∀ img, some spinElf = some img → img.Fits := by
    intro img he
    cases he
    exact spinElf_fits
  obtain ⟨hfork, hexec⟩ : (k.ForkClean smallKernel .shell (USERSTACKTOP - 256) USERVA ↔ _) ∧
      (k.ExecClean .shell (some spinElf) ↔ _) :=
    fork_exec_clean_iff hr hrun.run hrun.table hrun.idle hcode ⟨by decide, by decide⟩ hfits
  refine ⟨k, hb, hfork.2 (.inr ⟨?_, ?_⟩), hexec.2 (.inr (by omega))⟩
  · rw [hs.pid]
    decide
  · have hle := h.forkPages_le hrun.run
    omega

/-- A program that uses up its heap, and the fork after that. -/
theorem fork_without_memory : ∃ k, TameReach smallKernel k ∧ (k.Runs .shell) ∧
    k.pte .shell USERVA ≠ 0 ∧ FrameOk (USERSTACKTOP - 256) ∧
    ¬ k.ForkClean smallKernel .shell (USERSTACKTOP - 256) USERVA := by
  obtain ⟨k, pt, code, us, ks, hb, hs, _⟩ := smallKernel_boot
  obtain ⟨k₁, hr₁, hrun₁, _, _, htop₁, hpte₁, hother⟩ := (TameReach.boot spinElf_fits hb).sbrk
    hs.runs 0xbff0000 (by decide) (by
      rw [hs.top]
      decide)
  obtain ⟨k', hr', hproc, _, hlow, hle⟩ := hr₁.exhaust hrun₁ (by
    rw [htop₁, hs.top]
    decide)
  have hrun' : k'.Runs .shell := hrun₁.of_proc hproc
  refine ⟨k', hr', hrun', ?_, ⟨by decide, by decide⟩, ?_⟩
  · have hpte : k'.pte .shell (1 * PGSIZE) ≠ 0 := by
      rw [hlow 1 (by decide), hpte₁, hs.pte]
      exact userPte_ne (.inr (.inl rfl))
    exact hpte
  · obtain ⟨g, h⟩ := hr'.inv
    rw [h.forkClean hrun'.run hrun'.table hrun'.idle ⟨by decide, by decide⟩]
    rintro (hno | ⟨_, hroom⟩)
    · obtain ⟨q, hq⟩ : ∃ q : Slot, q ≠ .shell := ⟨⟨1, by decide⟩, by decide⟩
      have hfree : (k'.proc q).state = .unused := by
        rw [hproc, hother q hq]
        exact hs.unused hq
      obtain ⟨c, hc⟩ := Kern.freeSlot_some hfree
      rw [hno] at hc
      cases hc
    · rw [Kern.forkPages] at hroom
      omega

end KernelHobby
