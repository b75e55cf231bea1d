import KernelHobby.VmFork

namespace KernelHobby
set_option autoImplicit true

/-- What a step must keep to: the heap and a mapped file stay below the devices, the trap frame of
a fork lies in the stack page, and the segments of a program lie in the code page. -/
def Tame (k : Kern) (p : Slot) : Kern.Act → Prop
  | .sbrk n => 0 < n.toInt → (k.proc p).heapTop + n.toInt.toNat ≤ PLIC
  | .mmap (some (_, size)) => MMAPBASE + (size.toNat + PGSIZE - 1) % 2 ^ 32 / PGSIZE * PGSIZE ≤ PLIC
  | .fork f _ => FrameOk f
  | .exec (some img) => img.Fits
  | _ => True

/-- What an action of `p` does to the memory of the processes. -/
inductive Move (k : Kern) (g : Ghost) (p : Slot) (k' : Kern) (g' : Ghost) : Kern.Act → Prop where
  | store (st : SlotStep (· = p) k.phys g k'.phys g')
      (hr : Reaches g p (k.proc p) va PTE_W n) (hg : g' = g)
      (hk : k' = k.setPhys (k.phys.setMem (k.phys.mem.poke (n * PGSIZE + va % PGSIZE) b))) :
      Move k g p k' g' (.store va b)
  | sbrk (hg : g' = g) (hk : k' = k.procSbrk p n) : Move k g p k' g' (.sbrk n)
  | mmap (hg : g' = g) (hk : k' = k.procMmap p file) : Move k g p k' g' (.mmap file)
  | exit (hg : g' = g) (hk : k' = k.setProc p { k.proc p with state := .zombie }) :
      Move k g p k' g' .exit
  | waitNone (hc : k.zombieChild p = none) (hg : g' = g) (hk : k' = k) : Move k g p k' g' .wait
  | forkFull (hc : k.freeSlot = none) (hg : g' = g) (hk : k' = k) :
      Move k g p k' g' (.fork f sepc)
  | quiet (st : SlotStep (· = p) k.phys g k'.phys g') (hlost : g'.lost = g.lost)
      (ha : (∃ va w data, a = .fault va w data) ∨ a = .cowCopy ∨ a = .cowFree)
      (hproc : ∃ c, k'.proc = Function.update k.proc p { k.proc p with cow := c })
      (hsame : ∀ u, Same k.phys g k'.phys g' p u) : Move k g p k' g' a
  | fillHeap (st : SlotStep (· = p) k.phys g k'.phys g') (hlost : g'.lost = g.lost)
      (hproc : k'.proc = k.proc) (v : UPage) (hv : va / PGSIZE = v.val) (hin : (k.proc p).Heap v)
      (hfill : VmInv.Filled k g p v Page.zero 23 k' g') : Move k g p k' g' (.fault va w data)
  | fillFile (st : SlotStep (· = p) k.phys g k'.phys g') (hlost : g'.lost = g.lost)
      (hproc : k'.proc = k.proc) (v : UPage) (hv : va / PGSIZE = v.val)
      (hout : ¬ (k.proc p).Heap v) (hin : (k.proc p).Ranges v)
      (hfill : VmInv.Filled k g p v data 19 k' g') : Move k g p k' g' (.fault va w data)
  | cowMap (st : SlotStep (· = p) k.phys g k'.phys g') (hlost : g'.lost = g.lost)
      (hproc : ∃ c, k'.proc = Function.update k.proc p { k.proc p with cow := c }) (v : UPage)
      (hu : 16 ≤ v.val) (hold : g.tgt (p, .leaf v) = some old) (hlf : g.lf p v = mkPte old 275)
      (hsame : ∀ u, u ≠ v → Same k.phys g k'.phys g' p u)
      (hnew : g'.tgt (p, .leaf v) = some fresh) (hdata : k'.phys.mem fresh = k.phys.mem old)
      (hlf' : g'.lf p v = mkPte fresh 23) : Move k g p k' g' .cowMap
  | fork (c : Slot) (hc : k.freeSlot = some c) (hpc : p ≠ c)
      (st : SlotStep (Pair p c) k.phys g k'.phys g') (hf : Forked k g p c k' g') :
      Move k g p k' g' (.fork f sepc)
  | exec (st : SlotStep (· = p) k.phys g k'.phys g') (hl : img.loads = true)
      (he : VmInv.Execed k g p img k' g') : Move k g p k' g' (.exec (some img))
  | execFail (st : SlotStep (· = p) k.phys g k'.phys g')
      (hl : ∀ img, file = some img → img.loads = false) (hproc : k'.proc = k.proc)
      (hlost : g'.lost = g.lost) (hsame : ∀ u, Same k.phys g k'.phys g' p u) :
      Move k g p k' g' (.exec file)
  | reap (c : Slot) (hc : k.zombieChild p = some c)
      (st : SlotStep (· = c) k.phys g k'.phys g') (hnone : ∀ x, g'.tgt (c, x) = none)
      (hlost : ∀ n, (∀ v : UPage, ¬ (k.proc c).Ranges v → g.tgt (c, .leaf v) ≠ some n) →
        g'.lost n = g.lost n)
      (hk : k' = (k.procFreeimage c).setProc c
        { (k.procFreeimage c).proc c with parent := none, state := .unused }) :
      Move k g p k' g' .wait

namespace Kern

theorem update_other {k k' : Kern} {c : UProc} (hproc : k'.proc = Function.update k.proc p c) (r : Slot)
    (hr : r ≠ p) : k'.proc r = k.proc r := by
  rw [hproc]
  exact Function.update_of_ne hr _ _

theorem procSbrk_other (k : Kern) (n : Int32) (hr : r ≠ p) :
    (k.procSbrk p n).proc r = k.proc r := by
  rw [procSbrk]
  split
  · exact setProc_of_ne _ _ hr
  · rfl

theorem procMmap_other (k : Kern) (file : Option (UInt32 × UInt32)) (hr : r ≠ p) :
    (k.procMmap p file).proc r = k.proc r := by
  cases file with
  | none => rfl
  | some f => exact setProc_of_ne _ _ hr

theorem procSbrk_phys (k : Kern) (p : Slot) (n : Int32) : (k.procSbrk p n).phys = k.phys := by
  rw [procSbrk]
  split <;> rfl

theorem procMmap_phys (k : Kern) (p : Slot) (file : Option (UInt32 × UInt32)) :
    (k.procMmap p file).phys = k.phys := by
  cases file <;> rfl

theorem step_live {L : Layout} {k k' : Kern} (hs : k.step L p a = some k') :
    (k.proc p).state = .runnable ∧ (k.proc p).pagetable ≠ 0 := by
  by_contra hno
  unfold Kern.step at hs
  dsimp only at hs
  rw [if_neg hno] at hs
  cases hs

theorem procMmap_heapTop (k : Kern) (p : Slot) (file : Option (UInt32 × UInt32)) :
    ((k.procMmap p file).proc p).heapTop = (k.proc p).heapTop := by
  cases file with
  | none => rfl
  | some f => rw [procMmap, setProc_self]

theorem zombieChild_some {k : Kern} (hc : k.zombieChild p = some c) :
    (k.proc c).parent = some p ∧ (k.proc c).state = .zombie := by
  have h := List.find?_some hc
  exact of_decide_eq_true h

/-- A process that runs is not the one that is reaped. -/
theorem zombieChild_ne {k : Kern} (hc : k.zombieChild q = some c)
    (hrun : (k.proc p).state = .runnable) : p ≠ c := by
  rintro rfl
  rw [(zombieChild_some hc).2] at hrun
  cases hrun

end Kern

/-- A move of another process leaves one that runs as it was. -/
theorem Move.elsewhere {k k' : Kern} {g g' : Ghost} {p q : Slot} (hm : Move k g q k' g' a)
    (hq : p ≠ q) (hrun : (k.proc p).state = .runnable) :
    (∀ u, Same k.phys g k'.phys g' p u) ∧ k'.proc p = k.proc p := by
  cases hm with
  | store st hr hg hk =>
    subst hk
    exact ⟨st.same hq, rfl⟩
  | sbrk hg hk =>
    subst hg hk
    refine ⟨fun u => ?_, k.procSbrk_other _ hq⟩
    rw [Kern.procSbrk_phys]
    exact .refl ..
  | mmap hg hk =>
    subst hg hk
    refine ⟨fun u => ?_, k.procMmap_other _ hq⟩
    rw [Kern.procMmap_phys]
    exact .refl ..
  | exit hg hk =>
    subst hg hk
    exact ⟨fun u => .refl .., Kern.setProc_of_ne _ _ hq⟩
  | waitNone hc hg hk =>
    subst hg hk
    exact ⟨fun u => .refl .., rfl⟩
  | forkFull hc hg hk =>
    subst hg hk
    exact ⟨fun u => .refl .., rfl⟩
  | quiet st hlost ha hproc hsame =>
    obtain ⟨c, hproc⟩ := hproc
    exact ⟨st.same hq, Kern.update_other hproc p hq⟩
  | fillHeap st hlost hproc v hv hin hfill => exact ⟨st.same hq, congrFun hproc p⟩
  | fillFile st hlost hproc v hv hout hin hfill => exact ⟨st.same hq, congrFun hproc p⟩
  | cowMap st hlost hproc v hu hold hlf hsame hnew hdata hlf' =>
    obtain ⟨c, hproc⟩ := hproc
    exact ⟨st.same hq, Kern.update_other hproc p hq⟩
  | fork c hc hpc st hf =>
    obtain ⟨pt, us, f, hproc⟩ := hf.proc
    have hpc' := Kern.freeSlot_ne hc hrun
    exact ⟨st.same fun he => he.elim hq hpc', Kern.update_other hproc p hpc'⟩
  | exec st hl he => exact ⟨st.same hq, Kern.update_other he.proc p hq⟩
  | execFail st hl hproc hlost hsame => exact ⟨st.same hq, congrFun hproc p⟩
  | reap c hc st hnone hlost hk =>
    subst hk
    have hpc := Kern.zombieChild_ne hc hrun
    refine ⟨st.same hpc, ?_⟩
    rw [Kern.setProc_of_ne _ _ hpc]
    exact Kern.setProc_of_ne _ _ hpc

/-- How far the heap of a process reaches changes with `proc_sbrk` and a new program only. -/
theorem Move.heapTop {k k' : Kern} {g g' : Ghost} {p : Slot} (hm : Move k g p k' g' a)
    (hrun : (k.proc p).state = .runnable) (hexec : ∀ img, a = .exec (some img) → img.loads = false) :
    (k'.proc p).heapTop = (k.proc p).heapTop ∨
      ∃ n, a = .sbrk n ∧ 0 < n.toInt ∧
        (k'.proc p).heapTop = wrap64 ((k.proc p).heapTop + n.toInt.toNat) := by
  cases hm with
  | store st hr hg hk =>
    subst hk
    exact .inl rfl
  | sbrk hg hk =>
    rename_i n
    subst hk
    rw [Kern.procSbrk]
    split
    · rename_i hn
      rw [Kern.setProc_self]
      exact .inr ⟨n, rfl, hn, rfl⟩
    · exact .inl rfl
  | mmap hg hk =>
    subst hk
    exact .inl (k.procMmap_heapTop p _)
  | exit hg hk =>
    subst hk
    rw [Kern.setProc_self]
    exact .inl rfl
  | waitNone hc hg hk =>
    subst hk
    exact .inl rfl
  | forkFull hc hg hk =>
    subst hk
    exact .inl rfl
  | quiet st hlost ha hproc hsame =>
    obtain ⟨c, hproc⟩ := hproc
    rw [hproc, Function.update_self]
    exact .inl rfl
  | fillHeap st hlost hproc v hv hin hfill =>
    rw [hproc]
    exact .inl rfl
  | fillFile st hlost hproc v hv hout hin hfill =>
    rw [hproc]
    exact .inl rfl
  | cowMap st hlost hproc v hu hold hlf hsame hnew hdata hlf' =>
    obtain ⟨c, hproc⟩ := hproc
    rw [hproc, Function.update_self]
    exact .inl rfl
  | fork c hc hpc st hf =>
    obtain ⟨pt, us, f, hproc⟩ := hf.proc
    rw [Kern.update_other hproc p hpc]
    exact .inl rfl
  | exec st hl he => cases hl.symm.trans (hexec _ rfl)
  | execFail st hl hproc hlost hsame =>
    rw [hproc]
    exact .inl rfl
  | reap c hc st hnone hlost hk =>
    have hpc := Kern.zombieChild_ne hc hrun
    subst hk
    rw [Kern.setProc_of_ne _ _ hpc, Kern.procFreeimage, Kern.setProc_of_ne _ _ hpc]
    exact .inl rfl

namespace VmInv
variable {L : Layout} {k k' : Kern} {g : Ghost} {p : Slot}

theorem sbrk (h : VmInv L k g) (hrun : (k.proc p).state = .runnable)
    (ht : Tame k p (.sbrk n)) : VmInv L (k.procSbrk p n) g := by
  rw [Kern.procSbrk]
  split
  · rename_i hn
    have hl := h.linked p
    have hlive := hl.running hrun
    have htop := ht hn
    rw [wrap64_of_le htop]
    refine h.setProc _ ⟨hl.root, hl.ucode, hl.ustack, hl.kstack, hl.kern, hl.code, ?_, hl.cow, ?_,
      hl.mmap, hl.busy, hl.unused⟩
    · intro v hv
      exact hl.above v (Nat.le_trans (Nat.le_add_right _ _) hv)
    · intro _
      exact ⟨hlive.1, hlive.2.1, Nat.le_trans hlive.2.2.1 (Nat.le_add_right _ _), htop⟩
  · exact h

theorem mmap (h : VmInv L k g) (ht : Tame k p (.mmap file)) : VmInv L (k.procMmap p file) g := by
  cases file with
  | none => exact h
  | some fs =>
    obtain ⟨start, size⟩ := fs
    have hl := h.linked p
    refine h.setProc _ ⟨hl.root, hl.ucode, hl.ustack, hl.kstack, hl.kern, hl.code, hl.above, hl.cow,
      hl.live, .inr ⟨rfl, ht⟩, hl.busy, hl.unused⟩

theorem exit (h : VmInv L k g) (hrun : (k.proc p).state = .runnable)
    (hidle : (k.proc p).cow = .idle) :
    VmInv L (k.setProc p { k.proc p with state := .zombie }) g := by
  have hl := h.linked p
  have hlive := hl.running hrun
  refine h.setProc _ ⟨hl.root, hl.ucode, hl.ustack, hl.kstack, hl.kern, hl.code, hl.above, hl.cow,
    fun _ => hlive, hl.mmap, fun hne => absurd hidle hne, fun hun => ?_⟩
  cases hun

/-- The page of an address between the stack and the devices. -/
theorem user_vpn (hlo : HEAPBASE ≤ va / PGSIZE * PGSIZE) (hhi : va / PGSIZE * PGSIZE < PLIC) :
    16 ≤ va / PGSIZE ∧ va / PGSIZE < 0xC000 := by
  simp only [PGSIZE, HEAPBASE, PLIC] at hlo hhi ⊢
  omega

/-- A page of the heap or of the mapped file gets its memory. -/
theorem fill (h : VmInv L k g) (hpt : (k.proc p).pagetable ≠ 0)
    (hidle : (k.proc p).cow = .idle) (hlo : HEAPBASE ≤ va / PGSIZE * PGSIZE)
    (hhi : va / PGSIZE * PGSIZE < PLIC) (data : Page) (perm : Nat)
    (hf : perm ||| PTE_V = 19 ∨ perm ||| PTE_V = 23) :
    ∃ g' v, va / PGSIZE = v.val ∧ VmInv L (k.mapFresh p (va / PGSIZE * PGSIZE) data perm) g' ∧
      SlotStep (· = p) k.phys g (k.mapFresh p (va / PGSIZE * PGSIZE) data perm).phys g' ∧
      g'.lost = g.lost ∧ (k.mapFresh p (va / PGSIZE * PGSIZE) data perm).proc = k.proc ∧
      Filled k g p v data (perm ||| PTE_V) (k.mapFresh p (va / PGSIZE * PGSIZE) data perm) g' := by
  obtain ⟨hge, hlt⟩ := user_vpn hlo hhi
  obtain ⟨g', hg'⟩ := h.mapFresh (v := ⟨va / PGSIZE, hlt⟩) hpt hidle hge data hf
  exact ⟨g', ⟨va / PGSIZE, hlt⟩, rfl, hg'⟩

theorem fault (h : VmInv L k g) (hrun : (k.proc p).state = .runnable)
    (hpt : (k.proc p).pagetable ≠ 0) (hidle : (k.proc p).cow = .idle) (va : Nat) (w : Bool)
    (data : Page) : ∃ g', VmInv L (k.procPagefault p va w data) g' ∧
      Move k g p (k.procPagefault p va w data) g' (.fault va w data) := by
  have hl := h.linked p
  have hlive := hl.running hrun
  have hself : k.proc = Function.update k.proc p { k.proc p with cow := .idle } := by
    rw [cow_idle hidle, Function.update_eq_self]
  rw [Kern.procPagefault]
  dsimp only
  generalize hc : (if w then k.phys.cowEntry (k.proc p).pagetable (va / PGSIZE * PGSIZE) else none)
    = o
  cases o with
  | some e =>
    obtain ⟨loc, old⟩ := e
    have hentry : k.phys.cowEntry (k.proc p).pagetable (va / PGSIZE * PGSIZE) = some (loc, old) := by
      cases w with
      | false => cases hc
      | true => exact hc
    dsimp only
    by_cases hz : k.phys.kalloc.1 = 0
    · rw [if_pos hz]
      obtain ⟨hinv, hst, _, hsame⟩ := h.noPage (p := p) hz
      exact ⟨g, hinv, .quiet hst rfl (.inl ⟨va, w, data, rfl⟩) ⟨.idle, hself⟩ hsame⟩
    · rw [if_neg hz]
      obtain ⟨g', hinv, hst, hlost, hsame⟩ := h.cowGot hrun hpt hidle hentry hz
      exact ⟨g', hinv, .quiet hst hlost (.inl ⟨va, w, data, rfl⟩) ⟨_, rfl⟩ hsame⟩
  | none =>
    dsimp only
    split
    · rename_i hheap
      obtain ⟨g', v, hv, hinv, hst, hlost, hproc, hfill⟩ := h.fill hpt hidle hheap.1
        (Nat.lt_of_lt_of_le hheap.2 hlive.2.2.2) Page.zero (PTE_R ||| PTE_W ||| PTE_U) (.inr rfl)
      refine ⟨g', hinv, .fillHeap hst hlost hproc v hv ⟨?_, ?_⟩ hfill⟩
      · have h1 := hheap.1
        rw [hv] at h1
        simp only [HEAPBASE, PGSIZE] at h1
        omega
      · rw [← hv]
        exact hheap.2
    · rename_i hheap
      split
      · rename_i hmmap
        obtain ⟨hne, hlo, hhi⟩ := hmmap
        obtain ⟨hbase, hend⟩ := hl.mmap.resolve_left hne
        have hge : HEAPBASE ≤ va / PGSIZE * PGSIZE := by
          refine Nat.le_trans ?_ hlo
          rw [hbase]
          decide
        obtain ⟨g', v, hv, hinv, hst, hlost, hproc, hfill⟩ := h.fill hpt hidle hge
          (Nat.lt_of_lt_of_le hhi hend) data (PTE_R ||| PTE_U) (.inl rfl)
        rw [hv] at hlo hhi hheap hge
        refine ⟨g', hinv, .fillFile hst hlost hproc v hv (fun hin => hheap ⟨hge, hin.2⟩)
          (.inr ⟨hne, hlo, hhi⟩) hfill⟩
      · exact ⟨g, h, .quiet (.refl ..) rfl (.inl ⟨va, w, data, rfl⟩) ⟨.idle, hself⟩
          fun u => .refl ..⟩

/-- Every step keeps the references in order, and is one of the moves. -/
theorem move (h : VmInv L k g) (ht : Tame k p a) (hs : k.step L p a = some k') :
    ∃ g', VmInv L k' g' ∧ Move k g p k' g' a := by
  unfold Kern.step at hs
  dsimp only at hs
  by_cases hgo : (k.proc p).state = .runnable ∧ (k.proc p).pagetable ≠ 0
  · rw [if_pos hgo] at hs
    obtain ⟨hrun, hpt⟩ := hgo
    cases hcow : (k.proc p).cow with
    | idle =>
      rw [hcow] at hs
      cases a with
      | store va b =>
        obtain ⟨n, hr, hk, hinv, hst⟩ := h.userStore hpt hcow hs
        exact ⟨g, hinv, .store hst hr rfl hk⟩
      | sbrk n =>
        cases hs
        exact ⟨g, h.sbrk hrun ht, .sbrk rfl rfl⟩
      | mmap file =>
        cases hs
        exact ⟨g, h.mmap ht, .mmap rfl rfl⟩
      | fault va w data =>
        cases hs
        exact h.fault hrun hpt hcow va w data
      | cowCopy => cases hs
      | cowMap => cases hs
      | cowFree => cases hs
      | fork f sepc =>
        cases hc : k.freeSlot with
        | none =>
          have hk : k.procFork L p f sepc = some k := by
            rw [Kern.procFork, hc]
          have he : k = k' := Option.some.inj (hk.symm.trans hs)
          rw [← he]
          exact ⟨g, h, .forkFull hc rfl rfl⟩
        | some c =>
          obtain ⟨g', hpc, hinv, hst, hf⟩ := h.procFork hrun hpt hcow ht hc hs
          exact ⟨g', hinv, .fork c hc hpc hst hf⟩
      | exec file =>
        obtain ⟨g', hinv, hst, _, ⟨img, rfl, hl, hex⟩ | ⟨hl, hproc, hlost, hsame⟩⟩ :=
          h.procExec hrun hpt hcow (by
            rintro img rfl
            exact ht) hs
        · exact ⟨g', hinv, .exec hst hl hex⟩
        · exact ⟨g', hinv, .execFail hst hl hproc hlost hsame⟩
      | exit =>
        dsimp only at hs
        rw [← hcow] at hs
        cases hs
        exact ⟨g, h.exit hrun hcow, .exit rfl rfl⟩
      | wait =>
        dsimp only at hs
        cases hc : k.zombieChild p with
        | none =>
          rw [hc] at hs
          cases hs
          exact ⟨g, h, .waitNone hc rfl rfl⟩
        | some c =>
          rw [hc] at hs
          cases hs
          obtain ⟨g', hinv, hst, hnone, hlost, _, _⟩ := h.reap (Kern.zombieChild_some hc).2
          exact ⟨g', hinv, .reap c hc hst hnone hlost rfl⟩
    | got va loc fresh old =>
      rw [hcow] at hs
      cases a with
      | cowCopy =>
        cases hs
        obtain ⟨hinv, hst, hsame⟩ := h.cowCopy hcow
        exact ⟨g, hinv, .quiet hst rfl (.inr (.inl rfl)) ⟨_, rfl⟩ hsame⟩
      | _ => cases hs
    | copied va loc fresh old =>
      rw [hcow] at hs
      cases a with
      | cowMap =>
        cases hs
        obtain ⟨g', hinv, hst, hlost, v, hv, hsame, hnew, hdata, hlf⟩ := h.cowMap hcow
        exact ⟨g', hinv, .cowMap hst hlost ⟨_, rfl⟩ v hv.user hv.leaf hv.entry hsame hnew hdata hlf⟩
      | _ => cases hs
    | mapped va old =>
      rw [hcow] at hs
      cases a with
      | cowFree =>
        cases hs
        obtain ⟨g', hinv, hst, hlost, hsame⟩ := h.cowFree hcow
        exact ⟨g', hinv, .quiet hst hlost (.inr (.inr rfl)) ⟨_, rfl⟩ hsame⟩
      | _ => cases hs
  · rw [if_neg hgo] at hs
    cases hs

end VmInv

end KernelHobby
