import KernelHobby.ForkExec

namespace KernelHobby
set_option autoImplicit true

/-- `proc_mmap` keeps to this: a page that is mapped for the process stays in its heap or in the
mapping of its file. -/
def Tidy (k : Kern) (p : Slot) : Kern.Act → Prop
  | .mmap file => ∀ v : UPage, (k.proc p).Ranges v → k.pte p (v * PGSIZE) &&& PTE_V ≠ 0 →
      ((k.procMmap p file).proc p).Ranges v
  | _ => True

/-- Every `proc_mmap` of the run keeps to it. -/
def TidyRun (L : Layout) (k : Kern) : List (Slot × Kern.Act) → Prop
  | [] => True
  | (p, a) :: as => Tidy k p a ∧ ∀ k', k.step L p a = some k' → TidyRun L k' as

/-- The slots that are unused when a process calls `proc_fork`: its child gets one of them, and so do
the descendants of the child. -/
def Kern.Family (k₀ : Kern) (q : Slot) : Prop := (k₀.proc q).state = .unused

/-- The descendants of the child do as they like; its parent forks, and waits. -/
def FamilyAct (k₀ : Kern) (p : Slot) (q : Slot) (a : Kern.Act) : Prop :=
  k₀.Family q ∨ q = p ∧ (a = .wait ∨ ∃ f sepc, a = .fork f sepc)

/-- No process that has exited already waits for `p`, or for a process that is no more. -/
def NoZombie (k₀ : Kern) (p : Slot) : Prop :=
  ∀ q r, (k₀.proc q).state = .zombie → (k₀.proc q).parent = some r → r ≠ p ∧ ¬ k₀.Family r

/-- What is outside of the family is as it was. -/
structure Outside (k₀ : Kern) (g₀ : Ghost) (k : Kern) (g : Ghost) : Prop where
  tgt : ∀ q x, ¬ k₀.Family q → g.tgt (q, x) = g₀.tgt (q, x)
  proc : ∀ q, ¬ k₀.Family q → k.proc q = k₀.proc q

/-- In the family every mapped page is in the heap or in the mapping of the file. -/
structure Tracked (k₀ : Kern) (g₀ : Ghost) (k : Kern) (g : Ghost) : Prop where
  lost : g.lost = g₀.lost
  mapped : ∀ q (v : UPage), k₀.Family q → g.tgt (q, .leaf v) ≠ none → (k.proc q).Ranges v

namespace Outside
variable {k₀ k k' : Kern} {g₀ g g' : Ghost} {p q : Slot}

theorem free_family (h : Outside k₀ g₀ k g) (hc : k.freeSlot = some c) : k₀.Family c := by
  by_contra hno
  have hun := Kern.freeSlot_unused hc
  rw [h.proc c hno] at hun
  exact hno hun

theorem zombie_family (h : Outside k₀ g₀ k g) (hz : NoZombie k₀ p) (hact : FamilyAct k₀ p q a)
    (hc : k.zombieChild q = some c) : k₀.Family c := by
  obtain ⟨hparent, hstate⟩ := Kern.zombieChild_some hc
  by_contra hno
  rw [h.proc c hno] at hparent hstate
  obtain ⟨hne, hout⟩ := hz c q hstate hparent
  rcases hact with hin | ⟨rfl, _⟩
  · exact hout hin
  · exact hne rfl

/-- A step of one member of the family. -/
theorem one (h : Outside k₀ g₀ k g) (hq : k₀.Family q)
    (st : SlotStep (· = q) k.phys g k'.phys g') (hproc : ∀ r, r ≠ q → k'.proc r = k.proc r) :
    Outside k₀ g₀ k' g' where
  tgt r x hr := (st.tgt r x fun he => hr (he ▸ hq)).trans (h.tgt r x hr)
  proc r hr := (hproc r fun he => hr (he ▸ hq)).trans (h.proc r hr)

/-- A step that refers to the same pages. -/
theorem still (h : Outside k₀ g₀ k g) (hq : k₀.Family q) (hg : g' = g)
    (hproc : ∀ r, r ≠ q → k'.proc r = k.proc r) : Outside k₀ g₀ k' g' where
  tgt r x hr := by
    rw [hg]
    exact h.tgt r x hr
  proc r hr := (hproc r fun he => hr (he ▸ hq)).trans (h.proc r hr)

end Outside

/-- A move of the family leaves what is outside as it was. -/
theorem Outside.step (h : Outside k₀ g₀ k g) (hz : NoZombie k₀ p) (hact : FamilyAct k₀ p q a)
    (hm : Move k g q k' g' a) : Outside k₀ g₀ k' g' := by
  have hmem (hw : a ≠ .wait) (hf : ∀ f sepc, a ≠ .fork f sepc) : k₀.Family q := by
    rcases hact with hin | ⟨_, rfl | ⟨f, sepc, rfl⟩⟩
    · exact hin
    · exact absurd rfl hw
    · exact absurd rfl (hf f sepc)
  cases hm with
  | store st hr hg hk =>
    subst hk
    exact h.one (hmem Kern.Act.noConfusion fun _ _ => Kern.Act.noConfusion) st fun _ _ => rfl
  | sbrk hg hk =>
    subst hk
    exact h.still (hmem Kern.Act.noConfusion fun _ _ => Kern.Act.noConfusion) hg
      fun r hr => k.procSbrk_other _ hr
  | mmap hg hk =>
    subst hk
    exact h.still (hmem Kern.Act.noConfusion fun _ _ => Kern.Act.noConfusion) hg
      fun r hr => k.procMmap_other _ hr
  | exit hg hk =>
    subst hk
    exact h.still (hmem Kern.Act.noConfusion fun _ _ => Kern.Act.noConfusion) hg
      fun r hr => Kern.setProc_of_ne _ _ hr
  | waitNone hc hg hk =>
    subst hk hg
    exact h
  | forkFull hc hg hk =>
    subst hk hg
    exact h
  | quiet st hlost ha hproc hsame =>
    obtain ⟨c, hproc⟩ := hproc
    refine h.one (hmem ?_ ?_) st (Kern.update_other hproc)
    · rcases ha with ⟨va, w, data, rfl⟩ | rfl | rfl <;> exact Kern.Act.noConfusion
    · intro f sepc
      rcases ha with ⟨va, w, data, rfl⟩ | rfl | rfl <;> exact Kern.Act.noConfusion
  | fillHeap st hlost hproc v hv hin hfill =>
    exact h.one (hmem Kern.Act.noConfusion fun _ _ => Kern.Act.noConfusion) st
      fun r _ => congrFun hproc r
  | fillFile st hlost hproc v hv hout hin hfill =>
    exact h.one (hmem Kern.Act.noConfusion fun _ _ => Kern.Act.noConfusion) st
      fun r _ => congrFun hproc r
  | cowMap st hlost hproc v hu hold hlf hsame hnew hdata hlf' =>
    obtain ⟨c, hproc⟩ := hproc
    exact h.one (hmem Kern.Act.noConfusion fun _ _ => Kern.Act.noConfusion) st
      (Kern.update_other hproc)
  | fork c hc hpc st hf =>
    have hcf := h.free_family hc
    obtain ⟨pt, us, f, hproc⟩ := hf.proc
    constructor
    · intro r x hr
      rw [← h.tgt r x hr]
      by_cases hrq : r = q
      · rw [hrq]
        exact hf.tgt x
      · apply st.tgt
        rintro (he | rfl)
        · exact hrq he
        · exact hr hcf
    · intro r hr
      rw [← h.proc r hr]
      exact Kern.update_other hproc r fun he => hr (he ▸ hcf)
  | exec st hl he =>
    exact h.one (hmem Kern.Act.noConfusion fun _ _ => Kern.Act.noConfusion) st
      (Kern.update_other he.proc)
  | execFail st hl hproc hlost hsame =>
    exact h.one (hmem Kern.Act.noConfusion fun _ _ => Kern.Act.noConfusion) st
      fun r _ => congrFun hproc r
  | reap c hc st hnone hlost hk =>
    subst hk
    refine h.one (h.zombie_family hz hact hc) st fun r hr => ?_
    rw [Kern.setProc_of_ne _ _ hr]
    exact Kern.setProc_of_ne _ _ hr

namespace UProc
variable {q : UProc}

/-- The heap grows. -/
theorem Ranges.grow (h : q.Ranges u) (hle : q.heapTop ≤ t) : { q with heapTop := t }.Ranges u := by
  rcases h with ⟨hlo, hhi⟩ | hm
  · exact .inl ⟨hlo, Nat.lt_of_lt_of_le hhi hle⟩
  · exact .inr hm

end UProc

/-- Pages that stay mapped where they were. -/
theorem Tracked.keep (h : Tracked k₀ g₀ k g) (hlost : g'.lost = g.lost)
    (hmapped : ∀ q (v : UPage), k₀.Family q → g'.tgt (q, .leaf v) ≠ none →
      g.tgt (q, .leaf v) ≠ none)
    (hranges : ∀ q (v : UPage), k₀.Family q → (k.proc q).Ranges v → (k'.proc q).Ranges v) :
    Tracked k₀ g₀ k' g' where
  lost := hlost.trans h.lost
  mapped q v hq hv := hranges q v hq (h.mapped q v hq (hmapped q v hq hv))

/-- Only process `p` gets other pages. -/
theorem Tracked.one (h : Tracked k₀ g₀ k g) (hlost : g'.lost = g.lost)
    (st : SlotStep (· = p) k.phys g k'.phys g') (hproc : ∀ r, r ≠ p → k'.proc r = k.proc r)
    (hp : ∀ v : UPage, k₀.Family p → g'.tgt (p, .leaf v) ≠ none → (k'.proc p).Ranges v) :
    Tracked k₀ g₀ k' g' where
  lost := hlost.trans h.lost
  mapped q v hq hv := by
    by_cases hqp : q = p
    · subst hqp
      exact hp v hq hv
    · rw [st.tgt q _ hqp] at hv
      rw [hproc q hqp]
      exact h.mapped q v hq hv

/-- A fault of `p` maps a page of its heap or its file, or none. -/
theorem Tracked.fill (h : Tracked k₀ g₀ k g) (hlost : g'.lost = g.lost)
    (st : SlotStep (· = p) k.phys g k'.phys g') (hproc : k'.proc = k.proc)
    (hin : (k.proc p).Ranges v.val) (hfill : VmInv.Filled k g p v data f k' g') :
    Tracked k₀ g₀ k' g' := by
  refine h.one hlost st (fun r _ => congrFun hproc r) fun u hp hu => ?_
  rw [hproc]
  have hold (hs : Same k.phys g k'.phys g' p u) : (k.proc p).Ranges u := by
    rw [hs.tgt] at hu
    exact h.mapped p u hp hu
  rcases hfill with ⟨_, hsame⟩ | ⟨_, hsame, _⟩
  · exact hold (hsame u)
  · by_cases huv : u = v
    · rw [huv]
      exact hin
    · exact hold (hsame u huv)

theorem Kern.procSbrk_ranges (k : Kern) (ht : Tame k p (.sbrk n)) (hlive : (k.proc p).Ranges u) :
    ((k.procSbrk p n).proc p).Ranges u := by
  rw [procSbrk]
  split
  · rename_i hn
    have hle : (k.proc p).heapTop + n.toInt.toNat ≤ PLIC := ht hn
    rw [setProc_self]
    refine hlive.grow ?_
    rw [wrap64, Nat.mod_eq_of_lt]
    · exact Nat.le_add_right _ _
    · simp only [PLIC] at hle
      omega
  · exact hlive

/-- A page of a process is mapped by a valid entry. -/
theorem VmInv.leaf_valid {v : UPage} (h : VmInv L k g) (hv : g.tgt (p, .leaf v) ≠ none) :
    k.pte p (v * PGSIZE) &&& PTE_V ≠ 0 := by
  have hpt : (k.proc p).pagetable ≠ 0 := fun hz => hv ((h.no_table hz).2.2 v)
  have hlow : 16 ≤ v.val := by
    by_contra hlow
    exact hv ((h.vm.slot p).bare v (Nat.not_le.1 hlow))
  have hlt : v.val < 2 ^ 27 := Nat.lt_trans v.isLt (by decide)
  rw [h.pte_page hpt hlt]
  rcases (h.vm.slot p).leaf v hlow with ⟨_, hn⟩ | ⟨n, f, _, hw, hf⟩
  · exact absurd hn hv
  · rw [hw, mkPte_and n (by omega) (by decide)]
    rcases hf with rfl | rfl | rfl <;> decide

theorem Tracked.step {L : Layout} (h : Tracked k₀ g₀ k g) (ho : Outside k₀ g₀ k g)
    (hz : NoZombie k₀ p) (hact : FamilyAct k₀ p q a) (hk : VmInv L k g) (hk' : VmInv L k' g')
    (ht : Tame k q a) (hd : Tidy k q a) (hm : Move k g q k' g' a) : Tracked k₀ g₀ k' g' := by
  cases hm with
  | store st hr hg he =>
    subst he hg
    exact h.keep rfl (fun _ _ _ => id) fun _ _ _ => id
  | sbrk hg he =>
    subst he hg
    refine h.keep rfl (fun _ _ _ => id) fun r v _ hv => ?_
    by_cases hr : r = q
    · subst hr
      exact k.procSbrk_ranges ht hv
    · rw [k.procSbrk_other _ hr]
      exact hv
  | mmap hg he =>
    subst he hg
    refine ⟨h.lost, fun r v hr hv => ?_⟩
    have hR := h.mapped r v hr hv
    by_cases hrq : r = q
    · subst hrq
      exact hd v hR (hk.leaf_valid hv)
    · rw [k.procMmap_other _ hrq]
      exact hR
  | exit hg he =>
    subst he hg
    refine h.keep rfl (fun _ _ _ => id) fun r v _ hv => ?_
    by_cases hr : r = q
    · subst hr
      rw [Kern.setProc_self]
      exact hv
    · rw [Kern.setProc_of_ne _ _ hr]
      exact hv
  | waitNone hc hg he =>
    subst he hg
    exact h
  | forkFull hc hg he =>
    subst he hg
    exact h
  | quiet st hlost ha hproc hsame =>
    obtain ⟨c, hproc⟩ := hproc
    refine h.one hlost st (Kern.update_other hproc) fun v hq hv => ?_
    rw [hproc, Function.update_self]
    rw [(hsame v).tgt] at hv
    exact h.mapped q v hq hv
  | fillHeap st hlost hproc v hv hin hfill =>
    exact h.fill hlost st hproc (.inl hin) hfill
  | fillFile st hlost hproc v hv hout hin hfill =>
    exact h.fill hlost st hproc hin hfill
  | cowMap st hlost hproc v hu hold hlf hsame hnew hdata hlf' =>
    obtain ⟨c, hproc⟩ := hproc
    refine h.one hlost st (Kern.update_other hproc) fun u hq hu => ?_
    rw [hproc, Function.update_self]
    apply h.mapped q u hq
    by_cases huv : u = v
    · rw [huv, hold]
      exact Option.some_ne_none _
    · rw [← (hsame u huv).tgt]
      exact hu
  | fork c hc hpc st hf =>
    obtain ⟨pt, us, f, hproc⟩ := hf.proc
    refine ⟨hf.lost.trans h.lost, fun r v hr hv => ?_⟩
    by_cases hrc : r = c
    · subst hrc
      rw [hproc, Function.update_self]
      by_contra hno
      exact hv (hf.none v fun hin => hno (.inl hin))
    · rw [Kern.update_other hproc r hrc]
      apply h.mapped r v hr
      by_cases hrq : r = q
      · rw [hrq] at hv ⊢
        rw [hf.tgt] at hv
        exact hv
      · rw [st.tgt r _ fun he => he.elim hrq hrc] at hv
        exact hv
  | exec st hl he =>
    refine h.one he.lost st (Kern.update_other he.proc) fun v hq hv => ?_
    by_cases hv16 : 16 ≤ v.val
    · by_cases hR : (k.proc q).Ranges v
      · exact absurd (he.gone v hR).1 hv
      · rw [(he.same v hv16 hR).tgt] at hv
        exact absurd (h.mapped q v hq hv) hR
    · exact absurd ((hk'.vm.slot q).bare v (Nat.not_le.1 hv16)) hv
  | execFail st hl hproc hlost hsame =>
    refine h.one hlost st (fun r _ => congrFun hproc r) fun v hq hv => ?_
    rw [hproc]
    rw [(hsame v).tgt] at hv
    exact h.mapped q v hq hv
  | reap c hc st hnone hlost he =>
    subst he
    have hcf := ho.zombie_family hz hact hc
    have hall : g'.lost = g.lost := by
      funext n
      refine hlost n fun v hR hv => hR (h.mapped c v hcf ?_)
      rw [hv]
      exact Option.some_ne_none n
    refine h.one hall st (fun r hr => ?_) fun v _ hv => absurd (hnone _) hv
    rw [Kern.setProc_of_ne _ _ hr]
    exact Kern.setProc_of_ne _ _ hr

theorem Outside.refl (k : Kern) (g : Ghost) : Outside k g k g :=
  ⟨fun _ _ _ => rfl, fun _ _ => rfl⟩

theorem Tracked.start {L : Layout} (h : VmInv L k g) : Tracked k g k g where
  lost := rfl
  mapped _ _ hq hv := absurd (h.unused_none hq _) hv

/-- When the family is gone, all references are as they were. -/
theorem Outside.tgt_eq {L : Layout} (h : Outside k₀ g₀ k g) (h₀ : VmInv L k₀ g₀) (hk : VmInv L k g)
    (hend : ∀ q, k₀.Family q → (k.proc q).state = .unused) : g.tgt = g₀.tgt := by
  funext ⟨q, x⟩
  by_cases hq : k₀.Family q
  · rw [hk.unused_none (hend q hq), h₀.unused_none hq]
  · exact h.tgt q x hq

/-- The count of free pages is that of the references. -/
theorem Alloc.freecnt_eq [Fintype ι] {tgt : ι → Option Nat} (h : Alloc kend s tgt lost fl)
    (h' : Alloc kend s' tgt lost fl') : s'.freecnt = s.freecnt := by
  have hperm : fl'.Perm fl := by
    rw [List.perm_ext_iff_of_nodup h'.bal.nodup h.bal.nodup]
    intro n
    rw [h.bal.free, h'.bal.free]
    refine and_congr_right fun hm => ?_
    rw [h.bal.count n hm, h'.bal.count n hm]
  rw [h.cnt, h'.cnt, hperm.length_eq]

theorem Tracked.run {L : Layout} (h : Tracked k₀ g₀ k g) (ho : Outside k₀ g₀ k g)
    (hz : NoZombie k₀ p) (hk : VmInv L k g) (ht : TameRun L k as) (hd : TidyRun L k as)
    (hacts : ∀ s ∈ as, FamilyAct k₀ p s.1 s.2) (hs : k.run L as = some k') :
    ∃ g', VmInv L k' g' ∧ Outside k₀ g₀ k' g' ∧ Tracked k₀ g₀ k' g' := by
  induction as generalizing k g with
  | nil =>
    cases hs
    exact ⟨g, hk, ho, h⟩
  | cons s as ih =>
    obtain ⟨q, a⟩ := s
    rw [Kern.run] at hs
    cases hstep : k.step L q a with
    | none =>
      rw [hstep] at hs
      cases hs
    | some k₁ =>
      rw [hstep] at hs
      have hact := hacts _ List.mem_cons_self
      obtain ⟨g₁, hk₁, hm⟩ := hk.move ht.1 hstep
      exact ih (h.step ho hz hact hk hk₁ ht.1 hd.1 hm) (ho.step hz hact hm) hk₁ (ht.2 k₁ hstep)
        (hd.2 k₁ hstep) (fun s hs => hacts s (List.mem_cons_of_mem _ hs)) hs

/-- A child leaves no page behind when it never maps a file that is too short for the pages of the
one before. -/
theorem fork_reap_freecnt (hr : TameReach L k) (hz : NoZombie k p)
    (ht : TameRun L k ((p, .fork f sepc) :: as)) (hd : TidyRun L k ((p, .fork f sepc) :: as))
    (hacts : ∀ s ∈ as, k.Family s.1 ∨ s = (p, .wait))
    (hs : k.run L ((p, .fork f sepc) :: as) = some k')
    (hend : ∀ q, k.Family q → (k'.proc q).state = .unused) :
    k'.phys.freecnt = k.phys.freecnt := by
  obtain ⟨g, hk⟩ := hr.inv
  have hall (s : Slot × Kern.Act) (hin : s ∈ (p, .fork f sepc) :: as) : FamilyAct k p s.1 s.2 := by
    rcases List.mem_cons.1 hin with rfl | hin
    · exact .inr ⟨rfl, .inr ⟨f, sepc, rfl⟩⟩
    · rcases hacts s hin with hq | rfl
      · exact .inl hq
      · exact .inr ⟨rfl, .inl rfl⟩
  obtain ⟨g', hk', ho, htr⟩ := (Tracked.start hk).run (.refl k g) hz hk ht hd hall hs
  have ha := hk'.vm.alloc
  rw [ho.tgt_eq hk hk' hend, htr.lost] at ha
  exact hk.vm.alloc.freecnt_eq ha

/-- The shell right after its first fork. -/
structure FirstFork (k₀ k : Kern) (c : Slot) : Prop where
  reach : TameReach smallKernel k₀
  shell : k₀.Runs .shell
  alone : ∀ q, q ≠ .shell → (k₀.proc q).state = .unused
  free : k₀.freeSlot = some c
  fork : k₀.procFork smallKernel .shell (USERSTACKTOP - 256) USERVA = some k
  other : ∀ q, q ≠ c → k.proc q = k₀.proc q
  child : k.Runs c
  parent : (k.proc c).parent = some .shell
  top : (k₀.proc .shell).heapTop = HEAPBASE ∧ (k.proc c).heapTop = HEAPBASE
  mmap : (k.proc c).mmapBase = 0
  failed : k.phys.failed = false
  room : 20000 < k.phys.freecnt

theorem firstFork : ∃ k₀ k c, FirstFork k₀ k c := by
  obtain ⟨k₀, pt, code, us, ks, hb, hst, hroom⟩ := smallKernel_boot
  have hr := TameReach.boot spinElf_fits hb
  obtain ⟨q, hq⟩ : ∃ q : Slot, q ≠ .shell := ⟨⟨1, by decide⟩, by decide⟩
  obtain ⟨c, hc⟩ := Kern.freeSlot_some (hst.unused hq)
  obtain ⟨k, hr', hs, hne, _, hbuilt, hcnt, hfail⟩ := hr.fork hst.runs hc (by omega)
    (⟨by decide, by decide⟩ : FrameOk (USERSTACKTOP - 256)) USERVA
  obtain ⟨pt', us', hpt', hus', hproc⟩ := hbuilt.proc
  have hself : k.proc c = k₀.childProc .shell c pt' us' (USERSTACKTOP - 256) := by
    rw [hproc, Function.update_self]
  refine ⟨k₀, k, c, hr, hst.runs, fun q hq => hst.unused hq, hc, hs, ?_, ⟨?_, ?_, ?_⟩, ?_, ?_, ?_,
    hfail.trans hst.failed, by omega⟩
  · intro q hq
    exact Kern.update_other hproc q hq
  · rw [hself]
    rfl
  · rw [hself]
    exact hpt'
  · rw [hself]
    rfl
  · rw [hself]
    rfl
  · rw [hself]
    exact ⟨hst.top, hst.top⟩
  · rw [hself]
    rfl

namespace FirstFork
variable {k₀ k : Kern} {c : Slot}

theorem ne (h : FirstFork k₀ k c) : c ≠ .shell := by
  rintro rfl
  have hun := Kern.freeSlot_unused h.free
  rw [h.shell.run] at hun
  cases hun

theorem family (h : FirstFork k₀ k c) : k₀.Family q ↔ q ≠ .shell := by
  constructor
  · rintro hq rfl
    rw [Kern.Family, h.shell.run] at hq
    cases hq
  · exact h.alone q

theorem noZombie (h : FirstFork k₀ k c) : NoZombie k₀ .shell := by
  intro q r hz _
  by_cases hq : q = .shell
  · rw [hq, h.shell.run] at hz
    cases hz
  · rw [h.alone q hq] at hz
    cases hz

theorem shell_runs (h : FirstFork k₀ k c) : k.Runs .shell := by
  have he := h.other .shell h.ne.symm
  exact h.shell.congr (by rw [he]) (by rw [he]) (by rw [he])

end FirstFork

/-- The child exits, and the shell waits for it. -/
theorem exit_reap {k : Kern} {c : Slot} (hs : k.Runs .shell) (hc : k.Runs c) (hne : c ≠ .shell)
    (hpar : (k.proc c).parent = some .shell)
    (hal : ∀ q, q ≠ .shell → q ≠ c → (k.proc q).state = .unused) (L : Layout) :
    let z := k.setProc c { k.proc c with state := .zombie }
    let k' := (z.procFreeimage c).setProc c
      { (z.procFreeimage c).proc c with parent := none, state := .unused }
    k.run L [(c, .exit), (.shell, .wait)] = some k' ∧
      ∀ q, q ≠ .shell → (k'.proc q).state = .unused := by
  intro z k'
  have hz : z.proc c = { k.proc c with state := .zombie } := Kern.setProc_self ..
  have ho (q : Slot) (hq : q ≠ c) : z.proc q = k.proc q := Kern.setProc_of_ne _ _ hq
  have hchild : z.zombieChild .shell = some c := by
    obtain ⟨d, hd⟩ : ∃ d, z.zombieChild .shell = some d := by
      rw [← Option.isSome_iff_exists, Kern.zombieChild, List.find?_isSome]
      refine ⟨c, List.mem_finRange c, decide_eq_true ?_⟩
      rw [hz]
      exact ⟨hpar, rfl⟩
    have hst := (Kern.zombieChild_some hd).2
    by_cases hdc : d = c
    · rw [hd, hdc]
    · rw [ho d hdc] at hst
      by_cases hds : d = .shell
      · rw [hds, hs.run] at hst
        cases hst
      · rw [hal d hds hdc] at hst
        cases hst
  have hzs : z.Runs .shell := by
    have he := ho .shell hne.symm
    exact hs.congr (by rw [he]) (by rw [he]) (by rw [he])
  constructor
  · rw [Kern.run, hc.step_exit]
    dsimp only
    rw [Kern.run, hzs.step_reap L hchild]
    rfl
  · intro q hq
    by_cases hqc : q = c
    · subst hqc
      exact congrArg UProc.state (Kern.setProc_self ..)
    · have he : k'.proc q = z.proc q :=
        (Kern.setProc_of_ne _ _ hqc).trans (Kern.setProc_of_ne _ _ hqc)
      rw [he, ho q hqc]
      exact hal q hq hqc

/-- The second page of a mapped file. -/
def filePage : UPage := ⟨257, by decide⟩

/-- The child maps a file of two pages. -/
def Kern.mapTwo (k : Kern) (c : Slot) : Kern := k.procMmap c (some (100, 8192))

/-- It loads from the second one. -/
def Kern.loadTwo (k : Kern) (c : Slot) : Kern :=
  (k.mapTwo c).procPagefault c (filePage * PGSIZE) false Page.zero

namespace FirstFork
variable {k₀ k : Kern} {c : Slot}

theorem mapTwo_proc (k : Kern) (c : Slot) : (k.mapTwo c).proc = Function.update k.proc c
    { k.proc c with mmapBase := MMAPBASE, mmapStart := 100, mmapSize := 8192 } := rfl

theorem loadTwo (h : FirstFork k₀ k c) (h₀ : VmInv smallKernel k₀ g₀) :
    ∃ g n, VmInv smallKernel (k.loadTwo c) g ∧ Outside k₀ g₀ (k.loadTwo c) g ∧ g.lost = g₀.lost ∧
      (k.loadTwo c).proc = (k.mapTwo c).proc ∧ (k.loadTwo c).phys.failed = false ∧
      g.tgt (c, .leaf filePage) = some n := by
  have hself : (k.mapTwo c).proc c =
      { k.proc c with mmapBase := MMAPBASE, mmapStart := 100, mmapSize := 8192 } := by
    rw [mapTwo_proc, Function.update_self]
  obtain ⟨g₁, hpc, h₁, st₁, hf⟩ := h₀.procFork h.shell.run h.shell.table h.shell.idle
    (⟨by decide, by decide⟩ : FrameOk (USERSTACKTOP - 256)) h.free h.fork
  have ho₁ : Outside k₀ g₀ k g₁ :=
    (Outside.refl k₀ g₀).step h.noZombie
      (.inr ⟨rfl, .inr ⟨USERSTACKTOP - 256, USERVA, rfl⟩⟩)
      (.fork c h.free hpc st₁ hf)
  have hcf : k₀.Family c := h.family.2 h.ne
  have ho₂ : Outside k₀ g₀ (k.mapTwo c) g₁ :=
    ho₁.still hcf rfl fun r hr => k.procMmap_other _ hr
  have h₂ : VmInv smallKernel (k.mapTwo c) g₁ := by
    apply h₁.mmap
    change MMAPBASE + (8192 + PGSIZE - 1) % 2 ^ 32 / PGSIZE * PGSIZE ≤ PLIC
    decide
  have hruns : (k.mapTwo c).Runs c :=
    h.child.congr (by rw [hself]) (by rw [hself]) (by rw [hself])
  have hheap : ¬ (k₀.proc .shell).Heap filePage := by
    rintro ⟨_, hlt⟩
    rw [h.top.1] at hlt
    exact absurd hlt (by decide)
  have hnone : g₁.tgt (c, .leaf filePage) = none := hf.none filePage hheap
  have hno : ¬ ((k.mapTwo c).proc c).Heap filePage := by
    rintro ⟨_, hlt⟩
    rw [hself] at hlt
    dsimp only at hlt
    rw [h.top.2] at hlt
    exact absurd hlt (by decide)
  have hin : ((k.mapTwo c).proc c).Ranges filePage := by
    have hfile : MMAPBASE ≠ 0 ∧ MMAPBASE ≤ filePage * PGSIZE ∧
        filePage * PGSIZE < MMAPBASE + (8192 + PGSIZE - 1) % 2 ^ 32 / PGSIZE * PGSIZE := by decide
    rw [hself]
    exact .inr hfile
  obtain ⟨g₃, n, h₃, st₃, hlost₃, hproc₃, _, hfail₃, ht₃, _⟩ := h₂.touchNew hruns (by decide) hnone
    (Nat.lt_trans (by decide) h.room) (.inl rfl)
    (Kern.procPagefault_file (by decide) hno hin Page.zero)
  refine ⟨g₃, n, h₃, ho₂.one hcf st₃ fun r _ => congrFun hproc₃ r, hlost₃.trans hf.lost, hproc₃,
    hfail₃.trans h.failed, ht₃⟩

/-- The end of the child, whatever file it has mapped. -/
theorem ends (h : FirstFork k₀ k c) {w : Kern} (hproc : w.proc = Function.update k.proc c
    { k.proc c with mmapBase := b, mmapStart := start, mmapSize := size }) :
    let z := w.setProc c { w.proc c with state := .zombie }
    let k' := (z.procFreeimage c).setProc c
      { (z.procFreeimage c).proc c with parent := none, state := .unused }
    w.run smallKernel [(c, .exit), (.shell, .wait)] = some k' ∧
      ∀ q, q ≠ .shell → (k'.proc q).state = .unused := by
  have hself : w.proc c = { k.proc c with mmapBase := b, mmapStart := start, mmapSize := size } := by
    rw [hproc, Function.update_self]
  have ho (q : Slot) (hq : q ≠ c) : w.proc q = k.proc q := Kern.update_other hproc q hq
  have hs := ho .shell h.ne.symm
  refine exit_reap ?_ ?_ h.ne ?_ (fun q hq hqc => ?_) smallKernel
  · exact h.shell_runs.congr (by rw [hs]) (by rw [hs]) (by rw [hs])
  · exact h.child.congr (by rw [hself]) (by rw [hself]) (by rw [hself])
  · rw [hself]
    exact h.parent
  · rw [ho q hqc, h.other q hqc]
    exact h.alone q hq

/-- The run up to the load from the mapped file. -/
theorem run_loadTwo (h : FirstFork k₀ k c) (as : List (Slot × Kern.Act)) :
    k₀.run smallKernel ((.shell, .fork (USERSTACKTOP - 256) USERVA) ::
      (c, .mmap (some (100, 8192))) :: (c, .fault (filePage * PGSIZE) false Page.zero) :: as) =
        (k.loadTwo c).run smallKernel as := by
  have hself : (k.mapTwo c).proc c =
      { k.proc c with mmapBase := MMAPBASE, mmapStart := 100, mmapSize := 8192 } := by
    rw [mapTwo_proc, Function.update_self]
  have hruns : (k.mapTwo c).Runs c :=
    h.child.congr (by rw [hself]) (by rw [hself]) (by rw [hself])
  have hmap : k.step smallKernel c (.mmap (some (100, 8192))) = some (k.mapTwo c) :=
    h.child.step_mmap smallKernel _
  rw [Kern.run, h.shell.step_fork smallKernel h.fork]
  dsimp only
  rw [Kern.run, hmap]
  dsimp only
  rw [Kern.run, hruns.step_fault]
  rfl

end FirstFork

/-- A child maps a file, loads from it and exits. -/
theorem fork_reap_mapped : ∃ k₀ k' c, TameReach smallKernel k₀ ∧
    k₀.run smallKernel [(.shell, .fork (USERSTACKTOP - 256) USERVA), (c, .mmap (some (100, 8192))),
      (c, .fault (filePage * PGSIZE) false Page.zero), (c, .exit), (.shell, .wait)] = some k' ∧
    k'.phys.freecnt = k₀.phys.freecnt := by
  obtain ⟨k₀, k, c, h⟩ := firstFork
  obtain ⟨g₀, h₀⟩ := h.reach.inv
  obtain ⟨g, n, _, _, _, hproc, _⟩ := h.loadTwo h₀
  obtain ⟨hrun, hend⟩ := h.ends (hproc.trans (FirstFork.mapTwo_proc k c))
  rw [← h.run_loadTwo] at hrun
  have hfits : MMAPBASE + (8192 + PGSIZE - 1) % 2 ^ 32 / PGSIZE * PGSIZE ≤ PLIC := by decide
  have hframe : FrameOk (USERSTACKTOP - 256) := ⟨by decide, by decide⟩
  have hcf : k₀.Family c := h.family.2 h.ne
  refine ⟨k₀, _, c, h.reach, hrun, fork_reap_freecnt h.reach h.noZombie ?_ ?_ ?_ hrun fun q hq =>
    hend q (h.family.1 hq)⟩
  · exact ⟨hframe, fun _ _ => ⟨hfits, fun _ _ => ⟨trivial, fun _ _ => ⟨trivial, fun _ _ =>
      ⟨trivial, fun _ _ => trivial⟩⟩⟩⟩⟩
  · refine ⟨trivial, fun k₁ hk₁ => ⟨fun v hR => ?_, fun _ _ => ⟨trivial, fun _ _ =>
      ⟨trivial, fun _ _ => ⟨trivial, fun _ _ => trivial⟩⟩⟩⟩⟩
    -- nothing is mapped yet
    cases Option.some.inj ((h.shell.step_fork smallKernel h.fork).symm.trans hk₁)
    rcases hR with ⟨hlo, hhi⟩ | ⟨hne, _⟩
    · rw [h.top.2] at hhi
      simp only [HEAPBASE, PGSIZE] at hhi
      omega
    · exact absurd h.mmap hne
  · intro s hs
    simp only [List.mem_cons, List.not_mem_nil, or_false] at hs
    rcases hs with rfl | rfl | rfl | rfl
    · exact .inl hcf
    · exact .inl hcf
    · exact .inl hcf
    · exact .inr rfl

/-- Pages that are given up without a release are missing from the count. -/
theorem Alloc.freecnt_lt [Fintype ι] {tgt : ι → Option Nat} (h : Alloc kend s tgt lost fl)
    (h' : Alloc kend s' tgt lost' fl') (hle : ∀ m, lost m ≤ lost' m) (hn : n ∈ fl)
    (hpos : 0 < lost' n) : s'.freecnt < s.freecnt := by
  have hsub : ∀ m ∈ n :: fl', m ∈ fl := by
    intro m hm
    rcases List.mem_cons.1 hm with rfl | hm
    · exact hn
    · obtain ⟨hman, hz⟩ := (h'.bal.free m).1 hm
      have hc := h.bal.count m hman
      have hc' := h'.bal.count m hman
      have hl := hle m
      exact (h.bal.free m).2 ⟨hman, by omega⟩
  have hnot : n ∉ fl' := fun hin => hpos.ne' (h'.bal.free_lost hin)
  have hlen := (List.subperm_of_subset (List.nodup_cons.2 ⟨hnot, h'.bal.nodup⟩) hsub).length_le
  rw [h.cnt, h'.cnt]
  exact hlen

/-- The child maps a shorter file after it has loaded from the first one: the page is lost when it
is reaped. -/
theorem mmap_loses_page : ∃ k₀ k' c, TameReach smallKernel k₀ ∧ NoZombie k₀ .shell ∧
    (k₀.proc .shell).heapTop = HEAPBASE ∧ k₀.Family c ∧
    k₀.run smallKernel [(.shell, .fork (USERSTACKTOP - 256) USERVA), (c, .mmap (some (100, 8192))),
      (c, .fault (filePage * PGSIZE) false Page.zero), (c, .mmap (some (100, 1))), (c, .exit),
      (.shell, .wait)] = some k' ∧
    (∀ q, k₀.Family q → (k'.proc q).state = .unused) ∧ k'.phys.failed = false ∧
    k'.phys.freecnt < k₀.phys.freecnt := by
  obtain ⟨k₀, k, c, h⟩ := firstFork
  obtain ⟨g₀, h₀⟩ := h.reach.inv
  obtain ⟨g, n, hg, ho, hlost, hproc, hfail, ht⟩ := h.loadTwo h₀
  have hcf : k₀.Family c := h.family.2 h.ne
  set w := (k.loadTwo c).procMmap c (some (100, 1))
  have hw : w.proc = Function.update k.proc c
      { k.proc c with mmapBase := MMAPBASE, mmapStart := 100, mmapSize := 1 } := by
    change Function.update (k.loadTwo c).proc c _ = _
    rw [hproc, FirstFork.mapTwo_proc, Function.update_self, Function.update_idem]
    rfl
  have hwc : w.proc c = { k.proc c with mmapBase := MMAPBASE, mmapStart := 100, mmapSize := 1 } := by
    rw [hw, Function.update_self]
  have hruns : (k.loadTwo c).Runs c := by
    have he : (k.loadTwo c).proc c =
        { k.proc c with mmapBase := MMAPBASE, mmapStart := 100, mmapSize := 8192 } := by
      rw [hproc, FirstFork.mapTwo_proc, Function.update_self]
    exact h.child.congr (by rw [he]) (by rw [he]) (by rw [he])
  have hwruns : w.Runs c := h.child.congr (by rw [hwc]) (by rw [hwc]) (by rw [hwc])
  obtain ⟨hrun, hend⟩ := h.ends hw
  have hg₁ : VmInv smallKernel w g := by
    apply hg.mmap
    change MMAPBASE + (1 + PGSIZE - 1) % 2 ^ 32 / PGSIZE * PGSIZE ≤ PLIC
    decide
  have ho₁ : Outside k₀ g₀ w g := ho.still hcf rfl fun r hr => (k.loadTwo c).procMmap_other _ hr
  have hg₂ := hg₁.exit hwruns.run hwruns.idle
  set z := w.setProc c { w.proc c with state := .zombie }
  have hz : z.proc c = { w.proc c with state := .zombie } := Kern.setProc_self ..
  have ho₂ : Outside k₀ g₀ z g := ho₁.still hcf rfl fun r hr => Kern.setProc_of_ne _ _ hr
  obtain ⟨g', hg', st, _, hsame, hpos, hfail'⟩ := hg₂.reap (c := c) (by rw [hz])
  have hout : ¬ (z.proc c).Ranges filePage := by
    rw [hz, hwc]
    rintro (⟨_, hhi⟩ | ⟨_, _, hhi⟩)
    · dsimp only at hhi
      rw [h.top.2] at hhi
      exact absurd hhi (by decide)
    · have hend : ¬ filePage * PGSIZE < MMAPBASE + (1 + PGSIZE - 1) % 2 ^ 32 / PGSIZE * PGSIZE := by
        decide
      exact hend hhi
  have ho₃ := ho₂.one hcf st fun r hr => by
    rw [Kern.setProc_of_ne _ _ hr]
    exact Kern.setProc_of_ne _ _ hr
  have hunused (q : Slot) (hq : k₀.Family q) := hend q (h.family.1 hq)
  have htgt := ho₃.tgt_eq h₀ hg' hunused
  have hlostn := hpos n filePage hout ht
  have ha := hg'.vm.alloc
  rw [htgt] at ha
  refine ⟨k₀, _, c, h.reach, h.noZombie, h.top.1, hcf, ?_, hunused, ?_,
    h₀.vm.alloc.freecnt_lt ha (n := n) (fun m => ?_) ?_ hlostn⟩
  · rw [h.run_loadTwo, Kern.run, hruns.step_mmap]
    exact hrun
  · rw [hfail']
    exact hfail
  · by_cases hm : ∃ v : UPage, ¬ (z.proc c).Ranges v ∧ g.tgt (c, .leaf v) = some m
    · obtain ⟨v, hv, hmv⟩ := hm
      rw [← hlost, hg.vm.lost _ m hmv]
      exact Nat.zero_le _
    · rw [hsame m fun v hv hmv => hm ⟨v, hv, hmv⟩, hlost]
  · have hman := hg.vm.alloc.bal.target _ n ht
    have hz₀ : g₀.lost n = 0 := by
      rw [← hlost]
      exact hg.vm.lost _ n ht
    have hnone : refs g₀.tgt n = 0 := by
      apply refs_eq_zero.2
      intro y hy
      rw [← htgt] at hy
      exact hlostn.ne' (hg'.vm.lost y n hy)
    apply (h₀.vm.alloc.bal.free n).2
    refine ⟨hman, ?_⟩
    rw [h₀.vm.alloc.bal.count n hman, hnone, hz₀]

end KernelHobby
