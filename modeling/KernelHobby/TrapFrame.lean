import KernelHobby.Isolation
import KernelHobby.Rv

namespace KernelHobby
set_option autoImplicit true

def SSTATUS_SIE : Nat := 1
def SSTATUS_SPIE : Nat := 5
def SSTATUS_SPP : Nat := 8

/-- A word with one bit put to `b`. -/
def putBit (w : Word) (i : Nat) (b : Bool) : Word :=
  if b then w ||| BitVec.twoPow 64 i else w &&& ~~~BitVec.twoPow 64 i

theorem getLsbD_putBit (w : Word) (b : Bool) (hi : i < 64) :
    (putBit w i b).getLsbD j = if j = i then b else w.getLsbD j := by
  rw [putBit]
  by_cases hj : j = i
  · subst hj
    cases b with
    | false => simp [hi]
    | true => simp [hi]
  · have hne : i ≠ j := Ne.symm hj
    cases b with
    | true => simp [hne, hj]
    | false =>
      by_cases h : j < 64
      · simp [hj, h]
      · simp [hj, BitVec.getLsbD_of_ge w j (Nat.not_lt.1 h)]

/-- A hart: where it is, at what level, its registers and memory. -/
structure Cpu where
  pc : Word
  user : Bool
  rv : Rv

/-- What the hardware does when a trap is taken. -/
def Cpu.trap (c : Cpu) (stvec : Word) : Cpu :=
  let st := c.rv.csr .sstatus
  let st := putBit (putBit (putBit st SSTATUS_SPIE (st.getLsbD SSTATUS_SIE)) SSTATUS_SIE false)
    SSTATUS_SPP (!c.user)
  ⟨stvec, false, (c.rv.setCsr .sepc c.pc).setCsr .sstatus st⟩

def sret (s : Rv) : Cpu :=
  let st := s.csr .sstatus
  ⟨s.csr .sepc, !st.getLsbD SSTATUS_SPP, s.setCsr .sstatus
    (putBit (putBit (putBit st SSTATUS_SIE (st.getLsbD SSTATUS_SPIE)) SSTATUS_SPIE true)
      SSTATUS_SPP false)⟩

theorem sret_sstatus (s : Rv) : (sret s).rv.csr .sstatus =
    putBit (putBit (putBit (s.csr .sstatus) SSTATUS_SIE ((s.csr .sstatus).getLsbD SSTATUS_SPIE))
      SSTATUS_SPIE true) SSTATUS_SPP false := Rv.setCsr_self ..

/-- The registers of `struct regframe`, with their places in it. -/
def savedRegs : List (Reg × Nat) :=
  [(.ra, 0), (.gp, 8), (.tp, 16), (.t0, 24), (.t1, 32), (.t2, 40), (.s0, 48), (.s1, 56),
    (.a0, 64), (.a1, 72), (.a2, 80), (.a3, 88), (.a4, 96), (.a5, 104), (.a6, 112), (.a7, 120),
    (.s2, 128), (.s3, 136), (.s4, 144), (.s5, 152), (.s6, 160), (.s7, 168), (.s8, 176),
    (.s9, 184), (.s10, 192), (.s11, 200), (.t3, 208), (.t4, 216), (.t5, 224), (.t6, 232)]

/-- `kernelvec` up to the call of `kerneltrap`. -/
def kernelvec : List Ins :=
  .addi .sp .sp (-256) :: (saves .sp savedRegs ++
    [.csrr .t0 .sepc, .sd .t0 240 .sp, .csrr .t0 .sstatus, .sd .t0 248 .sp,
      .csrr .tp .sscratch, .mv .a0 .sp])

/-- `trapret` up to its `sret`. -/
def trapret : List Ins :=
  [.ld .t0 240 .sp, .csrw .sepc .t0, .ld .t0 248 .sp, .csrw .sstatus .t0] ++
    loads .sp savedRegs ++ [.addi .sp .sp 256]

def trapretFrom : List Ins := .mv .sp .a0 :: trapret

/-- What `kernelvec` stores: the frame of `s`. -/
def Rv.frame (s : Rv) : List (Nat × Word) :=
  savedRegs.map (fun r => (r.2, s.x r.1)) ++ [(240, s.csr .sepc), (248, s.csr .sstatus)]

theorem frame_apart (s : Rv) : Apart 256 (s.frame.map Prod.fst) := by
  have he : s.frame.map Prod.fst = savedRegs.map Prod.snd ++ [240, 248] := by
    rw [Rv.frame, List.map_append, List.map_map]
    rfl
  rw [he]
  exact ⟨by decide, by decide, by decide⟩

theorem savedRegs_all (q : Reg) (h : q ≠ .sp) : ∃ o, (q, o) ∈ savedRegs := by
  cases q with
  | sp => exact absurd rfl h
  | _ => exact ⟨_, by simp [savedRegs]; rfl⟩

theorem savedRegs_inside (h : (q, o) ∈ savedRegs) : o + 8 ≤ 240 := by
  have hall : ∀ r ∈ savedRegs, r.2 + 8 ≤ 240 := by decide
  exact hall _ h

theorem savedRegs_ne (h : (q, o) ∈ savedRegs) : q ≠ .sp := by
  have hall : ∀ r ∈ savedRegs, r.1 ≠ .sp := by decide
  exact hall _ h

/-- Only the place of `a0` meets the bytes from 64 on. -/
theorem savedRegs_a0 (h : (q, o) ∈ savedRegs) (hq : q ≠ .a0) : o + 8 ≤ 64 ∨ 72 ≤ o := by
  have hall : ∀ r ∈ savedRegs, r.1 = .a0 ∨ r.2 + 8 ≤ 64 ∨ 72 ≤ r.2 := by decide
  exact (hall _ h).resolve_left hq

section Spec
variable {s : Rv}

theorem kernelvec_spec (s : Rv) :
    let p := s.x .sp + BitVec.ofInt 64 (-256)
    let e := s.run kernelvec
    e.x .sp = p ∧ e.x .a0 = p ∧ e.x .tp = s.csr .sscratch ∧ e.csr = s.csr ∧
      e.mem = s.mem.storeAll p s.frame := by
  intro p e
  have hsaved : (savedRegs.map fun r => (r.2, (s.set .sp p).x r.1)) =
      savedRegs.map fun r => (r.2, s.x r.1) := by
    apply List.map_congr_left
    intro r hr
    rw [s.set_of_ne p (savedRegs_ne hr)]
  have he : e = (((s.set .sp p).run (saves .sp savedRegs)).run
      [.csrr .t0 .sepc, .sd .t0 240 .sp, .csrr .t0 .sstatus, .sd .t0 248 .sp,
        .csrr .tp .sscratch, .mv .a0 .sp]) := by
    show s.run kernelvec = _
    rw [kernelvec, Rv.run_cons, Rv.run_append]
    rfl
  rw [Rv.run_saves, hsaved, Rv.set_self] at he
  have hframe : s.mem.storeAll p s.frame =
      ((s.mem.storeAll p (savedRegs.map fun r => (r.2, s.x r.1))).store
        (p + BitVec.ofNat 64 240) (s.csr .sepc)).store (p + BitVec.ofNat 64 248)
          (s.csr .sstatus) := by
    rw [Rv.frame, VMem.storeAll_append]
    rfl
  rw [he, hframe]
  refine ⟨?_, ?_, ?_, rfl, ?_⟩ <;> simp [Rv.exec, Rv.set, Function.update]

theorem trapret_spec (s : Rv) :
    let p := s.x .sp
    let r := s.run trapret
    r.mem = s.mem ∧ r.csr .sepc = s.mem.load (p + BitVec.ofNat 64 240) ∧
      r.csr .sstatus = s.mem.load (p + BitVec.ofNat 64 248) ∧
      r.x .sp = p + BitVec.ofInt 64 256 ∧
      ∀ q o, (q, o) ∈ savedRegs → r.x q = s.mem.load (p + BitVec.ofNat 64 o) := by
  intro p r
  set t := s.run [.ld .t0 240 .sp, .csrw .sepc .t0, .ld .t0 248 .sp, .csrw .sstatus .t0] with ht
  have hsp : t.x .sp = p := rfl
  have hmem : t.mem = s.mem := rfl
  obtain ⟨hm, hc, hx, hout⟩ := t.run_loads .sp savedRegs
    (fun r hr => savedRegs_ne hr) (by decide)
  have hr : r = (t.run (loads .sp savedRegs)).exec (.addi .sp .sp 256) := by
    show s.run trapret = _
    rw [trapret, Rv.run_append, Rv.run_append]
    rfl
  have hq : (t.run (loads .sp savedRegs)).x .sp = p := (hout .sp (by decide)).trans hsp
  rw [hr]
  refine ⟨hm, ?_, ?_, ?_, fun q o hin => ?_⟩
  · show (t.run (loads .sp savedRegs)).csr .sepc = _
    rw [hc]
    rfl
  · show (t.run (loads .sp savedRegs)).csr .sstatus = _
    rw [hc]
    rfl
  · rw [Rv.exec, Rv.set_self, hq]
  · rw [Rv.exec, Rv.set_of_ne _ _ (savedRegs_ne hin), hx _ hin, hmem, hsp]

end Spec

/-- What `kerneltrap` does to the frame that it gets: it may set `a0` and `sepc`, and the stack
pointer is back at the frame when it returns. -/
structure TrapHandled (e t : Rv) (ret sepc : Word) : Prop where
  sp : t.x .sp = e.x .a0
  frame : ∀ i, i < 256 → ¬ (64 ≤ i ∧ i < 72) → ¬ (240 ≤ i ∧ i < 248) →
    t.mem (e.x .a0 + BitVec.ofNat 64 i) = e.mem (e.x .a0 + BitVec.ofNat 64 i)
  ret : t.mem.load (e.x .a0 + BitVec.ofNat 64 64) = ret
  sepc : t.mem.load (e.x .a0 + BitVec.ofNat 64 240) = sepc

namespace TrapHandled
variable {e t : Rv}

theorem load (h : TrapHandled e t v w) (ho : o + 8 ≤ 256) (ha : o + 8 ≤ 64 ∨ 72 ≤ o)
    (hs : o + 8 ≤ 240 ∨ 248 ≤ o) :
    t.mem.load (e.x .a0 + BitVec.ofNat 64 o) = e.mem.load (e.x .a0 + BitVec.ofNat 64 o) := by
  apply VMem.load_congr
  intro i hi
  rw [BitVec.add_assoc, BitVec.ofNat_add_ofNat]
  exact h.frame _ (by omega) (by omega) (by omega)

end TrapHandled

/-- The hart in `kerneltrap`. -/
def Cpu.entry (c : Cpu) (stvec : Word) : Rv := (c.trap stvec).rv.run kernelvec

theorem Cpu.entry_spec (c : Cpu) (stvec : Word) :
    (c.entry stvec).x .a0 = c.rv.x .sp + BitVec.ofInt 64 (-256) ∧
      (c.entry stvec).x .tp = c.rv.csr .sscratch ∧
      (∀ o v, (o, v) ∈ (c.trap stvec).rv.frame →
        (c.entry stvec).mem.load ((c.entry stvec).x .a0 + BitVec.ofNat 64 o) = v) ∧
      ∀ b, 256 ≤ (b - (c.entry stvec).x .a0).toNat → (c.entry stvec).mem b = c.rv.mem b := by
  obtain ⟨_, ha0, htp, _, hmem⟩ := kernelvec_spec (c.trap stvec).rv
  refine ⟨ha0, htp, fun o v hv => ?_, fun b hb => ?_⟩
  · rw [entry, hmem, ha0]
    exact (frame_apart _).load_storeAll _ hv
  · rw [entry, ha0] at hb
    rw [entry, hmem]
    exact (frame_apart _).storeAll_outside _ hb

/-- A trap that is handled gives the hart back as it was, but for `a0` and the place where it goes
on: every register, the level, and the interrupt enable. The kernel runs with its own `tp`, and
below the stack pointer it has used 256 bytes before the handler. -/
theorem trap_returns (c : Cpu) (stvec : Word) {t : Rv}
    (h : TrapHandled (c.entry stvec) t v w) :
    let r := sret (t.run trapret)
    r.pc = w ∧ r.user = c.user ∧ r.rv.x .a0 = v ∧
      (∀ q, q ≠ .a0 → r.rv.x q = c.rv.x q) ∧
      (∀ i, i ≠ SSTATUS_SPIE → i ≠ SSTATUS_SPP →
        (r.rv.csr .sstatus).getLsbD i = (c.rv.csr .sstatus).getLsbD i) ∧
      r.rv.mem = t.mem ∧ (c.entry stvec).x .tp = c.rv.csr .sscratch ∧
      ∀ b, 256 ≤ (b - (c.rv.x .sp + BitVec.ofInt 64 (-256))).toNat →
        (c.entry stvec).mem b = c.rv.mem b := by
  intro r
  obtain ⟨ha0, htp, hload, hout⟩ := c.entry_spec stvec
  obtain ⟨hmem, hpc, hst, hsp, hx⟩ := trapret_spec t
  rw [h.sp] at hpc hst hsp hx
  have hstatus : (t.run trapret).csr .sstatus = (c.trap stvec).rv.csr .sstatus := by
    rw [hst, h.load (by decide) (by decide) (by decide)]
    exact hload 248 _ (List.mem_append_right _ (List.mem_cons_of_mem _ List.mem_cons_self))
  have hbit (i : Nat) : ((t.run trapret).csr .sstatus).getLsbD i =
      if i = SSTATUS_SPP then !c.user else if i = SSTATUS_SIE then false else
        if i = SSTATUS_SPIE then (c.rv.csr .sstatus).getLsbD SSTATUS_SIE else
          (c.rv.csr .sstatus).getLsbD i := by
    rw [hstatus]
    show (putBit _ _ _).getLsbD i = _
    rw [getLsbD_putBit _ _ (by decide), getLsbD_putBit _ _ (by decide),
      getLsbD_putBit _ _ (by decide)]
  refine ⟨hpc.trans h.sepc, ?_, ?_, fun q hq => ?_, fun i hpie hpp => ?_, hmem, htp, ?_⟩
  · show (!((t.run trapret).csr .sstatus).getLsbD SSTATUS_SPP) = c.user
    rw [hbit, if_pos rfl, Bool.not_not]
  · exact (hx .a0 64 (by decide)).trans h.ret
  · by_cases hs : q = .sp
    · subst hs
      refine hsp.trans ?_
      rw [ha0, BitVec.add_assoc]
      exact BitVec.add_zero _
    · obtain ⟨o, ho⟩ := savedRegs_all q hs
      have hin := savedRegs_inside ho
      refine (hx q o ho).trans ?_
      rw [h.load (by omega) (savedRegs_a0 ho hq) (.inl hin)]
      exact hload o _ (List.mem_append_left _ (List.mem_map.2 ⟨(q, o), ho, rfl⟩))
  · show ((sret (t.run trapret)).rv.csr .sstatus).getLsbD i = _
    rw [sret_sstatus, getLsbD_putBit _ _ (by decide), if_neg hpp, getLsbD_putBit _ _ (by decide),
      if_neg hpie, getLsbD_putBit _ _ (by decide), hbit, hbit, if_neg hpp]
    by_cases hi : i = SSTATUS_SIE
    · subst hi
      rfl
    · rw [if_neg hi, if_neg hi, if_neg hpie]
  · rw [← ha0]
    exact hout

theorem Cpu.entry_sp (c : Cpu) (stvec : Word) :
    (c.entry stvec).x .sp = (c.entry stvec).x .a0 := by
  obtain ⟨hsp, ha0, _⟩ := kernelvec_spec (c.trap stvec).rv
  exact hsp.trans ha0.symm

/-- A handler that leaves the frame alone: the hart goes on where it was. -/
theorem handled_interrupt (c : Cpu) (stvec : Word) :
    TrapHandled (c.entry stvec) (c.entry stvec) (c.rv.x .a0) c.pc := by
  obtain ⟨_, _, hload, _⟩ := c.entry_spec stvec
  refine ⟨c.entry_sp stvec, fun i _ _ _ => rfl, ?_, ?_⟩
  · exact hload 64 _ (List.mem_append_left _ (List.mem_map.2 ⟨(.a0, 64), by decide, rfl⟩))
  · exact hload 240 _ (List.mem_append_right _ List.mem_cons_self)

/-- What the handler of a system call writes to the frame. -/
def Rv.answer (e : Rv) (v w : Word) : Rv :=
  let m := e.mem.store (e.x .a0 + BitVec.ofNat 64 64) v
  { e with mem := m.store (e.x .a0 + BitVec.ofNat 64 240) w }

theorem handled_syscall (c : Cpu) (stvec v w : Word) :
    TrapHandled (c.entry stvec) ((c.entry stvec).answer v w) v w := by
  have hsp := c.entry_sp stvec
  generalize c.entry stvec = e at hsp ⊢
  refine ⟨hsp, fun i hi h64 h240 => ?_, ?_, VMem.load_store_self ..⟩
  · exact (VMem.store_apart _ _ _ (by omega) (by decide) (by omega)).trans
      (VMem.store_apart _ _ _ (by omega) (by decide) (by omega))
  · refine Eq.trans (VMem.load_congr fun i hi => ?_)
      (VMem.load_store_self e.mem (e.x .a0 + BitVec.ofNat 64 64) v)
    rw [BitVec.add_assoc, BitVec.ofNat_add_ofNat]
    exact VMem.store_apart _ _ _ (by omega) (by decide) (by omega)

/-- A hart in a program at `pc`. -/
def someCpu (pc : Word) : Cpu := ⟨pc, true, ⟨fun _ => 0x4800, fun _ => 0, fun _ => 0⟩⟩

/-- A system call that returns 3. -/
theorem trap_returns_syscall :
    let t := ((someCpu 0x1000).entry 0x80200000).answer 3 0x1004
    let r := sret (t.run trapret)
    r.pc = 0x1004 ∧ r.user = true ∧ r.rv.x .a0 = 3 ∧ r.rv.x .s0 = 0x4800 := by
  obtain ⟨hpc, huser, ha0, hregs, _⟩ := trap_returns (someCpu 0x1000) 0x80200000
    (handled_syscall (someCpu 0x1000) 0x80200000 3 0x1004)
  exact ⟨hpc, huser, ha0, hregs .s0 (by decide)⟩

/-- Memory as process `p` sees it, for the 256 bytes from `a` on. -/
def Sees (k : Kern) (p : Slot) (a : Nat) (m : VMem) : Prop :=
  ∀ i, i < 256 → k.userLoad p (a + i) = some (m (BitVec.ofNat 64 a + BitVec.ofNat 64 i))

section Fork
variable {L : Layout} {k k' : Kern} {p q : Slot}

/-- The `sepc` that `proc_fork` reads in the frame that `kernelvec` has stored. -/
theorem Sees.frameSepc (h : Sees k p f m) :
    k.frameSepc p f = (m.load (BitVec.ofNat 64 f + BitVec.ofNat 64 240)).toNat := by
  have he : leGet (fun i => (k.userLoad p (f + i)).getD 0) 240 8 =
      leGet (fun i => m (BitVec.ofNat 64 f + BitVec.ofNat 64 240 + BitVec.ofNat 64 i)) 0 8 := by
    have hshift (w : Nat) (off : Nat) (ho : off + w ≤ 8) :
        leGet (fun i => (k.userLoad p (f + i)).getD 0) (240 + off) w =
          leGet (fun i => m (BitVec.ofNat 64 f + BitVec.ofNat 64 240 + BitVec.ofNat 64 i)) off w := by
      induction w generalizing off with
      | zero => rfl
      | succ w ih =>
        have hb := h (240 + off) (by omega)
        have ha : BitVec.ofNat 64 f + BitVec.ofNat 64 240 + BitVec.ofNat 64 off =
            BitVec.ofNat 64 f + BitVec.ofNat 64 (240 + off) := by
          rw [BitVec.add_assoc, ← BitVec.ofNat_add]
        rw [leGet, leGet, Nat.add_assoc 240 off 1, ih (off + 1) (by omega), hb, Option.getD_some, ha]
    exact hshift 8 0 (Nat.le_refl 8)
  have hlt := leGet_lt
    (fun i => m (BitVec.ofNat 64 f + BitVec.ofNat 64 240 + BitVec.ofNat 64 i)) 0 8
  rw [Kern.frameSepc, he, VMem.load, BitVec.toNat_ofNat]
  exact (Nat.mod_eq_of_lt hlt).symm

/-- The frame on the stack that a child gets. -/
theorem forked_frame (hr : TameReach L k) (hp : k.Runs p)
    (hfr : ∀ i < 256, ∃ n, k.translate p (f + i) PTE_W = some n)
    (hstack : f / PGSIZE = USERSTACK / PGSIZE) (hroom : Kern.tablePages L ≤ k.phys.freecnt)
    (hq : k.freeSlot = some q) (hs : k.procFork L p f (k.frameSepc p f) = some k') :
    (k'.proc q).tfVa = f ∧ ∀ i, i < 256 → k'.userLoad q (f + i) = k.childFrame p f i := by
  obtain ⟨g, h⟩ := hr.inv
  obtain ⟨hz, pt, s₂, s₃, htab, hsh, hk'⟩ := Kern.procFork_some hq hs
  obtain ⟨hpq, g₃, sp⟩ := h.spawn hp.run hp.table hq hz htab hsh
  have hcopy := h.frame_copied hp hfr hstack hroom hpq hz sp hk'
  have htf : (k'.proc q).tfVa = f := by
    rw [hk']
    exact congrArg UProc.tfVa (Kern.setProc_self ..)
  refine ⟨htf, fun i hi => ?_⟩
  rw [← hcopy.frame i hi, htf]

/-- The stores of `kernelvec` through the page table of the process, one byte after the other. -/
theorem sees_stores (hr : TameReach L k) (hp : k.Runs p)
    (hfr : ∀ i < 256, ∃ n, k.translate p (f + i) PTE_W = some n) (m : VMem) (n : Nat)
    (hn : n ≤ 256) :
    ∃ k', TameReach L k' ∧ k'.proc = k.proc ∧ k'.phys.freecnt = k.phys.freecnt ∧
      k'.nextPid = k.nextPid ∧ (∀ va perm, k'.translate p va perm = k.translate p va perm) ∧
      ∀ i, i < n → k'.userLoad p (f + i) = some (m (BitVec.ofNat 64 f + BitVec.ofNat 64 i)) := by
  induction n with
  | zero => exact ⟨k, hr, rfl, rfl, rfl, fun _ _ => rfl, nofun⟩
  | succ n ih =>
    obtain ⟨k₁, hr₁, hproc, hcnt, hpid, htr, hload⟩ := ih (Nat.le_of_succ_le hn)
    obtain ⟨j, hj⟩ := hfr n hn
    have hp₁ : k₁.Runs p := hp.of_proc hproc
    obtain ⟨k₂, hs⟩ : ∃ k₂, k₁.userStore p (f + n)
        (m (BitVec.ofNat 64 f + BitVec.ofNat 64 n)) = some k₂ := by
      rw [Kern.userStore, htr, hj]
      exact ⟨_, rfl⟩
    obtain ⟨g, h⟩ := hr₁.inv
    obtain ⟨_, htr', hload'⟩ := h.store_load hp₁.table hp₁.run hp₁.idle hs
    have hstep : k₁.step L p (.store (f + n) (m (BitVec.ofNat 64 f + BitVec.ofNat 64 n))) =
        some k₂ := by
      rw [hp₁.step_store]
      exact hs
    obtain ⟨_, _, hk₂⟩ := Option.map_eq_some_iff.1 hs
    refine ⟨k₂, hr₁.step (by trivial) hstep, ?_, ?_, ?_, fun va perm => ?_, fun i hi => ?_⟩
    · rw [← hk₂]
      exact hproc
    · rw [← hk₂]
      exact hcnt
    · rw [← hk₂]
      exact hpid
    · rw [htr', htr]
    · rw [hload']
      by_cases he : n = i
      · subst he
        exact if_pos rfl
      · rw [if_neg (by omega)]
        exact hload i (by omega)

end Fork

end KernelHobby
