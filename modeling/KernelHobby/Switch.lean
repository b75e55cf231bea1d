import KernelHobby.Rv
import KernelHobby.Sched

namespace KernelHobby
set_option autoImplicit true

/-- The registers of `struct context`, with their places in it. -/
def ctxRegs : List (Reg × Nat) :=
  [(.ra, 0), (.sp, 8), (.s0, 16), (.s1, 24), (.s2, 32), (.s3, 40), (.s4, 48), (.s5, 56),
    (.s6, 64), (.s7, 72), (.s8, 80), (.s9, 88), (.s10, 96), (.s11, 104)]

/-- `swtch` up to its `ret`, which goes to the `ra` that was loaded. -/
def swtch : List Ins := saves .a0 ctxRegs ++ loads .a1 ctxRegs

/-- `uswitch` of the user threads. -/
def uswitch : List Ins := saves .a0 ctxRegs ++ loads .a1 ctxRegs

def CTXSZ : Nat := 112

/-- The 112 bytes at `b` are apart from those at `a`. -/
def CtxApart (a b : Word) : Prop :=
  ∀ i, i < CTXSZ → CTXSZ ≤ (b + BitVec.ofNat 64 i - a).toNat

theorem ctxRegs_inside (h : (r, o) ∈ ctxRegs) : o + 8 ≤ CTXSZ := by
  have hall : ∀ r ∈ ctxRegs, r.2 + 8 ≤ CTXSZ := by decide
  exact hall _ h

theorem ctxRegs_apart : Apart CTXSZ (ctxRegs.map Prod.snd) := ⟨by decide, by decide, by decide⟩

/-- The contents of a context for the registers `x`. -/
def ctxWords (x : Reg → Word) : List (Nat × Word) := ctxRegs.map fun r => (r.2, x r.1)

theorem ctxWords_apart (x : Reg → Word) : Apart CTXSZ ((ctxWords x).map Prod.fst) := by
  have he : (ctxWords x).map Prod.fst = ctxRegs.map Prod.snd := by
    rw [ctxWords, List.map_map]
    rfl
  rw [he]
  exact ctxRegs_apart

/-- A context in memory. -/
def VMem.Holds (m : VMem) (a : Word) (x : Reg → Word) : Prop :=
  ∀ r o, (r, o) ∈ ctxRegs → m.load (a + BitVec.ofNat 64 o) = x r

theorem holds_storeAll (m : VMem) (a : Word) (x : Reg → Word) :
    (m.storeAll a (ctxWords x)).Holds a x := by
  intro r o h
  exact (ctxWords_apart x).load_storeAll m (List.mem_map.2 ⟨(r, o), h, rfl⟩)

theorem VMem.Holds.congr {m m' : VMem} (h : m.Holds a x)
    (hm : ∀ i, i < CTXSZ → m' (a + BitVec.ofNat 64 i) = m (a + BitVec.ofNat 64 i)) :
    m'.Holds a x := by
  intro r o ho
  rw [← h r o ho]
  apply VMem.load_congr
  intro i hi
  have hin := ctxRegs_inside ho
  rw [BitVec.add_assoc, BitVec.ofNat_add_ofNat]
  exact hm _ (by omega)

/-- A context stays as it is when another one is stored. -/
theorem VMem.Holds.storeAll {m : VMem} (h : m.Holds b x) (ha : CtxApart a b) (y : Reg → Word) :
    (m.storeAll a (ctxWords y)).Holds b x := by
  apply h.congr
  intro i hi
  exact (ctxWords_apart y).storeAll_outside m (ha i hi)

theorem swtch_spec (s : Rv) : (s.run swtch).mem = s.mem.storeAll (s.x .a0) (ctxWords s.x) ∧
    (∀ y, s.mem.Holds (s.x .a1) y → CtxApart (s.x .a0) (s.x .a1) →
      ∀ r o, (r, o) ∈ ctxRegs → (s.run swtch).x r = y r) ∧
    ∀ r, r ∉ ctxRegs.map Prod.fst → (s.run swtch).x r = s.x r := by
  rw [swtch, Rv.run_append, Rv.run_saves]
  obtain ⟨hmem, _, hin, hout⟩ := Rv.run_loads
    { s with mem := s.mem.storeAll (s.x .a0) (ctxRegs.map fun r => (r.2, s.x r.1)) }
    .a1 ctxRegs (by decide) (by decide)
  refine ⟨hmem, fun y hh ha r o h => ?_, hout⟩
  exact (hin _ h).trans (hh.storeAll ha s.x r o h)

/-- Threads on harts: the registers of each hart, memory, the thread that each hart runs, and, for
the record, the registers that a thread should find when it goes on. -/
structure Threads (H T : Type) where
  x : H → Reg → Word
  mem : VMem
  cur : H → T
  saved : T → Option (Reg → Word)

namespace Threads
variable {H T : Type} [DecidableEq H] [DecidableEq T]

/-- No hart runs the thread. -/
def Off (s : Threads H T) (t : T) : Prop := ∀ h, s.cur h ≠ t

/-- The registers with which a new thread starts. -/
def firstRegs (ra sp : Word) : Reg → Word := fun r => if r = .ra then ra else if r = .sp then sp else 0

/-- What hart `h` sees. -/
def rv (s : Threads H T) (h : H) : Rv := ⟨s.x h, fun _ => 0, s.mem⟩

/-- `swtch` on hart `h`, into the context of thread `u`. -/
def switch (s : Threads H T) (h : H) (u : T) : Threads H T :=
  let r := (s.rv h).run swtch
  ⟨Function.update s.x h r.x, r.mem, Function.update s.cur h u,
    Function.update s.saved (s.cur h) (some (s.x h))⟩

/-- A new context is made: cleared, and given an entry and a stack. -/
def create (s : Threads H T) (a : Word) (t : T) (ra sp : Word) : Threads H T :=
  { s with
    mem := s.mem.storeAll a (ctxWords (firstRegs ra sp))
    saved := Function.update s.saved t (some (firstRegs ra sp)) }

omit [DecidableEq H] in
theorem create_saved (s : Threads H T) (a : Word) (t : T) (ra sp : Word) :
    (s.create a t ra sp).saved t = some (firstRegs ra sp) := Function.update_self ..

/-- Hart `h` may switch to thread `u`: the arguments are the two contexts, and no hart runs `u`. -/
structure CanSwitch (ctx : T → Word) (s : Threads H T) (h : H) (u : T) : Prop where
  old : s.x h .a0 = ctx (s.cur h)
  new : s.x h .a1 = ctx u
  off : s.Off u

/-- The threads run in any order on any harts. A thread that runs does with registers and memory
what it likes, but for the contexts of the others. -/
inductive Step (ctx : T → Word) (s : Threads H T) : Threads H T → Prop where
  | work (h : H) (x : Reg → Word) (m : VMem)
      (hm : ∀ t, s.Off t → ∀ i, i < CTXSZ →
        m (ctx t + BitVec.ofNat 64 i) = s.mem (ctx t + BitVec.ofNat 64 i)) :
      Step ctx s { s with x := Function.update s.x h x, mem := m }
  | create (t : T) (ra sp : Word) (ht : s.Off t) : Step ctx s (s.create (ctx t) t ra sp)
  | switch (h : H) (u : T) (hu : s.CanSwitch ctx h u) : Step ctx s (s.switch h u)

/-- Contexts are apart, and every hart has its own thread at the start. -/
structure Start (ctx : T → Word) (s : Threads H T) : Prop where
  apart : ∀ t u, t ≠ u → CtxApart (ctx t) (ctx u)
  cur : Function.Injective s.cur
  saved : ∀ t, s.saved t = none

/-- A thread that no hart runs finds its registers in its context. -/
structure Inv (ctx : T → Word) (s : Threads H T) : Prop where
  cur : Function.Injective s.cur
  held : ∀ t x, s.saved t = some x → s.Off t → s.mem.Holds (ctx t) x

variable {ctx : T → Word} {s s' : Threads H T}

omit [DecidableEq H] [DecidableEq T] in
theorem Start.inv (h : Start ctx s) : Inv ctx s where
  cur := h.cur
  held t x hx := by
    rw [h.saved t] at hx
    cases hx

theorem switch_mem (hu : s.CanSwitch ctx h u) :
    (s.switch h u).mem = s.mem.storeAll (ctx (s.cur h)) (ctxWords (s.x h)) := by
  rw [switch, ← hu.old]
  dsimp only
  rw [(swtch_spec (s.rv h)).1, rv]

/-- A thread that no hart runs after a switch: the one that was left, or one that was off before. -/
theorem off_switch (hoff : (s.switch h u).Off t) : t ≠ u ∧ (t = s.cur h ∨ s.Off t) := by
  have hcur (h' : H) : Function.update s.cur h u h' ≠ t := hoff h'
  refine ⟨?_, ?_⟩
  · rintro rfl
    exact hcur h (Function.update_self ..)
  · by_cases ht : t = s.cur h
    · exact .inl ht
    · refine .inr fun h' => ?_
      by_cases hh : h' = h
      · rw [hh]
        exact Ne.symm ht
      · have hne := hcur h'
        rwa [Function.update_of_ne hh] at hne

theorem Inv.step (hi : Inv ctx s) (ha : ∀ t u, t ≠ u → CtxApart (ctx t) (ctx u))
    (hs : Step ctx s s') : Inv ctx s' := by
  cases hs with
  | work h x m hm => exact ⟨hi.cur, fun t y hy hoff => (hi.held t y hy hoff).congr (hm t hoff)⟩
  | create t ra sp ht =>
    refine ⟨hi.cur, fun v y hy hoff => ?_⟩
    have hy' : Function.update s.saved t (some (firstRegs ra sp)) v = some y := hy
    by_cases hv : v = t
    · subst hv
      rw [Function.update_self] at hy'
      cases hy'
      exact holds_storeAll _ _ _
    · rw [Function.update_of_ne hv] at hy'
      exact (hi.held v y hy' hoff).storeAll (ha t v (Ne.symm hv)) _
  | switch h u hu =>
    constructor
    · intro h₁ h₂ he
      have he' : Function.update s.cur h u h₁ = Function.update s.cur h u h₂ := he
      by_cases h₁h : h₁ = h
      · by_cases h₂h : h₂ = h
        · exact h₁h.trans h₂h.symm
        · rw [h₁h, Function.update_self, Function.update_of_ne h₂h] at he'
          exact absurd he'.symm (hu.off h₂)
      · by_cases h₂h : h₂ = h
        · rw [h₂h, Function.update_self, Function.update_of_ne h₁h] at he'
          exact absurd he' (hu.off h₁)
        · rw [Function.update_of_ne h₁h, Function.update_of_ne h₂h] at he'
          exact hi.cur he'
    · intro t y hy hoff
      have hy' : Function.update s.saved (s.cur h) (some (s.x h)) t = some y := hy
      rw [switch_mem hu]
      by_cases ht : t = s.cur h
      · subst ht
        rw [Function.update_self] at hy'
        cases hy'
        exact holds_storeAll _ _ _
      · rw [Function.update_of_ne ht] at hy'
        have hoff' := (off_switch hoff).2.resolve_left ht
        exact (hi.held t y hy' hoff').storeAll (ha _ t (Ne.symm ht)) _

theorem Inv.run (hi : Inv ctx s) (ha : ∀ t u, t ≠ u → CtxApart (ctx t) (ctx u))
    (hs : Relation.ReflTransGen (Step ctx) s s') : Inv ctx s' := by
  induction hs with
  | refl => exact hi
  | tail _ hstep ih => exact ih.step ha hstep

/-- A thread that is switched to goes on with the registers that it had when it switched away, or
with those of its new context. -/
theorem Inv.resume (hi : Inv ctx s) (ha : ∀ t u, t ≠ u → CtxApart (ctx t) (ctx u))
    (hu : s.CanSwitch ctx h u) (hx : s.saved u = some y) (hr : (r, o) ∈ ctxRegs) :
    (s.switch h u).x h r = y r := by
  have hheld := hi.held u y hx hu.off
  have hapart := ha _ u (hu.off h)
  rw [← hu.new] at hheld hapart
  rw [← hu.old] at hapart
  have hload := (swtch_spec (s.rv h)).2.1 y hheld hapart r o hr
  have hx' : (s.switch h u).x h = ((s.rv h).run swtch).x := Function.update_self ..
  rw [hx']
  exact hload

end Threads

def NCPU : Nat := 4

def sizeofProc : Nat := 232

/-- The threads that `swtch` goes between: the processes, and the schedulers of the harts. -/
abbrev KThread := Slot ⊕ Fin NCPU

/-- Where the contexts of the kernel are: in `proctable`, after the state, and in `cpu_sched`. -/
def kernelCtx (proctable cpuSched : Word) : KThread → Word
  | .inl p => proctable + BitVec.ofNat 64 (sizeofProc * p.val + 8)
  | .inr id => cpuSched + BitVec.ofNat 64 (CTXSZ * id.val)

/-- The two arrays do not overlap. -/
def ArraysApart (proctable cpuSched : Word) : Prop :=
  NCPU * CTXSZ ≤ (proctable - cpuSched).toNat ∧
    NPROC * sizeofProc ≤ (cpuSched - proctable).toNat

/-- Contexts in one array. -/
theorem ctxApart_offset (p : Word) (hi : i < 2 ^ 32) (hj : j < 2 ^ 32)
    (h : i + CTXSZ ≤ j ∨ j + CTXSZ ≤ i) :
    CtxApart (p + BitVec.ofNat 64 i) (p + BitVec.ofNat 64 j) := by
  intro n hn
  simp only [CTXSZ] at h hn ⊢
  rw [BitVec.add_assoc, BitVec.ofNat_add_ofNat, dist_add p (by omega) (by omega)]
  omega

/-- Contexts in two arrays. -/
theorem ctxApart_arrays {a b : Word} (ha : n ≤ (b - a).toNat) (hb : m ≤ (a - b).toNat)
    (hi : i + CTXSZ ≤ n) (hj : j + CTXSZ ≤ m) :
    CtxApart (a + BitVec.ofNat 64 i) (b + BitVec.ofNat 64 j) := by
  intro k hk
  simp only [CTXSZ] at hi hj hk ⊢
  have hlt := (b - a).isLt
  have hlt' := a.isLt
  have hlt'' := b.isLt
  rw [BitVec.toNat_sub] at ha hb
  rw [BitVec.toNat_sub, BitVec.toNat_add, BitVec.toNat_add, BitVec.toNat_add, BitVec.toNat_ofNat,
    BitVec.toNat_ofNat, BitVec.toNat_ofNat]
  omega

theorem kernelCtx_apart (h : ArraysApart pt cs) (t u : KThread) (ht : t ≠ u) :
    CtxApart (kernelCtx pt cs t) (kernelCtx pt cs u) := by
  obtain ⟨hlo, hhi⟩ := h
  have hproc (p : Slot) : sizeofProc * p.val + 8 + CTXSZ ≤ NPROC * sizeofProc := by
    have hp : p.val < 8 := p.isLt
    simp only [sizeofProc, CTXSZ, NPROC]
    omega
  have hcpu (id : Fin NCPU) : CTXSZ * id.val + CTXSZ ≤ NCPU * CTXSZ := by
    have hid : id.val < 4 := id.isLt
    simp only [CTXSZ, NCPU]
    omega
  cases t with
  | inl p =>
    cases u with
    | inl q =>
      have hne : p.val ≠ q.val := fun he => ht (congrArg Sum.inl (Fin.ext he))
      have hp := hproc p
      have hq := hproc q
      simp only [sizeofProc, CTXSZ, NPROC] at hp hq
      refine ctxApart_offset pt ?_ ?_ ?_
      all_goals
        simp only [sizeofProc, CTXSZ]
        omega
    | inr id => exact ctxApart_arrays hhi hlo (hproc p) (hcpu id)
  | inr id =>
    cases u with
    | inl q => exact ctxApart_arrays hlo hhi (hcpu id) (hproc q)
    | inr id' =>
      have hne : id.val ≠ id'.val := fun he => ht (congrArg Sum.inr (Fin.ext he))
      have hp := hcpu id
      have hq := hcpu id'
      simp only [CTXSZ, NCPU] at hp hq
      refine ctxApart_offset cs ?_ ?_ ?_
      all_goals
        simp only [CTXSZ]
        omega

/-- Every hart is in its scheduler, about to switch to the first process. -/
def Threads.schedulers (ctx : KThread → Word) : Threads (Fin NCPU) KThread :=
  ⟨fun id r => if r = .a0 then ctx (.inr id) else ctx (.inl .shell), fun _ => 0, .inr, fun _ => none⟩

end KernelHobby
