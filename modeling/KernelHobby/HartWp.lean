import KernelHobby.HartCode

namespace KernelHobby
set_option autoImplicit true

/-- Code by what it may do: the handlers of a process may lose the hart, the scheduler gives it
away, `fixed` handlers keep it with interrupts off, and a first entry only releases. -/
inductive Kind where
  | proc | sched | fixed | entry
  deriving DecidableEq

/-- What is known of a hart at a place of its code: the locks it holds, whether it is between the
two halves of `acquire()` or `release()`, whether SIE and `intena` may be on. -/
structure Abs where
  held : List Lock
  mid : Bool
  ie : Bool
  ia : Bool

namespace Abs
variable {k : Kind} {σ σ' : Abs} {o : HartOp}

/-- The discipline: what an operation needs, and what is known after it. -/
def eff (k : Kind) (σ : Abs) : HartOp → Option Abs
  | .acquire l =>
    if σ.mid = false ∧ l ∉ σ.held ∧ k ≠ .entry ∧ (k = .sched ∨ σ.ie = false) then
      some ⟨σ.held, true, false, if σ.held = [] then σ.ie else σ.ia⟩
    else none
  | .spin l =>
    if σ.mid = true ∧ l ∉ σ.held then some { σ with held := l :: σ.held, mid := false } else none
  | .unlock l =>
    if σ.mid = false ∧ l ∈ σ.held then some { σ with held := σ.held.erase l, mid := true }
    else none
  | .popOff =>
    if σ.mid = true ∧ (k = .fixed → σ.held = [] → σ.ia = false) then
      some ⟨σ.held, false, if σ.held = [] then σ.ia else σ.ie, σ.ia⟩
    else none
  | .intrOn =>
    if k = .sched ∧ σ.held = [] ∧ σ.mid = false then some { σ with ie := true } else none
  | .swtch =>
    if k = .proc ∧ σ.held = [.pt] ∧ σ.mid = false then some { σ with ia := true } else none
  | .dispatch =>
    if k = .sched ∧ σ.held = [.pt] ∧ σ.mid = false then some { σ with ia := true } else none
  | .spawn => if k = .proc ∧ σ.mid = false then some σ else none
  | .reap => if k = .proc ∧ σ.mid = false then some σ else none
  | .user =>
    if (k = .proc ∨ k = .fixed) ∧ σ.mid = false ∧ .kmem ∉ σ.held ∧ .uart ∉ σ.held then some σ
    else none
  | .sret =>
    if (k = .proc ∨ k = .entry) ∧ σ.held = [] ∧ σ.mid = false then some σ else none

/-- Interrupts may be on only where no lock is held or being taken. -/
structure Ok (σ : Abs) : Prop where
  nodup : σ.held.Nodup
  ie : σ.ie = true → σ.held = [] ∧ σ.mid = false

/-- A place where SIE is off for sure, and stays off through nested sections. -/
structure Calm (σ : Abs) : Prop where
  mid : σ.mid = false
  ie : σ.ie = false
  ia : σ.held = [] → σ.ia = false

/-- What a handler starts from that traps in code at `σ`. -/
def enter (σ : Abs) : Abs := ⟨σ.held, false, false, if σ.held = [] then false else σ.ia⟩

/-- A trap from user mode. -/
def top : Abs := ⟨[], false, false, false⟩

/-- A context to which `swtch` comes back. -/
def resume : Abs := ⟨[.pt], false, false, true⟩

theorem enter_calm (σ : Abs) : σ.enter.Calm := by
  refine ⟨rfl, rfl, fun hh => ?_⟩
  exact if_pos hh

theorem enter_ok (h : σ.Ok) : σ.enter.Ok := ⟨h.nodup, nofun⟩

theorem top_calm : top.Calm := ⟨rfl, rfl, fun _ => rfl⟩

theorem resume_ok : resume.Ok := ⟨List.nodup_singleton _, nofun⟩

/-- Where a handler of user code or of a process may end. -/
def Free (σ : Abs) : Prop := σ.held = [] ∧ σ.mid = false

/-- Where code may stop for good: not in the middle of taking or giving back a lock. -/
def Still (σ : Abs) : Prop := σ.mid = false

theorem eff_ok (he : eff k σ o = some σ') (h : σ.Ok) : σ'.Ok := by
  cases o with
  | acquire l =>
    simp only [eff, Option.ite_none_right_eq_some, Option.some.injEq] at he
    obtain ⟨_, rfl⟩ := he
    exact ⟨h.nodup, nofun⟩
  | spin l =>
    simp only [eff, Option.ite_none_right_eq_some, Option.some.injEq] at he
    obtain ⟨⟨hm, hl⟩, rfl⟩ := he
    refine ⟨List.nodup_cons.2 ⟨hl, h.nodup⟩, fun hie => ?_⟩
    have := (h.ie hie).2
    rw [hm] at this
    cases this
  | unlock l =>
    simp only [eff, Option.ite_none_right_eq_some, Option.some.injEq] at he
    obtain ⟨⟨_, hl⟩, rfl⟩ := he
    refine ⟨h.nodup.erase l, fun hie => ?_⟩
    rw [(h.ie hie).1] at hl
    cases hl
  | popOff =>
    simp only [eff, Option.ite_none_right_eq_some, Option.some.injEq] at he
    obtain ⟨⟨hm, _⟩, rfl⟩ := he
    refine ⟨h.nodup, fun hie => ⟨?_, rfl⟩⟩
    by_cases hh : σ.held = []
    · exact hh
    · have hs : σ.ie = true := by simpa only [if_neg hh] using hie
      exact (h.ie hs).1
  | intrOn =>
    simp only [eff, Option.ite_none_right_eq_some, Option.some.injEq] at he
    obtain ⟨⟨_, hh, hm⟩, rfl⟩ := he
    exact ⟨h.nodup, fun _ => ⟨hh, hm⟩⟩
  | swtch =>
    simp only [eff, Option.ite_none_right_eq_some, Option.some.injEq] at he
    obtain ⟨_, rfl⟩ := he
    exact ⟨h.nodup, h.ie⟩
  | dispatch =>
    simp only [eff, Option.ite_none_right_eq_some, Option.some.injEq] at he
    obtain ⟨_, rfl⟩ := he
    exact ⟨h.nodup, h.ie⟩
  | spawn | reap | user | sret =>
    simp only [eff, Option.ite_none_right_eq_some, Option.some.injEq] at he
    obtain ⟨_, rfl⟩ := he
    exact h

end Abs

namespace Code
open Prog Abs
variable {k : Kind} {σ : Abs} {p q : Code} {Q : Abs → Prop} {l : Lock}

theorem last_wp (h : p.Wp (eff k) Still Q σ) : (block [p]).Wp (eff k) Still Q σ := h

theorem first_wp (h : p.Wp (eff k) Still ((block ps).Wp (eff k) Still Q) σ) :
    (block (p :: ps)).Wp (eff k) Still Q σ := h

theorem alt_wp (hp : p.Wp (eff k) Still Q σ) (hq : q.Wp (eff k) Still Q σ) :
    (alt p q).Wp (eff k) Still Q σ := ⟨hp, hq⟩

/-- The code does no harm at `σ` and comes back to it. -/
def Keeps (k : Kind) (σ : Abs) (p : Code) : Prop := p.Wp (eff k) Still (fun τ => τ = σ) σ

theorem Keeps.wp (hp : Keeps k σ p) (hq : Q σ) : p.Wp (eff k) Still Q σ := by
  have hw : p.Wp (eff k) Still (fun τ => τ = σ) σ := hp
  refine hw.mono ?_
  rintro τ rfl
  exact hq

theorem Keeps.first (hp : Keeps k σ p) (hq : (block ps).Wp (eff k) Still Q σ) :
    (block (p :: ps)).Wp (eff k) Still Q σ := hp.wp hq

theorem Keeps.done : Keeps k σ .done := rfl

theorem Keeps.halt (h : σ.mid = false) : Keeps k σ .halt := h

theorem Keeps.alt (hp : Keeps k σ p) (hq : Keeps k σ q) : Keeps k σ (Prog.alt p q) := ⟨hp, hq⟩

theorem Keeps.opt (hp : Keeps k σ p) : Keeps k σ (opt p) := Keeps.done.alt hp

theorem Keeps.loop (hp : Keeps k σ p) : Keeps k σ (Prog.loop p) := Wp.loop_same hp rfl

theorem Keeps.nil : Keeps k σ (block []) := rfl

theorem Keeps.cons (hp : Keeps k σ p) (hps : Keeps k σ (block ps)) : Keeps k σ (block (p :: ps)) :=
  hp.wp hps

def push (l : Lock) (σ : Abs) : Abs := { σ with held := l :: σ.held }

theorem push_calm (hc : σ.Calm) : (push l σ).Calm := ⟨hc.mid, hc.ie, nofun⟩

/-- Where a handler may take `kmem_lock` or `uart_lock`, or touch user memory. -/
structure Quiet (k : Kind) (σ : Abs) : Prop where
  kind : k = .proc ∨ k = .fixed
  calm : σ.Calm
  kmem : .kmem ∉ σ.held
  uart : .uart ∉ σ.held

theorem Quiet.push_pt (h : Quiet k σ) : Quiet k (push .pt σ) where
  kind := h.kind
  calm := push_calm h.calm
  kmem := fun hm => by
    rcases List.mem_cons.1 hm with he | hm
    · cases he
    · exact h.kmem hm
  uart := fun hm => by
    rcases List.mem_cons.1 hm with he | hm
    · cases he
    · exact h.uart hm

theorem Quiet.top (hk : k = .proc ∨ k = .fixed) : Quiet k top := ⟨hk, top_calm, nofun, nofun⟩

theorem acquire_wp (h : Quiet k σ) (hl : l ∉ σ.held) (hq : Q (push l σ)) :
    (acquire l).Wp (eff k) Still Q σ := by
  have hc := h.calm
  have hne : k ≠ .entry := by rcases h.kind with rfl | rfl <;> exact Kind.noConfusion
  have hia : (if σ.held = [] then σ.ie else σ.ia) = σ.ia := by
    split
    · rename_i hh
      rw [hc.ia hh, hc.ie]
    · rfl
  have ha : eff k σ (.acquire l) = some ⟨σ.held, true, false, σ.ia⟩ := by
    rw [eff, if_pos ⟨hc.mid, hl, hne, .inr hc.ie⟩, hia]
  have hs : eff k ⟨σ.held, true, false, σ.ia⟩ (.spin l) = some (push l σ) := by
    rw [eff, if_pos ⟨rfl, hl⟩, push, hc.mid, hc.ie]
  exact ⟨_, ha, _, hs, hq⟩

theorem release_wp (hc : σ.Calm) (hq : Q σ) : (release l).Wp (eff k) Still Q (push l σ) := by
  have hu : eff k (push l σ) (.unlock l) = some { σ with mid := true } := by
    rw [eff, if_pos ⟨hc.mid, List.mem_cons_self⟩, push, List.erase_cons_head]
  have hie : (if σ.held = [] then σ.ia else σ.ie) = σ.ie := by
    split
    · rename_i hh
      rw [hc.ia hh, hc.ie]
    · rfl
  have ho : eff k { σ with mid := true } .popOff = some σ := by
    rw [eff, if_pos ⟨rfl, fun _ => hc.ia⟩, hie, ← hc.mid]
  exact ⟨_, hu, _, ho, hq⟩

section Quiet
variable (h : Quiet k σ)
include h

theorem user_keeps : Keeps k σ (.op .user) := ⟨σ, if_pos ⟨h.kind, h.calm.mid, h.kmem, h.uart⟩, rfl⟩

theorem section_keeps (hl : l ∉ σ.held) : Keeps k σ (block [acquire l, release l]) :=
  acquire_wp h hl (release_wp h.calm rfl)

theorem section_alt_keeps (hl : l ∉ σ.held) :
    Keeps k σ (block [acquire l, Prog.alt (release l) (release l)]) :=
  acquire_wp h hl ⟨release_wp h.calm rfl, release_wp h.calm rfl⟩

theorem uartPutc_keeps : Keeps k σ uartPutc := section_keeps h h.uart

theorem uartPuts_keeps : Keeps k σ uartPuts := section_keeps h h.uart

theorem uartHex_keeps : Keeps k σ uartHex := section_keeps h h.uart

theorem uartDec_keeps : Keeps k σ uartDec := section_alt_keeps h h.uart

theorem kalloc_keeps : Keeps k σ kalloc := section_keeps h h.kmem

theorem krefInc_keeps : Keeps k σ krefInc := section_keeps h h.kmem

theorem kfree_keeps : Keeps k σ kfree := section_alt_keeps h h.kmem

theorem walk_keeps : Keeps k σ walk :=
  (kalloc_keeps h).opt.cons ((kalloc_keeps h).opt.cons .nil)

theorem mappages_keeps : Keeps k σ mappages :=
  (walk_keeps h).cons ((walk_keeps h).loop.cons ((uartPuts_keeps h).opt.cons .nil))

theorem kvmmap_keeps : Keeps k σ kvmmap :=
  (mappages_keeps h).cons (((uartPuts_keeps h).cons ((Keeps.halt h.calm.mid).cons .nil)).opt.cons .nil)

theorem mapKernel_keeps : Keeps k σ mapKernel := by
  have hm := kvmmap_keeps h
  exact hm.cons (hm.cons (hm.cons (hm.cons (hm.cons .nil))))

theorem procPagetable_keeps : Keeps k σ procPagetable := by
  have hm := mappages_keeps h
  exact (kalloc_keeps h).cons (((mapKernel_keeps h).cons (hm.cons (hm.cons .nil))).opt.cons .nil)

theorem freewalk_keeps : Keeps k σ freewalk :=
  (kfree_keeps h).loop.cons ((kfree_keeps h).cons .nil)

theorem vmFreeRange_keeps : Keeps k σ vmFreeRange := (kfree_keeps h).opt.loop

theorem uvmCowShare_keeps : Keeps k σ uvmCowShare :=
  ((mappages_keeps h).cons ((krefInc_keeps h).cons .nil)).opt.loop.cons
    ((mappages_keeps h).opt.cons .nil)

theorem uvmCowFault_keeps : Keeps k σ uvmCowFault :=
  ((kalloc_keeps h).cons ((kfree_keeps h).opt.cons .nil)).opt

theorem fsMessages_keeps : Keeps k σ fsMessages :=
  ((uartPutc_keeps h).alt ((uartPuts_keeps h).alt (uartDec_keeps h))).loop

theorem procFreeimage_keeps : Keeps k σ procFreeimage := by
  have hr := vmFreeRange_keeps h
  have hf := (kfree_keeps h).opt
  exact (hr.cons (hr.opt.cons .nil)).opt.cons
    (hf.cons (hf.cons (hf.cons ((freewalk_keeps h).opt.cons .nil))))

theorem faultMessage_keeps : Keeps k σ faultMessage :=
  (uartPuts_keeps h).cons ((uartHex_keeps h).cons ((uartPutc_keeps h).cons .nil))

theorem faultPage_keeps : Keeps k σ faultPage :=
  (kalloc_keeps h).cons
    (((mappages_keeps h).cons (((kfree_keeps h).alt (faultMessage_keeps h)).cons .nil)).opt.cons .nil)

theorem procPagefault_keeps : Keeps k σ procPagefault := by
  have hp := faultPage_keeps h
  exact ((uvmCowFault_keeps h).opt.cons
    (((faultMessage_keeps h).alt (hp.alt (hp.alt .done))).cons .nil)).opt

theorem exception_keeps : Keeps k σ exception := by
  have hs := uartPuts_keeps h
  have hx := uartHex_keeps h
  exact hs.cons (hx.cons (hs.cons (hx.cons (hs.cons (hx.cons
    ((uartPutc_keeps h).cons ((Keeps.halt h.calm.mid).cons .nil)))))))

theorem copyPath_keeps : Keeps k σ copyPath := (user_keeps h).loop

theorem consoleIntr_keeps (hl : .pt ∉ σ.held) : Keeps k σ consoleIntr := by
  have hr : (block [release .pt]).Wp (eff k) Still (fun τ => τ = σ) (push .pt σ) :=
    release_wp h.calm rfl
  refine acquire_wp h hl ⟨?_, release_wp h.calm rfl, ?_⟩
  · exact (uartPuts_keeps h.push_pt).opt.wp hr
  · exact (uartPutc_keeps h.push_pt).wp hr

theorem uartIntr_keeps (hl : .pt ∉ σ.held) : Keeps k σ uartIntr := (consoleIntr_keeps h hl).loop

end Quiet

/-- `pt_lock` alone is held: where `swtch` is called and where it comes back. -/
def Baton (σ : Abs) : Prop := σ.held = [.pt] ∧ σ.mid = false ∧ σ.ie = false

theorem Baton.quiet (h : Baton σ) : Quiet .proc σ := by
  obtain ⟨hh, hm, hi⟩ := h
  refine ⟨.inl rfl, ⟨hm, hi, fun he => ?_⟩, ?_, ?_⟩
  · rw [hh] at he
    cases he
  · rw [hh]
    decide
  · rw [hh]
    decide

theorem acquire_baton (hq : ∀ τ, Baton τ → Q τ) : (acquire .pt).Wp (eff .proc) Still Q top :=
  acquire_wp (Quiet.top (.inl rfl)) nofun (hq _ ⟨rfl, rfl, rfl⟩)

theorem swtch_baton (h : Baton σ) (hq : ∀ τ, Baton τ → Q τ) : (op .swtch).Wp (eff .proc) Still Q σ :=
  ⟨_, if_pos ⟨rfl, h.1, h.2.1⟩, hq _ h⟩

theorem release_baton (h : Baton σ) (hk : k ≠ .fixed) (hq : ∀ τ, Free τ → Q τ) :
    (release .pt).Wp (eff k) Still Q σ := by
  have hu : eff k σ (.unlock .pt) = some { σ with held := [], mid := true } := by
    rw [eff, h.1, if_pos ⟨h.2.1, List.mem_cons_self⟩, List.erase_cons_head]
  exact ⟨_, hu, _, if_pos ⟨rfl, fun he => absurd he hk⟩, hq _ ⟨rfl, rfl⟩⟩

theorem sleeps_baton (h : Baton σ) (hq : ∀ τ, Baton τ → Q τ) : (loop sleep).Wp (eff .proc) Still Q σ :=
  ⟨Baton, h, fun τ hτ => ⟨swtch_baton hτ fun _ h => h, hq τ hτ⟩⟩

theorem user_free (h : Free σ) (hq : Q σ) : (op .user).Wp (eff .proc) Still Q σ := by
  refine ⟨σ, if_pos ⟨.inl rfl, h.2, ?_, ?_⟩, hq⟩ <;> · rw [h.1]; exact List.not_mem_nil

theorem top_free : Free top := ⟨rfl, rfl⟩

/-- Code of a process that runs from a trap in user mode. -/
def Serves (p : Code) : Prop := p.Wp (eff .proc) Still Free top

theorem Keeps.serves (h : Keeps .proc top p) : Serves p := h.wp top_free

theorem yield_serves : Serves yield := by
  refine acquire_baton fun τ hτ => swtch_baton hτ fun ρ hρ => ?_
  exact release_baton hρ Kind.noConfusion fun _ h => h

theorem procExit_serves : Serves procExit :=
  acquire_baton fun _ hτ => swtch_baton hτ fun _ hρ => hρ.2.1

theorem procWait_serves : Serves procWait := by
  refine acquire_baton fun τ hτ => sleeps_baton hτ fun ρ hρ => ⟨?_, ?_⟩
  · have hr : (block [op .reap, release .pt]).Wp (eff .proc) Still Free ρ :=
      ⟨ρ, if_pos ⟨rfl, hρ.2.1⟩, release_baton hρ Kind.noConfusion fun _ h => h⟩
    exact (procFreeimage_keeps hρ.quiet).first hr
  · exact release_baton hρ Kind.noConfusion fun _ h => h

theorem consoleRead_serves : Serves consoleRead := by
  refine acquire_baton fun τ hτ => ⟨Baton, hτ, fun ρ hρ => ⟨?_, ?_⟩⟩
  · exact sleeps_baton hρ fun π hπ => (user_keeps hπ.quiet).wp hπ
  · exact release_baton hρ Kind.noConfusion fun _ h => h

theorem procFork_serves : Serves procFork := by
  have hq : Quiet .proc (push .pt top) := (Quiet.top (.inl rfl)).push_pt
  have hr : (release .pt).Wp (eff .proc) Still Free (push .pt top) := release_wp top_calm top_free
  have hs : (block [op .spawn, release .pt]).Wp (eff .proc) Still Free (push .pt top) :=
    first_wp ⟨_, rfl, last_wp hr⟩
  have hb := (kalloc_keeps hq).first ((krefInc_keeps hq).first ((procPagetable_keeps hq).first
    ((uvmCowShare_keeps hq).first ((user_keeps hq).first hs))))
  exact first_wp (acquire_wp (Quiet.top (.inl rfl)) nofun (last_wp (alt_wp hr hb)))

theorem procExec_serves : Serves procExec := by
  have hq : Quiet .proc top := Quiet.top (.inl rfl)
  have hr := vmFreeRange_keeps hq
  have he : (block [op .sret, halt]).Wp (eff .proc) Still Free top := first_wp ⟨top, rfl, rfl⟩
  have hs := hr.first (hr.opt.first ((uartPuts_keeps hq).opt.first ((kfree_keeps hq).opt.first he)))
  have hf : kfree.Wp (eff .proc) Still Free top := (kfree_keeps hq).wp top_free
  have hb := (kalloc_keeps hq).first ((uartPuts_keeps hq).opt.first (last_wp (alt_wp hf hs)))
  exact alt_wp top_free hb

theorem anyOf_serves (h : ∀ p ∈ ps, Serves p) : Serves (anyOf ps) := by
  induction ps with
  | nil => exact rfl
  | cons p ps ih => exact ⟨h p List.mem_cons_self, ih fun q hq => h q (List.mem_cons_of_mem p hq)⟩

theorem sysCall_serves (hp : p ∈ sysCall) : Serves p := by
  have hq : Quiet .proc top := Quiet.top (.inl rfl)
  have hs := uartPuts_keeps hq
  have hd := uartDec_keeps hq
  have hc := copyPath_keeps hq
  have hf := fsMessages_keeps hq
  simp only [sysCall, List.mem_cons, List.not_mem_nil, or_false] at hp
  rcases hp with rfl | rfl | rfl | rfl | rfl | rfl | rfl | rfl | rfl | rfl | rfl | rfl | rfl | rfl |
    rfl | rfl
  · exact (uartPutc_keeps hq).serves
  · exact hs.serves
  · exact Keeps.done.serves
  · exact procExit_serves
  · exact procFork_serves
  · exact hc.first procExec_serves
  · exact consoleRead_serves
  · exact procWait_serves
  · exact hf.serves
  · exact (hc.cons .nil).serves
  · exact (hs.cons (hd.cons (hs.cons (hd.cons (hs.cons .nil))))).serves
  · exact (hc.cons (hf.cons .nil)).serves
  · exact (hc.cons (hc.cons (hf.cons .nil))).serves
  · exact (hc.cons (hf.cons .nil)).serves
  · exact hf.serves
  · exact hs.serves

theorem syscall_serves : Serves syscall := by
  have ha : (anyOf sysCall).Wp (eff .proc) Still Free top := anyOf_serves fun p hp => sysCall_serves hp
  have hb : (block [anyOf sysCall, op .user]).Wp (eff .proc) Still Free top :=
    first_wp (ha.mono fun τ hτ => last_wp (user_free hτ hτ))
  exact (user_keeps (Quiet.top (.inl rfl))).first hb

/-- Every handler serves a trap from user mode. -/
theorem kerneltrap_serves (cur : Bool) (c : Cause) : Serves (kerneltrap cur c) := by
  have hq : Quiet .proc top := Quiet.top (.inl rfl)
  cases c with
  | timer =>
    cases cur with
    | false => exact top_free
    | true => exact yield_serves
  | external => exact (uartIntr_keeps hq nofun).opt.serves
  | unknown => exact (faultMessage_keeps hq).serves
  | ecall =>
    have hs : syscall.Wp (eff .proc) Still Free top := syscall_serves
    exact first_wp (hs.mono fun τ hτ => last_wp (user_free hτ hτ))
  | fault => exact ((procPagefault_keeps hq).cons ((exception_keeps hq).opt.cons .nil)).serves
  | other => exact (exception_keeps hq).serves

/-- The handler of an interrupt at a hart without a process. -/
theorem kerneltrap_interrupt_keeps (h : Quiet k σ) (hl : .pt ∉ σ.held) (hc : c.interrupt = true) :
    Keeps k σ (kerneltrap false c) := by
  cases c with
  | timer => exact rfl
  | external => exact (uartIntr_keeps h hl).opt
  | unknown => exact faultMessage_keeps h
  | ecall | fault | other => cases hc

theorem kerneltrap_fault_keeps (h : Quiet k σ) (cur : Bool) : Keeps k σ (kerneltrap cur .fault) :=
  (procPagefault_keeps h).cons ((exception_keeps h).opt.cons .nil)

theorem forkret_wp : forkret.Wp (eff .entry) Still Free resume :=
  release_baton ⟨rfl, rfl, rfl⟩ Kind.noConfusion fun _ h => h

theorem enterUser_wp : enterUser.Wp (eff .entry) Still (fun _ => False) resume :=
  release_baton ⟨rfl, rfl, rfl⟩ Kind.noConfusion fun τ hτ =>
    ⟨τ, if_pos ⟨.inr rfl, hτ.1, hτ.2⟩, hτ.2⟩

theorem scheduler_wp (h : Free σ) : scheduler.Wp (eff .sched) Still (fun _ => False) σ := by
  refine ⟨Free, h, fun τ hτ => ⟨?_, hτ.2⟩⟩
  have hi : eff .sched τ .intrOn = some { τ with ie := true } := if_pos ⟨rfl, hτ.1, hτ.2⟩
  have ha : eff .sched { τ with ie := true } (.acquire .pt) = some ⟨[], true, false, true⟩ := by
    rw [eff, hτ.1, if_pos ⟨hτ.2, nofun, Kind.noConfusion, .inl rfl⟩, if_pos rfl]
  have hs : eff .sched ⟨[], true, false, true⟩ (.spin .pt) = some ⟨[.pt], false, false, true⟩ := rfl
  refine ⟨_, hi, ⟨_, ha, _, hs, ?_⟩⟩
  refine ⟨Baton, ⟨rfl, rfl, rfl⟩, fun ρ hρ => ⟨?_, ?_⟩⟩
  · exact ⟨_, if_pos ⟨rfl, hρ.1, hρ.2.1⟩, hρ⟩
  · exact release_baton hρ Kind.noConfusion fun _ h => h

end Code

end KernelHobby
