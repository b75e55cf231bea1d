import Mathlib.Tactic

namespace KernelHobby
set_option autoImplicit true

def NPROC : Nat := 8
def INBUF : Nat := 128

/-- A slot of the process table, as a `struct proc *` names it. -/
abbrev Slot := Fin NPROC

/-- The slot of the first process. -/
def Slot.shell : Slot := ⟨0, Nat.succ_pos 7⟩

inductive ProcState where
  | unused | runnable | running | sleeping | zombie
  deriving DecidableEq

/-- What a sleeper waits for: nothing, console input, or the exit of a child. -/
inductive Chan where
  | none
  | inbuf
  | proc (p : Slot)
  deriving DecidableEq

/-- Where a saved context goes on. A first entry (`forkret`, `enter_user`) and a return from
`yield` release the lock; a sleeper goes on in its loop with the lock. -/
inductive Resume where
  | entry
  | yielded
  | waiting
  | reading (n i : Int)
  | exited

structure Proc where
  state : ProcState
  pid : Int
  parent : Option Slot
  chan : Chan
  pagetable : Nat
  resume : Resume

def Proc.zero : Proc := ⟨.unused, 0, none, .none, 0, .entry⟩

/-- What a hart does: `idle` and `user` are outside of the critical section of `pt_lock`, the
others inside. -/
inductive Ctl where
  | idle
  | scan
  | back
  | resume
  | user
  | wait
  | read (n i : Int)

/-- The process table, the console buffer and the harts. `scanAt` is the loop index in the
scheduler's own context. -/
structure Sys (H : Type) where
  lock : Option H
  proc : Slot → Proc
  nextPid : Int
  inbuf : Nat → UInt8
  inW : Nat
  inR : Nat
  kernelPt : Nat
  cpuProc : H → Option Slot
  satp : H → Nat
  scanAt : H → Nat
  ctl : H → Ctl

/-- What the environment chooses at a hart: to go on, or what the running process or an
interrupt does next. The page of a new page table is named by the allocator, 0 on failure. -/
inductive Act where
  | go
  | yield
  | exit
  | wait
  | read (n : Int)
  | fork (pt : Nat)
  | intr (c : UInt8)

def wakeup (proc : Slot → Proc) (chan : Chan) : Slot → Proc := fun q =>
  if (proc q).state = .sleeping ∧ (proc q).chan = chan then { proc q with state := .runnable }
  else proc q

def wakeParent (proc : Slot → Proc) : Option Slot → Slot → Proc
  | some q => wakeup proc (.proc q)
  | none => proc

/-- The first zombie that `proc_wait` of `p` finds. -/
def zombieChild (proc : Slot → Proc) (p : Slot) : Option Slot :=
  (List.finRange NPROC).find? fun q => (proc q).parent = some p ∧ (proc q).state = .zombie

def hasChild (proc : Slot → Proc) (p : Slot) : Bool :=
  (List.finRange NPROC).any fun q => (proc q).parent = some p

def freeSlot (proc : Slot → Proc) : Option Slot :=
  (List.finRange NPROC).find? fun q => (proc q).state = .unused

/-- A page table that a process still uses, or the kernel's. -/
def Sys.inUse (s : Sys H) (pt : Nat) : Bool :=
  pt = s.kernelPt || (List.finRange NPROC).any fun q =>
    (s.proc q).state ≠ .unused && (s.proc q).pagetable = pt

/-- The state part of `proc_freeimage` and of the reaping around it. -/
def Proc.reap (q : Proc) : Proc := { q with state := .unused, parent := none, pagetable := 0 }

namespace Sys
variable {H : Type} [DecidableEq H]

/-- Enter the critical section, or go on in it. -/
def inside (s : Sys H) (h : H) (c : Ctl) : Sys H :=
  { s with lock := some h, ctl := Function.update s.ctl h c }

def release (s : Sys H) (h : H) (c : Ctl) : Sys H :=
  { s with lock := none, ctl := Function.update s.ctl h c }

def setProc (s : Sys H) (p : Slot) (q : Proc) : Sys H :=
  { s with proc := Function.update s.proc p q }

/-- One iteration of the scheduler's loop, or its end. -/
def scanStep (s : Sys H) (h : H) : Sys H :=
  if hi : s.scanAt h < NPROC then
    let p : Slot := ⟨s.scanAt h, hi⟩
    if (s.proc p).state = .runnable then
      { (s.setProc p { s.proc p with state := .running }).inside h .resume with
        cpuProc := Function.update s.cpuProc h (some p)
        satp := Function.update s.satp h (s.proc p).pagetable }
    else { s with scanAt := Function.update s.scanAt h (s.scanAt h + 1) }
  else s.release h .idle

/-- The scheduler after `swtch` has come back to it. -/
def backStep (s : Sys H) (h : H) : Sys H :=
  { s.inside h .scan with
    satp := Function.update s.satp h s.kernelPt
    cpuProc := Function.update s.cpuProc h none
    scanAt := Function.update s.scanAt h (s.scanAt h + 1) }

/-- A process right after `swtch` has come to it. -/
def resumeStep (s : Sys H) (h : H) (p : Slot) : Option (Sys H) :=
  match (s.proc p).resume with
  | .entry => some (s.release h .user)
  | .yielded => some (s.release h .user)
  | .waiting => some ((s.setProc p { s.proc p with chan := .none }).inside h .wait)
  | .reading n i => some ((s.setProc p { s.proc p with chan := .none }).inside h (.read n i))
  | .exited => none

def sleep (s : Sys H) (h : H) (p : Slot) (c : Chan) (r : Resume) : Sys H :=
  (s.setProc p { s.proc p with chan := c, state := .sleeping, resume := r }).inside h .back

/-- One round of the loop of `proc_wait`. -/
def waitStep (s : Sys H) (h : H) (p : Slot) : Sys H :=
  match zombieChild s.proc p with
  | some q => (s.setProc q (s.proc q).reap).release h .user
  | none =>
    if hasChild s.proc p then s.sleep h p (.proc p) .waiting
    else s.release h .user

/-- One round of the loops of `console_read`, with `i` of at most `n` bytes read. -/
def readStep (s : Sys H) (h : H) (p : Slot) (n i : Int) : Sys H :=
  if i < n then
    if s.inR = s.inW then s.sleep h p .inbuf (.reading n i)
    else
      let s := { s with inR := s.inR + 1 }
      if s.inbuf ((s.inR - 1) % INBUF) = 10 then s.release h .user
      else s.inside h (.read n (i + 1))
  else s.release h .user

def yield (s : Sys H) (h : H) (p : Slot) : Sys H :=
  let q := s.proc p
  (s.setProc p { q with
    state := if q.state = .running then .runnable else q.state, resume := .yielded }).inside h .back

def procExit (s : Sys H) (h : H) (p : Slot) : Sys H :=
  let proc := wakeParent s.proc (s.proc p).parent
  let dead := { proc p with state := .zombie, resume := .exited }
  ({ s with proc := Function.update proc p dead }).inside h .back

def procFork (s : Sys H) (p : Slot) (pt : Nat) : Sys H :=
  match freeSlot s.proc with
  | none => s
  | some c =>
    let child := { s.proc c with
      state := .runnable, pid := s.nextPid, parent := some p, pagetable := pt, resume := .entry }
    { s.setProc c child with nextPid := s.nextPid + 1 }

def consoleIntr (s : Sys H) (c : UInt8) : Sys H :=
  let c := if c = 13 then 10 else c
  if c = 127 ∨ c = 8 then
    if s.inR < s.inW ∧ s.inbuf ((s.inW - 1) % INBUF) ≠ 10 then { s with inW := s.inW - 1 } else s
  else if INBUF ≤ s.inW - s.inR then s
  else
    { s with
      inbuf := Function.update s.inbuf (s.inW % INBUF) c
      inW := s.inW + 1
      proc := if c = 10 then wakeup s.proc .inbuf else s.proc }

/-- A step of hart `h`; `none` where it has to wait for the lock, or cannot act like that. -/
def step (s : Sys H) (h : H) (a : Act) : Option (Sys H) :=
  match a, s.ctl h, s.cpuProc h with
  | .go, .idle, _ =>
    if s.lock = none then
      some { s.inside h .scan with scanAt := Function.update s.scanAt h 0 }
    else none
  | .go, .scan, _ => some (s.scanStep h)
  | .go, .back, _ => some (s.backStep h)
  | .go, .resume, some p => s.resumeStep h p
  | .go, .wait, some p => some (s.waitStep h p)
  | .go, .read n i, some p => some (s.readStep h p n i)
  | .yield, .user, some p => if s.lock = none then some (s.yield h p) else none
  | .exit, .user, some p => if s.lock = none then some (s.procExit h p) else none
  | .wait, .user, some _ => if s.lock = none then some (s.inside h .wait) else none
  | .read n, .user, some _ => if s.lock = none then some (s.inside h (.read n 0)) else none
  | .fork pt, .user, some p =>
    if s.lock = none ∧ (pt = 0 ∨ s.inUse pt = false) then some (s.procFork p pt) else none
  | .intr c, .idle, _ => if s.lock = none then some (s.consoleIntr c) else none
  | .intr c, .user, _ => if s.lock = none then some (s.consoleIntr c) else none
  | _, _, _ => none

/-- All harts in the scheduler, the shell in slot 0 ready to run. -/
def boot (kernelPt shellPt : Nat) : Sys H where
  lock := none
  proc := Function.update (fun _ => Proc.zero) .shell
    { Proc.zero with state := .runnable, pid := 1, pagetable := shellPt }
  nextPid := 2
  inbuf := fun _ => 0
  inW := 0
  inR := 0
  kernelPt := kernelPt
  cpuProc := fun _ => none
  satp := fun _ => kernelPt
  scanAt := fun _ => 0
  ctl := fun _ => .idle

/-- The states that any interleaving of the harts reaches. -/
inductive Reach (kernelPt shellPt : Nat) : Sys H → Prop where
  | boot : Reach kernelPt shellPt (boot kernelPt shellPt)
  | step (h : H) (a : Act) : Reach kernelPt shellPt s → s.step h a = some s' →
      Reach kernelPt shellPt s'

/-- A run: which hart acts next, and how. -/
def run (s : Sys H) : List (H × Act) → Option (Sys H)
  | [] => some s
  | (h, a) :: as => (s.step h a).bind fun t => t.run as

theorem Reach.run {s : Sys H} {k t : Nat} (hr : Reach k t s) (hs : s.run as = some s') :
    Reach k t s' := by
  induction as generalizing s with
  | nil =>
    cases hs
    exact hr
  | cons a as ih =>
    obtain ⟨t, ht, hs⟩ := Option.bind_eq_some_iff.1 hs
    exact ih (hr.step a.1 a.2 ht) hs

end Sys

end KernelHobby
