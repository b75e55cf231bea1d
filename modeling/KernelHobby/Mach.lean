import KernelHobby.HartCode
import KernelHobby.Sched

namespace KernelHobby
set_option autoImplicit true

/-- What `kernelvec` saves of the code it interrupts, `none` for user code: SIE and `tp`. The
frame on the stack of a forked child is not from a trap of its own. -/
structure Frame (H : Type) where
  code : Option Code
  sie : Bool
  tp : H
  trap : Bool

/-- A thread of control: its code, `none` in user mode, over its trap frames. `mine` is SIE at its
pending outermost `acquire`. -/
structure Ctx (H : Type) where
  code : Option Code
  frames : List (Frame H)
  mine : Option Bool

/-- What a slot of the process table has of a thread. -/
inductive Seat (H : Type) where
  | free
  | running
  | saved (c : Ctx H)

/-- The harts and what they share. `held` and `start` are for the statements only: the locks that
the code on a hart holds, and SIE at the `acquire` that took its `noff` from 0. -/
structure Mach (H : Type) where
  locked : Lock → Bool
  noff : H → Int
  intena : H → Bool
  sie : H → Bool
  tp : H → H
  cpuProc : H → Option Slot
  cur : H → Ctx H
  cpuSched : H → Option (Ctx H)
  seat : Slot → Seat H
  held : H → List Lock
  start : H → Bool

namespace Mach
variable {H : Type} [DecidableEq H]

def setCur (m : Mach H) (h : H) (c : Ctx H) : Mach H :=
  { m with cur := Function.update m.cur h c }

def setCode (m : Mach H) (h : H) (p : Code) : Mach H :=
  m.setCur h { m.cur h with code := some p }

def setSie (m : Mach H) (h : H) (b : Bool) : Mach H :=
  { m with sie := Function.update m.sie h b }

def setTp (m : Mach H) (h t : H) : Mach H :=
  { m with tp := Function.update m.tp h t }

def setSeat (m : Mach H) (p : Slot) (x : Seat H) : Mach H :=
  { m with seat := Function.update m.seat p x }

def setMine (m : Mach H) (h : H) (b : Option Bool) : Mach H :=
  m.setCur h { m.cur h with mine := b }

/-- `push_off`: the nesting of the core that `tp` names. -/
def pushOff (m : Mach H) (h : H) : Mach H :=
  let old := m.sie h
  let t := m.tp h
  let m := m.setSie h false
  let m := if m.noff t = 0 then
      { m with
        intena := Function.update m.intena t old
        start := Function.update m.start h old }.setMine h (some old)
    else m
  { m with noff := Function.update m.noff t (m.noff t + 1) }

def popOff (m : Mach H) (h : H) : Mach H :=
  let t := m.tp h
  let m := { m with noff := Function.update m.noff t (m.noff t - 1) }
  if m.noff t = 0 then
    (if m.intena t then m.setSie h true else m).setMine h none
  else m

def lock (m : Mach H) (h : H) (l : Lock) : Mach H :=
  { m with
    locked := Function.update m.locked l true
    held := Function.update m.held h (l :: m.held h) }

def unlock (m : Mach H) (h : H) (l : Lock) : Mach H :=
  { m with
    locked := Function.update m.locked l false
    held := Function.update m.held h ((m.held h).erase l) }

/-- `swtch` from the process of the core that `tp` names to the scheduler, which then has no
current process. Without a process `sleep` and `yield` return at once. -/
def swtch (m : Mach H) (h : H) : Option (Mach H) :=
  match m.cpuProc (m.tp h) with
  | none => some m
  | some p =>
    match m.cpuSched (m.tp h) with
    | none => none
    | some c => some { (m.setSeat p (.saved (m.cur h))).setCur h c with
        cpuProc := Function.update m.cpuProc h none }

/-- `swtch` from the scheduler to a process. -/
def dispatch (m : Mach H) (h : H) (p : Slot) : Option (Mach H) :=
  match m.seat p with
  | .saved c => some { (m.setSeat p .running).setCur h c with
      cpuSched := Function.update m.cpuSched h (some (m.cur h))
      cpuProc := Function.update m.cpuProc h (some p) }
  | _ => none

/-- The forked child: it starts in `forkret` over a copy of its parent's trap frame. -/
def child (m : Mach H) (h : H) : Ctx H :=
  ⟨some Code.forkret,
    (m.cur h).frames.head?.toList.map fun f => { f with code := none, trap := false }, none⟩

/-- The operation `o` of the code on hart `h`, with what the code chooses as `p`. -/
def exec (m : Mach H) (h : H) (p : Slot) : HartOp → Option (Mach H)
  | .acquire _ => some (m.pushOff h)
  | .spin l => if m.locked l then none else some (m.lock h l)
  | .unlock l => some (m.unlock h l)
  | .popOff => some (m.popOff h)
  | .intrOn => some (m.setSie h true)
  | .swtch => m.swtch h
  | .dispatch => m.dispatch h p
  | .spawn =>
    match m.seat p with
    | .free => some (m.setSeat p (.saved (m.child h)))
    | _ => none
  | .reap =>
    match m.seat p with
    | .saved _ => some (m.setSeat p .free)
    | _ => none
  | .user => some m
  | .sret => some ((m.setCur h ⟨none, [], none⟩).setSie h true)

/-- `kernelvec`: save a frame, turn interrupts off, take the hart's own id from `sscratch`. -/
def kernelvec (m : Mach H) (h : H) (c : Cause) : Mach H :=
  let f : Frame H := ⟨(m.cur h).code, m.sie h, m.tp h, true⟩
  let m := (m.setSie h false).setTp h h
  m.setCur h
    { m.cur h with
      code := some (kerneltrap (m.cpuProc h).isSome c)
      frames := f :: (m.cur h).frames }

/-- `trapret`: back to what the frame has. -/
def trapret (m : Mach H) (h : H) : Option (Mach H) :=
  match (m.cur h).code, (m.cur h).frames with
  | some p, f :: fs =>
    if p.ends then
      some (((m.setCur h { m.cur h with code := f.code, frames := fs }).setSie h f.sie).setTp h
        f.tp)
    else none
  | _, _ => none

/-- What happens at a hart: its code goes on, it traps, its code faults at an access to user
memory, a handler returns. `lost` is the return that an interrupt between the restore of `sepc`
and `sret` sends astray, and `drift` what user code, or code gone astray, does to the registers. -/
inductive Act (H : Type) where
  | op (i : Nat) (p : Slot)
  | trap (c : Cause)
  | fault (i : Nat)
  | trapret
  | lost (b : Bool) (t : H)
  | drift (b : Bool) (t : H)

/-- The `i`-th operation that the code on the hart can do next. -/
def nextOp (m : Mach H) (h : H) (i : Nat) : Option (HartOp × Code) :=
  match (m.cur h).code with
  | some p => p.next[i]?
  | none => none

def step (m : Mach H) (h : H) : Act H → Option (Mach H)
  | .op i p =>
    match m.nextOp h i with
    | some (o, q) => (m.setCode h q).exec h p o
    | none => none
  | .trap c =>
    if (m.cur h).code = none ∨ c.interrupt ∧ m.sie h then some (m.kernelvec h c) else none
  | .fault i =>
    match m.nextOp h i with
    | some (.user, _) => some (m.kernelvec h .fault)
    | _ => none
  | .trapret => m.trapret h
  | .lost b t =>
    match m.trapret h with
    | some m' =>
      if m.sie h then some (((m'.setCur h ⟨none, [], none⟩).setSie h b).setTp h t) else none
    | none => none
  | .drift b t =>
    if (m.cur h).code = none then some ((m.setSie h b).setTp h t) else none

/-- Every hart enters the scheduler, and the first process is ready to enter user mode. -/
def boot (sie : H → Bool) : Mach H where
  locked _ := false
  noff _ := 0
  intena _ := false
  sie := sie
  tp h := h
  cpuProc _ := none
  cur _ := ⟨some Code.scheduler, [], none⟩
  cpuSched _ := none
  seat := Function.update (fun _ => .free) .shell (.saved ⟨some Code.enterUser, [], none⟩)
  held _ := []
  start _ := false

/-- The machine after a list of steps of the harts, where they are possible. -/
def run (m : Mach H) : List (H × Act H) → Option (Mach H)
  | [] => some m
  | (h, a) :: as =>
    match m.step h a with
    | some m' => run m' as
    | none => none

end Mach

end KernelHobby
