import KernelHobby.Prog

namespace KernelHobby
set_option autoImplicit true

inductive Lock where
  | pt | kmem | uart
  deriving DecidableEq

/-- What the kernel's code does to locks, interrupts and contexts. `acquire` is `push_off` at the
head of `acquire()` and `spin` the exchange that finds the lock free; `unlock` and `popOff` are
the two halves of `release()`. `user` is an access to user memory, which may fault. -/
inductive HartOp where
  | acquire (l : Lock)
  | spin (l : Lock)
  | unlock (l : Lock)
  | popOff
  | intrOn
  | swtch
  | dispatch
  | spawn
  | reap
  | user
  | sret
  deriving DecidableEq

abbrev Code := Prog HartOp

namespace Code
open Prog

def block : List Code → Code
  | [] => done
  | p :: ps => seq p (block ps)

def opt (p : Code) : Code := alt done p

def acquire (l : Lock) : Code := block [op (.acquire l), op (.spin l)]

def release (l : Lock) : Code := block [op (.unlock l), op .popOff]

-- kalloc.c

def kalloc : Code := block [acquire .kmem, release .kmem]

def kfree : Code := block [acquire .kmem, alt (release .kmem) (release .kmem)]

def krefInc : Code := block [acquire .kmem, release .kmem]

-- uart.c

def uartPutc : Code := block [acquire .uart, release .uart]

def uartPuts : Code := block [acquire .uart, release .uart]

def uartDec : Code := block [acquire .uart, alt (release .uart) (release .uart)]

def uartHex : Code := block [acquire .uart, release .uart]

-- vm.c; `walk` is the walk that allocates, the other takes no lock

def walk : Code := block [opt kalloc, opt kalloc]

def mappages : Code := block [walk, loop walk, opt uartPuts]

def kvmmap : Code := block [mappages, opt (block [uartPuts, halt])]

def mapKernel : Code := block [kvmmap, kvmmap, kvmmap, kvmmap, kvmmap]

def procPagetable : Code := block [kalloc, opt (block [mapKernel, mappages, mappages])]

def remapUserCode : Code := opt uartPuts

def freewalk : Code := block [loop kfree, kfree]

def vmFreeRange : Code := loop (opt kfree)

def uvmCowShare : Code := block [loop (opt (block [mappages, krefInc])), opt mappages]

def uvmCowFault : Code := opt (block [kalloc, opt kfree])

-- elf.c and fs.c; the disk and the network are polled and take no lock

def loadElf : Code := opt uartPuts

def fsMessages : Code := loop (alt uartPutc (alt uartPuts uartDec))

-- proc.c

def forkret : Code := release .pt

def enterUser : Code := block [release .pt, op .sret, halt]

def procFork : Code :=
  block [acquire .pt,
    alt (release .pt)
      (block [kalloc, krefInc, procPagetable, uvmCowShare, op .user, op .spawn, release .pt])]

def procExec : Code :=
  opt (block [kalloc, loadElf,
    alt kfree
      (block [vmFreeRange, opt vmFreeRange, remapUserCode, opt kfree, op .sret, halt])])

def procFreeimage : Code :=
  block [opt (block [vmFreeRange, opt vmFreeRange]), opt kfree, opt kfree, opt kfree,
    opt freewalk]

def faultMessage : Code := block [uartPuts, uartHex, uartPutc]

def faultPage : Code := block [kalloc, opt (block [mappages, alt kfree faultMessage])]

def procPagefault : Code :=
  opt (block [opt uvmCowFault, alt faultMessage (alt faultPage (alt faultPage done))])

def scheduler : Code :=
  block [loop (block [op .intrOn, acquire .pt, loop (op .dispatch), release .pt]), halt]

def yield : Code := block [acquire .pt, op .swtch, release .pt]

def sleep : Code := op .swtch

def procExit : Code := block [acquire .pt, op .swtch, halt]

def procWait : Code :=
  block [acquire .pt, loop sleep,
    alt (block [procFreeimage, op .reap, release .pt]) (release .pt)]

-- console.c

def consoleIntr : Code :=
  block [acquire .pt,
    alt (block [opt uartPuts, release .pt])
      (alt (release .pt) (block [uartPutc, release .pt]))]

def consoleRead : Code := block [acquire .pt, loop (block [loop sleep, op .user]), release .pt]

def uartIntr : Code := loop consoleIntr

-- user.c; the trap frame is on the user's stack, and a path is in user memory

def copyPath : Code := loop (op .user)

def sysCall : List Code :=
  [uartPutc, uartPuts, done, procExit, procFork, block [copyPath, procExec], consoleRead, procWait,
    fsMessages, block [copyPath], block [uartPuts, uartDec, uartPuts, uartDec, uartPuts],
    block [copyPath, fsMessages], block [copyPath, copyPath, fsMessages],
    block [copyPath, fsMessages], fsMessages, uartPuts]

def anyOf : List Code → Code
  | [] => halt
  | p :: ps => alt p (anyOf ps)

def syscall : Code := block [op .user, anyOf sysCall, op .user]

-- trap.c

def exception : Code :=
  block [uartPuts, uartHex, uartPuts, uartHex, uartPuts, uartHex, uartPutc, halt]

end Code

/-- Why a hart traps. -/
inductive Cause where
  | timer | external | unknown | ecall | fault | other
  deriving DecidableEq

/-- Interrupts wait while SIE is off in the kernel, exceptions do not. -/
def Cause.interrupt : Cause → Bool
  | .timer | .external | .unknown => true
  | .ecall | .fault | .other => false

/-- The handler of a trap; `cur` says that the hart has a current process. -/
def kerneltrap (cur : Bool) : Cause → Code
  | .timer => if cur then Code.yield else .done
  | .external => Code.opt Code.uartIntr
  | .unknown => Code.faultMessage
  | .ecall => Code.block [Code.syscall, .op .user]
  | .fault => Code.block [Code.procPagefault, Code.opt Code.exception]
  | .other => Code.exception

end KernelHobby
