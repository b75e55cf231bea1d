import KernelHobby.Elf
import KernelHobby.Sched

namespace KernelHobby
set_option autoImplicit true

/-- How far a copy-on-write fault has come: the copy is allocated, filled, mapped in place of the
shared page, which is then given back. `loc` is the entry and `va` the page of the fault. -/
inductive Cow where
  | idle
  | got (va : Nat) (loc : Nat × Nat) (fresh old : Nat)
  | copied (va : Nat) (loc : Nat × Nat) (fresh old : Nat)
  | mapped (va old : Nat)

/-- A process; pages by their numbers, 0 for none, and a process that is alive is `runnable`. -/
structure UProc where
  state : ProcState
  pid : Int
  parent : Option Slot
  pagetable : Nat
  ucode : Nat
  ustack : Nat
  kstack : Nat
  heapTop : Nat
  mmapBase : Nat
  mmapStart : Nat
  mmapSize : Nat
  tfVa : Nat
  cow : Cow

def UProc.zero : UProc := ⟨.unused, 0, none, 0, 0, 0, 0, 0, 0, 0, 0, 0, .idle⟩

/-- Where the mapping of a file ends; the size is rounded up as a 32-bit number. -/
def UProc.mend (q : UProc) : Nat :=
  q.mmapBase + (q.mmapSize + PGSIZE - 1) % 2 ^ 32 / PGSIZE * PGSIZE

structure Kern where
  phys : Phys
  proc : Slot → UProc
  nextPid : Int
  kernelPt : Nat

/-- Store a 64-bit word at any byte address. -/
def Mem.pokeWord (m : Mem) (a v : Nat) : Mem :=
  (List.range 8).foldl (fun m i => m.poke (wrap64 (a + i)) (leByte v i)) m

/-- An address range of a page table has a mapped page. -/
def Phys.mappedIn (s : Phys) (pt start stop : Nat) : Bool :=
  (List.range (Phys.pages start stop)).any fun i =>
    match (s.walk pt (start + i * PGSIZE) false).1 with
    | some (n, j) => (s.mem n).word j &&& PTE_V ≠ 0
    | none => false

namespace Kern

def setProc (k : Kern) (p : Slot) (q : UProc) : Kern :=
  { k with proc := Function.update k.proc p q }

def setPhys (k : Kern) (s : Phys) : Kern := { k with phys := s }

@[simp] theorem setProc_self (k : Kern) (p : Slot) (q : UProc) : (k.setProc p q).proc p = q :=
  Function.update_self ..

theorem setProc_of_ne (k : Kern) (q : UProc) (h : r ≠ p) : (k.setProc p q).proc r = k.proc r :=
  Function.update_of_ne h _ _

@[simp] theorem setProc_phys (k : Kern) (p : Slot) (q : UProc) : (k.setProc p q).phys = k.phys := rfl

@[simp] theorem setPhys_phys (k : Kern) (s : Phys) : (k.setPhys s).phys = s := rfl

@[simp] theorem setPhys_proc (k : Kern) (s : Phys) : (k.setPhys s).proc = k.proc := rfl

def freeSlot (k : Kern) : Option Slot :=
  (List.finRange NPROC).find? fun q => (k.proc q).state = .unused

def zombieChild (k : Kern) (p : Slot) : Option Slot :=
  (List.finRange NPROC).find? fun q => (k.proc q).parent = some p ∧ (k.proc q).state = .zombie

/-- The page table that `fork` shares into. A null table is not looked at as long as the parent has
no heap page; else the kernel stops with a fault. -/
def shareHeap (s : Phys) (parent : UProc) (pt : Nat) : Option Phys :=
  if pt ≠ 0 then some (s.uvmCowShare parent.pagetable pt HEAPBASE parent.heapTop)
  else if s.mappedIn parent.pagetable HEAPBASE parent.heapTop then none
  else some s

/-- `proc_fork` with the trap frame at `f`, which says that the `ecall` was at `sepc`. It stops
the kernel where it writes through the null pointer of a failed `kalloc`. -/
def procFork (L : Layout) (k : Kern) (p : Slot) (f sepc : Nat) : Option Kern :=
  match k.freeSlot with
  | none => some k
  | some c =>
    let parent := k.proc p
    let (ustack, s) := k.phys.kalloc
    if ustack = 0 then none
    else do
      let s := s.setMem (s.mem.setPage ustack (s.mem parent.ustack))
      let s := s.krefInc parent.ucode
      let (pt, s) ← s.procPagetable L parent.ucode ustack
      let s ← shareHeap s parent pt
      let cf := ustack * PGSIZE + 2 ^ 64 + f - USERSTACK
      let m := s.mem.pokeWord (wrap64 (cf + 64)) 0
      let m := m.pokeWord (wrap64 (cf + 240)) (wrap64 (sepc + 4))
      let child : UProc :=
        { k.proc c with
          state := .runnable, pid := k.nextPid, parent := some p
          pagetable := pt, ucode := parent.ucode, ustack := ustack, kstack := 0
          heapTop := parent.heapTop, mmapBase := 0, tfVa := f, cow := .idle }
      some { (k.setPhys (s.setMem m)).setProc c child with nextPid := k.nextPid + 1 }

/-- The heap and the mapped file of a process are given back. -/
def freeRanges (s : Phys) (q : UProc) : Phys :=
  let s := s.vmFreeRange q.pagetable HEAPBASE q.heapTop
  if q.mmapBase ≠ 0 then s.vmFreeRange q.pagetable q.mmapBase q.mend else s

/-- `proc_exec` of the file that was read, `none` without one. -/
def procExec (k : Kern) (p : Slot) : Option ElfImage → Option Kern
  | none => some k
  | some img =>
    let q := k.proc p
    let (newcode, s) := k.phys.kalloc
    if newcode = 0 then none
    else
      let (ok, m) := loadElf img newcode (s.mem.setPage newcode Page.zero)
      let s := s.setMem m
      if !ok then some (k.setPhys (s.kfree newcode))
      else
        let s := (freeRanges s q).remapUserCode q.pagetable newcode
        let s := if q.ucode ≠ 0 then s.kfree q.ucode else s
        some ((k.setPhys s).setProc p
          { q with heapTop := HEAPBASE, mmapBase := 0, ucode := newcode })

def kfreeField (s : Phys) (n : Nat) : Phys := if n ≠ 0 then s.kfree n else s

def procFreeimage (k : Kern) (p : Slot) : Kern :=
  let q := k.proc p
  let s := k.phys
  let s := if q.pagetable ≠ 0 then freeRanges s q else s
  let s := kfreeField (kfreeField (kfreeField s q.ucode) q.ustack) q.kstack
  let s := if q.pagetable ≠ 0 then s.freePagetable q.pagetable else s
  (k.setPhys s).setProc p
    { q with ucode := 0, ustack := 0, kstack := 0, pagetable := 0, heapTop := HEAPBASE, mmapBase := 0 }

def procSbrk (k : Kern) (p : Slot) (n : Int32) : Kern :=
  let q := k.proc p
  if 0 < n.toInt then k.setProc p { q with heapTop := wrap64 (q.heapTop + n.toInt.toNat) } else k

/-- `proc_mmap` of a file with its first block and size, `none` when there is no such file. -/
def procMmap (k : Kern) (p : Slot) : Option (UInt32 × UInt32) → Kern
  | none => k
  | some (start, size) => k.setProc p
      { k.proc p with mmapBase := MMAPBASE, mmapStart := start.toNat, mmapSize := size.toNat }

/-- A new page is filled and mapped at `a`, or given back. -/
def mapFresh (k : Kern) (p : Slot) (a : Nat) (data : Page) (perm : Nat) : Kern :=
  let (n, s) := k.phys.kalloc
  if n = 0 then k.setPhys s
  else
    let (ok, s) := (s.setMem (s.mem.setPage n data)).uvmMap (k.proc p).pagetable a n perm
    if ok then k.setPhys s else k.setPhys (s.kfree n)

/-- `proc_pagefault`, up to the allocation in `uvm_cow_fault`. `data` is what the disk has for a
page of a mapped file. -/
def procPagefault (k : Kern) (p : Slot) (va : Nat) (store : Bool) (data : Page) : Kern :=
  let q := k.proc p
  let a := va / PGSIZE * PGSIZE
  match if store then k.phys.cowEntry q.pagetable a else none with
  | some (loc, old) =>
    let (fresh, s) := k.phys.kalloc
    if fresh = 0 then k.setPhys s
    else (k.setPhys s).setProc p { q with cow := .got a loc fresh old }
  | none =>
    if HEAPBASE ≤ a ∧ a < q.heapTop then
      k.mapFresh p a Page.zero (PTE_R ||| PTE_W ||| PTE_U)
    else if q.mmapBase ≠ 0 ∧ q.mmapBase ≤ a ∧ a < q.mend then
      k.mapFresh p a data (PTE_R ||| PTE_U)
    else k

/-- `mapFresh` with what the caller returns then. -/
def fillPage (k : Kern) (p : Slot) (a : Nat) (data : Page) (perm : Nat) : Bool × Kern :=
  let (n, s) := k.phys.kalloc
  if n = 0 then (false, k.setPhys s)
  else
    let (ok, s) := (s.setMem (s.mem.setPage n data)).uvmMap (k.proc p).pagetable a n perm
    if ok then (true, k.setPhys s) else (false, k.setPhys (s.kfree n))

/-- `proc_pagefault` in one piece, with what it returns. -/
def pagefault (k : Kern) (p : Slot) (va : Nat) (store : Bool) (data : Page) : Bool × Kern :=
  let q := k.proc p
  let a := va / PGSIZE * PGSIZE
  let (copied, s) := if store then k.phys.uvmCowFault q.pagetable a else (false, k.phys)
  let k := k.setPhys s
  if copied then (true, k)
  else if HEAPBASE ≤ a ∧ a < q.heapTop then
    k.fillPage p a Page.zero (PTE_R ||| PTE_W ||| PTE_U)
  else if q.mmapBase ≠ 0 ∧ q.mmapBase ≤ a ∧ a < q.mend then
    k.fillPage p a data (PTE_R ||| PTE_U)
  else (false, k)

/-- The page of memory that a process reaches at `va`, when the entry allows what `perm` says. -/
def translate (k : Kern) (p : Slot) (va perm : Nat) : Option Nat :=
  match k.phys.walk (k.proc p).pagetable va false with
  | (some (n, i), s) =>
    let pte := (s.mem n).word i
    if va < 2 ^ 38 ∧ pte &&& PTE_V ≠ 0 ∧ pte &&& PTE_U ≠ 0 ∧ pte &&& perm ≠ 0 then some (pte2pa pte)
    else none
  | (none, _) => none

/-- A load of the process. -/
def userLoad (k : Kern) (p : Slot) (va : Nat) : Option UInt8 :=
  (k.translate p va PTE_R).map fun n => k.phys.mem n (va % PGSIZE)

/-- A store of the process: the translation must be there and allow it. -/
def userStore (k : Kern) (p : Slot) (va : Nat) (b : UInt8) : Option Kern :=
  (k.translate p va PTE_W).map fun n =>
    k.setPhys (k.phys.setMem (k.phys.mem.poke (n * PGSIZE + va % PGSIZE) b))

/-- What a process does next. -/
inductive Act where
  | store (va : Nat) (b : UInt8)
  | sbrk (n : Int32)
  | mmap (file : Option (UInt32 × UInt32))
  | fault (va : Nat) (store : Bool) (data : Page)
  | cowCopy
  | cowMap
  | cowFree
  | fork (f sepc : Nat)
  | exec (img : Option ElfImage)
  | exit
  | wait

/-- One step of process `p`. In the middle of a copy-on-write fault it goes on with that. -/
def step (L : Layout) (k : Kern) (p : Slot) (a : Act) : Option Kern :=
  let q := k.proc p
  if q.state = .runnable ∧ q.pagetable ≠ 0 then
    match q.cow, a with
    | .idle, .store va b => k.userStore p va b
    | .idle, .sbrk n => some (k.procSbrk p n)
    | .idle, .mmap file => some (k.procMmap p file)
    | .idle, .fault va store data => some (k.procPagefault p va store data)
    | .idle, .fork f sepc => k.procFork L p f sepc
    | .idle, .exec img => k.procExec p img
    | .idle, .exit => some (k.setProc p { q with state := .zombie })
    | .idle, .wait =>
      match k.zombieChild p with
      | some c =>
        let k := k.procFreeimage c
        some (k.setProc c { k.proc c with parent := none, state := .unused })
      | none => some k
    | .got va loc fresh old, .cowCopy =>
      some ((k.setPhys (k.phys.setMem (k.phys.mem.setPage fresh (k.phys.mem old)))).setProc p
        { q with cow := .copied va loc fresh old })
    | .copied va loc fresh old, .cowMap =>
      some ((k.setPhys (k.phys.cowRemap loc fresh)).setProc p { q with cow := .mapped va old })
    | .mapped va old, .cowFree =>
      some ((k.setPhys ((k.phys.kfree old).take va)).setProc p { q with cow := .idle })
    | _, _ => none
  else none

def run (L : Layout) (k : Kern) : List (Slot × Act) → Option Kern
  | [] => some k
  | (p, a) :: as =>
    match k.step L p a with
    | some k' => run L k' as
    | none => none

/-- The pages that the drivers take at start. -/
def driverPages : Nat → Phys → Phys
  | 0, s => s
  | n + 1, s => driverPages n s.kalloc.2

/-- `make_user_proc` into the first slot. -/
def makeUserProc (L : Layout) (s : Phys) (kernelPt : Nat) (init : ElfImage) : Option Kern :=
  let (code, s) := s.kalloc
  if code = 0 then none
  else
    let (ok, m) := loadElf init code (s.mem.setPage code Page.zero)
    if !ok then none
    else
      let (ustack, s) := (s.setMem m).kalloc
      if ustack = 0 then none
      else do
        let (pt, s) ← s.procPagetable L code ustack
        let (kstack, s) := s.kalloc
        let shell : UProc :=
          { UProc.zero with
            state := .runnable, pid := 1, pagetable := pt, ucode := code, ustack := ustack
            kstack := kstack, heapTop := HEAPBASE }
        some ⟨s, Function.update (fun _ => UProc.zero) .shell shell, 2, kernelPt⟩

/-- The kernel when the first process is ready: the allocator over memory `m`, the kernel's page
table, the pages of the drivers, the first process from its embedded program. -/
def boot (L : Layout) (m : Mem) (drivers : Nat) (init : ElfImage) : Option Kern := do
  let (pt, s) ← (Phys.kinit m L.kend).kvminit L
  makeUserProc L (driverPages drivers s) pt init

end Kern

end KernelHobby
