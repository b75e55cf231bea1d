import KernelHobby.Kalloc

namespace KernelHobby
set_option autoImplicit true

def PTE_V : Nat := 1
def PTE_R : Nat := 2
def PTE_W : Nat := 4
def PTE_X : Nat := 8
def PTE_U : Nat := 16
def PTE_COW : Nat := 256

def USERVA : Nat := 0x1000
def USERSTACK : Nat := 0x4000
def USERSTACKTOP : Nat := USERSTACK + 4096
def HEAPBASE : Nat := 0x10000
def MMAPBASE : Nat := 0x100000

def UART0 : Nat := 0x10000000
def VIRTIO0 : Nat := 0x10001000
def PLIC : Nat := 0x0c000000
def KERNBASE : Nat := 0x80200000

/-- `PA2PTE` and `PTE2PA`, for a page number. -/
def pa2pte (n : Nat) : Nat := n <<< 10

def pte2pa (pte : Nat) : Nat := pte >>> 10

def pteFlags (pte : Nat) : Nat := pte &&& 0x3ff

/-- `PX(level, va)`. -/
def px (level va : Nat) : Nat := (va >>> (12 + 9 * level)) &&& 0x1ff

/-- Where the kernel's image lies in RAM: its text ends at page `etext`, and the allocator starts
at page `kend`. -/
structure Layout where
  etext : Nat
  kend : Nat
  text : 0x80200 < etext
  data : etext < kend
  ram : kend ≤ PHYSTOP

namespace Phys

/-- The levels of `walk` from `level` down to 1. -/
def walkLevels (alloc : Bool) (va : Nat) : Nat → Phys → Nat → Option Nat × Phys
  | 0, s, pt => (some pt, s)
  | level + 1, s, pt =>
    let pte := (s.mem pt).word (px (level + 1) va)
    if pte &&& PTE_V ≠ 0 then walkLevels alloc va level s (pte2pa pte)
    else if !alloc then (none, s)
    else
      let (n, s) := s.kalloc
      if n = 0 then (none, s)
      else
        let m := s.mem.setPage n Page.zero
        let m := m.setWord pt (px (level + 1) va) (pa2pte n ||| PTE_V)
        walkLevels alloc va level (s.setMem m) n

/-- The lowest entry for `va`, as a page and the index of a word in it. -/
def walk (s : Phys) (pt va : Nat) (alloc : Bool) : Option (Nat × Nat) × Phys :=
  match walkLevels alloc va 2 s pt with
  | (some n, s) => (some (n, px 0 va), s)
  | (none, s) => (none, s)

/-- The loop of `mappages`, with `k` pages after this one. A physical address has 64 bits. -/
def mapLoop (pt perm : Nat) : Nat → Phys → Nat → Nat → Bool × Phys
  | k, s, a, pa =>
    match s.walk pt a true with
    | (none, s) => (false, s)
    | (some (n, i), s) =>
      if (s.mem n).word i &&& PTE_V ≠ 0 then (false, s)
      else
        let s := s.setMem (s.mem.setWord n i (pa2pte pa ||| perm ||| PTE_V))
        match k with
        | 0 => (true, s)
        | k + 1 => mapLoop pt perm k s (a + PGSIZE) ((pa + 1) % 2 ^ 52)

/-- `mappages`: whether all pages are mapped. `pa` is a page number. -/
def mappages (s : Phys) (pt va size pa perm : Nat) : Bool × Phys :=
  let a := va / PGSIZE * PGSIZE
  let last := (va + size - 1) / PGSIZE * PGSIZE
  mapLoop pt perm ((last - a) / PGSIZE) s a pa

/-- `kvmmap`; it never returns when the mapping fails. -/
def kvmmap (s : Phys) (kpt va size perm : Nat) : Option Phys :=
  match s.mappages kpt va size (va / PGSIZE) perm with
  | (true, s) => some s
  | (false, _) => none

def mapKernel (L : Layout) (s : Phys) (pt : Nat) : Option Phys := do
  let s ← s.kvmmap pt UART0 PGSIZE (PTE_R ||| PTE_W)
  let s ← s.kvmmap pt VIRTIO0 0x8000 (PTE_R ||| PTE_W)
  let s ← s.kvmmap pt PLIC 0x400000 (PTE_R ||| PTE_W)
  let s ← s.kvmmap pt KERNBASE (L.etext * PGSIZE - KERNBASE) (PTE_R ||| PTE_X)
  s.kvmmap pt (L.etext * PGSIZE) ((PHYSTOP - L.etext) * PGSIZE) (PTE_R ||| PTE_W)

/-- The kernel's own page table; without a page for it the kernel does not come up. -/
def kvminit (L : Layout) (s : Phys) : Option (Nat × Phys) :=
  let (pt, s) := s.kalloc
  if pt = 0 then none
  else do
    let s ← mapKernel L (s.setMem (s.mem.setPage pt Page.zero)) pt
    pure (pt, s)

/-- The page table of a process, 0 without a page for its root; what is left of it when the two
user pages cannot be mapped is not looked at. -/
def procPagetable (L : Layout) (s : Phys) (ucode ustack : Nat) : Option (Nat × Phys) :=
  let (pt, s) := s.kalloc
  if pt = 0 then some (0, s)
  else do
    let s ← mapKernel L (s.setMem (s.mem.setPage pt Page.zero)) pt
    let (_, s) := s.mappages pt USERVA PGSIZE ucode (PTE_R ||| PTE_X ||| PTE_U)
    let (_, s) := s.mappages pt USERSTACK PGSIZE ustack (PTE_R ||| PTE_W ||| PTE_U)
    pure (pt, s)

def remapUserCode (s : Phys) (pt newcode : Nat) : Phys :=
  match s.walk pt USERVA false with
  | (none, s) => s
  | (some (n, i), s) =>
    s.setMem (s.mem.setWord n i (pa2pte newcode ||| PTE_R ||| PTE_X ||| PTE_U ||| PTE_V))

/-- `freewalk`, down to `depth` levels of nodes. -/
def freewalk : Nat → Phys → Nat → Phys
  | 0, s, _ => s
  | depth + 1, s, pt =>
    let s := (List.range 512).foldl (fun s i =>
      let pte := (s.mem pt).word i
      if pte &&& PTE_V ≠ 0 ∧ pte &&& (PTE_R ||| PTE_W ||| PTE_X) = 0 then
        let s := freewalk depth s (pte2pa pte)
        s.setMem (s.mem.setWord pt i 0)
      else s) s
    s.kfree pt

def freePagetable (s : Phys) (pt : Nat) : Phys := freewalk 3 s pt

def uvmMap (s : Phys) (pt va pa perm : Nat) : Bool × Phys := s.mappages pt va PGSIZE pa perm

/-- The loop of `vm_free_range` over `k` pages. -/
def freeLoop (pt : Nat) : Nat → Phys → Nat → Phys
  | 0, s, _ => s
  | k + 1, s, a =>
    match s.walk pt a false with
    | (some (n, i), s) =>
      let pte := (s.mem n).word i
      if pte &&& PTE_V ≠ 0 then
        let s := (s.kfree (pte2pa pte)).take a
        freeLoop pt k (s.setMem (s.mem.setWord n i 0)) (a + PGSIZE)
      else freeLoop pt k s (a + PGSIZE)
    | (none, s) => freeLoop pt k s (a + PGSIZE)

/-- How many pages a loop from `start` up to `stop` visits. -/
def pages (start stop : Nat) : Nat := (stop - start + PGSIZE - 1) / PGSIZE

def vmFreeRange (s : Phys) (pt start stop : Nat) : Phys := freeLoop pt (pages start stop) s start

/-- The loop of `uvm_cow_share` over `k` pages; it ends early when a page cannot be mapped. -/
def shareLoop (parent child : Nat) : Nat → Phys → Nat → Phys
  | 0, s, _ => s
  | k + 1, s, a =>
    match s.walk parent a false with
    | (none, s) => shareLoop parent child k s (a + PGSIZE)
    | (some (n, i), s) =>
      let pte := (s.mem n).word i
      if pte &&& PTE_V = 0 then shareLoop parent child k s (a + PGSIZE)
      else
        let pa := pte2pa pte
        let flags := pteFlags pte
        let cow := (flags &&& (0x3ff - PTE_W)) ||| PTE_COW
        let s := if flags &&& PTE_W ≠ 0 then s.setMem (s.mem.setWord n i (pa2pte pa ||| cow)) else s
        let flags := if flags &&& PTE_W ≠ 0 then cow else flags
        match s.mappages child a PGSIZE pa flags with
        | (false, s) => s
        | (true, s) => shareLoop parent child k ((s.krefInc pa).take a) (a + PGSIZE)

def uvmCowShare (s : Phys) (parent child start stop : Nat) : Phys :=
  shareLoop parent child (pages start stop) s start

/-- The entry of a page that is shared for copy on write, with the page. -/
def cowEntry (s : Phys) (pt va : Nat) : Option ((Nat × Nat) × Nat) :=
  match s.walk pt (va / PGSIZE * PGSIZE) false with
  | (some (n, i), _) =>
    let pte := (s.mem n).word i
    if pte &&& PTE_V = 0 ∨ pte &&& PTE_COW = 0 then none else some ((n, i), pte2pa pte)
  | (none, _) => none

/-- The entry made writable again, for the copy. -/
def cowRemap (s : Phys) (loc : Nat × Nat) (fresh : Nat) : Phys :=
  let flags := (pteFlags ((s.mem loc.1).word loc.2) &&& (0x3ff - PTE_COW)) ||| PTE_W
  s.setMem (s.mem.setWord loc.1 loc.2 (pa2pte fresh ||| flags))

/-- `uvm_cow_fault` in one piece, with what it returns. -/
def uvmCowFault (s : Phys) (pt va : Nat) : Bool × Phys :=
  match s.cowEntry pt va with
  | none => (false, s)
  | some (loc, old) =>
    let (fresh, s) := s.kalloc
    if fresh = 0 then (false, s)
    else
      let s := s.setMem (s.mem.setPage fresh (s.mem old))
      (true, ((s.cowRemap loc fresh).kfree old).take va)

end Phys

end KernelHobby
