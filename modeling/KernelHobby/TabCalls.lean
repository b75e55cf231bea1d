import KernelHobby.MapPages
import KernelHobby.VmFork

namespace KernelHobby
set_option autoImplicit true

/-- A page table with the two user pages that `proc_pagetable` maps in it, 0 for none. -/
structure UTab where
  pagetable : Nat
  ucode : Nat
  ustack : Nat
  deriving DecidableEq

def UTab.zero : UTab := ⟨0, 0, 0⟩

/-- The page tables of all slots, in the memory they are in. -/
structure Tabs where
  phys : Phys
  tab : Slot → UTab

/-- A call on page tables as the kernel makes it: the page that is mapped is a new one, and a range
starts at page `v`. -/
inductive TabCall where
  | pagetable (p : Slot) (code stack : Page)
  | fork (p c : Slot)
  | map (p : Slot) (v : Nat) (data : Page) (write : Bool)
  | freeRange (p : Slot) (v stop : Nat)
  | cowShare (p c : Slot) (v stop : Nat)
  | cowFault (p : Slot) (va : Nat)
  | remap (p : Slot) (code : Page)

namespace Tabs

def setPhys (k : Tabs) (s : Phys) : Tabs := { k with phys := s }

/-- The table of slot `p`, which has none yet, from `proc_pagetable`. -/
def build (L : Layout) (k : Tabs) (s : Phys) (p : Slot) (uc us : Nat) : Option Tabs :=
  (s.procPagetable L uc us).map fun w => ⟨w.2, Function.update k.tab p ⟨w.1, uc, us⟩⟩

/-- A new page is filled and mapped, or given back. -/
def uvmMap (s : Phys) (pt va perm : Nat) (data : Page) : Phys :=
  let (n, s) := s.kalloc
  if n = 0 then s
  else
    let (ok, s) := (s.setMem (s.mem.setPage n data)).uvmMap pt va n perm
    if ok then s else s.kfree n

/-- One call. It is none when the table is not there, or when the kernel stops without memory. -/
def step (L : Layout) (k : Tabs) : TabCall → Option Tabs
  | .pagetable p code stack =>
    if k.tab p = .zero then
      let (uc, s) := k.phys.kalloc
      if uc = 0 then none
      else
        let (us, s) := (s.setMem (s.mem.setPage uc code)).kalloc
        if us = 0 then none
        else k.build L (s.setMem (s.mem.setPage us stack)) p uc us
    else none
  | .fork p c =>
    if (k.tab p).pagetable ≠ 0 ∧ k.tab c = .zero then
      let (us, s) := k.phys.kalloc
      if us = 0 then none
      else
        let s := s.setMem (s.mem.setPage us (s.mem (k.tab p).ustack))
        k.build L (s.krefInc (k.tab p).ucode) c (k.tab p).ucode us
    else none
  | .map p v data write =>
    if (k.tab p).pagetable ≠ 0 then
      some (k.setPhys (uvmMap k.phys (k.tab p).pagetable (v * PGSIZE)
        (if write then PTE_R ||| PTE_W ||| PTE_U else PTE_R ||| PTE_U) data))
    else none
  | .freeRange p v stop =>
    if (k.tab p).pagetable ≠ 0 then
      some (k.setPhys (k.phys.vmFreeRange (k.tab p).pagetable (v * PGSIZE) stop))
    else none
  | .cowShare p c v stop =>
    if (k.tab p).pagetable ≠ 0 ∧ (k.tab c).pagetable ≠ 0 ∧ p ≠ c then
      some (k.setPhys (k.phys.uvmCowShare (k.tab p).pagetable (k.tab c).pagetable (v * PGSIZE) stop))
    else none
  | .cowFault p va =>
    if (k.tab p).pagetable ≠ 0 then
      some (k.setPhys (k.phys.uvmCowFault (k.tab p).pagetable va).2)
    else none
  | .remap p code =>
    if (k.tab p).pagetable ≠ 0 then
      let (n, s) := k.phys.kalloc
      if n = 0 then none
      else
        let s := (s.setMem (s.mem.setPage n code)).remapUserCode (k.tab p).pagetable n
        some ⟨Kern.kfreeField s (k.tab p).ucode,
          Function.update k.tab p { k.tab p with ucode := n }⟩
    else none

def run (L : Layout) (k : Tabs) : List TabCall → Option Tabs
  | [] => some k
  | c :: cs => (k.step L c).bind fun k' => run L k' cs

end Tabs

/-- A range of pages that the process's page table maps for the process alone: above its code and
its stack, and below the kernel's mappings. -/
def UserRange (v stop : Nat) : Prop := HEAPBASE ≤ v * PGSIZE ∧ stop ≤ PLIC

def TabCall.InUser : TabCall → Prop
  | .freeRange _ v stop => UserRange v stop
  | .cowShare _ _ v stop => UserRange v stop
  | _ => True

/-- The states after calls that `P` allows, from the machine with the kernel's own table on. -/
def TabReach (L : Layout) (P : TabCall → Prop) (k : Tabs) : Prop :=
  ∃ m drivers pt s cs, (Phys.kinit m L.kend).kvminit L = some (pt, s) ∧ (∀ c ∈ cs, P c) ∧
    (⟨Kern.driverPages drivers s, fun _ => .zero⟩ : Tabs).run L cs = some k

/-- What `free_pagetable` is for: the pages of the nodes of the table at `r`, each of them once, come
to the free list, and everything else stays as it is. The pages that user entries lead to, and the
kernel's, are none of them. -/
def FreesNodes (L : Layout) (s : Phys) (r : Nat) : Prop :=
  ∃ fl fl' ns : List Nat, Chain s.mem s.freelist fl ∧
    Chain (s.freePagetable r).mem (s.freePagetable r).freelist fl' ∧
    (∀ n, n ∈ ns ↔ ∃ x, nodeAt s.mem r x = some n) ∧ fl'.Perm (ns ++ fl) ∧ fl'.Nodup ∧
    (∀ n, n ∉ ns → (s.freePagetable r).refcnt n = s.refcnt n ∧ (n ∈ fl' ↔ n ∈ fl)) ∧
    (∀ v, v < 2 ^ 27 → leafAt s.mem r v &&& PTE_V ≠ 0 → leafAt s.mem r v &&& PTE_U ≠ 0 →
      pte2pa (leafAt s.mem r v) ∉ ns) ∧
    ∀ n, n < L.kend → n ∉ ns

end KernelHobby
