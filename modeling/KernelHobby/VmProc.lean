import KernelHobby.VmShare

namespace KernelHobby
set_option autoImplicit true

/-- A pointer to a page, 0 for none. -/
def ptr (n : Nat) : Option Nat := if n = 0 then none else some n

theorem ptr_zero : ptr 0 = none := rfl

theorem ptr_of_ne (h : n ≠ 0) : ptr n = some n := if_neg h

/-- The entry that a copy-on-write fault is about, with the copy in hand. -/
structure CowEntry (g : Ghost) (p : Slot) (va : Nat) (loc : Nat × Nat) (fresh old : Nat)
    (v : UPage) : Prop where
  user : 16 ≤ v.val
  page : vpn va = v.val
  leaf : g.tgt (p, .leaf v) = some old
  entry : g.lf p v = mkPte old 275
  node : g.tgt (nd p (lowOf v)) = some loc.1
  index : loc.2 = ix0 v
  fresh : g.tgt (p, .fresh) = some fresh
  old : g.tgt (p, .old) = none

/-- What a process has in hand in the middle of a copy-on-write fault. -/
def CowOk (m : Mem) (g : Ghost) (p : Slot) : Cow → Prop
  | .idle => g.tgt (p, .fresh) = none ∧ g.tgt (p, .old) = none
  | .got va loc fresh old => ∃ v, CowEntry g p va loc fresh old v
  | .copied va loc fresh old => (∃ v, CowEntry g p va loc fresh old v) ∧ m fresh = m old
  | .mapped va old => g.tgt (p, .fresh) = none ∧ g.tgt (p, .old) = some old ∧ vpn va < 0xC000

/-- The fields of a process against the references. -/
structure Linked (L : Layout) (m : Mem) (g : Ghost) (p : Slot) (q : UProc) : Prop where
  root : g.tgt (nd p .root) = ptr q.pagetable
  ucode : g.tgt (p, .ucode) = ptr q.ucode
  ustack : g.tgt (p, .ustack) = ptr q.ustack
  kstack : g.tgt (p, .kstack) = ptr q.kstack
  kern : q.pagetable ≠ 0 → ∀ v, 0xC000 ≤ v → v < 2 ^ 27 → g.lf p v = kernPte L v
  code : ∀ v, v < 16 → g.lf p v = 0 ∨ v = 1 ∧ g.lf p v = mkPte q.ucode 27 ∨
    v = 4 ∧ g.lf p v = mkPte q.ustack 23
  above : ∀ v : UPage, q.heapTop ≤ v.val * PGSIZE → Sole g.tgt (p, .leaf v)
  cow : CowOk m g p q.cow
  live : q.state ≠ .unused →
    q.ucode ≠ 0 ∧ q.ustack ≠ 0 ∧ HEAPBASE ≤ q.heapTop ∧ q.heapTop ≤ PLIC
  mmap : q.mmapBase = 0 ∨ q.mmapBase = MMAPBASE ∧ q.mend ≤ PLIC
  busy : q.cow ≠ .idle → q.state = .runnable
  unused : q.state = .unused → q.pagetable = 0 ∧ q.ucode = 0 ∧ q.ustack = 0 ∧ q.kstack = 0

theorem runnable_ne_unused {q : UProc} (hrun : q.state = .runnable) : q.state ≠ .unused := by
  rw [hrun]
  exact ProcState.noConfusion

/-- A process that runs has its two pages, and its heap where heaps may be. -/
theorem Linked.running (h : Linked L m g p q) (hrun : q.state = .runnable) :
    q.ucode ≠ 0 ∧ q.ustack ≠ 0 ∧ HEAPBASE ≤ q.heapTop ∧ q.heapTop ≤ PLIC :=
  h.live (runnable_ne_unused hrun)

/-- The kernel's memory as all processes refer to it. -/
structure VmInv (L : Layout) (k : Kern) (g : Ghost) : Prop where
  vm : Vm L.kend k.phys g
  linked : ∀ p, Linked L k.phys.mem g p (k.proc p)
  taken : ∀ t ∈ k.phys.taken, t < 0xC000

/-- The page at `v` of a process is as it was, and so is the right to it. -/
structure Same (s : Phys) (g : Ghost) (s' : Phys) (g' : Ghost) (p : Slot) (v : UPage) : Prop where
  tgt : g'.tgt (p, .leaf v) = g.tgt (p, .leaf v)
  lf : g'.lf p v = g.lf p v
  mem : ∀ n, g.tgt (p, .leaf v) = some n → s'.mem n = s.mem n

theorem Same.refl (s : Phys) (g : Ghost) (p : Slot) (v : UPage) : Same s g s g p v :=
  ⟨rfl, rfl, fun _ _ => rfl⟩

theorem Same.trans (h : Same s g s' g' p v) (h' : Same s' g' s'' g'' p v) :
    Same s g s'' g'' p v where
  tgt := h'.tgt.trans h.tgt
  lf := h'.lf.trans h.lf
  mem n hn := (h'.mem n (h.tgt.trans hn)).trans (h.mem n hn)

theorem SlotStep.same {S : Slot → Prop} (h : SlotStep S s g s' g') (hp : ¬ S p) (v : UPage) :
    Same s g s' g' p v :=
  ⟨h.tgt p _ hp, by rw [h.lf p hp], fun n hn => h.mem p _ n hp hn⟩

theorem CowEntry.frame {S : Slot → Prop} (h : CowEntry g p va loc n o v)
    (st : SlotStep S s g s' g') (hp : ¬ S p) : CowEntry g' p va loc n o v where
  user := h.user
  page := h.page
  leaf := (st.tgt p _ hp).trans h.leaf
  entry := by
    rw [st.lf p hp]
    exact h.entry
  node := (st.tgt p _ hp).trans h.node
  index := h.index
  fresh := (st.tgt p _ hp).trans h.fresh
  old := (st.tgt p _ hp).trans h.old

theorem CowOk.frame {S : Slot → Prop} (h : CowOk s.mem g p c) (st : SlotStep S s g s' g')
    (hp : ¬ S p) : CowOk s'.mem g' p c := by
  have ht (x : SPos) : g'.tgt (p, x) = g.tgt (p, x) := st.tgt p x hp
  cases c with
  | idle => exact ⟨(ht _).trans h.1, (ht _).trans h.2⟩
  | got va loc n o =>
    obtain ⟨v, hv⟩ := h
    exact ⟨v, hv.frame st hp⟩
  | copied va loc n o =>
    obtain ⟨⟨v, hv⟩, hm⟩ := h
    refine ⟨⟨v, hv.frame st hp⟩, ?_⟩
    rw [st.mem p _ n hp hv.fresh, st.mem p _ o hp hv.leaf]
    exact hm
  | mapped va o => exact ⟨(ht _).trans h.1, (ht _).trans h.2.1, h.2.2⟩

/-- What others do leaves a process alone. -/
theorem Linked.frame {S : Slot → Prop} (h : Linked L s.mem g p q) (st : SlotStep S s g s' g')
    (ha : Alloc kend s g.tgt g.lost g.fl) (hp : ¬ S p) : Linked L s'.mem g' p q where
  root := (st.tgt p _ hp).trans h.root
  ucode := (st.tgt p _ hp).trans h.ucode
  ustack := (st.tgt p _ hp).trans h.ustack
  kstack := (st.tgt p _ hp).trans h.kstack
  kern hne v hlo hhi := by
    rw [st.lf p hp]
    exact h.kern hne v hlo hhi
  code v hv := by
    rw [st.lf p hp]
    exact h.code v hv
  above v hv := st.sole ha hp (h.above v hv)
  cow := h.cow.frame st hp
  live := h.live
  mmap := h.mmap
  busy := h.busy
  unused := h.unused

/-- What a process does with its heap, its mapped file and the pages in hand. -/
theorem Linked.change (h : Linked L m g p q) {e : Ghost}
    (hroot : e.tgt (nd p .root) = g.tgt (nd p .root))
    (hplain : ∀ x, x = .ucode ∨ x = .ustack ∨ x = .kstack → e.tgt (p, x) = g.tgt (p, x))
    (hlf : ∀ v, v < 16 ∨ 0xC000 ≤ v → e.lf p v = g.lf p v)
    (habove : ∀ v : UPage, q.heapTop ≤ v.val * PGSIZE → Sole e.tgt (p, .leaf v))
    (hcow : CowOk w e p c) (hbusy : c ≠ .idle → q.state = .runnable) :
    Linked L w e p { q with cow := c } where
  root := hroot.trans h.root
  ucode := (hplain _ (.inl rfl)).trans h.ucode
  ustack := (hplain _ (.inr (.inl rfl))).trans h.ustack
  kstack := (hplain _ (.inr (.inr rfl))).trans h.kstack
  kern hne v hlo hhi := by
    rw [hlf v (.inr hlo)]
    exact h.kern hne v hlo hhi
  code v hv := by
    rw [hlf v (.inl hv)]
    exact h.code v hv
  above := habove
  cow := hcow
  live := h.live
  mmap := h.mmap
  busy := hbusy
  unused := h.unused

namespace Vm
variable {s s' : Phys} {g : Ghost} {p : Slot}

theorem root_of (hl : Linked L m g p q) (hne : q.pagetable ≠ 0) :
    g.tgt (nd p .root) = some q.pagetable := hl.root.trans (ptr_of_ne hne)

/-- A page of the heap or of a mapped file is no node. -/
theorem leaf_not_node (h : Vm kend s g) (hv : g.tgt (p, .leaf v) = some n) (y : Node) :
    g.tgt (nd p y) ≠ some n := by
  intro hy
  cases (h.slot p).inslot _ _ n hv hy

theorem same_grown (h : Vm kend s g) (hg : Grown (nd p) s g.tgt g.fl s' tgt' fl') (v : UPage) :
    Same s g s' { g with tgt := tgt', fl := fl' } p v where
  tgt := hg.off _ (ne_nd nofun)
  lf := rfl
  mem n hn := hg.mem n (h.alloc.bal.not_free hn) (h.leaf_not_node hn)

end Vm

namespace VmInv
variable {L : Layout} {k k' : Kern} {g g' : Ghost} {p : Slot}

/-- A step of the processes of `S`: only these are looked at. -/
theorem step {S : Slot → Prop} (h : VmInv L k g) (hvm : Vm L.kend k'.phys g')
    (st : SlotStep S k.phys g k'.phys g') (hproc : ∀ q, ¬ S q → k'.proc q = k.proc q)
    (hl : ∀ q, S q → Linked L k'.phys.mem g' q (k'.proc q))
    (ht : ∀ t ∈ k'.phys.taken, t ∈ k.phys.taken ∨ t < 0xC000) : VmInv L k' g' where
  vm := hvm
  linked q := by
    by_cases hq : S q
    · exact hl q hq
    · rw [hproc q hq]
      exact (h.linked q).frame st h.vm.alloc hq
  taken t htk := by
    rcases ht t htk with htk | hlt
    · exact h.taken t htk
    · exact hlt

/-- The fields of one process change, and no reference with them. -/
theorem setProc (h : VmInv L k g) (q : UProc) (hl : Linked L k.phys.mem g p q) :
    VmInv L (k.setProc p q) g := by
  refine h.step (S := (· = p)) h.vm (.refl ..) ?_ ?_ fun _ => .inl
  · intro r hr
    exact k.setProc_of_ne q hr
  · rintro r rfl
    rw [k.setProc_self]
    exact hl

end VmInv

end KernelHobby
