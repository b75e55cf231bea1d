import KernelHobby.PtFree
import KernelHobby.ProcVm

namespace KernelHobby
set_option autoImplicit true

/-- The pages of a process's own part of the address space, below the devices. -/
abbrev UPage := Fin 0xC000

/-- The places of a process that refer to pages: the nodes and the lowest entries of its page
table, its pointers, and the two pages that a copy-on-write fault has in hand. -/
inductive SPos where
  | node (x : Node)
  | leaf (v : UPage)
  | ucode
  | ustack
  | kstack
  | fresh
  | old
  deriving DecidableEq, Fintype

abbrev Pos := Slot × SPos

def nd (p : Slot) (x : Node) : Pos := (p, .node x)

/-- The references of all processes, the entries of their page tables, the references given up
without a release, and the free list. -/
structure Ghost where
  tgt : Pos → Option Nat
  lf : Slot → Nat → Nat
  lost : Nat → Nat
  fl : List Nat

/-- The only reference to its page. -/
def Sole (tgt : Pos → Option Nat) (x : Pos) : Prop :=
  ∀ n y, tgt x = some n → tgt y = some n → y = x

/-- The places that never share a page. -/
def SPos.Own : SPos → Prop
  | .node _ | .ustack | .kstack | .fresh => True
  | .leaf _ | .ucode | .old => False

/-- An entry of the heap or of a mapped file, and the page it refers to: read-only, writable, or
shared for copy on write. -/
def LeafOk (w : Nat) (o : Option Nat) : Prop :=
  w = 0 ∧ o = none ∨ ∃ n f, o = some n ∧ w = mkPte n f ∧ (f = 19 ∨ f = 23 ∨ f = 275)

/-- The address space of one process. -/
structure SlotOk (m : Mem) (tgt : Pos → Option Nat) (p : Slot) (lf : Nat → Nat) : Prop where
  holds : Holds m (fun x => tgt (nd p x)) lf
  own : ∀ x, x.Own → Sole tgt (p, x)
  inslot : ∀ x y n, tgt (p, x) = some n → tgt (p, y) = some n → x = y
  leaf : ∀ v : UPage, 16 ≤ v.val → LeafOk (lf v) (tgt (p, .leaf v))
  bare : ∀ v : UPage, v.val < 16 → tgt (p, .leaf v) = none
  write : ∀ v : UPage, lf v &&& PTE_W ≠ 0 → Sole tgt (p, .leaf v)

/-- The memory of the machine, as its processes refer to it. -/
structure Vm (kend : Nat) (s : Phys) (g : Ghost) : Prop where
  alloc : Alloc kend s g.tgt g.lost g.fl
  lost : ∀ y n, g.tgt y = some n → g.lost n = 0
  slot : ∀ p, SlotOk s.mem g.tgt p (g.lf p)

/-- The pages that the processes of `S` have, or could get. -/
def Held (S : Slot → Prop) (g : Ghost) (n : Nat) : Prop :=
  n ∈ g.fl ∨ ∃ q x, S q ∧ g.tgt (q, x) = some n

/-- What the processes of `S` do leaves the others alone. -/
structure SlotStep (S : Slot → Prop) (s : Phys) (g : Ghost) (s' : Phys) (g' : Ghost) : Prop where
  tgt : ∀ q x, ¬ S q → g'.tgt (q, x) = g.tgt (q, x)
  lf : ∀ q, ¬ S q → g'.lf q = g.lf q
  own : ∀ n, Held S g' n → Held S g n
  mem : ∀ q x n, ¬ S q → g.tgt (q, x) = some n → s'.mem n = s.mem n
  failed : s.failed = true → s'.failed = true

namespace SlotStep
variable {S : Slot → Prop} {s s' s'' : Phys} {g g' g'' : Ghost}

theorem refl (S : Slot → Prop) (s : Phys) (g : Ghost) : SlotStep S s g s g :=
  ⟨fun _ _ _ => rfl, fun _ _ => rfl, fun _ h => h, fun _ _ _ _ _ => rfl, id⟩

theorem trans (h : SlotStep S s g s' g') (h' : SlotStep S s' g' s'' g'') :
    SlotStep S s g s'' g'' where
  tgt q x hq := (h'.tgt q x hq).trans (h.tgt q x hq)
  lf q hq := (h'.lf q hq).trans (h.lf q hq)
  own n hn := h.own n (h'.own n hn)
  mem q x n hq hn := by
    have hn' : g'.tgt (q, x) = some n := (h.tgt q x hq).trans hn
    exact (h'.mem q x n hq hn').trans (h.mem q x n hq hn)
  failed hf := h'.failed (h.failed hf)

theorem mono (h : SlotStep S s g s' g') {T : Slot → Prop} (hS : ∀ q, S q → T q) :
    SlotStep T s g s' g' where
  tgt q x hq := h.tgt q x fun hs => hq (hS q hs)
  lf q hq := h.lf q fun hs => hq (hS q hs)
  own n hn := by
    have hwide (hn : Held S g n) : Held T g n :=
      hn.imp id fun ⟨q, x, hq, hx⟩ => ⟨q, x, hS q hq, hx⟩
    rcases hn with hf | ⟨q, x, hq, hx⟩
    · exact hwide (h.own n (.inl hf))
    · by_cases hs : S q
      · exact hwide (h.own n (.inr ⟨q, x, hs, hx⟩))
      · rw [h.tgt q x hs] at hx
        exact .inr ⟨q, x, hq, hx⟩
  mem q x n hq hx := h.mem q x n (fun hs => hq (hS q hs)) hx
  failed := h.failed

/-- The only reference to a page stays so, when it is of someone else. -/
theorem sole (h : SlotStep S s g s' g') (ha : Alloc kend s g.tgt g.lost g.fl) (hq : ¬ S q)
    (hs : Sole g.tgt (q, x)) : Sole g'.tgt (q, x) := by
  intro n y hx hy
  rw [h.tgt q x hq] at hx
  by_cases hy' : S y.1
  · rcases h.own n (.inr ⟨y.1, y.2, hy', hy⟩) with hf | ⟨r, z, hr, hz⟩
    · exact absurd hf (ha.bal.not_free hx)
    · have he := hs n (r, z) hx hz
      rw [Prod.mk.injEq] at he
      rw [he.1] at hr
      exact absurd hr hq
  · have hy₀ : g.tgt y = some n := by
      rw [← h.tgt y.1 y.2 hy']
      exact hy
    exact hs n y hx hy₀

theorem slotOk (h : SlotStep S s g s' g') (ha : Alloc kend s g.tgt g.lost g.fl) (hq : ¬ S q)
    (hs : SlotOk s.mem g.tgt q (g.lf q)) : SlotOk s'.mem g'.tgt q (g'.lf q) := by
  have ht (x : SPos) : g'.tgt (q, x) = g.tgt (q, x) := h.tgt q x hq
  have hn : (fun x => g'.tgt (nd q x)) = fun x => g.tgt (nd q x) := funext fun x => ht (.node x)
  rw [h.lf q hq]
  constructor
  · rw [hn]
    exact hs.holds.congr fun x n hx => h.mem q (.node x) n hq hx
  · intro x hx
    exact h.sole ha hq (hs.own x hx)
  · intro x y n hx hy
    rw [ht] at hx hy
    exact hs.inslot x y n hx hy
  · intro v hv
    rw [ht]
    exact hs.leaf v hv
  · intro v hv
    rw [ht]
    exact hs.bare v hv
  · intro v hv
    exact h.sole ha hq (hs.write v hv)

end SlotStep

/-- A step of the processes of `S`: only their address spaces are looked at. -/
theorem Vm.step (h : Vm kend s g) (hs : SlotStep S s g s' g')
    (ha : Alloc kend s' g'.tgt g'.lost g'.fl) (hl : ∀ y n, g'.tgt y = some n → g'.lost n = 0)
    (hp : ∀ p, S p → SlotOk s'.mem g'.tgt p (g'.lf p)) : Vm kend s' g' := by
  refine ⟨ha, hl, fun p => ?_⟩
  by_cases hS : S p
  · exact hp p hS
  · exact hs.slotOk h.alloc hS (h.slot p)

theorem nd_injective (p : Slot) : Function.Injective (nd p) := by
  intro x y h
  rw [nd, nd, Prod.mk.injEq, SPos.node.injEq] at h
  exact h.2

theorem ne_nd {x : SPos} (hx : ∀ y, x ≠ .node y) (y : Node) : (p, x) ≠ nd p y := by
  intro h
  rw [nd, Prod.mk.injEq] at h
  exact hx y h.2

/-- New nodes of one slot are nothing to another. -/
theorem Grown.off_slot {c : Slot} {s s' : Phys} {tgt tgt' : Pos → Option Nat} {fl fl' : List Nat}
    (hg : Grown (nd c) s tgt fl s' tgt' fl') (hpc : p ≠ c) (x : SPos) :
    tgt' (p, x) = tgt (p, x) :=
  hg.off _ fun _ he => hpc (congrArg Prod.fst he)

namespace Vm
variable {s s' : Phys} {g : Ghost} {p : Slot} {tgt' : Pos → Option Nat} {fl' : List Nat}

theorem tab (h : Vm kend s g) (p : Slot) : Tab kend s g.tgt g.lost g.fl (nd p) (g.lf p) where
  alloc := h.alloc
  holds := (h.slot p).holds
  sole x y n hx hy := (h.slot p).own (.node x) trivial n y hx hy
  inj := nd_injective p

/-- The only reference to a page stays so when a page table grows. -/
theorem sole_grown (h : Vm kend s g) (hg : Grown (nd p) s g.tgt g.fl s' tgt' fl')
    (hs : Sole g.tgt (q, x)) (hx : ∀ y, (q, x) ≠ nd p y) : Sole tgt' (q, x) := by
  intro n y hn hy
  rw [hg.off _ hx] at hn
  rcases hg.new y n hy with hy | hf
  · exact hs n y hn hy
  · exact absurd hf (h.alloc.bal.not_free hn)

theorem slotStep_grown (h : Vm kend s g) (hg : Grown (nd p) s g.tgt g.fl s' tgt' fl')
    (lf' : Nat → Nat) : SlotStep (· = p) s g s' ⟨tgt', Function.update g.lf p lf', g.lost, fl'⟩ where
  tgt q x hq := by
    apply hg.off
    intro y hy
    rw [nd, Prod.mk.injEq] at hy
    exact hq hy.1
  lf q hq := Function.update_of_ne hq _ _
  own n hn := by
    rcases hn with hf | ⟨q, x, rfl, hx⟩
    · exact .inl (hg.sub hf)
    · rcases hg.new _ n hx with hx | hf
      · exact .inr ⟨q, x, rfl, hx⟩
      · exact .inl hf
  mem q x n hq hx := by
    apply hg.mem n (h.alloc.bal.not_free hx)
    intro y hy
    have he := (h.slot p).own (.node y) trivial n (q, x) hy hx
    rw [Prod.mk.injEq] at he
    exact hq he.1
  failed := hg.failed

/-- A page table grows, and its lowest entries are those of `lf'` then. -/
theorem grown (h : Vm kend s g) (hg : Grown (nd p) s g.tgt g.fl s' tgt' fl')
    (ht : Tab kend s' tgt' g.lost fl' (nd p) lf')
    (hleaf : ∀ v : UPage, 16 ≤ v.val → LeafOk (lf' v) (g.tgt (p, .leaf v)))
    (hw : ∀ v : UPage, lf' v &&& PTE_W ≠ 0 → Sole g.tgt (p, .leaf v)) :
    Vm kend s' ⟨tgt', Function.update g.lf p lf', g.lost, fl'⟩ := by
  have hoff (x : SPos) (hx : ∀ y, x ≠ .node y) : tgt' (p, x) = g.tgt (p, x) :=
    hg.off _ (ne_nd hx)
  refine h.step (h.slotStep_grown hg lf') ht.alloc ?_ ?_
  · intro y n hy
    rcases hg.new y n hy with hy | hf
    · exact h.lost y n hy
    · exact h.alloc.bal.free_lost hf
  · intro q hq
    rw [hq]
    dsimp only
    rw [Function.update_self]
    constructor
    · exact ht.holds
    · intro x hx
      by_cases hnode : ∃ y, x = .node y
      · obtain ⟨y, rfl⟩ := hnode
        intro n z hz
        exact ht.sole y z n hz
      · exact h.sole_grown hg ((h.slot _).own x hx) (ne_nd (not_exists.1 hnode))
    · intro x y n hx hy
      rcases hg.new _ n hx with hx₀ | hf
      · rcases hg.new _ n hy with hy₀ | hf
        · exact (h.slot _).inslot x y n hx₀ hy₀
        · exact absurd hf (h.alloc.bal.not_free hx₀)
      · -- a page that was free: both places are nodes
        have hnode (z : SPos) (hz : tgt' (p, z) = some n) : ∃ a, z = .node a := by
          by_contra hno
          rw [hoff z (not_exists.1 hno)] at hz
          exact h.alloc.bal.not_free hz hf
        obtain ⟨a, rfl⟩ := hnode x hx
        obtain ⟨b, rfl⟩ := hnode y hy
        have he := ht.sole b (nd p a) n hy hx
        rw [nd_injective p he]
    · intro v hv
      rw [hoff _ fun y => SPos.noConfusion]
      exact hleaf v hv
    · intro v hv
      rw [hoff _ fun y => SPos.noConfusion]
      exact (h.slot _).bare v hv
    · intro v hv
      exact h.sole_grown hg (hw v hv) (ne_nd fun y => SPos.noConfusion)

end Vm

section Edit
variable {tgt : Pos → Option Nat}

theorem update_none_some (h : Function.update tgt x none y = some n) : tgt y = some n := by
  by_cases hy : y = x
  · rw [hy, Function.update_self] at h
    cases h
  · rwa [Function.update_of_ne hy] at h

theorem update_some_some (h : Function.update tgt x (some k) y = some n) :
    tgt y = some n ∨ y = x ∧ n = k := by
  by_cases hy : y = x
  · rw [hy, Function.update_self] at h
    exact .inr ⟨hy, (Option.some.inj h).symm⟩
  · rw [Function.update_of_ne hy] at h
    exact .inl h

theorem Sole.erase (h : Sole tgt y) (x : Pos) : Sole (Function.update tgt x none) y :=
  fun n z hy hz => h n z (update_none_some hy) (update_none_some hz)

/-- A page that nothing refers to gets a reference. -/
theorem Sole.insert (h : Sole tgt y) (hn : ∀ z, tgt z ≠ some n) (x : Pos) :
    Sole (Function.update tgt x (some n)) y := by
  intro k z hy hz
  rcases update_some_some hy with hy₀ | ⟨hyx, rfl⟩
  · rcases update_some_some hz with hz₀ | ⟨_, rfl⟩
    · exact h k z hy₀ hz₀
    · exact absurd hy₀ (hn y)
  · rcases update_some_some hz with hz₀ | ⟨hzx, _⟩
    · exact absurd hz₀ (hn z)
    · rw [hyx, hzx]

/-- One more reference to another page. -/
theorem Sole.other (h : Sole tgt y) (hn : tgt y ≠ some n) (hyx : y ≠ x) :
    Sole (Function.update tgt x (some n)) y := by
  intro k z hy hz
  rw [Function.update_of_ne hyx] at hy
  rcases update_some_some hz with hz | ⟨_, rfl⟩
  · exact h k z hy hz
  · exact absurd hy hn

theorem Sole.new (hn : ∀ z, tgt z ≠ some n) (x : Pos) : Sole (Function.update tgt x (some n)) x := by
  intro k z hy hz
  rw [Function.update_self] at hy
  cases hy
  rcases update_some_some hz with hz | ⟨hz, _⟩
  · exact absurd hz (hn z)
  · exact hz

/-- Without its only reference, nothing refers to a page. -/
theorem Sole.gone (h : Sole tgt x) (hx : tgt x = some n) (z : Pos) :
    Function.update tgt x none z ≠ some n := by
  intro hz
  have he := h n z hx (update_none_some hz)
  rw [he, Function.update_self] at hz
  cases hz

/-- The references of one process to the pages of its own. -/
structure SlotRefs (tgt : Pos → Option Nat) (p : Slot) : Prop where
  own : ∀ x, x.Own → Sole tgt (p, x)
  inslot : ∀ x y n, tgt (p, x) = some n → tgt (p, y) = some n → x = y

theorem SlotOk.refs (h : SlotOk m tgt p lf) : SlotRefs tgt p := ⟨h.own, h.inslot⟩

theorem SlotRefs.erase (h : SlotRefs tgt p) (x : Pos) : SlotRefs (Function.update tgt x none) p where
  own y hy := (h.own y hy).erase x
  inslot y z n hy hz := h.inslot y z n (update_none_some hy) (update_none_some hz)

theorem SlotRefs.insert (h : SlotRefs tgt p) (hn : ∀ z, tgt z ≠ some n) (x : Pos) :
    SlotRefs (Function.update tgt x (some n)) p where
  own y hy := (h.own y hy).insert hn x
  inslot y z k hy hz := by
    rcases update_some_some hy with hy₀ | ⟨hyx, rfl⟩
    · rcases update_some_some hz with hz₀ | ⟨_, rfl⟩
      · exact h.inslot y z k hy₀ hz₀
      · exact absurd hy₀ (hn _)
    · rcases update_some_some hz with hz₀ | ⟨hzx, _⟩
      · exact absurd hz₀ (hn _)
      · exact congrArg Prod.snd (hyx.trans hzx.symm)

end Edit

end KernelHobby
