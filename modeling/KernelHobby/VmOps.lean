import KernelHobby.VmGhost

namespace KernelHobby
set_option autoImplicit true

/-- Where a process refers to a page by a pointer of its own, not by its page table. -/
def SPos.Plain (x : SPos) : Prop := (∀ y, x ≠ .node y) ∧ ∀ v, x ≠ .leaf v

namespace SPos

theorem plain_or (x : SPos) : x.Plain ∨ (∃ v, x = .leaf v) ∨ ∃ y, x = .node y := by
  cases x with
  | leaf v => exact .inr (.inl ⟨v, rfl⟩)
  | node y => exact .inr (.inr ⟨y, rfl⟩)
  | _ => exact .inl ⟨fun _ => SPos.noConfusion, fun _ => SPos.noConfusion⟩

theorem plain_ucode : SPos.ucode.Plain := ⟨nofun, nofun⟩

theorem plain_ustack : SPos.ustack.Plain := ⟨nofun, nofun⟩

theorem plain_kstack : SPos.kstack.Plain := ⟨nofun, nofun⟩

theorem plain_fresh : SPos.fresh.Plain := ⟨nofun, nofun⟩

theorem plain_old : SPos.old.Plain := ⟨nofun, nofun⟩

end SPos

namespace Ghost

def set (g : Ghost) (x : Pos) (o : Option Nat) : Ghost := { g with tgt := Function.update g.tgt x o }

theorem set_self (g : Ghost) (x : Pos) (o : Option Nat) : (g.set x o).tgt x = o :=
  Function.update_self ..

theorem set_of_ne (g : Ghost) (o : Option Nat) {x y : SPos} (h : y ≠ x) :
    (g.set (p, x) o).tgt (p, y) = g.tgt (p, y) :=
  Function.update_of_ne (fun he => h (congrArg Prod.snd he)) _ _

def setFl (g : Ghost) (fl : List Nat) : Ghost := { g with fl := fl }

def setLf (g : Ghost) (p : Slot) (lf : Nat → Nat) : Ghost := { g with lf := Function.update g.lf p lf }

end Ghost

namespace Vm
variable {s s' : Phys} {g : Ghost} {p q : Slot} {x : SPos}

/-- The references of the others after one of `p` changed. -/
theorem slotStep_set (hm : ∀ q x n, q ≠ p → g.tgt (q, x) = some n → s'.mem n = s.mem n)
    (hf : s.failed = true → s'.failed = true) (hfl : ∀ n ∈ fl, Held (· = p) g n)
    (ho : ∀ n, o = some n → Held (· = p) g n) :
    SlotStep (· = p) s g s' ((g.set (p, x) o).setFl fl) where
  tgt q y hq := Function.update_of_ne (fun he => hq (congrArg Prod.fst he)) _ _
  lf q _ := rfl
  own n hn := by
    rcases hn with hn | ⟨q, y, rfl, hy⟩
    · exact hfl n hn
    · change Function.update g.tgt (q, x) o (q, y) = some n at hy
      by_cases hyx : y = x
      · rw [hyx, Function.update_self] at hy
        exact ho n hy
      · rw [Function.update_of_ne fun he => hyx (congrArg Prod.snd he)] at hy
        exact .inr ⟨q, y, rfl, hy⟩
  mem q y n hq hy := hm q y n hq hy
  failed := hf

theorem node_set (hx : x.Plain) (o : Option Nat) :
    (fun y => Function.update g.tgt (p, x) o (nd q y)) = fun y => g.tgt (nd q y) := by
  funext y
  apply Function.update_of_ne
  intro he
  exact hx.1 y (congrArg Prod.snd he).symm

theorem leaf_set (hx : x.Plain) (o : Option Nat) (v : UPage) :
    Function.update g.tgt (p, x) o (q, .leaf v) = g.tgt (q, .leaf v) := by
  apply Function.update_of_ne
  intro he
  exact hx.2 v (congrArg Prod.snd he).symm

/-- A pointer of `p` changes: what is left to show of its address space. -/
theorem slotOk_set (h : Vm kend s g) (hx : x.Plain) {o : Option Nat}
    (hr : SlotRefs (Function.update g.tgt (p, x) o) p)
    (hs : ∀ v, Sole g.tgt (p, .leaf v) → Sole (Function.update g.tgt (p, x) o) (p, .leaf v))
    (hm : ∀ y n, g.tgt (nd p y) = some n → m n = s.mem n) :
    SlotOk m (Function.update g.tgt (p, x) o) p (g.lf p) where
  holds := by
    rw [node_set hx]
    exact (h.slot p).holds.congr hm
  own := hr.own
  inslot := hr.inslot
  leaf v hv := by
    rw [leaf_set hx]
    exact (h.slot p).leaf v hv
  bare v hv := by
    rw [leaf_set hx]
    exact (h.slot p).bare v hv
  write v hv := hs v ((h.slot p).write v hv)

/-- `kalloc` into a pointer. -/
theorem kallocAt (h : Vm kend s g) (hx : x.Plain) (hnone : g.tgt (p, x) = none)
    (hn : s.kalloc.1 ≠ 0) : ∃ fl', g.fl = s.kalloc.1 :: fl' ∧
      Vm kend s.kalloc.2 ((g.set (p, x) (some s.kalloc.1)).setFl fl') ∧
      SlotStep (· = p) s g s.kalloc.2 ((g.set (p, x) (some s.kalloc.1)).setFl fl') := by
  obtain ⟨fl', hfl, hmem, ha⟩ := h.alloc.kalloc hnone hn
  have hfresh := h.alloc.kalloc_fresh hn
  have hfree := h.alloc.kalloc_free hn
  have hstep : SlotStep (· = p) s g s.kalloc.2 ((g.set (p, x) (some s.kalloc.1)).setFl fl') := by
    apply slotStep_set
    · intro q y n _ _
      rw [hmem]
    · intro hf
      rw [Phys.kalloc]
      split
      · exact hf
      · rfl
    · intro n hm
      exact .inl (hfl ▸ List.mem_cons_of_mem _ hm)
    · intro n he
      cases he
      exact .inl hfree
  refine ⟨fl', hfl, h.step hstep ha ?_ ?_, hstep⟩
  · intro y n hy
    rcases update_some_some hy with hy | ⟨_, rfl⟩
    · exact h.lost y n hy
    · exact h.alloc.bal.free_lost hfree
  · intro q hq
    rw [hq]
    refine h.slotOk_set hx ((h.slot p).refs.insert hfresh _) (fun v hv => hv.insert hfresh _) ?_
    intro y n _
    rw [hmem]

/-- The data of a page that only a pointer refers to. -/
theorem setData (h : Vm kend s g) (hx : g.tgt (p, x) = some n) (hno : ∀ y, x ≠ .node y)
    (hs : Sole g.tgt (p, x)) {m : Mem} (hm : ∀ k, k ≠ n → m k = s.mem k) :
    Vm kend (s.setMem m) g ∧ SlotStep (· = p) s g (s.setMem m) g := by
  have hother (y : Pos) (k : Nat) (hy : g.tgt y = some k) (hne : y ≠ (p, x)) : m k = s.mem k := by
    apply hm
    rintro rfl
    exact hne (hs k y hx hy)
  have hstep : SlotStep (· = p) s g (s.setMem m) g :=
    ⟨fun _ _ _ => rfl, fun _ _ => rfl, fun _ hn => hn,
      fun q y k hq hy => hother (q, y) k hy fun he => hq (congrArg Prod.fst he), id⟩
  refine ⟨h.step hstep (h.alloc.setMem fun k hk => ?_) h.lost ?_, hstep⟩
  · apply hm
    rintro rfl
    exact h.alloc.bal.not_free hx hk
  · intro q hq
    rw [hq]
    have hp := h.slot p
    refine ⟨hp.holds.congr fun y k hy => ?_, hp.own, hp.inslot, hp.leaf, hp.bare, hp.write⟩
    exact hother _ k hy fun he => hno y (congrArg Prod.snd he).symm

/-- `kfree` of what a pointer refers to. -/
theorem kfreeAt (h : Vm kend s g) (hx : x.Plain) (hn : g.tgt (p, x) = some n) :
    ∃ fl', Vm kend (s.kfree n) ((g.set (p, x) none).setFl fl') ∧
      SlotStep (· = p) s g (s.kfree n) ((g.set (p, x) none).setFl fl') ∧
      Freed s g.fl n (s.kfree n) fl' := by
  obtain ⟨fl', ha, hfr⟩ := h.alloc.kfree hn
  have hstep : SlotStep (· = p) s g (s.kfree n) ((g.set (p, x) none).setFl fl') := by
    apply slotStep_set
    · intro q y k hq hy
      exact Alloc.kfree_mem ha hfr hy fun he => hq (congrArg Prod.fst he)
    · intro hf
      rw [s.kfree_failed n]
      exact hf
    · intro k hk
      rcases hfr.sub k hk with hk | rfl
      · exact .inl hk
      · exact .inr ⟨p, x, rfl, hn⟩
    · intro k hk
      cases hk
  refine ⟨fl', h.step hstep ha ?_ ?_, hstep, hfr⟩
  · intro y k hy
    exact h.lost y k (update_none_some hy)
  · intro q hq
    rw [hq]
    refine h.slotOk_set hx ((h.slot p).refs.erase _) (fun v hv => hv.erase _) ?_
    intro y k hy
    exact Alloc.kfree_mem ha hfr hy fun he => hx.1 y (congrArg Prod.snd he).symm

end Vm

end KernelHobby
