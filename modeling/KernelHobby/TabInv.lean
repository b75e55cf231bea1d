import KernelHobby.TabCalls

namespace KernelHobby
set_option autoImplicit true

/-- All references to one page come from the same kind of place. -/
def SameKind (tgt : Pos → Option Nat) : Prop :=
  ∀ p q x y n, tgt (p, x) = some n → tgt (q, y) = some n → x = y

theorem SameKind.sub (h : SameKind tgt) (hsub : ∀ z n, tgt' z = some n → tgt z = some n) :
    SameKind tgt' := by
  intro p q x y n hx hy
  exact h p q x y n (hsub _ n hx) (hsub _ n hy)

/-- The pages that are not the process's heap or mapped file. -/
def Outer (v : Nat) : Prop := (v < 16 ∨ 0xC000 ≤ v) ∧ v < 2 ^ 27

/-- An entry for such a page: a mapping of the kernel's, the code page, the stack, or a page that
was mapped out of its place and is never given back. -/
inductive OuterOk (g : Ghost) (p : Slot) (v w : Nat) : Prop where
  | none (hw : w = 0)
  | kern (n f : Nat) (hw : w = mkPte n f) (hf : f = 7 ∨ f = 11)
  | code (n : Nat) (hv : v = 1) (hw : w = mkPte n 27) (hn : g.tgt (p, .ucode) = some n)
  | stack (n : Nat) (hv : v = 4) (hw : w = mkPte n 23) (hn : g.tgt (p, .ustack) = some n)
  | lost (n f : Nat) (hw : w = mkPte n f) (hf : f = 19 ∨ f = 23) (hn : 0 < g.lost n)

/-- A page table against the references of its slot. -/
structure TabOk (g : Ghost) (p : Slot) (t : UTab) : Prop where
  root : g.tgt (nd p .root) = ptr t.pagetable
  ucode : g.tgt (p, .ucode) = ptr t.ucode
  ustack : g.tgt (p, .ustack) = ptr t.ustack
  fresh : g.tgt (p, .fresh) = none
  old : g.tgt (p, .old) = none
  code : t.pagetable ≠ 0 → t.ucode ≠ 0
  outer : ∀ v, Outer v → OuterOk g p v (g.lf p v)

/-- What all calls keep. -/
structure TabInv (L : Layout) (k : Tabs) (g : Ghost) : Prop where
  vm : Vm L.kend k.phys g
  kind : SameKind g.tgt
  slot : ∀ p, TabOk g p (k.tab p)

/-- The flags that an entry outside of the user's pages can have. -/
theorem OuterOk.flags (h : OuterOk g p v w) :
    w = 0 ∨ ∃ n f, w = mkPte n f ∧ (f = 7 ∨ f = 11 ∨ f = 19 ∨ f = 23 ∨ f = 27) := by
  cases h with
  | none hw => exact .inl hw
  | kern n f hw hf => exact .inr ⟨n, f, hw, by omega⟩
  | code n hv hw hn => exact .inr ⟨n, 27, hw, by omega⟩
  | stack n hv hw hn => exact .inr ⟨n, 23, hw, by omega⟩
  | lost n f hw hf hn => exact .inr ⟨n, f, hw, by omega⟩

theorem OuterOk.congr (h : OuterOk g p v w) (huc : g'.tgt (p, .ucode) = g.tgt (p, .ucode))
    (hus : g'.tgt (p, .ustack) = g.tgt (p, .ustack)) (hlost : ∀ n, g.lost n ≤ g'.lost n) :
    OuterOk g' p v w := by
  cases h with
  | none hw => exact .none hw
  | kern n f hw hf => exact .kern n f hw hf
  | code n hv hw hn => exact .code n hv hw (huc.trans hn)
  | stack n hv hw hn => exact .stack n hv hw (hus.trans hn)
  | lost n f hw hf hn => exact .lost n f hw hf (Nat.lt_of_lt_of_le hn (hlost n))

/-- The pointers of a slot, its root and the entries outside its heap and mapped file stay. -/
structure Kept (g g' : Ghost) (p : Slot) : Prop where
  plain : ∀ x, x.Plain → g'.tgt (p, x) = g.tgt (p, x)
  root : g'.tgt (nd p .root) = g.tgt (nd p .root)
  outer : ∀ v, Outer v → g'.lf p v = g.lf p v

theorem Kept.refl (g : Ghost) (p : Slot) : Kept g g p := ⟨fun _ _ => rfl, rfl, fun _ _ => rfl⟩

theorem Kept.trans (h : Kept g g' p) (h' : Kept g' g'' p) : Kept g g'' p where
  plain x hx := (h'.plain x hx).trans (h.plain x hx)
  root := h'.root.trans h.root
  outer v hv := (h'.outer v hv).trans (h.outer v hv)

theorem SlotStep.kept {S : Slot → Prop} (st : SlotStep S s g s' g') (hp : ¬ S p) : Kept g g' p where
  plain x _ := st.tgt p x hp
  root := st.tgt p _ hp
  outer v _ := congrFun (st.lf p hp) v

theorem TabOk.kept (h : TabOk g p t) (hk : Kept g g' p) (hlost : ∀ n, g.lost n ≤ g'.lost n) :
    TabOk g' p t where
  root := hk.root.trans h.root
  ucode := (hk.plain _ SPos.plain_ucode).trans h.ucode
  ustack := (hk.plain _ SPos.plain_ustack).trans h.ustack
  fresh := (hk.plain _ SPos.plain_fresh).trans h.fresh
  old := (hk.plain _ SPos.plain_old).trans h.old
  code := h.code
  outer v hv := by
    rw [hk.outer v hv]
    exact (h.outer v hv).congr (hk.plain _ SPos.plain_ucode) (hk.plain _ SPos.plain_ustack) hlost

namespace Vm
variable {s s' : Phys} {g g' : Ghost} {p q c : Slot} {v : UPage}

/-- Only the places that can share a page are looked at: each reference of theirs is that of such a
place before, or the only one to its page. -/
theorem sameKind (h' : Vm kend s' g') (hk : SameKind g.tgt)
    (hr : ∀ q x n, ¬ x.Own → g'.tgt (q, x) = some n →
      (∃ r, g.tgt (r, x) = some n) ∨ Sole g'.tgt (q, x)) : SameKind g'.tgt := by
  have hcase (q : Slot) (x : SPos) (n : Nat) (hx : g'.tgt (q, x) = some n) :
      (∃ r, g.tgt (r, x) = some n) ∨ Sole g'.tgt (q, x) := by
    by_cases ho : x.Own
    · exact .inr ((h'.slot q).own x ho)
    · exact hr q x n ho hx
  intro p q x y n hx hy
  rcases hcase p x n hx with ⟨r, hr⟩ | hs
  · rcases hcase q y n hy with ⟨r', hr'⟩ | hs
    · exact hk r r' x y n hr hr'
    · exact congrArg Prod.snd (hs n (p, x) hy hx)
  · exact (congrArg Prod.snd (hs n (q, y) hx hy)).symm

theorem kind_grown (h' : Vm kend s' { g with tgt := tgt', fl := fl' }) (hk : SameKind g.tgt)
    (hg : Grown (nd p) s g.tgt g.fl s' tgt' fl') : SameKind tgt' := by
  refine h'.sameKind hk fun q x n ho hx => .inl ⟨q, ?_⟩
  rw [← hx]
  refine (hg.off _ fun y he => ho ?_).symm
  obtain rfl : x = .node y := congrArg Prod.snd he
  trivial

theorem kept_grown (hr : g.tgt (nd p .root) = some r)
    (hg : Grown (nd p) s g.tgt g.fl s' tgt' fl') : Kept g { g with tgt := tgt', fl := fl' } p where
  plain _ hx := hg.off _ (ne_nd hx.1)
  root := (hg.keep _ _ hr).trans hr.symm
  outer _ _ := rfl

/-- A `kalloc` without a page. -/
theorem noPage (h : Vm kend s g) (hz : s.kalloc.1 = 0) :
    Vm kend s.kalloc.2 g ∧ SlotStep (· = p) s g s.kalloc.2 g := by
  have ha := h.alloc
  rw [Phys.kalloc_zero hz]
  exact ⟨⟨⟨ha.kernel, ha.bal, ha.chain, ha.cnt⟩, h.lost, h.slot⟩,
    ⟨fun _ _ _ => rfl, fun _ _ => rfl, fun _ hn => hn, fun _ _ _ _ _ => rfl, fun _ => rfl⟩⟩

/-- What the last reference to a page is forgotten of is never given back. -/
theorem loseAt (h : Vm kend s g) {x : SPos} (hx : x.Plain) (ho : x.Own)
    (hn : g.tgt (p, x) = some n) :
    let g' := { g.set (p, x) none with lost := Function.update g.lost n (g.lost n + 1) }
    Vm kend s g' ∧ SlotStep (· = p) s g s g' := by
  intro g'
  have hgone := ((h.slot p).own x ho).gone hn
  have hst : SlotStep (· = p) s g s g' := by
    constructor
    · intro q y hq
      exact Function.update_of_ne (fun he => hq (congrArg Prod.fst he)) _ _
    · intro q _
      rfl
    · rintro j (hj | ⟨q, y, hq, hy⟩)
      · exact .inl hj
      · exact .inr ⟨q, y, hq, update_none_some hy⟩
    · intro _ _ _ _ _
      rfl
    · exact id
  refine ⟨h.step hst (h.alloc.lose hn) ?_ ?_, hst⟩
  · intro y j hy
    have hj : j ≠ n := by
      rintro rfl
      exact hgone y hy
    exact (Function.update_of_ne hj _ _).trans (h.lost y j (update_none_some hy))
  · intro q hq
    rw [hq]
    exact h.slotOk_set hx ((h.slot p).refs.erase _) (fun v hv => hv.erase _) fun _ _ _ => rfl

theorem take (h : Vm kend s g) (va : Nat) : Vm kend (s.take va) g :=
  ⟨⟨h.alloc.kernel, h.alloc.bal, h.alloc.chain, h.alloc.cnt⟩, h.lost, h.slot⟩

end Vm

namespace TabInv
variable {L : Layout} {k : Tabs} {s : Phys} {g g' : Ghost} {p c : Slot}

/-- A call on the tables of `S`: only these are looked at. -/
theorem step {S : Slot → Prop} (h : TabInv L k g) (hvm : Vm L.kend s g')
    (st : SlotStep S k.phys g s g') (hkind : SameKind g'.tgt) (hlost : ∀ n, g.lost n ≤ g'.lost n)
    {tab : Slot → UTab} (htab : ∀ q, ¬ S q → tab q = k.tab q)
    (hp : ∀ q, S q → TabOk g' q (tab q)) : TabInv L ⟨s, tab⟩ g' := by
  refine ⟨hvm, hkind, fun q => ?_⟩
  by_cases hq : S q
  · exact hp q hq
  · change TabOk g' q (tab q)
    rw [htab q hq]
    exact (h.slot q).kept (st.kept hq) hlost

theorem root (h : TabInv L k g) (hpt : (k.tab p).pagetable ≠ 0) :
    g.tgt (nd p .root) = some (k.tab p).pagetable := (h.slot p).root.trans (ptr_of_ne hpt)

/-- A call on one table that changes none of the slot's pointers. -/
theorem stepKept (h : TabInv L k g) (hvm : Vm L.kend s g')
    (st : SlotStep (· = p) k.phys g s g') (hkind : SameKind g'.tgt)
    (hlost : ∀ n, g.lost n ≤ g'.lost n) (hk : Kept g g' p) : TabInv L (k.setPhys s) g' := by
  refine h.step hvm st hkind hlost (fun _ _ => rfl) fun q hq => ?_
  rw [hq]
  exact (h.slot p).kept hk hlost

/-- `vm_free_range` over user pages. -/
theorem freeRange (h : TabInv L k g) (hpt : (k.tab p).pagetable ≠ 0) (hu : UserRange v stop) :
    ∃ g', TabInv L (k.setPhys (k.phys.vmFreeRange (k.tab p).pagetable (v * PGSIZE) stop)) g' := by
  obtain ⟨hlo, hhi⟩ := hu
  have hv : 16 ≤ v := by
    simp only [HEAPBASE, PGSIZE] at hlo
    omega
  obtain ⟨g', hvm, st, _, hc⟩ := h.vm.freeRange (h.root hpt) hv rfl hhi
  have hsub (z : Pos) (n : Nat) (hz : g'.tgt z = some n) : g.tgt z = some n := by
    obtain ⟨q, x⟩ := z
    by_cases hq : q = p
    · rw [hq] at hz ⊢
      exact hc.sub hz
    · rwa [st.tgt q x hq] at hz
  refine ⟨g', h.stepKept hvm st (h.kind.sub hsub) (fun n => ?_) ⟨fun x hx => ?_, ?_, fun u hu => ?_⟩⟩
  · rw [hc.lost]
  · exact hc.other x hx.2
  · exact hc.other _ fun _ => SPos.noConfusion
  · apply hc.entry
    simp only [Outer, PLIC, PGSIZE] at hu hhi ⊢
    omega

/-- A page from the allocator in the hand of slot `p`, with what is put into it. -/
theorem hold (h : TabInv L k g) (p : Slot) (hz : k.phys.kalloc.1 ≠ 0) (data : Page) :
    ∃ fl', let g' := (g.set (p, .fresh) (some k.phys.kalloc.1)).setFl fl'
      let s := k.phys.kalloc.2.setMem (k.phys.kalloc.2.mem.setPage k.phys.kalloc.1 data)
      Vm L.kend s g' ∧ SlotStep (· = p) k.phys g s g' := by
  obtain ⟨fl', _, hvm, st⟩ := h.vm.kallocAt SPos.plain_fresh (h.slot p).fresh hz
  have hn : ((g.set (p, .fresh) (some k.phys.kalloc.1)).setFl fl').tgt (p, .fresh) =
      some k.phys.kalloc.1 := g.set_self ..
  obtain ⟨hvm', st'⟩ := hvm.setData hn (fun _ => SPos.noConfusion)
    ((hvm.slot p).own .fresh trivial) (m := k.phys.kalloc.2.mem.setPage k.phys.kalloc.1 data)
    fun j hj => Mem.setPage_of_ne _ _ hj
  exact ⟨fl', hvm', st.trans st'⟩

end TabInv

namespace Vm
variable {s s' : Phys} {g g' : Ghost} {p q c : Slot} {v : UPage}

/-- The page in hand is given back: the slot has what it had before it took the page. -/
theorem putBack (h : Vm kend s g) (hn : g.tgt (p, .fresh) = some n) :
    ∃ fl', let g' := (g.set (p, .fresh) none).setFl fl'
      Vm kend (s.kfree n) g' ∧ SlotStep (· = p) s g (s.kfree n) g' := by
  obtain ⟨fl', hvm, st, _⟩ := h.kfreeAt SPos.plain_fresh hn
  exact ⟨fl', hvm, st⟩

/-- Mapping the page in hand where the process has no heap and no file: the page is lost. -/
theorem mapOuter (h : Vm kend s g) (hr : g.tgt (nd p .root) = some r)
    (hn : g.tgt (p, .fresh) = some n) (hv : Outer (vpn a))
    (hf : perm ||| PTE_V = 19 ∨ perm ||| PTE_V = 23) :
    let w := Phys.mapLoop r perm 0 s a n
    ∃ tgt' fl', Grown (nd p) s g.tgt g.fl w.2 tgt' fl' ∧
      (w.1 = true ∧ (let g' : Ghost := ⟨tgt', Function.update g.lf p
            (Function.update (g.lf p) (vpn a) (mkPte n (perm ||| PTE_V))), g.lost, fl'⟩
          Vm kend w.2 g' ∧ SlotStep (· = p) s g w.2 g') ∨
        w.1 = false ∧ Vm kend w.2 { g with tgt := tgt', fl := fl' } ∧
          SlotStep (· = p) s g w.2 { g with tgt := tgt', fl := fl' }) := by
  intro w
  have hp := h.slot p
  obtain ⟨tgt', fl', hg, _, ⟨hok, _, ht⟩ | ⟨hno, _, ht⟩⟩ :=
    (h.tab p).mapOne hr (h.alloc.bal.target _ n hn).2 (show perm ||| PTE_V < 1024 by omega) a
  · refine ⟨tgt', fl', hg, .inl ⟨hok, h.grown hg ht (fun u hu => ?_) fun u hu => ?_,
      h.slotStep_grown hg _⟩⟩
    · have hne : u.val ≠ vpn a := by
        have hu' := u.isLt
        simp only [Outer] at hv
        omega
      rw [Function.update_of_ne hne]
      exact hp.leaf u hu
    · by_cases hne : u.val = vpn a
      · have hu' := u.isLt
        simp only [Outer] at hv
        exact sole_of_none (hp.bare u (by omega))
      · rw [Function.update_of_ne hne] at hu
        exact hp.write u hu
  · have hvm := h.grown hg ht hp.leaf hp.write
    have hst := h.slotStep_grown hg (g.lf p)
    rw [Function.update_eq_self] at hvm hst
    exact ⟨tgt', fl', hg, .inr ⟨hno, hvm, hst⟩⟩

end Vm

namespace TabInv
variable {L : Layout} {k : Tabs} {s : Phys} {g g' : Ghost} {p c : Slot}

section Hand
variable (hg : Grown (nd p) s₀ (g.set (p, .fresh) (some n)).tgt fl s tgt' fl')
include hg

/-- A new node for the page in hand leaves every other position as it is. -/
theorem hand_off (q : Slot) (x : SPos) (hx : ∀ y, x ≠ .node y) :
    tgt' (q, x) = (g.set (p, .fresh) (some n)).tgt (q, x) :=
  hg.off _ fun y he => hx y (congrArg Prod.snd he)

/-- Without the page in hand every position but the nodes is as before. -/
theorem hand_back (h : TabInv L k g) (q : Slot) (x : SPos) (hx : ∀ y, x ≠ .node y) :
    Function.update tgt' (p, .fresh) none (q, x) = g.tgt (q, x) := by
  by_cases he : (q, x) = (p, .fresh)
  · rw [he, Function.update_self]
    exact (h.slot p).fresh.symm
  · rw [Function.update_of_ne he, hand_off hg q x hx]
    exact Function.update_of_ne he _ _

end Hand

/-- The page in hand could not be mapped. -/
theorem mapFails (h : TabInv L k g) (hpt : (k.tab p).pagetable ≠ 0)
    (hvm : Vm L.kend s { (g.set (p, .fresh) (some n)).setFl fl with tgt := tgt', fl := fl' })
    (st : SlotStep (· = p) k.phys g s
      { (g.set (p, .fresh) (some n)).setFl fl with tgt := tgt', fl := fl' })
    (hg : Grown (nd p) s₀ (g.set (p, .fresh) (some n)).tgt fl s tgt' fl') :
    ∃ g', TabInv L (k.setPhys (s.kfree n)) g' := by
  have hn : tgt' (p, .fresh) = some n :=
    (hand_off hg p _ fun _ => SPos.noConfusion).trans (g.set_self ..)
  obtain ⟨fl'', hvm', st'⟩ := hvm.putBack hn
  have hback := hand_back hg h
  refine ⟨_, h.stepKept hvm' (st.trans st') (hvm'.sameKind h.kind fun q x j ho hx => .inl ⟨q, ?_⟩)
    (fun _ => Nat.le_refl _) ⟨fun x hx => hback p x hx.1, ?_, fun _ _ => rfl⟩⟩
  · rw [← hx]
    refine (hback q x fun y he => ho ?_).symm
    rw [he]
    trivial
  · have hroot := h.root hpt
    have hr : (g.set (p, .fresh) (some n)).tgt (nd p .root) = some (k.tab p).pagetable :=
      (g.set_of_ne _ SPos.noConfusion).trans hroot
    rw [hroot]
    exact (Function.update_of_ne (fun he => SPos.noConfusion (congrArg Prod.snd he)) _ _).trans
      (hg.keep _ _ hr)

/-- The page in hand is mapped in the heap or as a page of a file. -/
theorem mapInner (h : TabInv L k g) (hpt : (k.tab p).pagetable ≠ 0) {s₁ : Phys}
    (h₁ : Vm L.kend s₁ ((g.set (p, .fresh) (some n)).setFl fl))
    (st₁ : SlotStep (· = p) k.phys g s₁ ((g.set (p, .fresh) (some n)).setFl fl)) {u : UPage}
    (hu : 16 ≤ u.val) (hv : vpn a = u.val) (hf : perm ||| PTE_V = 19 ∨ perm ||| PTE_V = 23) :
    let w := Phys.mapLoop (k.tab p).pagetable perm 0 s₁ a n
    ∃ g', TabInv L (k.setPhys (if w.1 then w.2 else w.2.kfree n)) g' := by
  intro w
  have hn : ((g.set (p, .fresh) (some n)).setFl fl).tgt (p, .fresh) = some n := g.set_self ..
  have hr : ((g.set (p, .fresh) (some n)).setFl fl).tgt (nd p .root) = some (k.tab p).pagetable :=
    (g.set_of_ne _ SPos.noConfusion).trans (h.root hpt)
  obtain ⟨g', hvm, st, _, ⟨hok, _, tgt', fl', hg, rfl⟩ | ⟨hno, _, tgt', fl', hg, rfl⟩⟩ :=
    h₁.mapFresh hr hn hu hv hf
  · rw [if_pos hok]
    have hsole : Sole tgt' (p, .fresh) := h₁.sole_grown hg ((h₁.slot p).own .fresh trivial)
      (ne_nd fun _ => SPos.noConfusion)
    have hgone := hsole.gone ((hand_off hg p _ fun _ => SPos.noConfusion).trans hn)
    have hback (q : Slot) (x : SPos) (hx : ∀ y, x ≠ .node y) (hl : (q, x) ≠ (p, .leaf u)) :
        Function.update (Function.update tgt' (p, .fresh) none) (p, .leaf u) (some n) (q, x) =
          g.tgt (q, x) := by
      rw [Function.update_of_ne hl]
      exact hand_back hg h q x hx
    refine ⟨_, h.stepKept hvm (st₁.trans st) (hvm.sameKind h.kind fun q x j ho hx => ?_)
      (fun _ => Nat.le_refl _) ⟨fun x hx => ?_, ?_, fun t ht => ?_⟩⟩
    · by_cases hl : (q, x) = (p, .leaf u)
      · rw [hl]
        exact .inr (.new hgone _)
      · refine .inl ⟨q, ?_⟩
        rw [← hx]
        refine (hback q x (fun y he => ho ?_) hl).symm
        rw [he]
        trivial
    · exact hback p x hx.1 fun he => hx.2 u (congrArg Prod.snd he)
    · rw [h.root hpt]
      have hne (x : SPos) (hx : ∀ y, x ≠ .node y) : nd p .root ≠ (p, x) := fun he =>
        hx _ (congrArg Prod.snd he).symm
      exact (Function.update_of_ne (hne _ fun _ => SPos.noConfusion) _ _).trans
        ((Function.update_of_ne (hne _ fun _ => SPos.noConfusion) _ _).trans (hg.keep _ _ hr))
    · have hne : t ≠ u.val := by
        have hlt := u.isLt
        simp only [Outer] at ht
        omega
      simp [Ghost.setLf, Ghost.set, Ghost.setFl, hne]
  · rw [hno]
    exact h.mapFails hpt hvm (st₁.trans st) hg

/-- The page in hand is mapped elsewhere. -/
theorem mapElsewhere (h : TabInv L k g) (hpt : (k.tab p).pagetable ≠ 0) {s₁ : Phys}
    (h₁ : Vm L.kend s₁ ((g.set (p, .fresh) (some n)).setFl fl))
    (st₁ : SlotStep (· = p) k.phys g s₁ ((g.set (p, .fresh) (some n)).setFl fl))
    (hv : Outer (vpn a)) (hf : perm ||| PTE_V = 19 ∨ perm ||| PTE_V = 23) :
    let w := Phys.mapLoop (k.tab p).pagetable perm 0 s₁ a n
    ∃ g', TabInv L (k.setPhys (if w.1 then w.2 else w.2.kfree n)) g' := by
  intro w
  have hn : ((g.set (p, .fresh) (some n)).setFl fl).tgt (p, .fresh) = some n := g.set_self ..
  have hr : ((g.set (p, .fresh) (some n)).setFl fl).tgt (nd p .root) = some (k.tab p).pagetable :=
    (g.set_of_ne _ SPos.noConfusion).trans (h.root hpt)
  obtain ⟨tgt', fl', hg, ⟨hok, hvm, st⟩ | ⟨hno, hvm, st⟩⟩ := h₁.mapOuter hr hn hv hf
  · rw [if_pos hok]
    have hn' : tgt' (p, .fresh) = some n :=
      (hand_off hg p _ fun _ => SPos.noConfusion).trans hn
    obtain ⟨hvm', st'⟩ := hvm.loseAt SPos.plain_fresh trivial hn'
    have hback := hand_back hg h
    have hlost (j : Nat) : g.lost j ≤ Function.update g.lost n (g.lost n + 1) j := by
      by_cases hj : j = n
      · rw [hj, Function.update_self]
        exact Nat.le_succ _
      · rw [Function.update_of_ne hj]
    refine ⟨_, h.step hvm' ((st₁.trans st).trans st')
      (hvm'.sameKind h.kind fun q x j ho hx => .inl ⟨q, ?_⟩) hlost (fun _ _ => rfl) ?_⟩
    · rw [← hx]
      refine (hback q x fun y he => ho ?_).symm
      rw [he]
      trivial
    · intro q hq
      rw [hq]
      have hs := h.slot p
      refine ⟨?_, (hback p _ fun _ => SPos.noConfusion).trans hs.ucode,
        (hback p _ fun _ => SPos.noConfusion).trans hs.ustack,
        (hback p _ fun _ => SPos.noConfusion).trans hs.fresh,
        (hback p _ fun _ => SPos.noConfusion).trans hs.old, hs.code, fun t ht => ?_⟩
      · rw [ptr_of_ne hpt]
        exact (Function.update_of_ne (fun he => SPos.noConfusion (congrArg Prod.snd he)) _ _).trans
          (hg.keep _ _ hr)
      · have hlf : ({ (⟨tgt', Function.update g.lf p (Function.update (g.lf p) (vpn a)
            (mkPte n (perm ||| PTE_V))), g.lost, fl'⟩ : Ghost).set (p, .fresh) none with
              lost := Function.update g.lost n (g.lost n + 1) } : Ghost).lf p t =
            Function.update (g.lf p) (vpn a) (mkPte n (perm ||| PTE_V)) t := by
          simp [Ghost.set]
        refine hlf ▸ ?_
        by_cases htv : t = vpn a
        · rw [htv, Function.update_self]
          refine .lost n _ rfl hf ?_
          dsimp only
          rw [Function.update_self]
          exact Nat.succ_pos _
        · rw [Function.update_of_ne htv]
          exact (hs.outer t ht).congr (hback p _ fun _ => SPos.noConfusion)
            (hback p _ fun _ => SPos.noConfusion) hlost
  · rw [hno]
    exact h.mapFails hpt hvm (st₁.trans st) hg

/-- `uvm_map` of a new page. -/
theorem map (h : TabInv L k g) (hpt : (k.tab p).pagetable ≠ 0) (v : Nat) (data : Page)
    (hf : perm ||| PTE_V = 19 ∨ perm ||| PTE_V = 23) :
    ∃ g', TabInv L (k.setPhys (Tabs.uvmMap k.phys (k.tab p).pagetable (v * PGSIZE) perm data)) g' := by
  have heq : Tabs.uvmMap k.phys (k.tab p).pagetable (v * PGSIZE) perm data =
      if k.phys.kalloc.1 = 0 then k.phys.kalloc.2
      else
        let w := Phys.mapLoop (k.tab p).pagetable perm 0 (k.phys.kalloc.2.setMem
          (k.phys.kalloc.2.mem.setPage k.phys.kalloc.1 data)) (v * PGSIZE) k.phys.kalloc.1
        if w.1 then w.2 else w.2.kfree k.phys.kalloc.1 := by
    rw [← Vm.mappages_one]
    rfl
  rw [heq]
  by_cases hz : k.phys.kalloc.1 = 0
  · rw [if_pos hz]
    obtain ⟨hvm, st⟩ := h.vm.noPage (p := p) hz
    exact ⟨g, h.stepKept hvm st h.kind (fun _ => Nat.le_refl _) (.refl g p)⟩
  · rw [if_neg hz]
    obtain ⟨fl, h₁, st₁⟩ := h.hold p hz data
    by_cases hv : 16 ≤ vpn (v * PGSIZE) ∧ vpn (v * PGSIZE) < 0xC000
    · exact h.mapInner hpt h₁ st₁ (u := ⟨vpn (v * PGSIZE), hv.2⟩) hv.1 rfl hf
    · refine h.mapElsewhere hpt h₁ st₁ ⟨?_, vpn_lt _⟩ hf
      omega

end TabInv

end KernelHobby
