import KernelHobby.VmWait

namespace KernelHobby
set_option autoImplicit true

/-- The lowest entries of a new page table: the kernel's, and the two user pages when there were
pages for the nodes. -/
structure NewTable (L : Layout) (uc us : Nat) (lf : Nat → Nat) : Prop where
  kern : ∀ v, 0xC000 ≤ v → lf v = kernPte L v
  heap : ∀ v, 16 ≤ v → v < 0xC000 → lf v = 0
  code : ∀ v, v < 16 → lf v = 0 ∨ v = 1 ∧ lf v = mkPte uc 27 ∨ v = 4 ∧ lf v = mkPte us 23

theorem kernPte_low (L : Layout) (h : v < 0xC000) : kernPte L v = 0 := by
  have ht := L.text
  rw [kernPte, if_neg (by omega), if_neg (by omega), if_neg (by omega)]

theorem NewTable.first (L : Layout) (uc us : Nat) : NewTable L uc us (kernPte L) where
  kern _ _ := rfl
  heap v _ hv := kernPte_low L hv
  code v hv := .inl (kernPte_low L (by omega))

theorem Phys.procPagetable_eq (L : Layout) (s : Phys) (uc us : Nat) :
    s.procPagetable L uc us =
      if s.kalloc.1 = 0 then some (0, s.kalloc.2)
      else (mapKernel L (s.kalloc.2.setMem (s.kalloc.2.mem.setPage s.kalloc.1 Page.zero))
        s.kalloc.1).map fun s₁ =>
          let s₂ := (s₁.mappages s.kalloc.1 USERVA PGSIZE uc (PTE_R ||| PTE_X ||| PTE_U)).2
          (s.kalloc.1,
            (s₂.mappages s.kalloc.1 USERSTACK PGSIZE us (PTE_R ||| PTE_W ||| PTE_U)).2) := by
  rw [procPagetable]
  generalize s.kalloc = a
  obtain ⟨pt, s₁⟩ := a
  dsimp only
  split
  · rfl
  · cases mapKernel L (s₁.setMem (s₁.mem.setPage pt Page.zero)) pt <;> rfl

/-- The pages that every page table of a process maps. -/
def UserPages (L : Layout) (u : Nat) : Prop := kernPte L u ≠ 0 ∨ u = 1 ∨ u = 4

/-- The lowest entries of a page table with its code page and its stack. -/
def userPte (L : Layout) (uc us : Nat) : Nat → Nat :=
  Function.update (Function.update (kernPte L) 1 (mkPte uc 27)) 4 (mkPte us 23)

namespace Tab
variable {ι : Type} [Fintype ι] [DecidableEq ι] {kend : Nat} {s s' : Phys} {tgt : ι → Option Nat}
  {lost : Nat → Nat} {fl : List Nat} {nd : Node → ι} {lf : Nat → Nat}

/-- One of the two user pages of a new table. -/
theorem mapUser (h : Tab kend s tgt lost fl nd lf) (hr : tgt (nd .root) = some r)
    (hpa : pa < PHYSTOP) (hlf : NewTable L uc us lf) (hz : lf v = 0)
    (hone : v = 1 ∧ b ||| PTE_V = 27 ∧ pa = uc ∨ v = 4 ∧ b ||| PTE_V = 23 ∧ pa = us) :
    let s' := (s.mappages r (v * PGSIZE) PGSIZE pa b).2
    ∃ tgt' fl' lf', Grown nd s tgt fl s' tgt' fl' ∧ Tab kend s' tgt' lost fl' nd lf' ∧
      NewTable L uc us lf' ∧ NodeCount nd (· = v) tgt fl tgt' fl' ∧ (∀ u, u ≠ v → lf' u = lf u) ∧
      (s'.failed = s.failed ∧ lf' v = mkPte pa (b ||| PTE_V) ∨
        s'.failed = true ∧ Scarce nd (· = v) tgt fl) := by
  have hb : b ||| PTE_V < 1024 := by omega
  have hv : vpn (v * PGSIZE) = v := Vm.vpn_page (by omega)
  rw [Vm.mappages_one]
  obtain ⟨tgt', fl', hg, hc, ⟨_, hf, ht⟩ | ⟨_, hf, ht, hs⟩⟩ := h.mapFree hr hpa hb hv hz
  · refine ⟨tgt', fl', _, hg, ht, ?_, hc, fun u hu => Function.update_of_ne hu _ _,
      .inl ⟨hf, Function.update_self ..⟩⟩
    constructor
    · intro u hu
      rw [Function.update_of_ne (by omega)]
      exact hlf.kern u hu
    · intro u hlo hhi
      rw [Function.update_of_ne (by omega)]
      exact hlf.heap u hlo hhi
    · intro u hu
      by_cases huv : u = v
      · subst huv
        rw [Function.update_self]
        rcases hone with ⟨h1, h2, h3⟩ | ⟨h1, h2, h3⟩
        · rw [h2, h3]
          exact .inr (.inl ⟨h1, rfl⟩)
        · rw [h2, h3]
          exact .inr (.inr ⟨h1, rfl⟩)
      · rw [Function.update_of_ne huv]
        exact hlf.code u hu
  · exact ⟨tgt', fl', lf, hg, ht, hlf, hc, fun _ _ => rfl, .inr ⟨hf, hs⟩⟩

/-- The two user pages of a new table. -/
theorem mapUserPages (h : Tab kend s tgt lost fl nd (kernPte L)) (hr : tgt (nd .root) = some r)
    (huc : uc < PHYSTOP) (hus : us < PHYSTOP) :
    let s' := ((s.mappages r USERVA PGSIZE uc (PTE_R ||| PTE_X ||| PTE_U)).2.mappages r USERSTACK
      PGSIZE us (PTE_R ||| PTE_W ||| PTE_U)).2
    ∃ tgt' fl' lf', Grown nd s tgt fl s' tgt' fl' ∧ Tab kend s' tgt' lost fl' nd lf' ∧
      NewTable L uc us lf' ∧ NodeCount nd (UserPages L) tgt fl tgt' fl' ∧
      (s'.failed = s.failed ∧ lf' = userPte L uc us ∨
        s'.failed = true ∧ Scarce nd (UserPages L) tgt fl) := by
  have hin (v : Nat) (hv : v = 1 ∨ v = 4) (u : Nat) (hu : u = v) : UserPages L u := .inr (hu ▸ hv)
  have hone : 1 * PGSIZE = USERVA := rfl
  have hfour : 4 * PGSIZE = USERSTACK := rfl
  obtain ⟨t₁, f₁, l₁, g₁, b₁, n₁, c₁, o₁, r₁⟩ := h.mapUser (v := 1)
    (b := PTE_R ||| PTE_X ||| PTE_U) hr huc (.first L uc us) (kernPte_low L (by decide))
    (.inl ⟨rfl, rfl, rfl⟩)
  rw [hone] at g₁ b₁ r₁
  have hz₄ : l₁ 4 = 0 := (o₁ 4 (by decide)).trans (kernPte_low L (by decide))
  obtain ⟨t₂, f₂, l₂, g₂, b₂, n₂, c₂, o₂, r₂⟩ := b₁.mapUser (v := 4)
    (b := PTE_R ||| PTE_W ||| PTE_U) (g₁.keep _ _ hr) hus n₁ hz₄ (.inr ⟨rfl, rfl, rfl⟩)
  rw [hfour] at g₂ b₂ r₂
  have hc₁ := c₁.mono (hin 1 (.inl rfl))
  refine ⟨t₂, f₂, l₂, g₁.trans g₂, b₂, n₂, hc₁.trans (c₂.mono (hin 4 (.inr rfl))), ?_⟩
  rcases r₁ with ⟨hf₁, e₁⟩ | ⟨hf₁, hs⟩
  · rcases r₂ with ⟨hf₂, e₂⟩ | ⟨hf₂, hs⟩
    · refine .inl ⟨hf₂.trans hf₁, funext fun u => ?_⟩
      rw [userPte]
      by_cases h4 : u = 4
      · rw [h4, Function.update_self]
        exact e₂
      · rw [Function.update_of_ne h4, o₂ u h4]
        by_cases h1 : u = 1
        · rw [h1, Function.update_self]
          exact e₁
        · rw [Function.update_of_ne h1, o₁ u h1]
    · exact .inr ⟨hf₂, hc₁.scarce (hs.mono (hin 4 (.inr rfl)))⟩
  · exact .inr ⟨g₂.failed hf₁, hs.mono (hin 1 (.inl rfl))⟩

/-- A page becomes the root of a table with the kernel's mappings. -/
theorem newTable (L : Layout) (h : Tab kend s tgt lost fl nd fun _ => 0)
    (hnone : ∀ y, tgt (nd y) = none) (hz : s.kalloc.1 ≠ 0) :
    let o := Phys.mapKernel L (s.kalloc.2.setMem (s.kalloc.2.mem.setPage s.kalloc.1 Page.zero))
      s.kalloc.1
    (∃ s' tgt' fl', o = some s' ∧ tgt' (nd .root) = some s.kalloc.1 ∧
        Grown nd s tgt fl s' tgt' fl' ∧ Tab kend s' tgt' lost fl' nd (kernPte L) ∧
        s'.failed = s.failed ∧ ∀ N, (∀ u, UserPages L u → PathIn N u) →
          fl.length + missing nd N tgt' ≤ fl'.length + (1 + N.card)) ∨
      o = none ∧ ∀ N, (∀ u, UserPages L u → PathIn N u) → fl.length ≤ N.card := by
  intro o
  obtain ⟨fl₀, t₀, g₀⟩ := h.grow (hnone .root) hz (.addRoot hnone s.mem s.kalloc.1)
    fun k hk _ => s.mem.setPage_of_ne _ hk
  have hr₀ : Function.update tgt (nd .root) (some s.kalloc.1) (nd .root) = some s.kalloc.1 :=
    Function.update_self ..
  have hlen : fl.length ≤ fl₀.length + 1 := by
    have hcnt : s.kalloc.2.freecnt = fl₀.length := t₀.alloc.cnt
    rw [s.kalloc_freecnt hz, h.alloc.cnt] at hcnt
    omega
  have ho : o = Phys.mapKernel L (s.kalloc.2.setMem (s.mem.setPage s.kalloc.1 Page.zero))
      s.kalloc.1 := by
    rw [← s.kalloc_mem]
  rw [ho]
  rcases t₀.mapKernel L hr₀ with ⟨s₁, t₁, f₁, e₁, g₁, b₁, d₁, c₁⟩ | ⟨e₁, hs⟩
  · refine .inl ⟨s₁, t₁, f₁, e₁, g₁.keep _ _ hr₀, g₀.trans g₁, b₁,
      d₁.trans (s.kalloc_failed hz), fun N hN => ?_⟩
    have hc := c₁ N fun u hu => hN u (.inl hu)
    have hle := missing_le nd N (Function.update tgt (nd .root) (some s.kalloc.1))
    omega
  · refine .inr ⟨e₁, fun N hN => ?_⟩
    have hlt := hs N fun u hu => hN u (.inl hu)
    have hle := missing_le nd N (Function.update tgt (nd .root) (some s.kalloc.1))
    omega

/-- `proc_pagetable` from an empty table on: without a page for the root there is no table, the
kernel hangs when its own mappings do not fit, and else the user pages are mapped as far as there
are pages for nodes. -/
theorem procPagetable (L : Layout) (h : Tab kend s tgt lost fl nd fun _ => 0)
    (hnone : ∀ y, tgt (nd y) = none) (huc : uc < PHYSTOP) (hus : us < PHYSTOP) :
    s.procPagetable L uc us = some (0, s.kalloc.2) ∧ s.kalloc.1 = 0 ∧ fl = [] ∨
      s.procPagetable L uc us = none ∧
        (∀ N, (∀ u, UserPages L u → PathIn N u) → fl.length ≤ N.card) ∨
      ∃ s' tgt' fl' lf', s.procPagetable L uc us = some (s.kalloc.1, s') ∧ s.kalloc.1 ≠ 0 ∧
        Grown nd s tgt fl s' tgt' fl' ∧ Tab kend s' tgt' lost fl' nd lf' ∧ NewTable L uc us lf' ∧
        tgt' (nd .root) = some s.kalloc.1 ∧
        (∀ N, (∀ u, UserPages L u → PathIn N u) →
          fl.length + missing nd N tgt' ≤ fl'.length + (1 + N.card)) ∧
        (s'.failed = s.failed ∧ lf' = userPte L uc us ∨ s'.failed = true ∧
          ∀ N, (∀ u, UserPages L u → PathIn N u) → fl.length ≤ N.card) := by
  rw [Phys.procPagetable_eq]
  by_cases hz : s.kalloc.1 = 0
  · have hnil : fl = [] := by
      by_contra hne
      exact h.alloc.kalloc_ne_zero hne hz
    exact .inl ⟨if_pos hz, hz, hnil⟩
  · rw [if_neg hz]
    right
    rcases h.newTable L hnone hz with ⟨s₁, t₁, f₁, e₁, r₁, g₁, b₁, d₁, c₁⟩ | ⟨e₁, hs⟩
    · obtain ⟨t₂, f₂, l₂, g₂, b₂, n₂, c₂, hres⟩ := b₁.mapUserPages r₁ huc hus
      right
      refine ⟨_, t₂, f₂, l₂, ?_, hz, g₁.trans g₂, b₂, n₂, g₂.keep _ _ r₁, fun N hN => ?_, ?_⟩
      · rw [e₁]
        rfl
      · have h₁ := c₁ N hN
        have h₂ := c₂ N hN
        omega
      · rcases hres with ⟨hf, hl⟩ | ⟨hf, hs⟩
        · exact .inl ⟨hf.trans d₁, hl⟩
        · refine .inr ⟨hf, fun N hN => ?_⟩
          have h₁ := c₁ N hN
          have h₂ := hs N hN
          omega
    · left
      rw [e₁]
      exact ⟨rfl, hs⟩

end Tab

namespace Vm
variable {s s' : Phys} {g : Ghost} {p c : Slot}

/-- A process without nodes has an empty page table. -/
theorem emptyTab (h : Vm kend s g) (hnode : ∀ y, g.tgt (nd c y) = none) :
    Tab kend s g.tgt g.lost g.fl (nd c) fun _ => 0 := by
  refine ⟨h.alloc, .empty hnode _, fun x y n hx => ?_, nd_injective c⟩
  rw [hnode] at hx
  cases hx

/-- The child refers to its parent's code page. -/
theorem shareCode (h : Vm kend s g) (hpc : p ≠ c) (hn : g.tgt (p, .ucode) = some n)
    (hnone : ∀ x, g.tgt (c, x) ≠ some n) (hfree : g.tgt (c, .ucode) = none) :
    Vm kend (s.krefInc n) (g.set (c, .ucode) (some n)) ∧
      SlotStep (Pair p c) s g (s.krefInc n) (g.set (c, .ucode) (some n)) := by
  have hcnt : (s.refcnt n).toNat < 255 := Nat.lt_of_le_of_lt (h.refcnt_le hn) (by decide)
  have hp := h.slot p
  have hcp (x : SPos) : (p, x) ≠ (c, SPos.ucode) := fun he => hpc (congrArg Prod.fst he)
  have htp (x : SPos) : Function.update g.tgt (c, .ucode) (some n) (p, x) = g.tgt (p, x) :=
    Function.update_of_ne (hcp x) _ _
  -- the parent refers to its code page from one place
  have hslot (x : SPos) (hx : x ≠ .ucode) : g.tgt (p, x) ≠ some n := fun he =>
    hx (hp.inslot x _ n he hn)
  have hst : SlotStep (Pair p c) s g (s.krefInc n) (g.set (c, .ucode) (some n)) := by
    constructor
    · intro q x hq
      exact Function.update_of_ne (fun he => hq (.inr (congrArg Prod.fst he))) _ _
    · intro q _
      rfl
    · rintro j (hj | ⟨q, x, hq, hx⟩)
      · exact .inl hj
      · rcases update_some_some hx with hx | ⟨_, rfl⟩
        · exact .inr ⟨q, x, hq, hx⟩
        · exact .inr ⟨p, .ucode, .inl rfl, hn⟩
    · intro q x j _ _
      rfl
    · exact id
  refine ⟨h.step hst (h.alloc.krefInc hfree hn hcnt) ?_ ?_, hst⟩
  · intro y j hy
    rcases update_some_some hy with hy | ⟨_, rfl⟩
    · exact h.lost y j hy
    · exact h.lost _ j hn
  · rintro q (rfl | rfl)
    · constructor
      · have hnode : (fun y => Function.update g.tgt (c, .ucode) (some n) (nd q y)) =
            fun y => g.tgt (nd q y) := funext fun y => htp (.node y)
        exact hnode ▸ hp.holds
      · intro x hx
        refine (hp.own x hx).other (hslot x ?_) (hcp x)
        rintro rfl
        exact hx
      · intro x y j hx hy
        exact hp.inslot x y j ((htp x).symm.trans hx) ((htp y).symm.trans hy)
      · intro v hv
        have he : (g.set (c, .ucode) (some n)).tgt (q, .leaf v) = g.tgt (q, .leaf v) := htp _
        rw [he]
        exact hp.leaf v hv
      · intro v hv
        exact (htp (.leaf v)).trans (hp.bare v hv)
      · intro v hv
        exact (hp.write v hv).other (hslot _ nofun) (hcp _)
    · have hc := h.slot q
      refine h.slotOk_set SPos.plain_ucode ⟨?_, ?_⟩ ?_ fun _ _ _ => rfl
      · intro x hx
        refine (hc.own x hx).other (hnone x) ?_
        intro he
        obtain rfl : x = .ucode := congrArg Prod.snd he
        exact hx
      · intro x y j hx hy
        rcases update_some_some hx with hx₀ | ⟨hxc, rfl⟩
        · rcases update_some_some hy with hy₀ | ⟨_, rfl⟩
          · exact hc.inslot x y j hx₀ hy₀
          · exact absurd hx₀ (hnone x)
        · rcases update_some_some hy with hy₀ | ⟨hyc, _⟩
          · exact absurd hy₀ (hnone y)
          · exact congrArg Prod.snd (hxc.trans hyc.symm)
      · intro v hv
        exact hv.other (hnone _) fun he => nomatch congrArg Prod.snd he

end Vm

/-- The pages of a heap. -/
def UProc.Heap (q : UProc) (u : Nat) : Prop := 16 ≤ u ∧ u * PGSIZE < q.heapTop

/-- A child on its way: what has changed since its parent called `proc_fork`. -/
structure Forking (p c : Slot) (s : Phys) (g : Ghost) (us uc : Nat) (s' : Phys) (g' : Ghost) :
    Prop where
  st : SlotStep (Pair p c) s g s' g'
  parent : ∀ x, g'.tgt (p, x) = g.tgt (p, x)
  ustack : g'.tgt (c, .ustack) = some us
  ucode : g'.tgt (c, .ucode) = some uc
  plain : ∀ x, x.Plain → x ≠ .ustack → x ≠ .ucode → g'.tgt (c, x) = none
  lost : g'.lost = g.lost
  mem : ∀ j, j ∉ g.fl → (∀ y, g.tgt (nd p y) ≠ some j) → s'.mem j = s.mem j
  free : ∀ j ∈ g'.fl, j ∈ g.fl
  node : ∀ y j, g'.tgt (nd c y) = some j → j ∈ g.fl
  fresh : us ∈ g.fl
  taken : ∀ t ∈ s'.taken, t ∈ s.taken ∨ t < 0xC000
  copy : ∀ n, g.tgt (p, .ustack) = some n → s'.mem us = s.mem n

namespace VmInv
variable {L : Layout} {k k' : Kern} {g : Ghost} {p c : Slot}

/-- A free slot has no pages. -/
theorem unused_none (h : VmInv L k g) (hc : (k.proc c).state = .unused) (x : SPos) :
    g.tgt (c, x) = none := by
  have hl := h.linked c
  obtain ⟨hpt, huc, hus, hks⟩ := hl.unused hc
  obtain ⟨hnode, _, hleaf⟩ := h.no_table hpt
  have hidle : (k.proc c).cow = .idle := by
    by_contra hne
    have hrun := hl.busy hne
    rw [hc] at hrun
    cases hrun
  have hcow := hl.cow
  rw [hidle] at hcow
  cases x with
  | node y => exact hnode y
  | leaf v => exact hleaf v
  | ucode => rw [hl.ucode, huc, ptr_zero]
  | ustack => rw [hl.ustack, hus, ptr_zero]
  | kstack => rw [hl.kstack, hks, ptr_zero]
  | fresh => exact hcow.1
  | old => exact hcow.2

/-- The stack of the child, and the code page. -/
theorem forkPages (h : VmInv L k g) (hpc : p ≠ c) (hrun : (k.proc p).state = .runnable)
    (hc : (k.proc c).state = .unused) (hz : k.phys.kalloc.1 ≠ 0) :
    let us := k.phys.kalloc.1
    let s' := (k.phys.kalloc.2.setMem (k.phys.kalloc.2.mem.setPage us
      (k.phys.kalloc.2.mem (k.proc p).ustack))).krefInc (k.proc p).ucode
    ∃ g', Vm L.kend s' g' ∧ Forking p c k.phys g us (k.proc p).ucode s' g' ∧ g'.lf = g.lf ∧
      (∀ y, g'.tgt (nd c y) = none) ∧ (∀ v, g'.tgt (c, .leaf v) = none) ∧
      s'.failed = k.phys.failed ∧ g.fl.length = g'.fl.length + 1 := by
  intro us s'
  have hnone := h.unused_none hc
  obtain ⟨fl₁, hfl, h₁, st₁⟩ := h.vm.kallocAt SPos.plain_ustack (hnone .ustack) hz
  have hus₁ : ((g.set (c, .ustack) (some us)).setFl fl₁).tgt (c, .ustack) = some us :=
    Function.update_self ..
  have hmem := k.phys.kalloc_mem
  obtain ⟨h₂, st₂⟩ := h₁.setData hus₁ nofun ((h₁.slot c).own .ustack trivial)
    (m := k.phys.kalloc.2.mem.setPage us (k.phys.kalloc.2.mem (k.proc p).ustack))
    fun j hj => Mem.setPage_of_ne _ _ hj
  have htp (x : SPos) : ((g.set (c, .ustack) (some us)).setFl fl₁).tgt (p, x) = g.tgt (p, x) :=
    Function.update_of_ne (fun he => hpc (congrArg Prod.fst he)) _ _
  have hucode : g.tgt (p, .ucode) = some (k.proc p).ucode :=
    (h.linked p).ucode.trans (ptr_of_ne ((h.linked p).running hrun).1)
  have hfree := h.vm.alloc.kalloc_free hz
  have hne : us ≠ (k.proc p).ucode := by
    intro he
    exact h.vm.alloc.bal.not_free hucode (he ▸ hfree)
  have hout (x : SPos) (hx : x ≠ .ustack) :
      ((g.set (c, .ustack) (some us)).setFl fl₁).tgt (c, x) = none :=
    (Ghost.set_of_ne g _ hx).trans (hnone x)
  obtain ⟨h₃, st₃⟩ := h₂.shareCode hpc ((htp _).trans hucode) (by
    intro x hx
    by_cases hxu : x = .ustack
    · rw [hxu, hus₁] at hx
      exact hne (Option.some.inj hx)
    · rw [hout x hxu] at hx
      cases hx) (hout .ucode nofun)
  have hst₁ := (st₁.trans st₂).mono (T := Pair p c) fun q hq => .inr hq
  have hoff (x : SPos) (hx : x ≠ .ustack) (hx' : x ≠ .ucode) :
      (((g.set (c, .ustack) (some us)).setFl fl₁).set (c, .ucode)
        (some (k.proc p).ucode)).tgt (c, x) = none :=
    (Ghost.set_of_ne _ _ hx').trans (hout x hx)
  refine ⟨_, h₃, ⟨hst₁.trans st₃, fun x => ?_, ?_, Ghost.set_self .., fun x _ hx hx' => hoff x hx hx',
    rfl, fun j hj _ => ?_, fun j hj => ?_, fun y j hy => ?_, hfree, fun t ht => ?_, fun n hn => ?_⟩,
    rfl, fun y => hoff _ nofun nofun, fun v => hoff _ nofun nofun, k.phys.kalloc_failed hz, ?_⟩
  · exact (Function.update_of_ne (fun he => hpc (congrArg Prod.fst he)) _ _).trans (htp x)
  · exact (Ghost.set_of_ne (x := .ucode) (y := .ustack) _ _ nofun).trans hus₁
  · have hju : j ≠ us := fun he => hj (he ▸ hfree)
    exact (Mem.setPage_of_ne _ _ hju).trans (congrFun hmem j)
  · rw [hfl]
    exact List.mem_cons_of_mem _ hj
  · rw [nd, hoff (.node y) nofun nofun] at hy
    cases hy
  · left
    rw [← k.phys.kalloc_taken]
    exact ht
  · have hst := (h.linked p).ustack.symm.trans hn
    rw [ptr_of_ne ((h.linked p).running hrun).2.1] at hst
    cases hst
    exact (Mem.setPage_self ..).trans (congrFun hmem _)
  · rw [hfl]
    rfl

end VmInv

/-- The page table that `proc_pagetable` has built for the child. -/
structure ChildTable (L : Layout) (c : Slot) (s : Phys) (g : Ghost) (uc us pt : Nat) (s' : Phys)
    (g' : Ghost) : Prop where
  leaf : ∀ v, g'.tgt (c, .leaf v) = none
  root : g'.tgt (nd c .root) = ptr pt
  new : pt ≠ 0 → NewTable L uc us (g'.lf c)
  old : pt = 0 → g'.lf c = g.lf c ∧ g'.fl = [] ∧ (∀ y, g'.tgt (nd c y) = none) ∧ s'.failed = true ∧
    g.fl = []
  count : ∀ N, (∀ u, UserPages L u → PathIn N u) →
    g.fl.length + missing (nd c) N g'.tgt ≤ g'.fl.length + (1 + N.card)
  all : s'.failed = s.failed ∧ pt ≠ 0 ∧ g'.lf c = userPte L uc us ∨
    s'.failed = true ∧ ∀ N, (∀ u, UserPages L u → PathIn N u) → g.fl.length ≤ N.card

namespace Forking
variable {L : Layout} {s s₁ s₂ s₃ : Phys} {g g₁ g₂ : Ghost} {p c : Slot}

/-- The stack of the child is not a node of a page table. -/
theorem stack_not_node (hf : Forking p c s g us uc s₁ g₁) (h₁ : Vm kend s₁ g₁) (q : Slot)
    (y : Node) : g₁.tgt (nd q y) ≠ some us := by
  intro hy
  have he := (h₁.slot c).own .ustack trivial us (nd q y) hf.ustack hy
  cases congrArg Prod.snd he

/-- The page table of the child. -/
theorem table (hf : Forking p c s g us uc s₁ g₁) (h₁ : Vm L.kend s₁ g₁) (hpc : p ≠ c)
    (hnode : ∀ y, g₁.tgt (nd c y) = none) (hleaf : ∀ v, g₁.tgt (c, .leaf v) = none)
    (hs : s₁.procPagetable L uc us = some (pt, s₂)) :
    ∃ g₂, Vm L.kend s₂ g₂ ∧ Forking p c s g us uc s₂ g₂ ∧ g₂.lf p = g₁.lf p ∧
      ChildTable L c s₁ g₁ uc us pt s₂ g₂ := by
  have huc := (h₁.alloc.bal.target _ uc hf.ucode).2
  have hus := (h₁.alloc.bal.target _ us hf.ustack).2
  rcases (h₁.emptyTab hnode).procPagetable L hnode huc hus with ⟨he, hz, hnil⟩ | ⟨he, _⟩ |
    ⟨s', tgt', fl', lf', he, hne, hg, ht, hn, hr, hcount, hres⟩
  · rw [he] at hs
    cases hs
    have ha := h₁.alloc
    have he : s₁.kalloc.2 = { s₁ with failed := true } := by
      rw [Phys.kalloc_zero hz]
    rw [he]
    refine ⟨g₁, ⟨⟨ha.kernel, ha.bal, ha.chain, ha.cnt⟩, h₁.lost, h₁.slot⟩, ?_, rfl, hleaf,
      hnode .root, fun hne => absurd rfl hne, fun _ => ⟨rfl, hnil, hnode, rfl, hnil⟩, fun N _ => ?_,
      .inr ⟨rfl, fun N _ => ?_⟩⟩
    · have hst := hf.st
      exact ⟨⟨hst.tgt, hst.lf, hst.own, hst.mem, fun _ => rfl⟩, hf.parent, hf.ustack, hf.ucode,
        hf.plain, hf.lost, hf.mem, hf.free, hf.node, hf.fresh, hf.taken, hf.copy⟩
    · have hle := missing_le (nd c) N g₁.tgt
      omega
    · rw [hnil]
      exact Nat.zero_le _
  · rw [he] at hs
    cases hs
  · rw [he] at hs
    cases hs
    have hoff (x : SPos) (hx : ∀ y, x ≠ .node y) : tgt' (c, x) = g₁.tgt (c, x) := hg.off _ (ne_nd hx)
    have hvm := h₁.grown hg ht
      (fun v hv => .inl ⟨hn.heap v hv v.isLt, hleaf v⟩) fun v _ => sole_of_none (hleaf v)
    have hst := (h₁.slotStep_grown hg lf').mono (T := Pair p c) fun q hq => .inr hq
    have hlf : Function.update g₁.lf c lf' c = lf' := Function.update_self ..
    refine ⟨_, hvm, ⟨hf.st.trans hst, fun x => ?_, ?_, ?_, fun x hx h1 h2 => ?_, hf.lost,
      fun j hj hnp => ?_, fun j hj => hf.free j (hg.sub hj), fun y j hy => ?_, hf.fresh, ?_,
      fun n hn => ?_⟩, Function.update_of_ne hpc _ _, fun v => ?_, ?_, fun _ => ?_,
      fun hz => absurd hz hne, hcount, ?_⟩
    · exact (hg.off_slot hpc x).trans (hf.parent x)
    · exact (hoff .ustack fun _ => SPos.noConfusion).trans hf.ustack
    · exact (hoff .ucode fun _ => SPos.noConfusion).trans hf.ucode
    · exact (hoff x hx.1).trans (hf.plain x hx h1 h2)
    · refine (hg.mem j (fun hin => hj (hf.free j hin)) fun y hy => ?_).trans (hf.mem j hj hnp)
      rw [hnode] at hy
      cases hy
    · rcases hg.new _ j hy with hy | hy
      · rw [hnode] at hy
        cases hy
      · exact hf.free j hy
    · intro t htk
      rw [hg.taken] at htk
      exact hf.taken t htk
    · have hkeep := hg.mem us (h₁.alloc.bal.not_free hf.ustack) (hf.stack_not_node h₁ c)
      exact hkeep.trans (hf.copy n hn)
    · exact (hoff (.leaf v) fun _ => SPos.noConfusion).trans (hleaf v)
    · exact hr.trans (ptr_of_ne hne).symm
    · rw [← hlf] at hn
      exact hn
    · rcases hres with ⟨hfd, hl⟩ | hres
      · exact .inl ⟨hfd, hne, hlf.trans hl⟩
      · exact .inr hres

/-- There is nothing to share with, and nothing is shared unless the parent has no heap page. -/
theorem noTable (h₂ : Vm L.kend s₂ g₂) (hct : ChildTable L c s₁ g₁ uc us 0 s₂ g₂)
    (hR : ∀ u, R u → 16 ≤ u ∧ u < 0xC000) : Shared p c R s₂ g₂ s₂ g₂ := by
  obtain ⟨_, hnil, hnode, hfail, _⟩ := hct.old rfl
  by_cases hex : ∃ u, g₂.Has p R u
  · obtain ⟨u, hu⟩ := hex
    have hsc : Scarce (nd c) (g₂.Has p R) g₂.tgt g₂.fl := by
      rw [hnil]
      exact .of_nil hu (hnode _)
    exact Shared.fail (R := fun _ => False) (.refl s₂ g₂ fun u hu => hu.elim) hfail hsc
      fun u hu => hu.elim
  · refine .refl s₂ g₂ fun u hu => ?_
    have hz : g₂.lf p u = 0 := by
      by_contra hne
      exact hex ⟨u, hu, hne⟩
    obtain ⟨hlo, hhi⟩ := hR u hu
    have hp : g₂.tgt (p, .leaf u) = none := by
      rcases (h₂.slot p).leaf u hlo with ⟨_, hn⟩ | ⟨n, f, _, hlf, hf⟩
      · exact hn
      · rw [hz, mkPte] at hlf
        omega
    have hc : g₂.lf c u = 0 := by
      rcases (h₂.slot c).leaf u hlo with ⟨hz, _⟩ | ⟨n, f, hn, _⟩
      · exact hz
      · rw [hct.leaf] at hn
        cases hn
    rw [hct.leaf, hp, hc, hz]
    exact ⟨rfl, rfl, rfl⟩

/-- The heap that is shared with the child. -/
theorem share (hf : Forking p c s g us uc s₂ g₂) (h₂ : Vm L.kend s₂ g₂) (hpc : p ≠ c)
    (huc : g.tgt (p, .ucode) = some uc) (hct : ChildTable L c s₁ g₁ uc us pt s₂ g₂)
    (hrp : g₂.tgt (nd p .root) = some q.pagetable) (htop : q.heapTop ≤ PLIC)
    (hs : Kern.shareHeap s₂ q pt = some s₃) :
    ∃ g₃, Vm L.kend s₃ g₃ ∧ Forking p c s g us uc s₃ g₃ ∧ Inherits g₃ p c ∧
      g₃.tgt (nd c .root) = ptr pt ∧ Shared p c q.Heap s₂ g₂ s₃ g₃ := by
  have hrc := hct.root
  have hi : Inherits g₂ p c := by
    refine ⟨fun u n hu => ?_, fun n hn => ?_,
      hf.plain .old SPos.plain_old SPos.noConfusion SPos.noConfusion⟩
    · rw [hct.leaf] at hu
      cases hu
    · rw [hf.ucode] at hn
      rw [hf.parent, huc, hn]
  rw [Kern.shareHeap] at hs
  by_cases hpt : pt = 0
  · have hs₃ : s₃ = s₂ := by
      simp only [hpt, ne_eq, not_true_eq_false, if_false] at hs
      split at hs
      · cases hs
      · exact (Option.some.inj hs).symm
    rw [hs₃]
    rw [hpt] at hct
    refine ⟨g₂, h₂, hf, hi, hrc, noTable h₂ hct fun u hu => ⟨hu.1, ?_⟩⟩
    have hlt := hu.2
    simp only [PGSIZE, PLIC] at hlt htop
    omega
  · rw [ptr_of_ne hpt] at hrc
    simp only [hpt, ne_eq, not_false_eq_true, if_true, Option.some.injEq] at hs
    have hin : 16 + Phys.pages HEAPBASE q.heapTop ≤ 0xC000 := by
      simp only [Phys.pages, HEAPBASE, PGSIZE, PLIC] at htop ⊢
      omega
    obtain ⟨g₃, h₃, st₃, sh₃, in₃⟩ := h₂.shareLoop hpc hi hrp hrc (Nat.le_refl 16) hin
      fun u _ => hct.leaf u
    have he : Phys.shareLoop q.pagetable pt (Phys.pages HEAPBASE q.heapTop) s₂ (16 * PGSIZE) = s₃ :=
      hs
    rw [he] at h₃ st₃ sh₃
    have sh₃' := sh₃.congr (T := q.Heap) fun u => by
      simp only [Phys.pages, HEAPBASE, PGSIZE, UProc.Heap]
      omega
    refine ⟨g₃, h₃, ⟨hf.st.trans st₃, fun x => ?_, ?_, ?_, fun x hx h1 h2 => ?_, ?_, fun j hj hp => ?_,
      fun j hj => hf.free j (sh₃.free j hj), fun y j hy => ?_, hf.fresh, fun t ht => ?_,
      fun n hn => ?_⟩, in₃, ?_, sh₃'⟩
    · exact (sh₃.parent x).trans (hf.parent x)
    · exact (sh₃.plain _ SPos.plain_ustack).trans hf.ustack
    · exact (sh₃.plain _ SPos.plain_ucode).trans hf.ucode
    · exact (sh₃.plain x hx).trans (hf.plain x hx h1 h2)
    · exact sh₃.lost.trans hf.lost
    · refine (sh₃.mem j (fun hin => hj (hf.free j hin)) (fun y hy => ?_) fun y hy => ?_).trans
        (hf.mem j hj hp)
      · exact hp y ((hf.parent _).symm.trans hy)
      · exact hj (hf.node y j hy)
    · rcases sh₃.grown y j hy with hy | hy
      · exact hf.node y j hy
      · exact hf.free j hy
    · rcases sh₃.taken t ht with ht | hlt
      · exact hf.taken t ht
      · exact .inr hlt
    · have hkeep := sh₃.mem us (h₂.alloc.bal.not_free hf.ustack) (hf.stack_not_node h₂ p)
        (hf.stack_not_node h₂ c)
      exact hkeep.trans (hf.copy n hn)
    · rw [ptr_of_ne hpt]
      exact sh₃.node _ _ hrc

end Forking

/-- A word that lies inside a page. -/
theorem pokeWord_other (m : Mem) (h : off + 8 ≤ PGSIZE) (hn : n < PHYSTOP) (hk : k ≠ n) :
    m.pokeWord (n * PGSIZE + off) v k = m k := by
  have hstep (m : Mem) (i : Nat) (hi : i < 8) :
      m.poke (wrap64 (n * PGSIZE + off + i)) (leByte v i) k = m k := by
    rw [Nat.add_assoc, wrap64_page (by omega) hn]
    apply poke_of_ne
    rwa [page_div n (by omega)]
  rw [Mem.pokeWord]
  refine foldl_range (P := fun _ (m' : Mem) => m' k = m k) rfl fun i m' hi hm => ?_
  exact (hstep m' i hi).trans hm

/-- The bytes of a word that lies inside a page. -/
theorem pokeWord_page (m : Mem) (h : off + 8 ≤ PGSIZE) (hn : n < PHYSTOP) (i : Nat) :
    m.pokeWord (n * PGSIZE + off) v n i =
      if off ≤ i ∧ i < off + 8 then leByte v (i - off) else m n i := by
  rw [Mem.pokeWord]
  refine foldl_range (P := fun j (m' : Mem) => m' n i =
    if off ≤ i ∧ i < off + j then leByte v (i - off) else m n i) ?_ fun j m' hj hm => ?_
  · rw [if_neg (by omega)]
  · have hd : (n * PGSIZE + (off + j)) / PGSIZE = n := page_div n (by omega)
    have hr : (n * PGSIZE + (off + j)) % PGSIZE = off + j := page_mod n (by omega)
    rw [Nat.add_assoc, wrap64_page (by omega) hn, Mem.poke, hd, hr, Mem.setPage_self]
    by_cases hi : i = off + j
    · rw [hi, Function.update_self, if_pos (by omega), Nat.add_sub_cancel_left]
    · rw [Function.update_of_ne hi, hm]
      split
      · rw [if_pos (by omega)]
      · rw [if_neg (by omega)]

/-- The trap frame lies inside the stack page. -/
def FrameOk (f : Nat) : Prop := USERSTACK ≤ f ∧ f + 248 ≤ USERSTACKTOP

theorem frame_addr (hf : FrameOk f) (hn : n < PHYSTOP) (hd : d ≤ 240) :
    wrap64 (n * PGSIZE + 2 ^ 64 + f - USERSTACK + d) = n * PGSIZE + (f - USERSTACK + d) := by
  obtain ⟨hlo, hhi⟩ := hf
  have htop : USERSTACKTOP = 0x5000 := rfl
  have hbot : USERSTACK = 0x4000 := rfl
  rw [htop] at hhi
  rw [hbot] at hlo ⊢
  have hsub : n * PGSIZE + 2 ^ 64 + f - 0x4000 + d =
      n * PGSIZE + (f - 0x4000 + d) + 2 ^ 64 := by omega
  have hlt : n * PGSIZE + (f - 0x4000 + d) < 2 ^ 64 := by
    simp only [PGSIZE, PHYSTOP] at hn ⊢
    omega
  rw [hsub, wrap64, Nat.add_mod_right, Nat.mod_eq_of_lt hlt]

/-- What `proc_fork` writes into the child's trap frame. -/
def pokeFrame (m : Mem) (us f sepc : Nat) : Mem :=
  let cf := us * PGSIZE + 2 ^ 64 + f - USERSTACK
  (m.pokeWord (wrap64 (cf + 64)) 0).pokeWord (wrap64 (cf + 240)) (wrap64 (sepc + 4))

theorem frame_off (hf : FrameOk f) (hd : d ≤ 240) : f - USERSTACK + d + 8 ≤ PGSIZE := by
  obtain ⟨hlo, hhi⟩ := hf
  have htop : USERSTACKTOP = 0x5000 := rfl
  have hbot : USERSTACK = 0x4000 := rfl
  have hpg : PGSIZE = 4096 := rfl
  omega

/-- The stack page after the two words of the frame are written. -/
theorem pokeFrame_page (m : Mem) (hf : FrameOk f) (hn : n < PHYSTOP) (i : Nat) :
    pokeFrame m n f sepc n i =
      if f - USERSTACK + 240 ≤ i ∧ i < f - USERSTACK + 248 then
        leByte (wrap64 (sepc + 4)) (i - (f - USERSTACK + 240))
      else if f - USERSTACK + 64 ≤ i ∧ i < f - USERSTACK + 72 then 0
      else m n i := by
  rw [pokeFrame, frame_addr hf hn (by decide), frame_addr hf hn (by decide),
    pokeWord_page _ (frame_off hf (by decide)) hn, pokeWord_page _ (frame_off hf (by decide)) hn]
  have hz (j : Nat) : leByte 0 j = 0 := by
    rw [leByte, Nat.zero_div]
    rfl
  rw [hz]

theorem pokeFrame_other (m : Mem) (hf : FrameOk f) (hn : n < PHYSTOP) (hk : k ≠ n) :
    pokeFrame m n f sepc k = m k := by
  rw [pokeFrame, frame_addr hf hn (by decide), frame_addr hf hn (by decide),
    pokeWord_other _ (frame_off hf (by decide)) hn hk,
    pokeWord_other _ (frame_off hf (by decide)) hn hk]

namespace Kern
variable {L : Layout} {k k' : Kern} {p c : Slot}

/-- The record of the child. -/
def childProc (k : Kern) (p c : Slot) (pt us f : Nat) : UProc :=
  { k.proc c with
    state := .runnable, pid := k.nextPid, parent := some p
    pagetable := pt, ucode := (k.proc p).ucode, ustack := us, kstack := 0
    heapTop := (k.proc p).heapTop, mmapBase := 0, tfVa := f, cow := .idle }

/-- The end of `proc_fork`, from memory `s` on, where the child has its pages. -/
def forkDone (k : Kern) (p c : Slot) (pt us : Nat) (s : Phys) (f sepc : Nat) : Kern :=
  { (k.setPhys (s.setMem (pokeFrame s.mem us f sepc))).setProc c (k.childProc p c pt us f) with
    nextPid := k.nextPid + 1 }

/-- The stages of `proc_fork` when it has a slot. -/
theorem procFork_some (hc : k.freeSlot = some c) (hs : k.procFork L p f sepc = some k') :
    k.phys.kalloc.1 ≠ 0 ∧ ∃ pt s₂ s₃,
      ((k.phys.kalloc.2.setMem (k.phys.kalloc.2.mem.setPage k.phys.kalloc.1
        (k.phys.kalloc.2.mem (k.proc p).ustack))).krefInc (k.proc p).ucode).procPagetable L
          (k.proc p).ucode k.phys.kalloc.1 = some (pt, s₂) ∧
      shareHeap s₂ (k.proc p) pt = some s₃ ∧
      k' = k.forkDone p c pt k.phys.kalloc.1 s₃ f sepc := by
  rw [procFork, hc] at hs
  dsimp only at hs
  generalize k.phys.kalloc = a at hs ⊢
  obtain ⟨us, s⟩ := a
  dsimp only at hs ⊢
  split at hs
  · cases hs
  · rename_i hz
    simp only [Option.bind_eq_bind, Option.bind_eq_some_iff] at hs
    obtain ⟨⟨pt, s₂⟩, hpt, s₃, hsh, he⟩ := hs
    exact ⟨hz, pt, s₂, s₃, hpt, hsh, (Option.some.inj he).symm⟩

/-- The other way round: with all stages done, `proc_fork` has its child. -/
theorem procFork_eq (f sepc : Nat) (hc : k.freeSlot = some c) (hz : k.phys.kalloc.1 ≠ 0)
    (htab : ((k.phys.kalloc.2.setMem (k.phys.kalloc.2.mem.setPage k.phys.kalloc.1
      (k.phys.kalloc.2.mem (k.proc p).ustack))).krefInc (k.proc p).ucode).procPagetable L
        (k.proc p).ucode k.phys.kalloc.1 = some (pt, s₂))
    (hsh : shareHeap s₂ (k.proc p) pt = some s₃) :
    ∃ k', k.procFork L p f sepc = some k' := by
  rw [procFork, hc]
  dsimp only
  rw [if_neg hz, htab]
  simp only [Option.bind_eq_bind, Option.bind_some, hsh]
  exact ⟨_, rfl⟩

theorem freeSlot_some (hq : (k.proc q).state = .unused) : ∃ c, k.freeSlot = some c := by
  rw [← Option.isSome_iff_exists, freeSlot, List.find?_isSome]
  exact ⟨q, List.mem_finRange q, decide_eq_true hq⟩

theorem freeSlot_unused (hc : k.freeSlot = some c) : (k.proc c).state = .unused := by
  have h := List.find?_some hc
  exact of_decide_eq_true h

/-- A process that runs has another slot than its child. -/
theorem freeSlot_ne {k : Kern} (hc : k.freeSlot = some c) (hrun : (k.proc p).state = .runnable) :
    p ≠ c := by
  rintro rfl
  exact runnable_ne_unused hrun (freeSlot_unused hc)

end Kern

/-- The child has all its mappings. -/
structure Whole (L : Layout) (k : Kern) (g : Ghost) (p c : Slot) (pt : Nat) (s : Phys)
    (e : Ghost) : Prop where
  failed : s.failed = k.phys.failed
  root : pt ≠ 0
  table : ∀ u, ¬ (k.proc p).Heap u → e.lf c u = userPte L (k.proc p).ucode k.phys.kalloc.1 u
  heap : ∀ u : UPage, (k.proc p).Heap u → e.tgt (c, .leaf u) = g.tgt (p, .leaf u) ∧
    e.lf c u = e.lf p u ∧ e.lf p u &&& PTE_W = 0

/-- Parent and child in memory, up to the child's trap frame. -/
structure Spawned (L : Layout) (k : Kern) (g : Ghost) (p c : Slot) (pt : Nat) (s : Phys)
    (e : Ghost) : Prop where
  vm : Vm L.kend s e
  fork : Forking p c k.phys g k.phys.kalloc.1 (k.proc p).ucode s e
  inherits : Inherits e p c
  root : e.tgt (nd c .root) = ptr pt
  plf : ∀ u, e.lf p u = g.lf p u ∨
    (k.proc p).Heap u ∧ ∃ n, g.lf p u = mkPte n 23 ∧ e.lf p u = mkPte n 275
  leaf : ∀ u : UPage, ¬ (k.proc p).Heap u → e.tgt (c, .leaf u) = none
  noRoot : pt = 0 → k.phys.freecnt = 1
  kern : pt ≠ 0 → ∀ v, 0xC000 ≤ v → e.lf c v = kernPte L v
  code : ∀ v, v < 16 → e.lf c v = 0 ∨ v = 1 ∧ e.lf c v = mkPte (k.proc p).ucode 27 ∨
    v = 4 ∧ e.lf c v = mkPte k.phys.kalloc.1 23
  user : (pt ≠ 0 ∧ ∀ u, ¬ (k.proc p).Heap u →
      e.lf c u = userPte L (k.proc p).ucode k.phys.kalloc.1 u) ∨
    ∀ N, (∀ u, UserPages L u → PathIn N u) → g.fl.length < 2 + N.card
  count : ∀ N, (∀ u, UserPages L u ∨ g.Has p (k.proc p).Heap u → PathIn N u) →
    g.fl.length ≤ e.fl.length + (2 + N.card)
  all : Whole L k g p c pt s e ∨
    s.failed = true ∧ ∀ N, (∀ u, UserPages L u ∨ g.Has p (k.proc p).Heap u → PathIn N u) →
      g.fl.length < 2 + N.card

/-- Parent and child after `proc_fork`. -/
structure Forked (k : Kern) (g : Ghost) (p c : Slot) (k' : Kern) (g' : Ghost) : Prop where
  proc : ∃ pt us f, k'.proc = Function.update k.proc c
    (k.childProc p c pt us f)
  root : k.phys.freecnt ≠ 1 → (k'.proc c).pagetable ≠ 0
  table : k'.phys.failed = false → (k'.proc c).pagetable ≠ 0
  tgt : ∀ x, g'.tgt (p, x) = g.tgt (p, x)
  mem : ∀ (u : UPage) n, g.tgt (p, .leaf u) = some n → k'.phys.mem n = k.phys.mem n
  lf : ∀ u, g'.lf p u = g.lf p u ∨
    (k.proc p).Heap u ∧ ∃ n, g.lf p u = mkPte n 23 ∧ g'.lf p u = mkPte n 275
  heap : k'.phys.failed = false → ∀ u : UPage, (k.proc p).Heap u →
    g'.tgt (c, .leaf u) = g.tgt (p, .leaf u)
  child : ∀ u n, g'.tgt (c, .leaf u) = some n → g.tgt (p, .leaf u) = some n
  none : ∀ u : UPage, ¬ (k.proc p).Heap u → g'.tgt (c, .leaf u) = none
  lost : g'.lost = g.lost

namespace VmInv
variable {L : Layout} {k k' : Kern} {g : Ghost} {p c : Slot}

/-- The heap of a process is in its own part of the address space. -/
theorem heap_bounds (h : VmInv L k g) (hrun : (k.proc p).state = .runnable)
    (hv : (k.proc p).Heap v) : 16 ≤ v ∧ v < 0xC000 := by
  have htop := ((h.linked p).running hrun).2.2.2
  simp only [UProc.Heap, PGSIZE, PLIC] at hv htop
  omega

/-- The stages of `proc_fork` up to the child's trap frame. -/
theorem spawn (h : VmInv L k g) (hrun : (k.proc p).state = .runnable)
    (hpt : (k.proc p).pagetable ≠ 0) (hc : k.freeSlot = some c) (hz : k.phys.kalloc.1 ≠ 0)
    (htab : ((k.phys.kalloc.2.setMem (k.phys.kalloc.2.mem.setPage k.phys.kalloc.1
      (k.phys.kalloc.2.mem (k.proc p).ustack))).krefInc (k.proc p).ucode).procPagetable L
        (k.proc p).ucode k.phys.kalloc.1 = some (pt, s₂))
    (hsh : Kern.shareHeap s₂ (k.proc p) pt = some s₃) :
    p ≠ c ∧ ∃ g₃, Spawned L k g p c pt s₃ g₃ := by
  have hun := Kern.freeSlot_unused hc
  have hpc := Kern.freeSlot_ne hc hrun
  have hl := h.linked p
  have hlive := hl.running hrun
  have hucode : g.tgt (p, .ucode) = some (k.proc p).ucode := hl.ucode.trans (ptr_of_ne hlive.1)
  obtain ⟨g₁, h₁, f₁, hlf₁, hnode₁, hleaf₁, hfd₁, hlen⟩ := h.forkPages hpc hrun hun hz
  obtain ⟨g₂, h₂, f₂, hlfp₂, hct⟩ := f₁.table h₁ hpc hnode₁ hleaf₁ htab
  have hrp : g₂.tgt (nd p .root) = some (k.proc p).pagetable := (f₂.parent _).trans (h.root hpt)
  obtain ⟨g₃, h₃, f₃, in₃, hr₃, sh₃⟩ := f₂.share h₂ hpc hucode hct hrp hlive.2.2.2 hsh
  have hlfp : g₂.lf p = g.lf p := by rw [hlfp₂, hlf₁]
  have hout (v : Nat) (hv : v < 16 ∨ 0xC000 ≤ v) : g₃.lf c v = g₂.lf c v := by
    apply sh₃.clf
    intro hin
    have hb := h.heap_bounds hrun hin
    omega
  refine ⟨hpc, g₃, h₃, f₃, in₃, hr₃, fun u => ?_, fun u hu => ?_, fun hzero => ?_,
    fun hne v hv => ?_, fun v hv => ?_, ?_, fun N hN => ?_, ?_⟩
  · rw [← hlfp]
    exact sh₃.plf u
  · exact (sh₃.leaf u hu).trans (hct.leaf u)
  · rw [h.vm.alloc.cnt, hlen, (hct.old hzero).2.2.2.2]
    rfl
  · rw [hout v (.inr hv)]
    exact (hct.new hne).kern v hv
  · rw [hout v (.inl hv)]
    by_cases hzero : pt = 0
    · left
      rw [(hct.old hzero).1, hlf₁]
      exact (h.no_table ((h.linked c).unused hun).1).2.1 v (by omega)
    · exact (hct.new hzero).code v hv
  · rcases hct.all with ⟨_, hne, hlf₂⟩ | ⟨_, hs⟩
    · refine .inl ⟨hne, fun u hu => ?_⟩
      rw [sh₃.clf u hu, hlf₂]
    · refine .inr fun N hN => ?_
      have hle := hs N hN
      omega
  · have h₁₂ := hct.count N fun u hu => hN u (.inl hu)
    have h₂₃ := sh₃.count N fun u hu => hN u (.inr ⟨hu.1, hlfp ▸ hu.2⟩)
    omega
  · rcases hct.all with ⟨hfd₂, hne, hlf₂⟩ | ⟨hfd₂, hs⟩
    · rcases sh₃.all with ⟨hfd₃, hall⟩ | ⟨hfd₃, hs⟩
      · refine .inl ⟨hfd₃.trans (hfd₂.trans hfd₁), hne, fun u hu => ?_, fun u hu => ?_⟩
        · rw [sh₃.clf u hu, hlf₂]
        · obtain ⟨ht, hlf⟩ := hall u hu
          exact ⟨ht.trans (f₂.parent _), hlf⟩
      · refine .inr ⟨hfd₃, fun N hN => ?_⟩
        have hcnt := hct.count N fun u hu => hN u (.inl hu)
        have hlt := hs N fun u hu => hN u (.inr ⟨hu.1, hlfp ▸ hu.2⟩)
        omega
    · refine .inr ⟨sh₃.failed hfd₂, fun N hN => ?_⟩
      have hle := hs N fun u hu => hN u (.inl hu)
      omega

/-- The parent after the fork: its heap is shared, all else is as before. -/
theorem parentLinked (h : VmInv L k g) (hrun : (k.proc p).state = .runnable)
    (hidle : (k.proc p).cow = .idle) (hpc : p ≠ c) (sp : Spawned L k g p c pt s₃ g₃) (m : Mem) :
    Linked L m g₃ p (k.proc p) := by
  have hl := h.linked p
  have f₃ := sp.fork
  have hcow := hl.cow
  rw [hidle] at hcow
  have hlf (v : Nat) (hv : v < 16 ∨ 0xC000 ≤ v) : g₃.lf p v = g.lf p v := by
    rcases sp.plf v with he | ⟨hin, _⟩
    · exact he
    · have hb := h.heap_bounds hrun hin
      omega
  have habove (v : UPage) (hv : (k.proc p).heapTop ≤ v.val * PGSIZE) :
      Sole g₃.tgt (p, .leaf v) := by
    rintro n ⟨r, x⟩ hn hy
    have hn₀ : g.tgt (p, .leaf v) = some n := (f₃.parent _).symm.trans hn
    have hno : ¬ (k.proc p).Heap v := fun hin => Nat.not_lt.2 hv hin.2
    by_cases hr : Pair p c r
    · rcases hr with rfl | rfl
      · rw [(sp.vm.slot r).inslot x _ n hy hn]
      · exact absurd hy (sp.vm.not_inherited sp.inherits hpc hn (sp.leaf v hno) x)
    · rw [f₃.st.tgt r x hr] at hy
      exact hl.above v hv n (r, x) hn₀ hy
  have hl' := hl.change (e := g₃) (w := m) (c := .idle) (f₃.parent _) (fun x _ => f₃.parent x) hlf
    habove ⟨(f₃.parent _).trans hcow.1, (f₃.parent _).trans hcow.2⟩ fun hne => absurd rfl hne
  rw [cow_idle hidle] at hl'
  exact hl'

/-- The child of the fork, with the shared heap but without a mapped file. -/
theorem childLinked (h : VmInv L k g) (hrun : (k.proc p).state = .runnable)
    (hz : k.phys.kalloc.1 ≠ 0) (sp : Spawned L k g p c pt s₃ g₃) (f : Nat) (m : Mem) :
    Linked L m g₃ c (k.childProc p c pt k.phys.kalloc.1 f) := by
  have hlive := (h.linked p).running hrun
  have f₃ := sp.fork
  have hplain (x : SPos) (hx : x.Plain) (h1 : x ≠ .ustack) (h2 : x ≠ .ucode) :
      g₃.tgt (c, x) = none := f₃.plain x hx h1 h2
  constructor
  · exact sp.root
  · exact f₃.ucode.trans (ptr_of_ne hlive.1).symm
  · exact f₃.ustack.trans (ptr_of_ne hz).symm
  · exact hplain _ SPos.plain_kstack SPos.noConfusion SPos.noConfusion
  · intro hne v hlo _
    exact sp.kern hne v hlo
  · exact sp.code
  · intro v hv
    apply sole_of_none
    exact sp.leaf v fun hin => Nat.not_lt.2 hv hin.2
  · exact ⟨hplain _ SPos.plain_fresh SPos.noConfusion SPos.noConfusion,
      hplain _ SPos.plain_old SPos.noConfusion SPos.noConfusion⟩
  · intro _
    exact ⟨hlive.1, hz, hlive.2.2.1, hlive.2.2.2⟩
  · exact .inl rfl
  · intro hne
    exact absurd rfl hne
  · intro hne
    cases hne

/-- The trap frame is all that is left to write. -/
theorem forked (h : VmInv L k g) (hrun : (k.proc p).state = .runnable)
    (hidle : (k.proc p).cow = .idle) (hf : FrameOk f) (hpc : p ≠ c) (hz : k.phys.kalloc.1 ≠ 0)
    (sp : Spawned L k g p c pt s₃ g₃)
    (hk' : k' = k.forkDone p c pt k.phys.kalloc.1 s₃ f sepc) :
    VmInv L k' g₃ ∧ SlotStep (Pair p c) k.phys g k'.phys g₃ ∧ Forked k g p c k' g₃ := by
  have f₃ := sp.fork
  have husn : k.phys.kalloc.1 < PHYSTOP := h.vm.alloc.kalloc_lt hz
  obtain ⟨h₄, st₄⟩ := sp.vm.setData f₃.ustack (fun _ => SPos.noConfusion)
    ((sp.vm.slot c).own .ustack trivial) (m := pokeFrame s₃.mem k.phys.kalloc.1 f sepc)
    fun j hj => pokeFrame_other _ hf husn hj
  have hall := f₃.st.trans (st₄.mono (T := Pair p c) fun q hq => .inr hq)
  have hphys : k'.phys = s₃.setMem (pokeFrame s₃.mem k.phys.kalloc.1 f sepc) := by
    rw [hk']
    rfl
  refine ⟨?_, ?_, ?_⟩
  · refine h.step (S := Pair p c) ?_ ?_ ?_ ?_ ?_
    · rw [hphys]
      exact h₄
    · rw [hphys]
      exact hall
    · intro q hq
      rw [hk']
      exact Kern.setProc_of_ne _ _ fun he => hq (.inr he)
    · rintro q (rfl | rfl)
      · have hq : k'.proc q = k.proc q := by
          rw [hk']
          exact Kern.setProc_of_ne _ _ hpc
        rw [hq]
        exact h.parentLinked hrun hidle hpc sp _
      · have hq : k'.proc q = k.childProc p q pt k.phys.kalloc.1 f := by
          rw [hk']
          exact Kern.setProc_self ..
        rw [hq]
        exact h.childLinked hrun hz sp f _
    · intro t ht
      rw [hphys] at ht
      exact f₃.taken t ht
  · rw [hphys]
    exact hall
  · have hcpt : (k'.proc c).pagetable = pt := by
      rw [hk']
      exact congrArg UProc.pagetable (Kern.setProc_self ..)
    refine ⟨⟨pt, k.phys.kalloc.1, f, ?_⟩, fun hone => ?_, fun hfd => ?_, f₃.parent,
      fun u n hn => ?_, sp.plf, fun hfd u hu => ?_, fun u n hn => ?_, sp.leaf, f₃.lost⟩
    · rw [hk']
      rfl
    · rw [hcpt]
      exact fun hzero => hone (sp.noRoot hzero)
    · rw [hcpt]
      rcases sp.all with hw | ⟨hfail, _⟩
      · exact hw.root
      · rw [hphys] at hfd
        exact absurd (hfail.symm.trans hfd) Bool.noConfusion
    · have hnf := h.vm.alloc.bal.not_free hn
      have hne : n ≠ k.phys.kalloc.1 := fun he => hnf (he ▸ f₃.fresh)
      rw [hphys]
      exact (pokeFrame_other _ hf husn hne).trans (f₃.mem n hnf (h.vm.leaf_not_node hn))
    · rcases sp.all with hw | ⟨hfail, _⟩
      · exact (hw.heap u hu).1
      · rw [hphys] at hfd
        exact absurd (hfail.symm.trans hfd) Bool.noConfusion
    · exact (f₃.parent _).symm.trans (sp.inherits.leaf u n hn)

/-- `proc_fork` with a slot for the child. -/
theorem procFork (h : VmInv L k g) (hrun : (k.proc p).state = .runnable)
    (hpt : (k.proc p).pagetable ≠ 0) (hidle : (k.proc p).cow = .idle) (hf : FrameOk f)
    (hc : k.freeSlot = some c) (hs : k.procFork L p f sepc = some k') :
    ∃ g', p ≠ c ∧ VmInv L k' g' ∧ SlotStep (Pair p c) k.phys g k'.phys g' ∧
      Forked k g p c k' g' := by
  obtain ⟨hz, pt, s₂, s₃, htab, hsh, hk'⟩ := Kern.procFork_some hc hs
  obtain ⟨hpc, g₃, sp⟩ := h.spawn hrun hpt hc hz htab hsh
  exact ⟨g₃, hpc, h.forked hrun hidle hf hpc hz sp hk'⟩

end VmInv

end KernelHobby
