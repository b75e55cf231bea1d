import KernelHobby.VmFault

namespace KernelHobby
set_option autoImplicit true

/-- The pages of the heap and of the mapped file, which `vm_free_range` is called for. -/
def UProc.Ranges (q : UProc) (u : Nat) : Prop :=
  16 ≤ u ∧ u * PGSIZE < q.heapTop ∨ q.mmapBase ≠ 0 ∧ q.mmapBase ≤ u * PGSIZE ∧ u * PGSIZE < q.mend

/-- The pages of `R` of one process are no longer mapped. -/
structure Cleared (p : Slot) (R : Nat → Prop) (g g' : Ghost) : Prop where
  tgt : ∀ u : UPage, R u → g'.tgt (p, .leaf u) = none
  lf : ∀ u, R u → g'.lf p u = 0
  leaf : ∀ u : UPage, ¬ R u → g'.tgt (p, .leaf u) = g.tgt (p, .leaf u)
  entry : ∀ u, ¬ R u → g'.lf p u = g.lf p u
  other : ∀ x, (∀ u, x ≠ .leaf u) → g'.tgt (p, x) = g.tgt (p, x)
  lost : g'.lost = g.lost

theorem Cleared.trans (h : Cleared p R g g') (h' : Cleared p R' g' g'') :
    Cleared p (fun u => R u ∨ R' u) g g'' where
  tgt u hu := by
    by_cases hR' : R' u
    · exact h'.tgt u hR'
    · rw [h'.leaf u hR']
      exact h.tgt u (hu.resolve_right hR')
  lf u hu := by
    by_cases hR' : R' u
    · exact h'.lf u hR'
    · rw [h'.entry u hR']
      exact h.lf u (hu.resolve_right hR')
  leaf u hu := by
    obtain ⟨hR, hR'⟩ := not_or.1 hu
    exact (h'.leaf u hR').trans (h.leaf u hR)
  entry u hu := by
    obtain ⟨hR, hR'⟩ := not_or.1 hu
    exact (h'.entry u hR').trans (h.entry u hR)
  other x hx := (h'.other x hx).trans (h.other x hx)
  lost := h'.lost.trans h.lost

theorem Cleared.congr (h : Cleared p R g g') (hR : ∀ u, R u ↔ R' u) : Cleared p R' g g' := by
  have he : R = R' := funext fun u => propext (hR u)
  rw [← he]
  exact h

theorem Cleared.sub (h : Cleared p R g g') (hx : g'.tgt (p, x) = some n) :
    g.tgt (p, x) = some n := by
  by_cases hleaf : ∃ u, x = .leaf u
  · obtain ⟨u, rfl⟩ := hleaf
    by_cases hR : R u
    · rw [h.tgt u hR] at hx
      cases hx
    · rwa [h.leaf u hR] at hx
  · rwa [h.other x (not_exists.1 hleaf)] at hx

/-- The only reference stays so when references go. -/
theorem Sole.sub (h : Sole tgt y) (hsub : ∀ z n, tgt' z = some n → tgt z = some n) :
    Sole tgt' y :=
  fun n z hy hz => h n z (hsub y n hy) (hsub z n hz)

/-- What one process gives up is all that goes. -/
theorem Cleared.sole (h : Cleared p R g g') (st : SlotStep (· = p) s g s' g')
    (hs : Sole g.tgt y) : Sole g'.tgt y := by
  refine hs.sub fun ⟨q, x⟩ n hx => ?_
  by_cases hq : q = p
  · rw [hq] at hx ⊢
    exact h.sub hx
  · rwa [st.tgt q x hq] at hx

theorem Ghost.clear_cleared (g : Ghost) (p : Slot) (v k : Nat) (fl : List Nat) :
    Cleared p (fun u => v ≤ u ∧ u < v + k) g ((g.clear p v k).setFl fl) where
  tgt u hu := if_pos ⟨rfl, hu⟩
  lf u hu := by
    simp only [setFl, clear, Function.update_self, if_pos hu]
  leaf u hu := if_neg fun he => hu he.2
  entry u hu := by
    simp only [setFl, clear, Function.update_self, if_neg hu]
  other x hx := by
    cases x with
    | leaf u => exact absurd rfl (hx u)
    | _ => rfl
  lost := rfl

/-- The page in hand became the code page, and the old one was given back. -/
structure CodeSwapped (p : Slot) (n : Nat) (s : Phys) (g : Ghost) (s' : Phys) (g' : Ghost) :
    Prop where
  ucode : g'.tgt (p, .ucode) = some n
  fresh : g'.tgt (p, .fresh) = none
  off : ∀ x, x ≠ .ucode → x ≠ .fresh → g'.tgt (p, x) = g.tgt (p, x)
  lf : ∀ u, u ≠ 1 → g'.lf p u = g.lf p u
  code : g.lf p 1 = 0 ∧ g'.lf p 1 = 0 ∨ g'.lf p 1 = mkPte n 27
  sole : ∀ x, Sole g.tgt (p, x) → Sole g'.tgt (p, x)
  only : Sole g'.tgt (p, .ucode)
  mem : ∀ x j, x ≠ .ucode → (∀ y, x ≠ .node y) → g.tgt (p, x) = some j → s'.mem j = s.mem j
  lost : g'.lost = g.lost
  taken : s'.taken = s.taken
  failed : s'.failed = s.failed

namespace Vm
variable {s : Phys} {g : Ghost} {p : Slot} {q : UProc}

/-- `vm_free_range` over pages of the process. -/
theorem freeRange (h : Vm kend s g) (hr : g.tgt (nd p .root) = some r) (hlo : 16 ≤ v)
    (hv : start = v * PGSIZE) (hhi : stop ≤ PLIC) :
    ∃ g', Vm kend (s.vmFreeRange r start stop) g' ∧
      SlotStep (· = p) s g (s.vmFreeRange r start stop) g' ∧
      Released p s g (s.vmFreeRange r start stop) g'.fl ∧
      Cleared p (fun u => v ≤ u ∧ u * PGSIZE < stop) g g' := by
  rw [Phys.vmFreeRange, hv]
  by_cases hin : v + Phys.pages (v * PGSIZE) stop ≤ 0xC000
  · obtain ⟨fl', hvm, hst, hre⟩ := h.freeLoop hr hlo hin
    refine ⟨_, hvm, hst, hre, (g.clear_cleared p v _ fl').congr fun u => ?_⟩
    simp only [Phys.pages, PGSIZE]
    omega
  · -- nothing lies between the two
    have hz : Phys.pages (v * PGSIZE) stop = 0 := by
      simp only [Phys.pages, PGSIZE, PLIC] at hin hhi ⊢
      omega
    rw [hz, Phys.freeLoop]
    refine ⟨g, h, .refl .., .refl p s g, ?_⟩
    have hno (u : Nat) : ¬ (v ≤ u ∧ u * PGSIZE < stop) := by
      simp only [Phys.pages, PGSIZE] at hz ⊢
      omega
    exact ⟨fun u hu => absurd hu (hno u), fun u hu => absurd hu (hno u), fun _ _ => rfl,
      fun _ _ => rfl, fun _ _ => rfl, rfl⟩

/-- The heap and the mapped file are given back. -/
theorem freeRanges (h : Vm kend s g) (hr : g.tgt (nd p .root) = some q.pagetable)
    (hheap : q.heapTop ≤ PLIC) (hmmap : q.mmapBase = 0 ∨ q.mmapBase = MMAPBASE ∧ q.mend ≤ PLIC) :
    ∃ g', Vm kend (Kern.freeRanges s q) g' ∧
      SlotStep (· = p) s g (Kern.freeRanges s q) g' ∧
      Released p s g (Kern.freeRanges s q) g'.fl ∧ Cleared p q.Ranges g g' := by
  have hstart : HEAPBASE = 16 * PGSIZE := rfl
  obtain ⟨g₁, h₁, st₁, re₁, cl₁⟩ := h.freeRange hr (Nat.le_refl 16) hstart hheap
  rw [Kern.freeRanges]
  by_cases hm : q.mmapBase = 0
  · simp only [hm, ne_eq, not_true_eq_false, if_false]
    refine ⟨g₁, h₁, st₁, re₁, cl₁.congr fun u => ?_⟩
    simp [UProc.Ranges, hm]
  · obtain ⟨hbase, hend⟩ := hmmap.resolve_left hm
    have hr₁ : g₁.tgt (nd p .root) = some q.pagetable := (cl₁.other (.node .root) nofun).trans hr
    have hstart₁ : q.mmapBase = 256 * PGSIZE := hbase.trans rfl
    obtain ⟨g₂, h₂, st₂, re₂, cl₂⟩ := h₁.freeRange hr₁ (by decide) hstart₁ hend
    simp only [hm, ne_eq, not_false_eq_true, if_true]
    refine ⟨g₂, h₂, st₁.trans st₂, re₁.trans re₂ rfl fun y => cl₁.other (.node y) nofun,
      (cl₁.trans cl₂).congr fun u => ?_⟩
    have hu : 256 ≤ u ↔ q.mmapBase ≤ u * PGSIZE := by
      simp only [hbase, MMAPBASE, PGSIZE]
      omega
    simp only [UProc.Ranges, hm, hu, ne_eq, not_false_eq_true, true_and]

/-- A reference moves from one pointer to another. -/
theorem moveAt (h : Vm kend s g) {x y : SPos} (hx : x.Plain) (hy : y.Plain) (ho : x.Own)
    (hn : g.tgt (p, x) = some n) (hnone : g.tgt (p, y) = none) :
    Vm kend s ((g.set (p, x) none).set (p, y) (some n)) ∧
      SlotStep (· = p) s g s ((g.set (p, x) none).set (p, y) (some n)) := by
  have hgone := ((h.slot p).own x ho).gone hn
  have hst : SlotStep (· = p) s g s ((g.set (p, x) none).set (p, y) (some n)) := by
    constructor
    · intro q z hq
      have hne (w : SPos) : (q, z) ≠ (p, w) := fun he => hq (congrArg Prod.fst he)
      exact (Function.update_of_ne (hne _) _ _).trans (Function.update_of_ne (hne _) _ _)
    · intro q _
      rfl
    · rintro j (hj | ⟨q, z, rfl, hz⟩)
      · exact .inl hj
      · rcases update_some_some hz with hz | ⟨_, rfl⟩
        · exact .inr ⟨q, z, rfl, update_none_some hz⟩
        · exact .inr ⟨q, x, rfl, hn⟩
    · intro q z j _ _
      rfl
    · exact id
  refine ⟨h.step hst (h.alloc.move hn hnone) ?_ ?_, hst⟩
  · intro z j hz
    rcases update_some_some hz with hz | ⟨_, rfl⟩
    · exact h.lost z j (update_none_some hz)
    · exact h.lost _ j hn
  · rintro q rfl
    have hp := h.slot q
    have hrefs := (hp.refs.erase (q, x)).insert hgone (q, y)
    have hleaf (v : UPage) : Function.update (Function.update g.tgt (q, x) none) (q, y) (some n)
        (q, .leaf v) = g.tgt (q, .leaf v) := by
      rw [Function.update_of_ne fun he => hy.2 v (congrArg Prod.snd he).symm,
        Function.update_of_ne fun he => hx.2 v (congrArg Prod.snd he).symm]
    have hnode : (fun z => Function.update (Function.update g.tgt (q, x) none) (q, y) (some n)
        (nd q z)) = fun z => g.tgt (nd q z) := by
      funext z
      rw [Function.update_of_ne fun he => hy.1 z (congrArg Prod.snd he).symm,
        Function.update_of_ne fun he => hx.1 z (congrArg Prod.snd he).symm]
    constructor
    · exact hnode ▸ hp.holds
    · exact hrefs.own
    · exact hrefs.inslot
    · intro v hv
      rw [Ghost.set, Ghost.set]
      simp only
      rw [hleaf]
      exact hp.leaf v hv
    · intro v hv
      rw [Ghost.set, Ghost.set]
      simp only
      rw [hleaf]
      exact hp.bare v hv
    · intro v hv
      exact ((hp.write v hv).erase _).insert hgone _

/-- `remap_user_code` to the page in hand. -/
theorem remapUserCode (h : Vm kend s g) (hr : g.tgt (nd p .root) = some r) (hn : n < PHYSTOP) :
    ∃ lf', Vm kend (s.remapUserCode r n) (g.setLf p lf') ∧
      SlotStep (· = p) s g (s.remapUserCode r n) (g.setLf p lf') ∧
      (∀ u, u ≠ 1 → lf' u = g.lf p u) ∧ (g.lf p 1 = 0 ∧ lf' 1 = 0 ∨ lf' 1 = mkPte n 27) ∧
      (∀ j, (∀ y, g.tgt (nd p y) ≠ some j) → (s.remapUserCode r n).mem j = s.mem j) ∧
      (s.remapUserCode r n).taken = s.taken ∧ (s.remapUserCode r n).failed = s.failed := by
  have hpage : vpn USERVA = (1 : UPage).val := rfl
  have hwalk := h.walk_user hr hpage
  have hone : ((1 : UPage) : Nat) = 1 := rfl
  rw [Phys.remapUserCode, hwalk]
  cases hl : g.tgt (nd p (lowOf (1 : UPage))) with
  | none =>
    simp only [Option.map_none]
    refine ⟨g.lf p, ?_⟩
    have hz : g.lf p 1 = 0 := (h.slot p).holds.absent 1 (by decide) hl
    have hg : g.setLf p (g.lf p) = g := by
      rw [Ghost.setLf, Function.update_eq_self]
    rw [hg]
    exact ⟨h, .refl .., fun _ _ => rfl, .inl ⟨hz, hz⟩, fun _ _ => trivial, trivial, trivial⟩
  | some l =>
    have hpte : pa2pte n ||| PTE_R ||| PTE_X ||| PTE_U ||| PTE_V = mkPte n 27 := by
      rw [Nat.or_assoc, Nat.or_assoc, Nat.or_assoc]
      exact pa2pte_or n (by decide)
    simp only [Option.map_some, hpte]
    obtain ⟨hvm, hst⟩ := h.setEntry (v := (1 : UPage)) (w := mkPte n 27) hl
      (mkPte_lt hn (by decide)) (fun hle => absurd hle (by decide))
      fun _ => sole_of_none ((h.slot p).bare 1 (by decide))
    refine ⟨_, hvm, hst, fun u hu => ?_, .inr ?_, fun j hj => ?_, rfl, rfl⟩
    · exact Function.update_of_ne hu _ _
    · exact Function.update_self ..
    · apply Mem.setWord_of_ne
      rintro rfl
      exact hj _ hl

theorem swapCode (h : Vm kend s g) (hr : g.tgt (nd p .root) = some r)
    (hcode : g.tgt (p, .ucode) = some old) (hfresh : g.tgt (p, .fresh) = some n)
    (hn : n < PHYSTOP) :
    ∃ g', Vm kend ((s.remapUserCode r n).kfree old) g' ∧
      SlotStep (· = p) s g ((s.remapUserCode r n).kfree old) g' ∧
      CodeSwapped p n s g ((s.remapUserCode r n).kfree old) g' := by
  obtain ⟨lf', h₁, st₁, hlf, hone, hm₁, htk, hfd⟩ := h.remapUserCode hr hn
  obtain ⟨fl₂, h₂, st₂, fr₂⟩ := h₁.kfreeAt SPos.plain_ucode hcode
  have hoff₂ (x : SPos) (hx : x ≠ .ucode) :
      (((g.setLf p lf').set (p, .ucode) none).setFl fl₂).tgt (p, x) = g.tgt (p, x) :=
    Ghost.set_of_ne (g.setLf p lf') none hx
  have hfresh₂ := (hoff₂ .fresh SPos.noConfusion).trans hfresh
  obtain ⟨h₃, st₃⟩ := h₂.moveAt SPos.plain_fresh SPos.plain_ucode trivial hfresh₂
    (Ghost.set_self ..)
  have hgone := ((h₂.slot p).own .fresh trivial).gone hfresh₂
  refine ⟨_, h₃, (st₁.trans st₂).trans st₃, Ghost.set_self .., ?_, ?_, ?_, ?_, ?_, .new hgone _, ?_,
    rfl, ?_, ?_⟩
  · rw [Ghost.set_of_ne (x := .ucode) (y := .fresh) _ _ SPos.noConfusion, Ghost.set_self]
  · intro x hx hx'
    rw [Ghost.set_of_ne _ _ hx, Ghost.set_of_ne _ _ hx', hoff₂ x hx]
  · intro u hu
    exact (congrFun (Function.update_self ..) u).trans (hlf u hu)
  · have hself : (g.setLf p lf').lf p = lf' := Function.update_self ..
    refine hone.imp (fun hz => ⟨hz.1, ?_⟩) fun h1 => ?_
    · exact (congrFun hself 1).trans hz.2
    · exact (congrFun hself 1).trans h1
  · intro x hx
    exact ((hx.erase _).erase _).insert hgone _
  · intro x j hx hno hj
    have hj₂ := (hoff₂ x hx).trans hj
    calc ((s.remapUserCode r n).kfree old).mem j
        = (s.remapUserCode r n).mem j := fr₂.mem j (h₂.alloc.bal.not_free hj₂)
      _ = s.mem j := hm₁ j fun y hy => hno y ((h.slot p).inslot x _ j hj hy)
  · exact (Phys.kfree_taken ..).trans htk
  · exact (Phys.kfree_failed ..).trans hfd

end Vm

/-- Outside of the ranges that are freed: the pages below the heap, and the kernel's. -/
theorem Linked.not_ranges (hl : Linked L m g p q) (hlive : q.heapTop ≤ PLIC)
    (hv : v < 16 ∨ 0xC000 ≤ v) : ¬ q.Ranges v := by
  have hm := hl.mmap
  simp only [UProc.Ranges, PGSIZE, PLIC, MMAPBASE] at hlive hm ⊢
  omega

/-- The process with the new program, after its heap, its mapped file and its code page. -/
theorem Linked.execed {q : UProc} {m m' : Mem} (hl : Linked L m g p q) (hrun : q.state = .runnable)
    (hpt : q.pagetable ≠ 0) (hidle : q.cow = .idle) (hn : n ≠ 0) (cl : Cleared p q.Ranges g₀ g₁)
    (hoff : ∀ x, x ≠ .fresh → g₀.tgt (p, x) = g.tgt (p, x)) (hlf : g₀.lf = g.lf)
    (hsole : ∀ v : UPage, Sole g.tgt (p, .leaf v) → Sole g₁.tgt (p, .leaf v))
    (sw : CodeSwapped p n s₁ g₁ s₂ g₂) :
    Linked L m' g₂ p { q with heapTop := HEAPBASE, mmapBase := 0, ucode := n } := by
  have hlive := hl.running hrun
  have hkeep (x : SPos) (hu : x ≠ .ucode) (hx : x ≠ .fresh) (hno : ∀ u, x ≠ .leaf u) :
      g₂.tgt (p, x) = g.tgt (p, x) :=
    (sw.off x hu hx).trans ((cl.other x hno).trans (hoff x hx))
  have hent (v : Nat) (h1 : v ≠ 1) (hv : v < 16 ∨ 0xC000 ≤ v) : g₂.lf p v = g.lf p v := by
    rw [sw.lf v h1, cl.entry v (hl.not_ranges hlive.2.2.2 hv), hlf]
  constructor
  · rw [nd, hkeep (.node .root) SPos.noConfusion SPos.noConfusion fun _ => SPos.noConfusion]
    exact hl.root
  · rw [sw.ucode]
    exact (ptr_of_ne hn).symm
  · rw [hkeep .ustack SPos.noConfusion SPos.noConfusion fun _ => SPos.noConfusion]
    exact hl.ustack
  · rw [hkeep .kstack SPos.noConfusion SPos.noConfusion fun _ => SPos.noConfusion]
    exact hl.kstack
  · intro _ v hlo hhi
    rw [hent v (by omega) (.inr hlo)]
    exact hl.kern hpt v hlo hhi
  · intro v hv
    by_cases hv1 : v = 1
    · subst hv1
      exact sw.code.imp And.right fun h1 => .inl ⟨rfl, h1⟩
    · rw [hent v hv1 (.inl hv)]
      rcases hl.code v hv with h0 | ⟨h1, _⟩ | h4
      · exact .inl h0
      · exact absurd h1 hv1
      · exact .inr (.inr h4)
  · intro v hv
    apply sw.sole
    by_cases hR : q.Ranges v
    · exact sole_of_none (cl.tgt v hR)
    · have htop : q.heapTop ≤ v.val * PGSIZE := by
        simp only [UProc.Ranges, HEAPBASE, PGSIZE] at hR hv ⊢
        omega
      exact hsole v (hl.above v htop)
  · have hc : CowOk m g p .idle := hidle ▸ hl.cow
    have hc' : CowOk m' g₂ p .idle :=
      ⟨sw.fresh, (hkeep .old SPos.noConfusion SPos.noConfusion fun _ => SPos.noConfusion).trans
        hc.2⟩
    rw [← hidle] at hc'
    exact hc'
  · intro _
    have htop : HEAPBASE ≤ PLIC := by decide
    exact ⟨hn, hlive.2.1, Nat.le_refl _, htop⟩
  · exact .inl rfl
  · exact hl.busy
  · intro hun
    rw [hrun] at hun
    cases hun

namespace VmInv
variable {L : Layout} {k k' : Kern} {g : Ghost} {p : Slot}

/-- The page that an image was loaded to. -/
theorem loadPage (h : VmInv L k g) (hidle : (k.proc p).cow = .idle) {img : ElfImage}
    (hfit : img.Fits) (hz : k.phys.kalloc.1 ≠ 0) :
    ∃ fl', InHand L k g p (k.phys.kalloc.2.setMem (loadElf img k.phys.kalloc.1
        (k.phys.kalloc.2.mem.setPage k.phys.kalloc.1 Page.zero)).2)
      ((g.set (p, .fresh) (some k.phys.kalloc.1)).setFl fl') k.phys.kalloc.1 := by
  have hc := (h.linked p).cow
  rw [hidle] at hc
  refine h.getPage hc.1 hz fun j hj => ?_
  rw [loadElf_other img hfit (h.vm.alloc.kalloc_lt hz) hj, Mem.setPage_of_ne _ _ hj,
    k.phys.kalloc_mem]

/-- What a process has after the new program took the place of the old one. -/
structure Execed (k : Kern) (g : Ghost) (p : Slot) (img : ElfImage) (k' : Kern) (g' : Ghost) :
    Prop where
  proc : k'.proc = Function.update k.proc p
    { k.proc p with heapTop := HEAPBASE, mmapBase := 0, ucode := k.phys.kalloc.1 }
  code : g.lf p 1 ≠ 0 → g'.lf p 1 = mkPte k.phys.kalloc.1 27
  data : k'.phys.mem k.phys.kalloc.1 = (loadElf img k.phys.kalloc.1
    (k.phys.kalloc.2.mem.setPage k.phys.kalloc.1 Page.zero)).2 k.phys.kalloc.1
  gone : ∀ u : UPage, (k.proc p).Ranges u → g'.tgt (p, .leaf u) = none ∧ g'.lf p u = 0
  same : ∀ u : UPage, 16 ≤ u.val → ¬ (k.proc p).Ranges u → Same k.phys g k'.phys g' p u
  lost : g'.lost = g.lost
  failed : k'.phys.failed = k.phys.failed

/-- A file that `load_elf` takes: the old program's pages go. -/
theorem execLoads (h : VmInv L k g) (hrun : (k.proc p).state = .runnable)
    (hpt : (k.proc p).pagetable ≠ 0) (hidle : (k.proc p).cow = .idle) {img : ElfImage}
    (hfit : img.Fits) (hz : k.phys.kalloc.1 ≠ 0) :
    let q := k.proc p
    let s := k.phys.kalloc.2.setMem (loadElf img k.phys.kalloc.1
      (k.phys.kalloc.2.mem.setPage k.phys.kalloc.1 Page.zero)).2
    let k' := (k.setPhys (((Kern.freeRanges s q).remapUserCode q.pagetable k.phys.kalloc.1).kfree
      q.ucode)).setProc p { q with heapTop := HEAPBASE, mmapBase := 0, ucode := k.phys.kalloc.1 }
    ∃ g', VmInv L k' g' ∧ SlotStep (· = p) k.phys g k'.phys g' ∧ Execed k g p img k' g' := by
  intro q s k'
  have hl : Linked L k.phys.mem g p q := h.linked p
  have hlive := hl.running hrun
  obtain ⟨fl₀, hh⟩ := h.loadPage hidle hfit hz
  -- the heap and the mapped file
  have hr₀ := (hh.off (.node .root) SPos.noConfusion).trans (h.root hpt)
  obtain ⟨g₁, h₁, st₁, re₁, cl₁⟩ := hh.vm.freeRanges (q := q) hr₀ hlive.2.2.2 hl.mmap
  -- the code page
  have hcode : g₁.tgt (p, .ucode) = some q.ucode :=
    ((cl₁.other .ucode fun _ => SPos.noConfusion).trans (hh.off .ucode SPos.noConfusion)).trans
      (hl.ucode.trans (ptr_of_ne hlive.1))
  have hfresh : g₁.tgt (p, .fresh) = some k.phys.kalloc.1 :=
    (cl₁.other .fresh fun _ => SPos.noConfusion).trans hh.fresh
  obtain ⟨g₂, h₂, st₂, sw₂⟩ := h₁.swapCode
    ((cl₁.other (.node .root) fun _ => SPos.noConfusion).trans hr₀) hcode hfresh
    (h.vm.alloc.kalloc_lt hz)
  have hall := (hh.st.trans st₁).trans st₂
  have hmem (x : SPos) (j : Nat) (hx : x ≠ .ucode) (hno : ∀ y, x ≠ .node y)
      (hj₀ : ((g.set (p, .fresh) (some k.phys.kalloc.1)).setFl fl₀).tgt (p, x) = some j)
      (hj : g₁.tgt (p, x) = some j) : k'.phys.mem j = s.mem j :=
    (sw₂.mem x j hx hno hj).trans (re₁.mem j (h₁.alloc.bal.not_free hj)
      fun y hy => hno y ((hh.vm.slot p).inslot x _ j hj₀ hy))
  refine ⟨g₂, h.step h₂ hall ?_ ?_ ?_, hall, ⟨rfl, fun hne => ?_, ?_, ?_, ?_, ?_, ?_⟩⟩
  · intro r hr
    exact Kern.setProc_of_ne _ _ hr
  · rintro r rfl
    have hr : k'.proc r = { q with heapTop := HEAPBASE, mmapBase := 0, ucode := k.phys.kalloc.1 } :=
      Kern.setProc_self ..
    rw [hr]
    exact hl.execed hrun hpt hidle hz cl₁ hh.off hh.lf
      (fun v hs => cl₁.sole st₁ (hh.sole _ hs)) sw₂
  · intro t ht
    rw [show k'.phys.taken = _ from sw₂.taken] at ht
    rcases re₁.taken t ht with ht | hlt
    · left
      rw [← hh.taken]
      exact ht
    · exact .inr hlt
  · refine sw₂.code.resolve_left fun hz => hne ?_
    rw [← hz.1, cl₁.entry 1 (hl.not_ranges hlive.2.2.2 (.inl (by decide))), hh.lf]
  · exact hmem .fresh _ SPos.noConfusion (fun _ => SPos.noConfusion) hh.fresh hfresh
  · intro u hu
    refine ⟨?_, ?_⟩
    · rw [sw₂.off (.leaf u) SPos.noConfusion SPos.noConfusion]
      exact cl₁.tgt u hu
    · have hu1 : u.val ≠ 1 := by
        intro he
        exact hl.not_ranges hlive.2.2.2 (.inl (by omega)) hu
      rw [sw₂.lf u hu1]
      exact cl₁.lf u hu
  · intro u hu hR
    have hleaf₀ := hh.off (.leaf u) SPos.noConfusion
    have hleaf₁ := (cl₁.leaf u hR).trans hleaf₀
    refine ⟨(sw₂.off _ SPos.noConfusion SPos.noConfusion).trans hleaf₁, ?_, fun n hn => ?_⟩
    · rw [sw₂.lf u (by omega), cl₁.entry u hR, hh.lf]
    · calc k'.phys.mem n
          = s.mem n := hmem (.leaf u) n SPos.noConfusion (fun _ => SPos.noConfusion)
            (hleaf₀.trans hn) (hleaf₁.trans hn)
        _ = k.phys.mem n := (hh.same u).mem n hn
  · exact sw₂.lost.trans cl₁.lost
  · calc k'.phys.failed
        = (Kern.freeRanges s q).failed := sw₂.failed
      _ = s.failed := re₁.failed
      _ = k.phys.failed := k.phys.kalloc_failed hz

/-- `proc_exec` of a file whose segments fit: it goes on with the new program when `load_elf` takes
the file, and changes nothing else. -/
theorem procExec (h : VmInv L k g) (hrun : (k.proc p).state = .runnable)
    (hpt : (k.proc p).pagetable ≠ 0) (hidle : (k.proc p).cow = .idle) {file : Option ElfImage}
    (hfit : ∀ img, file = some img → img.Fits) (hs : k.procExec p file = some k') :
    ∃ g', VmInv L k' g' ∧ SlotStep (· = p) k.phys g k'.phys g' ∧ k'.phys.failed = k.phys.failed ∧
      ((∃ img, file = some img ∧ img.loads = true ∧ Execed k g p img k' g') ∨
        (∀ img, file = some img → img.loads = false) ∧ k'.proc = k.proc ∧ g'.lost = g.lost ∧
          ∀ u, Same k.phys g k'.phys g' p u) := by
  cases file with
  | none =>
    cases hs
    exact ⟨g, h, .refl .., rfl, .inr ⟨nofun, rfl, rfl, fun u => .refl ..⟩⟩
  | some img =>
    have hfit := hfit img rfl
    have hlive := (h.linked p).running hrun
    rw [Kern.procExec] at hs
    by_cases hz : k.phys.kalloc.1 = 0
    · simp [hz] at hs
    · have hok := loadElf_fst img k.phys.kalloc.1
        (k.phys.kalloc.2.mem.setPage k.phys.kalloc.1 Page.zero)
      simp only [hz, if_false, hok] at hs
      cases hloads : img.loads with
      | false =>
        simp only [hloads, Bool.not_false, if_true] at hs
        cases hs
        obtain ⟨fl₀, hh⟩ := h.loadPage hidle hfit hz
        obtain ⟨g', hinv, hst, hlost, hsame⟩ := h.giveBack hpt hidle hh hh.vm (.refl ..) (.refl ..)
        refine ⟨g', hinv, hst, ?_, .inr ⟨?_, rfl, hlost, hsame⟩⟩
        · exact (Phys.kfree_failed ..).trans (k.phys.kalloc_failed hz)
        · intro i hi
          cases hi
          exact hloads
      | true =>
        simp only [hloads, Bool.not_true, Bool.false_eq_true, if_false, hlive.1, ne_eq,
          not_false_eq_true, if_true] at hs
        cases hs
        obtain ⟨g', hinv, hst, hex⟩ := h.execLoads hrun hpt hidle hfit hz
        exact ⟨g', hinv, hst, hex.failed, .inl ⟨img, rfl, hloads, hex⟩⟩

end VmInv

end KernelHobby
