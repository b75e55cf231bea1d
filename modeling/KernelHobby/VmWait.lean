import KernelHobby.VmExec

namespace KernelHobby
set_option autoImplicit true

namespace Vm
variable {s : Phys} {g : Ghost} {p : Slot}

/-- Without a page table nothing is mapped. -/
theorem no_root (h : Vm kend s g) (hroot : g.tgt (nd p .root) = none) :
    (∀ y, g.tgt (nd p y) = none) ∧ (∀ v, v < 2 ^ 27 → g.lf p v = 0) ∧
      ∀ v, g.tgt (p, .leaf v) = none := by
  have hh := (h.slot p).holds
  have hmid := hh.top hroot
  have hlow (i j : Fin 512) := hh.up i j (hmid i)
  have hlf (v : Nat) (hv : v < 2 ^ 27) : g.lf p v = 0 := hh.absent v hv (hlow _ _)
  refine ⟨fun y => ?_, hlf, fun v => ?_⟩
  · cases y with
    | root => exact hroot
    | mid i => exact hmid i
    | low i j => exact hlow i j
  · by_cases hv : 16 ≤ v.val
    · rcases (h.slot p).leaf v hv with ⟨_, hn⟩ | ⟨n, f, _, hw, _⟩
      · exact hn
      · rw [hlf v v.lt, mkPte] at hw
        omega
    · exact (h.slot p).bare v (by omega)

/-- `kfree` of a pointer that is not null. -/
theorem kfreeField (h : Vm kend s g) (hx : x.Plain) (hn : g.tgt (p, x) = ptr n) :
    ∃ fl', Vm kend (Kern.kfreeField s n) ((g.set (p, x) none).setFl fl') ∧
      SlotStep (· = p) s g (Kern.kfreeField s n) ((g.set (p, x) none).setFl fl') ∧
      (Kern.kfreeField s n).taken = s.taken ∧ (Kern.kfreeField s n).failed = s.failed := by
  by_cases hz : n = 0
  · have hs : Kern.kfreeField s n = s := if_neg (not_not.2 hz)
    have hg : (g.set (p, x) none).setFl g.fl = g := by
      have hnone : g.tgt (p, x) = none := by
        rw [hn, hz]
        rfl
      rw [Ghost.set, ← hnone, Function.update_eq_self]
      rfl
    rw [hs]
    exact ⟨g.fl, hg.symm ▸ h, hg.symm ▸ .refl .., rfl, rfl⟩
  · have hs : Kern.kfreeField s n = s.kfree n := if_pos hz
    obtain ⟨fl', hvm, hst, _⟩ := h.kfreeAt hx (hn.trans (ptr_of_ne hz))
    rw [hs]
    exact ⟨fl', hvm, hst, s.kfree_taken n, s.kfree_failed n⟩

/-- The pointers of a process are given back. -/
theorem freePointers (h : Vm kend s g) (huc : g.tgt (p, .ucode) = ptr uc)
    (hus : g.tgt (p, .ustack) = ptr us) (hks : g.tgt (p, .kstack) = ptr ks)
    (hfresh : g.tgt (p, .fresh) = none) (hold : g.tgt (p, .old) = none) :
    let s' := Kern.kfreeField (Kern.kfreeField (Kern.kfreeField s uc) us) ks
    ∃ g', Vm kend s' g' ∧ SlotStep (· = p) s g s' g' ∧ (∀ x, x.Plain → g'.tgt (p, x) = none) ∧
      (∀ x, ¬ x.Plain → g'.tgt (p, x) = g.tgt (p, x)) ∧ g'.lf = g.lf ∧ g'.lost = g.lost ∧
      (∀ x, Sole g.tgt x → Sole g'.tgt x) ∧ s'.taken = s.taken ∧ s'.failed = s.failed := by
  intro s'
  obtain ⟨f₁, h₁, st₁, tk₁, fd₁⟩ := h.kfreeField SPos.plain_ucode huc
  obtain ⟨f₂, h₂, st₂, tk₂, fd₂⟩ := h₁.kfreeField (p := p) (n := us) SPos.plain_ustack (by
    simpa [Ghost.set, Ghost.setFl] using hus)
  obtain ⟨f₃, h₃, st₃, tk₃, fd₃⟩ := h₂.kfreeField (p := p) (n := ks) SPos.plain_kstack (by
    simpa [Ghost.set, Ghost.setFl] using hks)
  refine ⟨_, h₃, (st₁.trans st₂).trans st₃, fun x hx => ?_, fun x hx => ?_, rfl, rfl, fun x hx => ?_,
    (tk₃.trans tk₂).trans tk₁, (fd₃.trans fd₂).trans fd₁⟩
  · cases x with
    | leaf v => exact absurd rfl (hx.2 v)
    | node y => exact absurd rfl (hx.1 y)
    | ucode => simp [Ghost.set, Ghost.setFl]
    | ustack => simp [Ghost.set, Ghost.setFl]
    | kstack => simp [Ghost.set, Ghost.setFl]
    | fresh => simpa [Ghost.set, Ghost.setFl] using hfresh
    | old => simpa [Ghost.set, Ghost.setFl] using hold
  · have huc : x ≠ .ucode := fun he => hx (he ▸ SPos.plain_ucode)
    have hus : x ≠ .ustack := fun he => hx (he ▸ SPos.plain_ustack)
    have hks : x ≠ .kstack := fun he => hx (he ▸ SPos.plain_kstack)
    simp [Ghost.set, Ghost.setFl, huc, hus, hks]
  · exact ((hx.erase _).erase _).erase _

/-- The page table of a process goes, when it has nothing else any more. Pages that are mapped in
it still are lost. -/
theorem dropTable (h : Vm kend s g) (hr : g.tgt (nd p .root) = some r) (hlf : Leafy (g.lf p))
    (hs : ∀ v, Sole g.tgt (p, .leaf v)) (hplain : ∀ x, x.Plain → g.tgt (p, x) = none) :
    ∃ g', Vm kend (s.freePagetable r) g' ∧ SlotStep (· = p) s g (s.freePagetable r) g' ∧
      (∀ x, g'.tgt (p, x) = none) ∧ (∀ v, g'.lf p v = 0) ∧
      (∀ n, (∀ v, g.tgt (p, .leaf v) ≠ some n) → g'.lost n = g.lost n) ∧
      (∀ n v, g.tgt (p, .leaf v) = some n → 0 < g'.lost n) ∧
      (s.freePagetable r).taken = s.taken ∧ (s.freePagetable r).failed = s.failed := by
  obtain ⟨t, fl', ha, hpr, hnode⟩ := (h.tab p).freePagetable hlf hr
  obtain ⟨F, hF⟩ : ∃ F : Finset Pos, ∀ y, y ∈ F ↔ y.1 = p :=
    ⟨Finset.univ.filter fun y => y.1 = p, fun y => by simp⟩
  obtain ⟨lost', ha', hlost, hpos⟩ := ha.loseOn F
  have hgone (x : SPos) : (if (p, x) ∈ F then none else t (p, x)) = none := if_pos ((hF _).2 rfl)
  have hother (q : Slot) (x : SPos) (hq : q ≠ p) :
      (if (q, x) ∈ F then none else t (q, x)) = g.tgt (q, x) := by
    rw [if_neg fun he => hq ((hF _).1 he)]
    exact hpr.off _ fun y he => hq (congrArg Prod.fst he)
  -- of the process, only its entries have pages left
  have hlost' (n : Nat) (hn : ∀ v, g.tgt (p, .leaf v) ≠ some n) : lost' n = g.lost n := by
    apply hlost
    rintro ⟨q, x⟩ hq hx
    obtain rfl : q = p := (hF _).1 hq
    rcases x.plain_or with hp | ⟨v, rfl⟩ | ⟨y, rfl⟩
    · rw [hpr.off _ (ne_nd hp.1), hplain x hp] at hx
      cases hx
    · have hoff : t (q, .leaf v) = g.tgt (q, .leaf v) := hpr.off _ (ne_nd nofun)
      exact hn v (hoff.symm.trans hx)
    · cases (hnode y).symm.trans hx
  have hst : SlotStep (· = p) s g (s.freePagetable r)
      ⟨fun y => if y ∈ F then none else t y, Function.update g.lf p fun _ => 0, lost', fl'⟩ := by
    constructor
    · exact hother
    · intro q hq
      exact Function.update_of_ne hq _ _
    · rintro n (hn | ⟨q, x, rfl, hx⟩)
      · rcases hpr.free n hn with hn | ⟨y, hy⟩
        · exact .inl hn
        · exact .inr ⟨p, .node y, rfl, hy⟩
      · have hx' := (hgone x).symm.trans hx
        cases hx'
    · intro q x n hq hx
      apply hpr.mem
      intro y hy
      exact h.ne_node hy hq hx rfl
    · intro hf
      exact hpr.failed.trans hf
  have hpos' (n : Nat) (v : UPage) (hv : g.tgt (p, .leaf v) = some n) : 0 < lost' n := by
    apply hpos (p, .leaf v) ((hF _).2 rfl)
    rw [hpr.off _ (ne_nd fun y => SPos.noConfusion)]
    exact hv
  refine ⟨_, h.step hst ha' ?_ ?_, hst, hgone, fun v => ?_, hlost', hpos', hpr.taken, hpr.failed⟩
  · rintro ⟨q, x⟩ n hx
    by_cases hq : q = p
    · rw [hq] at hx
      cases (hgone x).symm.trans hx
    · have hx₀ : g.tgt (q, x) = some n := (hother q x hq).symm.trans hx
      have hn (v : UPage) : g.tgt (p, .leaf v) ≠ some n := fun hv =>
        hq (congrArg Prod.fst (hs v n (q, x) hv hx₀))
      exact (hlost' n hn).trans (h.lost _ n hx₀)
  · rintro q rfl
    have hsole (x : SPos) : Sole (fun y => if y ∈ F then none else t y) (q, x) :=
      sole_of_none (hgone x)
    dsimp only
    rw [Function.update_self]
    exact ⟨.empty (fun y => hgone (.node y)) _, fun x _ => hsole x,
      fun x y n hx => (nomatch (hgone x).symm.trans hx), fun v _ => .inl ⟨rfl, hgone (.leaf v)⟩,
      fun v _ => hgone (.leaf v), fun v _ => hsole (.leaf v)⟩
  · dsimp only
    rw [Function.update_self]

end Vm

theorem Leafy.sub {lf lf' : Nat → Nat} (h : Leafy lf) (hs : ∀ v, lf' v = 0 ∨ lf' v = lf v) :
    Leafy lf' := by
  intro v hv hne
  rcases hs v with hz | he
  · rw [hz] at hne
    exact absurd (Nat.zero_and _) hne
  · rw [he] at hne ⊢
    exact h v hv hne

namespace VmInv
variable {L : Layout} {k k' : Kern} {g : Ghost} {p c : Slot}

/-- Every entry of a page table can be read at least. -/
theorem leafy (h : VmInv L k g) (hpt : (k.proc p).pagetable ≠ 0) : Leafy (g.lf p) := by
  intro v hv hne
  have hl := h.linked p
  have hflag {n f : Nat} (hf : f < 1024) (hr : f &&& (PTE_R ||| PTE_W ||| PTE_X) ≠ 0)
      (hw : g.lf p v = mkPte n f) : g.lf p v &&& (PTE_R ||| PTE_W ||| PTE_X) ≠ 0 := by
    rw [hw, mkPte_and n hf (by decide)]
    exact hr
  have hzero (hz : g.lf p v = 0) : g.lf p v &&& (PTE_R ||| PTE_W ||| PTE_X) ≠ 0 := by
    rw [hz] at hne
    exact absurd (Nat.zero_and _) hne
  by_cases hlow : v < 16
  · rcases hl.code v hlow with hz | ⟨_, hw⟩ | ⟨_, hw⟩
    · exact hzero hz
    · exact hflag (by decide) (by decide) hw
    · exact hflag (by decide) (by decide) hw
  · by_cases hhigh : 0xC000 ≤ v
    · have hkern := hl.kern hpt v hhigh hv
      rw [kernPte] at hkern
      split at hkern
      · exact hflag (by decide) (by decide) hkern
      · split at hkern
        · exact hflag (by decide) (by decide) hkern
        · split at hkern
          · exact hflag (by decide) (by decide) hkern
          · exact hzero hkern
    · obtain ⟨u, rfl⟩ : ∃ u : UPage, u.val = v := ⟨⟨v, by omega⟩, rfl⟩
      rcases (h.vm.slot p).leaf u (by omega) with ⟨hz, _⟩ | ⟨n, f, _, hw, hf⟩
      · exact hzero hz
      · rcases hf with rfl | rfl | rfl
        · exact hflag (by decide) (by decide) hw
        · exact hflag (by decide) (by decide) hw
        · exact hflag (by decide) (by decide) hw

theorem no_table (h : VmInv L k g) (hpt : (k.proc p).pagetable = 0) :
    (∀ y, g.tgt (nd p y) = none) ∧ (∀ v, v < 2 ^ 27 → g.lf p v = 0) ∧
      ∀ v, g.tgt (p, .leaf v) = none := by
  apply h.vm.no_root
  rw [(h.linked p).root, hpt]
  rfl

/-- What `proc_freeimage` leaves of a process that was not in a fault: nothing. The pages that are
mapped outside of its heap and its mapped file are lost. -/
structure ImageFreed (c : Slot) (q : UProc) (s : Phys) (g : Ghost) (s' : Phys) (g' : Ghost) :
    Prop where
  gone : ∀ x, g'.tgt (c, x) = none
  lf : ∀ v, v < 2 ^ 27 → g'.lf c v = 0
  lost : ∀ n, (∀ v : UPage, ¬ q.Ranges v → g.tgt (c, .leaf v) ≠ some n) → g'.lost n = g.lost n
  leaked : ∀ n (v : UPage), ¬ q.Ranges v → g.tgt (c, .leaf v) = some n → 0 < g'.lost n
  taken : ∀ t ∈ s'.taken, t ∈ s.taken ∨ t < 0xC000
  failed : s'.failed = s.failed

/-- `proc_freeimage` of a process without a page table. -/
theorem freePages (h : VmInv L k g) (hidle : (k.proc c).cow = .idle)
    (hpt : (k.proc c).pagetable = 0) :
    ∃ g', Vm L.kend (k.procFreeimage c).phys g' ∧
      SlotStep (· = c) k.phys g (k.procFreeimage c).phys g' ∧
      ImageFreed c (k.proc c) k.phys g (k.procFreeimage c).phys g' := by
  have hl := h.linked c
  have hcow := hl.cow
  rw [hidle] at hcow
  obtain ⟨hnode, hlf, hleaf⟩ := h.no_table hpt
  obtain ⟨g', hvm, hst, hplain, hother, hlf', hlost, _, htk, hfd⟩ :=
    h.vm.freePointers hl.ucode hl.ustack hl.kstack hcow.1 hcow.2
  have hs : (k.procFreeimage c).phys = Kern.kfreeField (Kern.kfreeField (Kern.kfreeField k.phys
      (k.proc c).ucode) (k.proc c).ustack) (k.proc c).kstack := by
    simp [Kern.procFreeimage, hpt]
  rw [hs]
  refine ⟨g', hvm, hst, fun x => ?_, fun v hv => ?_, fun n _ => ?_, fun n v _ hn => ?_,
    fun t ht => ?_, hfd⟩
  · rcases x.plain_or with hx | ⟨v, rfl⟩ | ⟨y, rfl⟩
    · exact hplain x hx
    · exact (hother _ fun hx => hx.2 v rfl).trans (hleaf v)
    · exact (hother _ fun hx => hx.1 y rfl).trans (hnode y)
  · rw [hlf']
    exact hlf v hv
  · rw [hlost]
  · rw [hleaf v] at hn
    cases hn
  · rw [htk] at ht
    exact .inl ht

/-- `proc_freeimage` of a process with its page table, which goes last. -/
theorem freeImage (h : VmInv L k g) (hlive : (k.proc c).state ≠ .unused)
    (hidle : (k.proc c).cow = .idle) (hpt : (k.proc c).pagetable ≠ 0) :
    ∃ g', Vm L.kend (k.procFreeimage c).phys g' ∧
      SlotStep (· = c) k.phys g (k.procFreeimage c).phys g' ∧
      ImageFreed c (k.proc c) k.phys g (k.procFreeimage c).phys g' := by
  have hl := h.linked c
  have hcow := hl.cow
  rw [hidle] at hcow
  -- the heap and the mapped file
  obtain ⟨g₁, h₁, st₁, re₁, cl₁⟩ := h.vm.freeRanges (h.root hpt) (hl.live hlive).2.2.2 hl.mmap
  have hkeep (x : SPos) (hx : x.Plain) : g₁.tgt (c, x) = g.tgt (c, x) := cl₁.other x hx.2
  -- the code page and the stacks
  obtain ⟨g₂, h₂, st₂, hplain, hother, hlf₂, hlost₂, hsole₂, htk₂, hfd₂⟩ := h₁.freePointers
    ((hkeep _ SPos.plain_ucode).trans hl.ucode) ((hkeep _ SPos.plain_ustack).trans hl.ustack)
    ((hkeep _ SPos.plain_kstack).trans hl.kstack) ((hkeep _ SPos.plain_fresh).trans hcow.1)
    ((hkeep _ SPos.plain_old).trans hcow.2)
  have hleaf₂ (v : UPage) : g₂.tgt (c, .leaf v) = g₁.tgt (c, .leaf v) :=
    hother _ fun hp => hp.2 v rfl
  have hr₂ : g₂.tgt (nd c .root) = some (k.proc c).pagetable :=
    ((hother (.node .root) fun hp => hp.1 _ rfl).trans (cl₁.other (.node .root) nofun)).trans
      (h.root hpt)
  have hleafy : Leafy (g₂.lf c) := by
    refine (h.leafy hpt).sub fun v => ?_
    rw [hlf₂]
    by_cases hR : (k.proc c).Ranges v
    · exact .inl (cl₁.lf v hR)
    · exact .inr (cl₁.entry v hR)
  have hsole (v : UPage) : Sole g₂.tgt (c, .leaf v) := by
    by_cases hR : (k.proc c).Ranges v
    · apply sole_of_none
      rw [hleaf₂]
      exact cl₁.tgt v hR
    · apply hsole₂
      apply cl₁.sole st₁
      by_cases hv : 16 ≤ v.val
      · apply hl.above
        simp only [UProc.Ranges] at hR
        omega
      · exact sole_of_none ((h.vm.slot c).bare v (by omega))
  -- the table
  obtain ⟨g₃, h₃, st₃, hnone, hlf₃, hlost₃, hpos₃, htk₃, hfd₃⟩ :=
    h₂.dropTable hr₂ hleafy hsole hplain
  have hs : (k.procFreeimage c).phys = (Kern.kfreeField (Kern.kfreeField (Kern.kfreeField
      (Kern.freeRanges k.phys (k.proc c)) (k.proc c).ucode) (k.proc c).ustack)
      (k.proc c).kstack).freePagetable (k.proc c).pagetable := by
    simp [Kern.procFreeimage, hpt]
  rw [hs]
  refine ⟨g₃, h₃, (st₁.trans st₂).trans st₃, hnone, fun v _ => hlf₃ v, fun n hn => ?_,
    fun n v hR hn => ?_, fun t ht => ?_, ?_⟩
  · rw [hlost₃ n fun v hv => ?_, hlost₂, cl₁.lost]
    rw [hleaf₂] at hv
    by_cases hR : (k.proc c).Ranges v
    · rw [cl₁.tgt v hR] at hv
      cases hv
    · rw [cl₁.leaf v hR] at hv
      exact hn v hR hv
  · apply hpos₃ n v
    rw [hleaf₂, cl₁.leaf v hR]
    exact hn
  · rw [htk₃, htk₂] at ht
    exact re₁.taken t ht
  · rw [hfd₃, hfd₂, re₁.failed]

theorem procFreeimage (h : VmInv L k g) (hlive : (k.proc c).state ≠ .unused)
    (hidle : (k.proc c).cow = .idle) :
    ∃ g', Vm L.kend (k.procFreeimage c).phys g' ∧
      SlotStep (· = c) k.phys g (k.procFreeimage c).phys g' ∧
      ImageFreed c (k.proc c) k.phys g (k.procFreeimage c).phys g' := by
  by_cases hpt : (k.proc c).pagetable = 0
  · exact h.freePages hidle hpt
  · exact h.freeImage hlive hidle hpt

/-- `proc_wait` for a child that has exited. -/
theorem reap (h : VmInv L k g) (hz : (k.proc c).state = .zombie) :
    let k' := (k.procFreeimage c).setProc c
      { (k.procFreeimage c).proc c with parent := none, state := .unused }
    ∃ g', VmInv L k' g' ∧ SlotStep (· = c) k.phys g k'.phys g' ∧ (∀ x, g'.tgt (c, x) = none) ∧
      (∀ n, (∀ v : UPage, ¬ (k.proc c).Ranges v → g.tgt (c, .leaf v) ≠ some n) →
        g'.lost n = g.lost n) ∧
      (∀ n (v : UPage), ¬ (k.proc c).Ranges v → g.tgt (c, .leaf v) = some n → 0 < g'.lost n) ∧
      k'.phys.failed = k.phys.failed := by
  intro k'
  have hidle : (k.proc c).cow = .idle := by
    by_contra hne
    have hrun := (h.linked c).busy hne
    rw [hz] at hrun
    cases hrun
  have hlive : (k.proc c).state ≠ .unused := by
    rw [hz]
    exact ProcState.noConfusion
  obtain ⟨g', hvm, hst, hnone, hlf, hlost, hpos, htk, hfd⟩ := h.procFreeimage hlive hidle
  refine ⟨g', h.step hvm hst ?_ ?_ htk, hst, hnone, hlost, hpos, hfd⟩
  · intro q hq
    rw [Kern.setProc_of_ne _ _ hq]
    exact Kern.setProc_of_ne _ _ hq
  · rintro q rfl
    have hq : k'.proc q = { k.proc q with
        ucode := 0, ustack := 0, kstack := 0, pagetable := 0, heapTop := HEAPBASE, mmapBase := 0
        parent := none, state := .unused } := by
      have hk : (k.procFreeimage q).proc q = { k.proc q with
          ucode := 0, ustack := 0, kstack := 0, pagetable := 0, heapTop := HEAPBASE
          mmapBase := 0 } := Kern.setProc_self ..
      rw [Kern.setProc_self, hk]
    rw [hq]
    constructor
    · exact hnone (.node .root)
    · exact hnone .ucode
    · exact hnone .ustack
    · exact hnone .kstack
    · intro hne
      exact absurd rfl hne
    · intro v hv
      exact .inl (hlf v (by omega))
    · intro v _
      exact sole_of_none (hnone (.leaf v))
    · rw [hidle]
      exact ⟨hnone .fresh, hnone .old⟩
    · intro hne
      exact absurd rfl hne
    · exact .inl rfl
    · intro hne
      exact absurd hidle hne
    · intro _
      exact ⟨rfl, rfl, rfl, rfl⟩

end VmInv

end KernelHobby
