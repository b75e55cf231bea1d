import KernelHobby.TabRun
import KernelHobby.VmRoom

namespace KernelHobby
set_option autoImplicit true

/-- An entry outside the heap and the mapped files is no link to a lower node. -/
theorem OuterOk.leafy (h : OuterOk g p v w) (hv : w &&& PTE_V ≠ 0) :
    w &&& (PTE_R ||| PTE_W ||| PTE_X) ≠ 0 := by
  obtain rfl | ⟨n, f, rfl, hf⟩ := h.flags
  · exact absurd (Nat.zero_and _) hv
  · rw [mkPte_and n (by omega) (by decide)]
    rcases hf with rfl | rfl | rfl | rfl | rfl <;> decide

namespace TabInv
variable {L : Layout} {k : Tabs} {g : Ghost} {p : Slot}

/-- No entry of a table looks like a link to a lower node. -/
theorem leafy (h : TabInv L k g) (p : Slot) : Leafy (g.lf p) := by
  intro v hv hvalid
  by_cases hout : Outer v
  · exact ((h.slot p).outer v hout).leafy hvalid
  · have hin : 16 ≤ v ∧ v < 0xC000 := by
      simp only [Outer] at hout
      omega
    rcases (h.vm.slot p).leaf ⟨v, hin.2⟩ hin.1 with ⟨hz, _⟩ | ⟨n, f, _, hw, hf⟩
    · rw [hz] at hvalid
      exact absurd (Nat.zero_and _) hvalid
    · rw [hw, mkPte_and n (by omega) (by decide)]
      rcases hf with rfl | rfl | rfl <;> decide

/-- The page of a user entry is no node. -/
theorem user_not_node (h : TabInv L k g) (hv : v < 2 ^ 27) (hvalid : g.lf p v &&& PTE_V ≠ 0)
    (huser : g.lf p v &&& PTE_U ≠ 0) (y : Node) :
    g.tgt (nd p y) ≠ some (pte2pa (g.lf p v)) := by
  intro hy
  have hother (x : SPos) (hx : ∀ y, x ≠ .node y) (hn : g.tgt (p, x) = some (pte2pa (g.lf p v))) :
      False := hx y ((h.vm.slot p).inslot x _ _ hn hy)
  by_cases hout : Outer v
  · cases (h.slot p).outer v hout with
    | none hw =>
      rw [hw] at hvalid
      exact hvalid (Nat.zero_and _)
    | kern n f hw hf =>
      rw [hw, mkPte_and n (by omega) (by decide)] at huser
      rcases hf with rfl | rfl
      · exact huser rfl
      · exact huser rfl
    | code n _ hw hn =>
      refine hother .ucode (fun _ => SPos.noConfusion) ?_
      rw [hw, pte2pa_mkPte n (by decide), hn]
    | stack n _ hw hn =>
      refine hother .ustack (fun _ => SPos.noConfusion) ?_
      rw [hw, pte2pa_mkPte n (by decide), hn]
    | lost n f hw hf hn =>
      rw [hw, pte2pa_mkPte n (by omega)] at hy
      have hz := h.vm.lost _ n hy
      omega
  · have hin : 16 ≤ v ∧ v < 0xC000 := by
      simp only [Outer] at hout
      omega
    rcases (h.vm.slot p).leaf ⟨v, hin.2⟩ hin.1 with ⟨hz, _⟩ | ⟨n, f, hn, hw, hf⟩
    · rw [hz] at hvalid
      exact hvalid (Nat.zero_and _)
    · refine hother (.leaf ⟨v, hin.2⟩) (fun _ => SPos.noConfusion) ?_
      rw [hw, pte2pa_mkPte n (by omega), hn]

/-- `free_pagetable` of a table in order. -/
theorem freesNodes (h : TabInv L k g) (hpt : (k.tab p).pagetable ≠ 0) :
    FreesNodes L k.phys (k.tab p).pagetable := by
  have hr := h.root hpt
  have ht := h.vm.tab p
  have hbal := h.vm.alloc.bal
  obtain ⟨tgt', fl', ha, hpr, hnone⟩ := ht.freePagetable (h.leafy p) hr
  have hnode (x : Node) : nodeAt k.phys.mem (k.tab p).pagetable x = g.tgt (nd p x) :=
    ht.holds.nodeAt hr x
  -- the nodes are free now, and no other page is
  have hnew (x : Node) (n : Nat) (hx : g.tgt (nd p x) = some n) : n ∈ fl' ∧ n ∉ g.fl := by
    refine ⟨(ha.bal.free n).2 ⟨hbal.target _ n hx, ?_⟩, hbal.not_free hx⟩
    have hcount := ha.bal.count n (hbal.target _ n hx)
    have hlost := h.vm.lost _ n hx
    have hrefs : refs tgt' n = 0 := by
      rw [refs_eq_zero]
      intro y hy
      rw [ht.sole x y n hx (hpr.sub y n hy), hnone] at hy
      cases hy
    omega
  have hold (n : Nat) (hn : ∀ x, g.tgt (nd p x) ≠ some n) : n ∈ fl' ↔ n ∈ g.fl := by
    rw [ha.bal.free, hbal.free, hpr.refcnt n hn]
  have hns (n : Nat) : n ∈ fl'.filter (fun n => n ∉ g.fl) ↔
      ∃ x, nodeAt k.phys.mem (k.tab p).pagetable x = some n := by
    rw [List.mem_filter, decide_eq_true_iff]
    constructor
    · rintro ⟨hin, hout⟩
      by_contra hno
      exact hout ((hold n fun x hx => hno ⟨x, (hnode x).trans hx⟩).1 hin)
    · rintro ⟨x, hx⟩
      exact hnew x n ((hnode x).symm.trans hx)
  have hnot (n : Nat) (hn : n ∉ fl'.filter fun n => n ∉ g.fl) (x : Node) :
      g.tgt (nd p x) ≠ some n := fun hx => hn ((hns n).2 ⟨x, (hnode x).trans hx⟩)
  refine ⟨g.fl, fl', fl'.filter fun n => n ∉ g.fl, h.vm.alloc.chain, ha.chain, hns, ?_,
    ha.bal.nodup, fun n hn => ⟨hpr.refcnt n (hnot n hn), hold n (hnot n hn)⟩, ?_, ?_⟩
  · rw [List.perm_ext_iff_of_nodup ha.bal.nodup]
    · intro n
      rw [List.mem_append, List.mem_filter, decide_eq_true_iff]
      by_cases hn : n ∈ g.fl
      · have hin : n ∈ fl' := (hold n fun x hx => hbal.not_free hx hn).2 hn
        simp only [hin, hn, not_true_eq_false, and_false, or_true]
      · simp only [hn, not_false_eq_true, and_true, or_false]
    · refine List.Nodup.append (ha.bal.nodup.filter _) hbal.nodup fun n hn hn' => ?_
      rw [List.mem_filter, decide_eq_true_iff] at hn
      exact hn.2 hn'
  · intro v hv hvalid huser hin
    rw [ht.holds.leafAt hr hv] at hvalid huser hin
    obtain ⟨x, hx⟩ := (hns _).1 hin
    exact h.user_not_node hv hvalid huser x ((hnode x).symm.trans hx)
  · intro n hlt hin
    obtain ⟨x, hx⟩ := (hns n).1 hin
    have hman := hbal.target _ n ((hnode x).symm.trans hx)
    exact absurd hman.1 (Nat.not_le.2 hlt)

end TabInv

/-- As long as ranges keep to user pages, `free_pagetable` gives back the nodes of a table and
nothing else, whatever happened to the table before. -/
theorem freePagetable_frees_nodes {L : Layout} (h : TabReach L TabCall.InUser k)
    (hpt : (k.tab p).pagetable ≠ 0) :
    FreesNodes L k.phys (k.tab p).pagetable ∧
      ∀ depth, 3 ≤ depth → Phys.freewalk depth k.phys (k.tab p).pagetable =
        k.phys.freePagetable (k.tab p).pagetable := by
  obtain ⟨g, hg⟩ := h.inv
  refine ⟨hg.freesNodes hpt, fun depth hd => ?_⟩
  obtain ⟨d, rfl⟩ : ∃ d, depth = d + 3 := ⟨depth - 3, by omega⟩
  exact (hg.vm.tab p).freewalk_ends (hg.leafy p) (hg.root hpt) d

/-- A first table, with the kernel's mappings and its two user pages. -/
theorem smallKernel_table (P : TabCall → Prop)
    (hP : P (.pagetable .shell Page.zero Page.zero)) :
    ∃ k uc us, TabReach smallKernel P k ∧ (k.tab .shell).pagetable ≠ 0 ∧
      ∀ v, v < 2 ^ 27 → leafAt k.phys.mem (k.tab .shell).pagetable v =
        userPte smallKernel uc us v := by
  obtain ⟨fl, ha, hlen, _⟩ := kinit_alloc (ι := Pos) (fun _ => Page.zero)
    (show 0 < smallKernel.kend by decide) smallKernel.ram
  have hblank : Blank smallKernel.kend (Phys.kinit (fun _ => Page.zero) smallKernel.kend) fl :=
    ⟨_, ha⟩
  have hcnt := hblank.cnt
  have hkend : smallKernel.kend = 0x804c0 := rfl
  have htop : PHYSTOP = 0x88000 := rfl
  obtain ⟨pt, s, fl₁, hk, h₁, _, hcnt₁⟩ := hblank.kvminit_ok smallKernel (by omega)
  have hz := h₁.room (by omega)
  obtain ⟨g₁, i₁⟩ := h₁.tabs
  obtain ⟨fl₂, h₂⟩ := h₁.kalloc
  have hcnt₂ := s.kalloc_freecnt hz
  have hz₁ : (s.kalloc.2.setMem (s.kalloc.2.mem.setPage s.kalloc.1 Page.zero)).kalloc.1 ≠ 0 := by
    have hroom := h₂.room (by omega)
    rwa [Phys.kalloc_fst] at hroom ⊢
  obtain ⟨g₃, i₃⟩ := i₁.newPages (p := .shell) rfl hz Page.zero Page.zero hz₁
  generalize hs₃ : (s.kalloc.2.setMem (s.kalloc.2.mem.setPage s.kalloc.1 Page.zero)) = s₃ at hz₁ i₃
  have hcnt₃ : s₃.freecnt = s.kalloc.2.freecnt := hs₃ ▸ rfl
  have hcnt₄ := s₃.kalloc_freecnt hz₁
  generalize hs₄ : s₃.kalloc.2.setMem (s₃.kalloc.2.mem.setPage s₃.kalloc.1 Page.zero) = s₄ at i₃
  have hcnt₅ : s₄.freecnt = s₃.kalloc.2.freecnt := hs₄ ▸ rfl
  have hs := i₃.slot .shell
  dsimp only at hs
  rw [Function.update_self] at hs
  have huc : g₃.tgt (.shell, .ucode) = some s.kalloc.1 := hs.ucode.trans (ptr_of_ne hz)
  have hus : g₃.tgt (.shell, .ustack) = some s₃.kalloc.1 := hs.ustack.trans (ptr_of_ne hz₁)
  have hnone := (i₃.vm.no_root hs.root).1
  obtain ⟨hr, s', tgt', fl', he, hroot, ht, _⟩ := (i₃.vm.emptyTab hnone).procPagetable_ok smallKernel
    hnone (i₃.vm.alloc.bal.target _ _ huc).2 (i₃.vm.alloc.bal.target _ _ hus).2
    (show 1537 < s₄.freecnt by omega)
  refine ⟨⟨s', Function.update (fun _ => .zero) .shell ⟨s₄.kalloc.1, s.kalloc.1, s₃.kalloc.1⟩⟩,
    s.kalloc.1, s₃.kalloc.1,
    ⟨_, 0, pt, s, [.pagetable .shell Page.zero Page.zero], hk, ?_, ?_⟩, ?_, ?_⟩
  · intro a ha
    rw [List.mem_singleton] at ha
    rwa [ha]
  · simp only [Tabs.run, Tabs.step, Kern.driverPages, if_true, hz, hs₃, hz₁, hs₄, if_false,
      Tabs.build, he]
    rfl
  · dsimp only
    rw [Function.update_self]
    exact hr
  · intro v hv
    dsimp only
    rw [Function.update_self]
    exact ht.holds.leafAt hroot hv

theorem freePagetable_frees_nodes_small : ∃ k, TabReach smallKernel TabCall.InUser k ∧
    (k.tab .shell).pagetable ≠ 0 ∧ FreesNodes smallKernel k.phys (k.tab .shell).pagetable := by
  obtain ⟨k, _, _, hk, hpt, _⟩ := smallKernel_table TabCall.InUser trivial
  exact ⟨k, hk, hpt, (freePagetable_frees_nodes hk hpt).1⟩

/-- A page that is on the free list already cannot come to it once more. -/
theorem FreesNodes.not_head (h : FreesNodes L s r) : r = 0 ∨ s.freelist ≠ r := by
  obtain ⟨fl, fl', ns, hc, _, hns, hperm, hnd, _⟩ := h
  by_contra hno
  rw [not_or, not_not] at hno
  obtain ⟨hr, he⟩ := hno
  cases fl with
  | nil => exact hr (he.symm.trans hc)
  | cons n fl =>
    have hrn : r ∈ n :: fl := by
      rw [← he, hc.1]
      exact List.mem_cons_self ..
    have hrs : r ∈ ns := (hns r).2 ⟨.root, rfl⟩
    exact (List.nodup_append.1 (hperm.nodup_iff.1 hnd)).2.2 r hrs r hrn rfl

/-- `vm_free_range` over the page where the kernel maps the root of the table itself: the root comes
to the free list while the table is in use, and `free_pagetable` would free it once more. -/
theorem freeRange_frees_root : ∃ k, TabReach smallKernel (fun _ => True) k ∧
    (k.tab .shell).pagetable ≠ 0 ∧ ¬ FreesNodes smallKernel k.phys (k.tab .shell).pagetable := by
  obtain ⟨k, uc, us, hk, hpt, hleaf⟩ := smallKernel_table TabCall.InUser trivial
  obtain ⟨g, hg⟩ := hk.inv
  have hr := hg.root hpt
  have hman := hg.vm.alloc.bal.target _ _ hr
  have hlost := hg.vm.lost _ _ hr
  have hcount := hg.vm.alloc.bal.count _ hman
  have hsole := (hg.vm.slot .shell).own (.node .root) trivial
  generalize hrt : (k.tab .shell).pagetable = r at *
  have hlo : 0x804c0 ≤ r := hman.1
  have hhi : r < 0x88000 := hman.2
  have hlt : r < 2 ^ 27 := by omega
  have hlf : g.lf .shell r = mkPte r 7 := by
    rw [← (hg.vm.slot .shell).holds.leafAt hr hlt, hleaf r hlt, userPte,
      Function.update_of_ne (by omega), Function.update_of_ne (by omega), kernPte,
      if_neg (by omega), if_neg, if_pos]
    · exact ⟨Nat.le_trans (by decide) hlo, hhi⟩
    · intro hno
      exact absurd hno.2 (Nat.not_lt.2 (Nat.le_trans (by decide) hlo))
  obtain ⟨l, hl⟩ := hg.vm.low_of_entry hlt (by
    rw [hlf, mkPte]
    omega)
  have hone : ¬ 1 < k.phys.refcnt r := by
    have hrefs : refs g.tgt r ≤ Fintype.card Unit := by
      apply refs_le_card fun _ => ()
      intro x y hx hy _
      rw [hsole r x hr hx, hsole r y hr hy]
    rw [Fintype.card_unit] at hrefs
    rw [UInt8.lt_iff_toNat_lt]
    change ¬ 1 < (k.phys.refcnt r).toNat
    omega
  have hword := (hg.vm.slot .shell).holds.low r l hlt hl
  have hpages : Phys.pages (r * PGSIZE) ((r + 1) * PGSIZE) = 1 := by
    simp only [Phys.pages, PGSIZE]
    omega
  have hvalid : mkPte r 7 &&& PTE_V ≠ 0 := by
    rw [mkPte_and r (by decide) (by decide)]
    decide
  have hfree : (k.phys.vmFreeRange r (r * PGSIZE) ((r + 1) * PGSIZE)).freelist = r := by
    rw [Phys.vmFreeRange, hpages, Phys.freeLoop, k.phys.walk_holds (hg.vm.slot .shell).holds hr,
      Vm.vpn_page hlt]
    change g.tgt (nd .shell (.low (ix2 r) (ix1 r))) = some l at hl
    rw [hl]
    simp only [Option.map_some]
    rw [hword, hlf, if_pos hvalid, pte2pa_mkPte r (by decide), Phys.kfree, if_neg hone]
    rfl
  refine ⟨k.setPhys (k.phys.vmFreeRange r (r * PGSIZE) ((r + 1) * PGSIZE)),
    (hk.mono fun _ _ => trivial).step (a := .freeRange .shell r ((r + 1) * PGSIZE)) trivial ?_, ?_,
    fun hno => ?_⟩
  · rw [Tabs.step, hrt, if_pos hpt]
  · change (k.tab .shell).pagetable ≠ 0
    rw [hrt]
    exact hpt
  · change FreesNodes _ _ (k.tab .shell).pagetable at hno
    rw [hrt] at hno
    rcases hno.not_head with hz | hne
    · exact hpt hz
    · exact hne hfree

end KernelHobby
