import KernelHobby.VmProc

namespace KernelHobby
set_option autoImplicit true

/-- The lowest entry that the page table of a process has for `va`, 0 without one. -/
def Kern.pte (k : Kern) (p : Slot) (va : Nat) : Nat :=
  match k.phys.walk (k.proc p).pagetable va false with
  | (some (n, i), s) => (s.mem n).word i
  | (none, _) => 0

theorem Kern.pte_holds {k : Kern} (h : Holds k.phys.mem T lf)
    (hr : T .root = some (k.proc p).pagetable) (va : Nat) : k.pte p va = lf (vpn va) := by
  rw [pte, Phys.walk_holds h hr va]
  cases hl : T (.low (ix2 (vpn va)) (ix1 (vpn va))) with
  | none => exact (h.absent _ (vpn_lt va) hl).symm
  | some l => exact h.low _ l (vpn_lt va) hl

namespace Kern

theorem translate_pte (k : Kern) (p : Slot) (va perm : Nat) :
    k.translate p va perm =
      if va < 2 ^ 38 ∧ k.pte p va &&& PTE_V ≠ 0 ∧ k.pte p va &&& PTE_U ≠ 0 ∧
        k.pte p va &&& perm ≠ 0 then some (pte2pa (k.pte p va)) else none := by
  rw [translate, pte]
  rcases k.phys.walk (k.proc p).pagetable va false with ⟨_ | ⟨n, i⟩, s⟩
  · refine (if_neg ?_).symm
    rintro ⟨_, hv, _⟩
    exact hv (Nat.zero_and _)
  · rfl

theorem translate_mkPte {k : Kern} {p : Slot} (hva : va < 2 ^ 38) (hpte : k.pte p va = mkPte n f)
    (hf : f < 1024) (hperm : perm < 1024) (hv : f &&& PTE_V ≠ 0) (hu : f &&& PTE_U ≠ 0)
    (hp : f &&& perm ≠ 0) : k.translate p va perm = some n := by
  rw [translate_pte, hpte, mkPte_and n hf (by decide), mkPte_and n hf (by decide),
    mkPte_and n hf hperm, if_pos ⟨hva, hv, hu, hp⟩, pte2pa_mkPte n hf]

end Kern

/-- The page that a process reaches at `va` under the right `perm`. -/
inductive Reaches (g : Ghost) (p : Slot) (q : UProc) (va perm n : Nat) : Prop where
  | code (hv : vpn va = 1) (hn : n = q.ucode) (hf : 27 &&& perm ≠ 0)
  | stack (hv : vpn va = 4) (hn : n = q.ustack) (hf : 23 &&& perm ≠ 0)
  | leaf (v : UPage) (f : Nat) (hu : 16 ≤ v.val) (hv : vpn va = v.val)
      (ht : g.tgt (p, .leaf v) = some n) (hlf : g.lf p v = mkPte n f)
      (hk : f = 19 ∨ f = 23 ∨ f = 275) (hf : f &&& perm ≠ 0)

/-- The kernel's mappings are not for the user. -/
theorem kernPte_user (L : Layout) (v : Nat) : kernPte L v &&& PTE_U = 0 := by
  rw [kernPte]
  split
  · rw [mkPte_and _ (by decide) (by decide)]
    rfl
  · split
    · rw [mkPte_and _ (by decide) (by decide)]
      rfl
    · split
      · rw [mkPte_and _ (by decide) (by decide)]
        rfl
      · rfl

namespace VmInv
variable {L : Layout} {k k' : Kern} {g g' : Ghost} {p : Slot}

theorem root (h : VmInv L k g) (hpt : (k.proc p).pagetable ≠ 0) :
    g.tgt (nd p .root) = some (k.proc p).pagetable := Vm.root_of (h.linked p) hpt

theorem pte (h : VmInv L k g) (hpt : (k.proc p).pagetable ≠ 0) (va : Nat) :
    k.pte p va = g.lf p (vpn va) := Kern.pte_holds (h.vm.slot p).holds (h.root hpt) va

theorem pte_page (h : VmInv L k g) (hpt : (k.proc p).pagetable ≠ 0) (hu : u < 2 ^ 27) :
    k.pte p (u * PGSIZE) = g.lf p u := by
  rw [h.pte hpt, Vm.vpn_page hu]

/-- A page table is the same at all pages that are the same in the process's part of it. -/
theorem lf_same (h : VmInv L k g) (h' : VmInv L k' g') (hpt : (k.proc p).pagetable ≠ 0)
    (hproc : k'.proc = k.proc) (hs : ∀ v : UPage, v.val = u → Same k.phys g k'.phys g' p v)
    (hu : u < 2 ^ 27) : g'.lf p u = g.lf p u := by
  by_cases hlt : u < 0xC000
  · exact (hs ⟨u, hlt⟩ rfl).lf
  · have hk := (h.linked p).kern hpt u (by omega) hu
    have hk' := (h'.linked p).kern (by rw [hproc]; exact hpt) u (by omega) hu
    rw [hk, hk']

theorem translate (h : VmInv L k g) (hpt : (k.proc p).pagetable ≠ 0) (hperm : perm < 1024)
    (ht : k.translate p va perm = some n) : Reaches g p (k.proc p) va perm n := by
  have hwalk := Phys.walk_holds (h.vm.slot p).holds (h.root hpt) va
  rw [Kern.translate, hwalk] at ht
  cases hl : g.tgt (nd p (.low (ix2 (vpn va)) (ix1 (vpn va)))) with
  | none =>
    simp only [hl, Option.map_none] at ht
    cases ht
  | some l =>
    have hword := (h.vm.slot p).holds.low (vpn va) l (vpn_lt va) hl
    simp only [hl, Option.map_some, hword] at ht
    split at ht
    · rename_i hok
      obtain ⟨_, hvalid, huser, hbit⟩ := hok
      obtain rfl := Option.some.inj ht
      have hzero (hz : g.lf p (vpn va) = 0) : False := by
        rw [hz] at hvalid
        exact hvalid (Nat.zero_and _)
      by_cases hlow : vpn va < 16
      · rcases (h.linked p).code _ hlow with hz | ⟨hv, hw⟩ | ⟨hv, hw⟩
        · exact (hzero hz).elim
        · rw [hw] at hbit ⊢
          rw [mkPte_and _ (by decide) hperm] at hbit
          exact .code hv (pte2pa_mkPte _ (by decide)) hbit
        · rw [hw] at hbit ⊢
          rw [mkPte_and _ (by decide) hperm] at hbit
          exact .stack hv (pte2pa_mkPte _ (by decide)) hbit
      · by_cases hhigh : 0xC000 ≤ vpn va
        · rw [(h.linked p).kern hpt _ hhigh (vpn_lt va)] at huser
          exact absurd (kernPte_user L _) huser
        · obtain ⟨v, hv⟩ : ∃ v : UPage, v.val = vpn va := ⟨⟨vpn va, by omega⟩, rfl⟩
          rw [← hv] at hbit hzero hlow ⊢
          rcases (h.vm.slot p).leaf v (by omega) with ⟨hz, _⟩ | ⟨j, f, hj, hw, hf⟩
          · exact (hzero hz).elim
          · rw [hw] at hbit ⊢
            rw [mkPte_and j (by omega) hperm] at hbit
            rw [pte2pa_mkPte j (by omega)]
            exact .leaf v f (by omega) hv.symm hj hw hf hbit
    · cases ht

/-- What a process reads in a page of its own part of the address space. -/
theorem userLoad_leaf {v : UPage} (h : VmInv L k g) (hpt : (k.proc p).pagetable ≠ 0)
    (hlo : 16 ≤ v.val) (hi : i < PGSIZE) :
    k.userLoad p (v * PGSIZE + i) = (g.tgt (p, .leaf v)).map fun n => k.phys.mem n i := by
  have hva : v * PGSIZE + i < 2 ^ 38 := by
    have hlt := v.isLt
    simp only [PGSIZE] at hi ⊢
    omega
  have hoff : (v * PGSIZE + i) % PGSIZE = i := by
    simp only [PGSIZE] at hi ⊢
    omega
  have hvpn : vpn (v * PGSIZE + i) = v := by
    have hlt := v.isLt
    simp only [vpn, PGSIZE] at hi ⊢
    omega
  have hpte : k.pte p (v * PGSIZE + i) = g.lf p v := by rw [h.pte hpt, hvpn]
  rw [Kern.userLoad]
  rcases (h.vm.slot p).leaf v hlo with ⟨hz, hn⟩ | ⟨n, f, ht, hw, hf⟩
  · have hno : k.translate p (v * PGSIZE + i) PTE_R = none := by
      rw [Kern.translate_pte, hpte, hz]
      exact if_neg fun hh => hh.2.1 (Nat.zero_and _)
    rw [hno, hn]
    rfl
  · have hsome : k.translate p (v * PGSIZE + i) PTE_R = some n := by
      rw [hw] at hpte
      rcases hf with rfl | rfl | rfl
      · exact Kern.translate_mkPte hva hpte (by decide) (by decide) (by decide) (by decide) (by decide)
      · exact Kern.translate_mkPte hva hpte (by decide) (by decide) (by decide) (by decide) (by decide)
      · exact Kern.translate_mkPte hva hpte (by decide) (by decide) (by decide) (by decide) (by decide)
    rw [hsome, ht, Option.map_some, Option.map_some, hoff]

/-- The data of a page that only one place of `p` refers to. -/
theorem setData (h : VmInv L k g) {x : SPos} (hx : g.tgt (p, x) = some n)
    (hno : ∀ y, x ≠ .node y) (hs : Sole g.tgt (p, x)) {m : Mem}
    (hm : ∀ j, j ≠ n → m j = k.phys.mem j) (hcow : CowOk m g p (k.proc p).cow) :
    VmInv L (k.setPhys (k.phys.setMem m)) g ∧
      SlotStep (· = p) k.phys g (k.phys.setMem m) g := by
  obtain ⟨hvm, hst⟩ := h.vm.setData hx hno hs hm
  refine ⟨h.step hvm hst (fun _ _ => rfl) ?_ fun _ => .inl, hst⟩
  rintro q rfl
  have hl := h.linked q
  exact ⟨hl.root, hl.ucode, hl.ustack, hl.kstack, hl.kern, hl.code, hl.above, hcow, hl.live,
    hl.mmap, hl.busy, hl.unused⟩

/-- A store of the process reaches its stack, or a page of its heap that no one else has. -/
theorem userStore (h : VmInv L k g) (hpt : (k.proc p).pagetable ≠ 0)
    (hidle : (k.proc p).cow = .idle) (hs : k.userStore p va b = some k') :
    ∃ n, Reaches g p (k.proc p) va PTE_W n ∧
      k' = k.setPhys (k.phys.setMem (k.phys.mem.poke (n * PGSIZE + va % PGSIZE) b)) ∧
      VmInv L k' g ∧ SlotStep (· = p) k.phys g k'.phys g := by
  rw [Kern.userStore, Option.map_eq_some_iff] at hs
  obtain ⟨n, ht, rfl⟩ := hs
  have hr := h.translate hpt (by decide) ht
  have hpg : (n * PGSIZE + va % PGSIZE) / PGSIZE = n := page_div n (Nat.mod_lt va (by decide))
  have hm (j : Nat) (hj : j ≠ n) :
      k.phys.mem.poke (n * PGSIZE + va % PGSIZE) b j = k.phys.mem j := by
    apply poke_of_ne
    rwa [hpg]
  have hcow : CowOk (k.phys.mem.poke (n * PGSIZE + va % PGSIZE) b) g p (k.proc p).cow := by
    have hc := (h.linked p).cow
    rw [hidle] at hc ⊢
    exact hc
  refine ⟨n, hr, rfl, ?_⟩
  cases hr with
  | code hv hn hf => exact absurd rfl hf
  | stack hv hn hf =>
    have hne : g.tgt (p, .ustack) = some n := by
      rw [(h.linked p).ustack, hn]
      apply ptr_of_ne
      intro hz
      have hun := mt (h.linked p).live fun hl => hl.2.1 hz
      exact hpt ((h.linked p).unused (not_not.1 hun)).1
    exact h.setData hne (fun _ => SPos.noConfusion) ((h.vm.slot p).own .ustack trivial) hm hcow
  | leaf v f hu hv ht hlf hk hf =>
    have hw : g.lf p v &&& PTE_W ≠ 0 := by
      rw [hlf, mkPte_and n (by omega) (by decide)]
      exact hf
    exact h.setData ht (fun _ => SPos.noConfusion) ((h.vm.slot p).write v hw) hm hcow

/-- A page in hand of a process that is in no copy-on-write fault. -/
structure InHand (L : Layout) (k : Kern) (g : Ghost) (p : Slot) (s : Phys) (g₁ : Ghost) (n : Nat) :
    Prop where
  vm : Vm L.kend s g₁
  st : SlotStep (· = p) k.phys g s g₁
  same : ∀ v, Same k.phys g s g₁ p v
  fresh : g₁.tgt (p, .fresh) = some n
  off : ∀ x, x ≠ .fresh → g₁.tgt (p, x) = g.tgt (p, x)
  lf : g₁.lf = g.lf
  lost : g₁.lost = g.lost
  sole : ∀ x, Sole g.tgt (p, x) → Sole g₁.tgt (p, x)
  taken : s.taken = k.phys.taken
  other : ∀ j, j ≠ n → s.mem j = k.phys.mem j
  sub : ∀ j ∈ g₁.fl, j ∈ g.fl
  was : n ∈ g.fl

/-- `kalloc` by a process that has no page in hand, with what it puts into the page. -/
theorem getPage (h : VmInv L k g) (hnone : g.tgt (p, .fresh) = none) (hn : k.phys.kalloc.1 ≠ 0)
    {m : Mem} (hm : ∀ j, j ≠ k.phys.kalloc.1 → m j = k.phys.mem j) :
    ∃ fl', InHand L k g p (k.phys.kalloc.2.setMem m)
      ((g.set (p, .fresh) (some k.phys.kalloc.1)).setFl fl') k.phys.kalloc.1 := by
  obtain ⟨fl', hfl, hvm, hst⟩ := h.vm.kallocAt SPos.plain_fresh hnone hn
  have hself : ((g.set (p, .fresh) (some k.phys.kalloc.1)).setFl fl').tgt (p, .fresh) =
      some k.phys.kalloc.1 := Function.update_self ..
  have hown := (hvm.slot p).own .fresh trivial
  have hfresh := h.vm.alloc.kalloc_fresh hn
  have hmem := k.phys.kalloc_mem
  obtain ⟨hvm', hst'⟩ := hvm.setData hself nofun hown (m := m) (by
    intro j hj
    rw [hmem]
    exact hm j hj)
  have hoff (x : SPos) (hx : x ≠ .fresh) :
      ((g.set (p, .fresh) (some k.phys.kalloc.1)).setFl fl').tgt (p, x) = g.tgt (p, x) :=
    Function.update_of_ne (fun he => hx (congrArg Prod.snd he)) _ _
  refine ⟨fl', hvm', hst.trans hst', fun v => ⟨hoff _ nofun, rfl, fun n hn' => ?_⟩, hself, hoff, rfl,
    rfl, fun x hx => hx.insert hfresh _, k.phys.kalloc_taken, hm, fun j hj => ?_,
    h.vm.alloc.kalloc_free hn⟩
  · apply hm
    rintro rfl
    exact hfresh _ hn'
  · rw [hfl]
    exact List.mem_cons_of_mem _ hj

theorem cow_idle {q : UProc} (h : q.cow = .idle) : { q with cow := .idle } = q := by
  rw [← h]

/-- A `kalloc` without a page. -/
theorem noPage (h : VmInv L k g) (hz : k.phys.kalloc.1 = 0) :
    VmInv L (k.setPhys k.phys.kalloc.2) g ∧ SlotStep (· = p) k.phys g k.phys.kalloc.2 g ∧
      k.phys.kalloc.2.failed = true ∧ ∀ v, Same k.phys g k.phys.kalloc.2 g p v := by
  rw [Phys.kalloc_zero hz]
  have ha := h.vm.alloc
  have hst : SlotStep (· = p) k.phys g { k.phys with failed := true } g :=
    ⟨fun _ _ _ => rfl, fun _ _ => rfl, fun _ hn => hn, fun _ _ _ _ _ => rfl, fun _ => rfl⟩
  refine ⟨⟨⟨⟨ha.kernel, ha.bal, ha.chain, ha.cnt⟩, h.vm.lost, h.vm.slot⟩, h.linked, h.taken⟩, hst,
    rfl, fun v => ⟨rfl, rfl, fun _ _ => rfl⟩⟩

/-- The page in hand is given back. -/
theorem giveBack (h : VmInv L k g) (hpt : (k.proc p).pagetable ≠ 0)
    (hidle : (k.proc p).cow = .idle) {s : Phys} {g₁ : Ghost} (hh : InHand L k g p s g₁ n)
    {s₂ : Phys} {tgt' : Pos → Option Nat} {fl' : List Nat}
    (hvm : Vm L.kend s₂ { g₁ with tgt := tgt', fl := fl' })
    (hst : SlotStep (· = p) s g₁ s₂ { g₁ with tgt := tgt', fl := fl' })
    (hg : Grown (nd p) s g₁.tgt g₁.fl s₂ tgt' fl') :
    ∃ g', VmInv L (k.setPhys (s₂.kfree n)) g' ∧
      SlotStep (· = p) k.phys g (s₂.kfree n) g' ∧ g'.lost = g.lost ∧
      ∀ u, Same k.phys g (s₂.kfree n) g' p u := by
  have hoff (x : SPos) (hx : ∀ y, x ≠ .node y) : tgt' (p, x) = g₁.tgt (p, x) :=
    hg.off _ (ne_nd hx)
  have hfresh : tgt' (p, .fresh) = some n := (hoff .fresh nofun).trans hh.fresh
  obtain ⟨fl₂, hvm', hst', hfr⟩ := hvm.kfreeAt SPos.plain_fresh hfresh
  have hall := (hh.st.trans hst).trans hst'
  have hsame (u : UPage) : Same k.phys g (s₂.kfree n)
      ((({ g₁ with tgt := tgt', fl := fl' } : Ghost).set (p, .fresh) none).setFl fl₂) p u := by
    have hleaf := Ghost.set_of_ne (p := p) (x := .fresh) (y := .leaf u)
      { g₁ with tgt := tgt', fl := fl' } none nofun
    refine ((hh.same u).trans (hh.vm.same_grown hg u)).trans ⟨hleaf, rfl, fun j hj => ?_⟩
    exact hfr.mem j (hvm'.alloc.bal.not_free (hleaf.trans hj))
  refine ⟨_, h.step hvm' hall (fun _ _ => rfl) ?_ ?_, hall, hh.lost, hsame⟩
  · rintro q rfl
    have hl := h.linked q
    have hc := hl.cow
    rw [hidle] at hc
    have hkeep (x : SPos) (hx : ∀ y, x ≠ .node y) (hf : x ≠ .fresh) :
        Function.update tgt' (q, .fresh) none (q, x) = g.tgt (q, x) := by
      rw [Function.update_of_ne fun he => hf (congrArg Prod.snd he), hoff x hx, hh.off x hf]
    have hroot : tgt' (nd q .root) = g.tgt (nd q .root) := by
      have hr := h.root hpt
      rw [hr]
      exact hg.keep _ _ ((hh.off (.node .root) nofun).trans hr)
    have hl' := hl.change (w := (s₂.kfree n).mem) (c := .idle)
      (e := ((({ g₁ with tgt := tgt', fl := fl' } : Ghost).set (q, .fresh) none).setFl fl₂))
      ((Function.update_of_ne (fun he => SPos.noConfusion (congrArg Prod.snd he)) _ _).trans hroot)
      (by rintro x (rfl | rfl | rfl) <;> exact hkeep _ nofun nofun)
      (fun v _ => by rw [← hh.lf]; rfl)
      (fun v hv => ((hh.vm.sole_grown hg (hh.sole _ (hl.above v hv)) (ne_nd nofun)).erase _))
      ⟨Function.update_self .., (hkeep .old nofun nofun).trans hc.2⟩ nofun
    rw [cow_idle hidle] at hl'
    exact hl'
  · intro t ht
    left
    have htk : (s₂.kfree n).taken = k.phys.taken := by
      rw [s₂.kfree_taken, hg.taken, hh.taken]
    exact htk ▸ ht

/-- The page in hand is mapped at `v`. -/
theorem putPage (h : VmInv L k g) (hpt : (k.proc p).pagetable ≠ 0)
    (hidle : (k.proc p).cow = .idle) {s : Phys} {g₁ : Ghost} (hh : InHand L k g p s g₁ n)
    {s₂ : Phys} {tgt' : Pos → Option Nat} {fl' : List Nat} {v : UPage} (hv : 16 ≤ v.val)
    (hg : Grown (nd p) s g₁.tgt g₁.fl s₂ tgt' fl') {g' : Ghost}
    (hg' : g' = ((({ g₁ with tgt := tgt', fl := fl' } : Ghost).set (p, .fresh) none).set
      (p, .leaf v) (some n)).setLf p (Function.update (g₁.lf p) v w))
    (hvm : Vm L.kend s₂ g') (hst : SlotStep (· = p) s g₁ s₂ g') :
    VmInv L (k.setPhys s₂) g' ∧ SlotStep (· = p) k.phys g s₂ g' ∧ g'.lost = g.lost ∧
      (∀ u, u ≠ v → Same k.phys g s₂ g' p u) ∧ g'.tgt (p, .leaf v) = some n ∧ g'.lf p v = w ∧
      s₂.mem n = s.mem n := by
  have hoff (x : SPos) (hx : ∀ y, x ≠ .node y) : tgt' (p, x) = g₁.tgt (p, x) :=
    hg.off _ (ne_nd hx)
  have hkeep (x : SPos) (hf : x ≠ .fresh) (hx : x ≠ .leaf v) : g'.tgt (p, x) = tgt' (p, x) := by
    rw [hg']
    simp [Ghost.set, Ghost.setLf, hf, hx]
  have hall := hh.st.trans hst
  have hlf (u : Nat) (hu : u ≠ v.val) : g'.lf p u = g.lf p u := by
    rw [hg', ← hh.lf]
    simp [Ghost.set, Ghost.setLf, hu]
  have hnf : n ∉ g₁.fl := hh.vm.alloc.bal.not_free hh.fresh
  have hnn (y : Node) : g₁.tgt (nd p y) ≠ some n := by
    intro hy
    cases (hh.vm.slot p).inslot _ _ n hh.fresh hy
  have hgone : ∀ z, Function.update tgt' (p, .fresh) none z ≠ some n :=
    (hh.vm.sole_grown hg ((hh.vm.slot p).own .fresh trivial) (ne_nd fun _ => SPos.noConfusion)).gone
      ((hoff .fresh fun _ => SPos.noConfusion).trans hh.fresh)
  refine ⟨h.step hvm hall (fun _ _ => rfl) ?_ ?_, hall, ?_, ?_, ?_, ?_, hg.mem n hnf hnn⟩
  · rintro q rfl
    have hl := h.linked q
    have hc := hl.cow
    rw [hidle] at hc
    have hroot : g'.tgt (nd q .root) = g.tgt (nd q .root) := by
      have hr := h.root hpt
      rw [hr, nd, hkeep (.node .root) SPos.noConfusion SPos.noConfusion]
      exact hg.keep _ _ ((hh.off (.node .root) SPos.noConfusion).trans hr)
    have hl' := hl.change (w := s₂.mem) (c := .idle) hroot
      (by
        rintro x hx
        have hne : (∀ y, x ≠ .node y) ∧ x ≠ .fresh ∧ x ≠ .leaf v := by
          rcases hx with rfl | rfl | rfl <;>
            exact ⟨fun _ => SPos.noConfusion, SPos.noConfusion, SPos.noConfusion⟩
        rw [hkeep x hne.2.1 hne.2.2, hoff x hne.1, hh.off x hne.2.1])
      (fun u hu => hlf u (by have := v.isLt; omega))
      (by
        intro u hu
        rw [hg']
        by_cases huv : u = v
        · rw [huv]
          exact .new hgone _
        · have hs := hh.vm.sole_grown hg (hh.sole _ (hl.above u hu)) (ne_nd fun _ => SPos.noConfusion)
          exact (hs.erase _).insert hgone _)
      (by
        refine ⟨?_, ?_⟩
        · rw [hg']
          simp [Ghost.set, Ghost.setLf]
        · rw [hkeep .old SPos.noConfusion SPos.noConfusion, hoff .old fun _ => SPos.noConfusion,
            hh.off .old SPos.noConfusion]
          exact hc.2) fun hne => absurd rfl hne
    rw [cow_idle hidle] at hl'
    exact hl'
  · intro t ht
    left
    have htk : s₂.taken = k.phys.taken := by
      rw [hg.taken, hh.taken]
    exact htk ▸ ht
  · rw [hg']
    exact hh.lost
  · intro u hu
    refine (hh.same u).trans ⟨?_, ?_, fun j hj => ?_⟩
    · rw [hkeep (.leaf u) SPos.noConfusion fun he => hu (SPos.leaf.inj he),
        hoff (.leaf u) fun _ => SPos.noConfusion]
    · rw [hlf u fun he => hu (Fin.ext he), ← hh.lf]
    · exact hg.mem j (hh.vm.alloc.bal.not_free hj) (hh.vm.leaf_not_node hj)
  · rw [hg']
    exact Function.update_self ..
  · rw [hg']
    simp [Ghost.set, Ghost.setLf]

/-- What a fault with a new page comes to: the page is mapped where nothing was, or nothing
changes. -/
def Filled (k : Kern) (g : Ghost) (p : Slot) (v : UPage) (data : Page) (f : Nat) (k' : Kern)
    (g' : Ghost) : Prop :=
  (k'.phys.failed = true ∨ g.lf p v ≠ 0) ∧ (∀ u, Same k.phys g k'.phys g' p u) ∨
    g.lf p v = 0 ∧ (∀ u, u ≠ v → Same k.phys g k'.phys g' p u) ∧
      ∃ n, g'.tgt (p, .leaf v) = some n ∧ g'.lf p v = mkPte n f ∧ k'.phys.mem n = data

theorem mapFresh_eq (k : Kern) (p : Slot) (a : Nat) (data : Page) (perm : Nat) :
    k.mapFresh p a data perm = (k.fillPage p a data perm).2 := by
  rw [Kern.mapFresh, Kern.fillPage]
  dsimp only
  split
  · rfl
  · split <;> rfl

/-- A new page for `v`: it is mapped where nothing was, or everything is as before. -/
theorem fillPage (h : VmInv L k g) (hpt : (k.proc p).pagetable ≠ 0)
    (hidle : (k.proc p).cow = .idle) {v : UPage} (hv : 16 ≤ v.val) (data : Page)
    (hf : perm ||| PTE_V = 19 ∨ perm ||| PTE_V = 23) :
    let w := k.fillPage p (v.val * PGSIZE) data perm
    ∃ g', VmInv L w.2 g' ∧ SlotStep (· = p) k.phys g w.2.phys g' ∧ g'.lost = g.lost ∧
      w.2.proc = k.proc ∧ k.phys.freecnt ≤ w.2.phys.freecnt + 3 ∧
      (w.1 = false ∧ (w.2.phys.failed = true ∧ w.2.phys.freecnt ≤ 1 ∨ g.lf p v ≠ 0) ∧
          (∀ u, Same k.phys g w.2.phys g' p u) ∨
        w.1 = true ∧ (g.lf p v = 0 ∧ w.2.phys.failed = k.phys.failed) ∧
        (∀ u, u ≠ v → Same k.phys g w.2.phys g' p u) ∧
          ∃ n, g'.tgt (p, .leaf v) = some n ∧ g'.lf p v = mkPte n (perm ||| PTE_V) ∧
            w.2.phys.mem n = data) := by
  have hc := (h.linked p).cow
  rw [hidle] at hc
  dsimp only
  by_cases hz : k.phys.kalloc.1 = 0
  · have he : k.fillPage p (v.val * PGSIZE) data perm = (false, k.setPhys k.phys.kalloc.2) := by
      rw [Kern.fillPage]
      exact if_pos hz
    rw [he]
    obtain ⟨hinv, hst, hfail, hsame⟩ := h.noPage (p := p) hz
    have hcnt : k.phys.kalloc.2.freecnt = k.phys.freecnt := by
      rw [Phys.kalloc_zero hz]
    have hzero : ¬ 0 < k.phys.freecnt := fun hpos => h.vm.alloc.kalloc_room hpos hz
    refine ⟨g, hinv, hst, rfl, rfl, ?_, .inl ⟨rfl, .inl ⟨hfail, ?_⟩, hsame⟩⟩
    · exact Nat.le_trans (Nat.le_of_eq hcnt.symm) (Nat.le_add_right _ _)
    · exact Nat.le_trans (Nat.le_of_eq hcnt) (by omega)
  · obtain ⟨fl₁, hh⟩ := h.getPage hc.1 hz (m := k.phys.mem.setPage k.phys.kalloc.1 data)
      fun j hj => k.phys.mem.setPage_of_ne _ hj
    have hmem : k.phys.kalloc.2.mem = k.phys.mem := k.phys.kalloc_mem
    have he : k.fillPage p (v.val * PGSIZE) data perm =
        let w := Phys.mapLoop (k.proc p).pagetable perm 0
          (k.phys.kalloc.2.setMem (k.phys.mem.setPage k.phys.kalloc.1 data)) (v.val * PGSIZE)
          k.phys.kalloc.1
        if w.1 then (true, k.setPhys w.2) else (false, k.setPhys (w.2.kfree k.phys.kalloc.1)) := by
      rw [Kern.fillPage]
      simp only
      rw [if_neg hz, Phys.uvmMap, hmem, Vm.mappages_one]
    rw [he]
    have hr : ((g.set (p, .fresh) (some k.phys.kalloc.1)).setFl fl₁).tgt (nd p .root) =
        some (k.proc p).pagetable :=
      (hh.off (.node .root) SPos.noConfusion).trans (h.root hpt)
    obtain ⟨g', hvm, hst, hcnt, hres⟩ := hh.vm.mapFresh hr hh.fresh hv (Vm.vpn_page v.lt) hf
    have hcnt₀ := k.phys.kalloc_freecnt hz
    dsimp only
    generalize Phys.mapLoop (k.proc p).pagetable perm 0
      (k.phys.kalloc.2.setMem (k.phys.mem.setPage k.phys.kalloc.1 data)) (v.val * PGSIZE)
      k.phys.kalloc.1 = w at hvm hst hcnt hres ⊢
    obtain ⟨ok, s₂⟩ := w
    have hcnt' : k.phys.freecnt ≤ s₂.freecnt + 3 := by
      have hle : k.phys.kalloc.2.freecnt ≤ s₂.freecnt + 2 := hcnt
      omega
    rcases hres with ⟨hok, ⟨hlf, hfd⟩, tgt', fl', hg, hg'⟩ | ⟨hno, hwhy, tgt', fl', hg, hg'⟩
    · cases hok
      obtain ⟨hinv, hall, hlost, hsame, ht, hw, hm⟩ := h.putPage hpt hidle hh hv hg hg' hvm hst
      have hfd' : s₂.failed = k.phys.failed := hfd.trans (k.phys.kalloc_failed hz)
      refine ⟨g', hinv, hall, hlost, rfl, hcnt', .inr ⟨rfl, ⟨hlf, hfd'⟩, hsame, _, ht, hw, ?_⟩⟩
      exact hm.trans (Mem.setPage_self ..)
    · cases hno
      have hnil := hvm.alloc.cnt
      rw [hg'] at hvm hst
      obtain ⟨g'', hinv, hall, hlost, hsame⟩ := h.giveBack hpt hidle hh hvm hst hg
      obtain ⟨hlo, hhi⟩ := s₂.kfree_freecnt k.phys.kalloc.1
      refine ⟨g'', hinv, hall, hlost, rfl, ?_, .inl ⟨rfl, ?_, hsame⟩⟩
      · exact Nat.le_trans hcnt' (Nat.add_le_add_right hlo 3)
      rcases hwhy with ⟨hfail, hfl⟩ | hne
      · rw [hfl] at hnil
        have hz₂ : s₂.freecnt = 0 := hnil
        rw [hz₂] at hhi
        exact .inl ⟨(s₂.kfree_failed _).trans hfail, hhi⟩
      · exact .inr hne

theorem mapFresh (h : VmInv L k g) (hpt : (k.proc p).pagetable ≠ 0)
    (hidle : (k.proc p).cow = .idle) {v : UPage} (hv : 16 ≤ v.val) (data : Page)
    (hf : perm ||| PTE_V = 19 ∨ perm ||| PTE_V = 23) :
    ∃ g', VmInv L (k.mapFresh p (v.val * PGSIZE) data perm) g' ∧
      SlotStep (· = p) k.phys g (k.mapFresh p (v.val * PGSIZE) data perm).phys g' ∧
      g'.lost = g.lost ∧ (k.mapFresh p (v.val * PGSIZE) data perm).proc = k.proc ∧
      Filled k g p v data (perm ||| PTE_V) (k.mapFresh p (v.val * PGSIZE) data perm) g' := by
  rw [mapFresh_eq]
  obtain ⟨g', hinv, hst, hlost, hproc, _, ⟨_, hwhy, hsame⟩ | ⟨_, ⟨hlf, _⟩, hres⟩⟩ :=
    h.fillPage hpt hidle hv data hf
  · exact ⟨g', hinv, hst, hlost, hproc, .inl ⟨hwhy.imp And.left id, hsame⟩⟩
  · exact ⟨g', hinv, hst, hlost, hproc, .inr ⟨hlf, hres⟩⟩

theorem cowEntry (h : VmInv L k g) (hpt : (k.proc p).pagetable ≠ 0)
    (he : k.phys.cowEntry (k.proc p).pagetable a = some (loc, old)) :
    ∃ v : UPage, 16 ≤ v.val ∧ vpn a = v.val ∧ g.tgt (p, .leaf v) = some old ∧
      g.lf p v = mkPte old 275 ∧ g.tgt (nd p (lowOf v)) = some loc.1 ∧ loc.2 = ix0 v := by
  have hpg : vpn (a / PGSIZE * PGSIZE) = vpn a := by
    simp only [vpn, PGSIZE]
    omega
  have hwalk := Phys.walk_holds (h.vm.slot p).holds (h.root hpt) (a / PGSIZE * PGSIZE)
  rw [hpg] at hwalk
  rw [Phys.cowEntry, hwalk] at he
  cases hl : g.tgt (nd p (.low (ix2 (vpn a)) (ix1 (vpn a)))) with
  | none =>
    simp only [hl, Option.map_none] at he
    cases he
  | some l =>
    have hword := (h.vm.slot p).holds.low (vpn a) l (vpn_lt a) hl
    simp only [hl, Option.map_some, hword] at he
    split at he
    · cases he
    · rename_i hok
      obtain ⟨hvalid, hcow⟩ := not_or.1 hok
      cases he
      have hzero (hz : g.lf p (vpn a) = 0) : False := by
        rw [hz] at hvalid
        exact hvalid (Nat.zero_and _)
      have hno {n f : Nat} (hlt : f < 1024) (hf : f &&& PTE_COW = 0)
          (hw : g.lf p (vpn a) = mkPte n f) : False := by
        rw [hw, mkPte_and n hlt (by decide)] at hcow
        exact hcow hf
      by_cases hlow : vpn a < 16
      · rcases (h.linked p).code _ hlow with hz | ⟨_, hw⟩ | ⟨_, hw⟩
        · exact (hzero hz).elim
        · exact (hno (by decide) (by decide) hw).elim
        · exact (hno (by decide) (by decide) hw).elim
      · by_cases hhigh : 0xC000 ≤ vpn a
        · have hkern := (h.linked p).kern hpt _ hhigh (vpn_lt a)
          rw [kernPte] at hkern
          split at hkern
          · exact (hno (by decide) (by decide) hkern).elim
          · split at hkern
            · exact (hno (by decide) (by decide) hkern).elim
            · split at hkern
              · exact (hno (by decide) (by decide) hkern).elim
              · exact (hzero hkern).elim
        · obtain ⟨v, hv⟩ : ∃ v : UPage, v.val = vpn a := ⟨⟨vpn a, by omega⟩, rfl⟩
          rw [← hv] at hzero hno hlow hl ⊢
          rcases (h.vm.slot p).leaf v (by omega) with ⟨hz, _⟩ | ⟨n, f, hn, hw, hf⟩
          · exact (hzero hz).elim
          · have hf' : f = 275 := by
              rcases hf with rfl | rfl | rfl
              · exact (hno (by decide) (by decide) hw).elim
              · exact (hno (by decide) (by decide) hw).elim
              · rfl
            subst hf'
            rw [hw, pte2pa_mkPte n (by decide)]
            exact ⟨v, by omega, rfl, hn, hw, hl, rfl⟩

/-- A copy-on-write fault has its copy, with the data that it has then. -/
theorem cowGot (h : VmInv L k g) (hrun : (k.proc p).state = .runnable)
    (hpt : (k.proc p).pagetable ≠ 0) (hidle : (k.proc p).cow = .idle)
    (he : k.phys.cowEntry (k.proc p).pagetable a = some (loc, old)) (hz : k.phys.kalloc.1 ≠ 0) :
    let k' := (k.setPhys k.phys.kalloc.2).setProc p
      { k.proc p with cow := .got a loc k.phys.kalloc.1 old }
    ∃ g', VmInv L k' g' ∧ SlotStep (· = p) k.phys g k'.phys g' ∧ g'.lost = g.lost ∧
      ∀ u, Same k.phys g k'.phys g' p u := by
  intro k'
  have hl := h.linked p
  have hc := hl.cow
  rw [hidle] at hc
  obtain ⟨fl₁, hh⟩ := h.getPage hc.1 hz (m := k.phys.mem) fun _ _ => rfl
  have hmem : k.phys.kalloc.2.setMem k.phys.mem = k.phys.kalloc.2 := by
    rw [← k.phys.kalloc_mem]
    rfl
  rw [hmem] at hh
  obtain ⟨v, hv, hva, ht, hw, hn, hi⟩ := h.cowEntry hpt he
  refine ⟨_, h.step hh.vm hh.st ?_ ?_ ?_, hh.st, rfl, hh.same⟩
  · intro q hq
    exact Kern.setProc_of_ne _ _ hq
  · rintro q rfl
    have hq : k'.proc q = { k.proc q with cow := .got a loc k.phys.kalloc.1 old } :=
      Kern.setProc_self ..
    rw [hq]
    refine hl.change (hh.off (.node .root) nofun) ?_ (fun _ _ => rfl)
      (fun u hu => hh.sole _ (hl.above u hu)) ⟨v, hv, hva, ?_, hw, ?_, hi, hh.fresh, ?_⟩ fun _ => hrun
    · rintro x (rfl | rfl | rfl) <;> exact hh.off _ nofun
    · exact (hh.off (.leaf v) nofun).trans ht
    · exact (hh.off (.node (lowOf v)) nofun).trans hn
    · exact (hh.off .old nofun).trans hc.2
  · intro t htk
    exact .inl (hh.taken ▸ htk)

/-- The copy is filled. -/
theorem cowCopy (h : VmInv L k g) (hc : (k.proc p).cow = .got va loc fresh old) :
    let k' := (k.setPhys (k.phys.setMem (k.phys.mem.setPage fresh (k.phys.mem old)))).setProc p
      { k.proc p with cow := .copied va loc fresh old }
    VmInv L k' g ∧ SlotStep (· = p) k.phys g k'.phys g ∧ ∀ u, Same k.phys g k'.phys g p u := by
  intro k'
  have hl := h.linked p
  have hcow := hl.cow
  have hrun : (k.proc p).state = .runnable := hl.busy (by rw [hc]; nofun)
  rw [hc] at hcow
  obtain ⟨v, hv⟩ := hcow
  have hne : old ≠ fresh := by
    rintro rfl
    cases (h.vm.slot p).inslot _ _ old hv.leaf hv.fresh
  obtain ⟨hvm, hst⟩ := h.vm.setData hv.fresh nofun ((h.vm.slot p).own .fresh trivial)
    (m := k.phys.mem.setPage fresh (k.phys.mem old)) fun j hj => Mem.setPage_of_ne _ _ hj
  refine ⟨h.step hvm hst ?_ ?_ fun _ => .inl, hst, fun u => ⟨rfl, rfl, fun n hn => ?_⟩⟩
  · intro q hq
    exact Kern.setProc_of_ne _ _ hq
  · rintro q rfl
    have hq : k'.proc q = { k.proc q with cow := .copied va loc fresh old } := Kern.setProc_self ..
    rw [hq]
    refine hl.change rfl (fun _ _ => rfl) (fun _ _ => rfl) hl.above ⟨⟨v, hv⟩, ?_⟩ fun _ => hrun
    have hm : k'.phys.mem = k.phys.mem.setPage fresh (k.phys.mem old) := rfl
    rw [hm, Mem.setPage_self, Mem.setPage_of_ne _ _ hne]
  · apply Mem.setPage_of_ne
    rintro rfl
    cases (h.vm.slot p).inslot _ _ n hn hv.fresh

/-- The copy takes the place of the shared page, with the same data. -/
theorem cowMap (h : VmInv L k g) (hc : (k.proc p).cow = .copied va loc fresh old) :
    let k' := (k.setPhys (k.phys.cowRemap loc fresh)).setProc p
      { k.proc p with cow := .mapped va old }
    ∃ g', VmInv L k' g' ∧ SlotStep (· = p) k.phys g k'.phys g' ∧ g'.lost = g.lost ∧
      ∃ v, CowEntry g p va loc fresh old v ∧ (∀ u, u ≠ v → Same k.phys g k'.phys g' p u) ∧
        g'.tgt (p, .leaf v) = some fresh ∧ k'.phys.mem fresh = k.phys.mem old ∧
        g'.lf p v = mkPte fresh 23 := by
  intro k'
  have hl := h.linked p
  have hcow := hl.cow
  have hrun : (k.proc p).state = .runnable := hl.busy (by rw [hc]; exact Cow.noConfusion)
  rw [hc] at hcow
  obtain ⟨⟨v, hv⟩, hdata⟩ := hcow
  obtain ⟨l, i⟩ := loc
  obtain rfl : i = ix0 v := hv.index
  have hre := h.vm.cowRemap hv.node hv.entry fresh
  obtain ⟨hvm, hst, hsole⟩ := h.vm.cowLeaf hv.node hv.fresh hv.leaf hv.user hv.old
  rw [← hre] at hvm hst
  have hnode (n : Nat) (x : SPos) (hx : g.tgt (p, x) = some n) (hno : ∀ y, x ≠ .node y) :
      (k.phys.cowRemap (l, (ix0 v : Nat)) fresh).mem n = k.phys.mem n := by
    rw [hre]
    apply Mem.setWord_of_ne
    rintro rfl
    exact hno _ ((h.vm.slot p).inslot _ _ n hx hv.node)
  refine ⟨_, h.step hvm hst ?_ ?_ fun t ht => ?_, hst, rfl, v, hv, ?_, ?_, ?_, ?_⟩
  · intro q hq
    exact Kern.setProc_of_ne _ _ hq
  · rintro q rfl
    have hq : k'.proc q = { k.proc q with cow := .mapped va old } := Kern.setProc_self ..
    rw [hq]
    refine hl.change ?_ ?_ ?_ ?_ ⟨?_, ?_, ?_⟩ fun _ => hrun
    · simp [Ghost.set, Ghost.setLf, nd]
    · rintro x (rfl | rfl | rfl) <;> simp [Ghost.set, Ghost.setLf]
    · intro u hu
      have hne : u ≠ v.val := by
        have := v.isLt
        have := hv.user
        omega
      simp [Ghost.setLf, hne]
    · intro u hu
      by_cases huv : u = v
      · rw [huv]
        apply (hvm.slot q).write v
        have hw : mkPte fresh 23 &&& PTE_W ≠ 0 := by
          rw [mkPte_and fresh (by decide) (by decide)]
          decide
        simpa [Ghost.setLf] using hw
      · exact hsole u huv (hl.above u hu)
    · simp [Ghost.set, Ghost.setLf]
    · simp [Ghost.set, Ghost.setLf]
    · rw [hv.page]
      exact v.isLt
  · left
    have htk : k'.phys.taken = k.phys.taken := by
      have hk : k'.phys = k.phys.cowRemap (l, (ix0 v : Nat)) fresh := rfl
      rw [hk, hre]
      rfl
    exact htk ▸ ht
  · intro u hu
    refine ⟨?_, ?_, fun n hn => hnode n _ hn fun _ => SPos.noConfusion⟩
    · simp [Ghost.set, Ghost.setLf, hu]
    · have hne : u.val ≠ v.val := fun he => hu (Fin.ext he)
      simp [Ghost.setLf, hne]
  · simp [Ghost.set, Ghost.setLf]
  · exact (hnode fresh _ hv.fresh fun _ => SPos.noConfusion).trans hdata
  · simp [Ghost.setLf]

/-- The shared page is given back. -/
theorem cowFree (h : VmInv L k g) (hc : (k.proc p).cow = .mapped va old) :
    let k' := (k.setPhys ((k.phys.kfree old).take va)).setProc p { k.proc p with cow := .idle }
    ∃ g', VmInv L k' g' ∧ SlotStep (· = p) k.phys g k'.phys g' ∧ g'.lost = g.lost ∧
      ∀ u, Same k.phys g k'.phys g' p u := by
  intro k'
  have hl := h.linked p
  have hcow := hl.cow
  rw [hc] at hcow
  obtain ⟨hfresh, hold, hva⟩ := hcow
  obtain ⟨fl', hvm, hst, hfr⟩ := h.vm.kfreeAt SPos.plain_old hold
  have ha := hvm.alloc
  have hvm' : Vm L.kend k'.phys ((g.set (p, .old) none).setFl fl') :=
    ⟨⟨ha.kernel, ha.bal, ha.chain, ha.cnt⟩, hvm.lost, hvm.slot⟩
  have hst' : SlotStep (· = p) k.phys g k'.phys ((g.set (p, .old) none).setFl fl') :=
    ⟨hst.tgt, hst.lf, hst.own, hst.mem, hst.failed⟩
  refine ⟨_, h.step hvm' hst' ?_ ?_ fun t ht => ?_, hst', rfl, fun u => ?_⟩
  · intro q hq
    exact Kern.setProc_of_ne _ _ hq
  · rintro q rfl
    have hq : k'.proc q = { k.proc q with cow := .idle } := Kern.setProc_self ..
    rw [hq]
    refine hl.change ?_ ?_ (fun _ _ => rfl) ?_ ⟨?_, ?_⟩ nofun
    · simp [Ghost.set, Ghost.setFl, nd]
    · rintro x (rfl | rfl | rfl) <;> simp [Ghost.set, Ghost.setFl]
    · intro u hu
      exact (hl.above u hu).erase _
    · simpa [Ghost.set, Ghost.setFl] using hfresh
    · simp [Ghost.set, Ghost.setFl]
  · rcases List.mem_cons.1 ht with rfl | ht
    · exact .inr hva
    · left
      rw [← k.phys.kfree_taken old]
      exact ht
  · have hleaf : ((g.set (p, .old) none).setFl fl').tgt (p, .leaf u) = g.tgt (p, .leaf u) := by
      simp [Ghost.set, Ghost.setFl]
    refine ⟨hleaf, rfl, fun n hn => ?_⟩
    exact hfr.mem n (hvm.alloc.bal.not_free (hleaf.trans hn))

end VmInv

end KernelHobby
