import KernelHobby.TabInv
import KernelHobby.VmBoot

namespace KernelHobby
set_option autoImplicit true

namespace Vm
variable {s s' : Phys} {g g' : Ghost} {p q c : Slot} {v : UPage}

/-- What a round of `uvm_cow_share` keeps of two tables. -/
structure Shares (kend : Nat) (p c : Slot) (s : Phys) (g : Ghost) (s' : Phys) (g' : Ghost) : Prop where
  vm : Vm kend s' g'
  st : SlotStep (Pair p c) s g s' g'
  kind : SameKind g'.tgt
  lost : g'.lost = g.lost
  parent : Kept g g' p
  child : Kept g g' c

theorem Shares.trans (h : Shares kend p c s g s' g') (h' : Shares kend p c s' g' s'' g'') :
    Shares kend p c s g s'' g'' :=
  ⟨h'.vm, h.st.trans h'.st, h'.kind, h'.lost.trans h.lost, h.parent.trans h'.parent,
    h.child.trans h'.child⟩

theorem Shares.refl (h : Vm kend s g) (hk : SameKind g.tgt) : Shares kend p c s g s g :=
  ⟨h, .refl .., hk, rfl, .refl g p, .refl g c⟩

/-- The child's table gets more nodes. -/
theorem shares_grown (hpc : p ≠ c) (hk : SameKind g.tgt) (hr : g.tgt (nd c .root) = some r)
    (hg : Grown (nd c) s g.tgt g.fl s' tgt' fl')
    (hvm : Vm kend s' { g with tgt := tgt', fl := fl' })
    (st : SlotStep (Pair p c) s g s' { g with tgt := tgt', fl := fl' }) :
    Shares kend p c s g s' { g with tgt := tgt', fl := fl' } where
  vm := hvm
  st := st
  kind := hvm.kind_grown hk hg
  lost := rfl
  parent :=
    have hoff (x : SPos) : tgt' (p, x) = g.tgt (p, x) := hg.off _ fun _ he =>
      hpc (congrArg Prod.fst he)
    ⟨fun x _ => hoff x, hoff _, fun _ _ => rfl⟩
  child := kept_grown hr hg

/-- The page at `v` of the parent, which is read-only, gets into the child if there is room. -/
theorem giveChild (h : Vm kend s g) (hk : SameKind g.tgt) (hpc : p ≠ c)
    (hr : g.tgt (nd c .root) = some r) (hn : g.tgt (p, .leaf v) = some n) (hv : 16 ≤ v.val)
    (hlf : g.lf p v = mkPte n f) (hf : f = 19 ∨ f = 275) :
    let w := Phys.mapLoop r f 0 s (v.val * PGSIZE) n
    ∃ s' g', Shares kend p c s g s' g' ∧ (w.1 = true ∧ s' = (w.2.krefInc n).take (v.val * PGSIZE) ∨
      w.1 = false ∧ s' = w.2) := by
  intro w
  have hva : vpn (v.val * PGSIZE) = v.val := vpn_page v.lt
  cases hfree : g.tgt (c, .leaf v) with
  | none =>
    have hnone (x : SPos) : g.tgt (c, x) ≠ some n := by
      intro hx
      have he := hk c p x _ n hx hn
      rw [he, hfree] at hx
      cases hx
    obtain ⟨tgt', fl', hg, _, ⟨hok, _, hvm, st⟩ | ⟨hno, _, hvm, st⟩⟩ :=
      h.shareOne hpc hr hn hv hlf hf hnone hfree hva
    · have hoffp (x : SPos) : tgt' (p, x) = g.tgt (p, x) := hg.off _ fun _ he =>
        hpc (congrArg Prod.fst he)
      have hneP (x : SPos) : (p, x) ≠ (c, .leaf v) := fun he => hpc (congrArg Prod.fst he)
      refine ⟨_, _, ⟨hvm, st, ?_, rfl, ⟨fun x _ => ?_, ?_, fun t _ => ?_⟩,
        ⟨fun x hx => ?_, ?_, fun t ht => ?_⟩⟩, .inl ⟨hok, rfl⟩⟩
      · refine hvm.sameKind hk fun q x j ho hx => .inl ?_
        rcases update_some_some hx with hx | ⟨hl, rfl⟩
        · refine ⟨q, ?_⟩
          rw [← hx]
          refine (hg.off _ fun y he => ho ?_).symm
          obtain rfl : x = .node y := congrArg Prod.snd he
          trivial
        · obtain rfl : x = .leaf v := congrArg Prod.snd hl
          exact ⟨p, hn⟩
      · exact (Function.update_of_ne (hneP x) _ _).trans (hoffp x)
      · exact (Function.update_of_ne (hneP _) _ _).trans (hoffp _)
      · simp [Ghost.setLf, Ghost.set, hpc]
      · have hne : (c, x) ≠ (c, .leaf v) := fun he => hx.2 v (congrArg Prod.snd he)
        exact (Function.update_of_ne hne _ _).trans (hg.off _ (ne_nd hx.1))
      · have hne : nd c .root ≠ (c, .leaf v) := fun he => SPos.noConfusion (congrArg Prod.snd he)
        exact (Function.update_of_ne hne _ _).trans ((hg.keep _ _ hr).trans hr.symm)
      · have hne : t ≠ v.val := by
          have hlt := v.isLt
          simp only [Outer] at ht
          omega
        simp [Ghost.setLf, Ghost.set, hne]
    · exact ⟨_, _, shares_grown hpc hk hr hg hvm st, .inr ⟨hno, rfl⟩⟩
  | some j =>
    -- the child has a page there already, and `mappages` refuses
    have hc := h.slot c
    obtain ⟨f', hlfc, hf'⟩ : ∃ f', g.lf c v = mkPte j f' ∧ (f' = 19 ∨ f' = 23 ∨ f' = 275) := by
      rcases hc.leaf v hv with ⟨_, hz⟩ | ⟨i, f', hi, hw, hf'⟩
      · rw [hfree] at hz
        cases hz
      · rw [hfree] at hi
        cases hi
        exact ⟨f', hw, hf'⟩
    obtain ⟨tgt', fl', hg, _, ⟨_, ⟨hz, _⟩, _⟩ | ⟨hno, _, ht⟩⟩ := (h.tab c).mapOne hr
      (h.alloc.bal.target _ n hn).2 (show f ||| PTE_V < 1024 by rcases hf with rfl | rfl <;> decide)
      (v.val * PGSIZE)
    · rw [hva, hlfc] at hz
      exact absurd hz (flag_valid hf' j)
    · have hvm := h.grown hg ht hc.leaf hc.write
      have st := h.slotStep_grown hg (g.lf c)
      rw [Function.update_eq_self] at hvm st
      exact ⟨_, _, shares_grown hpc hk hr hg hvm (st.mono fun q hq => .inr hq), .inr ⟨hno, rfl⟩⟩

/-- One round of `uvm_cow_share` between any two tables. -/
theorem shareRound (h : Vm kend s g) (hk : SameKind g.tgt) (hpc : p ≠ c)
    (hrp : g.tgt (nd p .root) = some rp) (hrc : g.tgt (nd c .root) = some rc) (hv : 16 ≤ v.val) :
    ∃ s' g', Shares kend p c s g s' g' ∧
      ((∀ k, Phys.shareLoop rp rc (k + 1) s (v.val * PGSIZE) =
          Phys.shareLoop rp rc k s' ((v.val + 1) * PGSIZE)) ∨
        ∀ k, Phys.shareLoop rp rc (k + 1) s (v.val * PGSIZE) = s') := by
  rcases h.entry_cases (p := p) hv with ⟨hz, _⟩ | ⟨n, f, l, hlf, hf, ht, hl⟩
  · exact ⟨s, g, .refl h hk, .inl (h.shareLoop_skip hrp hz rc)⟩
  · by_cases hw : f = 23
    · subst hw
      obtain ⟨h₁, st₁⟩ := h.setCow hl ht
      have hlf₁ : (g.setLf p (Function.update (g.lf p) v (mkPte n 275))).lf p v = mkPte n 275 := by
        simp [Ghost.setLf]
      have sh₁ : Shares kend p c s g (s.setMem (s.mem.setWord l (ix0 v) (mkPte n 275)))
          (g.setLf p (Function.update (g.lf p) v (mkPte n 275))) := by
        refine ⟨h₁, st₁.mono fun q hq => .inl hq, hk, rfl, ⟨fun _ _ => rfl, rfl, fun t ht => ?_⟩,
          ⟨fun _ _ => rfl, rfl, fun t _ => ?_⟩⟩
        · have hne : t ≠ v.val := by
            have hlt := v.isLt
            simp only [Outer] at ht
            omega
          simp [Ghost.setLf, hne]
        · simp [Ghost.setLf, hpc.symm]
      obtain ⟨s', g', sh, hres⟩ := h₁.giveChild hk hpc hrc ht hv hlf₁ (.inr rfl)
      have hgoes := share_result (fun _ => True) (fun s => (s.krefInc n).take (v.val * PGSIZE))
        (fun k s => Phys.shareLoop rp rc k s ((v.val + 1) * PGSIZE))
        (h.shareLoop_write hrp hl hlf rc) (hres.imp_right fun hno => ⟨hno.1, trivial, hno.2⟩)
      exact ⟨s', g', sh₁.trans sh, hgoes.imp_right And.right⟩
    · have hf' : f = 19 ∨ f = 275 := by omega
      obtain ⟨s', g', sh, hres⟩ := h.giveChild hk hpc hrc ht hv hlf hf'
      have hgoes := share_result (fun _ => True) (fun s => (s.krefInc n).take (v.val * PGSIZE))
        (fun k s => Phys.shareLoop rp rc k s ((v.val + 1) * PGSIZE))
        (h.shareLoop_read hrp hl hlf hf' rc) (hres.imp_right fun hno => ⟨hno.1, trivial, hno.2⟩)
      exact ⟨s', g', sh, hgoes.imp_right And.right⟩

/-- `uvm_cow_share` over `k` user pages from page `v` on. -/
theorem shareRounds {v : Nat} (h : Vm kend s g) (hk : SameKind g.tgt) (hpc : p ≠ c)
    (hrp : g.tgt (nd p .root) = some rp) (hrc : g.tgt (nd c .root) = some rc) (hlo : 16 ≤ v)
    (hhi : v + k ≤ 0xC000) :
    ∃ g', Shares kend p c s g (Phys.shareLoop rp rc k s (v * PGSIZE)) g' := by
  induction k generalizing s g v with
  | zero => exact ⟨g, .refl h hk⟩
  | succ k ih =>
    obtain ⟨w, rfl⟩ : ∃ w : UPage, w.val = v := ⟨⟨v, by omega⟩, rfl⟩
    obtain ⟨s₁, g₁, sh₁, hgo | hstop⟩ := h.shareRound hk hpc hrp hrc hlo
    · obtain ⟨g₂, sh₂⟩ := ih (v := w.val + 1) sh₁.vm sh₁.kind (sh₁.parent.root.trans hrp)
        (sh₁.child.root.trans hrc) (by omega) (by omega)
      rw [hgo]
      exact ⟨g₂, sh₁.trans sh₂⟩
    · rw [hstop]
      exact ⟨g₁, sh₁⟩

end Vm

namespace TabInv
variable {L : Layout} {k k' : Tabs} {s : Phys} {g g' : Ghost} {p c : Slot}

/-- `uvm_cow_share` of user pages. -/
theorem cowShare (h : TabInv L k g) (hp : (k.tab p).pagetable ≠ 0) (hc : (k.tab c).pagetable ≠ 0)
    (hpc : p ≠ c) (hu : UserRange v stop) :
    ∃ g', TabInv L (k.setPhys (k.phys.uvmCowShare (k.tab p).pagetable (k.tab c).pagetable
      (v * PGSIZE) stop)) g' := by
  obtain ⟨hlo, hhi⟩ := hu
  have hv : 16 ≤ v := by
    simp only [HEAPBASE, PGSIZE] at hlo
    omega
  rw [Phys.uvmCowShare]
  by_cases hin : v + Phys.pages (v * PGSIZE) stop ≤ 0xC000
  · obtain ⟨g', sh⟩ := h.vm.shareRounds h.kind hpc (h.root hp) (h.root hc) hv hin
    have hle (n : Nat) : g.lost n ≤ g'.lost n := Nat.le_of_eq (congrFun sh.lost n).symm
    refine ⟨g', h.step sh.vm sh.st sh.kind hle (fun _ _ => rfl) ?_⟩
    rintro q (rfl | rfl)
    · exact (h.slot q).kept sh.parent hle
    · exact (h.slot q).kept sh.child hle
  · have hz : Phys.pages (v * PGSIZE) stop = 0 := by
      simp only [Phys.pages, PGSIZE, PLIC] at hin hhi ⊢
      omega
    rw [hz]
    exact ⟨g, h⟩

theorem outer_cow (h : OuterOk g p v w) : w &&& PTE_COW = 0 := by
  obtain rfl | ⟨n, f, rfl, hf⟩ := h.flags
  · exact Nat.zero_and _
  · rw [mkPte_and n (by omega) (by decide)]
    rcases hf with rfl | rfl | rfl | rfl | rfl <;> decide

/-- Only pages of the heap and of mapped files are shared for copy on write. -/
theorem cowEntry (h : TabInv L k g) (hpt : (k.tab p).pagetable ≠ 0)
    (he : k.phys.cowEntry (k.tab p).pagetable va = some (loc, old)) :
    ∃ v : UPage, 16 ≤ v.val ∧ g.tgt (p, .leaf v) = some old ∧ g.lf p v = mkPte old 275 ∧
      g.tgt (nd p (lowOf v)) = some loc.1 ∧ loc.2 = ix0 v := by
  rw [Phys.cowEntry, k.phys.walk_holds (h.vm.slot p).holds (h.root hpt)] at he
  set a := va / PGSIZE * PGSIZE
  cases hl : g.tgt (nd p (.low (ix2 (vpn a)) (ix1 (vpn a)))) with
  | none =>
    rw [hl] at he
    cases he
  | some l =>
    rw [hl] at he
    have hword := (h.vm.slot p).holds.low (vpn a) l (vpn_lt a) hl
    simp only [Option.map_some] at he
    rw [hword] at he
    split at he
    · cases he
    · rename_i hbits
      rw [not_or] at hbits
      obtain ⟨rfl, rfl⟩ := Prod.mk.inj (Option.some.inj he)
      by_cases hout : Outer (vpn a)
      · exact absurd (outer_cow ((h.slot p).outer _ hout)) hbits.2
      · have hva := vpn_lt a
        have hin : 16 ≤ vpn a ∧ vpn a < 0xC000 := by
          simp only [Outer] at hout
          omega
        have hleaf := (h.vm.slot p).leaf ⟨vpn a, hin.2⟩ hin.1
        rcases hleaf with ⟨hz, _⟩ | ⟨n, f, hn, hw, hf⟩
        · exact absurd (by rw [hz]; rfl) hbits.1
        · have hlt : f < 1024 := by omega
          have hcow := hbits.2
          rw [hw, mkPte_and n hlt (by decide)] at hcow
          have hf' : f = 275 := by
            rcases hf with rfl | rfl | rfl
            · exact absurd rfl hcow
            · exact absurd rfl hcow
            · rfl
          refine ⟨⟨vpn a, hin.2⟩, hin.1, ?_, ?_, hl, rfl⟩
          · rw [hn, hw, pte2pa_mkPte n hlt]
          · rw [hw, pte2pa_mkPte n hlt, hf']

/-- `uvm_cow_fault` at any address. -/
theorem cowFault (h : TabInv L k g) (hpt : (k.tab p).pagetable ≠ 0) (va : Nat) :
    ∃ g', TabInv L (k.setPhys (k.phys.uvmCowFault (k.tab p).pagetable va).2) g' := by
  rw [Phys.uvmCowFault]
  cases he : k.phys.cowEntry (k.tab p).pagetable va with
  | none => exact ⟨g, h⟩
  | some e =>
    obtain ⟨⟨l, i⟩, old⟩ := e
    obtain ⟨v, hv, hleaf, hlf, hl, hi⟩ := h.cowEntry hpt he
    dsimp only at hl hi
    subst hi
    by_cases hz : k.phys.kalloc.1 = 0
    · simp only [hz, if_true]
      obtain ⟨hvm, st⟩ := h.vm.noPage (p := p) hz
      exact ⟨g, h.stepKept hvm st h.kind (fun _ => Nat.le_refl _) (.refl g p)⟩
    · simp only [hz, if_false]
      have hs := h.slot p
      obtain ⟨fl₁, h₁, st₁⟩ := h.hold p hz (k.phys.kalloc.2.mem old)
      have hoff {x : SPos} (hx : x ≠ .fresh) :
          ((g.set (p, .fresh) (some k.phys.kalloc.1)).setFl fl₁).tgt (p, x) = g.tgt (p, x) :=
        g.set_of_ne _ hx
      obtain ⟨h₂, st₂, _⟩ := h₁.cowLeaf ((hoff SPos.noConfusion).trans hl) (g.set_self ..)
        ((hoff SPos.noConfusion).trans hleaf) hv ((hoff SPos.noConfusion).trans hs.old)
      rw [← h₁.cowRemap ((hoff SPos.noConfusion).trans hl) hlf] at h₂ st₂
      obtain ⟨fl₃, h₃, st₃, _⟩ := h₂.kfreeAt (p := p) (n := old) SPos.plain_old (by
        simp [Ghost.set, Ghost.setLf])
      have st := (st₁.trans st₂).trans st₃
      have hw : mkPte k.phys.kalloc.1 23 &&& PTE_W ≠ 0 := by
        rw [mkPte_and _ (by decide) (by decide)]
        decide
      refine ⟨_, h.stepKept (h₃.take va) ⟨st.tgt, st.lf, st.own, st.mem, st.failed⟩
        (h₃.sameKind h.kind fun q x j ho hx => ?_) (fun _ => Nat.le_refl _)
        ⟨fun x hx => ?_, ?_, fun t ht => ?_⟩⟩
      · by_cases hq : (q, x) = (p, .leaf v)
        · -- only the copy's own entry refers to it
          obtain ⟨rfl, rfl⟩ := Prod.mk.inj hq
          refine .inr ((h₃.slot q).write v ?_)
          simpa [Ghost.set, Ghost.setLf, Ghost.setFl] using hw
        · have hx₁ := update_none_some hx
          rcases update_some_some hx₁ with hx₂ | ⟨hl', _⟩
          · rcases update_some_some (update_none_some hx₂) with hx₃ | ⟨ho', _⟩
            · have hx₄ := update_none_some hx₃
              rcases update_some_some hx₄ with hx₅ | ⟨hf', _⟩
              · exact .inl ⟨q, hx₅⟩
              · obtain rfl : x = .fresh := congrArg Prod.snd hf'
                exact absurd trivial ho
            · rw [ho'] at hx
              simp [Ghost.set, Ghost.setFl] at hx
          · exact absurd hl' hq
      · have hnl : x ≠ .leaf v := hx.2 v
        by_cases hxo : x = .old
        · subst hxo
          rw [hs.old]
          exact Function.update_self ..
        · by_cases hxf : x = .fresh
          · subst hxf
            rw [hs.fresh]
            simp [Ghost.set, Ghost.setLf, Ghost.setFl]
          · simp [Ghost.set, Ghost.setLf, Ghost.setFl, hnl, hxo, hxf]
      · simp [Ghost.set, Ghost.setLf, Ghost.setFl, nd]
      · have hne : t ≠ v.val := by
          have hlt := v.isLt
          simp only [Outer] at ht
          omega
        simp [Ghost.set, Ghost.setLf, Ghost.setFl, hne]

/-- `remap_user_code` to a new page, and the old one is given back. -/
theorem remap (h : TabInv L k g) (hpt : (k.tab p).pagetable ≠ 0) (hz : k.phys.kalloc.1 ≠ 0)
    (code : Page) :
    let n := k.phys.kalloc.1
    let s := (k.phys.kalloc.2.setMem (k.phys.kalloc.2.mem.setPage n code)).remapUserCode
      (k.tab p).pagetable n
    ∃ g', TabInv L ⟨Kern.kfreeField s (k.tab p).ucode,
      Function.update k.tab p { k.tab p with ucode := n }⟩ g' := by
  intro n s
  have hs := h.slot p
  have huc := hs.code hpt
  have hfree : Kern.kfreeField s (k.tab p).ucode = s.kfree (k.tab p).ucode := if_pos huc
  rw [hfree]
  obtain ⟨fl₁, h₁, st₁⟩ := h.hold p hz code
  have hoff₁ (x : SPos) (hx : x ≠ .fresh) :
      ((g.set (p, .fresh) (some n)).setFl fl₁).tgt (p, x) = g.tgt (p, x) := g.set_of_ne _ hx
  obtain ⟨g', h₂, st₂, sw⟩ := h₁.swapCode
    ((hoff₁ (.node .root) SPos.noConfusion).trans (h.root hpt))
    ((hoff₁ .ucode SPos.noConfusion).trans (hs.ucode.trans (ptr_of_ne huc))) (g.set_self ..)
    (h.vm.alloc.kalloc_lt hz)
  have hoff (x : SPos) (hu : x ≠ .ucode) (hf : x ≠ .fresh) : g'.tgt (p, x) = g.tgt (p, x) :=
    (sw.off x hu hf).trans (hoff₁ x hf)
  have hlost (j : Nat) : g.lost j ≤ g'.lost j := Nat.le_of_eq (congrFun sw.lost j).symm
  refine ⟨g', h.step h₂ (st₁.trans st₂) (h₂.sameKind h.kind fun q x j ho hx => ?_) hlost
    (fun q hq => Function.update_of_ne hq _ _) fun q hq => ?_⟩
  · by_cases hq : q = p
    · subst hq
      by_cases hu : x = .ucode
      · rw [hu]
        exact .inr sw.only
      · by_cases hf : x = .fresh
        · rw [hf, sw.fresh] at hx
          cases hx
        · exact .inl ⟨q, (hoff x hu hf).symm.trans hx⟩
    · exact .inl ⟨q, ((st₁.trans st₂).tgt q x hq).symm.trans hx⟩
  · rw [hq, Function.update_self]
    refine ⟨(hoff _ SPos.noConfusion SPos.noConfusion).trans hs.root,
      sw.ucode.trans (ptr_of_ne hz).symm, (hoff _ SPos.noConfusion SPos.noConfusion).trans hs.ustack,
      sw.fresh, (hoff _ SPos.noConfusion SPos.noConfusion).trans hs.old, fun _ => hz, fun t ht => ?_⟩
    by_cases h1 : t = 1
    · subst h1
      rcases sw.code with ⟨_, hone⟩ | hone
      · exact .none hone
      · exact .code n rfl hone sw.ucode
    · have hold := hs.outer t ht
      rw [sw.lf t h1]
      cases hold with
      | none hw => exact .none hw
      | kern j f hw hf => exact .kern j f hw hf
      | code j hv hw hn => exact absurd hv h1
      | stack j hv hw hn =>
        exact .stack j hv hw ((hoff _ SPos.noConfusion SPos.noConfusion).trans hn)
      | lost j f hw hf hn => exact .lost j f hw hf (Nat.lt_of_lt_of_le hn (hlost j))

theorem outer_kern (L : Layout) (g : Ghost) (p : Slot) (v : Nat) : OuterOk g p v (kernPte L v) := by
  rw [kernPte]
  split
  · exact .kern v 7 rfl (.inl rfl)
  · split
    · exact .kern v 11 rfl (.inr rfl)
    · split
      · exact .kern v 7 rfl (.inl rfl)
      · exact .none rfl

/-- A pointer of a slot without a table gets a new page. -/
theorem getField (h : TabInv L k g) (hroot : g.tgt (nd p .root) = none) {x : SPos} (hx : x.Plain)
    (hnone : g.tgt (p, x) = none) (hz : k.phys.kalloc.1 ≠ 0) (data : Page) {t : UTab}
    (hok : ∀ g', g'.tgt (p, x) = some k.phys.kalloc.1 →
      (∀ y, y ≠ x → g'.tgt (p, y) = g.tgt (p, y)) → (∀ v, Outer v → OuterOk g' p v (g'.lf p v)) →
      TabOk g' p t) :
    ∃ g', TabInv L ⟨k.phys.kalloc.2.setMem (k.phys.kalloc.2.mem.setPage k.phys.kalloc.1 data),
      Function.update k.tab p t⟩ g' := by
  have hfresh := h.vm.alloc.kalloc_fresh hz
  obtain ⟨fl', _, hvm, st⟩ := h.vm.kallocAt hx hnone hz
  have hsole : Sole ((g.set (p, x) (some k.phys.kalloc.1)).setFl fl').tgt (p, x) := .new hfresh _
  have hn : ((g.set (p, x) (some k.phys.kalloc.1)).setFl fl').tgt (p, x) = some k.phys.kalloc.1 :=
    g.set_self ..
  obtain ⟨hvm', st'⟩ := hvm.setData hn hx.1 hsole
    (m := k.phys.kalloc.2.mem.setPage k.phys.kalloc.1 data) fun j hj => Mem.setPage_of_ne _ _ hj
  refine ⟨_, h.step hvm' (st.trans st') (hvm'.sameKind h.kind fun q y j _ hy => ?_)
    (fun _ => Nat.le_refl _) (fun q hq => Function.update_of_ne hq _ _) fun q hq => ?_⟩
  · rcases update_some_some hy with hy | ⟨he, _⟩
    · exact .inl ⟨q, hy⟩
    · rw [he]
      exact .inr hsole
  · rw [hq, Function.update_self]
    refine hok _ hn (fun y hy => g.set_of_ne _ hy) fun v hv => .none ?_
    exact (h.vm.no_root hroot).2.1 v hv.2

/-- `proc_pagetable` for the pages of a slot that has no table yet. -/
theorem build (h : TabInv L ⟨s, Function.update k.tab p ⟨0, uc, us⟩⟩ g) (huc : uc ≠ 0)
    (hus : us ≠ 0) (hb : k.build L s p uc us = some k') : ∃ g', TabInv L k' g' := by
  have hs := h.slot p
  dsimp only at hs
  rw [Function.update_self] at hs
  have hnone := h.vm.no_root hs.root
  have hcode : g.tgt (p, .ucode) = some uc := hs.ucode.trans (ptr_of_ne huc)
  have hstack : g.tgt (p, .ustack) = some us := hs.ustack.trans (ptr_of_ne hus)
  have htab (t : UTab) (q : Slot) (hq : q ≠ p) :
      Function.update k.tab p t q = Function.update k.tab p ⟨0, uc, us⟩ q := by
    rw [Function.update_of_ne hq, Function.update_of_ne hq]
  rcases (h.vm.emptyTab hnone.1).procPagetable L hnone.1 (h.vm.alloc.bal.target _ _ hcode).2
      (h.vm.alloc.bal.target _ _ hstack).2 with
    ⟨he, hz, _⟩ | ⟨he, _⟩ | ⟨s', tgt', fl', lf', he, hz, hg, ht, hnew, hr, _⟩
  · rw [Tabs.build, he] at hb
    cases hb
    obtain ⟨hvm, st⟩ := h.vm.noPage (p := p) hz
    refine ⟨g, h.step hvm st h.kind (fun _ => Nat.le_refl _) (fun _ _ => rfl) fun q hq => ?_⟩
    rw [hq, Function.update_self]
    exact hs
  · rw [Tabs.build, he] at hb
    cases hb
  · rw [Tabs.build, he] at hb
    cases hb
    have hvm := h.vm.grown hg ht (fun v hv => .inl ⟨hnew.heap v hv v.isLt, hnone.2.2 v⟩)
      fun v _ => sole_of_none (hnone.2.2 v)
    have hoff (q : Slot) (x : SPos) (hx : ∀ y, x ≠ .node y) : tgt' (q, x) = g.tgt (q, x) :=
      hg.off _ fun y hy => hx y (congrArg Prod.snd hy)
    refine ⟨_, h.step hvm (h.vm.slotStep_grown hg lf')
      (hvm.sameKind h.kind fun q x j ho hx => .inl ⟨q, ?_⟩) (fun _ => Nat.le_refl _) (htab _)
      fun q hq => ?_⟩
    · rw [← hx]
      refine (hoff q x fun y hy => ho ?_).symm
      rw [hy]
      trivial
    · rw [hq, Function.update_self]
      refine ⟨hr.trans (ptr_of_ne hz).symm, (hoff p _ fun _ => SPos.noConfusion).trans hs.ucode,
        (hoff p _ fun _ => SPos.noConfusion).trans hs.ustack,
        (hoff p _ fun _ => SPos.noConfusion).trans hs.fresh,
        (hoff p _ fun _ => SPos.noConfusion).trans hs.old, fun _ => huc, fun v hv => ?_⟩
      dsimp only
      rw [Function.update_self]
      rcases hv.1 with hlo | hhi
      · rcases hnew.code v hlo with hw | ⟨hv, hw⟩ | ⟨hv, hw⟩
        · exact .none hw
        · exact .code uc hv hw ((hoff p _ fun _ => SPos.noConfusion).trans hcode)
        · exact .stack us hv hw ((hoff p _ fun _ => SPos.noConfusion).trans hstack)
      · rw [hnew.kern v hhi]
        exact outer_kern L _ p v

theorem no_tab (h : TabInv L k g) (hp : k.tab p = .zero) : g.tgt (nd p .root) = none ∧
    g.tgt (p, .ucode) = none ∧ g.tgt (p, .ustack) = none := by
  have hs := h.slot p
  rw [hp] at hs
  exact ⟨hs.root, hs.ucode, hs.ustack⟩

/-- A new code page and a new stack for a slot. -/
theorem newPages (h : TabInv L k g) (hp : k.tab p = .zero) (hz : k.phys.kalloc.1 ≠ 0)
    (code stack : Page) :
    let s := k.phys.kalloc.2.setMem (k.phys.kalloc.2.mem.setPage k.phys.kalloc.1 code)
    s.kalloc.1 ≠ 0 → ∃ g', TabInv L ⟨s.kalloc.2.setMem (s.kalloc.2.mem.setPage s.kalloc.1 stack),
      Function.update k.tab p ⟨0, k.phys.kalloc.1, s.kalloc.1⟩⟩ g' := by
  intro s hz₁
  obtain ⟨hroot, huc, hus⟩ := h.no_tab hp
  have hs := h.slot p
  obtain ⟨g₁, h₁⟩ := h.getField hroot SPos.plain_ucode huc hz code
    (t := ⟨0, k.phys.kalloc.1, 0⟩) fun g' hx hoff hout =>
      ⟨(hoff _ SPos.noConfusion).trans hroot, hx.trans (ptr_of_ne hz).symm,
        (hoff _ SPos.noConfusion).trans hus, (hoff _ SPos.noConfusion).trans hs.fresh,
        (hoff _ SPos.noConfusion).trans hs.old, fun hne => absurd rfl hne, hout⟩
  have hs₁ := h₁.slot p
  dsimp only at hs₁
  rw [Function.update_self] at hs₁
  obtain ⟨g₂, h₂⟩ := h₁.getField hs₁.root SPos.plain_ustack hs₁.ustack hz₁ stack
    (t := ⟨0, k.phys.kalloc.1, s.kalloc.1⟩) fun g' hx hoff hout =>
      ⟨(hoff _ SPos.noConfusion).trans hs₁.root, (hoff _ SPos.noConfusion).trans hs₁.ucode,
        hx.trans (ptr_of_ne hz₁).symm, (hoff _ SPos.noConfusion).trans hs₁.fresh,
        (hoff _ SPos.noConfusion).trans hs₁.old, fun hne => absurd rfl hne, hout⟩
  rw [Function.update_idem] at h₂
  exact ⟨g₂, h₂⟩

/-- A new table for a new code page and a new stack. -/
theorem pagetable (h : TabInv L k g) (hb : k.step L (.pagetable p code stack) = some k') :
    ∃ g', TabInv L k' g' := by
  rw [Tabs.step] at hb
  split at hb
  · rename_i hp
    dsimp only at hb
    split at hb
    · cases hb
    · rename_i hz
      split at hb
      · cases hb
      · rename_i hz₁
        obtain ⟨g₂, h₂⟩ := h.newPages hp hz code stack hz₁
        exact h₂.build hz hz₁ hb
  · cases hb

/-- A new table for the code page of another one and a copy of its stack. -/
theorem fork (h : TabInv L k g) (hb : k.step L (.fork p c) = some k') : ∃ g', TabInv L k' g' := by
  rw [Tabs.step] at hb
  split at hb
  · rename_i hc
    obtain ⟨hpt, hc⟩ := hc
    obtain ⟨hroot, huc, hus⟩ := h.no_tab hc
    have hs := h.slot c
    have hpc : p ≠ c := by
      rintro rfl
      rw [hc] at hpt
      exact hpt rfl
    have hcode := (h.slot p).code hpt
    dsimp only at hb
    split at hb
    · cases hb
    · rename_i hz
      obtain ⟨g₁, h₁⟩ := h.getField hroot SPos.plain_ustack hus hz
        (k.phys.kalloc.2.mem (k.tab p).ustack) (t := ⟨0, 0, k.phys.kalloc.1⟩)
        fun g' hx hoff hout =>
          ⟨(hoff _ SPos.noConfusion).trans hroot, (hoff _ SPos.noConfusion).trans huc,
            hx.trans (ptr_of_ne hz).symm, (hoff _ SPos.noConfusion).trans hs.fresh,
            (hoff _ SPos.noConfusion).trans hs.old, fun hne => absurd rfl hne, hout⟩
      have hs₁ := h₁.slot c
      have hp₁ := h₁.slot p
      dsimp only at hs₁ hp₁
      rw [Function.update_self] at hs₁
      rw [Function.update_of_ne hpc] at hp₁
      have hn : g₁.tgt (p, .ucode) = some (k.tab p).ucode := hp₁.ucode.trans (ptr_of_ne hcode)
      have hnone (x : SPos) : g₁.tgt (c, x) ≠ some (k.tab p).ucode := by
        intro hx
        rw [h₁.kind c p x _ _ hx hn, hs₁.ucode] at hx
        cases hx
      obtain ⟨h₂, st₂⟩ := h₁.vm.shareCode hpc hn hnone hs₁.ucode
      have hoff {q : Slot} {x : SPos} (hx : (q, x) ≠ (c, .ucode)) :
          (g₁.set (c, .ucode) (some (k.tab p).ucode)).tgt (q, x) = g₁.tgt (q, x) :=
        Function.update_of_ne hx _ _
      have hne (x : SPos) (hx : x ≠ .ucode) : (c, x) ≠ (c, .ucode) := fun he =>
        hx (congrArg Prod.snd he)
      have hneP (x : SPos) : (p, x) ≠ (c, .ucode) := fun he => hpc (congrArg Prod.fst he)
      have h₃ : TabInv L ⟨(k.phys.kalloc.2.setMem (k.phys.kalloc.2.mem.setPage k.phys.kalloc.1
          (k.phys.kalloc.2.mem (k.tab p).ustack))).krefInc (k.tab p).ucode,
          Function.update k.tab c ⟨0, (k.tab p).ucode, k.phys.kalloc.1⟩⟩
          (g₁.set (c, .ucode) (some (k.tab p).ucode)) := by
        refine h₁.step h₂ st₂ (h₂.sameKind h₁.kind fun q x j _ hx => .inl ?_)
          (fun _ => Nat.le_refl _) (fun q hq => ?_) ?_
        · rcases update_some_some hx with hx | ⟨he, rfl⟩
          · exact ⟨q, hx⟩
          · obtain rfl : x = .ucode := congrArg Prod.snd he
            exact ⟨p, hn⟩
        · have hqc : q ≠ c := fun he => hq (.inr he)
          rw [Function.update_of_ne hqc]
          exact (Function.update_of_ne hqc _ _).symm
        · rintro q (rfl | rfl)
          · rw [Function.update_of_ne hpc]
            exact hp₁.kept ⟨fun x _ => hoff (hneP x), hoff (hneP _), fun _ _ => rfl⟩
              fun _ => Nat.le_refl _
          · rw [Function.update_self]
            refine ⟨(hoff (hne _ SPos.noConfusion)).trans hs₁.root,
              (Function.update_self ..).trans (ptr_of_ne hcode).symm,
              (hoff (hne _ SPos.noConfusion)).trans hs₁.ustack,
              (hoff (hne _ SPos.noConfusion)).trans hs₁.fresh,
              (hoff (hne _ SPos.noConfusion)).trans hs₁.old, fun hne => absurd rfl hne,
              fun v hv => .none ?_⟩
            exact (h₁.vm.no_root hs₁.root).2.1 v hv.2
      exact h₃.build hcode hz hb
  · cases hb

/-- Every call that keeps to user pages keeps the tables in order. -/
theorem call (h : TabInv L k g) (hu : a.InUser) (hb : k.step L a = some k') :
    ∃ g', TabInv L k' g' := by
  cases a with
  | pagetable p code stack => exact h.pagetable hb
  | fork p c => exact h.fork hb
  | map p v data write =>
    rw [Tabs.step] at hb
    split at hb
    · rename_i hpt
      cases hb
      apply h.map hpt
      cases write with
      | false => exact .inl rfl
      | true => exact .inr rfl
    · cases hb
  | freeRange p v stop =>
    rw [Tabs.step] at hb
    split at hb
    · rename_i hpt
      cases hb
      exact h.freeRange hpt hu
    · cases hb
  | cowShare p c v stop =>
    rw [Tabs.step] at hb
    split at hb
    · rename_i hpt
      cases hb
      exact h.cowShare hpt.1 hpt.2.1 hpt.2.2 hu
    · cases hb
  | cowFault p va =>
    rw [Tabs.step] at hb
    split at hb
    · rename_i hpt
      cases hb
      exact h.cowFault hpt va
    · cases hb
  | remap p code =>
    rw [Tabs.step] at hb
    split at hb
    · rename_i hpt
      dsimp only at hb
      split at hb
      · cases hb
      · rename_i hz
        cases hb
        exact h.remap hpt hz code
    · cases hb

theorem run (h : TabInv L k g) (hu : ∀ a ∈ as, a.InUser) (hb : k.run L as = some k') :
    ∃ g', TabInv L k' g' := by
  induction as generalizing k g with
  | nil =>
    cases hb
    exact ⟨g, h⟩
  | cons a as ih =>
    rw [Tabs.run, Option.bind_eq_some_iff] at hb
    obtain ⟨k₁, h₁, hb⟩ := hb
    obtain ⟨g₁, h₁⟩ := h.call (hu a (List.mem_cons_self ..)) h₁
    exact ih h₁ (fun b hb => hu b (List.mem_cons_of_mem _ hb)) hb

end TabInv

theorem TabReach.mono (h : TabReach L P k) (hPQ : ∀ a, P a → Q a) : TabReach L Q k := by
  obtain ⟨m, drivers, pt, s, as, hk, hP, hb⟩ := h
  exact ⟨m, drivers, pt, s, as, hk, fun a ha => hPQ a (hP a ha), hb⟩

theorem Tabs.run_append (L : Layout) (k : Tabs) (as bs : List TabCall) :
    k.run L (as ++ bs) = (k.run L as).bind fun k' => k'.run L bs := by
  induction as generalizing k with
  | nil => rfl
  | cons a as ih =>
    rw [List.cons_append, run, run, Option.bind_assoc]
    exact congrArg _ (funext fun k' => ih k')

theorem TabReach.step (h : TabReach L P k) (ha : P a) (hs : k.step L a = some k') :
    TabReach L P k' := by
  obtain ⟨m, drivers, pt, s, as, hk, hP, hb⟩ := h
  refine ⟨m, drivers, pt, s, as ++ [a], hk, fun b hb => ?_, ?_⟩
  · rcases List.mem_append.1 hb with hb | hb
    · exact hP b hb
    · rw [List.mem_singleton.1 hb]
      exact ha
  · rw [Tabs.run_append, hb, Option.bind_some, Tabs.run, hs]
    rfl

/-- No slot has a table when the calls begin. -/
theorem Blank.tabs {L : Layout} (h : Blank L.kend s fl) :
    ∃ g, TabInv L ⟨s, fun _ => .zero⟩ g := by
  obtain ⟨lost, ha⟩ := h
  refine ⟨_, ha.vm, fun p q x y n hx => ?_, fun p => ?_⟩
  · cases hx
  · exact ⟨rfl, rfl, rfl, rfl, rfl, fun hne => absurd rfl hne, fun _ _ => .none rfl⟩

/-- The tables are in order after every run of such calls. -/
theorem TabReach.inv {L : Layout} (h : TabReach L TabCall.InUser k) : ∃ g, TabInv L k g := by
  have ht := L.text
  have hd := L.data
  obtain ⟨m, drivers, pt, s, as, hk, hu, hb⟩ := h
  obtain ⟨fl, ha, _⟩ := kinit_alloc (ι := Pos) m (show 0 < L.kend by omega) L.ram
  have hblank : Blank L.kend (Phys.kinit m L.kend) fl := ⟨_, ha⟩
  obtain ⟨_, fl₁, h₁⟩ := hblank.kvminit hk
  obtain ⟨_, fl₂, h₂⟩ := h₁.driverPages (n := drivers)
  obtain ⟨g, h₃⟩ := h₂.tabs
  exact h₃.run hu hb

end KernelHobby
