import KernelHobby.VmRange

namespace KernelHobby
set_option autoImplicit true

/-- The two processes of a fork. -/
def Pair (p c : Slot) : Slot → Prop := fun q => q = p ∨ q = c

/-- What a child has of its parent. -/
structure Inherits (g : Ghost) (p c : Slot) : Prop where
  leaf : ∀ u n, g.tgt (c, .leaf u) = some n → g.tgt (p, .leaf u) = some n
  ucode : ∀ n, g.tgt (c, .ucode) = some n → g.tgt (p, .ucode) = some n
  old : g.tgt (c, .old) = none

/-- The pages of `R` that the parent has. -/
def Ghost.Has (g : Ghost) (p : Slot) (R : Nat → Prop) (u : Nat) : Prop := R u ∧ g.lf p u ≠ 0

/-- The pages of `R` are shared: the parent can write none of them any more, and the child has all
of them unless there were too few pages for its page table. -/
structure Shared (p c : Slot) (R : Nat → Prop) (s : Phys) (g : Ghost) (s' : Phys) (g' : Ghost) :
    Prop where
  parent : ∀ x, g'.tgt (p, x) = g.tgt (p, x)
  plain : ∀ x, x.Plain → g'.tgt (c, x) = g.tgt (c, x)
  node : ∀ y n, g.tgt (nd c y) = some n → g'.tgt (nd c y) = some n
  grown : ∀ y n, g'.tgt (nd c y) = some n → g.tgt (nd c y) = some n ∨ n ∈ g.fl
  leaf : ∀ u : UPage, ¬ R u → g'.tgt (c, .leaf u) = g.tgt (c, .leaf u)
  plf : ∀ u, g'.lf p u = g.lf p u ∨
    R u ∧ ∃ n, g.lf p u = mkPte n 23 ∧ g'.lf p u = mkPte n 275
  clf : ∀ u, ¬ R u → g'.lf c u = g.lf c u
  all : (s'.failed = s.failed ∧ ∀ u : UPage, R u → g'.tgt (c, .leaf u) = g.tgt (p, .leaf u) ∧
      g'.lf c u = g'.lf p u ∧ g'.lf p u &&& PTE_W = 0) ∨
    s'.failed = true ∧ Scarce (nd c) (g.Has p R) g.tgt g.fl
  lost : g'.lost = g.lost
  mem : ∀ n, n ∉ g.fl → (∀ y, g.tgt (nd p y) ≠ some n) → (∀ y, g.tgt (nd c y) ≠ some n) →
    s'.mem n = s.mem n
  free : ∀ n ∈ g'.fl, n ∈ g.fl
  taken : ∀ t ∈ s'.taken, t ∈ s.taken ∨ t < 0xC000
  failed : s.failed = true → s'.failed = true
  count : NodeCount (nd c) (g.Has p R) g.tgt g.fl g'.tgt g'.fl

namespace Shared
variable {R R' : Nat → Prop} {s s' s'' : Phys} {g g' g'' : Ghost}

/-- The parent has the same pages as before. -/
theorem has (h : Shared p c R s g s' g') (hu : g'.Has p T u) : g.Has p T u := by
  obtain ⟨hT, hu⟩ := hu
  refine ⟨hT, ?_⟩
  rcases h.plf u with he | ⟨_, n, he, _⟩
  · rwa [← he]
  · rw [he, mkPte]
    exact Nat.succ_ne_zero _

theorem trans (h : Shared p c R s g s' g') (h' : Shared p c R' s' g' s'' g'')
    (hd : ∀ u, R u → ¬ R' u) : Shared p c (fun u => R u ∨ R' u) s g s'' g'' where
  parent x := (h'.parent x).trans (h.parent x)
  plain x hx := (h'.plain x hx).trans (h.plain x hx)
  node y n hy := h'.node y n (h.node y n hy)
  grown y n hy := by
    rcases h'.grown y n hy with hy | hf
    · exact h.grown y n hy
    · exact .inr (h.free n hf)
  leaf u hu := by
    obtain ⟨hR, hR'⟩ := not_or.1 hu
    exact (h'.leaf u hR').trans (h.leaf u hR)
  plf u := by
    rcases h'.plf u with h₂ | ⟨hR', n, h₂, h₂'⟩
    · rcases h.plf u with h₁ | ⟨hR, h₁⟩
      · exact .inl (h₂.trans h₁)
      · rw [h₂]
        exact .inr ⟨.inl hR, h₁⟩
    · rcases h.plf u with h₁ | ⟨hR, _⟩
      · exact .inr ⟨.inr hR', n, h₁.symm.trans h₂, h₂'⟩
      · exact absurd hR' (hd u hR)
  clf u hu := by
    obtain ⟨hR, hR'⟩ := not_or.1 hu
    exact (h'.clf u hR').trans (h.clf u hR)
  all := by
    have hsub (u : Nat) (hu : g.Has p R u) : g.Has p (fun u => R u ∨ R' u) u := ⟨.inl hu.1, hu.2⟩
    have hcount := h.count.mono hsub
    rcases h.all with ⟨hf, ha⟩ | ⟨hf, hs⟩
    · rcases h'.all with ⟨hf', ha'⟩ | ⟨hf', hs⟩
      · refine .inl ⟨hf'.trans hf, fun u hu => ?_⟩
        rcases hu with hR | hR'
        · have hno := hd u hR
          obtain ⟨h₁, h₂, h₃⟩ := ha u hR
          have hplf : g''.lf p u = g'.lf p u := by
            rcases h'.plf u with h | ⟨hR', _⟩
            · exact h
            · exact absurd hR' hno
          rw [h'.leaf u hno, h'.clf u hno, hplf]
          exact ⟨h₁, h₂, h₃⟩
        · obtain ⟨h₁, h₂⟩ := ha' u hR'
          exact ⟨h₁.trans (h.parent _), h₂⟩
      · refine .inr ⟨hf', hcount.scarce (hs.mono fun u hu => ?_)⟩
        obtain ⟨hR', hne⟩ := h.has hu
        exact ⟨.inr hR', hne⟩
    · exact .inr ⟨h'.failed hf, hs.mono fun u hu => ⟨.inl hu.1, hu.2⟩⟩
  lost := h'.lost.trans h.lost
  mem n hn hp hc := by
    have hp' (y : Node) : g'.tgt (nd p y) ≠ some n := fun hy => hp y ((h.parent _).symm.trans hy)
    have hc' (y : Node) : g'.tgt (nd c y) ≠ some n := by
      intro hy
      rcases h.grown y n hy with hy | hf
      · exact hc y hy
      · exact hn hf
    exact (h'.mem n (fun hf => hn (h.free n hf)) hp' hc').trans (h.mem n hn hp hc)
  free n hn := h.free n (h'.free n hn)
  taken t ht := by
    rcases h'.taken t ht with ht | ht
    · exact h.taken t ht
    · exact .inr ht
  failed hf := h'.failed (h.failed hf)
  count := by
    refine (h.count.mono fun u hu => ⟨.inl hu.1, hu.2⟩).trans (h'.count.mono fun u hu => ?_)
    obtain ⟨hR', hne⟩ := h.has hu
    exact ⟨.inr hR', hne⟩

/-- Nothing is there to share. -/
theorem refl (s : Phys) (g : Ghost)
    (hR : ∀ u : UPage, R u → g.tgt (c, .leaf u) = g.tgt (p, .leaf u) ∧ g.lf c u = g.lf p u ∧
      g.lf p u &&& PTE_W = 0) : Shared p c R s g s g where
  parent _ := rfl
  plain _ _ := rfl
  node _ _ h := h
  grown _ _ h := .inl h
  leaf _ _ := rfl
  plf _ := .inl rfl
  clf _ _ := rfl
  all := .inl ⟨rfl, hR⟩
  lost := rfl
  mem _ _ _ _ := rfl
  free _ h := h
  taken _ h := .inl h
  failed h := h
  count := NodeCount.refl _ _ _ _

theorem congr (h : Shared p c R s g s' g') (hR : ∀ u, R u ↔ T u) : Shared p c T s g s' g' := by
  have he : R = T := funext fun u => propext (hR u)
  rw [← he]
  exact h

/-- The rest of the range was not reached. -/
theorem fail (h : Shared p c R s g s' g') (hf : s'.failed = true)
    (hs : Scarce (nd c) (g.Has p R') g.tgt g.fl) (hR : ∀ u, R u → R' u) :
    Shared p c R' s g s' g' where
  parent := h.parent
  plain := h.plain
  node := h.node
  grown := h.grown
  leaf u hu := h.leaf u fun hr => hu (hR u hr)
  plf u := (h.plf u).imp id fun ⟨hr, hn⟩ => ⟨hR u hr, hn⟩
  clf u hu := h.clf u fun hr => hu (hR u hr)
  all := .inr ⟨hf, hs⟩
  lost := h.lost
  mem := h.mem
  free := h.free
  taken := h.taken
  failed := h.failed
  count := h.count.mono fun u hu => ⟨hR u hu.1, hu.2⟩

end Shared

theorem Inherits.page {v : UPage} (hi : Inherits g p c) (hs : Shared p c (· = v.val) s g s' g')
    (hv : ∀ n, g'.tgt (c, .leaf v) = some n → g.tgt (p, .leaf v) = some n) : Inherits g' p c where
  leaf u n hu := by
    rw [hs.parent]
    by_cases huv : u = v
    · rw [huv] at hu ⊢
      exact hv n hu
    · rw [hs.leaf u fun he => huv (Fin.ext he)] at hu
      exact hi.leaf u n hu
  ucode n hn := by
    rw [hs.plain _ SPos.plain_ucode] at hn
    rw [hs.parent]
    exact hi.ucode n hn
  old := (hs.plain _ SPos.plain_old).trans hi.old

namespace Vm
variable {s : Phys} {g : Ghost} {p c : Slot} {v : UPage}

/-- A page of the parent's heap that the child does not have yet. -/
theorem not_inherited (h : Vm kend s g) (hi : Inherits g p c) (hpc : p ≠ c)
    (hn : g.tgt (p, .leaf v) = some n) (hfree : g.tgt (c, .leaf v) = none) (x : SPos) :
    g.tgt (c, x) ≠ some n := by
  intro hx
  have hown (hx' : x.Own) : False :=
    hpc (congrArg Prod.fst ((h.slot c).own x hx' n (p, .leaf v) hx hn))
  cases x with
  | leaf u =>
    have hu := (h.slot p).inslot _ _ n (hi.leaf u n hx) hn
    rw [hu, hfree] at hx
    cases hx
  | ucode => cases (h.slot p).inslot _ _ n (hi.ucode n hx) hn
  | old =>
    rw [hi.old] at hx
    cases hx
  | node y => exact hown trivial
  | ustack => exact hown trivial
  | kstack => exact hown trivial
  | fresh => exact hown trivial

/-- The page at `v` of the parent, which is read-only by now, is mapped in the child. -/
theorem shareOne (h : Vm kend s g) (hpc : p ≠ c) (hr : g.tgt (nd c .root) = some r)
    (hn : g.tgt (p, .leaf v) = some n) (hv : 16 ≤ v.val) (hlf : g.lf p v = mkPte n f)
    (hf : f = 19 ∨ f = 275) (hnone : ∀ x, g.tgt (c, x) ≠ some n)
    (hfree : g.tgt (c, .leaf v) = none) (hva : vpn a = v.val) :
    let w := Phys.mapLoop r f 0 s a n
    ∃ tgt' fl', Grown (nd c) s g.tgt g.fl w.2 tgt' fl' ∧
      NodeCount (nd c) (· = v.val) g.tgt g.fl tgt' fl' ∧
      (w.1 = true ∧ w.2.failed = s.failed ∧
          (let g' := (({ g with tgt := tgt', fl := fl' } : Ghost).set (c, .leaf v) (some n)).setLf c
            (Function.update (g.lf c) v (mkPte n f))
          Vm kend ((w.2.krefInc n).take a) g' ∧
            SlotStep (Pair p c) s g ((w.2.krefInc n).take a) g') ∨
        w.1 = false ∧ (w.2.failed = true ∧ Scarce (nd c) (· = v.val) g.tgt g.fl) ∧
          Vm kend w.2 { g with tgt := tgt', fl := fl' } ∧
          SlotStep (Pair p c) s g w.2 { g with tgt := tgt', fl := fl' }) := by
  intro w
  obtain ⟨tgt', fl', hvm, hst, hg, hpath, hres⟩ := h.walk hr a
  rw [hva] at hpath hres
  have hcount := hpath.counted hg h.alloc hvm.alloc
  have hst := hst.mono (T := Pair p c) fun q hq => .inr hq
  have hoffp := hg.off_slot hpc
  have hoffc (x : SPos) (hx : ∀ y, x ≠ .node y) : tgt' (c, x) = g.tgt (c, x) := hg.off _ (ne_nd hx)
  have hw : w = Phys.mapLoop r f 0 s a n := rfl
  rw [Phys.mapLoop] at hw
  generalize s.walk r a true = o at hvm hst hg hres hw
  obtain ⟨o, s'⟩ := o
  rcases hres with ⟨ho, hfail, rfl, hnone⟩ | ⟨l, ho, hl, hfd⟩
  · cases ho
    rw [hw]
    exact ⟨tgt', [], hg, hcount, .inr ⟨rfl, ⟨hfail, hcount.scarce (.of_nil rfl hnone)⟩, hvm, hst⟩⟩
  · cases ho
    have hword : (s'.mem l).word (ix0 v) = g.lf c v := hvm.low_word hl
    have hbit : f ||| PTE_V = f := by
      rcases hf with rfl | rfl <;> rfl
    have hpte : pa2pte n ||| f ||| PTE_V = mkPte n f := by
      rw [Nat.or_assoc, hbit, pa2pte_or n (by omega)]
    have hz := h.leaf_zero hv hfree
    dsimp only at hw
    rw [hword, hpte, hz, if_neg (by decide)] at hw
    have hnone' (x : SPos) : tgt' (c, x) ≠ some n := by
      intro hx
      rcases hg.new _ n hx with hx | hx
      · exact hnone x hx
      · exact h.alloc.bal.not_free hn hx
    obtain ⟨hshare, hshare'⟩ := hvm.shareLeaf hpc hl ((hoffp _).trans hn) hv hnone'
      ((hoffc (.leaf v) fun _ => SPos.noConfusion).trans hfree) hlf hf a
    rw [hw]
    exact ⟨tgt', fl', hg.trans (.setLeaf hl), hcount, .inl ⟨rfl, hfd, hshare, hst.trans hshare'⟩⟩

/-- One page was shared: the parent's entry in `s₁`, then the nodes of the child in `s₂`, then the
child's entry. -/
theorem sharedPage {s₁ s₂ z : Phys} {e : Ghost} (hpc : p ≠ c)
    (hg : Grown (nd c) s₁ g.tgt g.fl s₂ tgt' fl')
    (hm : ∀ n, (∀ y, g.tgt (nd p y) ≠ some n) → s₁.mem n = s.mem n) (htk : s₁.taken = s.taken)
    (hfd : s₁.failed = s.failed) (htp : ∀ x, e.tgt (p, x) = tgt' (p, x))
    (htc : ∀ x, x ≠ .leaf v → e.tgt (c, x) = tgt' (c, x)) (hlost : e.lost = g.lost)
    (hfl : e.fl = fl') (hplf : ∀ u, e.lf p u = g.lf p u ∨
      u = v.val ∧ ∃ n, g.lf p u = mkPte n 23 ∧ e.lf p u = mkPte n 275)
    (hclf : ∀ u, u ≠ v.val → e.lf c u = g.lf c u) (hs : z.mem = s₂.mem)
    (htk' : ∀ t ∈ z.taken, t ∈ s₂.taken ∨ t < 0xC000)
    (hfd' : z.failed = s₂.failed) (hne : g.lf p v ≠ 0)
    (hcount : NodeCount (nd c) (· = v.val) g.tgt g.fl tgt' fl')
    (hall : (s₂.failed = s₁.failed ∧ e.tgt (c, .leaf v) = g.tgt (p, .leaf v) ∧
        e.lf c v = e.lf p v ∧ e.lf p v &&& PTE_W = 0) ∨
      s₂.failed = true ∧ Scarce (nd c) (· = v.val) g.tgt g.fl) :
    Shared p c (· = v.val) s g z e := by
  have hoffp := hg.off_slot hpc
  have hoffc (x : SPos) (hx : ∀ y, x ≠ .node y) : tgt' (c, x) = g.tgt (c, x) := hg.off _ (ne_nd hx)
  have hmiss (N : Finset Node) : missing (nd c) N e.tgt = missing (nd c) N tgt' := by
    have he : (fun y => e.tgt (nd c y)) = fun y => tgt' (nd c y) :=
      funext fun y => htc (.node y) SPos.noConfusion
    exact congrArg (fun t : Node → Option Nat => (N.filter fun y => t y = none).card) he
  have hhas (u : Nat) (hu : u = v.val) : g.Has p (· = v.val) u := ⟨hu, hu ▸ hne⟩
  constructor
  · intro x
    rw [htp, hoffp]
  · intro x hx
    rw [htc x (hx.2 v), hoffc x hx.1]
  · intro y n hy
    have hk := hg.keep _ n hy
    rw [nd, htc _ SPos.noConfusion]
    exact hk
  · intro y n hy
    rw [nd, htc _ SPos.noConfusion] at hy
    exact hg.new _ n hy
  · intro u hu
    have hne : SPos.leaf u ≠ .leaf v := fun he => hu (congrArg Fin.val (SPos.leaf.inj he))
    rw [htc _ hne, hoffc (.leaf u) fun _ => SPos.noConfusion]
  · exact hplf
  · exact hclf
  · rcases hall with ⟨hf, hall⟩ | ⟨hf, hs⟩
    · refine .inl ⟨hfd'.trans (hf.trans hfd), fun u hu => ?_⟩
      obtain rfl : u = v := Fin.ext hu
      exact hall
    · exact .inr ⟨hfd'.trans hf, hs.mono hhas⟩
  · exact hlost
  · intro n hn hp hc
    rw [hs, hg.mem n hn hc, hm n hp]
  · intro n hn
    rw [hfl] at hn
    exact hg.sub hn
  · intro t ht
    rcases htk' t ht with ht | ht
    · rw [hg.taken, htk] at ht
      exact .inl ht
    · exact .inr ht
  · intro hf
    rw [hfd']
    exact hg.failed (hfd.trans hf)
  · intro N hN
    rw [hmiss, hfl]
    exact hcount N fun u hu => hN u (hhas u hu)

theorem mappages_one (s : Phys) (pt v pa perm : Nat) :
    s.mappages pt (v * PGSIZE) PGSIZE pa perm = Phys.mapLoop pt perm 0 s (v * PGSIZE) pa := by
  have h := mappages_pages s pt v 0 pa perm
  rwa [Nat.zero_add, Nat.one_mul] at h

/-- The page at `v` of the parent, read-only by now in `s₁`, gets into the child. -/
theorem shareReadonly {s₁ : Phys} {g₁ : Ghost} (h : Vm kend s₁ g₁) (hpc : p ≠ c)
    (hi : Inherits g p c) (hr : g.tgt (nd c .root) = some r) (ht : g₁.tgt = g.tgt)
    (hlost : g₁.lost = g.lost) (hfl : g₁.fl = g.fl) (hlfc : g₁.lf c = g.lf c)
    (hst : SlotStep (Pair p c) s g s₁ g₁)
    (hm : ∀ n, (∀ y, g.tgt (nd p y) ≠ some n) → s₁.mem n = s.mem n) (htk : s₁.taken = s.taken)
    (hfd : s₁.failed = s.failed) (hplf : ∀ u, g₁.lf p u = g.lf p u ∨
      u = v.val ∧ ∃ n, g.lf p u = mkPte n 23 ∧ g₁.lf p u = mkPte n 275)
    (hn : g.tgt (p, .leaf v) = some n) (hv : 16 ≤ v.val) (hlf : g₁.lf p v = mkPte n f)
    (hf : f = 19 ∨ f = 275) (hfree : g.tgt (c, .leaf v) = none) :
    let w := Phys.mapLoop r f 0 s₁ (v.val * PGSIZE) n
    ∃ s' g', Vm kend s' g' ∧ SlotStep (Pair p c) s g s' g' ∧ Shared p c (· = v.val) s g s' g' ∧
      Inherits g' p c ∧ (w.1 = true ∧ s' = (w.2.krefInc n).take (v.val * PGSIZE) ∨
        w.1 = false ∧ (w.2.failed = true ∧ Scarce (nd c) (g.Has p (· = v.val)) g.tgt g.fl) ∧
          s' = w.2) := by
  intro w
  have hva : vpn (v.val * PGSIZE) = v.val := vpn_page v.lt
  have hi₁ : Inherits g₁ p c := by
    constructor
    · rw [ht]
      exact hi.leaf
    · rw [ht]
      exact hi.ucode
    · rw [ht]
      exact hi.old
  have hn₁ : g₁.tgt (p, .leaf v) = some n := by rw [ht, hn]
  have hfree₁ : g₁.tgt (c, .leaf v) = none := by rw [ht, hfree]
  have hr₁ : g₁.tgt (nd c .root) = some r := by rw [ht, hr]
  have hnw : mkPte n f &&& PTE_W = 0 := by
    rw [mkPte_and n (by omega) (by decide)]
    rcases hf with rfl | rfl <;> decide
  have hne : g.lf p v ≠ 0 := by
    rcases hplf v with he | ⟨_, j, he, _⟩
    · rw [← he, hlf, mkPte]
      omega
    · rw [he, mkPte]
      exact Nat.succ_ne_zero _
  obtain ⟨tgt', fl', hg, hcount, hres⟩ := h.shareOne hpc hr₁ hn₁ hv hlf hf
    (h.not_inherited hi₁ hpc hn₁ hfree₁) hfree₁ hva
  rw [ht, hfl] at hg hcount
  rw [ht, hfl] at hres
  rcases hres with ⟨hok, hfd₂, hvm, hst'⟩ | ⟨hno, ⟨hfail, hsc⟩, hvm, hst'⟩
  · have hleaf : ((({ g₁ with tgt := tgt', fl := fl' } : Ghost).set (c, .leaf v) (some n)).setLf c
        (Function.update (g₁.lf c) v (mkPte n f))).tgt (c, .leaf v) = g.tgt (p, .leaf v) :=
      (Function.update_self ..).trans hn.symm
    have hshared := sharedPage (z := (w.2.krefInc n).take (v.val * PGSIZE))
      (e := (({ g₁ with tgt := tgt', fl := fl' } : Ghost).set (c, .leaf v) (some n)).setLf c
        (Function.update (g₁.lf c) v (mkPte n f))) hpc hg hm htk hfd
      (fun x => Function.update_of_ne (fun he => hpc (congrArg Prod.fst he)) _ _)
      (fun x hx => Function.update_of_ne (fun he => hx (congrArg Prod.snd he)) _ _) hlost rfl
      (by
        intro u
        simpa [Ghost.setLf, Ghost.set, hpc] using hplf u)
      (by
        intro u hu
        simp [Ghost.setLf, Ghost.set, hu, hlfc])
      rfl
      (by
        intro t htt
        rcases List.mem_cons.1 htt with rfl | htt
        · right
          rw [Nat.mul_div_cancel _ (by decide), Nat.mod_eq_of_lt v.lt]
          exact v.isLt
        · exact .inl htt)
      rfl hne hcount
      (by
        refine .inl ⟨hfd₂, hleaf, ?_⟩
        simp [Ghost.setLf, Ghost.set, hpc, hlf, hnw])
    exact ⟨_, _, hvm, hst.trans hst', hshared, hi.page hshared fun k hk => hleaf ▸ hk,
      .inl ⟨hok, rfl⟩⟩
  · have hshared := sharedPage (v := v) (z := w.2)
      (e := { g₁ with tgt := tgt', fl := fl' }) hpc hg hm htk hfd
      (fun _ => rfl) (fun _ _ => rfl) hlost rfl hplf (fun u _ => congrFun hlfc u) rfl
      (fun _ => .inl) rfl hne hcount (.inr ⟨hfail, hsc⟩)
    have hsub (u : Nat) (hu : u = v.val) : g.Has p (· = v.val) u := ⟨hu, hu ▸ hne⟩
    have hsc' := hsc.mono hsub
    refine ⟨_, _, hvm, hst.trans hst', hshared, hi.page hshared ?_, .inr ⟨hno, ⟨hfail, hsc'⟩, rfl⟩⟩
    intro k hk
    have hoff : tgt' (c, .leaf v) = g.tgt (c, .leaf v) := hg.off _ (ne_nd fun _ => SPos.noConfusion)
    have hk' : tgt' (c, .leaf v) = some k := hk
    rw [hoff, hfree] at hk'
    cases hk'

/-- The loop goes on after a page that was mapped, and ends else. -/
theorem share_result {w : Bool × Phys} {s' : Phys} {loop : Nat → Phys} (Q : Phys → Prop)
    (F : Phys → Phys) (rest : Nat → Phys → Phys)
    (hone : ∀ k, loop k = match w with
      | (false, s) => s
      | (true, s) => rest k (F s))
    (hres : w.1 = true ∧ s' = F w.2 ∨ w.1 = false ∧ Q w.2 ∧ s' = w.2) :
    (∀ k, loop k = rest k s') ∨ Q s' ∧ ∀ k, loop k = s' := by
  obtain ⟨ok, s₂⟩ := w
  rcases hres with ⟨hok, rfl⟩ | ⟨hno, hfail, rfl⟩
  · cases hok
    exact .inl hone
  · cases hno
    exact .inr ⟨hfail, hone⟩

/-- A round of `uvm_cow_share` where nothing is mapped. -/
theorem shareLoop_skip (h : Vm kend s g) (hrp : g.tgt (nd p .root) = some rp) (hz : g.lf p v = 0)
    (rc k : Nat) : Phys.shareLoop rp rc (k + 1) s (v.val * PGSIZE) =
      Phys.shareLoop rp rc k s ((v.val + 1) * PGSIZE) := by
  have hnext : v.val * PGSIZE + PGSIZE = (v.val + 1) * PGSIZE := (Nat.succ_mul _ _).symm
  rw [Phys.shareLoop, h.walk_user hrp (vpn_page v.lt), hnext]
  cases hl : g.tgt (nd p (lowOf v)) with
  | none => rfl
  | some l =>
    have hword := h.low_word hl
    rw [hz] at hword
    simp only [Option.map_some]
    rw [hword, if_pos (by decide)]

/-- A round at a page that the parent can write, which it cannot any more then. -/
theorem shareLoop_write (h : Vm kend s g) (hrp : g.tgt (nd p .root) = some rp)
    (hl : g.tgt (nd p (lowOf v)) = some l) (hlf : g.lf p v = mkPte n 23) (rc k : Nat) :
    Phys.shareLoop rp rc (k + 1) s (v.val * PGSIZE) =
      match Phys.mapLoop rc 275 0 (s.setMem (s.mem.setWord l (ix0 v) (mkPte n 275)))
        (v.val * PGSIZE) n with
      | (false, s) => s
      | (true, s) => Phys.shareLoop rp rc k ((s.krefInc n).take (v.val * PGSIZE))
          ((v.val + 1) * PGSIZE) := by
  have hnext : v.val * PGSIZE + PGSIZE = (v.val + 1) * PGSIZE := (Nat.succ_mul _ _).symm
  have hword := h.low_word hl
  rw [hlf] at hword
  have hvalid := flag_valid (.inr (.inl rfl) : 23 = 19 ∨ 23 = 23 ∨ 23 = 275) n
  rw [Phys.shareLoop, h.walk_user hrp (vpn_page v.lt), hnext, hl]
  simp only [Option.map_some]
  rw [hword, if_neg hvalid, pte2pa_mkPte n (by decide), pteFlags_mkPte n (by decide), mappages_one]
  have hfl : 23 &&& 1023 - PTE_W ||| PTE_COW = 275 := rfl
  rewrite [hfl, pa2pte_or n (by decide), if_pos (by decide), if_pos (by decide)]
  rfl

/-- A round at a page that the parent cannot write. -/
theorem shareLoop_read (h : Vm kend s g) (hrp : g.tgt (nd p .root) = some rp)
    (hl : g.tgt (nd p (lowOf v)) = some l) (hlf : g.lf p v = mkPte n f) (hf : f = 19 ∨ f = 275)
    (rc k : Nat) : Phys.shareLoop rp rc (k + 1) s (v.val * PGSIZE) =
      match Phys.mapLoop rc f 0 s (v.val * PGSIZE) n with
      | (false, s) => s
      | (true, s) => Phys.shareLoop rp rc k ((s.krefInc n).take (v.val * PGSIZE))
          ((v.val + 1) * PGSIZE) := by
  have hnext : v.val * PGSIZE + PGSIZE = (v.val + 1) * PGSIZE := (Nat.succ_mul _ _).symm
  have hword := h.low_word hl
  rw [hlf] at hword
  have hvalid : mkPte n f &&& PTE_V ≠ 0 := flag_valid (by omega) n
  have hnw : ¬ f &&& PTE_W ≠ 0 := by
    rcases hf with rfl | rfl <;> decide
  rw [Phys.shareLoop, h.walk_user hrp (vpn_page v.lt), hnext, hl]
  simp only [Option.map_some]
  rewrite [hword, if_neg hvalid, pte2pa_mkPte n (by omega), pteFlags_mkPte n (by omega),
    mappages_one, if_neg hnw, if_neg hnw]
  rfl

/-- The parent's entry for page `v` becomes read-only, shared for copy on write. -/
theorem setCow (h : Vm kend s g) (hl : g.tgt (nd p (lowOf v)) = some l)
    (hn : g.tgt (p, .leaf v) = some n) :
    Vm kend (s.setMem (s.mem.setWord l (ix0 v) (mkPte n 275)))
        (g.setLf p (Function.update (g.lf p) v (mkPte n 275))) ∧
      SlotStep (· = p) s g (s.setMem (s.mem.setWord l (ix0 v) (mkPte n 275)))
        (g.setLf p (Function.update (g.lf p) v (mkPte n 275))) := by
  have hnw : mkPte n 275 &&& PTE_W = 0 := by
    rw [mkPte_and n (by decide) (by decide)]
    decide
  exact h.setEntry hl (mkPte_lt (h.alloc.bal.target _ n hn).2 (by decide))
    (fun _ => .inr ⟨n, 275, hn, rfl, .inr (.inr rfl)⟩) fun hne => absurd hnw hne

/-- One round of `uvm_cow_share`. -/
theorem sharePage (h : Vm kend s g) (hpc : p ≠ c) (hi : Inherits g p c)
    (hrp : g.tgt (nd p .root) = some rp) (hrc : g.tgt (nd c .root) = some rc) (hv : 16 ≤ v.val)
    (hfree : g.tgt (c, .leaf v) = none) :
    ∃ s' g', Vm kend s' g' ∧ SlotStep (Pair p c) s g s' g' ∧ Shared p c (· = v.val) s g s' g' ∧
      Inherits g' p c ∧
      ((∀ k, Phys.shareLoop rp rc (k + 1) s (v.val * PGSIZE) =
          Phys.shareLoop rp rc k s' ((v.val + 1) * PGSIZE)) ∨
        (s'.failed = true ∧ Scarce (nd c) (g.Has p (· = v.val)) g.tgt g.fl) ∧
          ∀ k, Phys.shareLoop rp rc (k + 1) s (v.val * PGSIZE) = s') := by
  rcases h.entry_cases (p := p) hv with ⟨hz, hnone⟩ | ⟨n, f, l, hlf, hf, ht, hl⟩
  · -- nothing is mapped here
    refine ⟨s, g, h, .refl .., .refl s g ?_, hi, .inl (h.shareLoop_skip hrp hz rc)⟩
    intro u hu
    obtain rfl : u = v := Fin.ext hu
    rw [hfree, hnone, hz, h.leaf_zero hv hfree]
    exact ⟨rfl, rfl, rfl⟩
  · by_cases hw : f = 23
    · subst hw
      -- the parent loses the right to write first
      obtain ⟨h₁, st₁⟩ := h.setCow hl ht
      obtain ⟨s', g', hvm, hst, hsh, hin, hres⟩ := shareReadonly h₁ hpc hi hrc rfl rfl rfl
        (Function.update_of_ne hpc.symm _ _) (st₁.mono fun q hq => .inl hq)
        (fun k hk => s.mem.setWord_of_ne fun he => hk _ (he ▸ hl)) rfl rfl
        (by
          intro u
          by_cases hu : u = v.val
          · refine .inr ⟨hu, n, hu ▸ hlf, ?_⟩
            simp [Ghost.setLf, hu]
          · left
            simp [Ghost.setLf, hu])
        ht hv (f := 275) (by simp [Ghost.setLf]) (.inr rfl) hfree
      refine ⟨s', g', hvm, hst, hsh, hin, ?_⟩
      exact share_result (fun s' => s'.failed = true ∧ Scarce (nd c) (g.Has p (· = v.val)) g.tgt g.fl)
        (fun s => (s.krefInc n).take (v.val * PGSIZE))
        (fun k s => Phys.shareLoop rp rc k s ((v.val + 1) * PGSIZE))
        (h.shareLoop_write hrp hl hlf rc) hres
    · have hf' : f = 19 ∨ f = 275 := by omega
      obtain ⟨s', g', hvm, hst, hsh, hin, hres⟩ := shareReadonly h hpc hi hrc rfl rfl rfl rfl
        (.refl ..) (fun _ _ => rfl) rfl rfl (fun _ => .inl rfl) ht hv hlf hf' hfree
      refine ⟨s', g', hvm, hst, hsh, hin, ?_⟩
      exact share_result (fun s' => s'.failed = true ∧ Scarce (nd c) (g.Has p (· = v.val)) g.tgt g.fl)
        (fun s => (s.krefInc n).take (v.val * PGSIZE))
        (fun k s => Phys.shareLoop rp rc k s ((v.val + 1) * PGSIZE))
        (h.shareLoop_read hrp hl hlf hf' rc) hres

/-- `uvm_cow_share` over `k` pages from page `v` on, which the child does not have yet. -/
theorem shareLoop {v : Nat} (h : Vm kend s g) (hpc : p ≠ c) (hi : Inherits g p c)
    (hrp : g.tgt (nd p .root) = some rp) (hrc : g.tgt (nd c .root) = some rc) (hlo : 16 ≤ v)
    (hhi : v + k ≤ 0xC000) (hfree : ∀ u : UPage, v ≤ u.val → g.tgt (c, .leaf u) = none) :
    let s' := Phys.shareLoop rp rc k s (v * PGSIZE)
    ∃ g', Vm kend s' g' ∧ SlotStep (Pair p c) s g s' g' ∧
      Shared p c (fun u => v ≤ u ∧ u < v + k) s g s' g' ∧ Inherits g' p c := by
  induction k generalizing s g v with
  | zero =>
    refine ⟨g, h, .refl .., .refl s g fun u hu => ?_, hi⟩
    omega
  | succ k ih =>
    obtain ⟨w, rfl⟩ : ∃ w : UPage, w.val = v := ⟨⟨v, by omega⟩, rfl⟩
    obtain ⟨s₁, g₁, h₁, st₁, sh₁, in₁, hres⟩ := h.sharePage hpc hi hrp hrc hlo
      (hfree w (Nat.le_refl _))
    have hin (u : Nat) (hu : u = w.val) : w.val ≤ u ∧ u < w.val + (k + 1) := by omega
    rcases hres with hgo | ⟨⟨hfail, hsc⟩, hstop⟩
    · have hfree₁ (u : UPage) (hu : w.val + 1 ≤ u.val) : g₁.tgt (c, .leaf u) = none := by
        rw [sh₁.leaf u (by omega)]
        exact hfree u (by omega)
      obtain ⟨g₂, h₂, st₂, sh₂, in₂⟩ := ih (v := w.val + 1) h₁ in₁ ((sh₁.parent _).trans hrp)
        (sh₁.node _ _ hrc) (by omega) (by omega) hfree₁
      rw [hgo]
      refine ⟨g₂, h₂, st₁.trans st₂, (sh₁.trans sh₂ fun u hu => ?_).congr fun u => ?_, in₂⟩
      · omega
      · omega
    · rw [hstop]
      exact ⟨g₁, h₁, st₁, sh₁.fail hfail (hsc.mono fun u hu => ⟨hin u hu.1, hu.2⟩) hin, in₁⟩

end Vm

end KernelHobby
