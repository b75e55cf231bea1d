import KernelHobby.VmOps

namespace KernelHobby
set_option autoImplicit true

/-- The lowest node that has the entry of a page. -/
def lowOf (v : Nat) : Node := .low (ix2 v) (ix1 v)

theorem UPage.lt (v : UPage) : v.val < 2 ^ 27 := Nat.lt_trans v.isLt (by decide)

theorem sole_of_none (h : tgt x = none) : Sole tgt x := by
  intro n y hx
  rw [h] at hx
  cases hx

namespace Vm
variable {s s' : Phys} {g : Ghost} {p q c : Slot} {x : SPos} {v : UPage}

/-- A page that has an entry has the node for it. -/
theorem low_of_entry {u : Nat} (h : Vm kend s g) (hu : u < 2 ^ 27) (hlf : g.lf p u ≠ 0) :
    ∃ l, g.tgt (nd p (lowOf u)) = some l := by
  cases hl : g.tgt (nd p (lowOf u)) with
  | none => exact absurd ((h.slot p).holds.absent u hu hl) hlf
  | some l => exact ⟨l, rfl⟩

/-- The entry for page `v` of `p` changes, and the references with it: what is left to show of the
address space. -/
theorem slotOk_leaf (h : Vm kend s g) (hl : g.tgt (nd p (lowOf v)) = some l) (hw : w < 2 ^ 64)
    {tgt' : Pos → Option Nat} (hnode : ∀ y, tgt' (nd p y) = g.tgt (nd p y))
    (hleaf : ∀ u, u ≠ v → tgt' (p, .leaf u) = g.tgt (p, .leaf u)) (hr : SlotRefs tgt' p)
    (hs : ∀ u, u ≠ v → Sole g.tgt (p, .leaf u) → Sole tgt' (p, .leaf u))
    (hok : 16 ≤ v.val → LeafOk w (tgt' (p, .leaf v)))
    (hbare : v.val < 16 → tgt' (p, .leaf v) = none)
    (hwrite : w &&& PTE_W ≠ 0 → Sole tgt' (p, .leaf v))
    {m : Mem} (hm : ∀ y n, g.tgt (nd p y) = some n → m n = s.mem n) :
    SlotOk (m.setWord l (ix0 v) w) tgt' p (Function.update (g.lf p) v w) where
  holds := by
    have hn : (fun y => tgt' (nd p y)) = fun y => g.tgt (nd p y) := funext hnode
    rw [hn]
    exact ((h.slot p).holds.congr hm).setLeaf (h.tab p).distinct v.lt hl hw
  own := hr.own
  inslot := hr.inslot
  leaf u hu := by
    by_cases huv : u = v
    · rw [huv, Function.update_self]
      exact hok (huv ▸ hu)
    · rw [Function.update_of_ne fun he => huv (Fin.ext he), hleaf u huv]
      exact (h.slot p).leaf u hu
  bare u hu := by
    by_cases huv : u = v
    · rw [huv]
      exact hbare (huv ▸ hu)
    · rw [hleaf u huv]
      exact (h.slot p).bare u hu
  write u hu := by
    by_cases huv : u = v
    · rw [huv] at hu ⊢
      rw [Function.update_self] at hu
      exact hwrite hu
    · rw [Function.update_of_ne fun he => huv (Fin.ext he)] at hu
      exact hs u huv ((h.slot p).write u hu)

/-- Pages of the others are no nodes of `p`. -/
theorem ne_node (h : Vm kend s g) (hl : g.tgt (nd p y) = some l) (hq : q ≠ p)
    (hx : g.tgt (q, x) = some n) : n ≠ l := by
  rintro rfl
  have he := (h.slot p).own (.node y) trivial n (q, x) hl hx
  exact hq (congrArg Prod.fst he)

theorem setWord_node (h : Vm kend s g) (hl : g.tgt (nd p y) = some l) (m : Mem) (hk : k ∈ g.fl) :
    m.setWord l i w k = m k := by
  apply m.setWord_of_ne
  rintro rfl
  exact h.alloc.bal.not_free hl hk

/-- A lowest entry changes and no reference with it. -/
theorem setEntry (h : Vm kend s g) (hl : g.tgt (nd p (lowOf v)) = some l) (hw : w < 2 ^ 64)
    (hok : 16 ≤ v.val → LeafOk w (g.tgt (p, .leaf v)))
    (hwrite : w &&& PTE_W ≠ 0 → Sole g.tgt (p, .leaf v)) :
    Vm kend (s.setMem (s.mem.setWord l (ix0 v) w)) (g.setLf p (Function.update (g.lf p) v w)) ∧
      SlotStep (· = p) s g (s.setMem (s.mem.setWord l (ix0 v) w))
        (g.setLf p (Function.update (g.lf p) v w)) := by
  have hstep : SlotStep (· = p) s g (s.setMem (s.mem.setWord l (ix0 v) w))
      (g.setLf p (Function.update (g.lf p) v w)) :=
    ⟨fun _ _ _ => rfl, fun q hq => Function.update_of_ne hq _ _, fun _ hn => hn,
      fun q y n hq hy => s.mem.setWord_of_ne (h.ne_node hl hq hy), id⟩
  refine ⟨h.step hstep (h.alloc.setMem fun k hk => h.setWord_node hl _ hk) h.lost ?_, hstep⟩
  intro q hq
  rw [hq]
  have hlf : (g.setLf p (Function.update (g.lf p) v w)).lf p = Function.update (g.lf p) v w :=
    Function.update_self ..
  rw [hlf]
  exact h.slotOk_leaf hl hw (fun _ => rfl) (fun _ _ => rfl) (h.slot p).refs (fun _ _ hu => hu) hok
    ((h.slot p).bare v) hwrite fun _ _ _ => rfl

/-- The page in hand is mapped. -/
theorem putLeaf (h : Vm kend s g) (hl : g.tgt (nd p (lowOf v)) = some l)
    (hn : g.tgt (p, .fresh) = some n) (hv : 16 ≤ v.val) (hnone : g.tgt (p, .leaf v) = none)
    (hf : f = 19 ∨ f = 23 ∨ f = 275) :
    let g' := ((g.set (p, .fresh) none).set (p, .leaf v) (some n)).setLf p
      (Function.update (g.lf p) v (mkPte n f))
    Vm kend (s.setMem (s.mem.setWord l (ix0 v) (mkPte n f))) g' ∧
      SlotStep (· = p) s g (s.setMem (s.mem.setWord l (ix0 v) (mkPte n f))) g' := by
  intro g'
  have hgone := ((h.slot p).own .fresh trivial).gone hn
  have hlt : mkPte n f < 2 ^ 64 := by
    apply mkPte_lt (h.alloc.bal.target _ n hn).2
    omega
  have hstep : SlotStep (· = p) s g (s.setMem (s.mem.setWord l (ix0 v) (mkPte n f))) g' := by
    constructor
    · intro q y hq
      have hne (z : SPos) : (q, y) ≠ (p, z) := fun he => hq (congrArg Prod.fst he)
      exact (Function.update_of_ne (hne _) _ _).trans (Function.update_of_ne (hne _) _ _)
    · intro q hq
      exact Function.update_of_ne hq _ _
    · rintro k (hk | ⟨q, y, rfl, hy⟩)
      · exact .inl hk
      · rcases update_some_some hy with hy | ⟨_, rfl⟩
        · exact .inr ⟨q, y, rfl, update_none_some hy⟩
        · exact .inr ⟨q, .fresh, rfl, hn⟩
    · intro q y k hq hy
      exact s.mem.setWord_of_ne (h.ne_node hl hq hy)
    · exact id
  refine ⟨h.step hstep ((h.alloc.move hn hnone).setMem fun k hk => h.setWord_node hl _ hk) ?_ ?_,
    hstep⟩
  · intro y k hy
    rcases update_some_some hy with hy | ⟨_, rfl⟩
    · exact h.lost y k (update_none_some hy)
    · exact h.lost _ k hn
  · intro q hq
    rw [hq]
    have hlf : g'.lf p = Function.update (g.lf p) v (mkPte n f) := Function.update_self ..
    rw [hlf]
    refine h.slotOk_leaf hl hlt ?_ ?_ (((h.slot p).refs.erase _).insert hgone _) ?_ ?_ ?_ ?_
      fun _ _ _ => rfl
    · intro y
      simp [nd]
    · intro u hu
      simp [hu]
    · intro u _ hs
      exact (hs.erase _).insert hgone _
    · intro _
      exact .inr ⟨n, f, Function.update_self .., rfl, hf⟩
    · intro hlt
      omega
    · intro _
      exact .new hgone _

/-- A mapped page is given back and its entry cleared. -/
theorem clearLeaf (h : Vm kend s g) (hl : g.tgt (nd p (lowOf v)) = some l)
    (hn : g.tgt (p, .leaf v) = some n) (hv : 16 ≤ v.val) (a : Nat) :
    let s' := ((s.kfree n).take a).setMem ((s.kfree n).mem.setWord l (ix0 v) 0)
    ∃ fl', let g' := ((g.set (p, .leaf v) none).setFl fl').setLf p (Function.update (g.lf p) v 0)
      Vm kend s' g' ∧ SlotStep (· = p) s g s' g' ∧ Freed s g.fl n (s.kfree n) fl' := by
  intro s'
  obtain ⟨fl', ha, hfr⟩ := h.alloc.kfree hn
  have hmem (y : Pos) (k : Nat) (hy : g.tgt y = some k) (hne : y ≠ (p, .leaf v)) :
      (s.kfree n).mem k = s.mem k := Alloc.kfree_mem ha hfr hy hne
  refine ⟨fl', ?_⟩
  intro g'
  have hstep : SlotStep (· = p) s g s' g' := by
    constructor
    · intro q y hq
      exact Function.update_of_ne (fun he => hq (congrArg Prod.fst he)) _ _
    · intro q hq
      exact Function.update_of_ne hq _ _
    · rintro k (hk | ⟨q, y, rfl, hy⟩)
      · rcases hfr.sub k hk with hk | rfl
        · exact .inl hk
        · exact .inr ⟨p, .leaf v, rfl, hn⟩
      · exact .inr ⟨q, y, rfl, update_none_some hy⟩
    · intro q y k hq hy
      have hne : (q, y) ≠ (p, .leaf v) := fun he => hq (congrArg Prod.fst he)
      exact (Mem.setWord_of_ne _ (h.ne_node hl hq hy)).trans (hmem _ k hy hne)
    · intro hf
      exact (s.kfree_failed n).trans hf
  have ha' : Alloc kend ((s.kfree n).take a) g'.tgt g'.lost g'.fl :=
    ⟨ha.kernel, ha.bal, ha.chain, ha.cnt⟩
  refine ⟨h.step hstep (ha'.setMem fun k hk => ?_) ?_ ?_, hstep, hfr⟩
  · apply Mem.setWord_of_ne
    rintro rfl
    have hl' : g'.tgt (nd p (lowOf v)) = some k := by
      have hne : nd p (lowOf v) ≠ (p, .leaf v) := fun he =>
        SPos.noConfusion (congrArg Prod.snd he)
      exact (Function.update_of_ne hne _ _).trans hl
    exact ha'.bal.not_free hl' hk
  · intro y k hy
    exact h.lost y k (update_none_some hy)
  · intro q hq
    rw [hq]
    have hlf : g'.lf p = Function.update (g.lf p) v 0 := Function.update_self ..
    rw [hlf]
    refine h.slotOk_leaf hl (Nat.two_pow_pos 64) ?_ ?_ ((h.slot p).refs.erase _) ?_ ?_ ?_ ?_ ?_
    · intro y
      simp [nd]
    · intro u hu
      simp [hu]
    · intro u _ hs
      exact hs.erase _
    · intro _
      exact .inl ⟨rfl, Function.update_self ..⟩
    · intro hlt
      omega
    · intro hne
      exact absurd (Nat.zero_and _) hne
    · intro y k hy
      exact hmem _ k hy fun he => SPos.noConfusion (congrArg Prod.snd he)

/-- A page has at most one reference of each process. -/
theorem refcnt_le (h : Vm kend s g) (hx : g.tgt y = some n) : (s.refcnt n).toNat ≤ NPROC := by
  have hc := h.alloc.bal.count n (h.alloc.bal.target y n hx)
  have hl := h.lost y n hx
  have hle : refs g.tgt n ≤ Fintype.card Slot := by
    apply refs_le_card Prod.fst
    intro a b ha hb hab
    obtain ⟨q, a⟩ := a
    obtain ⟨r, b⟩ := b
    obtain rfl : q = r := hab
    rw [(h.slot q).inslot a b n ha hb]
  rw [Fintype.card_fin] at hle
  omega

/-- An address space whose page at `v`, which it cannot write, is referred to elsewhere as well. -/
theorem slotOk_shared (h : Vm kend s g) {tgt' : Pos → Option Nat}
    (ht : ∀ y, tgt' (p, y) = g.tgt (p, y)) {m : Mem}
    (hm : ∀ y n, g.tgt (nd p y) = some n → m n = s.mem n)
    (hs : ∀ y, y ≠ .leaf v → Sole g.tgt (p, y) → Sole tgt' (p, y)) (hnw : g.lf p v &&& PTE_W = 0) :
    SlotOk m tgt' p (g.lf p) where
  holds := by
    have hnode : (fun y => tgt' (nd p y)) = fun y => g.tgt (nd p y) := funext fun y => ht (.node y)
    rw [hnode]
    exact (h.slot p).holds.congr hm
  own y hy := by
    refine hs y ?_ ((h.slot p).own y hy)
    rintro rfl
    exact hy
  inslot y z k hy hz := by
    rw [ht] at hy hz
    exact (h.slot p).inslot y z k hy hz
  leaf u hu := by
    rw [ht]
    exact (h.slot p).leaf u hu
  bare u hu := by
    rw [ht]
    exact (h.slot p).bare u hu
  write u hu := by
    refine hs _ ?_ ((h.slot p).write u hu)
    rintro hv
    rw [SPos.leaf.inj hv] at hu
    exact hu hnw

/-- A slot gets a reference to a page that it has not. -/
theorem inslot_new (h : Vm kend s g) (hnone : ∀ x, g.tgt (c, x) ≠ some n) (x y z : SPos) (k : Nat)
    (hy : Function.update g.tgt (c, x) (some n) (c, y) = some k)
    (hz : Function.update g.tgt (c, x) (some n) (c, z) = some k) : y = z := by
  rcases update_some_some hy with hy₀ | ⟨hyc, rfl⟩
  · rcases update_some_some hz with hz₀ | ⟨_, rfl⟩
    · exact (h.slot c).inslot y z k hy₀ hz₀
    · exact absurd hy₀ (hnone y)
  · rcases update_some_some hz with hz₀ | ⟨hzc, _⟩
    · exact absurd hz₀ (hnone z)
    · exact congrArg Prod.snd (hyc.trans hzc.symm)

/-- The page at `v` of `p`, which `p` cannot write, is mapped at the same place of `c`. -/
theorem shareLeaf (h : Vm kend s g) (hpc : p ≠ c) (hl : g.tgt (nd c (lowOf v)) = some l)
    (hn : g.tgt (p, .leaf v) = some n) (hv : 16 ≤ v.val) (hnone : ∀ x, g.tgt (c, x) ≠ some n)
    (hfree : g.tgt (c, .leaf v) = none) (hlf : g.lf p v = mkPte n f) (hf : f = 19 ∨ f = 275)
    (a : Nat) :
    let s' := ((s.setMem (s.mem.setWord l (ix0 v) (mkPte n f))).krefInc n).take a
    let g' := (g.set (c, .leaf v) (some n)).setLf c (Function.update (g.lf c) v (mkPte n f))
    Vm kend s' g' ∧ SlotStep (fun q => q = p ∨ q = c) s g s' g' := by
  intro s' g'
  have hcp : c ≠ p := hpc.symm
  have hlt : mkPte n f < 2 ^ 64 := by
    apply mkPte_lt (h.alloc.bal.target _ n hn).2
    omega
  have hnw : mkPte n f &&& PTE_W = 0 := by
    rw [mkPte_and n (by omega) (by decide)]
    rcases hf with rfl | rfl <;> decide
  -- only the entry of `p`, which is read-only, does not keep its page for itself
  have hsole (z : Pos) (hz : Sole g.tgt z) (hzp : z ≠ (p, .leaf v)) (hzc : z ≠ (c, .leaf v)) :
      Sole g'.tgt z := by
    intro k y hk hy
    have hk₀ : g.tgt z = some k := (Function.update_of_ne hzc _ _).symm.trans hk
    rcases update_some_some hy with hy₀ | ⟨_, rfl⟩
    · exact hz k y hk₀ hy₀
    · exact absurd (hz k _ hk₀ hn).symm hzp
  have hstep : SlotStep (fun q => q = p ∨ q = c) s g s' g' := by
    constructor
    · intro q y hq
      exact Function.update_of_ne (fun he => hq (.inr (congrArg Prod.fst he))) _ _
    · intro q hq
      exact Function.update_of_ne (fun he => hq (.inr he)) _ _
    · rintro k (hk | ⟨q, y, hq, hy⟩)
      · exact .inl hk
      · rcases update_some_some hy with hy₀ | ⟨_, rfl⟩
        · exact .inr ⟨q, y, hq, hy₀⟩
        · exact .inr ⟨p, .leaf v, .inl rfl, hn⟩
    · intro q y k hq hy
      exact s.mem.setWord_of_ne (h.ne_node hl (fun he => hq (.inr he)) hy)
    · exact id
  have hcnt : (s.refcnt n).toNat < 255 := Nat.lt_of_le_of_lt (h.refcnt_le hn) (by decide)
  have ha : Alloc kend ((s.setMem (s.mem.setWord l (ix0 v) (mkPte n f))).krefInc n) g'.tgt g.lost
      g.fl := (h.alloc.setMem fun k hk => h.setWord_node hl _ hk).krefInc hfree hn hcnt
  refine ⟨h.step hstep ⟨ha.kernel, ha.bal, ha.chain, ha.cnt⟩ ?_ ?_, hstep⟩
  · intro y k hy
    rcases update_some_some hy with hy₀ | ⟨_, rfl⟩
    · exact h.lost y k hy₀
    · exact h.lost _ k hn
  · rintro q (hq | hq)
    · rw [hq]
      have hlfp : g'.lf p = g.lf p := Function.update_of_ne hpc _ _
      have hzc (y : SPos) : (p, y) ≠ (c, SPos.leaf v) := fun he => hpc (congrArg Prod.fst he)
      rw [hlfp]
      exact h.slotOk_shared (fun y => Function.update_of_ne (hzc y) _ _)
        (fun y k hy => s.mem.setWord_of_ne (h.ne_node hl hpc hy))
        (fun y hy hs => hsole _ hs (fun he => hy (congrArg Prod.snd he)) (hzc y))
        (by rw [hlf]; exact hnw)
    · rw [hq]
      have hlfc : g'.lf c = Function.update (g.lf c) v (mkPte n f) := Function.update_self ..
      have hzp (y : SPos) : (c, y) ≠ (p, SPos.leaf v) := fun he => hcp (congrArg Prod.fst he)
      rw [hlfc]
      refine h.slotOk_leaf hl hlt ?_ ?_ ?_ ?_ ?_ ?_ ?_ fun _ _ _ => rfl
      · intro y
        simp [g', Ghost.set, Ghost.setLf, nd]
      · intro u hu
        simp [g', Ghost.set, Ghost.setLf, hu]
      · refine ⟨fun y hy => hsole _ ((h.slot c).own y hy) (hzp y) fun he => ?_,
          h.inslot_new hnone _⟩
        obtain rfl : y = .leaf v := congrArg Prod.snd he
        exact hy
      · intro u hu hs
        exact hsole _ hs (hzp _) fun he => hu (SPos.leaf.inj (congrArg Prod.snd he))
      · intro _
        exact .inr ⟨n, f, Function.update_self .., rfl, by omega⟩
      · intro hlt
        omega
      · intro hne
        exact absurd hnw hne

/-- The entry for page `v`, shared for copy on write, gets the copy in hand. -/
theorem cowLeaf (h : Vm kend s g) (hl : g.tgt (nd p (lowOf v)) = some l)
    (hn : g.tgt (p, .fresh) = some n) (hk : g.tgt (p, .leaf v) = some k) (hv : 16 ≤ v.val)
    (hold : g.tgt (p, .old) = none) :
    let s' := s.setMem (s.mem.setWord l (ix0 v) (mkPte n 23))
    let g' := ((((g.set (p, .leaf v) none).set (p, .old) (some k)).set (p, .fresh) none).set
      (p, .leaf v) (some n)).setLf p (Function.update (g.lf p) v (mkPte n 23))
    Vm kend s' g' ∧ SlotStep (· = p) s g s' g' ∧
      ∀ u, u ≠ v → Sole g.tgt (p, .leaf u) → Sole g'.tgt (p, .leaf u) := by
  intro s' g'
  have hlt : mkPte n 23 < 2 ^ 64 := mkPte_lt (h.alloc.bal.target _ n hn).2 (by decide)
  have hp := h.slot p
  have hnk : n ≠ k := by
    rintro rfl
    cases hp.inslot _ _ n hn hk
  let t₁ : Pos → Option Nat :=
    Function.update (Function.update g.tgt (p, .leaf v) none) (p, .old) (some k)
  have hfresh : t₁ (p, .fresh) = some n := by
    simp [t₁, hn]
  have hleaf : t₁ (p, .leaf v) = none := by
    simp [t₁]
  have ht₁ (y : Pos) (m : Nat) (hy : t₁ y = some m) : g.tgt y = some m ∨ y = (p, .old) ∧ m = k := by
    rcases update_some_some hy with hy | hy
    · exact .inl (update_none_some hy)
    · exact .inr hy
  -- the page shared so far has no other place of `p`
  have hslot (y : SPos) (hy : y ≠ .leaf v) : g.tgt (p, y) ≠ some k := fun he =>
    hy (hp.inslot y _ k he hk)
  have hsole₁ (y : SPos) (hs : Sole g.tgt (p, y)) (hyv : y ≠ .leaf v) (hyo : y ≠ .old) :
      Sole t₁ (p, y) :=
    (hs.erase _).other (fun he => hslot y hyv (update_none_some he))
      fun he => hyo (congrArg Prod.snd he)
  have hrefs₁ : SlotRefs t₁ p := by
    constructor
    · intro y hy
      refine hsole₁ y (hp.own y hy) ?_ ?_
      · rintro rfl
        exact hy
      · rintro rfl
        exact hy
    · have hkept (y : SPos) (hy : t₁ (p, y) = some k) : y = .old := by
        rcases update_some_some hy with hy₀ | ⟨hy₀, _⟩
        · have hyv := hp.inslot y _ k (update_none_some hy₀) hk
          rw [hyv, Function.update_self] at hy₀
          cases hy₀
        · exact congrArg Prod.snd hy₀
      intro y z m hy hz
      rcases ht₁ _ m hy with hy₀ | ⟨_, rfl⟩
      · rcases ht₁ _ m hz with hz₀ | ⟨_, rfl⟩
        · exact hp.inslot y z m hy₀ hz₀
        · rw [hkept y hy, hkept z hz]
      · rw [hkept y hy, hkept z hz]
  have hgone := (hrefs₁.own .fresh trivial).gone hfresh
  have hg' (y : Pos) (m : Nat) (hy : g'.tgt y = some m) : ∃ z, z.1 = y.1 ∧ g.tgt z = some m := by
    rcases update_some_some hy with hy₀ | ⟨rfl, rfl⟩
    · rcases ht₁ y m (update_none_some hy₀) with hy₁ | ⟨rfl, rfl⟩
      · exact ⟨y, rfl, hy₁⟩
      · exact ⟨(p, .leaf v), rfl, hk⟩
    · exact ⟨(p, .fresh), rfl, hn⟩
  have hstep : SlotStep (· = p) s g s' g' := by
    constructor
    · intro q y hq
      have hne : q ≠ p := hq
      simp [g', Ghost.set, Ghost.setLf, hne]
    · intro q hq
      exact Function.update_of_ne hq _ _
    · rintro m (hm | ⟨q, y, rfl, hy⟩)
      · exact .inl hm
      · obtain ⟨⟨r, z⟩, hr, hz⟩ := hg' _ m hy
        exact .inr ⟨r, z, hr, hz⟩
    · intro q y m hq hy
      exact s.mem.setWord_of_ne (h.ne_node hl hq hy)
    · exact id
  have ha : Alloc kend s g'.tgt g'.lost g'.fl := (h.alloc.move hk hold).move hfresh hleaf
  have hsole (u : UPage) (hu : u ≠ v) (hs : Sole g.tgt (p, .leaf u)) :
      Sole g'.tgt (p, .leaf u) := by
    have hu' : SPos.leaf u ≠ .leaf v := fun he => hu (SPos.leaf.inj he)
    exact ((hsole₁ _ hs hu' nofun).erase _).insert hgone _
  refine ⟨h.step hstep (ha.setMem fun j hj => h.setWord_node hl _ hj) ?_ ?_, hstep, hsole⟩
  · intro y m hy
    obtain ⟨z, _, hz⟩ := hg' y m hy
    exact h.lost z m hz
  · intro q hq
    rw [hq]
    have hlf : g'.lf p = Function.update (g.lf p) v (mkPte n 23) := Function.update_self ..
    rw [hlf]
    refine h.slotOk_leaf hl hlt ?_ ?_ ((hrefs₁.erase _).insert hgone _) hsole ?_ ?_ ?_
      fun _ _ _ => rfl
    · intro y
      simp [t₁, nd]
    · intro u hu
      simp [t₁, hu]
    · intro _
      exact .inr ⟨n, 23, Function.update_self .., rfl, .inr (.inl rfl)⟩
    · intro hlt
      omega
    · intro _
      exact .new hgone _

end Vm

end KernelHobby
