import KernelHobby.PtAlloc

namespace KernelHobby
set_option autoImplicit true

variable {ι : Type} [Fintype ι] [DecidableEq ι] {kend : Nat} {s s' : Phys} {tgt tgt' : ι → Option Nat}
  {lost : Nat → Nat} {fl fl' : List Nat} {nd : Node → ι} {lf : Nat → Nat} {N : Finset Node}

/-- How many nodes of `N` are missing. -/
def missing (nd : Node → ι) (N : Finset Node) (tgt : ι → Option Nat) : Nat :=
  (N.filter fun x => tgt (nd x) = none).card

omit [DecidableEq ι] in
/-- Each page that a table takes is a node that was missing. -/
theorem Grown.count (hg : Grown nd s tgt fl s' tgt' fl') (ha : Alloc kend s tgt lost fl)
    (ha' : Alloc kend s' tgt' lost fl') (hN : ∀ x, x ∉ N → tgt' (nd x) = tgt (nd x)) :
    fl.length + missing nd N tgt' ≤ fl'.length + missing nd N tgt := by
  obtain ⟨us, hfl⟩ := hg.free
  have hd := ha.bal.nodup
  rw [hfl] at hd
  have hdis := List.disjoint_of_nodup_append hd
  -- the page of a node that was missing
  let A := N.filter fun x => tgt (nd x) = none ∧ tgt' (nd x) ≠ none
  have hsub : us.toFinset ⊆ A.image fun x => (tgt' (nd x)).getD 0 := by
    intro n hn
    rw [List.mem_toFinset] at hn
    have hfree : n ∈ fl := hfl ▸ List.mem_append_left _ hn
    have hm := ((ha.bal.free n).1 hfree).1
    have hpos : refs tgt' n ≠ 0 := by
      intro hz
      have hc := ha'.bal.count n hm
      have hl := ha.bal.free_lost hfree
      exact hdis hn ((ha'.bal.free n).2 ⟨hm, by omega⟩)
    have hex : ∃ y, tgt' y = some n := by
      by_contra hno
      exact hpos (refs_eq_zero.2 (not_exists.1 hno))
    obtain ⟨y, hy⟩ := hex
    have hy₀ : tgt y ≠ some n := fun he => ha.bal.not_free he hfree
    have hnode : ∃ x, y = nd x := by
      by_contra hno
      exact hy₀ ((hg.off y (not_exists.1 hno)).symm.trans hy)
    obtain ⟨x, rfl⟩ := hnode
    have hx₀ : tgt (nd x) = none := by
      cases hx : tgt (nd x) with
      | none => rfl
      | some k =>
        have hk := hg.keep _ k hx
        rw [hy] at hk
        cases hk
        exact absurd hx hy₀
    have hxN : x ∈ N := by
      by_contra hno
      exact hy₀ ((hN x hno).symm.trans hy)
    refine Finset.mem_image.2 ⟨x, Finset.mem_filter.2 ⟨hxN, hx₀, ?_⟩, ?_⟩
    · rw [hy]
      nofun
    · rw [hy]
      rfl
  have hus : us.length ≤ A.card := by
    rw [← List.toFinset_card_of_nodup (List.nodup_append.1 hd).1]
    exact (Finset.card_le_card hsub).trans Finset.card_image_le
  have hsplit : missing nd N tgt' + A.card ≤ missing nd N tgt := by
    rw [missing, missing, ← Finset.card_union_of_disjoint]
    · apply Finset.card_le_card
      intro x hx
      rcases Finset.mem_union.1 hx with hx | hx
      · obtain ⟨hxN, hx⟩ := Finset.mem_filter.1 hx
        refine Finset.mem_filter.2 ⟨hxN, ?_⟩
        cases hx₀ : tgt (nd x) with
        | none => rfl
        | some k =>
          rw [hg.keep _ k hx₀] at hx
          cases hx
      · obtain ⟨hxN, hx, _⟩ := Finset.mem_filter.1 hx
        exact Finset.mem_filter.2 ⟨hxN, hx⟩
    · rw [Finset.disjoint_left]
      intro x hx hx'
      exact (Finset.mem_filter.1 hx').2.2 (Finset.mem_filter.1 hx).2
  rw [hfl, List.length_append]
  omega

omit [Fintype ι] [DecidableEq ι] in
theorem missing_pos (hx : x ∈ N) (hn : tgt (nd x) = none) : 0 < missing nd N tgt :=
  Finset.card_pos.2 ⟨x, Finset.mem_filter.2 ⟨hx, hn⟩⟩

omit [Fintype ι] [DecidableEq ι] in
theorem missing_le (nd : Node → ι) (N : Finset Node) (tgt : ι → Option Nat) :
    missing nd N tgt ≤ N.card := Finset.card_filter_le _ _

/-- The nodes on the way to page `u`. -/
def PathIn (N : Finset Node) (u : Nat) : Prop := .mid (ix2 u) ∈ N ∧ .low (ix2 u) (ix1 u) ∈ N

/-- The table took pages for nodes on the way to pages of `R` only. -/
def NodeCount (nd : Node → ι) (R : Nat → Prop) (tgt : ι → Option Nat) (fl : List Nat)
    (tgt' : ι → Option Nat) (fl' : List Nat) : Prop :=
  ∀ N, (∀ u, R u → PathIn N u) → fl.length + missing nd N tgt' ≤ fl'.length + missing nd N tgt

/-- There are too few pages for the nodes on the way to the pages of `R`. -/
def Scarce (nd : Node → ι) (R : Nat → Prop) (tgt : ι → Option Nat) (fl : List Nat) : Prop :=
  ∀ N, (∀ u, R u → PathIn N u) → fl.length < missing nd N tgt

omit [DecidableEq ι] in
theorem Grown.counted (hg : Grown nd s tgt fl s' tgt' fl') (ha : Alloc kend s tgt lost fl)
    (ha' : Alloc kend s' tgt' lost fl')
    (hR : ∀ x, (∀ u, R u → x ≠ .mid (ix2 u) ∧ x ≠ .low (ix2 u) (ix1 u)) →
      tgt' (nd x) = tgt (nd x)) : NodeCount nd R tgt fl tgt' fl' := by
  intro N hN
  apply hg.count ha ha'
  intro x hx
  apply hR
  intro u hu
  obtain ⟨hmid, hlow⟩ := hN u hu
  exact ⟨fun he => hx (he ▸ hmid), fun he => hx (he ▸ hlow)⟩

section
omit [Fintype ι] [DecidableEq ι]
variable {R R' : Nat → Prop}

theorem NodeCount.refl (nd : Node → ι) (R : Nat → Prop) (tgt : ι → Option Nat) (fl : List Nat) :
    NodeCount nd R tgt fl tgt fl := fun _ _ => Nat.le_refl _

theorem NodeCount.mono (h : NodeCount nd R tgt fl tgt' fl') (hR : ∀ u, R u → R' u) :
    NodeCount nd R' tgt fl tgt' fl' := fun N hN => h N fun u hu => hN u (hR u hu)

theorem NodeCount.trans (h : NodeCount nd R tgt fl tgt' fl') (h' : NodeCount nd R tgt' fl' t f) :
    NodeCount nd R tgt fl t f := by
  intro N hN
  have h₁ := h N hN
  have h₂ := h' N hN
  omega

theorem Scarce.mono (h : Scarce nd R tgt fl) (hR : ∀ u, R u → R' u) : Scarce nd R' tgt fl :=
  fun N hN => h N fun u hu => hN u (hR u hu)

/-- What is missing later was missing before. -/
theorem NodeCount.scarce (h : NodeCount nd R tgt fl tgt' fl') (h' : Scarce nd R tgt' fl') :
    Scarce nd R tgt fl := by
  intro N hN
  have h₁ := h N hN
  have h₂ := h' N hN
  omega

theorem Scarce.of_nil (hu : R u) (hn : tgt (nd (.low (ix2 u) (ix1 u))) = none) :
    Scarce nd R tgt [] := fun _ hN => missing_pos (hN u hu).2 hn

end

omit [DecidableEq ι] in
theorem OnPath.counted (hp : OnPath nd v tgt tgt') (hg : Grown nd s tgt fl s' tgt' fl')
    (ha : Alloc kend s tgt lost fl) (ha' : Alloc kend s' tgt' lost fl') :
    NodeCount nd (· = v) tgt fl tgt' fl' := by
  apply hg.counted ha ha'
  intro x hx
  obtain ⟨hmid, hlow⟩ := hx v rfl
  exact hp x hmid hlow

omit [DecidableEq ι] in
/-- Mapping one page takes two pages for nodes at most. -/
theorem OnPath.two (hp : OnPath nd v tgt tgt') (hg : Grown nd s tgt fl s' tgt' fl')
    (ha : Alloc kend s tgt lost fl) (ha' : Alloc kend s' tgt' lost fl') :
    s.freecnt ≤ s'.freecnt + 2 := by
  have hcount := hp.counted hg ha ha' {.mid (ix2 v), .low (ix2 v) (ix1 v)} (by
    rintro _ rfl
    simp [PathIn])
  have hle := (missing_le nd {.mid (ix2 v), .low (ix2 v) (ix1 v)} tgt).trans Finset.card_le_two
  rw [ha.cnt, ha'.cnt]
  omega

/-- Nodes enough for every table of the kernel's: those for the first and the third gigabyte. -/
def kernNodes : Finset Node :=
  Finset.univ.image Node.mid ∪ (Finset.univ.image (Node.low 0) ∪ Finset.univ.image (Node.low 2))

theorem kernNodes_card : kernNodes.card ≤ 1536 := by
  have hcard (f : Fin 512 → Node) : (Finset.univ.image f).card ≤ 512 := by
    refine Finset.card_image_le.trans ?_
    rw [Finset.card_univ, Fintype.card_fin]
  have h₁ := hcard .mid
  have h₂ := hcard (.low 0)
  have h₃ := hcard (.low 2)
  have h₄ := Finset.card_union_le (Finset.univ.image (Node.low 0)) (Finset.univ.image (Node.low 2))
  have h₅ := Finset.card_union_le (Finset.univ.image Node.mid)
    (Finset.univ.image (Node.low 0) ∪ Finset.univ.image (Node.low 2))
  rw [kernNodes]
  omega

theorem mem_kernNodes (h : u < 0x40000 ∨ 0x80000 ≤ u ∧ u < 0xC0000) :
    .mid (ix2 u) ∈ kernNodes ∧ .low (ix2 u) (ix1 u) ∈ kernNodes := by
  refine ⟨Finset.mem_union_left _ (Finset.mem_image_of_mem _ (Finset.mem_univ _)),
    Finset.mem_union_right _ ?_⟩
  rcases h with h | h
  · have hz : ix2 u = 0 := by
      simp only [ix2, Fin.ext_iff]
      have h0 : ((0 : Fin 512) : Nat) = 0 := rfl
      omega
    rw [hz]
    exact Finset.mem_union_left _ (Finset.mem_image_of_mem _ (Finset.mem_univ _))
  · have hz : ix2 u = 2 := by
      simp only [ix2, Fin.ext_iff]
      have h2 : ((2 : Fin 512) : Nat) = 2 := rfl
      omega
    rw [hz]
    exact Finset.mem_union_right _ (Finset.mem_image_of_mem _ (Finset.mem_univ _))

theorem kernPte_ne (L : Layout)
    (h : 0xC000 ≤ u ∧ u < 0xC400 ∨ 0x10000 ≤ u ∧ u < 0x10009 ∨ 0x80200 ≤ u ∧ u < PHYSTOP) :
    kernPte L u ≠ 0 := by
  rw [kernPte]
  split
  · exact Nat.succ_ne_zero _
  · split
    · exact Nat.succ_ne_zero _
    · rw [if_pos (by omega)]
      exact Nat.succ_ne_zero _

namespace Tab

/-- Mapping one page where nothing is mapped. -/
theorem mapFree (h : Tab kend s tgt lost fl nd lf) (hr : tgt (nd .root) = some r)
    (hpa : pa < PHYSTOP) (hperm : perm ||| PTE_V < 1024) (hv : vpn a = v) (hlf : lf v = 0) :
    let w := Phys.mapLoop r perm 0 s a pa
    ∃ tgt' fl', Grown nd s tgt fl w.2 tgt' fl' ∧ NodeCount nd (· = v) tgt fl tgt' fl' ∧
      (w.1 = true ∧ w.2.failed = s.failed ∧
          Tab kend w.2 tgt' lost fl' nd (Function.update lf v (mkPte pa (perm ||| PTE_V))) ∨
        w.1 = false ∧ w.2.failed = true ∧ Tab kend w.2 tgt' lost fl' nd lf ∧
          Scarce nd (· = v) tgt fl) := by
  obtain ⟨tgt', fl', hg, hpath, hres⟩ := h.mapOne hr hpa hperm a
  rw [hv] at hpath hres
  rcases hres with ⟨hok, ⟨_, hfd⟩, ht⟩ | ⟨hno, ⟨hfail, rfl, hmiss⟩ | hne, ht⟩
  · exact ⟨tgt', fl', hg, hpath.counted hg h.alloc ht.alloc, .inl ⟨hok, hfd, ht⟩⟩
  · have hc := hpath.counted hg h.alloc ht.alloc
    exact ⟨tgt', [], hg, hc, .inr ⟨hno, hfail, ht, hc.scarce (.of_nil rfl hmiss)⟩⟩
  · rw [hlf] at hne
    exact absurd (Nat.zero_and _) hne

/-- What mapping pages of `R` comes to: the table has the entries `lf'`, or there are too few
pages. -/
def Maps (kend : Nat) (lost : Nat → Nat) (nd : Node → ι) (R : Nat → Prop) (s : Phys)
    (tgt : ι → Option Nat) (fl : List Nat) (lf' : Nat → Nat) (o : Option Phys) : Prop :=
  (∃ s' tgt' fl', o = some s' ∧ Grown nd s tgt fl s' tgt' fl' ∧ Tab kend s' tgt' lost fl' nd lf' ∧
    s'.failed = s.failed ∧ NodeCount nd R tgt fl tgt' fl') ∨ o = none ∧ Scarce nd R tgt fl

omit [DecidableEq ι] in
theorem Maps.bind (h : Maps kend lost nd R s tgt fl lf o)
    (hf : ∀ s' tgt' fl', Grown nd s tgt fl s' tgt' fl' → Tab kend s' tgt' lost fl' nd lf →
      Maps kend lost nd R s' tgt' fl' lf' (f s')) :
    Maps kend lost nd R s tgt fl lf' (o >>= f) := by
  rcases h with ⟨s₁, t₁, f₁, rfl, g₁, b₁, d₁, c₁⟩ | ⟨rfl, hs⟩
  · rcases hf s₁ t₁ f₁ g₁ b₁ with ⟨s₂, t₂, f₂, e₂, g₂, b₂, d₂, c₂⟩ | ⟨e₂, hs⟩
    · exact .inl ⟨s₂, t₂, f₂, e₂, g₁.trans g₂, b₂, d₂.trans d₁, c₁.trans c₂⟩
    · exact .inr ⟨e₂, c₁.scarce hs⟩
  · exact .inr ⟨rfl, hs⟩

/-- `kvmmap` where nothing is mapped yet. -/
theorem kvmmap (h : Tab kend s tgt lost fl nd lf) (perm : Nat) (hr : tgt (nd .root) = some r)
    (hv : v + k < PHYSTOP) (hperm : perm ||| PTE_V < 1024)
    (hR : ∀ u, v ≤ u → u ≤ v + k → R u ∧ lf u = 0) :
    Maps kend lost nd R s tgt fl (mapped lf v k v perm)
      (s.kvmmap r (v * PGSIZE) ((k + 1) * PGSIZE) perm) := by
  have hlt : v + k < 2 ^ 27 := Nat.lt_trans hv (by decide)
  have hpg : v * PGSIZE / PGSIZE = v := Nat.mul_div_cancel _ (by decide)
  obtain ⟨tgt', fl', lf', hg, ht, hout, hres⟩ := h.mapRange hr hlt hv hperm
  have hc : NodeCount nd R tgt fl tgt' fl' := by
    apply hg.counted h.alloc ht.alloc
    intro x hx
    exact hout x fun u hlo hhi => hx u (hR u hlo hhi).1
  rw [Phys.kvmmap, mappages_pages, hpg]
  generalize Phys.mapLoop r perm k s (v * PGSIZE) v = w at hg ht hres
  obtain ⟨ok, s'⟩ := w
  rcases hres with ⟨hok, rfl, hfd⟩ | ⟨hno, u, hlo, hhi, ⟨rfl, hmiss⟩ | hne⟩
  · cases hok
    exact .inl ⟨s', tgt', fl', rfl, hg, ht, hfd, hc⟩
  · cases hno
    exact .inr ⟨rfl, hc.scarce (.of_nil (hR u hlo hhi).1 hmiss)⟩
  · rw [(hR u hlo hhi).2] at hne
    exact absurd (Nat.zero_and _) hne

/-- The kernel's mappings in a table without entries. -/
theorem mapKernel (L : Layout) (h : Tab kend s tgt lost fl nd fun _ => 0)
    (hr : tgt (nd .root) = some r) :
    Maps kend lost nd (fun u => kernPte L u ≠ 0) s tgt fl (kernPte L) (s.mapKernel L r) := by
  have ht := L.text
  have hd := L.data
  have hram := L.ram
  have hp : PHYSTOP = 0x88000 := rfl
  have z₄ : L.etext * PGSIZE - KERNBASE = (L.etext - 0x80200 - 1 + 1) * PGSIZE := by
    simp only [PGSIZE, KERNBASE]
    omega
  have z₅ : PHYSTOP - L.etext = PHYSTOP - L.etext - 1 + 1 := by omega
  have hR (u : Nat) (hu : 0xC000 ≤ u ∧ u < 0xC400 ∨ 0x10000 ≤ u ∧ u < 0x10009 ∨
      0x80200 ≤ u ∧ u < PHYSTOP) : (fun u => kernPte L u ≠ 0) u := kernPte_ne L hu
  generalize (fun u => kernPte L u ≠ 0) = R at hR ⊢
  rw [Phys.mapKernel, z₄, z₅, ← mapped_kernel L]
  refine (h.kvmmap (v := 0x10000) (k := 0) (PTE_R ||| PTE_W) hr (by decide) (by decide)
    fun u hlo hhi => ⟨hR u (by omega), rfl⟩).bind fun s₁ t₁ f₁ g₁ b₁ => ?_
  have hr := g₁.keep _ _ hr
  refine (b₁.kvmmap (v := 0x10001) (k := 7) (PTE_R ||| PTE_W) hr (by decide) (by decide)
    fun u hlo hhi => ⟨hR u (by omega), if_neg (by omega)⟩).bind fun s₂ t₂ f₂ g₂ b₂ => ?_
  have hr := g₂.keep _ _ hr
  refine (b₂.kvmmap (v := 0xC000) (k := 0x3ff) (PTE_R ||| PTE_W) hr (by decide) (by decide)
    fun u hlo hhi => ⟨hR u (by omega), (if_neg (by omega)).trans (if_neg (by omega))⟩).bind
    fun s₃ t₃ f₃ g₃ b₃ => ?_
  have hr := g₃.keep _ _ hr
  refine (b₃.kvmmap (v := 0x80200) (k := L.etext - 0x80200 - 1) (PTE_R ||| PTE_X) hr (by omega)
    (by decide) fun u hlo hhi => ⟨hR u (by omega),
      ((if_neg (by omega)).trans (if_neg (by omega))).trans (if_neg (by omega))⟩).bind
    fun s₄ t₄ f₄ g₄ b₄ => ?_
  exact b₄.kvmmap (v := L.etext) (k := PHYSTOP - L.etext - 1) (PTE_R ||| PTE_W)
    (g₄.keep _ _ hr) (by omega) (by decide) fun u hlo hhi => ⟨hR u (by omega),
      (((if_neg (by omega)).trans (if_neg (by omega))).trans (if_neg (by omega))).trans
        (if_neg (by omega))⟩

end Tab

end KernelHobby
