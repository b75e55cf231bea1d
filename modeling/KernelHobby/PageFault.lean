import KernelHobby.ForkExec

namespace KernelHobby
set_option autoImplicit true

/-- A page on the free list. -/
def Phys.Free (s : Phys) (n : Nat) : Prop := ∃ fl, Chain s.mem s.freelist fl ∧ n ∈ fl

namespace Kern

/-- The entry by which the machine translates `va`. An address whose bits from 38 on are not all
the same is not translated. -/
def entry (k : Kern) (p : Slot) (va : Nat) : Nat :=
  if va < 2 ^ 38 ∨ 2 ^ 64 - 2 ^ 38 ≤ va ∧ va < 2 ^ 64 then k.pte p va else 0

/-- A page that is a node of the page table of a process. -/
def HasNode (k : Kern) (p : Slot) (n : Nat) : Prop :=
  let r := (k.proc p).pagetable
  n = r ∨ ∃ i < 512, (k.phys.mem r).word i &&& PTE_V ≠ 0 ∧
    let l := pte2pa ((k.phys.mem r).word i)
    (n = l ∨ ∃ j < 512, (k.phys.mem l).word j &&& PTE_V ≠ 0 ∧ n = pte2pa ((k.phys.mem l).word j))

end Kern

/-- An entry that lets the user do what `perm` says. -/
def UserMay (perm w : Nat) : Prop := w &&& PTE_V ≠ 0 ∧ w &&& PTE_U ≠ 0 ∧ w &&& perm ≠ 0

instance : Decidable (UserMay perm w) := inferInstanceAs (Decidable (_ ∧ _ ∧ _))

/-- The right that an access needs. -/
def needs (store : Bool) : Nat := if store then PTE_W else PTE_R

/-- The page of `va` belongs to the mapped file. -/
def UProc.InFile (q : UProc) (va : Nat) : Prop :=
  q.mmapBase ≠ 0 ∧ q.mmapBase ≤ va / PGSIZE * PGSIZE ∧ va / PGSIZE * PGSIZE < q.mend

/-- An access that is tried again after each fault that the handler takes care of, for `n` faults
at most: whether it succeeds. `data` is what the disk has at each fault. -/
def Kern.access (k : Kern) (p : Slot) (va : Nat) (store : Bool) (data : Nat → Page) :
    Nat → Option Bool
  | 0 => if UserMay (needs store) (k.entry p va) then some true else none
  | n + 1 =>
    if UserMay (needs store) (k.entry p va) then some true
    else
      let w := k.pagefault p va store (data n)
      if w.1 then w.2.access p va store data n else some false

/-- What a page fault of process `p` at `va` comes to. -/
structure FaultOk (k : Kern) (p : Slot) (va : Nat) (store : Bool) : Prop where
  handled : ∀ data, (k.pagefault p va store data).1 = true →
    UserMay PTE_R ((k.pagefault p va store data).2.entry p va) ∧
    (store = true → ¬ (k.proc p).InFile va →
      UserMay PTE_W ((k.pagefault p va store data).2.entry p va)) ∧
    ∀ w, w / PGSIZE ≠ va / PGSIZE → (k.pagefault p va store data).2.entry p w = k.entry p w
  refused : ∀ data, (k.pagefault p va store data).1 = false →
    (∀ w, (k.pagefault p va store data).2.entry p w = k.entry p w) ∧
    ∀ n, k.phys.Free n → (k.pagefault p va store data).2.phys.Free n ∨
      (k.pagefault p va store data).2.HasNode p n
  retry : ∀ data, k.access p va store data 2 ≠ none

namespace VmInv
variable {L : Layout} {k k' : Kern} {g g' : Ghost} {p : Slot}

theorem entry_same (h : VmInv L k g) (h' : VmInv L k' g') (hpt : (k.proc p).pagetable ≠ 0)
    (hproc : k'.proc = k.proc) (hs : ∀ v : UPage, v.val = vpn va → Same k.phys g k'.phys g' p v) :
    k'.entry p va = k.entry p va := by
  have hpt' : (k'.proc p).pagetable ≠ 0 := by
    rw [hproc]
    exact hpt
  rw [Kern.entry, Kern.entry, h.pte hpt, h'.pte hpt', h.lf_same h' hpt hproc hs (vpn_lt va)]

theorem hasNode (h : VmInv L k g) (hpt : (k.proc p).pagetable ≠ 0) {y : Node}
    (hy : g.tgt (nd p y) = some n) : k.HasNode p n := by
  have hh := (h.vm.slot p).holds
  have hr := h.root hpt
  have hmid {i : Fin 512} {l : Nat} (hl : g.tgt (nd p (.mid i)) = some l) :
      (k.phys.mem (k.proc p).pagetable).word i = mkPte l PTE_V := by
    rw [hh.root _ hr i, hl]
    rfl
  cases y with
  | root =>
    rw [hr] at hy
    exact .inl (Option.some.inj hy).symm
  | mid i =>
    refine .inr ⟨i, i.isLt, ?_⟩
    rw [hmid hy, pte2pa_mkPte n (by decide)]
    exact ⟨link_some_and n, .inl rfl⟩
  | low i j =>
    obtain ⟨l, hl⟩ := hh.low_mid hy
    have hw : (k.phys.mem l).word j = mkPte n PTE_V := by
      rw [hh.mid i l hl j, hy]
      rfl
    refine .inr ⟨i, i.isLt, ?_⟩
    rw [hmid hl, pte2pa_mkPte l (by decide)]
    refine ⟨link_some_and l, .inr ⟨j, j.isLt, ?_⟩⟩
    rw [hw, pte2pa_mkPte n (by decide)]
    exact ⟨link_some_and n, rfl⟩

/-- A page that is free no more is a node of the table, when nothing else of the process is new. -/
theorem free_kept (h : VmInv L k g) (h' : VmInv L k' g') (hidle : (k.proc p).cow = .idle)
    (hproc : k'.proc = k.proc) (st : SlotStep (· = p) k.phys g k'.phys g')
    (hlost : g'.lost = g.lost) (hsame : ∀ u, Same k.phys g k'.phys g' p u) (hn : n ∈ g.fl) :
    n ∈ g'.fl ∨ ∃ y, g'.tgt (nd p y) = some n := by
  have hm := ((h.vm.alloc.bal.free n).1 hn).1
  by_cases hf : n ∈ g'.fl
  · exact .inl hf
  right
  have hc := h'.vm.alloc.bal.count n hm
  have hl : g'.lost n = 0 := by
    rw [hlost]
    exact h.vm.alloc.bal.free_lost hn
  have hpos : refs g'.tgt n ≠ 0 := by
    intro hz
    exact hf ((h'.vm.alloc.bal.free n).2 ⟨hm, by omega⟩)
  have hex : ∃ y, g'.tgt y = some n := by
    by_contra hno
    exact hpos (refs_eq_zero.2 (not_exists.1 hno))
  obtain ⟨⟨q, x⟩, hx⟩ := hex
  have hold (x : SPos) (hx : g.tgt (q, x) = some n) : False := h.vm.alloc.bal.not_free hx hn
  by_cases hq : q = p
  · subst hq
    have hk := h.linked q
    have hk' := h'.linked q
    rw [hproc] at hk'
    have hcow := hk'.cow
    rw [hidle] at hcow
    cases x with
    | node y => exact ⟨y, hx⟩
    | leaf u => exact (hold (.leaf u) ((hsame u).tgt.symm.trans hx)).elim
    | ucode => exact (hold .ucode (hk.ucode.trans (hk'.ucode.symm.trans hx))).elim
    | ustack => exact (hold .ustack (hk.ustack.trans (hk'.ustack.symm.trans hx))).elim
    | kstack => exact (hold .kstack (hk.kstack.trans (hk'.kstack.symm.trans hx))).elim
    | fresh =>
      rw [hcow.1] at hx
      cases hx
    | old =>
      rw [hcow.2] at hx
      cases hx
  · exact (hold x ((st.tgt q x hq).symm.trans hx)).elim

end VmInv

theorem VmInv.free_iff (h : VmInv L k g) : k.phys.Free n ↔ n ∈ g.fl := by
  constructor
  · rintro ⟨fl, hc, hn⟩
    rw [← hc.unique h.vm.alloc.chain]
    exact hn
  · intro hn
    exact ⟨g.fl, h.vm.alloc.chain, hn⟩

/-- What the handler did when it returns 1: a shared page was copied, or a new page of the heap or
of the mapped file was filled in. -/
inductive Handled (k : Kern) (g : Ghost) (p : Slot) (va : Nat) (store : Bool) (g' : Ghost)
    (v : UPage) : Prop where
  | copied (hs : store = true) (he : k.phys.cowEntry (k.proc p).pagetable va = some (loc, old))
      (hz : k.phys.kalloc.1 ≠ 0) (hold : g.lf p v = mkPte old 275) (hnew : g'.lf p v = mkPte n 23)
  | heap (hlo : HEAPBASE ≤ va / PGSIZE * PGSIZE) (hhi : va / PGSIZE * PGSIZE < (k.proc p).heapTop)
      (hold : g.lf p v = 0) (hnew : g'.lf p v = mkPte n 23)
  | file (hin : (k.proc p).InFile va) (hold : g.lf p v = 0) (hnew : g'.lf p v = mkPte n 19)

/-- The outcome of a page fault, for the references. -/
structure Fault (L : Layout) (k : Kern) (g : Ghost) (p : Slot) (va : Nat) (store : Bool)
    (w : Bool × Kern) (g' : Ghost) : Prop where
  inv : VmInv L w.2 g'
  proc : w.2.proc = k.proc
  st : SlotStep (· = p) k.phys g w.2.phys g'
  lost : g'.lost = g.lost
  refused : w.1 = false → ∀ u, Same k.phys g w.2.phys g' p u
  handled : w.1 = true → ∃ v : UPage, 16 ≤ v.val ∧ vpn va = v.val ∧
    (∀ u, u ≠ v → Same k.phys g w.2.phys g' p u) ∧ Handled k g p va store g' v

theorem Phys.cowEntry_page (s : Phys) (pt va : Nat) :
    s.cowEntry pt (va / PGSIZE * PGSIZE) = s.cowEntry pt va := by
  rw [cowEntry, cowEntry, Nat.mul_div_cancel _ (by decide)]

theorem Phys.uvmCowFault_true {s : Phys} (h : s.uvmCowFault pt a = (true, s')) :
    ∃ loc old, s.cowEntry pt a = some (loc, old) ∧ s.kalloc.1 ≠ 0 := by
  rw [uvmCowFault] at h
  split at h
  · cases h
  · rename_i loc old he
    dsimp only at h
    split at h
    · cases h
    · rename_i hz
      exact ⟨loc, old, he, hz⟩

namespace VmInv
variable {L : Layout} {k k' : Kern} {g g' : Ghost} {p : Slot}

/-- A copy-on-write fault in one piece: its steps are those of the interleaved one. -/
theorem cowFault (h : VmInv L k g) (hrun : (k.proc p).state = .runnable)
    (hpt : (k.proc p).pagetable ≠ 0) (hidle : (k.proc p).cow = .idle)
    (he : k.phys.cowEntry (k.proc p).pagetable a = some (loc, old)) (hz : k.phys.kalloc.1 ≠ 0) :
    ∃ s g', k.phys.uvmCowFault (k.proc p).pagetable a = (true, s) ∧ VmInv L (k.setPhys s) g' ∧
      SlotStep (· = p) k.phys g s g' ∧ g'.lost = g.lost ∧
      ∃ v : UPage, ∃ n, 16 ≤ v.val ∧ vpn a = v.val ∧ (∀ u, u ≠ v → Same k.phys g s g' p u) ∧
        g.lf p v = mkPte old 275 ∧ g'.lf p v = mkPte n 23 := by
  obtain ⟨g₁, h₁, st₁, lost₁, same₁⟩ := h.cowGot hrun hpt hidle he hz
  obtain ⟨h₂, st₂, same₂⟩ := h₁.cowCopy (congrArg UProc.cow (Kern.setProc_self ..))
  obtain ⟨g₃, h₃, st₃, lost₃, v, hv, same₃, _, _, hlf⟩ :=
    h₂.cowMap (congrArg UProc.cow (Kern.setProc_self ..))
  obtain ⟨g₄, h₄, st₄, lost₄, same₄⟩ := h₃.cowFree (congrArg UProc.cow (Kern.setProc_self ..))
  have hself : Function.update k.proc p { k.proc p with cow := .idle } = k.proc := by
    rw [cow_idle hidle, Function.update_eq_self]
  simp only [Kern.setProc, Kern.setPhys, Function.update_self, Function.update_idem, hself] at h₄
  refine ⟨_, g₄, ?_, h₄, ((st₁.trans st₂).trans st₃).trans st₄, (lost₄.trans lost₃).trans lost₁, v, _,
    hv.user, hv.page, fun u hu => ?_, ?_, (same₄ v).lf.trans hlf⟩
  · rw [Phys.uvmCowFault, he]
    exact if_neg hz
  · exact (((same₁ u).trans (same₂ u)).trans (same₃ u hu)).trans (same₄ u)
  · exact (same₁ v).lf.symm.trans hv.entry

/-- `uvm_cow_fault` that returns 0 leaves everything as it is. -/
theorem cowRefused (h : VmInv L k g) (hno : k.phys.uvmCowFault (k.proc p).pagetable a = (false, s)) :
    VmInv L (k.setPhys s) g ∧ SlotStep (· = p) k.phys g s g ∧ ∀ u, Same k.phys g s g p u := by
  rw [Phys.uvmCowFault] at hno
  split at hno
  · cases hno
    exact ⟨h, .refl .., fun u => .refl ..⟩
  · dsimp only at hno
    split at hno
    · rename_i hz
      cases hno
      obtain ⟨hinv, hst, _, hsame⟩ := h.noPage (p := p) hz
      exact ⟨hinv, hst, hsame⟩
    · cases hno

/-- A new page in the process's part of the address space. -/
theorem faultFill (h₁ : VmInv L (k.setPhys s) g)
    (st₁ : SlotStep (· = p) k.phys g s g) (same₁ : ∀ u, Same k.phys g s g p u)
    (hpt : (k.proc p).pagetable ≠ 0) (hidle : (k.proc p).cow = .idle)
    (hlo : HEAPBASE ≤ va / PGSIZE * PGSIZE) (hhi : va / PGSIZE * PGSIZE < PLIC)
    (hf : perm ||| PTE_V = 19 ∨ perm ||| PTE_V = 23)
    (hres : ∀ g' (v : UPage) n, g.lf p v = 0 → g'.lf p v = mkPte n (perm ||| PTE_V) →
      Handled k g p va store g' v) :
    ∃ g', Fault L k g p va store
      ((k.setPhys s).fillPage p (va / PGSIZE * PGSIZE) data perm) g' := by
  obtain ⟨hge, hlt⟩ := user_vpn hlo hhi
  have hvpn : vpn va = va / PGSIZE := Nat.mod_eq_of_lt (Nat.lt_trans hlt (by decide))
  obtain ⟨g', hinv, hst, hlost, hproc, _, hout⟩ :=
    h₁.fillPage (v := ⟨va / PGSIZE, hlt⟩) hpt hidle hge data hf
  refine ⟨g', hinv, hproc, st₁.trans hst, hlost, fun hno u => ?_, fun hyes => ?_⟩
  · rcases hout with ⟨_, _, hsame⟩ | ⟨ht, _⟩
    · exact (same₁ u).trans (hsame u)
    · rw [ht] at hno
      cases hno
  · rcases hout with ⟨hf, _⟩ | ⟨_, ⟨hz, _⟩, hsame, n, _, hlf, _⟩
    · rw [hf] at hyes
      cases hyes
    · exact ⟨⟨va / PGSIZE, hlt⟩, hge, hvpn, fun u hu => (same₁ u).trans (hsame u hu),
        hres g' _ n hz hlf⟩

theorem pagefault (h : VmInv L k g) (hrun : (k.proc p).state = .runnable)
    (hpt : (k.proc p).pagetable ≠ 0) (hidle : (k.proc p).cow = .idle) (va : Nat) (store : Bool)
    (data : Page) : ∃ g', Fault L k g p va store (k.pagefault p va store data) g' := by
  have hl := h.linked p
  have hlive := hl.running hrun
  rw [Kern.pagefault]
  dsimp only
  generalize hc : (if store then k.phys.uvmCowFault (k.proc p).pagetable (va / PGSIZE * PGSIZE)
    else (false, k.phys)) = c
  obtain ⟨copied, s⟩ := c
  have hpg : vpn (va / PGSIZE * PGSIZE) = vpn va := by
    rw [vpn, Nat.mul_div_cancel _ (by decide), vpn]
  cases copied with
  | true =>
    cases store with
    | false => cases hc
    | true =>
      simp only [if_true] at hc ⊢
      obtain ⟨loc, old, he, hz⟩ := Phys.uvmCowFault_true hc
      obtain ⟨s', g', hs', hinv, hst, hlost, v, n, hv, hva, hsame, hold, hnew⟩ :=
        h.cowFault hrun hpt hidle he hz
      obtain rfl : s' = s := congrArg Prod.snd (hs'.symm.trans hc)
      exact ⟨g', hinv, rfl, hst, hlost, Bool.noConfusion,
        fun _ => ⟨v, hv, hpg.symm.trans hva, hsame,
          .copied rfl (k.phys.cowEntry_page .. ▸ he) hz hold hnew⟩⟩
  | false =>
    have hno : VmInv L (k.setPhys s) g ∧ SlotStep (· = p) k.phys g s g ∧
        ∀ u, Same k.phys g s g p u := by
      cases store with
      | false =>
        cases hc
        exact ⟨h, .refl .., fun u => .refl ..⟩
      | true => exact h.cowRefused hc
    obtain ⟨h₁, st₁, same₁⟩ := hno
    rw [if_neg Bool.false_ne_true]
    split
    · rename_i hheap
      exact faultFill h₁ st₁ same₁ hpt hidle hheap.1 (Nat.lt_of_lt_of_le hheap.2 hlive.2.2.2)
        (.inr rfl) fun g' v n => .heap hheap.1 hheap.2
    · split
      · rename_i hfile
        obtain ⟨hbase, hend⟩ := hl.mmap.resolve_left hfile.1
        have hge : HEAPBASE ≤ va / PGSIZE * PGSIZE := by
          refine Nat.le_trans ?_ hfile.2.1
          rw [hbase]
          decide
        exact faultFill h₁ st₁ same₁ hpt hidle hge (Nat.lt_of_lt_of_le hfile.2.2 hend)
          (.inl rfl) fun g' v n => .file hfile
      · exact ⟨g, h₁, rfl, st₁, rfl, fun _ => same₁, Bool.noConfusion⟩

end VmInv

/-- A store outside the addresses that are translated, where the walk comes to a page shared for
copy on write and there is a page for the copy. -/
def Aliased (k : Kern) (p : Slot) (va : Nat) (store : Bool) : Prop :=
  store = true ∧ 2 ^ 38 ≤ va ∧ (k.phys.cowEntry (k.proc p).pagetable va).isSome = true ∧
    k.phys.kalloc.1 ≠ 0

theorem userMay_mkPte (n : Nat) (hf : f < 1024) (hp : perm < 1024)
    (h : f &&& PTE_V ≠ 0 ∧ f &&& PTE_U ≠ 0 ∧ f &&& perm ≠ 0) : UserMay perm (mkPte n f) := by
  rw [UserMay, mkPte_and n hf (by decide), mkPte_and n hf (by decide), mkPte_and n hf hp]
  exact h

namespace Kern
variable {k : Kern} {p : Slot}

theorem entry_low (h : va < 2 ^ 38) : k.entry p va = k.pte p va := if_pos (.inl h)

/-- An address that is not below 2^38 but shares its page number with a page of the process has no
translation. -/
theorem entry_alias (h : 2 ^ 38 ≤ va) (hv : vpn va < 0xC000) : k.entry p va = 0 := by
  apply if_neg
  simp only [vpn, PGSIZE] at hv
  omega

end Kern

namespace Fault
variable {L : Layout} {k : Kern} {g g' : Ghost} {p : Slot} {w : Bool × Kern}

/-- Unless it is an aliased store, a page that the handler took care of is one that the machine
translates. -/
theorem low (hf : Fault L k g p va store w g') (h : VmInv L k g)
    (hrun : (k.proc p).state = .runnable) (hno : ¬ Aliased k p va store) (hw : w.1 = true) :
    va < 2 ^ 38 := by
  have hlive := (h.linked p).running hrun
  have hlt (hhi : va / PGSIZE * PGSIZE < PLIC) : va < 2 ^ 38 := by
    simp only [PGSIZE, PLIC] at hhi
    omega
  obtain ⟨v, _, _, _, hd⟩ := hf.handled hw
  cases hd with
  | copied hs he hz hold hnew =>
    by_contra hge
    exact hno ⟨hs, Nat.not_lt.1 hge, by rw [he]; rfl, hz⟩
  | heap hlo hhi hold hnew => exact hlt (Nat.lt_of_lt_of_le hhi hlive.2.2.2)
  | file hin hold hnew =>
    obtain ⟨_, hend⟩ := (h.linked p).mmap.resolve_left hin.1
    exact hlt (Nat.lt_of_lt_of_le hin.2.2 hend)

theorem pagetable (hf : Fault L k g p va store w g') (hpt : (k.proc p).pagetable ≠ 0) :
    (w.2.proc p).pagetable ≠ 0 := by
  rw [hf.proc]
  exact hpt

/-- The entry that the handler leaves behind. -/
theorem entry (hf : Fault L k g p va store w g') (hpt : (k.proc p).pagetable ≠ 0)
    (hlow : va < 2 ^ 38) (hv : vpn va = v) : w.2.entry p va = g'.lf p v := by
  rw [Kern.entry_low hlow, hf.inv.pte (hf.pagetable hpt), hv]

theorem userMay (hf : Fault L k g p va store w g') (hpt : (k.proc p).pagetable ≠ 0)
    (hlow : va < 2 ^ 38) (hw : w.1 = true) :
    UserMay PTE_R (w.2.entry p va) ∧
      (UserMay PTE_W (w.2.entry p va) ∨ (k.proc p).InFile va ∧ ∃ n, w.2.entry p va = mkPte n 19) := by
  obtain ⟨v, _, hva, _, hd⟩ := hf.handled hw
  rw [hf.entry hpt hlow hva]
  cases hd with
  | copied hs he hz hold hnew =>
    rw [hnew]
    exact ⟨userMay_mkPte _ (by decide) (by decide) (by decide),
      .inl (userMay_mkPte _ (by decide) (by decide) (by decide))⟩
  | heap hlo hhi hold hnew =>
    rw [hnew]
    exact ⟨userMay_mkPte _ (by decide) (by decide) (by decide),
      .inl (userMay_mkPte _ (by decide) (by decide) (by decide))⟩
  | file hin hold hnew =>
    rw [hnew]
    exact ⟨userMay_mkPte _ (by decide) (by decide) (by decide), .inr ⟨hin, _, rfl⟩⟩

/-- No other page is translated in another way than before. -/
theorem others (hf : Fault L k g p va store w g') (h : VmInv L k g)
    (hpt : (k.proc p).pagetable ≠ 0) (hlow : va < 2 ^ 38) (hw : w.1 = true)
    (hu : u / PGSIZE ≠ va / PGSIZE) : w.2.entry p u = k.entry p u := by
  obtain ⟨v, _, hva, hsame, _⟩ := hf.handled hw
  by_cases huv : vpn u = v.val
  · have hlt := v.isLt
    have hge : 2 ^ 38 ≤ u := by
      by_contra hlt'
      simp only [vpn, PGSIZE] at huv hva hu
      omega
    have hlt : vpn u < 0xC000 := by
      rw [huv]
      exact v.isLt
    rw [Kern.entry_alias hge hlt, Kern.entry_alias hge hlt]
  · refine h.entry_same hf.inv hpt hf.proc fun x hx => hsame x ?_
    rintro rfl
    exact huv hx.symm

/-- A fault that is not taken care of. -/
theorem kept (hf : Fault L k g p va store w g') (h : VmInv L k g)
    (hpt : (k.proc p).pagetable ≠ 0) (hidle : (k.proc p).cow = .idle) (hw : w.1 = false) :
    (∀ u, w.2.entry p u = k.entry p u) ∧
      ∀ n, k.phys.Free n → w.2.phys.Free n ∨ w.2.HasNode p n := by
  have hsame := hf.refused hw
  refine ⟨fun u => h.entry_same hf.inv hpt hf.proc fun v _ => hsame v, fun n hn => ?_⟩
  rw [h.free_iff] at hn
  rw [hf.inv.free_iff]
  rcases h.free_kept hf.inv hidle hf.proc hf.st hf.lost hsame hn with hfree | ⟨y, hy⟩
  · exact .inl hfree
  · exact .inr (hf.inv.hasNode (hf.pagetable hpt) hy)

/-- A page of the mapped file that is there already cannot be mapped again. -/
theorem second (hf : Fault L k g p va store w g') (h : VmInv L k g)
    (hpt : (k.proc p).pagetable ≠ 0) (hlow : va < 2 ^ 38) (he : k.entry p va = mkPte n 19) :
    w.1 = false := by
  by_contra hw
  obtain ⟨v, _, hva, _, hd⟩ := hf.handled (Bool.not_eq_false _ ▸ hw)
  have hlf : g.lf p v = mkPte n 19 := by
    rw [← he, Kern.entry_low hlow, h.pte hpt, hva]
  cases hd with
  | copied hs hcow hz hold hnew =>
    rw [hlf] at hold
    have hne := (mkPte_inj (by decide) (by decide) hold).2
    omega
  | heap hlo hhi hold hnew =>
    rw [hlf, mkPte] at hold
    omega
  | file hin hold hnew =>
    rw [hlf, mkPte] at hold
    omega

end Fault

namespace VmInv
variable {L : Layout} {k : Kern} {g : Ghost} {p : Slot}

/-- The handler returns 1 for an aliased store. -/
theorem aliased (h : VmInv L k g) (hrun : (k.proc p).state = .runnable)
    (hpt : (k.proc p).pagetable ≠ 0) (hidle : (k.proc p).cow = .idle)
    (ha : Aliased k p va store) (data : Page) :
    (k.pagefault p va store data).1 = true ∧ vpn va < 0xC000 := by
  obtain ⟨rfl, _, hcow, hz⟩ := ha
  obtain ⟨⟨loc, old⟩, he⟩ := Option.isSome_iff_exists.1 hcow
  obtain ⟨v, _, hva, _⟩ := h.cowEntry hpt he
  rw [← k.phys.cowEntry_page] at he
  obtain ⟨s, _, hs, _⟩ := h.cowFault hrun hpt hidle he hz
  refine ⟨?_, by rw [hva]; exact v.isLt⟩
  simp only [Kern.pagefault, if_true, hs]

/-- Two faults are enough for an access. -/
theorem access (h : VmInv L k g) (hrun : (k.proc p).state = .runnable)
    (hpt : (k.proc p).pagetable ≠ 0) (hidle : (k.proc p).cow = .idle)
    (hno : ¬ Aliased k p va store) (data : Nat → Page) : k.access p va store data 2 ≠ none := by
  rw [Kern.access]
  split
  · exact Option.some_ne_none _
  dsimp only
  obtain ⟨g₁, hf⟩ := h.pagefault hrun hpt hidle va store (data 1)
  split
  · rename_i hw
    have hlow := hf.low h hrun hno hw
    rw [Kern.access]
    split
    · exact Option.some_ne_none _
    · rename_i hmay
      -- only a store to a page of the mapped file faults again
      have hpage : ∃ n, (k.pagefault p va store (data 1)).2.entry p va = mkPte n 19 := by
        obtain ⟨hread, hwrite | ⟨_, hpage⟩⟩ := hf.userMay hpt hlow hw
        · cases store with
          | false => exact absurd hread hmay
          | true => exact absurd hwrite hmay
        · exact hpage
      obtain ⟨n, hn⟩ := hpage
      have hrun₁ := hrun
      have hidle₁ := hidle
      rw [← hf.proc] at hrun₁ hidle₁
      obtain ⟨g₂, hf₂⟩ := hf.inv.pagefault hrun₁ (hf.pagetable hpt) hidle₁ va store (data 0)
      dsimp only
      rw [hf₂.second hf.inv (hf.pagetable hpt) hlow hn, if_neg Bool.false_ne_true]
      exact Option.some_ne_none _
  · exact Option.some_ne_none _

end VmInv

theorem VmInv.cowEntry_some (h : VmInv L k g) (hpt : (k.proc p).pagetable ≠ 0)
    (hlf : g.lf p (vpn va) = mkPte n 275) :
    (k.phys.cowEntry (k.proc p).pagetable va).isSome = true := by
  have hpg : vpn (va / PGSIZE * PGSIZE) = vpn va := by
    simp only [vpn, PGSIZE]
    omega
  have hwalk := Phys.walk_holds (h.vm.slot p).holds (h.root hpt) (va / PGSIZE * PGSIZE)
  rw [hpg] at hwalk
  rw [Phys.cowEntry, hwalk]
  cases hl : g.tgt (nd p (.low (ix2 (vpn va)) (ix1 (vpn va)))) with
  | none =>
    have hz := (h.vm.slot p).holds.absent _ (vpn_lt va) hl
    rw [hlf, mkPte] at hz
    omega
  | some l =>
    have hword := (h.vm.slot p).holds.low _ l (vpn_lt va) hl
    rw [hlf] at hword
    simp only [Option.map_some, hword]
    rw [mkPte_and n (by decide) (by decide), mkPte_and n (by decide) (by decide)]
    rfl

/-- An aliased store is not taken care of, though the handler says so. -/
theorem VmInv.not_faultOk (h : VmInv L k g) (hrun : (k.proc p).state = .runnable)
    (hpt : (k.proc p).pagetable ≠ 0) (hidle : (k.proc p).cow = .idle)
    (ha : Aliased k p va store) : ¬ FaultOk k p va store := by
  intro hok
  obtain ⟨hw, hlt⟩ := h.aliased hrun hpt hidle ha Page.zero
  have hread := (hok.handled Page.zero hw).1
  rw [Kern.entry_alias ha.2.1 hlt] at hread
  exact hread.1 (Nat.zero_and _)

/-- A page fault goes right in every state of a run of tame steps, except for an aliased store. -/
theorem faultOk_iff (hr : TameReach L k) (hrun : (k.proc p).state = .runnable)
    (hpt : (k.proc p).pagetable ≠ 0) (hidle : (k.proc p).cow = .idle) (va : Nat) (store : Bool) :
    FaultOk k p va store ↔ ¬ Aliased k p va store := by
  obtain ⟨g, h⟩ := hr.inv
  constructor
  · intro hok ha
    exact h.not_faultOk hrun hpt hidle ha hok
  · intro hno
    constructor
    · intro data hw
      obtain ⟨g', hf⟩ := h.pagefault hrun hpt hidle va store data
      have hlow := hf.low h hrun hno hw
      obtain ⟨hread, hwrite⟩ := hf.userMay hpt hlow hw
      refine ⟨hread, fun _ hout => ?_, fun u hu => hf.others h hpt hlow hw hu⟩
      exact hwrite.resolve_right fun hin => hout hin.1
    · intro data hw
      obtain ⟨g', hf⟩ := h.pagefault hrun hpt hidle va store data
      exact hf.kept h hpt hidle hw
    · exact h.access hrun hpt hidle hno

/-- The first store of the shell to its heap. -/
theorem faultOk_boot : ∃ k, Kern.boot smallKernel (fun _ => Page.zero) 18 spinElf = some k ∧
    FaultOk k .shell HEAPBASE true := by
  obtain ⟨k, pt, code, us, ks, hb, hs, _⟩ := smallKernel_boot
  have hrun := hs.runs
  have hr := TameReach.boot spinElf_fits hb
  refine ⟨k, hb, (faultOk_iff hr hrun.run hrun.table hrun.idle HEAPBASE true).2 ?_⟩
  rintro ⟨_, hge, _⟩
  exact absurd hge (by decide)

/-- The shell grows its heap by a page, uses it and forks; then a store goes to the address of that
page plus 2^39, which is not an address of the machine. -/
theorem aliased_store : ∃ k, TameReach smallKernel k ∧ k.Runs .shell ∧
    (k.proc .shell).heapTop ≤ MMAPBASE ∧ ¬ FaultOk k .shell (2 ^ 39 + HEAPBASE) true := by
  obtain ⟨k, hr, hrun, htop, ⟨n, hn⟩, ⟨c, hc⟩, hcnt⟩ := smallKernel_heap
  obtain ⟨k', hr', _, hpc, hrun', hb, hcnt', _⟩ := hr.fork hrun hc (by omega)
    (f := USERSTACKTOP - 256) ⟨by decide, by decide⟩ USERVA
  obtain ⟨g, h⟩ := hr'.inv
  refine ⟨k', hr', hrun', ?_, h.not_faultOk hrun'.run hrun'.table hrun'.idle ⟨rfl, by decide, ?_, ?_⟩⟩
  · obtain ⟨_, _, _, _, hproc⟩ := hb.proc
    rw [hproc, Function.update_of_ne hpc, htop]
    decide
  · have hheap : (k.proc .shell).Heap 16 := by
      refine ⟨Nat.le_refl 16, ?_⟩
      rw [htop]
      decide
    have hcow := (hb.heap 16 hheap).2
    rw [hn, cowPte_leaf (.inr (.inl rfl)), h.pte_page hrun'.table (by decide)] at hcow
    exact h.cowEntry_some hrun'.table hcow
  · exact h.vm.alloc.kalloc_room (by omega)

end KernelHobby
