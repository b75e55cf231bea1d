import KernelHobby.ForkFrame

namespace KernelHobby
set_option autoImplicit true

/-- The byte that process `p` stored last at `va` in a run, `d` when it stored none there. -/
def lastStore (p : Slot) (va : Nat) : List (Slot × Kern.Act) → Option UInt8 → Option UInt8
  | [], d => d
  | (q, .store w b) :: as, d => lastStore p va as (if q = p ∧ w = va then some b else d)
  | (_, _) :: as, d => lastStore p va as d

/-- Process `p` does nothing but run its program in a run: loads and stores. -/
def OnlyStores (p : Slot) (as : List (Slot × Kern.Act)) : Prop :=
  ∀ x ∈ as, x.1 = p → ∃ va b, x.2 = .store va b

theorem lastStore_other (hq : q ≠ p) (a : Kern.Act) (as : List (Slot × Kern.Act))
    (d : Option UInt8) : lastStore p va ((q, a) :: as) d = lastStore p va as d := by
  cases a with
  | store w b => rw [lastStore, if_neg fun h => hq h.1]
  | _ => rfl

/-- The page of the address space that a place of a process stands for. -/
def SPos.vpn : SPos → Nat
  | .ucode => 1
  | .ustack => 4
  | .leaf v => v.val
  | _ => 0

theorem Reaches.pos (hl : Linked L m g p q) (hr : Reaches g p q va perm n)
    (hlive : q.state ≠ .unused) : ∃ x : SPos, g.tgt (p, x) = some n ∧ x.vpn = vpn va := by
  obtain ⟨hcode, hstack, _⟩ := hl.live hlive
  cases hr with
  | code hv hn hf =>
    subst hn
    exact ⟨.ucode, hl.ucode.trans (ptr_of_ne hcode), hv.symm⟩
  | stack hv hn hf =>
    subst hn
    exact ⟨.ustack, hl.ustack.trans (ptr_of_ne hstack), hv.symm⟩
  | leaf v f hu hv ht hlf hk hf => exact ⟨.leaf v, ht, hv.symm⟩

/-- What others do changes no page that a process refers to. -/
theorem Move.slotStep {k k' : Kern} {g g' : Ghost} {p q : Slot} (hm : Move k g q k' g' a)
    (hq : p ≠ q) (hrun : (k.proc p).state = .runnable) :
    ∃ S : Slot → Prop, ¬ S p ∧ SlotStep S k.phys g k'.phys g' := by
  cases hm with
  | store st hr hg hk => exact ⟨_, hq, st⟩
  | sbrk hg hk =>
    subst hg hk
    rw [Kern.procSbrk_phys]
    exact ⟨(· = q), hq, .refl ..⟩
  | mmap hg hk =>
    subst hg hk
    rw [Kern.procMmap_phys]
    exact ⟨(· = q), hq, .refl ..⟩
  | exit hg hk =>
    subst hg hk
    exact ⟨(· = q), hq, .refl ..⟩
  | waitNone hc hg hk =>
    subst hg hk
    exact ⟨(· = q), hq, .refl ..⟩
  | forkFull hc hg hk =>
    subst hg hk
    exact ⟨(· = q), hq, .refl ..⟩
  | quiet st hlost ha hproc hsame => exact ⟨_, hq, st⟩
  | fillHeap st hlost hproc v hv hin hfill => exact ⟨_, hq, st⟩
  | fillFile st hlost hproc v hv hout hin hfill => exact ⟨_, hq, st⟩
  | cowMap st hlost hproc v hu hold hlf hsame hnew hdata hlf' => exact ⟨_, hq, st⟩
  | fork c hc hpc st hf =>
    refine ⟨_, ?_, st⟩
    intro he
    exact he.elim hq (Kern.freeSlot_ne hc hrun)
  | exec st hl he => exact ⟨_, hq, st⟩
  | execFail st hl hproc hlost hsame => exact ⟨_, hq, st⟩
  | reap c hc st hnone hlost hk =>
    have hpc : p ≠ c := Kern.zombieChild_ne hc hrun
    exact ⟨(· = c), hpc, st⟩

theorem Kern.translate_lt {k : Kern} (ht : k.translate p va perm = some n) : va < 2 ^ 38 := by
  rw [translate_pte] at ht
  split at ht
  · rename_i h
    exact h.1
  · cases ht

namespace VmInv
variable {L : Layout} {k k' : Kern} {g g' : Ghost} {p q : Slot}

theorem translate_congr (h : VmInv L k g) (h' : VmInv L k' g') (hlf : g'.lf p = g.lf p)
    (hpt : (k.proc p).pagetable ≠ 0) (hproc : k'.proc p = k.proc p) (va perm : Nat) :
    k'.translate p va perm = k.translate p va perm := by
  have hpt' : (k'.proc p).pagetable ≠ 0 := by
    rw [hproc]
    exact hpt
  rw [Kern.translate_pte, Kern.translate_pte, h'.pte hpt', h.pte hpt, hlf]

/-- The page that a process reaches is one that it refers to. -/
theorem translate_pos (h : VmInv L k g) (hpt : (k.proc p).pagetable ≠ 0)
    (hrun : (k.proc p).state = .runnable) (hperm : perm < 1024)
    (ht : k.translate p va perm = some n) :
    ∃ x : SPos, g.tgt (p, x) = some n ∧ x.vpn = vpn va := by
  have hr := h.translate hpt hperm ht
  exact hr.pos (h.linked p) (runnable_ne_unused hrun)

/-- A step of another process changes nothing that a process sees of its memory. -/
theorem elsewhere (h : VmInv L k g) (h' : VmInv L k' g') (hm : Move k g q k' g' a) (hq : p ≠ q)
    (hpt : (k.proc p).pagetable ≠ 0) (hrun : (k.proc p).state = .runnable) :
    k'.proc p = k.proc p ∧ (∀ va perm, k'.translate p va perm = k.translate p va perm) ∧
      ∀ va, k'.userLoad p va = k.userLoad p va := by
  obtain ⟨S, hS, st⟩ := hm.slotStep hq hrun
  have hproc := (hm.elsewhere hq hrun).2
  have htr := h.translate_congr h' (st.lf p hS) hpt hproc
  refine ⟨hproc, htr, fun va => ?_⟩
  rw [Kern.userLoad, Kern.userLoad, htr va PTE_R]
  cases ht : k.translate p va PTE_R with
  | none => rfl
  | some n =>
    obtain ⟨x, hx, _⟩ := h.translate_pos hpt hrun (by decide) ht
    rw [Option.map_some, Option.map_some, st.mem p x n hS hx]

/-- A page that a process can store to is one that it can load from. -/
theorem load_of_store (h : VmInv L k g) (hpt : (k.proc p).pagetable ≠ 0)
    (ht : k.translate p va PTE_W = some n) : k.translate p va PTE_R = some n := by
  have hlt := Kern.translate_lt ht
  have hflag (f : Nat) (hf : f < 1024) (hlf : g.lf p (vpn va) = mkPte n f) (hv : f &&& PTE_V ≠ 0)
      (hu : f &&& PTE_U ≠ 0) (hr : f &&& PTE_R ≠ 0) : k.translate p va PTE_R = some n := by
    refine Kern.translate_mkPte hlt ?_ hf (by decide) hv hu hr
    rw [h.pte hpt, hlf]
  have hne : g.lf p (vpn va) ≠ 0 := by
    intro hz
    rw [Kern.translate_pte, h.pte hpt, hz, if_neg fun hand => hand.2.1 (Nat.zero_and _)] at ht
    cases ht
  cases h.translate hpt (by decide) ht with
  | code hv hn hf => exact absurd rfl hf
  | stack hv hn hf =>
    rw [hv] at hne
    rcases (h.linked p).code 4 (by decide) with hz | ⟨h1, _⟩ | ⟨_, hw⟩
    · exact absurd hz hne
    · cases h1
    · exact hflag 23 (by decide) (by rw [hv, hw, hn]) (by decide) (by decide) (by decide)
  | leaf v f hu hv htgt hlf hk hf =>
    rcases hk with rfl | rfl | rfl
    · exact absurd rfl hf
    · exact hflag 23 (by decide) (by rw [hv, hlf]) (by decide) (by decide) (by decide)
    · exact absurd rfl hf

/-- Two addresses of a process that reach one byte of memory are one address. -/
theorem address_inj (h : VmInv L k g) (hpt : (k.proc p).pagetable ≠ 0)
    (hrun : (k.proc p).state = .runnable) (hv : k.translate p va PTE_R = some n)
    (hw : k.translate p w PTE_R = some n) (hoff : va % PGSIZE = w % PGSIZE) : va = w := by
  obtain ⟨x, hx, hxv⟩ := h.translate_pos hpt hrun (by decide) hv
  obtain ⟨y, hy, hyw⟩ := h.translate_pos hpt hrun (by decide) hw
  cases (h.vm.slot p).inslot x y n hx hy
  have hpage : va / PGSIZE = w / PGSIZE := by
    rw [← vpn_of_lt (Kern.translate_lt hv), ← vpn_of_lt (Kern.translate_lt hw), ← hxv, ← hyw]
  rw [← Nat.div_add_mod va PGSIZE, ← Nat.div_add_mod w PGSIZE, hpage, hoff]

/-- A store of a process changes what it loads at that address, and nothing else. -/
theorem store_load (h : VmInv L k g) (hpt : (k.proc p).pagetable ≠ 0)
    (hrun : (k.proc p).state = .runnable) (hidle : (k.proc p).cow = .idle)
    (hs : k.userStore p w b = some k') :
    k'.proc p = k.proc p ∧ (∀ va perm, k'.translate p va perm = k.translate p va perm) ∧
      ∀ va, k'.userLoad p va = if w = va then some b else k.userLoad p va := by
  obtain ⟨n, ht, hk⟩ := Option.map_eq_some_iff.1 hs
  obtain ⟨_, _, _, h', _⟩ := h.userStore hpt hidle hs
  subst hk
  have htr := h.translate_congr h' rfl hpt rfl
  have hn := h.load_of_store hpt ht
  have hoff : w % PGSIZE < PGSIZE := Nat.mod_lt w (by decide)
  refine ⟨rfl, htr, fun va => ?_⟩
  rw [Kern.userLoad, Kern.userLoad, htr va PTE_R]
  by_cases hva : w = va
  · subst hva
    rw [if_pos rfl, hn, Option.map_some]
    dsimp only [Kern.setPhys_phys, Phys.setMem]
    rw [Mem.poke, page_div n hoff, page_mod n hoff, Mem.setPage_self, Function.update_self]
  · rw [if_neg hva]
    cases hv : k.translate p va PTE_R with
    | none => rfl
    | some j =>
      rw [Option.map_some, Option.map_some]
      dsimp only [Kern.setPhys_phys, Phys.setMem]
      by_cases hj : j = n
      · subst hj
        have hne : va % PGSIZE ≠ w % PGSIZE := by
          intro he
          exact hva (h.address_inj hpt hrun hn hv he.symm)
        rw [Mem.poke, page_div j hoff, page_mod j hoff, Mem.setPage_self,
          Function.update_of_ne hne]
      · rw [poke_of_ne]
        rwa [page_div n hoff]

/-- One step of the machine, while process `p` does nothing but load and store. -/
theorem private_step (h : VmInv L k g) (ht : Tame k q a) (hs : k.step L q a = some k')
    (ho : q = p → ∃ va b, a = .store va b) (hpt : (k.proc p).pagetable ≠ 0)
    (hrun : (k.proc p).state = .runnable) :
    (∃ g', VmInv L k' g') ∧ k'.proc p = k.proc p ∧
      (∀ va perm, k'.translate p va perm = k.translate p va perm) ∧
      ∀ va, k'.userLoad p va = lastStore p va [(q, a)] (k.userLoad p va) := by
  obtain ⟨g', h', hm⟩ := h.move ht hs
  refine ⟨⟨g', h'⟩, ?_⟩
  by_cases hq : q = p
  · obtain ⟨w, b, rfl⟩ := ho hq
    subst hq
    have hruns : k.Runs q := Kern.step_runs hs ⟨nofun, nofun, nofun⟩
    rw [hruns.step_store] at hs
    obtain ⟨hproc, htr, hload⟩ := h.store_load hpt hrun hruns.idle hs
    refine ⟨hproc, htr, fun va => ?_⟩
    rw [hload va, lastStore, lastStore]
    simp only [true_and]
  · obtain ⟨hproc, htr, hload⟩ := h.elsewhere h' hm (Ne.symm hq) hpt hrun
    refine ⟨hproc, htr, fun va => ?_⟩
    rw [hload va, lastStore_other hq, lastStore]

end VmInv

theorem lastStore_cons (p : Slot) (va : Nat) (x : Slot × Kern.Act) (as : List (Slot × Kern.Act))
    (d : Option UInt8) : lastStore p va (x :: as) d = lastStore p va as (lastStore p va [x] d) := by
  obtain ⟨q, a⟩ := x
  cases a <;> rfl

end KernelHobby
