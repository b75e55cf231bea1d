import KernelHobby.VmStep

namespace KernelHobby
set_option autoImplicit true

/-- The allocator in the middle of `kinit`: the pages from `kend` up to `p` are free. -/
structure Filling (s : Phys) (kend p : Nat) (fl : List Nat) : Prop where
  chain : Chain s.mem s.freelist fl
  free : ∀ n, n ∈ fl ↔ kend ≤ n ∧ n < p
  nodup : fl.Nodup
  length : fl.length + kend = p
  cnt : s.freecnt = fl.length
  zero : ∀ n, s.refcnt n = 0
  taken : s.taken = []
  failed : s.failed = false

theorem Filling.next (h : Filling s kend p fl) (hk : 0 < kend) (hp : p < PHYSTOP) :
    Filling ({ s with refcnt := Function.update s.refcnt p 1 }.kfree p) kend (p + 1) (p :: fl) := by
  have hlen := h.length
  have hnot : p ∉ fl := by
    intro hin
    have hlt := (h.free p).1 hin
    omega
  have hlt : PGSIZE * s.freelist < 2 ^ 64 := by
    have := h.chain.lt
    simp only [PGSIZE, PHYSTOP] at this ⊢
    omega
  have hone : ¬ 1 < Function.update s.refcnt p 1 p := by
    rw [Function.update_self]
    decide
  rw [Phys.kfree, if_neg hone]
  constructor
  · refine ⟨rfl, by omega, hp, ?_⟩
    dsimp only
    rw [s.mem.word_setWord_self p 0 hlt, Nat.mul_div_cancel_left _ (by decide)]
    refine h.chain.congr fun k hk' => s.mem.setWord_of_ne ?_
    rintro rfl
    exact hnot hk'
  · intro n
    rw [List.mem_cons, h.free]
    omega
  · exact List.nodup_cons.2 ⟨hnot, h.nodup⟩
  · rw [List.length_cons]
    omega
  · exact congrArg (· + 1) h.cnt
  · intro n
    by_cases hn : n = p
    · rw [hn]
      exact Function.update_self ..
    · exact (Function.update_of_ne hn _ _).trans ((Function.update_of_ne hn _ _).trans (h.zero n))
  · exact h.taken
  · exact h.failed

theorem Filling.loop (h : Filling s kend p fl) (hk : 0 < kend) (hp : p + j ≤ PHYSTOP) :
    ∃ fl', Filling (s.kinitLoop p j) kend (p + j) fl' := by
  induction j generalizing s p fl with
  | zero => exact ⟨fl, h⟩
  | succ j ih =>
    obtain ⟨fl', h'⟩ := ih (h.next hk (by omega)) (by omega)
    refine ⟨fl', ?_⟩
    rw [Nat.add_right_comm] at h'
    exact h'

/-- After `kinit` every page of the allocator is free. -/
theorem kinit_alloc {ι : Type} [Fintype ι] (m : Mem) (hk : 0 < kend) (hp : kend ≤ PHYSTOP) :
    ∃ fl, Alloc kend (Phys.kinit m kend) (fun _ : ι => none) (fun _ => 0) fl ∧
      fl.length = PHYSTOP - kend ∧ (Phys.kinit m kend).taken = [] ∧
      (Phys.kinit m kend).failed = false := by
  have h₀ : Filling ⟨m, 0, 0, fun _ => 0, [], false⟩ kend kend [] := by
    refine ⟨rfl, fun n => ?_, List.nodup_nil, by simp, rfl, fun _ => rfl, rfl, rfl⟩
    simp only [List.not_mem_nil, false_iff]
    omega
  obtain ⟨fl, h⟩ := h₀.loop (j := PHYSTOP - kend) hk (by omega)
  have htop : kend + (PHYSTOP - kend) = PHYSTOP := by omega
  rw [htop] at h
  have hlen := h.length
  refine ⟨fl, ⟨hk, ⟨fun n _ => ?_, h.nodup, fun n => ?_, fun x n hx => ?_⟩, h.chain, h.cnt⟩, by omega,
    h.taken, h.failed⟩
  · have hz : refs (fun _ : ι => (none : Option Nat)) n = 0 :=
      refs_eq_zero.2 fun _ => (Option.some_ne_none n).symm
    rw [hz]
    exact congrArg UInt8.toNat (h.zero n)
  · rw [h.free]
    refine ⟨fun hn => ⟨hn, congrArg UInt8.toNat (h.zero n)⟩, fun hn => hn.1⟩
  · cases hx

/-- No process has a page yet. -/
def Blank (kend : Nat) (s : Phys) (fl : List Nat) : Prop :=
  ∃ lost, Alloc kend s (fun _ : Pos => none) lost fl

theorem Alloc.blank {tgt : Pos → Option Nat} (h : Alloc kend s tgt lost fl) : Blank kend s fl := by
  obtain ⟨F, hF⟩ : ∃ F : Finset Pos, ∀ x, x ∈ F := ⟨Finset.univ, Finset.mem_univ⟩
  obtain ⟨lost', ha, _⟩ := h.loseOn F
  have he : (fun y => if y ∈ F then none else tgt y) = fun _ => none :=
    funext fun y => if_pos (hF y)
  rw [he] at ha
  exact ⟨lost', ha⟩

theorem Alloc.vm (h : Alloc kend s (fun _ : Pos => none) lost fl) :
    Vm kend s ⟨fun _ => none, fun _ _ => 0, lost, fl⟩ := by
  have hnone (x : Pos) : Sole (fun _ => none) x := sole_of_none rfl
  refine ⟨h, fun y n hy => ?_, fun p => ?_⟩
  · cases hy
  · refine ⟨.empty (fun _ => rfl) _, fun x _ => hnone _, fun x y n hx => ?_, fun v _ => .inl ⟨rfl, rfl⟩,
      fun _ _ => rfl, fun v _ => hnone _⟩
    cases hx

namespace Blank
variable {kend : Nat} {s s' : Phys} {fl : List Nat}

/-- The page table of the kernel: its pages are never given back. -/
theorem kvminit (h : Blank kend s fl) (hs : s.kvminit L = some (pt, s')) :
    s'.taken = s.taken ∧ ∃ fl', Blank kend s' fl' := by
  obtain ⟨lost, ha⟩ := h
  rw [Phys.kvminit] at hs
  dsimp only at hs
  split at hs
  · cases hs
  · rename_i hz
    simp only [Option.bind_eq_bind, Option.pure_def, Option.bind_eq_some_iff, Option.some.injEq,
      Prod.mk.injEq] at hs
    obtain ⟨s₁, hk, _, rfl⟩ := hs
    rcases (ha.vm.tab .shell).newTable L (fun _ => rfl) hz with
      ⟨s₂, tgt₁, fl₁, he, _, hg, ht, _⟩ | ⟨he, _⟩
    · rw [hk] at he
      cases he
      exact ⟨hg.taken, fl₁, ht.alloc.blank⟩
    · rw [hk] at he
      cases he

theorem kalloc (h : Blank kend s fl) : ∃ fl', Blank kend s.kalloc.2 fl' := by
  obtain ⟨lost, ha⟩ := h
  by_cases hz : s.kalloc.1 = 0
  · rw [Phys.kalloc_zero hz]
    exact ⟨fl, lost, ha.kernel, ha.bal, ha.chain, ha.cnt⟩
  · obtain ⟨fl', _, _, ha'⟩ := ha.kalloc (x := (.shell, .kstack)) rfl hz
    exact ⟨fl', ha'.blank⟩

/-- The pages that the drivers keep. -/
theorem driverPages (h : Blank kend s fl) :
    (Kern.driverPages n s).taken = s.taken ∧ ∃ fl', Blank kend (Kern.driverPages n s) fl' := by
  induction n generalizing s fl with
  | zero => exact ⟨rfl, fl, h⟩
  | succ n ih =>
    obtain ⟨fl₁, h₁⟩ := h.kalloc
    obtain ⟨htk, hb⟩ := ih h₁
    exact ⟨htk.trans s.kalloc_taken, hb⟩

end Blank

/-- The first process, with its pages. -/
def firstProc (pt code us ks : Nat) : UProc :=
  ⟨.runnable, 1, none, pt, code, us, ks, HEAPBASE, 0, 0, 0, 0, .idle⟩

namespace Kern

/-- What the first process gets from the allocator: a page with its program, its stack, its page
table and its kernel stack. -/
theorem makeUserProc_some (hs : makeUserProc L s kpt init = some k) :
    let code := s.kalloc.1
    let s₁ := s.kalloc.2.setMem (loadElf init code (s.kalloc.2.mem.setPage code Page.zero)).2
    ∃ pt s₂, code ≠ 0 ∧ init.loads = true ∧ s₁.kalloc.1 ≠ 0 ∧
      s₁.kalloc.2.procPagetable L code s₁.kalloc.1 = some (pt, s₂) ∧
      k = ⟨s₂.kalloc.2, Function.update (fun _ => UProc.zero) .shell
        (firstProc pt code s₁.kalloc.1 s₂.kalloc.1), 2, kpt⟩ := by
  intro code s₁
  rw [makeUserProc] at hs
  dsimp only at hs
  split at hs
  · cases hs
  · rename_i hz
    split at hs
    · cases hs
    · rename_i hl
      rw [loadElf_fst] at hl
      split at hs
      · cases hs
      · rename_i hus
        simp only [Option.bind_eq_bind, Option.bind_eq_some_iff] at hs
        obtain ⟨⟨pt, s₂⟩, hpt, he⟩ := hs
        refine ⟨pt, s₂, hz, ?_, hus, hpt, (Option.some.inj he).symm⟩
        simpa using hl

end Kern

/-- `kalloc` into a pointer, which is null when there is no page. -/
theorem Vm.kallocField (h : Vm kend s g) (hx : x.Plain) (hnone : g.tgt (p, x) = none) :
    ∃ g', Vm kend s.kalloc.2 g' ∧ g'.tgt (p, x) = ptr s.kalloc.1 ∧
      (∀ y, y ≠ (p, x) → g'.tgt y = g.tgt y) ∧ g'.lf = g.lf := by
  by_cases hz : s.kalloc.1 = 0
  · have ha := h.alloc
    rw [Phys.kalloc_zero hz]
    exact ⟨g, ⟨⟨ha.kernel, ha.bal, ha.chain, ha.cnt⟩, h.lost, h.slot⟩, hnone, fun _ _ => rfl, rfl⟩
  · obtain ⟨fl', _, hvm, _⟩ := h.kallocAt hx hnone hz
    refine ⟨_, hvm, ?_, fun y hy => Function.update_of_ne hy _ _, rfl⟩
    rw [ptr_of_ne hz]
    exact Function.update_self ..

/-- The pages of the first process, among references that are all its own. -/
structure First (g : Ghost) : Prop where
  other : ∀ q x, q ≠ .shell → g.tgt (q, x) = none
  leaf : ∀ v, g.tgt (.shell, .leaf v) = none
  lf : ∀ q, q ≠ .shell → ∀ v, g.lf q v = 0

theorem First.sole (h : First g) (hvm : Vm kend s g) (x : SPos) : Sole g.tgt (.shell, x) := by
  intro n y hx hy
  obtain ⟨q, z⟩ := y
  by_cases hq : q = .shell
  · subst hq
    rw [(hvm.slot _).inslot z x n hy hx]
  · rw [h.other q z hq] at hy
    cases hy

/-- The page table of the first process; with no page for it the process has none. -/
theorem First.table (hf : First g) (h : Vm L.kend s g) (hnode : ∀ y, g.tgt (nd .shell y) = none)
    (hlf : g.lf .shell = fun _ => 0) (huc : uc < PHYSTOP) (hus : us < PHYSTOP)
    (hs : s.procPagetable L uc us = some (pt, s')) :
    ∃ g', Vm L.kend s' g' ∧ First g' ∧ g'.tgt (nd .shell .root) = ptr pt ∧
      (∀ x, (∀ y, x ≠ .node y) → g'.tgt (.shell, x) = g.tgt (.shell, x)) ∧
      (pt ≠ 0 → NewTable L uc us (g'.lf .shell)) ∧
      (pt = 0 → g'.lf .shell = fun _ => 0) ∧ s'.taken = s.taken := by
  have htab := h.tab .shell
  rw [hlf] at htab
  rcases htab.procPagetable L hnode huc hus with ⟨he, hz, _⟩ | ⟨he, _⟩ |
    ⟨s₁, tgt', fl', lf', he, hne, hg, ht, hn, hr, _⟩
  · rw [he] at hs
    cases hs
    have ha := h.alloc
    have htk := s.kalloc_taken
    rw [Phys.kalloc_zero hz] at htk ⊢
    exact ⟨g, ⟨⟨ha.kernel, ha.bal, ha.chain, ha.cnt⟩, h.lost, h.slot⟩, hf, hnode _, fun _ _ => rfl,
      fun hne => absurd rfl hne, fun _ => hlf, htk⟩
  · rw [he] at hs
    cases hs
  · rw [he] at hs
    cases hs
    have hvm := h.grown hg ht (fun v hv => .inl ⟨hn.heap v hv v.isLt, hf.leaf v⟩)
      fun v _ => sole_of_none (hf.leaf v)
    have hoff (x : SPos) (hx : ∀ y, x ≠ .node y) : tgt' (.shell, x) = g.tgt (.shell, x) :=
      hg.off _ (ne_nd hx)
    refine ⟨_, hvm, ⟨fun q x hq => ?_, fun v => ?_, fun q hq v => ?_⟩, ?_, hoff, fun _ => ?_,
      fun hz => absurd hz hne, hg.taken⟩
    · exact (hg.off_slot hq x).trans (hf.other q x hq)
    · exact (hoff (.leaf v) fun _ => SPos.noConfusion).trans (hf.leaf v)
    · dsimp only
      rw [Function.update_of_ne hq]
      exact hf.lf q hq v
    · exact hr.trans (ptr_of_ne hne).symm
    · dsimp only
      rwa [Function.update_self]

namespace Blank
variable {L : Layout} {s s' : Phys} {fl : List Nat}

/-- The code page of the first process, with its program, and its stack. -/
theorem firstPages (h : Blank L.kend s fl) (hi : init.Fits) (hz : s.kalloc.1 ≠ 0) :
    let s₁ := s.kalloc.2.setMem
      (loadElf init s.kalloc.1 (s.kalloc.2.mem.setPage s.kalloc.1 Page.zero)).2
    ∃ g, Vm L.kend s₁.kalloc.2 g ∧ First g ∧ g.tgt (.shell, .ucode) = some s.kalloc.1 ∧
      g.tgt (.shell, .ustack) = ptr s₁.kalloc.1 ∧
      (∀ x, x ≠ .ucode → x ≠ .ustack → g.tgt (.shell, x) = none) ∧ (g.lf .shell = fun _ => 0) ∧
      ∃ fl', Blank L.kend s₁ fl' := by
  intro s₁
  obtain ⟨lost, ha⟩ := h
  have hlt := ha.kalloc_lt hz
  obtain ⟨g₁, h₁, hc₁, o₁, l₁⟩ := ha.vm.kallocField (p := .shell) SPos.plain_ucode rfl
  have hkeep₁ (x : SPos) (hx : x ≠ .ucode) : g₁.tgt (.shell, x) = none :=
    o₁ _ fun he => hx (congrArg Prod.snd he)
  have f₁ : First g₁ := by
    refine ⟨fun q x hq => ?_, fun v => hkeep₁ _ SPos.noConfusion,
      fun q _ v => congrFun (congrFun l₁ q) v⟩
    exact o₁ _ fun he => hq (congrArg Prod.fst he)
  have hc₁' := hc₁.trans (ptr_of_ne hz)
  obtain ⟨h₁', _⟩ := h₁.setData hc₁' (fun _ => SPos.noConfusion) (f₁.sole h₁ _)
    (m := (loadElf init s.kalloc.1 (s.kalloc.2.mem.setPage s.kalloc.1 Page.zero)).2) fun j hj =>
      (loadElf_other init hi hlt hj).trans (Mem.setPage_of_ne _ _ hj)
  obtain ⟨g₂, h₂, hs₂, o₂, l₂⟩ := h₁'.kallocField SPos.plain_ustack
    (hkeep₁ .ustack SPos.noConfusion)
  have hkeep (x : SPos) (hx : x ≠ .ustack) : g₂.tgt (.shell, x) = g₁.tgt (.shell, x) :=
    o₂ _ fun he => hx (congrArg Prod.snd he)
  refine ⟨g₂, h₂, ⟨fun q x hq => ?_, fun v => ?_, fun q hq v => ?_⟩, ?_, hs₂, fun x hx hx' => ?_, ?_,
    _, h₁'.alloc.blank⟩
  · exact (o₂ _ fun he => hq (congrArg Prod.fst he)).trans (f₁.other q x hq)
  · exact (hkeep _ SPos.noConfusion).trans (f₁.leaf v)
  · rw [l₂]
    exact f₁.lf q hq v
  · exact (hkeep _ SPos.noConfusion).trans hc₁'
  · exact (hkeep x hx').trans (hkeep₁ x hx)
  · rw [l₂, l₁]

theorem makeUserProc (h : Blank L.kend s fl) (hi : init.Fits) (htk : s.taken = [])
    (hs : Kern.makeUserProc L s kpt init = some k) :
    ∃ g, VmInv L k g ∧ ∀ q v, g.tgt (q, .leaf v) = none := by
  obtain ⟨pt, s₂, hz, _, hus, hpt, hk⟩ := Kern.makeUserProc_some hs
  obtain ⟨g₂, h₂, f₂, hc₂, hs₂, hnone, hlf, _⟩ := h.firstPages hi hz
  set s₁ := s.kalloc.2.setMem
    (loadElf init s.kalloc.1 (s.kalloc.2.mem.setPage s.kalloc.1 Page.zero)).2
  have hlt {x : Pos} {n : Nat} (hx : g₂.tgt x = some n) : n < PHYSTOP :=
    (h₂.alloc.bal.target x n hx).2
  obtain ⟨g₃, h₃, f₃, hr₃, o₃, hnew, hold, htk₃⟩ :=
    f₂.table h₂ (fun y => hnone (.node y) SPos.noConfusion SPos.noConfusion) hlf (hlt hc₂)
      (hlt (hs₂.trans (ptr_of_ne hus))) hpt
  have hstay (x : SPos) (hx : x ≠ .ucode) (hx' : x ≠ .ustack) (hn : ∀ y, x ≠ .node y) :
      g₃.tgt (.shell, x) = none := (o₃ x hn).trans (hnone x hx hx')
  obtain ⟨g₄, h₄, hk₄, o₄, l₄⟩ := h₃.kallocField SPos.plain_kstack
    (hstay .kstack SPos.noConfusion SPos.noConfusion fun _ => SPos.noConfusion)
  have hkeep₄ (x : SPos) (hx : x ≠ .kstack) : g₄.tgt (.shell, x) = g₃.tgt (.shell, x) :=
    o₄ _ fun he => hx (congrArg Prod.snd he)
  have hother (q : Slot) (x : SPos) (hq : q ≠ .shell) : g₄.tgt (q, x) = none :=
    (o₄ _ fun he => hq (congrArg Prod.fst he)).trans (f₃.other q x hq)
  have hcode : g₄.tgt (.shell, .ucode) = ptr s.kalloc.1 :=
    ((hkeep₄ _ SPos.noConfusion).trans (o₃ _ fun _ => SPos.noConfusion)).trans
      (hc₂.trans (ptr_of_ne hz).symm)
  have hstack : g₄.tgt (.shell, .ustack) = ptr s₁.kalloc.1 :=
    ((hkeep₄ _ SPos.noConfusion).trans (o₃ _ fun _ => SPos.noConfusion)).trans hs₂
  refine ⟨g₄, ⟨?_, fun q => ?_, fun t ht => ?_⟩, fun q v => ?_⟩
  · rw [hk]
    exact h₄
  · by_cases hq : q = .shell
    · have hproc : k.proc q = firstProc pt s.kalloc.1 s₁.kalloc.1 s₂.kalloc.1 := by
        simp only [hk, hq, Function.update_self]
      rw [hproc, hq]
      constructor
      · exact (hkeep₄ _ SPos.noConfusion).trans hr₃
      · exact hcode
      · exact hstack
      · exact hk₄
      · intro hne v hlo _
        rw [l₄]
        exact (hnew hne).kern v hlo
      · intro v hv
        rw [l₄]
        by_cases hzero : pt = 0
        · rw [hold hzero]
          exact .inl rfl
        · exact (hnew hzero).code v hv
      · intro v _
        exact sole_of_none ((hkeep₄ _ SPos.noConfusion).trans (f₃.leaf v))
      · have hnone (x : SPos) (hx : x = .fresh ∨ x = .old) : g₄.tgt (.shell, x) = none := by
          rcases hx with rfl | rfl
          · exact (hkeep₄ _ SPos.noConfusion).trans
              (hstay _ SPos.noConfusion SPos.noConfusion fun _ => SPos.noConfusion)
          · exact (hkeep₄ _ SPos.noConfusion).trans
              (hstay _ SPos.noConfusion SPos.noConfusion fun _ => SPos.noConfusion)
        exact ⟨hnone _ (.inl rfl), hnone _ (.inr rfl)⟩
      · intro _
        exact ⟨hz, hus, Nat.le_refl HEAPBASE, show HEAPBASE ≤ PLIC by decide⟩
      · exact .inl rfl
      · intro hne
        exact absurd rfl hne
      · intro hun
        cases hun
    · have hproc : k.proc q = UProc.zero := by
        simp only [hk, Function.update_of_ne hq]
      rw [hproc]
      refine ⟨hother q _ hq, hother q _ hq, hother q _ hq, hother q _ hq, fun hne => absurd rfl hne,
        fun v _ => .inl ?_, fun v _ => sole_of_none (hother q _ hq),
        ⟨hother q _ hq, hother q _ hq⟩, fun hne => absurd rfl hne, .inl rfl,
        fun hne => absurd rfl hne, fun _ => ⟨rfl, rfl, rfl, rfl⟩⟩
      rw [l₄]
      exact f₃.lf q hq v
  · have hnil : k.phys.taken = [] := by
      rw [hk]
      exact (s₂.kalloc_taken.trans htk₃).trans
        (s₁.kalloc_taken.trans (s.kalloc_taken.trans htk))
    rw [hnil] at ht
    cases ht
  · by_cases hq : q = .shell
    · rw [hq]
      exact (hkeep₄ _ SPos.noConfusion).trans (f₃.leaf v)
    · exact hother q _ hq

end Blank

namespace VmInv

/-- The references are in order when the first process starts, and no heap has a page. -/
theorem boot {L : Layout} (hi : init.Fits) (hb : Kern.boot L m drivers init = some k) :
    ∃ g, VmInv L k g ∧ ∀ q v, g.tgt (q, .leaf v) = none := by
  have ht := L.text
  have hd := L.data
  simp only [Kern.boot, Option.bind_eq_bind, Option.bind_eq_some_iff] at hb
  obtain ⟨⟨pt, s⟩, hkpt, hmk⟩ := hb
  obtain ⟨fl, ha, _, htk, _⟩ := kinit_alloc (ι := Pos) m (show 0 < L.kend by omega) L.ram
  have hblank : Blank L.kend (Phys.kinit m L.kend) fl := ⟨_, ha⟩
  obtain ⟨htk₁, fl₁, h₁⟩ := hblank.kvminit hkpt
  obtain ⟨htk₂, fl₂, h₂⟩ := h₁.driverPages (n := drivers)
  exact h₂.makeUserProc hi ((htk₂.trans htk₁).trans htk) hmk

end VmInv

/-- Without a page for its table a process has failed `kalloc`. -/
theorem Phys.procPagetable_failed {s s' : Phys} (hs : s.procPagetable L uc us = some (pt, s'))
    (hpt : pt = 0) : s'.failed = true := by
  rw [procPagetable] at hs
  dsimp only at hs
  split at hs
  · rename_i hz
    rw [kalloc_zero hz] at hs
    cases hs
    rfl
  · rename_i hz
    simp only [Option.bind_eq_bind, Option.bind_eq_some_iff] at hs
    obtain ⟨s₁, _, he⟩ := hs
    cases he
    exact absurd hpt hz

theorem Phys.failed_kalloc {s : Phys} (h : s.failed = true) : s.kalloc.2.failed = true := by
  rw [kalloc]
  split
  · exact h
  · rfl

/-- The first process has a page table when `kalloc` has not failed. -/
theorem Kern.boot_proc {L : Layout} (hb : Kern.boot L m drivers init = some k) :
    ∃ pt code us ks, k.proc = Function.update (fun _ => UProc.zero) .shell (firstProc pt code us ks) ∧
      (k.phys.failed = false → pt ≠ 0) := by
  simp only [Kern.boot, Option.bind_eq_bind, Option.bind_eq_some_iff] at hb
  obtain ⟨⟨_, _⟩, _, hmk⟩ := hb
  obtain ⟨pt, s₂, _, _, _, hpt, hk⟩ := Kern.makeUserProc_some hmk
  refine ⟨pt, _, _, _, by rw [hk], fun hroom hz => ?_⟩
  rw [hk] at hroom
  exact absurd ((Phys.failed_kalloc (Phys.procPagetable_failed hpt hz)).symm.trans hroom)
    Bool.noConfusion

theorem Kern.run_cons (L : Layout) (k : Kern) (p : Slot) (a : Kern.Act)
    (as : List (Slot × Kern.Act)) : k.run L ((p, a) :: as) =
      match k.step L p a with
      | some k' => k'.run L as
      | none => none :=
  rfl

/-- Every step of the run is tame. -/
def TameRun (L : Layout) (k : Kern) : List (Slot × Kern.Act) → Prop
  | [] => True
  | (p, a) :: as => Tame k p a ∧ ∀ k', k.step L p a = some k' → TameRun L k' as

/-- The states of the machine after a run of tame steps. -/
def TameReach (L : Layout) (k : Kern) : Prop :=
  ∃ m drivers init k₀ as, init.Fits ∧ Kern.boot L m drivers init = some k₀ ∧ TameRun L k₀ as ∧
    k₀.run L as = some k

namespace VmInv
variable {L : Layout} {k k' : Kern} {g : Ghost}

theorem run (h : VmInv L k g) (ht : TameRun L k as) (hs : k.run L as = some k') :
    ∃ g', VmInv L k' g' := by
  induction as generalizing k g with
  | nil =>
    cases hs
    exact ⟨g, h⟩
  | cons x as ih =>
    obtain ⟨p, a⟩ := x
    rw [Kern.run_cons] at hs
    cases hk : k.step L p a with
    | none =>
      rw [hk] at hs
      cases hs
    | some k₁ =>
      rw [hk] at hs
      obtain ⟨g₁, h₁, _⟩ := h.move ht.1 hk
      exact ih h₁ (ht.2 k₁ hk) hs

end VmInv

theorem Kern.run_append (L : Layout) (k : Kern) (as bs : List (Slot × Kern.Act)) :
    k.run L (as ++ bs) = (k.run L as).bind fun k' => k'.run L bs := by
  induction as generalizing k with
  | nil => rfl
  | cons x as ih =>
    obtain ⟨p, a⟩ := x
    rw [List.cons_append, Kern.run_cons, Kern.run_cons]
    cases k.step L p a with
    | none => rfl
    | some k' => exact ih k'

theorem TameRun.append (h : TameRun L k as)
    (hb : ∀ k', k.run L as = some k' → TameRun L k' bs) : TameRun L k (as ++ bs) := by
  induction as generalizing k with
  | nil => exact hb k rfl
  | cons x as ih =>
    obtain ⟨p, a⟩ := x
    refine ⟨h.1, fun k₁ hs => ih (h.2 k₁ hs) fun k' hk' => hb k' ?_⟩
    rw [Kern.run_cons, hs]
    exact hk'

theorem TameReach.step (h : TameReach L k) (ht : Tame k p a) (hs : k.step L p a = some k') :
    TameReach L k' := by
  obtain ⟨m, drivers, init, k₀, as, hi, hb, hrun, hk⟩ := h
  refine ⟨m, drivers, init, k₀, as ++ [(p, a)], hi, hb, hrun.append fun k₁ hk₁ => ?_, ?_⟩
  · cases hk.symm.trans hk₁
    exact ⟨ht, fun _ _ => trivial⟩
  · rw [Kern.run_append, hk, Option.bind_some, Kern.run_cons, hs]
    rfl

/-- The references are in order in every state of such a run. -/
theorem TameReach.inv (h : TameReach L k) : ∃ g, VmInv L k g := by
  obtain ⟨m, drivers, init, k₀, as, hi, hb, ht, hs⟩ := h
  obtain ⟨g, hg, _⟩ := VmInv.boot hi hb
  exact hg.run ht hs

end KernelHobby
