import KernelHobby.VmBoot

namespace KernelHobby
set_option autoImplicit true

/-- The start of RAM, as a page number. -/
def RAMBASE : Nat := 0x80000

/-- The page that `PGROUNDUP` of an address is the start of. -/
def PGROUNDUP (a : Nat) : Nat := (a + PGSIZE - 1) / PGSIZE

/-- What the kernel does with the pages of the allocator: its calls, and stores to whole pages. -/
inductive KmemCall where
  | kalloc
  | kfree (n : Nat)
  | krefInc (n : Nat)
  | store (n : Nat) (data : Page)

/-- A call that is over; `kalloc` with the page that it returned. -/
inductive KmemEvent where
  | kalloc (r : Option Nat)
  | kfree (n : Nat)
  | krefInc (n : Nat)
  deriving DecidableEq

/-- The calls since page `n` was last handed out; the last call comes first. -/
def sinceAlloc (tr : List KmemEvent) (n : Nat) : List KmemEvent :=
  tr.takeWhile (· ≠ .kalloc (some n))

def kfrees (tr : List KmemEvent) (n : Nat) : Nat := (sinceAlloc tr n).count (.kfree n)

def krefIncs (tr : List KmemEvent) (n : Nat) : Nat := (sinceAlloc tr n).count (.krefInc n)

/-- The references to a page as its calls have it: one from `kalloc` and one from each `kref_inc`,
less those that `kfree` gave back. -/
def references (tr : List KmemEvent) (n : Nat) : Nat :=
  if .kalloc (some n) ∈ tr then krefIncs tr n + 1 - kfrees tr n else 0

/-- What the callers keep to: they use only pages that have references, and no page gets more than
255 of them. -/
def KmemCall.Ok (tr : List KmemEvent) : KmemCall → Prop
  | .kalloc => True
  | .kfree n => 0 < references tr n
  | .krefInc n => 0 < references tr n ∧ references tr n < 255
  | .store n _ => 0 < references tr n

namespace Phys

def call (s : Phys) : KmemCall → Phys
  | .kalloc => s.kalloc.2
  | .kfree n => s.kfree n
  | .krefInc n => s.krefInc n
  | .store n data => s.setMem (s.mem.setPage n data)

def log (s : Phys) (tr : List KmemEvent) : KmemCall → List KmemEvent
  | .kalloc => .kalloc (ptr s.kalloc.1) :: tr
  | .kfree n => .kfree n :: tr
  | .krefInc n => .krefInc n :: tr
  | .store _ _ => tr

/-- The page is on the free list. -/
def OnFreelist (s : Phys) (n : Nat) : Prop := ∃ fl, Chain s.mem s.freelist fl ∧ n ∈ fl

end Phys

/-- The allocator after `kinit` for a kernel image that ends at address `e`, and after any number of
calls, and the calls so far. -/
inductive KmemReach (e : Nat) (m : Mem) : Phys → List KmemEvent → Prop where
  | kinit : KmemReach e m (Phys.kinit m (PGROUNDUP e)) []
  | call (h : KmemReach e m s tr) (hok : c.Ok tr) : KmemReach e m (s.call c) (s.log tr c)

/-- The allocator is right about its pages. -/
structure KmemRight (kend : Nat) (s : Phys) (tr : List KmemEvent) : Prop where
  list : ∃ fl, Chain s.mem s.freelist fl ∧ fl.Nodup ∧
    (∀ n, n ∈ fl ↔ Managed kend n ∧ s.refcnt n = 0) ∧ s.freecnt = fl.length
  count : ∀ n, Managed kend n → (s.refcnt n).toNat = references tr n
  fresh : s.kalloc.1 ≠ 0 → Managed kend s.kalloc.1 ∧ references tr s.kalloc.1 = 0
  full : s.kalloc.1 = 0 ↔ ∀ n, Managed kend n → 0 < references tr n
  back : ∀ c : KmemCall, c.Ok tr → ∀ n, ¬ s.OnFreelist n ∧ (s.call c).OnFreelist n ↔
    c = .kfree n ∧ krefIncs tr n < kfrees (.kfree n :: tr) n

section
variable {tr : List KmemEvent} {n : Nat}

theorem sinceAlloc_cons (h : e ≠ .kalloc (some n)) : sinceAlloc (e :: tr) n = e :: sinceAlloc tr n :=
  List.takeWhile_cons_of_pos (decide_eq_true h)

theorem sinceAlloc_kalloc : sinceAlloc (.kalloc (some n) :: tr) n = [] :=
  List.takeWhile_cons_of_neg (by simp)

theorem references_kalloc : references (.kalloc (some n) :: tr) n = 1 := by
  rw [references, if_pos List.mem_cons_self, krefIncs, kfrees, sinceAlloc_kalloc]
  rfl

/-- Calls for other pages. -/
theorem references_other (ha : e ≠ .kalloc (some n)) (hf : e ≠ .kfree n) (hr : e ≠ .krefInc n) :
    references (e :: tr) n = references tr n := by
  simp only [references, krefIncs, kfrees, sinceAlloc_cons ha, List.count_cons_of_ne hf,
    List.count_cons_of_ne hr, List.mem_cons, ha.symm, false_or]

theorem references_kfree : references (.kfree n :: tr) n = references tr n - 1 := by
  have ha : KmemEvent.kfree n ≠ .kalloc (some n) := KmemEvent.noConfusion
  have hr : KmemEvent.kfree n ≠ .krefInc n := KmemEvent.noConfusion
  simp only [references, krefIncs, kfrees, sinceAlloc_cons ha, List.count_cons_self,
    List.count_cons_of_ne hr, List.mem_cons, ha.symm, false_or]
  split
  · omega
  · rfl

theorem references_krefInc (h : 0 < references tr n) :
    references (.krefInc n :: tr) n = references tr n + 1 := by
  have ha : KmemEvent.krefInc n ≠ .kalloc (some n) := KmemEvent.noConfusion
  have hf : KmemEvent.krefInc n ≠ .kfree n := KmemEvent.noConfusion
  simp only [references, krefIncs, kfrees, sinceAlloc_cons ha, List.count_cons_self,
    List.count_cons_of_ne hf, List.mem_cons, ha.symm, false_or] at h ⊢
  split
  · rename_i hin
    rw [if_pos hin] at h
    omega
  · rename_i hin
    rw [if_neg hin] at h
    omega

/-- The `kfree` that gives back the last reference. -/
theorem references_last (h : 0 < references tr n) :
    references tr n = 1 ↔ krefIncs tr n < kfrees (.kfree n :: tr) n := by
  have ha : KmemEvent.kfree n ≠ .kalloc (some n) := KmemEvent.noConfusion
  have hk : kfrees (.kfree n :: tr) n = kfrees tr n + 1 := by
    rw [kfrees, sinceAlloc_cons ha, List.count_cons_self, kfrees]
  rw [references] at h ⊢
  split at h
  · rename_i hin
    rw [if_pos hin]
    omega
  · exact absurd h (Nat.lt_irrefl 0)

end

/-- The counts are those of the calls, and so is the free list. -/
structure KmemInv (kend : Nat) (s : Phys) (tr : List KmemEvent) : Prop where
  alloc : ∃ fl, Alloc kend s (fun _ : Bool => none) (references tr) fl
  managed : ∀ n, 0 < references tr n → Managed kend n

namespace KmemInv
variable {kend : Nat} {s : Phys} {tr : List KmemEvent} {n : Nat}

theorem kinit (m : Mem) (hk : 0 < kend) (hp : kend ≤ PHYSTOP) :
    KmemInv kend (Phys.kinit m kend) [] := by
  obtain ⟨fl, h, _⟩ := kinit_alloc (ι := Bool) m hk hp
  have hzero : references [] = fun _ => 0 := rfl
  refine ⟨⟨fl, hzero ▸ h⟩, fun n hn => ?_⟩
  exact absurd hn (Nat.lt_irrefl 0)

/-- The calls for page `n` change its references only. -/
theorem references_update {e : KmemEvent} (hn : references (e :: tr) n = v)
    (ha : ∀ k, k ≠ n → e ≠ .kalloc (some k) ∧ e ≠ .kfree k ∧ e ≠ .krefInc k) :
    references (e :: tr) = Function.update (references tr) n v := by
  funext k
  by_cases hk : k = n
  · rw [hk, Function.update_self]
    exact hn
  · obtain ⟨h₁, h₂, h₃⟩ := ha k hk
    rw [Function.update_of_ne hk]
    exact references_other h₁ h₂ h₃

theorem toNat_refcnt (ha : Alloc kend s (fun _ : Bool => none) (references tr) fl)
    (hm : Managed kend n) : (s.refcnt n).toNat = references tr n := by
  have hzero : refs (fun _ : Bool => (none : Option Nat)) n = 0 := by
    apply refs_eq_zero.2
    intro x hx
    cases hx
  rw [ha.bal.count n hm, hzero, Nat.zero_add]

theorem off_list (ha : Alloc kend s (fun _ : Bool => none) (references tr) fl)
    (hn : 0 < references tr n) : n ∉ fl := by
  intro hin
  have hz := ha.bal.free_lost hin
  omega

theorem kalloc (h : KmemInv kend s tr) :
    KmemInv kend s.kalloc.2 (.kalloc (ptr s.kalloc.1) :: tr) := by
  obtain ⟨fl, ha⟩ := h.alloc
  by_cases hz : s.kalloc.1 = 0
  · have hsame : references (.kalloc (ptr s.kalloc.1) :: tr) = references tr := by
      funext k
      apply references_other
      · rw [hz, ptr_zero]
        intro he
        cases he
      · exact KmemEvent.noConfusion
      · exact KmemEvent.noConfusion
    constructor
    · rw [hsame, Phys.kalloc_zero hz]
      exact ⟨fl, ha.kernel, ha.bal, ha.chain, ha.cnt⟩
    · rw [hsame]
      exact h.managed
  · have hfree := ha.kalloc_free hz
    obtain ⟨fl', _, _, ha'⟩ := ha.kalloc (x := true) rfl hz
    have hl := ha'.lose (x := true) (Function.update_self ..)
    rw [Function.update_idem, Function.update_eq_self] at hl
    have hupd : references (.kalloc (ptr s.kalloc.1) :: tr) =
        Function.update (references tr) s.kalloc.1 (references tr s.kalloc.1 + 1) := by
      rw [ptr_of_ne hz, ha.bal.free_lost hfree]
      refine references_update references_kalloc fun k hk => ⟨?_, ?_, ?_⟩
      · intro he
        exact hk (Option.some.inj (KmemEvent.kalloc.inj he)).symm
      · exact KmemEvent.noConfusion
      · exact KmemEvent.noConfusion
    rw [← hupd] at hl
    refine ⟨⟨fl', hl⟩, fun n hn => ?_⟩
    by_cases he : n = s.kalloc.1
    · rw [he]
      exact ((ha.bal.free _).1 hfree).1
    · rw [hupd, Function.update_of_ne he] at hn
      exact h.managed n hn

theorem kfree (h : KmemInv kend s tr) (hn : 0 < references tr n) :
    KmemInv kend (s.kfree n) (.kfree n :: tr) := by
  obtain ⟨fl, ha⟩ := h.alloc
  have hf := ha.find (x := true) (h.managed n hn) rfl hn
  obtain ⟨fl', ha', _⟩ := hf.kfree (x := true) (Function.update_self ..)
  rw [Function.update_idem, Function.update_eq_self] at ha'
  have hupd : references (.kfree n :: tr) =
      Function.update (references tr) n (references tr n - 1) := by
    refine references_update references_kfree fun k hk => ⟨?_, ?_, ?_⟩
    · exact KmemEvent.noConfusion
    · intro he
      exact hk (KmemEvent.kfree.inj he).symm
    · exact KmemEvent.noConfusion
  rw [← hupd] at ha'
  refine ⟨⟨fl', ha'⟩, fun k hk => ?_⟩
  by_cases he : k = n
  · rw [he]
    exact h.managed n hn
  · rw [hupd, Function.update_of_ne he] at hk
    exact h.managed k hk

theorem krefInc (h : KmemInv kend s tr) (hn : 0 < references tr n) (hmax : references tr n < 255) :
    KmemInv kend (s.krefInc n) (.krefInc n :: tr) := by
  obtain ⟨fl, ha⟩ := h.alloc
  have hf := ha.find (x := true) (h.managed n hn) rfl hn
  have hlt : (s.refcnt n).toNat < 255 := by
    rw [toNat_refcnt ha (h.managed n hn)]
    exact hmax
  have hi := hf.krefInc (x := false) (y := true) (Function.update_of_ne (by decide) _ _)
    (Function.update_self ..) hlt
  have hl := (hi.lose (x := false) (Function.update_self ..)).lose (x := true) (n := n) (by
    rw [Function.update_of_ne (by decide), Function.update_of_ne (by decide), Function.update_self])
  have hnone : Function.update (Function.update (Function.update (Function.update
      (fun _ : Bool => none) true (some n)) false (some n)) false none) true none = fun _ => none := by
    funext x
    cases x with
    | true => exact Function.update_self ..
    | false => exact (Function.update_of_ne (by decide) _ _).trans (Function.update_self ..)
  have hupd : references (.krefInc n :: tr) =
      Function.update (references tr) n (references tr n + 1) := by
    refine references_update (references_krefInc hn) fun k hk => ⟨?_, ?_, ?_⟩
    · exact KmemEvent.noConfusion
    · exact KmemEvent.noConfusion
    · intro he
      exact hk (KmemEvent.krefInc.inj he).symm
  have hlost : Function.update (Function.update (Function.update (references tr) n
      (references tr n - 1)) n (references tr n - 1 + 1)) n (references tr n - 1 + 1 + 1) =
      references (.krefInc n :: tr) := by
    rw [hupd, Function.update_idem, Function.update_idem, Nat.sub_add_cancel hn]
  rw [hnone, Function.update_self, Function.update_self, hlost] at hl
  refine ⟨⟨fl, hl⟩, fun k hk => ?_⟩
  by_cases he : k = n
  · rw [he]
    exact h.managed n hn
  · rw [hupd, Function.update_of_ne he] at hk
    exact h.managed k hk

/-- A store to a page that has references leaves the free list alone. -/
theorem store (h : KmemInv kend s tr) (hn : 0 < references tr n) (data : Page) :
    KmemInv kend (s.setMem (s.mem.setPage n data)) tr := by
  obtain ⟨fl, ha⟩ := h.alloc
  refine ⟨⟨fl, ha.setMem fun k hk => ?_⟩, h.managed⟩
  apply Mem.setPage_of_ne
  rintro rfl
  exact off_list ha hn hk

theorem call (h : KmemInv kend s tr) (hok : c.Ok tr) : KmemInv kend (s.call c) (s.log tr c) := by
  cases c with
  | kalloc => exact h.kalloc
  | kfree n => exact h.kfree hok
  | krefInc n => exact h.krefInc hok.1 hok.2
  | store n data => exact h.store hok data

/-- The free pages are those without references. -/
theorem free_iff (h : KmemInv kend s tr) : s.OnFreelist n ↔ Managed kend n ∧ references tr n = 0 := by
  obtain ⟨fl, ha⟩ := h.alloc
  have hin : n ∈ fl ↔ Managed kend n ∧ references tr n = 0 := by
    rw [ha.bal.free n]
    refine and_congr_right fun hm => ?_
    rw [toNat_refcnt ha hm]
  rw [← hin]
  constructor
  · rintro ⟨fl', hc, hn⟩
    rw [ha.chain.unique hc]
    exact hn
  · intro hn
    exact ⟨fl, ha.chain, hn⟩

/-- A call takes away the last reference to a page. -/
theorem lost_last (hok : c.Ok tr) (hn : 0 < references tr n) :
    references (s.log tr c) n = 0 ↔ c = .kfree n ∧ references tr n = 1 := by
  cases c with
  | kalloc =>
    have hpos : 0 < references (.kalloc (ptr s.kalloc.1) :: tr) n := by
      by_cases hr : ptr s.kalloc.1 = some n
      · rw [hr, references_kalloc]
        exact Nat.one_pos
      · rw [references_other ?_ KmemEvent.noConfusion KmemEvent.noConfusion]
        · exact hn
        · intro he
          exact hr (KmemEvent.kalloc.inj he)
    constructor
    · intro hz
      exact absurd hz hpos.ne'
    · rintro ⟨he, _⟩
      cases he
  | kfree k =>
    by_cases hk : k = n
    · subst hk
      have hlog : references (s.log tr (.kfree k)) k = references tr k - 1 := references_kfree
      rw [hlog]
      constructor
      · intro hz
        exact ⟨rfl, by omega⟩
      · rintro ⟨_, hone⟩
        omega
    · have hlog : references (s.log tr (.kfree k)) n = references tr n :=
        references_other KmemEvent.noConfusion (fun he => hk (KmemEvent.kfree.inj he))
          KmemEvent.noConfusion
      rw [hlog]
      constructor
      · intro hz
        exact absurd hz hn.ne'
      · rintro ⟨he, _⟩
        exact absurd (KmemCall.kfree.inj he) hk
  | krefInc k =>
    have hpos : 0 < references (.krefInc k :: tr) n := by
      by_cases hk : k = n
      · subst hk
        rw [references_krefInc hn]
        exact Nat.succ_pos _
      · rw [references_other KmemEvent.noConfusion KmemEvent.noConfusion
          fun he => hk (KmemEvent.krefInc.inj he)]
        exact hn
    constructor
    · intro hz
      exact absurd hz hpos.ne'
    · rintro ⟨he, _⟩
      cases he
  | store k data =>
    constructor
    · intro hz
      exact absurd hz hn.ne'
    · rintro ⟨he, _⟩
      cases he

theorem right (h : KmemInv kend s tr) : KmemRight kend s tr := by
  obtain ⟨fl, ha⟩ := h.alloc
  have hfree (n : Nat) : n ∈ fl ↔ Managed kend n ∧ s.refcnt n = 0 := by
    rw [ha.bal.free n, ← UInt8.toNat_inj]
    rfl
  refine ⟨⟨fl, ha.chain, ha.bal.nodup, hfree, ha.cnt⟩, fun n hm => toNat_refcnt ha hm, fun hz => ?_,
    ⟨fun hz n hm => ?_, fun hall => ?_⟩, fun c hok n => ?_⟩
  · have hin := ha.kalloc_free hz
    exact ⟨((ha.bal.free _).1 hin).1, ha.bal.free_lost hin⟩
  · have hnil : fl = [] := by
      by_contra hne
      exact ha.kalloc_ne_zero hne hz
    by_contra hno
    have hin : n ∈ fl := by
      rw [ha.bal.free n, toNat_refcnt ha hm]
      exact ⟨hm, Nat.eq_zero_of_not_pos hno⟩
    rw [hnil] at hin
    cases hin
  · by_contra hz
    have hin := ha.kalloc_free hz
    exact off_list ha (hall _ ((ha.bal.free _).1 hin).1) hin
  · rw [h.free_iff, (h.call hok).free_iff]
    constructor
    · rintro ⟨hno, hm, hz⟩
      have hpos : 0 < references tr n := Nat.pos_of_ne_zero fun hz => hno ⟨hm, hz⟩
      obtain ⟨he, hone⟩ := (lost_last hok hpos).1 hz
      exact ⟨he, (references_last hpos).1 hone⟩
    · rintro ⟨rfl, hlt⟩
      have hpos : 0 < references tr n := hok
      have hz := (lost_last (s := s) hok hpos).2 ⟨rfl, (references_last hpos).2 hlt⟩
      exact ⟨fun hf => hpos.ne' hf.2, h.managed n hpos, hz⟩

end KmemInv

/-- The allocator is right after any calls, wherever in RAM the kernel ends. -/
theorem kmem_right (he : RAMBASE * PGSIZE ≤ e) (htop : e ≤ PHYSTOP * PGSIZE)
    (h : KmemReach e m s tr) : KmemRight (PGROUNDUP e) s tr := by
  have hinv : KmemInv (PGROUNDUP e) s tr := by
    induction h with
    | kinit =>
      apply KmemInv.kinit
      · simp only [PGROUNDUP, RAMBASE, PGSIZE] at he ⊢
        omega
      · simp only [PGROUNDUP, PHYSTOP, PGSIZE] at htop ⊢
        omega
    | call h hok ih => exact ih.call hok
  exact hinv.right

/-- A page is handed out, shared and given back twice. -/
theorem kmem_right_share : ∃ s n, n ≠ 0 ∧
    KmemReach 0x804bf123 (fun _ => Page.zero) s
      [.kfree n, .kfree n, .krefInc n, .kalloc (some n)] ∧
    KmemRight (PGROUNDUP 0x804bf123) s [.kfree n, .kfree n, .krefInc n, .kalloc (some n)] := by
  set e := 0x804bf123
  have he : RAMBASE * PGSIZE ≤ e := by decide
  have htop : e ≤ PHYSTOP * PGSIZE := by decide
  have h₀ : KmemReach e (fun _ => Page.zero) _ [] := .kinit
  have hright := kmem_right he htop h₀
  set s₀ := Phys.kinit (fun _ => Page.zero) (PGROUNDUP e)
  have hz : s₀.kalloc.1 ≠ 0 := by
    intro hz
    have hpos := hright.full.1 hz 0x804c0 ⟨by decide, by decide⟩
    exact absurd hpos (Nat.lt_irrefl 0)
  obtain ⟨n, hn⟩ : ∃ n, n = s₀.kalloc.1 := ⟨_, rfl⟩
  have h₁ : KmemReach e (fun _ => Page.zero) (s₀.call .kalloc) [.kalloc (some n)] := by
    have hc := h₀.call (c := .kalloc) trivial
    rw [Phys.log, ptr_of_ne hz, ← hn] at hc
    exact hc
  have hone : references [.kalloc (some n)] n = 1 := references_kalloc
  have htwo : references [.krefInc n, .kalloc (some n)] n = 2 := by
    rw [references_krefInc (by omega), hone]
  have h₂ := h₁.call (c := .krefInc n) ⟨by omega, by omega⟩
  have h₃ := h₂.call (c := .kfree n) (Nat.lt_of_lt_of_eq Nat.two_pos htwo.symm)
  have hlast : references [.kfree n, .krefInc n, .kalloc (some n)] n = 1 := by
    rw [references_kfree, htwo]
  have h₄ := h₃.call (c := .kfree n) (Nat.lt_of_lt_of_eq Nat.one_pos hlast.symm)
  exact ⟨_, n, hn ▸ hz, h₄, kmem_right he htop h₄⟩

end KernelHobby
