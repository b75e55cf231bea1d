import KernelHobby.Bytes
import KernelHobby.RefCount

namespace KernelHobby
set_option autoImplicit true

def PGSIZE : Nat := 4096

/-- The end of RAM, as a page number. -/
def PHYSTOP : Nat := 0x88000

/-- The bytes of a page; a physical address is a page number and an offset in it. -/
abbrev Page := Nat → UInt8

abbrev Mem := Nat → Page

namespace Page

def zero : Page := fun _ => 0

/-- The `i`-th 64-bit word. -/
def word (p : Page) (i : Nat) : Nat := leGet p (8 * i) 8

def setWord (p : Page) (i v : Nat) : Page := fun j =>
  if 8 * i ≤ j ∧ j < 8 * i + 8 then leByte v (j - 8 * i) else p j

theorem word_setWord_self (p : Page) (i : Nat) (hv : v < 2 ^ 64) :
    (p.setWord i v).word i = v := by
  rw [word, leGet_leByte (n := v)]
  · exact Nat.mod_eq_of_lt hv
  · intro k hk
    rw [setWord, if_pos ⟨by omega, by omega⟩, Nat.add_sub_cancel_left]

theorem word_setWord_of_ne (p : Page) (h : i ≠ j) : (p.setWord i v).word j = p.word j := by
  refine leGet_congr fun k hk => ?_
  rw [setWord, if_neg]
  omega

theorem word_zero (i : Nat) : zero.word i = 0 := by
  have h : word zero i = 0 % 256 ^ 8 := by
    refine leGet_leByte (n := 0) fun k _ => ?_
    simp [zero, leByte]
  exact h

end Page

namespace Mem

def setPage (m : Mem) (n : Nat) (p : Page) : Mem := Function.update m n p

def setWord (m : Mem) (n i v : Nat) : Mem := m.setPage n ((m n).setWord i v)

/-- Write one byte at a byte address. -/
def poke (m : Mem) (a : Nat) (b : UInt8) : Mem :=
  m.setPage (a / PGSIZE) (Function.update (m (a / PGSIZE)) (a % PGSIZE) b)

@[simp] theorem setPage_self (m : Mem) (n : Nat) (p : Page) : m.setPage n p n = p :=
  Function.update_self ..

theorem setPage_of_ne (m : Mem) (p : Page) (h : k ≠ n) : m.setPage n p k = m k :=
  Function.update_of_ne h _ _

theorem setWord_of_ne (m : Mem) (h : k ≠ n) : m.setWord n i v k = m k :=
  m.setPage_of_ne _ h

theorem word_setWord_self (m : Mem) (n i : Nat) (hv : v < 2 ^ 64) :
    (m.setWord n i v n).word i = v := by
  rw [setWord, setPage_self]
  exact (m n).word_setWord_self i hv

theorem word_setWord_of_ne (m : Mem) (h : k ≠ n ∨ j ≠ i) :
    (m.setWord n i v k).word j = (m k).word j := by
  by_cases hk : k = n
  · subst hk
    rw [setWord, setPage_self]
    exact (m k).word_setWord_of_ne (h.resolve_left fun hne => hne rfl).symm
  · rw [m.setWord_of_ne hk]

end Mem

/-- Physical memory and the allocator. A pointer to a page is its page number, 0 the null
pointer; the counts are those of `refidx`. Two fields are for the statements only: the virtual
pages whose page-table entries gave the address of a `kfree` or `kref_inc`, and whether a `kalloc`
has failed. -/
structure Phys where
  mem : Mem
  freelist : Nat
  freecnt : Nat
  refcnt : Nat → UInt8
  taken : List Nat
  failed : Bool

namespace Phys

/-- The free list is threaded through the first word of its pages, as byte addresses. -/
def kfree (s : Phys) (n : Nat) : Phys :=
  if 1 < s.refcnt n then { s with refcnt := Function.update s.refcnt n (s.refcnt n - 1) }
  else
    { s with
      mem := s.mem.setWord n 0 (PGSIZE * s.freelist)
      freelist := n
      freecnt := s.freecnt + 1
      refcnt := Function.update s.refcnt n 0 }

def krefInc (s : Phys) (n : Nat) : Phys :=
  { s with refcnt := Function.update s.refcnt n (s.refcnt n + 1) }

/-- The page, or 0 when there is none. -/
def kalloc (s : Phys) : Nat × Phys :=
  let r := s.freelist
  if r ≠ 0 then
    (r, { s with
      freelist := (s.mem r).word 0 / PGSIZE
      freecnt := s.freecnt - 1
      refcnt := Function.update s.refcnt r 1 })
  else (0, { s with failed := true })

theorem kalloc_zero {s : Phys} (h : s.kalloc.1 = 0) : s.kalloc = (0, { s with failed := true }) := by
  simp only [kalloc] at h ⊢
  split at h
  · rename_i hr
    exact absurd h hr
  · rename_i hr
    rw [if_neg hr]

theorem kalloc_fst (s : Phys) : s.kalloc.1 = s.freelist := by
  rw [kalloc]
  split
  · rfl
  · rename_i h
    exact (not_not.1 h).symm

theorem kalloc_some {s : Phys} (hz : s.freelist ≠ 0) : s.kalloc =
    (s.freelist, { s with
      freelist := (s.mem s.freelist).word 0 / PGSIZE
      freecnt := s.freecnt - 1
      refcnt := Function.update s.refcnt s.freelist 1 }) :=
  if_pos hz

theorem kalloc_taken (s : Phys) : s.kalloc.2.taken = s.taken := by
  rw [kalloc]
  split <;> rfl

theorem kalloc_failed (s : Phys) (h : s.kalloc.1 ≠ 0) : s.kalloc.2.failed = s.failed := by
  rw [kalloc_fst] at h
  rw [kalloc_some h]

theorem kalloc_freecnt (s : Phys) (h : s.kalloc.1 ≠ 0) : s.kalloc.2.freecnt = s.freecnt - 1 := by
  rw [kalloc_fst] at h
  rw [kalloc_some h]

/-- Others refer to the page still. -/
theorem kfree_shared {s : Phys} (h : 1 < s.refcnt n) :
    s.kfree n = { s with refcnt := Function.update s.refcnt n (s.refcnt n - 1) } :=
  if_pos h

/-- The last reference to a page is given up. -/
theorem kfree_last {s : Phys} (h : ¬ 1 < s.refcnt n) : s.kfree n =
    { s with
      mem := s.mem.setWord n 0 (PGSIZE * s.freelist)
      freelist := n
      freecnt := s.freecnt + 1
      refcnt := Function.update s.refcnt n 0 } :=
  if_neg h

theorem kfree_freecnt (s : Phys) (n : Nat) :
    s.freecnt ≤ (s.kfree n).freecnt ∧ (s.kfree n).freecnt ≤ s.freecnt + 1 := by
  rw [kfree]
  split
  · exact ⟨Nat.le_refl _, Nat.le_succ _⟩
  · exact ⟨Nat.le_succ _, Nat.le_refl _⟩

/-- The loop of `kinit` over the pages from `p` on, `k` of them. -/
def kinitLoop (s : Phys) (p : Nat) : Nat → Phys
  | 0 => s
  | k + 1 => kinitLoop ({ s with refcnt := Function.update s.refcnt p 1 }.kfree p) (p + 1) k

/-- `kinit`, for a kernel whose end is rounded up to page `kend`. -/
def kinit (m : Mem) (kend : Nat) : Phys :=
  kinitLoop ⟨m, 0, 0, fun _ => 0, [], false⟩ kend (PHYSTOP - kend)

def setMem (s : Phys) (m : Mem) : Phys := { s with mem := m }

def take (s : Phys) (va : Nat) : Phys := { s with taken := va / PGSIZE % 2 ^ 27 :: s.taken }

/-- A page that was just handed out goes back. -/
theorem kfree_kalloc {s : Phys} (hz : s.freelist ≠ 0) (m : Mem) :
    (s.kalloc.2.setMem m).kfree s.kalloc.1 =
      { s with
        mem := m.setWord s.freelist 0 (PGSIZE * ((s.mem s.freelist).word 0 / PGSIZE))
        freecnt := s.freecnt - 1 + 1
        refcnt := Function.update s.refcnt s.freelist 0 } := by
  have hone : (s.kalloc.2.setMem m).refcnt s.kalloc.1 = 1 := by
    rw [kalloc_some hz]
    exact Function.update_self ..
  have hlast : ¬ 1 < (s.kalloc.2.setMem m).refcnt s.kalloc.1 := by
    rw [hone]
    decide
  rw [kfree_last hlast, kalloc_some hz]
  simp only [setMem, Function.update_idem]

end Phys

/-- The free list that starts at page `n` and goes over the pages of the list. -/
def Chain (m : Mem) : Nat → List Nat → Prop
  | n, [] => n = 0
  | n, k :: ks => n = k ∧ k ≠ 0 ∧ k < PHYSTOP ∧ Chain m ((m k).word 0 / PGSIZE) ks

theorem Chain.congr (h : Chain m n ks) (hm : ∀ k ∈ ks, m' k = m k) : Chain m' n ks := by
  induction ks generalizing n with
  | nil => exact h
  | cons k ks ih =>
    obtain ⟨hn, h0, hlt, hc⟩ := h
    refine ⟨hn, h0, hlt, ?_⟩
    rw [hm k List.mem_cons_self]
    exact ih hc fun j hj => hm j (List.mem_cons_of_mem k hj)

/-- A free list is read in one way. -/
theorem Chain.unique (h : Chain m n ks) (h' : Chain m n js) : ks = js := by
  induction ks generalizing n js with
  | nil =>
    cases js with
    | nil => rfl
    | cons j js =>
      have hn : n = 0 := h
      exact absurd (h'.1.symm.trans hn) h'.2.1
  | cons k ks ih =>
    cases js with
    | nil =>
      have hn : n = 0 := h'
      exact absurd (h.1.symm.trans hn) h.2.1
    | cons j js =>
      obtain ⟨hk, _, _, hc⟩ := h
      obtain ⟨hj, _, _, hc'⟩ := h'
      obtain rfl : k = j := hk.symm.trans hj
      rw [ih hc hc']

theorem Chain.lt (h : Chain m n ks) : n < PHYSTOP := by
  cases ks with
  | nil =>
    have hn : n = 0 := h
    rw [hn]
    decide
  | cons k ks =>
    obtain ⟨rfl, _, hlt, _⟩ := h
    exact hlt

/-- A page number that the allocator hands out. -/
def Managed (kend n : Nat) : Prop := kend ≤ n ∧ n < PHYSTOP

/-- The allocator's state: who refers to which page, and the free list. -/
structure Alloc [Fintype ι] (kend : Nat) (s : Phys) (tgt : ι → Option Nat) (lost : Nat → Nat)
    (fl : List Nat) : Prop where
  kernel : 0 < kend
  bal : Balanced (Managed kend) tgt lost (fun n => (s.refcnt n).toNat) fl
  chain : Chain s.mem s.freelist fl
  cnt : s.freecnt = fl.length

/-- A page went back to the allocator, which leaves it as it is while others refer to it. -/
structure Freed (s : Phys) (fl : List Nat) (n : Nat) (s' : Phys) (fl' : List Nat) : Prop where
  other : ∀ k, k ≠ n → s'.mem k = s.mem k
  mem : ∀ k, k ∉ fl' → s'.mem k = s.mem k
  sub : ∀ k ∈ fl', k ∈ fl ∨ k = n
  sup : ∀ k ∈ fl, k ∈ fl'

namespace Alloc
variable {ι : Type} [Fintype ι] [DecidableEq ι] {kend : Nat} {s s' : Phys} {tgt : ι → Option Nat}
  {lost : Nat → Nat} {fl : List Nat} {x y : ι} {n : Nat}

theorem toNat_update (f : Nat → UInt8) (n : Nat) (v : UInt8) :
    (fun k => (Function.update f n v k).toNat) =
      Function.update (fun k => (f k).toNat) n v.toNat := by
  funext k
  by_cases hk : k = n
  · subst hk
    rw [Function.update_self, Function.update_self]
  · rw [Function.update_of_ne hk, Function.update_of_ne hk]

omit [DecidableEq ι] in
/-- Memory off the free list is not the allocator's. -/
theorem setMem (h : Alloc kend s tgt lost fl) {m : Mem} (hm : ∀ k ∈ fl, m k = s.mem k) :
    Alloc kend (s.setMem m) tgt lost fl :=
  ⟨h.kernel, h.bal, h.chain.congr hm, h.cnt⟩

/-- `kalloc` takes the head of the free list, with one reference from `x`. -/
theorem kalloc (h : Alloc kend s tgt lost fl) (hx : tgt x = none) (hn : s.kalloc.1 ≠ 0) :
    ∃ fl', fl = s.kalloc.1 :: fl' ∧ s.kalloc.2.mem = s.mem ∧
      Alloc kend s.kalloc.2 (Function.update tgt x (some s.kalloc.1)) lost fl' := by
  have hr : s.freelist ≠ 0 := by
    rw [← s.kalloc_fst]
    exact hn
  rw [Phys.kalloc_some hr]
  obtain ⟨hk, hbal, hch, hcnt⟩ := h
  cases fl with
  | nil => exact absurd hch hr
  | cons k fl' =>
    obtain ⟨hkk, _, _, hch⟩ := hch
    rw [← hkk] at hch hbal
    refine ⟨fl', by rw [hkk], rfl, hk, ?_, hch, ?_⟩
    · have hb := hbal.alloc hx
      rw [toNat_update]
      exact hb
    · simp [hcnt]

omit [DecidableEq ι] in
/-- The allocator has a page as long as the list is not empty. -/
theorem kalloc_ne_zero (h : Alloc kend s tgt lost fl) (hf : fl ≠ []) : s.kalloc.1 ≠ 0 := by
  cases fl with
  | nil => exact absurd rfl hf
  | cons k fl =>
    obtain ⟨hk, h0, _⟩ := h.chain
    rw [s.kalloc_fst, hk]
    exact h0

omit [DecidableEq ι] in
theorem kalloc_room (h : Alloc kend s tgt lost fl) (hroom : 0 < s.freecnt) : s.kalloc.1 ≠ 0 := by
  apply h.kalloc_ne_zero
  rw [h.cnt] at hroom
  exact List.length_pos_iff.1 hroom

omit [DecidableEq ι] in
/-- The page that `kalloc` hands out was free. -/
theorem kalloc_free (h : Alloc kend s tgt lost fl) (hn : s.kalloc.1 ≠ 0) : s.kalloc.1 ∈ fl := by
  rw [s.kalloc_fst] at hn ⊢
  cases fl with
  | nil => exact absurd h.chain hn
  | cons k fl =>
    rw [h.chain.1]
    exact List.mem_cons_self

omit [DecidableEq ι] in
theorem kalloc_lt (h : Alloc kend s tgt lost fl) (hn : s.kalloc.1 ≠ 0) : s.kalloc.1 < PHYSTOP :=
  ((h.bal.free _).1 (h.kalloc_free hn)).1.2

omit [DecidableEq ι] in
theorem kalloc_fresh (h : Alloc kend s tgt lost fl) (hn : s.kalloc.1 ≠ 0) (y : ι) :
    tgt y ≠ some s.kalloc.1 :=
  fun hy => h.bal.not_free hy (h.kalloc_free hn)

omit [DecidableEq ι] in
/-- A page that goes straight back to the allocator leaves it as it was. -/
theorem kfree_kalloc (h : Alloc kend s tgt lost fl) (hn : s.kalloc.1 ≠ 0)
    (hm : ∀ j, j ≠ s.kalloc.1 → m j = s.mem j) :
    let s' := (s.kalloc.2.setMem m).kfree s.kalloc.1
    Chain s'.mem s'.freelist fl ∧ s'.refcnt = s.refcnt := by
  have hr : s.freelist ≠ 0 := by
    rw [← s.kalloc_fst]
    exact hn
  rw [s.kalloc_fst] at hm
  intro s'
  have he : s' = _ := Phys.kfree_kalloc hr m
  rw [he]
  cases fl with
  | nil => exact absurd h.chain hr
  | cons k fl =>
    obtain ⟨hk, h0, hlt, hc⟩ := h.chain
    have hnot := (List.nodup_cons.1 h.bal.nodup).1
    dsimp only
    refine ⟨⟨hk, h0, hlt, ?_⟩, ?_⟩
    · have hnext : PGSIZE * ((s.mem s.freelist).word 0 / PGSIZE) < 2 ^ 64 := by
        rw [hk]
        have := hc.lt
        simp only [PGSIZE, PHYSTOP] at this ⊢
        omega
      rw [hk] at hm hnext ⊢
      rw [Mem.word_setWord_self _ k 0 hnext, Nat.mul_div_cancel_left _ (by decide)]
      refine hc.congr fun j hj => ?_
      have hne : j ≠ k := fun hjk => hnot (hjk ▸ hj)
      exact (Mem.setWord_of_ne _ hne).trans (hm j hne)
    · have hz : s.refcnt s.freelist = 0 := by
        have hfree := ((h.bal.free k).1 List.mem_cons_self).2
        rw [hk]
        exact UInt8.toNat_inj.1 hfree
      rw [← hz, Function.update_eq_self]

/-- `kfree` of the page that `x` refers to. -/
theorem kfree (h : Alloc kend s tgt lost fl) (hx : tgt x = some n) :
    ∃ fl', Alloc kend (s.kfree n) (Function.update tgt x none) lost fl' ∧
      Freed s fl n (s.kfree n) fl' := by
  obtain ⟨hk, hbal, hch, hcnt⟩ := h
  by_cases h1 : 1 < s.refcnt n
  · have h1' : 1 < (s.refcnt n).toNat := UInt8.lt_iff_toNat_lt.1 h1
    rw [Phys.kfree_shared h1]
    refine ⟨fl, ⟨hk, ?_, hch, hcnt⟩, fun _ _ => rfl, fun _ _ => rfl, fun _ => .inl, fun _ => id⟩
    have hb := hbal.drop hx h1'
    have hsub : (s.refcnt n - 1).toNat = (s.refcnt n).toNat - 1 :=
      UInt8.toNat_sub_of_le (s.refcnt n) 1 (UInt8.le_iff_toNat_le.2 h1'.le)
    rw [toNat_update, hsub]
    exact hb
  · have h1' : (s.refcnt n).toNat ≤ 1 := by
      have hle : ¬ 1 < (s.refcnt n).toNat := fun hlt => h1 (UInt8.lt_iff_toNat_lt.2 hlt)
      omega
    rw [Phys.kfree_last h1]
    refine ⟨n :: fl, ⟨hk, ?_, ?_, ?_⟩, fun k hne => s.mem.setWord_of_ne hne, fun k hk => ?_,
      fun k hk => (List.mem_cons.1 hk).symm, fun k => List.mem_cons_of_mem n⟩
    · have hb := hbal.dropLast hx h1'
      rw [toNat_update]
      exact hb
    · have hm := hbal.target x n hx
      have hlt : PGSIZE * s.freelist < 2 ^ 64 := by
        have := hch.lt
        simp only [PGSIZE, PHYSTOP] at this ⊢
        omega
      refine ⟨rfl, ?_, hm.2, ?_⟩
      · have := hm.1
        omega
      · rw [s.mem.word_setWord_self n 0 hlt, Nat.mul_div_cancel_left _ (by decide)]
        refine hch.congr fun k hk' => s.mem.setWord_of_ne ?_
        rintro rfl
        exact hbal.not_free hx hk'
    · simp [hcnt]
    · apply s.mem.setWord_of_ne
      rintro rfl
      exact hk List.mem_cons_self

/-- A page that another place refers to. -/
theorem kfree_mem (ha : Alloc kend s' (Function.update tgt x none) lost fl')
    (hf : Freed s fl n s' fl') (hy : tgt y = some k) (hyx : y ≠ x) : s'.mem k = s.mem k := by
  apply hf.mem
  have hy' : Function.update tgt x none y = some k := (Function.update_of_ne hyx _ _).trans hy
  exact ha.bal.not_free hy'

/-- `kref_inc` of a page that is referred to: `x` shares it. -/
theorem krefInc (h : Alloc kend s tgt lost fl) (hx : tgt x = none) (hy : tgt y = some n)
    (hlt : (s.refcnt n).toNat < 255) :
    Alloc kend (s.krefInc n) (Function.update tgt x (some n)) lost fl := by
  obtain ⟨hk, hbal, hch, hcnt⟩ := h
  refine ⟨hk, ?_, hch, hcnt⟩
  have hb := hbal.share hx hy
  have hadd : (s.refcnt n + 1).toNat = (s.refcnt n).toNat + 1 := by
    rw [UInt8.toNat_add]
    have h1 : (1 : UInt8).toNat = 1 := rfl
    rw [h1]
    omega
  rw [Phys.krefInc, toNat_update, hadd]
  exact hb

theorem move (h : Alloc kend s tgt lost fl) (hx : tgt x = some n) (hy : tgt y = none) :
    Alloc kend s (Function.update (Function.update tgt x none) y (some n)) lost fl :=
  ⟨h.kernel, h.bal.move hx hy, h.chain, h.cnt⟩

theorem lose (h : Alloc kend s tgt lost fl) (hx : tgt x = some n) :
    Alloc kend s (Function.update tgt x none) (Function.update lost n (lost n + 1)) fl :=
  ⟨h.kernel, h.bal.lose hx, h.chain, h.cnt⟩

theorem find (h : Alloc kend s tgt lost fl) (hm : Managed kend n) (hx : tgt x = none)
    (hl : 0 < lost n) :
    Alloc kend s (Function.update tgt x (some n)) (Function.update lost n (lost n - 1)) fl :=
  ⟨h.kernel, h.bal.find hm hx hl, h.chain, h.cnt⟩

/-- The references of `F` are forgotten. -/
theorem loseOn (h : Alloc kend s tgt lost fl) (F : Finset ι) :
    ∃ lost', Alloc kend s (fun y => if y ∈ F then none else tgt y) lost' fl ∧
      (∀ n, (∀ y ∈ F, tgt y ≠ some n) → lost' n = lost n) ∧
      ∀ y ∈ F, ∀ n, tgt y = some n → 0 < lost' n := by
  induction F using Finset.induction_on with
  | empty =>
    refine ⟨lost, ?_, fun _ _ => rfl, fun y hy => absurd hy (Finset.notMem_empty y)⟩
    simpa using h
  | insert x F hx ih =>
    obtain ⟨lost', ha, hl, hpos⟩ := ih
    have hl' (n : Nat) (hn : ∀ y ∈ insert x F, tgt y ≠ some n) : lost' n = lost n :=
      hl n fun y hy => hn y (Finset.mem_insert_of_mem hy)
    have hval : (if x ∈ F then none else tgt x) = tgt x := if_neg hx
    have hup : (fun y => if y ∈ insert x F then none else tgt y) =
        Function.update (fun y => if y ∈ F then none else tgt y) x none := by
      funext y
      by_cases hy : y = x
      · rw [hy, Function.update_self, if_pos (Finset.mem_insert_self x F)]
      · rw [Function.update_of_ne hy]
        simp only [Finset.mem_insert, hy, false_or]
    rw [hup]
    cases ht : tgt x with
    | none =>
      have he : Function.update (fun y => if y ∈ F then none else tgt y) x none =
          fun y => if y ∈ F then none else tgt y := by
        rw [Function.update_eq_iff]
        exact ⟨(hval.trans ht).symm, fun _ _ => rfl⟩
      rw [he]
      refine ⟨lost', ha, hl', fun y hy n hn => ?_⟩
      rcases Finset.mem_insert.1 hy with rfl | hy
      · rw [ht] at hn
        cases hn
      · exact hpos y hy n hn
    | some n =>
      refine ⟨_, ha.lose (hval.trans ht), fun j hj => ?_, fun y hy j hj => ?_⟩
      · have hjn : j ≠ n := by
          rintro rfl
          exact hj x (Finset.mem_insert_self x F) ht
        rw [Function.update_of_ne hjn]
        exact hl' j hj
      · by_cases hjn : j = n
        · rw [hjn, Function.update_self]
          exact Nat.succ_pos _
        · rw [Function.update_of_ne hjn]
          rcases Finset.mem_insert.1 hy with rfl | hy
          · rw [ht] at hj
            exact absurd (Option.some.inj hj).symm hjn
          · exact hpos y hy j hj

end Alloc

end KernelHobby
