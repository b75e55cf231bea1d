import KernelHobby.ElfPoke
import KernelHobby.MapPages
import KernelHobby.VmRoom

namespace KernelHobby
set_option autoImplicit true

/-- The places of a process that refer to a page: the nodes of its page table, the entries of its
heap and its mapped file, its pointers, and the pages that a copy-on-write fault has in hand. -/
inductive Ref where
  | node (x : Node)
  | leaf (v : Fin (2 ^ 27))
  | ucode
  | ustack
  | kstack
  | fresh
  | old
  deriving DecidableEq, Fintype

/-- The page that the entry of a user page leads to. -/
def Kern.userPage (k : Kern) (p : Slot) (v : Nat) : Option Nat :=
  let w := k.pte p (v * PGSIZE)
  if (k.proc p).pagetable ≠ 0 ∧ w &&& PTE_V ≠ 0 ∧ w &&& PTE_U ≠ 0 then some (pte2pa w) else none

def UProc.freshPage (q : UProc) : Option Nat :=
  match q.cow with
  | .got _ _ n _ => some n
  | .copied _ _ n _ => some n
  | _ => none

def UProc.oldPage (q : UProc) : Option Nat :=
  match q.cow with
  | .mapped _ n => some n
  | _ => none

/-- What the processes that are not unused refer to. -/
def Kern.refers (k : Kern) : Slot × Ref → Option Nat
  | (p, x) =>
    let q := k.proc p
    if q.state = .unused then none
    else
      match x with
      | .node y => if q.pagetable = 0 then none else nodeAt k.phys.mem q.pagetable y
      | .leaf v => if v.val < 16 then none else k.userPage p v
      | .ucode => ptr q.ucode
      | .ustack => ptr q.ustack
      | .kstack => ptr q.kstack
      | .fresh => q.freshPage
      | .old => q.oldPage

/-- No page is used after it was given back, and a page that a process can write is its own. -/
structure PagesSafe (k : Kern) : Prop where
  count : ∀ n, refs k.refers n ≤ (k.phys.refcnt n).toNat
  list : ∃ fl, Chain k.phys.mem k.phys.freelist fl ∧ fl.Nodup ∧ ∀ y n, k.refers y = some n → n ∉ fl
  write : ∀ p v n, (k.proc p).state ≠ .unused → v < 2 ^ 27 → k.userPage p v = some n →
    k.pte p (v * PGSIZE) &&& PTE_W ≠ 0 →
    ∀ q u, (k.proc q).state ≠ .unused → u < 2 ^ 27 → k.userPage q u = some n → q = p ∧ u = v

def SPos.ref : SPos → Ref
  | .node x => .node x
  | .leaf v => .leaf ⟨v, v.lt⟩
  | .ucode => .ucode
  | .ustack => .ustack
  | .kstack => .kstack
  | .fresh => .fresh
  | .old => .old

/-- The place that maps a user page. -/
inductive MapsAt (g : Ghost) (p : Slot) (v n : Nat) (w : Nat) : SPos → Prop where
  | code (hv : v = 1) (ht : g.tgt (p, .ucode) = some n) (hw : w = mkPte n 27) : MapsAt g p v n w .ucode
  | stack (hv : v = 4) (ht : g.tgt (p, .ustack) = some n) (hw : w = mkPte n 23) :
      MapsAt g p v n w .ustack
  | leaf (u : UPage) (hu : u.val = v) (ht : g.tgt (p, .leaf u) = some n) (h16 : 16 ≤ v) :
      MapsAt g p v n w (.leaf u)

namespace VmInv
variable {L : Layout} {k : Kern} {g : Ghost} {p : Slot}

theorem userPage (h : VmInv L k g) (hun : (k.proc p).state ≠ .unused) (hv : v < 2 ^ 27)
    (hn : k.userPage p v = some n) : ∃ x, MapsAt g p v n (g.lf p v) x := by
  rw [Kern.userPage] at hn
  split at hn
  · rename_i hc
    obtain ⟨hpt, hvalid, huser⟩ := hc
    rw [h.pte_page hpt hv] at hvalid huser hn
    cases hn
    have hl := h.linked p
    have hlive := hl.live hun
    by_cases hlow : v < 16
    · rcases hl.code v hlow with hw | ⟨hv1, hw⟩ | ⟨hv4, hw⟩
      · rw [hw] at hvalid
        exact absurd (Nat.zero_and _) hvalid
      · refine ⟨.ucode, .code hv1 ?_ ?_⟩
        · rw [hw, pte2pa_mkPte _ (by decide), hl.ucode, ptr_of_ne hlive.1]
        · rw [hw, pte2pa_mkPte _ (by decide)]
      · refine ⟨.ustack, .stack hv4 ?_ ?_⟩
        · rw [hw, pte2pa_mkPte _ (by decide), hl.ustack, ptr_of_ne hlive.2.1]
        · rw [hw, pte2pa_mkPte _ (by decide)]
    · by_cases hhigh : 0xC000 ≤ v
      · rw [hl.kern hpt v hhigh hv] at huser
        exact absurd (kernPte_user L v) huser
      · rcases (h.vm.slot p).leaf ⟨v, Nat.not_le.1 hhigh⟩ (Nat.not_lt.1 hlow) with
          ⟨hz, _⟩ | ⟨n, f, ht, hw, hf⟩
        · rw [hz] at hvalid
          exact absurd (Nat.zero_and _) hvalid
        · refine ⟨.leaf ⟨v, Nat.not_le.1 hhigh⟩, .leaf _ rfl ?_ (Nat.not_lt.1 hlow)⟩
          rw [hw, pte2pa_mkPte n (by omega), ht]
  · cases hn

theorem mapsAt_tgt (h : MapsAt g p v n w x) : g.tgt (p, x) = some n := by
  cases h with
  | code hv ht hw => exact ht
  | stack hv ht hw => exact ht
  | leaf u hu ht h16 => exact ht

theorem mapsAt_page (h : MapsAt g p v n w x) (h' : MapsAt g' q u j w' x) : v = u := by
  cases h with
  | code hv _ _ =>
    cases h' with
    | code hu _ _ => rw [hv, hu]
  | stack hv _ _ =>
    cases h' with
    | stack hu _ _ => rw [hv, hu]
  | leaf _ hv _ _ =>
    cases h' with
    | leaf _ hu _ _ => rw [← hv, ← hu]

/-- Every reference is one that the allocator counts. -/
theorem refers (h : VmInv L k g) (hn : k.refers (p, x) = some n) :
    ∃ y, g.tgt (p, y) = some n ∧ y.ref = x := by
  simp only [Kern.refers] at hn
  split at hn
  · cases hn
  · rename_i hun
    have hl := h.linked p
    cases x with
    | node y =>
      dsimp only at hn
      split at hn
      · cases hn
      · rename_i hpt
        refine ⟨.node y, ?_, rfl⟩
        rw [← hn]
        exact ((h.vm.slot p).holds.nodeAt (h.root hpt) y).symm
    | leaf v =>
      dsimp only at hn
      split at hn
      · cases hn
      · rename_i hlow
        obtain ⟨x, hx⟩ := h.userPage hun v.isLt hn
        refine ⟨x, mapsAt_tgt hx, ?_⟩
        cases hx with
        | code hv _ _ => omega
        | stack hv _ _ => omega
        | leaf u hu _ _ => exact congrArg Ref.leaf (Fin.ext hu)
    | ucode => exact ⟨.ucode, hl.ucode.trans hn, rfl⟩
    | ustack => exact ⟨.ustack, hl.ustack.trans hn, rfl⟩
    | kstack => exact ⟨.kstack, hl.kstack.trans hn, rfl⟩
    | fresh =>
      refine ⟨.fresh, ?_, rfl⟩
      have hcow := hl.cow
      rw [UProc.freshPage] at hn
      cases hc : (k.proc p).cow with
      | idle =>
        rw [hc] at hn
        cases hn
      | got va loc fresh old =>
        rw [hc] at hn hcow
        cases hn
        obtain ⟨v, hv⟩ := hcow
        exact hv.fresh
      | copied va loc fresh old =>
        rw [hc] at hn hcow
        cases hn
        obtain ⟨⟨v, hv⟩, _⟩ := hcow
        exact hv.fresh
      | mapped va old =>
        rw [hc] at hn
        cases hn
    | old =>
      refine ⟨.old, ?_, rfl⟩
      have hcow := hl.cow
      rw [UProc.oldPage] at hn
      cases hc : (k.proc p).cow with
      | mapped va old =>
        rw [hc] at hn hcow
        cases hn
        exact hcow.2.1
      | idle =>
        rw [hc] at hn
        cases hn
      | got va loc fresh old =>
        rw [hc] at hn
        cases hn
      | copied va loc fresh old =>
        rw [hc] at hn
        cases hn

theorem pagesSafe (h : VmInv L k g) : PagesSafe k where
  count n := by
    by_cases hex : ∃ y, k.refers y = some n
    · obtain ⟨⟨p, x⟩, hx⟩ := hex
      obtain ⟨y, hy, _⟩ := h.refers hx
      have hcount := h.vm.alloc.bal.count n (h.vm.alloc.bal.target _ n hy)
      have hle : refs k.refers n ≤ refs g.tgt n := by
        refine refs_le_refs (fun y : Pos => (y.1, y.2.ref)) fun ⟨q, z⟩ hz => ?_
        obtain ⟨y, hy, he⟩ := h.refers hz
        exact ⟨(q, y), hy, Prod.ext rfl he⟩
      omega
    · have hz : refs k.refers n = 0 := refs_eq_zero.2 fun y hy => hex ⟨y, hy⟩
      rw [hz]
      exact Nat.zero_le _
  list := by
    refine ⟨g.fl, h.vm.alloc.chain, h.vm.alloc.bal.nodup, fun ⟨p, x⟩ n hx => ?_⟩
    obtain ⟨y, hy, _⟩ := h.refers hx
    exact h.vm.alloc.bal.not_free hy
  write p v n hun hv hn hw q u hun' hu hn' := by
    have hpt : (k.proc p).pagetable ≠ 0 := by
      intro hz
      rw [Kern.userPage, hz] at hn
      cases hn
    obtain ⟨x, hx⟩ := h.userPage hun hv hn
    obtain ⟨y, hy⟩ := h.userPage hun' hu hn'
    rw [h.pte_page hpt hv] at hw
    have hsole : Sole g.tgt (p, x) := by
      cases hx with
      | code hv ht he =>
        rw [he, mkPte_and n (by decide) (by decide)] at hw
        exact absurd rfl hw
      | stack hv ht he => exact (h.vm.slot p).own .ustack trivial
      | leaf u hu ht h16 =>
        rw [← hu] at hw
        exact (h.vm.slot p).write u hw
    obtain ⟨rfl, rfl⟩ := Prod.mk.inj (hsole n (q, y) (mapsAt_tgt hx) (mapsAt_tgt hy))
    exact ⟨rfl, mapsAt_page hy hx⟩

end VmInv

/-- In every run of tame steps pages are safe. -/
theorem pagesSafe_of_tame (h : TameReach L k) : PagesSafe k := by
  obtain ⟨g, hg⟩ := h.inv
  exact hg.pagesSafe

theorem pagesSafe_of_boot : ∃ k, TameReach smallKernel k ∧ PagesSafe k := by
  obtain ⟨k, _, _, _, _, hb, _⟩ := smallKernel_boot
  have hr := TameReach.boot spinElf_fits hb
  exact ⟨k, hr, pagesSafe_of_tame hr⟩

/-- A free list whose second page leads to itself has no end. -/
theorem Chain.no_loop (h : Chain m n ks) (hn : n ≠ 0) (ht : t ≠ 0) (hnext : (m n).word 0 / PGSIZE = t)
    (hself : (m t).word 0 / PGSIZE = t) : False := by
  cases ks with
  | nil => exact hn h
  | cons k ks =>
    obtain ⟨rfl, _, _, hrest⟩ := h
    rw [hnext] at hrest
    cases ks with
    | nil => exact ht hrest
    | cons j ks =>
      obtain ⟨rfl, h0, hlt, hrest'⟩ := hrest
      rw [hself] at hrest'
      have hcycle : Chain m t (t :: ks) := by
        refine ⟨rfl, h0, hlt, ?_⟩
        rw [hself]
        exact hrest'
      exact absurd (hcycle.unique hrest') (List.cons_ne_self t ks)

theorem Started.heap_low (h : Started L k pt code us ks) (p : Slot) :
    (k.proc p).heapTop ≤ MMAPBASE := by
  rw [h.proc]
  by_cases hp : p = .shell
  · rw [hp, Function.update_self]
    change HEAPBASE ≤ MMAPBASE
    decide
  · rw [Function.update_of_ne hp]
    decide

/-- A program of two segments is refused for the second one, after the first was stored over the
free list: the next free page leads to itself. -/
theorem exec_links_free_page : ∃ k k' img,
    Kern.boot smallKernel (fun _ => Page.zero) 18 spinElf = some k ∧
      k.run smallKernel [(.shell, .exec (some img))] = some k' ∧ k'.phys.failed = false ∧
      (∀ p, (k'.proc p).heapTop ≤ MMAPBASE) ∧ ¬ PagesSafe k' := by
  obtain ⟨k, pt, code, us, ks, hb, hst, hroom⟩ := smallKernel_boot
  obtain ⟨g, h⟩ := (TameReach.boot spinElf_fits hb).inv
  have hrun := hst.runs
  have hchain := h.vm.alloc.chain
  have hcnt := h.vm.alloc.cnt
  cases hfl : g.fl with
  | nil =>
    rw [hfl, List.length_nil] at hcnt
    omega
  | cons n fl =>
    rw [hfl] at hchain
    obtain ⟨hn, hn0, hnlt, hrest⟩ := hchain
    cases fl with
    | nil =>
      rw [hfl, List.length_singleton] at hcnt
      omega
    | cons t fl =>
      obtain ⟨ht, ht0, htlt, _⟩ := hrest
      have hne : t ≠ n := by
        intro he
        have hd := h.vm.alloc.bal.nodup
        rw [hfl, he] at hd
        exact (List.nodup_cons.1 hd).1 List.mem_cons_self
      obtain ⟨m, hm, hexec⟩ := k.procExec_poke .shell (hn ▸ hn0) (hn ▸ hnlt) htlt (PGSIZE * t)
      rw [hn] at hm hexec
      have hstep := hrun.step_exec smallKernel hexec
      refine ⟨k, ?state, pokeElf (pageDist n t) (PGSIZE * t), hb, ?run, ?room, ?low,
        fun hsafe => ?loop⟩
      case run =>
        rw [Kern.run, hstep]
        rfl
      case room => exact hst.failed
      case low => exact hst.heap_low
      case loop =>
        obtain ⟨ks, hks, _⟩ := hsafe.list
        have hlink : PGSIZE * ((k.phys.mem n).word 0 / PGSIZE) = PGSIZE * t := by rw [ht]
        rw [hlink] at hks
        have htlt' : PGSIZE * t < 2 ^ 64 := by
          simp only [PGSIZE, PHYSTOP] at htlt ⊢
          omega
        have hback : PGSIZE * t / PGSIZE = t := Nat.mul_div_cancel_left t (by decide)
        refine hks.no_loop (t := t) (hn ▸ hn0) ht0 ?_ ?_
        · change ((m.setWord n 0 (PGSIZE * t)) k.phys.freelist).word 0 / PGSIZE = t
          rw [hn, Mem.word_setWord_self m n 0 htlt', hback]
        · change ((m.setWord n 0 (PGSIZE * t)) t).word 0 / PGSIZE = t
          rw [m.setWord_of_ne hne, hm.word htlt', hback]

end KernelHobby
