import KernelHobby.ElfPoke
import KernelHobby.ForkFrame
import KernelHobby.ForkReap

namespace KernelHobby
set_option autoImplicit true

/-- A process of the machine that copies at `proc_fork`: its heap is its own, byte by byte. -/
structure EProc where
  state : ProcState
  parent : Option Slot
  heapTop : Nat
  heap : Nat → UInt8

/-- The machine without pages: nothing is shared, and nothing is mapped late. -/
abbrev Eager := Slot → EProc

namespace Eager

def freeSlot (e : Eager) : Option Slot :=
  (List.finRange NPROC).find? fun q => (e q).state = .unused

def zombieChild (e : Eager) (p : Slot) : Option Slot :=
  (List.finRange NPROC).find? fun q => (e q).parent = some p ∧ (e q).state = .zombie

/-- The heap, up to the end of its last page. -/
def InHeap (r : EProc) (va : Nat) : Prop :=
  HEAPBASE ≤ va / PGSIZE * PGSIZE ∧ va / PGSIZE * PGSIZE < r.heapTop

instance : Decidable (InHeap r va) := inferInstanceAs (Decidable (_ ∧ _))

/-- The steps of the machine; faults do nothing here. -/
def step (e : Eager) (p : Slot) : Kern.Act → Eager
  | .store va b =>
    if InHeap (e p) va then
      Function.update e p { e p with heap := Function.update (e p).heap va b }
    else e
  | .sbrk n =>
    if 0 < n.toInt then
      Function.update e p { e p with heapTop := wrap64 ((e p).heapTop + n.toInt.toNat) }
    else e
  | .fork _ _ =>
    match e.freeSlot with
    | none => e
    | some c => Function.update e c ⟨.runnable, some p, (e p).heapTop, (e p).heap⟩
  | .exec (some img) =>
    if img.loads then Function.update e p { e p with heapTop := HEAPBASE, heap := fun _ => 0 } else e
  | .exit => Function.update e p { e p with state := .zombie }
  | .wait =>
    match e.zombieChild p with
    | none => e
    | some c => Function.update e c { e c with parent := none, state := .unused }
  | .exec none | .mmap _ | .fault _ _ _ | .cowCopy | .cowMap | .cowFree => e

/-- The first process is ready. -/
def boot : Eager := Function.update (fun _ => ⟨.unused, none, 0, fun _ => 0⟩) .shell
  ⟨.runnable, none, HEAPBASE, fun _ => 0⟩

end Eager

/-- The byte of its heap that a process sees through its page table, 0 where no page is mapped. -/
def Kern.heapByte (k : Kern) (p : Slot) (va : Nat) : UInt8 := (k.userLoad p va).getD 0

/-- Both machines after the same steps, of which each is allowed by `ok`. No `kalloc` has failed and
no heap goes beyond the start of the mapped files. -/
inductive Paired (L : Layout) (ok : Kern → Slot → Kern.Act → Prop) : Kern → Eager → Prop where
  | boot (hi : init.Fits) (hb : Kern.boot L m drivers init = some k) (hroom : k.phys.failed = false) :
      Paired L ok k .boot
  | step (h : Paired L ok k e) (hok : ok k p a) (hs : k.step L p a = some k')
      (hlow : ∀ q, (k'.proc q).heapTop ≤ MMAPBASE) (hroom : k'.phys.failed = false) :
      Paired L ok k' (e.step p a)

/-- Every process sees the heap that it has in the machine that copies at once. -/
def HeapsAgree (k : Kern) (e : Eager) : Prop :=
  ∀ p va, (k.proc p).state ≠ .unused → HEAPBASE ≤ va → va < (k.proc p).heapTop →
    k.heapByte p va = (e p).heap va

/-- The byte of a page, 0 without one. -/
def pageByte (m : Mem) : Option Nat → Nat → UInt8
  | none, _ => 0
  | some n, i => m n i

/-- A process against what the other machine has of it. The pages before the mapped files are the
heap's. -/
structure Mirror (m : Mem) (g : Ghost) (p : Slot) (q : UProc) (r : EProc) : Prop where
  state : r.state = q.state
  parent : r.parent = q.parent
  top : q.state ≠ .unused → r.heapTop = q.heapTop
  table : q.state ≠ .unused → q.pagetable ≠ 0
  byte : q.state ≠ .unused → ∀ v : UPage, 16 ≤ v.val → v.val < 256 → ∀ i, i < PGSIZE →
    r.heap (v * PGSIZE + i) = pageByte m (g.tgt (p, .leaf v)) i
  above : q.state ≠ .unused → ∀ v : UPage, 16 ≤ v.val → v.val < 256 →
    g.tgt (p, .leaf v) ≠ none → q.Heap v

namespace Mirror
variable {m m' : Mem} {g g' : Ghost} {p : Slot} {q q' : UProc} {r : EProc}

/-- The same pages with the same bytes. -/
theorem same (h : Mirror m g p q r)
    (ht : ∀ v : UPage, v.val < 256 → g'.tgt (p, .leaf v) = g.tgt (p, .leaf v))
    (hm : ∀ (v : UPage) n, v.val < 256 → g.tgt (p, .leaf v) = some n → m' n = m n) :
    Mirror m' g' p q r where
  state := h.state
  parent := h.parent
  top := h.top
  table := h.table
  byte hun v hlo hhi i hi := by
    rw [h.byte hun v hlo hhi i hi, ht v hhi]
    cases hn : g.tgt (p, .leaf v) with
    | none => rfl
    | some n => rw [pageByte, pageByte, hm v n hhi hn]
  above hun v hlo hhi hv := by
    rw [ht v hhi] at hv
    exact h.above hun v hlo hhi hv

/-- A step of other processes. -/
theorem frame {S : Slot → Prop} (h : Mirror s.mem g p q r) (st : SlotStep S s g s' g')
    (hp : ¬ S p) : Mirror s'.mem g' p q r :=
  h.same (fun _ _ => st.tgt p _ hp) fun _ n _ hn => st.mem p _ n hp hn

/-- Fields that the other machine does not have. -/
theorem congr (h : Mirror m g p q r) (hs : q'.state = q.state) (hp : q'.parent = q.parent)
    (ht : q'.heapTop = q.heapTop) (hpt : q'.pagetable = q.pagetable) : Mirror m g p q' r where
  state := h.state.trans hs.symm
  parent := h.parent.trans hp.symm
  top hun := (h.top (hs ▸ hun)).trans ht.symm
  table hun := by
    rw [hpt]
    exact h.table (hs ▸ hun)
  byte hun := h.byte (hs ▸ hun)
  above hun v hlo hhi hv := by
    have hin := h.above (hs ▸ hun) v hlo hhi hv
    exact ⟨hin.1, ht.symm ▸ hin.2⟩

end Mirror

def Mirrors (k : Kern) (g : Ghost) (e : Eager) : Prop :=
  ∀ p, Mirror k.phys.mem g p (k.proc p) (e p)

namespace Mirrors
variable {L : Layout} {k k' : Kern} {g g' : Ghost} {e e' : Eager} {p : Slot}

theorem freeSlot (h : Mirrors k g e) : e.freeSlot = k.freeSlot := by
  have hst (q : Slot) : (e q).state = (k.proc q).state := (h q).state
  simp only [Eager.freeSlot, Kern.freeSlot, hst]

theorem zombieChild (h : Mirrors k g e) (p : Slot) : e.zombieChild p = k.zombieChild p := by
  have hst (q : Slot) : (e q).state = (k.proc q).state := (h q).state
  have hpar (q : Slot) : (e q).parent = (k.proc q).parent := (h q).parent
  simp only [Eager.zombieChild, Kern.zombieChild, hst, hpar]

/-- Only process `p` changes. -/
theorem one (h : Mirrors k g e) (st : SlotStep (· = p) k.phys g k'.phys g')
    (hk : ∀ r, r ≠ p → k'.proc r = k.proc r) (he : ∀ r, r ≠ p → e' r = e r)
    (hp : Mirror k'.phys.mem g' p (k'.proc p) (e' p)) : Mirrors k' g' e' := by
  intro r
  by_cases hr : r = p
  · rw [hr]
    exact hp
  · rw [hk r hr, he r hr]
    exact (h r).frame st hr

end Mirrors

/-- Where a store goes: its page is one that the process refers to, and the one of the heap when the
address is there. -/
theorem Reaches.place {L : Layout} {k : Kern} {g : Ghost} {p : Slot} (hk : VmInv L k g)
    (hr : Reaches g p (k.proc p) va perm n) (hva : va < 2 ^ 38) (hlive : (k.proc p).state ≠ .unused) :
    ∃ x, g.tgt (p, x) = some n ∧ ∀ v : UPage, 16 ≤ v.val → (x = .leaf v ↔ va / PGSIZE = v.val) := by
  have hvpn : vpn va = va / PGSIZE := by
    simp only [vpn, PGSIZE]
    omega
  have hl := hk.linked p
  obtain ⟨huc, hus, _⟩ := hl.live hlive
  cases hr with
  | code hv hn _ =>
    refine ⟨.ucode, by rw [hl.ucode, ptr_of_ne huc, hn], fun v hlo => ⟨fun he => ?_, fun he => ?_⟩⟩
    · cases he
    · omega
  | stack hv hn _ =>
    refine ⟨.ustack, by rw [hl.ustack, ptr_of_ne hus, hn], fun v hlo => ⟨fun he => ?_, fun he => ?_⟩⟩
    · cases he
    · omega
  | leaf u f hu hv ht _ _ _ =>
    refine ⟨.leaf u, ht, fun v hlo => ⟨fun he => ?_, fun he => ?_⟩⟩
    · cases he
      exact hvpn.symm.trans hv
    · rw [Fin.ext (hv.symm.trans (hvpn.trans he))]

/-- A store changes the same byte in both machines. -/
theorem Mirror.store {L : Layout} {k : Kern} {g : Ghost} {p : Slot} {r : EProc}
    (h : Mirror k.phys.mem g p (k.proc p) r) (hk : VmInv L k g)
    (hr : Reaches g p (k.proc p) va perm n) (hva : va < 2 ^ 38)
    (hlive : (k.proc p).state ≠ .unused) (b : UInt8) :
    Mirror (k.phys.mem.poke (n * PGSIZE + va % PGSIZE) b) g p (k.proc p)
      (if Eager.InHeap r va then { r with heap := Function.update r.heap va b } else r) := by
  obtain ⟨x, hx, hplace⟩ := hr.place hk hva hlive
  have hpg : (n * PGSIZE + va % PGSIZE) / PGSIZE = n := page_div n (Nat.mod_lt va (by decide))
  have hoff : (n * PGSIZE + va % PGSIZE) % PGSIZE = va % PGSIZE :=
    page_mod n (Nat.mod_lt va (by decide))
  have hpoke (v : UPage) (hlo : 16 ≤ v.val) (i : Nat) :
      pageByte (k.phys.mem.poke (n * PGSIZE + va % PGSIZE) b) (g.tgt (p, .leaf v)) i =
        if va / PGSIZE = v.val ∧ i = va % PGSIZE then b
        else pageByte k.phys.mem (g.tgt (p, .leaf v)) i := by
    by_cases hv : va / PGSIZE = v.val
    · have hxv := (hplace v hlo).2 hv
      rw [← hxv, hx, pageByte, pageByte, Mem.poke, hpg, hoff, Mem.setPage_self]
      by_cases hi : i = va % PGSIZE
      · rw [if_pos ⟨hv, hi⟩, hi, Function.update_self]
      · rw [if_neg fun hh => hi hh.2, Function.update_of_ne hi]
    · rw [if_neg fun hh => hv hh.1]
      cases hn : g.tgt (p, .leaf v) with
      | none => rfl
      | some j =>
        have hne : j ≠ n := by
          rintro rfl
          exact hv ((hplace v hlo).1 ((hk.vm.slot p).inslot _ _ j hx hn))
        rw [pageByte, pageByte, poke_of_ne]
        rwa [hpg]
  have hheap (v : UPage) (hlo : 16 ≤ v.val) (hhi : v.val < 256) (hv : va / PGSIZE = v.val) :
      Eager.InHeap r va := by
    have hxv := (hplace v hlo).2 hv
    have hin := h.above hlive v hlo hhi (by
      rw [← hxv, hx]
      exact Option.some_ne_none n)
    rw [Eager.InHeap, hv, h.top hlive]
    refine ⟨?_, hin.2⟩
    simp only [HEAPBASE, PGSIZE]
    omega
  have haddr (v i : Nat) (hi : i < PGSIZE) :
      v * PGSIZE + i = va ↔ va / PGSIZE = v ∧ i = va % PGSIZE := by
    simp only [PGSIZE] at hi ⊢
    omega
  have hfield (r' : EProc) (hs : r'.state = r.state) (hp : r'.parent = r.parent)
      (ht : r'.heapTop = r.heapTop)
      (hb : ∀ v : UPage, 16 ≤ v.val → v.val < 256 → ∀ i, i < PGSIZE → r'.heap (v * PGSIZE + i) =
        if va / PGSIZE = v.val ∧ i = va % PGSIZE then b else r.heap (v * PGSIZE + i)) :
      Mirror (k.phys.mem.poke (n * PGSIZE + va % PGSIZE) b) g p (k.proc p) r' := by
    refine ⟨hs.trans h.state, hp.trans h.parent, fun hun => ht.trans (h.top hun), h.table, ?_, h.above⟩
    intro hun v hlo hhi i hi
    rw [hb v hlo hhi i hi, hpoke v hlo, h.byte hun v hlo hhi i hi]
  split
  · refine hfield _ rfl rfl rfl fun v hlo hhi i hi => ?_
    by_cases hv : va / PGSIZE = v.val ∧ i = va % PGSIZE
    · rw [if_pos hv]
      dsimp only
      rw [(haddr v i hi).2 hv, Function.update_self]
    · rw [if_neg hv]
      exact Function.update_of_ne (fun he => hv ((haddr v i hi).1 he)) _ _
  · rename_i hno
    refine hfield r rfl rfl rfl fun v hlo hhi i hi => ?_
    rw [if_neg fun hv => hno (hheap v hlo hhi hv.1)]

theorem Same.byte {v : UPage} (h : Same s g s' g' p v) (i : Nat) :
    pageByte s.mem (g.tgt (p, .leaf v)) i = pageByte s'.mem (g'.tgt (p, .leaf v)) i := by
  rw [h.tgt]
  cases hn : g.tgt (p, .leaf v) with
  | none => rfl
  | some n => rw [pageByte, pageByte, h.mem n hn]

/-- A page gets another place, and its bytes stay as they are. -/
theorem Mirror.put {k k' : Kern} {g g' : Ghost} {p : Slot} {r : EProc} {v : UPage}
    (h : Mirror k.phys.mem g p (k.proc p) r)
    (hsame : ∀ u, u ≠ v → Same k.phys g k'.phys g' p u)
    (hbyte : 16 ≤ v.val → v.val < 256 → ∀ i, pageByte k.phys.mem (g.tgt (p, .leaf v)) i =
      pageByte k'.phys.mem (g'.tgt (p, .leaf v)) i)
    (hin : 16 ≤ v.val → v.val < 256 → (k.proc p).state ≠ .unused → (k.proc p).Heap v) :
    Mirror k'.phys.mem g' p (k.proc p) r where
  state := h.state
  parent := h.parent
  top := h.top
  table := h.table
  byte hun u hlo hhi i hi := by
    rw [h.byte hun u hlo hhi i hi]
    by_cases huv : u = v
    · subst huv
      exact hbyte hlo hhi i
    · exact (hsame u huv).byte i
  above hun u hlo hhi hu := by
    by_cases huv : u = v
    · subst huv
      exact hin hlo hhi hun
    · rw [(hsame u huv).tgt] at hu
      exact h.above hun u hlo hhi hu

/-- A page of the heap gets its memory: it read as zeros before. -/
theorem Mirror.fill {L : Layout} {k k' : Kern} {g g' : Ghost} {p : Slot} {r : EProc} {v : UPage}
    (h : Mirror k.phys.mem g p (k.proc p) r) (hk : VmInv L k g) (hin : (k.proc p).Heap v)
    (hfill : VmInv.Filled k g p v Page.zero f k' g') : Mirror k'.phys.mem g' p (k.proc p) r := by
  rcases hfill with ⟨_, hsame⟩ | ⟨hz, hsame, n, ht, _, hdata⟩
  · exact h.same (fun u _ => (hsame u).tgt) fun u n _ hn => (hsame u).mem n hn
  · refine h.put hsame (fun hlo _ i => ?_) fun _ _ _ => hin
    have hnone : g.tgt (p, .leaf v) = none := by
      rcases (hk.vm.slot p).leaf v hlo with ⟨_, hn⟩ | ⟨n, f, _, hw, _⟩
      · exact hn
      · rw [hz, mkPte] at hw
        omega
    rw [hnone, ht, pageByte, pageByte, hdata]
    rfl

/-- A page of the heap is replaced by a copy of it. -/
theorem Mirror.copy {k k' : Kern} {g g' : Ghost} {p : Slot} {r : EProc} {v : UPage}
    (h : Mirror k.phys.mem g p (k.proc p) r) (hold : g.tgt (p, .leaf v) = some old)
    (hsame : ∀ u, u ≠ v → Same k.phys g k'.phys g' p u) (hnew : g'.tgt (p, .leaf v) = some fresh)
    (hdata : k'.phys.mem fresh = k.phys.mem old) : Mirror k'.phys.mem g' p (k.proc p) r := by
  refine h.put hsame (fun _ _ i => ?_) fun hlo hhi hun => ?_
  · rw [hold, hnew, pageByte, pageByte, hdata]
  · apply h.above hun v hlo hhi
    rw [hold]
    exact Option.some_ne_none old

/-- The heap is gone, and what it had is not mapped any more. -/
theorem Mirror.exec {k k' : Kern} {g g' : Ghost} {p : Slot} {r : EProc}
    (h : Mirror k.phys.mem g p (k.proc p) r) (he : VmInv.Execed k g p img k' g') :
    Mirror k'.phys.mem g' p (k'.proc p) { r with heapTop := HEAPBASE, heap := fun _ => 0 } := by
  have hproc : k'.proc p = { k.proc p with
      heapTop := HEAPBASE, mmapBase := 0, ucode := k.phys.kalloc.1 } := by
    rw [he.proc, Function.update_self]
  have hnone (hun : (k.proc p).state ≠ .unused) (v : UPage) (hlo : 16 ≤ v.val) (hhi : v.val < 256) :
      g'.tgt (p, .leaf v) = none := by
    by_cases hR : (k.proc p).Ranges v
    · exact (he.gone v hR).1
    · rw [(he.same v hlo hR).tgt]
      by_contra hne
      exact hR (.inl (h.above hun v hlo hhi hne))
  rw [hproc]
  refine ⟨h.state, h.parent, fun _ => rfl, h.table, fun hun v hlo hhi i hi => ?_,
    fun hun v hlo hhi hv => absurd (hnone hun v hlo hhi) hv⟩
  rw [hnone hun v hlo hhi]
  rfl

/-- The child has the bytes of its parent. -/
theorem Mirror.fork {k k' : Kern} {g g' : Ghost} {p c : Slot} {r : EProc}
    (h : Mirror k.phys.mem g p (k.proc p) r) (hrun : (k.proc p).state = .runnable)
    (hf : Forked k g p c k' g') (hroom : k'.phys.failed = false) :
    Mirror k'.phys.mem g' c (k'.proc c) ⟨.runnable, some p, r.heapTop, r.heap⟩ := by
  obtain ⟨pt, us, f, hproc⟩ := hf.proc
  have hself : k'.proc c = k.childProc p c pt us f := by
    rw [hproc, Function.update_self]
  have hlive : (k.proc p).state ≠ .unused := runnable_ne_unused hrun
  have htable := hf.table hroom
  rw [hself] at htable ⊢
  refine ⟨rfl, rfl, fun _ => h.top hlive, fun _ => htable, fun _ v hlo hhi i hi => ?_,
    fun _ v hlo hhi hv => ?_⟩
  · dsimp only
    rw [h.byte hlive v hlo hhi i hi]
    by_cases hin : (k.proc p).Heap v
    · rw [hf.heap hroom v hin]
      cases hn : g.tgt (p, .leaf v) with
      | none => rfl
      | some j => rw [pageByte, pageByte, hf.mem v j hn]
    · have hnone : g.tgt (p, .leaf v) = none := by
        by_contra hne
        exact hin (h.above hlive v hlo hhi hne)
      rw [hf.none v hin, hnone]
      rfl
  · by_contra hin
    exact hv (hf.none v hin)

/-- Only a process that runs takes a step. -/
theorem Kern.step_store {L : Layout} {k k' : Kern} (hs : k.step L p (.store va b) = some k') :
    va < 2 ^ 38 := by
  have hruns := Kern.step_runs hs ⟨Act.noConfusion, Act.noConfusion, Act.noConfusion⟩
  rw [hruns.step_store] at hs
  obtain ⟨n, hn, _⟩ := Option.map_eq_some_iff.1 hs
  rw [translate_pte] at hn
  split at hn
  · rename_i hok
    exact hok.1
  · cases hn

namespace Mirrors
variable {L : Layout} {k k' : Kern} {g g' : Ghost} {e : Eager} {p : Slot}

/-- The machines stay alike when a process does nothing to the heaps. -/
theorem idle (h : Mirrors k g e) (st : SlotStep (· = p) k.phys g k'.phys g')
    (hproc : ∃ c, k'.proc = Function.update k.proc p { k.proc p with cow := c })
    (hp : Mirror k'.phys.mem g' p (k.proc p) (e p)) : Mirrors k' g' e := by
  obtain ⟨c, hproc⟩ := hproc
  refine h.one st (fun r hr => ?_) (fun _ _ => rfl) ?_
  · rw [hproc]
    exact Function.update_of_ne hr _ _
  · rw [hproc, Function.update_self]
    exact hp.congr rfl rfl rfl rfl

theorem idle_proc (hproc : k'.proc = k.proc) :
    ∃ c, k'.proc = Function.update k.proc p { k.proc p with cow := c } :=
  ⟨(k.proc p).cow, hproc.trans (Function.update_eq_self ..).symm⟩

/-- A step of `p` that leaves all pages. -/
theorem own (h : Mirrors k g e) {q : UProc} {r : EProc} (hp : Mirror k.phys.mem g p q r) :
    Mirrors (k.setProc p q) g (Function.update e p r) := by
  refine h.one (p := p) (.refl ..) (fun r hr => Kern.setProc_of_ne _ _ hr)
    (fun r hr => Function.update_of_ne hr _ _) ?_
  rw [Kern.setProc_self, Function.update_self]
  exact hp

/-- The other machine does nothing. -/
theorem own_idle (h : Mirrors k g e) {q : UProc} (hp : Mirror k.phys.mem g p q (e p)) :
    Mirrors (k.setProc p q) g e := by
  have hs := h.own hp
  rwa [Function.update_eq_self] at hs

theorem sbrk (h : Mirrors k g e) (ht : Tame k p (.sbrk n)) (hlive : (k.proc p).state ≠ .unused) :
    Mirrors (k.procSbrk p n) g (e.step p (.sbrk n)) := by
  rw [Eager.step, Kern.procSbrk]
  by_cases hn : 0 < n.toInt
  · have hle : (k.proc p).heapTop + n.toInt.toNat ≤ PLIC := ht hn
    have hw := wrap64_of_le hle
    rw [if_pos hn, if_pos hn]
    apply h.own
    have hp := h p
    refine ⟨hp.state, hp.parent, fun _ => ?_, hp.table, hp.byte, fun hun v hlo hhi hv => ?_⟩
    · dsimp only
      rw [hp.top hlive]
    · have hin := hp.above hun v hlo hhi hv
      refine ⟨hin.1, ?_⟩
      dsimp only
      rw [hw]
      exact Nat.lt_of_lt_of_le hin.2 (Nat.le_add_right _ _)
  · rw [if_neg hn, if_neg hn]
    exact h

/-- A page of the mapped file is beyond the heap. -/
theorem file_page {v : UPage} (hk : VmInv L k g) (hout : ¬ (k.proc p).Heap v)
    (hin : (k.proc p).Ranges v) : 256 ≤ v.val := by
  obtain ⟨hne, hle, _⟩ := hin.resolve_left hout
  have hbase := (hk.linked p).mmap.resolve_left hne
  rw [hbase.1] at hle
  simp only [MMAPBASE, PGSIZE] at hle
  omega

theorem fork (h : Mirrors k g e) (hrun : (k.proc p).state = .runnable) (hpc : p ≠ c)
    (st : SlotStep (Pair p c) k.phys g k'.phys g') (hf : Forked k g p c k' g')
    (hroom : k'.phys.failed = false) :
    Mirrors k' g' (Function.update e c ⟨.runnable, some p, (e p).heapTop, (e p).heap⟩) := by
  obtain ⟨pt, us, f, hproc⟩ := hf.proc
  intro q
  by_cases hqc : q = c
  · subst hqc
    rw [Function.update_self]
    exact (h p).fork hrun hf hroom
  · rw [Function.update_of_ne hqc, Kern.update_other hproc q hqc]
    by_cases hqp : q = p
    · subst hqp
      exact (h q).same (fun u _ => hf.tgt _) fun u n _ hn => hf.mem u n hn
    · exact (h q).frame st fun he => he.elim hqp hqc

/-- The machines take the same steps. -/
theorem step (h : Mirrors k g e) (hk : VmInv L k g) (ht : Tame k p a)
    (hs : k.step L p a = some k') (hroom : k'.phys.failed = false)
    (hm : Move k g p k' g' a) : Mirrors k' g' (e.step p a) := by
  have hrun := (Kern.step_live hs).1
  have hlive : (k.proc p).state ≠ .unused := runnable_ne_unused hrun
  cases hm with
  | store st hr hg he =>
    rename_i va n b
    subst hg
    have hp := (h p).store hk hr (Kern.step_store hs) hlive b
    subst he
    refine h.one st (fun _ _ => rfl) (fun q hq => ?_) ?_
    · rw [Eager.step]
      split
      · exact Function.update_of_ne hq _ _
      · rfl
    · rw [Eager.step]
      split
      · rename_i hin
        rw [if_pos hin] at hp
        rw [Function.update_self]
        exact hp
      · rename_i hin
        rw [if_neg hin] at hp
        exact hp
  | sbrk hg he =>
    subst hg he
    exact h.sbrk ht hlive
  | mmap hg he =>
    rename_i file
    subst hg he
    cases file with
    | none => exact h
    | some f => exact h.own_idle ((h p).congr rfl rfl rfl rfl)
  | exit hg he =>
    subst hg he
    have hp := h p
    refine h.own ⟨rfl, hp.parent, fun _ => hp.top hlive, fun _ => hp.table hlive,
      fun _ => hp.byte hlive, fun _ => hp.above hlive⟩
  | waitNone hc hg he =>
    subst hg he
    rw [Eager.step, h.zombieChild, hc]
    exact h
  | forkFull hc hg he =>
    subst hg he
    rw [Eager.step, h.freeSlot, hc]
    exact h
  | quiet st hlost ha hproc hsame =>
    have hstep : e.step p a = e := by
      rcases ha with ⟨va, w, data, rfl⟩ | rfl | rfl <;> rfl
    rw [hstep]
    exact h.idle st hproc ((h p).same (fun u _ => (hsame u).tgt) fun u n _ hn => (hsame u).mem n hn)
  | fillHeap st hlost hproc v hv hin hfill =>
    exact h.idle st (idle_proc hproc) ((h p).fill hk hin hfill)
  | fillFile st hlost hproc v hv hout hin hfill =>
    have hfar := file_page hk hout hin
    refine h.idle st (idle_proc hproc) ?_
    rcases hfill with ⟨_, hsame⟩ | ⟨_, hsame, _⟩
    · exact (h p).same (fun u _ => (hsame u).tgt) fun u n _ hn => (hsame u).mem n hn
    · exact (h p).put hsame (fun _ hhi => absurd hhi (Nat.not_lt.2 hfar))
        fun _ hhi => absurd hhi (Nat.not_lt.2 hfar)
  | cowMap st hlost hproc v hu hold hlf hsame hnew hdata hlf' =>
    exact h.idle st hproc ((h p).copy hold hsame hnew hdata)
  | fork c hc hpc st hf =>
    rw [Eager.step, h.freeSlot, hc]
    exact h.fork hrun hpc st hf hroom
  | exec st hl he =>
    rw [Eager.step, if_pos hl]
    refine h.one st (Kern.update_other he.proc) (fun q hq => Function.update_of_ne hq _ _) ?_
    rw [Function.update_self]
    exact (h p).exec he
  | execFail st hl hproc hlost hsame =>
    rename_i file
    have hstep : e.step p (.exec file) = e := by
      cases file with
      | none => rfl
      | some img =>
        rw [Eager.step, hl img rfl]
        exact if_neg Bool.false_ne_true
    rw [hstep]
    exact h.idle st (idle_proc hproc)
      ((h p).same (fun u _ => (hsame u).tgt) fun u n _ hn => (hsame u).mem n hn)
  | reap c hc st hnone hlost he =>
    subst he
    rw [Eager.step, h.zombieChild, hc]
    refine h.one st (fun q hq => ?_) (fun q hq => Function.update_of_ne hq _ _) ?_
    · rw [Kern.setProc_of_ne _ _ hq]
      exact Kern.setProc_of_ne _ _ hq
    · rw [Kern.setProc_self]
      dsimp only
      rw [Function.update_self]
      exact ⟨rfl, rfl, fun hun => absurd rfl hun, fun hun => absurd rfl hun,
        fun hun => absurd rfl hun, fun hun => absurd rfl hun⟩

end Mirrors

theorem Mirrors.boot {L : Layout} {k : Kern} {g : Ghost} (hb : Kern.boot L m drivers init = some k)
    (hroom : k.phys.failed = false) (hnone : ∀ q v, g.tgt (q, .leaf v) = none) :
    Mirrors k g .boot := by
  obtain ⟨pt, code, us, ks, hproc, hpt⟩ := Kern.boot_proc hb
  intro p
  rw [hproc, Eager.boot]
  by_cases hp : p = .shell
  · rw [hp, Function.update_self, Function.update_self]
    refine ⟨rfl, rfl, fun _ => rfl, fun _ => hpt hroom, fun _ v _ _ i _ => ?_,
      fun _ v _ _ hv => absurd (hnone _ v) hv⟩
    rw [hnone]
    rfl
  · rw [Function.update_of_ne hp, Function.update_of_ne hp]
    exact ⟨rfl, rfl, fun hun => absurd rfl hun, fun hun => absurd rfl hun,
      fun hun => absurd rfl hun, fun hun => absurd rfl hun⟩

namespace Paired
variable {L : Layout} {k : Kern} {e : Eager}

theorem low {ok : Kern → Slot → Kern.Act → Prop} (h : Paired L ok k e) (q : Slot) :
    (k.proc q).heapTop ≤ MMAPBASE := by
  cases h with
  | boot hi hb hroom =>
    obtain ⟨pt, code, us, ks, hproc, _⟩ := Kern.boot_proc hb
    rw [hproc]
    by_cases hq : q = .shell
    · rw [hq, Function.update_self]
      change HEAPBASE ≤ MMAPBASE
      decide
    · rw [Function.update_of_ne hq]
      decide
  | step _ _ _ hlow _ => exact hlow q

/-- In tame steps the machines stay alike. -/
theorem mirrors (h : Paired L Tame k e) : ∃ g, VmInv L k g ∧ Mirrors k g e := by
  induction h with
  | boot hi hb hroom =>
    obtain ⟨g, hg, hnone⟩ := VmInv.boot hi hb
    exact ⟨g, hg, .boot hb hroom hnone⟩
  | step h hok hs hlow hroom ih =>
    obtain ⟨g, hg, hm⟩ := ih
    obtain ⟨g', hg', hmv⟩ := hg.move hok hs
    exact ⟨g', hg', hm.step hg hok hs hroom hmv⟩

end Paired

/-- What a process sees of its heap. -/
theorem VmInv.heapByte {L : Layout} {v : UPage} (h : VmInv L k g) (hpt : (k.proc p).pagetable ≠ 0)
    (hlo : 16 ≤ v.val) (hi : i < PGSIZE) :
    k.heapByte p (v * PGSIZE + i) = pageByte k.phys.mem (g.tgt (p, .leaf v)) i := by
  rw [Kern.heapByte, h.userLoad_leaf hpt hlo hi]
  cases g.tgt (p, .leaf v) with
  | none => rfl
  | some n => rfl

/-- Copy-on-write refines copying at once, in every run of tame steps. -/
theorem heaps_agree (h : Paired L Tame k e) : HeapsAgree k e := by
  obtain ⟨g, hg, hm⟩ := h.mirrors
  intro p va hlive hlo hhi
  have htop := Nat.lt_of_lt_of_le hhi (h.low p)
  have hpage : va / PGSIZE < 256 := by
    simp only [MMAPBASE, PGSIZE] at htop ⊢
    omega
  have h16 : 16 ≤ va / PGSIZE := by
    simp only [HEAPBASE, PGSIZE] at hlo ⊢
    omega
  obtain ⟨v, hv⟩ : ∃ v : UPage, v.val = va / PGSIZE := ⟨⟨va / PGSIZE, by omega⟩, rfl⟩
  have hva : va = v * PGSIZE + va % PGSIZE := by
    rw [hv]
    exact (Nat.div_add_mod' va PGSIZE).symm
  have hi : va % PGSIZE < PGSIZE := Nat.mod_lt _ (by decide)
  rw [hva, hg.heapByte ((hm p).table hlive) (by omega) hi]
  exact ((hm p).byte hlive v (by omega) (by omega) _ hi).symm

theorem Paired.mono {ok ok' : Kern → Slot → Kern.Act → Prop} (h : Paired L ok k e)
    (hok : ∀ k p a, ok k p a → ok' k p a) : Paired L ok' k e := by
  induction h with
  | boot hi hb hroom => exact .boot hi hb hroom
  | step _ ha hs hlow hroom ih => exact ih.step (hok _ _ _ ha) hs hlow hroom

/-- The first page of the heap. -/
def heapPage : UPage := ⟨16, by decide⟩

/-- The shell grows its heap by a page, and loads from it. -/
theorem paired_heap : ∃ k e g n, Paired smallKernel Tame k e ∧ VmInv smallKernel k g ∧
    k.Runs .shell ∧ g.tgt (.shell, .leaf heapPage) = some n ∧
    g.lf .shell heapPage = mkPte n 23 ∧ k.phys.mem n = Page.zero ∧
    (k.proc .shell).heapTop = HEAPBASE + PGSIZE ∧ 20000 < k.phys.freecnt := by
  obtain ⟨k₀, pt, code, us, ks, hb, hst, hcnt⟩ := smallKernel_boot
  have hpair₀ : Paired smallKernel Tame k₀ .boot := .boot spinElf_fits hb hst.failed
  obtain ⟨g₀, h₀, hnone⟩ := VmInv.boot spinElf_fits hb
  have htame : Tame k₀ .shell (.sbrk 4096) := by
    intro _
    rw [hst.top]
    decide
  have hproc : (k₀.procSbrk .shell 4096).proc .shell =
      { k₀.proc .shell with heapTop := HEAPBASE + PGSIZE } := by
    rw [Kern.procSbrk, if_pos (by decide), Kern.setProc_self, hst.top]
    rfl
  have hphys : (k₀.procSbrk .shell 4096).phys = k₀.phys := by
    rw [Kern.procSbrk, if_pos (by decide), Kern.setProc_phys]
  have hlow (q : Slot) : ((k₀.procSbrk .shell 4096).proc q).heapTop ≤ MMAPBASE := by
    by_cases hq : q = .shell
    · rw [hq, hproc]
      change HEAPBASE + PGSIZE ≤ MMAPBASE
      decide
    · rw [k₀.procSbrk_other _ hq]
      exact hpair₀.low q
  have hpair₁ := hpair₀.step htame (hst.runs.step_sbrk smallKernel 4096) hlow (by
    rw [hphys]
    exact hst.failed)
  have h₁ := h₀.sbrk hst.runs.run htame
  have hruns₁ : (k₀.procSbrk .shell 4096).Runs .shell :=
    hst.runs.congr (by rw [hproc]) (by rw [hproc]) (by rw [hproc])
  have hheap : ((k₀.procSbrk .shell 4096).proc .shell).Heap heapPage := by
    refine ⟨Nat.le_refl 16, ?_⟩
    rw [hproc]
    change 16 * PGSIZE < HEAPBASE + PGSIZE
    decide
  obtain ⟨g₂, n, h₂, _, _, hproc₂, hcnt₂, hfail₂, ht, hent, hdata⟩ := h₁.touchNew hruns₁
    (Nat.le_refl 16) (hnone _ _) (by
      rw [hphys]
      omega) (.inr rfl) (Kern.procPagefault_heap hheap Page.zero)
  rw [hphys] at hcnt₂ hfail₂
  have hpair₂ := hpair₁.step (a := .fault (heapPage * PGSIZE) false Page.zero) trivial
    (hruns₁.step_fault smallKernel _ false Page.zero) (fun q => by
      rw [hproc₂]
      exact hlow q) (hfail₂.trans hst.failed)
  refine ⟨_, _, g₂, n, hpair₂, h₂, hruns₁.of_proc hproc₂, ht, hent, hdata, ?_, by omega⟩
  rw [hproc₂, hproc]

theorem heaps_agree_heap : ∃ k e, Paired smallKernel Tame k e ∧
    (k.proc .shell).heapTop = HEAPBASE + PGSIZE ∧ HeapsAgree k e := by
  obtain ⟨k, e, g, n, hp, _, _, _, _, _, htop, _⟩ := paired_heap
  exact ⟨k, e, hp, htop, heaps_agree hp⟩

theorem Paired.room {ok : Kern → Slot → Kern.Act → Prop} (h : Paired L ok k e) :
    k.phys.failed = false := by
  cases h with
  | boot _ _ hroom => exact hroom
  | step _ _ _ _ hroom => exact hroom

/-- A failed `exec` of a file with an unchecked segment has changed the heap. -/
theorem exec_changes_heap : ∃ k e, Paired smallKernel (fun _ _ _ => True) k e ∧ ¬ HeapsAgree k e := by
  obtain ⟨k, e, g, page, hp, h, hrun, ht, hent, hdata, htop, hcnt⟩ := paired_heap
  have hz : k.phys.kalloc.1 ≠ 0 := h.vm.alloc.kalloc_room (by omega)
  have hfree := h.vm.alloc.kalloc_free hz
  have hlt := h.vm.alloc.kalloc_lt hz
  rw [k.phys.kalloc_fst] at hz hfree hlt
  have hpage : page < PHYSTOP := (h.vm.alloc.bal.target _ page ht).2
  have hne : page ≠ k.phys.freelist := fun he => h.vm.alloc.bal.not_free ht (he ▸ hfree)
  obtain ⟨m, hm, hexec⟩ := k.procExec_poke .shell hz hlt hpage 1
  generalize hk' : k.setPhys _ = k' at hexec
  have hproc : k'.proc = k.proc := by
    rw [← hk']
    rfl
  have hfail : k'.phys.failed = k.phys.failed := by
    rw [← hk']
    rfl
  have hmem (j : Nat) (hj : j ≠ k.phys.freelist) : k'.phys.mem j = m j := by
    rw [← hk']
    exact Mem.setWord_of_ne _ hj
  have hp' : Paired smallKernel (fun _ _ _ => True) k e := hp.mono fun _ _ _ _ => trivial
  have hpair := hp'.step trivial (hrun.step_exec smallKernel hexec) (fun q => by
    rw [hproc]
    exact hp.low q) (hfail.trans hp.room)
  refine ⟨k', _, hpair, fun hagree => ?_⟩
  have hloads : (pokeElf (pageDist k.phys.freelist page) 1).loads = false := by
    obtain ⟨_, hl, _⟩ := loadElf_poke hlt hpage 1 k.phys.mem
    rw [← loadElf_fst _ k.phys.freelist k.phys.mem, hl]
  have hidle : e.step .shell (.exec (some (pokeElf (pageDist k.phys.freelist page) 1))) = e := by
    rw [Eager.step, hloads]
    exact if_neg Bool.false_ne_true
  rw [hidle] at hagree
  have hlive : (k.proc .shell).state ≠ .unused := runnable_ne_unused hrun.run
  have hin : HEAPBASE < (k.proc .shell).heapTop := by
    rw [htop]
    decide
  -- the other machine, and this one before the call
  have hbefore : (e .shell).heap HEAPBASE = 0 := by
    rw [← heaps_agree hp .shell HEAPBASE hlive (Nat.le_refl _) hin]
    have hb := h.heapByte (v := heapPage) (i := 0) hrun.table (Nat.le_refl 16) (by decide)
    rw [ht, pageByte, hdata] at hb
    exact hb
  have hpte : k'.pte .shell HEAPBASE = mkPte page 23 := by
    have hholds : Holds k'.phys.mem (fun x => g.tgt (nd .shell x)) (g.lf .shell) := by
      refine (h.vm.slot .shell).holds.congr fun x j hj => ?_
      have hjf : j ≠ k.phys.freelist := fun he => h.vm.alloc.bal.not_free hj (he ▸ hfree)
      have hjp : j ≠ page := fun he => h.vm.leaf_not_node ht x (he ▸ hj)
      rw [hmem j hjf, hm.1 j hjp, Mem.setPage_of_ne _ _ hjf]
    have hroot : g.tgt (nd .shell .root) = some (k'.proc .shell).pagetable := by
      rw [hproc]
      exact h.root hrun.table
    rw [Kern.pte_holds hholds hroot]
    exact hent
  have hafter : k'.heapByte .shell HEAPBASE = 1 := by
    rw [Kern.heapByte, Kern.userLoad, Kern.translate_mkPte (by decide) hpte (by decide) (by decide)
      (by decide) (by decide) (by decide), Option.map_some, Option.getD_some, hmem page hne]
    exact hm.2 0
  have heq := hagree .shell HEAPBASE (hproc ▸ hlive) (Nat.le_refl _) (hproc ▸ hin)
  rw [hafter, hbefore] at heq
  cases heq

end KernelHobby
