import KernelHobby.Bytes

namespace KernelHobby
set_option autoImplicit true

abbrev Word := BitVec 64

inductive Reg where
  | ra | sp | gp | tp
  | t0 | t1 | t2 | t3 | t4 | t5 | t6
  | s0 | s1 | s2 | s3 | s4 | s5 | s6 | s7 | s8 | s9 | s10 | s11
  | a0 | a1 | a2 | a3 | a4 | a5 | a6 | a7
  deriving DecidableEq

inductive Csr where
  | sstatus | sepc | sscratch | satp
  deriving DecidableEq

/-- Memory as the code sees it, by virtual addresses. -/
abbrev VMem := Word → UInt8

/-- The registers of a hart, and memory. -/
structure Rv where
  x : Reg → Word
  csr : Csr → Word
  mem : VMem

def VMem.load (m : VMem) (a : Word) : Word :=
  BitVec.ofNat 64 (leGet (fun i => m (a + BitVec.ofNat 64 i)) 0 8)

def VMem.store (m : VMem) (a v : Word) : VMem := fun b =>
  if (b - a).toNat < 8 then leByte v.toNat (b - a).toNat else m b

inductive Ins where
  | sd (rs : Reg) (off : Nat) (base : Reg)
  | ld (rd : Reg) (off : Nat) (base : Reg)
  | addi (rd rs : Reg) (imm : Int)
  | mv (rd rs : Reg)
  | csrr (rd : Reg) (c : Csr)
  | csrw (c : Csr) (rs : Reg)

namespace Rv

def set (s : Rv) (r : Reg) (v : Word) : Rv := { s with x := Function.update s.x r v }

def setCsr (s : Rv) (c : Csr) (v : Word) : Rv := { s with csr := Function.update s.csr c v }

def exec (s : Rv) : Ins → Rv
  | .sd rs off base => { s with mem := s.mem.store (s.x base + BitVec.ofNat 64 off) (s.x rs) }
  | .ld rd off base => s.set rd (s.mem.load (s.x base + BitVec.ofNat 64 off))
  | .addi rd rs imm => s.set rd (s.x rs + BitVec.ofInt 64 imm)
  | .mv rd rs => s.set rd (s.x rs)
  | .csrr rd c => s.set rd (s.csr c)
  | .csrw c rs => s.setCsr c (s.x rs)

def run (s : Rv) (is : List Ins) : Rv := is.foldl exec s

@[simp] theorem run_nil (s : Rv) : s.run [] = s := rfl

@[simp] theorem run_cons (s : Rv) (i : Ins) (is : List Ins) : s.run (i :: is) = (s.exec i).run is :=
  rfl

theorem run_append (s : Rv) (is js : List Ins) : s.run (is ++ js) = (s.run is).run js :=
  List.foldl_append ..

@[simp] theorem set_self (s : Rv) (r : Reg) (v : Word) : (s.set r v).x r = v :=
  Function.update_self ..

@[simp] theorem setCsr_self (s : Rv) (c : Csr) (v : Word) : (s.setCsr c v).csr c = v :=
  Function.update_self ..

theorem set_of_ne (s : Rv) (v : Word) (h : q ≠ r) : (s.set r v).x q = s.x q :=
  Function.update_of_ne h _ _

@[simp] theorem set_mem (s : Rv) (r : Reg) (v : Word) : (s.set r v).mem = s.mem := rfl

@[simp] theorem set_csr (s : Rv) (r : Reg) (v : Word) : (s.set r v).csr = s.csr := rfl

end Rv

/-- How far an address is from another, when both are near a third one. -/
theorem dist_add (p : Word) (hi : i < 2 ^ 64) (hj : j < 2 ^ 64) :
    (p + BitVec.ofNat 64 i - (p + BitVec.ofNat 64 j)).toNat = (2 ^ 64 + i - j) % 2 ^ 64 := by
  have hlt := p.isLt
  rw [BitVec.toNat_sub, BitVec.toNat_add, BitVec.toNat_add, BitVec.toNat_ofNat, BitVec.toNat_ofNat]
  omega

namespace VMem
variable {m m' : VMem} {a p v : Word}

theorem load_congr (h : ∀ i, i < 8 → m' (a + BitVec.ofNat 64 i) = m (a + BitVec.ofNat 64 i)) :
    m'.load a = m.load a := by
  rw [load, load, leGet_congr fun k hk => ?_]
  rw [Nat.zero_add]
  exact h k hk

theorem load_store_self (m : VMem) (a v : Word) : (m.store a v).load a = v := by
  have hbyte (k : Nat) (hk : k < 8) :
      m.store a v (a + BitVec.ofNat 64 (0 + k)) = leByte v.toNat k := by
    have hd : (a + BitVec.ofNat 64 k - a).toNat = k := by
      have h := dist_add a (i := k) (j := 0) (by omega) (by decide)
      rw [BitVec.add_zero] at h
      rw [h]
      omega
    rw [Nat.zero_add, store, hd, if_pos hk]
  rw [load, leGet_leByte hbyte]
  have hv := v.isLt
  apply BitVec.eq_of_toNat_eq
  rw [BitVec.toNat_ofNat]
  omega

/-- A double word does not reach another one. -/
theorem store_apart (m : VMem) (p v : Word) (hi : i < 2 ^ 32) (ho : o < 2 ^ 32)
    (h : i < o ∨ o + 8 ≤ i) :
    m.store (p + BitVec.ofNat 64 o) v (p + BitVec.ofNat 64 i) = m (p + BitVec.ofNat 64 i) := by
  rw [store, dist_add p (by omega) (by omega), if_neg (by omega)]

/-- Double words stored at offsets from `p`, in order. -/
def storeAll (m : VMem) (p : Word) : List (Nat × Word) → VMem
  | [] => m
  | (o, v) :: ws => (m.store (p + BitVec.ofNat 64 o) v).storeAll p ws

theorem storeAll_append (m : VMem) (p : Word) (ws vs : List (Nat × Word)) :
    m.storeAll p (ws ++ vs) = (m.storeAll p ws).storeAll p vs := by
  induction ws generalizing m with
  | nil => rfl
  | cons w ws ih => exact ih _

/-- Outside of the double words, memory is as it was. -/
theorem storeAll_other (m : VMem) {b : Word}
    (h : ∀ w ∈ ws, 8 ≤ (b - (p + BitVec.ofNat 64 w.1)).toNat) : m.storeAll p ws b = m b := by
  induction ws generalizing m with
  | nil => rfl
  | cons w ws ih =>
    rw [List.forall_mem_cons] at h
    rw [storeAll, ih _ h.2, store, if_neg (Nat.not_lt.2 h.1)]

end VMem

/-- Double words one after the other, inside of `n` bytes. -/
structure Apart (n : Nat) (os : List Nat) : Prop where
  order : os.Pairwise fun a b => a + 8 ≤ b
  inside : ∀ o ∈ os, o + 8 ≤ n
  small : n ≤ 2 ^ 32

namespace Apart

theorem tail (h : Apart n (o :: os)) : Apart n os where
  order := (List.pairwise_cons.1 h.order).2
  inside o' ho' := h.inside o' (List.mem_cons_of_mem _ ho')
  small := h.small

/-- What is stored in one of the double words is loaded from it. -/
theorem load_storeAll {ws : List (Nat × Word)} (h : Apart n (ws.map Prod.fst)) (m : VMem)
    (hw : (o, v) ∈ ws) : (m.storeAll p ws).load (p + BitVec.ofNat 64 o) = v := by
  induction ws generalizing m with
  | nil => cases hw
  | cons w ws ih =>
    obtain ⟨o', v'⟩ := w
    rw [VMem.storeAll]
    rcases List.mem_cons.1 hw with he | hw
    · cases he
      have hlt := h.inside o List.mem_cons_self
      have hn := h.small
      have hkeep : ((m.store (p + BitVec.ofNat 64 o) v).storeAll p ws).load
          (p + BitVec.ofNat 64 o) = (m.store (p + BitVec.ofNat 64 o) v).load
            (p + BitVec.ofNat 64 o) := by
        apply VMem.load_congr
        intro i hi
        apply VMem.storeAll_other
        intro w hw
        have hmem : w.1 ∈ ws.map Prod.fst := List.mem_map_of_mem hw
        have hle := (List.pairwise_cons.1 h.order).1 w.1 hmem
        have hin := h.inside w.1 (List.mem_cons_of_mem _ hmem)
        rw [BitVec.add_assoc, BitVec.ofNat_add_ofNat, dist_add p (by omega) (by omega)]
        omega
      rw [hkeep, VMem.load_store_self]
    · exact ih h.tail _ hw

/-- Memory outside of the `n` bytes. -/
theorem storeAll_outside {ws : List (Nat × Word)} (h : Apart n (ws.map Prod.fst)) (m : VMem)
    {b : Word} (hb : n ≤ (b - p).toNat) : m.storeAll p ws b = m b := by
  apply VMem.storeAll_other
  intro w hw
  have hin := h.inside w.1 (List.mem_map_of_mem hw)
  have hn := h.small
  have hlt := (b - p).isLt
  have he : b - (p + BitVec.ofNat 64 w.1) = b - p - BitVec.ofNat 64 w.1 := by
    rw [BitVec.sub_sub]
  rw [he, BitVec.toNat_sub, BitVec.toNat_ofNat]
  omega

end Apart

/-- Stores of registers at offsets from `base`. -/
def saves (base : Reg) (rs : List (Reg × Nat)) : List Ins := rs.map fun r => .sd r.1 r.2 base

/-- Loads of registers from offsets from `base`. -/
def loads (base : Reg) (rs : List (Reg × Nat)) : List Ins := rs.map fun r => .ld r.1 r.2 base

namespace Rv

theorem run_saves (s : Rv) (base : Reg) (rs : List (Reg × Nat)) : s.run (saves base rs) =
    { s with mem := s.mem.storeAll (s.x base) (rs.map fun r => (r.2, s.x r.1)) } := by
  induction rs generalizing s with
  | nil => rfl
  | cons r rs ih => exact ih _

/-- A block of loads changes the registers it names only. -/
theorem run_loads (s : Rv) (base : Reg) (rs : List (Reg × Nat))
    (hb : ∀ r ∈ rs, r.1 ≠ base) (hn : (rs.map Prod.fst).Nodup) :
    (s.run (loads base rs)).mem = s.mem ∧ (s.run (loads base rs)).csr = s.csr ∧
      (∀ r ∈ rs, (s.run (loads base rs)).x r.1 = s.mem.load (s.x base + BitVec.ofNat 64 r.2)) ∧
      ∀ q, q ∉ rs.map Prod.fst → (s.run (loads base rs)).x q = s.x q := by
  induction rs generalizing s with
  | nil => exact ⟨rfl, rfl, nofun, fun _ _ => rfl⟩
  | cons r rs ih =>
    rw [List.forall_mem_cons] at hb
    rw [List.map_cons, List.nodup_cons] at hn
    have hbase : (s.exec (.ld r.1 r.2 base)).x base = s.x base := s.set_of_ne _ (Ne.symm hb.1)
    obtain ⟨hmem, hcsr, hin, hout⟩ := ih (s.exec (.ld r.1 r.2 base)) hb.2 hn.2
    rw [hbase] at hin
    refine ⟨hmem, hcsr, ?_, fun q hq => ?_⟩
    · rw [List.forall_mem_cons]
      refine ⟨?_, hin⟩
      exact (hout r.1 hn.1).trans (s.set_self _ _)
    · rw [List.map_cons, List.mem_cons, not_or] at hq
      exact (hout q hq.2).trans (s.set_of_ne _ hq.1)

end Rv

end KernelHobby
