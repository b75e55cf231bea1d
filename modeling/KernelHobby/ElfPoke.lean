import KernelHobby.ElfLoad
import KernelHobby.VmStep

namespace KernelHobby
set_option autoImplicit true

/-- The fixed bytes of a file with two loadable segments; the second is too large. -/
def pokeHead : ElfImage
  | 0 => 0x7f
  | 1 => 0x45
  | 2 => 0x4c
  | 3 => 0x46
  | 32 => 64
  | 54 => 56
  | 56 => 2
  | 64 => 1
  | 72 => 176
  | 96 => 8
  | 120 => 1
  | 137 => 0x10
  | 161 => 0x20
  | _ => 0

/-- A file whose first segment has eight bytes `d` for an address `off` bytes after the start of the
code page, and a size that takes the sum of both around 2^64. -/
def pokeElf (off d : Nat) : ElfImage := fun i =>
  if 80 ≤ i ∧ i < 88 then leByte (USERVA + off) (i - 80)
  else if 104 ≤ i ∧ i < 112 then leByte (2 ^ 64 - off) (i - 104)
  else if 176 ≤ i ∧ i < 184 then leByte d (i - 176)
  else pokeHead i

/-- How far page `t` is from page `code`, in 64 bits. -/
def pageDist (code t : Nat) : Nat := wrap64 (t * PGSIZE + 2 ^ 64 - code * PGSIZE)

namespace ElfImage

theorem pokeElf_head (h : i < 80 ∨ 88 ≤ i ∧ i < 104 ∨ 112 ≤ i ∧ i < 176) :
    pokeElf off d i = pokeHead i := by
  rw [pokeElf, if_neg (by omega), if_neg (by omega), if_neg (by omega)]

/-- The fields that are the same in all such files. -/
theorem pokeElf_fixed (h : a + w ≤ 80 ∨ 88 ≤ a ∧ a + w ≤ 104 ∨ 112 ≤ a ∧ a + w ≤ 176) :
    leGet (pokeElf off d) a w = leGet pokeHead a w := by
  apply leGet_congr
  intro k hk
  apply pokeElf_head
  omega

theorem pokeElf_magic : (pokeElf off d).magic = true := by
  rw [magic, pokeElf_head (by omega), pokeElf_head (by omega), pokeElf_head (by omega),
    pokeElf_head (by omega)]
  decide

theorem pokeElf_phnum : (pokeElf off d).phnum = 2 := by
  rw [phnum, pokeElf_fixed (by omega)]
  decide

theorem pokeElf_phdr : (pokeElf off d).phdr i = wrap64 (64 + i * 56) := by
  have hoff : (pokeElf off d).phoff = 64 := by
    rw [phoff, pokeElf_fixed (by omega)]
    decide
  have hsize : (pokeElf off d).phentsize = 56 := by
    rw [phentsize, pokeElf_fixed (by omega)]
    decide
  rw [phdr, hoff, hsize]

theorem pokeElf_first : (pokeElf off d).phdr 0 = 64 := pokeElf_phdr

theorem pokeElf_second : (pokeElf off d).phdr 1 = 120 := pokeElf_phdr

theorem pokeElf_segOff (hoff : off < 2 ^ 64) : (pokeElf off d).segOff 0 = off := by
  have hva : (pokeElf off d).pVaddr 0 = wrap64 (USERVA + off) := by
    rw [pVaddr, pokeElf_first]
    refine leGet_leByte fun k hk => ?_
    rw [pokeElf, if_pos (by omega), Nat.add_sub_cancel_left]
  rw [segOff, hva]
  simp only [wrap64, USERVA]
  omega

theorem pokeElf_accepts (hoff : off < 2 ^ 64) :
    ¬ wrap64 ((pokeElf off d).segOff 0 + (pokeElf off d).pMemsz 0) > PGSIZE := by
  have hsz : (pokeElf off d).pMemsz 0 = wrap64 (2 ^ 64 - off) := by
    rw [pMemsz, pokeElf_first]
    refine leGet_leByte fun k hk => ?_
    rw [pokeElf, if_neg (by omega), if_pos (by omega), Nat.add_sub_cancel_left]
  rw [pokeElf_segOff hoff, hsz]
  simp only [wrap64, PGSIZE]
  omega

theorem pokeElf_refused :
    wrap64 ((pokeElf off d).segOff 1 + (pokeElf off d).pMemsz 1) > PGSIZE := by
  have hva : (pokeElf off d).pVaddr 1 = 0x1000 := by
    rw [pVaddr, pokeElf_second, pokeElf_fixed (by omega)]
    decide
  have hsz : (pokeElf off d).pMemsz 1 = 0x2000 := by
    rw [pMemsz, pokeElf_second, pokeElf_fixed (by omega)]
    decide
  rw [segOff, hva, hsz]
  decide

theorem pokeElf_type (hi : i = 0 ∨ i = 1) : (pokeElf off d).pType i = PT_LOAD := by
  rcases hi with rfl | rfl
  · rw [pType, pokeElf_first, pokeElf_fixed (by omega)]
    decide
  · rw [pType, pokeElf_second, pokeElf_fixed (by omega)]
    decide

end ElfImage

open ElfImage in
/-- `load_elf` copies the first segment before it refuses the second. -/
theorem loadElf_pokeElf (hoff : off < 2 ^ 64) (code : Nat) (m : Mem) :
    loadElf (pokeElf off d) code m =
      (false, copyb (pokeElf off d) 8 m (wrap64 (code * PGSIZE + off)) 176) := by
  have hfile : (pokeElf off d).pFilesz 0 = 8 := by
    rw [pFilesz, pokeElf_first, pokeElf_fixed (by omega)]
    decide
  have hsrc : (pokeElf off d).pOffset 0 = 176 := by
    rw [pOffset, pokeElf_first, pokeElf_fixed (by omega)]
    decide
  rw [loadElf, if_pos pokeElf_magic, pokeElf_phnum, loadSegs,
    if_neg (not_not.2 (pokeElf_type (.inl rfl))), if_neg (pokeElf_accepts hoff), loadSegs,
    if_neg (not_not.2 (pokeElf_type (.inr rfl))), if_pos pokeElf_refused, hfile, hsrc,
    pokeElf_segOff hoff]

/-- Where the bytes go. -/
theorem pageDist_add (hc : code < PHYSTOP) (ht : t < PHYSTOP) :
    wrap64 (code * PGSIZE + pageDist code t) = t * PGSIZE := by
  simp only [pageDist, wrap64, PGSIZE, PHYSTOP] at hc ht ⊢
  omega

/-- The memory with eight bytes `d` at the start of page `t`. -/
def Poked (m : Mem) (t d : Nat) (m' : Mem) : Prop :=
  (∀ k, k ≠ t → m' k = m k) ∧ ∀ j, m' t j = if j < 8 then leByte d j else m t j

theorem Poked.word (h : Poked m t d m') (hd : d < 2 ^ 64) : (m' t).word 0 = d := by
  rw [Page.word, leGet_leByte (n := d)]
  · exact Nat.mod_eq_of_lt hd
  · intro k hk
    rw [h.2, if_pos (by omega), Nat.mul_zero, Nat.zero_add]

/-- A file that is refused has stored eight bytes at the start of any page. -/
theorem loadElf_poke (hc : code < PHYSTOP) (ht : t < PHYSTOP) (d : Nat) (m : Mem) :
    ∃ m', loadElf (pokeElf (pageDist code t) d) code m = (false, m') ∧ Poked m t d m' := by
  have hlt : pageDist code t < 2 ^ 64 := Nat.mod_lt _ (Nat.two_pow_pos 64)
  refine ⟨copyb (pokeElf (pageDist code t) d) 8 m (t * PGSIZE + 0) 176, ?_, ?_, fun j => ?_⟩
  · rw [Nat.add_zero, ← pageDist_add hc ht]
    exact loadElf_pokeElf hlt code m
  · intro k hk
    exact copyb_other _ (by decide) ht hk
  · rw [copyb_page _ (by decide) ht (by decide)]
    by_cases hj : j < 8
    · rw [if_pos (by omega), if_pos hj, pokeElf, if_neg (by omega), if_neg (by omega),
        if_pos (by omega)]
      have he : 176 + (j - 0) - 176 = j := by omega
      rw [he]
    · rw [if_neg (by omega), if_neg hj]

/-- A file that does not load costs nothing but the copying. -/
theorem Kern.procExec_refused (k : Kern) (p : Slot) (hz : k.phys.freelist ≠ 0)
    (hl : loadElf img k.phys.freelist (k.phys.mem.setPage k.phys.freelist Page.zero) = (false, m)) :
    k.procExec p (some img) = some (k.setPhys ((k.phys.kalloc.2.setMem m).kfree k.phys.kalloc.1)) := by
  rw [← k.phys.kalloc_fst] at hz hl
  rw [← k.phys.kalloc_mem] at hl
  rw [procExec]
  simp only [hz, if_false, hl, Bool.not_false, if_true]

/-- An `exec` that fails has stored eight bytes in any page, and given its own page back. -/
theorem Kern.procExec_poke (k : Kern) (p : Slot) (hz : k.phys.freelist ≠ 0)
    (hn : k.phys.freelist < PHYSTOP) (ht : t < PHYSTOP) (d : Nat) :
    ∃ m, Poked (k.phys.mem.setPage k.phys.freelist Page.zero) t d m ∧
      k.procExec p (some (pokeElf (pageDist k.phys.freelist t) d)) =
        some (k.setPhys { k.phys with
          mem := m.setWord k.phys.freelist 0
            (PGSIZE * ((k.phys.mem k.phys.freelist).word 0 / PGSIZE))
          freecnt := k.phys.freecnt - 1 + 1
          refcnt := Function.update k.phys.refcnt k.phys.freelist 0 }) := by
  obtain ⟨m, hfail, hm⟩ := loadElf_poke hn ht d (k.phys.mem.setPage k.phys.freelist Page.zero)
  refine ⟨m, hm, ?_⟩
  rw [k.procExec_refused p hz hfail, Phys.kfree_kalloc hz]

end KernelHobby
