import KernelHobby.Vm

namespace KernelHobby
set_option autoImplicit true

def PT_LOAD : Nat := 1

/-- The file as it lies in `elfbuf`, with the kernel memory behind it. -/
abbrev ElfImage := Nat → UInt8

/-- Addresses are 64 bits wide. -/
def wrap64 (n : Nat) : Nat := n % 2 ^ 64

theorem wrap64_of_lt (h : n < 2 ^ 64) : wrap64 n = n := by
  rw [wrap64, Nat.mod_eq_of_lt h]

theorem wrap64_of_le (h : n ≤ PLIC) : wrap64 n = n :=
  wrap64_of_lt (Nat.lt_of_le_of_lt h (by decide))

def copyb (img : ElfImage) : Nat → Mem → Nat → Nat → Mem
  | 0, m, _, _ => m
  | n + 1, m, d, s => copyb img n (m.poke d (img s)) (wrap64 (d + 1)) (wrap64 (s + 1))

namespace ElfImage

def magic (img : ElfImage) : Bool :=
  img 0 = 0x7f && img 1 = 0x45 && img 2 = 0x4c && img 3 = 0x46

def entry (img : ElfImage) : Nat := leGet img 24 8

def phoff (img : ElfImage) : Nat := leGet img 32 8

def phentsize (img : ElfImage) : Nat := leGet img 54 2

def phnum (img : ElfImage) : Nat := leGet img 56 2

/-- Where the `i`-th program header starts. -/
def phdr (img : ElfImage) (i : Nat) : Nat := wrap64 (img.phoff + i * img.phentsize)

def pType (img : ElfImage) (i : Nat) : Nat := leGet img (img.phdr i) 4

def pOffset (img : ElfImage) (i : Nat) : Nat := leGet img (img.phdr i + 8) 8

def pVaddr (img : ElfImage) (i : Nat) : Nat := leGet img (img.phdr i + 16) 8

def pFilesz (img : ElfImage) (i : Nat) : Nat := leGet img (img.phdr i + 32) 8

def pMemsz (img : ElfImage) (i : Nat) : Nat := leGet img (img.phdr i + 40) 8

/-- The offset of a segment in the code page, as `uint64` arithmetic has it. -/
def segOff (img : ElfImage) (i : Nat) : Nat := wrap64 (img.pVaddr i + 2 ^ 64 - USERVA)

end ElfImage

/-- The loop of `load_elf`, with `k` headers from the `i`-th on. -/
def loadSegs (img : ElfImage) (code : Nat) : Nat → Nat → Mem → Bool × Mem
  | 0, _, m => (true, m)
  | k + 1, i, m =>
    if img.pType i ≠ PT_LOAD then loadSegs img code k (i + 1) m
    else if wrap64 (img.segOff i + img.pMemsz i) > PGSIZE then (false, m)
    else loadSegs img code k (i + 1)
      (copyb img (img.pFilesz i) m (wrap64 (code * PGSIZE + img.segOff i)) (img.pOffset i))

/-- `load_elf` into page `code`: whether it succeeds, and what memory has then. -/
def loadElf (img : ElfImage) (code : Nat) (m : Mem) : Bool × Mem :=
  if img.magic then loadSegs img code img.phnum 0 m else (false, m)

/-- Every segment that is copied lies inside the code page. -/
def ElfImage.Fits (img : ElfImage) : Prop :=
  ∀ i, i < img.phnum → img.pType i = PT_LOAD → wrap64 (img.segOff i + img.pMemsz i) ≤ PGSIZE →
    img.segOff i + img.pFilesz i ≤ PGSIZE

/-- An address in a page of memory does not wrap around. -/
theorem wrap64_page (h : off ≤ PGSIZE) (hp : p < PHYSTOP) :
    wrap64 (p * PGSIZE + off) = p * PGSIZE + off := by
  apply wrap64_of_lt
  simp only [PGSIZE, PHYSTOP] at h hp ⊢
  omega

theorem page_div (p : Nat) (h : off < PGSIZE) : (p * PGSIZE + off) / PGSIZE = p := by
  simp only [PGSIZE] at h ⊢
  omega

theorem page_mod (p : Nat) (h : off < PGSIZE) : (p * PGSIZE + off) % PGSIZE = off := by
  simp only [PGSIZE] at h ⊢
  omega

theorem poke_of_ne (m : Mem) (h : k ≠ a / PGSIZE) : m.poke a b k = m k := m.setPage_of_ne _ h

/-- A copy inside a page changes no other page. -/
theorem copyb_other (img : ElfImage) (h : off + n ≤ PGSIZE) (hp : p < PHYSTOP) (hk : k ≠ p) :
    copyb img n m (p * PGSIZE + off) src k = m k := by
  induction n generalizing m off src with
  | zero => rfl
  | succ n ih =>
    rw [copyb, Nat.add_assoc, wrap64_page (by omega) hp, ih (by omega)]
    refine poke_of_ne m ?_
    rw [page_div p (by omega)]
    exact hk

theorem loadSegs_other (img : ElfImage) (hp : p < PHYSTOP) (hk : k ≠ p)
    (hfit : ∀ j, i ≤ j → j < i + n → img.pType j = PT_LOAD →
      wrap64 (img.segOff j + img.pMemsz j) ≤ PGSIZE → img.segOff j + img.pFilesz j ≤ PGSIZE) :
    (loadSegs img p n i m).2 k = m k := by
  induction n generalizing i m with
  | zero => rfl
  | succ n ih =>
    have hrest (m : Mem) : (loadSegs img p n (i + 1) m).2 k = m k :=
      ih fun j hj hj' => hfit j (by omega) (by omega)
    rw [loadSegs]
    split
    · exact hrest m
    · rename_i ht
      split
      · rfl
      · rename_i hm
        have hin := hfit i (Nat.le_refl i) (by omega) (not_not.1 ht) (Nat.not_lt.1 hm)
        rw [hrest, wrap64_page (Nat.le_of_add_right_le hin) hp]
        exact copyb_other img hin hp hk

/-- An image that fits is loaded into the code page alone. -/
theorem loadElf_other (img : ElfImage) (h : img.Fits) (hp : p < PHYSTOP) (hk : k ≠ p) :
    (loadElf img p m).2 k = m k := by
  rw [loadElf]
  split
  · exact loadSegs_other img hp hk fun j _ hj => h j (by omega)
  · rfl

/-- The checks of `load_elf`, for `k` headers from the `i`-th on. -/
def ElfImage.segsOk (img : ElfImage) : Nat → Nat → Bool
  | 0, _ => true
  | k + 1, i =>
    (img.pType i ≠ PT_LOAD || wrap64 (img.segOff i + img.pMemsz i) ≤ PGSIZE) && img.segsOk k (i + 1)

/-- Whether `load_elf` takes a file. -/
def ElfImage.loads (img : ElfImage) : Bool := img.magic && img.segsOk img.phnum 0

theorem loadSegs_fst (img : ElfImage) (code k i : Nat) (m : Mem) :
    (loadSegs img code k i m).1 = img.segsOk k i := by
  induction k generalizing i m with
  | zero => rfl
  | succ k ih =>
    rw [loadSegs, ElfImage.segsOk]
    split
    · rename_i ht
      rw [ih]
      simp [ht]
    · rename_i ht
      split
      · rename_i hm
        have hle : ¬ wrap64 (img.segOff i + img.pMemsz i) ≤ PGSIZE := Nat.not_le.2 hm
        simp [ht, hle]
      · rename_i hm
        have hle : wrap64 (img.segOff i + img.pMemsz i) ≤ PGSIZE := Nat.not_lt.1 hm
        rw [ih]
        simp [hle]

theorem loadElf_fst (img : ElfImage) (code : Nat) (m : Mem) :
    (loadElf img code m).1 = img.loads := by
  rw [loadElf, ElfImage.loads]
  split
  · rename_i hm
    rw [loadSegs_fst, hm, Bool.true_and]
  · rename_i hm
    rw [Bool.eq_false_iff.2 hm, Bool.false_and]

end KernelHobby
