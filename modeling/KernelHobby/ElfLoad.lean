import KernelHobby.Elf

namespace KernelHobby
set_option autoImplicit true

/-- A copy inside a page, byte by byte. -/
theorem copyb_page (img : ElfImage) (h : off + n ≤ PGSIZE) (hp : p < PHYSTOP)
    (hsrc : src + n ≤ 2 ^ 64) (j : Nat) :
    copyb img n m (p * PGSIZE + off) src p j =
      if off ≤ j ∧ j < off + n then img (src + (j - off)) else m p j := by
  induction n generalizing m off src with
  | zero => rw [copyb, if_neg (by omega)]
  | succ n ih =>
    have hd : (p * PGSIZE + off) / PGSIZE = p := page_div p (by omega)
    have hm : (p * PGSIZE + off) % PGSIZE = off := page_mod p (by omega)
    rw [copyb, Nat.add_assoc, wrap64_page (by omega) hp]
    cases n with
    | zero =>
      rw [copyb, Mem.poke, hd, hm, Mem.setPage_self]
      by_cases hj : j = off
      · subst hj
        rw [Function.update_self, if_pos (by omega), Nat.sub_self, Nat.add_zero]
      · rw [Function.update_of_ne hj, if_neg (by omega)]
    | succ n =>
      have hws : wrap64 (src + 1) = src + 1 := wrap64_of_lt (by omega)
      rw [hws, ih (by omega) (by omega), Mem.poke, hd, hm, Mem.setPage_self]
      by_cases hj : j = off
      · subst hj
        rw [if_neg (by omega), Function.update_self, if_pos (by omega), Nat.sub_self,
          Nat.add_zero]
      · rw [Function.update_of_ne hj]
        by_cases hin : off + 1 ≤ j ∧ j < off + 1 + (n + 1)
        · rw [if_pos hin, if_pos (by omega)]
          congr 1
          omega
        · rw [if_neg hin, if_neg (by omega)]

namespace ElfImage

/-- The check of `load_elf` accepts the segment. -/
def Accepts (img : ElfImage) (i : Nat) : Prop := wrap64 (img.segOff i + img.pMemsz i) ≤ PGSIZE

instance : Decidable (Accepts img i) := inferInstanceAs (Decidable (_ ≤ _))

/-- The file part of segment `i` has a byte for offset `j` of the code page. -/
def Covers (img : ElfImage) (i j : Nat) : Prop :=
  img.pType i = PT_LOAD ∧ img.pVaddr i ≤ USERVA + j ∧ USERVA + j < img.pVaddr i + img.pFilesz i

/-- The byte of segment `i` for offset `j` of the code page. -/
def segByte (img : ElfImage) (i j : Nat) : UInt8 :=
  img (img.pOffset i + (USERVA + j - img.pVaddr i))

/-- A loadable segment whose file part lies in the file and which lies in the code page. -/
structure SegValid (img : ElfImage) (sz i : Nat) : Prop where
  file : img.pOffset i + img.pFilesz i ≤ sz
  filled : img.pFilesz i ≤ img.pMemsz i
  low : USERVA ≤ img.pVaddr i
  high : img.pVaddr i + img.pMemsz i ≤ USERVA + PGSIZE

/-- An image of `sz` bytes whose headers and segments are where they should be. -/
structure Valid (img : ElfImage) (sz : Nat) : Prop where
  size : sz ≤ 2 ^ 64
  magic : img.magic = true
  headers : ∀ i, i < img.phnum → img.phoff + i * img.phentsize + 56 ≤ sz
  segs : ∀ i, i < img.phnum → img.pType i = PT_LOAD → SegValid img sz i

theorem pVaddr_lt (img : ElfImage) (i : Nat) : img.pVaddr i < 2 ^ 64 := leGet_lt _ _ 8

theorem pOffset_lt (img : ElfImage) (i : Nat) : img.pOffset i < 2 ^ 64 := leGet_lt _ _ 8

/-- The offset of a segment that does not start below the code page. -/
theorem segOff_of_ge (img : ElfImage) (h : USERVA ≤ img.pVaddr i) :
    img.segOff i = img.pVaddr i - USERVA := by
  have hlt := img.pVaddr_lt i
  rw [segOff, wrap64]
  omega

theorem segOff_of_lt (img : ElfImage) (h : img.pVaddr i < USERVA) :
    img.segOff i = img.pVaddr i + 2 ^ 64 - USERVA := by
  have hu : USERVA = 4096 := rfl
  rw [segOff, wrap64]
  omega

theorem SegValid.segOff (h : SegValid img sz i) : img.segOff i = img.pVaddr i - USERVA :=
  img.segOff_of_ge h.low

theorem SegValid.accepts (h : SegValid img sz i) : img.Accepts i := by
  have hlow := h.low
  have hhigh := h.high
  have hpage : PGSIZE = 4096 := rfl
  rw [Accepts, h.segOff, wrap64_of_lt (by omega)]
  omega

end ElfImage

/-- One valid segment copied: its file part, and the page as it was elsewhere. -/
theorem copyb_seg (img : ElfImage) (hs : sz ≤ 2 ^ 64) (h : img.SegValid sz i)
    (ht : img.pType i = PT_LOAD) (hp : p < PHYSTOP) (j : Nat) :
    (img.Covers i j → copyb img (img.pFilesz i) m (wrap64 (p * PGSIZE + img.segOff i))
        (img.pOffset i) p j = img.segByte i j) ∧
      (¬ img.Covers i j → copyb img (img.pFilesz i) m (wrap64 (p * PGSIZE + img.segOff i))
        (img.pOffset i) p j = m p j) := by
  have hlow := h.low
  have hhigh := h.high
  have hfill := h.filled
  have hfile := h.file
  have hw : wrap64 (p * PGSIZE + img.segOff i) = p * PGSIZE + img.segOff i := by
    rw [h.segOff]
    exact wrap64_page (by omega) hp
  rw [hw, copyb_page img (by rw [h.segOff]; omega) hp (by omega), h.segOff]
  constructor
  · rintro ⟨_, h₁, h₂⟩
    have hj : j - (img.pVaddr i - USERVA) = USERVA + j - img.pVaddr i := by omega
    rw [if_pos (by omega), ElfImage.segByte, hj]
  · intro hc
    rw [if_neg]
    intro hj
    exact hc ⟨ht, by omega, by omega⟩

/-- The loop over valid headers: the last segment that covers a byte decides it. -/
theorem loadSegs_valid (img : ElfImage) (hs : sz ≤ 2 ^ 64) (hp : p < PHYSTOP)
    (hv : ∀ c, i ≤ c → c < i + n → img.pType c = PT_LOAD → img.SegValid sz c) :
    (loadSegs img p n i m).1 = true ∧ ∀ j,
      (∀ c, i ≤ c → c < i + n → img.Covers c j → (∀ c', c < c' → c' < i + n → ¬ img.Covers c' j) →
        (loadSegs img p n i m).2 p j = img.segByte c j) ∧
      ((∀ c, i ≤ c → c < i + n → ¬ img.Covers c j) → (loadSegs img p n i m).2 p j = m p j) := by
  induction n generalizing i m with
  | zero =>
    refine ⟨rfl, fun j => ⟨?_, fun _ => rfl⟩⟩
    intro c h₁ h₂
    omega
  | succ n ih =>
    have ih' (m : Mem) := ih (i := i + 1) (m := m) fun c h₁ h₂ => hv c (by omega) (by omega)
    rw [loadSegs]
    by_cases ht : img.pType i = PT_LOAD
    · have hseg := hv i (Nat.le_refl i) (by omega) ht
      have hacc : ¬ wrap64 (img.segOff i + img.pMemsz i) > PGSIZE := Nat.not_lt.2 hseg.accepts
      rw [if_neg (not_not.2 ht), if_neg hacc]
      obtain ⟨h₁, h₂⟩ := ih' (copyb img (img.pFilesz i) m (wrap64 (p * PGSIZE + img.segOff i))
        (img.pOffset i))
      refine ⟨h₁, fun j => ⟨?_, ?_⟩⟩
      · intro c hc hc' hcov hlast
        by_cases he : c = i
        · subst he
          rw [(h₂ j).2 fun c' h h' => hlast c' (by omega) (by omega)]
          exact (copyb_seg img hs hseg ht hp j).1 hcov
        · exact (h₂ j).1 c (by omega) (by omega) hcov fun c' h h' => hlast c' h (by omega)
      · intro hno
        rw [(h₂ j).2 fun c' h h' => hno c' (by omega) (by omega)]
        exact (copyb_seg img hs hseg ht hp j).2 (hno i (Nat.le_refl i) (by omega))
    · have hni (j : Nat) : ¬ img.Covers i j := fun hc => ht hc.1
      rw [if_pos ht]
      obtain ⟨h₁, h₂⟩ := ih' m
      refine ⟨h₁, fun j => ⟨?_, ?_⟩⟩
      · intro c hc hc' hcov hlast
        have hne : c ≠ i := by
          rintro rfl
          exact hni j hcov
        exact (h₂ j).1 c (by omega) (by omega) hcov fun c' h h' => hlast c' h (by omega)
      · intro hno
        exact (h₂ j).2 fun c' h h' => hno c' (by omega) (by omega)

/-- What a run of `load_elf` does: its answer, what it stores at `*entry`, memory afterwards, and
the spans of the image it reads and of the code page it writes. A span is a first index and a
length; indices are 64-bit address arithmetic. -/
structure ElfRun where
  ret : Int
  entry : Option Nat
  mem : Mem
  reads : List (Nat × Nat)
  writes : List (Nat × Nat)

/-- The same run with spans read before it. -/
def ElfRun.read (r : ElfRun) (spans : List (Nat × Nat)) : ElfRun :=
  { r with reads := spans ++ r.reads }

/-- The loop of `load_elf` with all it touches; every test of the loop reads `e_phnum`. -/
def runSegs (img : ElfImage) (code : Nat) : Nat → Nat → Mem → ElfRun
  | 0, _, m => ⟨0, none, m, [(56, 2)], []⟩
  | k + 1, i, m =>
    let hdr := img.phdr i
    let spans := [(56, 2), (32, 8), (54, 2), (hdr, 4)]
    if img.pType i ≠ PT_LOAD then (runSegs img code k (i + 1) m).read spans
    else
      let spans := spans ++ [(hdr + 16, 8), (hdr + 40, 8)]
      if wrap64 (img.segOff i + img.pMemsz i) > PGSIZE then ⟨-1, none, m, spans, []⟩
      else
        let spans := spans ++ [(hdr + 8, 8), (hdr + 32, 8), (img.pOffset i, img.pFilesz i)]
        let r := runSegs img code k (i + 1)
          (copyb img (img.pFilesz i) m (wrap64 (code * PGSIZE + img.segOff i)) (img.pOffset i))
        { r.read spans with writes := (img.segOff i, img.pFilesz i) :: r.writes }

/-- How many bytes of `e_ident` the magic test looks at. -/
def ElfImage.identLen (img : ElfImage) : Nat :=
  if img 0 ≠ 0x7f then 1 else if img 1 ≠ 0x45 then 2 else if img 2 ≠ 0x4c then 3 else 4

def runElf (img : ElfImage) (code : Nat) (m : Mem) : ElfRun :=
  if img.magic then
    { (runSegs img code img.phnum 0 m).read [(0, img.identLen), (24, 8)] with
      entry := some img.entry }
  else ⟨-1, none, m, [(0, img.identLen)], []⟩

theorem runSegs_eq (img : ElfImage) (code k i : Nat) (m : Mem) :
    (runSegs img code k i m).ret = (if (loadSegs img code k i m).1 then 0 else -1) ∧
      (runSegs img code k i m).mem = (loadSegs img code k i m).2 := by
  induction k generalizing i m with
  | zero => exact ⟨rfl, rfl⟩
  | succ k ih =>
    rw [runSegs, loadSegs]
    dsimp only
    split
    · exact ih (i + 1) m
    · split
      · exact ⟨rfl, rfl⟩
      · exact ih (i + 1) _

/-- The run is a run of `load_elf`. -/
theorem runElf_eq (img : ElfImage) (code : Nat) (m : Mem) :
    (runElf img code m).ret = (if (loadElf img code m).1 then 0 else -1) ∧
      (runElf img code m).mem = (loadElf img code m).2 := by
  rw [runElf, loadElf]
  split
  · exact runSegs_eq img code img.phnum 0 m
  · exact ⟨rfl, rfl⟩

/-- `load_elf` of a valid image answers 0, sets the entry, and builds in a zeroed page the bytes
of the last segment that covers each of them. -/
theorem runElf_image (img : ElfImage) (h : img.Valid sz) (hp : code < PHYSTOP)
    (hz : m code = Page.zero) :
    let r := runElf img code m
    r.ret = 0 ∧ r.entry = some img.entry ∧ ∀ j, j < PGSIZE →
      (∀ i, i < img.phnum → img.Covers i j →
        (∀ i', i < i' → i' < img.phnum → ¬ img.Covers i' j) → r.mem code j = img.segByte i j) ∧
      ((∀ i, i < img.phnum → ¬ img.Covers i j) → r.mem code j = 0) := by
  obtain ⟨hret, hmem⟩ := runElf_eq img code m
  obtain ⟨hok, hbytes⟩ := loadSegs_valid (i := 0) (n := img.phnum) (m := m) img h.size hp
    fun c _ hc => h.segs c (by omega)
  rw [loadElf, if_pos h.magic] at hret hmem
  rw [hok, if_pos rfl] at hret
  dsimp only
  refine ⟨hret, ?_, ?_⟩
  · rw [runElf, if_pos h.magic]
  · intro j _
    rw [hmem]
    refine ⟨?_, ?_⟩
    · intro i hi hcov hlast
      exact (hbytes j).1 i (Nat.zero_le i) (by omega) hcov fun i' h₁ h₂ => hlast i' h₁ (by omega)
    · intro hno
      rw [(hbytes j).2 fun i _ hi => hno i (by omega), hz]
      rfl

/-- A file with one loadable segment at `USERVA`, from the start of the file: `file` and `rest`
are the low two bytes of `p_filesz`, `bss` the low byte of `p_memsz`. -/
def tinyElf (file rest bss : UInt8) : ElfImage := fun k =>
  ([(0, 0x7f), (1, 0x45), (2, 0x4c), (3, 0x46), (25, 0x10), (32, 64), (54, 56), (56, 1), (64, 1),
    (81, 0x10), (96, file), (97, rest), (104, bss)].lookup k).getD 0

theorem tinyElf_valid : (tinyElf 16 0 32).Valid 120 where
  size := by decide
  magic := by decide
  headers := by decide
  segs := by
    intro i hi _
    have hn : (tinyElf 16 0 32).phnum = 1 := by decide
    have h₀ : i = 0 := by omega
    subst h₀
    exact ⟨by decide, by decide, by decide, by decide⟩

theorem runElf_image_tinyElf :
    let img := tinyElf 16 0 32
    let r := runElf img 0x80300 fun _ => Page.zero
    img.Valid 120 ∧ 0x80300 < PHYSTOP ∧
      r.ret = 0 ∧ r.entry = some img.entry ∧ ∀ j, j < PGSIZE →
        (∀ i, i < img.phnum → img.Covers i j →
          (∀ i', i < i' → i' < img.phnum → ¬ img.Covers i' j) →
          r.mem 0x80300 j = img.segByte i j) ∧
        ((∀ i, i < img.phnum → ¬ img.Covers i j) → r.mem 0x80300 j = 0) :=
  ⟨tinyElf_valid, by decide, runElf_image (tinyElf 16 0 32) tinyElf_valid (by decide) rfl⟩

end KernelHobby
