import KernelHobby.Bytes

namespace KernelHobby
set_option autoImplicit true

def FS_MAGIC : UInt32 := 0x52465332
def BSIZE : Nat := 512
def MAXFILES : Nat := 8
def NAMELEN : Nat := 56
def DIRBLOCK : Nat := 1
def LOGHDR : Nat := 2
def LOGSTART : Nat := 3
def LOGN : Nat := 16
def DATASTART : Nat := LOGSTART + LOGN

/-- A disk block of `BSIZE` bytes. -/
abbrev Block := Fin BSIZE → UInt8

def Block.byte (b : Block) (j : Nat) : UInt8 := if h : j < BSIZE then b ⟨j, h⟩ else 0

def blockOf (f : Nat → UInt8) : Block := fun j => f j

def zeroBlock : Block := blockOf fun _ => 0

@[simp] theorem blockOf_byte (f : Nat → UInt8) (hj : j < BSIZE) : (blockOf f).byte j = f j := by
  simp only [Block.byte, blockOf, hj, ↓reduceDIte]

theorem Block.ext (h : ∀ j, j < BSIZE → a.byte j = b.byte j) : a = (b : Block) := by
  funext j
  have hj := h j j.isLt
  simpa only [Block.byte, j.isLt, ↓reduceDIte] using hj

/-- The unsigned 32-bit field at byte `off` of a block. -/
def Block.u32 (b : Block) (off : Nat) : UInt32 := UInt32.ofNat (leGet b.byte off 4)

theorem u32_of_leByte {x : UInt32} (h : ∀ k, k < 4 → b.byte (off + k) = leByte x.toNat k) :
    Block.u32 b off = x := by
  have hx : x.toNat % 256 ^ 4 = x.toNat := Nat.mod_eq_of_lt x.toNat_lt
  rw [Block.u32, leGet_leByte h, hx, UInt32.ofNat_toNat]

structure FsSuperblock where
  magic : UInt32
  nfiles : UInt32
  nextFree : UInt32
  totalBlocks : UInt32
  deriving DecidableEq

structure FsDirent where
  name : Fin NAMELEN → UInt8
  size : UInt32
  start : UInt32
  deriving DecidableEq

structure FsLoghdr where
  committed : UInt32
  n : UInt32
  blk : Fin LOGN → UInt32
  deriving DecidableEq

def FsDirent.zero : FsDirent := ⟨fun _ => 0, 0, 0⟩

/-- The four bytes of a field, as they lie in memory. -/
def u32Byte (x : UInt32) (k : Nat) : UInt8 := leByte x.toNat k

def FsSuperblock.byte (sb : FsSuperblock) (j : Nat) : UInt8 :=
  if j < 4 then u32Byte sb.magic j
  else if j < 8 then u32Byte sb.nfiles (j - 4)
  else if j < 12 then u32Byte sb.nextFree (j - 8)
  else if j < 16 then u32Byte sb.totalBlocks (j - 12)
  else 0

def FsDirent.byte (e : FsDirent) (j : Nat) : UInt8 :=
  if h : j < NAMELEN then e.name ⟨j, h⟩
  else if j < 60 then u32Byte e.size (j - 56)
  else u32Byte e.start (j - 60)

def FsLoghdr.byte (h : FsLoghdr) (j : Nat) : UInt8 :=
  if j < 4 then u32Byte h.committed j
  else if j < 8 then u32Byte h.n (j - 4)
  else if hj : (j - 8) / 4 < LOGN then u32Byte (h.blk ⟨(j - 8) / 4, hj⟩) ((j - 8) % 4)
  else 0

/-- The byte `j` of the array `dir[]`. -/
def dirByte (dir : Nat → FsDirent) (j : Nat) : UInt8 := (dir (j / 64)).byte (j % 64)

def FsSuperblock.toBlock (sb : FsSuperblock) : Block := blockOf sb.byte

def FsLoghdr.toBlock (h : FsLoghdr) : Block := blockOf h.byte

def dirBlock (dir : Nat → FsDirent) : Block := blockOf (dirByte dir)

def FsSuperblock.ofBlock (b : Block) : FsSuperblock :=
  ⟨b.u32 0, b.u32 4, b.u32 8, b.u32 12⟩

def FsDirent.ofBlock (b : Block) (i : Nat) : FsDirent :=
  ⟨fun j => b.byte (64 * i + j), b.u32 (64 * i + 56), b.u32 (64 * i + 60)⟩

def FsLoghdr.ofBlock (b : Block) : FsLoghdr :=
  ⟨b.u32 0, b.u32 4, fun i => b.u32 (8 + 4 * i)⟩

@[simp] theorem FsSuperblock.ofBlock_toBlock (sb : FsSuperblock) : ofBlock sb.toBlock = sb := by
  have h (off : Nat) (x : UInt32) (ho : off + 4 ≤ BSIZE)
      (hx : ∀ k, k < 4 → sb.byte (off + k) = u32Byte x k) : sb.toBlock.u32 off = x := by
    apply u32_of_leByte
    intro k hk
    rw [toBlock, blockOf_byte _ (by omega), hx k hk, u32Byte]
  cases sb with
  | mk magic nfiles nextFree totalBlocks =>
    simp only [ofBlock, FsSuperblock.mk.injEq]
    refine ⟨h 0 _ (by decide) ?_, h 4 _ (by decide) ?_, h 8 _ (by decide) ?_,
      h 12 _ (by decide) ?_⟩
    all_goals
      intro k hk
      simp only [byte]
      (repeat' split) <;> first | omega | (congr 1; omega)

@[simp] theorem FsLoghdr.ofBlock_toBlock (h : FsLoghdr) : ofBlock h.toBlock = h := by
  have hb (off : Nat) (x : UInt32) (ho : off + 4 ≤ BSIZE)
      (hx : ∀ k, k < 4 → h.byte (off + k) = u32Byte x k) : h.toBlock.u32 off = x := by
    apply u32_of_leByte
    intro k hk
    rw [toBlock, blockOf_byte _ (by omega), hx k hk, u32Byte]
  cases h with
  | mk committed n blk =>
    simp only [ofBlock, FsLoghdr.mk.injEq]
    refine ⟨hb 0 _ (by decide) ?_, hb 4 _ (by decide) ?_, ?_⟩
    · intro k hk
      simp only [byte, Nat.zero_add, hk, ↓reduceIte]
    · intro k hk
      have h4 : ¬ 4 + k < 4 := by omega
      have h8 : 4 + k < 8 := by omega
      simp only [byte, h4, h8, ↓reduceIte]
      congr 1
      omega
    · funext i
      have hi : (i : Nat) < 16 := i.isLt
      apply hb _ _ (by simp only [BSIZE]; omega)
      intro k hk
      have hq : (8 + 4 * (i : Nat) + k - 8) / 4 = i := by omega
      have hr : (8 + 4 * (i : Nat) + k - 8) % 4 = k := by omega
      have h4 : ¬ 8 + 4 * (i : Nat) + k < 4 := by omega
      have h8 : ¬ 8 + 4 * (i : Nat) + k < 8 := by omega
      simp only [byte, h4, h8, hq, hr, ↓reduceIte, i.isLt, ↓reduceDIte]

theorem dirBlock_byte (dir : Nat → FsDirent) (hi : i < MAXFILES) (hk : k < 64) :
    (dirBlock dir).byte (64 * i + k) = (dir i).byte k := by
  simp only [MAXFILES] at hi
  rw [dirBlock, blockOf_byte _ (by simp only [BSIZE]; omega), dirByte,
    show (64 * i + k) / 64 = i by omega, show (64 * i + k) % 64 = k by omega]

/-- A directory entry survives the way to the disk and back. -/
@[simp] theorem FsDirent.ofBlock_dirBlock (dir : Nat → FsDirent) (hi : i < MAXFILES) :
    ofBlock (dirBlock dir) i = dir i := by
  have hu (off : Nat) (x : UInt32) (ho : off + 4 ≤ 64)
      (hx : ∀ k, k < 4 → (dir i).byte (off + k) = u32Byte x k) :
      (dirBlock dir).u32 (64 * i + off) = x := by
    apply u32_of_leByte
    intro k hk
    rw [Nat.add_assoc, dirBlock_byte dir hi (by omega), hx k hk, u32Byte]
  cases he : dir i with
  | mk name size start =>
    simp only [ofBlock, FsDirent.mk.injEq]
    refine ⟨?_, hu 56 _ (by decide) ?_, hu 60 _ (by decide) ?_⟩
    · funext j
      have hj : (j : Nat) < 56 := j.isLt
      rw [dirBlock_byte dir hi (by omega), he]
      simp only [byte, j.isLt, ↓reduceDIte]
    · intro k hk
      have hname : ¬ 56 + k < NAMELEN := Nat.not_lt.2 (Nat.le_add_right _ _)
      have h60 : 56 + k < 60 := by omega
      simp only [he, byte, hname, h60, ↓reduceDIte, ↓reduceIte, Nat.add_sub_cancel_left]
    · intro k hk
      have hname : ¬ 60 + k < NAMELEN := by
        simp only [NAMELEN]
        omega
      have h60 : ¬ 60 + k < 60 := by omega
      simp only [he, byte, hname, h60, ↓reduceDIte, ↓reduceIte, Nat.add_sub_cancel_left]

end KernelHobby
