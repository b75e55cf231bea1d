import KernelHobby.FsInv

namespace KernelHobby
set_option autoImplicit true

namespace MkfsImage

def ofFiles (files : List HostFile) (h : files ≠ [] ∧ files.length ≤ MAXFILES)
    (hn : DATASTART + filesBlocks files < 2 ^ 32) : MkfsImage where
  files := files
  blocks := (mkfs files).getD []
  written := by
    rw [mkfs, if_neg]
    · rfl
    · rintro (hf | hf)
      · exact h.1 hf
      · omega
  numbered := hn

theorem single_count (path : CStr) (data : List UInt8) :
    [(path, data)] ≠ [] ∧ [(path, data)].length ≤ MAXFILES :=
  ⟨List.cons_ne_nil _ _, Nat.succ_le_succ (Nat.zero_le 7)⟩

theorem single_numbered (path : CStr) {data : List UInt8} (h : data.length < 2 ^ 32) :
    DATASTART + filesBlocks [(path, data)] < 2 ^ 32 := by
  simp only [filesBlocks, List.map_cons, List.map_nil, List.sum_cons, List.sum_nil, DATASTART,
    LOGSTART, LOGN]
  omega

/-- An image of one file. -/
def single (path : CStr) (data : List UInt8) (h : data.length < 2 ^ 32) : MkfsImage :=
  ofFiles [(path, data)] (single_count path data) (single_numbered path h)

def dir (img : MkfsImage) : Nat → FsDirent := fun i =>
  (mkfsEntries (UInt32.ofNat DATASTART) img.files).getD i FsDirent.zero

def cur (img : MkfsImage) : UInt32 := mkfsCur (UInt32.ofNat DATASTART) img.files

def total (img : MkfsImage) : UInt32 := if (256 : UInt32) < img.cur then img.cur else 256

/-- The state that mounting a fresh image builds. -/
def mem (img : MkfsImage) : FsMem where
  dir := img.dir
  nfiles := img.files.length
  mounted := true
  nextFree := img.cur
  totalBlocks := clampTotal img.total
  used := fileBitmap img.dir img.files.length

theorem blocks_eq (img : MkfsImage) :
    img.files.length ≤ MAXFILES ∧ ∃ rest, img.blocks =
      (FsSuperblock.mk FS_MAGIC (UInt32.ofNat img.files.length) img.cur img.total).toBlock ::
        dirBlock img.dir :: zeroBlock :: rest := by
  have h := img.written
  rw [mkfs] at h
  split at h
  · cases h
  · rename_i hc
    refine ⟨by omega, ?_⟩
    rw [Option.some.injEq] at h
    exact ⟨_, h.symm⟩

theorem total_ge (img : MkfsImage) : 256 ≤ img.total.toNat := by
  have h : (256 : UInt32).toNat = 256 := rfl
  rw [total]
  split
  · rename_i hc
    have hh := UInt32.lt_iff_toNat_lt.1 hc
    omega
  · omega

theorem clampTotal_bounds (img : MkfsImage) :
    256 ≤ (clampTotal img.total).toNat ∧ (clampTotal img.total).toNat ≤ MAXBLK := by
  have h := img.total_ge
  have hm : (UInt32.ofNat MAXBLK).toNat = MAXBLK := rfl
  by_cases hc : img.total = 0 ∨ MAXBLK < img.total.toNat
  · rw [clampTotal, if_pos hc, hm, MAXBLK]
    omega
  · rw [clampTotal, if_neg hc]
    rw [not_or] at hc
    omega

theorem extentOk (img : MkfsImage) (hi : i < img.files.length) : ExtentOk (img.dir i) := by
  have hn := img.numbered
  have hd : (UInt32.ofNat DATASTART).toNat = DATASTART := rfl
  obtain ⟨h₁, h₂⟩ := mkfsEntries_extents (UInt32.ofNat DATASTART) (by rw [hd]; exact hn) hi
  have hsum := filesBlocks_take_succ img.files hi
  have hle := filesBlocks_take_le img.files (i + 1)
  have hsz := blocksOf_ofNat_le ((img.files.map fun f => f.2.length).getD i 0)
  rw [ExtentOk, dir, h₁, h₂, hd]
  omega

theorem memOk (img : MkfsImage) : MemOk img.mem where
  mounted := rfl
  nfiles_nonneg := Int.natCast_nonneg _
  nfiles_le := Int.ofNat_le.2 img.blocks_eq.1
  total_ge := Nat.le_trans (by decide) img.clampTotal_bounds.1
  total_le := img.clampTotal_bounds.2
  slots := by
    intro i hi
    have hl := img.blocks_eq.1
    exact List.getD_eq_default _ _ (by rw [mkfsEntries_length]; omega)
  extents := by
    intro i hi
    exact img.extentOk (by simpa [mem] using hi)

theorem zeroBlock_u32 : zeroBlock.u32 0 = 0 := by
  apply u32_of_leByte
  intro k hk
  rw [zeroBlock, blockOf_byte _ (by simp only [BSIZE]; omega)]
  simp [leByte]

theorem pending_zeroBlock : fsJournal.pending zeroBlock = none := by
  show pendingOf zeroBlock = none
  simp only [pendingOf, FsLoghdr.ofBlock, zeroBlock_u32, ↓reduceIte]

theorem onDisk (img : MkfsImage) : OnDisk img.mem img.disk := by
  obtain ⟨hl, rest, hb⟩ := img.blocks_eq
  have h0 : img.disk 0 =
      (FsSuperblock.mk FS_MAGIC (UInt32.ofNat img.files.length) img.cur img.total).toBlock := by
    rw [disk, diskOf, hb]
    rfl
  refine ⟨?_, ?_, ?_, ?_, ?_, ?_⟩
  · rw [h0, FsSuperblock.ofBlock_toBlock]
  · rw [h0, FsSuperblock.ofBlock_toBlock]
    apply UInt32.toNat_inj.1
    show (UInt32.ofNat img.files.length).toNat = (UInt32.ofInt (img.files.length : Int)).toNat
    rw [uint32_toNat_ofInt, UInt32.toNat_ofNat']
    omega
  · rw [h0, FsSuperblock.ofBlock_toBlock]
    rfl
  · rw [h0, FsSuperblock.ofBlock_toBlock]
    rfl
  · rw [disk, diskOf, hb]
    rfl
  · have h2 : img.disk LOGHDR = zeroBlock := by
      rw [disk, diskOf, hb]
      rfl
    rw [h2]
    exact pending_zeroBlock

theorem mount_spec (img : MkfsImage) :
    (mount img.disk).disk = img.disk ∧ (mount img.disk).faults = [] ∧
      (mount img.disk).mem = img.mem ∧ UartOut.puts tooLarge ∉ (mount img.disk).uart := by
  obtain ⟨h₁, _, h₃, h₄, h₅⟩ := img.onDisk.mount img.memOk
  exact ⟨h₁, h₃, h₄, h₅⟩

theorem wf (img : MkfsImage) : FsWf (mount img.disk) := by
  obtain ⟨h₁, h₃, h₄, _⟩ := img.mount_spec
  refine ⟨h₃, ?_, ?_⟩
  · rw [h₄]
    exact img.memOk
  · rw [h₁, h₄]
    exact img.onDisk

end MkfsImage

def nameA : CStr := ⟨[97], by decide⟩

def nameB : CStr := ⟨[98], by decide⟩

/-- An image with one empty file. -/
def emptyFileImage : MkfsImage := .single nameA [] (by decide)

/-- One file of 4 GiB less a byte. -/
def largeFileImage : MkfsImage :=
  .single nameA (List.replicate (2 ^ 32 - 1) 0) (by rw [List.length_replicate]; decide)

/-- The mounted states that calls and remounts reach from a fresh image. -/
inductive Reachable (img : MkfsImage) : Fs → Prop where
  | mkfs : Reachable img (mount img.disk)
  | call (c : Call) : Reachable img s → Reachable img (c.exec s).1
  | remount : Reachable img s → Reachable img (mount s.disk)

theorem MkfsImage.findName_mount (img : MkfsImage) (name : CStr) :
    findName (mount img.disk) name =
      (List.range img.files.length).find? fun i => streq (dirName img.dir i) name.bytes := by
  obtain ⟨_, _, h, _⟩ := img.mount_spec
  have hd : (mount img.disk).dir = img.dir := congrArg FsMem.dir h
  have hn : (mount img.disk).nfiles = img.files.length := congrArg FsMem.nfiles h
  rw [findName, hd, hn, Int.toNat_natCast]

theorem Reachable.wf (h : Reachable img s) : FsWf s := by
  induction h with
  | mkfs => exact img.wf
  | call c _ ih => exact ih.exec c
  | remount _ ih => exact ih.remount

end KernelHobby
