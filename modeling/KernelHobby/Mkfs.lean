import KernelHobby.FsMount

namespace KernelHobby
set_option autoImplicit true

/-- A file on the command line: its path and its contents. -/
abbrev HostFile := CStr × List UInt8

/-- The path after its last `/`. -/
def baseName (path : CStr) : List UInt8 :=
  (path.bytes.reverse.takeWhile fun c => c ≠ 47).reverse

/-- `strncpy` of at most `NAMELEN - 1` bytes into a zeroed name. -/
def mkfsName (path : CStr) : Fin NAMELEN → UInt8 := fun k =>
  if (k : Nat) < NAMELEN - 1 then (baseName path).getD k 0 else 0

/-- The directory entries, with the block cursor `cur` moving on as unsigned 32-bit. -/
def mkfsEntries : UInt32 → List HostFile → List FsDirent
  | _, [] => []
  | cur, f :: fs =>
    ⟨mkfsName f.1, UInt32.ofNat f.2.length, cur⟩ ::
      mkfsEntries (cur + UInt32.ofNat ((f.2.length + 511) / 512)) fs

def mkfsCur : UInt32 → List HostFile → UInt32
  | cur, [] => cur
  | cur, f :: fs => mkfsCur (cur + UInt32.ofNat ((f.2.length + 511) / 512)) fs

/-- The data blocks written for one file; `sizes[i]` holds its length cut to 32 bits. -/
def fileImage (data : List UInt8) : List Block :=
  let size := (UInt32.ofNat data.length).toNat
  (List.range ((size + 511) / 512)).map fun k =>
    blockOf fun j => if BSIZE * k + j < size then data.getD (BSIZE * k + j) 0 else 0

/-- The blocks that `mkfs` writes, in order; it refuses an empty list and too many files. -/
def mkfs (files : List HostFile) : Option (List Block) :=
  if files = [] ∨ MAXFILES < files.length then none
  else
    let dir := mkfsEntries (UInt32.ofNat DATASTART) files
    let cur := mkfsCur (UInt32.ofNat DATASTART) files
    let total := if (256 : UInt32) < cur then cur else 256
    let sb : FsSuperblock := ⟨FS_MAGIC, UInt32.ofNat files.length, cur, total⟩
    some ([sb.toBlock, dirBlock fun i => dir.getD i FsDirent.zero, zeroBlock] ++
      List.replicate LOGN zeroBlock ++ files.flatMap (fun f => fileImage f.2) ++
      List.replicate (total.toNat - cur.toNat) zeroBlock)

/-- The disk that holds an image. -/
def diskOf (img : List Block) : Nat → Block := fun b => img.getD b zeroBlock

/-- The number of blocks the files take. -/
def filesBlocks (files : List HostFile) : Nat :=
  (files.map fun f => (f.2.length + 511) / 512).sum

/-- An image written by `mkfs` whose blocks can be numbered in the 32 bits of the format. -/
structure MkfsImage where
  files : List HostFile
  blocks : List Block
  written : mkfs files = some blocks
  numbered : DATASTART + filesBlocks files < 2 ^ 32

def MkfsImage.disk (img : MkfsImage) : Nat → Block := diskOf img.blocks

section Entries
variable {files : List HostFile}

theorem mkfsEntries_length (cur : UInt32) (files : List HostFile) :
    (mkfsEntries cur files).length = files.length := by
  induction files generalizing cur with
  | nil => rfl
  | cons f fs ih => simp only [mkfsEntries, List.length_cons, ih]

/-- The entries take consecutive, non-overlapping extents from the cursor on. -/
theorem mkfsEntries_extents (cur : UInt32) (h : cur.toNat + filesBlocks files < 2 ^ 32)
    (hi : i < files.length) :
    ((mkfsEntries cur files).getD i FsDirent.zero).start.toNat =
        cur.toNat + filesBlocks (files.take i) ∧
      ((mkfsEntries cur files).getD i FsDirent.zero).size =
        UInt32.ofNat ((files.map fun f => f.2.length).getD i 0) := by
  induction files generalizing cur i with
  | nil => simp at hi
  | cons f fs ih =>
    simp only [filesBlocks, List.map_cons, List.sum_cons] at h
    cases i with
    | zero => simp [mkfsEntries, filesBlocks]
    | succ i =>
      have hc : (cur + UInt32.ofNat ((f.2.length + 511) / 512)).toNat =
          cur.toNat + (f.2.length + 511) / 512 := by
        rw [UInt32.toNat_add, UInt32.toNat_ofNat']
        omega
      have hh := ih (cur + UInt32.ofNat ((f.2.length + 511) / 512)) (i := i)
        (by rw [hc, filesBlocks]; omega) (by simpa using hi)
      rw [hc] at hh
      simp only [mkfsEntries, List.getD_cons_succ, List.map_cons, List.take_succ_cons]
      refine ⟨?_, hh.2⟩
      rw [hh.1]
      simp only [filesBlocks, List.map_cons, List.sum_cons]
      omega

theorem mkfsCur_toNat {cur : UInt32} (h : cur.toNat + filesBlocks files < 2 ^ 32) :
    (mkfsCur cur files).toNat = cur.toNat + filesBlocks files := by
  induction files generalizing cur with
  | nil => simp [mkfsCur, filesBlocks]
  | cons f fs ih =>
    simp only [filesBlocks, List.map_cons, List.sum_cons] at h ⊢
    have hc : (cur + UInt32.ofNat ((f.2.length + 511) / 512)).toNat =
        cur.toNat + (f.2.length + 511) / 512 := by
      rw [UInt32.toNat_add, UInt32.toNat_ofNat']
      omega
    rw [mkfsCur, ih (by rw [hc, filesBlocks]; omega), hc, filesBlocks]
    omega

theorem filesBlocks_take_succ (files : List HostFile) (hi : i < files.length) :
    filesBlocks (files.take (i + 1)) = filesBlocks (files.take i) +
      ((files.map fun f => f.2.length).getD i 0 + 511) / 512 := by
  rw [List.take_succ_eq_append_getElem hi]
  simp only [filesBlocks, List.map_append, List.map_cons, List.map_nil, List.sum_append,
    List.sum_cons, List.sum_nil, Nat.add_zero, List.getD_eq_getElem?_getD, List.getElem?_map,
    List.getElem?_eq_getElem hi, Option.map_some, Option.getD_some]

theorem filesBlocks_take_le (files : List HostFile) (i : Nat) :
    filesBlocks (files.take i) ≤ filesBlocks files := by
  rw [filesBlocks, filesBlocks, List.map_take]
  exact List.Sublist.sum_le_sum (List.take_sublist _ _) (by simp)

end Entries

end KernelHobby
