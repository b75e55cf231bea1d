import KernelHobby.FsFormat

namespace KernelHobby
set_option autoImplicit true

def MAXBLK : Nat := 8192

/-- A NUL-terminated string argument, without its NUL. -/
structure CStr where
  bytes : List UInt8
  noNul : 0 ∉ bytes
  deriving DecidableEq

inductive UartOut where
  | puts (s : String)
  | putc (c : UInt8)
  | dec (n : Int)
  deriving DecidableEq

/-- The characters of `uart_puts`. -/
def putsChars (b : List UInt8) : List UartOut :=
  b.flatMap fun c => if c = 10 then [.putc 13, .putc c] else [.putc c]

/-- The static data of the file system, the disk behind it and the console in front of it.
`faults` scripts the outcome of the coming disk requests (all succeed once it is used up),
and `trace` records the block writes that reached the disk, oldest first. -/
structure Fs where
  disk : Nat → Block
  faults : List Bool
  trace : List (Nat × Block)
  uart : List UartOut
  fsbuf : Block
  dir : Nat → FsDirent
  nfiles : Int
  mounted : Bool
  nextFree : UInt32
  totalBlocks : UInt32
  used : Nat → Bool
  logBlk : Nat → UInt32
  logN : Nat
  logOverflow : Bool

/-- The zeroed static data at power-on. -/
def Fs.boot (disk : Nat → Block) : Fs where
  disk := disk
  faults := []
  trace := []
  uart := []
  fsbuf := zeroBlock
  dir := fun _ => FsDirent.zero
  nfiles := 0
  mounted := false
  nextFree := 0
  totalBlocks := 0
  used := fun _ => false
  logBlk := fun _ => 0
  logN := 0
  logOverflow := false

def Fs.puts (s : Fs) (m : String) : Fs := { s with uart := s.uart ++ [.puts m] }

def Fs.putc (s : Fs) (c : UInt8) : Fs := { s with uart := s.uart ++ [.putc c] }

/-- `uart_puts` of a string argument; a newline gets a carriage return before it. -/
def Fs.putsName (s : Fs) (name : CStr) : Fs :=
  name.bytes.foldl (fun s c => if c = 10 then (s.putc 13).putc c else s.putc c) s

def Fs.dec (s : Fs) (n : Int) : Fs := { s with uart := s.uart ++ [.dec n] }

/-- Every disk request of the file system goes through `fsbuf`. -/
def virtioDiskRw (s : Fs) (block : Nat) (write : Bool) : Fs × Int :=
  match s.faults with
  | true :: fs => ({ s with faults := fs }, -1)
  | fs =>
    if write then
      ({ s with faults := fs.tail, disk := Function.update s.disk block s.fsbuf,
                trace := s.trace ++ [(block, s.fsbuf)] }, 0)
    else ({ s with faults := fs.tail, fsbuf := s.disk block }, 0)

/-- `a` is the memory from a pointer on, `b` the bytes of a string up to its NUL. -/
def streq (a : Nat → UInt8) : List UInt8 → Bool
  | [] => a 0 == 0
  | c :: b =>
    if a 0 ≠ 0 ∧ c ≠ 0 then
      if a 0 ≠ c then false else streq (fun k => a (k + 1)) b
    else a 0 == c

/-- The memory from `dir[i].name` on. -/
def dirName (dir : Nat → FsDirent) (i : Nat) : Nat → UInt8 := fun k => dirByte dir (64 * i + k)

def writeLoghdr (s : Fs) (committed n : UInt32) (blks : Nat → UInt32) : Fs :=
  let h : FsLoghdr := ⟨committed, n, fun i => if (i : Nat) < n.toNat then blks i else 0⟩
  (virtioDiskRw { s with fsbuf := h.toBlock } LOGHDR true).1

def logBegin (s : Fs) : Fs := { s with logN := 0, logOverflow := false }

def logWrite (s : Fs) (dst : UInt32) (data : Block) : Fs :=
  if LOGN ≤ s.logN then { s with logOverflow := true }
  else
    let s := (virtioDiskRw { s with fsbuf := data } (LOGSTART + s.logN) true).1
    { s with logBlk := Function.update s.logBlk s.logN dst, logN := s.logN + 1 }

def logInstall (blks : Nat → UInt32) : Nat → Fs → Fs
  | 0, s => s
  | i + 1, s =>
    let s := logInstall blks i s
    let s := (virtioDiskRw s (LOGSTART + i) false).1
    (virtioDiskRw s (blks i).toNat true).1

def tooLarge : String := "[fs] transaction too large -- aborted (no partial commit)\n"

def logCommit (s : Fs) : Fs :=
  if s.logN = 0 then s
  else if s.logOverflow then { s.puts tooLarge with logN := 0, logOverflow := false }
  else
    let s := writeLoghdr s 1 (UInt32.ofNat s.logN) s.logBlk
    let s := logInstall s.logBlk s.logN s
    let s := writeLoghdr s 0 0 fun _ => 0
    { s with logN := 0 }

def recover (s : Fs) : Fs :=
  let s := (virtioDiskRw s LOGHDR false).1
  let h := FsLoghdr.ofBlock s.fsbuf
  if h.committed = 0 then s
  else
    let n := if LOGN < h.n.toNat then LOGN else h.n.toNat
    let blks : Nat → UInt32 := fun i => if hi : i < LOGN then h.blk ⟨i, hi⟩ else 0
    let s := logInstall blks n s
    let s := writeLoghdr s 0 0 fun _ => 0
    s.puts "[fs] recovered a committed log transaction\n"

/-- The number of blocks of a file, computed in unsigned 32-bit arithmetic. -/
def fileBlocks (size : UInt32) : UInt32 := (size + 512 - 1) / 512

/-- Set the bits of the blocks `start, start + 1, ...`, as far as the bitmap reaches. -/
def setBlocks (v : Bool) (start : UInt32) : Nat → (Nat → Bool) → Nat → Bool
  | 0, used => used
  | k + 1, used =>
    let used := setBlocks v start k used
    let b := (start + UInt32.ofNat k).toNat
    if b < MAXBLK then Function.update used b v else used

def metaBitmap : Nat → Bool := fun b =>
  b = 0 || b = DIRBLOCK || b = LOGHDR || (LOGSTART ≤ b && b < LOGSTART + LOGN)

def fileBitmap (dir : Nat → FsDirent) : Nat → Nat → Bool
  | 0 => metaBitmap
  | f + 1 => setBlocks true (dir f).start (fileBlocks (dir f).size).toNat (fileBitmap dir f)

def buildBitmap (s : Fs) : Fs := { s with used := fileBitmap s.dir s.nfiles.toNat }

/-- The scan of `balloc_contig` from block `b` on; `fuel` bounds the iterations, and the loop
condition fails before it runs out. -/
def ballocScan (s : Fs) (nblocks : Int32) : Nat → UInt32 → Int
  | 0, _ => -1
  | fuel + 1, b =>
    let e := b + nblocks.toUInt32
    if e ≤ s.totalBlocks ∧ e.toNat ≤ MAXBLK then
      if (List.range nblocks.toInt.toNat).all fun k => !s.used (b.toNat + k) then b.toNat
      else ballocScan s nblocks fuel (b + 1)
    else -1

def ballocContig (s : Fs) (nblocks : Int32) : Int :=
  if nblocks = 0 then DATASTART
  else ballocScan s nblocks MAXBLK (UInt32.ofNat DATASTART)

def clampTotal (total : UInt32) : UInt32 :=
  if total = 0 ∨ MAXBLK < total.toNat then UInt32.ofNat MAXBLK else total

def clampFiles (n : UInt32) : Int :=
  if (MAXFILES : Int) < n.toInt32.toInt then MAXFILES else n.toInt32.toInt

/-- The second half of mounting: read the superblock and the directory once more after
recovery, and build the bitmap. -/
def loadTables (s : Fs) : Fs :=
  let s := (virtioDiskRw s 0 false).1
  let sb := FsSuperblock.ofBlock s.fsbuf
  let s := { s with nfiles := clampFiles sb.nfiles, nextFree := sb.nextFree }
  let s := (virtioDiskRw s DIRBLOCK false).1
  let s := { s with dir := fun i =>
    if i < MAXFILES then FsDirent.ofBlock s.fsbuf i else s.dir i }
  { buildBitmap s with mounted := true }

def fsInit (s : Fs) : Fs :=
  let (s, r) := virtioDiskRw s 0 false
  if r ≠ 0 then s.puts "[fs] cannot read superblock\n"
  else
    let sb := FsSuperblock.ofBlock s.fsbuf
    if sb.magic ≠ FS_MAGIC then s.puts "[fs] bad magic (no filesystem)\n"
    else
      let s := loadTables (recover { s with totalBlocks := clampTotal sb.totalBlocks })
      ((s.puts "[ok] filesystem mounted (journaled): ").dec s.nfiles).puts " files\n"

/-- The first listed entry with this name, as every lookup loop finds it. -/
def findName (s : Fs) (name : CStr) : Option Nat :=
  (List.range s.nfiles.toNat).find? fun i => streq (dirName s.dir i) name.bytes

/-- The loop of `fs_read`; `fuel` bounds the iterations, `remaining` ends them. -/
def fsReadLoop : Nat → Fs → (Nat → UInt8) → UInt32 → UInt32 → UInt32 → Fs × (Nat → UInt8)
  | 0, s, buf, _, _, _ => (s, buf)
  | fuel + 1, s, buf, blk, off, remaining =>
    if remaining = 0 then (s, buf)
    else
      let s := (virtioDiskRw s blk.toNat false).1
      let n := if (512 : UInt32) < remaining then 512 else remaining
      let data := s.fsbuf
      let buf := fun j =>
        if off.toNat ≤ j ∧ j < off.toNat + n.toNat then data.byte (j - off.toNat) else buf j
      fsReadLoop fuel s buf (blk + 1) (off + n) (remaining - n)

def fsRead (s : Fs) (name : CStr) (buf : Nat → UInt8) (max : Int32) : Fs × (Nat → UInt8) × Int :=
  if !s.mounted then (s, buf, -1)
  else
    match findName s name with
    | none => (s, buf, -1)
    | some i =>
      let size := (s.dir i).size
      if max < size.toInt32 then (s, buf, -1)
      else
        let (s, buf) := fsReadLoop (size.toNat / BSIZE + 1) s buf (s.dir i).start 0 size
        (s, buf, size.toInt32.toInt)

/-- The loop of `fs_read_page`; `fuel` bounds the iterations, each fills a block of the page. -/
def fsReadPageLoop (size offset : UInt32) :
    Nat → Fs → (Nat → UInt8) → UInt32 → UInt32 → Fs × (Nat → UInt8)
  | 0, s, buf, _, _ => (s, buf)
  | fuel + 1, s, buf, blk, done =>
    if done < 4096 ∧ offset + done < size then
      let s := (virtioDiskRw s blk.toNat false).1
      let n := size - (offset + done)
      let n := if (512 : UInt32) < n then 512 else n
      let data := s.fsbuf
      let buf := fun j =>
        if done.toNat ≤ j ∧ j < done.toNat + n.toNat then data.byte (j - done.toNat) else buf j
      fsReadPageLoop size offset fuel s buf (blk + 1) (done + 512)
    else (s, buf)

def fsReadPage (s : Fs) (start size offset : UInt32) (buf : Nat → UInt8) : Fs × (Nat → UInt8) :=
  fsReadPageLoop size offset 8 s (fun j => if j < 4096 then 0 else buf j) (start + offset / 512) 0

/-- The loop of `fs_cat`. -/
def fsCatLoop : Nat → Fs → UInt32 → UInt32 → Fs
  | 0, s, _, _ => s
  | fuel + 1, s, blk, remaining =>
    if remaining = 0 then s
    else
      let s := (virtioDiskRw s blk.toNat false).1
      let n := if (512 : UInt32) < remaining then 512 else remaining
      let s := (List.range n.toNat).foldl (fun s j => s.putc (s.fsbuf.byte j)) s
      fsCatLoop fuel s (blk + 1) (remaining - n)

def fsCat (s : Fs) (name : CStr) : Fs :=
  if !s.mounted then s.puts "cat: no filesystem\n"
  else
    match findName s name with
    | none => ((s.puts "cat: no such file: ").putsName name).putc 10
    | some i => fsCatLoop ((s.dir i).size.toNat / BSIZE + 1) s (s.dir i).start (s.dir i).size

def fsStat (s : Fs) (name : CStr) : Option (UInt32 × UInt32) :=
  if !s.mounted then none
  else
    match findName s name with
    | none => none
    | some i => some ((s.dir i).start, (s.dir i).size)

def logDir (s : Fs) : Fs := logWrite s (UInt32.ofNat DIRBLOCK) (dirBlock s.dir)

def logSuper (s : Fs) : Fs :=
  let sb : FsSuperblock := ⟨FS_MAGIC, UInt32.ofInt s.nfiles, s.nextFree, s.totalBlocks⟩
  logWrite s 0 sb.toBlock

/-- The block `b` of the data of a new file, padded with zeros. -/
def dataBlock (data : Nat → UInt8) (size : Int32) (b : Nat) : Block :=
  blockOf fun j => if (BSIZE * b + j : Int) < size.toInt then data (BSIZE * b + j) else 0

def logData (data : Nat → UInt8) (size : Int32) (start : Int) : Nat → Fs → Fs
  | 0, s => s
  | b + 1, s =>
    logWrite (logData data size start b s) (UInt32.ofInt (start + b)) (dataBlock data size b)

/-- Copy a name into a slot: at most `NAMELEN - 1` bytes and a NUL, the rest is left. -/
def copyName (name : CStr) (old : Fin NAMELEN → UInt8) : Fin NAMELEN → UInt8 := fun k =>
  let len := Nat.min name.bytes.length (NAMELEN - 1)
  if (k : Nat) < len then name.bytes.getD k 0 else if (k : Nat) = len then 0 else old k

/-- The in-memory part of creating a file: the new entry, the bitmap and the hint. -/
def addEntry (s : Fs) (name : CStr) (size nblocks : Int32) (start : Int) : Fs :=
  let slot := s.nfiles.toNat
  let nb := nblocks.toInt.toNat
  let e : FsDirent := ⟨copyName name (s.dir slot).name, size.toUInt32, UInt32.ofInt start⟩
  let top := UInt32.ofInt (start + nblocks.toInt)
  { s with
    dir := Function.update s.dir slot e
    nfiles := s.nfiles + 1
    used := fun b => if start ≤ b ∧ (b : Int) < start + nb then true else s.used b
    nextFree := if s.nextFree < top then top else s.nextFree }

def fsCreate (s : Fs) (name : CStr) (data : Nat → UInt8) (size : Int32) : Fs × Int :=
  if s.mounted = false ∨ (MAXFILES : Int) ≤ s.nfiles ∨ size < 0 then (s, -1)
  else if (findName s name).isSome then (s, -1)
  else
    let nblocks := (size + 512 - 1) / 512
    if 16 < nblocks + 2 then (s, -1)
    else
      let start := ballocContig s nblocks
      if start < 0 then (s, -1)
      else
        let s := logBegin s
        let s := logData data size start nblocks.toInt.toNat s
        let s := addEntry s name size nblocks start
        (logCommit (logSuper (logDir s)), 0)

/-- The in-memory part of deleting entry `idx`: free its blocks, close the gap and clear
the slot that becomes free. -/
def removeEntry (s : Fs) (idx : Nat) : Fs :=
  let e := s.dir idx
  let last := s.nfiles.toNat - 1
  { s with
    used := setBlocks false e.start (fileBlocks e.size).toNat s.used
    dir := fun j =>
      if j = last then FsDirent.zero
      else if idx ≤ j ∧ j < last then s.dir (j + 1) else s.dir j
    nfiles := s.nfiles - 1 }

def fsDelete (s : Fs) (name : CStr) : Fs × Int :=
  if !s.mounted then (s, -1)
  else
    match findName s name with
    | none => (s, -1)
    | some idx =>
      let s := logBegin (removeEntry s idx)
      (logCommit (logSuper (logDir s)), 0)

end KernelHobby
