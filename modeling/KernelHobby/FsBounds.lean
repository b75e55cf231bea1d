import KernelHobby.FsReplay

namespace KernelHobby
set_option autoImplicit true

/-- An index into an array of the file system: the directory, a name in it, the bitmap, the
destinations of a transaction, those in a log header. -/
inductive Access where
  | dir (i : Int)
  | name (k : Int)
  | used (b : Int)
  | logBlk (i : Int)
  | hdrBlk (i : Int)

namespace Access

/-- The length of the array. -/
def size : Access → Nat
  | dir _ => MAXFILES
  | name _ => NAMELEN
  | used _ => MAXBLK
  | logBlk _ => LOGN
  | hdrBlk _ => LOGN

def index : Access → Int
  | dir i => i
  | name k => k
  | used b => b
  | logBlk i => i
  | hdrBlk i => i

def Ok (a : Access) : Prop := 0 ≤ a.index ∧ a.index < a.size

end Access

/-- How many bytes of `a` a comparison reads. -/
def streqReads (a : Nat → UInt8) : List UInt8 → Nat
  | [] => 1
  | c :: b => if a 0 ≠ 0 ∧ c ≠ 0 ∧ a 0 = c then streqReads (fun k => a (k + 1)) b + 1 else 1

/-- The indices of a loop over the first `n` elements of an array. -/
def upTo (f : Int → Access) (n : Nat) : List Access := (List.range n).map fun i : Nat => f i

/-- The lookup loop over `k` entries from the `i`-th on, up to a match. -/
def lookupAccess (s : Fs) (name : CStr) : Nat → Nat → List Access
  | 0, _ => []
  | k + 1, i =>
    .dir i :: upTo .name (streqReads (dirName s.dir i) name.bytes) ++
      if streq (dirName s.dir i) name.bytes then [] else lookupAccess s name k (i + 1)

def findAccess (s : Fs) (name : CStr) : List Access := lookupAccess s name s.nfiles.toNat 0

/-- The guarded bitmap updates for the blocks of a file. -/
def blocksAccess (start : UInt32) (n : Nat) : List Access :=
  (List.range n).flatMap fun k : Nat =>
    let b := (start + UInt32.ofNat k).toNat
    if b < MAXBLK then [.used b] else []

def bitmapAccess (s : Fs) : List Access :=
  upTo .used MAXBLK ++ [.used 0, .used DIRBLOCK, .used LOGHDR] ++
    upTo (fun i => .used (LOGSTART + i)) LOGN ++
    (List.range s.nfiles.toNat).flatMap fun f : Nat =>
      .dir f :: blocksAccess (s.dir f).start (fileBlocks (s.dir f).size).toNat

/-- The test of `n` blocks from `b` on, up to one in use. -/
def testAccess (s : Fs) : Nat → Nat → List Access
  | 0, _ => []
  | n + 1, b => .used b :: if s.used b then [] else testAccess s n (b + 1)

def scanAccess (s : Fs) (nblocks : Int32) : Nat → UInt32 → List Access
  | 0, _ => []
  | fuel + 1, b =>
    let e := b + nblocks.toUInt32
    if e ≤ s.totalBlocks ∧ e.toNat ≤ MAXBLK then
      testAccess s nblocks.toInt.toNat b.toNat ++
        if (List.range nblocks.toInt.toNat).all fun k => !s.used (b.toNat + k) then []
        else scanAccess s nblocks fuel (b + 1)
    else []

def ballocAccess (s : Fs) (nblocks : Int32) : List Access :=
  if nblocks = 0 then [] else scanAccess s nblocks MAXBLK (UInt32.ofNat DATASTART)

def logWriteAccess (s : Fs) : List Access := if LOGN ≤ s.logN then [] else [.logBlk s.logN]

def loghdrAccess (n : Nat) : List Access :=
  (List.range LOGN).flatMap fun i : Nat =>
    if i < n then [.hdrBlk i, .logBlk i] else [.hdrBlk i]

def commitAccess (s : Fs) : List Access :=
  if s.logN = 0 then []
  else if s.logOverflow then []
  else loghdrAccess s.logN ++ upTo .logBlk s.logN ++ loghdrAccess 0

/-- The metadata part of a transaction: the directory goes into the log, then the superblock. -/
def metaAccess (s : Fs) : List Access :=
  upTo .dir MAXFILES ++ logWriteAccess s ++ logWriteAccess (logDir s) ++
    commitAccess (logSuper (logDir s))

def recoverAccess (s : Fs) : List Access :=
  let h := FsLoghdr.ofBlock (s.disk LOGHDR)
  if h.committed = 0 then []
  else upTo .hdrBlk h.count ++ upTo .logBlk h.count ++ upTo .logBlk h.count ++ loghdrAccess 0

/-- The part of `fs_init` after the magic test: recovery, the copy of the directory and the
bitmap of the state it builds. -/
def initAccess (d : Nat → Block) : List Access :=
  recoverAccess (Fs.boot d) ++ upTo .dir MAXFILES ++ bitmapAccess (mount d)

def statAccess (s : Fs) (name : CStr) : List Access :=
  if !s.mounted then []
  else
    findAccess s name ++
      match findName s name with
      | none => []
      | some i => [.dir i]

def logDataAccess (data : Nat → UInt8) (size : Int32) (start : Int) : Nat → Fs → List Access
  | 0, _ => []
  | b + 1, s => logDataAccess data size start b s ++ logWriteAccess (logData data size start b s)

def createAccess (s : Fs) (name : CStr) (data : Nat → UInt8) (size : Int32) : List Access :=
  if s.mounted = false ∨ (MAXFILES : Int) ≤ s.nfiles ∨ size < 0 then []
  else findAccess s name ++
    if (findName s name).isSome then []
    else
      let nblocks := (size + 512 - 1) / 512
      if 16 < nblocks + 2 then []
      else ballocAccess s nblocks ++
        let start := ballocContig s nblocks
        if start < 0 then []
        else
          let nb := nblocks.toInt.toNat
          let s := logBegin s
          let t := logData data size start nb s
          logDataAccess data size start nb s ++
            .dir t.nfiles :: upTo .name (Nat.min name.bytes.length (NAMELEN - 1) + 1) ++
            upTo (fun b => .used (start + b)) nb ++
            metaAccess (addEntry t name size nblocks start)

def deleteAccess (s : Fs) (name : CStr) : List Access :=
  if !s.mounted then []
  else findAccess s name ++
    match findName s name with
    | none => []
    | some idx =>
      let e := s.dir idx
      let last := s.nfiles - 1
      .dir idx :: blocksAccess e.start (fileBlocks e.size).toNat ++
        ((List.range (last - idx).toNat).flatMap fun j : Nat =>
          [.dir ((idx : Int) + j), .dir ((idx : Int) + j + 1)]) ++
        .dir last :: upTo .name NAMELEN ++
        metaAccess (logBegin (removeEntry s idx))

/-- The calls that follow a mount. -/
inductive FsCall where
  | stat (name : CStr)
  | create (name : CStr) (data : Nat → UInt8) (size : Int32)
  | delete (name : CStr)

namespace FsCall

def access (s : Fs) : FsCall → List Access
  | stat name => statAccess s name
  | create name data size => createAccess s name data size
  | delete name => deleteAccess s name

def exec (s : Fs) : FsCall → Fs
  | stat _ => s
  | create name data size => (fsCreate s name data size).1
  | delete name => (fsDelete s name).1

/-- The indices of a sequence of calls. -/
def accesses (s : Fs) : List FsCall → List Access
  | [] => []
  | c :: cs => c.access s ++ accesses (c.exec s) cs

end FsCall

end KernelHobby
