import KernelHobby.FsBounds

namespace KernelHobby
set_option autoImplicit true

/-- Every index of the list is in bounds. -/
def AllOk (l : List Access) : Prop := ∀ a ∈ l, a.Ok

@[simp] theorem allOk_nil : AllOk [] := by
  intro a ha
  cases ha

@[simp] theorem allOk_cons : AllOk (a :: l) ↔ a.Ok ∧ AllOk l := by
  simp only [AllOk, List.mem_cons, forall_eq_or_imp]

@[simp] theorem allOk_append : AllOk (l ++ l') ↔ AllOk l ∧ AllOk l' := by
  simp only [AllOk, List.mem_append, or_imp, forall_and]

theorem allOk_flatMap {f : Nat → List Access} (h : ∀ i, i < n → AllOk (f i)) :
    AllOk ((List.range n).flatMap f) := by
  intro a ha
  obtain ⟨i, hi, hm⟩ := List.mem_flatMap.1 ha
  exact h i (List.mem_range.1 hi) a hm

theorem allOk_upTo {f : Int → Access} (h : ∀ i : Nat, i < n → (f i).Ok) : AllOk (upTo f n) := by
  intro a ha
  obtain ⟨i, hi, rfl⟩ := List.mem_map.1 ha
  exact h i (List.mem_range.1 hi)

section Index

theorem dir_ok {i : Int} (h₀ : 0 ≤ i) (h : i < MAXFILES) : (Access.dir i).Ok := ⟨h₀, h⟩

theorem name_ok (h : k < NAMELEN) : (Access.name (k : Nat)).Ok :=
  ⟨Int.natCast_nonneg k, Int.ofNat_lt.2 h⟩

theorem used_ok (h : b < MAXBLK) : (Access.used (b : Nat)).Ok :=
  ⟨Int.natCast_nonneg b, Int.ofNat_lt.2 h⟩

theorem logBlk_ok (h : i < LOGN) : (Access.logBlk (i : Nat)).Ok :=
  ⟨Int.natCast_nonneg i, Int.ofNat_lt.2 h⟩

theorem hdrBlk_ok (h : i < LOGN) : (Access.hdrBlk (i : Nat)).Ok :=
  ⟨Int.natCast_nonneg i, Int.ofNat_lt.2 h⟩

end Index

/-- A comparison does not read past a NUL. -/
theorem streqReads_le (h : a n = 0) : streqReads a b ≤ n + 1 := by
  induction b generalizing a n with
  | nil =>
    rw [streqReads]
    omega
  | cons c b ih =>
    rw [streqReads]
    split
    · rename_i hc
      cases n with
      | zero => exact absurd h hc.1
      | succ n =>
        have hh := ih (a := fun k => a (k + 1)) (n := n) h
        omega
    · omega

theorem Terminated.reads_le (h : Terminated (dir i)) (b : List UInt8) :
    streqReads (dirName dir i) b ≤ NAMELEN := by
  obtain ⟨k, hk⟩ := h
  have hz : dirName dir i k = 0 := by rw [dirName_eq dir i k.2, hk]
  have hh := streqReads_le (b := b) hz
  have hlt := k.2
  omega

/-- What every call needs and keeps: the number of files is in range and the listed names end. -/
structure Bounded (s : Fs) : Prop where
  nonneg : 0 ≤ s.nfiles
  le : s.nfiles ≤ MAXFILES
  terminated : AllTerminated s.mem

section Parts
variable {s : Fs} {name : CStr}

theorem lookup_ok (h : ∀ c, i ≤ c → c < i + k → c < MAXFILES ∧ Terminated (s.dir c)) :
    AllOk (lookupAccess s name k i) := by
  induction k generalizing i with
  | zero => exact allOk_nil
  | succ k ih =>
    obtain ⟨hlt, ht⟩ := h i (Nat.le_refl i) (by omega)
    rw [lookupAccess, allOk_append, allOk_cons]
    refine ⟨⟨dir_ok (Int.natCast_nonneg i) (Int.ofNat_lt.2 hlt), ?_⟩, ?_⟩
    · apply allOk_upTo
      intro j hj
      exact name_ok (Nat.lt_of_lt_of_le hj (ht.reads_le name.bytes))
    · split
      · exact allOk_nil
      · exact ih fun c h₁ h₂ => h c (by omega) (by omega)

theorem find_ok (h : Bounded s) : AllOk (findAccess s name) := by
  have h₀ := h.nonneg
  have hle := h.le
  apply lookup_ok
  intro c _ hc
  exact ⟨by omega, h.terminated c (show c < s.nfiles.toNat by omega)⟩

theorem blocks_ok (start : UInt32) (n : Nat) : AllOk (blocksAccess start n) := by
  apply allOk_flatMap
  intro k _
  dsimp only
  split
  · rename_i hb
    rw [allOk_cons]
    exact ⟨used_ok hb, allOk_nil⟩
  · exact allOk_nil

theorem bitmap_ok (h : Bounded s) : AllOk (bitmapAccess s) := by
  have h₀ := h.nonneg
  have hle := h.le
  have hmeta : AllOk [.used 0, .used DIRBLOCK, .used LOGHDR] := by
    simp only [allOk_cons, allOk_nil, and_true]
    exact ⟨used_ok (b := 0) (by decide), used_ok (b := DIRBLOCK) (by decide),
      used_ok (b := LOGHDR) (by decide)⟩
  rw [bitmapAccess, allOk_append, allOk_append, allOk_append]
  refine ⟨⟨⟨?_, hmeta⟩, ?_⟩, ?_⟩
  · exact allOk_upTo fun i hi => used_ok hi
  · apply allOk_upTo
    intro i hi
    have hb : LOGSTART + i < MAXBLK := by
      simp only [LOGN, LOGSTART, MAXBLK] at hi ⊢
      omega
    exact_mod_cast used_ok hb
  · apply allOk_flatMap
    intro f hf
    rw [allOk_cons]
    exact ⟨dir_ok (Int.natCast_nonneg f) (by omega), blocks_ok _ _⟩

theorem test_ok (h : b + n ≤ MAXBLK) : AllOk (testAccess s n b) := by
  induction n generalizing b with
  | zero => exact allOk_nil
  | succ n ih =>
    rw [testAccess, allOk_cons]
    refine ⟨used_ok (by omega), ?_⟩
    split
    · exact allOk_nil
    · exact ih (by omega)

/-- The scan tests only what its loop condition admits; a negative count never gets there. -/
theorem scan_ok {nblocks : Int32} (hn : 0 < nblocks.toInt) (hb : b.toNat ≤ MAXBLK + 1) :
    AllOk (scanAccess s nblocks fuel b) := by
  induction fuel generalizing b with
  | zero => exact allOk_nil
  | succ fuel ih =>
    have he := add_nblocks hn hb
    rw [scanAccess]
    split
    · rename_i hc
      rw [he] at hc
      rw [allOk_append]
      refine ⟨test_ok hc.2, ?_⟩
      split
      · exact allOk_nil
      · have hs := next_block hb
        exact ih (by omega)
    · exact allOk_nil

theorem balloc_ok (s : Fs) {nblocks : Int32} (hn : 0 ≤ nblocks.toInt ∨ nblocks.toInt < -DATASTART) :
    AllOk (ballocAccess s nblocks) := by
  rw [ballocAccess]
  split
  · exact allOk_nil
  · rename_i hz
    rcases hn with hn | hn
    · have hp : 0 < nblocks.toInt := by
        rcases Int.lt_or_eq_of_le hn with hh | hh
        · exact hh
        · exact absurd (Int32.toInt_inj.1 hh.symm) hz
      exact scan_ok hp (by decide)
    · have hl := nblocks.le_toInt
      have hu := int32_toNat_toUInt32 nblocks
      have hc : ¬ (UInt32.ofNat DATASTART + nblocks.toUInt32).toNat ≤ MAXBLK := by
        have hd : (UInt32.ofNat DATASTART).toNat = 19 := rfl
        simp only [DATASTART, LOGSTART, LOGN] at hn
        rw [UInt32.toNat_add, hd]
        simp only [MAXBLK]
        omega
      rw [MAXBLK, scanAccess, if_neg fun hh => hc hh.2]
      exact allOk_nil

theorem loghdr_ok (n : Nat) : AllOk (loghdrAccess n) := by
  apply allOk_flatMap
  intro i hi
  split
  · simp only [allOk_cons, allOk_nil, and_true]
    exact ⟨hdrBlk_ok hi, logBlk_ok hi⟩
  · simp only [allOk_cons, allOk_nil, and_true]
    exact hdrBlk_ok hi

theorem logWrite_ok (s : Fs) : AllOk (logWriteAccess s) := by
  rw [logWriteAccess]
  split
  · exact allOk_nil
  · simp only [allOk_cons, allOk_nil, and_true]
    exact logBlk_ok (by omega)

theorem virtioDiskRw_logN (s : Fs) (b : Nat) (w : Bool) : (virtioDiskRw s b w).1.logN = s.logN := by
  rw [virtioDiskRw]
  split
  · rfl
  · split <;> rfl

/-- A transaction never has more blocks than the log. -/
theorem logWrite_logN (h : s.logN ≤ LOGN) (dst : UInt32) (data : Block) :
    (logWrite s dst data).logN ≤ LOGN := by
  rw [logWrite]
  split
  · exact h
  · show (virtioDiskRw _ _ _).1.logN + 1 ≤ LOGN
    rw [virtioDiskRw_logN]
    show s.logN + 1 ≤ LOGN
    omega

theorem logData_logN (h : s.logN ≤ LOGN) (data : Nat → UInt8) (size : Int32) (start : Int)
    (nb : Nat) : (logData data size start nb s).logN ≤ LOGN := by
  induction nb with
  | zero => exact h
  | succ b ih => exact logWrite_logN ih _ _

theorem logData_ok (data : Nat → UInt8) (size : Int32) (start : Int) (nb : Nat) (s : Fs) :
    AllOk (logDataAccess data size start nb s) := by
  induction nb with
  | zero => exact allOk_nil
  | succ b ih =>
    rw [logDataAccess, allOk_append]
    exact ⟨ih, logWrite_ok _⟩

theorem commit_ok (h : s.logN ≤ LOGN) : AllOk (commitAccess s) := by
  rw [commitAccess]
  split
  · exact allOk_nil
  · split
    · exact allOk_nil
    · rw [allOk_append, allOk_append]
      refine ⟨⟨loghdr_ok _, ?_⟩, loghdr_ok _⟩
      exact allOk_upTo fun i hi => logBlk_ok (Nat.lt_of_lt_of_le hi h)

theorem dirLoop_ok : AllOk (upTo .dir MAXFILES) :=
  allOk_upTo fun i hi => dir_ok (Int.natCast_nonneg i) (Int.ofNat_lt.2 hi)

theorem meta_ok (h : s.logN ≤ LOGN) : AllOk (metaAccess s) := by
  simp only [metaAccess, allOk_append]
  refine ⟨⟨⟨dirLoop_ok, logWrite_ok _⟩, logWrite_ok _⟩, commit_ok ?_⟩
  exact logWrite_logN (logWrite_logN h _ _) _ _

theorem count_le (h : FsLoghdr) : h.count ≤ LOGN := by
  rw [FsLoghdr.count]
  split <;> omega

/-- Recovery indexes nothing out of bounds, whatever the header says. -/
theorem recover_ok (s : Fs) : AllOk (recoverAccess s) := by
  rw [recoverAccess]
  split
  · exact allOk_nil
  · have hle := count_le (FsLoghdr.ofBlock (s.disk LOGHDR))
    simp only [allOk_append]
    exact ⟨⟨⟨allOk_upTo fun i hi => hdrBlk_ok (by omega), allOk_upTo fun i hi => logBlk_ok (by omega)⟩,
      allOk_upTo fun i hi => logBlk_ok (by omega)⟩, loghdr_ok 0⟩

end Parts

section Calls
variable {s : Fs} {name : CStr} {size : Int32}

theorem stat_ok (h : Bounded s) : AllOk (statAccess s name) := by
  rw [statAccess]
  split
  · exact allOk_nil
  · rw [allOk_append]
    refine ⟨find_ok h, ?_⟩
    split
    · exact allOk_nil
    · rename_i i hf
      have hi := findName_lt hf
      have hle := h.le
      rw [allOk_cons]
      exact ⟨dir_ok (Int.natCast_nonneg i) (by omega), allOk_nil⟩

/-- A rounded size is a count of blocks, or wrapped to a large negative number. -/
theorem roundUp_range (h : 0 ≤ size.toInt) :
    0 ≤ ((size + 512 - 1) / 512).toInt ∨ ((size + 512 - 1) / 512).toInt < -DATASTART := by
  have hlt := size.toInt_lt
  have hd : (DATASTART : Int) = 19 := rfl
  rw [int32_round_up size h]
  split
  · left
    omega
  · right
    omega

theorem create_ok (h : Bounded s) (data : Nat → UInt8) : AllOk (createAccess s name data size) := by
  rw [createAccess]
  split
  · exact allOk_nil
  rename_i hg
  simp only [not_or, not_le] at hg
  obtain ⟨_, hroom, hs⟩ := hg
  have hs' : 0 ≤ size.toInt := by simpa using mt Int32.lt_iff_toInt_lt.2 hs
  rw [allOk_append]
  refine ⟨find_ok h, ?_⟩
  split
  · exact allOk_nil
  dsimp only
  split
  · exact allOk_nil
  rw [allOk_append]
  refine ⟨balloc_ok s (roundUp_range hs'), ?_⟩
  split
  · exact allOk_nil
  rename_i hneg
  have hnn : 0 ≤ ((size + 512 - 1) / 512).toInt := by
    rcases roundUp_range hs' with hh | hh
    · exact hh
    · rw [ballocContig_neg s _ hh] at hneg
      omega
  obtain ⟨st, hst, _, hle, _⟩ := ballocContig_spec (s := s) hnn (by omega)
  have hmax : Nat.max MAXBLK DATASTART = MAXBLK := by decide
  have hn : (logData data size (ballocContig s ((size + 512 - 1) / 512))
      ((size + 512 - 1) / 512).toInt.toNat (logBegin s)).nfiles = s.nfiles :=
    congrArg FsMem.nfiles (logData_mem data size _ _ (logBegin s))
  simp only [allOk_append, allOk_cons, hn]
  refine ⟨⟨⟨logData_ok _ _ _ _ _, dir_ok h.nonneg hroom, ?_⟩, ?_⟩, meta_ok ?_⟩
  · apply allOk_upTo
    intro k hk
    have hmin : Nat.min name.bytes.length (NAMELEN - 1) ≤ NAMELEN - 1 := Nat.min_le_right _ _
    have hlen : NAMELEN = 56 := rfl
    exact name_ok (by omega)
  · apply allOk_upTo
    intro b hb
    rw [hst]
    exact_mod_cast used_ok (b := st + b) (by omega)
  · exact logData_logN (Nat.zero_le _) _ _ _ _

theorem delete_ok (h : Bounded s) : AllOk (deleteAccess s name) := by
  rw [deleteAccess]
  split
  · exact allOk_nil
  rw [allOk_append]
  refine ⟨find_ok h, ?_⟩
  split
  · exact allOk_nil
  · rename_i idx hf
    have hi := findName_lt hf
    have hle := h.le
    simp only [allOk_append, allOk_cons]
    refine ⟨⟨⟨⟨dir_ok (Int.natCast_nonneg idx) (by omega), blocks_ok _ _⟩, ?_⟩,
      dir_ok (by omega) (by omega), ?_⟩, meta_ok (Nat.zero_le _)⟩
    · apply allOk_flatMap
      intro j hj
      simp only [allOk_cons, allOk_nil, and_true]
      exact ⟨dir_ok (by omega) (by omega), dir_ok (by omega) (by omega)⟩
    · exact allOk_upTo fun k hk => name_ok hk

theorem fsDelete_mem (hm : s.mounted = true) (hf : findName s name = some idx) :
    (fsDelete s name).1.mem = (removeEntry s idx).mem := by
  simp only [fsDelete, hm, Bool.not_true, Bool.false_eq_true, ↓reduceIte, hf]
  rw [logCommit_mem, logSuper, (logWrite_mem _ _ _).1, logDir, (logWrite_mem _ _ _).1]
  rfl

theorem Bounded.of_mem {t : Fs} (h : Bounded t) (hm : s.mem = t.mem) : Bounded s := by
  have hn : s.nfiles = t.nfiles := congrArg FsMem.nfiles hm
  refine ⟨?_, ?_, ?_⟩
  · rw [hn]
    exact h.nonneg
  · rw [hn]
    exact h.le
  · rw [hm]
    exact h.terminated

/-- Every call keeps the tables in bounds. -/
theorem Bounded.exec (h : Bounded s) (c : FsCall) : Bounded (c.exec s) := by
  cases c with
  | stat name => exact h
  | create name data size =>
    rw [FsCall.exec]
    rcases fsCreate_cases s name data size with he | ⟨start, nb, hc, he⟩
    · rw [he]
      exact h
    · have hroom := hc.room
      have h₀ := h.nonneg
      refine Bounded.of_mem (t := addEntry s name size ((size + 512 - 1) / 512) start) ?_
        (fsCreate_mem data start nb he)
      refine ⟨?_, ?_, addEntry_terminated h.terminated h₀ hc⟩
      · show 0 ≤ s.nfiles + 1
        omega
      · show s.nfiles + 1 ≤ MAXFILES
        omega
  | delete name =>
    rw [FsCall.exec]
    by_cases hm : s.mounted = true
    · cases hf : findName s name with
      | none =>
        simp only [fsDelete, hm, Bool.not_true, Bool.false_eq_true, ↓reduceIte, hf]
        exact h
      | some idx =>
        have hi := findName_lt hf
        have hle := h.le
        refine Bounded.of_mem (t := removeEntry s idx) ?_ (fsDelete_mem hm hf)
        refine ⟨?_, ?_, removeEntry_terminated h.terminated hi⟩
        · show 0 ≤ s.nfiles - 1
          omega
        · show s.nfiles - 1 ≤ MAXFILES
          omega
    · simp only [fsDelete, Bool.eq_false_iff.2 hm, Bool.not_false, ↓reduceIte]
      exact h

theorem call_ok (h : Bounded s) (c : FsCall) : AllOk (c.access s) := by
  cases c with
  | stat name => exact stat_ok h
  | create name data size => exact create_ok h data
  | delete name => exact delete_ok h

/-- From bounded tables, no sequence of calls leaves an array. -/
theorem accesses_ok (h : Bounded s) (cs : List FsCall) : AllOk (FsCall.accesses s cs) := by
  induction cs generalizing s with
  | nil => exact allOk_nil
  | cons c cs ih =>
    rw [FsCall.accesses, allOk_append]
    exact ⟨call_ok h c, ih (h.exec c)⟩

end Calls

/-- A mount of the disk leaves a usable directory, and neither it nor any sequence of calls after
it leaves an array. -/
def MountSafe (d : Nat → Block) : Prop :=
  (mount d).mounted = true →
    (0 ≤ (mount d).nfiles ∧ (mount d).nfiles ≤ MAXFILES ∧ AllTerminated (mount d).mem) ∧
      AllOk (initAccess d) ∧ ∀ cs, AllOk (FsCall.accesses (mount d) cs)

/-- The tables of a disk after recovery: the count is not negative as an `int`, and the names it
lists end. -/
def TablesOk (d : Nat → Block) : Prop :=
  (FsSuperblock.ofBlock (replay d 0)).nfiles.toNat < 2 ^ 31 ∧
    ∀ i, i < MAXFILES → i < (FsSuperblock.ofBlock (replay d 0)).nfiles.toNat →
      Terminated (FsDirent.ofBlock (replay d DIRBLOCK) i)

theorem clampFiles_nonneg (n : UInt32) : 0 ≤ clampFiles n ↔ n.toNat < 2 ^ 31 := by
  have hlt := n.toNat_lt
  have hmax : (MAXFILES : Int) = 8 := rfl
  rw [clampFiles, uint32_toInt_toInt32]
  simp only [Int.bmod]
  split <;> split <;> omega

theorem clampFiles_toNat (h : n.toNat < 2 ^ 31) : (clampFiles n).toNat = min MAXFILES n.toNat := by
  have hmax : (MAXFILES : Int) = 8 := rfl
  have hmax' : MAXFILES = 8 := rfl
  rw [clampFiles, uint32_toInt_toInt32]
  simp only [Int.bmod]
  split <;> split <;> omega

theorem clampFiles_le (n : UInt32) : clampFiles n ≤ MAXFILES := by
  rw [clampFiles]
  split <;> omega

section Mounted
variable {d : Nat → Block}

theorem Replayed.terminated_iff (h : Replayed d s)
    (hn : (FsSuperblock.ofBlock (replay d 0)).nfiles.toNat < 2 ^ 31) :
    AllTerminated s.mem ↔ ∀ i, i < MAXFILES → i < (FsSuperblock.ofBlock (replay d 0)).nfiles.toNat →
      Terminated (FsDirent.ofBlock (replay d DIRBLOCK) i) := by
  rw [AllTerminated, h.2.1]
  simp only [loadMem, clampFiles_toNat hn]
  apply forall_congr'
  intro i
  rw [Nat.lt_min, and_imp]
  apply imp_congr_right
  intro hi
  rw [loadDir, if_pos hi]

theorem bounded_mount (hm : (FsSuperblock.ofBlock (d 0)).magic = FS_MAGIC) (h : TablesOk d) :
    Bounded (mount d) := by
  have hr := mount_replayed hm
  refine ⟨?_, ?_, (hr.terminated_iff h.1).2 h.2⟩
  · rw [hr.nfiles]
    exact (clampFiles_nonneg _).2 h.1
  · rw [hr.nfiles]
    exact clampFiles_le _

theorem mountSafe_of_tablesOk (hm : (FsSuperblock.ofBlock (d 0)).magic = FS_MAGIC)
    (h : TablesOk d) : MountSafe d := by
  have hb := bounded_mount hm h
  intro _
  refine ⟨⟨hb.nonneg, hb.le, hb.terminated⟩, ?_, accesses_ok hb⟩
  rw [initAccess, allOk_append, allOk_append]
  exact ⟨⟨recover_ok _, dirLoop_ok⟩, bitmap_ok hb⟩

theorem MountSafe.tablesOk (hm : (FsSuperblock.ofBlock (d 0)).magic = FS_MAGIC)
    (h : MountSafe d) : TablesOk d := by
  have hr := mount_replayed hm
  obtain ⟨⟨h₀, _, ht⟩, _⟩ := h hr.mounted
  rw [hr.nfiles, clampFiles_nonneg] at h₀
  exact ⟨h₀, (hr.terminated_iff h₀).1 ht⟩

end Mounted

/-- Mounting a disk is safe exactly when the disk has no superblock or its tables are usable. -/
theorem mountSafe_iff (d : Nat → Block) :
    MountSafe d ↔ ((FsSuperblock.ofBlock (d 0)).magic = FS_MAGIC → TablesOk d) := by
  constructor
  · intro h hm
    exact h.tablesOk hm
  · intro h
    by_cases hm : (FsSuperblock.ofBlock (d 0)).magic = FS_MAGIC
    · exact mountSafe_of_tablesOk hm (h hm)
    · intro hmt
      rw [mount_refused hm] at hmt
      cases hmt

/-- A superblock that counts -1 files, in front of zeroed blocks. -/
def negativeDisk : Nat → Block := fun b =>
  if b = 0 then (FsSuperblock.mk FS_MAGIC 0xffffffff 19 256).toBlock else zeroBlock

theorem negativeDisk_super :
    FsSuperblock.ofBlock (negativeDisk 0) = ⟨FS_MAGIC, 0xffffffff, 19, 256⟩ := by
  rw [negativeDisk, if_pos rfl, FsSuperblock.ofBlock_toBlock]

theorem replay_negativeDisk : replay negativeDisk = negativeDisk := by
  have hlog : (FsLoghdr.ofBlock (negativeDisk LOGHDR)).committed = 0 := by
    have hz : negativeDisk LOGHDR = zeroBlock := if_neg (by decide)
    have hp : pendingOf zeroBlock = none := MkfsImage.pending_zeroBlock
    rw [hz]
    by_contra hc
    simp only [pendingOf, hc, ↓reduceIte] at hp
    cases hp
  simp only [replay, hlog, ↓reduceIte]

/-- With a negative count `fs_create` takes a slot in front of the directory. -/
theorem create_negative (hm : s.mounted = true) (hn : s.nfiles = -1) (data : Nat → UInt8) :
    Access.dir (-1) ∈ createAccess s nameA data 0 := by
  have hf : findName s nameA = none := by
    rw [findName, hn]
    rfl
  have hz : ((0 : Int32) + 512 - 1) / 512 = 0 := by decide
  have hb : ballocContig s 0 = 19 := rfl
  rw [createAccess, if_neg (by simp [hm, hn, MAXFILES])]
  simp only [hf, Option.isSome_none, Bool.false_eq_true, ↓reduceIte, hz, hb]
  rw [if_neg (by decide), if_neg (by decide)]
  simp [logData, logBegin, hn]

/-- The mount succeeds with -1 files, and the next `fs_create` writes in front of `dir`. -/
theorem not_mountSafe_negativeDisk :
    ¬ MountSafe negativeDisk ∧
      ∃ a ∈ createAccess (mount negativeDisk) nameA (fun _ => 0) 0, ¬ a.Ok := by
  have hmagic : (FsSuperblock.ofBlock (negativeDisk 0)).magic = FS_MAGIC := by
    rw [negativeDisk_super]
  have hr := mount_replayed hmagic
  have hn : (mount negativeDisk).nfiles = -1 := by
    rw [hr.nfiles, replay_negativeDisk, negativeDisk_super]
    decide
  refine ⟨?_, .dir (-1), create_negative hr.mounted hn _, fun h => absurd h.1 (by decide)⟩
  intro h
  have ht := (h.tablesOk hmagic).1
  rw [replay_negativeDisk, negativeDisk_super] at ht
  exact absurd ht (by decide)

end KernelHobby
