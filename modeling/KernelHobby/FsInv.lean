import KernelHobby.FsOps
import KernelHobby.Mkfs

namespace KernelHobby
set_option autoImplicit true

/-- The number of blocks that hold `size` bytes. -/
def blocksOf (size : UInt32) : Nat := (size.toNat + 511) / 512

/-- A length cut to 32 bits needs no more blocks than the length itself. -/
theorem blocksOf_ofNat_le (n : Nat) : blocksOf (UInt32.ofNat n) ≤ (n + 511) / 512 := by
  rw [blocksOf, UInt32.toNat_ofNat']
  have h := Nat.mod_le n (2 ^ 32)
  omega

/-- The extent of an entry lies in the data area and its block numbers do not wrap. -/
def ExtentOk (e : FsDirent) : Prop :=
  DATASTART ≤ e.start.toNat ∧ e.start.toNat + blocksOf e.size ≤ 2 ^ 32

/-- The in-memory state, before what it says about the disk. -/
structure MemOk (m : FsMem) : Prop where
  mounted : m.mounted = true
  nfiles_nonneg : 0 ≤ m.nfiles
  nfiles_le : m.nfiles ≤ MAXFILES
  total_ge : DATASTART ≤ m.totalBlocks.toNat
  total_le : m.totalBlocks.toNat ≤ MAXBLK
  slots : ∀ i, MAXFILES ≤ i → m.dir i = FsDirent.zero
  extents : ∀ i, i < m.nfiles.toNat → ExtentOk (m.dir i)

/-- The disk holds the in-memory state and an empty log. -/
structure OnDisk (m : FsMem) (d : Nat → Block) : Prop where
  magic : (FsSuperblock.ofBlock (d 0)).magic = FS_MAGIC
  nfiles : (FsSuperblock.ofBlock (d 0)).nfiles = UInt32.ofInt m.nfiles
  nextFree : (FsSuperblock.ofBlock (d 0)).nextFree = m.nextFree
  total : clampTotal (FsSuperblock.ofBlock (d 0)).totalBlocks = m.totalBlocks
  dir : d DIRBLOCK = dirBlock m.dir
  log : fsJournal.pending (d LOGHDR) = none

structure FsWf (s : Fs) : Prop where
  faults : s.faults = []
  mem : MemOk s.mem
  disk : OnDisk s.mem s.disk

theorem clampFiles_ofInt {n : Int} (h₀ : 0 ≤ n) (h₁ : n ≤ MAXFILES) :
    clampFiles (UInt32.ofInt n) = n := by
  simp only [MAXFILES, Nat.cast_ofNat] at h₁
  have hn : (UInt32.ofInt n).toInt32.toInt = n := by
    rw [uint32_toInt_toInt32, uint32_toNat_ofInt]
    simp only [Int.bmod]
    split <;> omega
  rw [clampFiles, hn, if_neg]
  simp only [MAXFILES, Nat.cast_ofNat]
  omega

theorem clampTotal_of_le (h₀ : DATASTART ≤ t.toNat) (h₁ : t.toNat ≤ MAXBLK) : clampTotal t = t := by
  have hz : t ≠ 0 := by
    rintro rfl
    exact absurd h₀ (by decide)
  rw [clampTotal, if_neg]
  rintro (h | h)
  · exact hz h
  · omega

theorem loadDir_dirBlock (h : ∀ i, MAXFILES ≤ i → dir i = FsDirent.zero) :
    loadDir (dirBlock dir) = dir := by
  funext i
  rw [loadDir]
  split
  · rename_i hi
    rw [FsDirent.ofBlock_dirBlock dir hi]
  · rename_i hi
    rw [h i (by omega)]

theorem OnDisk.sound (h : OnDisk m d) : fsJournal.Sound d := by
  intro w hw
  rw [fsJournal.owed_none h.log] at hw
  cases hw

/-- Mounting a disk with an empty log rebuilds the state it holds, up to the bitmap. -/
theorem OnDisk.loadMem (hm : MemOk m) (h : OnDisk m d) :
    loadMem (d 0) d = { m with used := fileBitmap m.dir m.nfiles.toNat } := by
  have hn := clampFiles_ofInt hm.nfiles_nonneg hm.nfiles_le
  simp only [KernelHobby.loadMem, h.nfiles, hn, h.nextFree, h.total, h.dir,
    loadDir_dirBlock hm.slots, hm.mounted]

theorem OnDisk.mount (hm : MemOk m) (h : OnDisk m d) :
    (mount d).disk = d ∧ (mount d).trace = [] ∧ (mount d).faults = [] ∧
      (mount d).mem = { m with used := fileBitmap m.dir m.nfiles.toNat } ∧
      UartOut.puts tooLarge ∉ (mount d).uart := by
  obtain ⟨h₁, h₂, h₃, h₄, h₅⟩ := mount_spec h.sound h.magic
  rw [fsJournal.recovery_none h.log] at h₁ h₂ h₄
  exact ⟨h₁, h₂, h₃, h₄.trans (h.loadMem hm), h₅⟩

theorem FsWf.remount (h : FsWf s) : FsWf (mount s.disk) := by
  obtain ⟨h₁, h₂, h₃, h₄, _⟩ := h.disk.mount h.mem
  refine ⟨h₃, ?_, ?_⟩
  · rw [h₄]
    exact ⟨h.mem.mounted, h.mem.nfiles_nonneg, h.mem.nfiles_le, h.mem.total_ge, h.mem.total_le,
      h.mem.slots, h.mem.extents⟩
  · rw [h₁, h₄]
    exact ⟨h.disk.magic, h.disk.nfiles, h.disk.nextFree, h.disk.total, h.disk.dir, h.disk.log⟩

section Effects
variable {s s' : Fs} {ws : List (Nat × Block)} {m : FsMem}

theorem Effect.disk_eq (h : Effect s ws m s') (hb : ¬ fsJournal.Area b) :
    s'.disk b = applyWrites s.disk (ws ++ m.metaWrites) b := by
  rw [h.disk]
  exact (fsJournal.txn_complete h.length).2 b hb

theorem metaWrites_super (m : FsMem) (d : Nat → Block) :
    applyWrites d m.metaWrites 0 = m.super.toBlock := by
  simp only [FsMem.metaWrites, applyWrites, Function.update_self]

theorem metaWrites_dir (m : FsMem) (d : Nat → Block) :
    applyWrites d m.metaWrites DIRBLOCK = dirBlock m.dir := by
  have hne : DIRBLOCK ≠ 0 := by decide
  simp only [FsMem.metaWrites, applyWrites, Function.update_of_ne hne, Function.update_self]

theorem metaWrites_data (m : FsMem) (d : Nat → Block) (hb : DATASTART ≤ b) :
    applyWrites d m.metaWrites b = d b := by
  apply applyWrites_other
  intro w hw he
  simp only [DATASTART, LOGSTART, LOGN] at hb
  simp only [FsMem.metaWrites, List.mem_cons, List.not_mem_nil, or_false] at hw
  rcases hw with rfl | rfl <;> simp only [DIRBLOCK] at he <;> omega

theorem Effect.disk_data (h : Effect s ws m s') (hb : DATASTART ≤ b) :
    s'.disk b = applyWrites s.disk ws b := by
  have ha : ¬ fsJournal.Area b := by
    rw [fsJournal_area]
    simp only [DATASTART, LOGSTART, LOGN] at hb
    omega
  rw [h.disk_eq ha, applyWrites_append, metaWrites_data m _ hb]

/-- A transaction puts the new in-memory state on the disk. -/
theorem Effect.onDisk (h : Effect s ws m s') (hm : MemOk m) : OnDisk m s'.disk := by
  have h0 : s'.disk 0 = m.super.toBlock := by
    rw [h.disk_eq (by rw [fsJournal_area]; omega), applyWrites_append, metaWrites_super]
  have h1 : s'.disk DIRBLOCK = dirBlock m.dir := by
    rw [h.disk_eq (by rw [fsJournal_area, DIRBLOCK]; omega), applyWrites_append, metaWrites_dir]
  have h2 : s'.disk LOGHDR = fsJournal.clear := by
    rw [h.disk]
    exact (fsJournal.txn_complete h.length).1
  refine ⟨?_, ?_, ?_, ?_, h1, ?_⟩
  · rw [h0, FsSuperblock.ofBlock_toBlock]
    rfl
  · rw [h0, FsSuperblock.ofBlock_toBlock]
    rfl
  · rw [h0, FsSuperblock.ofBlock_toBlock]
    rfl
  · rw [h0, FsSuperblock.ofBlock_toBlock]
    exact clampTotal_of_le hm.total_ge hm.total_le
  · rw [h2]
    exact fsJournal.pending_clear

theorem Effect.wf (h : Effect s ws m s') (hm : MemOk m) : FsWf s' := by
  refine ⟨h.faults, ?_, ?_⟩
  · rw [h.mem]
    exact hm
  · rw [h.mem]
    exact h.onDisk hm

end Effects

section Memory
variable {s : Fs} {name : CStr} {size : Int32} {start nb : Nat}

theorem CreateOk.start_toNat (h : CreateOk s name size start nb) :
    (UInt32.ofInt start).toNat = start := by
  have hle := h.start_le
  simp only [MAXBLK] at hle
  rw [uint32_toNat_ofInt]
  omega

theorem CreateOk.size_toNat (h : CreateOk s name size start nb) :
    size.toUInt32.toNat = size.toInt.toNat := by
  have hu := int32_toNat_toUInt32 size
  have h₀ := h.nonneg
  have h₁ := size.toInt_lt
  omega

theorem CreateOk.blocksOf (h : CreateOk s name size start nb) :
    blocksOf size.toUInt32 = nb := by
  rw [KernelHobby.blocksOf, h.size_toNat, h.blocks]

theorem addEntry_memOk (hm : MemOk s.mem) (h : CreateOk s name size start nb) :
    MemOk (addEntry s name size ((size + 512 - 1) / 512) start).mem := by
  have hr : s.nfiles < 8 := h.room
  have h₀ : 0 ≤ s.nfiles := hm.nfiles_nonneg
  refine ⟨h.mounted, ?_, ?_, hm.total_ge, hm.total_le, ?_, ?_⟩
  · show 0 ≤ s.nfiles + 1
    omega
  · show s.nfiles + 1 ≤ 8
    omega
  · intro i hi
    have hne : i ≠ s.nfiles.toNat := by
      simp only [MAXFILES] at hi
      omega
    show Function.update s.dir s.nfiles.toNat _ i = _
    rw [Function.update_of_ne hne]
    exact hm.slots i hi
  · intro i hi
    have hi' : i < (s.nfiles + 1).toNat := hi
    show ExtentOk (Function.update s.dir s.nfiles.toNat _ i)
    by_cases he : i = s.nfiles.toNat
    · subst he
      rw [Function.update_self]
      have hle := h.start_le
      simp only [MAXBLK] at hle
      refine ⟨?_, ?_⟩
      · rw [h.start_toNat]
        exact h.start_ge
      · rw [h.start_toNat, h.blocksOf]
        omega
    · rw [Function.update_of_ne he]
      exact hm.extents i (by show i < s.nfiles.toNat; omega)

theorem findName_lt (h : findName s name = some i) : i < s.nfiles.toNat :=
  List.mem_range.1 (List.mem_of_find?_eq_some h)

theorem removeEntry_memOk (hm : MemOk s.mem) (hi : idx < s.nfiles.toNat) :
    MemOk (removeEntry s idx).mem := by
  have h₁ : s.nfiles ≤ 8 := hm.nfiles_le
  refine ⟨hm.mounted, ?_, ?_, hm.total_ge, hm.total_le, ?_, ?_⟩
  · show 0 ≤ s.nfiles - 1
    omega
  · show s.nfiles - 1 ≤ 8
    omega
  · intro j hj
    simp only [MAXFILES] at hj
    simp only [removeEntry, Fs.mem]
    rw [if_neg (by omega), if_neg (by omega)]
    exact hm.slots j hj
  · intro j hj
    have hj' : j < (s.nfiles - 1).toNat := hj
    simp only [removeEntry, Fs.mem]
    rw [if_neg (by omega)]
    split
    · exact hm.extents (j + 1) (by show j + 1 < s.nfiles.toNat; omega)
    · exact hm.extents j (by show j < s.nfiles.toNat; omega)

end Memory

/-- A call refuses and changes nothing, or adds an entry, or removes one. -/
theorem Call.exec_inv (h : FsWf s) (c : Call) :
    c.exec s = (s, -1) ∨ (c.exec s).2 = 0 ∧
      ((∃ name data size start nb, c = .create name data size ∧ CreateOk s name size start nb ∧
          Effect s (dataWrites data size start nb)
            (addEntry s name size ((size + 512 - 1) / 512) start).mem (c.exec s).1) ∨
        ∃ name idx, c = .delete name ∧ findName s name = some idx ∧
          Effect s [] (removeEntry s idx).mem (c.exec s).1) := by
  cases c with
  | create name data size =>
    rcases fsCreate_cases s name data size with he | ⟨start, nb, hc, he⟩
    · exact .inl he
    · simp only [exec, he]
      exact .inr ⟨trivial, .inl ⟨name, data, size, start, nb, rfl, hc, fsCreate_effect h.faults hc⟩⟩
  | delete name =>
    have hm : s.mounted = true := h.mem.mounted
    simp only [exec, fsDelete, hm, Bool.not_true, Bool.false_eq_true, ↓reduceIte]
    cases hf : findName s name with
    | none => exact .inl rfl
    | some idx => exact .inr ⟨rfl, .inr ⟨name, idx, rfl, hf, fsDelete_effect h.faults⟩⟩

/-- A call either changes nothing at all, or is one transaction that leads to a state which
is well formed again. -/
theorem Call.exec_cases (h : FsWf s) (c : Call) :
    c.exec s = (s, -1) ∨
      ∃ ws m, Effect s ws m (c.exec s).1 ∧ MemOk m ∧ m.nfiles ≠ s.nfiles ∧ (c.exec s).2 = 0 := by
  rcases c.exec_inv h with he | ⟨hr, ⟨name, data, size, start, nb, _, hc, he⟩ | ⟨name, idx, _, hf, he⟩⟩
  · exact .inl he
  · refine .inr ⟨_, _, he, addEntry_memOk h.mem hc, ?_, hr⟩
    show s.nfiles + 1 ≠ s.nfiles
    omega
  · refine .inr ⟨_, _, he, removeEntry_memOk h.mem (findName_lt hf), ?_, hr⟩
    show s.nfiles - 1 ≠ s.nfiles
    omega

theorem FsWf.exec (h : FsWf s) (c : Call) : FsWf (c.exec s).1 := by
  rcases c.exec_cases h with he | ⟨ws, m, he, hm, _⟩
  · rw [he]
    exact h
  · exact he.wf hm

end KernelHobby
