import KernelHobby.FsTxn

namespace KernelHobby
set_option autoImplicit true

def loadDir (b : Block) : Nat → FsDirent := fun i =>
  if i < MAXFILES then FsDirent.ofBlock b i else FsDirent.zero

/-- The in-memory state that mounting builds: `raw` is the superblock before recovery, `d` the
disk after it. -/
def loadMem (raw : Block) (d : Nat → Block) : FsMem :=
  let sb := FsSuperblock.ofBlock (d 0)
  let dir := loadDir (d DIRBLOCK)
  ⟨dir, clampFiles sb.nfiles, true, sb.nextFree, clampTotal (FsSuperblock.ofBlock raw).totalBlocks,
    fileBitmap dir (clampFiles sb.nfiles).toNat⟩

theorem dests_pending (h : FsLoghdr) :
    dests (fun i => if hi : i < LOGN then h.blk ⟨i, hi⟩ else 0)
        (if LOGN < h.n.toNat then LOGN else h.n.toNat) =
      ((List.finRange LOGN).map fun i => (h.blk i).toNat).take h.n.toNat := by
  apply List.ext_getElem
  · simp only [dests_length, List.length_take, List.length_map, List.length_finRange]
    split <;> omega
  · intro i h₁ h₂
    simp only [List.length_take, List.length_map, List.length_finRange] at h₂
    have hi : i < LOGN := by omega
    simp only [dests, List.getElem_map, List.getElem_range, hi, ↓reduceDIte, List.getElem_take,
      List.getElem_finRange, Fin.cast_mk]

def recovered : UartOut := .puts "[fs] recovered a committed log transaction\n"

/-- Recovery makes exactly the writes of the journal's recovery. -/
theorem recover_spec (h : s.faults = []) (hs : fsJournal.Sound s.disk) :
    ∃ buf out, recover s =
      { s with fsbuf := buf, uart := s.uart ++ out,
               disk := applyWrites s.disk (fsJournal.recovery s.disk),
               trace := s.trace ++ fsJournal.recovery s.disk } ∧
      ∀ o ∈ out, o = recovered := by
  simp only [recover]
  rw [virtioDiskRw_read h]
  dsimp only
  by_cases hc : (FsLoghdr.ofBlock (s.disk LOGHDR)).committed = 0
  · have hp : fsJournal.pending (s.disk fsJournal.hdr) = none := by
      show pendingOf (s.disk LOGHDR) = none
      simp only [pendingOf, hc, ↓reduceIte]
    rw [if_pos hc, fsJournal.recovery_none hp]
    exact ⟨s.disk LOGHDR, [], by simp only [applyWrites, List.append_nil], by simp⟩
  · set h' := FsLoghdr.ofBlock (s.disk LOGHDR) with hh'
    set n := if LOGN < h'.n.toNat then LOGN else h'.n.toNat with hn
    set blks : Nat → UInt32 := fun i => if hi : i < LOGN then h'.blk ⟨i, hi⟩ else 0 with hblks
    have hp : fsJournal.pending (s.disk fsJournal.hdr) = some (dests blks n) := by
      rw [hblks, hn, dests_pending]
      show pendingOf (s.disk LOGHDR) = _
      simp only [pendingOf, ← hh', hc, ↓reduceIte]
    have hr := fsJournal.recovery_some hp
    rw [fsJournal.owed_some hp] at hr
    have ha : ∀ b ∈ dests blks n, ¬ fsJournal.Area b := by
      intro b hb
      have hd : dests blks n = (fsJournal.owed s.disk).map Prod.fst := by
        rw [fsJournal.owed_some hp, fsJournal.redo_fst]
      obtain ⟨w, hw, rfl⟩ := List.mem_map.1 (hd ▸ hb)
      exact hs w hw
    obtain ⟨buf, he⟩ := logInstall_spec blks (s := { s with fsbuf := s.disk LOGHDR }) h
      (by rw [hn]; split <;> omega) ha
    rw [if_neg hc, he, writeLoghdr_eq (by exact h), clearHdr_eq, hr, applyWrites_append]
    refine ⟨clearHdr.toBlock, [recovered], ?_, by simp⟩
    simp only [applyWrites, Fs.puts, List.append_assoc]
    rfl

theorem loadTables_spec (h : s.faults = []) (hd : s.dir = fun _ => FsDirent.zero) :
    loadTables s =
      let sb := FsSuperblock.ofBlock (s.disk 0)
      let dir := loadDir (s.disk DIRBLOCK)
      { s with fsbuf := s.disk DIRBLOCK, nfiles := clampFiles sb.nfiles, nextFree := sb.nextFree,
               dir := dir, used := fileBitmap dir (clampFiles sb.nfiles).toNat, mounted := true } := by
  simp only [loadTables]
  rw [virtioDiskRw_read h, virtioDiskRw_read (by exact h)]
  simp only [buildBitmap, hd]
  rfl

/-- Mounting: recovery's writes, then the state read off the recovered disk. -/
theorem fsInit_spec (h : s.faults = []) (hz : s.dir = fun _ => FsDirent.zero)
    (hs : fsJournal.Sound s.disk) (hm : (FsSuperblock.ofBlock (s.disk 0)).magic = FS_MAGIC) :
    ∃ out, .puts tooLarge ∉ out ∧
      let d := applyWrites s.disk (fsJournal.recovery s.disk)
      let m := loadMem (s.disk 0) d
      fsInit s =
        { s with
          disk := d, trace := s.trace ++ fsJournal.recovery s.disk, uart := s.uart ++ out,
          fsbuf := d DIRBLOCK, dir := m.dir, nfiles := m.nfiles, mounted := true,
          nextFree := m.nextFree, totalBlocks := m.totalBlocks, used := m.used } := by
  obtain ⟨buf, out, he, ho⟩ := recover_spec (s := { s with
    fsbuf := s.disk 0, totalBlocks := clampTotal (FsSuperblock.ofBlock (s.disk 0)).totalBlocks })
    h hs
  refine ⟨out ++ [.puts "[ok] filesystem mounted (journaled): "] ++
    [.dec (clampFiles (FsSuperblock.ofBlock
      (applyWrites s.disk (fsJournal.recovery s.disk) 0)).nfiles)] ++ [.puts " files\n"], ?_, ?_⟩
  · simp only [List.mem_append, List.mem_singleton, not_or]
    refine ⟨⟨⟨?_, by decide⟩, by simp⟩, by decide⟩
    intro hmem
    exact absurd (ho _ hmem) (by decide)
  · simp only [fsInit]
    rw [virtioDiskRw_read h]
    simp only [ne_eq, not_true_eq_false, ↓reduceIte, hm]
    rw [he, loadTables_spec (by exact h) (by exact hz)]
    simp only [Fs.puts, Fs.dec, loadMem, List.append_assoc]

/-- The file system at power-on, mounted. -/
def mount (d : Nat → Block) : Fs := fsInit (Fs.boot d)

theorem mount_spec (hs : fsJournal.Sound d) (hm : (FsSuperblock.ofBlock (d 0)).magic = FS_MAGIC) :
    (mount d).disk = applyWrites d (fsJournal.recovery d) ∧
      (mount d).trace = fsJournal.recovery d ∧ (mount d).faults = [] ∧
      (mount d).mem = loadMem (d 0) (applyWrites d (fsJournal.recovery d)) ∧
      UartOut.puts tooLarge ∉ (mount d).uart := by
  obtain ⟨out, ho, he⟩ := fsInit_spec (s := Fs.boot d) rfl rfl hs hm
  rw [mount, he]
  refine ⟨rfl, rfl, rfl, ?_, ho⟩
  simp only [Fs.mem, loadMem, Fs.boot]

end KernelHobby
