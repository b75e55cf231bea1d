import KernelHobby.FsCreate

namespace KernelHobby
set_option autoImplicit true

/-- A disk after the first `n` log blocks are copied to the blocks that `blks` names, in order. -/
def installed (blks : Nat → UInt32) : Nat → (Nat → Block) → Nat → Block
  | 0, d => d
  | i + 1, d =>
    let d := installed blks i d
    Function.update d (blks i).toNat (d (LOGSTART + i))

/-- The destinations in a log header. -/
def FsLoghdr.dst (h : FsLoghdr) : Nat → UInt32 := fun i => if hi : i < LOGN then h.blk ⟨i, hi⟩ else 0

/-- How many blocks recovery takes from a header. -/
def FsLoghdr.count (h : FsLoghdr) : Nat := if LOGN < h.n.toNat then LOGN else h.n.toNat

/-- A disk after recovery, whatever it holds. -/
def replay (d : Nat → Block) : Nat → Block :=
  let h := FsLoghdr.ofBlock (d LOGHDR)
  if h.committed = 0 then d
  else Function.update (installed h.dst h.count d) LOGHDR clearHdr.toBlock

/-- What a mount may find in the tables of a disk: the superblock before and after recovery, and
the directory. -/
def Replayed (d : Nat → Block) (s : Fs) : Prop :=
  s.disk = replay d ∧ s.mem = loadMem (d 0) (replay d) ∧ s.faults = []

theorem Replayed.nfiles (h : Replayed d s) :
    s.nfiles = clampFiles (FsSuperblock.ofBlock (replay d 0)).nfiles := by
  have hn := congrArg FsMem.nfiles h.2.1
  simpa only [Fs.mem, loadMem] using hn

theorem Replayed.mounted (h : Replayed d s) : s.mounted = true := by
  have hm := congrArg FsMem.mounted h.2.1
  simpa only [Fs.mem, loadMem] using hm

theorem logInstall_installed (blks : Nat → UInt32) (n : Nat) (h : s.faults = []) :
    ∃ buf tr, logInstall blks n s =
      { s with fsbuf := buf, disk := installed blks n s.disk, trace := tr } := by
  induction n with
  | zero => exact ⟨s.fsbuf, s.trace, rfl⟩
  | succ i ih =>
    obtain ⟨buf, tr, he⟩ := ih
    rw [logInstall, he, virtioDiskRw_read (by exact h), virtioDiskRw_write (by exact h)]
    exact ⟨_, _, rfl⟩

theorem recover_eq (s : Fs) : recover s =
    let s := (virtioDiskRw s LOGHDR false).1
    let h := FsLoghdr.ofBlock s.fsbuf
    if h.committed = 0 then s
    else (writeLoghdr (logInstall h.dst h.count s) 0 0 fun _ => 0).puts
      "[fs] recovered a committed log transaction\n" := rfl

/-- Recovery on any disk. -/
theorem recover_replay (h : s.faults = []) :
    ∃ buf tr out, recover s =
      { s with fsbuf := buf, disk := replay s.disk, trace := tr, uart := out } := by
  rw [recover_eq, virtioDiskRw_read h, replay]
  dsimp only
  split
  · exact ⟨_, _, _, rfl⟩
  · obtain ⟨buf, tr, he⟩ := logInstall_installed (s := { s with fsbuf := s.disk LOGHDR })
      (FsLoghdr.ofBlock (s.disk LOGHDR)).dst (FsLoghdr.ofBlock (s.disk LOGHDR)).count h
    rw [he, writeLoghdr_eq (by exact h), clearHdr_eq]
    exact ⟨_, _, _, rfl⟩

/-- Mounting any disk with a superblock. -/
theorem mount_replayed (hm : (FsSuperblock.ofBlock (d 0)).magic = FS_MAGIC) :
    Replayed d (mount d) := by
  obtain ⟨buf, tr, out, he⟩ := recover_replay (s := { Fs.boot d with
    fsbuf := d 0, totalBlocks := clampTotal (FsSuperblock.ofBlock (d 0)).totalBlocks }) rfl
  have hd : (Fs.boot d).disk 0 = d 0 := rfl
  rw [mount, fsInit, virtioDiskRw_read rfl]
  simp only [hd, ne_eq, not_true_eq_false, ↓reduceIte, hm]
  rw [he, loadTables_spec (by rfl) (by rfl)]
  simp only [Replayed, Fs.puts, Fs.dec, Fs.mem, loadMem, Fs.boot, and_self]

theorem mount_refused (hm : (FsSuperblock.ofBlock (d 0)).magic ≠ FS_MAGIC) :
    (mount d).mounted = false := by
  have hd : (Fs.boot d).disk 0 = d 0 := rfl
  rw [mount, fsInit, virtioDiskRw_read rfl]
  simp only [hd, ne_eq, not_true_eq_false, ↓reduceIte, hm, not_false_eq_true]
  rfl

end KernelHobby
