import KernelHobby.FsExtents

namespace KernelHobby
set_option autoImplicit true

/-- The directory together with the contents of the files it lists. -/
structure FsView where
  dir : Nat → FsDirent
  nfiles : Int
  data : List (List UInt8)

def FsMem.view (m : FsMem) (d : Nat → Block) : FsView :=
  ⟨m.dir, m.nfiles, (List.range m.nfiles.toNat).map fun i => contents d (m.dir i)⟩

def Fs.view (s : Fs) : FsView := s.mem.view s.disk

/-- The block writes that a call issues. -/
def Call.writes (s : Fs) (c : Call) : List (Nat × Block) :=
  (c.exec s).1.trace.drop s.trace.length

/-- The disk after mounts that crash one after the other, the first after `k` of its writes. -/
def crashedMounts : List Nat → (Nat → Block) → Nat → Block
  | [], d => d
  | k :: ks, d => crashedMounts ks (applyWrites d ((mount d).trace.take k))

/-- The log-header write that commits a transaction. -/
def CommitWrite (w : Nat × Block) : Prop :=
  w.1 = LOGHDR ∧ (FsLoghdr.ofBlock w.2).committed = 1

theorem FsMem.view_congr (hm : MemOk m) (hd : ∀ b, DATASTART ≤ b → d b = d' b) :
    m.view d = m.view d' := by
  simp only [FsMem.view, FsView.mk.injEq, true_and]
  apply List.map_congr_left
  intro i hi
  have he := hm.extents i (List.mem_range.1 hi)
  exact contents_congr he fun b hb => hd b (Nat.le_trans he.1 hb.1)

theorem not_area_of_data (hb : DATASTART ≤ b) : ¬ fsJournal.Area b := by
  rw [fsJournal_area]
  simp only [DATASTART, LOGSTART, LOGN] at hb
  omega

/-- The disk `d` means the disk `e`: recovery leads from the one to the other, and a
superblock is found on the way. -/
structure Means (e d : Nat → Block) : Prop where
  sound : fsJournal.Sound d
  logical : ∀ b, ¬ fsJournal.Area b → fsJournal.logical d b = e b
  magic : (FsSuperblock.ofBlock (d 0)).magic = FS_MAGIC
  owed : ∀ w ∈ fsJournal.owed d, w.1 = 0 → (FsSuperblock.ofBlock w.2).magic = FS_MAGIC

/-- A mount that crashes leaves a disk with the same meaning. -/
theorem Means.crash (h : Means e d) (k : Nat) :
    Means e (applyWrites d ((mount d).trace.take k)) := by
  rw [(mount_spec h.sound h.magic).2.1]
  refine ⟨fsJournal.sound_recovery_take h.sound k, ?_, ?_, ?_⟩
  · intro b hb
    rw [fsJournal.logical_recovery_take h.sound k hb, h.logical b hb]
  · apply applyWrites_prop (P := fun x => (FsSuperblock.ofBlock x).magic = FS_MAGIC) h.magic
    intro w hw h0
    have hm := List.mem_of_mem_take hw
    cases hp : fsJournal.pending (d fsJournal.hdr) with
    | none =>
      rw [fsJournal.recovery_none hp] at hm
      cases hm
    | some bs =>
      rw [fsJournal.recovery_some hp, List.mem_append, List.mem_singleton] at hm
      rcases hm with hm | rfl
      · exact h.owed w hm h0
      · exact absurd h0 (by decide)
  · intro w hw h0
    rcases fsJournal.owed_recovery_take h.sound k with ho | ⟨ho, _⟩
    · exact h.owed w (ho ▸ hw) h0
    · rw [ho] at hw
      cases hw

theorem Means.crashedMounts (h : Means e d) (ks : List Nat) : Means e (crashedMounts ks d) := by
  induction ks generalizing d with
  | nil => exact h
  | cons k ks ih => exact ih (h.crash k)

/-- A mount that completes shows what the disk means. -/
theorem Means.mount (h : Means e d) (hm : MemOk m) (he : OnDisk m e) :
    (mount d).mounted = true ∧ (mount d).view = m.view e := by
  obtain ⟨h₁, _, _, h₄, _⟩ := mount_spec h.sound h.magic
  set r := applyWrites d (fsJournal.recovery d) with hr
  have hre (b : Nat) (hb : ¬ fsJournal.Area b) : r b = e b := by
    rw [hr, (fsJournal.recovery_complete d).2 b hb, h.logical b hb]
  have hdir : (loadMem (d 0) r).dir = m.dir := by
    simp only [loadMem]
    rw [hre DIRBLOCK (by rw [fsJournal_area, DIRBLOCK]; omega), he.dir, loadDir_dirBlock hm.slots]
  have hnf : (loadMem (d 0) r).nfiles = m.nfiles := by
    simp only [loadMem]
    rw [hre 0 (by rw [fsJournal_area]; omega), he.nfiles,
      clampFiles_ofInt hm.nfiles_nonneg hm.nfiles_le]
  refine ⟨?_, ?_⟩
  · have hmt : (KernelHobby.mount d).mem.mounted = true := by rw [h₄]; rfl
    exact hmt
  · rw [Fs.view, h₁, h₄, ← FsMem.view_congr hm (d := r) fun b hb => hre b (not_area_of_data hb)]
    simp only [FsMem.view, hdir, hnf]

section Crash
variable {s s' : Fs} {ws : List (Nat × Block)} {m : FsMem}

theorem Effect.super_magic (h : Effect s ws m s') (hw : w ∈ ws ++ m.metaWrites) (h0 : w.1 = 0) :
    (FsSuperblock.ofBlock w.2).magic = FS_MAGIC := by
  rcases List.mem_append.1 hw with hw | hw
  · have hd := (h.dst w hw).1
    simp only [DATASTART, LOGSTART, LOGN] at hd
    omega
  · simp only [FsMem.metaWrites, List.mem_cons, List.not_mem_nil, or_false] at hw
    rcases hw with rfl | rfl
    · exact absurd h0 Nat.one_ne_zero
    · rw [FsSuperblock.ofBlock_toBlock]
      rfl

/-- A prefix of the transaction's writes touches the superblock only to write another one. -/
theorem Effect.magic_take (h : Effect s ws m s')
    (hm : (FsSuperblock.ofBlock (s.disk 0)).magic = FS_MAGIC) (k : Nat) :
    (FsSuperblock.ofBlock
      (applyWrites s.disk ((fsJournal.txn (ws ++ m.metaWrites)).take k) 0)).magic = FS_MAGIC := by
  apply applyWrites_prop (P := fun x => (FsSuperblock.ofBlock x).magic = FS_MAGIC) hm
  intro w hw h0
  have hmem := List.mem_of_mem_take hw
  rw [Journal.txn, List.mem_append, List.mem_cons, List.mem_append, List.mem_singleton] at hmem
  rcases hmem with hf | rfl | ht | rfl
  · have ha := fsJournal.fill_area h.length hf
    rw [h0, fsJournal_area] at ha
    omega
  · exact absurd h0 (Nat.succ_ne_zero 1)
  · exact h.super_magic ht h0
  · exact absurd h0 (Nat.succ_ne_zero 1)

theorem Effect.means_before (h : Effect s ws m s') (hs : OnDisk m₀ s.disk)
    (hk : k ≤ (ws ++ m.metaWrites).length) :
    Means s.disk (applyWrites s.disk ((fsJournal.txn (ws ++ m.metaWrites)).take k)) := by
  obtain ⟨ho, hl⟩ := fsJournal.txn_before hs.log h.length hk
  refine ⟨?_, hl, h.magic_take hs.magic k, ?_⟩
  · intro w hw
    rw [ho] at hw
    cases hw
  · intro w hw
    rw [ho] at hw
    cases hw

theorem Effect.means_after (h : Effect s ws m s') (hs : OnDisk m₀ s.disk)
    (hk : (ws ++ m.metaWrites).length < k) :
    Means s'.disk (applyWrites s.disk ((fsJournal.txn (ws ++ m.metaWrites)).take k)) := by
  have hc : fsJournal.pending (fsJournal.commit ((ws ++ m.metaWrites).map Prod.fst)) =
      some ((ws ++ m.metaWrites).map Prod.fst) := by
    apply pending_commit
    · rw [List.length_map]
      exact h.length
    · intro b hb
      obtain ⟨w, hw, rfl⟩ := List.mem_map.1 hb
      exact (h.dst_lt hw).2
  obtain ⟨ho, hl⟩ := fsJournal.txn_after (d := s.disk) hc h.length (fun w hw => (h.dst_lt hw).1) hk
  have hmem : ∀ w ∈ fsJournal.owed
      (applyWrites s.disk ((fsJournal.txn (ws ++ m.metaWrites)).take k)),
      w ∈ ws ++ m.metaWrites := by
    intro w hw
    rcases ho with ho | ho
    · exact ho ▸ hw
    · rw [ho] at hw
      cases hw
  refine ⟨fun w hw => (h.dst_lt (hmem w hw)).1, ?_, h.magic_take hs.magic k,
    fun w hw h0 => h.super_magic (hmem w hw) h0⟩
  intro b hb
  rw [hl b hb, h.disk_eq hb]

/-- The commit write belongs to a prefix as soon as the prefix is longer than the log fill. -/
theorem commit_mem_txn (t : List (Nat × Block)) (k : Nat) :
    (∃ w ∈ (fsJournal.txn t).take k, CommitWrite w) ↔ t.length < k := by
  constructor
  · rintro ⟨w, hw, hc⟩
    by_contra hk
    rw [fsJournal.txn_take_le (by omega)] at hw
    have hf := fsJournal.fill_mem (List.mem_of_mem_take hw)
    rw [hc.1, fsJournal_start, LOGSTART, LOGHDR] at hf
    omega
  · intro hk
    refine ⟨(LOGHDR, fsJournal.commit (t.map Prod.fst)), ?_, rfl, ?_⟩
    · rw [fsJournal.txn_take_gt hk, List.mem_append]
      exact .inr List.mem_cons_self
    · show (FsLoghdr.ofBlock (commitHdr _).toBlock).committed = 1
      rw [FsLoghdr.ofBlock_toBlock]
      rfl

theorem Effect.writes {c : Call} (h : Effect s ws m (c.exec s).1) :
    c.writes s = fsJournal.txn (ws ++ m.metaWrites) := by
  rw [Call.writes, h.trace, List.drop_left]

end Crash

/-- A call that crashes after any of its writes, followed by any number of mounts that crash
and one that does not, has happened entirely or not at all; it has happened exactly when the
commit write reached the disk. -/
theorem crash_atomic (h : Reachable img s) (c : Call) (hw : c.writes s ≠ []) (k : Nat)
    (ks : List Nat) :
    let found := mount (crashedMounts ks (applyWrites s.disk ((c.writes s).take k)))
    found.mounted = true ∧ (found.view = s.view ∨ found.view = (c.exec s).1.view) ∧
      (found.view = (c.exec s).1.view ↔ ∃ w ∈ (c.writes s).take k, CommitWrite w) := by
  rcases c.exec_cases h.wf with he | ⟨ws, m, he, hm, hne, _⟩
  · rw [Call.writes, he, List.drop_length] at hw
    exact absurd rfl hw
  have hdisk := h.wf.disk
  have hview : s.view ≠ (c.exec s).1.view := by
    intro hv
    apply hne
    rw [← he.mem]
    exact (congrArg FsView.nfiles hv).symm
  have hmv : (c.exec s).1.view = m.view (c.exec s).1.disk := by rw [Fs.view, he.mem]
  rw [he.writes, commit_mem_txn]
  by_cases hk : (ws ++ m.metaWrites).length < k
  · obtain ⟨h₁, h₂⟩ := ((he.means_after hdisk hk).crashedMounts ks).mount hm (he.onDisk hm)
    rw [← hmv] at h₂
    exact ⟨h₁, .inr h₂, fun _ => hk, fun _ => h₂⟩
  · have hk' : k ≤ (ws ++ m.metaWrites).length := by omega
    obtain ⟨h₁, h₂⟩ := ((he.means_before hdisk hk').crashedMounts ks).mount h.wf.mem hdisk
    refine ⟨h₁, .inl h₂, ?_, fun hh => absurd hh hk⟩
    intro hv
    exact absurd (h₂.symm.trans hv) hview

theorem Call.writes_of_success (h : FsWf s) (c : Call) (hr : (c.exec s).2 = 0) :
    c.writes s ≠ [] := by
  rcases c.exec_cases h with he | ⟨ws, m, he, _⟩
  · rw [he] at hr
    cases hr
  · rw [he.writes, Journal.txn]
    simp

theorem crash_atomic_delete :
    let s := mount emptyFileImage.disk
    let c := Call.delete nameA
    let found := mount (crashedMounts [2, 0] (applyWrites s.disk ((c.writes s).take 4)))
    c.writes s ≠ [] ∧ found.mounted = true ∧
      (found.view = s.view ∨ found.view = (c.exec s).1.view) ∧
      (found.view = (c.exec s).1.view ↔ ∃ w ∈ (c.writes s).take 4, CommitWrite w) := by
  have hw : (Call.delete nameA).writes (mount emptyFileImage.disk) ≠ [] := by
    apply Call.writes_of_success emptyFileImage.wf
    have hm : (mount emptyFileImage.disk).mounted = true := emptyFileImage.wf.mem.mounted
    have hf : findName (mount emptyFileImage.disk) nameA = some 0 := by
      rw [emptyFileImage.findName_mount]
      decide
    simp only [Call.exec, fsDelete, hm, Bool.not_true, Bool.false_eq_true, ↓reduceIte, hf]
  exact ⟨hw, crash_atomic .mkfs (.delete nameA) hw 4 [2, 0]⟩

end KernelHobby
