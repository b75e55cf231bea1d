import KernelHobby.FsCrash
import KernelHobby.FsCreate
import KernelHobby.FsRefine

namespace KernelHobby
set_option autoImplicit true

/-- The block writes that an operation issues. -/
def Op.writes (s : Fs) : Op → List (Nat × Block)
  | .remount => (mount s.disk).trace
  | op => (op.exec s).1.trace.drop s.trace.length

/-- What happens to a machine: an operation that completes, or a power cut after the first `k`
block writes of an operation, with mounts after it that are cut off as well, and one that is not. -/
inductive FsEvent where
  | done (op : Op)
  | crash (op : Op) (k : Nat) (ks : List Nat)

def FsEvent.base : FsEvent → Op
  | .done op => op
  | .crash op _ _ => op

def FsEvent.exec (s : Fs) : FsEvent → Fs × List Outcome
  | .done op => ((op.exec s).1, [(op.exec s).2])
  | .crash op k ks =>
    (mount (crashedMounts ks (applyWrites s.disk ((op.writes s).take k))), [])

def FsEvent.run (s : Fs) : List FsEvent → Fs × List Outcome
  | [] => (s, [])
  | e :: es =>
    let (s, out) := e.exec s
    let (s, outs) := run s es
    (s, out ++ outs)

/-- The life of a finite map: an operation that a power cut ends has happened entirely, or not at
all. -/
inductive FileMap.Life : FileMap → List FsEvent → List Outcome → FileMap → Prop where
  | nil : Life M [] [] M
  | done : Step M op out M' → Life M' es outs M'' → Life M (.done op :: es) (out :: outs) M''
  | lost : Life M es outs M'' → Life M (.crash op k ks :: es) outs M''
  | kept : Step M op out M' → Life M' es outs M'' → Life M (.crash op k ks :: es) outs M''

theorem FileMap.Step.keeps {M M' : FileMap} (h : Step M op out M') (hn : M name = some bytes)
    (hop : op ≠ .delete name) : M' name = some bytes := by
  cases h with
  | created hnone hpos =>
    rename_i other _ _
    have hne : name ≠ other := by
      intro he
      rw [he, hnone] at hn
      cases hn
    rw [Function.update_of_ne hne]
    exact hn
  | deleted hsome =>
    have hne := fun he => hop (congrArg Op.delete he)
    rw [Function.update_of_ne (Ne.symm hne)]
    exact hn
  | _ => exact hn

/-- What a map holds it holds until it is deleted, whenever the power is cut. -/
theorem FileMap.Life.keeps {M M' : FileMap} (h : Life M es outs M') (hn : M name = some bytes)
    (hes : ∀ e ∈ es, e.base ≠ .delete name) : M' name = some bytes := by
  induction h with
  | nil => exact hn
  | done hstep _ ih =>
    rw [List.forall_mem_cons] at hes
    obtain ⟨hop, hes⟩ := hes
    exact ih (hstep.keeps hn hop) hes
  | lost _ ih =>
    rw [List.forall_mem_cons] at hes
    exact ih hn hes.2
  | kept hstep _ ih =>
    rw [List.forall_mem_cons] at hes
    obtain ⟨hop, hes⟩ := hes
    exact ih (hstep.keeps hn hop) hes

/-- Every superblock that recovery may find on a disk, or leave there, satisfies `P`. -/
structure SuperAll (P : Block → Prop) (d : Nat → Block) : Prop where
  raw : P (d 0)
  owed : ∀ w ∈ fsJournal.owed d, w.1 = 0 → P w.2

namespace SuperAll
variable {P : Block → Prop} {d : Nat → Block}

theorem clean (h : P (d 0)) (hlog : fsJournal.pending (d LOGHDR) = none) : SuperAll P d where
  raw := h
  owed w hw := by
    rw [fsJournal.owed_none hlog] at hw
    cases hw

theorem recovery_mem (h : SuperAll P d) (hw : w ∈ fsJournal.recovery d) (h0 : w.1 = 0) : P w.2 := by
  cases hp : fsJournal.pending (d fsJournal.hdr) with
  | none =>
    rw [fsJournal.recovery_none hp] at hw
    cases hw
  | some bs =>
    rw [fsJournal.recovery_some hp, List.mem_append, List.mem_singleton] at hw
    rcases hw with hw | rfl
    · exact h.owed w hw h0
    · exact absurd h0 (by decide)

theorem crash (h : SuperAll P d) (hs : fsJournal.Sound d) (k : Nat) :
    SuperAll P (applyWrites d ((fsJournal.recovery d).take k)) where
  raw := applyWrites_prop h.raw fun _ hw => h.recovery_mem (List.mem_of_mem_take hw)
  owed w hw h0 := by
    rcases fsJournal.owed_recovery_take hs k with ho | ⟨ho, _⟩
    · exact h.owed w (ho ▸ hw) h0
    · rw [ho] at hw
      cases hw

theorem crashedMounts (h : SuperAll P d) (hm : Means e d) (ks : List Nat) :
    SuperAll P (crashedMounts ks d) := by
  induction ks generalizing d with
  | nil => exact h
  | cons k ks ih =>
    refine ih ?_ (hm.crash k)
    rw [(mount_spec hm.sound hm.magic).2.1]
    exact h.crash hm.sound k

end SuperAll

section Cut
variable {s s' : Fs} {ws : List (Nat × Block)} {m : FsMem} {P : Block → Prop}

/-- The only superblock that a transaction writes is the new one. -/
theorem Effect.super_eq (h : Effect s ws m s') (hw : w ∈ ws ++ m.metaWrites) (h0 : w.1 = 0) :
    w.2 = m.super.toBlock := by
  rcases List.mem_append.1 hw with hw | hw
  · have hd := (h.dst w hw).1
    rw [h0] at hd
    exact absurd hd (by decide)
  · rw [FsMem.metaWrites, List.mem_cons, List.mem_singleton] at hw
    rcases hw with rfl | rfl
    · exact absurd h0 Nat.one_ne_zero
    · rfl

theorem Effect.superAll (h : Effect s ws m s') (hs : OnDisk m₀ s.disk) (hP : P (s.disk 0))
    (hm : P m.super.toBlock) (k : Nat) :
    SuperAll P (applyWrites s.disk ((fsJournal.txn (ws ++ m.metaWrites)).take k)) := by
  have hsuper (w : Nat × Block) (hw : w ∈ ws ++ m.metaWrites) (h0 : w.1 = 0) : P w.2 := by
    rw [h.super_eq hw h0]
    exact hm
  constructor
  · apply applyWrites_prop hP
    intro w hw h0
    have hmem := List.mem_of_mem_take hw
    rw [Journal.txn, List.mem_append, List.mem_cons, List.mem_append, List.mem_singleton] at hmem
    rcases hmem with hf | rfl | ht | rfl
    · have ha := fsJournal.fill_area h.length hf
      rw [h0, fsJournal_area] at ha
      exact absurd ha (by decide)
    · exact absurd h0 (Nat.succ_ne_zero 1)
    · exact hsuper w ht h0
    · exact absurd h0 (Nat.succ_ne_zero 1)
  · intro w hw h0
    by_cases hk : k ≤ (ws ++ m.metaWrites).length
    · rw [(fsJournal.txn_before hs.log h.length hk).1] at hw
      cases hw
    · have hc : fsJournal.pending (fsJournal.commit ((ws ++ m.metaWrites).map Prod.fst)) =
          some ((ws ++ m.metaWrites).map Prod.fst) := by
        apply pending_commit
        · rw [List.length_map]
          exact h.length
        · intro b hb
          obtain ⟨w, hw, rfl⟩ := List.mem_map.1 hb
          exact (h.dst_lt hw).2
      rcases (fsJournal.txn_after (d := s.disk) hc h.length (fun w hw => (h.dst_lt hw).1)
        (Nat.lt_of_not_le hk)).1 with ho | ho
      · exact hsuper w (ho ▸ hw) h0
      · rw [ho] at hw
        cases hw

end Cut

/-- The superblock says how many blocks there are. -/
def TotalIs (t : UInt32) (b : Block) : Prop := clampTotal (FsSuperblock.ofBlock b).totalBlocks = t

section Found
variable {s s' : Fs}

/-- A state with the same tables, and the same disk but for the log. -/
theorem FsGood.congr (h : FsGood s) (hf : s'.faults = []) (hm : s'.mem = s.mem)
    (hd : ∀ b, ¬ fsJournal.Area b → s'.disk b = s.disk b)
    (hlog : fsJournal.pending (s'.disk LOGHDR) = none) : FsGood s' ∧ s'.map = s.map := by
  have h0 : s'.disk 0 = s.disk 0 := hd 0 (by rw [fsJournal_area]; decide)
  have h1 : s'.disk DIRBLOCK = s.disk DIRBLOCK := hd DIRBLOCK (by rw [fsJournal_area]; decide)
  constructor
  · refine ⟨⟨hf, ?_, ?_⟩, ?_, ?_⟩
    · rw [hm]
      exact h.wf.mem
    · have hw := h.wf.disk
      rw [hm]
      constructor
      · rw [h0]
        exact hw.magic
      · rw [h0]
        exact hw.nfiles
      · rw [h0]
        exact hw.nextFree
      · rw [h0]
        exact hw.total
      · rw [h1]
        exact hw.dir
      · exact hlog
    · rw [hm]
      exact h.rep
    · rw [hm]
      exact h.names
  · apply map_congr h.wf.mem
    · exact congrArg FsMem.dir hm
    · exact congrArg FsMem.nfiles hm
    · intro b hb
      exact hd b (not_area_of_data hb)

/-- A disk that means the one of a good state is mounted as that state. -/
theorem FsGood.of_means (h : Means s.disk d) (ht : SuperAll (TotalIs s.totalBlocks) d) (hg : FsGood s) :
    FsGood (mount d) ∧ (mount d).map = s.map := by
  obtain ⟨hdisk, _, hf, hmem, _⟩ := mount_spec h.sound h.magic
  obtain ⟨hdisk₀, _, _, hmem₀, _⟩ := hg.wf.disk.mount hg.wf.mem
  obtain ⟨hhdr, hrest⟩ := fsJournal.recovery_complete d
  have hre (b : Nat) (hb : ¬ fsJournal.Area b) :
      applyWrites d (fsJournal.recovery d) b = s.disk b := by
    rw [hrest b hb, h.logical b hb]
  have h0 := hre 0 (by rw [fsJournal_area]; decide)
  have h1 := hre DIRBLOCK (by rw [fsJournal_area]; decide)
  have htotal : clampTotal (FsSuperblock.ofBlock (d 0)).totalBlocks =
      clampTotal (FsSuperblock.ofBlock (s.disk 0)).totalBlocks := ht.raw.trans hg.wf.disk.total.symm
  have hload : loadMem (d 0) (applyWrites d (fsJournal.recovery d)) =
      loadMem (s.disk 0) s.disk := by
    rw [loadMem, loadMem, h0, h1, htotal]
  have hm : (mount d).mem = (mount s.disk).mem := by
    rw [hmem, hload, hg.wf.disk.loadMem hg.wf.mem, hmem₀]
  obtain ⟨hgood, hmap⟩ := hg.remount.congr hf hm
    (fun b hb => by rw [hdisk, hre b hb, hdisk₀]) (by rw [hdisk]; exact hhdr)
  exact ⟨hgood, hmap.trans (map_remount hg)⟩

theorem Means.clean (hg : FsGood s) : Means s.disk s.disk where
  sound := hg.wf.disk.sound
  logical b _ := by rw [fsJournal.logical_clean hg.wf.disk.log]
  magic := hg.wf.disk.magic
  owed w hw := by
    rw [fsJournal.owed_none hg.wf.disk.log] at hw
    cases hw

/-- Mounts that crash, and one that completes. -/
theorem FsGood.of_crashed (h : Means s.disk d) (ht : SuperAll (TotalIs s.totalBlocks) d) (hg : FsGood s)
    (ks : List Nat) :
    FsGood (mount (crashedMounts ks d)) ∧ (mount (crashedMounts ks d)).map = s.map :=
  of_means (h.crashedMounts ks) (ht.crashedMounts h ks) hg

theorem FsGood.found (hg : FsGood s) (ks : List Nat) :
    FsGood (mount (crashedMounts ks s.disk)) ∧ (mount (crashedMounts ks s.disk)).map = s.map :=
  of_crashed (.clean hg) (.clean hg.wf.disk.total hg.wf.disk.log) hg ks

/-- A call that takes effect leaves the size of the disk as it is. -/
theorem Call.effect (h : FsWf s) (c : Call) :
    c.exec s = (s, -1) ∨
      ∃ ws m, Effect s ws m (c.exec s).1 ∧ MemOk m ∧ m.totalBlocks = s.totalBlocks := by
  rcases c.exec_inv h with he | ⟨_, ⟨name, data, size, start, nb, _, hc, he⟩ | ⟨name, idx, _, hf, he⟩⟩
  · exact .inl he
  · exact .inr ⟨_, _, he, addEntry_memOk h.mem hc, rfl⟩
  · exact .inr ⟨_, _, he, removeEntry_memOk h.mem (findName_lt hf), rfl⟩

theorem Call.found (hg : FsGood s) (c : Call) (hg' : FsGood (c.exec s).1) (k : Nat)
    (ks : List Nat) :
    let found := mount (crashedMounts ks (applyWrites s.disk ((c.writes s).take k)))
    FsGood found ∧ (found.map = s.map ∨ found.map = (c.exec s).1.map) := by
  rcases c.effect hg.wf with he | ⟨ws, m, he, hm, ht⟩
  · have hw : c.writes s = [] := by
      rw [Call.writes, he, List.drop_length]
    rw [hw, List.take_nil]
    obtain ⟨hgood, hmap⟩ := hg.found ks
    exact ⟨hgood, .inl hmap⟩
  · have htotal : TotalIs s.totalBlocks m.super.toBlock := by
      rw [TotalIs, FsSuperblock.ofBlock_toBlock, ← ht]
      exact clampTotal_of_le hm.total_ge hm.total_le
    have hsuper := he.superAll hg.wf.disk (P := TotalIs s.totalBlocks) hg.wf.disk.total htotal k
    rw [he.writes]
    by_cases hk : k ≤ (ws ++ m.metaWrites).length
    · obtain ⟨hgood, hmap⟩ := FsGood.of_crashed (he.means_before hg.wf.disk hk) hsuper hg ks
      exact ⟨hgood, .inl hmap⟩
    · have hsame : (c.exec s).1.totalBlocks = s.totalBlocks :=
        (congrArg FsMem.totalBlocks he.mem).trans ht
      rw [← hsame] at hsuper
      obtain ⟨hgood, hmap⟩ :=
        FsGood.of_crashed (he.means_after hg.wf.disk (Nat.lt_of_not_le hk)) hsuper hg' ks
      exact ⟨hgood, .inr hmap⟩

/-- A power cut in an operation, and mounts after it. -/
theorem Op.found (hg : FsGood s) (op : Op) (k : Nat) (ks : List Nat) :
    let found := mount (crashedMounts ks (applyWrites s.disk ((op.writes s).take k)))
    FsGood found ∧ (found.map = s.map ∨ found.map = (op.exec s).1.map) := by
  have hnone (hw : op.writes s = []) :
      let found := mount (crashedMounts ks (applyWrites s.disk ((op.writes s).take k)))
      FsGood found ∧ (found.map = s.map ∨ found.map = (op.exec s).1.map) := by
    rw [hw, List.take_nil]
    obtain ⟨hgood, hmap⟩ := hg.found ks
    exact ⟨hgood, .inl hmap⟩
  cases op with
  | create name data size =>
    exact (Call.create name.1 data size).found hg ((Op.create name data size).exec_refines hg).1 k ks
  | delete name =>
    exact (Call.delete name.1).found hg ((Op.delete name).exec_refines hg).1 k ks
  | read name buf limit =>
    apply hnone
    obtain ⟨b, hb⟩ := fsRead_state hg.wf name buf limit
    rw [Op.writes, Op.exec, hb, List.drop_length]
    intro he
    cases he
  | stat name =>
    apply hnone
    rw [Op.writes, Op.exec, List.drop_length]
    intro he
    cases he
  | remount =>
    apply hnone
    exact (hg.wf.disk.mount hg.wf.mem).2.1

/-- Whatever happens to a machine, its file system is in order then, and lives the life of a finite
map. -/
theorem FsEvent.run_life (hg : FsGood s) (es : List FsEvent) :
    FsGood (run s es).1 ∧ FileMap.Life s.map es (run s es).2 (run s es).1.map := by
  induction es generalizing s with
  | nil => exact ⟨hg, .nil⟩
  | cons e es ih =>
    cases e with
    | done op =>
      obtain ⟨hg', hstep⟩ := op.exec_refines hg
      obtain ⟨hgood, hlife⟩ := ih hg'
      exact ⟨hgood, .done hstep hlife⟩
    | crash op k ks =>
      obtain ⟨hg', hmap⟩ := op.found hg k ks
      obtain ⟨hgood, hlife⟩ := ih hg'
      refine ⟨hgood, ?_⟩
      rcases hmap with hmap | hmap
      · rw [hmap] at hlife
        exact .lost hlife
      · rw [hmap] at hlife
        exact .kept (op.exec_refines hg).2 hlife

/-- What `fs_read` finds under a name. -/
theorem read_of_map (hg : FsGood s) {name : FileName} (hn : s.map name = some bytes)
    (buf : Nat → UInt8) (hl : (bytes.length : Int) ≤ limit.toInt) :
    (fsRead s name buf limit).2.2 = (bytes.length : Int) ∧
      ∀ j, (fsRead s name buf limit).2.1 j =
        if j < bytes.length then bytes.getD j 0 else buf j := by
  have hread := ((Op.read name buf limit).exec_refines hg).2
  generalize ((Op.read name buf limit).exec s).1.map = M at hread
  change FileMap.Step s.map (.read name buf limit)
    (.read (fsRead s name buf limit).2.1 (fsRead s name buf limit).2.2) M at hread
  generalize (fsRead s name buf limit).2.1 = buf', (fsRead s name buf limit).2.2 = r at hread ⊢
  generalize s.map = N at hread hn
  cases hread with
  | notFound hnone =>
    rw [hnone] at hn
    cases hn
  | found bytes hbytes hfit =>
    cases hbytes.symm.trans hn
    exact hfit hl

end Found

theorem emptyFileImage_namesOk : emptyFileImage.NamesOk :=
  MkfsImage.single_namesOk nameA _ (by decide)

theorem nameA_length : nameA.bytes.length < NAMELEN := by decide

theorem nameB_length : nameB.bytes.length < NAMELEN := by decide

def fileA : FileName := ⟨nameA, nameA_length⟩

def fileB : FileName := ⟨nameB, nameB_length⟩

/-- Power fails in a write of a new file, in the mount after it, and in its deletion. -/
def someEvents : List FsEvent :=
  [.crash (.create fileB (fun _ => 7) 600) 3 [1, 0], .done .remount, .crash (.delete fileA) 5 [2]]

/-- The image with one empty file has room for another one of two blocks. -/
theorem emptyFileImage_canCreate : CanCreate (mount emptyFileImage.disk) nameB 600 := by
  have hmem := emptyFileImage.mount_spec.2.2.1
  have hn : (mount emptyFileImage.disk).nfiles = 1 := congrArg FsMem.nfiles hmem
  have hd : (mount emptyFileImage.disk).dir = emptyFileImage.dir := congrArg FsMem.dir hmem
  have ht : (mount emptyFileImage.disk).totalBlocks = 256 := congrArg FsMem.totalBlocks hmem
  constructor
  · decide
  · rw [hn]
    decide
  · intro i hi
    rw [hn] at hi
    obtain rfl : i = 0 := Nat.lt_one_iff.1 hi
    rw [hd]
    decide
  · decide
  · intro _
    refine ⟨DATASTART, Nat.le_refl _, ?_, ?_⟩
    · rw [ht]
      decide
    · intro k _ i hi hx
      rw [hn] at hi
      obtain rfl : i = 0 := Nat.lt_one_iff.1 hi
      rw [hd] at hx
      have hempty : blocksOf (emptyFileImage.dir 0).size = 0 := by decide
      obtain ⟨hlo, hhi⟩ := hx
      rw [hempty] at hhi
      exact Nat.not_lt.2 hlo hhi

/-- The new file is there after power fails again and again. -/
theorem someEvents_keep (e : FsEvent) (he : e ∈ someEvents) : e.base ≠ .delete fileB := by
  have hne : fileA ≠ fileB := by
    intro hx
    exact absurd (congrArg (fun n : FileName => n.1.bytes) hx) (by decide)
  rcases List.mem_cons.1 he with rfl | he
  · intro hx
    cases hx
  · rcases List.mem_cons.1 he with rfl | he
    · intro hx
      cases hx
    · rw [List.mem_singleton.1 he]
      intro hx
      injection hx with hx
      exact hne hx

end KernelHobby
