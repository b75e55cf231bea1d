import KernelHobby.Fs
import KernelHobby.Journal

namespace KernelHobby
set_option autoImplicit true

theorem virtioDiskRw_read (h : s.faults = []) :
    virtioDiskRw s b false = ({ s with fsbuf := s.disk b }, 0) := by
  cases s
  cases h
  rfl

theorem virtioDiskRw_write (h : s.faults = []) :
    virtioDiskRw s b true =
      ({ s with disk := Function.update s.disk b s.fsbuf, trace := s.trace ++ [(b, s.fsbuf)] },
        0) := by
  cases s
  cases h
  rfl

/-- The part of the state that the log functions leave alone. -/
structure FsMem where
  dir : Nat → FsDirent
  nfiles : Int
  mounted : Bool
  nextFree : UInt32
  totalBlocks : UInt32
  used : Nat → Bool

def Fs.mem (s : Fs) : FsMem :=
  ⟨s.dir, s.nfiles, s.mounted, s.nextFree, s.totalBlocks, s.used⟩

/-- The header of a committed transaction. -/
def commitHdr (bs : List Nat) : FsLoghdr :=
  ⟨1, UInt32.ofNat bs.length, fun i => UInt32.ofNat (bs.getD i 0)⟩

def clearHdr : FsLoghdr := ⟨0, 0, fun _ => 0⟩

/-- The destinations a log header asks recovery to install. -/
def pendingOf (b : Block) : Option (List Nat) :=
  let h := FsLoghdr.ofBlock b
  if h.committed = 0 then none
  else some ((List.finRange LOGN).map (fun i => (h.blk i).toNat) |>.take h.n.toNat)

def fsJournal : Journal Block where
  hdr := LOGHDR
  start := LOGSTART
  size := LOGN
  commit := fun bs => (commitHdr bs).toBlock
  clear := clearHdr.toBlock
  pending := pendingOf
  hdr_outside := by decide
  pending_clear := by simp [pendingOf, clearHdr]
  pending_size := by
    intro x bs h
    simp only [pendingOf] at h
    split at h
    · cases h
    · cases h
      simp only [List.length_take, List.length_map, List.length_finRange]
      exact Nat.min_le_right _ _

@[simp] theorem fsJournal_hdr : fsJournal.hdr = LOGHDR := rfl
@[simp] theorem fsJournal_start : fsJournal.start = LOGSTART := rfl
@[simp] theorem fsJournal_size : fsJournal.size = LOGN := rfl

theorem fsJournal_area : fsJournal.Area b ↔ 2 ≤ b ∧ b < 19 := by
  simp only [Journal.Area, fsJournal_hdr, fsJournal_start, fsJournal_size, LOGHDR, LOGSTART, LOGN]
  omega

theorem pending_commit (hn : bs.length ≤ LOGN) (hb : ∀ b ∈ bs, b < 2 ^ 32) :
    fsJournal.pending (fsJournal.commit bs) = some bs := by
  simp only [LOGN] at hn
  have hc : (UInt32.ofNat bs.length).toNat = bs.length := by
    rw [UInt32.toNat_ofNat']
    omega
  simp only [fsJournal, pendingOf, FsLoghdr.ofBlock_toBlock, commitHdr, hc]
  simp only [show ¬ ((1 : UInt32) = 0) by decide, ↓reduceIte, Option.some.injEq]
  apply List.ext_getElem
  · simp only [List.length_take, List.length_map, List.length_finRange, LOGN]
    omega
  · intro i h₁ h₂
    have hi := hb _ (List.getElem_mem h₂)
    simp only [List.getElem_take, List.getElem_map, List.getElem_finRange, Fin.val_cast,
      List.getD_eq_getElem?_getD, List.getElem?_eq_getElem h₂, Option.getD_some,
      UInt32.toNat_ofNat']
    omega

/-- What the log functions have done since `logBegin`: the transaction so far is `t`. -/
structure Logged (d : Nat → Block) (tr : List (Nat × Block)) (t : List (Nat × Block)) (s : Fs) :
    Prop where
  faults : s.faults = []
  disk : s.disk = applyWrites d (fsJournal.fill 0 t)
  trace : s.trace = tr ++ fsJournal.fill 0 t
  logN : s.logN = t.length
  overflow : s.logOverflow = false
  blk : ∀ i, i < t.length → (s.logBlk i).toNat = (t.map Prod.fst).getD i 0

theorem logBegin_logged (h : s.faults = []) : Logged s.disk s.trace [] (logBegin s) where
  faults := h
  disk := rfl
  trace := by simp [logBegin, Journal.fill]
  logN := rfl
  overflow := rfl
  blk := by simp

/-- The block number that `log_write` notes in its next place. -/
theorem snoc_blk {t : List (Nat × Block)} {blk : Nat → UInt32}
    (h : ∀ i, i < t.length → (blk i).toNat = (t.map Prod.fst).getD i 0) (dst : UInt32) (b : Block)
    (i : Nat) (hi : i < (t ++ [(dst.toNat, b)]).length) :
    (Function.update blk t.length dst i).toNat =
      ((t ++ [(dst.toNat, b)]).map Prod.fst).getD i 0 := by
  rw [List.length_append, List.length_singleton] at hi
  rw [List.map_append]
  by_cases he : i = t.length
  · subst he
    simp [Function.update_self]
  · rw [Function.update_of_ne he, h i (by omega),
      List.getD_append _ _ _ _ (by rw [List.length_map]; omega)]

theorem logWrite_logged (h : Logged d tr t s) (dst : UInt32) (b : Block) (hn : t.length < LOGN) :
    Logged d tr (t ++ [(dst.toNat, b)]) (logWrite s dst b) := by
  have hl : ¬ LOGN ≤ s.logN := by rw [h.logN]; omega
  have hs : LOGSTART + s.logN = fsJournal.start + 0 + t.length := by rw [h.logN]; rfl
  simp only [logWrite, hl, ↓reduceIte]
  rw [virtioDiskRw_write (by exact h.faults), hs]
  refine ⟨h.faults, ?_, ?_, ?_, h.overflow, ?_⟩
  · rw [fsJournal.fill_snoc, applyWrites_append, ← h.disk]
    rfl
  · rw [fsJournal.fill_snoc, ← List.append_assoc, ← h.trace]
  · simp only [h.logN, List.length_append, List.length_singleton]
  · rw [h.logN]
    exact snoc_blk h.blk dst b

theorem logWrite_mem (s : Fs) (dst : UInt32) (b : Block) :
    (logWrite s dst b).mem = s.mem ∧ (logWrite s dst b).uart = s.uart := by
  simp only [logWrite]
  split
  · exact ⟨rfl, rfl⟩
  · simp only [virtioDiskRw]
    split <;> exact ⟨rfl, rfl⟩

theorem writeLoghdr_eq (h : s.faults = []) :
    writeLoghdr s c n blks =
      let b := (FsLoghdr.mk c n fun i => if (i : Nat) < n.toNat then blks i else 0).toBlock
      { s with fsbuf := b, disk := Function.update s.disk LOGHDR b,
               trace := s.trace ++ [(LOGHDR, b)] } := by
  simp only [writeLoghdr]
  rw [virtioDiskRw_write (by exact h)]

/-- The destinations of the first `n` log blocks. -/
def dests (blks : Nat → UInt32) (n : Nat) : List Nat :=
  (List.range n).map fun i => (blks i).toNat

theorem dests_succ (blks : Nat → UInt32) (n : Nat) :
    dests blks (n + 1) = dests blks n ++ [(blks n).toNat] := by
  simp only [dests, List.range_succ, List.map_append, List.map_cons, List.map_nil]

theorem dests_length (blks : Nat → UInt32) (n : Nat) : (dests blks n).length = n := by
  simp only [dests, List.length_map, List.length_range]

/-- Installing copies each log block to its destination, as long as no destination is a
log block. -/
theorem logInstall_spec (blks : Nat → UInt32) (h : s.faults = []) (hn : n ≤ LOGN)
    (hd : ∀ b ∈ dests blks n, ¬ fsJournal.Area b) :
    ∃ buf, logInstall blks n s =
      { s with fsbuf := buf, disk := applyWrites s.disk (fsJournal.redo s.disk 0 (dests blks n)),
               trace := s.trace ++ fsJournal.redo s.disk 0 (dests blks n) } := by
  induction n with
  | zero => exact ⟨s.fsbuf, by simp [logInstall, dests, Journal.redo, applyWrites]⟩
  | succ n ih =>
    rw [dests_succ] at hd ⊢
    obtain ⟨buf, he⟩ := ih (by omega) fun b hb => hd b (List.mem_append_left _ hb)
    -- no earlier copy has touched log block `n`
    have hlog : applyWrites s.disk (fsJournal.redo s.disk 0 (dests blks n)) (LOGSTART + n) =
        s.disk (LOGSTART + n) := by
      apply applyWrites_other
      intro w hw hwn
      refine hd w.1 (List.mem_append_left _ (fsJournal.redo_mem hw)) (.inr ?_)
      simp only [fsJournal_start, fsJournal_size, hwn, LOGSTART, LOGN] at hn ⊢
      omega
    refine ⟨s.disk (LOGSTART + n), ?_⟩
    simp only [logInstall, he]
    rw [virtioDiskRw_read (by exact h), virtioDiskRw_write (by exact h), fsJournal.redo_snoc,
      applyWrites_append, dests_length]
    simp only [applyWrites, hlog, fsJournal_start, Nat.add_zero, List.append_assoc]

theorem Logged.dests (h : Logged d tr t s) : dests s.logBlk t.length = t.map Prod.fst := by
  apply List.ext_getElem
  · rw [dests_length, List.length_map]
  · intro i h₁ h₂
    rw [dests_length] at h₁
    have hb := h.blk i h₁
    rw [List.getD_eq_getElem?_getD, List.getElem?_eq_getElem h₂, Option.getD_some] at hb
    simp only [KernelHobby.dests, List.getElem_map, List.getElem_range, hb]

/-- The header that a commit writes names the destinations of the transaction. -/
theorem loghdr_commit {t : List (Nat × Block)} {blk : Nat → UInt32}
    (h : ∀ i, i < t.length → (blk i).toNat = (t.map Prod.fst).getD i 0) (hn : t.length ≤ LOGN) :
    (FsLoghdr.mk 1 (UInt32.ofNat t.length) fun i =>
      if (i : Nat) < (UInt32.ofNat t.length).toNat then blk i else 0) =
        commitHdr (t.map Prod.fst) := by
  have hc : (UInt32.ofNat t.length).toNat = t.length := by
    simp only [LOGN] at hn
    rw [UInt32.toNat_ofNat']
    omega
  simp only [commitHdr, List.length_map, FsLoghdr.mk.injEq, true_and, hc]
  funext i
  split
  · rename_i hi
    rw [← h i hi, UInt32.ofNat_toNat]
  · rename_i hi
    rw [List.getD_eq_default _ _ (by rw [List.length_map]; omega)]
    rfl

theorem clearHdr_eq : (FsLoghdr.mk 0 0 fun i =>
    if (i : Nat) < (0 : UInt32).toNat then (0 : UInt32) else 0) = clearHdr := by
  simp only [clearHdr, ite_self]

/-- After the commit write the log still holds the transaction. -/
theorem Logged.redo (h : Logged d tr t s) (x : Block) :
    fsJournal.redo (Function.update s.disk LOGHDR x) 0 (t.map Prod.fst) = t := by
  have hr : fsJournal.redo (Function.update s.disk LOGHDR x) 0 (t.map Prod.fst) =
      fsJournal.redo (applyWrites d (fsJournal.fill 0 t)) 0 (t.map Prod.fst) := by
    apply fsJournal.redo_congr
    intro j _ hj
    have hne : fsJournal.start + j ≠ LOGHDR := by
      simp only [fsJournal_start, LOGSTART, LOGHDR]
      omega
    rw [h.disk, Function.update_of_ne hne]
  rw [hr, fsJournal.redo_fill]

/-- Committing a logged transaction makes exactly the writes of the journal's protocol. -/
theorem logCommit_logged (h : Logged d tr t s) (ht : t ≠ []) (hn : t.length ≤ LOGN)
    (ha : ∀ w ∈ t, ¬ fsJournal.Area w.1) :
    (logCommit s).disk = applyWrites d (fsJournal.txn t) ∧
      (logCommit s).trace = tr ++ fsJournal.txn t ∧ (logCommit s).faults = [] ∧
      (logCommit s).mem = s.mem ∧ (logCommit s).uart = s.uart := by
  have h0 : t.length ≠ 0 := fun he => ht (List.length_eq_zero_iff.1 he)
  have hdst : ∀ b ∈ KernelHobby.dests s.logBlk t.length, ¬ fsJournal.Area b := by
    rw [h.dests]
    intro b hb
    obtain ⟨w, hw, rfl⟩ := List.mem_map.1 hb
    exact ha w hw
  simp only [logCommit, h.logN, h0, ↓reduceIte, h.overflow, Bool.false_eq_true]
  rw [writeLoghdr_eq h.faults, loghdr_commit h.blk hn]
  obtain ⟨buf, he⟩ := logInstall_spec s.logBlk (n := t.length)
    (s := { s with fsbuf := (commitHdr (t.map Prod.fst)).toBlock,
                   disk := Function.update s.disk LOGHDR (commitHdr (t.map Prod.fst)).toBlock,
                   trace := s.trace ++ [(LOGHDR, (commitHdr (t.map Prod.fst)).toBlock)] })
    h.faults hn hdst
  simp only [h.dests, h.redo, h.logN, h.overflow] at he ⊢
  rw [he, writeLoghdr_eq (by exact h.faults), clearHdr_eq]
  refine ⟨?_, ?_, h.faults, rfl, rfl⟩
  · rw [Journal.txn, applyWrites_append, ← h.disk]
    simp only [applyWrites]
    rw [applyWrites_append]
    rfl
  · simp only [h.trace, Journal.txn, List.append_assoc, List.cons_append, List.nil_append]
    rfl

end KernelHobby
