import KernelHobby.CInt
import KernelHobby.FsMount

namespace KernelHobby
set_option autoImplicit true

/-- A call that may change the file system. -/
inductive Call where
  | create (name : CStr) (data : Nat → UInt8) (size : Int32)
  | delete (name : CStr)

def Call.exec (s : Fs) : Call → Fs × Int
  | .create name data size => fsCreate s name data size
  | .delete name => fsDelete s name

/-- The end of a run of blocks that starts on the disk. -/
theorem add_nblocks {nblocks : Int32} (hn : 0 < nblocks.toInt) (hb : b.toNat ≤ MAXBLK + 1) :
    (b + nblocks.toUInt32).toNat = b.toNat + nblocks.toInt.toNat := by
  have hmax : MAXBLK = 8192 := rfl
  have hlt := nblocks.toInt_lt
  have hu := int32_toNat_toUInt32 nblocks
  rw [UInt32.toNat_add]
  omega

theorem next_block {b : UInt32} (hb : b.toNat ≤ MAXBLK + 1) : (b + 1).toNat = b.toNat + 1 := by
  have hmax : MAXBLK = 8192 := rfl
  have h1 : (1 : UInt32).toNat = 1 := rfl
  rw [UInt32.toNat_add]
  omega

theorem ballocScan_spec {nblocks : Int32} (hn : 0 < nblocks.toInt) (hb : b.toNat ≤ MAXBLK + 1)
    (h : 0 ≤ ballocScan s nblocks fuel b) :
    ∃ st : Nat, ballocScan s nblocks fuel b = st ∧ b.toNat ≤ st ∧
      st + nblocks.toInt.toNat ≤ s.totalBlocks.toNat ∧ st + nblocks.toInt.toNat ≤ MAXBLK ∧
      ∀ k, k < nblocks.toInt.toNat → s.used (st + k) = false := by
  induction fuel generalizing b with
  | zero => simp [ballocScan] at h
  | succ fuel ih =>
    have he := add_nblocks hn hb
    have hs := next_block hb
    simp only [MAXBLK] at hb ih ⊢
    simp only [ballocScan, UInt32.le_iff_toNat_le, he, MAXBLK] at h ⊢
    by_cases hc : b.toNat + nblocks.toInt.toNat ≤ s.totalBlocks.toNat ∧
        b.toNat + nblocks.toInt.toNat ≤ 8192
    · rw [if_pos hc] at h ⊢
      by_cases ha : (List.range nblocks.toInt.toNat).all fun k => !s.used (b.toNat + k)
      · rw [if_pos ha]
        refine ⟨b.toNat, rfl, Nat.le_refl _, hc.1, hc.2, ?_⟩
        intro k hk
        simpa using List.all_eq_true.1 ha k (List.mem_range.2 hk)
      · rw [if_neg ha] at h ⊢
        obtain ⟨st, hst, hle, hr⟩ := ih (b := b + 1) (by omega) h
        exact ⟨st, hst, by omega, hr⟩
    · rw [if_neg hc] at h
      omega

/-- What `fs_create` has checked when it starts to write. -/
structure CreateOk (s : Fs) (name : CStr) (size : Int32) (start nb : Nat) : Prop where
  mounted : s.mounted = true
  room : s.nfiles < MAXFILES
  absent : findName s name = none
  nonneg : 0 ≤ size.toInt
  blocks : nb = (size.toInt.toNat + 511) / 512
  nblocks : ((size + 512 - 1) / 512).toInt = nb
  fits : nb + 2 ≤ LOGN
  chosen : ballocContig s ((size + 512 - 1) / 512) = start
  start_ge : DATASTART ≤ start
  start_le : start + nb ≤ MAXBLK
  total : nb ≠ 0 → start + nb ≤ s.totalBlocks.toNat
  free : ∀ k, k < nb → s.used (start + k) = false

theorem not_neg {size : Int32} (h : 0 ≤ size.toInt) : ¬ size < 0 := by
  have h0 : (0 : Int32).toInt = 0 := rfl
  rw [Int32.lt_iff_toInt_lt]
  omega

/-- The blocks of the file, the directory and the superblock fit into the log. -/
theorem log_room {nblocks : Int32} {nb : Nat} (h : nblocks.toInt = nb) (hf : nb + 2 ≤ LOGN) :
    ¬ (16 : Int32) < nblocks + 2 := by
  have h2 : (2 : Int32).toInt = 2 := rfl
  have h16 : (16 : Int32).toInt = 16 := rfl
  simp only [LOGN] at hf
  rw [Int32.lt_iff_toInt_lt, Int32.toInt_add, h, h2, h16]
  simp only [Int.bmod]
  split <;> omega

theorem ballocContig_neg (s : Fs) (nblocks : Int32) (h : nblocks.toInt < -DATASTART) :
    ballocContig s nblocks = -1 := by
  have hz : nblocks ≠ 0 := by
    rintro rfl
    exact absurd h (by decide)
  have hl := nblocks.le_toInt
  have hu := int32_toNat_toUInt32 nblocks
  have hc : ¬ (UInt32.ofNat DATASTART + nblocks.toUInt32).toNat ≤ MAXBLK := by
    have hd : (UInt32.ofNat DATASTART).toNat = 19 := rfl
    simp only [DATASTART, LOGSTART, LOGN] at h
    rw [UInt32.toNat_add, hd]
    simp only [MAXBLK]
    omega
  rw [ballocContig, if_neg hz, MAXBLK, ballocScan]
  exact if_neg fun hh => hc hh.2

theorem ballocContig_spec {nblocks : Int32} (hn : 0 ≤ nblocks.toInt)
    (h : 0 ≤ ballocContig s nblocks) :
    ∃ st : Nat, ballocContig s nblocks = st ∧ DATASTART ≤ st ∧
      st + nblocks.toInt.toNat ≤ Nat.max MAXBLK DATASTART ∧
      (nblocks.toInt.toNat ≠ 0 → st + nblocks.toInt.toNat ≤ s.totalBlocks.toNat) ∧
      ∀ k, k < nblocks.toInt.toNat → s.used (st + k) = false := by
  by_cases hz : nblocks = 0
  · subst hz
    exact ⟨DATASTART, by simp [ballocContig], Nat.le_refl _, Nat.le_max_right _ _, by simp, by simp⟩
  · have hp : 0 < nblocks.toInt := by
      rcases Int.lt_or_eq_of_le hn with hh | hh
      · exact hh
      · exact absurd (Int32.toInt_inj.1 hh.symm) hz
    rw [ballocContig, if_neg hz] at h ⊢
    obtain ⟨st, hst, hge, ht, hm, hf⟩ := ballocScan_spec hp (by decide) h
    exact ⟨st, hst, hge, Nat.le_trans hm (Nat.le_max_left _ _), fun _ => ht, hf⟩

/-- `fs_create` either refuses and changes nothing, or has passed all its checks. -/
theorem fsCreate_cases (s : Fs) (name : CStr) (data : Nat → UInt8) (size : Int32) :
    fsCreate s name data size = (s, -1) ∨
      ∃ start nb, CreateOk s name size start nb ∧ fsCreate s name data size =
        (logCommit (logSuper (logDir (addEntry (logData data size start nb (logBegin s)) name size
          ((size + 512 - 1) / 512) start))), 0) := by
  rw [fsCreate]
  by_cases h₁ : s.mounted = false ∨ (MAXFILES : Int) ≤ s.nfiles ∨ size < 0
  · exact .inl (if_pos h₁)
  rw [if_neg h₁]
  by_cases h₂ : (findName s name).isSome
  · exact .inl (if_pos h₂)
  rw [if_neg h₂]
  dsimp only
  by_cases h₃ : 16 < (size + 512 - 1) / 512 + 2
  · exact .inl (if_pos h₃)
  rw [if_neg h₃]
  by_cases h₄ : ballocContig s ((size + 512 - 1) / 512) < 0
  · exact .inl (if_pos h₄)
  rw [if_neg h₄]
  right
  simp only [not_or, not_lt, not_le, Bool.not_eq_false] at h₁ h₄
  obtain ⟨hm, hr, hs⟩ := h₁
  have hs' : 0 ≤ size.toInt := by simpa using mt Int32.lt_iff_toInt_lt.2 hs
  have hsl := size.toInt_lt
  have hru := int32_round_up size hs'
  -- a wrapped block count never gets past the allocator
  have hsmall : size.toInt < 2 ^ 31 - 511 := by
    by_contra hbig
    rw [if_neg hbig] at hru
    have hneg := ballocContig_neg s ((size + 512 - 1) / 512) (by
      rw [hru, show (DATASTART : Int) = 19 from rfl]
      omega)
    omega
  rw [if_pos hsmall] at hru
  have hlog : (size.toInt + 511) / 512 + 2 ≤ 16 := by
    have h₃' := mt Int32.lt_iff_toInt_lt.2 h₃
    have h2 : (2 : Int32).toInt = 2 := rfl
    have h16 : (16 : Int32).toInt = 16 := rfl
    rw [Int32.toInt_add, hru, h2, h16] at h₃'
    simp only [Int.bmod] at h₃'
    split at h₃' <;> omega
  obtain ⟨st, hst, hge, hle, ht, hf⟩ := ballocContig_spec (by omega) h₄
  refine ⟨st, (size.toInt.toNat + 511) / 512, ⟨hm, hr, ?_, hs', rfl, ?_, ?_, hst, hge, ?_, ?_, ?_⟩, ?_⟩
  · simpa only [Bool.not_eq_true, Option.isSome_eq_false_iff, Option.isNone_iff_eq_none] using h₂
  · omega
  · simp only [LOGN]
    omega
  · have hmax : Nat.max MAXBLK DATASTART = MAXBLK := by decide
    omega
  · intro hnb
    have hh := ht (by omega)
    omega
  · intro k hk
    exact hf k (by omega)
  · rw [hst]
    congr 7
    omega

/-- The superblock that `log_super` writes. -/
def FsMem.super (m : FsMem) : FsSuperblock :=
  ⟨FS_MAGIC, UInt32.ofInt m.nfiles, m.nextFree, m.totalBlocks⟩

/-- The two metadata writes at the end of every transaction. -/
def FsMem.metaWrites (m : FsMem) : List (Nat × Block) :=
  [(DIRBLOCK, dirBlock m.dir), (0, m.super.toBlock)]

def dataWrites (data : Nat → UInt8) (size : Int32) (start nb : Nat) : List (Nat × Block) :=
  (List.range nb).map fun b => (start + b, dataBlock data size b)

/-- The effect of a call that reaches the disk: the data writes `ws` and the metadata of the
new in-memory state `m`, as one transaction. -/
structure Effect (s : Fs) (ws : List (Nat × Block)) (m : FsMem) (s' : Fs) : Prop where
  disk : s'.disk = applyWrites s.disk (fsJournal.txn (ws ++ m.metaWrites))
  trace : s'.trace = s.trace ++ fsJournal.txn (ws ++ m.metaWrites)
  faults : s'.faults = []
  mem : s'.mem = m
  uart : s'.uart = s.uart
  fits : ws.length + 2 ≤ LOGN
  dst : ∀ w ∈ ws, DATASTART ≤ w.1 ∧ w.1 < MAXBLK

theorem Effect.length (h : Effect s ws m s') : (ws ++ m.metaWrites).length ≤ LOGN := by
  rw [List.length_append]
  exact h.fits

theorem Effect.dst_lt (h : Effect s ws m s') (hw : w ∈ ws ++ m.metaWrites) :
    ¬ fsJournal.Area w.1 ∧ w.1 < 2 ^ 32 := by
  rw [fsJournal_area]
  rcases List.mem_append.1 hw with hw | hw
  · have hd := h.dst w hw
    simp only [DATASTART, LOGSTART, LOGN, MAXBLK] at hd
    omega
  · simp only [FsMem.metaWrites, List.mem_cons, List.not_mem_nil, or_false] at hw
    rcases hw with rfl | rfl <;> simp [DIRBLOCK]

theorem Logged.congr (h : Logged d tr t s) (hd : s'.disk = s.disk) (ht : s'.trace = s.trace)
    (hf : s'.faults = s.faults) (hn : s'.logN = s.logN) (ho : s'.logOverflow = s.logOverflow)
    (hb : s'.logBlk = s.logBlk) : Logged d tr t s' where
  faults := hf.trans h.faults
  disk := hd.trans h.disk
  trace := ht.trans h.trace
  logN := hn.trans h.logN
  overflow := ho.trans h.overflow
  blk := by rw [hb]; exact h.blk

/-- Logging the metadata and committing completes the transaction `ws`. -/
theorem logMeta_effect (s s₁ : Fs) (h : Logged s.disk s.trace ws s₁) (hu : s₁.uart = s.uart)
    (hn : ws.length + 2 ≤ LOGN) (hw : ∀ w ∈ ws, DATASTART ≤ w.1 ∧ w.1 < MAXBLK) :
    Effect s ws s₁.mem (logCommit (logSuper (logDir s₁))) := by
  have hd := logWrite_logged h (UInt32.ofNat DIRBLOCK) (dirBlock s₁.dir) (by omega)
  have hdm := logWrite_mem s₁ (UInt32.ofNat DIRBLOCK) (dirBlock s₁.dir)
  have hsup : (logWrite s₁ (UInt32.ofNat DIRBLOCK) (dirBlock s₁.dir)).mem.super =
      s₁.mem.super := by rw [hdm.1]
  have hs := logWrite_logged hd 0 s₁.mem.super.toBlock (by
    rw [List.length_append, List.length_singleton]
    omega)
  have hsm := logWrite_mem (logWrite s₁ (UInt32.ofNat DIRBLOCK) (dirBlock s₁.dir)) 0
    s₁.mem.super.toBlock
  have ht : ws ++ [((UInt32.ofNat DIRBLOCK).toNat, dirBlock s₁.dir)] ++
      [((0 : UInt32).toNat, s₁.mem.super.toBlock)] = ws ++ s₁.mem.metaWrites := by
    rw [List.append_assoc]
    rfl
  rw [ht] at hs
  have he : logSuper (logDir s₁) = logWrite (logWrite s₁ (UInt32.ofNat DIRBLOCK)
      (dirBlock s₁.dir)) 0 s₁.mem.super.toBlock := by
    rw [← hsup]
    rfl
  have hlen : (ws ++ s₁.mem.metaWrites).length ≤ LOGN := by
    rw [List.length_append]
    exact hn
  have hdst : ∀ w ∈ ws ++ s₁.mem.metaWrites, ¬ fsJournal.Area w.1 := by
    intro w hm
    rw [fsJournal_area]
    rcases List.mem_append.1 hm with hm | hm
    · have hh := hw w hm
      simp only [DATASTART, LOGSTART, LOGN, MAXBLK] at hh
      omega
    · simp only [FsMem.metaWrites, List.mem_cons, List.not_mem_nil, or_false] at hm
      rcases hm with rfl | rfl <;> simp [DIRBLOCK]
  rw [he]
  obtain ⟨h₁, h₂, h₃, h₄, h₅⟩ := logCommit_logged hs (by simp [FsMem.metaWrites]) hlen hdst
  exact ⟨h₁, h₂, h₃, by rw [h₄, hsm.1, hdm.1], by rw [h₅, hsm.2, hdm.2, hu], hn, hw⟩

theorem logData_logged (data : Nat → UInt8) (size : Int32) (start nb : Nat) (h : s.faults = [])
    (hn : nb ≤ LOGN) (hs : start + nb < 2 ^ 32) :
    Logged s.disk s.trace (dataWrites data size start nb)
        (logData data size start nb (logBegin s)) ∧
      (logData data size start nb (logBegin s)).mem = s.mem ∧
      (logData data size start nb (logBegin s)).uart = s.uart := by
  induction nb with
  | zero => exact ⟨logBegin_logged h, rfl, rfl⟩
  | succ b ih =>
    obtain ⟨hl, hm, hu⟩ := ih (by omega) (by omega)
    have hw := logWrite_mem (logData data size start b (logBegin s)) (UInt32.ofInt (start + b))
      (dataBlock data size b)
    refine ⟨?_, hw.1.trans hm, hw.2.trans hu⟩
    have hd : (UInt32.ofInt ((start : Int) + b)).toNat = start + b := by
      rw [uint32_toNat_ofInt]
      omega
    have hl' := logWrite_logged hl (UInt32.ofInt (start + b)) (dataBlock data size b)
      (by simp only [dataWrites, List.length_map, List.length_range]; omega)
    rw [hd] at hl'
    simpa only [logData, dataWrites, List.range_succ, List.map_append, List.map_cons,
      List.map_nil] using hl'

theorem addEntry_mem (h : s.mem = s'.mem) :
    (addEntry s name size nblocks start).mem = (addEntry s' name size nblocks start).mem := by
  simp only [Fs.mem, FsMem.mk.injEq] at h
  obtain ⟨h₁, h₂, h₃, h₄, h₅, h₆⟩ := h
  simp only [addEntry, Fs.mem, h₁, h₂, h₃, h₄, h₅, h₆]

theorem fsCreate_effect (h : s.faults = []) (hc : CreateOk s name size start nb) :
    Effect s (dataWrites data size start nb)
      (addEntry s name size ((size + 512 - 1) / 512) start).mem
      (logCommit (logSuper (logDir (addEntry (logData data size start nb (logBegin s)) name size
        ((size + 512 - 1) / 512) start)))) := by
  have hle := hc.start_le
  have hge := hc.start_ge
  have hfit := hc.fits
  simp only [MAXBLK] at hle
  obtain ⟨hl, hm, hu⟩ := logData_logged data size start nb h (by omega) (by omega)
  rw [← addEntry_mem hm]
  apply logMeta_effect
  · exact hl.congr rfl rfl rfl rfl rfl rfl
  · exact hu
  · simpa only [dataWrites, List.length_map, List.length_range] using hfit
  · intro w hw
    simp only [dataWrites, List.mem_map, List.mem_range] at hw
    obtain ⟨b, hb, rfl⟩ := hw
    simp only [MAXBLK]
    omega

theorem fsDelete_effect (h : s.faults = []) :
    Effect s [] (removeEntry s idx).mem
      (logCommit (logSuper (logDir (logBegin (removeEntry s idx))))) := by
  have hl := logBegin_logged (s := removeEntry s idx) h
  exact logMeta_effect s (logBegin (removeEntry s idx)) hl rfl (by decide)
    (by simp)

end KernelHobby
