import KernelHobby.FsCrash
import KernelHobby.FsMap
import KernelHobby.FsScript

namespace KernelHobby
set_option autoImplicit true

section Remount
variable {d e : Nat → Block} {t : List (Nat × Block)} {f : List Bool}

theorem TxnSettled.pending (h : TxnSettled d t f e) (ht : TxnOk t)
    (hp : fsJournal.pending (d LOGHDR) = none) :
    fsJournal.pending (e LOGHDR) = if redone t f then some (t.map Prod.fst) else none := by
  have hc : fsJournal.pending (fsJournal.commit (t.map Prod.fst)) = some (t.map Prod.fst) := by
    apply pending_commit
    · rw [List.length_map]
      exact ht.length
    · intro b hb
      obtain ⟨w, hw, rfl⟩ := List.mem_map.1 hb
      exact ht.numbered w hw
  rw [h.hdr, redone]
  cases hk : fails f (3 * t.length + 1) with
  | false =>
    rw [if_neg (by simp), Bool.and_false, if_neg (by simp)]
    exact fsJournal.pending_clear
  | true =>
    rw [if_pos rfl, Bool.and_true]
    cases hn : fails f t.length with
    | false =>
      rw [if_neg (by simp), Bool.not_false, if_pos rfl]
      exact hc
    | true =>
      rw [if_pos rfl, Bool.not_true, if_neg (by simp)]
      exact hp

theorem TxnSettled.sound (h : TxnSettled d t f e) (ht : TxnOk t)
    (hp : fsJournal.pending (d LOGHDR) = none) : fsJournal.Sound e := by
  have hpe := h.pending ht hp
  intro w hw
  by_cases hr : redone t f = true
  · rw [if_pos hr] at hpe
    rw [fsJournal.owed_some hpe] at hw
    obtain ⟨i, hi, hb⟩ := List.getElem_of_mem (fsJournal.redo_mem hw)
    rw [List.length_map] at hi
    rw [← hb, List.getElem_map, ← List.getD_eq_getElem t (0, zeroBlock) hi]
    exact ht.dst i hi
  · rw [if_neg hr] at hpe
    rw [fsJournal.owed_none hpe] at hw
    cases hw

/-- What the disk means at the destinations of the transaction, and elsewhere. -/
theorem TxnSettled.logical (h : TxnSettled d t f e) (ht : TxnOk t)
    (hp : fsJournal.pending (d LOGHDR) = none) :
    (∀ i, i < t.length → fsJournal.logical e (t.getD i (0, zeroBlock)).1 = landed d t f i) ∧
      ∀ b, ¬ fsJournal.Area b → (∀ i, i < t.length → b ≠ (t.getD i (0, zeroBlock)).1) →
        fsJournal.logical e b = d b := by
  have hpe := h.pending ht hp
  by_cases hr : redone t f = true
  · rw [if_pos hr] at hpe
    rw [Journal.logical, fsJournal.owed_some hpe]
    have hfst := fsJournal.redo_fst e 0 (t.map Prod.fst)
    refine ⟨?_, ?_⟩
    · intro i hi
      have hlen : i < (t.map Prod.fst).length := by rwa [List.length_map]
      have hm := fsJournal.mem_redo e 0 hlen
      have hw := applyWrites_mem (d := e) hm (by rw [hfst]; exact ht.nodup)
      rw [List.getElem_map, ← List.getD_eq_getElem t (0, zeroBlock) hi, Nat.zero_add] at hw
      rw [hw, landed, if_pos hr]
      exact h.log i hi
    · intro b hb hne
      rw [applyWrites_other, h.other b hb hne]
      intro w hw he
      obtain ⟨i, hi, hwi⟩ := List.getElem_of_mem (fsJournal.redo_mem hw)
      rw [List.length_map] at hi
      rw [List.getElem_map, ← List.getD_eq_getElem t (0, zeroBlock) hi] at hwi
      exact hne i hi (he.symm.trans hwi.symm)
  · rw [if_neg hr] at hpe
    rw [fsJournal.logical_clean hpe]
    refine ⟨?_, h.other⟩
    intro i hi
    rw [h.home i hi, landed, if_neg hr]

end Remount

/-- What a call logs when it does not refuse: the data blocks and the tables it has built. -/
inductive Planned (s : Fs) : Call → List (Nat × Block) → FsMem → Prop where
  | create : CreateOk s name size start nb →
      Planned s (.create name data size) (dataWrites data size start nb)
        (addEntry s name size ((size + 512 - 1) / 512) start).mem
  | delete : s.mounted = true → findName s name = some idx →
      Planned s (.delete name) [] (removeEntry s idx).mem

/-- Everything that the next mount reads of the call arrives where the mount looks for it. -/
structure Arrives (d : Nat → Block) (ws : List (Nat × Block)) (m : FsMem) (f : List Bool) :
    Prop where
  magic : (FsSuperblock.ofBlock (home d (ws ++ m.metaWrites) f (ws.length + 1))).magic = FS_MAGIC
  dir : loadDir (landed d (ws ++ m.metaWrites) f ws.length) = m.dir
  count : clampFiles (FsSuperblock.ofBlock
    (landed d (ws ++ m.metaWrites) f (ws.length + 1))).nfiles = m.nfiles
  data : ∀ b k, b < ws.length → k < BSIZE →
    BSIZE * b + k < (m.dir (m.nfiles.toNat - 1)).size.toNat →
    (landed d (ws ++ m.metaWrites) f b).byte k = (ws.getD b (0, zeroBlock)).2.byte k

/-- A call with failing requests, then a mount on a working disk: the effect of the call if it
answered 0, and none if it answered -1. -/
def ErrorSafe (s : Fs) (c : Call) (f : List Bool) : Prop :=
  let r := c.exec { s with faults := f }
  let found := mount r.1.disk
  (r.2 = 0 → found.mounted = true ∧ found.view = (c.exec s).1.view) ∧
    (r.2 = -1 → found.mounted = true ∧ found.view = s.view)

/-- The shape of what a call logs. -/
structure PlanOk (ws : List (Nat × Block)) (m : FsMem) : Prop where
  mem : MemOk m
  fits : ws.length + 2 ≤ LOGN
  dst : ∀ w ∈ ws, DATASTART ≤ w.1 ∧ w.1 < MAXBLK
  nodup : (ws.map Prod.fst).Nodup
  last : 0 < ws.length → 0 < m.nfiles ∧ blocksOf (m.dir (m.nfiles.toNat - 1)).size = ws.length
  block : ∀ b, b < ws.length →
    (ws.getD b (0, zeroBlock)).1 = (m.dir (m.nfiles.toNat - 1)).start.toNat + b
  others : ∀ i b, i < m.nfiles.toNat → b < ws.length → i ≠ m.nfiles.toNat - 1 →
    ¬ extent (m.dir i) (ws.getD b (0, zeroBlock)).1

section Plan
variable {ws : List (Nat × Block)} {m : FsMem}

theorem PlanOk.txn_length (ws : List (Nat × Block)) (m : FsMem) :
    (ws ++ m.metaWrites).length = ws.length + 2 := List.length_append

theorem plan_dir (ws : List (Nat × Block)) (m : FsMem) :
    (ws ++ m.metaWrites).getD ws.length (0, zeroBlock) = (DIRBLOCK, dirBlock m.dir) := by
  rw [List.getD_append_right _ _ _ _ (Nat.le_refl _), Nat.sub_self]
  rfl

theorem plan_super (ws : List (Nat × Block)) (m : FsMem) :
    (ws ++ m.metaWrites).getD (ws.length + 1) (0, zeroBlock) = (0, m.super.toBlock) := by
  rw [List.getD_append_right _ _ _ _ (by omega), Nat.add_sub_cancel_left]
  rfl

theorem plan_data (m : FsMem) (hb : b < ws.length) :
    (ws ++ m.metaWrites).getD b (0, zeroBlock) = ws.getD b (0, zeroBlock) :=
  List.getD_append _ _ _ _ hb

theorem PlanOk.data_ge (h : PlanOk ws m) (hb : b < ws.length) :
    DATASTART ≤ (ws.getD b (0, zeroBlock)).1 ∧ (ws.getD b (0, zeroBlock)).1 < MAXBLK := by
  rw [List.getD_eq_getElem _ _ hb]
  exact h.dst _ (List.getElem_mem hb)

theorem PlanOk.txnOk (h : PlanOk ws m) : TxnOk (ws ++ m.metaWrites) := by
  have hd : DATASTART = 19 := rfl
  have hx : MAXBLK = 8192 := rfl
  refine ⟨?_, ?_, ?_, ?_⟩
  · rw [PlanOk.txn_length]
    exact h.fits
  · intro i hi
    rw [PlanOk.txn_length] at hi
    rw [fsJournal_area]
    rcases Nat.lt_trichotomy i ws.length with hlt | rfl | hgt
    · have hge := (h.data_ge hlt).1
      rw [plan_data m hlt]
      omega
    · rw [plan_dir]
      show ¬ (2 ≤ 1 ∧ 1 < 19)
      decide
    · have he : i = ws.length + 1 := by omega
      subst he
      rw [plan_super]
      show ¬ (2 ≤ 0 ∧ 0 < 19)
      decide
  · intro w hw
    rcases List.mem_append.1 hw with hw | hw
    · have hlt := (h.dst w hw).2
      omega
    · simp only [FsMem.metaWrites, List.mem_cons, List.not_mem_nil, or_false] at hw
      rcases hw with rfl | rfl <;> simp [DIRBLOCK]
  · rw [List.map_append, List.nodup_append]
    refine ⟨h.nodup, by simp [FsMem.metaWrites, DIRBLOCK], ?_⟩
    intro a ha b hb
    obtain ⟨w, hw, rfl⟩ := List.mem_map.1 ha
    have hge := (h.dst w hw).1
    simp only [FsMem.metaWrites, List.map_cons, List.map_nil, List.mem_cons, List.not_mem_nil,
      or_false, DIRBLOCK] at hb
    omega

/-- The disk that the next mount works on, at the blocks it reads. -/
structure Found (d : Nat → Block) (ws : List (Nat × Block)) (m : FsMem) (f : List Bool)
    (r : Nat → Block) : Prop where
  dir : r DIRBLOCK = landed d (ws ++ m.metaWrites) f ws.length
  super : r 0 = landed d (ws ++ m.metaWrites) f (ws.length + 1)
  data : ∀ b, b < ws.length →
    r (ws.getD b (0, zeroBlock)).1 = landed d (ws ++ m.metaWrites) f b
  other : ∀ b, DATASTART ≤ b → (∀ k, k < ws.length → b ≠ (ws.getD k (0, zeroBlock)).1) → r b = d b

theorem TxnSettled.found (h : TxnSettled d (ws ++ m.metaWrites) f e) (ho : PlanOk ws m)
    (hp : fsJournal.pending (d LOGHDR) = none)
    (hr : ∀ b, ¬ fsJournal.Area b → r b = fsJournal.logical e b) : Found d ws m f r := by
  have ht := ho.txnOk
  obtain ⟨hl, hother⟩ := h.logical ht hp
  have hlen := PlanOk.txn_length ws m
  refine ⟨?_, ?_, ?_, ?_⟩
  · have hh := hl ws.length (by omega)
    rw [plan_dir] at hh
    rw [hr DIRBLOCK (by rw [fsJournal_area, DIRBLOCK]; omega)]
    exact hh
  · have hh := hl (ws.length + 1) (by omega)
    rw [plan_super] at hh
    rw [hr 0 (by rw [fsJournal_area]; omega)]
    exact hh
  · intro b hb
    have hh := hl b (by omega)
    rw [plan_data m hb] at hh
    rw [hr _ (not_area_of_data (ho.data_ge hb).1), hh]
  · intro b hb hne
    rw [hr b (not_area_of_data hb)]
    apply hother b (not_area_of_data hb)
    intro i hi
    have hd : DATASTART = 19 := rfl
    rw [hlen] at hi
    rcases Nat.lt_trichotomy i ws.length with hlt | rfl | hgt
    · rw [plan_data m hlt]
      exact hne i hlt
    · rw [plan_dir]
      show b ≠ 1
      omega
    · have he : i = ws.length + 1 := by omega
      subst he
      rw [plan_super]
      show b ≠ 0
      omega

/-- The contents of the listed files are right exactly when the data blocks are, as far as the
new file reaches. -/
theorem Found.contents_iff (h : Found d ws m f r) (ho : PlanOk ws m)
    (hd : ∀ b, DATASTART ≤ b → d' b = applyWrites d ws b) :
    (∀ i, i < m.nfiles.toNat → contents r (m.dir i) = contents d' (m.dir i)) ↔
      ∀ b k, b < ws.length → k < BSIZE →
        BSIZE * b + k < (m.dir (m.nfiles.toNat - 1)).size.toNat →
        (landed d (ws ++ m.metaWrites) f b).byte k = (ws.getD b (0, zeroBlock)).2.byte k := by
  have hnew (b : Nat) (hb : b < ws.length) :
      d' (ws.getD b (0, zeroBlock)).1 = (ws.getD b (0, zeroBlock)).2 := by
    rw [hd _ (ho.data_ge hb).1]
    apply applyWrites_mem _ ho.nodup
    rw [List.getD_eq_getElem _ _ hb]
    exact List.getElem_mem hb
  have hold (b : Nat) (hb : DATASTART ≤ b)
      (hne : ∀ k, k < ws.length → b ≠ (ws.getD k (0, zeroBlock)).1) : d' b = d b := by
    rw [hd b hb]
    apply applyWrites_other
    intro w hw he
    obtain ⟨k, hk, rfl⟩ := List.getElem_of_mem hw
    apply hne k hk
    rw [List.getD_eq_getElem _ _ hk]
    exact he.symm
  -- the byte of the new file that lies at `k` in block `b`
  have hbyte (b k : Nat) (hb : b < ws.length) (hk : k < BSIZE) (x : Nat → Block) :
      fileByte x (m.dir (m.nfiles.toNat - 1)) (BSIZE * b + k) =
        (x (ws.getD b (0, zeroBlock)).1).byte k := by
    obtain ⟨hpos, hlen⟩ := ho.last (by omega)
    have hx := ho.mem.extents (m.nfiles.toNat - 1) (by omega)
    have hq : (BSIZE * b + k) / BSIZE = b := by
      simp only [BSIZE] at hk ⊢
      omega
    have hm : (BSIZE * b + k) % BSIZE = k := by
      simp only [BSIZE] at hk ⊢
      omega
    rw [fileByte, hq, hm, hx.block (by omega), ho.block b hb]
  constructor
  · intro hc b k hb hk hlt
    obtain ⟨hpos, _⟩ := ho.last (by omega)
    have hl := hc (m.nfiles.toNat - 1) (by omega)
    have hg := congrArg (fun l => l.getD (BSIZE * b + k) 0) hl
    simp only [contents_getD _ hlt] at hg
    rwa [hbyte b k hb hk, hbyte b k hb hk, h.data b hb, hnew b hb] at hg
  · intro hdata i hi
    have hx := ho.mem.extents i hi
    by_cases hlast : i = m.nfiles.toNat - 1 ∧ 0 < ws.length
    · obtain ⟨rfl, hw⟩ := hlast
      obtain ⟨hpos, hlen⟩ := ho.last hw
      apply List.map_congr_left
      intro j hj
      rw [List.mem_range] at hj
      have hb : j / BSIZE < ws.length := by
        rw [← hlen, blocksOf]
        simp only [BSIZE]
        omega
      have hk : j % BSIZE < BSIZE := Nat.mod_lt _ (by decide)
      have hjj : BSIZE * (j / BSIZE) + j % BSIZE = j := Nat.div_add_mod j BSIZE
      have hv := hdata (j / BSIZE) (j % BSIZE) hb hk (by omega)
      rw [← hjj, hbyte _ _ hb hk, hbyte _ _ hb hk, h.data _ hb, hnew _ hb, hv]
    · apply contents_congr hx
      intro b hb
      have hge : DATASTART ≤ b := Nat.le_trans hx.1 hb.1
      have hne : ∀ k, k < ws.length → b ≠ (ws.getD k (0, zeroBlock)).1 := by
        rintro k hk rfl
        exact ho.others i k hi hk (fun he => hlast ⟨he, by omega⟩) hb
      rw [h.other b hge hne, hold b hge hne]

/-- The next mount shows the new tables and contents exactly when everything arrives. -/
theorem TxnSettled.view_iff (h : TxnSettled d (ws ++ m.metaWrites) f e) (ho : PlanOk ws m)
    (hp : fsJournal.pending (d LOGHDR) = none)
    (hd : ∀ b, DATASTART ≤ b → d' b = applyWrites d ws b) :
    ((mount e).mounted = true ∧ (mount e).view = m.view d') ↔ Arrives d ws m f := by
  have hlen := PlanOk.txn_length ws m
  have h0 : e 0 = KernelHobby.home d (ws ++ m.metaWrites) f (ws.length + 1) := by
    have hh := h.home (ws.length + 1) (by omega)
    rw [plan_super] at hh
    exact hh
  by_cases hmagic : (FsSuperblock.ofBlock (e 0)).magic = FS_MAGIC
  · obtain ⟨h₁, _, _, h₄, _⟩ := mount_spec (h.sound ho.txnOk hp) hmagic
    have hmt : (mount e).mounted = true := (mount_replayed hmagic).mounted
    set r := applyWrites e (fsJournal.recovery e) with hr
    have hf := h.found ho hp (r := r) fun b hb => (fsJournal.recovery_complete e).2 b hb
    have hview : (mount e).view = m.view d' ↔
        loadDir (r DIRBLOCK) = m.dir ∧
          clampFiles (FsSuperblock.ofBlock (r 0)).nfiles = m.nfiles ∧
          ∀ i, i < m.nfiles.toNat → contents r (m.dir i) = contents d' (m.dir i) := by
      rw [Fs.view, h₁, h₄]
      simp only [FsMem.view, FsView.mk.injEq, loadMem]
      constructor
      · rintro ⟨ha, hb, hc⟩
        rw [ha, hb] at hc
        refine ⟨ha, hb, fun i hi => ?_⟩
        exact List.map_inj_left.1 hc i (List.mem_range.2 hi)
      · rintro ⟨ha, hb, hc⟩
        rw [ha, hb]
        exact ⟨rfl, rfl, List.map_congr_left fun i hi => hc i (List.mem_range.1 hi)⟩
    rw [hview, hf.contents_iff ho hd, hf.dir, hf.super]
    constructor
    · rintro ⟨_, ha, hb, hc⟩
      exact ⟨h0 ▸ hmagic, ha, hb, hc⟩
    · rintro ⟨_, ha, hb, hc⟩
      exact ⟨hmt, ha, hb, hc⟩
  · rw [mount_refused hmagic]
    constructor
    · rintro ⟨hx, _⟩
      cases hx
    · intro ha
      exact absurd (h0 ▸ ha.magic) hmagic

end Plan

theorem addEntry_planOk (hm : MemOk s.mem) (hr : Rep s.mem) (hc : CreateOk s name size start nb)
    (data : Nat → UInt8) :
    PlanOk (dataWrites data size start nb)
      (addEntry s name size ((size + 512 - 1) / 512) start).mem := by
  obtain ⟨hd, hn, _⟩ := addEntry_mem_eq hc
  have h₀ : 0 ≤ s.nfiles := hm.nfiles_nonneg
  have hlen : (dataWrites data size start nb).length = nb := by
    simp only [dataWrites, List.length_map, List.length_range]
  have hget (b : Nat) (hb : b < nb) :
      ((dataWrites data size start nb).getD b (0, zeroBlock)).1 = start + b := by
    rw [List.getD_eq_getElem _ _ (by rwa [hlen])]
    simp only [dataWrites, List.getElem_map, List.getElem_range]
  have hlast : (addEntry s name size ((size + 512 - 1) / 512) start).mem.nfiles.toNat - 1 =
      s.nfiles.toNat := by
    rw [hn]
    omega
  have hentry : (addEntry s name size ((size + 512 - 1) / 512) start).mem.dir s.nfiles.toNat =
      newEntry s name size start := by
    rw [hd, Function.update_self]
  have hge := hc.start_ge
  have hle := hc.start_le
  refine ⟨addEntry_memOk hm hc, ?_, ?_, ?_, ?_, ?_, ?_⟩
  · rw [hlen]
    exact hc.fits
  · intro w hw
    simp only [dataWrites, List.mem_map, List.mem_range] at hw
    obtain ⟨b, hb, rfl⟩ := hw
    dsimp only
    omega
  · rw [dataWrites, List.map_map]
    apply List.Nodup.map _ List.nodup_range
    intro a b hab
    have hab' : start + a = start + b := hab
    omega
  · intro _
    rw [hlast, hentry, hlen]
    refine ⟨?_, hc.blocksOf⟩
    rw [hn]
    omega
  · intro b hb
    rw [hlen] at hb
    rw [hlast, hentry, hget b hb]
    exact congrArg (· + b) hc.start_toNat.symm
  · intro i b hi hb hne
    rw [hlen] at hb
    rw [hn] at hi
    rw [hlast] at hne
    rw [hget b hb, hd, Function.update_of_ne hne]
    intro hx
    exact hc.fresh hr (by omega) hx ⟨by omega, by omega⟩

theorem removeEntry_planOk (hm : MemOk s.mem) (hi : idx < s.nfiles.toNat) :
    PlanOk [] (removeEntry s idx).mem where
  mem := removeEntry_memOk hm hi
  fits := by decide
  dst := by simp
  nodup := List.nodup_nil
  last := by simp
  block := by simp
  others := by simp

theorem Planned.ok (h : Planned s c ws m) (hm : MemOk s.mem) (hr : Rep s.mem) : PlanOk ws m := by
  cases h with
  | create hc => exact addEntry_planOk hm hr hc _
  | delete _ hf => exact removeEntry_planOk hm (findName_lt hf)

section Faulted
variable {s : Fs}

theorem logData_filled (data : Nat → UInt8) (size : Int32) (start nb : Nat) (s : Fs)
    (hn : nb ≤ LOGN) (hs : start + nb < 2 ^ 32) :
    LogFilled s.disk s.faults (dataWrites data size start nb)
      (logData data size start nb (logBegin s)) := by
  induction nb with
  | zero => exact logBegin_filled s
  | succ b ih =>
    have hl := ih (by omega) (by omega)
    have hd : (UInt32.ofInt ((start : Int) + b)).toNat = start + b := by
      rw [uint32_toNat_ofInt]
      omega
    have hl' := logWrite_filled hl (UInt32.ofInt (start + b)) (dataBlock data size b)
      (by simp only [dataWrites, List.length_map, List.length_range]; omega)
    rw [hd] at hl'
    simpa only [logData, dataWrites, List.range_succ, List.map_append, List.map_cons,
      List.map_nil] using hl'

theorem LogFilled.congr (h : LogFilled d f t s) (hd : s'.disk = s.disk) (hf : s'.faults = s.faults)
    (hn : s'.logN = s.logN) (ho : s'.logOverflow = s.logOverflow) (hb : s'.logBlk = s.logBlk) :
    LogFilled d f t s' where
  faults := hf.trans h.faults
  log := by rw [hd]; exact h.log
  other := by rw [hd]; exact h.other
  logN := hn.trans h.logN
  overflow := ho.trans h.overflow
  blk := by rw [hb]; exact h.blk

/-- Logging the metadata and committing settles the transaction. -/
theorem logMeta_settled (h : LogFilled d f ws s) (ho : PlanOk ws s.mem) :
    TxnSettled d (ws ++ s.mem.metaWrites) f (logCommit (logSuper (logDir s))).disk := by
  have hfit := ho.fits
  have hd := logWrite_filled h (UInt32.ofNat DIRBLOCK) (dirBlock s.dir) (by omega)
  have hdm := logWrite_mem s (UInt32.ofNat DIRBLOCK) (dirBlock s.dir)
  have hsup : (logWrite s (UInt32.ofNat DIRBLOCK) (dirBlock s.dir)).mem.super =
      s.mem.super := by rw [hdm.1]
  have hs := logWrite_filled hd 0 s.mem.super.toBlock (by
    rw [List.length_append, List.length_singleton]
    omega)
  have ht : ws ++ [((UInt32.ofNat DIRBLOCK).toNat, dirBlock s.dir)] ++
      [((0 : UInt32).toNat, s.mem.super.toBlock)] = ws ++ s.mem.metaWrites := by
    rw [List.append_assoc]
    rfl
  rw [ht] at hs
  have he : logSuper (logDir s) = logWrite (logWrite s (UInt32.ofNat DIRBLOCK)
      (dirBlock s.dir)) 0 s.mem.super.toBlock := by
    rw [← hsup]
    rfl
  rw [he]
  exact logCommit_settled hs ho.txnOk (by simp [FsMem.metaWrites])

theorem ballocScan_congr (hu : s'.used = s.used) (ht : s'.totalBlocks = s.totalBlocks)
    (nblocks : Int32) (fuel : Nat) (b : UInt32) :
    ballocScan s' nblocks fuel b = ballocScan s nblocks fuel b := by
  induction fuel generalizing b with
  | zero => rfl
  | succ fuel ih => simp only [ballocScan, hu, ht, ih]

theorem CreateOk.congr (h : CreateOk s name size start nb) (hm : r.mem = s.mem) :
    CreateOk r name size start nb := by
  simp only [Fs.mem, FsMem.mk.injEq] at hm
  obtain ⟨hd, hn, hmt, _, ht, hu⟩ := hm
  have hfind : findName r name = findName s name := by rw [findName, findName, hd, hn]
  have hall : ballocContig r ((size + 512 - 1) / 512) = ballocContig s ((size + 512 - 1) / 512) := by
    rw [ballocContig, ballocContig, ballocScan_congr hu ht]
  exact ⟨hmt.trans h.mounted, hn ▸ h.room, hfind.trans h.absent, h.nonneg, h.blocks, h.nblocks,
    h.fits, hall.trans h.chosen, h.start_ge, h.start_le, fun hnb => ht ▸ h.total hnb,
    fun k hk => hu ▸ h.free k hk⟩

theorem CreateOk.ret (h : CreateOk s name size start nb) (data : Nat → UInt8) :
    fsCreate s name data size =
      (logCommit (logSuper (logDir (addEntry (logData data size start nb (logBegin s)) name size
        ((size + 512 - 1) / 512) start))), 0) := by
  have hroom := h.room
  have hneg := not_neg h.nonneg
  have hlog := log_room h.nblocks h.fits
  rw [fsCreate, if_neg (by simp [h.mounted, hneg]; omega), if_neg (by simp [h.absent])]
  dsimp only
  rw [if_neg hlog, h.chosen, if_neg (by omega), h.nblocks, Int.toNat_natCast]

theorem fsDelete_found (hm : s.mounted = true) (hf : findName s name = some idx) :
    fsDelete s name = (logCommit (logSuper (logDir (logBegin (removeEntry s idx)))), 0) := by
  simp only [fsDelete, hm, Bool.not_true, Bool.false_eq_true, ↓reduceIte, hf]

theorem fsDelete_absent (hf : findName s name = none) : fsDelete s name = (s, -1) := by
  rw [fsDelete]
  split
  · rfl
  · rw [hf]

/-- A call that does not refuse answers 0 and leaves a settled transaction, whatever fails. -/
theorem Planned.settled (h : Planned s c ws m) (hm : MemOk s.mem) (hr : Rep s.mem) (f : List Bool) :
    (c.exec { s with faults := f }).2 = 0 ∧
      TxnSettled s.disk (ws ++ m.metaWrites) f (c.exec { s with faults := f }).1.disk := by
  have ho := h.ok hm hr
  cases h with
  | @create name size start nb data hc =>
    have he := (hc.congr (r := { s with faults := f }) rfl).ret data
    have hle := hc.start_le
    have hfit := hc.fits
    simp only [MAXBLK] at hle
    have hfill := logData_filled data size start nb { s with faults := f } (by omega) (by omega)
    have hmem : (addEntry (logData data size start nb (logBegin { s with faults := f })) name size
        ((size + 512 - 1) / 512) start).mem =
          (addEntry s name size ((size + 512 - 1) / 512) start).mem :=
      addEntry_mem (logData_mem data size start nb _)
    rw [Call.exec, he]
    refine ⟨rfl, ?_⟩
    rw [← hmem] at ho ⊢
    exact logMeta_settled (hfill.congr rfl rfl rfl rfl rfl) ho
  | @delete name idx hmt hf =>
    rw [Call.exec, fsDelete_found (s := { s with faults := f }) hmt hf]
    refine ⟨rfl, ?_⟩
    exact logMeta_settled (s := logBegin (removeEntry { s with faults := f } idx))
      (logBegin_filled (removeEntry { s with faults := f } idx)) ho

/-- What the call does on a working disk. -/
theorem Planned.effect (h : Planned s c ws m) (hw : FsWf s) : Effect s ws m (c.exec s).1 := by
  cases h with
  | @create name size start nb data hc =>
    rw [Call.exec, hc.ret data]
    exact fsCreate_effect hw.faults hc
  | @delete name idx hmt hf =>
    rw [Call.exec, fsDelete_found hmt hf]
    exact fsDelete_effect hw.faults

theorem Planned.unique (h : Planned s c ws m) (h' : Planned s c ws' m') : ws' = ws ∧ m' = m := by
  cases h with
  | create hc =>
    cases h' with
    | create hc' =>
      have hs := hc.chosen.symm.trans hc'.chosen
      have hb := hc.blocks.trans hc'.blocks.symm
      rw [Int.natCast_inj.1 hs, hb]
      exact ⟨rfl, rfl⟩
  | delete _ hf =>
    cases h' with
    | delete _ hf' =>
      rw [hf, Option.some.injEq] at hf'
      rw [hf']
      exact ⟨rfl, rfl⟩

/-- A call that has nothing planned refuses. -/
theorem Call.planned_or_refused (s : Fs) (c : Call) (f : List Bool) :
    (∃ ws m, Planned s c ws m) ∨
      c.exec { s with faults := f } = ({ s with faults := f }, -1) := by
  cases c with
  | create name data size =>
    rcases fsCreate_cases { s with faults := f } name data size with he | ⟨start, nb, hc, _⟩
    · exact .inr he
    · exact .inl ⟨_, _, .create (hc.congr (r := s) rfl)⟩
  | delete name =>
    by_cases hm : s.mounted = true
    · cases hf : findName s name with
      | none => exact .inr (fsDelete_absent (s := { s with faults := f }) hf)
      | some idx => exact .inl ⟨_, _, .delete hm hf⟩
    · right
      simp only [exec, fsDelete, Bool.eq_false_iff.2 hm, Bool.not_false, ↓reduceIte]

theorem FsWf.view_remount (h : FsWf s) :
    (mount s.disk).mounted = true ∧ (mount s.disk).view = s.view := by
  obtain ⟨h₁, _, _, h₄, _⟩ := h.disk.mount h.mem
  have hd : (mount s.disk).mem.dir = s.mem.dir := by rw [h₄]
  have hn : (mount s.disk).mem.nfiles = s.mem.nfiles := by rw [h₄]
  refine ⟨(mount_replayed h.disk.magic).mounted, ?_⟩
  rw [Fs.view, Fs.view, FsMem.view, FsMem.view, hd, hn, h₁]

theorem ErrorSafe.arrives (h : ErrorSafe s c f) (hw : FsWf s) (hr : Rep s.mem)
    (hp : Planned s c ws m) : Arrives s.disk ws m f := by
  obtain ⟨h₀, hset⟩ := hp.settled hw.mem hr f
  have he := hp.effect hw
  have hview : (c.exec s).1.view = m.view (c.exec s).1.disk := by rw [Fs.view, he.mem]
  have hfound := h.1 h₀
  rw [hview] at hfound
  exact (hset.view_iff (hp.ok hw.mem hr) hw.disk.log fun b hb => he.disk_data hb).1 hfound

end Faulted

/-- Disk errors do no harm exactly when everything that a call logs arrives all the same. -/
theorem errorSafe_iff (hw : FsWf s) (hr : Rep s.mem) (c : Call) (f : List Bool) :
    ErrorSafe s c f ↔ ∀ ws m, Planned s c ws m → Arrives s.disk ws m f := by
  constructor
  · intro h ws m hp
    exact h.arrives hw hr hp
  · intro h
    rcases c.planned_or_refused s f with ⟨ws, m, hp⟩ | href
    · obtain ⟨h₀, hset⟩ := hp.settled hw.mem hr f
      have he := hp.effect hw
      have hview : (c.exec s).1.view = m.view (c.exec s).1.disk := by rw [Fs.view, he.mem]
      refine ⟨fun _ => ?_, fun hneg => ?_⟩
      · rw [hview]
        exact (hset.view_iff (hp.ok hw.mem hr) hw.disk.log fun b hb => he.disk_data hb).2
          (h ws m hp)
      · rw [h₀] at hneg
        exact absurd hneg (by decide)
    · rw [ErrorSafe, href]
      exact ⟨fun h₀ => absurd h₀ (show (-1 : Int) ≠ 0 by decide), fun _ => hw.view_remount⟩

theorem emptyFile_rep : Rep (mount emptyFileImage.disk).mem :=
  Reachable.rep emptyFileImage_sizesOk .mkfs

theorem emptyFile_delete :
    Planned (mount emptyFileImage.disk) (.delete nameA) []
      (removeEntry (mount emptyFileImage.disk) 0).mem := by
  apply Planned.delete emptyFileImage.wf.mem.mounted
  rw [emptyFileImage.findName_mount]
  decide

theorem errorSafe_iff_emptyFile :
    let s := mount emptyFileImage.disk
    FsWf s ∧ Rep s.mem ∧ (ErrorSafe s (.delete nameA) [false, true] ↔
      ∀ ws m, Planned s (.delete nameA) ws m → Arrives s.disk ws m [false, true]) :=
  ⟨emptyFileImage.wf, emptyFile_rep, errorSafe_iff emptyFileImage.wf emptyFile_rep _ _⟩

theorem home_superFails (d : Nat → Block) (m : FsMem) :
    home d ([] ++ m.metaWrites) [false, true] 1 = d (LOGSTART + 1) := rfl

/-- The write of the superblock into the log fails, so that `fs_delete` installs what the log
block held before, and answers 0. -/
theorem not_errorSafe_emptyFile :
    ¬ ErrorSafe (mount emptyFileImage.disk) (.delete nameA) [false, true] := by
  intro h
  have ha := (h.arrives emptyFileImage.wf emptyFile_rep emptyFile_delete).magic
  have hd : (mount emptyFileImage.disk).disk (LOGSTART + 1) = zeroBlock := by
    rw [emptyFileImage.mount_spec.1]
    rfl
  rw [List.length_nil, Nat.zero_add, home_superFails, hd] at ha
  have hz : (FsSuperblock.ofBlock zeroBlock).magic = 0 := MkfsImage.zeroBlock_u32
  rw [hz] at ha
  exact absurd ha (by decide)

end KernelHobby
