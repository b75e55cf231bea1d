import KernelHobby.BlkInv

namespace KernelHobby
set_option autoImplicit true

variable {L : BlkData}

namespace Blk
variable {s s' : Blk L} {c : DiskReq L} {m : Nat → UInt8} {d : Nat → Block} {k : Nat}

theorem diskInit_inv (m₀ : Nat → UInt8) (d₀ : Nat → Block) (ok torn : Bool) :
    (diskInit L m₀ d₀ ok torn).Inv m₀ d₀ :=
  ⟨m₀, d₀, .nil, ⟨rfl, rfl, rfl, rfl⟩, fun _ _ => rfl, rfl⟩

theorem step_torn (hs : s.step a = some s') : s'.torn = s.torn := by
  cases a with
  | start c =>
    simp only [step, Blk.start] at hs
    split at hs
    · split at hs
      · cases hs
        rfl
      · cases hs
        rfl
    · cases hs
  | driver =>
    simp only [step, Blk.driver] at hs
    split at hs
    · cases hs
    · rename_i c n _
      cases hs
      obtain ⟨_, _, _, _, _, _, ht, _⟩ := assign_kept s c n
      exact ht
    · split at hs
      · cases hs
        rfl
      · cases hs
        rfl
    · cases hs
      rfl
  | poke j v =>
    simp only [step, Blk.poke] at hs
    split at hs
    · cases hs
    · cases hs
      rfl
  | take =>
    simp only [step, Blk.take] at hs
    split at hs
    · cases hs
    · cases hs
      rfl
  | move =>
    simp only [step, Blk.move] at hs
    split at hs
    · split at hs
      · split at hs
        · cases hs
          rfl
        · split at hs
          · cases hs
            rfl
          · cases hs
      · cases hs
    · cases hs
  | report st =>
    simp only [step, Blk.report] at hs
    split at hs
    · split at hs
      · cases hs
        rfl
      · cases hs
    · cases hs
  | publish =>
    simp only [step, Blk.publish] at hs
    split at hs
    · cases hs
      rfl
    · cases hs

theorem run_torn (hr : s.run as = some s') : s'.torn = s.torn := by
  induction as generalizing s with
  | nil =>
    cases hr
    rfl
  | cons a as ih =>
    obtain ⟨t, ht, hr⟩ := Option.bind_eq_some_iff.1 hr
    exact (ih hr).trans (step_torn ht)

/-- The driver's data at the bottom of memory, `fsbuf` at 1024. -/
def lowData : BlkData := ⟨0, 16, .inr (Nat.le_refl _)⟩

def lowReq (block : UInt64) (write : Bool) : DiskReq lowData where
  block := block
  buf := 1024
  write := write
  apart := by
    intro j hj _ ho
    rcases ho with ⟨_, ho⟩ | ho
    · exact absurd hj (Nat.not_le.2 (Nat.lt_trans ho (by decide)))
    · subst ho
      exact absurd hj (by decide)

/-- A write of block 5 that fails after two bytes. -/
def tornRun : List (Act lowData) :=
  .start (lowReq 5 true) :: List.replicate 7 .driver ++
    [.take, .move, .move, .report 1, .publish, .driver, .driver]

def tornDisk : Blk lowData :=
  ((diskInit lowData (fun _ => 7) (fun _ => zeroBlock) true true).run tornRun).getD
    (diskInit lowData (fun _ => 7) (fun _ => zeroBlock) true true)

/-- Whatever the driver and the device do in between, a run of calls leaves memory outside of the
driver's data and the disk as the calls done at once, in the order in which they returned. -/
theorem disk_atomic (m₀ : Nat → UInt8) (d₀ : Nat → Block) (ok torn : Bool)
    (hr : (diskInit L m₀ d₀ ok torn).run as = some s) (hc : s.call = .idle) :
    ∃ m d, Atomically torn m₀ d₀ s.log m d ∧ (∀ j, ¬ L.Own j → s.mem j = m j) ∧ s.disk = d := by
  obtain ⟨m, d, ha, hh⟩ := (diskInit_inv m₀ d₀ ok torn).run hr
  obtain ⟨_, hw⟩ := (holds_idle hc).1 hh
  rw [run_torn hr] at ha
  exact ⟨m, d, ha, hw.mem, hw.disk⟩

theorem disk_atomic_torn : tornDisk.log = [.rw (lowReq 5 true) (-1)] ∧
    (tornDisk.disk 5).byte 1 = 7 ∧ (tornDisk.disk 5).byte 2 = 0 ∧
    ∃ m d, Atomically true (fun _ => 7) (fun _ => zeroBlock) tornDisk.log m d ∧
      (∀ j, ¬ lowData.Own j → tornDisk.mem j = m j) ∧ tornDisk.disk = d := by
  have hr : (diskInit lowData (fun _ => 7) (fun _ => zeroBlock) true true).run tornRun =
      some tornDisk := rfl
  exact ⟨rfl, rfl, rfl, disk_atomic _ _ true true hr rfl⟩

/-- A step of the driver or of the device. -/
def Act.inside : Act L → Bool
  | .start _ | .poke _ _ => false
  | .driver | .take | .move | .report _ | .publish => true

/-- The driver and the device alone can bring the call under way to its end. -/
def Returns (s : Blk L) : Prop :=
  ∃ as s', s.run as = some s' ∧ s'.call = .idle ∧ ∀ a ∈ as, a.inside = true

theorem Returns.idle (hc : s.call = .idle) : s.Returns :=
  ⟨[], s, rfl, hc, nofun⟩

theorem Returns.step (hr : s'.Returns) (hs : s.step a = some s') (ha : a.inside = true) :
    s.Returns := by
  obtain ⟨as, t, hrun, hc, has⟩ := hr
  refine ⟨a :: as, t, ?_, hc, ?_⟩
  · rw [run, hs]
    exact hrun
  · intro b hb
    rcases List.mem_cons.1 hb with rfl | hb
    · exact ha
    · exact has b hb

theorem returns_finish (hc : s.call = .finish c) : s.Returns := by
  have hs : s.driver = some { s with
      usedSeen := s.usedIdx
      call := .idle
      log := s.log ++ [.rw c (if s.mem L.bstatus = 0 then 0 else -1)] } := by
    simp only [Blk.driver, hc]
  exact Returns.step (a := .driver) (.idle rfl) hs rfl

/-- The completion is there, and the driver leaves its loop. -/
theorem returns_published (hc : s.call = .poll c) (hu : s.usedIdx ≠ s.usedSeen) : s.Returns := by
  have hs : s.driver = some { s with call := .finish c } := by
    simp only [Blk.driver, hc, if_neg hu]
  exact Returns.step (a := .driver) (returns_finish rfl) hs rfl

theorem returns_reported (hc : s.call = .poll c) (hj : s.job = some ⟨0, k, some st⟩)
    (hu : s.usedIdx = s.usedSeen) : s.Returns := by
  apply Returns.step (a := .publish)
  · apply returns_published (c := c) (s := { s with
      usedRing := Function.update s.usedRing (s.usedIdx.toNat % NUM) ⟨(0 : Nat).toUInt32, k.toUInt32⟩
      usedIdx := s.usedIdx + 1
      job := none })
    · exact hc
    · rw [hu]
      exact succ_ne _
  · simp only [step, Blk.publish, hj]
  · rfl

/-- The device moves the bytes that are left and reports that it is done. -/
theorem Moving.returns (hm : s.Moving m d c k) : s.Returns := by
  have hle := hm.le
  obtain ⟨n, hn⟩ : ∃ n, n = BSIZE - k := ⟨_, rfl⟩
  induction n generalizing s k with
  | zero =>
    have hk : k = BSIZE := by omega
    apply Returns.step (a := .report 0)
    · exact returns_reported (s := { s.setByte L.bstatus 0 with job := some ⟨0, k, some 0⟩ })
        hm.call rfl hm.used
    · rw [step, hm.report, if_pos (.inl ⟨rfl, hk⟩)]
    · rfl
  | succ n ih =>
    have hlt : k < BSIZE := by omega
    obtain ⟨t, ht⟩ : ∃ t, s.move = some t := by
      rw [hm.move, if_pos hlt]
      exact ⟨_, rfl⟩
    exact (ih (hm.moved ht) hlt (by omega)).step (a := .move) ht rfl

theorem Holds.returns_poll (hh : s.Holds m d) (hc : s.call = .poll c) : s.Returns := by
  obtain ⟨k, hp, hch, hav, hw⟩ := (holds_poll hc).1 hh
  cases hp with
  | posted hj hl hu hr =>
    have hne : ¬ (s.job.isSome ∨ s.lastAvail = s.availIdx) := by
      rw [hj, hl, hav]
      rintro (hx | hx)
      · cases hx
      · exact succ_ne _ hx.symm
    have ht : s.take = some { s with
        job := some ⟨(s.availRing (s.lastAvail.toNat % NUM)).toNat, 0, none⟩
        lastAvail := s.lastAvail + 1 } := if_neg hne
    have hm : Moving { s with
        job := some ⟨(s.availRing (s.lastAvail.toNat % NUM)).toNat, 0, none⟩
        lastAvail := s.lastAvail + 1 } m d c 0 := by
      refine ⟨hc, ?_, ⟨hch.header, hch.desc0, hch.desc1, hch.desc2⟩, ?_, hu, Nat.zero_le _, hav,
        hw.mem, hw.disk⟩
      · simp only [hl, hr]
        rfl
      · simp only [hl, hav]
    exact hm.returns.step (a := .take) ht rfl
  | moving _ hj _ _ _ =>
    obtain ⟨c', hm⟩ := hh.moving hj
    exact hm.returns
  | reported _ st hj _ hu _ _ _ => exact returns_reported hc hj hu
  | published _ _ _ hu _ _ =>
    apply returns_published hc
    rw [hu, hav]
    exact succ_ne _

theorem Inv.returns_setup (hi : s.Inv m₀ d₀) (hc : s.call = .setup c n) : s.Returns := by
  obtain ⟨k, hk⟩ : ∃ k, k = 6 - n.val := ⟨_, rfl⟩
  induction k generalizing s n with
  | zero =>
    have hn : ¬ n.val + 1 < 7 := by omega
    have hs : s.driver = some { s.assign c n with call := .poll c } := by
      simp only [Blk.driver, hc, hn, ↓reduceDIte]
    obtain ⟨m, d, _, hh⟩ := hi.driver hs
    exact (hh.returns_poll rfl).step (a := .driver) hs rfl
  | succ k ih =>
    have hn : n.val + 1 < 7 := by omega
    have hs : s.driver = some { s.assign c n with call := .setup c ⟨n + 1, hn⟩ } := by
      simp only [Blk.driver, hc, hn, ↓reduceDIte]
    apply Returns.step (a := .driver) ?_ hs rfl
    apply ih (hi.driver hs) rfl
    simp only
    omega

/-- The driver never waits for a completion that cannot come: from every state of every run the
driver and the device alone can end the call under way. -/
theorem disk_returns (m₀ : Nat → UInt8) (d₀ : Nat → Block) (ok torn : Bool)
    (hr : (diskInit L m₀ d₀ ok torn).run as = some s) : s.Returns := by
  have hi := (diskInit_inv m₀ d₀ ok torn).run hr
  cases hc : s.call with
  | idle => exact .idle hc
  | setup c n => exact hi.returns_setup hc
  | poll c =>
    obtain ⟨m, d, _, hh⟩ := hi
    exact hh.returns_poll hc
  | finish c => exact returns_finish hc

/-- The same run in the middle of the transfer. -/
def midway : Blk lowData :=
  ((diskInit lowData (fun _ => 7) (fun _ => zeroBlock) true true).run (tornRun.take 10)).getD
    (diskInit lowData (fun _ => 7) (fun _ => zeroBlock) true true)

theorem disk_returns_midway : midway.Returns := by
  have hr : (diskInit lowData (fun _ => 7) (fun _ => zeroBlock) true true).run (tornRun.take 10) =
      some midway := rfl
  exact disk_returns _ _ true true hr

end Blk

/-- Which calls have failed, oldest first. -/
def failures (es : List (DiskEvent L)) : List Bool :=
  es.filterMap fun
    | .rw _ r => some (r ≠ 0)
    | .poke _ _ => none

/-- The file system's account of an event; `fsbuf` is at `at`. -/
def Fs.event (fsbuf : Nat) (s : Fs) : DiskEvent L → Fs
  | .rw c _ => (virtioDiskRw s c.block.toNat c.write).1
  | .poke j v => { s with fsbuf := fun i => if fsbuf + i = j then v else s.fsbuf i }

/-- `fsbuf` in memory and the disk are as the file system's account has them. -/
structure FsAccount (fsbuf : Nat) (m : Nat → UInt8) (d : Nat → Block) (s : Fs) : Prop where
  disk : s.disk = d
  buf : s.fsbuf = fun i : Fin BSIZE => m (fsbuf + i)

theorem concat_split {es es₁ es₂ : List α} (h : es ++ [e] = es₁ ++ x :: es₂) :
    es₂ = [] ∧ es = es₁ ∧ e = x ∨ ∃ es₃, es₂ = es₃ ++ [e] ∧ es = es₁ ++ x :: es₃ := by
  rcases List.eq_nil_or_concat es₂ with rfl | ⟨es₃, e', rfl⟩
  · left
    obtain ⟨h₁, h₂⟩ := List.append_inj' h rfl
    exact ⟨rfl, h₁, (List.cons.inj h₂).1⟩
  · right
    rw [List.concat_eq_append, ← List.cons_append, ← List.append_assoc] at h
    obtain ⟨h₁, h₂⟩ := List.append_inj' h rfl
    obtain rfl := (List.cons.inj h₂).1
    exact ⟨es₃, List.concat_eq_append, h₁⟩

/-- A call that is done at once, as the file system has it. -/
theorem FsAccount.rw {fsbuf : Nat} {f : Fs} {c : DiskReq L} (hf : FsAccount fsbuf m d f)
    (hc : c.buf = fsbuf) (hfaults : f.faults = decide (r ≠ 0) :: rest)
    (hr : r = 0 ∧ k = BSIZE ∨ r = -1 ∧ (false = true ∨ k = 0)) :
    FsAccount fsbuf (c.memAfter m d k) (c.diskAfter m d k)
        (virtioDiskRw f c.block.toNat c.write).1 ∧
      (virtioDiskRw f c.block.toNat c.write).1.faults = rest ∧
      (virtioDiskRw f c.block.toNat c.write).2 = r := by
  rcases hr with ⟨rfl, rfl⟩ | ⟨rfl, hk⟩
  · have hok : f.faults = false :: rest := hfaults
    cases hw : c.write with
    | true =>
      simp only [virtioDiskRw, hok, if_true, List.tail_cons, and_true]
      refine ⟨?_, ?_⟩
      · simp only [DiskReq.diskAfter, hw, if_true, hf.disk, hf.buf]
        congr 1
        funext i
        rw [if_pos i.isLt, hc]
      · rw [DiskReq.memAfter_write hw]
        exact hf.buf
    | false =>
      simp only [virtioDiskRw, hok, Bool.false_eq_true, if_false, List.tail_cons, and_true]
      refine ⟨?_, ?_⟩
      · rw [DiskReq.diskAfter_read hw]
        exact hf.disk
      · funext i
        rw [DiskReq.memAfter, if_pos ⟨hw, by omega, by omega⟩, hc, Nat.add_sub_cancel_left,
          hf.disk, Block.byte, dif_pos i.isLt]
  · obtain rfl : k = 0 := hk.resolve_left Bool.false_ne_true
    have hbad : f.faults = true :: rest := hfaults
    simp only [virtioDiskRw, hbad, DiskReq.memAfter_zero, DiskReq.diskAfter_zero, and_true]
    exact ⟨hf.disk, hf.buf⟩

/-- Calls done at once are what `virtioDiskRw` does, with the results that the calls return. -/
theorem Atomically.account {fsbuf : Nat} {f : Fs} (ha : Atomically (L := L) false m₀ d₀ es m d)
    (hbuf : ∀ c r, .rw c r ∈ es → c.buf = fsbuf) (hf : FsAccount fsbuf m₀ d₀ f)
    (hfaults : f.faults = failures es ++ rest) :
    FsAccount fsbuf m d (es.foldl (Fs.event fsbuf) f) ∧
      (es.foldl (Fs.event fsbuf) f).faults = rest ∧
      ∀ es₁ es₂ c r, es = es₁ ++ .rw c r :: es₂ →
        (virtioDiskRw (es₁.foldl (Fs.event fsbuf) f) c.block.toNat c.write).2 = r := by
  induction ha generalizing rest with
  | nil =>
    refine ⟨hf, hfaults, ?_⟩
    intro es₁ es₂ c r he
    simp at he
  | @rw es m d c r k ha hk hr ih =>
    rw [failures, List.filterMap_append, List.append_assoc] at hfaults
    obtain ⟨hg, hrest, hres⟩ := ih (fun c' r' hm => hbuf c' r' (List.mem_append_left _ hm)) hfaults
    have hc := hbuf c r (List.mem_append_right _ (List.mem_singleton_self _))
    obtain ⟨h₁, h₂, h₃⟩ := hg.rw hc hrest hr
    rw [List.foldl_append]
    refine ⟨h₁, h₂, ?_⟩
    intro es₁ es₂ c' r' he
    rcases concat_split he with ⟨_, rfl, hx⟩ | ⟨es₃, _, rfl⟩
    · cases hx
      exact h₃
    · exact hres es₁ es₃ c' r' rfl
  | @poke es m d j v ha ih =>
    rw [failures, List.filterMap_append, List.append_assoc] at hfaults
    obtain ⟨hg, hrest, hres⟩ := ih (fun c' r' hm => hbuf c' r' (List.mem_append_left _ hm)) hfaults
    rw [List.foldl_append]
    refine ⟨⟨hg.disk, ?_⟩, hrest, ?_⟩
    · funext i
      simp only [List.foldl_cons, List.foldl_nil, Fs.event, hg.buf]
      by_cases hj : fsbuf + i.val = j
      · rw [if_pos hj, hj, Function.update_self]
      · rw [if_neg hj, Function.update_of_ne hj]
    · intro es₁ es₂ c' r' he
      rcases concat_split he with ⟨_, _, hx⟩ | ⟨es₃, _, rfl⟩
      · cases hx
      · exact hres es₁ es₃ c' r' rfl

/-- The driver over a device that fails before it has moved a byte or not at all: in every run of
calls with the file system's buffer, the disk, the buffer and the results are those of the file
system's model of the disk. -/
theorem driver_refines_disk {fsbuf : Nat} {f : Fs} (ok : Bool)
    (hr : (Blk.diskInit L m₀ d₀ ok false).run as = some s) (hc : s.call = .idle)
    (hown : ∀ i : Fin BSIZE, ¬ L.Own (fsbuf + i)) (hbuf : ∀ c r, .rw c r ∈ s.log → c.buf = fsbuf)
    (hf : FsAccount fsbuf m₀ d₀ f) (hfaults : f.faults = failures s.log) :
    FsAccount fsbuf s.mem s.disk (s.log.foldl (Fs.event fsbuf) f) ∧
      ∀ es₁ es₂ c r, s.log = es₁ ++ .rw c r :: es₂ →
        (virtioDiskRw (es₁.foldl (Fs.event fsbuf) f) c.block.toNat c.write).2 = r := by
  obtain ⟨m, d, ha, hm, hd⟩ := Blk.disk_atomic m₀ d₀ ok false hr hc
  obtain ⟨hg, _, hres⟩ := ha.account hbuf hf (hfaults.trans (List.append_nil _).symm)
  refine ⟨⟨hg.disk.trans hd.symm, ?_⟩, hres⟩
  rw [hg.buf]
  funext i
  exact (hm _ (hown i)).symm

/-- A read of block 5 that the device refuses. -/
def refusedRun : List (Blk.Act Blk.lowData) :=
  .start (Blk.lowReq 5 false) :: List.replicate 7 .driver ++
    [.take, .report 1, .publish, .driver, .driver]

def refused : Blk Blk.lowData :=
  ((Blk.diskInit Blk.lowData (fun _ => 7) (fun _ => zeroBlock) true false).run refusedRun).getD
    (Blk.diskInit Blk.lowData (fun _ => 7) (fun _ => zeroBlock) true false)

theorem driver_refines_refused :
    FsAccount 1024 refused.mem refused.disk (refused.log.foldl (Fs.event 1024)
      { Fs.boot (fun _ => zeroBlock) with fsbuf := fun _ => 7, faults := [true] }) := by
  have hr : (Blk.diskInit Blk.lowData (fun _ => 7) (fun _ => zeroBlock) true false).run refusedRun =
      some refused := rfl
  have hlog : refused.log = [.rw (Blk.lowReq 5 false) (-1)] := rfl
  refine (driver_refines_disk true hr rfl ?_ ?_ ⟨rfl, rfl⟩ ?_).1
  · intro i
    exact (Blk.lowReq 5 false).apart _ (Nat.le_add_right _ _) (Nat.add_lt_add_left i.isLt _)
  · intro c r hm
    rw [hlog] at hm
    cases List.mem_singleton.1 hm
    rfl
  · rw [hlog]
    rfl

end KernelHobby
