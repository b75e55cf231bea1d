import KernelHobby.FsReplay

namespace KernelHobby
set_option autoImplicit true

/-- Whether request number `r` of a call fails. -/
def fails (f : List Bool) (r : Nat) : Bool := f.getD r false

/-- A disk request with the script at request `r`. -/
theorem virtioDiskRw_script (h : s.faults = f.drop r) (b : Nat) (w : Bool) :
    (virtioDiskRw s b w).1 =
      if fails f r then { s with faults := f.drop (r + 1) }
      else if w then
        { s with faults := f.drop (r + 1), disk := Function.update s.disk b s.fsbuf,
                 trace := s.trace ++ [(b, s.fsbuf)] }
      else { s with faults := f.drop (r + 1), fsbuf := s.disk b } := by
  have htail : f.drop (r + 1) = (f.drop r).tail := List.tail_drop.symm
  have hhead : fails f r = (f.drop r).headD false := by
    rw [fails, List.headD_eq_head?_getD, List.head?_drop, List.getD_eq_getElem?_getD]
  rw [htail, hhead, virtioDiskRw, h]
  cases f.drop r with
  | nil => cases w <;> rfl
  | cons x xs => cases x <;> cases w <;> rfl

theorem read_script (h : s.faults = f.drop r) (b : Nat) :
    (virtioDiskRw s b false).1.faults = f.drop (r + 1) ∧
      (virtioDiskRw s b false).1.disk = s.disk ∧
      (virtioDiskRw s b false).1.fsbuf = if fails f r then s.fsbuf else s.disk b := by
  rw [virtioDiskRw_script h]
  split <;> exact ⟨rfl, rfl, rfl⟩

theorem write_script (h : s.faults = f.drop r) (b : Nat) :
    (virtioDiskRw s b true).1.faults = f.drop (r + 1) ∧
      (virtioDiskRw s b true).1.fsbuf = s.fsbuf ∧
      (virtioDiskRw s b true).1.disk =
        if fails f r then s.disk else Function.update s.disk b s.fsbuf := by
  rw [virtioDiskRw_script h]
  split <;> exact ⟨rfl, rfl, rfl⟩

section Script
variable (d : Nat → Block) (t : List (Nat × Block)) (f : List Bool)

/-- What log block `i` holds after the log is filled. -/
def logged (i : Nat) : Block :=
  if fails f i then d (LOGSTART + i) else (t.getD i (0, zeroBlock)).2

/-- What the buffer holds after `i` blocks are installed; a read that fails leaves it. -/
def buffered : Nat → Block
  | 0 => (commitHdr (t.map Prod.fst)).toBlock
  | i + 1 => if fails f (t.length + 1 + 2 * i) then buffered i else logged d t f i

/-- What the destination of block `i` holds after the installation. -/
def home (i : Nat) : Block :=
  if fails f (t.length + 2 + 2 * i) then d (t.getD i (0, zeroBlock)).1 else buffered d t f (i + 1)

/-- The header was written but not cleared, so the next mount installs the log once more. -/
def redone : Bool := !fails f t.length && fails f (3 * t.length + 1)

/-- What the destination of block `i` holds after the next mount. -/
def landed (i : Nat) : Block := if redone t f then logged d t f i else home d t f i

end Script

/-- The log functions have logged `t` since `logBegin`, with the script from its start. -/
structure LogFilled (d : Nat → Block) (f : List Bool) (t : List (Nat × Block)) (s : Fs) : Prop where
  faults : s.faults = f.drop t.length
  log : ∀ i, i < t.length → s.disk (LOGSTART + i) = logged d t f i
  other : ∀ b, ¬ (LOGSTART ≤ b ∧ b < LOGSTART + t.length) → s.disk b = d b
  logN : s.logN = t.length
  overflow : s.logOverflow = false
  blk : ∀ i, i < t.length → (s.logBlk i).toNat = (t.map Prod.fst).getD i 0

theorem logBegin_filled (s : Fs) : LogFilled s.disk s.faults [] (logBegin s) where
  faults := rfl
  log := by simp
  other := fun _ _ => rfl
  logN := rfl
  overflow := rfl
  blk := by simp

theorem logged_append (d : Nat → Block) (f : List Bool) (hi : i < t.length) :
    logged d (t ++ u) f i = logged d t f i := by
  rw [logged, logged, List.getD_append _ _ _ _ hi]

theorem logWrite_filled (h : LogFilled d f t s) (dst : UInt32) (b : Block) (hn : t.length < LOGN) :
    LogFilled d f (t ++ [(dst.toNat, b)]) (logWrite s dst b) := by
  have hl : ¬ LOGN ≤ s.logN := by rw [h.logN]; omega
  have hlast : logged d (t ++ [(dst.toNat, b)]) f t.length =
      if fails f t.length then d (LOGSTART + t.length) else b := by
    rw [logged, List.getD_append_right _ _ _ _ (Nat.le_refl _), Nat.sub_self]
    rfl
  have hlen : (t ++ [(dst.toNat, b)]).length = t.length + 1 := List.length_append
  have hdisk : (logWrite s dst b).disk = if fails f t.length then s.disk
      else Function.update s.disk (LOGSTART + t.length) b := by
    simp only [logWrite, hl, ↓reduceIte]
    rw [virtioDiskRw_script (r := t.length) (by exact h.faults), h.logN]
    split <;> rfl
  have hblk : (logWrite s dst b).logBlk = Function.update s.logBlk t.length dst := by
    simp only [logWrite, hl, ↓reduceIte]
    rw [virtioDiskRw_script (r := t.length) (by exact h.faults), ← h.logN]
    split <;> rfl
  refine ⟨?_, ?_, ?_, ?_, ?_, ?_⟩
  · rw [hlen]
    simp only [logWrite, hl, ↓reduceIte]
    rw [virtioDiskRw_script (r := t.length) (by exact h.faults)]
    split <;> rfl
  · intro i hi
    rw [hlen] at hi
    by_cases he : i = t.length
    · subst he
      rw [hlast, hdisk]
      split
      · exact h.other _ (by omega)
      · rw [Function.update_self]
    · rw [logged_append d f (by omega), ← h.log i (by omega), hdisk]
      split
      · rfl
      · rw [Function.update_of_ne (by omega)]
  · intro c hc
    rw [hlen] at hc
    rw [hdisk, ← h.other c (by omega)]
    split
    · rfl
    · rw [Function.update_of_ne (by omega)]
  · rw [hlen]
    simp only [logWrite, hl, ↓reduceIte]
    rw [virtioDiskRw_script (r := t.length) (by exact h.faults)]
    split <;> exact congrArg (· + 1) h.logN
  · simp only [logWrite, hl, ↓reduceIte]
    rw [virtioDiskRw_script (r := t.length) (by exact h.faults)]
    split <;> exact h.overflow
  · rw [hblk]
    exact snoc_blk h.blk dst b

/-- A transaction that fits into the log and writes distinct blocks outside it. -/
structure TxnOk (t : List (Nat × Block)) : Prop where
  length : t.length ≤ LOGN
  dst : ∀ i, i < t.length → ¬ fsJournal.Area (t.getD i (0, zeroBlock)).1
  numbered : ∀ w ∈ t, w.1 < 2 ^ 32
  nodup : (t.map Prod.fst).Nodup

theorem dst_getD (t : List (Nat × Block)) (i : Nat) :
    (t.map Prod.fst).getD i 0 = (t.getD i (0, zeroBlock)).1 := by
  rw [List.getD_eq_getElem?_getD, List.getD_eq_getElem?_getD, List.getElem?_map]
  cases t[i]? <;> rfl

theorem TxnOk.inj (h : TxnOk t) (hi : i < t.length) (hj : j < t.length)
    (he : (t.getD i (0, zeroBlock)).1 = (t.getD j (0, zeroBlock)).1) : i = j := by
  rw [← dst_getD, ← dst_getD, List.getD_eq_getElem _ _ (by rwa [List.length_map]),
    List.getD_eq_getElem _ _ (by rwa [List.length_map])] at he
  exact (h.nodup.getElem_inj_iff).1 he

section Install
variable {d : Nat → Block} {t : List (Nat × Block)} {f : List Bool} {blks : Nat → UInt32}

/-- The state in the middle of an installation: `n` blocks are done. -/
structure Installed (d : Nat → Block) (t : List (Nat × Block)) (f : List Bool) (n : Nat) (s : Fs) :
    Prop where
  faults : s.faults = f.drop (t.length + 1 + 2 * n)
  buf : s.fsbuf = buffered d t f n
  log : ∀ i, i < t.length → s.disk (LOGSTART + i) = logged d t f i
  home : ∀ i, i < n → s.disk (t.getD i (0, zeroBlock)).1 = home d t f i
  other : ∀ b, ¬ fsJournal.Area b → (∀ i, i < n → b ≠ (t.getD i (0, zeroBlock)).1) → s.disk b = d b

theorem log_area (ht : TxnOk t) (hi : i < t.length) : fsJournal.Area (LOGSTART + i) := by
  have hn := ht.length
  rw [fsJournal_area]
  simp only [LOGSTART, LOGN] at hn ⊢
  omega

/-- One turn of the installation loop: the read, then the write. -/
theorem Installed.step (h : Installed d t f n s) (ht : TxnOk t) (hn : n < t.length)
    (hb : (blks n).toNat = (t.getD n (0, zeroBlock)).1) :
    Installed d t f (n + 1)
      (virtioDiskRw (virtioDiskRw s (LOGSTART + n) false).1 (blks n).toNat true).1 := by
  obtain ⟨hf, hd, hbuf⟩ := read_script h.faults (LOGSTART + n)
  rw [h.log n hn, h.buf, ← buffered] at hbuf
  set s₁ := (virtioDiskRw s (LOGSTART + n) false).1 with hs₁
  have hdst := ht.dst n hn
  have hold : s.disk (t.getD n (0, zeroBlock)).1 = d (t.getD n (0, zeroBlock)).1 := by
    apply h.other _ hdst
    intro i hi he
    have hin := ht.inj hn (by omega) he
    omega
  rw [hb]
  set a := (t.getD n (0, zeroBlock)).1 with ha
  obtain ⟨hf', hbuf', hd'⟩ := write_script hf a
  have hr : t.length + 1 + 2 * n + 1 = t.length + 2 + 2 * n := by omega
  -- a write that fails leaves what was there before the call
  have h₃ : (virtioDiskRw s₁ a true).1.disk =
      Function.update s.disk a (KernelHobby.home d t f n) := by
    rw [hd', hr, KernelHobby.home, ← ha, hd, hbuf]
    split
    · rw [← hold, Function.update_eq_self]
    · rfl
  have h₁ : (virtioDiskRw s₁ a true).1.faults = f.drop (t.length + 1 + 2 * (n + 1)) := by
    rw [hf']
    congr 1
  have h₂ := hbuf'.trans hbuf
  refine ⟨h₁, h₂, ?_, ?_, ?_⟩
  · intro i hi
    have hne : LOGSTART + i ≠ a := by
      intro he
      exact hdst (he ▸ log_area ht hi)
    rw [h₃, Function.update_of_ne hne]
    exact h.log i hi
  · intro i hi
    by_cases he : i = n
    · subst he
      rw [h₃, Function.update_self]
    · have hne : (t.getD i (0, zeroBlock)).1 ≠ a := by
        intro hh
        exact he (ht.inj (by omega) hn hh)
      rw [h₃, Function.update_of_ne hne]
      exact h.home i (by omega)
  · intro b hnb hb'
    rw [h₃, Function.update_of_ne (hb' n (by omega))]
    exact h.other b hnb fun i hi => hb' i (by omega)

theorem logInstall_installs (h : Installed d t f 0 s) (ht : TxnOk t) (hn : n ≤ t.length)
    (hb : ∀ i, i < t.length → (blks i).toNat = (t.getD i (0, zeroBlock)).1) :
    Installed d t f n (logInstall blks n s) := by
  induction n with
  | zero => exact h
  | succ n ih => exact (ih (by omega)).step ht (by omega) (hb n (by omega))

end Install

/-- What a transaction with failing requests leaves on the disk. -/
structure TxnSettled (d : Nat → Block) (t : List (Nat × Block)) (f : List Bool) (e : Nat → Block) :
    Prop where
  hdr : e LOGHDR = if fails f (3 * t.length + 1) then
    (if fails f t.length then d LOGHDR else fsJournal.commit (t.map Prod.fst)) else fsJournal.clear
  log : ∀ i, i < t.length → e (LOGSTART + i) = logged d t f i
  home : ∀ i, i < t.length → e (t.getD i (0, zeroBlock)).1 = home d t f i
  other : ∀ b, ¬ fsJournal.Area b → (∀ i, i < t.length → b ≠ (t.getD i (0, zeroBlock)).1) → e b = d b

theorem logInstall_hdr (blks : Nat → UInt32) (hb : ∀ i, i < n → (blks i).toNat ≠ LOGHDR) :
    (logInstall blks n s).disk LOGHDR = s.disk LOGHDR := by
  induction n with
  | zero => rfl
  | succ n ih =>
    have hw (s : Fs) : (virtioDiskRw s (blks n).toNat true).1.disk LOGHDR = s.disk LOGHDR := by
      rw [virtioDiskRw]
      split
      · rfl
      · exact Function.update_of_ne (hb n (by omega)).symm _ _
    have hr (s : Fs) (b : Nat) : (virtioDiskRw s b false).1.disk = s.disk := by
      rw [virtioDiskRw]
      split <;> rfl
    rw [logInstall, hw, hr, ih fun i hi => hb i (by omega)]

/-- The header is all that a write of it changes, whether or not it reaches the disk. -/
theorem writeLoghdr_off (s : Fs) (c n : UInt32) (blks : Nat → UInt32) (hb : b ≠ LOGHDR) :
    (writeLoghdr s c n blks).disk b = s.disk b := by
  simp only [writeLoghdr, virtioDiskRw]
  split
  · rfl
  · exact Function.update_of_ne hb _ _

/-- The commit write, which may not reach the disk. -/
theorem commitWrite (h : LogFilled d f t s) (hlen : t.length ≤ LOGN) :
    let s₁ := writeLoghdr s 1 (UInt32.ofNat t.length) s.logBlk
    Installed d t f 0 s₁ ∧ s₁.logBlk = s.logBlk ∧ s₁.logN = t.length ∧
      s₁.disk LOGHDR = if fails f t.length then s.disk LOGHDR
        else (commitHdr (t.map Prod.fst)).toBlock := by
  intro s₁
  have hs₁ : s₁ = writeLoghdr s 1 (UInt32.ofNat t.length) s.logBlk := rfl
  have h₁ : s₁.faults = f.drop (t.length + 1) ∧
      s₁.fsbuf = (commitHdr (t.map Prod.fst)).toBlock ∧ s₁.logBlk = s.logBlk ∧
      s₁.logN = t.length ∧ s₁.disk LOGHDR = if fails f t.length then s.disk LOGHDR
        else (commitHdr (t.map Prod.fst)).toBlock := by
    rw [hs₁, writeLoghdr, loghdr_commit h.blk hlen, virtioDiskRw_script (by exact h.faults)]
    have hlogN := h.logN
    split
    · exact ⟨rfl, rfl, rfl, hlogN, rfl⟩
    · simp only [if_true, Function.update_self]
      exact ⟨trivial, trivial, trivial, hlogN, trivial⟩
  obtain ⟨hf₁, hb₁, hk₁, hn₁, hd₁⟩ := h₁
  refine ⟨⟨hf₁, hb₁, ?_, fun i hi => absurd hi (by omega), ?_⟩, hk₁, hn₁, hd₁⟩
  · intro i hi
    rw [hs₁, writeLoghdr_off _ _ _ _ (by simp only [LOGSTART, LOGHDR]; omega)]
    exact h.log i hi
  · intro b hnb _
    rw [fsJournal_area] at hnb
    rw [hs₁, writeLoghdr_off _ _ _ _ (by simp only [LOGHDR]; omega)]
    apply h.other
    simp only [LOGSTART, LOGN] at hlen ⊢
    omega

/-- Committing a logged transaction, with whatever requests fail. -/
theorem logCommit_settled (h : LogFilled d f t s) (ht : TxnOk t) (hne : t ≠ []) :
    TxnSettled d t f (logCommit s).disk := by
  have h0 : t.length ≠ 0 := fun he => hne (List.length_eq_zero_iff.1 he)
  have hb : ∀ i, i < t.length → (s.logBlk i).toNat = (t.getD i (0, zeroBlock)).1 := by
    intro i hi
    rw [h.blk i hi, dst_getD]
  have hhdr : ∀ i, i < t.length → (s.logBlk i).toNat ≠ LOGHDR := by
    intro i hi he
    apply ht.dst i hi
    rw [← hb i hi, he, fsJournal_area]
    decide
  simp only [logCommit, h.logN, h0, ↓reduceIte, h.overflow, Bool.false_eq_true]
  obtain ⟨hinst, hk₁, hn₁, hd₁⟩ := commitWrite h ht.length
  set s₁ := writeLoghdr s 1 (UInt32.ofNat t.length) s.logBlk
  rw [hk₁, hn₁]
  have hall := logInstall_installs hinst ht (Nat.le_refl _) hb
  have hhd := logInstall_hdr (s := s₁) s.logBlk hhdr
  set s₂ := logInstall s.logBlk t.length s₁
  have hreq : t.length + 1 + 2 * t.length = 3 * t.length + 1 := by omega
  have hd₂ : (writeLoghdr s₂ 0 0 fun _ => 0).disk LOGHDR =
      if fails f (3 * t.length + 1) then s₂.disk LOGHDR else fsJournal.clear := by
    have hf₂ := hall.faults
    rw [hreq] at hf₂
    rw [writeLoghdr, clearHdr_eq, virtioDiskRw_script (by exact hf₂)]
    split
    · rfl
    · simp only [if_true, Function.update_self]
      rfl
  have hoff₂ (b : Nat) (hb : b ≠ LOGHDR) :
      (writeLoghdr s₂ 0 0 fun _ => 0).disk b = s₂.disk b := writeLoghdr_off _ _ _ _ hb
  have hnotHdr (b : Nat) (hnb : ¬ fsJournal.Area b) : b ≠ LOGHDR := by
    rintro rfl
    exact hnb (.inl rfl)
  refine ⟨?_, ?_, ?_, ?_⟩
  · show (writeLoghdr s₂ 0 0 fun _ => 0).disk LOGHDR = _
    rw [hd₂]
    split
    · rw [hhd, hd₁]
      split
      · apply h.other
        simp only [LOGHDR, LOGSTART]
        omega
      · rfl
    · rfl
  · intro i hi
    show (writeLoghdr s₂ 0 0 fun _ => 0).disk _ = _
    rw [hoff₂ _ (by simp only [LOGSTART, LOGHDR]; omega)]
    exact hall.log i hi
  · intro i hi
    show (writeLoghdr s₂ 0 0 fun _ => 0).disk _ = _
    rw [hoff₂ _ (hnotHdr _ (ht.dst i hi))]
    exact hall.home i hi
  · intro b hnb hdst
    show (writeLoghdr s₂ 0 0 fun _ => 0).disk b = _
    rw [hoff₂ b (hnotHdr b hnb)]
    exact hall.other b hnb hdst

end KernelHobby
