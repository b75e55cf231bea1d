import KernelHobby.FsNames

namespace KernelHobby
set_option autoImplicit true

theorem fsReadLoop_zero (n : Nat) : fsReadLoop n s f blk o 0 = (s, f) := by
  cases n with
  | zero => rfl
  | succ n => rw [fsReadLoop, if_pos rfl]

/-- The read loop: `o` bytes are read, `r` are left. -/
theorem fsReadLoop_spec {e : FsDirent} (hf : s.faults = []) (hoff : o.toNat = 512 * k)
    (hrem : o.toNat + r.toNat = e.size.toNat) (hfuel : r.toNat ≤ 512 * n) :
    ∃ b, fsReadLoop n s f (e.start + UInt32.ofNat k) o r =
      ({ s with fsbuf := b }, fun j => if o.toNat ≤ j ∧ j < e.size.toNat
        then fileByte s.disk e j else f j) := by
  induction n generalizing s f o k r with
  | zero =>
    refine ⟨s.fsbuf, ?_⟩
    rw [fsReadLoop, Prod.mk.injEq]
    refine ⟨rfl, ?_⟩
    funext j
    rw [if_neg (by omega)]
  | succ n ih =>
    rw [fsReadLoop]
    by_cases hz : r = 0
    · rw [if_pos hz]
      refine ⟨s.fsbuf, ?_⟩
      rw [Prod.mk.injEq]
      refine ⟨rfl, ?_⟩
      have hz' : r.toNat = 0 := congrArg UInt32.toNat hz
      funext j
      rw [if_neg (by omega)]
    have h512 : (512 : UInt32).toNat = 512 := rfl
    have hlt := e.size.toNat_lt
    have hbyte (j : Nat) (h₁ : 512 * k ≤ j) (h₂ : j < 512 * k + 512) :
        fileByte s.disk e j = (s.disk (e.start + UInt32.ofNat k).toNat).byte (j - 512 * k) := by
      have hd : j / BSIZE = k := by simp only [BSIZE]; omega
      have hm : j % BSIZE = j - 512 * k := by simp only [BSIZE]; omega
      rw [fileByte, hd, hm]
    rw [if_neg hz, virtioDiskRw_read hf]
    by_cases hbig : (512 : UInt32) < r
    · -- a whole block
      have hbig' := UInt32.lt_iff_toNat_lt.1 hbig
      have hsucc : e.start + UInt32.ofNat k + 1 = e.start + UInt32.ofNat (k + 1) := by
        rw [UInt32.ofNat_add, ← UInt32.add_assoc]
        rfl
      have hoff' : (o + 512).toNat = o.toNat + 512 := by
        rw [UInt32.toNat_add]
        omega
      have hrem' : (r - 512).toNat = r.toNat - 512 :=
        UInt32.toNat_sub_of_le _ _ (UInt32.le_iff_toNat_le.2 (by omega))
      simp only [if_pos hbig, hsucc]
      obtain ⟨b, he⟩ := ih (s := { s with fsbuf := s.disk (e.start + UInt32.ofNat k).toNat })
        (o := o + 512) (k := k + 1) (r := r - 512) hf (by omega) (by omega)
        (by omega)
      refine ⟨b, ?_⟩
      rw [he, Prod.mk.injEq]
      refine ⟨rfl, ?_⟩
      funext j
      rw [hoff', h512]
      by_cases h₁ : o.toNat + 512 ≤ j ∧ j < e.size.toNat
      · rw [if_pos h₁, if_pos (by omega)]
      · rw [if_neg h₁]
        by_cases h₂ : o.toNat ≤ j ∧ j < o.toNat + 512
        · rw [if_pos h₂, if_pos (by omega), hbyte j (by omega) (by omega), hoff]
        · rw [if_neg h₂, if_neg (by omega)]
    · -- the last block
      have hbig' := mt UInt32.lt_iff_toNat_lt.2 hbig
      simp only [if_neg hbig, UInt32.sub_self, fsReadLoop_zero]
      refine ⟨s.disk (e.start + UInt32.ofNat k).toNat, ?_⟩
      rw [Prod.mk.injEq]
      refine ⟨rfl, ?_⟩
      funext j
      by_cases h₂ : o.toNat ≤ j ∧ j < e.size.toNat
      · rw [if_pos (by omega), if_pos h₂, hbyte j (by omega) (by omega), hoff]
      · rw [if_neg (by omega), if_neg h₂]

/-- The read loop fills its window of the buffer, with bytes that do not depend on what the
buffer held, whether or not the disk answers. -/
theorem fsReadLoop_window (hoff : o.toNat + r.toNat < 2 ^ 32) (hfuel : r.toNat ≤ 512 * n) :
    ∃ g : Nat → UInt8, ∀ f j, (fsReadLoop n s f c o r).2 j =
      if o.toNat ≤ j ∧ j < o.toNat + r.toNat then g j else f j := by
  induction n generalizing s c o r with
  | zero =>
    refine ⟨fun _ => 0, ?_⟩
    intro f j
    rw [fsReadLoop, if_neg (by omega)]
  | succ n ih =>
    by_cases hz : r = 0
    · have hz' : r.toNat = 0 := congrArg UInt32.toNat hz
      refine ⟨fun _ => 0, ?_⟩
      intro f j
      rw [fsReadLoop, if_pos hz, if_neg (by omega)]
    have h512 : (512 : UInt32).toNat = 512 := rfl
    set b := (virtioDiskRw s c.toNat false).1 with hb
    -- what this turn copies, and where the next one goes on
    have hstep (m : UInt32) (hm : m = if (512 : UInt32) < r then 512 else r) :
        m.toNat ≤ r.toNat ∧ (o + m).toNat = o.toNat + m.toNat ∧
          (r - m).toNat = r.toNat - m.toNat ∧ (r - m).toNat ≤ 512 * n := by
      have hle : m.toNat ≤ r.toNat ∧ r.toNat - m.toNat ≤ 512 * n := by
        rw [hm]
        split
        · rename_i hbig
          have hh := UInt32.lt_iff_toNat_lt.1 hbig
          omega
        · rename_i hbig
          have hh := mt UInt32.lt_iff_toNat_lt.2 hbig
          omega
      have hsub : (r - m).toNat = r.toNat - m.toNat :=
        UInt32.toNat_sub_of_le _ _ (UInt32.le_iff_toNat_le.2 hle.1)
      refine ⟨hle.1, ?_, hsub, by omega⟩
      rw [UInt32.toNat_add]
      omega
    obtain ⟨hle, hadd, hsub, hfuel'⟩ := hstep _ rfl
    set m := if (512 : UInt32) < r then 512 else r with hm
    obtain ⟨g, hg⟩ := ih (s := b) (c := c + 1) (o := o + m) (r := r - m)
      (by omega) hfuel'
    refine ⟨fun j => if j < o.toNat + m.toNat then b.fsbuf.byte (j - o.toNat) else g j, ?_⟩
    intro f j
    rw [fsReadLoop, if_neg hz]
    simp only [← hb, ← hm]
    rw [hg, hadd, hsub]
    by_cases h₁ : o.toNat ≤ j ∧ j < o.toNat + m.toNat
    · rw [if_neg (by omega), if_pos h₁, if_pos (by omega), if_pos h₁.2]
    · by_cases h₂ : o.toNat ≤ j ∧ j < o.toNat + r.toNat
      · rw [if_pos (by omega), if_pos h₂, if_neg (by omega)]
      · rw [if_neg (by omega), if_neg h₁, if_neg h₂]

theorem contents_length (d : Nat → Block) (e : FsDirent) : (contents d e).length = e.size.toNat := by
  rw [contents, List.length_map, List.length_range]

theorem contents_getD (d : Nat → Block) (hj : j < e.size.toNat) :
    (contents d e).getD j 0 = fileByte d e j := by
  rw [contents, List.getD_eq_getElem?_getD, List.getElem?_map, List.getElem?_range hj,
    Option.map_some, Option.getD_some]

theorem fsReadLoop_file (h : s.faults = []) (e : FsDirent) (buf : Nat → UInt8) :
    ∃ b, fsReadLoop (e.size.toNat / BSIZE + 1) s buf e.start 0 e.size =
      ({ s with fsbuf := b }, fun j => if j < e.size.toNat then fileByte s.disk e j else buf j) := by
  obtain ⟨b, he⟩ := fsReadLoop_spec (s := s) (e := e) (f := buf) (o := 0) (k := 0)
    (r := e.size) (n := e.size.toNat / BSIZE + 1) h rfl
    (by rw [UInt32.toNat_zero, Nat.zero_add]) (by simp only [BSIZE]; omega)
  have hstart : e.start + UInt32.ofNat 0 = e.start := UInt32.add_zero _
  refine ⟨b, ?_⟩
  simpa only [hstart, UInt32.toNat_zero, Nat.zero_le, true_and] using he

/-- A file that fits into the buffer is read as it is on the disk. -/
theorem fsRead_entry (buf : Nat → UInt8) (hmt : s.mounted = true) (hf : s.faults = [])
    (hi : findName s name = some i) (hm : ((s.dir i).size.toNat : Int) ≤ limit.toInt) :
    (fsRead s name buf limit).2.2 = (s.dir i).size.toNat ∧
      ∀ j, (fsRead s name buf limit).2.1 j =
        if j < (s.dir i).size.toNat then fileByte s.disk (s.dir i) j else buf j := by
  have hl := limit.toInt_lt
  have hsz : (s.dir i).size.toInt32.toInt = (s.dir i).size.toNat := by
    rw [uint32_toInt_toInt32]
    simp only [Int.bmod]
    split <;> omega
  have hfit : ¬ limit < (s.dir i).size.toInt32 := by
    rw [Int32.lt_iff_toInt_lt]
    omega
  obtain ⟨b, he⟩ := fsReadLoop_file hf (s.dir i) buf
  simp only [fsRead, hmt, Bool.not_true, Bool.false_eq_true, ↓reduceIte, hi, if_neg hfit, he, hsz,
    implies_true, and_self]

theorem fsRead_found (buf : Nat → UInt8) (h : FsWf s) (hi : findName s name = some i)
    (hm : ((s.dir i).size.toNat : Int) ≤ limit.toInt) :
    (fsRead s name buf limit).2.2 = (s.dir i).size.toNat ∧
      ∀ j, (fsRead s name buf limit).2.1 j =
        if j < (s.dir i).size.toNat then fileByte s.disk (s.dir i) j else buf j :=
  fsRead_entry buf h.mem.mounted h.faults hi hm

theorem fsRead_absent (hi : findName s name = none) : fsRead s name buf limit = (s, buf, -1) := by
  rw [fsRead]
  split
  · rfl
  · rw [hi]

/-- Reading changes nothing but the disk buffer. -/
theorem fsRead_state (h : FsWf s) (name : CStr) (buf : Nat → UInt8) (limit : Int32) :
    ∃ b, (fsRead s name buf limit).1 = { s with fsbuf := b } := by
  rw [fsRead]
  split
  · exact ⟨s.fsbuf, rfl⟩
  · split
    · exact ⟨s.fsbuf, rfl⟩
    · rename_i i _
      dsimp only
      split
      · exact ⟨s.fsbuf, rfl⟩
      · obtain ⟨b, he⟩ := fsReadLoop_file h.faults (s.dir i) buf
        exact ⟨b, by rw [he]⟩

/-- `fs_read` stores nothing behind the first `limit` bytes of a buffer, whatever the buffer
holds, and answers -1 or the size of the entry it found. -/
def ReadInside (s : Fs) (name : CStr) (limit : Int32) : Prop :=
  ∀ buf, (∀ j : Nat, limit.toInt ≤ j → (fsRead s name buf limit).2.1 j = buf j) ∧
    ((fsRead s name buf limit).2.2 = -1 ∨
      ∃ i, findName s name = some i ∧
        (fsRead s name buf limit).2.2 = (s.dir i).size.toNat ∧
        0 ≤ (fsRead s name buf limit).2.2 ∧ (fsRead s name buf limit).2.2 ≤ limit.toInt)

theorem readInside_refused (h : ∀ buf, fsRead s name buf limit = (s, buf, -1)) :
    ReadInside s name limit := by
  intro buf
  rw [h]
  exact ⟨fun _ _ => rfl, .inl rfl⟩

section Inside
variable {s : Fs} {name : CStr} {limit : Int32}

theorem readInside_small (hm : s.mounted = true) (hi : findName s name = some i)
    (hs : (s.dir i).size.toNat < 2 ^ 31) : ReadInside s name limit := by
  have hsz : (s.dir i).size.toInt32.toInt = (s.dir i).size.toNat := by
    rw [uint32_toInt_toInt32]
    simp only [Int.bmod]
    split <;> omega
  by_cases hfit : limit < (s.dir i).size.toInt32
  · apply readInside_refused
    intro buf
    simp only [fsRead, hm, Bool.not_true, Bool.false_eq_true, ↓reduceIte, hi, if_pos hfit]
  have hle : ((s.dir i).size.toNat : Int) ≤ limit.toInt := by
    have hh := mt Int32.lt_iff_toInt_lt.2 hfit
    omega
  obtain ⟨g, hg⟩ := fsReadLoop_window (s := s) (c := (s.dir i).start) (o := 0)
    (r := (s.dir i).size) (n := (s.dir i).size.toNat / BSIZE + 1)
    (by rw [UInt32.toNat_zero]; omega) (by simp only [BSIZE]; omega)
  rw [UInt32.toNat_zero] at hg
  intro buf
  simp only [fsRead, hm, Bool.not_true, Bool.false_eq_true, ↓reduceIte, hi, if_neg hfit, hsz]
  refine ⟨?_, .inr ⟨i, rfl, rfl, Int.natCast_nonneg _, hle⟩⟩
  intro j hj
  rw [hg, if_neg (by omega)]

/-- A size that is negative as an `int` passes the check, and the loop runs on. -/
theorem not_readInside (hm : s.mounted = true) (hi : findName s name = some i)
    (hs : 2 ^ 31 ≤ (s.dir i).size.toNat) (hl : 0 ≤ limit.toInt) : ¬ ReadInside s name limit := by
  intro h
  have hlt := limit.toInt_lt
  have hmax := (s.dir i).size.toNat_lt
  have hfit : ¬ limit < (s.dir i).size.toInt32 := by
    rw [Int32.lt_iff_toInt_lt, uint32_toInt_toInt32]
    simp only [Int.bmod]
    split <;> omega
  obtain ⟨g, hg⟩ := fsReadLoop_window (s := s) (c := (s.dir i).start) (o := 0)
    (r := (s.dir i).size) (n := (s.dir i).size.toNat / BSIZE + 1)
    (by rw [UInt32.toNat_zero]; omega) (by simp only [BSIZE]; omega)
  rw [UInt32.toNat_zero] at hg
  have hj := (h fun j => g j + 1).1 limit.toInt.toNat (by omega)
  simp only [fsRead, hm, Bool.not_true, Bool.false_eq_true, ↓reduceIte, hi, if_neg hfit, hg] at hj
  rw [if_pos (by omega)] at hj
  simp at hj

/-- `fs_read` keeps to its buffer exactly when the entry it finds is smaller than 2 GiB. -/
theorem readInside_iff (hl : 0 ≤ limit.toInt) :
    ReadInside s name limit ↔
      (s.mounted = true → ∀ i, findName s name = some i → (s.dir i).size.toNat < 2 ^ 31) := by
  constructor
  · intro h hm i hi
    by_contra hs
    exact not_readInside hm hi (by omega) hl h
  · intro h
    by_cases hm : s.mounted = true
    · cases hi : findName s name with
      | none => exact readInside_refused fun buf => fsRead_absent hi
      | some i => exact readInside_small hm hi (h hm i hi)
    · apply readInside_refused
      intro buf
      simp only [fsRead, Bool.eq_false_iff.2 hm, Bool.not_false, ↓reduceIte]

end Inside

theorem readInside_emptyFile :
    0 ≤ (32768 : Int32).toInt ∧
      (ReadInside (mount emptyFileImage.disk) nameA 32768 ↔
        ((mount emptyFileImage.disk).mounted = true →
          ∀ i, findName (mount emptyFileImage.disk) nameA = some i →
            ((mount emptyFileImage.disk).dir i).size.toNat < 2 ^ 31)) :=
  ⟨by decide, readInside_iff (by decide)⟩

theorem not_readInside_largeFile : ¬ ReadInside (mount largeFileImage.disk) nameA 32768 := by
  obtain ⟨_, _, h, _⟩ := largeFileImage.mount_spec
  have hd : (mount largeFileImage.disk).dir = largeFileImage.dir := congrArg FsMem.dir h
  have hf : findName (mount largeFileImage.disk) nameA = some 0 := by
    rw [largeFileImage.findName_mount]
    decide
  apply not_readInside largeFileImage.wf.mem.mounted hf
  · rw [hd]
    show 2 ^ 31 ≤ (UInt32.ofNat (List.replicate (2 ^ 32 - 1) (0 : UInt8)).length).toNat
    rw [List.length_replicate]
    decide
  · decide

end KernelHobby
