import KernelHobby.FsReach

namespace KernelHobby
set_option autoImplicit true

/-- The blocks of the file that an entry describes. -/
def extent (e : FsDirent) (b : Nat) : Prop :=
  e.start.toNat ≤ b ∧ b < e.start.toNat + blocksOf e.size

instance : Decidable (extent e b) := inferInstanceAs (Decidable (_ ∧ _))

/-- The byte `j` of the file that an entry describes. -/
def fileByte (d : Nat → Block) (e : FsDirent) (j : Nat) : UInt8 :=
  (d (e.start + UInt32.ofNat (j / BSIZE)).toNat).byte (j % BSIZE)

def contents (d : Nat → Block) (e : FsDirent) : List UInt8 :=
  (List.range e.size.toNat).map (fileByte d e)

theorem ExtentOk.block (h : ExtentOk e) (hk : k < blocksOf e.size) :
    (e.start + UInt32.ofNat k).toNat = e.start.toNat + k := by
  have h₂ := h.2
  rw [UInt32.toNat_add, UInt32.toNat_ofNat']
  omega

/-- The contents of a file lie in its extent. -/
theorem contents_congr (h : ExtentOk e) (hd : ∀ b, extent e b → d b = d' b) :
    contents d e = contents d' e := by
  apply List.map_congr_left
  intro j hj
  rw [List.mem_range] at hj
  have hk : j / BSIZE < blocksOf e.size := by
    simp only [BSIZE, blocksOf]
    omega
  rw [fileByte, fileByte, h.block hk, hd _ ⟨Nat.le_add_right _ _, Nat.add_lt_add_left hk _⟩]

/-- Superblock, directory, log header and log data. -/
def metaBlock (b : Nat) : Prop :=
  b = 0 ∨ b = DIRBLOCK ∨ b = LOGHDR ∨ LOGSTART ≤ b ∧ b < LOGSTART + LOGN

/-- The kernel counts the blocks of the entry right, unless they are beyond the bitmap: the
32-bit sum in the count does not wrap. -/
def Counted (e : FsDirent) : Prop := e.start.toNat < MAXBLK → e.size.toNat ≤ 2 ^ 32 - 512

theorem fileBlocks_toNat (size : UInt32) :
    (fileBlocks size).toNat = if size.toNat ≤ 2 ^ 32 - 512 then blocksOf size else 0 := by
  have h₁ : (512 : UInt32).toNat = 512 := rfl
  have h₂ : (1 : UInt32).toNat = 1 := rfl
  have h₃ := size.toNat_lt
  rw [fileBlocks, UInt32.toNat_div, UInt32.toNat_sub, UInt32.toNat_add, h₁, h₂, blocksOf]
  split <;> omega

theorem fileBlocks_le (size : UInt32) : (fileBlocks size).toNat ≤ blocksOf size := by
  rw [fileBlocks_toNat]
  split <;> omega

theorem setBlocks_eq {start : UInt32} (h : start.toNat + n ≤ 2 ^ 32) (b : Nat) :
    setBlocks v start n used b =
      if start.toNat ≤ b ∧ b < start.toNat + n ∧ b < MAXBLK then v else used b := by
  induction n with
  | zero =>
    rw [setBlocks, if_neg]
    omega
  | succ k ih =>
    have hk : (start + UInt32.ofNat k).toNat = start.toNat + k := by
      rw [UInt32.toNat_add, UInt32.toNat_ofNat']
      omega
    simp only [setBlocks, hk]
    by_cases hb : b = start.toNat + k
    · subst hb
      split
      · rw [Function.update_self, if_pos (by omega)]
      · rw [ih (by omega), if_neg (by omega), if_neg (by omega)]
    · have hi : (start.toNat ≤ b ∧ b < start.toNat + k ∧ b < MAXBLK) =
          (start.toNat ≤ b ∧ b < start.toNat + (k + 1) ∧ b < MAXBLK) := by
        apply propext
        omega
      split
      · rw [Function.update_of_ne hb, ih (by omega)]
        simp only [hi]
      · rw [ih (by omega)]
        simp only [hi]

/-- The blocks that the kernel marks and frees for an entry. -/
def marked (e : FsDirent) (b : Nat) : Prop :=
  e.start.toNat ≤ b ∧ b < e.start.toNat + (fileBlocks e.size).toNat

instance : Decidable (marked e b) := inferInstanceAs (Decidable (_ ∧ _))

theorem marked_iff_extent (hc : Counted e) (hb : b < MAXBLK) : marked e b ↔ extent e b := by
  rw [marked, extent]
  by_cases hs : e.start.toNat < MAXBLK
  · rw [fileBlocks_toNat, if_pos (hc hs)]
  · omega

theorem setBlocks_file (h : ExtentOk e) (hb : b < MAXBLK) :
    setBlocks v e.start (fileBlocks e.size).toNat used b = if marked e b then v else used b := by
  have hle := fileBlocks_le e.size
  have hw := h.2
  have hp : (e.start.toNat ≤ b ∧ b < e.start.toNat + (fileBlocks e.size).toNat ∧ b < MAXBLK) ↔
      marked e b := by
    rw [marked]
    omega
  rw [setBlocks_eq (by omega)]
  exact if_congr hp rfl rfl

theorem metaBitmap_iff (b : Nat) : metaBitmap b = true ↔ metaBlock b := by
  simp only [metaBitmap, metaBlock, Bool.or_eq_true, Bool.and_eq_true, decide_eq_true_eq, or_assoc]

theorem fileBitmap_iff (he : ∀ i, i < n → ExtentOk (dir i)) (hb : b < MAXBLK) :
    fileBitmap dir n b = true ↔ metaBlock b ∨ ∃ i, i < n ∧ marked (dir i) b := by
  induction n with
  | zero =>
    rw [fileBitmap, metaBitmap_iff]
    simp
  | succ n ih =>
    have ih' := ih fun i hi => he i (by omega)
    rw [fileBitmap, setBlocks_file (he n (by omega)) hb]
    constructor
    · intro h
      split at h
      · rename_i hx
        exact .inr ⟨n, by omega, hx⟩
      · rcases ih'.1 h with hm | ⟨i, hi, hx⟩
        · exact .inl hm
        · exact .inr ⟨i, by omega, hx⟩
    · rintro (hm | ⟨i, hi, hx⟩)
      · split
        · rfl
        · exact ih'.2 (.inl hm)
      · split
        · rfl
        · rename_i hnx
          have hin : i ≠ n := by
            rintro rfl
            exact hnx hx
          exact ih'.2 (.inr ⟨i, by omega, hx⟩)

theorem fileBitmap_beyond (he : ∀ i, i < n → ExtentOk (dir i)) (hb : MAXBLK ≤ b) :
    fileBitmap dir n b = false := by
  induction n with
  | zero =>
    rw [fileBitmap, Bool.eq_false_iff]
    intro h
    have hm := (metaBitmap_iff b).1 h
    simp only [metaBlock, DIRBLOCK, LOGHDR, LOGSTART, LOGN, MAXBLK] at hm hb
    omega
  | succ n ih =>
    have hle := fileBlocks_le (dir n).size
    have hw := (he n (by omega)).2
    rw [fileBitmap, setBlocks_eq (by omega), if_neg (by omega)]
    exact ih fun i hi => he i (by omega)

/-- The in-memory part of the representation invariant. -/
structure Rep (m : FsMem) : Prop where
  counted : ∀ i, i < m.nfiles.toNat → Counted (m.dir i)
  disjoint : ∀ i j b, i < m.nfiles.toNat → j < m.nfiles.toNat → i ≠ j →
    extent (m.dir i) b → ¬ extent (m.dir j) b
  used : ∀ b, b < MAXBLK → (m.used b = true ↔
    metaBlock b ∨ ∃ i, i < m.nfiles.toNat ∧ extent (m.dir i) b)
  beyond : ∀ b, MAXBLK ≤ b → m.used b = false

/-- The bitmap that mounting builds satisfies the invariant. -/
theorem rep_fileBitmap (hm : MemOk m) (hc : ∀ i, i < m.nfiles.toNat → Counted (m.dir i))
    (hd : ∀ i j b, i < m.nfiles.toNat → j < m.nfiles.toNat → i ≠ j →
      extent (m.dir i) b → ¬ extent (m.dir j) b) :
    Rep { m with used := fileBitmap m.dir m.nfiles.toNat } where
  counted := hc
  disjoint := hd
  used := by
    intro b hb
    rw [fileBitmap_iff hm.extents hb]
    apply or_congr_right
    apply exists_congr
    intro i
    apply and_congr_right
    intro hi
    exact marked_iff_extent (hc i hi) hb
  beyond := fun b hb => fileBitmap_beyond hm.extents hb

theorem Rep.used_eq (h : Rep m) (hm : MemOk m) : fileBitmap m.dir m.nfiles.toNat = m.used := by
  have hf := rep_fileBitmap hm h.counted h.disjoint
  funext b
  by_cases hb : b < MAXBLK
  · rw [Bool.eq_iff_iff, hf.used b hb, h.used b hb]
  · exact (hf.beyond b (by omega)).trans (h.beyond b (by omega)).symm

section Entry
variable {s : Fs} {name : CStr} {size : Int32} {start nb : Nat}

theorem extent_not_meta (h : ExtentOk e) (hx : extent e b) : ¬ metaBlock b := by
  have hge := h.1
  have hle := hx.1
  simp only [metaBlock, DIRBLOCK, LOGHDR, LOGSTART, LOGN, DATASTART] at *
  omega

/-- The entry of a new file. -/
def newEntry (s : Fs) (name : CStr) (size : Int32) (start : Nat) : FsDirent :=
  ⟨copyName name (s.dir s.nfiles.toNat).name, size.toUInt32, UInt32.ofInt start⟩

theorem CreateOk.extent (h : CreateOk s name size start nb) (b : Nat) :
    extent (newEntry s name size start) b ↔ start ≤ b ∧ b < start + nb := by
  simp only [KernelHobby.extent, newEntry, h.start_toNat, h.blocksOf]

theorem addEntry_mem_eq (h : CreateOk s name size start nb) :
    (addEntry s name size ((size + 512 - 1) / 512) start).mem.dir =
        Function.update s.dir s.nfiles.toNat (newEntry s name size start) ∧
      (addEntry s name size ((size + 512 - 1) / 512) start).mem.nfiles = s.nfiles + 1 ∧
      (addEntry s name size ((size + 512 - 1) / 512) start).mem.used =
        fun b => if start ≤ b ∧ b < start + nb then true else s.used b := by
  refine ⟨rfl, rfl, ?_⟩
  funext b
  simp only [addEntry, Fs.mem, h.nblocks, Int.toNat_natCast]
  have hp : ((start : Int) ≤ b ∧ (b : Int) < start + nb) = (start ≤ b ∧ b < start + nb) := by
    apply propext
    omega
  simp only [hp]

/-- The extent chosen for a new file was free, so no listed file has a block in it. -/
theorem CreateOk.fresh (h : CreateOk s name size start nb) (hr : Rep s.mem)
    (hi : i < s.nfiles.toNat) (hx : KernelHobby.extent (s.dir i) b) :
    ¬ (start ≤ b ∧ b < start + nb) := by
  rintro ⟨h₁, h₂⟩
  have hle := h.start_le
  have hf := h.free (b - start) (by omega)
  rw [Nat.add_sub_cancel' h₁] at hf
  have hu : s.used b = true := (hr.used b (by omega)).2 (.inr ⟨i, hi, hx⟩)
  rw [hf] at hu
  cases hu

theorem addEntry_rep (hr : Rep s.mem) (hm : MemOk s.mem) (h : CreateOk s name size start nb) :
    Rep (addEntry s name size ((size + 512 - 1) / 512) start).mem := by
  obtain ⟨hd, hn, hu⟩ := addEntry_mem_eq h
  have h₀ : 0 ≤ s.nfiles := hm.nfiles_nonneg
  have hnt : (s.nfiles + 1).toNat = s.nfiles.toNat + 1 := by omega
  have hfree {i b : Nat} (hi : i < s.nfiles.toNat) (hx : extent (s.dir i) b) :=
    h.fresh hr hi hx
  have hold (i : Nat) (hi : i ≠ s.nfiles.toNat) :
      Function.update s.dir s.nfiles.toNat (newEntry s name size start) i = s.dir i :=
    Function.update_of_ne hi _ _
  have hnew : Function.update s.dir s.nfiles.toNat (newEntry s name size start) s.nfiles.toNat =
      newEntry s name size start := Function.update_self _ _ _
  refine ⟨?_, ?_, ?_, ?_⟩
  · rw [hd, hn, hnt]
    intro i hi
    by_cases he : i = s.nfiles.toNat
    · subst he
      rw [hnew]
      intro _
      show size.toUInt32.toNat ≤ _
      have hlt := size.toInt_lt
      rw [h.size_toNat]
      omega
    · rw [hold i he]
      exact hr.counted i (show i < s.nfiles.toNat by omega)
  · rw [hd, hn, hnt]
    intro i j b hi hj hij hx hy
    by_cases hei : i = s.nfiles.toNat
    · rw [hold j (by omega)] at hy
      subst hei
      rw [hnew, h.extent] at hx
      exact hfree (by omega) hy hx
    · rw [hold i hei] at hx
      by_cases hej : j = s.nfiles.toNat
      · subst hej
        rw [hnew, h.extent] at hy
        exact hfree (by omega) hx hy
      · rw [hold j hej] at hy
        exact hr.disjoint i j b (show i < s.nfiles.toNat by omega)
          (show j < s.nfiles.toNat by omega) hij hx hy
  · rw [hd, hn, hnt, hu]
    intro b hb
    dsimp only
    constructor
    · intro hub
      split at hub
      · rename_i hx
        refine .inr ⟨s.nfiles.toNat, by omega, ?_⟩
        rw [hnew, h.extent]
        exact hx
      · rcases (hr.used b hb).1 hub with hmeta | ⟨i, hi, hx⟩
        · exact .inl hmeta
        · have hi' : i < s.nfiles.toNat := hi
          refine .inr ⟨i, by omega, ?_⟩
          rw [hold i (by omega)]
          exact hx
    · rintro (hmeta | ⟨i, hi, hx⟩)
      · split
        · rfl
        · exact (hr.used b hb).2 (.inl hmeta)
      · by_cases he : i = s.nfiles.toNat
        · subst he
          rw [hnew, h.extent] at hx
          rw [if_pos hx]
        · rw [hold i he] at hx
          rw [if_neg (hfree (by omega) hx)]
          exact (hr.used b hb).2 (.inr ⟨i, show i < s.nfiles.toNat by omega, hx⟩)
  · rw [hu]
    intro b hb
    have hle := h.start_le
    dsimp only
    rw [if_neg (by omega)]
    exact hr.beyond b hb

/-- Where the entries of a compacted directory come from. -/
def shifted (idx j : Nat) : Nat := if idx ≤ j then j + 1 else j

theorem removeEntry_dir (hi : idx < s.nfiles.toNat) (hj : j + 1 < s.nfiles.toNat) :
    (removeEntry s idx).dir j = s.dir (shifted idx j) := by
  simp only [removeEntry, shifted]
  rw [if_neg (by omega)]
  by_cases h : idx ≤ j
  · rw [if_pos ⟨h, by omega⟩, if_pos h]
  · rw [if_neg (fun hh => h hh.1), if_neg h]

/-- Every entry but the removed one is still there. -/
theorem shifted_surj (hne : i ≠ idx) (hi : i < n) (hidx : idx < n) :
    ∃ j, j + 1 < n ∧ shifted idx j = i := by
  by_cases h : i < idx
  · exact ⟨i, by omega, by rw [shifted, if_neg (by omega)]⟩
  · exact ⟨i - 1, by omega, by rw [shifted, if_pos (by omega)]; omega⟩

theorem shifted_spec (idx j : Nat) : shifted idx j ≠ idx ∧ shifted idx j ≤ j + 1 := by
  rw [shifted]
  split <;> omega

theorem shifted_inj (idx : Nat) (h : shifted idx i = shifted idx j) : i = j := by
  simp only [shifted] at h
  split at h <;> split at h <;> omega

theorem removeEntry_rep (hr : Rep s.mem) (hm : MemOk s.mem) (hi : idx < s.nfiles.toNat) :
    Rep (removeEntry s idx).mem := by
  have hnt : (removeEntry s idx).mem.nfiles.toNat = s.nfiles.toNat - 1 := by
    show (s.nfiles - 1).toNat = _
    omega
  have hdir (j : Nat) (hj : j < s.nfiles.toNat - 1) :
      (removeEntry s idx).mem.dir j = s.dir (shifted idx j) := removeEntry_dir hi (by omega)
  have hlt (j : Nat) (hj : j < s.nfiles.toNat - 1) : shifted idx j < s.nfiles.toNat := by
    have h := (shifted_spec idx j).2
    omega
  have hused (b : Nat) : (removeEntry s idx).mem.used b =
      setBlocks false (s.dir idx).start (fileBlocks (s.dir idx).size).toNat s.used b := rfl
  have hx : ExtentOk (s.dir idx) := hm.extents idx hi
  have hc : Counted (s.dir idx) := hr.counted idx hi
  refine ⟨?_, ?_, ?_, ?_⟩
  · rw [hnt]
    intro j hj
    rw [hdir j hj]
    exact hr.counted _ (hlt j hj)
  · rw [hnt]
    intro i j b hi hj hij
    rw [hdir i hi, hdir j hj]
    exact hr.disjoint _ _ b (hlt i hi) (hlt j hj) fun h => hij (shifted_inj idx h)
  · rw [hnt]
    intro b hb
    rw [hused, setBlocks_file hx hb, if_congr (marked_iff_extent hc hb) rfl rfl]
    have hub := hr.used b hb
    constructor
    · intro h
      split at h
      · cases h
      · rename_i hnx
        rcases hub.1 h with hmeta | ⟨i, hi', hxi⟩
        · exact .inl hmeta
        · have hne : i ≠ idx := by
            rintro rfl
            exact hnx hxi
          obtain ⟨j, hj, rfl⟩ := shifted_surj hne hi' hi
          have hj' : j < s.nfiles.toNat - 1 := Nat.lt_sub_of_add_lt hj
          refine .inr ⟨j, hj', ?_⟩
          rw [hdir j hj']
          exact hxi
    · rintro (hmeta | ⟨j, hj, hxj⟩)
      · rw [if_neg fun h => extent_not_meta hx h hmeta]
        exact hub.2 (.inl hmeta)
      · rw [hdir j hj] at hxj
        have hno : ¬ extent (s.dir idx) b :=
          hr.disjoint _ idx b (hlt j hj) hi (shifted_spec idx j).1 hxj
        rw [if_neg hno]
        exact hub.2 (.inr ⟨_, hlt j hj, hxj⟩)
  · intro b hb
    have hle := fileBlocks_le (s.dir idx).size
    have hw := hx.2
    rw [hused, setBlocks_eq (by omega), if_neg (by omega)]
    exact hr.beyond b hb

end Entry

end KernelHobby
