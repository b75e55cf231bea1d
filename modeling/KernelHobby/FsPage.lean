import KernelHobby.FsRefine

namespace KernelHobby
set_option autoImplicit true

/-- The loop of `fs_read_page` over a file: `k` blocks of the page are filled. -/
theorem fsReadPageLoop_spec {e : FsDirent} (hf : s.faults = []) (hsz : e.size.toNat < 2 ^ 31)
    (ho : offset.toNat % 512 = 0) (hlt : offset.toNat < e.size.toNat) (hd : done.toNat = 512 * k)
    (hk : k + n = 8) :
    ∃ b, fsReadPageLoop e.size offset n s f (e.start + UInt32.ofNat (offset.toNat / 512 + k)) done =
      ({ s with fsbuf := b }, fun j => if 512 * k ≤ j ∧ j < 4096 ∧ offset.toNat + j < e.size.toNat
        then fileByte s.disk e (offset.toNat + j) else f j) := by
  induction n generalizing s f done k with
  | zero =>
    refine ⟨s.fsbuf, ?_⟩
    rw [fsReadPageLoop, Prod.mk.injEq]
    refine ⟨rfl, ?_⟩
    funext j
    rw [if_neg (by omega)]
  | succ n ih =>
    have h4096 : (4096 : UInt32).toNat = 4096 := rfl
    have h512 : (512 : UInt32).toNat = 512 := rfl
    have hadd : (offset + done).toNat = offset.toNat + 512 * k := by
      rw [UInt32.toNat_add]
      omega
    rw [fsReadPageLoop]
    by_cases hgo : offset.toNat + 512 * k < e.size.toNat
    · have hcond : done < 4096 ∧ offset + done < e.size := by
        refine ⟨UInt32.lt_iff_toNat_lt.2 ?_, UInt32.lt_iff_toNat_lt.2 ?_⟩
        · omega
        · omega
      have hbyte (j : Nat) (h₁ : 512 * k ≤ j) (h₂ : j < 512 * k + 512) :
          fileByte s.disk e (offset.toNat + j) =
            (s.disk (e.start + UInt32.ofNat (offset.toNat / 512 + k)).toNat).byte (j - 512 * k) := by
        have hq : (offset.toNat + j) / BSIZE = offset.toNat / 512 + k := by
          simp only [BSIZE]
          omega
        have hr : (offset.toNat + j) % BSIZE = j - 512 * k := by
          simp only [BSIZE]
          omega
        rw [fileByte, hq, hr]
      have hnext : e.start + UInt32.ofNat (offset.toNat / 512 + k) + 1 =
          e.start + UInt32.ofNat (offset.toNat / 512 + (k + 1)) := by
        rw [← Nat.add_assoc, UInt32.ofNat_add (offset.toNat / 512 + k), ← UInt32.add_assoc]
        rfl
      have hdone : (done + 512).toNat = 512 * (k + 1) := by
        rw [UInt32.toNat_add]
        omega
      have hrest : (e.size - (offset + done)).toNat = e.size.toNat - (offset.toNat + 512 * k) := by
        rw [UInt32.toNat_sub_of_le _ _ (UInt32.le_iff_toNat_le.2 (by omega)), hadd]
      rw [if_pos hcond, virtioDiskRw_read hf]
      dsimp only
      rw [hnext]
      obtain ⟨b, he⟩ := ih (s := { s with
        fsbuf := s.disk (e.start + UInt32.ofNat (offset.toNat / 512 + k)).toNat }) hf hdone (by omega)
      refine ⟨b, ?_⟩
      rw [he, Prod.mk.injEq]
      refine ⟨rfl, ?_⟩
      funext j
      -- how much of this block belongs to the file
      have hn : (if (512 : UInt32) < e.size - (offset + done) then 512
          else e.size - (offset + done)).toNat = min 512 (e.size.toNat - (offset.toNat + 512 * k)) := by
        split
        · rename_i hbig
          have hbig' := UInt32.lt_iff_toNat_lt.1 hbig
          omega
        · rename_i hbig
          have hbig' := mt UInt32.lt_iff_toNat_lt.2 hbig
          omega
      rw [hn, hd]
      by_cases h₁ : 512 * (k + 1) ≤ j ∧ j < 4096 ∧ offset.toNat + j < e.size.toNat
      · rw [if_pos h₁, if_pos (by omega)]
      · rw [if_neg h₁]
        by_cases h₂ : 512 * k ≤ j ∧ j < 4096 ∧ offset.toNat + j < e.size.toNat
        · rw [if_pos h₂, if_pos (by omega), hbyte j (by omega) (by omega)]
        · rw [if_neg h₂, if_neg (by omega)]
    · have hcond : ¬ (done < 4096 ∧ offset + done < e.size) := by
        rintro ⟨_, hlt'⟩
        have hlt' := UInt32.lt_iff_toNat_lt.1 hlt'
        omega
      rw [if_neg hcond]
      refine ⟨s.fsbuf, ?_⟩
      rw [Prod.mk.injEq]
      refine ⟨rfl, ?_⟩
      funext j
      rw [if_neg (by omega)]

/-- The loop of `fs_read_page` changes the buffer of the disk only. -/
theorem fsReadPageLoop_fs (hf : s.faults = []) :
    ∃ b, (fsReadPageLoop size offset n s f blk done).1 = { s with fsbuf := b } := by
  induction n generalizing s f blk done with
  | zero => exact ⟨s.fsbuf, rfl⟩
  | succ n ih =>
    rw [fsReadPageLoop]
    split
    · rw [virtioDiskRw_read hf]
      obtain ⟨b, hb⟩ := ih (s := { s with fsbuf := s.disk blk.toNat }) hf
      exact ⟨b, hb⟩
    · exact ⟨s.fsbuf, rfl⟩

/-- A page of a file, with zeros behind the end. -/
theorem fsReadPage_file (e : FsDirent) (hf : s.faults = []) (hsz : e.size.toNat < 2 ^ 31)
    (ho : offset.toNat % 4096 = 0) (hlt : offset.toNat < e.size.toNat) (hj : j < 4096) :
    (fsReadPage s e.start e.size offset buf).2 j =
      if offset.toNat + j < e.size.toNat then fileByte s.disk e (offset.toNat + j) else 0 := by
  have hstart : e.start + offset / 512 = e.start + UInt32.ofNat (offset.toNat / 512 + 0) := by
    congr 1
    apply UInt32.toNat_inj.1
    have hoff := offset.toNat_lt
    rw [UInt32.toNat_div, UInt32.toNat_ofNat', Nat.mod_eq_of_lt (by omega)]
    rfl
  obtain ⟨b, he⟩ := fsReadPageLoop_spec (s := s) (n := 8) (f := fun j => if j < 4096 then 0 else buf j)
    (k := 0) hf hsz (by omega) hlt (show (0 : UInt32).toNat = 512 * 0 from rfl) rfl
  rw [fsReadPage, hstart, he]
  dsimp only
  by_cases hin : offset.toNat + j < e.size.toNat
  · rw [if_pos ⟨by omega, hj, hin⟩, if_pos hin]
  · rw [if_neg (by omega), if_neg hin, if_pos hj]

/-- The bytes of one block on the console. -/
theorem putc_block (s : Fs) (b : Block) (n : Nat) :
    (List.range n).foldl (fun s j => s.putc (s.fsbuf.byte j)) { s with fsbuf := b } =
      { s with fsbuf := b, uart := s.uart ++ (List.range n).map fun j => .putc (b.byte j) } := by
  induction n with
  | zero =>
    rw [List.range_zero, List.map_nil, List.append_nil]
    rfl
  | succ n ih =>
    rw [List.range_succ, List.foldl_append, ih, List.map_append, ← List.append_assoc]
    rfl

theorem fsCatLoop_zero (n : Nat) : fsCatLoop n s blk 0 = s := by
  cases n with
  | zero => rfl
  | succ n => rw [fsCatLoop, if_pos rfl]

/-- The loop of `fs_cat`: `k` blocks are on the console, `r` bytes are left. -/
theorem fsCatLoop_spec {e : FsDirent} (hf : s.faults = [])
    (hr : 512 * k + r.toNat = e.size.toNat) (hfuel : r.toNat ≤ 512 * n) :
    (fsCatLoop n s (e.start + UInt32.ofNat k) r).uart =
      s.uart ++ (List.range r.toNat).map fun j => .putc (fileByte s.disk e (512 * k + j)) := by
  induction n generalizing s k r with
  | zero =>
    have hz : r.toNat = 0 := by omega
    rw [fsCatLoop, hz, List.range_zero, List.map_nil, List.append_nil]
  | succ n ih =>
    have h512 : (512 : UInt32).toNat = 512 := rfl
    have hbyte (j : Nat) (hj : j < 512) : fileByte s.disk e (512 * k + j) =
        (s.disk (e.start + UInt32.ofNat k).toNat).byte j := by
      have hq : (512 * k + j) / BSIZE = k := by
        simp only [BSIZE]
        omega
      have hm : (512 * k + j) % BSIZE = j := by
        simp only [BSIZE]
        omega
      rw [fileByte, hq, hm]
    by_cases hz : r = 0
    · rw [hz, fsCatLoop_zero, UInt32.toNat_zero, List.range_zero, List.map_nil, List.append_nil]
    rw [fsCatLoop, if_neg hz, virtioDiskRw_read hf]
    dsimp only
    rw [putc_block]
    by_cases hbig : (512 : UInt32) < r
    · have hbig' := UInt32.lt_iff_toNat_lt.1 hbig
      rw [h512] at hbig'
      have hnext : e.start + UInt32.ofNat k + 1 = e.start + UInt32.ofNat (k + 1) := by
        rw [UInt32.ofNat_add, ← UInt32.add_assoc]
        rfl
      have hrest : (r - 512).toNat = r.toNat - 512 :=
        UInt32.toNat_sub_of_le _ _ (UInt32.le_iff_toNat_le.2 (by omega))
      have hsplit : List.range r.toNat =
          List.range 512 ++ (List.range (r.toNat - 512)).map (512 + ·) := by
        rw [← List.range_add, Nat.add_sub_cancel' (Nat.le_of_lt hbig')]
      have hleft : 512 * (k + 1) + (r - 512).toNat = e.size.toNat := by omega
      rw [if_pos hbig, hnext]
      refine Eq.trans (ih ?_ hleft (by omega)) ?_
      · exact hf
      have hhead : (List.range 512).map (fun j => UartOut.putc (fileByte s.disk e (512 * k + j))) =
          (List.range 512).map fun j =>
            .putc ((s.disk (e.start + UInt32.ofNat k).toNat).byte j) := by
        apply List.map_congr_left
        intro j hj
        rw [hbyte j (List.mem_range.1 hj)]
      rw [hrest, hsplit, List.map_append, List.map_map, ← List.append_assoc, h512, hhead]
      refine congrArg (_ ++ ·) (List.map_congr_left fun j _ => ?_)
      rw [Function.comp_apply, ← Nat.add_assoc]
      rfl
    · have hsmall := mt UInt32.lt_iff_toNat_lt.2 hbig
      rw [if_neg hbig, UInt32.sub_self, fsCatLoop_zero]
      dsimp only
      congr 1
      apply List.map_congr_left
      intro j hj
      have hj := List.mem_range.1 hj
      rw [hbyte j (by omega)]

/-- Rows of a table, one behind the other. -/
theorem flatMap_rows (g : Nat → α) (n m : Nat) :
    (List.range n).flatMap (fun q => (List.range m).map fun j => g (m * q + j)) =
      (List.range (m * n)).map g := by
  induction n with
  | zero => rfl
  | succ n ih =>
    rw [List.range_succ, List.flatMap_append, ih, Nat.mul_succ, List.range_add, List.map_append,
      List.map_map, List.flatMap_singleton]
    rfl

/-- `fs_cat` puts the file on the console. -/
theorem fsCat_entry (hm : s.mounted = true) (hf : s.faults = []) (hi : findName s name = some i) :
    (fsCat s name).uart = s.uart ++
      (List.range (s.dir i).size.toNat).map fun j => .putc (fileByte s.disk (s.dir i) j) := by
  have hloop := fsCatLoop_spec (s := s) (e := s.dir i) (k := 0) (r := (s.dir i).size)
    (n := (s.dir i).size.toNat / BSIZE + 1) hf (by omega) (by simp only [BSIZE]; omega)
  have hstart : (s.dir i).start + UInt32.ofNat 0 = (s.dir i).start := UInt32.add_zero _
  rw [hstart] at hloop
  simp only [Nat.mul_zero, Nat.zero_add] at hloop
  simp only [fsCat, hm, Bool.not_true, Bool.false_eq_true, ↓reduceIte, hi]
  exact hloop

/-- The pages of a file one behind the other, as `fs_read_page` gives them. -/
def filePages (s : Fs) (e : FsDirent) (buf : Nat → UInt8) : List UInt8 :=
  (List.range ((e.size.toNat + 4095) / 4096)).flatMap fun q =>
    (List.range 4096).map (fsReadPage s e.start e.size (UInt32.ofNat (4096 * q)) buf).2

theorem filePages_eq (e : FsDirent) (hf : s.faults = []) (hsz : e.size.toNat < 2 ^ 31) :
    filePages s e buf = (List.range e.size.toNat).map (fileByte s.disk e) ++
      List.replicate ((e.size.toNat + 4095) / 4096 * 4096 - e.size.toNat) 0 := by
  have hpage (q : Nat) (hq : q < (e.size.toNat + 4095) / 4096) :
      (List.range 4096).map (fsReadPage s e.start e.size (UInt32.ofNat (4096 * q)) buf).2 =
        (List.range 4096).map fun j =>
          if 4096 * q + j < e.size.toNat then fileByte s.disk e (4096 * q + j) else 0 := by
    have hoff : (UInt32.ofNat (4096 * q)).toNat = 4096 * q := by
      rw [UInt32.toNat_ofNat', Nat.mod_eq_of_lt (by omega)]
    apply List.map_congr_left
    intro j hj
    rw [fsReadPage_file e hf hsz (by omega) (by omega) (List.mem_range.1 hj), hoff]
  have hrows : filePages s e buf = (List.range (4096 * ((e.size.toNat + 4095) / 4096))).map fun x =>
      if x < e.size.toNat then fileByte s.disk e x else 0 := by
    rw [← flatMap_rows, filePages, List.flatMap_def, List.flatMap_def]
    exact congrArg List.flatten (List.map_congr_left fun q hq => hpage q (List.mem_range.1 hq))
  have hlen : 4096 * ((e.size.toNat + 4095) / 4096) =
      e.size.toNat + ((e.size.toNat + 4095) / 4096 * 4096 - e.size.toNat) := by omega
  rw [hrows, hlen, List.range_add, List.map_append, List.map_map]
  congr 1
  · apply List.map_congr_left
    intro x hx
    rw [if_pos (List.mem_range.1 hx)]
  · refine List.eq_replicate_iff.2 ⟨by rw [List.length_map, List.length_range], ?_⟩
    intro b hb
    obtain ⟨x, _, rfl⟩ := List.mem_map.1 hb
    exact if_neg (Nat.not_lt.2 (Nat.le_add_right _ _))

/-- The three ways to read a file give the same bytes. -/
theorem read_paths_agree (hm : s.mounted = true) (hf : s.faults = [])
    (hi : findName s name = some i) (hsz : (s.dir i).size.toNat < 2 ^ 31)
    (hl : ((s.dir i).size.toNat : Int) ≤ limit.toInt) (buf page : Nat → UInt8) :
    (fsRead s name buf limit).2.2 = (s.dir i).size.toNat ∧
    (∀ offset : UInt32, offset.toNat % 4096 = 0 → offset < (s.dir i).size → ∀ j, j < 4096 →
      (fsReadPage s (s.dir i).start (s.dir i).size offset page).2 j =
        if offset.toNat + j < (s.dir i).size.toNat
        then (fsRead s name buf limit).2.1 (offset.toNat + j) else 0) ∧
    filePages s (s.dir i) page =
      (List.range (s.dir i).size.toNat).map (fsRead s name buf limit).2.1 ++
        List.replicate (((s.dir i).size.toNat + 4095) / 4096 * 4096 - (s.dir i).size.toNat) 0 ∧
    (fsCat s name).uart = s.uart ++
      (List.range (s.dir i).size.toNat).map fun j => .putc ((fsRead s name buf limit).2.1 j) := by
  obtain ⟨hret, hread⟩ := fsRead_entry buf hm hf hi hl
  have hbyte (j : Nat) (hj : j < (s.dir i).size.toNat) :
      (fsRead s name buf limit).2.1 j = fileByte s.disk (s.dir i) j := by
    rw [hread, if_pos hj]
  refine ⟨hret, fun offset ho hlt j hj => ?_, ?_, ?_⟩
  · rw [fsReadPage_file _ hf hsz ho (UInt32.lt_iff_toNat_lt.1 hlt) hj]
    by_cases hin : offset.toNat + j < (s.dir i).size.toNat
    · rw [if_pos hin, if_pos hin, hbyte _ hin]
    · rw [if_neg hin, if_neg hin]
  · rw [filePages_eq _ hf hsz]
    congr 1
    apply List.map_congr_left
    intro j hj
    rw [hbyte j (List.mem_range.1 hj)]
  · rw [fsCat_entry hm hf hi]
    congr 1
    apply List.map_congr_left
    intro j hj
    rw [hbyte j (List.mem_range.1 hj)]

theorem read_paths_agree_small :
    findName (mount smallFileImage.disk) nameA = some 0 ∧
    ((mount smallFileImage.disk).dir 0).size = 3 ∧
    (fsCat (mount smallFileImage.disk) nameA).uart = (mount smallFileImage.disk).uart ++
      (List.range 3).map fun j =>
        .putc ((fsRead (mount smallFileImage.disk) nameA (fun _ => 9) 8).2.1 j) := by
  have hf : findName (mount smallFileImage.disk) nameA = some 0 := by
    rw [smallFileImage.findName_mount]
    decide
  obtain ⟨_, _, h, _⟩ := smallFileImage.mount_spec
  have hd : (mount smallFileImage.disk).dir = smallFileImage.dir := congrArg FsMem.dir h
  have hsz : ((mount smallFileImage.disk).dir 0).size = 3 := by
    rw [hd]
    decide
  have hfit : (((mount smallFileImage.disk).dir 0).size.toNat : Int) ≤ (8 : Int32).toInt := by
    rw [hsz]
    decide
  have hlt : ((mount smallFileImage.disk).dir 0).size.toNat < 2 ^ 31 := by
    rw [hsz]
    decide
  obtain ⟨_, _, _, hcat⟩ := read_paths_agree smallFileImage.wf.mem.mounted
    smallFileImage.wf.faults hf hlt hfit (fun _ => 9) fun _ => 7
  have hthree : (3 : UInt32).toNat = 3 := rfl
  rw [hsz, hthree] at hcat
  exact ⟨hf, hsz, hcat⟩

end KernelHobby
