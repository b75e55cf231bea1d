import KernelHobby.FsExtents

namespace KernelHobby
set_option autoImplicit true

/-- The representation invariant of a mounted file system. -/
structure RepInv (s : Fs) : Prop where
  disjoint : ∀ i j b, i < s.nfiles.toNat → j < s.nfiles.toNat → i ≠ j →
    extent (s.dir i) b → ¬ extent (s.dir j) b
  start_ge : ∀ i, i < s.nfiles.toNat → DATASTART ≤ (s.dir i).start.toNat
  used_iff : ∀ b, b < MAXBLK → (s.used b = true ↔
    metaBlock b ∨ ∃ i, i < s.nfiles.toNat ∧ extent (s.dir i) b)
  log_clear : (FsLoghdr.ofBlock (s.disk LOGHDR)).committed = 0
  not_aborted : UartOut.puts tooLarge ∉ s.uart
  rebuilt : (mount s.disk).mem = s.mem

/-- No file that starts below `MAXBLK` is so large that the kernel's count of its blocks
wraps. -/
def MkfsImage.SizesOk (img : MkfsImage) : Prop :=
  ∀ i, i < img.files.length → DATASTART + filesBlocks (img.files.take i) < MAXBLK →
    (img.files.map fun f => f.2.length).getD i 0 % 2 ^ 32 ≤ 2 ^ 32 - 512

namespace MkfsImage

theorem dir_start (img : MkfsImage) (hi : i < img.files.length) :
    (img.dir i).start.toNat = DATASTART + filesBlocks (img.files.take i) :=
  (mkfsEntries_extents (UInt32.ofNat DATASTART) img.numbered hi).1

theorem dir_size (img : MkfsImage) (hi : i < img.files.length) :
    (img.dir i).size.toNat = (img.files.map fun f => f.2.length).getD i 0 % 2 ^ 32 := by
  have h := (mkfsEntries_extents (UInt32.ofNat DATASTART) img.numbered hi).2
  rw [dir, h, UInt32.toNat_ofNat']

theorem sizesOk_iff (img : MkfsImage) :
    img.SizesOk ↔ ∀ i, i < img.files.length → Counted (img.dir i) := by
  apply forall_congr'
  intro i
  apply imp_congr_right
  intro hi
  rw [Counted, img.dir_start hi, img.dir_size hi]

/-- The files of an image lie one after the other. -/
theorem extent_lt (img : MkfsImage) (hij : i < j) (hj : j < img.files.length)
    (hx : extent (img.dir i) b) : b < (img.dir j).start.toNat := by
  have hi : i < img.files.length := by omega
  have h₁ := hx.2
  have hsum := filesBlocks_take_succ img.files hi
  have hle : filesBlocks (img.files.take (i + 1)) ≤ filesBlocks (img.files.take j) := by
    have h := filesBlocks_take_le (img.files.take j) (i + 1)
    rwa [List.take_take, Nat.min_eq_left (by omega)] at h
  have hsz := blocksOf_ofNat_le ((img.files.map fun f => f.2.length).getD i 0)
  have hs := (mkfsEntries_extents (UInt32.ofNat DATASTART) img.numbered hi).2
  rw [img.dir_start hj]
  rw [img.dir_start hi] at h₁
  rw [dir, hs] at h₁
  omega

theorem disjoint (img : MkfsImage) (hi : i < img.files.length) (hj : j < img.files.length)
    (hij : i ≠ j) (hx : extent (img.dir i) b) : ¬ extent (img.dir j) b := by
  intro hy
  rcases Nat.lt_or_gt_of_ne hij with h | h
  · have hlt := img.extent_lt h hj hx
    have hge := hy.1
    omega
  · have hlt := img.extent_lt h hi hy
    have hge := hx.1
    omega

theorem rep (img : MkfsImage) (h : img.SizesOk) : Rep img.mem := by
  apply rep_fileBitmap img.memOk
  · simpa only [mem, Int.toNat_natCast] using img.sizesOk_iff.1 h
  · intro i j b hi hj
    exact img.disjoint (by simpa [mem] using hi) (by simpa [mem] using hj)

end MkfsImage

theorem FsWf.rep_remount (h : FsWf s) (hr : Rep s.mem) : Rep (mount s.disk).mem := by
  rw [(h.disk.mount h.mem).2.2.2.1]
  exact rep_fileBitmap h.mem hr.counted hr.disjoint

theorem FsWf.rep_exec (h : FsWf s) (hr : Rep s.mem) (c : Call) : Rep (c.exec s).1.mem := by
  rcases c.exec_inv h with he | ⟨_, ⟨name, data, size, start, nb, _, hc, he⟩ | ⟨name, idx, _, hf, he⟩⟩
  · rw [he]
    exact hr
  · rw [he.mem]
    exact addEntry_rep hr h.mem hc
  · rw [he.mem]
    exact removeEntry_rep hr h.mem (findName_lt hf)

theorem Reachable.rep (hi : img.SizesOk) (h : Reachable img s) : Rep s.mem := by
  induction h with
  | mkfs =>
    rw [img.mount_spec.2.2.1]
    exact img.rep hi
  | call c h ih => exact h.wf.rep_exec ih c
  | remount h ih => exact h.wf.rep_remount ih

theorem Reachable.not_aborted (h : Reachable img s) : UartOut.puts tooLarge ∉ s.uart := by
  induction h with
  | mkfs => exact img.mount_spec.2.2.2
  | call c h ih =>
    rcases c.exec_cases h.wf with he | ⟨ws, m, he, _⟩
    · rw [he]
      exact ih
    · rw [he.uart]
      exact ih
  | remount h _ => exact (h.wf.disk.mount h.wf.mem).2.2.2.2

theorem OnDisk.log_clear (h : OnDisk m d) : (FsLoghdr.ofBlock (d LOGHDR)).committed = 0 := by
  have hp : pendingOf (d LOGHDR) = none := h.log
  by_contra hc
  simp only [pendingOf, hc, ↓reduceIte] at hp
  cases hp

theorem Reachable.repInv (hi : img.SizesOk) (h : Reachable img s) : RepInv s := by
  have hr := h.rep hi
  have hm := h.wf.mem
  refine ⟨hr.disjoint, fun i hi => (hm.extents i hi).1, hr.used, h.wf.disk.log_clear,
    h.not_aborted, ?_⟩
  rw [(h.wf.disk.mount hm).2.2.2.1, hr.used_eq hm]

/-- A file whose count wraps has its first block unmarked right after the first mount. -/
theorem MkfsImage.used_wrapped (img : MkfsImage) (hi : i < img.files.length)
    (hc : ¬ Counted (img.dir i)) :
    extent (img.dir i) (img.dir i).start.toNat ∧ (img.dir i).start.toNat < MAXBLK ∧
      (mount img.disk).used (img.dir i).start.toNat = false := by
  rw [Counted, Classical.not_imp] at hc
  obtain ⟨hs, hsz⟩ := hc
  have hx : extent (img.dir i) (img.dir i).start.toNat := by
    refine ⟨Nat.le_refl _, ?_⟩
    rw [blocksOf]
    omega
  refine ⟨hx, hs, ?_⟩
  have hu : (mount img.disk).used = fileBitmap img.dir img.files.length :=
    congrArg FsMem.used img.mount_spec.2.2.1
  rw [hu, Bool.eq_false_iff]
  intro ht
  rcases (fileBitmap_iff (fun j hj => img.extentOk hj) hs).1 ht with hm | ⟨j, hj, hmk⟩
  · exact extent_not_meta (img.extentOk hi) hx hm
  · by_cases hij : i = j
    · subst hij
      have h₁ := hmk.2
      rw [fileBlocks_toNat, if_neg hsz] at h₁
      omega
    · have hle := fileBlocks_le (img.dir j).size
      have h₁ := hmk.2
      exact img.disjoint hi hj hij hx ⟨hmk.1, by omega⟩

theorem MkfsImage.not_repInv (img : MkfsImage) (hi : i < img.files.length)
    (hc : ¬ Counted (img.dir i)) : ¬ RepInv (mount img.disk) := by
  intro h
  obtain ⟨hx, hs, hu⟩ := img.used_wrapped hi hc
  have hd : (mount img.disk).dir = img.dir := congrArg FsMem.dir img.mount_spec.2.2.1
  have hn : (mount img.disk).nfiles = img.files.length :=
    congrArg FsMem.nfiles img.mount_spec.2.2.1
  have ht := (h.used_iff _ hs).2 (.inr ⟨i, by rw [hn]; exact hi, by rw [hd]; exact hx⟩)
  rw [hu] at ht
  cases ht

/-- The representation invariant holds in every state that calls and remounts reach from an
image exactly when no file of the image is too large to be counted. -/
theorem repInv_reachable_iff (img : MkfsImage) :
    (∀ s, Reachable img s → RepInv s) ↔ img.SizesOk := by
  refine ⟨?_, fun hi s h => h.repInv hi⟩
  intro h
  rw [img.sizesOk_iff]
  intro i hi
  by_contra hc
  exact img.not_repInv hi hc (h _ .mkfs)

theorem MkfsImage.single_not_counted (path : CStr) (h : data.length < 2 ^ 32)
    (hl : 2 ^ 32 - 512 < data.length) : ¬ Counted ((single path data h).dir 0) := by
  intro hc
  have hi : 0 < (single path data h).files.length := Nat.one_pos
  have h₁ := hc (by rw [(single path data h).dir_start hi, List.take_zero]; decide)
  rw [(single path data h).dir_size hi] at h₁
  simp only [single, ofFiles, List.map_cons, List.map_nil, List.getD_cons_zero] at h₁
  omega

theorem largeFile_not_repInv :
    Reachable largeFileImage (mount largeFileImage.disk) ∧
      ¬ RepInv (mount largeFileImage.disk) := by
  refine ⟨.mkfs, largeFileImage.not_repInv Nat.one_pos ?_⟩
  apply MkfsImage.single_not_counted
  rw [List.length_replicate]
  decide

end KernelHobby
