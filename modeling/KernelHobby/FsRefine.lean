import KernelHobby.FsMap

namespace KernelHobby
set_option autoImplicit true

namespace MkfsImage

theorem good (img : MkfsImage) (hs : img.SizesOk) (hn : img.NamesOk) : FsGood (mount img.disk) where
  wf := img.wf
  rep := by
    rw [img.mount_spec.2.2.1]
    exact img.rep hs
  names := by
    rw [img.mount_spec.2.2.1]
    exact img.mem_namesOk hn

theorem fileImage_length (h : data.length < 2 ^ 32) :
    (fileImage data).length = (data.length + 511) / 512 := by
  have hl : (UInt32.ofNat data.length).toNat = data.length := by
    rw [UInt32.toNat_ofNat']
    omega
  simp only [fileImage, List.length_map, List.length_range, hl]

theorem fileImage_byte (h : data.length < 2 ^ 32) (hj : j < data.length) :
    ((fileImage data).getD (j / BSIZE) zeroBlock).byte (j % BSIZE) = data.getD j 0 := by
  have hl : (UInt32.ofNat data.length).toNat = data.length := by
    rw [UInt32.toNat_ofNat']
    omega
  have hk : j / BSIZE < (data.length + 511) / 512 := by
    simp only [BSIZE]
    omega
  have hj' : BSIZE * (j / BSIZE) + j % BSIZE = j := Nat.div_add_mod j BSIZE
  rw [List.getD_eq_getElem?_getD, fileImage, hl, List.getElem?_map, List.getElem?_range hk,
    Option.map_some, Option.getD_some, blockOf_byte _ (Nat.mod_lt _ (by decide)), hj', if_pos hj]

theorem flatMap_length (files : List HostFile) (h : ∀ f ∈ files, f.2.length < 2 ^ 32) :
    (files.flatMap fun f => fileImage f.2).length = filesBlocks files := by
  rw [List.length_flatMap, filesBlocks]
  congr 1
  apply List.map_congr_left
  intro f hf
  exact fileImage_length (h f hf)

/-- The block `k` of file `i` lies where the directory says. -/
theorem disk_file (img : MkfsImage) (h : ∀ f ∈ img.files, f.2.length < 2 ^ 32)
    (hi : i < img.files.length) (hk : k < ((img.files[i]).2.length + 511) / 512) :
    img.disk (DATASTART + filesBlocks (img.files.take i) + k) =
      (fileImage (img.files[i]).2).getD k zeroBlock := by
  have hw := img.written
  rw [mkfs] at hw
  split at hw
  · cases hw
  rw [Option.some.injEq] at hw
  have hsplit : img.files = img.files.take i ++ img.files[i] :: img.files.drop (i + 1) := by
    rw [← List.drop_eq_getElem_cons hi, List.take_append_drop]
  have hlen := flatMap_length (img.files.take i) fun f hf => h f (List.mem_of_mem_take hf)
  have hfl := fileImage_length (h _ (List.getElem_mem hi))
  have hmid : (img.files.flatMap fun f => fileImage f.2).getD
      (filesBlocks (img.files.take i) + k) zeroBlock =
        (fileImage (img.files[i]).2).getD k zeroBlock := by
    nth_rewrite 1 [hsplit]
    rw [List.flatMap_append, List.flatMap_cons, List.getD_append_right _ _ _ _ (by omega), hlen,
      Nat.add_sub_cancel_left, List.getD_append _ _ _ _ (by omega)]
  have hall := flatMap_length img.files h
  have hle := filesBlocks_take_le img.files (i + 1)
  have hsum := filesBlocks_take_succ img.files hi
  have hget : (img.files.map fun f => f.2.length).getD i 0 = (img.files[i]).2.length := by
    rw [List.getD_eq_getElem?_getD, List.getElem?_map, List.getElem?_eq_getElem hi,
      Option.map_some, Option.getD_some]
  rw [hget] at hsum
  have hlog : ∀ (a b c : Block), ([a, b, c] ++ List.replicate LOGN zeroBlock).length = DATASTART := by
    intro a b c
    simp only [List.length_append, List.length_replicate, List.length_cons, List.length_nil,
      DATASTART, LOGSTART, LOGN]
  rw [disk, diskOf, ← hw, ← hmid,
    List.getD_append _ _ _ _ (by rw [List.length_append, hlog]; omega),
    List.getD_append_right _ _ _ _ (by rw [hlog]; omega), hlog]
  congr 1
  omega

theorem contents_dir (img : MkfsImage) (h : ∀ f ∈ img.files, f.2.length < 2 ^ 32)
    (hi : i < img.files.length) : contents img.disk (img.dir i) = (img.files[i]).2 := by
  have hl := h _ (List.getElem_mem hi)
  have hget : (img.files.map fun f => f.2.length).getD i 0 = (img.files[i]).2.length := by
    rw [List.getD_eq_getElem?_getD, List.getElem?_map, List.getElem?_eq_getElem hi,
      Option.map_some, Option.getD_some]
  have hsz : (img.dir i).size.toNat = (img.files[i]).2.length := by
    rw [img.dir_size hi, hget]
    omega
  apply List.ext_getElem
  · rw [contents_length, hsz]
  · intro j h₁ h₂
    have hk : j / BSIZE < ((img.files[i]).2.length + 511) / 512 := by
      simp only [BSIZE]
      omega
    have hbyte := fileImage_byte hl h₂
    rw [List.getD_eq_getElem?_getD (l := (img.files[i]).2), List.getElem?_eq_getElem h₂,
      Option.getD_some] at hbyte
    simp only [contents, List.getElem_map, List.getElem_range]
    rw [fileByte, (img.extentOk hi).block (by rw [blocksOf, hsz]; exact hk), img.dir_start hi,
      img.disk_file h hi hk, hbyte]

/-- The map that the files on the command line stand for. -/
def map (img : MkfsImage) : FileMap := fun name =>
  (img.files.find? fun f => baseName f.1 = name.1.bytes).map Prod.snd

theorem find_base (img : MkfsImage) (hn : img.NamesOk) (hi : i < img.files.length)
    (hb : baseName (img.files[i]).1 = name) :
    img.files.find? (fun f => baseName f.1 = name) = some img.files[i] := by
  cases hf : img.files.find? (fun f => baseName f.1 = name) with
  | none =>
    have hp := List.find?_eq_none.1 hf _ (List.getElem_mem hi)
    exact absurd hb (by simpa using hp)
  | some f =>
    obtain ⟨j, hj, rfl⟩ := List.getElem_of_mem (List.mem_of_find?_eq_some hf)
    have hp := List.find?_some hf
    rw [decide_eq_true_eq, ← hb] at hp
    have hij : j = i := by
      exact (@List.Nodup.getElem_inj_iff _ _ hn.1 j (by simpa using hj) i (by simpa using hi)).1
        (by simpa using hp)
    subst hij
    rfl

/-- A fresh image holds the files it was made from. -/
theorem map_mount (img : MkfsImage) (hs : img.SizesOk) (hn : img.NamesOk)
    (h : ∀ f ∈ img.files, f.2.length < 2 ^ 32) : (mount img.disk).map = img.map := by
  have hg := img.good hs hn
  obtain ⟨hdisk, _, hmem, _⟩ := img.mount_spec
  have hd : (mount img.disk).dir = img.dir := congrArg FsMem.dir hmem
  have hnf : (mount img.disk).nfiles.toNat = img.files.length := by
    rw [show (mount img.disk).nfiles = img.files.length from congrArg FsMem.nfiles hmem,
      Int.toNat_natCast]
  have hshort (i : Nat) (hi : i < img.files.length) :
      (baseStr (img.files[i]).1).bytes.length < NAMELEN := hn.2 _ (List.getElem_mem hi)
  funext name
  apply Option.ext
  intro bytes
  rw [map_eq_some hg, hd, hdisk, hnf]
  simp only [map, Option.map_eq_some_iff]
  constructor
  · rintro ⟨i, hi, hx, hb⟩
    have hbase : baseName (img.files[i]).1 = name.1.bytes :=
      congrArg CStr.bytes (Named.unique (a := baseStr (img.files[i]).1) (img.named_dir hn hi) hx
        (hshort i hi) name.2)
    refine ⟨img.files[i], img.find_base hn hi hbase, ?_⟩
    rw [← hb, img.contents_dir h hi]
  · rintro ⟨f, hf, rfl⟩
    obtain ⟨i, hi, rfl⟩ := List.getElem_of_mem (List.mem_of_find?_eq_some hf)
    have hp := List.find?_some hf
    rw [decide_eq_true_eq] at hp
    refine ⟨i, hi, ?_, img.contents_dir h hi⟩
    rw [← hp]
    exact img.named_dir hn hi

end MkfsImage

/-- Whatever operations follow on a mounted image, the answers are those of a finite map that
starts with the files of the image. -/
theorem fs_refines_map (img : MkfsImage) (hs : img.SizesOk) (hn : img.NamesOk) (ops : List Op) :
    ∃ M, FileMap.Run M ops (Op.run (mount img.disk) ops).2 (Op.run (mount img.disk) ops).1.map ∧
      M = (mount img.disk).map ∧ ((∀ f ∈ img.files, f.2.length < 2 ^ 32) → M = img.map) :=
  ⟨_, Op.run_refines (img.good hs hn) ops, rfl, img.map_mount hs hn⟩

def smallFileImage : MkfsImage := .single nameA [1, 2, 3] (by decide)

def someOps : List Op :=
  [.create ⟨nameB, by decide⟩ (fun _ => 7) 600, .read ⟨nameA, by decide⟩ (fun _ => 0) 3,
    .delete ⟨nameA, by decide⟩, .remount, .stat ⟨nameA, by decide⟩]

theorem fs_refines_map_small :
    smallFileImage.SizesOk ∧ smallFileImage.NamesOk ∧
      ∃ M, FileMap.Run M someOps (Op.run (mount smallFileImage.disk) someOps).2
          (Op.run (mount smallFileImage.disk) someOps).1.map ∧
        M = (mount smallFileImage.disk).map ∧
        ((∀ f ∈ smallFileImage.files, f.2.length < 2 ^ 32) → M = smallFileImage.map) := by
  have hs : smallFileImage.SizesOk := by
    intro i hi _
    have hi' : i < 1 := hi
    obtain rfl : i = 0 := by omega
    decide
  have hn : smallFileImage.NamesOk := by
    refine ⟨by decide, ?_⟩
    intro f hf
    rw [List.mem_singleton.1 hf]
    decide
  exact ⟨hs, hn, fs_refines_map smallFileImage hs hn someOps⟩

section Overwritten
variable {data : List UInt8}

theorem MkfsImage.single_namesOk (path : CStr) (h : data.length < 2 ^ 32)
    (hp : (baseName path).length < NAMELEN) : (single path data h).NamesOk := by
  refine ⟨List.nodup_singleton _, ?_⟩
  intro f hf
  rw [List.mem_singleton.1 hf]
  exact hp

/-- On an image of one file that is too large to be counted, the allocator hands out the
first block of that file. -/
theorem ballocContig_single (h : data.length < 2 ^ 32) (hl : 2 ^ 32 - 512 < data.length) :
    ballocContig (mount (MkfsImage.single nameA data h).disk) 1 = DATASTART := by
  set img := MkfsImage.single nameA data h with himg
  have hi : 0 < img.files.length := Nat.one_pos
  have hstart : (img.dir 0).start.toNat = DATASTART := img.dir_start hi
  obtain ⟨_, _, hu⟩ := img.used_wrapped hi (MkfsImage.single_not_counted nameA h hl)
  rw [hstart] at hu
  have ht : (mount img.disk).totalBlocks = clampTotal img.total :=
    congrArg FsMem.totalBlocks img.mount_spec.2.2.1
  have hge := img.clampTotal_bounds.1
  have hd : (UInt32.ofNat DATASTART).toNat = DATASTART := rfl
  have he : (UInt32.ofNat DATASTART + (1 : Int32).toUInt32).toNat = 20 := rfl
  rw [ballocContig, if_neg (by decide), MAXBLK, ballocScan,
    if_pos ⟨by rw [UInt32.le_iff_toNat_le, he, ht]; omega, by rw [he]; decide⟩, if_pos, hd]
  rw [hd, List.all_eq_true]
  intro k hk
  have hk' : k = 0 := by
    rw [List.mem_range] at hk
    have h1 : (1 : Int32).toInt.toNat = 1 := rfl
    omega
  rw [hk', Nat.add_zero, hu]
  rfl

theorem fsCreate_single (h : data.length < 2 ^ 32) (hl : 2 ^ 32 - 512 < data.length)
    (bytes : Nat → UInt8) :
    (fsCreate (mount (MkfsImage.single nameA data h).disk) nameB bytes 1).2 = 0 := by
  have hb := ballocContig_single h hl
  set img := MkfsImage.single nameA data h with himg
  have hmem := img.mount_spec.2.2.1
  have hm : (mount img.disk).mounted = true := congrArg FsMem.mounted hmem
  have hn : (mount img.disk).nfiles = 1 := congrArg FsMem.nfiles hmem
  have hd : (mount img.disk).dir = img.dir := congrArg FsMem.dir hmem
  have hf : findName (mount img.disk) nameB = none := by
    rw [findName_none (by decide), hn, hd]
    intro i hi hx
    have hi' : i < img.files.length := hi
    have hy := img.named_dir (MkfsImage.single_namesOk nameA h (by decide)) hi'
    have hfile : img.files[i] = (nameA, data) := List.mem_singleton.1 (List.getElem_mem hi')
    rw [hfile] at hy
    exact absurd (hx.unique (b := nameA) hy (by decide) (by decide)) (by decide)
  have hone : ((1 : Int32) + 512 - 1) / 512 = 1 := by decide
  rw [fsCreate, if_neg, if_neg]
  · dsimp only
    rw [hone, if_neg (by decide), hb, if_neg (by decide)]
  · rw [hf]
    decide
  · rw [hm, hn]
    decide

/-- The new file's byte replaces the first byte of the old file. -/
theorem fsCreate_single_disk (h : data.length < 2 ^ 32) (hl : 2 ^ 32 - 512 < data.length)
    (bytes : Nat → UInt8) (e : FsDirent) (he : e.start.toNat = DATASTART) :
    let s' := (fsCreate (mount (MkfsImage.single nameA data h).disk) nameB bytes 1).1
    fileByte s'.disk e 0 = bytes 0 ∧
      s'.dir 0 = (mount (MkfsImage.single nameA data h).disk).dir 0 ∧ s'.nfiles = 2 := by
  have hr := fsCreate_single h hl bytes
  have hb := ballocContig_single h hl
  set img := MkfsImage.single nameA data h with himg
  have hn : (mount img.disk).nfiles = 1 := congrArg FsMem.nfiles img.mount_spec.2.2.1
  rcases (Call.create nameB bytes 1).exec_inv img.wf with hx | ⟨_, hc⟩
  · rw [show fsCreate (mount img.disk) nameB bytes 1 = (mount img.disk, -1) from hx] at hr
    cases hr
  rcases hc with ⟨_, _, _, start, nb, hc, hok, hx⟩ | ⟨_, _, hc, _⟩
  · cases hc
    have hone : ((1 : Int32) + 512 - 1) / 512 = 1 := by decide
    have hst : start = DATASTART := by
      have hch := hok.chosen
      rw [hone, hb] at hch
      omega
    have hnb : nb = 1 := by
      rw [hok.blocks]
      rfl
    subst hst hnb
    have hx' : Effect (mount img.disk) (dataWrites bytes 1 DATASTART 1)
        (addEntry (mount img.disk) nameB 1 ((1 + 512 - 1) / 512) (DATASTART : Nat)).mem
        (fsCreate (mount img.disk) nameB bytes 1).1 := hx
    obtain ⟨hdir, hnf, _⟩ := addEntry_mem_eq hok
    refine ⟨?_, ?_, ?_⟩
    · have hz : (e.start + UInt32.ofNat (0 / BSIZE)).toNat = DATASTART + 0 := by
        rw [← he]
        exact congrArg UInt32.toNat (UInt32.add_zero e.start)
      rw [fileByte, hz, hx'.disk_data (Nat.le_add_right _ _), dataWrites_block _ Nat.one_pos, dataBlock,
        blockOf_byte _ (by decide)]
      rfl
    · have hd := (congrArg FsMem.dir hx'.mem).trans hdir
      have hd0 := congrFun hd 0
      rw [Function.update_of_ne (by rw [hn]; decide)] at hd0
      exact hd0
    · have hnf' := (congrArg FsMem.nfiles hx'.mem).trans hnf
      rw [hn] at hnf'
      exact hnf'
  · cases hc

theorem FileMap.Run.create_other {M M' : FileMap} {name a : FileName}
    (h : FileMap.Run M [.create name bytes size] outs M') (ha : a ≠ name) : M' a = M a := by
  cases h with
  | cons hst hrest =>
    cases hrest
    cases hst with
    | refused => rfl
    | created => rw [Function.update_of_ne ha]

theorem map_first_entry {s : Fs} {name : FileName} (hn : 0 < s.nfiles.toNat)
    (hx : Named (s.dir 0) name.1.bytes) :
    s.map name = some (contents s.disk (s.dir 0)) := by
  obtain ⟨k, hk⟩ : ∃ k, s.nfiles.toNat = k + 1 := ⟨s.nfiles.toNat - 1, by omega⟩
  have hf : findName s name = some 0 := by
    rw [findName, hk, List.range_succ_eq_map]
    exact List.find?_cons_of_pos ((streq_dirName name.1 name.2).2 hx)
  rw [Fs.map, hf]
  rfl

/-- Creating one file is not a step of the finite map on such an image: the file that was
there loses its first byte. -/
theorem not_refines_single (h : data.length < 2 ^ 32) (hl : 2 ^ 32 - 512 < data.length)
    (hz : data.getD 0 0 = 0) (M : FileMap)
    (hM : M = (mount (MkfsImage.single nameA data h).disk).map) :
    ¬ FileMap.Run M [.create ⟨nameB, by decide⟩ (fun _ => 1) 1]
      (Op.run (mount (MkfsImage.single nameA data h).disk)
        [.create ⟨nameB, by decide⟩ (fun _ => 1) 1]).2
      (Op.run (mount (MkfsImage.single nameA data h).disk)
        [.create ⟨nameB, by decide⟩ (fun _ => 1) 1]).1.map := by
  intro hrun
  have hsame := hrun.create_other (a := ⟨nameA, by decide⟩) (by decide)
  set img := MkfsImage.single nameA data h with himg
  have hi : 0 < img.files.length := Nat.one_pos
  have hd : (mount img.disk).dir = img.dir := congrArg FsMem.dir img.mount_spec.2.2.1
  have hn : (mount img.disk).nfiles = 1 := congrArg FsMem.nfiles img.mount_spec.2.2.1
  have hx : Named (img.dir 0) nameA.bytes :=
    img.named_dir (MkfsImage.single_namesOk nameA h (by decide)) hi
  have hstart : (img.dir 0).start.toNat = DATASTART := img.dir_start hi
  obtain ⟨hb, hd', hn'⟩ := fsCreate_single_disk h hl (fun _ => 1) (img.dir 0) hstart
  have hpos : 0 < (img.dir 0).size.toNat := by
    rw [img.dir_size hi]
    show 0 < data.length % 2 ^ 32
    omega
  have hold : (mount img.disk).map ⟨nameA, by decide⟩ = some (contents img.disk (img.dir 0)) := by
    rw [map_first_entry (by rw [hn]; decide) (by rw [hd]; exact hx), hd, img.mount_spec.1]
  have hnew : (fsCreate (mount img.disk) nameB (fun _ => 1) 1).1.map ⟨nameA, by decide⟩ =
      some (contents (fsCreate (mount img.disk) nameB (fun _ => 1) 1).1.disk (img.dir 0)) := by
    rw [map_first_entry (by rw [hn']; decide) (by rw [hd', hd]; exact hx), hd', hd]
  have heq : contents (fsCreate (mount img.disk) nameB (fun _ => 1) 1).1.disk (img.dir 0) =
      contents img.disk (img.dir 0) := by
    rw [hM, hold] at hsame
    exact Option.some.inj (hnew.symm.trans hsame)
  have hfirst : contents img.disk (img.dir 0) = data := by
    apply img.contents_dir (i := 0) _ hi
    intro f hf
    rw [List.mem_singleton.1 hf]
    exact h
  have hbyte := contents_getD (fsCreate (mount img.disk) nameB (fun _ => 1) 1).1.disk hpos
  rw [heq, hfirst, hz, hb] at hbyte
  cases hbyte

end Overwritten

theorem largeFile_not_refines :
    largeFileImage.NamesOk ∧ ∃ ops, ¬ ∃ M,
      FileMap.Run M ops (Op.run (mount largeFileImage.disk) ops).2
          (Op.run (mount largeFileImage.disk) ops).1.map ∧
        M = (mount largeFileImage.disk).map ∧
        ((∀ f ∈ largeFileImage.files, f.2.length < 2 ^ 32) → M = largeFileImage.map) := by
  refine ⟨MkfsImage.single_namesOk nameA _ (by decide),
    [.create ⟨nameB, by decide⟩ (fun _ => 1) 1], ?_⟩
  rintro ⟨M, hrun, hM, _⟩
  refine not_refines_single _ ?_ ?_ M hM hrun
  · rw [List.length_replicate]
    decide
  · rw [List.getD_eq_getElem?_getD, List.getElem?_replicate_of_lt (by decide)]
    rfl

end KernelHobby
