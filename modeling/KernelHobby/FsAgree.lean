import KernelHobby.FsRefine

namespace KernelHobby
set_option autoImplicit true

/-- A piece of what `fs_ls` prints. -/
inductive LsOut where
  | text (s : String)
  | name (bytes : List UInt8)
  | dec (n : Nat)
  deriving DecidableEq

/-- The bytes up to the NUL, at most `n`. -/
def cstrBytes : Nat → (Nat → UInt8) → List UInt8
  | 0, _ => []
  | n + 1, a => if a 0 = 0 then [] else a 0 :: cstrBytes n fun k => a (k + 1)

def lsLine (name : List UInt8) (size : Nat) : List LsOut :=
  [.text "  ", .name name, .text "  (", .dec size, .text " bytes)\n"]

/-- `fs_ls`; a name ends before the end of `dir[]`. -/
def fsLs (s : Fs) : List LsOut :=
  if !s.mounted then [.text "ls: no filesystem\n"]
  else
    (List.range s.nfiles.toNat).flatMap fun i =>
      lsLine (cstrBytes (64 * (MAXFILES - i)) (dirName s.dir i)) (s.dir i).size.toNat

theorem cstrBytes_eq {b : List UInt8} (hz : 0 ∉ b) (hn : b.length < n)
    (ha : ∀ k, k ≤ b.length → a k = b.getD k 0) : cstrBytes n a = b := by
  induction b generalizing n a with
  | nil =>
    obtain ⟨m, rfl⟩ := Nat.exists_eq_succ_of_ne_zero (Nat.ne_of_gt hn)
    have h₀ : a 0 = 0 := ha 0 (Nat.le_refl 0)
    rw [cstrBytes, if_pos h₀]
  | cons c b ih =>
    obtain ⟨m, rfl⟩ := Nat.exists_eq_succ_of_ne_zero (Nat.ne_of_gt (Nat.zero_lt_of_lt hn))
    obtain ⟨hc, hb⟩ := not_or.1 (List.mem_cons.not.1 hz)
    have h₀ : a 0 = c := ha 0 (Nat.zero_le _)
    rw [cstrBytes, h₀, if_neg (Ne.symm hc), ih hb (Nat.lt_of_succ_lt_succ hn)]
    intro k hk
    exact ha (k + 1) (Nat.succ_le_succ hk)

/-- Mounting without a committed log prints no word of a recovery. -/
theorem mount_uart (hl : fsJournal.pending (d LOGHDR) = none)
    (hm : (FsSuperblock.ofBlock (d 0)).magic = FS_MAGIC) : recovered ∉ (mount d).uart := by
  have hc : (FsLoghdr.ofBlock (d LOGHDR)).committed = 0 := by
    by_contra h
    have hp : pendingOf (d LOGHDR) = none := hl
    simp only [pendingOf, h, ↓reduceIte] at hp
    cases hp
  have hf : (Fs.boot d).faults = [] := rfl
  rw [mount, fsInit, virtioDiskRw_read hf]
  have hm' : (FsSuperblock.ofBlock ((Fs.boot d).disk 0)).magic = FS_MAGIC := hm
  simp only [ne_eq, not_true_eq_false, ↓reduceIte, hm']
  rw [recover, virtioDiskRw_read rfl]
  have hc' : (FsLoghdr.ofBlock ((Fs.boot d).disk LOGHDR)).committed = 0 := hc
  simp only [hc', ↓reduceIte]
  rw [loadTables_spec rfl rfl]
  simp only [Fs.puts, Fs.dec, Fs.boot, recovered]
  simp

/-- Input files that the format is made for. -/
structure Formattable (files : List HostFile) : Prop where
  some : files ≠ []
  count : files.length ≤ MAXFILES
  distinct : (files.map fun f => baseName f.1).Nodup
  short : ∀ f ∈ files, (baseName f.1).length < NAMELEN
  small : (files.map fun f => f.2.length).sum < 2 ^ 31

theorem filesBlocks_le (files : List HostFile) :
    filesBlocks files ≤ (files.map fun f => f.2.length).sum + files.length := by
  induction files with
  | nil => exact Nat.le_refl 0
  | cons f fs ih =>
    rw [filesBlocks] at ih ⊢
    simp only [List.map_cons, List.sum_cons, List.length_cons]
    omega

theorem Formattable.numbered (h : Formattable files) : DATASTART + filesBlocks files < 2 ^ 32 := by
  have hle := filesBlocks_le files
  have hc : files.length ≤ 8 := h.count
  have hs := h.small
  simp only [DATASTART, LOGSTART, LOGN]
  omega

theorem Formattable.size (h : Formattable files) (hf : f ∈ files) : f.2.length < 2 ^ 31 := by
  have hle : f.2.length ≤ (files.map fun f => f.2.length).sum :=
    List.single_le_sum (fun _ _ => Nat.zero_le _) _ (List.mem_map_of_mem hf)
  exact Nat.lt_of_le_of_lt hle h.small

/-- The image that `mkfs` writes for them. -/
def Formattable.image (h : Formattable files) : MkfsImage :=
  .ofFiles files ⟨h.some, h.count⟩ h.numbered

theorem range_flatMap {l : List α} {g : Nat → List β} {f : α → List β}
    (h : ∀ i, (hi : i < l.length) → g i = f l[i]) :
    (List.range l.length).flatMap g = l.flatMap f := by
  rw [List.flatMap_def, List.flatMap_def]
  congr 1
  apply List.ext_getElem
  · rw [List.length_map, List.length_map, List.length_range]
  · intro i h₁ h₂
    rw [List.length_map] at h₂
    rw [List.getElem_map, List.getElem_map, List.getElem_range, h i h₂]

namespace MkfsImage

/-- The image has the blocks that its superblock states. -/
theorem blocks_length (img : MkfsImage) (h : ∀ f ∈ img.files, f.2.length < 2 ^ 32) :
    img.blocks.length = img.total.toNat := by
  have hw := img.written
  rw [mkfs] at hw
  split at hw
  · cases hw
  rw [Option.some.injEq] at hw
  have hcur : img.cur.toNat = DATASTART + filesBlocks img.files := mkfsCur_toNat img.numbered
  have hle : img.cur.toNat ≤ img.total.toNat := by
    rw [total]
    split
    · exact Nat.le_refl _
    · rename_i hlt
      exact UInt32.le_iff_toNat_le.1 (UInt32.not_lt.1 hlt)
  have hpad : img.blocks.length = DATASTART + filesBlocks img.files +
      (img.total.toNat - img.cur.toNat) := by
    rw [← hw]
    simp only [List.length_append, List.length_replicate, List.length_cons, List.length_nil,
      flatMap_length _ h]
    rfl
  omega

theorem total_blocks (img : MkfsImage) :
    (FsSuperblock.ofBlock (img.disk 0)).totalBlocks = img.total := by
  obtain ⟨_, rest, hb⟩ := img.blocks_eq
  have h0 : img.disk 0 =
      (FsSuperblock.mk FS_MAGIC (UInt32.ofNat img.files.length) img.cur img.total).toBlock := by
    rw [disk, diskOf, hb]
    rfl
  rw [h0, FsSuperblock.ofBlock_toBlock]

theorem mount_dir (img : MkfsImage) : (mount img.disk).dir = img.dir :=
  congrArg FsMem.dir img.mount_spec.2.2.1

theorem mount_nfiles (img : MkfsImage) : (mount img.disk).nfiles.toNat = img.files.length := by
  have h : (mount img.disk).nfiles = img.files.length := congrArg FsMem.nfiles img.mount_spec.2.2.1
  rw [h, Int.toNat_natCast]

theorem size_file (img : MkfsImage) (hi : i < img.files.length)
    (hs : (img.files[i]).2.length < 2 ^ 32) :
    (img.dir i).size.toNat = (img.files[i]).2.length := by
  rw [img.dir_size hi, List.getD_eq_getElem?_getD, List.getElem?_map, List.getElem?_eq_getElem hi,
    Option.map_some, Option.getD_some]
  exact Nat.mod_eq_of_lt hs

/-- The listing shows the files of the command line in their order. -/
theorem ls_mount (img : MkfsImage) (hn : img.NamesOk)
    (h : ∀ f ∈ img.files, f.2.length < 2 ^ 32) :
    fsLs (mount img.disk) = img.files.flatMap fun f => lsLine (baseName f.1) f.2.length := by
  have hmt : (mount img.disk).mounted = true := img.wf.mem.mounted
  rw [fsLs, hmt, img.mount_dir, img.mount_nfiles]
  refine range_flatMap fun i hi => ?_
  have hf := List.getElem_mem hi
  have hlen : (baseName (img.files[i]).1).length < NAMELEN := hn.2 _ hf
  have hname : cstrBytes (64 * (MAXFILES - i)) (dirName img.dir i) =
      baseName (img.files[i]).1 := by
    apply cstrBytes_eq (baseName_noNul _)
    · have hc : img.files.length ≤ 8 := img.blocks_eq.1
      have hl : (baseName (img.files[i]).1).length < 56 := hlen
      have hm : MAXFILES = 8 := rfl
      omega
    · intro k hk
      rw [dirName_eq _ _ (Nat.lt_of_le_of_lt hk hlen)]
      exact img.named_dir hn hi k _ hk
  rw [hname, img.size_file hi (h _ hf)]

/-- Each file is found under its base name. -/
theorem findName_base (img : MkfsImage) (hn : img.NamesOk) (hi : i < img.files.length) :
    findName (mount img.disk) (baseStr (img.files[i]).1) = some i := by
  have hnames : KernelHobby.NamesOk (mount img.disk).mem := by
    rw [img.mount_spec.2.2.1]
    exact img.mem_namesOk hn
  rw [findName_some hnames (hn.2 _ (List.getElem_mem hi)), img.mount_nfiles, img.mount_dir]
  exact ⟨hi, img.named_dir hn hi⟩

theorem read_mount (img : MkfsImage) (hn : img.NamesOk) (h : ∀ f ∈ img.files, f.2.length < 2 ^ 32)
    (hf : f ∈ img.files) (buf : Nat → UInt8) (hm : (f.2.length : Int) ≤ limit.toInt) :
    (fsRead (mount img.disk) (baseStr f.1) buf limit).2.2 = f.2.length ∧
      ∀ j, j < f.2.length →
        (fsRead (mount img.disk) (baseStr f.1) buf limit).2.1 j = f.2.getD j 0 := by
  obtain ⟨i, hi, rfl⟩ := List.getElem_of_mem hf
  have hsize : ((mount img.disk).dir i).size.toNat = (img.files[i]).2.length := by
    rw [img.mount_dir, img.size_file hi (h _ hf)]
  obtain ⟨hret, hbytes⟩ := fsRead_found buf img.wf (img.findName_base hn hi)
    (by rw [hsize]; exact hm)
  refine ⟨by rw [hret, hsize], fun j hj => ?_⟩
  rw [hbytes, hsize, if_pos hj, ← contents_getD _ (by rw [hsize]; exact hj), img.mount_spec.1,
    img.mount_dir, img.contents_dir h hi]

end MkfsImage

/-- The kernel finds on an image what `mkfs` put there. -/
structure Agrees (files : List HostFile) (img : List Block) (s : Fs) : Prop where
  mounted : s.mounted = true
  no_replay : s.trace = [] ∧ recovered ∉ s.uart
  listed : fsLs s = files.flatMap fun f => lsLine (baseName f.1) f.2.length
  read : ∀ f ∈ files, ∀ (buf : Nat → UInt8) (limit : Int32), (f.2.length : Int) ≤ limit.toInt →
    (fsRead s (baseStr f.1) buf limit).2.2 = f.2.length ∧
      ∀ j, j < f.2.length → (fsRead s (baseStr f.1) buf limit).2.1 j = f.2.getD j 0
  disjoint : ∀ i j b, i < s.nfiles.toNat → j < s.nfiles.toNat → i ≠ j →
    extent (s.dir i) b → ¬ extent (s.dir j) b
  above_log : ∀ i, i < s.nfiles.toNat → LOGSTART + LOGN ≤ (s.dir i).start.toNat
  total : img.length = (FsSuperblock.ofBlock (diskOf img 0)).totalBlocks.toNat

/-- `mkfs` and the kernel agree on the format. -/
theorem mkfs_mount_agrees (files : List HostFile) (h : Formattable files) :
    ∃ img, mkfs files = some img ∧ Agrees files img (mount (diskOf img)) := by
  have hnames : h.image.NamesOk := ⟨h.distinct, h.short⟩
  have hsizes : ∀ f ∈ h.image.files, f.2.length < 2 ^ 32 := fun f hf =>
    Nat.lt_trans (h.size hf) (by decide)
  obtain ⟨_, htrace, _⟩ := h.image.onDisk.mount h.image.memOk
  have hdir : (mount (diskOf h.image.blocks)).dir = h.image.dir := h.image.mount_dir
  have hcount : (mount (diskOf h.image.blocks)).nfiles.toNat = files.length :=
    h.image.mount_nfiles
  refine ⟨h.image.blocks, h.image.written, ?_⟩
  constructor
  · exact h.image.wf.mem.mounted
  · exact ⟨htrace, mount_uart h.image.onDisk.log h.image.onDisk.magic⟩
  · exact h.image.ls_mount hnames hsizes
  · intro f hf buf limit hm
    exact h.image.read_mount hnames hsizes hf buf hm
  · intro i j b hi hj hij hx
    rw [hcount] at hi hj
    rw [hdir] at hx ⊢
    exact h.image.disjoint hi hj hij hx
  · intro i hi
    rw [hcount] at hi
    rw [hdir, h.image.dir_start hi]
    exact Nat.le_add_right _ _
  · have ht := h.image.total_blocks
    rw [MkfsImage.disk] at ht
    rw [ht, h.image.blocks_length hsizes]


/-- A small file and an empty one. -/
theorem mkfs_mount_agrees_two : Formattable [(nameA, [1, 2, 3]), (nameB, [])] ∧
    ∃ img, mkfs [(nameA, [1, 2, 3]), (nameB, [])] = some img ∧
      Agrees [(nameA, [1, 2, 3]), (nameB, [])] img (mount (diskOf img)) := by
  have h : Formattable [(nameA, [1, 2, 3]), (nameB, [])] := by
    constructor <;> decide
  exact ⟨h, mkfs_mount_agrees _ h⟩

end KernelHobby
