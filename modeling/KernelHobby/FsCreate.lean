import KernelHobby.FsNames

namespace KernelHobby
set_option autoImplicit true

/-- The name of an entry ends inside its array. -/
def Terminated (e : FsDirent) : Prop := ∃ k, e.name k = 0

/-- The string that an entry holds. -/
def entryName (e : FsDirent) : List UInt8 := (List.ofFn e.name).takeWhile (· ≠ 0)

theorem entryName_noNul (e : FsDirent) : 0 ∉ entryName e := by
  intro h
  simpa using List.all_eq_true.1 List.all_takeWhile 0 h

/-- The string of an entry as an argument. -/
def entryStr (e : FsDirent) : CStr := ⟨entryName e, entryName_noNul e⟩

theorem entryName_eq_take (e : FsDirent) :
    entryName e = (List.ofFn e.name).take ((List.ofFn e.name).findIdx (· = 0)) := by
  rw [entryName, List.takeWhile_eq_take_findIdx_not]
  simp

section Name
variable {e : FsDirent}

theorem Terminated.findIdx_lt (h : Terminated e) :
    (List.ofFn e.name).findIdx (· = 0) < NAMELEN := by
  obtain ⟨k, hk⟩ := h
  have hx : ∃ x ∈ List.ofFn e.name, decide (x = 0) = true :=
    ⟨e.name k, List.mem_ofFn.2 ⟨k, rfl⟩, by simpa using hk⟩
  simpa using List.findIdx_lt_length_of_exists hx

theorem Terminated.length_entryName (h : Terminated e) :
    (entryName e).length = (List.ofFn e.name).findIdx (· = 0) := by
  have hlt := h.findIdx_lt
  rw [entryName_eq_take, List.length_take, List.length_ofFn]
  omega

theorem Terminated.length_lt (h : Terminated e) : (entryName e).length < NAMELEN := by
  rw [h.length_entryName]
  exact h.findIdx_lt

theorem Terminated.named (h : Terminated e) : Named e (entryName e) := by
  intro k hk hl
  rcases Nat.lt_or_eq_of_le hl with hlt | heq
  · rw [List.getD_eq_getElem _ _ hlt]
    simp only [entryName_eq_take, List.getElem_take, List.getElem_ofFn]
  · have hlen : (List.ofFn e.name).findIdx (fun x => decide (x = 0)) < (List.ofFn e.name).length := by
      simpa using h.findIdx_lt
    have hf := List.findIdx_getElem (w := hlen)
    simp only [List.getElem_ofFn, decide_eq_true_eq] at hf
    rw [List.getD_eq_default _ _ (by omega)]
    simp only [heq, h.length_entryName]
    exact hf

/-- A comparison with a terminated name is a comparison of strings, however long the argument
is. -/
theorem streq_entryName (h : Terminated (dir i)) (name : CStr) :
    streq (dirName dir i) name.bytes = true ↔ entryName (dir i) = name.bytes := by
  have hl := h.length_lt
  constructor
  · intro hs
    have hk := (streq_iff name.noNul).1 hs
    have hle : name.bytes.length ≤ (entryName (dir i)).length := by
      by_contra hlt
      have h₁ := hk (entryName (dir i)).length (by omega)
      rw [dirName_eq dir i hl, h.named _ hl (Nat.le_refl _),
        List.getD_eq_default _ _ (Nat.le_refl _), List.getD_eq_getElem _ _ (by omega)] at h₁
      exact name.noNul (h₁ ▸ List.getElem_mem _)
    have hn := (streq_dirName name (by omega)).1 hs
    exact congrArg CStr.bytes (Named.unique (a := entryStr (dir i)) h.named hn hl (by omega))
  · intro he
    rw [streq_dirName name (by rw [← he]; exact hl), ← he]
    exact h.named

end Name

theorem terminated_newEntry (s : Fs) (name : CStr) (size : Int32) (start : Nat) :
    Terminated (newEntry s name size start) := by
  have hlt : Nat.min name.bytes.length (NAMELEN - 1) < NAMELEN :=
    Nat.lt_of_le_of_lt (Nat.min_le_right _ _) (by decide)
  refine ⟨⟨_, hlt⟩, ?_⟩
  show copyName name _ _ = 0
  simp [copyName]

/-- Every listed name ends inside its array. -/
def AllTerminated (m : FsMem) : Prop := ∀ i, i < m.nfiles.toNat → Terminated (m.dir i)

section Listed
variable {s : Fs} {name : CStr}

theorem addEntry_terminated (ht : AllTerminated s.mem) (h₀ : 0 ≤ s.nfiles)
    (hc : CreateOk s name size start nb) :
    AllTerminated (addEntry s name size ((size + 512 - 1) / 512) start).mem := by
  obtain ⟨hd, hn, _⟩ := addEntry_mem_eq hc
  rw [AllTerminated, hd, hn]
  intro i hi
  by_cases he : i = s.nfiles.toNat
  · subst he
    rw [Function.update_self]
    exact terminated_newEntry s name size start
  · rw [Function.update_of_ne he]
    exact ht i (show i < s.nfiles.toNat by omega)

theorem removeEntry_terminated (ht : AllTerminated s.mem) (hi : idx < s.nfiles.toNat) :
    AllTerminated (removeEntry s idx).mem := by
  have hnt : (removeEntry s idx).mem.nfiles.toNat = s.nfiles.toNat - 1 := by
    show (s.nfiles - 1).toNat = _
    omega
  rw [AllTerminated, hnt]
  intro j hj
  show Terminated ((removeEntry s idx).dir j)
  have hle := (shifted_spec idx j).2
  rw [removeEntry_dir hi (by omega)]
  exact ht _ (show _ < s.nfiles.toNat by omega)

theorem MkfsImage.allTerminated (img : MkfsImage) : AllTerminated img.mem := by
  intro i hi
  have hi' : i < img.files.length := by simpa [mem] using hi
  have hname : (img.dir i).name = mkfsName (img.files[i]).1 := mkfsEntries_name hi'
  refine ⟨⟨NAMELEN - 1, by decide⟩, ?_⟩
  show (img.dir i).name _ = 0
  rw [hname]
  simp [mkfsName]

theorem Reachable.allTerminated (h : Reachable img s) : AllTerminated s.mem := by
  induction h with
  | mkfs =>
    rw [img.mount_spec.2.2.1]
    exact img.allTerminated
  | call c h ih =>
    rcases c.exec_inv h.wf with
      he | ⟨_, ⟨name, data, size, start, nb, _, hc, he⟩ | ⟨name, idx, _, hf, he⟩⟩
    · rw [he]
      exact ih
    · rw [he.mem]
      exact addEntry_terminated ih h.wf.mem.nfiles_nonneg hc
    · rw [he.mem]
      exact removeEntry_terminated ih (findName_lt hf)
  | remount h ih =>
    rw [(h.wf.disk.mount h.wf.mem).2.2.2.1]
    exact ih

theorem findName_none_iff (ht : AllTerminated s.mem) :
    findName s name = none ↔ ∀ i, i < s.nfiles.toNat → entryName (s.dir i) ≠ name.bytes := by
  rw [findName, List.find?_eq_none]
  simp only [List.mem_range]
  apply forall_congr'
  intro i
  apply imp_congr_right
  intro hi
  exact not_congr (streq_entryName (ht i hi) name)

end Listed

/-- The invariant of the mounted file system, as far as allocation and lookup need it. -/
structure FsInvariant (m : FsMem) : Prop where
  mem : MemOk m
  rep : Rep m
  terminated : AllTerminated m

theorem Reachable.invariant (hi : img.SizesOk) (h : Reachable img s) : FsInvariant s.mem :=
  ⟨h.wf.mem, h.rep hi, h.allTerminated⟩

/-- `nb` consecutive data blocks from `st` on that belong to no listed file. -/
def FreeRun (s : Fs) (st nb : Nat) : Prop :=
  DATASTART ≤ st ∧ st + nb ≤ min s.totalBlocks.toNat MAXBLK ∧
    ∀ k, k < nb → ∀ i, i < s.nfiles.toNat → ¬ extent (s.dir i) (st + k)

theorem FreeRun.unused (h : FreeRun s st nb) (hr : Rep s.mem) (hk : k < nb) :
    s.used (st + k) = false := by
  obtain ⟨hge, hle, hx⟩ := h
  have hlt : st + k < MAXBLK := by omega
  rw [Bool.eq_false_iff]
  intro hu
  rcases (hr.used _ hlt).1 hu with hmeta | ⟨i, hi, he⟩
  · simp only [metaBlock, DIRBLOCK, LOGHDR, LOGSTART, LOGN, DATASTART] at hmeta hge
    omega
  · exact hx k hk i hi he

theorem freeRun_of_unused (hr : Rep s.mem) (hge : DATASTART ≤ st)
    (hle : st + nb ≤ min s.totalBlocks.toNat MAXBLK)
    (hu : ∀ k, k < nb → s.used (st + k) = false) : FreeRun s st nb := by
  refine ⟨hge, hle, ?_⟩
  intro k hk i hi hx
  have ht : s.used (st + k) = true :=
    (hr.used _ (show st + k < MAXBLK by omega)).2 (.inr ⟨i, hi, hx⟩)
  rw [hu k hk] at ht
  cases ht

/-- The scan does not pass a free run. -/
theorem ballocScan_complete {nblocks : Int32} (hn : 0 < nblocks.toInt) (hb : b.toNat ≤ st)
    (hle : st + nblocks.toInt.toNat ≤ min s.totalBlocks.toNat MAXBLK)
    (hu : ∀ k, k < nblocks.toInt.toNat → s.used (st + k) = false)
    (hfuel : st < b.toNat + fuel) :
    ∃ r : Nat, ballocScan s nblocks fuel b = r ∧ r ≤ st := by
  induction fuel generalizing b with
  | zero => omega
  | succ fuel ih =>
    have hblk : b.toNat ≤ MAXBLK + 1 := by omega
    have he := add_nblocks hn hblk
    simp only [ballocScan, UInt32.le_iff_toNat_le, he]
    rw [if_pos (by omega)]
    split
    · exact ⟨b.toNat, rfl, hb⟩
    · rename_i hall
      -- the run at `st` itself passes the test
      have hne : b.toNat ≠ st := by
        intro heq
        apply hall
        rw [List.all_eq_true]
        intro k hk
        rw [heq, hu k (List.mem_range.1 hk)]
        rfl
      have hs := next_block hblk
      exact ih (b := b + 1) (by omega) (by omega)

/-- What `fs_create` asks of a name and a size. -/
structure CanCreate (s : Fs) (name : CStr) (size : Int32) : Prop where
  nonneg : 0 ≤ size.toInt
  room : s.nfiles < MAXFILES
  absent : ∀ i, i < s.nfiles.toNat → entryName (s.dir i) ≠ name.bytes
  fits : (size.toInt.toNat + 511) / 512 + 2 ≤ LOGN
  space : 0 < size.toInt → ∃ st, FreeRun s st ((size.toInt.toNat + 511) / 512)

section Exact
variable {s : Fs} {name : CStr} {size : Int32}

theorem CanCreate.nblocks (h : CanCreate s name size) :
    ((size + 512 - 1) / 512).toInt = ((size.toInt.toNat + 511) / 512 : Nat) := by
  have hf := h.fits
  have h₀ := h.nonneg
  simp only [LOGN] at hf
  rw [int32_round_up size h₀, if_pos (by omega)]
  omega

/-- A free run makes the allocator succeed, no further than that run. -/
theorem CanCreate.chosen_le (h : CanCreate s name size) (hr : Rep s.mem) (hp : 0 < size.toInt)
    (hrun : FreeRun s st ((size.toInt.toNat + 511) / 512)) :
    ∃ r : Nat, ballocContig s ((size + 512 - 1) / 512) = r ∧ r ≤ st := by
  have hn := h.nblocks
  have hmax : MAXBLK = 8192 := rfl
  have hdata : DATASTART = 19 := rfl
  have hd : (UInt32.ofNat DATASTART).toNat = DATASTART := rfl
  have hnz : (size + 512 - 1) / 512 ≠ 0 := by
    intro hz
    rw [hz] at hn
    have h₀ : (0 : Int32).toInt = 0 := rfl
    omega
  have hge := hrun.1
  have hle := hrun.2.1
  rw [ballocContig, if_neg hnz]
  apply ballocScan_complete
  · omega
  · rw [hd]
    exact hge
  · rw [hn, Int.toNat_natCast]
    exact hle
  · rw [hn, Int.toNat_natCast]
    intro k hk
    exact hrun.unused hr hk
  · omega

theorem CanCreate.chosen (h : CanCreate s name size) (hr : Rep s.mem) :
    ¬ ballocContig s ((size + 512 - 1) / 512) < 0 := by
  by_cases hp : 0 < size.toInt
  · obtain ⟨st, hrun⟩ := h.space hp
    obtain ⟨r, he, _⟩ := h.chosen_le hr hp hrun
    omega
  · have hz : (size + 512 - 1) / 512 = 0 := by
      apply Int32.toInt_inj.1
      have h₀ := h.nonneg
      have h₁ : (0 : Int32).toInt = 0 := rfl
      rw [h.nblocks]
      omega
    rw [hz, ballocContig, if_pos rfl]
    omega

theorem fsCreate_ok (h : CanCreate s name size) (hi : FsInvariant s.mem) (data : Nat → UInt8) :
    (fsCreate s name data size).2 = 0 := by
  have hm : s.mounted = true := hi.mem.mounted
  have hroom := h.room
  have hneg := not_neg h.nonneg
  have habs : findName s name = none := (findName_none_iff hi.terminated).2 h.absent
  have hlog := log_room h.nblocks h.fits
  rw [fsCreate, if_neg (by simp [hm, hneg]; omega), if_neg (by simp [habs])]
  dsimp only
  rw [if_neg hlog, if_neg (h.chosen hi.rep)]

theorem CreateOk.freeRun (hc : CreateOk s name size start nb) (hr : Rep s.mem) (hp : nb ≠ 0) :
    FreeRun s start nb := by
  have ht := hc.total hp
  have hle := hc.start_le
  exact freeRun_of_unused hr hc.start_ge (by omega) hc.free

theorem CreateOk.canCreate (hc : CreateOk s name size start nb) (hi : FsInvariant s.mem) :
    CanCreate s name size where
  nonneg := hc.nonneg
  room := hc.room
  absent := (findName_none_iff hi.terminated).1 hc.absent
  fits := by
    rw [← hc.blocks]
    exact hc.fits
  space := by
    intro hp
    have hb := hc.blocks
    have hnb : nb ≠ 0 := by omega
    exact ⟨start, hb ▸ hc.freeRun hi.rep hnb⟩

end Exact

/-- The log functions keep the tables, whatever the disk answers. -/
theorem virtioDiskRw_mem (s : Fs) (b : Nat) (w : Bool) : (virtioDiskRw s b w).1.mem = s.mem := by
  rw [virtioDiskRw]
  split
  · rfl
  · split <;> rfl

theorem writeLoghdr_mem (s : Fs) (c n : UInt32) (blks : Nat → UInt32) :
    (writeLoghdr s c n blks).mem = s.mem := virtioDiskRw_mem _ _ _

theorem logInstall_mem (blks : Nat → UInt32) (n : Nat) (s : Fs) :
    (logInstall blks n s).mem = s.mem := by
  induction n with
  | zero => rfl
  | succ n ih =>
    rw [logInstall, virtioDiskRw_mem, virtioDiskRw_mem, ih]

theorem logCommit_mem (s : Fs) : (logCommit s).mem = s.mem := by
  rw [logCommit]
  split
  · rfl
  · split
    · rfl
    · show (writeLoghdr _ _ _ _).mem = _
      rw [writeLoghdr_mem, logInstall_mem, writeLoghdr_mem]

theorem logData_mem (data : Nat → UInt8) (size : Int32) (start : Int) (nb : Nat) (s : Fs) :
    (logData data size start nb s).mem = s.mem := by
  induction nb with
  | zero => rfl
  | succ b ih =>
    rw [logData, (logWrite_mem _ _ _).1, ih]

/-- The tables after a file is created. -/
theorem fsCreate_mem (data : Nat → UInt8) (start nb : Nat)
    (he : fsCreate s name data size =
      (logCommit (logSuper (logDir (addEntry (logData data size start nb (logBegin s)) name size
        ((size + 512 - 1) / 512) start))), 0)) :
    (fsCreate s name data size).1.mem =
      (addEntry s name size ((size + 512 - 1) / 512) start).mem := by
  rw [he]
  dsimp only
  rw [logCommit_mem, logSuper, (logWrite_mem _ _ _).1, logDir, (logWrite_mem _ _ _).1]
  apply addEntry_mem
  rw [logData_mem]
  rfl

/-- `fs_create` succeeds exactly when it can, in the lowest free run, and changes nothing
otherwise. -/
theorem fsCreate_exact (hi : FsInvariant s.mem) (name : CStr) (data : Nat → UInt8)
    (size : Int32) :
    let nb := (size.toInt.toNat + 511) / 512
    let s' := (fsCreate s name data size).1
    ((fsCreate s name data size).2 = 0 ↔ CanCreate s name size) ∧
      (CanCreate s name size →
        s'.nfiles = s.nfiles + 1 ∧ (s'.dir s.nfiles.toNat).size.toNat = size.toInt.toNat ∧
        (0 < size.toInt → FreeRun s (s'.dir s.nfiles.toNat).start.toNat nb ∧
          ∀ st, FreeRun s st nb → (s'.dir s.nfiles.toNat).start.toNat ≤ st)) ∧
      (¬ CanCreate s name size → fsCreate s name data size = (s, -1)) := by
  dsimp only
  have hneg : (-1 : Int) ≠ 0 := by decide
  rcases fsCreate_cases s name data size with he | ⟨start, nb, hc, he⟩
  · have hno : ¬ CanCreate s name size := by
      intro h
      have hok := fsCreate_ok h hi data
      rw [he] at hok
      exact hneg hok
    rw [he]
    exact ⟨⟨fun h => absurd h hneg, fun h => absurd h hno⟩, fun h => absurd h hno, fun _ => rfl⟩
  · have hcan := hc.canCreate hi
    have hmem := fsCreate_mem data start nb he
    obtain ⟨hd, hn, _⟩ := addEntry_mem_eq hc
    have hdir : ((fsCreate s name data size).1.dir s.nfiles.toNat) =
        newEntry s name size start := by
      have hh : (fsCreate s name data size).1.dir = _ := (congrArg FsMem.dir hmem).trans hd
      rw [hh, Function.update_self]
    have hstart : (newEntry s name size start).start.toNat = start := hc.start_toNat
    refine ⟨⟨fun _ => hcan, fun _ => by rw [he]⟩, fun _ => ⟨?_, ?_, ?_⟩, fun h => absurd hcan h⟩
    · exact (congrArg FsMem.nfiles hmem).trans hn
    · rw [hdir]
      exact hc.size_toNat
    · intro hp
      have hb := hc.blocks
      rw [hdir, hstart]
      refine ⟨hb ▸ hc.freeRun hi.rep (by omega), ?_⟩
      intro st hrun
      obtain ⟨r, hr, hle⟩ := hcan.chosen_le hi.rep hp hrun
      have hch := hc.chosen
      omega

theorem emptyFileImage_sizesOk : emptyFileImage.SizesOk := by
  intro i hi _
  have hf : emptyFileImage.files = [(nameA, [])] := rfl
  rw [hf] at hi ⊢
  have h₀ : i = 0 := Nat.lt_one_iff.1 hi
  subst h₀
  decide

theorem fsCreate_exact_emptyFile :
    let s := mount emptyFileImage.disk
    let s' := (fsCreate s nameB (fun _ => 7) 600).1
    FsInvariant s.mem ∧
      ((fsCreate s nameB (fun _ => 7) 600).2 = 0 ↔ CanCreate s nameB 600) ∧
      (CanCreate s nameB 600 →
        s'.nfiles = s.nfiles + 1 ∧ (s'.dir s.nfiles.toNat).size.toNat = 600 ∧
        ((0 : Int) < 600 → FreeRun s (s'.dir s.nfiles.toNat).start.toNat 2 ∧
          ∀ st, FreeRun s st 2 → (s'.dir s.nfiles.toNat).start.toNat ≤ st)) ∧
      (¬ CanCreate s nameB 600 → fsCreate s nameB (fun _ => 7) 600 = (s, -1)) := by
  have hi : FsInvariant (mount emptyFileImage.disk).mem :=
    Reachable.invariant emptyFileImage_sizesOk .mkfs
  exact ⟨hi, fsCreate_exact hi nameB (fun _ => 7) 600⟩

end KernelHobby
