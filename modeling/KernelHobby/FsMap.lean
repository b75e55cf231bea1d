import KernelHobby.FsRead

namespace KernelHobby
set_option autoImplicit true

/-- A name that fits into a directory entry. -/
abbrev FileName := { n : CStr // n.bytes.length < NAMELEN }

/-- The operations of the file system, as a program sees them. -/
inductive Op where
  | create (name : FileName) (data : Nat → UInt8) (size : Int32)
  | delete (name : FileName)
  | read (name : FileName) (buf : Nat → UInt8) (max : Int32)
  | stat (name : FileName)
  | remount

inductive Outcome where
  | code (r : Int)
  | read (buf : Nat → UInt8) (r : Int)
  | stat (r : Option (UInt32 × UInt32))
  | done

def Op.exec (s : Fs) : Op → Fs × Outcome
  | .create name data size =>
    let (s, r) := fsCreate s name data size
    (s, .code r)
  | .delete name =>
    let (s, r) := fsDelete s name
    (s, .code r)
  | .read name buf max =>
    let (s, buf, r) := fsRead s name buf max
    (s, .read buf r)
  | .stat name => (s, .stat (fsStat s name))
  | .remount => (mount s.disk, .done)

def Op.run (s : Fs) : List Op → Fs × List Outcome
  | [] => (s, [])
  | op :: ops =>
    let (s, out) := op.exec s
    let (s, outs) := run s ops
    (s, out :: outs)

/-- A finite map from names to contents. -/
abbrev FileMap := FileName → Option (List UInt8)

/-- The first `size` bytes of `data`. -/
def bytesOf (data : Nat → UInt8) (size : Nat) : List UInt8 := (List.range size).map data

/-- What an operation may answer on a finite map, and the map afterwards. -/
inductive FileMap.Step (M : FileMap) : Op → Outcome → FileMap → Prop where
  | refused : Step M (.create name data size) (.code (-1)) M
  | created : M name = none → 0 ≤ size.toInt →
      Step M (.create name data size) (.code 0)
        (Function.update M name (some (bytesOf data size.toInt.toNat)))
  | absent : M name = none → Step M (.delete name) (.code (-1)) M
  | deleted : M name ≠ none → Step M (.delete name) (.code 0) (Function.update M name none)
  | notFound : M name = none → Step M (.read name buf limit) (.read buf (-1)) M
  | found (bytes : List UInt8) : M name = some bytes →
      ((bytes.length : Int) ≤ limit.toInt → r = (bytes.length : Int) ∧
        ∀ j, buf' j = if j < bytes.length then bytes.getD j 0 else buf j) →
      Step M (.read name buf limit) (.read buf' r) M
  | unknown : M name = none → Step M (.stat name) (.stat none) M
  | known (bytes : List UInt8) : M name = some bytes → size.toNat = bytes.length →
      Step M (.stat name) (.stat (some (start, size))) M
  | remounted : Step M .remount .done M

inductive FileMap.Run : FileMap → List Op → List Outcome → FileMap → Prop where
  | nil : Run M [] [] M
  | cons : Step M op out M' → Run M' ops outs M'' → Run M (op :: ops) (out :: outs) M''

/-- The map that a mounted file system stands for. -/
def Fs.map (s : Fs) : FileMap := fun name =>
  (findName s name).map fun i => contents s.disk (s.dir i)

structure FsGood (s : Fs) : Prop where
  wf : FsWf s
  rep : Rep s.mem
  names : NamesOk s.mem

section Map
variable {s s' : Fs} {name : FileName}

theorem map_eq_some (h : FsGood s) :
    s.map name = some bytes ↔ ∃ i, i < s.nfiles.toNat ∧ Named (s.dir i) name.1.bytes ∧
      contents s.disk (s.dir i) = bytes := by
  simp only [Fs.map, Option.map_eq_some_iff, findName_some h.names name.2, and_assoc]

theorem map_eq_none : s.map name = none ↔ findName s name = none := by
  rw [Fs.map, Option.map_eq_none_iff]

theorem Named.name_eq {a : FileName} (h : Named e a.1.bytes) (h' : Named e name.1.bytes) :
    a = name := Subtype.ext (h.unique h' a.2 name.2)

/-- The map of a state depends on its tables and on its data blocks only. -/
theorem map_congr (hm : MemOk s.mem) (hd : s'.dir = s.dir) (hn : s'.nfiles = s.nfiles)
    (hk : ∀ b, DATASTART ≤ b → s'.disk b = s.disk b) : s'.map = s.map := by
  funext name
  have hf : findName s' name = findName s name := by rw [findName, findName, hd, hn]
  rw [Fs.map, Fs.map, hf, hd]
  cases hi : findName s name with
  | none => rfl
  | some i =>
    have he : ExtentOk (s.dir i) := hm.extents i (findName_lt hi)
    rw [Option.map_some, Option.map_some]
    exact congrArg some (contents_congr he fun b hb => hk b (Nat.le_trans he.1 hb.1))

theorem FsGood.remount (h : FsGood s) : FsGood (mount s.disk) where
  wf := h.wf.remount
  rep := h.wf.rep_remount h.rep
  names := by
    rw [(h.wf.disk.mount h.wf.mem).2.2.2.1]
    exact h.names

theorem map_remount (h : FsGood s) : (mount s.disk).map = s.map := by
  obtain ⟨h₁, _, _, h₄, _⟩ := h.wf.disk.mount h.wf.mem
  apply map_congr h.wf.mem
  · exact congrArg FsMem.dir h₄
  · exact congrArg FsMem.nfiles h₄
  · intro b _
    rw [h₁]

end Map


section Data

theorem dataWrites_block (d : Nat → Block) (hb : b < nb) :
    applyWrites d (dataWrites data size start nb) (start + b) = dataBlock data size b := by
  induction nb with
  | zero => omega
  | succ n ih =>
    simp only [dataWrites, List.range_succ, List.map_append, List.map_cons, List.map_nil]
    rw [applyWrites_append]
    simp only [applyWrites]
    by_cases he : b = n
    · subst he
      rw [Function.update_self]
    · rw [Function.update_of_ne (by omega)]
      exact ih (by omega)

theorem dataWrites_other (d : Nat → Block) (hb : ¬ (start ≤ b ∧ b < start + nb)) :
    applyWrites d (dataWrites data size start nb) b = d b := by
  apply applyWrites_other
  intro w hw he
  simp only [dataWrites, List.mem_map, List.mem_range] at hw
  obtain ⟨k, hk, rfl⟩ := hw
  exact hb (by omega)

variable {s s' : Fs} {name : CStr} {size : Int32} {start nb : Nat}

/-- The contents of the new file are the bytes it was given. -/
theorem contents_created (h : CreateOk s name size start nb)
    (he : Effect s (dataWrites data size start nb) m s') :
    contents s'.disk (newEntry s name size start) = bytesOf data size.toInt.toNat := by
  have hsz : (newEntry s name size start).size.toNat = size.toInt.toNat := h.size_toNat
  have hx : ExtentOk (newEntry s name size start) := by
    have hle := h.start_le
    simp only [MAXBLK] at hle
    refine ⟨?_, ?_⟩
    · show DATASTART ≤ (UInt32.ofInt start).toNat
      rw [h.start_toNat]
      exact h.start_ge
    · show (UInt32.ofInt start).toNat + blocksOf size.toUInt32 ≤ _
      rw [h.start_toNat, h.blocksOf]
      omega
  rw [contents, hsz]
  apply List.map_congr_left
  intro j hj
  rw [List.mem_range] at hj
  have hb := h.blocks
  have hn : (newEntry s name size start).start.toNat = start := h.start_toNat
  have hk : j / BSIZE < nb := by
    simp only [BSIZE]
    omega
  have hbo : blocksOf (newEntry s name size start).size = nb := h.blocksOf
  have hge := h.start_ge
  rw [fileByte, hx.block (by rw [hbo]; exact hk), hn,
    he.disk_data (Nat.le_add_right_of_le hge), dataWrites_block _ hk, dataBlock,
    blockOf_byte _ (Nat.mod_lt _ (by decide))]
  have hj' : BSIZE * (j / BSIZE) + j % BSIZE = j := Nat.div_add_mod j BSIZE
  have hji : ((BSIZE * (j / BSIZE) + j % BSIZE : Nat) : Int) < size.toInt := by
    rw [hj']
    omega
  rw [if_pos (by exact_mod_cast hji), hj']

/-- No other file has a block in the extent of the new one. -/
theorem contents_kept (h : CreateOk s name size start nb) (hg : FsGood s)
    (he : Effect s (dataWrites data size start nb) m s') (hi : i < s.nfiles.toNat) :
    contents s'.disk (s.dir i) = contents s.disk (s.dir i) := by
  have hx : ExtentOk (s.dir i) := hg.wf.mem.extents i hi
  apply contents_congr hx
  intro b hb
  rw [he.disk_data (Nat.le_trans hx.1 hb.1), dataWrites_other _ (h.fresh hg.rep hi hb)]

theorem FsGood.create (hg : FsGood s) (h : CreateOk s name size start nb)
    (hn : name.bytes.length < NAMELEN) (he : Effect s (dataWrites data size start nb)
      (addEntry s name size ((size + 512 - 1) / 512) start).mem s') : FsGood s' where
  wf := he.wf (addEntry_memOk hg.wf.mem h)
  rep := by
    rw [he.mem]
    exact addEntry_rep hg.rep hg.wf.mem h
  names := by
    rw [he.mem]
    exact addEntry_namesOk hg.names hg.wf.mem h hn

theorem FsGood.delete (hg : FsGood s) (hi : idx < s.nfiles.toNat)
    (he : Effect s [] (removeEntry s idx).mem s') : FsGood s' where
  wf := he.wf (removeEntry_memOk hg.wf.mem hi)
  rep := by
    rw [he.mem]
    exact removeEntry_rep hg.rep hg.wf.mem hi
  names := by
    rw [he.mem]
    exact removeEntry_namesOk hg.names hi

/-- The entries of a directory from which `idx` is removed, and their files. -/
theorem entry_kept (hg : FsGood s) (hi : idx < s.nfiles.toNat)
    (he : Effect s [] (removeEntry s idx).mem s') (hj : j < s.nfiles.toNat - 1) :
    s'.dir j = s.dir (shifted idx j) ∧ shifted idx j < s.nfiles.toNat ∧
      contents s'.disk (s.dir (shifted idx j)) = contents s.disk (s.dir (shifted idx j)) := by
  have hdir : s'.dir = (removeEntry s idx).dir := congrArg FsMem.dir he.mem
  have hlt : shifted idx j < s.nfiles.toNat := by
    have h := (shifted_spec idx j).2
    omega
  have hxj : ExtentOk (s.dir (shifted idx j)) := hg.wf.mem.extents _ hlt
  refine ⟨by rw [hdir, removeEntry_dir hi (by omega)], hlt, contents_congr hxj ?_⟩
  intro b hb
  rw [he.disk_data (Nat.le_trans hxj.1 hb.1)]
  rfl

end Data

section Refinement
variable {s s' : Fs} {name : FileName}

theorem map_created (hg : FsGood s) (h : CreateOk s name size start nb)
    (he : Effect s (dataWrites data size start nb)
      (addEntry s name size ((size + 512 - 1) / 512) start).mem s') :
    s'.map = Function.update s.map name (some (bytesOf data size.toInt.toNat)) := by
  have hg' := hg.create h name.2 he
  obtain ⟨hd, hn, _⟩ := addEntry_mem_eq h
  have h₀ : 0 ≤ s.nfiles := hg.wf.mem.nfiles_nonneg
  have hdir : s'.dir = Function.update s.dir s.nfiles.toNat (newEntry s name size start) :=
    (congrArg FsMem.dir he.mem).trans hd
  have hnf : s'.nfiles = s.nfiles + 1 := (congrArg FsMem.nfiles he.mem).trans hn
  have hnt : s'.nfiles.toNat = s.nfiles.toNat + 1 := by omega
  have hnew := named_newEntry s name.1 size start name.2
  funext a
  by_cases ha : a = name
  · subst ha
    rw [Function.update_self, map_eq_some hg']
    refine ⟨s.nfiles.toNat, by omega, ?_, ?_⟩
    · rw [hdir, Function.update_self]
      exact hnew
    · rw [hdir, Function.update_self]
      exact contents_created h he
  · rw [Function.update_of_ne ha]
    apply Option.ext
    intro bytes
    rw [map_eq_some hg', map_eq_some hg, hnt, hdir]
    constructor
    · rintro ⟨i, hi, hx, hb⟩
      have hne : i ≠ s.nfiles.toNat := by
        rintro rfl
        rw [Function.update_self] at hx
        exact ha (hx.name_eq hnew)
      rw [Function.update_of_ne hne] at hx hb
      have hi' : i < s.nfiles.toNat := by omega
      exact ⟨i, hi', hx, (contents_kept h hg he hi').symm.trans hb⟩
    · rintro ⟨i, hi, hx, hb⟩
      refine ⟨i, by omega, ?_⟩
      rw [Function.update_of_ne (by omega), contents_kept h hg he hi]
      exact ⟨hx, hb⟩

theorem map_deleted (hg : FsGood s) (hf : findName s name = some idx)
    (he : Effect s [] (removeEntry s idx).mem s') :
    s'.map = Function.update s.map name none := by
  obtain ⟨hi, hx⟩ := (findName_some hg.names name.2).1 hf
  have hg' := hg.delete hi he
  have hnf : s'.nfiles = s.nfiles - 1 := congrArg FsMem.nfiles he.mem
  have hnt : s'.nfiles.toNat = s.nfiles.toNat - 1 := by omega
  have hkeep (j : Nat) (hj : j < s.nfiles.toNat - 1) := entry_kept hg hi he hj
  funext a
  by_cases ha : a = name
  · subst ha
    rw [Function.update_self, Option.eq_none_iff_forall_ne_some]
    intro bytes hs
    obtain ⟨j, hj, hxj, _⟩ := (map_eq_some hg').1 hs
    obtain ⟨hd, hlt, _⟩ := hkeep j (by omega)
    rw [hd] at hxj
    exact (shifted_spec idx j).1 (hg.names _ _ a.1 hlt hi a.2 hxj hx)
  · rw [Function.update_of_ne ha]
    apply Option.ext
    intro bytes
    rw [map_eq_some hg', map_eq_some hg, hnt]
    constructor
    · rintro ⟨j, hj, hxj, hb⟩
      obtain ⟨hd, hlt, hc⟩ := hkeep j hj
      rw [hd] at hxj hb
      exact ⟨_, hlt, hxj, hc.symm.trans hb⟩
    · rintro ⟨i, hi', hxi, hb⟩
      have hne : i ≠ idx := by
        rintro rfl
        exact ha (hxi.name_eq hx)
      obtain ⟨j, hj, rfl⟩ := shifted_surj hne hi' hi
      have hj' : j < s.nfiles.toNat - 1 := Nat.lt_sub_of_add_lt hj
      obtain ⟨hd, _, hc⟩ := hkeep j hj'
      refine ⟨j, hj', ?_⟩
      rw [hd]
      exact ⟨hxi, hc.trans hb⟩

/-- A file that is listed with its entry, and has these bytes. -/
structure Listed (s : Fs) (name : FileName) (e : FsDirent) (bytes : List UInt8) : Prop where
  good : FsGood s
  entry : ∃ i, i < s.nfiles.toNat ∧ s.dir i = e
  named : Named e name.1.bytes
  contents : contents s.disk e = bytes

/-- A new file takes no block of one that is listed. -/
theorem Listed.create (h : Listed s name e bytes) (other : FileName) (data : Nat → UInt8)
    (size : Int32) : Listed (fsCreate s other data size).1 name e bytes := by
  rcases (Call.create other.1 data size).exec_inv h.good.wf with he | ⟨_, hc⟩
  · have he' : fsCreate s other data size = (s, -1) := he
    rw [he']
    exact h
  · rcases hc with ⟨_, _, _, start, nb, hc, hok, he⟩ | ⟨_, _, hc, _⟩
    · cases hc
      obtain ⟨i, hi, hdir⟩ := h.entry
      obtain ⟨hd, hn, _⟩ := addEntry_mem_eq hok
      have h₀ : 0 ≤ s.nfiles := h.good.wf.mem.nfiles_nonneg
      have hd' := (congrArg FsMem.dir he.mem).trans hd
      have hn' : (fsCreate s other data size).1.nfiles = s.nfiles + 1 :=
        (congrArg FsMem.nfiles he.mem).trans hn
      refine ⟨h.good.create hok other.2 he, ⟨i, by omega, ?_⟩, h.named, ?_⟩
      · refine Eq.trans (congrFun hd' i) ?_
        rw [Function.update_of_ne (by omega), hdir]
      · rw [← h.contents, ← hdir]
        exact contents_kept hok h.good he hi
    · cases hc

/-- When another file is deleted, the entry may move, and its blocks stay as they are. -/
theorem Listed.delete (h : Listed s name e bytes) {other : FileName} (hne : other ≠ name) :
    Listed (fsDelete s other).1 name e bytes := by
  rcases (Call.delete other.1).exec_inv h.good.wf with he | ⟨_, hc⟩
  · have he' : fsDelete s other = (s, -1) := he
    rw [he']
    exact h
  · rcases hc with ⟨_, _, _, _, _, hc, _⟩ | ⟨_, idx, hc, hf, he⟩
    · cases hc
    · cases hc
      obtain ⟨i, hi, hdir⟩ := h.entry
      obtain ⟨hidx, hx⟩ := (findName_some h.good.names other.2).1 hf
      have hnf : (fsDelete s other).1.nfiles = s.nfiles - 1 := congrArg FsMem.nfiles he.mem
      have hii : i ≠ idx := by
        rintro rfl
        rw [hdir] at hx
        exact hne (hx.name_eq h.named)
      obtain ⟨j, hj, rfl⟩ := shifted_surj hii hi hidx
      have hj' : j < s.nfiles.toNat - 1 := Nat.lt_sub_of_add_lt hj
      obtain ⟨hd, _, hc⟩ := entry_kept h.good hidx he hj'
      refine ⟨h.good.delete hidx he, ⟨j, by omega, hd.trans hdir⟩, h.named, ?_⟩
      rw [← h.contents, ← hdir]
      exact hc

/-- Every operation keeps the invariant and is a step of the finite map. -/
theorem Op.exec_refines (hg : FsGood s) (op : Op) :
    FsGood (op.exec s).1 ∧ FileMap.Step s.map op (op.exec s).2 (op.exec s).1.map := by
  cases op with
  | create name data size =>
    rcases (Call.create name.1 data size).exec_inv hg.wf with he | ⟨hr, hc⟩
    · have he' : fsCreate s name data size = (s, -1) := he
      simp only [exec, he']
      exact ⟨hg, .refused⟩
    · rcases hc with ⟨_, _, _, start, nb, hc, hok, he⟩ | ⟨_, _, hc, _⟩
      · cases hc
        have hr' : (fsCreate s name data size).2 = 0 := hr
        simp only [exec, hr']
        have hm := map_created hg hok he
        refine ⟨hg.create hok name.2 he, ?_⟩
        rw [show (fsCreate s name data size).1.map = _ from hm]
        exact .created (map_eq_none.2 hok.absent) hok.nonneg
      · cases hc
  | delete name =>
    rcases (Call.delete name.1).exec_inv hg.wf with he | ⟨hr, hc⟩
    · have he' : fsDelete s name = (s, -1) := he
      have hmt : s.mounted = true := hg.wf.mem.mounted
      have hnone : findName s name = none := by
        simp only [fsDelete, hmt, Bool.not_true, Bool.false_eq_true, ↓reduceIte] at he'
        cases hf : findName s name with
        | none => rfl
        | some idx =>
          simp only [hf, Prod.mk.injEq] at he'
          exact absurd he'.2 (by decide)
      simp only [exec, he']
      exact ⟨hg, .absent (map_eq_none.2 hnone)⟩
    · rcases hc with ⟨_, _, _, _, _, hc, _⟩ | ⟨_, idx, hc, hf, he⟩
      · cases hc
      · cases hc
        have hr' : (fsDelete s name).2 = 0 := hr
        simp only [exec, hr']
        refine ⟨hg.delete (findName_lt hf) he, ?_⟩
        rw [show (fsDelete s name).1.map = _ from map_deleted hg hf he]
        apply FileMap.Step.deleted
        rw [ne_eq, map_eq_none, hf]
        exact Option.some_ne_none idx
  | read name buf limit =>
    obtain ⟨b, hb⟩ := fsRead_state hg.wf name buf limit
    simp only [exec, hb]
    refine ⟨⟨⟨hg.wf.faults, hg.wf.mem, hg.wf.disk⟩, hg.rep, hg.names⟩, ?_⟩
    show FileMap.Step s.map _ _ s.map
    cases hf : findName s name with
    | none =>
      rw [fsRead_absent hf]
      exact .notFound (map_eq_none.2 hf)
    | some i =>
      apply FileMap.Step.found (contents s.disk (s.dir i))
      · rw [Fs.map, hf]
        rfl
      · rw [contents_length]
        intro hl
        obtain ⟨h₁, h₂⟩ := fsRead_found buf hg.wf hf hl
        refine ⟨h₁, ?_⟩
        intro j
        rw [h₂ j]
        split
        · rename_i hj
          rw [contents_getD _ hj]
        · rfl
  | stat name =>
    have hmt : s.mounted = true := hg.wf.mem.mounted
    refine ⟨hg, ?_⟩
    simp only [exec, fsStat, hmt, Bool.not_true, Bool.false_eq_true, ↓reduceIte]
    cases hf : findName s name with
    | none => exact .unknown (map_eq_none.2 hf)
    | some i =>
      apply FileMap.Step.known (contents s.disk (s.dir i))
      · rw [Fs.map, hf]
        rfl
      · rw [contents_length]
  | remount =>
    refine ⟨hg.remount, ?_⟩
    simp only [exec, map_remount hg]
    exact .remounted

theorem Op.run_refines (hg : FsGood s) (ops : List Op) :
    FileMap.Run s.map ops (run s ops).2 (run s ops).1.map := by
  induction ops generalizing s with
  | nil => exact .nil
  | cons op ops ih =>
    obtain ⟨hg', hst⟩ := op.exec_refines hg
    exact .cons hst (ih hg')

end Refinement

end KernelHobby
