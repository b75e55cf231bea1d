import KernelHobby.FsCreate
import KernelHobby.FsMap

namespace KernelHobby
set_option autoImplicit true

/-- No two listed entries hold the same string. -/
def NamesDistinct (m : FsMem) : Prop :=
  ∀ i j, i < m.nfiles.toNat → j < m.nfiles.toNat → entryName (m.dir i) = entryName (m.dir j) → i = j

theorem namesOk_iff_distinct (ht : AllTerminated m) : NamesOk m ↔ NamesDistinct m := by
  constructor
  · intro h i j hi hj he
    apply h i j (entryStr (m.dir i)) hi hj (ht i hi).length_lt (ht i hi).named
    show Named (m.dir j) (entryName (m.dir i))
    rw [he]
    exact (ht j hj).named
  · intro h i j name hi hj hn hx hy
    have hname (k : Nat) (hk : k < m.nfiles.toNat) (hz : Named (m.dir k) name.bytes) :
        entryName (m.dir k) = name.bytes :=
      congrArg CStr.bytes
        (Named.unique (a := entryStr (m.dir k)) (ht k hk).named hz (ht k hk).length_lt hn)
    apply h i j hi hj
    rw [hname i hi hx, hname j hj hy]

/-- The states that system calls reach from a fresh image when every name that is created
satisfies `P`. -/
inductive CreatedBy (P : CStr → Prop) (img : MkfsImage) : Fs → Prop where
  | mkfs : CreatedBy P img (mount img.disk)
  | create (data : Nat → UInt8) (size : Int32) : P name → CreatedBy P img s →
      CreatedBy P img (fsCreate s name data size).1
  | delete (name : CStr) : CreatedBy P img s → CreatedBy P img (fsDelete s name).1
  | remount : CreatedBy P img s → CreatedBy P img (mount s.disk)

/-- A name that `SYS_create` can pass: its buffer has 64 bytes. -/
def SysName (name : CStr) : Prop := name.bytes.length ≤ 63

/-- A name that an entry can hold together with its NUL. -/
def ShortName (name : CStr) : Prop := name.bytes.length < NAMELEN

theorem CreatedBy.reachable (h : CreatedBy P img s) : Reachable img s := by
  induction h with
  | mkfs => exact .mkfs
  | @create name s data size _ _ ih => exact .call (.create name data size) ih
  | delete name _ ih => exact .call (.delete name) ih
  | remount _ ih => exact .remount ih

theorem CreatedBy.namesOk (hn : NamesOk img.mem) (h : CreatedBy ShortName img s) :
    NamesOk s.mem := by
  induction h with
  | mkfs =>
    rw [img.mount_spec.2.2.1]
    exact hn
  | @create name s data size hs h ih =>
    rcases (Call.create name data size).exec_inv h.reachable.wf with
      he | ⟨_, ⟨_, _, _, start, nb, hcall, hc, he⟩ | ⟨_, _, hcall, _⟩⟩
    · have he' : fsCreate s name data size = (s, -1) := he
      rw [he']
      exact ih
    · cases hcall
      have hm := he.mem
      rw [Call.exec] at hm
      rw [hm]
      exact addEntry_namesOk ih h.reachable.wf.mem hc hs
    · cases hcall
  | @delete s name h ih =>
    rcases (Call.delete name).exec_inv h.reachable.wf with
      he | ⟨_, ⟨_, _, _, _, _, hcall, _⟩ | ⟨_, idx, hcall, hf, he⟩⟩
    · have he' : fsDelete s name = (s, -1) := he
      rw [he']
      exact ih
    · cases hcall
    · cases hcall
      have hm := he.mem
      rw [Call.exec] at hm
      rw [hm]
      exact removeEntry_namesOk ih (findName_lt hf)
  | remount h ih =>
    rw [(h.reachable.wf.disk.mount h.reachable.wf.mem).2.2.2.1]
    exact ih

/-- After `fs_create`, the name leads to the new file and to nothing else. -/
structure Identity (s : Fs) (name : CStr) (data : Nat → UInt8) (size : Int32) (s' : Fs) :
    Prop where
  stat : fsStat s' name = some ((s'.dir s.nfiles.toNat).start, size.toUInt32)
  read : ∀ buf limit, size.toInt ≤ limit.toInt → (fsRead s' name buf limit).2.2 = size.toInt ∧
    ∀ j, (fsRead s' name buf limit).2.1 j = if j < size.toInt.toNat then data j else buf j
  again : ∀ data' size', (fsCreate s' name data' size').2 = -1
  delete : (fsDelete s' name).2 = 0 ∧ findName (fsDelete s' name).1 name = none
  others : (fsDelete s' name).1.nfiles = s.nfiles ∧
    ∀ i, i < s.nfiles.toNat → (fsDelete s' name).1.dir i = s.dir i

section Identity
variable {s s' : Fs} {name : CStr} {size : Int32}

theorem fsCreate_found (h : findName s name = some i) (data : Nat → UInt8) (size : Int32) :
    fsCreate s name data size = (s, -1) := by
  rw [fsCreate]
  split
  · rfl
  · rw [if_pos (by rw [h]; rfl)]

theorem fsStat_found (hm : s.mounted = true) (h : findName s name = some i) :
    fsStat s name = some ((s.dir i).start, (s.dir i).size) := by
  simp only [fsStat, hm, Bool.not_true, Bool.false_eq_true, ↓reduceIte, h]

theorem fsStat_absent (h : findName s name = none) : fsStat s name = none := by
  rw [fsStat]
  split
  · rfl
  · rw [h]

/-- What a created short name is found as. -/
theorem identity_created (hw : FsWf s) (hn : NamesOk s.mem) (hs : ShortName name)
    (hc : CreateOk s name size start nb)
    (he : Effect s (dataWrites data size start nb)
      (addEntry s name size ((size + 512 - 1) / 512) start).mem s') :
    Identity s name data size s' := by
  obtain ⟨hd, hnf, _⟩ := addEntry_mem_eq hc
  have h₀ : 0 ≤ s.nfiles := hw.mem.nfiles_nonneg
  have hw' : FsWf s' := he.wf (addEntry_memOk hw.mem hc)
  have hok' : NamesOk s'.mem := by
    rw [he.mem]
    exact addEntry_namesOk hn hw.mem hc hs
  have hmt : s'.mounted = true := hw'.mem.mounted
  have hdir : s'.dir = Function.update s.dir s.nfiles.toNat (newEntry s name size start) :=
    (congrArg FsMem.dir he.mem).trans hd
  have hnew : s'.dir s.nfiles.toNat = newEntry s name size start := by
    rw [hdir, Function.update_self]
  have hnf' : s'.nfiles = s.nfiles + 1 := (congrArg FsMem.nfiles he.mem).trans hnf
  have hfound : findName s' name = some s.nfiles.toNat := by
    rw [findName_some hok' hs]
    refine ⟨by omega, ?_⟩
    rw [hnew]
    exact named_newEntry s name size start hs
  have hsz : (s'.dir s.nfiles.toNat).size.toNat = size.toInt.toNat := by
    rw [hnew]
    exact hc.size_toNat
  have hnn := hc.nonneg
  have hdel : Effect s' [] (removeEntry s' s.nfiles.toNat).mem (fsDelete s' name).1 := by
    have hx : Effect s' [] (removeEntry s' s.nfiles.toNat).mem
        (logCommit (logSuper (logDir (logBegin (removeEntry s' s.nfiles.toNat))))) :=
      fsDelete_effect hw'.faults
    simpa only [fsDelete, hmt, Bool.not_true, Bool.false_eq_true, ↓reduceIte, hfound] using hx
  have hdn : (fsDelete s' name).1.nfiles = s.nfiles := by
    have hx : (fsDelete s' name).1.nfiles = s'.nfiles - 1 := congrArg FsMem.nfiles hdel.mem
    omega
  have hold (i : Nat) (hi : i < s.nfiles.toNat) : (fsDelete s' name).1.dir i = s.dir i := by
    have hx : (fsDelete s' name).1.dir i = (removeEntry s' s.nfiles.toNat).dir i :=
      congrFun (congrArg FsMem.dir hdel.mem) i
    rw [hx, removeEntry_dir (by omega) (by omega), shifted, if_neg (by omega), hdir,
      Function.update_of_ne (by omega)]
  refine ⟨?_, ?_, ?_, ⟨?_, ?_⟩, hdn, hold⟩
  · rw [fsStat_found hmt hfound, hnew]
    rfl
  · intro buf limit hl
    have hle : ((s'.dir s.nfiles.toNat).size.toNat : Int) ≤ limit.toInt := by omega
    obtain ⟨h₁, h₂⟩ := fsRead_found buf hw' hfound hle
    refine ⟨by omega, ?_⟩
    intro j
    rw [h₂ j, hsz]
    split
    · rename_i hj
      have hcont := contents_created hc he
      rw [hnew, ← contents_getD s'.disk (by rw [← hnew, hsz]; exact hj), hcont, bytesOf,
        List.getD_eq_getElem _ _ (by rwa [List.length_map, List.length_range]),
        List.getElem_map, List.getElem_range]
    · rfl
  · intro data' size'
    rw [fsCreate_found hfound]
  · simp only [fsDelete, hmt, Bool.not_true, Bool.false_eq_true, ↓reduceIte, hfound]
  · rw [findName_none hs, hdn]
    intro i hi
    rw [hold i hi]
    exact (findName_none hs).1 hc.absent i hi

/-- A name that does not fit is cut when it is stored, and no lookup finds it. -/
theorem findName_long (ht : AllTerminated s.mem) (hl : ¬ ShortName name) :
    findName s name = none := by
  rw [findName_none_iff ht]
  intro i hi he
  have hlt := (ht i hi).length_lt
  apply hl
  rw [ShortName, ← he]
  exact hlt

end Identity

/-- In every run that creates only names shorter than `NAMELEN` the names stay distinct, and a
name that is then created leads to its file exactly when it is shorter than `NAMELEN` too. -/
theorem name_identity (hn : NamesDistinct img.mem) (h : CreatedBy ShortName img s) :
    NamesDistinct s.mem ∧ ∀ name data size, SysName name →
      (fsCreate s name data size).2 = 0 →
      (Identity s name data size (fsCreate s name data size).1 ↔ ShortName name) := by
  have hw := h.reachable.wf
  have ht := h.reachable.allTerminated
  have hok := h.namesOk ((namesOk_iff_distinct img.allTerminated).2 hn)
  refine ⟨(namesOk_iff_distinct ht).1 hok, ?_⟩
  intro name data size _ hr
  constructor
  · intro hid
    by_contra hl
    have hr' : Reachable img (fsCreate s name data size).1 :=
      .call (.create name data size) h.reachable
    have hst := hid.stat
    rw [fsStat_absent (findName_long hr'.allTerminated hl)] at hst
    cases hst
  · intro hs
    rcases (Call.create name data size).exec_inv hw with
      he | ⟨_, ⟨_, _, _, start, nb, hcall, hc, he⟩ | ⟨_, _, hcall, _⟩⟩
    · have he' : fsCreate s name data size = (s, -1) := he
      rw [he'] at hr
      exact absurd hr (show (-1 : Int) ≠ 0 by decide)
    · cases hcall
      exact identity_created hw hok hs hc he
    · cases hcall

/-- A stored name is cut to what fits before the NUL. -/
theorem entryName_newEntry (s : Fs) (name : CStr) (size : Int32) (start : Nat) :
    entryName (newEntry s name size start) = name.bytes.take (NAMELEN - 1) := by
  have hnul : 0 ∉ name.bytes.take (NAMELEN - 1) := fun h => name.noNul (List.mem_of_mem_take h)
  have hlen : (name.bytes.take (NAMELEN - 1)).length = min (NAMELEN - 1) name.bytes.length :=
    List.length_take
  have hlt : (name.bytes.take (NAMELEN - 1)).length < NAMELEN := by
    rw [hlen, NAMELEN]
    omega
  have hcut : Named (newEntry s name size start) (name.bytes.take (NAMELEN - 1)) := by
    intro k hk hl
    have hmin : Nat.min name.bytes.length (NAMELEN - 1) =
        (name.bytes.take (NAMELEN - 1)).length := by
      rw [hlen]
      exact Nat.min_comm _ _
    show copyName name _ ⟨k, hk⟩ = _
    simp only [copyName, hmin]
    split
    · rename_i hlt'
      rw [List.getD_eq_getElem _ _ hlt', List.getElem_take,
        List.getD_eq_getElem _ _ (by omega)]
    · rw [if_pos (by omega), List.getD_eq_default _ _ (by omega)]
  have ht := terminated_newEntry s name size start
  exact congrArg CStr.bytes
    (Named.unique (a := entryStr (newEntry s name size start)) (b := ⟨_, hnul⟩) ht.named hcut
      ht.length_lt hlt)

theorem fsCreate_last {name : CStr} (h : (fsCreate s name data size).2 = 0) :
    (fsCreate s name data size).1.nfiles = s.nfiles + 1 ∧
      ∃ start, (fsCreate s name data size).1.dir =
        Function.update s.dir s.nfiles.toNat (newEntry s name size start) := by
  rcases fsCreate_cases s name data size with he | ⟨start, nb, hc, he⟩
  · rw [he] at h
    exact absurd h (show (-1 : Int) ≠ 0 by decide)
  · have hm := fsCreate_mem data start nb he
    obtain ⟨hd, hn, _⟩ := addEntry_mem_eq hc
    exact ⟨(congrArg FsMem.nfiles hm).trans hn, start, (congrArg FsMem.dir hm).trans hd⟩

theorem emptyFileImage_distinct : NamesDistinct emptyFileImage.mem := by
  intro i j hi hj _
  have hn : emptyFileImage.mem.nfiles.toNat = 1 := rfl
  omega

theorem name_identity_emptyFile :
    let s := mount emptyFileImage.disk
    NamesDistinct emptyFileImage.mem ∧ CreatedBy ShortName emptyFileImage s ∧
      NamesDistinct s.mem ∧ ∀ name data size, SysName name →
        (fsCreate s name data size).2 = 0 →
        (Identity s name data size (fsCreate s name data size).1 ↔ ShortName name) :=
  ⟨emptyFileImage_distinct, .mkfs, name_identity emptyFileImage_distinct .mkfs⟩

/-- A name of 56 bytes, which `SYS_create` passes on as it is. -/
def longName : CStr := ⟨List.replicate 56 98, by decide⟩

/-- An empty file under a name that is too long can be created over and over. -/
theorem fsCreate_longName (hi : FsInvariant s.mem) (hr : s.nfiles < (MAXFILES : Int))
    (data : Nat → UInt8) : (fsCreate s longName data 0).2 = 0 := by
  apply fsCreate_ok _ hi
  refine ⟨by decide, hr, ?_, by decide, fun hp => absurd hp (by decide)⟩
  intro i hi' he
  have hlt : (entryName (s.dir i)).length < NAMELEN := (hi.terminated i hi').length_lt
  rw [he] at hlt
  exact absurd hlt (by decide)

/-- Creating one name twice lists it twice. -/
theorem not_distinct_twice {s s₁ s₂ : Fs} {name : CStr} (h₀ : 0 ≤ s.nfiles)
    (he₁ : (fsCreate s name data size).1 = s₁) (hr₁ : (fsCreate s name data size).2 = 0)
    (he₂ : (fsCreate s₁ name data size).1 = s₂) (hr₂ : (fsCreate s₁ name data size).2 = 0) :
    ¬ NamesDistinct s₂.mem := by
  obtain ⟨hn₁, a, hd₁⟩ := fsCreate_last hr₁
  obtain ⟨hn₂, b, hd₂⟩ := fsCreate_last hr₂
  rw [he₁] at hn₁ hd₁
  rw [he₂] at hn₂ hd₂
  intro hdis
  have hx : entryName (s₂.dir s.nfiles.toNat) = name.bytes.take (NAMELEN - 1) := by
    rw [hd₂, Function.update_of_ne (by omega), hd₁, Function.update_self]
    exact entryName_newEntry _ _ _ _
  have hy : entryName (s₂.dir s₁.nfiles.toNat) = name.bytes.take (NAMELEN - 1) := by
    rw [hd₂, Function.update_self]
    exact entryName_newEntry _ _ _ _
  have hij := hdis s.nfiles.toNat s₁.nfiles.toNat (show _ < s₂.nfiles.toNat by omega)
    (show _ < s₂.nfiles.toNat by omega) (hx.trans hy.symm)
  omega

theorem not_name_identity_longName :
    let s := mount emptyFileImage.disk
    let s₁ := (fsCreate s longName (fun _ => 0) 0).1
    let s₂ := (fsCreate s₁ longName (fun _ => 0) 0).1
    SysName longName ∧ CreatedBy SysName emptyFileImage s₂ ∧
      (fsCreate s longName (fun _ => 0) 0).2 = 0 ∧ fsStat s₁ longName = none ∧
      (fsCreate s₁ longName (fun _ => 0) 0).2 = 0 ∧ ¬ NamesDistinct s₂.mem := by
  have hsys : SysName longName := by
    show 56 ≤ 63
    decide
  have hlong : ¬ ShortName longName := by
    show ¬ 56 < 56
    decide
  intro s s₁ s₂
  have h₁ : CreatedBy SysName emptyFileImage s₁ := .create (fun _ => 0) 0 hsys .mkfs
  have h₂ : CreatedBy SysName emptyFileImage s₂ := .create (fun _ => 0) 0 hsys h₁
  have h₀ : CreatedBy SysName emptyFileImage s := .mkfs
  have hi := Reachable.invariant emptyFileImage_sizesOk h₀.reachable
  have hi₁ := Reachable.invariant emptyFileImage_sizesOk h₁.reachable
  have hn : s.nfiles = 1 := congrArg FsMem.nfiles emptyFileImage.mount_spec.2.2.1
  have hmax : MAXFILES = 8 := rfl
  have hr : (fsCreate s longName (fun _ => 0) 0).2 = 0 :=
    fsCreate_longName hi (by show s.nfiles < _; omega) _
  have hn₁ : s₁.nfiles = s.nfiles + 1 := (fsCreate_last hr).1
  have hr₁ : (fsCreate s₁ longName (fun _ => 0) 0).2 = 0 :=
    fsCreate_longName hi₁ (by omega) _
  exact ⟨hsys, h₂, hr, fsStat_absent (findName_long hi₁.terminated hlong), hr₁,
    not_distinct_twice (by omega) rfl hr rfl hr₁⟩

end KernelHobby
