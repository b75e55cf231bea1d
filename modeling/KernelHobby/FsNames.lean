import KernelHobby.FsRep

namespace KernelHobby
set_option autoImplicit true

/-- The entry carries this name, its NUL included. -/
def Named (e : FsDirent) (name : List UInt8) : Prop :=
  ∀ k, (h : k < NAMELEN) → k ≤ name.length → e.name ⟨k, h⟩ = name.getD k 0

theorem streq_iff (h : 0 ∉ b) : streq a b = true ↔ ∀ k, k ≤ b.length → a k = b.getD k 0 := by
  induction b generalizing a with
  | nil => simp [streq]
  | cons c b ih =>
    rw [List.mem_cons, not_or] at h
    have hc : c ≠ 0 := Ne.symm h.1
    have hsplit : (∀ k, k ≤ (c :: b).length → a k = (c :: b).getD k 0) ↔
        a 0 = c ∧ ∀ k, k ≤ b.length → a (k + 1) = b.getD k 0 := by
      constructor
      · intro hk
        exact ⟨hk 0 (Nat.zero_le _), fun k hkb => hk (k + 1) (by simpa using hkb)⟩
      · rintro ⟨h₀, hs⟩ k hk
        cases k with
        | zero => exact h₀
        | succ k => exact hs k (by simpa using hk)
    rw [hsplit, ← ih h.2, streq]
    by_cases h₀ : a 0 = c
    · simp [h₀, hc]
    · by_cases hz : a 0 = 0
      · simp [hz, h.1]
      · simp [hz, hc, h₀]

theorem dirName_eq (dir : Nat → FsDirent) (i : Nat) (hk : k < NAMELEN) :
    dirName dir i k = (dir i).name ⟨k, hk⟩ := by
  have hk' : k < 56 := hk
  have hd : (64 * i + k) / 64 = i := by omega
  have hm : (64 * i + k) % 64 = k := by omega
  rw [dirName, dirByte, hd, hm, FsDirent.byte, dif_pos hk]

theorem streq_dirName (name : CStr) (hn : name.bytes.length < NAMELEN) :
    streq (dirName dir i) name.bytes = true ↔ Named (dir i) name.bytes := by
  rw [streq_iff name.noNul]
  constructor
  · intro h k hk hl
    rw [← dirName_eq]
    exact h k hl
  · intro h k hl
    rw [dirName_eq dir i (by omega)]
    exact h k _ hl

/-- An entry carries one name only. -/
theorem Named.length_le (h : Named e a) (h' : Named e b) (hl : a.length < NAMELEN) (hz : 0 ∉ b) :
    b.length ≤ a.length := by
  by_contra hlt
  have h₁ := h a.length hl (Nat.le_refl _)
  have h₂ := h' a.length hl (by omega)
  rw [h₁, List.getD_eq_default _ _ (Nat.le_refl _), List.getD_eq_getElem?_getD,
    List.getElem?_eq_getElem (by omega), Option.getD_some] at h₂
  exact hz (h₂ ▸ List.getElem_mem _)

theorem Named.unique {a b : CStr} (h : Named e a.bytes) (h' : Named e b.bytes)
    (ha : a.bytes.length < NAMELEN) (hb : b.bytes.length < NAMELEN) : a = b := by
  have hl : a.bytes.length = b.bytes.length :=
    Nat.le_antisymm (h'.length_le h hb a.noNul) (h.length_le h' ha b.noNul)
  have hbytes : a.bytes = b.bytes := by
    apply List.ext_getElem hl
    intro k h₁ h₂
    have hk : k < NAMELEN := by omega
    have hh := (h k hk (by omega)).symm.trans (h' k hk (by omega))
    rwa [List.getD_eq_getElem?_getD, List.getD_eq_getElem?_getD, List.getElem?_eq_getElem h₁,
      List.getElem?_eq_getElem h₂, Option.getD_some, Option.getD_some] at hh
  cases a
  cases b
  cases hbytes
  rfl

theorem named_newEntry (s : Fs) (name : CStr) (size : Int32) (start : Nat)
    (hn : name.bytes.length < NAMELEN) :
    Named (newEntry s name size start) name.bytes := by
  intro k hk hl
  have hmin : Nat.min name.bytes.length (NAMELEN - 1) = name.bytes.length :=
    Nat.min_eq_left (by omega)
  show copyName name _ ⟨k, hk⟩ = _
  simp only [copyName, hmin]
  split
  · rfl
  · rw [if_pos (by omega), List.getD_eq_default _ _ (by omega)]

theorem named_mkfsName (size start : UInt32) (hn : (baseName path).length < NAMELEN) :
    Named ⟨mkfsName path, size, start⟩ (baseName path) := by
  intro k hk hl
  show mkfsName path ⟨k, hk⟩ = _
  simp only [mkfsName]
  split
  · rfl
  · rw [List.getD_eq_default _ _ (by omega)]

/-- No two listed entries carry the same name. -/
def NamesOk (m : FsMem) : Prop :=
  ∀ i j (name : CStr), i < m.nfiles.toNat → j < m.nfiles.toNat → name.bytes.length < NAMELEN →
    Named (m.dir i) name.bytes → Named (m.dir j) name.bytes → i = j

section Lookup
variable {s : Fs} {name : CStr}

theorem findName_some (hs : NamesOk s.mem) (hn : name.bytes.length < NAMELEN) :
    findName s name = some i ↔ i < s.nfiles.toNat ∧ Named (s.dir i) name.bytes := by
  constructor
  · intro h
    have hp := List.find?_some h
    exact ⟨findName_lt h, (streq_dirName name hn).1 hp⟩
  · rintro ⟨hi, hx⟩
    cases hf : findName s name with
    | none =>
      have hp := List.find?_eq_none.1 hf i (List.mem_range.2 hi)
      exact absurd ((streq_dirName name hn).2 hx) hp
    | some j =>
      have hp := List.find?_some hf
      rw [hs i j name hi (findName_lt hf) hn hx ((streq_dirName name hn).1 hp)]

theorem findName_none (hn : name.bytes.length < NAMELEN) :
    findName s name = none ↔ ∀ i, i < s.nfiles.toNat → ¬ Named (s.dir i) name.bytes := by
  rw [findName, List.find?_eq_none]
  simp only [List.mem_range, streq_dirName name hn]

theorem addEntry_namesOk (hs : NamesOk s.mem) (hm : MemOk s.mem)
    (hc : CreateOk s name size start nb) (hn : name.bytes.length < NAMELEN) :
    NamesOk (addEntry s name size ((size + 512 - 1) / 512) start).mem := by
  obtain ⟨hd, hnf, _⟩ := addEntry_mem_eq hc
  have h₀ : 0 ≤ s.nfiles := hm.nfiles_nonneg
  have hnt : (s.nfiles + 1).toNat = s.nfiles.toNat + 1 := by omega
  have habs := (findName_none hn).1 hc.absent
  have hnew : Named (newEntry s name size start) name.bytes := named_newEntry s name size start hn
  -- a name of the new entry is the new name, which no older entry carries
  have hold (i : Nat) (a : CStr) (hi : i < s.nfiles.toNat) (ha : a.bytes.length < NAMELEN)
      (hx : Named (s.dir i) a.bytes) : ¬ Named (newEntry s name size start) a.bytes := by
    intro hy
    rw [hnew.unique hy hn ha] at habs
    exact habs i hi hx
  rw [NamesOk, hd, hnf, hnt]
  intro i j a hi hj ha hx hy
  by_cases hei : i = s.nfiles.toNat
  · by_cases hej : j = s.nfiles.toNat
    · omega
    · subst hei
      rw [Function.update_self] at hx
      rw [Function.update_of_ne hej] at hy
      exact absurd hx (hold j a (by omega) ha hy)
  · rw [Function.update_of_ne hei] at hx
    by_cases hej : j = s.nfiles.toNat
    · subst hej
      rw [Function.update_self] at hy
      exact absurd hy (hold i a (by omega) ha hx)
    · rw [Function.update_of_ne hej] at hy
      exact hs i j a (show i < s.nfiles.toNat by omega) (show j < s.nfiles.toNat by omega) ha hx hy

theorem removeEntry_namesOk (hs : NamesOk s.mem) (hi : idx < s.nfiles.toNat) :
    NamesOk (removeEntry s idx).mem := by
  have hnt : (removeEntry s idx).mem.nfiles.toNat = s.nfiles.toNat - 1 := by
    show (s.nfiles - 1).toNat = _
    omega
  rw [NamesOk, hnt]
  intro i j a hi' hj' ha hx hy
  have hx' : Named ((removeEntry s idx).dir i) a.bytes := hx
  have hy' : Named ((removeEntry s idx).dir j) a.bytes := hy
  rw [removeEntry_dir hi (by omega)] at hx'
  rw [removeEntry_dir hi (by omega)] at hy'
  have hli := (shifted_spec idx i).2
  have hlj := (shifted_spec idx j).2
  apply shifted_inj idx
  exact hs _ _ a (show _ < s.nfiles.toNat by omega) (show _ < s.nfiles.toNat by omega) ha hx' hy'

end Lookup

/-- The base names of an image are distinct and fit into an entry. -/
def MkfsImage.NamesOk (img : MkfsImage) : Prop :=
  (img.files.map fun f => baseName f.1).Nodup ∧
    ∀ f ∈ img.files, (baseName f.1).length < NAMELEN

theorem mkfsEntries_name (hi : i < files.length) :
    ((mkfsEntries cur files).getD i FsDirent.zero).name = mkfsName (files[i]).1 := by
  induction files generalizing cur i with
  | nil => cases hi
  | cons f fs ih =>
    cases i with
    | zero => rfl
    | succ i => exact ih (by simpa using hi)

theorem baseName_noNul (path : CStr) : 0 ∉ baseName path := by
  intro h
  rw [baseName, List.mem_reverse] at h
  have hm := List.mem_reverse.1 (List.takeWhile_subset _ h)
  exact path.noNul hm

/-- The base name of a path, as the kernel looks it up. -/
def baseStr (path : CStr) : CStr := ⟨baseName path, baseName_noNul path⟩

namespace MkfsImage

theorem named_dir (img : MkfsImage) (hn : img.NamesOk) (hi : i < img.files.length) :
    Named (img.dir i) (baseName (img.files[i]).1) := by
  have h := named_mkfsName (img.dir i).size (img.dir i).start (hn.2 _ (List.getElem_mem hi))
  have hname : (img.dir i).name = mkfsName (img.files[i]).1 := mkfsEntries_name hi
  rwa [← hname] at h

theorem mem_namesOk (img : MkfsImage) (hn : img.NamesOk) : KernelHobby.NamesOk img.mem := by
  intro i j name hi hj hl hx hy
  simp only [mem, Int.toNat_natCast] at hi hj
  have hl' (k : Nat) (hk : k < img.files.length) :
      (baseStr (img.files[k]).1).bytes.length < NAMELEN := hn.2 _ (List.getElem_mem hk)
  have h₁ := Named.unique (a := baseStr (img.files[i]).1) (img.named_dir hn hi) hx (hl' i hi) hl
  have h₂ := Named.unique (a := baseStr (img.files[j]).1) (img.named_dir hn hj) hy (hl' j hj) hl
  have hb : baseName (img.files[i]).1 = baseName (img.files[j]).1 :=
    congrArg CStr.bytes (h₁.trans h₂.symm)
  exact (@List.Nodup.getElem_inj_iff _ _ hn.1 i (by simpa using hi) j (by simpa using hj)).1
    (by simpa using hb)

end MkfsImage

end KernelHobby
