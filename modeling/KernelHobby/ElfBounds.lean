import KernelHobby.ElfLoad

namespace KernelHobby
set_option autoImplicit true

/-- All indices of the spans are below `n`. -/
def Inside (spans : List (Nat × Nat)) (n : Nat) : Prop :=
  ∀ r ∈ spans, ∀ k, k < r.2 → wrap64 (r.1 + k) < n

@[simp] theorem inside_nil : Inside [] n := by
  intro r hr
  cases hr

theorem inside_cons :
    Inside (r :: spans) n ↔ (∀ k, k < r.2 → wrap64 (r.1 + k) < n) ∧ Inside spans n := by
  simp only [Inside, List.mem_cons, forall_eq_or_imp]

theorem inside_append : Inside (a ++ b) n ↔ Inside a n ∧ Inside b n := by
  induction a with
  | nil => simp
  | cons r a ih => rw [List.cons_append, inside_cons, ih, inside_cons, and_assoc]

/-- A span stays below a bound exactly when it does not reach over it. -/
theorem span_lt_iff (ha : a < 2 ^ 64) (hn : n < 2 ^ 64) :
    (∀ k, k < len → wrap64 (a + k) < n) ↔ len = 0 ∨ a + len ≤ n := by
  constructor
  · intro h
    by_contra hc
    rw [not_or] at hc
    by_cases han : a < n
    · have hk := h (n - a) (by omega)
      rw [wrap64] at hk
      omega
    · have hk := h 0 (by omega)
      rw [wrap64] at hk
      omega
  · rintro (h | h) k hk
    · omega
    · rw [wrap64_of_lt (by omega)]
      omega

namespace ElfImage

/-- `P` of every header that the loop reaches, for `k` headers from the `i`-th on. -/
def EachReached (img : ElfImage) (P : Nat → Prop) : Nat → Nat → Prop
  | 0, _ => True
  | k + 1, i => P i ∧ ((img.pType i = PT_LOAD → img.Accepts i) → img.EachReached P k (i + 1))

theorem segsOk_succ (img : ElfImage) (k i : Nat) :
    img.segsOk (k + 1) i = true ↔
      (img.pType i = PT_LOAD → img.Accepts i) ∧ img.segsOk k (i + 1) = true := by
  rw [segsOk, Bool.and_eq_true, Bool.or_eq_true, decide_eq_true_eq, decide_eq_true_eq, Accepts]
  by_cases ht : img.pType i = PT_LOAD <;> simp [ht]

theorem eachReached_iff (img : ElfImage) (P : Nat → Prop) (k i : Nat) :
    img.EachReached P k i ↔ ∀ c, c < k → img.segsOk c i = true → P (i + c) := by
  induction k generalizing i with
  | zero => simp [EachReached]
  | succ k ih =>
    rw [EachReached, ih]
    constructor
    · rintro ⟨h₀, hs⟩ c hc hok
      cases c with
      | zero => exact h₀
      | succ c =>
        obtain ⟨ha, hok'⟩ := (img.segsOk_succ c i).1 hok
        have hh := hs ha c (by omega) hok'
        rwa [Nat.add_right_comm] at hh
    · intro h
      refine ⟨h 0 (by omega) rfl, ?_⟩
      intro ha c hc hok
      have hh := h (c + 1) (by omega) ((img.segsOk_succ c i).2 ⟨ha, hok⟩)
      rwa [← Nat.add_assoc, Nat.add_right_comm] at hh

/-- The header and the file part of the segment lie in the file. -/
def HeaderInside (img : ElfImage) (sz i : Nat) : Prop :=
  img.phdr i + 4 ≤ sz ∧ (img.pType i = PT_LOAD → img.phdr i + 48 ≤ sz ∧
    (img.Accepts i → img.pFilesz i = 0 ∨ img.pOffset i + img.pFilesz i ≤ sz))

/-- The file part of an accepted segment ends inside the code page. -/
def CopyInside (img : ElfImage) (i : Nat) : Prop :=
  img.pType i = PT_LOAD → img.Accepts i →
    img.pFilesz i = 0 ∨ img.segOff i + img.pFilesz i ≤ PGSIZE

end ElfImage

section Spans
variable {img : ElfImage} {sz : Nat}

theorem phdr_lt (img : ElfImage) (i : Nat) : img.phdr i < 2 ^ 64 := Nat.mod_lt _ (by decide)

/-- The header fields at the front of a turn. -/
theorem inside_turn (hsz : sz < 2 ^ 64) :
    Inside [(56, 2), (32, 8), (54, 2), (img.phdr i, 4)] sz ↔ 58 ≤ sz ∧ img.phdr i + 4 ≤ sz := by
  have h56 : 56 < 2 ^ 64 := by decide
  have h32 : 32 < 2 ^ 64 := by decide
  have h54 : 54 < 2 ^ 64 := by decide
  simp only [inside_cons, span_lt_iff h56 hsz, span_lt_iff h32 hsz, span_lt_iff h54 hsz,
    span_lt_iff (phdr_lt img i) hsz, inside_nil, and_true]
  omega

theorem inside_load (hsz : sz ≤ 32768) (h : img.phdr i + 4 ≤ sz) :
    Inside [(img.phdr i + 16, 8), (img.phdr i + 40, 8)] sz ↔ img.phdr i + 48 ≤ sz := by
  have hlt : sz < 2 ^ 64 := by omega
  have h16 : img.phdr i + 16 < 2 ^ 64 := by omega
  have h40 : img.phdr i + 40 < 2 ^ 64 := by omega
  simp only [inside_cons, span_lt_iff h16 hlt, span_lt_iff h40 hlt, inside_nil, and_true]
  omega

theorem inside_file (hsz : sz ≤ 32768) (h : img.phdr i + 48 ≤ sz) :
    Inside [(img.phdr i + 8, 8), (img.phdr i + 32, 8), (img.pOffset i, img.pFilesz i)] sz ↔
      img.pFilesz i = 0 ∨ img.pOffset i + img.pFilesz i ≤ sz := by
  have hlt : sz < 2 ^ 64 := by omega
  have h8 : img.phdr i + 8 < 2 ^ 64 := by omega
  have h32 : img.phdr i + 32 < 2 ^ 64 := by omega
  simp only [inside_cons, span_lt_iff h8 hlt, span_lt_iff h32 hlt,
    span_lt_iff (img.pOffset_lt i) hlt, inside_nil, and_true]
  omega

/-- The reads of the loop. -/
theorem runSegs_reads (img : ElfImage) (code : Nat) (hsz : sz ≤ 32768) :
    Inside (runSegs img code k i m).reads sz ↔
      58 ≤ sz ∧ img.EachReached (img.HeaderInside sz) k i := by
  have hlt : sz < 2 ^ 64 := by omega
  induction k generalizing i m with
  | zero =>
    rw [runSegs, inside_cons, span_lt_iff (by decide) (by omega)]
    simp [ElfImage.EachReached]
  | succ k ih =>
    rw [runSegs, ElfImage.EachReached, ElfImage.HeaderInside]
    dsimp only
    by_cases ht : img.pType i = PT_LOAD
    · rw [if_neg (not_not.2 ht)]
      by_cases ha : img.Accepts i
      · rw [if_neg (Nat.not_lt.2 ha)]
        simp only [ElfRun.read, inside_append, inside_turn hlt, ih, ht, ha,
          true_implies]
        constructor
        · rintro ⟨⟨⟨⟨h₁, h₂⟩, h₃⟩, h₄⟩, _, h₅⟩
          have h₃' := (inside_load hsz h₂).1 h₃
          exact ⟨h₁, ⟨h₂, h₃', (inside_file hsz h₃').1 h₄⟩, h₅⟩
        · rintro ⟨h₁, ⟨h₂, h₃, h₄⟩, h₅⟩
          exact ⟨⟨⟨⟨h₁, h₂⟩, (inside_load hsz h₂).2 h₃⟩, (inside_file hsz h₃).2 h₄⟩, h₁, h₅⟩
      · rw [if_pos (Nat.not_le.1 ha)]
        simp only [inside_append, inside_turn hlt, ht, ha, true_implies,
          false_implies, and_true]
        constructor
        · rintro ⟨⟨h₁, h₂⟩, h₃⟩
          exact ⟨h₁, h₂, (inside_load hsz h₂).1 h₃⟩
        · rintro ⟨h₁, h₂, h₃⟩
          exact ⟨⟨h₁, h₂⟩, (inside_load hsz h₂).2 h₃⟩
    · rw [if_pos ht]
      simp only [ElfRun.read, inside_append, inside_turn hlt, ih, ht,
        false_implies, and_true, true_implies]
      constructor
      · rintro ⟨⟨h₁, h₂⟩, _, h₃⟩
        exact ⟨h₁, h₂, h₃⟩
      · rintro ⟨h₁, h₂, h₃⟩
        exact ⟨⟨h₁, h₂⟩, h₁, h₃⟩

theorem segOff_lt (img : ElfImage) (i : Nat) : img.segOff i < 2 ^ 64 := Nat.mod_lt _ (by decide)

/-- The writes of the loop. -/
theorem runSegs_writes (img : ElfImage) (code : Nat) :
    Inside (runSegs img code k i m).writes PGSIZE ↔ img.EachReached img.CopyInside k i := by
  have hpage : PGSIZE < 2 ^ 64 := by decide
  induction k generalizing i m with
  | zero => simp [runSegs, ElfImage.EachReached]
  | succ k ih =>
    rw [runSegs, ElfImage.EachReached, ElfImage.CopyInside]
    dsimp only
    by_cases ht : img.pType i = PT_LOAD
    · rw [if_neg (not_not.2 ht)]
      by_cases ha : img.Accepts i
      · rw [if_neg (Nat.not_lt.2 ha)]
        simp only [inside_cons, span_lt_iff (segOff_lt img i) hpage, ih, ht, ha, true_implies]
      · rw [if_pos (Nat.not_le.1 ha)]
        simp [ht, ha]
    · rw [if_pos ht]
      simp [ElfRun.read, ih, ht]

end Spans

/-- `load_elf` reads inside the file, writes inside the code page, and answers 0 only for
segments that lie in the code page and are not larger in the file than in memory. -/
structure ElfSafe (img : ElfImage) (sz code : Nat) (m : Mem) : Prop where
  reads : Inside (runElf img code m).reads sz
  writes : Inside (runElf img code m).writes PGSIZE
  segs : (runElf img code m).ret = 0 → ∀ i, i < img.phnum → img.pType i = PT_LOAD →
    USERVA ≤ img.pVaddr i ∧ img.pVaddr i + img.pMemsz i ≤ USERVA + PGSIZE ∧
      img.pFilesz i ≤ img.pMemsz i

/-- What a file has to be like for the checks that `load_elf` does not make. -/
structure ElfImage.Contained (img : ElfImage) (sz : Nat) : Prop where
  ident : img.identLen ≤ sz
  header : img.magic = true → 58 ≤ sz
  reached : img.magic = true → ∀ i, i < img.phnum → img.segsOk i 0 = true →
    img.HeaderInside sz i ∧ img.CopyInside i
  whole : img.loads = true → ∀ i, i < img.phnum → img.pType i = PT_LOAD →
    img.segOff i + img.pMemsz i < 2 ^ 64 ∧ img.pFilesz i ≤ img.pMemsz i

section Safe
variable {img : ElfImage} {sz code : Nat} {m : Mem}

theorem ElfImage.segsOk_accepts (h : img.segsOk k i = true) (hc : c < k)
    (ht : img.pType (i + c) = PT_LOAD) : img.Accepts (i + c) := by
  induction k generalizing i c with
  | zero => omega
  | succ k ih =>
    obtain ⟨ha, hok⟩ := (img.segsOk_succ k i).1 h
    cases c with
    | zero => exact ha ht
    | succ c =>
      have he : i + (c + 1) = i + 1 + c := by omega
      rw [he] at ht ⊢
      exact ih hok (by omega) ht

theorem ElfImage.accepts_of_loads (hl : img.loads = true) (hi : i < img.phnum)
    (ht : img.pType i = PT_LOAD) : img.Accepts i := by
  rw [loads, Bool.and_eq_true] at hl
  have hh := segsOk_accepts (i := 0) hl.2 hi (by rwa [Nat.zero_add])
  rwa [Nat.zero_add] at hh

/-- For an accepted segment, lying in the code page means that the sum does not wrap. -/
theorem ElfImage.Accepts.inPage_iff (h : img.Accepts i) :
    USERVA ≤ img.pVaddr i ∧ img.pVaddr i + img.pMemsz i ≤ USERVA + PGSIZE ↔
      img.segOff i + img.pMemsz i < 2 ^ 64 := by
  have hpage : PGSIZE = 4096 := rfl
  have huser : USERVA = 4096 := rfl
  rw [Accepts] at h
  constructor
  · rintro ⟨h₁, h₂⟩
    rw [img.segOff_of_ge h₁]
    omega
  · intro hlt
    rw [wrap64_of_lt hlt] at h
    by_cases hlow : USERVA ≤ img.pVaddr i
    · rw [img.segOff_of_ge hlow] at h
      omega
    · rw [img.segOff_of_lt (by omega)] at h
      omega

theorem runElf_ret (img : ElfImage) (code : Nat) (m : Mem) :
    (runElf img code m).ret = 0 ↔ img.loads = true := by
  rw [(runElf_eq img code m).1, loadElf_fst]
  cases img.loads <;> simp

theorem runElf_reads (hsz : sz ≤ 32768) :
    Inside (runElf img code m).reads sz ↔ img.identLen ≤ sz ∧
      (img.magic = true → 58 ≤ sz ∧ ∀ i, i < img.phnum → img.segsOk i 0 = true →
        img.HeaderInside sz i) := by
  have hid : img.identLen ≠ 0 := by
    rw [ElfImage.identLen]
    split <;> [skip; split <;> [skip; split]] <;> decide
  have hlt : sz < 2 ^ 64 := by omega
  have h0 : 0 < 2 ^ 64 := by decide
  have h24 : 24 < 2 ^ 64 := by decide
  rw [runElf]
  split
  · rename_i hm
    simp only [ElfRun.read, inside_append, inside_cons, inside_nil, runSegs_reads img code hsz,
      span_lt_iff h0 hlt, span_lt_iff h24 hlt, img.eachReached_iff, hm, true_implies]
    simp only [Nat.zero_add]
    constructor
    · rintro ⟨⟨h₁, _⟩, h₂⟩
      exact ⟨h₁.resolve_left hid, h₂⟩
    · rintro ⟨h₁, h₂⟩
      exact ⟨⟨.inr h₁, .inr (by omega), trivial⟩, h₂⟩
  · rename_i hm
    rw [inside_cons, span_lt_iff h0 hlt]
    simp [hid, hm]

theorem runElf_writes : Inside (runElf img code m).writes PGSIZE ↔
    (img.magic = true → ∀ i, i < img.phnum → img.segsOk i 0 = true → img.CopyInside i) := by
  rw [runElf]
  split
  · rename_i hm
    simp only [ElfRun.read, runSegs_writes, img.eachReached_iff, Nat.zero_add, hm, true_implies]
  · rename_i hm
    simp [hm]

theorem ElfSafe.contained (h : ElfSafe img sz code m) (hsz : sz ≤ 32768) : img.Contained sz := by
  obtain ⟨hid, hr⟩ := (runElf_reads hsz).1 h.reads
  have hw := runElf_writes.1 h.writes
  refine ⟨hid, fun hm => (hr hm).1, fun hm i hi hok => ⟨(hr hm).2 i hi hok, hw hm i hi hok⟩, ?_⟩
  intro hl i hi ht
  have ha := ElfImage.accepts_of_loads hl hi ht
  obtain ⟨h₁, h₂, h₃⟩ := h.segs ((runElf_ret img code m).2 hl) i hi ht
  exact ⟨ha.inPage_iff.1 ⟨h₁, h₂⟩, h₃⟩

theorem ElfImage.Contained.safe (h : img.Contained sz) (hsz : sz ≤ 32768) (code : Nat) (m : Mem) :
    ElfSafe img sz code m := by
  refine ⟨?_, ?_, ?_⟩
  · exact (runElf_reads hsz).2
      ⟨h.ident, fun hm => ⟨h.header hm, fun i hi hok => (h.reached hm i hi hok).1⟩⟩
  · exact runElf_writes.2 fun hm i hi hok => (h.reached hm i hi hok).2
  · intro hret i hi ht
    have hl := (runElf_ret img code m).1 hret
    have ha := ElfImage.accepts_of_loads hl hi ht
    obtain ⟨h₁, h₂⟩ := h.whole hl i hi ht
    obtain ⟨h₃, h₄⟩ := ha.inPage_iff.2 h₁
    exact ⟨h₃, h₄, h₂⟩

end Safe

/-- `load_elf` stays inside its buffers exactly for the files that need none of the missing
checks. -/
theorem elfSafe_iff (img : ElfImage) (code : Nat) (m : Mem) (hsz : sz ≤ 32768) :
    ElfSafe img sz code m ↔ img.Contained sz :=
  ⟨fun h => h.contained hsz, fun h => h.safe hsz code m⟩

theorem elfSafe_iff_tinyElf :
    120 ≤ 32768 ∧ (ElfSafe (tinyElf 16 0 32) 120 0x80300 (fun _ => Page.zero) ↔
      (tinyElf 16 0 32).Contained 120) :=
  ⟨by decide, elfSafe_iff (tinyElf 16 0 32) 0x80300 (fun _ => Page.zero) (by decide)⟩

/-- A segment with 8192 bytes in the file and none in memory passes the check. -/
theorem not_elfSafe_tinyElf :
    ¬ ElfSafe (tinyElf 0 32 0) 120 0x80300 (fun _ => Page.zero) := by
  intro h
  have hc := (h.contained (by decide)).whole (by decide) 0 (by decide) (by decide)
  exact absurd hc.2 (by decide)

end KernelHobby
