import KernelHobby.MmapFile

namespace KernelHobby
set_option autoImplicit true

namespace KernFs
variable {L : Layout} {s s' : KernFs} {g : Ghost} {p : Slot} {name : FileName} {e : FsDirent}
  {bytes : List UInt8}

/-- The mapped file is not deleted, and the heap of `p` does not reach the pages of it. -/
def Spares (p : Slot) (name : FileName) (s : KernFs) : Act → Prop
  | .create other _ _ => other.bytes.length < NAMELEN
  | .delete other => other.bytes.length < NAMELEN ∧ other ≠ name
  | .call q (.sbrk n) _ => q = p → 0 < n.toInt →
      (s.kern.proc p).heapTop + n.toInt.toNat ≤ MMAPBASE
  | _ => True

/-- What is loaded from a file that is still listed is what it had. -/
theorem loads_listed (h : Listed s.fs name e bytes) (hlow : (s.kern.proc p).heapTop ≤ MMAPBASE)
    (a : Act) : Loads p e bytes s a := by
  cases a with
  | fault q va store =>
    intro _ i hi _ _
    refine ⟨?_, h.good.wf.faults, fun j _ hj => ?_⟩
    · rw [hi]
      exact Nat.le_trans hlow (Nat.le_add_right _ _)
    · rw [← h.contents] at hj ⊢
      rw [contents_length] at hj
      exact (contents_getD _ hj).symm
  | _ => trivial

theorem listed_after (h : Listed s.fs name e bytes) (hsp : Spares p name s a) :
    Listed (s.fsAfter a) name e bytes := by
  cases a with
  | mmap q path => exact h
  | fault q va store =>
    obtain ⟨b, hb⟩ := fsAfter_fault (p := q) (s := s) h.good.wf.faults
    rw [hb]
    exact ⟨⟨⟨h.good.wf.faults, h.good.wf.mem, h.good.wf.disk⟩, h.good.rep, h.good.names⟩, h.entry,
      h.named, h.contents⟩
  | create other data size => exact h.create ⟨other, hsp⟩ data size
  | delete other =>
    have hne : (⟨other, hsp.1⟩ : FileName) ≠ name := fun he => hsp.2 (congrArg Subtype.val he)
    exact h.delete hne
  | call q a ha => exact h

/-- A step by which the heap of `p` does not come to the mapped files. -/
theorem low_after (h : Showing s.kern g p e bytes) (hk : VmInv L s.kern g)
    (hlow : (s.kern.proc p).heapTop ≤ MMAPBASE) (ht : s.Tame a) (hst : Stays p s a)
    (hsp : Spares p name s a) (hs : s.step L a = some s') :
    (s'.kern.proc p).heapTop ≤ MMAPBASE := by
  rcases step_some hs with ⟨_, hsame⟩ | ⟨q, b, hb, hstep⟩
  · rw [hsame]
    exact hlow
  · obtain ⟨g', _, hm⟩ := hk.move (ht q b hb) hstep
    by_cases hq : p = q
    · subst hq
      have hexec (img : ElfImage) (he : b = .exec (some img)) : img.loads = false := by
        subst he
        cases a with
        | call r c hc =>
          cases hb
          exact (hst rfl).2 img rfl
        | mmap => cases hb
        | fault => cases hb
        | create => cases hb
        | delete => cases hb
      rcases hm.heapTop h.run hexec with he | ⟨n, rfl, hn, he⟩
      · rw [he]
        exact hlow
      · have hle : (s.kern.proc p).heapTop + n.toInt.toNat ≤ MMAPBASE := by
          cases a with
          | call r c hc =>
            cases hb
            exact hsp rfl hn
          | mmap => cases hb
          | fault => cases hb
          | create => cases hb
          | delete => cases hb
        rw [he, wrap64_of_lt (Nat.lt_of_le_of_lt hle (by decide))]
        exact hle
    · rw [(hm.elsewhere hq h.run).2]
      exact hlow

/-- The mapped file of a run that spares it. -/
theorem run_listed (h : Showing s.kern g p e bytes) (hk : VmInv L s.kern g)
    (hf : Listed s.fs name e bytes) (hlow : (s.kern.proc p).heapTop ≤ MMAPBASE)
    (ht : s.Throughout L Tame as) (hst : s.Throughout L (Stays p) as)
    (hsp : s.Throughout L (Spares p name) as) : s.Throughout L (Loads p e bytes) as := by
  induction as generalizing s g with
  | nil => trivial
  | cons a as ih =>
    have hl := loads_listed hf hlow a
    have hlen : bytes.length = e.size.toNat := by
      rw [← hf.contents]
      exact contents_length _ e
    refine ⟨hl, fun s₁ hs => ?_⟩
    obtain ⟨g₁, hk₁, h₁⟩ := step_showing h hk hlen ht.1 hst.1 hl hs
    have hf₁ := listed_after hf hsp.1
    rw [← step_fs hs] at hf₁
    exact ih h₁ hk₁ hf₁ (low_after h hk hlow ht.1 hst.1 hsp.1 hs) (ht.2 s₁ hs) (hst.2 s₁ hs)
      (hsp.2 s₁ hs)

end KernFs

theorem Listed.lookup {s : Fs} {name : FileName} (h : Listed s name e bytes) :
    s.lookup name = some e := by
  obtain ⟨i, hi, hdir⟩ := h.entry
  have hname := h.named
  rw [← hdir] at hname
  have hm : s.mounted = true := h.good.wf.mem.mounted
  rw [Fs.lookup, if_pos hm, (findName_some h.good.names name.2).2 ⟨hi, hname⟩, Option.map_some, hdir]

open KernFs in
/-- A mapped file is seen as it was as long as it is not deleted and the heap does not reach it,
whatever other files are created and deleted. -/
theorem mmap_shows_kept_file {s s₁ s' : KernFs} {name : FileName} (hr : TameReach L s.kern)
    (hf : Listed s.fs name e bytes) (hc : s.kern.Clean p bytes)
    (hlow : (s.kern.proc p).heapTop ≤ MMAPBASE) (hm : s.Tame (.mmap p name))
    (hs : s.step L (.mmap p name) = some s₁) (ht : s₁.Throughout L KernFs.Tame as)
    (hst : s₁.Throughout L (Stays p) as) (hsp : s₁.Throughout L (Spares p name) as)
    (hrun : s₁.run L as = some s') : s'.kern.Shows p bytes := by
  obtain ⟨g, hk⟩ := hr.inv
  obtain ⟨hk₁, h₁, he⟩ := step_mmap hk hf.lookup hc hm hs
  have hlen : bytes.length = e.size.toNat := by
    rw [← hf.contents]
    exact contents_length _ e
  have hf₁ : Listed s₁.fs name e bytes := by
    rw [step_fs hs]
    exact hf
  have hlow₁ : (s₁.kern.proc p).heapTop ≤ MMAPBASE := by
    rw [he, Kern.procMmap_heapTop]
    exact hlow
  have hl := run_listed h₁ hk₁ hf₁ hlow₁ ht hst hsp
  obtain ⟨g', hk', h'⟩ := run_showing h₁ hk₁ hlen ht hst hl hrun
  exact h'.shows hk'

end KernelHobby
