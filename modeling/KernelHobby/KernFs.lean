import KernelHobby.FsPage
import KernelHobby.VmRoom

namespace KernelHobby
set_option autoImplicit true

/-- The entry that a lookup finds under a name. -/
def Fs.lookup (s : Fs) (name : CStr) : Option FsDirent :=
  if s.mounted then (findName s name).map s.dir else none

theorem fsStat_lookup (s : Fs) (name : CStr) :
    fsStat s name = (s.lookup name).map fun e => (e.start, e.size) := by
  rw [fsStat, Fs.lookup]
  cases s.mounted with
  | false => rfl
  | true =>
    rw [Bool.not_true, if_neg Bool.false_ne_true, if_pos rfl]
    cases findName s name with
    | none => rfl
    | some i => rfl

/-- The entry of a file, from the map that the file system stands for. -/
theorem Fs.lookup_map {s : Fs} {name : FileName} (hm : s.mounted = true)
    (h : s.map name = some bytes) : ∃ e, s.lookup name.1 = some e ∧ contents s.disk e = bytes := by
  obtain ⟨i, hi, he⟩ := Option.map_eq_some_iff.1 h
  refine ⟨s.dir i, ?_, he⟩
  rw [Fs.lookup, if_pos hm, hi]
  rfl

/-- A fault of process `p` at `va` comes to `fs_read_page`. -/
def Kern.LoadsFile (k : Kern) (p : Slot) (va : Nat) (store : Bool) : Prop :=
  let q := k.proc p
  let a := va / PGSIZE * PGSIZE
  (store = true → k.phys.cowEntry q.pagetable a = none) ∧ ¬ (HEAPBASE ≤ a ∧ a < q.heapTop) ∧
    q.mmapBase ≠ 0 ∧ q.mmapBase ≤ a ∧ a < q.mend ∧ k.phys.kalloc.1 ≠ 0

instance : Decidable (Kern.LoadsFile k p va store) := inferInstanceAs (Decidable (_ ∧ _))

/-- What the processes do with the data of a mapped file. -/
def Kern.Act.takesFile : Kern.Act → Bool
  | .mmap _ | .fault _ _ _ => true
  | _ => false

/-- The processes and the file system. -/
structure KernFs where
  kern : Kern
  fs : Fs

namespace KernFs

/-- The calls that take something from the file system, or change it, and the others. The file that
`proc_exec` has read comes with the call. -/
inductive Act where
  | mmap (p : Slot) (path : CStr)
  | fault (p : Slot) (va : Nat) (store : Bool)
  | create (name : CStr) (data : Nat → UInt8) (size : Int32)
  | delete (name : CStr)
  | call (p : Slot) (a : Kern.Act) (h : a.takesFile = false)

/-- `fs_read_page` for the page of `va` of the mapped file, into the page that `kalloc` returns. -/
def readPage (s : KernFs) (p : Slot) (va : Nat) : Fs × Page :=
  let q := s.kern.proc p
  let (n, t) := s.kern.phys.kalloc
  fsReadPage s.fs (UInt32.ofNat q.mmapStart) (UInt32.ofNat q.mmapSize)
    (UInt32.ofNat (va / PGSIZE * PGSIZE - q.mmapBase)) (t.mem n)

/-- The part of a call that is the processes', with what it has from the file system. -/
def toKern (s : KernFs) : Act → Option (Slot × Kern.Act)
  | .mmap p path => some (p, .mmap (fsStat s.fs path))
  | .fault p va store => some (p, .fault va store (s.readPage p va).2)
  | .call p a _ => some (p, a)
  | .create _ _ _ | .delete _ => none

/-- The file system after a call. -/
def fsAfter (s : KernFs) : Act → Fs
  | .fault p va store => if s.kern.LoadsFile p va store then (s.readPage p va).1 else s.fs
  | .create name data size => (fsCreate s.fs name data size).1
  | .delete name => (fsDelete s.fs name).1
  | .mmap _ _ | .call _ _ _ => s.fs

def step (L : Layout) (s : KernFs) (a : Act) : Option KernFs :=
  match s.toKern a with
  | some (p, b) => (s.kern.step L p b).map fun k => ⟨k, s.fsAfter a⟩
  | none => some ⟨s.kern, s.fsAfter a⟩

def run (L : Layout) (s : KernFs) : List Act → Option KernFs
  | [] => some s
  | a :: as =>
    match s.step L a with
    | some s' => run L s' as
    | none => none

/-- `P` holds of every step of a run. -/
def Throughout (L : Layout) (P : KernFs → Act → Prop) (s : KernFs) : List Act → Prop
  | [] => True
  | a :: as => P s a ∧ ∀ s', s.step L a = some s' → Throughout L P s' as

def Tame (s : KernFs) (a : Act) : Prop :=
  ∀ p b, s.toKern a = some (p, b) → KernelHobby.Tame s.kern p b

section Steps
variable {L : Layout} {s s' : KernFs} {p : Slot}

/-- A fault changes the buffer of the disk only. -/
theorem fsAfter_fault (hf : s.fs.faults = []) :
    ∃ b, s.fsAfter (.fault p va store) = { s.fs with fsbuf := b } := by
  rw [fsAfter]
  split
  · exact fsReadPageLoop_fs hf
  · exact ⟨s.fs.fsbuf, rfl⟩

/-- A step is one of the processes, or of the file system alone. -/
theorem step_some (hs : s.step L a = some s') :
    s.toKern a = none ∧ s'.kern = s.kern ∨
      ∃ q b, s.toKern a = some (q, b) ∧ s.kern.step L q b = some s'.kern := by
  rw [step] at hs
  cases ht : s.toKern a with
  | none =>
    rw [ht] at hs
    cases hs
    exact .inl ⟨rfl, rfl⟩
  | some qb =>
    obtain ⟨q, b⟩ := qb
    rw [ht] at hs
    obtain ⟨k, hk, rfl⟩ := Option.map_eq_some_iff.1 hs
    exact .inr ⟨q, b, rfl, hk⟩

theorem step_fs (hs : s.step L a = some s') : s'.fs = s.fsAfter a := by
  rw [step] at hs
  cases ht : s.toKern a with
  | none =>
    rw [ht] at hs
    cases hs
    rfl
  | some qb =>
    rw [ht] at hs
    obtain ⟨k, _, rfl⟩ := Option.map_eq_some_iff.1 hs
    rfl

end Steps

end KernFs

end KernelHobby
