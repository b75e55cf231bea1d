import KernelHobby.FsAgree
import KernelHobby.FsDurable
import KernelHobby.FsPage

namespace KernelHobby
set_option autoImplicit true

/-- A string constant of the source. -/
def ascii (m : List Char) : List UInt8 := m.map Char.toUInt8

/-- `puts` of a user program: a `SYS_putchar` for each character. -/
def Fs.say (s : Fs) (m : List UInt8) : Fs := { s with uart := s.uart ++ m.map .putc }

/-- `copy_path`: the string at a user address, cut to `max - 1` bytes. -/
def copyPath (u : Nat → UInt8) (max : Nat) : CStr where
  bytes := cstrBytes (max - 1) u
  noNul := by
    generalize max - 1 = n
    induction n generalizing u with
    | zero => exact List.not_mem_nil
    | succ n ih =>
      rw [cstrBytes]
      split
      · exact List.not_mem_nil
      · rename_i h
        exact List.not_mem_cons_of_ne_of_not_mem (Ne.symm h) (ih fun k => u (k + 1))

/-- `SYS_create`: the name, and the text up to its NUL. -/
def sysCreate (s : Fs) (a0 a1 : Nat → UInt8) : Fs × Int :=
  let data := (copyPath a1 256).bytes
  fsCreate s (copyPath a0 64) (fun k => data.getD k 0) (Int32.ofNat data.length)

def sysRm (s : Fs) (a0 : Nat → UInt8) : Fs × Int := fsDelete s (copyPath a0 64)

def sysCat (s : Fs) (a0 : Nat → UInt8) : Fs := fsCat s (copyPath a0 64)

def LsOut.out : LsOut → List UartOut
  | .text s => [.puts s]
  | .name b => putsChars b
  | .dec n => [.dec n]

def sysLs (s : Fs) : Fs := { s with uart := s.uart ++ (fsLs s).flatMap LsOut.out }

/-- `startswith` of the shell. -/
def startswith (s : Nat → UInt8) : List UInt8 → Bool
  | [] => true
  | c :: p => if s 0 ≠ c then false else startswith (fun k => s (k + 1)) p

/-- `while (*sp && *sp != ' ') sp++` -/
def wordEnd (p : Nat → UInt8) : Nat → Nat → Nat
  | 0, i => i
  | n + 1, i => if p i ≠ 0 ∧ p i ≠ 32 then wordEnd p n (i + 1) else i

/-- `while (*sp) sp++` -/
def strEnd (p : Nat → UInt8) : Nat → Nat → Nat
  | 0, i => i
  | n + 1, i => if p i ≠ 0 then strEnd p n (i + 1) else i

def LINESZ : Nat := 128

def helpText : List UInt8 :=
  ascii ("builtins: ls, cat <file>, write <file> <text>, rm <file>, mem, help." ++
    "  others = disk programs.\n").toList

def noSuchFile : List UInt8 := ascii "rm: no such file\n".toList

def writeFailed : List UInt8 := ascii "write: failed (exists? full?)\n".toList

/-- The `write` command, from the 6th character of the line on. -/
def shellWrite (s : Fs) (arg : Nat → UInt8) : Fs × (Nat → UInt8) :=
  let i := wordEnd arg (LINESZ - 6) 0
  let (arg, sp) :=
    if arg i = 32 then (Function.update arg i 0, i + 1) else (arg, strEnd arg (LINESZ - 6) 0)
  let (s, r) := sysCreate s arg fun k => arg (sp + k)
  (if r ≠ 0 then s.say writeFailed else s, arg)

/-- What the shell does with a line, `none` for `mem`, `tcp` and the programs on the disk. -/
def shellLine (s : Fs) (line : Nat → UInt8) : Option (Fs × (Nat → UInt8)) :=
  if line 0 = 0 then some (s, line)
  else if streq line (ascii ['h', 'e', 'l', 'p']) then some (s.say helpText, line)
  else if startswith line (ascii ['r', 'm', ' ']) then
    let (s, r) := sysRm s fun k => line (3 + k)
    some (if r ≠ 0 then s.say noSuchFile else s, line)
  else if streq line (ascii ['l', 's']) then some (sysLs s, line)
  else if streq line (ascii ['m', 'e', 'm']) then none
  else if streq line (ascii ['t', 'c', 'p']) then none
  else if startswith line (ascii ['c', 'a', 't', ' ']) then
    some (sysCat s fun k => line (4 + k), line)
  else if startswith line (ascii ['w', 'r', 'i', 't', 'e', ' ']) then
    let (s, arg) := shellWrite s fun k => line (6 + k)
    some (s, fun k => if k < 6 then line k else arg (k - 6))
  else none

/-- A turn of the loop of the shell: the prompt, and what `sys_read` has put into the line. -/
def shellTurn (s : Fs) (line : Nat → UInt8) (typed : List UInt8) :
    Option (Fs × (Nat → UInt8)) :=
  let s := s.say (ascii ['$', ' '])
  let n := typed.length
  let line := fun k => if k < n then typed.getD k 0 else line k
  if n = 0 then some (s, line)
  else if line (n - 1) = 10 then shellLine s (Function.update line (n - 1) 0)
  else shellLine s (Function.update line n 0)

def shellSession (s : Fs) (line : Nat → UInt8) : List (List UInt8) → Option (Fs × (Nat → UInt8))
  | [] => some (s, line)
  | t :: ts =>
    match shellTurn s line t with
    | some (s, line) => shellSession s line ts
    | none => none

/-- The commands of the shell for files, as a user means them. -/
inductive Command where
  | blank
  | help
  | ls
  | rm (name : FileName)
  | cat (name : FileName)
  | write (name : FileName) (text : Option (List UInt8))

namespace Command

/-- The line to type; `write` without a text makes an empty file. -/
def line : Command → List UInt8
  | .blank => []
  | .help => ascii ['h', 'e', 'l', 'p']
  | .ls => ascii ['l', 's']
  | .rm name => ascii ['r', 'm', ' '] ++ name.1.bytes
  | .cat name => ascii ['c', 'a', 't', ' '] ++ name.1.bytes
  | .write name none => ascii ['w', 'r', 'i', 't', 'e', ' '] ++ name.1.bytes
  | .write name (some text) =>
    ascii ['w', 'r', 'i', 't', 'e', ' '] ++ (name.1.bytes ++ 32 :: text)

/-- A name to write has no blank in it. -/
def OneWord : Command → Prop
  | .write name _ => 32 ∉ name.1.bytes
  | _ => True

/-- What can be typed as one line. -/
structure Typable (c : Command) : Prop where
  noNul : 0 ∉ c.line
  oneWord : c.OneWord
  length : c.line.length + 2 ≤ LINESZ

def typed (c : Command) : List UInt8 := c.line ++ [10]

end Command

def lsText (name : List UInt8) (size : Nat) : List UartOut := (lsLine name size).flatMap LsOut.out

/-- What the user sees of a command on a finite map, and the map afterwards. `room` says which
sizes there is room for. -/
inductive FileMap.Shows (M : FileMap) (room : Nat → Prop) :
    Command → List UartOut → FileMap → Prop where
  | blank : Shows M room .blank [] M
  | help : Shows M room .help (helpText.map .putc) M
  | ls (files : List (FileName × List UInt8)) : (files.map Prod.fst).Nodup →
      (∀ name bytes, (name, bytes) ∈ files ↔ M name = some bytes) →
      Shows M room .ls (files.flatMap fun f => lsText f.1.1.bytes f.2.length) M
  | removed : M name ≠ none → Shows M room (.rm name) [] (Function.update M name none)
  | notRemoved : M name = none → Shows M room (.rm name) (noSuchFile.map .putc) M
  | shown : M name = some bytes → Shows M room (.cat name) (bytes.map .putc) M
  | notShown : M name = none →
      Shows M room (.cat name)
        (.puts "cat: no such file: " :: (putsChars name.1.bytes ++ [.putc 10])) M
  | written : M name = none → room (text.getD []).length →
      Shows M room (.write name text) [] (Function.update M name (some (text.getD [])))
  | notWritten : M name ≠ none ∨ ¬ room (text.getD []).length →
      Shows M room (.write name text) (writeFailed.map .putc) M

/-- There is a slot and, for a file that is not empty, a run of free blocks. -/
def Fs.Room (s : Fs) (size : Nat) : Prop :=
  s.nfiles < MAXFILES ∧ (0 < size → ∃ st, FreeRun s st ((size + 511) / 512))

/-- A run of commands, and all that the console has got. -/
inductive ShellRun : Fs → List Command → Fs → Prop where
  | nil : ShellRun s [] s
  | cons : FileMap.Shows s.map s.Room c out s₁.map →
      s₁.uart = s.uart ++ (ascii ['$', ' ']).map .putc ++ out → ShellRun s₁ cs s' →
      ShellRun s (c :: cs) s'

/-- The string `b` with its NUL is at `p`. -/
structure Spells (p : Nat → UInt8) (b : List UInt8) : Prop where
  noNul : 0 ∉ b
  bytes : ∀ k, k ≤ b.length → p k = b.getD k 0

namespace Spells
variable {p : Nat → UInt8} {b : List UInt8}

theorem congr (h : Spells p b) (hq : ∀ k, k ≤ b.length → q k = p k) : Spells q b :=
  ⟨h.noNul, fun k hk => (hq k hk).trans (h.bytes k hk)⟩

theorem end_nul (h : Spells p b) : p b.length = 0 := by
  rw [h.bytes _ (Nat.le_refl _), List.getD_eq_default _ _ (Nat.le_refl _)]

theorem ne_nul (h : Spells p b) (hk : k < b.length) : p k = b[k] ∧ p k ≠ 0 := by
  have he := h.bytes k (Nat.le_of_lt hk)
  rw [List.getD_eq_getElem _ _ hk] at he
  refine ⟨he, fun h0 => h.noNul ?_⟩
  rw [← h0, he]
  exact List.getElem_mem hk

theorem tail (h : Spells p (c :: b)) : p 0 = c ∧ Spells (fun k => p (k + 1)) b := by
  refine ⟨h.bytes 0 (Nat.zero_le _), fun hz => h.noNul (List.mem_cons_of_mem _ hz), fun k hk => ?_⟩
  exact h.bytes (k + 1) (Nat.succ_le_succ hk)

theorem drop (h : Spells p (w ++ b)) : Spells (fun k => p (w.length + k)) b := by
  induction w generalizing p with
  | nil =>
    simp only [List.length_nil, Nat.zero_add]
    exact h
  | cons c w ih =>
    have he : (fun k => p ((c :: w).length + k)) =
        fun k => (fun k => p (k + 1)) (w.length + k) := by
      funext k
      rw [List.length_cons, Nat.add_right_comm]
    rw [he]
    exact ih h.tail.2

theorem startswith (h : Spells p b) (hw : 0 ∉ w) : startswith p w = w.isPrefixOf b := by
  induction w generalizing p b with
  | nil => rfl
  | cons c w ih =>
    obtain ⟨hc, hw⟩ := not_or.1 (List.mem_cons.not.1 hw)
    rw [KernelHobby.startswith]
    cases b with
    | nil =>
      have h0 : p 0 = 0 := h.end_nul
      rw [h0, if_pos hc]
      rfl
    | cons d b =>
      obtain ⟨hd, ht⟩ := h.tail
      rw [hd, List.isPrefixOf_cons_cons, ih ht hw]
      by_cases he : d = c
      · rw [if_neg (fun hne => hne he), he, beq_self_eq_true, Bool.true_and]
      · rw [if_pos he, beq_false_of_ne (Ne.symm he), Bool.false_and]

theorem streq (h : Spells p b) (hw : 0 ∉ w) : streq p w = decide (b = w) := by
  rw [Bool.eq_iff_iff, streq_iff hw, decide_eq_true_iff]
  constructor
  · intro hk
    have hpw : Spells p w := ⟨hw, hk⟩
    have hlen : b.length = w.length := by
      rcases Nat.lt_trichotomy b.length w.length with hlt | heq | hgt
      · exact absurd h.end_nul (hpw.ne_nul hlt).2
      · exact heq
      · exact absurd hpw.end_nul (h.ne_nul hgt).2
    apply List.ext_getElem hlen
    intro k h₁ h₂
    exact (h.ne_nul h₁).1.symm.trans (hpw.ne_nul h₂).1
  · intro he
    rw [← he]
    exact h.bytes

theorem first (h : Spells p b) (hb : b.head? = some a) : p 0 = a ∧ p 0 ≠ 0 := by
  cases b with
  | nil => cases hb
  | cons c b =>
    cases hb
    exact ⟨(h.ne_nul (Nat.succ_pos _)).1, (h.ne_nul (Nat.succ_pos _)).2⟩

/-- A command with another first character. -/
theorem other (h : Spells p b) (hb : b.head? = some a) (hw : 0 ∉ w) (hne : w.head? ≠ some a) :
    KernelHobby.streq p w = false ∧ (w ≠ [] → KernelHobby.startswith p w = false) := by
  rw [h.streq hw, h.startswith hw]
  cases b with
  | nil => cases hb
  | cons d b =>
    cases hb
    cases w with
    | nil => exact ⟨decide_eq_false nofun, fun he => absurd rfl he⟩
    | cons c w =>
      have hc : c ≠ a := fun he => hne (congrArg some he)
      refine ⟨decide_eq_false fun he => hc (List.cons.inj he).1.symm, fun _ => ?_⟩
      rw [List.isPrefixOf_cons_cons, beq_false_of_ne hc, Bool.false_and]

theorem copyPath {name : CStr} (h : Spells p name.bytes) {n : Nat}
    (hl : name.bytes.length < n - 1) : copyPath p n = name := by
  have he : cstrBytes (n - 1) p = name.bytes := cstrBytes_eq h.noNul hl h.bytes
  cases name
  simp only [KernelHobby.copyPath]
  simp only at he
  subst he
  rfl

end Spells

/-- The scan stops at the first character that stops it. -/
theorem wordEnd_eq {p : Nat → UInt8} (hs : p e = 0 ∨ p e = 32)
    (hk : ∀ k, i ≤ k → k < e → p k ≠ 0 ∧ p k ≠ 32) (hi : i ≤ e) (hn : e - i ≤ n) :
    wordEnd p n i = e := by
  induction n generalizing i with
  | zero =>
    rw [wordEnd]
    omega
  | succ n ih =>
    rw [wordEnd]
    rcases Nat.eq_or_lt_of_le hi with rfl | hlt
    · rw [if_neg]
      intro h
      exact hs.elim h.1 h.2
    · rw [if_pos (hk i (Nat.le_refl i) hlt)]
      exact ih (fun k hik => hk k (by omega)) hlt (by omega)

theorem strEnd_eq {p : Nat → UInt8} (hs : p e = 0) (hk : ∀ k, i ≤ k → k < e → p k ≠ 0)
    (hi : i ≤ e) (hn : e - i ≤ n) : strEnd p n i = e := by
  induction n generalizing i with
  | zero =>
    rw [strEnd]
    omega
  | succ n ih =>
    rw [strEnd]
    rcases Nat.eq_or_lt_of_le hi with rfl | hlt
    · rw [if_neg fun h => h hs]
    · rw [if_pos (hk i (Nat.le_refl i) hlt)]
      exact ih (fun k hik => hk k (by omega)) hlt (by omega)

structure ShellOk (s : Fs) : Prop where
  good : FsGood s
  terminated : AllTerminated s.mem

/-- The tables and the disk are as they were. -/
structure SameFiles (s s' : Fs) : Prop where
  mem : s'.mem = s.mem
  disk : s'.disk = s.disk
  faults : s'.faults = s.faults

theorem SameFiles.trans (h : SameFiles s s₁) (h' : SameFiles s₁ s₂) : SameFiles s s₂ :=
  ⟨h'.mem.trans h.mem, h'.disk.trans h.disk, h'.faults.trans h.faults⟩

theorem SameFiles.map (h : SameFiles s s') : s'.map = s.map := by
  have hd : s'.dir = s.dir := congrArg FsMem.dir h.mem
  have hn : s'.nfiles = s.nfiles := congrArg FsMem.nfiles h.mem
  funext name
  have hf : findName s' name.1 = findName s name.1 := by rw [findName, findName, hd, hn]
  rw [Fs.map, Fs.map, hf, hd, h.disk]

theorem SameFiles.room (h : SameFiles s s') : s'.Room = s.Room := by
  have hd : s'.dir = s.dir := congrArg FsMem.dir h.mem
  have hn : s'.nfiles = s.nfiles := congrArg FsMem.nfiles h.mem
  have ht : s'.totalBlocks = s.totalBlocks := congrArg FsMem.totalBlocks h.mem
  funext size
  simp only [Fs.Room, FreeRun, hd, hn, ht]

theorem ShellOk.same (h : ShellOk s) (hs : SameFiles s s') : ShellOk s' where
  good := by
    refine ⟨⟨hs.faults.trans h.good.wf.faults, ?_, ?_⟩, ?_, ?_⟩
    · rw [hs.mem]
      exact h.good.wf.mem
    · rw [hs.disk, hs.mem]
      exact h.good.wf.disk
    · rw [hs.mem]
      exact h.good.rep
    · rw [hs.mem]
      exact h.good.names
  terminated := by
    rw [hs.mem]
    exact h.terminated

theorem ShellOk.invariant (h : ShellOk s) : FsInvariant s.mem :=
  ⟨h.good.wf.mem, h.good.rep, h.terminated⟩

theorem say_same (s : Fs) (m : List UInt8) : SameFiles s (s.say m) := ⟨rfl, rfl, rfl⟩

theorem fsCatLoop_same (s : Fs) (hf : s.faults = []) : SameFiles s (fsCatLoop n s blk r) := by
  induction n generalizing s blk r with
  | zero => exact ⟨rfl, rfl, rfl⟩
  | succ n ih =>
    rw [fsCatLoop]
    split
    · exact ⟨rfl, rfl, rfl⟩
    · have hput (l : List Nat) (s : Fs) :
          SameFiles s (l.foldl (fun s j => s.putc (s.fsbuf.byte j)) s) := by
        induction l generalizing s with
        | nil => exact ⟨rfl, rfl, rfl⟩
        | cons j l ih =>
          have hj : SameFiles s (s.putc (s.fsbuf.byte j)) := ⟨rfl, rfl, rfl⟩
          exact hj.trans (ih _)
      rw [virtioDiskRw_read hf]
      dsimp only
      have hread : SameFiles s { s with fsbuf := s.disk blk.toNat } := ⟨rfl, rfl, rfl⟩
      have hput' := hread.trans (hput (List.range (if (512 : UInt32) < r then 512 else r).toNat) _)
      exact hput'.trans (ih _ (hput'.faults.trans hf))

/-- A command that refuses, or one that changes the tables, says nothing itself. -/
theorem ShellOk.create (h : ShellOk s) (name : FileName) (data : Nat → UInt8) (size : Int32) :
    ShellOk (fsCreate s name data size).1 ∧ (fsCreate s name data size).1.uart = s.uart := by
  rcases (Call.create name.1 data size).exec_inv h.good.wf with he | ⟨_, hc⟩
  · have he' : fsCreate s name data size = (s, -1) := he
    rw [he']
    exact ⟨h, rfl⟩
  · rcases hc with ⟨_, _, _, start, nb, hc, hok, he⟩ | ⟨_, _, hc, _⟩
    · cases hc
      refine ⟨⟨h.good.create hok name.2 he, ?_⟩, he.uart⟩
      have ht := addEntry_terminated h.terminated h.good.wf.mem.nfiles_nonneg hok
      rwa [← he.mem] at ht
    · cases hc

theorem ShellOk.delete (h : ShellOk s) (name : FileName) :
    ShellOk (fsDelete s name).1 ∧ (fsDelete s name).1.uart = s.uart := by
  rcases (Call.delete name.1).exec_inv h.good.wf with he | ⟨_, hc⟩
  · have he' : fsDelete s name = (s, -1) := he
    rw [he']
    exact ⟨h, rfl⟩
  · rcases hc with ⟨_, _, _, _, _, hc, _⟩ | ⟨_, idx, hc, hf, he⟩
    · cases hc
    · cases hc
      refine ⟨⟨h.good.delete (findName_lt hf) he, ?_⟩, he.uart⟩
      have ht := removeEntry_terminated h.terminated (findName_lt hf)
      rwa [← he.mem] at ht

theorem putsName_eq (s : Fs) (name : CStr) :
    s.putsName name = { s with uart := s.uart ++ putsChars name.bytes } := by
  rw [Fs.putsName]
  generalize name.bytes = b
  induction b generalizing s with
  | nil =>
    rw [putsChars, List.flatMap_nil, List.append_nil]
    rfl
  | cons c b ih =>
    rw [List.foldl_cons, ih, putsChars, putsChars, List.flatMap_cons]
    by_cases hc : c = 10
    · simp only [hc, if_true, Fs.putc, List.append_assoc, List.cons_append, List.nil_append]
    · simp only [hc, if_false, Fs.putc, List.append_assoc, List.cons_append, List.nil_append]

theorem ShellOk.cat (h : ShellOk s) (name : FileName) (room : Nat → Prop) :
    SameFiles s (fsCat s name) ∧ ∃ out, (fsCat s name).uart = s.uart ++ out ∧
      FileMap.Shows s.map room (.cat name) out s.map := by
  have hm : s.mounted = true := h.good.wf.mem.mounted
  cases hf : findName s name.1 with
  | none =>
    have he : fsCat s name = ((s.puts "cat: no such file: ").putsName name).putc 10 := by
      simp only [fsCat, hm, hf, Bool.not_true, Bool.false_eq_true, if_false]
    rw [he, putsName_eq]
    refine ⟨⟨rfl, rfl, rfl⟩, _, ?_, .notShown (map_eq_none.2 hf)⟩
    simp only [Fs.putc, Fs.puts, List.append_assoc, List.cons_append, List.nil_append]
  | some i =>
    have he : fsCat s name = fsCatLoop ((s.dir i).size.toNat / BSIZE + 1) s (s.dir i).start
        (s.dir i).size := by
      simp only [fsCat, hm, hf, Bool.not_true, Bool.false_eq_true, if_false]
    refine ⟨?_, _, fsCat_entry hm h.good.wf.faults hf, ?_⟩
    · rw [he]
      exact fsCatLoop_same s h.good.wf.faults
    · have hmap : s.map name = some (contents s.disk (s.dir i)) := by
        rw [Fs.map, hf]
        rfl
      have hout : FileMap.Shows s.map room (.cat name) ((contents s.disk (s.dir i)).map .putc)
          s.map := .shown hmap
      rw [contents, List.map_map] at hout
      exact hout

/-- The name in entry `i`. -/
def ShellOk.name (h : ShellOk s) (i : Fin s.nfiles.toNat) : FileName :=
  ⟨entryStr (s.dir i), (h.terminated i i.isLt).length_lt⟩

theorem ShellOk.name_eq (h : ShellOk s) (i : Fin s.nfiles.toNat) {name : FileName} :
    h.name i = name ↔ Named (s.dir i) name.1.bytes := by
  have hn : Named (s.dir i) (h.name i).1.bytes := (h.terminated i i.isLt).named
  constructor
  · intro he
    rw [← he]
    exact hn
  · exact hn.name_eq

/-- The entries with their files. -/
def ShellOk.listing (h : ShellOk s) : List (FileName × List UInt8) :=
  (List.finRange s.nfiles.toNat).map fun i => (h.name i, contents s.disk (s.dir i))

theorem ShellOk.fsLs (h : ShellOk s) :
    fsLs s = h.listing.flatMap fun f => lsLine f.1.1.bytes f.2.length := by
  have hm : s.mounted = true := h.good.wf.mem.mounted
  rw [KernelHobby.fsLs, hm, listing, List.flatMap_map, ← List.map_coe_finRange_eq_range,
    List.flatMap_map]
  apply List.flatMap_congr
  intro i _
  have hi : i.val < 8 := by
    have hle : s.nfiles ≤ 8 := h.good.wf.mem.nfiles_le
    omega
  have ht : Terminated (s.dir i) := h.terminated i i.isLt
  have hname : cstrBytes (64 * (MAXFILES - i)) (dirName s.dir i) = (h.name i).1.bytes := by
    have hl : (entryName (s.dir i)).length < 56 := ht.length_lt
    apply cstrBytes_eq (h.name i).1.noNul
    · have hmax : MAXFILES = 8 := rfl
      have hl' : (h.name i).1.bytes.length < 56 := hl
      omega
    · intro k hk
      rw [dirName_eq _ _ (Nat.lt_of_le_of_lt hk hl)]
      exact ht.named k _ hk
  rw [hname, contents_length]

theorem ShellOk.ls (h : ShellOk s) (room : Nat → Prop) :
    ∃ out, (sysLs s).uart = s.uart ++ out ∧ FileMap.Shows s.map room .ls out s.map := by
  refine ⟨h.listing.flatMap fun f => lsText f.1.1.bytes f.2.length, ?_, .ls _ ?_ ?_⟩
  · rw [sysLs, h.fsLs, List.flatMap_assoc]
    rfl
  · rw [listing, List.map_map]
    apply (List.nodup_finRange _).map
    intro i j he
    have hj := (h.name_eq j).1 rfl
    have hi : Named (s.dir i) (h.name j).1.bytes := (h.name_eq i).1 he
    exact Fin.ext (h.good.names i j _ i.isLt j.isLt (h.name j).2 hi hj)
  · intro name bytes
    rw [map_eq_some h.good, listing, List.mem_map]
    constructor
    · rintro ⟨i, _, he⟩
      cases he
      exact ⟨i, i.isLt, (h.name_eq i).1 rfl, rfl⟩
    · rintro ⟨i, hi, hn, rfl⟩
      refine ⟨⟨i, hi⟩, List.mem_finRange _, ?_⟩
      rw [(h.name_eq ⟨i, hi⟩).2 hn]

/-- A file of `fs_create` from a text. -/
theorem ShellOk.write (h : ShellOk s) (name : FileName) {text : List UInt8}
    (hl : text.length ≤ 255) :
    let r := fsCreate s name (fun k => text.getD k 0) (Int32.ofNat text.length)
    r.2 = 0 ∧ s.map name = none ∧ s.Room text.length ∧
        r.1.map = Function.update s.map name (some text) ∨
      r = (s, -1) ∧ (s.map name ≠ none ∨ ¬ s.Room text.length) := by
  intro r
  have hsize : (Int32.ofNat text.length).toInt = text.length := by
    rw [Int32.toInt_ofNat_of_lt (by omega)]
  obtain ⟨hzero, _, hfail⟩ := fsCreate_exact h.invariant name.1 (fun k => text.getD k 0)
    (Int32.ofNat text.length)
  have hcan : CanCreate s name (Int32.ofNat text.length) ↔
      s.map name = none ∧ s.Room text.length := by
    rw [map_eq_none, findName_none_iff h.terminated]
    constructor
    · intro hc
      refine ⟨hc.absent, hc.room, fun hp => ?_⟩
      have hs := hc.space (by omega)
      rw [hsize] at hs
      exact hs
    · rintro ⟨habs, hroom, hspace⟩
      refine ⟨by omega, hroom, habs, ?_, fun hp => ?_⟩
      · rw [hsize]
        have hlog : LOGN = 16 := rfl
        omega
      · rw [hsize]
        exact hspace (by omega)
  by_cases hc : CanCreate s name (Int32.ofNat text.length)
  · left
    have hstep := ((Op.create name (fun k => text.getD k 0) (Int32.ofNat text.length)).exec_refines
      h.good).2
    have hs : FileMap.Step s.map (.create name (fun k => text.getD k 0) (Int32.ofNat text.length))
      (.code r.2) r.1.map := hstep
    have hr : r.2 = 0 := hzero.2 hc
    rw [hr] at hs
    obtain ⟨hnone, hroom⟩ := hcan.1 hc
    refine ⟨hr, hnone, hroom, ?_⟩
    generalize r.1.map = M at hs ⊢
    cases hs with
    | created _ _ =>
      have hb : bytesOf (fun k => text.getD k 0) (Int32.ofNat text.length).toInt.toNat = text := by
        rw [hsize, bytesOf, Int.toNat_natCast]
        apply List.ext_getElem
        · rw [List.length_map, List.length_range]
        · intro k h₁ h₂
          rw [List.getElem_map, List.getElem_range, List.getD_eq_getElem _ _ h₂]
      rw [hb]
  · right
    refine ⟨hfail hc, ?_⟩
    rw [hcan, not_and_or] at hc
    exact hc

section Line
variable {s : Fs} {p : Nat → UInt8}

theorem shellLine_help (hp : Spells p (Command.help).line) :
    shellLine s p = some (s.say helpText, p) := by
  have hs : streq p (ascii ['h', 'e', 'l', 'p']) = true := by
    rw [hp.streq (by decide)]
    exact decide_eq_true rfl
  rw [shellLine, if_neg (hp.first rfl).2, hs, if_pos rfl]

/-- `sys_rm` and what the shell says to it. -/
def Fs.removeFile (s : Fs) (name : FileName) : Fs :=
  let (s, r) := fsDelete s name
  if r ≠ 0 then s.say noSuchFile else s

theorem shellLine_rm {name : FileName}
    (hp : Spells p (ascii ['r', 'm', ' '] ++ name.1.bytes)) :
    shellLine s p = some (s.removeFile name, p) := by
  have hd : Spells (fun k => p (3 + k)) name.1.bytes := hp.drop
  rw [shellLine, if_neg (hp.first rfl).2, (hp.other rfl (by decide) (by decide)).1,
    if_neg Bool.false_ne_true, hp.startswith (by decide),
    List.isPrefixOf_iff_prefix.2 (List.prefix_append _ _), if_pos rfl, sysRm,
    hd.copyPath (Nat.lt_of_lt_of_le name.2 (by decide)), Fs.removeFile]

theorem shellLine_ls (hp : Spells p (Command.ls).line) : shellLine s p = some (sysLs s, p) := by
  have hs : streq p (ascii ['l', 's']) = true := by
    rw [hp.streq (by decide)]
    exact decide_eq_true rfl
  rw [shellLine, if_neg (hp.first rfl).2, (hp.other rfl (by decide) (by decide)).1,
    if_neg Bool.false_ne_true, (hp.other rfl (by decide) (by decide)).2 (by decide),
    if_neg Bool.false_ne_true, hs, if_pos rfl]

theorem shellLine_cat {name : FileName}
    (hp : Spells p (ascii ['c', 'a', 't', ' '] ++ name.1.bytes)) :
    shellLine s p = some (fsCat s name, p) := by
  have hd : Spells (fun k => p (4 + k)) name.1.bytes := hp.drop
  have hother {w : List UInt8} (hw : 0 ∉ w) (hne : w.head? ≠ some 99) := hp.other rfl hw hne
  rw [shellLine, if_neg (hp.first rfl).2, (hother (by decide) (by decide)).1,
    if_neg Bool.false_ne_true, (hother (by decide) (by decide)).2 (by decide),
    if_neg Bool.false_ne_true, (hother (by decide) (by decide)).1, if_neg Bool.false_ne_true,
    (hother (by decide) (by decide)).1, if_neg Bool.false_ne_true,
    (hother (by decide) (by decide)).1, if_neg Bool.false_ne_true, hp.startswith (by decide),
    List.isPrefixOf_iff_prefix.2 (List.prefix_append _ _), if_pos rfl, sysCat,
    hd.copyPath (Nat.lt_of_lt_of_le name.2 (by decide))]

theorem shellLine_write {b : List UInt8}
    (hp : Spells p (ascii ['w', 'r', 'i', 't', 'e', ' '] ++ b)) :
    ∃ p', shellLine s p = some ((shellWrite s fun k => p (6 + k)).1, p') := by
  have hother {w : List UInt8} (hw : 0 ∉ w) (hne : w.head? ≠ some 119) := hp.other rfl hw hne
  refine ⟨fun k => if k < 6 then p k else (shellWrite s fun k => p (6 + k)).2 (k - 6), ?_⟩
  rw [shellLine, if_neg (hp.first rfl).2, (hother (by decide) (by decide)).1,
    if_neg Bool.false_ne_true, (hother (by decide) (by decide)).2 (by decide),
    if_neg Bool.false_ne_true, (hother (by decide) (by decide)).1, if_neg Bool.false_ne_true,
    (hother (by decide) (by decide)).1, if_neg Bool.false_ne_true,
    (hother (by decide) (by decide)).1, if_neg Bool.false_ne_true,
    (hother (by decide) (by decide)).2 (by decide), if_neg Bool.false_ne_true,
    hp.startswith (by decide), List.isPrefixOf_iff_prefix.2 (List.prefix_append _ _), if_pos rfl]

/-- `sys_create` and what the shell says to it. -/
def Fs.writeFile (s : Fs) (name : FileName) (text : List UInt8) : Fs :=
  let (s, r) := fsCreate s name (fun k => text.getD k 0) (Int32.ofNat text.length)
  if r ≠ 0 then s.say writeFailed else s

/-- The scan for the end of the name. -/
theorem Spells.wordEnd {b n : List UInt8} (hp : Spells p (n ++ b)) (hn : 32 ∉ n)
    (hl : n.length ≤ fuel) (hs : p n.length = 0 ∨ p n.length = 32) :
    wordEnd p fuel 0 = n.length := by
  apply wordEnd_eq hs _ (Nat.zero_le _) hl
  intro k _ hk
  have hk' : k < (n ++ b).length := by
    rw [List.length_append]
    exact Nat.lt_add_right _ hk
  obtain ⟨he, h0⟩ := hp.ne_nul hk'
  refine ⟨h0, fun h32 => hn ?_⟩
  rw [he, List.getElem_append_left hk] at h32
  rw [← h32]
  exact List.getElem_mem hk

/-- The two arguments of `SYS_create` that the shell cuts out of its line. -/
theorem sysCreate_eq {name : FileName} {text : List UInt8} {a0 a1 : Nat → UInt8}
    (h0 : Spells a0 name.1.bytes) (h1 : Spells a1 text) (hl : text.length ≤ 254) :
    sysCreate s a0 a1 =
      fsCreate s name (fun k => text.getD k 0) (Int32.ofNat text.length) := by
  have hn : name.1.bytes.length < 64 - 1 := Nat.lt_of_lt_of_le name.2 (by decide)
  have ht : (copyPath a1 256).bytes = text := cstrBytes_eq h1.noNul (Nat.lt_succ_of_le hl) h1.bytes
  rw [sysCreate, h0.copyPath hn, ht]

theorem shellWrite_name {name : FileName} (hp : Spells p name.1.bytes) (hn : 32 ∉ name.1.bytes) :
    (shellWrite s p).1 = s.writeFile name [] := by
  have hl : name.1.bytes.length ≤ LINESZ - 6 := Nat.le_of_lt (Nat.lt_of_lt_of_le name.2 (by decide))
  have hend : wordEnd p (LINESZ - 6) 0 = name.1.bytes.length := by
    have hp' : Spells p (name.1.bytes ++ []) := by rwa [List.append_nil]
    exact hp'.wordEnd hn hl (.inl hp.end_nul)
  have hstr : strEnd p (LINESZ - 6) 0 = name.1.bytes.length := by
    apply strEnd_eq hp.end_nul _ (Nat.zero_le _) hl
    intro k _ hk
    exact (hp.ne_nul hk).2
  have hnil : Spells (fun k => p (name.1.bytes.length + k)) [] := by
    apply Spells.drop
    rwa [List.append_nil]
  have hne : ¬ p name.1.bytes.length = 32 := by
    rw [hp.end_nul]
    decide
  rw [shellWrite, hend]
  dsimp only
  rw [if_neg hne]
  dsimp only
  rw [hstr, sysCreate_eq hp hnil (by decide), Fs.writeFile]

theorem shellWrite_text {name : FileName} {text : List UInt8}
    (hp : Spells p (name.1.bytes ++ 32 :: text)) (hn : 32 ∉ name.1.bytes)
    (hl : text.length ≤ 254) :
    (shellWrite s p).1 = s.writeFile name text := by
  have hblank : p name.1.bytes.length = 32 := by
    have hb := hp.bytes name.1.bytes.length (by rw [List.length_append]; omega)
    rw [List.getD_eq_getElem?_getD, List.getElem?_append_right (Nat.le_refl _), Nat.sub_self] at hb
    exact hb
  have hend : wordEnd p (LINESZ - 6) 0 = name.1.bytes.length :=
    hp.wordEnd hn (Nat.le_of_lt (Nat.lt_of_lt_of_le name.2 (by decide))) (.inr hblank)
  have h0 : Spells (Function.update p name.1.bytes.length 0) name.1.bytes := by
    refine ⟨name.1.noNul, fun k hk => ?_⟩
    rcases Nat.lt_or_eq_of_le hk with hlt | rfl
    · rw [Function.update_of_ne (Nat.ne_of_lt hlt), hp.bytes k (by rw [List.length_append]; omega),
        List.getD_append _ _ _ _ hlt]
    · rw [Function.update_self, List.getD_eq_default _ _ (Nat.le_refl _)]
  have h1 : Spells (fun k => Function.update p name.1.bytes.length 0 (name.1.bytes.length + 1 + k))
      text := by
    have hd : Spells p ((name.1.bytes ++ [32]) ++ text) := by
      rw [List.append_assoc]
      exact hp
    have hd' := hd.drop
    rw [List.length_append, List.length_singleton] at hd'
    apply hd'.congr
    intro k _
    exact Function.update_of_ne (by omega) _ _
  rw [shellWrite, hend]
  dsimp only
  rw [if_pos hblank]
  dsimp only
  rw [sysCreate_eq h0 h1 hl, Fs.writeFile]

end Line

theorem ShellOk.removeFile (h : ShellOk s) (name : FileName) :
    ShellOk (s.removeFile name) ∧ ∃ out, (s.removeFile name).uart = s.uart ++ out ∧
      FileMap.Shows s.map s.Room (.rm name) out (s.removeFile name).map := by
  obtain ⟨hok, huart⟩ := h.delete name
  have hs : FileMap.Step s.map (.delete name) (.code (fsDelete s name).2)
      (fsDelete s name).1.map := ((Op.delete name).exec_refines h.good).2
  rw [Fs.removeFile]
  generalize fsDelete s name = r at hok huart hs ⊢
  obtain ⟨s₁, r⟩ := r
  dsimp only at hok huart hs ⊢
  generalize hM : s₁.map = M at hs
  cases hs with
  | absent hn =>
    rw [if_pos (by decide), (say_same s₁ noSuchFile).map, hM]
    exact ⟨hok.same (say_same s₁ noSuchFile), _, congrArg (· ++ _) huart, .notRemoved hn⟩
  | deleted hn =>
    rw [if_neg fun hne => hne rfl, hM]
    exact ⟨hok, [], huart.trans (List.append_nil _).symm, .removed hn⟩

theorem ShellOk.writeFile (h : ShellOk s) (name : FileName) (text : Option (List UInt8))
    (hl : (text.getD []).length ≤ 254) :
    ShellOk (s.writeFile name (text.getD [])) ∧
      ∃ out, (s.writeFile name (text.getD [])).uart = s.uart ++ out ∧
        FileMap.Shows s.map s.Room (.write name text) out
          (s.writeFile name (text.getD [])).map := by
  obtain ⟨hok, huart⟩ := h.create name (fun k => (text.getD []).getD k 0)
    (Int32.ofNat (text.getD []).length)
  rw [Fs.writeFile]
  rcases h.write name (Nat.le_succ_of_le hl) with ⟨hr, hnone, hroom, hmap⟩ | ⟨hr, hno⟩
  · simp only [hr, ne_eq, not_true_eq_false, if_false]
    refine ⟨hok, [], ?_, ?_⟩
    · rw [huart, List.append_nil]
    · rw [hmap]
      exact .written hnone hroom
  · simp only [hr]
    refine ⟨h.same (say_same s writeFailed), _, rfl, ?_⟩
    rw [if_pos (by decide), (say_same s writeFailed).map]
    exact .notWritten hno

theorem ShellOk.line (h : ShellOk s) {c : Command} (hc : c.Typable) (hp : Spells p c.line) :
    ∃ s' p' out, shellLine s p = some (s', p') ∧ ShellOk s' ∧ s'.uart = s.uart ++ out ∧
      FileMap.Shows s.map s.Room c out s'.map := by
  cases c with
  | blank =>
    have h0 : p 0 = 0 := hp.end_nul
    exact ⟨s, p, [], by rw [shellLine, if_pos h0], h, (List.append_nil _).symm, .blank⟩
  | help =>
    refine ⟨_, _, _, shellLine_help hp, h.same (say_same s helpText), rfl, ?_⟩
    rw [(say_same s helpText).map]
    exact .help
  | ls =>
    obtain ⟨out, huart, hshows⟩ := h.ls s.Room
    have hsame : SameFiles s (sysLs s) := ⟨rfl, rfl, rfl⟩
    refine ⟨_, _, out, shellLine_ls hp, h.same hsame, huart, ?_⟩
    rw [hsame.map]
    exact hshows
  | rm name =>
    obtain ⟨hok, out, hshows⟩ := h.removeFile name
    exact ⟨_, _, out, shellLine_rm hp, hok, hshows⟩
  | cat name =>
    obtain ⟨hsame, out, huart, hshows⟩ := h.cat name s.Room
    refine ⟨_, _, out, shellLine_cat hp, h.same hsame, huart, ?_⟩
    rw [hsame.map]
    exact hshows
  | write name text =>
    obtain ⟨hlong, hword⟩ := And.intro hc.length hc.oneWord
    have hsz : LINESZ = 128 := rfl
    cases text with
    | none =>
      obtain ⟨hok, out, hshows⟩ := h.writeFile name none (by decide)
      obtain ⟨p', he⟩ := shellLine_write (s := s) hp
      have hd : Spells (fun k => p (6 + k)) name.1.bytes := hp.drop
      rw [shellWrite_name hd hword] at he
      exact ⟨_, p', out, he, hok, hshows⟩
    | some text =>
      have hl : text.length ≤ 254 := by
        rw [Command.line, List.length_append, List.length_append, List.length_cons] at hlong
        omega
      obtain ⟨hok, out, hshows⟩ := h.writeFile name (some text) hl
      obtain ⟨p', he⟩ := shellLine_write (s := s) hp
      have hd : Spells (fun k => p (6 + k)) (name.1.bytes ++ 32 :: text) := hp.drop
      rw [shellWrite_text hd hword hl] at he
      exact ⟨_, p', out, he, hok, hshows⟩

/-- The line that `sys_read` leaves, with its newline cut off. -/
theorem shellTurn_typed (s : Fs) (line : Nat → UInt8) {c : Command} (hc : c.Typable) :
    ∃ p, Spells p c.line ∧
      shellTurn s line c.typed = shellLine (s.say (ascii ['$', ' '])) p := by
  have hlen : c.typed.length = c.line.length + 1 := List.length_append
  have hlt : c.line.length < c.line.length + 1 := Nat.lt_succ_self _
  refine ⟨Function.update (fun k => if k < c.typed.length then c.typed.getD k 0 else line k)
    (c.typed.length - 1) 0, ⟨hc.noNul, fun k hk => ?_⟩, ?_⟩
  · rw [hlen, Nat.add_sub_cancel]
    rcases Nat.lt_or_eq_of_le hk with hk | rfl
    · rw [Function.update_of_ne (Nat.ne_of_lt hk), if_pos (Nat.lt_succ_of_lt hk), Command.typed,
        List.getD_append _ _ _ _ hk]
    · rw [Function.update_self, List.getD_eq_default _ _ (Nat.le_refl _)]
  · have hnl : c.typed.getD c.line.length 0 = 10 := by
      rw [Command.typed, List.getD_append_right _ _ _ _ (Nat.le_refl _), Nat.sub_self]
      rfl
    simp only [shellTurn, hlen, Nat.add_sub_cancel, Nat.succ_ne_zero, if_false, if_pos hlt, hnl,
      if_true]

theorem ShellOk.session (h : ShellOk s) (line : Nat → UInt8) {cs : List Command}
    (hc : ∀ c ∈ cs, c.Typable) :
    ∃ s' line', shellSession s line (cs.map Command.typed) = some (s', line') ∧
      ShellRun s cs s' := by
  induction cs generalizing s line with
  | nil => exact ⟨s, line, rfl, .nil⟩
  | cons c cs ih =>
    rw [List.forall_mem_cons] at hc
    obtain ⟨p, hp, hturn⟩ := shellTurn_typed s line hc.1
    have hsay := say_same s (ascii ['$', ' '])
    obtain ⟨s₁, p₁, out, hline, hok, huart, hshows⟩ := (h.same hsay).line hc.1 hp
    obtain ⟨s', line', hsession, hrun⟩ := ih hok p₁ hc.2
    rw [hsay.map, hsay.room] at hshows
    refine ⟨s', line', ?_, .cons hshows huart hrun⟩
    rw [List.map_cons, shellSession, hturn, hline]
    exact hsession

theorem MkfsImage.shellOk (img : MkfsImage) (hs : img.SizesOk) (hn : img.NamesOk) :
    ShellOk (mount img.disk) :=
  ⟨img.good hs hn, Reachable.allTerminated .mkfs⟩

def someCommands : List Command :=
  [.write fileB (some (ascii ['h', 'i'])), .cat fileB, .ls, .rm fileB, .rm fileB]

end KernelHobby
