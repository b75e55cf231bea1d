import KernelHobby.ElfLoad
import KernelHobby.ForkFrame
import KernelHobby.FsDurable
import KernelHobby.KernFs

namespace KernelHobby
set_option autoImplicit true

/-- The byte that the segments of an image have for offset `j` of the code page, with the first
`n` of them: the last one decides. -/
def ElfImage.lastByte (img : ElfImage) (j : Nat) : Nat → UInt8
  | 0 => 0
  | n + 1 =>
    if img.pType n = PT_LOAD ∧ img.pVaddr n ≤ USERVA + j ∧
      USERVA + j < img.pVaddr n + img.pFilesz n then img.segByte n j
    else img.lastByte j n

/-- The code page that an image asks for. -/
def ElfImage.codeByte (img : ElfImage) (j : Nat) : UInt8 := img.lastByte j img.phnum

/-- A file as an image, with nothing behind it. -/
def imageOf (bytes : List UInt8) : ElfImage := fun j => bytes.getD j 0

/-- `elfbuf` after a file was read into it. -/
def elfbufOf (bytes : List UInt8) (buf : Nat → UInt8) : ElfImage :=
  fun j => if j < bytes.length then bytes.getD j 0 else buf j

/-- Where a new program starts: `sepc` and `sp`. -/
structure Start where
  sepc : Nat
  sp : Nat

/-- `proc_exec` with what `elfbuf` holds from before. A program that is entered has no result; a
call that returns gives -1. -/
def KernFs.procExec (s : KernFs) (elfbuf : Nat → UInt8) (p : Slot) (path : CStr) :
    Option ((Int ⊕ Start) × ElfImage × KernFs) :=
  let (fs, buf, sz) := fsRead s.fs path elfbuf 32768
  if sz < 0 then some (.inl (-1), buf, ⟨s.kern, fs⟩)
  else
    let img : ElfImage := buf
    let entered := if img.loads then .inr ⟨img.entry, USERSTACKTOP⟩ else .inl (-1)
    (s.kern.procExec p (some img)).map fun k => (entered, img, ⟨k, fs⟩)

namespace ElfImage
variable {img img' : ElfImage} {sz : Nat}

theorem Valid.phdr (h : img.Valid sz) (hi : i < img.phnum) :
    img.phdr i + 56 ≤ sz ∧ img.phdr i = img.phoff + i * img.phentsize := by
  have hh := h.headers i hi
  have hs := h.size
  have hw : img.phdr i = img.phoff + i * img.phentsize := wrap64_of_lt (by omega)
  exact ⟨by omega, hw⟩

/-- Images with the same bytes in the file. -/
structure Agree (sz : Nat) (img img' : ElfImage) : Prop where
  head : 64 ≤ sz
  bytes : ∀ j, j < sz → img' j = img j

namespace Agree

theorem leGet (h : Agree sz img img') (ho : off + w ≤ sz) : leGet img' off w = leGet img off w :=
  leGet_congr fun k hk => h.bytes _ (by omega)

theorem header (h : Agree sz img img') : img'.magic = img.magic ∧ img'.entry = img.entry ∧
    img'.phnum = img.phnum ∧ ∀ i, img'.phdr i = img.phdr i := by
  have hz := h.head
  have hoff : img'.phoff = img.phoff := h.leGet (Nat.le_trans (by decide) hz)
  have hent : img'.phentsize = img.phentsize := h.leGet (Nat.le_trans (by decide) hz)
  refine ⟨?_, h.leGet (Nat.le_trans (by decide) hz), h.leGet (Nat.le_trans (by decide) hz), ?_⟩
  · rw [magic, magic, h.bytes 0 (by omega), h.bytes 1 (by omega), h.bytes 2 (by omega),
      h.bytes 3 (by omega)]
  · intro i
    rw [phdr, phdr, hoff, hent]

theorem segment (h : Agree sz img img') (hv : img.Valid sz) (hi : i < img.phnum) :
    img'.pType i = img.pType i ∧ img'.pOffset i = img.pOffset i ∧ img'.pVaddr i = img.pVaddr i ∧
      img'.pFilesz i = img.pFilesz i ∧ img'.pMemsz i = img.pMemsz i := by
  obtain ⟨hfit, _⟩ := hv.phdr hi
  obtain ⟨_, _, _, hphdr⟩ := h.header
  simp only [pType, pOffset, pVaddr, pFilesz, pMemsz, hphdr i]
  exact ⟨h.leGet (by omega), h.leGet (by omega), h.leGet (by omega), h.leGet (by omega),
    h.leGet (by omega)⟩

/-- The bytes behind the file do not matter. -/
theorem valid (h : Agree sz img img') (hv : img.Valid sz) : img'.Valid sz := by
  obtain ⟨hmagic, _, hphnum, hphdr⟩ := h.header
  refine ⟨hv.size, hmagic.trans hv.magic, ?_, ?_⟩
  · intro i hi
    rw [hphnum] at hi
    have hoff : img'.phoff = img.phoff := h.leGet (Nat.le_trans (by decide) h.head)
    have hent : img'.phentsize = img.phentsize := h.leGet (Nat.le_trans (by decide) h.head)
    rw [hoff, hent]
    exact hv.headers i hi
  · intro i hi ht
    rw [hphnum] at hi
    obtain ⟨htype, hoffset, hvaddr, hfilesz, hmemsz⟩ := h.segment hv hi
    rw [htype] at ht
    have hseg := hv.segs i hi ht
    constructor
    · rw [hoffset, hfilesz]
      exact hseg.file
    · rw [hfilesz, hmemsz]
      exact hseg.filled
    · rw [hvaddr]
      exact hseg.low
    · rw [hvaddr, hmemsz]
      exact hseg.high

theorem lastByte (h : Agree sz img img') (hv : img.Valid sz) (hn : n ≤ img.phnum) :
    img'.lastByte j n = img.lastByte j n := by
  induction n with
  | zero => rfl
  | succ n ih =>
    obtain ⟨htype, hoffset, hvaddr, hfilesz, hmemsz⟩ := h.segment hv hn
    rw [ElfImage.lastByte, ElfImage.lastByte, htype, hvaddr, hfilesz, ih (Nat.le_of_succ_le hn)]
    split
    · rename_i hc
      have hfile := (hv.segs n hn hc.1).file
      rw [segByte, segByte, hoffset, hvaddr]
      exact h.bytes _ (by omega)
    · rfl

theorem codeByte (h : Agree sz img img') (hv : img.Valid sz) (j : Nat) :
    img'.codeByte j = img.codeByte j := by
  rw [ElfImage.codeByte, ElfImage.codeByte, h.header.2.2.1]
  exact h.lastByte hv (Nat.le_refl _)

end Agree

/-- The byte that the last segment over it decides. -/
theorem lastByte_unique (hsome : ∀ i, i < img.phnum → img.Covers i j →
      (∀ i', i < i' → i' < img.phnum → ¬ img.Covers i' j) → b = img.segByte i j)
    (hnone : (∀ i, i < img.phnum → ¬ img.Covers i j) → b = 0) (hn : n ≤ img.phnum)
    (hrest : ∀ i, n ≤ i → i < img.phnum → ¬ img.Covers i j) : b = img.lastByte j n := by
  induction n with
  | zero => exact hnone fun i => hrest i (Nat.zero_le i)
  | succ n ih =>
    rw [lastByte]
    split
    · rename_i hc
      exact hsome n hn hc fun i hi => hrest i hi
    · rename_i hc
      refine ih (Nat.le_of_succ_le hn) fun i hi hi' => ?_
      rcases Nat.eq_or_lt_of_le hi with rfl | hlt
      · exact hc
      · exact hrest i hlt hi'

/-- `load_elf` takes a valid image, and builds the page that it asks for. -/
theorem Valid.loaded (h : img.Valid sz) (hp : code < PHYSTOP) (hz : m code = Page.zero) :
    img.loads = true ∧ ∀ j, (loadElf img code m).2 code j = img.codeByte j := by
  obtain ⟨hok, hbytes⟩ := loadSegs_valid (i := 0) (n := img.phnum) (m := m) img h.size hp
    fun c _ hc => h.segs c (by omega)
  have hload : loadElf img code m = loadSegs img code img.phnum 0 m := by
    rw [loadElf, if_pos h.magic]
  refine ⟨?_, fun j => ?_⟩
  · rw [← loadElf_fst img code m, hload, hok]
  · rw [hload, codeByte]
    refine lastByte_unique ?_ ?_ (Nat.le_refl _) fun i hi hi' => absurd hi' (Nat.not_lt.2 hi)
    · intro i hi hc hlast
      exact (hbytes j).1 i (Nat.zero_le i) (by omega) hc fun i' h₁ h₂ => hlast i' h₁ (by omega)
    · intro hno
      rw [(hbytes j).2 fun i _ hi => hno i (by omega), hz]
      rfl

theorem Valid.fits (h : img.Valid sz) : img.Fits := by
  intro i hi ht _
  have hseg := h.segs i hi ht
  have hlow := hseg.low
  have hhigh := hseg.high
  have hfill := hseg.filled
  rw [hseg.segOff]
  omega

end ElfImage

theorem agree_elfbuf (hn : 64 ≤ bytes.length) (buf : Nat → UInt8) :
    ElfImage.Agree bytes.length (imageOf bytes) (elfbufOf bytes buf) where
  head := hn
  bytes j hj := by rw [elfbufOf, if_pos hj, imageOf]

namespace VmInv
variable {L : Layout} {k k' : Kern} {g : Ghost} {p : Slot}

/-- What a process sees of itself after `proc_exec` of a valid image. -/
theorem exec_valid (h : VmInv L k g) (hp : k.Runs p) (hcode : k.pte p USERVA ≠ 0)
    (hfree : 0 < k.phys.freecnt) {img : ElfImage} (hv : img.Valid sz) :
    ∃ k', k.procExec p (some img) = some k' ∧ (k'.proc p).heapTop = HEAPBASE ∧
      (∀ j, j < PGSIZE → k'.userLoad p (USERVA + j) = some (img.codeByte j)) ∧
      ∀ va, va < 2 ^ 38 → (k.proc p).Ranges (va / PGSIZE) → k'.userLoad p va = none := by
  have hz := h.vm.alloc.kalloc_room hfree
  have hlt := h.vm.alloc.kalloc_lt hz
  obtain ⟨hloads, hbytes⟩ := hv.loaded (m := k.phys.kalloc.2.mem.setPage k.phys.kalloc.1 Page.zero)
    hlt (Mem.setPage_self ..)
  obtain ⟨k', hs⟩ : ∃ k', k.procExec p (some img) = some k' := by
    rw [Kern.procExec]
    dsimp only
    rw [if_neg hz]
    split
    · exact ⟨_, rfl⟩
    · exact ⟨_, rfl⟩
  obtain ⟨g', h', _, _, ⟨i, he, _, hex⟩ | ⟨hno, _⟩⟩ := h.procExec hp.run hp.table hp.idle
    (by
      rintro _ ⟨⟩
      exact hv.fits) hs
  · cases he
    have hproc := congrFun hex.proc p
    rw [Function.update_self] at hproc
    have hpt : (k'.proc p).pagetable ≠ 0 := by
      rw [hproc]
      exact hp.table
    refine ⟨k', hs, ?_, fun j hj => ?_, fun va hva hr => ?_⟩
    · rw [hproc]
    · have hlow : USERVA + j < 2 ^ 38 := by
        simp only [USERVA, PGSIZE] at hj ⊢
        omega
      have hvpn : vpn (USERVA + j) = 1 := by
        rw [vpn_of_lt hlow]
        simp only [USERVA, PGSIZE] at hj ⊢
        omega
      have hone : g.lf p 1 ≠ 0 := by
        rw [h.pte hp.table] at hcode
        exact hcode
      have hpte : k'.pte p (USERVA + j) = mkPte k.phys.kalloc.1 27 := by
        rw [h'.pte hpt, hvpn]
        exact hex.code hone
      have hmod : (USERVA + j) % PGSIZE = j := by
        simp only [USERVA, PGSIZE] at hj ⊢
        omega
      rw [Kern.userLoad, Kern.translate_mkPte hlow hpte (by decide) (by decide) (by decide)
        (by decide) (by decide), Option.map_some, hmod, hex.data, hbytes j]
    · have hu : va / PGSIZE < 0xC000 := by
        by_contra hge
        exact (h.linked p).not_ranges ((h.linked p).running hp.run).2.2.2
          (.inr (Nat.not_lt.1 hge)) hr
      have hpte : k'.pte p va = 0 := by
        rw [h'.pte hpt, vpn_of_lt hva]
        exact (hex.gone ⟨va / PGSIZE, hu⟩ hr).2
      rw [Kern.userLoad, Kern.translate_pte, hpte, if_neg fun hand => hand.2.1 (Nat.zero_and _)]
      rfl
  · exact absurd ((hno img rfl).symm.trans hloads) Bool.false_ne_true

end VmInv

/-- What `proc_exec` of a file with these bytes must do: the process enters the program with a
fresh stack pointer, its code page holds the segments of the file and nothing else, and of the old
program's heap and mapped file nothing is left. -/
structure RunsFile (k : Kern) (p : Slot) (bytes : List UInt8) (start : Start) (k' : Kern) :
    Prop where
  entry : start.sepc = (imageOf bytes).entry
  sp : start.sp = USERSTACKTOP
  heap : (k'.proc p).heapTop = HEAPBASE
  code : ∀ j, j < PGSIZE → k'.userLoad p (USERVA + j) = some ((imageOf bytes).codeByte j)
  gone : ∀ va, va < 2 ^ 38 → (k.proc p).Ranges (va / PGSIZE) → k'.userLoad p va = none

/-- `proc_exec` of a file that the file system has, whatever was in `elfbuf` before. -/
theorem KernFs.procExec_runs {L : Layout} {s : KernFs} (hr : TameReach L s.kern)
    (hg : FsGood s.fs) (hp : s.kern.Runs p) {name : FileName} (hm : s.fs.map name = some bytes)
    (hlen : 64 ≤ bytes.length ∧ bytes.length ≤ 32768)
    (hv : (imageOf bytes).Valid bytes.length) (hfree : 0 < s.kern.phys.freecnt)
    (hcode : s.kern.pte p USERVA ≠ 0) (elfbuf : Nat → UInt8) :
    ∃ start buf s', s.procExec elfbuf p name = some (.inr start, buf, s') ∧
      RunsFile s.kern p bytes start s'.kern ∧ s'.fs.map = s.fs.map := by
  obtain ⟨g, h⟩ := hr.inv
  have hagree := agree_elfbuf hlen.1 elfbuf
  have hv' := hagree.valid hv
  obtain ⟨k', hs, hheap, hload, hgone⟩ := h.exec_valid hp hcode hfree hv'
  have hmax : (32768 : Int32).toInt = 32768 := rfl
  have hfits : (bytes.length : Int) ≤ (32768 : Int32).toInt := by omega
  obtain ⟨hret, hbuf⟩ := read_of_map hg hm elfbuf hfits
  obtain ⟨b, hfs⟩ := fsRead_state hg.wf name elfbuf 32768
  have hbuf' : (fsRead s.fs name elfbuf 32768).2.1 = elfbufOf bytes elfbuf := funext hbuf
  have hphys : 0 < PHYSTOP := by decide
  have hall (m : Nat → Page) (hz : m 0 = Page.zero) : (elfbufOf bytes elfbuf).loads = true :=
    (hv'.loaded hphys hz).1
  have hloads := hall (fun _ => Page.zero) rfl
  refine ⟨⟨(elfbufOf bytes elfbuf).entry, USERSTACKTOP⟩, elfbufOf bytes elfbuf,
    ⟨k', { s.fs with fsbuf := b }⟩, ?_, ?_, rfl⟩
  · rw [procExec]
    dsimp only
    rw [hret, if_neg (by omega), hbuf', hfs, hs, if_pos hloads]
    rfl
  · refine ⟨hagree.header.2.1, rfl, hheap, fun j hj => ?_, hgone⟩
    rw [hload j hj, hagree.codeByte hv]

/-- A small program as a file. -/
def tinyProgram : List UInt8 := (List.range 120).map (tinyElf 16 0 32)

def tinyProgramImage : MkfsImage := .single nameA tinyProgram (by decide)

theorem tinyProgram_valid : (imageOf tinyProgram).Valid tinyProgram.length := by
  have hlen : tinyProgram.length = 120 := rfl
  have hagree : ElfImage.Agree 120 (tinyElf 16 0 32) (imageOf tinyProgram) := by
    refine ⟨by decide, fun j hj => ?_⟩
    rw [imageOf, tinyProgram, List.getD_eq_getElem?_getD, List.getElem?_map,
      List.getElem?_range hj]
    rfl
  rw [hlen]
  exact hagree.valid tinyElf_valid

end KernelHobby
