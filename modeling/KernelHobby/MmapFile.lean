import KernelHobby.KernFs

namespace KernelHobby
set_option autoImplicit true

namespace KernFs

/-- Process `p` goes on, and neither maps another file nor starts another program. -/
def Stays (p : Slot) (s : KernFs) : Act → Prop
  | .mmap q path => q = p → s.fs.lookup path = none
  | .call q a _ => q = p → a ≠ .exit ∧ ∀ img, a = .exec (some img) → img.loads = false
  | _ => True

/-- A page of the mapped file is loaded from the disk, which answers, and where the blocks of the page
have the bytes that the file had. -/
def Loads (p : Slot) (e : FsDirent) (bytes : List UInt8) (s : KernFs) : Act → Prop
  | .fault q va _ => q = p → ∀ i, va / PGSIZE * PGSIZE = MMAPBASE + i * PGSIZE →
      i * PGSIZE < bytes.length → s.kern.pte p (va / PGSIZE * PGSIZE) = 0 →
      (s.kern.proc p).heapTop ≤ va / PGSIZE * PGSIZE ∧ s.fs.faults = [] ∧
      ∀ j, j < PGSIZE → i * PGSIZE + j < bytes.length →
        fileByte s.fs.disk e (i * PGSIZE + j) = bytes.getD (i * PGSIZE + j) 0
  | _ => True

end KernFs

namespace Kern

/-- What process `p` reads in the pages of a mapped file: the bytes of the file, and zeros behind
them. -/
def Shows (k : Kern) (p : Slot) (bytes : List UInt8) : Prop :=
  ∀ i b, i < (bytes.length + PGSIZE - 1) / PGSIZE * PGSIZE →
    k.userLoad p (MMAPBASE + i) = some b → b = bytes.getD i 0

/-- What is mapped already where the file will be: pages of earlier files, with the same bytes. -/
structure Clean (k : Kern) (p : Slot) (bytes : List UInt8) : Prop where
  shows : k.Shows p bytes
  file : ∀ i, i * PGSIZE < bytes.length → k.pte p (MMAPBASE + i * PGSIZE) &&& PTE_U ≠ 0 →
    k.pte p (MMAPBASE + i * PGSIZE) &&& PTE_W = 0 ∧ k.pte p (MMAPBASE + i * PGSIZE) &&& PTE_COW = 0

end Kern

/-- A page of the region that a mapped file takes. -/
def FilePage (bytes : List UInt8) (v i : Nat) : Prop :=
  v * PGSIZE = MMAPBASE + i * PGSIZE ∧ i * PGSIZE < bytes.length

/-- What a process knows of its mapped file, as long as it runs. -/
def UProc.mapping (q : UProc) : ProcState × Nat × Nat × Nat × Nat :=
  (q.state, q.pagetable, q.mmapBase, q.mmapStart, q.mmapSize)

/-- Process `p` has mapped the file of an entry, and what it has of it in memory are the bytes. -/
structure Showing (k : Kern) (g : Ghost) (p : Slot) (e : FsDirent) (bytes : List UInt8) : Prop where
  run : (k.proc p).state = .runnable
  table : (k.proc p).pagetable ≠ 0
  base : (k.proc p).mmapBase = MMAPBASE
  start : (k.proc p).mmapStart = e.start.toNat
  size : (k.proc p).mmapSize = e.size.toNat
  page : ∀ (v : UPage) i n, FilePage bytes v i → g.tgt (p, .leaf v) = some n →
    g.lf p v = mkPte n 19 ∧ ∀ j, j < PGSIZE → k.phys.mem n j = bytes.getD (i * PGSIZE + j) 0

theorem FilePage.low (h : FilePage bytes v i) : 16 ≤ v := by
  have he := h.1
  simp only [MMAPBASE, PGSIZE] at he
  omega

theorem FilePage.bound (h : FilePage bytes v i) (hj : j < PGSIZE) :
    i * PGSIZE + j < (bytes.length + PGSIZE - 1) / PGSIZE * PGSIZE := by
  have hlt := h.2
  have hq : i + 1 ≤ (bytes.length + PGSIZE - 1) / PGSIZE := by
    apply (Nat.le_div_iff_mul_le (by decide)).2
    simp only [PGSIZE] at hlt ⊢
    omega
  calc i * PGSIZE + j < i * PGSIZE + PGSIZE := Nat.add_lt_add_left hj _
    _ = (i + 1) * PGSIZE := (Nat.succ_mul i PGSIZE).symm
    _ ≤ _ := Nat.mul_le_mul_right PGSIZE hq

/-- The process reads what is in its pages. -/
theorem VmInv.shows {L : Layout} {k : Kern} {g : Ghost} (hk : VmInv L k g)
    (hpt : (k.proc p).pagetable ≠ 0)
    (h : ∀ (v : UPage) i n, FilePage bytes v i → g.tgt (p, .leaf v) = some n →
      ∀ j, j < PGSIZE → k.phys.mem n j = bytes.getD (i * PGSIZE + j) 0) : k.Shows p bytes := by
  intro i b hi hb
  rw [Kern.userLoad, Option.map_eq_some_iff] at hb
  obtain ⟨n, ht, rfl⟩ := hb
  have hlow : ∀ u, vpn (MMAPBASE + i) = u → (MMAPBASE + i) / PGSIZE = u := by
    intro u hu
    have hlt : MMAPBASE + i < 2 ^ 38 := by
      rw [Kern.translate_pte] at ht
      split at ht
      · rename_i hok
        exact hok.1
      · cases ht
    simp only [vpn, PGSIZE] at hu ⊢
    omega
  have hbase : MMAPBASE = 256 * PGSIZE := rfl
  cases hk.translate hpt (by decide) ht with
  | code hv _ _ =>
    have he := hlow 1 hv
    simp only [hbase, PGSIZE] at he
    omega
  | stack hv _ _ =>
    have he := hlow 4 hv
    simp only [hbase, PGSIZE] at he
    omega
  | leaf v f hu hv hn _ _ _ =>
    have he := hlow v hv
    have hpage : FilePage bytes v (i / PGSIZE) := by
      simp only [FilePage, hbase, PGSIZE] at he hi ⊢
      omega
    have hoff : (MMAPBASE + i) % PGSIZE = i % PGSIZE := by
      rw [hbase, Nat.mul_add_mod_self_right]
    rw [hoff, h v _ n hpage hn _ (Nat.mod_lt _ (by decide)), Nat.div_add_mod']

/-- Where no page is mapped, nothing is in the way of a file. -/
theorem VmInv.clean {L : Layout} {k : Kern} {g : Ghost} (hk : VmInv L k g)
    (hpt : (k.proc p).pagetable ≠ 0) (hlen : bytes.length < 2 ^ 32)
    (hnone : ∀ (v : UPage) i, FilePage bytes v i → g.tgt (p, .leaf v) = none) : k.Clean p bytes where
  shows := by
    refine hk.shows hpt fun v i n hv hn => ?_
    rw [hnone v i hv] at hn
    cases hn
  file i hi huser := by
    have hu : MMAPBASE + i * PGSIZE = (256 + i) * PGSIZE := (Nat.add_mul 256 i PGSIZE).symm
    have hlt : 256 + i < 2 ^ 27 := by
      simp only [PGSIZE] at hi
      omega
    rw [hu, hk.pte_page hpt hlt] at huser ⊢
    exfalso
    apply huser
    by_cases hhigh : 0xC000 ≤ 256 + i
    · rw [(hk.linked p).kern hpt _ hhigh hlt]
      exact kernPte_user L _
    · have hz := hnone ⟨256 + i, Nat.not_le.1 hhigh⟩ i ⟨hu.symm, hi⟩
      rcases (hk.vm.slot p).leaf ⟨256 + i, Nat.not_le.1 hhigh⟩ (by simp; omega) with
        ⟨he, _⟩ | ⟨n, f, hn, _⟩
      · rw [he]
        exact Nat.zero_and _
      · rw [hz] at hn
        cases hn

namespace Showing
variable {L : Layout} {k k' : Kern} {g g' : Ghost} {p q : Slot} {e : FsDirent} {bytes : List UInt8}

/-- The pages of the file that are in memory are as they were. -/
theorem keep (h : Showing k g p e bytes) (hproc : (k'.proc p).mapping = (k.proc p).mapping)
    (hs : ∀ (v : UPage) i n, FilePage bytes v i → g'.tgt (p, .leaf v) = some n →
      g.tgt (p, .leaf v) = some n ∧ g'.lf p v = g.lf p v ∧ k'.phys.mem n = k.phys.mem n) :
    Showing k' g' p e bytes := by
  simp only [UProc.mapping, Prod.mk.injEq] at hproc
  obtain ⟨hrun, htable, hbase, hstart, hsize⟩ := hproc
  refine ⟨hrun.trans h.run, ?_, hbase.trans h.base, hstart.trans h.start, hsize.trans h.size, ?_⟩
  · rw [htable]
    exact h.table
  · intro v i n hv hn
    obtain ⟨hold, hlf, hmem⟩ := hs v i n hv hn
    rw [hlf, hmem]
    exact h.page v i n hv hold

theorem same (h : Showing k g p e bytes) (hproc : (k'.proc p).mapping = (k.proc p).mapping)
    (hs : ∀ u, Same k.phys g k'.phys g' p u) : Showing k' g' p e bytes := by
  refine h.keep hproc fun v i n _ hn => ?_
  rw [(hs v).tgt] at hn
  exact ⟨hn, (hs v).lf, (hs v).mem n hn⟩

/-- The bytes that the process reads are those of the file. -/
theorem shows (h : Showing k g p e bytes) (hk : VmInv L k g) : k.Shows p bytes :=
  hk.shows h.table fun v i n hv hn => (h.page v i n hv hn).2

end Showing

/-- What process `p` may do itself as long as the file is to be seen; a fault brings the right page. -/
def Brings (k : Kern) (p : Slot) (bytes : List UInt8) : Kern.Act → Prop
  | .mmap file => file = none
  | .exec (some img) => img.loads = false
  | .exit => False
  | .fault va _ data => ∀ i, FilePage bytes (va / PGSIZE) i → k.pte p (va / PGSIZE * PGSIZE) = 0 →
      (k.proc p).heapTop ≤ va / PGSIZE * PGSIZE ∧ (va / PGSIZE * PGSIZE < (k.proc p).mend →
        ∀ j, j < PGSIZE → data j = bytes.getD (i * PGSIZE + j) 0)
  | _ => True

namespace Showing
variable {L : Layout} {k k' : Kern} {g g' : Ghost} {p q : Slot} {e : FsDirent} {bytes : List UInt8}

/-- A fault fills page `w`, with what the file has when the page is one of the file. -/
theorem fill {w : UPage} (h : Showing k g p e bytes) (hk : VmInv L k g) (hproc : k'.proc = k.proc)
    (hfill : VmInv.Filled k g p w data f k' g')
    (hpage : ∀ i, FilePage bytes w i → k.pte p (w * PGSIZE) = 0 →
      f = 19 ∧ ∀ j, j < PGSIZE → data j = bytes.getD (i * PGSIZE + j) 0) :
    Showing k' g' p e bytes := by
  have hp : k'.proc p = k.proc p := congrFun hproc p
  rcases hfill with ⟨_, hsame⟩ | ⟨hz, hsame, n, ht, hlf, hdata⟩
  · exact h.same (by rw [hp]) hsame
  · rw [← hk.pte_page h.table w.lt] at hz
    refine ⟨hp ▸ h.run, hp ▸ h.table, hp ▸ h.base, hp ▸ h.start, hp ▸ h.size, ?_⟩
    intro v i m hv hm
    by_cases hvw : v = w
    · subst hvw
      obtain ⟨rfl, hbytes⟩ := hpage i hv hz
      rw [ht] at hm
      obtain rfl := Option.some.inj hm
      refine ⟨hlf, fun j hj => ?_⟩
      rw [hdata]
      exact hbytes j hj
    · rw [(hsame v hvw).tgt] at hm
      rw [(hsame v hvw).lf, (hsame v hvw).mem m hm]
      exact h.page v i m hv hm

/-- A page that the process may write is none of the file's. -/
theorem not_written {v : UPage} (h : Showing k g p e bytes) (hk : VmInv L k g)
    (hr : Reaches g p (k.proc p) va PTE_W n) (hv : FilePage bytes v i)
    (hm : g.tgt (p, .leaf v) = some m) : m ≠ n := by
  rintro rfl
  have hin {x : SPos} (hx : g.tgt (p, x) = some m) : x = .leaf v :=
    (hk.vm.slot p).inslot _ _ m hx hm
  cases hr with
  | code _ _ hf => exact absurd hf (by decide)
  | stack _ hn _ =>
    have hus := ((hk.linked p).running h.run).2.1
    have hx : g.tgt (p, .ustack) = some m := by
      rw [(hk.linked p).ustack, ptr_of_ne hus, hn]
    cases hin hx
  | leaf u f _ _ hu hlf hf hw =>
    cases hin hu
    rw [(h.page v i m hv hm).1] at hlf
    obtain ⟨_, rfl⟩ := mkPte_inj (by decide) (by omega) hlf
    exact absurd hw (by decide)

/-- A page with another entry than those of a file is none of the file's. -/
theorem other_entry {v : UPage} (h : Showing k g p e bytes) (hn : g.tgt (p, .leaf v) = some n)
    (hlf : g.lf p v = mkPte m f) (hf : f < 1024) (hne : f ≠ 19) : ¬ FilePage bytes v i := by
  intro hv
  rw [(h.page v i n hv hn).1] at hlf
  exact hne (mkPte_inj (by decide) hf hlf).2.symm

/-- A move of `p` itself. -/
theorem own (h : Showing k g p e bytes) (hk : VmInv L k g) (hb : Brings k p bytes a)
    (hm : Move k g p k' g' a) : Showing k' g' p e bytes := by
  cases hm with
  | store st hr hg hk' =>
    rename_i va n b
    subst hg hk'
    refine h.keep rfl fun v i m hv hm => ⟨hm, rfl, ?_⟩
    have hpg : (n * PGSIZE + va % PGSIZE) / PGSIZE = n := page_div n (Nat.mod_lt va (by decide))
    apply poke_of_ne
    rw [hpg]
    exact h.not_written hk hr hv hm
  | sbrk hg hk' =>
    subst hg hk'
    refine h.keep ?_ fun v i n _ hn => ⟨hn, rfl, by rw [k.procSbrk_phys]⟩
    rw [Kern.procSbrk]
    split
    · rw [Kern.setProc_self]
      rfl
    · rfl
  | mmap hg hk' =>
    subst hg hk'
    obtain rfl : _ = none := hb
    exact h
  | exit hg hk' => exact hb.elim
  | waitNone hc hg hk' =>
    subst hg hk'
    exact h
  | forkFull hc hg hk' =>
    subst hg hk'
    exact h
  | quiet st hlost ha hproc hsame =>
    obtain ⟨c, hproc⟩ := hproc
    refine h.same ?_ hsame
    rw [hproc, Function.update_self]
    rfl
  | fillHeap st hlost hproc v hv hin hfill =>
    refine h.fill hk hproc hfill fun i hi hz => ?_
    rw [← hv] at hi hz
    have hlow := (hb i hi hz).1
    rw [hv] at hlow
    exact absurd hin.2 (Nat.not_lt.2 hlow)
  | fillFile st hlost hproc v hv hout hin hfill =>
    refine h.fill hk hproc hfill fun i hi hz => ⟨rfl, ?_⟩
    rw [← hv] at hi hz
    apply (hb i hi hz).2
    rw [hv]
    exact (hin.resolve_left hout).2.2
  | cowMap st hlost hproc v hu hold hlf hsame hnew hdata hlf' =>
    obtain ⟨c, hproc⟩ := hproc
    refine h.keep ?_ fun w i n hw hn => ?_
    · rw [hproc, Function.update_self]
      rfl
    · have hne : w ≠ v := by
        rintro rfl
        exact h.other_entry hold hlf (by decide) (by decide) hw
      rw [(hsame w hne).tgt] at hn
      exact ⟨hn, (hsame w hne).lf, (hsame w hne).mem n hn⟩
  | fork c hc hpc st hf =>
    obtain ⟨pt, us, f, hproc⟩ := hf.proc
    refine h.keep ?_ fun v i n hv hn => ?_
    · rw [Kern.update_other hproc p hpc]
    · rw [hf.tgt] at hn
      refine ⟨hn, ?_, hf.mem v n hn⟩
      rcases hf.lf v with he | ⟨_, m, he, _⟩
      · exact he
      · exact absurd hv (h.other_entry hn he (by decide) (by decide))
  | exec st hl he => cases hl.symm.trans hb
  | execFail st hl hproc hlost hsame => exact h.same (by rw [hproc]) hsame
  | reap c hc st hnone hlost hk' =>
    have hpc := Kern.zombieChild_ne hc h.run
    subst hk'
    refine h.same ?_ (st.same hpc)
    rw [Kern.setProc_of_ne _ _ hpc, Kern.procFreeimage, Kern.setProc_of_ne _ _ hpc]
    rfl

/-- The page that a fault brings from the disk. -/
theorem readPage_byte {s : KernFs} (h : Showing s.kern g p e bytes) (hk : VmInv L s.kern g)
    (hlen : bytes.length = e.size.toNat) (hf : s.fs.faults = [])
    (hv : FilePage bytes (va / PGSIZE) i) (hin : va / PGSIZE * PGSIZE < (s.kern.proc p).mend)
    (hdisk : ∀ j, j < PGSIZE → i * PGSIZE + j < bytes.length →
      fileByte s.fs.disk e (i * PGSIZE + j) = bytes.getD (i * PGSIZE + j) 0) (hj : j < PGSIZE) :
    (s.readPage p va).2 j = bytes.getD (i * PGSIZE + j) 0 := by
  obtain ⟨haddr, hlt⟩ := hv
  have hne : (s.kern.proc p).mmapBase ≠ 0 := by
    rw [h.base]
    decide
  have hend := ((hk.linked p).mmap.resolve_left hne).2
  have hsz := e.size.toNat_lt
  rw [haddr, UProc.mend, h.base, h.size] at hin
  rw [UProc.mend, h.base, h.size] at hend
  have hbig : e.size.toNat < 2 ^ 31 := by
    simp only [MMAPBASE, PLIC, PGSIZE] at hin hend
    omega
  have hoff : (UInt32.ofNat (i * PGSIZE)).toNat = i * PGSIZE := by
    rw [UInt32.toNat_ofNat', Nat.mod_eq_of_lt]
    omega
  rw [KernFs.readPage]
  dsimp only
  rw [h.base, h.start, h.size, haddr, Nat.add_sub_cancel_left, UInt32.ofNat_toNat,
    UInt32.ofNat_toNat, fsReadPage_file e hf hbig ?_ ?_ hj, hoff]
  · split
    · rename_i hin
      exact hdisk j hj (by omega)
    · rename_i hout
      rw [List.getD_eq_default]
      omega
  · rw [hoff]
    exact Nat.mul_mod_left i PGSIZE
  · rw [hoff]
    omega

/-- Right after `proc_mmap`. -/
theorem mapped (hk : VmInv L k g) (hrun : k.Runs p) (hc : k.Clean p bytes) :
    Showing (k.procMmap p (some (e.start, e.size))) g p e bytes := by
  have hself : (k.procMmap p (some (e.start, e.size))).proc p = { k.proc p with
      mmapBase := MMAPBASE, mmapStart := e.start.toNat, mmapSize := e.size.toNat } :=
    Kern.setProc_self ..
  refine ⟨?_, ?_, ?_, ?_, ?_, fun v i n hv hn => ?_⟩
  · rw [hself]
    exact hrun.run
  · rw [hself]
    exact hrun.table
  · rw [hself]
  · rw [hself]
  · rw [hself]
  rw [k.procMmap_phys]
  constructor
  · have hfile := hc.file i hv.2
    rw [← hv.1, hk.pte_page hrun.table v.lt] at hfile
    rcases (hk.vm.slot p).leaf v hv.low with ⟨_, hno⟩ | ⟨m, f, hm, hlf, hf⟩
    · rw [hn] at hno
      cases hno
    · rw [hn] at hm
      obtain rfl := Option.some.inj hm
      have hf1024 : f < 1024 := by omega
      rw [hlf, mkPte_and n hf1024 (by decide), mkPte_and n hf1024 (by decide),
        mkPte_and n hf1024 (by decide)] at hfile
      rcases hf with rfl | rfl | rfl
      · exact hlf
      · exact absurd (hfile (by decide)).1 (by decide)
      · exact absurd (hfile (by decide)).2 (by decide)
  · intro j hj
    have hload := hk.userLoad_leaf hrun.table hv.low hj
    rw [hn, hv.1, Nat.add_assoc] at hload
    exact hc.shows (i * PGSIZE + j) _ (hv.bound hj) hload

end Showing

namespace KernFs
variable {L : Layout} {s s' : KernFs} {g : Ghost} {p : Slot} {e : FsDirent} {bytes : List UInt8}

/-- What `p` does itself is what it may do. -/
theorem brings (h : Showing s.kern g p e bytes) (hk : VmInv L s.kern g)
    (hlen : bytes.length = e.size.toNat) (hst : Stays p s a) (hl : Loads p e bytes s a)
    (ht : s.toKern a = some (p, b)) : Brings s.kern p bytes b := by
  cases a with
  | mmap q path =>
    cases ht
    have hno := hst rfl
    change fsStat s.fs path = none
    rw [fsStat_lookup, hno]
    rfl
  | fault q va store =>
    cases ht
    intro i hv hz
    obtain ⟨hheap, hf, hdisk⟩ := hl rfl i hv.1 hv.2 hz
    exact ⟨hheap, fun hin j hj => h.readPage_byte hk hlen hf hv hin hdisk hj⟩
  | create => cases ht
  | delete => cases ht
  | call q b hb =>
    cases ht
    obtain ⟨hexit, hexec⟩ := hst rfl
    cases b with
    | mmap => cases hb
    | fault => cases hb
    | exit => exact hexit rfl
    | exec img =>
      cases img with
      | none => trivial
      | some img => exact hexec img rfl
    | _ => trivial

theorem step_showing (h : Showing s.kern g p e bytes) (hk : VmInv L s.kern g)
    (hlen : bytes.length = e.size.toNat) (ht : s.Tame a) (hst : Stays p s a)
    (hl : Loads p e bytes s a) (hs : s.step L a = some s') :
    ∃ g', VmInv L s'.kern g' ∧ Showing s'.kern g' p e bytes := by
  rcases step_some hs with ⟨_, hsame⟩ | ⟨q, b, hb, hstep⟩
  · rw [hsame]
    exact ⟨g, hk, h⟩
  · obtain ⟨g', hk', hm⟩ := hk.move (ht q b hb) hstep
    refine ⟨g', hk', ?_⟩
    by_cases hq : p = q
    · subst hq
      exact h.own hk (brings h hk hlen hst hl hb) hm
    · obtain ⟨hsame, hproc⟩ := hm.elsewhere hq h.run
      exact h.same (by rw [hproc]) hsame

theorem run_showing (h : Showing s.kern g p e bytes) (hk : VmInv L s.kern g)
    (hlen : bytes.length = e.size.toNat) (ht : s.Throughout L Tame as)
    (hst : s.Throughout L (Stays p) as) (hl : s.Throughout L (Loads p e bytes) as)
    (hs : s.run L as = some s') : ∃ g', VmInv L s'.kern g' ∧ Showing s'.kern g' p e bytes := by
  induction as generalizing s g with
  | nil =>
    cases hs
    exact ⟨g, hk, h⟩
  | cons a as ih =>
    rw [run] at hs
    cases hstep : s.step L a with
    | none =>
      rw [hstep] at hs
      cases hs
    | some s₁ =>
      rw [hstep] at hs
      obtain ⟨g₁, hk₁, h₁⟩ := step_showing h hk hlen ht.1 hst.1 hl.1 hstep
      exact ih h₁ hk₁ (ht.2 s₁ hstep) (hst.2 s₁ hstep) (hl.2 s₁ hstep) hs

end KernFs

/-- A successful `proc_mmap`. -/
theorem KernFs.step_mmap {s s₁ : KernFs} (hk : VmInv L s.kern g) (he : s.fs.lookup path = some e)
    (hc : s.kern.Clean p bytes) (hm : s.Tame (.mmap p path))
    (hs : s.step L (.mmap p path) = some s₁) :
    VmInv L s₁.kern g ∧ Showing s₁.kern g p e bytes ∧
      s₁.kern = s.kern.procMmap p (some (e.start, e.size)) := by
  obtain ⟨q, b, hb, hstep⟩ := (step_some hs).resolve_left fun hno => Option.some_ne_none _ hno.1
  cases hb
  have hstat : fsStat s.fs path = some (e.start, e.size) := by
    rw [fsStat_lookup, he]
    rfl
  rw [hstat] at hstep
  have hruns := Kern.step_runs hstep
    ⟨Kern.Act.noConfusion, Kern.Act.noConfusion, Kern.Act.noConfusion⟩
  rw [hruns.step_mmap] at hstep
  rw [← Option.some.inj hstep]
  have htame := hm p _ rfl
  rw [hstat] at htame
  exact ⟨hk.mmap htame, .mapped hk hruns hc, rfl⟩

open KernFs in
/-- A mapped file is seen as it was, when no other page is in its place and each page is loaded while
its blocks have not changed. -/
theorem mmap_shows_file {s s₁ s' : KernFs} (hr : TameReach L s.kern)
    (he : s.fs.lookup path = some e) (hc : s.kern.Clean p (contents s.fs.disk e))
    (hm : s.Tame (.mmap p path)) (hs : s.step L (.mmap p path) = some s₁)
    (ht : s₁.Throughout L KernFs.Tame as) (hst : s₁.Throughout L (Stays p) as)
    (hl : s₁.Throughout L (Loads p e (contents s.fs.disk e)) as)
    (hrun : s₁.run L as = some s') : s'.kern.Shows p (contents s.fs.disk e) := by
  obtain ⟨g, hk⟩ := hr.inv
  obtain ⟨hk₁, h₁, _⟩ := step_mmap hk he hc hm hs
  obtain ⟨g', hk', h'⟩ := run_showing h₁ hk₁ (contents_length _ e) ht hst hl hrun
  exact h'.shows hk'

/-- An image with two short files. -/
def twoFileImage : MkfsImage :=
  .ofFiles [(nameA, [1, 2, 3]), (nameB, [4])] (by decide) (by decide)

theorem twoFileImage_map : (mount twoFileImage.disk).map = twoFileImage.map := by
  apply twoFileImage.map_mount
  · intro i hi _
    have hi' : i < 2 := hi
    obtain rfl | rfl : i = 0 ∨ i = 1 := by omega
    · decide
    · decide
  · refine ⟨by decide, ?_⟩
    intro f hf
    rcases List.mem_cons.1 hf with rfl | hf
    · decide
    · rw [List.mem_singleton.1 hf]
      decide
  · intro f hf
    rcases List.mem_cons.1 hf with rfl | hf
    · decide
    · rw [List.mem_singleton.1 hf]
      decide

theorem twoFileImage_first : ∃ e, (mount twoFileImage.disk).lookup nameA = some e ∧
    contents (mount twoFileImage.disk).disk e = [1, 2, 3] := by
  have hmap : (mount twoFileImage.disk).map ⟨nameA, by decide⟩ = some [1, 2, 3] := by
    rw [twoFileImage_map]
    rfl
  exact Fs.lookup_map twoFileImage.wf.mem.mounted hmap

theorem twoFileImage_second : ∃ e, (mount twoFileImage.disk).lookup nameB = some e ∧
    contents (mount twoFileImage.disk).disk e = [4] := by
  have hmap : (mount twoFileImage.disk).map ⟨nameB, by decide⟩ = some [4] := by
    rw [twoFileImage_map]
    rfl
  exact Fs.lookup_map twoFileImage.wf.mem.mounted hmap

/-- The first page of a mapped file. -/
def firstPage : UPage := ⟨256, by decide⟩

theorem VmInv.no_pages {L : Layout} {k : Kern} {g : Ghost} (hk : VmInv L k g)
    (hpt : (k.proc p).pagetable ≠ 0) (hlen : bytes.length < 2 ^ 32)
    (hnone : ∀ v : UPage, g.tgt (p, .leaf v) = none) : k.Clean p bytes :=
  hk.clean hpt hlen fun v _ _ => hnone v

open KernFs in
/-- The shell maps the first of the two files and loads from it. -/
structure FirstLoad (k₀ : Kern) (e : FsDirent) (s₁ s₂ : KernFs) : Prop where
  boot : Kern.boot smallKernel (fun _ => Page.zero) 18 spinElf = some k₀
  file : (mount twoFileImage.disk).lookup nameA = some e
  bytes : contents (mount twoFileImage.disk).disk e = [1, 2, 3]
  clean : k₀.Clean .shell [1, 2, 3]
  fits : KernFs.Tame ⟨k₀, mount twoFileImage.disk⟩ (.mmap .shell nameA)
  mapped : KernFs.step smallKernel ⟨k₀, mount twoFileImage.disk⟩ (.mmap .shell nameA) = some s₁
  loads : Loads .shell e [1, 2, 3] s₁ (.fault .shell MMAPBASE false)
  loaded : s₁.step smallKernel (.fault .shell MMAPBASE false) = some s₂
  runs : s₂.kern.Runs .shell
  top : (s₂.kern.proc .shell).heapTop = HEAPBASE
  disk : ∃ b, s₂.fs = { mount twoFileImage.disk with fsbuf := b }
  value : s₂.kern.userLoad .shell MMAPBASE = some 1

theorem firstLoad : ∃ k₀ e s₁ s₂, FirstLoad k₀ e s₁ s₂ := by
  obtain ⟨e, he, hbytes⟩ := twoFileImage_first
  obtain ⟨k₀, pt, code, us, ks, hb, hst, hcnt⟩ := smallKernel_boot
  obtain ⟨g₀, h₀, hnone⟩ := VmInv.boot spinElf_fits hb
  have hlen : e.size.toNat = 3 := by
    rw [← contents_length (mount twoFileImage.disk).disk e, hbytes]
    rfl
  have hstat : fsStat (mount twoFileImage.disk) nameA = some (e.start, e.size) := by
    rw [fsStat_lookup, he]
    rfl
  have hfits : KernFs.Tame ⟨k₀, mount twoFileImage.disk⟩ (.mmap .shell nameA) := by
    intro q b hqb
    cases hqb
    rw [hstat]
    change MMAPBASE + (e.size.toNat + PGSIZE - 1) % 2 ^ 32 / PGSIZE * PGSIZE ≤ PLIC
    rw [hlen]
    decide
  have hmapped : KernFs.step smallKernel ⟨k₀, mount twoFileImage.disk⟩ (.mmap .shell nameA) =
      some ⟨k₀.procMmap .shell (some (e.start, e.size)), mount twoFileImage.disk⟩ := by
    rw [KernFs.step, KernFs.toKern]
    dsimp only
    rw [hstat, hst.runs.step_mmap]
    rfl
  have hself : (k₀.procMmap .shell (some (e.start, e.size))).proc .shell =
      { k₀.proc .shell with
        mmapBase := MMAPBASE, mmapStart := e.start.toNat, mmapSize := e.size.toNat } :=
    Kern.setProc_self ..
  generalize hk₁ : k₀.procMmap .shell (some (e.start, e.size)) = k₁ at hmapped hself
  have hruns₁ : k₁.Runs .shell := hst.runs.congr (by rw [hself]) (by rw [hself]) (by rw [hself])
  have htame := hfits .shell _ rfl
  rw [hstat] at htame
  have h₁ := h₀.mmap htame
  rw [hk₁] at h₁
  have hphys : k₁.phys = k₀.phys := by
    rw [← hk₁, k₀.procMmap_phys]
  have hno : ¬ (k₁.proc .shell).Heap firstPage := by
    rintro ⟨_, hlt⟩
    rw [hself] at hlt
    dsimp only at hlt
    rw [hst.top] at hlt
    exact absurd hlt (by decide)
  have hin : (k₁.proc .shell).Ranges firstPage := by
    have hfile : MMAPBASE ≠ 0 ∧ MMAPBASE ≤ firstPage * PGSIZE ∧
        firstPage * PGSIZE < MMAPBASE + (3 + PGSIZE - 1) % 2 ^ 32 / PGSIZE * PGSIZE := by decide
    rw [hself]
    refine .inr ?_
    rw [UProc.mend]
    dsimp only
    rw [hlen]
    exact hfile
  set s₁ : KernFs := ⟨k₁, mount twoFileImage.disk⟩ with hs₁
  set data := (s₁.readPage .shell MMAPBASE).2 with hdata
  have haddr : firstPage.val * PGSIZE = MMAPBASE := by decide
  have hfault := Kern.procPagefault_file (by decide) hno hin data
  obtain ⟨g₂, n, h₂, _, _, hproc₂, _, _, ht₂, _, hmem₂⟩ := h₁.touchNew hruns₁ (by decide)
    (hnone .shell firstPage) (by
      rw [hphys]
      omega) (.inl rfl) hfault
  rw [haddr] at h₂ hproc₂ hmem₂
  have hloaded : s₁.step smallKernel (.fault .shell MMAPBASE false) =
      some ⟨k₁.procPagefault .shell MMAPBASE false data,
        s₁.fsAfter (.fault .shell MMAPBASE false)⟩ := by
    rw [KernFs.step, KernFs.toKern]
    dsimp only
    rw [hruns₁.step_fault]
    rfl
  have hfaults : s₁.fs.faults = [] := twoFileImage.wf.faults
  have hdisk (j : Nat) (hj : 0 * PGSIZE + j < [1, 2, 3].length) :
      fileByte s₁.fs.disk e (0 * PGSIZE + j) = [1, 2, 3].getD (0 * PGSIZE + j) 0 := by
    rw [← contents_getD, hbytes]
    rw [hlen]
    exact hj
  have hclean : k₀.Clean .shell [1, 2, 3] := h₀.no_pages hst.runs.table (by decide) (hnone .shell)
  have hshow : Showing s₁.kern g₀ .shell e [1, 2, 3] := by
    rw [hs₁, ← hk₁]
    exact .mapped h₀ hst.runs hclean
  have hbyte : data 0 = 1 := by
    have hend : MMAPBASE / PGSIZE * PGSIZE < (s₁.kern.proc .shell).mend :=
      (hin.resolve_left hno).2.2
    exact hshow.readPage_byte h₁ hlen.symm hfaults ⟨rfl, by decide⟩ hend (fun j _ hj => hdisk j hj)
      (by decide)
  refine ⟨k₀, e, s₁, _, hb, he, hbytes, hclean, hfits, hmapped, ?_, hloaded, hruns₁.of_proc hproc₂, ?_,
    KernFs.fsAfter_fault hfaults, ?_⟩
  · intro _ i _ hlt _
    obtain rfl : i = 0 := by
      simp only [List.length_cons, List.length_nil, PGSIZE] at hlt
      omega
    refine ⟨?_, hfaults, fun j _ hj => hdisk j hj⟩
    rw [hself]
    dsimp only
    rw [hst.top]
    decide
  · dsimp only
    rw [hproc₂, hself]
    exact hst.top
  · have hpt : ((k₁.procPagefault .shell MMAPBASE false data).proc .shell).pagetable ≠ 0 := by
      rw [hproc₂]
      exact hruns₁.table
    have hlow : 16 ≤ firstPage.val := by decide
    have hload := h₂.userLoad_leaf hpt hlow (show 0 < PGSIZE by decide)
    rw [ht₂, Option.map_some, hmem₂, hbyte, haddr] at hload
    exact hload

theorem mmap_shows_file_short : ∃ k₀ e s₁ s₂, FirstLoad k₀ e s₁ s₂ ∧
    s₂.kern.Shows .shell [1, 2, 3] := by
  obtain ⟨k₀, e, s₁, s₂, h⟩ := firstLoad
  refine ⟨k₀, e, s₁, s₂, h, ?_⟩
  have hrun : s₁.run smallKernel [.fault .shell MMAPBASE false] = some s₂ := by
    rw [KernFs.run, h.loaded]
    rfl
  have hr : TameReach smallKernel k₀ := .boot spinElf_fits h.boot
  have hclean := h.clean
  have hloads := h.loads
  rw [← h.bytes] at hclean hloads ⊢
  refine mmap_shows_file (s := ⟨k₀, mount twoFileImage.disk⟩) hr h.file hclean h.fits h.mapped ?_ ?_ ?_
    hrun
  · refine ⟨fun q b hb => ?_, fun _ _ => trivial⟩
    cases hb
    trivial
  · exact ⟨trivial, fun _ _ => trivial⟩
  · exact ⟨hloads, fun _ _ => trivial⟩

theorem Kern.procMmap_userLoad (k : Kern) (p : Slot) (file : Option (UInt32 × UInt32)) (va : Nat) :
    (k.procMmap p file).userLoad p va = k.userLoad p va := by
  cases file with
  | none => rfl
  | some f =>
    rw [procMmap, userLoad, userLoad, translate, translate, setProc_self, setProc_phys]

/-- The second file is mapped where the page of the first one still is. -/
theorem mmap_shows_old_file : ∃ k₀ e s₁ s₂ e' s₃, FirstLoad k₀ e s₁ s₂ ∧
    s₂.fs.lookup nameB = some e' ∧ contents s₂.fs.disk e' = [4] ∧
    s₂.step smallKernel (.mmap .shell nameB) = some s₃ ∧ (s₃.kern.proc .shell).heapTop = HEAPBASE ∧
    s₃.kern.userLoad .shell MMAPBASE = some 1 ∧
    ¬ s₃.kern.Shows .shell (contents s₂.fs.disk e') := by
  obtain ⟨k₀, e, s₁, s₂, h⟩ := firstLoad
  obtain ⟨e', he', hbytes'⟩ := twoFileImage_second
  obtain ⟨b, hfs⟩ := h.disk
  have hlookup : s₂.fs.lookup nameB = some e' := by
    rw [hfs]
    exact he'
  have hbytes : contents s₂.fs.disk e' = [4] := by
    rw [hfs]
    exact hbytes'
  have hstep : s₂.step smallKernel (.mmap .shell nameB) =
      some ⟨s₂.kern.procMmap .shell (fsStat s₂.fs nameB), s₂.fs⟩ := by
    rw [KernFs.step, KernFs.toKern]
    dsimp only
    rw [h.runs.step_mmap]
    rfl
  have hvalue : (s₂.kern.procMmap .shell (fsStat s₂.fs nameB)).userLoad .shell MMAPBASE = some 1 := by
    rw [Kern.procMmap_userLoad]
    exact h.value
  refine ⟨k₀, e, s₁, s₂, e', _, h, hlookup, hbytes, hstep, ?_, hvalue, fun hshow => ?_⟩
  · dsimp only
    rw [Kern.procMmap_heapTop]
    exact h.top
  · rw [hbytes] at hshow
    cases hshow 0 1 (by decide) hvalue

end KernelHobby
