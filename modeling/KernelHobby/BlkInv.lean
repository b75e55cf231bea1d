import KernelHobby.Blk

namespace KernelHobby
set_option autoImplicit true

variable {L : BlkData}

namespace DiskReq
variable {c : DiskReq L} {m : Nat → UInt8} {d : Nat → Block} {j k : Nat}

theorem memAfter_zero : c.memAfter m d 0 = m := by
  funext j
  rw [memAfter, if_neg]
  intro h
  exact Nat.not_lt.2 h.2.1 h.2.2

theorem diskAfter_zero : c.diskAfter m d 0 = d := by
  have hz : (fun i : Fin BSIZE => if i.val < 0 then m (c.buf + i) else d c.block.toNat i) =
      d c.block.toNat := by
    funext i
    exact if_neg (Nat.not_lt_zero _)
  rw [diskAfter, hz, Function.update_eq_self, ite_self]

/-- A write leaves memory alone, a read the disk. -/
theorem memAfter_write (hw : c.write = true) : c.memAfter m d k = m := by
  funext j
  rw [memAfter, if_neg]
  intro h
  rw [hw] at h
  cases h.1

theorem diskAfter_read (hw : c.write = false) : c.diskAfter m d k = d := by
  rw [diskAfter, hw, if_neg Bool.false_ne_true]

theorem diskAfter_succ (hw : c.write = true) :
    c.diskAfter m d (k + 1) = Function.update (c.diskAfter m d k) c.block.toNat fun i =>
      if i.val = k then m (c.buf + k) else c.diskAfter m d k c.block.toNat i := by
  simp only [diskAfter, hw, if_true, Function.update_idem, Function.update_self]
  congr 1
  funext i
  by_cases hi : i.val = k
  · rw [if_pos hi, if_pos (by omega), hi]
  · rw [if_neg hi]
    by_cases hlt : i.val < k
    · rw [if_pos hlt, if_pos (Nat.lt_succ_of_lt hlt)]
    · rw [if_neg hlt, if_neg (by omega)]

theorem memAfter_succ (hw : c.write = false) :
    c.memAfter m d (k + 1) =
      Function.update (c.memAfter m d k) (c.buf + k) ((d c.block.toNat).byte k) := by
  funext j
  by_cases hj : j = c.buf + k
  · subst hj
    rw [Function.update_self, memAfter, if_pos ⟨hw, by omega, by omega⟩, Nat.add_sub_cancel_left]
  · rw [Function.update_of_ne hj, memAfter, memAfter]
    by_cases hin : c.write = false ∧ c.buf ≤ j ∧ j < c.buf + k
    · rw [if_pos hin, if_pos ⟨hw, hin.2.1, by omega⟩]
    · rw [if_neg hin, if_neg]
      rintro ⟨_, h₁, h₂⟩
      exact hin ⟨hw, h₁, by omega⟩

/-- A byte outside of the buffer may be written before the call or after it. -/
theorem memAfter_update (hj : ¬ (c.buf ≤ j ∧ j < c.buf + BSIZE)) (hk : k ≤ BSIZE) :
    c.memAfter (Function.update m j v) d k = Function.update (c.memAfter m d k) j v := by
  funext i
  by_cases hi : i = j
  · subst hi
    rw [Function.update_self, memAfter, if_neg, Function.update_self]
    rintro ⟨_, h₁, h₂⟩
    exact hj ⟨h₁, Nat.lt_of_lt_of_le h₂ (Nat.add_le_add_left hk _)⟩
  · rw [Function.update_of_ne hi, memAfter, memAfter, Function.update_of_ne hi]

theorem diskAfter_update (hj : ¬ (c.buf ≤ j ∧ j < c.buf + BSIZE)) :
    c.diskAfter (Function.update m j v) d k = c.diskAfter m d k := by
  rw [diskAfter, diskAfter]
  congr 2
  funext i
  rw [Function.update_of_ne]
  intro he
  have hi := i.isLt
  exact hj ⟨by omega, by omega⟩

/-- The device reads from the header what the driver has put there. -/
theorem header_type {mem : Nat → UInt8} (hh : ∀ k, k < 16 → mem (L.breq + k) = c.header k) :
    leGet mem L.breq 4 = if c.write then VIRTIO_BLK_T_OUT else VIRTIO_BLK_T_IN := by
  have hb : ∀ k, k < 4 → mem (L.breq + k) =
      leByte (if c.write then VIRTIO_BLK_T_OUT else VIRTIO_BLK_T_IN) k := by
    intro k hk
    rw [hh k (by omega), header, if_pos hk]
  rw [leGet_leByte hb]
  cases c.write <;> rfl

theorem header_sector {mem : Nat → UInt8} (hh : ∀ k, k < 16 → mem (L.breq + k) = c.header k) :
    leGet mem (L.breq + 8) 8 = c.block.toNat := by
  have hb : ∀ k, k < 8 → mem (L.breq + 8 + k) = leByte c.block.toNat k := by
    intro k hk
    rw [Nat.add_assoc, hh (8 + k) (by omega), header, if_neg (by omega), if_neg (by omega),
      Nat.add_sub_cancel_left]
  rw [leGet_leByte hb]
  exact Nat.mod_eq_of_lt c.block.toNat_lt

theorem data_len : c.data.len.toNat = BSIZE := rfl

theorem data_flags : c.data.flags &&& VRING_DESC_F_WRITE = 0 ↔ c.write = true := by
  simp only [data]
  cases c.write with
  | false => decide
  | true => decide

end DiskReq

namespace Blk
variable {s s' : Blk L} {c : DiskReq L} {m : Nat → UInt8} {d : Nat → Block} {k : Nat}

/-- The driver's own data does not show. -/
theorem Shows.own (hs : s.Shows m d) (hm : ∀ j, ¬ L.Own j → s'.mem j = s.mem j)
    (hd : s'.disk = s.disk) : s'.Shows m d where
  mem j hj := (hm j hj).trans (hs.mem j hj)
  disk := hd.trans hs.disk

theorem bstatus_own (L : BlkData) : L.Own L.bstatus := .inr rfl

theorem header_own (L : BlkData) (hk : k < 16) : L.Own (L.breq + k) :=
  .inl ⟨Nat.le_add_right _ _, Nat.add_lt_add_left hk _⟩

theorem header_ne (L : BlkData) (hk : k < 16) : L.breq + k ≠ L.bstatus := by
  have ha := L.apart
  omega

theorem setDesc_self (s : Blk L) (i : Nat) (d : Desc) : (s.setDesc i d).desc i = d :=
  Function.update_self ..

theorem setDesc_ne (s : Blk L) {i j : Nat} (hij : j ≠ i) (d : Desc) :
    (s.setDesc i d).desc j = s.desc j := Function.update_of_ne hij _ _

/-- One assignment of the driver, which has the queue for itself. -/
theorem Assigned.assign (ha : s.Assigned c n) (hn : n < 6) :
    (s.assign c ⟨n, Nat.lt_succ_of_lt hn⟩).Assigned c (n + 1) := by
  match n, hn with
  | 0, _ =>
    refine ⟨?_, by omega, by omega, by omega, by omega, by omega⟩
    intro _ k hk
    simp only [Blk.assign]
    rw [if_pos ⟨Nat.le_add_right _ _, Nat.add_lt_add_left hk _⟩, Nat.add_sub_cancel_left]
  | 1, _ =>
    refine ⟨fun _ => ha.header (by omega), ?_, by omega, by omega, by omega, by omega⟩
    exact fun _ => setDesc_self s 0 _
  | 2, _ =>
    refine ⟨fun _ => ha.header (by omega), ?_, ?_, by omega, by omega, by omega⟩
    · exact fun _ => (setDesc_ne s Nat.zero_ne_one _).trans (ha.desc0 (by omega))
    · exact fun _ => setDesc_self s 1 _
  | 3, _ =>
    refine ⟨?_, fun _ => ha.desc0 (by omega), fun _ => ha.desc1 (by omega), ?_, by omega,
      by omega⟩
    · intro _ k hk
      exact (Function.update_of_ne (header_ne L hk) _ _).trans (ha.header (by omega) k hk)
    · exact fun _ => Function.update_self ..
  | 4, _ =>
    refine ⟨fun _ => ha.header (by omega), ?_, ?_, fun _ => ha.status (by omega), ?_, by omega⟩
    · exact fun _ => (setDesc_ne s (i := 2) (j := 0) (by decide) _).trans (ha.desc0 (by omega))
    · exact fun _ => (setDesc_ne s (i := 2) (j := 1) (by decide) _).trans (ha.desc1 (by omega))
    · exact fun _ => setDesc_self s 2 _
  | 5, _ =>
    refine ⟨fun _ => ha.header (by omega), fun _ => ha.desc0 (by omega),
      fun _ => ha.desc1 (by omega), fun _ => ha.status (by omega), fun _ => ha.desc2 (by omega), ?_⟩
    exact fun _ => Function.update_self ..

theorem assign_mem (c : DiskReq L) (n : Fin 7) {j : Nat} (hj : ¬ L.Own j) :
    (s.assign c n).mem j = s.mem j := by
  have h₀ : ¬ (L.breq ≤ j ∧ j < L.breq + 16) := fun h => hj (.inl h)
  have h₁ : j ≠ L.bstatus := fun h => hj (.inr h)
  match n with
  | 0 => exact if_neg h₀
  | 3 => exact Function.update_of_ne h₁ _ _
  | 1 | 2 | 4 | 5 | 6 => rfl

/-- Everything of the queue but what the driver assigns. -/
theorem assign_kept (s : Blk L) (c : DiskReq L) (n : Fin 7) :
    (s.assign c n).job = s.job ∧ (s.assign c n).lastAvail = s.lastAvail ∧
      (s.assign c n).usedIdx = s.usedIdx ∧ (s.assign c n).usedSeen = s.usedSeen ∧
      (s.assign c n).disk = s.disk ∧ (s.assign c n).log = s.log ∧
      (s.assign c n).torn = s.torn ∧ (n ≠ 6 → (s.assign c n).availIdx = s.availIdx) := by
  match n with
  | 6 => exact ⟨rfl, rfl, rfl, rfl, rfl, rfl, rfl, fun h => absurd rfl h⟩
  | 0 | 1 | 2 | 3 | 4 | 5 => exact ⟨rfl, rfl, rfl, rfl, rfl, rfl, rfl, fun _ => rfl⟩

theorem Holds.setup (ha : s.AtRest) (hs : s.Shows m d) (hc : s.Assigned c n) (hn : n < 7) :
    ({ s.assign c ⟨n, hn⟩ with
      call := if h : n + 1 < 7 then .setup c ⟨n + 1, h⟩ else .poll c } : Blk L).Holds m d := by
  obtain ⟨h₁, h₂, h₃, h₄, h₅, h₆, h₇, h₈⟩ := assign_kept s c ⟨n, hn⟩
  have hshow : (s.assign c ⟨n, hn⟩).Shows m d := hs.own (fun j hj => assign_mem c _ hj) h₅
  by_cases hmore : n < 6
  · have hnext := hc.assign hmore
    have hne : (⟨n, hn⟩ : Fin 7) ≠ 6 := by
      intro he
      have hval : n = 6 := congrArg Fin.val he
      exact Nat.ne_of_lt hmore hval
    have hav := h₈ hne
    have hlt : n + 1 < 7 := Nat.succ_lt_succ hmore
    simp only [Holds, hlt, ↓reduceDIte]
    refine ⟨⟨?_, ?_, ?_, ?_⟩, ⟨hshow.mem, hshow.disk⟩, ⟨hnext.header, hnext.desc0, hnext.desc1,
      hnext.status, hnext.desc2, hnext.ring⟩⟩
    · exact h₁.trans ha.job
    · exact (h₂.trans ha.last).trans hav.symm
    · exact (h₃.trans ha.used).trans hav.symm
    · exact (h₄.trans ha.seen).trans hav.symm
  · obtain rfl : n = 6 := by omega
    simp only [Holds, Nat.reduceAdd, Nat.lt_irrefl, ↓reduceDIte]
    refine ⟨0, .posted ha.job ?_ ?_ ?_, ⟨hc.header (by omega), hc.desc0 (by omega),
      hc.desc1 (by omega), hc.desc2 (by omega)⟩, ?_, ?_⟩
    · exact ha.last.trans ha.seen.symm
    · exact ha.used.trans ha.seen.symm
    · have hring := hc.ring (by omega)
      rw [← ha.seen] at hring
      exact hring
    · exact congrArg (· + 1) ha.seen.symm
    · rw [DiskReq.memAfter_zero, DiskReq.diskAfter_zero]
      exact ⟨hs.mem, hs.disk⟩

/-- The memory and the disk that the events so far have left. -/
def Inv (s : Blk L) (m₀ : Nat → UInt8) (d₀ : Nat → Block) : Prop :=
  ∃ m d, Atomically s.torn m₀ d₀ s.log m d ∧ s.Holds m d

theorem succ_ne (x : UInt16) : x + 1 ≠ x := by
  intro h
  have hx := congrArg UInt16.toNat h
  rw [UInt16.toNat_add] at hx
  have hlt := x.toNat_lt
  simp only [UInt16.reduceToNat] at hx
  omega

theorem Progress.le (hp : s.Progress k) : k ≤ BSIZE := by
  cases hp with
  | posted _ _ _ _ => exact Nat.zero_le _
  | moving _ _ _ _ hk => exact hk
  | reported _ _ _ _ _ hk _ _ => exact hk
  | published _ _ _ _ hk _ => exact hk

theorem holds_idle (hc : s.call = .idle) : s.Holds m d ↔ s.AtRest ∧ s.Shows m d := by
  rw [Holds, hc]

theorem holds_setup (hc : s.call = .setup c n) :
    s.Holds m d ↔ s.AtRest ∧ s.Shows m d ∧ s.Assigned c n := by
  rw [Holds, hc]

theorem holds_poll (hc : s.call = .poll c) : s.Holds m d ↔ ∃ k, s.Progress k ∧ s.Chain c ∧
    s.availIdx = s.usedSeen + 1 ∧ s.Shows (c.memAfter m d k) (c.diskAfter m d k) := by
  rw [Holds, hc]

theorem holds_finish (hc : s.call = .finish c) : s.Holds m d ↔ ∃ k, s.Progress k ∧
    s.usedIdx ≠ s.usedSeen ∧ s.Shows (c.memAfter m d k) (c.diskAfter m d k) := by
  rw [Holds, hc]

theorem Inv.start (hi : s.Inv m₀ d₀) (hs : s.start c = some s') : s'.Inv m₀ d₀ := by
  obtain ⟨m, d, ha, hh⟩ := hi
  rw [Blk.start] at hs
  split at hs
  · rename_i hc
    simp only [Holds, hc] at hh
    obtain ⟨hr, hw⟩ := hh
    split at hs
    · cases hs
      refine ⟨m, d, ha, ⟨hr.job, hr.last, hr.used, hr.seen⟩, ⟨hw.mem, hw.disk⟩, ?_⟩
      exact ⟨by simp, by simp, by simp, by simp, by simp, by simp⟩
    · cases hs
      have hnext := ha.rw c (-1) 0 (Nat.zero_le _) (.inr ⟨rfl, .inr rfl⟩)
      rw [DiskReq.memAfter_zero, DiskReq.diskAfter_zero] at hnext
      refine ⟨m, d, hnext, ?_⟩
      simp only [Holds, hc]
      exact ⟨⟨hr.job, hr.last, hr.used, hr.seen⟩, hw.mem, hw.disk⟩
  · cases hs

theorem Inv.driver (hi : s.Inv m₀ d₀) (hs : s.driver = some s') : s'.Inv m₀ d₀ := by
  obtain ⟨m, d, ha, hh⟩ := hi
  rw [Blk.driver] at hs
  split at hs
  · cases hs
  · rename_i c n hc
    cases hs
    simp only [Holds, hc] at hh
    obtain ⟨hr, hw, has⟩ := hh
    obtain ⟨_, _, _, _, _, hlog, htorn, _⟩ := assign_kept s c n
    refine ⟨m, d, ?_, .setup hr hw has n.isLt⟩
    simp only [hlog, htorn]
    exact ha
  · rename_i c hc
    simp only [Holds, hc] at hh
    obtain ⟨k, hp, hch, hav, hw⟩ := hh
    split at hs
    · cases hs
      refine ⟨m, d, ha, ?_⟩
      simp only [Holds, hc]
      exact ⟨k, hp, hch, hav, hw⟩
    · rename_i hne
      cases hs
      refine ⟨m, d, ha, k, ?_, hne, hw.mem, hw.disk⟩
      cases hp with
      | posted _ _ hu _ => exact absurd hu hne
      | moving _ _ _ hu _ => exact absurd hu hne
      | reported _ _ _ _ hu _ _ _ => exact absurd hu hne
      | published _ hj hl hu hk hst => exact .published k hj hl hu hk hst
  · rename_i c hc
    cases hs
    simp only [Holds, hc] at hh
    obtain ⟨k, hp, hne, hw⟩ := hh
    cases hp with
    | posted _ _ hu _ => exact absurd hu hne
    | moving _ _ _ hu _ => exact absurd hu hne
    | reported _ _ _ _ hu _ _ _ => exact absurd hu hne
    | published _ hj hl hu hk hst =>
      refine ⟨_, _, ha.rw c _ k hk ?_, ⟨hj, hl, hu, hu⟩, hw.mem, hw.disk⟩
      rcases hst with ⟨hst, hfull⟩ | ⟨hst, ht⟩
      · exact .inl ⟨if_pos hst, hfull⟩
      · exact .inr ⟨if_neg hst, ht⟩

/-- A byte is written that has nothing to do with the call under way. -/
theorem Inv.poke (hi : s.Inv m₀ d₀) (hs : s.poke j v = some s') : s'.Inv m₀ d₀ := by
  obtain ⟨m, d, ha, hh⟩ := hi
  rw [Blk.poke] at hs
  split at hs
  · cases hs
  · rename_i hj
    cases hs
    obtain ⟨hown, hbuf⟩ := not_or.1 hj
    have hshow {m : Nat → UInt8} {d : Nat → Block} (hw : s.Shows m d) :
        ({ s.setByte j v with log := s.log ++ [.poke j v] } : Blk L).Shows
          (Function.update m j v) d := by
      refine ⟨?_, hw.disk⟩
      intro i hi
      by_cases hij : i = j
      · subst hij
        simp [setByte]
      · simp only [setByte, Function.update_of_ne hij]
        exact hw.mem i hi
    have hkept {i : Nat} (hi : L.Own i) : Function.update s.mem j v i = s.mem i := by
      apply Function.update_of_ne
      intro he
      exact hown (he ▸ hi)
    have hprog {k : Nat} (hp : s.Progress k) :
        ({ s.setByte j v with log := s.log ++ [.poke j v] } : Blk L).Progress k := by
      have hst := hkept (bstatus_own L)
      cases hp with
      | posted hj hl hu hr => exact .posted hj hl hu hr
      | moving _ hj hl hu hk => exact .moving k hj hl hu hk
      | reported _ st hj hl hu hk hm hst' => exact .reported k st hj hl hu hk (hst.trans hm) hst'
      | published _ hj hl hu hk hst' =>
        refine .published k hj hl hu hk ?_
        simp only [setByte, hst]
        exact hst'
    refine ⟨Function.update m j v, d, ha.poke j v, ?_⟩
    cases hc : s.call with
    | idle =>
      obtain ⟨hr, hw⟩ := (holds_idle hc).1 hh
      refine (holds_idle ?_).2 ⟨⟨hr.job, hr.last, hr.used, hr.seen⟩, hshow hw⟩
      exact hc
    | setup c n =>
      obtain ⟨hr, hw, has⟩ := (holds_setup hc).1 hh
      refine (holds_setup (n := n) ?_).2 ⟨⟨hr.job, hr.last, hr.used, hr.seen⟩, hshow hw, ?_,
        has.desc0, has.desc1, ?_, has.desc2, has.ring⟩
      · exact hc
      · intro hn k hk
        exact (hkept (header_own L hk)).trans (has.header hn k hk)
      · intro hn
        exact (hkept (bstatus_own L)).trans (has.status hn)
    | poll c =>
      simp only [InBuf, hc] at hbuf
      obtain ⟨k, hp, hch, hav, hw⟩ := (holds_poll hc).1 hh
      refine (holds_poll (c := c) ?_).2 ⟨k, hprog hp, ⟨?_, hch.desc0, hch.desc1, hch.desc2⟩, hav, ?_⟩
      · exact hc
      · intro i hi
        exact (hkept (header_own L hi)).trans (hch.header i hi)
      · rw [DiskReq.memAfter_update hbuf hp.le, DiskReq.diskAfter_update hbuf]
        exact hshow hw
    | finish c =>
      simp only [InBuf, hc] at hbuf
      obtain ⟨k, hp, hne, hw⟩ := (holds_finish hc).1 hh
      refine (holds_finish (c := c) ?_).2 ⟨k, hprog hp, hne, ?_⟩
      · exact hc
      · rw [DiskReq.memAfter_update hbuf hp.le, DiskReq.diskAfter_update hbuf]
        exact hshow hw

/-- A step of the device is one on the request that the driver waits for. -/
theorem Holds.device (hh : s.Holds m d) (hj : s.job.isSome ∨ s.lastAvail ≠ s.availIdx) :
    ∃ c k, s.call = .poll c ∧ s.Progress k ∧ s.Chain c ∧ s.availIdx = s.usedSeen + 1 ∧
      s.Shows (c.memAfter m d k) (c.diskAfter m d k) := by
  have hrest (hr : s.AtRest) : False := by
    rcases hj with hj | hj
    · rw [hr.job] at hj
      cases hj
    · exact hj hr.last
  cases hc : s.call with
  | idle =>
    simp only [Holds, hc] at hh
    exact (hrest hh.1).elim
  | setup c n =>
    simp only [Holds, hc] at hh
    exact (hrest hh.1).elim
  | poll c =>
    simp only [Holds, hc] at hh
    obtain ⟨k, hp, hch, hav, hw⟩ := hh
    exact ⟨c, k, rfl, hp, hch, hav, hw⟩
  | finish c =>
    simp only [Holds, hc] at hh
    obtain ⟨k, hp, hne, hw⟩ := hh
    cases hp with
    | posted _ _ hu _ => exact absurd hu hne
    | moving _ _ _ hu _ => exact absurd hu hne
    | reported _ _ _ _ hu _ _ _ => exact absurd hu hne
    | published _ hjob hl _ _ _ =>
      rcases hj with hj | hj
      · rw [hjob] at hj
        cases hj
      · exact absurd hl hj

theorem Inv.take (hi : s.Inv m₀ d₀) (hs : s.take = some s') : s'.Inv m₀ d₀ := by
  obtain ⟨m, d, ha, hh⟩ := hi
  rw [Blk.take] at hs
  split at hs
  · cases hs
  · rename_i hne
    cases hs
    obtain ⟨hjob, hlast⟩ := not_or.1 hne
    obtain ⟨c, k, hc, hp, hch, hav, hw⟩ := hh.device (.inr hlast)
    refine ⟨m, d, ha, ?_⟩
    simp only [Holds, hc]
    cases hp with
    | posted _ hl hu hr =>
      refine ⟨0, .moving 0 ?_ ?_ hu (Nat.zero_le _),
        ⟨hch.header, hch.desc0, hch.desc1, hch.desc2⟩, hav, hw.mem, hw.disk⟩
      · simp only [hl, hr]
        rfl
      · simp only [hl, hav]
    | moving _ hj _ _ _ =>
      rw [hj] at hjob
      exact absurd rfl hjob
    | reported _ _ hj _ _ _ _ _ =>
      rw [hj] at hjob
      exact absurd rfl hjob
    | published _ _ hl _ _ _ => exact absurd hl hlast

/-- The request of the call under way, before its status is written. -/
structure Moving (s : Blk L) (m : Nat → UInt8) (d : Nat → Block) (c : DiskReq L) (k : Nat) :
    Prop where
  call : s.call = .poll c
  job : s.job = some ⟨0, k, none⟩
  chain : s.Chain c
  last : s.lastAvail = s.availIdx
  used : s.usedIdx = s.usedSeen
  le : k ≤ BSIZE
  avail : s.availIdx = s.usedSeen + 1
  shows : s.Shows (c.memAfter m d k) (c.diskAfter m d k)

theorem Moving.holds (hm : s.Moving m d c k) : s.Holds m d :=
  (holds_poll hm.call).2 ⟨k, .moving k hm.job hm.last hm.used hm.le, hm.chain, hm.avail, hm.shows⟩

theorem Holds.moving (hh : s.Holds m d) (hj : s.job = some ⟨head, k, none⟩) :
    ∃ c, s.Moving m d c k := by
  obtain ⟨c, k', hc, hp, hch, hav, hw⟩ := hh.device (.inl (by rw [hj]; rfl))
  cases hp with
  | posted hj' _ _ _ =>
    rw [hj] at hj'
    cases hj'
  | reported _ _ hj' _ _ _ _ _ =>
    rw [hj] at hj'
    cases hj'
  | published _ hj' _ _ _ _ =>
    rw [hj] at hj'
    cases hj'
  | moving _ hj' hl hu hk =>
    rw [hj] at hj'
    cases hj'
    exact ⟨c, hc, hj, hch, hl, hu, hk, hav, hw⟩

/-- The chain leads the device to the header, the sector and the buffer of the call. -/
theorem Moving.move (hm : s.Moving m d c k) :
    s.move = if k < BSIZE then
      let s' := { s with job := some ⟨0, k + 1, none⟩ }
      some (if c.write then
        { s' with disk := Function.update s.disk c.block.toNat fun i =>
          if i.val = k then s.mem (c.buf + k) else s.disk c.block.toNat i }
      else s'.setByte (c.buf + k) ((s.disk c.block.toNat).byte k))
    else none := by
  have htype := DiskReq.header_type hm.chain.header
  have hsector := DiskReq.header_sector hm.chain.header
  have hnext : (1 : UInt16).toNat = 1 := rfl
  simp only [Blk.move, hm.job, hm.chain.desc0, htype, hsector, hnext, hm.chain.desc1,
    DiskReq.data_len, and_self]
  split
  · cases hwr : c.write with
    | true =>
      have hflags : c.data.flags &&& VRING_DESC_F_WRITE = 0 := DiskReq.data_flags.2 hwr
      simp only [if_true, hflags, and_self]
      rfl
    | false =>
      have hflags : c.data.flags &&& VRING_DESC_F_WRITE ≠ 0 := by
        rw [ne_eq, DiskReq.data_flags, hwr]
        exact Bool.false_ne_true
      simp only [Bool.false_eq_true, if_false, hflags, and_false, true_and, ne_eq,
        not_false_eq_true, if_true]
      rfl
  · rfl

theorem Moving.moved (hm : s.Moving m d c k) (hs : s.move = some s') :
    s'.Moving m d c (k + 1) := by
  have hw := hm.shows
  have hch := hm.chain
  rw [hm.move] at hs
  split at hs
  · rename_i hlt
    have hin : ¬ L.Own (c.buf + k) :=
      c.apart _ (Nat.le_add_right _ _) (Nat.add_lt_add_left hlt _)
    cases hwr : c.write with
    | true =>
      simp only [hwr, if_true, Option.some.injEq] at hs
      subst hs
      refine ⟨hm.call, rfl, ⟨hch.header, hch.desc0, hch.desc1, hch.desc2⟩, hm.last, hm.used, hlt,
        hm.avail, ?_, ?_⟩
      · intro j hj
        rw [DiskReq.memAfter_write hwr]
        exact (hw.mem j hj).trans (congrFun (DiskReq.memAfter_write hwr) j)
      · have hbyte : s.mem (c.buf + k) = m (c.buf + k) :=
          (hw.mem _ hin).trans (congrFun (DiskReq.memAfter_write hwr) _)
        rw [DiskReq.diskAfter_succ hwr, ← hw.disk, ← hbyte]
    | false =>
      simp only [hwr, Bool.false_eq_true, if_false, Option.some.injEq] at hs
      subst hs
      have hother {i : Nat} (hi : L.Own i) : i ≠ c.buf + k := by
        intro he
        exact hin (he ▸ hi)
      refine ⟨hm.call, rfl, ⟨?_, hch.desc0, hch.desc1, hch.desc2⟩, hm.last, hm.used, hlt, hm.avail,
        ?_, ?_⟩
      · intro i hi
        exact (Function.update_of_ne (hother (header_own L hi)) _ _).trans (hch.header i hi)
      · intro j hj
        have hd : s.disk = d := hw.disk.trans (DiskReq.diskAfter_read hwr)
        rw [DiskReq.memAfter_succ hwr]
        by_cases he : j = c.buf + k
        · subst he
          rw [Function.update_self, ← hd]
          exact Function.update_self ..
        · rw [Function.update_of_ne he]
          exact (Function.update_of_ne he _ _).trans (hw.mem j hj)
      · rw [DiskReq.diskAfter_read hwr]
        exact hw.disk.trans (DiskReq.diskAfter_read hwr)
  · cases hs

theorem move_job (hs : s.move = some s') :
    (∃ head k, s.job = some ⟨head, k, none⟩) ∧ s'.log = s.log ∧ s'.torn = s.torn := by
  simp only [Blk.move] at hs
  split at hs
  · rename_i head k hj
    refine ⟨⟨head, k, hj⟩, ?_⟩
    split at hs
    · split at hs
      · cases hs
        exact ⟨rfl, rfl⟩
      · split at hs
        · cases hs
          exact ⟨rfl, rfl⟩
        · cases hs
    · cases hs
  · cases hs

theorem Inv.move (hi : s.Inv m₀ d₀) (hs : s.move = some s') : s'.Inv m₀ d₀ := by
  obtain ⟨m, d, ha, hh⟩ := hi
  obtain ⟨⟨head, k, hj⟩, hlog, htorn⟩ := move_job hs
  obtain ⟨c, hm⟩ := hh.moving hj
  refine ⟨m, d, ?_, (hm.moved hs).holds⟩
  rw [hlog, htorn]
  exact ha

/-- The status byte that the device writes is the one that the call looks at. -/
theorem Moving.report (hm : s.Moving m d c k) (st : UInt8) :
    s.report st = if (st = 0 ∧ k = BSIZE) ∨ (st ≠ 0 ∧ (s.torn ∨ k = 0)) then
      some { s.setByte L.bstatus st with job := some ⟨0, k, some st⟩ }
    else none := by
  have hnext : (1 : UInt16).toNat = 1 := rfl
  have hlast : c.data.next.toNat = 2 := rfl
  simp only [Blk.report, hm.job, hm.chain.desc0, hnext, hm.chain.desc1, DiskReq.data_len, hlast,
    hm.chain.desc2]

theorem Inv.report (hi : s.Inv m₀ d₀) (hs : s.report st = some s') : s'.Inv m₀ d₀ := by
  obtain ⟨m, d, ha, hh⟩ := hi
  cases hjob : s.job with
  | none => simp only [Blk.report, hjob, reduceCtorEq] at hs
  | some job =>
    obtain ⟨head, k, status⟩ := job
    cases status with
    | some st' => simp only [Blk.report, hjob, reduceCtorEq] at hs
    | none =>
      obtain ⟨c, hm⟩ := hh.moving hjob
      have hch := hm.chain
      rw [hm.report] at hs
      split at hs
      · rename_i hst
        cases hs
        refine ⟨m, d, ha, (holds_poll (c := c) ?_).2 ⟨k, .reported k st rfl hm.last hm.used hm.le ?_
          hst, ⟨?_, hch.desc0, hch.desc1, hch.desc2⟩, hm.avail, ?_, hm.shows.disk⟩⟩
        · exact hm.call
        · exact Function.update_self ..
        · intro i hi
          exact (Function.update_of_ne (header_ne L hi) _ _).trans (hch.header i hi)
        · intro j hj
          have hne : j ≠ L.bstatus := fun he => hj (.inr he)
          exact (Function.update_of_ne hne _ _).trans (hm.shows.mem j hj)
      · cases hs

theorem Inv.publish (hi : s.Inv m₀ d₀) (hs : s.publish = some s') : s'.Inv m₀ d₀ := by
  obtain ⟨m, d, ha, hh⟩ := hi
  rw [Blk.publish] at hs
  split at hs
  · rename_i head k st hj
    cases hs
    obtain ⟨c, k', hc, hp, hch, hav, hw⟩ := hh.device (.inl (by rw [hj]; rfl))
    cases hp with
    | posted hj' _ _ _ =>
      rw [hj] at hj'
      cases hj'
    | moving _ hj' _ _ _ =>
      rw [hj] at hj'
      cases hj'
    | published _ hj' _ _ _ _ =>
      rw [hj] at hj'
      cases hj'
    | reported _ _ hj' hl hu hk hm hst =>
      rw [hj] at hj'
      cases hj'
      subst hm
      refine ⟨m, d, ha, (holds_poll (c := c) ?_).2 ⟨k, .published k rfl hl ?_ hk hst,
        ⟨hch.header, hch.desc0, hch.desc1, hch.desc2⟩, hav, hw.mem, hw.disk⟩⟩
      · exact hc
      · exact (congrArg (· + 1) hu).trans hav.symm
  · cases hs

theorem Inv.step (hi : s.Inv m₀ d₀) (hs : s.step a = some s') : s'.Inv m₀ d₀ := by
  cases a with
  | start c => exact hi.start hs
  | driver => exact hi.driver hs
  | poke j v => exact hi.poke hs
  | take => exact hi.take hs
  | move => exact hi.move hs
  | report st => exact hi.report hs
  | publish => exact hi.publish hs

theorem Inv.run (hi : s.Inv m₀ d₀) (hr : s.run as = some s') : s'.Inv m₀ d₀ := by
  induction as generalizing s with
  | nil =>
    cases hr
    exact hi
  | cons a as ih =>
    obtain ⟨t, ht, hr⟩ := Option.bind_eq_some_iff.1 hr
    exact ih (hi.step ht) hr

end Blk

end KernelHobby
