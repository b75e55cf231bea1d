import KernelHobby.Ring

namespace KernelHobby
set_option autoImplicit true

/-- Descriptors of a queue. -/
def NUM : Nat := 8

def BUFSZ : Nat := 2048

def NETHDR : Nat := 12

def VRING_DESC_F_WRITE : UInt16 := 2

/-- A descriptor; `addr` is the number of the buffer. -/
structure Desc where
  addr : Nat
  len : UInt32
  flags : UInt16
  next : UInt16

structure UsedElem where
  id : UInt32
  len : UInt32

/-- How far a call of `eth_rx` with room for `max` bytes has come: a packet is there, its entry
is read, `out` is copied, the entry is counted as seen, the buffer is in the available ring. -/
inductive RxCall where
  | idle
  | checked (max : Nat)
  | loaded (max : Nat) (id len : UInt32)
  | copying (max : Nat) (id : UInt32) (flen : Nat) (out : List UInt8)
  | seen (max : Nat) (id : UInt32) (out : List UInt8)
  | posted (max : Nat) (out : List UInt8)

/-- A completion of the device: the buffer, and the bytes that it has then. -/
structure Completion where
  id : Nat
  bytes : List UInt8

/-- The receive queue in memory, the driver and the device. `lastAvail` and `held` are the
device's own: how many entries it has taken, and the buffers it has not given back. `completions`
and `returned` record what the device and the calls of `eth_rx` have done. -/
structure Rx where
  desc : Nat → Desc
  availIdx : UInt16
  availRing : Nat → UInt16
  usedIdx : UInt16
  usedRing : Nat → UsedElem
  rxbuf : Nat → Nat → UInt8
  usedSeen : UInt16
  call : RxCall
  lastAvail : UInt16
  held : List Nat
  completions : List Completion
  returned : List (Nat × List UInt8)

namespace Rx

/-- `setup_queue`: the rings are zero. -/
def setupQueue (rxbuf : Nat → Nat → UInt8) : Rx where
  desc _ := ⟨0, 0, 0, 0⟩
  availIdx := 0
  availRing _ := 0
  usedIdx := 0
  usedRing _ := ⟨0, 0⟩
  rxbuf := rxbuf
  usedSeen := 0
  call := .idle
  lastAvail := 0
  held := []
  completions := []
  returned := []

/-- One round of the loop of `net_init` that offers the buffers. -/
def offer (s : Rx) (i : Nat) : Rx :=
  { s with
    desc := Function.update s.desc i ⟨i, BUFSZ.toUInt32, VRING_DESC_F_WRITE, 0⟩
    availRing := Function.update s.availRing i i.toUInt16 }

/-- The receive queue after `net_init`. -/
def netInit (rxbuf : Nat → Nat → UInt8) : Rx :=
  { (List.range NUM).foldl offer (setupQueue rxbuf) with availIdx := NUM.toUInt16 }

/-- How many bytes `eth_rx` copies. -/
def frameLen (max : Nat) (len : UInt32) : Nat :=
  if NETHDR < len.toNat then min (len.toNat - NETHDR) max else 0

/-- The next step of `eth_rx`, with room for `max` bytes where a call starts. -/
def ethRx (s : Rx) (max : Nat) : Rx :=
  match s.call with
  | .idle => if s.usedIdx = s.usedSeen then s else { s with call := .checked max }
  | .checked max =>
    let e := s.usedRing (s.usedSeen.toNat % NUM)
    { s with call := .loaded max e.id e.len }
  | .loaded max id len => { s with call := .copying max id (frameLen max len) [] }
  | .copying max id flen out =>
    if out.length < flen then
      { s with call := .copying max id flen (out ++ [s.rxbuf id.toNat (NETHDR + out.length)]) }
    else { s with usedSeen := s.usedSeen + 1, call := .seen max id out }
  | .seen max id out =>
    { s with
      availRing := Function.update s.availRing (s.availIdx.toNat % NUM) id.toUInt16
      call := .posted max out }
  | .posted max out =>
    { s with
      availIdx := s.availIdx + 1
      call := .idle
      returned := s.returned ++ [(max, out)] }

/-- The device takes the next buffer of the available ring. -/
def take (s : Rx) : Option Rx :=
  if s.lastAvail = s.availIdx then none
  else some { s with
    held := (s.availRing (s.lastAvail.toNat % NUM)).toNat :: s.held
    lastAvail := s.lastAvail + 1 }

/-- The device writes to a buffer that it holds. -/
def write (s : Rx) (id i : Nat) (b : UInt8) : Option Rx :=
  if id ∈ s.held ∧ i < (s.desc id).len.toNat then
    let a := (s.desc id).addr
    some { s with rxbuf := Function.update s.rxbuf a (Function.update (s.rxbuf a) i b) }
  else none

/-- The device gives a buffer back with `len` bytes. -/
def complete (s : Rx) (id : Nat) (len : UInt32) : Option Rx :=
  if id ∈ s.held ∧ len ≤ (s.desc id).len then
    some { s with
      usedRing := Function.update s.usedRing (s.usedIdx.toNat % NUM) ⟨id.toUInt32, len⟩
      usedIdx := s.usedIdx + 1
      held := s.held.erase id
      completions := s.completions ++
        [⟨id, (List.range len.toNat).map (s.rxbuf (s.desc id).addr)⟩] }
  else none

inductive Act where
  | ethRx (max : Nat)
  | take
  | write (id i : Nat) (b : UInt8)
  | complete (id : Nat) (len : UInt32)

def step (s : Rx) : Act → Option Rx
  | .ethRx max => some (s.ethRx max)
  | .take => s.take
  | .write id i b => s.write id i b
  | .complete id len => s.complete id len

/-- A run of the driver and a compliant device. -/
def run (s : Rx) : List Act → Option Rx
  | [] => some s
  | a :: as =>
    match s.step a with
    | some s' => s'.run as
    | none => none

/-- The buffers in the available ring that the device has not taken. -/
def offered (s : Rx) : List Nat :=
  (ringList s.availRing NUM s.lastAvail.toNat (gap s.lastAvail s.availIdx)).map UInt16.toNat

/-- The entries of the used ring that `eth_rx` has not counted as seen. -/
def used (s : Rx) : List UsedElem :=
  ringList s.usedRing NUM s.usedSeen.toNat (gap s.usedSeen s.usedIdx)

/-- The buffer that a call has seen and not given back yet. -/
def inHand (s : Rx) : List Nat :=
  match s.call with
  | .seen _ id _ => [id.toNat]
  | .posted _ _ => [(s.availRing (s.availIdx.toNat % NUM)).toNat]
  | _ => []

end Rx

/-- The frame of a completion, behind the header that the device puts before it. -/
def Completion.frame (c : Completion) : List UInt8 := c.bytes.drop NETHDR

namespace Rx
variable {s s' : Rx}

def usedIds (s : Rx) : List Nat := s.used.map fun e => e.id.toNat

/-- A used entry that has not been seen, and the completion that wrote it. -/
def Wrote (s : Rx) (c : Completion) (e : UsedElem) : Prop :=
  c.id = e.id.toNat ∧ c.bytes = (List.range e.len.toNat).map (s.rxbuf c.id)

/-- What a call returned, and the completion that it returned. -/
def Gave (r : Nat × List UInt8) (c : Completion) : Prop := r.2 = c.frame.take r.1

/-- The call has found this entry of the used ring. -/
def Found (s : Rx) (id len : UInt32) : Prop := ∃ rest, s.used = ⟨id, len⟩ :: rest

/-- The call under way, and the completion that it has seen and not returned yet. -/
def InCall (s : Rx) (cur : List Completion) : Prop :=
  match s.call with
  | .idle => cur = []
  | .checked _ => cur = [] ∧ ∃ id len, s.Found id len
  | .loaded _ id len => cur = [] ∧ s.Found id len
  | .copying max id flen out => cur = [] ∧ ∃ len, s.Found id len ∧ flen = frameLen max len ∧
      out.length ≤ flen ∧ out = (List.range out.length).map fun i => s.rxbuf id.toNat (NETHDR + i)
  | .seen max _ out => ∃ c, cur = [c] ∧ Gave (max, out) c
  | .posted max out => ∃ c, cur = [c] ∧ Gave (max, out) c

structure RxInv (s : Rx) (past cur pend : List Completion) : Prop where
  desc : ∀ id, id < NUM → (s.desc id).addr = id ∧ (s.desc id).len = BUFSZ.toUInt32
  once : ∀ id, s.offered.count id + s.held.count id + s.usedIds.count id + s.inHand.count id =
    if id < NUM then 1 else 0
  split : s.completions = past ++ cur ++ pend
  gave : List.Forall₂ Gave s.returned past
  wrote : List.Forall₂ s.Wrote pend s.used
  inCall : s.InCall cur
  small : ∀ c ∈ s.completions, c.bytes.length ≤ BUFSZ

theorem RxInv.perm (hi : RxInv s past cur pend) :
    (s.offered ++ s.held ++ s.usedIds ++ s.inHand).Perm (List.range NUM) := by
  rw [List.perm_iff_count]
  intro id
  have h := hi.once id
  rw [List.count_append, List.count_append, List.count_append, h, List.count_range]

/-- The rings have room for all buffers. -/
theorem RxInv.length (hi : RxInv s past cur pend) :
    gap s.lastAvail s.availIdx + s.held.length + gap s.usedSeen s.usedIdx + s.inHand.length =
      NUM := by
  have h := hi.perm.length_eq
  simpa [offered, usedIds, used, Nat.add_assoc] using h

theorem RxInv.lt {id : Nat} (hi : RxInv s past cur pend)
    (hm : id ∈ s.offered ∨ id ∈ s.held ∨ id ∈ s.usedIds ∨ id ∈ s.inHand) : id < NUM := by
  rw [← List.mem_range, ← hi.perm.mem_iff]
  simp only [List.mem_append]
  tauto

theorem num_dvd : NUM ∣ 2 ^ 16 := ⟨8192, rfl⟩

theorem RxInv.take (hi : RxInv s past cur pend) (hs : s.take = some s') :
    RxInv s' past cur pend := by
  rw [Rx.take] at hs
  split at hs
  · cases hs
  · rename_i hne
    cases hs
    have hoff : s.offered = (s.availRing (s.lastAvail.toNat % NUM)).toNat ::
        offered { s with lastAvail := s.lastAvail + 1 } := by
      rw [offered, gap_succ_left (Ne.symm hne), ringList_cons, List.map_cons, offered,
        ringList_congr _ _ (succ16_mod s.lastAvail num_dvd)]
    refine ⟨hi.desc, ?_, hi.split, hi.gave, hi.wrote, hi.inCall, hi.small⟩
    intro id
    have h := hi.once id
    rw [hoff, List.count_cons] at h
    rw [List.count_cons, ← h]
    simp only [offered, usedIds, used, inHand]
    omega

/-- A change that keeps the buffers of the used entries. -/
theorem forall₂_wrote {us : List UsedElem} (h : List.Forall₂ s.Wrote pend us)
    (hb : ∀ e ∈ us, s'.rxbuf e.id.toNat = s.rxbuf e.id.toNat) : List.Forall₂ s'.Wrote pend us := by
  induction h with
  | nil => exact .nil
  | cons hw _ ih =>
    refine .cons ⟨hw.1, ?_⟩ (ih fun e he => hb e (List.mem_cons_of_mem _ he))
    rw [hw.2, hw.1, hb _ List.mem_cons_self]

theorem InCall.congr (h : s.InCall cur) (hc : s'.call = s.call)
    (hf : ∀ id len, s.Found id len → s'.Found id len ∧ s'.rxbuf id.toNat = s.rxbuf id.toNat) :
    s'.InCall cur := by
  rw [InCall] at h ⊢
  rw [hc]
  split at h
  · exact h
  · obtain ⟨hn, id, len, hfo⟩ := h
    exact ⟨hn, id, len, (hf id len hfo).1⟩
  · exact ⟨h.1, (hf _ _ h.2).1⟩
  · obtain ⟨hn, len, hfo, hfl, hle, hout⟩ := h
    refine ⟨hn, len, (hf _ _ hfo).1, hfl, hle, ?_⟩
    rw [(hf _ _ hfo).2]
    exact hout
  · exact h
  · exact h

/-- Bytes of buffers that the device does not hold stay. -/
theorem RxInv.write {id : Nat} (hi : RxInv s past cur pend) (hs : s.write id i b = some s') :
    RxInv s' past cur pend := by
  rw [Rx.write] at hs
  split at hs
  · rename_i hm
    cases hs
    have hlt := hi.lt (.inr (.inl hm.1))
    -- the buffer is held, so no entry of the used ring names it
    have hother {k : Nat} (hk : k ∈ s.usedIds) :
        Function.update s.rxbuf (s.desc id).addr
          (Function.update (s.rxbuf (s.desc id).addr) i b) k = s.rxbuf k := by
      apply Function.update_of_ne
      rw [(hi.desc id hlt).1]
      rintro rfl
      have h := hi.once k
      have h₁ : 0 < s.held.count k := List.count_pos_iff.2 hm.1
      have h₂ : 0 < s.usedIds.count k := List.count_pos_iff.2 hk
      rw [if_pos hlt] at h
      omega
    refine ⟨hi.desc, hi.once, hi.split, hi.gave, ?_, ?_, hi.small⟩
    · exact forall₂_wrote hi.wrote fun e he => hother (List.mem_map.2 ⟨e, he, rfl⟩)
    · refine hi.inCall.congr rfl fun k len hf => ⟨hf, hother ?_⟩
      obtain ⟨rest, hu⟩ := hf
      exact List.mem_map.2 ⟨⟨k, len⟩, by rw [hu]; exact List.mem_cons_self, rfl⟩
  · cases hs

theorem toUInt32_toNat {n : Nat} (h : n < NUM) : n.toUInt32.toNat = n :=
  UInt32.toNat_ofNat_of_lt' (Nat.lt_trans h (by decide))

/-- The used ring with one more entry. -/
theorem used_push (hroom : gap s.usedSeen s.usedIdx < NUM) (hf : s'.usedSeen = s.usedSeen)
    (hx : s'.usedIdx = s.usedIdx + 1)
    (hr : s'.usedRing = Function.update s.usedRing (s.usedIdx.toNat % NUM) e) :
    s'.used = s.used ++ [e] := by
  have hlt : gap s.usedSeen s.usedIdx < 2 ^ 16 - 1 := Nat.lt_trans hroom (by decide)
  rw [used, hf, hx, hr, gap_succ_right hlt, ← add_gap_mod s.usedSeen s.usedIdx num_dvd]
  exact ringList_push _ _ hroom

theorem RxInv.complete {id : Nat} (hi : RxInv s past cur pend)
    (hs : s.complete id len = some s') :
    ∃ c, RxInv s' past cur (pend ++ [c]) := by
  rw [Rx.complete] at hs
  split at hs
  · rename_i hm
    have hlt := hi.lt (.inr (.inl hm.1))
    have hroom : gap s.usedSeen s.usedIdx < NUM := by
      have := hi.length
      have := List.length_pos_of_mem hm.1
      omega
    have hused : s'.used = s.used ++ [⟨id.toUInt32, len⟩] := by
      cases hs
      exact used_push hroom rfl rfl rfl
    have hids : s'.usedIds = s.usedIds ++ [id] := by
      rw [usedIds, hused, List.map_append, List.map_singleton, toUInt32_toNat hlt, usedIds]
    cases hs
    refine ⟨⟨id, (List.range len.toNat).map (s.rxbuf (s.desc id).addr)⟩, hi.desc, ?_, ?_, hi.gave,
      ?_, ?_, ?_⟩
    · intro k
      have h := hi.once k
      rw [hids, List.count_append, List.count_singleton]
      dsimp only [inHand, offered] at h ⊢
      rw [List.count_erase]
      have hpos : 0 < s.held.count id := List.count_pos_iff.2 hm.1
      by_cases hk : id = k
      · subst hk
        simp only [beq_self_eq_true, if_true]
        omega
      · simp only [beq_eq_false_iff_ne.2 hk, Bool.false_eq_true, if_false]
        omega
    · simp only [hi.split, List.append_assoc]
    · rw [hused]
      refine List.rel_append (forall₂_wrote hi.wrote fun _ _ => rfl) (.cons ⟨?_, ?_⟩ .nil)
      · exact (toUInt32_toNat hlt).symm
      · rw [(hi.desc id hlt).1]
    · refine hi.inCall.congr rfl fun k n hf => ⟨?_, rfl⟩
      obtain ⟨rest, hu⟩ := hf
      exact ⟨rest ++ [⟨id.toUInt32, len⟩], by rw [hused, hu, List.cons_append]⟩
    · intro c hc
      rcases List.mem_append.1 hc with hc | hc
      · exact hi.small c hc
      · rw [List.mem_singleton.1 hc, List.length_map, List.length_range]
        have hle := UInt32.le_iff_toNat_le.1 hm.2
        rw [(hi.desc id hlt).2] at hle
        exact hle
  · cases hs

/-- The frame of an entry, as far as there is room for it. -/
theorem Wrote.gave {id : UInt32} {max : Nat} (hw : s.Wrote c ⟨id, len⟩)
    (ho : out = (List.range (frameLen max len)).map fun i => s.rxbuf id.toNat (NETHDR + i)) :
    Gave (max, out) c := by
  obtain ⟨hid, hb⟩ := hw
  dsimp only at hid hb
  rw [Gave, Completion.frame, hb, ho, hid]
  apply List.ext_getElem
  · simp only [frameLen, List.length_map, List.length_range, List.length_take, List.length_drop]
    split
    · omega
    · omega
  · intro i h₁ h₂
    simp only [List.getElem_map, List.getElem_range, List.getElem_take, List.getElem_drop]

/-- A step of the driver inside of a call that leaves memory alone. -/
theorem RxInv.setCall (hi : RxInv s past cur pend) (hh : inHand { s with call := c } = s.inHand)
    (hc : InCall { s with call := c } cur) : RxInv { s with call := c } past cur pend := by
  refine ⟨hi.desc, ?_, hi.split, hi.gave, forall₂_wrote hi.wrote fun _ _ => rfl, hc, hi.small⟩
  intro k
  rw [hh]
  exact hi.once k

theorem Found.ne {id : UInt32} (hf : s.Found id len) : s.usedIdx ≠ s.usedSeen := by
  intro he
  obtain ⟨rest, hu⟩ := hf
  rw [used, gap_eq_zero.2 he] at hu
  cases hu

/-- The oldest entry that is not seen. -/
theorem found_head (hne : s.usedIdx ≠ s.usedSeen) :
    s.Found (s.usedRing (s.usedSeen.toNat % NUM)).id (s.usedRing (s.usedSeen.toNat % NUM)).len := by
  rw [Found, used, gap_succ_left hne, ringList_cons]
  exact ⟨_, rfl⟩

/-- The oldest entry is counted as seen, and its buffer is the driver's. -/
theorem RxInv.countSeen {id : UInt32} {max : Nat} (hi : RxInv s past [] pend)
    (hf : s.Found id len) (hh : s.inHand = [])
    (ho : out = (List.range (frameLen max len)).map fun i => s.rxbuf id.toNat (NETHDR + i)) :
    ∃ c pend', pend = c :: pend' ∧
      RxInv { s with usedSeen := s.usedSeen + 1, call := .seen max id out } past [c] pend' := by
  have hne := hf.ne
  obtain ⟨rest, hu⟩ := hf
  have hw := hi.wrote
  rw [hu] at hw
  obtain _ | ⟨hwc, hws⟩ := hw
  rename_i c pend'
  have hrest : used { s with usedSeen := s.usedSeen + 1, call := .seen max id out } = rest := by
    have hu' := hu
    rw [used, gap_succ_left hne, ringList_cons] at hu'
    rw [used, ringList_congr _ _ (succ16_mod s.usedSeen num_dvd)]
    exact (List.cons.inj hu').2
  refine ⟨c, pend', rfl, hi.desc, ?_, ?_, hi.gave, ?_, ⟨c, rfl, hwc.gave ho⟩, hi.small⟩
  · intro k
    have h := hi.once k
    rw [hh, usedIds, hu] at h
    rw [usedIds, hrest]
    simp only [List.map_cons, List.count_cons, List.count_nil, inHand, offered] at h ⊢
    omega
  · rw [hi.split]
    simp
  · rw [hrest]
    exact forall₂_wrote hws fun _ _ => rfl

theorem RxInv.post {id : UInt32} {max : Nat} (hi : RxInv s past cur pend)
    (hc : s.call = .seen max id out) :
    RxInv { s with
      availRing := Function.update s.availRing (s.availIdx.toNat % NUM) id.toUInt16
      call := .posted max out } past cur pend := by
  have hhand : s.inHand = [id.toNat] := by rw [inHand, hc]
  have hmem : id.toNat ∈ s.inHand := by
    rw [hhand]
    exact List.mem_singleton_self _
  have hlt : id.toNat < NUM := hi.lt (.inr (.inr (.inr hmem)))
  have hroom : gap s.lastAvail s.availIdx < NUM := by
    have := hi.length
    rw [hhand, List.length_singleton] at this
    omega
  have hid : id.toUInt16.toNat = id.toNat := by
    rw [UInt32.toNat_toUInt16]
    exact Nat.mod_eq_of_lt (Nat.lt_trans hlt (by decide))
  refine ⟨hi.desc, ?_, hi.split, hi.gave, forall₂_wrote hi.wrote fun _ _ => rfl, ?_, hi.small⟩
  · intro k
    have h := hi.once k
    rw [hhand] at h
    simp only [offered, inHand, Function.update_self, hid]
    rw [← add_gap_mod s.lastAvail s.availIdx num_dvd, ringList_update _ _ hroom]
    exact h
  · have h := hi.inCall
    rw [InCall, hc] at h
    exact h

theorem RxInv.giveBack {max : Nat} (hi : RxInv s past cur pend) (hc : s.call = .posted max out) :
    RxInv { s with
      availIdx := s.availIdx + 1
      call := .idle
      returned := s.returned ++ [(max, out)] } (past ++ cur) [] pend := by
  have hhand : s.inHand = [(s.availRing (s.availIdx.toNat % NUM)).toNat] := by rw [inHand, hc]
  have hlt : gap s.lastAvail s.availIdx < 2 ^ 16 - 1 := by
    have := hi.length
    simp only [NUM] at this
    omega
  have h := hi.inCall
  rw [InCall, hc] at h
  obtain ⟨c, rfl, hg⟩ := h
  refine ⟨hi.desc, ?_, ?_, ?_, forall₂_wrote hi.wrote fun _ _ => rfl, rfl, hi.small⟩
  · intro k
    have h := hi.once k
    rw [hhand] at h
    simp only [offered, inHand] at h ⊢
    rw [gap_succ_right hlt, ringList_snoc, add_gap_mod s.lastAvail s.availIdx num_dvd,
      List.map_append, List.count_append, List.map_singleton, List.count_nil]
    change _ + _ + List.count k s.usedIds + 0 = _
    omega
  · simp only [hi.split, List.append_nil]
  · exact List.rel_append hi.gave (.cons hg .nil)

theorem RxInv.ethRx (hi : RxInv s past cur pend) (m : Nat) :
    ∃ past cur pend, RxInv (s.ethRx m) past cur pend := by
  have hin := hi.inCall
  rw [InCall] at hin
  rw [Rx.ethRx]
  split at hin
  · rename_i hc
    split
    · exact ⟨past, cur, pend, hi⟩
    · rename_i hne
      refine ⟨past, cur, pend, hi.setCall (by simp [inHand, hc]) ?_⟩
      exact ⟨hin, _, _, found_head (s := { s with call := .checked m }) hne⟩
  · rename_i max hc
    obtain ⟨hn, id, len, hf⟩ := hin
    refine ⟨past, cur, pend, hi.setCall (by simp [inHand, hc]) ⟨hn, ?_⟩⟩
    obtain ⟨rest, hr⟩ := found_head hf.ne
    exact ⟨rest, hr⟩
  · rename_i max id len hc
    refine ⟨past, cur, pend, hi.setCall (by simp [inHand, hc]) ?_⟩
    exact ⟨hin.1, len, hin.2, rfl, Nat.zero_le _, rfl⟩
  · rename_i max id flen out hc
    obtain ⟨rfl, len, hf, hfl, hle, hout⟩ := hin
    split
    · -- one more byte
      rename_i hlt
      refine ⟨past, [], pend, hi.setCall (by simp [inHand, hc]) ⟨rfl, len, hf, hfl, ?_, ?_⟩⟩
      · rw [List.length_append, List.length_singleton]
        exact hlt
      · rw [List.length_append, List.length_singleton, List.range_succ, List.map_append, ← hout]
        rfl
    · rename_i hge
      have hlen : out.length = frameLen max len := by omega
      rw [hlen] at hout
      obtain ⟨c, pend', -, hi'⟩ := hi.countSeen hf (by rw [inHand, hc]) hout
      exact ⟨past, [c], pend', hi'⟩
  · rename_i max id out hc
    exact ⟨past, cur, pend, hi.post hc⟩
  · rename_i max out hc
    exact ⟨past ++ cur, [], pend, hi.giveBack hc⟩

theorem RxInv.step (hi : RxInv s past cur pend) (hs : s.step a = some s') :
    ∃ past cur pend, RxInv s' past cur pend := by
  cases a with
  | ethRx max =>
    cases hs
    exact hi.ethRx max
  | take => exact ⟨past, cur, pend, hi.take hs⟩
  | write id i b => exact ⟨past, cur, pend, hi.write hs⟩
  | complete id len =>
    obtain ⟨c, hi'⟩ := hi.complete hs
    exact ⟨past, cur, pend ++ [c], hi'⟩

theorem RxInv.run (hi : RxInv s past cur pend) (hr : s.run as = some s') :
    ∃ past cur pend, RxInv s' past cur pend := by
  induction as generalizing s past cur pend with
  | nil =>
    cases hr
    exact ⟨past, cur, pend, hi⟩
  | cons a as ih =>
    simp only [Rx.run] at hr
    split at hr
    · rename_i u hu
      obtain ⟨past', cur', pend', hi'⟩ := hi.step hu
      exact ih hi' hr
    · cases hr

/-- A table that is `f` below `n` gets its next entry. -/
theorem update_below {α : Type} (f g : Nat → α) (n : Nat) :
    Function.update (fun i => if i < n then f i else g i) n (f n) =
      fun i => if i < n + 1 then f i else g i := by
  funext i
  by_cases h : i = n
  · rw [h, Function.update_self, if_pos (Nat.lt_succ_self n)]
  · have hlt : i < n + 1 ↔ i < n := by omega
    rw [Function.update_of_ne h]
    simp only [hlt]

/-- The buffers that the loop of `net_init` has offered after `n` rounds. -/
theorem foldl_offer (s : Rx) (n : Nat) : (List.range n).foldl offer s = { s with
    desc := fun i => if i < n then ⟨i, BUFSZ.toUInt32, VRING_DESC_F_WRITE, 0⟩ else s.desc i
    availRing := fun i => if i < n then i.toUInt16 else s.availRing i } := by
  induction n with
  | zero => simp
  | succ n ih =>
    rw [List.range_succ, List.foldl_append, ih, List.foldl_cons, List.foldl_nil, offer]
    congr 1
    · exact update_below _ _ n
    · exact update_below _ _ n

theorem netInit_offered (rxbuf : Nat → Nat → UInt8) :
    (netInit rxbuf).offered = List.range NUM := by
  have hgap : gap 0 NUM.toUInt16 = NUM := by decide
  rw [offered, netInit, foldl_offer]
  simp only [setupQueue]
  rw [hgap, ringList, List.map_map]
  conv_rhs => rw [← List.map_id (List.range NUM)]
  apply List.map_congr_left
  intro i hi
  rw [List.mem_range] at hi
  have hmod : (UInt16.toNat 0 + i) % NUM = i := by
    rw [UInt16.toNat_zero, Nat.zero_add, Nat.mod_eq_of_lt hi]
  simp only [Function.comp_apply, hmod, if_pos hi]
  exact UInt16.toNat_ofNat_of_lt' (Nat.lt_trans hi (by decide))

theorem RxInv.netInit (rxbuf : Nat → Nat → UInt8) : RxInv (netInit rxbuf) [] [] [] := by
  have hoff := netInit_offered rxbuf
  rw [Rx.netInit, foldl_offer] at hoff ⊢
  refine ⟨?_, ?_, rfl, .nil, ?_, rfl, nofun⟩
  · intro id hid
    simp only [if_pos hid]
    exact ⟨trivial, trivial⟩
  · intro id
    rw [hoff, List.count_range]
    simp [setupQueue, usedIds, used, inHand]
  · simp only [setupQueue, used, gap_self, ringList_zero]
    exact .nil

/-- A call with room for a whole buffer returns the whole frame. -/
theorem Gave.whole {r : Nat × List UInt8} (hg : Gave r c) (hb : c.bytes.length ≤ BUFSZ)
    (hr : BUFSZ - NETHDR ≤ r.1) : r.2 = c.frame := by
  rw [Gave] at hg
  rw [hg]
  apply List.take_of_length_le
  rw [Completion.frame, List.length_drop]
  omega

theorem forall₂_whole (hg : List.Forall₂ Gave rs cs) (hb : ∀ c ∈ cs, c.bytes.length ≤ BUFSZ) :
    List.Forall₂ (fun r c => r.2 = c.frame.take r.1 ∧ (BUFSZ - NETHDR ≤ r.1 → r.2 = c.frame))
      rs cs := by
  induction hg with
  | nil => exact .nil
  | cons hg _ ih =>
    exact .cons ⟨hg, hg.whole (hb _ List.mem_cons_self)⟩
      (ih fun c hc => hb c (List.mem_cons_of_mem _ hc))

/-- The receive queue in every state that the driver and a compliant device reach. Each buffer is
offered, held by the device, in an entry that is not seen, or in the hand of a call that has just
seen it and is about to offer it again. The place where that call puts it holds no entry that the
device has not taken. The calls have returned the completions, each once and in their order. -/
theorem rx_conservation (rxbuf : Nat → Nat → UInt8) (hr : (netInit rxbuf).run as = some s) :
    (∀ id < NUM, s.offered.count id + s.held.count id + s.usedIds.count id +
      s.inHand.count id = 1) ∧
    (s.call = .idle → s.inHand = []) ∧
    (∀ max id out, s.call = .seen max id out → ∀ j < gap s.lastAvail s.availIdx,
      (s.lastAvail.toNat + j) % NUM ≠ s.availIdx.toNat % NUM) ∧
    List.Forall₂ (fun r c => r.2 = c.frame.take r.1 ∧ (BUFSZ - NETHDR ≤ r.1 → r.2 = c.frame))
      s.returned (s.completions.take s.returned.length) ∧
    (s.call = .idle → s.usedIdx = s.usedSeen → s.returned.length = s.completions.length) := by
  obtain ⟨past, cur, pend, hi⟩ := (RxInv.netInit rxbuf).run hr
  have hlen := hi.gave.length_eq
  refine ⟨?_, ?_, ?_, ?_, ?_⟩
  · intro id hid
    rw [hi.once id, if_pos hid]
  · intro hc
    rw [inHand, hc]
  · intro max id out hc j hj
    rw [← add_gap_mod s.lastAvail s.availIdx num_dvd]
    refine ringList_next_ne ?_ hj
    have h := hi.length
    rw [inHand, hc, List.length_singleton] at h
    omega
  · have hpast : s.completions.take s.returned.length = past := by
      rw [hi.split, List.append_assoc, hlen, List.take_left]
    have hsmall : ∀ c ∈ past, c.bytes.length ≤ BUFSZ := by
      intro c hc
      refine hi.small c ?_
      rw [hi.split, List.append_assoc]
      exact List.mem_append_left _ hc
    rw [hpast]
    exact forall₂_whole hi.gave hsmall
  · intro hc hu
    have hin := hi.inCall
    rw [InCall, hc] at hin
    have hp := hi.wrote.length_eq
    rw [used, gap_eq_zero.2 hu, ringList_zero, List.length_nil] at hp
    rw [hi.split, hin, List.length_eq_zero_iff.1 hp, hlen]
    simp

/-- The device fills the first two buffers and gives the second one back, which is received. -/
def rxRun : List Act :=
  [.take, .take, .write 1 12 7, .complete 1 13] ++ List.replicate 7 (.ethRx BUFSZ)

theorem rx_conservation_one : ∃ s, (netInit fun _ _ => 0).run rxRun = some s ∧
    s.returned = [(BUFSZ, [7])] ∧ s.held = [0] ∧ s.offered = [2, 3, 4, 5, 6, 7, 1] ∧
    ∀ id < NUM, s.offered.count id + s.held.count id + s.usedIds.count id +
      s.inHand.count id = 1 := by
  have hsome : ((netInit fun _ _ => 0).run rxRun).isSome := by decide +kernel
  have hret : ((netInit fun _ _ => 0).run rxRun).map returned = some [(BUFSZ, [7])] := by
    decide +kernel
  have hheld : ((netInit fun _ _ => 0).run rxRun).map held = some [0] := by decide +kernel
  have hoff : ((netInit fun _ _ => 0).run rxRun).map offered = some [2, 3, 4, 5, 6, 7, 1] := by
    decide +kernel
  obtain ⟨s, hs⟩ := Option.isSome_iff_exists.1 hsome
  rw [hs] at hret hheld hoff
  exact ⟨s, hs, Option.some.inj hret, Option.some.inj hheld, Option.some.inj hoff,
    (rx_conservation _ hs).1⟩

end Rx

end KernelHobby
