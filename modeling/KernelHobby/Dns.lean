import KernelHobby.NetReads

namespace KernelHobby
set_option autoImplicit true

/-- The loop of `dns_query` that skips the labels of a name, up to its zero byte or the end. -/
def skipLabels (r : Nat → UInt8) (rlen off : Nat) : Nat :=
  if off < rlen ∧ r off ≠ 0 then skipLabels r rlen (off + ((r off).toNat + 1)) else off
termination_by rlen - off

/-- The name of an answer: a compression pointer is two bytes. -/
def skipName (r : Nat → UInt8) (rlen off : Nat) : Nat :=
  if (r off) &&& 0xc0 = 0xc0 then off + 2 else skipLabels r rlen off + 1

/-- The record whose fixed part is at `off` holds an IPv4 address. -/
def IsA (r : Nat → UInt8) (off : Nat) : Prop := get16 r off = 1 ∧ get16 r (off + 8) = 4

instance (r : Nat → UInt8) (off : Nat) : Decidable (IsA r off) :=
  inferInstanceAs (Decidable (_ ∧ _))

/-- The loop over the answers: where the address is that it copies, `none` for -1. -/
def findA (r : Nat → UInt8) (rlen : Nat) : Nat → Nat → Option Nat
  | 0, _ => none
  | a + 1, off =>
    if off + 12 ≤ rlen then
      let off := skipName r rlen off
      if rlen < off + 10 then none
      else if IsA r off then some (off + 10)
      else findA r rlen a (off + 10 + get16 r (off + 8))
    else none

/-- Where the reply of `dns_query` has its answers. -/
def answersOff (r : Nat → UInt8) (rlen : Nat) : Nat := skipLabels r rlen 12 + (1 + 4)

/-- `dns_query` from the reply on: where the address is that it copies. -/
def dnsFind (r : Nat → UInt8) (rlen : Nat) : Option Nat :=
  if rlen < 12 then none
  else
    let an := get16 r 6
    if an < 1 then none else findA r rlen an (answersOff r rlen)

/-- What it copies to `out_ip`, `none` for -1. -/
def dnsReply (r : Nat → UInt8) (rlen : Nat) : Option (List UInt8) :=
  (dnsFind r rlen).map fun p => bytesAt r p 4

/-- The bytes of the reply that each part reads. -/
def labelReads (r : Nat → UInt8) (rlen off : Nat) : List Nat :=
  if off < rlen then
    off :: if r off ≠ 0 then off :: labelReads r rlen (off + ((r off).toNat + 1)) else []
  else []
termination_by rlen - off

def nameReads (r : Nat → UInt8) (rlen off : Nat) : List Nat :=
  off :: if (r off) &&& 0xc0 = 0xc0 then [] else labelReads r rlen off

def findReads (r : Nat → UInt8) (rlen : Nat) : Nat → Nat → List Nat
  | 0, _ => []
  | a + 1, off =>
    if off + 12 ≤ rlen then
      nameReads r rlen off ++
        let off := skipName r rlen off
        if rlen < off + 10 then []
        else span off 2 ++ span (off + 8) 2 ++
          if IsA r off then span (off + 10) 4
          else findReads r rlen a (off + 10 + get16 r (off + 8))
    else []

def dnsReads (r : Nat → UInt8) (rlen : Nat) : List Nat :=
  if rlen < 12 then []
  else span 6 2 ++
    if get16 r 6 < 1 then []
    else labelReads r rlen 12 ++ findReads r rlen (get16 r 6) (answersOff r rlen)

theorem skipLabels_step (hlt : off < rlen) (hne : r off ≠ 0) :
    skipLabels r rlen off = skipLabels r rlen (off + ((r off).toNat + 1)) := by
  rw [skipLabels, if_pos ⟨hlt, hne⟩]

theorem skipLabels_stop (h : ¬ (off < rlen ∧ r off ≠ 0)) : skipLabels r rlen off = off := by
  rw [skipLabels, if_neg h]

theorem skipLabels_agree (h : Agree q r (labelReads r rlen off)) :
    skipLabels q rlen off = skipLabels r rlen off := by
  induction off using skipLabels.induct r rlen with
  | case1 off hc ih =>
    rw [labelReads, if_pos hc.1, if_pos hc.2, agree_cons, agree_cons] at h
    obtain ⟨hoff, _, hrest⟩ := h
    rw [skipLabels_step hc.1 hc.2, skipLabels_step hc.1 (by rw [hoff]; exact hc.2), hoff, ih hrest]
  | case2 off hc =>
    rw [skipLabels_stop hc, skipLabels_stop]
    rintro ⟨hlt, hne⟩
    rw [labelReads, if_pos hlt, agree_cons] at h
    rw [h.1] at hne
    exact hc ⟨hlt, hne⟩

theorem skipName_agree (h : Agree q r (nameReads r rlen off)) :
    skipName q rlen off = skipName r rlen off := by
  rw [nameReads, agree_cons] at h
  obtain ⟨hoff, hrest⟩ := h
  rw [skipName, skipName, hoff]
  by_cases hptr : (r off) &&& 0xc0 = 0xc0
  · rw [if_pos hptr, if_pos hptr]
  · rw [if_neg hptr] at hrest
    rw [if_neg hptr, if_neg hptr, skipLabels_agree hrest]

theorem findA_agree (a off : Nat) (h : Agree q r (findReads r rlen a off)) :
    findA q rlen a off = findA r rlen a off := by
  induction a generalizing off with
  | zero => rfl
  | succ a ih =>
    rw [findA, findA]
    by_cases hroom : off + 12 ≤ rlen
    · rw [findReads, if_pos hroom, agree_append] at h
      rw [if_pos hroom, if_pos hroom, skipName_agree h.1]
      dsimp only at h ⊢
      by_cases hend : rlen < skipName r rlen off + 10
      · rw [if_pos hend, if_pos hend]
      · rw [if_neg hend, agree_append, agree_append] at h
        obtain ⟨_, ⟨htype, hrdlen⟩, hrest⟩ := h
        have hA : IsA q (skipName r rlen off) ↔ IsA r (skipName r rlen off) := by
          rw [IsA, IsA, htype.get16, hrdlen.get16]
        rw [if_neg hend, if_neg hend, hrdlen.get16]
        by_cases hA' : IsA r (skipName r rlen off)
        · rw [if_pos hA', if_pos (hA.2 hA')]
        · rw [if_neg hA'] at hrest
          rw [if_neg hA', if_neg fun hn => hA' (hA.1 hn), ih _ hrest]
    · rw [if_neg hroom, if_neg hroom]

theorem findA_reads (h : findA r rlen a off = some p) : span p 4 ⊆ findReads r rlen a off := by
  induction a generalizing off with
  | zero => cases h
  | succ a ih =>
    rw [findA] at h
    rw [findReads]
    split at h
    · rename_i hroom
      rw [if_pos hroom]
      dsimp only at h ⊢
      split at h
      · cases h
      · rename_i hend
        rw [if_neg hend]
        split at h
        · rename_i hA
          cases h
          rw [if_pos hA]
          intro i hi
          exact List.mem_append_right _ (List.mem_append_right _ hi)
        · rename_i hA
          rw [if_neg hA]
          intro i hi
          exact List.mem_append_right _ (List.mem_append_right _ (ih h hi))
    · cases h

/-- The address that is copied is among the bytes read. -/
theorem dnsFind_reads (h : dnsFind r rlen = some p) : span p 4 ⊆ dnsReads r rlen := by
  rw [dnsFind] at h
  rw [dnsReads]
  split at h
  · cases h
  · rename_i hshort
    dsimp only at h
    split at h
    · cases h
    · rename_i hnone
      rw [if_neg hshort, if_neg hnone]
      intro i hi
      exact List.mem_append_right _ (List.mem_append_right _ (findA_reads h hi))

theorem dnsFind_agree (h : Agree q r (dnsReads r rlen)) : dnsFind q rlen = dnsFind r rlen := by
  rw [dnsFind, dnsFind]
  rw [dnsReads] at h
  by_cases hshort : rlen < 12
  · rw [if_pos hshort, if_pos hshort]
  · rw [if_neg hshort, agree_append] at h
    rw [if_neg hshort, if_neg hshort, h.1.get16]
    dsimp only
    by_cases hnone : get16 r 6 < 1
    · rw [if_pos hnone, if_pos hnone]
    · rw [if_neg hnone, agree_append] at h
      rw [if_neg hnone, if_neg hnone, answersOff, skipLabels_agree h.2.1]
      exact findA_agree _ _ h.2.2

/-- The parser depends on the bytes it reads and on no others. -/
theorem dnsReply_agree (h : Agree q r (dnsReads r rlen)) :
    dnsReply q rlen = dnsReply r rlen := by
  rw [dnsReply, dnsReply, dnsFind_agree h]
  cases hp : dnsFind r rlen with
  | none => rfl
  | some p =>
    have hspan : Agree q r (span p 4) := fun i hi => h i (dnsFind_reads hp hi)
    rw [Option.map_some, Option.map_some, hspan.bytesAt]

/-- With `a` answers to go from `off` on, the walk comes to a record whose fixed part is at `p`. -/
inductive RecordAt (r : Nat → UInt8) (rlen : Nat) : Nat → Nat → Nat → Prop
  | here (hroom : off + 12 ≤ rlen) (hend : skipName r rlen off + 10 ≤ rlen) :
      RecordAt r rlen (a + 1) off (skipName r rlen off)
  | later (hroom : off + 12 ≤ rlen) (hend : skipName r rlen off + 10 ≤ rlen)
      (hA : ¬ IsA r (skipName r rlen off))
      (h : RecordAt r rlen a (skipName r rlen off + 10 + get16 r (skipName r rlen off + 8)) p) :
      RecordAt r rlen (a + 1) off p

theorem RecordAt.room (h : RecordAt r rlen a off p) : off + 12 ≤ rlen := by
  cases h with
  | here hroom _ => exact hroom
  | later hroom _ _ _ => exact hroom

/-- No address record that the walk comes to is cut off by the end of the reply. -/
def Uncut (r : Nat → UInt8) (rlen a off : Nat) : Prop :=
  ∀ p, RecordAt r rlen a off p → IsA r p → p + 14 ≤ rlen

theorem uncut_succ (r : Nat → UInt8) (rlen a off : Nat) :
    Uncut r rlen (a + 1) off ↔ (off + 12 ≤ rlen → skipName r rlen off + 10 ≤ rlen →
      (IsA r (skipName r rlen off) → skipName r rlen off + 14 ≤ rlen) ∧
      (¬ IsA r (skipName r rlen off) →
        Uncut r rlen a (skipName r rlen off + 10 + get16 r (skipName r rlen off + 8)))) := by
  constructor
  · intro h hroom hend
    refine ⟨fun hA => h _ (.here hroom hend) hA, fun hA p hp => ?_⟩
    exact h p (.later hroom hend hA hp)
  · intro h p hp hA
    cases hp with
    | here hroom hend => exact (h hroom hend).1 hA
    | later hroom hend hne hp => exact (h hroom hend).2 hne p hp hA

theorem within_labels (r : Nat → UInt8) (rlen off : Nat) : Within rlen (labelReads r rlen off) := by
  induction off using labelReads.induct r rlen with
  | case1 off hlt ih =>
    rw [labelReads, if_pos hlt, within_cons, within_ite, within_cons, within_nil]
    exact ⟨hlt, fun _ => ⟨hlt, ih⟩, fun _ => trivial⟩
  | case2 off hge =>
    rw [labelReads, if_neg hge, within_nil]
    trivial

theorem within_name (r : Nat → UInt8) (h : off < rlen) : Within rlen (nameReads r rlen off) := by
  rw [nameReads, within_cons, within_ite, within_nil]
  exact ⟨h, fun _ => trivial, fun _ => within_labels r rlen off⟩

theorem within_find (r : Nat → UInt8) (rlen a off : Nat) :
    Within rlen (findReads r rlen a off) ↔ Uncut r rlen a off := by
  induction a generalizing off with
  | zero =>
    rw [findReads, within_nil, true_iff]
    intro p hp
    cases hp
  | succ a ih =>
    rw [findReads, uncut_succ]
    by_cases hroom : off + 12 ≤ rlen
    · have hname := within_name r (show off < rlen by omega)
      rw [if_pos hroom, within_append]
      dsimp only
      by_cases hend : rlen < skipName r rlen off + 10
      · rw [if_pos hend, within_nil]
        refine ⟨fun _ _ hle => ?_, fun _ => ⟨hname, trivial⟩⟩
        omega
      · rw [if_neg hend, within_append, within_append, within_span, within_span, within_ite,
          within_span, ih]
        refine ⟨fun h _ _ => ⟨fun hA => h.2.2.1 hA (by decide), h.2.2.2⟩, fun h => ?_⟩
        obtain ⟨hA, hne⟩ := h hroom (by omega)
        exact ⟨hname, ⟨fun _ => by omega, fun _ => by omega⟩, fun h _ => hA h, hne⟩
    · rw [if_neg hroom, within_nil, true_iff]
      intro h
      exact absurd h hroom

/-- A reply of 29 bytes: one question for the root name, and one answer, for the same name and of
type A, that ends before its address. -/
def cutReply : List UInt8 :=
  [0x12, 0x34, 0x81, 0x80, 0, 1, 0, 1, 0, 0, 0, 0, 0, 0, 1, 0, 1, 0xc0, 12, 0, 1, 0, 1, 0, 0, 0, 60,
    0, 4]

end KernelHobby
