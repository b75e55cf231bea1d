import KernelHobby.Dns

namespace KernelHobby
set_option autoImplicit true

/-- A label of a domain name. -/
structure Label where
  text : List UInt8
  pos : 0 < text.length
  short : text.length < 64

/-- How a name ends: in the root, or in a compression pointer to an earlier place. -/
inductive NameEnd where
  | root
  | ptr (target : Fin 16384)

/-- A domain name as a message has it. -/
structure DomainName where
  labels : List Label
  tail : NameEnd

/-- A resource record. -/
structure Record where
  name : DomainName
  type : UInt16
  class_ : UInt16
  ttl : UInt32
  rdata : List UInt8
  short : rdata.length < 65536

/-- A reply with one question; `rest` is what follows the answers. -/
structure Reply where
  id : UInt16
  flags : UInt16
  nscount : UInt16
  arcount : UInt16
  qname : List Label
  qtype : UInt16
  qclass : UInt16
  answers : List Record
  rest : List UInt8
  few : answers.length < 65536

def Label.encode (l : Label) : List UInt8 := l.text.length.toUInt8 :: l.text

def encodeLabels (ls : List Label) : List UInt8 := ls.flatMap Label.encode

def NameEnd.encode : NameEnd → List UInt8
  | .root => [0]
  | .ptr target => put16 (0xc000 + target.val).toUInt16

def DomainName.encode (n : DomainName) : List UInt8 := encodeLabels n.labels ++ n.tail.encode

/-- The part of a record after its name. -/
def Record.fixed (rr : Record) : List UInt8 :=
  put16 rr.type ++ put16 rr.class_ ++ put32 rr.ttl ++ put16 rr.rdata.length.toUInt16 ++ rr.rdata

def Record.encode (rr : Record) : List UInt8 := rr.name.encode ++ rr.fixed

def encodeAnswers (rrs : List Record) : List UInt8 := rrs.flatMap Record.encode

def Reply.header (m : Reply) : List UInt8 :=
  put16 m.id ++ put16 m.flags ++ put16 1 ++ put16 m.answers.length.toUInt16 ++ put16 m.nscount ++
    put16 m.arcount

def Reply.encode (m : Reply) : List UInt8 :=
  m.header ++ (encodeLabels m.qname ++ [0] ++ (put16 m.qtype ++ put16 m.qclass) ++
    (encodeAnswers m.answers ++ m.rest))

/-- An IPv4 address record. -/
def Record.IsA (rr : Record) : Prop := rr.type = 1 ∧ rr.rdata.length = 4

instance (rr : Record) : Decidable rr.IsA := inferInstanceAs (Decidable (_ ∧ _))

/-- The address that a resolver is asked for. -/
def firstA : List Record → Option (List UInt8)
  | [] => none
  | rr :: rrs => if rr.IsA then some rr.rdata else firstA rrs

/-- The answers up to the first address record. -/
def upToA : List Record → List Record
  | [] => []
  | rr :: rrs => if rr.IsA then [rr] else rr :: upToA rrs

/-- The owner name is in full, or a compression pointer alone. -/
def DomainName.Unmixed (n : DomainName) : Prop := n.tail = .root ∨ n.labels = []

/-- A buffer has these bytes from `off` on. -/
def HoldsAt (r : Nat → UInt8) (off : Nat) (l : List UInt8) : Prop :=
  ∀ i, i < l.length → r (off + i) = bufOf l i

theorem holdsAt_append : HoldsAt r off (a ++ b) ↔ HoldsAt r off a ∧ HoldsAt r (off + a.length) b := by
  constructor
  · intro h
    refine ⟨fun i hi => ?_, fun i hi => ?_⟩
    · rw [h i (by rw [List.length_append]; omega), bufOf_append_left hi]
    · rw [Nat.add_assoc, h (a.length + i) (by rw [List.length_append]; omega), bufOf_append rfl]
  · rintro ⟨ha, hb⟩ i hi
    by_cases hlt : i < a.length
    · rw [ha i hlt, bufOf_append_left hlt]
    · obtain ⟨j, rfl⟩ := Nat.exists_eq_add_of_le (Nat.le_of_not_lt hlt)
      rw [List.length_append] at hi
      rw [← Nat.add_assoc, hb j (by omega), bufOf_append rfl]

theorem Label.first (l : Label) : l.text.length.toUInt8.toNat = l.text.length := by
  have hs := l.short
  rw [Nat.toUInt8_eq, UInt8.toNat_ofNat']
  omega

theorem length_encodeLabels_cons (l : Label) (ls : List Label) :
    (encodeLabels (l :: ls)).length = l.text.length + 1 + (encodeLabels ls).length := by
  rw [encodeLabels, List.flatMap_cons, List.length_append, Label.encode, List.length_cons,
    encodeLabels]

/-- The label loop goes over the labels of a name that ends in the root. -/
theorem skipLabels_encode (ls : List Label) (h : HoldsAt r off (encodeLabels ls ++ [0]))
    (hlen : off + (encodeLabels ls).length < rlen) :
    skipLabels r rlen off = off + (encodeLabels ls).length := by
  induction ls generalizing off with
  | nil =>
    have hz : r off = 0 := h 0 (by decide)
    rw [skipLabels_stop fun hn => hn.2 hz]
    rfl
  | cons l ls ih =>
    have hpos := l.pos
    rw [length_encodeLabels_cons] at hlen ⊢
    have hfirst : r off = l.text.length.toUInt8 := h 0 (by simp)
    have hnat : (r off).toNat = l.text.length := by rw [hfirst, l.first]
    have hne : r off ≠ 0 := by
      intro hz
      rw [hz] at hnat
      exact absurd hnat.symm (Nat.ne_of_gt hpos)
    have hrest : HoldsAt r (off + (l.text.length + 1)) (encodeLabels ls ++ [0]) := by
      have hsplit : encodeLabels (l :: ls) ++ [0] = l.encode ++ (encodeLabels ls ++ [0]) := by
        simp [encodeLabels]
      rw [hsplit, holdsAt_append] at h
      exact h.2
    rw [skipLabels_step (by omega) hne, hnat, ih hrest (by omega)]
    omega

theorem byte_pointer : ∀ n, n < 256 → 192 ≤ n → n &&& 192 = 192 := by decide +kernel

theorem byte_label : ∀ n, n < 64 → n &&& 192 = 0 := by decide

theorem not_pointer (h : b.toNat < 64) : (b : UInt8) &&& 0xc0 ≠ 0xc0 := by
  intro hp
  have hn := congrArg UInt8.toNat hp
  rw [UInt8.toNat_and] at hn
  have hz := byte_label b.toNat h
  exact absurd (hz.symm.trans hn) (by decide)

theorem NameEnd.first (target : Fin 16384) :
    ((0xc000 + target.val).toUInt16 >>> 8).toUInt8 &&& 0xc0 = 0xc0 := by
  have ht := target.isLt
  apply UInt8.toNat_inj.1
  rw [UInt8.toNat_and]
  apply byte_pointer
  · exact UInt8.toNat_lt _
  · rw [UInt16.toNat_toUInt8, UInt16.toNat_shiftRight, Nat.shiftRight_eq_div_pow, Nat.toUInt16_eq,
      UInt16.toNat_ofNat']
    have h8 : (8 : UInt16).toNat % 16 = 8 := rfl
    rw [h8]
    omega

/-- A name that is not labels and then a pointer is skipped as a whole. -/
theorem skipName_encode (n : DomainName) (hn : n.Unmixed) (h : HoldsAt r off n.encode)
    (hlen : off + n.encode.length ≤ rlen) : skipName r rlen off = off + n.encode.length := by
  obtain ⟨labels, tail⟩ := n
  cases tail with
  | root =>
    have hle : (DomainName.mk labels .root).encode.length = (encodeLabels labels).length + 1 := by
      simp [DomainName.encode, NameEnd.encode]
    rw [hle] at hlen ⊢
    have hlabel : (r off).toNat < 64 := by
      have hoff := h 0 (by omega)
      rw [Nat.add_zero] at hoff
      cases labels with
      | nil =>
        rw [hoff]
        decide
      | cons l ls =>
        rw [hoff]
        show l.text.length.toUInt8.toNat < 64
        rw [l.first]
        exact l.short
    rw [skipName, if_neg (not_pointer hlabel), skipLabels_encode labels h (by omega)]
    rfl
  | ptr target =>
    have hnil : labels = [] := by
      rcases hn with hroot | hnil
      · cases hroot
      · exact hnil
    subst hnil
    have hoff : r off = ((0xc000 + target.val).toUInt16 >>> 8).toUInt8 :=
      h 0 (show 0 < 2 by decide)
    rw [skipName, hoff, if_pos (NameEnd.first target)]
    rfl

theorem length_encode (rr : Record) :
    rr.encode.length = rr.name.encode.length + 10 + rr.rdata.length := by
  simp [Record.encode, Record.fixed, put16, put32]
  omega

theorem name_pos (n : DomainName) : 0 < n.encode.length := by
  rw [DomainName.encode, List.length_append]
  cases n.tail with
  | root => exact Nat.succ_pos _
  | ptr target => exact Nat.succ_pos _

theorem fixed_type (rr : Record) (h : HoldsAt r p rr.fixed) : get16 r p = rr.type.toNat := by
  have hlen : 10 ≤ rr.fixed.length := by
    simp [Record.fixed, put16, put32]
  exact get16_put16 r p (h 0 (by omega)) (h 1 (by omega))

theorem fixed_rdlen (rr : Record) (h : HoldsAt r p rr.fixed) :
    get16 r (p + 8) = rr.rdata.length := by
  have hlen : 10 ≤ rr.fixed.length := by
    simp [Record.fixed, put16, put32]
  have hs := rr.short
  rw [get16_put16 (v := rr.rdata.length.toUInt16) r (p + 8) (h 8 (by omega)) (h 9 (by omega)),
    Nat.toUInt16_eq, UInt16.toNat_ofNat']
  omega

theorem fixed_rdata (rr : Record) (h : HoldsAt r p rr.fixed) :
    bytesAt r (p + 10) rr.rdata.length = rr.rdata := by
  have hsplit := (holdsAt_append.1 h).2
  exact bytesAt_eq hsplit

theorem fixed_isA (rr : Record) (h : HoldsAt r p rr.fixed) : IsA r p ↔ rr.IsA := by
  have hone : (1 : UInt16).toNat = 1 := rfl
  rw [IsA, Record.IsA, fixed_type rr h, fixed_rdlen rr h, ← UInt16.toNat_inj, hone]

theorem length_encodeAnswers_cons (rr : Record) (rrs : List Record) :
    (encodeAnswers (rr :: rrs)).length = rr.encode.length + (encodeAnswers rrs).length := by
  rw [encodeAnswers, List.flatMap_cons, List.length_append, encodeAnswers]

/-- An address record has at least 15 bytes. -/
theorem firstA_length (h : firstA rrs = some ip) : 15 ≤ (encodeAnswers rrs).length := by
  induction rrs with
  | nil => cases h
  | cons rr rrs ih =>
    have hpos := name_pos rr.name
    rw [length_encodeAnswers_cons]
    rw [firstA] at h
    split at h
    · rename_i hA
      have h4 := hA.2
      rw [length_encode]
      omega
    · have hrest := ih h
      omega

/-- The walk keeps in step with the answers, up to the first address record. -/
theorem findA_encode (rrs : List Record) (hunm : ∀ rr ∈ upToA rrs, rr.name.Unmixed)
    (h : HoldsAt r off (encodeAnswers rrs)) (hlen : off + (encodeAnswers rrs).length ≤ rlen) :
    (findA r rlen rrs.length off).map (fun p => bytesAt r p 4) = firstA rrs := by
  induction rrs generalizing off with
  | nil => rfl
  | cons rr rrs ih =>
    by_cases hroom : off + 12 ≤ rlen
    · have hrr : rr.name.Unmixed := by
        apply hunm
        rw [upToA]
        split
        · exact List.mem_singleton_self rr
        · exact List.mem_cons_self
      rw [length_encodeAnswers_cons, length_encode] at hlen
      have hsplit : encodeAnswers (rr :: rrs) = rr.name.encode ++ (rr.fixed ++ encodeAnswers rrs) := by
        rw [encodeAnswers, List.flatMap_cons, Record.encode, List.append_assoc, encodeAnswers]
      rw [hsplit, holdsAt_append, holdsAt_append] at h
      obtain ⟨hname, hfixed, hrest⟩ := h
      have hskip : skipName r rlen off = off + rr.name.encode.length :=
        skipName_encode rr.name hrr hname (by omega)
      rw [List.length_cons, findA, if_pos hroom, hskip]
      dsimp only
      rw [if_neg (by omega), fixed_rdlen rr hfixed, firstA]
      by_cases hA : rr.IsA
      · have hdata := fixed_rdata rr hfixed
        rw [hA.2] at hdata
        rw [if_pos ((fixed_isA rr hfixed).2 hA), if_pos hA, Option.map_some, hdata]
      · have hnext : off + rr.name.encode.length + rr.fixed.length =
            off + rr.name.encode.length + 10 + rr.rdata.length := by
          simp [Record.fixed, put16, put32]
          omega
        rw [hnext] at hrest
        rw [if_neg fun hn => hA ((fixed_isA rr hfixed).1 hn), if_neg hA]
        apply ih
        · intro rr' hmem
          apply hunm
          rw [upToA, if_neg hA]
          exact List.mem_cons_of_mem _ hmem
        · exact hrest
        · omega
    · -- no room for an address record
      have hnone : firstA (rr :: rrs) = none := by
        cases hfirst : firstA (rr :: rrs) with
        | none => rfl
        | some ip =>
          have h15 := firstA_length hfirst
          omega
      rw [hnone, List.length_cons, findA, if_neg hroom]
      rfl

/-- The parser finds the address of a reply none of whose answers, up to the first address record,
is for labels and then a pointer. -/
theorem dnsReply_firstA (m : Reply) (hunm : ∀ rr ∈ upToA m.answers, rr.name.Unmixed)
    (h : HoldsAt r 0 m.encode) : dnsReply r m.encode.length = firstA m.answers := by
  have hhead : m.header.length = 12 := rfl
  have hlen : m.encode.length = 12 + ((encodeLabels m.qname).length + 5 +
      ((encodeAnswers m.answers).length + m.rest.length)) := by
    simp only [Reply.encode, List.length_append, hhead, put16, List.length_cons, List.length_nil]
  obtain ⟨hheader, hbody⟩ := holdsAt_append.1 h
  obtain ⟨hquestion, htail⟩ := holdsAt_append.1 hbody
  obtain ⟨hq, _⟩ := holdsAt_append.1 hquestion
  obtain ⟨hans, _⟩ := holdsAt_append.1 htail
  rw [hhead, Nat.zero_add] at hq
  have han : get16 r 6 = m.answers.length := by
    have hfew := m.few
    rw [get16_put16 (v := m.answers.length.toUInt16) r 6
      ((congrArg r (Nat.zero_add 6)).symm.trans (hheader 6 (by rw [hhead]; decide)))
      ((congrArg r (Nat.zero_add 7)).symm.trans (hheader 7 (by rw [hhead]; decide))),
      Nat.toUInt16_eq, UInt16.toNat_ofNat']
    omega
  have hskip : skipLabels r m.encode.length 12 = 12 + (encodeLabels m.qname).length :=
    skipLabels_encode m.qname hq (by omega)
  have hoff : answersOff r m.encode.length = 12 + (encodeLabels m.qname).length + 5 := by
    rw [answersOff, hskip]
  have hplace : 0 + m.header.length +
      (encodeLabels m.qname ++ [0] ++ (put16 m.qtype ++ put16 m.qclass)).length =
        12 + (encodeLabels m.qname).length + 5 := by
    simp only [hhead, List.length_append, put16, List.length_cons, List.length_nil]
    omega
  rw [hplace] at hans
  rw [dnsReply, dnsFind, if_neg (by omega), hoff, han]
  dsimp only
  by_cases hnone : m.answers.length < 1
  · have hnil : m.answers = [] := List.length_eq_zero_iff.1 (by omega)
    rw [if_pos hnone, hnil]
    rfl
  · rw [if_neg hnone]
    exact findA_encode m.answers hunm hans (by omega)

/-- A reply to a question for `a`: it is an alias of `b`, and that has the address 1.2.3.4. -/
def fullReply : Reply where
  id := 0x1234
  flags := 0x8180
  nscount := 0
  arcount := 0
  qname := [⟨[97], by decide, by decide⟩]
  qtype := 1
  qclass := 1
  answers := [⟨⟨[], .ptr 12⟩, 5, 1, 60, [1, 98, 0], by decide⟩,
    ⟨⟨[⟨[98], by decide, by decide⟩], .root⟩, 1, 1, 60, [1, 2, 3, 4], by decide⟩]
  rest := []
  few := by decide

theorem fullReply_found :
    dnsReply (bufOf fullReply.encode) fullReply.encode.length = some [1, 2, 3, 4] := by
  apply dnsReply_firstA fullReply
  · intro rr hrr
    have hall : upToA fullReply.answers = fullReply.answers := rfl
    rw [hall, fullReply, List.mem_cons, List.mem_singleton] at hrr
    rcases hrr with rfl | rfl
    · exact .inr rfl
    · exact .inl rfl
  · intro i _
    rw [Nat.zero_add]

/-- The name `b.a` where the reply has `a` at 12 already. -/
def sharedTail : DomainName := ⟨[⟨[98], by decide, by decide⟩], .ptr 12⟩

/-- A reply to a question for `a`: it is an alias of `b.a`, and that has the address 1.2.3.4. -/
def aliasReply : Reply where
  id := 0x1234
  flags := 0x8180
  nscount := 0
  arcount := 0
  qname := [⟨[97], by decide, by decide⟩]
  qtype := 1
  qclass := 1
  answers := [⟨⟨[], .ptr 12⟩, 5, 1, 60, sharedTail.encode, by decide⟩,
    ⟨sharedTail, 1, 1, 60, [1, 2, 3, 4], by decide⟩]
  rest := []
  few := by decide

theorem aliasReply_missed : firstA aliasReply.answers = some [1, 2, 3, 4] ∧
    dnsReply (bufOf aliasReply.encode) aliasReply.encode.length = none := by
  decide +kernel

end KernelHobby
