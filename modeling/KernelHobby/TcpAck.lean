import KernelHobby.Tcp

namespace KernelHobby
set_option autoImplicit true

namespace Segment

/-- The sequence number of the first byte of the payload; a SYN has one of its own before it. -/
def start (s : Segment) : UInt32 := if s.syn then s.seq + 1 else s.seq

/-- The byte with sequence number `b` is in the payload. -/
def Covers (s : Segment) (b : UInt32) : Prop := (b - s.start).toNat < s.len

def FromPeer (p s : Segment) : Prop := s.ip = p.ip ∧ s.port = p.port

instance : DecidablePred (FromPeer p) := fun _ => inferInstanceAs (Decidable (_ ∧ _))

end Segment

/-- The byte with sequence number `b` was received. -/
def Received (ss : List Segment) (b : UInt32) : Prop := ∃ s ∈ ss, s.Covers b

/-- From sequence number `e` on there are `k` bytes, and the next one is missing. -/
def Contig (S : UInt32 → Prop) (e : UInt32) (k : Nat) : Prop :=
  (∀ j < k, S (e + j.toUInt32)) ∧ ¬ S (e + k.toUInt32)

/-- A FIN that comes right behind the bytes received with it and before. -/
def FinInOrder (e : UInt32) (ss : List Segment) (s : Segment) : Prop :=
  s.fin = true ∧ ∃ k, Contig (Received (ss ++ [s])) e k ∧
    s.start + s.len.toUInt32 = e + k.toUInt32

def FinReceived (e : UInt32) (ss : List Segment) : Prop :=
  ∃ pre s post, ss = pre ++ s :: post ∧ FinInOrder e pre s

/-- The acknowledgement for what was received, where the stream of the peer starts at `e`. -/
def Exact (e : UInt32) (ss : List Segment) (ack : UInt32) : Prop :=
  ∃ k, Contig (Received ss) e k ∧
    (FinReceived e ss ∧ ack = e + k.toUInt32 + 1 ∨ ¬ FinReceived e ss ∧ ack = e + k.toUInt32)

/-- A segment that was sent acknowledges what the peer had sent by then. -/
def Sent.AckExact (o : Sent) : Prop :=
  match o.after with
  | [] => False
  | syn :: ss => Exact (syn.seq + 1) ((syn :: ss).filter syn.FromPeer) o.ack

/-- A FIN without payload, at the next sequence number or the one before. -/
def ClosesAt (e : UInt32) : List Segment → Prop
  | [] => True
  | s :: _ => s.fin = true → s.syn = false ∧ s.len = 0 ∧ (e - s.seq).toNat ≤ 1

/-- The FIN at sequence number `e` again. -/
def ClosesAgain (e : UInt32) : List Segment → Prop
  | [] => True
  | s :: _ => s.fin = true → s.seq = e ∧ (s.syn = true ∨ s.len = 0)

/-- The first segment with payload or FIN, of `n` at most, has payload or FIN and not both. Its
payload starts at `e`, or before and goes up to there, and a FIN is at `e` or just before. -/
def DataFrom (e : UInt32) : Nat → List Segment → Prop
  | 0, ss => ClosesAt e ss
  | _, [] => True
  | n + 1, s :: ss =>
    if 0 < s.len then
      s.syn = false ∧ s.fin = false ∧ (e - s.seq).toNat ≤ s.len ∧
        ClosesAt (s.seq + s.len.toUInt32) ss
    else if s.fin then
      s.syn = false ∧ (s.seq = e ∧ ClosesAgain e ss ∨ s.seq + 1 = e ∧ ClosesAt e ss)
    else DataFrom e n ss

/-- The segments come in order as far as the demo acknowledges them. -/
def InOrder : List Segment → Prop
  | [] => True
  | syn :: ss => syn.len = 0 ∧ syn.fin = false ∧ DataFrom (syn.seq + 1) DATA_TRIES ss

instance ClosesAt.dec (e : UInt32) : DecidablePred (ClosesAt e)
  | [] => isTrue trivial
  | s :: _ =>
    inferInstanceAs (Decidable (s.fin = true → s.syn = false ∧ s.len = 0 ∧ (e - s.seq).toNat ≤ 1))

instance ClosesAgain.dec (e : UInt32) : DecidablePred (ClosesAgain e)
  | [] => isTrue trivial
  | s :: _ => inferInstanceAs (Decidable (s.fin = true → s.seq = e ∧ (s.syn = true ∨ s.len = 0)))

instance DataFrom.dec (e : UInt32) : ∀ n, DecidablePred (DataFrom e n)
  | 0, ss => ClosesAt.dec e ss
  | _ + 1, [] => isTrue trivial
  | n + 1, _ :: ss =>
    have := DataFrom.dec e n ss
    inferInstanceAs (Decidable (ite _ _ (ite _ _ _)))

instance InOrder.dec : DecidablePred InOrder
  | [] => isTrue trivial
  | syn :: ss => inferInstanceAs
    (Decidable (syn.len = 0 ∧ syn.fin = false ∧ DataFrom (syn.seq + 1) DATA_TRIES ss))

theorem toUInt32_lt {n : Nat} (h : n < 2 ^ 32) : n.toUInt32.toNat = n :=
  UInt32.toNat_ofNat_of_lt' h

theorem add_toUInt32_inj (a : UInt32) {m n : Nat} (hm : m < 2 ^ 32) (hn : n < 2 ^ 32) :
    a + m.toUInt32 = a + n.toUInt32 ↔ m = n := by
  rw [UInt32.add_right_inj]
  constructor
  · intro h
    have ht := congrArg UInt32.toNat h
    rwa [toUInt32_lt hm, toUInt32_lt hn] at ht
  · rintro rfl
    rfl

/-- How far `x` is behind `a`. -/
theorem add_sub_toNat (a x : UInt32) : a + (x - a).toNat.toUInt32 = x := by
  rw [Nat.toUInt32_eq, UInt32.ofNat_toNat, UInt32.add_comm, UInt32.sub_add_cancel]

theorem add_toUInt32_add (a : UInt32) (m n : Nat) :
    a + m.toUInt32 + n.toUInt32 = a + (m + n).toUInt32 := by
  rw [Nat.toUInt32_eq, Nat.toUInt32_eq, Nat.toUInt32_eq, UInt32.ofNat_add, UInt32.add_assoc]

theorem sub_add_toNat (a : UInt32) {n : Nat} (hn : n < 2 ^ 32) :
    (a + n.toUInt32 - a).toNat = n := by
  rw [UInt32.add_comm, UInt32.add_sub_cancel, toUInt32_lt hn]

theorem Contig.unique (h : Contig S e k) (h' : Contig S e k') : k = k' := by
  rcases Nat.lt_trichotomy k k' with hlt | rfl | hlt
  · exact absurd (h'.1 k hlt) h.2
  · rfl
  · exact absurd (h.1 k' hlt) h'.2

theorem received_snoc (ss : List Segment) (s : Segment) (b : UInt32) :
    Received (ss ++ [s]) b ↔ Received ss b ∨ s.Covers b := by
  constructor
  · rintro ⟨x, hx, hb⟩
    rcases List.mem_append.1 hx with hx | hx
    · exact .inl ⟨x, hx, hb⟩
    · rw [List.mem_singleton.1 hx] at hb
      exact .inr hb
  · rintro (⟨x, hx, hb⟩ | hb)
    · exact ⟨x, List.mem_append_left _ hx, hb⟩
    · exact ⟨s, List.mem_append_right _ (List.mem_singleton.2 rfl), hb⟩

theorem finReceived_snoc (e : UInt32) (ss : List Segment) (s : Segment) :
    FinReceived e (ss ++ [s]) ↔ FinReceived e ss ∨ FinInOrder e ss s := by
  constructor
  · rintro ⟨pre, x, post, he, hf⟩
    rcases List.eq_nil_or_concat post with rfl | ⟨post, y, rfl⟩
    · obtain ⟨h₁, h₂⟩ := List.append_inj' he rfl
      rw [List.cons.injEq] at h₂
      exact .inr (h₁ ▸ h₂.1 ▸ hf)
    · rw [List.concat_eq_append, ← List.cons_append, ← List.append_assoc] at he
      obtain ⟨h₁, _⟩ := List.append_inj' he rfl
      exact .inl ⟨pre, x, post, h₁, hf⟩
  · rintro (⟨pre, x, post, rfl, hf⟩ | hf)
    · exact ⟨pre, x, post ++ [s], by simp, hf⟩
    · exact ⟨ss, s, [], rfl, hf⟩

/-- What was received is the block of `n` bytes from `a` on, which goes on to `e` at least. -/
structure Stretch (e : UInt32) (ss : List Segment) (a : UInt32) (n : Nat) : Prop where
  bytes : ∀ b, Received ss b ↔ (b - a).toNat < n
  small : n ≤ BUFSZ
  reach : (e - a).toNat ≤ n

theorem Stretch.contig (hb : Stretch e ss a n) : ∃ k, k ≤ n ∧ Contig (Received ss) e k ∧
    e + k.toUInt32 = a + n.toUInt32 := by
  have hr := hb.reach
  have hs := hb.small
  have hlt : n < 2 ^ 32 := Nat.lt_of_le_of_lt hs (by decide)
  have he (j : Nat) : e + j.toUInt32 = a + ((e - a).toNat + j).toUInt32 := by
    rw [← add_toUInt32_add, add_sub_toNat]
  refine ⟨n - (e - a).toNat, Nat.sub_le _ _, ⟨?_, ?_⟩, ?_⟩
  · intro j hj
    rw [hb.bytes, he, sub_add_toNat a (by omega)]
    omega
  · rw [hb.bytes, he, sub_add_toNat a (by omega)]
    omega
  · rw [he, Nat.add_sub_cancel' hr]

/-- One more segment after a block: the bytes go on from its end as far as the segment has them. -/
theorem Stretch.snoc_contig (hb : Stretch e ss a n) (s : Segment) :
    ∃ k, Contig (Received (ss ++ [s])) e k ∧ e + k.toUInt32 =
      a + n.toUInt32 + (s.len - (a + n.toUInt32 - s.start).toNat).toUInt32 := by
  obtain ⟨k, hkn, hk, hke⟩ := hb.contig
  have hn := hb.small
  generalize ho : (a + n.toUInt32 - s.start).toNat = o
  have hx : a + n.toUInt32 = s.start + o.toUInt32 := by rw [← ho, add_sub_toNat]
  have hlt : o < 2 ^ 32 := by
    rw [← ho]
    exact UInt32.toNat_lt _
  have hlen : s.len ≤ BUFSZ := s.small
  have hB : BUFSZ < 2 ^ 31 := by decide
  refine ⟨k + (s.len - o), ⟨?_, ?_⟩, ?_⟩
  · intro j hj
    rw [received_snoc]
    by_cases hjk : j < k
    · exact .inl (hk.1 j hjk)
    · right
      obtain ⟨i, rfl⟩ := Nat.exists_eq_add_of_le (Nat.not_lt.1 hjk)
      rw [← add_toUInt32_add, hke, hx, add_toUInt32_add, Segment.Covers, sub_add_toNat _ (by omega)]
      omega
  · rw [received_snoc, ← add_toUInt32_add, hke]
    rintro (h | h)
    · rw [hb.bytes, add_toUInt32_add, sub_add_toNat _ (by omega)] at h
      omega
    · rw [hx, add_toUInt32_add, Segment.Covers, sub_add_toNat _ (by omega)] at h
      omega
  · rw [← add_toUInt32_add, hke]

/-- How far the segment starts before the end of the block. -/
def back (x : UInt32) (s : Segment) : Nat := (x - s.start).toNat

theorem start_back (x : UInt32) (s : Segment) : s.start + (back x s).toUInt32 = x :=
  add_sub_toNat s.start x

theorem back_lt (x : UInt32) (s : Segment) : back x s < 2 ^ 32 := UInt32.toNat_lt _

theorem Stretch.snoc (hb : Stretch e ss a n) (hx : x = a + n.toUInt32) (s : Segment) :
    ∃ k, Contig (Received (ss ++ [s])) e k ∧
      e + k.toUInt32 = s.start + (max s.len (back x s)).toUInt32 := by
  obtain ⟨k, hk, hke⟩ := hb.snoc_contig s
  refine ⟨k, hk, ?_⟩
  rw [hke, ← hx, ← back]
  have hs := start_back x s
  generalize back x s = o at hs ⊢
  rw [← hs, add_toUInt32_add]
  congr 2
  omega

theorem Stretch.finInOrder (hb : Stretch e ss a n) (hx : x = a + n.toUInt32) :
    FinInOrder e ss s ↔ s.fin = true ∧ back x s ≤ s.len := by
  obtain ⟨k, hk, hke⟩ := hb.snoc hx s
  have hlt := back_lt x s
  have hlen : s.len < 2 ^ 32 := Nat.lt_of_le_of_lt s.small (by decide)
  constructor
  · rintro ⟨hf, k', hk', he⟩
    refine ⟨hf, ?_⟩
    rw [hk'.unique hk, hke, add_toUInt32_inj _ hlen (by omega)] at he
    omega
  · rintro ⟨hf, hle⟩
    refine ⟨hf, k, hk, ?_⟩
    rw [hke, Nat.max_eq_left hle]

/-- The exact acknowledgement after one more segment. -/
theorem Stretch.exact_snoc {ack : UInt32} (hb : Stretch e ss a n) (hx : x = a + n.toUInt32)
    (hf : ¬ FinReceived e ss) : Exact e (ss ++ [s]) ack ↔
      if s.fin = true ∧ back x s ≤ s.len then ack = s.start + (s.len + 1).toUInt32
      else ack = s.start + (max s.len (back x s)).toUInt32 := by
  obtain ⟨k, hk, hke⟩ := hb.snoc hx s
  have hfin : FinReceived e (ss ++ [s]) ↔ s.fin = true ∧ back x s ≤ s.len := by
    rw [finReceived_snoc, hb.finInOrder hx]
    exact ⟨fun h => h.resolve_left hf, .inr⟩
  have hexact : Exact e (ss ++ [s]) ack ↔
      FinReceived e (ss ++ [s]) ∧ ack = e + k.toUInt32 + 1 ∨
        ¬ FinReceived e (ss ++ [s]) ∧ ack = e + k.toUInt32 := by
    constructor
    · rintro ⟨k', hk', h⟩
      rwa [hk'.unique hk] at h
    · exact fun h => ⟨k, hk, h⟩
  rw [hexact, hfin, hke]
  split
  · rename_i h
    simp only [h, true_and, not_true_eq_false, false_and, or_false]
    rw [Nat.max_eq_left h.2, ← add_toUInt32_add]
    rfl
  · rename_i h
    simp only [h, false_and, not_false_eq_true, true_and, false_or]

theorem Stretch.exact_fin {ack : UInt32} (hb : Stretch e ss a n) (hx : x = a + n.toUInt32)
    (hf : FinReceived e ss) : Exact e (ss ++ [s]) ack ↔
      ack = s.start + (max s.len (back x s)).toUInt32 + 1 := by
  obtain ⟨k, hk, hke⟩ := hb.snoc hx s
  have hfin : FinReceived e (ss ++ [s]) := (finReceived_snoc e ss s).2 (.inl hf)
  rw [← hke]
  constructor
  · rintro ⟨k', hk', h | h⟩
    · rw [hk'.unique hk] at h
      exact h.2
    · exact absurd hfin h.1
  · exact fun h => ⟨k, hk, .inl ⟨hfin, h⟩⟩

theorem start_of_not_syn {s : Segment} (h : s.syn = false) : s.start = s.seq := by
  simp [Segment.start, h]

theorem start_of_syn {s : Segment} (h : s.syn = true) : s.start = s.seq + 1 := by
  simp [Segment.start, h]

theorem succ_eq (a : UInt32) : a + 1 = a + (1 : Nat).toUInt32 := rfl

theorem eq_add_toUInt32 (a : UInt32) {m : Nat} (hm : m < 2 ^ 32) :
    a = a + m.toUInt32 ↔ m = 0 := by
  have hz : a + (0 : Nat).toUInt32 = a := UInt32.add_zero a
  rw [← add_toUInt32_inj a hm (Nat.two_pow_pos 32), hz, eq_comm]

theorem len_lt (s : Segment) : s.len < 2 ^ 31 := Nat.lt_of_le_of_lt s.small (by decide)

/-- The acknowledgement of a FIN, `seq + 1`, is exact when the FIN is all there is and in its
place. -/
theorem Stretch.exact_closing (hb : Stretch e ss a n) (hx : x = a + n.toUInt32)
    (hf : ¬ FinReceived e ss) (hs : s.fin = true) :
    Exact e (ss ++ [s]) (s.seq + 1) ↔ s.syn = false ∧ s.len = 0 ∧ (x - s.seq).toNat ≤ 1 := by
  have hlen := len_lt s
  have hlt := back_lt x s
  rw [hb.exact_snoc hx hf]
  cases hsyn : s.syn with
  | false =>
    have hback : (x - s.seq).toNat = back x s := by rw [back, start_of_not_syn hsyn]
    rw [start_of_not_syn hsyn, succ_eq, hback, and_iff_right rfl]
    split
    · rw [add_toUInt32_inj _ (by decide) (by omega)]
      omega
    · rename_i h
      have hback : ¬ back x s ≤ s.len := fun hle => h ⟨hs, hle⟩
      rw [add_toUInt32_inj _ (by decide) (by omega)]
      omega
  | true =>
    rw [← start_of_syn hsyn]
    simp only [Bool.true_eq_false, false_and, iff_false]
    split
    · rw [eq_add_toUInt32 _ (by omega)]
      omega
    · rename_i h
      have hback : ¬ back x s ≤ s.len := fun hle => h ⟨hs, hle⟩
      rw [eq_add_toUInt32 _ (by omega)]
      omega

/-- The acknowledgement of payload, `seq + len`, is exact when the payload leaves no gap. -/
theorem Stretch.exact_data (hb : Stretch e ss a n) (hx : x = a + n.toUInt32)
    (hf : ¬ FinReceived e ss) (hs : 0 < s.len) :
    Exact e (ss ++ [s]) (s.seq + s.len.toUInt32) ↔
      s.syn = false ∧ s.fin = false ∧ (x - s.seq).toNat ≤ s.len := by
  have hlen := len_lt s
  have hlt := back_lt x s
  rw [hb.exact_snoc hx hf]
  cases hsyn : s.syn with
  | false =>
    have hback : (x - s.seq).toNat = back x s := by rw [back, start_of_not_syn hsyn]
    rw [start_of_not_syn hsyn, hback, and_iff_right rfl]
    split
    · rename_i h
      rw [add_toUInt32_inj _ (by omega) (by omega), h.1]
      simp
    · rename_i h
      rw [add_toUInt32_inj _ (by omega) (by omega)]
      cases hfin : s.fin with
      | false =>
        simp only [true_and]
        omega
      | true =>
        have hback : ¬ back x s ≤ s.len := fun hle => h ⟨hfin, hle⟩
        simp only [Bool.true_eq_false, false_and, iff_false]
        omega
  | true =>
    have hack : s.seq + s.len.toUInt32 = s.start + (s.len - 1).toUInt32 := by
      rw [start_of_syn hsyn, succ_eq, add_toUInt32_add]
      congr 2
      omega
    rw [hack]
    simp only [Bool.true_eq_false, false_and, iff_false]
    split
    · rw [add_toUInt32_inj _ (by omega) (by omega)]
      omega
    · rw [add_toUInt32_inj _ (by omega) (by omega)]
      omega

/-- After the FIN, its acknowledgement is exact for the FIN alone. -/
theorem Stretch.exact_again (hb : Stretch e ss e 0) (hf : FinReceived e ss) :
    Exact e (ss ++ [s]) (s.seq + 1) ↔ s.seq = e ∧ (s.syn = true ∨ s.len = 0) := by
  have hlen := len_lt s
  have hlt := back_lt e s
  have hstart := start_back e s
  have hx : e = e + (0 : Nat).toUInt32 := (UInt32.add_zero e).symm
  rw [hb.exact_fin hx hf, UInt32.add_left_inj]
  cases hsyn : s.syn with
  | false =>
    rw [start_of_not_syn hsyn] at hstart ⊢
    rw [eq_add_toUInt32 _ (by omega)]
    simp only [Bool.false_eq_true, false_or]
    have hzero : s.seq = e ↔ back e s = 0 := by
      rw [← eq_add_toUInt32 s.seq hlt, hstart]
    rw [hzero]
    omega
  | true =>
    simp only [true_or, and_true]
    by_cases hle : s.len ≤ back e s
    · rw [Nat.max_eq_right hle, hstart]
    · rw [start_of_syn hsyn, succ_eq, add_toUInt32_add] at hstart ⊢
      rw [eq_add_toUInt32 _ (by omega)]
      refine ⟨fun h => by omega, fun h => ?_⟩
      have := (eq_add_toUInt32 s.seq (by omega)).1 (h.trans hstart.symm)
      omega

/-- Segments without payload and FIN. -/
def Quiet (ss : List Segment) : Prop := ∀ s ∈ ss, s.len = 0 ∧ s.fin = false

theorem Quiet.snoc (hq : Quiet ss) (hl : s.len = 0) (hf : s.fin = false) : Quiet (ss ++ [s]) := by
  intro x hx
  rcases List.mem_append.1 hx with hx | hx
  · exact hq x hx
  · rw [List.mem_singleton.1 hx]
    exact ⟨hl, hf⟩

theorem Quiet.not_received (hq : Quiet ss) (b : UInt32) : ¬ Received ss b := by
  rintro ⟨s, hs, hb⟩
  rw [Segment.Covers, (hq s hs).1] at hb
  exact Nat.not_lt_zero _ hb

theorem Quiet.block (hq : Quiet ss) (e : UInt32) : Stretch e ss e 0 where
  bytes b := ⟨fun h => absurd h (hq.not_received b), fun h => absurd h (Nat.not_lt_zero _)⟩
  small := Nat.zero_le _
  reach := by rw [UInt32.sub_self, UInt32.toNat_zero]

theorem Quiet.not_finReceived (hq : Quiet ss) (e : UInt32) : ¬ FinReceived e ss := by
  rintro ⟨pre, s, post, rfl, hf, _⟩
  rw [(hq s (by simp)).2] at hf
  cases hf

theorem Quiet.exact (hq : Quiet ss) (e : UInt32) : Exact e ss e := by
  obtain ⟨k, hk, hc, he⟩ := (hq.block e).contig
  have hz : k = 0 := Nat.le_zero.1 hk
  subst hz
  exact ⟨0, hc, .inr ⟨hq.not_finReceived e, (UInt32.add_zero e).symm⟩⟩

/-- The block after payload that leaves no gap. -/
theorem Quiet.block_data (hq : Quiet ss) (hs : s.syn = false) (hr : (e - s.seq).toNat ≤ s.len) :
    Stretch e (ss ++ [s]) s.seq s.len where
  bytes b := by
    rw [received_snoc, Segment.Covers, start_of_not_syn hs]
    exact ⟨fun h => h.resolve_left (hq.not_received b), .inr⟩
  small := s.small
  reach := hr

/-- A segment without payload adds no bytes. -/
theorem Quiet.block_empty (hq : Quiet ss) (hs : s.len = 0) (e : UInt32) :
    Stretch e (ss ++ [s]) e 0 where
  bytes b := by
    rw [received_snoc, Segment.Covers, hs]
    refine ⟨?_, fun h => absurd h (Nat.not_lt_zero _)⟩
    rintro (h | h)
    · exact absurd h (hq.not_received b)
    · exact absurd h (Nat.not_lt_zero _)
  small := Nat.zero_le _
  reach := by rw [UInt32.sub_self, UInt32.toNat_zero]

theorem dataFrom_quiet (e : UInt32) (hq : Quiet qs) (hn : qs.length ≤ n) :
    DataFrom e n (qs ++ ss) ↔ DataFrom e (n - qs.length) ss := by
  induction qs generalizing n with
  | nil => exact Iff.rfl
  | cons q qs ih =>
    cases n with
    | zero => exact absurd hn (by simp)
    | succ n =>
      obtain ⟨hl, hf⟩ := hq q List.mem_cons_self
      have hrest : Quiet qs := fun s hs => hq s (List.mem_cons_of_mem _ hs)
      rw [List.length_cons] at hn ⊢
      rw [List.cons_append, DataFrom, hl, hf, if_neg (by decide), if_neg (by decide),
        ih hrest (by omega), Nat.add_sub_add_right]

theorem exact_syn {syn : Segment} (h : syn.syn = true) :
    Exact (syn.seq + 1) [syn] (syn.seq + 1) ↔ syn.len = 0 ∧ syn.fin = false := by
  have hq : Quiet [] := nofun
  have hlen := len_lt syn
  have hx : syn.seq + 1 = syn.seq + 1 + (0 : Nat).toUInt32 := (UInt32.add_zero _).symm
  have hback : back (syn.seq + 1) syn = 0 := by
    rw [back, start_of_syn h, UInt32.sub_self, UInt32.toNat_zero]
  have hs : Exact (syn.seq + 1) ([] ++ [syn]) (syn.seq + 1) ↔ _ :=
    (hq.block (syn.seq + 1)).exact_snoc hx (hq.not_finReceived _)
  rw [List.nil_append, hback, start_of_syn h] at hs
  rw [hs]
  cases hf : syn.fin with
  | true =>
    rw [if_pos ⟨rfl, Nat.zero_le _⟩, eq_add_toUInt32 _ (by omega)]
    simp
  | false =>
    rw [if_neg (by simp), eq_add_toUInt32 _ (by omega)]
    simp

/-- What the demo relies on before its last receive: the bytes received, and what the last
segment has to be. -/
inductive Ready (e : UInt32) (g : List Segment) : Prop where
  | opened (a : UInt32) (n : Nat) : Stretch e g a n → ¬ FinReceived e g →
      (∀ s, InOrder (g ++ [s]) ↔ ClosesAt (a + n.toUInt32) [s]) → Ready e g
  | finished : Stretch e g e 0 → FinReceived e g → (∀ s, InOrder (g ++ [s]) ↔ ClosesAgain e [s]) →
      Ready e g

theorem Ready.fin (hr : Ready e g) (hs : s.fin = true) :
    Exact e (g ++ [s]) (s.seq + 1) ↔ InOrder (g ++ [s]) := by
  cases hr with
  | opened a n hb hf hi =>
    rw [hi s, hb.exact_closing rfl hf hs]
    exact ⟨fun h _ => h, fun h => h hs⟩
  | finished hb hf hi =>
    rw [hi s, hb.exact_again hf]
    exact ⟨fun h _ => h, fun h => h hs⟩

theorem Ready.not_fin (hr : Ready e g) (hs : s.fin = false) : InOrder (g ++ [s]) := by
  have hno : s.fin ≠ true := by
    rw [hs]
    decide
  cases hr with
  | opened a n hb hf hi => exact (hi s).2 fun h => absurd h hno
  | finished hb hf hi => exact (hi s).2 fun h => absurd h hno

theorem Quiet.cons (hs : s.len = 0 ∧ s.fin = false) (hq : Quiet qs) : Quiet (s :: qs) := by
  intro x hx
  rcases List.mem_cons.1 hx with rfl | hx
  · exact hs
  · exact hq x hx

/-- A SYN and the segments without payload and FIN that come before `s`. -/
structure Waits (syn : Segment) (qs : List Segment) : Prop where
  opens : syn.syn = true
  quiet : Quiet qs
  tries : qs.length ≤ DATA_TRIES

theorem Waits.inOrder (hw : Waits syn qs) (ss : List Segment) :
    InOrder (syn :: (qs ++ ss)) ↔ (syn.len = 0 ∧ syn.fin = false) ∧
      DataFrom (syn.seq + 1) (DATA_TRIES - qs.length) ss := by
  rw [InOrder, dataFrom_quiet _ hw.quiet hw.tries, and_assoc]

theorem dataFrom_nil (e : UInt32) (n : Nat) : DataFrom e n [] := by
  cases n <;> trivial

theorem Waits.inOrder_nil (hw : Waits syn qs) :
    InOrder (syn :: qs) ↔ syn.len = 0 ∧ syn.fin = false := by
  have h := hw.inOrder []
  rw [List.append_nil] at h
  rw [h]
  exact ⟨fun h => h.1, fun h => ⟨h, dataFrom_nil _ _⟩⟩

theorem Waits.inOrder_data (hw : Waits syn qs) (ht : qs.length < DATA_TRIES) (hs : 0 < s.len)
    (ss : List Segment) : InOrder (syn :: (qs ++ s :: ss)) ↔ (syn.len = 0 ∧ syn.fin = false) ∧
      s.syn = false ∧ s.fin = false ∧ (syn.seq + 1 - s.seq).toNat ≤ s.len ∧
        ClosesAt (s.seq + s.len.toUInt32) ss := by
  obtain ⟨n, hn⟩ := Nat.exists_eq_succ_of_ne_zero (Nat.sub_ne_zero_of_lt ht)
  rw [hw.inOrder, hn, DataFrom, if_pos hs]

theorem Waits.inOrder_fin (hw : Waits syn qs) (ht : qs.length < DATA_TRIES) (hs : s.len = 0)
    (hf : s.fin = true) (ss : List Segment) :
    InOrder (syn :: (qs ++ s :: ss)) ↔ (syn.len = 0 ∧ syn.fin = false) ∧ s.syn = false ∧
      (s.seq = syn.seq + 1 ∧ ClosesAgain (syn.seq + 1) ss ∨
        s.seq + 1 = syn.seq + 1 ∧ ClosesAt (syn.seq + 1) ss) := by
  obtain ⟨n, hn⟩ := Nat.exists_eq_succ_of_ne_zero (Nat.sub_ne_zero_of_lt ht)
  rw [hw.inOrder, hn, DataFrom, hs, if_neg (Nat.lt_irrefl 0), if_pos hf]

theorem Waits.ready_data (hw : Waits syn qs) (ht : qs.length < DATA_TRIES) (hs : 0 < s.len)
    (hi : InOrder (syn :: (qs ++ [s]))) : Ready (syn.seq + 1) (syn :: (qs ++ [s])) := by
  obtain ⟨hsyn, h₁, h₂, h₃, _⟩ := (hw.inOrder_data ht hs []).1 hi
  have hq : Quiet (syn :: qs) := hw.quiet.cons hsyn
  have hb := hq.block_data h₁ h₃
  have hf : ¬ FinReceived (syn.seq + 1) (syn :: qs ++ [s]) := by
    rw [finReceived_snoc]
    rintro (h | h)
    · exact hq.not_finReceived _ h
    · have hfin := h.1
      rw [h₂] at hfin
      cases hfin
  refine .opened s.seq s.len hb hf ?_
  intro f
  have he : syn :: (qs ++ [s]) ++ [f] = syn :: (qs ++ s :: [f]) := by simp
  rw [he, hw.inOrder_data ht hs]
  exact ⟨fun h => h.2.2.2.2, fun h => ⟨hsyn, h₁, h₂, h₃, h⟩⟩

theorem Waits.ready_fin (hw : Waits syn qs) (ht : qs.length < DATA_TRIES) (hs : s.len = 0)
    (hf : s.fin = true) (hi : InOrder (syn :: (qs ++ [s]))) :
    Ready (syn.seq + 1) (syn :: (qs ++ [s])) := by
  obtain ⟨hsyn, h₁, hseq⟩ := (hw.inOrder_fin ht hs hf []).1 hi
  have hq : Quiet (syn :: qs) := hw.quiet.cons hsyn
  have hb : Stretch (syn.seq + 1) (syn :: (qs ++ [s])) (syn.seq + 1) 0 := hq.block_empty hs _
  have hz : syn.seq + 1 = syn.seq + 1 + (0 : Nat).toUInt32 := (UInt32.add_zero _).symm
  have he (f : Segment) : syn :: (qs ++ [s]) ++ [f] = syn :: (qs ++ s :: [f]) := by simp
  have hfin : FinReceived (syn.seq + 1) (syn :: (qs ++ [s])) ↔ s.seq = syn.seq + 1 := by
    have h := (finReceived_snoc (syn.seq + 1) (syn :: qs) s).trans
      (or_iff_right (hq.not_finReceived _))
    have hback := start_back (syn.seq + 1) s
    rw [List.cons_append] at h
    rw [h, (hq.block _).finInOrder hz, hs, and_iff_right hf, Nat.le_zero,
      ← eq_add_toUInt32 s.start (back_lt _ _), hback, start_of_not_syn h₁]
  have hne : syn.seq ≠ syn.seq + 1 := fun h =>
    absurd ((eq_add_toUInt32 syn.seq (m := 1) (by decide)).1 h) (by decide)
  rcases hseq with ⟨hseq, _⟩ | ⟨hseq, _⟩
  · refine .finished hb (hfin.2 hseq) fun f => ?_
    rw [he, hw.inOrder_fin ht hs hf]
    refine ⟨fun h => ?_, fun h => ⟨hsyn, h₁, .inl ⟨hseq, h⟩⟩⟩
    rcases h.2.2 with h | h
    · exact h.2
    · rw [UInt32.add_left_inj, hseq] at h
      exact absurd h.1.symm hne
  · have hlow : s.seq = syn.seq := (UInt32.add_left_inj 1).1 hseq
    have hnot : ¬ s.seq = syn.seq + 1 := fun h => hne (hlow.symm.trans h)
    refine .opened (syn.seq + 1) 0 hb (fun h => hnot (hfin.1 h)) fun f => ?_
    rw [he, hw.inOrder_fin ht hs hf, ← hz]
    refine ⟨fun h => ?_, fun h => ⟨hsyn, h₁, .inr ⟨hseq, h⟩⟩⟩
    rcases h.2.2 with h | h
    · exact absurd h.1 hnot
    · exact h.2

theorem Waits.ready_quiet (hw : Waits syn qs) (ht : qs.length = DATA_TRIES)
    (hi : InOrder (syn :: qs)) : Ready (syn.seq + 1) (syn :: qs) := by
  have hsyn := hw.inOrder_nil.1 hi
  have hq : Quiet (syn :: qs) := hw.quiet.cons hsyn
  refine .opened (syn.seq + 1) 0 (hq.block _) (hq.not_finReceived _) fun f => ?_
  have hz : syn.seq + 1 + (0 : Nat).toUInt32 = syn.seq + 1 := UInt32.add_zero _
  rw [List.cons_append, hw.inOrder, ht, Nat.sub_self, hz]
  exact ⟨fun h => h.2, fun h => ⟨hsyn, h⟩⟩

theorem ClosesAt.of_snoc (h : ClosesAt e (ss ++ [s])) : ClosesAt e ss := by
  cases ss with
  | nil => trivial
  | cons x xs => exact h

theorem ClosesAgain.of_snoc (h : ClosesAgain e (ss ++ [s])) : ClosesAgain e ss := by
  cases ss with
  | nil => trivial
  | cons x xs => exact h

theorem DataFrom.of_snoc (h : DataFrom e n (ss ++ [s])) : DataFrom e n ss := by
  induction n generalizing ss with
  | zero => exact ClosesAt.of_snoc h
  | succ n ih =>
    cases ss with
    | nil => trivial
    | cons x xs =>
      rw [List.cons_append, DataFrom] at h
      rw [DataFrom]
      split at h
      · rename_i hx
        rw [if_pos hx]
        exact ⟨h.1, h.2.1, h.2.2.1, h.2.2.2.of_snoc⟩
      · rename_i hx
        rw [if_neg hx]
        split at h
        · rename_i hf
          rw [if_pos hf]
          exact ⟨h.1, h.2.imp (fun h => ⟨h.1, h.2.of_snoc⟩) fun h => ⟨h.1, h.2.of_snoc⟩⟩
        · rename_i hf
          rw [if_neg hf]
          exact ih h

theorem InOrder.of_snoc (h : InOrder (ss ++ [s])) : InOrder ss := by
  cases ss with
  | nil => trivial
  | cons x xs => exact ⟨h.1, h.2.1, h.2.2.of_snoc⟩

/-- Every segment sent acknowledges all of what was received before it. -/
def Acks (e : UInt32) (os : List Sent) : Prop := ∀ o ∈ os, Exact e o.after o.ack

theorem acks_snoc : Acks e (os ++ [o]) ↔ Acks e os ∧ Exact e o.after o.ack := by
  simp only [Acks, List.mem_append, List.mem_singleton, or_imp, forall_and, forall_eq]

/-- What was sent so far is exact when what was received is in order. -/
structure Settled (d : Demo) (syn : Segment) (ss : List Segment) : Prop where
  got : d.got = syn :: ss
  after : ∀ o ∈ d.sent, o.after <+: d.got ∧ o.after ≠ []
  acks : Acks (syn.seq + 1) d.sent ↔ InOrder d.got

/-- The demo while it waits for data. -/
structure Open (d : Demo) (c : Conn) (syn : Segment) (qs : List Segment) : Prop where
  got : d.got = syn :: qs
  waits : Waits syn qs
  ack : c.cliack = syn.seq + 1
  sent : ∃ o, d.sent = [o] ∧ o.after = [syn] ∧ o.ack = syn.seq + 1

theorem Open.acks (ho : Open d c syn qs) :
    Acks (syn.seq + 1) d.sent ↔ syn.len = 0 ∧ syn.fin = false := by
  obtain ⟨o, hs, ha, hk⟩ := ho.sent
  rw [hs, ← exact_syn ho.waits.opens]
  simp only [Acks, List.mem_singleton, forall_eq, ha, hk]

theorem Open.after (ho : Open d c syn qs) : ∀ o ∈ d.sent, o.after <+: d.got ∧ o.after ≠ [] := by
  obtain ⟨o, hs, ha, _⟩ := ho.sent
  intro x hx
  rw [hs, List.mem_singleton] at hx
  rw [hx, ha, ho.got]
  exact ⟨⟨qs, rfl⟩, List.cons_ne_nil _ _⟩

theorem Open.settled (ho : Open d c syn qs) : Settled d syn qs where
  got := ho.got
  after := ho.after
  acks := by rw [ho.acks, ho.got, ho.waits.inOrder_nil]

/-- The demo before its last receive: what that has to be is known once all is in order. -/
structure Closing (d : Demo) (syn : Segment) (ss : List Segment) : Prop where
  settled : Settled d syn ss
  ready : InOrder d.got → Ready (syn.seq + 1) d.got

/-- The acknowledgements of the demo, by where it is. -/
def AckInv (d : Demo) : Prop :=
  match d.phase with
  | .listen => d.got = [] ∧ d.sent = []
  | .data c tries => tries < DATA_TRIES ∧ ∃ syn qs, Open d c syn qs ∧ qs.length = tries
  | .close _ => ∃ syn ss, Closing d syn ss
  | .done => d.got = [] ∧ d.sent = [] ∨ ∃ syn ss, Settled d syn ss

namespace Demo

/-- The demo with one more segment received. -/
def heard (d : Demo) (s : Segment) : Demo := { d with got := d.got ++ [s] }

theorem send_sent (d : Demo) (c : Conn) (seq ack : UInt32) (flags : UInt8) (data : List UInt8) :
    (d.send c seq ack flags data).sent =
      d.sent ++ [⟨c.mac, c.ip, c.port, seq, ack, flags, data, d.got⟩] := rfl

theorem recv_listen (d : Demo) (hp : d.phase = .listen) (s : Segment) :
    d.recv s = if s.syn then d.accept s else d := by
  rw [recv, hp]

theorem recv_data (d : Demo) (hp : d.phase = .data c tries) (s : Segment) : d.recv s =
    if 0 < s.len then
      ((d.heard s).send { c with cliack := s.seq + s.len.toUInt32 } c.myseq
        (s.seq + s.len.toUInt32) (TH_PSH ||| TH_ACK) s.data).finish
        { c with cliack := s.seq + s.len.toUInt32, myseq := c.myseq + s.len.toUInt32 }
    else if s.fin then (d.heard s).finish { c with cliack := s.seq + 1 }
    else if tries + 1 < DATA_TRIES then { d.heard s with phase := .data c (tries + 1) }
    else (d.heard s).finish c := by
  rw [recv, hp]
  rfl

theorem recv_close (d : Demo) (hp : d.phase = .close c) (s : Segment) : d.recv s =
    if s.fin then
      { (d.heard s).send c (c.myseq + 1) (s.seq + 1) TH_ACK [] with phase := .done }
    else { d.heard s with phase := .done } := by
  rw [recv, hp]
  rfl

end Demo

/-- The segments `os` that end the wait for data: all acknowledge `a`, after all of what was
received. -/
theorem Open.closing {d' : Demo} (ho : Open d c syn qs) (hg : d'.got = syn :: ss)
    (hp : d.got <+: d'.got) (hs : d'.sent = d.sent ++ os) (hne : os ≠ [])
    (hos : ∀ o ∈ os, o.after = d'.got ∧ o.ack = a)
    (he : syn.len = 0 ∧ syn.fin = false →
      (Exact (syn.seq + 1) (syn :: ss) a ↔ InOrder (syn :: ss)))
    (hr : InOrder (syn :: ss) → Ready (syn.seq + 1) (syn :: ss)) : Closing d' syn ss := by
  have hclean : InOrder (syn :: ss) → syn.len = 0 ∧ syn.fin = false := fun h => ⟨h.1, h.2.1⟩
  refine ⟨⟨hg, ?_, ?_⟩, ?_⟩
  · intro o hm
    rw [hs] at hm
    rcases List.mem_append.1 hm with hm | hm
    · obtain ⟨h₁, h₂⟩ := ho.after o hm
      exact ⟨h₁.trans hp, h₂⟩
    · rw [(hos o hm).1, hg]
      exact ⟨List.prefix_rfl, List.cons_ne_nil _ _⟩
  · rw [hg, hs]
    constructor
    · intro h
      have hold := ho.acks.1 fun o hm => h o (List.mem_append_left _ hm)
      obtain ⟨o, hm⟩ := List.exists_mem_of_ne_nil os hne
      have hx := h o (List.mem_append_right _ hm)
      rw [(hos o hm).1, (hos o hm).2, hg] at hx
      exact (he hold).1 hx
    · intro h o hm
      rcases List.mem_append.1 hm with hm | hm
      · exact ho.acks.2 (hclean h) o hm
      · rw [(hos o hm).1, (hos o hm).2, hg]
        exact (he (hclean h)).2 h
  · rw [hg]
    exact hr

theorem sub_toNat_le_one (a x : UInt32) : (x - a).toNat ≤ 1 ↔ a = x ∨ a + 1 = x := by
  have h := add_sub_toNat a x
  have hlt : (x - a).toNat < 2 ^ 32 := UInt32.toNat_lt _
  generalize (x - a).toNat = o at h hlt
  rw [← h, succ_eq, eq_add_toUInt32 a hlt, add_toUInt32_inj a (by decide) hlt]
  omega

/-- A segment that comes while the demo waits for data. -/
theorem Open.recv (ho : Open d c syn qs) (hp : d.phase = .data c qs.length)
    (ht : qs.length < DATA_TRIES) (s : Segment) : AckInv (d.recv s) := by
  have hw := ho.waits
  have hg : (d.heard s).got = syn :: (qs ++ [s]) := by
    rw [Demo.heard, ho.got, List.cons_append]
  have hpre : d.got <+: (d.heard s).got := List.prefix_append _ _
  have hz : syn.seq + 1 = syn.seq + 1 + (0 : Nat).toUInt32 := (UInt32.add_zero _).symm
  rw [d.recv_data hp]
  split
  · -- payload: it is echoed, and then comes the FIN, both with the same acknowledgement
    rename_i hs
    refine ⟨syn, qs ++ [s], ho.closing (a := s.seq + s.len.toUInt32) hg hpre
      (List.append_assoc d.sent [_] [_]) (List.cons_ne_nil _ _) ?_ ?_ (hw.ready_data ht hs)⟩
    · intro o hm
      rcases List.mem_append.1 hm with hm | hm
      · rw [List.mem_singleton.1 hm]
        exact ⟨rfl, rfl⟩
      · rw [List.mem_singleton.1 hm]
        exact ⟨rfl, rfl⟩
    · intro hsyn
      have hq : Quiet (syn :: qs) := hw.quiet.cons hsyn
      rw [hw.inOrder_data ht hs, ← List.cons_append,
        (hq.block _).exact_data hz (hq.not_finReceived _) hs]
      exact ⟨fun h => ⟨hsyn, h.1, h.2.1, h.2.2, trivial⟩, fun h => ⟨h.2.1, h.2.2.1, h.2.2.2.1⟩⟩
  · rename_i hs
    have hlen : s.len = 0 := Nat.eq_zero_of_not_pos hs
    split
    · -- the FIN of the peer
      rename_i hf
      refine ⟨syn, qs ++ [s], ho.closing (a := s.seq + 1) hg hpre rfl (List.cons_ne_nil _ _) ?_ ?_
        (hw.ready_fin ht hlen hf)⟩
      · intro o hm
        rw [List.mem_singleton.1 hm]
        exact ⟨rfl, rfl⟩
      · intro hsyn
        have hq : Quiet (syn :: qs) := hw.quiet.cons hsyn
        rw [hw.inOrder_fin ht hlen hf, ← List.cons_append,
          (hq.block _).exact_closing hz (hq.not_finReceived _) hf, sub_toNat_le_one]
        exact ⟨fun h => ⟨hsyn, h.1, h.2.2.imp (⟨·, trivial⟩) (⟨·, trivial⟩)⟩,
          fun h => ⟨h.2.1, hlen, h.2.2.imp And.left And.left⟩⟩
    · rename_i hf
      have hfin : s.fin = false := Bool.eq_false_iff.2 hf
      have hlength : (qs ++ [s]).length = qs.length + 1 := List.length_append
      have hw' : Waits syn (qs ++ [s]) := by
        refine ⟨hw.opens, hw.quiet.snoc hlen hfin, ?_⟩
        rw [hlength]
        exact ht
      split
      · rename_i hn
        exact ⟨hn, syn, qs ++ [s], ⟨hg, hw', ho.ack, ho.sent⟩, hlength⟩
      · -- the last try: the FIN of the demo acknowledges the SYN alone
        rename_i hn
        have hall : (qs ++ [s]).length = DATA_TRIES := by omega
        refine ⟨syn, qs ++ [s], ho.closing (a := syn.seq + 1) hg hpre rfl (List.cons_ne_nil _ _)
          ?_ ?_ (hw'.ready_quiet hall)⟩
        · intro o hm
          rw [List.mem_singleton.1 hm]
          exact ⟨rfl, ho.ack⟩
        · intro hsyn
          have hq : Quiet (syn :: (qs ++ [s])) := hw'.quiet.cons hsyn
          rw [hw'.inOrder_nil]
          exact ⟨fun _ => hsyn, fun _ => hq.exact _⟩

/-- The last segment the demo receives. -/
theorem Closing.recv (hc : Closing d syn ss) (hp : d.phase = .close c) (s : Segment) :
    AckInv (d.recv s) := by
  have hg : (d.heard s).got = syn :: (ss ++ [s]) := by
    rw [Demo.heard, hc.settled.got, List.cons_append]
  have hpre : d.got <+: (d.heard s).got := List.prefix_append _ _
  have hback : InOrder (d.heard s).got → InOrder d.got := InOrder.of_snoc
  rw [d.recv_close hp]
  split
  · rename_i hf
    refine .inr ⟨syn, ss ++ [s], hg, ?_, ?_⟩
    · intro o hm
      rcases List.mem_append.1 hm with hm | hm
      · obtain ⟨h₁, h₂⟩ := hc.settled.after o hm
        exact ⟨h₁.trans hpre, h₂⟩
      · rw [List.mem_singleton.1 hm]
        refine ⟨List.prefix_rfl, ?_⟩
        rw [hg]
        exact List.cons_ne_nil _ _
    · refine acks_snoc.trans ⟨fun h => ?_, fun h => ?_⟩
      · exact ((hc.ready (hc.settled.acks.1 h.1)).fin hf).1 h.2
      · exact ⟨hc.settled.acks.2 (hback h), ((hc.ready (hback h)).fin hf).2 h⟩
  · rename_i hf
    refine .inr ⟨syn, ss ++ [s], hg, ?_, ?_⟩
    · intro o hm
      obtain ⟨h₁, h₂⟩ := hc.settled.after o hm
      exact ⟨h₁.trans hpre, h₂⟩
    · refine hc.settled.acks.trans ⟨fun h => ?_, hback⟩
      exact (hc.ready h).not_fin (Bool.eq_false_iff.2 hf)

/-- The SYN, acknowledged at once. -/
theorem AckInv.accept {d : Demo} {s : Segment} (hd : d.sent = []) (hs : s.syn = true) :
    AckInv (d.accept s) := by
  refine ⟨Nat.zero_lt_succ 11, s, [], ⟨rfl, ⟨hs, nofun, Nat.zero_le _⟩, rfl, ?_⟩, rfl⟩
  refine ⟨⟨s.mac, s.ip, s.port, 20000, s.seq + 1, TH_SYN ||| TH_ACK, [], [s]⟩, ?_, rfl, rfl⟩
  change d.sent ++ [_] = [_]
  rw [hd]
  rfl

theorem AckInv.recv (hd : AckInv d) (s : Segment) : AckInv (d.recv s) := by
  cases hp : d.phase with
  | listen =>
    rw [d.recv_listen hp]
    split
    · rename_i hs
      rw [AckInv, hp] at hd
      exact AckInv.accept hd.2 hs
    · exact hd
  | data c tries =>
    rw [AckInv, hp] at hd
    obtain ⟨ht, syn, qs, ho, rfl⟩ := hd
    exact ho.recv hp ht s
  | close c =>
    rw [AckInv, hp] at hd
    obtain ⟨syn, ss, hc⟩ := hd
    exact hc.recv hp s
  | done =>
    rw [Demo.recv, hp]
    exact hd

theorem AckInv.settled (hd : AckInv d) :
    d.got = [] ∧ d.sent = [] ∨ ∃ syn ss, Settled d syn ss := by
  cases hp : d.phase with
  | listen =>
    rw [AckInv, hp] at hd
    exact .inl hd
  | data c tries =>
    rw [AckInv, hp] at hd
    obtain ⟨_, syn, qs, ho, _⟩ := hd
    exact .inr ⟨syn, qs, ho.settled⟩
  | close c =>
    rw [AckInv, hp] at hd
    obtain ⟨syn, ss, hc⟩ := hd
    exact .inr ⟨syn, ss, hc.settled⟩
  | done =>
    rw [AckInv, hp] at hd
    exact hd

theorem Settled.congr {d' : Demo} (hs : Settled d syn ss) (hg : d'.got = d.got)
    (ho : d'.sent = d.sent) : Settled d' syn ss := by
  refine ⟨hg.trans hs.got, ?_, ?_⟩
  · rw [hg, ho]
    exact hs.after
  · rw [hg, ho]
    exact hs.acks

/-- The polls do not matter. -/
theorem AckInv.spin (hd : AckInv d) (n : Nat) : AckInv { d with spin := n } := by
  cases hp : d.phase with
  | listen =>
    rw [AckInv, hp] at hd
    exact hd
  | data c tries =>
    rw [AckInv, hp] at hd
    obtain ⟨ht, syn, qs, ho, hq⟩ := hd
    exact ⟨ht, syn, qs, ⟨ho.got, ho.waits, ho.ack, ho.sent⟩, hq⟩
  | close c =>
    rw [AckInv, hp] at hd
    obtain ⟨syn, ss, hc⟩ := hd
    exact ⟨syn, ss, hc.settled.congr rfl rfl, hc.ready⟩
  | done =>
    rw [AckInv, hp] at hd
    exact hd.imp id fun ⟨syn, ss, hs⟩ => ⟨syn, ss, hs.congr rfl rfl⟩

theorem AckInv.poll (hd : AckInv d) (f : Option EthFrame) : AckInv (d.poll f) := by
  rw [Demo.poll]
  split
  · rename_i s _
    exact (hd.recv s).spin 0
  · split
    · exact hd.spin _
    · -- a receive in vain: what was received and sent stays
      exact hd.settled.imp id fun ⟨syn, ss, hs⟩ => ⟨syn, ss, hs.congr rfl rfl⟩

theorem AckInv.run (hd : AckInv d) (fs : List (Option EthFrame)) : AckInv (d.run fs) := by
  induction fs generalizing d with
  | nil => exact hd
  | cons f fs ih => exact ih (hd.poll f)

theorem ackInv_init : AckInv Demo.init := ⟨rfl, rfl⟩

/-- With the peer alone, nothing is left out. -/
theorem filter_fromPeer {syn : Segment} {ss : List Segment} (hp : ∀ s ∈ ss, syn.FromPeer s) :
    ss.filter syn.FromPeer = ss :=
  List.filter_eq_self.2 fun s hs => decide_eq_true (hp s hs)

theorem AckInv.exact_iff (hd : AckInv d) (hg : d.got = syn :: ss)
    (hp : ∀ s ∈ ss, syn.FromPeer s) : (∀ o ∈ d.sent, o.AckExact) ↔ InOrder (syn :: ss) := by
  have hall : ∀ s ∈ syn :: ss, syn.FromPeer s := by
    intro s hs
    rcases List.mem_cons.1 hs with rfl | hs
    · exact ⟨rfl, rfl⟩
    · exact hp s hs
  rcases hd.settled with ⟨h, _⟩ | ⟨p, ps, hs⟩
  · rw [hg] at h
    cases h
  · obtain ⟨rfl, rfl⟩ : syn = p ∧ ss = ps := List.cons.inj (hg.symm.trans hs.got)
    rw [← hg, ← hs.acks]
    refine forall₂_congr fun o ho => ?_
    obtain ⟨hpre, hne⟩ := hs.after o ho
    obtain ⟨x, xs, hx⟩ := List.exists_cons_of_ne_nil hne
    rw [hg, hx] at hpre
    obtain ⟨rfl, hxs⟩ := List.cons_prefix_cons.1 hpre
    have hpeer : ∀ s ∈ x :: xs, x.FromPeer s := fun s hs => hall s (hpre.subset hs)
    rw [Sent.AckExact, hx]
    simp only [filter_fromPeer hpeer]

/-- A segment of a host, from port 1000 to the demo: the frame it comes in. -/
def peerFrame (seq flags : UInt8) (data : List UInt8) : EthFrame where
  len := 54 + data.length
  fr i :=
    if 54 ≤ i then data.getD (i - 54) 0
    else [0, 0, 0, 0, 0, 0, 2, 2, 2, 2, 2, 2, 8, 0, 0x45, 0, 0, (40 + data.length).toUInt8, 0, 0,
      0, 0, 64, 6, 0, 0, 10, 0, 2, 2, 10, 0, 2, 15, 3, 232, 21, 223, 0, 0, 0, seq, 0, 0, 0, 0, 0x50,
      flags, 0, 0, 0, 0, 0, 0].getD i 0

/-- Every segment that the demo sends is exact in its acknowledgement, when the peer of the SYN is
the only one to send. -/
def AcksExact (fs : List (Option EthFrame)) : Prop :=
  ∀ syn ss, (Demo.init.run fs).got = syn :: ss → (∀ s ∈ ss, syn.FromPeer s) →
    ∀ o ∈ (Demo.init.run fs).sent, o.AckExact

theorem peerData_small {data : List UInt8} (h : data.length ≤ 4) : data.length ≤ BUFSZ :=
  Nat.le_trans h (Nat.le_of_ble_eq_true rfl)

/-- The segment in a `peerFrame` with one byte at most. -/
def peerSegment (seq flags : UInt8) (data : List UInt8) (h : data.length ≤ 4) : Segment where
  mac := [2, 2, 2, 2, 2, 2]
  ip := [10, 0, 2, 2]
  port := 1000
  seq := seq.toUInt32
  ack := 0
  flags := flags
  data := data
  small := peerData_small h

/-- Payload and FIN in one segment: the FIN is not acknowledged. -/
theorem dataFin_not_acksExact :
    ¬ AcksExact [some (peerFrame 0 TH_SYN []), some (peerFrame 1 (TH_FIN ||| TH_ACK) [65])] := by
  intro h
  have hgot : (Demo.init.run [some (peerFrame 0 TH_SYN []),
      some (peerFrame 1 (TH_FIN ||| TH_ACK) [65])]).got =
        [peerSegment 0 TH_SYN [] (by decide),
          peerSegment 1 (TH_FIN ||| TH_ACK) [65] (by decide)] := by decide +kernel
  have hpeer : ∀ s ∈ [peerSegment 1 (TH_FIN ||| TH_ACK) [65] (by decide)],
      (peerSegment 0 TH_SYN [] (by decide)).FromPeer s := by decide +kernel
  have hi := ((ackInv_init.run _).exact_iff hgot hpeer).1 (h _ _ hgot hpeer)
  exact absurd hi (by decide +kernel)

/-- The acknowledgements that the demo sends are exact when the segments that come after the SYN
are in order, as far as the demo goes. -/
theorem acks_exact_iff (fs : List (Option EthFrame)) (syn : Segment) (ss : List Segment)
    (hgot : (Demo.init.run fs).got = syn :: ss) (hpeer : ∀ s ∈ ss, syn.FromPeer s) :
    (∀ o ∈ (Demo.init.run fs).sent, o.AckExact) ↔ InOrder (syn :: ss) :=
  (ackInv_init.run fs).exact_iff hgot hpeer

/-- A SYN, one byte at its place, and the FIN behind it. -/
theorem acks_exact_iff_echo :
    InOrder [peerSegment 0 TH_SYN [] (by decide), peerSegment 1 TH_ACK [65] (by decide),
      peerSegment 2 TH_FIN [] (by decide)] ∧
    ∀ o ∈ (Demo.init.run [some (peerFrame 0 TH_SYN []), some (peerFrame 1 TH_ACK [65]),
      some (peerFrame 2 TH_FIN [])]).sent, o.AckExact := by
  have hi : InOrder [peerSegment 0 TH_SYN [] (by decide), peerSegment 1 TH_ACK [65] (by decide),
      peerSegment 2 TH_FIN [] (by decide)] := by decide +kernel
  exact ⟨hi, (acks_exact_iff _ _ _ (by decide +kernel) (by decide +kernel)).2 hi⟩

end KernelHobby
