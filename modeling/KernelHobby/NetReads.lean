import KernelHobby.NetParse

namespace KernelHobby
set_option autoImplicit true

/-- The places of `n` bytes from `off` on. -/
def span (off n : Nat) : List Nat := (List.range n).map (off + ·)

/-- The places that `eq4` reads: it stops at the first difference. -/
def eq4Reads (fr : Nat → UInt8) (off : Nat) (ip : List UInt8) : List Nat :=
  (span off 4).filter fun i => bytesAt fr off (i - off) = ip.take (i - off)

/-- The bytes of the buffer that `arp_maybe_reply` reads. -/
def arpReplyReads (f : EthFrame) : List Nat :=
  let fr := f.fr
  if f.len < 14 + 28 then []
  else span 12 2 ++
    if get16 fr 12 ≠ ETH_ARP then []
    else span (14 + 6) 2 ++
      if get16 fr (14 + 6) ≠ 1 then []
      else eq4Reads fr (14 + 24) MY_IP ++
        if bytesAt fr (14 + 24) 4 ≠ MY_IP then []
        else span (14 + 8) 6 ++ span (14 + 14) 4 ++ span (14 + 8) 6

/-- The bytes of the buffer that a round of `tcp_recv` reads; with `peer` it also gives the
peer's addresses and port to its caller. The payload is last. -/
def tcpReads (wantPort max : Nat) (peer : Bool) (f : EthFrame) : List Nat :=
  let fr := f.fr
  span 12 2 ++
    if get16 fr 12 = ETH_ARP then arpReplyReads f
    else if get16 fr 12 ≠ ETH_IP then []
    else 14 ::
      if (fr 14) >>> 4 ≠ 4 then []
      else (14 + 9) ::
        if fr (14 + 9) ≠ IP_TCP then []
        else
          let ihl := ((fr 14) &&& 0xf).toNat * 4
          let t := 14 + ihl
          span (t + 2) 2 ++
            if get16 fr (t + 2) ≠ wantPort then []
            else
              let doff := ((fr (t + 12)) >>> 4).toNat * 4
              let dlen := min (get16 fr (14 + 2) - ihl - doff) max
              (if peer then span 6 6 ++ span (14 + 12) 4 ++ span t 2 else []) ++
                span (t + 4) 4 ++ span (t + 8) 4 ++ [t + 13] ++ [t + 12] ++ span (14 + 2) 2 ++
                span (t + doff) dlen

/-- The bytes of the buffer that a round of `udp_rx` reads, the payload last. -/
def udpReads (wantPort max : Nat) (f : EthFrame) : List Nat :=
  let fr := f.fr
  span 12 2 ++
    if get16 fr 12 = ETH_ARP then arpReplyReads f
    else if get16 fr 12 ≠ ETH_IP ∨ f.len < 14 + 28 then []
    else 14 ::
      if (fr 14) >>> 4 ≠ 4 then []
      else (14 + 9) ::
        if fr (14 + 9) ≠ IP_UDP then []
        else
          let ihl := ((fr 14) &&& 0xf).toNat * 4
          let udp := 14 + ihl
          span (udp + 2) 2 ++
            if get16 fr (udp + 2) ≠ wantPort then []
            else
              let ulen := get16 fr (udp + 4)
              span (udp + 4) 2 ++
                if ulen < 8 then [] else span (udp + 8) (min (ulen - 8) max)

/-- The bytes of the buffer that a round of the loop of `icmp_ping` reads. -/
def icmpReads (dst : List UInt8) (f : EthFrame) : List Nat :=
  let fr := f.fr
  span 12 2 ++
    if get16 fr 12 = ETH_ARP then arpReplyReads f
    else if get16 fr 12 ≠ ETH_IP ∨ f.len < 14 + 28 then []
    else (14 + 9) ::
      if fr (14 + 9) ≠ IP_ICMP then []
      else
        let ihl := ((fr 14) &&& 0xf).toNat * 4
        14 :: (14 + ihl) :: if fr (14 + ihl) = 0 then eq4Reads fr (14 + 12) dst else []

/-- The bytes of the buffer that a round of the loop of `arp_resolve` reads. -/
def arpReads (target : List UInt8) (f : EthFrame) : List Nat :=
  let fr := f.fr
  span 12 2 ++
    if get16 fr 12 = ETH_ARP ∧ 14 + 28 ≤ f.len then
      span (14 + 6) 2 ++
        (if get16 fr (14 + 6) = 2 then eq4Reads fr (14 + 14) target else []) ++
        if get16 fr (14 + 6) = 2 ∧ bytesAt fr (14 + 14) 4 = target then span (14 + 8) 6
        else arpReplyReads f
    else []

/-- Two buffers have the same bytes in these places. -/
def Agree (p q : Nat → UInt8) (l : List Nat) : Prop := ∀ i ∈ l, p i = q i

theorem agree_append : Agree p q (a ++ b) ↔ Agree p q a ∧ Agree p q b := by
  simp [Agree, or_imp, forall_and]

theorem agree_cons : Agree p q (i :: l) ↔ p i = q i ∧ Agree p q l := by
  simp [Agree]

theorem Agree.at (h : Agree p q (span off n)) (hi : i < n) : p (off + i) = q (off + i) := by
  apply h
  exact List.mem_map_of_mem (List.mem_range.2 hi)

theorem Agree.get16 (h : Agree p q (span off 2)) : get16 p off = get16 q off := by
  rw [KernelHobby.get16, KernelHobby.get16, h.at (i := 1) (by decide),
    show p off = q off from h.at (i := 0) (by decide)]

theorem Agree.get32 (h : Agree p q (span off 4)) : get32 p off = get32 q off := by
  rw [KernelHobby.get32, KernelHobby.get32, h.at (i := 1) (by decide), h.at (i := 2) (by decide),
    h.at (i := 3) (by decide), show p off = q off from h.at (i := 0) (by decide)]

theorem Agree.bytesAt (h : Agree p q (span off n)) : bytesAt p off n = bytesAt q off n := by
  apply List.map_congr_left
  intro i hi
  exact h.at (List.mem_range.1 hi)

/-- Behind the type of the frame the receivers read the version, the protocol and the port, and
the segment only when all three are right. -/
theorem ipPort_agree {p q : Nat → UInt8} {rest : List Nat} {x y : Option α}
    (h : Agree p q (14 ::
      if q 14 >>> 4 ≠ 4 then []
      else (14 + 9) ::
        if q (14 + 9) ≠ proto then []
        else span (14 + (q 14 &&& 0xf).toNat * 4 + 2) 2 ++
          if KernelHobby.get16 q (14 + (q 14 &&& 0xf).toNat * 4 + 2) ≠ port then [] else rest))
    (hrest : p 14 = q 14 → Agree p q rest → x = y) :
    (if p 14 >>> 4 ≠ 4 ∨ p (14 + 9) ≠ proto then none
      else if KernelHobby.get16 p (14 + (p 14 &&& 0xf).toNat * 4 + 2) ≠ port then none else x) =
      if q 14 >>> 4 ≠ 4 ∨ q (14 + 9) ≠ proto then none
      else if KernelHobby.get16 q (14 + (q 14 &&& 0xf).toNat * 4 + 2) ≠ port then none else y := by
  obtain ⟨h14, h⟩ := agree_cons.1 h
  rw [h14]
  by_cases hver : q 14 >>> 4 ≠ 4
  · rw [if_pos (.inl hver), if_pos (.inl hver)]
  · rw [if_neg hver] at h
    obtain ⟨h23, h⟩ := agree_cons.1 h
    rw [h23]
    by_cases hproto : q (14 + 9) ≠ proto
    · rw [if_pos (.inr hproto), if_pos (.inr hproto)]
    · rw [if_neg hproto] at h
      rw [if_neg (not_or.2 ⟨hver, hproto⟩), if_neg (not_or.2 ⟨hver, hproto⟩)]
      obtain ⟨hdst, h⟩ := agree_append.1 h
      rw [hdst.get16]
      by_cases hport : KernelHobby.get16 q (14 + (q 14 &&& 0xf).toNat * 4 + 2) ≠ port
      · rw [if_pos hport, if_pos hport]
      · rw [if_neg hport] at h
        rw [if_neg hport, if_neg hport]
        exact hrest h14 h

/-- `tcp_recv` depends on the bytes it reads and on no others. -/
theorem tcpRecv_agree {max : Nat} (h : Agree g.fr f.fr (tcpReads wantPort max true f)) :
    tcpRecv wantPort max g = tcpRecv wantPort max f := by
  obtain ⟨h12, h⟩ := agree_append.1 h
  rw [tcpRecv, tcpRecv, h12.get16]
  by_cases harp : KernelHobby.get16 f.fr 12 = ETH_ARP
  · rw [if_pos harp, if_pos harp]
  · rw [if_neg harp] at h ⊢
    rw [if_neg harp]
    by_cases hip : KernelHobby.get16 f.fr 12 ≠ ETH_IP
    · rw [if_pos hip, if_pos hip]
    · rw [if_neg hip] at h ⊢
      rw [if_neg hip]
      refine ipPort_agree h fun h14 h => ?_
      simp only [agree_append, agree_cons, if_true] at h
      obtain ⟨⟨⟨⟨⟨⟨⟨⟨hmac, hpip⟩, hsrc⟩, hseq⟩, hack⟩, hfl, _⟩, hdoff, _⟩, hiplen⟩, hdata⟩ := h
      dsimp only
      rw [h14, hmac.bytesAt, hpip.bytesAt, hsrc.get16, hseq.get32, hack.get32, hfl, hdoff,
        hiplen.get16, hdata.bytesAt]

/-- So does `udp_rx`, but for the length. -/
theorem udpRx_agree {max : Nat} (hlen : g.len = f.len)
    (h : Agree g.fr f.fr (udpReads wantPort max f)) :
    udpRx wantPort max g = udpRx wantPort max f := by
  obtain ⟨h12, h⟩ := agree_append.1 h
  rw [udpRx, udpRx, h12.get16, hlen]
  by_cases harp : KernelHobby.get16 f.fr 12 = ETH_ARP
  · rw [if_pos harp, if_pos harp]
  · rw [if_neg harp] at h ⊢
    rw [if_neg harp]
    by_cases hip : KernelHobby.get16 f.fr 12 ≠ ETH_IP ∨ f.len < 14 + 28
    · rw [if_pos hip, if_pos hip]
    · rw [if_neg hip] at h ⊢
      rw [if_neg hip]
      refine ipPort_agree h fun h14 h => ?_
      obtain ⟨hulen, h⟩ := agree_append.1 h
      dsimp only
      rw [h14, hulen.get16]
      split
      · rfl
      · rename_i hge
        rw [if_neg hge] at h
        rw [h.bytesAt]

/-- All these places are in a buffer of `n` bytes. -/
def Within (n : Nat) (l : List Nat) : Prop := ∀ i ∈ l, i < n

instance (n : Nat) (l : List Nat) : Decidable (Within n l) :=
  inferInstanceAs (Decidable (∀ i ∈ l, i < n))

theorem within_nil (n : Nat) : Within n [] ↔ True := by
  simp [Within]

theorem within_append : Within n (a ++ b) ↔ Within n a ∧ Within n b := by
  simp [Within, or_imp, forall_and]

theorem within_cons : Within n (i :: l) ↔ i < n ∧ Within n l := by
  simp [Within]

theorem within_span : Within n (span off k) ↔ (0 < k → off + k ≤ n) := by
  simp only [Within, span, List.mem_map, List.mem_range]
  constructor
  · intro h hk
    have hlast := h (off + (k - 1)) ⟨k - 1, by omega, rfl⟩
    omega
  · rintro h i ⟨j, hj, rfl⟩
    have hend := h (by omega)
    omega

theorem within_ite {c : Prop} [Decidable c] :
    Within n (if c then a else b) ↔ (c → Within n a) ∧ (¬ c → Within n b) := by
  split
  · simp [*]
  · simp [*]

theorem within_eq4 (h : off + 4 ≤ n) (fr : Nat → UInt8) (ip : List UInt8) :
    Within n (eq4Reads fr off ip) := by
  intro i hi
  have hs := (List.mem_filter.1 hi).1
  exact within_span.2 (fun _ => h) i hs

/-- `arp_maybe_reply` looks at the length first. -/
theorem within_arpReply (f : EthFrame) : Within f.len (arpReplyReads f) := by
  rw [arpReplyReads]
  by_cases hlen : f.len < 14 + 28
  · rw [if_pos hlen, within_nil]
    trivial
  · have hspan (off n : Nat) (h : off + n ≤ 42) : Within f.len (span off n) :=
      within_span.2 fun _ => by omega
    have heq4 : Within f.len (eq4Reads f.fr (14 + 24) MY_IP) := within_eq4 (by omega) _ _
    simp only [if_neg hlen, within_append, within_ite, within_nil, heq4, hspan 12 2 (by decide),
      hspan (14 + 6) 2 (by decide), hspan (14 + 8) 6 (by decide), hspan (14 + 14) 4 (by decide),
      implies_true, and_true]

/-- The frame is as long as `tcp_recv` takes it to be. -/
def tcpFits (wantPort max : Nat) (peer : Bool) (f : EthFrame) : Prop :=
  let fr := f.fr
  let ihl := ((fr 14) &&& 0xf).toNat * 4
  let doff := ((fr (14 + ihl + 12)) >>> 4).toNat * 4
  let dlen := min (get16 fr (14 + 2) - ihl - doff) max
  14 ≤ f.len ∧ (get16 fr 12 = ETH_IP → 15 ≤ f.len ∧ ((fr 14) >>> 4 = 4 → 24 ≤ f.len ∧
    (fr 23 = IP_TCP → 14 + ihl + 4 ≤ f.len ∧ (get16 fr (14 + ihl + 2) = wantPort →
      14 + ihl + 14 ≤ f.len ∧ (peer → 30 ≤ f.len) ∧
        (0 < dlen → 14 + ihl + doff + dlen ≤ f.len)))))

theorem within_tcp (wantPort max : Nat) (peer : Bool) (f : EthFrame) :
    Within f.len (tcpReads wantPort max peer f) ↔ tcpFits wantPort max peer f := by
  have harp : ETH_ARP ≠ ETH_IP := by decide
  simp only [tcpReads, tcpFits, within_append, within_cons, within_ite, within_span, within_nil,
    within_arpReply, ne_eq, not_not]
  by_cases htype : get16 f.fr 12 = ETH_IP
  · by_cases hver : f.fr 14 >>> 4 = 4
    · by_cases hproto : f.fr 23 = IP_TCP
      · generalize (f.fr 14 &&& 0xf).toNat * 4 = ihl
        by_cases hport : get16 f.fr (14 + ihl + 2) = wantPort
        · simp [htype, harp.symm, hver, hproto, hport]
          generalize (f.fr (14 + ihl + 12) >>> 4).toNat * 4 = doff
          cases peer with
          | false =>
            simp
            omega
          | true =>
            simp
            omega
        · simp [htype, harp.symm, hver, hproto, hport]
          omega
      · simp [htype, harp.symm, hver, hproto]
        omega
    · simp [htype, harp.symm, hver]
      omega
  · simp [htype]

/-- The frame is as long as `udp_rx` takes it to be. -/
def udpFits (wantPort max : Nat) (f : EthFrame) : Prop :=
  let fr := f.fr
  let ihl := ((fr 14) &&& 0xf).toNat * 4
  let plen := min (get16 fr (14 + ihl + 4) - 8) max
  14 ≤ f.len ∧ (get16 fr 12 = ETH_IP → 42 ≤ f.len → (fr 14) >>> 4 = 4 → fr 23 = IP_UDP →
    14 + ihl + 4 ≤ f.len ∧ (get16 fr (14 + ihl + 2) = wantPort →
      14 + ihl + 6 ≤ f.len ∧ (0 < plen → 14 + ihl + 8 + plen ≤ f.len)))

theorem within_udp (wantPort max : Nat) (f : EthFrame) :
    Within f.len (udpReads wantPort max f) ↔ udpFits wantPort max f := by
  have harp : ETH_ARP ≠ ETH_IP := by decide
  simp only [udpReads, udpFits, within_append, within_cons, within_ite, within_span, within_nil,
    within_arpReply, ne_eq, not_not]
  by_cases htype : get16 f.fr 12 = ETH_IP
  · by_cases hlen : f.len < 14 + 28
    · simp [htype, harp.symm, hlen]
    · by_cases hver : f.fr 14 >>> 4 = 4
      · by_cases hproto : f.fr 23 = IP_UDP
        · generalize (f.fr 14 &&& 0xf).toNat * 4 = ihl
          by_cases hport : get16 f.fr (14 + ihl + 2) = wantPort
          · simp [htype, harp.symm, hlen, hver, hproto, hport]
            omega
          · simp [htype, harp.symm, hlen, hver, hproto, hport]
            omega
        · simp [htype, harp.symm, hlen, hver, hproto]
          omega
      · simp [htype, harp.symm, hlen, hver]
        omega
  · simp [htype]

/-- The frame is as long as `icmp_ping` takes it to be. -/
def icmpFits (f : EthFrame) : Prop :=
  let fr := f.fr
  14 ≤ f.len ∧ (get16 fr 12 = ETH_IP → 42 ≤ f.len → fr 23 = IP_ICMP →
    14 + ((fr 14) &&& 0xf).toNat * 4 < f.len)

theorem within_icmp (dst : List UInt8) (f : EthFrame) :
    Within f.len (icmpReads dst f) ↔ icmpFits f := by
  have harp : ETH_ARP ≠ ETH_IP := by decide
  simp only [icmpReads, icmpFits, within_append, within_cons, within_ite, within_span, within_nil,
    within_arpReply, ne_eq, not_not]
  by_cases htype : get16 f.fr 12 = ETH_IP
  · by_cases hlen : f.len < 14 + 28
    · simp [htype, harp.symm, hlen]
    · have heq4 : Within f.len (eq4Reads f.fr (14 + 12) dst) := within_eq4 (by omega) _ _
      by_cases hproto : f.fr 23 = IP_ICMP
      · simp [htype, harp.symm, hlen, hproto, heq4]
        omega
      · simp [htype, harp.symm, hlen, hproto]
        omega
  · simp [htype]

theorem within_arp (target : List UInt8) (f : EthFrame) :
    Within f.len (arpReads target f) ↔ 14 ≤ f.len := by
  simp only [arpReads, within_append, within_ite, within_span, within_nil, within_arpReply]
  by_cases hlen : 14 + 28 ≤ f.len
  · have heq4 : Within f.len (eq4Reads f.fr (14 + 14) target) := within_eq4 (by omega) _ _
    simp [hlen, heq4]
    omega
  · simp [hlen]

/-- The receivers stay in the frame when, and only when, it is as long as its fields say. -/
theorem parse_inside_iff (wantPort max : Nat) (peer : Bool) (ip : List UInt8) (f : EthFrame) :
    (Within f.len (tcpReads wantPort max peer f) ↔ tcpFits wantPort max peer f) ∧
    (Within f.len (udpReads wantPort max f) ↔ udpFits wantPort max f) ∧
    (Within f.len (icmpReads ip f) ↔ icmpFits f) ∧
    (Within f.len (arpReads ip f) ↔ 14 ≤ f.len) := by
  exact ⟨within_tcp wantPort max peer f, within_udp wantPort max f, within_icmp ip f,
    within_arp ip f⟩

/-- A frame of 60 bytes with a TCP segment for the demo, whose IP header says that the packet has
47 bytes: one more than there are. -/
def longLength : EthFrame where
  len := 60
  fr := bufOf ([0, 0, 0, 0, 0, 0, 0, 0, 0, 0, 0, 0, 8, 0, 0x45, 0, 0, 47, 0, 0, 0, 0, 64, 6, 0, 0,
    10, 0, 2, 2, 10, 0, 2, 15, 0, 80, 0x15, 0xdf, 0, 0, 0, 7, 0, 0, 0, 0, 0x50, 0x10])

theorem longLength_outside :
    0 < longLength.len ∧ ¬ Within longLength.len (tcpReads DEMO_PORT BUFSZ true longLength) := by
  decide

end KernelHobby
