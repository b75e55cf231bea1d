import KernelHobby.NetPkt

namespace KernelHobby
set_option autoImplicit true

/-- What `tcp_recv` gives its caller. -/
structure Rcvd where
  mac : List UInt8
  ip : List UInt8
  port : Nat
  seq : UInt32
  ack : UInt32
  flags : UInt8
  data : List UInt8
deriving DecidableEq

/-- What `tcp_recv` makes of a frame, with room for `max` bytes; `none` when it passes over it. -/
def tcpRecv (wantPort max : Nat) (f : EthFrame) : Option Rcvd :=
  let fr := f.fr
  if get16 fr 12 = ETH_ARP then none
  else if get16 fr 12 ≠ ETH_IP then none
  else if (fr 14) >>> 4 ≠ 4 ∨ fr (14 + 9) ≠ IP_TCP then none
  else
    let ihl := ((fr 14) &&& 0xf).toNat * 4
    let t := 14 + ihl
    if get16 fr (t + 2) ≠ wantPort then none
    else
      let doff := ((fr (t + 12)) >>> 4).toNat * 4
      let dlen := min (get16 fr (14 + 2) - ihl - doff) max
      some {
        mac := bytesAt fr 6 6
        ip := bytesAt fr (14 + 12) 4
        port := get16 fr t
        seq := get32 fr (t + 4)
        ack := get32 fr (t + 8)
        flags := fr (t + 13)
        data := bytesAt fr (t + doff) dlen }

/-- The payload `udp_rx` makes of a frame, with room for `max` bytes; `none` when it passes over
it. -/
def udpRx (wantPort max : Nat) (f : EthFrame) : Option (List UInt8) :=
  let fr := f.fr
  if get16 fr 12 = ETH_ARP then none
  else if get16 fr 12 ≠ ETH_IP ∨ f.len < 14 + 28 then none
  else if (fr 14) >>> 4 ≠ 4 ∨ fr (14 + 9) ≠ IP_UDP then none
  else
    let ihl := ((fr 14) &&& 0xf).toNat * 4
    let udp := 14 + ihl
    if get16 fr (udp + 2) ≠ wantPort then none
    else
      let ulen := get16 fr (udp + 4)
      if ulen < 8 then none else some (bytesAt fr (udp + 8) (min (ulen - 8) max))

namespace Segment

def rcvd (s : Segment) : Rcvd := ⟨s.mac, s.ip, s.port, s.seq, s.ack, s.flags, s.data⟩

end Segment

/-- The segments of `net_tcp_demo` are those of `tcp_recv` with the demo's buffer. -/
theorem tcpSegment_rcvd (wantPort : Nat) (f : EthFrame) :
    (tcpSegment wantPort f).map Segment.rcvd = tcpRecv wantPort BUFSZ f := by
  rw [tcpSegment, tcpRecv]
  by_cases harp : get16 f.fr 12 = ETH_ARP
  · have hip : get16 f.fr 12 ≠ ETH_IP := by
      rw [harp]
      decide
    rw [if_pos hip, if_pos harp]
    rfl
  · rw [if_neg harp]
    split
    · rfl
    · split
      · rfl
      · dsimp only
        split
        · rfl
        · rfl

/-- The Ethernet frame that `eth_tx` puts after the virtio header. -/
def ethFrame (dst myMac : List UInt8) (ethertype : UInt16) (payload : List UInt8) : List UInt8 :=
  dst ++ myMac ++ put16 ethertype ++ payload

theorem Tx.frame_eq (s : Tx) (dst : List UInt8) (ethertype : UInt16) (payload : List UInt8) :
    s.frame dst ethertype payload =
      List.replicate NETHDR 0 ++ ethFrame dst s.myMac ethertype payload := by
  rw [Tx.frame, ethFrame, List.append_assoc, List.append_assoc, List.append_assoc,
    List.append_assoc, List.append_assoc]

/-- A frame as `eth_rx` delivers it: what was sent, with padding after it, in the buffer. -/
structure Delivered (sent : List UInt8) (f : EthFrame) : Prop where
  whole : sent.length ≤ f.len
  fits : f.len ≤ BUFSZ
  bytes : ∀ i, i < sent.length → f.fr i = bufOf sent i

theorem bytesAt_eq (h : ∀ j, j < l.length → p (i + j) = bufOf l j) :
    bytesAt p i l.length = l := by
  apply List.ext_getElem
  · exact length_bytesAt p i l.length
  · intro j hj hj'
    have hb := h j hj'
    rw [bufOf, List.getD_eq_getElem?_getD, List.getElem?_eq_getElem hj', Option.getD_some] at hb
    simp only [bytesAt, List.getElem_map, List.getElem_range, hb]

/-- `get32` undoes `put32`. -/
theorem get32_put32 {v : UInt32} (p : Nat → UInt8) (i : Nat) (h₀ : p i = (v >>> 24).toUInt8)
    (h₁ : p (i + 1) = (v >>> 16).toUInt8) (h₂ : p (i + 2) = (v >>> 8).toUInt8)
    (h₃ : p (i + 3) = v.toUInt8) : get32 p i = v := by
  have hv := v.toNat_lt
  have hbyte (k : UInt32) : (v >>> k).toUInt8.toNat = v.toNat / 2 ^ (k.toNat % 32) % 256 := by
    rw [UInt32.toNat_toUInt8, UInt32.toNat_shiftRight, Nat.shiftRight_eq_div_pow]
  have h24 : (24 : UInt32).toNat % 32 = 24 := rfl
  have h16 : (16 : UInt32).toNat % 32 = 16 := rfl
  have h8 : (8 : UInt32).toNat % 32 = 8 := rfl
  apply UInt32.toNat_inj.1
  rw [get32, h₀, h₁, h₂, h₃, hbyte, hbyte, hbyte, h24, h16, h8, UInt32.toNat_toUInt8,
    Nat.toUInt32_eq, UInt32.toNat_ofNat']
  omega

/-- A delivered IP packet, as the receivers see it. -/
structure IpSeen (proto : UInt8) (seg : List UInt8) (f : EthFrame) : Prop where
  len : 34 + seg.length ≤ f.len
  type : get16 f.fr 12 = ETH_IP
  version : f.fr 14 = 0x45
  proto : f.fr 23 = proto
  iplen : get16 f.fr 16 = 20 + seg.length
  bytes : ∀ i, i < seg.length → f.fr (34 + i) = bufOf seg i

theorem length_ethFrame (hmac : mac.length = 6) (hmy : myMac.length = 6) (pkt : List UInt8) :
    (ethFrame mac myMac ty pkt).length = 14 + pkt.length := by
  simp [ethFrame, put16, hmac, hmy]
  omega

theorem bufOf_ethFrame (hmac : mac.length = 6) (hmy : myMac.length = 6) (pkt : List UInt8)
    (i : Nat) : bufOf (ethFrame mac myMac ty pkt) (14 + i) = bufOf pkt i := by
  have hlen : (mac ++ myMac ++ put16 ty).length = 14 := by
    simp [put16, hmac, hmy]
  exact bufOf_append hlen pkt i

theorem bufOf_ethFrame_type (hmac : mac.length = 6) (hmy : myMac.length = 6) (ty : UInt16)
    (pkt : List UInt8) :
    bufOf (ethFrame mac myMac ty pkt) 12 = (ty >>> 8).toUInt8 ∧
      bufOf (ethFrame mac myMac ty pkt) 13 = ty.toUInt8 := by
  have hlen : (mac ++ myMac).length = 12 := by
    simp [hmac, hmy]
  rw [ethFrame, List.append_assoc]
  exact ⟨bufOf_append hlen _ 0, bufOf_append hlen _ 1⟩

theorem Delivered.seen (hmac : mac.length = 6) (hmy : myMac.length = 6) (hdst : dst.length = 4)
    (hn : seg.length = n)
    (h : Delivered (ethFrame mac myMac 0x0800 (ipHeader proto (20 + n) dst ++ seg)) f) :
    IpSeen proto seg f := by
  subst n
  have hlen : (ethFrame mac myMac 0x0800 (ipHeader proto (20 + seg.length) dst ++ seg)).length =
      34 + seg.length := by
    rw [length_ethFrame hmac hmy, List.length_append, length_ipHeader proto _ hdst]
    omega
  have hfits := h.fits
  have hwhole := h.whole
  rw [hlen] at hwhole
  -- the bytes of the header, and of the segment
  have hbyte (i : Nat) (hi : 14 + i < 34 + seg.length) :
      f.fr (14 + i) = bufOf (ipHeader proto (20 + seg.length) dst ++ seg) i := by
    rw [h.bytes _ (by rw [hlen]; exact hi), bufOf_ethFrame hmac hmy]
  have htype := bufOf_ethFrame_type hmac hmy 0x0800
    (ipHeader proto (20 + seg.length) dst ++ seg)
  refine ⟨hwhole, ?_, ?_, ?_, ?_, ?_⟩
  · have h₁ := h.bytes 12 (by rw [hlen]; omega)
    have h₂ := h.bytes 13 (by rw [hlen]; omega)
    rw [get16_put16 (v := 0x0800) _ 12 (h₁.trans htype.1) (h₂.trans htype.2)]
    rfl
  · exact hbyte 0 (by omega)
  · exact hbyte 9 (by omega)
  · rw [get16_put16 (v := (20 + seg.length).toUInt16) _ 16 (hbyte 2 (by omega))
      (hbyte 3 (by omega))]
    show (20 + seg.length) % 65536 = _
    rw [BUFSZ] at hfits
    omega
  · intro i hi
    have hb := hbyte (20 + i) (by omega)
    rw [bufOf_pkt _ _ hdst, show 14 + (20 + i) = 34 + i by omega] at hb
    exact hb

theorem length_tcpFields {seq ack : UInt32} :
    (tcpFields sport dport seq ack flags data ck).length = 20 + data.length := by
  simp [tcpFields, put16, put32]
  omega

theorem length_udpFields : (udpFields sport dport payload ck).length = 8 + payload.length := by
  simp [udpFields, put16]
  omega

/-- `tcp_recv` reads what `tcpFields` holds. -/
theorem tcpRecv_seen {max : Nat} {seq ack : UInt32}
    (h : IpSeen IP_TCP (tcpFields sport dport seq ack flags data ck) f)
    (hmax : data.length ≤ max) :
    tcpRecv dport.toNat max f = some {
      mac := bytesAt f.fr 6 6
      ip := bytesAt f.fr 26 4
      port := sport.toNat
      seq := seq
      ack := ack
      flags := flags
      data := data } := by
  obtain ⟨hlen, htype, hversion, hproto, hiplen, hbytes⟩ := h
  rw [length_tcpFields] at hlen hiplen hbytes
  have hget (i : Nat) (hi : i < 20) := hbytes i (by omega)
  have harp : get16 f.fr 12 ≠ ETH_ARP := by
    rw [htype]
    decide
  have hihl : ((f.fr 14) &&& 0xf).toNat * 4 = 20 := by
    rw [hversion]
    rfl
  have hdport : get16 f.fr 36 = dport.toNat :=
    get16_put16 _ 36 (hget 2 (by omega)) (hget 3 (by omega))
  have hsport : get16 f.fr 34 = sport.toNat :=
    get16_put16 _ 34 (hget 0 (by omega)) (hget 1 (by omega))
  have hseq : get32 f.fr 38 = seq :=
    get32_put32 _ 38 (hget 4 (by omega)) (hget 5 (by omega)) (hget 6 (by omega))
      (hget 7 (by omega))
  have hack : get32 f.fr 42 = ack :=
    get32_put32 _ 42 (hget 8 (by omega)) (hget 9 (by omega)) (hget 10 (by omega))
      (hget 11 (by omega))
  have hflags : f.fr 47 = flags := hget 13 (by omega)
  have hdoff : ((f.fr 46) >>> 4).toNat * 4 = 20 := by
    have hb : f.fr 46 = (5 : UInt8) <<< 4 := hget 12 (by omega)
    rw [hb]
    rfl
  have hdata : bytesAt f.fr 54 data.length = data := by
    apply bytesAt_eq
    intro j hj
    have hb := hbytes (20 + j) (by omega)
    rw [show 34 + (20 + j) = 54 + j by omega] at hb
    rw [hb, Nat.add_comm]
    rfl
  have hmatch : ¬ (f.fr 14 >>> 4 ≠ 4 ∨ f.fr 23 ≠ IP_TCP) := by
    rw [hversion, hproto]
    decide
  have hdlen : min (get16 f.fr 16 - 20 - 20) max = data.length := by omega
  rw [tcpRecv, if_neg harp, if_neg (not_not.2 htype), if_neg hmatch]
  dsimp only
  rw [hihl, hdoff, hdlen, hdport, if_neg (not_not.2 rfl), hsport, hseq, hack, hflags, hdata]

/-- `udp_rx` reads what `udpFields` holds. -/
theorem udpRx_seen {max : Nat} (h : IpSeen IP_UDP (udpFields sport dport payload ck) f)
    (hfits : f.len ≤ BUFSZ) (hmax : payload.length ≤ max) :
    udpRx dport.toNat max f = some payload := by
  obtain ⟨hlen, htype, hversion, hproto, hiplen, hbytes⟩ := h
  rw [length_udpFields] at hlen hiplen hbytes
  have hget (i : Nat) (hi : i < 8) := hbytes i (by omega)
  have harp : get16 f.fr 12 ≠ ETH_ARP := by
    rw [htype]
    decide
  have hip : ¬ (get16 f.fr 12 ≠ ETH_IP ∨ f.len < 14 + 28) := by
    rw [htype, not_or]
    exact ⟨not_not.2 rfl, by omega⟩
  have hihl : ((f.fr 14) &&& 0xf).toNat * 4 = 20 := by
    rw [hversion]
    rfl
  have hdport : get16 f.fr 36 = dport.toNat :=
    get16_put16 _ 36 (hget 2 (by omega)) (hget 3 (by omega))
  have hulen : get16 f.fr 38 = 8 + payload.length := by
    rw [get16_put16 _ 38 (hget 4 (by omega)) (hget 5 (by omega)), Nat.toUInt16_eq,
      UInt16.toNat_ofNat']
    rw [BUFSZ] at hfits
    omega
  have hdata : bytesAt f.fr 42 payload.length = payload := by
    apply bytesAt_eq
    intro j hj
    have hb := hbytes (8 + j) (by omega)
    rw [show 34 + (8 + j) = 42 + j by omega] at hb
    rw [hb, Nat.add_comm]
    rfl
  have hmatch : ¬ (f.fr 14 >>> 4 ≠ 4 ∨ f.fr 23 ≠ IP_UDP) := by
    rw [hversion, hproto]
    decide
  have hplen : min (8 + payload.length - 8) max = payload.length := by omega
  rw [udpRx, if_neg harp, if_neg hip, if_neg hmatch]
  dsimp only
  rw [hihl, hdport, if_neg (not_not.2 rfl), hulen, if_neg (by omega), hplen, hdata]

/-- Receiving undoes sending, whatever stands after the packet in the frame. -/
theorem recv_undoes_send (hmac : mac.length = 6) (hmy : myMac.length = 6)
    (hdst : dst.length = 4) :
    (∀ sport dport seq ack flags data max f, 40 + data.length ≤ BUFSZ → data.length ≤ max →
      Delivered (ethFrame mac myMac 0x0800 (tcpPkt dst sport dport seq ack flags data)) f →
        ∃ r, tcpRecv dport.toNat max f = some r ∧ r.port = sport.toNat ∧ r.seq = seq ∧
          r.ack = ack ∧ r.flags = flags ∧ r.data = data) ∧
    (∀ sport dport payload max f, 28 + payload.length ≤ BUFSZ → payload.length ≤ max →
      Delivered (ethFrame mac myMac 0x0800 (udpPkt dst sport dport payload)) f →
        udpRx dport.toNat max f = some payload) := by
  refine ⟨?_, ?_⟩
  · intro sport dport seq ack flags data max f _ hmax h
    have hseen := Delivered.seen hmac hmy hdst length_tcpFields h
    exact ⟨_, tcpRecv_seen hseen hmax, rfl, rfl, rfl, rfl, rfl⟩
  · intro sport dport payload max f _ hmax h
    have hseen := Delivered.seen hmac hmy hdst length_udpFields h
    exact udpRx_seen hseen h.fits hmax

/-- A segment and a datagram for our own address, in frames of 60 and 64 bytes. -/
theorem recv_undoes_send_short :
    (∃ r, tcpRecv 5599 BUFSZ ⟨60, bufOf (ethFrame [1, 2, 3, 4, 5, 6] [7, 8, 9, 10, 11, 12] 0x0800
        (tcpPkt MY_IP 40000 5599 7 20001 TH_ACK [104, 105]))⟩ = some r ∧
      r.port = 40000 ∧ r.seq = 7 ∧ r.ack = 20001 ∧ r.flags = TH_ACK ∧ r.data = [104, 105]) ∧
    udpRx 5599 2 ⟨64, bufOf (ethFrame [1, 2, 3, 4, 5, 6] [7, 8, 9, 10, 11, 12] 0x0800
      (udpPkt MY_IP 40000 5599 [104, 105]))⟩ = some [104, 105] := by
  obtain ⟨htcp, hudp⟩ :=
    @recv_undoes_send [1, 2, 3, 4, 5, 6] [7, 8, 9, 10, 11, 12] MY_IP rfl rfl rfl
  refine ⟨?_, ?_⟩
  · apply htcp 40000 5599 7 20001 TH_ACK [104, 105] BUFSZ _ (by decide) (by decide)
    refine ⟨?_, by decide, fun i _ => rfl⟩
    rw [length_ethFrame rfl rfl, tcpPkt, List.length_append, length_ipHeader _ _ rfl,
      length_tcpFields]
    decide
  · apply hudp 40000 5599 [104, 105] 2 _ (by decide) (by decide)
    refine ⟨?_, by decide, fun i _ => rfl⟩
    rw [length_ethFrame rfl rfl, udpPkt, List.length_append, length_ipHeader _ _ rfl,
      length_udpFields]
    decide

end KernelHobby
