import KernelHobby.NetTx
import KernelHobby.Tcp
import KernelHobby.OnesSum

namespace KernelHobby
set_option autoImplicit true

/-- `put32`: network byte order. -/
def put32 (v : UInt32) : List UInt8 :=
  [(v >>> 24).toUInt8, (v >>> 16).toUInt8, (v >>> 8).toUInt8, v.toUInt8]

/-- The summation loop of `cksum`, `udp_tx` and `tcp_send`, with the odd byte at the end. -/
def sumLoop (sum : UInt32) : List UInt8 → UInt32
  | a :: b :: l => sumLoop (sum + (a.toUInt32 <<< 8 ||| b.toUInt32)) l
  | [a] => sum + a.toUInt32 <<< 8
  | [] => sum

theorem fold_lt {sum : UInt32} (h : sum >>> 16 ≠ 0) :
    ((sum &&& (0xffff : UInt32)) + (sum >>> 16)).toNat = sum.toNat % 65536 + sum.toNat / 65536 ∧
      sum.toNat % 65536 + sum.toNat / 65536 < sum.toNat := by
  have hlt := sum.toNat_lt
  have hhi : (sum >>> 16).toNat = sum.toNat / 65536 := by
    rw [UInt32.toNat_shiftRight, Nat.shiftRight_eq_div_pow]
    rfl
  have hlo : (sum &&& (0xffff : UInt32)).toNat = sum.toNat % 65536 := by
    rw [UInt32.toNat_and]
    exact Nat.and_two_pow_sub_one_eq_mod _ 16
  have hne : sum.toNat / 65536 ≠ 0 := by
    intro hz
    apply h
    apply UInt32.toNat_inj.1
    rw [hhi, hz]
    rfl
  rw [UInt32.toNat_add, hlo, hhi]
  omega

/-- The loop that folds the carries in. -/
def foldCarry (sum : UInt32) : UInt32 :=
  if _h : sum >>> 16 = 0 then sum else foldCarry ((sum &&& (0xffff : UInt32)) + (sum >>> 16))
termination_by sum.toNat
decreasing_by
  have hf := fold_lt _h
  omega

/-- `~sum & 0xffff` of the folded sum. -/
def ckField (sum : UInt32) : UInt16 := (~~~ foldCarry sum &&& 0xffff).toUInt16

def cksum (data : List UInt8) : UInt16 := ckField (sumLoop 0 data)

def IP_UDP : UInt8 := 17
def IP_ICMP : UInt8 := 1

/-- The fields of an IP header, with a checksum. -/
def ipFields (proto : UInt8) (iplen : Nat) (dst : List UInt8) (ck : UInt16) : List UInt8 :=
  [0x45, 0] ++ put16 iplen.toUInt16 ++ put16 0 ++ put16 0 ++ [64, proto] ++
    (put16 ck ++ (MY_IP ++ dst))

/-- The IP header of `udp_tx`, `tcp_send` and `icmp_ping`: the checksum is computed over zeros in
its place, and then put there. -/
def ipHeader (proto : UInt8) (iplen : Nat) (dst : List UInt8) : List UInt8 :=
  ipFields proto iplen dst (cksum (ipFields proto iplen dst 0))

/-- `get16` of two places of an address. -/
def addrSum (ip : List UInt8) : UInt32 :=
  (get16 (fun i => ip.getD i 0) 0).toUInt32 + (get16 (fun i => ip.getD i 0) 2).toUInt32

/-- The sum of the pseudo-header. -/
def pseudoSum (proto : UInt8) (dst : List UInt8) (len : Nat) : UInt32 :=
  addrSum MY_IP + addrSum dst + (proto.toUInt32 + len.toUInt32)

def udpFields (sport dport : UInt16) (payload : List UInt8) (ck : UInt16) : List UInt8 :=
  put16 sport ++ put16 dport ++ put16 (8 + payload.length).toUInt16 ++ (put16 ck ++ payload)

/-- The checksum of `udp_tx`. -/
def udpField (dst : List UInt8) (sport dport : UInt16) (payload : List UInt8) : UInt16 :=
  let c := ckField (sumLoop (pseudoSum IP_UDP dst (8 + payload.length))
    (udpFields sport dport payload 0))
  if c ≠ 0 then c else 0xffff

/-- The packet of `udp_tx`. -/
def udpPkt (dst : List UInt8) (sport dport : UInt16) (payload : List UInt8) : List UInt8 :=
  ipHeader IP_UDP (20 + (8 + payload.length)) dst ++
    udpFields sport dport payload (udpField dst sport dport payload)

def tcpFields (sport dport : UInt16) (seq ack : UInt32) (flags : UInt8) (data : List UInt8)
    (ck : UInt16) : List UInt8 :=
  put16 sport ++ put16 dport ++ put32 seq ++ put32 ack ++ [(5 : UInt8) <<< 4, flags] ++
    put16 64240 ++ (put16 ck ++ (put16 0 ++ data))

/-- The packet of `tcp_send`. -/
def tcpPkt (dst : List UInt8) (sport dport : UInt16) (seq ack : UInt32) (flags : UInt8)
    (data : List UInt8) : List UInt8 :=
  let c := ckField (sumLoop (pseudoSum IP_TCP dst (20 + data.length))
    (tcpFields sport dport seq ack flags data 0))
  ipHeader IP_TCP (20 + (20 + data.length)) dst ++ tcpFields sport dport seq ack flags data c

def icmpFields (ck : UInt16) : List UInt8 :=
  [8, 0] ++ (put16 ck ++ (put16 0xabcd ++ (put16 1 ++
    (List.range 32).map fun i => (97 + i % 26).toUInt8)))

/-- The echo request of `icmp_ping`. -/
def icmpMsg : List UInt8 := icmpFields (cksum (icmpFields 0))

/-- The packet of `icmp_ping`. -/
def icmpPkt (dst : List UInt8) : List UInt8 := ipHeader IP_ICMP (20 + 40) dst ++ icmpMsg

theorem foldCarry_toNat (sum : UInt32) : (foldCarry sum).toNat = ones sum.toNat := by
  induction sum using foldCarry.induct with
  | case1 sum h =>
    have hhi : (sum >>> 16).toNat = sum.toNat / 65536 := by
      rw [UInt32.toNat_shiftRight, Nat.shiftRight_eq_div_pow]
      rfl
    have hz : sum.toNat / 65536 = 0 := by
      rw [← hhi, h]
      rfl
    rw [foldCarry, dif_pos h, ones_of_lt (by omega)]
  | case2 sum h ih =>
    rw [foldCarry, dif_neg h, ih, (fold_lt h).1, ones_carry]

theorem ckField_toNat (sum : UInt32) : (ckField sum).toNat = 65535 - ones sum.toNat := by
  have hlt := ones_lt sum.toNat
  have hmask : (~~~ foldCarry sum &&& (0xffff : UInt32)).toNat =
      (~~~ foldCarry sum).toNat % 65536 := by
    rw [UInt32.toNat_and]
    exact Nat.and_two_pow_sub_one_eq_mod _ 16
  rw [ckField, UInt32.toNat_toUInt16, hmask, UInt32.toNat_not, foldCarry_toNat]
  have hsize : UInt32.size = 4294967296 := rfl
  omega

theorem hi_toNat (a : UInt8) : (a.toUInt32 <<< 8).toNat = a.toNat * 256 := by
  have ha := a.toNat_lt
  rw [UInt32.toNat_shiftLeft, UInt8.toNat_toUInt32, Nat.shiftLeft_eq]
  show a.toNat * 256 % 2 ^ 32 = _
  omega

/-- `get16` of two bytes. -/
theorem word_toNat (a b : UInt8) :
    (a.toUInt32 <<< 8 ||| b.toUInt32).toNat = a.toNat * 256 + b.toNat := by
  have hb := b.toNat_lt
  have hor := Nat.two_pow_add_eq_or_of_lt (i := 8) hb a.toNat
  rw [Nat.mul_comm] at hor
  rw [UInt32.toNat_or, hi_toNat, UInt8.toNat_toUInt32]
  exact hor.symm

theorem sumLoop_toNat (l : List UInt8) (sum : UInt32) (h : sum.toNat + wordSum l < 2 ^ 32) :
    (sumLoop sum l).toNat = sum.toNat + wordSum l := by
  induction l using words.induct generalizing sum with
  | case1 a b l ih =>
    have hw := word_toNat a b
    rw [wordSum, words, List.sum_cons] at h ⊢
    have hadd : (sum + (a.toUInt32 <<< 8 ||| b.toUInt32)).toNat =
        sum.toNat + (a.toNat * 256 + b.toNat) := by
      rw [UInt32.toNat_add, hw]
      omega
    rw [sumLoop, ih _ (by rw [hadd, wordSum]; omega), hadd, wordSum, Nat.add_assoc]
  | case2 a =>
    have ha := a.toNat_lt
    have hw : (a.toUInt32 <<< 8).toNat = a.toNat * 256 := hi_toNat a
    rw [wordSum, words, List.sum_singleton] at h ⊢
    rw [sumLoop, UInt32.toNat_add, hw]
    omega
  | case3 => rfl

/-- What UDP and TCP sum up before the segment: the addresses, the protocol and the length. -/
def pseudoHeader (proto : UInt8) (src dst : List UInt8) (len : Nat) : List UInt8 :=
  src ++ dst ++ [0, proto] ++ put16 len.toUInt16

theorem wordSum_put16 (v : UInt16) : wordSum (put16 v) = v.toNat := by
  have hv := v.toNat_lt
  have hhi : (v >>> 8).toUInt8.toNat = v.toNat / 256 := by
    rw [UInt16.toNat_toUInt8, UInt16.toNat_shiftRight, Nat.shiftRight_eq_div_pow]
    show v.toNat / 2 ^ 8 % 2 ^ 8 = _
    omega
  have hlo : v.toUInt8.toNat = v.toNat % 256 := UInt16.toNat_toUInt8 v
  rw [wordSum, put16, words, words, List.sum_singleton, hhi, hlo]
  omega

theorem addrSum_toNat (hip : ip.length = 4) : (addrSum ip).toNat = wordSum ip := by
  obtain ⟨a, b, c, d, rfl⟩ := List.length_eq_four.1 hip
  have ha := a.toNat_lt
  have hb := b.toNat_lt
  have hc := c.toNat_lt
  have hd := d.toNat_lt
  have hw : wordSum [a, b, c, d] = a.toNat * 256 + b.toNat + (c.toNat * 256 + d.toNat + 0) := rfl
  have hs : addrSum [a, b, c, d] =
      (a.toNat * 256 + b.toNat).toUInt32 + (c.toNat * 256 + d.toNat).toUInt32 := rfl
  rw [hw, hs, UInt32.toNat_add]
  show ((a.toNat * 256 + b.toNat) % 2 ^ 32 + (c.toNat * 256 + d.toNat) % 2 ^ 32) % 2 ^ 32 = _
  omega

theorem pseudoSum_toNat (proto : UInt8) (hdst : dst.length = 4) (hlen : len < 65536) :
    (pseudoSum proto dst len).toNat = wordSum (pseudoHeader proto MY_IP dst len) := by
  have hle := wordSum_le dst
  have hle' := wordSum_le MY_IP
  have hp := proto.toNat_lt
  have h₁ : MY_IP.length % 2 = 0 := rfl
  have h₂ : ([0, proto] : List UInt8).length % 2 = 0 := by simp
  have h₃ : dst.length % 2 = 0 := by rw [hdst]
  have hw : wordSum [0, proto] = 0 * 256 + proto.toNat + 0 := rfl
  have hl : len.toUInt16.toNat = len % 65536 := UInt16.toNat_ofNat'
  have hl' : len.toUInt32.toNat = len % 2 ^ 32 := UInt32.toNat_ofNat'
  rw [hdst] at hle
  simp only [pseudoSum, pseudoHeader, List.append_assoc, wordSum_append h₁, wordSum_append h₂,
    wordSum_append h₃, wordSum_put16, UInt32.toNat_add, addrSum_toNat hdst,
    addrSum_toNat (show MY_IP.length = 4 from rfl), hw, hl, hl', UInt8.toNat_toUInt32]
  have hm : MY_IP.length = 4 := rfl
  rw [hm] at hle'
  omega

/-- A field that brings the sum of the sequence around it to all ones. -/
theorem onesSum_field (heven : pre.length % 2 = 0)
    (hc : ones (wordSum (pre ++ (put16 0 ++ post)) + c.toNat) = 65535) :
    onesSum (pre ++ (put16 c ++ post)) = 65535 := by
  have hput (v : UInt16) : (put16 v).length % 2 = 0 := by simp [put16]
  have hz : (0 : UInt16).toNat = 0 := rfl
  rw [wordSum_append heven, wordSum_append (hput 0), wordSum_put16, hz, Nat.zero_add,
    Nat.add_assoc, Nat.add_comm (wordSum post)] at hc
  rw [onesSum_eq, wordSum_append heven, wordSum_append (hput c), wordSum_put16, hc]

theorem cksum_toNat (hlen : data.length ≤ BUFSZ) :
    (cksum data).toNat = 65535 - ones (wordSum data) := by
  have hle := wordSum_le data
  have hlt : (0 : UInt32).toNat + wordSum data < 2 ^ 32 := by
    show 0 + wordSum data < 2 ^ 32
    rw [BUFSZ] at hlen
    omega
  rw [cksum, ckField_toNat, sumLoop_toNat _ _ hlt]
  show 65535 - ones (0 + wordSum data) = _
  rw [Nat.zero_add]

theorem length_pseudoHeader (proto : UInt8) (hdst : dst.length = 4) (n : Nat) :
    (pseudoHeader proto MY_IP dst n).length = 12 := by
  simp [pseudoHeader, put16, hdst, MY_IP]

/-- The checksum of a segment with its pseudo-header. -/
theorem segField_toNat (proto : UInt8) (hdst : dst.length = 4) (hn : seg.length = n)
    (hlen : n ≤ BUFSZ) :
    (ckField (sumLoop (pseudoSum proto dst n) seg)).toNat =
      65535 - ones (wordSum (pseudoHeader proto MY_IP dst n ++ seg)) := by
  have hle := wordSum_le seg
  have hle' := wordSum_le (pseudoHeader proto MY_IP dst n)
  have hph := length_pseudoHeader proto hdst n
  have heven : (pseudoHeader proto MY_IP dst n).length % 2 = 0 := by rw [hph]
  rw [BUFSZ] at hlen
  rw [hph] at hle'
  have hsum := pseudoSum_toNat proto hdst (show n < 65536 by omega)
  rw [ckField_toNat, sumLoop_toNat _ _ (by omega), hsum, wordSum_append heven]

theorem ipHeader_valid (proto : UInt8) (iplen : Nat) (hdst : dst.length = 4) :
    onesSum (ipHeader proto iplen dst) = 65535 := by
  have hlen : (ipFields proto iplen dst 0).length ≤ BUFSZ := by
    simp [ipFields, put16, hdst, MY_IP, BUFSZ]
  apply onesSum_field
  · simp [put16]
  · rw [cksum_toNat hlen]
    exact ones_check _

theorem icmpMsg_valid : onesSum icmpMsg = 65535 := by
  have hlen : (icmpFields 0).length ≤ BUFSZ := by
    simp [icmpFields, put16, BUFSZ]
  apply onesSum_field
  · simp
  · rw [cksum_toNat hlen]
    exact ones_check _

theorem tcpFields_valid {seq ack : UInt32} (hdst : dst.length = 4) (hlen : 40 + data.length ≤ BUFSZ) :
    onesSum (pseudoHeader IP_TCP MY_IP dst (20 + data.length) ++
      tcpFields sport dport seq ack flags data
        (ckField (sumLoop (pseudoSum IP_TCP dst (20 + data.length))
          (tcpFields sport dport seq ack flags data 0)))) = 65535 := by
  have hn : (tcpFields sport dport seq ack flags data 0).length = 20 + data.length := by
    simp [tcpFields, put16, put32]
    omega
  have hck := segField_toNat IP_TCP hdst hn (by omega)
  rw [tcpFields, ← List.append_assoc]
  apply onesSum_field
  · simp [length_pseudoHeader IP_TCP hdst, put16, put32]
  · rw [List.append_assoc, hck]
    exact ones_check _

theorem udpField_ne (dst : List UInt8) (sport dport : UInt16) (payload : List UInt8) :
    udpField dst sport dport payload ≠ 0 := by
  rw [udpField]
  split
  · assumption
  · decide

theorem udpFields_valid (hdst : dst.length = 4) (hlen : 28 + payload.length ≤ BUFSZ) :
    onesSum (pseudoHeader IP_UDP MY_IP dst (8 + payload.length) ++
      udpFields sport dport payload (udpField dst sport dport payload)) = 65535 := by
  have hn : (udpFields sport dport payload 0).length = 8 + payload.length := by
    simp [udpFields, put16]
    omega
  have hck := segField_toNat IP_UDP hdst hn (by omega)
  rw [udpFields, ← List.append_assoc]
  apply onesSum_field
  · simp [length_pseudoHeader IP_UDP hdst, put16]
  · rw [List.append_assoc, udpField]
    split
    · rw [hck]
      exact ones_check _
    · rename_i hz
      apply ones_check_max
      rw [← udpFields, ← hck, not_not.1 hz]
      rfl

/-- A byte sequence as a buffer. -/
def bufOf (l : List UInt8) (i : Nat) : UInt8 := l.getD i 0

/-- What the receiver of an IP packet sums up for UDP and TCP: the pseudo-header, from the fields
of the IP header, and the segment. -/
def covered (pkt : List UInt8) : List UInt8 :=
  pseudoHeader (bufOf pkt 9) (bytesAt (bufOf pkt) 12 4) (bytesAt (bufOf pkt) 16 4)
    (get16 (bufOf pkt) 2 - 20) ++ pkt.drop 20

theorem get16_put16 {v : UInt16} (p : Nat → UInt8) (i : Nat) (hi : p i = (v >>> 8).toUInt8)
    (hi' : p (i + 1) = v.toUInt8) :
    get16 p i = v.toNat := by
  have h := wordSum_put16 v
  rw [wordSum, put16, words, words, List.sum_singleton] at h
  rw [get16, hi, hi', h]

theorem length_ipHeader (proto : UInt8) (iplen : Nat) (hdst : dst.length = 4) :
    (ipHeader proto iplen dst).length = 20 := by
  simp [ipHeader, ipFields, put16, hdst, MY_IP]

theorem take_pkt (proto : UInt8) (iplen : Nat) (hdst : dst.length = 4) (seg : List UInt8) :
    (ipHeader proto iplen dst ++ seg).take 20 = ipHeader proto iplen dst := by
  exact List.take_left' (length_ipHeader proto iplen hdst)

theorem drop_pkt (proto : UInt8) (iplen : Nat) (hdst : dst.length = 4) (seg : List UInt8) :
    (ipHeader proto iplen dst ++ seg).drop 20 = seg := by
  exact List.drop_left' (length_ipHeader proto iplen hdst)

theorem bufOf_append (h : a.length = n) (b : List UInt8) (i : Nat) :
    bufOf (a ++ b) (n + i) = bufOf b i := by
  rw [bufOf, bufOf, List.getD_eq_getElem?_getD, List.getElem?_append_right (by omega), h,
    Nat.add_sub_cancel_left, List.getD_eq_getElem?_getD]

theorem bufOf_append_left (h : i < a.length) (b : List UInt8) : bufOf (a ++ b) i = bufOf a i := by
  rw [bufOf, bufOf, List.getD_eq_getElem?_getD, List.getElem?_append_left h,
    List.getD_eq_getElem?_getD]

theorem bufOf_pkt (proto : UInt8) (iplen : Nat) (hdst : dst.length = 4) (seg : List UInt8)
    (i : Nat) : bufOf (ipHeader proto iplen dst ++ seg) (20 + i) = bufOf seg i := by
  exact bufOf_append (length_ipHeader proto iplen hdst) seg i

theorem covered_pkt (proto : UInt8) (hdst : dst.length = 4) (hlen : 20 + n < 65536)
    (seg : List UInt8) :
    covered (ipHeader proto (20 + n) dst ++ seg) = pseudoHeader proto MY_IP dst n ++ seg := by
  have hn : get16 (bufOf (ipHeader proto (20 + n) dst ++ seg)) 2 = 20 + n := by
    rw [get16_put16 (v := (20 + n).toUInt16) _ 2 rfl rfl]
    show (20 + n) % 65536 = _
    omega
  rw [covered, hn, drop_pkt proto _ hdst, Nat.add_sub_cancel_left]
  obtain ⟨a, b, c, d, rfl⟩ := List.length_eq_four.1 hdst
  rfl

/-- Every packet that is sent verifies at the receiver. -/
theorem sent_verifies (hdst : dst.length = 4) :
    (∀ sport dport payload, 28 + payload.length ≤ BUFSZ →
      onesSum ((udpPkt dst sport dport payload).take 20) = 0xffff ∧
      onesSum (covered (udpPkt dst sport dport payload)) = 0xffff ∧
      get16 (bufOf (udpPkt dst sport dport payload)) 26 ≠ 0) ∧
    (∀ sport dport seq ack flags data, 40 + data.length ≤ BUFSZ →
      onesSum ((tcpPkt dst sport dport seq ack flags data).take 20) = 0xffff ∧
      onesSum (covered (tcpPkt dst sport dport seq ack flags data)) = 0xffff) ∧
    onesSum ((icmpPkt dst).take 20) = 0xffff ∧ onesSum ((icmpPkt dst).drop 20) = 0xffff := by
  refine ⟨?_, ?_, ?_, ?_⟩
  · intro sport dport payload hlen
    have hlen' : 20 + (8 + payload.length) < 65536 := by
      rw [BUFSZ] at hlen
      omega
    refine ⟨?_, ?_, ?_⟩
    · rw [udpPkt, take_pkt _ _ hdst]
      exact ipHeader_valid _ _ hdst
    · rw [udpPkt, covered_pkt _ hdst hlen']
      exact udpFields_valid hdst hlen
    · have hget : get16 (bufOf (udpPkt dst sport dport payload)) 26 =
          (udpField dst sport dport payload).toNat := by
        apply get16_put16
        · exact bufOf_pkt _ _ hdst _ 6
        · exact bufOf_pkt _ _ hdst _ 7
      rw [hget]
      intro hz
      exact udpField_ne dst sport dport payload (UInt16.toNat_inj.1 hz)
  · intro sport dport seq ack flags data hlen
    have hlen' : 20 + (20 + data.length) < 65536 := by
      rw [BUFSZ] at hlen
      omega
    refine ⟨?_, ?_⟩
    · rw [tcpPkt, take_pkt _ _ hdst]
      exact ipHeader_valid _ _ hdst
    · rw [tcpPkt, covered_pkt _ hdst hlen']
      exact tcpFields_valid hdst hlen
  · rw [icmpPkt, take_pkt _ _ hdst]
    exact ipHeader_valid _ _ hdst
  · rw [icmpPkt, drop_pkt _ _ hdst]
    exact icmpMsg_valid

/-- A datagram of odd length, an empty segment and an echo request to the gateway. -/
theorem sent_verifies_gateway :
    (onesSum ((udpPkt [10, 0, 2, 2] 40000 53 [1, 2, 3]).take 20) = 0xffff ∧
      onesSum (covered (udpPkt [10, 0, 2, 2] 40000 53 [1, 2, 3])) = 0xffff ∧
      get16 (bufOf (udpPkt [10, 0, 2, 2] 40000 53 [1, 2, 3])) 26 ≠ 0) ∧
    (onesSum ((tcpPkt [10, 0, 2, 2] 5599 40000 20000 1 TH_ACK []).take 20) = 0xffff ∧
      onesSum (covered (tcpPkt [10, 0, 2, 2] 5599 40000 20000 1 TH_ACK [])) = 0xffff) ∧
    onesSum ((icmpPkt [10, 0, 2, 2]).take 20) = 0xffff ∧
      onesSum ((icmpPkt [10, 0, 2, 2]).drop 20) = 0xffff := by
  obtain ⟨hudp, htcp, hicmp⟩ := @sent_verifies [10, 0, 2, 2] rfl
  exact ⟨hudp 40000 53 [1, 2, 3] (by decide), htcp 5599 40000 20000 1 TH_ACK [] (by decide), hicmp⟩

end KernelHobby
