import KernelHobby.DnsSpec
import KernelHobby.Fs

namespace KernelHobby
set_option autoImplicit true

def GW_IP : List UInt8 := [10, 0, 2, 2]

def DNS_IP : List UInt8 := [10, 0, 2, 3]

/-- The polls of `arp_resolve`, `icmp_ping` and `udp_rx`. -/
def POLL_SPINS : Nat := 400000000

def DNS_PORT : UInt16 := 53

/-- The port of `dns_query`. -/
def QUERY_PORT : UInt16 := 0x9999

def arpPkt (oper : UInt16) (sha spa tha tpa : List UInt8) : List UInt8 :=
  put16 1 ++ put16 0x0800 ++ [6, 4] ++ put16 oper ++ (sha ++ (spa ++ (tha ++ tpa)))

/-- The frame of `arp_request`. -/
def arpRequest (mac target : List UInt8) : List UInt8 :=
  ethFrame (List.replicate 6 0xff) mac 0x0806
    (arpPkt 1 mac MY_IP (List.replicate 6 0) target)

/-- The frame with which `arp_maybe_reply` answers. -/
def arpMaybeReply (mac : List UInt8) (f : EthFrame) : Option (List UInt8) :=
  let fr := f.fr
  if f.len < 14 + 28 ∨ get16 fr 12 ≠ ETH_ARP then none
  else if get16 fr (14 + 6) ≠ 1 then none
  else if bytesAt fr (14 + 24) 4 ≠ MY_IP then none
  else
    let sha := bytesAt fr (14 + 8) 6
    some (ethFrame sha mac 0x0806 (arpPkt 2 mac MY_IP sha (bytesAt fr (14 + 14) 4)))

/-- The MAC that `arp_resolve` finds in a frame. -/
def arpAnswer (target : List UInt8) (f : EthFrame) : Option (List UInt8) :=
  let fr := f.fr
  if get16 fr 12 = ETH_ARP ∧ 14 + 28 ≤ f.len then
    if get16 fr (14 + 6) = 2 ∧ bytesAt fr (14 + 14) 4 = target then some (bytesAt fr (14 + 8) 6)
    else none
  else none

/-- A frame that ends `icmp_ping`. -/
def icmpEcho (dst : List UInt8) (f : EthFrame) : Bool :=
  let fr := f.fr
  if get16 fr 12 = ETH_ARP then false
  else if get16 fr 12 ≠ ETH_IP ∨ f.len < 14 + 28 then false
  else if fr (14 + 9) ≠ IP_ICMP then false
  else
    let ihl := ((fr 14) &&& 0xf).toNat * 4
    decide (fr (14 + ihl) = 0 ∧ bytesAt fr (14 + 12) 4 = dst)

/-- The labels of `dns_query`, each up to the next dot. -/
def qname : List UInt8 → List UInt8
  | [] => []
  | c :: name =>
    let label := (c :: name).takeWhile (· ≠ 46)
    label.length.toUInt8 :: (label ++ qname ((c :: name).drop label.length).tail)
termination_by name => name.length
decreasing_by
  simp only [List.length_tail, List.length_drop, List.length_cons]
  omega

/-- The query of `dns_query`. -/
def dnsQuestion (name : CStr) : List UInt8 :=
  put16 0x1234 ++ put16 0x0100 ++ put16 1 ++ put16 0 ++ put16 0 ++ put16 0 ++
    (qname name.bytes ++ [0] ++ (put16 1 ++ put16 1))

/-- What `net_demo` works with: `my_mac`, the name, whether the device is done in time with each
frame, and what is in the buffer of the reply before. -/
structure NetConf where
  mac : List UInt8
  mac_length : mac.length = 6
  host : CStr
  tx : Nat → Bool
  buf : Nat → UInt8

/-- Where `net_demo` is: in `arp_resolve` for the gateway, in `icmp_ping`, in `arp_resolve` for the
name server, in the `udp_rx` of `dns_query`. -/
inductive NetPhase where
  | gateway
  | ping
  | server
  | lookup
  | done
  deriving DecidableEq

/-- `net_demo`, with the polls of the loop it is in, the frames it has sent and what it has
printed. -/
structure NetDemo where
  phase : NetPhase
  spin : Nat
  sent : List (List UInt8)
  out : List UartOut

def hexDigit (n : UInt8) : UartOut :=
  .putc ("0123456789abcdef".toList.getD n.toNat ' ').toUInt8

def printMac (m : List UInt8) : List UartOut :=
  (List.range 6).flatMap fun i =>
    (if i ≠ 0 then [.putc 58] else []) ++ [hexDigit (m.getD i 0 >>> 4), hexDigit (m.getD i 0 &&& 0xf)]

def printIp (ip : List UInt8) : List UartOut :=
  (List.range 4).flatMap fun i => (if i ≠ 0 then [.putc 46] else []) ++ [.dec (ip.getD i 0).toNat]

/-- What `net_demo` prints when it has the MAC of the gateway, that of the name server, and the
result of `dns_query`. -/
def pingText (mac : List UInt8) : List UartOut :=
  (.puts "is-at " :: printMac mac) ++ [.putc 10, .puts "[net] ping "] ++ printIp GW_IP ++
    [.puts " ... "]

def lookupText (host : CStr) : List UartOut :=
  .puts "[net] DNS A " :: (putsChars host.bytes ++ [.puts " ... "])

def answerText : Option (List UInt8) → List UartOut
  | some ip => printIp ip ++ [.putc 10]
  | none => [.puts "timeout (no outbound DNS?)\n"]

def upText : UartOut := .puts "[ok] networking up: virtio-net + ARP + ICMP + IP/UDP\n"

namespace NetDemo

def print (d : NetDemo) (s : List UartOut) : NetDemo := { d with out := d.out ++ s }

def send (d : NetDemo) (frame : List UInt8) : NetDemo := { d with sent := d.sent ++ [frame] }

/-- The end of `net_demo` after the lookup. -/
def up (d : NetDemo) : NetDemo :=
  { d.print [upText] with phase := .done }

/-- The result of `dns_query`. -/
def answered (d : NetDemo) (ip : Option (List UInt8)) : NetDemo := (d.print (answerText ip)).up

/-- The name server is at `mac`. -/
def lookup (d : NetDemo) (c : NetConf) (mac : List UInt8) : NetDemo :=
  let d := d.print (lookupText c.host)
  let ok := c.tx d.sent.length
  let d := d.send (ethFrame mac c.mac 0x0800
    (udpPkt DNS_IP QUERY_PORT DNS_PORT (dnsQuestion c.host)))
  if ok then { d with phase := .lookup, spin := 0 } else d.answered none

/-- The result of `icmp_ping`. -/
def pong (d : NetDemo) (c : NetConf) (ok : Bool) : NetDemo :=
  let d := d.print [.puts (if ok then "reply\n" else "timeout\n")]
  { d.send (arpRequest c.mac DNS_IP) with phase := .server, spin := 0 }

/-- The gateway is at `mac`. -/
def ping (d : NetDemo) (c : NetConf) (mac : List UInt8) : NetDemo :=
  let d := d.print (pingText mac)
  let ok := c.tx d.sent.length
  let d := d.send (ethFrame mac c.mac 0x0800 (icmpPkt GW_IP))
  if ok then { d with phase := .ping, spin := 0 } else d.pong c false

def start (c : NetConf) : NetDemo where
  phase := .gateway
  spin := 0
  sent := [arpRequest c.mac GW_IP]
  out := .puts "[net] ARP who-has " :: (printIp GW_IP ++ [.puts " (gateway) ... "])

/-- The buffer of `dns_query` with a reply in it. -/
def replyBuf (c : NetConf) (r : List UInt8) (i : Nat) : UInt8 := r.getD i (c.buf i)

/-- Where a frame that ends the loop leads. -/
def next (d : NetDemo) (c : NetConf) (f : EthFrame) : Option NetDemo :=
  match d.phase with
  | .gateway => (arpAnswer GW_IP f).map (d.ping c)
  | .ping => if icmpEcho GW_IP f then some (d.pong c true) else none
  | .server => (arpAnswer DNS_IP f).map (d.lookup c)
  | .lookup =>
    (udpRx QUERY_PORT.toNat BUFSZ f).map fun r => d.answered (dnsReply (replyBuf c r) r.length)
  | .done => none

/-- The loop has polled long enough. -/
def timeout (d : NetDemo) (c : NetConf) : NetDemo :=
  match d.phase with
  | .gateway => { d.print [.puts "timeout\n"] with phase := .done }
  | .ping => d.pong c false
  | .server => (d.print [.puts "[net] cannot reach DNS server\n"]).up
  | .lookup => d.answered none
  | .done => d

/-- All the loops answer requests for our address. -/
def reply (d : NetDemo) (c : NetConf) (f : Option EthFrame) : NetDemo :=
  match f.bind (arpMaybeReply c.mac) with
  | some r => d.send r
  | none => d

/-- One poll of `eth_rx`. -/
def poll (d : NetDemo) (c : NetConf) (f : Option EthFrame) : NetDemo :=
  if d.phase = .done then d
  else
    match f.bind (d.next c) with
    | some d => d
    | none =>
      let d := d.reply c f
      if d.spin + 1 < POLL_SPINS then { d with spin := d.spin + 1 } else d.timeout c

def run (d : NetDemo) (c : NetConf) (fs : List (Option EthFrame)) : NetDemo :=
  fs.foldl (fun d f => d.poll c f) d

end NetDemo

/-- An ARP reply tells the truth about who owns an address. -/
def EthFrame.Honest (owns : List UInt8 → List UInt8 → Prop) (f : EthFrame) : Prop :=
  get16 f.fr 12 = ETH_ARP → 14 + 28 ≤ f.len → get16 f.fr (14 + 6) = 2 →
    owns (bytesAt f.fr (14 + 14) 4) (bytesAt f.fr (14 + 8) 6)

/-- The frames that `net_demo` may send. -/
inductive NetSent (c : NetConf) (owns : List UInt8 → List UInt8 → Prop) : List UInt8 → Prop where
  | request : target = GW_IP ∨ target = DNS_IP → NetSent c owns (arpRequest c.mac target)
  | reply (f : EthFrame) : arpMaybeReply c.mac f = some r → NetSent c owns r
  | ping : owns GW_IP mac → mac.length = 6 →
      NetSent c owns (ethFrame mac c.mac 0x0800 (icmpPkt GW_IP))
  | query : owns DNS_IP mac → mac.length = 6 →
      NetSent c owns (ethFrame mac c.mac 0x0800
        (udpPkt DNS_IP QUERY_PORT DNS_PORT (dnsQuestion c.host)))

/-- An ARP reply, by its bytes. -/
def isArpReply (frame : List UInt8) : Bool :=
  decide (get16 (bufOf frame) 12 = ETH_ARP ∧ get16 (bufOf frame) 20 = 2)

section Arp
variable {mac myMac target : List UInt8} {f : EthFrame}

theorem arpAnswer_honest (h : arpAnswer target f = some mac) (hf : f.Honest owns) :
    owns target mac ∧ mac.length = 6 := by
  rw [arpAnswer] at h
  split at h
  · rename_i harp
    split at h
    · rename_i hrep
      cases h
      refine ⟨?_, length_bytesAt ..⟩
      rw [← hrep.2]
      exact hf harp.1 harp.2 hrep.1
    · cases h
  · cases h

/-- What `arp_maybe_reply` answers, and with what. -/
theorem arpMaybeReply_some (h : arpMaybeReply myMac f = some r) :
    get16 f.fr 12 = ETH_ARP ∧ get16 f.fr 20 = 1 ∧
      r = ethFrame (bytesAt f.fr 22 6) myMac 0x0806
        (arpPkt 2 myMac MY_IP (bytesAt f.fr 22 6) (bytesAt f.fr 28 4)) := by
  rw [arpMaybeReply] at h
  dsimp only at h
  split at h
  · cases h
  · rename_i harp
    split at h
    · cases h
    · rename_i hreq
      split at h
      · cases h
      · cases h
        exact ⟨not_not.1 (not_or.1 harp).2, not_not.1 hreq, rfl⟩

/-- A frame that asks is no frame that any of the loops waits for. -/
theorem next_of_request (d : NetDemo) (c : NetConf) (h : arpMaybeReply myMac f = some r) :
    d.next c f = none := by
  obtain ⟨harp, hreq, _⟩ := arpMaybeReply_some h
  have hanswer (target : List UInt8) : arpAnswer target f = none := by
    rw [arpAnswer, hreq]
    split
    · rw [if_neg fun hn => absurd hn.1 (by decide)]
    · rfl
  rw [NetDemo.next]
  split
  · rw [hanswer, Option.map_none]
  · rw [icmpEcho, if_pos harp]
    rfl
  · rw [hanswer, Option.map_none]
  · rw [udpRx, if_pos harp, Option.map_none]
  · rfl

/-- A delivered ARP packet, as the loops see it. -/
structure ArpSeen (oper : UInt16) (sha spa tpa : List UInt8) (f : EthFrame) : Prop where
  len : 14 + 28 ≤ f.len
  type : get16 f.fr 12 = ETH_ARP
  oper : get16 f.fr (14 + 6) = oper.toNat
  sha : bytesAt f.fr (14 + 8) 6 = sha
  spa : bytesAt f.fr (14 + 14) 4 = spa
  tpa : bytesAt f.fr (14 + 24) 4 = tpa

theorem Delivered.type (hmac : mac.length = 6) (hmy : myMac.length = 6)
    (h : Delivered (ethFrame mac myMac ty pkt) f) : get16 f.fr 12 = ty.toNat := by
  have hlen : (ethFrame mac myMac ty pkt).length = 14 + pkt.length := length_ethFrame hmac hmy pkt
  obtain ⟨h₁, h₂⟩ := bufOf_ethFrame_type hmac hmy ty pkt
  exact get16_put16 _ 12 ((h.bytes 12 (by omega)).trans h₁) ((h.bytes 13 (by omega)).trans h₂)

theorem Delivered.payload (hmac : mac.length = 6) (hmy : myMac.length = 6)
    (h : Delivered (ethFrame mac myMac ty pkt) f) (hi : i < pkt.length) :
    f.fr (14 + i) = bufOf pkt i := by
  rw [h.bytes _ (by rw [length_ethFrame hmac hmy]; omega), bufOf_ethFrame hmac hmy]

theorem Delivered.arpSeen (hmac : mac.length = 6) (hmy : myMac.length = 6)
    (hsha : sha.length = 6) (hspa : spa.length = 4) (htha : tha.length = 6) (htpa : tpa.length = 4)
    (h : Delivered (ethFrame mac myMac 0x0806 (arpPkt oper sha spa tha tpa)) f) :
    ArpSeen oper sha spa tpa f := by
  have hpkt : (arpPkt oper sha spa tha tpa).length = 28 := by
    simp [arpPkt, put16, hsha, hspa, htha, htpa]
  have hwhole := h.whole
  rw [length_ethFrame hmac hmy, hpkt] at hwhole
  have hbyte (i : Nat) (hi : i < 28) := h.payload (i := i) hmac hmy (hpkt ▸ hi)
  have htail (i : Nat) : bufOf (arpPkt oper sha spa tha tpa) (8 + i) =
      bufOf (sha ++ (spa ++ (tha ++ tpa))) i := bufOf_append rfl _ i
  refine ⟨hwhole, h.type hmac hmy, get16_put16 _ _ (hbyte 6 (by omega)) (hbyte 7 (by omega)), ?_,
    ?_, ?_⟩
  · rw [← hsha]
    apply bytesAt_eq
    intro j hj
    rw [Nat.add_assoc, hbyte (8 + j) (by omega), htail, bufOf_append_left hj]
  · rw [← hspa]
    apply bytesAt_eq
    intro j hj
    rw [Nat.add_assoc, hbyte (14 + j) (by omega), show 14 + j = 8 + (6 + j) by omega, htail,
      bufOf_append hsha, bufOf_append_left hj]
  · rw [← htpa]
    apply bytesAt_eq
    intro j hj
    rw [Nat.add_assoc, hbyte (24 + j) (by omega), show 24 + j = 8 + (6 + (4 + (6 + j))) by omega,
      htail, bufOf_append hsha, bufOf_append hspa, bufOf_append htha]

theorem request_seen (hmy : myMac.length = 6) (ht : target.length = 4)
    (h : Delivered (arpRequest myMac target) f) : ArpSeen 1 myMac MY_IP target f :=
  Delivered.arpSeen List.length_replicate hmy hmy rfl List.length_replicate ht h

theorem reply_seen (hmy : myMac.length = 6) (hsha : sha.length = 6) (hspa : spa.length = 4)
    (h : Delivered (ethFrame sha myMac 0x0806 (arpPkt 2 myMac MY_IP sha spa)) f) :
    ArpSeen 2 myMac MY_IP spa f :=
  Delivered.arpSeen hsha hmy hmy rfl hsha hspa h

/-- A frame that `net_demo` sends says nothing false to those that get it. -/
theorem NetSent.honest (hs : NetSent c owns frame) (hmy : owns MY_IP c.mac)
    (h : Delivered frame f) : f.Honest owns := by
  have hip {mac pkt : List UInt8} (hmac : mac.length = 6)
      (h : Delivered (ethFrame mac c.mac 0x0800 pkt) f) : f.Honest owns := by
    intro harp
    have htype := h.type hmac c.mac_length
    rw [harp] at htype
    exact absurd htype (by decide)
  cases hs with
  | @request target htarget =>
    have ht : target.length = 4 := by
      rcases htarget with rfl | rfl
      · rfl
      · rfl
    intro _ _ hrep
    rw [(request_seen c.mac_length ht h).oper] at hrep
    exact absurd hrep (by decide)
  | reply g hg =>
    obtain ⟨_, _, rfl⟩ := arpMaybeReply_some hg
    have hseen := reply_seen c.mac_length (length_bytesAt ..) (length_bytesAt ..) h
    intro _ _ _
    rw [hseen.spa, hseen.sha]
    exact hmy
  | ping _ hmac => exact hip hmac h
  | query _ hmac => exact hip hmac h

theorem get16_type (hmac : mac.length = 6) (hmy : myMac.length = 6) (ty : UInt16)
    (pkt : List UInt8) : get16 (bufOf (ethFrame mac myMac ty pkt)) 12 = ty.toNat := by
  obtain ⟨h₁, h₂⟩ := bufOf_ethFrame_type hmac hmy ty pkt
  exact get16_put16 _ 12 h₁ h₂

theorem isArpReply_ip (hmac : mac.length = 6) (hmy : myMac.length = 6) (pkt : List UInt8) :
    isArpReply (ethFrame mac myMac 0x0800 pkt) = false := by
  apply decide_eq_false
  intro h
  rw [get16_type hmac hmy] at h
  exact absurd h.1 (by decide)

theorem isArpReply_arp (hmac : mac.length = 6) (hmy : myMac.length = 6) :
    isArpReply (ethFrame mac myMac 0x0806 (arpPkt oper sha spa tha tpa)) =
      decide (oper.toNat = 2) := by
  have hoper : get16 (bufOf (ethFrame mac myMac 0x0806 (arpPkt oper sha spa tha tpa))) 20 =
      oper.toNat :=
    get16_put16 _ 20 (bufOf_ethFrame hmac hmy _ 6) (bufOf_ethFrame hmac hmy _ 7)
  have htype : (0x0806 : UInt16).toNat = ETH_ARP := rfl
  rw [isArpReply, hoper, get16_type hmac hmy, htype]
  simp only [true_and]

end Arp

namespace NetDemo
variable {c : NetConf} {d : NetDemo} {fs : List (Option EthFrame)}

/-- The frames that the loops get before the demo ends. -/
def polled (c : NetConf) (d : NetDemo) : List (Option EthFrame) → List EthFrame
  | [] => []
  | f :: fs => if d.phase = .done then [] else f.toList ++ polled c (d.poll c f) fs

/-- It sends frames of its own, and no ARP reply among them. -/
def Talks (c : NetConf) (owns : List UInt8 → List UInt8 → Prop) (d d' : NetDemo) : Prop :=
  ∃ l, d'.sent = d.sent ++ l ∧ ∀ frame ∈ l, NetSent c owns frame ∧ isArpReply frame = false

theorem talks_nothing (h : d'.sent = d.sent) : Talks c owns d d' :=
  ⟨[], by rw [h, List.append_nil], fun _ hf => absurd hf List.not_mem_nil⟩

theorem Talks.trans (h : Talks c owns d d₁) (h' : Talks c owns d₁ d₂) : Talks c owns d d₂ := by
  obtain ⟨l, hl, hall⟩ := h
  obtain ⟨l', hl', hall'⟩ := h'
  refine ⟨l ++ l', by rw [hl', hl, List.append_assoc], fun frame hf => ?_⟩
  rcases List.mem_append.1 hf with hf | hf
  · exact hall frame hf
  · exact hall' frame hf

theorem talks_one (hs : d'.sent = d.sent ++ [frame]) (h : NetSent c owns frame)
    (hr : isArpReply frame = false) : Talks c owns d d' :=
  ⟨[frame], hs, fun g hg => by rw [List.mem_singleton.1 hg]; exact ⟨h, hr⟩⟩

theorem pong_talks (d : NetDemo) (c : NetConf) (ok : Bool) : Talks c owns d (d.pong c ok) :=
  talks_one rfl (.request (.inr rfl)) (isArpReply_arp List.length_replicate c.mac_length)

theorem ping_talks (d : NetDemo) (h : owns GW_IP mac ∧ mac.length = 6) :
    Talks c owns d (d.ping c mac) := by
  have hping := isArpReply_ip h.2 c.mac_length (icmpPkt GW_IP)
  rw [ping]
  split
  · exact talks_one rfl (.ping h.1 h.2) hping
  · exact .trans (talks_one rfl (.ping h.1 h.2) hping) (pong_talks _ c false)

theorem lookup_talks (d : NetDemo) (h : owns DNS_IP mac ∧ mac.length = 6) :
    Talks c owns d (d.lookup c mac) := by
  have hquery := isArpReply_ip h.2 c.mac_length
    (udpPkt DNS_IP QUERY_PORT DNS_PORT (dnsQuestion c.host))
  rw [lookup]
  split
  · exact talks_one rfl (.query h.1 h.2) hquery
  · exact talks_one rfl (.query h.1 h.2) hquery

theorem next_talks (h : d.next c f = some d') (hf : f.Honest owns) : Talks c owns d d' := by
  rw [next] at h
  split at h
  · obtain ⟨mac, hmac, rfl⟩ := Option.map_eq_some_iff.1 h
    exact ping_talks d (arpAnswer_honest hmac hf)
  · split at h
    · cases h
      exact pong_talks d c true
    · cases h
  · obtain ⟨mac, hmac, rfl⟩ := Option.map_eq_some_iff.1 h
    exact lookup_talks d (arpAnswer_honest hmac hf)
  · obtain ⟨r, _, rfl⟩ := Option.map_eq_some_iff.1 h
    exact talks_nothing rfl
  · cases h

theorem timeout_talks (d : NetDemo) (c : NetConf) : Talks c owns d (d.timeout c) := by
  rw [timeout]
  split
  · exact talks_nothing rfl
  · exact pong_talks d c false
  · exact talks_nothing rfl
  · exact talks_nothing rfl
  · exact talks_nothing rfl

theorem reply_sent (d : NetDemo) (c : NetConf) (f : Option EthFrame) :
    (d.reply c f).sent = d.sent ++ (f.bind (arpMaybeReply c.mac)).toList := by
  rw [reply]
  split
  · rename_i r hr
    rw [hr]
    rfl
  · rename_i hr
    rw [hr]
    exact (List.append_nil _).symm

/-- A poll answers a request for our address, once, and says nothing else in ARP replies. -/
theorem poll_talks (hd : d.phase ≠ .done) (hf : ∀ g, f = some g → g.Honest owns) :
    ∃ l, (d.poll c f).sent = d.sent ++ (f.bind (arpMaybeReply c.mac)).toList ++ l ∧
      ∀ frame ∈ l, NetSent c owns frame ∧ isArpReply frame = false := by
  rw [poll, if_neg hd]
  cases hn : f.bind (d.next c) with
  | some d' =>
    obtain ⟨g, rfl, hg⟩ := Option.bind_eq_some_iff.1 hn
    have hnone : arpMaybeReply c.mac g = none := by
      cases hr : arpMaybeReply c.mac g with
      | none => rfl
      | some r =>
        rw [next_of_request d c hr] at hg
        cases hg
    obtain ⟨l, hl, hall⟩ := next_talks hg (hf g rfl)
    refine ⟨l, ?_, hall⟩
    rw [Option.bind_some, hnone, Option.toList_none, List.append_nil]
    exact hl
  | none =>
    have hreply := reply_sent d c f
    dsimp only
    split
    · exact ⟨[], by rw [List.append_nil]; exact hreply, fun _ hf => absurd hf List.not_mem_nil⟩
    · obtain ⟨l, hl, hall⟩ : Talks c owns _ _ := timeout_talks (d.reply c f) c
      exact ⟨l, by rw [hl, hreply], hall⟩

theorem run_done (h : d.phase = .done) (fs : List (Option EthFrame)) : d.run c fs = d := by
  induction fs with
  | nil => rfl
  | cons f fs ih =>
    have hp : d.poll c f = d := by rw [poll, if_pos h]
    rw [run, List.foldl_cons, hp]
    exact ih

/-- Over a run the ARP replies sent are those to the requests got, in order. -/
theorem run_talks (hd : ∀ frame ∈ d.sent, NetSent c owns frame)
    (hf : ∀ f, some f ∈ fs → f.Honest owns) :
    (∀ frame ∈ (d.run c fs).sent, NetSent c owns frame) ∧
      (d.run c fs).sent.filter isArpReply =
        d.sent.filter isArpReply ++ (polled c d fs).filterMap (arpMaybeReply c.mac) := by
  induction fs generalizing d with
  | nil =>
    refine ⟨hd, ?_⟩
    rw [polled, List.filterMap_nil, List.append_nil]
    rfl
  | cons f fs ih =>
    by_cases hp : d.phase = .done
    · rw [run_done hp, polled, if_pos hp, List.filterMap_nil, List.append_nil]
      exact ⟨hd, rfl⟩
    · obtain ⟨l, hl, hall⟩ := poll_talks (f := f) hp fun g hg =>
        hf g (hg ▸ List.mem_cons_self)
      have hreply (frame : List UInt8) (hm : frame ∈ (f.bind (arpMaybeReply c.mac)).toList) :
          NetSent c owns frame ∧ isArpReply frame = true := by
        obtain ⟨g, hg, hr⟩ := Option.bind_eq_some_iff.1 (Option.mem_toList.1 hm)
        refine ⟨.reply g hr, ?_⟩
        obtain ⟨_, _, rfl⟩ := arpMaybeReply_some hr
        exact isArpReply_arp (length_bytesAt ..) c.mac_length
      have hsent : ∀ frame ∈ (d.poll c f).sent, NetSent c owns frame := by
        intro frame hm
        rw [hl, List.mem_append, List.mem_append] at hm
        rcases hm with (hm | hm) | hm
        · exact hd frame hm
        · exact (hreply frame hm).1
        · exact (hall frame hm).1
      obtain ⟨hrun, hfilter⟩ := ih hsent fun g hg => hf g (List.mem_cons_of_mem _ hg)
      refine ⟨hrun, ?_⟩
      have hquiet : l.filter isArpReply = [] := by
        rw [List.filter_eq_nil_iff]
        intro frame hm
        rw [(hall frame hm).2]
        exact Bool.false_ne_true
      have hkeep : (f.bind (arpMaybeReply c.mac)).toList.filter isArpReply =
          f.toList.filterMap (arpMaybeReply c.mac) := by
        rw [List.filter_eq_self.2 fun frame hm => (hreply frame hm).2]
        cases f with
        | none => rfl
        | some g =>
          rw [Option.bind_some, Option.toList_some, List.filterMap_cons, List.filterMap_nil]
          cases arpMaybeReply c.mac g with
          | none => rfl
          | some r => rfl
      rw [run, List.foldl_cons]
      rw [run] at hfilter
      rw [hfilter, hl, polled, if_neg hp, List.filter_append, List.filter_append, hkeep, hquiet,
        List.append_nil, List.filterMap_append, List.append_assoc]

/-- Loops still to come. -/
def rank : NetPhase → Nat
  | .gateway => 4
  | .ping => 3
  | .server => 2
  | .lookup => 1
  | .done => 0

/-- Polls still to come. -/
def left (d : NetDemo) : Nat := rank d.phase * POLL_SPINS - d.spin

/-- On to a later loop, or the end. -/
def Advances (d d' : NetDemo) : Prop :=
  d'.phase = .done ∨ d'.spin = 0 ∧ rank d'.phase < rank d.phase

theorem ping_advances (c : NetConf) (mac : List UInt8) (h : d.phase = .gateway) :
    d.Advances (d.ping c mac) := by
  rw [Advances, h, ping]
  split
  · exact .inr ⟨rfl, (by decide : 3 < 4)⟩
  · exact .inr ⟨rfl, (by decide : 2 < 4)⟩

theorem lookup_advances (c : NetConf) (mac : List UInt8) (h : d.phase = .server) :
    d.Advances (d.lookup c mac) := by
  rw [Advances, h, lookup]
  split
  · exact .inr ⟨rfl, (by decide : 1 < 2)⟩
  · exact .inl rfl

theorem next_advances (h : d.next c f = some d') : d.Advances d' := by
  rw [next] at h
  split at h
  · rename_i hp
    obtain ⟨mac, _, rfl⟩ := Option.map_eq_some_iff.1 h
    exact ping_advances c mac hp
  · rename_i hp
    split at h
    · cases h
      exact .inr ⟨rfl, hp ▸ (by decide : 2 < 3)⟩
    · cases h
  · rename_i hp
    obtain ⟨mac, _, rfl⟩ := Option.map_eq_some_iff.1 h
    exact lookup_advances c mac hp
  · obtain ⟨r, _, rfl⟩ := Option.map_eq_some_iff.1 h
    exact .inl rfl
  · cases h

theorem timeout_advances (d : NetDemo) (c : NetConf) : d.Advances (d.timeout c) := by
  rw [timeout]
  split
  · exact .inl rfl
  · rename_i hp
    exact .inr ⟨rfl, hp ▸ (by decide : 2 < 3)⟩
  · exact .inl rfl
  · exact .inl rfl
  · rename_i hp
    exact .inl hp

theorem reply_eq (d : NetDemo) (c : NetConf) (f : Option EthFrame) :
    (d.reply c f).phase = d.phase ∧ (d.reply c f).spin = d.spin := by
  rw [reply]
  split
  · exact ⟨rfl, rfl⟩
  · exact ⟨rfl, rfl⟩

theorem Advances.left (h : d.Advances d') (hs : d.spin < POLL_SPINS) :
    d'.phase = .done ∨ d'.spin < POLL_SPINS ∧ d'.left < d.left := by
  rcases h with h | ⟨hz, hr⟩
  · exact .inl h
  · refine .inr ⟨by rw [hz]; decide, ?_⟩
    rw [NetDemo.left, NetDemo.left, hz]
    rw [POLL_SPINS] at hs ⊢
    omega

theorem poll_left (hp : d.phase ≠ .done) (hs : d.spin < POLL_SPINS) (f : Option EthFrame) :
    (d.poll c f).phase = .done ∨ (d.poll c f).spin < POLL_SPINS ∧ (d.poll c f).left < d.left := by
  obtain ⟨hphase, hspin⟩ := reply_eq d c f
  rw [poll, if_neg hp]
  cases hn : f.bind (d.next c) with
  | some d' =>
    obtain ⟨g, _, hg⟩ := Option.bind_eq_some_iff.1 hn
    exact (next_advances hg).left hs
  | none =>
    dsimp only
    split
    · rename_i hlt
      refine .inr ⟨hlt, ?_⟩
      have hrank : 0 < rank d.phase := by
        cases h : d.phase with
        | done => exact absurd h hp
        | _ => decide
      rw [NetDemo.left, NetDemo.left]
      dsimp only
      rw [hphase, hspin]
      rw [POLL_SPINS] at hs ⊢
      omega
    · have hadv := (timeout_advances (d.reply c f) c).left (hspin ▸ hs)
      rw [NetDemo.left, NetDemo.left, hphase, hspin] at hadv
      exact hadv

/-- The demo ends. -/
theorem run_ends (hs : d.spin < POLL_SPINS) (hl : d.left ≤ fs.length) :
    (d.run c fs).phase = .done := by
  by_cases hp : d.phase = .done
  · rwa [run_done hp]
  · induction fs generalizing d with
    | nil =>
      have hrank : 0 < rank d.phase := by
        cases h : d.phase with
        | done => exact absurd h hp
        | _ => decide
      rw [left, List.length_nil] at hl
      rw [POLL_SPINS] at hs hl
      omega
    | cons f fs ih =>
      rw [run, List.foldl_cons]
      by_cases hd : (d.poll c f).phase = .done
      · have hrun := run_done (c := c) hd fs
        rw [run] at hrun
        rwa [hrun]
      · obtain ⟨hs', hlt⟩ := (poll_left hp hs f).resolve_left hd
        rw [List.length_cons] at hl
        exact ih hs' (by omega) hd

/-- On a network where ARP replies tell the truth, and whatever else is on it and however frames
are lost, doubled and late, `net_demo` talks to the owners of the addresses it looks for, answers
each request for our address, truthfully and once, and ends. -/
theorem demo_honest (c : NetConf) (owns : List UInt8 → List UInt8 → Prop) (hmy : owns MY_IP c.mac)
    (fs : List (Option EthFrame)) (hf : ∀ f, some f ∈ fs → f.Honest owns) :
    (∀ frame ∈ ((start c).run c fs).sent,
        NetSent c owns frame ∧ ∀ f, Delivered frame f → f.Honest owns) ∧
      ((start c).run c fs).sent.filter isArpReply =
        (polled c (start c) fs).filterMap (arpMaybeReply c.mac) ∧
      (4 * POLL_SPINS ≤ fs.length → ((start c).run c fs).phase = .done) := by
  have hstart : ∀ frame ∈ (start c).sent, NetSent c owns frame := by
    intro frame hm
    rw [List.mem_singleton.1 hm]
    exact .request (.inl rfl)
  obtain ⟨hsent, hreplies⟩ := run_talks hstart hf
  refine ⟨fun frame hm => ⟨hsent frame hm, fun f h => (hsent frame hm).honest hmy h⟩, ?_,
    fun hl => run_ends (show 0 < POLL_SPINS by decide) hl⟩
  have hnone : (start c).sent.filter isArpReply = [] := by
    rw [start, List.filter_cons_of_neg, List.filter_nil]
    rw [arpRequest, isArpReply_arp List.length_replicate c.mac_length]
    decide
  rw [hreplies, hnone, List.nil_append]

end NetDemo

theorem exampleHost_noNul : (0 : UInt8) ∉ [101, 120, 97, 109, 112, 108, 101, 46, 99, 111, 109] := by
  decide

theorem exampleMac_length : [(0x52 : UInt8), 0x54, 0, 0x12, 0x34, 0x56].length = 6 := rfl

/-- The demo as it is called at boot, for example.com. -/
def exampleConf : NetConf where
  mac := [0x52, 0x54, 0, 0x12, 0x34, 0x56]
  mac_length := exampleMac_length
  host := ⟨[101, 120, 97, 109, 112, 108, 101, 46, 99, 111, 109], exampleHost_noNul⟩
  tx _ := true
  buf _ := 0

def gatewayMac : List UInt8 := [0x52, 0x55, 10, 0, 2, 2]

/-- The gateway asks for our address, in a frame padded to 60 bytes. -/
def gatewayAsks : EthFrame :=
  ⟨60, bufOf (ethFrame (List.replicate 6 0xff) gatewayMac 0x0806
    (arpPkt 1 gatewayMac GW_IP (List.replicate 6 0) MY_IP))⟩

/-- The gateway answers. -/
def gatewayAnswers : EthFrame :=
  ⟨42, bufOf (ethFrame exampleConf.mac gatewayMac 0x0806
    (arpPkt 2 gatewayMac GW_IP exampleConf.mac MY_IP))⟩

def exampleOwns (ip mac : List UInt8) : Prop :=
  ip = MY_IP ∧ mac = exampleConf.mac ∨ ip = GW_IP ∧ mac = gatewayMac

theorem demo_honest_asked :
    ((NetDemo.start exampleConf).run exampleConf
        [none, some gatewayAsks, some gatewayAnswers]).sent.filter isArpReply =
      [ethFrame gatewayMac exampleConf.mac 0x0806
        (arpPkt 2 exampleConf.mac MY_IP gatewayMac GW_IP)] := by
  have hhonest : ∀ f, some f ∈ [none, some gatewayAsks, some gatewayAnswers] →
      f.Honest exampleOwns := by
    intro f hf
    simp only [List.mem_cons, List.not_mem_nil, or_false, reduceCtorEq, false_or,
      Option.some.injEq] at hf
    rcases hf with rfl | rfl
    · intro _ _ hrep
      exact absurd hrep (by decide)
    · intro _ _ _
      exact .inr ⟨rfl, rfl⟩
  have h := NetDemo.demo_honest exampleConf exampleOwns (.inl ⟨rfl, rfl⟩)
    [none, some gatewayAsks, some gatewayAnswers] hhonest
  exact h.2.1.trans rfl

/-- A name as it is written, its labels with dots between them. -/
def hostName : List Label → List UInt8
  | [] => []
  | [l] => l.text
  | l :: l' :: ls => l.text ++ 46 :: hostName (l' :: ls)

/-- A query with one question. -/
structure Question where
  id : UInt16
  flags : UInt16
  name : List Label
  qtype : UInt16
  qclass : UInt16

def Question.encode (q : Question) : List UInt8 :=
  put16 q.id ++ put16 q.flags ++ put16 1 ++ put16 0 ++ put16 0 ++ put16 0 ++
    (encodeLabels q.name ++ [0] ++ (put16 q.qtype ++ put16 q.qclass))

/-- The recursive query for the IPv4 addresses of a name. -/
def addressQuestion (ls : List Label) : Question := ⟨0x1234, 0x0100, ls, 1, 1⟩

theorem qname_label (l : Label) (hdot : 46 ∉ l.text)
    (hr : rest.head? = none ∨ rest.head? = some 46) :
    qname (l.text ++ rest) = l.encode ++ qname rest.tail := by
  have hpos := l.pos
  have hlabel : (l.text ++ rest).takeWhile (· ≠ 46) = l.text := by
    have hall : ∀ a ∈ l.text, decide (a ≠ 46) = true := by
      intro a ha
      exact decide_eq_true (ne_of_mem_of_not_mem ha hdot)
    rw [List.takeWhile_append_of_pos hall]
    have hrest : rest.takeWhile (· ≠ 46) = [] := by
      cases rest with
      | nil => rfl
      | cons a rest =>
        have ha : a = 46 := Option.some.inj (hr.resolve_left fun h => Option.some_ne_none _ h)
        rw [List.takeWhile_cons, ha]
        rfl
    rw [hrest, List.append_nil]
  cases h : l.text ++ rest with
  | nil =>
    have hlen := congrArg List.length h
    rw [List.length_append, List.length_nil] at hlen
    omega
  | cons a as =>
    rw [h] at hlabel
    rw [qname, hlabel, ← h, List.drop_left, Label.encode, List.cons_append]

/-- The loop of `dns_query` makes the labels of the name. -/
theorem qname_hostName (ls : List Label) (hdot : ∀ l ∈ ls, 46 ∉ l.text) :
    qname (hostName ls) = encodeLabels ls := by
  have hnil : qname [] = [] := by rw [qname]
  induction ls with
  | nil => exact hnil
  | cons l ls ih =>
    have hl := hdot l List.mem_cons_self
    have hls := ih fun l' h' => hdot l' (List.mem_cons_of_mem _ h')
    cases ls with
    | nil =>
      have hlast := qname_label l hl (.inl (List.head?_nil))
      rw [List.append_nil, List.tail_nil, hnil, List.append_nil] at hlast
      rw [hostName, hlast, encodeLabels, List.flatMap_singleton]
    | cons l' ls =>
      rw [hostName, qname_label l hl (.inr List.head?_cons), List.tail_cons, hls]
      rfl

theorem length_hostName (ls : List Label) :
    (encodeLabels ls).length ≤ (hostName ls).length + 1 := by
  induction ls with
  | nil => exact Nat.zero_le _
  | cons l ls ih =>
    rw [length_encodeLabels_cons]
    cases ls with
    | nil => exact Nat.le_refl _
    | cons l' ls =>
      rw [hostName, List.length_append, List.length_cons]
      omega

/-- The query fits its buffer, and is the question for the name. -/
theorem dnsQuestion_hostName {host : CStr} (hname : host.bytes = hostName ls)
    (hdot : ∀ l ∈ ls, 46 ∉ l.text) (hlen : host.bytes.length ≤ 238) :
    dnsQuestion host = (addressQuestion ls).encode ∧ (dnsQuestion host).length ≤ 256 := by
  have heq : dnsQuestion host = (addressQuestion ls).encode := by
    rw [dnsQuestion, hname, qname_hostName ls hdot]
    rfl
  refine ⟨heq, ?_⟩
  have hle := length_hostName ls
  rw [hname] at hlen
  rw [heq, Question.encode]
  simp only [List.length_append, put16, List.length_cons, List.length_nil, addressQuestion]
  omega

namespace NetDemo
variable {c : NetConf} {d : NetDemo} {fs : List (Option EthFrame)}

/-- What a loop may get before the frame that it waits for. -/
structure Wait (c : NetConf) (p : NetPhase) (fs : List (Option EthFrame)) : Prop where
  short : fs.length < POLL_SPINS
  other : ∀ f, some f ∈ fs → ∀ d : NetDemo, d.phase = p → d.next c f = none

theorem poll_other (hp : d.phase ≠ .done) (hn : f.bind (d.next c) = none)
    (hs : d.spin + 1 < POLL_SPINS) :
    ∃ l, d.poll c f = { d with spin := d.spin + 1, sent := d.sent ++ l } := by
  have hreply : ∃ l, d.reply c f = { d with sent := d.sent ++ l } := by
    rw [reply]
    split
    · exact ⟨_, rfl⟩
    · exact ⟨[], by rw [List.append_nil]⟩
  obtain ⟨l, hl⟩ := hreply
  refine ⟨l, ?_⟩
  rw [poll, if_neg hp, hn]
  dsimp only
  rw [hl, if_pos hs]

theorem run_wait (hp : d.phase ≠ .done) (hs : d.spin + fs.length < POLL_SPINS)
    (ho : ∀ f, some f ∈ fs → ∀ d' : NetDemo, d'.phase = d.phase → d'.next c f = none) :
    ∃ l, d.run c fs = { d with spin := d.spin + fs.length, sent := d.sent ++ l } := by
  induction fs generalizing d with
  | nil => exact ⟨[], by rw [List.append_nil]; rfl⟩
  | cons f fs ih =>
    rw [List.length_cons] at hs
    have hn : f.bind (d.next c) = none := by
      cases f with
      | none => rfl
      | some g => exact ho g List.mem_cons_self d rfl
    obtain ⟨l, hl⟩ := poll_other hp hn (by omega)
    obtain ⟨l', hl'⟩ := @ih { d with spin := d.spin + 1, sent := d.sent ++ l } hp
      (by dsimp only; omega) fun g hg => ho g (List.mem_cons_of_mem _ hg)
    refine ⟨l ++ l', ?_⟩
    rw [run, List.foldl_cons, hl]
    rw [run] at hl'
    rw [hl']
    dsimp only
    rw [List.length_cons, List.append_assoc, Nat.add_right_comm, Nat.add_assoc]

/-- A loop that gets its frame in time. -/
theorem run_got {after : List (List UInt8) → NetDemo} (hp : d.phase ≠ .done) (hs : d.spin = 0)
    (hw : Wait c d.phase fs)
    (hn : ∀ l, ({ d with spin := fs.length, sent := d.sent ++ l } : NetDemo).next c f =
      some (after l)) :
    ∃ l, d.run c (fs ++ [some f]) = after l := by
  obtain ⟨l, hl⟩ := run_wait hp (by rw [hs, Nat.zero_add]; exact hw.short) hw.other
  refine ⟨l, ?_⟩
  rw [run] at hl ⊢
  rw [List.foldl_append, hl, hs, Nat.zero_add, List.foldl_cons, List.foldl_nil, poll, if_neg hp,
    Option.bind_some, hn]

/-- The frames of a lookup that goes well: each loop gets, after others, the one that it waits for,
from the gateway at `gw` and the name server at `srv`, which replies `m`. -/
structure Exchange (c : NetConf) (gw srv : List UInt8) (m : Reply) where
  before : NetPhase → List (Option EthFrame)
  wait : ∀ p, Wait c p (before p)
  gateway : EthFrame
  echo : EthFrame
  server : EthFrame
  answer : EthFrame
  ck : UInt16
  gateway_is : Delivered (ethFrame c.mac gw 0x0806 (arpPkt 2 gw GW_IP c.mac MY_IP)) gateway
  echo_is : icmpEcho GW_IP echo = true
  server_is : Delivered (ethFrame c.mac srv 0x0806 (arpPkt 2 srv DNS_IP c.mac MY_IP)) server
  answer_is : IpSeen IP_UDP (udpFields DNS_PORT QUERY_PORT m.encode ck) answer
  answer_fits : answer.len ≤ BUFSZ

def Exchange.frames (x : Exchange c gw srv m) : List (Option EthFrame) :=
  (x.before .gateway ++ [some x.gateway]) ++ ((x.before .ping ++ [some x.echo]) ++
    ((x.before .server ++ [some x.server]) ++ (x.before .lookup ++ [some x.answer])))

theorem arpAnswer_seen (h : ArpSeen 2 sha target tpa f) : arpAnswer target f = some sha := by
  have h2 : (2 : UInt16).toNat = 2 := rfl
  rw [arpAnswer, if_pos ⟨h.type, h.len⟩, if_pos ⟨h.oper.trans h2, h.spa⟩, h.sha]

theorem run_append (d : NetDemo) (fs gs : List (Option EthFrame)) :
    d.run c (fs ++ gs) = (d.run c fs).run c gs := by
  rw [run, run, run, List.foldl_append]

theorem Exchange.run_frames (x : Exchange c gw srv m) (d : NetDemo) :
    d.run c x.frames = (((d.run c (x.before .gateway ++ [some x.gateway])).run c
      (x.before .ping ++ [some x.echo])).run c (x.before .server ++ [some x.server])).run c
        (x.before .lookup ++ [some x.answer]) := by
  rw [frames, run_append, run_append, run_append]

/-- A reply in the buffer of `dns_query`, whatever was in it before. -/
theorem dnsReply_buf (c : NetConf) (m : Reply)
    (hunm : ∀ rr ∈ upToA m.answers, rr.name.Unmixed) :
    dnsReply (replyBuf c m.encode) m.encode.length = firstA m.answers := by
  apply dnsReply_firstA m hunm
  intro i hi
  rw [Nat.zero_add, replyBuf, bufOf, List.getD_eq_getElem _ _ hi, List.getD_eq_getElem _ _ hi]

theorem ping_ok (d : NetDemo) (htx : ∀ n, c.tx n = true) (mac : List UInt8) :
    d.ping c mac = ⟨.ping, 0, d.sent ++ [ethFrame mac c.mac 0x0800 (icmpPkt GW_IP)],
      d.out ++ pingText mac⟩ := by
  rw [ping, htx, if_pos rfl]
  rfl

theorem lookup_ok (d : NetDemo) (htx : ∀ n, c.tx n = true) (mac : List UInt8) :
    d.lookup c mac = ⟨.lookup, 0, d.sent ++ [ethFrame mac c.mac 0x0800
      (udpPkt DNS_IP QUERY_PORT DNS_PORT (dnsQuestion c.host))], d.out ++ lookupText c.host⟩ := by
  rw [lookup, htx, if_pos rfl]
  rfl

section Loops
variable {gw srv : List UInt8} {m : Reply} (x : Exchange c gw srv m)

theorem Exchange.run_gateway (htx : ∀ n, c.tx n = true) (hgw : gw.length = 6)
    (hp : d.phase = .gateway) (hz : d.spin = 0) :
    ∃ l, d.run c (x.before .gateway ++ [some x.gateway]) =
      ⟨.ping, 0, d.sent ++ l ++ [ethFrame gw c.mac 0x0800 (icmpPkt GW_IP)],
        d.out ++ pingText gw⟩ := by
  have hg := arpAnswer_seen (x.gateway_is.arpSeen c.mac_length hgw hgw rfl c.mac_length rfl)
  apply run_got (by rw [hp]; decide) hz (hp ▸ x.wait .gateway)
  intro l
  simp only [next, hp]
  rw [hg, Option.map_some, ping_ok _ htx]

theorem Exchange.run_ping (hp : d.phase = .ping) (hz : d.spin = 0) :
    ∃ l, d.run c (x.before .ping ++ [some x.echo]) =
      ⟨.server, 0, d.sent ++ l ++ [arpRequest c.mac DNS_IP], d.out ++ [.puts "reply\n"]⟩ := by
  apply run_got (by rw [hp]; decide) hz (hp ▸ x.wait .ping)
  intro l
  simp only [next, hp]
  rw [x.echo_is, if_pos rfl]
  rfl

theorem Exchange.run_server (htx : ∀ n, c.tx n = true) (hsrv : srv.length = 6)
    (hp : d.phase = .server) (hz : d.spin = 0) :
    ∃ l, d.run c (x.before .server ++ [some x.server]) =
      ⟨.lookup, 0, d.sent ++ l ++ [ethFrame srv c.mac 0x0800
        (udpPkt DNS_IP QUERY_PORT DNS_PORT (dnsQuestion c.host))],
        d.out ++ lookupText c.host⟩ := by
  have hs := arpAnswer_seen (x.server_is.arpSeen c.mac_length hsrv hsrv rfl c.mac_length rfl)
  apply run_got (by rw [hp]; decide) hz (hp ▸ x.wait .server)
  intro l
  simp only [next, hp]
  rw [hs, Option.map_some, lookup_ok _ htx]

theorem Exchange.run_lookup (hunm : ∀ rr ∈ upToA m.answers, rr.name.Unmixed)
    (hp : d.phase = .lookup) (hz : d.spin = 0) :
    ∃ l, d.run c (x.before .lookup ++ [some x.answer]) =
      ⟨.done, (x.before .lookup).length, d.sent ++ l,
        d.out ++ answerText (firstA m.answers) ++ [upText]⟩ := by
  have hudp : udpRx QUERY_PORT.toNat BUFSZ x.answer = some m.encode := by
    refine udpRx_seen x.answer_is x.answer_fits ?_
    have h := x.answer_is.len
    rw [length_udpFields] at h
    exact Nat.le_trans (by omega) x.answer_fits
  apply run_got (by rw [hp]; decide) hz (hp ▸ x.wait .lookup)
  intro l
  simp only [next, hp]
  rw [hudp, Option.map_some, dnsReply_buf c m hunm]
  rfl

/-- The run of an exchange, loop by loop. -/
theorem Exchange.run_all (htx : ∀ n, c.tx n = true) (hgw : gw.length = 6) (hsrv : srv.length = 6)
    (hunm : ∀ rr ∈ upToA m.answers, rr.name.Unmixed) :
    ∃ l l', (start c).run c x.frames = ⟨.done, (x.before .lookup).length,
      l ++ [ethFrame srv c.mac 0x0800 (udpPkt DNS_IP QUERY_PORT DNS_PORT (dnsQuestion c.host))] ++ l',
      (start c).out ++ pingText gw ++ [.puts "reply\n"] ++ lookupText c.host ++
        answerText (firstA m.answers) ++ [upText]⟩ := by
  obtain ⟨l₁, h₁⟩ := x.run_gateway htx hgw (d := start c) rfl rfl
  obtain ⟨l₂, h₂⟩ := x.run_ping (congrArg phase h₁) (congrArg spin h₁)
  obtain ⟨l₃, h₃⟩ := x.run_server htx hsrv (congrArg phase h₂) (congrArg spin h₂)
  obtain ⟨l₄, h₄⟩ := x.run_lookup hunm (congrArg phase h₃) (congrArg spin h₃)
  have hrun := (x.run_frames (start c)).trans h₄
  rw [h₃, h₂, h₁] at hrun
  exact ⟨_, l₄, hrun⟩

end Loops

/-- A name is looked up across the network: the server gets the question for the labels of the
name, and the demo prints the first address of its reply, whatever comes between. -/
theorem demo_resolves (c : NetConf) {ls : List Label} (hname : c.host.bytes = hostName ls)
    (hdot : ∀ l ∈ ls, 46 ∉ l.text) (hlen : c.host.bytes.length ≤ 238)
    (htx : ∀ n, c.tx n = true) (hgw : gw.length = 6) (hsrv : srv.length = 6) {m : Reply}
    (hunm : ∀ rr ∈ upToA m.answers, rr.name.Unmixed) (x : Exchange c gw srv m) :
    let d := (start c).run c x.frames
    d.phase = .done ∧
      d.out = (start c).out ++ pingText gw ++ [.puts "reply\n"] ++ lookupText c.host ++
        answerText (firstA m.answers) ++ [upText] ∧
      ∃ query ∈ d.sent, ∀ f, Delivered query f →
        udpRx DNS_PORT.toNat BUFSZ f = some (addressQuestion ls).encode := by
  obtain ⟨hquestion, hfits⟩ := dnsQuestion_hostName hname hdot hlen
  obtain ⟨l, l', hrun⟩ := x.run_all htx hgw hsrv hunm
  intro d
  have hd : d = _ := hrun
  rw [hd]
  refine ⟨rfl, rfl, _, List.mem_append_left _ (List.mem_append_right _ (List.mem_singleton_self _)),
    fun f hf => ?_⟩
  rw [← hquestion]
  have hseen := Delivered.seen hsrv c.mac_length rfl length_udpFields hf
  exact udpRx_seen hseen hf.fits (Nat.le_trans hfits (by decide))

end NetDemo

theorem exampleText_length : 0 < [(101 : UInt8), 120, 97, 109, 112, 108, 101].length ∧
    [(101 : UInt8), 120, 97, 109, 112, 108, 101].length < 64 := by
  decide

theorem comText_length :
    0 < [(99 : UInt8), 111, 109].length ∧ [(99 : UInt8), 111, 109].length < 64 := by
  decide

/-- example.com -/
def exampleName : List Label :=
  [⟨[101, 120, 97, 109, 112, 108, 101], exampleText_length.1, exampleText_length.2⟩,
    ⟨[99, 111, 109], comText_length.1, comText_length.2⟩]

theorem exampleAddress_short : [(93 : UInt8), 184, 215, 14].length < 65536 := by
  decide

theorem exampleTarget_lt : 12 < 16384 := by
  decide

/-- The address of example.com, which the record names by a pointer to the question. -/
def exampleRecord : Record :=
  ⟨⟨[], .ptr ⟨12, exampleTarget_lt⟩⟩, 1, 1, 60, [93, 184, 215, 14], exampleAddress_short⟩

theorem exampleAnswers_few : [exampleRecord].length < 65536 := by
  decide

def exampleReply : Reply := ⟨0x1234, 0x8180, 0, 0, exampleName, 1, 1, [exampleRecord], [],
  exampleAnswers_few⟩

def serverMac : List UInt8 := [0x52, 0x55, 10, 0, 2, 3]

/-- An IP packet from `src` to the demo, in its frame. -/
def exampleFrame (mac : List UInt8) (proto : UInt8) (src seg : List UInt8) : List UInt8 :=
  (exampleConf.mac ++ mac ++ put16 0x0800 ++ [0x45, 0] ++ put16 (20 + seg.length).toUInt16 ++
    put16 0 ++ put16 0 ++ [64, proto] ++ put16 0 ++ src ++ MY_IP) ++ seg

def exampleEcho : EthFrame :=
  ⟨60, bufOf (exampleFrame gatewayMac IP_ICMP GW_IP [0, 0, 0, 0, 0xab, 0xcd, 0, 1])⟩

def serverAnswers : EthFrame :=
  ⟨42, bufOf (ethFrame exampleConf.mac serverMac 0x0806
    (arpPkt 2 serverMac DNS_IP exampleConf.mac MY_IP))⟩

def exampleDatagram : List UInt8 := udpFields DNS_PORT QUERY_PORT exampleReply.encode 0

def serverReplies : EthFrame :=
  ⟨34 + exampleDatagram.length, bufOf (exampleFrame serverMac IP_UDP DNS_IP exampleDatagram)⟩

theorem wait_none (p : NetPhase) : NetDemo.Wait exampleConf p [] :=
  ⟨show 0 < POLL_SPINS by decide, fun _ hf => absurd hf List.not_mem_nil⟩

theorem delivered_bufOf {frame : List UInt8} (hn : frame.length = n) (hfits : n ≤ BUFSZ) :
    Delivered frame ⟨n, bufOf frame⟩ :=
  ⟨Nat.le_of_eq hn, hfits, fun _ _ => rfl⟩

theorem serverReplies_seen : IpSeen IP_UDP exampleDatagram serverReplies where
  len := Nat.le_refl _
  type := rfl
  version := rfl
  proto := rfl
  iplen := rfl
  bytes i _ := bufOf_append rfl exampleDatagram i

theorem exampleEcho_is : icmpEcho GW_IP exampleEcho = true := by
  decide

theorem gatewayAnswers_is : Delivered (ethFrame exampleConf.mac gatewayMac 0x0806
    (arpPkt 2 gatewayMac GW_IP exampleConf.mac MY_IP)) gatewayAnswers :=
  delivered_bufOf rfl (by decide)

theorem serverAnswers_is : Delivered (ethFrame exampleConf.mac serverMac 0x0806
    (arpPkt 2 serverMac DNS_IP exampleConf.mac MY_IP)) serverAnswers :=
  delivered_bufOf rfl (by decide)

theorem serverReplies_fits : serverReplies.len ≤ BUFSZ := by
  decide

def exampleExchange : NetDemo.Exchange exampleConf gatewayMac serverMac exampleReply where
  before _ := []
  wait := wait_none
  gateway := gatewayAnswers
  echo := exampleEcho
  server := serverAnswers
  answer := serverReplies
  ck := 0
  gateway_is := gatewayAnswers_is
  echo_is := exampleEcho_is
  server_is := serverAnswers_is
  answer_is := serverReplies_seen
  answer_fits := serverReplies_fits

theorem demo_resolves_example :
    ((NetDemo.start exampleConf).run exampleConf exampleExchange.frames).out =
      (NetDemo.start exampleConf).out ++ pingText gatewayMac ++ [.puts "reply\n"] ++
        lookupText exampleConf.host ++ answerText (some [93, 184, 215, 14]) ++ [upText] := by
  have hdot : ∀ l ∈ exampleName, 46 ∉ l.text := by decide
  have hunm : ∀ rr ∈ upToA exampleReply.answers, rr.name.Unmixed := by
    intro rr hrr
    have hall : upToA exampleReply.answers = [exampleRecord] := rfl
    rw [hall, List.mem_singleton] at hrr
    rw [hrr]
    exact .inr rfl
  have hname : exampleConf.host.bytes = hostName exampleName := rfl
  exact (NetDemo.demo_resolves exampleConf hname hdot (by decide)
    (fun _ => rfl) rfl rfl hunm exampleExchange).2.1

end KernelHobby
