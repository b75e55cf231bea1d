import KernelHobby.Kalloc
import KernelHobby.TcpIsolation
import KernelHobby.NetReads

namespace KernelHobby
set_option autoImplicit true

/-- The bytes of `pkt` that `tcp_send` writes for the IP and TCP headers, in its order. -/
def headerWrites : List Nat :=
  [0, 1] ++ span 2 2 ++ span 4 2 ++ span 6 2 ++ [8, 9] ++ span 10 2 ++ span 12 4 ++ span 16 4 ++
    span 10 2 ++ span 20 2 ++ span 22 2 ++ span 24 4 ++ span 28 4 ++ [32, 33] ++ span 34 2 ++
    span 36 2 ++ span 38 2

/-- And then those of the payload and of the checksum. -/
def tcpSendWrites (dlen : Nat) : List Nat := headerWrites ++ span 40 dlen ++ span 36 2

/-- The bytes of `txframe` that `eth_tx` writes. -/
def ethTxWrites (plen : Nat) : List Nat :=
  span 0 NETHDR ++ span NETHDR 6 ++ span (NETHDR + 6) 6 ++ span (NETHDR + 12) 2 ++
    span (NETHDR + 14) plen

theorem within_tcpSend (dlen : Nat) : Within BUFSZ (tcpSendWrites dlen) ↔ 40 + dlen ≤ BUFSZ := by
  have hhead : Within BUFSZ headerWrites := by decide
  have hck : Within BUFSZ (span 36 2) := by decide
  rw [tcpSendWrites, within_append, within_append, within_span, and_iff_left hck, and_iff_right hhead]
  have hroom : 40 < BUFSZ := by decide
  omega

theorem within_ethTx (plen : Nat) :
    Within PGSIZE (ethTxWrites plen) ↔ (0 < plen → 26 + plen ≤ PGSIZE) := by
  have hhead : Within PGSIZE (span 0 NETHDR ++ span NETHDR 6 ++ span (NETHDR + 6) 6 ++
      span (NETHDR + 12) 2) := by decide
  rw [ethTxWrites, within_append, and_iff_right hhead, within_span]
  rfl

namespace Sent

/-- A call of `tcp_send` writes into `pkt` only, and its `eth_tx` into the page of `txframe`. -/
def Inside (x : Sent) : Prop :=
  Within BUFSZ (tcpSendWrites x.data.length) ∧ Within PGSIZE (ethTxWrites (40 + x.data.length))

theorem inside_iff (x : Sent) : x.Inside ↔ 40 + x.data.length ≤ BUFSZ := by
  have hpage : BUFSZ + 66 ≤ PGSIZE := by decide
  rw [Inside, within_tcpSend, within_ethTx]
  omega

end Sent

namespace Demo

/-- Every call of `tcp_send` so far stayed in its buffers. -/
def AllInside (d : Demo) : Prop := ∀ x ∈ d.sent, x.Inside

/-- A segment that comes while the demo waits for data has room in a packet of ours. -/
def EchoFits (d : Demo) (s : Segment) : Prop :=
  ∀ c tries, d.phase = .data c tries → 40 + s.len ≤ BUFSZ

def PollFits (d : Demo) (f : Option EthFrame) : Prop :=
  ∀ s, f.bind (tcpSegment DEMO_PORT) = some s → d.EchoFits s

/-- The same of every frame of a run. -/
def RunFits (d : Demo) : List (Option EthFrame) → Prop
  | [] => True
  | f :: fs => d.PollFits f ∧ (d.poll f).RunFits fs

theorem send_allInside {seq ack : UInt32} :
    (send d c seq ack flags data).AllInside ↔ d.AllInside ∧ 40 + data.length ≤ BUFSZ := by
  rw [AllInside, send_sent, List.forall_mem_append, List.forall_mem_singleton,
    Sent.inside_iff]
  rfl

theorem send_nil_allInside {seq ack : UInt32} :
    (send d c seq ack flags []).AllInside ↔ d.AllInside := by
  rw [send_allInside]
  exact and_iff_left (by decide)

theorem finish_allInside : (finish d c).AllInside ↔ d.AllInside := send_nil_allInside

theorem echoFits_of_ne {d : Demo} (h : ∀ c tries, d.phase ≠ .data c tries) (s : Segment) :
    d.EchoFits s := by
  intro c tries hdata
  exact absurd hdata (h c tries)

theorem recv_allInside (d : Demo) (s : Segment) :
    (d.recv s).AllInside ↔ d.AllInside ∧ d.EchoFits s := by
  cases hp : d.phase with
  | listen =>
    have hfits : d.EchoFits s := by
      apply echoFits_of_ne
      intro c tries
      rw [hp]
      exact Phase.noConfusion
    rw [and_iff_left hfits, d.recv_listen hp]
    split
    · exact send_nil_allInside
    · rfl
  | data c tries =>
    have hfits : d.EchoFits s ↔ 40 + s.len ≤ BUFSZ := by
      refine ⟨fun h => h c tries hp, fun h _ _ _ => h⟩
    rw [hfits, d.recv_data hp]
    by_cases hlen : 0 < s.len
    · rw [if_pos hlen, finish_allInside, send_allInside]
      rfl
    · have hroom : 40 + s.len ≤ BUFSZ := by
        rw [Nat.eq_zero_of_not_pos hlen]
        decide
      rw [if_neg hlen, and_iff_left hroom]
      split
      · exact finish_allInside
      · split
        · rfl
        · exact finish_allInside
  | close c =>
    have hfits : d.EchoFits s := by
      apply echoFits_of_ne
      intro c tries
      rw [hp]
      exact Phase.noConfusion
    rw [and_iff_left hfits, d.recv_close hp]
    split
    · exact send_nil_allInside
    · rfl
  | done =>
    have hfits : d.EchoFits s := by
      apply echoFits_of_ne
      intro c tries
      rw [hp]
      exact Phase.noConfusion
    rw [and_iff_left hfits, recv, hp]

theorem poll_allInside (d : Demo) (f : Option EthFrame) :
    (d.poll f).AllInside ↔ d.AllInside ∧ d.PollFits f := by
  rw [poll, PollFits]
  cases hs : f.bind (tcpSegment DEMO_PORT) with
  | some s =>
    have hone : (∀ t, some s = some t → d.EchoFits t) ↔ d.EchoFits s := by
      refine ⟨fun h => h s rfl, fun h t ht => ?_⟩
      cases ht
      exact h
    rw [hone]
    exact recv_allInside d s
  | none =>
    have hnone : ∀ t, (none : Option Segment) = some t → d.EchoFits t := by
      intro t ht
      cases ht
    rw [and_iff_left hnone]
    dsimp only
    split
    · rfl
    · rfl

theorem run_allInside (d : Demo) (fs : List (Option EthFrame)) :
    (d.run fs).AllInside ↔ d.AllInside ∧ d.RunFits fs := by
  induction fs generalizing d with
  | nil => exact (and_iff_left trivial).symm
  | cons f fs ih =>
    have hstep : d.run (f :: fs) = (d.poll f).run fs := rfl
    rw [hstep, ih, poll_allInside, and_assoc]
    rfl

end Demo

/-- The echo of the demo stays in its buffers when, and only when, no segment that comes while
it waits for data is too long for a packet. -/
theorem echo_inside_iff (fs : List (Option EthFrame)) :
    (∀ x ∈ (Demo.init.run fs).sent, x.Inside) ↔ Demo.init.RunFits fs := by
  have hinit : Demo.init.AllInside := by
    intro x hx
    cases hx
  have h := Demo.init.run_allInside fs
  rw [and_iff_right hinit] at h
  exact h

/-- A frame for the demo: its IP total length, its flags, and zeros for what follows. -/
def demoFrame (lenHi lenLo flags : UInt8) : EthFrame where
  len := 60
  fr := bufOf [0, 0, 0, 0, 0, 0, 0, 0, 0, 0, 0, 0, 8, 0, 0x45, 0, lenHi, lenLo, 0, 0, 0, 0, 64, 6,
    0, 0, 10, 0, 2, 2, 10, 0, 2, 15, 0, 80, 0x15, 0xdf, 0, 0, 0, 7, 0, 0, 0, 0, 0x50, flags]

theorem tcpSegment_len (h : tcpSegment wantPort f = some s) : s.len = tcpDataLen f.fr := by
  rw [tcpSegment] at h
  split at h
  · cases h
  · split at h
    · cases h
    · dsimp only at h
      split at h
      · cases h
      · cases h
        exact length_bytesAt _ _ _

/-- A SYN, and then a segment of 2048 bytes: more than `pkt` has after its headers. -/
theorem echo_overflow :
    ¬ ∀ x ∈ (Demo.init.run [some (demoFrame 0 40 TH_SYN), some (demoFrame 8 40 TH_ACK)]).sent,
      x.Inside := by
  intro h
  obtain ⟨_, _, hfits, _⟩ := (Demo.run_allInside _ _).1 h
  have hphase : (Demo.init.poll (some (demoFrame 0 40 TH_SYN))).phase =
      .data ⟨[0, 0, 0, 0, 0, 0], [10, 0, 2, 2], 80, 20001, 8⟩ 0 := rfl
  have hseg : (tcpSegment DEMO_PORT (demoFrame 8 40 TH_ACK)).isSome = true := by decide
  obtain ⟨s, hs⟩ := Option.isSome_iff_exists.1 hseg
  have hbind : (some (demoFrame 8 40 TH_ACK)).bind (tcpSegment DEMO_PORT) = some s := by
    rw [Option.bind_some, hs]
  have hlen := hfits s hbind _ _ hphase
  rw [tcpSegment_len hs] at hlen
  exact absurd hlen (by decide)

end KernelHobby
