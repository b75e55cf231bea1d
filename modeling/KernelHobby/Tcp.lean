import KernelHobby.NetRx

namespace KernelHobby
set_option autoImplicit true

def ETH_ARP : Nat := 0x0806
def ETH_IP : Nat := 0x0800
def IP_TCP : UInt8 := 6
def TH_FIN : UInt8 := 0x01
def TH_SYN : UInt8 := 0x02
def TH_PSH : UInt8 := 0x08
def TH_ACK : UInt8 := 0x10

def MY_IP : List UInt8 := [10, 0, 2, 15]

/-- The port of the demo. -/
def DEMO_PORT : Nat := 5599

/-- The polls of one `tcp_recv`, and the receives that wait for data. -/
def RECV_SPINS : Nat := 800000000
def DATA_TRIES : Nat := 12

/-- A received frame: its length, and the buffer `fr` it is in. -/
structure EthFrame where
  len : Nat
  fr : Nat → UInt8

/-- `get16` and `get32`: network byte order. -/
def get16 (p : Nat → UInt8) (i : Nat) : Nat := (p i).toNat * 256 + (p (i + 1)).toNat

def get32 (p : Nat → UInt8) (i : Nat) : UInt32 :=
  ((p i).toNat * 256 ^ 3 + (p (i + 1)).toNat * 256 ^ 2 + (p (i + 2)).toNat * 256 +
    (p (i + 3)).toNat).toUInt32

def bytesAt (p : Nat → UInt8) (i n : Nat) : List UInt8 := (List.range n).map fun j => p (i + j)

/-- A TCP segment as `tcp_recv` gives it to its caller: who sent it, and what it says. -/
structure Segment where
  mac : List UInt8
  ip : List UInt8
  port : Nat
  seq : UInt32
  ack : UInt32
  flags : UInt8
  data : List UInt8
  small : data.length ≤ BUFSZ
deriving DecidableEq

namespace Segment

def len (s : Segment) : Nat := s.data.length

def syn (s : Segment) : Bool := s.flags &&& TH_SYN ≠ 0

def fin (s : Segment) : Bool := s.flags &&& TH_FIN ≠ 0

end Segment

/-- The payload length that the headers give, at most the size of the caller's buffer. -/
def tcpDataLen (fr : Nat → UInt8) : Nat :=
  let ihl := ((fr 14) &&& 0xf).toNat * 4
  let doff := ((fr (14 + ihl + 12)) >>> 4).toNat * 4
  min (get16 fr 16 - ihl - doff) BUFSZ

theorem length_bytesAt (p : Nat → UInt8) (i n : Nat) : (bytesAt p i n).length = n := by
  simp [bytesAt]

theorem tcpData_small (fr : Nat → UInt8) (i : Nat) :
    (bytesAt fr i (tcpDataLen fr)).length ≤ BUFSZ := by
  rw [length_bytesAt]
  exact Nat.min_le_right _ _

/-- The segment in a frame, `none` when `tcp_recv` passes over the frame. -/
def tcpSegment (wantPort : Nat) (f : EthFrame) : Option Segment :=
  let fr := f.fr
  if get16 fr 12 ≠ ETH_IP then none
  else if (fr 14) >>> 4 ≠ 4 ∨ fr (14 + 9) ≠ IP_TCP then none
  else
    let ihl := ((fr 14) &&& 0xf).toNat * 4
    let t := 14 + ihl
    if get16 fr (t + 2) ≠ wantPort then none
    else
      let doff := ((fr (t + 12)) >>> 4).toNat * 4
      some {
        mac := bytesAt fr 6 6
        ip := bytesAt fr (14 + 12) 4
        port := get16 fr t
        seq := get32 fr (t + 4)
        ack := get32 fr (t + 8)
        flags := fr (t + 13)
        data := bytesAt fr (t + doff) (tcpDataLen fr)
        small := tcpData_small fr (t + doff) }

/-- The peer as it was when its SYN came, our next sequence number, and the next one that we
expect of the peer. -/
structure Conn where
  mac : List UInt8
  ip : List UInt8
  port : Nat
  myseq : UInt32
  cliack : UInt32

/-- A call of `tcp_send`. `after` is for the statements: what was received since the SYN, with
the SYN first. -/
structure Sent where
  mac : List UInt8
  ip : List UInt8
  port : Nat
  seq : UInt32
  ack : UInt32
  flags : UInt8
  data : List UInt8
  after : List Segment

/-- Where `net_tcp_demo` is: it waits for a SYN, for data, for the end, or has returned. -/
inductive Phase where
  | listen
  | data (c : Conn) (tries : Nat)
  | close (c : Conn)
  | done

/-- `net_tcp_demo`, with the polls of the `tcp_recv` it is in, and what it has received since the
SYN and sent. -/
structure Demo where
  phase : Phase
  spin : Nat
  got : List Segment
  sent : List Sent

namespace Demo

def init : Demo := ⟨.listen, 0, [], []⟩

def send (d : Demo) (c : Conn) (seq ack : UInt32) (flags : UInt8) (data : List UInt8) : Demo :=
  { d with sent := d.sent ++ [⟨c.mac, c.ip, c.port, seq, ack, flags, data, d.got⟩] }

/-- The FIN of the demo, and on to the last receive. -/
def finish (d : Demo) (c : Conn) : Demo :=
  { d.send c c.myseq c.cliack (TH_FIN ||| TH_ACK) [] with phase := .close c }

/-- A SYN opens the connection. -/
def accept (d : Demo) (s : Segment) : Demo :=
  let c : Conn := ⟨s.mac, s.ip, s.port, 20000, s.seq + 1⟩
  let d := { d with got := [s] }
  { d.send c c.myseq (s.seq + 1) (TH_SYN ||| TH_ACK) [] with
    phase := .data { c with myseq := c.myseq + 1 } 0 }

/-- What the demo does with a segment that `tcp_recv` returns. -/
def recv (d : Demo) (s : Segment) : Demo :=
  match d.phase with
  | .listen => if s.syn then d.accept s else d
  | .data c tries =>
    let d := { d with got := d.got ++ [s] }
    if 0 < s.len then
      let c := { c with cliack := s.seq + s.len.toUInt32 }
      (d.send c c.myseq c.cliack (TH_PSH ||| TH_ACK) s.data).finish
        { c with myseq := c.myseq + s.len.toUInt32 }
    else if s.fin then d.finish { c with cliack := s.seq + 1 }
    else if tries + 1 < DATA_TRIES then { d with phase := .data c (tries + 1) }
    else d.finish c
  | .close c =>
    let d := { d with got := d.got ++ [s] }
    if s.fin then { d.send c (c.myseq + 1) (s.seq + 1) TH_ACK [] with phase := .done }
    else { d with phase := .done }
  | .done => d

/-- One poll of `eth_rx` in `tcp_recv`; a receive that polls in vain for long enough ends the
demo. -/
def poll (d : Demo) (f : Option EthFrame) : Demo :=
  match f.bind (tcpSegment DEMO_PORT) with
  | some s => { d.recv s with spin := 0 }
  | none =>
    if d.spin + 1 < RECV_SPINS then { d with spin := d.spin + 1 } else { d with phase := .done }

def run (d : Demo) (fs : List (Option EthFrame)) : Demo := fs.foldl poll d

/-- The demo over the segments that its receives return. -/
def feed (d : Demo) (ss : List Segment) : Demo := ss.foldl recv d

end Demo

end KernelHobby
