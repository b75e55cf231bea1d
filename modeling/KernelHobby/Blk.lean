import KernelHobby.Fs
import KernelHobby.NetRx

namespace KernelHobby
set_option autoImplicit true

def VRING_DESC_F_NEXT : UInt16 := 1
def VIRTIO_BLK_T_IN : Nat := 0
def VIRTIO_BLK_T_OUT : Nat := 1

/-- Where the request header `breq` and the status byte `bstatus` are. -/
structure BlkData where
  breq : Nat
  bstatus : Nat
  apart : bstatus < breq ∨ breq + 16 ≤ bstatus

/-- The driver's own data, which no caller touches. -/
def BlkData.Own (L : BlkData) (j : Nat) : Prop := L.breq ≤ j ∧ j < L.breq + 16 ∨ j = L.bstatus

instance (L : BlkData) : DecidablePred L.Own := fun _ => instDecidableOr

/-- A call of `virtio_disk_rw` with a buffer that is not the driver's own data. -/
structure DiskReq (L : BlkData) where
  block : UInt64
  buf : Nat
  write : Bool
  apart : ∀ j, buf ≤ j → j < buf + BSIZE → ¬ L.Own j

variable {L : BlkData}

/-- The bytes of `breq`: type, reserved, sector. -/
def DiskReq.header (c : DiskReq L) (k : Nat) : UInt8 :=
  if k < 4 then leByte (if c.write then VIRTIO_BLK_T_OUT else VIRTIO_BLK_T_IN) k
  else if k < 8 then 0
  else leByte c.block.toNat (k - 8)

/-- The descriptor of the data buffer. -/
def DiskReq.data (c : DiskReq L) : Desc :=
  ⟨c.buf, BSIZE.toUInt32, (if c.write then 0 else VRING_DESC_F_WRITE) ||| VRING_DESC_F_NEXT, 2⟩

/-- How far a call of `virtio_disk_rw` has come: the assignments before the notification by
number, then the loop, then the way out. -/
inductive DiskCall (L : BlkData) where
  | idle
  | setup (c : DiskReq L) (n : Fin 7)
  | poll (c : DiskReq L)
  | finish (c : DiskReq L)

/-- What the device works on: the head of the chain, how many bytes it has moved, the status once
it has written it. -/
structure DiskJob where
  head : Nat
  moved : Nat
  status : Option UInt8

/-- What is done to memory from outside: a call that has returned, or a byte that a caller of the
driver writes. -/
inductive DiskEvent (L : BlkData) where
  | rw (c : DiskReq L) (r : Int)
  | poke (j : Nat) (v : UInt8)

/-- Memory, the queue, the driver and the device. `torn` says that the device may give up in the
middle of a transfer. -/
structure Blk (L : BlkData) where
  mem : Nat → UInt8
  desc : Nat → Desc
  availIdx : UInt16
  availRing : Nat → UInt16
  usedIdx : UInt16
  usedRing : Nat → UsedElem
  usedSeen : UInt16
  diskOk : Bool
  call : DiskCall L
  disk : Nat → Block
  lastAvail : UInt16
  job : Option DiskJob
  torn : Bool
  log : List (DiskEvent L)

namespace Blk

/-- After `virtio_disk_init`. -/
def diskInit (L : BlkData) (mem : Nat → UInt8) (disk : Nat → Block) (diskOk torn : Bool) : Blk L where
  mem := mem
  desc _ := ⟨0, 0, 0, 0⟩
  availIdx := 0
  availRing _ := 0
  usedIdx := 0
  usedRing _ := ⟨0, 0⟩
  usedSeen := 0
  diskOk := diskOk
  call := .idle
  disk := disk
  lastAvail := 0
  job := none
  torn := torn
  log := []

def setByte (s : Blk L) (j : Nat) (v : UInt8) : Blk L := { s with mem := Function.update s.mem j v }

def setDesc (s : Blk L) (i : Nat) (d : Desc) : Blk L :=
  { s with desc := Function.update s.desc i d }

/-- A call starts; without a disk it returns at once. -/
def start (s : Blk L) (c : DiskReq L) : Option (Blk L) :=
  match s.call with
  | .idle =>
    if s.diskOk then some { s with call := .setup c 0 }
    else some { s with log := s.log ++ [.rw c (-1)] }
  | _ => none

/-- The assignments of `virtio_disk_rw`. -/
def assign (s : Blk L) (c : DiskReq L) : Fin 7 → Blk L
  | 0 => { s with mem := fun j =>
      if L.breq ≤ j ∧ j < L.breq + 16 then c.header (j - L.breq) else s.mem j }
  | 1 => s.setDesc 0 ⟨L.breq, 16, VRING_DESC_F_NEXT, 1⟩
  | 2 => s.setDesc 1 c.data
  | 3 => s.setByte L.bstatus 0xff
  | 4 => s.setDesc 2 ⟨L.bstatus, 1, VRING_DESC_F_WRITE, 0⟩
  | 5 => { s with availRing := Function.update s.availRing (s.availIdx.toNat % NUM) 0 }
  | 6 => { s with availIdx := s.availIdx + 1 }

/-- The next step of `virtio_disk_rw`. -/
def driver (s : Blk L) : Option (Blk L) :=
  match s.call with
  | .idle => none
  | .setup c n =>
    some { s.assign c n with
      call := if h : n.val + 1 < 7 then .setup c ⟨n + 1, h⟩ else .poll c }
  | .poll c => some (if s.usedIdx = s.usedSeen then s else { s with call := .finish c })
  | .finish c =>
    some { s with
      usedSeen := s.usedIdx
      call := .idle
      log := s.log ++ [.rw c (if s.mem L.bstatus = 0 then 0 else -1)] }

/-- The buffer of the call under way. -/
def InBuf (s : Blk L) (j : Nat) : Prop :=
  match s.call with
  | .idle => False
  | .setup c _ | .poll c | .finish c => c.buf ≤ j ∧ j < c.buf + BSIZE

instance (s : Blk L) : DecidablePred s.InBuf := fun j => by
  rw [InBuf]
  split <;> infer_instance

/-- Code outside of the driver writes a byte that is neither the driver's nor in a buffer under
way. -/
def poke (s : Blk L) (j : Nat) (v : UInt8) : Option (Blk L) :=
  if L.Own j ∨ s.InBuf j then none else some { s.setByte j v with log := s.log ++ [.poke j v] }

/-- The device takes the next chain. -/
def take (s : Blk L) : Option (Blk L) :=
  if s.job.isSome ∨ s.lastAvail = s.availIdx then none
  else some { s with
    job := some ⟨(s.availRing (s.lastAvail.toNat % NUM)).toNat, 0, none⟩
    lastAvail := s.lastAvail + 1 }

/-- The device moves the next byte between the sector that the header names and the buffer. -/
def move (s : Blk L) : Option (Blk L) :=
  match s.job with
  | some ⟨head, k, none⟩ =>
    let hdr := s.desc head
    let data := s.desc hdr.next.toNat
    let type := leGet s.mem hdr.addr 4
    let sector := leGet s.mem (hdr.addr + 8) 8
    if k < data.len.toNat ∧ k < BSIZE then
      let s := { s with job := some ⟨head, k + 1, none⟩ }
      if type = VIRTIO_BLK_T_OUT ∧ data.flags &&& VRING_DESC_F_WRITE = 0 then
        some { s with disk := Function.update s.disk sector fun i =>
          if i.val = k then s.mem (data.addr + k) else s.disk sector i }
      else if type = VIRTIO_BLK_T_IN ∧ data.flags &&& VRING_DESC_F_WRITE ≠ 0 then
        some (s.setByte (data.addr + k) ((s.disk sector).byte k))
      else none
    else none
  | _ => none

/-- The device writes the status byte: 0 once everything is moved, or an error. -/
def report (s : Blk L) (st : UInt8) : Option (Blk L) :=
  match s.job with
  | some ⟨head, k, none⟩ =>
    let data := s.desc (s.desc head).next.toNat
    let status := s.desc data.next.toNat
    if (st = 0 ∧ k = data.len.toNat) ∨ (st ≠ 0 ∧ (s.torn ∨ k = 0)) then
      some { s.setByte status.addr st with job := some ⟨head, k, some st⟩ }
    else none
  | _ => none

/-- The device puts the chain into the used ring. -/
def publish (s : Blk L) : Option (Blk L) :=
  match s.job with
  | some ⟨head, k, some _⟩ => some { s with
      usedRing := Function.update s.usedRing (s.usedIdx.toNat % NUM) ⟨head.toUInt32, k.toUInt32⟩
      usedIdx := s.usedIdx + 1
      job := none }
  | _ => none

inductive Act (L : BlkData) where
  | start (c : DiskReq L)
  | driver
  | poke (j : Nat) (v : UInt8)
  | take
  | move
  | report (st : UInt8)
  | publish

def step (s : Blk L) : Act L → Option (Blk L)
  | .start c => s.start c
  | .driver => s.driver
  | .poke j v => s.poke j v
  | .take => s.take
  | .move => s.move
  | .report st => s.report st
  | .publish => s.publish

def run (s : Blk L) : List (Act L) → Option (Blk L)
  | [] => some s
  | a :: as => (s.step a).bind fun t => t.run as

end Blk

/-! What a call does at once, as its caller sees it. -/

/-- Memory after `k` bytes of the call are moved. -/
def DiskReq.memAfter (c : DiskReq L) (m : Nat → UInt8) (d : Nat → Block) (k : Nat) : Nat → UInt8 :=
  fun j =>
    if c.write = false ∧ c.buf ≤ j ∧ j < c.buf + k then (d c.block.toNat).byte (j - c.buf) else m j

/-- The disk after `k` bytes of the call are moved. -/
def DiskReq.diskAfter (c : DiskReq L) (m : Nat → UInt8) (d : Nat → Block) (k : Nat) : Nat → Block :=
  if c.write then
    Function.update d c.block.toNat fun i => if i.val < k then m (c.buf + i) else d c.block.toNat i
  else d

/-- The events one after the other, each at once: a call that returns 0 moves its block, one that
fails at most a part of it, and none where the device is not `torn`. -/
inductive Atomically (torn : Bool) (m : Nat → UInt8) (d : Nat → Block) :
    List (DiskEvent L) → (Nat → UInt8) → (Nat → Block) → Prop where
  | nil : Atomically torn m d [] m d
  | rw (c : DiskReq L) (r : Int) (k : Nat) : Atomically torn m d es m' d' → k ≤ BSIZE →
      (r = 0 ∧ k = BSIZE ∨ r = -1 ∧ (torn = true ∨ k = 0)) →
      Atomically torn m d (es ++ [.rw c r]) (c.memAfter m' d' k) (c.diskAfter m' d' k)
  | poke (j : Nat) (v : UInt8) : Atomically torn m d es m' d' →
      Atomically torn m d (es ++ [.poke j v]) (Function.update m' j v) d'

namespace Blk

/-- What a call in progress has assigned before assignment `n`. -/
structure Assigned (s : Blk L) (c : DiskReq L) (n : Nat) : Prop where
  header : 0 < n → ∀ k, k < 16 → s.mem (L.breq + k) = c.header k
  desc0 : 1 < n → s.desc 0 = ⟨L.breq, 16, VRING_DESC_F_NEXT, 1⟩
  desc1 : 2 < n → s.desc 1 = c.data
  status : 3 < n → s.mem L.bstatus = 0xff
  desc2 : 4 < n → s.desc 2 = ⟨L.bstatus, 1, VRING_DESC_F_WRITE, 0⟩
  ring : 5 < n → s.availRing (s.availIdx.toNat % NUM) = 0

/-- Outside of the driver's data the memory is `m`, and the disk is `d`. -/
structure Shows (s : Blk L) (m : Nat → UInt8) (d : Nat → Block) : Prop where
  mem : ∀ j, ¬ L.Own j → s.mem j = m j
  disk : s.disk = d

/-- The device has no request and the driver has seen them all. -/
structure AtRest (s : Blk L) : Prop where
  job : s.job = none
  last : s.lastAvail = s.availIdx
  used : s.usedIdx = s.availIdx
  seen : s.usedSeen = s.availIdx

/-- The chain that the device follows while a request is out. -/
structure Chain (s : Blk L) (c : DiskReq L) : Prop where
  header : ∀ k, k < 16 → s.mem (L.breq + k) = c.header k
  desc0 : s.desc 0 = ⟨L.breq, 16, VRING_DESC_F_NEXT, 1⟩
  desc1 : s.desc 1 = c.data
  desc2 : s.desc 2 = ⟨L.bstatus, 1, VRING_DESC_F_WRITE, 0⟩

/-- How far the request has come that the driver waits for, and how many bytes are moved. -/
inductive Progress (s : Blk L) : Nat → Prop where
  | posted : s.job = none → s.lastAvail = s.usedSeen → s.usedIdx = s.usedSeen →
      s.availRing (s.usedSeen.toNat % NUM) = 0 → Progress s 0
  | moving (k : Nat) : s.job = some ⟨0, k, none⟩ → s.lastAvail = s.availIdx →
      s.usedIdx = s.usedSeen → k ≤ BSIZE → Progress s k
  | reported (k : Nat) (st : UInt8) : s.job = some ⟨0, k, some st⟩ → s.lastAvail = s.availIdx →
      s.usedIdx = s.usedSeen → k ≤ BSIZE → s.mem L.bstatus = st →
      (st = 0 ∧ k = BSIZE ∨ st ≠ 0 ∧ (s.torn = true ∨ k = 0)) → Progress s k
  | published (k : Nat) : s.job = none → s.lastAvail = s.availIdx → s.usedIdx = s.availIdx →
      k ≤ BSIZE → (s.mem L.bstatus = 0 ∧ k = BSIZE ∨
        s.mem L.bstatus ≠ 0 ∧ (s.torn = true ∨ k = 0)) → Progress s k

/-- The state in terms of the memory and the disk that the calls so far have left. -/
def Holds (s : Blk L) (m : Nat → UInt8) (d : Nat → Block) : Prop :=
  match s.call with
  | .idle => s.AtRest ∧ s.Shows m d
  | .setup c n => s.AtRest ∧ s.Shows m d ∧ s.Assigned c n
  | .poll c => ∃ k, s.Progress k ∧ s.Chain c ∧ s.availIdx = s.usedSeen + 1 ∧
      s.Shows (c.memAfter m d k) (c.diskAfter m d k)
  | .finish c => ∃ k, s.Progress k ∧ s.usedIdx ≠ s.usedSeen ∧
      s.Shows (c.memAfter m d k) (c.diskAfter m d k)

end Blk

end KernelHobby
