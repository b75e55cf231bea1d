import KernelHobby.NetRx

namespace KernelHobby
set_option autoImplicit true

/-- The spins after which `eth_tx` gives up. -/
def TX_SPINS : Nat := 200000000

/-- `put16`: network byte order. -/
def put16 (v : UInt16) : List UInt8 := [(v >>> 8).toUInt8, v.toUInt8]

/-- How far a call of `eth_tx` has come: it fills `txframe` from byte `k` on, sets descriptor 0,
writes the available ring, counts the request, polls for its completion, has left the loop. -/
inductive TxCall where
  | idle
  | filling (frame : List UInt8) (k : Nat)
  | describe (total : Nat)
  | ring
  | bump
  | polling (req spin : Nat)
  | finish (req : Nat)

/-- The transmit queue in memory, the driver and the device. The last fields are for the
statements: how many requests were made and taken, which were completed, whether `txframe` or
descriptor 0 was written while the device had a request, and what each call returned. -/
structure Tx where
  myMac : List UInt8
  txframe : Nat → UInt8
  desc0 : Desc
  availIdx : UInt16
  availRing : Nat → UInt16
  usedIdx : UInt16
  usedRing : Nat → UsedElem
  usedSeen : UInt16
  call : TxCall
  lastAvail : UInt16
  held : List Nat
  posted : Nat
  taken : Nat
  completed : List Nat
  clash : Bool
  results : List (Nat × Int)

namespace Tx

/-- The transmit queue after `net_init`. -/
def netInit (myMac : List UInt8) (txframe : Nat → UInt8) : Tx where
  myMac := myMac
  txframe := txframe
  desc0 := ⟨0, 0, 0, 0⟩
  availIdx := 0
  availRing _ := 0
  usedIdx := 0
  usedRing _ := ⟨0, 0⟩
  usedSeen := 0
  call := .idle
  lastAvail := 0
  held := []
  posted := 0
  taken := 0
  completed := []
  clash := false
  results := []

/-- The device has a request that is not completed. -/
def owned (s : Tx) : Bool := (List.range s.posted).any fun n => n ∉ s.completed

/-- What `eth_tx` puts into `txframe`: an empty virtio header and the Ethernet frame. -/
def frame (s : Tx) (dst : List UInt8) (ethertype : UInt16) (payload : List UInt8) : List UInt8 :=
  List.replicate NETHDR 0 ++ dst ++ s.myMac ++ put16 ethertype ++ payload

/-- A call of `eth_tx` starts. -/
def start (s : Tx) (dst : List UInt8) (ethertype : UInt16) (payload : List UInt8) : Option Tx :=
  match s.call with
  | .idle => some { s with call := .filling (s.frame dst ethertype payload) 0 }
  | _ => none

/-- The next step of `eth_tx`. -/
def ethTx (s : Tx) : Option Tx :=
  match s.call with
  | .idle => none
  | .filling frame k =>
    match frame[k]? with
    | some b => some { s with
        txframe := Function.update s.txframe k b
        call := .filling frame (k + 1)
        clash := s.clash || s.owned }
    | none => some { s with call := .describe frame.length }
  | .describe total => some { s with
      desc0 := ⟨0, total.toUInt32, 0, 0⟩
      call := .ring
      clash := s.clash || s.owned }
  | .ring => some { s with
      availRing := Function.update s.availRing (s.availIdx.toNat % NUM) 0
      call := .bump }
  | .bump => some { s with
      availIdx := s.availIdx + 1
      posted := s.posted + 1
      call := .polling s.posted 0 }
  | .polling req spin =>
    if s.usedIdx = s.usedSeen then
      if TX_SPINS < spin then some { s with call := .idle, results := s.results ++ [(req, -1)] }
      else some { s with call := .polling req (spin + 1) }
    else some { s with call := .finish req }
  | .finish req => some { s with
      usedSeen := s.usedIdx
      call := .idle
      results := s.results ++ [(req, 0)] }

/-- The device takes the next request. -/
def take (s : Tx) : Option Tx :=
  if s.lastAvail = s.availIdx then none
  else some { s with lastAvail := s.lastAvail + 1, held := s.taken :: s.held, taken := s.taken + 1 }

/-- The device completes a request that it has taken. -/
def complete (s : Tx) (req : Nat) : Option Tx :=
  if req ∈ s.held then
    some { s with
      usedRing := Function.update s.usedRing (s.usedIdx.toNat % NUM) ⟨0, 0⟩
      usedIdx := s.usedIdx + 1
      held := s.held.erase req
      completed := s.completed ++ [req] }
  else none

inductive Act where
  | start (dst : List UInt8) (ethertype : UInt16) (payload : List UInt8)
  | ethTx
  | take
  | complete (req : Nat)

def step (s : Tx) : Act → Option Tx
  | .start dst ethertype payload => s.start dst ethertype payload
  | .ethTx => s.ethTx
  | .take => s.take
  | .complete req => s.complete req

def run (s : Tx) : List Act → Option Tx
  | [] => some s
  | a :: as =>
    match s.step a with
    | some s' => s'.run as
    | none => none

/-- `txframe` and descriptor 0 were written only while they were the driver's, and a call that
returned 0 has had its own request completed. -/
structure Owned (s : Tx) : Prop where
  clash : s.clash = false
  returned : ∀ req, (req, 0) ∈ s.results → req ∈ s.completed

/-- A call starts when the device has completed every request and the driver has seen it. -/
def StartOk (s : Tx) : Act → Prop
  | .start _ _ _ => s.availIdx = s.usedIdx ∧ s.usedIdx = s.usedSeen
  | _ => True

/-- Every step that the run makes meets the condition in the state before it. -/
def Along (s : Tx) : List Act → Prop
  | [] => True
  | a :: as => s.StartOk a ∧ ∀ s', s.step a = some s' → s'.Along as

variable {s s' : Tx}

/-- What the call under way relies on. -/
def InCall (s : Tx) : Prop :=
  match s.call with
  | .idle => True
  | .filling _ _ | .describe _ | .ring | .bump =>
    s.posted = s.completed.length ∧ s.usedSeen = s.usedIdx
  | .polling req _ => req + 1 = s.posted ∧ s.usedSeen = req.toUInt16
  | .finish req => req + 1 = s.posted ∧ s.posted = s.completed.length

structure TxInv (s : Tx) : Prop where
  avail : s.availIdx = s.posted.toUInt16
  used : s.usedIdx = s.completed.length.toUInt16
  last : s.lastAvail = s.taken.toUInt16
  taken : s.taken ≤ s.posted
  held : ∀ n ∈ s.held, n < s.taken ∧ n ∉ s.completed
  heldOnce : s.held.Nodup
  once : s.completed.Nodup
  lt : ∀ n ∈ s.completed, n < s.taken
  one : s.posted ≤ s.completed.length + 1
  inCall : s.InCall
  owned : s.Owned

/-- A list without duplicates of all that there is. -/
theorem mem_of_nodup_full {l : List Nat} (hn : l.Nodup) (hl : ∀ n ∈ l, n < l.length)
    (hk : k < l.length) : k ∈ l := by
  have hsub : l ⊆ List.range l.length := fun n hm => List.mem_range.2 (hl n hm)
  have hp := (List.subperm_of_subset hn hsub).perm_of_length_le (by simp)
  exact hp.mem_iff.2 (List.mem_range.2 hk)

theorem toUInt16_succ (n : Nat) : (n + 1).toUInt16 = n.toUInt16 + 1 := by
  rw [Nat.toUInt16_eq, Nat.toUInt16_eq, UInt16.ofNat_add]
  rfl

/-- Numbers that are next to each other are told apart by their lowest 16 bits. -/
theorem toUInt16_inj (h : m.toUInt16 = n.toUInt16) (hm : m ≤ n) (hn : n ≤ m + 1) : m = n := by
  have ht := congrArg UInt16.toNat h
  rw [Nat.toUInt16_eq, Nat.toUInt16_eq, UInt16.toNat_ofNat', UInt16.toNat_ofNat'] at ht
  omega

theorem TxInv.completed_le (hi : TxInv s) : s.completed.length ≤ s.taken := by
  have hsub : s.completed ⊆ List.range s.taken := fun n hm => List.mem_range.2 (hi.lt n hm)
  simpa using (List.subperm_of_subset hi.once hsub).length_le

theorem TxInv.all_completed (hi : TxInv s) (he : s.posted = s.completed.length)
    (hn : n < s.posted) : n ∈ s.completed := by
  have hle := hi.completed_le
  have ht := hi.taken
  refine mem_of_nodup_full hi.once (fun m hm => ?_) (he ▸ hn)
  have := hi.lt m hm
  omega

theorem TxInv.not_owned (hi : TxInv s) (he : s.posted = s.completed.length) : s.owned = false := by
  rw [Tx.owned, List.any_eq_false]
  intro n hn
  simpa using hi.all_completed he (List.mem_range.1 hn)

theorem TxInv.start (hi : TxInv s) (hok : s.availIdx = s.usedIdx ∧ s.usedIdx = s.usedSeen)
    (hs : s.start d e p = some s') : TxInv s' := by
  rw [Tx.start] at hs
  split at hs
  · cases hs
    have he : s.completed.length = s.posted := by
      have hle := hi.completed_le
      have ht := hi.taken
      refine toUInt16_inj ?_ (by omega) hi.one
      rw [← hi.used, ← hi.avail, hok.1]
    exact ⟨hi.avail, hi.used, hi.last, hi.taken, hi.held, hi.heldOnce, hi.once, hi.lt, hi.one,
      ⟨he.symm, hok.2.symm⟩, hi.owned.1, hi.owned.2⟩
  · cases hs

theorem TxInv.take (hi : TxInv s) (hs : s.take = some s') : TxInv s' := by
  rw [Tx.take] at hs
  split at hs
  · cases hs
  · rename_i hne
    cases hs
    have hlt : s.taken < s.posted := by
      refine lt_of_le_of_ne hi.taken fun he => hne ?_
      rw [hi.last, hi.avail, he]
    have hfresh : s.taken ∉ s.completed := fun hm => absurd (hi.lt _ hm) (lt_irrefl _)
    refine ⟨hi.avail, hi.used, ?_, hlt, ?_, ?_, hi.once, ?_, hi.one, hi.inCall, hi.owned.1,
      hi.owned.2⟩
    · rw [hi.last, toUInt16_succ]
    · intro n hn
      rcases List.mem_cons.1 hn with rfl | hn
      · exact ⟨Nat.lt_succ_self _, hfresh⟩
      · exact ⟨Nat.lt_succ_of_lt (hi.held n hn).1, (hi.held n hn).2⟩
    · refine List.nodup_cons.2 ⟨fun hm => ?_, hi.heldOnce⟩
      exact absurd (hi.held _ hm).1 (lt_irrefl _)
    · intro n hn
      exact Nat.lt_succ_of_lt (hi.lt n hn)

theorem TxInv.complete (hi : TxInv s) (hs : s.complete r = some s') : TxInv s' := by
  rw [Tx.complete] at hs
  split at hs
  · rename_i hm
    cases hs
    obtain ⟨hlt, hfresh⟩ := hi.held r hm
    -- a request is out, so the driver is between two calls or polls
    have hout : s.posted ≠ s.completed.length := by
      intro he
      exact hfresh (hi.all_completed he (Nat.lt_of_lt_of_le hlt hi.taken))
    refine ⟨hi.avail, ?_, hi.last, hi.taken, ?_, hi.heldOnce.erase r, ?_, ?_, ?_, ?_, hi.owned.1,
      ?_⟩
    · rw [List.length_append, List.length_singleton, toUInt16_succ, hi.used]
    · intro n hn
      obtain ⟨hne, hn⟩ := (List.Nodup.mem_erase_iff hi.heldOnce).1 hn
      refine ⟨(hi.held n hn).1, ?_⟩
      rw [List.mem_append, List.mem_singleton]
      rintro (hc | hc)
      · exact (hi.held n hn).2 hc
      · exact hne hc
    · rw [List.nodup_append]
      refine ⟨hi.once, List.nodup_singleton r, ?_⟩
      rintro a ha b hb rfl
      rw [List.mem_singleton] at hb
      exact hfresh (hb ▸ ha)
    · intro n hn
      rcases List.mem_append.1 hn with hn | hn
      · exact hi.lt n hn
      · rw [List.mem_singleton.1 hn]
        exact hlt
    · have := hi.one
      rw [List.length_append, List.length_singleton]
      dsimp only
      omega
    · have hin := hi.inCall
      rw [InCall] at hin ⊢
      dsimp only
      split at hin
      · trivial
      · exact absurd hin.1 hout
      · exact absurd hin.1 hout
      · exact absurd hin.1 hout
      · exact absurd hin.1 hout
      · exact hin
      · exact absurd hin.2 hout
    · intro q hq
      exact List.mem_append_left _ (hi.owned.2 q hq)
  · cases hs

/-- A step of the driver that leaves the queue and the records alone. -/
theorem TxInv.setCall (hi : TxInv s) (hc : InCall { s with call := c }) :
    TxInv { s with call := c } :=
  ⟨hi.avail, hi.used, hi.last, hi.taken, hi.held, hi.heldOnce, hi.once, hi.lt, hi.one, hc,
    hi.owned.1, hi.owned.2⟩

/-- `eth_tx` returns; only a request that is done may be reported as such. -/
theorem TxInv.report {r : Int} (hi : TxInv s) (hr : r = 0 → req ∈ s.completed) (u : UInt16) :
    TxInv { s with usedSeen := u, call := .idle, results := s.results ++ [(req, r)] } := by
  refine ⟨hi.avail, hi.used, hi.last, hi.taken, hi.held, hi.heldOnce, hi.once, hi.lt, hi.one,
    trivial, hi.owned.1, ?_⟩
  intro q hq
  rw [List.mem_append, List.mem_singleton] at hq
  rcases hq with hq | hq
  · exact hi.owned.2 q hq
  · cases hq
    exact hr rfl

theorem TxInv.ethTx (hi : TxInv s) (hs : s.ethTx = some s') : TxInv s' := by
  have hin := hi.inCall
  rw [InCall] at hin
  rw [Tx.ethTx] at hs
  split at hin
  · rename_i hc
    simp only [hc] at hs
    cases hs
  · rename_i frame k hc
    simp only [hc] at hs
    split at hs
    · cases hs
      refine ⟨hi.avail, hi.used, hi.last, hi.taken, hi.held, hi.heldOnce, hi.once, hi.lt, hi.one,
        hin, ?_, hi.owned.2⟩
      rw [hi.owned.1, hi.not_owned hin.1]
      rfl
    · cases hs
      exact hi.setCall hin
  · rename_i total hc
    simp only [hc] at hs
    cases hs
    refine ⟨hi.avail, hi.used, hi.last, hi.taken, hi.held, hi.heldOnce, hi.once, hi.lt, hi.one,
      hin, ?_, hi.owned.2⟩
    rw [hi.owned.1, hi.not_owned hin.1]
    rfl
  · rename_i hc
    simp only [hc] at hs
    cases hs
    exact ⟨hi.avail, hi.used, hi.last, hi.taken, hi.held, hi.heldOnce, hi.once, hi.lt, hi.one,
      hin, hi.owned.1, hi.owned.2⟩
  · rename_i hc
    simp only [hc] at hs
    cases hs
    refine ⟨?_, hi.used, hi.last, Nat.le_succ_of_le hi.taken, hi.held, hi.heldOnce, hi.once, hi.lt,
      ?_, ⟨rfl, ?_⟩, hi.owned.1, hi.owned.2⟩
    · rw [hi.avail, toUInt16_succ]
    · rw [hin.1]
    · rw [hin.1, hin.2]
      exact hi.used
  · rename_i req spin hc
    simp only [hc] at hs
    split at hs
    · split at hs
      · cases hs
        exact hi.report (fun hz => absurd hz (by decide)) s.usedSeen
      · cases hs
        exact hi.setCall hin
    · -- the used index has moved on since the request was made
      rename_i hne
      cases hs
      refine hi.setCall ⟨hin.1, ?_⟩
      have hone := hi.one
      have hle := hi.completed_le
      have ht := hi.taken
      by_contra hno
      change s.posted ≠ s.completed.length at hno
      apply hne
      rw [hi.used, hin.2]
      congr 1
      omega
  · rename_i req hc
    simp only [hc] at hs
    cases hs
    exact hi.report (fun _ => hi.all_completed hin.2 (by omega)) s.usedIdx

theorem TxInv.step (hi : TxInv s) (hok : s.StartOk a) (hs : s.step a = some s') : TxInv s' := by
  cases a with
  | start dst ethertype payload => exact hi.start hok hs
  | ethTx => exact hi.ethTx hs
  | take => exact hi.take hs
  | complete req => exact hi.complete hs

theorem TxInv.run (hi : TxInv s) (hok : s.Along as) (hr : s.run as = some s') : TxInv s' := by
  induction as generalizing s with
  | nil =>
    cases hr
    exact hi
  | cons a as ih =>
    simp only [Tx.run] at hr
    split at hr
    · rename_i u hu
      exact ih (hi.step hok.1 hu) (hok.2 u hu) hr
    · cases hr

theorem TxInv.netInit (mac : List UInt8) (fr : Nat → UInt8) : TxInv (netInit mac fr) where
  avail := rfl
  used := rfl
  last := rfl
  taken := Nat.le_refl 0
  held := nofun
  heldOnce := .nil
  once := .nil
  lt := nofun
  one := Nat.zero_le 1
  inCall := trivial
  owned := ⟨rfl, nofun⟩

/-- With a compliant device of any speed, the driver has the buffer to itself while it writes, and
a call returns 0 only after its own request is done, in every run whose calls start with nothing
outstanding and nothing unseen. -/
theorem tx_owned (mac : List UInt8) (fr : Nat → UInt8) (hok : (netInit mac fr).Along as)
    (hr : (netInit mac fr).run as = some s) :
    s.clash = false ∧ ∀ req, (req, 0) ∈ s.results → req ∈ s.completed := by
  have hi := (TxInv.netInit mac fr).run hok hr
  exact ⟨hi.owned.1, hi.owned.2⟩

instance : DecidablePred s.StartOk
  | .start _ _ _ => inferInstanceAs (Decidable (s.availIdx = s.usedIdx ∧ s.usedIdx = s.usedSeen))
  | .ethTx | .take | .complete _ => .isTrue trivial

instance Along.decidable (s : Tx) : (as : List Act) → Decidable (s.Along as)
  | [] => .isTrue trivial
  | a :: as =>
    match hs : s.step a with
    | none => decidable_of_iff (s.StartOk a)
        ⟨fun ho => ⟨ho, fun _ hs' => nomatch hs.symm.trans hs'⟩, And.left⟩
    | some s' =>
      have : Decidable (s'.Along as) := Along.decidable s' as
      decidable_of_iff (s.StartOk a ∧ s'.Along as)
        ⟨fun ho => ⟨ho.1, fun _ hs' => Option.some.inj (hs.symm.trans hs') ▸ ho.2⟩,
          fun ho => ⟨ho.1, ho.2 s' hs⟩⟩

def mac : List UInt8 := [0x52, 0x54, 0, 0x12, 0x34, 0x56]

def broadcast : List UInt8 := List.replicate 6 0xff

/-- `eth_tx` of one byte to everyone, up to its loop: 27 bytes in `txframe`, the descriptor, the
ring and the index. -/
def sendRun : List Act := .start broadcast 0x0806 [1] :: List.replicate 31 .ethTx

theorem tx_owned_twice : ∃ s, (netInit mac fun _ => 0).run
      (sendRun ++ [.take, .complete 0, .ethTx, .ethTx] ++ sendRun ++
        [.ethTx, .take, .complete 1, .ethTx, .ethTx]) = some s ∧
    s.results = [(0, 0), (1, 0)] ∧
    s.clash = false ∧ ∀ req, (req, 0) ∈ s.results → req ∈ s.completed := by
  have hres : ((netInit mac fun _ => 0).run
      (sendRun ++ [.take, .complete 0, .ethTx, .ethTx] ++ sendRun ++
        [.ethTx, .take, .complete 1, .ethTx, .ethTx])).map results = some [(0, 0), (1, 0)] := by
    decide +kernel
  obtain ⟨s, hs, hsr⟩ := Option.map_eq_some_iff.1 hres
  exact ⟨s, hs, hsr, tx_owned _ _ (by decide +kernel) hs⟩

theorem run_append (hr : s.run as = some s') : s.run (as ++ bs) = s'.run bs := by
  induction as generalizing s with
  | nil =>
    cases hr
    rfl
  | cons a as ih =>
    simp only [List.cons_append, Tx.run] at hr ⊢
    split at hr
    · exact ih hr
    · cases hr

/-- A device that does nothing: the loop goes on until it gives up. -/
theorem poll_run (hc : s.call = .polling r k) (hu : s.usedIdx = s.usedSeen)
    (hn : k + n ≤ TX_SPINS + 1) :
    s.run (List.replicate n .ethTx) = some { s with call := .polling r (k + n) } := by
  induction n generalizing s k with
  | zero =>
    rw [Nat.add_zero, ← hc]
    rfl
  | succ n ih =>
    have hstep : s.step .ethTx = some { s with call := .polling r (k + 1) } := by
      have hlt : ¬ TX_SPINS < k := by omega
      simp only [Tx.step, Tx.ethTx, hc, if_pos hu, if_neg hlt]
    simp only [List.replicate_succ, Tx.run, hstep]
    have hrest := ih (s := { s with call := .polling r (k + 1) }) rfl hu (by omega)
    rw [Nat.add_assoc, Nat.add_comm 1 n] at hrest
    exact hrest

/-- The device is slow: the first call gives up, and the second writes its frame over the one
that the device still has to send. -/
theorem slowDevice_not_owned : ∃ s, (netInit mac fun _ => 0).run
      (sendRun ++ List.replicate (TX_SPINS + 1) .ethTx ++
        [.ethTx, .start broadcast 0x0806 [2], .ethTx]) = some s ∧ s.clash = true := by
  have hsend : ((netInit mac fun _ => 0).run sendRun).any (fun s =>
      match s.call with
      | .polling 0 0 => s.usedIdx = s.usedSeen && s.posted = 1 && s.completed = []
      | _ => false) = true := by
    decide +kernel
  obtain ⟨u, hu, hcall⟩ := (Option.any_eq_true _ _).1 hsend
  split at hcall
  · rename_i hc
    simp only [Bool.and_eq_true, decide_eq_true_eq] at hcall
    obtain ⟨⟨hidx, hposted⟩, hdone⟩ := hcall
    rw [List.append_assoc, run_append hu,
      run_append (poll_run (n := TX_SPINS + 1) hc hidx (by omega))]
    have hlt : TX_SPINS < 0 + (TX_SPINS + 1) := by omega
    simp only [Tx.run, Tx.step, Tx.ethTx, Tx.start, hidx, if_true, hlt]
    refine ⟨_, rfl, ?_⟩
    simp [Tx.owned, hposted, hdone]
  · cases hcall

end Tx

end KernelHobby
