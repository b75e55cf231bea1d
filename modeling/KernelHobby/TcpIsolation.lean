import KernelHobby.TcpAck

namespace KernelHobby
set_option autoImplicit true

/-- What goes out on the wire: sequence number, acknowledgement, flags and payload. -/
def Sent.view (o : Sent) : UInt32 × UInt32 × UInt8 × List UInt8 := (o.seq, o.ack, o.flags, o.data)

/-- The answers of the demo to the segments that its receives return. -/
def answers (ss : List Segment) : List (UInt32 × UInt32 × UInt8 × List UInt8) :=
  (Demo.init.feed ss).sent.map Sent.view

/-- Two runs with the same segments of the peer. -/
def SamePeer (syn : Segment) (ss ts : List Segment) : Prop :=
  ss.filter syn.FromPeer = ts.filter syn.FromPeer

/-- What the demo answers after the SYN and `pre` depends on the peer alone. -/
def Isolated (syn : Segment) (pre : List Segment) : Prop :=
  ∀ ss ts, SamePeer syn ss ts → answers (syn :: pre ++ ss) = answers (syn :: pre ++ ts)

/-- The segments are all that a demo receives after its SYN: of the first `n`, one with payload or
FIN, or else all `n`, and one more. -/
def Over : Nat → List Segment → Prop
  | _, [] => False
  | 0, _ :: _ => True
  | n + 1, s :: ss => if 0 < s.len ∨ s.fin then ss ≠ [] else Over n ss

instance Over.dec : ∀ n, DecidablePred (Over n)
  | 0, [] | _ + 1, [] => isFalse not_false
  | 0, _ :: _ => isTrue trivial
  | n + 1, s :: ss =>
    have := Over.dec n ss
    inferInstanceAs (Decidable (ite (0 < s.len ∨ s.fin) (ss ≠ []) (Over n ss)))

/-- A segment of someone else comes only when the demo has all it receives. -/
def LateForeign (syn : Segment) (ss : List Segment) : Prop :=
  ∀ pre s post, ss = pre ++ s :: post → ¬ syn.FromPeer s → Over DATA_TRIES pre

namespace Demo

variable {d : Demo}

theorem feed_append (d : Demo) (ss ts : List Segment) : d.feed (ss ++ ts) = (d.feed ss).feed ts :=
  List.foldl_append

theorem feed_done (hp : d.phase = .done) (ss : List Segment) : d.feed ss = d := by
  induction ss with
  | nil => rfl
  | cons s ss ih =>
    have hs : d.recv s = d := by rw [recv, hp]
    rw [feed, List.foldl_cons, hs]
    exact ih

theorem recv_close_done (hp : d.phase = .close c) (s : Segment) : (d.recv s).phase = .done := by
  rw [d.recv_close hp]
  split <;> rfl

theorem feed_close_done (hp : d.phase = .close c) (ss : List Segment) :
    (d.feed ss).phase = .done ↔ ss ≠ [] := by
  cases ss with
  | nil =>
    rw [feed, List.foldl_nil, hp]
    simp
  | cons s ss =>
    have hd := recv_close_done hp s
    have he : d.feed (s :: ss) = d.recv s := feed_done hd ss
    rw [he, hd]
    simp

theorem over_zero (ss : List Segment) : Over 0 ss ↔ ss ≠ [] := by
  cases ss <;> simp [Over]

/-- A demo that waits for data is done once the segments are all it receives. -/
theorem feed_data_done (hp : d.phase = .data c tries) (ht : tries < DATA_TRIES)
    (ss : List Segment) : (d.feed ss).phase = .done ↔ Over (DATA_TRIES - tries) ss := by
  induction ss generalizing d tries with
  | nil =>
    rw [feed, List.foldl_nil, hp]
    simp [Over]
  | cons s ss ih =>
    obtain ⟨n, hn⟩ := Nat.exists_eq_succ_of_ne_zero (Nat.sub_ne_zero_of_lt ht)
    have he : d.feed (s :: ss) = (d.recv s).feed ss := rfl
    rw [he, hn, Over]
    by_cases hl : 0 < s.len
    · have hr : ∃ c, (d.recv s).phase = .close c := by
        rw [d.recv_data hp, if_pos hl]
        exact ⟨_, rfl⟩
      obtain ⟨c, hr⟩ := hr
      rw [if_pos (.inl hl), feed_close_done hr]
    · by_cases hf : s.fin = true
      · have hr : ∃ c, (d.recv s).phase = .close c := by
          rw [d.recv_data hp, if_neg hl, if_pos hf]
          exact ⟨_, rfl⟩
        obtain ⟨c, hr⟩ := hr
        rw [if_pos (.inr hf), feed_close_done hr]
      · rw [if_neg (not_or.2 ⟨hl, hf⟩)]
        by_cases hlast : tries + 1 < DATA_TRIES
        · have hr : (d.recv s).phase = .data c (tries + 1) := by
            rw [d.recv_data hp, if_neg hl, if_neg hf, if_pos hlast]
          have hm : n = DATA_TRIES - (tries + 1) := by omega
          rw [ih hr hlast, hm]
        · have hr : (d.recv s).phase = .close c := by
            rw [d.recv_data hp, if_neg hl, if_neg hf, if_neg hlast]
            rfl
          have hm : n = 0 := by omega
          rw [feed_close_done hr, hm, over_zero]

theorem feed_syn (hs : syn.syn = true) (ss : List Segment) :
    init.feed (syn :: ss) = (init.accept syn).feed ss := by
  have h : init.recv syn = init.accept syn := if_pos hs
  rw [feed, List.foldl_cons, h]
  rfl

theorem feed_syn_done (hs : syn.syn = true) (ss : List Segment) :
    (init.feed (syn :: ss)).phase = .done ↔ Over DATA_TRIES ss := by
  rw [feed_syn hs]
  exact feed_data_done rfl (Nat.zero_lt_succ 11) ss

theorem recv_ne_listen (hp : d.phase ≠ .listen) (s : Segment) : (d.recv s).phase ≠ .listen := by
  cases h : d.phase with
  | listen => exact absurd h hp
  | data c tries =>
    rw [d.recv_data h]
    repeat' split
    all_goals exact Phase.noConfusion
  | close c =>
    rw [recv_close_done h]
    exact Phase.noConfusion
  | done =>
    rw [recv, h]
    exact hp

theorem feed_ne_listen (hp : d.phase ≠ .listen) (ss : List Segment) :
    (d.feed ss).phase ≠ .listen := by
  induction ss generalizing d with
  | nil => exact hp
  | cons s ss ih => exact ih (recv_ne_listen hp s)

/-- A segment with payload and FIN is always answered, until the demo has all it receives. -/
theorem recv_sent_lt (hp : d.phase ≠ .listen) (hd : d.phase ≠ .done) (hl : 0 < s.len)
    (hf : s.fin = true) : d.sent.length < (d.recv s).sent.length := by
  cases h : d.phase with
  | listen => exact absurd h hp
  | data c tries =>
    rw [d.recv_data h, if_pos hl, finish, send_sent, send_sent]
    simp only [heard, List.length_append, List.length_cons, List.length_nil]
    omega
  | close c =>
    rw [d.recv_close h, if_pos hf]
    simp only [send_sent, heard, List.length_append, List.length_cons, List.length_nil]
    omega
  | done => exact absurd h hd

theorem recv_spin (d : Demo) (n : Nat) (s : Segment) :
    { d with spin := n }.recv s = { d.recv s with spin := n } := by
  obtain ⟨p, k, got, sent⟩ := d
  cases p with
  | listen =>
    simp only [recv]
    split <;> rfl
  | data c tries =>
    simp only [recv]
    repeat' split
    all_goals rfl
  | close c =>
    simp only [recv]
    split <;> rfl
  | done => rfl

/-- A demo that polls is where its segments bring it, unless a receive was in vain. -/
def Follows (d : Demo) : Prop :=
  init.feed d.got = { d with spin := 0 } ∧ (d.phase = .listen → d.got = []) ∨
    d.phase = .done ∧ ∃ p, init.feed d.got = { d with spin := 0, phase := p }

theorem recv_got (hp : d.phase ≠ .listen) (hd : d.phase ≠ .done) (s : Segment) :
    (d.recv s).got = d.got ++ [s] := by
  cases h : d.phase with
  | listen => exact absurd h hp
  | data c tries =>
    rw [recv_data d h]
    repeat' split
    all_goals rfl
  | close c =>
    rw [recv_close d h]
    split <;> rfl
  | done => exact absurd h hd

theorem Follows.recv (hd : d.Follows) (s : Segment) : (d.recv s).Follows := by
  by_cases hdone : d.phase = .done
  · have he : d.recv s = d := by rw [Demo.recv, hdone]
    rw [he]
    exact hd
  · obtain ⟨hf, hl⟩ := hd.resolve_right fun h => hdone h.1
    by_cases hlisten : d.phase = .listen
    · have hinit : init = { d with spin := 0 } := by
        rw [← hf, hl hlisten]
        rfl
      rw [recv_listen d hlisten]
      split
      · rename_i hs
        refine .inl ⟨?_, fun h => absurd h Phase.noConfusion⟩
        change init.feed [s] = _
        rw [feed_syn hs, hinit]
        rfl
      · exact hd
    · refine .inl ⟨?_, fun h => absurd h (recv_ne_listen hlisten s)⟩
      have hgot := recv_got hlisten hdone s
      have hone : init.feed (d.recv s).got = { d with spin := 0 }.recv s := by
        rw [hgot, feed_append, hf]
        rfl
      exact hone.trans (recv_spin d 0 s)

theorem Follows.poll (hd : d.Follows) (f : Option EthFrame) : (d.poll f).Follows := by
  rw [Demo.poll]
  split
  · rename_i s _
    exact (hd.recv s)
  · split
    · exact hd
    · rcases hd with ⟨h, _⟩ | ⟨_, p, h⟩
      · exact .inr ⟨rfl, d.phase, h⟩
      · exact .inr ⟨rfl, p, h⟩

theorem Follows.run (hd : d.Follows) (fs : List (Option EthFrame)) : (d.run fs).Follows := by
  induction fs generalizing d with
  | nil => exact hd
  | cons f fs ih => exact ih (hd.poll f)

theorem follows_init : init.Follows := .inl ⟨rfl, fun _ => rfl⟩

end Demo

/-- What a demo sends while it polls are its answers to the segments it received. -/
theorem run_answers (fs : List (Option EthFrame)) :
    (Demo.init.run fs).sent.map Sent.view = answers (Demo.init.run fs).got := by
  rw [answers]
  rcases Demo.follows_init.run fs with ⟨h, _⟩ | ⟨_, p, h⟩
  · rw [h]
  · rw [h]

theorem noise_small : [(0 : UInt8)].length ≤ BUFSZ := Nat.le_of_ble_eq_true rfl

/-- A segment of another port of the same host, with payload and FIN. -/
def noise (syn : Segment) : Segment where
  mac := syn.mac
  ip := syn.ip
  port := if syn.port = 0 then 1 else 0
  seq := 0
  ack := 0
  flags := TH_FIN ||| TH_ACK
  data := [0]
  small := noise_small

theorem noise_foreign (syn : Segment) : ¬ syn.FromPeer (noise syn) := by
  rintro ⟨_, h⟩
  simp only [noise] at h
  split at h <;> omega

theorem noise_fin (syn : Segment) : (noise syn).fin = true := by
  have h : (TH_FIN ||| TH_ACK) &&& TH_FIN ≠ 0 := by decide
  exact decide_eq_true h

theorem samePeer_noise (syn : Segment) : SamePeer syn [] [noise syn] := by
  rw [SamePeer, List.filter_cons_of_neg, List.filter_nil]
  rw [decide_eq_true_eq]
  exact noise_foreign syn

theorem Isolated.over (hs : syn.syn = true) (hi : Isolated syn pre) : Over DATA_TRIES pre := by
  rw [← Demo.feed_syn_done hs]
  by_contra hd
  have hl : ((Demo.init.feed (syn :: pre)).phase) ≠ .listen := by
    rw [Demo.feed_syn hs]
    exact Demo.feed_ne_listen Phase.noConfusion pre
  have hlt := Demo.recv_sent_lt hl hd (s := noise syn) Nat.zero_lt_one (noise_fin syn)
  have h := congrArg List.length (hi [] [noise syn] (samePeer_noise syn))
  rw [List.append_nil, answers, answers, Demo.feed_append, List.length_map, List.length_map] at h
  exact absurd h (Nat.ne_of_lt hlt)

theorem Over.answers (hs : syn.syn = true) (ho : Over DATA_TRIES pre) (ss : List Segment) :
    answers (syn :: pre ++ ss) = answers (syn :: pre) := by
  have hd := (Demo.feed_syn_done hs pre).2 ho
  rw [KernelHobby.answers, Demo.feed_append, Demo.feed_done hd]
  rfl

/-- The first segment that is not of the peer, if there is one. -/
theorem split_foreign (syn : Segment) (ss : List Segment) : (∀ s ∈ ss, syn.FromPeer s) ∨
    ∃ pre s post, ss = pre ++ s :: post ∧ (∀ s ∈ pre, syn.FromPeer s) ∧ ¬ syn.FromPeer s := by
  induction ss with
  | nil => exact .inl nofun
  | cons x xs ih =>
    by_cases hx : syn.FromPeer x
    · rcases ih with h | ⟨pre, s, post, rfl, hpre, hs⟩
      · exact .inl (List.forall_mem_cons.2 ⟨hx, h⟩)
      · exact .inr ⟨x :: pre, s, post, rfl, List.forall_mem_cons.2 ⟨hx, hpre⟩, hs⟩
    · exact .inr ⟨[], x, xs, rfl, nofun, hx⟩

theorem LateForeign.answers (hs : syn.syn = true) (hl : LateForeign syn ss) :
    answers (syn :: ss) = answers (syn :: ss.filter syn.FromPeer) := by
  rcases split_foreign syn ss with h | ⟨pre, s, post, rfl, hpre, hf⟩
  · rw [filter_fromPeer h]
  · have ho := hl pre s post rfl hf
    rw [List.filter_append, filter_fromPeer hpre, ← List.cons_append, ← List.cons_append,
      ho.answers hs, ho.answers hs]

/-- A byte from another port of the host is echoed to the peer. -/
theorem noise_not_isolated : ¬ Isolated (peerSegment 0 TH_SYN [] (by decide)) [] := by
  intro h
  exact h.over (by decide)

/-- The answers depend on the peer alone from where the demo has all it receives, and no earlier;
so two runs in which no one else sends before that give the same answers. -/
theorem isolation_iff (syn : Segment) (hs : syn.syn = true) :
    (∀ pre, Isolated syn pre ↔ Over DATA_TRIES pre) ∧
    ∀ ss ts, LateForeign syn ss → LateForeign syn ts → SamePeer syn ss ts →
      answers (syn :: ss) = answers (syn :: ts) := by
  refine ⟨fun pre => ⟨fun h => h.over hs, fun h ss ts _ => ?_⟩, fun ss ts hss hts hp => ?_⟩
  · rw [h.answers hs, h.answers hs]
  · rw [hss.answers hs, hts.answers hs, hp]

/-- The peer sends a byte and its FIN, and only then someone else sends. -/
theorem isolation_iff_late :
    answers [peerSegment 0 TH_SYN [] (by decide), peerSegment 1 TH_ACK [65] (by decide),
        peerSegment 2 TH_FIN [] (by decide)] =
      answers [peerSegment 0 TH_SYN [] (by decide), peerSegment 1 TH_ACK [65] (by decide),
        peerSegment 2 TH_FIN [] (by decide), noise (peerSegment 0 TH_SYN [] (by decide))] := by
  have ho := ((isolation_iff (peerSegment 0 TH_SYN [] (by decide)) (by decide)).1
    [peerSegment 1 TH_ACK [65] (by decide), peerSegment 2 TH_FIN [] (by decide)]).2
    (by decide)
  exact ho [] [noise _] (samePeer_noise _)

end KernelHobby
