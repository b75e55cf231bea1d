import KernelHobby.MachInv

namespace KernelHobby
set_option autoImplicit true

open Abs

theorem update_eq [DecidableEq α] {f : α → β} (hx : Function.update f a b a' = c) :
    f a' = c ∨ a' = a ∧ b = c := by
  by_cases ha : a' = a
  · subst ha
    rw [Function.update_self] at hx
    exact .inr ⟨rfl, hx⟩
  · rw [Function.update_of_ne ha] at hx
    exact .inl hx

namespace Mach
variable {H : Type} [DecidableEq H] {m m' : Mach H} {h h' : H} {k : Kind} {σ σ' : Abs}
  {q : Code} {l : Lock}

@[simp] theorem setCur_cur (m : Mach H) (h : H) (c : Ctx H) :
    (m.setCur h c).cur = Function.update m.cur h c := rfl

@[simp] theorem setSie_sie (m : Mach H) (h : H) (b : Bool) :
    (m.setSie h b).sie = Function.update m.sie h b := rfl

@[simp] theorem setTp_tp (m : Mach H) (h t : H) : (m.setTp h t).tp = Function.update m.tp h t := rfl

theorem setCur_elsewhere (m : Mach H) (h : H) (c : Ctx H) : Elsewhere m (m.setCur h c) h :=
  ⟨fun _ _ => rfl, fun _ _ => rfl, fun _ _ => rfl, fun _ _ => rfl, fun _ _ => rfl,
    fun _ hne => Function.update_of_ne hne _ _, fun _ _ => rfl⟩

theorem setSie_elsewhere (m : Mach H) (h : H) (b : Bool) : Elsewhere m (m.setSie h b) h :=
  ⟨fun _ _ => rfl, fun _ _ => rfl, fun _ hne => Function.update_of_ne hne _ _, fun _ _ => rfl,
    fun _ _ => rfl, fun _ _ => rfl, fun _ _ => rfl⟩

omit [DecidableEq H] in
theorem Elsewhere.refl (m : Mach H) (h : H) : Elsewhere m m h :=
  ⟨fun _ _ => rfl, fun _ _ => rfl, fun _ _ => rfl, fun _ _ => rfl, fun _ _ => rfl,
    fun _ _ => rfl, fun _ _ => rfl⟩

omit [DecidableEq H] in
theorem setSeat_elsewhere (m : Mach H) (h : H) (p : Slot) (x : Seat H) :
    Elsewhere m (m.setSeat p x) h :=
  ⟨fun _ _ => rfl, fun _ _ => rfl, fun _ _ => rfl, fun _ _ => rfl, fun _ _ => rfl,
    fun _ _ => rfl, fun _ _ => rfl⟩

/-- A hart switches to another context. -/
theorem switch_elsewhere (m : Mach H) (h : H) (p : Slot) (x : Seat H) (c : Ctx H)
    (cs : H → Option (Ctx H)) (o : Option Slot) :
    Elsewhere m { (m.setSeat p x).setCur h c with
      cpuSched := cs
      cpuProc := Function.update m.cpuProc h o } h :=
  ⟨fun _ _ => rfl, fun _ _ => rfl, fun _ _ => rfl, fun _ _ => rfl,
    fun _ hne => Function.update_of_ne hne _ _, fun _ hne => Function.update_of_ne hne _ _,
    fun _ _ => rfl⟩

theorem setTp_elsewhere (m : Mach H) (h t : H) : Elsewhere m (m.setTp h t) h :=
  ⟨fun _ _ => rfl, fun _ _ => rfl, fun _ _ => rfl, fun _ hne => Function.update_of_ne hne _ _,
    fun _ _ => rfl, fun _ _ => rfl, fun _ _ => rfl⟩

/-- The state after `push_off` on a hart whose `tp` is right. -/
structure Pushed (m m' : Mach H) (h : H) : Prop where
  elsewhere : Elsewhere m m' h
  noff : m'.noff h = m.noff h + 1
  sie : m'.sie h = false
  intena : m'.intena h = if m.noff h = 0 then m.sie h else m.intena h
  start : m'.start = if m.noff h = 0 then Function.update m.start h (m.sie h) else m.start
  mine : (m'.cur h).mine = if m.noff h = 0 then some (m.sie h) else (m.cur h).mine
  code : (m'.cur h).code = (m.cur h).code
  frames : (m'.cur h).frames = (m.cur h).frames
  tp : m'.tp = m.tp
  cpuProc : m'.cpuProc = m.cpuProc
  seat : m'.seat = m.seat
  cpuSched : m'.cpuSched = m.cpuSched
  locked : m'.locked = m.locked
  held : m'.held = m.held

theorem pushOff_pushed (ht : m.tp h = h) : Pushed m (m.pushOff h) h := by
  by_cases hn : m.noff h = 0
  · have he : m.pushOff h = { ({ m.setSie h false with
        intena := Function.update m.intena h (m.sie h)
        start := Function.update m.start h (m.sie h) } : Mach H).setMine h (some (m.sie h)) with
        noff := Function.update m.noff h (m.noff h + 1) } := by
      simp only [pushOff, ht, setSie, hn, if_true, setMine, setCur]
    rw [he]
    refine ⟨⟨?_, ?_, ?_, ?_, ?_, ?_, ?_⟩, ?_, ?_, ?_, ?_, ?_, ?_, ?_, rfl, rfl, rfl, rfl, rfl, rfl⟩
    all_goals first
      | intro h' hne; first | exact Function.update_of_ne hne _ _ | rfl
      | simp [setMine, setCur, setSie, hn]
  · have he : m.pushOff h = { m.setSie h false with
        noff := Function.update m.noff h (m.noff h + 1) } := by
      simp only [pushOff, ht, setSie, hn, if_false]
    rw [he]
    refine ⟨⟨?_, ?_, ?_, ?_, ?_, ?_, ?_⟩, ?_, ?_, ?_, ?_, ?_, rfl, rfl, rfl, rfl, rfl, rfl, rfl, rfl⟩
    all_goals first
      | intro h' hne; first | exact Function.update_of_ne hne _ _ | rfl
      | simp [setSie, hn]

/-- The state after `pop_off` on a hart whose `tp` is right. -/
structure Popped (m m' : Mach H) (h : H) : Prop where
  elsewhere : Elsewhere m m' h
  noff : m'.noff h = m.noff h - 1
  sie : m'.sie h = if m.noff h - 1 = 0 ∧ m.intena h = true then true else m.sie h
  intena : m'.intena = m.intena
  start : m'.start = m.start
  mine : m.noff h - 1 ≠ 0 → (m'.cur h).mine = (m.cur h).mine
  code : (m'.cur h).code = (m.cur h).code
  frames : (m'.cur h).frames = (m.cur h).frames
  tp : m'.tp = m.tp
  cpuProc : m'.cpuProc = m.cpuProc
  seat : m'.seat = m.seat
  cpuSched : m'.cpuSched = m.cpuSched
  locked : m'.locked = m.locked
  held : m'.held = m.held

theorem popOff_popped (ht : m.tp h = h) : Popped m (m.popOff h) h := by
  have hu : Function.update m.noff h (m.noff h - 1) h = m.noff h - 1 := Function.update_self ..
  by_cases hn : m.noff h - 1 = 0
  · by_cases hia : m.intena h = true
    · have he : m.popOff h = ({ m with
          noff := Function.update m.noff h (m.noff h - 1)
          sie := Function.update m.sie h true } : Mach H).setMine h none := by
        simp only [popOff, ht, hu, if_pos hn, if_pos hia, setSie]
      rw [he]
      refine ⟨⟨?_, ?_, ?_, ?_, ?_, ?_, ?_⟩, ?_, ?_, rfl, rfl, ?_, ?_, ?_, rfl, rfl, rfl, rfl,
        rfl, rfl⟩
      all_goals first
        | intro h' hne; first | exact Function.update_of_ne hne _ _ | rfl
        | simp [setMine, setCur, hn, hia]
    · have he : m.popOff h = ({ m with
          noff := Function.update m.noff h (m.noff h - 1) } : Mach H).setMine h none := by
        simp only [popOff, ht, hu, if_pos hn, if_neg hia]
      rw [he]
      refine ⟨⟨?_, ?_, ?_, ?_, ?_, ?_, ?_⟩, ?_, ?_, rfl, rfl, ?_, ?_, ?_, rfl, rfl, rfl, rfl,
        rfl, rfl⟩
      all_goals first
        | intro h' hne; first | exact Function.update_of_ne hne _ _ | rfl
        | simp [setMine, setCur, hn, hia]
  · have he : m.popOff h = { m with noff := Function.update m.noff h (m.noff h - 1) } := by
      simp only [popOff, ht, hu, if_neg hn]
    rw [he]
    refine ⟨⟨?_, ?_, ?_, ?_, ?_, ?_, ?_⟩, ?_, ?_, rfl, rfl, fun _ => rfl, rfl, rfl, rfl, rfl, rfl,
      rfl, rfl, rfl⟩
    all_goals first
      | intro h' hne; first | exact Function.update_of_ne hne _ _ | rfl
      | simp [hn]

/-- The hart goes on with `q` and has done nothing yet. -/
theorem Agree.setCode (ha : m.Agree h k σ) (q : Code) : (m.setCode h q).Agree h k σ :=
  ⟨ha.held, ha.noff, ha.off, ha.intena, ha.ok, ha.sched, ha.fixed⟩

theorem Agree.pushOff (ha : m.Agree h k σ) (he : eff k σ (.acquire l) = some σ') :
    (m.pushOff h).Agree h k σ' ∧ m.tp h = h := by
  have hok := eff_ok he ha.ok
  simp only [eff, Option.ite_none_right_eq_some, Option.some.injEq] at he
  obtain ⟨⟨hm, _, _, hk⟩, rfl⟩ := he
  have htp := ha.tp hk
  have hp := pushOff_pushed htp
  have hn := ha.noff
  rw [hm] at hn
  refine ⟨⟨?_, ?_, fun _ => ⟨hp.sie, ?_⟩, ?_, hok, ?_, fun _ => rfl⟩, htp⟩
  · rw [hp.held]
    exact ha.held
  · rw [hp.noff, hn]
    simp
  · rw [hp.tp]
    exact htp
  · intro _ hia
    have hia' : (if σ.held = [] then σ.ie else σ.ia) = false := hia
    rw [hp.intena]
    by_cases hh : σ.held = []
    · rw [if_pos hh] at hia'
      rw [if_pos (by rw [hn, hh]; rfl)]
      exact (ha.off hia').1
    · rw [if_neg hh] at hia'
      have hpos : 0 < σ.held.length := List.length_pos_iff.2 hh
      rw [if_neg (by rw [hn]; simp only [Bool.false_eq_true, if_false]; omega)]
      exact ha.intena (.inl hh) hia'
  · intro hs
    rw [hp.tp, hp.cpuProc]
    exact ha.sched hs

theorem Agree.popOff (ha : m.Agree h k σ) (he : eff k σ .popOff = some σ') :
    (m.popOff h).Agree h k σ' ∧ m.tp h = h := by
  have hok := eff_ok he ha.ok
  simp only [eff, Option.ite_none_right_eq_some, Option.some.injEq] at he
  obtain ⟨⟨hm, hfix⟩, rfl⟩ := he
  have hie : σ.ie = false := by
    cases hie : σ.ie with
    | false => rfl
    | true =>
      have := (ha.ok.ie hie).2
      rw [hm] at this
      cases this
  have htp := ha.tp (.inr hie)
  have hp := popOff_popped htp
  have hn : m.noff h - 1 = σ.held.length := by
    rw [ha.noff, hm]
    simp
  refine ⟨⟨?_, ?_, ?_, ?_, hok, ?_, ?_⟩, htp⟩
  · rw [hp.held]
    exact ha.held
  · rw [hp.noff, hn]
    simp
  · intro hi
    have hi' : (if σ.held = [] then σ.ia else σ.ie) = false := hi
    refine ⟨?_, by rw [hp.tp]; exact htp⟩
    rw [hp.sie, if_neg]
    · exact (ha.off hie).1
    · rintro ⟨hz, hia⟩
      have hh : σ.held = [] := by
        rw [hn] at hz
        exact List.length_eq_zero_iff.1 (Int.ofNat_eq_zero.1 hz)
      rw [if_pos hh] at hi'
      rw [ha.intena (.inr hm) hi'] at hia
      cases hia
  · intro _ hia
    rw [hp.intena]
    exact ha.intena (.inr hm) hia
  · intro hs
    rw [hp.tp, hp.cpuProc]
    exact ha.sched hs
  · intro hf
    show (if σ.held = [] then σ.ia else σ.ie) = false
    split
    · rename_i hh
      exact hfix hf hh
    · exact hie

omit [DecidableEq H] in
/-- A step that a hart takes with its own registers and its interrupt state. -/
theorem Rest.own (hi : m.Rest h) (hel : Elsewhere m m' h) (ha : m'.Agree h k σ')
    (ht : Thread h (m.cpuProc h = none) k σ' (m.cur h)) (hcode : (m'.cur h).code = (m.cur h).code)
    (hframes : (m'.cur h).frames = (m.cur h).frames) (hcpu : m'.cpuProc = m.cpuProc)
    (hseat : m'.seat = m.seat) (hsched : m'.cpuSched = m.cpuSched) (hl : m'.locked = m.locked)
    (hh : m'.held = m.held) : m'.Inv := by
  refine hi.hart hel ⟨k, σ', ?_, ha⟩ ?_ ?_ hl hh
  · rw [hcpu]
    exact ht.congr hcode hframes
  · rw [hseat]
    exact fun _ _ hc => .inl hc
  · rw [hsched]
    exact fun _ _ hc => .inl hc

theorem Rest.acquire (hi : m.Rest h) (ha : m.Agree h k σ) (he : eff k σ (.acquire l) = some σ')
    (ht : Thread h (m.cpuProc h = none) k σ' (m.cur h)) : (m.pushOff h).Inv := by
  obtain ⟨ha', htp⟩ := ha.pushOff he
  have hp := pushOff_pushed htp
  exact hi.own hp.elsewhere ha' ht hp.code hp.frames hp.cpuProc hp.seat hp.cpuSched hp.locked
    hp.held

theorem Rest.popOff (hi : m.Rest h) (ha : m.Agree h k σ) (he : eff k σ .popOff = some σ')
    (ht : Thread h (m.cpuProc h = none) k σ' (m.cur h)) : (m.popOff h).Inv := by
  obtain ⟨ha', htp⟩ := ha.popOff he
  have hp := popOff_popped htp
  exact hi.own hp.elsewhere ha' ht hp.code hp.frames hp.cpuProc hp.seat hp.cpuSched hp.locked
    hp.held

theorem lock_elsewhere (m : Mach H) (h : H) (l : Lock) : Elsewhere m (m.lock h l) h :=
  ⟨fun _ _ => rfl, fun _ _ => rfl, fun _ _ => rfl, fun _ _ => rfl, fun _ _ => rfl,
    fun _ _ => rfl, fun _ hne => Function.update_of_ne hne _ _⟩

theorem unlock_elsewhere (m : Mach H) (h : H) (l : Lock) : Elsewhere m (m.unlock h l) h :=
  ⟨fun _ _ => rfl, fun _ _ => rfl, fun _ _ => rfl, fun _ _ => rfl, fun _ _ => rfl,
    fun _ _ => rfl, fun _ hne => Function.update_of_ne hne _ _⟩

theorem mem_lock {l' : Lock} : l' ∈ (m.lock h l).held h' ↔ h' = h ∧ l' = l ∨ l' ∈ m.held h' := by
  by_cases hne : h' = h
  · subst hne
    simp [lock]
  · simp [lock, hne]

/-- The exchange found the lock free, so that no hart held it. -/
theorem Rest.spin (hi : m.Rest h) (ha : m.Agree h k σ) (he : eff k σ (.spin l) = some σ')
    (ht : Thread h (m.cpuProc h = none) k σ' (m.cur h)) (hl : m.locked l = false) :
    (m.lock h l).Inv := by
  have hok := eff_ok he ha.ok
  simp only [eff, Option.ite_none_right_eq_some, Option.some.injEq] at he
  obtain ⟨⟨hm, _⟩, rfl⟩ := he
  have hfree (h' : H) : l ∉ m.held h' := fun hx => by
    rw [(hi.locked l).2 ⟨h', hx⟩] at hl
    cases hl
  have hk : (m.lock h l).HartOk h := by
    refine ⟨k, _, ht, ⟨?_, ?_, ha.off, fun _ => ha.intena (.inr hm), hok, ha.sched, ha.fixed⟩⟩
    · simp [lock, ha.held]
    · have hn := ha.noff
      rw [hm] at hn
      simpa [lock] using hn
  refine ⟨⟨hi.seats, hi.scheds, fun l' => ?_, fun l' h₁ h₂ hx hy => ?_⟩, fun h' => ?_⟩
  · by_cases hl' : l' = l
    · subst hl'
      simp only [lock, Function.update_self, true_iff]
      exact ⟨h, mem_lock.2 (.inl ⟨rfl, rfl⟩)⟩
    · have hlk : (m.lock h l).locked l' = m.locked l' := Function.update_of_ne hl' _ _
      simp only [hlk, hi.locked l', mem_lock, hl', and_false, false_or]
  · rw [mem_lock] at hx hy
    rcases hx with ⟨rfl, rfl⟩ | hx
    · rcases hy with ⟨rfl, _⟩ | hy
      · rfl
      · exact absurd hy (hfree h₂)
    · rcases hy with ⟨rfl, rfl⟩ | hy
      · exact absurd hx (hfree h₁)
      · exact hi.unique l' h₁ h₂ hx hy
  · by_cases hne : h' = h
    · rw [hne]
      exact hk
    · exact (hi.others h' hne).elsewhere (lock_elsewhere m h l) hne

theorem Rest.unlock (hi : m.Rest h) (ha : m.Agree h k σ) (he : eff k σ (.unlock l) = some σ')
    (ht : Thread h (m.cpuProc h = none) k σ' (m.cur h)) : (m.unlock h l).Inv := by
  have hok := eff_ok he ha.ok
  simp only [eff, Option.ite_none_right_eq_some, Option.some.injEq] at he
  obtain ⟨⟨hm, hl⟩, rfl⟩ := he
  have hlh : l ∈ m.held h := by
    rw [ha.held]
    exact hl
  have hnd : (m.held h).Nodup := by
    rw [ha.held]
    exact ha.ok.nodup
  have hmem (l' : Lock) (h' : H) : l' ∈ (m.unlock h l).held h' ↔ l' ≠ l ∧ l' ∈ m.held h' := by
    by_cases hne : h' = h
    · subst hne
      simp [Mach.unlock, hnd.mem_erase_iff]
    · simp only [Mach.unlock, Function.update_of_ne hne, ne_eq, iff_and_self]
      rintro hx rfl
      exact hne (hi.unique l' h' h hx hlh)
  have hk : (m.unlock h l).HartOk h := by
    refine ⟨k, _, ht, ⟨?_, ?_, ha.off, ?_, hok, ha.sched, ha.fixed⟩⟩
    · simp [Mach.unlock, ha.held]
    · have hn := ha.noff
      have hpos := List.length_pos_of_mem hl
      rw [hm] at hn
      simp only [Mach.unlock, hn, List.length_erase_of_mem hl, Bool.false_eq_true, if_false, if_true]
      omega
    · exact fun _ => ha.intena (.inl (List.ne_nil_of_mem hl))
  refine ⟨⟨hi.seats, hi.scheds, fun l' => ?_, fun l' h₁ h₂ hx hy => ?_⟩, fun h' => ?_⟩
  · simp only [hmem]
    by_cases hl' : l' = l
    · subst hl'
      simp [Mach.unlock]
    · have hlk : (m.unlock h l).locked l' = m.locked l' := Function.update_of_ne hl' _ _
      rw [hlk, hi.locked l']
      constructor
      · rintro ⟨h', hx⟩
        exact ⟨h', hl', hx⟩
      · rintro ⟨h', _, hx⟩
        exact ⟨h', hx⟩
  · exact hi.unique l' h₁ h₂ ((hmem l' h₁).1 hx).2 ((hmem l' h₂).1 hy).2
  · by_cases hne : h' = h
    · rw [hne]
      exact hk
    · exact (hi.others h' hne).elsewhere (unlock_elsewhere m h l) hne

end Mach

end KernelHobby
