import KernelHobby.MachIntr

namespace KernelHobby
set_option autoImplicit true

open Abs

namespace Mach
variable {H : Type} [DecidableEq H] {m m' : Mach H} {h h' : H} {k : Kind} {σ σ' : Abs}
  {q r : Code} {o : HartOp} {p : Slot} {l : Lock}

/-- A thread that may be left waiting. -/
def Waits (c : Ctx H) : Prop := (TrapTop c → c.mine = some false) ∧ Stacked c.frames

omit [DecidableEq H] in
theorem Steady.hart (hst : m.Steady) (he : Elsewhere m m' h)
    (ht : TrapTop (m'.cur h) → m'.sie h = false ∧ (0 < m'.noff h → (m'.cur h).mine = some false))
    (hf : Stacked (m'.cur h).frames)
    (hs : ∀ p c, m'.seat p = .saved c → m.seat p = .saved c ∨ Waits c) : m'.Steady where
  top h' := by
    by_cases hne : h' = h
    · rw [hne]
      exact ht
    · rw [he.cur h' hne, he.sie h' hne, he.noff h' hne]
      exact hst.top h'
  frames h' := by
    by_cases hne : h' = h
    · rw [hne]
      exact hf
    · rw [he.cur h' hne]
      exact hst.frames h'
  saved p c hp := by
    rcases hs p c hp with hp | hp
    · exact hst.saved p c hp
    · exact hp

omit [DecidableEq H] in
theorem TrapTop.congr {c c' : Ctx H} (hf : c'.frames = c.frames) : TrapTop c' ↔ TrapTop c := by
  simp only [TrapTop, hf]

omit [DecidableEq H] in
theorem not_trapTop {c : Ctx H} (hf : c.frames = []) : ¬ TrapTop c := by
  rintro ⟨f, fs, hx, _⟩
  rw [hf] at hx
  cases hx

theorem Steady.acquire (hst : m.Steady) (ha : m.Agree h k σ)
    (he : eff k σ (.acquire l) = some σ') : (m.pushOff h).Steady := by
  have hp := pushOff_pushed (ha.pushOff he).2
  refine hst.hart hp.elsewhere (fun ht => ⟨hp.sie, fun _ => ?_⟩) ?_ ?_
  · obtain ⟨hoff, hmine⟩ := hst.top h ((TrapTop.congr hp.frames).1 ht)
    rw [hp.mine]
    split
    · rw [hoff]
    · rename_i hz
      refine hmine ?_
      rw [ha.noff] at hz ⊢
      omega
  · rw [hp.frames]
    exact hst.frames h
  · rw [hp.seat]
    exact fun _ _ hx => .inl hx

/-- The step that the condition is about. -/
theorem Steady.popOff (hst : m.Steady) (hb : m.Begun) (ha : m.Agree h k σ)
    (he : eff k σ .popOff = some σ')
    (hc : ∀ b, m.noff h - 1 = 0 → (m.cur h).mine = some b → m.start h = b) :
    (m.popOff h).Steady := by
  have hp := popOff_popped (ha.popOff he).2
  refine hst.hart hp.elsewhere (fun ht => ?_) ?_ ?_
  · obtain ⟨hoff, hmine⟩ := hst.top h ((TrapTop.congr hp.frames).1 ht)
    refine ⟨?_, fun hn => ?_⟩
    · rw [hp.sie, hoff]
      refine if_neg ?_
      rintro ⟨hz, hia⟩
      have hpos : 0 < m.noff h := by omega
      have hs := hc false hz (hmine hpos)
      rw [hb h hpos, hia] at hs
      cases hs
    · rw [hp.noff] at hn
      rw [hp.mine (by omega)]
      exact hmine (by omega)
  · rw [hp.frames]
    exact hst.frames h
  · rw [hp.seat]
    exact fun _ _ hx => .inl hx

theorem Steady.swtch (hi : m.Shared) (hst : m.Steady) (ha : m.Agree h k σ)
    (he : eff k σ .swtch = some σ') (hs : m.swtch h = some m') : m'.Steady := by
  simp only [eff, Option.ite_none_right_eq_some, Option.some.injEq] at he
  obtain ⟨⟨rfl, hh, hm⟩, rfl⟩ := he
  obtain ⟨hn, hsie, htp⟩ := ha.baton hh hm
  simp only [Mach.swtch, htp] at hs
  split at hs
  · cases hs
    exact hst
  · split at hs
    · cases hs
    · rename_i p hp c hsc
      cases hs
      obtain ⟨_, _, hfs, _⟩ := hi.scheds h c hsc
      have hcur : Function.update m.cur h c h = c := Function.update_self ..
      refine hst.hart (switch_elsewhere m h _ _ c _ none) ?_ ?_ (fun p' c' hp' => ?_)
      · simp only [setCur, setSeat, hcur]
        exact fun ht => absurd ht (not_trapTop hfs)
      · simp only [setCur, setSeat, hcur, hfs]
        trivial
      · rcases update_eq (f := m.seat) hp' with hp' | ⟨_, hsv⟩
        · exact .inl hp'
        · cases hsv
          exact .inr ⟨fun ht => (hst.top h ht).2 (by rw [hn]; decide), hst.frames h⟩

theorem Steady.dispatch (hst : m.Steady) (ha : m.Agree h k σ)
    (he : eff k σ .dispatch = some σ') (hs : m.dispatch h p = some m') : m'.Steady := by
  simp only [eff, Option.ite_none_right_eq_some, Option.some.injEq] at he
  obtain ⟨⟨rfl, hh, hm⟩, rfl⟩ := he
  obtain ⟨hn, hsie, htp⟩ := ha.baton hh hm
  simp only [Mach.dispatch] at hs
  split at hs
  · rename_i c hp
    cases hs
    obtain ⟨hmine, hfs⟩ := hst.saved p c hp
    have hcur : Function.update m.cur h c h = c := Function.update_self ..
    refine hst.hart (switch_elsewhere m h p _ c _ _) ?_ ?_ (fun p' c' hp' => ?_)
    · simp only [setCur, setSeat, hcur]
      exact fun ht => ⟨hsie, fun _ => hmine ht⟩
    · simp only [setCur, setSeat, hcur]
      exact hfs
    · rcases update_eq (f := m.seat) hp' with hp' | ⟨_, hsv⟩
      · exact .inl hp'
      · cases hsv
  · cases hs

omit [DecidableEq H] in
theorem Steady.setSeat (hst : m.Steady) (hx : ∀ c, x = .saved c → Waits c) :
    (m.setSeat p x).Steady := by
  refine ⟨hst.top, hst.frames, fun p' c hp' => ?_⟩
  rcases update_eq (f := m.seat) hp' with hp' | ⟨_, hsv⟩
  · exact hst.saved p' c hp'
  · exact hx c hsv

omit [DecidableEq H] in
theorem child_waits (m : Mach H) (h : H) : Waits (m.child h) := by
  cases hf : (m.cur h).frames with
  | nil =>
    have hc : (m.child h).frames = [] := by simp [child, hf]
    refine ⟨fun ht => absurd ht (not_trapTop hc), ?_⟩
    rw [hc]
    trivial
  | cons f fs =>
    have hc : (m.child h).frames = [{ f with code := none, trap := false }] := by simp [child, hf]
    refine ⟨?_, ?_⟩
    · rintro ⟨g, gs, hg, ht⟩
      rw [hc] at hg
      cases hg
      cases ht
    · rw [hc]
      trivial

theorem Steady.exec (hst : m.Steady) (hi : m.Shared) (hb : m.Begun) (ha : m.Agree h k σ)
    (he : eff k σ o = some σ') (ht : Thread h idle k σ' (m.cur h)) (hq : (m.cur h).code = some q)
    (hc : o = .popOff → ∀ b, m.noff h - 1 = 0 → (m.cur h).mine = some b → m.start h = b)
    (hs : m.exec h p o = some m') : m'.Steady := by
  have hel := exec_elsewhere ha he hs
  cases o with
  | acquire l =>
    cases hs
    exact hst.acquire ha he
  | popOff =>
    cases hs
    exact hst.popOff hb ha he (hc rfl)
  | spin l =>
    simp only [Mach.exec] at hs
    split at hs
    · cases hs
    · cases hs
      exact ⟨hst.top, hst.frames, hst.saved⟩
  | unlock l =>
    cases hs
    exact ⟨hst.top, hst.frames, hst.saved⟩
  | intrOn =>
    cases hs
    simp only [eff, Option.ite_none_right_eq_some, Option.some.injEq] at he
    obtain ⟨⟨rfl, _⟩, rfl⟩ := he
    obtain ⟨post, _, hbl⟩ := ht.code hq
    exact hst.hart hel (fun htop => absurd htop (not_trapTop hbl.sched_frame.1)) (hst.frames h)
      fun _ _ hx => .inl hx
  | swtch => exact Steady.swtch hi hst ha he hs
  | dispatch => exact hst.dispatch ha he hs
  | spawn =>
    simp only [Mach.exec] at hs
    split at hs
    · cases hs
      refine hst.setSeat fun c hx => ?_
      cases hx
      exact child_waits m h
    · cases hs
  | reap =>
    simp only [Mach.exec] at hs
    split at hs
    · cases hs
      refine hst.setSeat fun c hx => ?_
      cases hx
    · cases hs
  | user =>
    cases hs
    exact hst
  | sret =>
    cases hs
    refine hst.hart hel (fun htop => absurd htop (not_trapTop ?_)) ?_ fun _ _ hx => .inl hx
    · simp [setSie]
    · simp [setSie, Stacked]

/-- A trap: the handler starts with SIE off, over code that had SIE off if it was a handler. -/
theorem Steady.kernelvec (hst : m.Steady) (hn : TrapTop (m.cur h) ∨ m.noff h = 0) :
    (m.kernelvec h c).Steady := by
  refine hst.hart (kernelvec_elsewhere m h c) (fun _ => ⟨Function.update_self .., fun hp => ?_⟩) ?_
    fun _ _ hx => .inl hx
  · rw [kernelvec_cur]
    have hp' : 0 < m.noff h := hp
    rcases hn with hn | hn
    · exact (hst.top h hn).2 hp'
    · rw [hn] at hp'
      cases hp'
  · rw [kernelvec_cur]
    cases hf : (m.cur h).frames with
    | nil => trivial
    | cons g fs =>
      refine ⟨fun hg => (hst.top h ⟨g, fs, hf, hg⟩).1, ?_⟩
      rw [← hf]
      exact hst.frames h

theorem Steady.trap (hi : m.Inv) (hst : m.Steady)
    (hc : (m.cur h).code = none ∨ c.interrupt = true ∧ m.sie h = true) :
    (m.kernelvec h c).Steady := by
  obtain ⟨k, σ, ht, ha⟩ := hi.harts h
  refine hst.kernelvec (.inr ?_)
  rcases hc with hc | ⟨_, hs⟩
  · rw [Thread, hc] at ht
    exact (ha.released ht.2.1).2
  · exact (ha.released (ha.free hs).2).2

theorem Steady.fault (hi : m.Inv) (hst : m.Steady) (hn : m.nextOp h i = some (.user, r)) :
    (m.kernelvec h .fault).Steady := by
  obtain ⟨q, hc, ho⟩ := nextOp_mem hn
  obtain ⟨k, σ, ht, ha⟩ := hi.harts h
  obtain ⟨post, hw, hb⟩ := ht.code hc
  obtain ⟨σ', he, _⟩ := hw.next ho
  simp only [eff, Option.ite_none_right_eq_some, Option.some.injEq] at he
  exact hst.kernelvec (.inl (hb.trapTop he.1.1))

theorem Steady.trapret (hi : m.Inv) (hst : m.Steady) (hs : m.trapret h = some m') :
    m'.Steady := by
  obtain ⟨q, f, fs, hc, hf, _, rfl⟩ := trapret_cases hs
  obtain ⟨k, σ, ht, ha⟩ := hi.harts h
  obtain ⟨post, _, hb⟩ := ht.code hc
  have hfr := hst.frames h
  rw [hf] at hb hfr
  have hcur : Function.update m.cur h { m.cur h with code := f.code, frames := fs } h =
      { m.cur h with code := f.code, frames := fs } := Function.update_self ..
  refine hst.hart (((setCur_elsewhere m h _).trans (setSie_elsewhere _ h f.sie)).trans
    (setTp_elsewhere _ h f.tp)) ?_ ?_ fun _ _ hx => .inl hx
  · rintro ⟨g, gs, hg, htr⟩
    simp only [setTp, setSie, setCur, hcur] at hg ⊢
    subst hg
    rw [Function.update_self]
    exact ⟨hfr.1 htr, (hst.top h ⟨f, _, hf, hb.trap_of_tail⟩).2⟩
  · simp only [setTp, setSie, setCur, hcur]
    exact hfr.tail

omit [DecidableEq H] in
/-- A hart that goes to user mode, or astray. -/
theorem Steady.away (hst : m.Steady) (he : Elsewhere m m' h) (hf : (m'.cur h).frames = [])
    (hs : m'.seat = m.seat) : m'.Steady := by
  refine hst.hart he (fun ht => absurd ht (not_trapTop hf)) ?_ ?_
  · rw [hf]
    trivial
  · rw [hs]
    exact fun _ _ hx => .inl hx

theorem Steady.step (hi : m.Inv) (hb : m.Begun) (hst : m.Steady) (hs : m.step h a = some m')
    (hc : m.SameStart h a m') : m'.Steady := by
  cases a with
  | op i p =>
    simp only [Mach.step] at hs
    split at hs
    · rename_i o r hn
      obtain ⟨q, hq, ho⟩ := nextOp_mem hn
      obtain ⟨k, σ, σ', ha, he, ht⟩ := hi.next hq ho
      have hcur : (m.setCode h r).cur h = { m.cur h with code := some r } :=
        Function.update_self ..
      have hel : Elsewhere m (m.setCode h r) h := setCur_elsewhere m h _
      have hsh : (m.setCode h r).Shared := ⟨hi.seats, hi.scheds, hi.locked, hi.unique⟩
      have hst₁ : (m.setCode h r).Steady := by
        refine hst.hart hel ?_ ?_ fun _ _ hx => .inl hx
        · rw [hcur]
          exact hst.top h
        · rw [hcur]
          exact hst.frames h
      rw [← hcur] at ht
      refine hst₁.exec hsh hb (ha.setCode r) he ht (q := r) ?_ ?_ hs
      · rw [hcur]
      · rintro rfl b hz hmine
        rw [hcur] at hmine
        refine hc b ?_
        have htp := (ha.popOff he).2
        have hz' : m.noff (m.tp h) - 1 = 0 := by
          rw [htp]
          exact hz
        simp only [ownRelease, hn, if_pos hz']
        exact hmine
    · cases hs
  | trap c =>
    simp only [Mach.step] at hs
    split at hs
    · rename_i htrap
      cases hs
      exact Steady.trap hi hst htrap
    · cases hs
  | fault i =>
    simp only [Mach.step] at hs
    split at hs
    · rename_i r hn
      cases hs
      exact Steady.fault hi hst hn
    · cases hs
  | trapret => exact Steady.trapret hi hst hs
  | lost b t =>
    simp only [Mach.step] at hs
    split at hs
    · rename_i m₁ hm₁
      obtain ⟨q, f, fs, _, _, _, rfl⟩ := trapret_cases hm₁
      split at hs
      · cases hs
        have hret := ((setCur_elsewhere m h { m.cur h with code := f.code, frames := fs }).trans
          (setSie_elsewhere _ h f.sie)).trans (setTp_elsewhere _ h f.tp)
        have hlost := ((hret.trans (setCur_elsewhere _ h ⟨none, [], none⟩)).trans
          (setSie_elsewhere _ h b)).trans (setTp_elsewhere _ h t)
        refine hst.away hlost ?_ rfl
        simp [setTp, setSie]
      · cases hs
    · cases hs
  | drift b t =>
    simp only [Mach.step] at hs
    split at hs
    · rename_i hcode
      cases hs
      obtain ⟨k, σ, ht, ha⟩ := hi.harts h
      rw [Thread, hcode] at ht
      exact hst.away ((setSie_elsewhere m h b).trans (setTp_elsewhere _ h t)) ht.1 rfl
    · cases hs

omit [DecidableEq H] in
theorem Steady.handlersOff (hst : m.Steady) : m.HandlersOff :=
  fun h f fs hf ht => (hst.top h ⟨f, fs, hf, ht⟩).1

omit [DecidableEq H] in
theorem Steady.boot (sie : H → Bool) : (Mach.boot sie).Steady := by
  refine ⟨fun h ht => absurd ht (not_trapTop rfl), fun _ => trivial, fun p c hp => ?_⟩
  rcases update_eq (f := fun _ => Seat.free) hp with hp | ⟨_, hp⟩
  · cases hp
  · cases hp
    exact ⟨fun ht => absurd ht (not_trapTop rfl), trivial⟩

/-- In a run every outermost release of a thread's own `acquire` restores SIE, with SIE off in trap
handlers throughout, exactly if at every such release the critical section on the hart was begun
with SIE as the thread began its own. -/
theorem interrupts_restored_iff (sie : H → Bool) (as : List (H × Act H)) :
    Along (fun m h a m' => m.Restores h a m' ∧ m'.HandlersOff) (boot sie) as ↔
      Along SameStart (boot sie) as := by
  constructor
  · refine Along.mono (fun m => m.Inv ∧ m.Begun) ?_ ⟨Inv.boot sie, nofun⟩
    rintro m h a m' ⟨hi, hb⟩ hs ⟨hr, _⟩
    exact ⟨(restores_iff hi hb hs).1 hr, hi.step hs, hb.step hi hs⟩
  · refine Along.mono (fun m => m.Inv ∧ m.Begun ∧ m.Steady) ?_
      ⟨Inv.boot sie, nofun, Steady.boot sie⟩
    rintro m h a m' ⟨hi, hb, hst⟩ hs hc
    have hst' := Steady.step hi hb hst hs hc
    exact ⟨⟨(restores_iff hi hb hs).2 hc, hst'.handlersOff⟩, hi.step hs, hb.step hi hs, hst'⟩

/-- One hart: the process yields at a timer interrupt, the scheduler releases the lock, turns
interrupts on and takes it again, and the process goes on in `yield`. -/
def yielded : List (Unit × Act Unit) :=
  let go (n : Nat) : List (Unit × Act Unit) := List.replicate n ((), .op 0 .shell)
  go 7 ++ [((), .trap .timer)] ++ go 3 ++ [((), .op 1 .shell)] ++ go 6

/-- `yield` took the lock with SIE off, in the trap handler, and its release turns SIE on there. -/
theorem yield_not_restored : ¬ Along (fun m h a m' => m.Restores h a m' ∧ m'.HandlersOff)
    (boot fun _ : Unit => false) (yielded ++ [((), .op 0 .shell)]) := by
  intro ha
  have hr : ((boot fun _ : Unit => false).run yielded).any (fun m =>
      decide (m.ownRelease () (.op 0 .shell) = some false) &&
        (m.step () (.op 0 .shell)).any fun m' => m'.sie ()) = true := by decide +kernel
  obtain ⟨m, hm, hx⟩ := (Option.any_eq_true _ _).1 hr
  obtain ⟨ho, hx⟩ := Bool.and_eq_true_iff.1 hx
  obtain ⟨m', hm', hsie⟩ := (Option.any_eq_true _ _).1 hx
  have := (ha.at hm hm').1 false (of_decide_eq_true ho)
  rw [this] at hsie
  cases hsie

end Mach

end KernelHobby
