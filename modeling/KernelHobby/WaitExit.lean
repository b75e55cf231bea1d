import KernelHobby.Family

namespace KernelHobby
set_option autoImplicit true

namespace Sys
variable {H : Type} [DecidableEq H] {s s' : Sys H} {h : H} {a : Act} {p q c : Slot}
  {es : List Event}

/-- No process sleeps in `proc_wait` while it has a child to reap. -/
def NoLostExit (t : Slot → Proc) : Prop := ∀ p q,
  (t p).state = .sleeping → (t p).chan = .proc p → (t q).parent = some p → (t q).state ≠ .zombie

/-- A process that neither is a zombie now nor sleeps in `proc_wait` does no harm. -/
theorem NoLostExit.update (ht : NoLostExit t) (hz : x.state ≠ .zombie)
    (hx : x.state ≠ .sleeping ∨ x.chan ≠ .proc p) : NoLostExit (Function.update t p x) := by
  intro r q hst hch hpar hq
  have hrp : r ≠ p := by
    rintro rfl
    rw [Function.update_self] at hst hch
    rcases hx with hx | hx
    · exact hx hst
    · exact hx hch
  have hqp : q ≠ p := by
    rintro rfl
    rw [Function.update_self] at hq
    exact hz hq
  rw [Function.update_of_ne hrp] at hst hch
  rw [Function.update_of_ne hqp] at hpar hq
  exact ht r q hst hch hpar hq

theorem wakeup_kept (t : Slot → Proc) (c : Chan) (q : Slot) :
    (wakeup t c q).chan = (t q).chan ∧ (wakeup t c q).parent = (t q).parent ∧
      ((wakeup t c q).state = .zombie ↔ (t q).state = .zombie) ∧
      ((wakeup t c q).state = .sleeping ↔ (t q).state = .sleeping ∧ (t q).chan ≠ c) := by
  rw [KernelHobby.wakeup]
  split
  · rename_i hs
    simp [hs.1, hs.2]
  · rename_i hs
    simp only [not_and] at hs
    exact ⟨rfl, rfl, Iff.rfl, fun h => ⟨h, hs h⟩, fun h => h.1⟩

theorem wakeParent_kept (t : Slot → Proc) (o : Option Slot) (q : Slot) :
    (wakeParent t o q).chan = (t q).chan ∧ (wakeParent t o q).parent = (t q).parent ∧
      ((wakeParent t o q).state = .zombie ↔ (t q).state = .zombie) ∧
      ((wakeParent t o q).state = .sleeping →
        (t q).state = .sleeping ∧ ∀ r, o = some r → (t q).chan ≠ .proc r) := by
  cases o with
  | some r =>
    obtain ⟨hc, hp, hz, hs⟩ := wakeup_kept t (.proc r) q
    refine ⟨hc, hp, hz, ?_⟩
    intro h
    refine ⟨(hs.1 h).1, ?_⟩
    rintro u hu
    cases hu
    exact (hs.1 h).2
  | none =>
    refine ⟨rfl, rfl, Iff.rfl, ?_⟩
    intro h
    refine ⟨h, ?_⟩
    intro r hr
    cases hr

theorem NoLostExit.wakeup (ht : NoLostExit t) (c : Chan) : NoLostExit (wakeup t c) := by
  intro p q hst hch hpar hq
  obtain ⟨hc, _, _, hs⟩ := wakeup_kept t c p
  obtain ⟨_, hp, hz, _⟩ := wakeup_kept t c q
  rw [hc] at hch
  rw [hp] at hpar
  exact ht p q (hs.1 hst).1 hch hpar (hz.1 hq)

omit [DecidableEq H] in
theorem NoLostExit.intr (ht : NoLostExit s.proc) (hs : Keyed s d s') : NoLostExit s'.proc := by
  cases hs with
  | newline _ _ => exact ht.wakeup .inbuf
  | _ => exact ht

/-- `proc_exit` wakes the parent before the process turns into a zombie. -/
theorem NoLostExit.procExit (ht : NoLostExit s.proc) : NoLostExit (s.procExit h p).proc := by
  simp only [Sys.procExit, inside_proc]
  intro r q hst hch hpar hq
  have hrp : r ≠ p := by
    rintro rfl
    rw [Function.update_self] at hst
    cases hst
  rw [Function.update_of_ne hrp] at hst hch
  obtain ⟨hcr, _, _, hsr⟩ := wakeParent_kept s.proc (s.proc p).parent r
  obtain ⟨_, hpq, hzq, _⟩ := wakeParent_kept s.proc (s.proc p).parent q
  rw [hcr] at hch
  by_cases hqp : q = p
  · subst hqp
    rw [Function.update_self] at hpar
    exact (hsr hst).2 r (hpq.symm.trans hpar) hch
  · rw [Function.update_of_ne hqp] at hpar hq
    rw [hpq] at hpar
    exact ht r q (hsr hst).1 hch hpar (hzq.1 hq)

theorem zombieChild_none (hz : zombieChild t p = none) (hq : (t q).parent = some p) :
    (t q).state ≠ .zombie := by
  intro hst
  have hno := List.find?_eq_none.1 hz q (List.mem_finRange q)
  simp [hq, hst] at hno

theorem NoLostExit.step (ht : NoLostExit s.proc) (hi : s.SchedInv) (hs : Step s h a s') :
    NoLostExit s'.proc := by
  cases hs with
  | dispatch p hc hst => exact ht.update ProcState.noConfusion (.inl ProcState.noConfusion)
  | toWait p hc hp _ =>
    have hr := (hi.working (by rw [hc]; exact Ctl.noConfusion) hp).2.1
    refine ht.update ?_ (.inr Chan.noConfusion)
    rw [hr]
    exact ProcState.noConfusion
  | toRead p n i hc hp _ =>
    have hr := (hi.working (by rw [hc]; exact Ctl.noConfusion) hp).2.1
    refine ht.update ?_ (.inr Chan.noConfusion)
    rw [hr]
    exact ProcState.noConfusion
  | reap p q hc hp hz => exact ht.update ProcState.noConfusion (.inl ProcState.noConfusion)
  | waitSleep p hc hp hz hk =>
    -- asleep only when the table has no zombie child
    intro r q hst hch hpar
    simp only [Sys.sleep, inside_proc, setProc_proc] at hst hch hpar ⊢
    by_cases hqp : q = p
    · rw [hqp, Function.update_self]
      exact ProcState.noConfusion
    · rw [Function.update_of_ne hqp] at hpar ⊢
      by_cases hrp : r = p
      · exact zombieChild_none hz (hrp ▸ hpar)
      · rw [Function.update_of_ne hrp] at hst hch
        exact ht r q hst hch hpar
  | readSleep p n i hc hp _ _ => exact ht.update ProcState.noConfusion (.inr Chan.noConfusion)
  | yield p hc hp hl =>
    have hr := (hi.working (by rw [hc]; exact Ctl.noConfusion) hp).2.1
    simp only [Sys.yield, inside_proc, setProc_proc, hr, if_true]
    exact ht.update ProcState.noConfusion (.inl ProcState.noConfusion)
  | exit p hc hp hl => exact ht.procExit
  | fork p c pt hc hp hl hf => exact ht.update ProcState.noConfusion (.inl ProcState.noConfusion)
  | intr c hc hl => exact ht.intr (.intr s c)
  | _ => exact ht

omit [DecidableEq H] in
theorem childless_event (hp : s.cpuProc h = some p) (he : .childless b ∈ s.event h a) (q : Slot) :
    (s.proc q).parent ≠ some p := by
  simp only [event, hp] at he
  split at he
  · split at he
    · simp at he
    · cases he
  · rename_i hp'
    obtain rfl := Option.some.inj hp'
    split at he
    · simp at he
    · split at he
      · cases he
      · rename_i hk
        simp only [hasChild, List.any_eq_true, decide_eq_true_eq, not_exists, not_and] at hk
        exact hk q (List.mem_finRange q)
  · cases he

theorem run_pids (hi : s.SchedInv) (hp : s.Pids es) (hn : NoLostExit s.proc)
    (hr : s.run as = some s') : s'.Pids (es ++ s.events as) ∧ NoLostExit s'.proc := by
  induction as generalizing s es with
  | nil =>
    cases hr
    rw [events, List.append_nil]
    exact ⟨hp, hn⟩
  | cons x as ih =>
    obtain ⟨u, hu, hr⟩ := Option.bind_eq_some_iff.1 hr
    have hs := Step.of_step hu
    simp only [events, hu]
    rw [← List.append_assoc]
    exact ih (hi.step hu) (hp.step (.of_step hi hs)) (hn.step hi hs) hr

/-- With the lock free no process sleeps in `proc_wait` over a zombie child, no zombie is reaped
twice, and `proc_wait` returns -1 only to a process without children. -/
theorem no_lost_exit {k t : Nat} (hk : k ≠ 0) (ht : t ≠ k)
    (hr : (boot k t : Sys H).run as = some s) :
    (s.lock = none → ∀ p q, (s.proc p).state = .sleeping → (s.proc p).chan = .proc p →
      (s.proc q).parent = some p → (s.proc q).state ≠ .zombie) ∧
    (((boot k t : Sys H).events as).filterMap Event.reapedPid).Nodup ∧
    ∀ h a p, s.cpuProc h = some p → .childless (s.proc p).pid ∈ s.event h a →
      ∀ q, (s.proc q).parent ≠ some p := by
  have hboot : NoLostExit (Sys.boot k t : Sys H).proc := by
    intro p q _ _ hq
    rw [(boot_proc k t q).1] at hq
    cases hq
  obtain ⟨hp, hn⟩ := run_pids (.boot hk ht) (.boot k t) hboot hr
  exact ⟨fun _ => hn, hp.nodup, fun h a p hc he => childless_event hc he⟩

theorem no_lost_exit_reap :
    ((boot 1 2 : Sys Bool).events (reapRun ++ [(false, .go)]) = [.forked 1 2, .reaped 1 2]) ∧
      (((boot 1 2 : Sys Bool).events (reapRun ++ [(false, .go)])).filterMap
        Event.reapedPid).Nodup := by
  refine ⟨by decide +kernel, ?_⟩
  have hr : ((boot 1 2 : Sys Bool).run (reapRun ++ [(false, .go)])).isSome := by decide +kernel
  exact (no_lost_exit (by decide) (by decide) (Option.some_get hr).symm).2.1

end Sys

end KernelHobby
