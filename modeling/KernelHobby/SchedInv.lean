import KernelHobby.Sched

namespace KernelHobby
set_option autoImplicit true

namespace Sys
variable {H : Type} {s s' : Sys H} {h h' : H} {p q : Slot}

@[simp] theorem setProc_lock : (s.setProc p x).lock = s.lock := rfl
@[simp] theorem setProc_proc : (s.setProc p x).proc = Function.update s.proc p x := rfl
@[simp] theorem setProc_cpuProc : (s.setProc p x).cpuProc = s.cpuProc := rfl
@[simp] theorem setProc_satp : (s.setProc p x).satp = s.satp := rfl
@[simp] theorem setProc_kernelPt : (s.setProc p x).kernelPt = s.kernelPt := rfl
@[simp] theorem setProc_ctl : (s.setProc p x).ctl = s.ctl := rfl

/-- The hart runs this process in the address space of the process. -/
def OnCpu (s : Sys H) (h : H) (p : Slot) : Prop :=
  s.cpuProc h = some p ∧ (s.proc p).state = .running ∧ s.satp h = (s.proc p).pagetable

/-- A hart that does not hold the lock. -/
def Outside (s : Sys H) (h : H) : Prop :=
  s.ctl h = .idle ∧ s.cpuProc h = none ∧ s.satp h = s.kernelPt ∨
    s.ctl h = .user ∧ ∃ p, s.OnCpu h p

/-- The hart that holds the lock. -/
inductive Inside (s : Sys H) (h : H) : Prop where
  | scan : s.ctl h = .scan → s.cpuProc h = none → s.satp h = s.kernelPt → Inside s h
  | back (p : Slot) : s.ctl h = .back → s.cpuProc h = some p → (s.proc p).state ≠ .running →
      Inside s h
  | proc (p : Slot) : s.OnCpu h p →
      s.ctl h = .resume ∨ s.ctl h = .wait ∨ (∃ n i, s.ctl h = .read n i) → Inside s h

def Live (s : Sys H) (p : Slot) : Prop := (s.proc p).state ≠ .unused

/-- No page table has two owners. -/
structure Tables (s : Sys H) : Prop where
  distinct : ∀ p q, p ≠ q → s.Live p → s.Live q →
    (s.proc p).pagetable = (s.proc q).pagetable → (s.proc p).pagetable = 0
  kernel : ∀ p, s.Live p → (s.proc p).pagetable ≠ s.kernelPt

structure SchedInv (s : Sys H) : Prop where
  holder : ∀ h, s.lock = some h → s.Inside h
  others : ∀ h, s.lock ≠ some h → s.Outside h
  once : ∀ h h' p, s.cpuProc h = some p → s.cpuProc h' = some p → h = h'
  running : ∀ p, (s.proc p).state = .running → ∃ h, s.cpuProc h = some p
  tables : s.Tables
  kernel : s.kernelPt ≠ 0

/-- The lock is free or the hart's own. -/
def MayAct (s : Sys H) (h : H) : Prop := s.lock = none ∨ s.lock = some h

/-- What a step of hart `h` may do to the processes: those that run on other harts stay as
they are, and only a process of its own starts or stops running. -/
structure ProcsKept (s s' : Sys H) (h : H) : Prop where
  kept : ∀ p, s.cpuProc h ≠ some p → (s.proc p).state = .running →
    (s'.proc p).state = .running ∧ (s'.proc p).pagetable = (s.proc p).pagetable
  started : ∀ p, (s'.proc p).state = .running → (s.proc p).state = .running ∨
    s'.cpuProc h = some p
  stopped : ∀ p, s.cpuProc h = some p → (s'.proc p).state = .running → s'.cpuProc h = some p
  taken : ∀ p, s'.cpuProc h = some p → s.cpuProc h = some p ∨ (s.proc p).state ≠ .running

/-- The other harts are left alone. -/
structure HartsKept (s s' : Sys H) (h : H) : Prop where
  ctl : ∀ h', h' ≠ h → s'.ctl h' = s.ctl h'
  cpuProc : ∀ h', h' ≠ h → s'.cpuProc h' = s.cpuProc h'
  satp : ∀ h', h' ≠ h → s'.satp h' = s.satp h'
  kernelPt : s'.kernelPt = s.kernelPt

theorem MayAct.ne (hl : s.MayAct h) (hne : h' ≠ h) : s.lock ≠ some h' := by
  rcases hl with hl | hl
  · rw [hl]
    exact nofun
  · rw [hl]
    exact fun he => hne (Option.some.inj he).symm

theorem SchedInv.other_onCpu (hi : s.SchedInv) (hl : s.MayAct h) (hne : h' ≠ h)
    (hp : s.cpuProc h' = some p) : s.ctl h' = .user ∧ s.OnCpu h' p := by
  rcases hi.others h' (hl.ne hne) with ⟨_, hc, _⟩ | ⟨hu, q, hq⟩
  · rw [hc] at hp
    cases hp
  · obtain rfl : q = p := Option.some.inj (hq.1.symm.trans hp)
    exact ⟨hu, hq⟩

/-- The invariant after a step, from what the step does at its own hart. -/
theorem SchedInv.change (hi : s.SchedInv) (hl : s.MayAct h) (hl' : s'.MayAct h)
    (hh : HartsKept s s' h) (hp : ProcsKept s s' h)
    (hin : s'.lock = some h → s'.Inside h) (hout : s'.lock = none → s'.Outside h)
    (ht : s'.Tables) : s'.SchedInv where
  holder := by
    intro h' hlk
    rcases hl' with hn | hn
    · rw [hn] at hlk
      cases hlk
    · obtain rfl : h = h' := Option.some.inj (hn.symm.trans hlk)
      exact hin hn
  others := by
    intro h' hlk
    by_cases hne : h' = h
    · subst hne
      rcases hl' with hn | hn
      · exact hout hn
      · exact absurd hn hlk
    rcases hi.others h' (hl.ne hne) with ⟨hc, hn, hs⟩ | ⟨hc, p, hon⟩
    · exact .inl ⟨by rw [hh.ctl h' hne, hc], by rw [hh.cpuProc h' hne, hn],
        by rw [hh.satp h' hne, hs, hh.kernelPt]⟩
    · have hnp : s.cpuProc h ≠ some p := fun he => hne (hi.once h' h p hon.1 he)
      obtain ⟨hrun, hpt⟩ := hp.kept p hnp hon.2.1
      exact .inr ⟨by rw [hh.ctl h' hne, hc], p, by rw [hh.cpuProc h' hne, hon.1], hrun,
        by rw [hh.satp h' hne, hon.2.2, hpt]⟩
  once := by
    -- a process taken over by `h` ran on no other hart
    have hfresh (h' : H) (p : Slot) (hne : h' ≠ h) (hq : s'.cpuProc h = some p) :
        s.cpuProc h' ≠ some p := by
      intro hq'
      rcases hp.taken p hq with ho | ho
      · exact hne (hi.once h' h p hq' ho)
      · exact ho (hi.other_onCpu hl hne hq').2.2.1
    intro h₁ h₂ p h₁p h₂p
    by_cases e₁ : h₁ = h
    · by_cases e₂ : h₂ = h
      · rw [e₁, e₂]
      · rw [hh.cpuProc h₂ e₂] at h₂p
        exact absurd h₂p (hfresh h₂ p e₂ (e₁ ▸ h₁p))
    · rw [hh.cpuProc h₁ e₁] at h₁p
      by_cases e₂ : h₂ = h
      · exact absurd h₁p (hfresh h₁ p e₁ (e₂ ▸ h₂p))
      · rw [hh.cpuProc h₂ e₂] at h₂p
        exact hi.once h₁ h₂ p h₁p h₂p
  running := by
    intro p hrun
    rcases hp.started p hrun with ho | ho
    · obtain ⟨h₀, h₀p⟩ := hi.running p ho
      by_cases e : h₀ = h
      · subst e
        exact ⟨h₀, hp.stopped p h₀p hrun⟩
      · exact ⟨h₀, by rw [hh.cpuProc h₀ e, h₀p]⟩
    · exact ⟨h, ho⟩
  tables := ht
  kernel := by
    rw [hh.kernelPt]
    exact hi.kernel

/-- Page tables stay distinct when no process gets another one. -/
theorem Tables.mono (ht : s.Tables) (hk : s'.kernelPt = s.kernelPt)
    (hp : ∀ p, s'.Live p → s.Live p ∧ (s'.proc p).pagetable = (s.proc p).pagetable) :
    s'.Tables where
  distinct := by
    intro p q hne hlp hlq he
    obtain ⟨h₁, e₁⟩ := hp p hlp
    obtain ⟨h₂, e₂⟩ := hp q hlq
    rw [e₁, e₂] at he
    rw [e₁]
    exact ht.distinct p q hne h₁ h₂ he
  kernel := by
    intro p hlp
    obtain ⟨h₁, e₁⟩ := hp p hlp
    rw [e₁, hk]
    exact ht.kernel p h₁

/-- Steps that touch the processes of the table only where they do not run. -/
theorem ProcsKept.of_running (hc : s'.cpuProc h = s.cpuProc h)
    (hp : ∀ p, s.cpuProc h ≠ some p → ((s'.proc p).state = .running ↔ (s.proc p).state = .running) ∧
      ((s.proc p).state = .running → (s'.proc p).pagetable = (s.proc p).pagetable)) :
    ProcsKept s s' h where
  kept := fun p hne hr => ⟨(hp p hne).1.2 hr, (hp p hne).2 hr⟩
  started := by
    intro p hr
    by_cases he : s.cpuProc h = some p
    · exact .inr (hc.trans he)
    · exact .inl ((hp p he).1.1 hr)
  stopped := fun p he _ => hc.trans he
  taken := fun p he => .inl (hc.symm.trans he)

/-- Steps of a hart that runs a process and keeps it as its own. -/
theorem SchedInv.own (hi : s.SchedInv) (hl : s.MayAct h) (hl' : s'.MayAct h)
    (hh : HartsKept s s' h) (hc : s'.cpuProc h = s.cpuProc h)
    (hp : ∀ q, s.cpuProc h ≠ some q → ((s'.proc q).state = .running ↔ (s.proc q).state = .running))
    (ht : ∀ q, s'.Live q → s.Live q ∧ (s'.proc q).pagetable = (s.proc q).pagetable)
    (hin : s'.lock = some h → s'.Inside h) (hout : s'.lock = none → s'.Outside h) :
    s'.SchedInv := by
  refine hi.change hl hl' hh (.of_running hc ?_) hin hout (hi.tables.mono hh.kernelPt ht)
  intro q hq
  refine ⟨hp q hq, ?_⟩
  intro hr
  have hr' := (hp q hq).2 hr
  refine (ht q ?_).2
  rw [Live, hr']
  decide

theorem SchedInv.holder_onCpu (hi : s.SchedInv) (hl : s.lock = some h) (hc : s.cpuProc h = some p)
    (hb : s.ctl h ≠ .back) : s.OnCpu h p := by
  cases hi.holder h hl with
  | scan _ hn _ =>
    rw [hn] at hc
    cases hc
  | back _ hb' _ _ => exact absurd hb' hb
  | proc q hq _ =>
    obtain rfl : q = p := Option.some.inj (hq.1.symm.trans hc)
    exact hq

theorem SchedInv.locked (hi : s.SchedInv) (h₁ : s.ctl h ≠ .idle) (h₂ : s.ctl h ≠ .user) :
    s.lock = some h := by
  by_contra hl
  rcases hi.others h hl with ⟨hc, _⟩ | ⟨hc, _⟩
  · exact h₁ hc
  · exact h₂ hc

theorem SchedInv.user_onCpu (hi : s.SchedInv) (hl : s.lock = none) (hc : s.cpuProc h = some p) :
    s.OnCpu h p := by
  rcases hi.others h (by rw [hl]; exact nofun) with ⟨_, hn, _⟩ | ⟨_, q, hq⟩
  · rw [hn] at hc
    cases hc
  · obtain rfl : q = p := Option.some.inj (hq.1.symm.trans hc)
    exact hq

theorem OnCpu.live (hon : s.OnCpu h p) : (s.proc p).state ≠ .unused := by
  rw [hon.2.1]
  decide

theorem inUse_false (hu : s.inUse pt = false) :
    pt ≠ s.kernelPt ∧ ∀ q, s.Live q → (s.proc q).pagetable ≠ pt := by
  simp only [inUse, Bool.or_eq_false_iff, decide_eq_false_iff_not, List.any_eq_false,
    List.mem_finRange, forall_const, Bool.and_eq_true, decide_eq_true_eq, not_and] at hu
  exact hu

/-- Steps that leave the harts alone and neither start nor stop a process. -/
theorem SchedInv.procs (hi : s.SchedInv) (h₁ : s'.lock = s.lock) (h₂ : s'.kernelPt = s.kernelPt)
    (h₃ : s'.cpuProc = s.cpuProc) (h₄ : s'.satp = s.satp) (h₅ : s'.ctl = s.ctl)
    (hp : ∀ q, (s'.proc q).state = .running ↔ (s.proc q).state = .running)
    (ht : ∀ q, s'.Live q → s.Live q ∧ (s'.proc q).pagetable = (s.proc q).pagetable) :
    s'.SchedInv := by
  have hon {h : H} {p : Slot} (ho : s.OnCpu h p) : s'.OnCpu h p := by
    have hr := (hp p).2 ho.2.1
    have hlive : s'.Live p := by
      rw [Live, hr]
      exact ProcState.noConfusion
    exact ⟨by rw [h₃, ho.1], hr, by rw [h₄, ho.2.2, (ht p hlive).2]⟩
  refine ⟨?_, ?_, ?_, ?_, hi.tables.mono h₂ ht, h₂ ▸ hi.kernel⟩
  · intro h hl
    rw [h₁] at hl
    cases hi.holder h hl with
    | scan hc hn hk => exact .scan (by rw [h₅, hc]) (by rw [h₃, hn]) (by rw [h₄, hk, h₂])
    | back p hc hcp hr => exact .back p (by rw [h₅, hc]) (by rw [h₃, hcp]) fun he => hr ((hp p).1 he)
    | proc p ho hc => exact .proc p (hon ho) (by rw [h₅]; exact hc)
  · intro h hl
    rw [h₁] at hl
    rcases hi.others h hl with ⟨hc, hn, hk⟩ | ⟨hc, p, ho⟩
    · exact .inl ⟨by rw [h₅, hc], by rw [h₃, hn], by rw [h₄, hk, h₂]⟩
    · exact .inr ⟨by rw [h₅, hc], p, hon ho⟩
  · rw [h₃]
    exact hi.once
  · rw [h₃]
    intro p hr
    exact hi.running p ((hp p).1 hr)

section Steps
variable [DecidableEq H]

@[simp] theorem inside_lock : (s.inside h c).lock = some h := rfl
@[simp] theorem inside_proc : (s.inside h c).proc = s.proc := rfl
@[simp] theorem inside_cpuProc : (s.inside h c).cpuProc = s.cpuProc := rfl
@[simp] theorem inside_satp : (s.inside h c).satp = s.satp := rfl
@[simp] theorem inside_kernelPt : (s.inside h c).kernelPt = s.kernelPt := rfl
@[simp] theorem inside_ctl : (s.inside h c).ctl = Function.update s.ctl h c := rfl
@[simp] theorem release_lock : (s.release h c).lock = none := rfl
@[simp] theorem release_proc : (s.release h c).proc = s.proc := rfl
@[simp] theorem release_cpuProc : (s.release h c).cpuProc = s.cpuProc := rfl
@[simp] theorem release_satp : (s.release h c).satp = s.satp := rfl
@[simp] theorem release_kernelPt : (s.release h c).kernelPt = s.kernelPt := rfl
@[simp] theorem release_ctl : (s.release h c).ctl = Function.update s.ctl h c := rfl

theorem wakeup_spec (proc : Slot → Proc) (c : Chan) (q : Slot) :
    ((wakeup proc c q).state = .running ↔ (proc q).state = .running) ∧
      ((wakeup proc c q).state = .unused ↔ (proc q).state = .unused) ∧
      (wakeup proc c q).pagetable = (proc q).pagetable := by
  rw [wakeup]
  split
  · rename_i hs
    simp [hs.1]
  · simp

theorem wakeParent_spec (proc : Slot → Proc) (o : Option Slot) (q : Slot) :
    ((wakeParent proc o q).state = .running ↔ (proc q).state = .running) ∧
      ((wakeParent proc o q).state = .unused ↔ (proc q).state = .unused) ∧
      (wakeParent proc o q).pagetable = (proc q).pagetable := by
  cases o with
  | some p => exact wakeup_spec proc (.proc p) q
  | none => exact ⟨Iff.rfl, Iff.rfl, rfl⟩

theorem hartsKept_inside : HartsKept s (s.inside h c) h where
  ctl := fun _ hne => Function.update_of_ne hne _ _
  cpuProc := fun _ _ => rfl
  satp := fun _ _ => rfl
  kernelPt := rfl

theorem hartsKept_release : HartsKept s (s.release h c) h where
  ctl := fun _ hne => Function.update_of_ne hne _ _
  cpuProc := fun _ _ => rfl
  satp := fun _ _ => rfl
  kernelPt := rfl

/-- Go on inside the critical section with the process of the hart still running. -/
theorem SchedInv.inside (hi : s.SchedInv) (hl : s.MayAct h) (hon : s.OnCpu h p)
    (hc : c = .resume ∨ c = .wait ∨ ∃ n i, c = .read n i) : (s.inside h c).SchedInv := by
  refine hi.own hl (.inr rfl) hartsKept_inside rfl (fun _ _ => Iff.rfl) (fun q hq => ⟨hq, rfl⟩) ?_
    (by simp)
  intro _
  refine .proc p hon ?_
  simpa using hc

theorem SchedInv.release (hi : s.SchedInv) (hl : s.MayAct h) (hon : s.OnCpu h p) :
    (s.release h .user).SchedInv := by
  refine hi.own hl (.inl rfl) hartsKept_release rfl (fun _ _ => Iff.rfl) (fun q hq => ⟨hq, rfl⟩)
    (by simp) ?_
  intro _
  exact .inr ⟨by simp, p, hon⟩

/-- Give the hart back to the scheduler, with the process no longer running. -/
theorem SchedInv.leave (hi : s.SchedInv) (hl : s.MayAct h) (hon : s.OnCpu h p)
    (hp : (t p).state ≠ .running)
    (hq : ∀ q, q ≠ p → ((t q).state = .running ↔ (s.proc q).state = .running))
    (ht : ∀ q, (t q).state ≠ .unused →
      (s.proc q).state ≠ .unused ∧ (t q).pagetable = (s.proc q).pagetable) :
    (({ s with proc := t } : Sys H).inside h .back).SchedInv := by
  refine hi.own hl (.inr rfl) ⟨fun _ hne => Function.update_of_ne hne _ _, fun _ _ => rfl,
    fun _ _ => rfl, rfl⟩ rfl ?_ ht ?_ (by simp)
  · intro q hne
    exact hq q fun he => hne (he ▸ hon.1)
  · intro _
    exact .back p (by simp) hon.1 hp

/-- A change of the hart's own process that takes it off the hart. -/
theorem SchedInv.leave_update (hi : s.SchedInv) (hl : s.MayAct h) (hon : s.OnCpu h p)
    (hx : x.state ≠ .running) (hpt : x.pagetable = (s.proc p).pagetable) :
    ((s.setProc p x).inside h .back).SchedInv := by
  refine hi.leave hl hon (by rw [Function.update_self]; exact hx) ?_ ?_
  · intro q hq
    rw [Function.update_of_ne hq]
  · intro q hq
    by_cases he : q = p
    · subst he
      rw [Function.update_self]
      exact ⟨hon.live, hpt⟩
    · rw [Function.update_of_ne he] at hq ⊢
      exact ⟨hq, rfl⟩

theorem SchedInv.yield (hi : s.SchedInv) (hl : s.lock = none) (hon : s.OnCpu h p) :
    (s.yield h p).SchedInv := by
  apply hi.leave_update (.inl hl) hon
  · simp only [hon.2.1, ↓reduceIte]
    exact ProcState.noConfusion
  · rfl

theorem SchedInv.sleep (hi : s.SchedInv) (hl : s.lock = some h) (hon : s.OnCpu h p) :
    (s.sleep h p c r).SchedInv := by
  apply hi.leave_update (.inr hl) hon
  · exact ProcState.noConfusion
  · rfl

theorem SchedInv.procExit (hi : s.SchedInv) (hl : s.lock = none) (hon : s.OnCpu h p) :
    (s.procExit h p).SchedInv := by
  -- waking the parent neither starts nor stops a process
  have hw := wakeParent_spec s.proc (s.proc p).parent
  refine hi.leave (.inl hl) hon ?_ ?_ ?_
  · rw [Function.update_self]
    exact ProcState.noConfusion
  · intro q hq
    rw [Function.update_of_ne hq]
    exact (hw q).1
  · intro q hq
    by_cases he : q = p
    · subst he
      rw [Function.update_self]
      exact ⟨hon.live, (hw q).2.2⟩
    · rw [Function.update_of_ne he] at hq ⊢
      exact ⟨fun hu => hq ((hw q).2.1.2 hu), (hw q).2.2⟩

theorem zombieChild_state (hz : zombieChild t p = some q) : (t q).state = .zombie := by
  have h := List.find?_some hz
  simp only [decide_eq_true_eq] at h
  exact h.2

theorem SchedInv.waitStep (hi : s.SchedInv) (hl : s.lock = some h) (hon : s.OnCpu h p) :
    (s.waitStep h p).SchedInv := by
  rw [Sys.waitStep]
  split
  · rename_i q hq
    have hz := zombieChild_state hq
    have hne : p ≠ q := by
      rintro rfl
      rw [hon.2.1] at hz
      cases hz
    refine hi.own (.inr hl) (.inl rfl) ⟨fun _ hne => Function.update_of_ne hne _ _,
      fun _ _ => rfl, fun _ _ => rfl, rfl⟩ rfl ?_ ?_ (by simp) ?_
    · intro r _
      by_cases he : r = q
      · subst he
        simp [Proc.reap, hz]
      · simp [Function.update_of_ne he]
    · intro r hr
      by_cases he : r = q
      · subst he
        simp [Live, Proc.reap] at hr
      · simp only [Live, release_proc, setProc_proc, Function.update_of_ne he] at hr ⊢
        exact ⟨hr, trivial⟩
    · intro _
      refine .inr ⟨by simp, p, hon.1, ?_, ?_⟩
      · simp only [release_proc, setProc_proc, Function.update_of_ne hne]
        exact hon.2.1
      · simp only [release_proc, setProc_proc, Function.update_of_ne hne]
        exact hon.2.2
  · split
    · exact hi.sleep hl hon
    · exact hi.release (.inr hl) hon

theorem SchedInv.readStep (hi : s.SchedInv) (hl : s.lock = some h) (hon : s.OnCpu h p) :
    (s.readStep h p n i).SchedInv := by
  have hi' : ({ s with inR := s.inR + 1 } : Sys H).SchedInv :=
    hi.procs rfl rfl rfl rfl rfl (fun _ => Iff.rfl) fun q hq => ⟨hq, rfl⟩
  rw [Sys.readStep]
  split
  · split
    · exact hi.sleep hl hon
    · dsimp only
      split
      · exact hi'.release (.inr hl) hon
      · exact hi'.inside (.inr hl) hon (.inr (.inr ⟨n, i + 1, rfl⟩))
  · exact hi.release (.inr hl) hon

theorem SchedInv.resumeStep (hi : s.SchedInv) (hl : s.lock = some h) (hon : s.OnCpu h p)
    (hs : s.resumeStep h p = some s') : s'.SchedInv := by
  have hi' : (s.setProc p { s.proc p with chan := .none }).SchedInv := by
    refine hi.procs rfl rfl rfl rfl rfl ?_ ?_
    · intro q
      by_cases he : q = p
      · subst he
        simp
      · simp [Function.update_of_ne he]
    · intro q hq
      by_cases he : q = p
      · subst he
        exact ⟨hon.live, by simp⟩
      · simp only [Live, setProc_proc, Function.update_of_ne he] at hq ⊢
        exact ⟨hq, trivial⟩
  have hon' : (s.setProc p { s.proc p with chan := .none }).OnCpu h p := by
    refine ⟨hon.1, ?_, ?_⟩
    · simpa using hon.2.1
    · simpa using hon.2.2
  rw [Sys.resumeStep] at hs
  split at hs
  · cases hs
    exact hi.release (.inr hl) hon
  · cases hs
    exact hi.release (.inr hl) hon
  · cases hs
    exact hi'.inside (.inr hl) hon' (.inr (.inl rfl))
  · cases hs
    exact hi'.inside (.inr hl) hon' (.inr (.inr ⟨_, _, rfl⟩))
  · cases hs

theorem SchedInv.scanStep (hi : s.SchedInv) (hl : s.lock = some h) (hn : s.cpuProc h = none)
    (hk : s.satp h = s.kernelPt) : (s.scanStep h).SchedInv := by
  rw [Sys.scanStep]
  split
  · rename_i hlt
    dsimp only
    split
    · -- dispatch: the process ran nowhere, since it was runnable
      rename_i hr
      refine hi.change (.inr hl) (.inr rfl) ⟨fun _ hne => Function.update_of_ne hne _ _,
        fun _ hne => Function.update_of_ne hne _ _, fun _ hne => Function.update_of_ne hne _ _, rfl⟩
        ⟨?_, ?_, ?_, ?_⟩ ?_ (by simp) (hi.tables.mono rfl ?_)
      · intro q _ hq
        have hne : q ≠ ⟨s.scanAt h, hlt⟩ := by
          rintro rfl
          rw [hr] at hq
          cases hq
        simp [Function.update_of_ne hne, hq]
      · intro q hq
        by_cases he : q = ⟨s.scanAt h, hlt⟩
        · right
          simp [he]
        · left
          simpa [Function.update_of_ne he] using hq
      · intro q hq
        rw [hn] at hq
        cases hq
      · intro q hq
        right
        simp only [Function.update_self, Option.some.injEq] at hq
        rw [← hq, hr]
        exact ProcState.noConfusion
      · intro _
        exact .proc ⟨s.scanAt h, hlt⟩ ⟨by simp, by simp, by simp⟩ (.inl (by simp))
      · intro q hq
        by_cases he : q = ⟨s.scanAt h, hlt⟩
        · subst he
          refine ⟨?_, by simp⟩
          rw [Live, hr]
          exact ProcState.noConfusion
        · simp only [Live, inside_proc, setProc_proc, Function.update_of_ne he] at hq ⊢
          exact ⟨hq, trivial⟩
    · exact hi.procs rfl rfl rfl rfl rfl (fun _ => Iff.rfl) fun q hq => ⟨hq, rfl⟩
  · refine hi.own (.inr hl) (.inl rfl) hartsKept_release rfl (fun _ _ => Iff.rfl)
      (fun q hq => ⟨hq, rfl⟩) (by simp) ?_
    intro _
    exact .inl ⟨by simp, hn, hk⟩

theorem SchedInv.backStep (hi : s.SchedInv) (hl : s.lock = some h) (hc : s.cpuProc h = some p)
    (hr : (s.proc p).state ≠ .running) : (s.backStep h).SchedInv := by
  refine hi.change (.inr hl) (.inr rfl) ⟨fun _ hne => Function.update_of_ne hne _ _,
    fun _ hne => Function.update_of_ne hne _ _, fun _ hne => Function.update_of_ne hne _ _, rfl⟩
    ⟨fun q _ hq => ⟨hq, rfl⟩, fun q hq => .inl hq, ?_, ?_⟩ ?_ (by simp [Sys.backStep])
    (hi.tables.mono rfl fun q hq => ⟨hq, rfl⟩)
  · intro q hq hrun
    obtain rfl : p = q := Option.some.inj (hc.symm.trans hq)
    exact absurd hrun hr
  · intro q hq
    simp [Sys.backStep] at hq
  · intro _
    exact .scan (by simp [Sys.backStep]) (by simp [Sys.backStep]) (by simp [Sys.backStep])

theorem freeSlot_state (hf : freeSlot t = some q) : (t q).state = .unused := by
  have h := List.find?_some hf
  simpa using h

omit [DecidableEq H] in
theorem SchedInv.procFork (hi : s.SchedInv) (hl : s.lock = none) (hon : s.OnCpu h p)
    (hu : pt = 0 ∨ s.inUse pt = false) : (s.procFork p pt).SchedInv := by
  rw [Sys.procFork]
  split
  · exact hi
  rename_i c hc
  have hst := freeSlot_state hc
  have hne : p ≠ c := by
    rintro rfl
    rw [hon.2.1] at hst
    cases hst
  have hnk : pt ≠ s.kernelPt := by
    rcases hu with rfl | hu
    · exact hi.kernel.symm
    · exact (inUse_false hu).1
  have hfresh (q : Slot) (hq : s.Live q) (he : (s.proc q).pagetable = pt) : pt = 0 := by
    rcases hu with hu | hu
    · exact hu
    · exact absurd he ((inUse_false hu).2 q hq)
  have hlock : s.lock ≠ some h := by
    rw [hl]
    exact nofun
  refine hi.change (.inl hl) (.inl hl) ⟨fun _ _ => rfl, fun _ _ => rfl, fun _ _ => rfl, rfl⟩
    (.of_running rfl ?_) (fun he => absurd he hlock) ?_ ⟨?_, ?_⟩
  · intro q _
    by_cases he : q = c
    · subst he
      simp [hst]
    · simp [Function.update_of_ne he]
  · intro _
    rcases hi.others h hlock with ⟨_, hn, _⟩ | ⟨hcu, q, hq⟩
    · rw [hon.1] at hn
      cases hn
    · obtain rfl : q = p := Option.some.inj (hq.1.symm.trans hon.1)
      refine .inr ⟨hcu, q, hq.1, ?_, ?_⟩
      · simpa [Function.update_of_ne hne] using hq.2.1
      · simpa [Function.update_of_ne hne] using hq.2.2
  · intro a b hab ha hb he
    by_cases hac : a = c
    · subst hac
      have hbc : b ≠ a := hab.symm
      simp only [Live, setProc_proc, Function.update_self, Function.update_of_ne hbc] at hb he ⊢
      exact hfresh b hb he.symm
    · by_cases hbc : b = c
      · subst hbc
        simp only [Live, setProc_proc, Function.update_self, Function.update_of_ne hac] at ha he ⊢
        rw [he]
        exact hfresh a ha he
      · simp only [Live, setProc_proc, Function.update_of_ne hac, Function.update_of_ne hbc]
          at ha hb he ⊢
        exact hi.tables.distinct a b hab ha hb he
  · intro a ha
    by_cases hac : a = c
    · subst hac
      simp only [setProc_proc, Function.update_self]
      exact hnk
    · simp only [Live, setProc_proc, Function.update_of_ne hac] at ha ⊢
      exact hi.tables.kernel a ha

omit [DecidableEq H] in
theorem SchedInv.consoleIntr (hi : s.SchedInv) : (s.consoleIntr c).SchedInv := by
  simp only [Sys.consoleIntr]
  generalize (if c = 13 then 10 else c) = d
  split
  · split
    · exact hi.procs rfl rfl rfl rfl rfl (fun _ => Iff.rfl) fun q hq => ⟨hq, rfl⟩
    · exact hi
  · split
    · exact hi
    · refine hi.procs rfl rfl rfl rfl rfl ?_ ?_
      · intro q
        dsimp only
        split
        · exact (wakeup_spec _ _ _).1
        · exact Iff.rfl
      · intro q hq
        by_cases hd : d = 10
        · simp only [Live, hd, ↓reduceIte] at hq ⊢
          exact ⟨fun he => hq ((wakeup_spec _ _ _).2.1.2 he), (wakeup_spec _ _ _).2.2⟩
        · simp only [Live, hd, ↓reduceIte] at hq ⊢
          exact ⟨hq, trivial⟩

theorem SchedInv.acquire (hi : s.SchedInv) (hl : s.lock = none) (hc : s.ctl h = .idle) :
    ({ s.inside h .scan with scanAt := Function.update s.scanAt h 0 } : Sys H).SchedInv := by
  have hout := hi.others h (by rw [hl]; exact nofun)
  rcases hout with ⟨_, hn, hk⟩ | ⟨hu, _⟩
  · refine hi.own (.inl hl) (.inr rfl) ⟨fun _ hne => Function.update_of_ne hne _ _, fun _ _ => rfl,
      fun _ _ => rfl, rfl⟩ rfl (fun _ _ => Iff.rfl) (fun q hq => ⟨hq, rfl⟩) ?_ (by simp)
    intro _
    exact .scan (by simp) hn hk
  · rw [hc] at hu
    cases hu

/-- The steps of a process start outside of the critical section. -/
theorem SchedInv.step_user (hi : s.SchedInv) (hc : s.ctl h = .user)
    (hs : s.step h a = some s') : s'.SchedInv := by
  cases hp : s.cpuProc h with
  | none =>
    cases a with
    | intr c =>
      simp only [Sys.step, hc] at hs
      split at hs
      · cases hs
        exact hi.consoleIntr
      · cases hs
    | _ => simp [Sys.step, hc, hp] at hs
  | some p =>
    cases a with
    | go => simp [Sys.step, hc] at hs
    | intr c =>
      simp only [Sys.step, hc] at hs
      split at hs
      · cases hs
        exact hi.consoleIntr
      · cases hs
    | yield =>
      simp only [Sys.step, hc, hp] at hs
      split at hs
      · rename_i hl
        cases hs
        exact hi.yield hl (hi.user_onCpu hl hp)
      · cases hs
    | exit =>
      simp only [Sys.step, hc, hp] at hs
      split at hs
      · rename_i hl
        cases hs
        exact hi.procExit hl (hi.user_onCpu hl hp)
      · cases hs
    | wait =>
      simp only [Sys.step, hc, hp] at hs
      split at hs
      · rename_i hl
        cases hs
        exact hi.inside (.inl hl) (hi.user_onCpu hl hp) (.inr (.inl rfl))
      · cases hs
    | read n =>
      simp only [Sys.step, hc, hp] at hs
      split at hs
      · rename_i hl
        cases hs
        exact hi.inside (.inl hl) (hi.user_onCpu hl hp) (.inr (.inr ⟨n, 0, rfl⟩))
      · cases hs
    | fork pt =>
      simp only [Sys.step, hc, hp] at hs
      split at hs
      · rename_i hl
        cases hs
        exact hi.procFork hl.1 (hi.user_onCpu hl.1 hp) hl.2
      · cases hs

/-- Every step keeps the invariant. -/
theorem SchedInv.step (hi : s.SchedInv) (hs : s.step h a = some s') : s'.SchedInv := by
  cases hc : s.ctl h with
  | user => exact hi.step_user hc hs
  | idle =>
    cases a with
    | go =>
      simp only [Sys.step, hc] at hs
      split at hs
      · rename_i hl
        cases hs
        exact hi.acquire hl hc
      · cases hs
    | intr c =>
      simp only [Sys.step, hc] at hs
      split at hs
      · cases hs
        exact hi.consoleIntr
      · cases hs
    | _ => simp [Sys.step, hc] at hs
  | scan =>
    have hl := hi.locked (by rw [hc]; exact nofun) (by rw [hc]; exact nofun)
    cases hi.holder h hl with
    | scan _ hn hks =>
      cases a with
      | go =>
        simp only [Sys.step, hc, Option.some.injEq] at hs
        rw [← hs]
        exact hi.scanStep hl hn hks
      | _ => simp [Sys.step, hc] at hs
    | back _ hb _ _ => rw [hc] at hb; cases hb
    | proc _ _ hb => rw [hc] at hb; simp at hb
  | back =>
    have hl := hi.locked (by rw [hc]; exact nofun) (by rw [hc]; exact nofun)
    cases hi.holder h hl with
    | scan hb _ _ => rw [hc] at hb; cases hb
    | back p _ hcp hr =>
      cases a with
      | go =>
        simp only [Sys.step, hc, Option.some.injEq] at hs
        rw [← hs]
        exact hi.backStep hl hcp hr
      | _ => simp [Sys.step, hc] at hs
    | proc _ _ hb => rw [hc] at hb; simp at hb
  | resume =>
    have hl := hi.locked (by rw [hc]; exact nofun) (by rw [hc]; exact nofun)
    cases a with
    | go =>
      cases hp : s.cpuProc h with
      | none => simp [Sys.step, hc, hp] at hs
      | some p =>
        simp only [Sys.step, hc, hp] at hs
        exact hi.resumeStep hl (hi.holder_onCpu hl hp (by rw [hc]; exact nofun)) hs
    | _ => simp [Sys.step, hc] at hs
  | wait =>
    have hl := hi.locked (by rw [hc]; exact nofun) (by rw [hc]; exact nofun)
    cases a with
    | go =>
      cases hp : s.cpuProc h with
      | none => simp [Sys.step, hc, hp] at hs
      | some p =>
        simp only [Sys.step, hc, hp, Option.some.injEq] at hs
        rw [← hs]
        exact hi.waitStep hl (hi.holder_onCpu hl hp (by rw [hc]; exact nofun))
    | _ => simp [Sys.step, hc] at hs
  | read n i =>
    have hl := hi.locked (by rw [hc]; exact nofun) (by rw [hc]; exact nofun)
    cases a with
    | go =>
      cases hp : s.cpuProc h with
      | none => simp [Sys.step, hc, hp] at hs
      | some p =>
        simp only [Sys.step, hc, hp, Option.some.injEq] at hs
        rw [← hs]
        exact hi.readStep hl (hi.holder_onCpu hl hp (by rw [hc]; exact nofun))
    | _ => simp [Sys.step, hc] at hs

omit [DecidableEq H] in
theorem SchedInv.boot {k t : Nat} (hk : k ≠ 0) (ht : t ≠ k) : (boot k t : Sys H).SchedInv where
  holder := by
    intro h hl
    cases hl
  others := fun h _ => .inl ⟨rfl, rfl, rfl⟩
  once := by
    intro h h' p hp
    cases hp
  running := by
    intro p hp
    exfalso
    revert hp
    simp only [Sys.boot]
    by_cases he : p = .shell
    · rw [he, Function.update_self]
      exact ProcState.noConfusion
    · rw [Function.update_of_ne he]
      exact ProcState.noConfusion
  tables := by
    have hdead (p : Slot) (hl : (Sys.boot k t : Sys H).Live p) : p = .shell := by
      by_contra he
      apply hl
      simp only [Sys.boot]
      rw [Function.update_of_ne he]
      rfl
    refine ⟨?_, ?_⟩
    · intro p q hne hp hq
      exact absurd ((hdead p hp).trans (hdead q hq).symm) hne
    · intro p hp
      rw [hdead p hp]
      simp only [Sys.boot, Function.update_self]
      exact ht
  kernel := hk

theorem Reach.inv {k t : Nat} (hk : k ≠ 0) (ht : t ≠ k) (hr : Reach k t s) : s.SchedInv := by
  induction hr with
  | boot => exact .boot hk ht
  | step h a _ hs ih => exact ih.step hs

end Steps

section Harts
variable [DecidableEq H]

/-- No hart is in the address space of a zombie. -/
theorem SchedInv.zombie_satp (hi : s.SchedInv) (hc : s.ctl h = .wait) (hp : s.cpuProc h = some p)
    (hz : zombieChild s.proc p = some q) (hpt : (s.proc q).pagetable ≠ 0) (h' : H) :
    s.satp h' ≠ (s.proc q).pagetable := by
  have hst := zombieChild_state hz
  have hlive : s.Live q := by
    rw [Live, hst]
    exact ProcState.noConfusion
  have hon {h : H} {r : Slot} (ho : s.OnCpu h r) : s.satp h ≠ (s.proc q).pagetable := by
    intro he
    have hne : q ≠ r := by
      rintro rfl
      rw [ho.2.1] at hst
      cases hst
    exact hpt (hi.tables.distinct q r hne hlive ho.live (he.symm.trans ho.2.2))
  have hl := hi.locked (by rw [hc]; exact nofun) (by rw [hc]; exact nofun)
  by_cases hh : h' = h
  · subst hh
    exact hon (hi.holder_onCpu hl hp (by rw [hc]; exact nofun))
  · rcases hi.others h' (MayAct.ne (.inr hl) hh) with ⟨_, _, hk⟩ | ⟨_, r, hr⟩
    · rw [hk]
      exact (hi.tables.kernel q hlive).symm
    · exact hon hr

/-- With the lock free, every hart is idle in the kernel's address space or runs one process
in that process's own, and every running process runs on one hart; and `proc_wait` never frees
a page table that a hart uses. -/
theorem one_hart_per_process {k t : Nat} (hk : k ≠ 0) (ht : t ≠ k) (hr : Reach k t s) :
    (s.lock = none →
      (∀ h, s.cpuProc h = none ∧ s.satp h = s.kernelPt ∨ ∃ p, s.cpuProc h = some p ∧
        (s.proc p).state = .running ∧ s.satp h = (s.proc p).pagetable) ∧
      (∀ h h' p, s.cpuProc h = some p → s.cpuProc h' = some p → h = h') ∧
      ∀ p, (s.proc p).state = .running → ∃! h, s.cpuProc h = some p) ∧
    ∀ h p q, s.ctl h = .wait → s.cpuProc h = some p → zombieChild s.proc p = some q →
      (s.proc q).pagetable ≠ 0 → ∀ h', s.satp h' ≠ (s.proc q).pagetable := by
  have hi := hr.inv hk ht
  refine ⟨?_, fun h p q hc hp hz hpt h' => hi.zombie_satp hc hp hz hpt h'⟩
  intro hl
  refine ⟨?_, hi.once, ?_⟩
  · intro h
    rcases hi.others h (by rw [hl]; exact nofun) with ⟨_, hn, hs⟩ | ⟨_, p, hp⟩
    · exact .inl ⟨hn, hs⟩
    · exact .inr ⟨p, hp⟩
  · intro p hp
    obtain ⟨h, hh⟩ := hi.running p hp
    exact ⟨h, hh, fun h' hh' => hi.once h' h p hh' hh⟩

/-- The shell forks a child on one hart, which runs and exits on the other, and then waits. -/
def reapRun : List (Bool × Act) :=
  let go (h : Bool) (n : Nat) : List (Bool × Act) := List.replicate n (h, .go)
  go false 3 ++ [(false, .fork 3)] ++ go true 4 ++ [(true, .exit)] ++ go true 8 ++ [(false, .wait)]

def reapState : Sys Bool := ((Sys.boot 1 2 : Sys Bool).run reapRun).getD (Sys.boot 1 2)

theorem one_hart_per_process_reap :
    (reapState.ctl false = .wait ∧ reapState.cpuProc false = some .shell ∧
      zombieChild reapState.proc .shell = some ⟨1, by decide⟩) ∧
      ∀ h', reapState.satp h' ≠ (reapState.proc ⟨1, by decide⟩).pagetable := by
  have hs : (Sys.boot 1 2 : Sys Bool).run reapRun = some reapState := rfl
  have hc : reapState.ctl false = .wait := rfl
  have hp : reapState.cpuProc false = some .shell := rfl
  have hz : zombieChild reapState.proc .shell = some ⟨1, by decide⟩ := by decide
  refine ⟨⟨hc, hp, hz⟩, ?_⟩
  exact (one_hart_per_process (by decide) (by decide) (Reach.boot.run hs)).2 false _ _ hc hp hz
    (by decide)

end Harts

end Sys

end KernelHobby
