import KernelHobby.WaitExit

namespace KernelHobby
set_option autoImplicit true

/-- Where the loop of the shell is: at the prompt, with a line read, after its fork and until its
wait returns. -/
inductive ShellAt where
  | prompt
  | line
  | forked
  deriving DecidableEq

/-- The calls that the shell makes: it reads lines, most of which it carries out itself, forks for
the others and waits after that. -/
def ShellAt.Calls (l : ShellAt) : Ctl → Act → Prop
  | .user, .read n => n = 127 ∧ l ≠ .forked
  | .user, .fork _ => l = .line
  | .user, .wait => l = .forked
  | .user, .exit => False
  | _, _ => True

instance (l : ShellAt) : (c : Ctl) → (a : Act) → Decidable (l.Calls c a)
  | .user, .read _ => inferInstanceAs (Decidable (_ ∧ _))
  | .user, .fork _ => inferInstanceAs (Decidable (_ = _))
  | .user, .wait => inferInstanceAs (Decidable (_ = _))
  | .user, .exit => inferInstanceAs (Decidable False)
  | .user, .go => .isTrue trivial
  | .user, .yield => .isTrue trivial
  | .user, .intr _ => .isTrue trivial
  | .idle, _ => .isTrue trivial
  | .scan, _ => .isTrue trivial
  | .back, _ => .isTrue trivial
  | .resume, _ => .isTrue trivial
  | .wait, _ => .isTrue trivial
  | .read _ _, _ => .isTrue trivial

namespace Sys
variable {H : Type} [DecidableEq H] {s s' : Sys H} {h : H} {a : Act} {p q r : Slot} {l : ShellAt}

/-- What a step of hart `h` means for the shell. -/
def shellNext (s : Sys H) (h : H) (a : Act) (l : ShellAt) : ShellAt :=
  if s.cpuProc h = some .shell then
    match s.ctl h, a with
    | .user, .read _ => .line
    | .user, .fork _ => .forked
    | .wait, .go =>
      if zombieChild s.proc .shell = none ∧ hasChild s.proc .shell = true then l else .prompt
    | _, _ => l
  else l

def ShellCall (s : Sys H) (l : ShellAt) (h : H) (a : Act) : Prop :=
  s.cpuProc h = some .shell → l.Calls (s.ctl h) a

instance (s : Sys H) (l : ShellAt) (h : H) : DecidablePred (ShellCall s l h) :=
  fun _ => inferInstanceAs (Decidable (_ → _))

/-- What a step does to children, and what a `proc_wait` that returns had. -/
theorem Step.children (hi : s.SchedInv) (hs : Step s h a s') :
    (Kin s.proc s'.proc ∧
      (a = .go → s.ctl h = .wait → ∀ p, s.cpuProc h = some p → zombieChild s.proc p = none)) ∨
    (∃ p c pt, a = .fork pt ∧ s.ctl h = .user ∧ s.cpuProc h = some p ∧
      freeSlot s.proc = some c ∧ (s'.proc c).parent = some p ∧ s'.Live c ∧
      ∀ q, q ≠ c → s'.proc q = s.proc q) ∨
    ∃ p q, a = .go ∧ s.ctl h = .wait ∧ s.cpuProc h = some p ∧ zombieChild s.proc p = some q ∧
      s'.proc = Function.update s.proc q (s.proc q).reap := by
  have hkin (he : ∀ e ∈ s.event h a, ∃ b, e = .childless b) : Kin s.proc s'.proc := by
    have hf := FamilyStep.of_step hi hs
    generalize s.event h a = es at he hf
    cases hf with
    | same _ _ _ _ hk => exact hk
    | fork _ _ _ =>
      obtain ⟨b, hb⟩ := he _ (List.mem_singleton_self _)
      cases hb
    | reap _ _ _ =>
      obtain ⟨b, hb⟩ := he _ (List.mem_singleton_self _)
      cases hb
  have hsame (he : ∀ e ∈ s.event h a, ∃ b, e = .childless b) (hc : s.ctl h ≠ .wait) :
      Kin s.proc s'.proc ∧
        (a = .go → s.ctl h = .wait → ∀ p, s.cpuProc h = some p → zombieChild s.proc p = none) :=
    ⟨hkin he, fun _ hw => absurd hw hc⟩
  cases hs with
  | reap p q hc hp hz => exact .inr (.inr ⟨p, q, rfl, hc, hp, hz, rfl⟩)
  | fork p c pt hc hp hl hf =>
    refine .inr (.inl ⟨p, c, pt, rfl, hc, hp, hf, ?_, ?_, ?_⟩)
    · simp
    · simp [Live]
    · intro q hq
      simp [Function.update_of_ne hq]
  | waitSleep p hc hp hz hk =>
    refine .inl ⟨hkin (by simp [event, hc, hp, hz, hk]), fun _ _ q hq => ?_⟩
    rw [← Option.some.inj (hp.symm.trans hq)]
    exact hz
  | childless p hc hp hz hk =>
    refine .inl ⟨hkin (by simp [event, hc, hp, hz, hk]), fun _ _ q hq => ?_⟩
    rw [← Option.some.inj (hp.symm.trans hq)]
    exact hz
  | acquire hl hc => exact .inl (hsame (by simp [event, hc]) (by simp [hc]))
  | dispatch p hc hst => exact .inl (hsame (by simp [event, hc]) (by simp [hc]))
  | skip hc => exact .inl (hsame (by simp [event, hc]) (by simp [hc]))
  | scanned hc => exact .inl (hsame (by simp [event, hc]) (by simp [hc]))
  | back hc => exact .inl (hsame (by simp [event, hc]) (by simp [hc]))
  | toUser p hc hp _ => exact .inl (hsame (by simp [event, hc]) (by simp [hc]))
  | toWait p hc hp _ => exact .inl (hsame (by simp [event, hc]) (by simp [hc]))
  | toRead p n i hc hp _ => exact .inl (hsame (by simp [event, hc]) (by simp [hc]))
  | readSleep p n i hc hp _ _ => exact .inl (hsame (by simp [event, hc]) (by simp [hc]))
  | readLine p n i hc hp _ _ _ => exact .inl (hsame (by simp [event, hc]) (by simp [hc]))
  | readByte p n i hc hp _ _ _ => exact .inl (hsame (by simp [event, hc]) (by simp [hc]))
  | readFull p n i hc hp _ => exact .inl (hsame (by simp [event, hc]) (by simp [hc]))
  | yield p hc hp hl => exact .inl (hsame (by simp [event]) (by simp [hc]))
  | exit p hc hp hl => exact .inl (hsame (by simp [event]) (by simp [hc]))
  | wait p hc hp hl => exact .inl (hsame (by simp [event]) (by simp [hc]))
  | read p n hc hp hl => exact .inl (hsame (by simp [event]) (by simp [hc]))
  | forkFull p pt hc hp hl hf => exact .inl (hsame (by simp [event, hc, hp, hf]) (by simp [hc]))
  | intr c hc hl =>
    refine .inl (hsame (by simp [event]) ?_)
    rcases hc with hc | hc
    · simp [hc]
    · simp [hc]

/-- A process that sleeps in `proc_wait` slept there before, or goes to sleep over a child. -/
theorem Step.asleep (hi : s.SchedInv) (hs : Step s h a s') (hst : (s'.proc r).state = .sleeping)
    (hch : (s'.proc r).chan = .proc r) :
    (s.proc r).state = .sleeping ∧ (s.proc r).chan = .proc r ∨
      s.cpuProc h = some r ∧ zombieChild s.proc r = none ∧ hasChild s.proc r = true := by
  have hupd {t : Slot → Proc} {p : Slot} {x : Proc} (ht : s'.proc = Function.update t p x)
      (hx : x.state ≠ .sleeping ∨ x.chan ≠ .proc p) :
      (t r).state = .sleeping ∧ (t r).chan = .proc r := by
    by_cases hr : r = p
    · subst hr
      rw [ht, Function.update_self] at hst hch
      exact absurd hch (hx.resolve_left (not_not.2 hst))
    · rw [ht, Function.update_of_ne hr] at hst hch
      exact ⟨hst, hch⟩
  cases hs with
  | dispatch p hc hst' => exact .inl (hupd rfl (.inl ProcState.noConfusion))
  | toWait p hc hp _ => exact .inl (hupd rfl (.inr Chan.noConfusion))
  | toRead p n i hc hp _ => exact .inl (hupd rfl (.inr Chan.noConfusion))
  | reap p q hc hp hz => exact .inl (hupd rfl (.inl ProcState.noConfusion))
  | waitSleep p hc hp hz hk =>
    by_cases hr : r = p
    · rw [hr]
      exact .inr ⟨hp, hz, hk⟩
    · left
      simp only [Sys.sleep, inside_proc, setProc_proc] at hst hch
      rw [Function.update_of_ne hr] at hst hch
      exact ⟨hst, hch⟩
  | readSleep p n i hc hp _ _ => exact .inl (hupd rfl (.inr Chan.noConfusion))
  | yield p hc hp hl =>
    have hr := (hi.working (by rw [hc]; exact Ctl.noConfusion) hp).2.1
    refine .inl (hupd rfl (.inl ?_))
    rw [hr]
    exact ProcState.noConfusion
  | exit p hc hp hl =>
    have hw := hupd rfl (.inl ProcState.noConfusion)
    obtain ⟨hcr, _, _, hsr⟩ := wakeParent_kept s.proc (s.proc p).parent r
    exact .inl ⟨(hsr hw.1).1, hcr ▸ hw.2⟩
  | fork p c pt hc hp hl hf => exact .inl (hupd rfl (.inl ProcState.noConfusion))
  | intr c hc hl =>
    left
    have hk := Keyed.intr s c
    generalize s.consoleIntr c = s₁ at hk hst hch
    cases hk with
    | newline _ _ =>
      obtain ⟨hcr, _, _, hsr⟩ := wakeup_kept s.proc .inbuf r
      exact ⟨(hsr.1 hst).1, hcr ▸ hch⟩
    | _ => exact ⟨hst, hch⟩
  | _ => exact .inl ⟨hst, hch⟩

/-- Children are in use, and each process asleep in `proc_wait` has one. -/
structure Awaited (t : Slot → Proc) : Prop where
  live : ∀ q p, (t q).parent = some p → (t q).state ≠ .unused
  child : ∀ p, (t p).state = .sleeping → (t p).chan = .proc p → ∃ q, (t q).parent = some p

omit [DecidableEq H] in
theorem Awaited.kin (h : Awaited s.proc) (hk : Kin s.proc s'.proc)
    (hch : ∀ p, (s'.proc p).state = .sleeping → (s'.proc p).chan = .proc p →
      ∃ q, (s.proc q).parent = some p) : Awaited s'.proc where
  live q p hq := by
    rw [(hk q).2.2] at hq
    exact (hk q).1.2 (h.live q p hq)
  child p hst hc := by
    obtain ⟨q, hq⟩ := hch p hst hc
    exact ⟨q, (hk q).2.2.trans hq⟩

theorem Awaited.step (h : Awaited s.proc) (hi : s.SchedInv) (hs : Step s i a s') :
    Awaited s'.proc := by
  have hold (p : Slot) (hst : (s'.proc p).state = .sleeping) (hc : (s'.proc p).chan = .proc p) :
      ∃ q, (s.proc q).parent = some p := by
    rcases hs.asleep hi hst hc with ⟨hst, hc⟩ | ⟨_, _, hk⟩
    · exact h.child p hst hc
    · simp only [hasChild, List.any_eq_true, decide_eq_true_eq] at hk
      obtain ⟨q, _, hq⟩ := hk
      exact ⟨q, hq⟩
  rcases hs.children hi with ⟨hk, _⟩ | ⟨p, c, _, _, _, _, hf, hpar, hlive, hkept⟩ |
      ⟨p, q, _, hc, hp, hz, ht⟩
  · exact h.kin hk hold
  · have hfree := freeSlot_state hf
    refine ⟨fun q r hq => ?_, fun r hst hc => ?_⟩
    · by_cases hqc : q = c
      · rw [hqc]
        exact hlive
      · rw [hkept q hqc] at hq ⊢
        exact h.live q r hq
    · obtain ⟨q, hq⟩ := hold r hst hc
      refine ⟨q, ?_⟩
      rw [hkept q fun hqc => h.live q r hq (hqc ▸ hfree)]
      exact hq
  · have hzp := zombieChild_parent hz
    refine ⟨fun u r hu => ?_, fun r hst hch => ?_⟩
    · rw [ht] at hu ⊢
      by_cases huq : u = q
      · rw [huq, Function.update_self] at hu
        cases hu
      · rw [Function.update_of_ne huq] at hu ⊢
        exact h.live u r hu
    · obtain ⟨u, hu⟩ := hold r hst hch
      refine ⟨u, ?_⟩
      have huq : u ≠ q := by
        -- the process that reaps is not asleep
        rintro rfl
        obtain rfl : p = r := Option.some.inj (hzp.symm.trans hu)
        rcases hs.asleep hi hst hch with ⟨hst, _⟩ | ⟨_, hnone, _⟩
        · have hrun := (hi.working (by rw [hc]; exact Ctl.noConfusion) hp).2.1
          rw [hrun] at hst
          cases hst
        · rw [hz] at hnone
          cases hnone
      rw [ht, Function.update_of_ne huq]
      exact hu

/-- The shell has a child only from its fork on until its wait returns, and only one. -/
structure ShellKept (t : Slot → Proc) (l : ShellAt) : Prop where
  childless : l ≠ .forked → ∀ q, (t q).parent ≠ some .shell
  one : ∀ q q', (t q).parent = some .shell → (t q').parent = some .shell → q = q'

omit [DecidableEq H] in
theorem ShellKept.kin (hk : ShellKept s.proc l) (ht : Kin s.proc s'.proc)
    (hnone : l' ≠ .forked → ∀ q, (s.proc q).parent ≠ some .shell) : ShellKept s'.proc l' where
  childless hl q := by
    rw [(ht q).2.2]
    exact hnone hl q
  one q q' hq hq' := by
    rw [(ht q).2.2] at hq
    rw [(ht q').2.2] at hq'
    exact hk.one q q' hq hq'

omit [DecidableEq H] in
theorem ShellKept.sub (hk : ShellKept s.proc l)
    (hsub : ∀ q, (s'.proc q).parent = some .shell → (s.proc q).parent = some .shell) :
    ShellKept s'.proc l where
  childless hl q hq := hk.childless hl q (hsub q hq)
  one q q' hq hq' := hk.one q q' (hsub q hq) (hsub q' hq')

omit [DecidableEq H] in
/-- Not after a fork, as long as no child is reaped, the shell has no child. -/
theorem ShellKept.next_none (hk : ShellKept s.proc l) (hok : ShellCall s l h a)
    (hz : a = .go → s.ctl h = .wait → ∀ p, s.cpuProc h = some p → zombieChild s.proc p = none)
    (hl : shellNext s h a l ≠ .forked) (q : Slot) : (s.proc q).parent ≠ some .shell := by
  by_cases hp : s.cpuProc h = some .shell
  · have hcall := hok hp
    unfold shellNext at hl
    rw [if_pos hp] at hl
    cases hc : s.ctl h with
    | user =>
      rw [hc] at hl hcall
      cases a with
      | read n => exact hk.childless hcall.2 q
      | fork pt => exact absurd rfl hl
      | _ => exact hk.childless hl q
    | wait =>
      rw [hc] at hl
      cases a with
      | go =>
        have hnone := hz rfl hc .shell hp
        by_cases hkids : hasChild s.proc .shell = true
        · dsimp only at hl
          rw [if_pos ⟨hnone, hkids⟩] at hl
          exact hk.childless hl q
        · intro hq
          apply hkids
          simp only [hasChild, List.any_eq_true, decide_eq_true_eq]
          exact ⟨q, List.mem_finRange q, hq⟩
      | _ => exact hk.childless hl q
    | _ =>
      rw [hc] at hl
      exact hk.childless hl q
  · unfold shellNext at hl
    rw [if_neg hp] at hl
    exact hk.childless hl q

theorem ShellKept.step (hk : ShellKept s.proc l) (hi : s.SchedInv) (hok : ShellCall s l h a)
    (hs : Step s h a s') : ShellKept s'.proc (shellNext s h a l) := by
  have hother {p : Slot} (hp : s.cpuProc h = some p) (hne : p ≠ .shell) :
      shellNext s h a l = l := by
    unfold shellNext
    rw [if_neg]
    rw [hp]
    exact fun he => hne (Option.some.inj he)
  rcases hs.children hi with ⟨ht, hz⟩ | ⟨p, c, pt, rfl, hc, hp, _, hpar, _, hkept⟩ |
      ⟨p, q, rfl, hc, hp, hz, ht⟩
  · exact hk.kin ht fun hl q => hk.next_none hok hz hl q
  · have hsub (q : Slot) (hqc : q ≠ c) (hq : (s'.proc q).parent = some .shell) :
        (s.proc q).parent = some .shell := by
      rwa [hkept q hqc] at hq
    by_cases hshell : p = .shell
    · subst hshell
      have hcall := hok hp
      rw [hc] at hcall
      have hline : l = .line := hcall
      have hnone := hk.childless (by rw [hline]; exact ShellAt.noConfusion)
      have hnext : shellNext s h (.fork pt) l = .forked := by
        unfold shellNext
        rw [if_pos hp, hc]
      have honly (q : Slot) (hq : (s'.proc q).parent = some .shell) : q = c := by
        by_contra hqc
        exact hnone q (hsub q hqc hq)
      rw [hnext]
      exact ⟨fun hl => absurd rfl hl, fun q q' hq hq' => (honly q hq).trans (honly q' hq').symm⟩
    · rw [hother hp hshell]
      apply hk.sub
      intro q hq
      apply hsub q _ hq
      rintro rfl
      rw [hpar] at hq
      exact hshell (Option.some.inj hq)
  · have hzp := zombieChild_parent hz
    have hsub (u : Slot) (hu : (s'.proc u).parent = some .shell) :
        u ≠ q ∧ (s.proc u).parent = some .shell := by
      rw [ht] at hu
      by_cases huq : u = q
      · rw [huq, Function.update_self] at hu
        cases hu
      · rw [Function.update_of_ne huq] at hu
        exact ⟨huq, hu⟩
    by_cases hshell : p = .shell
    · subst hshell
      refine ⟨fun _ u hu => ?_, fun u u' hu hu' => ?_⟩
      · exact (hsub u hu).1 (hk.one u q (hsub u hu).2 hzp)
      · exact hk.one u u' (hsub u hu).2 (hsub u' hu').2
    · rw [hother hp hshell]
      exact hk.sub fun u hu => (hsub u hu).2

/-- What holds of the shell in every state. -/
def ShellKeeps (s : Sys H) (l : ShellAt) : Prop :=
  ShellKept s.proc l ∧
    ((s.proc .shell).state = .sleeping → (s.proc .shell).chan = .proc .shell →
      ∃ q, (s.proc q).parent = some .shell ∧ (s.proc q).state ≠ .unused ∧
        (s.proc q).state ≠ .zombie)

/-- The shell reaps what it forks: in every run of the kernel in which it makes the calls of its
loop, it has no child when it is back at its prompt and never two, and while it sleeps in
`proc_wait` it has a child that has yet to exit. -/
theorem shell_reaps {k t : Nat} (hk : k ≠ 0) (ht : t ≠ k)
    (hok : Along shellNext ShellCall (boot k t : Sys H) .prompt as) :
    Always shellNext ShellKeeps (boot k t : Sys H) .prompt as := by
  refine Along.always (I := fun s l => s.SchedInv ∧ ShellKept s.proc l ∧ Awaited s.proc ∧
    NoLostExit s.proc) ?_ ?_ ⟨.boot hk ht, ?_, ?_, ?_⟩ hok
  · rintro s l h a s' ⟨hi, hkept, haw, hno⟩ ho hs
    have hstep := Step.of_step hs
    exact ⟨hi.step hs, hkept.step hi ho hstep, haw.step hi hstep, hno.step hi hstep⟩
  · rintro s l ⟨_, hkept, haw, hno⟩
    refine ⟨hkept, fun hst hch => ?_⟩
    obtain ⟨q, hq⟩ := haw.child .shell hst hch
    exact ⟨q, hq, haw.live q .shell hq, hno .shell q hst hch hq⟩
  · refine ⟨fun _ q hq => ?_, fun q q' hq _ => ?_⟩
    · rw [(boot_proc k t q).1] at hq
      cases hq
    · rw [(boot_proc k t q).1] at hq
      cases hq
  · refine ⟨fun q p hq => ?_, fun p hst _ => ?_⟩
    · rw [(boot_proc k t q).1] at hq
      cases hq
    · have hboot : ((boot k t : Sys H).proc p).state ≠ .sleeping := by
        by_cases hp : p = .shell
        · simp [boot, hp]
        · simp [boot, Function.update_of_ne hp, Proc.zero]
      exact absurd hst hboot
  · intro p q _ _ hq
    rw [(boot_proc k t q).1] at hq
    cases hq

/-- The shell runs a command whose process exits before it waits, and then another one, over which
it goes to sleep. -/
def commandsRun : List (Bool × Act) :=
  let go (h : Bool) (n : Nat) : List (Bool × Act) := List.replicate n (h, .go)
  let line : List (Bool × Act) := [(true, .intr 10), (false, .read 127), (false, .go)]
  go false 3 ++ line ++ [(false, .fork 3)] ++ go true 4 ++ [(true, .exit)] ++ go true 8 ++
    [(false, .wait), (false, .go)] ++ line ++ [(false, .fork 3), (false, .wait), (false, .go)]

theorem shell_reaps_commands : ((boot 1 2 : Sys Bool).run commandsRun).isSome ∧
    Always shellNext ShellKeeps (boot 1 2 : Sys Bool) .prompt commandsRun := by
  refine ⟨by decide +kernel, shell_reaps (by decide) (by decide) ?_⟩
  decide +kernel

end Sys

end KernelHobby
