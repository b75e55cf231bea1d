import KernelHobby.SchedStep

namespace KernelHobby
set_option autoImplicit true

namespace Sys
variable {H : Type} [DecidableEq H] {s s' : Sys H} {h : H} {a : Act} {p q : Slot}

/-- A reader that waits for a line. -/
def Asleep (s : Sys H) (p : Slot) : Prop :=
  (s.proc p).state = .sleeping ∧ (s.proc p).chan = .inbuf

/-- No reader sleeps over a full buffer, and the end of a line wakes every sleeper. -/
def NewlineWakes (s : Sys H) : Prop := ∀ p, s.Asleep p →
  s.inW - s.inR ≠ INBUF ∧ ∀ c, c = 10 ∨ c = 13 → ((s.consoleIntr c).proc p).state = .runnable

/-- No reader sleeps while a character other than the end of a line takes the last place. -/
def FillOk (s : Sys H) : Act → Prop
  | .intr c => ¬ (c = 127 ∨ c = 8) → ¬ (c = 10 ∨ c = 13) → s.inW - s.inR = INBUF - 1 →
      ∀ p, ¬ s.Asleep p
  | _ => True

structure Window (s : Sys H) : Prop where
  le : s.inR ≤ s.inW
  size : s.inW - s.inR ≤ INBUF

def Awake (s : Sys H) : Prop := ∀ p, s.Asleep p → s.inW - s.inR < INBUF

omit [DecidableEq H] in
theorem Keyed.window (hs : Keyed s c s') (hw : s.Window) : s'.Window := by
  obtain ⟨hle, hsz⟩ := hw
  cases hs with
  | erase _ hlt _ =>
    constructor
    · dsimp only
      omega
    · dsimp only
      omega
  | ignored _ _ => exact ⟨hle, hsz⟩
  | dropped _ _ => exact ⟨hle, hsz⟩
  | newline _ hlt =>
    constructor
    · dsimp only
      omega
    · dsimp only
      omega
  | char _ _ hlt =>
    constructor
    · dsimp only
      omega
    · dsimp only
      omega

theorem Window.step (hw : s.Window) (hs : Step s h a s') : s'.Window := by
  have hread (hne : s.inR ≠ s.inW) (hr : s'.inR = s.inR + 1) (hww : s'.inW = s.inW) :
      s'.Window := by
    obtain ⟨hle, hsz⟩ := hw
    constructor
    · omega
    · omega
  cases hs with
  | readLine p n i hc hp _ hne _ => exact hread hne rfl rfl
  | readByte p n i hc hp _ hne _ => exact hread hne rfl rfl
  | intr c hc hl => exact (Keyed.intr s c).window hw
  | _ => exact ⟨hw.le, hw.size⟩

omit [DecidableEq H] in
theorem asleep_wakeup (s : Sys H) (p : Slot) :
    ¬ ((wakeup s.proc .inbuf p).state = .sleeping ∧ (wakeup s.proc .inbuf p).chan = .inbuf) := by
  rw [wakeup]
  split
  · rintro ⟨hst, _⟩
    cases hst
  · assumption

omit [DecidableEq H] in
theorem Keyed.awake (hs : Keyed s c s') (hw : s.Window) (ha : s.Awake) (hok : s.FillOk (.intr c)) :
    s'.Awake := by
  intro p hp
  cases hs with
  | erase _ hlt _ =>
    have := ha p hp
    dsimp only
    omega
  | ignored _ _ => exact ha p hp
  | dropped _ _ => exact ha p hp
  | newline _ hlt => exact absurd hp (asleep_wakeup s p)
  | char hd hn hlt =>
    have hne : s.inW - s.inR ≠ INBUF - 1 := fun he => hok hd hn he p hp
    have := hw.le
    dsimp only
    omega

omit [DecidableEq H] in
/-- A change that leaves the buffer alone and puts no reader to sleep. -/
theorem Awake.mono (ha : s.Awake) (hw : s'.inW - s'.inR ≤ s.inW - s.inR)
    (hp : ∀ p, s'.Asleep p → s.Asleep p) : s'.Awake := by
  intro p hs
  have := ha p (hp p hs)
  omega

theorem asleep_update {t : Slot → Proc} (hx : x.state ≠ .sleeping ∨ x.chan ≠ .inbuf)
    (hq : (Function.update t p x q).state = .sleeping ∧ (Function.update t p x q).chan = .inbuf) :
    (t q).state = .sleeping ∧ (t q).chan = .inbuf := by
  by_cases hqp : q = p
  · subst hqp
    rw [Function.update_self] at hq
    rcases hx with hx | hx
    · exact absurd hq.1 hx
    · exact absurd hq.2 hx
  · rw [Function.update_of_ne hqp] at hq
    exact hq

theorem asleep_wakeParent {t : Slot → Proc} {o : Option Slot}
    (hq : (wakeParent t o q).state = .sleeping ∧ (wakeParent t o q).chan = .inbuf) :
    (t q).state = .sleeping ∧ (t q).chan = .inbuf := by
  cases o with
  | none => exact hq
  | some r =>
    simp only [wakeParent, wakeup] at hq
    split at hq
    · exact absurd hq.1 ProcState.noConfusion
    · exact hq

theorem Awake.step (ha : s.Awake) (hw : s.Window) (hi : s.SchedInv) (hs : Step s h a s')
    (hok : s.FillOk a) : s'.Awake := by
  cases hs with
  | dispatch p hc hst => exact ha.mono le_rfl fun _ => asleep_update (.inl ProcState.noConfusion)
  | toWait p hc hp _ => exact ha.mono le_rfl fun _ => asleep_update (.inr Chan.noConfusion)
  | toRead p n i hc hp _ => exact ha.mono le_rfl fun _ => asleep_update (.inr Chan.noConfusion)
  | reap p q hc hp hz => exact ha.mono le_rfl fun _ => asleep_update (.inl ProcState.noConfusion)
  | waitSleep p hc hp hz hk =>
    exact ha.mono le_rfl fun _ => asleep_update (.inr Chan.noConfusion)
  | readSleep p n i hc hp hin he =>
    -- a reader goes to sleep only over an empty buffer
    intro q _
    simp only [Sys.sleep, Sys.inside, Sys.setProc, he, Nat.sub_self]
    decide
  | readLine p n i hc hp _ hne _ => exact ha.mono (Nat.sub_le_sub_left (Nat.le_succ _) _) fun _ => id
  | readByte p n i hc hp _ hne _ => exact ha.mono (Nat.sub_le_sub_left (Nat.le_succ _) _) fun _ => id
  | yield p hc hp hl =>
    have hr := (hi.working (by rw [hc]; exact Ctl.noConfusion) hp).2.1
    refine ha.mono le_rfl fun _ => asleep_update (.inl ?_)
    rw [if_pos hr]
    exact ProcState.noConfusion
  | exit p hc hp hl =>
    refine ha.mono le_rfl fun q hq => ?_
    exact asleep_wakeParent (asleep_update (.inl ProcState.noConfusion) hq)
  | fork p c pt hc hp hl hf =>
    exact ha.mono le_rfl fun _ => asleep_update (.inl ProcState.noConfusion)
  | intr c hc hl => exact (Keyed.intr s c).awake hw ha hok
  | _ => exact ha.mono le_rfl fun _ => id

omit [DecidableEq H] in
/-- While the buffer has room, the end of a line reaches it and wakes the readers. -/
theorem Awake.newlineWakes (ha : s.Awake) : s.NewlineWakes := by
  intro p hp
  have hlt := ha p hp
  refine ⟨by omega, ?_⟩
  intro c hc
  have hk := Keyed.intr s c
  generalize s.consoleIntr c = s' at hk
  cases hk with
  | erase hd _ _ => rcases hc with rfl | rfl <;> simp at hd
  | ignored hd _ => rcases hc with rfl | rfl <;> simp at hd
  | dropped _ hge => omega
  | newline _ _ =>
    obtain ⟨hst, hch⟩ := hp
    simp only [wakeup]
    rw [if_pos ⟨hst, hch⟩]
  | char _ hn _ => exact absurd hc hn

omit [DecidableEq H] in
theorem NewlineWakes.awake (hn : s.NewlineWakes) (hw : s.Window) : s.Awake := by
  intro p hp
  have := (hn p hp).1
  have := hw.size
  omega

/-- The character that fills the buffer leaves a sleeper asleep. -/
theorem Awake.fillOk (hs : Step s h a s') (ha : s'.Awake) : s.FillOk a := by
  cases hs with
  | intr c hc hl =>
    intro hd hn hfull p hp
    have hk := Keyed.intr s c
    generalize s.consoleIntr c = s' at hk ha
    cases hk with
    | erase h _ _ => exact hd h
    | ignored h _ => exact hd h
    | dropped _ hge =>
      have : 0 < INBUF := by decide
      omega
    | newline h _ => exact hn h
    | char _ _ hlt =>
      have hlt' := ha p hp
      simp only [INBUF] at hlt' hfull
      omega
  | _ => trivial

theorem NewlineWakes.along (hi : s.SchedInv) (hw : s.Window) (hn : s.NewlineWakes) :
    Always (fun _ _ _ => id) (fun s () => s.NewlineWakes) s () as ↔
      Along (fun _ _ _ => id) (fun s _ _ a => s.FillOk a) s () as := by
  refine always_iff_along (I := fun s _ => s.SchedInv ∧ s.Window) ?_ ?_ ⟨hi, hw⟩ hn
  · rintro s _ h a s' ⟨hi, hw⟩ hs
    exact ⟨hi.step hs, hw.step (.of_step hs)⟩
  · rintro s _ h a s' ⟨hi, hw⟩ hn hs
    have hst := Step.of_step hs
    refine ⟨fun hn' => (hn'.awake (hw.step hst)).fillOk hst, ?_⟩
    intro hok
    exact ((hn.awake hw).step hw hi hst hok).newlineWakes

omit [DecidableEq H] in
theorem boot_window (k t : Nat) : (boot k t : Sys H).Window := ⟨le_rfl, Nat.zero_le _⟩

omit [DecidableEq H] in
theorem boot_awake (k t : Nat) : (boot k t : Sys H).Awake := by
  intro p _
  simp only [boot]
  decide

/-- In a run from boot every line wakes its readers exactly when no reader sleeps while an
unfinished line fills the buffer. -/
theorem newline_wakes_iff {k t : Nat} (hk : k ≠ 0) (ht : t ≠ k) (as : List (H × Act)) :
    Always (fun _ _ _ => id) (fun s () => s.NewlineWakes) (boot k t) () as ↔
      Along (fun _ _ _ => id) (fun s _ _ a => s.FillOk a) (boot k t) () as :=
  NewlineWakes.along (.boot hk ht) (boot_window k t) (boot_awake k t).newlineWakes

instance : DecidablePred s.Asleep := fun _ => inferInstanceAs (Decidable (_ ∧ _))

instance : DecidablePred s.FillOk
  | .intr c => inferInstanceAs (Decidable (¬ (c = 127 ∨ c = 8) → ¬ (c = 10 ∨ c = 13) →
      s.inW - s.inR = INBUF - 1 → ∀ p, ¬ s.Asleep p))
  | .go | .yield | .exit | .wait | .read _ | .fork _ => .isTrue trivial

/-- The shell starts to read, and a line of `n` characters is typed while it sleeps. -/
def typeRun (n : Nat) : List (Unit × Act) :=
  List.replicate 3 ((), .go) ++ [((), .read 1), ((), .go), ((), .go)] ++
    List.replicate 8 ((), .go) ++ List.replicate n ((), .intr 97) ++ [((), .intr 13)]

theorem newline_wakes_iff_short :
    Always (fun _ _ _ => id) (fun s () => s.NewlineWakes) (boot 1 2 : Sys Unit) () (typeRun 3) :=
  (newline_wakes_iff (by decide) (by decide) (typeRun 3)).2 (by decide +kernel)

theorem longLine_not_newlineWakes :
    ¬ Always (fun _ _ _ => id) (fun s () => s.NewlineWakes) (boot 1 2 : Sys Unit) () (typeRun 128) := by
  rw [NewlineWakes.along (.boot (by decide) (by decide)) (boot_window 1 2)
    (boot_awake 1 2).newlineWakes]
  decide +kernel

end Sys

end KernelHobby
