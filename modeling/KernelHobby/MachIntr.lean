import KernelHobby.MachRun

namespace KernelHobby
set_option autoImplicit true

open Abs

variable {H : Type}

/-- The code of a thread is that of a trap handler. -/
def TrapTop (c : Ctx H) : Prop := ∃ f fs, c.frames = f :: fs ∧ f.trap = true

/-- A handler that was itself interrupted had SIE off. -/
def Stacked : List (Frame H) → Prop
  | f :: g :: fs => (g.trap = true → f.sie = false) ∧ Stacked (g :: fs)
  | _ => True

theorem Stacked.tail (hs : Stacked (f :: fs)) : Stacked fs := by
  cases fs with
  | nil => trivial
  | cons g fs => exact hs.2

theorem Below.trapTop (hb : Below h idle k post fs) (hk : k = .proc ∨ k = .fixed) :
    ∃ f fs', fs = f :: fs' ∧ f.trap = true := by
  cases hb with
  | sched | enter | forkret => rcases hk with hk | hk <;> cases hk
  | user _ ht => exact ⟨_, _, rfl, ht⟩
  | nested _ ht => exact ⟨_, _, rfl, ht⟩
  | fixed _ ht => exact ⟨_, _, rfl, ht⟩

theorem Below.trap_of_tail (hb : Below h idle k post (f :: g :: fs)) : f.trap = true := by
  cases hb with
  | nested _ ht => exact ht
  | fixed _ ht => exact ht

namespace Mach
variable [DecidableEq H] {m m' : Mach H} {h h' : H} {k : Kind} {σ σ' : Abs} {q r : Code}
  {o : HartOp} {p : Slot}

/-- `intena` of a hart inside a critical section is SIE at the `acquire` that began it. -/
def Begun (m : Mach H) : Prop := ∀ h, 0 < m.noff h → m.start h = m.intena h

/-- SIE is off in every trap handler, and was off at its pending outermost `acquire`. -/
structure Steady (m : Mach H) : Prop where
  top : ∀ h, TrapTop (m.cur h) → m.sie h = false ∧ (0 < m.noff h → (m.cur h).mine = some false)
  frames : ∀ h, Stacked (m.cur h).frames
  saved : ∀ p c, m.seat p = .saved c → (TrapTop c → c.mine = some false) ∧ Stacked c.frames

/-- The thread on hart `h` ends its critical section, which it began with SIE as given. -/
def ownRelease (m : Mach H) (h : H) : Act H → Option Bool
  | .op i _ =>
    match m.nextOp h i with
    | some (.popOff, _) => if m.noff (m.tp h) - 1 = 0 then (m.cur h).mine else none
    | _ => none
  | _ => none

def Restores (m : Mach H) (h : H) (a : Act H) (m' : Mach H) : Prop :=
  ∀ b, m.ownRelease h a = some b → m'.sie h = b

/-- The `acquire` that began the critical section on this hart, of this thread or of one that
handed the lock over, found SIE as the thread's own `acquire` did. -/
def SameStart (m : Mach H) (h : H) (a : Act H) (_ : Mach H) : Prop :=
  ∀ b, m.ownRelease h a = some b → m.start h = b

/-- Trap handlers run with SIE off up to `trapret`. -/
def HandlersOff (m : Mach H) : Prop :=
  ∀ h f fs, (m.cur h).frames = f :: fs → f.trap = true → m.sie h = false

/-- `P` holds of every step of the run. -/
def Along (P : Mach H → H → Act H → Mach H → Prop) (m : Mach H) : List (H × Act H) → Prop
  | [] => True
  | (h, a) :: as =>
    match m.step h a with
    | some m' => P m h a m' ∧ Along P m' as
    | none => True

theorem Along.mono {P Q : Mach H → H → Act H → Mach H → Prop} (I : Mach H → Prop)
    (hstep : ∀ m h a m', I m → m.step h a = some m' → P m h a m' → Q m h a m' ∧ I m')
    (hi : I m) (ha : Along P m as) : Along Q m as := by
  induction as generalizing m with
  | nil => trivial
  | cons x as ih =>
    obtain ⟨h, a⟩ := x
    simp only [Along] at ha ⊢
    split
    · rename_i m' hs
      rw [hs] at ha
      obtain ⟨hq, hi'⟩ := hstep m h a m' hi hs ha.1
      exact ⟨hq, ih hi' ha.2⟩
    · trivial

theorem Along.at {P : Mach H → H → Act H → Mach H → Prop} (ha : Along P m (as ++ (h, a) :: bs))
    (hr : m.run as = some m₁) (hs : m₁.step h a = some m₂) : P m₁ h a m₂ := by
  induction as generalizing m with
  | nil =>
    cases hr
    simp only [List.nil_append, Along, hs] at ha
    exact ha.1
  | cons x as ih =>
    obtain ⟨h', a'⟩ := x
    simp only [Mach.run] at hr
    split at hr
    · rename_i m' hs'
      simp only [List.cons_append, Along, hs'] at ha
      exact ih ha.2 hr
    · cases hr

theorem exec_elsewhere (ha : m.Agree h k σ) (he : eff k σ o = some σ')
    (hs : m.exec h p o = some m') : Elsewhere m m' h := by
  cases o with
  | acquire l =>
    cases hs
    exact (pushOff_pushed (ha.pushOff he).2).elsewhere
  | spin l =>
    simp only [exec] at hs
    split at hs
    · cases hs
    · cases hs
      exact lock_elsewhere m h l
  | unlock l =>
    cases hs
    exact unlock_elsewhere m h l
  | popOff =>
    cases hs
    exact (popOff_popped (ha.popOff he).2).elsewhere
  | intrOn =>
    cases hs
    exact setSie_elsewhere m h true
  | swtch =>
    simp only [exec, swtch] at hs
    split at hs
    · cases hs
      exact .refl m h
    · split at hs
      · cases hs
      · cases hs
        exact switch_elsewhere ..
  | dispatch =>
    simp only [exec, dispatch] at hs
    split at hs
    · cases hs
      exact switch_elsewhere ..
    · cases hs
  | spawn | reap =>
    simp only [exec] at hs
    split at hs
    · cases hs
      exact setSeat_elsewhere ..
    · cases hs
  | user =>
    cases hs
    exact .refl m h
  | sret =>
    cases hs
    exact (setCur_elsewhere m h _).trans (setSie_elsewhere _ h true)

theorem Begun.exec (hb : m.Begun) (ha : m.Agree h k σ) (he : eff k σ o = some σ')
    (hs : m.exec h p o = some m') : m'.Begun := by
  cases o with
  | acquire l =>
    cases hs
    have hp := pushOff_pushed (ha.pushOff he).2
    intro h' hn
    rw [hp.start]
    by_cases hne : h' = h
    · subst hne
      rw [hp.intena]
      split
      · rw [Function.update_self]
      · rename_i hz
        refine hb h' ?_
        rw [ha.noff] at hz ⊢
        omega
    · rw [hp.elsewhere.intena h' hne]
      rw [hp.elsewhere.noff h' hne] at hn
      split
      · rw [Function.update_of_ne hne]
        exact hb h' hn
      · exact hb h' hn
  | popOff =>
    cases hs
    have hp := popOff_popped (ha.popOff he).2
    intro h' hn
    rw [hp.start, hp.intena]
    refine hb h' ?_
    by_cases hne : h' = h
    · subst hne
      rw [hp.noff] at hn
      omega
    · rw [← hp.elsewhere.noff h' hne]
      exact hn
  | spin l =>
    simp only [Mach.exec] at hs
    split at hs
    · cases hs
    · cases hs
      exact hb
  | unlock | intrOn | user | sret =>
    cases hs
    exact hb
  | swtch =>
    simp only [Mach.exec, Mach.swtch] at hs
    split at hs
    · cases hs
      exact hb
    · split at hs
      · cases hs
      · cases hs
        exact hb
  | dispatch =>
    simp only [Mach.exec, Mach.dispatch] at hs
    split at hs
    · cases hs
      exact hb
    · cases hs
  | spawn | reap =>
    simp only [Mach.exec] at hs
    split at hs
    · cases hs
      exact hb
    · cases hs

/-- A hart that returns from a trap, or goes astray there. -/
theorem trapret_cases (hs : m.trapret h = some m') :
    ∃ q f fs, (m.cur h).code = some q ∧ (m.cur h).frames = f :: fs ∧ q.ends = true ∧
      m' = ((m.setCur h { m.cur h with code := f.code, frames := fs }).setSie h f.sie).setTp h
        f.tp := by
  simp only [Mach.trapret] at hs
  split at hs
  · rename_i q f fs hc hf
    split at hs
    · rename_i he
      cases hs
      exact ⟨q, f, fs, hc, hf, he, rfl⟩
    · cases hs
  · cases hs

theorem Begun.step (hi : m.Inv) (hb : m.Begun) (hs : m.step h a = some m') : m'.Begun := by
  cases a with
  | op i p =>
    simp only [Mach.step] at hs
    split at hs
    · rename_i o r hn
      obtain ⟨q, hc, ho⟩ := nextOp_mem hn
      obtain ⟨k, σ, σ', ha, he, _⟩ := hi.next hc ho
      exact Begun.exec (m := m.setCode h r) hb (ha.setCode r) he hs
    · cases hs
  | trap c =>
    simp only [Mach.step] at hs
    split at hs
    · cases hs
      exact hb
    · cases hs
  | fault i =>
    simp only [Mach.step] at hs
    split at hs
    · cases hs
      exact hb
    · cases hs
  | trapret =>
    obtain ⟨q, f, fs, _, _, _, rfl⟩ := trapret_cases hs
    exact hb
  | lost b t =>
    simp only [Mach.step] at hs
    split at hs
    · rename_i m₁ hm₁
      obtain ⟨q, f, fs, _, _, _, rfl⟩ := trapret_cases hm₁
      split at hs
      · cases hs
        exact hb
      · cases hs
    · cases hs
  | drift b t =>
    simp only [Mach.step] at hs
    split at hs
    · cases hs
      exact hb
    · cases hs

/-- SIE after the outermost `pop_off` of a hart is `intena`. -/
theorem Begun.released (hi : m.Inv) (hb : m.Begun) (hs : m.step h a = some m')
    (ho : m.ownRelease h a = some b) : m'.sie h = m.start h := by
  cases a with
  | op i p =>
    simp only [ownRelease] at ho
    split at ho
    · rename_i r hn
      split at ho
      · rename_i hz
        simp only [Mach.step, hn] at hs
        cases hs
        obtain ⟨q, hc, hx⟩ := nextOp_mem hn
        obtain ⟨k, σ, σ', ha, he, _⟩ := hi.next hc hx
        have htp : m.tp h = h := (ha.popOff he).2
        rw [htp] at hz
        have hpos : 0 < m.noff h := by omega
        have hoff : m.sie h = false := (ha.off (ha.noff_pos hpos)).1
        have hp : Popped (m.setCode h r) ((m.setCode h r).popOff h) h :=
          popOff_popped (m := m.setCode h r) htp
        rw [hp.sie, hb h hpos]
        show (if m.noff h - 1 = 0 ∧ m.intena h = true then true else m.sie h) = m.intena h
        rw [hoff]
        cases m.intena h <;> simp [hz]
      · cases ho
    · cases ho
  | trap | fault | trapret | lost | drift => cases ho

theorem restores_iff (hi : m.Inv) (hb : m.Begun) (hs : m.step h a = some m') :
    m.Restores h a m' ↔ m.SameStart h a m' := by
  refine ⟨fun hr b ho => ?_, fun hr b ho => ?_⟩
  · rw [← hb.released hi hs ho]
    exact hr b ho
  · rw [hb.released hi hs ho]
    exact hr b ho

end Mach

end KernelHobby
