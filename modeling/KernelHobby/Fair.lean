import KernelHobby.SchedStep

namespace KernelHobby
set_option autoImplicit true

/-- How many turns the scheduler takes from index `i` until it looks at slot `p`, when every
slot before it runs: two for each, and two for the way from one scan to the next. -/
def turnsTo (p : Slot) (i : Nat) : Nat :=
  if i ≤ p then 2 * (p - i) else 2 * (NPROC - i + p) + 2

theorem turnsTo_zero (p : Slot) : turnsTo p 0 = 2 * p := by
  simp [turnsTo]

theorem turnsTo_end (p : Slot) : turnsTo p NPROC = 2 * p + 2 := by
  have hp : ¬ NPROC ≤ p.val := Nat.not_le.2 p.isLt
  rw [turnsTo, if_neg hp, Nat.sub_self, Nat.zero_add]

/-- A slot that is not the one waited for lies two turns further on. -/
theorem turnsTo_succ {p : Slot} {i : Nat} (hi : i < NPROC) (hne : i ≠ p) :
    turnsTo p (i + 1) + 2 = turnsTo p i := by
  rw [turnsTo, turnsTo]
  by_cases hlt : i < p
  · rw [if_pos (Nat.succ_le_of_lt hlt), if_pos (Nat.le_of_lt hlt)]
    omega
  · have hgt : ¬ i ≤ p := fun hle => hlt (Nat.lt_of_le_of_ne hle hne)
    rw [if_neg (fun h => hgt (Nat.le_of_succ_le h)), if_neg hgt]
    omega

theorem turnsTo_le (p : Slot) {i : Nat} (hi : i ≤ NPROC) : turnsTo p i ≤ 2 * NPROC := by
  have hp := p.isLt
  rw [turnsTo]
  split
  · omega
  · omega

namespace Sys
variable {H : Type} [DecidableEq H] {s s' : Sys H} {h h' : H} {a : Act} {p q : Slot}
  {as : List (H × Act)}

/-- What the next step of hart `h` gives the processor to. -/
def dispatched (s : Sys H) (h : H) (a : Act) : Option Slot :=
  match a, s.ctl h with
  | .go, .scan =>
    if hi : s.scanAt h < NPROC then
      if (s.proc ⟨s.scanAt h, hi⟩).state = .runnable then some ⟨s.scanAt h, hi⟩ else none
    else none
  | _, _ => none

/-- Whether the next step of hart `h` is one of the loop of `scheduler`. -/
def turn (s : Sys H) (h : H) (a : Act) : Bool :=
  match a, s.ctl h with
  | .go, .idle => true
  | .go, .scan => true
  | .go, .back => true
  | _, _ => false

/-- The processes that a run dispatches, each with the hart. -/
def dispatches (s : Sys H) : List (H × Act) → List (H × Slot)
  | [] => []
  | (h, a) :: as =>
    match s.step h a with
    | some s' => ((s.dispatched h a).map (Prod.mk h)).toList ++ s'.dispatches as
    | none => []

/-- How many steps of a run are steps of the scheduler of hart `h`. -/
def turns (s : Sys H) (h : H) : List (H × Act) → Nat
  | [] => 0
  | (h', a) :: as =>
    match s.step h' a with
    | some s' => (if h' = h ∧ s.turn h' a then 1 else 0) + s'.turns h as
    | none => 0

/-- The loop index of every scheduler. -/
structure ScanInv (s : Sys H) : Prop where
  at_proc : ∀ h q, s.cpuProc h = some q → s.scanAt h = q
  le : ∀ h, s.scanAt h ≤ NPROC

/-- How many turns of its scheduler hart `h` is away from slot `p`. -/
def turnsLeft (s : Sys H) (p : Slot) (h : H) : Nat :=
  match s.cpuProc h with
  | some q => turnsTo p (q + 1) + 1
  | none =>
    match s.ctl h with
    | .idle => 2 * p + 1
    | _ => turnsTo p (s.scanAt h)

omit [DecidableEq H] in
theorem ScanInv.turnsLeft_le (hs : s.ScanInv) : s.turnsLeft p h ≤ 2 * NPROC + 1 := by
  have hidle : 2 * p.val + 1 ≤ 2 * NPROC + 1 :=
    Nat.succ_le_succ (Nat.mul_le_mul_left 2 (Nat.le_of_lt p.isLt))
  have hscan := (turnsTo_le p (hs.le h)).trans (Nat.le_succ _)
  cases hq : s.cpuProc h with
  | some q =>
    simp only [turnsLeft, hq]
    exact Nat.succ_le_succ (turnsTo_le p q.isLt)
  | none =>
    simp only [turnsLeft, hq]
    split
    · exact hidle
    · exact hscan

/-- What a step of hart `h` does as long as slot `p` waits. -/
structure Waits (s s' : Sys H) (h : H) (a : Act) (p : Slot) : Prop where
  runnable : (s'.proc p).state = .runnable
  others : ∀ h', h' ≠ h → s'.turnsLeft p h' = s.turnsLeft p h'
  own : s'.turnsLeft p h + (if s.turn h a then 1 else 0) ≤ s.turnsLeft p h
  taken : ∀ q, s.dispatched h a = some q → turnsTo p q = s.turnsLeft p h ∧ s.turn h a

omit [DecidableEq H] in
/-- A step outside of the scheduler's loop, on a hart that has a process or changes nothing. -/
theorem Waits.of_kept (hrun : (s'.proc p).state = .runnable) (hc : s'.cpuProc = s.cpuProc)
    (hs : s'.scanAt = s.scanAt) (hk : ∀ h', s'.ctl h' = s.ctl h' ∨ ∃ q, s.cpuProc h' = some q)
    (ht : s.turn h a = false) (hd : s.dispatched h a = none) : Waits s s' h a p := by
  have heq : ∀ h', s'.turnsLeft p h' = s.turnsLeft p h' := by
    intro h'
    rcases hk h' with hctl | ⟨q, hq⟩
    · simp only [turnsLeft, hc, hs, hctl]
    · simp only [turnsLeft, hc, hq]
  refine ⟨hrun, fun h' _ => heq h', ?_, ?_⟩
  · rw [ht, heq h]
    exact Nat.le_refl _
  · intro q hq
    rw [hd] at hq
    cases hq

omit [DecidableEq H] in
/-- A step of the scheduler's loop. -/
theorem Waits.of_turn (hrun : (s'.proc p).state = .runnable)
    (hc : ∀ h', h' ≠ h → s'.cpuProc h' = s.cpuProc h' ∧ s'.scanAt h' = s.scanAt h' ∧
      s'.ctl h' = s.ctl h') (hlt : s'.turnsLeft p h < s.turnsLeft p h)
    (ht : ∀ q, s.dispatched h a = some q → turnsTo p q = s.turnsLeft p h ∧ s.turn h a) :
    Waits s s' h a p := by
  refine ⟨hrun, ?_, ?_, ht⟩
  · intro h' hne
    obtain ⟨h₁, h₂, h₃⟩ := hc h' hne
    simp only [turnsLeft, h₁, h₂, h₃]
  · split
    · exact hlt
    · exact Nat.le_of_lt hlt

theorem wakeup_runnable {t : Slot → Proc} (hr : (t p).state = .runnable) (c : Chan) :
    (wakeup t c p).state = .runnable := by
  rw [wakeup]
  split
  · rfl
  · exact hr

theorem wakeParent_runnable {t : Slot → Proc} (hr : (t p).state = .runnable) (o : Option Slot) :
    (wakeParent t o p).state = .runnable := by
  cases o with
  | some q => exact wakeup_runnable hr (.proc q)
  | none => exact hr

theorem update_runnable {t : Slot → Proc} (hr : (t p).state = .runnable)
    (hx : p = q → x.state = .runnable) : (Function.update t q x p).state = .runnable := by
  by_cases he : p = q
  · subst he
    rw [Function.update_self]
    exact hx rfl
  · rw [Function.update_of_ne he]
    exact hr

omit [DecidableEq H] in
/-- A waiting process is not the one that a hart runs. -/
theorem OnCpu.ne_runnable (ho : s.OnCpu h q) (hr : (s.proc p).state = .runnable) : p ≠ q := by
  intro he
  subst he
  rw [ho.2.1] at hr
  cases hr

/-- The loop of `scheduler` looks at one slot. -/
theorem Waits.scan (hi : s.ScanInv) (hc : s.ctl h = .scan) (hn : s.cpuProc h = none)
    (hr : (s.proc p).state = .runnable) (hne : s.dispatched h .go ≠ some p) :
    Waits s (s.scanStep h) h .go p := by
  have hturn : s.turn h .go := by
    simp only [turn, hc]
  have hleft : s.turnsLeft p h = turnsTo p (s.scanAt h) := by
    simp only [turnsLeft, hn, hc]
  by_cases hlt : s.scanAt h < NPROC
  · -- the slot looked at is not the waiting one, which would be dispatched
    simp only [dispatched, hc, hlt, ↓reduceDIte] at hne
    have hat : s.scanAt h ≠ p := by
      intro he
      have hp : (⟨s.scanAt h, hlt⟩ : Slot) = p := Fin.ext he
      rw [hp, if_pos hr] at hne
      exact hne rfl
    have hnext := turnsTo_succ hlt hat
    simp only [scanStep, hlt, ↓reduceDIte]
    split
    · rename_i hrun
      apply Waits.of_turn
      · apply update_runnable hr
        intro he
        exact absurd (congrArg Fin.val he).symm hat
      · intro h' hne'
        exact ⟨Function.update_of_ne hne' _ _, rfl, Function.update_of_ne hne' _ _⟩
      · rw [hleft]
        simp only [turnsLeft, Function.update_self]
        omega
      · intro q hq
        simp only [dispatched, hc, hlt, ↓reduceDIte, hrun, if_true, Option.some.injEq] at hq
        rw [← hq, hleft]
        exact ⟨rfl, hturn⟩
    · rename_i hrun
      apply Waits.of_turn
      · exact hr
      · intro h' hne'
        exact ⟨rfl, Function.update_of_ne hne' _ _, rfl⟩
      · rw [hleft]
        simp only [turnsLeft, hn, hc, Function.update_self]
        omega
      · intro q hq
        simp only [dispatched, hc, hlt, ↓reduceDIte, hrun, if_false] at hq
        cases hq
  · have hend : s.scanAt h = NPROC := Nat.le_antisymm (hi.le h) (Nat.not_lt.1 hlt)
    simp only [scanStep, hlt, ↓reduceDIte]
    apply Waits.of_turn
    · exact hr
    · intro h' hne'
      exact ⟨rfl, rfl, Function.update_of_ne hne' _ _⟩
    · rw [hleft, hend, turnsTo_end]
      simp only [turnsLeft, release_cpuProc, hn, release_ctl, Function.update_self]
      omega
    · intro q hq
      simp only [dispatched, hc, hlt, ↓reduceDIte] at hq
      cases hq

omit [DecidableEq H] in
theorem SchedInv.scan_none (hi : s.SchedInv) (hc : s.ctl h = .scan) : s.cpuProc h = none := by
  have hl := hi.locked (by rw [hc]; exact nofun) (by rw [hc]; exact nofun)
  cases hi.holder h hl with
  | scan _ hn _ => exact hn
  | back p hb _ _ =>
    rw [hc] at hb
    cases hb
  | proc p _ hb =>
    rw [hc] at hb
    simp at hb

omit [DecidableEq H] in
theorem SchedInv.idle_none (hi : s.SchedInv) (hc : s.ctl h = .idle) : s.cpuProc h = none := by
  by_cases hl : s.lock = some h
  · cases hi.holder h hl with
    | scan _ hn _ => exact hn
    | back p hb _ _ =>
      rw [hc] at hb
      cases hb
    | proc p _ hb =>
      rw [hc] at hb
      simp at hb
  · rcases hi.others h hl with ⟨_, hn, _⟩ | ⟨hu, _⟩
    · exact hn
    · rw [hc] at hu
      cases hu

omit [DecidableEq H] in
theorem SchedInv.back_some (hi : s.SchedInv) (hc : s.ctl h = .back) :
    ∃ q, s.cpuProc h = some q ∧ (s.proc q).state ≠ .running := by
  have hl := hi.locked (by rw [hc]; exact nofun) (by rw [hc]; exact nofun)
  cases hi.holder h hl with
  | scan hb _ _ =>
    rw [hc] at hb
    cases hb
  | back q _ hq hr => exact ⟨q, hq, hr⟩
  | proc p _ hb =>
    rw [hc] at hb
    simp at hb

omit [DecidableEq H] in
theorem Keyed.waits (hk : Keyed s c s') : s'.cpuProc = s.cpuProc ∧ s'.scanAt = s.scanAt ∧
    s'.ctl = s.ctl ∧ ∀ p, (s.proc p).state = .runnable → (s'.proc p).state = .runnable := by
  cases hk with
  | erase _ _ _ => exact ⟨rfl, rfl, rfl, fun _ hr => hr⟩
  | ignored _ _ => exact ⟨rfl, rfl, rfl, fun _ hr => hr⟩
  | dropped _ _ => exact ⟨rfl, rfl, rfl, fun _ hr => hr⟩
  | newline _ _ => exact ⟨rfl, rfl, rfl, fun _ hr => wakeup_runnable hr .inbuf⟩
  | char _ _ _ => exact ⟨rfl, rfl, rfl, fun _ hr => hr⟩

theorem ScanInv.step (hi : s.SchedInv) (hs : s.ScanInv) (hst : s.step h a = some s') :
    s'.ScanInv := by
  have hsame {t : Sys H} (h₁ : t.cpuProc = s.cpuProc) (h₂ : t.scanAt = s.scanAt) : t.ScanInv := by
    constructor
    · rw [h₁, h₂]
      exact hs.at_proc
    · rw [h₂]
      exact hs.le
  by_cases hsc : a = .go ∧ s.ctl h = .scan
  · obtain ⟨rfl, hc⟩ := hsc
    simp only [Sys.step, hc, Option.some.injEq] at hst
    subst hst
    rw [scanStep]
    split
    · rename_i hlt
      dsimp only
      split
      · constructor
        · intro h' q hq
          by_cases he : h' = h
          · subst he
            simp only [Function.update_self, Option.some.injEq] at hq
            subst hq
            rfl
          · simp only [Function.update_of_ne he] at hq
            exact hs.at_proc h' q hq
        · exact hs.le
      · constructor
        · intro h' q hq
          by_cases he : h' = h
          · subst he
            rw [hi.scan_none hc] at hq
            cases hq
          · simp only [Function.update_of_ne he]
            exact hs.at_proc h' q hq
        · intro h'
          by_cases he : h' = h
          · subst he
            simp only [Function.update_self]
            exact hlt
          · simp only [Function.update_of_ne he]
            exact hs.le h'
    · exact hsame rfl rfl
  · cases Step.of_step hst with
    | acquire _ hc =>
      constructor
      · intro h' q hq
        by_cases he : h' = h
        · subst he
          simp only [inside_cpuProc, hi.idle_none hc] at hq
          cases hq
        · simp only [Function.update_of_ne he]
          exact hs.at_proc h' q hq
      · intro h'
        by_cases he : h' = h
        · subst he
          simp only [Function.update_self]
          exact Nat.zero_le _
        · simp only [Function.update_of_ne he]
          exact hs.le h'
    | dispatch _ hc _ => exact absurd ⟨rfl, hc⟩ hsc
    | skip hc => exact absurd ⟨rfl, hc⟩ hsc
    | scanned hc => exact absurd ⟨rfl, hc⟩ hsc
    | back hc =>
      obtain ⟨p, hp, _⟩ := hi.back_some hc
      constructor
      · intro h' q hq
        by_cases he : h' = h
        · subst he
          simp only [backStep, Function.update_self] at hq
          cases hq
        · simp only [backStep, Function.update_of_ne he] at hq ⊢
          exact hs.at_proc h' q hq
      · intro h'
        by_cases he : h' = h
        · subst he
          simp only [backStep, Function.update_self, hs.at_proc h' p hp]
          exact p.isLt
        · simp only [backStep, Function.update_of_ne he]
          exact hs.le h'
    | toUser _ _ _ _ => exact hsame rfl rfl
    | toWait _ _ _ _ => exact hsame rfl rfl
    | toRead _ _ _ _ _ _ => exact hsame rfl rfl
    | reap _ _ _ _ _ => exact hsame rfl rfl
    | waitSleep _ _ _ _ _ => exact hsame rfl rfl
    | childless _ _ _ _ _ => exact hsame rfl rfl
    | readSleep _ _ _ _ _ _ _ => exact hsame rfl rfl
    | readLine _ _ _ _ _ _ _ _ => exact hsame rfl rfl
    | readByte _ _ _ _ _ _ _ _ => exact hsame rfl rfl
    | readFull _ _ _ _ _ _ => exact hsame rfl rfl
    | yield _ _ _ _ => exact hsame rfl rfl
    | exit _ _ _ _ => exact hsame rfl rfl
    | wait _ _ _ _ => exact hsame rfl rfl
    | read _ _ _ _ _ => exact hsame rfl rfl
    | fork _ _ _ _ _ _ _ => exact hsame rfl rfl
    | forkFull _ _ _ _ _ _ => exact hs
    | intr c _ _ =>
      obtain ⟨h₁, h₂, _, _⟩ := (Keyed.intr s c).waits
      exact hsame h₁ h₂

/-- A step of any hart that leaves slot `p` waiting. -/
theorem Waits.of_step (hi : s.SchedInv) (hs : s.ScanInv) (hr : (s.proc p).state = .runnable)
    (hst : s.step h a = some s') (hne : s.dispatched h a ≠ some p) : Waits s s' h a p := by
  by_cases hsc : a = .go ∧ s.ctl h = .scan
  · obtain ⟨rfl, hc⟩ := hsc
    simp only [Sys.step, hc, Option.some.injEq] at hst
    subst hst
    exact .scan hs hc (hi.scan_none hc) hr hne
  have hnone : s.dispatched h a = none := by
    rw [dispatched]
    intro ha hc
    exact absurd ⟨ha, hc⟩ hsc
  have hnot {q : Slot} (hd : s.dispatched h a = some q) :
      turnsTo p q = s.turnsLeft p h ∧ s.turn h a := by
    rw [hnone] at hd
    cases hd
  have hown {q : Slot} {x : Proc} (hb : s.ctl h ≠ .back) (hq : s.cpuProc h = some q) :
      (Function.update s.proc q x p).state = .runnable :=
    update_runnable hr fun he => absurd he ((hi.working hb hq).ne_runnable hr)
  -- a step of the process that the hart runs
  have hproc {t : Sys H} {q : Slot} (hc : s.ctl h ≠ .idle) (hb : s.ctl h ≠ .back)
      (hq : s.cpuProc h = some q) (hrun : (t.proc p).state = .runnable)
      (h₁ : t.cpuProc = s.cpuProc) (h₂ : t.scanAt = s.scanAt)
      (h₃ : ∀ h', h' ≠ h → t.ctl h' = s.ctl h') : Waits s t h a p := by
    apply Waits.of_kept hrun h₁ h₂ ?_ ?_ hnone
    · intro h'
      by_cases he : h' = h
      · subst he
        exact .inr ⟨q, hq⟩
      · exact .inl (h₃ h' he)
    · rw [turn]
      · exact fun _ hi => absurd hi hc
      · exact fun ha hs => absurd ⟨ha, hs⟩ hsc
      · exact fun _ hk => absurd hk hb
  have hkept {c : Ctl} (h' : H) (he : h' ≠ h) : Function.update s.ctl h c h' = s.ctl h' :=
    Function.update_of_ne he _ _
  cases Step.of_step hst with
  | acquire _ hc =>
    apply Waits.of_turn
    · exact hr
    · intro h' he
      exact ⟨rfl, Function.update_of_ne he _ _, Function.update_of_ne he _ _⟩
    · simp only [turnsLeft, inside_cpuProc, hi.idle_none hc, hc, inside_ctl,
        Function.update_self, turnsTo_zero]
      exact Nat.lt_succ_self _
    · exact fun _ => hnot
  | dispatch _ hc _ => exact absurd ⟨rfl, hc⟩ hsc
  | skip hc => exact absurd ⟨rfl, hc⟩ hsc
  | scanned hc => exact absurd ⟨rfl, hc⟩ hsc
  | back hc =>
    obtain ⟨q, hq, _⟩ := hi.back_some hc
    apply Waits.of_turn
    · exact hr
    · intro h' he
      exact ⟨Function.update_of_ne he _ _, Function.update_of_ne he _ _,
        Function.update_of_ne he _ _⟩
    · simp only [turnsLeft, hq, backStep, inside_ctl, Function.update_self, hs.at_proc h q hq]
      exact Nat.lt_succ_self _
    · exact fun _ => hnot
  | toUser q hc hq _ => exact hproc (by simp [hc]) (by simp [hc]) hq hr rfl rfl hkept
  | toWait q hc hq _ =>
    exact hproc (by simp [hc]) (by simp [hc]) hq (hown (by simp [hc]) hq) rfl rfl hkept
  | toRead q n i hc hq _ =>
    exact hproc (by simp [hc]) (by simp [hc]) hq (hown (by simp [hc]) hq) rfl rfl hkept
  | reap q r hc hq hz =>
    -- a zombie does not wait for the processor
    have hzr : p = r → (s.proc r).reap.state = .runnable := by
      intro he
      subst he
      rw [zombieChild_state hz] at hr
      cases hr
    exact hproc (by simp [hc]) (by simp [hc]) hq (update_runnable hr hzr) rfl rfl hkept
  | waitSleep q hc hq _ _ =>
    exact hproc (by simp [hc]) (by simp [hc]) hq (hown (by simp [hc]) hq) rfl rfl hkept
  | childless q hc hq _ _ => exact hproc (by simp [hc]) (by simp [hc]) hq hr rfl rfl hkept
  | readSleep q n i hc hq _ _ =>
    exact hproc (by simp [hc]) (by simp [hc]) hq (hown (by simp [hc]) hq) rfl rfl hkept
  | readLine q n i hc hq _ _ _ => exact hproc (by simp [hc]) (by simp [hc]) hq hr rfl rfl hkept
  | readByte q n i hc hq _ _ _ => exact hproc (by simp [hc]) (by simp [hc]) hq hr rfl rfl hkept
  | readFull q n i hc hq _ => exact hproc (by simp [hc]) (by simp [hc]) hq hr rfl rfl hkept
  | yield q hc hq _ =>
    exact hproc (by simp [hc]) (by simp [hc]) hq (hown (by simp [hc]) hq) rfl rfl hkept
  | exit q hc hq _ =>
    have hne := (hi.working (by simp [hc]) hq).ne_runnable hr
    have hrun := wakeParent_runnable hr (s.proc q).parent
    exact hproc (by simp [hc]) (by simp [hc]) hq (update_runnable hrun fun he => absurd he hne)
      rfl rfl hkept
  | wait q hc hq _ => exact hproc (by simp [hc]) (by simp [hc]) hq hr rfl rfl hkept
  | read q n hc hq _ => exact hproc (by simp [hc]) (by simp [hc]) hq hr rfl rfl hkept
  | fork q c pt hc hq _ _ =>
    exact hproc (by simp [hc]) (by simp [hc]) hq (update_runnable hr fun _ => rfl) rfl rfl
      fun _ _ => rfl
  | forkFull q pt hc hq _ _ =>
    exact hproc (by simp [hc]) (by simp [hc]) hq hr rfl rfl fun _ _ => rfl
  | intr c hc _ =>
    obtain ⟨h₁, h₂, h₃, h₄⟩ := (Keyed.intr s c).waits
    apply Waits.of_kept (h₄ p hr) h₁ h₂ ?_ ?_ hnone
    · exact fun h' => .inl (by rw [h₃])
    · rfl

/-- As long as no hart dispatches slot `p`, it keeps waiting, no hart dispatches another slot a
second time, and every scheduler uses up its turns. -/
theorem ScanInv.waits (hi : s.SchedInv) (hs : s.ScanInv) (hr : (s.proc p).state = .runnable)
    (hrun : s.run as = some s') (hne : ∀ h, (h, p) ∉ s.dispatches as) :
    (s'.proc p).state = .runnable ∧
      (∀ h, s'.turnsLeft p h + s.turns h as ≤ s.turnsLeft p h) ∧
      (∀ h q, (h, q) ∈ s.dispatches as → turnsTo p q ≤ s.turnsLeft p h) ∧
      (s.dispatches as).Nodup := by
  induction as generalizing s with
  | nil =>
    cases hrun
    exact ⟨hr, fun _ => Nat.le_refl _, nofun, .nil⟩
  | cons x as ih =>
    obtain ⟨h, a⟩ := x
    obtain ⟨t, ht, hrun⟩ := Option.bind_eq_some_iff.1 hrun
    simp only [dispatches, ht, List.mem_append, not_or] at hne
    have hd : s.dispatched h a ≠ some p := by
      intro he
      have hmem := (hne h).1
      rw [he] at hmem
      exact hmem (List.mem_singleton_self _)
    have hw := Waits.of_step hi hs hr ht hd
    obtain ⟨h₁, h₂, h₃, h₄⟩ := ih (hi.step ht) (hs.step hi ht) hw.runnable hrun fun h => (hne h).2
    have hle (h' : H) : t.turnsLeft p h' ≤ s.turnsLeft p h' := by
      by_cases he : h' = h
      · subst he
        exact (Nat.le_add_right _ _).trans hw.own
      · exact Nat.le_of_eq (hw.others h' he)
    refine ⟨h₁, ?_, ?_, ?_⟩
    · intro h'
      simp only [turns, ht]
      by_cases he : h' = h
      · subst he
        have hown := hw.own
        have hrest := h₂ h'
        simp only [true_and]
        omega
      · have hrest := h₂ h'
        rw [if_neg fun hc => he hc.1.symm, Nat.zero_add]
        exact hrest.trans (hle h')
    · intro h' q hq
      simp only [dispatches, ht, List.mem_append] at hq
      rcases hq with hq | hq
      · cases hc : s.dispatched h a with
        | none => simp [hc] at hq
        | some r =>
          simp only [hc, Option.map_some, Option.toList_some, List.mem_singleton,
            Prod.mk.injEq] at hq
          obtain ⟨rfl, rfl⟩ := hq
          exact Nat.le_of_eq (hw.taken q hc).1
      · exact (h₃ h' q hq).trans (hle h')
    · simp only [dispatches, ht]
      cases hc : s.dispatched h a with
      | none => exact h₄
      | some r =>
        obtain ⟨hto, hturn⟩ := hw.taken r hc
        have hown := hw.own
        rw [if_pos hturn] at hown
        apply List.Nodup.cons ?_ h₄
        intro hmem
        have hlater := h₃ h r hmem
        omega

omit [DecidableEq H] in
theorem boot_scanInv (k t : Nat) : (boot k t : Sys H).ScanInv where
  at_proc := nofun
  le := fun _ => Nat.zero_le _

theorem Reach.scanInv {k t : Nat} (hk : k ≠ 0) (ht : t ≠ k) (hr : Reach k t s) : s.ScanInv := by
  induction hr with
  | boot => exact boot_scanInv k t
  | step h a hr hs ih => exact ih.step (hr.inv hk ht) hs

/-- A process that is ready to run stays so until a hart dispatches it, and before that every
hart dispatches each other process at most once and makes at most 17 steps of its scheduler. -/
theorem bounded_bypass [Fintype H] {k t : Nat} (hk : k ≠ 0) (ht : t ≠ k) (hr : Reach k t s)
    (hp : (s.proc p).state = .runnable) (hrun : s.run as = some s')
    (hne : ∀ h, (h, p) ∉ s.dispatches as) :
    (s'.proc p).state = .runnable ∧ (s.dispatches as).Nodup ∧
      (s.dispatches as).length ≤ Fintype.card H * (NPROC - 1) ∧
      ∀ h, s.turns h as ≤ 2 * NPROC + 1 := by
  have hs := hr.scanInv hk ht
  obtain ⟨hrun, hturns, _, hnodup⟩ := hs.waits (hr.inv hk ht) hp hrun hne
  refine ⟨hrun, hnodup, ?_, ?_⟩
  · have hsub : (s.dispatches as).toFinset ⊆
        (Finset.univ : Finset H) ×ˢ (Finset.univ.erase p) := by
      intro x hx
      have hx : x ∈ s.dispatches as := List.mem_toFinset.1 hx
      have hxp : x.2 ≠ p := by
        intro he
        exact hne x.1 (he ▸ hx)
      exact Finset.mem_product.2 ⟨Finset.mem_univ _, Finset.mem_erase.2 ⟨hxp, Finset.mem_univ _⟩⟩
    have hcard := Finset.card_le_card hsub
    rw [List.toFinset_card_of_nodup hnodup, Finset.card_product, Finset.card_univ,
      Finset.card_erase_of_mem (Finset.mem_univ p), Finset.card_univ, Fintype.card_fin] at hcard
    exact hcard
  · intro h
    have hle := hturns h
    exact (Nat.le_add_left _ _).trans (hle.trans hs.turnsLeft_le)

/-- The shell has forked a child and gives up the processor. -/
def yieldRun : List (Bool × Act) :=
  List.replicate 3 (false, .go) ++ [(false, .fork 3), (false, .yield)]

def yieldState : Sys Bool := ((Sys.boot 1 2 : Sys Bool).run yieldRun).getD (Sys.boot 1 2)

def bypassState : Sys Bool := (yieldState.run [(false, .go), (false, .go)]).getD yieldState

theorem bounded_bypass_child :
    (bypassState.proc .shell).state = .runnable ∧
      yieldState.dispatches [(false, .go), (false, .go)] = [(false, ⟨1, by decide⟩)] ∧
      ∀ h, yieldState.turns h [(false, .go), (false, .go)] ≤ 17 := by
  have hs : (Sys.boot 1 2 : Sys Bool).run yieldRun = some yieldState := rfl
  have hrun : yieldState.run [(false, .go), (false, .go)] = some bypassState := rfl
  have hd : yieldState.dispatches [(false, .go), (false, .go)] = [(false, ⟨1, by decide⟩)] := by
    decide
  have hne : ∀ h, (h, Slot.shell) ∉ yieldState.dispatches [(false, .go), (false, .go)] := by
    rw [hd]
    decide
  have hb := bounded_bypass (by decide) (by decide) (Reach.boot.run hs) (by decide) hrun hne
  exact ⟨hb.1, hd, hb.2.2.2⟩

end Sys

end KernelHobby
