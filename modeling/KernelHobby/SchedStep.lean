import KernelHobby.SchedInv

namespace KernelHobby
set_option autoImplicit true

namespace Sys
variable {H : Type} [DecidableEq H] {s s' : Sys H} {h : H} {a : Act} {p : Slot}

omit [DecidableEq H] in
/-- A hart that is not on its way back to the scheduler runs the process it has. -/
theorem SchedInv.working (hi : s.SchedInv) (hc : s.ctl h ≠ .back) (hp : s.cpuProc h = some p) :
    s.OnCpu h p := by
  by_cases hl : s.lock = some h
  · exact hi.holder_onCpu hl hp hc
  · rcases hi.others h hl with ⟨_, hn, _⟩ | ⟨_, q, hq⟩
    · rw [hn] at hp
      cases hp
    · obtain rfl : q = p := Option.some.inj (hq.1.symm.trans hp)
      exact hq

/-- The steps of the harts, one rule for each way through the code. -/
inductive Step (s : Sys H) (h : H) : Act → Sys H → Prop where
  | acquire : s.lock = none → s.ctl h = .idle →
      Step s h .go { s.inside h .scan with scanAt := Function.update s.scanAt h 0 }
  | dispatch (p : Slot) : s.ctl h = .scan → (s.proc p).state = .runnable →
      Step s h .go { (s.setProc p { s.proc p with state := .running }).inside h .resume with
        cpuProc := Function.update s.cpuProc h (some p)
        satp := Function.update s.satp h (s.proc p).pagetable }
  | skip : s.ctl h = .scan →
      Step s h .go { s with scanAt := Function.update s.scanAt h (s.scanAt h + 1) }
  | scanned : s.ctl h = .scan → Step s h .go (s.release h .idle)
  | back : s.ctl h = .back → Step s h .go (s.backStep h)
  | toUser (p : Slot) : s.ctl h = .resume → s.cpuProc h = some p →
      (s.proc p).resume = .entry ∨ (s.proc p).resume = .yielded →
      Step s h .go (s.release h .user)
  | toWait (p : Slot) : s.ctl h = .resume → s.cpuProc h = some p →
      (s.proc p).resume = .waiting →
      Step s h .go ((s.setProc p { s.proc p with chan := .none }).inside h .wait)
  | toRead (p : Slot) (n i : Int) : s.ctl h = .resume → s.cpuProc h = some p →
      (s.proc p).resume = .reading n i →
      Step s h .go ((s.setProc p { s.proc p with chan := .none }).inside h (.read n i))
  | reap (p q : Slot) : s.ctl h = .wait → s.cpuProc h = some p → zombieChild s.proc p = some q →
      Step s h .go ((s.setProc q (s.proc q).reap).release h .user)
  | waitSleep (p : Slot) : s.ctl h = .wait → s.cpuProc h = some p → zombieChild s.proc p = none →
      hasChild s.proc p = true → Step s h .go (s.sleep h p (.proc p) .waiting)
  | childless (p : Slot) : s.ctl h = .wait → s.cpuProc h = some p → zombieChild s.proc p = none →
      hasChild s.proc p = false → Step s h .go (s.release h .user)
  | readSleep (p : Slot) (n i : Int) : s.ctl h = .read n i → s.cpuProc h = some p → i < n →
      s.inR = s.inW → Step s h .go (s.sleep h p .inbuf (.reading n i))
  | readLine (p : Slot) (n i : Int) : s.ctl h = .read n i → s.cpuProc h = some p → i < n →
      s.inR ≠ s.inW → s.inbuf (s.inR % INBUF) = 10 →
      Step s h .go ({ s with inR := s.inR + 1 }.release h .user)
  | readByte (p : Slot) (n i : Int) : s.ctl h = .read n i → s.cpuProc h = some p → i < n →
      s.inR ≠ s.inW → s.inbuf (s.inR % INBUF) ≠ 10 →
      Step s h .go ({ s with inR := s.inR + 1 }.inside h (.read n (i + 1)))
  | readFull (p : Slot) (n i : Int) : s.ctl h = .read n i → s.cpuProc h = some p → ¬ i < n →
      Step s h .go (s.release h .user)
  | yield (p : Slot) : s.ctl h = .user → s.cpuProc h = some p → s.lock = none →
      Step s h .yield (s.yield h p)
  | exit (p : Slot) : s.ctl h = .user → s.cpuProc h = some p → s.lock = none →
      Step s h .exit (s.procExit h p)
  | wait (p : Slot) : s.ctl h = .user → s.cpuProc h = some p → s.lock = none →
      Step s h .wait (s.inside h .wait)
  | read (p : Slot) (n : Int) : s.ctl h = .user → s.cpuProc h = some p → s.lock = none →
      Step s h (.read n) (s.inside h (.read n 0))
  | fork (p c : Slot) (pt : Nat) : s.ctl h = .user → s.cpuProc h = some p → s.lock = none →
      freeSlot s.proc = some c →
      Step s h (.fork pt) { s.setProc c { s.proc c with
          state := .runnable, pid := s.nextPid, parent := some p, pagetable := pt
          resume := .entry } with
        nextPid := s.nextPid + 1 }
  | forkFull (p : Slot) (pt : Nat) : s.ctl h = .user → s.cpuProc h = some p → s.lock = none →
      freeSlot s.proc = none → Step s h (.fork pt) s
  | intr (c : UInt8) : s.ctl h = .idle ∨ s.ctl h = .user → s.lock = none →
      Step s h (.intr c) (s.consoleIntr c)

theorem Step.scan (hc : s.ctl h = .scan) : Step s h .go (s.scanStep h) := by
  simp only [scanStep]
  split
  · split
    · exact .dispatch _ hc ‹_›
    · exact .skip hc
  · exact .scanned hc

theorem Step.resume (hc : s.ctl h = .resume) (hp : s.cpuProc h = some p)
    (hs : s.resumeStep h p = some s') : Step s h .go s' := by
  simp only [resumeStep] at hs
  split at hs
  · cases hs
    exact .toUser p hc hp (.inl ‹_›)
  · cases hs
    exact .toUser p hc hp (.inr ‹_›)
  · cases hs
    exact .toWait p hc hp ‹_›
  · cases hs
    exact .toRead p _ _ hc hp ‹_›
  · cases hs

theorem Step.waiting (hc : s.ctl h = .wait) (hp : s.cpuProc h = some p) :
    Step s h .go (s.waitStep h p) := by
  simp only [waitStep]
  split
  · exact .reap p _ hc hp ‹_›
  · split
    · exact .waitSleep p hc hp ‹_› ‹_›
    · exact .childless p hc hp ‹_› (Bool.not_eq_true _ ▸ ‹_›)

theorem Step.reading (hc : s.ctl h = .read n i) (hp : s.cpuProc h = some p) :
    Step s h .go (s.readStep h p n i) := by
  simp only [readStep, Nat.add_sub_cancel]
  split
  · split
    · exact .readSleep p n i hc hp ‹_› ‹_›
    · split
      · exact .readLine p n i hc hp ‹_› ‹_› ‹_›
      · exact .readByte p n i hc hp ‹_› ‹_› ‹_›
  · exact .readFull p n i hc hp ‹_›

theorem Step.forking (hc : s.ctl h = .user) (hp : s.cpuProc h = some p) (hl : s.lock = none) :
    Step s h (.fork pt) (s.procFork p pt) := by
  simp only [procFork]
  split
  · exact .forkFull p pt hc hp hl ‹_›
  · exact .fork p _ pt hc hp hl ‹_›

/-- Every step of the code is one of the rules. -/
theorem Step.of_step (hs : s.step h a = some s') : Step s h a s' := by
  simp only [step] at hs
  split at hs
  · split at hs
    · cases hs
      exact .acquire ‹_› ‹_›
    · cases hs
  · cases hs
    exact .scan ‹_›
  · cases hs
    exact .back ‹_›
  · exact .resume ‹_› ‹_› hs
  · cases hs
    exact .waiting ‹_› ‹_›
  · cases hs
    exact .reading ‹_› ‹_›
  · split at hs
    · cases hs
      exact .yield _ ‹_› ‹_› ‹_›
    · cases hs
  · split at hs
    · cases hs
      exact .exit _ ‹_› ‹_› ‹_›
    · cases hs
  · split at hs
    · cases hs
      exact .wait _ ‹_› ‹_› ‹_›
    · cases hs
  · split at hs
    · cases hs
      exact .read _ _ ‹_› ‹_› ‹_›
    · cases hs
  · split at hs
    · rename_i hl
      cases hs
      exact .forking ‹_› ‹_› hl.1
    · cases hs
  · split at hs
    · cases hs
      exact .intr _ (.inl ‹_›) ‹_›
    · cases hs
  · split at hs
    · cases hs
      exact .intr _ (.inr ‹_›) ‹_›
    · cases hs
  · cases hs

/-- What `console_intr` does with a character. -/
inductive Keyed (s : Sys H) (c : UInt8) : Sys H → Prop where
  | erase : c = 127 ∨ c = 8 → s.inR < s.inW → s.inbuf ((s.inW - 1) % INBUF) ≠ 10 →
      Keyed s c { s with inW := s.inW - 1 }
  | ignored : c = 127 ∨ c = 8 → ¬ (s.inR < s.inW ∧ s.inbuf ((s.inW - 1) % INBUF) ≠ 10) →
      Keyed s c s
  | dropped : ¬ (c = 127 ∨ c = 8) → INBUF ≤ s.inW - s.inR → Keyed s c s
  | newline : c = 10 ∨ c = 13 → s.inW - s.inR < INBUF →
      Keyed s c { s with
        inbuf := Function.update s.inbuf (s.inW % INBUF) 10
        inW := s.inW + 1
        proc := wakeup s.proc .inbuf }
  | char : ¬ (c = 127 ∨ c = 8) → ¬ (c = 10 ∨ c = 13) → s.inW - s.inR < INBUF →
      Keyed s c { s with
        inbuf := Function.update s.inbuf (s.inW % INBUF) c
        inW := s.inW + 1 }

omit [DecidableEq H] in
theorem Keyed.intr (s : Sys H) (c : UInt8) : Keyed s c (s.consoleIntr c) := by
  by_cases hr : c = 13
  · subst hr
    simp only [consoleIntr, if_pos]
    rw [if_neg (by decide)]
    split
    · exact .dropped (by decide) ‹_›
    · exact .newline (by decide) (Nat.not_le.1 ‹_›)
  · simp only [consoleIntr, if_neg hr]
    split
    · split
      · rename_i hc hw
        exact .erase hc hw.1 hw.2
      · exact .ignored ‹_› ‹_›
    · rename_i hc
      split
      · exact .dropped hc ‹_›
      · rename_i hw
        by_cases hn : c = 10
        · subst hn
          exact .newline (.inl rfl) (Nat.not_le.1 hw)
        · rw [if_neg hn]
          refine .char hc ?_ (Nat.not_le.1 hw)
          rintro (he | he)
          · exact hn he
          · exact hr he

section Runs
variable {G : Type} (note : Sys H → H → Act → G → G)

/-- In every state that the run reaches `P` holds; `note` says what a run keeps on the side. -/
def Always (P : Sys H → G → Prop) (s : Sys H) (g : G) : List (H × Act) → Prop
  | [] => P s g
  | (h, a) :: as => P s g ∧ ∀ s', s.step h a = some s' → Always P s' (note s h a g) as

/-- Every step that the run makes meets the condition in the state before it. -/
def Along (ok : Sys H → G → H → Act → Prop) (s : Sys H) (g : G) : List (H × Act) → Prop
  | [] => True
  | (h, a) :: as => ∀ s', s.step h a = some s' → ok s g h a ∧ Along ok s' (note s h a g) as

variable {note} {P I : Sys H → G → Prop} {ok : Sys H → G → H → Act → Prop} {g : G}

theorem Always.head (hp : Always note P s g as) : P s g := by
  cases as with
  | nil => exact hp
  | cons x as => exact hp.1

/-- A property that every step keeps which meets the condition. -/
theorem Along.always
    (hI : ∀ s g h a s', I s g → ok s g h a → s.step h a = some s' → I s' (note s h a g))
    (hP : ∀ s g, I s g → P s g) (hi : I s g) (hok : Along note ok s g as) :
    Always note P s g as := by
  induction as generalizing s g with
  | nil => exact hP s g hi
  | cons x as ih =>
    obtain ⟨h, a⟩ := x
    refine ⟨hP s g hi, ?_⟩
    intro s' hs
    obtain ⟨ho, hrest⟩ := hok s' hs
    exact ih (hI s g h a s' hi ho hs) hrest

/-- A property that a step keeps exactly when it meets the condition, with an invariant that
every step keeps. -/
theorem always_iff_along
    (hI : ∀ s g h a s', I s g → s.step h a = some s' → I s' (note s h a g))
    (hP : ∀ s g h a s', I s g → P s g → s.step h a = some s' →
      (P s' (note s h a g) ↔ ok s g h a))
    (hi : I s g) (hp : P s g) : Always note P s g as ↔ Along note ok s g as := by
  constructor
  · intro hall
    induction as generalizing s g with
    | nil => trivial
    | cons x as ih =>
      obtain ⟨h, a⟩ := x
      intro s' hs
      have hrest := hall.2 s' hs
      exact ⟨(hP s g h a s' hi hp hs).1 hrest.head, ih (hI s g h a s' hi hs) hrest.head hrest⟩
  · refine Along.always (I := fun s g => I s g ∧ P s g) ?_ (fun _ _ h => h.2) ⟨hi, hp⟩
    rintro s g h a s' ⟨hi, hp⟩ ho hs
    exact ⟨hI s g h a s' hi hs, (hP s g h a s' hi hp hs).2 ho⟩

instance Along.decidable [∀ s g h, DecidablePred (ok s g h)] (s : Sys H) (g : G) :
    (as : List (H × Act)) → Decidable (Along note ok s g as)
  | [] => .isTrue trivial
  | (h, a) :: as =>
    match hs : s.step h a with
    | none => .isTrue fun _ hs' => nomatch hs.symm.trans hs'
    | some s' =>
      have : Decidable (Along note ok s' (note s h a g) as) := Along.decidable s' (note s h a g) as
      decidable_of_iff (ok s g h a ∧ Along note ok s' (note s h a g) as)
        ⟨fun ho _ hs' => Option.some.inj (hs.symm.trans hs') ▸ ho, fun ho => ho s' hs⟩

instance Always.decidable [∀ s, DecidablePred (P s)] (s : Sys H) (g : G) :
    (as : List (H × Act)) → Decidable (Always note P s g as)
  | [] => inferInstanceAs (Decidable (P s g))
  | (h, a) :: as =>
    match hs : s.step h a with
    | none => decidable_of_iff (P s g) ⟨fun hp => ⟨hp, fun _ hs' => nomatch hs.symm.trans hs'⟩, And.left⟩
    | some s' =>
      have : Decidable (Always note P s' (note s h a g) as) := Always.decidable s' (note s h a g) as
      decidable_of_iff (P s g ∧ Always note P s' (note s h a g) as)
        ⟨fun hp => ⟨hp.1, fun _ hs' => Option.some.inj (hs.symm.trans hs') ▸ hp.2⟩,
          fun hp => ⟨hp.1, hp.2 s' hs⟩⟩

end Runs

end Sys

end KernelHobby
