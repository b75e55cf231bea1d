import KernelHobby.Fair
import KernelHobby.LineEdit
import KernelHobby.UserShell

namespace KernelHobby
set_option autoImplicit true

/-- A log of reads, and the line that each finished call has got. -/
abbrev LineLog := ReadLog × List (List UInt8)

def LineLog.empty : LineLog := ⟨⟨[], fun _ => [], []⟩, []⟩

/-- A line of the shell: up to its newline, or as much as the shell has asked for. -/
def IsLine (l : List UInt8) : Prop :=
  (∃ t, l = t ++ [10] ∧ 10 ∉ t) ∨ (LINESZ ≤ l.length + 1 ∧ 10 ∉ l)

theorem first_newline {t u v w : List UInt8} (ht : 10 ∉ t) (hu : 10 ∉ u)
    (h : t ++ 10 :: v = u ++ 10 :: w) : t = u := by
  have hi := congrArg (List.idxOf 10) h
  rw [List.idxOf_append_of_notMem ht, List.idxOf_append_of_notMem hu, List.idxOf_cons_self,
    List.idxOf_cons_self, Nat.add_zero, Nat.add_zero] at hi
  exact List.append_inj_left h hi

/-- Lines are the only way to cut a text into lines. -/
theorem lines_of_typed {ls : List (List UInt8)} {cs : List Command} (hls : ∀ l ∈ ls, IsLine l)
    (hcs : ∀ c ∈ cs, c.Typable ∧ 10 ∉ c.line) (hp : ls.flatten <+: cs.flatMap Command.typed) :
    ls = (cs.take ls.length).map Command.typed := by
  induction ls generalizing cs with
  | nil => rfl
  | cons l ls ih =>
    rw [List.forall_mem_cons] at hls
    have hne : l ≠ [] := by
      rintro rfl
      rcases hls.1 with ⟨t, ht, _⟩ | ⟨hlen, _⟩
      · exact List.append_ne_nil_of_right_ne_nil t (List.cons_ne_nil _ _) ht.symm
      · exact absurd hlen (by decide)
    rw [List.flatten_cons] at hp
    cases cs with
    | nil =>
      have hnil := List.prefix_nil.1 hp
      exact absurd (List.append_eq_nil_iff.1 hnil).1 hne
    | cons c cs =>
      rw [List.forall_mem_cons] at hcs
      obtain ⟨⟨hc, hten⟩, hcs⟩ := hcs
      rw [List.flatMap_cons] at hp
      have hl : l <+: c.typed ++ cs.flatMap Command.typed := (List.prefix_append _ _).trans hp
      have hcl : c.typed <+: c.typed ++ cs.flatMap Command.typed := List.prefix_append _ _
      have heq : l = c.typed := by
        rcases hls.1 with ⟨t, rfl, ht⟩ | ⟨hlen, hno⟩
        · obtain ⟨r, hr⟩ := hl
          rw [Command.typed, List.append_assoc, List.append_assoc] at hr
          rw [Command.typed, first_newline ht hten hr]
        · -- a line without a newline is longer than any command
          have hlong := hc.length
          have hsz : LINESZ = 128 := rfl
          have hle : c.typed.length ≤ l.length := by
            rw [Command.typed, List.length_append, List.length_singleton]
            omega
          have hpre := List.prefix_of_prefix_length_le hcl hl hle
          exact absurd (hpre.subset (List.mem_append_right _ (List.mem_singleton_self _))) hno
      subst heq
      have hrest := ih hls.2 hcs ((List.prefix_append_right_inj _).1 hp)
      rw [List.length_cons, List.take_succ_cons, List.map_cons, ← hrest]

namespace Sys
variable {H : Type} [DecidableEq H] {s s' : Sys H} {h : H} {a : Act} {p q : Slot} {l : ReadLog}
variable {g : LineLog} {b b' : List UInt8}

/-- The line of a call of `console_read` that returns in this step. -/
def lineOf (s : Sys H) (h : H) (a : Act) (l : ReadLog) : List (List UInt8) :=
  match a, s.ctl h, s.cpuProc h with
  | .go, .read n i, some p =>
    if i < n then
      if s.inR = s.inW then []
      else if s.inbuf (s.inR % INBUF) = 10 then [l.stored p ++ [10]] else []
    else [l.stored p]
  | _, _, _ => []

def recordLines (s : Sys H) (h : H) (a : Act) (g : LineLog) : LineLog :=
  (s.recordRead h a g.1, g.2 ++ s.lineOf h a g.1)

/-- Only the shell reads, with the size of its line, in the conditions of the console. -/
def ShellReads (s : Sys H) (g : LineLog) (h : H) (a : Act) : Prop :=
  OneReader .shell s h a ∧ EraseOk s g.1 a ∧
    match a with
    | .read n => n = 127
    | _ => True

instance (s : Sys H) (g : LineLog) (h : H) : DecidablePred (ShellReads s g h)
  | .read n => inferInstanceAs (Decidable (_ ∧ _ ∧ n = 127))
  | .go | .yield | .exit | .wait | .fork _ | .intr _ => inferInstanceAs (Decidable (_ ∧ _ ∧ True))

/-- Hart `h` runs the shell, which is not about to leave it or just back on it. -/
def Runs (s : Sys H) (h : H) : Prop :=
  s.cpuProc h = some .shell ∧ s.ctl h ≠ .back ∧ s.ctl h ≠ .resume

/-- A call of `console_read` has stored at least as much as it has counted, also where it will go
on after a sleep. -/
structure Counted (s : Sys H) (b : List UInt8) : Prop where
  reads : ∀ h n i, s.ctl h = .read n i → n = 127 ∧ i ≤ b.length
  parked : ∀ n i, (s.proc .shell).resume = .reading n i → (∃ h, s.Runs h) ∨ n = 127 ∧ i ≤ b.length

/-- What a step of hart `h` has to keep; the other harts are left alone. -/
theorem Counted.change (hk : s.Counted b)
    (ho : ∀ h', h' ≠ h → s'.ctl h' = s.ctl h' ∧ s'.cpuProc h' = s.cpuProc h')
    (hb : b.length ≤ b'.length) (hread : ∀ n i, s'.ctl h = .read n i → n = 127 ∧ i ≤ b'.length)
    (hpark : ∀ n i, (s'.proc .shell).resume = .reading n i → s'.Runs h ∨
      (n = 127 ∧ i ≤ b'.length) ∨ (s.proc .shell).resume = .reading n i ∧ ¬ s.Runs h) :
    s'.Counted b' where
  reads h' n i hc := by
    by_cases he : h' = h
    · subst he
      exact hread n i hc
    · rw [(ho h' he).1] at hc
      obtain ⟨hn, hi⟩ := hk.reads h' n i hc
      exact ⟨hn, by omega⟩
  parked n i hr := by
    rcases hpark n i hr with hrun | hle | ⟨hr, hnot⟩
    · exact .inl ⟨h, hrun⟩
    · exact .inr hle
    · rcases hk.parked n i hr with ⟨h', hrun⟩ | ⟨hn, hi⟩
      · have he : h' ≠ h := fun he => hnot (he ▸ hrun)
        refine .inl ⟨h', ?_⟩
        rw [Runs, (ho h' he).1, (ho h' he).2]
        exact hrun
      · exact .inr ⟨hn, by omega⟩

/-- A hart that does not run the shell goes anywhere but into a read. -/
theorem Counted.idle (hk : s.Counted b) (hrun : ¬ s.Runs h) (hc : ∀ n i, c ≠ .read n i)
    (hctl : s'.ctl = Function.update s.ctl h c)
    (hcpu : ∀ h', h' ≠ h → s'.cpuProc h' = s.cpuProc h')
    (hres : ∀ n i, (s'.proc .shell).resume = .reading n i →
      (s.proc .shell).resume = .reading n i) : s'.Counted b := by
  refine hk.change (h := h) ?_ (Nat.le_refl _) ?_ fun n i hr => .inr (.inr ⟨hres n i hr, hrun⟩)
  · intro h' he
    rw [hctl]
    exact ⟨Function.update_of_ne he _ _, hcpu h' he⟩
  · intro n i hrd
    rw [hctl, Function.update_self] at hrd
    exact absurd hrd (hc n i)

/-- A process leaves its hart, not out of a read if it is the shell. -/
theorem Counted.leave (hk : s.Counted b) (hp : s.cpuProc h = some p)
    (hctl : s'.ctl = Function.update s.ctl h .back) (hcpu : s'.cpuProc = s.cpuProc)
    (hres : ∀ n i, (s'.proc .shell).resume = .reading n i →
      p ≠ .shell ∧ (s.proc .shell).resume = .reading n i) : s'.Counted b := by
  refine hk.change (h := h) ?_ (Nat.le_refl _) ?_ fun n i hr => .inr (.inr ?_)
  · intro h' he
    rw [hctl, hcpu]
    exact ⟨Function.update_of_ne he _ _, rfl⟩
  · intro n i hrd
    rw [hctl, Function.update_self] at hrd
    cases hrd
  · obtain ⟨hne, hr⟩ := hres n i hr
    exact ⟨hr, fun hrun => hne (Option.some.inj (hp.symm.trans hrun.1))⟩

/-- A hart goes on with the process that it runs. -/
theorem Counted.stay (hk : s.Counted b) (hb : b.length ≤ b'.length) (hc : c ≠ .back ∧ c ≠ .resume)
    (hctl : s'.ctl = Function.update s.ctl h c) (hcpu : s'.cpuProc = s.cpuProc)
    (hread : ∀ n i, c = .read n i → n = 127 ∧ i ≤ b'.length)
    (hres : ∀ n i, (s'.proc .shell).resume = .reading n i →
      (s.proc .shell).resume = .reading n i) : s'.Counted b' := by
  refine hk.change (h := h) ?_ hb ?_ fun n i hr => ?_
  · intro h' he
    rw [hctl, hcpu]
    exact ⟨Function.update_of_ne he _ _, rfl⟩
  · intro n i hrd
    rw [hctl, Function.update_self] at hrd
    exact hread n i hrd
  · by_cases hp : s.cpuProc h = some .shell
    · left
      rw [Runs, hctl, hcpu, Function.update_self]
      exact ⟨hp, hc⟩
    · exact .inr (.inr ⟨hres n i hr, fun hrun => hp hrun.1⟩)

/-- The call of the shell returns, and nobody else reads. -/
theorem Counted.handed (hi : s.SchedInv) (hr : s.OnlyReader .shell) (hc : s.ctl h = .read n i)
    (hctl : s'.ctl = Function.update s.ctl h .user) (hcpu : s'.cpuProc = s.cpuProc) :
    s'.Counted b where
  reads h' m j hm := by
    have hne : h' ≠ h := by
      rintro rfl
      rw [hctl, Function.update_self] at hm
      cases hm
    rw [hctl, Function.update_of_ne hne] at hm
    exact absurd (hi.once h' h .shell (hr.reads h' m j hm) (hr.reads h n i hc)) hne
  parked m j _ := by
    refine .inl ⟨h, ?_, ?_, ?_⟩
    · rw [hcpu]
      exact hr.reads h n i hc
    · rw [hctl, Function.update_self]
      exact Ctl.noConfusion
    · rw [hctl, Function.update_self]
      exact Ctl.noConfusion

theorem resume_left {t : Slot → Proc} {x : Proc}
    (hq : (Function.update t p x q).resume = .reading n i) (hx : ∀ n i, x.resume ≠ .reading n i) :
    p ≠ q ∧ (t q).resume = .reading n i := by
  have hne : p ≠ q := by
    rintro rfl
    rw [Function.update_self] at hq
    exact hx n i hq
  rw [Function.update_of_ne hne.symm] at hq
  exact ⟨hne, hq⟩

theorem Counted.step (hk : s.Counted (l.stored .shell)) (hi : s.SchedInv)
    (hr : s.OnlyReader .shell) (hs : Step s h a s') (hn : ∀ n, a = .read n → n = 127) :
    s'.Counted ((s.recordRead h a l).stored .shell) := by
  have hlog (he : s.recordRead h a l = l) (hk : s'.Counted (l.stored .shell)) :
      s'.Counted ((s.recordRead h a l).stored .shell) := by
    rw [he]
    exact hk
  have huser : Ctl.user ≠ .back ∧ Ctl.user ≠ .resume := ⟨Ctl.noConfusion, Ctl.noConfusion⟩
  cases hs with
  | acquire hl hc =>
    refine hlog (by simp [recordRead, hc]) (hk.idle ?_ (fun _ _ => Ctl.noConfusion) rfl
      (fun _ _ => rfl) fun _ _ => id)
    intro hrun
    rw [Runs, hi.idle_none hc] at hrun
    cases hrun.1
  | dispatch p hc hst =>
    refine hlog (by simp [recordRead, hc]) (hk.idle ?_ (fun _ _ => Ctl.noConfusion) rfl
      (fun _ he => Function.update_of_ne he _ _) fun _ _ hr => resume_update hr id)
    intro hrun
    rw [Runs, hi.scan_none hc] at hrun
    cases hrun.1
  | skip hc => exact hlog (by simp [recordRead, hc]) ⟨hk.reads, hk.parked⟩
  | scanned hc =>
    refine hlog (by simp [recordRead, hc]) (hk.idle ?_ (fun _ _ => Ctl.noConfusion) rfl
      (fun _ _ => rfl) fun _ _ => id)
    intro hrun
    rw [Runs, hi.scan_none hc] at hrun
    cases hrun.1
  | back hc =>
    exact hlog (by simp [recordRead, hc]) (hk.idle (fun hrun => hrun.2.1 hc)
      (fun _ _ => Ctl.noConfusion) rfl (fun _ he => Function.update_of_ne he _ _) fun _ _ => id)
  | toUser p hc hp _ =>
    exact hlog (by simp [recordRead, hc]) (hk.idle (fun hrun => hrun.2.2 hc)
      (fun _ _ => Ctl.noConfusion) rfl (fun _ _ => rfl) fun _ _ => id)
  | toWait p hc hp _ =>
    exact hlog (by simp [recordRead, hc]) (hk.idle (fun hrun => hrun.2.2 hc)
      (fun _ _ => Ctl.noConfusion) rfl (fun _ _ => rfl) fun _ _ hr => resume_update hr id)
  | toRead p n i hc hp hrs =>
    obtain rfl : p = .shell := hr.resumes p n i hrs
    have hle : n = 127 ∧ i ≤ (l.stored .shell).length := by
      refine (hk.parked n i hrs).resolve_left ?_
      rintro ⟨h', hrun⟩
      obtain rfl := hi.once h' h .shell hrun.1 hp
      exact hrun.2.2 hc
    refine hlog (by simp [recordRead, hc])
      (hk.stay (Nat.le_refl _) ⟨Ctl.noConfusion, Ctl.noConfusion⟩ rfl rfl ?_
        fun _ _ hr => resume_update hr id)
    intro m j he
    cases he
    exact hle
  | reap p q hc hp hz =>
    exact hlog (by simp [recordRead, hc]) (hk.stay (Nat.le_refl _) huser rfl rfl
      (fun _ _ => Ctl.noConfusion) fun _ _ hr => resume_update hr id)
  | waitSleep p hc hp hz hkid =>
    exact hlog (by simp [recordRead, hc]) (hk.leave hp rfl rfl
      fun _ _ hr => resume_left hr fun _ _ => Resume.noConfusion)
  | childless p hc hp hz hkid =>
    exact hlog (by simp [recordRead, hc]) (hk.stay (Nat.le_refl _) huser rfl rfl
      (fun _ _ => Ctl.noConfusion) fun _ _ => id)
  | readSleep p n i hc hp hin he =>
    have hle := hk.reads h n i hc
    refine hlog (by simp [recordRead, hc, hp, hin, he]) (hk.change (h := h)
      (ctl_update _) (Nat.le_refl _) ?_ ?_)
    · intro m j hrd
      simp only [Sys.sleep, inside_ctl, Function.update_self] at hrd
      cases hrd
    · intro m j hrs
      obtain rfl : p = .shell := Option.some.inj (hp.symm.trans (hr.reads h n i hc))
      simp only [Sys.sleep, inside_proc, setProc_proc, Function.update_self] at hrs
      cases hrs
      exact .inr (.inl hle)
  | readLine p n i hc hp _ _ _ => exact .handed hi hr hc rfl rfl
  | readByte p n i hc hp hin hne hb =>
    obtain rfl : p = .shell := Option.some.inj (hp.symm.trans (hr.reads h n i hc))
    have hle := hk.reads h n i hc
    have hstored : (s.recordRead h .go l).stored .shell =
        l.stored .shell ++ [s.inbuf (s.inR % INBUF)] := by
      simp [recordRead, hc, hp, hin, hne, hb]
    rw [hstored]
    refine hk.stay ?_ ⟨Ctl.noConfusion, Ctl.noConfusion⟩ rfl rfl ?_ fun _ _ => id
    · rw [List.length_append]
      exact Nat.le_add_right _ _
    · intro m j he
      cases he
      rw [List.length_append, List.length_singleton]
      exact ⟨hle.1, by omega⟩
  | readFull p n i hc hp _ => exact .handed hi hr hc rfl rfl
  | yield p hc hp hl =>
    exact hlog (by simp [recordRead]) (hk.leave hp rfl rfl
      fun _ _ hr => resume_left hr fun _ _ => Resume.noConfusion)
  | exit p hc hp hl =>
    refine hlog (by simp [recordRead]) (hk.leave hp rfl rfl fun n i hr => ?_)
    have hw := resume_left (t := wakeParent s.proc (s.proc p).parent) hr
      fun _ _ => Resume.noConfusion
    rw [wakeParent_resume] at hw
    exact hw
  | wait p hc hp hl =>
    exact hlog (by simp [recordRead]) (hk.stay (Nat.le_refl _) ⟨Ctl.noConfusion, Ctl.noConfusion⟩
      rfl rfl (fun _ _ => Ctl.noConfusion) fun _ _ => id)
  | read p n hc hp hl =>
    refine hlog (by simp [recordRead]) (hk.stay (Nat.le_refl _) ⟨Ctl.noConfusion, Ctl.noConfusion⟩
      rfl rfl ?_ fun _ _ => id)
    intro m j he
    cases he
    exact ⟨hn n rfl, Int.natCast_nonneg _⟩
  | fork p c pt hc hp hl hf =>
    exact hlog (by simp [recordRead]) ⟨hk.reads, fun n i hr =>
      hk.parked n i (resume_update hr Resume.noConfusion)⟩
  | forkFull p pt hc hp hl hf => exact hlog (by simp [recordRead]) hk
  | intr c hc hl =>
    have hstored : (s.recordRead h (.intr c) l).stored .shell = l.stored .shell := by
      simp [recordRead]
    rw [hstored]
    have hkey := Keyed.intr s c
    generalize s.consoleIntr c = s₁ at hkey
    cases hkey with
    | newline _ _ =>
      refine ⟨hk.reads, fun n i hr => hk.parked n i ?_⟩
      rw [wakeup_resume] at hr
      exact hr
    | _ => exact ⟨hk.reads, hk.parked⟩

/-- What the calls have returned are lines, and what is stored is the start of one. -/
structure Lined (g : LineLog) : Prop where
  returned : g.1.returned = g.2.flatten
  stored : 10 ∉ g.1.stored .shell
  lines : ∀ l ∈ g.2, IsLine l

theorem Lined.snoc {g' : LineLog} {l : List UInt8} (hl : Lined g) (hline : IsLine l)
    (hret : g'.1.returned = g.1.returned ++ l) (hst : g'.1.stored .shell = [])
    (hls : g'.2 = g.2 ++ [l]) : Lined g' where
  returned := by
    rw [hret, hls, hl.returned, List.flatten_append, List.flatten_singleton]
  stored := by
    rw [hst]
    exact List.not_mem_nil
  lines l' hm := by
    rw [hls, List.mem_append, List.mem_singleton] at hm
    rcases hm with hm | rfl
    · exact hl.lines l' hm
    · exact hline

theorem Lined.step (hl : Lined g) (hk : s.Counted (g.1.stored .shell))
    (hr : s.OnlyReader .shell) (hs : Step s h a s') : Lined (s.recordLines h a g) := by
  have hquiet (hlog : s.recordRead h a g.1 = g.1) (hline : s.lineOf h a g.1 = []) :
      Lined (s.recordLines h a g) := by
    rw [recordLines, hlog, hline, List.append_nil]
    exact hl
  cases hs with
  | readSleep p n i hc hp hin he =>
    exact hquiet (by simp [recordRead, hc, hp, hin, he]) (by simp [lineOf, hc, hp, hin, he])
  | readLine p n i hc hp hin hne hb =>
    obtain rfl : p = .shell := Option.some.inj (hp.symm.trans (hr.reads h n i hc))
    apply hl.snoc (.inl ⟨g.1.stored .shell, rfl, hl.stored⟩)
    · simp [recordLines, recordRead, hc, hp, hin, hne, hb, hand]
    · simp [recordLines, recordRead, hc, hp, hin, hne, hb, hand]
    · simp [recordLines, lineOf, hc, hp, hin, hne, hb]
  | readByte p n i hc hp hin hne hb =>
    obtain rfl : p = .shell := Option.some.inj (hp.symm.trans (hr.reads h n i hc))
    have hlog : s.recordLines h .go g = ({ g.1 with
        stored := Function.update g.1.stored .shell
          (g.1.stored .shell ++ [s.inbuf (s.inR % INBUF)]) }, g.2) := by
      simp [recordLines, recordRead, lineOf, hc, hp, hin, hne, hb]
    rw [hlog]
    refine ⟨hl.returned, ?_, hl.lines⟩
    dsimp only
    rw [Function.update_self, List.mem_append, List.mem_singleton]
    rintro (hm | hm)
    · exact hl.stored hm
    · exact hb hm.symm
  | readFull p n i hc hp hin =>
    obtain rfl : p = .shell := Option.some.inj (hp.symm.trans (hr.reads h n i hc))
    have hfull : LINESZ ≤ (g.1.stored .shell).length + 1 := by
      have hle := hk.reads h n i hc
      have hsz : LINESZ = 128 := rfl
      omega
    apply hl.snoc (.inr ⟨hfull, hl.stored⟩)
    · simp [recordLines, recordRead, hc, hp, hin, hand]
    · simp [recordLines, recordRead, hc, hp, hin, hand]
    · simp [recordLines, lineOf, hc, hp, hin]
  | intr c hc hlk =>
    have hline : s.lineOf h (.intr c) g.1 = [] := rfl
    rw [recordLines, hline, List.append_nil]
    exact ⟨hl.returned, hl.stored, hl.lines⟩
  | acquire _ hc | dispatch _ hc _ | skip hc | scanned hc | back hc | toUser _ hc _ _
  | toWait _ hc _ _ | toRead _ _ _ hc _ _ | reap _ _ hc _ _ | waitSleep _ hc _ _ _
  | childless _ hc _ _ _ => exact hquiet (by simp [recordRead, hc]) (by simp [lineOf, hc])
  | _ => exact hquiet (by simp [recordRead]) (by simp [lineOf])

omit [DecidableEq H] in
theorem Counted.boot (k t : Nat) : (boot k t : Sys H).Counted [] where
  reads h n i hc := by
    cases hc
  parked n i hr := by
    simp only [Sys.boot, Function.update_self] at hr
    cases hr

/-- What was typed is in the lines of the shell, in its line or in the buffer of the console; and
commands that were typed, or their beginning, are those that the shell carries out, with what they
mean for the files of `fs`. -/
def TypedRun (fs : Fs) (line : Nat → UInt8) (s : Sys H) (g : LineLog) : Prop :=
  edited g.1.typed = g.2.flatten ++ g.1.stored .shell ++ s.unread ∧
    ∀ cs : List Command, (∀ c ∈ cs, c.Typable ∧ 10 ∉ c.line) →
      edited g.1.typed <+: cs.flatMap Command.typed →
        g.2 = (cs.take g.2.length).map Command.typed ∧
          ∃ fs' line', shellSession fs line g.2 = some (fs', line') ∧
            ShellRun fs (cs.take g.2.length) fs'

/-- `ls` is typed with a slip before the shell reads, and again in two parts, over which the shell
sleeps. -/
def lsTwice : List (Unit × Act) :=
  let keys (b : List UInt8) : List (Unit × Act) := b.map fun c => ((), .intr c)
  let gos (n : Nat) : List (Unit × Act) := List.replicate n ((), .go)
  gos 3 ++ keys [108, 120, 127, 115, 13] ++ [((), .read 127)] ++ gos 3 ++ keys [108] ++
    [((), .read 127)] ++ gos 11 ++ keys [115, 13] ++ gos 5

end Sys

end KernelHobby
