import KernelHobby.Switch
import KernelHobby.Vm

namespace KernelHobby
set_option autoImplicit true

def NTHREAD : Nat := 3

def STACKSZ : Nat := 2048

abbrev Tid := Fin NTHREAD

instance : NeZero NTHREAD := ⟨nofun⟩

/-- `struct sys`: the scheduler's context, the threads with their states, `current`, the stacks. -/
def offThread (i : Nat) : Nat := CTXSZ + 120 * i

def offCurrent : Nat := offThread NTHREAD

def offStacks : Nat := offCurrent + 4

/-- `S` -/
def sysBase : Word := BitVec.ofNat 64 HEAPBASE

def offCtx : Option Tid → Nat
  | none => 0
  | some i => offThread i

/-- Where the contexts are, the scheduler's for `none`. -/
def uctx (u : Option Tid) : Word := sysBase + BitVec.ofNat 64 (offCtx u)

def stackTop (i : Tid) : Word :=
  (sysBase + BitVec.ofNat 64 (offStacks + STACKSZ * (i + 1))) &&& ~~~15

/-- The double word at `a` is not in the part of `struct sys` before the stacks. -/
def OutsideSys (a : Word) : Prop :=
  offStacks ≤ (a - sysBase).toNat ∧ (a - sysBase).toNat + 8 ≤ 2 ^ 64

instance : Decidable (OutsideSys a) := inferInstanceAs (Decidable (_ ∧ _))

/-- The program: its registers and memory, and who runs, `none` for the scheduler loop; `state` and
`current` of `struct sys`; `i` and `ran` of the loop. `turns` is for the statements. -/
structure Uthreads where
  thr : Threads Unit (Option Tid)
  state : Tid → Bool
  current : Option Tid
  i : Nat
  ran : Bool
  finished : Bool
  turns : List Tid

namespace Uthreads

/-- The arguments of a call of `uswitch`. -/
def pass (s : Uthreads) (old neu : Option Tid) : Reg → Word :=
  Function.update (Function.update (s.thr.x ()) .a0 (uctx old)) .a1 (uctx neu)

/-- `uswitch` to `neu`. -/
def call (s : Uthreads) (old neu : Option Tid) : Uthreads :=
  let x := s.pass old neu
  let r := (⟨x, fun _ => 0, s.thr.mem⟩ : Rv).run uswitch
  { s with
    thr := ⟨Function.update s.thr.x () r.x, r.mem, Function.update s.thr.cur () neu,
      Function.update s.thr.saved (s.thr.cur ()) (some x)⟩ }

/-- A turn of thread `j`. -/
def enter (s : Uthreads) (j : Tid) : Uthreads :=
  { s with current := some j, turns := s.turns ++ [j] }.call none (some j)

/-- The next step of the loop of `_start`. -/
def sched (s : Uthreads) : Option Uthreads :=
  if s.finished = true ∨ s.thr.cur () ≠ none then none
  else if h : s.i < NTHREAD then
    if s.state ⟨s.i, h⟩ then some (s.enter ⟨s.i, h⟩) else some { s with i := s.i + 1 }
  else if s.ran then some { s with i := 0, ran := false }
  else some { s with finished := true }

/-- From thread `c` back into the loop, which goes on after its `uswitch`. -/
def back (s : Uthreads) (c : Tid) : Uthreads :=
  { s.call (some c) none with ran := true, i := s.i + 1 }

def uyield (s : Uthreads) : Option Uthreads := s.current.map s.back

def texit (s : Uthreads) : Option Uthreads :=
  s.current.map fun c => { s with state := Function.update s.state c false }.back c

/-- What the code that runs does: the loop, a change of a register or of memory, the calls of a
thread. -/
inductive Act where
  | sched
  | set (r : Reg) (v : Word)
  | store (a v : Word)
  | uyield
  | texit

def step (s : Uthreads) : Act → Option Uthreads
  | .sched => s.sched
  | .set r v =>
    let x := Function.update (s.thr.x ()) r v
    some { s with thr := { s.thr with x := Function.update s.thr.x () x } }
  | .store a v =>
    if OutsideSys a then some { s with thr := { s.thr with mem := s.thr.mem.store a v } } else none
  | .uyield => if s.thr.cur () = none then none else s.uyield
  | .texit => if s.thr.cur () = none then none else s.texit

def run (s : Uthreads) : List Act → Option Uthreads
  | [] => some s
  | a :: as =>
    match s.step a with
    | some s' => run s' as
    | none => none

/-- `tcreate` -/
def tcreate (fn : Word) (t : Threads Unit (Option Tid)) (i : Tid) : Threads Unit (Option Tid) :=
  t.create (uctx (some i)) (some i) fn (stackTop i)

/-- `_start` before its loop. -/
def boot (x : Reg → Word) (m : VMem) (fn : Word) : Uthreads where
  thr := (List.finRange NTHREAD).foldl (tcreate fn) ⟨fun _ => x, m, fun _ => none, fun _ => none⟩
  state _ := true
  current := none
  i := 0
  ran := false
  finished := false
  turns := []

end Uthreads

theorem offCtx_inside (u : Option Tid) : offCtx u + CTXSZ ≤ offStacks := by
  cases u with
  | none => decide
  | some i =>
    have hi : i.val < 3 := i.isLt
    simp only [offCtx, offStacks, offCurrent, offThread, CTXSZ, NTHREAD]
    omega

theorem uctx_apart (t u : Option Tid) (ht : t ≠ u) : CtxApart (uctx t) (uctx u) := by
  have hlt := offCtx_inside t
  have hlu := offCtx_inside u
  simp only [offStacks, offCurrent, offThread, CTXSZ, NTHREAD] at hlt hlu
  refine ctxApart_offset sysBase (by omega) (by omega) ?_
  cases t with
  | none =>
    cases u with
    | none => exact absurd rfl ht
    | some j =>
      simp only [offCtx, offThread, CTXSZ]
      omega
  | some i =>
    cases u with
    | none =>
      simp only [offCtx, offThread, CTXSZ]
      omega
    | some j =>
      have hne : i.val ≠ j.val := fun he => ht (congrArg some (Fin.ext he))
      simp only [offCtx, offThread, CTXSZ]
      omega

/-- A store outside of `struct sys` keeps the contexts. -/
theorem OutsideSys.keeps (h : OutsideSys a) (m : VMem) (v : Word) (u : Option Tid)
    (hi : i < CTXSZ) :
    m.store a v (uctx u + BitVec.ofNat 64 i) = m (uctx u + BitVec.ofNat 64 i) := by
  have hu := offCtx_inside u
  obtain ⟨hlo, hhi⟩ := h
  have ha : a = sysBase + BitVec.ofNat 64 (a - sysBase).toNat := by
    rw [BitVec.ofNat_toNat, BitVec.setWidth_eq, BitVec.add_comm, BitVec.sub_add_cancel]
  have hd : (uctx u + BitVec.ofNat 64 i - a).toNat =
      (2 ^ 64 + (offCtx u + i) - (a - sysBase).toNat) % 2 ^ 64 := by
    conv_lhs => rw [ha]
    rw [uctx, BitVec.add_assoc, BitVec.ofNat_add_ofNat]
    simp only [offStacks, offCurrent, offThread, CTXSZ, NTHREAD] at hu hi
    exact dist_add sysBase (by omega) (by omega)
  simp only [offStacks, offCurrent, offThread, CTXSZ, NTHREAD] at hu hlo hi
  rw [VMem.store, if_neg (by omega)]

namespace Uthreads
variable {s s' : Uthreads}

/-- What a step can do. -/
inductive Stepped (s : Uthreads) : Uthreads → Prop where
  | code (x : Reg → Word) (m : VMem)
      (hm : ∀ u i, i < CTXSZ → m (uctx u + BitVec.ofNat 64 i) =
        s.thr.mem (uctx u + BitVec.ofNat 64 i)) :
      Stepped s { s with thr := { s.thr with x := Function.update s.thr.x () x, mem := m } }
  | skip (hc : s.thr.cur () = none) (hi : s.i < NTHREAD) (hs : s.state ⟨s.i, hi⟩ = false) :
      Stepped s { s with i := s.i + 1 }
  | enter (hc : s.thr.cur () = none) (hf : s.finished = false) (hi : s.i < NTHREAD)
      (hs : s.state ⟨s.i, hi⟩ = true) : Stepped s (s.enter ⟨s.i, hi⟩)
  | again (hc : s.thr.cur () = none) (hi : NTHREAD ≤ s.i) (hf : s.finished = false)
      (hr : s.ran = true) : Stepped s { s with i := 0, ran := false }
  | finish (hc : s.thr.cur () = none) (hi : NTHREAD ≤ s.i) (hr : s.ran = false) :
      Stepped s { s with finished := true }
  | uyield (c : Tid) (hc : s.thr.cur () ≠ none) (hcur : s.current = some c) :
      Stepped s (s.back c)
  | texit (c : Tid) (hc : s.thr.cur () ≠ none) (hcur : s.current = some c) :
      Stepped s ({ s with state := Function.update s.state c false }.back c)

theorem stepped_sched (h : s.sched = some s') : Stepped s s' := by
  rw [sched] at h
  split at h
  · cases h
  · rename_i hn
    rw [not_or, Bool.not_eq_true, not_not] at hn
    obtain ⟨hf, hc⟩ := hn
    split at h
    · rename_i hi
      split at h
      · rename_i hs
        cases h
        exact .enter hc hf hi hs
      · rename_i hs
        cases h
        exact .skip hc hi (Bool.not_eq_true _ ▸ hs)
    · rename_i hi
      split at h
      · rename_i hr
        cases h
        exact .again hc (Nat.not_lt.1 hi) hf hr
      · rename_i hr
        cases h
        exact .finish hc (Nat.not_lt.1 hi) (Bool.not_eq_true _ ▸ hr)

theorem stepped (h : s.step a = some s') : Stepped s s' := by
  cases a with
  | sched => exact stepped_sched h
  | set r v =>
    cases h
    exact .code _ s.thr.mem fun _ _ _ => rfl
  | store a v =>
    rw [step] at h
    split at h
    · rename_i ha
      cases h
      have hx := Stepped.code (s := s) (s.thr.x ()) (s.thr.mem.store a v) fun u i hi =>
        ha.keeps s.thr.mem v u hi
      rw [Function.update_eq_self] at hx
      exact hx
    · cases h
  | uyield =>
    rw [step] at h
    split at h
    · cases h
    · rename_i hc
      obtain ⟨c, hcur, rfl⟩ := Option.map_eq_some_iff.1 h
      exact .uyield c hc hcur
  | texit =>
    rw [step] at h
    split at h
    · cases h
    · rename_i hc
      obtain ⟨c, hcur, rfl⟩ := Option.map_eq_some_iff.1 h
      exact .texit c hc hcur

@[simp] theorem call_cur (s : Uthreads) (old neu : Option Tid) :
    (s.call old neu).thr.cur () = neu := by
  simp only [call, Function.update_self]

/-- The loop and `current` agree with who runs. -/
structure Agrees (s : Uthreads) : Prop where
  le : s.i ≤ NTHREAD
  turn : ∀ j, s.thr.cur () = some j →
    s.current = some j ∧ s.i = j.val ∧ s.state j = true ∧ s.finished = false
  seen : s.ran = false → ∀ j : Tid, j.val < s.i → s.state j = false
  finished : s.finished = true → ∀ j, s.state j = false

theorem Agrees.back (h : s.Agrees) (hc : s.thr.cur () ≠ none) (c : Tid) (state : Tid → Bool) :
    ({ s with state := state }.back c).Agrees := by
  obtain ⟨j, hj⟩ := Option.ne_none_iff_exists'.1 hc
  obtain ⟨_, hi, _, hf⟩ := h.turn j hj
  refine ⟨?_, ?_, ?_, ?_⟩
  · show s.i + 1 ≤ NTHREAD
    rw [hi]
    exact j.isLt
  · intro u hu
    rw [Uthreads.back] at hu
    dsimp only at hu
    rw [call_cur] at hu
    cases hu
  · intro hr
    cases hr
  · intro hd
    have hd' : s.finished = true := hd
    rw [hf] at hd'
    cases hd'

theorem Agrees.step (h : s.Agrees) (hs : Stepped s s') : s'.Agrees := by
  cases hs with
  | code x m hm => exact ⟨h.le, h.turn, h.seen, h.finished⟩
  | skip hc hi hs =>
    refine ⟨hi, fun j hj => ?_, fun hr j hj => ?_, h.finished⟩
    · have hj' : s.thr.cur () = some j := hj
      rw [hc] at hj'
      cases hj'
    · rcases Nat.lt_succ_iff_lt_or_eq.1 hj with hlt | heq
      · exact h.seen hr j hlt
      · have he : j = ⟨s.i, hi⟩ := Fin.ext heq
        rw [he]
        exact hs
  | enter hc hf hi hs =>
    refine ⟨h.le, fun j hj => ?_, h.seen, h.finished⟩
    have hj' : some (⟨s.i, hi⟩ : Tid) = some j := (call_cur _ _ _).symm.trans hj
    cases hj'
    exact ⟨rfl, rfl, hs, hf⟩
  | again hc hi hf hr =>
    refine ⟨Nat.zero_le _, fun j hj => ?_, fun _ j hj => ?_, h.finished⟩
    · have hj' : s.thr.cur () = some j := hj
      rw [hc] at hj'
      cases hj'
    · exact absurd hj (Nat.not_lt_zero _)
  | finish hc hi hr =>
    refine ⟨h.le, fun j hj => ?_, h.seen, fun _ j => ?_⟩
    · have hj' : s.thr.cur () = some j := hj
      rw [hc] at hj'
      cases hj'
    · exact h.seen hr j (Nat.lt_of_lt_of_le j.isLt hi)
  | uyield c hc hcur => exact h.back hc c s.state
  | texit c hc hcur => exact h.back hc c _

/-- The round that each thread has had its turn in: the next one is due to thread `j`. -/
def front (s : Uthreads) : Nat := if s.thr.cur () = none then s.i else s.i + 1

def due (s : Uthreads) (r : Nat) (j : Tid) : Nat := if j.val < s.front then r + 1 else r

/-- After `r` whole rounds no thread has had more turns than it should, and a thread that can run
has had them all. -/
def Rounds (s : Uthreads) (r : Nat) : Prop :=
  ∀ j, s.turns.count j ≤ s.due r j ∧ (s.state j = true → s.turns.count j = s.due r j)

theorem Rounds.congr (h : s.Rounds r) (hf : s'.front = s.front) (ht : s'.turns = s.turns)
    (hs : ∀ j, s'.state j = true → s.state j = true) : s'.Rounds r := by
  intro j
  have hd : s'.due r j = s.due r j := by rw [due, due, hf]
  rw [hd, ht]
  exact ⟨(h j).1, fun hj => (h j).2 (hs j hj)⟩

theorem front_back (hc : s.thr.cur () ≠ none) (c : Tid) (state : Tid → Bool) :
    ({ s with state := state }.back c).front = s.front := by
  have hb : ({ s with state := state }.back c).thr.cur () = none := call_cur ..
  rw [front, if_pos hb, front, if_neg hc]
  rfl

theorem Rounds.step (h : s.Rounds r) (hs : Stepped s s') : ∃ r', s'.Rounds r' := by
  cases hs with
  | code x m hm => exact ⟨r, h⟩
  | skip hc hi hs =>
    refine ⟨r, fun j => ?_⟩
    have hfront : s.front = s.i := if_pos hc
    have hfront' : front { s with i := s.i + 1 } = s.i + 1 := if_pos hc
    have hj := h j
    rw [due, hfront] at hj
    rw [due, hfront']
    dsimp only
    by_cases he : j.val = s.i
    · have hoff : s.state j = false := by
        rw [← hs]
        exact congrArg s.state (Fin.ext he)
      rw [hoff]
      rw [if_neg (by omega)] at hj
      rw [if_pos (by omega)]
      exact ⟨by omega, nofun⟩
    · have hiff : j.val < s.i + 1 ↔ j.val < s.i := by omega
      simp only [hiff]
      exact hj
  | enter hc hf hi hs =>
    refine ⟨r, fun j => ?_⟩
    have hfront : s.front = s.i := if_pos hc
    have hfront' : (s.enter ⟨s.i, hi⟩).front = s.i + 1 := by
      have hcur : (s.enter ⟨s.i, hi⟩).thr.cur () = some ⟨s.i, hi⟩ := call_cur ..
      rw [front, if_neg (by rw [hcur]; exact nofun)]
      rfl
    have hj := h j
    rw [due, hfront] at hj
    rw [due, hfront']
    show (s.turns ++ [_]).count j ≤ _ ∧ (s.state j = true → (s.turns ++ [_]).count j = _)
    rw [List.count_append]
    by_cases he : j = ⟨s.i, hi⟩
    · subst he
      rw [if_neg (Nat.lt_irrefl _)] at hj
      rw [List.count_singleton_self, if_pos (Nat.lt_succ_self _), hj.2 hs]
      exact ⟨Nat.le_refl _, fun _ => rfl⟩
    · have hne : j.val ≠ s.i := fun hv => he (Fin.ext hv)
      have hiff : j.val < s.i + 1 ↔ j.val < s.i := by omega
      have hzero : [(⟨s.i, hi⟩ : Tid)].count j = 0 :=
        List.count_eq_zero.2 fun hm => he (List.mem_singleton.1 hm)
      simp only [hiff, hzero]
      exact hj
  | again hc hi hf hr =>
    refine ⟨r + 1, fun j => ?_⟩
    have hfront : s.front = s.i := if_pos hc
    have hfront' : front { s with i := 0, ran := false } = 0 := if_pos hc
    have hj := h j
    have hlt : j.val < s.i := Nat.lt_of_lt_of_le j.isLt hi
    rw [due, hfront, if_pos hlt] at hj
    rw [due, hfront', if_neg (Nat.not_lt_zero _)]
    exact hj
  | finish hc hi hr => exact ⟨r, h⟩
  | uyield c hc hcur => exact ⟨r, h.congr (front_back hc c s.state) rfl fun _ hj => hj⟩
  | texit c hc hcur =>
    refine ⟨r, h.congr (front_back hc c _) rfl fun j hj => ?_⟩
    have hj' : Function.update s.state c false j = true := hj
    by_cases hjc : j = c
    · rw [hjc, Function.update_self] at hj'
      cases hj'
    · rwa [Function.update_of_ne hjc] at hj'

/-- At the call of `uswitch`. -/
def calling (s : Uthreads) (old neu : Option Tid) : Threads Unit (Option Tid) :=
  { s.thr with x := Function.update s.thr.x () (s.pass old neu) }

theorem call_thr (s : Uthreads) (old neu : Option Tid) :
    (s.call old neu).thr = (s.calling old neu).switch () neu := by
  simp only [call, calling, Threads.switch, Threads.rv, Function.update_self, Function.update_idem]
  rfl

theorem calling_canSwitch (s : Uthreads) (hold : old = s.thr.cur ()) (hne : neu ≠ old) :
    (s.calling old neu).CanSwitch uctx () neu where
  old := by
    subst hold
    simp only [calling, pass, Function.update_self]
    rw [Function.update_of_ne (by decide), Function.update_self]
  new := by simp only [calling, pass, Function.update_self]
  off _ := hold ▸ Ne.symm hne

theorem calling_step (s : Uthreads) (old neu : Option Tid) :
    Threads.Step uctx s.thr (s.calling old neu) :=
  .work () (s.pass old neu) s.thr.mem fun _ _ _ _ => rfl

theorem call_steps (s : Uthreads) (hold : old = s.thr.cur ()) (hne : neu ≠ old) :
    Relation.ReflTransGen (Threads.Step uctx) s.thr (s.call old neu).thr := by
  rw [call_thr]
  exact (Relation.ReflTransGen.single (s.calling_step old neu)).tail
    (.switch () neu (s.calling_canSwitch hold hne))

/-- A step keeps who runs, with the contexts of the others, or is a call of `uswitch` for who
runs. -/
theorem Stepped.threads (hs : Stepped s s') (ha : s.Agrees) :
    s'.thr.cur () = s.thr.cur () ∧ Relation.ReflTransGen (Threads.Step uctx) s.thr s'.thr ∨
      ∃ neu, neu ≠ s.thr.cur () ∧ s'.thr = (s.call (s.thr.cur ()) neu).thr := by
  have hcurrent (c : Tid) (hc : s.thr.cur () ≠ none) (hcur : s.current = some c) :
      s.thr.cur () = some c := by
    obtain ⟨j, hj⟩ := Option.ne_none_iff_exists'.1 hc
    rw [hj, ← hcur]
    exact (ha.turn j hj).1.symm
  cases hs with
  | code x m hm => exact .inl ⟨rfl, .single (.work () x m fun u _ => hm u)⟩
  | skip hc hi hs => exact .inl ⟨rfl, .refl⟩
  | enter hc hf hi hs =>
    refine .inr ⟨some ⟨s.i, hi⟩, ?_, ?_⟩
    · rw [hc]
      exact Option.some_ne_none _
    · rw [hc]
      rfl
  | again hc hi hf hr => exact .inl ⟨rfl, .refl⟩
  | finish hc hi hr => exact .inl ⟨rfl, .refl⟩
  | uyield c hc hcur =>
    refine .inr ⟨none, hc.symm, ?_⟩
    rw [hcurrent c hc hcur]
    rfl
  | texit c hc hcur =>
    refine .inr ⟨none, hc.symm, ?_⟩
    rw [hcurrent c hc hcur]
    rfl

/-- Every reachable state of the program. -/
structure Inv (s : Uthreads) : Prop where
  agrees : s.Agrees
  rounds : ∃ r, s.Rounds r
  threads : s.thr.Inv uctx
  saved : ∀ u, u ≠ s.thr.cur () → ∃ y, s.thr.saved u = some y

theorem saved_call (s : Uthreads) (hs : ∀ u, u ≠ s.thr.cur () → ∃ y, s.thr.saved u = some y)
    (old neu : Option Tid) (u : Option Tid) : ∃ y, (s.call old neu).thr.saved u = some y := by
  simp only [call]
  by_cases hu : u = s.thr.cur ()
  · rw [hu, Function.update_self]
    exact ⟨_, rfl⟩
  · rw [Function.update_of_ne hu]
    exact hs u hu

theorem Inv.step (h : s.Inv) (hs : Stepped s s') : s'.Inv where
  agrees := h.agrees.step hs
  rounds := by
    obtain ⟨r, hr⟩ := h.rounds
    exact hr.step hs
  threads := by
    rcases hs.threads h.agrees with ⟨_, hsteps⟩ | ⟨neu, hne, hthr⟩
    · exact h.threads.run uctx_apart hsteps
    · rw [hthr]
      exact h.threads.run uctx_apart (s.call_steps rfl hne)
  saved := by
    cases hs with
    | code x m hm => exact h.saved
    | skip hc hi hs => exact h.saved
    | enter hc hf hi hs => exact fun u _ => saved_call _ h.saved _ _ u
    | again hc hi hf hr => exact h.saved
    | finish hc hi hr => exact h.saved
    | uyield c hc hcur => exact fun u _ => saved_call _ h.saved _ _ u
    | texit c hc hcur => exact fun u _ => saved_call _ h.saved _ _ u

theorem Inv.run (h : s.Inv) (hr : s.run as = some s') : s'.Inv := by
  induction as generalizing s with
  | nil =>
    cases hr
    exact h
  | cons a as ih =>
    rw [Uthreads.run] at hr
    cases hs : s.step a with
    | none =>
      rw [hs] at hr
      cases hr
    | some s₁ =>
      rw [hs] at hr
      exact ih (h.step (stepped hs)) hr

/-- The threads that `tcreate` has made. -/
theorem tcreates_steps (fn : Word) (is : List Tid) (t : Threads Unit (Option Tid))
    (hc : t.cur () = none) :
    Relation.ReflTransGen (Threads.Step uctx) t (is.foldl (tcreate fn) t) ∧
      (is.foldl (tcreate fn) t).cur () = none ∧
      ∀ i, i ∈ is ∨ (∃ y, t.saved (some i) = some y) →
        ∃ y, (is.foldl (tcreate fn) t).saved (some i) = some y := by
  induction is generalizing t with
  | nil => exact ⟨.refl, hc, fun i hi => hi.resolve_left List.not_mem_nil⟩
  | cons j is ih =>
    obtain ⟨hsteps, hcur, hsaved⟩ := ih (tcreate fn t j) hc
    have hoff : t.Off (some j) := by
      intro _
      rw [hc]
      exact (Option.some_ne_none j).symm
    refine ⟨.head (.create (some j) fn (stackTop j) hoff) hsteps, hcur, fun i hi => ?_⟩
    apply hsaved
    by_cases hij : i = j
    · right
      rw [hij]
      exact ⟨_, Threads.create_saved t _ _ fn (stackTop j)⟩
    · rcases hi with hi | ⟨y, hy⟩
      · exact .inl ((List.mem_cons.1 hi).resolve_left hij)
      · right
        refine ⟨y, ?_⟩
        rw [tcreate, Threads.create]
        dsimp only
        rw [Function.update_of_ne fun he => hij (Option.some.inj he)]
        exact hy

theorem boot_inv (x : Reg → Word) (m : VMem) (fn : Word) : (boot x m fn).Inv := by
  have hstart : Threads.Start uctx
      (⟨fun _ => x, m, fun _ => none, fun _ => none⟩ : Threads Unit (Option Tid)) :=
    ⟨uctx_apart, Function.injective_of_subsingleton _, fun _ => rfl⟩
  obtain ⟨hsteps, hcur, hsaved⟩ := tcreates_steps fn (List.finRange NTHREAD)
    ⟨fun _ => x, m, fun _ => none, fun _ => none⟩ rfl
  have hcur' : (boot x m fn).thr.cur () = none := hcur
  refine ⟨⟨Nat.zero_le _, fun j hj => ?_, fun _ j hj => ?_, nofun⟩, ⟨0, fun j => ?_⟩,
    hstart.inv.run uctx_apart hsteps, fun u hu => ?_⟩
  · rw [hcur'] at hj
    cases hj
  · exact absurd hj (Nat.not_lt_zero _)
  · have hfront : (boot x m fn).front = 0 := if_pos hcur'
    rw [due, hfront, if_neg (Nat.not_lt_zero _)]
    exact ⟨Nat.le_refl _, fun _ => rfl⟩
  · rw [hcur'] at hu
    obtain ⟨i, rfl⟩ := Option.ne_none_iff_exists'.1 hu
    exact hsaved i (.inl (List.mem_finRange i))

/-- Steps of the loop until it enters a thread or ends. -/
def left (s : Uthreads) : Nat := (NTHREAD - s.i) + (if s.ran then NTHREAD + 1 else 0)

theorem sched_advances (hc : s.thr.cur () = none) (hf : s.finished = false) (hi : s.i ≤ NTHREAD) :
    ∃ s', s.sched = some s' ∧ (s'.finished = true ∨ s'.thr.cur () ≠ none ∨
      s'.thr.cur () = none ∧ s'.finished = false ∧ s'.i ≤ NTHREAD ∧ s'.left < s.left) := by
  have hn : ¬(s.finished = true ∨ s.thr.cur () ≠ none) := by
    rw [hf, hc]
    exact fun h => h.elim nofun fun h => h rfl
  rw [sched, if_neg hn]
  by_cases hlt : s.i < NTHREAD
  · rw [dif_pos hlt]
    by_cases hs : s.state ⟨s.i, hlt⟩ = true
    · rw [if_pos hs]
      refine ⟨_, rfl, .inr (.inl ?_)⟩
      rw [enter, call_cur]
      exact Option.some_ne_none _
    · rw [if_neg hs]
      refine ⟨_, rfl, .inr (.inr ⟨hc, hf, hlt, ?_⟩)⟩
      simp only [left]
      omega
  · rw [dif_neg hlt]
    by_cases hr : s.ran = true
    · rw [if_pos hr]
      refine ⟨_, rfl, .inr (.inr ⟨hc, hf, Nat.zero_le _, ?_⟩)⟩
      simp only [left, hr, if_true]
      rw [if_neg (by decide)]
      omega
    · rw [if_neg hr]
      exact ⟨_, rfl, .inl rfl⟩

/-- The loop does not spin. -/
theorem sched_ends (hc : s.thr.cur () = none) (hf : s.finished = false) (hi : s.i ≤ NTHREAD) :
    ∃ n ≤ s.left + 1, ∃ s', s.run (List.replicate n .sched) = some s' ∧
      (s'.finished = true ∨ s'.thr.cur () ≠ none) := by
  induction hl : s.left using Nat.strong_induction_on generalizing s with
  | _ l ih =>
    obtain ⟨s₁, hs, hcase⟩ := sched_advances hc hf hi
    have hone (n : Nat) : s.run (List.replicate (n + 1) .sched) =
        s₁.run (List.replicate n .sched) := by
      rw [List.replicate_succ, run, step, hs]
    rcases hcase with hd | hd | ⟨hc₁, hf₁, hi₁, hlt⟩
    · exact ⟨1, by omega, s₁, hone 0, .inl hd⟩
    · exact ⟨1, by omega, s₁, hone 0, .inr hd⟩
    · obtain ⟨n, hn, s', hrun, hend⟩ := ih s₁.left (hl ▸ hlt) hc₁ hf₁ hi₁ rfl
      exact ⟨n + 1, by omega, s', (hone n).trans hrun, hend⟩

/-- The threads take turns: in every run, one that has not exited is at most one turn behind any
other, the loop finds the next thread in eight steps, and it ends only when all have exited. -/
theorem round_robin {x : Reg → Word} {m : VMem} {fn : Word} (hr : (boot x m fn).run as = some s) :
    (∀ i j, s.state j = true → s.turns.count i ≤ s.turns.count j + if i < j then 1 else 0) ∧
      (s.finished = true → ∀ j, s.state j = false) ∧
      (s.thr.cur () = none → s.finished = false → ∃ n ≤ 2 * NTHREAD + 2, ∃ s',
        s.run (List.replicate n .sched) = some s' ∧
          (s'.finished = true ∨ s'.thr.cur () ≠ none)) := by
  have h := (boot_inv x m fn).run hr
  refine ⟨fun i j hj => ?_, h.agrees.finished, fun hc hf => ?_⟩
  · obtain ⟨r, hrounds⟩ := h.rounds
    have hi := (hrounds i).1
    rw [(hrounds j).2 hj]
    simp only [due, Fin.lt_def] at hi ⊢
    split at hi
    · split
      · omega
      · rw [if_pos (by omega)]
        omega
    · split
      · omega
      · omega
  · obtain ⟨n, hn, s', hrun, hend⟩ := sched_ends hc hf h.agrees.le
    refine ⟨n, Nat.le_trans hn ?_, s', hrun, hend⟩
    rw [left]
    split
    · omega
    · omega

/-- The first thread sets a register and yields, the second exits, the third yields. -/
def turnsRun : List Act :=
  [.sched, .set .s0 7, .uyield, .sched, .texit, .sched, .uyield, .sched]

def bootZero : Uthreads := boot (fun _ => 0) (fun _ => 0) 0x1000

def afterTurns : Uthreads := (bootZero.run turnsRun).getD bootZero

theorem round_robin_turns : afterTurns.turns = [0, 1, 2] ∧ afterTurns.state 1 = false ∧
    ∀ j, afterTurns.state j = true → 1 ≤ afterTurns.turns.count j + if 1 < j then 1 else 0 := by
  have hr : bootZero.run turnsRun = some afterTurns := rfl
  exact ⟨rfl, rfl, (round_robin hr).1 1⟩

/-- Whatever the threads do outside of `struct sys`, `uswitch` saves the registers of the one that
leaves under its own name, and whoever goes on, thread or loop, has those of when it left. -/
theorem uswitch_resumes {x : Reg → Word} {m : VMem} {fn : Word}
    (hr : (boot x m fn).run as = some s) (hs : s.step a = some s')
    (hsw : s'.thr.cur () ≠ s.thr.cur ()) :
    (∀ j, s.thr.cur () = some j → s.current = some j) ∧
      ∃ y z, s.thr.saved (s'.thr.cur ()) = some y ∧ s'.thr.saved (s.thr.cur ()) = some z ∧
        ∀ r ∈ ctxRegs.map Prod.fst, s'.thr.x () r = y r ∧ z r = s.thr.x () r := by
  have h := (boot_inv x m fn).run hr
  refine ⟨fun j hj => (h.agrees.turn j hj).1, ?_⟩
  rcases (stepped hs).threads h.agrees with ⟨hsame, _⟩ | ⟨neu, hne, hthr⟩
  · exact absurd hsame hsw
  · have hcan := s.calling_canSwitch rfl hne
    have hwork := h.threads.step uctx_apart (s.calling_step (s.thr.cur ()) neu)
    obtain ⟨y, hy⟩ := h.saved neu hne
    rw [hthr, call_cur]
    refine ⟨y, s.pass (s.thr.cur ()) neu, hy, ?_, fun r hin => ⟨?_, ?_⟩⟩
    · simp only [call, Function.update_self]
    · obtain ⟨⟨q, o⟩, hq, rfl⟩ := List.mem_map.1 hin
      rw [call_thr]
      exact hwork.resume uctx_apart hcan hy hq
    · have hargs : Reg.a0 ∉ ctxRegs.map Prod.fst ∧ Reg.a1 ∉ ctxRegs.map Prod.fst := by decide
      have h0 : r ≠ .a0 := fun he => hargs.1 (he ▸ hin)
      have h1 : r ≠ .a1 := fun he => hargs.2 (he ▸ hin)
      rw [pass, Function.update_of_ne h1, Function.update_of_ne h0]

/-- The first thread finds its register in its second turn. -/
theorem uswitch_resumes_turn : ∃ s, afterTurns.step .sched = some s ∧ s.thr.x () .s0 = 7 := by
  have hr : bootZero.run turnsRun = some afterTurns := rfl
  have hs : afterTurns.step .sched = some (afterTurns.enter 0) := rfl
  have hcur : afterTurns.thr.cur () = none := rfl
  have hcur' : (afterTurns.enter 0).thr.cur () = some 0 := rfl
  refine ⟨_, hs, ?_⟩
  obtain ⟨_, y, _, hy, _, hregs⟩ := uswitch_resumes hr hs (by rw [hcur, hcur']; exact nofun)
  have hsaved : (afterTurns.thr.saved (some 0)).map (fun y => y .s0) = some 7 := rfl
  rw [hcur'] at hy
  rw [hy] at hsaved
  exact (hregs .s0 (by decide)).1.trans (Option.some.inj hsaved)

end Uthreads

end KernelHobby
