import KernelHobby.SchedStep

namespace KernelHobby
set_option autoImplicit true

/-- What a call of the process with pid `caller` returns: the pid of the child that `proc_fork`
made or `proc_wait` reaped, or -1 from `proc_wait`. -/
inductive Event where
  | forked (caller child : Int)
  | reaped (caller child : Int)
  | childless (caller : Int)
  deriving DecidableEq

namespace Event

def reapedPid : Event → Option Int
  | reaped _ c => some c
  | _ => none

end Event

namespace Sys
variable {H : Type} [DecidableEq H] {s s' : Sys H} {h : H} {a : Act} {p q c : Slot}
  {es : List Event}

/-- What the next step of hart `h` returns to the process on it. -/
def event (s : Sys H) (h : H) (a : Act) : List Event :=
  match a, s.ctl h, s.cpuProc h with
  | .fork _, .user, some p =>
    match freeSlot s.proc with
    | some _ => [.forked (s.proc p).pid s.nextPid]
    | none => []
  | .go, .wait, some p =>
    match zombieChild s.proc p with
    | some q => [.reaped (s.proc p).pid (s.proc q).pid]
    | none => if hasChild s.proc p then [] else [.childless (s.proc p).pid]
  | _, _, _ => []

/-- What the calls of a run have returned. -/
def events (s : Sys H) : List (H × Act) → List Event
  | [] => []
  | (h, a) :: as =>
    match s.step h a with
    | some s' => s.event h a ++ s'.events as
    | none => []

/-- What the calls have returned, with the next step. -/
def record (s : Sys H) (h : H) (a : Act) (es : List Event) : List Event := es ++ s.event h a

/-- `q` is a process whose parent pointer names slot `p`. -/
def ParentOf (s : Sys H) (q p : Slot) : Prop := s.Live q ∧ (s.proc q).parent = some p

/-- The parent pointers name the process that made the fork, `proc_wait` has returned only such
children, and no process is its own ancestor. -/
structure Parentage (s : Sys H) (es : List Event) : Prop where
  parent : ∀ q p, s.ParentOf q p → Event.forked (s.proc p).pid (s.proc q).pid ∈ es
  waited : ∀ b c, Event.reaped b c ∈ es → Event.forked b c ∈ es
  acyclic : ∀ p, ¬ Relation.TransGen s.ParentOf p p

/-- A fork does not take a slot that is still named as a parent. -/
def ForkOk (s : Sys H) : Act → Prop
  | .fork _ => ∀ c, freeSlot s.proc = some c → ∀ q, ¬ s.ParentOf q c
  | _ => True

/-- The process table with respect to pids, whether or not parent pointers are right. -/
structure Pids (s : Sys H) (es : List Event) : Prop where
  lt : ∀ p, (s.proc p).pid < s.nextPid
  unique : ∀ p q, s.Live p → s.Live q → (s.proc p).pid = (s.proc q).pid → p = q
  forked : ∀ b c, Event.forked b c ∈ es → b < c ∧ c < s.nextPid
  reaped : ∀ b c, Event.reaped b c ∈ es → c < s.nextPid ∧ ∀ q, s.Live q → (s.proc q).pid ≠ c
  nodup : (es.filterMap Event.reapedPid).Nodup

/-- What a step does to the parts of the process table that tell families. -/
inductive FamilyStep (s s' : Sys H) : Act → List Event → Prop where
  | same (a : Act) (es : List Event) : (∀ e ∈ es, ∃ b, e = .childless b) →
      s'.nextPid = s.nextPid →
      (∀ q, (s'.Live q ↔ s.Live q) ∧ (s'.proc q).pid = (s.proc q).pid ∧
        (s'.proc q).parent = (s.proc q).parent) → FamilyStep s s' a es
  | fork (p c : Slot) (pt : Nat) : s.Live p → freeSlot s.proc = some c →
      s'.nextPid = s.nextPid + 1 → s'.Live c → (s'.proc c).pid = s.nextPid →
      (s'.proc c).parent = some p → (∀ q, q ≠ c → s'.proc q = s.proc q) →
      FamilyStep s s' (.fork pt) [.forked (s.proc p).pid s.nextPid]
  | reap (a : Act) (p q : Slot) : s.ParentOf q p → s'.nextPid = s.nextPid → ¬ s'.Live q →
      (s'.proc q).pid = (s.proc q).pid → (∀ r, r ≠ q → s'.proc r = s.proc r) →
      FamilyStep s s' a [.reaped (s.proc p).pid (s.proc q).pid]

/-- Two process tables tell the same families. -/
def Kin (t t' : Slot → Proc) : Prop := ∀ q,
  ((t' q).state ≠ .unused ↔ (t q).state ≠ .unused) ∧ (t' q).pid = (t q).pid ∧
    (t' q).parent = (t q).parent

theorem Kin.refl (t : Slot → Proc) : Kin t t := fun _ => ⟨Iff.rfl, rfl, rfl⟩

theorem Kin.update (hk : Kin t t') (hl : x.state ≠ .unused) (ht : (t p).state ≠ .unused)
    (hx : x.pid = (t p).pid ∧ x.parent = (t p).parent) : Kin t (Function.update t' p x) := by
  intro q
  by_cases hq : q = p
  · subst hq
    rw [Function.update_self]
    exact ⟨⟨fun _ => ht, fun _ => hl⟩, hx⟩
  · rw [Function.update_of_ne hq]
    exact hk q

theorem Kin.wakeup (hk : Kin t t') (c : Chan) : Kin t (wakeup t' c) := by
  intro q
  obtain ⟨hl, hpid, hpar⟩ := hk q
  rw [KernelHobby.wakeup]
  split
  · rename_i hs
    refine ⟨?_, hpid, hpar⟩
    rw [← hl, hs.1]
    exact ⟨fun _ => ProcState.noConfusion, fun _ => ProcState.noConfusion⟩
  · exact hk q

theorem Kin.wakeParent (hk : Kin t t') (o : Option Slot) : Kin t (wakeParent t' o) := by
  cases o with
  | some r => exact hk.wakeup (.proc r)
  | none => exact hk

omit [DecidableEq H] in
theorem Keyed.kin (hs : Keyed s d s') : Kin s.proc s'.proc ∧ s'.nextPid = s.nextPid := by
  cases hs with
  | erase _ _ _ => exact ⟨.refl _, rfl⟩
  | ignored _ _ => exact ⟨.refl _, rfl⟩
  | dropped _ _ => exact ⟨.refl _, rfl⟩
  | newline _ _ => exact ⟨(Kin.refl _).wakeup .inbuf, rfl⟩
  | char _ _ _ => exact ⟨.refl _, rfl⟩

theorem zombieChild_parent (hz : zombieChild t p = some q) : (t q).parent = some p := by
  have h := List.find?_some hz
  simp only [decide_eq_true_eq] at h
  exact h.1

/-- Every step tells one of the three stories. -/
theorem FamilyStep.of_step (hi : s.SchedInv) (hs : Step s h a s') :
    FamilyStep s s' a (s.event h a) := by
  have hsame {t : Slot → Proc} (he : s.event h a = []) (hn : s'.nextPid = s.nextPid)
      (ht : s'.proc = t) (hk : Kin s.proc t) : FamilyStep s s' a (s.event h a) := by
    subst ht
    rw [he]
    exact .same a [] (by simp) hn hk
  cases hs with
  | acquire hl hc => exact hsame (by simp [event, hc]) rfl rfl (.refl _)
  | dispatch p hc hst =>
    refine hsame (by simp [event, hc]) rfl rfl ((Kin.refl _).update ?_ ?_ ⟨rfl, rfl⟩)
    · exact ProcState.noConfusion
    · rw [hst]
      exact ProcState.noConfusion
  | skip hc => exact hsame (by simp [event, hc]) rfl rfl (.refl _)
  | scanned hc => exact hsame (by simp [event, hc]) rfl rfl (.refl _)
  | back hc => exact hsame (by simp [event, hc]) rfl rfl (.refl _)
  | toUser p hc hp _ => exact hsame (by simp [event, hc]) rfl rfl (.refl _)
  | toWait p hc hp _ =>
    have hl := (hi.working (by rw [hc]; exact Ctl.noConfusion) hp).live
    exact hsame (by simp [event, hc]) rfl rfl ((Kin.refl _).update hl hl ⟨rfl, rfl⟩)
  | toRead p n i hc hp _ =>
    have hl := (hi.working (by rw [hc]; exact Ctl.noConfusion) hp).live
    exact hsame (by simp [event, hc]) rfl rfl ((Kin.refl _).update hl hl ⟨rfl, rfl⟩)
  | reap p q hc hp hz =>
    have hst := zombieChild_state hz
    have he : s.event h .go = [.reaped (s.proc p).pid (s.proc q).pid] := by
      simp [event, hc, hp, hz]
    rw [he]
    refine .reap .go p q ⟨?_, zombieChild_parent hz⟩ rfl ?_ ?_ ?_
    · rw [Live, hst]
      exact ProcState.noConfusion
    · simp [Live, Proc.reap]
    · simp [Proc.reap]
    · intro r hr
      simp [Function.update_of_ne hr]
  | waitSleep p hc hp hz hk =>
    have hl := (hi.working (by rw [hc]; exact Ctl.noConfusion) hp).live
    refine hsame (by simp [event, hc, hp, hz, hk]) rfl rfl ((Kin.refl _).update ?_ hl ⟨rfl, rfl⟩)
    exact ProcState.noConfusion
  | childless p hc hp hz hk =>
    have he : s.event h .go = [.childless (s.proc p).pid] := by
      simp [event, hc, hp, hz, hk]
    rw [he]
    exact .same .go _ (by simp) rfl (Kin.refl _)
  | readSleep p n i hc hp _ _ =>
    have hl := (hi.working (by rw [hc]; exact Ctl.noConfusion) hp).live
    refine hsame (by simp [event, hc]) rfl rfl ((Kin.refl _).update ?_ hl ⟨rfl, rfl⟩)
    exact ProcState.noConfusion
  | readLine p n i hc hp _ _ _ => exact hsame (by simp [event, hc]) rfl rfl (.refl _)
  | readByte p n i hc hp _ _ _ => exact hsame (by simp [event, hc]) rfl rfl (.refl _)
  | readFull p n i hc hp _ => exact hsame (by simp [event, hc]) rfl rfl (.refl _)
  | yield p hc hp hl =>
    have hl := (hi.working (by rw [hc]; exact Ctl.noConfusion) hp).live
    refine hsame (by simp [event]) rfl rfl ((Kin.refl _).update ?_ hl ⟨rfl, rfl⟩)
    dsimp only
    split
    · exact ProcState.noConfusion
    · exact hl
  | exit p hc hp hl =>
    have hl := (hi.working (by rw [hc]; exact Ctl.noConfusion) hp).live
    have hw := (Kin.refl s.proc).wakeParent (s.proc p).parent
    refine hsame (by simp [event]) rfl rfl (hw.update ?_ hl ?_)
    · exact ProcState.noConfusion
    · exact (hw p).2
  | wait p hc hp hl => exact hsame (by simp [event]) rfl rfl (.refl _)
  | read p n hc hp hl => exact hsame (by simp [event]) rfl rfl (.refl _)
  | fork p c pt hc hp hl hf =>
    have he : s.event h (.fork pt) = [.forked (s.proc p).pid s.nextPid] := by
      simp [event, hc, hp, hf]
    rw [he]
    refine .fork p c pt (hi.working (by rw [hc]; exact Ctl.noConfusion) hp).live hf rfl ?_ ?_ ?_ ?_
    · simp [Live]
    · simp
    · simp
    · intro q hq
      simp [Function.update_of_ne hq]
  | forkFull p pt hc hp hl hf => exact hsame (by simp [event, hc, hp, hf]) rfl rfl (.refl _)
  | intr c hc hl =>
    obtain ⟨hk, hn⟩ := (Keyed.intr s c).kin
    exact hsame (by simp [event]) hn rfl hk

omit [DecidableEq H] in
/-- No family changes, and the step returns no pid. -/
theorem Pids.same (hp : s.Pids es) (hfs : ∀ e ∈ fs, ∃ b, e = .childless b)
    (hn : s'.nextPid = s.nextPid) (hk : Kin s.proc s'.proc) : s'.Pids (es ++ fs) := by
  have hold {b c : Int} (hm : Event.forked b c ∈ es ++ fs) : Event.forked b c ∈ es := by
    rcases List.mem_append.1 hm with hm | hm
    · exact hm
    · obtain ⟨_, he⟩ := hfs _ hm
      cases he
  refine ⟨?_, ?_, ?_, ?_, ?_⟩
  · intro p
    rw [hn, (hk p).2.1]
    exact hp.lt p
  · intro p q hlp hlq he
    rw [(hk p).2.1, (hk q).2.1] at he
    exact hp.unique p q ((hk p).1.1 hlp) ((hk q).1.1 hlq) he
  · intro b c hm
    rw [hn]
    exact hp.forked b c (hold hm)
  · intro b c hm
    rcases List.mem_append.1 hm with hm | hm
    · obtain ⟨hlt, hne⟩ := hp.reaped b c hm
      refine ⟨hn ▸ hlt, ?_⟩
      intro q hq
      rw [(hk q).2.1]
      exact hne q ((hk q).1.1 hq)
    · obtain ⟨_, he⟩ := hfs _ hm
      cases he
  · have hnil : fs.filterMap Event.reapedPid = [] := by
      rw [List.filterMap_eq_nil_iff]
      intro e he
      obtain ⟨b, rfl⟩ := hfs e he
      rfl
    rw [List.filterMap_append, hnil, List.append_nil]
    exact hp.nodup

omit [DecidableEq H] in
/-- A process with the next pid. -/
theorem Pids.fork (hp : s.Pids es) (p : Slot) (hn : s'.nextPid = s.nextPid + 1)
    (hpid : (s'.proc c).pid = s.nextPid) (hk : ∀ q, q ≠ c → s'.proc q = s.proc q) :
    s'.Pids (es ++ [.forked (s.proc p).pid s.nextPid]) := by
  have hlive {q : Slot} (hq : s'.Live q) (hne : q ≠ c) : s.Live q := by
    rw [Live, hk q hne] at hq
    exact hq
  refine ⟨?_, ?_, ?_, ?_, ?_⟩
  · intro q
    by_cases hq : q = c
    · rw [hq, hpid, hn]
      omega
    · have hlt := hp.lt q
      rw [hk q hq, hn]
      omega
  · intro q r hq hr he
    by_cases hqc : q = c
    · by_cases hrc : r = c
      · rw [hqc, hrc]
      · have hlt := hp.lt r
        rw [hqc, hpid, hk r hrc] at he
        omega
    · by_cases hrc : r = c
      · have hlt := hp.lt q
        rw [hrc, hpid, hk q hqc] at he
        omega
      · rw [hk q hqc, hk r hrc] at he
        exact hp.unique q r (hlive hq hqc) (hlive hr hrc) he
  · intro b d hm
    rcases List.mem_append.1 hm with hm | hm
    · obtain ⟨hbd, hlt⟩ := hp.forked b d hm
      exact ⟨hbd, by omega⟩
    · rw [List.mem_singleton] at hm
      cases hm
      exact ⟨hp.lt p, by omega⟩
  · intro b d hm
    rcases List.mem_append.1 hm with hm | hm
    · obtain ⟨hlt, hne⟩ := hp.reaped b d hm
      refine ⟨by omega, ?_⟩
      intro q hq
      by_cases hqc : q = c
      · rw [hqc, hpid]
        omega
      · rw [hk q hqc]
        exact hne q (hlive hq hqc)
    · rw [List.mem_singleton] at hm
      cases hm
  · have hnil : [Event.forked (s.proc p).pid s.nextPid].filterMap Event.reapedPid = [] := rfl
    rw [List.filterMap_append, hnil, List.append_nil]
    exact hp.nodup

omit [DecidableEq H] in
/-- A child of `p` that is gone, with its pid. -/
theorem Pids.reap (hp : s.Pids es) (hpq : s.ParentOf q p) (hn : s'.nextPid = s.nextPid)
    (hl : ¬ s'.Live q) (hpid : (s'.proc q).pid = (s.proc q).pid)
    (hk : ∀ r, r ≠ q → s'.proc r = s.proc r) :
    s'.Pids (es ++ [.reaped (s.proc p).pid (s.proc q).pid]) := by
  have hlive {r : Slot} (hr : s'.Live r) : r ≠ q ∧ s.Live r := by
    have hne : r ≠ q := by
      rintro rfl
      exact hl hr
    rw [Live, hk r hne] at hr
    exact ⟨hne, hr⟩
  have hpid' (r : Slot) : (s'.proc r).pid = (s.proc r).pid := by
    by_cases hr : r = q
    · rw [hr, hpid]
    · rw [hk r hr]
  refine ⟨?_, ?_, ?_, ?_, ?_⟩
  · intro r
    rw [hpid', hn]
    exact hp.lt r
  · intro r t hr ht he
    rw [hpid', hpid'] at he
    exact hp.unique r t (hlive hr).2 (hlive ht).2 he
  · intro b c hm
    rw [hn]
    rcases List.mem_append.1 hm with hm | hm
    · exact hp.forked b c hm
    · rw [List.mem_singleton] at hm
      cases hm
  · intro b c hm
    rw [hn]
    rcases List.mem_append.1 hm with hm | hm
    · obtain ⟨hlt, hne⟩ := hp.reaped b c hm
      refine ⟨hlt, ?_⟩
      intro r hr
      rw [hpid']
      exact hne r (hlive hr).2
    · rw [List.mem_singleton] at hm
      cases hm
      refine ⟨hp.lt q, ?_⟩
      intro r hr he
      rw [hpid'] at he
      exact (hlive hr).1 (hp.unique r q (hlive hr).2 hpq.1 he)
  · -- the pid was that of a process until now, so no earlier call returned it
    rw [List.filterMap_append]
    refine List.nodup_append.2 ⟨hp.nodup, by simp [Event.reapedPid], ?_⟩
    intro x hx y hy hxy
    obtain ⟨e, he, hex⟩ := List.mem_filterMap.1 hx
    simp only [List.filterMap_cons, Event.reapedPid, List.filterMap_nil, List.mem_singleton] at hy
    cases e with
    | reaped b d =>
      simp only [Event.reapedPid, Option.some.injEq] at hex
      exact (hp.reaped b d he).2 q hpq.1 (by rw [hex, hxy, hy])
    | _ => cases hex

omit [DecidableEq H] in
theorem Pids.step (hp : s.Pids es) (hf : FamilyStep s s' a fs) : s'.Pids (es ++ fs) := by
  cases hf with
  | same _ fs hfs hn hk => exact hp.same hfs hn hk
  | fork p c pt hlp hc hn hl hpid hpar hk => exact hp.fork p hn hpid hk
  | reap _ p q hpq hn hl hpid hk => exact hp.reap hpq hn hl hpid hk

omit [DecidableEq H] in
/-- Parents are older than their children, so a chain of parents never comes back. -/
theorem Pids.acyclic (hp : s.Pids es)
    (hpar : ∀ q p, s.ParentOf q p → Event.forked (s.proc p).pid (s.proc q).pid ∈ es) (p : Slot) :
    ¬ Relation.TransGen s.ParentOf p p := by
  have hlt {q p : Slot} (h : Relation.TransGen s.ParentOf q p) :
      (s.proc p).pid < (s.proc q).pid := by
    induction h with
    | single h => exact (hp.forked _ _ (hpar _ _ h)).1
    | tail _ h ih => exact lt_trans (hp.forked _ _ (hpar _ _ h)).1 ih
  exact fun h => absurd (hlt h) (lt_irrefl _)

omit [DecidableEq H] in
theorem Parentage.step (hpa : s.Parentage es) (hp : s.Pids es) (hf : FamilyStep s s' a fs)
    (hok : s.ForkOk a) : s'.Parentage (es ++ fs) := by
  have hmem : ∀ q p, s'.ParentOf q p → Event.forked (s'.proc p).pid (s'.proc q).pid ∈ es ++ fs := by
    intro q p hq
    cases hf with
    | same _ fs _ hn hk =>
      have hq' : s.ParentOf q p := ⟨(hk q).1.1 hq.1, (hk q).2.2 ▸ hq.2⟩
      rw [(hk p).2.1, (hk q).2.1]
      exact List.mem_append_left _ (hpa.parent q p hq')
    | fork r c pt hlr hc hn hl hpid hpar hk =>
      by_cases hqc : q = c
      · -- the new process; its parent is the caller
        obtain rfl : r = p := by
          have he := hq.2
          rw [hqc, hpar] at he
          exact Option.some.inj he
        have hrc : r ≠ c := by
          rintro rfl
          exact hlr (freeSlot_state hc)
        rw [hqc, hpid, hk r hrc]
        exact List.mem_append_right _ (List.mem_singleton.2 rfl)
      · have hq' : s.ParentOf q p := by
          rw [ParentOf, Live, hk q hqc] at hq
          exact hq
        have hpc : p ≠ c := by
          rintro rfl
          exact hok p hc q hq'
        rw [hk p hpc, hk q hqc]
        exact List.mem_append_left _ (hpa.parent q p hq')
    | reap _ r c _ hn hl hpid hk =>
      have hqc : q ≠ c := by
        rintro rfl
        exact hl hq.1
      have hq' : s.ParentOf q p := by
        rw [ParentOf, Live, hk q hqc] at hq
        exact hq
      have hpp : (s'.proc p).pid = (s.proc p).pid := by
        by_cases hpc : p = c
        · rw [hpc, hpid]
        · rw [hk p hpc]
      rw [hpp, hk q hqc]
      exact List.mem_append_left _ (hpa.parent q p hq')
  refine ⟨hmem, ?_, (hp.step hf).acyclic hmem⟩
  intro b c hm
  rcases List.mem_append.1 hm with hm | hm
  · exact List.mem_append_left _ (hpa.waited b c hm)
  · cases hf with
    | same _ fs hfs _ _ =>
      obtain ⟨_, he⟩ := hfs _ hm
      cases he
    | fork r c pt _ _ _ _ _ _ _ =>
      rw [List.mem_singleton] at hm
      cases hm
    | reap _ p q hq _ _ _ _ =>
      rw [List.mem_singleton] at hm
      cases hm
      exact List.mem_append_left _ (hpa.parent q p hq)

/-- A fork into a slot that is named as a parent makes a wrong parent. -/
theorem Parentage.forkOk (hp : s.Pids es) (hs : Step s h a s')
    (hpa : s'.Parentage (es ++ s.event h a)) : s.ForkOk a := by
  cases hs with
  | fork p d pt hcu hcp hl hd =>
    intro c hc q hq
    obtain rfl : d = c := Option.some.inj (hd.symm.trans hc)
    have hqd : q ≠ d := by
      rintro rfl
      exact hq.1 (freeSlot_state hc)
    have hm := hpa.parent q d (by simpa [ParentOf, Live, Function.update_of_ne hqd] using hq)
    simp only [setProc_proc, Function.update_self, Function.update_of_ne hqd, event, hcu, hcp, hd,
      List.mem_append, List.mem_singleton, Event.forked.injEq] at hm
    rcases hm with hm | ⟨hpid, _⟩
    · have hlt := hp.forked _ _ hm
      omega
    · have hlt := hp.lt p
      omega
  | forkFull p pt hcu hcp hl hd =>
    intro c hc
    rw [hd] at hc
    cases hc
  | _ => trivial

theorem Parentage.along (hi : s.SchedInv) (hp : s.Pids es) (hpa : s.Parentage es) :
    Always record Parentage s es as ↔ Along record (fun s _ _ a => s.ForkOk a) s es as := by
  refine always_iff_along (I := fun s es => s.SchedInv ∧ s.Pids es) ?_ ?_ ⟨hi, hp⟩ hpa
  · rintro s es h a s' ⟨hi, hp⟩ hs
    exact ⟨hi.step hs, hp.step (.of_step hi (.of_step hs))⟩
  · rintro s es h a s' ⟨hi, hp⟩ hpa hs
    have hst := Step.of_step hs
    exact ⟨fun hpa' => hpa'.forkOk hp hst, fun hok => hpa.step hp (.of_step hi hst) hok⟩

omit [DecidableEq H] in
theorem boot_proc (k t : Nat) (q : Slot) : ((boot k t : Sys H).proc q).parent = none ∧
    ((boot k t : Sys H).proc q).pid ≤ 1 ∧ ((boot k t : Sys H).Live q → q = .shell) := by
  by_cases hq : q = .shell
  · subst hq
    simp [boot, Proc.zero]
  · simp [boot, Function.update_of_ne hq, Proc.zero, Live]

omit [DecidableEq H] in
theorem Pids.boot (k t : Nat) : (boot k t : Sys H).Pids [] where
  lt p := Int.lt_of_le_of_lt (boot_proc k t p).2.1 one_lt_two
  unique p q hp hq _ := ((boot_proc k t p).2.2 hp).trans ((boot_proc k t q).2.2 hq).symm
  forked _ _ hm := by cases hm
  reaped _ _ hm := by cases hm
  nodup := .nil

omit [DecidableEq H] in
theorem Parentage.boot (k t : Nat) : (boot k t : Sys H).Parentage [] := by
  have hno (q p : Slot) : ¬ (Sys.boot k t : Sys H).ParentOf q p := by
    rintro ⟨_, hq⟩
    rw [(boot_proc k t q).1] at hq
    cases hq
  refine ⟨fun q p hq => absurd hq (hno q p), ?_, ?_⟩
  · intro b c hm
    cases hm
  · exact (Pids.boot k t).acyclic fun q p hq => absurd hq (hno q p)

/-- In a run from boot every parent pointer names the process that made the fork exactly when no
fork takes a slot that is still named as a parent. -/
theorem parentage_iff {k t : Nat} (hk : k ≠ 0) (ht : t ≠ k) (as : List (H × Act)) :
    Always record Parentage (boot k t) [] as ↔
      Along record (fun s _ _ a => s.ForkOk a) (boot k t) [] as :=
  Parentage.along (.boot hk ht) (.boot k t) (.boot k t)

instance : DecidablePred s.Live := fun _ => inferInstanceAs (Decidable (¬ _))

instance : Decidable (s.ParentOf q p) := inferInstanceAs (Decidable (_ ∧ _))

instance : DecidablePred s.ForkOk
  | .fork _ => inferInstanceAs (Decidable (∀ c, freeSlot s.proc = some c → ∀ q, ¬ s.ParentOf q c))
  | .go | .yield | .exit | .wait | .read _ | .intr _ => .isTrue trivial

theorem parentage_iff_reap : Always record Parentage (boot 1 2 : Sys Bool) [] reapRun :=
  (parentage_iff (by decide) (by decide) reapRun).2 (by decide +kernel)

/-- The shell forks a child, the child forks a grandchild and exits. The shell reaps the child and
forks again: the new process is in the slot that the grandchild has as its parent. -/
def orphanRun : List (Unit × Act) :=
  let go (n : Nat) : List (Unit × Act) := List.replicate n ((), .go)
  go 3 ++ [((), .fork 3), ((), .yield)] ++ go 3 ++ [((), .fork 4), ((), .exit)] ++ go 3 ++
    [((), .yield)] ++ go 10 ++ [((), .wait), ((), .go), ((), .fork 5)]

theorem orphan_not_parentage : ¬ Always record Parentage (boot 1 2 : Sys Unit) [] orphanRun := by
  rw [Parentage.along (.boot (by decide) (by decide)) (.boot 1 2) (.boot 1 2)]
  decide +kernel

end Sys

end KernelHobby
