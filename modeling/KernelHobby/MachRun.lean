import KernelHobby.MachLocks

namespace KernelHobby
set_option autoImplicit true

open Abs

namespace Mach
variable {H : Type} [DecidableEq H] {m m' : Mach H} {h h' : H} {k : Kind} {σ σ' : Abs}

theorem Inv.step (hi : m.Inv) (hs : m.step h a = some m') : m'.Inv := by
  cases a with
  | op i p =>
    simp only [Mach.step] at hs
    split at hs
    · rename_i o r hn
      exact hi.op hn hs
    · cases hs
  | trap c =>
    simp only [Mach.step] at hs
    split at hs
    · rename_i hc
      cases hs
      exact hi.trap hc
    · cases hs
  | fault i =>
    simp only [Mach.step] at hs
    split at hs
    · rename_i r hn
      cases hs
      obtain ⟨q, hc, ho⟩ := nextOp_mem hn
      exact hi.fault hc ho
    · cases hs
  | trapret => exact hi.trapret hs
  | lost b t =>
    simp only [Mach.step] at hs
    split at hs
    · rename_i m₁ hm₁
      split at hs
      · rename_i hsie
        cases hs
        obtain ⟨k, σ, _, ha⟩ := hi.harts h
        obtain ⟨hh, hn⟩ := ha.released (ha.free hsie).2
        simp only [Mach.trapret] at hm₁
        split at hm₁
        · split at hm₁
          · cases hm₁
            refine (hi.rest h).hart (h := h) ⟨fun _ _ => rfl, fun _ _ => rfl, ?_, ?_,
              fun _ _ => rfl, ?_, fun _ _ => rfl⟩ (HartOk.user ?_ ?_ hh hn)
              (fun _ _ hx => .inl hx) (fun _ _ hx => .inl hx) rfl rfl
            all_goals simp +contextual [setTp, setSie, setCur, Function.update_of_ne]
          · cases hm₁
        · cases hm₁
      · cases hs
    · cases hs
  | drift b t =>
    simp only [Mach.step] at hs
    split at hs
    · rename_i hc
      cases hs
      obtain ⟨k, σ, ht, ha⟩ := hi.harts h
      rw [Thread, hc] at ht
      obtain ⟨hfs, hf, _⟩ := ht
      obtain ⟨hh, hn⟩ := ha.released hf
      exact (hi.rest h).hart ((setSie_elsewhere m h b).trans (setTp_elsewhere _ h t))
        (HartOk.user hc hfs hh hn) (fun _ _ hx => .inl hx) (fun _ _ hx => .inl hx) rfl rfl
    · cases hs

theorem Inv.run (hi : m.Inv) (hr : m.run as = some m') : m'.Inv := by
  induction as generalizing m with
  | nil =>
    cases hr
    exact hi
  | cons a as ih =>
    simp only [Mach.run] at hr
    split at hr
    · rename_i m₁ hs
      exact ih (hi.step hs) hr
    · cases hr

omit [DecidableEq H] in
theorem Inv.boot (sie : H → Bool) : (Mach.boot sie).Inv := by
  refine ⟨⟨fun p c hp => ?_, nofun, fun l => ?_, nofun⟩, fun h => ?_⟩
  · rcases update_eq (f := fun _ => Seat.free) hp with hp | ⟨_, hp⟩
    · cases hp
    · cases hp
      exact ⟨_, .never, .entry, rfl, .inr rfl, Code.enterUser_wp, fun _ _ => .enter⟩
  · simp [Mach.boot]
  · refine ⟨.sched, ⟨[], false, true, false⟩, ⟨.never, ?_, .sched⟩, ?_⟩
    · exact Code.scheduler_wp ⟨rfl, rfl⟩
    · refine ⟨rfl, rfl, nofun, fun hx => ?_, ⟨List.nodup_nil, fun _ => ⟨rfl, rfl⟩⟩,
        fun _ => ⟨rfl, rfl⟩, nofun⟩
      rcases hx with hx | hx
      · exact absurd rfl hx
      · cases hx

/-- The hart is between the two halves of `acquire()` or `release()`. -/
def inside (m : Mach H) (h : H) : Bool :=
  match (m.cur h).code with
  | some q => q.next.any fun x => match x.1 with
    | .spin _ | .popOff => true
    | _ => false
  | none => false

omit [DecidableEq H] in
theorem inside_eq (ht : Thread h idle k σ (m.cur h)) : m.inside h = σ.mid := by
  cases hc : (m.cur h).code with
  | none =>
    rw [Thread, hc] at ht
    rw [inside, hc, ht.2.1.2]
  | some q =>
    obtain ⟨post, hw, hb⟩ := ht.code hc
    cases hm : σ.mid with
    | false =>
      refine Bool.eq_false_iff.2 fun hx => ?_
      rw [inside, hc] at hx
      obtain ⟨⟨o, r⟩, ho, hx⟩ := List.any_eq_true.1 hx
      obtain ⟨σ', he, _⟩ := hw.next ho
      cases o <;> simp [eff, hm] at hx he
    | true =>
      have hne : q.next ≠ [] := by
        intro hn
        cases hends : q.ends with
        | false =>
          have hst : σ.mid = false := hw.stuck hends hn
          rw [hm] at hst
          cases hst
        | true =>
          have hp := hw.ends hends
          cases post with
          | never => exact hp
          | free =>
            rw [hp.2] at hm
            cases hm
          | same τ =>
            rw [hp] at hm
            cases hm
      obtain ⟨⟨o, r⟩, ho⟩ := List.exists_mem_of_ne_nil _ hne
      obtain ⟨σ', he, _⟩ := hw.next ho
      rw [inside, hc]
      refine List.any_eq_true.2 ⟨(o, r), ho, ?_⟩
      cases o <;> simp [eff, hm] at he ⊢

/-- The accounting of the locks at one moment. -/
structure Accounted (m : Mach H) : Prop where
  holder : ∀ l h h', l ∈ m.held h → l ∈ m.held h' → h = h'
  once : ∀ h, (m.held h).Nodup
  locked : ∀ l, m.locked l = true ↔ ∃ h, l ∈ m.held h
  noff : ∀ h, m.noff h = (m.held h).length + if m.inside h then 1 else 0
  sie : ∀ h, 0 < m.noff h → m.sie h = false
  swtch : ∀ h q o r, (m.cur h).code = some q → (o, r) ∈ q.next → o = .swtch ∨ o = .dispatch →
    m.held h = [.pt] ∧ m.noff h = 1
  release : ∀ h q l r, (m.cur h).code = some q → (.unlock l, r) ∈ q.next → l ∈ m.held h
  acquire : ∀ h q l r, (m.cur h).code = some q → (.acquire l, r) ∈ q.next → l ∉ m.held h

omit [DecidableEq H] in
theorem Inv.accounted (hi : m.Inv) : m.Accounted where
  holder := hi.unique
  once h := by
    obtain ⟨k, σ, _, ha⟩ := hi.harts h
    rw [ha.held]
    exact ha.ok.nodup
  locked := hi.locked
  noff h := by
    obtain ⟨k, σ, ht, ha⟩ := hi.harts h
    rw [inside_eq ht, ha.held]
    exact ha.noff
  sie h hn := by
    obtain ⟨k, σ, _, ha⟩ := hi.harts h
    exact (ha.off (ha.noff_pos hn)).1
  swtch h q o r hc ho hx := by
    obtain ⟨k, σ, σ', ha, he, _⟩ := hi.next hc ho
    have hb : σ.held = [.pt] ∧ σ.mid = false := by
      rcases hx with rfl | rfl
      · simp only [eff, Option.ite_none_right_eq_some] at he
        exact he.1.2
      · simp only [eff, Option.ite_none_right_eq_some] at he
        exact he.1.2
    exact ⟨ha.held.trans hb.1, (ha.baton hb.1 hb.2).1⟩
  release h q l r hc ho := by
    obtain ⟨k, σ, σ', ha, he, _⟩ := hi.next hc ho
    simp only [eff, Option.ite_none_right_eq_some] at he
    rw [ha.held]
    exact he.1.2
  acquire h q l r hc ho := by
    obtain ⟨k, σ, σ', ha, he, _⟩ := hi.next hc ho
    simp only [eff, Option.ite_none_right_eq_some] at he
    rw [ha.held]
    exact he.1.2.1

/-- In every state of every run of the harts the locks are accounted for. -/
theorem locks_accounted (sie : H → Bool) (as : List (H × Act H))
    (hr : (boot sie).run as = some m) : m.Accounted :=
  ((Inv.boot sie).run hr).accounted

/-- A run of two harts: the shell enters user mode on the first, yields at a timer interrupt, and
goes on on the second. -/
def migration : List (Bool × Act Bool) :=
  let go (h : Bool) (n : Nat) : List (Bool × Act Bool) := List.replicate n (h, .op 0 .shell)
  go false 7 ++ [(false, .trap .timer)] ++ go true 2 ++ go false 3 ++ [(false, .op 1 .shell)] ++
    go false 1 ++ go true 2

theorem locks_accounted_migration : ∃ m, (boot fun _ : Bool => false).run migration = some m ∧
    (m.held true = [.pt] ∧ m.cpuProc true = some .shell) ∧ m.Accounted := by
  have hr : ((boot fun _ : Bool => false).run migration).any (fun m =>
      decide (m.held true = [.pt] ∧ m.cpuProc true = some .shell)) = true := by decide +kernel
  obtain ⟨m, hm, hp⟩ := (Option.any_eq_true _ _).1 hr
  exact ⟨m, hm, of_decide_eq_true hp, locks_accounted _ migration hm⟩

end Mach

end KernelHobby
