import KernelHobby.MachSteps

namespace KernelHobby
set_option autoImplicit true

open Abs

namespace Mach
variable {H : Type} [DecidableEq H] {m m' : Mach H} {h h' : H} {k : Kind} {σ σ' : Abs}
  {q : Code} {l : Lock} {p : Slot}

theorem baton_resume (hh : σ.held = [.pt]) (hm : σ.mid = false) (hi : σ.ie = false) :
    { σ with ia := true } = resume := by
  obtain ⟨held, mid, ie, ia⟩ := σ
  obtain rfl : held = [.pt] := hh
  obtain rfl : mid = false := hm
  obtain rfl : ie = false := hi
  rfl

theorem Rest.swtch (hi : m.Rest h) (ha : m.Agree h k σ) (he : eff k σ .swtch = some σ')
    (hc : (m.cur h).code = some q) (ht : Thread h (m.cpuProc h = none) k σ' (m.cur h))
    (hs : m.swtch h = some m') : m'.Inv := by
  simp only [eff, Option.ite_none_right_eq_some, Option.some.injEq] at he
  obtain ⟨⟨rfl, hh, hm⟩, rfl⟩ := he
  obtain ⟨hn, hsie, htp⟩ := ha.baton hh hm
  have hres := baton_resume hh hm (ha.noff_pos (by rw [hn]; decide))
  rw [hres] at ht
  simp only [Mach.swtch, htp] at hs
  split at hs
  · cases hs
    refine hi.hart (.refl m h) ⟨.proc, resume, ht, ?_⟩ (fun _ _ hx => .inl hx)
      (fun _ _ hx => .inl hx) rfl rfl
    refine .resumed (ha.held.trans hh) hn hsie htp fun hx => ?_
    cases hx
  · rename_i p hp
    split at hs
    · cases hs
    · rename_i c hsc
      cases hs
      obtain ⟨post, hw, hb⟩ := ht.code hc
      obtain ⟨ps, hps, hfs, hws⟩ := hi.scheds h c hsc
      refine hi.hart (switch_elsewhere m h p _ c _ none) ⟨.sched, resume, ?_, ?_⟩ ?_
        (fun _ _ hx => .inl hx) rfl rfl
      · have hcur : Function.update m.cur h c h = c := Function.update_self ..
        simp only [setCur, setSeat, hcur, Thread, hps, hfs]
        exact ⟨.never, hws, .sched⟩
      · exact .resumed (ha.held.trans hh) hn hsie htp fun _ => Function.update_self ..
      · intro p' c' hp'
        rcases update_eq (f := m.seat) hp' with hp' | ⟨_, hsv⟩
        · exact .inl hp'
        · cases hsv
          exact .inr ⟨q, post, .proc, hc, .inl rfl, hw, fun h' i => hb.migrate (.inl rfl) h' i⟩

theorem Rest.dispatch (hi : m.Rest h) (ha : m.Agree h k σ) (he : eff k σ .dispatch = some σ')
    (hc : (m.cur h).code = some q) (ht : Thread h (m.cpuProc h = none) k σ' (m.cur h))
    (hs : m.dispatch h p = some m') : m'.Inv := by
  simp only [eff, Option.ite_none_right_eq_some, Option.some.injEq] at he
  obtain ⟨⟨rfl, hh, hm⟩, rfl⟩ := he
  obtain ⟨hn, hsie, htp⟩ := ha.baton hh hm
  have hres := baton_resume hh hm (ha.noff_pos (by rw [hn]; decide))
  rw [hres] at ht
  simp only [Mach.dispatch] at hs
  split at hs
  · rename_i c hp
    cases hs
    obtain ⟨post, hw, hb⟩ := ht.code hc
    obtain ⟨hfs, rfl⟩ := hb.sched_frame
    obtain ⟨pc, post', k', hpc, hk', hw', hb'⟩ := hi.seats p c hp
    refine hi.hart (switch_elsewhere m h p _ c _ _) ⟨k', resume, ?_, ?_⟩ ?_ ?_ rfl rfl
    · have hcur : Function.update m.cur h c h = c := Function.update_self ..
      simp only [setCur, setSeat, hcur, Thread, hpc]
      exact ⟨post', hw', hb' h _⟩
    · refine .resumed (ha.held.trans hh) hn hsie htp fun hx => ?_
      subst hx
      rcases hk' with hx | hx <;> cases hx
    · intro p' c' hp'
      rcases update_eq (f := m.seat) hp' with hp' | ⟨_, hsv⟩
      · exact .inl hp'
      · cases hsv
    · intro h' c' hc'
      rcases update_eq (f := m.cpuSched) hc' with hc' | ⟨_, hsv⟩
      · exact .inl hc'
      · cases hsv
        exact .inr ⟨q, hc, hfs, hw⟩
  · cases hs

omit [DecidableEq H] in
/-- A change of one seat, with nothing else. -/
theorem Rest.setSeat (hi : m.Rest h) (hx : ∀ c, x = .saved c → Saved c)
    (hk : m.HartOk h) : (m.setSeat p x).Inv := by
  obtain ⟨k, σ, ht, ha⟩ := hk
  have ha' : (m.setSeat p x).Agree h k σ :=
    ⟨ha.held, ha.noff, ha.off, ha.intena, ha.ok, ha.sched, ha.fixed⟩
  refine hi.hart (setSeat_elsewhere m h p x) ⟨k, σ, ht, ha'⟩ (fun p' c hp' => ?_)
    (fun _ _ hx => .inl hx) rfl rfl
  rcases update_eq (f := m.seat) hp' with hp' | ⟨_, hsv⟩
  · exact .inl hp'
  · exact .inr (hx c hsv)

omit [DecidableEq H] in
theorem child_saved (ht : Thread h idle .proc σ (m.cur h)) (hc : (m.cur h).code = some q) :
    Saved (m.child h) := by
  obtain ⟨post, _, hb⟩ := ht.code hc
  obtain ⟨f, fs, hfs⟩ := hb.proc_frame
  refine ⟨Code.forkret, .free, .entry, rfl, .inr rfl, Code.forkret_wp, fun h' i => ?_⟩
  simp only [child, hfs, List.head?_cons, Option.toList_some, List.map_cons, List.map_nil]
  exact .forkret rfl rfl

theorem Rest.sret (hi : m.Rest h) (ha : m.Agree h k σ) (hf : σ.Free) :
    ((m.setCur h ⟨none, [], none⟩).setSie h true).Inv := by
  obtain ⟨hh, hn⟩ := ha.released hf
  refine hi.hart ((setCur_elsewhere m h _).trans (setSie_elsewhere _ h true)) ?_
    (fun _ _ hx => .inl hx) (fun _ _ hx => .inl hx) rfl rfl
  refine HartOk.user ?_ ?_ hh hn
  · simp [setSie]
  · simp [setSie]

theorem Rest.exec (hi : m.Rest h) (ha : m.Agree h k σ) (he : eff k σ o = some σ')
    (hc : (m.cur h).code = some q) (ht : Thread h (m.cpuProc h = none) k σ' (m.cur h))
    (hs : m.exec h p o = some m') : m'.Inv := by
  cases o with
  | acquire l =>
    cases hs
    exact hi.acquire ha he ht
  | spin l =>
    simp only [Mach.exec] at hs
    split at hs
    · cases hs
    · rename_i hl
      cases hs
      exact hi.spin ha he ht (Bool.eq_false_iff.2 hl)
  | unlock l =>
    cases hs
    exact hi.unlock ha he ht
  | popOff =>
    cases hs
    exact hi.popOff ha he ht
  | intrOn =>
    cases hs
    have hok := eff_ok he ha.ok
    simp only [eff, Option.ite_none_right_eq_some, Option.some.injEq] at he
    obtain ⟨⟨rfl, hh, hm⟩, rfl⟩ := he
    refine hi.hart (setSie_elsewhere m h true) ⟨.sched, _, ht, ?_⟩ (fun _ _ hx => .inl hx)
      (fun _ _ hx => .inl hx) rfl rfl
    refine ⟨ha.held, ha.noff, fun hx => ?_, ha.intena, hok, ha.sched, fun hx => ?_⟩
    · cases hx
    · cases hx
  | swtch => exact hi.swtch ha he hc ht hs
  | dispatch => exact hi.dispatch ha he hc ht hs
  | spawn =>
    simp only [eff, Option.ite_none_right_eq_some, Option.some.injEq] at he
    obtain ⟨⟨rfl, _⟩, rfl⟩ := he
    simp only [Mach.exec] at hs
    split at hs
    · cases hs
      refine hi.setSeat (h := h) (fun c hx => ?_) ⟨.proc, σ, ht, ha⟩
      cases hx
      exact child_saved ht hc
    · cases hs
  | reap =>
    simp only [eff, Option.ite_none_right_eq_some, Option.some.injEq] at he
    obtain ⟨⟨rfl, _⟩, rfl⟩ := he
    simp only [Mach.exec] at hs
    split at hs
    · cases hs
      refine hi.setSeat (h := h) (fun c hx => ?_) ⟨.proc, σ, ht, ha⟩
      cases hx
    · cases hs
  | user =>
    simp only [eff, Option.ite_none_right_eq_some, Option.some.injEq] at he
    obtain ⟨_, rfl⟩ := he
    cases hs
    exact hi.inv ⟨k, σ, ht, ha⟩
  | sret =>
    simp only [eff, Option.ite_none_right_eq_some, Option.some.injEq] at he
    obtain ⟨⟨_, hf⟩, rfl⟩ := he
    cases hs
    exact hi.sret ha hf

theorem kernelvec_cur (m : Mach H) (h : H) (c : Cause) : (m.kernelvec h c).cur h =
    ⟨some (kerneltrap (m.cpuProc h).isSome c),
      ⟨(m.cur h).code, m.sie h, m.tp h, true⟩ :: (m.cur h).frames, (m.cur h).mine⟩ := by
  simp only [kernelvec, setCur_cur, Function.update_self]
  rfl

theorem kernelvec_elsewhere (m : Mach H) (h : H) (c : Cause) :
    Elsewhere m (m.kernelvec h c) h :=
  ((setSie_elsewhere m h false).trans (setTp_elsewhere _ h h)).trans (setCur_elsewhere _ h _)

/-- The handler on top of what it interrupts. -/
theorem Rest.kernelvec (hi : m.Rest h) (ha : m.Agree h k σ) (hm : σ.mid = false) (post : Post)
    (hw : (kerneltrap (m.cpuProc h).isSome c).Wp (eff k') Still post.Holds σ.enter)
    (hb : Below h (m.cpuProc h = none) k' post
      (⟨(m.cur h).code, m.sie h, m.tp h, true⟩ :: (m.cur h).frames))
    (hk : k' = .proc ∨ k' = .fixed) : (m.kernelvec h c).Inv := by
  refine hi.hart (kernelvec_elsewhere m h c) ⟨k', σ.enter, ?_, ?_⟩ (fun _ _ hx => .inl hx)
    (fun _ _ hx => .inl hx) rfl rfl
  · rw [kernelvec_cur]
    exact ⟨post, hw, hb⟩
  · refine ⟨ha.held, ?_, fun _ => ⟨Function.update_self .., Function.update_self ..⟩, ?_,
      enter_ok ha.ok, fun hx => ?_, fun _ => rfl⟩
    · have hn := ha.noff
      rw [hm] at hn
      exact hn
    · intro hx hia
      have hne : σ.held ≠ [] := by
        rcases hx with hx | hx
        · exact hx
        · cases hx
      have hia' : (if σ.held = [] then false else σ.ia) = false := hia
      rw [if_neg hne] at hia'
      exact ha.intena (.inl hne) hia'
    · subst hx
      rcases hk with hk | hk <;> cases hk

omit [DecidableEq H] in
theorem enter_free (hf : σ.Free) : σ.enter = top := by
  rw [enter, hf.1, if_pos rfl]
  rfl

/-- A trap from user code, or an interrupt where SIE is on. -/
theorem Inv.trap (hi : m.Inv) (hc : (m.cur h).code = none ∨ c.interrupt = true ∧ m.sie h = true) :
    (m.kernelvec h c).Inv := by
  obtain ⟨k, σ, ht, ha⟩ := hi.harts h
  cases hcode : (m.cur h).code with
  | none =>
    rw [Thread, hcode] at ht
    obtain ⟨hfs, hf, rfl⟩ := ht
    refine (hi.rest h).kernelvec ha hf.2 .free ?_ ?_ (.inl rfl)
    · rw [enter_free hf]
      exact Code.kerneltrap_serves _ _
    · rw [hfs, hcode]
      exact .user rfl rfl
  | some q =>
    obtain ⟨hci, hs⟩ := hc.resolve_left (by rw [hcode]; exact Option.some_ne_none q)
    obtain ⟨hie, hf⟩ := ha.free hs
    obtain ⟨post, hw, hb⟩ := ht.code hcode
    cases k with
    | fixed =>
      rw [ha.fixed rfl] at hie
      cases hie
    | sched =>
      obtain ⟨htp, hidle⟩ := ha.sched rfl
      have hq : Code.Quiet .fixed σ.enter := by
        rw [enter_free hf]
        exact .top (.inr rfl)
      refine (hi.rest h).kernelvec ha hf.2 (.same σ) ?_ ?_ (.inr rfl)
      · rw [hidle]
        refine Code.kerneltrap_interrupt_keeps hq ?_ hci
        rw [enter_free hf]
        exact List.not_mem_nil
      · rw [hcode]
        refine .fixed rfl rfl hw hb ha.ok hf.2 (fun hx => ?_) (fun _ => ⟨hidle, htp⟩) fun hx => ?_
        · rw [hie] at hx
          cases hx
        · cases hx
    | proc | entry =>
      refine (hi.rest h).kernelvec ha hf.2 .free ?_ ?_ (.inl rfl)
      · rw [enter_free hf]
        exact Code.kerneltrap_serves _ _
      · rw [hcode]
        exact .nested rfl rfl (by first | exact .inl rfl | exact .inr rfl) hw hb ha.ok hie

/-- A page fault of the kernel's code at an access to user memory. -/
theorem Inv.fault (hi : m.Inv) (hc : (m.cur h).code = some q) (ho : (.user, r) ∈ q.next) :
    (m.kernelvec h .fault).Inv := by
  obtain ⟨k, σ, ht, ha⟩ := hi.harts h
  obtain ⟨post, hw, hb⟩ := ht.code hc
  obtain ⟨σ', he, _⟩ := hw.next ho
  simp only [eff, Option.ite_none_right_eq_some, Option.some.injEq] at he
  obtain ⟨⟨hk, hm, hkm, hu⟩, _⟩ := he
  refine (hi.rest h).kernelvec ha hm (.same σ) ?_ ?_ (.inr rfl)
  · exact Code.kerneltrap_fault_keeps ⟨.inr rfl, enter_calm σ, hkm, hu⟩ _
  · rw [hc]
    refine .fixed rfl rfl hw hb ha.ok hm ha.off (fun hx => ?_) ha.fixed
    subst hx
    rcases hk with hk | hk <;> cases hk

theorem Inv.trapret (hi : m.Inv) (hs : m.trapret h = some m') : m'.Inv := by
  obtain ⟨k, σ, ht, ha⟩ := hi.harts h
  simp only [Mach.trapret] at hs
  split at hs
  · rename_i p f fs hc hf
    split at hs
    · rename_i hends
      cases hs
      obtain ⟨post, hw, hb⟩ := ht.code hc
      have hpost := hw.ends hends
      have hel := ((setCur_elsewhere m h { m.cur h with code := f.code, frames := fs }).trans
        (setSie_elsewhere _ h f.sie)).trans (setTp_elsewhere _ h f.tp)
      refine (hi.rest h).hart hel ?_ (fun _ _ hx => .inl hx) (fun _ _ hx => .inl hx) rfl rfl
      rw [hf] at hb
      cases hb with
      | forkret hfc _ | user hfc _ =>
        obtain ⟨hh, hn⟩ := ha.released hpost
        refine HartOk.user ?_ ?_ hh hn
        · simp [setSie, setTp, hfc]
        · simp [setSie, setTp]
      | nested hfc htr hk hw' hb' hok hie =>
        rename_i q k' post' τ
        obtain ⟨hh, hn⟩ := ha.released hpost
        obtain ⟨hτh, hτm⟩ := hok.ie hie
        refine ⟨k', τ, ?_, ⟨hh.trans hτh.symm, ?_, ?_, ?_, hok, ?_, ?_⟩⟩
        · simp only [setTp, setSie, setCur, Function.update_self, Thread, hfc]
          exact ⟨post', hw', hb'⟩
        · rw [hτh, hτm]
          exact hn
        · intro hx
          rw [hie] at hx
          cases hx
        · rintro (hx | hx)
          · exact absurd hτh hx
          · rw [hτm] at hx
            cases hx
        · rintro rfl
          rcases hk with hk | hk <;> cases hk
        · rintro rfl
          rcases hk with hk | hk <;> cases hk
      | fixed hfc htr hw' hb' hok hm hoff hsch hfix =>
        rename_i q k' post' τ
        cases hpost
        refine ⟨k', τ, ?_, ⟨ha.held, ?_, ?_, ?_, hok, ?_, hfix⟩⟩
        · simp only [setTp, setSie, setCur, Function.update_self, Thread, hfc]
          exact ⟨post', hw', hb'⟩
        · have hn := ha.noff
          rw [hm]
          exact hn
        · intro hx
          simp only [setTp, setSie, setCur, Function.update_self]
          exact hoff hx
        · intro hx hia
          have hne : τ.held ≠ [] := by
            rcases hx with hx | hx
            · exact hx
            · rw [hm] at hx
              cases hx
          refine ha.intena (.inl hne) ?_
          rw [enter, if_neg hne]
          exact hia
        · intro hx
          obtain ⟨hidle, htp⟩ := hsch hx
          refine ⟨?_, hidle⟩
          simp only [setTp, Function.update_self]
          exact htp
    · cases hs
  · cases hs

omit [DecidableEq H] in
/-- What the code on a hart does next obeys the discipline. -/
theorem Inv.next (hi : m.Inv) (hc : (m.cur h).code = some q) (ho : (o, r) ∈ q.next) :
    ∃ k σ σ', m.Agree h k σ ∧ eff k σ o = some σ' ∧
      Thread h (m.cpuProc h = none) k σ' { m.cur h with code := some r } := by
  obtain ⟨k, σ, ht, ha⟩ := hi.harts h
  obtain ⟨post, hw, hb⟩ := ht.code hc
  obtain ⟨σ', he, hw'⟩ := hw.next ho
  exact ⟨k, σ, σ', ha, he, post, hw', hb⟩

omit [DecidableEq H] in
theorem nextOp_mem (hn : m.nextOp h i = some (o, r)) :
    ∃ q, (m.cur h).code = some q ∧ (o, r) ∈ q.next := by
  simp only [nextOp] at hn
  split at hn
  · rename_i q hq
    exact ⟨q, hq, List.mem_of_getElem? hn⟩
  · cases hn

/-- One operation of the code of a hart. In the middle of the step the hart already goes on with
the rest of its code. -/
theorem Inv.op (hi : m.Inv) (hn : m.nextOp h i = some (o, r))
    (hs : (m.setCode h r).exec h p o = some m') : m'.Inv := by
  obtain ⟨q, hc, ho⟩ := nextOp_mem hn
  obtain ⟨k, σ, σ', ha, he, ht⟩ := hi.next hc ho
  have hcur : (m.setCode h r).cur h = { m.cur h with code := some r } := Function.update_self ..
  have hr : (m.setCode h r).Rest h :=
    ⟨⟨hi.seats, hi.scheds, hi.locked, hi.unique⟩,
      fun h' hne => (hi.harts h').elsewhere (setCur_elsewhere m h _) hne⟩
  refine hr.exec (ha.setCode r) he (q := r) ?_ ?_ hs
  · rw [hcur]
  · rw [hcur]
    exact ht

end Mach

end KernelHobby
