import KernelHobby.Flow
import KernelHobby.MachRun

namespace KernelHobby
set_option autoImplicit true

/-- Code outside of `acquire()` and `release()`, at the exchange of `acquire(l)`, or between the
two halves of `release()`. -/
inductive Half where
  | none
  | want (l : Lock)
  | drop
  deriving DecidableEq

/-- The locks that code holds, with where it is in taking or giving back one more. -/
structure Rung where
  held : List Lock
  half : Half
  deriving DecidableEq

namespace Rung

/-- The order of the locks: `pt_lock` is taken first, the others last. -/
def eff (r : Rung) : HartOp → Option Rung
  | .acquire l =>
    if r.half = .none ∧ (r.held = [] ∨ r.held = [.pt] ∧ l ≠ .pt) then some { r with half := .want l }
    else none
  | .spin l => if r.half = .want l then some ⟨l :: r.held, .none⟩ else none
  | .unlock l => if r.half = .none ∧ l ∈ r.held then some ⟨r.held.erase l, .drop⟩ else none
  | .popOff => if r.half = .drop then some { r with half := .none } else none
  | .intrOn => if r.half = .none ∧ r.held = [] then some r else none
  | .swtch | .dispatch | .spawn | .reap =>
    if r.half = .none ∧ r.held = [.pt] then some r else none
  | .user => if r.half = .none ∧ (r.held = [] ∨ r.held = [.pt]) then some r else none
  | .sret => if r.half = .none ∧ r.held = [] then some r else none

/-- A lock is only taken over those that come before it. -/
def Climbs (r : Rung) : Prop :=
  ∀ l, r.half = .want l → r.held = [] ∨ r.held = [.pt] ∧ l ≠ .pt

theorem eff_climbs {r r' : Rung} (hc : r.Climbs) (he : eff r o = some r') : r'.Climbs := by
  intro l hl
  cases o with
  | acquire l' =>
    simp only [eff, Option.ite_none_right_eq_some, Option.some.injEq] at he
    obtain ⟨⟨_, hh⟩, rfl⟩ := he
    cases hl
    exact hh
  | spin _ | unlock _ | popOff =>
    simp only [eff, Option.ite_none_right_eq_some, Option.some.injEq] at he
    obtain ⟨_, rfl⟩ := he
    cases hl
  | intrOn | swtch | dispatch | spawn | reap | user | sret =>
    simp only [eff, Option.ite_none_right_eq_some, Option.some.injEq] at he
    obtain ⟨_, rfl⟩ := he
    exact hc l hl

/-- Outside of `acquire()` and `release()` with the locks `held`. -/
def holding (held : List Lock) : Rung := ⟨held, .none⟩

/-- The code keeps the order of the locks from `r`, and ends, if it ends, with the locks `e`. -/
def Runs (p : Code) (r : Rung) (e : List Lock) : Prop :=
  p.Wp eff (fun _ => True) (fun t => t = holding e) r

theorem holding_climbs (e : List Lock) : (holding e).Climbs := nofun

/-- What the flow finds in the code of the kernel, on every way through it. -/
theorem kernel_flows :
    (∀ cur, Prog.flow eff (kerneltrap cur .other) (holding []) = some []) ∧
      (∀ c ∈ [Cause.timer, .external, .unknown, .ecall, .fault], ∀ cur,
        Prog.flow eff (kerneltrap cur c) (holding []) = some [holding []]) ∧
      (∀ cur, Prog.flow eff (kerneltrap cur .fault) (holding [.pt]) = some [holding [.pt]]) ∧
      Prog.flow eff Code.scheduler (holding []) = some [] ∧
      Prog.flow eff Code.enterUser (holding [.pt]) = some [] ∧
      Prog.flow eff Code.forkret (holding [.pt]) = some [holding []] := by
  decide +kernel

theorem kerneltrap_runs (cur : Bool) (c : Cause) : Runs (kerneltrap cur c) (.holding []) [] := by
  cases c with
  | other => exact Prog.flow_never (kernel_flows.1 cur)
  | timer | external | unknown | ecall | fault =>
    exact Prog.flow_same (kernel_flows.2.1 _ (by simp) cur)

theorem fault_runs (cur : Bool) : Runs (kerneltrap cur .fault) (.holding [.pt]) [.pt] :=
  Prog.flow_same (kernel_flows.2.2.1 cur)

theorem scheduler_runs (e : List Lock) : Runs Code.scheduler (.holding []) e :=
  Prog.flow_never kernel_flows.2.2.2.1

theorem enterUser_runs (e : List Lock) : Runs Code.enterUser (.holding [.pt]) e :=
  Prog.flow_never kernel_flows.2.2.2.2.1

theorem forkret_runs : Runs Code.forkret (.holding [.pt]) [] :=
  Prog.flow_same kernel_flows.2.2.2.2.2

theorem Runs.next (hr : Runs p r e) (hn : (o, q) ∈ p.next) :
    ∃ r', eff r o = some r' ∧ Runs q r' e := by
  have hw : p.Wp eff (fun _ => True) (fun t => t = holding e) r := hr
  exact hw.next hn

theorem Runs.ends (hr : Runs p r e) (he : p.ends = true) : r = holding e := by
  have hw : p.Wp eff (fun _ => True) (fun t => t = holding e) r := hr
  exact hw.ends he

end Rung

variable {H : Type}

/-- The frames under code that ends with the locks `e`: what was interrupted goes on with them. -/
inductive Layered : List Lock → List (Frame H) → Prop where
  | nil : Layered e []
  | user : f.code = none → Layered [] (f :: fs)
  | code : f.code = some q → Rung.Runs q (.holding e) e' → Layered e' fs → Layered e (f :: fs)

/-- A thread at `r` keeps the order of the locks. -/
def Orderly (r : Rung) (c : Ctx H) : Prop :=
  match c.code with
  | none => r = .holding []
  | some p => ∃ e, Rung.Runs p r e ∧ Layered e c.frames

theorem Orderly.code {r : Rung} {c : Ctx H} (ho : Orderly r c) (hc : c.code = some p) :
    ∃ e, Rung.Runs p r e ∧ Layered e c.frames := by
  rw [Orderly, hc] at ho
  exact ho

theorem Orderly.of_code {r : Rung} {c : Ctx H} (hc : c.code = some p) (hr : Rung.Runs p r e)
    (hs : Layered e c.frames) : Orderly r c := by
  rw [Orderly, hc]
  exact ⟨e, hr, hs⟩

theorem Orderly.congr {r : Rung} {c c' : Ctx H} (ho : Orderly r c) (hc : c'.code = c.code)
    (hf : c'.frames = c.frames) : Orderly r c' := by
  rw [Orderly, hc, hf]
  exact ho

theorem Orderly.of_user {c : Ctx H} (hc : c.code = none) : Orderly (.holding []) c := by
  rw [Orderly, hc]

namespace Mach
variable {m m' : Mach H} {h h' : H} {r : Rung}

/-- The hart is at `r`; inside of `acquire()` and `release()` no interrupt comes. -/
structure AtRung (m : Mach H) (h : H) (r : Rung) : Prop where
  held : m.held h = r.held
  orderly : Orderly r (m.cur h)
  off : r.half ≠ .none → m.sie h = false
  order : r.Climbs

/-- Every thread keeps the order of the locks, also those that wait for a hart. -/
structure Ordered (m : Mach H) : Prop where
  harts : ∀ h, ∃ r, m.AtRung h r
  seats : ∀ p c, m.seat p = .saved c → Orderly (.holding [.pt]) c
  scheds : ∀ h c, m.cpuSched h = some c → Orderly (.holding [.pt]) c

/-- A step that changes only hart `h`. -/
theorem Ordered.hart (ho : m.Ordered) (hat : m'.AtRung h r)
    (hk : ∀ h', h' ≠ h → m'.held h' = m.held h' ∧ m'.cur h' = m.cur h' ∧ m'.sie h' = m.sie h')
    (hp : ∀ p c, m'.seat p = .saved c → m.seat p = .saved c ∨ Orderly (.holding [.pt]) c)
    (hs : ∀ h c, m'.cpuSched h = some c → m.cpuSched h = some c ∨ Orderly (.holding [.pt]) c) :
    m'.Ordered := by
  constructor
  · intro h'
    by_cases hne : h' = h
    · subst hne
      exact ⟨r, hat⟩
    · obtain ⟨h₁, h₂, h₃⟩ := hk h' hne
      obtain ⟨r', hr'⟩ := ho.harts h'
      exact ⟨r', h₁.trans hr'.held, h₂ ▸ hr'.orderly, h₃ ▸ hr'.off, hr'.order⟩
  · intro p c hc
    rcases hp p c hc with hc | hc
    · exact ho.seats p c hc
    · exact hc
  · intro h' c hc
    rcases hs h' c hc with hc | hc
    · exact ho.scheds h' c hc
    · exact hc

theorem Inv.sie_held (hi : m.Inv) (hs : m.sie h = true) : m.held h = [] := by
  obtain ⟨k, σ, _, ha⟩ := hi.harts h
  exact (ha.released (ha.free hs).2).1

theorem Inv.held_sie (hi : m.Inv) (hh : m.held h ≠ []) : m.sie h = false := by
  cases hs : m.sie h with
  | false => rfl
  | true => exact absurd (hi.sie_held hs) hh

/-- The child of a fork starts with `pt_lock`, over the frame of the system call. -/
theorem child_orderly (m : Mach H) (h : H) : Orderly (.holding [.pt]) (m.child h) := by
  apply Orderly.of_code (p := Code.forkret) rfl Rung.forkret_runs
  cases hf : (m.cur h).frames with
  | nil =>
    simp only [child, hf, List.head?_nil, Option.toList_none, List.map_nil]
    exact .nil
  | cons f fs =>
    simp only [child, hf, List.head?_cons, Option.toList_some, List.map_cons, List.map_nil]
    exact .user rfl

variable [DecidableEq H]

/-- One operation of the code of a hart. -/
theorem Ordered.op (ho : m.Ordered) (hi : m.Inv) (hn : m.nextOp h i = some (o, q))
    (hs : (m.setCode h q).exec h p o = some m') : m'.Ordered := by
  obtain ⟨q₀, hc, hmem⟩ := nextOp_mem hn
  obtain ⟨r, hr⟩ := ho.harts h
  obtain ⟨e, hrun, hst⟩ := hr.orderly.code hc
  obtain ⟨r', he, hrun'⟩ := hrun.next hmem
  have hclimb := Rung.eff_climbs hr.order he
  obtain ⟨k, σ, σ', ha, hσ, _⟩ := hi.next hc hmem
  have hcur : (m.setCode h q).cur h = { m.cur h with code := some q } := Function.update_self ..
  have hown : Orderly r' ((m.setCode h q).cur h) := by
    rw [hcur]
    exact .of_code rfl hrun' hst
  have hcur' (h' : H) (hne : h' ≠ h) : (m.setCode h q).cur h' = m.cur h' :=
    Function.update_of_ne hne _ _
  have hpt : r.half = .none ∧ r.held = [.pt] → r = .holding [.pt] := by
    rintro ⟨h₁, h₂⟩
    cases r
    simp_all [Rung.holding]
  cases o with
  | acquire l =>
    cases hs
    obtain ⟨_, htp⟩ := (ha.setCode q).pushOff hσ
    have hp := pushOff_pushed htp
    simp only [Rung.eff, Option.ite_none_right_eq_some, Option.some.injEq] at he
    obtain ⟨_, rfl⟩ := he
    apply ho.hart (h := h) (r := { r with half := .want l })
    · exact ⟨(congrFun hp.held h).trans hr.held, hown.congr hp.code hp.frames, fun _ => hp.sie,
        hclimb⟩
    · intro h' hne
      exact ⟨congrFun hp.held h', (hp.elsewhere.cur h' hne).trans (hcur' h' hne),
        hp.elsewhere.sie h' hne⟩
    · intro p c hx
      rw [hp.seat] at hx
      exact .inl hx
    · intro h' c hx
      rw [hp.cpuSched] at hx
      exact .inl hx
  | spin l =>
    simp only [exec] at hs
    split at hs
    · cases hs
    cases hs
    simp only [Rung.eff, Option.ite_none_right_eq_some, Option.some.injEq] at he
    obtain ⟨_, rfl⟩ := he
    apply ho.hart (h := h)
    · refine ⟨?_, hown, fun hx => absurd rfl hx, hclimb⟩
      simp only [lock, Function.update_self]
      exact congrArg (List.cons l) hr.held
    · intro h' hne
      exact ⟨Function.update_of_ne hne _ _, hcur' h' hne, rfl⟩
    · exact fun _ _ => .inl
    · exact fun _ _ => .inl
  | unlock l =>
    cases hs
    simp only [Rung.eff, Option.ite_none_right_eq_some, Option.some.injEq] at he
    obtain ⟨⟨_, hl⟩, rfl⟩ := he
    apply ho.hart (h := h)
    · refine ⟨?_, hown, ?_, hclimb⟩
      · simp only [unlock, Function.update_self]
        exact congrArg (List.erase · l) hr.held
      · intro _
        apply hi.held_sie
        rw [hr.held]
        exact List.ne_nil_of_mem hl
    · intro h' hne
      exact ⟨Function.update_of_ne hne _ _, hcur' h' hne, rfl⟩
    · exact fun _ _ => .inl
    · exact fun _ _ => .inl
  | popOff =>
    cases hs
    obtain ⟨_, htp⟩ := (ha.setCode q).popOff hσ
    have hp := popOff_popped htp
    simp only [Rung.eff, Option.ite_none_right_eq_some, Option.some.injEq] at he
    obtain ⟨_, rfl⟩ := he
    apply ho.hart (h := h) (r := { r with half := .none })
    · exact ⟨(congrFun hp.held h).trans hr.held, hown.congr hp.code hp.frames,
        fun hx => absurd rfl hx, hclimb⟩
    · intro h' hne
      exact ⟨congrFun hp.held h', (hp.elsewhere.cur h' hne).trans (hcur' h' hne),
        hp.elsewhere.sie h' hne⟩
    · intro p c hx
      rw [hp.seat] at hx
      exact .inl hx
    · intro h' c hx
      rw [hp.cpuSched] at hx
      exact .inl hx
  | intrOn =>
    cases hs
    simp only [Rung.eff, Option.ite_none_right_eq_some, Option.some.injEq] at he
    obtain ⟨⟨hh, _⟩, rfl⟩ := he
    apply ho.hart (h := h)
    · exact ⟨hr.held, hown, fun hx => absurd hh hx, hclimb⟩
    · intro h' hne
      exact ⟨rfl, hcur' h' hne, Function.update_of_ne hne _ _⟩
    · exact fun _ _ => .inl
    · exact fun _ _ => .inl
  | swtch =>
    simp only [Rung.eff, Option.ite_none_right_eq_some, Option.some.injEq] at he
    obtain ⟨hh, rfl⟩ := he
    have hown' := hown
    rw [hpt hh] at hown'
    simp only [exec, Mach.swtch] at hs
    split at hs
    · cases hs
      apply ho.hart (h := h)
      · exact ⟨hr.held, hown, fun hx => absurd hh.1 hx, hclimb⟩
      · exact fun h' hne => ⟨rfl, hcur' h' hne, rfl⟩
      · exact fun _ _ => .inl
      · exact fun _ _ => .inl
    · split at hs
      · cases hs
      · rename_i c hsc
        cases hs
        apply ho.hart (h := h) (r := .holding [.pt])
        · refine ⟨?_, ?_, fun hx => absurd rfl hx, Rung.holding_climbs _⟩
          · exact hr.held.trans hh.2
          · simp only [setCur_cur, Function.update_self]
            exact ho.scheds _ c hsc
        · intro h' hne
          refine ⟨rfl, ?_, rfl⟩
          exact (Function.update_of_ne hne _ _).trans (hcur' h' hne)
        · intro p' c' hx
          rcases update_eq hx with hx | ⟨_, hsv⟩
          · exact .inl hx
          · cases hsv
            exact .inr hown'
        · exact fun _ _ => .inl
  | dispatch =>
    simp only [Rung.eff, Option.ite_none_right_eq_some, Option.some.injEq] at he
    obtain ⟨hh, rfl⟩ := he
    have hown' := hown
    rw [hpt hh] at hown'
    simp only [exec, Mach.dispatch] at hs
    split at hs
    · rename_i c hp
      cases hs
      apply ho.hart (h := h) (r := .holding [.pt])
      · refine ⟨?_, ?_, fun hx => absurd rfl hx, Rung.holding_climbs _⟩
        · exact hr.held.trans hh.2
        · simp only [setCur_cur, Function.update_self]
          exact ho.seats p c hp
      · intro h' hne
        refine ⟨rfl, ?_, rfl⟩
        exact (Function.update_of_ne hne _ _).trans (hcur' h' hne)
      · intro p' c' hx
        rcases update_eq hx with hx | ⟨_, hsv⟩
        · exact .inl hx
        · cases hsv
      · intro h' c' hx
        rcases update_eq hx with hx | ⟨_, hsv⟩
        · exact .inl hx
        · cases hsv
          exact .inr hown'
    · cases hs
  | spawn =>
    simp only [Rung.eff, Option.ite_none_right_eq_some, Option.some.injEq] at he
    obtain ⟨hh, rfl⟩ := he
    simp only [exec] at hs
    split at hs
    · cases hs
      apply ho.hart (h := h)
      · exact ⟨hr.held, hown, fun hx => absurd hh.1 hx, hclimb⟩
      · exact fun h' hne => ⟨rfl, hcur' h' hne, rfl⟩
      · intro p' c' hx
        rcases update_eq hx with hx | ⟨_, hsv⟩
        · exact .inl hx
        · cases hsv
          exact .inr (child_orderly _ h)
      · exact fun _ _ => .inl
    · cases hs
  | reap =>
    simp only [Rung.eff, Option.ite_none_right_eq_some, Option.some.injEq] at he
    obtain ⟨hh, rfl⟩ := he
    simp only [exec] at hs
    split at hs
    · cases hs
      apply ho.hart (h := h)
      · exact ⟨hr.held, hown, fun hx => absurd hh.1 hx, hclimb⟩
      · exact fun h' hne => ⟨rfl, hcur' h' hne, rfl⟩
      · intro p' c' hx
        rcases update_eq hx with hx | ⟨_, hsv⟩
        · exact .inl hx
        · cases hsv
      · exact fun _ _ => .inl
    · cases hs
  | user =>
    cases hs
    simp only [Rung.eff, Option.ite_none_right_eq_some, Option.some.injEq] at he
    obtain ⟨hh, rfl⟩ := he
    apply ho.hart (h := h)
    · exact ⟨hr.held, hown, fun hx => absurd hh.1 hx, hclimb⟩
    · exact fun h' hne => ⟨rfl, hcur' h' hne, rfl⟩
    · exact fun _ _ => .inl
    · exact fun _ _ => .inl
  | sret =>
    cases hs
    simp only [Rung.eff, Option.ite_none_right_eq_some, Option.some.injEq] at he
    obtain ⟨hh, rfl⟩ := he
    apply ho.hart (h := h) (r := .holding [])
    · refine ⟨?_, ?_, fun hx => absurd rfl hx, Rung.holding_climbs _⟩
      · exact hr.held.trans hh.2
      · exact .of_user (by simp [setSie])
    · intro h' hne
      refine ⟨rfl, ?_, Function.update_of_ne hne _ _⟩
      exact (Function.update_of_ne hne _ _).trans (hcur' h' hne)
    · exact fun _ _ => .inl
    · exact fun _ _ => .inl

/-- A trap in user mode, or in code whose locks the handler keeps. -/
theorem Ordered.kernelvec (ho : m.Ordered) (hc : Rung.Runs (kerneltrap (m.cpuProc h).isSome c)
      (.holding (m.held h)) (m.held h))
    (ht : Orderly (.holding (m.held h)) (m.cur h)) : (m.kernelvec h c).Ordered := by
  have hcode : ((m.kernelvec h c).cur h).code =
      some (kerneltrap (m.cpuProc h).isSome c) := by
    simp [Mach.kernelvec, setSie, setTp]
  apply ho.hart (h := h) (r := .holding (m.held h))
  · refine ⟨rfl, ?_, fun hx => absurd rfl hx, Rung.holding_climbs _⟩
    apply Orderly.of_code hcode hc
    simp only [Mach.kernelvec, setCur_cur, Function.update_self, setTp, setSie]
    cases hq : (m.cur h).code with
    | none =>
      rw [Orderly, hq] at ht
      have hh : m.held h = [] := congrArg Rung.held ht
      rw [hh]
      exact .user rfl
    | some q =>
      obtain ⟨e, hrun, hst⟩ := ht.code hq
      exact .code rfl hrun hst
  · intro h' hne
    refine ⟨rfl, Function.update_of_ne hne _ _, ?_⟩
    exact Function.update_of_ne hne _ _
  · exact fun _ _ => .inl
  · exact fun _ _ => .inl

theorem Ordered.trap (ho : m.Ordered) (hi : m.Inv)
    (hc : (m.cur h).code = none ∨ c.interrupt ∧ m.sie h) : (m.kernelvec h c).Ordered := by
  obtain ⟨r, hr⟩ := ho.harts h
  have hat : r = .holding [] := by
    rcases hc with hc | ⟨_, hs⟩
    · have ho := hr.orderly
      rw [Orderly, hc] at ho
      exact ho
    · have hh := hr.held.symm.trans (hi.sie_held hs)
      have hhalf : r.half = .none := by
        by_contra hne
        rw [hr.off hne] at hs
        cases hs
      cases r
      simp_all [Rung.holding]
  have hh : m.held h = [] := hr.held.trans (congrArg Rung.held hat)
  apply ho.kernelvec
  · rw [hh]
    exact Rung.kerneltrap_runs _ c
  · rw [hh, ← hat]
    exact hr.orderly

/-- A page fault at an access to user memory, with `pt_lock` or without. -/
theorem Ordered.fault (ho : m.Ordered) (hn : m.nextOp h i = some (.user, q)) :
    (m.kernelvec h .fault).Ordered := by
  obtain ⟨q₀, hc, hmem⟩ := nextOp_mem hn
  obtain ⟨r, hr⟩ := ho.harts h
  obtain ⟨e, hrun, hst⟩ := hr.orderly.code hc
  obtain ⟨r', he, _⟩ := hrun.next hmem
  simp only [Rung.eff, Option.ite_none_right_eq_some] at he
  obtain ⟨⟨hhalf, hheld⟩, _⟩ := he
  have hat : r = .holding (m.held h) := by
    rw [hr.held]
    cases r
    simp_all [Rung.holding]
  apply ho.kernelvec
  · rw [hr.held]
    rcases hheld with hh | hh
    · rw [hh]
      exact Rung.kerneltrap_runs _ .fault
    · rw [hh]
      exact Rung.fault_runs _
  · rw [← hat]
    exact hr.orderly

theorem Ordered.trapret (ho : m.Ordered) (hs : m.trapret h = some m') : m'.Ordered := by
  simp only [Mach.trapret] at hs
  split at hs
  · rename_i p f fs hc hf
    split at hs
    · rename_i hends
      cases hs
      obtain ⟨r, hr⟩ := ho.harts h
      obtain ⟨e, hrun, hst⟩ := hr.orderly.code hc
      obtain rfl := hrun.ends hends
      rw [hf] at hst
      apply ho.hart (h := h) (r := .holding e)
      · refine ⟨hr.held, ?_, fun hx => absurd rfl hx, Rung.holding_climbs _⟩
        simp only [setTp, setSie, setCur_cur, Function.update_self]
        cases hst with
        | user hfc => exact .of_user hfc
        | code hfc hq hst => exact .of_code hfc hq hst
      · intro h' hne
        exact ⟨rfl, Function.update_of_ne hne _ _, Function.update_of_ne hne _ _⟩
      · exact fun _ _ => .inl
      · exact fun _ _ => .inl
    · cases hs
  · cases hs

omit [DecidableEq H] in
/-- User code starts on a hart without a lock. -/
theorem Ordered.toUser (ho : m.Ordered) (hh : m.held h = []) (hm : m'.held = m.held)
    (hc : (m'.cur h).code = none)
    (hk : ∀ h', h' ≠ h → m'.cur h' = m.cur h' ∧ m'.sie h' = m.sie h')
    (hp : m'.seat = m.seat) (hs : m'.cpuSched = m.cpuSched) : m'.Ordered := by
  apply ho.hart (h := h) (r := .holding [])
  · exact ⟨(congrFun hm h).trans hh, .of_user hc, fun hx => absurd rfl hx, Rung.holding_climbs _⟩
  · exact fun h' hne => ⟨congrFun hm h', hk h' hne⟩
  · intro p c hx
    rw [hp] at hx
    exact .inl hx
  · intro h' c hx
    rw [hs] at hx
    exact .inl hx

theorem Ordered.step (ho : m.Ordered) (hi : m.Inv) (hs : m.step h a = some m') : m'.Ordered := by
  cases a with
  | op i p =>
    simp only [Mach.step] at hs
    split at hs
    · rename_i o q hn
      exact ho.op hi hn hs
    · cases hs
  | trap c =>
    simp only [Mach.step] at hs
    split at hs
    · rename_i hc
      cases hs
      exact ho.trap hi hc
    · cases hs
  | fault i =>
    simp only [Mach.step] at hs
    split at hs
    · rename_i q hn
      cases hs
      exact ho.fault hn
    · cases hs
  | trapret => exact ho.trapret hs
  | lost b t =>
    simp only [Mach.step] at hs
    split at hs
    · rename_i m₁ hm₁
      split at hs
      · rename_i hsie
        cases hs
        simp only [Mach.trapret] at hm₁
        split at hm₁
        · split at hm₁
          · cases hm₁
            apply ho.toUser (h := h) (hi.sie_held hsie)
            · rfl
            · simp [setTp, setSie]
            · intro h' hne
              simp [setTp, setSie, setCur, Function.update_of_ne hne]
            · rfl
            · rfl
          · cases hm₁
        · cases hm₁
      · cases hs
    · cases hs
  | drift b t =>
    simp only [Mach.step] at hs
    split at hs
    · rename_i hc
      cases hs
      obtain ⟨r, hr⟩ := ho.harts h
      have hru := hr.orderly
      rw [Orderly, hc] at hru
      apply ho.toUser (h := h) (hr.held.trans (congrArg Rung.held hru))
      · rfl
      · exact hc
      · exact fun h' hne => ⟨rfl, Function.update_of_ne hne _ _⟩
      · rfl
      · rfl
    · cases hs

omit [DecidableEq H] in
theorem boot_ordered (sie : H → Bool) : (boot sie).Ordered where
  harts := by
    intro h
    refine ⟨.holding [], rfl, ?_, fun hx => absurd rfl hx, Rung.holding_climbs _⟩
    exact .of_code rfl (Rung.scheduler_runs []) .nil
  seats := by
    intro p c hp
    rcases update_eq (f := fun _ => Seat.free) hp with hp | ⟨_, hp⟩
    · cases hp
    · cases hp
      exact .of_code rfl (Rung.enterUser_runs []) .nil
  scheds := nofun

theorem Ordered.run (ho : m.Ordered) (hi : m.Inv) (hr : m.run as = some m') : m'.Ordered := by
  induction as generalizing m with
  | nil =>
    cases hr
    exact ho
  | cons a as ih =>
    simp only [Mach.run] at hr
    split at hr
    · rename_i m₁ hs
      exact ih (ho.step hi hs) (hi.step hs) hr
    · cases hr

/-- The hart is at the exchange of `acquire(l)`, and the lock is taken. -/
def Spins (m : Mach H) (h : H) (l : Lock) : Prop :=
  m.locked l = true ∧ ∃ i q, m.nextOp h i = some (.spin l, q)

/-- Hart `h` waits for a lock that hart `h'` holds. -/
def WaitsFor (m : Mach H) (h h' : H) : Prop := ∃ l, m.Spins h l ∧ l ∈ m.held h'

omit [DecidableEq H] in
/-- Who waits for `pt_lock` holds nothing, who waits for another lock at most `pt_lock`. -/
theorem Ordered.waits (ho : m.Ordered) (hw : m.Spins h l) :
    m.held h = [] ∨ m.held h = [.pt] ∧ l ≠ .pt := by
  obtain ⟨_, i, q, hn⟩ := hw
  obtain ⟨q₀, hc, hmem⟩ := nextOp_mem hn
  obtain ⟨r, hr⟩ := ho.harts h
  obtain ⟨e, hrun, _⟩ := hr.orderly.code hc
  obtain ⟨r', he, _⟩ := hrun.next hmem
  simp only [Rung.eff, Option.ite_none_right_eq_some] at he
  rw [hr.held]
  exact hr.order l he.1

omit [DecidableEq H] in
/-- A hart that holds a lock which a hart with `pt_lock` waits for does not wait. -/
theorem Ordered.waitsFor_last (ho : m.Ordered) (h₁ : m.WaitsFor h h') (h₂ : m.WaitsFor h' h'') :
    ∀ l, ¬ m.Spins h'' l := by
  intro l₃ hw₃
  obtain ⟨l₁, hw₁, hl₁⟩ := h₁
  obtain ⟨l₂, hw₂, hl₂⟩ := h₂
  -- the hart in the middle holds a lock, so that lock is `pt_lock` and it waits for another one
  have hne : l₂ ≠ .pt := by
    rcases ho.waits hw₂ with hh | ⟨_, hne⟩
    · rw [hh] at hl₁
      cases hl₁
    · exact hne
  rcases ho.waits hw₃ with hh | ⟨hh, _⟩
  · rw [hh] at hl₂
    cases hl₂
  · rw [hh] at hl₂
    exact hne (List.mem_singleton.1 hl₂)

/-- No run deadlocks: a lock that a hart waits for is held by another hart, no hart waits for
itself through others, and at the end of every chain of waiting harts, after two at most, is a
hart that waits for no lock. -/
theorem no_deadlock (sie : H → Bool) (as : List (H × Act H)) (hr : (boot sie).run as = some m) :
    (∀ h l, m.Spins h l → ∃ h', h' ≠ h ∧ m.WaitsFor h h') ∧
      (∀ h, ¬ Relation.TransGen m.WaitsFor h h) ∧
      ∀ h l, m.Spins h l → ∃ h', (m.WaitsFor h h' ∨ ∃ h₁, m.WaitsFor h h₁ ∧ m.WaitsFor h₁ h') ∧
        ∀ l', ¬ m.Spins h' l' := by
  have hi := (Inv.boot sie).run hr
  have ho := (boot_ordered sie).run (Inv.boot sie) hr
  have hheld : ∀ h l, m.Spins h l → ∃ h', m.WaitsFor h h' := by
    intro h l hw
    obtain ⟨h', hl⟩ := (hi.locked l).1 hw.1
    exact ⟨h', l, hw, hl⟩
  have hself : ∀ h, ¬ m.WaitsFor h h := by
    intro h hw
    obtain ⟨l, hl, _⟩ := id hw
    exact ho.waitsFor_last hw hw l hl
  refine ⟨?_, ?_, ?_⟩
  · intro h l hw
    obtain ⟨h', hh'⟩ := hheld h l hw
    refine ⟨h', ?_, hh'⟩
    intro he
    exact hself h (he ▸ hh')
  · intro h hc
    obtain ⟨h₁, hfirst, hrest⟩ := Relation.TransGen.head'_iff.1 hc
    cases Relation.ReflTransGen.cases_head hrest with
    | inl he => exact hself h (he ▸ hfirst)
    | inr hmore =>
      obtain ⟨h₂, hsecond, hback⟩ := hmore
      have hlast := ho.waitsFor_last hfirst hsecond
      cases Relation.ReflTransGen.cases_head hback with
      | inl he =>
        obtain ⟨l, hl, _⟩ := hfirst
        exact hlast l (he ▸ hl)
      | inr hmore =>
        obtain ⟨_, ⟨l, hl, _⟩, _⟩ := hmore
        exact hlast l hl
  · intro h l hw
    obtain ⟨h₁, h₁w⟩ := hheld h l hw
    by_cases hlast : ∀ l', ¬ m.Spins h₁ l'
    · exact ⟨h₁, .inl h₁w, hlast⟩
    · simp only [not_forall, not_not] at hlast
      obtain ⟨l', hl'⟩ := hlast
      obtain ⟨h₂, h₂w⟩ := hheld h₁ l' hl'
      exact ⟨h₂, .inr ⟨h₁, h₁w, h₂w⟩, ho.waitsFor_last h₁w h₂w⟩

/-- Both harts enter the scheduler, and the first takes `pt_lock`. -/
def contention : List (Bool × Act Bool) :=
  List.replicate 3 (false, .op 0 .shell) ++ List.replicate 2 (true, .op 0 .shell)

theorem no_deadlock_contention : ∃ m, (boot fun _ : Bool => false).run contention = some m ∧
    m.Spins true .pt ∧ m.WaitsFor true false ∧ ¬ Relation.TransGen m.WaitsFor true true := by
  have hr : ((boot fun _ : Bool => false).run contention).any (fun m => m.locked .pt &&
      decide (.pt ∈ m.held false) &&
      (m.nextOp true 0).any fun x => decide (x.1 = .spin .pt)) = true := by decide +kernel
  obtain ⟨m, hm, hp⟩ := (Option.any_eq_true _ _).1 hr
  simp only [Bool.and_eq_true, decide_eq_true_eq] at hp
  obtain ⟨⟨hl, hh⟩, hn⟩ := hp
  obtain ⟨⟨o, q⟩, hq, ho⟩ := (Option.any_eq_true _ _).1 hn
  obtain rfl : o = .spin .pt := of_decide_eq_true ho
  have hw : m.Spins true .pt := ⟨hl, 0, q, hq⟩
  exact ⟨m, hm, hw, ⟨.pt, hw, hh⟩, (no_deadlock _ contention hm).2.1 true⟩

end Mach

end KernelHobby
