import KernelHobby.Mach
import KernelHobby.HartWp

namespace KernelHobby
set_option autoImplicit true

/-- Where code may end: nowhere, without a lock, or as the code it interrupted left things. -/
inductive Post where
  | never
  | free
  | same (τ : Abs)

def Post.Holds : Post → Abs → Prop
  | .never, _ => False
  | .free, σ => σ.Free
  | .same τ, σ => σ = τ.enter

variable {H : Type}

/-- The trap frames under the code of a hart: what was interrupted is as good as the code on top,
at the place where it was interrupted. Only `fixed` handlers, which keep the hart, may stand over
code that relies on it. -/
inductive Below (h : H) (idle : Prop) : Kind → Post → List (Frame H) → Prop where
  | sched : Below h idle .sched .never []
  | enter : Below h idle .entry .never []
  | forkret : f.code = none → f.trap = false → Below h idle .entry .free [f]
  | user : f.code = none → f.trap = true → Below h idle .proc .free [f]
  | nested : f.code = some q → f.trap = true → k = .proc ∨ k = .entry →
      q.Wp (Abs.eff k) Abs.Still post.Holds τ → Below h idle k post fs → τ.Ok → τ.ie = true →
      Below h idle .proc .free (f :: fs)
  | fixed : f.code = some q → f.trap = true → q.Wp (Abs.eff k) Abs.Still post.Holds τ →
      Below h idle k post fs → τ.Ok → τ.mid = false →
      (τ.ie = false → f.sie = false ∧ f.tp = h) → (k = .sched → idle ∧ f.tp = h) →
      (k = .fixed → τ.ie = false) → Below h idle .fixed (.same τ) (f :: fs)

/-- A thread of a process does not rely on the hart it runs on. -/
theorem Below.migrate (hb : Below h idle k post fs) (hk : k = .proc ∨ k = .entry) (h' : H)
    (idle' : Prop) : Below h' idle' k post fs := by
  induction hb with
  | sched => rcases hk with hk | hk <;> cases hk
  | enter => exact .enter
  | forkret hf ht => exact .forkret hf ht
  | user hf ht => exact .user hf ht
  | nested hf ht hk' hw _ ho hi ih => exact .nested hf ht hk' hw (ih hk') ho hi
  | fixed => rcases hk with hk | hk <;> cases hk

theorem Below.proc_frame (hb : Below h idle .proc post fs) : ∃ f fs', fs = f :: fs' := by
  cases hb with
  | user => exact ⟨_, _, rfl⟩
  | nested => exact ⟨_, _, rfl⟩

theorem Below.sched_frame (hb : Below h idle .sched post fs) : fs = [] ∧ post = .never := by
  cases hb
  exact ⟨rfl, rfl⟩

/-- The code and the frames of a hart are at `σ`. -/
def Thread (h : H) (idle : Prop) (k : Kind) (σ : Abs) (c : Ctx H) : Prop :=
  match c.code with
  | none => c.frames = [] ∧ σ.Free ∧ k = .proc
  | some p => ∃ post, p.Wp (Abs.eff k) Abs.Still post.Holds σ ∧ Below h idle k post c.frames

/-- A process that waits for a hart goes on with `pt_lock` in hand. -/
def Saved (c : Ctx H) : Prop :=
  ∃ p post k, c.code = some p ∧ (k = .proc ∨ k = .entry) ∧
    p.Wp (Abs.eff k) Abs.Still post.Holds Abs.resume ∧ ∀ h idle, Below h idle k post c.frames

def SavedSched (c : Ctx H) : Prop :=
  ∃ p, c.code = some p ∧ c.frames = [] ∧ p.Wp (Abs.eff .sched) Abs.Still Post.never.Holds Abs.resume

theorem Thread.congr (ht : Thread h idle k σ c) (hc : c'.code = c.code)
    (hf : c'.frames = c.frames) : Thread h idle k σ c' := by
  rw [Thread, hc, hf]
  exact ht

theorem Thread.code (ht : Thread h idle k σ c) (hc : c.code = some q) :
    ∃ post, q.Wp (Abs.eff k) Abs.Still post.Holds σ ∧ Below h idle k post c.frames := by
  rw [Thread, hc] at ht
  exact ht

namespace Mach
variable {m m' m'' : Mach H} {h h' : H} {k : Kind} {σ σ' : Abs}

/-- What `σ` says of the hart is so. -/
structure Agree (m : Mach H) (h : H) (k : Kind) (σ : Abs) : Prop where
  held : m.held h = σ.held
  noff : m.noff h = σ.held.length + if σ.mid then 1 else 0
  off : σ.ie = false → m.sie h = false ∧ m.tp h = h
  intena : σ.held ≠ [] ∨ σ.mid = true → σ.ia = false → m.intena h = false
  ok : σ.Ok
  sched : k = .sched → m.tp h = h ∧ m.cpuProc h = none
  fixed : k = .fixed → σ.ie = false

def HartOk (m : Mach H) (h : H) : Prop :=
  ∃ k σ, Thread h (m.cpuProc h = none) k σ (m.cur h) ∧ m.Agree h k σ

/-- What all harts share: the saved contexts, and each lock that is taken has one holder. -/
structure Shared (m : Mach H) : Prop where
  seats : ∀ p c, m.seat p = .saved c → Saved c
  scheds : ∀ h c, m.cpuSched h = some c → SavedSched c
  locked : ∀ l, m.locked l = true ↔ ∃ h, l ∈ m.held h
  unique : ∀ l h h', l ∈ m.held h → l ∈ m.held h' → h = h'

structure Inv (m : Mach H) : Prop extends m.Shared where
  harts : ∀ h, m.HartOk h

/-- The invariant but for the hart that is in the middle of a step. -/
structure Rest (m : Mach H) (h : H) : Prop extends m.Shared where
  others : ∀ h', h' ≠ h → m.HartOk h'

theorem Inv.rest (hi : m.Inv) (h : H) : m.Rest h := ⟨hi.toShared, fun h' _ => hi.harts h'⟩

theorem Rest.inv (hi : m.Rest h) (hk : m.HartOk h) : m.Inv := by
  refine ⟨hi.toShared, fun h' => ?_⟩
  by_cases hne : h' = h
  · rw [hne]
    exact hk
  · exact hi.others h' hne

/-- The other harts are as they were. -/
structure Elsewhere (m m' : Mach H) (h : H) : Prop where
  noff : ∀ h', h' ≠ h → m'.noff h' = m.noff h'
  intena : ∀ h', h' ≠ h → m'.intena h' = m.intena h'
  sie : ∀ h', h' ≠ h → m'.sie h' = m.sie h'
  tp : ∀ h', h' ≠ h → m'.tp h' = m.tp h'
  cpuProc : ∀ h', h' ≠ h → m'.cpuProc h' = m.cpuProc h'
  cur : ∀ h', h' ≠ h → m'.cur h' = m.cur h'
  held : ∀ h', h' ≠ h → m'.held h' = m.held h'

theorem Elsewhere.trans (h₁ : Elsewhere m m' h) (h₂ : Elsewhere m' m'' h) : Elsewhere m m'' h where
  noff h' hne := (h₂.noff h' hne).trans (h₁.noff h' hne)
  intena h' hne := (h₂.intena h' hne).trans (h₁.intena h' hne)
  sie h' hne := (h₂.sie h' hne).trans (h₁.sie h' hne)
  tp h' hne := (h₂.tp h' hne).trans (h₁.tp h' hne)
  cpuProc h' hne := (h₂.cpuProc h' hne).trans (h₁.cpuProc h' hne)
  cur h' hne := (h₂.cur h' hne).trans (h₁.cur h' hne)
  held h' hne := (h₂.held h' hne).trans (h₁.held h' hne)

theorem HartOk.elsewhere (hk : m.HartOk h') (he : Elsewhere m m' h) (hne : h' ≠ h) :
    m'.HartOk h' := by
  obtain ⟨k, σ, ht, ha⟩ := hk
  refine ⟨k, σ, ?_, ?_⟩
  · rw [he.cur h' hne, he.cpuProc h' hne]
    exact ht
  · refine ⟨?_, ?_, ?_, ?_, ha.ok, ?_, ha.fixed⟩
    · rw [he.held h' hne]
      exact ha.held
    · rw [he.noff h' hne]
      exact ha.noff
    · rw [he.sie h' hne, he.tp h' hne]
      exact ha.off
    · rw [he.intena h' hne]
      exact ha.intena
    · rw [he.tp h' hne, he.cpuProc h' hne]
      exact ha.sched

/-- A step of hart `h` that takes and gives back no lock. -/
theorem Rest.hart (hi : m.Rest h) (he : Elsewhere m m' h) (hk : m'.HartOk h)
    (hs : ∀ p c, m'.seat p = .saved c → m.seat p = .saved c ∨ Saved c)
    (hc : ∀ h c, m'.cpuSched h = some c → m.cpuSched h = some c ∨ SavedSched c)
    (hl : m'.locked = m.locked) (hh : m'.held = m.held) : m'.Inv where
  harts h' := by
    by_cases hne : h' = h
    · rw [hne]
      exact hk
    · exact (hi.others h' hne).elsewhere he hne
  seats p c hp := by
    rcases hs p c hp with hp | hp
    · exact hi.seats p c hp
    · exact hp
  scheds h c hp := by
    rcases hc h c hp with hp | hp
    · exact hi.scheds h c hp
    · exact hp
  locked := by
    rw [hl, hh]
    exact hi.locked
  unique := by
    rw [hh]
    exact hi.unique

theorem Agree.noff_pos (ha : m.Agree h k σ) (hp : 0 < m.noff h) : σ.ie = false := by
  cases hie : σ.ie with
  | false => rfl
  | true =>
    obtain ⟨hh, hm⟩ := ha.ok.ie hie
    have hn := ha.noff
    simp only [hh, hm, List.length_nil] at hn
    rw [hn] at hp
    exact absurd hp (by decide)

theorem Agree.tp (ha : m.Agree h k σ) (hk : k = .sched ∨ σ.ie = false) : m.tp h = h := by
  rcases hk with hk | hk
  · exact (ha.sched hk).1
  · exact (ha.off hk).2

theorem Agree.free (ha : m.Agree h k σ) (hs : m.sie h = true) : σ.ie = true ∧ σ.Free := by
  cases hie : σ.ie with
  | false =>
    have := (ha.off hie).1
    rw [hs] at this
    cases this
  | true => exact ⟨rfl, ha.ok.ie hie⟩

/-- User code: nothing is known of SIE and `tp`, and no lock is held. -/
theorem HartOk.user (hc : (m.cur h).code = none) (hf : (m.cur h).frames = []) (hh : m.held h = [])
    (hn : m.noff h = 0) : m.HartOk h := by
  refine ⟨.proc, ⟨[], false, true, false⟩, ?_, ?_⟩
  · rw [Thread, hc]
    exact ⟨hf, ⟨rfl, rfl⟩, rfl⟩
  · exact ⟨hh, hn, nofun, fun hx => by simp at hx, ⟨List.nodup_nil, fun _ => ⟨rfl, rfl⟩⟩, nofun, nofun⟩

theorem Agree.released (ha : m.Agree h k σ) (hf : σ.Free) : m.held h = [] ∧ m.noff h = 0 := by
  refine ⟨ha.held.trans hf.1, ?_⟩
  rw [ha.noff, hf.1, hf.2]
  rfl

/-- A hart that goes on with `pt_lock` after `swtch` has changed the context. -/
theorem Agree.resumed (hh : m.held h = [.pt]) (hn : m.noff h = 1) (hs : m.sie h = false)
    (htp : m.tp h = h) (hk : k = .sched → m.cpuProc h = none) : m.Agree h k Abs.resume :=
  ⟨hh, hn, fun _ => ⟨hs, htp⟩, nofun, Abs.resume_ok, fun hx => ⟨htp, hk hx⟩, fun _ => rfl⟩

theorem Agree.baton (ha : m.Agree h k σ) (hh : σ.held = [.pt]) (hm : σ.mid = false) :
    m.noff h = 1 ∧ m.sie h = false ∧ m.tp h = h := by
  have hn : m.noff h = 1 := by
    rw [ha.noff, hh, hm]
    rfl
  have hie := ha.noff_pos (by rw [hn]; decide)
  exact ⟨hn, ha.off hie⟩

end Mach

end KernelHobby
