import Mathlib.Tactic

namespace KernelHobby
set_option autoImplicit true

/-- Code, by the operations it may do: `halt` never goes on, `alt` is a branch whose condition
is left open, `loop` any number of rounds. -/
inductive Prog (α : Type) where
  | done
  | halt
  | op (a : α)
  | seq (p q : Prog α)
  | alt (p q : Prog α)
  | loop (p : Prog α)
  deriving DecidableEq

namespace Prog
variable {α σ : Type} {p p' q : Prog α} {s s' : σ} {Q R S : σ → Prop} {eff : σ → α → Option σ}

/-- The code can end here. -/
def ends : Prog α → Bool
  | done => true
  | halt => false
  | op _ => false
  | seq p q => p.ends && q.ends
  | alt p q => p.ends || q.ends
  | loop _ => true

/-- The operations that the code can do next, each with the code after it. -/
def next : Prog α → List (α × Prog α)
  | done => []
  | halt => []
  | op a => [(a, done)]
  | seq p q => p.next.map (fun x => (x.1, seq x.2 q)) ++ if p.ends then q.next else []
  | alt p q => p.next ++ q.next
  | loop p => p.next.map fun x => (x.1, seq x.2 (loop p))

/-- From `s` no operation of the code is refused, where the code stops for good `S` holds, and
where it ends `Q` holds. -/
def Wp (eff : σ → α → Option σ) (S : σ → Prop) : Prog α → (σ → Prop) → σ → Prop
  | done, Q, s => Q s
  | halt, _, s => S s
  | op a, Q, s => ∃ s', eff s a = some s' ∧ Q s'
  | seq p q, Q, s => p.Wp eff S (q.Wp eff S Q) s
  | alt p q, Q, s => p.Wp eff S Q s ∧ q.Wp eff S Q s
  | loop p, Q, s => ∃ I : σ → Prop, I s ∧ ∀ t, I t → p.Wp eff S I t ∧ Q t

theorem Wp.mono (h : p.Wp eff S Q s) (hq : ∀ t, Q t → R t) : p.Wp eff S R s := by
  induction p generalizing Q R s with
  | done => exact hq s h
  | halt => exact h
  | op a =>
    obtain ⟨s', he, hs⟩ := h
    exact ⟨s', he, hq s' hs⟩
  | seq p q ihp ihq => exact ihp h fun t ht => ihq ht hq
  | alt p q ihp ihq => exact ⟨ihp h.1 hq, ihq h.2 hq⟩
  | loop p ih =>
    obtain ⟨I, hs, hi⟩ := h
    exact ⟨I, hs, fun t ht => ⟨(hi t ht).1, hq t (hi t ht).2⟩⟩

/-- A loop whose round leads back to the same state. -/
theorem Wp.loop_same (h : p.Wp eff S (fun t => t = s) s) (hq : Q s) : (loop p).Wp eff S Q s := by
  refine ⟨fun t => t = s, rfl, ?_⟩
  rintro t rfl
  exact ⟨h, hq⟩

theorem Wp.ends (h : p.Wp eff S Q s) (he : p.ends = true) : Q s := by
  induction p generalizing Q s with
  | done => exact h
  | halt => cases he
  | op a => cases he
  | seq p q ihp ihq =>
    obtain ⟨hp, hq⟩ := Bool.and_eq_true_iff.1 he
    exact ihq (ihp h hp) hq
  | alt p q ihp ihq =>
    rcases Bool.or_eq_true_iff.1 he with hp | hq
    · exact ihp h.1 hp
    · exact ihq h.2 hq
  | loop p ih =>
    obtain ⟨I, hs, hi⟩ := h
    exact (hi s hs).2

/-- What the code does next is allowed, and the code after it is as good. -/
theorem Wp.next (h : p.Wp eff S Q s) (hn : (a, p') ∈ p.next) :
    ∃ s', eff s a = some s' ∧ p'.Wp eff S Q s' := by
  induction p generalizing Q s p' with
  | done => cases hn
  | halt => cases hn
  | op b =>
    obtain ⟨s', he, hs⟩ := h
    simp only [Prog.next, List.mem_singleton, Prod.mk.injEq] at hn
    obtain ⟨rfl, rfl⟩ := hn
    exact ⟨s', he, hs⟩
  | seq p q ihp ihq =>
    have hpq : p.Wp eff S (q.Wp eff S Q) s := h
    rw [Prog.next, List.mem_append] at hn
    rcases hn with hn | hn
    · obtain ⟨⟨b, r⟩, hb, hx⟩ := List.mem_map.1 hn
      simp only [Prod.mk.injEq] at hx
      obtain ⟨rfl, rfl⟩ := hx
      obtain ⟨s', he, hr⟩ := ihp hpq hb
      exact ⟨s', he, hr⟩
    · split at hn
      · rename_i he
        exact ihq (hpq.ends he) hn
      · cases hn
  | alt p q ihp ihq =>
    rcases List.mem_append.1 hn with hn | hn
    · exact ihp h.1 hn
    · exact ihq h.2 hn
  | loop p ih =>
    obtain ⟨I, hs, hi⟩ := h
    obtain ⟨⟨b, r⟩, hb, hx⟩ := List.mem_map.1 hn
    simp only [Prod.mk.injEq] at hx
    obtain ⟨rfl, rfl⟩ := hx
    obtain ⟨s', he, hr⟩ := ih (hi s hs).1 hb
    exact ⟨s', he, hr.mono fun t ht => ⟨I, ht, hi⟩⟩

/-- Code that can neither end nor go on has stopped. -/
theorem Wp.stuck (h : p.Wp eff S Q s) (he : p.ends = false) (hn : p.next = []) : S s := by
  induction p generalizing Q s with
  | done => cases he
  | halt => exact h
  | op a => cases hn
  | seq p q ihp ihq =>
    have hpq : p.Wp eff S (q.Wp eff S Q) s := h
    obtain ⟨hp, hq⟩ := List.append_eq_nil_iff.1 hn
    cases hpe : p.ends with
    | false => exact ihp hpq hpe (List.map_eq_nil_iff.1 hp)
    | true =>
      rw [hpe] at hq
      refine ihq (hpq.ends hpe) ?_ hq
      simpa [Prog.ends, hpe] using he
  | alt p q ihp ihq =>
    obtain ⟨hp, _⟩ := List.append_eq_nil_iff.1 hn
    exact ihp h.1 (Bool.or_eq_false_iff.1 he).1 hp
  | loop p ih => cases he

end Prog

end KernelHobby
