import KernelHobby.Prog

namespace KernelHobby
set_option autoImplicit true

namespace Prog
variable {α σ : Type} [DecidableEq σ] {p q : Prog α} {s t : σ} {ss ts : List σ}
  {eff : σ → α → Option σ} {f : σ → Option (List σ)} {Q : σ → Prop}

/-- The states that `f` leads to from any of `ss`. -/
def flowAll (f : σ → Option (List σ)) : List σ → Option (List σ)
  | [] => some []
  | s :: ss =>
    match f s, flowAll f ss with
    | some ts, some us => some (ts ∪ us)
    | _, _ => none

/-- The states in which the code can end that starts in `s`, if every round of a loop comes back
to the state it starts from and no operation is refused. -/
def flow (eff : σ → α → Option σ) : Prog α → σ → Option (List σ)
  | done, s => some [s]
  | halt, _ => some []
  | op a, s => (eff s a).map fun t => [t]
  | seq p q, s => (flow eff p s).bind (flowAll (flow eff q))
  | alt p q, s =>
    match flow eff p s, flow eff q s with
    | some ss, some ts => some (ss ∪ ts)
    | _, _ => none
  | loop p, s =>
    match flow eff p s with
    | some ss => if ss ⊆ [s] then some [s] else none
    | none => none

theorem flowAll_mem (h : flowAll f ss = some ts) (hs : s ∈ ss) :
    ∃ us, f s = some us ∧ us ⊆ ts := by
  induction ss generalizing ts with
  | nil => cases hs
  | cons r ss ih =>
    simp only [flowAll] at h
    split at h
    · rename_i us vs hu hv
      cases h
      rcases List.mem_cons.1 hs with rfl | hs
      · exact ⟨us, hu, fun x hx => List.mem_union_iff.2 (.inl hx)⟩
      · obtain ⟨ws, hw, hsub⟩ := ih hv hs
        exact ⟨ws, hw, fun x hx => List.mem_union_iff.2 (.inr (hsub hx))⟩
    · cases h

/-- What the flow finds is what the code does. -/
theorem flow_wp (h : flow eff p s = some ss) : p.Wp eff (fun _ => True) (fun t => t ∈ ss) s := by
  induction p generalizing s ss with
  | done =>
    cases h
    exact List.mem_singleton_self s
  | halt => trivial
  | op a =>
    obtain ⟨t, ht, he⟩ := Option.map_eq_some_iff.1 h
    subst he
    exact ⟨t, ht, List.mem_singleton_self t⟩
  | seq p q ihp ihq =>
    obtain ⟨ts, hp, hq⟩ := Option.bind_eq_some_iff.1 h
    apply (ihp hp).mono
    intro t ht
    obtain ⟨us, hu, hsub⟩ := flowAll_mem hq ht
    exact (ihq hu).mono fun x hx => hsub hx
  | alt p q ihp ihq =>
    simp only [flow] at h
    split at h
    · rename_i us vs hp hq
      cases h
      constructor
      · exact (ihp hp).mono fun x hx => List.mem_union_iff.2 (.inl hx)
      · exact (ihq hq).mono fun x hx => List.mem_union_iff.2 (.inr hx)
    · cases h
  | loop p ih =>
    simp only [flow] at h
    split at h
    · rename_i us hp
      split at h
      · rename_i hsub
        cases h
        apply Wp.loop_same
        · exact (ih hp).mono fun x hx => List.mem_singleton.1 (hsub hx)
        · exact List.mem_singleton_self s
      · cases h
    · cases h

/-- Code that ends only as it began. -/
theorem flow_same (h : flow eff p s = some [t]) :
    p.Wp eff (fun _ => True) (fun x => x = t) s :=
  (flow_wp h).mono fun _ hx => List.mem_singleton.1 hx

/-- Code that never ends. -/
theorem flow_never (h : flow eff p s = some []) : p.Wp eff (fun _ => True) Q s :=
  (flow_wp h).mono fun _ hx => absurd hx List.not_mem_nil

end Prog

end KernelHobby
