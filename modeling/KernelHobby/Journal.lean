import Mathlib.Tactic

namespace KernelHobby
set_option autoImplicit true

variable {β : Type} {d e : Nat → β} {ws : List (Nat × β)}

/-- A disk after a list of block writes, oldest first. -/
def applyWrites (d : Nat → β) : List (Nat × β) → Nat → β
  | [] => d
  | w :: ws => applyWrites (Function.update d w.1 w.2) ws

theorem applyWrites_append (d : Nat → β) (ws vs : List (Nat × β)) :
    applyWrites d (ws ++ vs) = applyWrites (applyWrites d ws) vs := by
  induction ws generalizing d with
  | nil => rfl
  | cons w ws ih => exact ih _

theorem applyWrites_other (h : ∀ w ∈ ws, w.1 ≠ b) : applyWrites d ws b = d b := by
  induction ws generalizing d with
  | nil => rfl
  | cons w ws ih =>
    have hw := h w List.mem_cons_self
    rw [applyWrites, ih fun v hv => h v (List.mem_cons_of_mem _ hv),
      Function.update_of_ne hw.symm]

/-- A block that is written does not remember what it held before. -/
theorem applyWrites_congr (h : (∃ w ∈ ws, w.1 = b) ∨ d b = e b) :
    applyWrites d ws b = applyWrites e ws b := by
  induction ws generalizing d e with
  | nil =>
    rcases h with ⟨w, hw, _⟩ | h
    · cases hw
    · exact h
  | cons w ws ih =>
    apply ih
    by_cases hw : w.1 = b
    · right
      simp only [← hw, Function.update_self]
    · rcases h with ⟨v, hv, hb⟩ | h
      · rcases List.mem_cons.1 hv with rfl | hv
        · exact absurd hb hw
        · exact .inl ⟨v, hv, hb⟩
      · right
        simp only [Function.update_of_ne (Ne.symm hw), h]

/-- Repeating the writes of a prefix changes nothing once all of them are made. -/
theorem applyWrites_take (d : Nat → β) (ws : List (Nat × β)) (k b : Nat) :
    applyWrites (applyWrites d (ws.take k)) ws b = applyWrites d ws b := by
  apply applyWrites_congr
  by_cases h : ∃ w ∈ ws, w.1 = b
  · exact .inl h
  · right
    apply applyWrites_other
    intro w hw he
    exact h ⟨w, List.mem_of_mem_take hw, he⟩

/-- A property of the old block and of every value written to it holds of the new block. -/
theorem applyWrites_prop {P : β → Prop} (hd : P (d b)) (hw : ∀ w ∈ ws, w.1 = b → P w.2) :
    P (applyWrites d ws b) := by
  induction ws generalizing d with
  | nil => exact hd
  | cons w ws ih =>
    apply ih ?_ fun v hv => hw v (List.mem_cons_of_mem _ hv)
    by_cases he : w.1 = b
    · subst he
      rw [Function.update_self]
      exact hw w List.mem_cons_self rfl
    · rwa [Function.update_of_ne (Ne.symm he)]

/-- Writes to distinct blocks all stay. -/
theorem applyWrites_mem {w : Nat × β} (h : w ∈ ws) (hn : (ws.map Prod.fst).Nodup) :
    applyWrites d ws w.1 = w.2 := by
  induction ws generalizing d with
  | nil => cases h
  | cons v ws ih =>
    rw [List.map_cons, List.nodup_cons] at hn
    rcases List.mem_cons.1 h with rfl | h
    · rw [applyWrites, applyWrites_other, Function.update_self]
      intro u hu he
      exact hn.1 (he ▸ List.mem_map_of_mem hu)
    · exact ih h hn.2

/-- A write-ahead log: a header block and `size` blocks from `start` on. The header either
names the destinations of a committed transaction, or nothing. -/
structure Journal (β : Type) where
  hdr : Nat
  start : Nat
  size : Nat
  commit : List Nat → β
  clear : β
  pending : β → Option (List Nat)
  hdr_outside : hdr < start ∨ start + size ≤ hdr
  pending_clear : pending clear = none
  pending_size : ∀ x bs, pending x = some bs → bs.length ≤ size

namespace Journal

/-- The blocks that belong to the log itself. -/
def Area (J : Journal β) (b : Nat) : Prop := b = J.hdr ∨ J.start ≤ b ∧ b < J.start + J.size

/-- The writes that copy a transaction into the log blocks from the `i`-th on. -/
def fill (J : Journal β) (i : Nat) : List (Nat × β) → List (Nat × β)
  | [] => []
  | w :: t => (J.start + i, w.2) :: J.fill (i + 1) t

/-- All block writes of a transaction, in order: fill, commit, install, clear. -/
def txn (J : Journal β) (t : List (Nat × β)) : List (Nat × β) :=
  J.fill 0 t ++ (J.hdr, J.commit (t.map Prod.fst)) :: (t ++ [(J.hdr, J.clear)])

/-- The writes that copy the log blocks from the `i`-th on to their destinations. -/
def redo (J : Journal β) (d : Nat → β) (i : Nat) : List Nat → List (Nat × β)
  | [] => []
  | b :: bs => (b, d (J.start + i)) :: J.redo d (i + 1) bs

/-- All block writes of recovery on a disk. -/
def recovery (J : Journal β) (d : Nat → β) : List (Nat × β) :=
  match J.pending (d J.hdr) with
  | none => []
  | some bs => J.redo d 0 bs ++ [(J.hdr, J.clear)]

/-- The transaction that recovery would install. -/
def owed (J : Journal β) (d : Nat → β) : List (Nat × β) :=
  match J.pending (d J.hdr) with
  | none => []
  | some bs => J.redo d 0 bs

/-- What a disk means: its blocks once the owed transaction is installed. -/
def logical (J : Journal β) (d : Nat → β) : Nat → β := applyWrites d (J.owed d)

/-- The owed transaction writes outside the log. -/
def Sound (J : Journal β) (d : Nat → β) : Prop := ∀ w ∈ J.owed d, ¬ J.Area w.1

theorem fill_length (J : Journal β) (i : Nat) (t : List (Nat × β)) :
    (J.fill i t).length = t.length := by
  induction t generalizing i with
  | nil => rfl
  | cons w t ih => simp only [fill, List.length_cons, ih]

theorem fill_mem (J : Journal β) (h : w ∈ J.fill i t) :
    J.start + i ≤ w.1 ∧ w.1 < J.start + i + t.length := by
  induction t generalizing i with
  | nil => cases h
  | cons v t ih =>
    simp only [List.length_cons]
    rcases List.mem_cons.1 h with rfl | h
    · dsimp only
      omega
    · have hh := ih h
      omega

theorem fill_area (J : Journal β) (hn : t.length ≤ J.size) (h : w ∈ J.fill 0 t) :
    J.Area w.1 := by
  have hh := J.fill_mem h
  right
  omega

theorem redo_congr (J : Journal β)
    (h : ∀ j, i ≤ j → j < i + bs.length → d (J.start + j) = e (J.start + j)) :
    J.redo d i bs = J.redo e i bs := by
  induction bs generalizing i with
  | nil => rfl
  | cons b bs ih =>
    simp only [List.length_cons] at h
    rw [redo, redo, h i (Nat.le_refl i) (by omega),
      ih fun j hj hj' => h j (by omega) (by omega)]

theorem redo_snoc (J : Journal β) (d : Nat → β) (i : Nat) (bs : List Nat) (b : Nat) :
    J.redo d i (bs ++ [b]) = J.redo d i bs ++ [(b, d (J.start + i + bs.length))] := by
  induction bs generalizing i with
  | nil => rfl
  | cons c bs ih =>
    simp only [List.cons_append, redo, ih, List.length_cons]
    have hend : J.start + (i + 1) + bs.length = J.start + i + (bs.length + 1) := by omega
    rw [hend]

theorem fill_snoc (J : Journal β) (i : Nat) (t : List (Nat × β)) (w : Nat × β) :
    J.fill i (t ++ [w]) = J.fill i t ++ [(J.start + i + t.length, w.2)] := by
  induction t generalizing i with
  | nil => rfl
  | cons v t ih =>
    simp only [List.cons_append, fill, ih, List.length_cons]
    have hend : J.start + (i + 1) + t.length = J.start + i + (t.length + 1) := by omega
    rw [hend]

theorem redo_fst (J : Journal β) (d : Nat → β) (i : Nat) (bs : List Nat) :
    (J.redo d i bs).map Prod.fst = bs := by
  induction bs generalizing i with
  | nil => rfl
  | cons b bs ih => simp only [redo, List.map_cons, ih]

theorem redo_mem (J : Journal β) (h : w ∈ J.redo d i bs) : w.1 ∈ bs := by
  rw [← J.redo_fst d i bs]
  exact List.mem_map_of_mem h

theorem mem_redo (J : Journal β) (d : Nat → β) (i : Nat) (hk : k < bs.length) :
    (bs[k], d (J.start + (i + k))) ∈ J.redo d i bs := by
  induction bs generalizing i k with
  | nil => cases hk
  | cons b bs ih =>
    cases k with
    | zero => exact List.mem_cons_self
    | succ k =>
      have h := ih (i + 1) (k := k) (by simpa using hk)
      rw [show i + 1 + k = i + (k + 1) by omega] at h
      exact List.mem_cons_of_mem _ h

/-- Filling the log and reading it back gives the transaction. -/
theorem redo_fill (J : Journal β) (d : Nat → β) (i : Nat) (t : List (Nat × β)) :
    J.redo (applyWrites d (J.fill i t)) i (t.map Prod.fst) = t := by
  induction t generalizing d i with
  | nil => rfl
  | cons w t ih =>
    simp only [List.map_cons, fill, applyWrites, redo]
    rw [ih, applyWrites_other, Function.update_self]
    intro v hv
    have hh := J.fill_mem hv
    omega

theorem owed_none (J : Journal β) (h : J.pending (d J.hdr) = none) : J.owed d = [] := by
  simp only [owed, h]

theorem owed_some (J : Journal β) (h : J.pending (d J.hdr) = some bs) :
    J.owed d = J.redo d 0 bs := by
  simp only [owed, h]

theorem recovery_none (J : Journal β) (h : J.pending (d J.hdr) = none) :
    J.recovery d = [] := by
  simp only [recovery, h]

theorem recovery_some (J : Journal β) (h : J.pending (d J.hdr) = some bs) :
    J.recovery d = J.owed d ++ [(J.hdr, J.clear)] := by
  simp only [recovery, owed, h]

theorem hdr_not_mem_log (J : Journal β) (j : Nat) (hj : j < J.size) : J.start + j ≠ J.hdr := by
  have h := J.hdr_outside
  omega

/-- Writes outside the log leave the owed transaction as it is. -/
theorem owed_applyWrites (J : Journal β) (h : ∀ w ∈ ws, ¬ J.Area w.1) :
    J.owed (applyWrites d ws) = J.owed d := by
  have hh : applyWrites d ws J.hdr = d J.hdr :=
    applyWrites_other fun w hw he => h w hw (.inl he)
  simp only [owed, hh]
  cases hp : J.pending (d J.hdr) with
  | none => rfl
  | some bs =>
    have hn := J.pending_size _ _ hp
    apply J.redo_congr
    intro j _ hj
    apply applyWrites_other
    intro w hw he
    exact h w hw (.inr (by omega))

theorem logical_clean (J : Journal β) (h : J.pending (d J.hdr) = none) : J.logical d = d := by
  rw [logical, J.owed_none h]
  rfl

/-- Writes into the log blocks of a disk that owes nothing keep its meaning. -/
theorem logical_log_writes (J : Journal β) (h : J.pending (d J.hdr) = none)
    (ws : List (Nat × β)) (hw : ∀ w ∈ ws, J.Area w.1 ∧ w.1 ≠ J.hdr) :
    J.pending (applyWrites d ws J.hdr) = none ∧
      ∀ b, ¬ J.Area b → J.logical (applyWrites d ws) b = J.logical d b := by
  have hh : applyWrites d ws J.hdr = d J.hdr := applyWrites_other fun w hm => (hw w hm).2
  have hp : J.pending (applyWrites d ws J.hdr) = none := by rw [hh, h]
  refine ⟨hp, ?_⟩
  intro b hb
  rw [J.logical_clean h, J.logical_clean hp]
  apply applyWrites_other
  intro w hm he
  exact hb (he ▸ (hw w hm).1)

section Recovery
variable {J : Journal β}

/-- Recovery that stops after any prefix of its writes owes what it owed, or nothing. -/
theorem owed_recovery_take (hs : J.Sound d) (k : Nat) :
    J.owed (applyWrites d ((J.recovery d).take k)) = J.owed d ∨
      J.owed (applyWrites d ((J.recovery d).take k)) = [] ∧
        applyWrites d ((J.recovery d).take k) =
          Function.update (J.logical d) J.hdr J.clear := by
  cases hp : J.pending (d J.hdr) with
  | none =>
    rw [J.recovery_none hp, List.take_nil]
    exact .inl rfl
  | some bs =>
    rw [J.recovery_some hp]
    by_cases hk : k ≤ (J.owed d).length
    · -- the header still names the transaction
      rw [List.take_append_of_le_length hk]
      exact .inl (J.owed_applyWrites fun w hw => hs w (List.mem_of_mem_take hw))
    · -- the header is cleared, so everything was installed before
      rw [List.take_of_length_le (by simp; omega), applyWrites_append]
      simp only [applyWrites]
      exact .inr ⟨J.owed_none (by rw [Function.update_self, J.pending_clear]), rfl⟩

/-- Recovery that stops after any prefix of its writes keeps the meaning of the disk. -/
theorem logical_recovery_take (hs : J.Sound d) (k : Nat) (hb : ¬ J.Area b) :
    J.logical (applyWrites d ((J.recovery d).take k)) b = J.logical d b := by
  rcases J.owed_recovery_take hs k with ho | ⟨ho, he⟩
  · rw [logical, ho]
    -- the installed part of the owed transaction is only written once more
    cases hp : J.pending (d J.hdr) with
    | none => rw [J.recovery_none hp, List.take_nil]; rfl
    | some bs =>
      have htake : applyWrites d ((J.recovery d).take k) b =
          applyWrites d ((J.owed d).take k) b := by
        rw [J.recovery_some hp, List.take_append, applyWrites_append]
        apply applyWrites_other
        intro w hw he
        have hm := List.mem_of_mem_take hw
        rw [List.mem_singleton] at hm
        exact hb (.inl (he ▸ hm ▸ rfl))
      rw [logical, ← applyWrites_take d (J.owed d) k b]
      exact applyWrites_congr (.inr htake)
  · rw [logical, ho, he]
    exact Function.update_of_ne (fun he => hb (.inl he)) _ _

theorem sound_recovery_take (hs : J.Sound d) (k : Nat) :
    J.Sound (applyWrites d ((J.recovery d).take k)) := by
  intro w hw
  rcases J.owed_recovery_take hs k with ho | ⟨ho, _⟩
  · exact hs w (ho ▸ hw)
  · rw [ho] at hw
    cases hw

/-- Recovery that completes leaves nothing owed. -/
theorem recovery_complete (J : Journal β) (d : Nat → β) :
    J.pending (applyWrites d (J.recovery d) J.hdr) = none ∧
      ∀ b, ¬ J.Area b → applyWrites d (J.recovery d) b = J.logical d b := by
  cases hp : J.pending (d J.hdr) with
  | none =>
    rw [J.recovery_none hp]
    exact ⟨hp, fun b _ => by rw [J.logical_clean hp]; rfl⟩
  | some bs =>
    rw [J.recovery_some hp, applyWrites_append]
    simp only [applyWrites]
    refine ⟨by rw [Function.update_self, J.pending_clear], ?_⟩
    intro b hb
    rw [Function.update_of_ne fun he => hb (.inl he), logical]

end Recovery

section Transaction
variable {J : Journal β} {t : List (Nat × β)}

theorem txn_take_le (hk : k ≤ t.length) : (J.txn t).take k = (J.fill 0 t).take k := by
  rw [txn, List.take_append_of_le_length (by rw [J.fill_length]; exact hk)]

theorem txn_take_gt (hk : t.length < k) :
    (J.txn t).take k = J.fill 0 t ++ (J.hdr, J.commit (t.map Prod.fst)) ::
      (t ++ [(J.hdr, J.clear)]).take (k - t.length - 1) := by
  rw [txn, List.take_append, J.fill_length, List.take_of_length_le (by rw [J.fill_length]; omega)]
  obtain ⟨m, hm⟩ : ∃ m, k - t.length = m + 1 := ⟨k - t.length - 1, by omega⟩
  rw [hm, List.take_succ_cons, Nat.add_sub_cancel]

/-- Before the commit write nothing is owed and the disk means what it meant. -/
theorem txn_before (h : J.pending (d J.hdr) = none) (hn : t.length ≤ J.size)
    (hk : k ≤ t.length) :
    J.owed (applyWrites d ((J.txn t).take k)) = [] ∧
      ∀ b, ¬ J.Area b → J.logical (applyWrites d ((J.txn t).take k)) b = d b := by
  rw [txn_take_le hk]
  obtain ⟨hp, hl⟩ := J.logical_log_writes h ((J.fill 0 t).take k) (by
    intro w hw
    have hm := J.fill_mem (List.mem_of_mem_take hw)
    refine ⟨.inr (by omega), ?_⟩
    have hh := J.hdr_not_mem_log (w.1 - J.start) (by omega)
    intro he
    omega)
  refine ⟨J.owed_none hp, ?_⟩
  intro b hb
  rw [hl b hb, J.logical_clean h]

/-- From the commit write on the transaction is owed until it is installed, and the disk
means what it means after the whole transaction. -/
theorem txn_after (hc : J.pending (J.commit (t.map Prod.fst)) = some (t.map Prod.fst))
    (hn : t.length ≤ J.size) (ht : ∀ w ∈ t, ¬ J.Area w.1) (hk : t.length < k) :
    (J.owed (applyWrites d ((J.txn t).take k)) = t ∨
      J.owed (applyWrites d ((J.txn t).take k)) = []) ∧
      ∀ b, ¬ J.Area b →
        J.logical (applyWrites d ((J.txn t).take k)) b = applyWrites d t b := by
  rw [txn_take_gt hk, applyWrites_append]
  simp only [applyWrites]
  set f := applyWrites d (J.fill 0 t) with hf
  set g := Function.update f J.hdr (J.commit (t.map Prod.fst)) with hg
  have hgp : J.pending (g J.hdr) = some (t.map Prod.fst) := by rw [hg, Function.update_self, hc]
  have ho : J.owed g = t := by
    rw [J.owed_some hgp]
    have hr : J.redo g 0 (t.map Prod.fst) = J.redo f 0 (t.map Prod.fst) := by
      apply J.redo_congr
      intro j _ hj
      rw [List.length_map] at hj
      rw [hg, Function.update_of_ne (J.hdr_not_mem_log j (by omega))]
    rw [hr, hf, J.redo_fill]
  have hgd (b : Nat) (hb : ¬ J.Area b) : g b = d b := by
    rw [hg, Function.update_of_ne fun he => hb (.inl he)]
    exact applyWrites_other fun w hw he => hb (he ▸ J.fill_area hn hw)
  -- the rest of the transaction is exactly what recovery would write
  have hgr : J.recovery g = t ++ [(J.hdr, J.clear)] := by rw [J.recovery_some hgp, ho]
  have hsound : J.Sound g := by
    intro w hw
    exact ht w (ho ▸ hw)
  refine ⟨?_, ?_⟩
  · have hot := J.owed_recovery_take hsound (k - t.length - 1)
    rw [hgr, ho] at hot
    exact hot.imp_right And.left
  · intro b hb
    have hl := J.logical_recovery_take hsound (k - t.length - 1) hb
    rw [hgr] at hl
    rw [hl, logical, ho]
    apply applyWrites_congr
    by_cases hm : ∃ w ∈ t, w.1 = b
    · exact .inl hm
    · exact .inr (hgd b hb)

/-- A completed transaction leaves the log clear and its writes installed. -/
theorem txn_complete (hn : t.length ≤ J.size) :
    applyWrites d (J.txn t) J.hdr = J.clear ∧
      ∀ b, ¬ J.Area b → applyWrites d (J.txn t) b = applyWrites d t b := by
  rw [txn, applyWrites_append]
  simp only [applyWrites]
  rw [applyWrites_append]
  simp only [applyWrites]
  refine ⟨by rw [Function.update_self], ?_⟩
  intro b hb
  rw [Function.update_of_ne fun he => hb (.inl he)]
  apply applyWrites_congr
  by_cases hm : ∃ w ∈ t, w.1 = b
  · exact .inl hm
  · right
    rw [Function.update_of_ne fun he => hb (.inl he)]
    exact applyWrites_other fun w hw he => hb (he ▸ J.fill_area hn hw)

end Transaction
end Journal
end KernelHobby
