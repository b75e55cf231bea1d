import KernelHobby.LineEdit

namespace KernelHobby
set_option autoImplicit true

/-- The characters that the console accepted and that no erase took back, in the order in which
they came, and the bytes that `console_read` has handed out, each with its reader. -/
structure KeyLog where
  kept : List UInt8
  handed : List (Slot × UInt8)

namespace KeyLog

/-- What is kept after one more key. An erase takes back the last character unless a reader has it
or it ends a line, a character is dropped when as many are waiting as the buffer holds, and a CR
counts as an LF. -/
def key (l : KeyLog) (c : UInt8) : List UInt8 :=
  if c = 127 ∨ c = 8 then
    if l.handed.length < l.kept.length ∧ l.kept.getLast? ≠ some 10 then l.kept.dropLast else l.kept
  else if INBUF ≤ l.kept.length - l.handed.length then l.kept
  else l.kept ++ [if c = 13 then 10 else c]

end KeyLog

namespace Sys
variable {H : Type} [DecidableEq H] {s s' : Sys H} {h : H} {a : Act} {p : Slot} {l : KeyLog}

/-- The keys as they come, and the bytes as `console_read` takes them out of the buffer. -/
def recordKeys (s : Sys H) (h : H) (a : Act) (l : KeyLog) : KeyLog :=
  match a, s.ctl h, s.cpuProc h with
  | .intr c, _, _ => { l with kept := l.key c }
  | .go, .read n i, some p =>
    if i < n ∧ s.inR ≠ s.inW then
      { l with handed := l.handed ++ [(p, s.inbuf (s.inR % INBUF))] }
    else l
  | _, _, _ => l

/-- The bytes that were handed out and those in the buffer are what was kept. -/
structure Stream (s : Sys H) (l : KeyLog) : Prop where
  window : s.Window
  bytes : l.handed.map Prod.snd ++ s.unread = l.kept

omit [DecidableEq H] in
@[simp] theorem length_unread (s : Sys H) : s.unread.length = s.inW - s.inR := by
  rw [unread, length_ringList]

omit [DecidableEq H] in
theorem Stream.length (hs : Stream s l) : l.kept.length = l.handed.length + (s.inW - s.inR) := by
  rw [← hs.bytes, List.length_append, List.length_map, length_unread]

omit [DecidableEq H] in
/-- A key does to the buffer what it does to the log. -/
theorem Stream.keyed (hs : Stream s l) (hk : Keyed s c s') :
    l.handed.map Prod.snd ++ s'.unread = l.key c := by
  have hlen := hs.length
  have hlast (hlt : s.inR < s.inW) : l.kept = (l.handed.map Prod.snd ++
      { s with inW := s.inW - 1 }.unread) ++ [s.inbuf ((s.inW - 1) % INBUF)] := by
    rw [← hs.bytes, unread_snoc hlt, List.append_assoc]
  cases hk with
  | erase hd hlt hb =>
    have hkeep : l.handed.length < l.kept.length ∧ l.kept.getLast? ≠ some 10 := by
      refine ⟨by omega, ?_⟩
      rw [hlast hlt, List.getLast?_concat]
      exact fun he => hb (Option.some.inj he)
    rw [KeyLog.key, if_pos hd, if_pos hkeep, hlast hlt, List.dropLast_concat]
  | ignored hd hno =>
    have hkeep : ¬ (l.handed.length < l.kept.length ∧ l.kept.getLast? ≠ some 10) := by
      rintro ⟨hmore, hten⟩
      have hlt : s.inR < s.inW := by omega
      refine hno ⟨hlt, fun hb => hten ?_⟩
      rw [hlast hlt, List.getLast?_concat, hb]
    rw [KeyLog.key, if_pos hd, if_neg hkeep]
    exact hs.bytes
  | dropped hd hfull =>
    rw [KeyLog.key, if_neg hd, if_pos (by omega)]
    exact hs.bytes
  | newline hn hlt =>
    have hd : ¬ (c = 127 ∨ c = 8) := by
      rcases hn with rfl | rfl
      · decide
      · decide
    have hten : (if c = 13 then 10 else c) = (10 : UInt8) := by
      rcases hn with rfl | rfl
      · rfl
      · rfl
    have hpush := unread_push (c := 10) hs.window hlt
    simp only [unread] at hpush ⊢
    rw [KeyLog.key, if_neg hd, if_neg (by omega), hten, hpush, ← unread, ← List.append_assoc, hs.bytes]
  | char hd hn hlt =>
    rw [KeyLog.key, if_neg hd, if_neg (by omega), if_neg fun he => hn (.inr he),
      unread_push hs.window hlt, ← List.append_assoc, hs.bytes]

theorem Stream.step (hs : Stream s l) (hst : Step s h a s') : Stream s' (s.recordKeys h a l) := by
  have hw := hs.window.step hst
  have hquiet (hl : s.recordKeys h a l = l) (hb : s'.inbuf = s.inbuf) (hww : s'.inW = s.inW)
      (hr : s'.inR = s.inR) : Stream s' (s.recordKeys h a l) := by
    refine ⟨hw, ?_⟩
    rw [hl, unread, hb, hww, hr]
    exact hs.bytes
  -- the first byte of the buffer goes to reader `q`
  have hbyte (q : Slot) (hne : s.inR ≠ s.inW) :
      (l.handed ++ [(q, s.inbuf (s.inR % INBUF))]).map Prod.snd ++
        { s with inR := s.inR + 1 }.unread = l.kept := by
    have hlt : s.inR < s.inW := lt_of_le_of_ne hs.window.le hne
    rw [← hs.bytes, unread_cons hlt, List.map_append, List.append_assoc]
    rfl
  have hhand (q : Slot) (hne : s.inR ≠ s.inW) (hb : s'.unread = { s with inR := s.inR + 1 }.unread)
      (hl : s.recordKeys h a l =
        { l with handed := l.handed ++ [(q, s.inbuf (s.inR % INBUF))] }) :
      Stream s' (s.recordKeys h a l) := by
    refine ⟨hw, ?_⟩
    rw [hl, hb]
    exact hbyte q hne
  cases hst with
  | readSleep q n i hc hp hin he => exact hquiet (by simp [recordKeys, hc, hp, he]) rfl rfl rfl
  | readLine q n i hc hp hin hne hb =>
    exact hhand q hne rfl (by simp [recordKeys, hc, hp, hin, hne])
  | readByte q n i hc hp hin hne hb =>
    exact hhand q hne rfl (by simp [recordKeys, hc, hp, hin, hne])
  | readFull q n i hc hp hin => exact hquiet (by simp [recordKeys, hc, hp, hin]) rfl rfl rfl
  | intr c hc hl =>
    refine ⟨hw, ?_⟩
    have hr : s.recordKeys h (.intr c) l = { l with kept := l.key c } := by
      simp [recordKeys]
    rw [hr]
    exact hs.keyed (Keyed.intr s c)
  | acquire _ hc | dispatch _ hc _ | skip hc | scanned hc | back hc | toUser _ hc _ _
  | toWait _ hc _ _ | toRead _ _ _ hc _ _ | reap _ _ hc _ _ | waitSleep _ hc _ _ _
  | childless _ hc _ _ _ => exact hquiet (by simp [recordKeys, hc]) rfl rfl rfl
  | _ => exact hquiet (by simp [recordKeys]) rfl rfl rfl

/-- In every run of any number of readers, the bytes that were handed out in their order and then
those in the buffer are the accepted characters that no erase took back. -/
theorem console_stream (k t : Nat) (as : List (H × Act)) :
    Always recordKeys (fun s l => s.inR ≤ s.inW ∧ s.inW - s.inR ≤ INBUF ∧
      l.handed.map Prod.snd ++ s.unread = l.kept) (boot k t) ⟨[], []⟩ as := by
  have hok : Along recordKeys (fun _ _ _ _ => True) (boot k t) ⟨[], []⟩ as := by
    generalize (boot k t : Sys H) = s
    generalize (⟨[], []⟩ : KeyLog) = l
    induction as generalizing s l with
    | nil => trivial
    | cons x as ih => exact fun s' _ => ⟨trivial, ih s' _⟩
  refine hok.always (I := Stream) ?_ ?_ ⟨boot_window k t, rfl⟩
  · intro s l h a s' hs _ hst
    exact hs.step (.of_step hst)
  · intro s l hs
    exact ⟨hs.window.le, hs.window.size, hs.bytes⟩

end Sys

end KernelHobby
