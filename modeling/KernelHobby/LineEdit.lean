import KernelHobby.Console
import KernelHobby.Ring

namespace KernelHobby
set_option autoImplicit true

/-- The text typed so far is at the start of a line. -/
def LineStart (t : List UInt8) : Prop := t = [] ∨ t.getLast? = some 10

instance : DecidablePred LineStart := fun _ => inferInstanceAs (Decidable (_ ∨ _))

/-- A key: the end of a line, an erase of the last character of the unfinished line, or a
character. -/
def edit (t : List UInt8) (c : UInt8) : List UInt8 :=
  if c = 127 ∨ c = 8 then if LineStart t then t else t.dropLast
  else if c = 13 then t ++ [10]
  else t ++ [c]

/-- What a typed sequence comes to. -/
def edited (cs : List UInt8) : List UInt8 := cs.foldl edit []

theorem edited_snoc (cs : List UInt8) (c : UInt8) : edited (cs ++ [c]) = edit (edited cs) c := by
  rw [edited, List.foldl_append]
  rfl

/-- What was typed, what the calls of `console_read` under way have stored in `dst`, and what
the finished ones have returned. -/
structure ReadLog where
  typed : List UInt8
  stored : Slot → List UInt8
  returned : List UInt8

namespace Sys
variable {H : Type} [DecidableEq H] {s s' : Sys H} {h : H} {a : Act} {p q : Slot} {l : ReadLog}

/-- The call of process `p` returns. -/
def hand (l : ReadLog) (p : Slot) : ReadLog :=
  { l with stored := Function.update l.stored p [], returned := l.returned ++ l.stored p }

def recordRead (s : Sys H) (h : H) (a : Act) (l : ReadLog) : ReadLog :=
  match a, s.ctl h, s.cpuProc h with
  | .intr c, _, _ => { l with typed := l.typed ++ [c] }
  | .go, .read n i, some p =>
    if i < n then
      if s.inR = s.inW then l
      else
        let c := s.inbuf (s.inR % INBUF)
        let l := { l with stored := Function.update l.stored p (l.stored p ++ [c]) }
        if c = 10 then hand l p else l
    else hand l p
  | _, _, _ => l

/-- The buffer has room, and only process `p` reads. -/
def OneReader (p : Slot) (s : Sys H) (h : H) (a : Act) : Prop :=
  s.inW - s.inR < INBUF ∧
    match a with
    | .read _ => s.cpuProc h = some p
    | _ => True

/-- An erase that finds nothing unread comes at the start of a line. -/
def EraseOk (s : Sys H) (l : ReadLog) : Act → Prop
  | .intr c => c = 127 ∨ c = 8 → s.inR = s.inW → LineStart (edited l.typed)
  | _ => True

/-- The characters that are not read yet. -/
def unread (s : Sys H) : List UInt8 := ringList s.inbuf INBUF s.inR (s.inW - s.inR)

/-- All readers are process `p`. -/
structure OnlyReader (p : Slot) (s : Sys H) : Prop where
  reads : ∀ h n i, s.ctl h = .read n i → s.cpuProc h = some p
  resumes : ∀ q n i, (s.proc q).resume = .reading n i → q = p

/-- What was typed is what was returned, is stored, and is not read yet. -/
structure Text (p : Slot) (s : Sys H) (l : ReadLog) : Prop where
  window : s.Window
  reader : s.OnlyReader p
  text : edited l.typed = l.returned ++ l.stored p ++ s.unread

omit [DecidableEq H] in
theorem unread_cons (hlt : s.inR < s.inW) :
    s.unread = s.inbuf (s.inR % INBUF) :: { s with inR := s.inR + 1 }.unread := by
  have hn : s.inW - s.inR = s.inW - (s.inR + 1) + 1 := by omega
  rw [unread, hn, ringList_cons]
  rfl

omit [DecidableEq H] in
theorem unread_snoc (hlt : s.inR < s.inW) :
    s.unread = { s with inW := s.inW - 1 }.unread ++ [s.inbuf ((s.inW - 1) % INBUF)] := by
  have hn : s.inW - s.inR = s.inW - 1 - s.inR + 1 := by omega
  have hlast : s.inR + (s.inW - 1 - s.inR) = s.inW - 1 := by omega
  rw [unread, hn, ringList_snoc, hlast]
  rfl

omit [DecidableEq H] in
theorem unread_push (hw : s.Window) (hlt : s.inW - s.inR < INBUF) :
    { s with inbuf := Function.update s.inbuf (s.inW % INBUF) c, inW := s.inW + 1 }.unread =
      s.unread ++ [c] := by
  have hle := hw.le
  have hn : s.inW + 1 - s.inR = s.inW - s.inR + 1 := by omega
  have hlast : s.inR + (s.inW - s.inR) = s.inW := by omega
  have hpush : ringList (Function.update s.inbuf ((s.inR + (s.inW - s.inR)) % INBUF) c) INBUF s.inR
      (s.inW - s.inR + 1) = s.unread ++ [c] := ringList_push s.inbuf c hlt
  rw [hlast] at hpush
  simp only [unread, hn]
  exact hpush

omit [DecidableEq H] in
theorem OnlyReader.change (ho : s.OnlyReader p)
    (hc : ∀ h', h' ≠ h → s'.ctl h' = s.ctl h' ∧ s'.cpuProc h' = s.cpuProc h')
    (hh : ∀ n i, s'.ctl h = .read n i → s'.cpuProc h = some p)
    (hr : ∀ q n i, (s'.proc q).resume = .reading n i → (s.proc q).resume = .reading n i ∨ q = p) :
    s'.OnlyReader p where
  reads h' n i hrd := by
    by_cases he : h' = h
    · subst he
      exact hh n i hrd
    · rw [(hc h' he).1] at hrd
      rw [(hc h' he).2]
      exact ho.reads h' n i hrd
  resumes q n i hrs := (hr q n i hrs).elim (ho.resumes q n i) id

theorem ctl_update {f : H → Ctl} {g : H → Option Slot} (c : Ctl) (h' : H) (hne : h' ≠ h) :
    Function.update f h c h' = f h' ∧ g h' = g h' :=
  ⟨Function.update_of_ne hne _ _, rfl⟩

theorem resume_update {t : Slot → Proc} (hq : (Function.update t p x q).resume = .reading n i)
    (hx : x.resume = .reading n i → (t p).resume = .reading n i) :
    (t q).resume = .reading n i := by
  by_cases hqp : q = p
  · subst hqp
    rw [Function.update_self] at hq
    exact hx hq
  · rw [Function.update_of_ne hqp] at hq
    exact hq

theorem wakeup_resume (t : Slot → Proc) (c : Chan) (q : Slot) :
    (wakeup t c q).resume = (t q).resume := by
  rw [wakeup]
  split
  · rfl
  · rfl

theorem wakeParent_resume (t : Slot → Proc) (o : Option Slot) (q : Slot) :
    (wakeParent t o q).resume = (t q).resume := by
  cases o with
  | none => rfl
  | some r => exact wakeup_resume t (.proc r) q

omit [DecidableEq H] in
theorem Keyed.onlyReader (hs : Keyed s c s') (ho : s.OnlyReader p) : s'.OnlyReader p := by
  cases hs with
  | newline _ _ =>
    refine ⟨ho.reads, ?_⟩
    intro q n i hq
    rw [wakeup_resume] at hq
    exact ho.resumes q n i hq
  | _ => exact ⟨ho.reads, ho.resumes⟩

/-- A hart goes to a control point where it reads for nobody. -/
theorem OnlyReader.leave (ho : s.OnlyReader p) (hctl : s'.ctl = Function.update s.ctl h c)
    (hno : ∀ n i, c ≠ .read n i) (hcpu : ∀ h', h' ≠ h → s'.cpuProc h' = s.cpuProc h')
    (hr : ∀ q n i, (s'.proc q).resume = .reading n i → (s.proc q).resume = .reading n i ∨ q = p) :
    s'.OnlyReader p := by
  refine ho.change (h := h) ?_ ?_ hr
  · intro h' hne
    rw [hctl]
    exact ⟨Function.update_of_ne hne _ _, hcpu h' hne⟩
  · intro n i hrd
    rw [hctl, Function.update_self] at hrd
    exact absurd hrd (hno n i)

theorem OnlyReader.step (ho : s.OnlyReader p) (hs : Step s h a s')
    (hok : ∀ n, a = .read n → s.cpuProc h = some p) : s'.OnlyReader p := by
  have hno {c : Ctl} (hctl : s'.ctl = Function.update s.ctl h c) (hc : ∀ n i, c ≠ .read n i)
      (hcpu : s'.cpuProc = s.cpuProc)
      (hr : ∀ q n i, (s'.proc q).resume = .reading n i → (s.proc q).resume = .reading n i) :
      s'.OnlyReader p :=
    ho.leave hctl hc (fun h' _ => congrFun hcpu h') fun q n i hq => .inl (hr q n i hq)
  cases hs with
  | acquire hl hc => exact hno rfl (fun _ _ => Ctl.noConfusion) rfl fun _ _ _ => id
  | dispatch q hc hst =>
    exact ho.leave rfl (fun _ _ => Ctl.noConfusion) (fun _ hne => Function.update_of_ne hne _ _)
      fun _ _ _ hq => .inl (resume_update hq id)
  | skip hc => exact ⟨ho.reads, ho.resumes⟩
  | scanned hc => exact hno rfl (fun _ _ => Ctl.noConfusion) rfl fun _ _ _ => id
  | back hc =>
    exact ho.leave rfl (fun _ _ => Ctl.noConfusion) (fun _ hne => Function.update_of_ne hne _ _)
      fun _ _ _ => .inl
  | toUser q hc hp _ => exact hno rfl (fun _ _ => Ctl.noConfusion) rfl fun _ _ _ => id
  | toWait q hc hp _ =>
    exact hno rfl (fun _ _ => Ctl.noConfusion) rfl fun _ _ _ hq => resume_update hq id
  | toRead q n i hc hp hr =>
    refine ho.change (ctl_update _) ?_ fun _ _ _ hq => .inl (resume_update hq id)
    intro _ _ _
    rw [← ho.resumes q n i hr]
    exact hp
  | reap r q hc hp hz =>
    exact hno rfl (fun _ _ => Ctl.noConfusion) rfl fun _ _ _ hq => resume_update hq id
  | waitSleep q hc hp hz hk =>
    exact hno rfl (fun _ _ => Ctl.noConfusion) rfl fun _ _ _ hq =>
      resume_update hq Resume.noConfusion
  | childless q hc hp hz hk => exact hno rfl (fun _ _ => Ctl.noConfusion) rfl fun _ _ _ => id
  | readSleep q n i hc hp _ _ =>
    refine ho.leave rfl (fun _ _ => Ctl.noConfusion) (fun _ _ => rfl) ?_
    intro r m j hr
    by_cases hrq : r = q
    · exact .inr (Option.some.inj ((hrq ▸ hp).symm.trans (ho.reads h n i hc)))
    · simp only [Sys.sleep, inside_proc, setProc_proc, Function.update_of_ne hrq] at hr
      exact .inl hr
  | readLine q n i hc hp _ _ _ => exact hno rfl (fun _ _ => Ctl.noConfusion) rfl fun _ _ _ => id
  | readByte q n i hc hp _ _ _ =>
    exact ho.change (ctl_update _) (fun _ _ _ => ho.reads h n i hc) fun _ _ _ => .inl
  | readFull q n i hc hp _ => exact hno rfl (fun _ _ => Ctl.noConfusion) rfl fun _ _ _ => id
  | yield q hc hp hl =>
    exact hno rfl (fun _ _ => Ctl.noConfusion) rfl fun _ _ _ hq =>
      resume_update hq Resume.noConfusion
  | exit q hc hp hl =>
    refine hno rfl (fun _ _ => Ctl.noConfusion) rfl fun r _ _ hq => ?_
    have hw := resume_update (t := wakeParent s.proc (s.proc q).parent) hq Resume.noConfusion
    rw [wakeParent_resume] at hw
    exact hw
  | wait q hc hp hl => exact hno rfl (fun _ _ => Ctl.noConfusion) rfl fun _ _ _ => id
  | read q n hc hp hl =>
    exact ho.change (ctl_update _) (fun _ _ _ => hok n rfl) fun _ _ _ => .inl
  | fork q c pt hc hp hl hf =>
    exact ⟨ho.reads, fun r n i hr => ho.resumes r n i (resume_update hr Resume.noConfusion)⟩
  | forkFull q pt hc hp hl hf => exact ho
  | intr c hc hl => exact (Keyed.intr s c).onlyReader ho

/-- An erase takes back a character that is not read yet, and is not the end of a line. -/
theorem edit_erase (hd : c = 127 ∨ c = 8) (hb : b ≠ 10) : edit (t ++ [b]) c = t := by
  have hns : ¬ LineStart (t ++ [b]) := by
    rintro (he | he)
    · simp at he
    · rw [List.getLast?_concat, Option.some.injEq] at he
      exact hb he
  rw [edit, if_pos hd, if_neg hns, List.dropLast_concat]

theorem edit_lineStart (hd : c = 127 ∨ c = 8) (ht : LineStart t) : edit t c = t := by
  rw [edit, if_pos hd, if_pos ht]

omit [DecidableEq H] in
/-- A key does to the buffer what it does to the text. -/
theorem Keyed.text (hs : Keyed s c s') (hw : s.Window) (hroom : s.inW - s.inR < INBUF)
    (ht : t = u ++ s.unread) (hok : c = 127 ∨ c = 8 → s.inR = s.inW → LineStart t) :
    edit t c = u ++ s'.unread := by
  cases hs with
  | erase hd hlt hb =>
    rw [ht, unread_snoc hlt, ← List.append_assoc]
    exact edit_erase hd hb
  | ignored hd hno =>
    have hstart : LineStart t := by
      by_cases he : s.inR = s.inW
      · exact hok hd he
      · have hlt : s.inR < s.inW := lt_of_le_of_ne hw.le he
        have hb : s.inbuf ((s.inW - 1) % INBUF) = 10 := by
          by_contra hb
          exact hno ⟨hlt, hb⟩
        right
        rw [ht, unread_snoc hlt, ← List.append_assoc, List.getLast?_concat, hb]
    rw [edit_lineStart hd hstart, ht]
  | dropped _ hge => omega
  | newline hn hlt =>
    have hpush := unread_push (c := 10) hw hlt
    simp only [unread] at hpush ⊢
    rw [hpush, ← List.append_assoc, ← unread, ← ht]
    rcases hn with rfl | rfl
    · rfl
    · rfl
  | char hd hn hlt =>
    rw [unread_push hw hlt, ← List.append_assoc, ← ht, edit, if_neg hd, if_neg fun he => hn (.inr he)]

omit [DecidableEq H] in
/-- Steps that leave the console alone. -/
theorem Text.mono (ht : Text p s l) (ho : s'.OnlyReader p) (hb : s'.inbuf = s.inbuf)
    (hw : s'.inW = s.inW) (hr : s'.inR = s.inR) : Text p s' l where
  window := ⟨by rw [hw, hr]; exact ht.window.le, by rw [hw, hr]; exact ht.window.size⟩
  reader := ho
  text := by
    rw [ht.text, unread, unread, hb, hw, hr]

theorem Text.step (ht : Text p s l) (hs : Step s h a s') (hone : OneReader p s h a)
    (hok : EraseOk s l a) :
    Text p s' (s.recordRead h a l) := by
  have ho : s'.OnlyReader p := by
    refine ht.reader.step hs ?_
    rintro n rfl
    exact hone.2
  have hw := ht.window.step hs
  have hquiet (hl : s.recordRead h a l = l) (hb : s'.inbuf = s.inbuf) (hww : s'.inW = s.inW)
      (hr : s'.inR = s.inR) : Text p s' (s.recordRead h a l) := by
    rw [hl]
    exact ht.mono ho hb hww hr
  -- a byte moves from the buffer to `dst`, and at the end of a call to what is returned
  have hbyte (hne : s.inR ≠ s.inW) : l.returned ++ (l.stored p ++ [s.inbuf (s.inR % INBUF)]) ++
      { s with inR := s.inR + 1 }.unread = edited l.typed := by
    have hlt : s.inR < s.inW := lt_of_le_of_ne ht.window.le hne
    rw [ht.text, unread_cons hlt]
    simp
  cases hs with
  | readSleep q n i hc hp hin he => exact hquiet (by simp [recordRead, hc, hp, hin, he]) rfl rfl rfl
  | readLine q n i hc hp hin hne hb =>
    obtain rfl : q = p := Option.some.inj (hp.symm.trans (ht.reader.reads h n i hc))
    refine ⟨hw, ho, ?_⟩
    have hl : (s.recordRead h .go l).typed = l.typed ∧ (s.recordRead h .go l).stored q = [] ∧
        (s.recordRead h .go l).returned = l.returned ++ (l.stored q ++ [10]) := by
      simp [recordRead, hc, hp, hin, hne, hb, hand]
    rw [hl.1, hl.2.1, hl.2.2, List.append_nil, ← hbyte hne, hb]
    rfl
  | readByte q n i hc hp hin hne hb =>
    obtain rfl : q = p := Option.some.inj (hp.symm.trans (ht.reader.reads h n i hc))
    refine ⟨hw, ho, ?_⟩
    have hl : (s.recordRead h .go l).typed = l.typed ∧
        (s.recordRead h .go l).stored q = l.stored q ++ [s.inbuf (s.inR % INBUF)] ∧
        (s.recordRead h .go l).returned = l.returned := by
      simp [recordRead, hc, hp, hin, hne, hb]
    rw [hl.1, hl.2.1, hl.2.2, ← hbyte hne]
    rfl
  | readFull q n i hc hp hin =>
    obtain rfl : q = p := Option.some.inj (hp.symm.trans (ht.reader.reads h n i hc))
    refine ⟨hw, ho, ?_⟩
    have hl : s.recordRead h .go l = hand l q := by
      simp [recordRead, hc, hp, hin]
    rw [hl, hand]
    dsimp only
    rw [Function.update_self, List.append_nil]
    exact ht.text
  | intr c hc hl =>
    refine ⟨hw, ho, ?_⟩
    have hr : s.recordRead h (.intr c) l = { l with typed := l.typed ++ [c] } := by
      simp [recordRead]
    rw [hr]
    dsimp only
    rw [edited_snoc]
    exact (Keyed.intr s c).text ht.window hone.1 ht.text hok
  | acquire _ hc | dispatch _ hc _ | skip hc | scanned hc | back hc | toUser _ hc _ _
  | toWait _ hc _ _ | toRead _ _ _ hc _ _ | reap _ _ hc _ _ | waitSleep _ hc _ _ _
  | childless _ hc _ _ _ => exact hquiet (by simp [recordRead, hc]) rfl rfl rfl
  | _ => exact hquiet (by simp [recordRead]) rfl rfl rfl

omit [DecidableEq H] in
theorem Text.boot (k t : Nat) (p : Slot) : Text p (boot k t : Sys H) ⟨[], fun _ => [], []⟩ where
  window := boot_window k t
  reader := by
    refine ⟨?_, ?_⟩
    · intro h n i hc
      cases hc
    · intro q n i hq
      exfalso
      simp only [Sys.boot] at hq
      by_cases hs : q = .shell
      · rw [hs, Function.update_self] at hq
        cases hq
      · rw [Function.update_of_ne hs] at hq
        cases hq
  text := rfl

/-- What one reader gets is the start of the edited text, whenever it reads, in every run whose
buffer has room and whose erases come while the line is unread. -/
theorem line_discipline {k t : Nat} (p : Slot) (as : List (H × Act))
    (hok : Along recordRead (fun s l h a => OneReader p s h a ∧ EraseOk s l a) (boot k t)
      ⟨[], fun _ => [], []⟩ as) :
    Always recordRead (fun _ l => l.returned <+: edited l.typed) (boot k t) ⟨[], fun _ => [], []⟩
      as := by
  refine hok.always (I := Text p) ?_ ?_ (.boot k t p)
  · intro s l h a s' ht ho hs
    exact ht.step (.of_step hs) ho.1 ho.2
  · intro s l ht
    rw [ht.text, List.append_assoc]
    exact List.prefix_append _ _

instance : DecidablePred (OneReader p s h)
  | .read _ => inferInstanceAs (Decidable (_ ∧ s.cpuProc h = some p))
  | .go | .yield | .exit | .wait | .fork _ | .intr _ => inferInstanceAs (Decidable (_ ∧ True))

instance : DecidablePred (EraseOk s l)
  | .intr c => inferInstanceAs (Decidable (c = 127 ∨ c = 8 → s.inR = s.inW →
      LineStart (edited l.typed)))
  | .go | .yield | .exit | .wait | .fork _ | .read _ => .isTrue trivial

/-- The shell calls `console_read` with room for 16 characters; `before` and `after` are typed
before and after it has started, and it then gets `n` characters. -/
def readRun (before after : List UInt8) (n : Nat) : List (Unit × Act) :=
  List.replicate 3 ((), .go) ++ before.map (fun c => ((), .intr c)) ++ [((), .read 16)] ++
    List.replicate (before.length + 10) ((), .go) ++ after.map (fun c => ((), .intr c)) ++
    List.replicate (n + 3) ((), .go)

theorem line_discipline_erase :
    Always recordRead (fun _ l => l.returned <+: edited l.typed) (boot 1 2 : Sys Unit)
      ⟨[], fun _ => [], []⟩ (readRun [] [97, 98, 127, 99, 13] 3) :=
  line_discipline .shell _ (by decide +kernel)

/-- The read has begun in the middle of a line, and its last character is erased after that. -/
theorem lateErase_not_prefix :
    Along recordRead (fun s _ h a => OneReader .shell s h a) (boot 1 2 : Sys Unit)
      ⟨[], fun _ => [], []⟩ (readRun [97, 98] [127, 13] 1) ∧
    ¬ Always recordRead (fun _ l => l.returned <+: edited l.typed) (boot 1 2 : Sys Unit)
      ⟨[], fun _ => [], []⟩ (readRun [97, 98] [127, 13] 1) := by
  decide +kernel

end Sys

end KernelHobby
