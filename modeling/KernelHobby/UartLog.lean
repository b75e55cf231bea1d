import KernelHobby.Fs

namespace KernelHobby
set_option autoImplicit true

/-- `uart_puts`: a carriage return before each newline. -/
def putsText (s : CStr) : List UInt8 := s.bytes.flatMap fun c => if c = 10 then [13, c] else [c]

/-- What the loop of `uart_dec` puts in `buf`. -/
def decBuf (n : UInt64) : List UInt8 :=
  if n = 0 then [] else (48 + (n % 10).toUInt8) :: decBuf (n / 10)
termination_by n.toNat
decreasing_by
  rename_i hn
  rw [UInt64.toNat_div]
  exact Nat.div_lt_self (Nat.pos_of_ne_zero fun h => hn (UInt64.toNat_inj.1 h)) (by decide)

def DECBUFSZ : Nat := 21

def decText (n : UInt64) : List UInt8 := if n = 0 then [48] else (decBuf n).reverse

/-- The digit of `uart_hex` at a shift. -/
def hexAt (n shift : UInt64) : UInt8 :=
  let d := ((n >>> shift) &&& 0xf).toUInt8
  if d < 10 then 48 + d else 97 + d - 10

def hexText (n : UInt64) : List UInt8 :=
  48 :: 120 :: (List.range 16).map fun k => hexAt n (60 - 4 * k).toUInt64

/-- A call of one of the functions that print. -/
inductive Print where
  | putc (c : UInt8)
  | puts (s : CStr)
  | dec (n : UInt64)
  | hex (n : UInt64)
  deriving DecidableEq

def Print.text : Print → List UInt8
  | .putc c => [c]
  | .puts s => putsText s
  | .dec n => decText n
  | .hex n => hexText n

/-- The serial port between the threads `T` that print and the line. `todo` is what the holder of
`uart_lock` has yet to write, `idle` that it has seen the port idle for the next character; a
character that is written while the port is full takes the place of the one in `thr`. `done` is for
the statements. -/
structure Uart (T : Type) where
  lock : Option T
  todo : List UInt8
  idle : Bool
  thr : Option UInt8
  line : List UInt8
  calls : T → List Print
  done : List (T × Print)

namespace Uart
variable {T : Type} [DecidableEq T]

/-- The calls that each thread makes, one after the other. -/
def start (program : T → List Print) : Uart T := ⟨none, [], false, none, [], program, []⟩

inductive Act (T : Type) where
  | acquire (t : T)
  | poll (t : T)
  | write (t : T)
  | release (t : T)
  | device

def step (s : Uart T) : Act T → Option (Uart T)
  | .acquire t =>
    match s.lock, s.calls t with
    | none, c :: _ => some { s with lock := some t, todo := c.text }
    | _, _ => none
  | .poll t =>
    if s.lock = some t ∧ s.todo ≠ [] ∧ s.idle = false then
      some { s with idle := s.thr.isNone }
    else none
  | .write t =>
    if s.lock = some t ∧ s.idle = true then
      match s.todo with
      | b :: bs => some { s with thr := some b, todo := bs, idle := false }
      | [] => none
    else none
  | .release t =>
    if s.lock = some t ∧ s.todo = [] then
      match s.calls t with
      | c :: cs =>
        some { s with
          lock := none
          calls := Function.update s.calls t cs
          done := s.done ++ [(t, c)] }
      | [] => none
    else none
  | .device =>
    match s.thr with
    | some b => some { s with line := s.line ++ [b], thr := none }
    | none => none

def run (s : Uart T) : List (Act T) → Option (Uart T)
  | [] => some s
  | a :: as => (s.step a).bind fun s => s.run as

/-- The text of the call under way. -/
def current (s : Uart T) : List UInt8 :=
  match s.lock with
  | some t => (s.calls t).head?.elim [] Print.text
  | none => []

end Uart

section Digits
variable {n : UInt64}

theorem decBuf_zero : decBuf 0 = [] := by
  rw [decBuf, if_pos rfl]

theorem decBuf_succ (h : n ≠ 0) : decBuf n = (48 + (n % 10).toUInt8) :: decBuf (n / 10) := by
  rw [decBuf, if_neg h]

theorem digit_toNat (h : d < 10) : (48 + d.toUInt8 : UInt8).toNat = 48 + d := by
  rw [UInt8.toNat_add, Nat.toUInt8_eq, UInt8.toNat_ofNat']
  show (48 + d % 256) % 256 = 48 + d
  omega

/-- The buffer of `uart_dec` has the decimal digits, the last first. -/
theorem decBuf_digits (n : UInt64) :
    (decBuf n).map UInt8.toNat = (Nat.digits 10 n.toNat).map (48 + ·) := by
  induction n using decBuf.induct with
  | case1 =>
    rw [decBuf_zero]
    rfl
  | case2 n hn ih =>
    have hpos : 0 < n.toNat := Nat.pos_of_ne_zero fun h => hn (UInt64.toNat_inj.1 h)
    have hdiv : (n / 10).toNat = n.toNat / 10 := UInt64.toNat_div n 10
    have hmod : (n % 10).toUInt8 = (n.toNat % 10).toUInt8 := by
      apply UInt8.toNat_inj.1
      rw [UInt64.toNat_toUInt8, UInt64.toNat_mod, Nat.toUInt8_eq, UInt8.toNat_ofNat']
      rfl
    rw [decBuf_succ hn, List.map_cons, ih, hdiv, hmod,
      digit_toNat (Nat.mod_lt _ (by decide)), Nat.digits_def' (by decide) hpos, List.map_cons]

/-- A digit as it is read. -/
def digitValue (b : UInt8) : Nat := if b.toNat < 58 then b.toNat - 48 else b.toNat - 87

theorem decText_reverse (h : n ≠ 0) : (decText n).reverse = decBuf n := by
  rw [decText, if_neg h, List.reverse_reverse]

theorem decBuf_mem (h : b ∈ decBuf n) : 48 ≤ b.toNat ∧ b.toNat < 58 := by
  have hb : b.toNat ∈ (decBuf n).map UInt8.toNat := List.mem_map_of_mem h
  rw [decBuf_digits, List.mem_map] at hb
  obtain ⟨d, hd, he⟩ := hb
  have hlt := Nat.digits_lt_base (by decide) hd
  omega

theorem decBuf_value (n : UInt64) : (decBuf n).map digitValue = Nat.digits 10 n.toNat := by
  have hvalue : (decBuf n).map digitValue = ((decBuf n).map UInt8.toNat).map (· - 48) := by
    rw [List.map_map]
    apply List.map_congr_left
    intro b hb
    rw [digitValue, if_pos (decBuf_mem hb).2]
    rfl
  rw [hvalue, decBuf_digits, List.map_map]
  exact (List.map_congr_left fun d _ => Nat.add_sub_cancel_left 48 d).trans (List.map_id _)

theorem decBuf_length (n : UInt64) : (decBuf n).length ≤ 20 := by
  have hlen : (decBuf n).length = (Nat.digits 10 n.toNat).length := by
    rw [← decBuf_value, List.length_map]
  rw [hlen, Nat.digits_length_le_iff (by decide)]
  exact Nat.lt_of_lt_of_le n.toNat_lt (by decide)

theorem hexDigit_value : ∀ d, d < 16 →
    digitValue (if d.toUInt8 < 10 then 48 + d.toUInt8 else 97 + d.toUInt8 - 10) = d := by
  decide

theorem hexAt_value (n : UInt64) {j : Nat} (hj : j < 16) :
    digitValue (hexAt n (4 * j).toUInt64) = n.toNat / 16 ^ j % 16 := by
  have hshift : ((n >>> (4 * j).toUInt64) &&& 0xf).toNat = n.toNat / 16 ^ j % 16 := by
    rw [UInt64.toNat_and, UInt64.toNat_shiftRight, Nat.shiftRight_eq_div_pow]
    have hsj : (4 * j).toUInt64.toNat % 64 = 4 * j := by
      rw [Nat.toUInt64_eq, UInt64.toNat_ofNat']
      omega
    rw [hsj, Nat.pow_mul]
    exact Nat.and_two_pow_sub_one_eq_mod _ 4
  have hd : ((n >>> (4 * j).toUInt64) &&& 0xf).toUInt8 = (n.toNat / 16 ^ j % 16).toUInt8 := by
    apply UInt8.toNat_inj.1
    rw [UInt64.toNat_toUInt8, hshift, Nat.toUInt8_eq, UInt8.toNat_ofNat']
  rw [hexAt, hd]
  exact hexDigit_value _ (Nat.mod_lt _ (by decide))

theorem ofDigits_range (n k : Nat) :
    Nat.ofDigits 16 ((List.range k).map fun j => n / 16 ^ j % 16) = n % 16 ^ k := by
  induction k with
  | zero => rw [Nat.pow_zero, Nat.mod_one, List.range_zero, List.map_nil, Nat.ofDigits_nil]
  | succ k ih =>
    rw [List.range_succ, List.map_append, Nat.ofDigits_append, ih, List.length_map,
      List.length_range, List.map_singleton, Nat.ofDigits_singleton, Nat.mod_pow_succ]

theorem hexText_value (n : UInt64) :
    Nat.ofDigits 16 (((hexText n).drop 2).reverse.map digitValue) = n.toNat := by
  have hrev : (List.range 16).reverse = (List.range 16).map (15 - ·) := rfl
  have hdigits : ((hexText n).drop 2).reverse.map digitValue =
      (List.range 16).map fun j => n.toNat / 16 ^ j % 16 := by
    rw [hexText, List.drop_succ_cons, List.drop_succ_cons, List.drop_zero, ← List.map_reverse, hrev,
      List.map_map, List.map_map]
    apply List.map_congr_left
    intro j hj
    rw [List.mem_range] at hj
    have hshift : 60 - 4 * (15 - j) = 4 * j := by omega
    rw [← hexAt_value n hj, ← hshift]
    rfl
  rw [hdigits, ofDigits_range]
  exact Nat.mod_eq_of_lt (Nat.lt_of_lt_of_le n.toNat_lt (by decide))

/-- What `uart_dec` and `uart_hex` print is read back as the number; `uart_dec` prints digits alone,
no zero before them, and stays in its buffer. -/
theorem numbers_read_back (n : UInt64) :
    Nat.ofDigits 10 ((decText n).reverse.map digitValue) = n.toNat ∧
      (∀ b ∈ decText n, 48 ≤ b.toNat ∧ b.toNat < 58) ∧
      ((decText n).head? = some 48 → decText n = [48]) ∧ (decBuf n).length < DECBUFSZ ∧
      Nat.ofDigits 16 (((hexText n).drop 2).reverse.map digitValue) = n.toNat ∧
      (hexText n).length = 18 := by
  refine ⟨?_, ?_, ?_, Nat.lt_succ_of_le (decBuf_length n), hexText_value n, rfl⟩
  · by_cases hn : n = 0
    · rw [hn]
      rfl
    · rw [decText_reverse hn, decBuf_value, Nat.ofDigits_digits]
  · intro b hb
    rw [decText] at hb
    split at hb
    · rw [List.mem_singleton.1 hb]
      decide
    · exact decBuf_mem (List.mem_reverse.1 hb)
  · intro hhead
    by_cases hn : n = 0
    · rw [decText, if_pos hn]
    · -- the first digit is the last of the buffer
      have hpos : n.toNat ≠ 0 := fun h => hn (UInt64.toNat_inj.1 h)
      have hne : Nat.digits 10 n.toNat ≠ [] := Nat.digits_ne_nil_iff_ne_zero.2 hpos
      rw [decText, if_neg hn, List.head?_reverse] at hhead
      have hzero : (Nat.digits 10 n.toNat).getLast? = some 0 := by
        rw [← decBuf_value, List.getLast?_map, hhead]
        rfl
      rw [List.getLast?_eq_some_getLast hne] at hzero
      exact absurd (Option.some.inj hzero) (Nat.getLast_digit_ne_zero 10 hpos)

end Digits

namespace Uart
variable {T : Type} [DecidableEq T] {s s' : Uart T} {a : Act T} {program : T → List Print}

/-- What a step can do. -/
inductive Step (s : Uart T) : Act T → Uart T → Prop where
  | acquire (t : T) (c : Print) (cs : List Print) : s.lock = none → s.calls t = c :: cs →
      Step s (.acquire t) { s with lock := some t, todo := c.text }
  | poll (t : T) : s.lock = some t → Step s (.poll t) { s with idle := s.thr.isNone }
  | write (t : T) (b : UInt8) (bs : List UInt8) : s.lock = some t → s.idle = true →
      s.todo = b :: bs → Step s (.write t) { s with thr := some b, todo := bs, idle := false }
  | release (t : T) (c : Print) (cs : List Print) : s.lock = some t → s.todo = [] →
      s.calls t = c :: cs → Step s (.release t)
        { s with
          lock := none
          calls := Function.update s.calls t cs
          done := s.done ++ [(t, c)] }
  | device (b : UInt8) : s.thr = some b →
      Step s .device { s with line := s.line ++ [b], thr := none }

theorem Step.of_step (h : s.step a = some s') : Step s a s' := by
  cases a with
  | acquire t =>
    simp only [step] at h
    split at h
    · rename_i hl hc
      cases h
      exact .acquire t _ _ hl hc
    · cases h
  | poll t =>
    simp only [step] at h
    split at h
    · rename_i hp
      cases h
      exact .poll t hp.1
    · cases h
  | write t =>
    simp only [step] at h
    split at h
    · rename_i hw
      split at h
      · rename_i hb
        cases h
        exact .write t _ _ hw.1 hw.2 hb
      · cases h
    · cases h
  | release t =>
    simp only [step] at h
    split at h
    · rename_i hr
      split at h
      · rename_i hc
        cases h
        exact .release t _ _ hr.1 hr.2 hc
      · cases h
    · cases h
  | device =>
    simp only [step] at h
    split at h
    · rename_i hb
      cases h
      exact .device _ hb
    · cases h

/-- The calls of `t` that are done. -/
def doneBy (s : Uart T) (t : T) : List Print := (s.done.filter (·.1 = t)).map Prod.snd

/-- What holds in every reachable state. -/
structure Inv (program : T → List Print) (s : Uart T) : Prop where
  text : s.line ++ s.thr.toList ++ s.todo = s.done.flatMap (·.2.text) ++ s.current
  free : s.lock = none → s.todo = []
  busy : ∀ t, s.lock = some t → s.calls t ≠ []
  idle : s.idle = true → s.thr = none
  order : ∀ t, program t = s.doneBy t ++ s.calls t

omit [DecidableEq T] in
theorem current_none (h : s.lock = none) : s.current = [] := by
  rw [current, h]

omit [DecidableEq T] in
theorem current_some (h : s.lock = some t) (hc : s.calls t = c :: cs) : s.current = c.text := by
  rw [current, h]
  dsimp only
  rw [hc]
  rfl

theorem Inv.step (h : s.Inv program) (hs : Step s a s') : s'.Inv program := by
  cases hs with
  | acquire t c cs hl hc =>
    have ht := h.text
    rw [h.free hl, current_none hl, List.append_nil, List.append_nil] at ht
    refine ⟨?_, fun hn => ?_, fun u hu => ?_, h.idle, h.order⟩
    · have hcur : ({ s with lock := some t, todo := c.text } : Uart T).current = c.text :=
        current_some rfl hc
      rw [hcur]
      exact congrArg (· ++ c.text) ht
    · cases hn
    · cases hu
      exact List.ne_nil_of_length_eq_add_one (congrArg List.length hc)
  | poll t hl =>
    refine ⟨h.text, h.free, h.busy, fun hi => Option.isNone_iff_eq_none.1 hi, h.order⟩
  | write t b bs hl hi hb =>
    refine ⟨?_, fun hn => ?_, h.busy, fun hf => ?_, h.order⟩
    · have ht := h.text
      rw [h.idle hi, hb, Option.toList_none, List.append_nil] at ht
      show s.line ++ [b] ++ bs = s.done.flatMap (·.2.text) ++ s.current
      rw [← ht, List.append_assoc, List.singleton_append]
    · have hn' : s.lock = none := hn
      rw [hl] at hn'
      cases hn'
    · cases hf
  | release t c cs hl hz hc =>
    refine ⟨?_, fun _ => hz, fun u hu => ?_, h.idle, fun u => ?_⟩
    · have ht := h.text
      rw [current_some hl hc] at ht
      rw [current_none rfl, List.append_nil, List.flatMap_append, List.flatMap_singleton]
      exact ht
    · cases hu
    · have ho := h.order u
      rw [ho, doneBy, doneBy]
      dsimp only
      rw [List.filter_append, List.map_append]
      by_cases hu : u = t
      · subst hu
        have hdone : [(u, c)].filter (fun x => decide (x.1 = u)) = [(u, c)] :=
          List.filter_cons_of_pos (decide_eq_true rfl)
        rw [Function.update_self, hc, List.append_assoc, hdone]
        rfl
      · rw [Function.update_of_ne hu,
          List.filter_cons_of_neg fun he => hu (of_decide_eq_true he).symm, List.filter_nil,
          List.map_nil, List.append_nil]
  | device b hb =>
    refine ⟨?_, h.free, h.busy, fun _ => rfl, h.order⟩
    have ht := h.text
    rw [hb] at ht
    show s.line ++ [b] ++ [] ++ s.todo = s.done.flatMap (·.2.text) ++ s.current
    rw [List.append_nil, ← ht]
    rfl

theorem Inv.run (h : s.Inv program) (hr : s.run as = some s') : s'.Inv program := by
  induction as generalizing s with
  | nil =>
    cases hr
    exact h
  | cons a as ih =>
    obtain ⟨u, hu, hr⟩ := Option.bind_eq_some_iff.1 hr
    exact ih (h.step (.of_step hu)) hr

theorem start_inv (program : T → List Print) : (start program).Inv program := by
  refine ⟨rfl, fun _ => rfl, fun t ht => ?_, fun hi => ?_, fun t => rfl⟩
  · cases ht
  · cases hi

/-- The thread that acts, none for the device. -/
def Act.thread : Act T → Option T
  | .acquire t => some t
  | .poll t => some t
  | .write t => some t
  | .release t => some t
  | .device => none

/-- Steps until the holder has written its text. -/
def left (s : Uart T) : Nat :=
  3 * s.todo.length + if s.idle = true then 0 else if s.thr = none then 1 else 2

/-- With the device a thread that prints gets on. -/
theorem next_step (hl : s.lock = some t) (hne : s.todo ≠ []) :
    ∃ a u, (a = .device ∨ a.thread = some t) ∧ s.step a = some u ∧ u.lock = some t ∧
      u.left < s.left := by
  by_cases hi : s.idle = true
  · obtain ⟨b, bs, hb⟩ := List.exists_cons_of_ne_nil hne
    refine ⟨.write t, { s with thr := some b, todo := bs, idle := false }, .inr rfl, ?_, hl, ?_⟩
    · rw [Uart.step, if_pos ⟨hl, hi⟩, hb]
    · rw [left, left, if_pos hi, hb, List.length_cons, if_neg Bool.false_ne_true,
        if_neg (Option.some_ne_none b)]
      dsimp only
      omega
  · cases ht : s.thr with
    | none =>
      refine ⟨.poll t, { s with idle := s.thr.isNone }, .inr rfl, ?_, hl, ?_⟩
      · rw [Uart.step, if_pos ⟨hl, hne, Bool.not_eq_true _ ▸ hi⟩]
      · have hnone : s.thr.isNone = true := by rw [ht]; rfl
        rw [left, left, if_neg hi, if_pos ht, if_pos hnone]
        exact Nat.lt_succ_self _
    | some b =>
      refine ⟨.device, { s with line := s.line ++ [b], thr := none }, .inl rfl, ?_, hl, ?_⟩
      · rw [Uart.step, ht]
      · rw [left, left, if_neg hi, if_neg hi, if_pos rfl, ht, if_neg (Option.some_ne_none b)]
        exact Nat.lt_succ_self _

theorem Inv.releases (h : s.Inv program) (hl : s.lock = some t) :
    ∃ as s', (∀ a ∈ as, a = .device ∨ a.thread = some t) ∧ s.run as = some s' ∧
      s'.lock = none := by
  induction hn : s.left using Nat.strong_induction_on generalizing s with
  | _ n ih =>
    by_cases hz : s.todo = []
    · obtain ⟨c, cs, hc⟩ := List.exists_cons_of_ne_nil (h.busy t hl)
      refine ⟨[.release t], { s with
        lock := none
        calls := Function.update s.calls t cs
        done := s.done ++ [(t, c)] }, fun a ha => .inr ?_, ?_, rfl⟩
      · rw [List.mem_singleton.1 ha]
        rfl
      · rw [Uart.run, Uart.step, if_pos ⟨hl, hz⟩, hc]
        rfl
    · obtain ⟨a, u, ha, hs, hu, hlt⟩ := next_step hl hz
      obtain ⟨as, s', has, hrun, hfree⟩ := ih u.left (hn ▸ hlt) (h.step (.of_step hs)) hu rfl
      refine ⟨a :: as, s', fun b hb => ?_, ?_, hfree⟩
      · rcases List.mem_cons.1 hb with rfl | hb
        · exact ha
        · exact has b hb
      · rw [Uart.run, hs]
        exact hrun

/-- Messages of any number of threads are not mixed up, and no character is lost: in every run what
has gone out, is in the port and is yet to be written is the text of the calls, one after the other,
each thread's in its order, and a call that holds the lock comes to its end. -/
theorem output_serialized (hr : (start program).run as = some s) :
    s.line ++ s.thr.toList ++ s.todo = s.done.flatMap (·.2.text) ++ s.current ∧
      (∀ t, program t = s.doneBy t ++ s.calls t) ∧
      ∀ t, s.lock = some t → ∃ as s', (∀ a ∈ as, a = .device ∨ a.thread = some t) ∧
        s.run as = some s' ∧ s'.lock = none := by
  have h := (start_inv program).run hr
  exact ⟨h.text, h.order, fun t hl => h.releases hl⟩

theorem hi_noNul : (0 : UInt8) ∉ [104, 105, 10] := by
  decide

def someProgram (b : Bool) : List Print :=
  if b then [.puts ⟨[104, 105, 10], hi_noNul⟩] else [.putc 65, .hex 255]

/-- The second thread takes the port while the first one waits. -/
def someRun : List (Act Bool) :=
  let char (b : Bool) : List (Act Bool) := [.poll b, .write b, .device]
  [.acquire true] ++ char true ++ char true ++ char true ++ [.poll true, .write true,
    .release true, .acquire false, .poll false, .device, .poll false]

def someUart : Uart Bool := ((start someProgram).run someRun).getD (start someProgram)

theorem output_serialized_some : someUart.line = [104, 105, 13, 10] ∧
    ∃ as s', (∀ a ∈ as, a = .device ∨ a.thread = some false) ∧ someUart.run as = some s' ∧
      s'.lock = none := by
  have hr : (start someProgram).run someRun = some someUart := rfl
  exact ⟨rfl, (output_serialized hr).2.2 false rfl⟩

end Uart

end KernelHobby
