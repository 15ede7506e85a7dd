import Mathlib.Data.List.Count
import ZfsTest.Text.Basic

/-!
# What `echo` prints

`echo` and `print` of the Korn shell read backslash sequences in their text: `\a \b \f \n \r \t \v \\`, `\c`, which ends the output
and takes the newline with it, and `\0` with up to three octal digits. Any other backslash stands for itself. The text is read by a
machine of four modes, one character at a time.

No text grows: a text is printed as it is, or the output is shorter (`echo_spec`), and there are not more backslashes in the
output than in the text (`backslashes_echoFrom`).
-/

namespace ZfsTest.Shell

inductive EchoMode
  | plain
  | backslash
  /-- Behind `\0`: the value so far, and how many digits may follow. -/
  | octal (value : Nat) (digits : Nat)
  | cut
  deriving DecidableEq, Repr

def isOctal (c : Char) : Bool := '0' ≤ c && c ≤ '7'

/-- The character of a sequence of two characters. -/
def escape (c : Char) : Option Char :=
  if c = 'a' then some '\x07'
  else if c = 'b' then some '\x08'
  else if c = 'f' then some '\x0c'
  else if c = 'n' then some '\n'
  else if c = 'r' then some '\r'
  else if c = 't' then some '\t'
  else if c = 'v' then some '\x0b'
  else if c = '\\' then some '\\'
  else none

def emitPlain (c : Char) : Text × EchoMode := if c = '\\' then ([], .backslash) else ([c], .plain)

def byte (v : Nat) : Char := Char.ofNat (v % 256)

def emitEscape (c : Char) : Text × EchoMode :=
  if c = 'c' then ([], .cut)
  else if c = '0' then ([], .octal 0 3)
  else
    match escape c with
    | some d => ([d], .plain)
    | none => (['\\', c], .plain)

def emitOctal (v n : Nat) (c : Char) : Text × EchoMode :=
  if 0 < n ∧ isOctal c then ([], .octal (8 * v + (c.toNat - '0'.toNat)) (n - 1))
  else (byte v :: (emitPlain c).1, (emitPlain c).2)

/-- What is printed at a character, and the mode behind it. -/
def emit : EchoMode → Char → Text × EchoMode
  | .plain, c => emitPlain c
  | .backslash, c => emitEscape c
  | .octal v n, c => emitOctal v n c
  | .cut, _ => ([], .cut)

/-- What is printed at the end, with the newline. -/
def flush : EchoMode → Text
  | .plain => ['\n']
  | .backslash => ['\\', '\n']
  | .octal v _ => [byte v, '\n']
  | .cut => []

def echoFrom : EchoMode → Text → Text
  | m, [] => flush m
  | m, c :: t => (emit m c).1 ++ echoFrom (emit m c).2 t

/-- `echo "$t"`. -/
def echo (t : Text) : Text := echoFrom .plain t

theorem echoFrom_cons (m : EchoMode) (c : Char) (t : Text) : echoFrom m (c :: t) = (emit m c).1 ++ echoFrom (emit m c).2 t := rfl

theorem echo_cons_ne {c : Char} (hc : c ≠ '\\') (t : Text) : echo (c :: t) = c :: echo t := by
  rw [echo, echoFrom_cons, show emit .plain c = ([c], .plain) from if_neg hc]
  rfl

/-- A text without backslashes is printed as it is. -/
theorem echo_plain {t : Text} (ht : '\\' ∉ t) : echo t = t ++ ['\n'] := by
  induction t with
  | nil => rfl
  | cons c t ih =>
    have hc : c ≠ '\\' := fun hc => ht (hc ▸ List.mem_cons_self)
    rw [echo_cons_ne hc, ih fun hmem => ht (List.mem_cons_of_mem c hmem), List.cons_append]

/-- A text in front that has no backslash. -/
theorem echo_front {u : Text} (hu : '\\' ∉ u) (t : Text) : echo (u ++ t) = u ++ echo t := by
  induction u with
  | nil => rfl
  | cons c u ih =>
    have hc : c ≠ '\\' := fun hc => hu (hc ▸ List.mem_cons_self)
    rw [List.cons_append, echo_cons_ne hc, ih fun hmem => hu (List.mem_cons_of_mem c hmem), List.cons_append]

/-! ## Sequences -/

def isEscape (c : Char) : Bool := c = 'c' || c = '0' || (escape c).isSome

/-- There is a sequence in the text that `echo` replaces. -/
def escapes : Text → Bool
  | '\\' :: c :: t => isEscape c || escapes t
  | _ :: t => escapes t
  | [] => false

/-- The characters that have been read, and may still be printed. -/
def pending : EchoMode → Nat
  | .plain => 0
  | .backslash => 1
  | .octal _ _ => 1
  | .cut => 0

/-- Behind a backslash: a sequence gives one character at most, any other two characters stay. -/
theorem emitEscape_spec (c : Char) :
    if isEscape c then (emitEscape c).1.length + pending (emitEscape c).2 ≤ 1 else emitEscape c = (['\\', c], .plain) := by
  unfold emitEscape isEscape
  by_cases hcut : c = 'c'
  · simp [hcut, pending]
  · by_cases hoctal : c = '0'
    · simp [hoctal, pending]
    · cases hescape : escape c with
      | some d => simp [hcut, hoctal, pending]
      | none => simp [hcut, hoctal]

/-! ## Lengths -/

theorem length_emitPlain (c : Char) : (emitPlain c).1.length + pending (emitPlain c).2 = 1 := by
  unfold emitPlain
  split <;> rfl

theorem length_emitEscape (c : Char) : (emitEscape c).1.length + pending (emitEscape c).2 ≤ 2 := by
  have hspec := emitEscape_spec c
  split at hspec
  · omega
  · rw [hspec]
    exact Nat.le_refl 2

theorem length_emitOctal (v n : Nat) (c : Char) : (emitOctal v n c).1.length + pending (emitOctal v n c).2 ≤ 2 := by
  unfold emitOctal
  split
  · exact Nat.le_succ 1
  · have hplain := length_emitPlain c
    simp only [List.length_cons]
    omega

/-- Nothing grows, whatever is pending. -/
theorem length_emit (m : EchoMode) (c : Char) : (emit m c).1.length + pending (emit m c).2 ≤ pending m + 1 := by
  cases m with
  | plain => exact Nat.le_of_eq (length_emitPlain c)
  | backslash => exact length_emitEscape c
  | octal v n => exact length_emitOctal v n c
  | cut => exact Nat.zero_le _

theorem echoFrom_cut (t : Text) : echoFrom .cut t = [] := by
  induction t with
  | nil => rfl
  | cons c t ih => exact ih

/-- The output is cut behind a backslash only. -/
theorem emit_cut {m : EchoMode} {c : Char} (hm : m ≠ .cut) (h : (emit m c).2 = .cut) : (emit m c).1 = [] ∧ m = .backslash := by
  cases m with
  | plain =>
    rw [emit, emitPlain] at h
    split at h <;> cases h
  | backslash =>
    rw [emit, emitEscape] at h ⊢
    split at h
    · rename_i hc
      rw [if_pos hc]
      exact ⟨rfl, rfl⟩
    · split at h
      · cases h
      · split at h <;> cases h
  | octal v n =>
    rw [emit, emitOctal, emitPlain] at h
    split at h
    · cases h
    · split at h <;> cases h
  | cut => exact absurd rfl hm

theorem length_echoFrom (m : EchoMode) (t : Text) : (echoFrom m t).length ≤ pending m + t.length + 1 := by
  induction t generalizing m with
  | nil => cases m <;> simp [echoFrom, flush, pending]
  | cons c t ih =>
    have hemit := length_emit m c
    have ih := ih (emit m c).2
    rw [echoFrom_cons, List.length_append, List.length_cons]
    omega

theorem echo_backslash (c : Char) (t : Text) : echo ('\\' :: c :: t) = (emitEscape c).1 ++ echoFrom (emitEscape c).2 t := rfl

/-- Any other front of a text is printed as it is. -/
theorem echo_cons {c : Char} {t : Text} (h : ∀ d u, c :: t ≠ '\\' :: d :: u) : echo (c :: t) = c :: echo t := by
  by_cases hc : c = '\\'
  · subst hc
    cases t with
    | nil => rfl
    | cons d u => exact absurd rfl (h d u)
  · exact echo_cons_ne hc t

theorem escapes_cons {c : Char} {t : Text} (h : ∀ d u, c :: t ≠ '\\' :: d :: u) : escapes (c :: t) = escapes t := by
  rw [escapes.eq_def]
  split
  · rename_i d u heq
    exact absurd heq (h d u)
  · rename_i d u hno heq
    cases heq
    rfl
  · rename_i heq
    cases heq

theorem escapes_backslash (c : Char) (t : Text) : escapes ('\\' :: c :: t) = (isEscape c || escapes t) := rfl

/-- Induction along the sequences. -/
theorem escapes_induction {P : Text → Prop} (hbackslash : ∀ c t, P t → P ('\\' :: c :: t))
    (hcons : ∀ c t, (∀ d u, c :: t ≠ '\\' :: d :: u) → P t → P (c :: t)) (hnil : P []) (t : Text) : P t := by
  induction t using escapes.induct with
  | case1 c t ih => exact hbackslash c t ih
  | case2 c t hno ih =>
    refine hcons c t (fun d u heq => ?_) ih
    cases heq
    exact hno d u rfl rfl
  | case3 => exact hnil

/-- A text without sequences is printed as it is, and one with a sequence loses characters. -/
theorem echo_spec (t : Text) : if escapes t then (echo t).length ≤ t.length else echo t = t ++ ['\n'] := by
  induction t using escapes_induction with
  | hbackslash c t ih =>
    have hspec := emitEscape_spec c
    rw [escapes_backslash, echo_backslash]
    by_cases hc : isEscape c = true
    · rw [if_pos hc] at hspec
      have hrest := length_echoFrom (emitEscape c).2 t
      rw [hc, Bool.true_or, if_pos rfl, List.length_append, List.length_cons, List.length_cons]
      omega
    · rw [if_neg hc] at hspec
      rw [eq_false_of_ne_true hc, Bool.false_or, hspec]
      change if escapes t = true then (['\\', c] ++ echo t).length ≤ _ else ['\\', c] ++ echo t = _
      split at ih
      · rename_i ht
        rw [if_pos ht]
        simpa using ih
      · rename_i ht
        rw [if_neg ht, ih]
        rfl
  | hcons c t hno ih =>
    rw [escapes_cons hno, echo_cons hno]
    split at ih
    · rename_i ht
      rw [if_pos ht]
      simpa using ih
    · rename_i ht
      rw [if_neg ht, ih]
      rfl
  | hnil => rfl

theorem escapes_front {u : Text} (hu : '\\' ∉ u) (t : Text) : escapes (u ++ t) = escapes t := by
  induction u with
  | nil => rfl
  | cons c u ih =>
    have hc : c ≠ '\\' := fun hc => hu (hc ▸ List.mem_cons_self)
    rw [List.cons_append, escapes_cons fun d v h => hc (List.cons.inj h).1, ih fun hmem => hu (List.mem_cons_of_mem c hmem)]

/-- A character behind the text that makes no sequence. -/
theorem escapes_back {c : Char} (hc : isEscape c = false) (t : Text) : escapes (t ++ [c]) = escapes t := by
  induction t using escapes_induction with
  | hbackslash d t ih =>
    rw [List.cons_append, List.cons_append, escapes_backslash, escapes_backslash, ih]
  | hcons d t hno ih =>
    rw [escapes_cons hno, ← ih]
    cases t with
    | nil =>
      by_cases hd : d = '\\'
      · subst hd
        have hone : escapes [c] = false := by rw [escapes_cons (by simp)]; rfl
        change (isEscape c || escapes []) = escapes [c]
        rw [hc, hone]
        rfl
      · exact escapes_cons fun e u heq => hd (List.cons.inj heq).1
    | cons e u =>
      refine escapes_cons fun f v heq => ?_
      cases heq
      exact hno e u rfl
  | hnil =>
    rw [List.nil_append, escapes_cons (by simp)]

theorem escapes_behind {b : Text} (hb : ∀ c ∈ b, isEscape c = false) (t : Text) : escapes (t ++ b) = escapes t := by
  induction b generalizing t with
  | nil => rw [List.append_nil]
  | cons c b ih =>
    rw [List.append_cons, ih fun d hd => hb d (List.mem_cons_of_mem c hd), escapes_back (hb c List.mem_cons_self)]

/-- A blank divides the sequences. -/
theorem escapes_blank (u t : Text) : escapes (u ++ ' ' :: t) = (escapes u || escapes t) := by
  have hrest : escapes (' ' :: t) = escapes t := escapes_cons fun d v h => absurd (List.cons.inj h).1 (by decide)
  induction u using escapes_induction with
  | hbackslash c u ih => rw [List.cons_append, List.cons_append, escapes_backslash, escapes_backslash, ih, Bool.or_assoc]
  | hcons c u hno ih =>
    rw [escapes_cons hno, ← ih]
    cases u with
    | nil =>
      by_cases hc : c = '\\'
      · subst hc
        change (isEscape ' ' || escapes t) = escapes (' ' :: t)
        rw [hrest]
        rfl
      · exact escapes_cons fun d v heq => hc (List.cons.inj heq).1
    | cons d v =>
      refine escapes_cons fun e w heq => ?_
      cases heq
      exact hno d v rfl
  | hnil => exact hrest

/-! ## Ends -/

/-- A blank behind the text is printed in front of the newline, if there is one. -/
theorem echoFrom_blank (m : EchoMode) (t : Text) :
    echoFrom m (t ++ [' ']) = echoFrom m t ∨ ∃ o, echoFrom m t = o ++ ['\n'] ∧ echoFrom m (t ++ [' ']) = o ++ [' ', '\n'] := by
  induction t generalizing m with
  | nil =>
    cases m with
    | plain => exact Or.inr ⟨[], rfl, rfl⟩
    | backslash => exact Or.inr ⟨['\\'], rfl, rfl⟩
    | octal v n =>
      have hemit : emitOctal v n ' ' = ([byte v, ' '], .plain) := if_neg fun h => absurd h.2 (by decide)
      refine Or.inr ⟨[byte v], rfl, ?_⟩
      rw [List.nil_append, echoFrom_cons, show emit (.octal v n) ' ' = ([byte v, ' '], .plain) from hemit]
      rfl
    | cut => exact Or.inl rfl
  | cons c t ih =>
    rw [List.cons_append, echoFrom_cons, echoFrom_cons]
    rcases ih (emit m c).2 with h | ⟨o, ho, ho'⟩
    · exact Or.inl (by rw [h])
    · exact Or.inr ⟨(emit m c).1 ++ o, by rw [ho, List.append_assoc], by rw [ho', List.append_assoc]⟩

/-- The output ends with a newline, or else with the characters of `\c` that are not printed. -/
theorem echoFrom_end (m : EchoMode) (hm : m ≠ .cut) (t : Text) :
    (∃ o, echoFrom m t = o ++ ['\n']) ∨ (echoFrom m t).length + 1 ≤ pending m + t.length := by
  induction t generalizing m with
  | nil =>
    cases m with
    | plain => exact Or.inl ⟨[], rfl⟩
    | backslash => exact Or.inl ⟨['\\'], rfl⟩
    | octal v n => exact Or.inl ⟨[byte v], rfl⟩
    | cut => exact absurd rfl hm
  | cons c t ih =>
    have hemit := length_emit m c
    rw [echoFrom_cons, List.length_append, List.length_cons]
    by_cases hcut : (emit m c).2 = .cut
    · refine Or.inr ?_
      have hnone := emit_cut hm hcut
      rw [hnone.1, hcut, echoFrom_cut, hnone.2]
      simp [pending]
    · rcases ih _ hcut with ⟨o, ho⟩ | hlen
      · exact Or.inl ⟨(emit m c).1 ++ o, by rw [ho, List.append_assoc]⟩
      · exact Or.inr (by omega)

/-! ## Backslashes -/

def backslashes (t : Text) : Nat := t.count '\\'

@[simp] theorem backslashes_nil : backslashes [] = 0 := rfl

theorem backslashes_cons (c : Char) (t : Text) : backslashes (c :: t) = (if c = '\\' then 1 else 0) + backslashes t := by
  rw [backslashes, List.count_cons, Nat.add_comm]
  simp [backslashes]

theorem backslashes_append (t u : Text) : backslashes (t ++ u) = backslashes t + backslashes u := List.count_append

theorem backslashes_le_length (t : Text) : backslashes t ≤ t.length := List.count_le_length

theorem backslashes_sublist {t u : Text} (h : t.Sublist u) : backslashes t ≤ backslashes u := h.count_le '\\'

theorem backslashes_eq_zero {t : Text} : backslashes t = 0 ↔ '\\' ∉ t := List.count_eq_zero

theorem backslashes_emitPlain (c : Char) : backslashes (emitPlain c).1 + pending (emitPlain c).2 = if c = '\\' then 1 else 0 := by
  unfold emitPlain
  split
  · rfl
  · rename_i hc
    rw [backslashes_cons, if_neg hc]
    rfl

theorem backslashes_byte (v : Nat) (t : Text) : backslashes (byte v :: t) ≤ backslashes t + 1 := by
  rw [backslashes_cons]
  split <;> omega

theorem backslashes_emitEscape (c : Char) :
    backslashes (emitEscape c).1 + pending (emitEscape c).2 ≤ 1 + if c = '\\' then 1 else 0 := by
  have hspec := emitEscape_spec c
  split at hspec
  · have hlength := backslashes_le_length (emitEscape c).1
    omega
  · rw [hspec, backslashes_cons, if_pos rfl, backslashes_cons]
    exact Nat.le_refl _

theorem backslashes_emitOctal (v n : Nat) (c : Char) :
    backslashes (emitOctal v n c).1 + pending (emitOctal v n c).2 ≤ 1 + if c = '\\' then 1 else 0 := by
  unfold emitOctal
  split
  · exact Nat.le_add_right 1 _
  · have hbyte := backslashes_byte v (emitPlain c).1
    have hplain := backslashes_emitPlain c
    simp only
    omega

/-- A character adds at most its own backslash. -/
theorem backslashes_emit (m : EchoMode) (c : Char) :
    backslashes (emit m c).1 + pending (emit m c).2 ≤ pending m + if c = '\\' then 1 else 0 := by
  cases m with
  | plain =>
    have hplain := backslashes_emitPlain c
    simp only [emit, pending] at *
    omega
  | backslash => exact backslashes_emitEscape c
  | octal v n => exact backslashes_emitOctal v n c
  | cut => exact Nat.zero_le _

theorem backslashes_flush (m : EchoMode) : backslashes (flush m) ≤ pending m := by
  cases m with
  | plain => decide
  | backslash => decide
  | octal v n => exact backslashes_byte v ['\n']
  | cut => decide

/-- There are not more backslashes in the output than have been read. -/
theorem backslashes_echoFrom (m : EchoMode) (t : Text) : backslashes (echoFrom m t) ≤ pending m + backslashes t := by
  induction t generalizing m with
  | nil => exact backslashes_flush m
  | cons c t ih =>
    have hemit := backslashes_emit m c
    have ih := ih (emit m c).2
    rw [echoFrom_cons, backslashes_append, backslashes_cons]
    omega

end ZfsTest.Shell
