import Mathlib.Data.List.TakeWhile
import ZfsTest.Num.Signed
import ZfsTest.Text.Basic

/-!
# `strtol` in base 10

White space, a sign, and digits, of a text that is read from its beginning; without a digit the result is `0` and nothing is read. A
number out of range gives the nearest number of the range and sets `ERANGE`. On a text that begins with a `Numeral`, `strtol` reads the
digits and nothing else (`strtol_numeral`).
-/

namespace ZfsTest

/-- `isspace`, in the C locale. -/
def isspace (c : Char) : Bool := c = ' ' || c = '\t' || c = '\n' || c = '\x0b' || c = '\x0c' || c = '\r'

/-- The number that a list of digits stands for. -/
def decimal (ds : Text) : Nat := ds.foldl (fun n c => 10 * n + (c.toNat - '0'.toNat)) 0

/-- The result, the text behind the number, and whether `errno` is `ERANGE`. -/
structure Strtol where
  value : Int
  rest : Text
  erange : Bool
  deriving DecidableEq, Repr

/-- Behind the sign. -/
def strtolDigits (w : Nat) (whole : Text) (neg : Bool) (t : Text) : Strtol :=
  let ds := t.takeWhile Char.isDigit
  let n : Int := if neg then -decimal ds else decimal ds
  if ds = [] then ⟨0, whole, false⟩
  else if maxSigned w < n then ⟨maxSigned w, t.dropWhile Char.isDigit, true⟩
  else if n < minSigned w then ⟨minSigned w, t.dropWhile Char.isDigit, true⟩
  else ⟨n, t.dropWhile Char.isDigit, false⟩

/-- `strtol(t, &rest, 10)` with a `long` of `w` bits. -/
def strtol (w : Nat) (t : Text) : Strtol :=
  match t.dropWhile isspace with
  | '-' :: u => strtolDigits w t true u
  | '+' :: u => strtolDigits w t false u
  | u => strtolDigits w t false u

/-! ## Numerals -/

/-- A decimal number without a sign. -/
structure Numeral where
  digits : Text
  ne_nil : digits ≠ []
  isDigit : ∀ c ∈ digits, c.isDigit = true
  deriving DecidableEq

def Numeral.value (d : Numeral) : Nat := decimal d.digits

/-- The text does not go on with a digit. -/
def NoDigit (t : Text) : Prop := ∀ c ∈ t.head?, c.isDigit = false

theorem noDigit_nil : NoDigit [] := by
  intro c hc
  cases hc

theorem noDigit_cons {c : Char} {t : Text} (hc : c.isDigit = false) : NoDigit (c :: t) := by
  intro d hd
  cases hd
  exact hc

variable {w : Nat}

/-- Digits end where a text begins that does not go on with one. -/
theorem span_digits (d : Numeral) {t : Text} (ht : NoDigit t) :
    (d.digits ++ t).takeWhile Char.isDigit = d.digits ∧ (d.digits ++ t).dropWhile Char.isDigit = t := by
  have hstop : t.takeWhile Char.isDigit = [] ∧ t.dropWhile Char.isDigit = t := by
    cases t with
    | nil => exact ⟨rfl, rfl⟩
    | cons c t =>
      have hc : ¬c.isDigit = true := by
        rw [ht c rfl]
        exact Bool.false_ne_true
      exact ⟨List.takeWhile_cons_of_neg hc, List.dropWhile_cons_of_neg hc⟩
  constructor
  · rw [List.takeWhile_append_of_pos d.isDigit, hstop.1, List.append_nil]
  · rw [List.dropWhile_append_of_pos d.isDigit, hstop.2]

theorem strtolDigits_numeral (d : Numeral) {t whole : Text} (ht : NoDigit t) :
    strtolDigits w whole false (d.digits ++ t) = ⟨clamp w d.value, t, decide (maxSigned w < d.value)⟩ := by
  obtain ⟨htake, hdrop⟩ := span_digits d ht
  have hmin : ¬((decimal d.digits : Int) < minSigned w) := by
    have h : (0 : Int) < 2 ^ (w - 1) := by positivity
    unfold minSigned
    omega
  unfold strtolDigits
  rw [htake, hdrop]
  simp only [Bool.false_eq_true, ↓reduceIte, if_neg d.ne_nil, if_neg hmin]
  by_cases h : maxSigned w < (decimal d.digits : Int)
  · rw [if_pos h, Numeral.value, clamp_of_lt h, decide_eq_true h]
  · rw [if_neg h, Numeral.value, clamp_of_le (Int.not_lt.mp h), decide_eq_false h]

theorem strtol_numeral (d : Numeral) {t : Text} (ht : NoDigit t) :
    strtol w (d.digits ++ t) = ⟨clamp w d.value, t, decide (maxSigned w < d.value)⟩ := by
  obtain ⟨digits, hne, hd⟩ := d
  cases digits with
  | nil => exact absurd rfl hne
  | cons c ds =>
    have hc : c.isDigit = true := hd c List.mem_cons_self
    have hspace : ¬isspace c = true := by
      intro h
      simp only [isspace, Bool.or_eq_true, decide_eq_true_eq] at h
      rcases h with ((((rfl | rfl) | rfl) | rfl) | rfl) | rfl <;> exact absurd hc (by decide)
    have hsign : ∀ s : Char, s.isDigit = false → c ≠ s := by
      intro s hs
      rintro rfl
      rw [hs] at hc
      exact Bool.false_ne_true hc
    unfold strtol
    rw [List.cons_append, List.dropWhile_cons_of_neg hspace]
    split
    · rename_i h
      exact absurd (List.cons.inj h).1 (hsign '-' (by decide))
    · rename_i h
      exact absurd (List.cons.inj h).1 (hsign '+' (by decide))
    · exact strtolDigits_numeral ⟨c :: ds, hne, hd⟩ ht

theorem strtol_nil : strtol w [] = ⟨0, [], false⟩ := rfl

end ZfsTest
