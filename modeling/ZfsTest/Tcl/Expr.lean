import Mathlib.Data.Rat.Floor
import ZfsTest.Tcl.List

/-!
# Comparison of Tcl values

`==` of `expr`: two texts that are both numbers are compared as numbers, as integers of 64 bits when both are integers and else as
floating point numbers; all other texts are compared as texts.
-/

namespace ZfsTest.Tcl

/-- White space at both ends does not count in a number. -/
def trim (t : Text) : Text := ((t.dropWhile isSpace).reverse.dropWhile isSpace).reverse

/-- A sign and what follows it. -/
def signed : Text → Bool × Text
  | '-' :: t => (true, t)
  | '+' :: t => (false, t)
  | t => (false, t)

/-- An integer without sign: hexadecimal behind `0x`, octal behind `0`, else decimal. -/
def magnitude (t : Text) : Option Nat :=
  match t with
  | '0' :: x :: ds =>
    if x = 'x' ∨ x = 'X' then (if ds ≠ [] ∧ ds.all isHex then some (digitsValue 16 ds) else none)
    else if (x :: ds).all isOctal then some (digitsValue 8 (x :: ds)) else none
  | ds => if ds ≠ [] ∧ ds.all Char.isDigit then some (digitsValue 10 ds) else none

/-- The value of an integer: 64 bits, of which the first is the sign. -/
def intValue (t : Text) : Option Int :=
  let (neg, u) := signed (trim t)
  (magnitude u).bind fun n => if n < 2 ^ 64 then some ((if neg then -(n : Int) else n).bmod (2 ^ 64)) else none

/-- The nearest number with 53 bits, and of two nearest the even one; `none` beyond the largest double. -/
def roundDouble (q : ℚ) : Option ℚ :=
  if q = 0 then some 0
  else
    let a := |q|
    let e : Int := (Nat.log2 a.num.natAbs : Int) - Nat.log2 a.den
    let k : Int := max (-1074) ((if a < (2 : ℚ) ^ e then e - 1 else e) - 52)
    let m := a / (2 : ℚ) ^ k
    let f := m - ⌊m⌋
    let r : Int := if f < 1 / 2 then ⌊m⌋ else if 1 / 2 < f then ⌊m⌋ + 1 else if ⌊m⌋ % 2 = 0 then ⌊m⌋ else ⌊m⌋ + 1
    let d : ℚ := r * (2 : ℚ) ^ k
    if (2 : ℚ) ^ (1024 : Int) ≤ d then none else some (if q < 0 then -d else d)

/-- The exponent of a decimal fraction, behind its digits. -/
def exponent : Text → Option Int
  | [] => some 0
  | c :: t =>
    if c = 'e' ∨ c = 'E' then
      let (neg, ds) := signed t
      if ds ≠ [] ∧ ds.all Char.isDigit then some (if neg then -(digitsValue 10 ds : Int) else digitsValue 10 ds) else none
    else none

/-- The value of a decimal fraction, without rounding. -/
def decimalValue (t : Text) : Option ℚ :=
  let (neg, u) := signed (trim t)
  let whole := u.takeWhile Char.isDigit
  let rest := u.dropWhile Char.isDigit
  let (frac, rest) :=
    match rest with
    | '.' :: v => (v.takeWhile Char.isDigit, v.dropWhile Char.isDigit)
    | v => ([], v)
  if whole = [] ∧ frac = [] then none
  else (exponent rest).map fun (x : Int) =>
    (if neg then -1 else 1) * (digitsValue 10 (whole ++ frac) : ℚ) * (10 : ℚ) ^ (x - (frac.length : Int))

/-- A number; a text in the format of an integer is no fraction. -/
inductive Number
  | int (i : Int)
  | double (d : ℚ)

def looksLikeInt (t : Text) : Bool :=
  let (_, u) := signed (trim t)
  (u ≠ [] && u.all Char.isDigit) || (magnitude u).isSome

def number (t : Text) : Option Number :=
  if looksLikeInt t then (intValue t).map .int else ((decimalValue t).bind roundDouble).map .double

def Number.toDouble : Number → Option ℚ
  | .int i => roundDouble i
  | .double d => some d

/-- `==`. -/
def eq (t u : Text) : Bool :=
  match number t, number u with
  | some (.int i), some (.int j) => i = j
  | some a, some b => a.toDouble = b.toDouble
  | _, _ => t = u

/-- Nothing but the empty text equals the empty text. -/
theorem eq_nil {t : Text} : eq t [] = true ↔ t = [] := by
  have hn : number [] = none := rfl
  unfold eq
  rw [hn]
  simp

theorem eq_same (t : Text) : eq t t = true := by
  unfold eq
  cases number t with
  | none => simp
  | some a => cases a <;> simp

end ZfsTest.Tcl
