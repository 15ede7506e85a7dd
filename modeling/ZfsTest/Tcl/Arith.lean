import ZfsTest.Num.Signed
import ZfsTest.Tcl.Expr

/-!
# Integers in Tcl expressions

`expr` with an integer that is given as a text: `a / d` and `a % d` for a positive `d`; a text that is empty is an error. A text of digits
is read as the number that it stands for, wrapped to 64 bits, unless it begins with a `0` and is read as octal (`intValue_digits`); the
texts that `format` and the printing of numbers make are read back (`intValue_natText`). `format "%.kd"` is `precText`.
-/

namespace ZfsTest.Tcl

/-- `expr $a / d`. -/
def exprDiv (a : Text) (d : Nat) : Option Int := (intValue a).map fun i => i / d

/-- `expr $a % d`. -/
def exprMod (a : Text) (d : Nat) : Option Int := (intValue a).map fun i => i % d

/-- `format "%.kd" i`: at least `k` digits. -/
def precText (k : Nat) (i : Int) : Text :=
  let ds := natText i.natAbs
  (if i < 0 then ['-'] else []) ++ (List.replicate (k - ds.length) '0' ++ ds)

/-- The number that digits stand for. -/
def digitsNumber (ds : Text) : Nat := Nat.ofDigitChars 10 ds 0

/-! ## Digits -/

theorem digitsNumber_natText (n : Nat) : digitsNumber (natText n) = n := Nat.ofDigitChars_ten_toDigits

theorem digitsNumber_cons (c : Char) (ds : Text) :
    digitsNumber (c :: ds) = 10 ^ ds.length * (c.toNat - '0'.toNat) + digitsNumber ds := by
  rw [digitsNumber, Nat.ofDigitChars_cons, Nat.mul_zero, Nat.zero_add, Nat.ofDigitChars_eq_ofDigitChars_zero]
  rfl

theorem digitsNumber_zero (ds : Text) : digitsNumber ('0' :: ds) = digitsNumber ds := by
  rw [digitsNumber_cons, Nat.sub_self, Nat.mul_zero, Nat.zero_add]

theorem digitsNumber_replicate (k : Nat) (ds : Text) : digitsNumber (List.replicate k '0' ++ ds) = digitsNumber ds := by
  induction k with
  | zero => rfl
  | succ k ih => rw [List.replicate_succ, List.cons_append, digitsNumber_zero, ih]

theorem digitsNumber_dropWhile (ds : Text) : digitsNumber (ds.dropWhile (· = '0')) = digitsNumber ds := by
  induction ds with
  | nil => rfl
  | cons c ds ih =>
    by_cases hc : c = '0'
    · subst hc
      rw [List.dropWhile_cons_of_pos (by simp), ih, digitsNumber_zero]
    · rw [List.dropWhile_cons_of_neg (by simp [hc])]

theorem digit_le {c : Char} (hc : c.isDigit = true) : c.toNat - '0'.toNat ≤ 9 := by
  simp only [Char.isDigit, Bool.and_eq_true, decide_eq_true_eq] at hc
  have h : c.toNat ≤ '9'.toNat := hc.2
  have h9 : '9'.toNat = 57 := rfl
  have h0 : '0'.toNat = 48 := rfl
  omega

theorem digitsNumber_lt {ds : Text} (hd : ∀ c ∈ ds, c.isDigit = true) : digitsNumber ds < 10 ^ ds.length := by
  induction ds with
  | nil => decide
  | cons c ds ih =>
    have hc := digit_le (hd c List.mem_cons_self)
    have hrest := ih fun d hdd => hd d (List.mem_cons_of_mem c hdd)
    have hle : 10 ^ ds.length * (c.toNat - '0'.toNat) ≤ 10 ^ ds.length * 9 := Nat.mul_le_mul_left _ hc
    rw [digitsNumber_cons, List.length_cons, Nat.pow_succ]
    omega

theorem notMem_precText {c : Char} (hs : c ≠ '-') (hd : c.isDigit = false) (k : Nat) (i : Int) : c ∉ precText k i := by
  intro hc
  rcases List.mem_append.mp hc with hc | hc
  · split at hc
    · exact hs (List.mem_singleton.mp hc)
    · cases hc
  · rcases List.mem_append.mp hc with hc | hc
    · rw [List.eq_of_mem_replicate hc] at hd
      cases hd
    · exact notMem_natText hd _ hc

/-- A sign stands in front of a number below zero only. -/
theorem mem_precText {k : Nat} {i : Int} : '-' ∈ precText k i ↔ i < 0 := by
  constructor
  · intro h
    by_contra hi
    have hdigits : '-' ∈ precText k i.natAbs := by
      have hnonneg : ¬(((i.natAbs : Nat) : Int) < 0) := by omega
      rw [precText, if_neg hnonneg]
      rwa [precText, if_neg hi] at h
    rcases List.mem_append.mp hdigits with h | h
    · rw [if_neg (by omega)] at h
      cases h
    · rcases List.mem_append.mp h with h | h
      · cases List.eq_of_mem_replicate h
      · exact notMem_natText rfl _ h
  · intro h
    rw [precText, if_pos h]
    exact List.mem_cons_self

theorem precText_injective {k : Nat} {i j : Int} (h : precText k i = precText k j) : i = j := by
  have hsign : i < 0 ↔ j < 0 := by rw [← mem_precText (k := k), h, mem_precText]
  have habs : i.natAbs = j.natAbs := by
    simp only [precText, hsign] at h
    have hnum := congrArg digitsNumber (List.append_cancel_left h)
    rwa [digitsNumber_replicate, digitsNumber_replicate, digitsNumber_natText, digitsNumber_natText] at hnum
  omega

/-! ## Reading -/

theorem not_isSpace_digit {c : Char} (hc : c.isDigit = true) : isSpace c = false := by
  by_contra hs
  rw [Bool.not_eq_false] at hs
  simp only [isSpace, Bool.or_eq_true, decide_eq_true_eq] at hs
  rcases hs with ((((rfl | rfl) | rfl) | rfl) | rfl) | rfl <;> exact absurd hc (by decide)

theorem trim_digits {ds : Text} (hd : ∀ c ∈ ds, c.isDigit = true) : trim ds = ds := by
  have hdrop : ∀ u : Text, (∀ c ∈ u, c.isDigit = true) → u.dropWhile isSpace = u := by
    intro u hu
    cases u with
    | nil => rfl
    | cons c u => exact List.dropWhile_cons_of_neg (by simp [not_isSpace_digit (hu c List.mem_cons_self)])
  rw [trim, hdrop ds hd, hdrop ds.reverse fun c hc => hd c (List.mem_reverse.mp hc), List.reverse_reverse]

theorem signed_digits {ds : Text} (hd : ∀ c ∈ ds, c.isDigit = true) : signed ds = (false, ds) := by
  cases ds with
  | nil => rfl
  | cons c ds =>
    have hc := hd c List.mem_cons_self
    unfold signed
    split
    · rename_i h
      rw [(List.cons.inj h).1] at hc
      cases hc
    · rename_i h
      rw [(List.cons.inj h).1] at hc
      cases hc
    · rfl

theorem digitsValue_digits {ds : Text} (hd : ∀ c ∈ ds, c.isDigit = true) : digitsValue 10 ds = digitsNumber ds := by
  have hfold : ∀ n, ds.foldl (fun n c => 10 * n + hexValue c) n = ds.foldl (fun n c => 10 * n + (c.toNat - '0'.toNat)) n := by
    induction ds with
    | nil => exact fun _ => rfl
    | cons c ds ih =>
      intro n
      have hc : hexValue c = c.toNat - '0'.toNat := if_pos (hd c List.mem_cons_self)
      rw [List.foldl_cons, List.foldl_cons, hc]
      exact ih (fun d hdd => hd d (List.mem_cons_of_mem c hdd)) _
  exact hfold 0

/-- Digits that are not octal. -/
theorem intValue_digits {ds : Text} (hne : ds ≠ []) (hd : ∀ c ∈ ds, c.isDigit = true) (hlead : ∀ c u, ds ≠ '0' :: c :: u) :
    intValue ds = if digitsNumber ds < 2 ^ 64 then some (wrap 64 (digitsNumber ds)) else none := by
  have hmag : magnitude ds = some (digitsNumber ds) := by
    unfold magnitude
    split
    · exact absurd rfl (hlead _ _)
    · rw [if_pos ⟨hne, List.all_eq_true.mpr hd⟩, digitsValue_digits hd]
  rw [intValue, trim_digits hd, signed_digits hd]
  simp only [hmag, Option.bind_some]
  rfl

/-- A printed number has no `0` in front. -/
theorem natText_ne_zero_cons (n : Nat) (c : Char) (u : Text) : natText n ≠ '0' :: c :: u := by
  intro h
  have hlen := congrArg List.length h
  have hlt : n < 10 ^ (c :: u).length := by
    have hd : ∀ d ∈ c :: u, d.isDigit = true := fun d hdm => mem_natText (n := n) (h ▸ List.mem_cons_of_mem '0' hdm)
    have hnum := digitsNumber_natText n
    rw [h, digitsNumber_zero] at hnum
    rw [← hnum]
    exact digitsNumber_lt hd
  have hle := (Nat.length_toDigits_le_iff (b := 10) (by decide) (Nat.succ_pos u.length)).mpr hlt
  change (natText n).length ≤ _ at hle
  rw [hlen, List.length_cons, List.length_cons] at hle
  omega

theorem intValue_natText (n : Nat) : intValue (natText n) = if n < 2 ^ 64 then some (wrap 64 n) else none := by
  have h := intValue_digits (natText_ne_nil n) (fun _ hc => mem_natText hc) (natText_ne_zero_cons n)
  rwa [digitsNumber_natText] at h

end ZfsTest.Tcl
