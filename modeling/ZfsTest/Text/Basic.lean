import Mathlib.Data.List.Basic

/-!
# Texts and the numbers printed in them

A text is a list of characters; a C string is the list of its characters before the terminating NUL. `intText` is what
`%d` prints, `padText` what `%02d` prints; their characters are digits and a sign (`mem_intText`).
-/

namespace ZfsTest

abbrev Text := List Char

/-- `%u`. -/
def natText (n : Nat) : Text := Nat.toDigits 10 n

/-- `%d`. -/
def intText (i : Int) : Text := if i < 0 then '-' :: natText i.natAbs else natText i.natAbs

/-- `%02d`, for a number that is not negative. -/
def padText (n : Nat) : Text := if n < 10 then '0' :: natText n else natText n

theorem mem_natText {n : Nat} {c : Char} (hc : c ∈ natText n) : c.isDigit = true :=
  Nat.isDigit_of_mem_toDigits (by decide) (by decide) hc

theorem natText_injective {m n : Nat} (h : natText m = natText n) : m = n := by
  have := congrArg (fun ds => Nat.ofDigitChars 10 ds 0) h
  simpa [natText] using this

theorem natText_ne_nil (n : Nat) : natText n ≠ [] := Nat.toDigits_ne_nil

theorem mem_intText {i : Int} {c : Char} (hc : c ∈ intText i) : c = '-' ∨ c.isDigit = true := by
  unfold intText at hc
  split at hc
  · rcases List.mem_cons.mp hc with rfl | hc
    · exact Or.inl rfl
    · exact Or.inr (mem_natText hc)
  · exact Or.inr (mem_natText hc)

theorem intText_ne_nil (i : Int) : intText i ≠ [] := by
  unfold intText
  split
  · exact List.cons_ne_nil _ _
  · exact natText_ne_nil _

theorem mem_padText {n : Nat} {c : Char} (hc : c ∈ padText n) : c.isDigit = true := by
  unfold padText at hc
  split at hc
  · rcases List.mem_cons.mp hc with rfl | hc
    · decide
    · exact mem_natText hc
  · exact mem_natText hc

/-- A character that is neither a sign nor a digit is not in a number. -/
theorem notMem_intText {c : Char} (hs : c ≠ '-') (hd : c.isDigit = false) (i : Int) : c ∉ intText i := by
  intro hc
  rcases mem_intText hc with h | h
  · exact hs h
  · rw [hd] at h
    cases h

theorem notMem_natText {c : Char} (hd : c.isDigit = false) (n : Nat) : c ∉ natText n := by
  intro hc
  have h := mem_natText hc
  rw [hd] at h
  cases h

theorem notMem_padText {c : Char} (hd : c.isDigit = false) (n : Nat) : c ∉ padText n := by
  intro hc
  have h := mem_padText hc
  rw [hd] at h
  cases h

/-- Texts with single blanks between them. -/
def joined : List Text → Text
  | [] => []
  | [e] => e
  | e :: es => e ++ ' ' :: joined es

end ZfsTest
