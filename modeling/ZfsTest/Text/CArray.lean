import ZfsTest.Text.Separated

/-!
# Arrays of characters

The functions of C that read and write strings in an array: `strlen`, an assignment to one element, and `fgets`. What reads or writes
outside of the array has no result. A string in an array stands before the first NUL (`CArray.text`).
-/

namespace ZfsTest

abbrev CArray := List Char

namespace CArray

/-- The string at the beginning of the array. -/
def text (a : CArray) : Text := a.takeWhile (· ≠ '\x00')

def strlen (a : CArray) : Option Nat := if '\x00' ∈ a then some a.text.length else none

/-- `a[i] = c`. -/
def store (a : CArray) (i : Int) (c : Char) : Option CArray := if 0 ≤ i ∧ i < a.length then some (a.set i.toNat c) else none

/-- The characters of `s` are written from `a[i]` on. -/
def put (a : CArray) (i : Nat) (s : Text) : Option CArray :=
  if i + s.length ≤ a.length then some (a.take i ++ s ++ a.drop (i + s.length)) else none

/-- What `fgets` takes: at most `k` characters, up to the first newline. -/
def fgetsLine : Nat → Text → Text
  | 0, _ => []
  | _, [] => []
  | k + 1, c :: stream => if c = '\n' then [c] else c :: fgetsLine k stream

/-- `fgets(a, n, stream)`; at the end of the stream the array stays as it is. -/
def fgets (a : CArray) (n : Nat) (stream : Text) : Option CArray :=
  let line := fgetsLine (n - 1) stream
  if line = [] then some a
  else if line.length < a.length then some (line ++ '\x00' :: a.drop (line.length + 1))
  else none

/-! ## Strings in arrays -/

variable {t rest : Text}

theorem text_append_nul (ht : '\x00' ∉ t) : text (t ++ '\x00' :: rest) = t := takeWhile_separator ht rest

theorem eq_text_append {a : CArray} (h : '\x00' ∈ a) : '\x00' ∉ text a ∧ ∃ rest, a = text a ++ '\x00' :: rest := by
  obtain ⟨front, back, rfl, hfront⟩ := List.eq_append_cons_of_mem h
  rw [text_append_nul hfront]
  exact ⟨hfront, back, rfl⟩

theorem length_text_lt {a : CArray} {n : Nat} (h : '\x00' ∈ a.take n) : (text a).length < n := by
  obtain ⟨front, back, heq, hfront⟩ := List.eq_append_cons_of_mem h
  have hlen := congrArg List.length heq
  rw [List.length_take, List.length_append, List.length_cons] at hlen
  have ha : a = front ++ '\x00' :: (back ++ a.drop n) := by
    rw [← List.cons_append, ← List.append_assoc, ← heq, List.take_append_drop]
  rw [ha, text_append_nul hfront]
  omega

theorem strlen_append_nul (ht : '\x00' ∉ t) : strlen (t ++ '\x00' :: rest) = some t.length := by
  unfold strlen
  rw [if_pos (List.mem_append_right t List.mem_cons_self), text_append_nul ht]

theorem store_eq {a : CArray} {i : Nat} (hi : i < a.length) (c : Char) : store a i c = some (a.set i c) := by
  unfold store
  rw [if_pos ⟨Int.natCast_nonneg i, Int.ofNat_lt.mpr hi⟩, Int.toNat_natCast]

theorem store_neg {i : Int} (hi : i < 0) (a : CArray) (c : Char) : store a i c = none :=
  if_neg fun h => absurd h.1 (Int.not_le.mpr hi)

theorem store_append (t : Text) (c d : Char) : store (t ++ c :: rest) t.length d = some (t ++ d :: rest) := by
  have hi : t.length < (t ++ c :: rest).length := by
    rw [List.length_append, List.length_cons]
    omega
  rw [store_eq hi, List.set_append_right _ _ (Nat.le_refl _), Nat.sub_self]
  rfl

/-- A NUL in a string cuts it. -/
theorem text_set_nul (ht : '\x00' ∉ t) {i : Nat} (hi : i < t.length) : text ((t ++ '\x00' :: rest).set i '\x00') = t.take i := by
  have htake : '\x00' ∉ t.take i := fun h => ht (List.mem_of_mem_take h)
  rw [List.set_append_left _ _ hi, List.set_eq_take_append_cons_drop, if_pos hi, List.append_assoc, List.cons_append]
  exact text_append_nul htake

/-! ## Writing into an array -/

section

variable {a b : CArray} {i : Nat} {s : Text}

theorem exists_put (h : i + s.length ≤ a.length) : ∃ b, put a i s = some b := ⟨_, if_pos h⟩

theorem put_eq_some : put a i s = some b ↔ i + s.length ≤ a.length ∧ a.take i ++ s ++ a.drop (i + s.length) = b := by
  unfold put
  split
  · rename_i h
    rw [Option.some.injEq]
    exact ⟨fun hb => ⟨h, hb⟩, And.right⟩
  · rename_i h
    exact ⟨nofun, fun hb => absurd hb.1 h⟩

theorem length_put (h : put a i s = some b) : b.length = a.length := by
  obtain ⟨hlen, rfl⟩ := put_eq_some.mp h
  rw [List.length_append, List.length_append, List.length_take, List.length_drop]
  omega

/-- What is written, and everything else as it was. -/
theorem getElem?_put (h : put a i s = some b) (k : Nat) : b[k]? = if i ≤ k ∧ k < i + s.length then s[k - i]? else a[k]? := by
  obtain ⟨hlen, rfl⟩ := put_eq_some.mp h
  have htake : (a.take i).length = i := by
    rw [List.length_take]
    omega
  by_cases hlow : k < i
  · rw [if_neg (by omega), List.append_assoc, List.getElem?_append_left (by omega), List.getElem?_take_of_lt hlow]
  · by_cases hhigh : k < i + s.length
    · rw [if_pos (by omega), List.append_assoc, List.getElem?_append_right (by omega), htake, List.getElem?_append_left (by omega)]
    · have hfront : (a.take i ++ s).length = i + s.length := by rw [List.length_append, htake]
      have hk : i + s.length + (k - (i + s.length)) = k := by omega
      rw [if_neg (by omega), List.getElem?_append_right (by omega), hfront, List.getElem?_drop, hk]

/-- A string somewhere in an array, by its characters. -/
theorem text_drop_eq (ht : '\x00' ∉ t) (h : ∀ k ≤ t.length, a[i + k]? = (t ++ ['\x00'])[k]?) : text (a.drop i) = t := by
  have htake : (a.drop i).take (t.length + 1) = t ++ ['\x00'] := by
    refine List.ext_getElem? fun k => ?_
    by_cases hk : k < t.length + 1
    · rw [List.getElem?_take_of_lt hk, List.getElem?_drop]
      exact h k (by omega)
    · rw [List.getElem?_take_eq_none (by omega), List.getElem?_eq_none]
      rw [List.length_append, List.length_singleton]
      omega
  rw [← List.take_append_drop (t.length + 1) (a.drop i), htake, List.append_assoc]
  exact text_append_nul ht

end

/-! ## `fgets` -/

theorem fgetsLine_eq (ht : '\n' ∉ t) (k : Nat) : fgetsLine k (t ++ '\n' :: rest) = (t ++ ['\n']).take k := by
  induction t generalizing k with
  | nil =>
    cases k with
    | zero => rfl
    | succ k => simp [fgetsLine]
  | cons c t ih =>
    have hc : c ≠ '\n' := fun h => ht (h ▸ List.mem_cons_self)
    cases k with
    | zero => rfl
    | succ k =>
      rw [List.cons_append, List.cons_append, fgetsLine, if_neg hc, ih (fun h => ht (List.mem_cons_of_mem _ h)), List.take_succ_cons]

theorem fgets_eq {a : CArray} (ha : 2 ≤ a.length) (ht : '\n' ∉ t) : fgets a a.length (t ++ '\n' :: rest) =
    some ((t ++ ['\n']).take (a.length - 1) ++ '\x00' :: a.drop (((t ++ ['\n']).take (a.length - 1)).length + 1)) := by
  have hlen : ((t ++ ['\n']).take (a.length - 1)).length = min (a.length - 1) (t.length + 1) := by
    rw [List.length_take, List.length_append, List.length_singleton]
  have hne : (t ++ ['\n']).take (a.length - 1) ≠ [] := by
    intro h
    rw [h, List.length_nil] at hlen
    omega
  unfold fgets
  rw [fgetsLine_eq ht]
  simp only [if_neg hne]
  rw [if_pos (by omega)]

end CArray

end ZfsTest
