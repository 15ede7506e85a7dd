import Mathlib.Algebra.GroupWithZero.Nat
import Mathlib.Data.List.DropRight
import ZfsTest.Shell.Echo

/-!
# `while read x y`

`read` without `-r`: a backslash takes the meaning from the character behind it, and joins two lines when that is a newline. The line is
then divided at the separators that have kept their meaning; the last variable gets the rest of the line without separators at its ends.
What follows the last newline of a file is not read.

Every backslash that is read stands for two in the file (`backslashes_readLines`). In a file without backslashes the lines are read as they are
(`readLines_plain`).
-/

namespace ZfsTest.Shell

/-- A character, and whether a backslash stands in front of it. -/
abbrev Read := Char × Bool

/-- The lines of a file; `line` is what has been read of one, backwards, and `escaped` tells whether a backslash is the last character. -/
def readFrom : List Read → Bool → Text → List (List Read)
  | _, _, [] => []
  | line, true, c :: t => if c = '\n' then readFrom line false t else readFrom ((c, true) :: line) false t
  | line, false, c :: t =>
    if c = '\\' then readFrom line true t
    else if c = '\n' then line.reverse :: readFrom [] false t
    else readFrom ((c, false) :: line) false t

theorem readFrom_escaped (line : List Read) (c : Char) (t : Text) : readFrom line true (c :: t) =
    if c = '\n' then readFrom line false t else readFrom ((c, true) :: line) false t := rfl

theorem readFrom_cons (line : List Read) (c : Char) (t : Text) : readFrom line false (c :: t) =
    if c = '\\' then readFrom line true t
    else if c = '\n' then line.reverse :: readFrom [] false t
    else readFrom ((c, false) :: line) false t := rfl

def readLines (file : Text) : List (List Read) := readFrom [] false file

def text (line : List Read) : Text := line.map Prod.fst

section

variable (sep : Char → Bool)

def isSep (x : Read) : Bool := !x.2 && sep x.1

/-- `read x y`. -/
def pairOf (line : List Read) : Text × Text :=
  let line := line.dropWhile (isSep sep)
  let rest := (line.dropWhile fun x => !isSep sep x).dropWhile (isSep sep)
  (text (line.takeWhile fun x => !isSep sep x), text (rest.rdropWhile (isSep sep)))

end

/-! ## Backslashes -/

theorem backslashes_readFrom (line : List Read) (escaped : Bool) (t : Text) :
    2 * ((readFrom line escaped t).map fun l => backslashes (text l)).sum ≤
      2 * backslashes (text line) + (if escaped then 1 else 0) + backslashes t := by
  induction t generalizing line escaped with
  | nil => exact Nat.zero_le _
  | cons c t ih =>
    rw [backslashes_cons]
    cases escaped with
    | true =>
      rw [readFrom_escaped]
      split
      · have ih := ih line false
        simp only [Bool.false_eq_true, if_false] at ih
        simp only [if_true]
        omega
      · have ih := ih ((c, true) :: line) false
        simp only [Bool.false_eq_true, if_false, text, List.map_cons, backslashes_cons] at ih
        have hone : (if c = '\\' then 1 else 0) ≤ 1 := by split <;> omega
        simp only [if_true, text]
        omega
    | false =>
      rw [readFrom_cons]
      split
      · have ih := ih line true
        simp only [if_true] at ih
        simp only [Bool.false_eq_true, if_false]
        omega
      · split
        · have ih := ih [] false
          simp only [Bool.false_eq_true, if_false, text, List.map_nil, backslashes_nil] at ih
          have hline : backslashes (text line.reverse) = backslashes (text line) := by
            rw [text, List.map_reverse, backslashes, List.count_reverse]
            rfl
          rw [List.map_cons, List.sum_cons, hline]
          simp only [Bool.false_eq_true, if_false, text] at *
          omega
        · rename_i hc _
          have ih := ih ((c, false) :: line) false
          simp only [Bool.false_eq_true, if_false, text, List.map_cons, backslashes_cons, if_neg hc] at ih
          simp only [Bool.false_eq_true, if_false, text]
          omega

/-- Every backslash that is read stands for two in the file. -/
theorem backslashes_readLines (file : Text) : 2 * ((readLines file).map fun l => backslashes (text l)).sum ≤ backslashes file := by
  have h := backslashes_readFrom [] false file
  rw [readLines]
  simpa only [text, List.map_nil, backslashes_nil, Bool.false_eq_true, if_false, Nat.mul_zero, Nat.zero_add] using h

/-- The variables together have no more than the line. -/
theorem backslashes_pairOf (sep : Char → Bool) (line : List Read) :
    backslashes (pairOf sep line).1 + backslashes (pairOf sep line).2 ≤ backslashes (text line) := by
  unfold pairOf
  simp only
  generalize hl : line.dropWhile (isSep sep) = l
  have hline : backslashes (text l) ≤ backslashes (text line) := by
    rw [← hl]
    exact backslashes_sublist ((List.dropWhile_sublist _).map _)
  have hsplit : backslashes (text l) = backslashes (text (l.takeWhile fun x => !isSep sep x)) +
      backslashes (text (l.dropWhile fun x => !isSep sep x)) := by
    rw [← backslashes_append, text, text, text, ← List.map_append, List.takeWhile_append_dropWhile]
  have hrest : ∀ r : List Read, backslashes (text ((r.dropWhile (isSep sep)).rdropWhile (isSep sep))) ≤ backslashes (text r) :=
    fun r => backslashes_sublist (((List.rdropWhile_prefix _ _).sublist.trans (List.dropWhile_sublist _)).map _)
  have hrest := hrest (l.dropWhile fun x => !isSep sep x)
  omega

/-! ## Files without backslashes -/

def unescaped (t : Text) : List Read := t.map fun c => (c, false)

theorem text_unescaped (t : Text) : text (unescaped t) = t := by
  rw [text, unescaped, List.map_map]
  exact List.map_id t

theorem readFrom_front {u : Text} (hu : ∀ c ∈ u, c ≠ '\\' ∧ c ≠ '\n') (line : List Read) (t : Text) :
    readFrom line false (u ++ t) = readFrom ((unescaped u).reverse ++ line) false t := by
  induction u generalizing line with
  | nil => rfl
  | cons c u ih =>
    obtain ⟨hback, hnl⟩ := hu c List.mem_cons_self
    rw [List.cons_append, readFrom_cons, if_neg hback, if_neg hnl, ih fun d hd => hu d (List.mem_cons_of_mem c hd)]
    simp [unescaped]

/-- Lines without backslashes are read as they are. -/
theorem readLines_plain {ls : List Text} (hls : ∀ l ∈ ls, ∀ c ∈ l, c ≠ '\\' ∧ c ≠ '\n') :
    readLines (ls.flatMap fun l => l ++ ['\n']) = ls.map unescaped := by
  rw [readLines]
  induction ls with
  | nil => rfl
  | cons l ls ih =>
    rw [List.flatMap_cons, List.append_assoc, readFrom_front (hls l List.mem_cons_self), List.singleton_append, readFrom_cons,
      if_neg (by decide), if_pos rfl, ih fun m hm => hls m (List.mem_cons_of_mem l hm)]
    simp

section

variable {sep : Char → Bool}

theorem dropWhile_unescaped (t : Text) : (unescaped t).dropWhile (isSep sep) = unescaped (t.dropWhile sep) := List.dropWhile_map

theorem takeWhile_unescaped (t : Text) :
    ((unescaped t).takeWhile fun x => !isSep sep x) = unescaped (t.takeWhile fun c => !sep c) := List.takeWhile_map

theorem dropWhile_not_unescaped (t : Text) :
    ((unescaped t).dropWhile fun x => !isSep sep x) = unescaped (t.dropWhile fun c => !sep c) := List.dropWhile_map

theorem rdropWhile_unescaped (t : Text) : (unescaped t).rdropWhile (isSep sep) = unescaped (t.rdropWhile sep) := by
  have hrev : (unescaped t).reverse = unescaped t.reverse := List.map_reverse.symm
  rw [List.rdropWhile, hrev, dropWhile_unescaped, unescaped, ← List.map_reverse]
  rfl

/-- A word, a separator, and the rest of the line. -/
theorem pairOf_unescaped {u : Text} (hne : u ≠ []) (hu : ∀ c ∈ u, sep c = false) {c : Char} (hc : sep c = true) (t : Text) :
    pairOf sep (unescaped (u ++ c :: t)) = (u, (t.dropWhile sep).rdropWhile sep) := by
  have hword : ∀ d ∈ u, (!sep d) = true := fun d hd => by rw [hu d hd]; rfl
  have hfront : (u ++ c :: t).dropWhile sep = u ++ c :: t := by
    obtain ⟨d, v, rfl⟩ := List.exists_cons_of_ne_nil hne
    rw [List.cons_append, List.dropWhile_cons_of_neg (by simp [hu d List.mem_cons_self])]
  have htake : ((u ++ c :: t).takeWhile fun d => !sep d) = u := by
    rw [List.takeWhile_append_of_pos hword, List.takeWhile_cons_of_neg (by simp [hc]), List.append_nil]
  have hdrop : ((u ++ c :: t).dropWhile fun d => !sep d) = c :: t := by
    rw [List.dropWhile_append_of_pos hword, List.dropWhile_cons_of_neg (by simp [hc])]
  simp only [pairOf, dropWhile_unescaped, takeWhile_unescaped, dropWhile_not_unescaped, rdropWhile_unescaped, text_unescaped, hfront,
    htake, hdrop, List.dropWhile_cons_of_pos hc]

/-- Nothing is taken from the ends of a text that has no separators there. -/
theorem trimmed_iff (t : Text) :
    (t.dropWhile sep).rdropWhile sep = t ↔ (∀ c ∈ t.head?, sep c = false) ∧ ∀ c ∈ t.getLast?, sep c = false := by
  have hfront : t.dropWhile sep = t ↔ ∀ c ∈ t.head?, sep c = false := by
    cases t with
    | nil => simp
    | cons c t => simp
  have hback : t.rdropWhile sep = t ↔ ∀ c ∈ t.getLast?, sep c = false := by
    rw [List.rdropWhile_eq_self_iff]
    constructor
    · intro h c hc
      obtain ⟨hne, rfl⟩ := List.mem_getLast?_eq_getLast hc
      exact eq_false_of_ne_true (h hne)
    · intro h hne
      simp [h _ (List.getLast_mem_getLast? hne)]
  constructor
  · intro h
    have hle : t.length ≤ (t.dropWhile sep).length := by
      have hlen := (List.rdropWhile_prefix sep (t.dropWhile sep)).length_le
      rwa [h] at hlen
    have hdrop : t.dropWhile sep = t := (List.dropWhile_sublist sep).eq_of_length_le hle
    rw [hdrop] at h
    exact ⟨hfront.mp hdrop, hback.mp h⟩
  · rintro ⟨hf, hb⟩
    rw [hfront.mpr hf, hback.mpr hb]

end

end ZfsTest.Shell
