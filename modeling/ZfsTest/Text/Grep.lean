import Mathlib.Data.List.Forall2
import Mathlib.Data.List.Infix
import Mathlib.Data.List.TakeWhile
import ZfsTest.Text.Separated
import ZfsTest.Text.Words

/-!
# Searching lines with basic regular expressions

What `grep` finds, for expressions of characters, dots and `[0-9]*`; other special characters are not read. A dot stands for every
character, and the match may begin and end anywhere in the line. So an expression that is made of a text with a number in it is found in
each line that reads like it (`found_numbered`), and with dots in the text these are not only the lines that contain it.
-/

namespace ZfsTest.Grep

inductive Piece
  | char (c : Char)
  | any
  | digits
  deriving DecidableEq, Repr

def ofChar (c : Char) : Piece := if c = '.' then .any else .char c

def pieces : Text → List Piece
  | [] => []
  | '[' :: '0' :: '-' :: '9' :: ']' :: '*' :: t => .digits :: pieces t
  | c :: t => ofChar c :: pieces t

/-- The pieces fit the front of a text. -/
def fits : List Piece → Text → Bool
  | [], _ => true
  | .char _ :: _, [] => false
  | .char c :: ps, d :: t => c = d && fits ps t
  | .any :: _, [] => false
  | .any :: ps, _ :: t => fits ps t
  | .digits :: ps, t => (List.range ((t.takeWhile Char.isDigit).length + 1)).any fun n => fits ps (t.drop n)

/-- The expression is found in a line. -/
def found (p line : Text) : Bool := line.tails.any (fits (pieces p))

/-- `grep p` on a file finds a line. -/
def grep (p t : Text) : Bool := (linesOf t).any (found p)

/-- The lines that `grep p` prints. -/
def matching (p t : Text) : List Text := (linesOf t).filter (found p)

/-! ## What is found -/

/-- A text that reads like `w` when each dot stands for a character. -/
def Like (w t : Text) : Prop := List.Forall₂ (fun c d => c = '.' ∨ c = d) w t

instance (w t : Text) : Decidable (Like w t) := inferInstanceAs (Decidable (List.Forall₂ _ w t))

theorem like_self (w : Text) : Like w w := List.forall₂_same.mpr fun _ _ => .inr rfl

theorem pieces_word {w : Text} (hw : '[' ∉ w) (t : Text) : pieces (w ++ t) = w.map ofChar ++ pieces t := by
  induction w with
  | nil => rfl
  | cons c w ih =>
    have hc : c ≠ '[' := by
      rintro rfl
      exact hw List.mem_cons_self
    rw [List.cons_append, List.map_cons, List.cons_append, ← ih fun h => hw (List.mem_cons_of_mem c h), pieces.eq_def]
    split
    · rename_i h
      cases h
    · rename_i h
      exact absurd (List.cons.inj h).1 hc
    · rename_i h
      cases h
      rfl

theorem fits_word (w : Text) (ps : List Piece) (t : Text) :
    fits (w.map ofChar ++ ps) t = true ↔ ∃ u r, t = u ++ r ∧ Like w u ∧ fits ps r = true := by
  induction w generalizing t with
  | nil =>
    constructor
    · exact fun h => ⟨[], t, rfl, .nil, h⟩
    · rintro ⟨u, r, rfl, hu, h⟩
      cases hu
      exact h
  | cons c w ih =>
    have hcons : fits ((c :: w).map ofChar ++ ps) t = true ↔
        ∃ d t', t = d :: t' ∧ (c = '.' ∨ c = d) ∧ fits (w.map ofChar ++ ps) t' = true := by
      by_cases hc : c = '.'
      · subst hc
        cases t <;> simp [ofChar, fits]
      · cases t <;> simp [ofChar, fits, hc]
    rw [hcons]
    constructor
    · rintro ⟨d, t', rfl, hd, h⟩
      obtain ⟨u, r, rfl, hu, hr⟩ := (ih t').mp h
      exact ⟨d :: u, r, rfl, .cons hd hu, hr⟩
    · rintro ⟨u, r, rfl, hu, hr⟩
      cases hu with
      | cons hd hu => exact ⟨_, _, rfl, hd, (ih _).mpr ⟨_, r, rfl, hu, hr⟩⟩

theorem fits_digits (ps : List Piece) (t : Text) :
    fits (.digits :: ps) t = true ↔ ∃ id r, t = id ++ r ∧ (∀ c ∈ id, c.isDigit = true) ∧ fits ps r = true := by
  rw [fits, List.any_eq_true]
  constructor
  · rintro ⟨n, hn, h⟩
    refine ⟨t.take n, t.drop n, (List.take_append_drop n t).symm, fun c hc => ?_, h⟩
    have hfront : t.take n <+: t.takeWhile Char.isDigit := by
      apply List.prefix_of_prefix_length_le (List.take_prefix n t) (List.takeWhile_prefix _)
      have hlt := List.mem_range.mp hn
      have hle := List.length_take_le n t
      omega
    exact List.mem_takeWhile_imp (hfront.subset hc)
  · rintro ⟨id, r, rfl, hid, h⟩
    refine ⟨id.length, List.mem_range.mpr ?_, by rwa [List.drop_left]⟩
    rw [List.takeWhile_append_of_pos hid, List.length_append]
    omega

/-- A text, a number, and a text. -/
theorem found_numbered {v w line : Text} (hv : '[' ∉ v) (hw : '[' ∉ w) :
    found (v ++ "[0-9]*".toList ++ w) line = true ↔
      ∃ pre v' id w' post, line = pre ++ (v' ++ (id ++ (w' ++ post))) ∧ Like v v' ∧ (∀ c ∈ id, c.isDigit = true) ∧ Like w w' := by
  have hpieces : pieces (v ++ "[0-9]*".toList ++ w) = v.map ofChar ++ Piece.digits :: (w.map ofChar ++ []) := by
    have hback := pieces_word hw []
    rw [List.append_nil] at hback
    rw [List.append_assoc, pieces_word hv]
    show v.map ofChar ++ Piece.digits :: pieces w = _
    rw [hback]
    rfl
  rw [found, hpieces, List.any_eq_true]
  constructor
  · rintro ⟨t, ht, h⟩
    obtain ⟨pre, rfl⟩ := (List.mem_tails t line).mp ht
    obtain ⟨v', t, rfl, hv', h⟩ := (fits_word v _ t).mp h
    obtain ⟨id, t, rfl, hid, h⟩ := (fits_digits _ t).mp h
    obtain ⟨w', post, rfl, hw', -⟩ := (fits_word w _ t).mp h
    exact ⟨pre, v', id, w', post, rfl, hv', hid, hw'⟩
  · rintro ⟨pre, v', id, w', post, rfl, hv', hid, hw'⟩
    refine ⟨_, (List.mem_tails _ _).mpr ⟨pre, rfl⟩, (fits_word v _ _).mpr ⟨v', _, rfl, hv', ?_⟩⟩
    exact (fits_digits _ _).mpr ⟨id, _, rfl, hid, (fits_word w _ _).mpr ⟨w', post, rfl, hw', rfl⟩⟩

/-! ## Literal texts -/

def Literal (p : Text) : Prop := ∀ c ∈ p, c ≠ '.' ∧ c ≠ '['

theorem found_literal {p : Text} (hp : Literal p) (line : Text) : found p line = true ↔ p <:+: line := by
  have hpieces : pieces p = p.map ofChar ++ [] := by
    have h := pieces_word (fun h => (hp _ h).2 rfl) []
    rwa [List.append_nil] at h
  have hlike : ∀ u, Like p u ↔ u = p := by
    intro u
    constructor
    · intro h
      have heq : List.Forall₂ Eq p u := by
        refine List.Forall₂.imp ?_ (List.forall₂_and_left (l := p) (u := u) |>.mpr ⟨fun c hc => hp c hc, h⟩)
        rintro c d ⟨hc, hcd⟩
        exact hcd.resolve_left hc.1
      exact (List.forall₂_eq_eq_eq ▸ heq : p = u).symm
    · rintro rfl
      exact like_self u
  rw [found, hpieces, List.any_eq_true]
  constructor
  · rintro ⟨t, ht, h⟩
    obtain ⟨pre, rfl⟩ := (List.mem_tails t line).mp ht
    obtain ⟨u, r, rfl, hu, -⟩ := (fits_word p [] t).mp h
    rw [(hlike u).mp hu]
    exact ⟨pre, r, by simp⟩
  · rintro ⟨x, y, rfl⟩
    exact ⟨p ++ y, (List.mem_tails _ _).mpr ⟨x, by simp⟩, (fits_word p [] _).mpr ⟨p, y, rfl, like_self p, rfl⟩⟩

/-- A piece without newlines stands in a line. -/
theorem exists_line {g t : Text} (hg : '\n' ∉ g) (hne : g ≠ []) (h : g <:+: t) : ∃ l ∈ linesOf t, g <:+: l := by
  induction t using lines_induction with
  | hsingle u hu =>
    have hu' : u ≠ [] := by
      rintro rfl
      exact hne (List.infix_nil.mp h)
    exact ⟨u, by rw [linesOf_single hu hu']; exact List.mem_cons_self, h⟩
  | hline u t hu ih =>
    rw [linesOf_line hu]
    rcases infix_of_separator hg h with h | h
    · exact ⟨u, List.mem_cons_self, h⟩
    · obtain ⟨l, hl, hgl⟩ := ih h
      exact ⟨l, List.mem_cons_of_mem u hl, hgl⟩

/-! ## The printed lines -/

section

variable {sp : Char → Bool} {m : Text} (hm : Literal m) (hne : m ≠ []) (hsp : ∀ c ∈ m, sp c = false) (hnewline : sp '\n' = true)

include hm in
theorem mem_matching {l t : Text} : l ∈ matching m t ↔ l ∈ linesOf t ∧ m <:+: l := by
  rw [matching, List.mem_filter, found_literal hm]

include hm hne hsp hnewline in
theorem matching_ne_nil {t : Text} (h : m <:+: t) : matching m t ≠ [] := by
  have hmline : '\n' ∉ m := fun hmem => by
    rw [hsp _ hmem] at hnewline
    cases hnewline
  obtain ⟨l, hl, hml⟩ := exists_line hmline hne h
  exact List.ne_nil_of_mem ((mem_matching hm).mpr ⟨hl, hml⟩)

end

end ZfsTest.Grep
