import Mathlib.Data.List.Basic
import ZfsTest.Text.Basic

/-!
# `split` and `join` of Tcl

`split` cuts a text at every occurrence of a character; of the empty text it makes the empty list. `join` puts a separator between the
elements of a list. The elements have no separator in them (`notMem_split`), and are found again (`split_join`).
-/

namespace ZfsTest.Tcl

/-- `split $t c`. -/
def split (c : Char) (t : Text) : List Text := if t = [] then [] else t.splitOn c

/-- `join $es c`. -/
def join (c : Char) (es : List Text) : Text := [c].intercalate es

/-- `lindex $es i`: nothing, for an index behind the end. -/
def lindex (es : List Text) (i : Nat) : Text := es.getD i []

/-- `lindex $es end`. -/
def lindexEnd (es : List Text) : Text := es.getLastD []

/-- `lreplace $es end end $e`. -/
def lreplaceEnd (es : List Text) (e : Text) : List Text := es.dropLast ++ [e]

variable {c : Char}

theorem split_of_ne {t : Text} (ht : t ≠ []) : split c t = t.splitOn c := if_neg ht

theorem join_split (t : Text) : join c (split c t) = t := by
  unfold split
  split
  · rename_i h
    rw [h]
    rfl
  · exact List.intercalate_splitOn c

/-- One separator. -/
theorem split_cons {u v : Text} (hu : c ∉ u) (hv : c ∉ v) : split c (u ++ c :: v) = [u, v] := by
  rw [split_of_ne (by simp), List.splitOn_append_cons_self_of_not_mem hu, List.splitOn_eq_singleton hv]

theorem notMem_splitOn (t : Text) : ∀ e ∈ t.splitOn c, c ∉ e := by
  induction t with
  | nil =>
    intro e he
    obtain rfl := List.mem_singleton.mp he
    exact List.not_mem_nil
  | cons d t ih =>
    intro e he
    rw [List.splitOn_cons_eq_if_modifyHead] at he
    split at he
    · rcases List.mem_cons.mp he with rfl | he
      · exact List.not_mem_nil
      · exact ih e he
    · rename_i hd
      have hd' : c ≠ d := fun h => hd (h ▸ beq_self_eq_true _)
      cases hs : t.splitOn c with
      | nil => exact absurd hs (List.splitOn_ne_nil c t)
      | cons u us =>
        rw [hs] at he ih
        rcases List.mem_cons.mp he with rfl | he
        · exact fun h => (List.mem_cons.mp h).elim hd' (ih u List.mem_cons_self)
        · exact ih e (List.mem_cons_of_mem _ he)

theorem notMem_split {t e : Text} (he : e ∈ split c t) : c ∉ e := by
  unfold split at he
  split at he
  · cases he
  · exact notMem_splitOn t e he

theorem split_join {es : List Text} (hes : ∀ e ∈ es, c ∉ e) (hempty : es ≠ [[]]) : split c (join c es) = es := by
  by_cases hne : es = []
  · subst hne
    rfl
  · have hsplit : (join c es).splitOn c = es := List.splitOn_intercalate c hes hne
    have hjoin : join c es ≠ [] := by
      intro h
      rw [h] at hsplit
      exact hempty hsplit.symm
    rw [split_of_ne hjoin, hsplit]

theorem split_ne_single (t : Text) : split c t ≠ [[]] := by
  intro h
  have ht := join_split (c := c) t
  rw [h] at ht
  obtain rfl : [] = t := ht
  cases h

end ZfsTest.Tcl
