import ZfsTest.Text.Basic

/-!
# `strcasecmp`

Two strings are compared character by character, with upper case letters as lower case ones. The order of strings that this gives is
transitive (`strcasecmp_trans`), and strings are equal in it when they are the same in lower case (`strcasecmp_eq_iff`).
-/

namespace ZfsTest

/-- The number that a character is compared by. -/
def folded (c : Char) : Nat := c.toLower.toNat

/-- The sign of what `strcasecmp` returns. -/
def strcasecmp : Text → Text → Ordering
  | [], [] => .eq
  | [], _ :: _ => .lt
  | _ :: _, [] => .gt
  | a :: s, b :: t => if folded a < folded b then .lt else if folded b < folded a then .gt else strcasecmp s t

theorem strcasecmp_trans {s t u : Text} (hst : strcasecmp s t ≠ .gt) (htu : strcasecmp t u = .lt) : strcasecmp s u = .lt := by
  induction s generalizing t u with
  | nil =>
    cases u with
    | nil =>
      cases t with
      | nil => cases htu
      | cons b t => cases htu
    | cons c u => rfl
  | cons a s ih =>
    cases t with
    | nil => exact absurd rfl hst
    | cons b t =>
      cases u with
      | nil => cases htu
      | cons c u =>
        rw [strcasecmp] at hst htu ⊢
        by_cases hab : folded a < folded b
        · by_cases hbc : folded c < folded b
          · rw [if_neg (by omega), if_pos hbc] at htu
            cases htu
          · rw [if_pos (by omega)]
        · by_cases hba : folded b < folded a
          · rw [if_neg hab, if_pos hba] at hst
            exact absurd rfl hst
          · -- the first characters of `s` and `t` are the same
            rw [if_neg hab, if_neg hba] at hst
            have heq : folded a = folded b := by omega
            rw [heq]
            by_cases hbc : folded b < folded c
            · rw [if_pos hbc]
            · rw [if_neg hbc] at htu ⊢
              by_cases hcb : folded c < folded b
              · rw [if_pos hcb] at htu
                cases htu
              · rw [if_neg hcb] at htu ⊢
                exact ih hst htu

theorem strcasecmp_swap (s t : Text) : strcasecmp t s = (strcasecmp s t).swap := by
  induction s generalizing t with
  | nil =>
    cases t with
    | nil => rfl
    | cons b t => rfl
  | cons a s ih =>
    cases t with
    | nil => rfl
    | cons b t =>
      rw [strcasecmp, strcasecmp]
      rcases Nat.lt_trichotomy (folded a) (folded b) with hab | hab | hab
      · rw [if_neg (by omega), if_pos hab, if_pos hab]
        rfl
      · rw [if_neg (by omega), if_neg (by omega), if_neg (by omega), if_neg (by omega), ih]
      · rw [if_pos hab, if_neg (by omega), if_pos hab]
        rfl

theorem strcasecmp_eq_iff (s t : Text) : strcasecmp s t = .eq ↔ s.map Char.toLower = t.map Char.toLower := by
  induction s generalizing t with
  | nil =>
    cases t with
    | nil => exact iff_of_true rfl rfl
    | cons b t => exact iff_of_false (fun h => by cases h) (fun h => by cases h)
  | cons a s ih =>
    cases t with
    | nil => exact iff_of_false (fun h => by cases h) (fun h => by cases h)
    | cons b t =>
      have hchar : a.toLower = b.toLower ↔ folded a = folded b := Char.toNat_inj.symm
      rw [strcasecmp, List.map_cons, List.map_cons, List.cons.injEq, hchar, ← ih]
      rcases Nat.lt_trichotomy (folded a) (folded b) with hab | hab | hab
      · rw [if_pos hab]
        exact iff_of_false (fun h => by cases h) fun h => by omega
      · rw [if_neg (by omega), if_neg (by omega)]
        exact (and_iff_right hab).symm
      · rw [if_neg (by omega), if_pos hab]
        exact iff_of_false (fun h => by cases h) fun h => by omega

end ZfsTest
