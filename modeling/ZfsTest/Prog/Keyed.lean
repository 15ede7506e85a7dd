import Mathlib.Data.Multiset.Filter

/-!
# Lists of pairs with equal keys

A search for a key in a list of pairs finds the first pair that has it. `dataFor k l` are the data of the key in the order in
which they are found: removing the first pair with the key takes the front off it (`dataFor_first`) and leaves the data of other
keys alone (`dataFor_other`).
-/

namespace ZfsTest

variable {κ β : Type*} [DecidableEq κ] {k : κ} {y : κ × β} {l l₁ l₂ : List (κ × β)}

/-- The data of a key. -/
def dataFor (k : κ) (l : List (κ × β)) : List β := (l.filter fun x => x.1 = k).map Prod.snd

theorem dataFor_append : dataFor k (l₁ ++ l₂) = dataFor k l₁ ++ dataFor k l₂ := by
  rw [dataFor, List.filter_append, List.map_append]
  rfl

theorem dataFor_eq_nil : dataFor k l = [] ↔ ∀ x ∈ l, x.1 ≠ k := by
  rw [dataFor, List.map_eq_nil_iff, List.filter_eq_nil_iff]
  constructor
  · intro h x hx hk
    exact h x hx (decide_eq_true hk)
  · intro h x hx hk
    exact h x hx (of_decide_eq_true hk)

theorem dataFor_cons_self : dataFor y.1 (y :: l) = y.2 :: dataFor y.1 l := by
  rw [dataFor, List.filter_cons_of_pos (by simp)]
  rfl

theorem dataFor_cons_of_ne (hy : y.1 ≠ k) : dataFor k (y :: l) = dataFor k l := by
  rw [dataFor, List.filter_cons_of_neg (by simpa using hy)]
  rfl

/-- The first pair with the key. -/
theorem dataFor_first (h : ∀ x ∈ l₁, x.1 ≠ y.1) : dataFor y.1 (l₁ ++ y :: l₂) = y.2 :: dataFor y.1 (l₁ ++ l₂) := by
  rw [dataFor_append, dataFor_append, dataFor_eq_nil.mpr h, dataFor_cons_self]
  rfl

/-- A pair with another key. -/
theorem dataFor_other (hy : y.1 ≠ k) : dataFor k (l₁ ++ y :: l₂) = dataFor k (l₁ ++ l₂) := by
  rw [dataFor_append, dataFor_append, dataFor_cons_of_ne hy]

theorem coe_dataFor : (dataFor k l : Multiset β) = ((l : Multiset (κ × β)).filter fun x => x.1 = k).map Prod.snd := by
  rw [Multiset.filter_coe, Multiset.map_coe]
  rfl

end ZfsTest
