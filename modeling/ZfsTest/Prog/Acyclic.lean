import Mathlib.Data.Set.Finite.Basic
import Mathlib.Logic.Relation
import Mathlib.Order.WellFounded

/-!
# Relations without cycles on a list

`Acyclic r l` says that no chain of `r` through elements of `l` comes back to where it began. Every part of `l` that is not empty then
has an element to which no element of the part is related (`Acyclic.exists_top`).
-/

namespace ZfsTest

variable {α : Type*}

/-- `r` between elements of a list. -/
def RelatedIn (r : α → α → Prop) (l : List α) (x y : α) : Prop := x ∈ l ∧ y ∈ l ∧ r x y

/-- A chain of `r` through elements of a list. -/
abbrev Chained (r : α → α → Prop) (l : List α) : α → α → Prop := Relation.TransGen (RelatedIn r l)

def Acyclic (r : α → α → Prop) (l : List α) : Prop := ∀ x, ¬Chained r l x x

variable {r : α → α → Prop} {l m : List α}

theorem Acyclic.irrefl (h : Acyclic r l) {x : α} (hx : x ∈ l) : ¬r x x := fun hr => h x (.single ⟨hx, hx, hr⟩)

/-- A relation that goes down has no cycles. -/
theorem acyclic_of_lt (f : α → Nat) (h : ∀ x y, r x y → f y < f x) : Acyclic r l := by
  have hlt : ∀ x y, Chained r l x y → f y < f x := by
    intro x y hxy
    induction hxy with
    | single hr => exact h _ _ hr.2.2
    | tail _ hr ih => exact Nat.lt_trans (h _ _ hr.2.2) ih
  exact fun x hx => Nat.lt_irrefl _ (hlt x x hx)

theorem Acyclic.exists_top (h : Acyclic r l) (hm : m ⊆ l) (hne : m ≠ []) : ∃ q ∈ m, ∀ p ∈ m, ¬r p q := by
  -- the chains order the elements of the part, which are finitely many
  let below : {x // x ∈ m} → {x // x ∈ m} → Prop := fun p q => Chained r l p.1 q.1
  have htrans : IsTrans {x // x ∈ m} below := ⟨fun _ _ _ hab hbc => hab.trans hbc⟩
  have hirrefl : Std.Irrefl below := ⟨fun q => h q.1⟩
  have hfinite : Finite {x // x ∈ m} := (List.finite_toSet m).to_subtype
  have hwf : WellFounded below := Finite.wellFounded_of_trans_of_irrefl below
  obtain ⟨x, hx⟩ := List.exists_mem_of_ne_nil m hne
  obtain ⟨q, -, hq⟩ := hwf.has_min Set.univ ⟨⟨x, hx⟩, trivial⟩
  exact ⟨q.1, q.2, fun p hp hr => hq ⟨p, hp⟩ trivial (.single ⟨hm hp, hm q.2, hr⟩)⟩

end ZfsTest
