import Mathlib.Data.List.Nodup

/-!
# Linked lists

`Chain next p l`: following the links `next` from `p` visits the nodes `l`, in this order, and ends. A chain depends
only on the links of its nodes (`Chain.congr`) and is what a bounded walk collects (`follow`, `Chain.follow_eq`). A node is cut out
by linking its predecessor to its successor (`Chain.unlink`).
-/

namespace ZfsTest

variable {α : Type}

/-- Following `next` from `p` visits `l` and ends. -/
def Chain (next : α → Option α) : Option α → List α → Prop
  | p, [] => p = none
  | p, a :: l => p = some a ∧ Chain next (next a) l

variable {next next' : α → Option α} {p : Option α} {l : List α}

@[simp] theorem chain_nil : Chain next p [] ↔ p = none := Iff.rfl

@[simp] theorem chain_cons {a : α} : Chain next p (a :: l) ↔ p = some a ∧ Chain next (next a) l := Iff.rfl

/-- A chain depends only on the links of its nodes. -/
theorem Chain.congr (h : Chain next p l) (he : ∀ a ∈ l, next' a = next a) : Chain next' p l := by
  induction l generalizing p with
  | nil => exact h
  | cons a l ih =>
    obtain ⟨hp, hl⟩ := h
    refine ⟨hp, ?_⟩
    rw [he a List.mem_cons_self]
    exact ih hl fun b hb => he b (List.mem_cons_of_mem _ hb)

/-- Cutting out the node `d` behind `a`: the link of `a` now skips `d`. -/
theorem Chain.unlink [DecidableEq α] {l₁ l₂ : List α} {a d : α} (h : Chain next p (l₁ ++ a :: d :: l₂))
    (hn : (l₁ ++ a :: d :: l₂).Nodup) (ha : next' a = next d) (he : ∀ b, b ≠ a → b ≠ d → next' b = next b) :
    Chain next' p (l₁ ++ a :: l₂) := by
  induction l₁ generalizing p with
  | nil =>
    obtain ⟨hp, -, hl⟩ := h
    refine ⟨hp, ?_⟩
    rw [ha]
    refine hl.congr fun b hb => he b ?_ ?_
    · rintro rfl
      simp [hb] at hn
    · rintro rfl
      simp [hb] at hn
  | cons c l₁ ih =>
    obtain ⟨hp, hl⟩ := h
    simp only [List.cons_append, List.nodup_cons, List.mem_append, List.mem_cons, not_or] at hn
    refine ⟨hp, ?_⟩
    rw [he c hn.1.2.1 hn.1.2.2.1]
    exact ih hl hn.2

/-! ## Bounded walks -/

/-- The nodes visited in at most `fuel` rounds. -/
def follow (next : α → Option α) : Nat → Option α → List α
  | 0, _ => []
  | _ + 1, none => []
  | fuel + 1, some a => a :: follow next fuel (next a)

/-- A walk with enough rounds collects the chain. -/
theorem Chain.follow_eq (h : Chain next p l) {fuel : Nat} (hf : l.length ≤ fuel) : follow next fuel p = l := by
  induction l generalizing p fuel with
  | nil =>
    rw [chain_nil] at h
    subst h
    cases fuel <;> rfl
  | cons a l ih =>
    obtain ⟨rfl, hl⟩ := h
    cases fuel with
    | zero => simp at hf
    | succ fuel =>
      rw [follow, ih hl (by simpa using hf)]

end ZfsTest
