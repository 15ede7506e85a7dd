import Mathlib.Logic.Basic

/-!
# Loops

A loop is given by one of its rounds: the round is the last one (`done`), goes on with another state (`next`), or has no meaning
(`fault`). `Loop.run` runs it with a bound for the rounds; `Loop.Ends` says that it ends, whatever the bound is from some number on.

Rules: a loop ends with a result that satisfies its postcondition when an invariant is kept and a measure gets smaller
(`exists_ends`); what a loop that ends has kept holds at its end (`Ends.post`); a loop that always goes on does not end
(`not_ends`).
-/

namespace ZfsTest

/-- What one round of a loop comes to. -/
inductive Round (σ β : Type*)
  | next (s : σ)
  | done (b : β)
  | fault

namespace Loop

variable {σ β : Type*}

/-- The loop, with a bound for its rounds. -/
def run (step : σ → Round σ β) : Nat → σ → Option β
  | 0, _ => none
  | fuel + 1, s =>
    match step s with
    | .next s' => run step fuel s'
    | .done b => some b
    | .fault => none

/-- The loop ends with a result, given enough rounds. -/
def Ends (step : σ → Round σ β) (s : σ) (b : β) : Prop := ∃ k, ∀ fuel, k ≤ fuel → run step fuel s = some b

variable {step : σ → Round σ β} {s s' : σ} {b b' : β}

theorem run_next (h : step s = .next s') (fuel : Nat) : run step (fuel + 1) s = run step fuel s' := by
  rw [run, h]

theorem ends_done (h : step s = .done b) : Ends step s b := by
  refine ⟨1, fun fuel hf => ?_⟩
  obtain ⟨fuel, rfl⟩ := Nat.exists_eq_add_of_le' hf
  rw [run, h]

theorem ends_next (h : step s = .next s') (he : Ends step s' b) : Ends step s b := by
  obtain ⟨k, hk⟩ := he
  refine ⟨k + 1, fun fuel hf => ?_⟩
  obtain ⟨n, rfl⟩ := Nat.exists_eq_add_of_le' hf
  rw [← Nat.add_assoc, run_next h]
  exact hk (n + k) (Nat.le_add_left k n)

theorem ends_next_iff (h : step s = .next s') : Ends step s b ↔ Ends step s' b := by
  refine ⟨fun ⟨k, hk⟩ => ⟨k, fun fuel hf => ?_⟩, ends_next h⟩
  rw [← run_next h]
  exact hk (fuel + 1) (Nat.le_succ_of_le hf)

theorem Ends.unique (h : Ends step s b) (h' : Ends step s b') : b = b' := by
  obtain ⟨k, hk⟩ := h
  obtain ⟨k', hk'⟩ := h'
  have hb := hk (max k k') (Nat.le_max_left k k')
  rw [hk' (max k k') (Nat.le_max_right k k')] at hb
  exact (Option.some.inj hb).symm

theorem ends_done_iff (h : step s = .done b) : Ends step s b' ↔ b' = b :=
  ⟨fun he => he.unique (ends_done h), fun hb => hb ▸ ends_done h⟩

/-! ## Rules -/

/-- Total correctness: an invariant, a measure and a postcondition. -/
theorem exists_ends {I : σ → Prop} {Q : β → Prop} (measure : σ → Nat)
    (h : ∀ s, I s → (∃ b, step s = .done b ∧ Q b) ∨ ∃ s', step s = .next s' ∧ I s' ∧ measure s' < measure s) (hs : I s) :
    ∃ b, Ends step s b ∧ Q b := by
  induction hm : measure s using Nat.strongRecOn generalizing s with
  | _ m ih =>
    rcases h s hs with ⟨b, hb, hpost⟩ | ⟨s', hnext, hs', hlt⟩
    · exact ⟨b, ends_done hb, hpost⟩
    · obtain ⟨b, hb, hpost⟩ := ih _ (hm ▸ hlt) hs' rfl
      exact ⟨b, ends_next hnext hb, hpost⟩

theorem run_post {I : σ → Prop} {Q : β → Prop} (hnext : ∀ s s', I s → step s = .next s' → I s')
    (hdone : ∀ s b, I s → step s = .done b → Q b) {fuel : Nat} (hs : I s) (hr : run step fuel s = some b) : Q b := by
  induction fuel generalizing s with
  | zero => cases hr
  | succ fuel ih =>
    rw [run] at hr
    cases hstep : step s with
    | next s' =>
      rw [hstep] at hr
      exact ih (hnext s s' hs hstep) hr
    | done c =>
      rw [hstep] at hr
      cases hr
      exact hdone s b hs hstep
    | fault =>
      rw [hstep] at hr
      cases hr

/-- Partial correctness. -/
theorem Ends.post {I : σ → Prop} {Q : β → Prop} (he : Ends step s b) (hs : I s)
    (hnext : ∀ s s', I s → step s = .next s' → I s') (hdone : ∀ s b, I s → step s = .done b → Q b) : Q b := by
  obtain ⟨k, hk⟩ := he
  exact run_post hnext hdone hs (hk k (Nat.le_refl k))

/-- A loop that goes on from every state of an invariant does not end. -/
theorem not_ends {I : σ → Prop} (h : ∀ s, I s → ∃ s', step s = .next s' ∧ I s') (hs : I s) : ¬Ends step s b := by
  intro he
  refine he.post (Q := fun _ => False) hs (fun s s' hs hstep => ?_) fun s b hs hstep => ?_
  · obtain ⟨t, ht, hi⟩ := h s hs
    rw [hstep] at ht
    cases ht
    exact hi
  · obtain ⟨t, ht, -⟩ := h s hs
    rw [hstep] at ht
    cases ht

end Loop

end ZfsTest
