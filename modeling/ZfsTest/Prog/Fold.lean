import Mathlib.Data.List.Induction

/-!
# Runs of a machine that takes inputs

A machine is a function `step s i`; a run is the fold of its inputs. `foldl_induction` is the rule for invariants of runs whose
steps all meet a condition on the state before them; the invariant may speak about the inputs so far.
-/

namespace ZfsTest

variable {σ ι : Type*} {step : σ → ι → σ} {init : σ}

/-- A property of the states of a run: it holds at the start, and every step keeps it. -/
theorem foldl_induction {P : List ι → σ → Prop} {Ok : σ → ι → Prop} (hinit : P [] init)
    (hstep : ∀ pre s i, P pre s → Ok s i → P (pre ++ [i]) (step s i)) (is : List ι)
    (hok : ∀ pre i post, is = pre ++ i :: post → Ok (pre.foldl step init) i) : P is (is.foldl step init) := by
  induction is using List.reverseRecOn with
  | nil => exact hinit
  | append_singleton is i ih =>
    rw [List.foldl_append]
    refine hstep is _ i (ih fun pre j post hpre => hok pre j (post ++ [i]) ?_) (hok is i [] rfl)
    rw [hpre]
    simp

/-- A property that does not come back once it is lost holds at the end of a run exactly when each step meets the condition under which
it is kept. -/
theorem foldl_iff {Inv P : σ → Prop} {Ok : σ → ι → Prop} (hinv : Inv init) (hstep : ∀ s i, Inv s → Inv (step s i)) (hinit : P init)
    (hback : ∀ s i, Inv s → P (step s i) → P s) (hok : ∀ s i, Inv s → P s → (P (step s i) ↔ Ok s i)) (is : List ι) :
    P (is.foldl step init) ↔ ∀ pre i post, is = pre ++ i :: post → Ok (pre.foldl step init) i := by
  have hrun : ∀ is : List ι, Inv (is.foldl step init) := by
    intro is
    induction is using List.reverseRecOn with
    | nil => exact hinv
    | append_singleton is i ih =>
      rw [List.foldl_append]
      exact hstep _ i ih
  induction is using List.reverseRecOn with
  | nil => exact iff_of_true hinit fun pre i post hsplit => by simp at hsplit
  | append_singleton is i ih =>
    rw [List.foldl_append]
    constructor
    · intro h pre j post hsplit
      have hbefore := hback _ i (hrun is) h
      rcases List.eq_nil_or_concat post with rfl | ⟨post, k, rfl⟩
      · obtain ⟨rfl, hij⟩ := List.append_inj' hsplit rfl
        cases hij
        exact (hok _ i (hrun is) hbefore).mp h
      · refine ih.mp hbefore pre j post ?_
        rw [List.concat_eq_append, ← List.cons_append, ← List.append_assoc] at hsplit
        exact (List.append_inj' hsplit rfl).1
    · intro h
      have hbefore := ih.mpr fun pre j post hsplit => h pre j (post ++ [i]) (by rw [hsplit]; simp)
      exact (hok _ i (hrun is) hbefore).mpr (h is i [] rfl)

/-- The steps of a run, one by one. -/
theorem forall_steps {is : List ι} {Q : List ι → ι → Prop} (hall : ∀ k < is.length, ∀ i ∈ is[k]?, Q (is.take k) i) :
    ∀ pre i post, is = pre ++ i :: post → Q pre i := by
  rintro pre i post rfl
  have hk : pre.length < (pre ++ i :: post).length := by
    rw [List.length_append, List.length_cons]
    omega
  have hq := hall pre.length hk i (by simp)
  rwa [List.take_left] at hq

/-- A condition on each input of a run, with the inputs before it and behind it: at the first input and at the others. -/
theorem forall_split_cons {P : List ι → ι → List ι → Prop} {i : ι} {is : List ι} :
    (∀ pre j post, i :: is = pre ++ j :: post → P pre j post) ↔
      P [] i is ∧ ∀ pre j post, is = pre ++ j :: post → P (i :: pre) j post := by
  constructor
  · intro hall
    refine ⟨hall [] i is rfl, fun pre j post hsplit => hall (i :: pre) j post ?_⟩
    rw [hsplit, List.cons_append]
  · rintro ⟨hfirst, hrest⟩ pre j post hsplit
    cases pre with
    | nil =>
      rw [List.nil_append, List.cons.injEq] at hsplit
      obtain ⟨rfl, rfl⟩ := hsplit
      exact hfirst
    | cons k pre =>
      rw [List.cons_append, List.cons.injEq] at hsplit
      obtain ⟨rfl, hsplit⟩ := hsplit
      exact hrest pre j post hsplit

theorem forall_split_nil {P : List ι → ι → List ι → Prop} : ∀ pre j post, ([] : List ι) = pre ++ j :: post → P pre j post := by
  intro pre j post hsplit
  have hlen := congrArg List.length hsplit
  rw [List.length_append, List.length_cons, List.length_nil] at hlen
  omega

end ZfsTest
