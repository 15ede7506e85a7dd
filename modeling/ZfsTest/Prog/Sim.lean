import Mathlib.Logic.Function.Basic

/-!
# Simulation of a machine that answers calls

A machine is a partial function `run a w = some (r, w')`: the call `a` in state `w` answers `r` and leaves `w'`. Its
purpose is stated by a relation `step a r s s'` on abstract states. If every call of the machine is a step of the relation
(`Simulates`), then so is every sequence of calls (`Simulates.runAll`).
-/

namespace ZfsTest

variable {A R ω σ : Type*}

/-- Calls one after the other. -/
def runAll (run : A → ω → Option (R × ω)) : List A → ω → Option (List R × ω)
  | [], w => some ([], w)
  | a :: as, w =>
    match run a w with
    | none => none
    | some (r, w₁) => (runAll run as w₁).map fun x => (r :: x.1, x.2)

/-- Steps one after the other. -/
inductive Steps (step : A → R → σ → σ → Prop) : σ → List A → List R → σ → Prop
  | nil (s : σ) : Steps step s [] [] s
  | cons {s s₁ s' : σ} {a : A} {as : List A} {r : R} {rs : List R} (h : step a r s s₁) (hs : Steps step s₁ as rs s') :
      Steps step s (a :: as) (r :: rs) s'

/-- Every call is answered, by a step of the abstract states that belong to the states of the machine. -/
def Simulates (run : A → ω → Option (R × ω)) (step : A → R → σ → σ → Prop) (rel : ω → σ → Prop) : Prop :=
  ∀ a w s, rel w s → ∃ r w' s', run a w = some (r, w') ∧ step a r s s' ∧ rel w' s'

/-- A simulation of single calls is one of sequences. -/
theorem Simulates.runAll {run : A → ω → Option (R × ω)} {step : A → R → σ → σ → Prop} {rel : ω → σ → Prop}
    (hsim : Simulates run step rel) (as : List A) : ∀ {w : ω} {s : σ}, rel w s →
    ∃ rs w' s', runAll run as w = some (rs, w') ∧ Steps step s as rs s' ∧ rel w' s' := by
  induction as with
  | nil => exact fun {w s} h => ⟨[], w, s, rfl, .nil s, h⟩
  | cons a as ih =>
    intro w s h
    obtain ⟨r, w₁, s₁, he, hstep, h₁⟩ := hsim a w s h
    obtain ⟨rs, w', s', hrun, hsteps, h'⟩ := ih h₁
    refine ⟨r :: rs, w', s', ?_, .cons hstep hsteps, h'⟩
    simp only [ZfsTest.runAll, he, hrun, Option.map_some]

end ZfsTest
