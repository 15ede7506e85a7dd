import Mathlib.Data.Fintype.Card
import Mathlib.Logic.Relation

/-!
# Rounds of a meeting

What a barrier is for, in its own terms. Each of finitely many participants has a list of labels. In a round everybody who has not left
arrives with the next label of its list, all with one label; the last one to arrive lets them all go on. Who has no label left leaves.

Those who have not left are in the same round (`Reachable.level`), nobody is ahead of a label that somebody else has still to bring
(`Reachable.reached`), and the lists of those who have gone on agree as far as they have come (`Reachable.agree`).
-/

namespace ZfsTest

variable {ι L : Type}

/-- The rounds behind each participant, those who have arrived in this one, and those who have left. -/
structure Meeting (ι : Type) where
  done : ι → Nat
  here : Finset ι
  gone : Finset ι

namespace Meeting

def init (ι : Type) : Meeting ι := ⟨fun _ => 0, ∅, ∅⟩

variable (prog : ι → List L)

def label (m : Meeting ι) (i : ι) : Option L := (prog i)[m.done i]?

/-- In round `r`. -/
structure Level (prog : ι → List L) (m : Meeting ι) (r : Nat) : Prop where
  stay : ∀ i, i ∉ m.gone → m.done i = r
  left : ∀ i ∈ m.gone, m.done i = (prog i).length ∧ (prog i).length ≤ r
  bound : ∀ i, m.done i ≤ (prog i).length
  apart : ∀ i ∈ m.here, i ∉ m.gone
  same : ∀ i ∈ m.here, ∀ j ∈ m.here, m.label prog i = m.label prog j
  brings : ∀ i ∈ m.here, m.done i < (prog i).length
  agree : ∀ i j k, k < m.done i → k < m.done j → (prog i)[k]? = (prog j)[k]?

theorem Level.init : Level prog (.init ι) 0 where
  stay _ _ := rfl
  left i hi := absurd hi (Finset.notMem_empty i)
  bound _ := Nat.zero_le _
  apart i hi := absurd hi (Finset.notMem_empty i)
  same i hi := absurd hi (Finset.notMem_empty i)
  brings i hi := absurd hi (Finset.notMem_empty i)
  agree _ _ _ hk := absurd hk (Nat.not_lt_zero _)

/-! ## Steps -/

variable [Fintype ι] [DecidableEq ι]

/-- When everybody who has not left is here, they all go on. -/
def settle (m : Meeting ι) : Meeting ι :=
  if m.here = m.goneᶜ then { m with done := fun i => if i ∈ m.here then m.done i + 1 else m.done i, here := ∅ } else m

inductive Step (m : Meeting ι) : Meeting ι → Prop
  | arrive (i : ι) (l : L) (hhere : i ∉ m.here) (hgone : i ∉ m.gone) (hl : m.label prog i = some l)
      (hsame : ∀ j ∈ m.here, m.label prog j = some l) : Step m { m with here := insert i m.here }.settle
  | leave (i : ι) (hhere : i ∉ m.here) (hgone : i ∉ m.gone) (hl : m.label prog i = none) :
      Step m { m with gone := insert i m.gone }.settle

inductive Reachable : Meeting ι → Prop
  | init : Reachable (.init ι)
  | step {m m' : Meeting ι} (h : Reachable m) (hs : Step prog m m') : Reachable m'

variable {prog} {m : Meeting ι}

/-- The next round, when everybody is here. -/
theorem Level.next {r : Nat} (h : Level prog m r) (hall : m.here = m.goneᶜ) : Level prog m.settle (r + 1) := by
  have hhere : ∀ i, i ∈ m.here ↔ i ∉ m.gone := fun i => by rw [hall, Finset.mem_compl]
  have hin : ∀ i ∈ m.here, (if i ∈ m.here then m.done i + 1 else m.done i) = r + 1 := fun i hi => by
    rw [if_pos hi, h.stay i (h.apart i hi)]
  have hout : ∀ i ∉ m.here, (if i ∈ m.here then m.done i + 1 else m.done i) = m.done i := fun i hi => if_neg hi
  have hlabel : ∀ i ∈ m.here, m.label prog i = (prog i)[r]? := fun i hi => by rw [label, h.stay i (h.apart i hi)]
  rw [settle, if_pos hall]
  constructor
  · exact fun i hi => hin i ((hhere i).mpr hi)
  · intro i hi
    have hnot : i ∉ m.here := fun hmem => h.apart i hmem hi
    exact ⟨(hout i hnot).trans (h.left i hi).1, Nat.le_succ_of_le (h.left i hi).2⟩
  · intro i
    by_cases hi : i ∈ m.here
    · have hlt := h.brings i hi
      exact (if_pos hi).trans_le hlt
    · exact (if_neg hi).trans_le (h.bound i)
  · exact fun i hi => absurd hi (Finset.notMem_empty i)
  · exact fun i hi => absurd hi (Finset.notMem_empty i)
  · exact fun i hi => absurd hi (Finset.notMem_empty i)
  · -- a round is new to both, or the lists agreed on it before
    intro i j k hki hkj
    have hold : ∀ {i : ι}, k < (if i ∈ m.here then m.done i + 1 else m.done i) → k < m.done i ∨ i ∈ m.here ∧ k = r := by
      intro i hk
      by_cases hi : i ∈ m.here
      · rw [hin i hi] at hk
        rcases Nat.lt_succ_iff_lt_or_eq.mp hk with hk | hk
        · exact Or.inl ((h.stay i (h.apart i hi)).symm ▸ hk)
        · exact Or.inr ⟨hi, hk⟩
      · exact Or.inl (hout i hi ▸ hk)
    have hlate : ∀ {i j : ι}, i ∈ m.here → k = r → k < m.done j → (prog i)[k]? = (prog j)[k]? := by
      rintro i j hi rfl hk
      have hle : m.done j ≤ k := by
        by_cases hj : j ∈ m.gone
        · exact (h.left j hj).1.trans_le (h.left j hj).2
        · exact (h.stay j hj).le
      exact absurd hk (Nat.not_lt.mpr hle)
    rcases hold hki with hi | ⟨hi, rfl⟩
    · rcases hold hkj with hj | ⟨hj, rfl⟩
      · exact h.agree i j k hi hj
      · exact (hlate hj rfl hi).symm
    · rcases hold hkj with hj | ⟨hj, -⟩
      · exact hlate hi rfl hj
      · rw [← hlabel i hi, ← hlabel j hj]
        exact h.same i hi j hj

theorem Level.settle {r : Nat} (h : Level prog m r) : ∃ r', r ≤ r' ∧ Level prog m.settle r' := by
  by_cases hall : m.here = m.goneᶜ
  · exact ⟨r + 1, Nat.le_succ r, h.next hall⟩
  · rw [Meeting.settle, if_neg hall]
    exact ⟨r, le_rfl, h⟩

theorem Level.step {r : Nat} {m' : Meeting ι} (h : Level prog m r) (hs : Step prog m m') : ∃ r', Level prog m' r' := by
  cases hs with
  | arrive i l hhere hgone hl hsame =>
    have hlabel : ∀ j ∈ insert i m.here, m.label prog j = some l := by
      intro j hj
      rcases Finset.mem_insert.mp hj with rfl | hj
      · exact hl
      · exact hsame j hj
    have hin : Level prog { m with here := insert i m.here } r := by
      refine ⟨h.stay, h.left, h.bound, fun j hj => ?_, fun j hj k hk => (hlabel j hj).trans (hlabel k hk).symm, fun j hj => ?_, h.agree⟩
      · rcases Finset.mem_insert.mp hj with rfl | hj
        · exact hgone
        · exact h.apart j hj
      · exact (List.getElem?_eq_some_iff.mp (hlabel j hj)).1
    obtain ⟨r', -, hr'⟩ := hin.settle
    exact ⟨r', hr'⟩
  | leave i hhere hgone hl =>
    have hdone : m.done i = (prog i).length := Nat.le_antisymm (h.bound i) (List.getElem?_eq_none_iff.mp hl)
    have hout : Level prog { m with gone := insert i m.gone } r := by
      refine ⟨fun j hj => ?_, fun j hj => ?_, h.bound, fun j hj hmem => ?_, h.same, h.brings, h.agree⟩
      · exact h.stay j fun hmem => hj (Finset.mem_insert_of_mem hmem)
      · rcases Finset.mem_insert.mp hj with rfl | hj
        · exact ⟨hdone, (hdone.symm.trans (h.stay j hgone)).le⟩
        · exact h.left j hj
      · rcases Finset.mem_insert.mp hmem with rfl | hmem
        · exact hhere hj
        · exact h.apart j hj hmem
    obtain ⟨r', -, hr'⟩ := hout.settle
    exact ⟨r', hr'⟩

/-! ## Reachable meetings -/

theorem Reachable.level (h : Reachable prog m) : ∃ r, Level prog m r := by
  induction h with
  | init => exact ⟨0, .init prog⟩
  | step _ hs ih =>
    obtain ⟨r, hr⟩ := ih
    exact hr.step hs

/-- Somebody with a label `k` is at least at this label when anybody else is past it. -/
theorem Reachable.reached (h : Reachable prog m) {i j : ι} {k : Nat} (hi : k < m.done i) (hj : k < (prog j).length) : k < m.done j := by
  obtain ⟨r, hr⟩ := h.level
  have hround : m.done i ≤ r := by
    by_cases hgone : i ∈ m.gone
    · exact (hr.left i hgone).1.trans_le (hr.left i hgone).2
    · exact (hr.stay i hgone).le
  by_cases hgone : j ∈ m.gone
  · exact (hr.left j hgone).1.symm ▸ hj
  · exact (hr.stay j hgone).symm ▸ hi.trans_le hround

theorem Reachable.agree (h : Reachable prog m) {i j : ι} {k : Nat} (hi : k < m.done i) (hj : k < m.done j) :
    (prog i)[k]? = (prog j)[k]? := by
  obtain ⟨r, hr⟩ := h.level
  exact hr.agree i j k hi hj

/-- While somebody is here, somebody else is still to come. -/
theorem Reachable.open (h : Reachable prog m) (hne : m.here.Nonempty) : m.here ≠ m.goneᶜ := by
  have hsettle : ∀ m : Meeting ι, m.settle.here.Nonempty → m.settle.here ≠ m.settle.goneᶜ := by
    intro m hne
    by_cases hall : m.here = m.goneᶜ
    · rw [settle, if_pos hall] at hne
      exact absurd hne Finset.not_nonempty_empty
    · rwa [settle, if_neg hall]
  cases h with
  | init => exact absurd hne Finset.not_nonempty_empty
  | step _ hs =>
    cases hs with
    | arrive => exact hsettle _ hne
    | leave => exact hsettle _ hne

end Meeting

end ZfsTest
