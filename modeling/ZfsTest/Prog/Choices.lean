import Mathlib.Data.List.Forall2
import Mathlib.Data.Multiset.Bind
import Mathlib.Algebra.BigOperators.Group.List.Basic

/-!
# Choices from a list of lists

`choices` is what nested loops run through, one loop for each list and the first one outermost. It holds every choice of one element
from each list (`mem_choices`) in lexicographic order (`pairwise_choices`), and up to the order the same choices whichever way the
loops are nested (`choices_reverse_perm`). An element that stands twice in its list makes two choices: `enumerates_choices` tells
them apart by their positions.
-/

namespace ZfsTest

variable {α β : Type*}

/-- One element from each list; the first list is the slowest. -/
def choices : List (List α) → List (List α)
  | [] => [[]]
  | V :: Vs => V.flatMap fun v => (choices Vs).map fun c => v :: c

theorem choices_nil : choices ([] : List (List α)) = [[]] := rfl

theorem choices_cons (V : List α) (Vs : List (List α)) : choices (V :: Vs) = V.flatMap fun v => (choices Vs).map fun c => v :: c := rfl

theorem mem_choices {Vs : List (List α)} {c : List α} : c ∈ choices Vs ↔ List.Forall₂ (fun v V => v ∈ V) c Vs := by
  induction Vs generalizing c with
  | nil => simp [choices_nil]
  | cons V Vs ih =>
    rw [choices_cons, List.mem_flatMap]
    constructor
    · rintro ⟨v, hv, hc⟩
      obtain ⟨d, hd, rfl⟩ := List.mem_map.mp hc
      exact .cons hv (ih.mp hd)
    · rintro (_ | ⟨hv, hd⟩)
      exact ⟨_, hv, List.mem_map_of_mem (ih.mpr hd)⟩

theorem length_choices (Vs : List (List α)) : (choices Vs).length = (Vs.map List.length).prod := by
  induction Vs with
  | nil => rfl
  | cons V Vs ih => simp [choices_cons, List.length_flatMap, ih]

theorem choices_map (f : α → β) (Vs : List (List α)) : choices (Vs.map (List.map f)) = (choices Vs).map (List.map f) := by
  induction Vs with
  | nil => rfl
  | cons V Vs ih => simp [choices_cons, ih, List.flatMap_map, List.map_flatMap, Function.comp_def]

/-- The choices come in lexicographic order. -/
theorem pairwise_choices {r : α → α → Prop} {Vs : List (List α)} (h : ∀ V ∈ Vs, V.Pairwise r) :
    (choices Vs).Pairwise (List.Lex r) := by
  induction Vs with
  | nil => exact List.pairwise_singleton _ _
  | cons V Vs ih =>
    obtain ⟨hV, hVs⟩ := List.forall_mem_cons.mp h
    rw [choices_cons, List.pairwise_flatMap]
    constructor
    · intro v _
      exact (ih hVs).map _ fun _ _ hcd => .cons hcd
    · apply hV.imp
      intro v w hvw c hc d hd
      obtain ⟨c, -, rfl⟩ := List.mem_map.mp hc
      obtain ⟨d, -, rfl⟩ := List.mem_map.mp hd
      exact .rel hvw

/-! ## The other nesting -/

theorem choices_concat (Vs : List (List α)) (V : List α) :
    choices (Vs ++ [V]) = (choices Vs).flatMap fun c => V.map fun v => c ++ [v] := by
  induction Vs with
  | nil => simp [choices_nil, choices_cons, List.map_eq_flatMap]
  | cons W Vs ih => simp [choices_cons, ih, List.flatMap_assoc, List.flatMap_map, List.map_flatMap, Function.comp_def]

/-- Two loops may be swapped. -/
theorem flatMap_map_perm {γ : Type*} (l : List α) (m : List β) (f : α → β → γ) :
    (l.flatMap fun a => m.map (f a)).Perm (m.flatMap fun b => l.map fun a => f a b) := by
  have h := Multiset.bind_map_comm (l : Multiset α) (m : Multiset β) (f := f)
  simp only [Multiset.map_coe, Multiset.coe_bind] at h
  exact Multiset.coe_eq_coe.mp h

theorem choices_reverse_perm (Vs : List (List α)) : (choices Vs.reverse).Perm ((choices Vs).map List.reverse) := by
  induction Vs with
  | nil => exact .refl _
  | cons V Vs ih =>
    have hswap := flatMap_map_perm (choices Vs.reverse) V fun c v => c ++ [v]
    rw [List.reverse_cons, choices_concat]
    apply hswap.trans
    rw [choices_cons, List.map_flatMap]
    refine List.Perm.flatMap_left _ fun v _ => ?_
    have hmap := ih.map fun c => c ++ [v]
    simpa [Function.comp_def] using hmap

/-! ## Positions -/

/-- Every choice of one element from each list, with the positions of the elements, once and in lexicographic order of the
positions. -/
structure Enumerates (Vs : List (List α)) (cs : List (List (α × Nat))) : Prop where
  mem : ∀ c, c ∈ cs ↔ List.Forall₂ (fun (v : α × Nat) V => V[v.2]? = some v.1) c Vs
  sorted : cs.Pairwise (List.Lex fun v w => v.2 < w.2)

theorem pairwise_zipIdx (V : List α) : V.zipIdx.Pairwise fun v w => v.2 < w.2 := by
  have h : (V.zipIdx.map Prod.snd).Pairwise (· < ·) := by
    rw [List.zipIdx_map_snd]
    exact List.pairwise_lt_range'
  exact List.pairwise_map.mp h

theorem enumerates_choices (Vs : List (List α)) : Enumerates Vs (choices (Vs.map fun V => V.zipIdx)) where
  mem c := by
    rw [mem_choices, List.forall₂_map_right_iff]
    simp only [List.mem_zipIdx_iff_getElem?]
  sorted := by
    refine pairwise_choices fun V hV => ?_
    obtain ⟨W, -, rfl⟩ := List.mem_map.mp hV
    exact pairwise_zipIdx W

theorem choices_zipIdx (Vs : List (List α)) :
    (choices (Vs.map fun V => V.zipIdx)).map (List.map Prod.fst) = choices Vs := by
  rw [← choices_map, List.map_map]
  have hid : (List.map Prod.fst ∘ fun V : List α => V.zipIdx) = id := by
    funext V
    exact List.zipIdx_map_fst 0 V
  rw [hid, List.map_id]

end ZfsTest
