import Mathlib.Data.List.Flatten
import Mathlib.Data.List.Nodup

/-!
# A list without what a test finds

Items are put at the end of a list, save those that a test finds in it; the test may err. The list that comes out has every key, and each
once, exactly when the test is right about each item in turn (`Tells`, `tells_iff`). Further when lists that are put together from parts
have the same parts (`flatMap_parts`, `parts_eq`).
-/

namespace ZfsTest

variable {α β : Type} (found : List α → α → Bool) (key : α → β)

/-- An item that the test does not find is put at the end. -/
def putNew (xs : List α) (x : α) : List α := if found xs x then xs else xs ++ [x]

/-- The test finds an item when one with its key is there, or one is to come, and only then. -/
def Tells : List α → List α → Prop
  | _, [] => True
  | xs, y :: ys =>
    if found xs y then (∃ z ∈ xs ++ ys, key z = key y) ∧ Tells xs ys else key y ∉ xs.map key ∧ Tells (xs ++ [y]) ys

variable {found key} {xs ys : List α}

theorem mem_foldl_putNew {x : α} (h : x ∈ ys.foldl (putNew found) xs) : x ∈ xs ∨ x ∈ ys := by
  induction ys generalizing xs with
  | nil => exact Or.inl h
  | cons y ys ih =>
    rcases ih h with hx | hx
    · unfold putNew at hx
      split at hx
      · exact Or.inl hx
      · rcases List.mem_append.mp hx with hx | hx
        · exact Or.inl hx
        · exact Or.inr (List.mem_cons.mpr (Or.inl (List.mem_singleton.mp hx)))
    · exact Or.inr (List.mem_cons_of_mem y hx)

theorem prefix_foldl_putNew (xs ys : List α) : xs <+: ys.foldl (putNew found) xs := by
  induction ys generalizing xs with
  | nil => exact List.prefix_rfl
  | cons y ys ih =>
    refine List.IsPrefix.trans ?_ (ih (putNew found xs y))
    unfold putNew
    split
    · exact List.prefix_rfl
    · exact List.prefix_append xs [y]

/-- In the end the keys are different, and none is missing, exactly when the test is right about each item. -/
theorem tells_iff : (((ys.foldl (putNew found) xs).map key).Nodup ∧ ∀ y ∈ ys, key y ∈ (ys.foldl (putNew found) xs).map key) ↔
    (xs.map key).Nodup ∧ Tells found key xs ys := by
  induction ys generalizing xs with
  | nil => simp [Tells]
  | cons y ys ih =>
    have hsub : ∀ z ∈ xs, key z ∈ ((y :: ys).foldl (putNew found) xs).map key := fun z hz =>
      List.mem_map_of_mem ((prefix_foldl_putNew xs (y :: ys)).subset hz)
    rw [List.forall_mem_cons, Tells]
    by_cases hfound : found xs y = true
    · have hput : putNew found xs y = xs := if_pos hfound
      rw [List.foldl_cons, hput] at hsub ⊢
      rw [if_pos hfound]
      constructor
      · rintro ⟨hnodup, hy, hys⟩
        obtain ⟨hxs, hseen⟩ := ih.mp ⟨hnodup, hys⟩
        obtain ⟨z, hz, hkey⟩ := List.mem_map.mp hy
        exact ⟨hxs, ⟨z, List.mem_append.mpr (mem_foldl_putNew hz), hkey⟩, hseen⟩
      · rintro ⟨hxs, ⟨z, hz, hkey⟩, hseen⟩
        obtain ⟨hnodup, hys⟩ := ih.mpr ⟨hxs, hseen⟩
        exact ⟨hnodup, hkey ▸ (List.mem_append.mp hz).elim (hsub z) (hys z), hys⟩
    · have hput : putNew found xs y = xs ++ [y] := if_neg hfound
      have hy : key y ∈ (ys.foldl (putNew found) (xs ++ [y])).map key :=
        List.mem_map_of_mem ((prefix_foldl_putNew (xs ++ [y]) ys).subset (List.mem_append_right xs List.mem_cons_self))
      have hconcat : ((xs ++ [y]).map key).Nodup ↔ (xs.map key).Nodup ∧ key y ∉ xs.map key := by
        rw [List.map_append, List.map_singleton, List.nodup_append_comm, List.singleton_append, List.nodup_cons, and_comm]
      rw [List.foldl_cons, hput, if_neg hfound]
      constructor
      · rintro ⟨hnodup, -, hys⟩
        obtain ⟨hxs, hseen⟩ := ih.mp ⟨hnodup, hys⟩
        exact ⟨(hconcat.mp hxs).1, (hconcat.mp hxs).2, hseen⟩
      · rintro ⟨hxs, hnew, hseen⟩
        obtain ⟨hnodup, hys⟩ := ih.mpr ⟨hconcat.mpr ⟨hxs, hnew⟩, hseen⟩
        exact ⟨hnodup, hy, hys⟩

/-- Lists that are put together from parts of the same lengths. -/
theorem flatMap_parts {f g : α → List β} (hlen : ∀ x ∈ xs, (f x).length = (g x).length) (h : xs.flatMap f = xs.flatMap g) :
    ∀ x ∈ xs, f x = g x := by
  induction xs with
  | nil => exact fun x hx => by cases hx
  | cons x xs ih =>
    rw [List.flatMap_cons, List.flatMap_cons] at h
    obtain ⟨hx, hxs⟩ := List.append_inj h (hlen x List.mem_cons_self)
    exact List.forall_mem_cons.mpr ⟨hx, ih (fun y hy => hlen y (List.mem_cons_of_mem x hy)) hxs⟩

/-- Two lists with a front and a back of different kinds. -/
theorem parts_eq {p : α → Bool} {as as' bs bs' : List α} (has : ∀ a ∈ as, p a = false) (has' : ∀ a ∈ as', p a = false)
    (hbs : ∀ b ∈ bs, p b = true) (hbs' : ∀ b ∈ bs', p b = true) (h : as ++ bs = as' ++ bs') : as = as' ∧ bs = bs' := by
  have hback : ∀ {xs ys : List α}, (∀ x ∈ xs, p x = false) → (∀ y ∈ ys, p y = true) → (xs ++ ys).filter p = ys := by
    intro xs ys hxs hys
    rw [List.filter_append, List.filter_eq_self.mpr hys, List.filter_eq_nil_iff.mpr fun x hx => by simp [hxs x hx], List.nil_append]
  have hsame : bs = bs' := by rw [← hback has hbs, h, hback has' hbs']
  exact ⟨List.append_cancel_right (hsame ▸ h), hsame⟩

end ZfsTest
