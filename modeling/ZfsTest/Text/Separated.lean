import Mathlib.Data.List.Infix
import Mathlib.Data.List.TakeWhile
import ZfsTest.Text.Basic

/-!
# Texts with separators

`[c].intercalate os` are the texts of `os` with a `c` between two of them. When the texts have no `c` in them, each `c` stands between a
front and a rest of the list (`intercalate_cut`).
-/

namespace ZfsTest

variable {c : Char}

/-! ## The first separator -/

theorem ne_of_notMem {t : Text} (ht : c ∉ t) : ∀ d ∈ t, decide (d ≠ c) = true := by
  intro d hd
  rw [decide_eq_true_eq]
  rintro rfl
  exact ht hd

theorem takeWhile_separator {t : Text} (ht : c ∉ t) (r : Text) : (t ++ c :: r).takeWhile (· ≠ c) = t := by
  rw [List.takeWhile_append_of_pos (ne_of_notMem ht), List.takeWhile_cons_of_neg, List.append_nil]
  simp

theorem dropWhile_separator {t : Text} (ht : c ∉ t) (r : Text) : (t ++ c :: r).dropWhile (· ≠ c) = c :: r := by
  rw [List.dropWhile_append_of_pos (ne_of_notMem ht), List.dropWhile_cons_of_neg]
  simp

/-! ## Joined texts -/

theorem intercalate_append {as bs : List Text} (ha : as ≠ []) (hb : bs ≠ []) :
    [c].intercalate (as ++ bs) = [c].intercalate as ++ c :: [c].intercalate bs := by
  induction as with
  | nil => exact absurd rfl ha
  | cons o as ih =>
    cases as with
    | nil =>
      rw [List.singleton_append, List.intercalate_cons_of_ne_nil hb, List.intercalate_singleton, List.append_assoc,
        List.singleton_append]
    | cons o' as =>
      have hrest := ih (List.cons_ne_nil o' as)
      rw [List.cons_append, List.cons_append, List.intercalate_cons_cons, List.intercalate_cons_cons, ← List.cons_append, hrest]
      simp only [List.append_assoc]

theorem mem_intercalate {os : List Text} {d : Char} (h : d ∈ [c].intercalate os) : d = c ∨ ∃ o ∈ os, d ∈ o := by
  induction os with
  | nil => cases h
  | cons o os ih =>
    cases os with
    | nil =>
      rw [List.intercalate_singleton] at h
      exact Or.inr ⟨o, List.mem_cons_self, h⟩
    | cons o' os =>
      rw [List.intercalate_cons_cons, List.mem_append, List.mem_append, List.mem_singleton] at h
      rcases h with (h | h) | h
      · exact Or.inr ⟨o, List.mem_cons_self, h⟩
      · exact Or.inl h
      · exact (ih h).imp id fun ⟨u, hu, hd⟩ => ⟨u, List.mem_cons_of_mem o hu, hd⟩

theorem mem_intercalate_of_mem {os : List Text} {o : Text} (ho : o ∈ os) {d : Char} (hd : d ∈ o) : d ∈ [c].intercalate os := by
  induction os with
  | nil => cases ho
  | cons o' os ih =>
    cases os with
    | nil =>
      rw [List.intercalate_singleton]
      exact List.mem_singleton.mp ho ▸ hd
    | cons o'' os =>
      rw [List.intercalate_cons_cons]
      rcases List.mem_cons.mp ho with rfl | ho
      · exact List.mem_append_left _ (List.mem_append_left _ hd)
      · exact List.mem_append_right _ (ih ho)

theorem intercalate_cut {os : List Text} (hos : ∀ o ∈ os, c ∉ o) {l r : Text} (h : [c].intercalate os = l ++ c :: r) :
    ∃ as bs, as ≠ [] ∧ bs ≠ [] ∧ os = as ++ bs ∧ l = [c].intercalate as ∧ r = [c].intercalate bs := by
  induction os generalizing l with
  | nil =>
    have hlen := congrArg List.length h
    rw [List.length_append, List.length_cons] at hlen
    exact absurd hlen (by simp [List.intercalate_nil])
  | cons o os ih =>
    have ho := hos o List.mem_cons_self
    cases os with
    | nil =>
      rw [List.intercalate_singleton] at h
      rw [h] at ho
      exact absurd (List.mem_append_right l List.mem_cons_self) ho
    | cons o' os =>
      rw [List.intercalate_cons_cons, List.append_assoc, List.singleton_append] at h
      have here : ∀ {l : Text}, l = o → r = [c].intercalate (o' :: os) →
          ∃ as bs, as ≠ [] ∧ bs ≠ [] ∧ o :: o' :: os = as ++ bs ∧ l = [c].intercalate as ∧ r = [c].intercalate bs := by
        rintro l rfl rfl
        exact ⟨[l], o' :: os, List.cons_ne_nil _ _, List.cons_ne_nil _ _, rfl, List.intercalate_singleton.symm, rfl⟩
      rcases List.append_eq_append_iff.mp h with ⟨m, rfl, hm⟩ | ⟨m, rfl, hm⟩
      · cases m with
        | nil => exact here (List.append_nil o) (List.tail_eq_of_cons_eq hm).symm
        | cons d m =>
          rw [List.cons_append, List.cons.injEq] at hm
          obtain ⟨rfl, hm⟩ := hm
          obtain ⟨as, bs, ha, hb, hsplit, rfl, hr⟩ := ih (fun u hu => hos u (List.mem_cons_of_mem o hu)) hm
          refine ⟨o :: as, bs, List.cons_ne_nil o as, hb, by rw [hsplit]; rfl, ?_, hr⟩
          rw [List.intercalate_cons_of_ne_nil ha, List.append_assoc]
          rfl
      · cases m with
        | nil => exact here (List.append_nil l).symm (List.tail_eq_of_cons_eq hm)
        | cons d m =>
          have hd : c = d := List.head_eq_of_cons_eq hm
          exact absurd (List.mem_append_right l (hd ▸ List.mem_cons_self)) ho

/-- A text with one separator. -/
theorem cut_once {u v x y : Text} (hu : c ∉ u) (hv : c ∉ v) (h : u ++ c :: v = x ++ c :: y) : x = u ∧ y = v := by
  have htwo : [c].intercalate [u, v] = x ++ c :: y := by
    rw [List.intercalate_cons_cons, List.intercalate_singleton, List.append_assoc]
    exact h
  obtain ⟨as, bs, ha, hb, hsplit, rfl, rfl⟩ := intercalate_cut (fun o ho => by
    rcases List.mem_cons.mp ho with rfl | ho
    · exact hu
    · exact (List.mem_singleton.mp ho) ▸ hv) htwo
  obtain ⟨a, as, rfl⟩ := List.exists_cons_of_ne_nil ha
  obtain ⟨b, bs, rfl⟩ := List.exists_cons_of_ne_nil hb
  have hlen := congrArg List.length hsplit
  simp only [List.length_cons, List.length_append, List.length_nil] at hlen
  obtain rfl : as = [] := List.length_eq_zero_iff.mp (by omega)
  obtain rfl : bs = [] := List.length_eq_zero_iff.mp (by omega)
  rw [List.singleton_append, List.cons.injEq, List.cons.injEq] at hsplit
  rw [List.intercalate_singleton, List.intercalate_singleton]
  exact ⟨hsplit.1.symm, hsplit.2.1.symm⟩

/-- Two texts are the same up to the first separator. -/
theorem cut_front {u v x y : Text} (hu : c ∉ u) (hx : c ∉ x) (h : u ++ c :: v = x ++ c :: y) : u = x ∧ v = y := by
  have hux : u = x := by rw [← takeWhile_separator hu v, h, takeWhile_separator hx]
  subst hux
  exact ⟨rfl, List.tail_eq_of_cons_eq (List.append_cancel_left h)⟩

/-- A text without separators in front of a separator. -/
theorem front_of_separator {α : Type} {c : α} {m w t : List α} (hm : c ∉ m) (h : m <+: w ++ c :: t) : m <+: w := by
  rcases List.prefix_or_prefix_of_prefix h (List.prefix_append w (c :: t)) with hmw | ⟨r, rfl⟩
  · exact hmw
  · obtain ⟨u, hu⟩ := h
    rw [List.append_assoc] at hu
    have hr := List.append_cancel_left hu
    cases r with
    | nil => exact (List.append_nil w).symm ▸ List.prefix_rfl
    | cons d r =>
      have hd : d = c := List.head_eq_of_cons_eq hr
      exact absurd (List.mem_append_right w (hd ▸ List.mem_cons_self)) hm

/-- A text that does not have the separator in it stands on one side of it. -/
theorem infix_of_separator {α : Type} {c : α} {m w t : List α} (hm : c ∉ m) (h : m <:+: w ++ c :: t) : m <:+: w ∨ m <:+: t := by
  obtain ⟨l, r, heq⟩ := h
  rcases List.append_eq_append_iff.mp heq with ⟨b, hw, -⟩ | ⟨a, hlm, hbehind⟩
  · exact Or.inl ⟨l, b, hw.symm⟩
  · rcases List.append_eq_append_iff.mp hlm with ⟨b, hw, hmid⟩ | ⟨b, hl, ha⟩
    · cases a with
      | nil =>
        rw [List.append_nil] at hmid
        exact Or.inl ⟨l, [], by rw [hmid, List.append_nil, hw]⟩
      | cons d a =>
        rw [List.cons_append, List.cons.injEq] at hbehind
        exact absurd (by rw [hmid, hbehind.1]; simp) hm
    · cases b with
      | nil =>
        rw [List.nil_append] at ha
        cases m with
        | nil => exact Or.inl (List.nil_infix)
        | cons d m =>
          rw [ha, List.cons_append, List.cons.injEq] at hbehind
          exact absurd (by rw [hbehind.1]; simp) hm
      | cons d b =>
        rw [ha, List.cons_append, List.cons_append, List.cons.injEq] at hbehind
        exact Or.inr ⟨b, r, hbehind.2.symm⟩

theorem joined_eq_intercalate (ws : List Text) : joined ws = [' '].intercalate ws := by
  induction ws with
  | nil => rfl
  | cons w ws ih =>
    cases ws with
    | nil => exact List.intercalate_singleton.symm
    | cons v ws =>
      rw [List.intercalate_cons_cons, ← ih, List.append_assoc]
      rfl

/-- Another separator. -/
theorem map_intercalate {os : List Text} (hos : ∀ o ∈ os, c ∉ o) (d : Char) :
    ([c].intercalate os).map (fun x => if x = c then d else x) = [d].intercalate os := by
  have hmap : ∀ o : Text, c ∉ o → o.map (fun x => if x = c then d else x) = o := by
    intro o ho
    refine (List.map_congr_left fun x hx => ?_).trans (List.map_id o)
    have hxc : x ≠ c := by
      rintro rfl
      exact ho hx
    exact if_neg hxc
  induction os with
  | nil => rfl
  | cons o os ih =>
    have hrest := ih fun u hu => hos u (List.mem_cons_of_mem o hu)
    have ho := hmap o (hos o List.mem_cons_self)
    cases os with
    | nil => rw [List.intercalate_singleton, List.intercalate_singleton, ho]
    | cons o' os =>
      rw [List.intercalate_cons_cons, List.intercalate_cons_cons, List.map_append, List.map_append, hrest, ho]
      simp

end ZfsTest
