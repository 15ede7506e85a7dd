import Mathlib.Data.Nat.Find
import ZfsTest.Text.Separated

/-!
# The last occurrence

`LastIn m w s`: behind the last `m` in `w` there is `s`. Every text that has an `m` in it has a last one (`exists_lastIn`), and a text
without `m` can be added behind a separator (`LastIn.behind`). `lastWith p ts` is the last element of a list that satisfies `p`, with
the list behind it.
-/

namespace ZfsTest

variable {α : Type}

/-- Behind the last occurrence of `m` in `w` stands `s`. -/
structure LastIn (m w s : List α) : Prop where
  occurs : ∃ u, w = u ++ m ++ s
  shortest : ∀ x y, w = x ++ m ++ y → s.length ≤ y.length

variable {m w s v : List α}

theorem LastIn.unique {s' : List α} (h : LastIn m w s) (h' : LastIn m w s') : s = s' := by
  obtain ⟨u, hu⟩ := h.occurs
  obtain ⟨u', hu'⟩ := h'.occurs
  have hlen : s.length = s'.length := Nat.le_antisymm (h.shortest u' s' hu') (h'.shortest u s hu)
  exact (List.append_inj' (hu.symm.trans hu') hlen).2

theorem lastIn_self (m : List α) : LastIn m m [] := ⟨⟨[], by simp⟩, fun _ _ _ => Nat.zero_le _⟩

theorem exists_lastIn (h : m <:+: w) : ∃ s, LastIn m w s := by
  classical
  have hex : ∃ n, ∃ x y, w = x ++ m ++ y ∧ y.length = n := by
    obtain ⟨x, y, hxy⟩ := h
    exact ⟨y.length, x, y, hxy.symm, rfl⟩
  obtain ⟨x, y, hw, hlen⟩ := Nat.find_spec hex
  refine ⟨y, ⟨x, hw⟩, fun x' y' hw' => ?_⟩
  rw [hlen]
  exact Nat.find_min' hex ⟨x', y', hw', rfl⟩

theorem LastIn.occurs_in (h : LastIn m w s) : m <:+: w := by
  obtain ⟨u, hu⟩ := h.occurs
  exact ⟨u, s, hu.symm⟩

/-- What stands in front does not matter. -/
theorem LastIn.front (h : LastIn m w s) (v : List α) : LastIn m (v ++ w) s := by
  obtain ⟨u, hu⟩ := h.occurs
  refine ⟨⟨v ++ u, by rw [hu]; simp⟩, fun x y hxy => ?_⟩
  rcases Nat.lt_or_ge y.length s.length with hlt | hle
  · -- The occurrence `m ++ y` is shorter than `m ++ s`, so it lies in `w`.
    have hlen : (m ++ y).length ≤ w.length := by
      rw [hu, List.length_append, List.append_assoc, List.length_append, List.length_append]
      omega
    rw [List.append_assoc] at hxy
    obtain ⟨x', hx'⟩ := List.suffix_of_suffix_length_le ⟨x, hxy.symm⟩ (List.suffix_append v w) hlen
    exact h.shortest x' y (by rw [← hx', List.append_assoc])
  · exact hle

/-- A text without separators behind a separator. -/
theorem suffix_of_separator {c : α} {t : List α} (hm : c ∉ m) (h : m <:+ w ++ c :: t) : m <:+ t := by
  rw [← List.reverse_prefix] at h ⊢
  refine front_of_separator (c := c) (t := w.reverse) (fun hc => hm (List.mem_reverse.mp hc)) ?_
  simpa using h

/-- A text with a separator behind it stands in a row where it is the end of an entry that is not the last. -/
theorem infix_row {c : Char} {m : Text} (hm : c ∉ m) {ws : List Text} (hws : ∀ w ∈ ws, c ∉ w) {v : Text} (hv : c ∉ v) :
    m ++ [c] <:+: [c].intercalate (ws ++ [v]) ↔ ∃ w ∈ ws, m <:+ w := by
  induction ws with
  | nil =>
    rw [List.nil_append, List.intercalate_singleton]
    constructor
    · exact fun h => absurd (h.subset (List.mem_append_right m List.mem_cons_self)) hv
    · rintro ⟨w, hw, -⟩
      cases hw
  | cons w ws ih =>
    have hrest := ih fun u hu => hws u (List.mem_cons_of_mem w hu)
    have hw : c ∉ w := hws w List.mem_cons_self
    rw [List.cons_append, List.intercalate_cons_of_ne_nil (List.append_ne_nil_of_right_ne_nil ws (List.cons_ne_nil v [])),
      List.append_assoc, List.singleton_append, List.exists_mem_cons_iff, ← hrest]
    generalize [c].intercalate (ws ++ [v]) = t
    constructor
    · rintro ⟨x, y, hxy⟩
      rw [← List.append_assoc, List.append_assoc, List.singleton_append] at hxy
      rcases List.append_eq_append_iff.mp hxy with ⟨a, hxm, hrest⟩ | ⟨a, hxm, hrest⟩
      · cases a with
        | nil => exact Or.inl ⟨x, by rw [hxm, List.append_nil]⟩
        | cons d a =>
          rw [List.cons_append, List.cons.injEq] at hrest
          exact absurd (by rw [hxm, hrest.1]; simp) hw
      · cases a with
        | nil => exact Or.inl ⟨x, by rw [hxm, List.append_nil]⟩
        | cons d a =>
          -- The separator behind the text is a later one.
          rw [List.cons_append, List.cons.injEq] at hrest
          obtain ⟨u, hu⟩ := suffix_of_separator hm ⟨x, by rw [hxm, hrest.1]⟩
          exact Or.inr ⟨u, y, by rw [hrest.2, ← hu]; simp⟩
    · rintro (⟨x, rfl⟩ | ⟨x, y, rfl⟩)
      · exact ⟨x, t, by simp⟩
      · exact ⟨w ++ c :: x, y, by simp⟩

/-- A text without `m` can be added behind a separator. -/
theorem LastIn.behind {c : α} {t : List α} (h : LastIn m w s) (hm : c ∉ m) (ht : ¬m <:+: t) :
    LastIn m (w ++ c :: t) (s ++ c :: t) := by
  obtain ⟨u, hu⟩ := h.occurs
  refine ⟨⟨u, by rw [hu]; simp⟩, fun x y hxy => ?_⟩
  rcases List.append_eq_append_iff.mp hxy with ⟨a, hxm, hrest⟩ | ⟨a, hw, hy⟩
  · cases a with
    | nil =>
      have hle := h.shortest x [] (by rw [hxm, List.append_nil, List.append_nil])
      rw [List.nil_append] at hrest
      rw [← hrest, List.length_append]
      rw [List.length_nil] at hle
      omega
    | cons d a =>
      -- The occurrence ends behind the separator, so it lies in `t`.
      rw [List.cons_append, List.cons.injEq] at hrest
      have hsuffix : m <:+ w ++ c :: a := ⟨x, by rw [hxm, hrest.1]⟩
      refine absurd ((suffix_of_separator hm hsuffix).isInfix.trans ?_) ht
      rw [hrest.2]
      exact (List.prefix_append a y).isInfix
  · have hle := h.shortest x a hw
    rw [hy, List.length_append, List.length_append]
    omega

/-! ## Lists of texts -/

/-- Texts with a separator in front of each. -/
def led (c : α) (ts : List (List α)) : List α := ts.flatMap fun t => c :: t

theorem led_cons (c : α) (t : List α) (ts : List (List α)) : led c (t :: ts) = c :: (t ++ led c ts) := List.flatMap_cons

theorem infix_led {c : α} {ts : List (List α)} (hm : c ∉ m) (h : m <:+: w ++ led c ts) : m <:+: w ∨ ∃ t ∈ ts, m <:+: t := by
  induction ts generalizing w with
  | nil => exact .inl (by simpa [led] using h)
  | cons t ts ih =>
    rw [led_cons] at h
    rcases infix_of_separator hm h with h | h
    · exact .inl h
    · rcases ih h with h | ⟨x, hx, h⟩
      · exact .inr ⟨t, List.mem_cons_self, h⟩
      · exact .inr ⟨x, List.mem_cons_of_mem t hx, h⟩

theorem LastIn.led {c : α} {ts : List (List α)} (h : LastIn m w s) (hm : c ∉ m) (hts : ∀ t ∈ ts, ¬m <:+: t) :
    LastIn m (w ++ led c ts) (s ++ led c ts) := by
  cases ts with
  | nil => simpa [ZfsTest.led] using h
  | cons t ts =>
    rw [led_cons]
    refine h.behind hm fun hin => ?_
    rcases infix_led hm hin with hin | ⟨x, hx, hin⟩
    · exact hts t List.mem_cons_self hin
    · exact hts x (List.mem_cons_of_mem t hx) hin

/-- The last element that satisfies `p`, with the list behind it. -/
def lastWith (p : α → Bool) : List α → Option (α × List α)
  | [] => none
  | t :: ts =>
    match lastWith p ts with
    | some r => some r
    | none => if p t then some (t, ts) else none

variable {p : α → Bool} {ts : List α}

theorem lastWith_eq_none_iff : lastWith p ts = none ↔ ∀ t ∈ ts, ¬p t = true := by
  induction ts with
  | nil => simp [lastWith]
  | cons t ts ih =>
    rw [lastWith, List.forall_mem_cons, ← ih]
    cases h : lastWith p ts with
    | none => simp
    | some r => simp

theorem lastWith_eq_some {t : α} {post : List α} (h : lastWith p ts = some (t, post)) :
    ∃ pre, ts = pre ++ t :: post ∧ p t = true ∧ lastWith p post = none := by
  induction ts with
  | nil => cases h
  | cons x xs ih =>
    rw [lastWith] at h
    cases hxs : lastWith p xs with
    | none =>
      rw [hxs] at h
      simp only [Option.ite_none_right_eq_some, Option.some.injEq, Prod.mk.injEq] at h
      obtain ⟨hp, rfl, rfl⟩ := h
      exact ⟨[], rfl, hp, hxs⟩
    | some r =>
      rw [hxs] at h
      obtain ⟨pre, rfl, hp, hpost⟩ := ih (hxs.trans h)
      exact ⟨x :: pre, rfl, hp, hpost⟩

/-- A longer list has the same last element. -/
theorem lastWith_append {r : α × List α} (h : lastWith p ts = some r) (pre : List α) : lastWith p (pre ++ ts) = some r := by
  induction pre with
  | nil => exact h
  | cons x pre ih => rw [List.cons_append, lastWith, ih]

end ZfsTest
