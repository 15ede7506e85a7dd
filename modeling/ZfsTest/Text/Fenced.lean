import Mathlib.Data.List.Basic
import Mathlib.Data.List.Infix
import ZfsTest.Text.Separated

/-!
# Cutting a text at a match

The four cuts of a text at a part that matches: what stands in front of the first and of the last such part, and what stands behind
the first and behind the last. Where only one text `m` matches, they give the two sides of a place where `m` stands
(`frontFirst_cut` and the others), or leave a text without `m` alone (`frontFirst_none`).

A list of words with a separator in front, between and behind them is `fenced`. A word with its two separators stands in it just where
the word stands in the list (`fenced_occurs`), also when the first or the last word lacks its outer separator (`ends_occurs`), so that
the cuts of the text are cuts of the list of words (`first_fenced`, `last_fenced`, `cuts_fenced_none`).
-/

namespace ZfsTest

variable {α : Type}

/-! ## The cuts -/

section

variable (p : List α → Bool) (t : List α)

/-- A part of the text that begins at `i` matches. -/
def startsAt (i : Nat) : Bool := (List.range (t.length - i + 1)).any fun n => p ((t.drop i).take n)

/-- A part of the text that ends at `j` matches. -/
def endsAt (j : Nat) : Bool := (List.range (j + 1)).any fun i => p ((t.take j).drop i)

/-- `${t%%p*}`. -/
def frontFirst : List α := ((List.range (t.length + 1)).find? (startsAt p t)).elim t t.take

/-- `${t%p*}`. -/
def frontLast : List α := ((List.range (t.length + 1)).reverse.find? (startsAt p t)).elim t t.take

/-- `${t#*p}`. -/
def restFirst : List α := ((List.range (t.length + 1)).find? (endsAt p t)).elim t t.drop

/-- `${t##*p}`. -/
def restLast : List α := ((List.range (t.length + 1)).reverse.find? (endsAt p t)).elim t t.drop

end

/-- What a search through places finds: a place that fits, and no fitting place before it in the order `R` of the search. -/
structure Finds (is : List Nat) (n : Nat) (R : Nat → Nat → Prop) : Prop where
  mem : ∀ i, i ∈ is ↔ i ≤ n
  found : ∀ (q : Nat → Bool) (i : Nat), is.find? q = some i → q i = true ∧ ∀ j ≤ n, q j = true → R i j

theorem finds_first (n : Nat) : Finds (List.range (n + 1)) n (· ≤ ·) := by
  refine ⟨fun i => List.mem_range.trans Nat.lt_succ_iff, fun q i h => ?_⟩
  obtain ⟨hq, -, hless⟩ := List.find?_range_eq_some.mp h
  refine ⟨hq, fun j _ hj => ?_⟩
  by_contra hlt
  have hno := hless j (by omega)
  rw [hj] at hno
  cases hno

theorem find?_range_reverse {q : Nat → Bool} {n i : Nat} (h : (List.range n).reverse.find? q = some i) :
    q i = true ∧ ∀ j, j < n → q j = true → j ≤ i := by
  induction n with
  | zero => cases h
  | succ n ih =>
    rw [List.range_succ, List.reverse_append, List.reverse_singleton, List.singleton_append, List.find?_cons] at h
    split at h
    · rename_i hq
      rw [Option.some.injEq] at h
      subst h
      exact ⟨hq, fun j hj _ => Nat.le_of_lt_succ hj⟩
    · rename_i hn
      obtain ⟨hq, hmax⟩ := ih h
      refine ⟨hq, fun j hj hqj => ?_⟩
      rcases Nat.lt_or_eq_of_le (Nat.le_of_lt_succ hj) with hlt | rfl
      · exact hmax j hlt hqj
      · rw [hqj] at hn
        cases hn

theorem finds_last (n : Nat) : Finds (List.range (n + 1)).reverse n (· ≥ ·) := by
  refine ⟨fun i => List.mem_reverse.trans (List.mem_range.trans Nat.lt_succ_iff), fun q i h => ?_⟩
  obtain ⟨hq, hmax⟩ := find?_range_reverse h
  exact ⟨hq, fun j hj hqj => hmax j (Nat.lt_succ_of_le hj) hqj⟩

/-! ## One matching text -/

section

variable {p : List α → Bool} {m : List α} (hp : ∀ u, p u = true ↔ u = m) {t : List α}

include hp

theorem startsAt_iff {i : Nat} (hi : i ≤ t.length) : startsAt p t i = true ↔ ∃ l r, t = l ++ (m ++ r) ∧ l.length = i := by
  unfold startsAt
  rw [List.any_eq_true]
  constructor
  · rintro ⟨n, -, hn⟩
    refine ⟨t.take i, (t.drop i).drop n, ?_, List.length_take_of_le hi⟩
    rw [← (hp _).mp hn, List.take_append_drop, List.take_append_drop]
  · rintro ⟨l, r, rfl, rfl⟩
    refine ⟨m.length, List.mem_range.mpr ?_, (hp _).mpr ?_⟩
    · rw [List.length_append, List.length_append]
      omega
    · rw [List.drop_left, List.take_left]

theorem endsAt_iff {j : Nat} (hj : j ≤ t.length) :
    endsAt p t j = true ↔ ∃ l r, t = l ++ (m ++ r) ∧ l.length + m.length = j := by
  unfold endsAt
  rw [List.any_eq_true]
  constructor
  · rintro ⟨i, hi, hm⟩
    have hle : i ≤ (t.take j).length := by
      have hlt := List.mem_range.mp hi
      rw [List.length_take_of_le hj]
      omega
    refine ⟨(t.take j).take i, t.drop j, ?_, ?_⟩
    · rw [← (hp _).mp hm, ← List.append_assoc, List.take_append_drop, List.take_append_drop]
    · rw [← (hp _).mp hm, ← List.length_append, List.take_append_drop, List.length_take_of_le hj]
  · rintro ⟨l, r, rfl, rfl⟩
    refine ⟨l.length, List.mem_range.mpr (by omega), (hp _).mpr ?_⟩
    rw [← List.append_assoc, ← List.length_append, List.take_left, List.drop_left]

/-- The place that a search through the starts finds. -/
theorem starts_cut {is : List Nat} {R : Nat → Nat → Prop} (his : Finds is t.length R) {l r : List α} (ht : t = l ++ (m ++ r)) :
    ∃ r', t = (is.find? (startsAt p t)).elim t t.take ++ (m ++ r') ∧
      ∀ l₁ r₁, t = l₁ ++ (m ++ r₁) → R ((is.find? (startsAt p t)).elim t t.take).length l₁.length := by
  have hplace : ∀ l₁ r₁, t = l₁ ++ (m ++ r₁) → l₁.length ≤ t.length ∧ startsAt p t l₁.length = true := by
    intro l₁ r₁ h₁
    have hle : l₁.length ≤ t.length := by
      rw [h₁, List.length_append]
      omega
    exact ⟨hle, (startsAt_iff hp hle).mpr ⟨l₁, r₁, h₁, rfl⟩⟩
  cases hfind : is.find? (startsAt p t) with
  | none =>
    obtain ⟨hle, hstart⟩ := hplace l r ht
    exact absurd hstart (List.find?_eq_none.mp hfind _ ((his.mem _).mpr hle))
  | some i =>
    obtain ⟨hstart, hbest⟩ := his.found _ i hfind
    obtain ⟨l', r', ht', hl'⟩ := (startsAt_iff hp ((his.mem i).mp (List.mem_of_find?_eq_some hfind))).mp hstart
    have hfront : t.take i = l' := by
      rw [← hl', ht', List.take_left]
    rw [Option.elim_some, hfront, hl']
    exact ⟨r', ht', fun l₁ r₁ h₁ => hbest _ (hplace l₁ r₁ h₁).1 (hplace l₁ r₁ h₁).2⟩

/-- The place that a search through the ends finds. -/
theorem ends_cut {js : List Nat} {R : Nat → Nat → Prop} (hjs : Finds js t.length R) {l r : List α} (ht : t = l ++ (m ++ r)) :
    ∃ l', t = l' ++ (m ++ (js.find? (endsAt p t)).elim t t.drop) ∧
      ∀ l₁ r₁, t = l₁ ++ (m ++ r₁) → R (l'.length + m.length) (l₁.length + m.length) := by
  have hplace : ∀ l₁ r₁, t = l₁ ++ (m ++ r₁) →
      l₁.length + m.length ≤ t.length ∧ endsAt p t (l₁.length + m.length) = true := by
    intro l₁ r₁ h₁
    have hle : l₁.length + m.length ≤ t.length := by
      rw [h₁, List.length_append, List.length_append]
      omega
    exact ⟨hle, (endsAt_iff hp hle).mpr ⟨l₁, r₁, h₁, rfl⟩⟩
  cases hfind : js.find? (endsAt p t) with
  | none =>
    obtain ⟨hle, hend⟩ := hplace l r ht
    exact absurd hend (List.find?_eq_none.mp hfind _ ((hjs.mem _).mpr hle))
  | some j =>
    obtain ⟨hend, hbest⟩ := hjs.found _ j hfind
    obtain ⟨l', r', ht', hl'⟩ := (endsAt_iff hp ((hjs.mem j).mp (List.mem_of_find?_eq_some hfind))).mp hend
    have hrest : t.drop j = r' := by
      rw [← hl', ht', ← List.append_assoc, ← List.length_append, List.drop_left]
    rw [Option.elim_some, hrest]
    exact ⟨l', ht', fun l₁ r₁ h₁ => hl' ▸ hbest _ (hplace l₁ r₁ h₁).1 (hplace l₁ r₁ h₁).2⟩

/-- A text without `m`. -/
theorem cuts_none (hno : ∀ l r, t ≠ l ++ (m ++ r)) :
    frontFirst p t = t ∧ frontLast p t = t ∧ restFirst p t = t ∧ restLast p t = t := by
  have hstarts : ∀ {is : List Nat} {R : Nat → Nat → Prop}, Finds is t.length R → is.find? (startsAt p t) = none := by
    intro is R his
    rw [List.find?_eq_none]
    intro i hi hstart
    obtain ⟨l, r, ht, -⟩ := (startsAt_iff hp ((his.mem i).mp hi)).mp hstart
    exact hno l r ht
  have hends : ∀ {js : List Nat} {R : Nat → Nat → Prop}, Finds js t.length R → js.find? (endsAt p t) = none := by
    intro js R hjs
    rw [List.find?_eq_none]
    intro j hj hend
    obtain ⟨l, r, ht, -⟩ := (endsAt_iff hp ((hjs.mem j).mp hj)).mp hend
    exact hno l r ht
  refine ⟨?_, ?_, ?_, ?_⟩
  · rw [frontFirst, hstarts (finds_first _), Option.elim_none]
  · rw [frontLast, hstarts (finds_last _), Option.elim_none]
  · rw [restFirst, hends (finds_first _), Option.elim_none]
  · rw [restLast, hends (finds_last _), Option.elim_none]

end

theorem frontLast_begins (p : List α → Bool) (t : List α) : frontLast p t <+: t := by
  rw [frontLast]
  cases (List.range (t.length + 1)).reverse.find? (startsAt p t) with
  | none => exact List.prefix_refl t
  | some i => exact List.take_prefix i t

/-! ## One matching element at an end -/

section

variable (p : List α → Bool) (t : List α)

/-- `${t%p}`. -/
def dropEnd : List α := ((List.range (t.length + 1)).reverse.find? fun i => p (t.drop i)).elim t t.take

/-- `${t#p}`. -/
def dropFront : List α := ((List.range (t.length + 1)).find? fun i => p (t.take i)).elim t t.drop

end

section

variable {p : List α → Bool} {s : α} (hp : ∀ u, p u = true ↔ u = [s])

include hp

theorem dropEnd_concat (t : List α) : dropEnd p (t ++ [s]) = t := by
  unfold dropEnd
  cases hfind : (List.range ((t ++ [s]).length + 1)).reverse.find? fun i => p ((t ++ [s]).drop i) with
  | none =>
    have hno := List.find?_eq_none.mp hfind t.length
      (List.mem_reverse.mpr (List.mem_range.mpr (by rw [List.length_append]; omega)))
    exact absurd ((hp _).mpr List.drop_left) hno
  | some i =>
    obtain ⟨hq, -⟩ := find?_range_reverse hfind
    have hcut := List.take_append_drop i (t ++ [s])
    rw [(hp _).mp hq] at hcut
    exact List.append_cancel_right hcut

theorem dropEnd_none {t : List α} (ht : ∀ l, t ≠ l ++ [s]) : dropEnd p t = t := by
  unfold dropEnd
  rw [List.find?_eq_none.mpr, Option.elim_none]
  intro i _ hq
  apply ht (t.take i)
  rw [← (hp _).mp hq, List.take_append_drop]

theorem dropFront_cons (t : List α) : dropFront p (s :: t) = t := by
  unfold dropFront
  cases hfind : (List.range ((s :: t).length + 1)).find? fun i => p ((s :: t).take i) with
  | none =>
    have hno := List.find?_eq_none.mp hfind 1 (List.mem_range.mpr (by rw [List.length_cons]; omega))
    exact absurd ((hp _).mpr rfl) hno
  | some i =>
    have hq : p ((s :: t).take i) = true := List.find?_some (p := fun i => p ((s :: t).take i)) hfind
    have hcut := List.take_append_drop i (s :: t)
    rw [(hp _).mp hq] at hcut
    exact List.tail_eq_of_cons_eq hcut

theorem dropFront_none {t : List α} (ht : ∀ r, t ≠ s :: r) : dropFront p t = t := by
  unfold dropFront
  rw [List.find?_eq_none.mpr, Option.elim_none]
  intro i _ hq
  apply ht (t.drop i)
  have hcut := List.take_append_drop i t
  rw [(hp _).mp hq] at hcut
  exact hcut.symm

end

/-! ## The first and the last of equal elements -/

theorem first_unique {β : Type} {b : β} {v w x y : List β} (hv : b ∉ v) (hw : b ∉ w) (h : v ++ b :: x = w ++ b :: y) :
    v = w ∧ x = y := by
  rcases List.append_eq_append_iff.mp h with ⟨m, rfl, hm⟩ | ⟨m, rfl, hm⟩
  · cases m with
    | nil => exact ⟨(List.append_nil v).symm, List.tail_eq_of_cons_eq hm⟩
    | cons c m =>
      have hc : b = c := List.head_eq_of_cons_eq hm
      exact absurd (List.mem_append_right v (hc ▸ List.mem_cons_self)) hw
  · cases m with
    | nil => exact ⟨List.append_nil w, (List.tail_eq_of_cons_eq hm).symm⟩
    | cons c m =>
      have hc : b = c := List.head_eq_of_cons_eq hm
      exact absurd (List.mem_append_right w (hc ▸ List.mem_cons_self)) hv

theorem last_unique {β : Type} {b : β} {v w x y : List β} (hx : b ∉ x) (hy : b ∉ y) (h : v ++ b :: x = w ++ b :: y) :
    v = w ∧ x = y := by
  have hrev := congrArg List.reverse h
  simp only [List.reverse_append, List.reverse_cons, List.append_assoc, List.singleton_append] at hrev
  obtain ⟨hxy, hvw⟩ := first_unique (fun hb => hx (List.mem_reverse.mp hb)) (fun hb => hy (List.mem_reverse.mp hb)) hrev
  exact ⟨List.reverse_injective hvw, List.reverse_injective hxy⟩

/-! ## Cuts at one element -/

section

variable {p : List α → Bool} {s : α} (hp : ∀ u, p u = true ↔ u = [s]) {u v : List α}

include hp

theorem restFirst_single (hu : s ∉ u) : restFirst p (u ++ s :: v) = v := by
  obtain ⟨l, ht, hbest⟩ := ends_cut hp (finds_first _) (rfl : u ++ s :: v = u ++ ([s] ++ v))
  have hle := hbest u v rfl
  have hfront : l <+: u := List.prefix_of_prefix_length_le ⟨_, ht.symm⟩ (List.prefix_append u (s :: v)) (by omega)
  exact (first_unique hu (fun h => hu (hfront.subset h)) ht).2.symm

theorem restLast_single (hv : s ∉ v) : restLast p (u ++ s :: v) = v := by
  have hcut := ends_cut hp (finds_last _) (rfl : u ++ s :: v = u ++ ([s] ++ v))
  change ∃ l, _ = l ++ ([s] ++ restLast p (u ++ s :: v)) ∧ _ at hcut
  generalize restLast p (u ++ s :: v) = r at hcut ⊢
  obtain ⟨l, ht, hbest⟩ := hcut
  have hle := hbest u v rfl
  have hlen := congrArg List.length ht
  rw [List.length_append, List.length_append, List.length_cons, List.singleton_append, List.length_cons] at hlen
  have hback : r <:+ v := by
    apply List.suffix_of_suffix_length_le ⟨l ++ [s], by rw [List.append_assoc]; exact ht.symm⟩
      (List.suffix_append_of_suffix (List.suffix_cons s v))
    omega
  exact (last_unique hv (fun h => hv (hback.subset h)) ht).2.symm

theorem frontLast_single (hv : s ∉ v) : frontLast p (u ++ s :: v) = u := by
  have hcut := starts_cut hp (finds_last _) (rfl : u ++ s :: v = u ++ ([s] ++ v))
  change ∃ r, _ = frontLast p (u ++ s :: v) ++ ([s] ++ r) ∧
    ∀ l₁ r₁ : List α, _ → (frontLast p (u ++ s :: v)).length ≥ l₁.length at hcut
  generalize frontLast p (u ++ s :: v) = l at hcut ⊢
  obtain ⟨r, ht, hbest⟩ := hcut
  have hle := hbest u v rfl
  have hlen := congrArg List.length ht
  rw [List.length_append, List.length_append, List.length_cons, List.singleton_append, List.length_cons] at hlen
  have hback : r <:+ v := by
    apply List.suffix_of_suffix_length_le ⟨l ++ [s], by rw [List.append_assoc]; exact ht.symm⟩
      (List.suffix_append_of_suffix (List.suffix_cons s v))
    omega
  exact (last_unique hv (fun h => hv (hback.subset h)) ht).1.symm

end

/-! ## Words with separators around them -/

/-- Words with a separator in front of each. -/
def fronted (s : α) (ws : List (List α)) : List α := ws.flatMap fun w => s :: w

/-- Words with a separator in front, between and behind them. -/
def fenced (s : α) (ws : List (List α)) : List α := fronted s ws ++ [s]

section

variable {s : α}

@[simp] theorem fronted_nil : fronted s [] = [] := rfl
@[simp] theorem fronted_cons (w : List α) (ws : List (List α)) : fronted s (w :: ws) = s :: (w ++ fronted s ws) := rfl
@[simp] theorem fronted_append (as bs : List (List α)) : fronted s (as ++ bs) = fronted s as ++ fronted s bs := List.flatMap_append

@[simp] theorem fenced_nil : fenced s [] = [s] := rfl
@[simp] theorem fenced_cons (w : List α) (ws : List (List α)) : fenced s (w :: ws) = s :: (w ++ fenced s ws) := by
  rw [fenced, fenced, fronted_cons, List.cons_append, List.append_assoc]

theorem fenced_append (as bs : List (List α)) : fenced s (as ++ bs) = fronted s as ++ fenced s bs := by
  rw [fenced, fenced, fronted_append, List.append_assoc]

theorem fenced_eq_cons (ws : List (List α)) : fenced s ws = s :: (fenced s ws).tail := by
  cases ws with
  | nil => rfl
  | cons w ws => rw [fenced_cons, List.tail_cons]

/-- A word with its separators. -/
theorem fenced_middle (as : List (List α)) (w : List α) (bs : List (List α)) :
    fenced s (as ++ w :: bs) = fronted s as ++ (fenced s [w] ++ (fenced s bs).tail) := by
  have hbs := fenced_eq_cons (s := s) bs
  rw [fenced_append, fenced_cons, hbs, fenced_cons, fenced_nil]
  simp

/-- Where a word stands with its separators. -/
theorem fenced_occurs {ws : List (List α)} (hws : ∀ v ∈ ws, s ∉ v) {w : List α} (hw : s ∉ w) {l r : List α}
    (h : fenced s ws = l ++ (fenced s [w] ++ r)) : ∃ as bs, ws = as ++ w :: bs ∧ l = fronted s as ∧ s :: r = fenced s bs := by
  induction ws generalizing l with
  | nil =>
    have hlen := congrArg List.length h
    simp only [fenced_nil, fenced_cons, List.length_append, List.length_cons, List.length_nil] at hlen
    omega
  | cons v ws ih =>
    have hv := hws v List.mem_cons_self
    have hrest : ∀ u ∈ ws, s ∉ u := fun u hu => hws u (List.mem_cons_of_mem v hu)
    rw [fenced_cons] at h
    cases l with
    | nil =>
      rw [fenced_eq_cons ws, List.nil_append, fenced_cons, fenced_nil, List.cons_append, List.cons.injEq, List.append_assoc] at h
      obtain ⟨rfl, hr⟩ := first_unique hv hw h.2
      exact ⟨[], ws, rfl, rfl, by rw [fenced_eq_cons ws, hr]; rfl⟩
    | cons c l =>
      rw [List.cons_append, List.cons.injEq] at h
      obtain ⟨rfl, h⟩ := h
      rcases List.append_eq_append_iff.mp h with ⟨m, rfl, hm⟩ | ⟨m, rfl, hm⟩
      · obtain ⟨as, bs, rfl, rfl, hr⟩ := ih hrest hm
        exact ⟨v :: as, bs, rfl, rfl, hr⟩
      · cases m with
        | nil =>
          rw [List.nil_append] at hm
          rw [List.append_nil] at hv ⊢
          obtain ⟨as, bs, rfl, has, hr⟩ := ih (l := []) hrest hm.symm
          exact ⟨l :: as, bs, rfl, by rw [fronted_cons, ← has, List.append_nil], hr⟩
        | cons d m =>
          rw [fenced_cons, List.cons_append, List.cons_append] at hm
          have hd : s = d := List.head_eq_of_cons_eq hm
          exact absurd (List.mem_append_right l (hd ▸ List.mem_cons_self)) hv

end

/-! ## The cuts of words -/

section

variable {s : α} {h e : List α} (hh : s ∉ h) (he : s ∉ e) {ws : List (List α)} (hws : ∀ v ∈ ws, s ∉ v) {w : List α} (hw : s ∉ w)

include hh he hws hw

/-- Where a word stands with its separators, in a text with a word at each end that lacks one of its separators. -/
theorem ends_occurs {l r : List α} (heq : h ++ (fenced s ws ++ e) = l ++ (fenced s [w] ++ r)) :
    ∃ as bs, ws = as ++ w :: bs ∧ l = h ++ fronted s as ∧ s :: r = fenced s bs ++ e := by
  obtain ⟨l, rfl⟩ : h <+: l := by
    apply front_of_separator hh
    rw [fenced_cons, List.cons_append] at heq
    rw [← heq]
    exact List.prefix_append h _
  rw [List.append_assoc] at heq
  have hrest := List.append_cancel_left heq
  obtain ⟨r, rfl⟩ : e <:+ r := by
    have hrev := congrArg List.reverse hrest
    simp only [fenced_cons, fenced_nil, List.reverse_append, List.reverse_cons, List.append_assoc, List.nil_append,
      List.cons_append] at hrev
    have hpre : e.reverse <+: r.reverse := by
      apply front_of_separator (fun hs => he (List.mem_reverse.mp hs))
      rw [← hrev]
      exact List.prefix_append e.reverse _
    exact List.reverse_prefix.mp hpre
  rw [← List.append_assoc, ← List.append_assoc] at hrest
  have hfence : fenced s ws = l ++ (fenced s [w] ++ r) := by
    rw [List.append_cancel_right hrest, List.append_assoc]
  obtain ⟨as, bs, hsplit, rfl, hr⟩ := fenced_occurs hws hw hfence
  exact ⟨as, bs, hsplit, rfl, by rw [← hr]; rfl⟩

omit hh he hws hw in
theorem length_fronted_lt (as : List (List α)) (w : List α) (bs : List (List α)) :
    (h ++ fronted s as).length < (h ++ fronted s (as ++ w :: bs)).length := by
  rw [fronted_append, fronted_cons, List.length_append, List.length_append, List.length_append, List.length_cons]
  omega

omit hh he hws hw in
theorem ends_middle (h e : List α) (as : List (List α)) (w : List α) (bs : List (List α)) :
    h ++ (fenced s (as ++ w :: bs) ++ e) = (h ++ fronted s as) ++ (fenced s [w] ++ ((fenced s bs).tail ++ e)) := by
  rw [fenced_middle]
  simp only [List.append_assoc]

variable {p : List α → Bool} (hp : ∀ u, p u = true ↔ u = fenced s [w])

include hp

/-- A word that is not in the list. -/
theorem cuts_fenced_none (hmem : w ∉ ws) :
    frontFirst p (h ++ (fenced s ws ++ e)) = h ++ (fenced s ws ++ e) ∧
      frontLast p (h ++ (fenced s ws ++ e)) = h ++ (fenced s ws ++ e) ∧
      restFirst p (h ++ (fenced s ws ++ e)) = h ++ (fenced s ws ++ e) ∧
      restLast p (h ++ (fenced s ws ++ e)) = h ++ (fenced s ws ++ e) := by
  apply cuts_none hp
  intro l r heq
  obtain ⟨as, bs, rfl, -, -⟩ := ends_occurs hh he hws hw heq
  exact hmem (List.mem_append_right as List.mem_cons_self)

/-- What stands on the two sides of the first place of a word. -/
theorem first_fenced {as bs : List (List α)} (hsplit : ws = as ++ w :: bs) (has : w ∉ as) :
    frontFirst p (h ++ (fenced s ws ++ e)) = h ++ fronted s as ∧
      s :: restFirst p (h ++ (fenced s ws ++ e)) = fenced s bs ++ e := by
  have hmid := ends_middle (s := s) h e as w bs
  rw [← hsplit] at hmid
  -- a place of the text that no other comes before is the first place of the word in the list
  have hfirst : ∀ l r, h ++ (fenced s ws ++ e) = l ++ (fenced s [w] ++ r) →
      (∀ l₁ r₁, h ++ (fenced s ws ++ e) = l₁ ++ (fenced s [w] ++ r₁) → l.length ≤ l₁.length) →
      l = h ++ fronted s as ∧ s :: r = fenced s bs ++ e := by
    intro l r hlr hmin
    obtain ⟨as', bs', hsplit', rfl, hr⟩ := ends_occurs hh he hws hw hlr
    have has' : w ∉ as' := by
      intro hmem
      obtain ⟨cs, ds, rfl⟩ := List.append_of_mem hmem
      have hearlier := ends_middle (s := s) h e cs w (ds ++ w :: bs')
      rw [show cs ++ w :: (ds ++ w :: bs') = ws by rw [hsplit', List.append_assoc]; rfl] at hearlier
      have hle := hmin _ _ hearlier
      have hlt := length_fronted_lt (s := s) (h := h) cs w ds
      omega
    obtain ⟨rfl, rfl⟩ := first_unique has' has (hsplit'.symm.trans hsplit)
    exact ⟨rfl, hr⟩
  obtain ⟨r, hr, hmin⟩ := starts_cut hp (finds_first _) hmid
  obtain ⟨l, hl, hmin'⟩ := ends_cut hp (finds_first _) hmid
  exact ⟨(hfirst _ _ hr hmin).1, (hfirst _ _ hl fun l₁ r₁ h₁ => Nat.le_of_add_le_add_right (hmin' l₁ r₁ h₁)).2⟩

/-- What stands on the two sides of the last place of a word. -/
theorem last_fenced {as bs : List (List α)} (hsplit : ws = as ++ w :: bs) (hbs : w ∉ bs) :
    frontLast p (h ++ (fenced s ws ++ e)) = h ++ fronted s as ∧
      s :: restLast p (h ++ (fenced s ws ++ e)) = fenced s bs ++ e := by
  have hmid := ends_middle (s := s) h e as w bs
  rw [← hsplit] at hmid
  have hlast : ∀ l r, h ++ (fenced s ws ++ e) = l ++ (fenced s [w] ++ r) →
      (∀ l₁ r₁, h ++ (fenced s ws ++ e) = l₁ ++ (fenced s [w] ++ r₁) → l₁.length ≤ l.length) →
      l = h ++ fronted s as ∧ s :: r = fenced s bs ++ e := by
    intro l r hlr hmax
    obtain ⟨as', bs', hsplit', rfl, hr⟩ := ends_occurs hh he hws hw hlr
    have hbs' : w ∉ bs' := by
      intro hmem
      obtain ⟨cs, ds, rfl⟩ := List.append_of_mem hmem
      have hlater := ends_middle (s := s) h e (as' ++ w :: cs) w ds
      rw [List.append_assoc, List.cons_append, ← hsplit'] at hlater
      have hle := hmax _ _ hlater
      have hlt := length_fronted_lt (s := s) (h := h) as' w cs
      omega
    obtain ⟨rfl, rfl⟩ := last_unique hbs' hbs (hsplit'.symm.trans hsplit)
    exact ⟨rfl, hr⟩
  obtain ⟨r, hr, hmax⟩ := starts_cut hp (finds_last _) hmid
  obtain ⟨l, hl, hmax'⟩ := ends_cut hp (finds_last _) hmid
  exact ⟨(hlast _ _ hr hmax).1, (hlast _ _ hl fun l₁ r₁ h₁ => Nat.le_of_add_le_add_right (hmax' l₁ r₁ h₁)).2⟩

end

/-! ## Joined words -/

section

variable {s : α}

theorem fronted_intercalate {ws : List (List α)} (h : ws ≠ []) : fronted s ws = s :: [s].intercalate ws := by
  induction ws with
  | nil => exact absurd rfl h
  | cons w ws ih =>
    cases ws with
    | nil => rw [List.intercalate_singleton, fronted_cons, fronted_nil, List.append_nil]
    | cons v ws =>
      rw [List.intercalate_cons_cons, fronted_cons, ih (List.cons_ne_nil v ws)]
      simp

theorem intercalate_cons_fronted (w : List α) (ws : List (List α)) : [s].intercalate (w :: ws) = w ++ fronted s ws := by
  have h := fronted_intercalate (s := s) (List.cons_ne_nil w ws)
  rw [fronted_cons] at h
  exact (List.tail_eq_of_cons_eq h).symm

theorem fenced_intercalate {ws : List (List α)} (h : ws ≠ []) : fenced s ws = s :: ([s].intercalate ws ++ [s]) := by
  rw [fenced, fronted_intercalate h, List.cons_append]

/-- Words without separators can be told from their joined text. -/
theorem intercalate_injective [DecidableEq α] {vs ws : List (List α)} (hvs : ∀ v ∈ vs, v ≠ [] ∧ s ∉ v)
    (hws : ∀ w ∈ ws, w ≠ [] ∧ s ∉ w) (h : [s].intercalate vs = [s].intercalate ws) : vs = ws := by
  have hnil : ∀ {us : List (List α)}, (∀ u ∈ us, u ≠ [] ∧ s ∉ u) → us ≠ [] → [s].intercalate us ≠ [] := by
    intro us hus hne
    obtain ⟨u, us, rfl⟩ := List.exists_cons_of_ne_nil hne
    obtain ⟨c, u, rfl⟩ := List.exists_cons_of_ne_nil (hus u List.mem_cons_self).1
    intro hempty
    have hfront := fronted_intercalate (s := s) hne
    rw [hempty] at hfront
    cases us with
    | nil => cases hfront
    | cons u' us => cases hfront
  by_cases hv : vs = []
  · by_contra hne
    rw [hv, List.intercalate_nil] at h
    exact hnil hws (fun hw => hne (hv.trans hw.symm)) h.symm
  · by_cases hw : ws = []
    · rw [hw, List.intercalate_nil] at h
      exact absurd h (hnil hvs hv)
    · have hsplit := List.splitOn_intercalate s (fun v hmem => (hvs v hmem).2) hv
      rw [h, List.splitOn_intercalate s (fun w hmem => (hws w hmem).2) hw] at hsplit
      exact hsplit.symm

end

end ZfsTest
