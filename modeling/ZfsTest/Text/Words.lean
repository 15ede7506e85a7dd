import ZfsTest.Text.Basic

/-!
# Words and lines of a text

`words sp t` are the maximal pieces of `t` without a character of `sp`, in order; `linesBy nl t` are the pieces of `t` between its
newlines, without an empty piece at the end. Both are read off from the front (`words_word`, `linesBy_line`).
-/

namespace ZfsTest

/-! ## Words -/

/-- The words of a text; `w` is the word that is being read, backwards. -/
def wordsFrom (sp : Char → Bool) : Text → Text → List Text
  | w, [] => if w = [] then [] else [w.reverse]
  | w, c :: t =>
    if sp c then (if w = [] then wordsFrom sp [] t else w.reverse :: wordsFrom sp [] t) else wordsFrom sp (c :: w) t

def words (sp : Char → Bool) (t : Text) : List Text := wordsFrom sp [] t

variable {sp : Char → Bool}

theorem forall_of_any_eq_false {u : Text} (h : u.any sp = false) : ∀ c ∈ u, sp c = false :=
  fun c hc => eq_false_of_ne_true (List.any_eq_false.mp h c hc)

@[simp] theorem words_nil : words sp [] = [] := rfl

theorem wordsFrom_nil (w : Text) : wordsFrom sp w [] = if w = [] then [] else [w.reverse] := rfl

theorem wordsFrom_cons (w : Text) (c : Char) (t : Text) : wordsFrom sp w (c :: t) =
    if sp c then (if w = [] then wordsFrom sp [] t else w.reverse :: wordsFrom sp [] t) else wordsFrom sp (c :: w) t := rfl

theorem wordsFrom_append {u : Text} (hu : ∀ c ∈ u, sp c = false) (w t : Text) :
    wordsFrom sp w (u ++ t) = wordsFrom sp (u.reverse ++ w) t := by
  induction u generalizing w with
  | nil => rfl
  | cons c u ih =>
    have hc := hu c List.mem_cons_self
    rw [List.cons_append, wordsFrom_cons, if_neg (by simp [hc]), ih fun d hd => hu d (List.mem_cons_of_mem _ hd)]
    simp

/-- A word in front, with a separator behind it. -/
theorem words_word {u : Text} (hu : ∀ c ∈ u, sp c = false) (hne : u ≠ []) {c : Char} (hc : sp c = true) (t : Text) :
    words sp (u ++ c :: t) = u :: words sp t := by
  rw [words, wordsFrom_append hu, wordsFrom_cons, if_pos hc, if_neg (by simpa using hne)]
  simp [words]

/-- A text without separators is one word. -/
theorem words_single {u : Text} (hu : ∀ c ∈ u, sp c = false) (hne : u ≠ []) : words sp u = [u] := by
  have h := wordsFrom_append hu [] []
  rw [List.append_nil] at h
  rw [words, h, wordsFrom_nil, if_neg (by simpa using hne)]
  simp

theorem wordsFrom_space {c : Char} (hc : sp c = true) (w u t : Text) :
    wordsFrom sp w (u ++ c :: t) = wordsFrom sp w u ++ words sp t := by
  induction u generalizing w with
  | nil =>
    by_cases hw : w = []
    · simp [wordsFrom_nil, wordsFrom_cons, words, hc, hw]
    · simp [wordsFrom_nil, wordsFrom_cons, words, hc, hw]
  | cons d u ih =>
    by_cases hd : sp d = true
    · by_cases hw : w = []
      · simp [wordsFrom_cons, hd, hw, ih]
      · simp [wordsFrom_cons, hd, hw, ih]
    · simp [wordsFrom_cons, hd, ih]

/-- The words on both sides of a separator. -/
theorem words_append {c : Char} (hc : sp c = true) (u t : Text) : words sp (u ++ c :: t) = words sp u ++ words sp t :=
  wordsFrom_space hc [] u t

theorem mem_wordsFrom {w t u : Text} (hu : u ∈ wordsFrom sp w t) {c : Char} (hc : c ∈ u) : c ∈ w ∨ c ∈ t := by
  induction t generalizing w with
  | nil =>
    rw [wordsFrom_nil] at hu
    split at hu
    · cases hu
    · rw [List.mem_singleton.mp hu, List.mem_reverse] at hc
      exact Or.inl hc
  | cons d t ih =>
    rw [wordsFrom_cons] at hu
    split at hu
    · split at hu
      · exact Or.inr (List.mem_cons_of_mem d ((ih hu).resolve_left List.not_mem_nil))
      · rcases List.mem_cons.mp hu with rfl | hu
        · exact Or.inl (List.mem_reverse.mp hc)
        · exact Or.inr (List.mem_cons_of_mem d ((ih hu).resolve_left List.not_mem_nil))
    · rcases ih hu with h | h
      · rcases List.mem_cons.mp h with rfl | h
        · exact Or.inr List.mem_cons_self
        · exact Or.inl h
      · exact Or.inr (List.mem_cons_of_mem d h)

/-- The characters of a word are characters of the text. -/
theorem mem_of_mem_words {t u : Text} (hu : u ∈ words sp t) {c : Char} (hc : c ∈ u) : c ∈ t :=
  (mem_wordsFrom hu hc).resolve_left List.not_mem_nil

theorem ne_nil_of_mem_wordsFrom {w t u : Text} (hu : u ∈ wordsFrom sp w t) : u ≠ [] := by
  induction t generalizing w with
  | nil =>
    rw [wordsFrom_nil] at hu
    split at hu
    · cases hu
    · rename_i hw
      rw [List.mem_singleton.mp hu, Ne, List.reverse_eq_nil_iff]
      exact hw
  | cons d t ih =>
    rw [wordsFrom_cons] at hu
    split at hu
    · split at hu
      · exact ih hu
      · rename_i hw
        rcases List.mem_cons.mp hu with rfl | hu
        · rw [Ne, List.reverse_eq_nil_iff]
          exact hw
        · exact ih hu
    · exact ih hu

/-- A word is not empty. -/
theorem ne_nil_of_mem_words {t u : Text} (hu : u ∈ words sp t) : u ≠ [] := ne_nil_of_mem_wordsFrom hu

/-- Induction on the separators of a text: a text without one, and a piece without one in front of the first. -/
theorem words_induction (sp : Char → Bool) {P : Text → Prop} (hsingle : ∀ u, (∀ c ∈ u, sp c = false) → P u)
    (hsplit : ∀ u c t, (∀ d ∈ u, sp d = false) → sp c = true → P t → P (u ++ c :: t)) (t : Text) : P t := by
  suffices h : ∀ t u : Text, (∀ c ∈ u, sp c = false) → P (u ++ t) from h t [] fun c hc => nomatch hc
  intro t
  induction t with
  | nil =>
    intro u hu
    rw [List.append_nil]
    exact hsingle u hu
  | cons c t ih =>
    intro u hu
    cases hc : sp c with
    | true => exact hsplit u c t hu hc (ih [] fun d hd => nomatch hd)
    | false =>
      have hconcat : u ++ c :: t = (u ++ [c]) ++ t := by simp
      rw [hconcat]
      refine ih (u ++ [c]) fun d hd => ?_
      rcases List.mem_append.mp hd with hd | hd
      · exact hu d hd
      · rwa [List.mem_singleton.mp hd]

/-- The words of a text without separators. -/
theorem words_unsplit {u : Text} (hu : ∀ c ∈ u, sp c = false) : words sp u = [u].filter (· ≠ []) := by
  by_cases hne : u = []
  · simp [hne]
  · simp [words_single hu hne, hne]

/-- A word has no separator in it. -/
theorem not_separator_of_mem_words {t u : Text} (hu : u ∈ words sp t) {c : Char} (hc : c ∈ u) : sp c = false := by
  induction t using words_induction sp with
  | hsingle v hv =>
    rw [words_unsplit hv, List.mem_filter, List.mem_singleton] at hu
    exact hv c (hu.1 ▸ hc)
  | hsplit v d t hv hd ih =>
    rw [words_append hd, words_unsplit hv, List.mem_append, List.mem_filter, List.mem_singleton] at hu
    rcases hu with ⟨rfl, -⟩ | hu
    · exact hv c hc
    · exact ih hu

/-- A word stands in the text. -/
theorem infix_of_mem_words {t u : Text} (hu : u ∈ words sp t) : u <:+: t := by
  induction t using words_induction sp with
  | hsingle v hv =>
    rw [words_unsplit hv, List.mem_filter, List.mem_singleton] at hu
    exact hu.1 ▸ List.infix_rfl
  | hsplit v d t hv hd ih =>
    rw [words_append hd, words_unsplit hv, List.mem_append, List.mem_filter, List.mem_singleton] at hu
    rcases hu with ⟨rfl, -⟩ | hu
    · exact (List.prefix_append u (d :: t)).isInfix
    · exact (ih hu).trans ((List.suffix_cons d t).isInfix.trans (List.suffix_append v (d :: t)).isInfix)

/-- A word is one word. -/
theorem words_of_mem_words {t u : Text} (hu : u ∈ words sp t) : words sp u = [u] :=
  words_single (fun _ hc => not_separator_of_mem_words hu hc) (ne_nil_of_mem_words hu)

/-- The words of the end of a text are ends of its words. -/
theorem suffix_of_mem_words {t u w : Text} (h : u <:+ t) (hw : w ∈ words sp u) : ∃ w' ∈ words sp t, w <:+ w' := by
  have hone : ∀ {a v : Text}, (∀ c ∈ v, sp c = false) → a <:+ v → w ∈ words sp a → ∃ w' ∈ words sp v, w <:+ w' := by
    intro a v hv ha hw
    rw [words_unsplit fun c hc => hv c (ha.subset hc), List.mem_filter, List.mem_singleton, decide_eq_true_eq] at hw
    obtain ⟨rfl, hne⟩ := hw
    have hvne : v ≠ [] := by
      rintro rfl
      exact hne (List.suffix_nil.mp ha)
    exact ⟨v, by rw [words_single hv hvne]; exact List.mem_singleton_self v, ha⟩
  induction t using words_induction sp with
  | hsingle t ht => exact hone ht h hw
  | hsplit v c t hv hc ih =>
    rw [words_append hc]
    obtain ⟨x, hx⟩ := h
    rcases List.append_eq_append_iff.mp hx with ⟨a, rfl, rfl⟩ | ⟨a, rfl, htail⟩
    · rw [words_append hc] at hw
      rcases List.mem_append.mp hw with hw | hw
      · obtain ⟨w', hw', hsuffix⟩ := hone hv (List.suffix_append x a) hw
        exact ⟨w', List.mem_append_left _ hw', hsuffix⟩
      · exact ⟨w, List.mem_append_right _ hw, List.suffix_rfl⟩
    · cases a with
      | nil =>
        rw [List.nil_append] at htail
        rw [← htail, ← List.nil_append (c :: t), words_append hc] at hw
        exact ⟨w, List.mem_append_right _ hw, List.suffix_rfl⟩
      | cons d a =>
        rw [List.cons_append, List.cons.injEq] at htail
        obtain ⟨w', hw', hsuffix⟩ := ih ⟨a, htail.2.symm⟩
        exact ⟨w', List.mem_append_right _ hw', hsuffix⟩

/-- A text with a character that is no separator has a word. -/
theorem words_ne_nil {t : Text} {c : Char} (hmem : c ∈ t) (hc : sp c = false) : words sp t ≠ [] := by
  induction t using words_induction sp with
  | hsingle u hu =>
    rw [words_single hu (List.ne_nil_of_mem hmem)]
    exact List.cons_ne_nil u []
  | hsplit u d t hu hd ih =>
    rw [words_append hd]
    rcases List.mem_append.mp hmem with hmem | hmem
    · rw [words_single hu (List.ne_nil_of_mem hmem)]
      exact List.cons_ne_nil u _
    · refine List.append_ne_nil_of_right_ne_nil _ (ih ((List.mem_cons.mp hmem).resolve_left ?_))
      rintro rfl
      rw [hd] at hc
      cases hc

/-- The first word of a text that begins with a piece of one. -/
theorem words_front {u : Text} (hu : ∀ c ∈ u, sp c = false) (hne : u ≠ []) (t : Text) : ∃ r ws, words sp (u ++ t) = (u ++ r) :: ws := by
  induction t generalizing u with
  | nil => exact ⟨[], [], by rw [List.append_nil, words_single hu hne]⟩
  | cons c t ih =>
    cases hc : sp c with
    | true => exact ⟨[], words sp t, by rw [words_word hu hne hc, List.append_nil]⟩
    | false =>
      have hlonger : ∀ d ∈ u ++ [c], sp d = false := by
        intro d hd
        rcases List.mem_append.mp hd with hd | hd
        · exact hu d hd
        · rwa [List.mem_singleton.mp hd]
      obtain ⟨r, ws, h⟩ := ih hlonger (by simp)
      refine ⟨c :: r, ws, ?_⟩
      rw [List.append_assoc, List.append_assoc] at h
      exact h

/-- Separators behind a text make no words. -/
theorem words_separators {s : Text} (hs : ∀ c ∈ s, sp c = true) (u : Text) : words sp (u ++ s) = words sp u := by
  induction s generalizing u with
  | nil => rw [List.append_nil]
  | cons c s ih =>
    have hnil : words sp s = [] := ih (fun d hd => hs d (List.mem_cons_of_mem c hd)) []
    rw [words_append (hs c List.mem_cons_self), hnil, List.append_nil]

/-- A separator with something else behind it. -/
def Broken (sp : Char → Bool) (t : Text) : Prop := ∃ u c v d, t = u ++ c :: v ∧ sp c = true ∧ d ∈ v ∧ sp d = false

/-- A front without separators does not matter. -/
theorem Broken.of_append {w t : Text} (hw : ∀ c ∈ w, sp c = false) (h : Broken sp (w ++ t)) : Broken sp t := by
  obtain ⟨u, c, v, d, heq, hc, hd, hsp⟩ := h
  rcases List.append_eq_append_iff.mp heq with ⟨a, hu, ht⟩ | ⟨a, hwu, hbehind⟩
  · exact ⟨a, c, v, d, ht, hc, hd, hsp⟩
  · cases a with
    | nil => exact ⟨[], c, v, d, hbehind.symm, hc, hd, hsp⟩
    | cons e a =>
      have hce : sp c = false := by
        refine hw c ?_
        rw [hwu, (List.cons.inj hbehind).1]
        simp
      rw [hc] at hce
      cases hce

/-- There is a second word. -/
theorem Broken.words {w t : Text} (h : Broken sp t) (hw : ∀ c ∈ w, sp c = false) (hne : w ≠ []) :
    ∃ a b ws, words sp (w ++ t) = a :: b :: ws := by
  obtain ⟨u, c, v, d, rfl, hc, hd, hsp⟩ := h
  obtain ⟨r, ws, hfront⟩ := words_front hw hne u
  obtain ⟨b, ws', hbehind⟩ := List.exists_cons_of_ne_nil (words_ne_nil hd hsp)
  rw [← List.append_assoc, words_append hc, hfront, hbehind]
  cases ws with
  | nil => exact ⟨_, b, ws', rfl⟩
  | cons b' ws => exact ⟨_, b', ws ++ b :: ws', rfl⟩

/-- The words of texts with a separator between two of them. -/
theorem words_intercalate {c : Char} (hc : sp c = true) (ts : List Text) : words sp ([c].intercalate ts) = ts.flatMap (words sp) := by
  induction ts with
  | nil => rfl
  | cons t ts ih =>
    cases ts with
    | nil => simp
    | cons u us =>
      rw [List.intercalate_cons_cons, List.append_assoc, List.singleton_append, words_append hc, ih]
      rfl

/-! ## Lines -/

section

variable {α : Type} (nl : α → Bool)

/-- The lines of a list; `l` is the line that is being read, backwards. -/
def linesFrom : List α → List α → List (List α)
  | l, [] => if l.isEmpty then [] else [l.reverse]
  | l, c :: t => if nl c then l.reverse :: linesFrom [] t else linesFrom (c :: l) t

/-- The pieces between the newlines, without an empty piece at the end. -/
def linesBy (t : List α) : List (List α) := linesFrom nl [] t

variable {nl}

@[simp] theorem linesBy_nil : linesBy nl [] = [] := rfl

theorem linesFrom_nil (l : List α) : linesFrom nl l [] = if l.isEmpty then [] else [l.reverse] := rfl

theorem linesFrom_cons (l : List α) (c : α) (t : List α) :
    linesFrom nl l (c :: t) = if nl c then l.reverse :: linesFrom nl [] t else linesFrom nl (c :: l) t := rfl

theorem linesFrom_append {u : List α} (hu : ∀ c ∈ u, nl c = false) (l t : List α) :
    linesFrom nl l (u ++ t) = linesFrom nl (u.reverse ++ l) t := by
  induction u generalizing l with
  | nil => rfl
  | cons c u ih =>
    have hc := hu c List.mem_cons_self
    rw [List.cons_append, linesFrom_cons, if_neg (by simp [hc]), ih fun d hd => hu d (List.mem_cons_of_mem _ hd)]
    simp

/-- A line in front. -/
theorem linesBy_line {u : List α} (hu : ∀ c ∈ u, nl c = false) {c : α} (hc : nl c = true) (t : List α) :
    linesBy nl (u ++ c :: t) = u :: linesBy nl t := by
  rw [linesBy, linesFrom_append hu, linesFrom_cons, if_pos hc]
  simp [linesBy]

/-- A list without newlines is one line. -/
theorem linesBy_single {u : List α} (hu : ∀ c ∈ u, nl c = false) (hne : u ≠ []) : linesBy nl u = [u] := by
  have h := linesFrom_append hu [] []
  rw [List.append_nil] at h
  rw [linesBy, h, linesFrom_nil, if_neg (by simpa using hne)]
  simp

theorem linesFrom_newline {c : α} (hc : nl c = true) (l u t : List α) :
    linesFrom nl l (u ++ c :: t) = linesFrom nl l (u ++ [c]) ++ linesBy nl t := by
  induction u generalizing l with
  | nil => simp [linesFrom_nil, linesFrom_cons, linesBy, hc]
  | cons d u ih =>
    by_cases hd : nl d = true
    · simp [linesFrom_cons, hd, ih]
    · simp [linesFrom_cons, hd, ih]

/-- The lines up to a newline and the lines behind it. -/
theorem linesBy_newline {c : α} (hc : nl c = true) (u t : List α) :
    linesBy nl (u ++ c :: t) = linesBy nl (u ++ [c]) ++ linesBy nl t := linesFrom_newline hc [] u t

theorem mem_linesFrom {l t u : List α} (hu : u ∈ linesFrom nl l t) {c : α} (hc : c ∈ u) : c ∈ l ∨ c ∈ t := by
  induction t generalizing l with
  | nil =>
    rw [linesFrom_nil] at hu
    split at hu
    · cases hu
    · rw [List.mem_singleton.mp hu, List.mem_reverse] at hc
      exact Or.inl hc
  | cons d t ih =>
    rw [linesFrom_cons] at hu
    split at hu
    · rcases List.mem_cons.mp hu with rfl | hu
      · exact Or.inl (List.mem_reverse.mp hc)
      · exact Or.inr (List.mem_cons_of_mem d ((ih hu).resolve_left List.not_mem_nil))
    · rcases ih hu with h | h
      · rcases List.mem_cons.mp h with rfl | h
        · exact Or.inr List.mem_cons_self
        · exact Or.inl h
      · exact Or.inr (List.mem_cons_of_mem d h)

end

/-- The lines of a text. -/
def linesOf (t : Text) : List Text := linesBy (fun c => decide (c = '\n')) t

theorem not_newline_of_notMem {u : Text} (hu : '\n' ∉ u) : ∀ c ∈ u, decide (c = '\n') = false := by
  intro c hc
  rw [decide_eq_false_iff_not]
  rintro rfl
  exact hu hc

theorem linesOf_line {u : Text} (hu : '\n' ∉ u) (t : Text) : linesOf (u ++ '\n' :: t) = u :: linesOf t :=
  linesBy_line (not_newline_of_notMem hu) (by decide) t

theorem linesOf_newline (u t : Text) : linesOf (u ++ '\n' :: t) = linesOf (u ++ ['\n']) ++ linesOf t :=
  linesBy_newline (by decide) u t

/-- Lines that are written, each with a newline behind it. -/
theorem linesOf_lines {ls : List Text} (h : ∀ l ∈ ls, '\n' ∉ l) : linesOf (ls.flatMap fun l => l ++ ['\n']) = ls := by
  induction ls with
  | nil => rfl
  | cons l ls ih =>
    rw [List.flatMap_cons, List.append_assoc, List.singleton_append, linesOf_line (h l List.mem_cons_self),
      ih fun m hm => h m (List.mem_cons_of_mem _ hm)]

/-- A text without newline in front stands at the front of the first line. -/
theorem linesOf_front {u : Text} (hu : '\n' ∉ u) (hne : u ≠ []) (t : Text) : ∃ l ls, linesOf (u ++ t) = (u ++ l) :: ls := by
  by_cases ht : '\n' ∈ t
  · obtain ⟨a, b, rfl, ha⟩ := List.eq_append_cons_of_mem ht
    have hua : '\n' ∉ u ++ a := by simp [hu, ha]
    exact ⟨a, linesOf b, by rw [← List.append_assoc, linesOf_line hua]⟩
  · have hut : '\n' ∉ u ++ t := by simp [hu, ht]
    exact ⟨t, [], linesBy_single (not_newline_of_notMem hut) (by simp [hne])⟩

/-- A line has no newline. -/
theorem newline_notMem_of_mem_linesOf {t l : Text} (hl : l ∈ linesOf t) : '\n' ∉ l := by
  have hno : ∀ (t l' : Text), '\n' ∉ l' → l ∈ linesFrom (fun c => decide (c = '\n')) l' t → '\n' ∉ l := by
    intro t
    induction t with
    | nil =>
      intro l' hl' hmem
      rw [linesFrom_nil] at hmem
      split at hmem
      · cases hmem
      · rw [List.mem_singleton.mp hmem, List.mem_reverse]
        exact hl'
    | cons c t ih =>
      intro l' hl' hmem
      rw [linesFrom_cons] at hmem
      split at hmem
      · rcases List.mem_cons.mp hmem with rfl | hmem
        · rw [List.mem_reverse]
          exact hl'
        · exact ih [] List.not_mem_nil hmem
      · rename_i hc
        refine ih (c :: l') (fun hnl => ?_) hmem
        rcases List.mem_cons.mp hnl with rfl | hnl
        · exact hc rfl
        · exact hl' hnl
  exact hno t [] List.not_mem_nil hl

/-- The characters of a line are characters of the text. -/
theorem mem_of_mem_linesOf {t l : Text} (hl : l ∈ linesOf t) {c : Char} (hc : c ∈ l) : c ∈ t :=
  (mem_linesFrom hl hc).resolve_left List.not_mem_nil

/-- Induction over the lines of a text. -/
theorem lines_induction {P : Text → Prop} (hsingle : ∀ u, '\n' ∉ u → P u) (hline : ∀ u t, '\n' ∉ u → P t → P (u ++ '\n' :: t))
    (t : Text) : P t := by
  induction hn : t.length using Nat.strongRecOn generalizing t with
  | _ n ih =>
    by_cases ht : '\n' ∈ t
    · obtain ⟨a, b, rfl, ha⟩ := List.eq_append_cons_of_mem ht
      refine hline a b ha (ih b.length ?_ b rfl)
      rw [← hn, List.length_append, List.length_cons]
      omega
    · exact hsingle t ht

theorem linesOf_single {u : Text} (hu : '\n' ∉ u) (hne : u ≠ []) : linesOf u = [u] := linesBy_single (not_newline_of_notMem hu) hne

end ZfsTest
