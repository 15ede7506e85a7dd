import Mathlib.Algebra.GroupWithZero.Nat
import Mathlib.Algebra.Order.BigOperators.Group.List
import Mathlib.Algebra.Order.Group.Nat
import ZfsTest.Text.Glob
import ZfsTest.Text.Separated
import ZfsTest.Text.Words

/-!
# Unquoted expansions

A text that is expanded without quotes is split into fields, each field stands for pathnames, and a command like `echo` puts what comes
out together again with a blank between two words (`spread`). What the pathnames are is the directory's matter; a field that is not a
pattern stays.

The text comes back as it was, for every directory, exactly when it is the row of its fields and none of them is a pattern
(`spread_literal`, `settled_of_crossed`).
-/

namespace ZfsTest.Shell

/-- `*`, `?`, a bracket that is closed, or a list of patterns. -/
def isGlob : Text → Bool
  | [] => false
  | c :: t =>
    c = '*' || c = '?' || (c = '[' && Glob.closes t) || ((c = '@' || c = '+' || c = '!') && t.head? = some '(' && t.contains ')') ||
      isGlob t

/-- A character with which no pattern begins. -/
def isBare (c : Char) : Bool := !(c = '*' || c = '?' || c = '[' || c = '@' || c = '+' || c = '!')

/-- Such characters in front do not matter. -/
theorem isGlob_front {u : Text} (hu : u.all isBare = true) (t : Text) : isGlob (u ++ t) = isGlob t := by
  induction u with
  | nil => rfl
  | cons c u ih =>
    rw [List.all_cons, Bool.and_eq_true] at hu
    obtain ⟨hc, hu⟩ := hu
    simp only [isBare, Bool.not_eq_true', Bool.or_eq_false_iff] at hc
    obtain ⟨⟨⟨⟨⟨hstar, hany⟩, hset⟩, hat⟩, hplus⟩, hnot⟩ := hc
    rw [List.cons_append, isGlob, hstar, hany, hset, hat, hplus, hnot, ih hu]
    rfl

/-- The names in a directory that a field stands for, or the field itself. -/
structure Directory where
  names : Text → List Text
  names_literal : ∀ w, isGlob w = false → names w = [w]

/-- The characters without which a text is no pattern. -/
def isMark (c : Char) : Bool := c = '*' || c = '?' || c = '[' || c = '('

/-- A name for a pattern, with an `x` in the place of each of them. -/
def cross (w : Text) : Text := if isGlob w then w.map fun c => if isMark c then 'x' else c else w

/-- A directory with one such name for every pattern. -/
def Directory.crossed : Directory where
  names w := [cross w]
  names_literal w hw := by rw [cross, if_neg (by simp [hw])]

variable (sp : Char → Bool)

/-- The text that a command prints whose arguments are the fields of `t`. -/
def spread (dir : Directory) (t : Text) : Text := [' '].intercalate ((words sp t).flatMap dir.names)

/-- A text that is the row of its fields, and no field a pattern. -/
structure Settled (t : Text) : Prop where
  spaced : [' '].intercalate (words sp t) = t
  literal : ∀ w ∈ words sp t, isGlob w = false

variable {sp}

theorem spread_literal {t : Text} (h : Settled sp t) (dir : Directory) : spread sp dir t = t := by
  have hnames : (words sp t).flatMap dir.names = words sp t := by
    rw [List.flatMap_congr fun w hw => dir.names_literal w (h.literal w hw), List.flatMap_singleton']
  rw [spread, hnames, h.spaced]

/-! ## Lengths -/

theorem length_intercalate_cons (w : Text) (ws : List Text) :
    ([' '].intercalate (w :: ws)).length = w.length + (ws.map fun u => u.length + 1).sum := by
  induction ws generalizing w with
  | nil => simp
  | cons u us ih =>
    rw [List.intercalate_cons_cons, List.length_append, List.length_append, ih, List.map_cons, List.sum_cons, List.length_singleton]
    omega

/-- The words of a text, each with a separator, are not longer than the text with one. -/
theorem length_words_le (t : Text) : ((words sp t).map fun u => u.length + 1).sum ≤ t.length + 1 := by
  have hone : ∀ u : Text, ((([u] : List Text).filter (· ≠ [])).map fun v => v.length + 1).sum ≤ u.length + 1 := by
    intro u
    by_cases hu : u = []
    · simp [hu]
    · simp [hu]
  induction t using words_induction sp with
  | hsingle u hu =>
    rw [words_unsplit hu]
    exact hone u
  | hsplit u c t hu hc ih =>
    rw [words_append hc, words_unsplit hu, List.map_append, List.sum_append, List.length_append, List.length_cons]
    exact Nat.le_trans (Nat.add_le_add (hone u) ih) (by omega)

theorem crossed_fields (ws : List Text) : ws.flatMap Directory.crossed.names = ws.map cross := List.map_eq_flatMap.symm

theorem length_cross (w : Text) : (cross w).length = w.length := by
  unfold cross
  split
  · exact List.length_map _
  · rfl

theorem length_spread_crossed (t : Text) : (spread sp .crossed t).length ≤ t.length := by
  have hwords := @length_words_le sp t
  have hcross : (((words sp t).map cross).map fun u => u.length + 1).sum = ((words sp t).map fun u => u.length + 1).sum := by
    rw [List.map_map]
    exact congrArg List.sum (List.map_congr_left fun w _ => congrArg Nat.succ (length_cross w))
  rw [spread, crossed_fields]
  cases h : (words sp t).map cross with
  | nil => exact Nat.zero_le _
  | cons u us =>
    rw [h, List.map_cons, List.sum_cons] at hcross
    rw [length_intercalate_cons]
    omega

/-! ## The crossed directory shows all patterns -/

theorem mark_of_isGlob {w : Text} (hw : isGlob w = true) : ∃ c ∈ w, isMark c = true := by
  induction w with
  | nil => cases hw
  | cons c t ih =>
    simp only [isGlob, Bool.or_eq_true, Bool.and_eq_true, decide_eq_true_eq] at hw
    rcases hw with (((rfl | rfl) | ⟨rfl, -⟩) | ⟨⟨-, hparen⟩, -⟩) | hw
    · exact ⟨'*', List.mem_cons_self, rfl⟩
    · exact ⟨'?', List.mem_cons_self, rfl⟩
    · exact ⟨'[', List.mem_cons_self, rfl⟩
    · exact ⟨'(', List.mem_cons_of_mem c (List.mem_of_mem_head? hparen), rfl⟩
    · obtain ⟨d, hd, hmark⟩ := ih hw
      exact ⟨d, List.mem_cons_of_mem c hd, hmark⟩

/-- A pattern does not stand for itself there. -/
theorem isGlob_of_cross {w : Text} (h : cross w = w) : isGlob w = false := by
  by_contra hp
  obtain ⟨c, hc, hmark⟩ := mark_of_isGlob (eq_true_of_ne_false hp)
  rw [cross, if_pos (eq_true_of_ne_false hp)] at h
  have hsame : (if isMark c then 'x' else c) = c := List.map_inj_left.mp (h.trans (List.map_id w).symm) c hc
  rw [if_pos hmark] at hsame
  subst hsame
  cases hmark

theorem cross_front {u : Text} (hu : ∀ c ∈ u, isMark c = false) (t : Text) : ∃ r, cross (u ++ t) = u ++ r := by
  unfold cross
  split
  · have hfront : u.map (fun c => if isMark c then 'x' else c) = u := by
      rw [List.map_congr_left fun c hc => if_neg (by rw [hu c hc]; exact Bool.false_ne_true), List.map_id']
    exact ⟨_, by rw [List.map_append, hfront]⟩
  · exact ⟨t, rfl⟩

theorem words_cross (hx : sp 'x' = false) {t w : Text} (hw : w ∈ words sp t) : words sp (cross w) = [cross w] := by
  unfold cross
  split
  · refine words_single (fun c hc => ?_) (by simpa using ne_nil_of_mem_words hw)
    obtain ⟨d, hd, rfl⟩ := List.mem_map.mp hc
    split
    · exact hx
    · exact not_separator_of_mem_words hw hd
  · exact words_of_mem_words hw

/-- A text that comes back from the crossed directory comes back from every directory. -/
theorem settled_of_crossed {t : Text} (hblank : sp ' ' = true) (hx : sp 'x' = false) (h : spread sp .crossed t = t) :
    Settled sp t := by
  have hwords : (words sp t).map cross = (words sp t).map id := by
    have hrow := congrArg (words sp) h
    rw [spread, crossed_fields, words_intercalate hblank, List.flatMap_map, List.flatMap_congr fun w hw => words_cross hx hw,
      ← List.map_eq_flatMap] at hrow
    rw [List.map_id]
    exact hrow
  rw [spread, crossed_fields, hwords, List.map_id] at h
  exact ⟨h, fun w hw => isGlob_of_cross (List.map_inj_left.mp hwords w hw)⟩

/-- There are no separators but blanks. -/
theorem blank_of_mem_spread {dir : Directory} {t : Text} (hdir : ∀ w ∈ (words sp t).flatMap dir.names, ∀ c ∈ w, sp c = false) {c : Char}
    (hc : c ∈ spread sp dir t) (hsp : sp c = true) : c = ' ' := by
  rcases mem_intercalate hc with hc | ⟨w, hw, hc⟩
  · exact hc
  · rw [hdir w hw c hc] at hsp
    cases hsp

theorem blank_of_mem_crossed (hx : sp 'x' = false) {t : Text} {c : Char} (hc : c ∈ spread sp .crossed t) (hsp : sp c = true) : c = ' ' := by
  refine blank_of_mem_spread (fun w hw d hd => ?_) hc hsp
  rw [crossed_fields, List.mem_map] at hw
  obtain ⟨u, hu, rfl⟩ := hw
  exact not_separator_of_mem_words (by rw [words_cross hx hu]; exact List.mem_cons_self) hd

theorem cross_plain {w : Text} (hw : ∀ c ∈ w, isMark c = false) : cross w = w := by
  refine if_neg fun hp => ?_
  obtain ⟨c, hc, hmark⟩ := mark_of_isGlob hp
  rw [hw c hc] at hmark
  cases hmark

/-- A word and the front of another one, without marks, stay. -/
theorem spread_front (hblank : sp ' ' = true) {w u : Text} (hwne : w ≠ []) (hw : ∀ c ∈ w, sp c = false ∧ isMark c = false)
    (hune : u ≠ []) (hu : ∀ c ∈ u, sp c = false ∧ isMark c = false) (t : Text) :
    ∃ r, spread sp .crossed (w ++ ' ' :: (u ++ t)) = w ++ ' ' :: (u ++ r) := by
  obtain ⟨r, ws, hwords⟩ := words_front (fun c hc => (hu c hc).1) hune t
  obtain ⟨r', hcross⟩ := cross_front (fun c hc => (hu c hc).2) r
  have hrow : spread sp .crossed (w ++ ' ' :: (u ++ t)) = w ++ ' ' :: [' '].intercalate ((u ++ r') :: ws.map cross) := by
    rw [spread, crossed_fields, words_word (fun c hc => (hw c hc).1) hwne hblank, hwords, List.map_cons, List.map_cons, hcross,
      cross_plain fun c hc => (hw c hc).2, List.intercalate_cons_cons, List.append_assoc, List.singleton_append]
  rw [hrow]
  cases ws with
  | nil => exact ⟨r', by simp⟩
  | cons v vs => exact ⟨r' ++ ' ' :: [' '].intercalate ((v :: vs).map cross), by simp [List.intercalate_cons_cons]⟩

/-! ## Rows of fields -/

/-- A row of fields is shorter than a text with two blanks beside each other. -/
theorem single_of_spaced (hblank : sp ' ' = true) {t : Text} (h : [' '].intercalate (words sp t) = t) : ¬[' ', ' '] <:+: t := by
  rintro ⟨l, r, rfl⟩
  have hsplit : words sp (l ++ [' ', ' '] ++ r) = words sp l ++ words sp r := by
    have hbehind := words_append hblank [] r
    rw [words_nil, List.nil_append, List.nil_append] at hbehind
    have hfront := words_append hblank l (' ' :: r)
    rw [hbehind] at hfront
    rw [← hfront, List.append_assoc]
    rfl
  have hl := @length_words_le sp l
  have hr := @length_words_le sp r
  have hlen := congrArg List.length h
  rw [hsplit] at hlen
  have hsum : ((words sp l ++ words sp r).map fun u => u.length + 1).sum ≤ l.length + 1 + (r.length + 1) := by
    rw [List.map_append, List.sum_append]
    exact Nat.add_le_add hl hr
  have hroom : (l ++ [' ', ' '] ++ r).length = l.length + 2 + r.length := by simp only [List.length_append, List.length_cons, List.length_nil]
  rw [hroom] at hlen
  cases hws : words sp l ++ words sp r with
  | nil =>
    rw [hws, List.intercalate_nil, List.length_nil] at hlen
    omega
  | cons u us =>
    rw [hws, List.map_cons, List.sum_cons] at hsum
    rw [hws, length_intercalate_cons] at hlen
    omega

theorem spaced_of_single (t : Text) : (∀ c ∈ t, sp c = true → c = ' ') → ¬[' ', ' '] <:+: t →
    (∀ c ∈ t.head?, sp c = false) → (∀ c ∈ t.getLast?, sp c = false) → [' '].intercalate (words sp t) = t := by
  induction t using words_induction sp with
  | hsingle u hu =>
    intro _ _ _ _
    rw [words_unsplit hu]
    by_cases hne : u = []
    · simp [hne]
    · simp [hne]
  | hsplit u c t hu hc ih =>
    intro hblanks hsingle hhead hlast
    have hblank' : c = ' ' := hblanks c (by simp) hc
    subst hblank'
    have hune : u ≠ [] := by
      rintro rfl
      have hsep := hhead ' ' rfl
      rw [hc] at hsep
      cases hsep
    have htne : t ≠ [] := by
      rintro rfl
      have hsep := hlast ' ' (by simp)
      rw [hc] at hsep
      cases hsep
    have hthead : ∀ d ∈ t.head?, sp d = false := by
      intro d hd
      by_contra hsep
      obtain ⟨r, rfl⟩ : ∃ r, t = d :: r := ⟨t.tail, (List.cons_head?_tail hd).symm⟩
      have hd' : d = ' ' := hblanks d (by simp) (eq_true_of_ne_false hsep)
      subst hd'
      exact hsingle ⟨u, r, by simp⟩
    have htlast : ∀ d ∈ t.getLast?, sp d = false := by
      intro d hd
      refine hlast d ?_
      rw [Option.mem_def, List.getLast?_append, List.getLast?_cons, Option.mem_def.mp hd]
      rfl
    have ih := ih (fun d hd => hblanks d (by simp [hd]))
      (fun hin => hsingle (hin.trans ((List.suffix_cons ' ' t).trans (List.suffix_append u (' ' :: t))).isInfix)) hthead htlast
    have hwne : words sp t ≠ [] := by
      intro hnil
      rw [hnil] at ih
      exact htne ih.symm
    rw [words_word hu hune hc, List.intercalate_cons_of_ne_nil hwne, ih]
    simp

/-- A text without separators at its ends is the row of its fields when they are divided by one blank each. -/
theorem spaced_iff (hblank : sp ' ' = true) {t : Text} (hhead : ∀ c ∈ t.head?, sp c = false) (hlast : ∀ c ∈ t.getLast?, sp c = false) :
    [' '].intercalate (words sp t) = t ↔ (∀ c ∈ t, sp c = true → c = ' ') ∧ ¬[' ', ' '] <:+: t := by
  constructor
  · intro h
    refine ⟨fun c hc hsp => ?_, single_of_spaced hblank h⟩
    rw [← h] at hc
    rcases mem_intercalate hc with hc | ⟨w, hw, hc⟩
    · exact hc
    · rw [not_separator_of_mem_words hw hc] at hsp
      cases hsp
  · rintro ⟨hblanks, hsingle⟩
    exact spaced_of_single t hblanks hsingle hhead hlast

/-- A text between a front of two words and a back: the row of the fields is decided in the text. -/
theorem spaced_framed (hblank : sp ' ' = true) {w u b t : Text} (hwne : w ≠ []) (hw : ∀ c ∈ w, sp c = false) (hune : u ≠ [])
    (hu : ∀ c ∈ u, sp c = false) (hbne : b ≠ []) (hb : ∀ c ∈ b, sp c = false) :
    [' '].intercalate (words sp (w ++ ' ' :: (u ++ (t ++ b)))) = w ++ ' ' :: (u ++ (t ++ b)) ↔
      (∀ c ∈ t, sp c = true → c = ' ') ∧ ¬[' ', ' '] <:+: t := by
  have hno : ∀ {v : Text}, (∀ c ∈ v, sp c = false) → ' ' ∉ v := by
    intro v hv hmem
    rw [hv ' ' hmem] at hblank
    cases hblank
  have hhead : ∀ c ∈ (w ++ ' ' :: (u ++ (t ++ b))).head?, sp c = false := by
    obtain ⟨d, v, rfl⟩ := List.exists_cons_of_ne_nil hwne
    intro c hc
    cases hc
    exact hw d List.mem_cons_self
  have hlast : ∀ c ∈ (w ++ ' ' :: (u ++ (t ++ b))).getLast?, sp c = false := by
    intro c hc
    have hassoc : w ++ ' ' :: (u ++ (t ++ b)) = (w ++ ' ' :: (u ++ t)) ++ b := by simp
    rw [hassoc, Option.mem_def, List.getLast?_append_of_ne_nil _ hbne] at hc
    exact hb c (List.mem_of_getLast? hc)
  rw [spaced_iff hblank hhead hlast]
  have hchars : (∀ c ∈ w ++ ' ' :: (u ++ (t ++ b)), sp c = true → c = ' ') ↔ ∀ c ∈ t, sp c = true → c = ' ' := by
    constructor
    · exact fun h c hc => h c (by simp [hc])
    · intro h c hc hsp
      simp only [List.mem_append, List.mem_cons] at hc
      rcases hc with hc | rfl | hc | hc | hc
      · rw [hw c hc] at hsp
        cases hsp
      · rfl
      · rw [hu c hc] at hsp
        cases hsp
      · exact h c hc hsp
      · rw [hb c hc] at hsp
        cases hsp
  have hwithin : [' ', ' '] <:+: w ++ ' ' :: (u ++ (t ++ b)) ↔ [' ', ' '] <:+: t := by
    constructor
    · intro h
      obtain ⟨d, c, rfl⟩ := List.exists_cons_of_ne_nil hbne
      obtain ⟨v, e, rfl⟩ := (List.eq_nil_or_concat' u).resolve_left hune
      have hd : d ∉ [' ', ' '] := fun hmem => by
        rw [List.mem_pair, or_self] at hmem
        exact hno hb (hmem ▸ List.mem_cons_self)
      have he : e ∉ [' ', ' '] := fun hmem => by
        rw [List.mem_pair, or_self] at hmem
        exact hno hu (hmem ▸ by simp)
      have hassoc : w ++ ' ' :: ((v ++ [e]) ++ (t ++ d :: c)) = (w ++ ' ' :: v) ++ e :: (t ++ d :: c) := by simp
      rw [hassoc] at h
      rcases infix_of_separator he h with h | h
      · have hcount : 2 ≤ (w ++ ' ' :: v).count ' ' := h.sublist.count_le ' '
        have hone : (w ++ ' ' :: v).count ' ' = 1 := by
          rw [List.count_append, List.count_cons_self, List.count_eq_zero.mpr (hno hw),
            List.count_eq_zero.mpr (hno fun c hc => hu c (List.mem_append_left _ hc))]
        omega
      · rcases infix_of_separator hd h with h | h
        · exact h
        · have hcount : 2 ≤ c.count ' ' := h.sublist.count_le ' '
          have hzero : c.count ' ' = 0 := List.count_eq_zero.mpr (hno fun x hx => hb x (List.mem_cons_of_mem d hx))
          omega
    · rintro ⟨l, r, rfl⟩
      exact ⟨w ++ ' ' :: (u ++ l), r ++ b, by simp⟩
  rw [hchars, hwithin]

end ZfsTest.Shell
