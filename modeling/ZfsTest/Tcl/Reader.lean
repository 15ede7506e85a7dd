import ZfsTest.Tcl.Split
import ZfsTest.Tcl.List

/-!
# The reader of lists, character by character

One step of the reader is `Mode.next`: it stands outside of an element, or goes on in the element, or ends it (`next_cases`). A run over
the front of a text leaves a state from which the rest is read (`parseFrom_append`). The elements, with single separators between them,
are never longer than the text that they are read from (`length_join_parseFrom`).

A plain word behind a character at which every escape sequence ends (`Breaker`) is kept, and what is behind it is read on its own
(`parseFrom_word`); the front becomes a front of the same kind (`parseFrom_front`).
-/

namespace ZfsTest.Tcl

/-! ## Escape sequences -/

/-- Characters at which every escape sequence ends. -/
def Breaker (b : Char) : Prop := b = '/' ∨ b = ':' ∨ b = ' '

def isBlank (c : Char) : Bool := c = ' ' || c = '\t'

theorem Breaker.not_hex {b : Char} (hb : Breaker b) : isHex b = false := by
  rcases hb with rfl | rfl | rfl <;> decide

theorem Breaker.not_octal {b : Char} (hb : Breaker b) : isOctal b = false := by
  rcases hb with rfl | rfl | rfl <;> decide

theorem Breaker.ne_backslash {b : Char} (hb : Breaker b) : b ≠ '\\' := by
  rcases hb with rfl | rfl | rfl <;> decide

theorem Breaker.eq_of_blank {b : Char} (hb : Breaker b) (h : isBlank b = true) : ' ' = b := by
  rcases hb with rfl | rfl | rfl
  · cases h
  · cases h
  · rfl

theorem Breaker.backslash_eq {b : Char} (hb : Breaker b) (t : Text) : backslash (b :: t) = (b, t) := by
  rcases hb with rfl | rfl | rfl <;> rfl

theorem takeWhile_break {p : Char → Bool} {b : Char} (hb : p b = false) (u w : Text) :
    (u ++ b :: w).takeWhile p = u.takeWhile p := by
  induction u with
  | nil => simp [hb]
  | cons c u ih => simp [List.takeWhile_cons, ih]

/-- A backslash and one character, but for a newline and numbers. -/
theorem backslash_cases (c : Char) : (∃ d, ∀ t, backslash (c :: t) = (d, t)) ∨ c = '\n' ∨ c = 'x' ∨ c = 'u' ∨ isOctal c = true := by
  by_cases hletter : c ∈ ['a', 'b', 'f', 'n', 'r', 't', 'v']
  · refine Or.inl ?_
    simp only [List.mem_cons, List.not_mem_nil, or_false] at hletter
    rcases hletter with rfl | rfl | rfl | rfl | rfl | rfl | rfl <;> exact ⟨_, fun t => rfl⟩
  · by_cases hspecial : c = '\n' ∨ c = 'x' ∨ c = 'u' ∨ isOctal c = true
    · exact Or.inr hspecial
    · refine Or.inl ⟨c, fun t => ?_⟩
      simp only [List.mem_cons, List.not_mem_nil, or_false, not_or] at hletter hspecial
      simp [backslash, hletter, hspecial]

theorem backslash_newline (t : Text) : backslash ('\n' :: t) = (' ', t.dropWhile isBlank) := rfl

theorem backslash_x (t : Text) : backslash ('x' :: t) = if t.takeWhile isHex = [] then ('x', t)
    else (Char.ofNat (digitsValue 16 (t.takeWhile isHex) % 256), t.drop (t.takeWhile isHex).length) := rfl

theorem backslash_u (t : Text) : backslash ('u' :: t) = if (t.takeWhile isHex).take 4 = [] then ('u', t)
    else (Char.ofNat (digitsValue 16 ((t.takeWhile isHex).take 4)), t.drop ((t.takeWhile isHex).take 4).length) := rfl

theorem backslash_octal {c : Char} (hc : isOctal c = true) (t : Text) : backslash (c :: t) =
    (Char.ofNat (digitsValue 8 (c :: (t.takeWhile isOctal).take 2) % 256), t.drop ((t.takeWhile isOctal).take 2).length) := by
  have hne : ∀ d, isOctal d = false → c ≠ d := by
    rintro d hd rfl
    rw [hc] at hd
    cases hd
  simp [backslash, hne 'a' rfl, hne 'b' rfl, hne 'f' rfl, hne 'n' rfl, hne 'r' rfl, hne 't' rfl, hne 'v' rfl, hne '\n' rfl,
    hne 'x' rfl, hne 'u' rfl, hc]

theorem backslash_length (c : Char) (t : Text) : (backslash (c :: t)).2.length ≤ t.length := by
  rcases backslash_cases c with ⟨d, hd⟩ | rfl | rfl | rfl | hc
  · exact Nat.le_of_eq (congrArg (fun r => r.2.length) (hd t))
  · exact (List.dropWhile_sublist _).length_le
  · rw [backslash_x]
    split
    · exact Nat.le_refl _
    · exact (List.drop_sublist _ _).length_le
  · rw [backslash_u]
    split
    · exact Nat.le_refl _
    · exact (List.drop_sublist _ _).length_le
  · rw [backslash_octal hc]
    exact (List.drop_sublist _ _).length_le

theorem backslash_rest (t : Text) : (backslash t).2.length ≤ t.length := by
  cases t with
  | nil => exact Nat.le_refl _
  | cons c t => exact Nat.le_succ_of_le (backslash_length c t)

theorem collapseFrom_length (n : Nat) (t : Text) : (collapseFrom n t).length ≤ t.length := by
  induction n generalizing t with
  | zero => exact Nat.zero_le _
  | succ n ih =>
    cases t with
    | nil => exact Nat.le_refl _
    | cons c t =>
      rw [collapseFrom]
      split
      · exact Nat.succ_le_succ (Nat.le_trans (ih _) (backslash_rest t))
      · exact Nat.succ_le_succ (ih t)

theorem collapse_length (t : Text) : (collapse t).length ≤ t.length := collapseFrom_length _ _

/-- An escape sequence ends in front of a breaker, or takes it, a blank, behind a newline. -/
theorem backslash_break {b : Char} (hb : Breaker b) (c : Char) (u : Text) {w : Text} (hw : ∀ d ∈ w.head?, isBlank d = false) :
    ∃ d v, (v = [] ∧ d = b ∧ backslash (c :: (u ++ b :: w)) = (d, w) ∧ backslash (c :: (u ++ [b])) = (d, [])) ∨
      (v.length ≤ u.length ∧ backslash (c :: (u ++ b :: w)) = (d, v ++ b :: w) ∧ backslash (c :: (u ++ [b])) = (d, v ++ [b])) := by
  have hdrop : ∀ (k : Nat) (z : Text), k ≤ u.length → (u ++ z).drop k = u.drop k ++ z := fun k z hk => List.drop_append_of_le_length hk
  rcases backslash_cases c with ⟨d, hd⟩ | rfl | rfl | rfl | hc
  · exact ⟨d, u, Or.inr ⟨Nat.le_refl _, hd _, hd _⟩⟩
  · simp only [backslash_newline, List.dropWhile_append]
    split
    · rename_i h
      by_cases hblank : isBlank b = true
      · have hw' : w.dropWhile isBlank = w := by
          cases w with
          | nil => rfl
          | cons d w => rw [List.dropWhile_cons_of_neg (ne_true_of_eq_false (hw d rfl))]
        refine ⟨' ', [], Or.inl ⟨rfl, hb.eq_of_blank hblank, ?_, ?_⟩⟩
        · rw [List.dropWhile_cons_of_pos hblank, hw']
        · rw [List.dropWhile_cons_of_pos hblank]
          rfl
      · refine ⟨' ', [], Or.inr ⟨Nat.zero_le _, ?_, ?_⟩⟩
        · rw [List.dropWhile_cons_of_neg hblank]
          rfl
        · rw [List.dropWhile_cons_of_neg hblank]
          rfl
    · exact ⟨' ', u.dropWhile isBlank, Or.inr ⟨(List.dropWhile_sublist _).length_le, rfl, rfl⟩⟩
  · have hlen : (u.takeWhile isHex).length ≤ u.length := (List.takeWhile_sublist _).length_le
    simp only [backslash_x, takeWhile_break hb.not_hex, hdrop _ _ hlen]
    split
    · exact ⟨_, u, Or.inr ⟨Nat.le_refl _, rfl, rfl⟩⟩
    · exact ⟨_, u.drop _, Or.inr ⟨(List.drop_sublist _ _).length_le, rfl, rfl⟩⟩
  · have hlen : ((u.takeWhile isHex).take 4).length ≤ u.length :=
      Nat.le_trans (List.take_sublist _ _).length_le (List.takeWhile_sublist _).length_le
    simp only [backslash_u, takeWhile_break hb.not_hex, hdrop _ _ hlen]
    split
    · exact ⟨_, u, Or.inr ⟨Nat.le_refl _, rfl, rfl⟩⟩
    · exact ⟨_, u.drop _, Or.inr ⟨(List.drop_sublist _ _).length_le, rfl, rfl⟩⟩
  · have hlen : ((u.takeWhile isOctal).take 2).length ≤ u.length :=
      Nat.le_trans (List.take_sublist _ _).length_le (List.takeWhile_sublist _).length_le
    simp only [backslash_octal hc, takeWhile_break hb.not_octal, hdrop _ _ hlen]
    exact ⟨_, u.drop _, Or.inr ⟨(List.drop_sublist _ _).length_le, rfl, rfl⟩⟩

theorem collapseFrom_eq {n : Nat} {t : Text} (hn : t.length ≤ n) : collapseFrom n t = collapse t := by
  suffices h : ∀ n m (t : Text), t.length ≤ n → t.length ≤ m → collapseFrom n t = collapseFrom m t from h _ _ _ hn (Nat.le_refl _)
  intro n
  induction n with
  | zero =>
    intro m t hn _
    obtain rfl := List.length_eq_zero_iff.mp (Nat.le_zero.mp hn)
    cases m <;> rfl
  | succ n ih =>
    intro m t hn hm
    cases t with
    | nil => cases m <;> rfl
    | cons c t =>
      cases m with
      | zero => exact absurd hm (by simp)
      | succ m =>
        have hn' : t.length ≤ n := Nat.le_of_succ_le_succ hn
        have hm' : t.length ≤ m := Nat.le_of_succ_le_succ hm
        have hrest := backslash_rest t
        rw [collapseFrom, collapseFrom, ih m t hn' hm', ih m _ (Nat.le_trans hrest hn') (Nat.le_trans hrest hm')]

theorem collapse_cons {c : Char} (hc : c ≠ '\\') (t : Text) : collapse (c :: t) = c :: collapse t := by
  rw [collapse, List.length_cons, collapseFrom, if_neg hc]
  rfl

theorem collapse_escape (t : Text) : collapse ('\\' :: t) = (backslash t).1 :: collapse (backslash t).2 := by
  rw [collapse, List.length_cons, collapseFrom, if_pos rfl, collapseFrom_eq (backslash_rest t)]

/-- Behind a breaker the substitution begins anew. -/
theorem collapse_break {b : Char} (hb : Breaker b) (u : Text) {w : Text} (hw : ∀ d ∈ w.head?, isBlank d = false) :
    collapse (u ++ b :: w) = collapse (u ++ [b]) ++ collapse w ∧ ∃ u', collapse (u ++ [b]) = u' ++ [b] := by
  induction hn : u.length using Nat.strongRecOn generalizing u with
  | _ n ih =>
    subst hn
    cases u with
    | nil =>
      rw [List.nil_append, List.nil_append, collapse_cons hb.ne_backslash, collapse_cons hb.ne_backslash]
      exact ⟨rfl, [], rfl⟩
    | cons c u =>
      by_cases hc : c = '\\'
      · subst hc
        cases u with
        | nil =>
          rw [List.cons_append, List.nil_append, List.cons_append, List.nil_append, collapse_escape, collapse_escape, hb.backslash_eq,
            hb.backslash_eq]
          exact ⟨rfl, [], rfl⟩
        | cons c u =>
          obtain ⟨d, v, ⟨-, rfl, h, h'⟩ | ⟨hv, h, h'⟩⟩ := backslash_break hb c u hw
          · rw [List.cons_append, List.cons_append, List.cons_append, List.cons_append, collapse_escape, collapse_escape, h, h']
            exact ⟨rfl, [], rfl⟩
          · obtain ⟨heq, u', hu'⟩ := ih v.length (by simp only [List.length_cons]; omega) v rfl
            rw [List.cons_append, List.cons_append, List.cons_append, List.cons_append, collapse_escape, collapse_escape, h, h']
            exact ⟨congrArg (d :: ·) heq, d :: u', congrArg (d :: ·) hu'⟩
      · obtain ⟨heq, u', hu'⟩ := ih u.length (Nat.lt_succ_self _) u rfl
        rw [List.cons_append, List.cons_append, collapse_cons hc, collapse_cons hc]
        exact ⟨congrArg (c :: ·) heq, c :: u', congrArg (c :: ·) hu'⟩

/-! ## Steps -/

/-- What is left of the element that the reader is in, backwards. -/
def Mode.raw : Mode → Text
  | .gap | .closed => []
  | .bare raw | .bareEsc raw | .blanks raw | .quote raw | .quoteEsc raw | .brace _ raw | .braceEsc _ raw => raw

/-- The element, if it ended here. -/
def Mode.text : Mode → Text
  | .gap | .closed => []
  | .bare raw | .bareEsc raw | .blanks raw | .quote raw | .quoteEsc raw => collapse raw.reverse
  | .brace _ raw | .braceEsc _ raw => raw.reverse

/-- Whether the reader is in an element. -/
def Mode.inside : Mode → Bool
  | .gap | .closed => false
  | _ => true

/-- One character: the elements that end, and the next state. -/
def Mode.next (c : Char) : Mode → Option (List Text × Mode)
  | .gap =>
    if isSpace c then some ([], .gap)
    else if c = '{' then some ([], .brace 0 [])
    else if c = '"' then some ([], .quote [])
    else if c = '\\' then some ([], .bareEsc [c])
    else some ([], .bare [c])
  | .bare raw =>
    if isSpace c then some ([collapse raw.reverse], .gap)
    else if c = '\\' then some ([], .bareEsc (c :: raw))
    else some ([], .bare (c :: raw))
  | .bareEsc raw => if c = '\n' then some ([], .blanks (c :: raw)) else some ([], .bare (c :: raw))
  | .blanks raw =>
    if c = ' ' ∨ c = '\t' then some ([], .blanks (c :: raw))
    else if isSpace c then some ([collapse raw.reverse], .gap)
    else if c = '\\' then some ([], .bareEsc (c :: raw))
    else some ([], .bare (c :: raw))
  | .brace depth raw =>
    if c = '\\' then some ([], .braceEsc depth (c :: raw))
    else if c = '{' then some ([], .brace (depth + 1) (c :: raw))
    else if c = '}' then
      if depth = 0 then some ([raw.reverse], .closed) else some ([], .brace (depth - 1) (c :: raw))
    else some ([], .brace depth (c :: raw))
  | .braceEsc depth raw => some ([], .brace depth (c :: raw))
  | .quote raw =>
    if c = '\\' then some ([], .quoteEsc (c :: raw))
    else if c = '"' then some ([collapse raw.reverse], .closed)
    else some ([], .quote (c :: raw))
  | .quoteEsc raw => some ([], .quote (c :: raw))
  | .closed => if isSpace c then some ([], .gap) else none

-- The mode and the first character decide which case of `parseFrom` reads them.
attribute [local simp] parseFrom

theorem parseFrom_cons (m : Mode) (c : Char) (t : Text) :
    parseFrom m (c :: t) = (m.next c).bind fun r => (parseFrom r.2 t).map fun es => r.1 ++ es := by
  cases m <;> simp only [parseFrom, Mode.next] <;> repeat' split
  all_goals simp

/-- What one step can do: outside of an element; in an element; at the end of an element. -/
theorem next_cases {m m' : Mode} {c : Char} {es : List Text} (h : m.next c = some (es, m')) :
    (m.inside = false ∧ es = [] ∧ m'.raw.length ≤ 1) ∨
    (m.inside = true ∧ es = [] ∧ m'.inside = true ∧ m'.raw = c :: m.raw) ∨
    (m.inside = true ∧ es = [m.text] ∧ m'.inside = false ∧ m'.raw = []) := by
  cases m <;> simp only [Mode.next] at h <;> repeat' split at h
  all_goals cases h
  all_goals simp [Mode.inside, Mode.raw, Mode.text]

/-! ## Runs -/

/-- The elements that end in a text, and the state behind it. -/
def Mode.run : Mode → Text → Option (List Text × Mode)
  | m, [] => some ([], m)
  | m, c :: t => (m.next c).bind fun r => (r.2.run t).map fun q => (r.1 ++ q.1, q.2)

theorem parseFrom_append (m : Mode) (u t : Text) :
    parseFrom m (u ++ t) = (m.run u).bind fun r => (parseFrom r.2 t).map fun es => r.1 ++ es := by
  induction u generalizing m with
  | nil => simp [Mode.run]
  | cons c u ih =>
    rw [List.cons_append, parseFrom_cons, Mode.run]
    cases m.next c with
    | none => rfl
    | some r =>
      simp only [Option.bind_some, ih, Option.bind_map, Option.map_bind]
      congr 1
      funext q
      simp [Function.comp_def]

theorem run_concat {m m' : Mode} {u : Text} {c : Char} {es : List Text} (h : m.run (u ++ [c]) = some (es, m')) :
    ∃ (m₁ : Mode) (es₁ es₂ : List Text), m₁.next c = some (es₂, m') ∧ es = es₁ ++ es₂ := by
  induction u generalizing m es with
  | nil =>
    simp only [List.nil_append, Mode.run, Option.bind_eq_some_iff, Option.map_some, Option.some_inj] at h
    obtain ⟨⟨es₂, m₂⟩, hnext, hr⟩ := h
    cases hr
    exact ⟨m, [], es₂, hnext, by simp⟩
  | cons d u ih =>
    simp only [List.cons_append, Mode.run, Option.bind_eq_some_iff, Option.map_eq_some_iff] at h
    obtain ⟨⟨es₁, m₁⟩, -, ⟨es₂, m₂⟩, hrun, hr⟩ := h
    cases hr
    obtain ⟨m₃, es₃, es₄, hnext, rfl⟩ := ih hrun
    exact ⟨m₃, es₁ ++ es₃, es₄, hnext, by simp⟩

/-- The texts of elements, each with a separator behind it. -/
def closedText (s : Char) (es : List Text) : Text := es.flatMap fun e => e ++ [s]

theorem text_length (m : Mode) : m.text.length ≤ m.raw.length := by
  cases m <;> simp only [Mode.text, Mode.raw, List.length_reverse, Nat.le_refl]
  all_goals exact Nat.le_trans (collapse_length _) (Nat.le_of_eq (List.length_reverse))

theorem next_length {s c : Char} {m m' : Mode} {es : List Text} (h : m.next c = some (es, m')) :
    (closedText s es).length + m'.raw.length ≤ m.raw.length + 1 := by
  rcases next_cases h with ⟨-, rfl, hle⟩ | ⟨-, rfl, -, hraw⟩ | ⟨-, rfl, -, hraw⟩
  · have hnil : (closedText s []).length = 0 := rfl
    omega
  · rw [hraw]
    exact Nat.le_of_eq (Nat.zero_add _)
  · have htext := text_length m
    rw [hraw, closedText, List.flatMap_singleton, List.length_append]
    simpa using htext

/-- Nothing becomes longer. -/
theorem run_length {s : Char} {m m' : Mode} {t : Text} {es : List Text} (h : m.run t = some (es, m')) :
    (closedText s es).length + m'.raw.length ≤ m.raw.length + t.length := by
  induction t generalizing m es with
  | nil =>
    cases h
    exact Nat.le_of_eq (Nat.zero_add _)
  | cons c t ih =>
    simp only [Mode.run, Option.bind_eq_some_iff, Option.map_eq_some_iff] at h
    obtain ⟨⟨es₁, m₁⟩, hnext, ⟨es₂, m₂⟩, hrun, hr⟩ := h
    cases hr
    have hone := next_length (s := s) hnext
    have hrest := ih hrun
    simp only [closedText, List.flatMap_append, List.length_append, List.length_cons] at hone hrest ⊢
    omega

/-- Behind an element that the reader was in there is the element. -/
theorem run_inside {m m' : Mode} {t : Text} {es : List Text} (h : m.run t = some (es, m')) (hm : m.inside = true)
    (hm' : m'.inside = false) : es ≠ [] := by
  induction t generalizing m es with
  | nil =>
    cases h
    rw [hm] at hm'
    cases hm'
  | cons c t ih =>
    simp only [Mode.run, Option.bind_eq_some_iff, Option.map_eq_some_iff] at h
    obtain ⟨⟨es₁, m₁⟩, hnext, ⟨es₂, m₂⟩, hrun, hr⟩ := h
    cases hr
    rcases next_cases hnext with ⟨hout, -⟩ | ⟨-, -, hin, -⟩ | ⟨-, rfl, -⟩
    · rw [hm] at hout
      cases hout
    · exact fun h => ih hrun hin (List.append_eq_nil_iff.mp h).2
    · exact List.cons_ne_nil _ _

theorem join_cons (s : Char) (e : Text) {es : List Text} (h : es ≠ []) : join s (e :: es) = e ++ s :: join s es := by
  rw [join, List.intercalate_cons_of_ne_nil h, List.append_assoc]
  rfl

theorem join_single (s : Char) (e : Text) : join s [e] = e := List.intercalate_singleton

theorem join_append (s : Char) (es₁ : List Text) {es₂ : List Text} (h : es₂ ≠ []) :
    join s (es₁ ++ es₂) = closedText s es₁ ++ join s es₂ := by
  induction es₁ with
  | nil => rfl
  | cons e es₁ ih =>
    rw [List.cons_append, join_cons s e (by simp [h]), ih, closedText, closedText, List.flatMap_cons]
    simp

theorem join_length_le (s : Char) (es : List Text) : (join s es).length ≤ (closedText s es).length := by
  induction es with
  | nil => exact Nat.le_refl _
  | cons e es ih =>
    rw [closedText, List.flatMap_cons, ← closedText, List.length_append, List.length_append, List.length_singleton]
    by_cases hes : es = []
    · subst hes
      rw [join_single]
      omega
    · rw [join_cons s e hes, List.length_append, List.length_cons]
      omega

theorem parseFrom_nil (s : Char) {m : Mode} {es : List Text} (h : parseFrom m [] = some es) :
    (join s es).length ≤ m.raw.length := by
  have htext := text_length m
  cases m <;> simp only [parseFrom, Option.some_inj, reduceCtorEq] at h <;> subst h
  all_goals first | exact Nat.zero_le _ | (rw [join_single]; exact htext)

/-- The elements with separators between them are no longer than the text that they are read from. -/
theorem length_join_parseFrom (s : Char) {m : Mode} {t : Text} {es : List Text} (h : parseFrom m t = some es) :
    (join s es).length ≤ m.raw.length + t.length := by
  rw [← List.append_nil t, parseFrom_append, Option.bind_eq_some_iff] at h
  obtain ⟨⟨es₁, m'⟩, hrun, h⟩ := h
  obtain ⟨es₂, hend, rfl⟩ := Option.map_eq_some_iff.mp h
  have hfront := run_length (s := s) hrun
  have hback := parseFrom_nil s hend
  simp only at hback ⊢
  by_cases hes : es₂ = []
  · have hle := join_length_le s es₁
    rw [hes, List.append_nil]
    omega
  · rw [join_append s es₁ hes, List.length_append]
    omega

/-! ## A word in an element -/

/-- More of the element in front. -/
def Mode.behind (r : Text) : Mode → Mode
  | .gap => .gap
  | .bare raw => .bare (raw ++ r)
  | .bareEsc raw => .bareEsc (raw ++ r)
  | .blanks raw => .blanks (raw ++ r)
  | .brace depth raw => .brace depth (raw ++ r)
  | .braceEsc depth raw => .braceEsc depth (raw ++ r)
  | .quote raw => .quote (raw ++ r)
  | .quoteEsc raw => .quoteEsc (raw ++ r)
  | .closed => .closed

/-- More of the first element in front. -/
def extend (z : Text) : List Text → List Text
  | [] => []
  | e :: es => (z ++ e) :: es

/-- The text for more of the element in front does not depend on what is behind it. -/
def Stands (m : Mode) (r z : Text) : Prop :=
  match m with
  | .brace _ _ | .braceEsc _ _ => r.reverse = z
  | _ => ∀ w, collapse (r.reverse ++ w) = z ++ collapse w

theorem next_behind {m : Mode} {r z : Text} (hm : m.inside = true) (hs : Stands m r z) (c : Char) :
    (m.behind r).next c = (m.next c).map fun q => (extend z q.1, q.2.behind r) := by
  cases m <;> simp only [Mode.next, Mode.behind] <;> repeat' split
  all_goals simp_all [Stands, extend, Mode.inside]

theorem Stands.next {m m' : Mode} {c : Char} {es : List Text} {r z : Text} (hs : Stands m r z) (hm : m.inside = true)
    (h : m.next c = some (es, m')) (hm' : m'.inside = true) : Stands m' r z := by
  cases m <;> simp only [Mode.next] at h <;> repeat' split at h
  all_goals cases h
  all_goals first | exact hs | exact absurd hm Bool.false_ne_true | exact absurd hm' Bool.false_ne_true

theorem behind_outside {m : Mode} (hm : m.inside = false) (r : Text) : m.behind r = m := by
  cases m <;> first | rfl | cases hm

/-- What is behind is read as if there were nothing in front. -/
theorem parseFrom_behind {m : Mode} {r z : Text} (hm : m.inside = true) (hs : Stands m r z) (t : Text) :
    parseFrom (m.behind r) t = (parseFrom m t).map (extend z) := by
  induction t generalizing m with
  | nil => cases m <;> simp_all [Mode.behind, Stands, extend, Mode.inside]
  | cons c t ih =>
    rw [parseFrom_cons, parseFrom_cons, next_behind hm hs, Option.bind_map, Option.map_bind]
    cases hnext : m.next c with
    | none => rfl
    | some q =>
      obtain ⟨es, m'⟩ := q
      simp only [Option.bind_some, Function.comp_apply]
      rcases next_cases hnext with ⟨hout, -⟩ | ⟨-, rfl, hin, -⟩ | ⟨-, rfl, hout, -⟩
      · rw [hm] at hout
        cases hout
      · rw [ih hin (hs.next hm hnext hin)]
        simp only [extend, List.nil_append, Option.map_id']
      · rw [behind_outside hout, Option.map_map]
        rfl

/-- The reader behind a character at which an escape sequence ends. -/
inductive Ready : Mode → Prop
  | gap : Ready .gap
  | bare {b : Char} (hb : Breaker b) (raw : Text) : Ready (.bare (b :: raw))
  | blanks {b : Char} (hb : Breaker b) (raw : Text) : Ready (.blanks (b :: raw))
  | brace {b : Char} (hb : Breaker b) (depth : Nat) (raw : Text) : Ready (.brace depth (b :: raw))
  | quote {b : Char} (hb : Breaker b) (raw : Text) : Ready (.quote (b :: raw))

theorem ready_next {m m' : Mode} {b : Char} {es : List Text} (hb : Breaker b) (h : m.next b = some (es, m')) : Ready m' := by
  have hne : b ≠ '\\' ∧ b ≠ '{' ∧ b ≠ '}' ∧ b ≠ '"' ∧ b ≠ '\n' := by rcases hb with rfl | rfl | rfl <;> decide
  obtain ⟨h1, h2, h3, h4, h5⟩ := hne
  have hsp : ∀ raw, isSpace b = false → Ready (.bare (b :: raw)) := fun raw _ => .bare hb raw
  cases m <;> simp only [Mode.next, h1, h2, h3, h4, h5, if_false] at h <;> repeat' split at h
  all_goals cases h
  all_goals first | exact .gap | exact .bare hb _ | exact .blanks hb _ | exact .brace hb _ _ | exact .quote hb _

/-- The state behind a word, without what was read of the element. -/
def Mode.fresh : Mode → Mode
  | .brace depth _ => .brace depth []
  | .quote _ => .quote []
  | _ => .bare []

theorem parseFrom_blanks {w : Text} (hw : Plain w) (raw t : Text) :
    parseFrom (.blanks raw) (w ++ t) = parseFrom (.bare raw) (w ++ t) := by
  obtain ⟨hne, hc⟩ := hw
  cases w with
  | nil => exact absurd rfl hne
  | cons c w =>
    have hs := (of_plainChar (hc c List.mem_cons_self)).1
    have hblank : ¬(c = ' ' ∨ c = '\t') := by
      rintro (rfl | rfl)
      · cases hs
      · cases hs
    rw [List.cons_append, parseFrom, parseFrom, if_neg hblank]

theorem parseFrom_brace {u : Text} (hu : ∀ c ∈ u, plainChar c = true) (depth : Nat) (raw t : Text) :
    parseFrom (.brace depth raw) (u ++ t) = parseFrom (.brace depth (u.reverse ++ raw)) t := by
  induction u generalizing raw with
  | nil => rfl
  | cons c u ih =>
    obtain ⟨-, ho, hc, -, -, -, -, -, hb, -⟩ := of_plainChar (hu c List.mem_cons_self)
    rw [List.cons_append, parseFrom, if_neg hb, if_neg ho, if_neg hc, ih fun d hd => hu d (List.mem_cons_of_mem _ hd)]
    simp

theorem parseFrom_quote {u : Text} (hu : ∀ c ∈ u, plainChar c = true) (raw t : Text) :
    parseFrom (.quote raw) (u ++ t) = parseFrom (.quote (u.reverse ++ raw)) t := by
  induction u generalizing raw with
  | nil => rfl
  | cons c u ih =>
    obtain ⟨-, -, -, -, -, -, -, hq, hb, -⟩ := of_plainChar (hu c List.mem_cons_self)
    rw [List.cons_append, parseFrom, if_neg hb, if_neg hq, ih fun d hd => hu d (List.mem_cons_of_mem _ hd)]
    simp

theorem collapse_append {u : Text} (hu : '\\' ∉ u) (w : Text) : collapse (u ++ w) = u ++ collapse w := by
  induction u with
  | nil => rfl
  | cons c u ih =>
    have hc : c ≠ '\\' := fun h => hu (h ▸ List.mem_cons_self)
    rw [List.cons_append, collapse_cons hc, ih fun h => hu (List.mem_cons_of_mem _ h)]
    rfl

/-- A plain word begins with no blank. -/
theorem Plain.head {w : Text} (hw : Plain w) (t : Text) : ∀ d ∈ (w ++ t).head?, isBlank d = false := by
  obtain ⟨hne, hc⟩ := hw
  cases w with
  | nil => exact absurd rfl hne
  | cons c w =>
    intro d hd
    obtain rfl : c = d := Option.some_inj.mp hd
    have hs := (of_plainChar (hc c List.mem_cons_self)).1
    simp only [isSpace, Bool.or_eq_false_iff] at hs
    simp [isBlank, hs]

theorem stands_word {w : Text} (hw : Plain w) {b : Char} (hb : Breaker b) (raw x : Text) :
    collapse ((w.reverse ++ b :: raw).reverse ++ x) = collapse (b :: raw).reverse ++ w ++ collapse x := by
  have h := (collapse_break hb raw.reverse (hw.head x)).1
  rw [collapse_append hw.backslash_notMem] at h
  simpa using h

/-- A plain word behind a breaker is kept, and what is behind it is read on its own. -/
theorem parseFrom_word {w : Text} (hw : Plain w) {m : Mode} (hm : Ready m) (t : Text) :
    parseFrom m (w ++ t) = (parseFrom m.fresh t).map (extend (m.text ++ w)) := by
  cases hm with
  | gap =>
    have hs : Stands (.bare []) w.reverse w := fun x => by rw [List.reverse_reverse, collapse_append hw.backslash_notMem]
    exact (parse_append hw t).trans (parseFrom_behind rfl hs t)
  | bare hb raw =>
    rw [parseFrom_bare hw.2]
    exact parseFrom_behind (m := .bare []) rfl (stands_word hw hb raw) t
  | blanks hb raw =>
    rw [parseFrom_blanks hw, parseFrom_bare hw.2]
    exact parseFrom_behind (m := .bare []) rfl (stands_word hw hb raw) t
  | brace hb depth raw =>
    rw [parseFrom_brace hw.2]
    refine parseFrom_behind (m := .brace depth []) rfl ?_ t
    simp [Stands, Mode.text]
  | quote hb raw =>
    rw [parseFrom_quote hw.2]
    exact parseFrom_behind (m := .quote []) rfl (stands_word hw hb raw) t

/-! ## A front with a word behind it -/

/-- A text that ends with a breaker. -/
def Ends (g : Text) : Prop := ∃ u b, g = u ++ [b] ∧ Breaker b

theorem Ends.append {g : Text} (hg : Ends g) (u : Text) : Ends (u ++ g) := by
  obtain ⟨v, b, rfl, hb⟩ := hg
  exact ⟨u ++ v, b, by rw [List.append_assoc], hb⟩

theorem Ready.text_ends {m : Mode} (hm : Ready m) : m = .gap ∨ Ends m.text := by
  have hcollapse : ∀ {b : Char} (hb : Breaker b) (raw : Text), Ends (collapse (b :: raw).reverse) := by
    intro b hb raw
    obtain ⟨u, hu⟩ := (collapse_break (w := []) hb raw.reverse (by simp)).2
    exact ⟨u, b, by rw [List.reverse_cons, hu], hb⟩
  cases hm with
  | gap => exact Or.inl rfl
  | bare hb raw => exact Or.inr (hcollapse hb raw)
  | blanks hb raw => exact Or.inr (hcollapse hb raw)
  | brace hb depth raw => exact Or.inr ⟨raw.reverse, _, List.reverse_cons, hb⟩
  | quote hb raw => exact Or.inr (hcollapse hb raw)

theorem closedText_ends {s : Char} (hs : Breaker s) {es : List Text} (h : es ≠ []) : Ends (closedText s es) := by
  obtain ⟨es, e, rfl⟩ := List.eq_nil_or_concat' es |>.resolve_left h
  exact ⟨closedText s es ++ e, s, by simp [closedText], hs⟩

theorem join_extend (s : Char) (z : Text) {es : List Text} (h : es ≠ []) : join s (extend z es) = z ++ join s es := by
  cases es with
  | nil => exact absurd rfl h
  | cons e es =>
    cases es with
    | nil => rw [extend, join_single, join_single]
    | cons e' es => rw [extend, join_cons s _ (List.cons_ne_nil _ _), join_cons s _ (List.cons_ne_nil _ _), List.append_assoc]

theorem parseFrom_ne_nil {m : Mode} (hm : m.inside = true) {t : Text} {es : List Text} (h : parseFrom m t = some es) : es ≠ [] := by
  induction t generalizing m es with
  | nil => cases m <;> simp_all [Mode.inside] <;> simp [← h]
  | cons c t ih =>
    rw [parseFrom_cons, Option.bind_eq_some_iff] at h
    obtain ⟨⟨es₁, m'⟩, hnext, h⟩ := h
    obtain ⟨es₂, hrest, rfl⟩ := Option.map_eq_some_iff.mp h
    rcases next_cases hnext with ⟨hout, -⟩ | ⟨-, rfl, hin, -⟩ | ⟨-, rfl, -⟩
    · rw [hm] at hout
      cases hout
    · exact ih hin hrest
    · exact List.cons_ne_nil _ _

theorem Mode.fresh_inside (m : Mode) : m.fresh.inside = true := by
  cases m <;> rfl

theorem Mode.fresh_raw (m : Mode) : m.fresh.raw = [] := by
  cases m <;> rfl

/-- A front that ends with a breaker and does not become longer, a plain word that is kept, and what is read behind it. -/
theorem parseFrom_front {s : Char} (hs : Breaker s) {m : Mode} {g w t : Text} {es : List Text} (hg : Ends g ∨ g = [] ∧ m = .gap)
    (hw : Plain w) (h : parseFrom m (g ++ (w ++ t)) = some es) :
    ∃ g' m' es', parseFrom m' t = some es' ∧ m'.inside = true ∧ m'.raw = [] ∧ join s es = g' ++ (w ++ join s es') ∧
      g'.length ≤ m.raw.length + g.length ∧ (Ends g' ∨ g' = [] ∧ m.inside = false) := by
  rw [parseFrom_append, Option.bind_eq_some_iff] at h
  obtain ⟨⟨es₁, m₁⟩, hrun, h⟩ := h
  obtain ⟨es₂, hword, rfl⟩ := Option.map_eq_some_iff.mp h
  have hready : Ready m₁ := by
    rcases hg with ⟨u, b, rfl, hb⟩ | ⟨rfl, rfl⟩
    · obtain ⟨m₂, es₃, es₄, hnext, -⟩ := run_concat hrun
      exact ready_next hb hnext
    · cases hrun
      exact .gap
  rw [parseFrom_word hw hready] at hword
  obtain ⟨es', hrest, rfl⟩ := Option.map_eq_some_iff.mp hword
  have hne := parseFrom_ne_nil m₁.fresh_inside hrest
  have hextend : extend (m₁.text ++ w) es' ≠ [] := by
    cases es' with
    | nil => exact absurd rfl hne
    | cons e es' => exact List.cons_ne_nil _ _
  refine ⟨closedText s es₁ ++ m₁.text, m₁.fresh, es', hrest, m₁.fresh_inside, m₁.fresh_raw, ?_, ?_, ?_⟩
  · rw [join_append s es₁ hextend, join_extend s _ hne]
    simp only [List.append_assoc]
  · have hlen := run_length (s := s) hrun
    have htext := text_length m₁
    rw [List.length_append]
    omega
  · rcases hready.text_ends with rfl | hends
    · rw [Mode.text, List.append_nil]
      by_cases hes : es₁ = []
      · subst hes
        refine Or.inr ⟨rfl, ?_⟩
        by_contra hin
        rw [Bool.not_eq_false] at hin
        exact run_inside hrun hin rfl rfl
      · exact Or.inl (closedText_ends hs hes)
    · exact Or.inl (hends.append _)

end ZfsTest.Tcl
