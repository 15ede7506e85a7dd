import ZfsTest.Shell.Saved
import ZfsTest.Text.Fenced

/-!
# Exported variables

Lines `export NAME=…value…` that are written with unquoted values, and read again by a shell. What stands around the value is a parameter
(`Frame`), and so is what the shell reads between them.

A value that neither the writing nor the reading changes (`Frame.Plain`) is found again; and if all values are found again that were
written in the crossed directory, by a reader whose results do not grow (`Reads`), they are plain (`plain_of_read`).
-/

namespace ZfsTest.Shell

/-! ## Names -/

def isNameChar (c : Char) : Bool := c.isAlphanum || c = '_'

/-- A text that is the name of a variable. -/
def isName (n : Text) : Bool := n.all isNameChar && n.head?.any fun c => !c.isDigit

abbrev Var := {n : Text // isName n = true}

theorem isNameChar_of_isName {n : Text} (hn : isName n = true) : ∀ c ∈ n, isNameChar c = true := by
  rw [isName, Bool.and_eq_true] at hn
  exact List.all_eq_true.mp hn.1

theorem ne_nil_of_isName {n : Text} (hn : isName n = true) : n ≠ [] := by
  rintro rfl
  cases hn

theorem ne_of_isNameChar {c d : Char} (hc : isNameChar c = true) (hd : isNameChar d = false) : c ≠ d := by
  rintro rfl
  rw [hd] at hc
  cases hc

theorem isMark_of_isNameChar {c : Char} (hc : isNameChar c = true) : isMark c = false := by
  simp only [isMark, Bool.or_eq_false_iff, decide_eq_false_iff_not]
  refine ⟨⟨⟨?_, ?_⟩, ?_⟩, ?_⟩ <;> exact ne_of_isNameChar hc (by decide)

/-! ## Lines -/

def exportWord : Text := "export".toList

theorem exportWord_name : isName exportWord = true := by decide

/-- A character that is no separator, no part of a pattern, and no backslash. -/
def Still (sp : Char → Bool) (c : Char) : Prop := sp c = false ∧ isMark c = false ∧ c ≠ '\\'

/-- What stands between the name of a variable and its value, and behind the value. -/
structure Frame (sp : Char → Bool) where
  opening : Text → Text
  closing : Text
  blank : sp ' ' = true
  newline : sp '\n' = true
  name : ∀ c, isNameChar c = true → sp c = false
  opening_equal : ∀ n, (opening n).head? = some '='
  opening_still : ∀ n, isName n = true → ∀ c ∈ opening n, Still sp c
  closing_cons : closing ≠ []
  closing_still : ∀ c ∈ closing, sp c = false ∧ isEscape c = false

/-- How a text behind a front may be read: nothing grows, and where nothing shrinks nothing changes. -/
def Reads (b t v : Text) : Prop := (v ++ b).length ≤ t.length ∧ (t.length = (v ++ b).length → t = v ++ b)

theorem Reads.cons {b t v : Text} (h : Reads b t v) (c : Char) : Reads b (c :: t) (c :: v) := by
  obtain ⟨hle, heq⟩ := h
  refine ⟨Nat.succ_le_succ hle, fun hlen => ?_⟩
  rw [List.cons_append, heq (Nat.succ.inj hlen)]

namespace Frame

variable {sp : Char → Bool} (f : Frame sp)

/-- The line of a variable up to its value. -/
def front (n : Text) : Text := exportWord ++ ' ' :: (n ++ f.opening n)

def line (n value : Text) : Text := f.front n ++ (value ++ f.closing)

/-- The name in a line, and what stands behind its front. -/
def exported (l : Text) : Option (Text × Text) :=
  ((exportWord ++ [' ']).isPrefixOf? l).bind fun t =>
    let n := t.takeWhile isNameChar
    if isName n then ((f.opening n).isPrefixOf? (t.dropWhile isNameChar)).map fun u => (n, u) else none

/-- The assignment in a line. `unquoted` reads what stands behind the front. -/
def parse (unquoted : Text → Option Text) (l : Text) : Option (List (Text × Text)) :=
  (f.exported l).bind fun x => (unquoted x.2).map fun v => [(x.1, v)]

/-- A value that no stage changes. -/
structure Plain (unquoted : Text → Option Text) (n value : Text) : Prop where
  blank : ∀ c ∈ value, sp c = true → c = ' '
  single : ¬[' ', ' '] <:+: value
  literal : ∀ w ∈ words sp (f.line n value), isGlob w = false
  unescaped : escapes value = false
  unquoted : unquoted (value ++ f.closing) = some value

/-! ## Fronts -/

theorem still_name (f : Frame sp) {n : Text} (hn : isName n = true) : ∀ c ∈ n, Still sp c := fun c hc =>
  have hchar := isNameChar_of_isName hn c hc
  ⟨f.name c hchar, isMark_of_isNameChar hchar, ne_of_isNameChar hchar (by decide)⟩

variable {f}

theorem still_back {n : Text} (hn : isName n = true) : ∀ c ∈ n ++ f.opening n, Still sp c := fun c hc =>
  (List.mem_append.mp hc).elim (f.still_name hn c) (f.opening_still n hn c)

theorem mem_front {n : Text} (hn : isName n = true) {c : Char} (hc : c ∈ f.front n) : c = ' ' ∨ Still sp c := by
  rw [front, List.mem_append, List.mem_cons] at hc
  rcases hc with hc | hc | hc
  · exact Or.inr (f.still_name exportWord_name c hc)
  · exact Or.inl hc
  · exact Or.inr (still_back hn c hc)

theorem front_append (n t : Text) : f.front n ++ t = exportWord ++ ' ' :: ((n ++ f.opening n) ++ t) := by
  rw [front, List.append_assoc, List.cons_append]

theorem exported_iff {l n t : Text} : f.exported l = some (n, t) ↔ isName n = true ∧ l = f.front n ++ t := by
  have hfront : f.front n ++ t = (exportWord ++ [' ']) ++ (n ++ (f.opening n ++ t)) := by
    rw [front_append, List.append_assoc, List.append_assoc]
    rfl
  rw [hfront, exported]
  constructor
  · intro h
    obtain ⟨u, hu, h⟩ := Option.bind_eq_some_iff.mp h
    dsimp only at h
    split at h
    · rename_i hn
      obtain ⟨v, hv, heq⟩ := Option.map_eq_some_iff.mp h
      rw [Prod.mk.injEq] at heq
      obtain ⟨rfl, rfl⟩ := heq
      rw [List.isPrefixOf?_eq_some_iff_append_eq] at hu hv
      refine ⟨hn, ?_⟩
      rw [← hu, hv, List.takeWhile_append_dropWhile]
    · cases h
  · rintro ⟨hn, rfl⟩
    have hname := isNameChar_of_isName hn
    have hequal : isNameChar '=' = false := by decide
    obtain ⟨r, hr⟩ : ∃ r, f.opening n ++ t = '=' :: r :=
      ⟨(f.opening n).tail ++ t, by rw [← List.cons_append, List.cons_head?_tail (f.opening_equal n)]⟩
    have htake : (n ++ (f.opening n ++ t)).takeWhile isNameChar = n := by
      rw [List.takeWhile_append_of_pos hname, hr, List.takeWhile_cons_of_neg (by simp [hequal]), List.append_nil]
    have hdrop : (n ++ (f.opening n ++ t)).dropWhile isNameChar = f.opening n ++ t := by
      rw [List.dropWhile_append_of_pos hname, hr, List.dropWhile_cons_of_neg (by simp [hequal])]
    rw [List.isPrefixOf?_eq_some_iff_append_eq.mpr rfl, Option.bind_some]
    dsimp only
    rw [htake, hdrop, if_pos hn, List.isPrefixOf?_eq_some_iff_append_eq.mpr rfl]
    rfl

theorem parse_line {unquoted : Text → Option Text} {n value : Text} (hn : isName n = true)
    (h : unquoted (value ++ f.closing) = some value) : f.parse unquoted (f.line n value) = some [(n, value)] := by
  rw [parse, line, exported_iff.mpr ⟨hn, rfl⟩, Option.bind_some, h]
  rfl

/-- An assignment that is read stands in a line with the front of its name. -/
theorem mem_parse {unquoted : Text → Option Text} {l n v : Text} {as : List (Text × Text)} (h : f.parse unquoted l = some as)
    (hmem : (n, v) ∈ as) : ∃ t, l = f.front n ++ t ∧ unquoted t = some v := by
  obtain ⟨x, hx, h⟩ := Option.bind_eq_some_iff.mp h
  obtain ⟨w, hw, rfl⟩ := Option.map_eq_some_iff.mp h
  rw [List.mem_singleton, Prod.mk.injEq] at hmem
  obtain ⟨rfl, rfl⟩ := hmem
  exact ⟨x.2, (exported_iff.mp hx).2, hw⟩

theorem front_unique {m n t u : Text} (hm : isName m = true) (hn : isName n = true) (h : f.front m ++ t = f.front n ++ u) : m = n := by
  have hm' := @exported_iff sp f _ m t |>.mpr ⟨hm, rfl⟩
  have hn' := @exported_iff sp f _ n u |>.mpr ⟨hn, rfl⟩
  rw [h, hn', Option.some.injEq, Prod.mk.injEq] at hm'
  exact hm'.1.symm

/-! ## Plain values -/

theorem settled_line {n : Text} (hn : isName n = true) (value : Text) :
    Settled sp (f.line n value) ↔
      ((∀ c ∈ value, sp c = true → c = ' ') ∧ ¬[' ', ' '] <:+: value) ∧ ∀ w ∈ words sp (f.line n value), isGlob w = false := by
  have hspaced : [' '].intercalate (words sp (f.line n value)) = f.line n value ↔
      (∀ c ∈ value, sp c = true → c = ' ') ∧ ¬[' ', ' '] <:+: value := by
    rw [line, front_append]
    exact spaced_framed f.blank (ne_nil_of_isName exportWord_name) (fun c hc => (f.still_name exportWord_name c hc).1)
      (by simp [ne_nil_of_isName hn]) (fun c hc => (still_back hn c hc).1) f.closing_cons fun c hc => (f.closing_still c hc).1
  rw [← hspaced]
  exact ⟨fun h => ⟨h.spaced, h.literal⟩, fun h => ⟨h.1, h.2⟩⟩

theorem backslash_notMem_front {n : Text} (hn : isName n = true) : '\\' ∉ f.front n := by
  intro hmem
  rcases mem_front hn hmem with h | h
  · exact absurd h (by decide)
  · exact h.2.2 rfl

theorem escapes_line {n : Text} (hn : isName n = true) (value : Text) : escapes (f.line n value) = escapes value := by
  rw [line, escapes_front (backslash_notMem_front hn), escapes_behind fun c hc => (f.closing_still c hc).2]

theorem plain_iff {unquoted : Text → Option Text} {n : Text} (hn : isName n = true) (value : Text) :
    f.Plain unquoted n value ↔
      Settled sp (f.line n value) ∧ escapes (f.line n value) = false ∧ unquoted (value ++ f.closing) = some value := by
  rw [settled_line hn, escapes_line hn]
  exact ⟨fun h => ⟨⟨⟨h.blank, h.single⟩, h.literal⟩, h.unescaped, h.unquoted⟩, fun h => ⟨h.1.1.1, h.1.1.2, h.1.2, h.2.1, h.2.2⟩⟩

/-! ## Files of lines -/

section

variable {ι : Type} {var : ι → Var} {unquoted : Text → Option Text} {names : List ι} {value : ι → Text}

theorem newline_notMem_line {n : ι} (h : f.Plain unquoted (var n).val (value n)) : '\n' ∉ f.line (var n).val (value n) := by
  intro hmem
  rw [line, List.mem_append, List.mem_append] at hmem
  rcases hmem with hmem | hmem | hmem
  · rcases mem_front (var n).2 hmem with h | h
    · exact absurd h (by decide)
    · exact absurd f.newline (by simp [h.1])
  · exact absurd (h.blank _ hmem f.newline) (by decide)
  · exact absurd f.newline (by simp [(f.closing_still _ hmem).1])

/-- Plain values are written as they are meant. -/
theorem cutLines_plain (h : ∀ n ∈ names, f.Plain unquoted (var n).val (value n)) (dir : Directory) :
    cutLines (names.flatMap fun n => writtenLine sp dir (f.line (var n).val (value n))) =
      (names.map fun n => f.line (var n).val (value n), []) := by
  have hplain := fun n hn => (plain_iff (var n).2 (value n)).mp (h n hn)
  have hcut := @cutLines_lines (names.map fun n => f.line (var n).val (value n)) (fun l hl => by
    obtain ⟨n, hn, rfl⟩ := List.mem_map.mp hl
    exact newline_notMem_line (h n hn)) []
  rw [List.flatMap_map, List.append_nil] at hcut
  rw [List.flatMap_congr fun n hn => written_as_meant (hplain n hn).1 (hplain n hn).2.1 dir, hcut, cutLines, List.append_nil]

/-- The values of which all are found again are plain. -/
theorem plain_of_read (hnodup : names.Nodup) (hvar : Function.Injective var)
    (hreads : ∀ t v, unquoted t = some v → Reads f.closing t v)
    (h : ∀ n ∈ names, ∃ t,
      f.front (var n).val ++ t ∈ (cutLines (names.flatMap fun m => writtenLine sp .crossed (f.line (var m).val (value m)))).1 ∧
        unquoted t = some (value n)) :
    ∀ n ∈ names, f.Plain unquoted (var n).val (value n) := by
  choose! found hline hread using h
  have hword : ∀ c ∈ exportWord, sp c = false ∧ isMark c = false := fun c hc =>
    have hstill := f.still_name exportWord_name c hc
    ⟨hstill.1, hstill.2.1⟩
  have hback : ∀ n : Var, ∀ c ∈ n.val ++ f.opening n.val, sp c = false ∧ isMark c = false := fun n c hc =>
    have hstill := still_back n.2 c hc
    ⟨hstill.1, hstill.2.1⟩
  have hkept : ∀ n ∈ names, ∃ e, spread sp .crossed (f.front (var n).val ++ (value n ++ f.closing)) = f.front (var n).val ++ e := by
    intro n _
    obtain ⟨e, he⟩ := spread_front f.blank (ne_nil_of_isName exportWord_name) hword (by simp [ne_nil_of_isName (var n).2])
      (hback (var n)) (value n ++ f.closing)
    exact ⟨e, by rw [front_append, front_append, he]⟩
  have hsettled := @settled_of_found ι sp names hnodup (fun n => f.front (var n).val) (fun n => value n ++ f.closing) f.blank
    (f.name 'x' (by decide)) f.newline (fun m n t u heq => hvar (Subtype.ext (front_unique (var m).2 (var n).2 heq))) hkept found hline
    fun n hn => hreads _ _ (hread n hn)
  intro n hn
  obtain ⟨hsettled, hescapes, hsame⟩ := hsettled n hn
  exact (plain_iff (var n).2 (value n)).mpr ⟨hsettled, hescapes, hsame ▸ hread n hn⟩

end

end Frame

end ZfsTest.Shell
