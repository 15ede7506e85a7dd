import ZfsTest.Text.Regex
import ZfsTest.Text.Separated
import ZfsTest.Stf.Code

/-!
# Verbose output

`stf_filter -v 'h1|...|hn'` prints, for a selected test case, the lines of the journal between its entries that have one of the headers,
and with `-s` a tab for the header. The script puts the option between `^` and `\|` and takes the result for a regular expression, in
which `^` binds to the first header only, and the bar to the last. So it finds the lines with one of the headers, but others too, and the
headers that it replaces are not always the right ones; and it looks at no line that an earlier branch has taken (`verbose_follows_iff`).
-/

namespace ZfsTest.Stf.Verbose

open ZfsTest.Stf.Filter (Basekey isSpace fields field isFalse addResult journalLine baseLine openFile isStart)

/-! ## The script -/

/-- The options `-v`, as it is behind the test for `all`, and `-s`, and what the options `-r` and `-p` say of a result code and of a name. -/
structure Options where
  optV : Text
  optS : Bool
  matchR : Text → Bool
  matchP : Text → Bool

def allLines : Text := "[^|]*".toList

def parseV (optV : Text) : Text := if optV = "all".toList then allLines else optV

def Options.accept (o : Options) (id resultname : Text) : Bool := o.matchR resultname && o.matchP id

/-- What is added to `$verbose_buf`, with the line that it comes from. -/
structure Message where
  line : Text
  msg : Text
  deriving DecidableEq, Repr

/-- What is printed for a test case: `$verbose_head` and `$verbose_buf`. -/
structure Block where
  head : Text
  buf : List Message
  deriving DecidableEq, Repr

def bufText (buf : List Message) : Text := buf.flatMap Message.msg

structure Reader where
  counts : Filter.State
  testcaseMatch : Bool
  verboseHead : Text
  verboseBuf : List Message
  printed : List Block
  died : Bool

def headOf (jnlFile name : Text) : Text :=
  "\n\n".toList ++ name ++ " : (in ".toList ++ jnlFile ++ ")\n".toList ++
    "----------------------------------------------------------------\n\n".toList

section

variable (o : Options) (jnlFile : Text)

/-- `/^$opt_v\|/`; the newline belongs to the line. -/
def isVerbose (line : Text) : Bool := o.optV = allLines || Regex.isMatch isSpace ('^' :: o.optV ++ "\\|".toList) (line ++ ['\n'])

/-- `s/^$opt_v\|\s/	/` if `-s` is given. -/
def msgOf (line : Text) : Text :=
  if o.optS then Regex.subst isSpace ('^' :: o.optV ++ "\\|\\s".toList) ['\t'] (line ++ ['\n']) else line ++ ['\n']

/-- What a line does beside the counts. -/
def verboseStep (st : Reader) (line : Text) : Reader :=
  if "Test_Case_Start|".toList <+: line then
    let name := field (fields line) 2
    { st with
      verboseHead := if o.matchP name && !isFalse o.optV then headOf jnlFile name else []
      verboseBuf := []
      testcaseMatch := o.matchP name }
  else if "Test_Case_End|".toList <+: line then
    { st with
      printed :=
        if o.accept (field (fields line) 2) (field (fields line) 4) && !isFalse (bufText st.verboseBuf) then
          st.printed ++ [⟨st.verboseHead, st.verboseBuf⟩]
        else st.printed
      verboseHead := []
      verboseBuf := [] }
  else if "Assertion_End|".toList <+: line then st
  else if isFalse o.optV then st
  else if isVerbose o line && st.testcaseMatch then { st with verboseBuf := st.verboseBuf ++ [⟨line, msgOf o line⟩] }
  else st

/-- One line of a journal. -/
def verboseLine (st : Reader) (line : Text) : Reader :=
  if st.died then st
  else
    match journalLine o.accept st.counts line with
    | .error _ => { st with died := true }
    | .ok counts => verboseStep o jnlFile { st with counts := counts } line

/-- One file. -/
def verboseFile (st : Reader) (text : Text) : Reader :=
  if st.died then st
  else
    match linesOf text with
    | [] => st
    | first :: rest =>
      if Basekey <+: first then
        { st with counts := rest.foldl (baseLine o.accept) (openFile st.counts (field (fields first) 1)) }
      else if isStart first then
        rest.foldl (verboseLine o jnlFile) { st with counts := openFile st.counts (field (fields first) 6) }
      else { st with died := true }

end

def Reader.init : Reader := ⟨Filter.State.init, false, [], [], [], false⟩

/-- The files given as arguments, with their names. -/
def verboseFiles (o : Options) (files : List (Text × Text)) : Reader :=
  files.foldl (fun st file => verboseFile o file.1 st file.2) Reader.init

/-- What is printed in all, if the reader comes to its end. -/
def Reader.report (st : Reader) : Text :=
  Filter.report { st.counts with out := st.counts.out ++ st.printed.flatMap fun b => b.head ++ bufText b.buf }

/-! ## What should be printed -/

/-- A plain word, which stands for itself in a regular expression. -/
def Plain (h : Text) : Prop := h ≠ [] ∧ ∀ c ∈ h, Regex.isMeta c = false ∧ isSpace c = false

/-- The option with the headers, and bars between them. -/
def optionOf (hs : List Text) : Text := ['|'].intercalate hs

/-- The text before the first bar of a line is a header. -/
def headed (hs : List Text) (line : Text) : Bool := line.contains '|' && hs.contains (line.takeWhile (· ≠ '|'))

/-- Without the white space at the front. -/
def unspaced : Text → Text
  | [] => []
  | c :: r => if isSpace c then r else c :: r

/-- The text behind the first bar of a line. -/
def behindBar (line : Text) : Text := (line.dropWhile (· ≠ '|')).drop 1

/-- A line as it should be printed: with `-s`, a tab stands for the header, the bar and the white space behind it. -/
def messageOf (strip : Bool) (line : Text) : Message := ⟨line, if strip then '\t' :: unspaced (behindBar line) ++ ['\n'] else line ++ ['\n']⟩

/-- A journal up to the end of a test case, with the lines between its entries. -/
structure Recorded where
  first : Text
  before : List Text
  start : Text
  body : List Text
  ended : Text
  isStart : isStart first = true
  started : "Test_Case_Start|".toList <+: start
  inner : ∀ l ∈ body, ¬"Test_Case_Start|".toList <+: l ∧ ¬"Test_Case_End|".toList <+: l
  endEntry : "Test_Case_End|".toList <+: ended
  name : field (fields start) 2 = field (fields ended) 2
  newline : ∀ l ∈ first :: (before ++ start :: (body ++ [ended])), '\n' ∉ l

def textOf (lines : List Text) : Text := lines.flatMap fun l => l ++ ['\n']

/-- The lines up to the end entry. -/
def Recorded.lines (c : Recorded) : List Text := c.first :: (c.before ++ c.start :: c.body)

def Recorded.Selected (c : Recorded) (o : Options) : Prop := o.accept (field (fields c.ended) 2) (field (fields c.ended) 4) = true

/-- At its end entry the lines of the test case with one of the headers are printed, in their order, and nothing else. -/
def Follows (hs : List Text) (o : Options) (jnlFile : Text) (st : Reader) (c : Recorded) : Prop :=
  let wanted := (c.body.filter (headed hs)).map (messageOf o.optS)
  (verboseFile o jnlFile st (textOf (c.lines ++ [c.ended]))).printed.map Block.buf =
    (verboseFile o jnlFile st (textOf c.lines)).printed.map Block.buf ++ if wanted = [] then [] else [wanted]

/-! ## When it is -/

/-- The lines that the expression finds: the first header may stand before anything, the others stand anywhere, and only the last has a bar
behind it. -/
def Found : List Text → Text → Prop
  | [], _ => False
  | [h], line => h ++ ['|'] <+: line
  | h :: h' :: hs, line =>
    h <+: line ∨ (∃ m ∈ (h' :: hs).dropLast, m <:+: line) ∨ ∃ w, (h' :: hs).getLast? = some w ∧ w ++ ['|'] <:+: line

/-- A line is treated as it should be. -/
structure Fits (hs : List Text) (strip : Bool) (line : Text) : Prop where
  reached : headed hs line = true → hs ≠ [['0']] ∧ ¬"Assertion_End|".toList <+: line
  found : ¬"Assertion_End|".toList <+: line → hs ≠ [['0']] → Found hs line → headed hs line = true
  stripped : strip = true → headed hs line = true →
    (∃ h ∈ hs, ∃ c r, line = h ++ '|' :: c :: r ∧ isSpace c = true) ∧ ∀ h ∈ hs.dropLast, ¬h <+: line

/-- The reader dies of a `Totals` entry. -/
def Recorded.Totals (c : Recorded) : Prop := ∃ l ∈ c.before ++ c.body, "Totals|".toList <+: l

/-! ## Headers -/

section Headers

variable {hs : List Text} {h w line : Text}

theorem Plain.notMem_bar (hh : Plain h) : '|' ∉ h := fun hmem => absurd (hh.2 '|' hmem).1 (by decide)

theorem Plain.notMem_newline (hh : Plain h) : '\n' ∉ h := fun hmem => absurd (hh.2 '\n' hmem).2 (by decide)

theorem optionOf_single (h : Text) : optionOf [h] = h := List.intercalate_singleton

theorem bar_mem_optionOf (h h' : Text) (hs : List Text) : '|' ∈ optionOf (h :: h' :: hs) := by
  rw [optionOf, List.intercalate_cons_cons]
  simp

theorem optionOf_eq_iff {x : Text} (hx : '|' ∉ x) (hne : hs ≠ []) : optionOf hs = x ↔ hs = [x] := by
  match hs with
  | [] => exact absurd rfl hne
  | [h] => rw [optionOf_single, List.singleton_inj]
  | h :: h' :: hs =>
    constructor
    · intro heq
      exact absurd (heq ▸ bar_mem_optionOf h h' hs) hx
    · intro heq
      cases heq

theorem parseV_optionOf (hne : hs ≠ []) (hall : hs ≠ ["all".toList]) : parseV (optionOf hs) = optionOf hs :=
  if_neg fun h => hall ((optionOf_eq_iff (by decide) hne).mp h)

theorem optionOf_ne_allLines (hplain : ∀ h ∈ hs, Plain h) : optionOf hs ≠ allLines := by
  intro h
  have hmem : '[' ∈ optionOf hs := h ▸ List.mem_cons_self
  rcases mem_intercalate hmem with hbar | ⟨g, hg, hmem⟩
  · revert hbar
    decide
  · exact absurd ((hplain g hg).2 '[' hmem).1 (by decide)

theorem isFalse_optionOf (hplain : ∀ h ∈ hs, Plain h) (hne : hs ≠ []) : isFalse (optionOf hs) = true ↔ hs = [['0']] := by
  have hempty : optionOf hs ≠ [] := by
    intro h
    rw [optionOf_eq_iff List.not_mem_nil hne] at h
    exact (hplain [] (h ▸ List.mem_cons_self)).1 rfl
  rw [← optionOf_eq_iff (by decide) hne]
  simp [Filter.isFalse, hempty]

theorem headed_iff (hplain : ∀ h ∈ hs, Plain h) : headed hs line = true ↔ ∃ h ∈ hs, h ++ ['|'] <+: line := by
  rw [headed, Bool.and_eq_true, List.contains_iff_mem, List.contains_iff_mem]
  constructor
  · rintro ⟨hbar, hmem⟩
    obtain ⟨u, r, rfl, hu⟩ := List.eq_append_cons_of_mem hbar
    rw [takeWhile_separator hu r] at hmem
    exact ⟨u, hmem, r, by simp⟩
  · rintro ⟨h, hh, r, rfl⟩
    rw [List.append_assoc, List.singleton_append, takeWhile_separator (hplain h hh).notMem_bar r]
    exact ⟨by simp, hh⟩

theorem behindBar_eq (hh : '|' ∉ h) (r : Text) : behindBar (h ++ '|' :: r) = r := by
  rw [behindBar, dropWhile_separator hh r, List.drop_one, List.tail_cons]

theorem length_unspaced_le (t : Text) : (unspaced t).length ≤ t.length := by
  cases t with
  | nil => exact Nat.le_refl 0
  | cons c r =>
    by_cases hc : isSpace c = true
    · simp [unspaced, hc]
    · simp [unspaced, hc]

/-! ## What is found -/

theorem prefix_newline (hw : '\n' ∉ w) : w <+: line ++ ['\n'] ↔ w <+: line := by
  rw [List.prefix_concat_iff]
  apply or_iff_right
  rintro rfl
  exact hw (List.mem_append_right line List.mem_cons_self)

theorem infix_newline (hw : '\n' ∉ w) (hne : w ≠ []) : w <:+: line ++ ['\n'] ↔ w <:+: line := by
  rw [List.infix_concat_iff]
  apply or_iff_right
  rw [List.suffix_concat_iff]
  rintro (h | ⟨t, rfl, -⟩)
  · exact hne h
  · exact hw (List.mem_append_right t List.mem_cons_self)

theorem infix_iff_exists {t : Text} : w <:+: t ↔ ∃ u v, t = u ++ v ∧ w <+: v := by
  constructor
  · rintro ⟨u, v, rfl⟩
    exact ⟨u, w ++ v, List.append_assoc u w v, v, rfl⟩
  · rintro ⟨u, v, rfl, r, rfl⟩
    exact ⟨u, r, List.append_assoc u w r⟩

theorem eat_isSome (front : Bool) (w t : Text) : (Regex.eat isSpace front (Regex.word w) t).isSome ↔ w <+: t := by
  rw [Regex.eat_word_nil]
  by_cases h : w <+: t
  · simp [h]
  · simp [h]

theorem eat_last_isSome (front : Bool) (w t : Text) :
    (Regex.eat isSpace front (Regex.word w ++ [Regex.Atom.char '|']) t).isSome ↔ w ++ ['|'] <+: t := by
  have hword : Regex.word w ++ [Regex.Atom.char '|'] = Regex.word (w ++ ['|']) := by simp [Regex.word]
  rw [hword, eat_isSome]

theorem parse_option {fs : List Text} (hplain : ∀ h ∈ fs ++ [w], Plain h) {t : Text} {as : List Regex.Atom} (ht : Regex.parse t = [as]) :
    Regex.parse ('^' :: optionOf (fs ++ [w]) ++ t) = Regex.ahead .bol (fs.map Regex.word ++ [Regex.word w ++ as]) := by
  rw [List.cons_append, Regex.parse_bol, optionOf, Regex.parse_joined (fun h hh c hc => ((hplain h (List.mem_append_left _ hh)).2 c hc).1)
    (fun c hc => ((hplain w (List.mem_append_right _ List.mem_cons_self)).2 c hc).1) ht]

/-- The expression for one header. -/
theorem isMatch_single (hplain : ∀ h ∈ [w], Plain h) :
    Regex.isMatch isSpace ('^' :: optionOf [w] ++ "\\|".toList) (line ++ ['\n']) = true ↔ w ++ ['|'] <+: line := by
  have hw : '\n' ∉ w ++ ['|'] := by simp [(hplain w List.mem_cons_self).notMem_newline]
  have hplain' : ∀ h ∈ [] ++ [w], Plain h := hplain
  have hparse : Regex.parse ('^' :: optionOf [w] ++ "\\|".toList) = [.bol :: (Regex.word w ++ [Regex.Atom.char '|'])] :=
    parse_option hplain' (show Regex.parse "\\|".toList = [[.char '|']] from rfl)
  rw [Regex.isMatch, hparse, Regex.search_isSome_iff]
  simp only [List.mem_singleton, exists_eq_left]
  constructor
  · rintro ⟨u, v, huv, h⟩
    cases u with
    | nil =>
      obtain rfl : line ++ ['\n'] = v := huv
      exact (prefix_newline hw).mp ((eat_last_isSome true w _).mp h)
    | cons c u => cases h
  · intro h
    exact ⟨[], line ++ ['\n'], rfl, (eat_last_isSome true w _).mpr ((prefix_newline hw).mpr h)⟩

/-- The expression for several headers. -/
theorem isMatch_many {f : Text} {ms : List Text} (hplain : ∀ h ∈ f :: ms ++ [w], Plain h) :
    Regex.isMatch isSpace ('^' :: optionOf (f :: ms ++ [w]) ++ "\\|".toList) (line ++ ['\n']) = true ↔
      f <+: line ∨ (∃ m ∈ ms, m <:+: line) ∨ w ++ ['|'] <:+: line := by
  have hw : '\n' ∉ w ++ ['|'] := by simp [(hplain w (List.mem_append_right _ List.mem_cons_self)).notMem_newline]
  have hm : ∀ m ∈ ms, Plain m := fun m hm => hplain m (List.mem_append_left _ (List.mem_cons_of_mem f hm))
  have hmiddle : (∃ m ∈ ms, m <:+: line) ↔ ∃ m ∈ ms, m <:+: line ++ ['\n'] :=
    exists_congr fun m => and_congr_right fun h => (infix_newline (hm m h).notMem_newline (hm m h).1).symm
  rw [hmiddle, ← prefix_newline (hplain f List.mem_cons_self).notMem_newline, ← infix_newline hw (List.concat_ne_nil '|' w), Regex.isMatch,
    parse_option hplain (show Regex.parse "\\|".toList = [[.char '|']] from rfl), Regex.search_isSome_iff]
  simp only [List.map_cons, List.cons_append, Regex.ahead, List.mem_cons, List.mem_append, List.mem_map, List.not_mem_nil, or_false]
  constructor
  · rintro ⟨u, v, huv, alt, rfl | ⟨m, hmem, rfl⟩ | rfl, h⟩
    · cases u with
      | nil =>
        obtain rfl : line ++ ['\n'] = v := huv
        exact .inl ((eat_isSome true f _).mp h)
      | cons c u => cases h
    · exact .inr (.inl ⟨m, hmem, infix_iff_exists.mpr ⟨u, v, huv, (eat_isSome _ m v).mp h⟩⟩)
    · exact .inr (.inr (infix_iff_exists.mpr ⟨u, v, huv, (eat_last_isSome _ w v).mp h⟩))
  · rintro (h | ⟨m, hmem, h⟩ | h)
    · exact ⟨[], line ++ ['\n'], rfl, _, .inl rfl, (eat_isSome true f _).mpr h⟩
    · obtain ⟨u, v, huv, h⟩ := infix_iff_exists.mp h
      exact ⟨u, v, huv, _, .inr (.inl ⟨m, hmem, rfl⟩), (eat_isSome _ m v).mpr h⟩
    · obtain ⟨u, v, huv, h⟩ := infix_iff_exists.mp h
      exact ⟨u, v, huv, _, .inr (.inr rfl), (eat_last_isSome _ w v).mpr h⟩

theorem found_many (f : Text) (ms : List Text) (w line : Text) :
    Found (f :: ms ++ [w]) line ↔ f <+: line ∨ (∃ m ∈ ms, m <:+: line) ∨ w ++ ['|'] <:+: line := by
  cases ms with
  | nil => simp [Found]
  | cons m ms =>
    have hdrop : (m :: ms ++ [w]).dropLast = m :: ms := List.dropLast_concat
    have hget : (m :: ms ++ [w]).getLast? = some w := List.getLast?_concat
    rw [List.cons_append] at hdrop hget
    rw [List.cons_append, List.cons_append, Found, hdrop, hget]
    simp

/-- What the expression finds. -/
theorem isMatch_iff (hplain : ∀ h ∈ hs, Plain h) (hne : hs ≠ []) :
    Regex.isMatch isSpace ('^' :: optionOf hs ++ "\\|".toList) (line ++ ['\n']) = true ↔ Found hs line := by
  rcases List.eq_nil_or_concat hs with rfl | ⟨fs, w, rfl⟩
  · exact absurd rfl hne
  rw [List.concat_eq_append] at hplain ⊢
  cases fs with
  | nil => exact isMatch_single hplain
  | cons f ms => exact (isMatch_many hplain).trans (found_many f ms w line).symm

/-- Another header but the last in front is the one that goes, and too much is left. -/
theorem length_subst {fs : List Text} (hplain : ∀ h ∈ fs ++ [w], Plain h) (h rest : Text) (hfs : ∃ f ∈ fs, f <+: h ++ '|' :: rest) :
    rest.length + 2 < (Regex.subst isSpace ('^' :: optionOf (fs ++ [w]) ++ "\\|\\s".toList) ['\t'] (h ++ '|' :: rest ++ ['\n'])).length := by
  have hparse := parse_option hplain (show Regex.parse "\\|\\s".toList = [[.char '|', .space]] from rfl)
  obtain ⟨f, hf, hpre⟩ := hfs
  obtain ⟨g, hg, hgpre, heat⟩ : ∃ g ∈ fs, g <+: h ++ '|' :: rest ++ ['\n'] ∧
      Regex.eatAny isSpace true (fs.map Regex.word ++ [Regex.word w ++ [Regex.Atom.char '|', Regex.Atom.space]])
        (h ++ '|' :: rest ++ ['\n']) = some ((h ++ '|' :: rest ++ ['\n']).drop g.length) :=
    Regex.eatAny_words ⟨f, hf, hpre.trans (List.prefix_append _ ['\n'])⟩ true _
  rw [← Regex.eatAny_bol (List.concat_ne_nil _ _), ← hparse] at heat
  have hlen : g.length ≤ h.length := by
    rw [List.append_assoc, List.cons_append] at hgpre
    exact (front_of_separator (hplain g (List.mem_append_left _ hg)).notMem_bar hgpre).length_le
  rw [Regex.subst_of_front heat]
  simp only [List.length_append, List.length_cons, List.length_drop, List.length_nil]
  omega

/-- Without one, the last header goes with its bar and the white space behind it. -/
theorem eatAny_last {fs : List Text} (hplain : ∀ h ∈ fs ++ [w], Plain h) {rest : Text} (hno : ∀ f ∈ fs, ¬f <+: w ++ '|' :: rest) :
    Regex.eatAny isSpace true (Regex.parse ('^' :: optionOf (fs ++ [w]) ++ "\\|\\s".toList)) (w ++ '|' :: rest ++ ['\n']) =
      Regex.eat isSpace false [.space] (rest ++ ['\n']) := by
  have hskip : ∀ f ∈ fs, ¬f <+: w ++ '|' :: rest ++ ['\n'] := fun f hf hpre =>
    hno f hf ((prefix_newline (hplain f (List.mem_append_left _ hf)).notMem_newline).mp hpre)
  have hparse := parse_option hplain (show Regex.parse "\\|\\s".toList = [[.char '|', .space]] from rfl)
  rw [hparse, Regex.eatAny_bol (List.concat_ne_nil _ _), Regex.eatAny_skip hskip, Regex.eatAny, List.findSome?_singleton, Regex.eat_word,
    List.append_assoc, if_pos (List.prefix_append w _), List.drop_left]
  simp [Regex.eat]

theorem subst_last_iff {fs : List Text} (hplain : ∀ h ∈ fs ++ [w], Plain h) {rest : Text} (hno : ∀ f ∈ fs, ¬f <+: w ++ '|' :: rest) :
    Regex.subst isSpace ('^' :: optionOf (fs ++ [w]) ++ "\\|\\s".toList) ['\t'] (w ++ '|' :: rest ++ ['\n']) = '\t' :: unspaced rest ++ ['\n'] ↔
      ∃ c r, rest = c :: r ∧ isSpace c = true := by
  have heat := eatAny_last hplain hno
  have hw := hplain w (List.mem_append_right _ List.mem_cons_self)
  cases rest with
  | nil =>
    -- the white space that is taken is the newline
    rw [Regex.subst_of_front (v := []) (by rw [heat]; rfl)]
    apply iff_of_false (by decide)
    rintro ⟨c, r, heq, -⟩
    cases heq
  | cons c r =>
    by_cases hc : isSpace c = true
    · rw [Regex.subst_of_front (v := r ++ ['\n']) (by rw [heat]; simp [Regex.eat, hc])]
      simp only [unspaced, hc, if_true]
      exact ⟨fun _ => ⟨c, r, rfl, hc⟩, fun _ => rfl⟩
    · have hnone : Regex.eat isSpace false [.space] (c :: r ++ ['\n']) = none := by simp [Regex.eat, hc]
      rw [hnone] at heat
      refine iff_of_false (fun heq => ?_) ?_
      · -- the line still begins with its header
        cases w with
        | nil => exact hw.1 rfl
        | cons d u =>
          obtain ⟨v, hv⟩ := Regex.head_subst heat ['\t']
          obtain rfl : d = '\t' := List.head_eq_of_cons_eq (hv.symm.trans heq)
          exact absurd (hw.2 '\t' List.mem_cons_self).2 (by decide)
      · rintro ⟨d, u, heq, hd⟩
        obtain ⟨rfl, -⟩ := List.cons_eq_cons.mp heq
        exact hc hd

/-- With `-s` the header goes if and only if white space is behind its bar and no other header but the last is in front of it. -/
theorem msgOf_iff {o : Options} (hplain : ∀ h ∈ hs, Plain h) (hV : o.optV = optionOf hs) (hhead : headed hs line = true) :
    msgOf o line = (messageOf o.optS line).msg ↔ (o.optS = true →
      (∃ h ∈ hs, ∃ c r, line = h ++ '|' :: c :: r ∧ isSpace c = true) ∧ ∀ h ∈ hs.dropLast, ¬h <+: line) := by
  unfold msgOf messageOf
  cases o.optS with
  | false => simp
  | true =>
    obtain ⟨h, hh, rest, hline⟩ := (headed_iff hplain).mp hhead
    rw [List.append_assoc, List.singleton_append] at hline
    subst hline
    have hbar := (hplain h hh).notMem_bar
    have hbehind : (∃ g ∈ hs, ∃ c r, h ++ '|' :: rest = g ++ '|' :: c :: r ∧ isSpace c = true) ↔ ∃ c r, rest = c :: r ∧ isSpace c = true := by
      constructor
      · rintro ⟨g, hg, c, r, heq, hc⟩
        have hrest : rest = c :: r := by rw [← behindBar_eq hbar rest, heq, behindBar_eq (hplain g hg).notMem_bar]
        exact ⟨c, r, hrest, hc⟩
      · rintro ⟨c, r, rfl, hc⟩
        exact ⟨h, hh, c, r, rfl, hc⟩
    simp only [if_true, hV, behindBar_eq hbar, true_imp_iff, hbehind]
    rcases List.eq_nil_or_concat hs with rfl | ⟨fs, w, rfl⟩
    · cases hh
    rw [List.concat_eq_append] at hplain hh ⊢
    rw [List.dropLast_concat]
    by_cases hfs : ∃ f ∈ fs, f <+: h ++ '|' :: rest
    · have hlong := length_subst hplain h rest hfs
      have hshort := length_unspaced_le rest
      refine iff_of_false (fun heq => ?_) ?_
      · rw [heq] at hlong
        simp only [List.length_append, List.length_cons, List.length_nil] at hlong
        omega
      · rintro ⟨-, hno⟩
        obtain ⟨f, hf, hpre⟩ := hfs
        exact hno f hf hpre
    · have hno : ∀ f ∈ fs, ¬f <+: h ++ '|' :: rest := fun f hf hpre => hfs ⟨f, hf, hpre⟩
      obtain rfl : h = w := by
        rcases List.mem_append.mp hh with hh | hh
        · exact absurd (List.prefix_append h _) (hno h hh)
        · exact List.mem_singleton.mp hh
      rw [subst_last_iff hplain hno]
      exact ⟨fun hspace => ⟨hspace, hno⟩, And.left⟩

end Headers

/-! ## Reading -/

section Reading

variable (o : Options) (jnlFile : Text)

/-- What the reader takes between the entries of a test case. -/
def takes (o : Options) (line : Text) : Bool := !decide ("Assertion_End|".toList <+: line) && !isFalse o.optV && isVerbose o line

theorem journalLine_ok (accept : Text → Text → Bool) (counts : Filter.State) {line : Text} (h : ¬"Totals|".toList <+: line) :
    ∃ counts', journalLine accept counts line = .ok counts' := by
  unfold journalLine
  split_ifs
  all_goals exact ⟨_, rfl⟩

theorem verboseStep_counts (st : Reader) (line : Text) :
    (verboseStep o jnlFile st line).counts = st.counts ∧ (verboseStep o jnlFile st line).died = st.died := by
  unfold verboseStep
  split_ifs
  all_goals exact ⟨rfl, rfl⟩

theorem verboseLine_ok {st : Reader} (hd : st.died = false) {line : Text} {counts : Filter.State}
    (h : journalLine o.accept st.counts line = .ok counts) :
    verboseLine o jnlFile st line = verboseStep o jnlFile { st with counts := counts } line := by
  rw [verboseLine, hd, if_neg Bool.false_ne_true, h]

theorem died_verboseLine (st : Reader) (line : Text) :
    (verboseLine o jnlFile st line).died = (st.died || decide ("Totals|".toList <+: line)) := by
  unfold verboseLine
  by_cases hd : st.died = true
  · simp [hd]
  · rw [if_neg hd]
    by_cases ht : "Totals|".toList <+: line
    · obtain ⟨t, rfl⟩ := ht
      rw [Filter.journalLine_totals]
      simp
    · obtain ⟨counts, hcounts⟩ := journalLine_ok o.accept st.counts ht
      rw [hcounts, decide_eq_false ht, Bool.or_false]
      exact (verboseStep_counts o jnlFile _ line).2

theorem died_foldl (lines : List Text) (st : Reader) :
    (lines.foldl (verboseLine o jnlFile) st).died = true ↔ st.died = true ∨ ∃ l ∈ lines, "Totals|".toList <+: l := by
  induction lines generalizing st with
  | nil => simp
  | cons line lines ih =>
    rw [List.foldl_cons, ih, died_verboseLine, List.exists_mem_cons_iff, Bool.or_eq_true, decide_eq_true_iff, or_assoc]

/-- Nothing changes behind a `Totals` entry. -/
theorem foldl_died (lines : List Text) {st : Reader} (hd : st.died = true) : lines.foldl (verboseLine o jnlFile) st = st := by
  induction lines with
  | nil => rfl
  | cons line lines ih => rw [List.foldl_cons, verboseLine, if_pos hd, ih]

/-- A line between the entries of a test case. -/
theorem verboseLine_inner {st : Reader} (hd : st.died = false) (hm : st.testcaseMatch = true) {line : Text}
    (hinner : ¬"Test_Case_Start|".toList <+: line ∧ ¬"Test_Case_End|".toList <+: line) (ht : ¬"Totals|".toList <+: line) :
    ∃ counts, verboseLine o jnlFile st line = { st with
      counts := counts
      verboseBuf := st.verboseBuf ++ ([line].filter (takes o)).map fun l => ⟨l, msgOf o l⟩ } := by
  obtain ⟨counts, hcounts⟩ := journalLine_ok o.accept st.counts ht
  refine ⟨counts, ?_⟩
  rw [verboseLine_ok o jnlFile hd hcounts, verboseStep, if_neg hinner.1, if_neg hinner.2, List.filter_singleton, takes]
  by_cases ha : "Assertion_End|".toList <+: line
  · rw [if_pos ha, decide_eq_true ha, Bool.not_true, Bool.false_and, Bool.false_and, cond_false, List.map_nil, List.append_nil]
  · rw [if_neg ha, decide_eq_false ha, Bool.not_false, Bool.true_and, hm, Bool.and_true]
    by_cases hf : isFalse o.optV = true
    · rw [if_pos hf, hf, Bool.not_true, Bool.false_and, cond_false, List.map_nil, List.append_nil]
    · rw [if_neg hf, eq_false_of_ne_true hf, Bool.not_false, Bool.true_and]
      by_cases hv : isVerbose o line = true
      · rw [if_pos hv, hv, cond_true, List.map_singleton]
      · rw [if_neg hv, eq_false_of_ne_true hv, cond_false, List.map_nil, List.append_nil]

theorem foldl_inner (lines : List Text) (st : Reader) (hd : st.died = false) (hm : st.testcaseMatch = true)
    (hinner : ∀ l ∈ lines, ¬"Test_Case_Start|".toList <+: l ∧ ¬"Test_Case_End|".toList <+: l)
    (ht : ∀ l ∈ lines, ¬"Totals|".toList <+: l) : ∃ counts, lines.foldl (verboseLine o jnlFile) st = { st with
      counts := counts
      verboseBuf := st.verboseBuf ++ (lines.filter (takes o)).map fun l => ⟨l, msgOf o l⟩ } := by
  induction lines generalizing st with
  | nil => exact ⟨st.counts, by simp⟩
  | cons line lines ih =>
    obtain ⟨counts, hline⟩ := verboseLine_inner o jnlFile hd hm (hinner line List.mem_cons_self) (ht line List.mem_cons_self)
    rw [List.foldl_cons, hline]
    obtain ⟨counts', hlines⟩ := ih { st with
      counts := counts
      verboseBuf := st.verboseBuf ++ ([line].filter (takes o)).map fun l => ⟨l, msgOf o l⟩ } hd hm
      (fun l hl => hinner l (List.mem_cons_of_mem line hl)) fun l hl => ht l (List.mem_cons_of_mem line hl)
    refine ⟨counts', ?_⟩
    rw [hlines, List.append_assoc, ← List.map_append, ← List.filter_append]
    rfl

/-- What the whole reading of a file prints begins with what the reading of its first lines prints. -/
theorem printed_prefix (lines : List Text) (st : Reader) : st.printed <+: (lines.foldl (verboseLine o jnlFile) st).printed := by
  induction lines generalizing st with
  | nil => exact List.prefix_refl _
  | cons line lines ih =>
    refine List.IsPrefix.trans ?_ (ih _)
    unfold verboseLine
    split
    · exact List.prefix_refl _
    · split
      · exact List.prefix_refl _
      · unfold verboseStep
        split_ifs
        all_goals first | exact List.prefix_refl _ | exact List.prefix_append _ _

/-- `-v` changes nothing in the counts. -/
theorem foldl_counts (lines : List Text) {st : Reader} (hd : st.died = false) (counts : Filter.State) :
    lines.foldlM (journalLine o.accept) st.counts = .ok counts ↔
      (lines.foldl (verboseLine o jnlFile) st).died = false ∧ (lines.foldl (verboseLine o jnlFile) st).counts = counts := by
  induction lines generalizing st with
  | nil => simp [pure, Except.pure, hd]
  | cons line lines ih =>
    rw [List.foldlM_cons, List.foldl_cons]
    by_cases ht : "Totals|".toList <+: line
    · have hdied : (verboseLine o jnlFile st line).died = true := by
        rw [died_verboseLine, decide_eq_true ht, Bool.or_true]
      obtain ⟨t, rfl⟩ := ht
      rw [Filter.journalLine_totals, foldl_died o jnlFile lines hdied, hdied]
      constructor
      · intro h
        cases h
      · rintro ⟨h, -⟩
        cases h
    · obtain ⟨counts', hcounts⟩ := journalLine_ok o.accept st.counts ht
      obtain ⟨hstep, hsame⟩ := verboseStep_counts o jnlFile { st with counts := counts' } line
      rw [hcounts, verboseLine_ok o jnlFile hd hcounts]
      have ih := ih (hsame.trans hd)
      rw [hstep] at ih
      exact ih

/-- A message is never false. -/
theorem isFalse_bufText (buf : List Message) (h : ∀ m ∈ buf, ∃ c ∈ m.msg, c = '\t' ∨ c = '\n') :
    isFalse (bufText buf) = true ↔ buf = [] := by
  cases buf with
  | nil => simp [bufText, Filter.isFalse]
  | cons m buf =>
    obtain ⟨c, hc, hspace⟩ := h m List.mem_cons_self
    have hmem : c ∈ bufText (m :: buf) := List.mem_flatMap.mpr ⟨m, List.mem_cons_self, hc⟩
    refine iff_of_false (fun hfalse => ?_) (List.cons_ne_nil m buf)
    simp only [Filter.isFalse, Bool.or_eq_true, decide_eq_true_eq] at hfalse
    rcases hfalse with hnil | hzero
    · rw [hnil] at hmem
      exact List.not_mem_nil hmem
    · rw [hzero, List.mem_singleton] at hmem
      subst hmem
      revert hspace
      decide

theorem msgOf_space (line : Text) : ∃ c ∈ msgOf o line, c = '\t' ∨ c = '\n' := by
  have hline : '\n' ∈ line ++ ['\n'] := List.mem_append_right line List.mem_cons_self
  unfold msgOf Regex.subst
  split
  · split
    · exact ⟨'\t', by simp, .inl rfl⟩
    · exact ⟨'\n', hline, .inr rfl⟩
  · exact ⟨'\n', hline, .inr rfl⟩

theorem linesOf_textOf {lines : List Text} (h : ∀ l ∈ lines, '\n' ∉ l) : linesOf (textOf lines) = lines := linesOf_lines h

theorem not_base_of_isStart {line : Text} (h : isStart line = true) : ¬Basekey <+: line := by
  rintro ⟨t, rfl⟩
  have hbase : Basekey = '_' :: 'b' :: Basekey.drop 2 := by decide
  have htart : "tart|".toList = 't' :: "art|".toList := by decide
  rw [hbase, List.cons_append, List.cons_append, isStart, htart, List.isPrefixOf_cons_cons, Bool.and_eq_true, Bool.and_eq_true] at h
  exact absurd h.2.1 (by decide)

/-- The reader behind the lines of a test case, and what its end entry prints. -/
theorem verboseFile_recorded (st : Reader) (hd : st.died = false) (c : Recorded) (lines : List Text)
    (hlines : ∀ l ∈ lines, l ∈ [c.ended]) : verboseFile o jnlFile st (textOf (c.lines ++ lines)) =
      lines.foldl (verboseLine o jnlFile) ((c.before ++ c.start :: c.body).foldl (verboseLine o jnlFile)
        { st with counts := openFile st.counts (field (fields c.first) 6) }) := by
  have hnewline : ∀ l ∈ c.lines ++ lines, '\n' ∉ l := by
    intro l hl
    have hall : c.first :: (c.before ++ c.start :: (c.body ++ [c.ended])) = c.lines ++ [c.ended] := by simp [Recorded.lines]
    have hmem : l ∈ c.lines ++ [c.ended] := by
      rw [List.mem_append] at hl ⊢
      exact hl.imp_right (hlines l)
    rw [← hall] at hmem
    exact c.newline l hmem
  rw [verboseFile, hd, if_neg Bool.false_ne_true, linesOf_textOf hnewline, Recorded.lines, List.cons_append]
  simp only [not_base_of_isStart c.isStart, c.isStart, if_false, if_true, List.foldl_append]

end Reading

/-! ## The lines of a test case -/

/-- Messages for the lines that a test accepts tell the lines. -/
theorem map_filter_iff {p q : Text → Bool} {f g : Text → Message} (hf : ∀ l, (f l).line = l) (hg : ∀ l, (g l).line = l) (lines : List Text) :
    (lines.filter p).map f = (lines.filter q).map g ↔ ∀ l ∈ lines, p l = q l ∧ (q l = true → f l = g l) := by
  have hline : ∀ {p : Text → Bool} {f : Text → Message}, (∀ l, (f l).line = l) → ((lines.filter p).map f).map Message.line = lines.filter p := by
    intro p f hf
    rw [List.map_map]
    exact (List.map_congr_left fun l _ => hf l).trans (List.map_id _)
  constructor
  · intro heq
    have hfilter : lines.filter p = lines.filter q := by rw [← hline hf, heq, hline hg]
    intro l hl
    have hmem : p l = true ↔ q l = true := by
      have h : l ∈ lines.filter p ↔ l ∈ lines.filter q := by rw [hfilter]
      rwa [List.mem_filter, List.mem_filter, and_iff_right hl, and_iff_right hl] at h
    refine ⟨Bool.eq_iff_iff.mpr hmem, fun hq => ?_⟩
    rw [hfilter] at heq
    exact List.map_inj_left.mp heq l (List.mem_filter.mpr ⟨hl, hq⟩)
  · intro h
    rw [List.filter_congr fun l hl => (h l hl).1]
    exact List.map_congr_left fun l hl => (h l (List.mem_of_mem_filter hl)).2 (List.of_mem_filter hl)

section Lines

variable {hs : List Text} {o : Options} {jnlFile line : Text}

theorem takes_eq (line : Text) (hplain : ∀ h ∈ hs, Plain h) (hne : hs ≠ []) (hV : o.optV = optionOf hs) :
    takes o line = true ↔ ¬"Assertion_End|".toList <+: line ∧ hs ≠ [['0']] ∧ Found hs line := by
  have hverbose : isVerbose o line = true ↔ Found hs line := by
    rw [isVerbose, hV, Bool.or_eq_true, decide_eq_true_iff, or_iff_right (optionOf_ne_allLines hplain)]
    exact isMatch_iff hplain hne
  rw [takes, Bool.and_eq_true, Bool.and_eq_true, hverbose, hV, Bool.not_eq_true', Bool.not_eq_true', decide_eq_false_iff_not,
    ← Bool.not_eq_true, isFalse_optionOf hplain hne, and_assoc]

theorem found_of_headed (hplain : ∀ h ∈ hs, Plain h) (hhead : headed hs line = true) : Found hs line := by
  obtain ⟨h, hh, hpre⟩ := (headed_iff hplain).mp hhead
  have hprefix : h <+: line := (List.prefix_append h ['|']).trans hpre
  match hs, hh with
  | [g], hh =>
    obtain rfl := List.mem_singleton.mp hh
    exact hpre
  | g :: g' :: gs, hh =>
    rcases List.mem_cons.mp hh with rfl | hh
    · exact .inl hprefix
    · have hlast := List.dropLast_append_getLast (List.cons_ne_nil g' gs)
      rw [← hlast, List.mem_append, List.mem_singleton] at hh
      rcases hh with hh | rfl
      · exact .inr (.inl ⟨h, hh, hprefix.isInfix⟩)
      · exact .inr (.inr ⟨_, List.getLast?_eq_getLast_of_ne_nil (List.cons_ne_nil g' gs), hpre.isInfix⟩)

/-- A line is treated as it should be if and only if it is taken when it has a header, and its message is the right one. -/
theorem fits_iff (hplain : ∀ h ∈ hs, Plain h) (hne : hs ≠ []) (hV : o.optV = optionOf hs) :
    (takes o line = headed hs line ∧ (headed hs line = true → (⟨line, msgOf o line⟩ : Message) = messageOf o.optS line)) ↔
      Fits hs o.optS line := by
  have htakes := takes_eq line hplain hne hV
  have hmessage : (⟨line, msgOf o line⟩ : Message) = messageOf o.optS line ↔ msgOf o line = (messageOf o.optS line).msg := by
    simp [messageOf]
  rw [Bool.eq_iff_iff, htakes, hmessage]
  constructor
  · rintro ⟨hiff, hmsg⟩
    refine ⟨fun hh => ⟨(hiff.mpr hh).2.1, (hiff.mpr hh).1⟩, fun ha h0 hf => hiff.mp ⟨ha, h0, hf⟩, fun hs' hh => ?_⟩
    exact (msgOf_iff hplain hV hh).mp (hmsg hh) hs'
  · rintro ⟨hreached, hfound, hstripped⟩
    refine ⟨⟨fun ⟨ha, h0, hf⟩ => hfound ha h0 hf, fun hh => ⟨(hreached hh).2, (hreached hh).1, found_of_headed hplain hh⟩⟩, fun hh => ?_⟩
    exact (msgOf_iff hplain hV hh).mpr fun hs' => hstripped hs' hh

end Lines

/-! ## A test case -/

section Case

variable {hs : List Text} {o : Options} {jnlFile : Text} {st : Reader}

theorem not_two_fronts {a b l : Text} (hab : ¬a <+: b) (hba : ¬b <+: a) (ha : a <+: l) : ¬b <+: l := fun hb =>
  (List.prefix_or_prefix_of_prefix ha hb).elim hab hba

theorem verboseLine_start (hd : st.died = false) {line : Text} (hstart : "Test_Case_Start|".toList <+: line) :
    ∃ counts head, verboseLine o jnlFile st line = { st with
      counts := counts
      verboseHead := head
      verboseBuf := []
      testcaseMatch := o.matchP (field (fields line) 2) } := by
  obtain ⟨counts, hcounts⟩ := journalLine_ok o.accept st.counts (not_two_fronts (by decide) (by decide) hstart)
  rw [verboseLine_ok o jnlFile hd hcounts, verboseStep, if_pos hstart]
  exact ⟨counts, _, rfl⟩

theorem printed_end (hd : st.died = false) {line : Text} (hend : "Test_Case_End|".toList <+: line)
    (hsel : o.accept (field (fields line) 2) (field (fields line) 4) = true) :
    (verboseLine o jnlFile st line).printed.map Block.buf =
      st.printed.map Block.buf ++ if isFalse (bufText st.verboseBuf) then [] else [st.verboseBuf] := by
  obtain ⟨counts, hcounts⟩ := journalLine_ok o.accept st.counts (not_two_fronts (by decide) (by decide) hend)
  rw [verboseLine_ok o jnlFile hd hcounts, verboseStep, if_neg (not_two_fronts (by decide) (by decide) hend), if_pos hend]
  simp only [hsel, Bool.true_and]
  cases isFalse (bufText st.verboseBuf) with
  | false => simp
  | true => simp

/-- The reader at the end entry of a test case that no `Totals` entry precedes. -/
theorem foldl_case (o : Options) (jnlFile : Text) (st : Reader) (hd : st.died = false) (c : Recorded) (hsel : c.Selected o) (ht : ¬c.Totals) :
    ((c.before ++ c.start :: c.body).foldl (verboseLine o jnlFile) st).died = false ∧
      ((c.before ++ c.start :: c.body).foldl (verboseLine o jnlFile) st).verboseBuf =
        (c.body.filter (takes o)).map fun l => ⟨l, msgOf o l⟩ := by
  have hno : ∀ l ∈ c.before ++ c.body, ¬"Totals|".toList <+: l := fun l hl hpre => ht ⟨l, hl, hpre⟩
  rw [List.foldl_append, List.foldl_cons]
  have halive : (c.before.foldl (verboseLine o jnlFile) st).died = false := by
    rw [← Bool.not_eq_true, died_foldl, hd]
    rintro (h | ⟨l, hl, hpre⟩)
    · cases h
    · exact hno l (List.mem_append_left _ hl) hpre
  have hmatch : o.matchP (field (fields c.start) 2) = true := by
    rw [Recorded.Selected, Options.accept, Bool.and_eq_true] at hsel
    rw [c.name]
    exact hsel.2
  obtain ⟨counts, head, hstart⟩ : ∃ counts head, verboseLine o jnlFile _ c.start = _ := verboseLine_start halive c.started
  rw [hmatch] at hstart
  rw [hstart]
  obtain ⟨counts', hbody⟩ := foldl_inner o jnlFile c.body { c.before.foldl (verboseLine o jnlFile) st with
    counts := counts
    verboseHead := head
    verboseBuf := []
    testcaseMatch := true } halive rfl c.inner fun l hl => hno l (List.mem_append_right _ hl)
  rw [hbody]
  exact ⟨halive, rfl⟩

/-- The verbose text follows the headers if and only if every line of the test case is treated as it should be, or a `Totals` entry has
ended the reader and there is nothing to print. -/
theorem verbose_follows_iff (hplain : ∀ h ∈ hs, Plain h) (hne : hs ≠ []) (hall : hs ≠ ["all".toList]) (hV : o.optV = parseV (optionOf hs))
    (jnlFile : Text) (hd : st.died = false) (c : Recorded) (hsel : c.Selected o) :
    Follows hs o jnlFile st c ↔
      (¬c.Totals ∧ ∀ l ∈ c.body, Fits hs o.optS l) ∨ (c.Totals ∧ ∀ l ∈ c.body, headed hs l = false) := by
  rw [parseV_optionOf hne hall] at hV
  have hpart := verboseFile_recorded o jnlFile st hd c [] (fun l hl => absurd hl List.not_mem_nil)
  have hwhole := verboseFile_recorded o jnlFile st hd c [c.ended] fun l hl => hl
  rw [List.append_nil, List.foldl_nil] at hpart
  rw [List.foldl_cons, List.foldl_nil] at hwhole
  unfold Follows
  rw [hwhole, hpart]
  by_cases ht : c.Totals
  · have hdied : ((c.before ++ c.start :: c.body).foldl (verboseLine o jnlFile)
        { st with counts := openFile st.counts (field (fields c.first) 6) }).died = true := by
      obtain ⟨l, hl, hpre⟩ := ht
      refine (died_foldl o jnlFile _ _).mpr (.inr ⟨l, ?_, hpre⟩)
      rw [List.mem_append, List.mem_cons]
      exact (List.mem_append.mp hl).imp_right .inr
    have hlast := foldl_died o jnlFile [c.ended] hdied
    rw [List.foldl_cons, List.foldl_nil] at hlast
    rw [hlast]
    simp [ht, List.filter_eq_nil_iff]
  · obtain ⟨halive, hbuf⟩ := foldl_case o jnlFile { st with counts := openFile st.counts (field (fields c.first) 6) } hd c hsel ht
    rw [printed_end halive c.endEntry hsel, List.append_cancel_left_eq, hbuf]
    have hfalse := isFalse_bufText ((c.body.filter (takes o)).map fun l => ⟨l, msgOf o l⟩) fun m hm => by
      obtain ⟨l, -, rfl⟩ := List.mem_map.mp hm
      exact msgOf_space o l
    have hblock : ∀ a b : List Message, ((if a = [] then [] else [a]) = if b = [] then [] else [b]) ↔ a = b := by
      intro a b
      by_cases ha : a = []
      · by_cases hb : b = []
        · simp [ha, hb]
        · simp [ha, hb, Ne.symm hb]
      · by_cases hb : b = []
        · simp [ha, hb]
        · simp [ha, hb]
    simp only [hfalse]
    rw [hblock, map_filter_iff (fun _ => rfl) (fun _ => rfl)]
    simp only [ht, not_false_eq_true, true_and, false_and, or_false]
    exact forall₂_congr fun l _ => fits_iff hplain hne hV

end Case

/-! ## A journal -/

theorem plain_of_all {h : Text} (hne : h.isEmpty = false) (hall : h.all (fun c => !Regex.isMeta c && !isSpace c) = true) : Plain h := by
  refine ⟨List.isEmpty_eq_false_iff.mp hne, fun c hc => ?_⟩
  have hc := List.all_eq_true.mp hall c hc
  rwa [Bool.and_eq_true, Bool.not_eq_true', Bool.not_eq_true'] at hc

/-- The headers of what a test case prints. -/
def streams : List Text := ["stdout".toList, "stderr".toList]

theorem streams_plain : ∀ h ∈ streams, Plain h :=
  List.forall_mem_cons.mpr ⟨plain_of_all rfl rfl, List.forall_mem_cons.mpr ⟨plain_of_all rfl rfl, fun _ h => absurd h List.not_mem_nil⟩⟩

def Options.streams (optS : Bool) : Options := ⟨"stdout|stderr".toList, optS, fun _ => true, fun _ => true⟩

/-- A test case that prints one line. -/
def Recorded.printing (line : Text) (hn : '\n' ∉ line) (hinner : ¬"Test_Case_Start|".toList <+: line ∧ ¬"Test_Case_End|".toList <+: line) :
    Recorded where
  first := "Start| 1".toList
  before := []
  start := "Test_Case_Start| 1 tc".toList
  body := [line]
  ended := "Test_Case_End| 1 tc | PASS".toList
  isStart := by decide
  started := by decide
  inner := List.forall_mem_singleton.mpr hinner
  endEntry := by decide
  name := by decide
  newline := List.forall_mem_cons.mpr ⟨by decide, List.forall_mem_cons.mpr ⟨by decide, List.forall_mem_cons.mpr ⟨hn,
    List.forall_mem_singleton.mpr (by decide)⟩⟩⟩

def Recorded.stderr : Recorded := .printing "stderr| lost".toList (by decide) (by decide)

def Recorded.note : Recorded := .printing "NOTE| see stderr| below".toList (by decide) (by decide)

theorem stderr_selected : Recorded.stderr.Selected (.streams true) := rfl

/-- The last header goes. -/
theorem verbose_follows_stderr : Follows streams (.streams true) "journal".toList Reader.init .stderr := by
  have hhead : headed streams "stderr| lost".toList = true := by decide
  have hfits : Fits streams true "stderr| lost".toList :=
    ⟨fun _ => ⟨by decide, by decide⟩, fun _ _ _ => hhead,
      fun _ _ => ⟨⟨"stderr".toList, by decide, ' ', "lost".toList, by decide, by decide⟩, by decide⟩⟩
  have htotals : ¬Recorded.stderr.Totals := by
    rintro ⟨l, hl, hpre⟩
    obtain rfl := List.mem_singleton.mp hl
    revert hpre
    decide
  exact (verbose_follows_iff streams_plain (by decide) (by decide) (by decide) _ rfl .stderr stderr_selected).mpr
    (.inl ⟨htotals, List.forall_mem_singleton.mpr hfits⟩)

/-- A bar behind the last header is found anywhere in a line. -/
theorem not_verbose_follows : ¬∀ (hs : List Text) (o : Options) (jnlFile : Text) (st : Reader) (c : Recorded), (∀ h ∈ hs, Plain h) →
    hs ≠ [] → hs ≠ ["all".toList] → o.optV = parseV (optionOf hs) → st.died = false → c.Selected o → Follows hs o jnlFile st c := by
  intro h
  have hnote := h streams (.streams false) "journal".toList Reader.init .note streams_plain (by decide) (by decide) (by decide) rfl rfl
  revert hnote
  unfold Follows
  decide +kernel

end ZfsTest.Stf.Verbose
