import ZfsTest.Stf.Testgen

/-!
# The product of the value lists

A caseline and a case block emit exactly one case for each choice of one value from each list. Read as lists of words the lines are
the same in both orders (`linesFor_perm`): the words of the chosen values in the order of the components (`linesFor_words`). As texts
they differ, since one order puts the blank in front of each part and the other behind it.
-/

namespace ZfsTest.Stf.Testgen

variable {mode name : Text} {n : Nat}

/-! ## Words of the lines -/

/-- The words of a line. -/
def lineWords (line : Text) : List Text := words (fun c => c = ' ' || c = '\t' || c = '\n') line

theorem lineWords_blank (u t : Text) : lineWords (u ++ ' ' :: t) = lineWords u ++ lineWords t := words_append (by decide) u t

/-- The words a value of a caseline stands for. -/
def valueWords (value : Text) : List Text := if value = canBeNull ∨ value = canBeAbsent then [] else lineWords value

/-- The words a name and a value of a block stand for, by the type of their line. -/
def argWords (a : Arg) : List Text :=
  let shown := if a.value = canBeNull then [] else a.value
  if a.value = canBeAbsent ∨ a.argname = [] then []
  else if a.argtype = "string".toList then lineWords a.argname ++ lineWords ('"' :: shown ++ ['"'])
  else if a.argtype = "escape".toList then lineWords ('\\' :: a.argname)
  else lineWords a.argname ++ lineWords shown

theorem lineWords_partText (value : Text) : lineWords (partText value) = valueWords value := by
  unfold partText valueWords
  split
  · rfl
  · rfl

theorem lineWords_arg (a : Arg) : lineWords a.text = argWords a := by
  unfold Arg.text argPart argWords
  by_cases habsent : a.value = canBeAbsent
  · simp [habsent, lineWords]
  · by_cases hname : a.argname = []
    · simp [habsent, hname, lineWords]
    · simp only [habsent, hname, if_false, false_or, or_self]
      split
      · rw [← lineWords_blank, List.append_assoc, List.cons_append]
      · split
        · rfl
        · rw [lineWords_blank]

theorem lineWords_foldl {α : Type} (order : Text) (text : α → Text) (c : List α) :
    lineWords (c.foldl (fun l v => extend order l (text v)) []) = (slowestFirst order c).flatMap fun v => lineWords (text v) := by
  by_cases ho : order = ascend
  · have hall : ∀ l, lineWords (c.foldl (fun l v => extend order l (text v)) l)
        = lineWords l ++ c.flatMap fun v => lineWords (text v) := by
      induction c with
      | nil => simp
      | cons v c ih =>
        intro l
        rw [List.foldl_cons, ih, extend, if_pos ho, lineWords_blank]
        simp
    rw [hall, slowestFirst, if_pos ho]
    rfl
  · have hall : ∀ l, lineWords (c.foldl (fun l v => extend order l (text v)) l)
        = (c.reverse.flatMap fun v => lineWords (text v)) ++ lineWords l := by
      induction c with
      | nil => simp
      | cons v c ih =>
        intro l
        rw [List.foldl_cons, ih, extend, if_neg ho, lineWords_blank]
        simp
    rw [hall, slowestFirst, if_neg ho]
    exact List.append_nil _

/-- The words of the lines, one line for each choice. -/
theorem linesFor_words {α : Type} (order : Text) (text : α → Text) (Vs : List (List α)) :
    (linesFor order text (slowestFirst order Vs) []).map lineWords
      = (choices (slowestFirst order Vs)).map fun c => (slowestFirst order c).flatMap fun v => lineWords (text v) := by
  rw [linesFor, List.map_map]
  exact List.map_congr_left fun c _ => lineWords_foldl order text c

theorem choices_slowestFirst_perm {α : Type} (order : Text) (Vs : List (List α)) :
    ((choices (slowestFirst order Vs)).map (slowestFirst order)).Perm (choices Vs) := by
  by_cases ho : order = ascend
  · have hid : slowestFirst order = (id : List α → List α) := by
      funext c
      simp [slowestFirst, ho]
    have hVs : slowestFirst order Vs = Vs := by simp [slowestFirst, ho]
    rw [hid, List.map_id, hVs]
  · have hrev : slowestFirst order = (List.reverse : List α → List α) := by
      funext c
      simp [slowestFirst, ho]
    have hperm := (choices_reverse_perm Vs).map List.reverse
    simpa [slowestFirst, ho, hrev, Function.comp_def] using hperm

/-- In every order the lines have the words of the same choices. -/
theorem linesFor_perm {α : Type} (order : Text) (text : α → Text) (Vs : List (List α)) :
    ((linesFor order text (slowestFirst order Vs) []).map lineWords).Perm
      ((choices Vs).map fun c => c.flatMap fun v => lineWords (text v)) := by
  have hperm := (choices_slowestFirst_perm order Vs).map fun c => c.flatMap fun v => lineWords (text v)
  rw [linesFor_words]
  simpa [Function.comp_def] using hperm

/-! ## The product -/

/-- `set -A caseline` and the number of its components. -/
def ofCaseline (order mode testName : Text) (caseline : List Text) : Matrix where
  genOrder := order
  genMode := mode
  testName := testName
  caseline := caseline
  argtypes := []
  argnames := []
  argvalues := []
  componentNumber := caseline.length

/-- A line of a block: the type, the name list and the value list. -/
structure ArgLine where
  argtype : Text
  names : Text
  values : Text

def ofCaseblock (order mode testName : Text) (block : List ArgLine) : Matrix where
  genOrder := order
  genMode := mode
  testName := testName
  caseline := []
  argtypes := block.map ArgLine.argtype
  argnames := block.map ArgLine.names
  argvalues := block.map ArgLine.values
  componentNumber := block.length

/-- One case for each choice of one element from each list, in lexicographic order of the positions and with the list that
`slowestFirst` puts first slowest. -/
def EmitsProduct {α : Type} (order mode name : Text) (Vs : List (List α)) (wordsOf : α → List Text) (n : Nat) (s s' : Gen) : Prop :=
  ∃ cs lines, Enumerates (slowestFirst order Vs) cs ∧ lines.length = (Vs.map List.length).prod ∧
    lines.map lineWords = cs.map (fun c => (slowestFirst order (c.map Prod.fst)).flatMap wordsOf) ∧ Emits mode name n lines s s'

/-- The lines of the cases that a run has emitted. -/
def newLines (s s' : Gen) : List Text := (s'.echoed.drop s.echoed.length).map Case.line

/-- The recursion ends, and gives the same state with every depth that is enough. -/
def Returns (run : Nat → Option Gen) (s' : Gen) : Prop := ∃ depth, ∀ fuel, depth ≤ fuel → run fuel = some s'

theorem returns_of_eq {run : Nat → Option Gen} (hmono : ∀ fuel t, run fuel = some t → run (fuel + 1) = some t) {d : Nat} {s' : Gen}
    (h : run d = some s') : Returns run s' := by
  refine ⟨d, fun fuel hfuel => ?_⟩
  induction fuel, hfuel using Nat.le_induction with
  | base => exact h
  | succ fuel _ ih => exact hmono fuel s' ih

theorem Emits.newLines_eq {lines : List Text} {s s' : Gen} (h : Emits mode name n lines s s') : newLines s s' = lines := by
  rw [newLines, h.echoed, List.drop_left, numbered_line]

theorem prod_slowestFirst {α : Type} (order : Text) (Vs : List (List α)) :
    ((slowestFirst order Vs).map List.length).prod = (Vs.map List.length).prod := by
  unfold slowestFirst
  split
  · rfl
  · rw [List.map_reverse]
    exact (List.reverse_perm _).prod_eq

/-- The generation as a whole, from what the call for the first component does. -/
theorem generation_returns {α : Type} {m : Matrix} {Vs : List (List α)} {process : Nat → Int → Gen → Option Gen} {s : Gen}
    {R : Gen → Prop} (hmono : ∀ fuel k s t, process fuel k s = some t → process (fuel + 1) k s = some t)
    (hn : m.componentNumber = Vs.length) (hne : Vs ≠ [])
    (h : ∀ k : Nat, k < Vs.length → left m.genOrder Vs k = slowestFirst m.genOrder Vs → (left m.genOrder Vs k).length ≤ Vs.length →
      ∃ s', process Vs.length k s = some s' ∧ R s') :
    ∃ s', Returns (fun fuel => process fuel (getProcessnumber m none) s) s' ∧ R s' := by
  obtain ⟨k, hstart, hk, hleft⟩ := left_start hn hne
  have hlen : (left m.genOrder Vs k).length ≤ Vs.length := by
    rw [hleft, slowestFirst]
    split
    · exact Nat.le_refl _
    · rw [List.length_reverse]
  obtain ⟨s', hrun, hR⟩ := h k hk hleft hlen
  refine ⟨s', ?_, hR⟩
  rw [hstart]
  exact returns_of_eq (fun fuel t => hmono fuel k s t) hrun

/-- The product, from a function that processes a component. -/
theorem Processes.returns {α : Type} {m : Matrix} {text : α → Text} {wordsOf : α → List Text} {Vs : List (List α)}
    {process : Nat → Int → Gen → Option Gen} (h : Processes m name text Vs Vs.length (process Vs.length))
    (hmono : ∀ fuel k s t, process fuel k s = some t → process (fuel + 1) k s = some t)
    (hwords : ∀ v, lineWords (text v) = wordsOf v) (hn : m.componentNumber = Vs.length) (hne : Vs ≠ []) {s : Gen} (hs : Ready n s)
    (hline : s.testCase = []) :
    ∃ s', Returns (fun fuel => process fuel (getProcessnumber m none) s) s' ∧ EmitsProduct m.genOrder m.genMode name Vs wordsOf n s s' ∧
      ((newLines s s').map lineWords).Perm ((choices Vs).map fun c => c.flatMap wordsOf) := by
  refine generation_returns hmono hn hne fun k hk hleft hlen => ?_
  obtain ⟨s', hrun, hemits⟩ := h k n s hk hlen hs
  rw [hleft, hline] at hemits
  refine ⟨s', hrun, ?_, ?_⟩
  · refine ⟨choices ((slowestFirst m.genOrder Vs).map fun V => V.zipIdx), _, enumerates_choices _, ?_, ?_, hemits⟩
    · rw [linesFor, List.length_map, length_choices, prod_slowestFirst]
    · rw [linesFor_words, ← choices_zipIdx, List.map_map]
      simp only [hwords]
      rfl
  · rw [hemits.newLines_eq]
    have hperm := linesFor_perm m.genOrder text Vs
    simpa only [hwords] using hperm

/-- The components of a block by its lines. -/
theorem blockArgs_ofCaseblock (ksh : Ksh) (order mode testName : Text) (block : List ArgLine) :
    blockArgs ksh (ofCaseblock order mode testName block)
      = block.map fun l => argsOf l.argtype (ksh.evalSet l.names) (ksh.evalSet l.values) := by
  refine List.ext_getElem (by simp [blockArgs, ofCaseblock]) fun k hk hk' => ?_
  have hlt : k < block.length := by simpa using hk'
  simp [blockArgs, ofCaseblock, hlt]

/-- In every two orders, a caseline and a block emit one case for each choice, and lines with the same words. -/
theorem generates (ksh : Ksh) (mode testName : Text) (found : Option Text) (hcheck : NoCheck ksh testName found) (n : Nat) (s : Gen)
    (hs : Ready n s) (hline : s.testCase = []) (order order' : Text) :
    (∀ caseline : List Text, caseline ≠ [] →
      let m := ofCaseline order mode testName caseline
      let m' := ofCaseline order' mode testName caseline
      let Vs := caseline.map ksh.evalSet
      ∃ t t', Returns (fun fuel => processparts ksh m fuel (getProcessnumber m none) s) t ∧
        Returns (fun fuel => processparts ksh m' fuel (getProcessnumber m' none) s) t' ∧
        EmitsProduct order mode (caseName found) Vs valueWords n s t ∧ EmitsProduct order' mode (caseName found) Vs valueWords n s t' ∧
        ((newLines s t).map lineWords).Perm ((newLines s t').map lineWords)) ∧
    (∀ block : List ArgLine, block ≠ [] →
      let m := ofCaseblock order mode testName block
      let m' := ofCaseblock order' mode testName block
      let Vs := block.map fun l => argsOf l.argtype (ksh.evalSet l.names) (ksh.evalSet l.values)
      ∃ t t', Returns (fun fuel => processargs ksh m fuel (getProcessnumber m none) s) t ∧
        Returns (fun fuel => processargs ksh m' fuel (getProcessnumber m' none) s) t' ∧
        EmitsProduct order mode (caseName found) Vs argWords n s t ∧ EmitsProduct order' mode (caseName found) Vs argWords n s t' ∧
        ((newLines s t).map lineWords).Perm ((newLines s t').map lineWords)) := by
  constructor
  · intro caseline hne m m' Vs
    have hrun : ∀ order, let m := ofCaseline order mode testName caseline
        ∃ t, Returns (fun fuel => processparts ksh m fuel (getProcessnumber m none) s) t ∧
          EmitsProduct order mode (caseName found) Vs valueWords n s t ∧
          ((newLines s t).map lineWords).Perm ((choices Vs).map fun c => c.flatMap valueWords) := by
      intro order m
      exact Processes.returns (processparts_emits hcheck rfl _) processparts_mono lineWords_partText
        (List.length_map _).symm (fun h => hne (List.map_eq_nil_iff.mp h)) hs hline
    obtain ⟨t, ht, he, hp⟩ := hrun order
    obtain ⟨t', ht', he', hp'⟩ := hrun order'
    exact ⟨t, t', ht, ht', he, he', hp.trans hp'.symm⟩
  · intro block hne m m' Vs
    have hrun : ∀ order, let m := ofCaseblock order mode testName block
        ∃ t, Returns (fun fuel => processargs ksh m fuel (getProcessnumber m none) s) t ∧
          EmitsProduct order mode (caseName found) Vs argWords n s t ∧
          ((newLines s t).map lineWords).Perm ((choices Vs).map fun c => c.flatMap argWords) := by
      intro order m
      have hVs : blockArgs ksh m = Vs := blockArgs_ofCaseblock ksh order mode testName block
      have hemits := processargs_emits (m := m) hcheck Vs.length
      rw [hVs] at hemits
      exact Processes.returns hemits processargs_mono lineWords_arg (List.length_map _).symm (fun h => hne (List.map_eq_nil_iff.mp h)) hs hline
    obtain ⟨t, ht, he, hp⟩ := hrun order
    obtain ⟨t', ht', he', hp'⟩ := hrun order'
    exact ⟨t, t', ht, ht', he, he', hp.trans hp'.symm⟩

/-- A shell that only splits words. -/
def sampleKsh : Ksh := ⟨lineWords, fun _ s => (true, s)⟩

def sampleGen : Gen := ⟨[], [], [], [], [], [], ['0'], [], [], [], [], []⟩

def sampleName : Text := ['t']

theorem sampleKsh_noCheck : NoCheck sampleKsh sampleName (some sampleName) := by
  intro n
  have hdigits : ∀ c ∈ natText n, (c = ' ' || c = '\t' || c = '\n') = false := by
    intro c hc
    have hd := mem_natText hc
    rw [Bool.eq_false_iff]
    intro h
    simp only [Bool.or_eq_true, decide_eq_true_eq] at h
    rcases h with (rfl | rfl) | rfl <;> cases hd
  have hnum : lineWords (natText n) = [natText n] := words_single hdigits (natText_ne_nil n)
  have hline : joined [natText n, sampleName, []] = natText n ++ ' ' :: (sampleName ++ ' ' :: []) := rfl
  change lineWords _ = _
  rw [hline, lineWords_blank, hnum]
  rfl

/-- A caseline with a list of two values and a list of one. -/
theorem generates_sample :
    let m := ofCaseline ascend [] sampleName [['a', ' ', 'b'], ['c']]
    ∃ t, Returns (fun fuel => processparts sampleKsh m fuel (getProcessnumber m none) sampleGen) t ∧
      EmitsProduct ascend [] sampleName [[['a'], ['b']], [['c']]] valueWords 0 sampleGen t := by
  intro m
  have h := generates sampleKsh [] sampleName (some sampleName) sampleKsh_noCheck 0 sampleGen ⟨rfl, rfl⟩ rfl ascend []
  obtain ⟨t, -, ht, -, he, -⟩ := h.1 [['a', ' ', 'b'], ['c']] (by decide)
  exact ⟨t, ht, he⟩

/-- The texts of the lines differ by their blanks in the two orders, and a line of the type `escape` leaves the value out. -/
theorem not_generates :
    (let m := ofCaseline ascend [] sampleName [['a'], ['b']]
      let m' := ofCaseline [] [] sampleName [['a'], ['b']]
      ∃ t t', Returns (fun fuel => processparts sampleKsh m fuel (getProcessnumber m none) sampleGen) t ∧
        Returns (fun fuel => processparts sampleKsh m' fuel (getProcessnumber m' none) sampleGen) t' ∧
        ¬(newLines sampleGen t).Perm (newLines sampleGen t')) ∧
    (let m := ofCaseblock ascend [] sampleName [⟨"escape".toList, ['x'], ['v']⟩]
      ∃ t, Returns (fun fuel => processargs sampleKsh m fuel (getProcessnumber m none) sampleGen) t ∧
        ∀ line ∈ newLines sampleGen t, ['v'] ∉ lineWords line) := by
  constructor
  · intro m m'
    have h : (processparts sampleKsh m 2 (getProcessnumber m none) sampleGen).map (newLines sampleGen) = some [[' ', 'a', ' ', 'b']] := by
      decide
    have h' : (processparts sampleKsh m' 2 (getProcessnumber m' none) sampleGen).map (newLines sampleGen)
        = some [['a', ' ', 'b', ' ']] := by
      decide
    obtain ⟨t, ht, hl⟩ := Option.map_eq_some_iff.mp h
    obtain ⟨t', ht', hl'⟩ := Option.map_eq_some_iff.mp h'
    refine ⟨t, t', returns_of_eq (fun fuel => processparts_mono fuel _ _) ht, returns_of_eq (fun fuel => processparts_mono fuel _ _) ht', ?_⟩
    rw [hl, hl']
    decide
  · intro m
    have h : (processargs sampleKsh m 1 (getProcessnumber m none) sampleGen).map (newLines sampleGen) = some [[' ', '\\', 'x']] := by
      decide
    obtain ⟨t, ht, hl⟩ := Option.map_eq_some_iff.mp h
    refine ⟨t, returns_of_eq (fun fuel => processargs_mono fuel _ _) ht, ?_⟩
    rw [hl]
    decide

end ZfsTest.Stf.Testgen
