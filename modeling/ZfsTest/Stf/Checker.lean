import ZfsTest.Stf.Product

/-!
# Names and checkers of the cases

`TEST_NAME` and `CASE_CHECK` are the name of the cases and a checker that may refuse a case. The readers keep them in `test_name` and
`case_check`, from where they come to `add_case` in an array, with the number of the last case in front. `eval` fills the array, and it
splits what it is given into words again: without a name, the checker is found in its place.

What a file emits is said twice, by what `eval` finds (`fileFound`) and by the settings (`fileEmit`). The code emits the first
(`runFile_returns`). It is the second for every checker if and only if `eval` finds each setting that is used, which for plain words
means that there is a name or no checker (`settings_honoured_iff`).
-/

namespace ZfsTest.Stf.Testgen

/-! ## The shell -/

def plainChar (c : Char) : Bool := c.isAlphanum || c = '_' || c = '-' || c = '.' || c = '/'

/-- A word that stands for itself. -/
def Plain (w : Text) : Prop := w ≠ [] ∧ ∀ c ∈ w, plainChar c = true

/-- The words that `eval set -A x --` finds in a text; blanks separate them, and plain words stand for themselves. -/
structure EvalSet where
  words : Text → List Text
  nil : words [] = []
  blank : ∀ t, words (' ' :: t) = words t
  last : ∀ w, Plain w → words w = [w]
  word : ∀ w t, Plain w → words (w ++ ' ' :: t) = w :: words t

/-- Checkers by their names: whether a line is accepted, and the `TEST_NAME` that the checker sets, if it does. -/
abbrev Checkers := Text → Text → Bool × Option Text

def EvalSet.ksh (ev : EvalSet) (checkers : Checkers) : Ksh where
  evalSet := ev.words
  check := fun check s => ((checkers check s.testCase).1, { s with TEST_NAME := (checkers check s.testCase).2.getD s.TEST_NAME })

/-! ## Files -/

/-- The components of some cases: the lines of a block, or the value lists of a caseline. -/
inductive Body
  | block (lines : List ArgLine)
  | caseline (lists : List Text)

/-- A block or a caseline, with at least one component, and the name that is in force for it. -/
structure Entry where
  testName : Text
  body : Body
  ne_nil : body ≠ .block [] ∧ body ≠ .caseline []

/-- The entries up to the next `<DEFINE>`, and the checker that the last one has set. -/
structure Part where
  caseCheck : Text
  entries : List Entry

/-- A file behind its first `<DEFINE>`. In a caseblock file a `<DEFINE>` sets the name for all blocks up to the next one, in a caseline
file each line has its name. -/
inductive File
  | caseblock (parts : List (Text × Text × List { block : List ArgLine // block ≠ [] }))
  | caseline (parts : List (Text × List (Text × { lists : List Text // lists ≠ [] })))

def blockEntry (testName : Text) (block : { block : List ArgLine // block ≠ [] }) : Entry :=
  ⟨testName, .block block.val, fun h => block.property (Body.block.inj h), Body.noConfusion⟩

def caselineEntry (testName : Text) (lists : { lists : List Text // lists ≠ [] }) : Entry :=
  ⟨testName, .caseline lists.val, Body.noConfusion, fun h => lists.property (Body.caseline.inj h)⟩

def File.parts : File → List Part
  | .caseblock ps => ps.map fun (testName, caseCheck, blocks) => ⟨caseCheck, blocks.map (blockEntry testName)⟩
  | .caseline ps => ps.map fun (caseCheck, lines) => ⟨caseCheck, lines.map fun (testName, lists) => caselineEntry testName lists⟩

section

variable (ksh : Ksh) (order mode : Text)

/-- The call for an entry. -/
def runEntry (fuel : Nat) (s : Gen) (e : Entry) : Option Gen :=
  match e.body with
  | .block lines =>
    let m := ofCaseblock order mode e.testName lines
    processargs ksh m fuel (getProcessnumber m none) s
  | .caseline lists =>
    let m := ofCaseline order mode e.testName lists
    processparts ksh m fuel (getProcessnumber m none) s

def runPart (fuel : Nat) (s : Gen) (p : Part) : Option Gen :=
  p.entries.foldlM (runEntry ksh order mode fuel) { s with caseCheck := p.caseCheck }

def runFile (fuel : Nat) (s : Gen) (f : File) : Option Gen := f.parts.foldlM (runPart ksh order mode fuel) s

end

/-! ## What the settings say -/

/-- The name of a case that has none is `testcase`. -/
def shownName (testName : Text) : Text := if testName = [] then "testcase".toList else testName

/-- A line under a name and a checker: what is emitted, and the number of the last case behind it. -/
def settingEmit (checkers : Checkers) (testName check : Text) (n : Nat) (line : Text) : List Case × Nat :=
  let verdict := if check = [] then (true, none) else checkers check line
  if verdict.1 then ([⟨shownName (verdict.2.getD testName) ++ '-' :: natText (n + 1), line⟩], n + 1) else ([], n)

/-- The lines that are composed for an entry. -/
def Entry.lines (ev : EvalSet) (order : Text) (e : Entry) : List Text :=
  match e.body with
  | .block lines =>
    linesFor order Arg.text (slowestFirst order (lines.map fun l => argsOf l.argtype (ev.words l.names) (ev.words l.values))) []
  | .caseline lists => linesFor order partText (slowestFirst order (lists.map ev.words)) []

/-- The cases of a part and of a file, as their settings say. -/
def partEmit (ev : EvalSet) (checkers : Checkers) (order : Text) (n : Nat) (p : Part) : List Case × Nat :=
  emitAll (fun n e => emitAll (settingEmit checkers e.testName p.caseCheck) n (e.lines ev order)) n p.entries

def fileEmit (ev : EvalSet) (checkers : Checkers) (order : Text) (n : Nat) (f : File) : List Case × Nat :=
  emitAll (partEmit ev checkers order) n f.parts

/-- From every number of the last case on, the file emits the cases that its settings say. -/
def Honours (ev : EvalSet) (checkers : Checkers) (order mode : Text) (f : File) : Prop :=
  ∀ n s, s.casenumber = natText n → s.testCase = [] → ∃ s', Returns (fun fuel => runFile (ev.ksh checkers) order mode fuel s f) s' ∧
    s'.echoed = s.echoed ++ (fileEmit ev checkers order n f).1 ∧
    s'.added = if mode = "true".toList then s.added ++ (fileEmit ev checkers order n f).1 else s.added

/-- Behind the number, `eval` finds the name and the checker. -/
def Found (ev : EvalSet) (testName check : Text) : Prop :=
  let found := ev.words (joined [testName, check])
  shownName (found.getD 0 []) = shownName testName ∧ found.getD 1 [] = check

/-! ## What the code does -/

/-- A line under the name and the checker that `eval` finds; the checker is kept for the next line. -/
def foundEmit (ev : EvalSet) (checkers : Checkers) (testName : Text) (q : Place) (line : Text) : List Case × Place :=
  let found := ev.words (joined [testName, q.caseCheck])
  let out := settingEmit checkers (found.getD 0 []) (found.getD 1 []) q.number line
  (out.1, ⟨out.2, found.getD 1 []⟩)

def entryFound (ev : EvalSet) (checkers : Checkers) (order : Text) (q : Place) (e : Entry) : List Case × Place :=
  emitAll (foundEmit ev checkers e.testName) q (e.lines ev order)

def partFound (ev : EvalSet) (checkers : Checkers) (order : Text) (q : Place) (p : Part) : List Case × Place :=
  emitAll (entryFound ev checkers order) ⟨q.number, p.caseCheck⟩ p.entries

def fileFound (ev : EvalSet) (checkers : Checkers) (order : Text) (q : Place) (f : File) : List Case × Place :=
  emitAll (partFound ev checkers order) q f.parts

variable {ev : EvalSet} {checkers : Checkers} {order mode : Text}

theorem plain_natText (n : Nat) : Plain (natText n) := by
  refine ⟨natText_ne_nil n, fun c hc => ?_⟩
  have hd := mem_natText hc
  simp [plainChar, Char.isAlphanum, hd]

/-- `eval` finds the number. -/
theorem words_natText (ev : EvalSet) (n : Nat) (testName check : Text) :
    ev.words (joined [natText n, testName, check]) = natText n :: ev.words (joined [testName, check]) :=
  ev.word (natText n) _ (plain_natText n)

theorem settingEmit_unset (testName : Text) (n : Nat) (line : Text) :
    settingEmit checkers testName [] n line = ([⟨shownName testName ++ '-' :: natText (n + 1), line⟩], n + 1) := rfl

theorem settingEmit_set {check : Text} (hcheck : check ≠ []) (testName : Text) (n : Nat) (line : Text) :
    settingEmit checkers testName check n line = if (checkers check line).1 then
      ([⟨shownName ((checkers check line).2.getD testName) ++ '-' :: natText (n + 1), line⟩], n + 1) else ([], n) := by
  rw [settingEmit, if_neg hcheck]

theorem addCase_found (m : Matrix) : EmitsLine (ev.ksh checkers) m id (foundEmit ev checkers m.testName) := by
  intro q s hs
  have hb : (setBuiltins (ev.ksh checkers) m s).builtins = natText q.number :: ev.words (joined [m.testName, q.caseCheck]) := by
    rw [← words_natText, setBuiltins, hs.casenumber, hs.caseCheck, id]
    rfl
  have hnum : Nat.ofDigitChars 10 (natText q.number) 0 = q.number := Nat.ofDigitChars_ten_toDigits
  have hline : (setBuiltins (ev.ksh checkers) m s).testCase = s.testCase := rfl
  have hechoed : (setBuiltins (ev.ksh checkers) m s).echoed = s.echoed := rfl
  have hadded : (setBuiltins (ev.ksh checkers) m s).added = s.added := rfl
  generalize setBuiltins (ev.ksh checkers) m s = t at hb hline hechoed hadded ⊢
  simp only [addCase, hb, List.getD_cons_zero, List.getD_cons_succ]
  generalize hname : (ev.words (joined [m.testName, q.caseCheck])).getD 0 [] = testName
  generalize hfound : (ev.words (joined [m.testName, q.caseCheck])).getD 1 [] = check
  have hemit : emitAll (foundEmit ev checkers m.testName) q [s.testCase] =
      ((settingEmit checkers testName check q.number s.testCase).1,
        ⟨(settingEmit checkers testName check q.number s.testCase).2, check⟩) := by
    simp only [emitAll, foundEmit, hname, hfound, List.append_nil]
  by_cases hcheck : check = []
  · subst hcheck
    rw [settingEmit_unset] at hemit
    simp only [ne_eq, not_true_eq_false, if_false, if_true, hnum, hline, hechoed, hadded]
    refine ⟨rfl, ?_, ?_, ?_⟩
    · rw [hemit]
      exact ⟨rfl, rfl⟩
    · rw [hemit]
      rfl
    · rw [hemit]
      rfl
  · rw [settingEmit_set hcheck] at hemit
    simp only [hcheck, ne_eq, not_false_eq_true, if_true, EvalSet.ksh, hline, hechoed, hadded, hnum]
    by_cases hok : (checkers check s.testCase).1 = true
    · simp only [hok, if_true] at hemit ⊢
      refine ⟨rfl, ?_, ?_, ?_⟩
      · rw [hemit]
        exact ⟨rfl, rfl⟩
      · rw [hemit]
        rfl
      · rw [hemit]
        rfl
    · rw [if_neg hok] at hemit ⊢
      refine ⟨rfl, ?_, ?_, ?_⟩
      · rw [hemit]
        exact ⟨rfl, rfl⟩
      · rw [hemit]
        exact (List.append_nil _).symm
      · rw [hemit, List.append_nil, ite_self]

/-! ## Runs -/

/-- The state behind what is emitted. -/
structure Emitted (mode : Text) (out : List Case × Place) (s s' : Gen) : Prop where
  testCase : s'.testCase = s.testCase
  place : s'.At out.2
  echoed : s'.echoed = s.echoed ++ out.1
  added : s'.added = if mode = "true".toList then s.added ++ out.1 else s.added

theorem EmitsBy.emitted {emit : Place → Text → List Case × Place} {q : Place} {lines : List Text} {s s' : Gen}
    (h : EmitsBy id emit mode q lines s s') : Emitted mode (emitAll emit q lines) s s' := ⟨h.testCase, h.place, h.echoed, h.added⟩

/-- A loop over things that emit cases. -/
theorem foldlM_returns {α : Type} {run : Nat → Gen → α → Option Gen} {emit : Place → α → List Case × Place}
    (h : ∀ a q s, s.At q → s.testCase = [] → ∃ s', Returns (fun fuel => run fuel s a) s' ∧ Emitted mode (emit q a) s s') (as : List α)
    {q : Place} {s : Gen} (hs : s.At q) (hline : s.testCase = []) :
    ∃ s', Returns (fun fuel => as.foldlM (run fuel) s) s' ∧ Emitted mode (emitAll emit q as) s s' := by
  induction as generalizing q s with
  | nil =>
    refine ⟨s, ⟨0, fun _ _ => rfl⟩, rfl, hs, (List.append_nil _).symm, ?_⟩
    rw [emitAll, List.append_nil, ite_self]
  | cons a as ih =>
    obtain ⟨t, ⟨d, hrun⟩, ht⟩ := h a q s hs hline
    obtain ⟨u, ⟨d', hrun'⟩, hu⟩ := ih ht.place (ht.testCase.trans hline)
    refine ⟨u, ⟨max d d', fun fuel hfuel => ?_⟩, hu.testCase.trans ht.testCase, hu.place, ?_, ?_⟩
    · have hfirst : run fuel s a = some t := hrun fuel (by omega)
      change (a :: as).foldlM (run fuel) s = some u
      rw [List.foldlM_cons, hfirst]
      exact hrun' fuel (by omega)
    · rw [hu.echoed, ht.echoed, List.append_assoc]
      rfl
    · rw [hu.added, ht.added, emitAll]
      split
      · rw [List.append_assoc]
      · rfl

theorem runEntry_returns (e : Entry) (q : Place) (s : Gen) (hs : s.At q) (hline : s.testCase = []) :
    ∃ s', Returns (fun fuel => runEntry (ev.ksh checkers) order mode fuel s e) s' ∧
      Emitted mode (entryFound ev checkers order q e) s s' := by
  obtain ⟨testName, body, hblock, hlists⟩ := e
  cases body with
  | block lines =>
    let m := ofCaseblock order mode testName lines
    have hVs : blockArgs (ev.ksh checkers) m = lines.map fun l => argsOf l.argtype (ev.words l.names) (ev.words l.values) :=
      blockArgs_ofCaseblock (ev.ksh checkers) order mode testName lines
    have hne : blockArgs (ev.ksh checkers) m ≠ [] := by
      rw [hVs, Ne, List.map_eq_nil_iff]
      exact fun h => hblock (congrArg Body.block h)
    have hn : m.componentNumber = (blockArgs (ev.ksh checkers) m).length := by simp [blockArgs]
    refine generation_returns processargs_mono hn hne fun k hk hleft hlen => ?_
    obtain ⟨s', hrun, hemits⟩ := processargs_emitsBy (addCase_found m) _ k q s hk hlen hs
    rw [hleft, hline, hVs] at hemits
    exact ⟨s', hrun, hemits.emitted⟩
  | caseline lists =>
    let m := ofCaseline order mode testName lists
    have hne : lists.map ev.words ≠ [] := by
      rw [Ne, List.map_eq_nil_iff]
      exact fun h => hlists (congrArg Body.caseline h)
    have hn : m.componentNumber = (lists.map ev.words).length := (List.length_map _).symm
    refine generation_returns processparts_mono hn hne fun k hk hleft hlen => ?_
    obtain ⟨s', hrun, hemits⟩ := processparts_emitsBy (addCase_found m) rfl _ k q s hk hlen hs
    have hstart : left m.genOrder (m.caseline.map (ev.ksh checkers).evalSet) k = slowestFirst order (lists.map ev.words) := hleft
    rw [hstart, hline] at hemits
    exact ⟨s', hrun, hemits.emitted⟩

variable (ev checkers order mode) in
theorem runFile_returns (f : File) (q : Place) (s : Gen) (hs : s.At q) (hline : s.testCase = []) :
    ∃ s', Returns (fun fuel => runFile (ev.ksh checkers) order mode fuel s f) s' ∧ Emitted mode (fileFound ev checkers order q f) s s' := by
  refine foldlM_returns (fun p q s hs hline => ?_) f.parts hs hline
  have hpart : { s with caseCheck := p.caseCheck }.At ⟨q.number, p.caseCheck⟩ := ⟨hs.casenumber, rfl⟩
  obtain ⟨s', hrun, hemits⟩ := foldlM_returns runEntry_returns p.entries hpart hline
  exact ⟨s', hrun, hemits.testCase, hemits.place, hemits.echoed, hemits.added⟩

theorem Returns.unique {run : Nat → Option Gen} {s s' : Gen} (h : Returns run s) (h' : Returns run s') : s = s' := by
  obtain ⟨d, hd⟩ := h
  obtain ⟨d', hd'⟩ := h'
  have heq := (hd (max d d') (by omega)).symm.trans (hd' (max d d') (by omega))
  exact Option.some.inj heq

/-- A file is honoured if it emits what its settings say. -/
theorem honours_iff (f : File) :
    Honours ev checkers order mode f ↔ ∀ q : Place, (fileFound ev checkers order q f).1 = (fileEmit ev checkers order q.number f).1 := by
  constructor
  · intro h q
    let s : Gen := ⟨[], [], [], [], [], [], natText q.number, [], q.caseCheck, [], [], []⟩
    obtain ⟨s', hrun, hechoed, -⟩ := h q.number s rfl rfl
    obtain ⟨t, hrun', ht⟩ := runFile_returns ev checkers order mode f q s ⟨rfl, rfl⟩ rfl
    obtain rfl := hrun.unique hrun'
    exact ht.echoed.symm.trans hechoed
  · intro h n s hnum hline
    obtain ⟨s', hrun, hs'⟩ := runFile_returns ev checkers order mode f ⟨n, s.caseCheck⟩ s
      ⟨hnum, rfl⟩ hline
    rw [← h ⟨n, s.caseCheck⟩]
    exact ⟨s', hrun, hs'.echoed, hs'.added⟩

/-! ## Settings that are found -/

/-- What is emitted from two states that are related, if related states emit the same and stay related. -/
theorem emitAll_related {κ κ' α : Type} {emit : κ → α → List Case × κ} {emit' : κ' → α → List Case × κ'} (R : κ → κ' → Prop)
    {as : List α} (h : ∀ a ∈ as, ∀ k k', R k k' → (emit k a).1 = (emit' k' a).1 ∧ R (emit k a).2 (emit' k' a).2) {k : κ} {k' : κ'}
    (hk : R k k') : (emitAll emit k as).1 = (emitAll emit' k' as).1 ∧ R (emitAll emit k as).2 (emitAll emit' k' as).2 := by
  induction as generalizing k k' with
  | nil => exact ⟨rfl, hk⟩
  | cons a as ih =>
    obtain ⟨hout, hstate⟩ := h a List.mem_cons_self k k' hk
    obtain ⟨houts, hstates⟩ := ih (fun b hb => h b (List.mem_cons_of_mem a hb)) hstate
    refine ⟨?_, hstates⟩
    rw [emitAll, emitAll, hout, houts]

theorem settingEmit_congr {testName testName' : Text} (h : shownName testName = shownName testName') (check : Text) (n : Nat)
    (line : Text) : settingEmit checkers testName check n line = settingEmit checkers testName' check n line := by
  by_cases hcheck : check = []
  · subst hcheck
    rw [settingEmit_unset, settingEmit_unset, h]
  · rw [settingEmit_set hcheck, settingEmit_set hcheck]
    cases (checkers check line).2 with
    | none => rw [Option.getD_none, Option.getD_none, h]
    | some name => rfl

theorem foundEmit_eq {testName check : Text} (h : Found ev testName check) (n : Nat) (line : Text) :
    foundEmit ev checkers testName ⟨n, check⟩ line =
      ((settingEmit checkers testName check n line).1, ⟨(settingEmit checkers testName check n line).2, check⟩) := by
  obtain ⟨hname, hcheck⟩ := h
  simp only [foundEmit, hcheck]
  rw [settingEmit_congr hname]

theorem entryFound_eq {e : Entry} {check : Text} (h : e.lines ev order ≠ [] → Found ev e.testName check) (n : Nat) :
    (entryFound ev checkers order ⟨n, check⟩ e).1 = (emitAll (settingEmit checkers e.testName check) n (e.lines ev order)).1 ∧
      (entryFound ev checkers order ⟨n, check⟩ e).2 =
        ⟨(emitAll (settingEmit checkers e.testName check) n (e.lines ev order)).2, check⟩ := by
  by_cases hlines : e.lines ev order = []
  · rw [entryFound, hlines]
    exact ⟨rfl, rfl⟩
  · refine emitAll_related (fun (q : Place) m => q = ⟨m, check⟩) (fun line _ q m hq => ?_) rfl
    subst hq
    rw [foundEmit_eq (h hlines)]
    exact ⟨rfl, rfl⟩

/-- A part under settings that are found emits what they say, whatever checker the part before it had. -/
theorem partFound_eq {p : Part} (h : ∀ e ∈ p.entries, e.lines ev order ≠ [] → Found ev e.testName p.caseCheck) (q : Place) :
    (partFound ev checkers order q p).1 = (partEmit ev checkers order q.number p).1 ∧
      (partFound ev checkers order q p).2.number = (partEmit ev checkers order q.number p).2 := by
  have hrun : (partFound ev checkers order q p).1 = (partEmit ev checkers order q.number p).1 ∧
      (partFound ev checkers order q p).2 = ⟨(partEmit ev checkers order q.number p).2, p.caseCheck⟩ := by
    refine emitAll_related (fun (q : Place) m => q = ⟨m, p.caseCheck⟩) (fun e he q m hq => ?_) rfl
    subst hq
    exact entryFound_eq (h e he) m
  exact ⟨hrun.1, congrArg Place.number hrun.2⟩

theorem fileFound_eq {f : File} (h : ∀ p ∈ f.parts, ∀ e ∈ p.entries, e.lines ev order ≠ [] → Found ev e.testName p.caseCheck)
    (q : Place) : (fileFound ev checkers order q f).1 = (fileEmit ev checkers order q.number f).1 :=
  (emitAll_related (fun (q : Place) n => q.number = n) (fun p hp q _ hq => hq ▸ partFound_eq (h p hp) q) rfl).1

/-! ## Settings that are not found -/

/-- Checkers that accept every line and may set the name. -/
def accepting (names : Text → Option Text) : Checkers := fun check _ => (true, names check)

variable {names : Text → Option Text}

/-- The name of the cases under such a checker. -/
def acceptedName (names : Text → Option Text) (testName check : Text) : Text :=
  shownName (if check = [] then testName else (names check).getD testName)

theorem settingEmit_accepting (testName check : Text) (n : Nat) (line : Text) :
    settingEmit (accepting names) testName check n line = ([⟨acceptedName names testName check ++ '-' :: natText (n + 1), line⟩], n + 1) := by
  by_cases hcheck : check = []
  · subst hcheck
    rfl
  · rw [settingEmit_set hcheck, acceptedName, if_neg hcheck]
    rfl

/-- A count over a list. -/
def countAll {α : Type} (count : α → Nat) : List α → Nat
  | [] => 0
  | a :: as => count a + countAll count as

/-- How many cases are emitted, when each thing emits as many as `count` says. -/
theorem emitAll_count {κ α : Type} {emit : κ → α → List Case × κ} (number : κ → Nat) (count : α → Nat)
    (h : ∀ k a, (emit k a).1.length = count a ∧ number (emit k a).2 = number k + count a) (k : κ) (as : List α) :
    (emitAll emit k as).1.length = countAll count as ∧ number (emitAll emit k as).2 = number k + countAll count as := by
  induction as generalizing k with
  | nil => exact ⟨rfl, rfl⟩
  | cons a as ih =>
    obtain ⟨hlen, hnum⟩ := h k a
    obtain ⟨hlens, hnums⟩ := ih (emit k a).2
    rw [emitAll, List.length_append, hlen, hlens, hnums, hnum, countAll]
    exact ⟨rfl, by omega⟩

/-- The two halves of an emission, when the first thing emits as many cases on both sides. -/
theorem emitAll_cons_inj {κ κ' α : Type} {emit : κ → α → List Case × κ} {emit' : κ' → α → List Case × κ'} {k : κ} {k' : κ'} {a : α}
    {as : List α} (h : (emitAll emit k (a :: as)).1 = (emitAll emit' k' (a :: as)).1) (hlen : (emit k a).1.length = (emit' k' a).1.length) :
    (emit k a).1 = (emit' k' a).1 ∧ (emitAll emit (emit k a).2 as).1 = (emitAll emit' (emit' k' a).2 as).1 := List.append_inj h hlen

/-- The number of the lines of an entry and of a part. -/
def lineCount (ev : EvalSet) (order : Text) (e : Entry) : Nat := countAll (fun _ => 1) (e.lines ev order)

def partCount (ev : EvalSet) (order : Text) (p : Part) : Nat := countAll (lineCount ev order) p.entries

theorem setting_count (check : Text) (e : Entry) (n : Nat) :
    (emitAll (settingEmit (accepting names) e.testName check) n (e.lines ev order)).1.length = lineCount ev order e ∧
      (emitAll (settingEmit (accepting names) e.testName check) n (e.lines ev order)).2 = n + lineCount ev order e := by
  refine emitAll_count (fun n => n) (fun _ => 1) (fun n line => ?_) n (e.lines ev order)
  rw [settingEmit_accepting]
  exact ⟨rfl, rfl⟩

theorem entryFound_count (q : Place) (e : Entry) :
    (entryFound ev (accepting names) order q e).1.length = lineCount ev order e ∧
      (entryFound ev (accepting names) order q e).2.number = q.number + lineCount ev order e := by
  refine emitAll_count Place.number (fun _ => 1) (fun q line => ?_) q (e.lines ev order)
  simp [foundEmit, settingEmit_accepting]

theorem partEmit_count (n : Nat) (p : Part) :
    (partEmit ev (accepting names) order n p).1.length = partCount ev order p ∧
      (partEmit ev (accepting names) order n p).2 = n + partCount ev order p :=
  emitAll_count (fun n => n) (lineCount ev order) (fun n e => setting_count p.caseCheck e n) n p.entries

theorem partFound_count (q : Place) (p : Part) :
    (partFound ev (accepting names) order q p).1.length = partCount ev order p ∧
      (partFound ev (accepting names) order q p).2.number = q.number + partCount ev order p :=
  emitAll_count Place.number (lineCount ev order) entryFound_count ⟨q.number, p.caseCheck⟩ p.entries

theorem ne_shownName_cons (c : Char) (testName : Text) : shownName (c :: shownName testName) ≠ shownName testName := by
  intro h
  have hcons : shownName (c :: shownName testName) = c :: shownName testName := if_neg (List.cons_ne_nil _ _)
  exact List.cons_ne_self c _ (hcons.symm.trans h)

/-- The names under all accepting checkers tell the name and the checker. -/
theorem acceptedName_inj {testName testName' check check' : Text}
    (h : ∀ names, acceptedName names testName check = acceptedName names testName' check') :
    shownName testName = shownName testName' ∧ check = check' := by
  have hnone := h fun _ => none
  simp only [acceptedName, Option.getD_none, ite_self] at hnone
  refine ⟨hnone, ?_⟩
  by_contra hne
  by_cases hcheck : check = []
  · -- only one side asks a checker
    have hcheck' : check' ≠ [] := fun h => hne (hcheck.trans h.symm)
    have hname := h fun _ => some ('x' :: shownName testName)
    simp only [acceptedName, hcheck, hcheck', if_true, if_false, Option.getD_some] at hname
    exact ne_shownName_cons 'x' testName hname.symm
  · by_cases hcheck' : check' = []
    · have hname := h fun _ => some ('x' :: shownName testName')
      simp only [acceptedName, hcheck, hcheck', if_true, if_false, Option.getD_some] at hname
      exact ne_shownName_cons 'x' testName' hname
    · have hname := h fun c => some (if c = check then ['x'] else ['y'])
      have hne' : ¬check' = check := fun h => hne h.symm
      simp [acceptedName, hcheck, hcheck', hne', shownName] at hname

/-- The first line tells whether the setting is found. -/
theorem found_of_lines {testName check : Text} {lines : List Text} {n : Nat} (hlines : lines ≠ [])
    (h : ∀ names, (emitAll (foundEmit ev (accepting names) testName) ⟨n, check⟩ lines).1 =
      (emitAll (settingEmit (accepting names) testName check) n lines).1) : Found ev testName check := by
  obtain ⟨line, lines, rfl⟩ := List.exists_cons_of_ne_nil hlines
  refine acceptedName_inj fun names => ?_
  have hnames := h names
  simp only [emitAll, foundEmit, settingEmit_accepting, List.singleton_append] at hnames
  have hcase := congrArg Case.name (List.cons.inj hnames).1
  exact List.append_cancel_right hcase

theorem entries_found {check : Text} {es : List Entry} {n : Nat}
    (h : ∀ names, (emitAll (entryFound ev (accepting names) order) ⟨n, check⟩ es).1 =
      (emitAll (fun n e => emitAll (settingEmit (accepting names) e.testName check) n (e.lines ev order)) n es).1) :
    ∀ e ∈ es, e.lines ev order ≠ [] → Found ev e.testName check := by
  induction es generalizing n with
  | nil => exact nofun
  | cons e es ih =>
    have hsplit := fun names => emitAll_cons_inj (h names) ((entryFound_count _ e).1.trans (setting_count check e n).1.symm)
    have hfound : e.lines ev order ≠ [] → Found ev e.testName check :=
      fun hlines => found_of_lines hlines fun names => (hsplit names).1
    refine List.forall_mem_cons.mpr ⟨hfound, ih (n := n + lineCount ev order e) fun names => ?_⟩
    have htail := (hsplit names).2
    rwa [(entryFound_eq hfound n).2, (setting_count check e n).2] at htail

theorem parts_found {ps : List Part} {n : Nat} {q : (Text → Option Text) → Place} (hq : ∀ names, (q names).number = n)
    (h : ∀ names, (emitAll (partFound ev (accepting names) order) (q names) ps).1 =
      (emitAll (partEmit ev (accepting names) order) n ps).1) :
    ∀ p ∈ ps, ∀ e ∈ p.entries, e.lines ev order ≠ [] → Found ev e.testName p.caseCheck := by
  induction ps generalizing n q with
  | nil => exact nofun
  | cons p ps ih =>
    have hsplit := fun names => emitAll_cons_inj (h names) ((partFound_count (q names) p).1.trans (partEmit_count n p).1.symm)
    refine List.forall_mem_cons.mpr ⟨entries_found (n := n) fun names => ?_, ih (n := n + partCount ev order p)
      (q := fun names => (partFound ev (accepting names) order (q names) p).2) (fun names => ?_) fun names => ?_⟩
    · have hhead := (hsplit names).1
      rwa [partFound, hq names] at hhead
    · rw [(partFound_count (q names) p).2, hq names]
    · have htail := (hsplit names).2
      rwa [(partEmit_count n p).2] at htail

/-! ## Plain words -/

theorem words_single_plain {w : Text} (hw : Plain w) : ev.words (w ++ [' ']) = [w] := by
  rw [ev.word w [] hw, ev.nil]

/-- Plain settings are found if there is a name or no checker. -/
theorem found_plain_iff {testName check : Text} (hname : testName = [] ∨ Plain testName) (hcheck : check = [] ∨ Plain check) :
    Found ev testName check ↔ testName ≠ [] ∨ check = [] := by
  rcases hname with rfl | hname
  · rcases hcheck with rfl | hcheck
    · have hwords : ev.words (joined [[], []]) = [] := (ev.blank []).trans ev.nil
      simp [Found, hwords]
    · have hwords : ev.words (joined [[], check]) = [check] := (ev.blank check).trans (ev.last check hcheck)
      have hne := hcheck.1
      simp [Found, hwords, hne, Ne.symm hne]
  · have hne := hname.1
    rcases hcheck with rfl | hcheck
    · have hwords : ev.words (joined [testName, []]) = [testName] := words_single_plain hname
      simp [Found, hwords, hne]
    · have hwords : ev.words (joined [testName, check]) = [testName, check] :=
        (ev.word testName check hname).trans (congrArg (testName :: ·) (ev.last check hcheck))
      simp [Found, hwords, hne]

theorem lineWords_plain {w : Text} (hw : Plain w) : lineWords w = [w] := by
  refine words_single (fun c hc => ?_) hw.1
  have hplain := hw.2 c hc
  rw [Bool.eq_false_iff]
  intro h
  simp only [Bool.or_eq_true, decide_eq_true_eq] at h
  rcases h with (rfl | rfl) | rfl
  · exact absurd hplain (by decide)
  · exact absurd hplain (by decide)
  · exact absurd hplain (by decide)

/-- An `eval` that only splits words. -/
def EvalSet.sample : EvalSet where
  words := lineWords
  nil := rfl
  blank := lineWords_blank []
  last := fun _ => lineWords_plain
  word := fun w t hw => (lineWords_blank w t).trans (congrArg (· ++ lineWords t) (lineWords_plain hw))

/-- A file is honoured under all checkers if and only if `eval` finds the setting of each of its entries with a line; a setting of plain
words is found if there is a name or no checker. -/
theorem settings_honoured_iff (ev : EvalSet) (order mode : Text) :
    (∀ f : File, (∀ checkers, Honours ev checkers order mode f) ↔
      ∀ p ∈ f.parts, ∀ e ∈ p.entries, e.lines ev order ≠ [] → Found ev e.testName p.caseCheck) ∧
    (∀ testName check, (testName = [] ∨ Plain testName) → (check = [] ∨ Plain check) →
      (Found ev testName check ↔ testName ≠ [] ∨ check = [])) := by
  refine ⟨fun f => ⟨fun h => ?_, fun h checkers => ?_⟩, fun _ _ => found_plain_iff⟩
  · exact parts_found (q := fun _ => ⟨0, []⟩) (fun _ => rfl) fun names => (honours_iff f).mp (h (accepting names)) ⟨0, []⟩
  · exact (honours_iff f).mpr (fileFound_eq h)

/-- A block with one case, a checker, and no name. -/
def unnamed : File := .caseblock [([], "chk".toList, [⟨[⟨[], ['0'], ['0']⟩], nofun⟩])]

/-- The checker is taken for the name, and the case that it rejects is emitted. -/
theorem not_settings_honoured : ¬∀ (ev : EvalSet) (checkers : Checkers) (order mode : Text) (f : File),
    (∀ p ∈ f.parts, ∀ e ∈ p.entries, (e.testName = [] ∨ Plain e.testName) ∧ (p.caseCheck = [] ∨ Plain p.caseCheck)) →
      Honours ev checkers order mode f := by
  intro h
  have hplain : ∀ p ∈ unnamed.parts, ∀ e ∈ p.entries, (e.testName = [] ∨ Plain e.testName) ∧ (p.caseCheck = [] ∨ Plain p.caseCheck) := by
    simp only [unnamed, File.parts, List.map_cons, List.map_nil, List.mem_singleton, forall_eq, blockEntry]
    have hchk : Plain "chk".toList := ⟨by decide, List.all_eq_true.mp (by decide)⟩
    exact ⟨Or.inl trivial, Or.inr hchk⟩
  have hout := (honours_iff unnamed).mp (h EvalSet.sample (fun _ _ => (false, none)) ascend [] unnamed hplain) ⟨0, []⟩
  have hfound : (fileFound EvalSet.sample (fun _ _ => (false, none)) ascend ⟨0, []⟩ unnamed).1
      = [⟨"chk-1".toList, " 0 0".toList⟩] := by decide
  have hemit : (fileEmit EvalSet.sample (fun _ _ => (false, none)) ascend 0 unnamed).1 = [] := by decide
  rw [hfound, hemit] at hout
  cases hout

end ZfsTest.Stf.Testgen
