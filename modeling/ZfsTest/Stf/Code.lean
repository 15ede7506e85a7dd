import ZfsTest.Stf.Filter

/-!
# Selection by result code

`stf_filter -r C` counts the test cases with the result code `C`, and `-r '!C'` the others. The reader compares `C` with the fifth word
of the `Test_Case_End` entry. The journal library puts the exit code behind the name `OTHER` there, so `-r OTHER` finds none of the test
cases that it should (`selects_iff`).
-/

namespace ZfsTest.Stf.Filter

/-! ## The options -/

/-- `@result_codes`. -/
def resultCodes : List Text :=
  ["PASS".toList, "FAIL".toList, "UNRESOLVED".toList, "NOTINUSE".toList, "UNSUPPORTED".toList, "UNTESTED".toList,
    "UNINITIATED".toList, "NORESULT".toList, "WARNING".toList, "TIMED_OUT".toList, "OTHER".toList]

/-- What the loop over the result codes sets. -/
structure Selection where
  optR : Text
  matchReverse : Bool
  opValid : Bool
  deriving DecidableEq

def tryCode (s : Selection) (code : Text) : Selection :=
  if s.optR = code ∨ s.optR = '!' :: code then
    if s.optR.take 1 = ['!'] then ⟨s.optR.drop 1, true, true⟩ else { s with opValid := true }
  else s

/-- A text that is false in Perl. -/
def isFalse (t : Text) : Bool := t = [] || t = ['0']

/-- The option `-r`. The loop goes on behind a code that fits, for `break` does not leave it. -/
def parseR (optR : Text) : Selection :=
  if isFalse optR then ⟨optR, false, true⟩ else resultCodes.foldl tryCode ⟨optR, false, false⟩

def isCodeMatch (code optR : Text) (matchReverse : Bool) : Bool :=
  if matchReverse = false then code = optR else code ≠ optR

/-- Without `-p`, whether a result is counted. -/
def Selection.accept (s : Selection) (_ code : Text) : Bool := isFalse s.optR || isCodeMatch code s.optR s.matchReverse

/-- `stf_filter -r optR` up to its report; `none` when it dies. -/
def stfFilter (optR : Text) (files : List Text) : Option State :=
  if (parseR optR).opValid then (readFiles (parseR optR).accept files).toOption else none

/-! ## Journals of test cases -/

/-- The two entries of a test case: what the calls find, and their arguments. -/
structure TestCase where
  startEnv : Env
  startState : Stf.State
  pid : Int
  line : Text
  endEnv : Env
  endState : Stf.State
  name : Text
  childPid : Int
  status : BitVec 32
  lineOk : '\n' ∉ line
  nameOk : name ≠ [] ∧ ∀ c ∈ name, isSpace c = false

def TestCase.started (t : TestCase) : Text := Call.entry t.startEnv t.startState (.testcaseStart t.pid t.line)

def TestCase.ended (t : TestCase) : Text := Call.entry t.endEnv t.endState (.testcaseEnd t.name t.childPid t.status)

/-- What the two calls write. -/
def TestCase.written (t : TestCase) : Text := snprintf (MAXCHAR + 2) t.started ++ snprintf (MAXCHAR + 2) t.ended

/-- Both entries fit in the buffer. -/
def TestCase.Whole (t : TestCase) : Prop := t.started.length ≤ MAXCHAR + 1 ∧ t.ended.length ≤ MAXCHAR + 1

/-- The result of a test case, and what its entry shows. -/
def TestCase.result (t : TestCase) : Text := (resultField t.status).name

def TestCase.shown (t : TestCase) : Text := resultWord t.status

/-- A journal: the start line and the test cases. -/
structure CaseJournal where
  start : Text
  tests : List TestCase
  isStart : "Start|".toList <+: start
  startLine : '\n' ∉ start

def CaseJournal.text (j : CaseJournal) : Text := j.start ++ '\n' :: j.tests.flatMap TestCase.written

/-- The counts are those of the test cases that `selected` tells. -/
structure Counts (tests : List TestCase) (selected : TestCase → Bool) (st : State) : Prop where
  results : ∀ k, st.results.count k = tests.countP fun t => selected t && key t.name t.shown = k
  totals : ∀ r, st.totals.count r = tests.countP fun t => selected t && t.shown = r

/-- `-r C` counts the test cases with the result `C`, and `-r '!C'` the others. -/
def Selects (C : Text) (j : CaseJournal) : Prop :=
  (∃ st, stfFilter C [j.text] = some st ∧ Counts j.tests (fun t => t.result = C) st) ∧
    ∃ st, stfFilter ('!' :: C) [j.text] = some st ∧ Counts j.tests (fun t => t.result ≠ C) st

/-- The two outputs share out the counts without `-r`. -/
def Partitions (C : Text) (j : CaseJournal) : Prop :=
  ∃ st st₁ st₂, stfFilter [] [j.text] = some st ∧ stfFilter C [j.text] = some st₁ ∧ stfFilter ('!' :: C) [j.text] = some st₂ ∧
    (∀ k, st.results.count k = st₁.results.count k + st₂.results.count k) ∧
    ∀ r, st.totals.count r = st₁.totals.count r + st₂.totals.count r

def OTHER : Text := "OTHER".toList

/-! ## What is shown -/

theorem parseR_code : ∀ C ∈ resultCodes, parseR C = ⟨C, false, true⟩ ∧ parseR ('!' :: C) = ⟨C, true, true⟩ ∧ isFalse C = false := by
  decide

theorem getStatusName_small {e : Nat} (h : e < STF_OTHER) : getStatusName e ≠ OTHER := by
  have hall : ∀ i < STF_OTHER, resultName i ≠ OTHER := by decide
  have hin : ¬((e : Int) < 0 ∨ (e : Int) > (STF_MAX_RESULTS : Int) - 1) := by
    simp only [STF_OTHER, STF_MAX_RESULTS] at h ⊢
    omega
  rw [getStatusName, if_neg hin]
  exact hall e h

theorem getStatusName_other {e : Nat} (h : ¬e < STF_OTHER) : getStatusName e = OTHER := by
  unfold getStatusName
  split
  · rfl
  · rename_i hin
    have he : e = 10 := by
      simp only [STF_OTHER, STF_MAX_RESULTS] at h hin
      omega
    subst he
    rfl

/-- The exit code is shown for the result `OTHER`, and for no other one. -/
theorem exitCode_iff (status : BitVec 32) :
    ((resultField status).name ≠ OTHER ∧ (resultField status).exitCode = none) ∨
      ((resultField status).name = OTHER ∧ ∃ n, (resultField status).exitCode = some n) := by
  unfold resultField
  simp only
  split
  · split
    · rename_i h
      exact Or.inl ⟨getStatusName_small h, rfl⟩
    · rename_i h
      exact Or.inr ⟨getStatusName_other h, _, rfl⟩
  · split
    · rename_i h
      have hlt : WEXITSTATUS status < STF_OTHER := by
        rw [h]
        decide
      exact Or.inl ⟨getStatusName_small hlt, rfl⟩
    · split
      · have hname : resultName NORESULT_INDEX ≠ OTHER := by decide
        exact Or.inl ⟨hname, rfl⟩
      · rename_i h
        exact Or.inr ⟨getStatusName_other h, _, rfl⟩

/-- What is shown is a code only if it is the result, and the result `OTHER` is never shown. -/
theorem shown_eq_iff (t : TestCase) {C : Text} (hC : C ∈ resultCodes) : t.shown = C ↔ t.result = C ∧ C ≠ OTHER := by
  rcases exitCode_iff t.status with ⟨hne, hnone⟩ | ⟨heq, n, hsome⟩
  · have hshown : t.shown = t.result := by
      rw [TestCase.shown, resultWord, hnone]
      exact List.append_nil _
    rw [hshown]
    exact ⟨fun h => ⟨h, fun hc => hne (h.trans hc)⟩, And.left⟩
  · have hshown : t.shown = OTHER ++ '_' :: natText n := by
      rw [TestCase.shown, resultWord, heq, hsome]
      rfl
    have hcodes : ∀ C ∈ resultCodes, C.take 6 ≠ OTHER ++ ['_'] := by decide
    have hres : t.result = OTHER := heq
    rw [hshown, hres]
    refine ⟨fun h => absurd ?_ (hcodes C hC), fun ⟨h, hne⟩ => absurd h.symm hne⟩
    rw [← h]
    rfl

/-! ## The reader -/

variable {accept : Text → Text → Bool}

theorem count_add (h : Hash) (k : Text) (n : Int) (k' : Text) : (h.add k n).count k' = h.count k' + if k = k' then n else 0 := by
  unfold Hash.count
  rw [Hash.get?_add]
  split
  · rename_i hk
    subst hk
    rfl
  · rw [add_zero]

theorem addResult_results (st : State) (id r k : Text) :
    (addResult accept st id r 1).results.count k = st.results.count k + if accept id r ∧ key id r = k then 1 else 0 := by
  unfold addResult
  split
  · rename_i h
    simp [count_add, h]
  · rename_i h
    simp [h]

theorem addResult_totals (st : State) (id r r' : Text) :
    (addResult accept st id r 1).totals.count r' = st.totals.count r' + if accept id r ∧ r = r' then 1 else 0 := by
  unfold addResult
  split
  · rename_i h
    simp [count_add, h]
  · rename_i h
    simp [h]

/-- The line of an entry, without the newline. -/
def startLine (t : TestCase) : Text :=
  let a : Call := .testcaseStart t.pid t.line
  a.before ++ a.body t.startState ++ a.behind t.startEnv t.startState

def endLine (t : TestCase) : Text :=
  let a : Call := .testcaseEnd t.name t.childPid t.status
  a.before ++ a.body t.endState ++ a.behind t.endEnv t.endState

theorem journalLine_startLine (st : State) (t : TestCase) : journalLine accept st (startLine t) = .ok st := by
  obtain ⟨u, hu⟩ := entry_front (.testcaseStart t.pid t.line) t.startEnv t.startState
  have hcode : "Test_Case_Start|".toList <+: startLine t := by
    rw [startLine, hu]
    exact List.prefix_append _ _
  rw [journalLine, if_pos hcode]

/-- The third word of the end of a test case. -/
theorem field_name (t : TestCase) : field (fields (endLine t)) 2 = t.name := by
  have hsp : isSpace ' ' = true := rfl
  have hline : endLine t = (JNL_TESTCASE_END ++ ['|']) ++ ' ' :: (intText t.childPid ++ ' ' :: (t.name ++ ' ' ::
      ('|' :: ' ' :: ((resultField t.status).text ++ stamp t.endEnv (t.endState.vars.elim (-1) fun v => (v.jact : Int)))))) := by
    simp [endLine, Call.before, Call.body, Call.behind, Call.code, Call.pid, Call.gap, bar]
  unfold fields
  rw [hline, words_word (forall_of_any_eq_false (by decide)) (by decide) hsp, words_word not_space_intText (intText_ne_nil _) hsp,
    words_word t.nameOk.2 t.nameOk.1 hsp]
  rfl

theorem journalLine_endLine (st : State) (t : TestCase) :
    journalLine accept st (endLine t) = .ok (addResult accept st t.name t.shown 1) := by
  obtain ⟨u, hu⟩ := entry_front (.testcaseEnd t.name t.childPid t.status) t.endEnv t.endState
  have hfront : endLine t = "Test_Case_End|".toList ++ u := hu
  have hcode : "Test_Case_End|".toList <+: endLine t := by
    rw [hfront]
    exact List.prefix_append _ _
  have hstart : ¬"Test_Case_Start|".toList <+: endLine t := by
    rw [hfront]
    exact not_prefix_append 11 (by decide)
  have hshown : field (fields (endLine t)) 4 = t.shown :=
    field_testcaseEnd t.endEnv t.endState t.nameOk.2 t.nameOk.1 t.childPid t.status
  rw [journalLine, if_neg hstart, if_pos hcode, field_name, hshown]

variable (accept) in
/-- What the lines of some test cases add to the counts. -/
theorem foldlM_tests (tests : List TestCase) (st : State) :
    ∃ st', (tests.flatMap fun t => [startLine t, endLine t]).foldlM (journalLine accept) st = .ok st' ∧
      (∀ k, st'.results.count k = st.results.count k + tests.countP fun t => accept t.name t.shown && key t.name t.shown = k) ∧
      ∀ r, st'.totals.count r = st.totals.count r + tests.countP fun t => accept t.name t.shown && t.shown = r := by
  induction tests generalizing st with
  | nil => exact ⟨st, rfl, by simp, by simp⟩
  | cons t tests ih =>
    obtain ⟨st', hrun, hresults, htotals⟩ := ih (addResult accept st t.name t.shown 1)
    refine ⟨st', ?_, fun k => ?_, fun r => ?_⟩
    · have hpair : [startLine t, endLine t].foldlM (journalLine accept) st = .ok (addResult accept st t.name t.shown 1) := by
        simp only [List.foldlM_cons, List.foldlM_nil, journalLine_startLine, bind, Except.bind, journalLine_endLine]
        rfl
      rw [List.flatMap_cons, List.foldlM_append, hpair]
      exact hrun
    · rw [hresults, addResult_results, List.countP_cons]
      simp only [Bool.and_eq_true, decide_eq_true_eq]
      split
      · push_cast
        omega
      · push_cast
        omega
    · rw [htotals, addResult_totals, List.countP_cons]
      simp only [Bool.and_eq_true, decide_eq_true_eq]
      split
      · push_cast
        omega
      · push_cast
        omega

/-- What is written of entries that fit, as lines. -/
theorem written_whole {t : TestCase} (h : t.Whole) : t.written = [startLine t, endLine t].flatMap fun l => l ++ ['\n'] := by
  have hstart : snprintf (MAXCHAR + 2) t.started = t.started := List.take_of_length_le h.1
  have hend : snprintf (MAXCHAR + 2) t.ended = t.ended := List.take_of_length_le h.2
  rw [TestCase.written, hstart, hend]
  simp [TestCase.started, TestCase.ended, startLine, endLine, Call.entry]

theorem linesOf_text {j : CaseJournal} (h : ∀ t ∈ j.tests, t.Whole) :
    linesOf j.text = j.start :: j.tests.flatMap fun t => [startLine t, endLine t] := by
  have hwritten : j.tests.flatMap TestCase.written = (j.tests.flatMap fun t => [startLine t, endLine t]).flatMap fun l => l ++ ['\n'] := by
    rw [List.flatMap_assoc]
    exact List.flatMap_congr fun t ht => written_whole (h t ht)
  have hlines : ∀ l ∈ j.tests.flatMap fun t => [startLine t, endLine t], '\n' ∉ l := by
    intro l hl
    obtain ⟨t, -, hl⟩ := List.mem_flatMap.mp hl
    rcases List.mem_pair.mp hl with rfl | rfl
    · exact (Written.entry t.startEnv t.startState (.testcaseStart t.pid t.line) t.lineOk).newline_notMem
    · exact (Written.entry t.endEnv t.endState (.testcaseEnd t.name t.childPid t.status) t.nameOk).newline_notMem
  rw [CaseJournal.text, linesOf_line j.startLine, hwritten, linesOf_lines hlines]

/-- With a valid option the reader counts what the option accepts. -/
theorem stfFilter_counts {j : CaseJournal} (hj : ∀ t ∈ j.tests, t.Whole) (optR : Text) (hvalid : (parseR optR).opValid = true) :
    ∃ st, stfFilter optR [j.text] = some st ∧ Counts j.tests (fun t => (parseR optR).accept t.name t.shown) st := by
  obtain ⟨u, hu⟩ := j.isStart
  have hbase : ¬Basekey <+: j.start := by
    rw [← hu]
    exact not_prefix_append 1 (by decide)
  have hstart : Filter.isStart j.start = true := by
    rw [← hu]
    rfl
  obtain ⟨st, hrun, hresults, htotals⟩ := foldlM_tests (parseR optR).accept j.tests
    (openFile State.init (field (fields j.start) 6))
  have hread : readFiles (parseR optR).accept [j.text] = .ok st := by
    rw [readFiles, List.foldlM_cons, readFile, linesOf_text hj]
    simp only [if_neg hbase, if_pos hstart, hrun]
    rfl
  refine ⟨st, ?_, ⟨fun k => ?_, fun r => ?_⟩⟩
  · rw [stfFilter, if_pos hvalid, hread]
    rfl
  · rw [hresults]
    exact zero_add _
  · rw [htotals]
    exact zero_add _

theorem Counts.congr {tests : List TestCase} {p q : TestCase → Bool} {st : State} (h : Counts tests p st) (hpq : ∀ t ∈ tests, p t = q t) :
    Counts tests q st where
  results := fun k => by
    rw [h.results]
    exact congrArg Nat.cast (List.countP_congr fun t ht => by rw [hpq t ht])
  totals := fun r => by
    rw [h.totals]
    exact congrArg Nat.cast (List.countP_congr fun t ht => by rw [hpq t ht])

theorem accept_code {C : Text} (hC : C ∈ resultCodes) (name shown : Text) :
    (parseR C).accept name shown = decide (shown = C) ∧ (parseR ('!' :: C)).accept name shown = decide (shown ≠ C) := by
  obtain ⟨hplain, hreverse, hfalse⟩ := parseR_code C hC
  rw [hplain, hreverse]
  simp [Selection.accept, hfalse, isCodeMatch]

theorem countP_split {α : Type} (p q : α → Bool) (l : List α) :
    l.countP q = l.countP (fun x => p x && q x) + l.countP fun x => !p x && q x := by
  rw [List.countP_eq_countP_filter_add l q p, List.countP_filter, List.countP_filter]
  simp [Bool.and_comm]

theorem other_mem : OTHER ∈ resultCodes := by decide

/-- A test case with the result `OTHER` is not counted for `-r OTHER`. -/
theorem other_not_selected {j : CaseJournal} (hj : ∀ t ∈ j.tests, t.Whole) {t : TestCase} (ht : t ∈ j.tests) (hres : t.result = OTHER) :
    ¬Selects OTHER j := by
  rintro ⟨⟨st, hst, hsel⟩, -⟩
  obtain ⟨hplain, -, -⟩ := parseR_code OTHER other_mem
  obtain ⟨st', hst', hcounts⟩ := stfFilter_counts hj OTHER (by rw [hplain])
  obtain rfl := Option.some.inj (hst'.symm.trans hst)
  simp only [accept_code other_mem] at hcounts
  have hcount := (hsel.results (key t.name t.shown)).symm.trans (hcounts.results _)
  have hnone : (j.tests.countP fun t' => decide (t'.shown = OTHER) && decide (key t'.name t'.shown = key t.name t.shown)) = 0 := by
    rw [List.countP_eq_zero]
    intro t' _
    have hshown : t'.shown ≠ OTHER := fun h => ((shown_eq_iff t' other_mem).mp h).2 rfl
    simp [hshown]
  have hpos : 0 < j.tests.countP fun t' => decide (t'.result = OTHER) && decide (key t'.name t'.shown = key t.name t.shown) :=
    List.countP_pos_iff.mpr ⟨t, ht, by simp [hres]⟩
  omega

/-- For a journal of entries that fit in the buffer, the selection by `C` is exact unless `C` is `OTHER` and a test case has this result.
The outputs always share out the counts. -/
theorem selects_iff {C : Text} (hC : C ∈ resultCodes) (j : CaseJournal) (hj : ∀ t ∈ j.tests, t.Whole) :
    (Selects C j ↔ (C = OTHER → ∀ t ∈ j.tests, t.result ≠ OTHER)) ∧ Partitions C j := by
  obtain ⟨hplain, hreverse, -⟩ := parseR_code C hC
  obtain ⟨st, hst, hcounts⟩ := stfFilter_counts hj C (by rw [hplain])
  obtain ⟨st', hst', hcounts'⟩ := stfFilter_counts hj ('!' :: C) (by rw [hreverse])
  simp only [accept_code hC] at hcounts hcounts'
  refine ⟨⟨fun h hother t ht hres => ?_, fun h => ?_⟩, ?_⟩
  · subst hother
    exact other_not_selected hj ht hres h
  · have hshown : ∀ t ∈ j.tests, (t.shown = C ↔ t.result = C) := by
      intro t ht
      rw [shown_eq_iff t hC]
      refine ⟨And.left, fun hres => ⟨hres, fun hother => ?_⟩⟩
      exact h hother t ht (hres.trans hother)
    exact ⟨⟨st, hst, hcounts.congr fun t ht => decide_eq_decide.mpr (hshown t ht)⟩,
      st', hst', hcounts'.congr fun t ht => decide_eq_decide.mpr (not_congr (hshown t ht))⟩
  · obtain ⟨st₀, hst₀, hcounts₀⟩ := stfFilter_counts hj [] rfl
    have hall : ∀ t : TestCase, (parseR []).accept t.name t.shown = true := fun _ => rfl
    refine ⟨st₀, st, st', hst₀, hst, hst', fun k => ?_, fun r => ?_⟩
    · rw [hcounts₀.results, hcounts.results, hcounts'.results]
      simp only [hall, Bool.true_and, decide_not]
      exact_mod_cast countP_split (fun t : TestCase => decide (t.shown = C)) _ j.tests
    · rw [hcounts₀.totals, hcounts.totals, hcounts'.totals]
      simp only [hall, Bool.true_and, decide_not]
      exact_mod_cast countP_split (fun t : TestCase => decide (t.shown = C)) _ j.tests

/-- One test case, which has exited with 12. -/
def CaseJournal.sample : CaseJournal where
  start := "Start| 09:15:00 1 - - - 1.0 |".toList
  tests := [⟨.sample, ⟨[], none⟩, 1, "t arg".toList, .sample, ⟨[], none⟩, ['t'], 1, 0x0C00#32, by decide,
    List.cons_ne_nil _ _, forall_of_any_eq_false rfl⟩]
  isStart := by decide
  startLine := by decide

theorem sample_whole : ∀ t ∈ CaseJournal.sample.tests, t.Whole := by
  have hall : ∀ t ∈ CaseJournal.sample.tests, t.started.length ≤ MAXCHAR + 1 ∧ t.ended.length ≤ MAXCHAR + 1 := by decide
  exact hall

theorem selects_sample : Selects "PASS".toList .sample ∧ Partitions "PASS".toList .sample := by
  have hne : "PASS".toList ≠ OTHER := by decide
  obtain ⟨hiff, hpart⟩ := selects_iff (C := "PASS".toList) (by decide) .sample sample_whole
  exact ⟨hiff.mpr fun h => absurd h hne, hpart⟩

/-- `-r OTHER` does not count the test case, whose entry shows `OTHER_12`. -/
theorem not_selects : ¬∀ C ∈ resultCodes, ∀ j : CaseJournal, (∀ t ∈ j.tests, t.Whole) → Selects C j := by
  intro h
  have hres : ∃ t ∈ CaseJournal.sample.tests, t.result = OTHER := by decide
  obtain ⟨t, ht, hres⟩ := hres
  exact other_not_selected sample_whole ht hres (h OTHER other_mem .sample sample_whole)

end ZfsTest.Stf.Filter
