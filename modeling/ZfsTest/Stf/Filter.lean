import ZfsTest.Text.Words
import ZfsTest.Stf.Entries

/-!
# The journal reader `stf_filter.pl`

`stf_filter` without `-v`: it reads journals and files in its own baseline format, counts results per test (`%results`) and in
all (`%total_results`), and prints the counts in baseline format. `accept` stands for the options `-r` and `-p`; without options
everything is accepted.

Two facts about the reader. The branch for `Totals` entries calls a subroutine that does not exist, so no such entry is ever
accounted for (`totals_not_accounted`). The report ends with a section of totals that the baseline reader takes for results,
so no report is a fixed point (`report_not_fixedPoint`).
-/

namespace ZfsTest.Stf.Filter

/-! ## Perl -/

/-- `\s`. -/
def isSpace (c : Char) : Bool := c = ' ' || c = '\t' || c = '\n' || c = '\r' || c = '\x0c'

/-- `split` of a line. -/
abbrev fields (line : Text) : List Text := words isSpace line

/-- `$_[i]`; an undefined value is the empty text. -/
def field (f : List Text) (i : Nat) : Text := f.getD i []

/-- The number at the front of a text. A count is an integer in every file that `libstf` or `stf_filter` writes. -/
def intOf : Text → Int
  | '-' :: t => -((Nat.ofDigitChars 10 (t.takeWhile Char.isDigit) 0 : Nat) : Int)
  | t => (Nat.ofDigitChars 10 (t.takeWhile Char.isDigit) 0 : Nat)

/-- A hash with numbers as values; a key has no pair before its first addition. -/
abbrev Hash := List (Text × Int)

def Hash.get? (h : Hash) (k : Text) : Option Int := (h.find? fun x => x.1 = k).map Prod.snd

/-- `$h{k} += n`. -/
def Hash.add (h : Hash) (k : Text) (n : Int) : Hash :=
  match h with
  | [] => [(k, n)]
  | x :: h => if x.1 = k then (k, x.2 + n) :: h else x :: Hash.add h k n

/-- `sort keys`. -/
def Hash.sortedKeys (h : Hash) : List Text := (h.map Prod.fst).mergeSort fun a b => !decide (b < a)

/-! ## The reader -/

def Basekey : Text := "_bAseLinE_STF".toList

structure State where
  firstFile : Bool
  compVers : Text
  results : Hash
  totals : Hash
  out : Text

inductive Die
  | notAJournal
  | undefinedSubroutine
  deriving DecidableEq, Repr

/-- The key of `$results{$id, $resultname}`. -/
def key (id resultname : Text) : Text := id ++ '\x1c' :: resultname

section

variable (accept : Text → Text → Bool)

/-- The two additions that every branch makes for an accepted result. -/
def addResult (st : State) (id resultname : Text) (count : Int) : State :=
  if accept id resultname then
    { st with results := st.results.add (key id resultname) count, totals := st.totals.add resultname count }
  else st

/-- `split(/:/, $result)`: the name and the count, which is `1` unless it is there and true. -/
def resultOf (result : Text) : Text × Int :=
  let count := ((result.dropWhile (· ≠ ':')).drop 1).takeWhile (· ≠ ':')
  (result.takeWhile (· ≠ ':'), if count = [] ∨ count = ['0'] then 1 else intOf count)

/-- A line of a baseline file: an id and its results. -/
def baseLine (st : State) (line : Text) : State :=
  match fields line with
  | [] => st
  | id :: results => results.foldl (fun st r => addResult accept st id (resultOf r).1 (resultOf r).2) st

/-- A line of a journal. `stripname` is defined nowhere. -/
def journalLine (st : State) (line : Text) : Except Die State :=
  if "Test_Case_Start|".toList <+: line then .ok st
  else if "Test_Case_End|".toList <+: line then
    .ok (addResult accept st (field (fields line) 2) (field (fields line) 4) 1)
  else if "Assertion_End|".toList <+: line then
    .ok (addResult accept st (field (fields line) 2) (field (fields line) 4) 1)
  else if "Totals|".toList <+: line then .error .undefinedSubroutine
  else .ok st

/-- `/^\Start\|/`: any visible character, then `tart|`. -/
def isStart : Text → Bool
  | [] => false
  | c :: t => !isSpace c && "tart|".toList.isPrefixOf t

/-- The header that is printed for the first file. -/
def openFile (st : State) (vers : Text) : State :=
  if st.firstFile then st
  else { st with firstFile := true, compVers := vers, out := st.out ++ Basekey ++ [' '] ++ vers }

/-- One file. -/
def readFile (st : State) (text : Text) : Except Die State :=
  match linesOf text with
  | [] => .ok st
  | first :: rest =>
    if Basekey <+: first then
      .ok (rest.foldl (baseLine accept) (openFile st (field (fields first) 1)))
    else if isStart first then
      rest.foldlM (journalLine accept) (openFile st (field (fields first) 6))
    else .error .notAJournal

def State.init : State := ⟨false, [], [], [], []⟩

/-- The files given as arguments. -/
def readFiles (files : List Text) : Except Die State := files.foldlM (readFile accept) State.init

end

/-! ## The report -/

/-- The results, one line for each id; `prev` is the id of the line that is being printed. -/
def resultLines (h : Hash) : Text → List Text → Text
  | _, [] => []
  | prev, k :: ks =>
    let id := k.takeWhile (· ≠ '\x1c')
    let resultname := ((k.dropWhile (· ≠ '\x1c')).drop 1).takeWhile (· ≠ '\x1c')
    (if id = prev then [] else '\n' :: id ++ [' ']) ++
      (' ' :: resultname ++ ':' :: intText ((h.get? (key id resultname)).getD 0)) ++ resultLines h id ks

def totalLines (h : Hash) : Text :=
  h.sortedKeys.flatMap fun k => '\t' :: k ++ ": ".toList ++ intText ((h.get? k).getD 0) ++ ['\n']

/-- What is printed in all. -/
def report (st : State) : Text :=
  st.out ++ resultLines st.results [] st.results.sortedKeys ++ '\n' :: '\n' :: ("Result Total:".toList ++
    '\n' :: totalLines st.totals)

/-! ## Totals entries -/

/-- The number that a hash has for a key; none counts as `0`. -/
def Hash.count (h : Hash) (k : Text) : Int := (h.get? k).getD 0

/-- The counts of a `Totals` entry for one result name. -/
def countOf (resultCts : Fin STF_MAX_RESULTS → Int) (resultname : Text) : Int :=
  (((List.finRange STF_MAX_RESULTS).filter fun i => resultName i.val = resultname).map resultCts).sum

/-- The counts of a `Totals` entry are added to those of its name, and nothing else changes. -/
def Accounted (name : Text) (resultCts : Fin STF_MAX_RESULTS → Int) (st st' : State) : Prop :=
  (∀ id r, st'.results.count (key id r) = st.results.count (key id r) + if id = name then countOf resultCts r else 0) ∧
    ∀ r, st'.totals.count r = st.totals.count r + countOf resultCts r

/-- A line whose reference code is `Totals` ends the reader. -/
theorem journalLine_totals (accept : Text → Text → Bool) (st : State) (t : Text) :
    journalLine accept st ("Totals|".toList ++ t) = .error .undefinedSubroutine := by
  have h1 : ¬"Test_Case_Start|".toList <+: "Totals|".toList ++ t := by simp
  have h2 : ¬"Test_Case_End|".toList <+: "Totals|".toList ++ t := by simp
  have h3 : ¬"Assertion_End|".toList <+: "Totals|".toList ++ t := by simp
  rw [journalLine, if_neg h1, if_neg h2, if_neg h3, if_pos (List.prefix_append _ _)]

/-- What a call to `stf_jnl_totals_pid` has appended begins with its reference code. -/
theorem totals_front {env : Env} {s s' : Stf.State} {pid : Int} {idName : Text} {cts : Fin STF_MAX_RESULTS → Int} {t : Text}
    (h : journalCall env (.totals pid idName cts) s = .ok s') (ht : s'.journal = s.journal ++ t) :
    ∃ u, t = "Totals|".toList ++ u := by
  obtain ⟨-, -, hw⟩ := journalCall_ok h
  have hl : t = (Call.entry env s (.totals pid idName cts)).take (MAXCHAR + 1) := List.append_cancel_left (ht.symm.trans hw)
  have hcode : "Totals|".toList <+: JNL_TOTALS ++ "| ".toList := by decide
  have hpre : "Totals|".toList <+: Call.entry env s (.totals pid idName cts) := by
    unfold Call.entry Call.before Call.code
    simp only [List.append_assoc]
    rw [← List.append_assoc]
    exact hcode.trans (List.prefix_append _ _)
  have hlen : "Totals|".toList.length ≤ MAXCHAR + 1 := by decide
  obtain ⟨u, hu⟩ := List.prefix_take_iff.mpr ⟨hpre, hlen⟩
  exact ⟨u, hl.trans hu.symm⟩

/-- No entry of `stf_jnl_totals_pid` is accounted for: whatever the name, the id and the counts, the reader does not get past
it. -/
theorem totals_not_accounted (accept : Text → Text → Bool) (env : Env) (s : Stf.State) (pid : Int) (idName : Text)
    (cts : Fin STF_MAX_RESULTS → Int) (st : State) :
    ¬∃ s' t st', journalCall env (.totals pid idName cts) s = .ok s' ∧ s'.journal = s.journal ++ t ∧
      (linesOf t).foldlM (journalLine accept) st = .ok st' ∧
      Accounted (s.var Jvars.jasrt ++ idText idName none) cts st st' := by
  rintro ⟨s', t, st', h, ht, hread, -⟩
  obtain ⟨u, rfl⟩ := totals_front h ht
  obtain ⟨l, ls, hl⟩ := linesOf_front (u := "Totals|".toList) (by decide) (by decide) u
  rw [hl, List.foldlM_cons, journalLine_totals] at hread
  cases hread

/-- One test that passed once. -/
theorem not_totals_accounted : ¬∀ (env : Env) (s : Stf.State) (pid : Int) (idName : Text) (cts : Fin STF_MAX_RESULTS → Int)
    (st : State), env.opens = true → s.var Jvars.jasrt ≠ [] → (∀ c ∈ s.var Jvars.jasrt ++ idName, isSpace c = false) →
    ∃ s' t st', journalCall env (.totals pid idName cts) s = .ok s' ∧ s'.journal = s.journal ++ t ∧
      (linesOf t).foldlM (journalLine fun _ _ => true) st = .ok st' ∧
      Accounted (s.var Jvars.jasrt ++ idText idName none) cts st st' := by
  intro H
  obtain ⟨s', t, st', h, ht, hread, -⟩ := H .sample ⟨[], some ⟨"tc".toList, [], [], 0, 0, 0⟩⟩ 1 "a".toList
    (fun i => if i.val = 0 then 1 else 0) State.init rfl (by decide) (forall_of_any_eq_false (by decide))
  obtain ⟨u, rfl⟩ := totals_front h ht
  obtain ⟨l, ls, hl⟩ := linesOf_front (u := "Totals|".toList) (by decide) (by decide) u
  rw [hl, List.foldlM_cons, journalLine_totals] at hread
  cases hread

/-! ## Hashes -/

theorem Hash.get?_cons (x : Text × Int) (h : Hash) (k : Text) :
    Hash.get? (x :: h) k = if x.1 = k then some x.2 else Hash.get? h k := by
  unfold Hash.get?
  by_cases hx : x.1 = k
  · simp [hx]
  · simp [hx]

theorem Hash.get?_add (h : Hash) (k : Text) (n : Int) (k' : Text) :
    (h.add k n).get? k' = if k = k' then some (h.count k + n) else h.get? k' := by
  induction h with
  | nil =>
    rw [Hash.add, Hash.get?_cons]
    simp [Hash.count, Hash.get?]
  | cons x h ih =>
    rw [Hash.add]
    by_cases hx : x.1 = k
    · rw [if_pos hx, Hash.get?_cons, Hash.get?_cons]
      by_cases hk : k = k'
      · simp [hk, hx, Hash.count, Hash.get?_cons]
      · simp [hk, hx]
    · rw [if_neg hx, Hash.get?_cons, Hash.get?_cons, ih]
      by_cases hk : k = k'
      · subst hk
        simp [hx, Hash.count, Hash.get?_cons]
      · simp [hk]

/-! ## Reading a report -/

section

variable {accept : Text → Text → Bool}

/-- A total that is there stays. -/
theorem addResult_keeps {st : State} {r : Text} (h : st.totals.get? r ≠ none) (id name : Text) (n : Int) :
    (addResult accept st id name n).totals.get? r ≠ none := by
  unfold addResult
  split
  · rw [Hash.get?_add]
    split
    · exact Option.some_ne_none _
    · exact h
  · exact h

theorem baseLine_keeps {st : State} {r : Text} (h : st.totals.get? r ≠ none) (line : Text) :
    (baseLine accept st line).totals.get? r ≠ none := by
  unfold baseLine
  split
  · exact h
  · rename_i id results hf
    clear hf
    induction results generalizing st with
    | nil => exact h
    | cons x results ih => exact ih (addResult_keeps h _ _ _)

theorem foldl_baseLine_keeps {st : State} {r : Text} (h : st.totals.get? r ≠ none) (lines : List Text) :
    (lines.foldl (baseLine accept) st).totals.get? r ≠ none := by
  induction lines generalizing st with
  | nil => exact h
  | cons l lines ih => exact ih (baseLine_keeps h l)

/-- The heading of the totals is taken for a result. -/
theorem baseLine_heading (st : State) :
    (baseLine (fun _ _ => true) st "Result Total:".toList).totals.get? "Total".toList ≠ none := by
  have hf : fields "Result Total:".toList = ["Result".toList, "Total:".toList] := by decide
  have hr : resultOf "Total:".toList = ("Total".toList, 1) := by decide
  have hline : baseLine (fun _ _ => true) st "Result Total:".toList =
      addResult (fun _ _ => true) st "Result".toList "Total".toList 1 := by
    rw [baseLine, hf]
    simp only [List.foldl_cons, List.foldl_nil, hr]
  rw [hline, addResult, if_pos rfl]
  simp [Hash.get?_add]

/-- The lines of a report: the line with the key, others, and among these the heading of the totals. -/
theorem linesOf_report {st : State} {vers : Text} (hout : st.out = Basekey ++ [' '] ++ vers) :
    ∃ l ls ls', linesOf (report st) = (Basekey ++ l) :: (ls ++ "Result Total:".toList :: ls') := by
  have hrest : linesOf ('\n' :: ("Result Total:".toList ++ '\n' :: totalLines st.totals)) =
      [] :: "Result Total:".toList :: linesOf (totalLines st.totals) := by
    have h1 := linesOf_line (u := []) (by simp) ("Result Total:".toList ++ '\n' :: totalLines st.totals)
    rw [List.nil_append] at h1
    rw [h1, linesOf_line (by decide)]
  have hfront : ∃ l ls, linesOf (st.out ++ resultLines st.results [] st.results.sortedKeys ++ ['\n']) = (Basekey ++ l) :: ls := by
    have h := linesOf_front (u := Basekey) (by decide) (by decide)
      ([' '] ++ vers ++ resultLines st.results [] st.results.sortedKeys ++ ['\n'])
    simpa [hout] using h
  obtain ⟨l, ls, hl⟩ := hfront
  refine ⟨l, ls ++ [[]], linesOf (totalLines st.totals), ?_⟩
  rw [report, linesOf_newline, hrest, hl]
  simp

/-- Whatever is reported, the report read back has a total for the result `Total`. -/
theorem readFiles_report {st st' : State} {vers : Text} (hout : st.out = Basekey ++ [' '] ++ vers)
    (h : readFiles (fun _ _ => true) [report st] = .ok st') : st'.totals.get? "Total".toList ≠ none := by
  obtain ⟨l, ls, ls', hl⟩ := linesOf_report hout
  have hread : readFile (fun _ _ => true) State.init (report st) = .ok ((ls ++ "Result Total:".toList :: ls').foldl
      (baseLine fun _ _ => true) (openFile State.init (field (fields (Basekey ++ l)) 1))) := by
    rw [readFile, hl]
    exact if_pos (List.prefix_append _ _)
  rw [readFiles, List.foldlM_cons, hread] at h
  cases h
  rw [List.foldl_append, List.foldl_cons]
  exact foldl_baseLine_keeps (baseLine_heading _) ls'

end

/-! ## Journals -/

/-- The entries that the reader takes a name from have one without white space; the others have no newline. -/
def NameOk (s : Stf.State) : Call → Prop
  | .testcaseEnd name _ _ => name ≠ [] ∧ ∀ c ∈ name, isSpace c = false
  | .assertEnd pid result => Call.body s (.assertEnd pid result) ≠ [] ∧
      ∀ c ∈ Call.body s (.assertEnd pid result), isSpace c = false
  | a => '\n' ∉ a.body s

/-- The reference codes that the reader knows. -/
def knownCodes : List Text :=
  ["Test_Case_Start|".toList, "Test_Case_End|".toList, "Assertion_End|".toList, "Totals|".toList]

/-- A line of a journal behind the first: an entry, or a line with another reference code. -/
inductive Written : Text → Prop
  | entry (env : Env) (s : Stf.State) (a : Call) (h : NameOk s a) : Written (a.before ++ a.body s ++ a.behind env s)
  | other (l : Text) (hn : '\n' ∉ l) (h : ∀ code ∈ knownCodes, ¬code <+: l) : Written l

/-- A journal: the start line and the lines behind it. -/
structure Journal where
  start : Text
  lines : List Text
  isStart : "Start|".toList <+: start
  startLine : '\n' ∉ start
  written : ∀ l ∈ lines, Written l

def Journal.text (j : Journal) : Text := j.start ++ '\n' :: j.lines.flatMap fun l => l ++ ['\n']

theorem Written.newline_notMem {l : Text} (h : Written l) : '\n' ∉ l := by
  cases h with
  | entry env s a h =>
    have hb : '\n' ∉ a.body s := by
      cases a with
      | testcaseEnd name childPid status => exact fun hm => absurd (h.2 _ hm) (by decide)
      | assertEnd pid result => exact fun hm => absurd (h.2 _ hm) (by decide)
      | msg pid text => exact h
      | testcaseStart pid line => exact h
      | assertStart pid subid => exact h
      | totals pid idName cts => exact h
    simp [a.before_pure, hb, a.behind_pure env s]
  | other l hn h => exact hn

theorem Journal.linesOf_text (j : Journal) : linesOf j.text = j.start :: j.lines := by
  rw [Journal.text, linesOf_line j.startLine, linesOf_lines fun l hl => (j.written l hl).newline_notMem]

/-! ## Result names in a journal -/

theorem resultName_mem {i : Nat} (hi : i < STF_MAX_RESULTS) : resultName i ∈ resultTbl := by
  have hlt : i < resultTbl.length := hi
  rw [resultName, List.getD_eq_getElem?_getD, List.getElem?_eq_getElem hlt]
  exact List.getElem_mem hlt

theorem getStatusName_mem (n : Int) : getStatusName n ∈ resultTbl := by
  unfold getStatusName
  split
  · exact resultName_mem (by decide)
  · rename_i h
    rw [not_or] at h
    have hm : (STF_MAX_RESULTS : Int) = 11 := rfl
    have hn : STF_MAX_RESULTS = 11 := rfl
    exact resultName_mem (by omega)

theorem resultField_name_mem (status : BitVec 32) : (resultField status).name ∈ resultTbl := by
  unfold resultField
  simp only
  split
  · split <;> exact getStatusName_mem _
  · split
    · exact getStatusName_mem _
    · split
      · exact resultName_mem (i := NORESULT_INDEX) (by decide)
      · exact getStatusName_mem _

/-- No result that a journal gives is called `Total`. -/
theorem append_ne_total {t : Text} (ht : t ∈ resultTbl) (u : Text) : t ++ u ≠ "Total".toList := by
  have hall : ∀ t ∈ resultTbl, 2 ≤ t.length ∧ t.take 2 ≠ "To".toList := by decide
  obtain ⟨hlen, hne⟩ := hall t ht
  intro h
  apply hne
  have h2 := congrArg (List.take 2) h
  rw [List.take_append_of_le_length hlen] at h2
  exact h2

/-- The fifth word of an entry: behind the code, the process id, the name and the bar. -/
theorem field_four {code pid name r t : Text} (hc : ∀ c ∈ code, isSpace c = false) (hcn : code ≠ [])
    (hp : ∀ c ∈ pid, isSpace c = false) (hpn : pid ≠ []) (hn : ∀ c ∈ name, isSpace c = false) (hnn : name ≠ [])
    (hr : ∀ c ∈ r, isSpace c = false) (hrn : r ≠ []) :
    field (fields (code ++ ' ' :: (pid ++ ' ' :: (name ++ ' ' :: (['|'] ++ ' ' :: (r ++ ' ' :: t)))))) 4 = r := by
  have hsp : isSpace ' ' = true := rfl
  unfold fields
  rw [words_word hc hcn hsp, words_word hp hpn hsp, words_word hn hnn hsp, words_word (forall_of_any_eq_false rfl) (by decide) hsp,
    words_word hr hrn hsp]
  rfl

theorem not_space_of_isDigit {c : Char} (h : c.isDigit = true) : isSpace c = false := by
  by_contra hs
  rw [Bool.not_eq_false] at hs
  simp only [isSpace, Bool.or_eq_true, decide_eq_true_eq] at hs
  rcases hs with (((rfl | rfl) | rfl) | rfl) | rfl <;> exact absurd h (by decide)

theorem not_space_intText {i : Int} : ∀ c ∈ intText i, isSpace c = false := by
  intro c hc
  rcases mem_intText hc with rfl | h
  · rfl
  · exact not_space_of_isDigit h

theorem not_space_resultTbl : ∀ t ∈ resultTbl, (∀ c ∈ t, isSpace c = false) ∧ t ≠ [] := by
  have hall : ∀ t ∈ resultTbl, t.any isSpace = false ∧ t ≠ [] := by decide
  exact fun t ht => ⟨forall_of_any_eq_false (hall t ht).1, (hall t ht).2⟩

/-- The result of a test case up to the first blank. -/
def resultWord (status : BitVec 32) : Text :=
  (resultField status).name ++ ((resultField status).exitCode.elim [] fun n => '_' :: natText n)

theorem not_space_resultWord {status : BitVec 32} : ∀ c ∈ resultWord status, isSpace c = false := by
  intro c hc
  rcases List.mem_append.mp hc with hc | hc
  · exact (not_space_resultTbl _ (resultField_name_mem status)).1 c hc
  · cases he : (resultField status).exitCode with
    | none => simp [he] at hc
    | some n =>
      rw [he, Option.elim_some] at hc
      rcases List.mem_cons.mp hc with rfl | hc
      · rfl
      · exact not_space_of_isDigit (mem_natText hc)

theorem resultWord_ne_nil (status : BitVec 32) : resultWord status ≠ [] := by
  intro h
  exact (not_space_resultTbl _ (resultField_name_mem status)).2 (List.append_eq_nil_iff.mp h).1

/-- Behind the first word of a result stands a blank. -/
theorem text_stamp (env : Env) (activity : Int) (status : BitVec 32) :
    ∃ t, (resultField status).text ++ stamp env activity = resultWord status ++ ' ' :: t := by
  unfold ResultField.text resultWord stamp bar
  cases (resultField status).signal with
  | none =>
    refine ⟨['|', ' '] ++ getTime env ++ [' '] ++ intText activity ++ [' ', '|'], ?_⟩
    simp
  | some n =>
    refine ⟨natText n ++ ([' ', '|', ' '] ++ getTime env ++ [' '] ++ intText activity ++ [' ', '|']), ?_⟩
    simp

theorem field_testcaseEnd (env : Env) (s : Stf.State) {name : Text} (hn : ∀ c ∈ name, isSpace c = false) (hnn : name ≠ [])
    (pid : Int) (status : BitVec 32) :
    field (fields (Call.before (.testcaseEnd name pid status) ++ name ++ Call.behind env s (.testcaseEnd name pid status))) 4 =
      resultWord status := by
  obtain ⟨t, ht⟩ := text_stamp env (s.vars.elim (-1) fun v => (v.jact : Int)) status
  have hline : Call.before (.testcaseEnd name pid status) ++ name ++ Call.behind env s (.testcaseEnd name pid status) =
      (JNL_TESTCASE_END ++ ['|']) ++ ' ' :: (intText pid ++ ' ' ::
        (name ++ ' ' :: (['|'] ++ ' ' :: (resultWord status ++ ' ' :: t)))) := by
    rw [← ht]
    simp [Call.before, Call.behind, Call.code, Call.pid, Call.gap, bar]
  rw [hline]
  exact field_four (forall_of_any_eq_false (by decide)) (by decide) not_space_intText (intText_ne_nil pid) hn hnn not_space_resultWord
    (resultWord_ne_nil status)

theorem field_assertEnd (env : Env) (s : Stf.State) (pid result : Int)
    (h : NameOk s (.assertEnd pid result)) :
    field (fields (Call.before (.assertEnd pid result) ++ Call.body s (.assertEnd pid result) ++
      Call.behind env s (.assertEnd pid result))) 4 = getStatusName result := by
  obtain ⟨hsp, hne⟩ := not_space_resultTbl _ (getStatusName_mem result)
  have hline : Call.before (.assertEnd pid result) ++ Call.body s (.assertEnd pid result) ++
      Call.behind env s (.assertEnd pid result) = (JNL_ASSERT_END ++ ['|']) ++ ' ' :: (intText pid ++ ' ' ::
        (Call.body s (.assertEnd pid result) ++ ' ' :: (['|'] ++ ' ' :: (getStatusName result ++ ' ' :: (['|', ' '] ++
          getTime env ++ [' '] ++ intText (s.vars.elim (-1) fun v => shortOf v.jact) ++ [' ', '|']))))) := by
    simp [Call.before, Call.behind, Call.code, Call.pid, Call.gap, bar, stamp]
  rw [hline]
  exact field_four (forall_of_any_eq_false (by decide)) (by decide) not_space_intText (intText_ne_nil pid) h.2 h.1 hsp hne

/-! ## No fixed point -/

section

variable {accept : Text → Text → Bool}

/-- What the lines of a journal keep: there is no result `Total`, and nothing is printed. -/
def Plain (st : State) (out : Text) : Prop := st.totals.get? "Total".toList = none ∧ st.out = out

theorem addResult_plain {st : State} {out : Text} (h : Plain st out) {r : Text} (hr : r ≠ "Total".toList) (id : Text) (n : Int) :
    Plain (addResult accept st id r n) out := by
  unfold addResult
  split
  · refine ⟨?_, h.2⟩
    rw [Hash.get?_add, if_neg hr]
    exact h.1
  · exact h

/-- Two texts that differ in their first characters. -/
theorem not_prefix_append {p q t : Text} (n : Nat) (h : n ≤ p.length ∧ n ≤ q.length ∧ p.take n ≠ q.take n) :
    ¬p <+: q ++ t := by
  rintro ⟨u, hu⟩
  apply h.2.2
  have h' := congrArg (List.take n) hu
  rwa [List.take_append_of_le_length h.1, List.take_append_of_le_length h.2.1] at h'

/-- An entry begins with the reference code of its call. -/
theorem entry_front (a : Call) (env : Env) (s : Stf.State) :
    ∃ t, a.before ++ a.body s ++ a.behind env s = (a.code ++ ['|']) ++ t :=
  ⟨' ' :: (intText a.pid ++ a.gap ++ a.body s ++ a.behind env s), by simp [Call.before]⟩

/-- A line that is none of the reader's. -/
theorem journalLine_skip {st : State} {l : Text} (h2 : ¬"Test_Case_End|".toList <+: l) (h3 : ¬"Assertion_End|".toList <+: l)
    (h4 : ¬"Totals|".toList <+: l) : journalLine accept st l = .ok st := by
  rw [journalLine, if_neg h2, if_neg h3, if_neg h4, ite_self]

theorem journalLine_plain {st st' : State} {out l : Text} (hl : Written l) (h : Plain st out)
    (hst : journalLine accept st l = .ok st') : Plain st' out := by
  cases hl with
  | other l hn hc =>
    rw [journalLine_skip (hc _ (by decide)) (hc _ (by decide)) (hc _ (by decide))] at hst
    cases hst
    exact h
  | entry env s a hname =>
    obtain ⟨t, ht⟩ := entry_front a env s
    cases a <;> rw [Call.code] at ht
    case msg pid text =>
      rw [ht, journalLine_skip (not_prefix_append 1 (by decide)) (not_prefix_append 1 (by decide))
        (not_prefix_append 1 (by decide))] at hst
      cases hst
      exact h
    case testcaseStart pid line =>
      rw [ht, journalLine_skip (not_prefix_append 11 (by decide)) (not_prefix_append 1 (by decide))
        (not_prefix_append 2 (by decide))] at hst
      cases hst
      exact h
    case assertStart pid subid =>
      rw [ht, journalLine_skip (not_prefix_append 1 (by decide)) (not_prefix_append 11 (by decide))
        (not_prefix_append 1 (by decide))] at hst
      cases hst
      exact h
    case totals pid idName cts =>
      rw [ht, show JNL_TOTALS ++ ['|'] = "Totals|".toList from rfl, journalLine_totals] at hst
      cases hst
    case testcaseEnd name pid status =>
      have hcode : "Test_Case_End|".toList <+: (JNL_TESTCASE_END ++ ['|']) ++ t :=
        List.prefix_append _ _
      rw [← ht] at hcode
      have hstart : ¬"Test_Case_Start|".toList <+: Call.before (.testcaseEnd name pid status) ++
          Call.body s (.testcaseEnd name pid status) ++ Call.behind env s (.testcaseEnd name pid status) := by
        rw [ht]
        exact not_prefix_append 11 (by decide)
      rw [journalLine, if_neg hstart, if_pos hcode] at hst
      cases hst
      refine addResult_plain h ?_ _ _
      rw [show Call.body s (.testcaseEnd name pid status) = name from rfl, field_testcaseEnd env s hname.2 hname.1]
      exact append_ne_total (resultField_name_mem status) _
    case assertEnd pid result =>
      have hcode : "Assertion_End|".toList <+: (JNL_ASSERT_END ++ ['|']) ++ t := List.prefix_append _ _
      have hstart : ¬"Test_Case_Start|".toList <+: (JNL_ASSERT_END ++ ['|']) ++ t :=
        not_prefix_append 1 (by decide)
      have hend : ¬"Test_Case_End|".toList <+: (JNL_ASSERT_END ++ ['|']) ++ t :=
        not_prefix_append 1 (by decide)
      rw [← ht] at hcode hstart hend
      rw [journalLine, if_neg hstart, if_neg hend, if_pos hcode] at hst
      cases hst
      refine addResult_plain h ?_ _ _
      rw [field_assertEnd env s pid result hname]
      simpa using append_ne_total (getStatusName_mem result) []

theorem foldlM_journalLine_plain {ls : List Text} (hls : ∀ l ∈ ls, Written l) {st st' : State} {out : Text} (h : Plain st out)
    (hst : ls.foldlM (journalLine accept) st = .ok st') : Plain st' out := by
  induction ls generalizing st with
  | nil =>
    cases hst
    exact h
  | cons l ls ih =>
    rw [List.foldlM_cons] at hst
    cases hl : journalLine accept st l with
    | error e =>
      rw [hl] at hst
      cases hst
    | ok st₁ =>
      rw [hl] at hst
      exact ih (fun m hm => hls m (List.mem_cons_of_mem _ hm)) (journalLine_plain (hls l List.mem_cons_self) h hl) hst

/-- A journal read alone gives no result `Total`, and its report begins with the key. -/
theorem readFiles_journal (j : Journal) {st : State} (h : readFiles accept [j.text] = .ok st) :
    ∃ vers, Plain st (Basekey ++ [' '] ++ vers) := by
  obtain ⟨t, ht⟩ := j.isStart
  have hb : ¬Basekey <+: j.start := by
    rw [← ht]
    exact not_prefix_append 1 (by decide)
  have hs : Filter.isStart j.start = true := by
    rw [← ht]
    rfl
  have hread : readFile accept State.init j.text =
      j.lines.foldlM (journalLine accept) (openFile State.init (field (fields j.start) 6)) := by
    rw [readFile, j.linesOf_text]
    simp only [if_neg hb, if_pos hs]
  rw [readFiles, List.foldlM_cons, hread, funext fun _ => List.foldlM_nil, bind_pure] at h
  exact ⟨_, foldlM_journalLine_plain j.written ⟨rfl, rfl⟩ h⟩

end

/-- The results and totals of the report of a journal are those of the journal. -/
def FixedPoint (j : Journal) : Prop :=
  ∃ st st', readFiles (fun _ _ => true) [j.text] = .ok st ∧ readFiles (fun _ _ => true) [report st] = .ok st' ∧
    (∀ k, st'.results.get? k = st.results.get? k) ∧ ∀ k, st'.totals.get? k = st.totals.get? k

/-- The report of no journal is a fixed point: the heading of its totals is read as a result `Total` of a test `Result`. -/
theorem report_not_fixedPoint (j : Journal) : ¬FixedPoint j := by
  rintro ⟨st, st', h, h', -, htot⟩
  obtain ⟨vers, hnone, hout⟩ := readFiles_journal j h
  have hsome := readFiles_report hout h'
  rw [htot] at hsome
  exact hsome hnone

/-- A journal with no entries. -/
def Journal.sample : Journal := ⟨"Start| 12:30:05 1 - - - 1.0 |".toList, [], by decide, by decide, by simp⟩

theorem not_report_fixedPoint : ¬∀ j, FixedPoint j := by
  intro H
  obtain ⟨st, st', h, h', -, htot⟩ := H .sample
  obtain ⟨vers, hnone, hout⟩ := readFiles_journal .sample h
  have hsome := readFiles_report hout h'
  rw [htot] at hsome
  exact hsome hnone

end ZfsTest.Stf.Filter
