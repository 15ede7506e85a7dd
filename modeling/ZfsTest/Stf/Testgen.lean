import ZfsTest.Prog.Choices
import ZfsTest.Text.Words

/-!
# The generator of test cases

`testgen.kshlib` composes a line for every choice of one value from each component of a test matrix: `processparts` for the lines of
a caseline file, `processargs` for the blocks of a caseblock file. Both call themselves for the next component, and keep the line
that is being composed, the arrays of values and the number of the last case in variables of the whole shell (`Gen`).

Components are taken from the first to the last when `GEN_ORDER` is `ascend`, and else from the last to the first. In both orders a
call for the components that are left emits one case for each choice from them (`processparts_emits`, `processargs_emits`).
-/

namespace ZfsTest.Stf.Testgen

/-! ## The code -/

/-- What `echo` prints of a case and the test adder gets. -/
structure Case where
  name : Text
  line : Text
deriving DecidableEq

/-- The variables that `process_caseline` and `process_caseblock` set for the generation. -/
structure Matrix where
  genOrder : Text
  genMode : Text
  testName : Text
  caseline : List Text
  argtypes : List Text
  argnames : List Text
  argvalues : List Text
  componentNumber : Nat

/-- The variables that the generation itself sets, and its output. -/
structure Gen where
  testCase : Text
  part : Text
  cmdpart : List Text
  args : List Text
  values : List Text
  builtins : List Text
  casenumber : Text
  TEST_NAME : Text
  caseCheck : Text
  testname : Text
  echoed : List Case
  added : List Case
deriving DecidableEq

/-- What the shell makes of texts: the words that `eval set -A x -- text` puts in `x`, and the exit status of a case checker, which
may set variables. -/
structure Ksh where
  evalSet : Text → List Text
  check : Text → Gen → Bool × Gen

def ascend : Text := ['a', 's', 'c', 'e', 'n', 'd']

def canBeNull : Text := "can_be_null".toList

def canBeAbsent : Text := "can_be_absent".toList

/-- `get_processnumber`. -/
def getProcessnumber (m : Matrix) (arg : Option Int) : Int :=
  let tmpnum : Int := if m.genOrder = ascend then 0 else m.componentNumber - 1
  let order : Int := if m.genOrder = ascend then 1 else -1
  match arg with
  | some k => k + order
  | none => tmpnum

section

variable (ksh : Ksh) (m : Matrix)

/-- `eval set -A builtins -- "$casenumber" "$test_name" "$case_check"`. -/
def setBuiltins (s : Gen) : Gen := { s with builtins := ksh.evalSet (joined [s.casenumber, m.testName, s.caseCheck]) }

/-- `add_case`. -/
def addCase (s : Gen) : Gen :=
  let s := { s with
    casenumber := s.builtins.getD 0 []
    TEST_NAME := s.builtins.getD 1 []
    caseCheck := s.builtins.getD 2 [] }
  let (ok, s) := if s.caseCheck ≠ [] then ksh.check s.caseCheck s else (true, s)
  if ok then
    let s := { s with
      testname := if s.TEST_NAME = [] then "testcase".toList else s.TEST_NAME
      casenumber := natText (Nat.ofDigitChars 10 s.casenumber 0 + 1) }
    let c : Case := ⟨s.testname ++ '-' :: s.casenumber, s.testCase⟩
    { s with
      echoed := s.echoed ++ [c]
      added := if m.genMode = "true".toList then s.added ++ [c] else s.added }
  else s

/-- The line with one more part: in front of it when the next component is an earlier one. -/
def compose (k next : Int) (part : Text) (s : Gen) : Gen :=
  { s with testCase := if next < k then part ++ ' ' :: s.testCase else s.testCase ++ ' ' :: part }

/-- The head of the loop of `processparts`. -/
def setPart (part : Text) (s : Gen) : Gen :=
  let s := { s with part := part }
  let s := if s.part = canBeNull then { s with part := [] } else s
  if s.part = canBeAbsent then { s with part := [] } else s

/-- The tail of both loops: the line gets the part, the case is added or the next component is processed, and the line is put back. -/
def withPart (k : Int) (process : Int → Gen → Option Gen) (part : Text) (s : Gen) : Option Gen :=
  let next := getProcessnumber m (some k)
  let t := compose k next part s
  let run := if next = -1 ∨ next = m.componentNumber then some (addCase ksh m (setBuiltins ksh m t)) else process next t
  run.map fun u => { u with testCase := s.testCase }

/-- `processparts`; `none` is a recursion deeper than `fuel`. -/
def processparts : Nat → Int → Gen → Option Gen
  | 0, _, _ => none
  | fuel + 1, k, s =>
    if k < 0 then some s
    else
      let s := { s with cmdpart := ksh.evalSet (m.caseline.getD k.toNat []) }
      s.cmdpart.foldlM (fun s part =>
        let s := setPart part s
        withPart ksh m k (processparts fuel) s.part s) s

/-- The part for a name and a value of a block's line. -/
def argPart (argtype argname value : Text) : Text :=
  let part := if value = canBeAbsent then [] else argname
  let value := if value = canBeAbsent ∨ value = canBeNull then [] else value
  if part = [] then []
  else if argtype = "string".toList then part ++ ' ' :: '"' :: value ++ ['"']
  else if argtype = "escape".toList then '\\' :: part
  else part ++ ' ' :: value

/-- `processargs`. -/
def processargs : Nat → Int → Gen → Option Gen
  | 0, _, _ => none
  | fuel + 1, k, s =>
    if k < 0 then some s
    else
      let s := { s with args := ksh.evalSet (m.argnames.getD k.toNat []) }
      s.args.foldlM (fun s argname =>
        let s := { s with values := ksh.evalSet (m.argvalues.getD k.toNat []) }
        s.values.foldlM (fun s value =>
          withPart ksh m k (processargs fuel) (argPart (m.argtypes.getD k.toNat []) argname value) s) s) s

end

/-! ## Depth of the recursion -/

theorem foldlM_mono {α : Type} {f g : Gen → α → Option Gen} (h : ∀ s a t, f s a = some t → g s a = some t) (as : List α) {s t : Gen}
    (hf : as.foldlM f s = some t) : as.foldlM g s = some t := by
  induction as generalizing s with
  | nil => exact hf
  | cons a as ih =>
    rw [List.foldlM_cons] at hf ⊢
    obtain ⟨u, hu, ht⟩ := Option.bind_eq_some_iff.mp hf
    exact Option.bind_eq_some_iff.mpr ⟨u, h s a u hu, ih ht⟩

theorem withPart_mono {ksh : Ksh} {m : Matrix} {k : Int} {p q : Int → Gen → Option Gen}
    (h : ∀ j s t, p j s = some t → q j s = some t) {part : Text} {s t : Gen} (hp : withPart ksh m k p part s = some t) :
    withPart ksh m k q part s = some t := by
  unfold withPart at hp ⊢
  obtain ⟨u, hu, rfl⟩ := Option.map_eq_some_iff.mp hp
  refine Option.map_eq_some_iff.mpr ⟨u, ?_, rfl⟩
  split at hu
  · rwa [if_pos ‹_›]
  · rw [if_neg ‹_›]
    exact h _ _ _ hu

/-- A recursion that has ended ends in the same state with more room. -/
theorem processparts_mono {ksh : Ksh} {m : Matrix} (fuel : Nat) (k : Int) (s t : Gen) (h : processparts ksh m fuel k s = some t) :
    processparts ksh m (fuel + 1) k s = some t := by
  induction fuel generalizing k s t with
  | zero => cases h
  | succ fuel ih =>
    rw [processparts] at h ⊢
    split at h
    · rwa [if_pos ‹_›]
    · rw [if_neg ‹_›]
      exact foldlM_mono (fun _ _ _ hv => withPart_mono ih hv) _ h

theorem processargs_mono {ksh : Ksh} {m : Matrix} (fuel : Nat) (k : Int) (s t : Gen) (h : processargs ksh m fuel k s = some t) :
    processargs ksh m (fuel + 1) k s = some t := by
  induction fuel generalizing k s t with
  | zero => cases h
  | succ fuel ih =>
    rw [processargs] at h ⊢
    split at h
    · rwa [if_pos ‹_›]
    · rw [if_neg ‹_›]
      exact foldlM_mono (fun _ _ _ hname => foldlM_mono (fun _ _ _ hv => withPart_mono ih hv) _ hname) _ h

/-! ## The order of the components -/

/-- The components from the slowest to the fastest. -/
def slowestFirst {α : Type} (order : Text) (l : List α) : List α := if order = ascend then l else l.reverse

/-- The components that are left when component `k` is next. -/
def left {α : Type} (order : Text) (l : List α) (k : Nat) : List α :=
  if order = ascend then l.drop k else (l.take (k + 1)).reverse

/-- The line with one more part. -/
def extend (order line part : Text) : Text := if order = ascend then line ++ ' ' :: part else part ++ ' ' :: line

theorem compose_testCase (m : Matrix) (k : Int) (part : Text) (s : Gen) :
    (compose k (getProcessnumber m (some k)) part s).testCase = extend m.genOrder s.testCase part := by
  by_cases ho : m.genOrder = ascend
  · have hlt : ¬k + 1 < k := by omega
    simp [compose, getProcessnumber, extend, ho, hlt]
  · have hlt : k + -1 < k := by omega
    simp [compose, getProcessnumber, extend, ho, hlt]

/-- The generation begins with all components. -/
theorem left_start {α : Type} {m : Matrix} {l : List α} (hn : m.componentNumber = l.length) (hl : l ≠ []) :
    ∃ k : Nat, getProcessnumber m none = k ∧ k < l.length ∧ left m.genOrder l k = slowestFirst m.genOrder l := by
  have hpos := List.length_pos_iff.mpr hl
  by_cases ho : m.genOrder = ascend
  · refine ⟨0, ?_, hpos, ?_⟩
    · simp [getProcessnumber, ho]
    · simp [left, slowestFirst, ho]
  · refine ⟨l.length - 1, ?_, by omega, ?_⟩
    · simp only [getProcessnumber, ho, hn, if_false]
      omega
    · have hlen : l.length - 1 + 1 = l.length := by omega
      simp [left, slowestFirst, ho, hlen]

/-- Behind component `k` either nothing is left, or the next component is not yet done. -/
theorem left_step {α : Type} {m : Matrix} {l : List α} (hn : m.componentNumber = l.length) {k : Nat} {a : α} (hk : l[k]? = some a) :
    ∃ tail, left m.genOrder l k = a :: tail ∧
      let next := getProcessnumber m (some k)
      (tail = [] ∧ (next = -1 ∨ next = m.componentNumber)) ∨
        (∃ j : Nat, next = j ∧ ¬(next = -1 ∨ next = m.componentNumber) ∧ j < l.length ∧ tail = left m.genOrder l j) := by
  obtain ⟨hlt, rfl⟩ := List.getElem?_eq_some_iff.mp hk
  by_cases ho : m.genOrder = ascend
  · refine ⟨l.drop (k + 1), by rw [left, if_pos ho, List.drop_eq_getElem_cons hlt], ?_⟩
    have hnext : getProcessnumber m (some k) = (k + 1 : Nat) := by simp [getProcessnumber, ho]
    rw [hnext, hn]
    by_cases hend : k + 1 = l.length
    · exact Or.inl ⟨by rw [hend, List.drop_length], by omega⟩
    · exact Or.inr ⟨k + 1, rfl, by omega, by omega, by rw [left, if_pos ho]⟩
  · refine ⟨(l.take k).reverse, ?_, ?_⟩
    · rw [left, if_neg ho, List.take_succ_eq_append_getElem hlt, List.reverse_concat]
    · have hnext : getProcessnumber m (some k) = (k : Int) + -1 := by simp [getProcessnumber, ho]
      rw [hnext, hn]
      cases k with
      | zero => exact Or.inl ⟨rfl, by omega⟩
      | succ k => exact Or.inr ⟨k, by omega, by omega, by omega, by rw [left, if_neg ho]⟩

/-! ## Cases that are emitted -/

/-- The cases for some lines; the last case before them has the number `n`. -/
def numbered (name : Text) : Nat → List Text → List Case
  | _, [] => []
  | n, line :: lines => ⟨name ++ '-' :: natText (n + 1), line⟩ :: numbered name (n + 1) lines

theorem numbered_line (name : Text) (n : Nat) (ls : List Text) : (numbered name n ls).map Case.line = ls := by
  induction ls generalizing n with
  | nil => rfl
  | cons l ls ih => simp [numbered, ih]

/-- The last case has the number `n`, and there is no case checker. -/
structure Ready (n : Nat) (s : Gen) : Prop where
  casenumber : s.casenumber = natText n
  caseCheck : s.caseCheck = []

/-- The lines are emitted as cases, and the line that is being composed is as before. -/
structure Emits (mode name : Text) (n : Nat) (lines : List Text) (s s' : Gen) : Prop where
  testCase : s'.testCase = s.testCase
  ready : Ready (n + lines.length) s'
  echoed : s'.echoed = s.echoed ++ numbered name n lines
  added : s'.added = if mode = "true".toList then s.added ++ numbered name n lines else s.added

/-- What some things emit one after the other, by states of the emission; `emit` says it for one of them. -/
def emitAll {κ α : Type} (emit : κ → α → List Case × κ) : κ → List α → List Case × κ
  | k, [] => ([], k)
  | k, a :: as => ((emit k a).1 ++ (emitAll emit (emit k a).2 as).1, (emitAll emit (emit k a).2 as).2)

theorem emitAll_append {κ α : Type} (emit : κ → α → List Case × κ) (k : κ) (as bs : List α) : emitAll emit k (as ++ bs) =
    ((emitAll emit k as).1 ++ (emitAll emit (emitAll emit k as).2 bs).1, (emitAll emit (emitAll emit k as).2 bs).2) := by
  induction as generalizing k with
  | nil => rfl
  | cons a as ih => simp [emitAll, ih]

/-- The number of the last case and the case checker. -/
structure Place where
  number : Nat
  caseCheck : Text

structure Gen.At (s : Gen) (p : Place) : Prop where
  casenumber : s.casenumber = natText p.number
  caseCheck : s.caseCheck = p.caseCheck

variable {mode name : Text} {n : Nat} {κ : Type} {place : κ → Place} {emit : κ → Text → List Case × κ} {k : κ}

/-- The lines are emitted as `emit` says, and the line that is being composed is as before. -/
structure EmitsBy (place : κ → Place) (emit : κ → Text → List Case × κ) (mode : Text) (k : κ) (lines : List Text) (s s' : Gen) :
    Prop where
  testCase : s'.testCase = s.testCase
  place : s'.At (place (emitAll emit k lines).2)
  echoed : s'.echoed = s.echoed ++ (emitAll emit k lines).1
  added : s'.added = if mode = "true".toList then s.added ++ (emitAll emit k lines).1 else s.added

theorem EmitsBy.nil {s : Gen} (h : s.At (place k)) : EmitsBy place emit mode k [] s s where
  testCase := rfl
  place := h
  echoed := by simp [emitAll]
  added := by simp [emitAll]

/-- The other variables at the start do not matter. -/
theorem EmitsBy.of_start {ls : List Text} {r s t : Gen} (h : EmitsBy place emit mode k ls r t) (hcase : r.testCase = s.testCase)
    (hechoed : r.echoed = s.echoed) (hadded : r.added = s.added) : EmitsBy place emit mode k ls s t where
  testCase := h.testCase.trans hcase
  place := h.place
  echoed := by rw [h.echoed, hechoed]
  added := by rw [h.added, hadded]

theorem EmitsBy.append {ls ms : List Text} {s t u : Gen} (hs : EmitsBy place emit mode k ls s t)
    (ht : EmitsBy place emit mode (emitAll emit k ls).2 ms t u) : EmitsBy place emit mode k (ls ++ ms) s u where
  testCase := ht.testCase.trans hs.testCase
  place := by
    rw [emitAll_append]
    exact ht.place
  echoed := by rw [ht.echoed, hs.echoed, emitAll_append, List.append_assoc]
  added := by
    rw [ht.added, hs.added, emitAll_append]
    split
    · rw [List.append_assoc]
    · rfl

/-- A loop whose body emits some lines for each value. -/
theorem foldlM_emitsBy {α : Type} {f : Gen → α → Option Gen} (lines : α → List Text) {line : Text}
    (h : ∀ a k s, s.At (place k) → s.testCase = line → ∃ s', f s a = some s' ∧ EmitsBy place emit mode k (lines a) s s')
    (as : List α) {s : Gen} (hs : s.At (place k)) (hline : s.testCase = line) :
    ∃ s', as.foldlM f s = some s' ∧ EmitsBy place emit mode k (as.flatMap lines) s s' := by
  induction as generalizing k s with
  | nil => exact ⟨s, rfl, EmitsBy.nil hs⟩
  | cons a as ih =>
    obtain ⟨t, hft, ht⟩ := h a k s hs hline
    obtain ⟨u, hfu, hu⟩ := ih ht.place (ht.testCase.trans hline)
    refine ⟨u, ?_, ht.append hu⟩
    rw [List.foldlM_cons, hft]
    exact hfu

/-- One case for every line, and no checker. -/
def emitOne (name : Text) (n : Nat) (line : Text) : List Case × Nat := ([⟨name ++ '-' :: natText (n + 1), line⟩], n + 1)

def unchecked (n : Nat) : Place := ⟨n, []⟩

theorem emitAll_emitOne (name : Text) (n : Nat) (lines : List Text) :
    emitAll (emitOne name) n lines = (numbered name n lines, n + lines.length) := by
  induction lines generalizing n with
  | nil => rfl
  | cons l lines ih =>
    have hn : n + 1 + lines.length = n + (lines.length + 1) := by omega
    simp [emitAll, emitOne, numbered, ih, hn]

theorem EmitsBy.emits {lines : List Text} {s s' : Gen} (h : EmitsBy unchecked (emitOne name) mode n lines s s') :
    Emits mode name n lines s s' := by
  obtain ⟨htest, hplace, hechoed, hadded⟩ := h
  rw [emitAll_emitOne] at hplace hechoed hadded
  exact ⟨htest, ⟨hplace.casenumber, hplace.caseCheck⟩, hechoed, hadded⟩

/-- The shell finds the number and at most a test name in the built-in variables, and no case checker. -/
def NoCheck (ksh : Ksh) (testName : Text) (found : Option Text) : Prop :=
  ∀ n, ksh.evalSet (joined [natText n, testName, []]) = natText n :: found.toList

/-- The name of the cases. -/
def caseName (found : Option Text) : Text := if found.getD [] = [] then "testcase".toList else found.getD []

/-- The case for a line is emitted as `emit` says. -/
def EmitsLine (ksh : Ksh) (m : Matrix) (place : κ → Place) (emit : κ → Text → List Case × κ) : Prop :=
  ∀ k s, s.At (place k) → EmitsBy place emit m.genMode k [s.testCase] s (addCase ksh m (setBuiltins ksh m s))

theorem addCase_emits {ksh : Ksh} {m : Matrix} {found : Option Text} (hcheck : NoCheck ksh m.testName found) :
    EmitsLine ksh m unchecked (emitOne (caseName found)) := by
  intro n s hs
  have hb : (setBuiltins ksh m s).builtins = natText n :: found.toList := by
    rw [← hcheck n, setBuiltins, hs.casenumber, hs.caseCheck, unchecked]
  have hname : (natText n :: found.toList).getD 1 [] = found.getD [] := by
    cases found with
    | none => rfl
    | some w => rfl
  have hnone : (natText n :: found.toList).getD 2 [] = [] := by
    cases found with
    | none => rfl
    | some w => rfl
  have hnum : Nat.ofDigitChars 10 (natText n) 0 = n := Nat.ofDigitChars_ten_toDigits
  simp only [addCase, hb, hname, hnone, ne_eq, not_true_eq_false, if_false, if_true, List.getD_cons_zero, hnum]
  exact ⟨rfl, ⟨rfl, rfl⟩, rfl, rfl⟩

/-! ## One component -/

/-- What a value of a caseline adds to the line. -/
def partText (value : Text) : Text := if value = canBeNull ∨ value = canBeAbsent then [] else value

theorem setPart_eq (value : Text) (s : Gen) : setPart value s = { s with part := partText value } := by
  have hne : ([] : Text) ≠ canBeAbsent := by decide
  by_cases hnull : value = canBeNull
  · simp [setPart, partText, hnull, hne]
  · by_cases habsent : value = canBeAbsent
    · have hdiff : canBeAbsent ≠ canBeNull := by decide
      simp [setPart, partText, habsent, hdiff]
    · simp [setPart, partText, hnull, habsent]

/-- The lines for the choices from some components, behind or in front of what is composed already. -/
def linesFor {α : Type} (order : Text) (text : α → Text) (Vs : List (List α)) (line : Text) : List Text :=
  (choices Vs).map fun c => c.foldl (fun l v => extend order l (text v)) line

theorem linesFor_cons {α : Type} (order : Text) (text : α → Text) (V : List α) (Vs : List (List α)) (line : Text) :
    linesFor order text (V :: Vs) line = V.flatMap fun v => linesFor order text Vs (extend order line (text v)) := by
  simp [linesFor, choices, List.map_flatMap, Function.comp_def]

/-- A call for component `k` emits the lines for the components that are left, if these are at most `d`. -/
def Processes {α : Type} (m : Matrix) (name : Text) (text : α → Text) (Vs : List (List α)) (d : Nat)
    (process : Int → Gen → Option Gen) : Prop :=
  ∀ (k : Nat) n s, k < Vs.length → (left m.genOrder Vs k).length ≤ d → Ready n s → ∃ s', process k s = some s' ∧
    Emits m.genMode name n (linesFor m.genOrder text (left m.genOrder Vs k) s.testCase) s s'

/-- The same with `emit`. -/
def ProcessesBy {α : Type} (m : Matrix) (place : κ → Place) (emit : κ → Text → List Case × κ) (text : α → Text) (Vs : List (List α))
    (d : Nat) (process : Int → Gen → Option Gen) : Prop :=
  ∀ (k : Nat) p s, k < Vs.length → (left m.genOrder Vs k).length ≤ d → s.At (place p) → ∃ s', process k s = some s' ∧
    EmitsBy place emit m.genMode p (linesFor m.genOrder text (left m.genOrder Vs k) s.testCase) s s'

section

variable {α : Type} {ksh : Ksh} {m : Matrix} {Vs : List (List α)} {text : α → Text} {d : Nat}

theorem ProcessesBy.processes {process : Int → Gen → Option Gen} (h : ProcessesBy m unchecked (emitOne name) text Vs d process) :
    Processes m name text Vs d process := by
  intro k n s hk hd hs
  obtain ⟨s', hrun, hemits⟩ := h k n s hk hd ⟨hs.casenumber, hs.caseCheck⟩
  exact ⟨s', hrun, hemits.emits⟩

/-- One value of a component: the case is emitted, or the generation goes on with the components that are left. -/
theorem withPart_emitsBy (hone : EmitsLine ksh m place emit) (hn : m.componentNumber = Vs.length) {k : Nat} {V : List α}
    {tail : List (List α)} (hk : Vs[k]? = some V) (hleft : left m.genOrder Vs k = V :: tail) {process : Int → Gen → Option Gen}
    (hprocess : ProcessesBy m place emit text Vs d process) (hd : tail.length ≤ d) {s : Gen} {p : κ} (hs : s.At (place p)) (part : Text) :
    ∃ s', withPart ksh m k process part s = some s' ∧
      EmitsBy place emit m.genMode p (linesFor m.genOrder text tail (extend m.genOrder s.testCase part)) s s' := by
  have hline := compose_testCase m k part s
  have hplace : (compose k (getProcessnumber m (some k)) part s).At (place p) := ⟨hs.casenumber, hs.caseCheck⟩
  obtain ⟨tail', hleft', hnext⟩ := left_step hn hk
  obtain rfl : tail' = tail := by simpa [hleft'] using hleft
  rcases hnext with ⟨rfl, hstop⟩ | ⟨j, hj, hstop, hlt, rfl⟩
  · have ha := hone p _ hplace
    rw [hline] at ha
    rw [withPart, if_pos hstop]
    exact ⟨_, rfl, rfl, ⟨ha.place.casenumber, ha.place.caseCheck⟩, ha.echoed, ha.added⟩
  · obtain ⟨t, ht, he⟩ := hprocess j p _ hlt hd hplace
    rw [hline] at he
    rw [← hj] at ht
    rw [withPart, if_neg hstop, ht]
    exact ⟨_, rfl, rfl, ⟨he.place.casenumber, he.place.caseCheck⟩, he.echoed, he.added⟩

/-- A function that loops over the values of component `k`. -/
theorem processesBy_succ (hn : m.componentNumber = Vs.length) {process : Int → Gen → Option Gen}
    (h : ∀ (k : Nat) V tail p s, Vs[k]? = some V → left m.genOrder Vs k = V :: tail → tail.length ≤ d → s.At (place p) →
      ∃ s', process k s = some s' ∧ EmitsBy place emit m.genMode p
        (V.flatMap fun v => linesFor m.genOrder text tail (extend m.genOrder s.testCase (text v))) s s') :
    ProcessesBy m place emit text Vs (d + 1) process := by
  intro k p s hk hd hs
  have hV := List.getElem?_eq_getElem hk
  obtain ⟨tail, htail, -⟩ := left_step hn hV
  rw [htail, linesFor_cons]
  rw [htail, List.length_cons] at hd
  exact h k _ tail p s hV htail (by omega) hs

theorem processesBy_zero (hn : m.componentNumber = Vs.length) (process : Int → Gen → Option Gen) :
    ProcessesBy m place emit text Vs 0 process := by
  intro k p s hk hd _
  obtain ⟨tail, htail, -⟩ := left_step hn (List.getElem?_eq_getElem hk)
  rw [htail] at hd
  cases hd

end

/-! ## Caselines and case blocks -/

section

variable {ksh : Ksh} {m : Matrix} {found : Option Text}

theorem processparts_emitsBy (hone : EmitsLine ksh m place emit) (hn : m.componentNumber = m.caseline.length) (fuel : Nat) :
    ProcessesBy m place emit partText (m.caseline.map ksh.evalSet) fuel (processparts ksh m fuel) := by
  have hlen : m.componentNumber = (m.caseline.map ksh.evalSet).length := by rw [hn, List.length_map]
  induction fuel with
  | zero => exact processesBy_zero hlen _
  | succ fuel ih =>
    refine processesBy_succ hlen fun k V tail p s hV htail hd hs => ?_
    have hget : ksh.evalSet (m.caseline.getD (k : Int).toNat []) = V := by
      rw [List.getElem?_map] at hV
      obtain ⟨c, hc, rfl⟩ := Option.map_eq_some_iff.mp hV
      simp [hc]
    have hneg : ¬(k : Int) < 0 := by omega
    simp only [processparts, hneg, if_false, hget]
    have hplace : { s with cmdpart := V }.At (place p) := ⟨hs.casenumber, hs.caseCheck⟩
    have hbody : ∀ v p t, t.At (place p) → t.testCase = s.testCase →
        ∃ t', withPart ksh m k (processparts ksh m fuel) (setPart v t).part (setPart v t) = some t' ∧
          EmitsBy place emit m.genMode p (linesFor m.genOrder partText tail (extend m.genOrder s.testCase (partText v))) t t' := by
      intro v p t ht hline
      rw [setPart_eq, ← hline]
      have hpart : { t with part := partText v }.At (place p) := ⟨ht.casenumber, ht.caseCheck⟩
      obtain ⟨t', hrun, hemits⟩ := withPart_emitsBy hone hlen hV htail ih hd hpart (partText v)
      exact ⟨t', hrun, hemits.of_start rfl rfl rfl⟩
    obtain ⟨s', hrun, hemits⟩ := foldlM_emitsBy _ hbody V hplace rfl
    exact ⟨s', hrun, hemits.of_start rfl rfl rfl⟩

theorem processparts_emits (hcheck : NoCheck ksh m.testName found) (hn : m.componentNumber = m.caseline.length) (fuel : Nat) :
    Processes m (caseName found) partText (m.caseline.map ksh.evalSet) fuel (processparts ksh m fuel) :=
  (processparts_emitsBy (addCase_emits hcheck) hn fuel).processes

/-- A type, a name and a value. -/
structure Arg where
  argtype : Text
  argname : Text
  value : Text

def Arg.text (a : Arg) : Text := argPart a.argtype a.argname a.value

/-- The names and values of one line of a block, the names slowest. -/
def argsOf (argtype : Text) (names values : List Text) : List Arg :=
  names.flatMap fun argname => values.map fun value => ⟨argtype, argname, value⟩

/-- The components of a block. -/
def blockArgs (ksh : Ksh) (m : Matrix) : List (List Arg) :=
  (List.range m.componentNumber).map fun k =>
    argsOf (m.argtypes.getD k []) (ksh.evalSet (m.argnames.getD k [])) (ksh.evalSet (m.argvalues.getD k []))

theorem processargs_emitsBy (hone : EmitsLine ksh m place emit) (fuel : Nat) :
    ProcessesBy m place emit Arg.text (blockArgs ksh m) fuel (processargs ksh m fuel) := by
  have hlen : m.componentNumber = (blockArgs ksh m).length := by simp [blockArgs]
  induction fuel with
  | zero => exact processesBy_zero hlen _
  | succ fuel ih =>
    refine processesBy_succ hlen fun k V tail p s hV htail hd hs => ?_
    have hget : argsOf (m.argtypes.getD k []) (ksh.evalSet (m.argnames.getD k [])) (ksh.evalSet (m.argvalues.getD k [])) = V := by
      rw [blockArgs, List.getElem?_map] at hV
      obtain ⟨c, hc, rfl⟩ := Option.map_eq_some_iff.mp hV
      obtain ⟨-, rfl⟩ := List.getElem?_eq_some_iff.mp hc
      rw [List.getElem_range]
    have hneg : ¬(k : Int) < 0 := by omega
    rw [← hget, argsOf, List.flatMap_assoc]
    simp only [processargs, hneg, if_false, Int.toNat_natCast, List.flatMap_map]
    have hplace : { s with args := ksh.evalSet (m.argnames.getD k []) }.At (place p) := ⟨hs.casenumber, hs.caseCheck⟩
    -- the inner loop is over the values, with one name
    have hnames : ∀ argname p t, t.At (place p) → t.testCase = s.testCase →
        ∃ t', (ksh.evalSet (m.argvalues.getD k [])).foldlM (fun u value => withPart ksh m k (processargs ksh m fuel)
            (argPart (m.argtypes.getD k []) argname value) u) { t with values := ksh.evalSet (m.argvalues.getD k []) } = some t' ∧
          EmitsBy place emit m.genMode p ((ksh.evalSet (m.argvalues.getD k [])).flatMap fun value =>
            linesFor m.genOrder Arg.text tail
              (extend m.genOrder s.testCase (argPart (m.argtypes.getD k []) argname value))) t t' := by
      intro argname p t ht hline
      have hvalues : { t with values := ksh.evalSet (m.argvalues.getD k []) }.At (place p) := ⟨ht.casenumber, ht.caseCheck⟩
      obtain ⟨t', hrun, hemits⟩ := foldlM_emitsBy (fun value => linesFor m.genOrder Arg.text tail
          (extend m.genOrder s.testCase (argPart (m.argtypes.getD k []) argname value)))
        (fun value p u hu hline => hline ▸ withPart_emitsBy hone hlen hV htail ih hd hu _)
        (ksh.evalSet (m.argvalues.getD k [])) hvalues hline
      exact ⟨t', hrun, hemits.of_start rfl rfl rfl⟩
    obtain ⟨s', hrun, hemits⟩ := foldlM_emitsBy _ hnames (ksh.evalSet (m.argnames.getD k [])) hplace rfl
    exact ⟨s', hrun, hemits.of_start rfl rfl rfl⟩

theorem processargs_emits (hcheck : NoCheck ksh m.testName found) (fuel : Nat) :
    Processes m (caseName found) Arg.text (blockArgs ksh m) fuel (processargs ksh m fuel) :=
  (processargs_emitsBy (addCase_emits hcheck) fuel).processes

end

end ZfsTest.Stf.Testgen
