import ZfsTest.Text.Separated
import ZfsTest.Stf.Code
import ZfsTest.Stf.Compare

/-!
# `stf_compare3.pl`

`stf_compare3 -b exp -p prv new` prints the tests with a result that the expected file does not list, with the results of all three files.
It keeps the pairs of a file as the keys of a hash, as `stf_compare` does, and the result names of a test as a text, to which each result
is prepended with a comma; the comma at the end is cut off behind each line.

Two things go wrong. The hash that is searched for previous results is never filled, and the text loses a character for every further
line of its test. The output is exact if every test with a deviating previous result has a deviating new one, and the tests with a
deviating new result are on one line of each file at most (`compare3_reports_iff`).
-/

namespace ZfsTest.Stf.Compare3

open ZfsTest.Stf.Filter (Basekey fields key resultOf isFalse)
open Compare (Base idOf resultsOf)

/-! ## The script -/

def Noresult : Text := "NORESULT".toList

/-- A hash with texts as values. -/
abbrev Names := List (Text × Text)

/-- `$names{$k}`; an undefined value is the empty text. -/
def Names.get (h : Names) (k : Text) : Text := ((h.find? fun x => x.1 = k).map Prod.snd).getD []

def Names.set (h : Names) (k v : Text) : Names :=
  match h with
  | [] => [(k, v)]
  | x :: h => if x.1 = k then (k, v) :: h else x :: Names.set h k v

/-- The two hashes of a file: the keys of its results, whose values are `1`, and the names of its tests. -/
structure Loaded where
  results : List Text
  names : Names

/-- The body of the loop over the results of a line. -/
def loadResult (id : Text) (s : Loaded) (result : Text) : Loaded :=
  let resultname := (resultOf result).1
  ⟨s.results.insert (key id resultname), s.names.set id (resultname ++ ',' :: s.names.get id)⟩

/-- One line; `substr($Names{$key}, -1, 1) = ""` takes the last character off. -/
def loadLine (s : Loaded) (line : Text) : Loaded :=
  let s := (resultsOf line).foldl (loadResult (idOf line)) s
  { s with names := s.names.set (idOf line) (s.names.get (idOf line)).dropLast }

/-- `LoadResults`, with the text of the file; `none` when it dies. -/
def LoadResults (text : Text) : Option Loaded :=
  match linesOf text with
  | [] => none
  | first :: rest => if Basekey <+: first then some (rest.foldl loadLine ⟨[], []⟩) else none

/-- `NORESULT` for a test without a name. -/
def patch (s : Loaded) (test : Text) : Loaded :=
  if isFalse (s.names.get test) then ⟨s.results.insert (key test Noresult), s.names.set test Noresult⟩ else s

/-- A line of the output; its fields are printed with blanks between them. -/
structure Row where
  test : Text
  new : Text
  prv : Text
  exp : Text
  deriving DecidableEq

/-- The first field of a key. -/
def testOf (k : Text) : Text := k.takeWhile (· ≠ '\x1c')

def addDiff (expresults : List Text) (diffs : List Text) (k : Text) : List Text :=
  if expresults.contains k then diffs else diffs.insert (testOf k)

/-- `stf_compare3 -b exp [-p prv] new`. The second loop over differences is over the keys of `%diffs_prv`, to which nothing is ever
assigned. -/
def stfCompare3 (new : Text) (prv : Option Text) (exp : Text) : Option (List Row) := do
  let n ← LoadResults new
  let p ← prv.elim (some ⟨[], []⟩) LoadResults
  let e ← LoadResults exp
  let expnames := e.names.map Prod.fst
  let p := if prv.isSome then expnames.foldl patch p else p
  let n := expnames.foldl patch n
  let diffsPrv : List Text := []
  let diffs := n.results.foldl (addDiff e.results) []
  let diffs := diffsPrv.foldl (addDiff e.results) diffs
  return (diffs.mergeSort fun a b => !decide (b < a)).map fun test =>
    ⟨test, n.names.get test, p.names.get test, if isFalse (e.names.get test) then Noresult else e.names.get test⟩

/-! ## What a file says -/

def resultNames (line : Text) : List Text := (resultsOf line).map fun result => (resultOf result).1

def linesFor (b : Base) (test : Text) : List Text := b.lines.filter fun line => idOf line = test

/-- The result names that a file records for a test. -/
def recorded (b : Base) (test : Text) : List Text := (linesFor b test).flatMap resultNames

/-- The result set of a test: `NORESULT` if the file lacks the test and the expected file has it. -/
def resultSet (b exp : Base) (test : Text) : List Text :=
  if linesFor b test = [] ∧ linesFor exp test ≠ [] then [Noresult] else recorded b test

/-- There is a result that the expected file does not list. -/
def Deviates (b exp : Base) (test : Text) : Prop := ∃ r ∈ resultSet b exp test, r ∉ recorded exp test

/-- The result names with commas between them, in any order. -/
def Joins (text : Text) (names : List Text) : Prop := ∃ l : List Text, l.Perm names ∧ text = [','].intercalate l

/-- A row with the results of the three files. Where the expected file lacks the test, its column shows `NORESULT`; without `-p` the column
of the previous file is empty. -/
structure Row.Shows (new : Base) (prv : Option Base) (exp : Base) (row : Row) : Prop where
  new : Joins row.new (resultSet new exp row.test)
  prv : Joins row.prv (prv.elim [] fun p => resultSet p exp row.test)
  exp : Joins row.exp (if linesFor exp row.test = [] then [Noresult] else recorded exp row.test)

/-- One row for each deviating test, and no other row. -/
def Reports (new : Base) (prv : Option Base) (exp : Base) (rows : List Row) : Prop :=
  (rows.map Row.test).Nodup ∧
    (∀ test, test ∈ rows.map Row.test ↔ Deviates new exp test ∨ ∃ p, prv = some p ∧ Deviates p exp test) ∧
    ∀ row ∈ rows, row.Shows new prv exp

/-- Every line has a result. -/
def Proper (b : Base) : Prop := ∀ line ∈ b.lines, resultsOf line ≠ []

/-- The text that is kept for a test is one that Perl takes for false: each of its lines has one name, which is empty, or `0` on the last. -/
def Void (b : Base) (test : Text) : Prop :=
  ∃ ls line, linesFor b test = ls ++ [line] ∧ (∀ l ∈ ls, resultNames l = [[]]) ∧ (resultNames line = [[]] ∨ resultNames line = [['0']])

/-- The column of a file shows the results of the test. -/
structure Legible (b exp : Base) (test : Text) : Prop where
  lines : (linesFor b test).length ≤ 1
  names : linesFor exp test ≠ [] → ¬Void b test

/-! ## The names of a test -/

theorem Names.get_set (h : Names) (k v k' : Text) : (h.set k v).get k' = if k = k' then v else h.get k' := by
  induction h with
  | nil =>
    by_cases hk : k = k'
    · simp [Names.set, Names.get, hk]
    · simp [Names.set, Names.get, hk]
  | cons x h ih =>
    unfold Names.get at ih ⊢
    rw [Names.set]
    by_cases hx : x.1 = k
    · by_cases hk : k = k'
      · simp [hx, hk]
      · simp [hx, hk]
    · by_cases hk : k = k'
      · subst hk
        simpa [hx] using ih
      · by_cases hx' : x.1 = k'
        · subst hx'
          simp [hx, Ne.symm hx]
        · simpa [hx, hk, hx'] using ih

theorem Names.mem_set (h : Names) (k v k' : Text) : k' ∈ (h.set k v).map Prod.fst ↔ k' = k ∨ k' ∈ h.map Prod.fst := by
  induction h with
  | nil => simp [Names.set]
  | cons x h ih =>
    rw [Names.set]
    split
    · rename_i hx
      simp [hx]
    · rw [List.map_cons, List.mem_cons, ih, List.map_cons, List.mem_cons]
      tauto

/-- What a line makes of the text of its test. -/
def nameText (s line : Text) : Text := ((resultNames line).foldl (fun s r => r ++ ',' :: s) s).dropLast

theorem foldl_loadResult (id : Text) (results : List Text) (s : Loaded) :
    (results.foldl (loadResult id) s).results = (results.map fun result => key id (resultOf result).1).foldl (fun h k => h.insert k) s.results ∧
    (∀ t, (results.foldl (loadResult id) s).names.get t =
      if id = t then (results.map fun result => (resultOf result).1).foldl (fun s r => r ++ ',' :: s) (s.names.get t) else s.names.get t) ∧
    ∀ t, t ∈ (results.foldl (loadResult id) s).names.map Prod.fst ↔ t ∈ s.names.map Prod.fst ∨ (results ≠ [] ∧ t = id) := by
  induction results generalizing s with
  | nil => simp
  | cons result results ih =>
    obtain ⟨hresults, hget, hmem⟩ := ih (loadResult id s result)
    refine ⟨hresults, fun t => ?_, fun t => ?_⟩
    · rw [List.foldl_cons, hget t, List.map_cons, List.foldl_cons]
      by_cases h : id = t
      · subst h
        simp [loadResult, Names.get_set]
      · simp [loadResult, Names.get_set, h]
    · rw [List.foldl_cons, hmem t, loadResult, Names.mem_set]
      simp
      tauto

theorem loadLine_spec (s : Loaded) (line : Text) : (loadLine s line).results = Compare.load s.results line ∧
    (∀ t, (loadLine s line).names.get t = if idOf line = t then nameText (s.names.get t) line else s.names.get t) ∧
    ∀ t, t ∈ (loadLine s line).names.map Prod.fst ↔ t ∈ s.names.map Prod.fst ∨ t = idOf line := by
  obtain ⟨hresults, hget, hmem⟩ := foldl_loadResult (idOf line) (resultsOf line) s
  refine ⟨hresults, fun t => ?_, fun t => ?_⟩
  · rw [loadLine, Names.get_set, hget, hget]
    by_cases h : idOf line = t
    · subst h
      simp [nameText, resultNames]
    · simp [h]
  · rw [loadLine, Names.mem_set, hmem t]
    tauto

/-- A file as it is loaded. -/
structure Loads (b : Base) (s : Loaded) : Prop where
  results : Compare.Keys b s.results
  get : ∀ t, s.names.get t = (linesFor b t).foldl nameText []
  mem : ∀ t, t ∈ s.names.map Prod.fst ↔ linesFor b t ≠ []

theorem foldl_loadLine (lines : List Text) (s : Loaded) : (lines.foldl loadLine s).results = lines.foldl Compare.load s.results ∧
    (∀ t, (lines.foldl loadLine s).names.get t = (lines.filter fun line => idOf line = t).foldl nameText (s.names.get t)) ∧
    ∀ t, t ∈ (lines.foldl loadLine s).names.map Prod.fst ↔ t ∈ s.names.map Prod.fst ∨ (lines.filter fun line => idOf line = t) ≠ [] := by
  induction lines generalizing s with
  | nil => simp
  | cons line lines ih =>
    obtain ⟨hresults, hget, hmem⟩ := ih (loadLine s line)
    obtain ⟨hresults', hget', hmem'⟩ := loadLine_spec s line
    refine ⟨?_, fun t => ?_, fun t => ?_⟩
    · rw [List.foldl_cons, hresults, hresults']
      rfl
    · rw [List.foldl_cons, hget t, hget' t, List.filter_cons]
      by_cases h : idOf line = t
      · simp [h]
      · simp [h]
    · rw [List.foldl_cons, hmem t, hmem' t, List.filter_cons]
      by_cases h : idOf line = t
      · simp [h]
      · simp [h, Ne.symm h]

theorem loadResults_base (b : Base) : ∃ s, LoadResults b.text = some s ∧ Loads b s := by
  obtain ⟨first, hlines, hfirst⟩ := Compare.linesOf_base b
  have hload : LoadResults b.text = some (b.lines.foldl loadLine ⟨[], []⟩) := by
    rw [LoadResults, hlines]
    exact if_pos hfirst
  obtain ⟨hresults, hget, hmem⟩ := foldl_loadLine b.lines ⟨[], []⟩
  refine ⟨_, hload, ?_, hget, fun t => ?_⟩
  · rw [hresults]
    exact Compare.keys_load b
  · rw [hmem t]
    simp [linesFor]

/-! ## Joins -/

/-- Names, each with a comma behind it. -/
def ended (l : List Text) : Text := l.flatMap fun r => r ++ [',']

theorem ended_eq {l : List Text} (hl : l ≠ []) : ended l = [','].intercalate l ++ [','] := by
  induction l with
  | nil => exact absurd rfl hl
  | cons r l ih =>
    cases l with
    | nil => simp [ended]
    | cons r' l =>
      have ih := ih (List.cons_ne_nil _ _)
      rw [List.intercalate_cons_cons, List.append_assoc, List.append_assoc, ← ih]
      simp [ended]

theorem foldl_prepend (names : List Text) (s : Text) :
    names.foldl (fun s r => r ++ ',' :: s) s = ended names.reverse ++ s := by
  induction names generalizing s with
  | nil => rfl
  | cons r names ih =>
    rw [List.foldl_cons, ih]
    simp [ended]

theorem nameText_eq (s line : Text) : nameText s line = (ended (resultNames line).reverse ++ s).dropLast := by
  rw [nameText, foldl_prepend]

theorem length_ended {l names : List Text} (h : l.Perm names) : (ended l).length = (ended names).length :=
  (h.flatMap_right _).length_eq

/-- Every line costs a character. -/
theorem length_foldl_nameText (lines : List Text) (hlines : ∀ line ∈ lines, resultNames line ≠ []) (s : Text) :
    (lines.foldl nameText s).length + lines.length = (ended (lines.flatMap resultNames)).length + s.length := by
  induction lines generalizing s with
  | nil => simp [ended]
  | cons line lines ih =>
    have ih := ih (fun l hl => hlines l (List.mem_cons_of_mem line hl)) (nameText s line)
    have hne : resultNames line ≠ [] := hlines line List.mem_cons_self
    have hpos : 0 < (ended (resultNames line)).length := by
      rw [ended_eq hne]
      simp
    have hlen : (nameText s line).length = (ended (resultNames line)).length + s.length - 1 := by
      rw [nameText_eq, List.length_dropLast, List.length_append, length_ended (List.reverse_perm _)]
    have happ : (ended ((line :: lines).flatMap resultNames)).length =
        (ended (resultNames line)).length + (ended (lines.flatMap resultNames)).length := by
      simp [ended]
    rw [List.foldl_cons, happ, List.length_cons]
    omega

/-- The results of a test are joined if and only if they are on one line. -/
theorem joins_foldl_iff (lines : List Text) (hlines : ∀ line ∈ lines, resultNames line ≠ []) :
    Joins (lines.foldl nameText []) (lines.flatMap resultNames) ↔ lines.length ≤ 1 := by
  constructor
  · rintro ⟨l, hl, htext⟩
    cases lines with
    | nil => exact Nat.zero_le 1
    | cons line lines =>
      have hlen := length_foldl_nameText (line :: lines) hlines []
      have hne : l ≠ [] := by
        rintro rfl
        have hnil := List.nil_perm.mp hl
        rw [List.flatMap_cons, List.append_eq_nil_iff] at hnil
        exact hlines line List.mem_cons_self hnil.1
      have hend := congrArg List.length (ended_eq hne)
      rw [length_ended hl, List.length_append, ← htext, List.length_singleton] at hend
      rw [List.length_nil] at hlen
      omega
  · intro hlen
    match lines, hlines with
    | [], _ => exact ⟨[], List.Perm.nil, rfl⟩
    | [line], hlines =>
      have hne : (resultNames line).reverse ≠ [] := fun h => hlines line List.mem_cons_self (List.reverse_eq_nil_iff.mp h)
      refine ⟨(resultNames line).reverse, ?_, ?_⟩
      · rw [List.flatMap_singleton]
        exact List.reverse_perm _
      · rw [List.foldl_cons, List.foldl_nil, nameText_eq, List.append_nil, ended_eq hne, List.dropLast_concat]

/-- A text without a comma is one name on the only line so far. -/
theorem nameText_iff {s line x : Text} (hx : ',' ∉ x) (hne : resultNames line ≠ []) :
    nameText s line = x ↔ s = [] ∧ resultNames line = [x] := by
  rw [nameText_eq]
  constructor
  · intro h
    cases hr : (resultNames line).reverse with
    | nil => exact absurd (List.reverse_eq_nil_iff.mp hr) hne
    | cons r rs =>
      have happ : ended (r :: rs) ++ s = r ++ ',' :: (ended rs ++ s) := by simp [ended]
      rw [hr, happ] at h
      by_cases hrest : ended rs ++ s = []
      · obtain ⟨hrs, hs⟩ := List.append_eq_nil_iff.mp hrest
        have hnil : rs = [] := by
          cases rs with
          | nil => rfl
          | cons r' rs => simp [ended] at hrs
        rw [hrest, List.dropLast_concat] at h
        rw [hnil, h, List.reverse_eq_iff] at hr
        exact ⟨hs, hr⟩
      · rw [List.dropLast_append_of_ne_nil (List.cons_ne_nil _ _), List.dropLast_cons_of_ne_nil hrest] at h
        exact absurd (h ▸ List.mem_append_right r List.mem_cons_self) hx
  · rintro ⟨rfl, hname⟩
    rw [hname]
    simp [ended]

theorem foldl_eq_nil (lines : List Text) (hlines : ∀ line ∈ lines, resultNames line ≠ []) :
    lines.foldl nameText [] = [] ↔ ∀ line ∈ lines, resultNames line = [[]] := by
  induction lines using List.reverseRecOn with
  | nil => simp
  | append_singleton ls line ih =>
    have ih := ih fun l hl => hlines l (List.mem_append_left _ hl)
    rw [List.foldl_append, List.foldl_cons, List.foldl_nil,
      nameText_iff List.not_mem_nil (hlines line (List.mem_append_right _ List.mem_cons_self)), ih]
    simp [or_imp, forall_and]

section File

variable {b exp : Base} {test : Text}

theorem resultNames_ne_nil (hb : Proper b) (test : Text) : ∀ line ∈ linesFor b test, resultNames line ≠ [] := by
  intro line hline h
  exact hb line (List.mem_of_mem_filter hline) (List.map_eq_nil_iff.mp h)

theorem mem_pairs_iff {r : Text} : (test, r) ∈ b.pairs ↔ r ∈ recorded b test := by
  unfold Base.pairs recorded linesFor resultNames
  simp only [List.mem_flatMap, List.mem_map, Prod.mk.injEq, List.mem_filter, decide_eq_true_eq]
  constructor
  · rintro ⟨line, hline, result, hresult, hid, hr⟩
    exact ⟨line, ⟨hline, hid⟩, result, hresult, hr⟩
  · rintro ⟨line, ⟨hline, hid⟩, result, hresult, hr⟩
    exact ⟨line, hline, result, hresult, hid, hr⟩

/-- The text of a test. -/
def textFor (b : Base) (test : Text) : Text := (linesFor b test).foldl nameText []

theorem joins_textFor_iff (hb : Proper b) : Joins (textFor b test) (recorded b test) ↔ (linesFor b test).length ≤ 1 :=
  joins_foldl_iff (linesFor b test) (resultNames_ne_nil hb test)

theorem Void.linesFor_ne_nil (h : Void b test) : linesFor b test ≠ [] := by
  obtain ⟨ls, line, heq, -, -⟩ := h
  rw [heq]
  exact List.concat_ne_nil line ls

theorem isFalse_textFor_iff (hb : Proper b) : isFalse (textFor b test) = true ↔ linesFor b test = [] ∨ Void b test := by
  have hne := resultNames_ne_nil hb test
  rcases List.eq_nil_or_concat (linesFor b test) with hnil | ⟨ls, line, heq⟩
  · simp [textFor, hnil, Filter.isFalse]
  · rw [List.concat_eq_append] at heq
    rw [heq] at hne
    have hline : resultNames line ≠ [] := hne line (List.mem_append_right _ List.mem_cons_self)
    have hls : ls.foldl nameText [] = [] ↔ ∀ l ∈ ls, resultNames l = [[]] :=
      foldl_eq_nil ls fun l hl => hne l (List.mem_append_left _ hl)
    have htext : textFor b test = nameText (ls.foldl nameText []) line := by rw [textFor, heq, List.foldl_append]; rfl
    have hfalse : isFalse (textFor b test) = true ↔ textFor b test = [] ∨ textFor b test = ['0'] := by simp [Filter.isFalse]
    rw [hfalse, htext, nameText_iff List.not_mem_nil hline, nameText_iff (by decide) hline, hls]
    constructor
    · rintro (⟨h, hname⟩ | ⟨h, hname⟩)
      · exact .inr ⟨ls, line, heq, h, .inl hname⟩
      · exact .inr ⟨ls, line, heq, h, .inr hname⟩
    · rintro (hnil | ⟨ls', line', heq', h, hname⟩)
      · rw [heq] at hnil
        exact absurd hnil (List.concat_ne_nil line ls)
      · obtain ⟨rfl, hl⟩ := List.append_inj' (heq.symm.trans heq') rfl
        obtain rfl : line = line' := List.singleton_inj.mp hl
        exact hname.imp (fun hname => ⟨h, hname⟩) fun hname => ⟨h, hname⟩

/-- `NORESULT` is not a join of the names of such a test. -/
theorem not_joins_void (h : Void b test) : ¬Joins Noresult (recorded b test) := by
  rintro ⟨l, hl, htext⟩
  obtain ⟨ls, line, heq, hls, hline⟩ := h
  have hN : 'N' ∈ [','].intercalate l := htext ▸ List.mem_cons_self
  obtain hN | ⟨r, hr, hN⟩ := mem_intercalate hN
  · revert hN
    decide
  · have hr := hl.subset hr
    rw [recorded, heq, List.flatMap_append, List.flatMap_singleton, List.mem_append] at hr
    have hname : r = [] ∨ r = ['0'] := by
      rcases hr with hr | hr
      · obtain ⟨l', hl', hr⟩ := List.mem_flatMap.mp hr
        rw [hls l' hl', List.mem_singleton] at hr
        exact .inl hr
      · rcases hline with hline | hline
        · rw [hline, List.mem_singleton] at hr
          exact .inl hr
        · rw [hline, List.mem_singleton] at hr
          exact .inr hr
    rcases hname with rfl | rfl
    · exact List.not_mem_nil hN
    · revert hN
      decide

/-- The text of a test behind the patch. -/
def patched (b exp : Base) (test : Text) : Text :=
  if linesFor exp test ≠ [] ∧ isFalse (textFor b test) = true then Noresult else textFor b test

theorem joins_patched_iff (hb : Proper b) :
    Joins (patched b exp test) (resultSet b exp test) ↔ Legible b exp test := by
  by_cases hnil : linesFor b test = []
  · have htext : textFor b test = [] := by rw [textFor, hnil]; rfl
    have hrec : recorded b test = [] := by rw [recorded, hnil]; rfl
    have hleg : Legible b exp test := ⟨by simp [hnil], fun _ h => h.linesFor_ne_nil hnil⟩
    by_cases hexp : linesFor exp test = []
    · simp [patched, resultSet, hexp, htext, hrec, hleg, Joins]
    · simp [patched, resultSet, hexp, htext, hnil, hleg, Filter.isFalse, Joins]
  · have hset : resultSet b exp test = recorded b test := if_neg fun h => hnil h.1
    rw [hset]
    by_cases hvoid : linesFor exp test ≠ [] ∧ Void b test
    · have hpatched : patched b exp test = Noresult := if_pos ⟨hvoid.1, (isFalse_textFor_iff hb).mpr (.inr hvoid.2)⟩
      rw [hpatched]
      exact ⟨fun h => absurd h (not_joins_void hvoid.2), fun h => absurd hvoid.2 (h.names hvoid.1)⟩
    · have hpatched : patched b exp test = textFor b test :=
        if_neg fun h => hvoid ⟨h.1, ((isFalse_textFor_iff hb).mp h.2).resolve_left hnil⟩
      rw [hpatched, joins_textFor_iff hb]
      exact ⟨fun h => ⟨h, fun hexp hv => hvoid ⟨hexp, hv⟩⟩, Legible.lines⟩

theorem joins_expected_iff (hb : Proper b) :
    Joins (if isFalse (textFor b test) then Noresult else textFor b test) (if linesFor b test = [] then [Noresult] else recorded b test) ↔
      Legible b b test := by
  by_cases hnil : linesFor b test = []
  · have htext : textFor b test = [] := by rw [textFor, hnil]; rfl
    have hleg : Legible b b test := ⟨by simp [hnil], fun h => absurd hnil h⟩
    simp [htext, hnil, hleg, Filter.isFalse, Joins]
  · have hpatched : patched b b test = if isFalse (textFor b test) then Noresult else textFor b test := by simp [patched, hnil]
    have hset : resultSet b b test = recorded b test := if_neg fun h => hnil h.1
    rw [if_neg hnil, ← hpatched, ← hset, joins_patched_iff hb]

end File

/-! ## The patch and the differences -/

theorem isFalse_Noresult : isFalse Noresult = false := rfl

theorem patch_get (s : Loaded) (test t : Text) :
    (patch s test).names.get t = if t = test ∧ isFalse (s.names.get t) = true then Noresult else s.names.get t := by
  unfold patch
  split
  · rename_i hf
    rw [Names.get_set]
    by_cases ht : test = t
    · subst ht
      simp [hf]
    · simp [ht, Ne.symm ht]
  · rename_i hf
    by_cases ht : t = test
    · subst ht
      simp [hf]
    · simp [ht]

theorem mem_patch (s : Loaded) (test k : Text) :
    k ∈ (patch s test).results ↔ k ∈ s.results ∨ (isFalse (s.names.get test) = true ∧ k = key test Noresult) := by
  unfold patch
  split
  · rename_i hf
    rw [List.mem_insert_iff]
    simp [hf, or_comm]
  · rename_i hf
    simp [hf]

theorem foldl_patch (tests : List Text) (s : Loaded) :
    (∀ t, (tests.foldl patch s).names.get t = if t ∈ tests ∧ isFalse (s.names.get t) = true then Noresult else s.names.get t) ∧
    ∀ k, k ∈ (tests.foldl patch s).results ↔
      k ∈ s.results ∨ ∃ test ∈ tests, isFalse (s.names.get test) = true ∧ k = key test Noresult := by
  induction tests generalizing s with
  | nil => simp
  | cons test tests ih =>
    obtain ⟨hget, hmem⟩ := ih (patch s test)
    have hfalse : ∀ t, isFalse ((patch s test).names.get t) = true ↔ isFalse (s.names.get t) = true ∧ t ≠ test := by
      intro t
      rw [patch_get]
      by_cases ht : t = test
      · by_cases hf : isFalse (s.names.get t) = true
        · simp [ht, ht ▸ hf, isFalse_Noresult]
        · simp [ht, ht ▸ hf]
      · simp [ht]
    refine ⟨fun t => ?_, fun k => ?_⟩
    · rw [List.foldl_cons, hget t, patch_get]
      by_cases ht : t = test
      · by_cases hf : isFalse (s.names.get t) = true
        · simp [ht, ht ▸ hf, isFalse_Noresult]
        · simp [ht, ht ▸ hf]
      · simp [ht]
    · rw [List.foldl_cons, hmem k, mem_patch, List.exists_mem_cons_iff]
      constructor
      · rintro ((h | h) | ⟨t, ht, hf, hk⟩)
        · exact .inl h
        · exact .inr (.inl h)
        · exact .inr (.inr ⟨t, ht, ((hfalse t).mp hf).1, hk⟩)
      · rintro (h | h | ⟨t, ht, hf, hk⟩)
        · exact .inl (.inl h)
        · exact .inl (.inr h)
        · by_cases htest : t = test
          · exact .inl (.inr ⟨htest ▸ hf, htest ▸ hk⟩)
          · exact .inr ⟨t, ht, (hfalse t).mpr ⟨hf, htest⟩, hk⟩

theorem foldl_addDiff (e ks ds : List Text) (hds : ds.Nodup) :
    (ks.foldl (addDiff e) ds).Nodup ∧ ∀ t, t ∈ ks.foldl (addDiff e) ds ↔ t ∈ ds ∨ ∃ k ∈ ks, k ∉ e ∧ t = testOf k := by
  induction ks generalizing ds with
  | nil => exact ⟨hds, fun t => by simp⟩
  | cons k ks ih =>
    have hstep : (addDiff e ds k).Nodup ∧ ∀ t, t ∈ addDiff e ds k ↔ t ∈ ds ∨ (k ∉ e ∧ t = testOf k) := by
      unfold addDiff
      split
      · rename_i hk
        exact ⟨hds, fun t => by simp [List.contains_iff_mem.mp hk]⟩
      · rename_i hk
        refine ⟨hds.insert, fun t => ?_⟩
        rw [List.mem_insert_iff]
        simp [mt List.contains_iff_mem.mpr hk, or_comm]
    obtain ⟨hnodup, hmem⟩ := ih (addDiff e ds k) hstep.1
    refine ⟨hnodup, fun t => ?_⟩
    rw [List.foldl_cons, hmem t, hstep.2 t, List.exists_mem_cons_iff, or_assoc]

section Run

variable {b new exp : Base} {n e : Loaded} {test r : Text}

theorem notMem_test (h : linesFor b test ≠ []) : '\x1c' ∉ test := by
  obtain ⟨line, hline⟩ := List.exists_mem_of_ne_nil _ h
  obtain ⟨hmem, hid⟩ := List.mem_filter.mp hline
  exact of_decide_eq_true hid ▸ Compare.notMem_idOf hmem

theorem testOf_key (ht : '\x1c' ∉ test) (hr : '\x1c' ∉ r) : testOf (key test r) = test :=
  congrArg Prod.fst (Compare.pairOf_key (p := (test, r)) ⟨ht, hr⟩)

theorem key_mem_iff {h : List Text} (hk : Compare.Keys b h) (ht : '\x1c' ∉ test) (hr : '\x1c' ∉ r) :
    key test r ∈ h ↔ r ∈ recorded b test := by
  rw [hk.mem_iff, ← mem_pairs_iff]
  constructor
  · rintro ⟨q, hq, heq⟩
    have hpair : (test, r) = q := by
      rw [← Compare.pairOf_key (p := (test, r)) ⟨ht, hr⟩, heq, Compare.pairOf_key (Compare.pairs_plain hq)]
    rwa [hpair]
  · intro h
    exact ⟨(test, r), h, rfl⟩

theorem notMem_Noresult : '\x1c' ∉ Noresult := by decide

/-- The differences are the deviating tests, and those that only the patch makes deviate. -/
theorem mem_diffs_iff (hnew : Loads new n) (hexp : Loads exp e) (hproper : Proper new) :
    (∃ k ∈ ((e.names.map Prod.fst).foldl patch n).results, k ∉ e.results ∧ test = testOf k) ↔
      Deviates new exp test ∨ (Void new test ∧ linesFor exp test ≠ [] ∧ Noresult ∉ recorded exp test) := by
  have hmem := (foldl_patch (e.names.map Prod.fst) n).2
  have hfalse : ∀ t, isFalse (n.names.get t) = true ↔ linesFor new t = [] ∨ Void new t := fun t => by
    rw [hnew.get t]
    exact isFalse_textFor_iff hproper
  constructor
  · rintro ⟨k, hk, hke, rfl⟩
    rcases (hmem k).mp hk with hk | ⟨t, ht, hf, rfl⟩
    · obtain ⟨⟨t, r⟩, hp, rfl⟩ := (hnew.results.mem_iff k).mp hk
      obtain ⟨ht, hr⟩ := Compare.pairs_plain hp
      have hrec : r ∈ recorded new t := mem_pairs_iff.mp hp
      have hset : resultSet new exp t = recorded new t := by
        refine if_neg fun h => ?_
        rw [recorded, h.1] at hrec
        exact List.not_mem_nil hrec
      rw [testOf_key ht hr]
      rw [key_mem_iff hexp.results ht hr] at hke
      exact .inl ⟨r, hset ▸ hrec, hke⟩
    · have hlines := (hexp.mem t).mp ht
      have hplain := notMem_test hlines
      rw [testOf_key hplain notMem_Noresult]
      rw [key_mem_iff hexp.results hplain notMem_Noresult] at hke
      rcases (hfalse t).mp hf with hnil | hvoid
      · refine .inl ⟨Noresult, ?_, hke⟩
        rw [resultSet, if_pos ⟨hnil, hlines⟩]
        exact List.mem_singleton_self Noresult
      · exact .inr ⟨hvoid, hlines, hke⟩
  · rintro (⟨r, hr, hre⟩ | ⟨hvoid, hlines, hno⟩)
    · unfold resultSet at hr
      split at hr
      · rename_i h
        obtain rfl := List.mem_singleton.mp hr
        have hplain := notMem_test h.2
        refine ⟨key test Noresult, (hmem _).mpr (.inr ⟨test, (hexp.mem test).mpr h.2, (hfalse test).mpr (.inl h.1), rfl⟩), ?_,
          (testOf_key hplain notMem_Noresult).symm⟩
        rwa [key_mem_iff hexp.results hplain notMem_Noresult]
      · have hp : (test, r) ∈ new.pairs := mem_pairs_iff.mpr hr
        obtain ⟨ht, hplain⟩ := Compare.pairs_plain hp
        refine ⟨key test r, (hmem _).mpr (.inl ((hnew.results.mem_iff _).mpr ⟨(test, r), hp, rfl⟩)), ?_, (testOf_key ht hplain).symm⟩
        rwa [key_mem_iff hexp.results ht hplain]
    · have hplain := notMem_test hlines
      refine ⟨key test Noresult, (hmem _).mpr (.inr ⟨test, (hexp.mem test).mpr hlines, (hfalse test).mpr (.inr hvoid), rfl⟩), ?_,
        (testOf_key hplain notMem_Noresult).symm⟩
      rwa [key_mem_iff hexp.results hplain notMem_Noresult]

theorem patched_get (hb : Loads b n) (hexp : Loads exp e) :
    ((e.names.map Prod.fst).foldl patch n).names.get test = patched b exp test := by
  rw [(foldl_patch (e.names.map Prod.fst) n).1, hb.get]
  simp only [hexp.mem]
  rfl

end Run

/-- The row of a test. -/
def rowOf (new : Base) (prv : Option Base) (exp : Base) (test : Text) : Row where
  test := test
  new := patched new exp test
  prv := prv.elim [] fun p => patched p exp test
  exp := if isFalse (textFor exp test) then Noresult else textFor exp test

theorem stfCompare3_rows (new : Base) (prv : Option Base) (exp : Base) (hnew : Proper new) :
    ∃ tests : List Text, stfCompare3 new.text (prv.map Base.text) exp.text = some (tests.map (rowOf new prv exp)) ∧ tests.Nodup ∧
      ∀ t, t ∈ tests ↔ Deviates new exp t ∨ (Void new t ∧ linesFor exp t ≠ [] ∧ Noresult ∉ recorded exp t) := by
  obtain ⟨n, hloadn, hn⟩ := loadResults_base new
  obtain ⟨e, hloade, he⟩ := loadResults_base exp
  obtain ⟨hnodup, hmem⟩ := foldl_addDiff e.results ((e.names.map Prod.fst).foldl patch n).results [] List.nodup_nil
  have hperm := List.mergeSort_perm (((e.names.map Prod.fst).foldl patch n).results.foldl (addDiff e.results) [])
    fun a b => !decide (b < a)
  refine ⟨_, ?_, hperm.nodup_iff.mpr hnodup, fun t => ?_⟩
  · cases prv with
    | none =>
      simp only [stfCompare3, hloadn, hloade, Option.map_none, Option.elim_none, Option.bind_eq_bind, Option.bind_some, Option.isSome_none,
        Bool.false_eq_true, if_false, List.foldl_nil]
      refine congrArg some (List.map_congr_left fun t _ => ?_)
      rw [patched_get hn he, he.get]
      rfl
    | some p =>
      obtain ⟨q, hloadq, hq⟩ := loadResults_base p
      simp only [stfCompare3, hloadn, hloade, hloadq, Option.map_some, Option.elim_some, Option.bind_eq_bind, Option.bind_some,
        Option.isSome_some, if_true, List.foldl_nil]
      refine congrArg some (List.map_congr_left fun t _ => ?_)
      rw [patched_get hn he, patched_get hq he, he.get]
      rfl
  · rw [hperm.mem_iff, hmem t, ← mem_diffs_iff hn he hnew]
    simp

/-- A row shows the results if and only if every column does. -/
theorem shows_iff {new : Base} {prv : Option Base} {exp : Base} (hnew : Proper new) (hprv : ∀ p, prv = some p → Proper p)
    (hexp : Proper exp) (test : Text) :
    (rowOf new prv exp test).Shows new prv exp ↔
      Legible new exp test ∧ (∀ p, prv = some p → Legible p exp test) ∧ Legible exp exp test := by
  have hcolumn : Joins (rowOf new prv exp test).prv (prv.elim [] fun p => resultSet p exp test) ↔ ∀ p, prv = some p → Legible p exp test := by
    cases prv with
    | none => exact ⟨fun _ p h => (Option.some_ne_none p h.symm).elim, fun _ => ⟨[], List.Perm.nil, rfl⟩⟩
    | some p =>
      rw [rowOf, Option.elim_some, Option.elim_some, joins_patched_iff (hprv p rfl)]
      exact ⟨fun h q hq => Option.some.inj hq ▸ h, fun h => h p rfl⟩
  constructor
  · rintro ⟨hn, hp, he⟩
    exact ⟨(joins_patched_iff hnew).mp hn, hcolumn.mp hp, (joins_expected_iff hexp).mp he⟩
  · rintro ⟨hn, hp, he⟩
    exact ⟨(joins_patched_iff hnew).mpr hn, hcolumn.mpr hp, (joins_expected_iff hexp).mpr he⟩

/-- The deviating tests are printed with their results if and only if a deviating previous result comes with a deviating new one, no test
gets its `NORESULT` from false names alone, and every file has the deviating tests on one line at most, with other names than false ones. -/
theorem compare3_reports_iff (new : Base) (prv : Option Base) (exp : Base) (hnew : Proper new) (hprv : ∀ p, prv = some p → Proper p)
    (hexp : Proper exp) :
    (∃ rows, stfCompare3 new.text (prv.map Base.text) exp.text = some rows ∧ Reports new prv exp rows) ↔
      (∀ p, prv = some p → ∀ t, Deviates p exp t → Deviates new exp t) ∧
      (∀ t, Void new t → linesFor exp t ≠ [] → Noresult ∈ recorded exp t) ∧
      ∀ t, Deviates new exp t → Legible new exp t ∧ (∀ p, prv = some p → Legible p exp t) ∧ Legible exp exp t := by
  obtain ⟨tests, hrun, hnodup, hmem⟩ := stfCompare3_rows new prv exp hnew
  have htests : (tests.map (rowOf new prv exp)).map Row.test = tests := by
    rw [List.map_map]
    exact List.map_id _
  have hshows := shows_iff hnew hprv hexp
  constructor
  · rintro ⟨rows, hrows, -, hdeviates, hrow⟩
    obtain rfl : tests.map (rowOf new prv exp) = rows := Option.some.inj (hrun.symm.trans hrows)
    rw [htests] at hdeviates
    have hlegible : ∀ t ∈ tests, Legible new exp t ∧ (∀ p, prv = some p → Legible p exp t) ∧ Legible exp exp t :=
      fun t ht => (hshows t).mp (hrow _ (List.mem_map_of_mem ht))
    have hvoid : ∀ t, Void new t → linesFor exp t ≠ [] → Noresult ∈ recorded exp t := by
      intro t hv hlines
      by_contra hno
      exact (hlegible t ((hmem t).mpr (.inr ⟨hv, hlines, hno⟩))).1.names hlines hv
    refine ⟨fun p hp t ht => ?_, hvoid, fun t ht => hlegible t ((hmem t).mpr (.inl ht))⟩
    rcases (hmem t).mp ((hdeviates t).mpr (.inr ⟨p, hp, ht⟩)) with h | ⟨hv, hlines, hno⟩
    · exact h
    · exact absurd (hvoid t hv hlines) hno
  · rintro ⟨hprev, hvoid, hlegible⟩
    have hmem : ∀ t, t ∈ tests ↔ Deviates new exp t := by
      intro t
      rw [hmem t]
      exact ⟨fun h => h.resolve_right fun ⟨hv, hlines, hno⟩ => hno (hvoid t hv hlines), .inl⟩
    refine ⟨_, hrun, htests.symm ▸ hnodup, fun t => ?_, fun row hrow => ?_⟩
    · rw [htests, hmem t]
      exact ⟨.inl, fun h => h.elim id fun ⟨p, hp, ht⟩ => hprev p hp t ht⟩
    · obtain ⟨t, ht, rfl⟩ := List.mem_map.mp hrow
      exact (hshows t).mpr (hlegible t ((hmem t).mp ht))

def failed : Base := ⟨"_bAseLinE_STF\nt FAIL\n".toList, by decide, by decide⟩

theorem failed_proper : Proper failed := by
  have hlines : ∀ line ∈ failed.lines, line = "t FAIL".toList := List.forall_mem_singleton.mpr rfl
  intro line hline
  rw [hlines line hline]
  decide

theorem passed_proper : Proper Compare.Base.passed := by
  have hlines : ∀ line ∈ Compare.Base.passed.lines, line = "t PASS".toList := List.forall_mem_singleton.mpr rfl
  intro line hline
  rw [hlines line hline]
  decide

theorem legible_of_lines {b exp : Base} (hlength : b.lines.length ≤ 1) (hnames : ∀ line ∈ b.lines, resultNames line ≠ [[]] ∧
    resultNames line ≠ [['0']]) (test : Text) : ¬Void b test ∧ Legible b exp test := by
  have hvoid : ¬Void b test := by
    rintro ⟨ls, line, heq, -, hline⟩
    have hmem : line ∈ linesFor b test := heq ▸ List.mem_append_right ls List.mem_cons_self
    obtain ⟨h, h'⟩ := hnames line (List.mem_of_mem_filter hmem)
    exact hline.elim h h'
  exact ⟨hvoid, (List.length_filter_le _ _).trans hlength, fun _ => hvoid⟩

/-- A test that failed before fails again. -/
theorem compare3_reports_failed : ∃ rows, stfCompare3 failed.text (some failed.text) Compare.Base.passed.text = some rows ∧
    Reports failed (some failed) Compare.Base.passed rows := by
  have hfailed : ∀ exp test, ¬Void failed test ∧ Legible failed exp test :=
    fun exp => legible_of_lines (by decide) (List.forall_mem_singleton.mpr (by decide))
  have hpassed : ∀ test, ¬Void Compare.Base.passed test ∧ Legible Compare.Base.passed Compare.Base.passed test :=
    legible_of_lines (by decide) (List.forall_mem_singleton.mpr (by decide))
  refine (compare3_reports_iff failed (some failed) Compare.Base.passed failed_proper (fun p hp => Option.some.inj hp ▸ failed_proper)
    passed_proper).mpr ⟨fun p hp t ht => ?_, fun t ht => absurd ht (hfailed failed t).1,
      fun t _ => ⟨(hfailed _ t).2, fun p hp => ?_, (hpassed t).2⟩⟩
  · exact Option.some.inj hp ▸ ht
  · exact Option.some.inj hp ▸ (hfailed _ t).2

/-- A test that failed before and passes now is not printed. -/
theorem not_compare3_reports : ¬∀ (new : Base) (prv : Option Base) (exp : Base), Proper new → (∀ p, prv = some p → Proper p) → Proper exp →
    ∃ rows, stfCompare3 new.text (prv.map Base.text) exp.text = some rows ∧ Reports new prv exp rows := by
  intro h
  obtain ⟨rows, hrun, -, hdeviates, -⟩ := h Compare.Base.passed (some failed) Compare.Base.passed passed_proper
    (fun p hp => Option.some.inj hp ▸ failed_proper) passed_proper
  have hnone : stfCompare3 Compare.Base.passed.text (some failed.text) Compare.Base.passed.text = some [] := by decide +kernel
  obtain rfl : [] = rows := Option.some.inj (hnone.symm.trans hrun)
  have ht : Deviates failed Compare.Base.passed ['t'] := ⟨"FAIL".toList, by decide, by decide⟩
  exact List.not_mem_nil ((hdeviates ['t']).mpr (.inr ⟨failed, rfl, ht⟩))

end ZfsTest.Stf.Compare3
