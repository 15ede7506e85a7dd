import Mathlib.Data.List.Perm.Basic
import Mathlib.Data.List.Nodup
import ZfsTest.Stf.Filter
import ZfsTest.Text.Separated

/-!
# `stf_compare.pl`

`stf_compare` compares the results of an expected file with those of a new one, both in baseline format. It keeps the results of a file
as the keys of a hash, whose values are all `1`, and takes the differences of the hashes as lists, in which keys and values are mixed.
The values cancel if both hashes have one, so the report is exact unless the expected file is without a result and the new one is not
(`compare_reports_iff`).
-/

namespace ZfsTest.Stf.Compare

open ZfsTest.Stf.Filter (Basekey fields key resultOf)

/-! ## The script -/

inductive Die
  | expected
  | new
  deriving DecidableEq, Repr

/-- The order in which Perl lists the keys of a hash. -/
structure Listing where
  keys : List Text → List Text
  perm : ∀ l, (keys l).Perm l

/-- A hash as a list: its keys, each with the value `1` behind it. -/
def flattened (o : Listing) (h : List Text) : List Text := (o.keys h).flatMap fun k => [k, ['1']]

/-- The file behind its header. -/
def openBase (die : Die) (text : Text) : Except Die (List Text) :=
  match linesOf text with
  | [] => .error die
  | first :: rest => if Basekey <+: first then .ok rest else .error die

/-- The first word of a line. -/
def idOf (line : Text) : Text := (fields line).headD []

/-- The words behind it, which are its results. -/
def resultsOf (line : Text) : List Text := (fields line).tail

def resultKeys (line : Text) : List Text := (resultsOf line).map fun result => key (idOf line) (resultOf result).1

/-- `$h{$key} = 1`, for every result of a line. -/
def load (h : List Text) (line : Text) : List Text := (resultKeys line).foldl (fun h k => h.insert k) h

/-- The keys of `%newnames` and of `%newresult`. -/
structure New where
  names : List Text
  results : List Text

def loadNew (n : New) (line : Text) : New := ⟨n.names.insert (idOf line), load n.results line⟩

/-- The keys of `%expresult`, and the lines that are printed. -/
structure Expected where
  results : List Text
  out : List Text

def loadExpected (names : List Text) (e : Expected) (line : Text) : Expected :=
  ⟨load e.results line, if names.contains (idOf line) then e.out else e.out ++ [['<', ' '] ++ idOf line]⟩

def diffs (o : Listing) (expresult newresult : List Text) : List Text :=
  (flattened o newresult).filter fun x => (flattened o expresult).count x = 0

def diffLine (diff : Text) : Text :=
  ['>', ' '] ++ diff.takeWhile (· ≠ '\x1c') ++ ['\t'] ++ ((diff.dropWhile (· ≠ '\x1c')).drop 1).takeWhile (· ≠ '\x1c')

/-- `stf_compare exp new`: the lines that are printed. -/
def stfCompare (o : Listing) (exp new : Text) : Except Die (List Text) := do
  let expLines ← openBase .expected exp
  let newLines ← openBase .new new
  let n := newLines.foldl loadNew ⟨[], []⟩
  let e := expLines.foldl (loadExpected n.names) ⟨[], []⟩
  return e.out ++ (diffs o e.results n.results).map diffLine

/-! ## Baseline files -/

/-- A file in baseline format. The reader that writes such files splits ids and results at `\034`. -/
structure Base where
  text : Text
  header : Basekey <+: text
  plain : '\x1c' ∉ text

def Base.lines (b : Base) : List Text := (linesOf b.text).tail

/-- The ids with their results. -/
def Base.pairs (b : Base) : List (Text × Text) :=
  b.lines.flatMap fun line => (resultsOf line).map fun result => (idOf line, (resultOf result).1)

def Base.HasResult (b : Base) : Prop := ∃ line ∈ b.lines, resultsOf line ≠ []

/-- The lines of the expected file whose ids are not in the new one. -/
def missing (exp new : Base) : List Text :=
  (exp.lines.filter fun line => !(new.lines.map idOf).contains (idOf line)).map fun line => ['<', ' '] ++ idOf line

/-- One line for each line of the expected file that has no counterpart, one for each pair that is only in the new file, and nothing
else, in some order. -/
def Reports (exp new : Base) (out : List Text) : Prop :=
  ∃ added : List (Text × Text), added.Nodup ∧ (∀ p, p ∈ added ↔ p ∈ new.pairs ∧ p ∉ exp.pairs) ∧
    out.Perm (missing exp new ++ added.map fun p => ['>', ' '] ++ p.1 ++ ['\t'] ++ p.2)

variable {o : Listing} {b exp new : Base}

/-- The lines of a file: the header, and those that count. -/
theorem linesOf_base (b : Base) : ∃ first, linesOf b.text = first :: b.lines ∧ Basekey <+: first := by
  obtain ⟨u, hu⟩ := b.header
  obtain ⟨l, ls, hl⟩ := linesOf_front (u := Basekey) (by decide) (by decide) u
  rw [hu] at hl
  refine ⟨Basekey ++ l, ?_, List.prefix_append Basekey l⟩
  rw [Base.lines, hl, List.tail_cons]

theorem openBase_base (die : Die) (b : Base) : openBase die b.text = .ok b.lines := by
  obtain ⟨first, hlines, hfirst⟩ := linesOf_base b
  rw [openBase, hlines]
  exact if_pos hfirst

theorem notMem_line {line : Text} (hl : line ∈ b.lines) : '\x1c' ∉ line :=
  fun h => b.plain (mem_of_mem_linesOf (List.mem_of_mem_tail hl) h)

theorem notMem_word {line w : Text} (hl : line ∈ b.lines) (hw : w ∈ fields line) : '\x1c' ∉ w :=
  fun h => notMem_line hl (mem_of_mem_words hw h)

theorem notMem_idOf {line : Text} (hl : line ∈ b.lines) : '\x1c' ∉ idOf line := by
  unfold idOf
  cases hf : fields line with
  | nil => exact List.not_mem_nil
  | cons w ws =>
    have hw : w ∈ fields line := by
      rw [hf]
      exact List.mem_cons_self
    exact notMem_word hl hw

theorem notMem_resultOf {line result : Text} (hl : line ∈ b.lines) (hr : result ∈ resultsOf line) : '\x1c' ∉ (resultOf result).1 :=
  fun h => notMem_word hl (List.mem_of_mem_tail hr) ((List.takeWhile_sublist _).subset h)

theorem pairs_plain {p : Text × Text} (hp : p ∈ b.pairs) : '\x1c' ∉ p.1 ∧ '\x1c' ∉ p.2 := by
  obtain ⟨line, hl, hp⟩ := List.mem_flatMap.mp hp
  obtain ⟨result, hr, rfl⟩ := List.mem_map.mp hp
  exact ⟨notMem_idOf hl, notMem_resultOf hl hr⟩

theorem hasResult_iff : b.HasResult ↔ b.pairs ≠ [] := by
  unfold Base.HasResult Base.pairs
  simp [List.flatMap_eq_nil_iff]

/-! ## Keys -/

/-- The pair of a key. -/
def pairOf (k : Text) : Text × Text := (k.takeWhile (· ≠ '\x1c'), ((k.dropWhile (· ≠ '\x1c')).drop 1).takeWhile (· ≠ '\x1c'))

theorem pairOf_key {p : Text × Text} (h : '\x1c' ∉ p.1 ∧ '\x1c' ∉ p.2) : pairOf (key p.1 p.2) = p := by
  have hsecond : p.2.takeWhile (fun c => decide (c ≠ '\x1c')) = p.2 := List.takeWhile_eq_self_iff.mpr (ne_of_notMem h.2)
  unfold pairOf key
  rw [takeWhile_separator h.1, dropWhile_separator h.1, List.drop_one, List.tail_cons, hsecond]

theorem key_ne_one (p : Text × Text) : key p.1 p.2 ≠ ['1'] := by
  intro h
  have hmem : '\x1c' ∈ key p.1 p.2 := List.mem_append_right p.1 List.mem_cons_self
  rw [h] at hmem
  revert hmem
  decide

/-- The keys of the results of a file. -/
structure Keys (b : Base) (h : List Text) : Prop where
  nodup : h.Nodup
  mem_iff : ∀ k, k ∈ h ↔ ∃ p ∈ b.pairs, k = key p.1 p.2

theorem foldl_insert (ks h : List Text) (hh : h.Nodup) :
    (ks.foldl (fun h k => h.insert k) h).Nodup ∧ ∀ k, k ∈ ks.foldl (fun h k => h.insert k) h ↔ k ∈ h ∨ k ∈ ks := by
  induction ks generalizing h with
  | nil => exact ⟨hh, fun k => by simp⟩
  | cons x ks ih =>
    obtain ⟨hnodup, hmem⟩ := ih (h.insert x) (hh.insert)
    refine ⟨hnodup, fun k => ?_⟩
    rw [List.foldl_cons, hmem k, List.mem_insert_iff, List.mem_cons]
    tauto

theorem foldl_load (lines h : List Text) (hh : h.Nodup) :
    (lines.foldl load h).Nodup ∧ ∀ k, k ∈ lines.foldl load h ↔ k ∈ h ∨ ∃ line ∈ lines, k ∈ resultKeys line := by
  induction lines generalizing h with
  | nil => exact ⟨hh, fun k => by simp⟩
  | cons line lines ih =>
    obtain ⟨hnodup, hmem⟩ := foldl_insert (resultKeys line) h hh
    obtain ⟨hnodup', hmem'⟩ := ih (load h line) hnodup
    refine ⟨hnodup', fun k => ?_⟩
    rw [List.foldl_cons, hmem' k, load, hmem k, List.exists_mem_cons_iff, or_assoc]

theorem keys_load (b : Base) : Keys b (b.lines.foldl load []) := by
  obtain ⟨hnodup, hmem⟩ := foldl_load b.lines [] List.nodup_nil
  refine ⟨hnodup, fun k => ?_⟩
  rw [hmem k]
  unfold Base.pairs resultKeys
  simp only [List.not_mem_nil, false_or, List.mem_flatMap, List.mem_map]
  constructor
  · rintro ⟨line, hl, result, hr, rfl⟩
    exact ⟨_, ⟨line, hl, result, hr, rfl⟩, rfl⟩
  · rintro ⟨p, ⟨line, hl, result, hr, rfl⟩, rfl⟩
    exact ⟨line, hl, result, hr, rfl⟩

theorem foldl_loadNew (lines : List Text) (n : New) : (lines.foldl loadNew n).results = lines.foldl load n.results ∧
    ∀ id, id ∈ (lines.foldl loadNew n).names ↔ id ∈ n.names ∨ id ∈ lines.map idOf := by
  induction lines generalizing n with
  | nil => exact ⟨rfl, fun id => by simp⟩
  | cons line lines ih =>
    obtain ⟨hresults, hnames⟩ := ih (loadNew n line)
    refine ⟨hresults, fun id => ?_⟩
    rw [List.foldl_cons, hnames id, loadNew, List.mem_insert_iff, List.map_cons, List.mem_cons]
    tauto

theorem foldl_loadExpected (names lines : List Text) (e : Expected) :
    lines.foldl (loadExpected names) e = ⟨lines.foldl load e.results,
      e.out ++ (lines.filter fun line => !names.contains (idOf line)).map fun line => ['<', ' '] ++ idOf line⟩ := by
  induction lines generalizing e with
  | nil => simp
  | cons line lines ih =>
    rw [List.foldl_cons, ih]
    by_cases h : idOf line ∈ names
    · simp [loadExpected, h]
    · simp [loadExpected, h]

/-- What is printed: the missing lines, and the lines of the differences of the keys. -/
theorem stfCompare_ok (o : Listing) (exp new : Base) : ∃ he hn, Keys exp he ∧ Keys new hn ∧
    stfCompare o exp.text new.text = .ok (missing exp new ++ (diffs o he hn).map diffLine) := by
  refine ⟨_, _, keys_load exp, keys_load new, ?_⟩
  obtain ⟨hresults, hnames⟩ := foldl_loadNew new.lines ⟨[], []⟩
  have hmissing : (exp.lines.filter fun line => !(new.lines.foldl loadNew ⟨[], []⟩).names.contains (idOf line)) =
      exp.lines.filter fun line => !(new.lines.map idOf).contains (idOf line) := by
    refine List.filter_congr fun line _ => ?_
    rw [List.contains_eq_mem, List.contains_eq_mem]
    simp [hnames]
  unfold stfCompare missing
  rw [openBase_base, openBase_base]
  simp only [bind, Except.bind, foldl_loadExpected, hmissing, hresults, List.nil_append]
  rfl

/-! ## The differences -/

variable {he hn : List Text}

theorem Keys.key_pairOf (hk : Keys b he) {k : Text} (h : k ∈ he) : key (pairOf k).1 (pairOf k).2 = k := by
  obtain ⟨p, hp, rfl⟩ := (hk.mem_iff k).mp h
  rw [pairOf_key (pairs_plain hp)]

theorem Keys.pairOf_mem_iff (hk : Keys b he) {k : Text} : k ∈ he ↔ pairOf k ∈ b.pairs ∧ key (pairOf k).1 (pairOf k).2 = k := by
  constructor
  · intro h
    obtain ⟨p, hp, rfl⟩ := (hk.mem_iff k).mp h
    rw [pairOf_key (pairs_plain hp)]
    exact ⟨hp, rfl⟩
  · rintro ⟨hp, heq⟩
    exact (hk.mem_iff k).mpr ⟨_, hp, heq.symm⟩

theorem Keys.eq_nil_iff (hk : Keys b he) : he = [] ↔ b.pairs = [] := by
  constructor
  · intro h
    refine List.eq_nil_iff_forall_not_mem.mpr fun p hp => ?_
    have hmem := (hk.mem_iff (key p.1 p.2)).mpr ⟨p, hp, rfl⟩
    rw [h] at hmem
    cases hmem
  · intro h
    refine List.eq_nil_iff_forall_not_mem.mpr fun k hmem => ?_
    obtain ⟨p, hp, -⟩ := (hk.mem_iff k).mp hmem
    rw [h] at hp
    cases hp

theorem mem_flattened {x : Text} : x ∈ flattened o he ↔ x ∈ he ∨ (he ≠ [] ∧ x = ['1']) := by
  unfold flattened
  simp only [List.mem_flatMap, (o.perm he).mem_iff, List.mem_cons, List.not_mem_nil, or_false]
  constructor
  · rintro ⟨k, hk, rfl | rfl⟩
    · exact Or.inl hk
    · exact Or.inr ⟨List.ne_nil_of_mem hk, rfl⟩
  · rintro (h | ⟨hne, rfl⟩)
    · exact ⟨x, h, Or.inl rfl⟩
    · obtain ⟨k, hk⟩ := List.exists_mem_of_ne_nil he hne
      exact ⟨k, hk, Or.inr rfl⟩

/-- Without the value, the keys of a flattened hash are left. -/
theorem filter_flattened (P : Text → Bool) (hone : P ['1'] = false) : (flattened o hn).filter P = (o.keys hn).filter P := by
  unfold flattened
  induction o.keys hn with
  | nil => rfl
  | cons k ks ih =>
    rw [List.flatMap_cons, List.filter_append, ih, List.filter_cons]
    by_cases hk : P k = true
    · simp [hk, hone]
    · simp [hk, hone]

/-- If the expected file has results, the values of the hashes cancel. -/
theorem diffs_eq (hnew : Keys new hn) (hne : he ≠ []) : diffs o he hn = (o.keys hn).filter fun k => k ∉ he := by
  have hone : decide ((flattened o he).count ['1'] = 0) = false := by
    rw [decide_eq_false_iff_not, List.count_eq_zero, not_not]
    exact mem_flattened.mpr (Or.inr ⟨hne, rfl⟩)
  unfold diffs
  rw [filter_flattened _ hone]
  refine List.filter_congr fun k hk => ?_
  obtain ⟨p, -, rfl⟩ := (hnew.mem_iff k).mp ((o.perm hn).mem_iff.mp hk)
  have hp := key_ne_one p
  rw [decide_eq_decide, List.count_eq_zero, mem_flattened]
  tauto

/-- If it has none, all keys and values of the new file are differences. -/
theorem diffs_nil : diffs o [] hn = flattened o hn := by
  have hempty : flattened o [] = [] := List.eq_nil_iff_forall_not_mem.mpr fun x hx => by simp [mem_flattened] at hx
  unfold diffs
  rw [hempty]
  simp

theorem length_flattened : (flattened o hn).length = 2 * hn.length := by
  have hlen : ∀ ks : List Text, (ks.flatMap fun k => [k, ['1']]).length = 2 * ks.length := by
    intro ks
    induction ks with
    | nil => rfl
    | cons k ks ih =>
      rw [List.flatMap_cons, List.length_append, ih]
      simp only [List.length_cons, List.length_nil]
      omega
  unfold flattened
  rw [hlen, (o.perm hn).length_eq]

/-- The differences are the keys that only the new file has, each once. -/
theorem diffs_keys (hnew : Keys new hn) (h : he = [] → hn = []) :
    (diffs o he hn).Nodup ∧ ∀ k, k ∈ diffs o he hn ↔ k ∈ hn ∧ k ∉ he := by
  by_cases hne : he = []
  · have hnil : diffs o he hn = [] := by
      rw [hne, diffs_nil, h hne]
      exact List.length_eq_zero_iff.mp length_flattened
    rw [hnil, h hne]
    exact ⟨List.nodup_nil, fun k => by simp⟩
  · rw [diffs_eq hnew hne]
    refine ⟨((o.perm hn).nodup_iff.mpr hnew.nodup).filter _, fun k => ?_⟩
    rw [List.mem_filter, decide_eq_true_eq, (o.perm hn).mem_iff]

theorem reports_of_keys (hexp : Keys exp he) (hnew : Keys new hn) (h : he = [] → hn = []) :
    Reports exp new (missing exp new ++ (diffs o he hn).map diffLine) := by
  obtain ⟨hnodup, hmem⟩ := diffs_keys (o := o) hnew h
  have hkey : ∀ k ∈ diffs o he hn, key (pairOf k).1 (pairOf k).2 = k := fun k hk => hnew.key_pairOf ((hmem k).mp hk).1
  refine ⟨(diffs o he hn).map pairOf, List.Nodup.map_on ?_ hnodup, fun p => ?_, ?_⟩
  · intro k hk k' hk' heq
    rw [← hkey k hk, ← hkey k' hk', heq]
  · rw [List.mem_map]
    constructor
    · rintro ⟨k, hk, rfl⟩
      obtain ⟨hin, hout⟩ := (hmem k).mp hk
      exact ⟨(hnew.pairOf_mem_iff.mp hin).1, fun hp => hout (hexp.pairOf_mem_iff.mpr ⟨hp, hkey k hk⟩)⟩
    · rintro ⟨hp, hout⟩
      have hpair := pairOf_key (pairs_plain hp)
      refine ⟨key p.1 p.2, (hmem _).mpr ⟨(hnew.mem_iff _).mpr ⟨p, hp, rfl⟩, fun hk => hout ?_⟩, hpair⟩
      rw [← hpair]
      exact (hexp.pairOf_mem_iff.mp hk).1
  · rw [List.map_map]
    exact List.Perm.refl _

theorem not_reports_of_keys (hnew : Keys new hn) (hexp : exp.pairs = []) (hne : hn ≠ []) :
    ¬Reports exp new (missing exp new ++ (diffs o [] hn).map diffLine) := by
  rintro ⟨added, hnodup, hmem, hperm⟩
  have hall : ∀ p, p ∈ added ↔ p ∈ new.pairs := fun p => by rw [hmem p, hexp]; simp
  have hkeys : (added.map fun p => key p.1 p.2).Perm hn := by
    refine (List.perm_ext_iff_of_nodup (List.Nodup.map_on ?_ hnodup) hnew.nodup).mpr fun k => ?_
    · intro p hp q hq heq
      rw [← pairOf_key (pairs_plain ((hall p).mp hp)), ← pairOf_key (pairs_plain ((hall q).mp hq)), heq]
    · rw [hnew.mem_iff, List.mem_map]
      constructor
      · rintro ⟨p, hp, rfl⟩
        exact ⟨p, (hall p).mp hp, rfl⟩
      · rintro ⟨p, hp, rfl⟩
        exact ⟨p, (hall p).mpr hp, rfl⟩
  have hcount := hkeys.length_eq
  have hlen := hperm.length_eq
  have hpos : 0 < hn.length := List.length_pos_iff.mpr hne
  rw [diffs_nil, List.length_append, List.length_append, List.length_map, List.length_map, length_flattened] at hlen
  rw [List.length_map] at hcount
  omega

/-- What `stf_filter` writes has a result, the heading of its totals. -/
theorem hasResult_report {st : Filter.State} {vers : Text} (hout : st.out = Basekey ++ [' '] ++ vers) (hb : b.text = Filter.report st) :
    b.HasResult := by
  obtain ⟨l, ls, ls', hl⟩ := Filter.linesOf_report hout
  refine ⟨"Result Total:".toList, ?_, by decide⟩
  unfold Base.lines
  rw [hb, hl]
  exact List.mem_append_right ls List.mem_cons_self

/-- The report is exact if the expected file has a result or the new one has none. -/
theorem compare_reports_iff (o : Listing) (exp new : Base) :
    (∃ out, stfCompare o exp.text new.text = .ok out ∧ Reports exp new out) ↔ (new.HasResult → exp.HasResult) := by
  obtain ⟨he, hn, hexp, hnew, hrun⟩ := stfCompare_ok o exp new
  rw [hrun, hasResult_iff, hasResult_iff, ← not_imp_not, not_not, not_not]
  constructor
  · rintro ⟨out, hout, hr⟩ hnone
    obtain rfl := Except.ok.inj hout
    have hnil : he = [] := hexp.eq_nil_iff.mpr hnone
    by_contra hsome
    rw [hnil] at hr
    exact not_reports_of_keys hnew hnone (fun h => hsome (hnew.eq_nil_iff.mp h)) hr
  · intro h
    exact ⟨_, rfl, reports_of_keys hexp hnew fun hnil => hnew.eq_nil_iff.mpr (h (hexp.eq_nil_iff.mp hnil))⟩

/-- A file with the line `t PASS`, and one without a line. -/
def Base.passed : Base := ⟨"_bAseLinE_STF\nt PASS\n".toList, by decide, by decide⟩
def Base.empty : Base := ⟨"_bAseLinE_STF\n".toList, by decide, by decide⟩

/-- Against a file without a line, `t PASS` is printed with a line for the value of its key. -/
theorem not_compare_reports : ¬∀ (o : Listing) (exp new : Base),
    ∃ out, stfCompare o exp.text new.text = .ok out ∧ Reports exp new out := by
  intro h
  obtain ⟨out, hout, added, hnodup, hmem, hperm⟩ := h ⟨id, fun l => List.Perm.refl l⟩ Base.empty Base.passed
  have hrun : stfCompare ⟨id, fun l => List.Perm.refl l⟩ Base.empty.text Base.passed.text =
      .ok ["> t\tPASS".toList, "> 1\t".toList] := by decide
  have hpairs : Base.passed.pairs = [("t".toList, "PASS".toList)] := by decide
  have hmissing : missing Base.empty Base.passed = [] := by decide
  obtain rfl := Except.ok.inj (hout.symm.trans hrun)
  rw [hmissing, List.nil_append] at hperm
  have hone : ∀ p ∈ added, p = ("t".toList, "PASS".toList) := by
    intro p hp
    have hin := ((hmem p).mp hp).1
    rw [hpairs] at hin
    exact List.mem_singleton.mp hin
  obtain ⟨p, hp, heq⟩ := List.mem_map.mp (hperm.mem_iff.mp (show "> 1\t".toList ∈ _ by decide))
  rw [hone p hp] at heq
  revert heq
  decide

end ZfsTest.Stf.Compare
