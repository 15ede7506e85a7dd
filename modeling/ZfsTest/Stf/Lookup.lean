import Mathlib.Data.List.Find
import ZfsTest.Text.Regex
import ZfsTest.Text.Separated
import ZfsTest.Text.Words

/-!
# Looking up a tool

`stf_configlookuptool` reads the configuration files record by record. It follows the headings to know whether it is in the table asked
for, writes the mode and the tool over the wildcards of a row, and prints one column of the first row whose first two columns are then the
mode and the tool. Before it prints, `{na}` is deleted everywhere in the record, and the record is split into columns again. So a column
is right exactly where it keeps its place: none is lost up to it and it has no `{na}` in it, or it is `{na}` itself and nothing is left to
slide into its place (`left_eq_wanted_iff`).
-/

namespace ZfsTest.Stf.Lookup

/-! ## Records -/

/-- The characters between two fields of a record. -/
def isGap (c : Char) : Bool := c = ' ' || c = '\t' || c = '\n'

/-- `[[:space:]]`. -/
def isSpace (c : Char) : Bool := isGap c || c = '\x0b' || c = '\x0c' || c = '\r'

structure Record where
  text : Text
  fields : List Text
  deriving DecidableEq, Repr

namespace Record

/-- An assignment to `$0`. -/
def ofText (t : Text) : Record := ⟨t, words isGap t⟩

/-- `$n`. -/
def field (r : Record) (n : Nat) : Text := (r.fields[n - 1]?).getD []

/-- `$n = v`: the text is put together again from the fields, with a blank between two of them. -/
def assign (r : Record) (n : Nat) (v : Text) : Record :=
  let fields := (r.fields ++ List.replicate (n - r.fields.length) []).set (n - 1) v
  ⟨[' '].intercalate fields, fields⟩

end Record

def na : Text := "{na}".toList

def deleteNa : Text → Text
  | '{' :: 'n' :: 'a' :: '}' :: t => deleteNa t
  | c :: t => c :: deleteNa t
  | [] => []

/-- `gsub("{na}", "")`: the record changes only where there is something to delete. -/
def Record.gsubNa (r : Record) : Record := if na <:+: r.text then .ofText (deleteNa r.text) else r

/-! ## The script -/

inductive Column
  | flags
  | path
  | aliasName
  deriving DecidableEq, Repr

/-- The tests of `tolower(outcolumn)`, in their order. -/
def columnOf (outcolumn : Text) : Option Column :=
  let t := outcolumn.map Char.toLower
  if "flags".toList <:+: t then some .flags
  else if "path".toList <:+: t then some .path
  else if "alias".toList <:+: t then some .aliasName
  else none

/-- A search for a regular expression. An expression `^w:$` with a word `w` of plain characters finds `w:` alone. -/
structure Awk where
  search : Text → Text → Bool
  search_name : ∀ w t : Text, (∀ c ∈ w, Regex.isMeta c = false) →
    search ('^' :: (w ++ [':', '$'])) t = decide (t = w ++ [':'])

/-- A text that is one field, so that it compares as a string where it does not look like a number. -/
abbrev Word : Type := {w : Text // w ≠ [] ∧ ∀ c ∈ w, isGap c = false}

theorem word_of_all {w : Text} (h : w ≠ [] ∧ w.all fun c => !isGap c) : w ≠ [] ∧ ∀ c ∈ w, isGap c = false := by
  simpa using h

structure Query where
  table : Text
  mode : Word
  tool : Word
  outcolumn : Text
  column : Column
  asked : columnOf outcolumn = some column

/-- What the script leaves: its exit status and what it printed. -/
structure Ended where
  status : Nat
  printed : Text
  deriving DecidableEq, Repr

def isSkipped (t : Text) : Bool := t.head? = some '#' || t.all isSpace

def heading : Text := "%Table:".toList

def isHeading (t : Text) : Bool := heading <:+: t

/-- `/\\$/`. -/
def isContinued (t : Text) : Bool := t.getLast? = some '\\'

/-- `substr($0, 1, index($0, "\\") - 1)`. -/
def uncontinued (t : Text) : Text := t.takeWhile (· ≠ '\\')

section

variable (awk : Awk) (q : Query)

def printcolumn (r : Record) : Text :=
  let r := r.gsubNa
  match q.column with
  | .flags => ((((r.assign 4 []).assign 3 []).assign 2 []).assign 1 []).text ++ ['\n']
  | .path => r.field 4 ++ ['\n']
  | .aliasName => r.field 3 ++ ['\n']

/-- The pattern of the heading of the table. -/
def isAsked (r : Record) : Bool := awk.search ('^' :: (q.table ++ [':', '$'])) (r.field 2)

/-- The wildcards are any words with a star in them. -/
def isWild (w : Text) : Bool := w.contains '*'

def wild (r : Record) : Record :=
  let r := if isWild (r.field 1) then r.assign 1 q.mode.val else r
  let r := if isWild (r.field 2) then r.assign 2 q.tool.val else r
  if isWild (r.field 3) then r.assign 3 q.tool.val else r

/-- The rules behind the two that skip and join lines: whether the table goes on, and what is printed before the script exits. -/
def onRecord (intable : Bool) (t : Text) : Bool × Option Text :=
  let r := Record.ofText t
  if isHeading t && isAsked awk q r then (true, none)
  else if isHeading t then (false, none)
  else if intable then
    let r := wild q r
    (true, if r.field 1 = q.mode.val ∧ r.field 2 = q.tool.val then some (printcolumn q r) else none)
  else (false, none)

structure State where
  intable : Bool
  /-- The record that ends in a backslash so far. -/
  pending : Option Text
  /-- The line that `getline` read last. -/
  continued : Text

def State.start : State := ⟨false, none, []⟩

/-- The lines of all files; `none` where the loop of `getline` does not end. -/
def run : State → List Text → Option Ended
  | s, [] =>
    match s.pending with
    | none => some ⟨1, []⟩
    | some p =>
      -- getline leaves its variable as it is at the end of the input
      let t := uncontinued p ++ s.continued
      if isContinued t then none
      else
        match (onRecord awk q s.intable t).2 with
        | some printed => some ⟨0, printed⟩
        | none => some ⟨1, []⟩
  | s, l :: ls =>
    match s.pending with
    | some p =>
      let t := uncontinued p ++ l
      if isContinued t then run ⟨s.intable, some t, l⟩ ls
      else
        match onRecord awk q s.intable t with
        | (_, some printed) => some ⟨0, printed⟩
        | (intable, none) => run ⟨intable, none, l⟩ ls
    | none =>
      if isSkipped l then run s ls
      else if isContinued l then run ⟨s.intable, some l, s.continued⟩ ls
      else
        match onRecord awk q s.intable l with
        | (_, some printed) => some ⟨0, printed⟩
        | (intable, none) => run ⟨intable, none, s.continued⟩ ls

end

/-! ## Configuration files -/

/-- `%Table: Name:`, and whatever explains the columns. -/
def IsTable (t : Text) : Prop := ∃ name rest, words isGap t = heading :: (name ++ [':']) :: rest

/-- Comments, blank lines, headings and rows of at least four columns. -/
def Formed (t : Text) : Prop :=
  isSkipped t = true ∨ isContinued t = false ∧ (IsTable t ∨ 4 ≤ (words isGap t).length)

structure Config where
  lines : List Text
  formed : ∀ t ∈ lines, Formed t

/-- `stf_configlookuptool`. -/
def lookup (awk : Awk) (q : Query) (files : List Config) : Option Ended := run awk q .start (files.flatMap Config.lines)

/-! ## The tables -/

/-- The name in a heading. -/
def nameOf (t : Text) : Option Text :=
  match words isGap t with
  | w :: name :: _ => if w = heading && name.getLast? = some ':' then some name.dropLast else none
  | _ => none

/-- The rows of the tables of a name in a file; a table ends at the next heading and at the end of the file. -/
def rowsFrom (table : Text) : Bool → List Text → List (List Text)
  | _, [] => []
  | on, t :: ts =>
    if isSkipped t then rowsFrom table on ts
    else
      match nameOf t with
      | some name => rowsFrom table (name = table) ts
      | none => if on then words isGap t :: rowsFrom table on ts else rowsFrom table on ts

def rows (table : Text) (files : List Config) : List (List Text) := files.flatMap fun f => rowsFrom table false f.lines

/-- The columns that are asked for. -/
def place (c : Column) (row : List Text) : List Text :=
  match c with
  | .flags => row.drop 4
  | .path => row[3]?.toList
  | .aliasName => row[2]?.toList

section

variable (q : Query)

def Keyed (row : List Text) : Prop :=
  (row[0]? = some q.mode.val ∨ row[0]? = some ['*']) ∧ (row[1]? = some q.tool.val ∨ row[1]? = some ['*'])

instance (row : List Text) : Decidable (Keyed q row) := inferInstanceAs (Decidable (_ ∧ _))

/-- The words that a row gives: a star in the alias is the tool. -/
def wanted (row : List Text) : List Text :=
  ((place q.column row).filter (· ≠ na)).map fun w => if q.column = .aliasName ∧ w = ['*'] then q.tool.val else w

/-- Exit status 0 if and only if there is a row for the mode and the tool, and then the column of the first one is printed. -/
def Answers (files : List Config) (o : Option Ended) : Prop :=
  ∃ e ∈ o,
    match (rows q.table files).find? (Keyed q) with
    | none => e.status ≠ 0
    | some row => e.status = 0 ∧ words isGap e.printed = wanted q row

end

/-! ## What is left of a row -/

theorem deleteNa_cons {c : Char} {t : Text} (h : ∀ u, c :: t ≠ na ++ u) : deleteNa (c :: t) = c :: deleteNa t := by
  rw [deleteNa.eq_def]
  split
  · rename_i u hu
    exact absurd hu (h u)
  · rename_i d u hne hu
    cases hu
    rfl
  · rename_i hu
    cases hu

theorem deleteNa_na (t : Text) : deleteNa (na ++ t) = deleteNa t := rfl

/-- Induction along the deletion. -/
theorem deleteNa_induction {P : Text → Prop} (hna : ∀ u, P u → P (na ++ u))
    (hcons : ∀ c u, (∀ v, c :: u ≠ na ++ v) → P u → P (c :: u)) (hnil : P []) (t : Text) : P t := by
  induction t using deleteNa.induct with
  | case1 u ih => exact hna u ih
  | case2 c u hno ih =>
    refine hcons c u (fun v hv => ?_) ih
    cases hv
    exact hno v rfl rfl
  | case3 => exact hnil

/-- What is deleted does not reach over a gap. -/
theorem deleteNa_append {c : Char} (hc : isGap c = true) (u t : Text) :
    deleteNa (u ++ c :: t) = deleteNa u ++ c :: deleteNa t := by
  have hna : c ∉ na := by
    intro hmem
    have hgap := (word_of_all (w := na) (by decide)).2
    rw [hgap c hmem] at hc
    cases hc
  have hbehind : ∀ w : Text, (∀ v, w ≠ na ++ v) → ∀ v, w ++ c :: t ≠ na ++ v := by
    intro w hw v hv
    obtain ⟨v, hv⟩ := front_of_separator hna ⟨v, hv.symm⟩
    exact hw v hv.symm
  induction u using deleteNa_induction with
  | hna u ih => rw [List.append_assoc, deleteNa_na, deleteNa_na, ih]
  | hcons d u hno ih =>
    rw [deleteNa_cons hno, List.cons_append, deleteNa_cons (t := u ++ c :: t) (hbehind (d :: u) hno), ih, List.cons_append]
  | hnil =>
    rw [List.nil_append, deleteNa_cons (hbehind [] fun v hv => nomatch hv)]
    rfl

theorem mem_deleteNa {t : Text} {c : Char} (hc : c ∈ deleteNa t) : c ∈ t := by
  induction t using deleteNa_induction with
  | hna u ih => exact List.mem_append_right na (ih hc)
  | hcons d u hno ih =>
    rw [deleteNa_cons hno] at hc
    rcases List.mem_cons.mp hc with rfl | hc
    · exact List.mem_cons_self
    · exact List.mem_cons_of_mem d (ih hc)
  | hnil => cases hc

/-- The columns that are left when `{na}` is deleted. -/
def kept (ws : List Text) : List Text := (ws.map deleteNa).filter (· ≠ [])

theorem kept_append (us vs : List Text) : kept (us ++ vs) = kept us ++ kept vs := by
  simp [kept]

/-- The words of a text from which `{na}` is deleted. -/
theorem words_deleteNa (t : Text) : words isGap (deleteNa t) = kept (words isGap t) := by
  have hone : ∀ u : Text, (∀ c ∈ u, isGap c = false) → words isGap (deleteNa u) = kept (words isGap u) := by
    intro u hu
    rw [kept, words_unsplit hu, words_unsplit fun c hc => hu c (mem_deleteNa hc)]
    by_cases hne : u = []
    · rw [hne]
      rfl
    · simp [hne]
  induction t using words_induction isGap with
  | hsingle u hu => exact hone u hu
  | hsplit u c t hu hc ih =>
    rw [deleteNa_append hc, words_append hc, words_append hc, hone u hu, ih, kept_append]

/-- Where there is nothing to delete, nothing changes. -/
theorem deleteNa_none {t : Text} (h : ¬na <:+: t) : deleteNa t = t := by
  induction t with
  | nil => rfl
  | cons c t ih =>
    rw [deleteNa_cons fun u hu => h ⟨[], u, by rw [hu]; rfl⟩, ih fun hin => h (hin.trans (List.suffix_cons c t).isInfix)]

theorem length_deleteNa_le (t : Text) : (deleteNa t).length ≤ t.length := by
  induction t using deleteNa_induction with
  | hna u ih => exact ih.trans (Nat.le_add_right u.length 4)
  | hcons d u hno ih =>
    rw [deleteNa_cons hno]
    exact Nat.succ_le_succ ih
  | hnil => exact Nat.le_refl _

theorem deleteNa_eq_self_iff {t : Text} : deleteNa t = t ↔ ¬na <:+: t := by
  refine ⟨fun h => ?_, deleteNa_none⟩
  induction t using deleteNa_induction with
  | hna u ih =>
    have hlen := congrArg List.length h
    have hle := length_deleteNa_le u
    rw [deleteNa_na, List.length_append, show na.length = 4 from rfl] at hlen
    omega
  | hcons d u hno ih =>
    rw [deleteNa_cons hno, List.cons.injEq] at h
    intro hin
    rcases List.infix_cons_iff.mp hin with ⟨v, hv⟩ | hin
    · exact hno v hv.symm
    · exact ih h.2 hin
  | hnil => exact fun h => nomatch List.infix_nil.mp h

/-- The number of the others. -/
def lost (ws : List Text) : Nat := ws.countP fun w => deleteNa w = []

theorem kept_cons (w : Text) (ws : List Text) : kept (w :: ws) = if deleteNa w = [] then kept ws else deleteNa w :: kept ws := by
  simp only [kept, List.map_cons, List.filter_cons, decide_eq_true_eq, ne_eq]
  split <;> simp_all

theorem lost_cons (w : Text) (ws : List Text) : lost (w :: ws) = if deleteNa w = [] then lost ws + 1 else lost ws := by
  by_cases h : deleteNa w = [] <;> simp [lost, h]

theorem length_kept (ws : List Text) : (kept ws).length + lost ws = ws.length := by
  induction ws with
  | nil => rfl
  | cons w ws ih =>
    rw [kept_cons, lost_cons]
    split
    · rw [List.length_cons, ← ih]
      omega
    · rw [List.length_cons, List.length_cons, ← ih]
      omega

theorem kept_drop (us vs : List Text) : (kept (us ++ vs)).drop us.length = (kept vs).drop (lost us) := by
  have hlen := length_kept us
  rw [kept_append, List.drop_append, List.drop_eq_nil_of_le (by omega), List.nil_append]
  congr 1
  omega

/-- What stands in the place of a column: itself, if none is lost up to there, else a column from behind. -/
theorem kept_place (us : List Text) (w : Text) (vs : List Text) :
    (kept (us ++ w :: vs))[us.length]? =
      if lost (us ++ [w]) = 0 then some (deleteNa w) else (kept vs)[lost (us ++ [w]) - 1]? := by
  have hlost : lost (us ++ [w]) = lost us + if deleteNa w = [] then 1 else 0 := by
    rw [lost, List.countP_append, ← lost, ← lost, lost_cons]
    split <;> rfl
  have hlen := length_kept us
  rw [kept_append, kept_cons, hlost]
  by_cases hw : deleteNa w = []
  · rw [if_pos hw, if_pos hw, if_neg (Nat.succ_ne_zero _), List.getElem?_append_right (by omega)]
    congr 1
    omega
  · rw [if_neg hw, if_neg hw, Nat.add_zero]
    by_cases hus : lost us = 0
    · rw [if_pos hus, List.getElem?_append_right (by omega), show us.length - (kept us).length = 0 by omega]
      rfl
    · rw [if_neg hus, List.getElem?_append_right (by omega), List.getElem?_cons, if_neg (by omega)]
      congr 1
      omega

theorem length_kept_le (ws : List Text) : (kept ws).length ≤ (ws.filter (· ≠ na)).length := by
  induction ws with
  | nil => exact Nat.le_refl 0
  | cons w ws ih =>
    rw [kept_cons]
    by_cases hw : w = na
    · rw [hw, if_pos (by decide), List.filter_cons_of_neg (by simp)]
      exact ih
    · rw [List.filter_cons_of_pos (by simpa using hw), List.length_cons]
      split
      · exact Nat.le_succ_of_le ih
      · exact Nat.succ_le_succ ih

/-- The other columns are left as they are, when none of them has `{na}` in it. -/
theorem kept_eq_iff {ws : List Text} (hne : ∀ w ∈ ws, w ≠ []) :
    kept ws = ws.filter (· ≠ na) ↔ ∀ w ∈ ws, w = na ∨ ¬na <:+: w := by
  induction ws with
  | nil => simp [kept]
  | cons w ws ih =>
    have ih := ih fun u hu => hne u (List.mem_cons_of_mem w hu)
    rw [List.forall_mem_cons, ← ih, kept_cons]
    by_cases hw : w = na
    · rw [hw, if_pos (by decide), List.filter_cons_of_neg (by simp)]
      simp
    · rw [List.filter_cons_of_pos (by simpa using hw)]
      by_cases hgone : deleteNa w = []
      · have hin : na <:+: w := by
          by_contra hno
          exact hne w List.mem_cons_self ((deleteNa_none hno).symm.trans hgone)
        rw [if_pos hgone]
        constructor
        · intro h
          have hlen := congrArg List.length h
          have hle := length_kept_le ws
          rw [List.length_cons] at hlen
          omega
        · rintro ⟨h | h, -⟩
          · exact absurd h hw
          · exact absurd hin h
      · rw [if_neg hgone, List.cons.injEq, deleteNa_eq_self_iff]
        simp [hw]

/-- Columns that slide forward are right only where all are empty. -/
theorem kept_drop_iff {ws : List Text} (hne : ∀ w ∈ ws, w ≠ []) (n : Nat) :
    (kept ws).drop n = ws.filter (· ≠ na) ↔ n = 0 ∧ (∀ w ∈ ws, w = na ∨ ¬na <:+: w) ∨ ∀ w ∈ ws, w = na := by
  by_cases hall : ∀ w ∈ ws, w = na
  · have hnone : ws.filter (· ≠ na) = [] := List.filter_eq_nil_iff.mpr fun w hw => by simpa using hall w hw
    have hkept := (kept_eq_iff hne).mpr fun w hw => .inl (hall w hw)
    rw [hkept, hnone, List.drop_nil]
    exact iff_of_true rfl (.inr hall)
  · have hsome : ws.filter (· ≠ na) ≠ [] := fun hnone => hall fun w hw => by simpa using List.filter_eq_nil_iff.mp hnone w hw
    constructor
    · intro h
      have hlen := congrArg List.length h
      have hle := length_kept_le ws
      have hpos := List.length_pos_iff.mpr hsome
      rw [List.length_drop] at hlen
      obtain rfl : n = 0 := by omega
      exact .inl ⟨rfl, (kept_eq_iff hne).mp h⟩
    · rintro (⟨rfl, h⟩ | h)
      · exact (kept_eq_iff hne).mpr h
      · exact absurd h hall

/-! ## The record of a row -/

/-- The fields of a record are the words of its text. -/
def Record.Split (r : Record) : Prop := r.fields = words isGap r.text

theorem Record.split_ofText (t : Text) : (Record.ofText t).Split := rfl

theorem Record.fields_assign {r : Record} {n : Nat} (hn : n ≤ r.fields.length) (v : Text) :
    (r.assign n v).fields = r.fields.set (n - 1) v := by
  have hzero : n - r.fields.length = 0 := by omega
  simp [Record.assign, hzero]

/-- A word in the place of a field leaves the other fields. -/
theorem Record.Split.assign {r : Record} (h : r.Split) {n : Nat} (hn : n ≤ r.fields.length) (v : Word) : (r.assign n v.val).Split := by
  have hfields := Record.fields_assign hn v.val
  have htext : (r.assign n v.val).text = [' '].intercalate (r.assign n v.val).fields := rfl
  have hword : ∀ w ∈ r.fields.set (n - 1) v.val, words isGap w = [w] := by
    intro w hw
    rcases List.mem_or_eq_of_mem_set hw with hw | rfl
    · rw [h] at hw
      exact words_of_mem_words hw
    · exact words_single v.2.2 v.2.1
  rw [Record.Split, htext, words_intercalate rfl, hfields, List.flatMap_congr hword, List.flatMap_singleton']

section

variable (q : Query)

/-- The words of a row behind the wildcards. -/
def wildRow (row : List Text) : List Text :=
  let row := if isWild (row.getD 0 []) then row.set 0 q.mode.val else row
  let row := if isWild (row.getD 1 []) then row.set 1 q.tool.val else row
  if isWild (row.getD 2 []) then row.set 2 q.tool.val else row

theorem wild_step {r : Record} (hr : r.Split) {n : Nat} (hn : n ≤ r.fields.length) (v : Word) :
    (if isWild (r.field n) then r.assign n v.val else r).Split ∧
      (if isWild (r.field n) then r.assign n v.val else r).fields =
        (if isWild (r.fields.getD (n - 1) []) then r.fields.set (n - 1) v.val else r.fields) := by
  rw [List.getD_eq_getElem?_getD]
  change _ ∧ _ = if isWild (r.field n) then _ else _
  by_cases hw : isWild (r.field n) = true
  · rw [if_pos hw, if_pos hw]
    exact ⟨hr.assign hn v, Record.fields_assign hn v.val⟩
  · rw [if_neg hw, if_neg hw]
    exact ⟨hr, rfl⟩

theorem wild_split {r : Record} (hr : r.Split) (hlen : 4 ≤ r.fields.length) :
    (wild q r).Split ∧ (wild q r).fields = wildRow q r.fields := by
  obtain ⟨hr₁, hf₁⟩ := wild_step hr (n := 1) (by omega) q.mode
  rw [wild, wildRow]
  simp only [Nat.sub_self] at hf₁
  rw [← hf₁]
  have hlen₁ : 4 ≤ (if isWild (r.field 1) then r.assign 1 q.mode.val else r).fields.length := by
    rw [hf₁]
    split <;> simp [hlen]
  generalize (if isWild (r.field 1) then r.assign 1 q.mode.val else r) = r₁ at *
  obtain ⟨hr₂, hf₂⟩ := wild_step hr₁ (n := 2) (by omega) q.tool
  simp only [Nat.reduceSub] at hf₂
  rw [← hf₂]
  have hlen₂ : 4 ≤ (if isWild (r₁.field 2) then r₁.assign 2 q.tool.val else r₁).fields.length := by
    rw [hf₂]
    split <;> simp [hlen₁]
  generalize (if isWild (r₁.field 2) then r₁.assign 2 q.tool.val else r₁) = r₂ at *
  exact wild_step hr₂ (n := 3) (by omega) q.tool

/-- The columns that a row has in the place asked for, once `{na}` is deleted. -/
def left (row : List Text) : List Text := place q.column (kept (wildRow q row))

theorem Record.fields_gsubNa {r : Record} (hr : r.Split) : r.gsubNa.fields = kept r.fields := by
  have hdeleted : (Record.ofText (deleteNa r.text)).fields = kept r.fields := by
    rw [hr]
    exact words_deleteNa r.text
  unfold gsubNa
  split
  · exact hdeleted
  · rename_i hno
    rw [← hdeleted, deleteNa_none hno, hr]
    rfl

/-- The first four fields are emptied. -/
theorem words_emptied (r : Record) (hr : ∀ w ∈ r.fields, words isGap w = [w]) :
    words isGap ((((r.assign 4 []).assign 3 []).assign 2 []).assign 1 []).text = r.fields.drop 4 := by
  have hdrop : ∀ ws : List Text, (∀ w ∈ ws, words isGap w = [w]) → ws.flatMap (words isGap) = ws := fun ws hws => by
    rw [List.flatMap_congr hws, List.flatMap_singleton']
  have htext : ((((r.assign 4 []).assign 3 []).assign 2 []).assign 1 []).text =
      [' '].intercalate ((((r.assign 4 []).assign 3 []).assign 2 []).assign 1 []).fields := rfl
  have hfields : ((((r.assign 4 []).assign 3 []).assign 2 []).assign 1 []).fields = [[], [], [], []] ++ r.fields.drop 4 := by
    obtain ⟨t, fs⟩ := r
    rcases fs with _ | ⟨a, _ | ⟨b, _ | ⟨c, _ | ⟨d, fs⟩⟩⟩⟩ <;> simp [Record.assign]
  rw [htext, words_intercalate rfl, hfields, List.flatMap_append, hdrop _ fun w hw => hr w (List.mem_of_mem_drop hw)]
  rfl

/-- A field that is printed. -/
theorem words_printed {r : Record} (hr : ∀ w ∈ r.fields, words isGap w = [w]) (n : Nat) :
    words isGap (r.field n ++ ['\n']) = (r.fields[n - 1]?).toList := by
  rw [words_append rfl, words_nil, List.append_nil, Record.field]
  cases h : r.fields[n - 1]? with
  | none => rfl
  | some w => exact hr w (List.mem_of_getElem? h)

theorem words_printcolumn {r : Record} (hr : r.Split) :
    words isGap (printcolumn q r) = place q.column (kept r.fields) := by
  have hwords : ∀ w ∈ r.gsubNa.fields, words isGap w = [w] := by
    intro w hw
    rw [Record.fields_gsubNa hr, kept, List.mem_filter, List.mem_map] at hw
    obtain ⟨⟨u, hu, rfl⟩, hne⟩ := hw
    rw [hr] at hu
    exact words_single (fun c hc => not_separator_of_mem_words hu (mem_deleteNa hc)) (of_decide_eq_true hne)
  rw [← Record.fields_gsubNa hr]
  unfold printcolumn place
  cases q.column with
  | flags =>
    simp only
    rw [words_append rfl, words_nil, List.append_nil, words_emptied _ hwords]
  | path => exact words_printed hwords 4
  | aliasName => exact words_printed hwords 3

/-! ## A run over the files -/

variable (awk : Awk)

/-- The rows that the script reads while it is in the table. -/
def seenFrom : Bool → List Text → List (List Text)
  | _, [] => []
  | on, t :: ts =>
    if isSkipped t then seenFrom on ts
    else if isHeading t then seenFrom (isAsked awk q (.ofText t)) ts
    else if on then words isGap t :: seenFrom on ts
    else seenFrom on ts

def seen (files : List Config) : List (List Text) := seenFrom q awk false (files.flatMap Config.lines)

/-- The test of the script: the mode and the tool, or a star in a word. -/
def Takes (row : List Text) : Prop := (wildRow q row)[0]? = some q.mode.val ∧ (wildRow q row)[1]? = some q.tool.val

instance (row : List Text) : Decidable (Takes q row) := inferInstanceAs (Decidable (_ ∧ _))

theorem isHeading_of_isTable {t : Text} (ht : IsTable t) : isHeading t = true := by
  obtain ⟨name, rest, hwords⟩ := ht
  have hin : heading <:+: t := infix_of_mem_words (by rw [hwords]; exact List.mem_cons_self)
  exact decide_eq_true hin

theorem getD_eq_iff {o : Option Text} {v : Text} (hv : v ≠ []) : o.getD [] = v ↔ o = some v := by
  cases o with
  | none => simp [hv.symm]
  | some w => simp

/-- A row in the table: it is taken, and its column is printed, or it is passed by. -/
theorem onRecord_row {t : Text} (hlen : 4 ≤ (words isGap t).length) (hhead : isHeading t = false) :
    if Takes q (words isGap t) then
      ∃ printed, onRecord awk q true t = (true, some printed) ∧ words isGap printed = left q (words isGap t)
    else onRecord awk q true t = (true, none) := by
  obtain ⟨hsplit, hfields⟩ := wild_split q (Record.split_ofText t) hlen
  have htakes : ((wild q (.ofText t)).field 1 = q.mode.val ∧ (wild q (.ofText t)).field 2 = q.tool.val) ↔
      Takes q (words isGap t) := by
    rw [Record.field, Record.field, hfields, getD_eq_iff q.mode.2.1, getD_eq_iff q.tool.2.1]
    exact Iff.rfl
  have hprinted := words_printcolumn q hsplit
  rw [hfields] at hprinted
  simp only [onRecord, hhead, Bool.false_and, Bool.false_eq_true, if_false, if_true, htakes]
  split
  · exact ⟨_, rfl, hprinted⟩
  · rfl

theorem onRecord_heading {t : Text} (on : Bool) (hhead : isHeading t = true) :
    onRecord awk q on t = (isAsked awk q (.ofText t), none) := by
  cases hasked : isAsked awk q (.ofText t) <;> simp [onRecord, hhead, hasked]

theorem onRecord_outside {t : Text} (hhead : isHeading t = false) : onRecord awk q false t = (false, none) := by
  simp [onRecord, hhead]

/-- The script ends on well-formed lines, with the first row that it takes. -/
theorem run_formed {ts : List Text} (hts : ∀ t ∈ ts, Formed t) (on : Bool) (last : Text) :
    ∃ e, run awk q ⟨on, none, last⟩ ts = some e ∧
      match (seenFrom q awk on ts).find? (Takes q) with
      | none => e.status ≠ 0
      | some row => e.status = 0 ∧ words isGap e.printed = left q row := by
  induction ts generalizing on with
  | nil => exact ⟨⟨1, []⟩, rfl, Nat.one_ne_zero⟩
  | cons t ts ih =>
    have ih := ih fun u hu => hts u (List.mem_cons_of_mem t hu)
    cases hskip : isSkipped t with
    | true =>
      simp only [run, seenFrom, hskip, if_true]
      exact ih on
    | false =>
      obtain ⟨hcont, hkind⟩ := (hts t List.mem_cons_self).resolve_left (by simp [hskip])
      simp only [run, seenFrom, hskip, hcont, Bool.false_eq_true, if_false]
      cases hhead : isHeading t with
      | true =>
        rw [onRecord_heading q awk on hhead]
        exact ih (isAsked awk q (.ofText t))
      | false =>
        simp only [Bool.false_eq_true, if_false]
        cases on with
        | false =>
          rw [onRecord_outside q awk hhead]
          exact ih false
        | true =>
          have hlen : 4 ≤ (words isGap t).length :=
            hkind.resolve_left fun htable => by rw [isHeading_of_isTable htable] at hhead; cases hhead
          have hrow := onRecord_row q awk hlen hhead
          rw [if_pos rfl, List.find?_cons]
          by_cases htakes : Takes q (words isGap t)
          · rw [if_pos htakes] at hrow
            obtain ⟨printed, hrow, hprinted⟩ := hrow
            rw [hrow, decide_eq_true htakes]
            exact ⟨⟨0, printed⟩, rfl, rfl, hprinted⟩
          · rw [if_neg htakes] at hrow
            rw [hrow, decide_eq_false htakes]
            exact ih true

/-! ## When the column stands in its place -/

/-- A row has in the place `i` what is wanted as `w` of a column `x`. When that is `{na}`, more columns of the row are lost up to there than
are left behind. Any other is the one that the row has there, without `{na}`, when none is lost up to there; else a word from behind takes
its place, which is the same. -/
def CellInPlace (i : Nat) (row : List Text) (x w : Text) : Prop :=
  let gone := lost ((wildRow q row).take (i + 1))
  let behind := kept (row.drop (i + 1))
  if x = na then behind.length < gone
  else if gone = 0 then deleteNa ((wildRow q row).getD i []) = w
  else behind[gone - 1]? = some w

/-- The column that is asked for stands in its place in `row`, as it is in `row'`. The same flags do when none of the four columns before
them is lost, and `{na}` stands alone among them; or when all of them are `{na}`. Of other flags, as many go as columns are lost before
them. -/
def InPlace (row row' : List Text) : Prop :=
  let gone := lost ((wildRow q row).take 4)
  match q.column with
  | .flags =>
    if row.drop 4 = row'.drop 4 then gone = 0 ∧ (∀ w ∈ row.drop 4, w = na ∨ ¬na <:+: w) ∨ ∀ w ∈ row.drop 4, w = na
    else (kept (row.drop 4)).drop gone = (row'.drop 4).filter (· ≠ na)
  | .path => CellInPlace q 3 row (row'.getD 3 []) (row'.getD 3 [])
  | .aliasName => CellInPlace q 2 row (row'.getD 2 []) (if row'.getD 2 [] = ['*'] then q.tool.val else row'.getD 2 [])

theorem wildRow_cons (a b c : Text) (fs : List Text) :
    wildRow q (a :: b :: c :: fs) =
      (if isWild a then q.mode.val else a) :: (if isWild b then q.tool.val else b) :: (if isWild c then q.tool.val else c) :: fs := by
  unfold wildRow
  simp only [List.getD_cons_zero]
  split <;> simp only [List.set_cons_zero, List.getD_cons_succ, List.getD_cons_zero] <;> split <;>
    simp only [List.set_cons_zero, List.set_cons_succ, List.getD_cons_succ, List.getD_cons_zero] <;> split <;> rfl

theorem formed_lines (files : List Config) : ∀ t ∈ files.flatMap Config.lines, Formed t := by
  intro t ht
  obtain ⟨f, -, ht⟩ := List.mem_flatMap.mp ht
  exact f.formed t ht

/-- The rows of well-formed files are the words of lines of at least four columns. -/
theorem words_of_mem_rows {files : List Config} {table : Text} {row : List Text} (hrow : row ∈ rows table files) :
    ∃ t, row = words isGap t ∧ 4 ≤ row.length := by
  obtain ⟨f, -, hrow⟩ := List.mem_flatMap.mp hrow
  suffices h : ∀ ts : List Text, (∀ t ∈ ts, Formed t) → ∀ on, row ∈ rowsFrom table on ts →
      ∃ t, row = words isGap t ∧ 4 ≤ row.length from h f.lines f.formed false hrow
  intro ts
  induction ts with
  | nil => exact fun _ on hrow => nomatch hrow
  | cons t ts ih =>
    intro hts on hrow
    have ih := ih fun u hu => hts u (List.mem_cons_of_mem t hu)
    unfold rowsFrom at hrow
    split at hrow
    · exact ih on hrow
    · rename_i hskip
      obtain ⟨-, hkind⟩ := (hts t List.mem_cons_self).resolve_left hskip
      split at hrow
      · exact ih _ hrow
      · rename_i hnone
        split at hrow
        · rcases List.mem_cons.mp hrow with rfl | hrow
          · refine ⟨t, rfl, hkind.resolve_left ?_⟩
            rintro ⟨name, rest, hwords⟩
            simp [nameOf, hwords] at hnone
          · exact ih on hrow
        · exact ih on hrow

/-- So are those that the script reads. -/
theorem words_of_mem_seen {files : List Config} {row : List Text} (hrow : row ∈ seen q awk files) :
    ∃ t, row = words isGap t ∧ 4 ≤ row.length := by
  suffices h : ∀ ts : List Text, (∀ t ∈ ts, Formed t) → ∀ on, row ∈ seenFrom q awk on ts →
      ∃ t, row = words isGap t ∧ 4 ≤ row.length from h _ (formed_lines files) false hrow
  intro ts
  induction ts with
  | nil => exact fun _ on hrow => nomatch hrow
  | cons t ts ih =>
    intro hts on hrow
    have ih := ih fun u hu => hts u (List.mem_cons_of_mem t hu)
    unfold seenFrom at hrow
    split at hrow
    · exact ih on hrow
    · rename_i hskip
      obtain ⟨-, hkind⟩ := (hts t List.mem_cons_self).resolve_left hskip
      split at hrow
      · exact ih _ hrow
      · rename_i hhead
        split at hrow
        · rcases List.mem_cons.mp hrow with rfl | hrow
          · exact ⟨t, rfl, hkind.resolve_left fun htable => hhead (isHeading_of_isTable htable)⟩
          · exact ih on hrow
        · exact ih on hrow

theorem four_columns {row : List Text} (hlen : 4 ≤ row.length) : ∃ a b c d fs, row = a :: b :: c :: d :: fs := by
  rcases row with _ | ⟨a, _ | ⟨b, _ | ⟨c, _ | ⟨d, fs⟩⟩⟩⟩
  · simp at hlen
  · simp at hlen
  · simp at hlen
  · simp at hlen
  · exact ⟨a, b, c, d, fs, rfl⟩

/-- What stands in the place of a column `y`, where one is wanted as `w` that is `x` in the tables. -/
theorem cell_iff (us vs : List Text) {x y w : Text} {f : Text → Text} (hf : f x = w) :
    ((kept (us ++ y :: vs))[us.length]?).toList = ([x].filter (· ≠ na)).map f ↔
      if x = na then (kept vs).length < lost (us ++ [y])
      else if lost (us ++ [y]) = 0 then deleteNa y = w
      else (kept vs)[lost (us ++ [y]) - 1]? = some w := by
  rw [kept_place]
  by_cases hx : x = na
  · have hnone : ([x].filter (· ≠ na)).map f = [] := by simp [hx]
    rw [if_pos hx, hnone, Option.toList_eq_nil_iff]
    by_cases hlost : lost (us ++ [y]) = 0
    · simp [hlost]
    · rw [if_neg hlost, List.getElem?_eq_none_iff]
      omega
  · have hone : ([x].filter (· ≠ na)).map f = [w] := by simp [hx, hf]
    rw [if_neg hx, hone, Option.toList_eq_singleton_iff]
    split <;> simp

/-- A row has what is wanted of another one exactly where that stands in its place. -/
theorem left_eq_wanted_iff {files : List Config} {row row' : List Text} (hrow : row ∈ seen q awk files)
    (hrow' : row' ∈ rows q.table files) : left q row = wanted q row' ↔ InPlace q row row' := by
  obtain ⟨t, ht, hlen⟩ := words_of_mem_seen q awk hrow
  have hne : ∀ w ∈ row, w ≠ [] := fun w hw => ne_nil_of_mem_words (ht ▸ hw)
  obtain ⟨-, -, hlen'⟩ := words_of_mem_rows hrow'
  obtain ⟨a, b, c, d, fs, rfl⟩ := four_columns hlen
  obtain ⟨x, y, z, v, gs, rfl⟩ := four_columns hlen'
  have hwild := wildRow_cons q a b c (d :: fs)
  generalize (if isWild a then q.mode.val else a) = a' at hwild
  generalize (if isWild b then q.tool.val else b) = b' at hwild
  generalize (if isWild c then q.tool.val else c) = c' at hwild
  rw [left, wanted, InPlace, hwild]
  generalize q.column = column
  cases column with
  | flags =>
    have hflags : ∀ w ∈ fs, w ≠ [] := fun w hw => hne w (by simp [hw])
    have hdrop := kept_drop [a', b', c', d] fs
    simp only [place, reduceCtorEq, false_and, if_false, List.map_id']
    refine (Eq.congr_left hdrop).trans ?_
    simp only [List.drop_succ_cons, List.drop_zero]
    by_cases hsame : fs = gs
    · rw [if_pos hsame, ← hsame]
      exact kept_drop_iff hflags _
    · rw [if_neg hsame]
      rfl
  | path =>
    simp only [place, CellInPlace, hwild]
    exact (cell_iff [a', b', c'] fs rfl).trans (by simp)
  | aliasName =>
    have hcell := cell_iff [a', b'] (d :: fs) (x := z) (y := c') (f := fun w => if w = ['*'] then q.tool.val else w) rfl
    simp only [place, CellInPlace, hwild, true_and]
    exact hcell.trans (by simp)

/-- What the script sees, and what the tables say: no row for the mode and the tool in either; or one in both, and the column of the latter
stands in its place in the former (which is another row only in tables that are not ordinary). -/
def Shows (files : List Config) : Prop :=
  match (seen q awk files).find? (Takes q), (rows q.table files).find? (Keyed q) with
  | none, none => True
  | some row, some row' => InPlace q row row'
  | _, _ => False

end

/-! ## Ordinary tables -/

/-- Files in which a heading is one to the script exactly where it is one to the reader, and a star stands alone. -/
structure Ordinary (q : Query) (files : List Config) : Prop where
  name : ∀ c ∈ q.table, Regex.isMeta c = false
  marked : ∀ f ∈ files, ∀ t ∈ f.lines, isSkipped t = false → isHeading t = true → IsTable t
  headed : ∀ f ∈ files, ∀ t ∈ f.lines.find? fun t => !isSkipped t, IsTable t
  starred : ∀ row ∈ rows q.table files, ∀ w ∈ row.take 3, isWild w = true → w = ['*']

section

variable {awk : Awk} {q : Query}

theorem nameOf_isTable {t : Text} (ht : IsTable t) (hname : ∀ c ∈ q.table, Regex.isMeta c = false) :
    ∃ name, nameOf t = some name ∧ isAsked awk q (.ofText t) = decide (name = q.table) := by
  obtain ⟨name, rest, hwords⟩ := ht
  refine ⟨name, by simp [nameOf, hwords], ?_⟩
  have hfield : (Record.ofText t).field 2 = name ++ [':'] := by simp [Record.field, Record.ofText, hwords]
  rw [isAsked, awk.search_name _ _ hname, hfield]
  exact decide_eq_decide.mpr (List.append_left_inj [':'])

theorem nameOf_row {t : Text} (ht : ¬IsTable t) : nameOf t = none := by
  unfold nameOf
  split
  · rename_i w name rest hwords
    rw [if_neg]
    intro h
    rw [Bool.and_eq_true, decide_eq_true_eq, decide_eq_true_eq] at h
    obtain ⟨rfl, hlast⟩ := h
    exact ht ⟨name.dropLast, rest, by rw [hwords, List.dropLast_append_getLast? _ hlast]⟩
  · rfl

/-- The script sees the rows of the table. -/
theorem seenFrom_eq (hname : ∀ c ∈ q.table, Regex.isMeta c = false) {ts : List Text}
    (hmarked : ∀ t ∈ ts, isSkipped t = false → isHeading t = true → IsTable t) (on : Bool) :
    seenFrom q awk on ts = rowsFrom q.table on ts := by
  induction ts generalizing on with
  | nil => rfl
  | cons t ts ih =>
    have ih := ih fun u hu => hmarked u (List.mem_cons_of_mem t hu)
    cases hskip : isSkipped t with
    | true => simp only [seenFrom, rowsFrom, hskip, if_true, ih]
    | false =>
      simp only [seenFrom, rowsFrom, hskip, Bool.false_eq_true, if_false]
      cases hhead : isHeading t with
      | true =>
        obtain ⟨name, hnameOf, hasked⟩ := @nameOf_isTable awk q t (hmarked t List.mem_cons_self hskip hhead) hname
        rw [if_pos rfl, hnameOf, hasked, ih]
      | false =>
        have hrow : ¬IsTable t := fun htable => by rw [isHeading_of_isTable htable] at hhead; cases hhead
        rw [if_neg Bool.false_ne_true, nameOf_row hrow]
        simp only [ih]

/-- Under a heading it does not matter what stands in front of the file. -/
theorem rowsFrom_headed {table : Text} {ts : List Text} (hts : ∀ t ∈ ts.find? fun t => !isSkipped t, IsTable t) (on : Bool) :
    rowsFrom table on ts = rowsFrom table false ts := by
  induction ts with
  | nil => rfl
  | cons t ts ih =>
    cases hskip : isSkipped t with
    | true =>
      simp only [rowsFrom, hskip, if_true]
      refine ih fun u hu => hts u ?_
      rwa [List.find?_cons_of_neg (by simp [hskip])]
    | false =>
      obtain ⟨name, rest, hwords⟩ := hts t (List.find?_cons_of_pos (by simp [hskip]))
      have hnameOf : nameOf t = some name := by simp [nameOf, hwords]
      simp only [rowsFrom, hskip, hnameOf, Bool.false_eq_true, if_false]

theorem seenFrom_append (on : Bool) (ts us : List Text) :
    ∃ on', seenFrom q awk on (ts ++ us) = seenFrom q awk on ts ++ seenFrom q awk on' us := by
  induction ts generalizing on with
  | nil => exact ⟨on, rfl⟩
  | cons t ts ih =>
    simp only [List.cons_append, seenFrom]
    split
    · exact ih on
    · split
      · exact ih (isAsked awk q (.ofText t))
      · split
        · obtain ⟨on', h⟩ := ih on
          exact ⟨on', by rw [h, List.cons_append]⟩
        · exact ih on

theorem seen_eq {files : List Config} (h : Ordinary q files) : seen q awk files = rows q.table files := by
  have hfiles : ∀ fs : List Config, (∀ f ∈ fs, f ∈ files) → ∀ on,
      seenFrom q awk on (fs.flatMap Config.lines) = rows q.table fs := by
    intro fs
    induction fs with
    | nil => exact fun _ _ => rfl
    | cons f fs ih =>
      intro hfs on
      have hf := hfs f List.mem_cons_self
      obtain ⟨on', happend⟩ := @seenFrom_append awk q on f.lines (fs.flatMap Config.lines)
      rw [List.flatMap_cons, happend, ih (fun g hg => hfs g (List.mem_cons_of_mem f hg)), seenFrom_eq h.name (h.marked f hf),
        rowsFrom_headed (h.headed f hf)]
      rfl
  exact hfiles files (fun _ hf => hf) false

theorem key_iff {w k : Text} (hw : isWild w = true → w = ['*']) : (if isWild w then k else w) = k ↔ w = k ∨ w = ['*'] := by
  by_cases h : isWild w = true
  · rw [if_pos h]
    exact iff_of_true rfl (Or.inr (hw h))
  · have hstar : w ≠ ['*'] := by
      rintro rfl
      exact h rfl
    simp [h, hstar]

theorem takes_iff_keyed {files : List Config} (h : Ordinary q files) {row : List Text} (hrow : row ∈ rows q.table files) :
    Takes q row ↔ Keyed q row := by
  obtain ⟨-, -, hlen⟩ := words_of_mem_rows hrow
  obtain ⟨a, b, c, d, fs, rfl⟩ := four_columns hlen
  have hstar := h.starred _ hrow
  rw [Takes, Keyed, wildRow_cons]
  simp only [List.getElem?_cons_zero, List.getElem?_cons_succ, Option.some.injEq]
  rw [key_iff (hstar a (by simp)), key_iff (hstar b (by simp))]

/-- In ordinary tables the script is right exactly where the first row for the mode and the tool keeps its column in its place. -/
theorem shows_ordinary {files : List Config} (h : Ordinary q files) :
    Shows q awk files ↔ ∀ row ∈ (rows q.table files).find? (Keyed q), InPlace q row row := by
  have hfind : (rows q.table files).find? (Takes q) = (rows q.table files).find? (Keyed q) :=
    List.find?_congr fun row hrow => decide_eq_decide.mpr (takes_iff_keyed h hrow)
  rw [Shows, seen_eq h, hfind]
  cases (rows q.table files).find? (Keyed q) with
  | none => simp
  | some row => simp

/-! ## An empty alias -/

/-- The search, for expressions of plain characters. -/
def plainAwk : Awk where
  search p t := p = '^' :: (t ++ ['$'])
  search_name w t _ := by
    simp only [List.cons.injEq, true_and]
    refine decide_eq_decide.mpr ⟨fun h => ?_, fun h => by rw [h]; simp⟩
    have h : (w ++ [':']) ++ ['$'] = t ++ ['$'] := by simpa using h
    exact (List.append_cancel_right h).symm

def lintTable : Config where
  lines := ["%Table: BuildTools:".toList, "\tsparc\tlint\t{na}\t/usr/bin".toList]
  formed := by
    intro t ht
    rcases List.mem_cons.mp ht with rfl | ht
    · exact Or.inr ⟨by decide, Or.inl ⟨"BuildTools".toList, [], by decide⟩⟩
    · rw [List.mem_singleton.mp ht]
      exact Or.inr ⟨by decide, Or.inr (by decide)⟩

def lintAlias : Query where
  table := "BuildTools".toList
  mode := ⟨"sparc".toList, word_of_all (by decide)⟩
  tool := ⟨"lint".toList, word_of_all (by decide)⟩
  outcolumn := "ALIAS".toList
  column := .aliasName
  asked := by decide

end

end ZfsTest.Stf.Lookup
