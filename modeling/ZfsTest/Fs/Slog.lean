import ZfsTest.Libtest.Device
import ZfsTest.Shell.Echo
import ZfsTest.Shell.Fields
import ZfsTest.Shell.Redirect
import ZfsTest.Text.Ksh

/-!
# The table of log devices, `verify_slog_device` of `slog.kshlib`

An `awk` program with one flag reads `zpool status -v` and prints a kind, a name and a state for every line of a device below the heading
`logs`. It tells the lines by the blanks in front of the name alone. The headings of mirrors and of groups stand at the same blanks as
devices, and there is no rule for the heading `cache`, so the table has a row for each of those headings, and for the devices of a cache
in front of the spares (`scan_listing`).
-/

namespace ZfsTest.Slog

open Shell
open Libtest.Device (column)
open Stf (isIfs)

/-! ## The table -/

inductive Kind
  | stripe
  | mirror
  deriving DecidableEq, Repr

def Kind.tag : Kind → Text
  | .stripe => "stripe:".toList
  | .mirror => "mirror:".toList

/-- `\/|[a-zA-Z]`. -/
def opens (c : Char) : Bool := c = '/' || c.isAlpha

/-- `/…/` in `awk`: `p` holds of the text from some position on. -/
def somewhere (p : Text → Bool) (line : Text) : Bool := line.tails.any p

/-- `\t` with `n` blanks behind it, and `(\/|[a-zA-Z])`. -/
def indented (n : Nat) (t : Text) : Bool :=
  ('\t' :: List.replicate n ' ').isPrefixOf t && (t.drop (n + 1)).head?.any opens

/-- The blanks of the three rules that print, and the kind that each of them prints. -/
def rules : List (Nat × Kind) := [(2, .stripe), (4, .mirror), (6, .mirror)]

/-- What is printed for a line while the flag is set. -/
def prints (line : Text) : List Text :=
  (rules.filter fun rule => somewhere (indented rule.1) line).map fun rule => rule.2.tag ++ (column 1 line ++ ' ' :: column 2 line)

/-- The program, with its flag. -/
def scan : Bool → List Text → List Text
  | _, [] => []
  | start, line :: lines =>
    let start := start || somewhere "\tlogs".toList.isPrefixOf line
    let start := start && !(somewhere "\tmirror".toList.isPrefixOf line || somewhere "\tspares".toList.isPrefixOf line || line.isEmpty)
    (if start then prints line else []) ++ scan start lines

/-- `set -A dev_stat_tab $(...)`. -/
def devStatTab (dir : Directory) (status : List Text) : List Text :=
  (words isIfs (substituted ((scan false status).flatMap fun line => line ++ ['\n']))).flatMap dir.names

/-! ## `verify_slog_device` -/

/-- `[0-F]`, a range of the characters in their order. -/
def inRange (c : Char) : Bool := '0' ≤ c && c ≤ 'F'

/-- `[0-F]+([td][0-F]+)+$`: whether a digit stands right in front, and whether a group has begun. -/
def diskFrom (digit group : Bool) : Text → Bool
  | [] => digit && group
  | c :: t => if inRange c then diskFrom true group t else (c = 't' || c = 'd') && digit && diskFrom false true t

/-- `^c[0-F]+([td][0-F]+)+$`. -/
def isDisk (t : Text) : Bool := t.head? = some 'c' && diskFrom false false t.tail

/-- The name under which the device is looked for. -/
def sliced (dir : Directory) (wrapper device : Text) : Text :=
  if somewhere "smi".toList.isPrefixOf wrapper && (linesOf (echo (spread isIfs dir device))).any isDisk then device ++ "s2".toList
  else device

/-- What the loop returns at a row of the table, if it ends there. -/
def ends (device status type dev stat : Text) : Option Nat :=
  if Ksh.matchesText ("stripe:".toList ++ device) dev then
    some (if type = "mirror".toList then 1 else if !Ksh.matchesText status stat then 1 else 0)
  else if Ksh.matchesText ("mirror:".toList ++ device) dev then
    some (if type = [] ∨ type = "stripe".toList then 1 else if !Ksh.matchesText status stat then 1 else 0)
  else none

/-- The loop over the rows. -/
def look (device status type : Text) : List Text → Nat
  | [] => 1
  | [dev] => (ends device status type dev []).getD 1
  | dev :: stat :: rest => (ends device status type dev stat).getD (look device status type rest)

/-- `verify_slog_device`, for the lines that `zpool status -v` prints for the pool. `none` is `log_fail`. -/
def verifySlogDevice (dir : Directory) (wrapper : Text) (zpoolStatus : List Text) (pool device status type : Text) : Option Nat :=
  if pool = [] ∨ device = [] ∨ status = [] then none
  else some (look (sliced dir wrapper device) status type (devStatTab dir zpoolStatus))

/-! ## Listings -/

/-- A name, its state and what stands behind them. -/
structure Row where
  name : Text
  gap : Nat
  state : Text
  notes : Text
  name_ne : name ≠ []
  name_word : name.any isIfs = false
  state_ne : state ≠ []
  state_upper : state.all Char.isUpper = true
  notes_blank : notes.head?.all (· = ' ') = true
  notes_tab : '\t' ∉ notes

def Row.line (n : Nat) (r : Row) : Text :=
  '\t' :: (List.replicate n ' ' ++ (r.name ++ (' ' :: (List.replicate r.gap ' ' ++ (r.state ++ r.notes)))))

/-- A row for one of some kinds of vdevs, as `mirror` or `mirror-3`. -/
structure Heading (vdevs : List Text) where
  row : Row
  vdev : Text
  vdev_mem : vdev ∈ vdevs
  name_eq : row.name = vdev ∨ ∃ i : Nat, row.name = vdev ++ '-' :: natText i

/-- A member of a log mirror. -/
inductive Member
  | device (r : Row)
  | group (heading : Heading ["replacing".toList, "spare".toList]) (devices : List Row)

inductive Vdev
  | plain (r : Row)
  | mirror (heading : Heading ["mirror".toList]) (members : List Member)

inductive Aux
  | cache
  | spares
  deriving DecidableEq

def Aux.name : Aux → Text
  | .cache => "cache".toList
  | .spares => "spares".toList

/-- A section behind the log devices. -/
structure Section where
  aux : Aux
  rest : Text
  rest_tab : '\t' ∉ rest
  devices : List Row

/-- What `zpool status -v` prints: the lines up to the pool, the pool and its own vdevs, the log devices, the other sections, and the
lines below them. A row comes with the blanks in front of it. -/
structure Listing where
  front : List Text
  pool : Row
  vdevs : List (Nat × Row)
  rest : Text
  logs : List Vdev
  sections : List Section
  errors : List Text
  rest_tab : '\t' ∉ rest
  vdevs_blank : ∀ v ∈ vdevs, 2 ≤ v.1
  other : ∀ line ∈ front ++ errors, somewhere "\tlogs".toList.isPrefixOf line = false

namespace Member

def rows : Member → List (Nat × Row)
  | .device r => [(4, r)]
  | .group h ds => (4, h.row) :: ds.map fun r => (6, r)

def devices : Member → List Row
  | .device r => [r]
  | .group _ ds => ds

end Member

namespace Vdev

def rows : Vdev → List (Nat × Row)
  | .plain r => [(2, r)]
  | .mirror h ms => (2, h.row) :: ms.flatMap Member.rows

/-- The log devices, with the kind that they have. -/
def devices : Vdev → List (Kind × Row)
  | .plain r => [(.stripe, r)]
  | .mirror _ ms => (ms.flatMap Member.devices).map fun r => (.mirror, r)

end Vdev

def Section.rows (s : Section) : List (Nat × Row) := s.devices.map fun r => (2, r)

def texts (rows : List (Nat × Row)) : List Text := rows.map fun v => v.2.line v.1

def Section.lines (s : Section) : List Text := ('\t' :: (s.aux.name ++ s.rest)) :: texts s.rows

namespace Listing

variable (l : Listing)

def lines : List Text :=
  l.front ++ (l.pool.line 0 :: (texts l.vdevs ++ (('\t' :: ("logs".toList ++ l.rest)) ::
    (texts (l.logs.flatMap Vdev.rows) ++ (l.sections.flatMap Section.lines ++ ([] :: l.errors))))))

/-- The devices of the logs section. -/
def devices : List (Kind × Row) := l.logs.flatMap Vdev.devices

end Listing

/-- A device of the kind that the type asks for. -/
def Fits (type : Text) (kind : Kind) : Prop :=
  (type = "mirror".toList → kind = .mirror) ∧ (type = [] ∨ type = "stripe".toList → kind = .stripe)

/-- The device is in the logs section, with that status, and a member of a mirror or a plain log device as the type says. -/
def Listing.Listed (l : Listing) (device status type : Text) : Prop :=
  ∃ x ∈ l.devices, x.2.name = device ∧ x.2.state = status ∧ Fits type x.1

/-! ## Lines with one tab -/

/-- A pattern that begins with a tab. -/
def Tabbed (p : Text → Bool) : Prop := ∀ t, p t = true → t.head? = some '\t'

theorem tabbed_front (w : Text) : Tabbed ('\t' :: w).isPrefixOf := by
  rintro t ht
  obtain ⟨r, rfl⟩ := List.isPrefixOf_iff_prefix.mp ht
  rfl

theorem tabbed_indented (n : Nat) : Tabbed (indented n) := by
  intro t ht
  rw [indented, Bool.and_eq_true] at ht
  exact tabbed_front _ t ht.1

theorem somewhere_none {p : Text → Bool} (hp : Tabbed p) {t : Text} (ht : '\t' ∉ t) : somewhere p t = false := by
  apply List.any_eq_false.mpr
  intro u hu hpu
  have hmem : '\t' ∈ u := List.mem_of_mem_head? (hp u hpu)
  exact ht (((List.mem_tails _ _).mp hu).subset hmem)

theorem somewhere_tab {p : Text → Bool} (hp : Tabbed p) {t : Text} (ht : '\t' ∉ t) : somewhere p ('\t' :: t) = p ('\t' :: t) := by
  have hnone : t.tails.any p = false := somewhere_none hp ht
  rw [somewhere, List.tails_cons, List.any_cons, hnone, Bool.or_false]

theorem somewhere_front (w : Text) {t : Text} (ht : '\t' ∉ t) : somewhere ('\t' :: w).isPrefixOf ('\t' :: t) = w.isPrefixOf t := by
  rw [somewhere_tab (tabbed_front w) ht]
  rfl

/-! ## Rows -/

def begins (name : Text) : Bool := name.head?.any opens

namespace Row

variable (r : Row)

theorem not_ifs {c : Char} (hc : c ∈ r.name) : isIfs c = false := forall_of_any_eq_false r.name_word c hc

theorem upper {c : Char} (hc : c ∈ r.state) : c.isUpper = true := List.all_eq_true.mp r.state_upper c hc

theorem state_word {c : Char} (hc : c ∈ r.state) : isIfs c = false := by
  have hupper := r.upper hc
  apply eq_false_of_ne_true
  intro hifs
  simp only [isIfs, Bool.or_eq_true, decide_eq_true_eq] at hifs
  rcases hifs with (rfl | rfl) | rfl
  · cases hupper
  · cases hupper
  · cases hupper

/-- What stands behind the tab. -/
def body (n : Nat) : Text := List.replicate n ' ' ++ (r.name ++ (' ' :: (List.replicate r.gap ' ' ++ (r.state ++ r.notes))))

theorem body_tab (n : Nat) : '\t' ∉ r.body n := by
  have hblank : ∀ m, '\t' ∉ List.replicate m ' ' := fun m h => absurd (List.eq_of_mem_replicate h) (by decide)
  have hname : '\t' ∉ r.name := fun h => Bool.noConfusion (r.not_ifs h)
  have hstate : '\t' ∉ r.state := fun h => Bool.noConfusion (r.state_word h)
  simp only [body, List.mem_append, List.mem_cons, not_or]
  exact ⟨hblank n, hname, by decide, hblank r.gap, hstate, r.notes_tab⟩

theorem line_eq (n : Nat) : r.line n = '\t' :: r.body n := rfl

end Row

theorem words_blanks (n : Nat) (t : Text) : words isIfs (List.replicate n ' ' ++ t) = words isIfs t := by
  induction n with
  | zero => rfl
  | succ n ih =>
    have hblank : words isIfs (' ' :: (List.replicate n ' ' ++ t)) = words isIfs (List.replicate n ' ' ++ t) := words_append rfl [] _
    rw [List.replicate_succ, List.cons_append, hblank, ih]

theorem Row.words_line (n : Nat) (r : Row) : ∃ ws, words isIfs (r.line n) = r.name :: r.state :: ws := by
  have hstate : ∃ ws, words isIfs (r.state ++ r.notes) = r.state :: ws := by
    have hblank := r.notes_blank
    cases hnotes : r.notes with
    | nil => exact ⟨[], by rw [List.append_nil, words_single (fun c hc => r.state_word hc) r.state_ne]⟩
    | cons c notes =>
      rw [hnotes] at hblank
      have hc : isIfs c = true := by rw [of_decide_eq_true hblank]; rfl
      exact ⟨_, words_word (fun c hc => r.state_word hc) r.state_ne hc notes⟩
  obtain ⟨ws, hws⟩ := hstate
  refine ⟨ws, ?_⟩
  have htab : words isIfs (r.line n) = words isIfs (r.body n) := words_append rfl [] _
  rw [htab, Row.body, words_blanks, words_word (fun c hc => r.not_ifs hc) r.name_ne rfl, words_blanks, hws]

theorem Row.column_name (n : Nat) (r : Row) : column 1 (r.line n) = r.name := by
  obtain ⟨ws, hws⟩ := r.words_line n
  rw [column, Stf.split, hws]
  rfl

theorem Row.column_state (n : Nat) (r : Row) : column 2 (r.line n) = r.state := by
  obtain ⟨ws, hws⟩ := r.words_line n
  rw [column, Stf.split, hws]
  rfl

/-- Blanks in front of a text that begins with none. -/
theorem indented_blanks (m n : Nat) {u : Text} (hu : u.head? ≠ some ' ') :
    indented m ('\t' :: (List.replicate n ' ' ++ u)) = (decide (n = m) && begins u) := by
  have hstep : ∀ t : Text, indented m ('\t' :: t) = ((List.replicate m ' ').isPrefixOf t && (t.drop m).head?.any opens) := fun t => by
    rw [indented, List.isPrefixOf_cons_cons, List.drop_succ_cons]
    rfl
  rw [hstep]
  clear hstep
  induction m generalizing n with
  | zero =>
    cases n with
    | zero => simp [begins]
    | succ n => simp [List.replicate_succ, opens]
  | succ m ih =>
    cases n with
    | zero =>
      cases u with
      | nil => rfl
      | cons c u =>
        have hc : c ≠ ' ' := fun hc => hu (congrArg some hc)
        simp [List.replicate_succ, List.isPrefixOf, hc.symm]
    | succ n => simpa [List.replicate_succ, List.isPrefixOf] using ih n

/-- The rows of the table for a row of the listing. -/
def shown (v : Nat × Row) : List (Kind × Row) :=
  (rules.filter fun rule => v.1 = rule.1 && begins v.2.name).map fun rule => (rule.2, v.2)

/-- A row of the table, as it is printed. -/
def printed (e : Kind × Row) : Text := e.1.tag ++ (e.2.name ++ ' ' :: e.2.state)

theorem Row.name_head (r : Row) (t : Text) : (r.name ++ t).head? = r.name.head? := List.head?_append_of_ne_nil _ r.name_ne

theorem Row.name_not_blank (r : Row) : r.name.head? ≠ some ' ' := fun h => Bool.noConfusion (r.not_ifs (List.mem_of_mem_head? h))

theorem prints_row (n : Nat) (r : Row) : prints (r.line n) = (shown (n, r)).map printed := by
  have hrule : ∀ rule : Nat × Kind, somewhere (indented rule.1) (r.line n) = (decide (n = rule.1) && begins r.name) := by
    intro rule
    have hhead : (r.name ++ (' ' :: (List.replicate r.gap ' ' ++ (r.state ++ r.notes)))).head? = r.name.head? := r.name_head _
    rw [r.line_eq, somewhere_tab (tabbed_indented _) (r.body_tab n), Row.body, indented_blanks _ _ (hhead ▸ r.name_not_blank), begins,
      hhead]
    rfl
  rw [prints, shown, List.map_map, List.filter_congr fun rule _ => hrule rule, r.column_name, r.column_state]
  rfl

/-- No rule prints a heading. -/
theorem prints_heading {u : Text} (hu : u.head? ≠ some ' ') (htab : '\t' ∉ u) : prints ('\t' :: u) = [] := by
  have hrule : ∀ rule ∈ rules, ¬somewhere (indented rule.1) ('\t' :: u) = true := by
    intro rule hrule h
    have hzero : indented rule.1 ('\t' :: u) = (decide (0 = rule.1) && begins u) := indented_blanks rule.1 0 hu
    have hne : ∀ rule ∈ rules, ¬0 = rule.1 := by decide
    rw [somewhere_tab (tabbed_indented _) htab, hzero, decide_eq_false (hne rule hrule)] at h
    cases h
  rw [prints, List.filter_eq_nil_iff.mpr hrule, List.map_nil]

/-! ## The flag -/

/-- A line that leaves the flag as it is. -/
structure Level (line : Text) : Prop where
  logs : somewhere "\tlogs".toList.isPrefixOf line = false
  mirror : somewhere "\tmirror".toList.isPrefixOf line = false
  spares : somewhere "\tspares".toList.isPrefixOf line = false
  ne : line.isEmpty = false

theorem scan_level {line : Text} (h : Level line) (start : Bool) (rest : List Text) :
    scan start (line :: rest) = (if start then prints line else []) ++ scan start rest := by
  rw [scan]
  simp only [h.logs, h.mirror, h.spares, h.ne, Bool.or_false, Bool.not_false, Bool.and_true]

theorem Row.level (r : Row) {n : Nat} (hn : 0 < n) : Level (r.line n) := by
  obtain ⟨m, rfl⟩ : ∃ m, n = m + 1 := ⟨n - 1, by omega⟩
  have hfront : ∀ (c : Char) (w : Text), c ≠ ' ' → somewhere ('\t' :: c :: w).isPrefixOf (r.line (m + 1)) = false := by
    intro c w hc
    rw [r.line_eq, somewhere_front _ (r.body_tab _), Row.body, List.replicate_succ, List.cons_append, List.isPrefixOf_cons_cons]
    exact Bool.and_eq_false_iff.mpr (Or.inl (beq_eq_false_iff_ne.mpr hc))
  exact ⟨hfront 'l' _ (by decide), hfront 'm' _ (by decide), hfront 's' _ (by decide), rfl⟩

/-- Rows are printed while the flag is set, and leave it as it is. -/
theorem scan_rows {rows : List (Nat × Row)} (hrows : ∀ v ∈ rows, 2 ≤ v.1) (start : Bool) (rest : List Text) :
    scan start (texts rows ++ rest) = (if start then (rows.flatMap shown).map printed else []) ++ scan start rest := by
  induction rows with
  | nil => cases start <;> rfl
  | cons v rows ih =>
    have hv : 2 ≤ v.1 := hrows v List.mem_cons_self
    have ih := ih fun u hu => hrows u (List.mem_cons_of_mem v hu)
    have hlevel : Level (v.2.line v.1) := v.2.level (by omega)
    rw [texts, List.map_cons, List.cons_append, scan_level hlevel, prints_row]
    rw [texts] at ih
    rw [ih]
    cases start with
    | false => rfl
    | true => simp [List.map_append]

/-- Lines without the heading, while the flag is not set. -/
theorem scan_off {lines : List Text} (h : ∀ line ∈ lines, somewhere "\tlogs".toList.isPrefixOf line = false) (rest : List Text) :
    scan false (lines ++ rest) = scan false rest := by
  induction lines with
  | nil => rfl
  | cons line lines ih =>
    have hline := h line List.mem_cons_self
    rw [List.cons_append, scan]
    simp only [hline, Bool.or_false, Bool.false_and, Bool.false_eq_true, if_false]
    exact ih fun m hm => h m (List.mem_cons_of_mem line hm)

theorem scan_none {lines : List Text} (h : ∀ line ∈ lines, somewhere "\tlogs".toList.isPrefixOf line = false) :
    scan false lines = [] := by
  have hoff : scan false (lines ++ []) = [] := scan_off h []
  rwa [List.append_nil] at hoff

/-- A heading sets the flag, clears it or leaves it. -/
theorem scan_heading {u : Text} (hu : u.head? ≠ some ' ') (htab : '\t' ∉ u) (start : Bool) (rest : List Text) :
    scan start (('\t' :: u) :: rest) =
      scan ((start || "logs".toList.isPrefixOf u) && !("mirror".toList.isPrefixOf u || "spares".toList.isPrefixOf u)) rest := by
  have hfront : ∀ w : Text, somewhere ('\t' :: w).isPrefixOf ('\t' :: u) = w.isPrefixOf u := fun w => somewhere_front w htab
  have hlogs := hfront "logs".toList
  have hmirror := hfront "mirror".toList
  have hspares := hfront "spares".toList
  rw [scan, prints_heading hu htab, ite_self, List.nil_append]
  show scan ((start || somewhere ('\t' :: "logs".toList).isPrefixOf ('\t' :: u)) &&
    !(somewhere ('\t' :: "mirror".toList).isPrefixOf ('\t' :: u) || somewhere ('\t' :: "spares".toList).isPrefixOf ('\t' :: u) ||
      ('\t' :: u).isEmpty)) rest = _
  rw [hlogs, hmirror, hspares, List.isEmpty_cons, Bool.or_false]

/-- The line of a pool sets the flag when the pool has a name like the heading. -/
theorem scan_pool (r : Row) (rest : List Text) : scan false (r.line 0 :: rest) = scan ("logs".toList.isPrefixOf r.name) rest := by
  have hhead : (r.body 0).head? ≠ some ' ' := (r.name_head _) ▸ r.name_not_blank
  have hname : ∀ {w : Text}, ' ' ∉ w → w.isPrefixOf (r.body 0) = w.isPrefixOf r.name := by
    intro w hw
    rw [Bool.eq_iff_iff, List.isPrefixOf_iff_prefix, List.isPrefixOf_iff_prefix]
    exact ⟨front_of_separator hw, fun h => h.trans (List.prefix_append _ _)⟩
  rw [r.line_eq, scan_heading hhead (r.body_tab 0), hname (by decide), hname (by decide), hname (by decide), Bool.false_or]
  cases hlogs : "logs".toList.isPrefixOf r.name with
  | false => rfl
  | true =>
    obtain ⟨t, ht⟩ := List.isPrefixOf_iff_prefix.mp hlogs
    rw [← ht]
    rfl

/-! ## The whole listing -/

/-- The devices behind the log devices that the program takes for log devices. -/
def cached (sections : List Section) : List (Nat × Row) := (sections.takeWhile fun s => s.aux = .cache).flatMap Section.rows

theorem cached_cache {s : Section} (hs : s.aux = .cache) (sections : List Section) :
    cached (s :: sections) = s.rows ++ cached sections := by
  simp [cached, hs]

theorem cached_spares {s : Section} (hs : s.aux = .spares) (sections : List Section) : cached (s :: sections) = [] := by
  simp [cached, hs]

/-- The heading of a cache leaves the flag, that of the spares clears it. -/
theorem Aux.flag (a : Aux) (t : Text) (start : Bool) : ((start || "logs".toList.isPrefixOf (a.name ++ t)) &&
    !("mirror".toList.isPrefixOf (a.name ++ t) || "spares".toList.isPrefixOf (a.name ++ t))) = (start && decide (a = .cache)) := by
  cases a with
  | cache => cases start <;> rfl
  | spares => cases start <;> rfl

theorem scan_sections {errors : List Text} (herrors : ∀ line ∈ errors, somewhere "\tlogs".toList.isPrefixOf line = false)
    (start : Bool) (sections : List Section) : scan start (sections.flatMap Section.lines ++ ([] :: errors)) =
      if start then ((cached sections).flatMap shown).map printed else [] := by
  induction sections generalizing start with
  | nil =>
    have hblank : scan start ([] :: errors) = scan false errors := by
      rw [scan]
      cases start <;> rfl
    rw [List.flatMap_nil, List.nil_append, hblank, scan_none herrors]
    cases start <;> rfl
  | cons s sections ih =>
    have htab : '\t' ∉ s.aux.name ++ s.rest := by
      rw [List.mem_append, not_or]
      exact ⟨by cases s.aux <;> decide, s.rest_tab⟩
    have hhead : (s.aux.name ++ s.rest).head? ≠ some ' ' := by
      cases s.aux with
      | cache => exact (by decide : some 'c' ≠ some ' ')
      | spares => exact (by decide : some 's' ≠ some ' ')
    have hrows : ∀ v ∈ s.rows, 2 ≤ v.1 := by
      intro v hv
      obtain ⟨r, -, rfl⟩ := List.mem_map.mp hv
      exact Nat.le_refl 2
    rw [List.flatMap_cons, Section.lines, List.cons_append, List.cons_append, List.append_assoc, scan_heading hhead htab, Aux.flag,
      scan_rows hrows, ih]
    cases haux : s.aux with
    | cache =>
      rw [cached_cache haux, List.flatMap_append, List.map_append]
      cases start <;> rfl
    | spares =>
      rw [cached_spares haux]
      cases start <;> rfl

/-- The rows for which the table has a row, as far as their names are printed. -/
def Listing.rows (l : Listing) : List (Nat × Row) :=
  (if "logs".toList.isPrefixOf l.pool.name then l.vdevs else []) ++ (l.logs.flatMap Vdev.rows ++ cached l.sections)

/-- The table. -/
def Listing.table (l : Listing) : List (Kind × Row) := l.rows.flatMap shown

theorem Member.two_le_blanks (m : Member) : ∀ v ∈ m.rows, 2 ≤ v.1 := by
  intro v hv
  cases m with
  | device r =>
    obtain rfl := List.mem_singleton.mp hv
    show 2 ≤ 4
    omega
  | group h ds =>
    rcases List.mem_cons.mp hv with rfl | hv
    · show 2 ≤ 4
      omega
    · obtain ⟨r, -, rfl⟩ := List.mem_map.mp hv
      show 2 ≤ 6
      omega

theorem Vdev.two_le_blanks (d : Vdev) : ∀ v ∈ d.rows, 2 ≤ v.1 := by
  intro v hv
  cases d with
  | plain r =>
    obtain rfl := List.mem_singleton.mp hv
    exact Nat.le_refl 2
  | mirror h ms =>
    rcases List.mem_cons.mp hv with rfl | hv
    · exact Nat.le_refl 2
    · obtain ⟨m, -, hm⟩ := List.mem_flatMap.mp hv
      exact m.two_le_blanks v hm

/-- What the program prints for a listing. -/
theorem scan_listing (l : Listing) : scan false l.lines = l.table.map printed := by
  have hfront := fun line hline => l.other line (List.mem_append_left _ hline)
  have herrors := fun line hline => l.other line (List.mem_append_right _ hline)
  have hlogs : ∀ v ∈ l.logs.flatMap Vdev.rows, 2 ≤ v.1 := by
    intro v hv
    obtain ⟨d, -, hd⟩ := List.mem_flatMap.mp hv
    exact d.two_le_blanks v hd
  have htab : '\t' ∉ "logs".toList ++ l.rest := by
    rw [List.mem_append, not_or]
    exact ⟨by decide, l.rest_tab⟩
  have hhead : ("logs".toList ++ l.rest).head? ≠ some ' ' := (by decide : some 'l' ≠ some ' ')
  rw [Listing.lines, scan_off hfront, scan_pool, scan_rows l.vdevs_blank, scan_heading hhead htab]
  have hon : ∀ start : Bool, ((start || "logs".toList.isPrefixOf ("logs".toList ++ l.rest)) &&
      !("mirror".toList.isPrefixOf ("logs".toList ++ l.rest) || "spares".toList.isPrefixOf ("logs".toList ++ l.rest))) = true := by
    intro start
    cases start <;> rfl
  rw [hon, scan_rows hlogs, scan_sections herrors, Listing.table, Listing.rows, List.flatMap_append, List.flatMap_append, List.map_append,
    List.map_append, if_pos rfl, if_pos rfl]
  cases "logs".toList.isPrefixOf l.pool.name <;> rfl

end ZfsTest.Slog
