import ZfsTest.Shell.Passed
import ZfsTest.Shell.Redirect
import ZfsTest.Stf.Wordlist
import ZfsTest.Text.Fenced
import ZfsTest.Text.Grep

/-!
# The history of delegations, `verify_allow`

The function takes a command of `zfs allow` or `zfs unallow` apart, makes the codes that the history should have, and searches the new
history for each. Only the test behind the search for `-s` is well formed. The others are `[ ... ]]`, which fails whatever it tests, and
the branch that reports a missing code is not taken (`verifyAllow_status`). So a return of `0` says nothing but for commands that have a
word with `-s` at its end, and there it says that some line reads like the record (`verify_allow_sound_iff`).
-/

namespace ZfsTest.History

open Shell
open Stf (isIfs)

/-! ## The code -/

/-- What is known about users and groups: the output of `id -u`, and the file of the groups. -/
structure Accounts where
  uid : Text → Text
  group : Text

/-- A file of history. -/
structure Log where
  path : Text
  text : Text

/-- The condition of an `if`: `[[ ... ]]`, or `[` with its last argument. -/
inductive Test
  | double
  | single (closing : String)

/-- `[` fails when its last argument is not `]`. -/
def Test.holds : Test → Bool → Bool
  | .double, b => b
  | .single closing, b => closing = "]" && b

/-- `[[ $cmd =~ "$w" ]]`. -/
def has (cmd : Text) (w : String) : Bool := decide (w.toList <:+: cmd)

/-- The texts that match `w` alone. -/
def is (w : String) (t : Text) : Bool := t = w.toList

/-- `{i = NF - 1; print $i}`, where the field `0` is the whole line. -/
def fieldBeforeLast (line : Text) : Text :=
  match (words isIfs line).reverse with
  | [] => []
  | [_] => line
  | _ :: w :: _ => w

/-- `awk '{print $2}'`, in a substitution. -/
def secondField (t : Text) : Text := substituted ((linesOf t).flatMap fun l => (words isIfs l).getD 1 [] ++ ['\n'])

/-- `awk -F: "/^$name:/ {print \$3}"`, in a substitution. -/
def groupId (group name : Text) : Text :=
  substituted (((linesOf group).filter (Grep.fits (Grep.pieces (name ++ [':'])))).flatMap fun l => (l.splitOn ':').getD 2 [] ++ ['\n'])

section

variable (dir : Directory) (acc : Accounts) (newHistory : Log)

/-- `is_set`: the field before the last has an `@`. -/
def isSet (cmd : Text) : Bool := (linesOf (echo (spread isIfs dir cmd))).any fun l => (fieldBeforeLast l).contains '@'

/-- The searches for codes, and the test behind each of them. -/
def search (test : Test) (subcmd dsname : Text) : List Text → Nat × Option Text
  | [] => (0, none)
  | code :: codes =>
    let found := Grep.grep ("permission ".toList ++ subcmd ++ ' ' :: dsname ++ " ([0-9]*) ".toList ++ code) newHistory.text
    if test.holds !found then (1, some ("Couldn't find ".toList ++ code ++ " in ".toList ++ newHistory.path))
    else search test subcmd dsname codes

/-- The codes for users, groups and everyone. -/
def whoCodes (lflag dflag : Bool) (str id opt : Text) : List Text :=
  (if lflag then [str ++ "l$".toList ++ id ++ ' ' :: opt] else []) ++ if dflag then [str ++ "d$".toList ++ id ++ ' ' :: opt] else []

/-- The status and the note. -/
def verifyAllow (cmd subcmd flags : Text) : Nat × Option Text :=
  if 'i' ∉ flags then (1, none)
  else
    let subcmd := if subcmd = "allow".toList then "update".toList else subcmd
    let subcmd := if subcmd = "unallow".toList then "remove".toList else subcmd
    let isSet := isSet dir cmd
    let dsname := restLast (is " ") cmd
    let lflag := has cmd "-l "
    let dflag := has cmd "-d "
    let (lflag, dflag) := if !lflag && !dflag then (true, true) else (lflag, dflag)
    if has cmd "-s " then
      let str := if isSet then "S-$@" else "s-$@"
      let tmp := restFirst (is "@") cmd
      search newHistory .double subcmd dsname [str.toList ++ frontLast (is " ") tmp]
    else if has cmd "-c " then
      let str := if isSet then "C-$" else "c-$"
      let tmp := restFirst (is "-c") cmd
      search newHistory (.single "]]") subcmd dsname [str.toList ++ frontLast (is " ") tmp]
    else if has cmd "-u " then
      let str := if isSet then "U" else "u"
      let tmp := restLast (is "-u ") cmd
      let opt := secondField (echo (spread isIfs dir tmp))
      let uid := acc.uid (frontFirst (is " ") tmp)
      search newHistory (.single "]]") subcmd dsname (whoCodes lflag dflag str.toList uid opt)
    else if has cmd "-g " then
      let str := if isSet then "G" else "g"
      let tmp := restLast (is "-g ") cmd
      let opt := secondField (echo (spread isIfs dir tmp))
      let gid := groupId acc.group (frontFirst (is " ") tmp)
      search newHistory (.single "]]") subcmd dsname (whoCodes lflag dflag str.toList gid opt)
    else if has cmd "-e " then
      let str := if isSet then "E" else "e"
      let opt := frontFirst (is " ") (restLast (is "-e ") cmd)
      search newHistory (.single "]]") subcmd dsname (whoCodes lflag dflag str.toList [] opt)
    else (1, some ("Can't parse command \"".toList ++ cmd ++ ['"']))

end

/-! ## Commands and codes -/

inductive Subcommand
  | allow
  | unallow

def Subcommand.text : Subcommand → Text
  | .allow => "allow".toList
  | .unallow => "unallow".toList

def Subcommand.action : Subcommand → Text
  | .allow => "update".toList
  | .unallow => "remove".toList

inductive Who
  | user (name : Text)
  | group (name : Text)
  | everyone

inductive Form
  | permSet (set perms : Text)
  | create (perms : Text)
  | who (locally descendents : Bool) (who : Who) (perm : Text)

def Who.words : Who → List Text
  | .user name => ["-u".toList, name]
  | .group name => ["-g".toList, name]
  | .everyone => ["-e".toList]

def Form.operand : Form → Text
  | .permSet _ perms => perms
  | .create perms => perms
  | .who _ _ _ perm => perm

/-- The words in front of the operand. -/
def Form.options : Form → List Text
  | .permSet set _ => ["-s".toList, '@' :: set]
  | .create _ => ["-c".toList]
  | .who locally descendents w _ =>
    (if locally then ["-l".toList] else []) ++ ((if descendents then ["-d".toList] else []) ++ w.words)

/-- White space, and the characters that are special in a pattern or a regular expression; a dot is not among them. -/
def isSpecial (c : Char) : Bool := isIfs c || "*?[]\\()\x7b\x7d^$+|".toList.contains c

def IsOperand (w : Text) : Prop := w ≠ [] ∧ ∀ c ∈ w, isSpecial c = false

instance (w : Text) : Decidable (IsOperand w) :=
  decidable_of_iff (w ≠ [] ∧ w.all (fun c => isSpecial c = false) = true) (by simp [IsOperand])

def frontWords (sub : Subcommand) (form : Form) : List Text := "zfs".toList :: sub.text :: (form.options ++ [form.operand])

/-- A command of one of the forms. -/
structure Command where
  sub : Subcommand
  form : Form
  dsname : Text
  plain : ∀ w ∈ frontWords sub form, IsOperand w
  dsname_plain : IsOperand dsname
  dataset : '@' ∉ dsname

namespace Command

variable (c : Command)

/-- The command without its dataset. -/
def front : Text := row (frontWords c.sub c.form)

def text : Text := row (frontWords c.sub c.form ++ [c.dsname])

/-- The letter of a code is upper case when the operand names a set. -/
def letter (lower upper : String) : Text := if '@' ∈ c.form.operand then upper.toList else lower.toList

/-- The third field of the group's line. -/
def gid (group name : Text) : Text :=
  (((linesOf group).map fun l => l.splitOn ':').find? fun fs => fs.head? = some name).elim [] fun fs => fs.getD 2 []

/-- The codes that a command implies. -/
def codes (acc : Accounts) : List Text :=
  match c.form with
  | .permSet set perms => [c.letter "s" "S" ++ "-$@".toList ++ set ++ ' ' :: perms]
  | .create perms => [c.letter "c" "C" ++ "-$ ".toList ++ perms]
  | .who locally descendents w perm =>
    let (letter, id) := match w with
      | .user name => (c.letter "u" "U", acc.uid name)
      | .group name => (c.letter "g" "G", gid acc.group name)
      | .everyone => (c.letter "e" "E", [])
    let code := fun place : Char => letter ++ place :: '$' :: id ++ ' ' :: perm
    if locally = descendents then [code 'l', code 'd'] else if locally then [code 'l'] else [code 'd']

/-- What stands in front of the number in a record. -/
def recordFront : Text := "permission ".toList ++ c.sub.action ++ ' ' :: c.dsname ++ " (".toList

/-- The record of a code, up to the end of the line or a blank. -/
def Recorded (code line : Text) : Prop :=
  ∃ pre id post, line = pre ++ (c.recordFront ++ (id ++ (") ".toList ++ code ++ post))) ∧ id ≠ [] ∧ (∀ d ∈ id, d.isDigit = true) ∧
    ∀ d ∈ post.head?, d = ' '

/-- All codes of the command are in the history. -/
def InHistory (acc : Accounts) (newHistory : Log) : Prop :=
  ∀ code ∈ c.codes acc, ∃ line ∈ linesOf newHistory.text, c.Recorded code line

def Sound (dir : Directory) (acc : Accounts) (newHistory : Log) (flags : Text) : Prop :=
  (verifyAllow dir acc newHistory c.text c.sub.text flags).1 = 0 → c.InHistory acc newHistory

/-- A word in front of the dataset ends in `-s`. -/
def EndsS : Prop := ∃ w ∈ frontWords c.sub c.form, "-s".toList <:+ w

/-- The code for `-s`, of the text behind the first `@`. -/
def setCode : Text := c.letter "s" "S" ++ "-$@".toList ++ if '@' ∈ c.front then (c.front.dropWhile (· ≠ '@')).tail else c.front

/-- A line that reads like a record of the code for `-s`: a dot stands for each character, the number may be missing, and anything may
follow. -/
def Resembles (line : Text) : Prop :=
  ∃ pre v id w post, line = pre ++ (v ++ (id ++ (w ++ post))) ∧ Grep.Like c.recordFront v ∧ (∀ d ∈ id, d.isDigit = true) ∧
    Grep.Like (") ".toList ++ c.setCode) w

end Command

/-! ## The words of a command -/

open Command

theorem IsOperand.whole {w : Text} (h : IsOperand w) : ∀ d ∈ w, isIfs d = false := by
  intro d hd
  have hspecial := h.2 d hd
  rw [isSpecial, Bool.or_eq_false_iff] at hspecial
  exact hspecial.1

theorem IsOperand.notMem {w : Text} (h : IsOperand w) {d : Char} (hd : isSpecial d = true) : d ∉ w := by
  intro hmem
  rw [h.2 d hmem] at hd
  cases hd

theorem IsOperand.plainArg {w : Text} (h : IsOperand w) : PlainArg isIfs w := by
  refine ⟨h.1, h.whole, ?_, ?_⟩
  · by_contra hglob
    obtain ⟨d, hd, hmark⟩ := mark_of_isGlob (eq_true_of_ne_false hglob)
    have hspecial : isSpecial d = true := by
      simp only [isMark, Bool.or_eq_true, decide_eq_true_eq] at hmark
      rcases hmark with ((rfl | rfl) | rfl) | rfl <;> rfl
    exact h.notMem hspecial hd
  · rw [← List.append_nil w, escapes_front (h.notMem rfl)]
    rfl

theorem Command.words_plain (c : Command) : ∀ w ∈ frontWords c.sub c.form ++ [c.dsname], IsOperand w := by
  intro w hw
  rcases List.mem_append.mp hw with hw | hw
  · exact c.plain w hw
  · rw [List.mem_singleton] at hw
    exact hw ▸ c.dsname_plain

theorem Command.text_eq (c : Command) : c.text = c.front ++ ' ' :: c.dsname := by
  have hne : frontWords c.sub c.form ≠ [] := List.cons_ne_nil _ _
  rw [text, row, intercalate_append hne (List.cons_ne_nil c.dsname []), List.intercalate_singleton]
  rfl

theorem is_iff {w : String} {d : Char} (hw : w.toList = [d]) (u : Text) : is w u = true ↔ u = [d] := by
  rw [is, decide_eq_true_eq, hw]

/-- A word in front of the dataset ends in `w`. -/
theorem has_iff (c : Command) {w : String} {m : Text} (hw : w.toList = m ++ [' ']) (hm : ' ' ∉ m) :
    has c.text w = true ↔ ∃ v ∈ frontWords c.sub c.form, m <:+ v := by
  rw [has, decide_eq_true_eq, hw]
  exact infix_row hm (fun v hv => (c.plain v hv).notMem rfl) (c.dsname_plain.notMem rfl)

/-- One of the options of the forms stands in the command. -/
theorem has_option (c : Command) (h : has c.text "-s " = false) :
    has c.text "-c " = true ∨ has c.text "-u " = true ∨ has c.text "-g " = true ∨ has c.text "-e " = true := by
  have hmem : ∀ {w : String} {m : Text}, w.toList = m ++ [' '] → ' ' ∉ m → m ∈ c.form.options → has c.text w = true := by
    intro w m hw hm hopt
    refine (has_iff c hw hm).mpr ⟨m, ?_, List.suffix_rfl⟩
    rw [frontWords]
    simp [hopt]
  cases hform : c.form with
  | permSet set perms =>
    rw [hmem (m := "-s".toList) rfl (by decide) (by rw [hform]; simp [Form.options])] at h
    cases h
  | create perms => exact .inl (hmem (m := "-c".toList) rfl (by decide) (by rw [hform]; simp [Form.options]))
  | who locally descendents w perm =>
    cases w with
    | user name => exact .inr (.inl (hmem (m := "-u".toList) rfl (by decide) (by rw [hform]; simp [Form.options, Who.words])))
    | group name => exact .inr (.inr (.inl (hmem (m := "-g".toList) rfl (by decide) (by rw [hform]; simp [Form.options, Who.words]))))
    | everyone => exact .inr (.inr (.inr (hmem (m := "-e".toList) rfl (by decide) (by rw [hform]; simp [Form.options, Who.words]))))

theorem dsname_eq (c : Command) : restLast (is " ") c.text = c.dsname := by
  rw [c.text_eq]
  exact restLast_single (is_iff rfl) (c.dsname_plain.notMem rfl)

/-- The text behind the first `@`, without the dataset. -/
theorem behindAt_eq (c : Command) : frontLast (is " ") (restFirst (is "@") c.text) =
    if '@' ∈ c.front then (c.front.dropWhile (· ≠ '@')).tail else c.front := by
  have hds : ' ' ∉ c.dsname := c.dsname_plain.notMem rfl
  rw [c.text_eq]
  by_cases hat : '@' ∈ c.front
  · obtain ⟨u, v, hfront, hu⟩ := List.eq_append_cons_of_mem hat
    rw [if_pos hat, hfront, List.append_assoc, List.cons_append, restFirst_single (is_iff rfl) hu, dropWhile_separator hu, List.tail_cons]
    exact frontLast_single (is_iff rfl) hds
  · have hno : ∀ l r, c.front ++ ' ' :: c.dsname ≠ l ++ (['@'] ++ r) := by
      intro l r h
      have hmem : '@' ∈ c.front ++ ' ' :: c.dsname := by
        rw [h]
        simp
      rcases List.mem_append.mp hmem with hmem | hmem
      · exact hat hmem
      · exact c.dataset ((List.mem_cons.mp hmem).resolve_left (by decide))
    rw [if_neg hat, (cuts_none (is_iff rfl) hno).2.2.1]
    exact frontLast_single (is_iff rfl) hds

theorem isSet_eq (dir : Directory) (c : Command) : isSet dir c.text = decide ('@' ∈ c.form.operand) := by
  have hplain := c.words_plain
  have hwords : words isIfs c.text = frontWords c.sub c.form ++ [c.dsname] :=
    words_row rfl fun w hw => ⟨(hplain w hw).1, (hplain w hw).whole⟩
  have hmem : ∀ d ∈ c.text, d ≠ '\\' ∧ d ≠ '\n' := by
    intro d hd
    rcases mem_intercalate hd with rfl | ⟨w, hw, hdw⟩
    · exact ⟨by decide, by decide⟩
    · constructor
      · rintro rfl
        exact (hplain w hw).notMem rfl hdw
      · rintro rfl
        exact (hplain w hw).notMem rfl hdw
  have hspread : spread isIfs dir c.text = c.text := spread_plain rfl (fun w hw => (hplain w hw).plainArg) dir
  have hfield : fieldBeforeLast c.text = c.form.operand := by
    rw [fieldBeforeLast, hwords, frontWords]
    simp
  have hlines : linesOf (c.text ++ ['\n']) = [c.text] := linesOf_line (fun h => (hmem _ h).2 rfl) []
  rw [isSet, hspread, echo_plain fun h => (hmem _ h).1 rfl, hlines, List.any_cons, List.any_nil, Bool.or_false, hfield,
    List.contains_eq_mem]

/-! ## What the status says -/

/-- Behind a search, `[ ... ]]` never reports. -/
theorem search_single (newHistory : Log) (subcmd dsname : Text) (codes : List Text) :
    search newHistory (.single "]]") subcmd dsname codes = (0, none) := by
  induction codes with
  | nil => rfl
  | cons code codes ih =>
    rw [search]
    exact ih

theorem search_double (newHistory : Log) (subcmd dsname code : Text) :
    (search newHistory .double subcmd dsname [code]).1 = 0 ↔
      Grep.grep ("permission ".toList ++ subcmd ++ ' ' :: dsname ++ " ([0-9]*) ".toList ++ code) newHistory.text = true := by
  rw [search, search]
  generalize Grep.grep _ newHistory.text = found
  cases found with
  | false => exact iff_of_false Nat.one_ne_zero Bool.false_ne_true
  | true => exact iff_of_true rfl rfl

theorem subcmd_eq (sub : Subcommand) :
    (let subcmd := if sub.text = "allow".toList then "update".toList else sub.text
      if subcmd = "unallow".toList then "remove".toList else subcmd) = sub.action := by
  cases sub <;> rfl

theorem bracket_notMem_recordFront (c : Command) : '[' ∉ c.recordFront := by
  have hds : '[' ∉ c.dsname := c.dsname_plain.notMem rfl
  have haction : '[' ∉ c.sub.action := by cases c.sub <;> decide
  unfold recordFront
  simp only [List.mem_append, List.mem_cons, not_or]
  exact ⟨⟨⟨by decide, haction⟩, by decide, hds⟩, by decide⟩

theorem bracket_notMem_setCode (c : Command) : '[' ∉ c.setCode := by
  have hfront : '[' ∉ c.front := by
    intro h
    rcases mem_intercalate h with h | ⟨w, hw, hbracket⟩
    · cases h
    · exact (c.plain w hw).notMem rfl hbracket
  have hletter : '[' ∉ c.letter "s" "S" := by
    unfold letter
    split <;> decide
  simp only [setCode, List.mem_append, not_or]
  refine ⟨⟨hletter, by decide⟩, ?_⟩
  split
  · exact fun h => hfront ((List.dropWhile_suffix _).subset (List.mem_of_mem_tail h))
  · exact hfront

/-- The search for `-s` finds a line that resembles the record. -/
theorem grep_iff (c : Command) (newHistory : Log) :
    Grep.grep ("permission ".toList ++ c.sub.action ++ ' ' :: c.dsname ++ " ([0-9]*) ".toList ++ c.setCode) newHistory.text = true ↔
      ∃ line ∈ linesOf newHistory.text, c.Resembles line := by
  have hcode : '[' ∉ ") ".toList ++ c.setCode := by
    rw [List.mem_append, not_or]
    exact ⟨by decide, bracket_notMem_setCode c⟩
  have hnumber : " ([0-9]*) ".toList = " (".toList ++ ("[0-9]*".toList ++ ") ".toList) := rfl
  have hexpr : "permission ".toList ++ c.sub.action ++ ' ' :: c.dsname ++ " ([0-9]*) ".toList ++ c.setCode =
      c.recordFront ++ "[0-9]*".toList ++ (") ".toList ++ c.setCode) := by
    unfold recordFront
    rw [hnumber]
    simp only [List.append_assoc]
  rw [hexpr, Grep.grep, List.any_eq_true]
  exact exists_congr fun line => and_congr_right fun _ => Grep.found_numbered (bracket_notMem_recordFront c) hcode

/-- The function returns `0` unless a word in front of the dataset ends in `-s` and no line resembles the record. -/
theorem verifyAllow_status (dir : Directory) (acc : Accounts) (newHistory : Log) (c : Command) {flags : Text} (hflags : 'i' ∈ flags) :
    (verifyAllow dir acc newHistory c.text c.sub.text flags).1 = 0 ↔
      (c.EndsS → ∃ line ∈ linesOf newHistory.text, c.Resembles line) := by
  have hends : has c.text "-s " = true ↔ c.EndsS := has_iff c (m := "-s".toList) rfl (by decide)
  have hstr : (if isSet dir c.text = true then "S-$@" else "s-$@").toList = c.letter "s" "S" ++ "-$@".toList := by
    rw [isSet_eq, letter]
    by_cases h : '@' ∈ c.form.operand
    · simp [h]
    · simp [h]
  rw [verifyAllow, if_neg (not_not_intro hflags)]
  simp only [subcmd_eq, dsname_eq, search_single]
  cases hs : has c.text "-s " with
  | true =>
    rw [if_pos rfl, hstr, behindAt_eq, search_double, ← grep_iff, setCode]
    exact ⟨fun h _ => h, fun h => h (hends.mp hs)⟩
  | false =>
    have hno : ¬c.EndsS := fun h => by
      rw [hends.mpr h] at hs
      cases hs
    refine iff_of_true ?_ fun h => absurd h hno
    rw [if_neg Bool.false_ne_true]
    rcases has_option c hs with h | h | h | h <;> simp only [h, if_true, ite_self]

/-! ## Commands for sets -/

/-- For `-s` the code that is searched is the one that the command implies. -/
theorem codes_permSet (acc : Accounts) (c : Command) {set perms : Text} (hform : c.form = .permSet set perms) :
    c.codes acc = [c.setCode] := by
  have hfront : c.front = "zfs ".toList ++ (c.sub.text ++ " -s ".toList) ++ '@' :: (set ++ ' ' :: perms) := by
    simp [front, frontWords, hform, Form.options, Form.operand, row]
  have hat : '@' ∉ "zfs ".toList ++ (c.sub.text ++ " -s ".toList) := by
    cases c.sub <;> decide
  have hbehind : (c.front.dropWhile (· ≠ '@')).tail = set ++ ' ' :: perms := by
    rw [hfront, dropWhile_separator hat, List.tail_cons]
  have hmem : '@' ∈ c.front := by
    rw [hfront]
    simp
  rw [setCode, if_pos hmem, hbehind]
  simp [codes, hform]

/-- A record resembles itself. -/
theorem resembles_of_recorded (c : Command) {line : Text} (h : c.Recorded c.setCode line) : c.Resembles line := by
  obtain ⟨pre, id, post, rfl, -, hid, -⟩ := h
  exact ⟨pre, c.recordFront, id, ") ".toList ++ c.setCode, post, rfl, Grep.like_self _, hid, Grep.like_self _⟩

/-- A set that the history has is found. -/
theorem verifyAllow_permSet (dir : Directory) (acc : Accounts) (newHistory : Log) (c : Command) {set perms : Text}
    (hform : c.form = .permSet set perms) {flags : Text} (hflags : 'i' ∈ flags) (h : c.InHistory acc newHistory) :
    (verifyAllow dir acc newHistory c.text c.sub.text flags).1 = 0 := by
  rw [Command.InHistory, codes_permSet acc c hform] at h
  obtain ⟨line, hline, hrecord⟩ := h c.setCode List.mem_cons_self
  exact (verifyAllow_status dir acc newHistory c hflags).mpr fun _ => ⟨line, hline, resembles_of_recorded c hrecord⟩

/-! ## When the check is sound -/

/-- The check is sound exactly when all codes are in the history, or a word ends in `-s` and no line resembles the record for it. -/
theorem verify_allow_sound_iff (dir : Directory) (acc : Accounts) (newHistory : Log) (c : Command) {flags : Text} (hflags : 'i' ∈ flags) :
    c.Sound dir acc newHistory flags ↔
      c.InHistory acc newHistory ∨ c.EndsS ∧ ∀ line ∈ linesOf newHistory.text, ¬c.Resembles line := by
  rw [Sound, verifyAllow_status dir acc newHistory c hflags]
  constructor
  · intro h
    by_cases hends : c.EndsS ∧ ∀ line ∈ linesOf newHistory.text, ¬c.Resembles line
    · exact .inr hends
    · refine .inl (h fun hs => ?_)
      by_contra hno
      exact hends ⟨hs, fun line hline hres => hno ⟨line, hline, hres⟩⟩
  · rintro (h | ⟨hs, hno⟩) hstatus
    · exact h
    · obtain ⟨line, hline, hres⟩ := hstatus hs
      exact absurd hres (hno line hline)

/-- `zfs allow -c create tank`. -/
def Command.sample : Command where
  sub := .allow
  form := .create "create".toList
  dsname := "tank".toList
  plain := by decide
  dsname_plain := by decide
  dataset := by decide

def Accounts.sample : Accounts := ⟨fun _ => ['0'], []⟩

/-- The record of the sample's only code. -/
def Log.sample : Log := ⟨"new".toList, Command.sample.recordFront ++ "2) c-$ create".toList⟩

theorem verify_allow_sound_sample : Command.sample.Sound .crossed .sample .sample "-i".toList := by
  apply (verify_allow_sound_iff .crossed .sample .sample .sample (by decide)).mpr
  have hline : linesOf Log.sample.text = [Log.sample.text] := linesOf_single (by decide) (by decide)
  have hdigits : ∀ d ∈ ['2'], d.isDigit = true := List.forall_mem_singleton.mpr rfl
  refine .inl fun code hcode => ⟨Log.sample.text, hline ▸ List.mem_cons_self, [], ['2'], [], ?_, by decide, hdigits, by simp⟩
  have hcode : code = "c-$ create".toList := List.mem_singleton.mp hcode
  rw [hcode, List.append_nil]
  rfl

/-- Without any history, `verify_allow` returns `0` for the sample. -/
theorem not_verify_allow_sound :
    ¬∀ (dir : Directory) (acc : Accounts) (newHistory : Log) (c : Command) (flags : Text), 'i' ∈ flags →
      c.Sound dir acc newHistory flags := by
  intro h
  have hsample := h .crossed .sample ⟨"new".toList, []⟩ .sample "-i".toList (by decide)
  have hno : ¬Command.sample.EndsS := by
    unfold EndsS
    decide
  have hflags : 'i' ∈ "-i".toList := by decide
  have hstatus := (verifyAllow_status .crossed .sample ⟨"new".toList, []⟩ .sample hflags).mpr fun hs => absurd hs hno
  obtain ⟨line, hline, -⟩ := hsample hstatus _ List.mem_cons_self
  cases hline

end ZfsTest.History
