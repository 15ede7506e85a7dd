import Mathlib.Algebra.Order.BigOperators.Group.List
import Mathlib.Algebra.Order.Group.Nat
import ZfsTest.Shell.Echo
import ZfsTest.Shell.Getopts
import ZfsTest.Shell.Read
import ZfsTest.Stf.Wordlist
import ZfsTest.Text.Separated

/-!
# Test-case files

`stf_addassert` appends a line with the name and the command of a test case to one of two files, and `testcaseExtract` reads them in a
`while read` loop. The line is written by `echo`, which replaces backslash sequences, and read without `-r`, which takes a backslash from
in front of any character, and the blanks at both ends of the command.

A sequence of calls is read back exactly when there are no backslashes in it and no blanks at the ends of its commands
(`extracted_iff`). A backslash cannot survive: `echo` does not print more of them than the calls hold, and `read` halves their number.
-/

namespace ZfsTest.Stf.Addassert

open Shell

/-! ## `stf_addassert` -/

/-- `':h?u:t:c:'`; `-?` ends the script like an option that is not known. -/
def optstring : Optstring := fun c =>
  if c = 'h' then some false else if c = 'u' ∨ c = 't' ∨ c = 'c' then some true else none

structure Seen where
  testname : Text
  rootmode : Bool
  seenT : Bool
  seenC : Bool
  deriving DecidableEq, Repr

def Seen.start : Seen := ⟨[], false, false, false⟩

inductive Turn
  | next (s : Seen)
  | last (s : Seen)
  | exit (status : Nat)
  deriving DecidableEq, Repr

section

variable (gosu : Bool)

/-- One turn of the loop over the options; `gosu` tells whether `stf_ensuregosu` succeeds. An option with a plus and one without its argument match no case. -/
def turn (s : Seen) : Getopt → Turn
  | .option false c arg =>
    if c = 'h' then .exit 0
    else if c = 'u' then
      if arg ≠ some "root".toList then .exit 1
      else if gosu then .next { s with rootmode := true }
      else .exit 1
    else if c = 't' then
      let testname := arg.getD []
      if testname = [] then .exit 1 else .next { s with seenT := true, testname := testname }
    else .last { s with seenC := true }
  | .option true _ _ => .next s
  | .missing _ => .next s
  | .unknown c => .exit (if c = '?' then 0 else 1)

/-- The loop, and the arguments behind the last one it has looked at. -/
def options (s : Seen) : List (Getopt × List Text) → List Text → Except Nat (Seen × List Text)
  | [], operands => .ok (s, operands)
  | (e, behind) :: es, operands =>
    match turn gosu s e with
    | .next s => options s es operands
    | .last s => .ok (s, behind)
    | .exit n => .error n

/-- What is appended to a file: `stf_root_testcases` or `stf_user_testcases`. -/
structure Appended where
  root : Bool
  line : Text
  deriving DecidableEq, Repr

/-- `stf_addassert`; an error is the exit status. -/
def stfAddassert (args : List Text) : Except Nat Appended :=
  match options gosu .start (getopts optstring args).1 (getopts optstring args).2 with
  | .error n => .error n
  | .ok (s, behind) =>
    let args := args.drop (args.length - behind.length - if s.seenC then 1 else 0)
    -- (( 0 == seenT == seenC ))
    if (!s.seenT) = s.seenC then .error 1
    else if args = [] then .error 1
    else .ok ⟨s.rootmode, echo (s.testname ++ '\\' :: 't' :: [' '].intercalate args)⟩

/-- The file of the user after some calls. -/
def userFile (calls : List (List Text)) : Text :=
  calls.flatMap fun args =>
    match stfAddassert gosu args with
    | .ok ⟨false, line⟩ => line
    | _ => []

end

/-- `while read test_case test_cmd` in `testcaseExtract`. -/
def testcaseExtract (file : Text) : List (Text × Text) := (readLines file).map (pairOf isIfs)

/-! ## Calls -/

/-- `-t name -c word...`. -/
structure Call where
  name : Text
  words : List Text
  name_ne : name ≠ []
  name_blank : ∀ c ∈ name, isIfs c = false
  words_ne : words ≠ []
  words_line : ∀ w ∈ words, '\n' ∉ w

namespace Call

variable (c : Call)

def args : List Text := "-t".toList :: c.name :: "-c".toList :: c.words

def command : Text := [' '].intercalate c.words

/-- Neither `echo` nor `read` changes a call. -/
structure Kept : Prop where
  name : '\\' ∉ c.name
  words : ∀ w ∈ c.words, '\\' ∉ w
  front : ∀ b ∈ c.command.head?, isIfs b = false
  back : ∀ b ∈ c.command.getLast?, isIfs b = false

/-- The options of a call, up to `-c` with the first word. -/
theorem getopts_args {w : Text} {ws : List Text} (hwords : c.words = w :: ws) :
    ∃ es operands, getopts optstring c.args =
      ((.option false 't' (some c.name), "-c".toList :: c.words) :: (.option false 'c' (some w), ws) :: es, operands) := by
  have ht := @getopts_optarg optstring 't' rfl (by decide) c.name ("-c".toList :: c.words)
  have hc := @getopts_optarg optstring 'c' rfl (by decide) w ws
  have hcommand : "-c".toList :: c.words = ['-', 'c'] :: w :: ws := by rw [hwords]; rfl
  rw [args, hcommand]
  rw [hcommand, hc] at ht
  exact ⟨_, _, ht⟩

theorem stfAddassert_args (gosu : Bool) : stfAddassert gosu c.args = .ok ⟨false, echo (c.name ++ '\\' :: 't' :: c.command)⟩ := by
  obtain ⟨w, ws, hwords⟩ := List.exists_cons_of_ne_nil c.words_ne
  obtain ⟨es, operands, hopts⟩ := c.getopts_args hwords
  have hrun : options gosu .start (getopts optstring c.args).1 (getopts optstring c.args).2 =
      .ok (⟨c.name, false, true, true⟩, ws) := by
    rw [hopts]
    simp [options, turn, Seen.start, c.name_ne]
  have hdrop : c.args.drop (c.args.length - ws.length - 1) = c.words := by
    have hlen : c.args.length - ws.length - 1 = 3 := by
      rw [args, hwords]
      simp only [List.length_cons]
      omega
    rw [hlen]
    rfl
  simp [stfAddassert, hrun, hdrop, c.words_ne, command]

end Call

theorem userFile_calls (gosu : Bool) (calls : List Call) :
    userFile gosu (calls.map Call.args) = calls.flatMap fun c => echo (c.name ++ '\\' :: 't' :: c.command) := by
  rw [userFile, List.flatMap_map]
  refine List.flatMap_congr fun c _ => ?_
  rw [Call.stfAddassert_args]

/-! ## Backslashes do not survive -/

/-- The backslash of the tabulator is not printed, or the one in front of it is not. -/
theorem backslashes_tab (m : EchoMode) (u t : Text) :
    backslashes (echoFrom m (u ++ '\\' :: 't' :: t)) ≤ pending m + backslashes u + backslashes t := by
  induction u generalizing m with
  | nil =>
    have hplain := backslashes_echoFrom .plain t
    rw [List.nil_append, backslashes_nil, Nat.add_zero]
    cases m with
    | plain =>
      have hecho : echoFrom .plain ('\\' :: 't' :: t) = '\t' :: echoFrom .plain t := rfl
      rw [hecho, backslashes_cons, if_neg (by decide)]
      omega
    | backslash =>
      have hecho : echoFrom .backslash ('\\' :: 't' :: t) = '\\' :: 't' :: echoFrom .plain t := rfl
      rw [hecho, backslashes_cons, if_pos rfl, backslashes_cons, if_neg (by decide)]
      simp only [pending] at *
      omega
    | octal v n =>
      have hoctal : emitOctal v n '\\' = ([byte v], .backslash) := if_neg fun h => absurd h.2 (by decide)
      have hecho : echoFrom (.octal v n) ('\\' :: 't' :: t) = byte v :: '\t' :: echoFrom .plain t := by
        rw [echoFrom, emit, hoctal]
        rfl
      have hbyte := backslashes_byte v ('\t' :: echoFrom .plain t)
      rw [backslashes_cons '\t', if_neg (by decide)] at hbyte
      rw [hecho]
      simp only [pending] at *
      omega
    | cut => exact backslashes_echoFrom .cut t
  | cons c u ih =>
    have hemit := backslashes_emit m c
    have ih := ih (emit m c).2
    rw [List.cons_append, echoFrom, backslashes_append, backslashes_cons]
    omega

/-- The backslashes of a call. -/
def Call.weight (c : Call) : Nat := backslashes c.name + backslashes c.command

theorem backslashes_userFile (calls : List Call) :
    backslashes (calls.flatMap fun c => echo (c.name ++ '\\' :: 't' :: c.command)) ≤ (calls.map Call.weight).sum := by
  induction calls with
  | nil => exact Nat.le_refl 0
  | cons c calls ih =>
    have hline := backslashes_tab .plain c.name c.command
    rw [pending, Nat.zero_add] at hline
    rw [List.flatMap_cons, backslashes_append, List.map_cons, List.sum_cons, echo, Call.weight]
    omega

theorem backslashes_testcaseExtract (file : Text) :
    2 * ((testcaseExtract file).map fun p => backslashes p.1 + backslashes p.2).sum ≤ backslashes file := by
  have hread := backslashes_readLines file
  have hpairs : ((testcaseExtract file).map fun p => backslashes p.1 + backslashes p.2).sum ≤
      ((readLines file).map fun l => backslashes (text l)).sum := by
    rw [testcaseExtract, List.map_map]
    exact List.sum_le_sum fun l _ => backslashes_pairOf isIfs l
  omega

/-- A sequence of calls with a backslash is not read back. -/
theorem no_backslash {gosu : Bool} {calls : List Call}
    (h : testcaseExtract (userFile gosu (calls.map Call.args)) = calls.map fun c => (c.name, c.command)) :
    ∀ c ∈ calls, c.weight = 0 := by
  have hfile := backslashes_userFile calls
  have hread := backslashes_testcaseExtract (userFile gosu (calls.map Call.args))
  rw [h, List.map_map, userFile_calls] at hread
  have hsum : (calls.map Call.weight).sum = 0 := by
    change 2 * (calls.map Call.weight).sum ≤ _ at hread
    omega
  intro c hc
  exact List.sum_eq_zero_iff.mp hsum _ (List.mem_map_of_mem hc)

/-! ## Without backslashes -/

theorem Call.newline_notMem_command (c : Call) : '\n' ∉ c.command := by
  intro h
  rcases mem_intercalate h with h | ⟨w, hw, h⟩
  · exact absurd h (by decide)
  · exact c.words_line w hw h

theorem Call.backslash_notMem_command {c : Call} : '\\' ∉ c.command ↔ ∀ w ∈ c.words, '\\' ∉ w := by
  constructor
  · exact fun h w hw hmem => h (mem_intercalate_of_mem hw hmem)
  · rintro h hmem
    rcases mem_intercalate hmem with hmem | ⟨w, hw, hmem⟩
    · exact absurd hmem (by decide)
    · exact h w hw hmem

/-- A call without backslashes is read with its command stripped. -/
theorem testcaseExtract_plain {calls : List Call} (hcalls : ∀ c ∈ calls, c.weight = 0) (gosu : Bool) :
    testcaseExtract (userFile gosu (calls.map Call.args)) =
      calls.map fun c => (c.name, (c.command.dropWhile isIfs).rdropWhile isIfs) := by
  have hplain : ∀ c ∈ calls, '\\' ∉ c.name ∧ '\\' ∉ c.command := by
    intro c hc
    have hzero := hcalls c hc
    rw [Call.weight, Nat.add_eq_zero_iff] at hzero
    exact ⟨backslashes_eq_zero.mp hzero.1, backslashes_eq_zero.mp hzero.2⟩
  have hfile : userFile gosu (calls.map Call.args) = (calls.map fun c => c.name ++ '\t' :: c.command).flatMap fun l => l ++ ['\n'] := by
    rw [userFile_calls, List.flatMap_map]
    refine List.flatMap_congr fun c hc => ?_
    obtain ⟨hname, hcommand⟩ := hplain c hc
    have htab : echo ('\\' :: 't' :: c.command) = '\t' :: echo c.command := rfl
    rw [echo_front hname, htab, echo_plain hcommand]
    simp
  have hlines : ∀ l ∈ calls.map fun c => c.name ++ '\t' :: c.command, ∀ b ∈ l, b ≠ '\\' ∧ b ≠ '\n' := by
    intro l hl b hb
    obtain ⟨c, hc, rfl⟩ := List.mem_map.mp hl
    obtain ⟨hname, hcommand⟩ := hplain c hc
    rcases List.mem_append.mp hb with hb | hb
    · refine ⟨fun h => hname (h ▸ hb), ?_⟩
      rintro rfl
      exact absurd (c.name_blank '\n' hb) (by decide)
    · rcases List.mem_cons.mp hb with rfl | hb
      · exact ⟨by decide, by decide⟩
      · exact ⟨fun h => hcommand (h ▸ hb), fun h => c.newline_notMem_command (h ▸ hb)⟩
  rw [hfile, testcaseExtract, readLines_plain hlines, List.map_map, List.map_map]
  exact List.map_congr_left fun c _ => pairOf_unescaped c.name_ne c.name_blank rfl c.command

theorem Call.kept_iff (c : Call) :
    c.Kept ↔ c.weight = 0 ∧ (c.command.dropWhile isIfs).rdropWhile isIfs = c.command := by
  rw [trimmed_iff, Call.weight, Nat.add_eq_zero_iff, backslashes_eq_zero, backslashes_eq_zero, Call.backslash_notMem_command]
  exact ⟨fun h => ⟨⟨h.name, h.words⟩, h.front, h.back⟩, fun h => ⟨h.1.1, h.1.2, h.2.1, h.2.2⟩⟩

/-- The calls are read back, in order, exactly when they have no backslash and no blank at the ends of a command. -/
theorem extracted_iff (gosu : Bool) (calls : List Call) :
    testcaseExtract (userFile gosu (calls.map Call.args)) = calls.map (fun c => (c.name, c.command)) ↔ ∀ c ∈ calls, c.Kept := by
  constructor
  · intro h c hc
    have hzero := no_backslash h
    rw [testcaseExtract_plain hzero, List.map_inj_left] at h
    exact c.kept_iff.mpr ⟨hzero c hc, congrArg Prod.snd (h c hc)⟩
  · intro h
    have hkept := fun c hc => (Call.kept_iff c).mp (h c hc)
    rw [testcaseExtract_plain (fun c hc => (hkept c hc).1), List.map_inj_left]
    exact fun c hc => Prod.ext rfl (hkept c hc).2

/-- `stf_addassert -t tab -c print 'a\tb'`. -/
def tabCall : Call where
  name := "tab".toList
  words := ["print".toList, "a\\tb".toList]
  name_ne := by decide
  name_blank := by simp [isIfs]
  words_ne := by decide
  words_line := by decide

/-- The command is read back with a tabulator in it. -/
theorem tab_command : testcaseExtract (userFile true [tabCall.args]) ≠ [(tabCall.name, tabCall.command)] := by decide

end ZfsTest.Stf.Addassert
