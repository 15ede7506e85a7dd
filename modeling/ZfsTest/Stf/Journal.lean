import Mathlib.Algebra.Order.Ring.Int
import ZfsTest.Text.Basic

/-!
# The journal library `libstf.c`

The functions that write one journal entry each, over the journal file, the variable file (`Jvars`) and the surroundings of a
call (`Env`: whether the journal can be opened, what the mutex calls return, the time, and what the uninitialised stack holds).
A call ends the process (`Stop.exit`), runs into undefined behaviour (`Stop.undefined`: a copy beyond the end of an array) or
returns.

Every entry is put together by one `snprintf` into a buffer of `MAXCHAR + 2` bytes.
-/

namespace ZfsTest.Stf

/-! ## Results -/

def STF_TIMED_OUT : Nat := 9
def STF_OTHER : Nat := 10
def STF_MAX_RESULTS : Nat := 11
def NORESULT_INDEX : Nat := 7
def OTHER_INDEX : Nat := 10

/-- `result_tbl`. -/
def resultTbl : List Text :=
  ["PASS".toList, "FAIL".toList, "UNRESOLVED".toList, "NOTINUSE".toList, "UNSUPPORTED".toList, "UNTESTED".toList,
    "UNINITIATED".toList, "NORESULT".toList, "WARNING".toList, "TIMED_OUT".toList, "OTHER".toList]

/-- `result_tbl[i]`. -/
def resultName (i : Nat) : Text := resultTbl.getD i []

def getStatusName (exitNo : Int) : Text :=
  if exitNo < 0 ∨ exitNo > (STF_MAX_RESULTS : Int) - 1 then resultName OTHER_INDEX else resultName exitNo.toNat

/-! ## Wait statuses, as in `sys/wait.h` -/

def WEXITSTATUS (status : BitVec 32) : Nat := ((status >>> 8) &&& 0xFF#32).toNat
def WTERMSIG (status : BitVec 32) : Nat := (status &&& 0x7F#32).toNat
def WIFSIGNALED (status : BitVec 32) : Bool := decide (0 < (status &&& 0xFF#32).toNat ∧ (status &&& 0xFF00#32) = 0#32)

/-! ## State -/

def MAXCHAR : Nat := 8192

/-- `struct jvars`, without its mutex. The texts are what stands before the first NUL. -/
structure Jvars where
  jasrt : Text
  jsubid : Text
  jargid : Text
  jseq : Nat
  jblk : Nat
  jact : Nat
  deriving DecidableEq, Repr

/-- The journal and the mapped variable file; `none` when `vfile_mmap` returns `-1`. -/
structure State where
  journal : Text
  vars : Option Jvars
  deriving DecidableEq, Repr

/-- What a call finds: `stack` is what an uninitialised array of characters holds. -/
structure Env where
  opens : Bool
  lockOk : Bool
  unlockOk : Bool
  hour : Nat
  minute : Nat
  second : Nat
  hrtime : Nat
  stack : Nat → Char

/-- A call that does not return. -/
inductive Stop
  | exit
  | undefined
  deriving DecidableEq, Repr

/-! ## Strings -/

/-- `snprintf` into a buffer of `size` bytes. -/
def snprintf (size : Nat) (t : Text) : Text := t.take (size - 1)

/-- `strcpy` into an array of `size` bytes. -/
def strcpy (size : Nat) (src : Text) : Except Stop Text := if src.length < size then .ok src else .error .undefined

/-- `strcat` to a string in an array of `size` bytes. -/
def strcat (size : Nat) (dst src : Text) : Except Stop Text := strcpy size (dst ++ src)

def JNL_TESTCASE_START : Text := "Test_Case_Start".toList
def JNL_TESTCASE_END : Text := "Test_Case_End".toList
def JNL_ASSERT_START : Text := "Assertion_Start".toList
def JNL_ASSERT_END : Text := "Assertion_End".toList
def JNL_MSG : Text := "Msg".toList
def JNL_TOTALS : Text := "Totals".toList

/-- The part of `build_id` for `sub_id`. -/
def buildSubId (subId : Text) : Except Stop Text := do
  if subId ≠ [] then
    let id ← strcat MAXCHAR [] ":".toList
    strcat MAXCHAR id subId
  else
    return []

/-- The part of `build_id` for `arg_id`, which is not a null pointer. -/
def buildArgId (id argId : Text) : Except Stop Text := do
  if argId ≠ [] then
    let id ← strcat MAXCHAR id "(".toList
    let id ← strcat MAXCHAR id argId
    strcat MAXCHAR id ")".toList
  else
    return id

/-- `build_id`; `argId` is `none` for a null pointer. -/
def buildId (subId : Text) (argId : Option Text) : Except Stop Text := do
  let id ← buildSubId subId
  match argId with
  | none => return id
  | some argId => buildArgId id argId

def getTime (env : Env) : Text :=
  snprintf 32 (padText env.hour ++ ":".toList ++ padText env.minute ++ ":".toList ++ padText env.second ++ " ".toList ++
    natText env.hrtime)

/-- An `unsigned short` assigned to a `short`. -/
def shortOf (n : Nat) : Int := (n : Int).bmod (2 ^ 16)

/-! ## The calls -/

/-- `stf_jnl_open`: the process ends when the journal cannot be opened. -/
def stfJnlOpen (env : Env) : Except Stop Unit := if env.opens then .ok () else .error .exit

/-- `print_entry` of what `snprintf` left in `buffer`. -/
def printEntry (entry : Text) (s : State) : State := { s with journal := s.journal ++ snprintf (MAXCHAR + 2) entry }

/-- A change of the variable file under its mutex. -/
def withMutex (env : Env) (v : Except Stop Jvars) : Except Stop Jvars := do
  if !env.lockOk then
    .error .exit
  else
    let v ← v
    if !env.unlockOk then
      .error .exit
    else
      return v

def stfJnlMsgPid (env : Env) (pid : Int) (msg : Text) (s : State) : Except Stop State := do
  stfJnlOpen env
  let msg := if msg = [] then "?".toList else msg
  return printEntry (JNL_MSG ++ "| ".toList ++ intText pid ++ " | ".toList ++ msg ++ "\n".toList) s

/-- The array `jnl_asrt_name` after the `strcpy` of the line: the line, the NUL, and what was there before. -/
def nameArray (env : Env) (line : Text) : Text :=
  line ++ '\x00' :: (List.range (MAXCHAR - (line.length + 1))).map fun i => env.stack (line.length + 1 + i)

/-- The assertion name without the arguments: the loop runs to the first blank of the array, wherever it stands. -/
def testcaseName (env : Env) (line : Text) : Except Stop Text := do
  let _ ← strcpy MAXCHAR line
  if ' ' ∈ nameArray env line then
    return ((nameArray env line).takeWhile (· ≠ ' ')).takeWhile (· ≠ '\x00')
  else
    .error .undefined

/-- The part of a call that reads the activity and changes the variable file under its mutex; without the file, the activity
is `-1`. -/
def onVars (env : Env) (s : State) (activity : Jvars → Int) (change : Jvars → Except Stop Jvars) : Except Stop (Int × State) :=
  match s.vars with
  | none => return (-1, s)
  | some v => do
    let v' ← withMutex env (change v)
    return (activity v, { s with vars := some v' })

def stfJnlTestcaseStartPid (env : Env) (pid : Int) (line : Text) (s : State) : Except Stop State := do
  stfJnlOpen env
  let name ← testcaseName env line
  let (activity, s) ← onVars env s (fun v => shortOf v.jact) fun v => do
    let jasrt ← strcpy 256 name
    return { v with jasrt := jasrt, jseq := (v.jseq + 1) % 2 ^ 16 }
  return printEntry (JNL_TESTCASE_START ++ "| ".toList ++ intText pid ++ " ".toList ++ line ++ " | ".toList ++ getTime env ++
    " ".toList ++ intText activity ++ " |\n".toList) s

/-- The result of a test case as its journal entry gives it: a name, and behind it an exit code and a signal number. -/
structure ResultField where
  name : Text
  exitCode : Option Nat
  signal : Option Nat
  deriving DecidableEq, Repr

def ResultField.text (f : ResultField) : Text :=
  f.name ++ (f.exitCode.elim [] fun n => '_' :: natText n) ++ (f.signal.elim [] fun n => ' ' :: natText n)

/-- The branches of `stf_jnl_testcase_end`. -/
def resultField (status : BitVec 32) : ResultField :=
  let charptr := getStatusName (WEXITSTATUS status)
  let exitstatus := WEXITSTATUS status
  if WIFSIGNALED status = false then
    if exitstatus < STF_OTHER then ⟨charptr, none, none⟩
    else ⟨charptr, some exitstatus, none⟩
  else if exitstatus = STF_TIMED_OUT then ⟨charptr, none, some (WTERMSIG status)⟩
  else if exitstatus < STF_OTHER then ⟨resultName NORESULT_INDEX, none, some (WTERMSIG status)⟩
  else ⟨charptr, some exitstatus, some (WTERMSIG status)⟩

/-- What `stf_jnl_testcase_end` prints on `stdout`. -/
def printedResult (status : BitVec 32) : Text := getStatusName (WEXITSTATUS status)

def stfJnlTestcaseEnd (env : Env) (name : Text) (childPid : Int) (status : BitVec 32) (s : State) : Except Stop State := do
  stfJnlOpen env
  let (activity, s) ← onVars env s (fun v => v.jact) fun v => return { v with jseq := (v.jseq + 1) % 2 ^ 16 }
  return printEntry (JNL_TESTCASE_END ++ "| ".toList ++ intText childPid ++ " ".toList ++ name ++ " | ".toList ++
    (resultField status).text ++ " | ".toList ++ getTime env ++ " ".toList ++ intText activity ++ " |\n".toList) s

/-- A text of the variable file; without the file it is empty. -/
def State.var (s : State) (field : Jvars → Text) : Text := s.vars.elim [] field

def stfJnlAssertStartPid (env : Env) (pid : Int) (subid : Text) (s : State) : Except Stop State := do
  stfJnlOpen env
  let asrt := s.var Jvars.jasrt
  let argid := s.var Jvars.jargid
  let (activity, s) ← onVars env s (fun v => shortOf v.jact) fun v => do
    let jsubid ← strcpy 256 subid
    return { v with jsubid := jsubid, jblk := 0, jseq := 0 }
  let id ← buildId subid (some argid)
  return printEntry (JNL_ASSERT_START ++ "| ".toList ++ intText pid ++ " ".toList ++ asrt ++ id ++ " | ".toList ++
    getTime env ++ " ".toList ++ intText activity ++ " |\n".toList) s

def stfJnlAssertEndPid (env : Env) (pid result : Int) (s : State) : Except Stop State := do
  stfJnlOpen env
  let activity := s.vars.elim (-1) fun v => shortOf v.jact
  let id ← buildId (s.var Jvars.jsubid) (some (s.var Jvars.jargid))
  return printEntry (JNL_ASSERT_END ++ "| ".toList ++ intText pid ++ " ".toList ++ s.var Jvars.jasrt ++ id ++ " | ".toList ++
    getStatusName result ++ " | ".toList ++ getTime env ++ " ".toList ++ intText activity ++ " |\n".toList) s

/-- `all_results`: each count that is not zero, through a buffer of 20 bytes. Its 8192 bytes hold eleven of these. -/
def allResults (resultCts : Fin STF_MAX_RESULTS → Int) : Text :=
  (List.finRange STF_MAX_RESULTS).flatMap fun i =>
    if resultCts i ≠ 0 then
      snprintf 20 (" ".toList ++ resultName i ++ ":".toList ++ intText (resultCts i))
    else []

def stfJnlTotalsPid (env : Env) (pid : Int) (idName : Text) (resultCts : Fin STF_MAX_RESULTS → Int) (s : State) :
    Except Stop State := do
  stfJnlOpen env
  let id ← buildId idName none
  return printEntry (JNL_TOTALS ++ "| ".toList ++ intText pid ++ " ".toList ++ s.var Jvars.jasrt ++ id ++ " |".toList ++
    allResults resultCts ++ "\n".toList) s

/-- The calls that write one entry. -/
inductive Call
  | msg (pid : Int) (msg : Text)
  | testcaseStart (pid : Int) (line : Text)
  | testcaseEnd (name : Text) (childPid : Int) (status : BitVec 32)
  | assertStart (pid : Int) (subid : Text)
  | assertEnd (pid result : Int)
  | totals (pid : Int) (idName : Text) (resultCts : Fin STF_MAX_RESULTS → Int)

def journalCall (env : Env) : Call → State → Except Stop State
  | .msg pid msg => stfJnlMsgPid env pid msg
  | .testcaseStart pid line => stfJnlTestcaseStartPid env pid line
  | .testcaseEnd name childPid status => stfJnlTestcaseEnd env name childPid status
  | .assertStart pid subid => stfJnlAssertStartPid env pid subid
  | .assertEnd pid result => stfJnlAssertEndPid env pid result
  | .totals pid idName resultCts => stfJnlTotalsPid env pid idName resultCts

/-- The reference code of a call. -/
def Call.code : Call → Text
  | .msg _ _ => JNL_MSG
  | .testcaseStart _ _ => JNL_TESTCASE_START
  | .testcaseEnd _ _ _ => JNL_TESTCASE_END
  | .assertStart _ _ => JNL_ASSERT_START
  | .assertEnd _ _ => JNL_ASSERT_END
  | .totals _ _ _ => JNL_TOTALS

end ZfsTest.Stf
