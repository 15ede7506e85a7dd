import Mathlib.Data.List.Induction
import ZfsTest.Logapi.Logfile
import ZfsTest.Prog.Fold
import ZfsTest.Stf.Wordlist

/-!
# Test scripts and `_endlog`

A test script calls external commands, its own functions and the functions of `logapi.shlib`, and goes on according to the exit
statuses (`Script`). `log_must` and its like call `log_fail` when a command has not done what it should; this and every other
`log_` function that ends a script calls `_endlog`, which calls the handler that `log_onexit` has set and exits. The handler is a
function of the script, so all this may happen again inside of it. The shell is a machine with a stack of what is waiting for the
command in progress (`Shell.step`); each step takes a reply, which is what an external command returns and writes.

`exit` in a subshell ends the subshell, and what a subshell sets is lost; the log files have the same names in it.
-/

namespace ZfsTest.Logapi

open Stf (isIfs)

/-! ## Scripts -/

def STF_PASS : Nat := 0

def STF_FAIL : Nat := 1

def STF_UNRESOLVED : Nat := 2

def STF_NOTINUSE : Nat := 3

def STF_UNSUPPORTED : Nat := 4

def STF_UNTESTED : Nat := 5

def STF_UNINITIATED : Nat := 6

def STF_NORESULT : Nat := 7

def STF_WARNING : Nat := 8

def STF_TIMED_OUT : Nat := 9

def STF_OTHER : Nat := 10

/-- What is left to do for a script or for a function of it, by the status of each command. -/
inductive Script
  /-- The end, with the status of the last command. -/
  | done (status : Nat)
  /-- A function of the script, or an external command. -/
  | run (words : List Text) (k : Nat → Script)
  /-- `log_pos` or `log_neg_expect`; when it is required, the result is followed by `(( $? != 0 )) && log_fail`. -/
  | check (kind : Kind) (required : Bool) (words : List Text) (k : Nat → Script)
  | printline (words : List Text) (k : Script)
  | onexit (handler : Text) (k : Script)
  | endlog (code : Nat) (msg : List Text)
  | exit (status : Nat)
  | sub (s : Script) (k : Nat → Script)

section

variable (words : List Text)

def logAssert (k : Script) : Script := .printline ("ASSERTION:".toList :: words) k

def logNote (k : Script) : Script := .printline ("NOTE:".toList :: words) k

def logPos (k : Nat → Script) : Script := .check .pos false words k

def logNegExpect (expect : Text) (k : Nat → Script) : Script := .check (.negExpect expect) false words k

def logNeg (k : Nat → Script) : Script := logNegExpect words [] k

def logMust (k : Nat → Script) : Script := .check .pos true words k

def logMustnot (k : Nat → Script) : Script := .check (.negExpect []) true words k

def logMustnotExpect (expect : Text) (k : Nat → Script) : Script := .check (.negExpect expect) true words k

def logOnexit (k : Script) : Script := .onexit (joined words) k

def logPass : Script := .endlog STF_PASS words

def logFail : Script := .endlog STF_FAIL words

def logUnresolved : Script := .endlog STF_UNRESOLVED words

def logNotinuse : Script := .endlog STF_NOTINUSE words

def logUnsupported : Script := .endlog STF_UNSUPPORTED words

def logUntested : Script := .endlog STF_UNTESTED words

def logUninitiated : Script := .endlog STF_UNINITIATED words

def logNoresult : Script := .endlog STF_NORESULT words

def logWarning : Script := .endlog STF_WARNING words

def logTimedOut : Script := .endlog STF_TIMED_OUT words

def logOther : Script := .endlog STF_OTHER words

end

/-! ## The shell -/

/-- A log file: the number of its name, and the file that has been created for it. -/
structure Log where
  name : Nat
  file : Nat

/-- What waits for the command in progress. -/
inductive Frame
  /-- The caller of a function. -/
  | call (k : Nat → Script)
  /-- `log_pos` or `log_neg_expect`, with its log file and all that its command has written to `stderr`. -/
  | check (kind : Kind) (required : Bool) (words : List Text) (log : Log) (sent : Text) (k : Nat → Script)
  /-- `_endlog`, while the handler runs. -/
  | endlog (code : Nat) (msg : List Text)
  /-- The shell around a subshell, with the handler that is set in it. -/
  | sub (cleanup : Text) (k : Nat → Script)

/-- What happens in a run. -/
inductive Event
  /-- `_printline`; the time is left out. -/
  | printed (words : List Text)
  /-- A log file on `stdout`. -/
  | cat (text : Text)
  /-- A call of `log_onexit`. -/
  | registered (handler : Text)
  /-- The end of a check: what it has read in its log file, and what its command has written. -/
  | checked (kind : Kind) (required : Bool) (status : Nat) (text sent : Text) (result : Nat)
  /-- A call of `_endlog`, with the handler that is set. -/
  | ended (code : Nat) (handler : Text)
  | exited (status : Nat)
  /-- The last command of the script has ended. -/
  | finished (status : Nat)
  deriving DecidableEq, Repr

/-- A subshell or the shell of the script. The events are numbered by the subshells around them; the last one is the first. -/
structure Shell where
  cur : Script
  frames : List Frame
  /-- `_CLEANUP`. -/
  cleanup : Text
  /-- The log files that exist, by their names `/tmp/log.$$`, `/tmp/log.$$.$$` and so on. -/
  files : List (Nat × Text)
  /-- The number of log files that have been created. -/
  created : Nat
  trace : List (Nat × Event)
  /-- The exit status of the script. -/
  code : Option Nat

/-- What an external command returns, and what it writes to `stderr`. -/
structure Reply where
  status : Nat
  stderr : Text

structure Setting where
  /-- The functions of the script. -/
  funs : Text → Option (List Text → Script)
  /-- `grep -i` finds a keyword in a text. -/
  grepI : Text → Text → Bool
  /-- `LOGAPI_DEBUG` is set. -/
  debug : Bool
  /-- What `print $($out)` writes of a log file. -/
  unquoted : Text → Text

/-- The number of subshells. -/
def depth : List Frame → Nat
  | [] => 0
  | .sub _ _ :: fs => depth fs + 1
  | _ :: fs => depth fs

/-- The file that is the `stderr` of the command in progress: the log file of the innermost check. -/
def stderrFile : List Frame → Option Nat
  | [] => none
  | .check _ _ _ log _ _ :: _ => some log.file
  | _ :: fs => stderrFile fs

/-- The command in progress has written this to `stderr`. -/
def send (t : Text) : List Frame → List Frame
  | [] => []
  | .check kind required words log sent k :: fs => .check kind required words log (sent ++ t) k :: fs
  | f :: fs => f :: send t fs

/-- What `exit` leaves: the nearest subshell, or nothing. -/
def unwind : List Frame → Option (Text × (Nat → Script) × List Frame)
  | [] => none
  | .sub cleanup k :: fs => some (cleanup, k, fs)
  | _ :: fs => unwind fs

namespace Shell

def emit (s : Shell) (es : List Event) : Shell := { s with trace := (es.map fun e => (depth s.frames, e)).reverse ++ s.trace }

/-- Text for `stderr`; a file that has been removed does not exist any more, but can still be open. -/
def err (s : Shell) (t : Text) : Shell :=
  { s with
    frames := send t s.frames
    files := s.files.map fun f => if stderrFile s.frames = some f.1 then (f.1, f.2 ++ t) else f }

def exit (s : Shell) (status : Nat) : Shell :=
  match unwind s.frames with
  | none => { s with cur := .done status, frames := [], code := some status }
  | some (cleanup, k, fs) => { s with cur := k status, frames := fs, cleanup := cleanup }

/-- What `cat` finds in a log file. -/
def cat (s : Shell) (name : Nat) : Text :=
  match s.files[name]? with
  | none => []
  | some f => f.2

/-- `_recursive_output` from the log file `start` on. -/
def recursiveOutput (s : Shell) (start : Nat) (itself : Bool) : Shell :=
  { s.emit ((s.files.drop (if itself then start else start + 1)).map fun f => .cat f.2) with files := s.files.take start }

/-- The end of `_endlog`. -/
def endlogExit (s : Shell) (code : Nat) (msg : List Text) : Shell := (s.emit (if msg = [] then [] else [.printed msg])).exit code

/-- The call of the handler in `_endlog`. -/
def callHandler (s : Shell) (code : Nat) (msg : List Text) : Shell :=
  let note := "Performing local cleanup via log_onexit (".toList ++ s.cleanup ++ [')']
  { s.emit [.printed ["NOTE:".toList, note]] with
    cur := .run (words isIfs s.cleanup) .done
    frames := .endlog code msg :: s.frames
    cleanup := [] }

/-- `_endlog`. -/
def endlog (s : Shell) (code : Nat) (msg : List Text) : Shell :=
  let s := (s.recursiveOutput 0 true).emit [.ended code s.cleanup]
  if s.cleanup = [] then s.endlogExit code msg else s.callHandler code msg

end Shell

/-- `exited $status`, after some words. -/
def exitedText (front : String) (status : Nat) : Text := front.toList ++ "exited ".toList ++ natText status

/-- The line that a check prints. -/
def message (job : Job) (result : Nat) (words : List Text) : List Text :=
  if result = 0 then
    "SUCCESS:".toList :: words ++ match job.kind with
      | .pos => []
      | .negExpect _ => [exitedText "" job.status]
  else
    "ERROR:".toList :: words ++
      match byStatus job with
      | some _ =>
        match job.kind with
        | .pos => [exitedText "" job.status]
        | .negExpect _ =>
          [exitedText "unexpectedly " job.status ++ (if job.status = 127 then " (File not found)".toList
            else if job.status = 138 then " (Bus Error)".toList else if job.status = 139 then " (SEGV)".toList else [])]
      | none =>
        if internalError job.text then ["internal error or assertion failure".toList, exitedText " " job.status]
        else [exitedText "unexpectedly " job.status]

namespace Shell

variable (w : Setting)

/-- What a check with its result prints; its log file is gone then. -/
def report (s : Shell) (job : Job) (r : Nat) (words : List Text) (log : Log) : Shell :=
  let out := w.unquoted job.text
  let s := if r ≠ 0 then s.err out else s.emit (if w.debug then [.cat out] else [])
  (s.emit [.printed (message job r words)]).recursiveOutput log.name false

/-- The end of `log_pos` or `log_neg_expect`, and of the function that has required it. The status of `(( $? != 0 ))` is 1 when the
result is 0. -/
def judge (s : Shell) (kind : Kind) (required : Bool) (words : List Text) (log : Log) (sent : Text) (k : Nat → Script)
    (status : Nat) : Shell :=
  let job : Job := ⟨kind, [s.cat log.name], status⟩
  let r := verdict w.grepI job
  { (s.report w job r words log).emit [.checked kind required status (s.cat log.name) sent r] with
    cur := if required then (if r ≠ 0 then .endlog STF_FAIL [] else k 1) else k r }

/-- A function or an external command. -/
def command (s : Shell) (reply : Reply) (words : List Text) (k : Nat → Script) : Shell :=
  match words with
  | [] => { s with cur := k 0 }
  | f :: args =>
    match w.funs f with
    | some body => { s with cur := body args, frames := .call k :: s.frames }
    | none => { s.err reply.stderr with cur := k reply.status }

/-- The end of a function, of a command of `logapi.shlib`, of a subshell or of the script. -/
def resume (s : Shell) (status : Nat) : Shell :=
  match s.frames with
  | [] => (s.emit [.finished status]).exit status
  | .call k :: fs => { s with cur := k status, frames := fs }
  | .check kind required words log sent k :: fs => { s with frames := fs }.judge w kind required words log sent k status
  | .endlog code msg :: fs => { s with frames := fs }.endlogExit code msg
  | .sub cleanup k :: fs => { s with cur := k status, frames := fs, cleanup := cleanup }

def step (s : Shell) (reply : Reply) : Shell :=
  if s.code ≠ none then s
  else
    match s.cur with
    | .done status => s.resume w status
    | .run words k => s.command w reply words k
    | .check kind required words k =>
      { s with
        cur := .run words .done
        frames := .check kind required words ⟨s.files.length, s.created⟩ [] k :: s.frames
        files := s.files ++ [(s.created, [])]
        created := s.created + 1 }
    | .printline words k => { s.emit [.printed words] with cur := k }
    | .onexit handler k => { s.emit [.registered handler] with cur := k, cleanup := handler }
    | .endlog code msg => s.endlog code msg
    | .exit status => (s.emit [.exited status]).exit status
    | .sub script k => { s with cur := script, frames := .sub s.cleanup k :: s.frames }

/-- The shell of a script, at its start. -/
def start (script : Script) : Shell := ⟨script, [], [], [], 0, [], none⟩

def run (script : Script) (replies : List Reply) : Shell := replies.foldl (step w) (start script)

/-- What holds at the start and is kept by every step holds in every run. -/
theorem run_induction {P : Shell → Prop} {script : Script} (hstart : P (start script))
    (hstep : ∀ s reply, P s → P (s.step w reply)) (replies : List Reply) : P (run w script replies) :=
  foldl_induction (P := fun _ s => P s) hstart (fun _ s reply h (_ : True) => hstep s reply h) replies fun _ _ _ _ => trivial

end Shell

end ZfsTest.Logapi
