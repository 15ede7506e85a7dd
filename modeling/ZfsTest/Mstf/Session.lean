import ZfsTest.Prog.Meeting
import ZfsTest.Mstf.Barrier
import ZfsTest.Mstf.Launch

/-!
# The parts of a test with the launcher and the server

`mstf_sync` of `mstf.tcllib` under `MSTF_EXIT_ON_ERROR`: a part connects, sends `sync` and a label, reads the reply on its connection, and
exits with `STF_UNRESOLVED` when there is no server or the reply is not `go`. A part passes when all its labels are behind it. The launcher
hears of a part that has ended some time later. All this happens in any order (`Move`).
-/

namespace ZfsTest.Mstf

open Tcl

inductive Phase
  | running
  /-- It has sent a request on a connection and reads. -/
  | waiting (chan : Nat)
  | ended (rval : Nat)
  /-- The launcher knows. -/
  | collected (rval : Nat)
  deriving DecidableEq, Repr

/-- A part: how many of its labels are behind it, and what it does. -/
structure Part where
  done : Nat
  phase : Phase
  deriving DecidableEq, Repr

structure Session (n : Nat) where
  sys : System
  part : Fin n → Part

inductive Move (n : Nat)
  /-- The next `mstf_sync` of a part connects, or the part passes. -/
  | call (i : Fin n)
  /-- It returns. -/
  | reply (i : Fin n)
  /-- The server takes the next connection. -/
  | serve
  /-- The launcher reads that a part has ended. -/
  | collect (i : Fin n)
  /-- The launcher is done. -/
  | finish
  deriving DecidableEq, Repr

namespace Session

variable {n : Nat} (quoteHash : Bool) (prog : Fin n → List Text)

def init (n : Nat) : Session n := ⟨.init n, fun _ => ⟨0, .running⟩⟩

def put (s : Session n) (i : Fin n) (p : Part) : Session n := { s with part := Function.update s.part i p }

/-- What is sent on a connection, or that it is closed without a reply (`some none`). -/
def received (s : Session n) (chan : Nat) : Option (Option Reply) :=
  match s.sys.server.replies.lookup chan with
  | some r => some (some r)
  | none => if s.sys.server.rval.isSome then some none else none

def call (s : Session n) (i : Fin n) : Option (Session n) :=
  let p := s.part i
  if p.phase = .running then
    match (prog i)[p.done]? with
    | none => some (s.put i ⟨p.done, .ended STF_PASS⟩)
    | some label =>
      match s.sys.connect (Req.text (.sync label)) with
      | none => some (s.put i ⟨p.done, .ended STF_UNRESOLVED⟩)
      | some sys => some ({ s with sys := sys }.put i ⟨p.done, .waiting (s.sys.server.conns + s.sys.queue.length)⟩)
  else none

def reply (s : Session n) (i : Fin n) : Option (Session n) :=
  let p := s.part i
  match p.phase with
  | .waiting chan =>
    (s.received chan).map fun r => s.put i (if r = some .go then ⟨p.done + 1, .running⟩ else ⟨p.done, .ended STF_UNRESOLVED⟩)
  | _ => none

def serve (s : Session n) : Option (Session n) :=
  if s.sys.queue = [] then none else some { s with sys := step quoteHash s.sys .serve }

def collect (s : Session n) (i : Fin n) : Option (Session n) :=
  let p := s.part i
  match p.phase with
  | .ended rval =>
    if s.sys.exit = none then
      some ({ s with sys := step quoteHash s.sys (.returned rval) }.put i ⟨p.done, .collected rval⟩)
    else none
  | _ => none

def finish (s : Session n) : Option (Session n) :=
  if s.sys.exit = none ∧ s.sys.left = 0 then some { s with sys := step quoteHash s.sys .finish } else none

def fire (s : Session n) : Move n → Option (Session n)
  | .call i => s.call prog i
  | .reply i => s.reply i
  | .serve => s.serve quoteHash
  | .collect i => s.collect quoteHash i
  | .finish => s.finish quoteHash

/-- A run from the start of the test, of moves that can be made. -/
def run (moves : List (Move n)) : Option (Session n) := moves.foldlM (fire quoteHash prog) (init n)

end Session

/-- Labels that the server reads back as they are sent, and tells apart. -/
structure WellLabelled {n : Nat} (quoteHash : Bool) (prog : Fin n → List Text) : Prop where
  each : ∀ i, ∀ label ∈ prog i, LabelOk quoteHash label
  apart : ∀ i j, ∀ label ∈ prog i, ∀ label' ∈ prog j, eq label label' = true → label = label'

/-- The parts call `mstf_sync` with the same labels, as long as they call it. -/
def Agreed {n : Nat} (prog : Fin n → List Text) : Prop :=
  ∀ (i j : Fin n) (k : Nat) (label label' : Text), (prog i)[k]? = some label → (prog j)[k]? = some label' → label = label'

end ZfsTest.Mstf
