import ZfsTest.Tcl.Expr

/-!
# The synchronization server `mstf_syncserv.exp`

Every client sends one line on a connection of its own: `getv name`, `setv name=value`, `sync label`, `sfin` or `stop`. The server
takes one connection after the other (`handle_connect`) until `rval` is set, and then exits with it. An error in the handler ends
the handler: what it has done stays, and the connection stays open.

Clients are numbered in the order in which their connections are taken; the channel of client `i` is called `sock` and `i`.
-/

namespace ZfsTest.Mstf

open Tcl

def STF_PASS : Nat := 0
def STF_UNRESOLVED : Nat := 2

/-- The name of the channel to a client. -/
def chanName (i : Nat) : Text := ['s', 'o', 'c', 'k'] ++ natText i

/-- The key of the list of those that wait for a variable, in the array of the variables. -/
def waitKey (var : Text) : Text := var ++ [',', 'w', 'a', 'i', 't']

/-- What a client can be sent: `go`, `failed`, or the value of a variable. -/
inductive Reply
  | go
  | failed
  | value (text : Text)
  deriving DecidableEq, Repr

/-- The global variables of the server; `rval` has no value while the server waits for it. `openChans` are the channels that are
open, `conns` counts the connections, and `replies` is what was sent to clients. -/
structure Server where
  numParts : Int
  targetLabel : Text
  openList : List Nat
  sharedVars : Array
  rval : Option Nat
  openChans : List Nat
  conns : Nat
  replies : List (Nat × Reply)

def Server.init (numParts : Int) : Server := ⟨numParts, [], [], [], none, [], 0, []⟩

def Server.close (s : Server) (i : Nat) : Server := { s with openChans := s.openChans.erase i }

/-- `puts` and `close`. -/
def Server.reply (s : Server) (i : Nat) (r : Reply) : Server := { s.close i with replies := s.replies ++ [(i, r)] }

/-- The same reply to several clients. -/
def Server.replyAll (s : Server) (is : List Nat) (r : Reply) : Server := is.foldl (fun s i => s.reply i r) s

section

variable (quoteHash : Bool)

def getv (s : Server) (chan : Nat) (var : Text) : Server :=
  match s.sharedVars.get? var with
  | some value => s.reply chan (.value value)
  | none =>
    match s.sharedVars.get? (waitKey var) with
    | none => { s with sharedVars := s.sharedVars.put (waitKey var) (chanName chan) }
    | some list =>
      match parse list with
      | none => s
      | some names => { s with sharedVars := s.sharedVars.put (waitKey var) (format quoteHash (names ++ [chanName chan])) }

/-- The loop over the channels that wait; it ends with an error at a name that is no open channel. -/
def answerAll (value : Text) : List Text → Server → Server × Bool
  | [], s => (s, true)
  | name :: names, s =>
    match s.openChans.find? fun i => chanName i = name with
    | none => (s, false)
    | some i => answerAll value names (s.reply i (.value value))

/-- `assign` is the rest of the line as a list; its parts between `=` are the variable and the value. -/
def setv (s : Server) (chan : Nat) (assign : Text) : Server :=
  let var := assign.takeWhile (· ≠ '=')
  let value := ((assign.dropWhile (· ≠ '=')).drop 1).takeWhile (· ≠ '=')
  let s := { s with sharedVars := s.sharedVars.put var value }.close chan
  match s.sharedVars.get? (waitKey var) with
  | none => s
  | some list =>
    match parse list with
    | none => s
    | some names =>
      let (s, done) := answerAll value names s
      if done then { s with sharedVars := s.sharedVars.unset (waitKey var) } else s

/-- `go` to those that wait when all parts do. -/
def release (s : Server) : Server :=
  if (s.openList.length : Int) = s.numParts then
    { s.replyAll s.openList .go with targetLabel := [], openList := [] }
  else s

def sync (s : Server) (chan : Nat) (label : Text) : Server :=
  if eq label s.targetLabel || eq s.targetLabel [] then
    release { s with targetLabel := label, openList := s.openList ++ [chan] }
  else
    { (s.replyAll s.openList .failed).reply chan .failed with rval := some STF_UNRESOLVED }

def sfin (s : Server) : Server := release { s with numParts := s.numParts - 1 }

/-- `array names shared_vars *,wait`. -/
def waitNames (a : Array) : List Text := (a.map Prod.fst).filter fun k => waitKey [] <:+ k

def stop (s : Server) : Server :=
  if waitNames s.sharedVars ≠ [] ∨ s.openList ≠ [] then { s with rval := some STF_UNRESOLVED }
  else { s with rval := some STF_PASS }

def invalidCommand (s : Server) (chan : Nat) : Server :=
  { (s.replyAll s.openList .failed).close chan with rval := some STF_UNRESOLVED }

/-- A command that begins with `-` is taken for an option of `switch`, which is an error. -/
def handleConnect (s : Server) (chan : Nat) (line : Text) : Server :=
  match parse line with
  | none => s
  | some words =>
    let command := words.headD []
    if command.head? = some '-' then s
    else if command = ['g', 'e', 't', 'v'] then getv quoteHash s chan (words.getD 1 [])
    else if command = ['s', 'e', 't', 'v'] then setv s chan (format quoteHash (words.drop 1))
    else if command = ['s', 'y', 'n', 'c'] then sync s chan (format quoteHash (words.drop 1))
    else if command = ['s', 'f', 'i', 'n'] then sfin s
    else if command = ['s', 't', 'o', 'p'] then stop s
    else invalidCommand s chan

/-- `gets`: a line ends at a newline or a carriage return. -/
def gets (text : Text) : Text := text.takeWhile fun c => c ≠ '\n' && c ≠ '\r'

/-- The next connection; once `rval` is set there is no server. -/
def serve (s : Server) (text : Text) : Server :=
  if s.rval.isSome then { s with conns := s.conns + 1 }
  else handleConnect quoteHash { s with conns := s.conns + 1, openChans := s.conns :: s.openChans } s.conns (gets text)

end

/-! ## Replies -/

variable {s : Server}

@[simp] theorem reply_replies (i : Nat) (r : Reply) : (s.reply i r).replies = s.replies ++ [(i, r)] := rfl
@[simp] theorem reply_numParts (i : Nat) (r : Reply) : (s.reply i r).numParts = s.numParts := rfl
@[simp] theorem reply_targetLabel (i : Nat) (r : Reply) : (s.reply i r).targetLabel = s.targetLabel := rfl
@[simp] theorem reply_openList (i : Nat) (r : Reply) : (s.reply i r).openList = s.openList := rfl
@[simp] theorem reply_sharedVars (i : Nat) (r : Reply) : (s.reply i r).sharedVars = s.sharedVars := rfl
@[simp] theorem reply_rval (i : Nat) (r : Reply) : (s.reply i r).rval = s.rval := rfl
@[simp] theorem reply_conns (i : Nat) (r : Reply) : (s.reply i r).conns = s.conns := rfl
@[simp] theorem reply_openChans (i : Nat) (r : Reply) : (s.reply i r).openChans = s.openChans.erase i := rfl

/-- What replies leave alone. -/
structure SameButReplies (s s' : Server) : Prop where
  numParts : s'.numParts = s.numParts
  targetLabel : s'.targetLabel = s.targetLabel
  openList : s'.openList = s.openList
  sharedVars : s'.sharedVars = s.sharedVars
  rval : s'.rval = s.rval
  conns : s'.conns = s.conns

theorem SameButReplies.refl (s : Server) : SameButReplies s s := ⟨rfl, rfl, rfl, rfl, rfl, rfl⟩

theorem SameButReplies.trans {s₁ s₂ s₃ : Server} (h : SameButReplies s₁ s₂) (h' : SameButReplies s₂ s₃) :
    SameButReplies s₁ s₃ :=
  ⟨h'.numParts.trans h.numParts, h'.targetLabel.trans h.targetLabel, h'.openList.trans h.openList,
    h'.sharedVars.trans h.sharedVars, h'.rval.trans h.rval, h'.conns.trans h.conns⟩

theorem reply_same (s : Server) (i : Nat) (r : Reply) : SameButReplies s (s.reply i r) := ⟨rfl, rfl, rfl, rfl, rfl, rfl⟩

theorem replyAll_same (s : Server) (is : List Nat) (r : Reply) : SameButReplies s (s.replyAll is r) := by
  unfold Server.replyAll
  induction is generalizing s with
  | nil => exact .refl s
  | cons i is ih => exact (reply_same s i r).trans (ih (s.reply i r))

theorem replyAll_replies (s : Server) (is : List Nat) (r : Reply) :
    (s.replyAll is r).replies = s.replies ++ is.map fun i => (i, r) := by
  unfold Server.replyAll
  induction is generalizing s with
  | nil => simp
  | cons i is ih => rw [List.foldl_cons, ih, reply_replies, List.map_cons, List.append_assoc, List.singleton_append]

/-! ## Channel names -/

theorem chanName_injective {i j : Nat} (h : chanName i = chanName j) : i = j :=
  natText_injective (List.append_cancel_left h)

theorem plain_chanName (i : Nat) : Plain (chanName i) := by
  refine ⟨by simp [chanName], fun c hc => ?_⟩
  rcases List.mem_append.mp hc with hc | hc
  · have hall : ∀ c ∈ ['s', 'o', 'c', 'k'], plainChar c = true := List.all_eq_true.mp (by decide)
    exact hall c hc
  · have hd := mem_natText hc
    rw [plainChar_iff]
    refine ⟨?_, ?_⟩
    · by_contra hs
      rw [Bool.not_eq_false] at hs
      simp only [isSpace, Bool.or_eq_true, decide_eq_true_eq] at hs
      rcases hs with ((((rfl | rfl) | rfl) | rfl) | rfl) | rfl <;> exact absurd hd (by decide)
    · refine ⟨?_, ?_, ?_, ?_, ?_, ?_, ?_, ?_, ?_⟩ <;> rintro rfl <;> exact absurd hd (by decide)

end ZfsTest.Mstf
