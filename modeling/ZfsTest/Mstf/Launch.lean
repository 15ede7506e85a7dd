import ZfsTest.Prog.Fold
import ZfsTest.Mstf.Syncserv

/-!
# The launcher `mstf_launch.exp` and the server

A run of `mstf_launch` with a sync server: parts send requests to the server, the server takes them one after the other, parts
return, and the launcher tells the server (`sfin` for a part that passed, `stop` for another one and at the end) and exits with the
result of highest precedence. These happen in any order (`Event`); nothing is assumed about what parts send or return.

The server keeps the loss of synchronization in its own exit status, and the launcher never asks for it. What it does notice is
that the server is gone, and a server is gone only some time after it has set `rval`. So a loss is reported as `STF_PASS` exactly when the
last `stop` of the launcher finds a server that has lost already and is still there, or when the server loses synchronization by one of
the requests that are still to be taken then (`run_honest_iff`).
-/

namespace ZfsTest.Mstf

open Tcl

/-! ## Results -/

def STF_OTHER : Nat := 10

/-- `result_prec`, by result code. -/
def resultPrec : List Nat := [1, 3, 6, 10, 9, 7, 8, 5, 2, 4, 11]

def prec (result : Nat) : Nat := resultPrec.getD result 0

/-- A result that is not in the table counts as `STF_OTHER`. -/
def known (result : Nat) : Nat := if result < resultPrec.length then result else STF_OTHER

def finalResult (resultList : List Nat) : Nat :=
  resultList.foldl (fun final result => if prec (known result) > prec final then known result else final) STF_PASS

/-! ## The system -/

/-- The server, the connections that it has not taken yet, and the launcher: whether it takes the server for running, the number of
parts that have not returned, their results, and the exit status. -/
structure System where
  server : Server
  queue : List Text
  running : Bool
  left : Nat
  resultList : List Nat
  exit : Option Nat

def System.init (parts : Nat) : System := ⟨Server.init parts, [], true, parts, [], none⟩

inductive Event
  /-- Somebody connects to the server and sends a text. -/
  | request (text : Text)
  /-- The server takes the next connection. -/
  | serve
  /-- A part returns. -/
  | returned (rval : Nat)
  /-- All parts have returned. -/
  | finish
  /-- A part ends without a return value. -/
  | eof
  deriving DecidableEq, Repr

/-- A connection, with what is sent on it; there is none when the server is gone. -/
def System.connect (s : System) (text : Text) : Option System :=
  if s.server.rval.isSome then none else some { s with queue := s.queue ++ [text] }

def sfinText : Text := ['s', 'f', 'i', 'n', '\n']
def stopText : Text := ['s', 't', 'o', 'p', '\n']

section

variable (connect : System → Text → Option System)

def removeScriptFromSyncserv (s : System) : System :=
  if s.running then
    match connect s sfinText with
    | none => { s with exit := some STF_UNRESOLVED }
    | some s => s
  else s

def stopSyncserv (s : System) : System :=
  if s.running then
    match connect s stopText with
    | none => { s with exit := some STF_UNRESOLVED }
    | some s => { s with running := false }
  else s

variable (quoteHash : Bool)

/-- One event. The launcher does nothing after its exit, and a connection that a server has not taken when it exits is lost. -/
def stepBy (s : System) : Event → System
  | .request text => (connect s text).getD s
  | .serve =>
    match s.queue with
    | [] => s
    | text :: queue =>
      let server := serve quoteHash s.server text
      { s with server := server, queue := if server.rval.isSome then [] else queue }
  | .returned rval =>
    if s.exit = none ∧ 0 < s.left then
      let s := { s with resultList := s.resultList ++ [rval], left := s.left - 1 }
      if rval = STF_PASS then removeScriptFromSyncserv connect s else stopSyncserv connect s
    else s
  | .finish =>
    if s.exit = none ∧ s.left = 0 then
      let s := stopSyncserv connect s
      if s.exit = none then { s with exit := some (finalResult s.resultList) } else s
    else s
  | .eof => if s.exit = none ∧ 0 < s.left then { s with exit := some STF_UNRESOLVED } else s

end

/-- One event, where the server exits as soon as it has set `rval`. -/
def step (quoteHash : Bool) (s : System) (e : Event) : System := stepBy System.connect quoteHash s e

/-! ## A server that exits later -/

/-- The system, and whether the server has exited. -/
structure Site where
  sys : System
  gone : Bool

inductive Happening
  | event (e : Event)
  /-- The server exits with `rval`. -/
  | leave
  deriving DecidableEq, Repr

/-- A connection is made until the server has exited, also when nobody takes it any more. -/
def reach (gone : Bool) (s : System) (text : Text) : Option System := if gone then none else some { s with queue := s.queue ++ [text] }

section

variable (quoteHash : Bool)

def Site.step (t : Site) : Happening → Site
  | .event e => { t with sys := stepBy (reach t.gone) quoteHash t.sys e }
  | .leave => if t.sys.server.rval.isSome then { t with gone := true } else t

def launch (parts : Nat) (hs : List Happening) : Site := hs.foldl (Site.step quoteHash) ⟨System.init parts, false⟩

end

/-- The request makes the server lose synchronization: `sync` with another label than the one that is waited for, `stop` while somebody
waits, or a command that there is not. -/
def Loses (quoteHash : Bool) (s : Server) (text : Text) : Prop :=
  match parse (gets text) with
  | none => False
  | some words =>
    let command := words.headD []
    let label := format quoteHash (words.drop 1)
    if command = ['s', 'y', 'n', 'c'] then eq label s.targetLabel = false ∧ eq s.targetLabel [] = false
    else if command = ['s', 't', 'o', 'p'] then waitNames s.sharedVars ≠ [] ∨ s.openList ≠ []
    else command ∉ [['g', 'e', 't', 'v'], ['s', 'e', 't', 'v'], ['s', 'f', 'i', 'n']] ∧ command.head? ≠ some '-'

/-- When the launcher is done and every part has passed, a server that has lost synchronization has exited. When the launcher has exited
with `STF_PASS`, the next request does not make the server lose it. -/
def HappeningOk (quoteHash : Bool) (t : Site) : Happening → Prop
  | .event .finish =>
    t.sys.exit = none → t.sys.left = 0 → (∀ r ∈ t.sys.resultList, r = STF_PASS) → t.sys.server.rval = some STF_UNRESOLVED → t.gone = true
  | .event .serve =>
    t.sys.exit = some STF_PASS → t.sys.server.rval = none → ∀ text ∈ t.sys.queue.head?, ¬Loses quoteHash t.sys.server text
  | _ => True

/-- The server has answered `failed`, or has ended with `STF_UNRESOLVED`. -/
def SyncLost (s : Server) : Prop := (∃ i, (i, Reply.failed) ∈ s.replies) ∨ s.rval = some STF_UNRESOLVED

/-- A loss of synchronization is not reported as success. -/
def Honest (s : System) : Prop := SyncLost s.server → s.exit ≠ some STF_PASS

/-! ## The result of highest precedence -/

theorem prec_known (result : Nat) : prec (known result) = 1 → result = STF_PASS := by
  have hall : ∀ r < resultPrec.length, prec r = 1 → r = STF_PASS := by decide
  unfold known
  split
  · rename_i h
    exact hall result h
  · intro h
    exact absurd h (by decide)

theorem one_le_prec_known (result : Nat) : 1 ≤ prec (known result) := by
  have hall : ∀ r < resultPrec.length, 1 ≤ prec r := by decide
  unfold known
  split
  · rename_i h
    exact hall result h
  · decide

/-- The result that is kept has at least the precedence of every result. -/
theorem prec_foldl (rs : List Nat) (final : Nat) :
    prec final ≤ prec (rs.foldl (fun final result => if prec (known result) > prec final then known result else final) final) ∧
      ∀ r ∈ rs, prec (known r) ≤
        prec (rs.foldl (fun final result => if prec (known result) > prec final then known result else final) final) := by
  induction rs generalizing final with
  | nil => exact ⟨Nat.le_refl _, List.forall_mem_nil _⟩
  | cons r rs ih =>
    obtain ⟨hle, hall⟩ := ih (if prec (known r) > prec final then known r else final)
    rw [List.foldl_cons]
    have hmax : prec final ≤ prec (if prec (known r) > prec final then known r else final) ∧
        prec (known r) ≤ prec (if prec (known r) > prec final then known r else final) := by
      split
      · omega
      · omega
    constructor
    · exact hmax.1.trans hle
    · intro r' hr'
      rcases List.mem_cons.mp hr' with rfl | hr'
      · exact hmax.2.trans hle
      · exact hall r' hr'

theorem all_pass_of_finalResult {rs : List Nat} (h : finalResult rs = STF_PASS) : ∀ r ∈ rs, r = STF_PASS := by
  intro r hr
  have hle := (prec_foldl rs STF_PASS).2 r hr
  have hone := one_le_prec_known r
  rw [show rs.foldl (fun final result => if prec (known result) > prec final then known result else final) STF_PASS = STF_PASS
    from h, show prec STF_PASS = 1 from rfl] at hle
  exact prec_known r (by omega)

theorem finalResult_pass {rs : List Nat} (h : ∀ r ∈ rs, r = STF_PASS) : finalResult rs = STF_PASS := by
  have hstep : (if prec (known STF_PASS) > prec STF_PASS then known STF_PASS else STF_PASS) = STF_PASS := by decide
  rw [finalResult]
  induction rs with
  | nil => rfl
  | cons r rs ih =>
    rw [List.foldl_cons, h r List.mem_cons_self, hstep]
    exact ih fun r hr => h r (List.mem_cons_of_mem _ hr)

/-! ## The server answers `failed` only at its end -/

def NoFailed (s : Server) : Prop := ∀ i, (i, Reply.failed) ∉ s.replies

def FailedEnds (s : Server) : Prop := ∀ i, (i, Reply.failed) ∈ s.replies → s.rval = some STF_UNRESOLVED

variable {quoteHash : Bool} {s : Server}

theorem NoFailed.reply (h : NoFailed s) {i : Nat} {r : Reply} (hr : r ≠ .failed) : NoFailed (s.reply i r) := by
  intro j hj
  rcases List.mem_append.mp hj with hj | hj
  · exact h j hj
  · cases List.mem_singleton.mp hj
    exact hr rfl

theorem NoFailed.replyAll (h : NoFailed s) {r : Reply} (hr : r ≠ .failed) (is : List Nat) : NoFailed (s.replyAll is r) := by
  unfold Server.replyAll
  induction is generalizing s with
  | nil => exact h
  | cons i is ih => exact ih (h.reply hr)

theorem NoFailed.getv (h : NoFailed s) (chan : Nat) (var : Text) : NoFailed (getv quoteHash s chan var) := by
  unfold Mstf.getv
  split
  · exact h.reply (by simp)
  · split
    · exact h
    · split
      · exact h
      · exact h

theorem NoFailed.answerAll (h : NoFailed s) (value : Text) (names : List Text) : NoFailed (answerAll value names s).1 := by
  induction names generalizing s with
  | nil => exact h
  | cons name names ih =>
    rw [Mstf.answerAll]
    split
    · exact h
    · exact ih (h.reply (by simp))

theorem NoFailed.setv (h : NoFailed s) (chan : Nat) (assign : Text) : NoFailed (setv s chan assign) := by
  have hclosed : ∀ a, NoFailed (Server.close { s with sharedVars := a } chan) := fun _ => h
  unfold Mstf.setv
  simp only
  split
  · exact hclosed _
  · split
    · exact hclosed _
    · split
      · exact (hclosed _).answerAll _ _
      · exact (hclosed _).answerAll _ _

theorem NoFailed.release (h : NoFailed s) : NoFailed (release s) := by
  unfold Mstf.release
  split
  · exact h.replyAll (r := .go) (by simp) s.openList
  · exact h

/-- A handler that answers `failed` sets `rval`. -/
theorem NoFailed.handleConnect (h : NoFailed s) (chan : Nat) (line : Text) :
    NoFailed (handleConnect quoteHash s chan line) ∨ (handleConnect quoteHash s chan line).rval = some STF_UNRESOLVED := by
  unfold Mstf.handleConnect
  split
  · exact Or.inl h
  · rename_i words _
    simp only
    split
    · exact Or.inl h
    · split
      · exact Or.inl (h.getv _ _)
      · split
        · exact Or.inl (h.setv _ _)
        · split
          · unfold Mstf.sync
            split
            · exact Or.inl (NoFailed.release h)
            · exact Or.inr rfl
          · split
            · exact Or.inl (NoFailed.release h)
            · split
              · unfold Mstf.stop
                split
                · exact Or.inl h
                · exact Or.inl h
              · exact Or.inr rfl

theorem FailedEnds.serve (h : FailedEnds s) (text : Text) : FailedEnds (serve quoteHash s text) := by
  cases hr : s.rval with
  | some rval =>
    rw [Mstf.serve, if_pos (by simp [hr])]
    exact h
  | none =>
    have hno : NoFailed { s with conns := s.conns + 1, openChans := s.conns :: s.openChans } := by
      intro i hi
      have := h i hi
      rw [hr] at this
      cases this
    rw [Mstf.serve, if_neg (by simp [hr])]
    rcases hno.handleConnect s.conns (gets text) with hno' | hend
    · exact fun i hi => absurd hi (hno' i)
    · exact fun _ _ => hend

theorem serve_rval_of_ended {rval : Nat} (h : s.rval = some rval) (text : Text) : (serve quoteHash s text).rval = some rval := by
  rw [serve, if_pos (by simp [h])]
  exact h

theorem getv_rval (s : Server) (chan : Nat) (var : Text) : (getv quoteHash s chan var).rval = s.rval := by
  unfold getv
  split
  · rfl
  · split
    · rfl
    · split <;> rfl

theorem answerAll_rval (value : Text) (names : List Text) (s : Server) : (answerAll value names s).1.rval = s.rval := by
  induction names generalizing s with
  | nil => rfl
  | cons name names ih =>
    rw [answerAll]
    split
    · rfl
    · exact ih _

theorem setv_rval (s : Server) (chan : Nat) (assign : Text) : (setv s chan assign).rval = s.rval := by
  unfold setv
  simp only
  split
  · rfl
  · split
    · rfl
    · split
      · exact answerAll_rval ..
      · exact answerAll_rval ..

theorem release_rval (s : Server) : (release s).rval = s.rval := by
  unfold release
  split
  · exact (replyAll_same s s.openList .go).rval
  · rfl

/-- The requests by which a server loses synchronization. -/
theorem serve_loses_iff (h : s.rval = none) (text : Text) :
    (serve quoteHash s text).rval = some STF_UNRESOLVED ↔ Loses quoteHash s text := by
  have hnone : ∀ {s' : Server} {P : Prop}, s'.rval = s.rval → ¬P → (s'.rval = some STF_UNRESOLVED ↔ P) := by
    intro s' P hrval hP
    rw [hrval, h]
    exact iff_of_false (fun hsome => nomatch hsome) hP
  rw [serve, if_neg (by simp [h]), handleConnect, Loses]
  cases parse (gets text) with
  | none => exact hnone rfl not_false
  | some words =>
    simp only
    generalize words.headD [] = command
    by_cases hdash : command.head? = some '-'
    · have hsync : command ≠ ['s', 'y', 'n', 'c'] := by
        rintro rfl
        cases hdash
      have hstop : command ≠ ['s', 't', 'o', 'p'] := by
        rintro rfl
        cases hdash
      rw [if_pos hdash, if_neg hsync, if_neg hstop]
      exact hnone rfl fun hlost => hlost.2 hdash
    · rw [if_neg hdash]
      by_cases hgetv : command = ['g', 'e', 't', 'v']
      · subst hgetv
        exact hnone (getv_rval ..) (by simp)
      · by_cases hsetv : command = ['s', 'e', 't', 'v']
        · subst hsetv
          exact hnone (setv_rval ..) (by simp)
        · rw [if_neg hgetv, if_neg hsetv]
          by_cases hsync : command = ['s', 'y', 'n', 'c']
          · rw [if_pos hsync, if_pos hsync]
            unfold sync
            split
            · rename_i hsame
              refine hnone (release_rval _) fun hlost => ?_
              rw [hlost.1, hlost.2] at hsame
              cases hsame
            · rename_i hother
              rw [Bool.or_eq_true, not_or, Bool.not_eq_true, Bool.not_eq_true] at hother
              exact iff_of_true rfl hother
          · rw [if_neg hsync, if_neg hsync]
            by_cases hsfin : command = ['s', 'f', 'i', 'n']
            · subst hsfin
              exact hnone (release_rval _) (by simp)
            · rw [if_neg hsfin]
              by_cases hstop : command = ['s', 't', 'o', 'p']
              · rw [if_pos hstop, if_pos hstop]
                unfold stop
                split
                · rename_i hwaits
                  exact iff_of_true rfl hwaits
                · rename_i hnobody
                  exact iff_of_false (fun hpass => nomatch Option.some.inj hpass) hnobody
              · rw [if_neg hstop, if_neg hstop]
                exact iff_of_true rfl ⟨by simp [hgetv, hsetv, hsfin], hdash⟩

/-! ## The launcher -/

section

variable {gone : Bool} {s : System}

theorem removeScriptFromSyncserv_reach (gone : Bool) (s : System) : removeScriptFromSyncserv (reach gone) s =
    if s.running then if gone then { s with exit := some STF_UNRESOLVED } else { s with queue := s.queue ++ [sfinText] } else s := by
  cases gone <;> rfl

theorem stopSyncserv_reach (gone : Bool) (s : System) : stopSyncserv (reach gone) s =
    if s.running then
      if gone then { s with exit := some STF_UNRESOLVED } else { s with queue := s.queue ++ [stopText], running := false }
    else s := by
  cases gone <;> rfl

/-- The last event of the launcher. -/
theorem stepBy_finish (hexit : s.exit = none) (hleft : s.left = 0) : (stepBy (reach gone) quoteHash s .finish).exit =
    if s.running = true ∧ gone = true then some STF_UNRESOLVED else some (finalResult s.resultList) := by
  simp only [stepBy, hexit, hleft, and_self, if_true, stopSyncserv_reach]
  cases s.running <;> cases gone <;> simp [hexit]

/-- Before its last event the launcher exits with `STF_UNRESOLVED` only. -/
theorem stepBy_exit {e : Event} (he : e ≠ .finish) :
    (stepBy (reach gone) quoteHash s e).exit = s.exit ∨ (stepBy (reach gone) quoteHash s e).exit = some STF_UNRESOLVED := by
  cases e with
  | request text => cases gone <;> exact .inl rfl
  | serve =>
    simp only [stepBy]
    split <;> exact .inl rfl
  | returned rval =>
    simp only [stepBy, removeScriptFromSyncserv_reach, stopSyncserv_reach]
    cases s.running <;> cases gone <;> grind
  | finish => exact absurd rfl he
  | eof =>
    simp only [stepBy]
    split
    · exact .inr rfl
    · exact .inl rfl

theorem stepBy_exited {e : Event} {r : Nat} (h : s.exit = some r) : (stepBy (reach gone) quoteHash s e).exit = some r := by
  have hnot : ¬s.exit = none := fun hnone => nomatch hnone.symm.trans h
  cases e with
  | request text => cases gone <;> exact h
  | serve =>
    simp only [stepBy]
    split <;> exact h
  | returned rval =>
    rw [stepBy, if_neg fun hact => hnot hact.1]
    exact h
  | finish =>
    rw [stepBy, if_neg fun hact => hnot hact.1]
    exact h
  | eof =>
    rw [stepBy, if_neg fun hact => hnot hact.1]
    exact h

/-- Only the server changes itself. -/
theorem stepBy_server {e : Event} (he : e ≠ .serve) : (stepBy (reach gone) quoteHash s e).server = s.server := by
  cases e with
  | request text => cases gone <;> rfl
  | serve => exact absurd rfl he
  | returned rval =>
    simp only [stepBy, removeScriptFromSyncserv_reach, stopSyncserv_reach]
    cases s.running <;> cases gone <;> grind
  | finish =>
    simp only [stepBy, stopSyncserv_reach]
    cases s.running <;> cases gone <;> grind
  | eof =>
    simp only [stepBy]
    split <;> rfl

/-- As long as the launcher has not exited it takes the server for running, or a part has failed. -/
theorem stepBy_running {e : Event} (h : s.exit = none → s.running = true ∨ ∃ r ∈ s.resultList, r ≠ STF_PASS)
    (hexit : (stepBy (reach gone) quoteHash s e).exit = none) :
    (stepBy (reach gone) quoteHash s e).running = true ∨ ∃ r ∈ (stepBy (reach gone) quoteHash s e).resultList, r ≠ STF_PASS := by
  cases e with
  | request text => cases gone <;> exact h hexit
  | serve =>
    simp only [stepBy] at hexit ⊢
    split at hexit <;> exact h hexit
  | returned rval =>
    by_cases hact : s.exit = none ∧ 0 < s.left
    · simp only [stepBy, if_pos hact, removeScriptFromSyncserv_reach, stopSyncserv_reach] at hexit ⊢
      by_cases hpass : rval = STF_PASS
      · rw [if_pos hpass] at hexit ⊢
        have hbefore : s.running = true ∨ ∃ r ∈ s.resultList ++ [rval], r ≠ STF_PASS :=
          (h hact.1).imp_right fun ⟨r, hr, hne⟩ => ⟨r, List.mem_append_left [rval] hr, hne⟩
        by_cases hrunning : s.running = true
        · rw [if_pos hrunning] at hexit ⊢
          cases gone with
          | true => cases hexit
          | false => exact .inl hrunning
        · rw [if_neg hrunning]
          exact .inr (hbefore.resolve_left hrunning)
      · have hfailed : ∃ r ∈ s.resultList ++ [rval], r ≠ STF_PASS :=
          ⟨rval, List.mem_append_right _ (List.mem_singleton_self rval), hpass⟩
        rw [if_neg hpass] at hexit ⊢
        cases s.running <;> cases gone <;> exact .inr hfailed
    · simp only [stepBy, if_neg hact] at hexit ⊢
      exact h hexit
  | finish =>
    by_cases hact : s.exit = none ∧ s.left = 0
    · rw [stepBy_finish hact.1 hact.2] at hexit
      split at hexit <;> cases hexit
    · simp only [stepBy, if_neg hact] at hexit ⊢
      exact h hexit
  | eof =>
    simp only [stepBy] at hexit ⊢
    split at hexit
    · cases hexit
    · rename_i hact
      rw [if_neg hact]
      exact h hexit

end

/-! ## Runs -/

/-- What holds in every state of every run. -/
structure SiteInv (t : Site) : Prop where
  failed : FailedEnds t.sys.server
  running : t.sys.exit = none → t.sys.running = true ∨ ∃ r ∈ t.sys.resultList, r ≠ STF_PASS

variable {t : Site}

theorem SiteInv.init (parts : Nat) : SiteInv ⟨System.init parts, false⟩ :=
  ⟨fun _ hi => (by cases hi), fun _ => .inl rfl⟩

theorem serve_failed {s : System} (hf : FailedEnds s.server) (gone : Bool) :
    FailedEnds (stepBy (reach gone) quoteHash s .serve).server := by
  simp only [stepBy]
  split
  · exact hf
  · exact hf.serve _

theorem serve_ended_rval {s : System} {rval : Nat} (h : s.server.rval = some rval) (gone : Bool) :
    (stepBy (reach gone) quoteHash s .serve).server.rval = some rval := by
  simp only [stepBy]
  split
  · exact h
  · exact serve_rval_of_ended h _

theorem SiteInv.step (hi : SiteInv t) (h : Happening) : SiteInv (t.step quoteHash h) := by
  cases h with
  | leave =>
    rw [Site.step]
    split <;> exact ⟨hi.failed, hi.running⟩
  | event e =>
    refine ⟨?_, stepBy_running hi.running⟩
    by_cases hserve : e = .serve
    · subst hserve
      exact serve_failed hi.failed t.gone
    · exact (stepBy_server hserve : (t.step quoteHash (.event e)).sys.server = _) ▸ hi.failed

theorem honest_iff {s : System} (hf : FailedEnds s.server) :
    Honest s ↔ (s.exit = some STF_PASS → s.server.rval ≠ some STF_UNRESOLVED) := by
  constructor
  · exact fun h hpass hlost => h (.inr hlost) hpass
  · rintro h (⟨i, hi⟩ | hlost) hpass
    · exact h hpass (hf i hi)
    · exact h hpass hlost

/-- The server takes a request after the launcher's exit with `STF_PASS`. -/
theorem honest_serve_iff {s : System} (hh : s.exit = some STF_PASS → s.server.rval ≠ some STF_UNRESOLVED) (gone : Bool) :
    ((stepBy (reach gone) quoteHash s .serve).exit = some STF_PASS →
        (stepBy (reach gone) quoteHash s .serve).server.rval ≠ some STF_UNRESOLVED) ↔
      HappeningOk quoteHash ⟨s, gone⟩ (.event .serve) := by
  obtain ⟨server, queue, running, left, resultList, exit⟩ := s
  cases queue with
  | nil => exact iff_of_true hh fun _ _ _ htext => nomatch htext
  | cons text queue =>
    simp only [stepBy, HappeningOk, List.head?_cons, Option.mem_some_iff, forall_eq']
    refine imp_congr_right fun hexit => ?_
    cases hrval : server.rval with
    | none => rw [Ne, serve_loses_iff hrval, forall_prop_of_true rfl]
    | some rval =>
      rw [serve_rval_of_ended hrval, ← hrval]
      exact iff_of_true (hh hexit) fun hnone => (by rw [hrval] at hnone; cases hnone)

/-- The launcher's last event. -/
theorem honest_finish_iff {s : System} (hrun : s.exit = none → s.running = true ∨ ∃ r ∈ s.resultList, r ≠ STF_PASS)
    (hh : s.exit = some STF_PASS → s.server.rval ≠ some STF_UNRESOLVED) (gone : Bool) :
    ((stepBy (reach gone) quoteHash s .finish).exit = some STF_PASS → s.server.rval ≠ some STF_UNRESOLVED) ↔
      HappeningOk quoteHash ⟨s, gone⟩ (.event .finish) := by
  by_cases hact : s.exit = none ∧ s.left = 0
  · obtain ⟨hexit, hleft⟩ := hact
    rw [stepBy_finish hexit hleft]
    simp only [HappeningOk, hexit, hleft, forall_const]
    by_cases hall : ∀ r ∈ s.resultList, r = STF_PASS
    · have hrunning : s.running = true := (hrun hexit).resolve_right fun ⟨r, hr, hne⟩ => hne (hall r hr)
      cases gone with
      | true => exact iff_of_true (fun hpass => by rw [if_pos ⟨hrunning, rfl⟩] at hpass; cases hpass) fun _ _ => rfl
      | false =>
        rw [if_neg fun hgone => nomatch hgone.2]
        exact ⟨fun h _ hlost => absurd hlost (h (congrArg some (finalResult_pass hall))), fun h _ hlost => Bool.noConfusion (h hall hlost)⟩
    · refine iff_of_true (fun hpass => ?_) fun hpass => absurd hpass hall
      split at hpass
      · cases hpass
      · exact absurd (all_pass_of_finalResult (Option.some.inj hpass)) hall
  · have hsame : stepBy (reach gone) quoteHash s .finish = s := by simp only [stepBy, if_neg hact]
    rw [hsame]
    exact iff_of_true hh fun hexit hleft => absurd ⟨hexit, hleft⟩ hact

/-- One step, from a state in which no loss is reported as success. -/
theorem SiteInv.honest_step_iff (hi : SiteInv t) (hh : Honest t.sys) (h : Happening) :
    Honest (t.step quoteHash h).sys ↔ HappeningOk quoteHash t h := by
  rw [honest_iff (hi.step h).failed]
  rw [honest_iff hi.failed] at hh
  cases h with
  | leave =>
    rw [Site.step]
    split <;> exact iff_of_true hh trivial
  | event e =>
    by_cases hserve : e = .serve
    · subst hserve
      exact honest_serve_iff hh t.gone
    · rw [show (t.step quoteHash (.event e)).sys.server = t.sys.server from stepBy_server hserve]
      by_cases hfinish : e = .finish
      · subst hfinish
        exact honest_finish_iff hi.running hh t.gone
      · have hok : HappeningOk quoteHash t (.event e) := by
          cases e with
          | serve => exact absurd rfl hserve
          | finish => exact absurd rfl hfinish
          | _ => trivial
        refine iff_of_true (fun hpass => ?_) hok
        have hexit : (t.step quoteHash (.event e)).sys.exit = t.sys.exit ∨ (t.step quoteHash (.event e)).sys.exit = some STF_UNRESOLVED :=
          stepBy_exit hfinish
        rcases hexit with hexit | hexit
        · exact hh (hexit.symm.trans hpass)
        · cases hexit.symm.trans hpass

/-- A loss that is reported as success stays. -/
theorem SiteInv.honest_of_step (hi : SiteInv t) {h : Happening} (hh : Honest (t.step quoteHash h).sys) : Honest t.sys := by
  rw [honest_iff (hi.step h).failed] at hh
  rw [honest_iff hi.failed]
  intro hpass hlost
  cases h with
  | leave =>
    rw [Site.step] at hh
    split at hh <;> exact hh hpass hlost
  | event e =>
    refine hh (stepBy_exited hpass) ?_
    by_cases hserve : e = .serve
    · subst hserve
      exact serve_ended_rval hlost t.gone
    · exact (congrArg Server.rval (stepBy_server hserve)).trans hlost

/-- A run never reports a loss of synchronization as success exactly when all its steps meet the condition. -/
theorem run_honest_iff (quoteHash : Bool) (parts : Nat) (hs : List Happening) :
    Honest (launch quoteHash parts hs).sys ↔
      ∀ pre h post, hs = pre ++ h :: post → HappeningOk quoteHash (launch quoteHash parts pre) h :=
  foldl_iff (SiteInv.init parts) (fun _ h hi => hi.step h) (fun _ hpass => nomatch hpass)
    (fun _ _ hi hh => hi.honest_of_step hh) (fun _ h hi hh => hi.honest_step_iff hh h) hs

/-- Two parts that lose synchronization and pass all the same, with a server that exits at once. -/
def lostRun : List Happening :=
  [.event (.request ['s', 'y', 'n', 'c', ' ', 'a', '\n']), .event .serve, .event (.request ['s', 'y', 'n', 'c', ' ', 'b', '\n']),
    .event .serve, .leave, .event (.returned 0), .event (.returned 0), .event .finish]

example : (launch true 2 lostRun).sys.server.rval = some STF_UNRESOLVED ∧ (launch true 2 lostRun).sys.exit = some STF_UNRESOLVED := by
  decide

/-- A part passes while something that it has started still waits for a variable. -/
theorem not_run_honest : ¬∀ (parts : Nat) (hs : List Happening), Honest (launch true parts hs).sys := by
  intro H
  refine H 1 [.event (.request ['g', 'e', 't', 'v', ' ', 'x', '\n']), .event .serve, .event (.returned 0), .event .finish,
    .event .serve, .event .serve] (Or.inr ?_) ?_
  · decide
  · decide

end ZfsTest.Mstf
