import Mathlib.Data.List.Pairwise
import ZfsTest.Logapi.Required

/-!
# The log files of nested checks

A check whose command calls further checks has its log file open while they take the next names. As long as every exit is one of
the script itself, the files are those of the checks in progress, each with what its own command has written (`Nested`). So the
result of a check is what its command deserves, and no log file is left behind (`run_checks`).
-/

namespace ZfsTest.Logapi

/-- `_endlog` and `exit`. -/
def Event.leaves : Event → Bool
  | .ended _ _ => true
  | .exited _ => true
  | _ => false

/-- The log files of the checks in progress; `_endlog` has removed those of the checks around it. -/
def logsOf : List Frame → List (Nat × Text)
  | [] => []
  | .endlog _ _ :: _ => []
  | .check _ _ _ log sent _ :: fs => logsOf fs ++ [(log.file, sent)]
  | _ :: fs => logsOf fs

/-- The files that are open for the checks, the innermost first. -/
def openFiles : List Frame → List Nat
  | [] => []
  | .check _ _ _ log _ _ :: fs => log.file :: openFiles fs
  | _ :: fs => openFiles fs

/-- Each check has the first name behind those of the checks around it, and `_endlog` runs in no subshell. -/
def Named : List Frame → Prop
  | [] => True
  | .endlog _ _ :: fs => depth fs = 0
  | .check _ _ _ log _ _ :: fs => log.name = (logsOf fs).length ∧ Named fs
  | _ :: fs => Named fs

/-! ## Text for `stderr` -/

theorem openFiles_send (t : Text) (fs : List Frame) : openFiles (send t fs) = openFiles fs := by
  induction fs with
  | nil => rfl
  | cons f fs ih =>
    cases f with
    | check kind required words log sent k => rfl
    | call k => exact ih
    | endlog code msg => exact ih
    | sub cleanup k => exact ih

theorem length_logsOf_send (t : Text) (fs : List Frame) : (logsOf (send t fs)).length = (logsOf fs).length := by
  induction fs with
  | nil => rfl
  | cons f fs ih =>
    cases f with
    | check kind required words log sent k => simp [send, logsOf]
    | call k => exact ih
    | endlog code msg => rfl
    | sub cleanup k => exact ih

theorem Named.send {fs : List Frame} (h : Named fs) (t : Text) : Named (send t fs) := by
  induction fs with
  | nil => exact h
  | cons f fs ih =>
    cases f with
    | check kind required words log sent k => exact h
    | call k => exact ih h
    | endlog code msg => exact (depth_send t fs).trans h
    | sub cleanup k => exact ih h

theorem stderrFile_mem {fs : List Frame} {i : Nat} (h : stderrFile fs = some i) : i ∈ openFiles fs := by
  induction fs with
  | nil => cases h
  | cons f fs ih =>
    cases f with
    | check kind required words log sent k =>
      cases h
      exact List.mem_cons_self
    | call k => exact ih h
    | endlog code msg => exact ih h
    | sub cleanup k => exact ih h

theorem mem_logsOf {fs : List Frame} {f : Nat × Text} (h : f ∈ logsOf fs) : f.1 ∈ openFiles fs := by
  induction fs with
  | nil => cases h
  | cons g fs ih =>
    cases g with
    | check kind required words log sent k =>
      rcases List.mem_append.mp h with hrest | hlast
      · exact List.mem_cons_of_mem _ (ih hrest)
      · rw [List.mem_singleton.mp hlast]
        exact List.mem_cons_self
    | call k => exact ih h
    | endlog code msg => cases h
    | sub cleanup k => exact ih h

/-- Text for another file changes nothing. -/
theorem map_other {files : List (Nat × Text)} {file : Option Nat} (h : ∀ f ∈ files, file ≠ some f.1) (t : Text) :
    files.map (fun f => if file = some f.1 then (f.1, f.2 ++ t) else f) = files := by
  conv_rhs => rw [← List.map_id files]
  exact List.map_congr_left fun f hf => if_neg (h f hf)

/-- Text for `stderr` is written to the log file of the innermost check, if there still is one. -/
theorem logsOf_send {fs : List Frame} (hfiles : (openFiles fs).Pairwise (· > ·)) {extra : List (Nat × Text)}
    (hextra : ∀ f ∈ extra, f.1 ∉ openFiles fs) (t : Text) :
    (logsOf fs ++ extra).map (fun f => if stderrFile fs = some f.1 then (f.1, f.2 ++ t) else f) = logsOf (send t fs) ++ extra := by
  have hother : extra.map (fun f => if stderrFile fs = some f.1 then (f.1, f.2 ++ t) else f) = extra :=
    map_other (fun f hf he => hextra f hf (stderrFile_mem he)) t
  rw [List.map_append, hother]
  congr 1
  clear hextra hother
  induction fs with
  | nil => rfl
  | cons f fs ih =>
    cases f with
    | check kind required words log sent k =>
      have holder := (List.pairwise_cons.mp hfiles).1
      have hne : ∀ f ∈ logsOf fs, some log.file ≠ some f.1 := by
        intro f hf he
        have hlt := holder f.1 (mem_logsOf hf)
        rw [Option.some.inj he] at hlt
        exact absurd hlt (Nat.lt_irrefl _)
      have hrest := map_other hne t
      change (logsOf fs ++ [(log.file, sent)]).map (fun f => if some log.file = some f.1 then (f.1, f.2 ++ t) else f) = _
      rw [List.map_append, hrest]
      simp [send, logsOf]
    | call k => exact ih hfiles
    | endlog code msg => rfl
    | sub cleanup k => exact ih hfiles

/-! ## The invariant -/

namespace Shell

variable {s : Shell} {w : Setting}

/-- The files are those of the checks in progress. -/
structure Nested (s : Shell) : Prop where
  files : s.files = logsOf s.frames
  named : Named s.frames
  older : (openFiles s.frames).Pairwise (· > ·)
  created : ∀ i ∈ openFiles s.frames, i < s.created

/-- Nothing in this depends on the script, on the events or on the handler. -/
theorem Nested.of_eq {s' : Shell} (h : Nested s) (hframes : s'.frames = s.frames) (hfiles : s'.files = s.files)
    (hcreated : s'.created = s.created) : Nested s' := by
  obtain ⟨h₁, h₂, h₃, h₄⟩ := h
  refine ⟨?_, ?_, ?_, ?_⟩
  · rwa [hframes, hfiles]
  · rwa [hframes]
  · rwa [hframes]
  · rwa [hframes, hcreated]

theorem Nested.err (h : Nested s) (t : Text) : Nested (s.err t) := by
  refine ⟨?_, h.named.send t, ?_, ?_⟩
  · have hextra : ∀ f ∈ ([] : List (Nat × Text)), f.1 ∉ openFiles s.frames := fun f hf => absurd hf List.not_mem_nil
    have hsend := logsOf_send h.older hextra t
    rw [List.append_nil, List.append_nil, ← h.files] at hsend
    exact hsend
  · exact (openFiles_send t s.frames).symm ▸ h.older
  · intro i hi
    rw [show (s.err t).frames = send t s.frames from rfl, openFiles_send] at hi
    exact h.created i hi

/-- A check at its end, with its command gone from the frames. -/
structure Ending (s : Shell) (log : Log) (sent : Text) : Prop where
  files : s.files = logsOf s.frames ++ [(log.file, sent)]
  name : log.name = (logsOf s.frames).length
  named : Named s.frames
  older : (log.file :: openFiles s.frames).Pairwise (· > ·)
  created : ∀ i ∈ openFiles s.frames, i < s.created

theorem Ending.cat {log : Log} {sent : Text} (h : Ending s log sent) : s.cat log.name = sent := by
  unfold Shell.cat
  rw [h.files, h.name, List.getElem?_append_right (Nat.le_refl _), Nat.sub_self]
  rfl

/-- The message of a check goes to the check around it. -/
theorem Ending.err {log : Log} {sent : Text} (h : Ending s log sent) (t : Text) : Ending (s.err t) log sent := by
  have hopen := openFiles_send t s.frames
  have hnew : ∀ f ∈ [(log.file, sent)], f.1 ∉ openFiles s.frames := by
    intro f hf hmem
    rw [List.mem_singleton.mp hf] at hmem
    exact Nat.lt_irrefl _ ((List.pairwise_cons.mp h.older).1 _ hmem)
  refine ⟨?_, ?_, h.named.send t, ?_, ?_⟩
  · have hsend := logsOf_send (List.pairwise_cons.mp h.older).2 hnew t
    rw [← h.files] at hsend
    exact hsend
  · exact h.name.trans (length_logsOf_send t s.frames).symm
  · exact hopen.symm ▸ h.older
  · intro i hi
    rw [show (s.err t).frames = send t s.frames from rfl, hopen] at hi
    exact h.created i hi

theorem Ending.emit {log : Log} {sent : Text} (h : Ending s log sent) (es : List Event) : Ending (s.emit es) log sent :=
  ⟨h.files, h.name, h.named, h.older, h.created⟩

theorem Ending.recursiveOutput {log : Log} {sent : Text} (h : Ending s log sent) : Nested (s.recursiveOutput log.name false) := by
  refine ⟨?_, h.named, (List.pairwise_cons.mp h.older).2, h.created⟩
  change s.files.take log.name = logsOf s.frames
  rw [h.files, h.name, List.take_left]

theorem Ending.report {log : Log} {sent : Text} (h : Ending s log sent) (job : Job) (r : Nat) (words : List Text) :
    Nested (s.report w job r words log) := by
  unfold Shell.report
  split
  · exact ((h.err _).emit _).recursiveOutput
  · exact ((h.emit _).emit _).recursiveOutput

theorem Nested.ending (h : Nested s) {kind : Kind} {required : Bool} {words : List Text} {log : Log} {sent : Text} {k : Nat → Script}
    {fs : List Frame} (hframes : s.frames = .check kind required words log sent k :: fs) : Ending { s with frames := fs } log sent := by
  obtain ⟨hfiles, hnamed, holder, hcreated⟩ := h
  rw [hframes] at hfiles hnamed holder hcreated
  exact ⟨hfiles, hnamed.1, hnamed.2, holder, fun i hi => hcreated i (List.mem_cons_of_mem _ hi)⟩

/-! ## Steps -/

/-- An event that is no exit of a subshell. -/
def Calm (e : Nat × Event) : Prop := e.2.leaves = true → e.1 = 0

instance (e : Nat × Event) : Decidable (Calm e) := inferInstanceAs (Decidable (e.2.leaves = true → e.1 = 0))

theorem Nested.command (h : Nested s) (reply : Reply) (words : List Text) (k : Nat → Script) : Nested (s.command w reply words k) := by
  cases words with
  | nil => exact h.of_eq rfl rfl rfl
  | cons f args =>
    rw [Shell.command]
    cases w.funs f with
    | some body => exact ⟨h.files, h.named, h.older, h.created⟩
    | none => exact (h.err reply.stderr).of_eq rfl rfl rfl

/-- A new check. -/
theorem Nested.check (h : Nested s) (kind : Kind) (required : Bool) (words : List Text) (k : Nat → Script) (cur : Script) :
    Nested { s with
      cur := cur
      frames := .check kind required words ⟨s.files.length, s.created⟩ [] k :: s.frames
      files := s.files ++ [(s.created, [])]
      created := s.created + 1 } := by
  refine ⟨?_, ⟨?_, h.named⟩, ?_, ?_⟩
  · exact congrArg (· ++ [(s.created, [])]) h.files
  · exact congrArg List.length h.files
  · exact List.pairwise_cons.mpr ⟨fun i hi => h.created i hi, h.older⟩
  · intro i hi
    rcases List.mem_cons.mp hi with rfl | hi
    · exact Nat.lt_succ_self _
    · exact Nat.lt_succ_of_lt (h.created i hi)

/-- What the end of the script leaves, unless `exit` has ended it: no log file. -/
structure Tidy (s : Shell) : Prop where
  running : s.code = none → Nested s
  ended : s.code ≠ none → (∀ status, (0, .exited status) ∉ s.trace) → s.files = []

theorem Nested.tidy (h : Nested s) (hcode : s.code = none) : Tidy s := ⟨fun _ => h, fun hne => absurd hcode hne⟩

/-- The end of the script, with no log file left. -/
theorem exit_tidy (hdepth : depth s.frames = 0) (hfiles : s.files = []) (status : Nat) : Tidy (s.exit status) := by
  refine ⟨fun hcode => ?_, fun _ _ => ?_⟩
  · rw [exit_code hdepth] at hcode
    cases hcode
  · unfold Shell.exit
    split
    · exact hfiles
    · exact hfiles

/-- The event of `_endlog`. -/
theorem endlog_mem (code : Nat) (msg : List Text) : (depth s.frames, .ended code s.cleanup) ∈ (s.endlog code msg).trace := by
  have hrest : Adds ((s.recursiveOutput 0 true).emit [.ended code s.cleanup]) (s.endlog code msg) := by
    rw [Shell.endlog]
    split
    · exact .endlogExit code msg
    · exact .trans (.emit_one fun _ _ _ _ _ _ heq => by cases heq) (.of_eq rfl)
  obtain ⟨es, -, htrace⟩ := hrest
  rw [htrace]
  exact List.mem_append_right _ List.mem_cons_self

/-- `exit` in the script itself. -/
theorem exit_tidy_of_calm {status : Nat} (hcalm : ∀ e ∈ ((s.emit [.exited status]).exit status).trace, Calm e) :
    Tidy ((s.emit [.exited status]).exit status) := by
  have hmem : (depth s.frames, .exited status) ∈ ((s.emit [.exited status]).exit status).trace := by
    obtain ⟨es, -, htrace⟩ := Adds.exit (s := s.emit [.exited status]) status
    rw [htrace]
    exact List.mem_append_right _ List.mem_cons_self
  have hdepth : depth s.frames = 0 := hcalm _ hmem rfl
  rw [hdepth] at hmem
  refine ⟨fun hnone => ?_, fun _ hno => absurd hmem (hno status)⟩
  rw [exit_code (s := s.emit _) hdepth] at hnone
  cases hnone

theorem Nested.endlog (h : Nested s) (hcode : s.code = none) (code : Nat) (msg : List Text)
    (hcalm : ∀ e ∈ (s.endlog code msg).trace, Calm e) : Tidy (s.endlog code msg) := by
  have hdepth : depth s.frames = 0 := hcalm _ (endlog_mem code msg) rfl
  have hfiles : s.files.take 0 = [] := List.take_zero
  rw [Shell.endlog]
  split
  · exact exit_tidy (s := ((s.recursiveOutput 0 true).emit [.ended code s.cleanup]).emit _) hdepth hfiles code
  · exact Nested.tidy ⟨hfiles, hdepth, h.older, h.created⟩ hcode

theorem Nested.resume (h : Nested s) (hcode : s.code = none) (status : Nat) : Tidy (s.resume w status) := by
  have hnested := h
  obtain ⟨hfiles, hnamed, holder, hcreated⟩ := h
  unfold Shell.resume
  split
  · rename_i hframes
    rw [hframes] at hfiles
    exact exit_tidy (s := s.emit _) (by rw [show (s.emit _).frames = s.frames from rfl, hframes]; rfl) hfiles status
  · rename_i k fs hframes
    rw [hframes] at hfiles hnamed holder hcreated
    exact Nested.tidy ⟨hfiles, hnamed, holder, hcreated⟩ hcode
  · rename_i kind required words log sent k fs hframes
    have hending := hnested.ending hframes
    refine Nested.tidy ((hending.report _ _ words).of_eq rfl rfl rfl) ?_
    exact (Quiet.judge (w := w) (s := { s with frames := fs }) kind required words log sent k status).code.trans hcode
  · rename_i code msg fs hframes
    rw [hframes] at hfiles hnamed
    exact exit_tidy (s := Shell.emit { s with frames := fs } _) hnamed hfiles code
  · rename_i cleanup k fs hframes
    rw [hframes] at hfiles hnamed holder hcreated
    exact Nested.tidy ⟨hfiles, hnamed, holder, hcreated⟩ hcode

theorem Tidy.step (h : Tidy s) (reply : Reply) (hcalm : ∀ e ∈ (s.step w reply).trace, Calm e) : Tidy (s.step w reply) := by
  unfold Shell.step at hcalm ⊢
  split at hcalm
  · rename_i hended
    rw [if_pos hended]
    exact h
  · rename_i hrunning
    rw [if_neg hrunning]
    have hcode : s.code = none := not_not.mp hrunning
    have hnested := h.running hcode
    cases hcur : s.cur with
    | done status => exact hnested.resume hcode status
    | run words k =>
      exact (hnested.command reply words k).tidy ((Quiet.command reply words k).code.trans hcode)
    | check kind required words k => exact (hnested.check kind required words k _).tidy hcode
    | printline words k => exact Nested.tidy (hnested.of_eq rfl rfl rfl) hcode
    | onexit handler k => exact Nested.tidy (hnested.of_eq rfl rfl rfl) hcode
    | endlog code msg =>
      rw [hcur] at hcalm
      exact hnested.endlog hcode code msg hcalm
    | exit status =>
      rw [hcur] at hcalm
      exact exit_tidy_of_calm hcalm
    | sub script k => exact Nested.tidy ⟨hnested.files, hnested.named, hnested.older, hnested.created⟩ hcode

/-! ## Runs -/

/-- The end of a check that has read the log file of its command. -/
def Read (w : Setting) (e : Nat × Event) : Prop :=
  ∀ kind required status text sent r, e.2 = .checked kind required status text sent r →
    text = sent ∧ r = verdict w.grepI ⟨kind, [sent], status⟩

theorem Tidy.read (h : Tidy s) (hread : ∀ e ∈ s.trace, Read w e) (reply : Reply) : ∀ e ∈ (s.step w reply).trace, Read w e := by
  intro e he
  rcases step_adds (w := w) (s := s) reply with ⟨es, hes, htrace⟩ | ⟨kind, required, words, log, sent, k, fs, status, hcode, hframes, hstep⟩
  · rw [htrace] at he
    rcases List.mem_append.mp he with hnew | hold
    · exact fun kind required status text sent r heq => absurd heq (hes e hnew kind required status text sent r)
    · exact hread e hold
  · obtain ⟨es, hes, htrace⟩ := judge_trace (w := w) (s := { s with frames := fs }) kind required words log sent k status
    have hending := (h.running hcode).ending hframes
    rw [hstep, htrace, hending.cat] at he
    rcases List.mem_cons.mp he with rfl | he
    · rintro kind' required' status' text sent' r heq
      cases heq
      exact ⟨rfl, rfl⟩
    · rcases List.mem_append.mp he with hnew | hold
      · exact fun kind required status text sent r heq => absurd heq (hes e hnew kind required status text sent r)
      · exact hread e hold

theorem start_nested (script : Script) : Nested (start script) :=
  ⟨rfl, trivial, List.Pairwise.nil, fun _ h => absurd h List.not_mem_nil⟩

/-- In a run in which no subshell exits, every check returns what its own command deserves, and a script that does not call `exit`
leaves no log file. -/
theorem run_checks (w : Setting) (script : Script) (replies : List Reply) (hcalm : ∀ e ∈ (run w script replies).trace, Calm e) :
    (∀ d kind required status text sent r, (d, .checked kind required status text sent r) ∈ (run w script replies).trace →
      text = sent ∧ r = verdict w.grepI ⟨kind, [sent], status⟩) ∧
      ((run w script replies).code ≠ none → (∀ status, (0, .exited status) ∉ (run w script replies).trace) →
        (run w script replies).files = []) := by
  have hinv : (∀ e ∈ (run w script replies).trace, Calm e) →
      Tidy (run w script replies) ∧ ∀ e ∈ (run w script replies).trace, Read w e := by
    refine run_induction w (P := fun s => (∀ e ∈ s.trace, Calm e) → Tidy s ∧ ∀ e ∈ s.trace, Read w e)
      (fun _ => ⟨(start_nested script).tidy rfl, fun e he => absurd he List.not_mem_nil⟩) ?_ replies
    rintro s reply ih hcalm
    obtain ⟨htidy, hread⟩ := ih fun e he => hcalm e (step_mem reply he)
    exact ⟨htidy.step reply hcalm, htidy.read hread reply⟩
  obtain ⟨htidy, hread⟩ := hinv hcalm
  exact ⟨fun d kind required status text sent r he => hread _ he kind required status text sent r rfl, htidy.ended⟩

/-- A check of a function that calls a check. -/
theorem run_checks_sample :
    (run Setting.sample (logMust ["cleanup".toList] fun _ => logPass []) (List.replicate 8 ⟨0, ['x']⟩)).code = some 0 ∧
    (run Setting.sample (logMust ["cleanup".toList] fun _ => logPass []) (List.replicate 8 ⟨0, ['x']⟩)).files = [] := by
  have hcode : (run Setting.sample (logMust ["cleanup".toList] fun _ => logPass []) (List.replicate 8 ⟨0, ['x']⟩)).code = some 0 := by
    decide
  have hrun := run_checks Setting.sample (logMust ["cleanup".toList] fun _ => logPass []) (List.replicate 8 ⟨0, ['x']⟩) (by decide)
  have hexit : ∀ e ∈ (run Setting.sample (logMust ["cleanup".toList] fun _ => logPass []) (List.replicate 8 ⟨0, ['x']⟩)).trace,
      e.2.leaves = true → e.2 = .ended 0 [] := by
    decide
  refine ⟨hcode, hrun.2 (by rw [hcode]; exact Option.some_ne_none 0) fun status hmem => ?_⟩
  have := hexit _ hmem rfl
  cases this

end Shell

end ZfsTest.Logapi
