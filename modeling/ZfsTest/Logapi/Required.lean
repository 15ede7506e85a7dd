import ZfsTest.Logapi.Endlog

/-!
# Failed checks

Once a check that is required has failed, the script exits with `STF_FAIL` (`run_fails`), whatever the handler does: it may call
functions and other checks, which may fail and call `_endlog` again. What it must not do is exit on its own. Each check reads the
log file of its own command, however deep the checks are nested, as long as no exit takes place in a subshell (`run_checks`).
-/

namespace ZfsTest.Logapi

open Stf (isIfs)

/-- A script that calls functions of these names only, and does not exit but through a check. -/
inductive Tame (H : Text → Prop) : Script → Prop
  | done {status} : Tame H (.done status)
  | run {words k} (hwords : ∀ f ∈ words.head?, H f) (hk : ∀ n, Tame H (k n)) : Tame H (.run words k)
  | check {kind required words k} (hwords : ∀ f ∈ words.head?, H f) (hk : ∀ n, Tame H (k n)) : Tame H (.check kind required words k)
  | printline {words k} (hk : Tame H k) : Tame H (.printline words k)
  | onexit {handler k} (hk : Tame H k) : Tame H (.onexit handler k)
  | sub {s k} (hk : ∀ n, Tame H (k n)) : Tame H (.sub s k)

/-- A check of the script that is required and has failed. -/
def Failing (e : Nat × Event) : Prop := ∃ kind status text sent r, e = (0, .checked kind true status text sent r) ∧ r ≠ 0

/-- The handler of a `log_fail` of the script runs, and is tame from here on if the command in progress is. -/
def Cleaning (H : Text → Prop) : List Frame → Prop → Prop
  | [], _ => False
  | .endlog code _ :: fs, tame => depth fs = 0 ∧ code = STF_FAIL ∧ tame ∨ 0 < depth fs ∧ Cleaning H fs False
  | .sub _ k :: fs, _ => Cleaning H fs (∀ n, Tame H (k n))
  | .call k :: fs, tame => Cleaning H fs (tame ∧ ∀ n, Tame H (k n))
  | .check _ _ _ _ _ k :: fs, tame => Cleaning H fs (tame ∧ ∀ n, Tame H (k n))

variable {H : Text → Prop} {fs : List Frame} {p q : Prop}

theorem Cleaning.mono (h : Cleaning H fs p) (hpq : p → q) : Cleaning H fs q := by
  induction fs generalizing p q with
  | nil => exact h
  | cons f fs ih =>
    cases f with
    | endlog code msg => exact h.imp_left fun ⟨hdepth, hcode, hp⟩ => ⟨hdepth, hcode, hpq hp⟩
    | sub cleanup k => exact h
    | call k => exact ih h fun ⟨hp, hk⟩ => ⟨hpq hp, hk⟩
    | check kind required words log sent k => exact ih h fun ⟨hp, hk⟩ => ⟨hpq hp, hk⟩

theorem Cleaning.tame (h : Cleaning H fs p) (hdepth : depth fs = 0) : p := by
  induction fs generalizing p with
  | nil => exact absurd h id
  | cons f fs ih =>
    cases f with
    | endlog code msg =>
      rcases h with ⟨-, -, hp⟩ | ⟨hpos, -⟩
      · exact hp
      · change depth fs = 0 at hdepth
        omega
    | sub cleanup k => simp [depth] at hdepth
    | call k => exact (ih h hdepth).1
    | check kind required words log sent k => exact (ih h hdepth).1

/-- The command in progress does not matter in a subshell. -/
theorem Cleaning.of_depth_pos (h : Cleaning H fs p) (hdepth : 0 < depth fs) : Cleaning H fs q := by
  induction fs generalizing p q with
  | nil => exact h
  | cons f fs ih =>
    cases f with
    | endlog code msg =>
      rcases h with ⟨hzero, -⟩ | ⟨hpos, hrest⟩
      · change 0 < depth fs at hdepth
        omega
      · exact .inr ⟨hpos, hrest⟩
    | sub cleanup k => exact h
    | call k => exact ih h hdepth
    | check kind required words log sent k => exact ih h hdepth

theorem Cleaning.unwind (h : Cleaning H fs p) {cleanup : Text} {k : Nat → Script} {fs' : List Frame}
    (hunwind : unwind fs = some (cleanup, k, fs')) : Cleaning H fs' (∀ n, Tame H (k n)) := by
  induction fs generalizing p with
  | nil => cases hunwind
  | cons f fs ih =>
    cases f with
    | endlog code msg =>
      rcases h with ⟨hzero, -⟩ | ⟨-, hrest⟩
      · have hdepth : depth fs = depth fs' + 1 := (unwind_some hunwind).1
        omega
      · exact ih hrest hunwind
    | sub cleanup' k' =>
      cases hunwind
      exact h
    | call k' => exact ih h hunwind
    | check kind required words log sent k' => exact ih h hunwind

theorem Cleaning.send (h : Cleaning H fs p) (t : Text) : Cleaning H (send t fs) p := by
  induction fs generalizing p with
  | nil => exact h
  | cons f fs ih =>
    cases f with
    | endlog code msg =>
      have hdepth := depth_send t fs
      change depth (Logapi.send t fs) = 0 ∧ code = STF_FAIL ∧ p ∨
        0 < depth (Logapi.send t fs) ∧ Cleaning H (Logapi.send t fs) False
      rw [hdepth]
      exact h.imp_right fun ⟨hpos, hrest⟩ => ⟨hpos, ih hrest⟩
    | sub cleanup k => exact ih h
    | call k => exact ih h
    | check kind required words log sent k => exact h

/-! ## New events -/

def Event.handler? : Event → Option Text
  | .registered handler => some handler
  | _ => none

/-- An event that is not the end of a check. -/
def Plain (e : Event) : Prop := ∀ kind required status text sent r, e ≠ .checked kind required status text sent r

namespace Shell

variable {s s₁ s₂ : Shell} {w : Setting}

/-- What adds events, none of which is the end of a check. -/
def Adds (s s' : Shell) : Prop := ∃ es, (∀ e ∈ es, Plain e.2) ∧ s'.trace = es ++ s.trace

theorem Adds.of_eq (h : s₁.trace = s.trace) : Adds s s₁ := ⟨[], fun _ h => absurd h List.not_mem_nil, h⟩

theorem Adds.trans (h₁ : Adds s s₁) (h₂ : Adds s₁ s₂) : Adds s s₂ := by
  obtain ⟨es₁, hes₁, htrace₁⟩ := h₁
  obtain ⟨es₂, hes₂, htrace₂⟩ := h₂
  refine ⟨es₂ ++ es₁, fun e he => ?_, ?_⟩
  · exact (List.mem_append.mp he).elim (hes₂ e) (hes₁ e)
  · rw [htrace₂, htrace₁, List.append_assoc]

theorem Adds.emit {es : List Event} (hes : ∀ e ∈ es, Plain e) : Adds s (s.emit es) := by
  refine ⟨_, fun e he => ?_, rfl⟩
  obtain ⟨e', he', rfl⟩ := List.mem_map.mp (List.mem_reverse.mp he)
  exact hes e' he'

theorem Adds.emit_one {e : Event} (he : Plain e) : Adds s (s.emit [e]) :=
  .emit fun e' he' => by rwa [List.mem_singleton.mp he']

theorem Adds.recursiveOutput (start : Nat) (itself : Bool) : Adds s (s.recursiveOutput start itself) := by
  refine .trans (.emit fun e he => ?_) (.of_eq rfl)
  obtain ⟨f, -, rfl⟩ := List.mem_map.mp he
  exact fun _ _ _ _ _ _ heq => by cases heq

theorem Adds.exit (status : Nat) : Adds s (s.exit status) := by
  unfold Shell.exit
  split <;> exact .of_eq rfl

theorem Adds.endlogExit (code : Nat) (msg : List Text) : Adds s (s.endlogExit code msg) := by
  refine .trans (.emit fun e he => ?_) (.exit code)
  split at he
  · cases he
  · rw [List.mem_singleton.mp he]
    exact fun _ _ _ _ _ _ heq => by cases heq

theorem Adds.endlog (code : Nat) (msg : List Text) : Adds s (s.endlog code msg) := by
  have hended : Adds s ((s.recursiveOutput 0 true).emit [.ended code s.cleanup]) :=
    .trans (.recursiveOutput 0 true) (.emit_one fun _ _ _ _ _ _ heq => by cases heq)
  refine hended.trans ?_
  rw [Shell.endlog]
  split
  · exact .endlogExit code msg
  · exact .trans (.emit_one fun _ _ _ _ _ _ heq => by cases heq) (.of_eq rfl)

theorem Adds.report (job : Job) (r : Nat) (words : List Text) (log : Log) : Adds s (s.report w job r words log) := by
  unfold Shell.report
  refine .trans ?_ (.trans (.emit_one fun _ _ _ _ _ _ heq => by cases heq) (.recursiveOutput log.name false))
  split
  · exact .of_eq rfl
  · refine .emit fun e he => ?_
    split at he
    · rw [List.mem_singleton.mp he]
      exact fun _ _ _ _ _ _ heq => by cases heq
    · cases he

theorem depth_report (job : Job) (r : Nat) (words : List Text) (log : Log) :
    depth (s.report w job r words log).frames = depth s.frames := by
  unfold Shell.report
  simp only [Shell.recursiveOutput, Shell.emit]
  split
  · exact depth_send _ _
  · rfl

/-- The events at the end of a check. -/
theorem judge_trace (kind : Kind) (required : Bool) (words : List Text) (log : Log) (sent : Text) (k : Nat → Script) (status : Nat) :
    ∃ es, (∀ e ∈ es, Plain e.2) ∧ (s.judge w kind required words log sent k status).trace =
      (depth s.frames, .checked kind required status (s.cat log.name) sent (verdict w.grepI ⟨kind, [s.cat log.name], status⟩)) ::
        (es ++ s.trace) := by
  let job : Job := ⟨kind, [s.cat log.name], status⟩
  obtain ⟨es, hes, htrace⟩ := Adds.report (s := s) (w := w) job (verdict w.grepI job) words log
  refine ⟨es, hes, ?_⟩
  rw [← htrace, ← depth_report (w := w) job (verdict w.grepI job) words log]
  rfl

theorem Adds.command (reply : Reply) (words : List Text) (k : Nat → Script) : Adds s (s.command w reply words k) := by
  cases words with
  | nil => exact .of_eq rfl
  | cons f args =>
    rw [Shell.command]
    cases w.funs f <;> exact .of_eq rfl

/-- A step adds no end of a check, unless it is one. -/
theorem step_adds (reply : Reply) : Adds s (s.step w reply) ∨ ∃ kind required words log sent k fs status, s.code = none ∧
    s.frames = .check kind required words log sent k :: fs ∧
      s.step w reply = { s with frames := fs }.judge w kind required words log sent k status := by
  unfold Shell.step
  split
  · exact .inl (.of_eq rfl)
  · rename_i hrunning
    split
    · unfold Shell.resume
      split
      · exact .inl (.trans (.emit_one fun _ _ _ _ _ _ heq => by cases heq) (.exit _))
      · exact .inl (.of_eq rfl)
      · rename_i kind required words log sent k fs hframes
        exact .inr ⟨kind, required, words, log, sent, k, fs, _, not_not.mp hrunning, hframes, rfl⟩
      · exact .inl (Adds.endlogExit (s := { s with frames := _ }) _ _)
      · exact .inl (.of_eq rfl)
    · exact .inl (.command reply _ _)
    · exact .inl (.of_eq rfl)
    · exact .inl (.trans (.emit_one fun _ _ _ _ _ _ heq => by cases heq) (.of_eq rfl))
    · exact .inl (.trans (.emit_one fun _ _ _ _ _ _ heq => by cases heq) (.of_eq rfl))
    · exact .inl (.endlog _ _)
    · exact .inl (.trans (.emit_one fun _ _ _ _ _ _ heq => by cases heq) (.exit _))
    · exact .inl (.of_eq rfl)

/-- Events stay. -/
theorem step_mem (reply : Reply) {e : Nat × Event} (he : e ∈ s.trace) : e ∈ (s.step w reply).trace := by
  rcases step_adds (w := w) (s := s) reply with ⟨es, -, htrace⟩ | ⟨kind, required, words, log, sent, k, fs, status, -, -, hstep⟩
  · rw [htrace]
    exact List.mem_append_right _ he
  · obtain ⟨es, -, htrace⟩ := judge_trace (w := w) (s := { s with frames := fs }) kind required words log sent k status
    rw [hstep, htrace]
    exact List.mem_cons_of_mem _ (List.mem_append_right _ he)

/-! ## After a failed check -/

/-- The script is about to exit with `STF_FAIL`, or its handler runs before it does. -/
def Doomed (H : Text → Prop) (s : Shell) : Prop :=
  s.code = some STF_FAIL ∨
    s.code = none ∧ (depth s.frames = 0 ∧ (∃ msg, s.cur = .endlog STF_FAIL msg) ∨ Cleaning H s.frames (Tame H s.cur))

/-- `exit` in a subshell of the handler. -/
theorem exit_cleaning {p : Prop} (h : Cleaning H s.frames p) (hcode : s.code = none) (hdepth : 0 < depth s.frames) (status : Nat) :
    Doomed H (s.exit status) := by
  unfold Shell.exit
  split
  · rename_i hnone
    rw [unwind_none hnone] at hdepth
    cases hdepth
  · rename_i cleanup k fs hsome
    exact .inr ⟨hcode, .inr ((h.unwind hsome).mono fun hk => hk status)⟩

/-- The exit of the script itself. -/
theorem exit_code (hdepth : depth s.frames = 0) (status : Nat) : (s.exit status).code = some status := by
  unfold Shell.exit
  split
  · rfl
  · rename_i hsome
    have := (unwind_some hsome).1
    omega

theorem endlog_cleaning {p : Prop} (h : Cleaning H s.frames p) (hcode : s.code = none) (hdepth : 0 < depth s.frames) (code : Nat)
    (msg : List Text) : Doomed H (s.endlog code msg) := by
  rw [Shell.endlog]
  split
  · exact exit_cleaning (s := ((s.recursiveOutput 0 true).emit [.ended code s.cleanup]).emit _) h hcode hdepth code
  · exact .inr ⟨hcode, .inr (.inr ⟨hdepth, h.of_depth_pos hdepth⟩)⟩

/-- `log_fail` of the script. -/
theorem doomed_endlog (hcode : s.code = none) (hdepth : depth s.frames = 0) (msg : List Text)
    (hhandler : ∀ f ∈ (words isIfs s.cleanup).head?, H f) : Doomed H (s.endlog STF_FAIL msg) := by
  rw [Shell.endlog]
  split
  · exact .inl (exit_code (s := ((s.recursiveOutput 0 true).emit [.ended STF_FAIL s.cleanup]).emit _) hdepth STF_FAIL)
  · exact .inr ⟨hcode, .inr (.inl ⟨hdepth, rfl, .run hhandler fun _ => .done⟩)⟩

theorem report_cleaning {p : Prop} (h : Cleaning H s.frames p) (job : Job) (r : Nat) (words : List Text) (log : Log) :
    Cleaning H (s.report w job r words log).frames p := by
  unfold Shell.report
  simp only [Shell.recursiveOutput, Shell.emit]
  split
  · exact h.send _
  · exact h

/-- The end of a check in the handler. -/
theorem judge_cleaning (kind : Kind) (required : Bool) (words : List Text) (log : Log) (sent : Text) {k : Nat → Script} (status : Nat)
    {p : Prop} (h : Cleaning H s.frames (p ∧ ∀ n, Tame H (k n))) (hcode : s.code = none) :
    Doomed H (s.judge w kind required words log sent k status) := by
  let job : Job := ⟨kind, [s.cat log.name], status⟩
  let r := verdict w.grepI job
  have hcode' : (s.judge w kind required words log sent k status).code = none :=
    (Quiet.judge (w := w) (s := s) kind required words log sent k status).code.trans hcode
  have hreport : Cleaning H (s.report w job r words log).frames (p ∧ ∀ n, Tame H (k n)) := report_cleaning h job r words log
  have hcur : (s.judge w kind required words log sent k status).cur =
      if required then (if r ≠ 0 then .endlog STF_FAIL [] else k 1) else k r := rfl
  refine .inr ⟨hcode', ?_⟩
  rw [hcur]
  by_cases hfail : required = true ∧ r ≠ 0
  · rw [if_pos hfail.1, if_pos hfail.2]
    rcases Nat.eq_zero_or_pos (depth (s.report w job r words log).frames) with hdepth | hdepth
    · exact .inl ⟨hdepth, [], rfl⟩
    · exact .inr (hreport.of_depth_pos hdepth)
  · have hgoes : ∃ n, (if required then (if r ≠ 0 then .endlog STF_FAIL [] else k 1) else k r) = k n := by
      split
      · rename_i hrequired
        exact ⟨1, if_neg fun hr => hfail ⟨hrequired, hr⟩⟩
      · exact ⟨r, rfl⟩
    obtain ⟨n, hn⟩ := hgoes
    rw [hn]
    exact .inr (hreport.mono fun ⟨_, hk⟩ => hk n)

/-- The end of a check that is required and fails. -/
theorem judge_failing (kind : Kind) (words : List Text) (log : Log) (sent : Text) (k : Nat → Script) (status : Nat)
    (hcode : s.code = none) (hdepth : depth s.frames = 0) (hr : verdict w.grepI ⟨kind, [s.cat log.name], status⟩ ≠ 0) :
    Doomed H (s.judge w kind true words log sent k status) := by
  refine .inr ⟨(Quiet.judge kind true words log sent k status).code.trans hcode, .inl ⟨?_, [], ?_⟩⟩
  · exact (depth_report _ _ words log).trans hdepth
  · exact if_pos hr

/-- The functions of these names are tame. -/
def Closed (w : Setting) (H : Text → Prop) : Prop := ∀ f, H f → ∀ body, w.funs f = some body → ∀ args, Tame H (body args)

/-- A function or a command in the handler. -/
theorem command_cleaning (hfuns : Closed w H) {reply : Reply} {words : List Text} {k : Nat → Script}
    (h : Cleaning H s.frames (Tame H (.run words k)))
    (hcode : s.code = none) : Doomed H (s.command w reply words k) := by
  refine .inr ?_
  cases words with
  | nil =>
    refine ⟨hcode, .inr (h.mono fun ht => ?_)⟩
    cases ht with
    | run _ hk => exact hk 0
  | cons f args =>
    rw [Shell.command]
    cases hf : w.funs f with
    | some body =>
      refine ⟨hcode, .inr (h.mono fun ht => ?_)⟩
      cases ht with
      | run hwords hk => exact ⟨hfuns f (hwords f rfl) body hf args, hk⟩
    | none =>
      refine ⟨hcode, .inr ((h.send _).mono fun ht => ?_)⟩
      cases ht with
      | run _ hk => exact hk reply.status

/-- The end of a function, a check, a subshell or the handler itself. -/
theorem resume_cleaning {p : Prop} (h : Cleaning H s.frames p) (hcode : s.code = none) (status : Nat) : Doomed H (s.resume w status) := by
  unfold Shell.resume
  split
  · rename_i hframes
    rw [hframes] at h
    exact absurd h id
  · rename_i k fs hframes
    rw [hframes] at h
    exact .inr ⟨hcode, .inr (Cleaning.mono h fun ⟨_, hk⟩ => hk status)⟩
  · rename_i kind required words log sent k fs hframes
    rw [hframes] at h
    exact judge_cleaning (s := { s with frames := fs }) kind required words log sent status h hcode
  · rename_i code msg fs hframes
    rw [hframes] at h
    rcases h with ⟨hdepth, rfl, -⟩ | ⟨hdepth, hrest⟩
    · exact .inl (exit_code (s := Shell.emit { s with frames := fs } _) hdepth STF_FAIL)
    · exact exit_cleaning (s := Shell.emit { s with frames := fs } _) hrest hcode hdepth code
  · rename_i cleanup k fs hframes
    rw [hframes] at h
    exact .inr ⟨hcode, .inr (Cleaning.mono h fun hk => hk status)⟩

theorem Doomed.step (h : Doomed H s) (hfuns : Closed w H)
    (hhandler : depth s.frames = 0 → ∀ f ∈ (words isIfs s.cleanup).head?, H f) (reply : Reply) : Doomed H (s.step w reply) := by
  unfold Shell.step
  split
  · exact h
  · rename_i hrunning
    have hcode : s.code = none := not_not.mp hrunning
    rcases h with hended | ⟨-, ⟨hdepth, msg, hcur⟩ | hclean⟩
    · rw [hended] at hcode
      cases hcode
    · rw [hcur]
      exact doomed_endlog hcode hdepth msg (hhandler hdepth)
    · cases hcur : s.cur with
      | done status =>
        rw [hcur] at hclean
        exact resume_cleaning hclean hcode status
      | run words k =>
        rw [hcur] at hclean
        exact command_cleaning hfuns hclean hcode
      | check kind required words k =>
        rw [hcur] at hclean
        refine .inr ⟨hcode, .inr (hclean.mono fun ht => ?_)⟩
        cases ht with
        | check hwords hk => exact ⟨.run hwords fun _ => .done, hk⟩
      | printline words k =>
        rw [hcur] at hclean
        refine .inr ⟨hcode, .inr (hclean.mono fun ht => ?_)⟩
        cases ht with
        | printline hk => exact hk
      | onexit handler k =>
        rw [hcur] at hclean
        refine .inr ⟨hcode, .inr (hclean.mono fun ht => ?_)⟩
        cases ht with
        | onexit hk => exact hk
      | endlog code msg =>
        rw [hcur] at hclean
        refine endlog_cleaning hclean hcode (Nat.pos_of_ne_zero fun hdepth => ?_) code msg
        cases hclean.tame hdepth
      | exit status =>
        rw [hcur] at hclean
        refine exit_cleaning (s := s.emit _) hclean hcode (Nat.pos_of_ne_zero fun hdepth => ?_) status
        cases hclean.tame hdepth
      | sub script k =>
        rw [hcur] at hclean
        refine .inr ⟨hcode, .inr (hclean.mono fun ht => ?_)⟩
        cases ht with
        | sub hk => exact hk

/-- A new failure of a required check, or one that has been there. -/
theorem failing_step (reply : Reply) {e : Nat × Event} (he : e ∈ (s.step w reply).trace) (hfailing : Failing e) :
    e ∈ s.trace ∨ Doomed H (s.step w reply) := by
  obtain ⟨kind₀, status₀, text, sent₀, r, rfl, hr⟩ := hfailing
  rcases step_adds (w := w) (s := s) reply with ⟨es, hes, htrace⟩ | ⟨kind, required, words, log, sent, k, fs, status, hcode, -, hstep⟩
  · rw [htrace] at he
    rcases List.mem_append.mp he with hnew | hold
    · exact absurd rfl (hes _ hnew kind₀ true status₀ text sent₀ r)
    · exact .inl hold
  · obtain ⟨es, hes, htrace⟩ := judge_trace (w := w) (s := { s with frames := fs }) kind required words log sent k status
    rw [hstep] at he ⊢
    rw [htrace] at he
    rcases List.mem_cons.mp he with hnew | he
    · rw [Prod.mk.injEq, Event.checked.injEq] at hnew
      obtain ⟨hdepth, rfl, rfl, rfl, rfl, rfl, rfl⟩ := hnew
      exact .inr (judge_failing (s := { s with frames := fs }) kind₀ words log sent₀ k status₀ hcode hdepth.symm hr)
    · rcases List.mem_append.mp he with hnew | hold
      · exact absurd rfl (hes _ hnew kind₀ true status₀ text sent₀ r)
      · exact .inl hold

theorem handlerOf_mem (es : List (Nat × Event)) : handlerOf es = [] ∨ (0, .registered (handlerOf es)) ∈ es := by
  induction es with
  | nil => exact .inl rfl
  | cons e es ih =>
    obtain ⟨d, e⟩ := e
    have hrest : handlerOf ((d, e) :: es) = handlerOf es →
        handlerOf ((d, e) :: es) = [] ∨ (0, Event.registered (handlerOf ((d, e) :: es))) ∈ (d, e) :: es := by
      intro hsame
      rw [hsame]
      exact ih.imp_right (List.mem_cons_of_mem _)
    cases d with
    | succ d => exact hrest (by cases e <;> rfl)
    | zero =>
      cases e with
      | registered handler => exact .inr List.mem_cons_self
      | ended code handler => exact .inl rfl
      | printed words => exact hrest rfl
      | cat text => exact hrest rfl
      | checked kind required status text sent r => exact hrest rfl
      | exited status => exact hrest rfl
      | finished status => exact hrest rfl

/-- The handlers that the script sets are functions of these names. -/
def Handled (H : Text → Prop) (s : Shell) : Prop :=
  ∀ e ∈ s.trace, e.1 = 0 → ∀ handler ∈ e.2.handler?, ∀ f ∈ (words isIfs handler).head?, H f

instance (H : Text → Prop) [DecidablePred H] (s : Shell) : Decidable (Handled H s) :=
  inferInstanceAs (Decidable (∀ e ∈ s.trace, e.1 = 0 → ∀ handler ∈ e.2.handler?, ∀ f ∈ (words isIfs handler).head?, H f))

theorem Faithful.handled (h : Faithful s) (hhandled : Handled H s) (hdepth : depth s.frames = 0) :
    ∀ f ∈ (words isIfs s.cleanup).head?, H f := by
  have hcleanup : handlerOf s.trace = s.cleanup := h.handler.trans (outer_of_depth_zero hdepth _)
  rw [← hcleanup]
  rcases handlerOf_mem s.trace with hnil | hmem
  · rw [hnil]
    intro f hf
    cases hf
  · exact hhandled _ hmem rfl _ rfl

/-- A script in which a required check has failed exits with `STF_FAIL`, when the functions that its handlers call do not exit but
through checks. -/
theorem run_fails (w : Setting) (H : Text → Prop) (hfuns : Closed w H) (script : Script) (replies : List Reply)
    (hhandled : Handled H (run w script replies)) {e : Nat × Event} (he : e ∈ (run w script replies).trace) (hfailing : Failing e)
    {code : Nat} (hcode : (run w script replies).code = some code) : code = STF_FAIL := by
  have hinv : Faithful (run w script replies) ∧
      (Handled H (run w script replies) → (∃ e ∈ (run w script replies).trace, Failing e) → Doomed H (run w script replies)) := by
    refine run_induction w (P := fun s => Faithful s ∧ (Handled H s → (∃ e ∈ s.trace, Failing e) → Doomed H s))
      ⟨start_faithful script, fun _ ⟨e, he, _⟩ => absurd he List.not_mem_nil⟩ ?_ replies
    rintro s reply ⟨hfaithful, hdoomed⟩
    refine ⟨hfaithful.step reply, fun hhandled ⟨e, he, hfailing⟩ => ?_⟩
    have hbefore : Handled H s := fun e hmem => hhandled e (step_mem reply hmem)
    rcases failing_step (H := H) reply he hfailing with hold | hnew
    · exact (hdoomed hbefore ⟨e, hold, hfailing⟩).step hfuns (hfaithful.handled hbefore) reply
    · exact hnew
  rcases hinv.2 hhandled ⟨e, he, hfailing⟩ with hfail | ⟨hnone, -⟩
  · rw [hfail] at hcode
    exact (Option.some.inj hcode).symm
  · rw [hnone] at hcode
    cases hcode

/-- A script whose handler removes what its check has been about. -/
def Setting.sample : Setting where
  funs f := if f = "cleanup".toList then some fun _ => logMust ["zfs".toList, "destroy".toList] fun _ => .done 0 else none
  grepI _ _ := false
  debug := false
  unquoted text := text

def Script.sample : Script := logOnexit ["cleanup".toList] (logMust ["zfs".toList, "create".toList] fun _ => logPass [])

/-- Both checks fail. -/
theorem run_fails_sample : (run Setting.sample Script.sample (List.replicate 10 ⟨1, []⟩)).code = some 1 ∧ 1 = STF_FAIL := by
  have hcode : (run Setting.sample Script.sample (List.replicate 10 ⟨1, []⟩)).code = some 1 := by decide
  refine ⟨hcode, run_fails Setting.sample (fun f => f = "cleanup".toList ∨ f = "zfs".toList) ?_ Script.sample _ ?_
    (e := (0, .checked .pos true 1 [] [] 1)) (by decide) ⟨.pos, 1, [], [], 1, rfl, by decide⟩ hcode⟩
  · rintro f - body hbody args
    simp only [Setting.sample] at hbody
    split at hbody
    · cases hbody
      exact .check (fun f hf => .inr (Option.some.inj hf).symm) fun _ => .done
    · cases hbody
  · decide

end Shell

end ZfsTest.Logapi
