import ZfsTest.Logapi.Script

/-!
# Handlers and exit codes

Every call of `_endlog` finds the handler that the script has set last, unless a call of `_endlog` has taken it before: `_endlog`
clears `_CLEANUP` before it calls the handler, so a handler that fails a check does not run again. And the script exits with the code
of the last exit that has begun, which may be one of the handler (`run_endlog`). What subshells do about this stays in them.
-/

namespace ZfsTest.Logapi

/-- The handler that is set after these events of the script, the last one first. -/
def handlerOf : List (Nat × Event) → Text
  | [] => []
  | (0, .registered handler) :: _ => handler
  | (0, .ended _ _) :: _ => []
  | _ :: es => handlerOf es

/-- The code of the last exit of the script that has begun. -/
def lastExit : List (Nat × Event) → Option Nat
  | [] => none
  | (0, .ended code _) :: _ => some code
  | (0, .exited status) :: _ => some status
  | (0, .finished status) :: _ => some status
  | _ :: es => lastExit es

/-- Every `_endlog` finds the handler that is set. -/
def HandlersFound (es : List (Nat × Event)) : Prop :=
  ∀ post code handler pre, es = post ++ (0, .ended code handler) :: pre → handler = handlerOf pre

/-! ## Events without influence -/

/-- An event of a subshell, an output, or the end of a check. -/
def Silent : Nat × Event → Prop
  | (_ + 1, _) => True
  | (0, .printed _) => True
  | (0, .cat _) => True
  | (0, .checked ..) => True
  | (0, .registered _) => False
  | (0, .ended ..) => False
  | (0, .exited _) => False
  | (0, .finished _) => False

theorem Silent.of_pos {e : Nat × Event} (h : 0 < e.1) : Silent e := by
  obtain ⟨d, e⟩ := e
  cases d with
  | zero => cases h
  | succ d => trivial

theorem Silent.printed (d : Nat) (words : List Text) : Silent (d, .printed words) := by
  cases d <;> trivial

theorem Silent.cat (d : Nat) (text : Text) : Silent (d, .cat text) := by
  cases d <;> trivial

theorem Silent.checked (d : Nat) (kind : Kind) (required : Bool) (status : Nat) (text sent : Text) (r : Nat) :
    Silent (d, .checked kind required status text sent r) := by
  cases d <;> trivial

theorem handlerOf_cons {e : Nat × Event} (he : Silent e) (es : List (Nat × Event)) : handlerOf (e :: es) = handlerOf es := by
  obtain ⟨d, e⟩ := e
  cases d with
  | zero => cases e <;> first | rfl | exact absurd he id
  | succ d => cases e <;> rfl

theorem lastExit_cons {e : Nat × Event} (he : Silent e) (es : List (Nat × Event)) : lastExit (e :: es) = lastExit es := by
  obtain ⟨d, e⟩ := e
  cases d with
  | zero => cases e <;> first | rfl | exact absurd he id
  | succ d => cases e <;> rfl

theorem HandlersFound.cons {e : Nat × Event} {es : List (Nat × Event)} (h : HandlersFound es)
    (he : ∀ code handler, e = (0, .ended code handler) → handler = handlerOf es) : HandlersFound (e :: es) := by
  intro post code handler pre hsplit
  cases post with
  | nil =>
    rw [List.nil_append, List.cons.injEq] at hsplit
    obtain ⟨rfl, rfl⟩ := hsplit
    exact he code handler rfl
  | cons e' post =>
    rw [List.cons_append, List.cons.injEq] at hsplit
    exact h post code handler pre hsplit.2

theorem HandlersFound.silent {e : Nat × Event} {es : List (Nat × Event)} (h : HandlersFound es) (he : Silent e) :
    HandlersFound (e :: es) := by
  refine h.cons fun code handler heq => ?_
  rw [heq] at he
  exact absurd he id

/-- Events that say nothing about handlers and exits. -/
theorem silent_append {es : List (Nat × Event)} (hes : ∀ e ∈ es, Silent e) (es' : List (Nat × Event)) :
    handlerOf (es ++ es') = handlerOf es' ∧ lastExit (es ++ es') = lastExit es' ∧ (HandlersFound es' → HandlersFound (es ++ es')) := by
  induction es with
  | nil => exact ⟨rfl, rfl, id⟩
  | cons e es ih =>
    have he := hes e List.mem_cons_self
    obtain ⟨hhandler, hexit, hfound⟩ := ih fun e' he' => hes e' (List.mem_cons_of_mem _ he')
    exact ⟨(handlerOf_cons he _).trans hhandler, (lastExit_cons he _).trans hexit, fun h => (hfound h).silent he⟩

/-! ## The frames of the script itself -/

/-- The handler of the script, when `cleanup` is the one of the innermost subshell. -/
def outer : List Frame → Text → Text
  | [], cleanup => cleanup
  | .sub cleanup _ :: fs, _ => outer fs cleanup
  | _ :: fs, cleanup => outer fs cleanup

/-- The code of the `_endlog` of the script that waits for its handler. -/
def pending : List Frame → Option Nat
  | [] => none
  | .endlog code _ :: fs => if depth fs = 0 then some code else pending fs
  | _ :: fs => pending fs

theorem outer_of_depth_zero {fs : List Frame} (h : depth fs = 0) (t : Text) : outer fs t = t := by
  induction fs with
  | nil => rfl
  | cons f fs ih =>
    cases f with
    | sub cleanup k => simp [depth] at h
    | call k => exact ih h
    | check kind required words log sent k => exact ih h
    | endlog code msg => exact ih h

/-- In a subshell, the handler of the script is the one of a shell around it. -/
theorem outer_of_depth_pos {fs : List Frame} (h : 0 < depth fs) (t t' : Text) : outer fs t = outer fs t' := by
  induction fs with
  | nil => cases h
  | cons f fs ih =>
    cases f with
    | sub cleanup k => rfl
    | call k => exact ih h
    | check kind required words log sent k => exact ih h
    | endlog code msg => exact ih h

theorem unwind_none {fs : List Frame} (h : unwind fs = none) : depth fs = 0 := by
  induction fs with
  | nil => rfl
  | cons f fs ih =>
    cases f with
    | sub cleanup k => cases h
    | call k => exact ih h
    | check kind required words log sent k => exact ih h
    | endlog code msg => exact ih h

/-- The nearest subshell: the frames in it say nothing about the script. -/
theorem unwind_some {fs fs' : List Frame} {cleanup : Text} {k : Nat → Script} (h : unwind fs = some (cleanup, k, fs')) :
    depth fs = depth fs' + 1 ∧ (∀ t, outer fs t = outer fs' cleanup) ∧ pending fs = pending fs' := by
  induction fs with
  | nil => cases h
  | cons f fs ih =>
    cases f with
    | sub cleanup' k' =>
      cases h
      exact ⟨rfl, fun _ => rfl, rfl⟩
    | call k' => exact ih h
    | check kind required words log sent k' => exact ih h
    | endlog code msg =>
      obtain ⟨hdepth, houter, hpending⟩ := ih h
      refine ⟨hdepth, houter, ?_⟩
      rw [pending, if_neg (by omega), hpending]

theorem depth_send (t : Text) (fs : List Frame) : depth (send t fs) = depth fs := by
  induction fs with
  | nil => rfl
  | cons f fs ih =>
    cases f with
    | check kind required words log sent k => rfl
    | sub cleanup k => exact congrArg (· + 1) ih
    | call k => exact ih
    | endlog code msg => exact ih

theorem outer_send (t : Text) (fs : List Frame) (cleanup : Text) :
    outer (send t fs) cleanup = outer fs cleanup := by
  induction fs generalizing cleanup with
  | nil => rfl
  | cons f fs ih =>
    cases f with
    | check kind required words log sent k => rfl
    | sub cleanup' k => exact ih cleanup'
    | call k => exact ih cleanup
    | endlog code msg => exact ih cleanup

theorem pending_send (t : Text) (fs : List Frame) : pending (send t fs) = pending fs := by
  induction fs with
  | nil => rfl
  | cons f fs ih =>
    cases f with
    | check kind required words log sent k => rfl
    | sub cleanup k => exact ih
    | call k => exact ih
    | endlog code msg =>
      have hdepth := depth_send t fs
      change (if depth (send t fs) = 0 then some code else pending (send t fs)) = _
      rw [hdepth, ih]
      rfl

/-! ## Steps without influence -/

namespace Shell

/-- What does not change the handler of the script, and neither begins nor ends an exit of the script. -/
structure Quiet (s s' : Shell) : Prop where
  trace : ∃ es, (∀ e ∈ es, Silent e) ∧ s'.trace = es ++ s.trace
  outer : outer s'.frames s'.cleanup = outer s.frames s.cleanup
  pending : pending s'.frames = pending s.frames
  code : s'.code = s.code

variable {s s₁ s₂ : Shell}

theorem Quiet.trans (h₁ : Quiet s s₁) (h₂ : Quiet s₁ s₂) : Quiet s s₂ := by
  obtain ⟨es₁, hes₁, htrace₁⟩ := h₁.trace
  obtain ⟨es₂, hes₂, htrace₂⟩ := h₂.trace
  refine ⟨⟨es₂ ++ es₁, fun e he => ?_, ?_⟩, h₂.outer.trans h₁.outer, h₂.pending.trans h₁.pending, h₂.code.trans h₁.code⟩
  · exact (List.mem_append.mp he).elim (hes₂ e) (hes₁ e)
  · rw [htrace₂, htrace₁, List.append_assoc]

/-- A step that only moves frames that say nothing about the script. -/
theorem Quiet.of_frames {cur : Script} {frames : List Frame} {cleanup : Text} {files : List (Nat × Text)} {created : Nat}
    (houter : Logapi.outer frames cleanup = Logapi.outer s.frames s.cleanup) (hpending : Logapi.pending frames = Logapi.pending s.frames) :
    Quiet s { s with cur := cur, frames := frames, cleanup := cleanup, files := files, created := created } :=
  ⟨⟨[], fun _ h => absurd h List.not_mem_nil, rfl⟩, houter, hpending, rfl⟩

theorem Quiet.emit {es : List Event} (hes : ∀ e ∈ es, Silent (depth s.frames, e)) : Quiet s (s.emit es) := by
  refine ⟨⟨_, fun e he => ?_, rfl⟩, rfl, rfl, rfl⟩
  obtain ⟨e', he', rfl⟩ := List.mem_map.mp (List.mem_reverse.mp he)
  exact hes e' he'

theorem Quiet.err (t : Text) : Quiet s (s.err t) :=
  .of_frames (outer_send t s.frames s.cleanup) (pending_send t s.frames)

theorem Quiet.recursiveOutput (start : Nat) (itself : Bool) : Quiet s (s.recursiveOutput start itself) := by
  refine .trans (.emit fun e he => ?_) (.of_frames rfl rfl)
  obtain ⟨f, -, rfl⟩ := List.mem_map.mp he
  exact .cat _ f.2

/-- `exit` in a subshell. -/
theorem Quiet.exit (hdepth : 0 < depth s.frames) (status : Nat) : Quiet s (s.exit status) := by
  unfold Shell.exit
  split
  · rename_i hnone
    rw [unwind_none hnone] at hdepth
    cases hdepth
  · rename_i cleanup k fs hsome
    obtain ⟨-, houter, hpending⟩ := unwind_some hsome
    exact .of_frames (houter s.cleanup).symm hpending.symm

theorem Quiet.report {w : Setting} (job : Job) (r : Nat) (words : List Text) (log : Log) : Quiet s (s.report w job r words log) := by
  unfold Shell.report
  refine .trans ?_ (.trans (.emit fun e he => ?_) (.recursiveOutput log.name false))
  · split
    · exact .err _
    · refine .emit fun e he => ?_
      split at he
      · rw [List.mem_singleton.mp he]
        exact .cat _ _
      · cases he
  · rw [List.mem_singleton.mp he]
    exact .printed _ _

theorem Quiet.judge {w : Setting} (kind : Kind) (required : Bool) (words : List Text) (log : Log) (sent : Text) (k : Nat → Script)
    (status : Nat) : Quiet s (s.judge w kind required words log sent k status) := by
  refine .trans (.report _ _ words log) (.trans (.emit fun e he => ?_) (.of_frames rfl rfl))
  rw [List.mem_singleton.mp he]
  exact .checked ..

theorem Quiet.command {w : Setting} (reply : Reply) (words : List Text) (k : Nat → Script) : Quiet s (s.command w reply words k) := by
  cases words with
  | nil => exact .of_frames rfl rfl
  | cons f args =>
    rw [Shell.command]
    cases w.funs f with
    | some body => exact .of_frames rfl rfl
    | none => exact .trans (.err _) (.of_frames rfl rfl)

/-! ## The invariant -/

/-- What the events so far say about the shell. -/
structure Faithful (s : Shell) : Prop where
  handler : handlerOf s.trace = outer s.frames s.cleanup
  running : s.code = none → lastExit s.trace = pending s.frames
  ended : ∀ r, s.code = some r → lastExit s.trace = some r
  found : HandlersFound s.trace

theorem Faithful.quiet (h : Faithful s) (hq : Quiet s s₁) : Faithful s₁ := by
  obtain ⟨es, hes, htrace⟩ := hq.trace
  obtain ⟨hhandler, hexit, hfound⟩ := silent_append hes s.trace
  rw [← htrace] at hhandler hexit hfound
  refine ⟨?_, fun hcode => ?_, fun r hcode => ?_, hfound h.found⟩
  · rw [hhandler, h.handler, hq.outer]
  · rw [hexit, h.running (hq.code ▸ hcode), hq.pending]
  · rw [hexit, h.ended r (hq.code ▸ hcode)]

/-- The script at the point where its exit is the last thing that has begun. -/
structure Leaving (s : Shell) (status : Nat) : Prop where
  depth : depth s.frames = 0
  exit : lastExit s.trace = some status
  handler : handlerOf s.trace = s.cleanup
  found : HandlersFound s.trace

variable {status : Nat}

theorem Leaving.quiet (h : Leaving s status) (hq : Quiet s s₁) (hdepth : Logapi.depth s₁.frames = 0) : Leaving s₁ status := by
  obtain ⟨es, hes, htrace⟩ := hq.trace
  obtain ⟨hhandler, hexit, hfound⟩ := silent_append hes s.trace
  rw [← htrace] at hhandler hexit hfound
  refine ⟨hdepth, hexit.trans h.exit, ?_, hfound h.found⟩
  rw [hhandler, h.handler, ← outer_of_depth_zero hdepth s₁.cleanup, hq.outer, outer_of_depth_zero h.depth]

theorem Leaving.faithful (h : Leaving s status) : Faithful (s.exit status) := by
  have hnone : unwind s.frames = none := by
    cases hunwind : unwind s.frames with
    | none => rfl
    | some x =>
      obtain ⟨cleanup, k, fs⟩ := x
      have := (unwind_some hunwind).1
      have := h.depth
      omega
  simp only [Shell.exit, hnone]
  refine ⟨h.handler, fun hcode => (by cases hcode), fun r hr => ?_, h.found⟩
  cases hr
  exact h.exit

theorem Quiet.endlogMessage (msg : List Text) : Quiet s (s.emit (if msg = [] then [] else [.printed msg])) := by
  refine .emit fun e he => ?_
  split at he
  · cases he
  · rw [List.mem_singleton.mp he]
    exact .printed _ _

theorem Leaving.endlogExit (h : Leaving s status) (msg : List Text) : Faithful (s.endlogExit status msg) :=
  (h.quiet (.endlogMessage msg) h.depth).faithful

/-- `exit` in the script, or the end of it. -/
theorem Faithful.leave (h : Faithful s) {e : Event} (he : e = .exited status ∨ e = .finished status) :
    Faithful ((s.emit [e]).exit status) := by
  rcases Nat.eq_zero_or_pos (depth s.frames) with hdepth | hdepth
  · have htrace : (s.emit [e]).trace = (0, e) :: s.trace := by
      rw [← hdepth]
      rfl
    refine Leaving.faithful ⟨hdepth, ?_, ?_, ?_⟩
    · rw [htrace]
      rcases he with rfl | rfl <;> rfl
    · have hsame : handlerOf ((0, e) :: s.trace) = handlerOf s.trace := by rcases he with rfl | rfl <;> rfl
      rw [htrace, hsame, h.handler]
      exact outer_of_depth_zero hdepth _
    · rw [htrace]
      refine h.found.cons fun code handler heq => ?_
      rcases he with rfl | rfl <;> cases heq
  · have hq : Quiet s (s.emit [e]) := .emit fun e' _ => Silent.of_pos hdepth
    exact h.quiet (hq.trans (Quiet.exit (s := s.emit [e]) hdepth status))

theorem Quiet.endlogExit (hdepth : 0 < depth s.frames) (code : Nat) (msg : List Text) : Quiet s (s.endlogExit code msg) :=
  .trans (.endlogMessage msg) (Quiet.exit (s := s.emit _) hdepth code)

/-- The end of the handler of `_endlog`. -/
theorem Faithful.endlogExit (h : Faithful s) (hcode : s.code = none) {code : Nat} {msg : List Text} {fs : List Frame}
    (hframes : s.frames = .endlog code msg :: fs) : Faithful ({ s with frames := fs }.endlogExit code msg) := by
  have houter : outer s.frames s.cleanup = outer fs s.cleanup := by
    rw [hframes]
    rfl
  have hpending : pending s.frames = if depth fs = 0 then some code else pending fs := by
    rw [hframes]
    rfl
  rcases Nat.eq_zero_or_pos (depth fs) with hdepth | hdepth
  · rw [if_pos hdepth] at hpending
    have hleaving : Leaving { s with frames := fs } code := by
      refine ⟨hdepth, (h.running hcode).trans hpending, ?_, h.found⟩
      exact h.handler.trans (houter.trans (outer_of_depth_zero hdepth _))
    exact hleaving.endlogExit msg
  · rw [if_neg (Nat.pos_iff_ne_zero.mp hdepth)] at hpending
    have hq : Quiet s { s with frames := fs } := .of_frames houter.symm hpending.symm
    exact h.quiet (hq.trans (Quiet.endlogExit (s := { s with frames := fs }) hdepth code msg))

/-- The call of the handler, behind the events of `_endlog`. -/
theorem callHandler_faithful (hcode : s.code = none) (hdepth : depth s.frames = 0) {code : Nat} (hexit : lastExit s.trace = some code)
    (hhandler : handlerOf s.trace = []) (hfound : HandlersFound s.trace) (msg : List Text) : Faithful (s.callHandler code msg) := by
  have htrace : ∃ words, (s.callHandler code msg).trace = (0, .printed words) :: s.trace := by
    rw [← hdepth]
    exact ⟨_, rfl⟩
  obtain ⟨words, htrace⟩ := htrace
  have hpending : pending (s.callHandler code msg).frames = some code := if_pos hdepth
  have houter : outer (s.callHandler code msg).frames (s.callHandler code msg).cleanup = [] := outer_of_depth_zero hdepth []
  refine ⟨?_, fun _ => ?_, fun r hr => ?_, ?_⟩
  · rw [htrace, houter]
    exact hhandler
  · rw [htrace, hpending]
    exact hexit
  · have hnone : (s.callHandler code msg).code = none := hcode
    rw [hnone] at hr
    cases hr
  · rw [htrace]
    exact hfound.silent (.printed 0 words)

/-- `_endlog`. -/
theorem Faithful.endlog (h : Faithful s) (hcode : s.code = none) (code : Nat) (msg : List Text) : Faithful (s.endlog code msg) := by
  have hswept : Faithful (s.recursiveOutput 0 true) := h.quiet (.recursiveOutput 0 true)
  rcases Nat.eq_zero_or_pos (depth s.frames) with hdepth | hdepth
  · have htrace : ((s.recursiveOutput 0 true).emit [.ended code s.cleanup]).trace =
        (0, .ended code s.cleanup) :: (s.recursiveOutput 0 true).trace := by
      rw [← hdepth]
      rfl
    have hfound : HandlersFound ((0, .ended code s.cleanup) :: (s.recursiveOutput 0 true).trace) := by
      refine hswept.found.cons fun code' handler heq => ?_
      cases heq
      rw [hswept.handler]
      exact (outer_of_depth_zero hdepth s.cleanup).symm
    rw [← htrace] at hfound
    rw [Shell.endlog]
    split
    · rename_i hnil
      exact Leaving.endlogExit (s := (s.recursiveOutput 0 true).emit [.ended code s.cleanup])
        ⟨hdepth, by rw [htrace]; rfl, by rw [htrace]; exact hnil.symm, hfound⟩ msg
    · exact callHandler_faithful (s := (s.recursiveOutput 0 true).emit [.ended code s.cleanup]) hcode hdepth
        (by rw [htrace]; rfl) (by rw [htrace]; rfl) hfound msg
  · have hended : Quiet s ((s.recursiveOutput 0 true).emit [.ended code s.cleanup]) :=
      .trans (.recursiveOutput 0 true) (.emit fun e _ => Silent.of_pos hdepth)
    refine h.quiet (hended.trans ?_)
    rw [Shell.endlog]
    split
    · exact Quiet.endlogExit (s := (s.recursiveOutput 0 true).emit [.ended code s.cleanup]) hdepth code msg
    · refine .trans (.emit fun e he => ?_) (.of_frames ?_ ?_)
      · exact Silent.of_pos hdepth
      · exact outer_of_depth_pos hdepth _ _
      · exact if_neg (Nat.pos_iff_ne_zero.mp hdepth)

/-! ## The steps of a run -/

theorem Faithful.resume {w : Setting} (h : Faithful s) (hcode : s.code = none) (status : Nat) : Faithful (s.resume w status) := by
  unfold Shell.resume
  split
  · exact h.leave (.inr rfl)
  · rename_i k fs hframes
    exact h.quiet (.of_frames (by rw [hframes]; rfl) (by rw [hframes]; rfl))
  · rename_i kind required words log sent k fs hframes
    have hq : Quiet s { s with frames := fs } := .of_frames (by rw [hframes]; rfl) (by rw [hframes]; rfl)
    exact h.quiet (hq.trans (.judge kind required words log sent k status))
  · rename_i code msg fs hframes
    exact h.endlogExit hcode hframes
  · rename_i cleanup k fs hframes
    exact h.quiet (.of_frames (by rw [hframes]; rfl) (by rw [hframes]; rfl))

/-- `log_onexit`. -/
theorem Faithful.onexit (h : Faithful s) (handler : Text) (k : Script) :
    Faithful { s.emit [.registered handler] with cur := k, cleanup := handler } := by
  rcases Nat.eq_zero_or_pos (depth s.frames) with hdepth | hdepth
  · have htrace : (s.emit [.registered handler]).trace = (0, .registered handler) :: s.trace := by
      rw [← hdepth]
      rfl
    refine ⟨?_, fun hcode => ?_, fun r hr => ?_, ?_⟩
    · change handlerOf (s.emit [.registered handler]).trace = _
      rw [htrace]
      exact (outer_of_depth_zero hdepth handler).symm
    · change lastExit (s.emit [.registered handler]).trace = _
      rw [htrace]
      exact h.running hcode
    · change lastExit (s.emit [.registered handler]).trace = _
      rw [htrace]
      exact h.ended r hr
    · change HandlersFound (s.emit [.registered handler]).trace
      rw [htrace]
      exact h.found.cons fun code handler' heq => by cases heq
  · refine h.quiet (.trans (.emit fun e _ => Silent.of_pos hdepth) (.of_frames ?_ rfl))
    exact outer_of_depth_pos hdepth _ _

theorem Faithful.step {w : Setting} (h : Faithful s) (reply : Reply) : Faithful (s.step w reply) := by
  unfold Shell.step
  split
  · exact h
  · rename_i hrunning
    have hcode : s.code = none := not_not.mp hrunning
    cases s.cur with
    | done status => exact h.resume hcode status
    | run words k => exact h.quiet (.command reply words k)
    | check kind required words k => exact h.quiet (.of_frames rfl rfl)
    | printline words k =>
      refine h.quiet (.trans (.emit fun e he => ?_) (.of_frames rfl rfl))
      rw [List.mem_singleton.mp he]
      exact .printed _ _
    | onexit handler k => exact h.onexit handler k
    | endlog code msg => exact h.endlog hcode code msg
    | exit status => exact h.leave (.inl rfl)
    | sub script k => exact h.quiet (.of_frames rfl rfl)

theorem start_faithful (script : Script) : Faithful (start script) where
  handler := rfl
  running _ := rfl
  ended r h := by cases h
  found _ _ _ _ h := by
    have := congrArg List.length h
    simp [start] at this

theorem run_faithful (w : Setting) (script : Script) (replies : List Reply) : Faithful (run w script replies) :=
  run_induction w (start_faithful script) (fun _ reply h => h.step reply) replies

/-- In every run of a script, `_endlog` finds the handler that has been set last and that no `_endlog` before it has taken; and the
script exits with the code of the last exit that has begun. -/
theorem run_endlog (w : Setting) (script : Script) (replies : List Reply) :
    (∀ post code handler pre, (run w script replies).trace = post ++ (0, .ended code handler) :: pre → handler = handlerOf pre) ∧
      ∀ r, (run w script replies).code = some r → lastExit (run w script replies).trace = some r :=
  ⟨(run_faithful w script replies).found, (run_faithful w script replies).ended⟩

end Shell

end ZfsTest.Logapi
