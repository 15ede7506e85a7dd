import ZfsTest.Prog.Fold

/-!
# Waiting for the state of a service, `smf_cmd_FMRI_wait_fn`

The function runs a command and then waits until `svcprop` reports the requested state. Two processes write to its FIFO: a timer,
which writes `ETIME` after its sleep, and a `svcprop -w`, which writes the state after a change and is started again after each of
its messages. The service, the two processes and the shell take their steps in any order (`Act`); `svcprop` may fail at any call,
and messages may be lost or overtake each other. There is no user interrupt.

The result is not always true. The loop also ends when the `svcprop` or the `read` in its condition fails, and its exit status is
`0` then; and the sleep of a timer with the timeout `-1` ends at once, with an error, but `ETIME` is written all the same. A run
without these (`StepOk`) tells the truth (`run_truthful`).
-/

namespace ZfsTest.Smf

def ENOENT : Nat := 2
def EINVAL : Nat := 22
def ETIME : Nat := 62

variable {σ : Type}

/-- A line in the FIFO. -/
inductive Message (σ : Type)
  | etime
  | moved (x : σ)
  deriving DecidableEq, Repr

/-- A line on `stdout`. -/
inductive Line (σ : Type)
  | movedTo (x : σ)
  | timeout
  | statusIs (x : Option σ)
  deriving DecidableEq, Repr

/-- The parameters: their number without `-v`, whether there is a `-v`, the requested state (`FMRI_status`) and the timeout. -/
structure Call (σ : Type) where
  argc : Nat
  verbose : Bool
  requested : σ
  timeout : Int

/-- What the shell does next. -/
inductive Ctl
  | args
  | installed
  | command
  | mkfifo
  | timer
  | watcher
  /-- `svcprop` in the condition of the loop, and the comparison. -/
  | poll
  | read
  /-- `svcprop` after `ETIME`. -/
  | expired
  | restart
  /-- `svcprop` after the loop, for the message. -/
  | report
  | returned (status : Nat)
  deriving DecidableEq, Repr

/-- The shell, the service, the two processes and the FIFO. `status` is that of the command, `timedOut` tells that the sleep has
ended, `reported` are the states that `svcprop` has reported, and `readThen` is what the `svcprop` after `ETIME` has given. -/
structure Wait (σ : Type) where
  ctl : Ctl
  service : σ
  status : Option Nat
  timer : Bool
  watcher : Bool
  timedOut : Bool
  fifo : List (Message σ)
  reported : List σ
  readThen : Option (Option σ)
  out : List (Line σ)
  deriving Repr

def Wait.init (service : σ) : Wait σ := ⟨.args, service, none, false, false, false, [], [], none, []⟩

inductive Act (σ : Type)
  | checkArgs
  | smfInstalled (ok : Bool)
  | evalCmd (status : Nat)
  | mkfifo (status : Nat)
  | startTimer
  | startWatcher
  | svcprop (ok : Bool)
  /-- `read`, which fails when there is no line. -/
  | read (m : Option (Message σ))
  /-- The service changes its state. -/
  | change (x : σ)
  /-- The sleep of the timer ends, and the timer writes. -/
  | expire
  /-- `svcprop -w` writes the state. -/
  | moved
  /-- `svcprop -w` ends without a message. -/
  | unwatched
  | lose (m : Message σ)
  deriving DecidableEq, Repr

/-! ## One step -/

def Wait.goto (s : Wait σ) (ctl : Ctl) : Wait σ := { s with ctl := ctl }

/-- `_scFw_cleanup_fn`: both processes are killed, and the FIFO is removed. -/
def Wait.cleanup (s : Wait σ) : Wait σ := { s with timer := false, watcher := false, fifo := [] }

/-- The answer of `svcprop -p restarter/state`. -/
def Wait.answer (s : Wait σ) (ok : Bool) : Option σ := if ok then some s.service else none

def Wait.hear (s : Wait σ) (ok : Bool) : Wait σ := { s with reported := s.reported ++ (s.answer ok).toList }

def Wait.print (s : Wait σ) (c : Call σ) (line : Line σ) : Wait σ :=
  if c.verbose then { s with out := s.out ++ [line] } else s

/-- The exit status of the loop: that of the body, which ends with an `if` whose condition is false, or of no body at all. -/
def loopStatus : Nat := 0

def Wait.endLoop (s : Wait σ) (c : Call σ) : Wait σ :=
  if c.verbose then s.goto .report else s.cleanup.goto (.returned loopStatus)

variable [DecidableEq σ]

/-- `svcprop`, in the three places where it is called. -/
def Wait.svcprop (c : Call σ) (s : Wait σ) (ok : Bool) : Wait σ :=
  match s.ctl with
  | .poll =>
    match s.answer ok with
    | none => (s.hear ok).endLoop c
    | some x => if x = c.requested then (s.hear ok).endLoop c else (s.hear ok).goto .read
  | .expired =>
    let s' := { s.hear ok with readThen := some (s.answer ok) }
    if s.answer ok = some c.requested then s'.goto (.returned 0)
    else (s'.print c .timeout).goto (.returned ETIME)
  | .report => (((s.hear ok).print c (.statusIs (s.answer ok))).cleanup).goto (.returned loopStatus)
  | _ => s

def Wait.read (c : Call σ) (s : Wait σ) : Option (Message σ) → Wait σ
  | none => s.endLoop c
  | some m =>
    if m ∈ s.fifo then
      let s := { s with fifo := s.fifo.erase m }
      match m with
      | .etime => s.cleanup.goto .expired
      | .moved x => (s.print c (.movedTo x)).goto .restart
    else s

/-- What is not possible changes nothing. -/
def step (c : Call σ) (s : Wait σ) : Act σ → Wait σ
  | .checkArgs => if s.ctl = .args then s.goto (if c.argc ≠ 4 then .returned EINVAL else .installed) else s
  | .smfInstalled ok => if s.ctl = .installed then s.goto (if ok then .command else .returned ENOENT) else s
  | .evalCmd status =>
    if s.ctl = .command then { s.goto (if status ≠ 0 then .returned status else .mkfifo) with status := some status } else s
  | .mkfifo status => if s.ctl = .mkfifo then s.goto (if status ≠ 0 then .returned status else .timer) else s
  | .startTimer => if s.ctl = .timer then { s.goto .watcher with timer := true } else s
  | .startWatcher => if s.ctl = .watcher ∨ s.ctl = .restart then { s.goto .poll with watcher := true } else s
  | .svcprop ok => s.svcprop c ok
  | .read m => if s.ctl = .read then s.read c m else s
  | .change x => { s with service := x }
  | .expire => if s.timer then { s with timer := false, timedOut := true, fifo := s.fifo ++ [.etime] } else s
  | .moved =>
    if s.watcher then { s with watcher := false, fifo := s.fifo ++ [.moved s.service], reported := s.reported ++ [s.service] } else s
  | .unwatched => { s with watcher := false }
  | .lose m => { s with fifo := s.fifo.erase m }

def run (c : Call σ) (service : σ) (acts : List (Act σ)) : Wait σ := acts.foldl (step c) (Wait.init service)

/-! ## The truth of the result -/

/-- What the result says of a call whose command succeeded. -/
structure Truthful (c : Call σ) (s : Wait σ) : Prop where
  zero : s.ctl = .returned 0 → c.requested ∈ s.reported
  etime : s.ctl = .returned ETIME → s.timedOut = true ∧ ∃ x, s.readThen = some x ∧ x ≠ some c.requested
  forever : c.timeout = -1 → s.ctl ≠ .returned ETIME

/-- The `svcprop` and the `read` in the condition of the loop fail only after the requested state has been reported; after `ETIME`
a wait without a timeout finds the requested state; and `mkfifo` does not fail with `ETIME`. -/
def StepOk (c : Call σ) (s : Wait σ) : Act σ → Prop
  | .mkfifo status => s.ctl = .mkfifo → status ≠ ETIME
  | .svcprop ok =>
    (s.ctl = .poll → ok = false → c.requested ∈ s.reported) ∧
      (s.ctl = .expired → c.timeout = -1 → s.answer ok = some c.requested)
  | .read m => s.ctl = .read → m = none → c.requested ∈ s.reported
  | _ => True

instance (c : Call σ) (s : Wait σ) : (a : Act σ) → Decidable (StepOk c s a)
  | .mkfifo status => inferInstanceAs (Decidable (s.ctl = .mkfifo → status ≠ ETIME))
  | .svcprop ok => inferInstanceAs (Decidable ((s.ctl = .poll → ok = false → c.requested ∈ s.reported) ∧
      (s.ctl = .expired → c.timeout = -1 → s.answer ok = some c.requested)))
  | .read m => inferInstanceAs (Decidable (s.ctl = .read → m = none → c.requested ∈ s.reported))
  | .checkArgs | .smfInstalled _ | .evalCmd _ | .startTimer | .startWatcher | .change _ | .expire | .moved | .unwatched | .lose _ =>
    isTrue trivial

/-! ## What every step keeps -/

/-- An `ETIME` in the FIFO comes from a timer whose sleep has ended, and the loop ends only when the requested state has been
reported. -/
structure Inv (c : Call σ) (s : Wait σ) : Prop where
  early : s.ctl = .args ∨ s.ctl = .installed → s.status = none
  fifo : Message.etime ∈ s.fifo → s.timedOut = true
  expired : s.ctl = .expired → s.timedOut = true
  report : s.ctl = .report → c.requested ∈ s.reported
  truthful : s.status = some 0 → Truthful c s

variable {c : Call σ} {s s' : Wait σ}

omit [DecidableEq σ] in
/-- A state that is not the end of a call. -/
theorem Truthful.of_running (h : ∀ n, s.ctl ≠ .returned n) : Truthful c s :=
  ⟨fun he => absurd he (h 0), fun he => absurd he (h ETIME), fun _ => h ETIME⟩

omit [DecidableEq σ] in
theorem Truthful.of_zero (hc : s.ctl = .returned 0) (h : c.requested ∈ s.reported) : Truthful c s := by
  refine ⟨fun _ => h, fun he => ?_, fun _ he => ?_⟩
  · rw [hc] at he
    cases he
  · rw [hc] at he
    cases he

omit [DecidableEq σ] in
theorem Inv.init (c : Call σ) (service : σ) : Inv c (Wait.init service) :=
  ⟨fun _ => rfl, fun h => (by cases h), fun h => (by cases h), fun h => (by cases h), fun h => (by cases h)⟩

omit [DecidableEq σ] in
/-- A step of the service or of a process: the shell does not move. -/
theorem Inv.other (hi : Inv c s) (hctl : s'.ctl = s.ctl) (hstatus : s'.status = s.status) (hread : s'.readThen = s.readThen)
    (htime : s.timedOut = true → s'.timedOut = true) (hrep : ∀ x ∈ s.reported, x ∈ s'.reported)
    (hfifo : Message.etime ∈ s'.fifo → s'.timedOut = true) : Inv c s' where
  early h := by
    rw [hctl] at h
    rw [hstatus]
    exact hi.early h
  fifo := hfifo
  expired h := htime (hi.expired (hctl ▸ h))
  report h := hrep _ (hi.report (hctl ▸ h))
  truthful h := by
    have ht := hi.truthful (hstatus ▸ h)
    refine ⟨fun h0 => hrep _ (ht.zero (hctl ▸ h0)), fun he => ?_, fun hm he => ht.forever hm (hctl ▸ he)⟩
    obtain ⟨htimed, hthen⟩ := ht.etime (hctl ▸ he)
    exact ⟨htime htimed, hread ▸ hthen⟩

omit [DecidableEq σ] in
/-- A step of the shell within the call. -/
theorem Inv.inside (hearly : s'.ctl = .args ∨ s'.ctl = .installed → s'.status = none)
    (hfifo : Message.etime ∈ s'.fifo → s'.timedOut = true) (hexp : s'.ctl = .expired → s'.timedOut = true)
    (hrep : s'.ctl = .report → c.requested ∈ s'.reported) (hrun : ∀ n, s'.ctl ≠ .returned n) : Inv c s' :=
  ⟨hearly, hfifo, hexp, hrep, fun _ => Truthful.of_running hrun⟩

omit [DecidableEq σ] in
/-- The end of a call. -/
theorem Inv.ended {n : Nat} (hctl : s'.ctl = .returned n) (hfifo : Message.etime ∈ s'.fifo → s'.timedOut = true)
    (ht : s'.status = some 0 → Truthful c s') : Inv c s' := by
  refine ⟨fun h => ?_, hfifo, fun h => ?_, fun h => ?_, ht⟩
  · rw [hctl] at h
    rcases h with h | h <;> cases h
  · rw [hctl] at h
    cases h
  · rw [hctl] at h
    cases h

omit [DecidableEq σ] in
/-- The end of the loop after the requested state has been reported. -/
theorem Inv.endLoop (hfifo : Message.etime ∈ s.fifo → s.timedOut = true) (hrep : c.requested ∈ s.reported) :
    Inv c (s.endLoop c) := by
  unfold Wait.endLoop
  split
  · exact Inv.inside (fun h => by rcases h with h | h <;> cases h) hfifo (fun h => by cases h) (fun _ => hrep) (fun _ h => by cases h)
  · exact Inv.ended rfl (fun h => by cases h) fun _ => Truthful.of_zero rfl hrep

omit [DecidableEq σ] in
@[simp] theorem print_ctl (c : Call σ) (s : Wait σ) (line : Line σ) : (s.print c line).ctl = s.ctl := by
  unfold Wait.print
  split <;> rfl

omit [DecidableEq σ] in
@[simp] theorem print_fifo (c : Call σ) (s : Wait σ) (line : Line σ) : (s.print c line).fifo = s.fifo := by
  unfold Wait.print
  split <;> rfl

omit [DecidableEq σ] in
@[simp] theorem print_timedOut (c : Call σ) (s : Wait σ) (line : Line σ) : (s.print c line).timedOut = s.timedOut := by
  unfold Wait.print
  split <;> rfl

omit [DecidableEq σ] in
@[simp] theorem print_reported (c : Call σ) (s : Wait σ) (line : Line σ) : (s.print c line).reported = s.reported := by
  unfold Wait.print
  split <;> rfl

omit [DecidableEq σ] in
@[simp] theorem print_readThen (c : Call σ) (s : Wait σ) (line : Line σ) : (s.print c line).readThen = s.readThen := by
  unfold Wait.print
  split <;> rfl

omit [DecidableEq σ] in
/-- What `svcprop` answers is reported. -/
theorem mem_hear {ok : Bool} {x : σ} (h : s.answer ok = some x) : x ∈ (s.hear ok).reported := by
  rw [Wait.hear, h]
  exact List.mem_append_right _ (List.mem_singleton_self x)

omit [DecidableEq σ] in
theorem mem_hear_of_mem {x : σ} (ok : Bool) (h : x ∈ s.reported) : x ∈ (s.hear ok).reported := List.mem_append_left _ h

/-! ## The steps -/

/-- `svcprop` in the condition of the loop. -/
theorem Inv.poll (hi : Inv c s) (hctl : s.ctl = .poll) (ok : Bool) (hok : ok = false → c.requested ∈ s.reported) :
    Inv c (s.svcprop c ok) := by
  unfold Wait.svcprop
  rw [hctl]
  cases ha : s.answer ok with
  | none =>
    have hf : ok = false := by
      cases ok with
      | false => rfl
      | true => cases ha
    exact Inv.endLoop hi.fifo (mem_hear_of_mem ok (hok hf))
  | some x =>
    simp only
    split
    · rename_i hx
      exact Inv.endLoop hi.fifo (hx ▸ mem_hear ha)
    · exact Inv.inside (fun h => by rcases h with h | h <;> cases h) hi.fifo (fun h => by cases h) (fun h => by cases h)
        (fun _ h => by cases h)

/-- `svcprop` after `ETIME`. -/
theorem Inv.expire (hi : Inv c s) (hctl : s.ctl = .expired) (ok : Bool)
    (hok : c.timeout = -1 → s.answer ok = some c.requested) : Inv c (s.svcprop c ok) := by
  unfold Wait.svcprop
  rw [hctl]
  simp only
  split
  · rename_i ha
    exact Inv.ended rfl hi.fifo fun _ => Truthful.of_zero rfl (mem_hear ha)
  · rename_i ha
    refine Inv.ended rfl (fun h => ?_) fun _ => ⟨fun h => (by cases h), fun _ => ⟨?_, s.answer ok, ?_, ha⟩, fun hm => absurd (hok hm) ha⟩
    · simp only [Wait.goto, print_fifo, print_timedOut] at h ⊢
      exact hi.fifo h
    · simpa [Wait.goto, Wait.hear] using hi.expired hctl
    · simp [Wait.goto]

/-- `svcprop` for the message after the loop. -/
theorem Inv.reporting (hi : Inv c s) (hctl : s.ctl = .report) (ok : Bool) : Inv c (s.svcprop c ok) := by
  unfold Wait.svcprop
  rw [hctl]
  refine Inv.ended rfl (fun h => by cases h) fun _ => Truthful.of_zero rfl ?_
  simp only [Wait.goto, Wait.cleanup, print_reported]
  exact mem_hear_of_mem ok (hi.report hctl)

theorem Inv.svcprop (hi : Inv c s) (ok : Bool) (hok : StepOk c s (.svcprop ok)) : Inv c (s.svcprop c ok) := by
  by_cases hp : s.ctl = .poll
  · exact hi.poll hp ok (hok.1 hp)
  by_cases he : s.ctl = .expired
  · exact hi.expire he ok (hok.2 he)
  by_cases hr : s.ctl = .report
  · exact hi.reporting hr ok
  have hs : s.svcprop c ok = s := by
    unfold Wait.svcprop
    split
    · exact absurd ‹_› hp
    · exact absurd ‹_› he
    · exact absurd ‹_› hr
    · rfl
  rw [hs]
  exact hi

theorem Inv.read (hi : Inv c s) (m : Option (Message σ)) (hok : m = none → c.requested ∈ s.reported) :
    Inv c (s.read c m) := by
  cases m with
  | none => exact Inv.endLoop hi.fifo (hok rfl)
  | some m =>
    simp only [Wait.read]
    split
    · rename_i hm
      cases m with
      | etime =>
        exact Inv.inside (fun h => by rcases h with h | h <;> cases h) (fun h => by cases h) (fun _ => hi.fifo hm)
          (fun h => by cases h) (fun _ h => by cases h)
      | moved x =>
        refine Inv.inside (fun h => by rcases h with h | h <;> cases h) (fun h => ?_) (fun h => by cases h) (fun h => by cases h)
          (fun _ h => by cases h)
        simp only [Wait.goto, print_fifo, print_timedOut] at h ⊢
        exact hi.fifo (List.mem_of_mem_erase h)
    · exact hi

theorem Inv.step (hi : Inv c s) {a : Act σ} (hok : StepOk c s a) : Inv c (step c s a) := by
  cases a with
  | checkArgs =>
    simp only [Smf.step]
    split
    · rename_i hctl
      have hnone := hi.early (Or.inl hctl)
      split
      · exact Inv.ended rfl hi.fifo fun h => by rw [Wait.goto, hnone] at h; cases h
      · exact Inv.inside (fun _ => hnone) hi.fifo (fun h => by cases h) (fun h => by cases h) (fun _ h => by cases h)
    · exact hi
  | smfInstalled ok =>
    simp only [Smf.step]
    split
    · rename_i hctl
      have hnone := hi.early (Or.inr hctl)
      split
      · exact Inv.inside (fun _ => hnone) hi.fifo (fun h => by cases h) (fun h => by cases h) (fun _ h => by cases h)
      · exact Inv.ended rfl hi.fifo fun h => by rw [Wait.goto, hnone] at h; cases h
    · exact hi
  | evalCmd status =>
    simp only [Smf.step]
    split
    · split
      · rename_i hne
        exact Inv.ended rfl hi.fifo fun h => absurd (Option.some.inj h) hne
      · exact Inv.inside (fun h => by rcases h with h | h <;> cases h) hi.fifo (fun h => by cases h) (fun h => by cases h)
          (fun _ h => by cases h)
    · exact hi
  | mkfifo status =>
    simp only [Smf.step]
    split
    · rename_i hctl
      split
      · rename_i hne
        refine Inv.ended rfl hi.fifo fun _ => ⟨fun h => ?_, fun h => ?_, fun _ h => ?_⟩
        · exact absurd (Ctl.returned.inj h) hne
        · exact absurd (Ctl.returned.inj h) (hok hctl)
        · exact absurd (Ctl.returned.inj h) (hok hctl)
      · exact Inv.inside (fun h => by rcases h with h | h <;> cases h) hi.fifo (fun h => by cases h) (fun h => by cases h)
          (fun _ h => by cases h)
    · exact hi
  | startTimer =>
    simp only [Smf.step]
    split
    · exact Inv.inside (fun h => by rcases h with h | h <;> cases h) hi.fifo (fun h => by cases h) (fun h => by cases h)
        (fun _ h => by cases h)
    · exact hi
  | startWatcher =>
    simp only [Smf.step]
    split
    · exact Inv.inside (fun h => by rcases h with h | h <;> cases h) hi.fifo (fun h => by cases h) (fun h => by cases h)
        (fun _ h => by cases h)
    · exact hi
  | svcprop ok => exact hi.svcprop ok hok
  | read m =>
    simp only [Smf.step]
    split
    · rename_i hctl
      exact hi.read m (hok hctl)
    · exact hi
  | change x => exact hi.other rfl rfl rfl id (fun _ h => h) hi.fifo
  | expire =>
    simp only [Smf.step]
    split
    · exact hi.other rfl rfl rfl (fun _ => rfl) (fun _ h => h) (fun _ => rfl)
    · exact hi
  | moved =>
    simp only [Smf.step]
    split
    · refine hi.other rfl rfl rfl id (fun _ h => List.mem_append_left _ h) fun h => ?_
      rcases List.mem_append.mp h with h | h
      · exact hi.fifo h
      · cases List.mem_singleton.mp h
    · exact hi
  | unwatched => exact hi.other rfl rfl rfl id (fun _ h => h) hi.fifo
  | lose m => exact hi.other rfl rfl rfl id (fun _ h => h) fun h => hi.fifo (List.mem_of_mem_erase h)

/-- In a run whose steps are all as they should be, the result of a call whose command succeeded is true. -/
theorem run_truthful (c : Call σ) (service : σ) (acts : List (Act σ))
    (hok : ∀ pre a post, acts = pre ++ a :: post → StepOk c (run c service pre) a) (hcmd : (run c service acts).status = some 0) :
    Truthful c (run c service acts) :=
  (foldl_induction (P := fun _ s => Inv c s) (Inv.init c service) (fun _ _ _ hi ha => hi.step ha) acts hok).truthful hcmd

/-- The state changes twice before the timer's message, which is read after the second change. -/
def racingRun : List (Act Nat) :=
  [.checkArgs, .smfInstalled true, .evalCmd 0, .mkfifo 0, .startTimer, .startWatcher, .svcprop true, .change 1, .moved, .change 2,
    .expire, .read (some (.moved 1)), .startWatcher, .svcprop true, .read (some .etime), .change 3, .svcprop true]

theorem run_truthful_racing :
    (run ⟨4, false, 3, 60⟩ 0 racingRun).ctl = .returned 0 ∧ Truthful ⟨4, false, 3, 60⟩ (run ⟨4, false, 3, 60⟩ 0 racingRun) :=
  ⟨by decide, run_truthful _ _ _ (forall_steps (by decide)) (by decide)⟩

/-- `svcprop` fails for a service that never was in the requested state. -/
theorem not_run_truthful : ¬∀ (c : Call Nat) (service : Nat) (acts : List (Act Nat)), (run c service acts).status = some 0 →
    Truthful c (run c service acts) := by
  intro H
  have ht := H ⟨4, false, 1, 60⟩ 0 [.checkArgs, .smfInstalled true, .evalCmd 0, .mkfifo 0, .startTimer, .startWatcher,
    .svcprop false] (by decide)
  have hmem := ht.zero (by decide)
  revert hmem
  decide

end ZfsTest.Smf
