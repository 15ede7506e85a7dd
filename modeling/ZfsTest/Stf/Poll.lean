import Mathlib.Data.Set.Basic
import ZfsTest.Stf.Limit

/-!
# Waiting for the test case

The loop of `poll_process` over the readings of the clock and the results of `poll`. `wake_up` is called behind a second reading of
the clock only, so never before the deadline (`timedOut_late`). The `switch` compares the whole word `revents` with single flags: a
`POLLHUP` beside another flag is passed over, and the loop is right exactly for words without such company (`pollExact_iff`). The
argument of `poll` is computed in `int` and is right up to a remaining time of 2147483 seconds (`pollSafe_iff`).
-/

namespace ZfsTest.Stf

def POLLPRI : BitVec 16 := 0x0002#16
def POLLERR : BitVec 16 := 0x0008#16
def POLLHUP : BitVec 16 := 0x0010#16
def POLLNVAL : BitVec 16 := 0x0020#16

/-- What `poll` returns: `-1`, `0`, or `1` with `revents`. -/
inductive PollResult
  | failed
  | timeout
  | event (revents : BitVec 16)
  deriving DecidableEq, Repr

/-- The arguments of `poll_process` and what it finds: the readings of `gethrtime`, nanoseconds since some time in the past, and the
results of `poll`, each in the order of the calls. -/
structure Waiting where
  timeoutEnd : Int
  suspendflag : Bool
  clock : Nat → Int
  poll : Nat → PollResult
  timeoutEnd_range : InRange 64 timeoutEnd
  clock_range : ∀ i, 0 ≤ clock i ∧ clock i ≤ maxSigned 64
  clock_mono : ∀ i j, i ≤ j → clock i ≤ clock j

/-- How `poll_process` ends. -/
inductive Ended
  | pollFailed
  | timedOut (now : Int)
  | suspended
  | flag (revents : BitVec 16)
  deriving DecidableEq, Repr

/-- `poll_process` returns, and `timed_out` is not set. -/
def Ended.Quiet : Ended → Prop
  | .pollFailed | .timedOut _ => False
  | .suspended | .flag _ => True

/-- How many times the clock has been read and `poll` has been called. -/
structure Calls where
  clock : Nat
  poll : Nat
  deriving DecidableEq, Repr

inductive Turn
  | again (s : Calls)
  | stop (r : Ended)
  deriving DecidableEq, Repr

/-- `polltimeout`. -/
def polltimeout (timeoutEnd now : Int) : Int := wrap 32 ((wrap 64 (timeoutEnd - now)).tdiv NANOSEC)

/-- The last argument of `poll`, in milliseconds; `poll` is not called when `polltimeout` is negative. -/
def pollMillis (timeoutEnd now : Int) : Option Int :=
  if polltimeout timeoutEnd now < 0 then none else some (wrap 32 (polltimeout timeoutEnd now * 1000))

/-- `case 0`. -/
def timeoutCase (e : Waiting) (s : Calls) : Turn :=
  if 0 < wrap 64 (e.timeoutEnd - e.clock s.clock) then .again { s with clock := s.clock + 1 }
  else if e.suspendflag then .stop .suspended
  else .stop (.timedOut (e.clock s.clock))

/-- `switch (pollfds.revents)`. -/
def reventsCase (revents : BitVec 16) (s : Calls) : Turn :=
  if revents = POLLPRI then .stop (.flag revents)
  else if revents = POLLERR then .stop (.flag revents)
  else if revents = POLLHUP then .stop (.flag revents)
  else if revents = POLLNVAL then .stop (.flag revents)
  else .again s

/-- One turn of the loop. -/
def pollTurn (e : Waiting) (s : Calls) : Turn :=
  let s' := { s with clock := s.clock + 1 }
  match pollMillis e.timeoutEnd (e.clock s.clock) with
  | none => timeoutCase e s'
  | some _ =>
    let s' := { s' with poll := s.poll + 1 }
    match e.poll s.poll with
    | .failed => .stop .pollFailed
    | .timeout => timeoutCase e s'
    | .event revents => reventsCase revents s'

/-- The loop after `n` turns. -/
def pollProcess (e : Waiting) : Nat → Turn
  | 0 => .again ⟨0, 0⟩
  | n + 1 =>
    match pollProcess e n with
    | .again s => pollTurn e s
    | .stop r => .stop r

/-- In the turn that begins with `s`, `poll` returns `revents` and the clock was before the deadline. -/
structure Receives (e : Waiting) (s : Calls) (revents : BitVec 16) : Prop where
  called : pollMillis e.timeoutEnd (e.clock s.clock) ≠ none
  result : e.poll s.poll = .event revents
  early : e.clock s.clock < e.timeoutEnd

/-- The decisions of a run are exact. -/
structure ExactTimeout (e : Waiting) : Prop where
  late : ∀ n now, pollProcess e n = .stop (.timedOut now) → e.timeoutEnd ≤ now
  hup : ∀ n s revents, pollProcess e n = .again s → Receives e s revents → revents &&& POLLHUP ≠ 0#16 →
    ∃ k r, pollProcess e k = .stop r ∧ r.Quiet

variable {e : Waiting} {s : Calls}

/-! ## One turn -/

/-- `wake_up` is called at a reading that is not before the deadline: as no reading is negative, the time that is left does not
overflow. -/
theorem timeoutCase_timedOut {now : Int} (h : timeoutCase e s = .stop (.timedOut now)) : e.timeoutEnd ≤ now := by
  unfold timeoutCase at h
  split at h
  · cases h
  · rename_i hpos
    split at h
    · cases h
    · cases h
      by_contra hlt
      obtain ⟨hlo, hhi⟩ := e.timeoutEnd_range
      obtain ⟨hclock, -⟩ := e.clock_range s.clock
      have hwrap : wrap 64 (e.timeoutEnd - e.clock s.clock) = e.timeoutEnd - e.clock s.clock :=
        wrap_of_inRange (by decide) (inRange_of_nonneg (by omega) (by omega))
      rw [hwrap] at hpos
      omega

theorem reventsCase_quiet {revents : BitVec 16} {r : Ended} (h : reventsCase revents s = .stop r) : r = .flag revents := by
  unfold reventsCase at h
  grind

theorem pollTurn_timedOut {now : Int} (h : pollTurn e s = .stop (.timedOut now)) : e.timeoutEnd ≤ now := by
  unfold pollTurn at h
  split at h
  · exact timeoutCase_timedOut h
  · split at h
    · cases h
    · exact timeoutCase_timedOut h
    · exact absurd (reventsCase_quiet h) (by simp)

theorem pollTurn_event {revents : BitVec 16} (h : Receives e s revents) :
    pollTurn e s = reventsCase revents ⟨s.clock + 1, s.poll + 1⟩ := by
  obtain ⟨ms, hms⟩ := Option.ne_none_iff_exists'.mp h.called
  unfold pollTurn
  rw [hms, h.result]

/-! ## Runs -/

/-- `wake_up` is never called before the deadline. -/
theorem timedOut_late {n : Nat} {now : Int} (h : pollProcess e n = .stop (.timedOut now)) : e.timeoutEnd ≤ now := by
  induction n with
  | zero => cases h
  | succ n ih =>
    unfold pollProcess at h
    split at h
    · exact pollTurn_timedOut h
    · rename_i r hr
      cases h
      exact ih hr

theorem exact_of_single (hsingle : ∀ j v, e.poll j = .event v → v &&& POLLHUP ≠ 0#16 → v = POLLHUP) : ExactTimeout e := by
  refine ⟨fun n now => timedOut_late, fun n s v hn hr hv => ?_⟩
  have hvh : v = POLLHUP := hsingle s.poll v hr.result hv
  refine ⟨n + 1, .flag v, ?_, trivial⟩
  unfold pollProcess
  rw [hn]
  dsimp only
  rw [pollTurn_event hr, hvh]
  rfl

/-- A clock that jumps over the deadline between its first two readings, and a `poll` that always returns one word. -/
def jump (v : BitVec 16) : Waiting where
  timeoutEnd := 1
  suspendflag := false
  clock i := if i = 0 then 0 else 2 * NANOSEC
  poll _ := .event v
  timeoutEnd_range := by decide
  clock_range i := by
    split <;> decide
  clock_mono i j hij := by
    have hn : NANOSEC = 1000000000 := rfl
    split <;> split <;> omega

theorem jump_receives (v : BitVec 16) : Receives (jump v) ⟨0, 0⟩ v := by
  refine ⟨?_, rfl, ?_⟩
  · show pollMillis 1 0 ≠ none
    decide
  · show (0 : Int) < 1
    decide

/-- A word that is passed over: the deadline comes. -/
theorem jump_timedOut {v : BitVec 16} (hv : reventsCase v ⟨1, 1⟩ = .again ⟨1, 1⟩) :
    pollProcess (jump v) 2 = .stop (.timedOut (2 * NANOSEC)) := by
  have hfirst : pollProcess (jump v) 1 = .again ⟨1, 1⟩ := (pollTurn_event (jump_receives v)).trans hv
  have hnone : pollMillis (jump v).timeoutEnd ((jump v).clock 1) = none := by
    show pollMillis 1 (2 * NANOSEC) = none
    decide
  unfold pollProcess
  rw [hfirst]
  dsimp only
  unfold pollTurn
  rw [hnone]
  rfl

/-- A word with `POLLHUP` that is not `POLLHUP` alone is none of the flags. -/
theorem reventsCase_hup {v : BitVec 16} (hv : v &&& POLLHUP ≠ 0#16) (hne : v ≠ POLLHUP) : reventsCase v s = .again s := by
  unfold reventsCase
  rw [if_neg, if_neg, if_neg hne, if_neg]
  all_goals
    rintro rfl
    exact hv (by decide)

theorem stop_mono {n k : Nat} {r : Ended} (h : pollProcess e n = .stop r) (hk : n ≤ k) : pollProcess e k = .stop r := by
  induction k, hk using Nat.le_induction with
  | base => exact h
  | succ k hk ih =>
    unfold pollProcess
    rw [ih]

theorem stop_unique {n k : Nat} {r r' : Ended} (h : pollProcess e n = .stop r) (h' : pollProcess e k = .stop r') : r = r' := by
  have h₁ := stop_mono h (Nat.le_max_left n k)
  have h₂ := stop_mono h' (Nat.le_max_right n k)
  rw [h₁] at h₂
  cases h₂
  rfl

/-- All runs whose words `revents` are taken from a set are exact if and only if the only word of the set with `POLLHUP` is `POLLHUP`
alone. -/
theorem pollExact_iff (R : Set (BitVec 16)) : (∀ e : Waiting, (∀ j v, e.poll j = .event v → v ∈ R) → ExactTimeout e) ↔
    ∀ v ∈ R, v &&& POLLHUP ≠ 0#16 → v = POLLHUP := by
  constructor
  · intro h v hv hhup
    by_contra hne
    have hexact := h (jump v) fun j v' hv' => by
      cases hv'
      exact hv
    obtain ⟨k, r, hk, hquiet⟩ := hexact.hup 0 ⟨0, 0⟩ v rfl (jump_receives v) hhup
    rw [stop_unique hk (jump_timedOut (reventsCase_hup hhup hne))] at hquiet
    exact hquiet
  · intro h e he
    exact exact_of_single fun j v hj => h v (he j v hj)

/-- A child that has ended while its descriptor has another flag beside `POLLHUP`. -/
theorem not_pollExact : ¬∀ e : Waiting, ExactTimeout e := by
  intro h
  obtain ⟨k, r, hk, hquiet⟩ := (h (jump (POLLHUP ||| POLLERR))).hup 0 ⟨0, 0⟩ _ rfl (jump_receives _) (by decide)
  rw [stop_unique hk (jump_timedOut (by decide))] at hquiet
  exact hquiet

/-! ## The argument of `poll` -/

/-- The deadline is exact, and until then `poll` waits no longer than the time that is left. -/
structure PollSafe (start duration : Int) : Prop where
  exact_end : endTime start duration = start + duration * NANOSEC
  within : ∀ now ms, start ≤ now → now ≤ endTime start duration → pollMillis (endTime start duration) now = some ms →
    0 ≤ ms ∧ ms * 1000000 ≤ endTime start duration - now

theorem maxSigned_64 : maxSigned 64 = 9223372036854775807 := by decide

theorem maxSigned_32 : maxSigned 32 = 2147483647 := by decide

/-- The whole seconds of a time that is left and not much longer than `INT_MAX / 1000` seconds. -/
theorem polltimeout_eq {timeoutEnd now : Int} (h₀ : 0 ≤ timeoutEnd - now) (h : timeoutEnd - now ≤ 2147484 * NANOSEC) :
    polltimeout timeoutEnd now = (timeoutEnd - now) / NANOSEC := by
  have hn : NANOSEC = 1000000000 := rfl
  have hwide : InRange 64 (timeoutEnd - now) := inRange_of_nonneg h₀ (by rw [maxSigned_64]; omega)
  have hint : InRange 32 ((timeoutEnd - now) / NANOSEC) :=
    inRange_of_nonneg (Int.ediv_nonneg h₀ (by decide)) (by rw [maxSigned_32]; rw [hn] at h ⊢; omega)
  rw [polltimeout, wrap_of_inRange (by decide) hwide, Int.tdiv_eq_ediv_of_nonneg h₀, wrap_of_inRange (by decide) hint]

/-- Up to `INT_MAX / 1000` seconds the argument of `poll` is the whole seconds in milliseconds. -/
theorem pollMillis_eq {timeoutEnd now : Int} (h₀ : 0 ≤ timeoutEnd - now) (h : (timeoutEnd - now) / NANOSEC ≤ INT_MAX / 1000) :
    pollMillis timeoutEnd now = some ((timeoutEnd - now) / NANOSEC * 1000) := by
  have hn : NANOSEC = 1000000000 := rfl
  have hmax : INT_MAX / 1000 = 2147483 := by decide
  have hnn : 0 ≤ (timeoutEnd - now) / NANOSEC := Int.ediv_nonneg h₀ (by decide)
  rw [hmax] at h
  have ht : polltimeout timeoutEnd now = (timeoutEnd - now) / NANOSEC := polltimeout_eq h₀ (by rw [hn] at h ⊢; omega)
  have hint : InRange 32 ((timeoutEnd - now) / NANOSEC * 1000) :=
    inRange_of_nonneg (Int.mul_nonneg hnn (by decide)) (by rw [maxSigned_32]; omega)
  rw [pollMillis, ht, if_neg (Int.not_lt.mpr hnn), wrap_of_inRange (by decide) hint]

/-- With 2147484 seconds left, the argument of `poll` is negative. -/
theorem pollMillis_negative {timeoutEnd now : Int} (h : timeoutEnd - now = 2147484 * NANOSEC) :
    pollMillis timeoutEnd now = some (-2147483296) := by
  have hn : NANOSEC = 1000000000 := rfl
  have ht : polltimeout timeoutEnd now = 2147484 := by
    rw [polltimeout_eq (by omega) (by omega), h]
    decide
  rw [pollMillis, ht]
  decide

/-- The deadline is exact and the argument of `poll` right up to it, if and only if the deadline fits `hrtime_t` and the duration is at
most `INT_MAX / 1000` seconds. -/
theorem pollSafe_iff (m : DataModel) (leftover : Units) (limit : Text) (start : Int) :
    PollSafe start (parseTimeout m.bits leftover limit).duration ↔
      InRange 64 (start + (parseTimeout m.bits leftover limit).duration * NANOSEC) ∧
        (parseTimeout m.bits leftover limit).duration ≤ INT_MAX / 1000 := by
  generalize (parseTimeout m.bits leftover limit).duration = duration
  have hn : NANOSEC = 1000000000 := rfl
  have hmax : INT_MAX / 1000 = 2147483 := by decide
  have hend : endTime start duration = start + duration * NANOSEC ↔ InRange 64 (start + duration * NANOSEC) := by
    rw [endTime, wrap_add_wrap]
    exact wrap_eq_self_iff (by decide)
  rw [hmax]
  constructor
  · rintro ⟨hexact, hwithin⟩
    refine ⟨hend.mp hexact, ?_⟩
    by_contra hlt
    -- a reading 2147484 seconds before the deadline
    have hms := hwithin (endTime start duration - 2147484 * NANOSEC) (-2147483296) (by rw [hn] at hexact ⊢; omega)
      (by rw [hn]; omega) (pollMillis_negative (by omega))
    exact absurd hms.1 (by decide)
  · rintro ⟨hrange, hle⟩
    have hexact := hend.mpr hrange
    refine ⟨hexact, fun now ms hstart hnow hms => ?_⟩
    have h₀ : 0 ≤ endTime start duration - now := by omega
    have hquot : (endTime start duration - now) / NANOSEC ≤ INT_MAX / 1000 := by
      rw [hmax, hn]
      rw [hn] at hexact
      omega
    rw [pollMillis_eq h₀ hquot] at hms
    cases hms
    rw [hn]
    omega

/-- With 600 hours, the time left after the start is passed on as a negative number. -/
theorem not_pollSafe : ¬∀ (m : DataModel) (leftover : Units) (limit : Text) (start : Int),
    PollSafe start (parseTimeout m.bits leftover limit).duration := by
  intro h
  have hsafe := (pollSafe_iff .ilp32 .other "600h".toList 0).mp (h .ilp32 .other "600h".toList 0)
  exact absurd hsafe.2 (by decide)

end ZfsTest.Stf
