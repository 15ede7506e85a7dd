import Mathlib.Tactic.Ring
import ZfsTest.Num.Signed
import ZfsTest.Prog.Loop

/-!
# Waiting for a condition, `wait_now`

The function evaluates a condition and sleeps, until the condition holds or the timer has run out. The time that has passed is also
the status of a wait in vain, and the shell keeps eight bits of it. A wait in vain is reported as a success when the first multiple of
the interval that is not below the timer is also a multiple of 256.

The timer, the interval and the time are variables of `typeset -i`, which hold 32 bits. Greater numbers come in again from below: the
timer may be over at once, or the time may stay below it for ever. `wait_now_truthful_iff` says when the function is right, and
`truthful_iff_of_inRange` what this comes to for numbers that are held as they are.
-/

namespace ZfsTest.Nfs

/-- The variables of the loop. `counts` is the trace: the values of `i` at which the condition has been evaluated. -/
structure Waiting where
  i : Int
  counts : List Int
  deriving DecidableEq, Repr

structure Waited where
  counts : List Int
  status : Int
  deriving DecidableEq, Repr

/-- `return`, which keeps eight bits. -/
def returned (i : Int) : Int := i % 256

section

variable (Timer interval : Nat) (outcome : Nat → Nat)

/-- One round. `outcome k` is the exit status of the condition when it is evaluated after `k` other times. -/
def waitRound (s : Waiting) : Round Waiting Waited :=
  if s.i < wrap 32 Timer then
    if outcome s.counts.length = 0 then .done ⟨s.counts ++ [s.i], returned 0⟩
    else .next ⟨wrap 32 (s.i + wrap 32 interval), s.counts ++ [s.i]⟩
  else .done ⟨s.counts, returned s.i⟩

/-- `wait_now` comes to an end with `w`. Without a third parameter `interval` is `1`. -/
def WaitNow (w : Waited) : Prop := Loop.Ends (waitRound Timer interval outcome) ⟨0, []⟩ w

/-- The condition is evaluated at the multiples of the interval below the timer, until it first holds. -/
structure Evaluates (counts : List Int) : Prop where
  multiples : counts = (List.range counts.length).map fun k => ((k * interval : Nat) : Int)
  below : ∀ i ∈ counts, i < Timer
  first : ∀ k, k + 1 < counts.length → outcome k ≠ 0
  complete : counts.length * interval < Timer → ∃ k, counts.length = k + 1 ∧ outcome k = 0

/-- The first multiple of the interval that is not below the timer. -/
def timeout : Nat := (Timer + interval - 1) / interval * interval

/-- What `wait_now` is for. -/
def Truthful : Prop :=
  ∃ w, WaitNow Timer interval outcome w ∧ Evaluates Timer interval outcome w.counts ∧
    (w.status = 0 ↔ ∃ k < w.counts.length, outcome k = 0)

/-! ## The loop -/

/-- The time at the evaluation behind `k` others. -/
def countAt (k : Nat) : Int := wrap 32 ((k * interval : Nat) : Int)

/-- The variables behind `n` evaluations. -/
def waiting (n : Nat) : Waiting := ⟨countAt interval n, (List.range n).map (countAt interval)⟩

/-- The loop goes on behind the evaluation number `k`. -/
def Waits (k : Nat) : Prop := countAt interval k < wrap 32 Timer ∧ outcome k ≠ 0

/-- What the loop comes to: the condition holds behind evaluations in vain, or the timer has run out. -/
inductive Outcome (w : Waited) : Prop
  | held (n : Nat) (hwait : ∀ k < n, Waits Timer interval outcome k) (hlt : countAt interval n < wrap 32 Timer) (h : outcome n = 0)
      (hw : w = ⟨(waiting interval (n + 1)).counts, 0⟩)
  | inVain (n : Nat) (hwait : ∀ k < n, Waits Timer interval outcome k) (hend : wrap 32 Timer ≤ countAt interval n)
      (hw : w = ⟨(waiting interval n).counts, returned (countAt interval n)⟩)

variable {Timer interval outcome}

theorem waiting_i (n : Nat) : (waiting interval n).i = countAt interval n := by simp only [waiting]

@[simp] theorem length_waiting (n : Nat) : (waiting interval n).counts.length = n := by simp [waiting]

theorem waiting_zero : waiting interval 0 = ⟨0, []⟩ := by simp [waiting, countAt, wrap]

theorem waiting_succ (n : Nat) :
    waiting interval (n + 1) =
      ⟨wrap 32 ((waiting interval n).i + wrap 32 interval), (waiting interval n).counts ++ [(waiting interval n).i]⟩ := by
  have hcount : countAt interval (n + 1) = wrap 32 (countAt interval n + wrap 32 interval) := by
    have hsum : (((n + 1) * interval : Nat) : Int) = (n * interval : Nat) + interval := by
      rw [Nat.succ_mul, Nat.cast_add]
    simp only [countAt, wrap_wrap_add, wrap_add_wrap, hsum]
  simp only [waiting, hcount, List.range_succ, List.map_append, List.map_cons, List.map_nil]

theorem waitRound_next {n : Nat} (h : Waits Timer interval outcome n) :
    waitRound Timer interval outcome (waiting interval n) = .next (waiting interval (n + 1)) := by
  simp only [waitRound, waiting_i, if_pos h.1, length_waiting, if_neg h.2, waiting_succ]

theorem waitRound_held {n : Nat} (hlt : countAt interval n < wrap 32 Timer) (h : outcome n = 0) :
    waitRound Timer interval outcome (waiting interval n) = .done ⟨(waiting interval (n + 1)).counts, 0⟩ := by
  have hzero : returned 0 = 0 := rfl
  simp only [waitRound, waiting_i, if_pos hlt, length_waiting, if_pos h, waiting_succ, hzero]

theorem waitRound_over {n : Nat} (hend : wrap 32 Timer ≤ countAt interval n) :
    waitRound Timer interval outcome (waiting interval n) = .done ⟨(waiting interval n).counts, returned (countAt interval n)⟩ := by
  simp only [waitRound, waiting_i, if_neg (not_lt.mpr hend)]

/-- The first evaluations in vain. -/
theorem waitNow_iff_waiting {n : Nat} (h : ∀ k < n, Waits Timer interval outcome k) (w : Waited) :
    WaitNow Timer interval outcome w ↔ Loop.Ends (waitRound Timer interval outcome) (waiting interval n) w := by
  induction n with
  | zero => rw [waiting_zero, WaitNow]
  | succ n ih =>
    rw [ih fun k hk => h k (by omega)]
    exact Loop.ends_next_iff (waitRound_next (h n (by omega)))

/-- Every end of `wait_now` is one of the two, and where one of them comes up `wait_now` ends with it. -/
theorem waitNow_iff (w : Waited) : WaitNow Timer interval outcome w ↔ Outcome Timer interval outcome w := by
  constructor
  · intro he
    refine he.post (I := fun s => ∃ n, s = waiting interval n ∧ ∀ k < n, Waits Timer interval outcome k)
      ⟨0, waiting_zero.symm, nofun⟩ ?_ ?_
    · rintro s s' ⟨n, rfl, hwait⟩ hstep
      by_cases hlt : countAt interval n < wrap 32 Timer
      · by_cases h : outcome n = 0
        · rw [waitRound_held hlt h] at hstep
          cases hstep
        · rw [waitRound_next ⟨hlt, h⟩] at hstep
          obtain rfl := Round.next.inj hstep
          refine ⟨n + 1, rfl, fun k hk => ?_⟩
          rcases Nat.lt_succ_iff_lt_or_eq.mp hk with hk | rfl
          · exact hwait k hk
          · exact ⟨hlt, h⟩
      · rw [waitRound_over (not_lt.mp hlt)] at hstep
        cases hstep
    · rintro s w ⟨n, rfl, hwait⟩ hstep
      by_cases hlt : countAt interval n < wrap 32 Timer
      · by_cases h : outcome n = 0
        · rw [waitRound_held hlt h] at hstep
          obtain rfl := Round.done.inj hstep
          exact .held n hwait hlt h rfl
        · rw [waitRound_next ⟨hlt, h⟩] at hstep
          cases hstep
      · rw [waitRound_over (not_lt.mp hlt)] at hstep
        obtain rfl := Round.done.inj hstep
        exact .inVain n hwait (not_lt.mp hlt) rfl
  · intro ho
    cases ho with
    | held n hwait hlt h hw =>
      subst hw
      exact (waitNow_iff_waiting hwait _).mpr (Loop.ends_done (waitRound_held hlt h))
    | inVain n hwait hend hw =>
      subst hw
      exact (waitNow_iff_waiting hwait _).mpr (Loop.ends_done (waitRound_over hend))

/-! ## Counts -/

/-- A multiple that is below a number of 32 bits is counted as it is. -/
theorem countAt_of_lt {k : Nat} (h : ((k * interval : Nat) : Int) < wrap 32 Timer) : countAt interval k = (k * interval : Nat) := by
  have hrange := (inRange_wrap (w := 32) (by decide) (Timer : Int)).2
  exact wrap_of_inRange (by decide) (inRange_of_nonneg (Int.natCast_nonneg _) (by omega))

/-- The evaluations are at multiples of the interval if the counts are these. -/
theorem counts_multiples_iff (n : Nat) : (waiting interval n).counts =
    (List.range (waiting interval n).counts.length).map (fun k => ((k * interval : Nat) : Int)) ↔
      ∀ k < n, countAt interval k = (k * interval : Nat) := by
  rw [length_waiting, waiting]
  simp only [List.map_inj_left, List.mem_range]

theorem timeout_spec (hTimer : 1 ≤ Timer) (hinterval : 1 ≤ interval) :
    ∃ n, timeout Timer interval = (n + 1) * interval ∧ n * interval < Timer ∧ Timer ≤ (n + 1) * interval := by
  have hpos : 0 < (Timer + interval - 1) / interval := Nat.div_pos (by omega) hinterval
  obtain ⟨n, hn⟩ := Nat.exists_eq_add_of_lt hpos
  rw [Nat.zero_add] at hn
  have hdiv := Nat.div_add_mod (Timer + interval - 1) interval
  have hmod := Nat.mod_lt (Timer + interval - 1) hinterval
  rw [hn, Nat.mul_comm] at hdiv
  refine ⟨n, by rw [timeout, hn], ?_, ?_⟩
  · rw [Nat.succ_mul] at hdiv
    omega
  · omega

/-- The number of multiples below the timer. -/
theorem eq_of_multiples {m n : Nat} (hm : ∀ k < m, k * interval < Timer) (hend : Timer ≤ m * interval) (hn : n * interval < Timer)
    (hn' : Timer ≤ (n + 1) * interval) : m = n + 1 := by
  rcases Nat.lt_trichotomy m (n + 1) with h | h | h
  · have := Nat.mul_le_mul_right interval (Nat.lt_succ_iff.mp h)
    omega
  · exact h
  · have := hm (n + 1) h
    omega

/-- Wrapping leaves the status as it is. -/
theorem returned_wrap_iff (n : Nat) : returned (wrap 32 n) = 0 ↔ 256 ∣ n := by
  obtain ⟨q, hq⟩ : ∃ q : Int, wrap 32 (n : Int) = n - 2 ^ 32 * q := by
    refine ⟨((n : Int) - wrap 32 n) / 2 ^ 32, ?_⟩
    have hdvd : ((2 ^ 32 : Nat) : Int) ∣ (n : Int) - wrap 32 n := Int.dvd_self_sub_bmod
    omega
  unfold returned
  omega

/-! ## Truth -/

/-- The condition holds while the timer, as it is held, runs. -/
def Holds (Timer interval : Nat) (outcome : Nat → Nat) : Prop := ∃ k, outcome k = 0 ∧ ((k * interval : Nat) : Int) < wrap 32 Timer

/-- The condition does not hold below the timer; the last multiple below the timer is below it as it is held too, and the next one as it
is held is not, and has a status of its own. -/
structure InVain (Timer interval : Nat) (outcome : Nat → Nat) : Prop where
  never : ∀ k, k * interval < Timer → outcome k ≠ 0
  last : ((timeout Timer interval - interval : Nat) : Int) < wrap 32 Timer
  past : wrap 32 Timer ≤ wrap 32 (timeout Timer interval)
  status : ¬256 ∣ timeout Timer interval

theorem truthful_of_holds (h : Holds Timer interval outcome) : Truthful Timer interval outcome := by
  obtain ⟨k, hk, hlt⟩ := h
  have hex : ∃ j, outcome j = 0 := ⟨k, hk⟩
  obtain ⟨n, hzero, hfirst, hle⟩ : ∃ n, outcome n = 0 ∧ (∀ j < n, outcome j ≠ 0) ∧ n ≤ k :=
    ⟨Nat.find hex, Nat.find_spec hex, fun j hj => Nat.find_min hex hj, Nat.find_min' hex hk⟩
  -- all counts up to the one at which the condition holds are below the timer
  have hbelow : ∀ j ≤ n, ((j * interval : Nat) : Int) < wrap 32 Timer := by
    intro j hj
    have := Nat.mul_le_mul_right interval (hj.trans hle)
    omega
  have hcount : ∀ j ≤ n, countAt interval j = (j * interval : Nat) := fun j hj => countAt_of_lt (hbelow j hj)
  have hwait : ∀ j < n, Waits Timer interval outcome j := fun j hj => ⟨(hcount j hj.le).symm ▸ hbelow j hj.le, hfirst j hj⟩
  have hend := (waitNow_iff _).mpr (.held n hwait ((hcount n le_rfl).symm ▸ hbelow n le_rfl) hzero rfl)
  refine ⟨_, hend, ⟨?_, ?_, ?_, ?_⟩, iff_of_true rfl ⟨n, by simp, hzero⟩⟩
  · exact (counts_multiples_iff (n + 1)).mpr fun j hj => hcount j (by omega)
  · intro i hi
    obtain ⟨j, hj, rfl⟩ := List.mem_map.mp hi
    rw [hcount j (Nat.lt_succ_iff.mp (List.mem_range.mp hj))]
    exact lt_of_lt_of_le (hbelow j (Nat.lt_succ_iff.mp (List.mem_range.mp hj))) (wrap_le_self (Int.natCast_nonneg Timer))
  · intro j hj
    rw [length_waiting] at hj
    exact hfirst j (by omega)
  · exact fun _ => ⟨n, by rw [length_waiting], hzero⟩

theorem truthful_of_inVain (hTimer : 1 ≤ Timer) (hinterval : 1 ≤ interval) (h : InVain Timer interval outcome) :
    Truthful Timer interval outcome := by
  obtain ⟨n, htimeout, hlast, hover⟩ := timeout_spec hTimer hinterval
  have hprev : timeout Timer interval - interval = n * interval := by rw [htimeout, Nat.succ_mul, Nat.add_sub_cancel]
  have hbelow : ∀ j ≤ n, ((j * interval : Nat) : Int) < wrap 32 Timer := by
    intro j hj
    have hle := Nat.mul_le_mul_right interval hj
    have := hprev ▸ h.last
    omega
  have hcount : ∀ j < n + 1, countAt interval j = (j * interval : Nat) := fun j hj => countAt_of_lt (hbelow j (by omega))
  have hreal : ∀ j < n + 1, j * interval < Timer := by
    intro j hj
    have hle := Nat.mul_le_mul_right interval (Nat.lt_succ_iff.mp hj)
    omega
  have hwait : ∀ j < n + 1, Waits Timer interval outcome j :=
    fun j hj => ⟨(hcount j hj).symm ▸ hbelow j (by omega), h.never j (hreal j hj)⟩
  have hend : wrap 32 Timer ≤ countAt interval (n + 1) := by
    rw [countAt, ← htimeout]
    exact h.past
  refine ⟨_, (waitNow_iff _).mpr (.inVain (n + 1) hwait hend rfl), ⟨?_, ?_, ?_, ?_⟩, iff_of_false ?_ ?_⟩
  · exact (counts_multiples_iff (n + 1)).mpr hcount
  · intro i hi
    obtain ⟨j, hj, rfl⟩ := List.mem_map.mp hi
    rw [hcount j (List.mem_range.mp hj)]
    exact_mod_cast hreal j (List.mem_range.mp hj)
  · intro j hj
    rw [length_waiting] at hj
    exact h.never j (hreal j (by omega))
  · intro hlt
    rw [length_waiting] at hlt
    omega
  · rw [countAt, ← htimeout, returned_wrap_iff]
    exact h.status
  · rintro ⟨k, hk, hzero⟩
    rw [length_waiting] at hk
    exact h.never k (hreal k hk) hzero

theorem holds_or_inVain (hTimer : 1 ≤ Timer) (hinterval : 1 ≤ interval) (h : Truthful Timer interval outcome) :
    Holds Timer interval outcome ∨ InVain Timer interval outcome := by
  obtain ⟨w, hw, he, hstatus⟩ := h
  cases (waitNow_iff w).mp hw with
  | held n hwait hlt h hw =>
    subst hw
    have hcount := (counts_multiples_iff (n + 1)).mp he.multiples n (by omega)
    exact .inl ⟨n, h, hcount ▸ hlt⟩
  | inVain m hwait hend hw =>
    subst hw
    simp only [length_waiting] at hstatus
    have hcount := (counts_multiples_iff m).mp he.multiples
    have hbelow : ∀ k < m, k * interval < Timer := by
      intro k hk
      have hmem : countAt interval k ∈ (waiting interval m).counts := List.mem_map.mpr ⟨k, List.mem_range.mpr hk, rfl⟩
      have := he.below _ hmem
      rw [hcount k hk] at this
      exact_mod_cast this
    have hover : Timer ≤ m * interval := by
      by_contra hlt
      obtain ⟨k, hk, hzero⟩ := he.complete (by rw [length_waiting]; omega)
      rw [length_waiting] at hk
      exact (hwait k (by omega)).2 hzero
    obtain ⟨n, htimeout, hn, hn'⟩ := timeout_spec hTimer hinterval
    obtain rfl := eq_of_multiples hbelow hover hn hn'
    refine .inr ⟨fun k hk hzero => ?_, ?_, ?_, ?_⟩
    · refine (hwait k ?_).2 hzero
      by_contra hle
      have := Nat.mul_le_mul_right interval (Nat.le_of_not_lt hle)
      omega
    · rw [htimeout, Nat.succ_mul, Nat.add_sub_cancel, ← hcount n (by omega)]
      exact (hwait n (by omega)).1
    · rw [htimeout]
      exact hend
    · rw [htimeout, ← returned_wrap_iff]
      exact fun h => absurd (hstatus.mp h) fun ⟨k, hk, hzero⟩ => (hwait k hk).2 hzero

/-- `wait_now` tells the truth if the condition holds in time, or if it waits in vain until a number that ends the loop and has a status of
its own. -/
theorem wait_now_truthful_iff (Timer interval : Nat) (outcome : Nat → Nat) (hTimer : 1 ≤ Timer) (hinterval : 1 ≤ interval) :
    Truthful Timer interval outcome ↔ Holds Timer interval outcome ∨ InVain Timer interval outcome :=
  ⟨holds_or_inVain hTimer hinterval, fun h => h.elim truthful_of_holds (truthful_of_inVain hTimer hinterval)⟩

/-- For numbers of 32 bits only the status can be wrong. -/
theorem truthful_iff_of_inRange (hTimer : 1 ≤ Timer) (hinterval : 1 ≤ interval) (hrange : timeout Timer interval < 2 ^ 31) :
    Truthful Timer interval outcome ↔ (∃ k, k * interval < Timer ∧ outcome k = 0) ∨ ¬256 ∣ timeout Timer interval := by
  obtain ⟨n, htimeout, hlast, hover⟩ := timeout_spec hTimer hinterval
  have hmax : maxSigned 32 = 2 ^ 31 - 1 := rfl
  have hT : wrap 32 (Timer : Int) = Timer := wrap_of_inRange (by decide) (inRange_of_nonneg (by omega) (by omega))
  have hend : wrap 32 (timeout Timer interval : Int) = timeout Timer interval :=
    wrap_of_inRange (by decide) (inRange_of_nonneg (by omega) (by omega))
  have hprev : timeout Timer interval - interval = n * interval := by rw [htimeout, Nat.succ_mul, Nat.add_sub_cancel]
  have hholds : Holds Timer interval outcome ↔ ∃ k, k * interval < Timer ∧ outcome k = 0 :=
    exists_congr fun k => by rw [hT, Nat.cast_lt, and_comm]
  constructor
  · rintro h
    rcases holds_or_inVain hTimer hinterval h with h | h
    · exact .inl (hholds.mp h)
    · exact .inr h.status
  · intro h
    by_cases hsome : ∃ k, k * interval < Timer ∧ outcome k = 0
    · exact truthful_of_holds (hholds.mpr hsome)
    · refine truthful_of_inVain hTimer hinterval ⟨fun k hk hzero => hsome ⟨k, hk, hzero⟩, ?_, ?_, h.resolve_left hsome⟩
      · rw [hT, hprev]
        exact_mod_cast hlast
      · rw [hT, hend, htimeout]
        exact_mod_cast hover

/-- A host that answers at the third attempt, and one that does not answer in ten minutes. -/
theorem wait_now_truthful_sample :
    Truthful 600 10 (fun k => if k < 2 then 1 else 0) ∧ Truthful 600 10 (fun _ => 1) :=
  ⟨(wait_now_truthful_iff 600 10 _ (by decide) (by decide)).2 (.inl ⟨2, rfl, by decide⟩),
    (wait_now_truthful_iff 600 10 _ (by decide) (by decide)).2 (.inr ⟨fun _ _ => by decide, by decide, by decide, by decide⟩)⟩

/-- A wait of 256 seconds for a condition that never holds. -/
theorem not_wait_now_truthful : ¬Truthful 256 1 (fun _ => 1) := by
  intro h
  rcases holds_or_inVain (by decide) (by decide) h with ⟨k, hk, -⟩ | h
  · cases hk
  · exact h.status (by decide)

end

end ZfsTest.Nfs
