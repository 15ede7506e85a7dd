import ZfsTest.Stf.Entries
import Mathlib.Tactic.IntervalCases

/-!
# The result of a test case

`stf_timeout` gives the wait status of the test case, with the exit byte of a time-out masked in (`childStatus`), to
`stf_jnl_testcase_end` and returns its exit byte. The journal entry, the line on `stdout` and the exit status give the same
result except for a child that was killed by a signal without a time-out: the journal says `NORESULT`, the others say `PASS`
(`oneResult_iff`).
-/

namespace ZfsTest.Stf

def TIMED_OUT_INDEX : Nat := 9

/-- The status after "fake a time_out status for time out". -/
def childStatus (timedOut : Int) (status : BitVec 32) : BitVec 32 :=
  if timedOut = 1 then (status &&& 0xffff00ff#32) ||| (BitVec.ofNat 32 TIMED_OUT_INDEX <<< 8) else status

/-- What `main` of `stf_timeout` returns. -/
def stfTimeoutExit (timedOut : Int) (status : BitVec 32) : Nat := WEXITSTATUS (childStatus timedOut status)

/-- The journal entry, the line on `stdout` and the exit status name one result, which is not `PASS` for a child killed by a
signal. -/
def OneResult (timedOut : Int) (status : BitVec 32) : Prop :=
  let journal := (resultField (childStatus timedOut status)).name
  let stdout := printedResult (childStatus timedOut status)
  let exit := getStatusName (stfTimeoutExit timedOut status)
  journal = stdout ∧ stdout = exit ∧
    (WIFSIGNALED status = true → journal ≠ "PASS".toList ∧ stdout ≠ "PASS".toList ∧ exit ≠ "PASS".toList)

/-! ## The bytes of a status -/

theorem exitByte_masked (status : BitVec 32) :
    ((((status &&& 0xffff00ff#32) ||| (9#32 <<< 8)) >>> 8) &&& 0xFF#32) = 9#32 := by
  ext i hi
  simp only [BitVec.getElem_and, BitVec.getElem_ushiftRight, BitVec.getLsbD_or, BitVec.getLsbD_and]
  interval_cases i <;> simp

theorem highByte_masked (status : BitVec 32) :
    (((status &&& 0xffff00ff#32) ||| (9#32 <<< 8)) &&& 0xFF00#32) = 0x900#32 := by
  ext i hi
  simp only [BitVec.getElem_and, BitVec.getElem_or]
  interval_cases i <;> simp

theorem exitByte_eq (status : BitVec 32) : (status >>> 8) &&& 0xFF#32 = (status &&& 0xFF00#32) >>> 8 := by
  ext i hi
  simp only [BitVec.getElem_and, BitVec.getElem_ushiftRight, BitVec.getLsbD_and]
  interval_cases i <;> simp

/-- A status with a masked-in time-out has the exit status of a time-out and no signal. -/
theorem childStatus_timedOut (status : BitVec 32) :
    WEXITSTATUS (childStatus 1 status) = STF_TIMED_OUT ∧ WIFSIGNALED (childStatus 1 status) = false := by
  have hc : childStatus 1 status = (status &&& 0xffff00ff#32) ||| (9#32 <<< 8) := if_pos rfl
  constructor
  · rw [hc, WEXITSTATUS, exitByte_masked]
    rfl
  · rw [hc, WIFSIGNALED, highByte_masked]
    simp

theorem childStatus_other {timedOut : Int} (ht : timedOut ≠ 1) (status : BitVec 32) : childStatus timedOut status = status :=
  if_neg ht

/-- The exit byte of a child killed by a signal is zero. -/
theorem WEXITSTATUS_signaled {status : BitVec 32} (hs : WIFSIGNALED status = true) : WEXITSTATUS status = 0 := by
  have hz : status &&& 0xFF00#32 = 0#32 := by
    rw [WIFSIGNALED, decide_eq_true_eq] at hs
    exact hs.2
  rw [WEXITSTATUS, exitByte_eq, hz]
  rfl

/-! ## The three results -/

/-- Without a signal the journal gives the name of the exit status. -/
theorem resultField_name {status : BitVec 32} (hs : WIFSIGNALED status = false) :
    (resultField status).name = printedResult status := by
  unfold resultField
  simp only [hs, ↓reduceIte]
  split
  · rfl
  · rfl

/-- A child killed by a signal has no result in the journal, and `PASS` on `stdout`. -/
theorem resultField_signaled {status : BitVec 32} (hs : WIFSIGNALED status = true) :
    (resultField status).name = "NORESULT".toList ∧ printedResult status = "PASS".toList := by
  have h0 := WEXITSTATUS_signaled hs
  constructor
  · unfold resultField
    rw [hs, h0]
    rfl
  · unfold printedResult
    rw [h0]
    rfl

/-- The three results of a test case are the same, and not `PASS` for a child killed by a signal, if and only if it timed out
or was not killed by a signal. -/
theorem oneResult_iff (timedOut : Int) (status : BitVec 32) :
    OneResult timedOut status ↔ timedOut = 1 ∨ WIFSIGNALED status = false := by
  by_cases ht : timedOut = 1
  · subst ht
    obtain ⟨hexit, hsig⟩ := childStatus_timedOut status
    have hname := resultField_name hsig
    have hout : printedResult (childStatus 1 status) = "TIMED_OUT".toList := by
      rw [printedResult, hexit]
      rfl
    have hex : getStatusName (stfTimeoutExit 1 status) = "TIMED_OUT".toList := by
      rw [stfTimeoutExit, hexit]
      rfl
    refine iff_of_true ⟨hname, hout.trans hex.symm, fun _ => ?_⟩ (Or.inl rfl)
    rw [hname, hout, hex]
    decide
  · rw [OneResult, stfTimeoutExit, childStatus_other ht]
    cases hs : WIFSIGNALED status with
    | false => exact iff_of_true ⟨resultField_name hs, rfl, fun h => nomatch h⟩ (Or.inr rfl)
    | true =>
      obtain ⟨hj, hout⟩ := resultField_signaled hs
      refine iff_of_false (fun h => ?_) (by simp [ht])
      have h1 : (resultField status).name = printedResult status := h.1
      rw [hj, hout] at h1
      exact absurd h1 (by decide)

/-- A child killed by signal 9: the journal says `NORESULT`, `stdout` and the exit status say `PASS`. -/
theorem not_oneResult : ¬∀ (timedOut : Int) (status : BitVec 32), OneResult timedOut status := by
  intro H
  have h := (H 0 9#32).1
  revert h
  decide

end ZfsTest.Stf
