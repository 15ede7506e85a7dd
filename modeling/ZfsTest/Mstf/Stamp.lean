import ZfsTest.Mstf.Syncserv
import ZfsTest.Tcl.Arith
import ZfsTest.Tcl.Split
import ZfsTest.Text.Separated

/-!
# The time stamps of the journal, `write_jnl` of `mstf_launch.exp`

The elapsed microseconds are divided by a million, and the milliseconds are taken from the printed digits behind the point: their leading
zeros are cut off, and what is left is divided by a thousand. But trailing zeros are not printed. So the milliseconds are only right when
all six digits are there or there is less than one millisecond, and a whole number of seconds leaves nothing to divide, which is an error
(`stamped_iff`).
-/

namespace ZfsTest.Mstf

open Tcl

/-- The digits of `r / 10 ^ k`, up to the last one that is not `0`. -/
def fractionFrom : Nat → Nat → Text
  | 0, _ => []
  | k + 1, r => if r = 0 then [] else Nat.digitChar (r / 10 ^ k) :: fractionFrom k (r % 10 ^ k)

/-- `n / 1000000.0`, as Tcl prints it: the shortest exact decimal with at least one digit behind the point. -/
def secondsText (n : Nat) : Text :=
  natText (n / 1000000) ++ '.' :: if n % 1000000 = 0 then ['0'] else fractionFrom 6 (n % 1000000)

/-- `string trimright $output "\n\r"`. -/
def trimright (output : Text) : Text := (output.reverse.dropWhile fun c => c = '\n' || c = '\r').reverse

/-- `format "%.2d:%.2d.%.3d"`. -/
def timeStr (minutes seconds millis : Int) : Text := precText 2 minutes ++ ':' :: precText 2 seconds ++ '.' :: precText 3 millis

/-- A line of the journal. -/
def jnlLine (role prog timeStr output : Text) : Text :=
  role ++ '.' :: prog ++ ' ' :: timeStr ++ ": ".toList ++ output ++ ['\n']

/-- `write_jnl`, with what it writes to the journal; `none` is an error. -/
def writeJnl (role prog output : Text) (elapsed : Nat) : Option Text := do
  let time := split '.' (secondsText elapsed)
  let minutes ← exprDiv (lindex time 0) 60
  let seconds ← exprMod (lindex time 0) 60
  let millis ← exprDiv ((lindex time 1).dropWhile (· = '0')) 1000
  return jnlLine role prog (timeStr minutes seconds millis) (trimright output)

/-- No error, and a line with the right time. -/
def Stamped (n : Nat) : Prop := ∀ role prog output, writeJnl role prog output n =
  some (jnlLine role prog (timeStr (n / 60000000 : Nat) (n / 1000000 % 60 : Nat) (n / 1000 % 1000 : Nat)) (trimright output))

/-! ## The digits behind the point -/

theorem mem_fractionFrom {k r : Nat} (h : r < 10 ^ k) {c : Char} (hc : c ∈ fractionFrom k r) : c.isDigit = true := by
  induction k generalizing r with
  | zero => cases hc
  | succ k ih =>
    unfold fractionFrom at hc
    split at hc
    · cases hc
    · rcases List.mem_cons.mp hc with rfl | hc
      · rw [Nat.isDigit_digitChar, decide_eq_true_eq, Nat.div_lt_iff_lt_mul (by positivity)]
        rwa [Nat.pow_succ, Nat.mul_comm] at h
      · exact ih (Nat.mod_lt r (by positivity)) hc

theorem length_fractionFrom_le (k r : Nat) : (fractionFrom k r).length ≤ k := by
  induction k generalizing r with
  | zero => exact Nat.le_refl 0
  | succ k ih =>
    unfold fractionFrom
    split
    · exact Nat.zero_le _
    · exact Nat.succ_le_succ (ih _)

/-- The digits stand for `r`, but for the zeros that are left out. -/
theorem fractionFrom_value {k r : Nat} (h : r < 10 ^ k) :
    digitsNumber (fractionFrom k r) * 10 ^ (k - (fractionFrom k r).length) = r := by
  induction k generalizing r with
  | zero =>
    have hr : r = 0 := by omega
    subst hr
    rfl
  | succ k ih =>
    unfold fractionFrom
    split
    · rename_i hr
      rw [hr]
      exact Nat.zero_mul _
    · have hdigit : r / 10 ^ k < 10 := by
        rw [Nat.div_lt_iff_lt_mul (by positivity)]
        rwa [Nat.pow_succ, Nat.mul_comm] at h
      have hrest := ih (Nat.mod_lt r (show 0 < 10 ^ k by positivity))
      have hlen := length_fractionFrom_le k (r % 10 ^ k)
      generalize fractionFrom k (r % 10 ^ k) = ds at hrest hlen
      have hpow : 10 ^ ds.length * 10 ^ (k - ds.length) = 10 ^ k := by
        rw [← Nat.pow_add, Nat.add_sub_cancel' hlen]
      have h48 : '0'.toNat = 48 := rfl
      rw [digitsNumber_cons, h48, Nat.toNat_digitChar_sub_48_of_lt_ten hdigit, List.length_cons, Nat.succ_sub_succ]
      calc (10 ^ ds.length * (r / 10 ^ k) + digitsNumber ds) * 10 ^ (k - ds.length)
          = 10 ^ ds.length * 10 ^ (k - ds.length) * (r / 10 ^ k) + digitsNumber ds * 10 ^ (k - ds.length) := by ring
        _ = 10 ^ k * (r / 10 ^ k) + r % 10 ^ k := by rw [hpow, hrest]
        _ = r := Nat.div_add_mod r (10 ^ k)

/-- A last digit `0` is left out. -/
theorem length_fractionFrom_lt {k r : Nat} (h : r < 10 ^ k) (hk : 0 < k) (h10 : r % 10 = 0) : (fractionFrom k r).length < k := by
  induction k generalizing r with
  | zero => cases hk
  | succ k ih =>
    unfold fractionFrom
    split
    · exact hk
    · rename_i hr
      rcases Nat.eq_zero_or_pos k with rfl | hk
      · omega
      · refine Nat.succ_lt_succ (ih (Nat.mod_lt r (by positivity)) hk ?_)
        have hdvd : 10 ∣ 10 ^ k := dvd_pow_self 10 (by omega)
        rw [Nat.mod_mod_of_dvd r hdvd, h10]

/-- What the division by a thousand gives. -/
def millisOf (r : Nat) : Nat := digitsNumber (fractionFrom 6 r) / 1000

theorem millisOf_iff {r : Nat} (h : r < 1000000) : millisOf r = r / 1000 ↔ r < 1000 ∨ r % 10 ≠ 0 := by
  have hvalue := fractionFrom_value (k := 6) h
  have hlen := length_fractionFrom_le 6 r
  have hlt := length_fractionFrom_lt (k := 6) h (by decide)
  unfold millisOf
  generalize fractionFrom 6 r = ds at hvalue hlen hlt
  rcases Nat.lt_or_eq_of_le hlen with hless | hfull
  · -- some zeros are left out
    obtain ⟨j, hj⟩ : ∃ j, 6 - ds.length = j + 1 := ⟨5 - ds.length, by omega⟩
    rw [hj, Nat.pow_succ] at hvalue
    have hpos : 0 < 10 ^ j := by positivity
    have hle : digitsNumber ds * 10 ≤ r := by
      calc digitsNumber ds * 10 = digitsNumber ds * (1 * 10) := by rw [Nat.one_mul]
        _ ≤ digitsNumber ds * (10 ^ j * 10) := Nat.mul_le_mul_left _ (Nat.mul_le_mul_right _ hpos)
        _ = r := hvalue
    have hten : r % 10 = 0 := by
      rw [← hvalue, ← Nat.mul_assoc]
      exact Nat.mul_mod_left _ 10
    omega
  · have hr : digitsNumber ds = r := by
      rw [hfull] at hvalue
      omega
    rw [hr]
    omega

/-! ## The line -/

theorem dot_notMem_fraction {r : Nat} (h : r < 10 ^ 6) : '.' ∉ if r = 0 then ['0'] else fractionFrom 6 r := by
  intro hdot
  split at hdot
  · exact absurd hdot (by decide)
  · exact absurd (mem_fractionFrom h hdot) (by decide)

theorem split_secondsText (n : Nat) : split '.' (secondsText n) =
    [natText (n / 1000000), if n % 1000000 = 0 then ['0'] else fractionFrom 6 (n % 1000000)] :=
  split_cons (notMem_natText rfl _) (dot_notMem_fraction (Nat.mod_lt n (by decide)))

/-- The milliseconds; a whole number of seconds is an error. -/
theorem exprDiv_fraction {r : Nat} (h : r < 10 ^ 6) :
    exprDiv ((if r = 0 then ['0'] else fractionFrom 6 r).dropWhile (· = '0')) 1000 = if r = 0 then none else some (millisOf r : Int) := by
  split
  · rfl
  · rename_i hr
    have hvalue := fractionFrom_value h
    have hdigit : ∀ c ∈ fractionFrom 6 r, c.isDigit = true := fun _ hc => mem_fractionFrom h hc
    have hlt : digitsNumber (fractionFrom 6 r) < 10 ^ 6 :=
      (digitsNumber_lt hdigit).trans_le (Nat.pow_le_pow_right (by decide) (length_fractionFrom_le 6 r))
    have hsame := digitsNumber_dropWhile (fractionFrom 6 r)
    rw [exprDiv, intValue_digits, hsame, if_pos (by omega), wrap_of_inRange (by decide)]
    · rfl
    · exact inRange_of_nonneg (by omega) (by unfold maxSigned; omega)
    · intro hnil
      rw [hnil] at hsame
      rw [← hsame] at hvalue
      exact hr (hvalue.symm.trans (Nat.zero_mul _))
    · exact fun c hc => hdigit c (List.dropWhile_subset _ hc)
    · intro c u hcu
      have hhead := List.head?_dropWhile_not (fun d : Char => decide (d = '0')) (fractionFrom 6 r)
      rw [hcu] at hhead
      cases hhead

/-- `write_jnl`, with what the expressions make of the seconds and of what is left. -/
theorem writeJnl_eq (role prog output : Text) (n : Nat) : writeJnl role prog output n =
    if n / 1000000 < 2 ^ 64 ∧ n % 1000000 ≠ 0 then
      some (jnlLine role prog (timeStr (wrap 64 (n / 1000000 : Nat) / 60) (wrap 64 (n / 1000000 : Nat) % 60) (millisOf (n % 1000000)))
        (trimright output))
    else none := by
  have hmillis := exprDiv_fraction (r := n % 1000000) (Nat.mod_lt n (by decide))
  have hwhole : ∀ f : Int → Int, (intValue (natText (n / 1000000))).map f =
      if n / 1000000 < 2 ^ 64 then some (f (wrap 64 (n / 1000000 : Nat))) else none := by
    intro f
    rw [intValue_natText]
    split <;> rfl
  have hminutes := hwhole fun i => i / (60 : Nat)
  have hseconds := hwhole fun i => i % (60 : Nat)
  rw [← exprDiv] at hminutes
  rw [← exprMod] at hseconds
  simp only [writeJnl, split_secondsText, lindex, List.getD_cons_zero, List.getD_cons_succ, hmillis, hminutes, hseconds]
  by_cases hbig : n / 1000000 < 2 ^ 64
  · by_cases hfrac : n % 1000000 = 0
    · have hbad : ¬(n / 1000000 < 2 ^ 64 ∧ n % 1000000 ≠ 0) := fun h => h.2 hfrac
      simp only [if_pos hbig, if_pos hfrac, if_neg hbad]
      rfl
    · have hgood : n / 1000000 < 2 ^ 64 ∧ n % 1000000 ≠ 0 := ⟨hbig, hfrac⟩
      simp only [if_pos hbig, if_neg hfrac, if_pos hgood]
      rfl
  · have hbad : ¬(n / 1000000 < 2 ^ 64 ∧ n % 1000000 ≠ 0) := fun h => hbig h.1
    simp only [if_neg hbig, if_neg hbad]
    rfl

theorem timeStr_injective {m s f m' s' f' : Int} (h : timeStr m s f = timeStr m' s' f') : m = m' ∧ f = f' := by
  have hcolon : ∀ i, ':' ∉ precText 2 i := notMem_precText (by decide) rfl 2
  have hdot : ∀ i, '.' ∉ precText 2 i := notMem_precText (by decide) rfl 2
  have hm : precText 2 m = precText 2 m' := by
    have htake := congrArg (List.takeWhile (· ≠ ':')) h
    rwa [timeStr, timeStr, List.append_assoc, List.append_assoc, List.cons_append, List.cons_append,
      takeWhile_separator (hcolon m), takeWhile_separator (hcolon m')] at htake
  have hrest : precText 2 s ++ '.' :: precText 3 f = precText 2 s' ++ '.' :: precText 3 f' := by
    rw [timeStr, timeStr, hm, List.append_assoc, List.append_assoc] at h
    exact List.tail_eq_of_cons_eq (List.append_cancel_left h)
  have hf : '.' :: precText 3 f = '.' :: precText 3 f' := by
    have hdrop := congrArg (List.dropWhile (· ≠ '.')) hrest
    rwa [dropWhile_separator (hdot s), dropWhile_separator (hdot s')] at hdrop
  exact ⟨precText_injective hm, precText_injective (List.tail_eq_of_cons_eq hf)⟩

theorem jnlLine_injective {role prog ts ts' output : Text} (h : jnlLine role prog ts output = jnlLine role prog ts' output) :
    ts = ts' := by
  simp only [jnlLine, List.append_assoc, List.cons_append, List.append_cancel_left_eq, List.cons.injEq, true_and] at h
  simpa [← List.append_assoc] using h

/-! ## Right time stamps -/

theorem stamped_of {n : Nat} (hwhole : n / 1000000 < 2 ^ 63) (hfrac : n % 1000000 ≠ 0)
    (hms : n % 1000000 < 1000 ∨ n % 10 ≠ 0) : Stamped n := by
  intro role prog output
  have hten : n % 1000000 % 10 = n % 10 := by omega
  have hmillis : millisOf (n % 1000000) = n % 1000000 / 1000 :=
    (millisOf_iff (Nat.mod_lt n (by decide))).mpr (hms.imp id fun h => hten ▸ h)
  have hwrap : wrap 64 (n / 1000000 : Nat) = (n / 1000000 : Nat) :=
    wrap_of_inRange (by decide) (inRange_of_nonneg (by omega) (by unfold maxSigned; omega))
  have hmin : ((n / 1000000 : Nat) : Int) / 60 = (n / 60000000 : Nat) := by omega
  have hsec : ((n / 1000000 : Nat) : Int) % 60 = (n / 1000000 % 60 : Nat) := by omega
  have hthousand : n % 1000000 / 1000 = n / 1000 % 1000 := by omega
  rw [writeJnl_eq, if_pos ⟨by omega, hfrac⟩, hwrap, hmin, hsec, hmillis, hthousand]

theorem of_stamped {n : Nat} (h : Stamped n) :
    n / 1000000 < 2 ^ 63 ∧ n % 1000000 ≠ 0 ∧ (n % 1000000 < 1000 ∨ n % 10 ≠ 0) := by
  have hline := h [] [] []
  rw [writeJnl_eq] at hline
  split at hline
  · rename_i hrun
    obtain ⟨hmin, hms⟩ := timeStr_injective (jnlLine_injective (Option.some.inj hline))
    refine ⟨?_, hrun.2, ?_⟩
    · -- from `2 ^ 63` on the number of seconds is read as a negative one
      by_contra hbig
      have hlt : n / 1000000 < 18446744073709551616 := hrun.1
      have hneg : wrap 64 (n / 1000000 : Nat) = (n / 1000000 : Nat) - 18446744073709551616 := by
        unfold wrap
        rw [Int.bmod_def]
        omega
      rw [hneg] at hmin
      omega
    · have hthousand : n % 1000000 / 1000 = n / 1000 % 1000 := by omega
      have hten : n % 1000000 % 10 = n % 10 := by omega
      have hmillis : millisOf (n % 1000000) = n % 1000000 / 1000 := by omega
      rw [← hten]
      exact (millisOf_iff (Nat.mod_lt n (by decide))).mp hmillis
  · cases hline

/-- The time stamp is right when it has microseconds in it or less than one millisecond behind the seconds. -/
theorem stamped_iff (n : Nat) : Stamped n ↔ n / 1000000 < 2 ^ 63 ∧ n % 1000000 ≠ 0 ∧ (n % 1000000 < 1000 ∨ n % 10 ≠ 0) :=
  ⟨of_stamped, fun ⟨hwhole, hfrac, hms⟩ => stamped_of hwhole hfrac hms⟩

/-- Half a second is printed as no millisecond at all. -/
theorem not_stamped : ¬Stamped 1500000 := by
  intro h
  have hms := (of_stamped h).2.2
  omega

end ZfsTest.Mstf
