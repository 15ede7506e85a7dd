import ZfsTest.Stf.Journal
import ZfsTest.Text.Strtol

/-!
# The time limit of `stf_timeout`

`parse_timeout` reads the limit by a chain of steps around `parse_value`; each step that finds its unit adds its number and reads the
next one. What is wrong with a limit is printed, and `main` goes on in any case. A limit in the documented form is read to the
end (`parseTimeout_limit`), with every sum and product wrapped to `time_t`, so that the duration is exact where it fits; where it does
not, nothing is printed but for a number above `LONG_MAX` with 32 bits or a duration that wraps to `0` (`accepts_iff`).
-/

namespace ZfsTest.Stf

/-- The sizes of `long` and `time_t`. -/
inductive DataModel
  | ilp32
  | lp64
  deriving DecidableEq, Repr

def DataModel.bits : DataModel → Nat
  | .ilp32 => 32
  | .lp64 => 64

def INT_MAX : Int := maxSigned 32
def INT_MIN : Int := minSigned 32
def NANOSEC : Int := 1000000000

/-- `enum units`; an uninitialised variable may also hold another value. -/
inductive Units
  | hours
  | minutes
  | seconds
  | none
  | other
  deriving DecidableEq, Repr

/-- What is printed on `stderr`. -/
inductive LimitMessage
  | exceeds (limit : Text)
  | unrecognized (limit : Text) (c : Char)
  | zero (limit : Text)
  | bad (limit : Text)
  deriving DecidableEq, Repr

def LimitMessage.text : LimitMessage → Text
  | .exceeds limit => "limit <".toList ++ limit ++ "> exceeds maximum allowed value ".toList ++ intText INT_MAX ++ "\n".toList
  | .unrecognized limit c => "bad limit value <".toList ++ limit ++ ">, unrecognized character ".toList ++ [c] ++ "\n".toList
  | .zero limit => "duration <".toList ++ limit ++ "> is 0\n".toList
  | .bad limit => "time limit <".toList ++ limit ++ "> is bad\n".toList

/-- The variables of `parse_timeout`, and what has been printed. -/
structure Parsing where
  duration : Int
  value : Int
  valueString : Text
  valueUnits : Units
  messages : List LimitMessage
  deriving DecidableEq, Repr

/-- The check of `parse_value` after `strtol`. -/
def rangeMessages (s : Text) (r : Strtol) : List LimitMessage :=
  if (r.value = INT_MAX ∨ r.value = INT_MIN) ∧ r.erange = true then [.exceeds s] else []

/-- `parse_value`: a character that is no unit leaves `value_units` as it was. -/
def parseValue (w : Nat) (p : Parsing) : Parsing :=
  let r := strtol w p.valueString
  let p' := { p with value := r.value, messages := p.messages ++ rangeMessages p.valueString r }
  match r.rest with
  | [] => { p' with valueString := r.rest, valueUnits := .none }
  | 'h' :: rest => { p' with valueString := rest, valueUnits := .hours }
  | 'm' :: rest => { p' with valueString := rest, valueUnits := .minutes }
  | 's' :: rest => { p' with valueString := rest, valueUnits := .seconds }
  | c :: _ => { p' with valueString := r.rest, messages := p'.messages ++ [.unrecognized p.valueString c] }

def hoursStep (w : Nat) (p : Parsing) : Parsing :=
  if p.valueUnits = .hours then parseValue w { p with duration := wrap w (3600 * p.value) } else p

def minutesStep (w : Nat) (p : Parsing) : Parsing :=
  if p.valueUnits = .minutes then parseValue w { p with duration := wrap w (p.duration + wrap w (60 * p.value)) } else p

def secondsStep (w : Nat) (p : Parsing) : Parsing :=
  if p.valueUnits = .seconds then parseValue w { p with duration := wrap w (p.duration + p.value) } else p

/-- The end of `parse_timeout`. -/
def lastStep (w : Nat) (limit : Text) (p : Parsing) : Parsing :=
  if p.valueUnits = .none then
    let duration := wrap w (p.duration + p.value)
    { p with duration := duration, messages := p.messages ++ if duration = 0 then [.zero limit] else [] }
  else { p with messages := p.messages ++ [.bad limit] }

/-- `parse_timeout`, with what the uninitialised `value_units` holds. -/
def parseTimeout (w : Nat) (leftover : Units) (limit : Text) : Parsing :=
  let p := { parseValue w ⟨-1, 0, limit, leftover, []⟩ with duration := 0 }
  lastStep w limit (secondsStep w (minutesStep w (hoursStep w p)))

/-- `gethrtime() + (duration * (hrtime_t)NANOSEC)`. -/
def endTime (start duration : Int) : Int := wrap 64 (start + wrap 64 (duration * NANOSEC))

/-- How `main` goes on behind the limit. -/
inductive MainStep
  | usage
  | fork (endTime : Int) (prgargs : List Text)
  deriving DecidableEq, Repr

/-- `main` from the limit on, with the arguments from `argv[optind]` on. A limit that is not there is a null pointer. -/
def timeoutMain (m : DataModel) (leftover : Units) (start : Int) : List Text → Except Stop MainStep
  | [] => .error .undefined
  | [_] => .ok .usage
  | limit :: prgargs => .ok (.fork (endTime start (parseTimeout m.bits leftover limit).duration) prgargs)

/-! ## Limits in the documented form -/

/-- `[<H>h][<M>m][<S>[s]]`, with at least one part. -/
structure Limit where
  hours : Option Numeral
  minutes : Option Numeral
  seconds : Option (Numeral × Bool)
  some_part : hours.isSome ∨ minutes.isSome ∨ seconds.isSome

def secondsText (seconds : Option (Numeral × Bool)) : Text :=
  seconds.elim [] fun s => s.1.digits ++ if s.2 then ['s'] else []

def minutesText (minutes : Option Numeral) (seconds : Option (Numeral × Bool)) : Text :=
  minutes.elim [] (fun d => d.digits ++ ['m']) ++ secondsText seconds

def Limit.text (l : Limit) : Text := l.hours.elim [] (fun d => d.digits ++ ['h']) ++ minutesText l.minutes l.seconds

/-- The numbers of a limit; a part that is not there counts as `0`. -/
def Limit.h (l : Limit) : Nat := l.hours.elim 0 Numeral.value
def Limit.m (l : Limit) : Nat := l.minutes.elim 0 Numeral.value
def Limit.s (l : Limit) : Nat := l.seconds.elim 0 fun s => s.1.value

/-- The documented duration. -/
def Limit.total (l : Limit) : Nat := 3600 * l.h + 60 * l.m + l.s

/-- What `parse_timeout` is to do with a text. -/
def Accepts (m : DataModel) (leftover : Units) (limit : Text) : Prop :=
  (∀ l : Limit, l.text = limit →
    if (l.total : Int) ≤ maxSigned m.bits then (parseTimeout m.bits leftover limit).duration = l.total
    else (parseTimeout m.bits leftover limit).messages ≠ []) ∧
  ((¬∃ l : Limit, l.text = limit) → ∀ start c args e, timeoutMain m leftover start (limit :: c :: args) ≠ .ok (.fork e (c :: args)))

variable {w : Nat} {p x : Parsing}

/-! ## One value -/

/-- A number above `LONG_MAX` is noticed where `LONG_MAX` is `INT_MAX`. -/
def Noticed (w n : Nat) : Prop := maxSigned w < n ∧ maxSigned w = INT_MAX

theorem not_noticed_zero (w : Nat) : ¬Noticed w 0 := by
  intro h
  exact absurd h.1 (Int.not_lt.mpr (maxSigned_nonneg w))

/-- The text of a unit. -/
def Units.tail : Units → Text
  | .hours => ['h']
  | .minutes => ['m']
  | .seconds => ['s']
  | .none => []
  | .other => []

theorem rangeMessages_eq_nil_iff {s t : Text} {n : Nat} :
    rangeMessages s ⟨clamp w n, t, decide (maxSigned w < n)⟩ = [] ↔ ¬Noticed w n := by
  have hmin : maxSigned w ≠ INT_MIN := by
    have h := maxSigned_nonneg w
    have hneg : INT_MIN < 0 := by decide
    omega
  unfold rangeMessages Noticed
  by_cases h : maxSigned w < n
  · rw [clamp_of_lt h]
    by_cases hmax : maxSigned w = INT_MAX
    · rw [if_pos ⟨Or.inl hmax, decide_eq_true h⟩]
      exact iff_of_false (List.cons_ne_nil _ _) fun hn => hn ⟨h, hmax⟩
    · rw [if_neg fun hx => hx.1.elim hmax hmin]
      exact iff_of_true rfl fun hn => hmax hn.2
  · rw [if_neg fun hx => h (of_decide_eq_true hx.2)]
    exact iff_of_true rfl fun hn => h hn.1

/-- The state behind one `parse_value` in a limit: the number and the unit that have been read, what has been added so far, and
whether nothing has been printed. -/
structure Read (w : Nat) (p : Parsing) (n : Nat) (u : Units) (rest : Text) (sum : Int) (quiet : Prop) : Prop where
  value : p.value = clamp w n
  units : p.valueUnits = u
  text : p.valueString = rest
  duration : p.duration = wrap w sum
  quiet : p.messages = [] ↔ quiet

/-- The state before a `parse_value`. -/
structure Before (w : Nat) (x : Parsing) (text : Text) (sum : Int) (quiet : Prop) : Prop where
  text : x.valueString = text
  duration : x.duration = wrap w sum
  quiet : x.messages = [] ↔ quiet

variable {sum : Int} {quiet : Prop} {rest : Text}

/-- A number with its unit. -/
theorem parseValue_unit (d : Numeral) {u : Units} (hu : u = .hours ∨ u = .minutes ∨ u = .seconds)
    (hx : Before w x (d.digits ++ (u.tail ++ rest)) sum quiet) :
    Read w (parseValue w x) d.value u rest sum (quiet ∧ ¬Noticed w d.value) := by
  have hstop : NoDigit (u.tail ++ rest) := by
    rcases hu with rfl | rfl | rfl <;> exact noDigit_cons (by decide)
  unfold parseValue
  rw [hx.text, strtol_numeral d hstop]
  rcases hu with rfl | rfl | rfl <;>
    exact ⟨rfl, rfl, rfl, hx.duration, by rw [← hx.quiet, ← rangeMessages_eq_nil_iff, ← List.append_eq_nil_iff]; rfl⟩

/-- A number at the end. -/
theorem parseValue_end (d : Numeral) (hx : Before w x d.digits sum quiet) :
    Read w (parseValue w x) d.value .none [] sum (quiet ∧ ¬Noticed w d.value) := by
  have hr : strtol w d.digits = _ := List.append_nil d.digits ▸ strtol_numeral d noDigit_nil
  unfold parseValue
  rw [hx.text, hr]
  exact ⟨rfl, rfl, rfl, hx.duration, by rw [← hx.quiet, ← rangeMessages_eq_nil_iff, ← List.append_eq_nil_iff]⟩

/-- Nothing is left: `0` without a unit. -/
theorem parseValue_nil (hx : Before w x [] sum quiet) : Read w (parseValue w x) 0 .none [] sum quiet := by
  unfold parseValue
  rw [hx.text, strtol_nil]
  refine ⟨?_, rfl, rfl, hx.duration, ?_⟩
  · exact (clamp_of_le (maxSigned_nonneg w)).symm
  · simpa [rangeMessages] using hx.quiet

/-! ## The steps -/

variable {minutes : Option Numeral} {seconds : Option (Numeral × Bool)}

/-- The last number of a limit. -/
theorem read_secondsText (hx : Before w x (secondsText seconds) sum quiet) :
    ∃ u, (u = .seconds ∨ u = .none) ∧ Read w (parseValue w x) (seconds.elim 0 fun s => s.1.value) u [] sum
      (quiet ∧ ¬Noticed w (seconds.elim 0 fun s => s.1.value)) := by
  rcases seconds with _ | ⟨d, _ | _⟩
  · have h := parseValue_nil hx
    exact ⟨.none, Or.inr rfl, h.value, h.units, h.text, h.duration, h.quiet.trans (by simp [not_noticed_zero])⟩
  · exact ⟨.none, Or.inr rfl, parseValue_end d (by simpa [secondsText] using hx)⟩
  · exact ⟨.seconds, Or.inl rfl, parseValue_unit d (Or.inr (Or.inr rfl)) (by simpa [secondsText, Units.tail] using hx)⟩

/-- What the check at the end adds. -/
theorem lastStep_read (limit : Text) {n : Nat} (h : Read w p n .none rest sum quiet) :
    (lastStep w limit p).duration = wrap w (sum + clamp w n) ∧
      ((lastStep w limit p).messages = [] ↔ quiet ∧ wrap w (sum + clamp w n) ≠ 0) := by
  have hsum : wrap w (p.duration + p.value) = wrap w (sum + clamp w n) := by rw [h.duration, h.value, wrap_wrap_add]
  unfold lastStep
  rw [if_pos h.units, ← hsum]
  refine ⟨rfl, ?_⟩
  simp only [List.append_eq_nil_iff, h.quiet, ite_eq_right_iff, List.cons_ne_nil, imp_false, ne_eq]

/-- The seconds, with or without their unit. -/
theorem lastStep_seconds {limit : Text} (hx : Before w x (secondsText seconds) sum quiet) :
    (lastStep w limit (secondsStep w (parseValue w x))).duration =
        wrap w (sum + clamp w (seconds.elim 0 fun s => s.1.value)) ∧
      ((lastStep w limit (secondsStep w (parseValue w x))).messages = [] ↔
        (quiet ∧ ¬Noticed w (seconds.elim 0 fun s => s.1.value)) ∧
          wrap w (sum + clamp w (seconds.elim 0 fun s => s.1.value)) ≠ 0) := by
  obtain ⟨u, rfl | rfl, h⟩ := read_secondsText hx
  · -- behind the unit nothing is left
    have hy : Before w { parseValue w x with duration := wrap w ((parseValue w x).duration + (parseValue w x).value) } []
        (sum + clamp w (seconds.elim 0 fun s => s.1.value)) (quiet ∧ ¬Noticed w (seconds.elim 0 fun s => s.1.value)) := by
      refine ⟨h.text, ?_, h.quiet⟩
      rw [h.duration, h.value, wrap_wrap_add]
    have hlast := lastStep_read limit (parseValue_nil hy)
    rw [clamp_zero, Int.add_zero] at hlast
    rw [show secondsStep w (parseValue w x) = _ from if_pos h.units]
    exact hlast
  · have hskip : secondsStep w (parseValue w x) = parseValue w x := by
      unfold secondsStep
      rw [h.units, if_neg (by decide)]
    rw [hskip]
    exact lastStep_read limit h

/-- The minutes, or nothing. -/
theorem minutesStep_read (hx : Before w x (minutesText minutes seconds) sum quiet) :
    ∃ y, minutesStep w (parseValue w x) = parseValue w y ∧
      Before w y (secondsText seconds) (sum + 60 * clamp w (minutes.elim 0 Numeral.value))
        (quiet ∧ ¬Noticed w (minutes.elim 0 Numeral.value)) := by
  cases minutes with
  | none =>
    obtain ⟨u, hu, h⟩ := read_secondsText (x := x) hx
    refine ⟨x, ?_, hx.text, ?_, ?_⟩
    · unfold minutesStep
      rw [if_neg]
      rcases hu with rfl | rfl <;> rw [h.units] <;> decide
    · rw [hx.duration, Option.elim_none, clamp_zero, Int.mul_zero, Int.add_zero]
    · rw [hx.quiet, Option.elim_none]
      exact (and_iff_left (not_noticed_zero w)).symm
  | some d =>
    have h := parseValue_unit d (u := .minutes) (Or.inr (Or.inl rfl)) (by simpa [minutesText, Units.tail] using hx)
    refine ⟨_, if_pos h.units, h.text, ?_, h.quiet⟩
    rw [h.duration, h.value, wrap_wrap_add, wrap_add_wrap]
    rfl

/-- What is read behind the hours is no number of hours. -/
theorem units_minutesText (hx : Before w x (minutesText minutes seconds) sum quiet) : (parseValue w x).valueUnits ≠ .hours := by
  cases minutes with
  | none =>
    obtain ⟨u, rfl | rfl, h⟩ := read_secondsText (x := x) hx <;> rw [h.units] <;> decide
  | some d =>
    have h := parseValue_unit d (u := .minutes) (Or.inr (Or.inl rfl)) (by simpa [minutesText, Units.tail] using hx)
    rw [h.units]
    decide

/-- The hours, or nothing. -/
theorem hoursStep_read {l : Limit} (hx : Before w x l.text 0 quiet) :
    ∃ y, hoursStep w (parseValue w x) = parseValue w y ∧
      Before w y (minutesText l.minutes l.seconds) (3600 * clamp w l.h) (quiet ∧ ¬Noticed w l.h) := by
  obtain ⟨hours, minutes, seconds, hsome⟩ := l
  cases hours with
  | none =>
    have hx' : Before w x (minutesText minutes seconds) 0 quiet := hx
    refine ⟨x, if_neg (units_minutesText hx'), hx.text, ?_, ?_⟩
    · rw [hx.duration]
      simp [Limit.h]
    · rw [hx.quiet]
      exact (and_iff_left (not_noticed_zero w)).symm
  | some d =>
    have h := parseValue_unit d (u := .hours) (Or.inl rfl) (by simpa [Limit.text, Units.tail] using hx)
    refine ⟨_, if_pos h.units, h.text, ?_, h.quiet⟩
    rw [h.value]
    rfl

theorem parseValue_duration (w : Nat) (p : Parsing) (d : Int) :
    { parseValue w p with duration := d } = parseValue w { p with duration := d } := by
  unfold parseValue
  dsimp only
  split <;> rfl

/-- A limit in the documented form is read to the end: the duration is the wrapped sum, and nothing is printed exactly when no number
is noticed and the sum does not wrap to `0`. -/
theorem parseTimeout_limit (w : Nat) (leftover : Units) (l : Limit) :
    (parseTimeout w leftover l.text).duration = wrap w (3600 * clamp w l.h + 60 * clamp w l.m + clamp w l.s) ∧
      ((parseTimeout w leftover l.text).messages = [] ↔
        (((True ∧ ¬Noticed w l.h) ∧ ¬Noticed w l.m) ∧ ¬Noticed w l.s) ∧
          wrap w (3600 * clamp w l.h + 60 * clamp w l.m + clamp w l.s) ≠ 0) := by
  have hx : Before w ⟨0, 0, l.text, leftover, []⟩ l.text 0 True := ⟨rfl, (Int.zero_bmod).symm, iff_of_true rfl trivial⟩
  obtain ⟨y, hy, hby⟩ := hoursStep_read hx
  obtain ⟨z, hz, hbz⟩ := minutesStep_read hby
  unfold parseTimeout
  simp only [parseValue_duration]
  rw [hy, hz]
  exact lastStep_seconds hbz

/-! ## The documented limits -/

variable {m : DataModel} {leftover : Units} {limit : Text}

theorem parseTimeout_exact (leftover : Units) {l : Limit} (hw : 0 < w) (hfit : (l.total : Int) ≤ maxSigned w) :
    (parseTimeout w leftover l.text).duration = l.total := by
  have htotal : (l.total : Int) = 3600 * l.h + 60 * l.m + l.s := by
    unfold Limit.total
    push_cast
    rfl
  rw [(parseTimeout_limit w leftover l).1, clamp_of_le (by omega), clamp_of_le (by omega), clamp_of_le (by omega), ← htotal]
  exact wrap_of_inRange hw (inRange_of_nonneg (Int.natCast_nonneg _) hfit)

/-- A text is a limit in one way only: with a `time_t` that is wide enough, the duration is its total. -/
theorem total_of_text_eq {l l' : Limit} (h : l.text = l'.text) : l.total = l'.total := by
  have hfit : ∀ k : Limit, k.total ≤ l.total + l'.total → (k.total : Int) ≤ maxSigned (l.total + l'.total + 1) := by
    intro k hk
    have hpow : k.total < 2 ^ (l.total + l'.total) := Nat.lt_of_le_of_lt hk Nat.lt_two_pow_self
    have hcast : (k.total : Int) < 2 ^ (l.total + l'.total) := by exact_mod_cast hpow
    unfold maxSigned
    rw [Nat.add_sub_cancel]
    omega
  have h₁ := parseTimeout_exact .other (Nat.succ_pos _) (hfit l (Nat.le_add_right _ _))
  have h₂ := parseTimeout_exact .other (Nat.succ_pos _) (hfit l' (Nat.le_add_left _ _))
  rw [h, h₂] at h₁
  exact (Int.natCast_inj.mp h₁).symm

/-- A limit that does not fit is noticed: a number is above the greatest `int` and `long` is no wider, or the sum of the numbers that
`strtol` gives wraps to `0`. -/
def Limit.Caught (m : DataModel) (l : Limit) : Prop :=
  (m = .ilp32 ∧ (INT_MAX < l.h ∨ INT_MAX < l.m ∨ INT_MAX < l.s)) ∨
    ((2 ^ m.bits : Nat) : Int) ∣ 3600 * clamp m.bits l.h + 60 * clamp m.bits l.m + clamp m.bits l.s

theorem noticed_iff {n : Nat} : Noticed m.bits n ↔ m = .ilp32 ∧ INT_MAX < n := by
  cases m with
  | ilp32 => exact ⟨fun h => ⟨rfl, h.1⟩, fun h => ⟨h.2, rfl⟩⟩
  | lp64 => exact ⟨fun h => absurd h.2 (by decide), fun h => absurd h.1 (by decide)⟩

theorem caught_iff (leftover : Units) (l : Limit) : l.Caught m ↔ (parseTimeout m.bits leftover l.text).messages ≠ [] := by
  rw [ne_eq, (parseTimeout_limit m.bits leftover l).2, noticed_iff, noticed_iff, noticed_iff, Limit.Caught, Int.dvd_iff_bmod_eq_zero,
    wrap]
  tauto

theorem bits_pos (m : DataModel) : 0 < m.bits := by cases m <;> decide

/-- The limits that `parse_timeout` and `main` handle as documented. -/
theorem accepts_iff (m : DataModel) (leftover : Units) (limit : Text) :
    Accepts m leftover limit ↔ ∃ l : Limit, l.text = limit ∧ ((l.total : Int) ≤ maxSigned m.bits ∨ l.Caught m) := by
  constructor
  · rintro ⟨hlimit, hother⟩
    by_cases h : ∃ l : Limit, l.text = limit
    · obtain ⟨l, rfl⟩ := h
      refine ⟨l, rfl, ?_⟩
      by_cases hfit : (l.total : Int) ≤ maxSigned m.bits
      · exact Or.inl hfit
      · have hm := hlimit l rfl
        rw [if_neg hfit] at hm
        exact Or.inr ((caught_iff leftover l).mpr hm)
    · -- `main` goes on with whatever the duration is
      exact absurd rfl (hother h 0 [] [] _)
  · rintro ⟨l, rfl, hl⟩
    refine ⟨fun l' heq => ?_, fun h => absurd ⟨l, rfl⟩ h⟩
    have htotal := total_of_text_eq heq
    split
    · rename_i hfit
      rw [← heq]
      exact parseTimeout_exact leftover (bits_pos m) hfit
    · rename_i hfit
      rw [htotal] at hfit
      exact (caught_iff leftover l).mp (hl.resolve_left hfit)

/-- The characters of a limit. -/
theorem mem_text {l : Limit} {c : Char} (hc : c ∈ l.text) : c.isDigit = true ∨ c = 'h' ∨ c = 'm' ∨ c = 's' := by
  have hunit : ∀ (d : Numeral) {u : Char}, c ∈ d.digits ++ [u] → c.isDigit = true ∨ c = u := by
    intro d u h
    rcases List.mem_append.mp h with h | h
    · exact Or.inl (d.isDigit c h)
    · exact Or.inr (List.mem_singleton.mp h)
  obtain ⟨hours, minutes, seconds, hsome⟩ := l
  rcases List.mem_append.mp hc with h | h
  · rcases hours with _ | d
    · cases h
    · exact (hunit d h).imp id Or.inl
  · rcases List.mem_append.mp h with h | h
    · rcases minutes with _ | d
      · cases h
      · exact (hunit d h).imp id fun e => Or.inr (Or.inl e)
    · rcases seconds with _ | ⟨d, _ | _⟩
      · cases h
      · rcases List.mem_append.mp h with h | h
        · exact Or.inl (d.isDigit c h)
        · cases h
      · exact (hunit d h).imp id fun e => Or.inr (Or.inr e)

/-- `5x` is no limit, and the command is run all the same. -/
theorem not_accepts : ¬∀ (m : DataModel) (leftover : Units) (limit : Text), Accepts m leftover limit := by
  intro h
  obtain ⟨-, hother⟩ := h .lp64 .other "5x".toList
  refine hother ?_ 0 "ls".toList [] _ rfl
  rintro ⟨l, hl⟩
  have hx : 'x' ∈ l.text := by
    rw [hl]
    decide
  exact absurd (mem_text hx) (by decide)

end ZfsTest.Stf
