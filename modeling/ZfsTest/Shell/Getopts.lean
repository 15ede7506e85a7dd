import ZfsTest.Text.Basic

/-!
# `getopts`

The options of a list of arguments, as `getopts` reports them one after another when the option string begins with a colon. An argument
that begins with `-` or `+` holds options; an option that takes an argument takes the rest of its own argument, or the next one. The first
other argument, `-` alone and `--` end the options.
-/

namespace ZfsTest.Shell

inductive Getopt
  | option (plus : Bool) (c : Char) (optarg : Option Text)
  | missing (c : Char)
  | unknown (c : Char)
  deriving DecidableEq, Repr

/-- What an option string says of a character: no option, or an option without or with an argument. -/
abbrev Optstring := Char → Option Bool

variable (spec : Optstring)

/-- The options of one argument; the last of them may take its argument from the next one. -/
def cluster (plus : Bool) : Text → List Getopt × Option Char
  | [] => ([], none)
  | c :: t =>
    match spec c with
    | none => (.unknown c :: (cluster plus t).1, (cluster plus t).2)
    | some false => (.option plus c none :: (cluster plus t).1, (cluster plus t).2)
    | some true => if t = [] then ([], some c) else ([.option plus c (some t)], none)

/-- The options in an argument, if it holds options. -/
def optionText : Text → Option (Bool × Text)
  | ['-', '-'] => none
  | '-' :: c :: t => some (false, c :: t)
  | '+' :: c :: t => some (true, c :: t)
  | _ => none

/-- The options with the arguments behind each of them, and the arguments behind all of them. -/
def getoptsFrom : Option (Bool × Char) → List Text → List (Getopt × List Text) × List Text
  | some (_, c), [] => ([(.missing c, [])], [])
  | some (plus, c), a :: as =>
    let found := getoptsFrom none as
    ((.option plus c (some a), as) :: found.1, found.2)
  | none, [] => ([], [])
  | none, a :: as =>
    match optionText a with
    | none => ([], if a = ['-', '-'] then as else a :: as)
    | some (plus, t) =>
      let here := cluster spec plus t
      let found := getoptsFrom (here.2.map fun c => (plus, c)) as
      (here.1.map (fun e => (e, as)) ++ found.1, found.2)

def getopts (args : List Text) : List (Getopt × List Text) × List Text := getoptsFrom spec none args

variable {spec}

theorem optionText_flag {c : Char} (hdash : c ≠ '-') : optionText ['-', c] = some (false, [c]) := by
  rw [optionText.eq_def]
  split
  · rename_i h
    cases h
    exact absurd rfl hdash
  · rename_i h
    cases h
    rfl
  · rename_i h
    cases h
  · rename_i h _
    exact absurd rfl (h c [])

/-- An option with its argument behind it. -/
theorem getopts_optarg {c : Char} (hc : spec c = some true) (hdash : c ≠ '-') (v : Text) (args : List Text) :
    getopts spec (['-', c] :: v :: args) = ((.option false c (some v), args) :: (getopts spec args).1, (getopts spec args).2) := by
  simp [getopts, getoptsFrom, optionText_flag hdash, cluster, hc]

end ZfsTest.Shell
