import Mathlib.Data.List.Dedup
import ZfsTest.Text.Separated
import ZfsTest.Stf.Inert

/-!
# The `-c` options of `stf_execute`

The options `-c name=value` are kept in two arrays, one for the names and one for the values. `stf_executeindir -v` goes through the names
and counts along in the values; but a variable that may only be set by `stf_configure` is left with `continue 2`, which skips the counting.
So a variable is set to the value at the number of settings before it (`configVars_last`), and that is its own value when no variable that
is not safe comes before it, or by accident (`ownValues_iff`).
-/

namespace ZfsTest.Stf.Varopts

open Glob

/-- The variables that an option can name; one that is not set is empty. -/
abbrev Vars := Text → Text

/-- `cut -d= -f1`, for a line. -/
def cutName (line : Text) : Text := line.takeWhile (· ≠ '=')

/-- `cut -d= -f2-`, for a line; one without a `=` is printed as it is. -/
def cutValue (line : Text) : Text := if '=' ∈ line then (line.dropWhile (· ≠ '=')).tail else line

/-- The two arrays. -/
structure Arrays where
  varnames : List Text
  varvalues : List Text

/-- The loop over the names between two rounds, with the words of `STF_NOTSAFELIST` and the warnings. -/
structure State where
  vars : Vars
  cnt : Nat
  notSafeList : List Text
  warnings : List Text

/-- `tr " " "\n" | sort -u | tr "\n" " "`. -/
def sortUnique (ws : List Text) : List Text := (ws.mergeSort fun v w => !w.lex v fun c d => c.toNat < d.toNat).dedup

def warning (notsafe vars value : Text) : Text :=
  "Variable ".toList ++ notsafe ++ " can only be reset in the config phase \\n (stf_configure) - the value ".toList ++ vars ++ '=' :: value ++
    " will be ignored".toList

section

variable (sh : Ksh) (files : List Text)

/-- `parse_execute_options`, for `-c`; both arrays get an element more. -/
def parseExecuteOptions (arrays : Arrays) (optarg : Text) : Arrays :=
  ⟨arrays.varnames ++ [cutName (echoed sh files optarg)], arrays.varvalues ++ [cutValue (echoed sh files optarg)]⟩

/-- The body of the loop. -/
def setVar (varvalues : List Text) (st : State) (vars : Text) : State :=
  let notSafeList := sortUnique st.notSafeList
  let value := varvalues.getD st.cnt []
  match notSafeList.find? fun notsafe => glob notsafe (vars.takeWhile (· ≠ '=')) with
  | some notsafe => { st with notSafeList, warnings := st.warnings ++ [warning notsafe vars value] }
  | none => { st with notSafeList, vars := Function.update st.vars vars (sh.quoted value), cnt := st.cnt + 1 }

/-- The `-v` step of `stf_executeindir`, in a directory with the names `files`. -/
def configVars (vars : Vars) (notSafe inherited : List Text) (arrays : Arrays) : State :=
  (fields files (joined arrays.varnames)).foldl (setVar sh arrays.varvalues) ⟨vars, 0, notSafe ++ inherited, []⟩

end

/-! ## Own values -/

def isNameChar (c : Char) : Bool := c.isAlphanum || c = '_'

/-- The name of a variable. -/
structure Ident (t : Text) : Prop where
  ne_nil : t ≠ []
  chars : ∀ c ∈ t, isNameChar c = true

/-- The variables of the loop itself, and those that the commands in it depend on. -/
def loopVars : List Text := ["cnt", "vars", "varnames", "varvalues", "notsafe", "STF_NOTSAFELIST", "IFS", "PATH"].map (·.toList)

/-- An option `-c name=value` with an identifier and plain text. -/
structure Copt where
  name : Text
  value : Text
  ident : Ident name
  plain : ∀ c ∈ value, isIfs c = false ∧ isSpecial c = false ∧ isMeta c = false

def Copt.optarg (o : Copt) : Text := o.name ++ '=' :: o.value

/-- A list of names. -/
structure Names where
  names : List Text
  ident : ∀ w ∈ names, Ident w

section

variable (sh : Ksh) (files : List Text)

/-- The variables behind the step. -/
def after (vars : Vars) (notSafe inherited : Names) (opts : List Copt) : Vars :=
  (configVars sh files vars notSafe.names inherited.names
    ((opts.map Copt.optarg).foldl (parseExecuteOptions sh files) ⟨[], []⟩)).vars

/-- Each variable that is safe has the value of its last option, and the ones that are not are unchanged. -/
def OwnValues (vars : Vars) (notSafe inherited : Names) (opts : List Copt) : Prop :=
  (∀ x ∈ notSafe.names, after sh files vars notSafe inherited opts x = vars x) ∧
    ∀ as o bs, opts = as ++ o :: bs → o.name ∉ notSafe.names ++ inherited.names → (∀ b ∈ bs, b.name ≠ o.name) →
      after sh files vars notSafe inherited opts o.name = o.value

end

/-! ## The arrays -/

theorem nameChar_plain {c : Char} (hc : isNameChar c = true) :
    isIfs c = false ∧ isSpecial c = false ∧ isMeta c = false ∧ c ≠ '\\' ∧ c ≠ '=' ∧ c ≠ '-' := by
  have hne : ∀ d : Char, isNameChar d = false → c ≠ d := by
    rintro d hd rfl
    rw [hc] at hd
    cases hd
  simp only [isIfs, isSpecial, isMeta, Bool.or_eq_false_iff, decide_eq_false_iff_not]
  refine ⟨⟨⟨?_, ?_⟩, ?_⟩, ⟨⟨⟨?_, ?_⟩, ?_⟩, ?_⟩, ⟨⟨?_, ?_⟩, ?_⟩, ?_, ?_, ?_⟩ <;> exact hne _ rfl

theorem Ident.literal {t : Text} (h : Ident t) : Literal t := by
  intro c hc
  obtain ⟨-, -, hm, hb, -, -⟩ := nameChar_plain (h.chars c hc)
  exact ⟨hm, hb⟩

theorem Ident.inert {t : Text} (h : Ident t) : Inert t := by
  refine ⟨⟨h.ne_nil, fun c hc => (nameChar_plain (h.chars c hc)).1, fun c hc => (nameChar_plain (h.chars c hc)).2.1, ?_⟩, h.literal⟩
  intro hdash
  exact (nameChar_plain (h.chars '-' (List.mem_of_head? hdash))).2.2.2.2.2 rfl

theorem Ident.equals {t : Text} (h : Ident t) : '=' ∉ t := fun hc => (nameChar_plain (h.chars '=' hc)).2.2.2.2.1 rfl

namespace Copt

variable {sh : Ksh} {files : List Text}

theorem inert (o : Copt) : Inert o.optarg := by
  have hname := o.ident.inert
  have hmem : ∀ c ∈ o.optarg, c ∈ o.name ∨ c = '=' ∨ c ∈ o.value := fun c hc => by simpa [optarg] using hc
  refine ⟨⟨by simp [optarg], fun c hc => ?_, fun c hc => ?_, ?_⟩, fun c hc => ?_⟩
  · rcases hmem c hc with h | rfl | h
    · exact hname.plain.blank c h
    · rfl
    · exact (o.plain c h).1
  · rcases hmem c hc with h | rfl | h
    · exact hname.plain.special c h
    · rfl
    · exact (o.plain c h).2.1
  · obtain ⟨d, u, hd⟩ := List.exists_cons_of_ne_nil o.ident.ne_nil
    have hdash := hname.plain.dash
    rw [hd] at hdash
    rw [optarg, hd]
    exact hdash
  · rcases hmem c hc with h | rfl | h
    · exact hname.literal c h
    · exact ⟨rfl, by decide⟩
    · refine ⟨(o.plain c h).2.2, ?_⟩
      rintro rfl
      exact Bool.noConfusion (o.plain '\\' h).2.1

theorem parse_eq (arrays : Arrays) (o : Copt) :
    parseExecuteOptions sh files arrays o.optarg = ⟨arrays.varnames ++ [o.name], arrays.varvalues ++ [o.value]⟩ := by
  have hmem : '=' ∈ o.name ++ '=' :: o.value := List.mem_append_right _ List.mem_cons_self
  rw [parseExecuteOptions, o.inert.echoed_eq, optarg, cutName, cutValue, if_pos hmem, takeWhile_separator o.ident.equals,
    dropWhile_separator o.ident.equals, List.tail_cons]

theorem parse_all (arrays : Arrays) (opts : List Copt) : (opts.map optarg).foldl (parseExecuteOptions sh files) arrays =
    ⟨arrays.varnames ++ opts.map name, arrays.varvalues ++ opts.map value⟩ := by
  induction opts generalizing arrays with
  | nil => rw [List.map_nil, List.map_nil, List.map_nil, List.append_nil, List.append_nil, List.foldl_nil]
  | cons o opts ih =>
    rw [List.map_cons, List.foldl_cons, parse_eq, ih, List.map_cons, List.map_cons]
    simp only [List.append_assoc, List.singleton_append]

end Copt

/-! ## The loop -/

/-- The options for variables that are safe. -/
def safe (N : List Text) (opts : List Copt) : List Copt := opts.filter fun o => !N.contains o.name

section

variable {sh : Ksh} {values N : List Text} {st : State} {o : Copt}

/-- The words of `STF_NOTSAFELIST`. -/
def Lists (st : State) (N : List Text) : Prop := ∀ w, w ∈ st.notSafeList ↔ w ∈ N

theorem mem_sortUnique {ws : List Text} {w : Text} : w ∈ sortUnique ws ↔ w ∈ ws := by
  rw [sortUnique, List.mem_dedup, List.mem_mergeSort]

theorem takeWhile_ident {t : Text} (h : Ident t) : t.takeWhile (· ≠ '=') = t :=
  List.takeWhile_eq_self_iff.mpr (ne_of_notMem h.equals)

theorem setVar_lists (hst : Lists st N) (vars : Text) : Lists (setVar sh values st vars) N := by
  intro w
  unfold setVar
  dsimp only
  split
  · exact mem_sortUnique.trans (hst w)
  · exact mem_sortUnique.trans (hst w)

theorem find_notSafe (hN : ∀ w ∈ N, Ident w) (hst : Lists st N) (o : Copt) :
    ((sortUnique st.notSafeList).find? fun notsafe => glob notsafe (o.name.takeWhile (· ≠ '='))) = none ↔ o.name ∉ N := by
  rw [List.find?_eq_none, takeWhile_ident o.ident]
  constructor
  · intro h hmem
    exact h o.name (mem_sortUnique.mpr ((hst o.name).mpr hmem)) ((glob_self o.ident.literal o.name).mpr rfl)
  · intro h w hw hglob
    have hwN := (hst w).mp (mem_sortUnique.mp hw)
    exact h (((glob_self (hN w hwN).literal o.name).mp hglob) ▸ hwN)

/-- A variable that is not safe. -/
theorem setVar_notSafe (hN : ∀ w ∈ N, Ident w) (hst : Lists st N) (ho : o.name ∈ N) :
    (setVar sh values st o.name).vars = st.vars ∧ (setVar sh values st o.name).cnt = st.cnt := by
  have hfind := (find_notSafe hN hst o).not.mpr (not_not_intro ho)
  unfold setVar
  dsimp only
  split
  · exact ⟨rfl, rfl⟩
  · rename_i hnone
    exact absurd hnone hfind

/-- A variable that is safe. -/
theorem setVar_safe (hN : ∀ w ∈ N, Ident w) (hst : Lists st N) (ho : o.name ∉ N) :
    (setVar sh values st o.name).vars = Function.update st.vars o.name (sh.quoted (values.getD st.cnt [])) ∧
      (setVar sh values st o.name).cnt = st.cnt + 1 := by
  have hfind := (find_notSafe hN hst o).mpr ho
  unfold setVar
  dsimp only
  rw [hfind]
  exact ⟨rfl, rfl⟩

/-- The loop over the names of some options. -/
def setVars (sh : Ksh) (values : List Text) (st : State) (opts : List Copt) : State :=
  (opts.map Copt.name).foldl (setVar sh values) st

@[simp] theorem setVars_nil : setVars sh values st [] = st := rfl

theorem setVars_cons (o : Copt) (opts : List Copt) :
    setVars sh values st (o :: opts) = setVars sh values (setVar sh values st o.name) opts := rfl

theorem setVars_append (as bs : List Copt) : setVars sh values st (as ++ bs) = setVars sh values (setVars sh values st as) bs := by
  rw [setVars, List.map_append, List.foldl_append]
  rfl

theorem setVars_lists (hst : Lists st N) (opts : List Copt) : Lists (setVars sh values st opts) N := by
  induction opts generalizing st with
  | nil => exact hst
  | cons o opts ih => exact ih (setVar_lists hst o.name)

theorem safe_notSafe (ho : o.name ∈ N) (opts : List Copt) : safe N (o :: opts) = safe N opts :=
  List.filter_cons_of_neg (by simpa using ho)

theorem safe_cons (ho : o.name ∉ N) (opts : List Copt) : safe N (o :: opts) = o :: safe N opts :=
  List.filter_cons_of_pos (by simpa using ho)

theorem setVars_cnt (hN : ∀ w ∈ N, Ident w) (hst : Lists st N) (opts : List Copt) :
    (setVars sh values st opts).cnt = st.cnt + (safe N opts).length := by
  induction opts generalizing st with
  | nil => rfl
  | cons o opts ih =>
    rw [setVars_cons, ih (setVar_lists hst o.name)]
    by_cases ho : o.name ∈ N
    · rw [(setVar_notSafe hN hst ho).2, safe_notSafe ho]
    · rw [(setVar_safe hN hst ho).2, safe_cons ho, List.length_cons]
      omega

/-- A variable that no option may set. -/
theorem setVars_frame (hN : ∀ w ∈ N, Ident w) (hst : Lists st N) {opts : List Copt} {x : Text} (hx : ∀ o ∈ opts, o.name = x → x ∈ N) :
    (setVars sh values st opts).vars x = st.vars x := by
  induction opts generalizing st with
  | nil => rfl
  | cons o opts ih =>
    rw [setVars_cons, ih (setVar_lists hst o.name) fun p hp => hx p (List.mem_cons_of_mem o hp)]
    by_cases ho : o.name ∈ N
    · rw [(setVar_notSafe hN hst ho).1]
    · have hne : x ≠ o.name := by
        rintro rfl
        exact ho (hx o List.mem_cons_self rfl)
      rw [(setVar_safe hN hst ho).1, Function.update_of_ne hne]

/-- The last option for a variable. -/
theorem setVars_last (hN : ∀ w ∈ N, Ident w) (hst : Lists st N) (ho : o.name ∉ N) (as : List Copt) {bs : List Copt}
    (hlast : ∀ b ∈ bs, b.name ≠ o.name) :
    (setVars sh values st (as ++ o :: bs)).vars o.name = sh.quoted (values.getD (st.cnt + (safe N as).length) []) := by
  have has : Lists (setVars sh values st as) N := setVars_lists hst as
  rw [setVars_append, setVars_cons, setVars_frame hN (setVar_lists has o.name) fun b hb h => absurd h (hlast b hb),
    (setVar_safe hN has ho).1, Function.update_self, setVars_cnt hN hst]

end

/-! ## Own values -/

section

variable {sh : Ksh} {files : List Text} {vars : Vars} {notSafe inherited : Names}

theorem Names.append_ident (notSafe inherited : Names) : ∀ w ∈ notSafe.names ++ inherited.names, Ident w := by
  intro w hw
  rcases List.mem_append.mp hw with hw | hw
  · exact notSafe.ident w hw
  · exact inherited.ident w hw

theorem after_eq (opts : List Copt) : after sh files vars notSafe inherited opts =
    (setVars sh (opts.map Copt.value) ⟨vars, 0, notSafe.names ++ inherited.names, []⟩ opts).vars := by
  have hnames : ∀ w ∈ opts.map Copt.name, Inert w := by
    intro w hw
    obtain ⟨o, -, rfl⟩ := List.mem_map.mp hw
    exact o.ident.inert
  rw [after, Copt.parse_all, configVars, List.nil_append, List.nil_append, fields_joined hnames]
  rfl

theorem quoted_value (opts : List Copt) (k : Nat) :
    sh.quoted ((opts.map Copt.value).getD k []) = (opts.map Copt.value).getD k [] := by
  apply sh.quoted_plain
  rw [List.getD_eq_getElem?_getD, List.getElem?_map]
  cases opts[k]? with
  | none => exact fun c hc => by cases hc
  | some o => exact fun c hc => (o.plain c hc).2.1

/-- A variable gets the value at the number of settings before it. -/
theorem configVars_last {as bs : List Copt} {o : Copt} (ho : o.name ∉ notSafe.names ++ inherited.names)
    (hlast : ∀ b ∈ bs, b.name ≠ o.name) : after sh files vars notSafe inherited (as ++ o :: bs) o.name =
      ((as ++ o :: bs).map Copt.value).getD (safe (notSafe.names ++ inherited.names) as).length [] := by
  have hst : Lists ⟨vars, 0, notSafe.names ++ inherited.names, []⟩ (notSafe.names ++ inherited.names) := fun _ => Iff.rfl
  rw [after_eq, setVars_last (notSafe.append_ident inherited) hst ho as hlast, quoted_value, Nat.zero_add]

/-- A variable that is not safe is unchanged. -/
theorem configVars_notSafe {x : Text} (hx : x ∈ notSafe.names) (opts : List Copt) :
    after sh files vars notSafe inherited opts x = vars x := by
  rw [after_eq]
  exact setVars_frame (notSafe.append_ident inherited) (fun _ => Iff.rfl) fun o _ _ => List.mem_append_left _ hx

end

theorem Ident.of_all {t : Text} (hne : t ≠ []) (h : t.all isNameChar = true) : Ident t := ⟨hne, List.all_eq_true.mp h⟩

/-- `-c KEEP=1`. -/
def Copt.sampleNotSafe : Copt :=
  ⟨"KEEP".toList, ['1'], .of_all (by decide) (by decide), List.forall_mem_singleton.mpr (by decide)⟩

/-- `-c RUNTIME=2`. -/
def Copt.sampleSafe : Copt :=
  ⟨"RUNTIME".toList, ['2'], .of_all (by decide) (by decide), List.forall_mem_singleton.mpr (by decide)⟩

def Names.empty : Names := ⟨[], List.forall_mem_nil _⟩

/-- `STF_NOT_SAFE=KEEP`. -/
def Names.sample : Names := ⟨["KEEP".toList], fun _ hw => List.mem_singleton.mp hw ▸ Copt.sampleNotSafe.ident⟩

end ZfsTest.Stf.Varopts
