import ZfsTest.Stf.Execute

/-!
# A run of `stf_configure`

`stf_configure` without `-l` configures the directories above the start directory and then the start directory and what is below
it, each with `stf_configureindir`. The exit status of `stf_configureindir` is never looked at: a directory in which a step fails is
put on `fail_list`, from which `stf_configure` takes its own exit status, and gets a file `FAIL`, at which `stf_executeindir` turns
back. What the steps do is not modelled; the log (`ConfEvent`) tells which of them have been taken, and with what outcome. The
`checkenv` tool is there, and there are no remote systems.

The generation of test cases fails in two ways: with a status, or through `gen_fail`, which exits the shell. That is the shell of
`stf_configure` in the start directory, and the subshell of `-r` below it.

The lemmas about the loop over the options (`confLoop_aboveOptions`, `confLoop_belowOptions`) say which steps a directory takes and
how it ends: silently when an environment file or a generated file cannot be read or the generation exits (`ConfDir.silent`), with an
entry in `fail_list` when another step fails (`ConfDir.loud`).
-/

namespace ZfsTest.Stf

/-! ## Directories -/

/-- What `create_vars_file` does: it makes the file, fails, or finds no variables. -/
inductive CreateVars
  | created | failed | noVariables
  deriving DecidableEq, Repr

/-- What a generator or a case file comes to: `gen_fail` is called where the matrix file cannot be read or is not well formed. -/
inductive Generated
  | made | failed | exited
  deriving DecidableEq, Repr

structure Generation where
  name : Name
  result : Generated

/-- The step, as it is told. -/
def Generation.script (g : Generation) : Script := ⟨g.name, g.result = .made⟩

/-- What `stf_configureindir` finds in a directory, and the outcomes of its steps. `mkdir` is for the configuration directory, `modes`
tells that there are execution modes. -/
structure ConfDir where
  mkdir : Bool
  envFiles : List Script
  createVars : CreateVars
  readVars : Bool
  rootCheckenv : List Script
  userCheckenv : List Script
  writeStf : Bool
  rootConfigure : List Script
  userConfigure : List Script
  sourceVars : Bool
  sourceStf : Bool
  sourceSuite : Bool
  static : Bool
  modes : Bool
  generators : List Generation
  rootCasefiles : List Generation
  userCasefiles : List Generation
  subdirs : { l : List Name // l.Nodup }

inductive Step
  | mkdir
  | envFile (name : Name)
  | vars
  | checkenv (name : Name)
  | writeStf
  | configure (name : Name)
  | sourceVars
  | sourceStf
  | sourceSuite
  | static
  | generator (name : Name)
  | casefile (name : Name)
  deriving DecidableEq, Repr

inductive ConfEvent
  | step (p : Path) (k : Step) (ok : Bool)
  /-- `rm -f $configdir/FAIL`. -/
  | rmFail (p : Path)
  /-- The directory is put on `fail_list` and gets a file `FAIL`. -/
  | fail (p : Path)
  /-- The shell that configures the directory exits with status 1. -/
  | exit (p : Path)
  deriving DecidableEq, Repr

def ConfEvent.path : ConfEvent → Path
  | .step p _ _ | .rmFail p | .fail p | .exit p => p

/-! ## `stf_configureindir` -/

inductive ConfOpt
  | s | v | k | c | e | g | r
  deriving DecidableEq, Repr

/-- How the loop over the options goes on: with the next option, after the loop, or not at all (`return 1`, `exit 1`). -/
inductive Next
  | go | leave | giveUp | exit
  deriving DecidableEq, Repr

/-- What an option does: whether something has failed, what has been done, and how to go on. -/
abbrev ConfOutcome := Bool × List ConfEvent × Next

section

variable (dir : ConfDir) (p : Path) (child : Name → List ConfEvent)

/-- The event of a script. -/
def scriptStep (k : Name → Step) (s : Script) : ConfEvent := .step p (k s.name) s.ok

def confS (failed : Bool) : ConfOutcome :=
  let (ok, log) := runUntil (scriptStep p .envFile) dir.envFiles
  if ok then (failed, log, .go) else (failed, log, .giveUp)

def confV (failed : Bool) : ConfOutcome :=
  match dir.createVars with
  | .noVariables => (failed, [], .go)
  | .failed => (true, [.step p .vars false], .leave)
  | .created =>
    if dir.readVars then (failed, [.step p .vars true], .go) else (true, [.step p .vars false], .leave)

def confK (failed : Bool) : ConfOutcome :=
  let (ok, log) := runUntil (scriptStep p .checkenv) (dir.rootCheckenv ++ dir.userCheckenv)
  if ok then (failed, log, .go) else (true, log, .leave)

def confC (failed : Bool) : ConfOutcome :=
  if dir.writeStf then
    let (ok, log) := runUntil (scriptStep p .configure) (dir.rootConfigure ++ dir.userConfigure)
    if ok then (failed, .step p .writeStf true :: log, .go) else (true, .step p .writeStf true :: log, .leave)
  else (true, [.step p .writeStf false], .leave)

def confE (failed : Bool) : ConfOutcome :=
  if dir.sourceVars then
    if dir.sourceStf then
      if dir.sourceSuite then
        (failed, [.step p .sourceVars true, .step p .sourceStf true, .step p .sourceSuite true], .go)
      else (failed, [.step p .sourceVars true, .step p .sourceStf true, .step p .sourceSuite false], .giveUp)
    else (failed, [.step p .sourceVars true, .step p .sourceStf false], .giveUp)
  else (failed, [.step p .sourceVars false], .giveUp)

/-- The first that is not made exits the shell. -/
def exitsIn : List Generation → Bool
  | [] => false
  | g :: gs =>
    match g.result with
    | .made => exitsIn gs
    | .failed => false
    | .exited => true

/-- A failure of a generator ends its loop, and does not keep the other loops from running. -/
def confG (failed : Bool) : ConfOutcome :=
  if dir.static then
    if dir.modes then
      let (ok₁, log₁) := runUntil (scriptStep p .generator) (dir.generators.map Generation.script)
      if exitsIn dir.generators then (failed, .step p .static true :: log₁, .exit)
      else
        let (ok₂, log₂) := runUntil (scriptStep p .casefile) (dir.rootCasefiles.map Generation.script)
        if exitsIn dir.rootCasefiles then (failed, .step p .static true :: (log₁ ++ log₂), .exit)
        else
          let (ok₃, log₃) := runUntil (scriptStep p .casefile) (dir.userCasefiles.map Generation.script)
          if exitsIn dir.userCasefiles then (failed, .step p .static true :: (log₁ ++ (log₂ ++ log₃)), .exit)
          else (failed || !ok₁ || !ok₂ || !ok₃, .step p .static true :: (log₁ ++ (log₂ ++ log₃)), .go)
    else (failed, [.step p .static true], .go)
  else (true, [.step p .static false], .leave)

def confStep (failed : Bool) : ConfOpt → ConfOutcome
  | .s => confS dir p failed
  | .v => confV dir p failed
  | .k => confK dir p failed
  | .c => confC dir p failed
  | .e => confE dir p failed
  | .g => confG dir p failed
  | .r => (failed, dir.subdirs.1.flatMap child, .go)

/-- What has been done, and at the end the entry in `fail_list` and the mark. -/
def confLoop : List ConfOpt → Bool → List ConfEvent
  | [], failed => if failed then [.fail p] else []
  | o :: os, failed =>
    let (failed, log, next) := confStep dir p child failed o
    match next with
    | .go => log ++ confLoop os failed
    | .leave => log ++ (if failed then [.fail p] else [])
    | .giveUp => log
    | .exit => log ++ [.exit p]

/-- `confdir` tells which configuration directories exist. -/
def confInDir (confdir : Path → Bool) (opts : List ConfOpt) : List ConfEvent :=
  if confdir p then .rmFail p :: confLoop dir p child opts false
  else if dir.mkdir then .step p .mkdir true :: .rmFail p :: confLoop dir p child opts false
  else [.step p .mkdir false]

end

def configureindir (confdir : Path → Bool) (opts : List ConfOpt) : Tree ConfDir → Path → List ConfEvent
  | .missing, _ => []
  | .node dir sub, p => confInDir dir p (fun name => configureindir confdir opts (sub name) (p ++ [name])) confdir opts

/-! ## `stf_configure` -/

/-- The options for a directory above the start directory, and for the start directory and below. -/
def aboveOptions : List ConfOpt := [.s, .v, .k, .c, .e]
def belowOptions : List ConfOpt := [.s, .v, .k, .c, .e, .g, .r]

section

variable (confdir : Path → Bool) (root : Tree ConfDir) (start : Path)

/-- The configuration directories after that of the start directory has been made, with all above it. -/
def withStart (d : Path) : Bool := confdir d || decide (d <+: start)

/-- What the directories do. -/
def configureAll : List ConfEvent :=
  ((parentdirs start).flatMap fun p => configureindir (withStart confdir start) aboveOptions (root.at p) p) ++
    configureindir (withStart confdir start) belowOptions (root.at start) start

/-- `fail_list` is not empty. -/
def failList (log : List ConfEvent) : Bool := log.any fun e => match e with | .fail _ => true | _ => false

/-- The exit status when the directories have done this. The shell of the start directory is that of `stf_configure`. -/
def status (log : List ConfEvent) : Nat := if .exit start ∈ log ∨ failList log then 1 else 0

/-- The exit status and what has been done; `mkdir` is the outcome for the configuration directory of the start directory. -/
def configure (mkdir : Bool) : Nat × List ConfEvent :=
  if confdir start then (status start (configureAll confdir root start), configureAll confdir root start)
  else if mkdir then
    (status start (configureAll confdir root start), .step start .mkdir true :: configureAll confdir root start)
  else (1, [.step start .mkdir false])

end

/-! ## Failures -/

section

variable (dir : ConfDir)

def ConfDir.envOk : Bool := dir.envFiles.all Script.ok
def ConfDir.varsOk : Bool :=
  match dir.createVars with
  | .noVariables => true
  | .failed => false
  | .created => dir.readVars
def ConfDir.checkOk : Bool := (dir.rootCheckenv ++ dir.userCheckenv).all Script.ok
def ConfDir.confOk : Bool := dir.writeStf && (dir.rootConfigure ++ dir.userConfigure).all Script.ok
def ConfDir.sourced : Bool := dir.sourceVars && dir.sourceStf && dir.sourceSuite
def ConfDir.genOk : Bool :=
  dir.static && (!dir.modes || ((dir.generators ++ dir.rootCasefiles ++ dir.userCasefiles).map Generation.script).all Script.ok)

/-- The generation exits. -/
def ConfDir.exits : Bool :=
  dir.static && (dir.modes && (exitsIn dir.generators || exitsIn dir.rootCasefiles || exitsIn dir.userCasefiles))

/-- The steps between the environment files and the generated files. -/
def ConfDir.middleOk : Bool := dir.varsOk && dir.checkOk && dir.confOk

/-- The generation is reached and exits; `g` tells that test cases are generated. -/
def ConfDir.exited (g : Bool) : Bool := dir.envOk && dir.middleOk && dir.sourced && (g && dir.exits)

/-- An environment file cannot be read, or a generated file after the steps before it have succeeded, or the generation exits. -/
def ConfDir.silent (g : Bool) : Bool := !dir.envOk || (dir.middleOk && !dir.sourced) || dir.exited g

/-- A step fails that ends with an entry in `fail_list`. -/
def ConfDir.loud (g : Bool) : Bool := dir.envOk && (!dir.middleOk || (g && dir.sourced && !dir.genOk && !dir.exits))

/-- The subdirectories are configured. -/
def ConfDir.enters : Bool := dir.envOk && dir.middleOk && dir.sourced && (dir.static && !dir.exits)

end

/-! ## The loop over the options -/

section

variable (dir : ConfDir) (p : Path) (child : Name → List ConfEvent)

def envLog : List ConfEvent := (runUntil (scriptStep p .envFile) dir.envFiles).2
def varsLog : List ConfEvent :=
  match dir.createVars with
  | .noVariables => []
  | .failed | .created => [.step p .vars dir.varsOk]
def confCheckLog : List ConfEvent := (runUntil (scriptStep p .checkenv) (dir.rootCheckenv ++ dir.userCheckenv)).2
def confLog : List ConfEvent :=
  .step p .writeStf dir.writeStf ::
    if dir.writeStf then (runUntil (scriptStep p .configure) (dir.rootConfigure ++ dir.userConfigure)).2 else []
def sourceLog : List ConfEvent :=
  .step p .sourceVars dir.sourceVars :: if dir.sourceVars then
    .step p .sourceStf dir.sourceStf :: if dir.sourceStf then [.step p .sourceSuite dir.sourceSuite] else []
  else []
def genLog : List ConfEvent :=
  .step p .static dir.static :: if dir.static && dir.modes then
    (runUntil (scriptStep p .generator) (dir.generators.map Generation.script)).2 ++ if exitsIn dir.generators then [] else
      (runUntil (scriptStep p .casefile) (dir.rootCasefiles.map Generation.script)).2 ++ if exitsIn dir.rootCasefiles then [] else
        (runUntil (scriptStep p .casefile) (dir.userCasefiles.map Generation.script)).2
  else []

theorem confS_eq (failed : Bool) : confS dir p failed = (failed, envLog dir p, if dir.envOk then .go else .giveUp) := by
  have h := runUntil_fst (scriptStep p .envFile) dir.envFiles
  unfold confS envLog ConfDir.envOk
  rw [← h]
  generalize runUntil (scriptStep p .envFile) dir.envFiles = r
  obtain ⟨ok, log⟩ := r
  cases ok <;> simp

theorem confV_eq (failed : Bool) :
    confV dir p failed = (failed || !dir.varsOk, varsLog dir p, if dir.varsOk then .go else .leave) := by
  unfold confV varsLog ConfDir.varsOk
  cases dir.createVars with
  | noVariables => simp
  | failed => simp
  | created => cases dir.readVars <;> simp

theorem confK_eq (failed : Bool) :
    confK dir p failed = (failed || !dir.checkOk, confCheckLog dir p, if dir.checkOk then .go else .leave) := by
  have h := runUntil_fst (scriptStep p .checkenv) (dir.rootCheckenv ++ dir.userCheckenv)
  unfold confK confCheckLog ConfDir.checkOk
  rw [← h]
  generalize runUntil (scriptStep p .checkenv) (dir.rootCheckenv ++ dir.userCheckenv) = r
  obtain ⟨ok, log⟩ := r
  cases ok <;> simp

theorem confC_eq (failed : Bool) :
    confC dir p failed = (failed || !dir.confOk, confLog dir p, if dir.confOk then .go else .leave) := by
  have h := runUntil_fst (scriptStep p .configure) (dir.rootConfigure ++ dir.userConfigure)
  unfold confC confLog ConfDir.confOk
  rw [← h]
  generalize runUntil (scriptStep p .configure) (dir.rootConfigure ++ dir.userConfigure) = r
  obtain ⟨ok, log⟩ := r
  cases dir.writeStf <;> cases ok <;> simp

theorem confE_eq (failed : Bool) :
    confE dir p failed = (failed, sourceLog dir p, if dir.sourced then .go else .giveUp) := by
  unfold confE sourceLog ConfDir.sourced
  cases dir.sourceVars <;> cases dir.sourceStf <;> cases dir.sourceSuite <;> simp

theorem confG_eq (failed : Bool) : confG dir p failed = (if dir.exits then failed else failed || !dir.genOk, genLog dir p,
    if dir.static then (if dir.exits then .exit else .go) else .leave) := by
  have h₁ := runUntil_fst (scriptStep p .generator) (dir.generators.map Generation.script)
  have h₂ := runUntil_fst (scriptStep p .casefile) (dir.rootCasefiles.map Generation.script)
  have h₃ := runUntil_fst (scriptStep p .casefile) (dir.userCasefiles.map Generation.script)
  unfold confG genLog ConfDir.genOk ConfDir.exits
  rw [List.map_append, List.map_append, List.all_append, List.all_append, ← h₁, ← h₂, ← h₃]
  cases dir.static with
  | false => simp
  | true =>
    cases dir.modes with
    | false => simp
    | true =>
      cases exitsIn dir.generators with
      | true => simp
      | false =>
        cases exitsIn dir.rootCasefiles with
        | true => simp
        | false => cases exitsIn dir.userCasefiles <;> simp [Bool.or_assoc]

/-- Where the generation exits, it has not succeeded. -/
theorem all_of_exitsIn {gs : List Generation} (h : exitsIn gs = true) : (gs.map Generation.script).all Script.ok = false := by
  induction gs with
  | nil => cases h
  | cons g gs ih =>
    rw [exitsIn] at h
    rw [List.map_cons, List.all_cons, Generation.script]
    cases hg : g.result with
    | made =>
      rw [hg] at h
      rw [ih h, Bool.and_false]
    | failed => rfl
    | exited => rfl

theorem genOk_of_exits (h : dir.exits = true) : dir.genOk = false := by
  simp only [ConfDir.exits, Bool.and_eq_true, Bool.or_eq_true] at h
  obtain ⟨-, hmodes, h⟩ := h
  rw [ConfDir.genOk, List.map_append, List.map_append, List.all_append, List.all_append, hmodes]
  rcases h with (h | h) | h
  · simp [all_of_exitsIn h]
  · simp [all_of_exitsIn h]
  · simp [all_of_exitsIn h]

/-- Stages one after the other, up to the first that fails. -/
def chain : List (Bool × List ConfEvent) → List ConfEvent
  | [] => []
  | (ok, log) :: rest => log ++ if ok then chain rest else []

theorem chain_append (xs ys : List (Bool × List ConfEvent)) :
    chain (xs ++ ys) = chain xs ++ if xs.all Prod.fst then chain ys else [] := by
  induction xs with
  | nil => rfl
  | cons x xs ih =>
    obtain ⟨ok, log⟩ := x
    rw [List.cons_append, chain, chain, ih, List.all_cons]
    by_cases hok : ok = true
    · rw [if_pos hok, if_pos hok, hok, Bool.true_and, List.append_assoc]
    · rw [if_neg hok, if_neg hok, Bool.eq_false_iff.mpr hok, Bool.false_and, if_neg Bool.false_ne_true, List.append_nil,
        List.append_nil]

/-- The stages of a directory; `g` tells that test cases are generated. -/
def stages (g : Bool) : List (Bool × List ConfEvent) :=
  [(dir.envOk, envLog dir p), (dir.varsOk, varsLog dir p), (dir.checkOk, confCheckLog dir p), (dir.confOk, confLog dir p),
    (dir.sourced, sourceLog dir p)] ++ if g then [(dir.genOk, genLog dir p)] else []

theorem stages_all : (stages dir p false).all Prod.fst = (dir.envOk && dir.middleOk && dir.sourced) := by
  simp [stages, ConfDir.middleOk, Bool.and_assoc]

def failLog (b : Bool) : List ConfEvent := if b then [.fail p] else []

/-- How a directory ends. -/
def endLog (g : Bool) : List ConfEvent := if dir.exited g then [.exit p] else failLog p (dir.loud g)

theorem confLoop_go {o : ConfOpt} {f f' : Bool} {log : List ConfEvent} (h : confStep dir p child f o = (f', log, .go))
    (os : List ConfOpt) : confLoop dir p child (o :: os) f = log ++ confLoop dir p child os f' := by
  rw [confLoop, h]

theorem confLoop_leave {o : ConfOpt} {f f' : Bool} {log : List ConfEvent} (h : confStep dir p child f o = (f', log, .leave))
    (os : List ConfOpt) : confLoop dir p child (o :: os) f = log ++ failLog p f' := by
  rw [confLoop, h]
  rfl

theorem confLoop_giveUp {o : ConfOpt} {f f' : Bool} {log : List ConfEvent} (h : confStep dir p child f o = (f', log, .giveUp))
    (os : List ConfOpt) : confLoop dir p child (o :: os) f = log := by
  rw [confLoop, h]

theorem confLoop_exit {o : ConfOpt} {f f' : Bool} {log : List ConfEvent} (h : confStep dir p child f o = (f', log, .exit))
    (os : List ConfOpt) : confLoop dir p child (o :: os) f = log ++ [.exit p] := by
  rw [confLoop, h]

/-- The loop up to the generated files, with any options after them. -/
theorem confLoop_above (os : List ConfOpt) : confLoop dir p child (aboveOptions ++ os) false =
    chain (stages dir p false) ++
      if dir.envOk && dir.middleOk && dir.sourced then confLoop dir p child os false else failLog p (dir.loud false) := by
  have hs : confStep dir p child false .s = _ := confS_eq dir p false
  have hv : confStep dir p child false .v = _ := confV_eq dir p false
  have hk : confStep dir p child false .k = _ := confK_eq dir p false
  have hc : confStep dir p child false .c = _ := confC_eq dir p false
  have he : confStep dir p child false .e = _ := confE_eq dir p false
  simp only [aboveOptions, List.cons_append, List.nil_append]
  by_cases h₁ : dir.envOk = true
  · rw [h₁, if_pos rfl] at hs
    rw [confLoop_go dir p child hs]
    by_cases h₂ : dir.varsOk = true
    · rw [h₂, if_pos rfl, Bool.not_true, Bool.or_false] at hv
      rw [confLoop_go dir p child hv]
      by_cases h₃ : dir.checkOk = true
      · rw [h₃, if_pos rfl, Bool.not_true, Bool.or_false] at hk
        rw [confLoop_go dir p child hk]
        by_cases h₄ : dir.confOk = true
        · rw [h₄, if_pos rfl, Bool.not_true, Bool.or_false] at hc
          rw [confLoop_go dir p child hc]
          by_cases h₅ : dir.sourced = true
          · rw [h₅, if_pos rfl] at he
            rw [confLoop_go dir p child he]
            simp [stages, chain, ConfDir.middleOk, h₁, h₂, h₃, h₄, h₅]
          · rw [if_neg h₅] at he
            rw [confLoop_giveUp dir p child he]
            simp [stages, chain, ConfDir.middleOk, ConfDir.loud, failLog, h₁, h₂, h₃, h₄, h₅]
        · rw [if_neg h₄] at hc
          rw [confLoop_leave dir p child hc]
          simp [stages, chain, ConfDir.middleOk, ConfDir.loud, failLog, h₁, h₂, h₃, h₄]
      · rw [if_neg h₃] at hk
        rw [confLoop_leave dir p child hk]
        simp [stages, chain, ConfDir.middleOk, ConfDir.loud, failLog, h₁, h₂, h₃]
    · rw [if_neg h₂] at hv
      rw [confLoop_leave dir p child hv]
      simp [stages, chain, ConfDir.middleOk, ConfDir.loud, failLog, h₁, h₂]
  · rw [if_neg h₁] at hs
    rw [confLoop_giveUp dir p child hs]
    simp [stages, chain, ConfDir.loud, failLog, h₁]

/-- A directory above the start directory. -/
theorem confLoop_aboveOptions : confLoop dir p child aboveOptions false = chain (stages dir p false) ++ endLog dir p false := by
  have h := confLoop_above dir p child []
  have hend : endLog dir p false = failLog p (dir.loud false) := by simp [endLog, ConfDir.exited]
  rw [List.append_nil] at h
  rw [h, hend]
  by_cases hreach : (dir.envOk && dir.middleOk && dir.sourced) = true
  · rw [if_pos hreach]
    simp only [Bool.and_eq_true] at hreach
    simp [confLoop, ConfDir.loud, hreach, failLog]
  · rw [if_neg hreach]

/-- The start directory and below. -/
theorem confLoop_belowOptions : confLoop dir p child belowOptions false =
    chain (stages dir p true) ++ (if dir.enters then dir.subdirs.1.flatMap child else []) ++ endLog dir p true := by
  have hg : confStep dir p child false .g = _ := confG_eq dir p false
  have h := confLoop_above dir p child [.g, .r]
  have hb : belowOptions = aboveOptions ++ [ConfOpt.g, ConfOpt.r] := rfl
  have happ : stages dir p true = stages dir p false ++ [(dir.genOk, genLog dir p)] := rfl
  rw [hb, h, happ, chain_append, stages_all]
  by_cases hreach : (dir.envOk && dir.middleOk && dir.sourced) = true
  · have hgen : chain [(dir.genOk, genLog dir p)] = genLog dir p := by simp [chain]
    have hparts := hreach
    simp only [Bool.and_eq_true] at hparts
    obtain ⟨⟨henv, hmiddle⟩, hsourced⟩ := hparts
    rw [if_pos hreach, if_pos hreach, hgen, endLog, ConfDir.exited, ConfDir.enters, ConfDir.loud, hreach, henv, hmiddle, hsourced]
    by_cases h₆ : dir.static = true
    · cases h₇ : dir.exits with
      | true =>
        rw [h₇, if_pos h₆] at hg
        rw [confLoop_exit dir p child hg]
        simp
      | false =>
        rw [h₇, if_pos h₆] at hg
        rw [confLoop_go dir p child hg]
        simp [confLoop, confStep, h₆, failLog]
    · have hno : dir.exits = false := by
        rw [ConfDir.exits, Bool.eq_false_iff.mpr h₆, Bool.false_and]
      have hgen : dir.genOk = false := by
        rw [ConfDir.genOk, Bool.eq_false_iff.mpr h₆, Bool.false_and]
      rw [if_neg h₆, hno, if_neg Bool.false_ne_true, hgen] at hg
      rw [confLoop_leave dir p child hg]
      simp [h₆, hno, hgen, failLog]
  · have hnot : dir.enters = false := by
      rw [ConfDir.enters, Bool.eq_false_iff.mpr hreach, Bool.false_and]
    have hend : endLog dir p true = failLog p (dir.loud false) := by
      have hloud : dir.loud true = dir.loud false := by
        unfold ConfDir.loud
        cases h₁ : dir.envOk <;> cases h₂ : dir.middleOk <;> cases h₃ : dir.sourced <;> simp [h₁, h₂, h₃] at hreach ⊢
      rw [endLog, ConfDir.exited, Bool.eq_false_iff.mpr hreach, Bool.false_and, if_neg Bool.false_ne_true, hloud]
    rw [if_neg hreach, if_neg hreach, hnot, hend]
    simp

end

end ZfsTest.Stf
