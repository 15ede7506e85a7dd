import Mathlib.Data.List.Flatten
import ZfsTest.Stf.Suite

/-!
# One mode of a run of `stf_execute`

`stf_execute` sets up the directories between the suite root and the start directory, executes the start directory and what is
below it, and cleans up the directories above again, from a list that is built while they are set up. Each of the three calls
`stf_executeindir` with other options. What the scripts do is not modelled: a script succeeds or fails, and the log tells which
scripts and test cases have been run, and in which order. All directories have a description and take part in the mode, and there
are no remote systems (`MSTF_ROLES`).

`executeMode` follows the three loops; `nested` is the same run with the cleanup of each directory where its setup is
(`executeMode_eq`), and the lemmas about the loop over the options say what a directory runs.
-/

namespace ZfsTest.Stf

/-! ## Directories -/

/-- What `stf_executeindir` finds in a directory. `failMark` is the file `FAIL` of a prior configuration failure, `vars` tells that
the environment files and the configuration files can be read, `configured` that the static test cases have been configured. -/
structure Dir where
  failMark : Bool
  vars : Bool
  rootCheckenv : List Script
  userCheckenv : List Script
  rootSetup : List Script
  userSetup : List Script
  configured : Bool
  rootTestcases : List Name
  userTestcases : List Name
  subdirs : { l : List Name // l.Nodup }
  userCleanup : List Script
  rootCleanup : List Script

def Dir.checkenvs (dir : Dir) : List Script := dir.rootCheckenv ++ dir.userCheckenv
def Dir.setups (dir : Dir) : List Script := dir.rootSetup ++ dir.userSetup
def Dir.testcases (dir : Dir) : List Name := dir.rootTestcases ++ dir.userTestcases
def Dir.cleanups (dir : Dir) : List Script := dir.userCleanup ++ dir.rootCleanup

/-- A directory without scripts. -/
def Dir.empty : Dir := ⟨false, true, [], [], [], [], true, [], [], ⟨[], List.nodup_nil⟩, [], []⟩

def Tree.dir : Tree Dir → Dir
  | .missing => .empty
  | .node dir _ => dir

inductive Event
  | checkenv (p : Path) (s : Script)
  | enterSetup (p : Path)
  | setup (p : Path) (s : Script)
  | test (p : Path) (name : Name)
  | cleanup (p : Path) (s : Script)
  deriving DecidableEq, Repr

def Event.path : Event → Path
  | .checkenv p _ | .enterSetup p | .setup p _ | .test p _ | .cleanup p _ => p

/-- A checkenv, setup or cleanup script that fails. -/
def Event.failed : Event → Bool
  | .checkenv _ s | .setup _ s | .cleanup _ s => !s.ok
  | .enterSetup _ | .test _ _ => false

/-- What the options and the test list select: whether there is a recursion, which subdirectories it enters, and which test cases of
a directory run. -/
structure Selection where
  recurse : Bool
  visits : Path → Name → Bool
  runs : Path → Name → Bool

/-! ## `stf_executeindir` -/

inductive Opt
  | v | k | s | e | r | c
  deriving DecidableEq, Repr

/-- The variables of the loop over the options. -/
structure Flags where
  failed : Bool
  noexec : Bool
  norecurse : Bool

/-- What an option does: the variables after it, what has been run, and whether the loop goes on. -/
abbrev Outcome := Flags × List Event × Bool

section

variable (sel : Selection) (dir : Dir) (p : Path) (child : Name → Bool × List Event)

def optV (f : Flags) : Outcome := if dir.vars then (f, [], true) else ({ f with failed := true }, [], false)

def optK (f : Flags) : Outcome :=
  let (ok, log) := runUntil (.checkenv p) dir.checkenvs
  if ok then (f, log, true) else ({ f with failed := true }, log, false)

/-- User setups are not run after a failure. -/
def optS (f : Flags) : Outcome :=
  let (ok, log) := runUntil (.setup p) dir.rootSetup
  let f := if ok then f else ⟨true, true, true⟩
  if f.failed then (f, .enterSetup p :: log, true)
  else
    let (ok, log') := runUntil (.setup p) dir.userSetup
    (if ok then f else ⟨true, true, true⟩, .enterSetup p :: (log ++ log'), true)

/-- `testcaseExtract -e`. -/
def optE (f : Flags) : Outcome :=
  if f.noexec then (f, [], true)
  else if dir.configured then (f, (dir.testcases.filter (sel.runs p)).map (.test p), true)
  else ({ f with failed := true }, [], true)

def optR (f : Flags) : Outcome :=
  if f.norecurse then (f, [], true)
  else
    let runs := (dir.subdirs.1.filter (sel.visits p)).map child
    ({ f with failed := f.failed || runs.any Prod.fst }, runs.flatMap Prod.snd, true)

def optC (f : Flags) : Outcome :=
  ({ f with failed := f.failed || dir.cleanups.any fun s => !s.ok }, dir.cleanups.map (.cleanup p), true)

def optStep (f : Flags) : Opt → Outcome
  | .v => optV dir f
  | .k => optK dir p f
  | .s => optS dir p f
  | .e => optE sel dir p f
  | .r => optR sel dir p child f
  | .c => optC dir p f

def optionLoop : List Opt → Flags → Bool × List Event
  | [], f => (f.failed, [])
  | o :: os, f =>
    let (f, log, go) := optStep sel dir p child f o
    if go then ((optionLoop os f).1, log ++ (optionLoop os f).2) else (f.failed, log)

/-- Whether something has failed, and what has been run. -/
def inDir (opts : List Opt) : Bool × List Event :=
  if dir.failMark then (true, []) else optionLoop sel dir p child opts ⟨false, false, false⟩

end

def executeindir (sel : Selection) (opts : List Opt) : Tree Dir → Path → Bool × List Event
  | .missing, _ => (false, [])
  | .node dir sub, p => inDir sel dir p (fun name => executeindir sel opts (sub name) (p ++ [name])) opts

/-! ## `stf_execute` -/

/-- `stf_reverse_parentdirs`, whether there was a failure, and what has been run. -/
structure Mode where
  reverseParentdirs : List Path
  failed : Bool
  log : List Event

section

variable (sel : Selection) (root : Tree Dir)

/-- A directory is put on the list before its setup. -/
def setupParents : List Path → Mode → Mode
  | [], m => m
  | p :: ps, m =>
    let (failed, log) := executeindir sel [.v, .k, .s] (root.at p) p
    let m := { m with reverseParentdirs := p :: m.reverseParentdirs, log := m.log ++ log }
    if failed then { m with failed := true } else setupParents ps m

def cleanupParents (ps : List Path) (x : Bool × List Event) : Bool × List Event :=
  ps.foldl (fun x p =>
    let (failed, log) := executeindir sel [.c] (root.at p) p
    (x.1 || failed, x.2 ++ log)) x

/-- The options for the start directory. -/
def startOptions : List Opt := if sel.recurse then [.v, .k, .s, .e, .r, .c] else [.v, .k, .s, .e, .c]

/-- The start directory, unless something has failed before. -/
def executeStart (start : Path) (m : Mode) : Bool × List Event :=
  if m.failed then (true, m.log)
  else
    let (failed, log) := executeindir sel (startOptions sel) (root.at start) start
    (failed, m.log ++ log)

/-- The exit status of the mode, and what has been run. -/
def executeMode (start : Path) : Nat × List Event :=
  let m := setupParents sel root (parentdirs start) ⟨[], false, []⟩
  let (failed, log) := cleanupParents sel root m.reverseParentdirs (executeStart sel root start m)
  (if failed then 1 else 0, log)

end

/-- What comes before the setup of a directory succeeds. -/
def Dir.reachesSetup (dir : Dir) : Bool := dir.vars && dir.checkenvs.all Script.ok

/-! ## What a directory does -/

section

variable (sel : Selection) (dir : Dir) (p : Path) (child : Name → Bool × List Event)

/-- What `-k` runs. -/
def checkLog : List Event := (runUntil (.checkenv p) dir.checkenvs).2

/-- What `-s` runs. -/
def setupLog : List Event := .enterSetup p :: (runUntil (.setup p) dir.setups).2

/-- What `-v`, `-k` and `-s` run. -/
def headLog : List Event :=
  if dir.vars then (if dir.checkenvs.all Script.ok then checkLog dir p ++ setupLog dir p else checkLog dir p) else []

def cleanupLog : List Event := dir.cleanups.map (.cleanup p)

theorem optS_eq (f : Flags) (hf : f.failed = false) :
    optS dir p f = (if dir.setups.all Script.ok then f else ⟨true, true, true⟩, setupLog dir p, true) := by
  have happ := runUntil_append (Event.setup p) dir.rootSetup dir.userSetup
  have hroot := runUntil_fst (Event.setup p) dir.rootSetup
  have huser := runUntil_fst (Event.setup p) dir.userSetup
  unfold optS setupLog
  rw [Dir.setups, happ, List.all_append]
  cases hr : dir.rootSetup.all Script.ok with
  | false =>
    rw [hr] at hroot
    simp [hroot]
  | true =>
    rw [hr] at hroot
    simp [hroot, huser, hf]

theorem headLog_of_reaches {dir : Dir} (h : dir.reachesSetup = true) : headLog dir p = checkLog dir p ++ setupLog dir p := by
  rw [Dir.reachesSetup, Bool.and_eq_true] at h
  rw [headLog, if_pos h.1, if_pos h.2]

theorem headLog_of_not_reaches {dir : Dir} (h : dir.reachesSetup = false) :
    headLog dir p = if dir.vars then checkLog dir p else [] := by
  rw [Dir.reachesSetup, Bool.and_eq_false_iff] at h
  unfold headLog
  rcases h with h | h
  · simp [h]
  · simp [h]

variable {sel dir p child} in
theorem optionLoop_go {f f' : Flags} {o : Opt} {log : List Event} (h : optStep sel dir p child f o = (f', log, true)) (os : List Opt) :
    optionLoop sel dir p child (o :: os) f =
      ((optionLoop sel dir p child os f').1, log ++ (optionLoop sel dir p child os f').2) := by
  rw [optionLoop, h]
  rfl

variable {sel dir p child} in
theorem optionLoop_stop {f f' : Flags} {o : Opt} {log : List Event} (h : optStep sel dir p child f o = (f', log, false))
    (os : List Opt) : optionLoop sel dir p child (o :: os) f = (f'.failed, log) := by
  rw [optionLoop, h]
  rfl

/-- The variables after the setup. -/
def setupFlags : Flags := if dir.setups.all Script.ok then ⟨false, false, false⟩ else ⟨true, true, true⟩

/-- The loop over the options, up to the setup. -/
theorem optionLoop_vks (os : List Opt) : optionLoop sel dir p child (.v :: .k :: .s :: os) ⟨false, false, false⟩ =
    if dir.reachesSetup then
      ((optionLoop sel dir p child os (setupFlags dir)).1,
        headLog dir p ++ (optionLoop sel dir p child os (setupFlags dir)).2)
    else (true, headLog dir p) := by
  have hk := runUntil_fst (Event.checkenv p) dir.checkenvs
  by_cases hv : dir.vars = true
  · have hv' : optStep sel dir p child ⟨false, false, false⟩ .v = (⟨false, false, false⟩, [], true) := if_pos hv
    rw [optionLoop_go hv', List.nil_append]
    by_cases hc : dir.checkenvs.all Script.ok = true
    · have hk' : optStep sel dir p child ⟨false, false, false⟩ .k = (⟨false, false, false⟩, checkLog dir p, true) := by
        rw [hc] at hk
        simp [optStep, optK, hk, checkLog]
      have hs' : optStep sel dir p child ⟨false, false, false⟩ .s = (setupFlags dir, setupLog dir p, true) :=
        optS_eq dir p ⟨false, false, false⟩ rfl
      have hreach : dir.reachesSetup = true := by rw [Dir.reachesSetup, hv, hc, Bool.and_self]
      rw [optionLoop_go hk', optionLoop_go hs', if_pos hreach, headLog_of_reaches p hreach, List.append_assoc]
    · rw [Bool.not_eq_true] at hc
      have hk' : optStep sel dir p child ⟨false, false, false⟩ .k = (⟨true, false, false⟩, checkLog dir p, false) := by
        rw [hc] at hk
        simp [optStep, optK, hk, checkLog]
      have hreach : dir.reachesSetup = false := by rw [Dir.reachesSetup, hc, Bool.and_false]
      rw [optionLoop_stop hk', hreach, headLog_of_not_reaches p hreach, if_pos hv]
      rfl
  · rw [Bool.not_eq_true] at hv
    have hv' : optStep sel dir p child ⟨false, false, false⟩ .v = (⟨true, false, false⟩, [], false) := by
      simp [optStep, optV, hv]
    have hreach : dir.reachesSetup = false := by rw [Dir.reachesSetup, hv, Bool.false_and]
    rw [optionLoop_stop hv', hreach, headLog_of_not_reaches p hreach, hv]
    rfl

theorem executeindir_node (opts : List Opt) (sub : Name → Tree Dir) : executeindir sel opts (.node dir sub) p =
    inDir sel dir p (fun name => executeindir sel opts (sub name) (p ++ [name])) opts := rfl

/-- A directory above the start directory before the tests. -/
theorem executeindir_vks (sub : Name → Tree Dir) : executeindir sel [.v, .k, .s] (.node dir sub) p =
    if dir.failMark then (true, []) else (!(dir.reachesSetup && dir.setups.all Script.ok), headLog dir p) := by
  rw [executeindir_node, inDir, optionLoop_vks]
  split
  · rfl
  · unfold setupFlags
    cases dir.reachesSetup <;> cases dir.setups.all Script.ok <;> simp [optionLoop]

/-- A directory above the start directory after the tests. -/
theorem executeindir_c (sub : Name → Tree Dir) : executeindir sel [.c] (.node dir sub) p =
    if dir.failMark then (true, []) else (dir.cleanups.any fun s => !s.ok, cleanupLog dir p) := by
  rw [executeindir_node, inDir]
  split
  · rfl
  · simp [optionLoop, optStep, optC, cleanupLog]

/-- The test cases that run, the subdirectories that are entered, and whether one of them fails. -/
def testLog : List Event := (dir.testcases.filter (sel.runs p)).map (.test p)
def subRuns : List (Bool × List Event) := if sel.recurse then (dir.subdirs.1.filter (sel.visits p)).map child else []

/-- What follows the setup in the start directory and below it. -/
theorem optionLoop_rest (hs : dir.setups.all Script.ok = true) :
    optionLoop sel dir p child ((startOptions sel).drop 3) (setupFlags dir) =
      (!dir.configured || (subRuns sel dir p child).any Prod.fst || dir.cleanups.any fun s => !s.ok,
        (if dir.configured then testLog sel dir p else []) ++ (subRuns sel dir p child).flatMap Prod.snd ++ cleanupLog dir p) := by
  rw [setupFlags, if_pos hs, startOptions, subRuns]
  cases sel.recurse <;> cases hc : dir.configured <;>
    simp only [optionLoop, optStep, optE, optR, optC, hc, testLog, cleanupLog, List.drop_succ_cons, List.drop_zero, if_true,
      Bool.false_eq_true, if_false, Bool.false_or, Bool.true_or, Bool.not_true, Bool.not_false, List.any_nil,
      List.flatMap_nil, List.append_nil, List.nil_append, List.append_assoc]

/-- What follows a setup that has failed. -/
theorem optionLoop_failed (hs : dir.setups.all Script.ok = false) :
    optionLoop sel dir p child ((startOptions sel).drop 3) (setupFlags dir) = (true, cleanupLog dir p) := by
  rw [setupFlags, hs, startOptions]
  cases sel.recurse <;>
    simp only [optionLoop, optStep, optE, optR, optC, cleanupLog, List.drop_succ_cons, List.drop_zero, if_true,
      Bool.false_eq_true, if_false, Bool.true_or, List.append_nil, List.nil_append]

theorem startOptions_eq : startOptions sel = .v :: .k :: .s :: (startOptions sel).drop 3 := by
  unfold startOptions
  split <;> rfl

end

/-! ## The directories above -/

section

variable (sel : Selection) (root : Tree Dir)

/-- The same run, with the cleanup of each directory where its setup is. -/
def nested (p : Path) : List Name → Bool × List Event
  | [] => executeindir sel (startOptions sel) (root.at p) p
  | n :: ns =>
    let above := executeindir sel [.v, .k, .s] (root.at p) p
    let inner := if above.1 then (true, []) else nested (p ++ [n]) ns
    let cleanup := executeindir sel [.c] (root.at p) p
    (inner.1 || cleanup.1, above.2 ++ (inner.2 ++ cleanup.2))

theorem cleanupParents_cons (p : Path) (ps : List Path) (x : Bool × List Event) : cleanupParents sel root (p :: ps) x =
    cleanupParents sel root ps
      (x.1 || (executeindir sel [.c] (root.at p) p).1, x.2 ++ (executeindir sel [.c] (root.at p) p).2) := rfl

theorem cleanup_setupParents (ns : List Name) : ∀ (p : Path) (m : Mode), m.failed = false →
    cleanupParents sel root (setupParents sel root (parentsFrom p ns) m).reverseParentdirs
        (executeStart sel root (p ++ ns) (setupParents sel root (parentsFrom p ns) m)) =
      cleanupParents sel root m.reverseParentdirs ((nested sel root p ns).1, m.log ++ (nested sel root p ns).2) := by
  induction ns with
  | nil =>
    intro p m hm
    rw [parentsFrom, setupParents, executeStart, hm, List.append_nil]
    rfl
  | cons n ns ih =>
    intro p m hm
    rw [parentsFrom, setupParents, nested]
    simp only
    split
    · rw [executeStart, if_pos rfl, cleanupParents_cons]
      simp only [List.append_assoc, List.nil_append]
    · have hcons : p ++ n :: ns = (p ++ [n]) ++ ns := by rw [List.append_assoc, List.singleton_append]
      have hrest := ih (p ++ [n])
        ⟨p :: m.reverseParentdirs, m.failed, m.log ++ (executeindir sel [.v, .k, .s] (root.at p) p).2⟩ hm
      rw [hcons, hrest, cleanupParents_cons]
      simp only [List.append_assoc]

theorem executeMode_eq (start : Path) : executeMode sel root start =
    (if (nested sel root [] start).1 then 1 else 0, (nested sel root [] start).2) := by
  have h := cleanup_setupParents sel root start [] ⟨[], false, []⟩ rfl
  rw [List.nil_append] at h
  unfold executeMode parentdirs
  simp only [h]
  rfl

end

end ZfsTest.Stf
