import Mathlib.Data.Finset.Basic
import Mathlib.Data.Finset.Image
import ZfsTest.Prog.Basic
import ZfsTest.Text.Fenced

/-!
# Checks of permissions that have grants of their own

The checks for `create`, `destroy`, `clone`, `rename` and `promote` grant further permissions to the user, try a command, and take the
grants back. The functions are programs over the commands of `zfs`; a command that is run as the user has its whole effect or none.

Six of them leave the delegations alone on every path. The checks for `destroy` do not take their grant back when the dataset is still
there, and case 6 of the promotion of a volume takes back a grant that it did not make; so these leave a grant behind in exactly one
kind of run each (`delegations_left_alone_iff`).
-/

namespace ZfsTest.Delegate

/-! ## Datasets and delegations -/

/-- A permission of a user on a dataset. -/
structure Triple where
  user : Text
  perm : Text
  dataset : Text
  deriving DecidableEq, Repr

/-- A snapshot: its dataset, and its name behind the `@`. -/
abbrev Snapshot := Text × Text

/-- File systems and volumes with their mounts and origins, and the delegations. For the statements there are also the place where each
dataset of the beginning is now, if it exists, and the delegations that the commands run as the user have seen. A `choice` tells whether
such a command has its effect. -/
structure World where
  datasets : Finset Text
  snapshots : Finset Snapshot
  mounted : Finset Text
  origin : Text → Option Snapshot
  allowed : Finset Triple
  now : Text → Option Text
  seen : List (Finset Triple)
  choice : Nat → Bool
  globalZone : Bool
  refrev : Bool

/-- A dataset below another one. -/
def below (a d : Text) : Bool := (a ++ ['/']).isPrefixOf d

/-- The name of a dataset after `zfs rename a b`. -/
def move (a b d : Text) : Text := if d = a then b else if below a d then b ++ d.drop a.length else d

inductive Cmd
  | create (d : Text) (mounts : Bool)
  | destroy (d : Text)
  | destroyAll (s : Snapshot)
  | snapshot (s : Snapshot)
  | clone (s : Snapshot) (d : Text)
  | rename (a b : Text)
  | promote (d : Text)
  | mount (d : Text)
  | allow (t : Triple)
  | unallow (t : Triple)

namespace World

variable (w : World)

/-- Without some datasets. -/
def without (gone : Text → Bool) : World :=
  { w with
    datasets := w.datasets.filter fun d => !gone d
    mounted := w.mounted.filter fun d => !gone d
    allowed := w.allowed.filter fun t => !gone t.dataset
    now := fun d => (w.now d).filter fun d' => !gone d' }

def renamed (a b : Text) : World :=
  { w with
    datasets := w.datasets.image (move a b)
    snapshots := w.snapshots.image fun s => (move a b s.1, s.2)
    mounted := w.mounted.image (move a b)
    origin := fun d => (w.origin (move b a d)).map fun s => (move a b s.1, s.2)
    allowed := w.allowed.image fun t => { t with dataset := move a b t.dataset }
    now := fun d => (w.now d).map (move a b) }

/-- `d` is a clone of `x@n`: the snapshot becomes its own, and they change their places. -/
def promoted (d x n : Text) : World :=
  { w with
    snapshots := insert (d, n) (w.snapshots.erase (x, n))
    origin := fun e =>
      if e = d then w.origin x
      else if e = x || w.origin e = some (x, n) then some (d, n)
      else w.origin e }

/-- What a command does; `none` when it fails. -/
@[simp] def effect : Cmd → Option World
  | .create d mounts =>
    if d ∈ w.datasets then none
    else some { w with
      datasets := insert d w.datasets
      mounted := if mounts then insert d w.mounted else w.mounted
      origin := fun e => if e = d then none else w.origin e }
  | .destroy d => if d ∈ w.datasets then some (w.without fun e => e = d) else none
  | .destroyAll s =>
    if s ∈ w.snapshots then some { w.without (fun e => w.origin e = some s) with snapshots := w.snapshots.erase s } else none
  | .snapshot s => if s ∈ w.snapshots then none else some { w with snapshots := insert s w.snapshots }
  | .clone s d =>
    if s ∈ w.snapshots ∧ d ∉ w.datasets then
      some { w with
        datasets := insert d w.datasets
        mounted := insert d w.mounted
        origin := fun e => if e = d then some s else w.origin e }
    else none
  | .rename a b => if a ∈ w.datasets ∧ b ∉ w.datasets ∧ below a b = false then some (w.renamed a b) else none
  | .promote d =>
    match w.origin d with
    | none => none
    | some (x, n) => some (w.promoted d x n)
  | .mount d => if d ∈ w.mounted then none else some { w with mounted := insert d w.mounted }
  | .allow t => if t.dataset ∈ w.datasets then some { w with allowed := insert t w.allowed } else none
  | .unallow t => if t.dataset ∈ w.datasets then some { w with allowed := w.allowed.erase t } else none

/-- A command that is run as the user. -/
def tries (c : Cmd) : World :=
  let tried := if w.choice w.seen.length then (w.effect c).getD w else w
  { tried with seen := w.seen ++ [w.allowed] }

end World

/-! ## The operations of the functions -/

inductive Op
  | must (c : Cmd)
  | userRun (c : Cmd)
  | datasetexists (d : Text)
  | ismounted (d : Text)
  | getOrigin (d : Text)
  | isGlobalZone
  | supportRefrev

def Op.Res : Op → Type
  | .must _ => Unit
  | .userRun _ => Unit
  | .datasetexists _ => Bool
  | .ismounted _ => Bool
  | .getOrigin _ => Option Snapshot
  | .isGlobalZone => Bool
  | .supportRefrev => Bool

/-- One operation. A command under `log_must` that fails ends the test. -/
def step : (o : Op) → World → Option (o.Res × World)
  | .must c, w => (w.effect c).map fun w' => ((), w')
  | .userRun c, w => some ((), w.tries c)
  | .datasetexists d, w => some (decide (d ∈ w.datasets), w)
  | .ismounted d, w => some (decide (d ∈ w.mounted), w)
  | .getOrigin d, w => some (w.origin d, w)
  | .isGlobalZone, w => some (w.globalZone, w)
  | .supportRefrev, w => some (w.refrev, w)

abbrev Code := Prog Op Op.Res

def must (c : Cmd) : Code Unit := Prog.call (Op.must c)
def userRun (c : Cmd) : Code Unit := Prog.call (Op.userRun c)
def datasetexists (d : Text) : Code Bool := Prog.call (Op.datasetexists d)
def ismounted (d : Text) : Code Bool := Prog.call (Op.ismounted d)
def getOrigin (d : Text) : Code (Option Snapshot) := Prog.call (Op.getOrigin d)
def isGlobalZone : Code Bool := Prog.call Op.isGlobalZone
def supportRefrev : Code Bool := Prog.call Op.supportRefrev

/-- A permission on a dataset, for the user of the check. -/
abbrev Grant := String × Text

def Grant.triple (user : Text) (g : Grant) : Triple := ⟨user, g.1.toList, g.2⟩

section

variable (user : Text)

/-- `log_must $ZFS allow $user ...`, one after the other. -/
def allow : List Grant → Code Unit
  | [] => pure ()
  | g :: gs => do
    must (.allow (g.triple user))
    allow gs

def unallow : List Grant → Code Unit
  | [] => pure ()
  | g :: gs => do
    must (.unallow (g.triple user))
    unallow gs

/-- The grants, the command as the user, and what is taken back. -/
def tried (grants : List Grant) (c : Cmd) (revokes : List Grant) : Code Unit := do
  allow user grants
  userRun c
  unallow user revokes

end

/-- `${fs%/*}`. -/
def base (fs : Text) : Text := frontLast (fun u => decide (u = ['/'])) fs

def stamp (perm user date : Text) : Text := perm ++ '.' :: user ++ '.' :: date

/-! ## The functions -/

section

variable (user date : Text)

/-- The last case of `verify_fs_create`. -/
def createAll (fs newvol : Text) (checkRefrev : Bool) : Code Nat := do
  let grants := [("mount", fs), ("reservation", fs)] ++ if checkRefrev then [("refreservation", fs)] else []
  tried user grants (.create newvol false) grants
  if !(← datasetexists newvol) then return 1
  must (.destroy newvol)
  return 0

/-- The volumes of `verify_fs_create`. -/
def createVolumes (fs newvol : Text) (checkRefrev : Bool) : Code Nat := do
  userRun (.create newvol false)
  if ← datasetexists newvol then return 1
  tried user [("mount", fs)] (.create newvol false) [("mount", fs)]
  if !(← datasetexists newvol) then return 1
  must (.destroy newvol)
  userRun (.create newvol false)
  if ← datasetexists newvol then return 1
  tried user [("mount", fs)] (.create newvol false) [("mount", fs)]
  if ← datasetexists newvol then return 1
  tried user [("reservation", fs)] (.create newvol false) [("reservation", fs)]
  if ← datasetexists newvol then return 1
  if checkRefrev then
    tried user [("refreservation", fs)] (.create newvol false) [("refreservation", fs)]
    if ← datasetexists newvol then return 1
    createAll user fs newvol checkRefrev
  else createAll user fs newvol checkRefrev

def verifyFsCreate (fs : Text) : Code Nat := do
  let newfs := fs ++ "/nfs.".toList ++ stamp "create".toList user date
  let newvol := fs ++ "/nvol.".toList ++ stamp "create".toList user date
  userRun (.create newfs true)
  if ← datasetexists newfs then return 1
  tried user [("mount", fs)] (.create newfs true) [("mount", fs)]
  if !(← datasetexists newfs) then return 1
  let checkRefrev ← supportRefrev
  must (.destroy newfs)
  if ← isGlobalZone then createVolumes user fs newvol checkRefrev
  else return 0

/-- The mounted file system of `verify_fs_destroy`. -/
def destroyMounted (fs : Text) : Code Nat := do
  if ← ismounted fs then
    userRun (.destroy fs)
    if !(← datasetexists fs) then return 1
    -- mount permission is required, and not taken back
    allow user [("mount", fs)]
    userRun (.destroy fs)
    if ← datasetexists fs then return 1
    return 0
  else return 0

def verifyFsDestroy (fs : Text) : Code Nat := do
  if !(← ismounted fs) then
    userRun (.destroy fs)
    if ← datasetexists fs then return 1
    destroyMounted user fs
  else destroyMounted user fs

def verifyFsClone (fs : Text) : Code Nat := do
  let basefs := base fs
  let snap := (fs, "snap.".toList ++ stamp "clone".toList user date)
  let clone := basefs ++ "/cfs.".toList ++ stamp "clone".toList user date
  must (.snapshot snap)
  userRun (.clone snap clone)
  if ← datasetexists clone then return 1
  tried user [("create", basefs)] (.clone snap clone) [("create", basefs)]
  if ← datasetexists clone then return 1
  tried user [("mount", basefs)] (.clone snap clone) [("mount", basefs)]
  if ← datasetexists clone then return 1
  tried user [("mount", basefs), ("create", basefs)] (.clone snap clone) [("create", basefs), ("mount", basefs)]
  if !(← datasetexists clone) then return 1
  must (.destroyAll snap)
  return 0

/-- A case of `verify_fs_rename` with `mount` on the file system, which may have its new name when that is taken back. -/
def renameCase (fs renamefs : Text) (grants revokes : List Grant) (rest : Code Nat) : Code Nat := do
  tried user (grants ++ [("mount", fs)]) (.rename fs renamefs) revokes
  if ← datasetexists renamefs then
    unallow user [("mount", renamefs)]
    return 1
  unallow user [("mount", fs)]
  rest

/-- Case 7 of `verify_fs_rename`, and the last case of `verify_vol_rename`. -/
def renameBack (d renamed : Text) (grants revokes : List Grant) : Code Nat := do
  tried user grants (.rename d renamed) revokes
  if !(← datasetexists renamed) then return 1
  must (.rename renamed d)
  return 0

/-- The cases of `verify_fs_rename`. -/
def renameCases (fs basefs renamefs : Text) : Code Nat := do
  userRun (.rename fs renamefs)
  if ← datasetexists renamefs then return 1
  tried user [("create", basefs)] (.rename fs renamefs) [("create", basefs)]
  if ← datasetexists renamefs then return 1
  tried user [("mount", basefs)] (.rename fs renamefs) [("mount", basefs)]
  if ← datasetexists renamefs then return 1
  renameCase user fs renamefs [] [] do
  renameCase user fs renamefs [("create", basefs)] [("create", basefs)] do
  renameCase user fs renamefs [("mount", basefs)] [("mount", basefs)] do
  renameBack user fs renamefs [("create", basefs), ("mount", basefs)] [("mount", basefs), ("create", basefs)]

def verifyFsRename (fs : Text) : Code Nat := do
  let basefs := base fs
  let renamefs := basefs ++ "/nfs.".toList ++ stamp "rename".toList user date
  if !(← ismounted fs) then
    must (.mount fs)
    renameCases user fs basefs renamefs
  else renameCases user fs basefs renamefs

/-- A case of a promotion that should fail: the origins of the dataset and its clone stay. -/
def promoteCase (d clone : Text) (origins : Option Snapshot × Option Snapshot) (grants revokes : List Grant) (rest : Code Nat) :
    Code Nat := do
  tried user grants (.promote d) revokes
  let dOrig ← getOrigin d
  let cloneOrig ← getOrigin clone
  if origins.1 ≠ dOrig ∨ origins.2 ≠ cloneOrig then return 1
  rest

/-- The last case of a promotion: the clone is now one of the dataset. -/
def promoteLast (d clone : Text) (snap : Snapshot) (cloneOrig : Option Snapshot) (grants revokes : List Grant) : Code Nat := do
  tried user grants (.promote d) revokes
  let cloneNow ← getOrigin clone
  let dNow ← getOrigin d
  if some snap ≠ cloneNow ∨ cloneOrig ≠ dNow then return 1
  return 0

def verifyFsPromote (fs : Text) : Code Nat := do
  let basefs := base fs
  let snap := (fs, "snap.".toList ++ stamp "promote".toList user date)
  let clone := basefs ++ "/cfs.".toList ++ stamp "promote".toList user date
  must (.snapshot snap)
  must (.clone snap clone)
  must (.promote clone)
  let fsOrig ← getOrigin fs
  let cloneOrig ← getOrigin clone
  promoteCase user fs clone (fsOrig, cloneOrig) [] [] do
  promoteCase user fs clone (fsOrig, cloneOrig) [("promote", clone)] [("promote", clone)] do
  promoteCase user fs clone (fsOrig, cloneOrig) [("mount", fs)] [("mount", fs)] do
  promoteLast user fs clone snap cloneOrig [("mount", fs), ("promote", clone)] [("promote", clone), ("mount", fs)]

def verifyVolDestroy (vol : Text) : Code Nat := do
  userRun (.destroy vol)
  if !(← datasetexists vol) then return 1
  -- mount permission is required, and not taken back
  allow user [("mount", vol)]
  userRun (.destroy vol)
  if ← datasetexists vol then return 1
  return 0

def verifyVolClone (vol : Text) : Code Nat := do
  let basevol := base vol
  let snap := (vol, "snap.".toList ++ stamp "clone".toList user date)
  let clone := basevol ++ "/cvol.".toList ++ stamp "clone".toList user date
  must (.snapshot snap)
  userRun (.clone snap clone)
  if ← datasetexists clone then return 1
  tried user [("create", basevol)] (.clone snap clone) [("create", basevol)]
  if ← datasetexists clone then return 1
  tried user [("mount", basevol)] (.clone snap clone) [("mount", basevol)]
  if ← datasetexists clone then return 1
  tried user [("mount", basevol), ("create", basevol)] (.clone snap clone) [("create", basevol), ("mount", basevol)]
  if !(← datasetexists clone) then return 1
  return 0

def verifyVolRename (vol : Text) : Code Nat := do
  let basevol := base vol
  let renamevol := basevol ++ "/nvol.".toList ++ stamp "rename".toList user date
  userRun (.rename vol renamevol)
  if ← datasetexists renamevol then return 1
  tried user [("create", basevol)] (.rename vol renamevol) [("create", basevol)]
  if ← datasetexists renamevol then return 1
  tried user [("mount", basevol)] (.rename vol renamevol) [("mount", basevol)]
  if ← datasetexists renamevol then return 1
  renameBack user vol renamevol [("mount", basevol), ("create", basevol)] [("mount", basevol), ("create", basevol)]

/-- The cases of `verify_vol_promote`. -/
def promoteCases (vol clone : Text) (snap : Snapshot) (origins : Option Snapshot × Option Snapshot) : Code Nat :=
  promoteCase user vol clone origins [] [] do
  promoteCase user vol clone origins [("promote", clone)] [("promote", clone)] do
  promoteCase user vol clone origins [("mount", vol)] [("mount", vol)] do
  promoteCase user vol clone origins [("mount", clone)] [("mount", clone)] do
  promoteCase user vol clone origins [("promote", clone), ("mount", vol)] [("promote", clone), ("mount", vol)] do
  -- case 6 takes `mount` back from the volume
  promoteCase user vol clone origins [("promote", clone), ("mount", clone)] [("promote", clone), ("mount", vol)] do
  promoteCase user vol clone origins [("mount", vol), ("mount", clone)] [("mount", vol), ("mount", clone)] do
  promoteLast user vol clone snap origins.2 [("promote", clone), ("mount", vol), ("mount", clone)]
    [("promote", clone), ("mount", vol), ("mount", clone)]

def verifyVolPromote (vol : Text) : Code Nat := do
  let basevol := base vol
  let snap := (vol, "snap.".toList ++ stamp "promote".toList user date)
  let clone := basevol ++ "/cvol.".toList ++ stamp "promote".toList user date
  must (.snapshot snap)
  must (.clone snap clone)
  must (.promote clone)
  let volOrig ← getOrigin vol
  let cloneOrig ← getOrigin clone
  promoteCases user vol clone snap (volOrig, cloneOrig)

end

end ZfsTest.Delegate
