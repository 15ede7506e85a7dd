import ZfsTest.Shell.Fields
import ZfsTest.Stf.Wordlist

/-!
# Checks of file contents, `compare_cksum` and `check_files`

Both compare sums that they get from a function by a command substitution. The functions `get_cksum` and `getsum` give the sum to
`return`, and print nothing, so all the sums that are compared are empty. `compare_cksum` then sees missing files only. So does
`check_files` for the first two snapshots; for the third it compares the word `sum2` instead of the variable, and always fails.

Both are right exactly when a file is missing that has to be there (or there that has to be missing), or when the contents happen to
be as the check says (`corruption_seen_iff`).
-/

namespace ZfsTest.Fs

open Shell
open Stf (isIfs)

/-- What a function leaves: the text that it prints, and its status. -/
structure Ran where
  out : Text
  status : Nat
  deriving DecidableEq, Repr

/-- `return` with a number, of which the shell keeps eight bits. -/
def returnText (t : Text) : Ran := ⟨[], t.foldl (fun n c => 10 * n + (c.toNat - '0'.toNat)) 0 % 256⟩

/-- `[[ a != b ]]`, where `b` is not quoted. -/
def differs (a b : Text) : Bool := !glob b a

theorem differs_nil (a : Text) : differs a [] = true ↔ a ≠ [] := by
  rw [differs, Bool.not_eq_true', ← Bool.not_eq_true, Glob.glob_nil]

variable {α : Type}

/-- What an unquoted word stands for when the files are `files`: itself, or files that exist. -/
structure Pathnames (files : Text → Option α) extends Directory where
  exist : ∀ w, names w = [w] ∨ names w ≠ [] ∧ ∀ p ∈ names w, (files p).isSome

section Cksum

-- The files, the names in them, and the output of `cksum`: the sum and the size.
variable (files : Text → Option α) (dir : Pathnames files) (cksum : α → Text × Text)

def getCksum (file : Text) : Ran :=
  match files file with
  | some a => returnText ((cksum a).1 ++ (cksum a).2)
  | none => returnText []

/-- `bad_data_list` and `bad_count`. -/
structure Bad where
  list : Text
  count : Nat
  deriving DecidableEq, Repr

def Bad.add (b : Bad) (data : Text) : Bad := ⟨b.list ++ ' ' :: data, b.count + 1⟩

def compareOne (origSum : Text) (b : Bad) (data : Text) : Bad :=
  match files data with
  | none => b.add data
  | some _ => if differs (getCksum files cksum data).out origSum then b.add data else b

/-- The arguments of `log_fail`, if it is called. -/
def compareCksum (orig : Text) (targets : List Text) : Option (List Text) :=
  let origSum := (getCksum files cksum orig).out
  let b := ((targets.flatMap (words isIfs)).flatMap dir.names).foldl (compareOne files cksum origSum) ⟨[], 0⟩
  if b.list ≠ [] then
    some ["Data corruptions appear during send->receive.".toList,
      "There are total ".toList ++ natText b.count ++ " corruptions. They are:\\n".toList, b.list]
  else none

/-- The line of `cksum` about a file. -/
def cksumLine (file : Text) : Option (Text × Text) := (files file).map cksum

/-- What `compare_cksum` is for. -/
def CksumSees (orig : Text) (targets : List Text) : Prop :=
  compareCksum files dir cksum orig targets ≠ none ↔
    ∃ t ∈ targets, files t = none ∨ cksumLine files cksum t ≠ cksumLine files cksum orig

variable {files dir cksum}

theorem getCksum_out (file : Text) : (getCksum files cksum file).out = [] := by
  unfold getCksum
  split <;> rfl

theorem compareOne_eq (b : Bad) (data : Text) :
    compareOne files cksum [] b data = if files data = none then b.add data else b := by
  unfold compareOne
  cases h : files data with
  | none => rfl
  | some a =>
    have hsame : ¬differs (getCksum files cksum data).out [] = true := by
      rw [differs_nil, getCksum_out]
      exact fun hne => hne rfl
    simp only
    rw [if_neg hsame]
    rfl

/-- The list of the loop is empty when every file is there. -/
theorem foldl_compareOne (ds : List Text) (b : Bad) :
    (ds.foldl (compareOne files cksum []) b).list = [] ↔ b.list = [] ∧ ∀ d ∈ ds, files d ≠ none := by
  induction ds generalizing b with
  | nil => simp
  | cons d ds ih =>
    rw [List.foldl_cons, ih, compareOne_eq, List.forall_mem_cons]
    by_cases hd : files d = none
    · rw [if_pos hd]
      simp [Bad.add, hd]
    · rw [if_neg hd]
      simp [hd]

/-- A word finds a missing file only in itself. -/
theorem missing_iff (dir : Pathnames files) (w : Text) :
    (∀ p ∈ dir.names w, files p ≠ none) ↔ ¬(dir.names w = [w] ∧ files w = none) := by
  constructor
  · rintro hall ⟨hself, hnone⟩
    rw [hself] at hall
    exact hall w (List.mem_singleton_self w) hnone
  · intro h p hp hnone
    rcases dir.exist w with hself | ⟨-, hexist⟩
    · rw [hself, List.mem_singleton] at hp
      subst hp
      exact h ⟨hself, hnone⟩
    · have hsome := hexist p hp
      rw [hnone] at hsome
      cases hsome

/-- `compare_cksum` fails when a target is missing and is no pattern for other files. -/
theorem compareCksum_ne_none_iff (orig : Text) {targets : List Text} (hplain : ∀ t ∈ targets, t ≠ [] ∧ ∀ c ∈ t, isIfs c = false) :
    compareCksum files dir cksum orig targets ≠ none ↔ ∃ t ∈ targets, dir.names t = [t] ∧ files t = none := by
  have hwords : targets.flatMap (words isIfs) = targets := by
    rw [List.flatMap_congr fun t ht => words_single (hplain t ht).2 (hplain t ht).1, List.flatMap_singleton']
  unfold compareCksum
  rw [getCksum_out, hwords]
  simp only [ne_eq, ite_eq_right_iff, reduceCtorEq, imp_false, not_not]
  rw [foldl_compareOne, not_and]
  simp only [true_implies, List.forall_mem_flatMap, missing_iff, not_forall, not_not]
  exact ⟨fun ⟨t, ht, h⟩ => ⟨t, ht, h⟩, fun ⟨t, ht, h⟩ => ⟨t, ht, h⟩⟩

/-- `compare_cksum` is right when a target is missing, or when there is nothing to see. -/
theorem cksumSees_iff (orig : Text) {targets : List Text} (hplain : ∀ t ∈ targets, t ≠ [] ∧ ∀ c ∈ t, isIfs c = false) :
    CksumSees files dir cksum orig targets ↔
      (∃ t ∈ targets, dir.names t = [t] ∧ files t = none) ∨
        ∀ t ∈ targets, files t ≠ none ∧ cksumLine files cksum t = cksumLine files cksum orig := by
  unfold CksumSees
  rw [compareCksum_ne_none_iff orig hplain]
  constructor
  · intro h
    by_cases hmissing : ∃ t ∈ targets, dir.names t = [t] ∧ files t = none
    · exact .inl hmissing
    · right
      intro t ht
      by_contra hbad
      exact hmissing (h.2 ⟨t, ht, by tauto⟩)
  · rintro (⟨t, ht, hself, hnone⟩ | hall)
    · exact iff_of_true ⟨t, ht, hself, hnone⟩ ⟨t, ht, .inl hnone⟩
    · refine iff_of_false ?_ ?_
      · rintro ⟨t, ht, -, hnone⟩
        exact (hall t ht).1 hnone
      · rintro ⟨t, ht, hbad⟩
        have := hall t ht
        tauto

end Cksum

/-! ## `check_files` -/

section Rollback

/-- What has been rolled back. -/
inductive Rolled
  | filesystem
  | volume
  deriving DecidableEq, Repr

/-- The snapshots, which hold one file, two files and three. -/
inductive Snap
  | testsnap
  | testsnap1
  | testsnap2
  deriving DecidableEq, Repr

/-- Directories and names from the configuration. They have no characters that an expansion or `eval` would change. -/
structure Config where
  testdir : Text
  testdir1 : Text
  testfile0 : Text
  testfile1 : Text
  testfile2 : Text

def Config.dir (c : Config) : Rolled → Text
  | .filesystem => c.testdir
  | .volume => c.testdir1

def Config.file0 (c : Config) (r : Rolled) : Text := c.dir r ++ '/' :: c.testfile0
def Config.file1 (c : Config) (r : Rolled) : Text := c.dir r ++ '/' :: c.testfile1
def Config.file2 (c : Config) (r : Rolled) : Text := c.dir r ++ '/' :: c.testfile2

/-- What ends the test. -/
inductive Failure
  | logMust
  | logFail (message : Text)
  deriving DecidableEq, Repr

def logMust (status : Nat) : Except Failure Unit := if status = 0 then .ok () else .error .logMust

inductive FileStatus
  | exist
  | nonexist
  deriving DecidableEq, Repr

def passwd : Text := "/etc/passwd".toList

-- The files, and the output of `sum`.
variable (files : Text → Option α) (sum : α → Text)

/-- `[[ -e file ]]` or `[[ ! -e file ]]`. -/
def FileStatus.test : FileStatus → Text → Bool
  | .exist, file => (files file).isSome
  | .nonexist, file => (files file).isNone

def fileStatus (st : FileStatus) : List Text → Nat
  | [] => 0
  | file :: fs => if st.test files file then fileStatus st fs else 1

def filesExist (fs : List Text) : Nat := fileStatus files .exist fs

def filesNonexist (fs : List Text) : Nat := fileStatus files .nonexist fs

def getsum (file : Text) : Ran :=
  match files file with
  | some a => returnText (sum a)
  | none => returnText []

def origsum : Text := (getsum files sum passwd).out

def checkSums (changed : Bool) : Except Failure Unit :=
  if changed then .error (.logFail "After rollback, file sum is changed.".toList) else .ok ()

def checkFiles (c : Config) (r : Rolled) : Snap → Except Failure Unit
  | .testsnap2 => do
    logMust (filesExist files [c.file0 r, c.file1 r, c.file2 r])
    let sum0 := (getsum files sum (c.file0 r)).out
    let sum1 := (getsum files sum (c.file1 r)).out
    -- The third comparison is with the word `sum2`.
    checkSums (differs sum0 (origsum files sum) || differs sum1 (origsum files sum) || differs "sum2".toList (origsum files sum))
  | .testsnap1 => do
    logMust (filesExist files [c.file0 r, c.file1 r])
    logMust (filesNonexist files [c.file2 r])
    let sum0 := (getsum files sum (c.file0 r)).out
    let sum1 := (getsum files sum (c.file1 r)).out
    checkSums (differs sum0 (origsum files sum) || differs sum1 (origsum files sum))
  | .testsnap => do
    logMust (filesExist files [c.file0 r])
    logMust (filesNonexist files [c.file1 r, c.file2 r])
    let sum0 := (getsum files sum (c.file0 r)).out
    checkSums (differs sum0 (origsum files sum))

def Config.held (c : Config) (r : Rolled) : Snap → List Text
  | .testsnap => [c.file0 r]
  | .testsnap1 => [c.file0 r, c.file1 r]
  | .testsnap2 => [c.file0 r, c.file1 r, c.file2 r]

def Config.unheld (c : Config) (r : Rolled) : Snap → List Text
  | .testsnap => [c.file1 r, c.file2 r]
  | .testsnap1 => [c.file2 r]
  | .testsnap2 => []

/-- A file is missing, or there is one that the snapshot does not hold. -/
def Misplaced (c : Config) (r : Rolled) (s : Snap) : Prop :=
  (∃ f ∈ c.held r s, files f = none) ∨ ∃ f ∈ c.unheld r s, files f ≠ none

/-- The sum of a file is not that of the original. -/
def Changed (c : Config) (r : Rolled) (s : Snap) : Prop := ∃ f ∈ c.held r s, (files f).map sum ≠ (files passwd).map sum

/-- What `check_files` is for. -/
def FilesSeen (c : Config) (r : Rolled) (s : Snap) : Prop :=
  checkFiles files sum c r s ≠ .ok () ↔ Misplaced files c r s ∨ Changed files sum c r s

variable {files sum}

theorem getsum_out (file : Text) : (getsum files sum file).out = [] := by
  unfold getsum
  split <;> rfl

theorem origsum_eq : origsum files sum = [] := getsum_out passwd

theorem fileStatus_eq_zero_iff (st : FileStatus) (fs : List Text) : fileStatus files st fs = 0 ↔ ∀ f ∈ fs, st.test files f = true := by
  induction fs with
  | nil => simp [fileStatus]
  | cons f fs ih =>
    rw [fileStatus, List.forall_mem_cons]
    by_cases h : st.test files f = true
    · rw [if_pos h, ih, and_iff_right h]
    · rw [if_neg h]
      exact iff_of_false Nat.one_ne_zero fun hall => h hall.1

theorem logMust_bind {status : Nat} (k : Except Failure Unit) :
    (do logMust status; k) ≠ .ok () ↔ status ≠ 0 ∨ k ≠ .ok () := by
  unfold logMust
  by_cases h : status = 0
  · rw [if_pos h]
    simp [h, bind, Except.bind]
  · rw [if_neg h]
    simp [h, bind, Except.bind]

theorem filesExist_ne_zero_iff (fs : List Text) : filesExist files fs ≠ 0 ↔ ∃ f ∈ fs, files f = none := by
  rw [filesExist, ne_eq, fileStatus_eq_zero_iff]
  simp [FileStatus.test]

theorem filesNonexist_ne_zero_iff (fs : List Text) : filesNonexist files fs ≠ 0 ↔ ∃ f ∈ fs, files f ≠ none := by
  rw [filesNonexist, ne_eq, fileStatus_eq_zero_iff]
  simp [FileStatus.test]

/-- `check_files` fails when a file is misplaced, and for the third snapshot always. -/
theorem checkFiles_ne_ok_iff (c : Config) (r : Rolled) (s : Snap) :
    checkFiles files sum c r s ≠ .ok () ↔ Misplaced files c r s ∨ s = .testsnap2 := by
  have hsame : differs [] [] = false := rfl
  have hword : differs "sum2".toList [] = true := rfl
  unfold Misplaced
  rw [← filesExist_ne_zero_iff, ← filesNonexist_ne_zero_iff]
  cases s with
  | testsnap =>
    rw [checkFiles, logMust_bind, logMust_bind, origsum_eq, getsum_out]
    simp [hsame, checkSums, Config.held, Config.unheld]
  | testsnap1 =>
    rw [checkFiles, logMust_bind, logMust_bind, origsum_eq, getsum_out, getsum_out]
    simp [hsame, checkSums, Config.held, Config.unheld]
  | testsnap2 =>
    rw [checkFiles, logMust_bind, origsum_eq, getsum_out, getsum_out]
    dsimp only
    rw [hsame, hword]
    exact iff_of_true (.inr (by decide)) (.inr rfl)

/-- `check_files` is right when a file is misplaced, and else when the sums are as it takes them to be. -/
theorem filesSeen_iff (c : Config) (r : Rolled) (s : Snap) :
    FilesSeen files sum c r s ↔
      Misplaced files c r s ∨ (s = .testsnap2 ∧ Changed files sum c r s) ∨ s ≠ .testsnap2 ∧ ¬Changed files sum c r s := by
  unfold FilesSeen
  rw [checkFiles_ne_ok_iff]
  tauto

end Rollback

/-- Both checks see what they are for, exactly when there is a file missing (or one too many), or the contents are those that the
check takes for granted: unchanged, and for the third snapshot changed. -/
theorem corruption_seen_iff (files : Text → Option α) (dir : Pathnames files) (cksum : α → Text × Text) (sum : α → Text) (orig : Text)
    (targets : List Text) (hplain : ∀ t ∈ targets, t ≠ [] ∧ ∀ c ∈ t, isIfs c = false) (c : Config) (r : Rolled) (s : Snap) :
    CksumSees files dir cksum orig targets ∧ FilesSeen files sum c r s ↔
      ((∃ t ∈ targets, dir.names t = [t] ∧ files t = none) ∨
        ∀ t ∈ targets, files t ≠ none ∧ cksumLine files cksum t = cksumLine files cksum orig) ∧
      (Misplaced files c r s ∨ (s = .testsnap2 ∧ Changed files sum c r s) ∨ s ≠ .testsnap2 ∧ ¬Changed files sum c r s) := by
  rw [cksumSees_iff orig hplain, filesSeen_iff]

/-! ## Two targets -/

/-- The original, a copy of it, a file with other contents and no more; no pattern matches. -/
def someFiles (file : Text) : Option Nat :=
  if file = "/o".toList ∨ file = "/c".toList ∨ file = passwd then some 1 else if file = "/b".toList then some 2 else none

def someNames : Pathnames someFiles where
  names w := [w]
  names_literal _ _ := rfl
  exist _ := .inl rfl

def someCksum (a : Nat) : Text × Text := (natText a, "7".toList)

def someConfig : Config := ⟨"/d".toList, "/d1".toList, "f0".toList, "f1".toList, "f2".toList⟩

/-- The copy is as the original, and the snapshot's file is missing. -/
theorem corruption_seen_sample :
    CksumSees someFiles someNames someCksum "/o".toList ["/c".toList] ∧
      FilesSeen someFiles natText someConfig .filesystem .testsnap := by
  refine (corruption_seen_iff someFiles someNames someCksum natText "/o".toList ["/c".toList] ?_ someConfig .filesystem .testsnap).2
    ⟨.inr ?_, .inl (.inl ⟨_, List.mem_singleton_self _, rfl⟩)⟩
  · rintro t ht
    rw [List.mem_singleton.1 ht]
    exact ⟨by simp, by simp [isIfs]⟩
  · rintro t ht
    rw [List.mem_singleton.1 ht]
    exact ⟨by decide, by decide⟩

/-- A target with other contents than the original. -/
theorem not_corruption_seen :
    ¬(CksumSees someFiles someNames someCksum "/o".toList ["/b".toList] ∧
      FilesSeen someFiles natText someConfig .filesystem .testsnap) := by
  rintro ⟨h, -⟩
  have hfails := h.2 ⟨_, List.mem_singleton_self _, .inr (by decide)⟩
  exact hfails (by decide)

end ZfsTest.Fs
