import ZfsTest.Shell.Redirect
import ZfsTest.Text.Basic

/-!
# Comparison of properties, `cmp_ds_prop`

The properties of two datasets are listed in two work files, the name of the dataset is replaced in each file by a common prefix, and
the files are compared. The replacement rewrites the file in place with `< file > file`, and so leaves nothing of it. The files that
are compared are always empty, and the function returns `0` for all datasets (`cmpDsProp_status`); it removes the work files. So it is
right exactly in calls with equal properties (`cmp_ds_prop_compared_iff`).
-/

namespace ZfsTest.Fs

open Shell

/-- The characters of a dataset name that mean nothing to the shell. -/
def isNameChar (c : Char) : Bool := c.isAlphanum || c = '_' || c = '-' || c = '.' || c = ':' || c = '/' || c = '@'

structure DatasetName where
  text : Text
  plain : text.all isNameChar = true
  ne_nil : text ≠ []

/-- The properties of the loop. -/
def items : List Text :=
  ["type", "origin", "volblocksize", "aclinherit", "aclmode", "atime", "canmount", "checksum", "compression", "copies", "devices",
    "exec", "quota", "readonly", "recordsize", "reservation", "setuid", "sharenfs", "snapdir", "version", "volsize", "xattr", "zoned",
    "mountpoint"].map String.toList

/-- A text with every occurrence of `old` replaced; `skip` characters belong to an occurrence before. -/
def replaceFrom (same : Char → Char → Bool) (old new : Text) : Nat → Text → Text
  | _, [] => []
  | skip + 1, _ :: t => replaceFrom same old new skip t
  | 0, c :: t =>
    if (old.zipWith same (c :: t)).all id && old.length ≤ t.length + 1 then new ++ replaceFrom same old new (old.length - 1) t
    else c :: replaceFrom same old new 0 t

/-- A character of a regular expression without other special characters than the dot. -/
def sedChar (p d : Char) : Bool := p = d || p = '.' && d ≠ '\n'

/-- `sed -e s:re:new:g`. A script that is not of this form is an error, and nothing is printed. -/
def sed (script input : Text) : Text :=
  match script.splitOn ':' with
  | [s, re, new, g] => if s = "s".toList && g = "g".toList then replaceFrom sedChar re new 0 input else []
  | _ => []

/-- The script that `eval` makes of `'s:$dtst:PREFIX:g'`. -/
def sedScript (dtst : DatasetName) : Text := "s:".toList ++ dtst.text ++ ":PREFIX:g".toList

/-- A call: the datasets, and the line that `zfs get` prints about a dataset and a property. -/
structure Call where
  dtst1 : DatasetName
  dtst2 : DatasetName
  get : DatasetName → Text → Text

/-- The properties of a dataset, a line for each. -/
def Call.listing (c : Call) (dtst : DatasetName) : Text := items.flatMap fun item => c.get dtst item ++ ['\n']

/-- The listings are equal when the name in each of them is replaced. -/
def Call.Same (c : Call) : Prop :=
  replaceFrom (fun a b => a = b) c.dtst1.text "PREFIX".toList 0 (c.listing c.dtst1) =
    replaceFrom (fun a b => a = b) c.dtst2.text "PREFIX".toList 0 (c.listing c.dtst2)

instance (c : Call) : Decidable c.Same := inferInstanceAs (Decidable (_ = _))

section

variable (backdir : Text)

def work1 : Text := backdir ++ "/dtst1".toList
def work2 : Text := backdir ++ "/dtst2".toList

/-- One round of the loop. -/
def addItem (c : Call) (fs : Files Text Char) (item : Text) : Files Text Char :=
  (fs.append (work1 backdir) (c.get c.dtst1 item ++ ['\n'])).append (work2 backdir) (c.get c.dtst2 item ++ ['\n'])

def diff (fs : Files Text Char) (p q : Text) : Nat :=
  match fs p, fs q with
  | some a, some b => if a = b then 0 else 1
  | _, _ => 2

def cmpDsProp (fs : Files Text Char) (c : Call) : Nat × Files Text Char :=
  let fs := items.foldl (addItem backdir c) fs
  let fs := fs.rewrite (work1 backdir) (work1 backdir) (sed (sedScript c.dtst1))
  let fs := fs.rewrite (work2 backdir) (work2 backdir) (sed (sedScript c.dtst2))
  let ret := diff fs (work1 backdir) (work2 backdir)
  (ret, (fs.remove (work1 backdir)).remove (work2 backdir))

/-- What the function is for, in calls one after the other. -/
def Compared (fs : Files Text Char) : List Call → Prop
  | [] => True
  | c :: cs =>
    ((cmpDsProp backdir fs c).1 = 0 ↔ c.Same) ∧ (cmpDsProp backdir fs c).2 (work1 backdir) = none ∧
      (cmpDsProp backdir fs c).2 (work2 backdir) = none ∧ Compared (cmpDsProp backdir fs c).2 cs

end

variable {backdir : Text}

theorem work_ne : work2 backdir ≠ work1 backdir := by
  intro h
  have hname := List.append_cancel_left h
  revert hname
  decide

theorem sed_nil (script : Text) : sed script [] = [] := by
  unfold sed
  split
  · split
    · rw [replaceFrom]
    · rfl
  · rfl

theorem addItem_isSome (c : Call) (fs : Files Text Char) (item : Text) :
    (addItem backdir c fs item (work1 backdir)).isSome ∧ (addItem backdir c fs item (work2 backdir)).isSome := by
  unfold addItem
  rw [Files.append_of_ne work_ne.symm, Files.append_self, Files.append_self]
  exact ⟨rfl, rfl⟩

/-- Both work files are there when the loop ends. -/
theorem listed_isSome (backdir : Text) (c : Call) (fs : Files Text Char) :
    (items.foldl (addItem backdir c) fs (work1 backdir)).isSome ∧ (items.foldl (addItem backdir c) fs (work2 backdir)).isSome := by
  have hlast : items = items.dropLast ++ ["mountpoint".toList] := rfl
  rw [hlast, List.foldl_append, List.foldl_cons, List.foldl_nil]
  exact addItem_isSome c _ _

/-- The function returns `0` for all datasets. -/
theorem cmpDsProp_status (fs : Files Text Char) (c : Call) : (cmpDsProp backdir fs c).1 = 0 := by
  obtain ⟨h1, h2⟩ := listed_isSome backdir c fs
  have hsecond : ((items.foldl (addItem backdir c) fs).rewrite (work1 backdir) (work1 backdir) (sed (sedScript c.dtst1))
      (work2 backdir)).isSome := by
    rwa [Files.rewrite_of_ne work_ne]
  unfold cmpDsProp diff
  simp only
  rw [Files.rewrite_of_ne work_ne.symm, Files.rewrite_self (sed_nil _) h1, Files.rewrite_self (sed_nil _) hsecond]
  rfl

theorem cmpDsProp_removes (backdir : Text) (fs : Files Text Char) (c : Call) :
    (cmpDsProp backdir fs c).2 (work1 backdir) = none ∧ (cmpDsProp backdir fs c).2 (work2 backdir) = none := by
  unfold cmpDsProp
  simp only
  rw [Files.remove_of_ne work_ne.symm, Files.remove_self, Files.remove_self]
  exact ⟨rfl, rfl⟩

/-- All other files stay as they are. -/
theorem cmpDsProp_frame (fs : Files Text Char) (c : Call) {p : Text} (h1 : p ≠ work1 backdir) (h2 : p ≠ work2 backdir) :
    (cmpDsProp backdir fs c).2 p = fs p := by
  have hloop : ∀ (is : List Text) (fs : Files Text Char), is.foldl (addItem backdir c) fs p = fs p := by
    intro is
    induction is with
    | nil => exact fun _ => rfl
    | cons i is ih =>
      intro fs
      rw [List.foldl_cons, ih, addItem, Files.append_of_ne h2, Files.append_of_ne h1]
  unfold cmpDsProp
  simp only
  rw [Files.remove_of_ne h2, Files.remove_of_ne h1, Files.rewrite_of_ne h2, Files.rewrite_of_ne h1, hloop]

/-- The function is right in the calls with equal properties. -/
theorem cmp_ds_prop_compared_iff (backdir : Text) (fs : Files Text Char) (cs : List Call) :
    Compared backdir fs cs ↔ ∀ c ∈ cs, c.Same := by
  induction cs generalizing fs with
  | nil => exact iff_of_true trivial fun _ h => absurd h List.not_mem_nil
  | cons c cs ih =>
    obtain ⟨h1, h2⟩ := cmpDsProp_removes backdir fs c
    rw [Compared, ih, List.forall_mem_cons, iff_true_left (cmpDsProp_status fs c), and_iff_right h1, and_iff_right h2]

/-- A file system and a volume. -/
def unlike : Call where
  dtst1 := ⟨"p/a".toList, by decide, by decide⟩
  dtst2 := ⟨"p/b".toList, by decide, by decide⟩
  get dtst _ := if dtst.text = "p/a".toList then "filesystem".toList else "volume".toList

theorem not_cmp_ds_prop_compared : ¬Compared "/backdir".toList (fun _ => none) [unlike] := by
  rw [Compared, iff_true_left (cmpDsProp_status _ unlike)]
  rintro ⟨hsame, -⟩
  revert hsame
  decide

end ZfsTest.Fs
