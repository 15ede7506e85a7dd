import Mathlib.Logic.Function.Basic
import ZfsTest.Text.Basic

/-!
# File systems with symbolic links

A file system is a map from absolute paths to what is there: nothing, a regular file, a symbolic link, or a directory. The directories of
all paths exist, and no link stands in the middle of a path. A path leads to the end of its links (`realpath`), unless there are too many
of them; it leads there in every file system with the same links on the way (`realpath_congr`), and with any greater number of links that
are allowed (`realpath_unique`).
-/

namespace ZfsTest.Files

/-- An absolute path, by the names in it. -/
abbrev Path := List Text

/-- What a link holds: a path, or a path from the directory that is `up` above that of the link. -/
inductive Target
  | absolute (p : Path)
  | relative (up : Nat) (p : Path)
  deriving DecidableEq, Repr

/-- Where a link at a path points to. -/
def Target.resolve (link : Path) : Target → Path
  | .absolute p => p
  | .relative up p => link.take (link.length - 1 - up) ++ p

inductive Node
  | absent
  | file (content : Text)
  | link (target : Target)
  | dir
  deriving DecidableEq, Repr

def Node.isLink : Node → Bool
  | .link _ => true
  | _ => false

def Node.isFile : Node → Bool
  | .file _ => true
  | _ => false

abbrev Fs := Path → Node

/-- The end of the links from a path, of which there may be `limit`. -/
def realpath (fs : Fs) : Nat → Path → Option Path
  | 0, p => if (fs p).isLink then none else some p
  | n + 1, p =>
    match fs p with
    | .link t => realpath fs n (t.resolve p)
    | _ => some p

/-- The links on the way. -/
def trail (fs : Fs) : Nat → Path → List Path
  | 0, _ => []
  | n + 1, p =>
    match fs p with
    | .link t => p :: trail fs n (t.resolve p)
    | _ => []

section

variable (fs : Fs) (limit : Nat)

/-- `[ -e p ]`, `[ -f p ]` and `[ -d p ]`. -/
def present (p : Path) : Bool := (realpath fs limit p).any fun q => fs q ≠ .absent
def isFile (p : Path) : Bool := (realpath fs limit p).any fun q => (fs q).isFile
def isDirectory (p : Path) : Bool := (realpath fs limit p).any fun q => fs q = .dir

/-- `cat p`. -/
def cat (p : Path) : Option Text :=
  (realpath fs limit p).bind fun q =>
    match fs q with
    | .file c => some c
    | _ => none

/-- `> p`. -/
def write (p : Path) (c : Text) : Option Fs :=
  (realpath fs limit p).bind fun q => if fs q = .dir then none else some (Function.update fs q (.file c))

def touch (p : Path) : Option Fs :=
  (realpath fs limit p).map fun q => if fs q = .absent then Function.update fs q (.file []) else fs

/-- `ln -s t p`, for a path that is no directory. -/
def symlink (t : Target) (p : Path) : Option Fs := if fs p = .absent then some (Function.update fs p (.link t)) else none

/-- `rm -f p`. -/
def remove (p : Path) : Fs := if fs p = .dir then fs else Function.update fs p .absent

end

variable {fs fs' : Fs} {n : Nat} {p q : Path}

theorem realpath_zero : realpath fs 0 p = if (fs p).isLink then none else some p := rfl

theorem realpath_succ : realpath fs (n + 1) p =
    match fs p with
    | .link t => realpath fs n (t.resolve p)
    | _ => some p := rfl

theorem trail_succ : trail fs (n + 1) p =
    match fs p with
    | .link t => p :: trail fs n (t.resolve p)
    | _ => [] := rfl

theorem realpath_of_not_link (h : (fs p).isLink = false) (n : Nat) : realpath fs n p = some p := by
  cases n with
  | zero => rw [realpath_zero, h, if_neg Bool.false_ne_true]
  | succ n =>
    rw [realpath_succ]
    split
    · rename_i t ht
      rw [ht] at h
      cases h
    · rfl

theorem realpath_end (h : realpath fs n p = some q) : (fs q).isLink = false := by
  induction n generalizing p with
  | zero =>
    rw [realpath_zero] at h
    split at h
    · cases h
    · rename_i hlink
      cases h
      exact eq_false_of_ne_true hlink
  | succ n ih =>
    rw [realpath_succ] at h
    split at h
    · exact ih h
    · rename_i hlink
      cases h
      cases hq : fs q with
      | link t => exact absurd hq (hlink t)
      | absent | file | dir => rfl

theorem mem_trail {x : Path} (h : x ∈ trail fs n p) : (fs x).isLink = true := by
  induction n generalizing p with
  | zero => cases h
  | succ n ih =>
    rw [trail_succ] at h
    split at h
    · rename_i t ht
      rcases List.mem_cons.mp h with rfl | h
      · rw [ht]
        rfl
      · exact ih h
    · cases h

/-- A path leads to the same end where the links on the way are the same and the end is no link. -/
theorem realpath_congr (h : realpath fs n p = some q) (htrail : ∀ x ∈ trail fs n p, fs' x = fs x) (hq : (fs' q).isLink = false) :
    realpath fs' n p = some q := by
  induction n generalizing p with
  | zero =>
    rw [realpath_zero] at h
    split at h
    · cases h
    · cases h
      exact realpath_of_not_link hq 0
  | succ n ih =>
    rw [realpath_succ] at h
    rw [trail_succ] at htrail
    split at h
    · rename_i t ht
      rw [ht] at htrail
      have hp := htrail p List.mem_cons_self
      rw [realpath_succ, hp, ht]
      exact ih h fun x hx => htrail x (List.mem_cons_of_mem p hx)
    · cases h
      exact realpath_of_not_link hq _

/-- The end does not depend on the number of links that are allowed, where there is one. -/
theorem realpath_unique {m : Nat} {r : Path} (h : realpath fs n p = some q) (h' : realpath fs m p = some r) : q = r := by
  induction n generalizing p m with
  | zero =>
    rw [realpath_zero] at h
    split at h
    · cases h
    · rename_i hlink
      rw [realpath_of_not_link (eq_false_of_ne_true hlink)] at h'
      exact Option.some.inj (h.symm.trans h')
  | succ n ih =>
    cases m with
    | zero =>
      rw [realpath_zero] at h'
      split at h'
      · cases h'
      · rename_i hlink
        rw [realpath_of_not_link (eq_false_of_ne_true hlink)] at h
        exact Option.some.inj (h.symm.trans h')
    | succ m =>
      rw [realpath_succ] at h h'
      split at h
      · rename_i t ht
        rw [ht] at h'
        exact ih h h'
      · rename_i hlink
        split at h'
        · rename_i t ht
          exact absurd ht (hlink t)
        · exact Option.some.inj (h.symm.trans h')

/-- A path that leads to a directory did so before, if no path that has changed leads to one. -/
theorem isDirectory_of_changed (hchange : ∀ x, fs' x = fs x ∨ ∀ m, isDirectory fs' m x = false) (h : isDirectory fs' n p = true) :
    isDirectory fs n p = true := by
  induction n generalizing p with
  | zero =>
    rcases hchange p with hsame | hno
    · unfold isDirectory realpath at h ⊢
      rw [hsame] at h
      split at h
      · cases h
      · rename_i hlink
        rw [if_neg hlink]
        rwa [Option.any_some, hsame] at h
    · rw [hno] at h
      cases h
  | succ n ih =>
    rcases hchange p with hsame | hno
    · unfold isDirectory realpath at h ⊢
      rw [hsame] at h
      split at h
      · exact ih h
      · rwa [Option.any_some, hsame] at h
    · rw [hno] at h
      cases h

theorem write_eq (h : realpath fs n p = some q) (hdir : fs q ≠ .dir) (c : Text) :
    write fs n p c = some (Function.update fs q (.file c)) := by
  rw [write, h, Option.bind_some, if_neg hdir]

theorem remove_eq (hdir : fs p ≠ .dir) : remove fs p = Function.update fs p .absent := if_neg hdir

theorem cat_eq {c : Text} (h : realpath fs n p = some q) (hq : fs q = .file c) : cat fs n p = some c := by
  rw [cat, h, Option.bind_some, hq]

theorem present_eq (h : realpath fs n p = some q) : present fs n p = decide (fs q ≠ .absent) := by
  rw [present, h]
  rfl

theorem isFile_eq {c : Text} (h : realpath fs n p = some q) (hq : fs q = .file c) : isFile fs n p = true := by
  rw [isFile, h, Option.any_some, hq]
  rfl

theorem isDirectory_eq (h : realpath fs n p = some q) : isDirectory fs n p = decide (fs q = .dir) := by
  rw [isDirectory, h]
  rfl

theorem isFile_of_absent (h : fs p = .absent) : isFile fs n p = false := by
  have hlink : (fs p).isLink = false := by rw [h]; rfl
  rw [isFile, realpath_of_not_link hlink, Option.any_some, h]
  rfl

theorem present_of_absent (h : fs p = .absent) : present fs n p = false := by
  have hlink : (fs p).isLink = false := by rw [h]; rfl
  rw [present_eq (realpath_of_not_link hlink n), h]
  rfl

end ZfsTest.Files
