import Mathlib.Data.List.DropRight
import Mathlib.Logic.Function.Basic
import ZfsTest.Text.Words

/-!
# Redirections and substitutions

Files of a shell script, as a map from their names to what is in them. The redirections of a command are made before it runs: with `>`
the file is empty by then, whatever the command reads. A command that rewrites a file in place so reads nothing (`rewrite_self`). A
substitution `$(...)` takes the newlines from the end of what a command prints, which no word of it loses (`words_substituted`).
-/

namespace ZfsTest.Shell

/-- `$(...)`. -/
def substituted (t : Text) : Text := t.rdropWhile (· = '\n')

theorem words_substituted {sp : Char → Bool} (hnewline : sp '\n' = true) (t : Text) : words sp (substituted t) = words sp t := by
  unfold substituted
  induction t using List.reverseRecOn with
  | nil => rfl
  | append_singleton t c ih =>
    by_cases hc : c = '\n'
    · rw [List.rdropWhile_concat_pos _ _ _ (by simpa using hc), ih, hc, words_append hnewline, words_nil, List.append_nil]
    · rw [List.rdropWhile_concat_neg _ _ _ (by simpa using hc)]

/-- The words of what is printed line by line. -/
theorem words_printed {sp : Char → Bool} (hnewline : sp '\n' = true) (ls : List Text) :
    words sp (substituted (ls.flatMap fun l => l ++ ['\n'])) = ls.flatMap (words sp) := by
  rw [words_substituted hnewline]
  induction ls with
  | nil => rfl
  | cons l ls ih => rw [List.flatMap_cons, List.append_assoc, List.singleton_append, words_append hnewline, ih, List.flatMap_cons]

/-- A line without newlines comes back. -/
theorem substituted_line {u : Text} (hu : '\n' ∉ u) : substituted (u ++ ['\n']) = u := by
  rw [substituted, List.rdropWhile_concat_pos _ _ _ (by simp)]
  exact List.rdropWhile_eq_self_iff.mpr fun hne hlast => hu (of_decide_eq_true hlast ▸ List.getLast_mem hne)

/-- Lines come back with newlines between them. -/
theorem substituted_lines {ls : List Text} (hls : ∀ l ∈ ls, l ≠ [] ∧ '\n' ∉ l) :
    substituted (ls.flatMap fun l => l ++ ['\n']) = ['\n'].intercalate ls := by
  cases ls using List.reverseRecOn with
  | nil => rfl
  | append_singleton ls l =>
    have hrow : ∀ ls : List Text, ls.flatMap (fun l => l ++ ['\n']) ++ l = ['\n'].intercalate (ls ++ [l]) := by
      intro ls
      induction ls with
      | nil => simp
      | cons u ls ih =>
        rw [List.cons_append, List.intercalate_cons_of_ne_nil (List.append_ne_nil_of_right_ne_nil ls (List.cons_ne_nil l [])), ← ih]
        simp
    obtain ⟨hne, hline⟩ := hls l (List.mem_append_right ls List.mem_cons_self)
    rw [List.flatMap_append, List.flatMap_singleton, ← List.append_assoc, hrow, substituted, List.rdropWhile_concat_pos _ _ _ (by simp),
      List.rdropWhile_eq_self_iff, ← hrow]
    intro _ hlast
    rw [List.getLast_append_of_ne_nil _ hne] at hlast
    exact hline (of_decide_eq_true hlast ▸ List.getLast_mem hne)

variable {κ α : Type} [DecidableEq κ]

/-- The files, each of them a list of bytes or lines. -/
abbrev Files (κ α : Type) := κ → Option (List α)

namespace Files

variable (fs : Files κ α)

/-- `> p`. -/
def truncate (p : κ) : Files κ α := Function.update fs p (some [])

/-- `command >> p`. -/
def append (p : κ) (out : List α) : Files κ α := Function.update fs p (some ((fs p).getD [] ++ out))

/-- `rm -f p`. -/
def remove (p : κ) : Files κ α := Function.update fs p none

/-- `command < src > dst`. Without the first file the second is not opened. -/
def rewrite (src dst : κ) (command : List α → List α) : Files κ α :=
  if (fs src).isSome then
    let opened := fs.truncate dst
    opened.append dst (command ((opened src).getD []))
  else fs

variable {fs} {p q src dst : κ}

@[simp] theorem truncate_self : fs.truncate p p = some [] := Function.update_self ..

theorem truncate_of_ne (h : q ≠ p) : fs.truncate p q = fs q := Function.update_of_ne h ..

@[simp] theorem append_self {out : List α} : fs.append p out p = some ((fs p).getD [] ++ out) := Function.update_self ..

theorem append_of_ne (h : q ≠ p) {out : List α} : fs.append p out q = fs q := Function.update_of_ne h ..

@[simp] theorem remove_self : fs.remove p p = none := Function.update_self ..

theorem remove_of_ne (h : q ≠ p) : fs.remove p q = fs q := Function.update_of_ne h ..

/-- In place, a command that prints nothing for nothing leaves nothing. -/
theorem rewrite_self {command : List α → List α} (hnone : command [] = []) (h : (fs p).isSome) :
    fs.rewrite p p command p = some [] := by
  rw [rewrite, if_pos h]
  simp [hnone]

theorem rewrite_of_ne (h : q ≠ dst) {command : List α → List α} : fs.rewrite src dst command q = fs q := by
  unfold rewrite
  split
  · rw [append_of_ne h, truncate_of_ne h]
  · rfl

end Files

end ZfsTest.Shell
