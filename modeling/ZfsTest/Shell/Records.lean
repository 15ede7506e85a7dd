import Mathlib.Algebra.GroupWithZero.Nat
import Mathlib.Algebra.Order.BigOperators.Group.List
import Mathlib.Algebra.Order.Group.Nat
import Mathlib.Data.List.Nodup
import Mathlib.Data.List.Perm.Subperm
import Mathlib.Logic.Function.Basic
import ZfsTest.Text.Basic

/-!
# Files of assignments

A file is read line by line: a line either is a number of assignments, which are made, or something else, and then what becomes of the
rest of the file is a matter of the shell (`source`).

When a file has been written with one line for each name, and every name finds its value in a line that is not shorter than the one that
was meant for it, the lines have been written as they were meant (`exact_lines`): there is no room for any other line.
-/

namespace ZfsTest.Shell

/-! ## Lines -/

/-- The lines that are ended, and what stands behind the last newline. -/
def cutLines : Text → List Text × Text
  | [] => ([], [])
  | c :: t =>
    if c = '\n' then ([] :: (cutLines t).1, (cutLines t).2)
    else
      match (cutLines t).1 with
      | [] => ([], c :: (cutLines t).2)
      | l :: ls => ((c :: l) :: ls, (cutLines t).2)

def ended (l : Text) : Text := l ++ ['\n']

theorem cutLines_line {l : Text} (hl : '\n' ∉ l) (t : Text) : cutLines (ended l ++ t) = (l :: (cutLines t).1, (cutLines t).2) := by
  induction l with
  | nil => rfl
  | cons c l ih =>
    have hc : c ≠ '\n' := fun hc => hl (hc ▸ List.mem_cons_self)
    have ih := ih fun hmem => hl (List.mem_cons_of_mem c hmem)
    rw [ended, List.cons_append, List.cons_append, cutLines, if_neg hc]
    rw [ended] at ih
    rw [ih]

theorem cutLines_lines {ls : List Text} (hls : ∀ l ∈ ls, '\n' ∉ l) (t : Text) :
    cutLines (ls.flatMap ended ++ t) = (ls ++ (cutLines t).1, (cutLines t).2) := by
  induction ls with
  | nil => rfl
  | cons l ls ih =>
    rw [List.flatMap_cons, List.append_assoc, cutLines_line (hls l List.mem_cons_self),
      ih fun m hm => hls m (List.mem_cons_of_mem l hm)]
    rfl

/-- The lines of a file have room in it. -/
theorem length_cutLines (t : Text) : ((cutLines t).1.map fun l => l.length + 1).sum + (cutLines t).2.length = t.length := by
  induction t with
  | nil => rfl
  | cons c t ih =>
    rw [cutLines]
    split
    · simp only [List.map_cons, List.sum_cons, List.length_cons, List.length_nil]
      omega
    · split
      · rename_i hnone
        rw [hnone] at ih
        simp only [List.map_nil, List.sum_nil, List.length_cons] at *
        omega
      · rename_i l ls hcons
        rw [hcons] at ih
        simp only [List.map_cons, List.sum_cons, List.length_cons] at *
        omega

/-! ## Reading -/

/-- The variables of a shell. -/
abbrev Variables := Text → Option Text

section

variable (parse : Text → Option (List (Text × Text))) (set : Variables → Text × Text → Variables) (other : List Text → Text → Variables → Variables)

/-- `. file`: the assignments of a line, and whatever the shell does where a line is something else, or has no end. -/
def source : List Text → Text → Variables → Variables
  | [], r, env => if r = [] then env else other [] r env
  | l :: ls, r, env =>
    match parse l with
    | some as => source ls r (as.foldl set env)
    | none => other (l :: ls) r env

def assignments (ls : List Text) : List (Text × Text) := ls.flatMap fun l => (parse l).getD []

variable {parse set other}

theorem source_lines {ls : List Text} (hls : ∀ l ∈ ls, (parse l).isSome = true) (env : Variables) :
    source parse set other ls [] env = (assignments parse ls).foldl set env := by
  induction ls generalizing env with
  | nil => rfl
  | cons l ls ih =>
    obtain ⟨as, has⟩ := Option.isSome_iff_exists.mp (hls l List.mem_cons_self)
    rw [source, has, assignments, List.flatMap_cons, has, Option.getD_some, List.foldl_append]
    exact ih (fun m hm => hls m (List.mem_cons_of_mem l hm)) _

theorem assignments_eq (ls : List Text) : assignments parse ls = (ls.map parse).flatMap fun as => as.getD [] := by
  rw [List.flatMap_map]
  rfl

theorem assignments_append (ls ms : List Text) : assignments parse (ls ++ ms) = assignments parse ls ++ assignments parse ms :=
  List.flatMap_append

/-- In a shell that gives up on anything else, and is left with `bad` then. -/
theorem source_bad (bad : Variables) (ls : List Text) (r : Text) (env : Variables) :
    source parse set (fun _ _ _ => bad) ls r env = bad ∨
      r = [] ∧ (∀ l ∈ ls, (parse l).isSome = true) ∧
        source parse set (fun _ _ _ => bad) ls r env = (assignments parse ls).foldl set env := by
  by_cases hr : r = []
  · subst hr
    by_cases hls : ∀ l ∈ ls, (parse l).isSome = true
    · exact Or.inr ⟨rfl, hls, source_lines hls env⟩
    · refine Or.inl ?_
      induction ls generalizing env with
      | nil => exact absurd (fun l hl => nomatch hl) hls
      | cons l ls ih =>
        rw [source]
        cases has : parse l with
        | none => rfl
        | some as =>
          refine ih _ fun hall => hls fun m hm => ?_
          rcases List.mem_cons.mp hm with rfl | hm
          · rw [has]
            rfl
          · exact hall m hm
  · refine Or.inl ?_
    induction ls generalizing env with
    | nil => exact if_neg hr
    | cons l ls ih =>
      rw [source]
      cases parse l with
      | none => rfl
      | some as => exact ih _

/-- A value that a variable has in the end comes from the start or from an assignment. -/
theorem value_of_foldl {n v : Text} (hset : ∀ env a, set env a n = some v → env n = some v ∨ a = (n, v)) (as : List (Text × Text))
    (env : Variables) (h : as.foldl set env n = some v) : env n = some v ∨ (n, v) ∈ as := by
  induction as generalizing env with
  | nil => exact Or.inl h
  | cons a as ih =>
    rcases ih _ h with h | h
    · rcases hset env a h with h | rfl
      · exact Or.inl h
      · exact Or.inr List.mem_cons_self
    · exact Or.inr (List.mem_cons_of_mem a h)

/-- What is found in a shell that had no variables, and has none after anything else, has been assigned in a line. -/
theorem assigned_of_source {n v : Text} (hset : ∀ env a, set env a n = some v → env n = some v ∨ a = (n, v)) {ls : List Text} {r : Text}
    (h : source parse set (fun _ _ _ => fun _ => none) ls r (fun _ => none) n = some v) : (n, v) ∈ assignments parse ls := by
  rcases source_bad (fun _ => none) ls r (fun _ => none) with hbad | ⟨-, -, hrun⟩
  · rw [hbad] at h
    cases h
  · rw [hrun] at h
    rcases value_of_foldl hset _ _ h with hnone | hmem
    · cases hnone
    · exact hmem

theorem mem_assignments {a : Text × Text} {ls : List Text} (h : a ∈ assignments parse ls) :
    ∃ l ∈ ls, ∃ as, parse l = some as ∧ a ∈ as := by
  obtain ⟨l, hl, hmem⟩ := List.mem_flatMap.mp h
  cases has : parse l with
  | none =>
    rw [has] at hmem
    cases hmem
  | some as =>
    rw [has] at hmem
    exact ⟨l, hl, as, has, hmem⟩

end

/-! ## No room for other lines -/

theorem eq_of_sum_le {ι : Type} {f g : ι → Nat} {is : List ι} (hle : ∀ i ∈ is, f i ≤ g i) (hsum : (is.map g).sum ≤ (is.map f).sum) :
    ∀ i ∈ is, f i = g i := by
  induction is with
  | nil => exact fun i hi => nomatch hi
  | cons i is ih =>
    have hi := hle i List.mem_cons_self
    have hrest : (is.map f).sum ≤ (is.map g).sum := List.sum_le_sum fun j hj => hle j (List.mem_cons_of_mem i hj)
    rw [List.map_cons, List.sum_cons, List.map_cons, List.sum_cons] at hsum
    intro j hj
    rcases List.mem_cons.mp hj with rfl | hj
    · omega
    · exact ih (fun k hk => hle k (List.mem_cons_of_mem i hk)) (by omega) j hj

/-- Different lines of a list have room beside each other. -/
theorem sum_le_of_subset {ls ms : List Text} (hnodup : ls.Nodup) (hsub : ls ⊆ ms) :
    (ls.map fun l => l.length + 1).sum ≤ (ms.map fun l => l.length + 1).sum := by
  obtain ⟨ls', hperm, hsublist⟩ := List.subperm_of_subset hnodup hsub
  rw [← (hperm.map _).sum_eq]
  exact (hsublist.map _).sum_le_sum fun a _ => Nat.zero_le a

section

variable {ι : Type} {names : List ι} {front : ι → Text}

/-- The names of a file, the line that is meant for each of them, what has been written for it, and a line in which it is found. -/
theorem exact_lines (hnodup : names.Nodup) (hfront : ∀ m n t u, front m ++ t = front n ++ u → m = n) {out meant found : ι → Text}
    (hout : ∀ n ∈ names, (out n).length ≤ (front n ++ meant n).length + 1)
    (hfound : ∀ n ∈ names, front n ++ found n ∈ (cutLines (names.flatMap out)).1)
    (hlen : ∀ n ∈ names, (meant n).length ≤ (found n).length) :
    ∀ n ∈ names, (out n).length = (front n ++ meant n).length + 1 ∧ (found n).length = (meant n).length := by
  have hlines : (names.map fun n => front n ++ found n).Nodup := List.Nodup.map (fun m n h => hfront m n _ _ h) hnodup
  have hroom := sum_le_of_subset hlines fun l hl => by
    obtain ⟨n, hn, rfl⟩ := List.mem_map.mp hl
    exact hfound n hn
  have hfile := length_cutLines (names.flatMap out)
  have hwritten : (names.flatMap out).length = (names.map fun n => (out n).length).sum := List.length_flatMap
  rw [List.map_map] at hroom
  have hmeant : ∀ n ∈ names, (front n ++ meant n).length + 1 ≤ (front n ++ found n).length + 1 := by
    intro n hn
    have hn := hlen n hn
    rw [List.length_append, List.length_append]
    omega
  have hsum : (names.map fun n => (front n ++ found n).length + 1).sum ≤ (names.map fun n => (out n).length).sum := by
    have hcomp : (names.map ((fun l : Text => l.length + 1) ∘ fun n => front n ++ found n)).sum =
      (names.map fun n => (front n ++ found n).length + 1).sum := rfl
    omega
  intro n hn
  have hall := eq_of_sum_le (fun m hm => (hout m hm).trans (hmeant m hm)) hsum n hn
  have hlo := hout n hn
  have hhi := hmeant n hn
  rw [List.length_append, List.length_append] at *
  omega

end

end ZfsTest.Shell
