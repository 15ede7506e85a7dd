import Mathlib.Data.List.Infix
import ZfsTest.Text.Basic

/-!
# Suites

The directories of a test suite: what is in a directory (`α`, different for configuration and execution), the subdirectories, and
the directories above a start directory. Scripts are run one after the other up to the first that fails (`runUntil`).
-/

namespace ZfsTest.Stf

abbrev Name := Text

/-- A directory of the suite, as the names that lead to it from the suite root (`reldir`). -/
abbrev Path := List Name

/-- A script, and whether it succeeds. -/
structure Script where
  name : Name
  ok : Bool
  deriving DecidableEq, Repr

variable {α ε : Type}

/-- A directory without a description, or one with its subdirectories. -/
inductive Tree (α : Type)
  | missing
  | node (dir : α) (sub : Name → Tree α)

def Tree.sub : Tree α → Name → Tree α
  | .missing => fun _ => .missing
  | .node _ sub => sub

/-- The tree below a path. -/
def Tree.at (root : Tree α) (p : Path) : Tree α := p.foldl Tree.sub root

theorem Tree.at_append (root : Tree α) (p : Path) (n : Name) : root.at (p ++ [n]) = (root.at p).sub n := by
  rw [Tree.at, List.foldl_append]
  rfl

/-- The directories from `p` to the one above the last name. -/
def parentsFrom (p : Path) : List Name → List Path
  | [] => []
  | n :: ns => p :: parentsFrom (p ++ [n]) ns

/-- `stf_getparentdirs`: the directories above the start directory, from the suite root. -/
def parentdirs (start : Path) : List Path := parentsFrom [] start

/-! ## Scripts -/

/-- Scripts up to the first that fails, and whether all have succeeded. -/
def runUntil (event : Script → ε) : List Script → Bool × List ε
  | [] => (true, [])
  | s :: ss => if s.ok then ((runUntil event ss).1, event s :: (runUntil event ss).2) else (false, [event s])

theorem runUntil_fst (event : Script → ε) (ss : List Script) : (runUntil event ss).1 = ss.all Script.ok := by
  induction ss with
  | nil => rfl
  | cons s ss ih =>
    unfold runUntil
    rw [List.all_cons]
    split
    · rename_i h
      rw [h, Bool.true_and, ih]
    · rename_i h
      rw [Bool.eq_false_iff.mpr h, Bool.false_and]

theorem runUntil_append (event : Script → ε) (ss ts : List Script) : runUntil event (ss ++ ts) =
    if (runUntil event ss).1 then ((runUntil event ts).1, (runUntil event ss).2 ++ (runUntil event ts).2) else runUntil event ss := by
  induction ss with
  | nil => rfl
  | cons s ss ih =>
    rw [List.cons_append, runUntil, runUntil]
    split
    · rw [ih]
      simp only
      split <;> rfl
    · rfl

theorem mem_runUntil {event : Script → ε} {ss : List Script} {e : ε} (h : e ∈ (runUntil event ss).2) :
    ∃ s ∈ ss, e = event s := by
  induction ss with
  | nil => cases h
  | cons s ss ih =>
    unfold runUntil at h
    split at h
    · rcases List.mem_cons.mp h with rfl | h
      · exact ⟨s, List.mem_cons_self, rfl⟩
      · obtain ⟨s', hs', he⟩ := ih h
        exact ⟨s', List.mem_cons_of_mem _ hs', he⟩
    · exact ⟨s, List.mem_cons_self, List.mem_singleton.mp h⟩

theorem runUntil_of_all {event : Script → ε} {ss : List Script} (h : ss.all Script.ok = true) :
    (runUntil event ss).2 = ss.map event := by
  induction ss with
  | nil => rfl
  | cons s ss ih =>
    rw [List.all_cons, Bool.and_eq_true] at h
    rw [runUntil, if_pos h.1, List.map_cons, ih h.2]

/-! ## Places -/

variable {p : Path}

def Below (p d : Path) : Prop := p <+: d ∧ d ≠ p

/-- Two names that lead to the same place. -/
theorem name_unique {n m : Name} {d : Path} (hn : p ++ [n] <+: d) (hm : p ++ [m] <+: d) : n = m := by
  have h := (List.prefix_of_prefix_length_le hn hm (by simp)).eq_of_length (by simp)
  exact List.head_eq_of_cons_eq (List.append_cancel_left h)

theorem below_of_name {n : Name} {d : Path} (h : p ++ [n] <+: d) : Below p d := by
  refine ⟨(List.prefix_append p [n]).trans h, ?_⟩
  rintro rfl
  have hlen := h.length_le
  rw [List.length_append, List.length_singleton] at hlen
  omega

/-- What is below a directory and above another one is below the same subdirectory. -/
theorem name_of_below {n : Name} {d q : Path} (hd : p ++ [n] <+: d) (hq : Below p q) (hqd : q <+: d) : p ++ [n] <+: q := by
  apply List.prefix_of_prefix_length_le hd hqd
  have hlt : p.length < q.length := by
    refine Nat.lt_of_le_of_ne hq.1.length_le fun he => hq.2 ?_
    exact (hq.1.eq_of_length he).symm
  rw [List.length_append, List.length_singleton]
  omega

end ZfsTest.Stf
