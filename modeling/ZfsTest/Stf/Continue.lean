import Mathlib.Data.List.Induction
import Mathlib.Data.List.TakeWhile
import ZfsTest.Prog.Loop
import ZfsTest.Text.Separated

/-!
# Continued lines, the `stf_configlookup` scripts

The scripts set comment lines and blank lines aside, and join a line that ends in a backslash with the next one. The record is cut at its
first backslash, not at its last one; and at the end of the input `getline` leaves its variable as it is, so that the record gets the line
that was read into the variable last once more. If that line ends in a backslash, it gets it over and over again (`not_ends_of_continued`).
The records are the logical lines when no continued line has another backslash and the input does not end with a continued line, but for
one case (`readsToEnd_iff`).
-/

namespace ZfsTest.Stf.Continue

/-- `/\\$/`. -/
def continues (line : Text) : Bool := line.getLast? = some '\\'

/-- `/^#/ || /^$/ || /^[[:space:]]+$/`. -/
def skipped (line : Text) : Bool :=
  line.head? = some '#' ||
    line.all fun c => c = ' ' || c = '\t' || c = '\n' || c = '\x0b' || c = '\x0c' || c = '\r'

/-- `substr($0, 1, index($0, "\\") - 1)`. -/
def front (line : Text) : Text := line.takeWhile (· ≠ '\\')

/-- A script between two steps: the record that is being read, the lines behind it, the variable of `getline`, and the records that the
other rules have processed. -/
structure Reader where
  record : Option Text
  input : List Text
  continued : Text
  records : List Text

/-- One line of the input, or one round of the continuation loop. -/
def readStep (s : Reader) : Round Reader (List Text) :=
  match s.record with
  | none =>
    match s.input with
    | [] => .done s.records
    | line :: input => if skipped line then .next { s with input } else .next { s with record := some line, input }
  | some record =>
    if continues record then
      match s.input with
      | [] => .next { s with record := some (front record ++ s.continued) }
      | line :: input => .next { s with record := some (front record ++ line), input, continued := line }
    else .next { s with record := none, records := s.records ++ [record] }

/-- A script that reads all of its input processes these records. -/
def Reads (lines records : List Text) : Prop := Loop.Ends readStep ⟨none, lines, [], []⟩ records

/-! ## Logical lines -/

/-- The lines of each record; the first argument is the record that is being read. -/
def groupsFrom : List Text → List Text → List (List Text)
  | g, [] => if g = [] then [] else [g]
  | g, line :: lines =>
    if g = [] ∧ skipped line then groupsFrom [] lines
    else if continues line then groupsFrom (g ++ [line]) lines
    else (g ++ [line]) :: groupsFrom [] lines

/-- A line without its final backslash. -/
def stripped (line : Text) : Text := if continues line then line.dropLast else line

def logicalLines (lines : List Text) : List Text := (groupsFrom [] lines).map fun g => g.flatMap stripped

/-- The records are the logical lines. -/
def ReadsToEnd (lines : List Text) : Prop := Reads lines (logicalLines lines)

/-- The variable of `getline` behind a record. -/
def continuedBehind (c : Text) (g : List Text) : Text := if g.length ≤ 1 then c else g.getLastD []

/-- Nothing is lost of a record and nothing is added: no continued line has another backslash in it, and at the end of the input there is
one continued line, with the line that was continued last between its first and its last backslash. -/
def Kept (c : Text) (g : List Text) : Prop :=
  (∀ line ∈ g.dropLast, '\\' ∉ line.dropLast) ∧
    (continues (g.getLastD []) = true → g.length ≤ 1 ∧ (g.getLastD []).dropWhile (· ≠ '\\') = c ++ ['\\'])

/-- All records are kept, with the variable of `getline`. -/
def AllKept : Text → List (List Text) → Prop
  | _, [] => True
  | c, g :: gs => Kept c g ∧ AllKept (continuedBehind c g) gs

/-! ## What is read -/

theorem continues_snoc (u : Text) (c : Char) : continues (u ++ [c]) = decide (c = '\\') := by
  simp [continues]

theorem exists_of_continues {line : Text} (h : continues line = true) : ∃ u, line = u ++ ['\\'] := by
  obtain ⟨u, hu⟩ := List.getLast?_eq_some_iff.mp (of_decide_eq_true h)
  exact ⟨u, hu⟩

theorem continues_append {u line : Text} (hu : '\\' ∉ u) : continues (u ++ line) = continues line := by
  rcases List.eq_nil_or_concat line with rfl | ⟨v, c, rfl⟩
  · rw [List.append_nil, continues, continues, decide_eq_decide]
    refine iff_of_false (fun h => hu (List.mem_of_getLast? h)) (fun h => by cases h)
  · rw [List.concat_eq_append, ← List.append_assoc, continues_snoc, continues_snoc]

theorem notMem_front (line : Text) : '\\' ∉ front line := by
  intro h
  have hne := List.mem_takeWhile_imp h
  simp at hne

theorem front_append {u : Text} (hu : '\\' ∉ u) (line : Text) : front (u ++ line) = u ++ front line :=
  List.takeWhile_append_of_pos (ne_of_notMem hu)

/-- The record behind some lines. -/
def gather (g : List Text) : Text := g.foldl (fun record line => front record ++ line) []

theorem gather_snoc (g : List Text) (line : Text) : gather (g ++ [line]) = front (gather g) ++ line := by
  rw [gather, List.foldl_append]
  rfl

theorem front_gather (g : List Text) : front (gather g) = g.flatMap front := by
  induction g using List.reverseRecOn with
  | nil => rfl
  | append_singleton g line ih => rw [gather_snoc, front_append (notMem_front _), ih, List.flatMap_append, List.flatMap_singleton]

theorem continues_gather (g : List Text) (line : Text) : continues (gather (g ++ [line])) = continues line := by
  rw [gather_snoc, continues_append (notMem_front _)]

/-- The record for some lines; nothing at the end of the input, when the loop does not end. -/
def readGroup (c : Text) (g : List Text) : Option Text :=
  if continues (g.getLastD []) then (if g.length ≤ 1 then some (front (g.getLastD []) ++ c) else none) else some (gather g)

def readGroups : Text → List (List Text) → Option (List Text)
  | _, [] => some []
  | c, g :: gs => (readGroup c g).bind fun record => (readGroups (continuedBehind c g) gs).map (record :: ·)

/-- At the end of the input, with a variable that ends in a backslash. -/
theorem not_ends_of_continued {record c : Text} {records rs : List Text} (hr : continues record = true) (hc : continues c = true) :
    ¬Loop.Ends readStep ⟨some record, [], c, records⟩ rs := by
  refine Loop.not_ends (I := fun s => ∃ record, continues record = true ∧ s = ⟨some record, [], c, records⟩) ?_ ⟨record, hr, rfl⟩
  rintro s ⟨record, hr, rfl⟩
  refine ⟨_, if_pos hr, front record ++ c, ?_, rfl⟩
  rw [continues_append (notMem_front record), hc]

/-- A script that has read `g` of a record, with the variable of `getline` as it was before the record. -/
def reading (c : Text) (g lines records : List Text) : Reader :=
  ⟨if g = [] then none else some (gather g), lines, continuedBehind c g, records⟩

theorem continuedBehind_snoc {c : Text} {g : List Text} (hg : g ≠ []) (line : Text) : continuedBehind c (g ++ [line]) = line := by
  have hlen := List.length_pos_iff.mpr hg
  rw [continuedBehind, if_neg (by rw [List.length_append, List.length_singleton]; omega), List.getLastD_concat]

section

variable {c line : Text} {g lines records rs : List Text}

/-- A line more. -/
theorem readStep_line (hg : ∀ l ∈ g, continues l = true) (hline : ¬(g = [] ∧ skipped line = true)) :
    readStep (reading c g (line :: lines) records) =
      .next ⟨some (gather (g ++ [line])), lines, continuedBehind c (g ++ [line]), records⟩ := by
  rcases List.eq_nil_or_concat g with rfl | ⟨g, l, rfl⟩
  · have hskip : ¬skipped line = true := fun h => hline ⟨rfl, h⟩
    simp only [readStep, reading, if_true, if_neg hskip]
    rfl
  · rw [List.concat_eq_append] at hg ⊢
    have hl := hg l (List.mem_append_right g List.mem_cons_self)
    have hne : g ++ [l] ≠ [] := by simp
    have hcont : continues (gather (g ++ [l])) = true := (continues_gather g l).trans hl
    simp only [readStep, reading, if_neg hne, hcont, if_true, continuedBehind_snoc hne]
    rw [gather_snoc (g ++ [l])]

/-- A record without a continuation. -/
theorem readStep_record {record : Text} (h : continues record = false) :
    readStep ⟨some record, lines, c, records⟩ = .next (reading c [] lines (records ++ [record])) := by
  simp only [readStep, h, Bool.false_eq_true, if_false]
  rfl

theorem reading_done : readStep (reading c [] [] records) = .done records := rfl

/-- The end of the input. -/
theorem reading_ends_nil (hg : ∀ l ∈ g, continues l = true) (hc : continues c = false) :
    Loop.Ends readStep (reading c g [] records) rs ↔ ∃ rs', readGroups c (groupsFrom g []) = some rs' ∧ rs = records ++ rs' := by
  rcases List.eq_nil_or_concat g with rfl | ⟨g, l, rfl⟩
  · rw [Loop.ends_done_iff reading_done]
    simp [groupsFrom, readGroups]
  · rw [List.concat_eq_append] at hg ⊢
    have hl := hg l (List.mem_append_right g List.mem_cons_self)
    have hne : g ++ [l] ≠ [] := by simp
    have hcont : continues (gather (g ++ [l])) = true := (continues_gather g l).trans hl
    have hlast : (g ++ [l]).getLastD [] = l := List.getLastD_concat
    simp only [groupsFrom, if_neg hne, readGroups, readGroup, hlast, hl, if_true]
    by_cases hone : g = []
    · subst hone
      have hstep : readStep (reading c [l] [] records) = .next ⟨some (front l ++ c), [], c, records⟩ := if_pos hl
      have hrecord : continues (front l ++ c) = false := (continues_append (notMem_front l)).trans hc
      rw [List.nil_append, Loop.ends_next_iff hstep, Loop.ends_next_iff (readStep_record hrecord),
        Loop.ends_done_iff reading_done]
      simp
    · have hlen := List.length_pos_iff.mpr hone
      have hlong : ¬(g ++ [l]).length ≤ 1 := by
        rw [List.length_append, List.length_singleton]
        omega
      rw [if_neg hlong, reading, if_neg hne, continuedBehind_snoc hone]
      refine iff_of_false (not_ends_of_continued hcont hl) ?_
      rintro ⟨rs', h, -⟩
      cases h

theorem reading_ends (hg : ∀ l ∈ g, continues l = true) (hc : continues c = false) :
    Loop.Ends readStep (reading c g lines records) rs ↔
      ∃ rs', readGroups c (groupsFrom g lines) = some rs' ∧ rs = records ++ rs' := by
  induction lines generalizing c g records with
  | nil => exact reading_ends_nil hg hc
  | cons line lines ih =>
    by_cases hskip : g = [] ∧ skipped line = true
    · obtain ⟨rfl, hskip⟩ := hskip
      have hstep : readStep (reading c [] (line :: lines) records) = .next (reading c [] lines records) := if_pos hskip
      rw [Loop.ends_next_iff hstep, groupsFrom, if_pos ⟨rfl, hskip⟩]
      exact ih hg hc
    · rw [Loop.ends_next_iff (readStep_line hg hskip), groupsFrom, if_neg hskip]
      by_cases hline : continues line = true
      · rw [if_pos hline]
        have hall : ∀ l ∈ g ++ [line], continues l = true := by
          intro l hl
          rcases List.mem_append.mp hl with hl | hl
          · exact hg l hl
          · rwa [List.mem_singleton.mp hl]
        have hreading : (⟨some (gather (g ++ [line])), lines, continuedBehind c (g ++ [line]), records⟩ : Reader) =
            reading c (g ++ [line]) lines records := by rw [reading, if_neg (by simp)]
        rw [hreading]
        exact ih hall hc
      · have hline := eq_false_of_ne_true hline
        have hrecord : continues (gather (g ++ [line])) = false := (continues_gather g line).trans hline
        have hbehind : continues (continuedBehind c (g ++ [line])) = false := by
          rcases List.eq_nil_or_concat g with rfl | ⟨g, l, rfl⟩
          · exact hc
          · rwa [continuedBehind_snoc (by simp)]
        have hlast : (g ++ [line]).getLastD [] = line := List.getLastD_concat
        rw [if_neg (by simp [hline]), Loop.ends_next_iff (readStep_record hrecord), ih (fun l hl => by cases hl) hbehind]
        simp only [readGroups, readGroup, hlast, hline, Bool.false_eq_true, if_false, Option.bind_some, Option.map_eq_some_iff]
        constructor
        · rintro ⟨rs', hrs', rfl⟩
          exact ⟨_, ⟨rs', hrs', rfl⟩, by simp⟩
        · rintro ⟨_, ⟨rs', hrs', rfl⟩, rfl⟩
          exact ⟨rs', hrs', by simp⟩

end

/-! ## What is kept -/

theorem stripped_of_continues {line : Text} (h : continues line = true) : stripped line = line.dropLast := if_pos h

/-- A continued line is kept when it has no other backslash. -/
theorem front_eq_iff {line : Text} (h : continues line = true) : front line = line.dropLast ↔ '\\' ∉ line.dropLast := by
  obtain ⟨u, rfl⟩ := exists_of_continues h
  rw [List.dropLast_concat]
  constructor
  · intro hu
    rw [← hu]
    exact notMem_front _
  · intro hu
    rw [front_append hu]
    exact List.append_nil u

theorem length_front_le {line : Text} (h : continues line = true) : (front line).length ≤ line.dropLast.length := by
  obtain ⟨u, rfl⟩ := exists_of_continues h
  have hmem : '\\' ∈ u ++ ['\\'] := List.mem_append_right u List.mem_cons_self
  have hle := (List.takeWhile_prefix (fun c => decide (c ≠ '\\')) (l := u ++ ['\\'])).length_le
  have hne : (front (u ++ ['\\'])).length ≠ (u ++ ['\\']).length := by
    intro hlen
    have hall : front (u ++ ['\\']) = u ++ ['\\'] := (List.takeWhile_prefix _).eq_of_length hlen
    exact notMem_front (u ++ ['\\']) (hall.symm ▸ hmem)
  change (front (u ++ ['\\'])).length ≤ _ at hle
  rw [List.length_append, List.length_singleton] at hle hne
  rw [List.dropLast_concat]
  omega

theorem flatMap_front_eq_iff {g : List Text} (hg : ∀ line ∈ g, continues line = true) :
    g.flatMap front = g.flatMap stripped ↔ ∀ line ∈ g, '\\' ∉ line.dropLast := by
  have hle : ∀ g : List Text, (∀ line ∈ g, continues line = true) → (g.flatMap front).length ≤ (g.flatMap stripped).length := by
    intro g hg
    induction g with
    | nil => exact Nat.le_refl 0
    | cons line g ih =>
      have hline := hg line List.mem_cons_self
      have hrest := ih fun l hl => hg l (List.mem_cons_of_mem line hl)
      have hfront := length_front_le hline
      rw [List.flatMap_cons, List.flatMap_cons, List.length_append, List.length_append, stripped_of_continues hline]
      omega
  induction g with
  | nil => exact iff_of_true rfl fun _ h => by cases h
  | cons line g ih =>
    have hline := hg line List.mem_cons_self
    have hrest : ∀ l ∈ g, continues l = true := fun l hl => hg l (List.mem_cons_of_mem line hl)
    have hih : g.flatMap front = g.flatMap stripped ↔ ∀ l ∈ g, '\\' ∉ l.dropLast := ih hrest
    rw [List.flatMap_cons, List.flatMap_cons, stripped_of_continues hline, List.forall_mem_cons, ← front_eq_iff hline, ← hih]
    constructor
    · intro h
      have hlen := congrArg List.length h
      have hfront := length_front_le hline
      have hbehind := hle g hrest
      rw [List.length_append, List.length_append] at hlen
      exact List.append_inj h (by omega)
    · rintro ⟨hfront, hbehind⟩
      rw [hfront, hbehind]

/-- A record that ends with the end of the input. -/
theorem front_append_eq_iff {line : Text} (h : continues line = true) (c : Text) :
    front line ++ c = line.dropLast ↔ line.dropWhile (· ≠ '\\') = c ++ ['\\'] := by
  obtain ⟨u, rfl⟩ := exists_of_continues h
  have hsplit : front (u ++ ['\\']) ++ (u ++ ['\\']).dropWhile (· ≠ '\\') = u ++ ['\\'] := List.takeWhile_append_dropWhile
  rw [List.dropLast_concat]
  constructor
  · intro hc
    have hboth : front (u ++ ['\\']) ++ (u ++ ['\\']).dropWhile (· ≠ '\\') = front (u ++ ['\\']) ++ (c ++ ['\\']) := by
      rw [hsplit, ← List.append_assoc, hc]
    exact List.append_cancel_left hboth
  · intro hc
    rw [hc, ← List.append_assoc] at hsplit
    exact List.append_cancel_right hsplit

theorem readGroup_eq_iff {g : List Text} (hne : g ≠ []) (hg : ∀ line ∈ g.dropLast, continues line = true) (c : Text) :
    readGroup c g = some (g.flatMap stripped) ↔ Kept c g := by
  rcases List.eq_nil_or_concat g with rfl | ⟨g, l, rfl⟩
  · exact absurd rfl hne
  · rw [List.concat_eq_append] at hg ⊢
    have hlast : (g ++ [l]).getLastD [] = l := List.getLastD_concat
    rw [List.dropLast_concat] at hg
    rw [readGroup, Kept, hlast, List.dropLast_concat, List.flatMap_append, List.flatMap_singleton, List.length_append,
      List.length_singleton]
    by_cases hl : continues l = true
    · rw [if_pos hl, stripped_of_continues hl]
      by_cases hone : g = []
      · subst hone
        rw [if_pos (by simp), Option.some_inj]
        simpa [hl] using front_append_eq_iff hl c
      · have hlen := List.length_pos_iff.mpr hone
        rw [if_neg (by omega)]
        exact iff_of_false (fun h => by cases h) fun h => absurd (h.2 hl).1 (by omega)
    · have hstrip : stripped l = l := if_neg hl
      rw [if_neg hl, Option.some_inj, gather_snoc, front_gather, hstrip, List.append_cancel_right_eq, flatMap_front_eq_iff hg]
      exact (and_iff_left fun h => absurd h hl).symm

/-- The groups are not empty, and all lines of one but the last are continued. -/
theorem groupsFrom_spec {g : List Text} (hg : ∀ line ∈ g, continues line = true) (lines : List Text) :
    ∀ g' ∈ groupsFrom g lines, g' ≠ [] ∧ ∀ line ∈ g'.dropLast, continues line = true := by
  induction lines generalizing g with
  | nil =>
    intro g' hg'
    rw [groupsFrom] at hg'
    split at hg'
    · cases hg'
    · rename_i hne
      rw [List.mem_singleton.mp hg']
      exact ⟨hne, fun line hline => hg line (List.dropLast_subset g hline)⟩
  | cons line lines ih =>
    intro g' hg'
    rw [groupsFrom] at hg'
    split at hg'
    · exact ih (fun l hl => by cases hl) g' hg'
    · split at hg'
      · rename_i hline
        refine ih (fun l hl => ?_) g' hg'
        rcases List.mem_append.mp hl with hl | hl
        · exact hg l hl
        · rwa [List.mem_singleton.mp hl]
      · rcases List.mem_cons.mp hg' with rfl | hg'
        · rw [List.dropLast_concat]
          exact ⟨by simp, hg⟩
        · exact ih (fun l hl => by cases hl) g' hg'

theorem readGroups_eq_iff {gs : List (List Text)} (hgs : ∀ g ∈ gs, g ≠ [] ∧ ∀ line ∈ g.dropLast, continues line = true) (c : Text) :
    readGroups c gs = some (gs.map fun g => g.flatMap stripped) ↔ AllKept c gs := by
  induction gs generalizing c with
  | nil => exact iff_of_true rfl trivial
  | cons g gs ih =>
    obtain ⟨hne, hg⟩ := hgs g List.mem_cons_self
    have hrest := ih (fun g' hg' => hgs g' (List.mem_cons_of_mem g hg')) (continuedBehind c g)
    rw [AllKept, ← readGroup_eq_iff hne hg c, ← hrest, readGroups, List.map_cons, Option.bind_eq_some_iff]
    simp only [Option.map_eq_some_iff, List.cons.injEq]
    constructor
    · rintro ⟨record, hrecord, records, hrecords, rfl, rfl⟩
      exact ⟨hrecord, hrecords⟩
    · rintro ⟨hrecord, hrecords⟩
      exact ⟨_, hrecord, _, hrecords, rfl, rfl⟩

theorem readsToEnd_iff_readGroups (lines : List Text) :
    ReadsToEnd lines ↔ readGroups [] (groupsFrom [] lines) = some (logicalLines lines) := by
  have hends : ReadsToEnd lines ↔ ∃ rs', readGroups [] (groupsFrom [] lines) = some rs' ∧ logicalLines lines = [] ++ rs' :=
    reading_ends (g := []) (c := []) (List.forall_mem_nil _) rfl
  refine hends.trans ⟨?_, fun h => ⟨_, h, rfl⟩⟩
  rintro ⟨rs', hrs', rfl⟩
  exact hrs'

theorem allKept_iff (lines : List Text) :
    readGroups [] (groupsFrom [] lines) = some (logicalLines lines) ↔ AllKept [] (groupsFrom [] lines) :=
  readGroups_eq_iff (groupsFrom_spec (fun l hl => by cases hl) lines) []

/-- The records are the logical lines when all records are kept. -/
theorem readsToEnd_iff (lines : List Text) : ReadsToEnd lines ↔ AllKept [] (groupsFrom [] lines) :=
  (readsToEnd_iff_readGroups lines).trans (allKept_iff lines)

/-- Two continued lines at the end of the input: the script runs for ever. -/
theorem not_readsToEnd : ¬ReadsToEnd ["cc \\".toList, "-O \\".toList] := by
  rw [readsToEnd_iff_readGroups]
  decide

end ZfsTest.Stf.Continue
