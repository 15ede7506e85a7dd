import ZfsTest.Num.Signed
import ZfsTest.Search.Probe
import ZfsTest.Text.Casecmp

/-!
# The detail levels of the journal

`jnl_dl_description_fetch` looks for a level and `jnl_dl_level_fetch` for a name, each in a table of its own that is sorted by it. Both
search by halved steps (`Search`), and differ in the neighbour that they return between two entries: the higher level there, the smaller
name here.
-/

namespace ZfsTest.Jnl

open Probe

def INT_MIN : Int := minSigned 32
def INT_MAX : Int := maxSigned 32

def jnlDL_ASSERTION : Int := INT_MIN
def jnlDL_RESULT : Int := jnlDL_ASSERTION + 1
def jnlDL_DIAGNOSTIC : Int := jnlDL_RESULT + 1
def jnlDL_PROGRESS : Int := 0
def jnlDL_ENCYCLOPEDIC : Int := INT_MAX
def jnlDL_STACK : Int := jnlDL_ENCYCLOPEDIC / 2
def jnlDL_VERBOSE : Int := jnlDL_STACK / 2

/-- A `jnl_DetailLevel_t`: its constants are some of its values, which are those of an `int`. -/
structure DetailLevel where
  val : Int
  inRange : InRange 32 val

structure Description where
  level : Int
  description : Text
  deriving DecidableEq, Repr

def assertionLevel : Description := ⟨jnlDL_ASSERTION, "Assertion".toList⟩
def resultLevel : Description := ⟨jnlDL_RESULT, "Result".toList⟩
def diagnosticLevel : Description := ⟨jnlDL_DIAGNOSTIC, "Diagnostic".toList⟩
def progressLevel : Description := ⟨jnlDL_PROGRESS, "Progress".toList⟩
def verboseLevel : Description := ⟨jnlDL_VERBOSE, "Verbose".toList⟩
def stackLevel : Description := ⟨jnlDL_STACK, "Stack".toList⟩
def encyclopedicLevel : Description := ⟨jnlDL_ENCYCLOPEDIC, "Encyclopedic".toList⟩

/-- `jnlDL_Level_Descriptions`, sorted by the level. -/
def jnlDLLevelDescriptions : List Description :=
  [assertionLevel, resultLevel, diagnosticLevel, progressLevel, verboseLevel, stackLevel, encyclopedicLevel]

/-- `jnlDL_Description_Levels`, sorted by the name. -/
def jnlDLDescriptionLevels : List Description :=
  [assertionLevel, diagnosticLevel, encyclopedicLevel, progressLevel, resultLevel, stackLevel, verboseLevel]

def levelOrder (level : Int) (d : Description) : Ordering :=
  if d.level = level then .eq else if d.level > level then .lt else .gt

def levelSearch (level : Int) : Search Description := ⟨jnlDLLevelDescriptions, levelOrder level, .lt⟩

def nameSearch (description : Text) : Search Description :=
  ⟨jnlDLDescriptionLevels, fun d => strcasecmp description d.description, .gt⟩

/-- `jnl_dl_description_fetch`, with a bound for the rounds of its loop. -/
def jnlDlDescriptionFetch (level : Int) (fuel : Nat) : Option Description := (levelSearch level).run fuel

/-- `jnl_dl_level_fetch`, with a bound for the rounds of its loop. -/
def jnlDlLevelFetch (description : Text) (fuel : Nat) : Option Description := (nameSearch description).run fuel

theorem levels_increase : jnlDLLevelDescriptions.Pairwise fun a b => a.level < b.level := by decide

theorem names_increase : jnlDLDescriptionLevels.Pairwise fun a b => strcasecmp a.description b.description = .lt := by decide

theorem levelOrder_ne_gt_iff (level : Int) (d : Description) : levelOrder level d ≠ .gt ↔ level ≤ d.level := by
  unfold levelOrder
  split
  · exact iff_of_true nofun (by omega)
  · split
    · exact iff_of_true nofun (by omega)
    · exact iff_of_false (fun h => h rfl) (by omega)

theorem levelOrder_lt {level : Int} {d : Description} (h : level < d.level) : levelOrder level d = .lt := by
  unfold levelOrder
  rw [if_neg (by omega), if_pos h]

theorem levelSearch_sorted (level : Int) : Sorted (levelSearch level) where
  increasing := by
    refine levels_increase.imp fun {a b} hab ha => levelOrder_lt ?_
    have hle := (levelOrder_ne_gt_iff level a).mp ha
    omega
  turn := Or.inl rfl
  two := by
    show 2 ≤ jnlDLLevelDescriptions.length
    decide

theorem nameSearch_sorted (description : Text) : Sorted (nameSearch description) where
  increasing := names_increase.imp fun {a b} hab ha => strcasecmp_trans ha hab
  turn := Or.inr rfl
  two := by
    show 2 ≤ jnlDLDescriptionLevels.length
    decide

/-- The entry of the level, or else the one of the smallest level that is greater. -/
def DescribesLevel (level : DetailLevel) (d : Description) : Prop :=
  d.level = level.val ∨ (∀ d' ∈ jnlDLLevelDescriptions, d'.level ≠ level.val) ∧ level.val < d.level ∧
    ∀ d' ∈ jnlDLLevelDescriptions, level.val < d'.level → d.level ≤ d'.level

/-- No level is greater than the last one of the table. -/
theorem level_le_encyclopedic (level : DetailLevel) : level.val ≤ encyclopedicLevel.level := level.inRange.2

/-- The first entry of at least the level has the least such level. -/
theorem level_le_of_index {i j : Nat} (hij : i ≤ j) (hi : i < jnlDLLevelDescriptions.length) (hj : j < jnlDLLevelDescriptions.length) :
    jnlDLLevelDescriptions[i].level ≤ jnlDLLevelDescriptions[j].level := by
  rcases Nat.eq_or_lt_of_le hij with rfl | hlt
  · exact Int.le_refl _
  · exact Int.le_of_lt (List.pairwise_iff_getElem.mp levels_increase i j hi hj hlt)

theorem description_fetched (level : DetailLevel) : ∃ k d, (∀ fuel, k ≤ fuel → jnlDlDescriptionFetch level.val fuel = some d) ∧
    d ∈ jnlDLLevelDescriptions ∧ DescribesLevel level d := by
  obtain ⟨k, i, hi, hrun, -, hfirst⟩ := (levelSearch_sorted level.val).run_ends
  have hlen : i < jnlDLLevelDescriptions.length := hi
  have hleast : ∀ d' ∈ jnlDLLevelDescriptions, level.val ≤ d'.level →
      level.val ≤ jnlDLLevelDescriptions[i].level ∧ jnlDLLevelDescriptions[i].level ≤ d'.level := by
    intro d' hd' hle
    obtain ⟨j, hj, rfl⟩ := List.getElem_of_mem hd'
    obtain ⟨hge, hij⟩ := hfirst rfl j hj ((levelOrder_ne_gt_iff _ _).mpr hle)
    exact ⟨(levelOrder_ne_gt_iff _ _).mp hge, level_le_of_index hij hlen hj⟩
  have hlast : encyclopedicLevel ∈ jnlDLLevelDescriptions := by decide
  obtain ⟨hle, -⟩ := hleast _ hlast (level_le_encyclopedic level)
  refine ⟨k, _, hrun, List.getElem_mem hi, ?_⟩
  rcases Int.le_iff_eq_or_lt.mp hle with heq | hlt
  · exact Or.inl heq.symm
  · refine Or.inr ⟨fun d' hd' heq => ?_, hlt, fun d' hd' hlt' => (hleast d' hd' (Int.le_of_lt hlt')).2⟩
    have hmin := (hleast d' hd' (Int.le_of_eq heq.symm)).2
    omega

theorem level_fetched (description : Text) : ∃ k d, (∀ fuel, k ≤ fuel → jnlDlLevelFetch description fuel = some d) ∧
    d ∈ jnlDLDescriptionLevels ∧ ∀ d' ∈ jnlDLDescriptionLevels, strcasecmp description d'.description = .eq → d = d' := by
  obtain ⟨k, i, hi, hrun, huniq, -⟩ := (nameSearch_sorted description).run_ends
  refine ⟨k, _, hrun, List.getElem_mem hi, fun d' hd' heq => ?_⟩
  obtain ⟨j, hj, rfl⟩ := List.getElem_of_mem hd'
  obtain rfl := huniq j hj heq
  rfl

/-- Both searches end inside their tables, with what a search through the whole table finds. -/
theorem detail_level_lookups :
    (∀ level : DetailLevel, ∃ k d, (∀ fuel, k ≤ fuel → jnlDlDescriptionFetch level.val fuel = some d) ∧
      d ∈ jnlDLLevelDescriptions ∧ DescribesLevel level d) ∧
    (∀ description : Text, ∃ k d, (∀ fuel, k ≤ fuel → jnlDlLevelFetch description fuel = some d) ∧
      d ∈ jnlDLDescriptionLevels ∧ ∀ d' ∈ jnlDLDescriptionLevels, strcasecmp description d'.description = .eq → d = d') :=
  ⟨description_fetched, level_fetched⟩

/-- The level of `jnl_PROGRESS`. -/
def DetailLevel.progress : DetailLevel := ⟨jnlDL_PROGRESS, by decide⟩

/-- The lookup of a level of the table finds its entry. -/
theorem detail_level_lookups_sample : ∃ k, ∀ fuel, k ≤ fuel → jnlDlDescriptionFetch jnlDL_PROGRESS fuel = some progressLevel := by
  obtain ⟨k, d, hfetch, hd, hlevel⟩ := detail_level_lookups.1 .progress
  have honly : ∀ d ∈ jnlDLLevelDescriptions, d.level = jnlDL_PROGRESS → d = progressLevel := by decide
  have hmem : progressLevel ∈ jnlDLLevelDescriptions := by decide
  obtain rfl := honly d hd (hlevel.resolve_right fun h => h.1 _ hmem rfl)
  exact ⟨k, hfetch⟩

end ZfsTest.Jnl
