import ZfsTest.Stf.Inert

/-!
# Random words, `random_get` of `libtest.kshlib`

`_random_get` takes the field number `RANDOM % count + 1` of the line of its arguments. `random_get` reaches every word that is among the
first 32768 (`randomGet_covers_iff`). `random_get_with_non` means to add one to the count, so that the field behind the last word is
reached too, but its `cnt =+ 1` makes the count one: the answer does not depend on the random number (`randomGetWithNon_eq`), and the
range is never covered (`not_coversRange`). With the right count the range would be covered for two words and more, but not for one,
where `cut` prints a line without a delimiter as a whole (`randomGet_none_iff`).
-/

namespace ZfsTest.Libtest

open Stf

/-- The values of `RANDOM`. -/
abbrev Random := Fin 32768

/-- `cut -f ind -d ' '`, for a line. -/
def cutField (ind : Nat) (line : Text) : Text := if ' ' ∈ line then (line.splitOn ' ').getD (ind - 1) [] else line

section

variable (sh : Ksh) (files : List Text)

/-- `_random_get`, in a directory with the names `files`; a count of zero is an error. -/
def randomGet_ (cnt : Nat) (ws : List Text) (random : Random) : Option Text :=
  if cnt = 0 then none
  else
    let str := joined ws
    let ind := random % cnt + 1
    let ret := ['\n'].intercalate (((sh.echo str).splitOn '\n').map (cutField ind))
    some (echoed sh files ret)

def randomGetWithNon (ws : List Text) (random : Random) : Option Text :=
  -- `((cnt =+ 1))` is an assignment of `+1`
  randomGet_ sh files 1 ws random

def randomGet (ws : List Text) (random : Random) : Option Text := randomGet_ sh files ws.length ws random

/-- What the functions print is any of the words, and for the second also nothing. -/
def CoversRange (ws : List Text) : Prop :=
  (∀ t, (∃ r, randomGet sh files ws r = some t) ↔ t ∈ ws) ∧
    ∀ t, (∃ r, randomGetWithNon sh files ws r = some t) ↔ t ∈ ws ∨ t = []

end

/-- Words to choose from. -/
structure Choice where
  words : List Text
  ne_nil : words ≠ []
  word : ∀ w ∈ words, w ≠ [] ∧ ∀ c ∈ w, isIfs c = false

variable {sh : Ksh} {files : List Text} {ws : List Text}

/-! ## One of the words or nothing -/

/-- The random number does not matter. -/
theorem randomGetWithNon_eq (ws : List Text) (r r' : Random) : randomGetWithNon sh files ws r = randomGetWithNon sh files ws r' := by
  simp only [randomGetWithNon, randomGet_, Nat.mod_one]

theorem not_covers_of_mem {w : Text} (hw : w ∈ ws) (hne : w ≠ []) : ¬CoversRange sh files ws := by
  rintro ⟨-, hnon⟩
  obtain ⟨r, hr⟩ := (hnon w).mpr (Or.inl hw)
  obtain ⟨r', hr'⟩ := (hnon []).mpr (Or.inr rfl)
  rw [randomGetWithNon_eq ws r' r, hr] at hr'
  exact hne (Option.some.inj hr')

/-- The range is covered for no list of words. -/
theorem not_coversRange (sh : Ksh) (files : List Text) (c : Choice) : ¬CoversRange sh files c.words := by
  obtain ⟨w, hw⟩ := List.exists_mem_of_ne_nil c.words c.ne_nil
  exact not_covers_of_mem hw (c.word w hw).1

def Choice.sample : Choice where
  words := ["on".toList, "off".toList]
  ne_nil := List.cons_ne_nil _ _
  word := by
    rw [List.forall_mem_cons, List.forall_mem_singleton]
    exact ⟨⟨by decide, forall_of_any_eq_false rfl⟩, by decide, forall_of_any_eq_false rfl⟩

theorem not_coversRange_sample : ¬CoversRange Ksh.sample [] ["on".toList, "off".toList] := not_coversRange Ksh.sample [] Choice.sample

/-- `random_get_with_non "spare"` prints nothing but `spare`. -/
theorem not_coversRange_spare : ¬CoversRange Ksh.sample [] ["spare".toList] :=
  not_covers_of_mem List.mem_cons_self (by decide)

/-! ## One of the words -/

theorem cutField_single {w : Text} (hw : ' ' ∉ w) (ind : Nat) : cutField ind w = w := if_neg hw

theorem cutField_joined {v w : Text} {ws : List Text} (hws : ∀ u ∈ v :: w :: ws, ' ' ∉ u) (ind : Nat) :
    cutField ind (joined (v :: w :: ws)) = (v :: w :: ws).getD (ind - 1) [] := by
  have hblank : ' ' ∈ joined (v :: w :: ws) := by simp [joined]
  rw [cutField, if_pos hblank, joined_eq_intercalate, List.splitOn_intercalate ' ' hws (List.cons_ne_nil v _)]

/-- A word for a random number. -/
theorem randomGet_eq (hws : ∀ w ∈ ws, Inert w) (hne : ws ≠ []) {cnt : Nat} (hcnt : cnt ≠ 0) (r : Random) :
    randomGet_ sh files cnt ws r = some (ws.getD (if ws.length = 1 then 0 else r % cnt) []) := by
  have hplain := plain_inert hws
  have hnl : '\n' ∉ joined ws := by
    intro hc
    rcases mem_joined hc with h | ⟨w, hw, hc⟩
    · cases h
    · cases (hplain w hw).blank '\n' hc
  have hecho : ∀ i, echoed sh files (ws.getD i []) = ws.getD i [] := by
    intro i
    rw [List.getD_eq_getElem?_getD]
    rcases hi : ws[i]? with _ | w
    · exact sh.echo_plain [] (fun _ hc => by cases hc) (fun h => by cases h)
    · exact (hws w (List.mem_of_getElem? hi)).echoed_eq
  have hline : (sh.echo (joined ws)).splitOn '\n' = [joined ws] := by rw [echo_joined hplain, List.splitOn_eq_singleton hnl]
  simp only [randomGet_, if_neg hcnt, hline, List.map_singleton, List.intercalate_singleton]
  refine congrArg some ?_
  obtain ⟨v, ws, rfl⟩ := List.exists_cons_of_ne_nil hne
  cases ws with
  | nil =>
    have hv : ' ' ∉ v := (hplain v List.mem_cons_self).noBlank
    exact (congrArg (echoed sh files) (cutField_single hv _)).trans (hecho 0)
  | cons w ws =>
    have hlen : (v :: w :: ws).length ≠ 1 := by simp
    rw [cutField_joined fun u hu => (hplain u hu).noBlank, Nat.add_sub_cancel, if_neg hlen]
    exact hecho _

theorem randomGet_covers_iff (hws : ∀ w ∈ ws, Inert w) (hne : ws ≠ []) :
    (∀ t, (∃ r, randomGet sh files ws r = some t) ↔ t ∈ ws) ↔ ∀ w ∈ ws, w ∈ ws.take 32768 := by
  have hpos := List.length_pos_iff.mpr hne
  have hget : ∀ r, randomGet sh files ws r = some (ws.getD (r % ws.length) []) := by
    intro r
    rw [randomGet, randomGet_eq hws hne (by omega)]
    split
    · rename_i hone
      rw [hone, Nat.mod_one]
    · rfl
  have hmem : ∀ r : Random, ws.getD (r % ws.length) [] ∈ ws.take 32768 := by
    intro r
    have hi := Nat.mod_lt r.val hpos
    have hle := Nat.mod_le r.val ws.length
    rw [List.mem_take_iff_getElem]
    exact ⟨r % ws.length, by omega, by rw [List.getD_eq_getElem?_getD, List.getElem?_eq_getElem hi]; rfl⟩
  constructor
  · intro h w hw
    obtain ⟨r, hr⟩ := (h w).mpr hw
    rw [hget] at hr
    exact Option.some.inj hr ▸ hmem r
  · intro h t
    constructor
    · rintro ⟨r, hr⟩
      rw [hget] at hr
      exact Option.some.inj hr ▸ List.mem_of_mem_take (hmem r)
    · intro ht
      obtain ⟨i, hi, rfl⟩ := List.mem_take_iff_getElem.mp (h t ht)
      have hmod : i % ws.length = i := Nat.mod_eq_of_lt (by omega)
      refine ⟨⟨i, by omega⟩, ?_⟩
      rw [hget, hmod, List.getD_eq_getElem?_getD, List.getElem?_eq_getElem (by omega)]
      rfl

/-- With a count that is one too great, one word is printed for every random number, and of more words each one and nothing. -/
theorem randomGet_none_iff (hws : ∀ w ∈ ws, Inert w) (hne : ws ≠ []) (hmax : ws.length < 32768) :
    (∀ t, (∃ r, randomGet_ sh files (ws.length + 1) ws r = some t) ↔ t ∈ ws ∨ t = []) ↔ ws.length ≠ 1 := by
  have hpos := List.length_pos_iff.mpr hne
  have hget : ∀ r, randomGet_ sh files (ws.length + 1) ws r =
      some (ws.getD (if ws.length = 1 then 0 else r % (ws.length + 1)) []) := fun r => randomGet_eq hws hne (by omega) r
  constructor
  · intro h hone
    obtain ⟨r, hr⟩ := (h []).mpr (Or.inr rfl)
    rw [hget, if_pos hone, List.getD_eq_getElem?_getD, List.getElem?_eq_getElem hpos] at hr
    exact (hws _ (List.getElem_mem hpos)).plain.ne_nil (Option.some.inj hr)
  · intro hone t
    constructor
    · rintro ⟨r, hr⟩
      rw [hget, if_neg hone, List.getD_eq_getElem?_getD] at hr
      rcases hi : ws[r % (ws.length + 1)]? with _ | w
      · rw [hi] at hr
        exact Or.inr (Option.some.inj hr).symm
      · rw [hi] at hr
        exact Or.inl (Option.some.inj hr ▸ List.mem_of_getElem? hi)
    · intro ht
      obtain ⟨i, hi, hit⟩ : ∃ i ≤ ws.length, ws.getD i [] = t := by
        rcases ht with ht | rfl
        · obtain ⟨i, hi, rfl⟩ := List.getElem_of_mem ht
          exact ⟨i, hi.le, by rw [List.getD_eq_getElem?_getD, List.getElem?_eq_getElem hi]; rfl⟩
        · exact ⟨ws.length, Nat.le_refl _, by rw [List.getD_eq_getElem?_getD, List.getElem?_eq_none (Nat.le_refl _)]; rfl⟩
      have hmod : i % (ws.length + 1) = i := Nat.mod_eq_of_lt (by omega)
      refine ⟨⟨i, by omega⟩, ?_⟩
      rw [hget, if_neg hone, hmod, hit]

end ZfsTest.Libtest
