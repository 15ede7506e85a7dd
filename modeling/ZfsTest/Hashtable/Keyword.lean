import ZfsTest.Num.Signed
import ZfsTest.Prog.Loop
import ZfsTest.Search.Probe
import ZfsTest.Text.Casecmp

/-!
# Keywords of the test program, `keyword_locate` of `basic.c`

The test program of the hash table looks its keywords up in a sorted table, by the steps of `Search.Probe` with the turn from below. The
loop compares the pointers of two entries to tell that it has not moved, and its variables are of type `int`: the table may have as many
entries as leave room for `entries + 1` (`Keywords`). Then no sum overflows (`Bounded`), each round is a round of the search (`locateRound_eq`),
and the index that is returned is that of the keyword (`keywordLocate_spec`).
-/

namespace ZfsTest.Hashtable.Keyword

open Probe

/-- A table of pointers to strings, in a memory, sorted by `strcasecmp`, with a number of entries that is smaller than the greatest `int` of
`w` bits. -/
structure Keywords (w : Nat) where
  table : List Nat
  str : Nat → Text
  ne_nil : table ≠ []
  increasing : table.Pairwise fun p q => strcasecmp (str p) (str q) = .lt
  fits : (table.length : Int) < maxSigned w

/-- The variables of the loop. -/
structure Locate where
  tk : Nat
  index : Int
  distance : Int

section

variable {w : Nat} (t : Keywords w)

/-- `table[index]`; nothing outside of the table. -/
def readTable (index : Int) : Option Nat := if 0 ≤ index then t.table[index.toNat]? else none

def entries : Int := t.table.length

/-- One round of the loop. -/
def locateRound (keyword : Text) (s : Locate) : Round Locate Int :=
  let direction := strcasecmp keyword (t.str s.tk)
  if direction = .eq then .done s.index
  else
    let tp := s.tk
    let distance := (wrap w (s.distance + 1)).tdiv 2
    let index := wrap w (s.index + if direction = .lt then -distance else distance)
    let index := if index ≥ entries t then entries t - 1 else index
    let index := if index < 0 then 0 else index
    match readTable t index with
    | none => .fault
    | some tk =>
      if tk = tp then .done (-1)
      else if distance = 1 ∧ strcasecmp (t.str tk) keyword = .gt ∧ strcasecmp (t.str tp) keyword = .lt then .done (-2)
      else .next ⟨tk, index, distance⟩

/-- `keyword_locate` returns `r`. -/
def KeywordLocate (keyword : Text) (r : Int) : Prop :=
  let distance := (wrap w (entries t + 1)).tdiv 2
  let index := wrap w (distance - 1)
  ∃ tk, readTable t index = some tk ∧ Loop.Ends (locateRound t keyword) ⟨tk, index, distance⟩ r

/-- An entry is the keyword, in upper or lower case. -/
def IsKeyword (keyword : Text) (i : Nat) (hi : i < t.table.length) : Prop :=
  (t.str t.table[i]).map Char.toLower = keyword.map Char.toLower

end

/-! ## The search -/

variable {w : Nat} {t : Keywords w} {keyword : Text} {i d : Nat}

/-- The strings of the table. -/
def Keywords.search (t : Keywords w) (keyword : Text) : Search Text := ⟨t.table.map t.str, strcasecmp keyword, .gt⟩

theorem length_search : (t.search keyword).table.length = t.table.length := List.length_map _

theorem turn_search : (t.search keyword).turn = .gt := rfl

theorem orderAt_search (hi : i < t.table.length) : (t.search keyword).orderAt i = some (strcasecmp keyword (t.str t.table[i])) := by
  rw [orderAt_natCast, Keywords.search, List.getElem?_map, List.getElem?_eq_getElem hi]
  rfl

theorem readTable_eq (hi : i < t.table.length) : readTable t i = some t.table[i] := by
  rw [readTable, if_pos (Int.natCast_nonneg i), Int.toNat_natCast, List.getElem?_eq_getElem hi]

/-- Different entries are different pointers. -/
theorem pointer_inj {j : Nat} (hi : i < t.table.length) (hj : j < t.table.length) : t.table[i] = t.table[j] ↔ i = j := by
  have hirrefl : ∀ p, strcasecmp (t.str p) (t.str p) ≠ .lt := by
    intro p
    rw [(strcasecmp_eq_iff _ _).mpr rfl]
    decide
  constructor
  · intro h
    have hsorted := List.pairwise_iff_getElem.mp t.increasing
    rcases Nat.lt_trichotomy i j with hij | hij | hij
    · exact absurd (hsorted i j hi hj hij) (h ▸ hirrefl _)
    · exact hij
    · exact absurd (hsorted j i hj hi hij) (h ▸ hirrefl _)
  · rintro rfl
    rfl

/-! ## No overflow -/

/-- Half of a distance is at most a power of two, and the place leaves room for it. -/
structure Bounded (w n i d : Nat) : Prop where
  lt : i < n
  pos : 0 < d
  room : ∃ e, e + 2 ≤ w ∧ d ≤ 2 ^ e ∧ i + 2 ^ e + 2 ≤ 2 ^ (w - 1)

theorem Keywords.room (t : Keywords w) : t.table.length + 2 ≤ 2 ^ (w - 1) := by
  have hfits := t.fits
  have hmax := maxSigned_add_one w
  omega

theorem distance_start (t : Keywords w) : (wrap w (entries t + 1)).tdiv 2 = ((t.table.length + 1) / 2 : Nat) := by
  have hroom := t.room
  have hmax := maxSigned_add_one w
  have hmin := minSigned_eq w
  have hw : 0 < w := by
    by_contra h
    obtain rfl : w = 0 := by omega
    simp at hroom
  have hrange : InRange w (entries t + 1) := by
    unfold InRange entries
    omega
  rw [wrap_of_inRange hw hrange, entries, Int.tdiv_eq_ediv_of_nonneg (by omega)]
  omega

/-- At the beginning. -/
theorem bounded_start (t : Keywords w) : Bounded w t.table.length ((t.table.length + 1) / 2 - 1) ((t.table.length + 1) / 2) := by
  have hpos := List.length_pos_iff.mpr t.ne_nil
  have hroom := t.room
  obtain ⟨v, rfl⟩ : ∃ v, w = v + 2 := by
    match w with
    | 0 => exact absurd hroom (by simp)
    | 1 => exact absurd hroom (by simp)
    | v + 2 => exact ⟨v, rfl⟩
  have hpow : 2 ^ (v + 2 - 1) = 2 ^ v * 2 := Nat.pow_succ 2 v
  refine ⟨by omega, by omega, v, Nat.le_refl _, by omega, by omega⟩

namespace Bounded

variable {n : Nat}

/-- One step. -/
theorem next (hb : Bounded w n i d) (hn : n + 2 ≤ 2 ^ (w - 1)) {j : Nat} (hj : j < n) (hle : j ≤ i + (d + 1) / 2) :
    Bounded w n j ((d + 1) / 2) := by
  obtain ⟨hlt, hpos, e, hw, hd, hroom⟩ := hb
  refine ⟨hj, by omega, ?_⟩
  cases e with
  | zero => exact ⟨0, hw, by omega, by omega⟩
  | succ e =>
    rw [Nat.pow_succ] at hd hroom
    exact ⟨e, by omega, by omega, by omega⟩

theorem width_pos (hb : Bounded w n i d) : 0 < w := by
  obtain ⟨e, hw, -⟩ := hb.room
  omega

/-- A number between the least and the greatest `int`. -/
theorem wrap_eq (hb : Bounded w n i d) {x : Int} (hlo : -(d : Int) ≤ x) (hhi : x ≤ i + d + 1) : wrap w x = x := by
  obtain ⟨e, -, hd, hroom⟩ := hb.room
  have hmax := maxSigned_add_one w
  have hmin := minSigned_eq w
  apply wrap_of_inRange hb.width_pos
  unfold InRange
  omega

theorem distance_eq (hb : Bounded w n i d) : (wrap w ((d : Int) + 1)).tdiv 2 = ((d + 1) / 2 : Nat) := by
  rw [hb.wrap_eq (by omega) (by omega), Int.tdiv_eq_ediv_of_nonneg (by omega)]
  omega

end Bounded

/-! ## A round is a round of the search -/

/-- The place that the index is brought back to. -/
theorem within_search (x : Int) : (t.search keyword).within x =
    if (if x ≥ entries t then entries t - 1 else x) < 0 then 0 else if x ≥ entries t then entries t - 1 else x := by
  have hlen : (t.search keyword).table.length = t.table.length := length_search
  have hpos := List.length_pos_iff.mpr t.ne_nil
  unfold Search.within entries
  rw [hlen]
  split_ifs <;> omega

/-- A step of the search stays in the table. -/
theorem next_search (keyword : Text) (o : Ordering) (ho : o ≠ .eq) (hi : i < t.table.length) (e : Nat) : ∃ j, j < t.table.length ∧ j ≤ i + e ∧
    (t.search keyword).next o i e = (j : Int) := by
  have hlen : (t.search keyword).table.length = t.table.length := length_search
  cases o with
  | lt =>
    rw [next_down i e (hlen ▸ hi)]
    exact ⟨i - e, by omega, by omega, rfl⟩
  | eq => exact absurd rfl ho
  | gt =>
    rw [next_up i e (hlen ▸ hi)]
    exact ⟨min (i + e) ((t.search keyword).table.length - 1), by omega, by omega, rfl⟩

/-- A round behind an entry that is not the keyword. -/
theorem locateRound_eq (hb : Bounded w t.table.length i d) (hi : i < t.table.length) {o : Ordering}
    (ho : strcasecmp keyword (t.str t.table[i]) = o) (hne : o ≠ .eq) {j : Nat} (hj : j < t.table.length)
    (hnext : (t.search keyword).next o i ((d + 1) / 2) = (j : Int)) :
    locateRound t keyword ⟨t.table[i], i, d⟩ =
      if j = i then .done (-1)
      else if (d + 1) / 2 = 1 ∧ strcasecmp keyword (t.str t.table[j]) = .lt ∧ o = .gt then .done (-2)
      else .next ⟨t.table[j], j, ((d + 1) / 2 : Nat)⟩ := by
  have hstep : wrap w ((i : Int) + if o = .lt then -(((d + 1) / 2 : Nat) : Int) else ((d + 1) / 2 : Nat)) =
      if o = .lt then (i : Int) - ((d + 1) / 2 : Nat) else i + ((d + 1) / 2 : Nat) := by
    have hpos := hb.pos
    split
    · rw [hb.wrap_eq (by omega) (by omega)]
      rfl
    · rw [hb.wrap_eq (by omega) (by omega)]
  have hplace := hnext.symm.trans (within_search _)
  have hone : (((d + 1) / 2 : Nat) : Int) = 1 ↔ (d + 1) / 2 = 1 := by omega
  have htk : strcasecmp (t.str t.table[j]) keyword = .gt ↔ strcasecmp keyword (t.str t.table[j]) = .lt := by
    rw [strcasecmp_swap keyword, Ordering.swap_eq_gt]
  have htp : strcasecmp (t.str t.table[i]) keyword = .lt ↔ o = .gt := by
    rw [strcasecmp_swap keyword, ho, Ordering.swap_eq_lt]
  simp only [locateRound, ho, if_neg hne, hb.distance_eq, hstep, ← hplace, readTable_eq hj, pointer_inj hj hi, hone, htk, htp]

/-- Where the search ends, the loop returns: the index of the keyword, or a negative value. -/
theorem locate_of_probe {fuel : Nat} {r : Int} (hb : Bounded w t.table.length i d) (hi : i < t.table.length)
    (h : probe (t.search keyword) fuel i d = some r) : ∃ v, Loop.Ends (locateRound t keyword) ⟨t.table[i], i, d⟩ v ∧
      ((t.search keyword).orderAt r = some .eq → v = r) ∧ ((t.search keyword).orderAt r ≠ some .eq → v < 0) := by
  induction fuel generalizing i d with
  | zero => cases h
  | succ fuel ih =>
    have horder : (t.search keyword).orderAt i = some (strcasecmp keyword (t.str t.table[i])) := orderAt_search hi
    by_cases heq : strcasecmp keyword (t.str t.table[i]) = .eq
    · have hr : (i : Int) = r := by simpa [probe, horder, heq] using h
      rw [heq] at horder
      refine ⟨i, Loop.ends_done ?_, fun _ => hr, fun hne => absurd (hr ▸ horder) hne⟩
      simp only [locateRound, heq, if_true]
    · obtain ⟨j, hj, hle, hnext⟩ := next_search keyword _ heq hi ((d + 1) / 2)
      have hround := locateRound_eq hb hi rfl heq hj hnext
      have hother : (t.search keyword).orderAt j = some (strcasecmp keyword (t.str t.table[j])) := orderAt_search hj
      have hmiss : (t.search keyword).orderAt i ≠ some .eq := by
        rw [horder]
        exact fun h => heq (Option.some.inj h)
      -- the loop returns here
      have hhere : (i : Int) = r → ∀ v : Int, v < 0 → locateRound t keyword ⟨t.table[i], i, d⟩ = .done v →
          ∃ v, Loop.Ends (locateRound t keyword) ⟨t.table[i], i, d⟩ v ∧
            ((t.search keyword).orderAt r = some .eq → v = r) ∧ ((t.search keyword).orderAt r ≠ some .eq → v < 0) := by
        rintro rfl v hv hdone
        exact ⟨v, Loop.ends_done hdone, fun h => absurd h hmiss, fun _ => hv⟩
      have hji : (j : Int) = i ↔ j = i := Int.natCast_inj
      by_cases hsame : j = i
      · rw [if_pos hsame] at hround
        have hr : (i : Int) = r := by simpa [probe, horder, heq, hnext, hsame] using h
        exact hhere hr _ (by decide) hround
      · rw [if_neg hsame] at hround
        by_cases hturn : (d + 1) / 2 = 1 ∧ strcasecmp keyword (t.str t.table[j]) = .lt ∧ strcasecmp keyword (t.str t.table[i]) = .gt
        · rw [if_pos hturn] at hround
          obtain ⟨hone, hlt, hgt⟩ := hturn
          rw [hone, hgt] at hnext
          rw [hgt] at horder
          rw [hlt] at hother
          have hr : (i : Int) = r := by simpa [probe, horder, hone, hnext, hji, hsame, hother, turn_search] using h
          exact hhere hr _ (by decide) hround
        · rw [if_neg hturn] at hround
          have hrest : probe (t.search keyword) fuel j ((d + 1) / 2) = some r := by
            by_cases hone : (d + 1) / 2 = 1
            · have hno : ¬(strcasecmp keyword (t.str t.table[j]) = .lt ∧ strcasecmp keyword (t.str t.table[i]) = .gt) :=
                fun h => hturn ⟨hone, h⟩
              rw [hone] at hnext ⊢
              simpa [probe, horder, heq, hone, hnext, hji, hsame, hother, turn_search, hno] using h
            · simpa [probe, horder, heq, hone, hnext, hji, hsame] using h
          obtain ⟨v, hv, hspec⟩ := ih (hb.next t.room hj hle) hj hrest
          exact ⟨v, Loop.ends_next hround hv, hspec⟩

/-! ## What is returned -/

theorem isKeyword_iff (hi : i < t.table.length) :
    IsKeyword t keyword i hi ↔ (t.search keyword).orderAt i = some .eq := by
  rw [orderAt_search hi, Option.some_inj, strcasecmp_eq_iff, IsKeyword]
  exact eq_comm

/-- The search ends, reads nothing but the table, and returns the index of the keyword if there is one, and else a negative value. -/
theorem keywordLocate_spec (t : Keywords w) (keyword : Text) : ∃ r, KeywordLocate t keyword r ∧
    (∀ (i : Nat) (hi : i < t.table.length), r = i ↔ IsKeyword t keyword i hi) ∧
    (r < 0 ↔ ∀ (i : Nat) (hi : i < t.table.length), ¬IsKeyword t keyword i hi) := by
  have hpos := List.length_pos_iff.mpr t.ne_nil
  have hlen : (t.search keyword).table.length = t.table.length := length_search
  have hsorted : (t.search keyword).table.Pairwise fun a b => (t.search keyword).order a ≠ .gt → (t.search keyword).order b = .lt := by
    rw [Keywords.search, List.pairwise_map]
    exact t.increasing.imp fun {p q} hpq hp => strcasecmp_trans hp hpq
  obtain ⟨p, hc⟩ := exists_cut hsorted
  have hb := bounded_start t
  have hmid : (t.table.length + 1) / 2 - 1 < (t.search keyword).table.length := by
    rw [hlen]
    exact hb.lt
  obtain ⟨k, hk⟩ := ends_cut hc (Or.inr turn_search) hmid hb.pos
  obtain ⟨v, hv, hfound, hmiss⟩ := locate_of_probe hb hb.lt (hk k (Nat.le_refl k))
  have hplace : (t.search keyword).found p < t.table.length := by
    rw [← hlen]
    exact found_lt_length hc (by omega)
  -- an entry that is the keyword is the one that the search ends with
  have hhit : ∀ (i : Nat) (hi : i < t.table.length), IsKeyword t keyword i hi → v = i := by
    intro i hi h
    have heq := (isKeyword_iff hi).mp h
    rcases hc.order_cases (hlen ▸ hi) with ⟨-, h'⟩ | ⟨rfl, -⟩ | ⟨-, h'⟩
    · rw [heq] at h'
      cases h'
    · have hhere := found_here heq
      rw [hhere] at hfound
      exact hfound heq
    · rw [heq] at h'
      cases h'
  have hnone : (∀ (i : Nat) (hi : i < t.table.length), ¬IsKeyword t keyword i hi) → v < 0 := fun h =>
    hmiss fun heq => h _ hplace ((isKeyword_iff hplace).mpr heq)
  refine ⟨v, ?_, fun i hi => ⟨fun h => ?_, hhit i hi⟩, fun h i hi h' => ?_, hnone⟩
  · have hindex : wrap w ((((t.table.length + 1) / 2 : Nat) : Int) - 1) = ((t.table.length + 1) / 2 - 1 : Nat) := by
      rw [hb.wrap_eq (by omega) (by omega)]
      omega
    simp only [KeywordLocate, distance_start t, hindex]
    exact ⟨_, readTable_eq hb.lt, hv⟩
  · by_contra h'
    have hneg := hnone fun j hj hkey => ?_
    · omega
    · have hij : i = j := Int.natCast_inj.mp (h.symm.trans (hhit j hj hkey))
      subst hij
      exact h' hkey
  · have hcast := hhit i hi h'
    omega

/-- Three words at three places of the memory. -/
def Keywords.sample : Keywords 32 where
  table := [100, 200, 300]
  str p := if p = 100 then "abort".toList else if p = 200 then "Pass".toList else "skip".toList
  ne_nil := List.cons_ne_nil _ _
  increasing := by decide
  fits := by decide

theorem keywordLocate_spec_sample : KeywordLocate Keywords.sample "PASS".toList 1 := by
  obtain ⟨r, hr, hindex, -⟩ := keywordLocate_spec Keywords.sample "PASS".toList
  have hone : r = (1 : Nat) := (hindex 1 (by decide)).mpr (by unfold IsKeyword; decide)
  subst hone
  exact hr

end ZfsTest.Hashtable.Keyword
