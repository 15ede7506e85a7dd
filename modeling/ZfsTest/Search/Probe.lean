import Mathlib.Data.List.Basic

/-!
# A search that halves its steps

The search looks at an entry of a table, and goes on in the direction of what it looks for, by steps that are half as long each time
(rounded up, so at last of one entry). It ends where the entry is the one, where an end of the table does not let it move, and, once its
steps are single, between two neighbours of which one is too small and the other too great (`Search.turn` says which of them it
returns). There are no bounds that close in on the entry.

In a table that is sorted the search ends (`ends_cut`): long steps become shorter, and single steps come nearer to the place of what is
looked for (`Cut`), which they pass at most once. What it returns is said in terms of the table in `Sorted.run_ends`.
-/

namespace ZfsTest.Probe

variable {α : Type}

/-- A table, the order of what is looked for and an entry, and the order at the entry that is returned between two neighbours. -/
structure Search (α : Type) where
  table : List α
  order : α → Ordering
  turn : Ordering

variable (s : Search α)

/-- The order at a place of the table. -/
def Search.orderAt (i : Int) : Option Ordering := if 0 ≤ i then s.table[i.toNat]?.map s.order else none

/-- The place, or the end of the table that it is behind. -/
def Search.within (i : Int) : Int :=
  if i > (s.table.length : Int) - 1 then (s.table.length : Int) - 1 else if i < 0 then 0 else i

/-- Where a step leads. -/
def Search.next (o : Ordering) (i : Int) (distance : Nat) : Int := s.within (if o = .lt then i - distance else i + distance)

/-- The loop, with a bound for its rounds. There is no result if the bound is reached or an entry is read that is not there. -/
def probe : Nat → Int → Nat → Option Int
  | 0, _, _ => none
  | fuel + 1, i, distance => do
    let o ← s.orderAt i
    if o = .eq then return i
    let distance := (distance + 1) / 2
    let j := s.next o i distance
    if j = i then return i
    if distance = 1 then
      let o' ← s.orderAt j
      if o' = s.turn.swap ∧ o = s.turn then return i
    probe fuel j distance

/-- The loop ends with a place, given enough rounds. -/
def Ends (i : Int) (distance : Nat) (r : Int) : Prop := ∃ k, ∀ fuel, k ≤ fuel → probe s fuel i distance = some r

/-- The place of what is looked for: entries before it are smaller, entries behind it are greater. -/
structure Cut (p : Nat) : Prop where
  le : p ≤ s.table.length
  below : ∀ i < p, s.orderAt i = some .gt
  here : p < s.table.length → s.orderAt p = some .eq ∨ s.orderAt p = some .lt
  above : ∀ i, p < i → i < s.table.length → s.orderAt i = some .lt

/-- What the search returns: the entry, or else the neighbour of its place. -/
def Search.found (p : Nat) : Nat :=
  if s.orderAt p = some .eq then p else if s.turn = .lt then min p (s.table.length - 1) else p - 1

variable {s} {i j r : Int} {d p : Nat} {o : Ordering}

/-! ## One step -/

theorem probe_succ (fuel : Nat) : probe s (fuel + 1) i d = (do
    let o ← s.orderAt i
    if o = .eq then return i
    let distance := (d + 1) / 2
    let j := s.next o i distance
    if j = i then return i
    if distance = 1 then
      let o' ← s.orderAt j
      if o' = s.turn.swap ∧ o = s.turn then return i
    probe s fuel j distance) := rfl

theorem ends_here (h : s.orderAt i = some .eq) : Ends s i d i := by
  refine ⟨1, fun fuel hf => ?_⟩
  obtain ⟨fuel, rfl⟩ := Nat.exists_eq_add_of_le' hf
  simp [probe_succ, h]

theorem ends_bound (h : s.orderAt i = some o) (hj : s.next o i ((d + 1) / 2) = i) : Ends s i d i := by
  refine ⟨1, fun fuel hf => ?_⟩
  obtain ⟨fuel, rfl⟩ := Nat.exists_eq_add_of_le' hf
  simp [probe_succ, h, hj]

/-- Between two neighbours. -/
theorem ends_turn {o' : Ordering} (h : s.orderAt i = some o) (hd : (d + 1) / 2 = 1) (hj : s.next o i 1 = j)
    (h' : s.orderAt j = some o') (ho : o = s.turn) (ho' : o' = s.turn.swap) : Ends s i d i := by
  refine ⟨1, fun fuel hf => ?_⟩
  obtain ⟨fuel, rfl⟩ := Nat.exists_eq_add_of_le' hf
  subst ho ho'
  simp [probe_succ, h, hd, hj, h']

theorem ends_move {e : Nat} {o' : Ordering} (h : s.orderAt i = some o) (hne : o ≠ .eq) (hd : (d + 1) / 2 = e)
    (hj : s.next o i e = j) (hji : j ≠ i) (h' : s.orderAt j = some o') (hturn : e = 1 → ¬(o' = s.turn.swap ∧ o = s.turn))
    (he : Ends s j e r) : Ends s i d r := by
  obtain ⟨k, hk⟩ := he
  refine ⟨k + 1, fun fuel hf => ?_⟩
  obtain ⟨fuel, rfl⟩ := Nat.exists_eq_add_of_le' hf
  have hrest := hk (fuel + k) (Nat.le_add_left k fuel)
  have hsum : fuel + (k + 1) = fuel + k + 1 := rfl
  subst hd
  rw [hsum, probe_succ]
  by_cases hd : (d + 1) / 2 = 1
  · have hno := hturn hd
    rw [hd] at hj hrest
    simp [h, hne, hj, hji, hd, h', hno, hrest]
  · simp [h, hne, hj, hji, hd, hrest]

/-! ## Steps in the table -/

theorem next_down (i d : Nat) (hi : i < s.table.length) : s.next .lt i d = ((i - d : Nat) : Int) := by
  unfold Search.next Search.within
  rw [if_pos rfl]
  split
  · omega
  · split <;> omega

theorem next_up (i d : Nat) (hi : i < s.table.length) : s.next .gt i d = ((min (i + d) (s.table.length - 1) : Nat) : Int) := by
  have hne : ¬Ordering.gt = Ordering.lt := by decide
  unfold Search.next Search.within
  rw [if_neg hne]
  rcases Nat.le_total (i + d) (s.table.length - 1) with h | h
  · rw [Nat.min_eq_left h, if_neg (by omega), if_neg (by omega), Int.natCast_add]
  · rw [Nat.min_eq_right h]
    split <;> omega

/-! ## What is returned -/

theorem found_here (h : s.orderAt p = some .eq) : s.found p = p := if_pos h

theorem found_lt (ht : s.turn = .lt) (h : s.orderAt p ≠ some .eq) : s.found p = min p (s.table.length - 1) := by
  unfold Search.found
  rw [if_neg h, if_pos ht]

theorem found_gt (ht : s.turn = .gt) (h : s.orderAt p ≠ some .eq) : s.found p = p - 1 := by
  have hne : s.turn ≠ .lt := by
    rw [ht]
    decide
  unfold Search.found
  rw [if_neg h, if_neg hne]

/-! ## Single steps -/

namespace Cut

variable (hc : Cut s p)

include hc

theorem order_cases {i : Nat} (hi : i < s.table.length) :
    (i < p ∧ s.orderAt i = some .gt) ∨ (i = p ∧ s.orderAt i = some .eq) ∨ (p ≤ i ∧ s.orderAt i = some .lt) := by
  rcases Nat.lt_trichotomy i p with h | rfl | h
  · exact Or.inl ⟨h, hc.below i h⟩
  · rcases hc.here hi with h | h
    · exact Or.inr (Or.inl ⟨rfl, h⟩)
    · exact Or.inr (Or.inr ⟨Nat.le_refl i, h⟩)
  · exact Or.inr (Or.inr ⟨Nat.le_of_lt h, hc.above i h hi⟩)

theorem exists_order {i : Nat} (hi : i < s.table.length) : ∃ o, s.orderAt i = some o := by
  rcases hc.order_cases hi with ⟨-, h⟩ | ⟨-, h⟩ | ⟨-, h⟩ <;> exact ⟨_, h⟩

/-- The first entry is too great. -/
theorem ends_first (ht : s.turn = .lt ∨ s.turn = .gt) (hn : 0 < s.table.length) (h : s.orderAt (0 : Nat) = some .lt) :
    Ends s (0 : Nat) d (s.found p) := by
  have hp : p = 0 := by
    rcases hc.order_cases hn with ⟨-, h'⟩ | ⟨-, h'⟩ | ⟨hle, -⟩
    · rw [h] at h'
      cases h'
    · rw [h] at h'
      cases h'
    · exact Nat.le_zero.mp hle
  subst hp
  have hne : s.orderAt (0 : Nat) ≠ some .eq := by
    rw [h]
    decide
  have hfound : s.found 0 = 0 := by
    rcases ht with ht | ht
    · rw [found_lt ht hne, Nat.zero_min]
    · rw [found_gt ht hne]
  rw [hfound]
  apply ends_bound h
  rw [next_down 0 _ hn, Nat.zero_sub]

/-- The last entry is too small. -/
theorem ends_last (ht : s.turn = .lt ∨ s.turn = .gt) {i : Nat} (hi : i + 1 = s.table.length) (h : s.orderAt i = some .gt) :
    Ends s i d (s.found p) := by
  have hle := hc.le
  have hp : p = i + 1 := by
    rcases hc.order_cases (show i < s.table.length by omega) with ⟨hlt, -⟩ | ⟨-, h'⟩ | ⟨-, h'⟩
    · omega
    · rw [h] at h'
      cases h'
    · rw [h] at h'
      cases h'
  subst hp
  have hne : s.orderAt (i + 1 : Nat) ≠ some .eq := by
    unfold Search.orderAt
    rw [if_pos (Int.natCast_nonneg _), Int.toNat_natCast, List.getElem?_eq_none (by omega)]
    exact nofun
  have hfound : s.found (i + 1) = i := by
    rcases ht with ht | ht
    · rw [found_lt ht hne]
      omega
    · rw [found_gt ht hne]
      rfl
  rw [hfound]
  apply ends_bound h
  rw [next_up i _ (by omega), Nat.min_eq_right (by omega)]
  omega

/-- At the place of what is looked for and is not there. -/
theorem ends_gap (ht : s.turn = .lt ∨ s.turn = .gt) (hp : p < s.table.length) (h : s.orderAt p = some .lt) (hd : (d + 1) / 2 = 1) :
    Ends s p d (s.found p) := by
  have hne : s.orderAt p ≠ some .eq := by
    rw [h]
    decide
  cases p with
  | zero => exact hc.ends_first ht hp h
  | succ q =>
    have hq : s.orderAt q = some .gt := hc.below q (Nat.lt_succ_self q)
    have hdown : s.next .lt (q + 1 : Nat) 1 = q := next_down (q + 1) 1 hp
    rcases ht with ht | ht
    · rw [found_lt ht hne, Nat.min_eq_left (by omega)]
      apply ends_turn h hd hdown hq ht.symm
      rw [ht]
      rfl
    · -- one step down more, and the search returns from there
      rw [found_gt ht hne]
      have hup : s.next .gt q 1 = ((q + 1 : Nat) : Int) := by
        rw [next_up q _ (by omega), Nat.min_eq_left (by omega)]
      refine ends_move h (by decide) hd hdown (by omega) hq (fun _ hno => ?_) (ends_turn hq rfl hup h ht.symm ?_)
      · rw [ht] at hno
        exact absurd hno.2 (by decide)
      · rw [ht]
        rfl

theorem ends_here (ht : s.turn = .lt ∨ s.turn = .gt) (hp : p < s.table.length) (hd : (d + 1) / 2 = 1) : Ends s p d (s.found p) := by
  rcases hc.here hp with h | h
  · rw [found_here h]
    exact Probe.ends_here h
  · exact hc.ends_gap ht hp h hd

/-- Single steps from below. -/
theorem ends_up (ht : s.turn = .lt ∨ s.turn = .gt) (k : Nat) {i : Nat} (hk : i + k = p) (hi : i < s.table.length)
    (hd : (d + 1) / 2 = 1) : Ends s i d (s.found p) := by
  induction k generalizing i d with
  | zero =>
    obtain rfl : i = p := hk
    exact hc.ends_here ht hi hd
  | succ k ih =>
    have h : s.orderAt i = some .gt := hc.below i (by omega)
    by_cases hend : i + 1 = s.table.length
    · exact hc.ends_last ht hend h
    · have hup : s.next .gt i 1 = ((i + 1 : Nat) : Int) := by
        rw [next_up i 1 hi, Nat.min_eq_left (by omega)]
      have hrest : Ends s (i + 1 : Nat) 1 (s.found p) := ih (by omega) (by omega) rfl
      obtain ⟨o', h'⟩ := hc.exists_order (show i + 1 < s.table.length by omega)
      by_cases hturn : o' = s.turn.swap ∧ Ordering.gt = s.turn
      · -- the entry above is too great, so what is looked for is not there
        obtain ⟨ho', hgt⟩ := hturn
        have hlt : s.orderAt (i + 1 : Nat) = some .lt := by
          rw [h', ho', ← hgt]
          rfl
        have hp : p = i + 1 := by
          rcases hc.order_cases (show i + 1 < s.table.length by omega) with ⟨-, h''⟩ | ⟨-, h''⟩ | ⟨hle, -⟩
          · rw [hlt] at h''
            cases h''
          · rw [hlt] at h''
            cases h''
          · omega
        have hne : s.orderAt p ≠ some .eq := by
          rw [hp, hlt]
          decide
        rw [found_gt hgt.symm hne, hp, Nat.add_sub_cancel]
        exact ends_turn h hd hup h' hgt ho'
      · exact ends_move h (by decide) hd hup (by omega) h' (fun _ => hturn) hrest

/-- Single steps from above. -/
theorem ends_down (ht : s.turn = .lt ∨ s.turn = .gt) (k : Nat) {i : Nat} (hk : i = p + k) (hi : i < s.table.length)
    (hd : (d + 1) / 2 = 1) : Ends s i d (s.found p) := by
  induction k generalizing i d with
  | zero =>
    obtain rfl : i = p := hk
    exact hc.ends_here ht hi hd
  | succ k ih =>
    have h : s.orderAt i = some .lt := hc.above i (by omega) hi
    have hbelow : i - 1 < s.table.length := by omega
    have hrest : Ends s (i - 1 : Nat) 1 (s.found p) := ih (by omega) hbelow rfl
    obtain ⟨o', h'⟩ := hc.exists_order hbelow
    refine ends_move h (by decide) hd (next_down i 1 hi) (by omega) h' (fun _ hno => ?_) hrest
    -- the entry below is not too small
    obtain rfl : o' = .gt := by
      rw [hno.1, ← hno.2]
      rfl
    rcases hc.order_cases hbelow with ⟨hlt, -⟩ | ⟨-, heq⟩ | ⟨-, hlt⟩
    · omega
    · rw [h'] at heq
      cases heq
    · rw [h'] at hlt
      cases hlt

end Cut

/-! ## The whole search -/

/-- A sorted table is searched to the end, from any of its places. -/
theorem ends_cut (hc : Cut s p) (ht : s.turn = .lt ∨ s.turn = .gt) {i : Nat} (hi : i < s.table.length) (hd : 0 < d) :
    Ends s i d (s.found p) := by
  induction d using Nat.strongRecOn generalizing i with
  | _ d ih =>
    by_cases hone : (d + 1) / 2 = 1
    · rcases Nat.le_total i p with h | h
      · exact hc.ends_up ht (p - i) (by omega) hi hone
      · exact hc.ends_down ht (i - p) (by omega) hi hone
    · -- the step is longer than one entry, and shorter than the one before
      have hshort : (d + 1) / 2 < d := by omega
      have hpos : 0 < (d + 1) / 2 := by omega
      rcases hc.order_cases hi with ⟨-, h⟩ | ⟨rfl, h⟩ | ⟨-, h⟩
      · by_cases hlast : i + 1 = s.table.length
        · exact hc.ends_last ht hlast h
        · have hj : min (i + (d + 1) / 2) (s.table.length - 1) < s.table.length := by omega
          obtain ⟨o', h'⟩ := hc.exists_order hj
          exact ends_move h (by decide) rfl (next_up i _ hi) (by omega) h' (fun h1 => absurd h1 hone) (ih _ hshort hj hpos)
      · rw [found_here h]
        exact ends_here h
      · by_cases hfirst : i = 0
        · subst hfirst
          exact hc.ends_first ht hi h
        · have hj : i - (d + 1) / 2 < s.table.length := by omega
          obtain ⟨o', h'⟩ := hc.exists_order hj
          exact ends_move h (by decide) rfl (next_down i _ hi) (by omega) h' (fun h1 => absurd h1 hone) (ih _ hshort hj hpos)

/-- The search begins in the middle. -/
def Search.run (s : Search α) (fuel : Nat) : Option α :=
  let distance := s.table.length / 2
  (probe s fuel ((distance : Int) - 1) distance).bind fun i => s.table[i.toNat]?

theorem orderAt_natCast (i : Nat) : s.orderAt i = s.table[i]?.map s.order := by
  unfold Search.orderAt
  rw [if_pos (Int.natCast_nonneg i), Int.toNat_natCast]

theorem orderAt_getElem {i : Nat} (hi : i < s.table.length) : s.orderAt i = some (s.order s.table[i]) := by
  rw [orderAt_natCast, List.getElem?_eq_getElem hi]
  rfl

theorem found_lt_length (hc : Cut s p) (hn : 0 < s.table.length) : s.found p < s.table.length := by
  have hle := hc.le
  unfold Search.found
  split
  · rename_i h
    by_contra hp
    rw [orderAt_natCast, List.getElem?_eq_none (by omega)] at h
    cases h
  · split <;> omega

/-- Where behind an entry that is not too small all entries are too great, there is a place of what is looked for. -/
theorem exists_cut (hs : s.table.Pairwise fun a b => s.order a ≠ .gt → s.order b = .lt) : ∃ p, Cut s p := by
  refine ⟨s.table.findIdx fun e => decide (s.order e ≠ .gt), List.findIdx_le_length, ?_, ?_, ?_⟩
  · intro i hi
    have hlen : i < s.table.length := Nat.lt_of_lt_of_le hi List.findIdx_le_length
    have h := List.not_of_lt_findIdx hi
    rw [orderAt_getElem hlen]
    simpa using h
  · intro hp
    have h := List.findIdx_getElem (w := hp)
    rw [orderAt_getElem hp]
    revert h
    cases s.order s.table[s.table.findIdx fun e => decide (s.order e ≠ .gt)] <;> simp
  · intro i hi hlen
    have hp : (s.table.findIdx fun e => decide (s.order e ≠ .gt)) < s.table.length := Nat.lt_trans hi hlen
    have h := List.findIdx_getElem (w := hp)
    rw [orderAt_getElem hlen, List.pairwise_iff_getElem.mp hs _ i hp hlen hi (of_decide_eq_true h)]

/-- Behind an entry that is not too small all entries are too great. -/
structure Sorted (s : Search α) : Prop where
  increasing : s.table.Pairwise fun a b => s.order a ≠ .gt → s.order b = .lt
  turn : s.turn = .lt ∨ s.turn = .gt
  two : 2 ≤ s.table.length

/-- The search ends with an entry of the table: the one that is looked for, if it is there. A search that turns back to the greater
neighbour returns the first entry that is not too small, if there is one. -/
theorem Sorted.run_ends (hs : Sorted s) : ∃ k i, ∃ hi : i < s.table.length, (∀ fuel, k ≤ fuel → s.run fuel = some s.table[i]) ∧
    (∀ (j : Nat) (hj : j < s.table.length), s.order s.table[j] = .eq → j = i) ∧
    (s.turn = .lt → ∀ (j : Nat) (hj : j < s.table.length), s.order s.table[j] ≠ .gt → s.order s.table[i] ≠ .gt ∧ i ≤ j) := by
  obtain ⟨p, hc⟩ := exists_cut hs.increasing
  have htwo := hs.two
  have hstart : ((s.table.length / 2 : Nat) : Int) - 1 = ((s.table.length / 2 - 1 : Nat) : Int) := by omega
  have hmid : s.table.length / 2 - 1 < s.table.length := by omega
  have hpos : 0 < s.table.length / 2 := by omega
  have hfound := found_lt_length hc (by omega)
  obtain ⟨k, hk⟩ := ends_cut hc hs.turn hmid hpos
  refine ⟨k, s.found p, hfound, fun fuel hf => ?_, ?_, ?_⟩
  · unfold Search.run
    simp only [hstart]
    rw [hk fuel hf, Option.bind_some, Int.toNat_natCast, List.getElem?_eq_getElem hfound]
  · intro j hj heq
    have hj' : s.orderAt j = some .eq := by rw [orderAt_getElem hj, heq]
    rcases hc.order_cases hj with ⟨-, h⟩ | ⟨rfl, h⟩ | ⟨-, h⟩
    · rw [hj'] at h
      cases h
    · exact (found_here h).symm
    · rw [hj'] at h
      cases h
  · intro ht j hj hle
    have hpj : p ≤ j := by
      by_contra hlt
      have h := hc.below j (by omega)
      rw [orderAt_getElem hj] at h
      exact hle (Option.some.inj h)
    have hp : s.found p = p := by
      by_cases h : s.orderAt p = some .eq
      · exact found_here h
      · rw [found_lt ht h]
        omega
    have hplen : p < s.table.length := by omega
    simp only [hp]
    refine ⟨?_, hpj⟩
    intro hgt
    rcases hc.here hplen with h | h
    · rw [orderAt_getElem hplen, hgt] at h
      cases h
    · rw [orderAt_getElem hplen, hgt] at h
      cases h

end ZfsTest.Probe
