import Mathlib.Algebra.BigOperators.Group.List.Basic
import ZfsTest.Stf.Code
import ZfsTest.Stf.Compare

/-!
# Reports read back

`stf_filter` reads the reports that it writes, so journals can be counted in parts and the parts be merged. The lines of a report are a
list of additions (`shows_report`): each count of a result, and besides these the heading of the totals and the totals, which the
reader takes for results. Every other result is counted once for each entry of the journals, in whatever parts they have been read
(`merged_counts`).
-/

namespace ZfsTest.Stf.Filter

open Compare (pairOf pairOf_key)

/-- Without `-r` and `-p`. -/
def everything : Text → Text → Bool := fun _ _ => true

/-! ## Additions -/

/-- A test, the name of a result, and a number that is added to its count. -/
abbrev Addition := (Text × Text) × Int

def State.adds (st : State) (as : List Addition) : State := as.foldl (fun st a => addResult everything st a.1.1 a.1.2 a.2) st

/-- The additions for a line of a baseline file. -/
def lineAdds (line : Text) : List Addition :=
  (fields line).tail.map fun result => (((fields line).headD [], (resultOf result).1), (resultOf result).2)

/-- The sum of the numbers at the keys in `p`. -/
def sumOf {α : Type} (l : List (α × Int)) (p : α → Bool) : Int := ((l.filter fun x => p x.1).map Prod.snd).sum

/-- The sum of the counts of the results in `P`. -/
def State.tally (st : State) (P : Text × Text → Bool) : Int := sumOf st.results fun k => P (pairOf k)

/-- The additions for the lines of a report. -/
def shown (st : State) : List Addition :=
  (st.results.sortedKeys.map fun k => (pairOf k, st.results.count (key (pairOf k).1 (pairOf k).2))) ++
    (("Result".toList, "Total".toList), 1) :: st.totals.sortedKeys.map fun k => ((k ++ [':'], intText (st.totals.count k)), 1)

/-- A text that is printed as an id. -/
def IsId (t : Text) : Prop := t ≠ [] ∧ ∀ c ∈ t, isSpace c = false ∧ c ≠ '\x1c'

/-- A text that is printed as the name of a result. -/
def IsName (t : Text) : Prop := ∀ c ∈ t, isSpace c = false ∧ c ≠ '\x1c' ∧ c ≠ ':'

/-- A version, as it is printed in the header. -/
def IsVers (t : Text) : Prop := '\n' ∉ t ∧ '\x1c' ∉ t

structure Addition.Ok (a : Addition) : Prop where
  id : IsId a.1.1
  name : IsName a.1.2
  pos : 0 < a.2

/-- Counts that can be printed and read back. -/
structure Tidy (st : State) : Prop where
  header : st.firstFile = true → ∃ vers, IsVers vers ∧ st.out = Basekey ++ [' '] ++ vers
  blank : st.firstFile = false → st.out = []
  nodup : (st.results.map Prod.fst).Nodup
  results : ∀ x ∈ st.results, ∃ id r, x.1 = key id r ∧ IsId id ∧ IsName r ∧ 0 < x.2
  nodup_totals : (st.totals.map Prod.fst).Nodup
  totals : ∀ x ∈ st.totals, IsName x.1 ∧ 0 < x.2
  balanced : ∀ r, st.totals.count r = st.tally fun p => p.2 = r

variable {st st₁ st₂ : State} {as bs : List Addition} {a : Addition} {id r k : Text} {P : Text × Text → Bool}

theorem IsId.notMem (h : IsId id) : '\x1c' ∉ id := fun hc => (h.2 _ hc).2 rfl

theorem IsName.notMem (h : IsName r) : '\x1c' ∉ r := fun hc => (h _ hc).2.1 rfl

theorem IsName.notMem_colon (h : IsName r) : ':' ∉ r := fun hc => (h _ hc).2.2 rfl

theorem IsName.of_all (h : (r.all fun c => !isSpace c && c != '\x1c' && c != ':') = true) : IsName r := by
  intro c hc
  have hall := List.all_eq_true.mp h c hc
  simp only [Bool.and_eq_true, Bool.not_eq_true', bne_iff_ne] at hall
  exact ⟨hall.1.1, hall.1.2, hall.2⟩

theorem isName_intText (n : Int) : IsName (intText n) := fun c hc =>
  ⟨not_space_intText c hc, fun h => notMem_intText (by decide) rfl n (h ▸ hc), fun h => notMem_intText (by decide) rfl n (h ▸ hc)⟩

theorem IsName.isId_colon (h : IsName r) : IsId (r ++ [':']) := by
  refine ⟨List.append_ne_nil_of_right_ne_nil _ (List.cons_ne_nil _ _), fun c hc => ?_⟩
  rcases List.mem_append.mp hc with hc | hc
  · exact ⟨(h c hc).1, (h c hc).2.1⟩
  · rw [List.mem_singleton.mp hc]
    decide

/-- A key tells the test and the result. -/
theorem key_eq_iff {id' r' : Text} (hid : '\x1c' ∉ id) (hr : '\x1c' ∉ r) : key id r = key id' r' ↔ (id, r) = (id', r') := by
  constructor
  · intro h
    have hcount := congrArg (List.count '\x1c') h
    unfold key at hcount h
    rw [List.count_append, List.count_append, List.count_cons_self, List.count_cons_self, List.count_eq_zero_of_not_mem hid,
      List.count_eq_zero_of_not_mem hr] at hcount
    have hid' : '\x1c' ∉ id' := List.count_eq_zero.mp (by omega)
    obtain ⟨rfl, hrest⟩ := cut_front hid hid' h
    rw [hrest]
  · rintro h
    obtain ⟨rfl, rfl⟩ := Prod.mk.inj h
    rfl

/-! ## Sums -/

section

variable {α : Type} {l l' : List (α × Int)} {p : α → Bool}

theorem sumOf_append : sumOf (l ++ l') p = sumOf l p + sumOf l' p := by
  rw [sumOf, List.filter_append, List.map_append, List.sum_append]
  rfl

theorem sumOf_cons (x : α × Int) : sumOf (x :: l) p = (if p x.1 then x.2 else 0) + sumOf l p := by
  unfold sumOf
  by_cases h : p x.1 = true
  · rw [List.filter_cons, if_pos h, if_pos h, List.map_cons, List.sum_cons]
  · rw [List.filter_cons, if_neg h, if_neg h, zero_add]

theorem sumOf_eq_zero (h : ∀ x ∈ l, p x.1 = false) : sumOf l p = 0 := by
  have hnone : (l.filter fun x => p x.1) = [] := List.filter_eq_nil_iff.mpr fun x hx => by simp [h x hx]
  rw [sumOf, hnone]
  rfl

theorem sumOf_congr {q : α → Bool} (h : ∀ x ∈ l, p x.1 = q x.1) : sumOf l p = sumOf l q := by
  rw [sumOf, List.filter_congr h]
  rfl

end

/-! ## Hashes -/

theorem Hash.mem_keys_add (h : Hash) (k : Text) (n : Int) (k' : Text) :
    k' ∈ (h.add k n).map Prod.fst ↔ k' = k ∨ k' ∈ h.map Prod.fst := by
  induction h with
  | nil => simp [Hash.add]
  | cons x h ih =>
    rw [Hash.add]
    by_cases hx : x.1 = k
    · rw [if_pos hx]
      simp [hx]
    · rw [if_neg hx, List.map_cons, List.mem_cons, ih, List.map_cons, List.mem_cons]
      tauto

theorem Hash.nodup_add {h : Hash} (hn : (h.map Prod.fst).Nodup) (k : Text) (n : Int) : ((h.add k n).map Prod.fst).Nodup := by
  induction h with
  | nil => exact List.nodup_singleton k
  | cons x h ih =>
    obtain ⟨hx, hn⟩ := List.nodup_cons.mp hn
    rw [Hash.add]
    by_cases hxk : x.1 = k
    · rw [if_pos hxk]
      exact List.nodup_cons.mpr ⟨hxk ▸ hx, hn⟩
    · rw [if_neg hxk]
      refine List.nodup_cons.mpr ⟨fun hmem => ?_, ih hn⟩
      exact ((Hash.mem_keys_add h k n x.1).mp hmem).elim hxk hx

/-- A pair behind an addition: an old one, or the one for the key. -/
theorem Hash.mem_add {h : Hash} {k : Text} {n : Int} {x : Text × Int} (hx : x ∈ h.add k n) :
    x ∈ h ∨ x = (k, n) ∨ ∃ y ∈ h, y.1 = k ∧ x = (k, y.2 + n) := by
  induction h with
  | nil => exact .inr (.inl (List.mem_singleton.mp hx))
  | cons y h ih =>
    rw [Hash.add] at hx
    by_cases hy : y.1 = k
    · rw [if_pos hy] at hx
      rcases List.mem_cons.mp hx with rfl | hx
      · exact .inr (.inr ⟨y, List.mem_cons_self, hy, rfl⟩)
      · exact .inl (List.mem_cons_of_mem _ hx)
    · rw [if_neg hy] at hx
      rcases List.mem_cons.mp hx with rfl | hx
      · exact .inl List.mem_cons_self
      · rcases ih hx with hx | hx | ⟨z, hz, hzk, hx⟩
        · exact .inl (List.mem_cons_of_mem _ hx)
        · exact .inr (.inl hx)
        · exact .inr (.inr ⟨z, List.mem_cons_of_mem _ hz, hzk, hx⟩)

theorem Hash.sumOf_add (h : Hash) (k : Text) (n : Int) (p : Text → Bool) :
    sumOf (h.add k n) p = sumOf h p + if p k then n else 0 := by
  induction h with
  | nil =>
    rw [Hash.add, sumOf_cons, add_comm]
  | cons x h ih =>
    rw [Hash.add]
    by_cases hx : x.1 = k
    · subst hx
      rw [if_pos rfl, sumOf_cons, sumOf_cons]
      split
      · omega
      · omega
    · rw [if_neg hx, sumOf_cons, sumOf_cons, ih, add_assoc]

theorem Hash.count_cons (y : Text × Int) (h : Hash) (k : Text) : Hash.count (y :: h) k = if y.1 = k then y.2 else Hash.count h k := by
  unfold Hash.count
  rw [Hash.get?_cons]
  split <;> rfl

theorem Hash.count_of_mem {h : Hash} (hn : (h.map Prod.fst).Nodup) {x : Text × Int} (hx : x ∈ h) : h.count x.1 = x.2 := by
  induction h with
  | nil => cases hx
  | cons y h ih =>
    obtain ⟨hy, hn⟩ := List.nodup_cons.mp hn
    rw [Hash.count_cons]
    rcases List.mem_cons.mp hx with rfl | hx
    · rw [if_pos rfl]
    · rw [if_neg fun heq => hy (List.mem_map.mpr ⟨x, hx, heq.symm⟩)]
      exact ih hn hx

theorem Hash.count_eq_sumOf {h : Hash} (hn : (h.map Prod.fst).Nodup) (k : Text) : h.count k = sumOf h fun k' => k' = k := by
  induction h with
  | nil => rfl
  | cons y h ih =>
    obtain ⟨hy, hn⟩ := List.nodup_cons.mp hn
    rw [Hash.count_cons, sumOf_cons]
    by_cases hk : y.1 = k
    · have hnone : (sumOf h fun k' => decide (k' = k)) = 0 := by
        refine sumOf_eq_zero fun x hx => ?_
        rw [decide_eq_false_iff_not]
        exact fun heq => hy (List.mem_map.mpr ⟨x, hx, heq.trans hk.symm⟩)
      rw [if_pos hk, if_pos (decide_eq_true hk), hnone, add_zero]
    · rw [if_neg hk, if_neg (by simpa using hk), ih hn, zero_add]

/-! ## What additions do -/

theorem adds_append : st.adds (as ++ bs) = (st.adds as).adds bs := List.foldl_append

theorem adds_cons : st.adds (a :: as) = (addResult everything st a.1.1 a.1.2 a.2).adds as := rfl

theorem addResult_everything (st : State) (id r : Text) (n : Int) :
    addResult everything st id r n = { st with results := st.results.add (key id r) n, totals := st.totals.add r n } := if_pos rfl

theorem tally_addResult (ha : a.Ok) : (addResult everything st a.1.1 a.1.2 a.2).tally P = st.tally P + if P a.1 then a.2 else 0 := by
  have hpair : pairOf (key a.1.1 a.1.2) = a.1 := pairOf_key ⟨ha.id.notMem, ha.name.notMem⟩
  rw [addResult_everything, State.tally]
  dsimp only
  rw [Hash.sumOf_add, hpair]
  rfl

theorem tally_adds (has : ∀ a ∈ as, a.Ok) : (st.adds as).tally P = st.tally P + sumOf as P := by
  induction as generalizing st with
  | nil => exact (add_zero _).symm
  | cons a as ih =>
    rw [adds_cons, ih fun b hb => has b (List.mem_cons_of_mem _ hb), tally_addResult (has a List.mem_cons_self), sumOf_cons, add_assoc]

theorem Tidy.addResult (h : Tidy st) (ha : a.Ok) : Tidy (addResult everything st a.1.1 a.1.2 a.2) where
  header := by
    rw [addResult_everything]
    exact h.header
  blank := by
    rw [addResult_everything]
    exact h.blank
  nodup := by
    rw [addResult_everything]
    exact Hash.nodup_add h.nodup _ _
  nodup_totals := by
    rw [addResult_everything]
    exact Hash.nodup_add h.nodup_totals _ _
  results := by
    rw [addResult_everything]
    intro x hx
    have hpos := ha.pos
    rcases Hash.mem_add hx with hx | rfl | ⟨y, hy, hyk, rfl⟩
    · exact h.results x hx
    · exact ⟨a.1.1, a.1.2, rfl, ha.id, ha.name, hpos⟩
    · obtain ⟨-, -, -, -, -, hy⟩ := h.results y hy
      exact ⟨a.1.1, a.1.2, rfl, ha.id, ha.name, show 0 < y.2 + a.2 by omega⟩
  totals := by
    rw [addResult_everything]
    intro x hx
    have hpos := ha.pos
    rcases Hash.mem_add hx with hx | rfl | ⟨y, hy, hyk, rfl⟩
    · exact h.totals x hx
    · exact ⟨ha.name, hpos⟩
    · have hy := (h.totals y hy).2
      exact ⟨ha.name, show 0 < y.2 + a.2 by omega⟩
  balanced := by
    intro r
    rw [tally_addResult ha, ← h.balanced, addResult_everything]
    dsimp only
    rw [count_add]
    simp only [decide_eq_true_eq]

theorem Tidy.adds (h : Tidy st) (has : ∀ a ∈ as, a.Ok) : Tidy (st.adds as) := by
  induction as generalizing st with
  | nil => exact h
  | cons a as ih => exact ih (h.addResult (has a List.mem_cons_self)) fun b hb => has b (List.mem_cons_of_mem _ hb)

theorem adds_firstFile : (st.adds as).firstFile = st.firstFile := by
  induction as generalizing st with
  | nil => rfl
  | cons a as ih =>
    rw [adds_cons, ih, addResult_everything]

/-- The count of a result is what is said about it. -/
theorem Tidy.count_eq (h : Tidy st) (id r : Text) : st.results.count (key id r) = st.tally fun p => p = (id, r) := by
  rw [Hash.count_eq_sumOf h.nodup, State.tally]
  refine sumOf_congr fun x hx => ?_
  obtain ⟨id', r', hk, hid, hr, -⟩ := h.results x hx
  have hpair : pairOf (key id' r') = (id', r') := pairOf_key (p := (id', r')) ⟨hid.notMem, hr.notMem⟩
  rw [hk, hpair, decide_eq_decide]
  exact key_eq_iff hid.notMem hr.notMem

/-! ## The lines of a report -/

theorem baseLine_everything (st : State) (line : Text) : baseLine everything st line = st.adds (lineAdds line) := by
  unfold baseLine lineAdds State.adds
  cases fields line with
  | nil => rfl
  | cons id results => rw [List.tail_cons, List.headD_cons, List.foldl_map]

theorem foldl_baseLine (lines : List Text) (st : State) :
    lines.foldl (baseLine everything) st = st.adds (lines.flatMap lineAdds) := by
  induction lines generalizing st with
  | nil => rfl
  | cons line lines ih => rw [List.foldl_cons, ih, baseLine_everything, List.flatMap_cons, adds_append]

/-- A result with its count. -/
def counted (r : Text) (n : Int) : Text := r ++ ':' :: intText n

theorem not_space_counted (hr : IsName r) (n : Int) : ∀ c ∈ counted r n, isSpace c = false := by
  intro c hc
  rcases List.mem_append.mp hc with hc | hc
  · exact (hr c hc).1
  · rcases List.mem_cons.mp hc with rfl | hc
    · rfl
    · exact not_space_intText c hc

theorem counted_ne_nil (r : Text) (n : Int) : counted r n ≠ [] := List.append_ne_nil_of_right_ne_nil _ (List.cons_ne_nil _ _)

theorem intOf_intText {n : Int} (hn : 0 < n) : intOf (intText n) = n := by
  have htext : intText n = natText n.natAbs := if_neg (by omega)
  have hdigits : (natText n.natAbs).takeWhile Char.isDigit = natText n.natAbs :=
    List.takeWhile_eq_self_iff.mpr fun c hc => mem_natText hc
  rw [htext, intOf]
  · rw [hdigits, natText, Nat.ofDigitChars_ten_toDigits]
    omega
  · intro t ht
    have hmem : '-' ∈ natText n.natAbs := by
      rw [ht]
      exact List.mem_cons_self
    exact absurd (mem_natText hmem) (by decide)

theorem resultOf_counted {n : Int} (hr : ':' ∉ r) (hn : 0 < n) : resultOf (counted r n) = (r, n) := by
  have hplain : (intText n).takeWhile (fun c => decide (c ≠ ':')) = intText n :=
    List.takeWhile_eq_self_iff.mpr (ne_of_notMem (notMem_intText (by decide) rfl n))
  have hnot : ¬(intText n = [] ∨ intText n = ['0']) := by
    rintro (h | h)
    · exact intText_ne_nil n h
    · have hzero := intOf_intText hn
      rw [h] at hzero
      have h0 : intOf ['0'] = 0 := by decide
      omega
  unfold resultOf counted
  rw [takeWhile_separator hr, dropWhile_separator hr, List.drop_one, List.tail_cons]
  dsimp only
  rw [hplain, if_neg hnot, intOf_intText hn]

theorem resultOf_number (n : Int) : resultOf (intText n) = (intText n, 1) := by
  have hcolon : ':' ∉ intText n := notMem_intText (by decide) rfl n
  have htake : (intText n).takeWhile (fun c => decide (c ≠ ':')) = intText n := List.takeWhile_eq_self_iff.mpr (ne_of_notMem hcolon)
  have hdrop : (intText n).dropWhile (fun c => decide (c ≠ ':')) = [] := List.dropWhile_eq_nil_iff.mpr (ne_of_notMem hcolon)
  unfold resultOf
  rw [htake, hdrop]
  rfl

/-- A result at the end of a line. -/
theorem lineAdds_counted {cur id : Text} {ws : List Text} (hcur : fields cur = id :: ws) (hr : IsName r) {n : Int} (hn : 0 < n) :
    lineAdds (cur ++ ' ' :: counted r n) = lineAdds cur ++ [((id, r), n)] ∧
      fields (cur ++ ' ' :: counted r n) = id :: (ws ++ [counted r n]) := by
  have hfields : fields (cur ++ ' ' :: counted r n) = id :: (ws ++ [counted r n]) := by
    unfold fields at hcur ⊢
    rw [words_append rfl, hcur, words_single (not_space_counted hr n) (counted_ne_nil r n)]
    rfl
  refine ⟨?_, hfields⟩
  unfold lineAdds
  rw [hfields, hcur]
  simp only [List.tail_cons, List.headD_cons, List.map_append, List.map_cons, List.map_nil, resultOf_counted hr.notMem_colon hn]

/-- A line with one result. -/
theorem lineAdds_first (hid : IsId id) (hr : IsName r) {n : Int} (hn : 0 < n) :
    lineAdds (id ++ ' ' :: ' ' :: counted r n) = [((id, r), n)] ∧ fields (id ++ ' ' :: ' ' :: counted r n) = [id, counted r n] := by
  have hspace : isSpace ' ' = true := rfl
  have hfields : fields (id ++ [' ']) = [id] := by
    unfold fields
    rw [words_word (fun c hc => (hid.2 c hc).1) hid.1 hspace, words_nil]
  have hnone : lineAdds (id ++ [' ']) = [] := by
    unfold lineAdds
    rw [hfields]
    rfl
  have h := lineAdds_counted hfields hr hn
  rw [hnone, List.append_assoc] at h
  exact h

theorem newline_notMem_counted (hr : IsName r) (n : Int) : '\n' ∉ counted r n :=
  fun h => absurd (not_space_counted hr n _ h) (by decide)

theorem resultLines_cons (h : Hash) (prev : Text) (hid : IsId id) (hr : IsName r) (ks : List Text) :
    resultLines h prev (key id r :: ks) = (if id = prev then [] else '\n' :: id ++ [' ']) ++
      ' ' :: counted r (h.count (key id r)) ++ resultLines h id ks := by
  have hpair := pairOf_key (p := (id, r)) ⟨hid.notMem, hr.notMem⟩
  obtain ⟨hfst, hsnd⟩ := Prod.mk.inj hpair
  rw [resultLines]
  dsimp only at hfst hsnd ⊢
  rw [hfst, hsnd]
  rfl

/-- The keys of a hash that can be printed. -/
def Printable (h : Hash) (ks : List Text) : Prop := ∀ k ∈ ks, ∃ id r, k = key id r ∧ IsId id ∧ IsName r ∧ 0 < h.count k

def addsOf (h : Hash) (ks : List Text) : List Addition := ks.map fun k => (pairOf k, h.count (key (pairOf k).1 (pairOf k).2))

/-- Lines of a report, and the additions for them: a line that is not empty has one. -/
def Shows (lines : List Text) (as : List Addition) : Prop := lines.flatMap lineAdds = as ∧ ∀ line ∈ lines, line = [] ∨ lineAdds line ≠ []

theorem Shows.cons {lines : List Text} (h : Shows lines as) {line : Text} (hline : line = [] ∨ lineAdds line ≠ []) :
    Shows (line :: lines) (lineAdds line ++ as) := by
  refine ⟨?_, fun l hl => ?_⟩
  · rw [List.flatMap_cons, h.1]
  · rcases List.mem_cons.mp hl with rfl | hl
    · exact hline
    · exact h.2 l hl

/-- The results behind the line `cur`, which is not finished. -/
theorem shows_resultLines {h : Hash} {ks : List Text} (hks : Printable h ks) {cur prev : Text} {ws : List Text}
    (hcur : fields cur = prev :: ws) (hline : '\n' ∉ cur) (hne : lineAdds cur ≠ []) {rest : Text} (hrest : Shows (linesOf rest) as) :
    Shows (linesOf (cur ++ resultLines h prev ks ++ '\n' :: rest)) (lineAdds cur ++ (addsOf h ks ++ as)) := by
  induction ks generalizing cur prev ws with
  | nil =>
    rw [resultLines, List.append_nil, linesOf_line hline, addsOf, List.map_nil, List.nil_append]
    exact hrest.cons (.inr hne)
  | cons k ks ih =>
    obtain ⟨id, r, rfl, hid, hr, hpos⟩ := hks _ List.mem_cons_self
    have hks' : Printable h ks := fun k hk => hks k (List.mem_cons_of_mem _ hk)
    have hadds : addsOf h (key id r :: ks) = ((id, r), h.count (key id r)) :: addsOf h ks := by
      unfold addsOf
      rw [List.map_cons, pairOf_key (p := (id, r)) ⟨hid.notMem, hr.notMem⟩]
    rw [resultLines_cons h prev hid hr, hadds]
    by_cases hprev : id = prev
    · -- the line goes on
      subst hprev
      obtain ⟨hcur', hfields'⟩ := lineAdds_counted hcur hr hpos
      have hline' : '\n' ∉ cur ++ ' ' :: counted r (h.count (key id r)) := by
        simp [hline, newline_notMem_counted hr]
      have hgo := ih hks' hfields' hline' (by simp [hcur'])
      rw [hcur'] at hgo
      rw [if_pos rfl]
      simp only [List.nil_append, List.append_assoc, List.cons_append] at hgo ⊢
      exact hgo
    · obtain ⟨hcur', hfields'⟩ := lineAdds_first hid hr hpos
      have hline' : '\n' ∉ id ++ ' ' :: ' ' :: counted r (h.count (key id r)) := by
        have hno : '\n' ∉ id := fun hmem => absurd (hid.2 _ hmem).1 (by decide)
        simp [hno, newline_notMem_counted hr]
      have hgo := (ih hks' hfields' hline' (by simp [hcur'])).cons (.inr hne)
      rw [hcur'] at hgo
      have hlines := linesOf_line hline (id ++ ' ' :: ' ' :: (counted r (h.count (key id r)) ++ (resultLines h id ks ++ '\n' :: rest)))
      rw [if_neg hprev]
      simp only [List.nil_append, List.append_assoc, List.cons_append] at hgo hlines ⊢
      rw [hlines]
      exact hgo

theorem mem_sortedKeys {h : Hash} : k ∈ h.sortedKeys ↔ k ∈ h.map Prod.fst := List.mem_mergeSort

theorem lineAdds_total (hk : IsName k) (n : Int) :
    lineAdds ('\t' :: k ++ ": ".toList ++ intText n) = [((k ++ [':'], intText n), 1)] := by
  have htab : isSpace '\t' = true := rfl
  have hspace : isSpace ' ' = true := rfl
  have hline : '\t' :: k ++ ": ".toList ++ intText n = [] ++ '\t' :: ((k ++ [':']) ++ ' ' :: intText n) := by simp
  have hfields : fields ('\t' :: k ++ ": ".toList ++ intText n) = [k ++ [':'], intText n] := by
    unfold fields
    rw [hline, words_append htab, words_word (fun c hc => (hk.isId_colon.2 c hc).1) hk.isId_colon.1 hspace,
      words_single not_space_intText (intText_ne_nil n)]
    rfl
  unfold lineAdds
  rw [hfields]
  simp only [List.tail_cons, List.headD_cons, List.map_cons, List.map_nil, resultOf_number]

/-- The totals, with their heading. -/
theorem shows_totals {h : Hash} (hh : ∀ x ∈ h, IsName x.1 ∧ 0 < x.2) :
    Shows (linesOf ('\n' :: ("Result Total:".toList ++ '\n' :: totalLines h)))
      ((("Result".toList, "Total".toList), 1) :: h.sortedKeys.map fun k => ((k ++ [':'], intText (h.count k)), 1)) := by
  have hname : ∀ k ∈ h.sortedKeys, IsName k := by
    intro k hk
    obtain ⟨x, hx, rfl⟩ := List.mem_map.mp (mem_sortedKeys.mp hk)
    exact (hh x hx).1
  have htext : totalLines h = (h.sortedKeys.map fun k => '\t' :: k ++ ": ".toList ++ intText (h.count k)).flatMap fun l => l ++ ['\n'] := by
    unfold totalLines
    rw [List.flatMap_map]
    rfl
  have hlines : ∀ l ∈ h.sortedKeys.map fun k => '\t' :: k ++ ": ".toList ++ intText (h.count k), '\n' ∉ l := by
    intro l hl
    obtain ⟨k, hk, rfl⟩ := List.mem_map.mp hl
    have hno : '\n' ∉ k := fun hmem => absurd (hname k hk _ hmem).1 (by decide)
    simp [hno, newline_notMem_intText]
  have hempty := linesOf_line (u := []) (by simp) ("Result Total:".toList ++ '\n' :: totalLines h)
  have hheading : lineAdds "Result Total:".toList = [(("Result".toList, "Total".toList), 1)] := by decide
  have hshown : Shows (h.sortedKeys.map fun k => '\t' :: k ++ ": ".toList ++ intText (h.count k))
      (h.sortedKeys.map fun k => ((k ++ [':'], intText (h.count k)), 1)) := by
    refine ⟨?_, fun l hl => .inr ?_⟩
    · rw [List.flatMap_map, ← List.flatMap_pure_eq_map]
      exact List.flatMap_congr fun k hk => lineAdds_total (hname k hk) _
    · obtain ⟨k, hk, rfl⟩ := List.mem_map.mp hl
      rw [lineAdds_total (hname k hk)]
      exact List.cons_ne_nil _ _
  have htotal : "Result Total:".toList = [] ∨ lineAdds "Result Total:".toList ≠ [] := by
    rw [hheading]
    exact .inr (List.cons_ne_nil _ _)
  have hall := hshown.cons htotal
  rw [List.nil_append] at hempty
  rw [hempty, linesOf_line (by decide), htext, linesOf_lines hlines]
  rw [hheading] at hall
  exact hall.cons (.inl rfl)

theorem Tidy.printable (h : Tidy st) : Printable st.results st.results.sortedKeys := by
  intro k hk
  obtain ⟨x, hx, rfl⟩ := List.mem_map.mp (mem_sortedKeys.mp hk)
  obtain ⟨id, r, hkey, hid, hr, hpos⟩ := h.results x hx
  exact ⟨id, r, hkey, hid, hr, by rwa [Hash.count_of_mem h.nodup hx]⟩

/-- The lines of a report behind its header are the additions that it shows. -/
theorem shows_report (h : Tidy st) (hfirst : st.firstFile = true) : ∃ vers rest, IsVers vers ∧
    linesOf (report st) = (Basekey ++ [' '] ++ vers) :: rest ∧ Shows rest (shown st) := by
  obtain ⟨vers, hvers, hout⟩ := h.header hfirst
  have hline : '\n' ∉ Basekey ++ [' '] ++ vers := by
    have hbase : '\n' ∉ Basekey := by decide
    simp [hvers.1, hbase]
  have htotals := shows_totals h.totals
  have hks := h.printable
  rw [report, hout, show shown st = addsOf st.results st.results.sortedKeys ++ _ from rfl]
  cases hkeys : st.results.sortedKeys with
  | nil =>
    refine ⟨vers, _, hvers, ?_, htotals⟩
    rw [resultLines, List.append_nil, linesOf_line hline]
  | cons k ks =>
    rw [hkeys] at hks
    obtain ⟨id, r, rfl, hid, hr, hpos⟩ := hks _ List.mem_cons_self
    obtain ⟨hcur, hfields⟩ := lineAdds_first hid hr hpos
    have hcurline : '\n' ∉ id ++ ' ' :: ' ' :: counted r (st.results.count (key id r)) := by
      have hno : '\n' ∉ id := fun hmem => absurd (hid.2 _ hmem).1 (by decide)
      simp [hno, newline_notMem_counted hr]
    have hadds : addsOf st.results (key id r :: ks) = ((id, r), st.results.count (key id r)) :: addsOf st.results ks := by
      unfold addsOf
      rw [List.map_cons, pairOf_key (p := (id, r)) ⟨hid.notMem, hr.notMem⟩]
    refine ⟨vers, linesOf (id ++ ' ' :: ' ' :: counted r (st.results.count (key id r)) ++ resultLines st.results id ks ++
      '\n' :: '\n' :: ("Result Total:".toList ++ '\n' :: totalLines st.totals)), hvers, ?_, ?_⟩
    · rw [resultLines_cons _ _ hid hr, if_neg hid.1]
      simp only [List.append_assoc, List.cons_append, List.nil_append]
      have hgo := linesOf_line hline (id ++ ' ' :: ' ' :: (counted r (st.results.count (key id r)) ++ (resultLines st.results id ks ++
        '\n' :: '\n' :: ("Result Total:".toList ++ '\n' :: totalLines st.totals))))
      simp only [List.append_assoc, List.cons_append, List.nil_append] at hgo
      exact hgo
    · have hgo := shows_resultLines (fun k hk => hks k (List.mem_cons_of_mem _ hk)) hfields hcurline (by simp [hcur]) htotals
      rw [hcur] at hgo
      rw [hadds]
      exact hgo

/-! ## A report read back -/

theorem isVers_field {line : Text} (h : '\x1c' ∉ line) (i : Nat) : IsVers (field (fields line) i) := by
  unfold field
  rw [List.getD_eq_getElem?_getD]
  cases hw : (fields line)[i]? with
  | none => exact ⟨List.not_mem_nil, List.not_mem_nil⟩
  | some w =>
    have hmem : w ∈ fields line := List.mem_of_getElem? hw
    exact ⟨fun hc => absurd (not_separator_of_mem_words hmem hc) (by decide), fun hc => h (mem_of_mem_words hmem hc)⟩

theorem openFile_firstFile (st : State) (vers : Text) : (openFile st vers).firstFile = true := by
  unfold openFile
  split
  · rename_i h
    exact h
  · rfl

theorem openFile_tally (st : State) (vers : Text) : (openFile st vers).tally P = st.tally P := by
  unfold openFile
  split <;> rfl

theorem Tidy.openFile (h : Tidy st) {vers : Text} (hvers : IsVers vers) : Tidy (openFile st vers) := by
  unfold Filter.openFile
  split
  · exact h
  · rename_i hfirst
    refine ⟨fun _ => ⟨vers, hvers, ?_⟩, fun hno => (by cases hno), h.nodup, h.results, h.nodup_totals, h.totals, h.balanced⟩
    dsimp only
    rw [h.blank (Bool.eq_false_iff.mpr hfirst), List.nil_append]

/-- A report is read as the additions that it shows. -/
theorem readFile_report (h : Tidy st) (hfirst : st.firstFile = true) (st₁ : State) : ∃ vers, IsVers vers ∧
    readFile everything st₁ (report st) = .ok ((openFile st₁ vers).adds (shown st)) := by
  obtain ⟨vers, rest, hvers, hlines, hadds, -⟩ := shows_report h hfirst
  have hplain : '\x1c' ∉ Basekey ++ [' '] ++ vers := by
    have hkey : '\x1c' ∉ Basekey := by decide
    simp [hkey, hvers.2]
  refine ⟨_, isVers_field hplain 1, ?_⟩
  have hbase : Basekey <+: Basekey ++ [' '] ++ vers := by
    rw [List.append_assoc]
    exact List.prefix_append _ _
  rw [readFile, hlines]
  dsimp only
  rw [if_pos hbase, foldl_baseLine, hadds]

theorem isName_total : IsName "Total".toList := IsName.of_all (by decide)

theorem shown_ok (h : Tidy st) : ∀ a ∈ shown st, a.Ok := by
  intro a ha
  rcases List.mem_append.mp ha with ha | ha
  · obtain ⟨k, hk, rfl⟩ := List.mem_map.mp ha
    obtain ⟨id, r, rfl, hid, hr, hpos⟩ := h.printable k hk
    have hpair : pairOf (key id r) = (id, r) := pairOf_key (p := (id, r)) ⟨hid.notMem, hr.notMem⟩
    rw [hpair]
    exact ⟨hid, hr, hpos⟩
  · rcases List.mem_cons.mp ha with rfl | ha
    · exact ⟨⟨by decide, fun c hc => ⟨(isName_result c hc).1, (isName_result c hc).2.1⟩⟩, isName_total, by decide⟩
    · obtain ⟨k, hk, rfl⟩ := List.mem_map.mp ha
      obtain ⟨x, hx, rfl⟩ := List.mem_map.mp (mem_sortedKeys.mp hk)
      exact ⟨(h.totals x hx).1.isId_colon, isName_intText _, Int.one_pos⟩
where
  isName_result : IsName "Result".toList := IsName.of_all (by decide)

/-- What a report shows besides the results: the heading of the totals, and the totals. -/
def Surplus (p : Text × Text) : Prop := p = ("Result".toList, "Total".toList) ∨ ∃ t, ∃ n : Int, p = (t ++ [':'], intText n)

/-- The names of such results. -/
def Heading (r : Text) : Prop := r = "Total".toList ∨ ∃ n : Int, r = intText n

theorem Surplus.heading {p : Text × Text} (h : Surplus p) : Heading p.2 := by
  rcases h with rfl | ⟨t, n, rfl⟩
  · exact .inl rfl
  · exact .inr ⟨n, rfl⟩

/-- Without these, a report says what the counts say. -/
theorem sumOf_shown (h : Tidy st) (hP : ∀ p, Surplus p → P p = false) : sumOf (shown st) P = st.tally P := by
  have hrest : sumOf ((("Result".toList, "Total".toList), (1 : Int)) ::
      st.totals.sortedKeys.map fun k => ((k ++ [':'], intText (st.totals.count k)), 1)) P = 0 := by
    refine sumOf_eq_zero fun a ha => ?_
    rcases List.mem_cons.mp ha with rfl | ha
    · exact hP _ (.inl rfl)
    · obtain ⟨k, -, rfl⟩ := List.mem_map.mp ha
      exact hP _ (.inr ⟨k, _, rfl⟩)
  have hperm : st.results.sortedKeys.Perm (st.results.map Prod.fst) := List.mergeSort_perm _ _
  have hresults : ((st.results.map Prod.fst).map fun k => (pairOf k, st.results.count (key (pairOf k).1 (pairOf k).2))) =
      st.results.map fun x => (pairOf x.1, x.2) := by
    rw [List.map_map]
    refine List.map_congr_left fun x hx => ?_
    obtain ⟨id, r, hk, hid, hr, -⟩ := h.results x hx
    have hpair : pairOf x.1 = (id, r) := by
      rw [hk]
      exact pairOf_key (p := (id, r)) ⟨hid.notMem, hr.notMem⟩
    rw [Function.comp_apply, hpair, ← hk, Hash.count_of_mem h.nodup hx]
  have hsum := ((hperm.map fun k => (pairOf k, st.results.count (key (pairOf k).1 (pairOf k).2))).filter fun a => P a.1).map Prod.snd
  rw [shown, sumOf_append, hrest, add_zero, sumOf, hsum.sum_eq, hresults, State.tally, sumOf, List.filter_map, List.map_map]
  rfl

/-! ## Journals -/

/-- What a line of a journal is counted for. -/
def entryOf (line : Text) : Option (Text × Text) :=
  if "Test_Case_Start|".toList <+: line then none
  else if "Test_Case_End|".toList <+: line ∨ "Assertion_End|".toList <+: line then some (field (fields line) 2, field (fields line) 4)
  else none

/-- The tests and results of the entries of a journal. -/
def Journal.entries (j : Journal) : List (Text × Text) := j.lines.filterMap entryOf

theorem journalLine_everything {line : Text} (h : journalLine everything st line = .ok st₁) :
    st₁ = st.adds ((entryOf line).toList.map fun p => (p, 1)) := by
  unfold journalLine at h
  unfold entryOf
  split at h
  · rename_i hstart
    rw [if_pos hstart]
    exact (Except.ok.inj h).symm
  · rename_i hstart
    rw [if_neg hstart]
    split at h
    · rename_i hend
      rw [if_pos (.inl hend)]
      exact (Except.ok.inj h).symm
    · rename_i hend
      split at h
      · rename_i hassert
        rw [if_pos (.inr hassert)]
        exact (Except.ok.inj h).symm
      · rename_i hassert
        rw [if_neg (not_or.mpr ⟨hend, hassert⟩)]
        split at h
        · cases h
        · exact (Except.ok.inj h).symm

theorem foldlM_journalLine {lines : List Text} (h : lines.foldlM (journalLine everything) st = .ok st₁) :
    st₁ = st.adds ((lines.filterMap entryOf).map fun p => (p, 1)) := by
  induction lines generalizing st with
  | nil => exact (Except.ok.inj h).symm
  | cons line lines ih =>
    rw [List.foldlM_cons] at h
    cases hl : journalLine everything st line with
    | error e =>
      rw [hl] at h
      cases h
    | ok st₂ =>
      rw [hl] at h
      have hsplit : (List.filterMap entryOf (line :: lines)).map (fun p => (p, (1 : Int))) =
          ((entryOf line).toList.map fun p => (p, 1)) ++ (lines.filterMap entryOf).map fun p => (p, 1) := by
        rw [List.filterMap_cons]
        cases entryOf line <;> rfl
      rw [ih h, journalLine_everything hl, hsplit, adds_append]

theorem Journal.start_front (j : Journal) : ¬Basekey <+: j.start ∧ Filter.isStart j.start = true := by
  obtain ⟨t, ht⟩ := j.isStart
  rw [← ht]
  exact ⟨not_prefix_append 1 (by decide), rfl⟩

/-- A journal is read as additions of `1`. -/
theorem readFile_journal (j : Journal) (hplain : '\x1c' ∉ j.text) (h : readFile everything st j.text = .ok st₁) : ∃ vers, IsVers vers ∧
    st₁ = (openFile st vers).adds (j.entries.map fun p => (p, 1)) := by
  obtain ⟨hb, hs⟩ := j.start_front
  rw [readFile, j.linesOf_text] at h
  simp only [if_neg hb, if_pos hs] at h
  exact ⟨_, isVers_field (fun hc => hplain (List.mem_append_left _ hc)) 6, foldlM_journalLine h⟩

/-- The third word: behind the code and the process id. -/
theorem field_two {code pid name t : Text} (hc : ∀ c ∈ code, isSpace c = false) (hcn : code ≠ [])
    (hp : ∀ c ∈ pid, isSpace c = false) (hpn : pid ≠ []) (hn : ∀ c ∈ name, isSpace c = false) (hnn : name ≠ []) :
    field (fields (code ++ ' ' :: (pid ++ ' ' :: (name ++ ' ' :: t)))) 2 = name := by
  have hsp : isSpace ' ' = true := rfl
  unfold fields
  rw [words_word hc hcn hsp, words_word hp hpn hsp, words_word hn hnn hsp]
  rfl

theorem isName_resultTbl : ∀ t ∈ resultTbl, IsName t := by
  have hall : ∀ t ∈ resultTbl, (t.all fun c => !isSpace c && c != '\x1c' && c != ':') = true := by decide +kernel
  exact fun t ht => IsName.of_all (hall t ht)

theorem isName_resultWord (status : BitVec 32) : IsName (resultWord status) := by
  intro c hc
  rcases List.mem_append.mp hc with hc | hc
  · exact isName_resultTbl _ (resultField_name_mem status) c hc
  · cases he : (resultField status).exitCode with
    | none => simp [he] at hc
    | some n =>
      rw [he, Option.elim_some] at hc
      rcases List.mem_cons.mp hc with rfl | hc
      · decide
      · have hdigit := mem_natText hc
        exact ⟨not_space_of_isDigit hdigit, fun h => by simp [h] at hdigit, fun h => by simp [h] at hdigit⟩

/-- An entry has an id, and the name of a result. -/
theorem entry_ok {line : Text} (hl : Written line) (hplain : '\x1c' ∉ line) {p : Text × Text} (hp : entryOf line = some p) :
    IsId p.1 ∧ IsName p.2 := by
  cases hl with
  | other l hn hc =>
    rw [entryOf, if_neg (hc _ (by decide)), if_neg (not_or.mpr ⟨hc _ (by decide), hc _ (by decide)⟩)] at hp
    cases hp
  | entry env s a hname =>
    obtain ⟨t, ht⟩ := entry_front a env s
    cases a <;> rw [Call.code] at ht
    case msg pid text =>
      rw [ht, entryOf, if_neg (not_prefix_append 1 (by decide)),
        if_neg (not_or.mpr ⟨not_prefix_append 1 (by decide), not_prefix_append 1 (by decide)⟩)] at hp
      cases hp
    case testcaseStart pid line =>
      rw [ht, show JNL_TESTCASE_START ++ ['|'] = "Test_Case_Start|".toList from rfl, entryOf, if_pos (List.prefix_append _ _)] at hp
      cases hp
    case assertStart pid subid =>
      rw [ht, entryOf, if_neg (not_prefix_append 1 (by decide)),
        if_neg (not_or.mpr ⟨not_prefix_append 1 (by decide), not_prefix_append 11 (by decide)⟩)] at hp
      cases hp
    case totals pid idName cts =>
      rw [ht, entryOf, if_neg (not_prefix_append 2 (by decide)),
        if_neg (not_or.mpr ⟨not_prefix_append 2 (by decide), not_prefix_append 1 (by decide)⟩)] at hp
      cases hp
    case testcaseEnd name pid status =>
      have hline : Call.before (.testcaseEnd name pid status) ++ name ++ Call.behind env s (.testcaseEnd name pid status) =
          (JNL_TESTCASE_END ++ ['|']) ++ ' ' :: (intText pid ++ ' ' :: (name ++ ' ' ::
            ('|' :: ' ' :: ((resultField status).text ++ stamp env (s.vars.elim (-1) fun v => (v.jact : Int)))))) := by
        simp [Call.before, Call.behind, Call.code, Call.pid, Call.gap, bar]
      have htwo := field_two (t := '|' :: ' ' :: ((resultField status).text ++ stamp env (s.vars.elim (-1) fun v => (v.jact : Int))))
        (forall_of_any_eq_false (by decide : (JNL_TESTCASE_END ++ ['|']).any isSpace = false)) (by decide) not_space_intText
        (intText_ne_nil pid) hname.2 hname.1
      have hfour := field_testcaseEnd env s hname.2 hname.1 pid status
      rw [ht, entryOf, if_neg (not_prefix_append 11 (by decide)), if_pos (.inl (List.prefix_append _ _)), ← ht] at hp
      rw [show Call.body s (.testcaseEnd name pid status) = name from rfl] at hp hplain
      rw [hfour] at hp
      rw [hline, htwo] at hp
      obtain rfl := Option.some.inj hp
      exact ⟨⟨hname.1, fun c hc => ⟨hname.2 c hc, fun h => hplain (List.mem_append_left _ (List.mem_append_right _ (h ▸ hc)))⟩⟩,
        isName_resultWord status⟩
    case assertEnd pid result =>
      have hline : Call.before (.assertEnd pid result) ++ Call.body s (.assertEnd pid result) ++
          Call.behind env s (.assertEnd pid result) = (JNL_ASSERT_END ++ ['|']) ++ ' ' :: (intText pid ++ ' ' ::
            (Call.body s (.assertEnd pid result) ++ ' ' :: ('|' :: ' ' :: (getStatusName result ++ stamp env
              (s.vars.elim (-1) fun v => shortOf v.jact))))) := by
        simp [Call.before, Call.behind, Call.code, Call.pid, Call.gap, bar]
      have htwo := field_two (t := '|' :: ' ' :: (getStatusName result ++ stamp env (s.vars.elim (-1) fun v => shortOf v.jact)))
        (forall_of_any_eq_false (by decide : (JNL_ASSERT_END ++ ['|']).any isSpace = false)) (by decide) not_space_intText
        (intText_ne_nil pid) hname.2 hname.1
      have hfour := field_assertEnd env s pid result hname
      rw [ht, entryOf, if_neg (not_prefix_append 1 (by decide)), if_pos (.inr (List.prefix_append _ _)), ← ht] at hp
      rw [hfour, hline, htwo] at hp
      obtain rfl := Option.some.inj hp
      exact ⟨⟨hname.1, fun c hc => ⟨hname.2 c hc, fun h => hplain (List.mem_append_left _ (List.mem_append_right _ (h ▸ hc)))⟩⟩,
        isName_resultTbl _ (getStatusName_mem result)⟩

/-! ## Merging -/

/-- The counts of `stf_filter` behind some files: journals, and reports of other runs. The journals are all that have been read, here
or for a report. -/
inductive Merged : State → List Journal → Prop
  | start : Merged State.init []
  | journal {st st' js} (h : Merged st js) (j : Journal) (hplain : '\x1c' ∉ j.text) (hread : readFile everything st j.text = .ok st') :
      Merged st' (js ++ [j])
  | report {st st' st₁ js js₁} (h : Merged st js) (h₁ : Merged st₁ js₁) (hfirst : st₁.firstFile = true)
      (hread : readFile everything st (report st₁) = .ok st') : Merged st' (js ++ js₁)

theorem Journal.entries_ok (j : Journal) (hplain : '\x1c' ∉ j.text) : ∀ a ∈ j.entries.map fun p => (p, 1), Addition.Ok a := by
  intro a ha
  obtain ⟨p, hp, rfl⟩ := List.mem_map.mp ha
  obtain ⟨line, hline, hentry⟩ := List.mem_filterMap.mp hp
  have hnot : '\x1c' ∉ line := fun hc => hplain (mem_of_mem_linesOf (l := line) (by
    rw [j.linesOf_text]
    exact List.mem_cons_of_mem _ hline) hc)
  obtain ⟨hid, hr⟩ := entry_ok (j.written line hline) hnot hentry
  exact ⟨hid, hr, Int.one_pos⟩

theorem sumOf_ones (ps : List (Text × Text)) : sumOf (ps.map fun p => (p, 1)) P = (ps.countP P : Int) := by
  induction ps with
  | nil => rfl
  | cons p ps ih =>
    rw [List.map_cons, sumOf_cons, ih, List.countP_cons]
    push_cast
    rw [add_comm]

theorem Tidy.init : Tidy State.init :=
  ⟨fun h => (by cases h), fun _ => rfl, List.nodup_nil, fun x hx => (by cases hx), List.nodup_nil, fun x hx => (by cases hx), fun _ => rfl⟩

/-- Behind every file the counts can be printed, and those of results with proper names are the entries. -/
theorem Merged.tally {js : List Journal} (h : Merged st js) : Tidy st ∧ ∀ P : Text × Text → Bool,
    (∀ p, Surplus p → P p = false) → st.tally P = ((js.flatMap Journal.entries).countP P : Int) := by
  induction h with
  | start => exact ⟨.init, fun P _ => rfl⟩
  | journal h j hplain hread ih =>
    obtain ⟨htidy, hsum⟩ := ih
    obtain ⟨vers, hvers, rfl⟩ := readFile_journal j hplain hread
    have hok := j.entries_ok hplain
    refine ⟨(htidy.openFile hvers).adds hok, fun P hP => ?_⟩
    rw [tally_adds hok, openFile_tally, hsum P hP, sumOf_ones, List.flatMap_append, List.countP_append, List.flatMap_singleton]
    push_cast
    rfl
  | report h h₁ hfirst hread ih ih₁ =>
    obtain ⟨htidy, hsum⟩ := ih
    obtain ⟨htidy₁, hsum₁⟩ := ih₁
    obtain ⟨vers, hvers, hback⟩ := readFile_report htidy₁ hfirst _
    obtain rfl := Except.ok.inj (hread.symm.trans hback)
    have hok := shown_ok htidy₁
    refine ⟨(htidy.openFile hvers).adds hok, fun P hP => ?_⟩
    rw [tally_adds hok, openFile_tally, hsum P hP, sumOf_shown htidy₁ hP, hsum₁ P hP, List.flatMap_append, List.countP_append]
    push_cast
    rfl

/-- In whatever parts some journals have been read, a test has the count of its entries for every result, and the totals are those of
all tests. -/
theorem merged_counts {js : List Journal} (h : Merged st js) :
    (∀ id r, ¬Surplus (id, r) → st.results.count (key id r) = ((js.flatMap Journal.entries).count (id, r) : Int)) ∧
      ∀ r, ¬Heading r → st.totals.count r = ((js.flatMap Journal.entries).countP fun p => p.2 = r : Int) := by
  obtain ⟨htidy, hsum⟩ := h.tally
  constructor
  · intro id r hno
    rw [htidy.count_eq, hsum _ fun p hp => ?_]
    · rw [List.count_eq_countP]
      exact congrArg Nat.cast (List.countP_congr fun p _ => by rw [decide_eq_true_eq, beq_iff_eq])
    · rw [decide_eq_false_iff_not]
      exact fun heq => hno (heq ▸ hp)
  · intro r hno
    rw [htidy.balanced, hsum _ fun p hp => ?_]
    rw [decide_eq_false_iff_not]
    exact fun heq => hno (heq ▸ hp.heading)

/-- A report of other counts can always be read. -/
theorem Merged.exists_report {js js₁ : List Journal} (h : Merged st js) (h₁ : Merged st₁ js₁) (hfirst : st₁.firstFile = true) :
    ∃ st', Merged st' (js ++ js₁) ∧ st'.firstFile = true := by
  obtain ⟨vers, -, hread⟩ := readFile_report h₁.tally.1 hfirst st
  exact ⟨_, h.report h₁ hfirst hread, adds_firstFile.trans (openFile_firstFile st vers)⟩

theorem exists_journalLine {l : Text} (hno : ¬"Totals|".toList <+: l) (st : State) : ∃ st', journalLine everything st l = .ok st' := by
  unfold journalLine
  rw [if_neg hno]
  split
  · exact ⟨_, rfl⟩
  · split
    · exact ⟨_, rfl⟩
    · split
      · exact ⟨_, rfl⟩
      · exact ⟨_, rfl⟩

/-- A journal can be read if it has no `Totals` entries. -/
theorem Merged.exists_journal {js : List Journal} (h : Merged st js) (j : Journal) (hplain : '\x1c' ∉ j.text)
    (hno : ∀ l ∈ j.lines, ¬"Totals|".toList <+: l) : ∃ st', Merged st' (js ++ [j]) ∧ st'.firstFile = true := by
  have hlines : ∀ (lines : List Text) (st : State), (∀ l ∈ lines, ¬"Totals|".toList <+: l) →
      ∃ st', lines.foldlM (journalLine everything) st = .ok st' := by
    intro lines
    induction lines with
    | nil => exact fun st _ => ⟨st, rfl⟩
    | cons l lines ih =>
      intro st hno
      obtain ⟨st₁, hl⟩ := exists_journalLine (hno l List.mem_cons_self) st
      obtain ⟨st', hrest⟩ := ih st₁ fun m hm => hno m (List.mem_cons_of_mem _ hm)
      refine ⟨st', ?_⟩
      rw [List.foldlM_cons, hl]
      exact hrest
  obtain ⟨hb, hs⟩ := j.start_front
  obtain ⟨st', hrun⟩ := hlines j.lines (openFile st (field (fields j.start) 6)) hno
  have hread : readFile everything st j.text = .ok st' := by
    rw [readFile, j.linesOf_text]
    simp only [if_neg hb, if_pos hs]
    exact hrun
  refine ⟨st', h.journal j hplain hread, ?_⟩
  rw [foldlM_journalLine hrun, adds_firstFile, openFile_firstFile]

/-- A journal with one test case, which has passed. -/
def Journal.passed : Journal where
  start := "Start| 09:15:20 1 - - - 1.0 |".toList
  lines :=
    let a : Call := .testcaseEnd "tc".toList 7 0
    [a.before ++ a.body ⟨[], none⟩ ++ a.behind .sample ⟨[], none⟩]
  isStart := by decide
  startLine := by decide
  written := by
    intro l hl
    rw [List.mem_singleton.mp hl]
    exact .entry .sample ⟨[], none⟩ (.testcaseEnd "tc".toList 7 0) ⟨by decide, forall_of_any_eq_false (by decide)⟩

/-- The report of a journal, read twice. -/
theorem merged_counts_sample : ∃ st, Merged st [.passed, .passed] ∧
    (∀ id r, ¬Surplus (id, r) → st.results.count (key id r) = (([Journal.passed, .passed].flatMap Journal.entries).count (id, r) : Int)) ∧
      ∀ r, ¬Heading r → st.totals.count r = (([Journal.passed, .passed].flatMap Journal.entries).countP fun p => p.2 = r : Int) := by
  have hplain : '\x1c' ∉ Journal.passed.text := by decide
  have hno : ∀ l ∈ Journal.passed.lines, ¬"Totals|".toList <+: l := by decide
  obtain ⟨st₁, h₁, hfirst⟩ := Merged.start.exists_journal .passed hplain hno
  obtain ⟨st₂, h₂, -⟩ := Merged.start.exists_report h₁ hfirst
  obtain ⟨st, h, -⟩ := h₂.exists_report h₁ hfirst
  exact ⟨st, h, merged_counts h⟩

end ZfsTest.Stf.Filter
