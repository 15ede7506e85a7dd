import ZfsTest.Stf.Merge

/-!
# Comparing reports

`stf_compare` is used on the reports of `stf_filter`: for an expected run, and for a new one. Its lines for results and for tests are then
those of the journals, however these have been read (`compare_merged`): the results that only the new journals have, and the tests that
only the expected ones have. What a report shows besides the results leads to further lines, of the same two forms.
-/

namespace ZfsTest.Stf.Compare

open ZfsTest.Stf.Filter (Basekey report Tidy IsId IsName Printable Merged Journal Surplus shown lineAdds fields)

variable {st st' : Filter.State} {js js' : List Journal} {exp new : Base} {o : Listing}

/-! ## A report as a file -/

theorem plain_resultLines {h : Filter.Hash} {ks : List Text} (hks : Printable h ks) (prev : Text) :
    '\x1c' ∉ Filter.resultLines h prev ks := by
  induction ks generalizing prev with
  | nil => exact List.not_mem_nil
  | cons k ks ih =>
    obtain ⟨id, r, rfl, hid, hr, -⟩ := hks _ List.mem_cons_self
    have hid' := hid.notMem
    have hr' := hr.notMem
    have hrest := ih (fun k hk => hks k (List.mem_cons_of_mem _ hk)) id
    have hnumber : '\x1c' ∉ intText (h.count (Filter.key id r)) := (Filter.isName_intText _).notMem
    rw [Filter.resultLines_cons h prev hid hr, Filter.counted]
    split
    · simp [hr', hrest, hnumber]
    · simp [hid', hr', hrest, hnumber]

theorem plain_totalLines {h : Filter.Hash} (hh : ∀ x ∈ h, IsName x.1 ∧ 0 < x.2) : '\x1c' ∉ Filter.totalLines h := by
  intro hmem
  obtain ⟨k, hk, hmem⟩ := List.mem_flatMap.mp hmem
  obtain ⟨x, hx, rfl⟩ := List.mem_map.mp (Filter.mem_sortedKeys.mp hk)
  have hname : '\x1c' ∉ x.1 := (hh x hx).1.notMem
  have hnumber : '\x1c' ∉ intText ((h.get? x.1).getD 0) := (Filter.isName_intText _).notMem
  revert hmem
  simp [hname, hnumber]

theorem plain_report (h : Tidy st) (hfirst : st.firstFile = true) : '\x1c' ∉ report st := by
  obtain ⟨vers, hvers, hout⟩ := h.header hfirst
  have hbase : '\x1c' ∉ Basekey := by decide
  have hresults := plain_resultLines h.printable []
  have htotals := plain_totalLines h.totals
  rw [report, hout]
  simp [hbase, hvers.2, hresults, htotals]

theorem header_report (h : Tidy st) (hfirst : st.firstFile = true) : Basekey <+: report st := by
  obtain ⟨vers, -, hout⟩ := h.header hfirst
  rw [report, hout, List.append_assoc, List.append_assoc, List.append_assoc]
  exact List.prefix_append _ _

/-- The file with the report. -/
def Base.ofReport (h : Tidy st) (hfirst : st.firstFile = true) : Base := ⟨report st, header_report h hfirst, plain_report h hfirst⟩

theorem pairs_ofReport (h : Tidy st) (hfirst : st.firstFile = true) : (Base.ofReport h hfirst).pairs = (shown st).map Prod.fst := by
  obtain ⟨vers, rest, -, hlines, hadds, -⟩ := Filter.shows_report h hfirst
  rw [← hadds, List.map_flatMap, Base.pairs, Base.lines, show (Base.ofReport h hfirst).text = report st from rfl, hlines, List.tail_cons]
  refine List.flatMap_congr fun line _ => ?_
  rw [lineAdds, List.map_map]
  rfl

/-- The ids of a report are those of its results. -/
theorem ids_ofReport (h : Tidy st) (hfirst : st.firstFile = true) {id : Text} (hid : id ≠ []) :
    id ∈ (Base.ofReport h hfirst).lines.map idOf ↔ ∃ r, (id, r) ∈ (Base.ofReport h hfirst).pairs := by
  obtain ⟨vers, rest, -, hlines, hadds, hshown⟩ := Filter.shows_report h hfirst
  have hrest : (Base.ofReport h hfirst).lines = rest := by
    rw [Base.lines, show (Base.ofReport h hfirst).text = report st from rfl, hlines, List.tail_cons]
  constructor
  · intro hmem
    obtain ⟨line, hline, rfl⟩ := List.mem_map.mp hmem
    rcases hshown line (hrest ▸ hline) with rfl | hne
    · exact absurd rfl hid
    · obtain ⟨a, ha⟩ := List.exists_mem_of_ne_nil _ hne
      obtain ⟨result, hresult, rfl⟩ := List.mem_map.mp ha
      exact ⟨_, List.mem_flatMap.mpr ⟨line, hline, List.mem_map.mpr ⟨result, hresult, rfl⟩⟩⟩
  · rintro ⟨r, hr⟩
    obtain ⟨line, hline, hr⟩ := List.mem_flatMap.mp hr
    obtain ⟨result, -, heq⟩ := List.mem_map.mp hr
    exact List.mem_map.mpr ⟨line, hline, (Prod.mk.inj heq).1⟩

/-! ## What a report shows of the journals -/

theorem sumOf_ne_zero_iff {as : List Filter.Addition} (has : ∀ a ∈ as, a.Ok) (P : Text × Text → Bool) :
    Filter.sumOf as P ≠ 0 ↔ ∃ p ∈ as.map Prod.fst, P p = true := by
  have hsum : 0 ≤ Filter.sumOf as P ∧ (Filter.sumOf as P ≠ 0 ↔ ∃ p ∈ as.map Prod.fst, P p = true) := by
    induction as with
    | nil => exact ⟨le_rfl, fun h => absurd rfl h, fun ⟨p, hp, _⟩ => (by cases hp)⟩
    | cons a as ih =>
      obtain ⟨hnonneg, hiff⟩ := ih fun b hb => has b (List.mem_cons_of_mem _ hb)
      have hpos := (has a List.mem_cons_self).pos
      rw [Filter.sumOf_cons, List.map_cons, List.exists_mem_cons_iff, ← hiff]
      by_cases ha : P a.1 = true
      · rw [if_pos ha]
        exact ⟨by omega, fun _ => .inl ha, fun _ => by omega⟩
      · rw [if_neg ha]
        refine ⟨by omega, fun hne => .inr (by omega), fun hor => ?_⟩
        have := hor.resolve_left ha
        omega
  exact hsum.2

/-- Besides the surplus, a report shows what is in the journals. -/
theorem shown_iff (h : Merged st js) (P : Text × Text → Bool) (hP : ∀ p, Surplus p → P p = false) :
    (∃ p ∈ (shown st).map Prod.fst, P p = true) ↔ ∃ p ∈ js.flatMap Journal.entries, P p = true := by
  obtain ⟨htidy, hsum⟩ := h.tally
  have hcount := List.countP_pos_iff (p := P) (l := js.flatMap Journal.entries)
  rw [← sumOf_ne_zero_iff (Filter.shown_ok htidy), Filter.sumOf_shown htidy hP, hsum P hP, ← hcount]
  omega

theorem mem_pairs_iff (h : Merged st js) (hfirst : st.firstFile = true) {p : Text × Text} (hp : ¬Surplus p) :
    p ∈ (Base.ofReport h.tally.1 hfirst).pairs ↔ p ∈ js.flatMap Journal.entries := by
  have hiff := shown_iff h (fun q => decide (q = p)) fun q hq => decide_eq_false fun heq => hp (heq ▸ hq)
  rw [pairs_ofReport]
  simpa using hiff

theorem mem_ids_iff (h : Merged st js) (hfirst : st.firstFile = true) {id : Text} (hid : id ≠ []) (hp : ∀ r, ¬Surplus (id, r)) :
    id ∈ (Base.ofReport h.tally.1 hfirst).lines.map idOf ↔ ∃ r, (id, r) ∈ js.flatMap Journal.entries := by
  have hiff := shown_iff h (fun q => decide (q.1 = id)) fun q hq => decide_eq_false fun heq => hp q.2 (by rwa [← heq])
  rw [ids_ofReport _ _ hid, pairs_ofReport]
  simpa using hiff

/-! ## The comparison -/

/-- The line for a result, and the line for a test. -/
def resultLine (p : Text × Text) : Text := ['>', ' '] ++ p.1 ++ ['\t'] ++ p.2

def testLine (id : Text) : Text := ['<', ' '] ++ id

/-- Two results have two lines. -/
theorem resultLine_injective {p q : Text × Text} (hp : '\t' ∉ p.1 ∧ '\t' ∉ p.2) (h : resultLine p = resultLine q) : p = q := by
  unfold resultLine at h
  simp only [List.append_assoc, List.cons_append, List.nil_append, List.cons.injEq, true_and] at h
  obtain ⟨hfst, hsnd⟩ := cut_once hp.1 hp.2 h
  exact Prod.ext hfst.symm hsnd.symm

theorem tab_notMem_shown (h : Tidy st) {p : Text × Text} (hp : p ∈ (shown st).map Prod.fst) : '\t' ∉ p.1 ∧ '\t' ∉ p.2 := by
  obtain ⟨a, ha, rfl⟩ := List.mem_map.mp hp
  obtain ⟨hid, hr, -⟩ := Filter.shown_ok h a ha
  exact ⟨fun hc => absurd (hid.2 _ hc).1 (by decide), fun hc => absurd (hr _ hc).1 (by decide)⟩

/-- For the reports of some journals `stf_compare` prints the results that only the new journals have, and the tests that only the
expected ones have, besides lines of these forms for the surplus. -/
theorem compare_merged (o : Listing) (h : Merged st js) (hfirst : st.firstFile = true) (h' : Merged st' js')
    (hfirst' : st'.firstFile = true) : ∃ out, stfCompare o (report st) (report st') = .ok out ∧
    (∀ line ∈ out, (∃ p, line = resultLine p) ∨ ∃ id, line = testLine id) ∧
    (∀ p, ¬Surplus p → (resultLine p ∈ out ↔ p ∈ js'.flatMap Journal.entries ∧ p ∉ js.flatMap Journal.entries)) ∧
    ∀ id, id ≠ [] → (∀ r, ¬Surplus (id, r)) → (testLine id ∈ out ↔
      (∃ r, (id, r) ∈ js.flatMap Journal.entries) ∧ ¬∃ r, (id, r) ∈ js'.flatMap Journal.entries) := by
  obtain ⟨he, hn, hexp, hnew, hrun⟩ := stfCompare_ok o (Base.ofReport h.tally.1 hfirst) (Base.ofReport h'.tally.1 hfirst')
  have hsome : (Base.ofReport h.tally.1 hfirst).pairs ≠ [] := by
    rw [pairs_ofReport]
    exact List.ne_nil_of_mem (List.mem_map.mpr ⟨_, List.mem_append_right _ List.mem_cons_self, rfl⟩)
  obtain ⟨added, -, hadded, hout⟩ := reports_of_keys (o := o) hexp hnew fun hnil => absurd (hexp.eq_nil_iff.mp hnil) hsome
  refine ⟨_, hrun, fun line hline => ?_, fun p hp => ?_, fun id hid hp => ?_⟩
  · rcases List.mem_append.mp (hout.mem_iff.mp hline) with hmem | hmem
    · obtain ⟨l, -, rfl⟩ := List.mem_map.mp hmem
      exact .inr ⟨_, rfl⟩
    · obtain ⟨q, -, rfl⟩ := List.mem_map.mp hmem
      exact .inl ⟨_, rfl⟩
  · rw [hout.mem_iff, List.mem_append, ← mem_pairs_iff h hfirst hp, ← mem_pairs_iff h' hfirst' hp, ← hadded]
    constructor
    · rintro (hmem | hmem)
      · obtain ⟨line, -, heq⟩ := List.mem_map.mp hmem
        exact absurd (List.head_eq_of_cons_eq heq) (by decide)
      · obtain ⟨q, hq, heq⟩ := List.mem_map.mp hmem
        have hpair := ((hadded q).mp hq).1
        rw [pairs_ofReport] at hpair
        rwa [← resultLine_injective (tab_notMem_shown h'.tally.1 hpair) heq]
    · exact fun hmem => .inr (List.mem_map.mpr ⟨p, hmem, rfl⟩)
  · rw [hout.mem_iff, List.mem_append, ← mem_ids_iff h hfirst hid hp, ← mem_ids_iff h' hfirst' hid hp]
    constructor
    · rintro (hmem | hmem)
      · obtain ⟨line, hline, heq⟩ := List.mem_map.mp hmem
        obtain ⟨hline, hnot⟩ := List.mem_filter.mp hline
        obtain rfl : idOf line = id := List.append_cancel_left heq
        rw [Bool.not_eq_true', List.contains_eq_mem, decide_eq_false_iff_not] at hnot
        exact ⟨List.mem_map.mpr ⟨line, hline, rfl⟩, hnot⟩
      · obtain ⟨q, -, heq⟩ := List.mem_map.mp hmem
        exact absurd (List.head_eq_of_cons_eq heq) (by decide)
    · rintro ⟨hmem, hnot⟩
      obtain ⟨line, hline, rfl⟩ := List.mem_map.mp hmem
      refine .inl (List.mem_map.mpr ⟨line, List.mem_filter.mpr ⟨hline, ?_⟩, rfl⟩)
      rw [Bool.not_eq_true', List.contains_eq_mem, decide_eq_false_iff_not]
      exact hnot

/-- The only test of the expected journal is missing in the new one. -/
theorem compare_merged_sample : ∃ st st' out, Merged st [.passed] ∧ Merged st' [.sample] ∧
    stfCompare ⟨id, fun l => List.Perm.refl l⟩ (report st) (report st') = .ok out ∧ testLine "tc".toList ∈ out := by
  obtain ⟨st, h, hfirst⟩ := Merged.start.exists_journal .passed (by decide) (by decide)
  obtain ⟨st', h', hfirst'⟩ := Merged.start.exists_journal .sample (by decide) (by decide)
  obtain ⟨out, hrun, -, -, htests⟩ := compare_merged ⟨id, fun l => List.Perm.refl l⟩ h hfirst h' hfirst'
  refine ⟨st, st', out, h, h', hrun, (htests "tc".toList (by decide) fun r hr => ?_).mpr ⟨⟨"PASS".toList, by decide⟩, ?_⟩⟩
  · rcases hr with heq | ⟨t, n, heq⟩
    · exact absurd (Prod.mk.inj heq).1 (by decide)
    · have hlast := congrArg List.getLast? (Prod.mk.inj heq).1
      rw [List.getLast?_concat] at hlast
      exact absurd hlast (by decide)
  · rintro ⟨r, hr⟩
    cases hr

end ZfsTest.Stf.Compare
