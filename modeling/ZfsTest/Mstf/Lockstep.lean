import ZfsTest.Mstf.Moves

/-!
# The parts go in step

From the meeting come the order of the parts (`run_lockstep`) and what an exit of the launcher with `STF_PASS` says (`run_exit`).
-/

namespace ZfsTest.Mstf

open Tcl

variable {n : Nat} {quoteHash : Bool} {prog : Fin n → List Text} {srv : Server} {part : Fin n → Part} {m : Meeting (Fin n)}
  {q : List (Msg n)} {s s' : Session n}

/-! ## Runs -/

theorem run_concat_move (moves : List (Move n)) (e : Move n) :
    Session.run quoteHash prog (moves ++ [e]) = (Session.run quoteHash prog moves).bind fun s => s.fire quoteHash prog e := by
  have hone : ∀ s, [e].foldlM (Session.fire quoteHash prog) s = s.fire quoteHash prog e := fun s => by simp
  rw [Session.run, List.foldlM_append]
  exact congrArg (Option.bind (Session.run quoteHash prog moves)) (funext hone)

/-- A property of the start that the moves keep. -/
theorem run_induction {P : List (Move n) → Session n → Prop} (hinit : P [] (Session.init n))
    (hstep : ∀ moves s s' e, P moves s → s.fire quoteHash prog e = some s' → P (moves ++ [e]) s') {moves : List (Move n)}
    {s : Session n}
    (hrun : Session.run quoteHash prog moves = some s) : P moves s := by
  induction moves using List.reverseRecOn generalizing s with
  | nil =>
    obtain rfl := Option.some.inj hrun
    exact hinit
  | append_singleton moves e ih =>
    rw [run_concat_move] at hrun
    obtain ⟨s₀, hs₀, hfire⟩ := Option.bind_eq_some_iff.mp hrun
    exact hstep moves s₀ s e (ih hs₀) hfire

theorem run_refines (hok : WellLabelled quoteHash prog) {moves : List (Move n)} (hrun : Session.run quoteHash prog moves = some s) :
    ∃ m, Refines prog s m :=
  run_induction (P := fun _ s => ∃ m, Refines prog s m) ⟨_, .init⟩ (fun _ _ _ _ ⟨_, h⟩ hfire => h.fire hok hfire) hrun

/-! ## Two parts -/

def Session.sample : Fin 2 → List Text := fun i => if i = 0 then [['a'], ['b']] else [['a']]

/-- The second part is done after the first label. -/
def Session.sampleMoves : List (Move 2) :=
  [.call 0, .call 1, .serve, .serve, .reply 1, .call 1, .reply 0, .call 0, .collect 1, .serve, .serve, .reply 0, .call 0, .collect 0,
    .finish]

theorem sample_wellLabelled : WellLabelled true Session.sample := by
  have heach : ∀ i, ∀ label ∈ Session.sample i, LabelOk true label := by decide
  have hapart : ∀ i j, ∀ label ∈ Session.sample i, ∀ label' ∈ Session.sample j, eq label label' = true → label = label' := by
    decide
  exact ⟨heach, hapart⟩

theorem sample_run : ∃ s, Session.run true Session.sample Session.sampleMoves = some s ∧ s.sys.exit = some STF_PASS ∧
    (s.part 0).done = 2 := by
  have hmap : (Session.run true Session.sample Session.sampleMoves).map (fun s => (s.sys.exit, (s.part 0).done)) =
      some (some STF_PASS, 2) := by decide
  obtain ⟨s, hs, heq⟩ := Option.map_eq_some_iff.mp hmap
  exact ⟨s, hs, (Prod.mk.inj heq).1, (Prod.mk.inj heq).2⟩

/-! ## The order of the parts -/

theorem Loose.done_le {i : Fin n} (h : Loose prog srv part m i) : (part i).done ≤ m.done i := by
  rw [Loose] at h
  cases hphase : (part i).phase with
  | running =>
    rw [hphase] at h
    exact h.le
  | waiting c =>
    rw [hphase] at h
    exact (Nat.le_add_right _ _).trans h.2.le
  | ended r | collected r =>
    rw [hphase] at h
    exact h.1.le

/-- A part is at most one label behind what it has been let go for, and then it waits. -/
theorem Loose.arrived {i : Fin n} {k : Nat} (h : Loose prog srv part m i) (hk : k < m.done i) :
    k < (part i).done ∨ (part i).done = k ∧ ∃ chan, (part i).phase = .waiting chan := by
  rw [Loose] at h
  cases hphase : (part i).phase with
  | running =>
    rw [hphase] at h
    exact Or.inl (h.symm ▸ hk)
  | waiting c =>
    rw [hphase] at h
    have hdone := h.2
    have hone : (if srv.replies.lookup c = some .go then 1 else 0) ≤ 1 := by
      split
      · exact le_rfl
      · exact Nat.zero_le _
    rcases Nat.lt_or_ge k (part i).done with hlt | hge
    · exact Or.inl hlt
    · exact Or.inr ⟨by omega, c, rfl⟩
  | ended r | collected r =>
    rw [hphase] at h
    exact Or.inl (h.1.symm ▸ hk)

/-- When a part has label `k` behind it, every part that has a label `k` has come to it, and it is the same label. -/
theorem run_lockstep (hok : WellLabelled quoteHash prog) {moves : List (Move n)} (hrun : Session.run quoteHash prog moves = some s)
    (i j : Fin n) (k : Nat) (hi : k < (s.part i).done) (hj : k < (prog j).length) :
    (prog i)[k]? = (prog j)[k]? ∧ (k < (s.part j).done ∨ (s.part j).done = k ∧ ∃ chan, (s.part j).phase = .waiting chan) := by
  obtain ⟨m, h⟩ := run_refines hok hrun
  have hi : k < m.done i := hi.trans_le (h.loose i).done_le
  have hj : k < m.done j := h.reach.reached hi hj
  exact ⟨h.reach.agree hi hj, (h.loose j).arrived hj⟩

theorem run_lockstep_sample : ∃ s, Session.run true Session.sample Session.sampleMoves = some s ∧
    ((Session.sample 0)[0]? = (Session.sample 1)[0]? ∧
      (0 < (s.part 1).done ∨ (s.part 1).done = 0 ∧ ∃ chan, (s.part 1).phase = .waiting chan)) := by
  obtain ⟨s, hrun, -, hdone⟩ := sample_run
  exact ⟨s, hrun, run_lockstep sample_wellLabelled hrun 0 1 0 (by omega) (by decide)⟩

/-! ## The exit -/

theorem finalResult_cases {rs : List Nat} (h : ∀ r ∈ rs, r = STF_PASS ∨ r = STF_UNRESOLVED) :
    finalResult rs = STF_PASS ∨ finalResult rs = STF_UNRESOLVED := by
  have hstep : ∀ final, (final = STF_PASS ∨ final = STF_UNRESOLVED) → ∀ r, (r = STF_PASS ∨ r = STF_UNRESOLVED) →
      (if prec (known r) > prec final then known r else final) = STF_PASS ∨
        (if prec (known r) > prec final then known r else final) = STF_UNRESOLVED := by
    rintro _ (rfl | rfl) _ (rfl | rfl)
    · decide
    · decide
    · decide
    · decide
  have hfold : ∀ (rs : List Nat) (final : Nat), (final = STF_PASS ∨ final = STF_UNRESOLVED) →
      (∀ r ∈ rs, r = STF_PASS ∨ r = STF_UNRESOLVED) →
      rs.foldl (fun final result => if prec (known result) > prec final then known result else final) final = STF_PASS ∨
        rs.foldl (fun final result => if prec (known result) > prec final then known result else final) final = STF_UNRESOLVED := by
    intro rs
    induction rs with
    | nil => exact fun final hfinal _ => hfinal
    | cons r rs ih =>
      intro final hfinal hrs
      rw [List.foldl_cons]
      exact ih _ (hstep final hfinal r (hrs r List.mem_cons_self)) fun r hr => hrs r (List.mem_cons_of_mem _ hr)
  exact hfold rs STF_PASS (Or.inl rfl) h

/-- The results of the parts, when the server has not failed anybody. -/
theorem Refines.results_cases (h : Refines prog s m) : ∀ r ∈ s.sys.resultList, r = STF_PASS ∨ r = STF_UNRESOLVED := by
  intro r hr
  obtain ⟨i, hi⟩ := (h.results r).mp hr
  have hloose := h.loose i
  rw [Loose, hi] at hloose
  exact hloose.2.imp And.left id

/-- Where the labels agree, no part fails. -/
def Fine (s : Session n) : Prop := (s.sys.exit = none → s.sys.server.rval = none) ∧ ∀ r, s.sys.exit = some r → r = STF_PASS

theorem Fine.fire (hok : WellLabelled quoteHash prog) (hagreed : Agreed prog) (h : Refines prog s m) (hf : Fine s) {e : Move n}
    (hs : s.fire quoteHash prog e = some s') : Fine s' := by
  have hsame : s'.sys.server.rval = s.sys.server.rval → s'.sys.exit = s.sys.exit → Fine s' := by
    intro hrval hexit
    rw [Fine, hrval, hexit]
    exact hf
  cases e with
  | call i =>
    rw [Session.fire, Session.call] at hs
    split at hs
    · split at hs
      · obtain rfl := Option.some.inj hs
        exact hf
      · rw [System.connect] at hs
        split at hs
        · obtain rfl := Option.some.inj hs
          exact hf
        · rename_i hconnect
          split at hconnect
          · cases hconnect
          · obtain rfl := Option.some.inj hconnect
            obtain rfl := Option.some.inj hs
            exact hf
    · cases hs
  | reply i =>
    rw [Session.fire, Session.reply] at hs
    split at hs
    · obtain ⟨r, -, rfl⟩ := Option.map_eq_some_iff.mp hs
      exact hf
    · cases hs
  | serve =>
    have hserve : s'.sys.exit = s.sys.exit := by
      rw [Session.fire, Session.serve] at hs
      split at hs
      · cases hs
      · obtain rfl := Option.some.inj hs
        rw [step, stepBy]
        split
        · rfl
        · rfl
    rw [Fine, hserve]
    exact ⟨fun hexit => (h.serve hok hs).2 hagreed hexit (hf.1 hexit), hf.2⟩
  | collect i =>
    have hcollect := h.collect hs
    rw [Session.fire, Session.collect] at hs
    split at hs
    · rename_i r hphase
      by_cases hexit : s.sys.exit = none
      · have hrval := hf.1 hexit
        have hpos : 0 < s.sys.left := by
          rw [h.left]
          exact Finset.card_pos.mpr ⟨i, Finset.mem_filter.mpr ⟨Finset.mem_univ i, by rw [hphase]; exact Bool.false_ne_true⟩⟩
        obtain rfl := h.passed (Or.inl hphase) hrval
        rw [if_pos hexit, step_passed hexit (h.running hexit) hpos hrval] at hs
        obtain rfl := Option.some.inj hs
        exact hf
      · rw [if_neg hexit] at hs
        cases hs
    · cases hs
  | finish =>
    rw [Session.fire, Session.finish] at hs
    split at hs
    · rename_i hdone
      obtain ⟨hexit, hleft⟩ := hdone
      have hrval := hf.1 hexit
      have hpass : ∀ r ∈ s.sys.resultList, r = STF_PASS := by
        intro r hr
        obtain ⟨i, hi⟩ := (h.results r).mp hr
        exact h.passed (Or.inr hi) hrval
      rw [step_finish hexit (h.running hexit) hleft hrval] at hs
      obtain rfl := Option.some.inj hs
      exact ⟨fun hnone => (by cases hnone), fun r hr => (Option.some.inj hr).symm.trans (finalResult_pass hpass)⟩
    · cases hs

/-- The launcher exits with `STF_PASS` where the labels agree, and with `STF_UNRESOLVED` where they do not. -/
theorem run_exit (hok : WellLabelled quoteHash prog) {moves : List (Move n)} (hrun : Session.run quoteHash prog moves = some s) {r : Nat}
    (hexit : s.sys.exit = some r) : (r = STF_PASS ↔ Agreed prog) ∧ (r = STF_PASS ∨ r = STF_UNRESOLVED) := by
  have hboth := run_induction
    (P := fun _ s => (∃ m, Refines prog s m) ∧ (Agreed prog → Fine s))
    ⟨⟨_, .init⟩, fun _ => ⟨fun _ => rfl, fun r hr => by cases hr⟩⟩
    (fun moves s s' e ⟨⟨m, h⟩, hf⟩ hfire => ⟨h.fire hok hfire, fun hagreed => (hf hagreed).fire hok hagreed h hfire⟩) hrun
  obtain ⟨⟨m, h⟩, hfine⟩ := hboth
  refine ⟨⟨?_, fun hagreed => (hfine hagreed).2 r hexit⟩, ?_⟩
  · rintro rfl i j k label label' hi hj
    obtain ⟨hleft, hfinal⟩ := (h.exit _ hexit).resolve_left (by decide)
    -- all parts have returned and passed
    have hdone : ∀ i, m.done i = (prog i).length := by
      intro i
      have hreturned : (s.part i).phase.returned = true := by
        rw [h.left, Finset.card_eq_zero, Finset.filter_eq_empty_iff] at hleft
        exact not_not.mp (hleft (Finset.mem_univ i))
      have hloose := h.loose i
      rw [Loose] at hloose
      cases hphase : (s.part i).phase with
      | running | waiting | ended =>
        rw [hphase] at hreturned
        cases hreturned
      | collected r =>
        rw [hphase] at hloose
        have hpass : r = STF_PASS := all_pass_of_finalResult hfinal.symm r ((h.results r).mpr ⟨i, hphase⟩)
        rcases hloose.2 with ⟨-, hlen⟩ | hne
        · exact hloose.1.symm.trans hlen
        · rw [hpass] at hne
          cases hne
    have hagree := h.reach.agree (i := i) (j := j) (k := k) ((hdone i).symm ▸ (List.getElem?_eq_some_iff.mp hi).1)
      ((hdone j).symm ▸ (List.getElem?_eq_some_iff.mp hj).1)
    rw [hi, hj] at hagree
    exact Option.some.inj hagree
  · rcases h.exit r hexit with rfl | ⟨-, rfl⟩
    · exact Or.inr rfl
    · exact finalResult_cases h.results_cases

theorem run_exit_sample : ∃ s, Session.run true Session.sample Session.sampleMoves = some s ∧
    ((STF_PASS = STF_PASS ↔ Agreed Session.sample) ∧ (STF_PASS = STF_PASS ∨ STF_PASS = STF_UNRESOLVED)) := by
  obtain ⟨s, hrun, hexit, -⟩ := sample_run
  exact ⟨s, hrun, run_exit sample_wellLabelled hrun hexit⟩

end ZfsTest.Mstf
