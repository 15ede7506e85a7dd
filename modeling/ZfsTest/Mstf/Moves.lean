import ZfsTest.Mstf.Refine

/-!
# Moves of parts and of the launcher

They keep the refinement, and change nothing in the meeting.
-/

namespace ZfsTest.Mstf

open Tcl

variable {n : Nat} {quoteHash : Bool} {prog : Fin n → List Text} {srv : Server} {part : Fin n → Part} {m : Meeting (Fin n)}
  {q : List (Msg n)} {s s' : Session n}

/-! ## Moves of a part -/

theorem Placed.mono {part' : Fin n → Part} {extra : List (Msg n)} {j : Fin n} (h : Placed srv part m q j) (hpart : part' j = part j) :
    Placed srv part' m (q ++ extra) j := by
  rw [Placed] at h ⊢
  rw [hpart]
  cases hphase : (part j).phase with
  | running =>
    rw [hphase] at h
    exact h
  | ended r =>
    rw [hphase] at h
    exact h
  | collected r =>
    rw [hphase] at h
    exact ⟨h.1, h.2.1, h.2.2.imp id (List.mem_append_left _)⟩
  | waiting c =>
    rw [hphase] at h
    obtain ⟨hlt, hsent | hreplied⟩ := h
    · obtain ⟨hnot, hle, l, hl⟩ := hsent
      refine ⟨hlt, .inl ⟨hnot, hle, l, ?_⟩⟩
      rw [List.getElem?_append_left (List.getElem?_eq_some_iff.mp hl).1, hl]
    · exact ⟨hlt, .inr hreplied⟩

/-- Parts that are not in the queue change, and the queue gets longer. -/
theorem Serving.extend {part' : Fin n → Part} {extra : List (Msg n)} (h : Serving prog srv part m q)
    (hplaced : ∀ j, Placed srv part' m (q ++ extra) j) (hnodup : (q ++ extra).Nodup)
    (hold : ∀ j, (∃ l, .sync j l ∈ q) ∨ .sfin j ∈ q → part' j = part j)
    (hsync : ∀ k j l, extra[k]? = some (.sync j l) → (part' j).phase = .waiting (srv.conns + (q.length + k)) ∧ m.label prog j = some l)
    (hsfin : ∀ j, .sfin j ∈ extra → (part' j).phase = .collected STF_PASS ∧ j ∉ m.gone) : Serving prog srv part' m (q ++ extra) := by
  refine ⟨h.rval, hplaced, h.parts, h.count, h.target, h.empty, h.opened, h.known, hnodup, fun k j l hk => ?_, fun j hj => ?_⟩
  · by_cases hlt : k < q.length
    · rw [List.getElem?_append_left hlt] at hk
      rw [hold j (Or.inl ⟨l, List.mem_of_getElem? hk⟩)]
      exact h.sync k j l hk
    · rw [List.getElem?_append_right (Nat.le_of_not_lt hlt)] at hk
      have hlen : q.length + (k - q.length) = k := by omega
      have hnew := hsync (k - q.length) j l hk
      rwa [hlen] at hnew
  · rcases List.mem_append.mp hj with hj | hj
    · rw [hold j (Or.inr hj)]
      exact h.sfin j hj
    · exact hsfin j hj

/-- Only a part changes that is not in the queue. -/
theorem Serving.update {i : Fin n} {p : Part} (h : Serving prog srv part m q) (extra : List (Msg n))
    (hplaced : Placed srv (Function.update part i p) m (q ++ extra) i) (hnodup : (q ++ extra).Nodup)
    (hnot : (∀ l, .sync i l ∉ q) ∧ .sfin i ∉ q)
    (hsync : ∀ k j l, extra[k]? = some (.sync j l) → j = i ∧ p.phase = .waiting (srv.conns + (q.length + k)) ∧ m.label prog i = some l)
    (hsfin : ∀ j, .sfin j ∈ extra → j = i ∧ p.phase = .collected STF_PASS ∧ i ∉ m.gone) :
    Serving prog srv (Function.update part i p) m (q ++ extra) := by
  refine h.extend (fun j => ?_) hnodup (fun j hj => ?_) (fun k j l hk => ?_) fun j hj => ?_
  · by_cases hji : j = i
    · exact hji ▸ hplaced
    · exact (h.placed j).mono (Function.update_of_ne hji _ _)
  · refine Function.update_of_ne ?_ _ _
    rintro rfl
    rcases hj with ⟨l, hj⟩ | hj
    · exact hnot.1 l hj
    · exact hnot.2 hj
  · obtain ⟨rfl, hphase, hl⟩ := hsync k j l hk
    rw [Function.update_self]
    exact ⟨hphase, hl⟩
  · obtain ⟨rfl, hphase, hgone⟩ := hsfin j hj
    rw [Function.update_self]
    exact ⟨hphase, hgone⟩

/-- A part that runs, or has ended, has nothing in the queue. -/
theorem Serving.notMem_queue {i : Fin n} (h : Serving prog srv part m q) (hwait : ∀ c, srv.conns ≤ c → (part i).phase ≠ .waiting c)
    (hcollected : ∀ r, (part i).phase ≠ .collected r) : (∀ l, .sync i l ∉ q) ∧ .sfin i ∉ q := by
  refine ⟨fun l hl => ?_, fun hi => hcollected _ (h.sfin i hi).1⟩
  obtain ⟨k, hk⟩ := List.mem_iff_getElem?.mp hl
  exact hwait _ (Nat.le_add_right _ _) (h.sync k i l hk).1

/-- A move of a part that the launcher does not see. -/
theorem Refines.own {i : Fin n} {p : Part} (queue : List Text) (h : Refines prog s m) (hold : (s.part i).phase.returned = false)
    (hnew : p.phase.returned = false) (hloose : Loose prog s.sys.server (Function.update s.part i p) m i)
    (hserving : s.sys.server.rval = none → ∃ q, queue = q.map Msg.text ∧ (.stop ∈ q → s.sys.exit ≠ none) ∧
      Serving prog s.sys.server (Function.update s.part i p) m q) :
    Refines prog (Session.put { s with sys := { s.sys with queue := queue } } i p) m := by
  have hother : ∀ j, j ≠ i → Function.update s.part i p j = s.part j := fun j hj => Function.update_of_ne hj _ _
  have hself : Function.update s.part i p i = p := Function.update_self _ _ _
  refine ⟨h.reach, fun j => ?_, ?_, fun r => ?_, h.exit, h.running, hserving⟩
  · by_cases hj : j = i
    · exact hj ▸ hloose
    · exact (h.loose j).congr (hother j hj) fun _ => Iff.rfl
  · refine h.left.trans (congrArg Finset.card (Finset.filter_congr fun j _ => ?_))
    by_cases hj : j = i
    · subst hj
      show _ ↔ ¬(Function.update s.part j p j).phase.returned = true
      rw [hself, hold, hnew]
    · show _ ↔ ¬(Function.update s.part i p j).phase.returned = true
      rw [hother j hj]
  · refine (h.results r).trans (exists_congr fun j => ?_)
    show (s.part j).phase = .collected r ↔ (Function.update s.part i p j).phase = .collected r
    by_cases hj : j = i
    · subst hj
      rw [hself]
      exact iff_of_false (fun hc => by rw [hc] at hold; cases hold) fun hc => by rw [hc] at hnew; cases hnew
    · rw [hother j hj]

theorem Refines.call (h : Refines prog s m) {i : Fin n} (hs : s.call prog i = some s') : Refines prog s' m := by
  rw [Session.call] at hs
  by_cases hphase : (s.part i).phase = .running
  · have hold : (s.part i).phase.returned = false := by rw [hphase]; rfl
    have hi : (s.part i).done = m.done i := by
      have hi := h.loose i
      rwa [Loose, hphase] at hi
    have hself : ∀ p, Function.update s.part i p i = p := fun p => Function.update_self _ _ _
    have hplaced : ∀ {q : List (Msg n)}, Serving prog s.sys.server s.part m q → i ∉ m.here ∧ i ∉ m.gone := by
      intro q hserving
      have hp := hserving.placed i
      rwa [Placed, hphase] at hp
    have hnot : ∀ {q : List (Msg n)}, Serving prog s.sys.server s.part m q → (∀ l, .sync i l ∉ q) ∧ .sfin i ∉ q := fun hserving =>
      hserving.notMem_queue (fun c _ hc => by rw [hphase] at hc; cases hc) fun r hr => by rw [hphase] at hr; cases hr
    rw [if_pos hphase] at hs
    cases hlabel : (prog i)[(s.part i).done]? with
    | none =>
      rw [hlabel] at hs
      obtain rfl := Option.some.inj hs
      obtain ⟨r, hlevel⟩ := h.reach.level
      have hdone : (s.part i).done = (prog i).length := Nat.le_antisymm (hi ▸ hlevel.bound i) (List.getElem?_eq_none_iff.mp hlabel)
      refine Refines.own s.sys.queue h hold rfl ?_ fun hrval => ?_
      · rw [Loose, hself]
        exact ⟨hi, Or.inl ⟨rfl, hdone⟩⟩
      · obtain ⟨q, hq, hstop, hserving⟩ := h.serving hrval
        have hnew := hserving.update [] (i := i) (p := ⟨(s.part i).done, .ended STF_PASS⟩) ?_ ?_ (hnot hserving)
          (fun k j l hk => by cases hk) fun j hj => by cases hj
        · rw [List.append_nil] at hnew
          exact ⟨q, hq, hstop, hnew⟩
        · rw [Placed, hself]
          exact ⟨rfl, hplaced hserving⟩
        · rw [List.append_nil]
          exact hserving.nodup
    | some label =>
      rw [hlabel] at hs
      dsimp only at hs
      rw [System.connect] at hs
      by_cases hgone : s.sys.server.rval.isSome = true
      · rw [if_pos hgone] at hs
        obtain rfl := Option.some.inj hs
        refine Refines.own s.sys.queue h hold rfl ?_ fun hrval => ?_
        · rw [Loose, hself]
          exact ⟨hi, Or.inr rfl⟩
        · rw [hrval] at hgone
          cases hgone
      · rw [if_neg hgone] at hs
        obtain rfl := Option.some.inj hs
        have hlen : ∀ {q : List (Msg n)}, s.sys.queue = q.map Msg.text → s.sys.queue.length = q.length := fun hq => by
          rw [hq, List.length_map]
        have hnone : ∀ {q : List (Msg n)}, Serving prog s.sys.server s.part m q → ∀ k,
            s.sys.server.replies.lookup (s.sys.server.conns + k) = none := by
          intro q hserving k
          cases hlook : s.sys.server.replies.lookup (s.sys.server.conns + k) with
          | none => rfl
          | some r => exact absurd (hserving.known _ r hlook).1 (by omega)
        have hrval : s.sys.server.rval = none := by
          rw [Option.not_isSome_iff_eq_none] at hgone
          exact hgone
        obtain ⟨q, hq, hstop, hserving⟩ := h.serving hrval
        refine Refines.own _ h hold rfl ?_ fun _ => ?_
        · rw [Loose, hself]
          refine ⟨(List.getElem?_eq_some_iff.mp hlabel).1, ?_⟩
          rw [hnone hserving, if_neg (by simp)]
          exact hi
        · refine ⟨q ++ [Msg.sync i label], ?_, fun hmem => hstop ?_, ?_⟩
          · rw [hq, List.map_append]
            rfl
          · rcases List.mem_append.mp hmem with hmem | hmem
            · exact hmem
            · cases List.mem_singleton.mp hmem
          · rw [hlen hq]
            refine hserving.update _ ?_ ?_ (hnot hserving) (fun k j l hk => ?_) fun j hj => ?_
            · rw [Placed, hself]
              refine ⟨(hplaced hserving).2, Or.inl ⟨(hplaced hserving).1, Nat.le_add_right _ _, label, ?_⟩⟩
              rw [Nat.add_sub_cancel_left, List.getElem?_append_right le_rfl, Nat.sub_self]
              rfl
            · refine List.nodup_append.mpr ⟨hserving.nodup, List.nodup_singleton _, fun a ha b hb hab => ?_⟩
              rw [hab, List.mem_singleton.mp hb] at ha
              exact (hnot hserving).1 label ha
            · cases k with
              | zero =>
                obtain ⟨rfl, rfl⟩ := Msg.sync.inj (Option.some.inj hk)
                refine ⟨rfl, rfl, ?_⟩
                rw [Meeting.label, ← hi]
                exact hlabel
              | succ k => cases hk
            · cases List.mem_singleton.mp hj
  · rw [if_neg hphase] at hs
    cases hs

theorem Refines.reply (h : Refines prog s m) {i : Fin n} (hs : s.reply i = some s') : Refines prog s' m := by
  rw [Session.reply] at hs
  cases hphase : (s.part i).phase with
  | running | ended | collected =>
    rw [hphase] at hs
    cases hs
  | waiting c =>
    rw [hphase] at hs
    obtain ⟨r, hr, rfl⟩ := Option.map_eq_some_iff.mp hs
    have hold : (s.part i).phase.returned = false := by rw [hphase]; rfl
    have hi := h.loose i
    rw [Loose, hphase] at hi
    dsimp only at hi
    have hself : ∀ p, Function.update s.part i p i = p := fun p => Function.update_self _ _ _
    rw [Session.received] at hr
    by_cases hgo : s.sys.server.replies.lookup c = some .go
    · rw [hgo] at hr
      obtain rfl := Option.some.inj hr
      rw [hgo, if_pos rfl] at hi
      rw [if_pos rfl]
      refine Refines.own s.sys.queue h hold rfl ?_ fun hrval => ?_
      · rw [Loose, hself]
        exact hi.2
      · obtain ⟨q, hq, hstop, hserving⟩ := h.serving hrval
        have hlt := (hserving.known c _ hgo).1
        have hnot := hserving.notMem_queue (i := i) (fun d hd hw => by
          rw [hphase] at hw
          exact absurd hlt (Nat.not_lt.mpr (Phase.waiting.inj hw ▸ hd))) fun r hr => by rw [hphase] at hr; cases hr
        have hnew := hserving.update [] (i := i) (p := ⟨(s.part i).done + 1, .running⟩) ?_ ?_ hnot
          (fun k j l hk => by cases hk) fun j hj => by cases hj
        · rw [List.append_nil] at hnew
          exact ⟨q, hq, hstop, hnew⟩
        · have hp := hserving.placed i
          rw [Placed, hphase] at hp
          rw [Placed, hself]
          rcases hp.2 with ⟨-, hle, -⟩ | ⟨-, hopen⟩ | ⟨hhere, -⟩
          · exact absurd hlt (Nat.not_lt.mpr hle)
          · rw [(hserving.opened c hopen).2] at hgo
            cases hgo
          · exact ⟨hhere, hp.1⟩
        · rw [List.append_nil]
          exact hserving.nodup
    · have hne : r ≠ some .go := by
        rintro rfl
        cases hlook : s.sys.server.replies.lookup c with
        | none =>
          rw [hlook] at hr
          dsimp only at hr
          split at hr
          · cases hr
          · cases hr
        | some t =>
          rw [hlook] at hr
          exact hgo (hlook.trans (Option.some.inj hr))
      rw [if_neg hgo] at hi
      rw [if_neg hne]
      refine Refines.own s.sys.queue h hold rfl ?_ fun hrval => ?_
      · rw [Loose, hself]
        exact ⟨hi.2, Or.inr rfl⟩
      · obtain ⟨q, hq, hstop, hserving⟩ := h.serving hrval
        cases hlook : s.sys.server.replies.lookup c with
        | none =>
          rw [hlook, hrval] at hr
          cases hr
        | some t => exact absurd (hlook.trans (congrArg some (hserving.known c t hlook).2)) hgo

/-! ## Moves of the launcher -/

section Steps

variable {sys : System} (hexit : sys.exit = none) (hrunning : sys.running = true)

include hexit hrunning

theorem step_passed (hleft : 0 < sys.left) (hrval : sys.server.rval = none) : step quoteHash sys (.returned STF_PASS) =
    { sys with resultList := sys.resultList ++ [STF_PASS], left := sys.left - 1, queue := sys.queue ++ [sfinText] } := by
  simp [step, stepBy, hexit, hleft, removeScriptFromSyncserv, hrunning, System.connect, hrval]

theorem step_returned (hleft : 0 < sys.left) (hrval : sys.server.rval.isSome = true) (rval : Nat) : step quoteHash sys (.returned rval) =
    { sys with resultList := sys.resultList ++ [rval], left := sys.left - 1, exit := some STF_UNRESOLVED } := by
  simp [step, stepBy, hexit, hleft, removeScriptFromSyncserv, stopSyncserv, hrunning, System.connect, hrval]

theorem step_finish (hleft : sys.left = 0) (hrval : sys.server.rval = none) : step quoteHash sys .finish =
    { sys with queue := sys.queue ++ [stopText], running := false, exit := some (finalResult sys.resultList) } := by
  simp [step, stepBy, hexit, hleft, stopSyncserv, hrunning, System.connect, hrval]

theorem step_finish_ended (hleft : sys.left = 0) (hrval : sys.server.rval.isSome = true) :
    step quoteHash sys .finish = { sys with exit := some STF_UNRESOLVED } := by
  simp [step, stepBy, hexit, hleft, stopSyncserv, hrunning, System.connect, hrval]

end Steps

/-- A part that has ended while the server serves has passed. -/
theorem Refines.passed (h : Refines prog s m) {i : Fin n} {rval : Nat}
    (hphase : (s.part i).phase = .ended rval ∨ (s.part i).phase = .collected rval) (hrval : s.sys.server.rval = none) : rval = STF_PASS := by
  obtain ⟨q, -, -, hserving⟩ := h.serving hrval
  have hp := hserving.placed i
  rw [Placed] at hp
  rcases hphase with hphase | hphase
  · rw [hphase] at hp
    exact hp.1
  · rw [hphase] at hp
    exact hp.1

theorem pending_collect {part : Fin n → Part} {i : Fin n} {p : Part} (hold : (part i).phase.returned = false)
    (hnew : p.phase.returned = true) :
    (Finset.univ.filter fun j => ¬(Function.update part i p j).phase.returned).card =
      (Finset.univ.filter fun j => ¬(part j).phase.returned).card - 1 := by
  have hmem : i ∈ Finset.univ.filter fun j => ¬(part j).phase.returned = true :=
    Finset.mem_filter.mpr ⟨Finset.mem_univ i, by rw [hold]; exact Bool.false_ne_true⟩
  rw [← Finset.card_erase_of_mem hmem]
  congr 1
  ext j
  rw [Finset.mem_erase, Finset.mem_filter, Finset.mem_filter]
  by_cases hj : j = i
  · subst hj
    rw [Function.update_self, hnew]
    simp
  · rw [Function.update_of_ne hj]
    simp [hj]

theorem Refines.collect (h : Refines prog s m) {i : Fin n} (hs : s.collect quoteHash i = some s') : Refines prog s' m := by
  rw [Session.collect] at hs
  cases hphase : (s.part i).phase with
  | running | waiting | collected =>
    rw [hphase] at hs
    cases hs
  | ended rval =>
    rw [hphase] at hs
    dsimp only at hs
    by_cases hexit : s.sys.exit = none
    · rw [if_pos hexit] at hs
      obtain rfl := Option.some.inj hs
      have hold : (s.part i).phase.returned = false := by rw [hphase]; rfl
      have hi := h.loose i
      rw [Loose, hphase] at hi
      have hpos : 0 < s.sys.left := by
        rw [h.left]
        exact Finset.card_pos.mpr ⟨i, Finset.mem_filter.mpr ⟨Finset.mem_univ i, by rw [hold]; exact Bool.false_ne_true⟩⟩
      have hother : ∀ j, j ≠ i → Function.update s.part i ⟨(s.part i).done, .collected rval⟩ j = s.part j :=
        fun j hj => Function.update_of_ne hj _ _
      have hself : Function.update s.part i ⟨(s.part i).done, .collected rval⟩ i = ⟨(s.part i).done, .collected rval⟩ :=
        Function.update_self _ _ _
      have hloose : ∀ j, Loose prog s.sys.server (Function.update s.part i ⟨(s.part i).done, .collected rval⟩) m j := by
        intro j
        by_cases hj : j = i
        · subst hj
          rw [Loose, hself]
          exact hi
        · exact (h.loose j).congr (hother j hj) fun _ => Iff.rfl
      have hleft : s.sys.left - 1 =
          (Finset.univ.filter fun j => ¬(Function.update s.part i ⟨(s.part i).done, .collected rval⟩ j).phase.returned).card := by
        rw [pending_collect hold rfl, h.left]
      have hresults : ∀ r, r ∈ s.sys.resultList ++ [rval] ↔
          ∃ j, (Function.update s.part i ⟨(s.part i).done, .collected rval⟩ j).phase = .collected r := by
        intro r
        rw [List.mem_append, h.results r, List.mem_singleton]
        constructor
        · rintro (⟨j, hj⟩ | rfl)
          · have hne : j ≠ i := by
              rintro rfl
              rw [hphase] at hj
              cases hj
            exact ⟨j, by rw [hother j hne]; exact hj⟩
          · exact ⟨i, by rw [hself]⟩
        · rintro ⟨j, hj⟩
          by_cases hji : j = i
          · subst hji
            rw [hself] at hj
            exact Or.inr (Phase.collected.inj hj).symm
          · rw [hother j hji] at hj
            exact Or.inl ⟨j, hj⟩
      have hrunning := h.running hexit
      by_cases hrval : s.sys.server.rval = none
      · -- the server serves: the part has passed, and is counted out
        obtain rfl := h.passed (Or.inl hphase) hrval
        rw [step_passed hexit hrunning hpos hrval]
        refine ⟨h.reach, hloose, hleft, hresults, fun r hr => ?_, fun _ => hrunning, fun _ => ?_⟩
        · rw [show s.sys.exit = some r from hr] at hexit
          cases hexit
        · obtain ⟨q, hq, hstop, hserving⟩ := h.serving hrval
          have hnot := hserving.notMem_queue (i := i) (fun c _ hc => by rw [hphase] at hc; cases hc) fun r hr => by
            rw [hphase] at hr
            cases hr
          have hp := hserving.placed i
          rw [Placed, hphase] at hp
          refine ⟨q ++ [Msg.sfin i], ?_, fun hmem => absurd hexit (hstop ?_), ?_⟩
          · show s.sys.queue ++ [sfinText] = _
            rw [hq, List.map_append]
            rfl
          · rcases List.mem_append.mp hmem with hmem | hmem
            · exact hmem
            · cases List.mem_singleton.mp hmem
          · refine hserving.update _ ?_ ?_ hnot (fun k j l hk => ?_) fun j hj => ?_
            · rw [Placed, hself]
              exact ⟨rfl, hp.2.1, Or.inr (List.mem_append_right _ (List.mem_singleton_self _))⟩
            · refine List.nodup_append.mpr ⟨hserving.nodup, List.nodup_singleton _, fun a ha b hb hab => ?_⟩
              rw [hab, List.mem_singleton.mp hb] at ha
              exact hnot.2 ha
            · cases k with
              | zero => cases hk
              | succ k => cases hk
            · obtain rfl := Msg.sfin.inj (List.mem_singleton.mp hj)
              exact ⟨rfl, rfl, hp.2.2⟩
      · have hsome : s.sys.server.rval.isSome = true := Option.isSome_iff_ne_none.mpr hrval
        rw [step_returned hexit hrunning hpos hsome]
        refine ⟨h.reach, hloose, hleft, hresults, fun r hr => Or.inl (Option.some.inj hr).symm, fun hnone => (by cases hnone),
          fun hnone => ?_⟩
        exact absurd hnone hrval
    · rw [if_neg hexit] at hs
      cases hs

theorem Refines.finish (h : Refines prog s m) (hs : s.finish quoteHash = some s') : Refines prog s' m := by
  rw [Session.finish] at hs
  by_cases hdone : s.sys.exit = none ∧ s.sys.left = 0
  · rw [if_pos hdone] at hs
    obtain rfl := Option.some.inj hs
    obtain ⟨hexit, hleft⟩ := hdone
    have hrunning := h.running hexit
    by_cases hrval : s.sys.server.rval = none
    · rw [step_finish hexit hrunning hleft hrval]
      refine ⟨h.reach, h.loose, h.left, h.results, fun r hr => Or.inr ⟨hleft, (Option.some.inj hr).symm⟩, fun hnone => (by cases hnone),
        fun _ => ?_⟩
      obtain ⟨q, hq, hstop, hserving⟩ := h.serving hrval
      have hnot : Msg.stop ∉ q := fun hmem => hstop hmem hexit
      refine ⟨q ++ [Msg.stop], ?_, fun _ hnone => (by cases hnone), ?_⟩
      · show s.sys.queue ++ [stopText] = _
        rw [hq, List.map_append]
        rfl
      · refine hserving.extend (fun j => (hserving.placed j).mono rfl) ?_ (fun _ _ => rfl) (fun k j l hk => ?_) fun j hj => ?_
        · refine List.nodup_append.mpr ⟨hserving.nodup, List.nodup_singleton _, fun a ha b hb hab => ?_⟩
          rw [hab, List.mem_singleton.mp hb] at ha
          exact hnot ha
        · cases k with
          | zero => cases hk
          | succ k => cases hk
        · cases List.mem_singleton.mp hj
    · have hsome : s.sys.server.rval.isSome = true := Option.isSome_iff_ne_none.mpr hrval
      rw [step_finish_ended hexit hrunning hleft hsome]
      exact ⟨h.reach, h.loose, h.left, h.results, fun r hr => Or.inl (Option.some.inj hr).symm, fun hnone => (by cases hnone),
        fun hnone => absurd hnone hrval⟩
  · rw [if_neg hdone] at hs
    cases hs

/-- Every move keeps the refinement. -/
theorem Refines.fire (hok : WellLabelled quoteHash prog) (h : Refines prog s m) {e : Move n} (hs : s.fire quoteHash prog e = some s') :
    ∃ m', Refines prog s' m' := by
  cases e with
  | call i => exact ⟨m, h.call hs⟩
  | reply i => exact ⟨m, h.reply hs⟩
  | serve => exact (h.serve hok hs).1
  | collect i => exact ⟨m, h.collect hs⟩
  | finish => exact ⟨m, h.finish hs⟩

end ZfsTest.Mstf
