import Mathlib.Algebra.BigOperators.Group.Finset.Basic
import ZfsTest.Mstf.Lockstep

/-!
# Every run ends

Every move brings a session nearer to its end (`fire_weight`), and a session in which no move can be made has ended: if all that have not
returned wait with the server, they are all here, and would have been let go (`Refines.exists_move`).
-/

namespace ZfsTest.Mstf

open Tcl

variable {n : Nat} {quoteHash : Bool} {prog : Fin n → List Text} {srv : Server} {part : Fin n → Part} {m : Meeting (Fin n)}
  {q : List (Msg n)} {s s' : Session n}

/-! ## What is left to do -/

/-- What a part has still to do. -/
def Part.weight (labels : List Text) (p : Part) : Nat :=
  match p.phase with
  | .running => 4 * (labels.length - p.done) + 3
  | .waiting _ => 4 * (labels.length - p.done) + 1
  | .ended _ => 2
  | .collected _ => 0

def Session.weight (prog : Fin n → List Text) (s : Session n) : Nat :=
  ∑ i, (s.part i).weight (prog i) + s.sys.queue.length + if s.sys.exit = none then 2 else 0

theorem weight_update (prog : Fin n → List Text) (part : Fin n → Part) (i : Fin n) (p : Part) :
    ∑ j, (Function.update part i p j).weight (prog j) + (part i).weight (prog i) = ∑ j, (part j).weight (prog j) + p.weight (prog i) := by
  have hrest : ∑ j ∈ Finset.univ.erase i, (Function.update part i p j).weight (prog j) =
      ∑ j ∈ Finset.univ.erase i, (part j).weight (prog j) :=
    Finset.sum_congr rfl fun j hj => by rw [Function.update_of_ne (Finset.ne_of_mem_erase hj)]
  have hnew := Finset.add_sum_erase Finset.univ (fun j => (Function.update part i p j).weight (prog j)) (Finset.mem_univ i)
  have hold := Finset.add_sum_erase Finset.univ (fun j => (part j).weight (prog j)) (Finset.mem_univ i)
  simp only [Function.update_self] at hnew
  omega

theorem weight_put (s : Session n) (sys : System) (i : Fin n) (p : Part) {d : Nat}
    (hsys : sys.queue.length + (if sys.exit = none then 2 else 0) ≤ s.sys.queue.length + (if s.sys.exit = none then 2 else 0) + d)
    (hp : p.weight (prog i) + d < (s.part i).weight (prog i)) :
    (Session.put { s with sys := sys } i p).weight prog < s.weight prog := by
  have hsum := weight_update prog s.part i p
  show ∑ j, (Function.update s.part i p j).weight (prog j) + sys.queue.length + (if sys.exit = none then 2 else 0) <
    ∑ j, (s.part j).weight (prog j) + s.sys.queue.length + (if s.sys.exit = none then 2 else 0)
  omega

theorem call_weight {i : Fin n} (hs : s.call prog i = some s') : s'.weight prog < s.weight prog := by
  rw [Session.call] at hs
  by_cases hphase : (s.part i).phase = .running
  · have hold : (s.part i).weight (prog i) = 4 * ((prog i).length - (s.part i).done) + 3 := by rw [Part.weight, hphase]
    have hended : ∀ rval, (Part.mk (s.part i).done (.ended rval)).weight (prog i) + 0 < (s.part i).weight (prog i) := fun rval => by
      rw [hold]
      show 2 < _
      omega
    rw [if_pos hphase] at hs
    cases hlabel : (prog i)[(s.part i).done]? with
    | none =>
      rw [hlabel] at hs
      obtain rfl := Option.some.inj hs
      exact weight_put s s.sys i _ le_rfl (hended _)
    | some label =>
      rw [hlabel] at hs
      dsimp only at hs
      rw [System.connect] at hs
      by_cases hgone : s.sys.server.rval.isSome = true
      · rw [if_pos hgone] at hs
        obtain rfl := Option.some.inj hs
        exact weight_put s s.sys i _ le_rfl (hended _)
      · rw [if_neg hgone] at hs
        obtain rfl := Option.some.inj hs
        refine weight_put s _ i _ (d := 1) ?_ ?_
        · show (s.sys.queue ++ [Req.text (.sync label)]).length + (if s.sys.exit = none then 2 else 0) ≤ _
          rw [List.length_append, List.length_singleton]
          omega
        · rw [hold]
          show 4 * ((prog i).length - (s.part i).done) + 1 + 1 < _
          omega
  · rw [if_neg hphase] at hs
    cases hs

theorem reply_weight (h : Refines prog s m) {i : Fin n} (hs : s.reply i = some s') : s'.weight prog < s.weight prog := by
  rw [Session.reply] at hs
  cases hphase : (s.part i).phase with
  | running | ended | collected =>
    rw [hphase] at hs
    cases hs
  | waiting c =>
    rw [hphase] at hs
    obtain ⟨r, -, rfl⟩ := Option.map_eq_some_iff.mp hs
    have hi := h.loose i
    rw [Loose, hphase] at hi
    have hlt : (s.part i).done < (prog i).length := hi.1
    have hold : (s.part i).weight (prog i) = 4 * ((prog i).length - (s.part i).done) + 1 := by rw [Part.weight, hphase]
    refine weight_put s s.sys i _ (d := 0) le_rfl ?_
    rw [hold]
    split
    · show 4 * ((prog i).length - ((s.part i).done + 1)) + 3 + 0 < _
      omega
    · show 2 + 0 < _
      omega

theorem serve_weight (hs : s.serve quoteHash = some s') : s'.weight prog < s.weight prog := by
  rw [Session.serve] at hs
  cases hqueue : s.sys.queue with
  | nil =>
    rw [if_pos hqueue] at hs
    cases hs
  | cons text queue =>
    rw [if_neg (by rw [hqueue]; exact List.cons_ne_nil _ _), step, stepBy, hqueue] at hs
    obtain rfl := Option.some.inj hs
    have hlen : ∀ b : Bool, (if b then [] else queue).length ≤ queue.length := by
      intro b
      cases b with
      | true => exact Nat.zero_le _
      | false => exact le_rfl
    have hle := hlen (serve quoteHash s.sys.server text).rval.isSome
    show ∑ j, (s.part j).weight (prog j) + (if (serve quoteHash s.sys.server text).rval.isSome then [] else queue).length +
        (if s.sys.exit = none then 2 else 0) <
      ∑ j, (s.part j).weight (prog j) + s.sys.queue.length + (if s.sys.exit = none then 2 else 0)
    rw [hqueue, List.length_cons]
    omega

theorem collect_weight (h : Refines prog s m) {i : Fin n} (hs : s.collect quoteHash i = some s') : s'.weight prog < s.weight prog := by
  rw [Session.collect] at hs
  cases hphase : (s.part i).phase with
  | running | waiting | collected =>
    rw [hphase] at hs
    cases hs
  | ended rval =>
    rw [hphase] at hs
    dsimp only at hs
    by_cases hexit : s.sys.exit = none
    · rw [if_pos hexit] at hs
      obtain rfl := Option.some.inj hs
      have hpos : 0 < s.sys.left := by
        rw [h.left]
        exact Finset.card_pos.mpr ⟨i, Finset.mem_filter.mpr ⟨Finset.mem_univ i, by rw [hphase]; exact Bool.false_ne_true⟩⟩
      have hold : (s.part i).weight (prog i) = 2 := by rw [Part.weight, hphase]
      refine weight_put s _ i _ (d := 1) ?_ (by rw [hold]; exact Nat.lt_succ_self 1)
      by_cases hrval : s.sys.server.rval = none
      · obtain rfl := h.passed (Or.inl hphase) hrval
        rw [step_passed hexit (h.running hexit) hpos hrval]
        show (s.sys.queue ++ [sfinText]).length + (if s.sys.exit = none then 2 else 0) ≤ _
        rw [List.length_append, List.length_singleton]
        omega
      · rw [step_returned hexit (h.running hexit) hpos (Option.isSome_iff_ne_none.mpr hrval) rval, hexit, if_pos rfl]
        show s.sys.queue.length + 0 ≤ _
        omega
    · rw [if_neg hexit] at hs
      cases hs

theorem finish_weight (h : Refines prog s m) (hs : s.finish quoteHash = some s') : s'.weight prog < s.weight prog := by
  rw [Session.finish] at hs
  by_cases hdone : s.sys.exit = none ∧ s.sys.left = 0
  · rw [if_pos hdone] at hs
    obtain rfl := Option.some.inj hs
    obtain ⟨hexit, hleft⟩ := hdone
    by_cases hrval : s.sys.server.rval = none
    · rw [step_finish hexit (h.running hexit) hleft hrval]
      show ∑ j, (s.part j).weight (prog j) + (s.sys.queue ++ [stopText]).length + 0 <
        ∑ j, (s.part j).weight (prog j) + s.sys.queue.length + (if s.sys.exit = none then 2 else 0)
      rw [hexit, if_pos rfl, List.length_append, List.length_singleton]
      omega
    · rw [step_finish_ended hexit (h.running hexit) hleft (Option.isSome_iff_ne_none.mpr hrval)]
      show ∑ j, (s.part j).weight (prog j) + s.sys.queue.length + 0 <
        ∑ j, (s.part j).weight (prog j) + s.sys.queue.length + (if s.sys.exit = none then 2 else 0)
      rw [hexit, if_pos rfl]
      omega
  · rw [if_neg hdone] at hs
    cases hs

theorem fire_weight (h : Refines prog s m) {e : Move n} (hs : s.fire quoteHash prog e = some s') : s'.weight prog < s.weight prog := by
  cases e with
  | call i => exact call_weight hs
  | reply i => exact reply_weight h hs
  | serve => exact serve_weight hs
  | collect i => exact collect_weight h hs
  | finish => exact finish_weight h hs

/-- A run has a bounded number of moves. -/
theorem run_length_le (hok : WellLabelled quoteHash prog) {moves : List (Move n)} (hrun : Session.run quoteHash prog moves = some s) :
    moves.length + s.weight prog ≤ (Session.init n).weight prog := by
  have hboth := run_induction
    (P := fun moves s => (∃ m, Refines prog s m) ∧ moves.length + s.weight prog ≤ (Session.init n).weight prog)
    ⟨⟨_, .init⟩, by rw [List.length_nil, Nat.zero_add]⟩ (fun moves s s' e ⟨⟨m, h⟩, hle⟩ hfire => ?_) hrun
  · exact hboth.2
  · have hlt := fire_weight h hfire
    rw [List.length_append, List.length_singleton]
    exact ⟨h.fire hok hfire, by omega⟩

/-! ## No run stops before its end -/

/-- While the launcher has not exited, a move can be made. -/
theorem Refines.exists_move (h : Refines prog s m) (quoteHash : Bool) (hexit : s.sys.exit = none) : ∃ e s', s.fire quoteHash prog e = some s' := by
  by_cases hcollected : ∀ i, (s.part i).phase.returned = true
  · -- all parts have returned
    have hleft : s.sys.left = 0 := by
      rw [h.left, Finset.card_eq_zero]
      exact Finset.filter_eq_empty_iff.mpr fun i _ hnot => hnot (hcollected i)
    exact ⟨.finish, _, if_pos ⟨hexit, hleft⟩⟩
  · by_contra hstuck
    have hstuck : ∀ e, s.fire quoteHash prog e = none := fun e => by
      cases hfire : s.fire quoteHash prog e with
      | none => rfl
      | some s' => exact absurd ⟨e, s', hfire⟩ hstuck
    have hwaits : ∀ i, (s.part i).phase.returned = true ∨ ∃ c, (s.part i).phase = .waiting c ∧ s.received c = none := by
      intro i
      cases hphase : (s.part i).phase with
      | running =>
        have hcall := hstuck (.call i)
        rw [Session.fire, Session.call, if_pos hphase] at hcall
        split at hcall
        · cases hcall
        · split at hcall
          · cases hcall
          · cases hcall
      | ended r =>
        have hcollect := hstuck (.collect i)
        simp [Session.fire, Session.collect, hphase, hexit] at hcollect
      | collected r => exact Or.inl rfl
      | waiting c =>
        have hreply := hstuck (.reply i)
        simp only [Session.fire, Session.reply, hphase, Option.map_eq_none_iff] at hreply
        exact Or.inr ⟨c, rfl, hreply⟩
    obtain ⟨i, hi⟩ := not_forall.mp hcollected
    obtain ⟨c, hphase, hnone⟩ := (hwaits i).resolve_left hi
    -- the server is there, since the connection is open
    have hopen : ∀ {c}, s.received c = none → s.sys.server.rval = none ∧ s.sys.server.replies.lookup c = none := by
      intro c hnone
      rw [Session.received] at hnone
      cases hlook : s.sys.server.replies.lookup c with
      | some r =>
        rw [hlook] at hnone
        cases hnone
      | none =>
        rw [hlook] at hnone
        cases hrval : s.sys.server.rval with
        | none => exact ⟨rfl, rfl⟩
        | some r =>
          rw [hrval] at hnone
          cases hnone
    obtain ⟨q, hq, -, hserving⟩ := h.serving (hopen hnone).1
    have hempty : q = [] := by
      have hserve := hstuck .serve
      rw [Session.fire, Session.serve] at hserve
      split at hserve
      · rename_i hqueue
        rw [hq] at hqueue
        exact List.map_eq_nil_iff.mp hqueue
      · cases hserve
    subst hempty
    -- everybody is here or has left
    have hplace : ∀ j, j ∈ m.here ∨ j ∈ m.gone := by
      intro j
      have hp := hserving.placed j
      rw [Placed] at hp
      rcases hwaits j with hreturned | ⟨d, hd, hnone⟩
      · cases hj : (s.part j).phase with
        | collected r =>
          rw [hj] at hp
          exact Or.inr (hp.2.2.resolve_right fun hmem => by cases hmem)
        | running | waiting | ended =>
          rw [hj] at hreturned
          cases hreturned
      · rw [hd] at hp
        rcases hp.2 with ⟨-, -, l, hl⟩ | ⟨hhere, -⟩ | ⟨-, hgo⟩
        · cases hl
        · exact Or.inl hhere
        · rw [(hopen hnone).2] at hgo
          cases hgo
    have hhere : i ∈ m.here := by
      refine (hplace i).resolve_right fun hgone => ?_
      have hp := hserving.placed i
      rw [Placed, hphase] at hp
      exact hp.1 hgone
    refine h.reach.open ⟨i, hhere⟩ (Finset.Subset.antisymm hserving.here_le fun j hj => ?_)
    exact (hplace j).resolve_right (Finset.mem_compl.mp hj)

/-- A run is at most that long, and while the launcher has not exited it can go on. -/
theorem session_ends (hok : WellLabelled quoteHash prog) {moves : List (Move n)} (hrun : Session.run quoteHash prog moves = some s) :
    moves.length ≤ ∑ i, (4 * (prog i).length + 3) + 2 ∧
      (s.sys.exit = none → ∃ e s', Session.run quoteHash prog (moves ++ [e]) = some s') := by
  obtain ⟨m, h⟩ := run_refines hok hrun
  constructor
  · have hle := run_length_le hok hrun
    have hinit : (Session.init n).weight prog = ∑ i, (4 * (prog i).length + 3) + 0 + 2 := rfl
    omega
  · intro hexit
    obtain ⟨e, s', hfire⟩ := h.exists_move quoteHash hexit
    refine ⟨e, s', ?_⟩
    rw [run_concat_move, hrun]
    exact hfire

theorem session_ends_sample : ∃ s, Session.run true Session.sample Session.sampleMoves = some s ∧
    (Session.sampleMoves.length ≤ ∑ i, (4 * (Session.sample i).length + 3) + 2 ∧
      (s.sys.exit = none → ∃ e s', Session.run true Session.sample (Session.sampleMoves ++ [e]) = some s')) := by
  obtain ⟨s, hrun, -, -⟩ := sample_run
  exact ⟨s, hrun, session_ends sample_wellLabelled hrun⟩

end ZfsTest.Mstf
