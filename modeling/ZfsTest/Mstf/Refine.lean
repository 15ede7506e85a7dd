import ZfsTest.Mstf.Session

/-!
# A session is a meeting of its parts

A part arrives when the server takes its request, and has left when the server has taken its `sfin`. `Refines` says where the parts, the
launcher and the queue of the server are in a meeting. A move of the server is one step of the meeting, or the end of the server
(`Refines.serve`).
-/

namespace ZfsTest.Mstf

open Tcl

/-- A connection that the server has not taken. -/
inductive Msg (n : Nat)
  | sync (i : Fin n) (label : Text)
  | sfin (i : Fin n)
  | stop
  deriving DecidableEq

def Msg.text {n : Nat} : Msg n → Text
  | .sync _ label => Req.text (.sync label)
  | .sfin _ => sfinText
  | .stop => stopText

def Phase.returned : Phase → Bool
  | .collected _ => true
  | _ => false

variable {n : Nat} {quoteHash : Bool} {prog : Fin n → List Text} {srv : Server} {part : Fin n → Part} {m : Meeting (Fin n)}
  {q : List (Msg n)}

/-! ## The refinement -/

/-- What is said of a part whether the server is there or not. -/
def Loose (prog : Fin n → List Text) (srv : Server) (part : Fin n → Part) (m : Meeting (Fin n)) (i : Fin n) : Prop :=
  match (part i).phase with
  | .running => (part i).done = m.done i
  | .waiting chan => (part i).done < (prog i).length ∧ (part i).done + (if srv.replies.lookup chan = some .go then 1 else 0) = m.done i
  | .ended rval | .collected rval => (part i).done = m.done i ∧ (rval = STF_PASS ∧ (part i).done = (prog i).length ∨ rval = STF_UNRESOLVED)

/-- Where a part is while the server serves; `q` is what the server has not taken. -/
def Placed (srv : Server) (part : Fin n → Part) (m : Meeting (Fin n)) (q : List (Msg n)) (i : Fin n) : Prop :=
  match (part i).phase with
  | .running => i ∉ m.here ∧ i ∉ m.gone
  | .waiting chan => i ∉ m.gone ∧
      (i ∉ m.here ∧ srv.conns ≤ chan ∧ (∃ label, q[chan - srv.conns]? = some (.sync i label)) ∨
        i ∈ m.here ∧ chan ∈ srv.openList ∨
        i ∉ m.here ∧ srv.replies.lookup chan = some .go)
  | .ended rval => rval = STF_PASS ∧ i ∉ m.here ∧ i ∉ m.gone
  | .collected rval => rval = STF_PASS ∧ i ∉ m.here ∧ (i ∈ m.gone ∨ .sfin i ∈ q)

/-- The server serves. -/
structure Serving (prog : Fin n → List Text) (srv : Server) (part : Fin n → Part) (m : Meeting (Fin n)) (q : List (Msg n)) : Prop where
  rval : srv.rval = none
  placed : ∀ i, Placed srv part m q i
  parts : srv.numParts = (n : Int) - m.gone.card
  count : srv.openList.length = m.here.card
  target : ∀ i ∈ m.here, m.label prog i = some srv.targetLabel
  empty : m.here = ∅ → srv.targetLabel = []
  opened : ∀ c ∈ srv.openList, c < srv.conns ∧ srv.replies.lookup c = none
  known : ∀ c r, srv.replies.lookup c = some r → c < srv.conns ∧ r = .go
  nodup : q.Nodup
  sync : ∀ k i label, q[k]? = some (.sync i label) → (part i).phase = .waiting (srv.conns + k) ∧ m.label prog i = some label
  sfin : ∀ i, .sfin i ∈ q → (part i).phase = .collected STF_PASS ∧ i ∉ m.gone

structure Refines (prog : Fin n → List Text) (s : Session n) (m : Meeting (Fin n)) : Prop where
  reach : m.Reachable prog
  loose : ∀ i, Loose prog s.sys.server s.part m i
  left : s.sys.left = (Finset.univ.filter fun i => ¬(s.part i).phase.returned).card
  results : ∀ r, r ∈ s.sys.resultList ↔ ∃ i, (s.part i).phase = .collected r
  exit : ∀ r, s.sys.exit = some r → r = STF_UNRESOLVED ∨ s.sys.left = 0 ∧ r = finalResult s.sys.resultList
  running : s.sys.exit = none → s.sys.running = true
  serving : s.sys.server.rval = none → ∃ q, s.sys.queue = q.map Msg.text ∧ (.stop ∈ q → s.sys.exit ≠ none) ∧
    Serving prog s.sys.server s.part m q

theorem Refines.init : Refines prog (Session.init n) (.init (Fin n)) where
  reach := .init
  loose _ := rfl
  left := by
    have hall : (Finset.univ.filter fun i => ¬((Session.init n).part i).phase.returned) = (Finset.univ : Finset (Fin n)) :=
      Finset.filter_true_of_mem fun i _ h => by cases h
    rw [hall, Finset.card_univ, Fintype.card_fin]
    rfl
  results r := iff_of_false (fun h => by cases h) fun ⟨i, h⟩ => by cases h
  exit r h := by cases h
  running _ := rfl
  serving _ := by
    refine ⟨[], rfl, fun h => (by cases h), rfl, fun i => ⟨Finset.notMem_empty i, Finset.notMem_empty i⟩, ?_, rfl, fun i hi => ?_,
      fun _ => rfl, fun c hc => ?_, fun c r h => ?_, List.nodup_nil, fun k i label h => ?_, fun i hi => ?_⟩
    · simp [Session.init, System.init, Server.init, Meeting.init]
    · exact absurd hi (Finset.notMem_empty i)
    · cases hc
    · cases h
    · cases h
    · cases hi

/-! ## The server takes a request -/

theorem Serving.here_le (h : Serving prog srv part m q) : m.here ⊆ m.goneᶜ := by
  intro i hi
  have hp := h.placed i
  rw [Finset.mem_compl]
  rw [Placed] at hp
  cases hphase : (part i).phase with
  | running =>
    rw [hphase] at hp
    exact absurd hi hp.1
  | waiting c =>
    rw [hphase] at hp
    exact hp.1
  | ended r =>
    rw [hphase] at hp
    exact absurd hi hp.2.1
  | collected r =>
    rw [hphase] at hp
    exact absurd hi hp.2.1

/-- Who is here waits on an open connection. -/
theorem Serving.waits (h : Serving prog srv part m q) {i : Fin n} (hi : i ∈ m.here) :
    ∃ c ∈ srv.openList, (part i).phase = .waiting c := by
  have hp := h.placed i
  rw [Placed] at hp
  cases hphase : (part i).phase with
  | running =>
    rw [hphase] at hp
    exact absurd hi hp.1
  | waiting c =>
    rw [hphase] at hp
    rcases hp.2 with ⟨hnot, -⟩ | ⟨-, hc⟩ | ⟨hnot, -⟩
    · exact absurd hi hnot
    · exact ⟨c, hc, rfl⟩
    · exact absurd hi hnot
  | ended r =>
    rw [hphase] at hp
    exact absurd hi hp.2.1
  | collected r =>
    rw [hphase] at hp
    exact absurd hi hp.2.1

/-- The server lets those go who wait exactly when all are here. -/
theorem Serving.all_iff (h : Serving prog srv part m q) : (srv.openList.length : Int) = srv.numParts ↔ m.here = m.goneᶜ := by
  have hcard : m.goneᶜ.card = n - m.gone.card := by rw [Finset.card_compl, Fintype.card_fin]
  have hgone : m.gone.card ≤ n := by
    have hle := Finset.card_le_univ m.gone
    rwa [Fintype.card_fin] at hle
  rw [h.count, h.parts]
  constructor
  · intro heq
    exact Finset.eq_of_subset_of_card_le h.here_le (by omega)
  · intro heq
    rw [heq, hcard]
    omega

theorem lookup_go (l : List Nat) (c : Nat) : (l.map fun i => (i, Reply.go)).lookup c = if c ∈ l then some .go else none := by
  induction l with
  | nil => rfl
  | cons d l ih =>
    rw [List.map_cons, List.lookup_cons, ih]
    by_cases hc : c = d
    · simp [hc]
    · have hd : (c == d) = false := beq_false_of_ne hc
      simp [hd, hc]

theorem Loose.congr {srv' : Server} {part' : Fin n → Part} {i : Fin n} (h : Loose prog srv part m i) (hpart : part' i = part i)
    (hreplies : ∀ c, srv'.replies.lookup c = some .go ↔ srv.replies.lookup c = some .go) : Loose prog srv' part' m i := by
  rw [Loose] at h ⊢
  rw [hpart]
  cases hphase : (part i).phase with
  | waiting c =>
    rw [hphase] at h
    simp only [hreplies c]
    exact h
  | running | ended | collected =>
    rw [hphase] at h
    exact h

/-- Those who are let go. -/
theorem Loose.release (h : Serving prog srv part m q) {i : Fin n} (hi : Loose prog srv part m i) :
    Loose prog (release srv) part m.settle i := by
  by_cases hall : m.here = m.goneᶜ
  · have hcond : (srv.openList.length : Int) = srv.numParts := h.all_iff.mpr hall
    have hreplies : (Mstf.release srv).replies = srv.replies ++ srv.openList.map fun i => (i, Reply.go) := by
      rw [Mstf.release, if_pos hcond]
      exact replyAll_replies srv srv.openList .go
    have hdone : m.settle.done i = if i ∈ m.here then m.done i + 1 else m.done i := by
      rw [Meeting.settle, if_pos hall]
    have hp := h.placed i
    rw [Placed] at hp
    rw [Loose] at hi ⊢
    rw [hdone]
    cases hphase : (part i).phase with
    | running =>
      rw [hphase] at hp hi
      rw [if_neg hp.1]
      exact hi
    | ended r =>
      rw [hphase] at hp hi
      rw [if_neg hp.2.1]
      exact hi
    | collected r =>
      rw [hphase] at hp hi
      rw [if_neg hp.2.1]
      exact hi
    | waiting c =>
      rw [hphase] at hp hi
      refine ⟨hi.1, ?_⟩
      have hold := hi.2
      rw [hreplies, List.lookup_append, lookup_go]
      rcases hp.2 with ⟨hhere, hconns, -⟩ | ⟨hhere, hc⟩ | ⟨hhere, hgo⟩
      · have hc : c ∉ srv.openList := fun hc => Nat.not_lt.mpr hconns (h.opened c hc).1
        rw [if_neg hhere, if_neg hc, Option.or_none]
        exact hold
      · rw [if_pos hhere, if_pos hc, (h.opened c hc).2]
        rw [(h.opened c hc).2, if_neg (by simp), Nat.add_zero] at hold
        rw [hold]
        rfl
      · rw [if_neg hhere, hgo]
        rw [hgo] at hold
        exact hold
  · have hcond : ¬(srv.openList.length : Int) = srv.numParts := fun hc => hall (h.all_iff.mp hc)
    rw [Mstf.release, if_neg hcond, Meeting.settle, if_neg hall]
    exact hi

theorem Serving.release (h : Serving prog srv part m q) : Serving prog (release srv) part m.settle q := by
  by_cases hall : m.here = m.goneᶜ
  · have hcond : (srv.openList.length : Int) = srv.numParts := h.all_iff.mpr hall
    have hsame := replyAll_same srv srv.openList .go
    have hreplies : (Mstf.release srv).replies = srv.replies ++ srv.openList.map fun i => (i, Reply.go) := by
      rw [Mstf.release, if_pos hcond]
      exact replyAll_replies srv srv.openList .go
    have hlookup : ∀ c, (Mstf.release srv).replies.lookup c = (srv.replies.lookup c).or (if c ∈ srv.openList then some .go else none) := by
      intro c
      rw [hreplies, List.lookup_append, lookup_go]
    have hconns : (Mstf.release srv).conns = srv.conns := by
      rw [Mstf.release, if_pos hcond]
      exact hsame.conns
    have hgone : m.settle.gone = m.gone := by
      rw [Meeting.settle, if_pos hall]
    have hhere : m.settle.here = ∅ := by
      rw [Meeting.settle, if_pos hall]
    have hopen : (Mstf.release srv).openList = [] := by
      rw [Mstf.release, if_pos hcond]
    have hlabel : ∀ i, i ∉ m.here → m.settle.label prog i = m.label prog i := by
      intro i hi
      rw [Meeting.label, Meeting.label, Meeting.settle, if_pos hall]
      exact congrArg (fun k => (prog i)[k]?) (if_neg hi)
    constructor
    · rw [Mstf.release, if_pos hcond]
      exact hsame.rval.trans h.rval
    · intro i
      have hp := h.placed i
      rw [Placed] at hp ⊢
      rw [hgone, hhere]
      have hnot : i ∉ (∅ : Finset (Fin n)) := Finset.notMem_empty i
      cases hphase : (part i).phase with
      | running =>
        rw [hphase] at hp
        exact ⟨hnot, hp.2⟩
      | ended r =>
        rw [hphase] at hp
        exact ⟨hp.1, hnot, hp.2.2⟩
      | collected r =>
        rw [hphase] at hp
        exact ⟨hp.1, hnot, hp.2.2⟩
      | waiting c =>
        rw [hphase] at hp
        refine ⟨hp.1, ?_⟩
        rw [hconns, hlookup]
        rcases hp.2 with ⟨-, hq⟩ | ⟨-, hc⟩ | ⟨-, hgo⟩
        · exact Or.inl ⟨hnot, hq⟩
        · refine Or.inr (Or.inr ⟨hnot, ?_⟩)
          rw [(h.opened c hc).2, if_pos hc]
          rfl
        · refine Or.inr (Or.inr ⟨hnot, ?_⟩)
          rw [hgo]
          rfl
    · rw [hgone, Mstf.release, if_pos hcond]
      exact hsame.numParts.trans h.parts
    · rw [hhere, hopen]
      rfl
    · intro i hi
      rw [hhere] at hi
      exact absurd hi (Finset.notMem_empty i)
    · intro _
      rw [Mstf.release, if_pos hcond]
    · intro c hc
      rw [hopen] at hc
      cases hc
    · intro c r hr
      rw [hlookup] at hr
      rw [hconns]
      by_cases hc : c ∈ srv.openList
      · rw [(h.opened c hc).2, if_pos hc] at hr
        exact ⟨(h.opened c hc).1, (Option.some.inj hr).symm⟩
      · rw [if_neg hc, Option.or_none] at hr
        exact h.known c r hr
    · exact h.nodup
    · intro k i label hk
      obtain ⟨hphase, hl⟩ := h.sync k i label hk
      have hi : i ∉ m.here := by
        intro hi
        obtain ⟨c, hc, hwait⟩ := h.waits hi
        have heq : c = srv.conns + k := Phase.waiting.inj (hwait.symm.trans hphase)
        have hlt := (h.opened c hc).1
        omega
      rw [hconns, hlabel i hi]
      exact ⟨hphase, hl⟩
    · intro i hi
      rw [hgone]
      exact h.sfin i hi
  · have hcond : ¬(srv.openList.length : Int) = srv.numParts := fun hc => hall (h.all_iff.mp hc)
    rw [Mstf.release, if_neg hcond, Meeting.settle, if_neg hall]
    exact h

/-- A place in the queue, when its first element is taken. -/
theorem getElem?_taken {a x : Msg n} {k c : Nat} (h : (a :: q)[c - k]? = some x) (hne : a ≠ x) (hle : k ≤ c) :
    k + 1 ≤ c ∧ q[c - (k + 1)]? = some x := by
  obtain ⟨d, rfl⟩ := Nat.exists_eq_add_of_le hle
  rw [Nat.add_sub_cancel_left] at h
  cases d with
  | zero => exact absurd (Option.some.inj h) hne
  | succ d =>
    have hd : k + (d + 1) - (k + 1) = d := by omega
    rw [hd]
    exact ⟨by omega, h⟩

/-- The server takes a connection. -/
def Server.take (srv : Server) : Server := { srv with conns := srv.conns + 1, openChans := srv.conns :: srv.openChans }

theorem Serving.head {i : Fin n} {label : Text} (h : Serving prog srv part m (.sync i label :: q)) :
    (part i).phase = .waiting srv.conns ∧ m.label prog i = some label ∧ i ∉ m.here ∧ i ∉ m.gone := by
  obtain ⟨hphase, hl⟩ := h.sync 0 i label rfl
  refine ⟨hphase, hl, fun hi => ?_, ?_⟩
  · obtain ⟨c, hc, hwait⟩ := h.waits hi
    have heq : c = srv.conns + 0 := Phase.waiting.inj (hwait.symm.trans hphase)
    have hlt := (h.opened c hc).1
    omega
  · have hp := h.placed i
    rw [Placed, hphase] at hp
    exact hp.1

/-- The request of a part is taken, and it waits with the others. -/
theorem Serving.arrive {i : Fin n} {label : Text} (h : Serving prog srv part m (.sync i label :: q))
    (hsame : ∀ j ∈ m.here, m.label prog j = some label) :
    Serving prog { srv.take with targetLabel := label, openList := srv.openList ++ [srv.conns] } part
      { m with here := insert i m.here } q := by
  obtain ⟨hphase, hlabel, hhere, hgone⟩ := h.head
  constructor
  · exact h.rval
  · intro j
    have hp := h.placed j
    rw [Placed] at hp ⊢
    by_cases hj : j = i
    · subst hj
      rw [hphase]
      exact ⟨hgone, Or.inr (Or.inl ⟨Finset.mem_insert_self _ _, List.mem_append_right _ (List.mem_singleton_self _)⟩)⟩
    · have hmem : j ∈ insert i m.here ↔ j ∈ m.here := by
        rw [Finset.mem_insert]
        exact or_iff_right hj
      simp only [hmem]
      cases hphase : (part j).phase with
      | running =>
        rw [hphase] at hp
        exact hp
      | ended r =>
        rw [hphase] at hp
        exact hp
      | collected r =>
        rw [hphase] at hp
        refine ⟨hp.1, hp.2.1, hp.2.2.imp id fun hq => ?_⟩
        exact (List.mem_cons.mp hq).resolve_left (fun h => by cases h)
      | waiting c =>
        rw [hphase] at hp
        refine ⟨hp.1, ?_⟩
        rcases hp.2 with ⟨hnot, hle, l, hl⟩ | ⟨hin, hc⟩ | hgo
        · have hne : Msg.sync i label ≠ .sync j l := fun heq => hj (Msg.sync.inj heq).1.symm
          obtain ⟨hle, hl⟩ := getElem?_taken hl hne hle
          exact Or.inl ⟨hnot, hle, l, hl⟩
        · exact Or.inr (Or.inl ⟨hin, List.mem_append_left _ hc⟩)
        · exact Or.inr (Or.inr hgo)
  · exact h.parts
  · rw [List.length_append, List.length_singleton, Finset.card_insert_of_notMem hhere, h.count]
  · intro j hj
    rcases Finset.mem_insert.mp hj with rfl | hj
    · exact hlabel
    · exact hsame j hj
  · intro hnone
    exact absurd hnone (Finset.insert_ne_empty _ _)
  · intro c hc
    rcases List.mem_append.mp hc with hc | hc
    · exact ⟨Nat.lt_succ_of_lt (h.opened c hc).1, (h.opened c hc).2⟩
    · rw [List.mem_singleton.mp hc]
      refine ⟨Nat.lt_succ_self _, ?_⟩
      cases hlook : srv.replies.lookup srv.conns with
      | none => exact hlook
      | some r => exact absurd (h.known _ r hlook).1 (Nat.lt_irrefl _)
  · exact fun c r hr => ⟨Nat.lt_succ_of_lt (h.known c r hr).1, (h.known c r hr).2⟩
  · exact (List.nodup_cons.mp h.nodup).2
  · intro k j l hk
    obtain ⟨hwait, hl⟩ := h.sync (k + 1) j l hk
    have hconns : srv.conns + 1 + k = srv.conns + (k + 1) := by omega
    exact ⟨hwait.trans (congrArg Phase.waiting hconns.symm), hl⟩
  · exact fun j hj => h.sfin j (List.mem_cons_of_mem _ hj)

/-- A part that has passed is counted out. -/
theorem Serving.leave {i : Fin n} (h : Serving prog srv part m (.sfin i :: q)) :
    Serving prog { srv.take with numParts := srv.numParts - 1 } part { m with gone := insert i m.gone } q := by
  obtain ⟨hphase, hgone⟩ := h.sfin i List.mem_cons_self
  constructor
  · exact h.rval
  · intro j
    have hp := h.placed j
    rw [Placed] at hp ⊢
    by_cases hj : j = i
    · subst hj
      rw [hphase] at hp ⊢
      exact ⟨rfl, hp.2.1, Or.inl (Finset.mem_insert_self _ _)⟩
    · have hmem : j ∈ insert i m.gone ↔ j ∈ m.gone := by
        rw [Finset.mem_insert]
        exact or_iff_right hj
      simp only [hmem]
      cases hphase : (part j).phase with
      | running =>
        rw [hphase] at hp
        exact hp
      | ended r =>
        rw [hphase] at hp
        exact hp
      | collected r =>
        rw [hphase] at hp
        refine ⟨hp.1, hp.2.1, hp.2.2.imp id fun hq => ?_⟩
        exact (List.mem_cons.mp hq).resolve_left fun heq => hj (Msg.sfin.inj heq)
      | waiting c =>
        rw [hphase] at hp
        refine ⟨hp.1, ?_⟩
        rcases hp.2 with ⟨hnot, hle, l, hl⟩ | hin | hgo
        · obtain ⟨hle, hl⟩ := getElem?_taken hl (fun heq => by cases heq) hle
          exact Or.inl ⟨hnot, hle, l, hl⟩
        · exact Or.inr (Or.inl hin)
        · exact Or.inr (Or.inr hgo)
  · have hparts := h.parts
    rw [Finset.card_insert_of_notMem hgone]
    push_cast
    show srv.numParts - 1 = _
    omega
  · exact h.count
  · exact h.target
  · exact h.empty
  · exact fun c hc => ⟨Nat.lt_succ_of_lt (h.opened c hc).1, (h.opened c hc).2⟩
  · exact fun c r hr => ⟨Nat.lt_succ_of_lt (h.known c r hr).1, (h.known c r hr).2⟩
  · exact (List.nodup_cons.mp h.nodup).2
  · intro k j l hk
    obtain ⟨hwait, hl⟩ := h.sync (k + 1) j l hk
    have hconns : srv.conns + 1 + k = srv.conns + (k + 1) := by omega
    exact ⟨hwait.trans (congrArg Phase.waiting hconns.symm), hl⟩
  · intro j hj
    obtain ⟨hcollected, hnot⟩ := h.sfin j (List.mem_cons_of_mem _ hj)
    refine ⟨hcollected, fun hmem => ?_⟩
    rcases Finset.mem_insert.mp hmem with rfl | hmem
    · exact (List.nodup_cons.mp h.nodup).1 hj
    · exact hnot hmem

theorem serve_stopText (quoteHash : Bool) {s : Server} (hs : s.rval = none) :
    (serve quoteHash s stopText).rval ≠ none ∧ (serve quoteHash s stopText).replies = s.replies := by
  have hparse : parse (gets stopText) = some [['s', 't', 'o', 'p']] := by decide
  have hstop : serve quoteHash s stopText = Mstf.stop s.take := by
    rw [serve, if_neg (by simp [hs]), handleConnect, hparse]
    simp [Server.take]
  rw [hstop, Mstf.stop]
  split
  · exact ⟨by simp, rfl⟩
  · exact ⟨by simp, rfl⟩

/-- The server fails those that wait, and the newcomer. -/
theorem sync_failed (s : Server) (chan : Nat) {label : Text} (hne : ¬(eq label s.targetLabel || eq s.targetLabel []) = true) :
    (Mstf.sync s chan label).rval ≠ none ∧
      ∀ c, (Mstf.sync s chan label).replies.lookup c = some .go ↔ s.replies.lookup c = some .go := by
  rw [Mstf.sync, if_neg hne]
  refine ⟨by simp, fun c => ?_⟩
  have hreplies : (((s.replyAll s.openList .failed).reply chan .failed).replies) =
      s.replies ++ (s.openList ++ [chan]).map fun i => (i, Reply.failed) := by
    rw [reply_replies, replyAll_replies, List.map_append, List.append_assoc]
    rfl
  have hfailed : ∀ l : List Nat, (l.map fun i => (i, Reply.failed)).lookup c ≠ some .go := by
    intro l
    induction l with
    | nil => exact fun h => by cases h
    | cons d l ih =>
      rw [List.map_cons, List.lookup_cons]
      split
      · exact fun h => by cases h
      · exact ih
  show List.lookup c ((s.replyAll s.openList .failed).reply chan .failed).replies = some .go ↔ _
  rw [hreplies, List.lookup_append]
  cases hlook : s.replies.lookup c with
  | none => exact iff_of_false (hfailed _) (fun h => by cases h)
  | some r => exact Iff.rfl

/-! ## The moves -/

variable {s s' : Session n}

/-- A move of the server. -/
theorem Refines.server {m' : Meeting (Fin n)} {queue : List Text} (h : Refines prog s m) (hreach : m'.Reachable prog)
    (hloose : ∀ i, Loose prog srv s.part m' i)
    (hserving : srv.rval = none → ∃ q, queue = q.map Msg.text ∧ (.stop ∈ q → s.sys.exit ≠ none) ∧ Serving prog srv s.part m' q) :
    Refines prog { s with sys := { s.sys with server := srv, queue := queue } } m' :=
  ⟨hreach, hloose, h.left, h.results, h.exit, h.running, hserving⟩

/-- The label of somebody who is here is that of the newcomer. -/
theorem Serving.same {i : Fin n} {label : Text} (hok : WellLabelled quoteHash prog) (h : Serving prog srv part m q)
    (hl : m.label prog i = some label) (heq : (eq label srv.targetLabel || eq srv.targetLabel []) = true) :
    ∀ j ∈ m.here, m.label prog j = some label := by
  intro j hj
  have htarget := h.target j hj
  have hmem : label ∈ prog i := List.mem_of_getElem? hl
  have hmem' : srv.targetLabel ∈ prog j := List.mem_of_getElem? htarget
  rw [htarget]
  rw [Bool.or_eq_true] at heq
  rcases heq with heq | heq
  · rw [hok.apart i j label hmem _ hmem' heq]
  · exact absurd (eq_nil.mp heq) (hok.each j _ hmem').2

/-- Where the labels agree, the newcomer has that of those who are here. -/
theorem Serving.meet {i : Fin n} {label : Text} (hagreed : Agreed prog) (h : Serving prog srv part m q) (hreach : m.Reachable prog)
    (hgone : i ∉ m.gone) (hl : m.label prog i = some label) : (eq label srv.targetLabel || eq srv.targetLabel []) = true := by
  rcases m.here.eq_empty_or_nonempty with hnone | ⟨j, hj⟩
  · rw [h.empty hnone, eq_same, Bool.or_true]
  · obtain ⟨r, hlevel⟩ := hreach.level
    have htarget := h.target j hj
    rw [Meeting.label, hlevel.stay i hgone] at hl
    rw [Meeting.label, hlevel.stay j (hlevel.apart j hj)] at htarget
    rw [hagreed i j r label srv.targetLabel hl htarget, eq_same, Bool.true_or]

/-- Where the labels agree and the launcher has not exited, the server goes on. -/
theorem Refines.serve (hok : WellLabelled quoteHash prog) (h : Refines prog s m) (hs : s.serve quoteHash = some s') :
    (∃ m', Refines prog s' m') ∧ (Agreed prog → s.sys.exit = none → s.sys.server.rval = none → s'.sys.server.rval = none) := by
  rw [Session.serve] at hs
  cases hqueue : s.sys.queue with
  | nil =>
    rw [if_pos hqueue] at hs
    cases hs
  | cons text queue =>
    rw [if_neg (by rw [hqueue]; exact List.cons_ne_nil _ _), step, stepBy, hqueue] at hs
    cases hs
    by_cases hrval : s.sys.server.rval = none
    · obtain ⟨q, hq, hstop, hserving⟩ := h.serving hrval
      rw [hqueue] at hq
      cases q with
      | nil => cases hq
      | cons msg q =>
        obtain ⟨rfl, rfl⟩ := List.cons.inj hq
        have hstop' : .stop ∈ q → s.sys.exit ≠ none := fun hmem => hstop (List.mem_cons_of_mem _ hmem)
        cases msg with
        | sync i label =>
          obtain ⟨hphase, hlabel, hhere, hgone⟩ := hserving.head
          have hserve : Mstf.serve quoteHash s.sys.server (Msg.text (.sync i label)) =
              Mstf.sync s.sys.server.take s.sys.server.conns label :=
            serve_sync hrval (hok.each i label (List.mem_of_getElem? hlabel))
          dsimp only
          rw [hserve]
          by_cases heq : (eq label s.sys.server.targetLabel || eq s.sys.server.targetLabel []) = true
          · have hsame := hserving.same hok hlabel heq
            have hin := hserving.arrive hsame
            have hsync : Mstf.sync s.sys.server.take s.sys.server.conns label =
                release { s.sys.server.take with targetLabel := label, openList := s.sys.server.openList ++ [s.sys.server.conns] } :=
              if_pos heq
            rw [hsync]
            refine ⟨⟨_, h.server (.step h.reach (.arrive i label hhere hgone hlabel hsame)) (fun j => ?_) fun _ => ?_⟩,
              fun _ _ _ => hin.release.rval⟩
            · exact Loose.release hin ((h.loose j).congr rfl fun _ => Iff.rfl)
            · refine ⟨q, ?_, hstop', hin.release⟩
              rw [hin.release.rval]
              rfl
          · obtain ⟨hended, hgo⟩ := sync_failed s.sys.server.take s.sys.server.conns heq
            refine ⟨⟨m, h.server h.reach (fun j => (h.loose j).congr rfl hgo) fun hnone => absurd hnone hended⟩, fun hagreed _ _ => ?_⟩
            exact absurd (hserving.meet hagreed h.reach hgone hlabel) heq
        | sfin i =>
          obtain ⟨hphase, hgone⟩ := hserving.sfin i List.mem_cons_self
          have hserve : Mstf.serve quoteHash s.sys.server (Msg.text (.sfin i)) =
              release { s.sys.server.take with numParts := s.sys.server.numParts - 1 } := serve_sfin hrval
          have hout := hserving.leave
          have hnot : i ∉ m.here := by
            have hp := hserving.placed i
            rw [Placed, hphase] at hp
            exact hp.2.1
          have hlabel : m.label prog i = none := by
            have hi := h.loose i
            rw [Loose, hphase] at hi
            rcases hi.2 with ⟨-, hdone⟩ | hne
            · exact List.getElem?_eq_none_iff.mpr (hi.1 ▸ hdone.ge)
            · cases hne
          dsimp only
          rw [hserve]
          refine ⟨⟨_, h.server (.step h.reach (.leave i hnot hgone hlabel)) (fun j => ?_) fun _ => ?_⟩, fun _ _ _ => hout.release.rval⟩
          · exact Loose.release hout ((h.loose j).congr rfl fun _ => Iff.rfl)
          · refine ⟨q, ?_, hstop', hout.release⟩
            rw [hout.release.rval]
            rfl
        | stop =>
          obtain ⟨hended, hreplies⟩ := serve_stopText quoteHash hrval
          refine ⟨⟨m, h.server h.reach (fun j => (h.loose j).congr rfl fun c => ?_) fun hnone => absurd hnone hended⟩, fun _ hexit _ => ?_⟩
          · rw [Msg.text, hreplies]
          · exact absurd hexit (hstop List.mem_cons_self)
    · have hserve : serve quoteHash s.sys.server text = { s.sys.server with conns := s.sys.server.conns + 1 } := serve_ended hrval text
      dsimp only
      rw [hserve]
      exact ⟨⟨m, h.server h.reach (fun j => (h.loose j).congr rfl fun _ => Iff.rfl) fun hnone => absurd hnone hrval⟩,
        fun _ _ hnone => absurd hnone hrval⟩

end ZfsTest.Mstf
