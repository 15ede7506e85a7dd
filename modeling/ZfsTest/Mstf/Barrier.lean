import Mathlib.Data.List.Induction
import Mathlib.Data.List.Nodup
import ZfsTest.Mstf.Syncserv

/-!
# The server as a barrier

Clients that send `sync label` or `sfin`, in any order. A barrier lets a group of clients go when all parts that are still running
have sent the same label, answers no client twice, and lets nobody go once two labels meet (`Barrier`).

The server compares labels after it has read them as a list, with `==`, and takes an empty label for none. For labels on which that
is the same as comparing texts it is a barrier (`run_barrier`): while it serves, those that wait are the clients of one label, and
`targetLabel` is that label (`Inv`).
-/

namespace ZfsTest.Mstf

open Tcl

/-! ## Requests -/

inductive Req
  | sync (label : Text)
  | sfin
  deriving DecidableEq, Repr

def Req.text : Req → Text
  | .sync label => ['s', 'y', 'n', 'c', ' '] ++ label ++ ['\n']
  | .sfin => ['s', 'f', 'i', 'n', '\n']

variable (quoteHash : Bool) (n : Int)

/-- The server after some requests. -/
def run (rs : List Req) : Server := rs.foldl (fun s r => serve quoteHash s r.text) (Server.init n)

/-- The number of parts that have finished. -/
def sfins (rs : List Req) : Nat := rs.countP (· = .sfin)

/-- The clients that have been answered. -/
def Server.answered (s : Server) : List Nat := s.replies.map Prod.fst

/-- The clients that are let go by request `r`. -/
def group (pre : List Req) (r : Req) : List Nat :=
  (((run quoteHash n (pre ++ [r])).replies.drop (run quoteHash n pre).replies.length).filter fun x => x.2 = .go).map Prod.fst

/-- Client `i` has sent `label` and waits when `r` is handled. -/
def WaitingAt (pre : List Req) (r : Req) (i : Nat) (label : Text) : Prop :=
  (pre ++ [r])[i]? = some (.sync label) ∧ i ∉ (run quoteHash n pre).answered

/-- What a barrier for `n` parts does with requests `rs`. -/
structure Barrier (rs : List Req) : Prop where
  groups : ∀ pre r post, rs = pre ++ r :: post → group quoteHash n pre r ≠ [] →
    (∃ label, ∀ i ∈ group quoteHash n pre r, rs[i]? = some (.sync label)) ∧
      ((group quoteHash n pre r).length : Int) = n - sfins (pre ++ [r])
  once : (run quoteHash n rs).answered.Nodup
  apart : ∀ pre r post, rs = pre ++ r :: post → ∀ i j label label', WaitingAt quoteHash n pre r i label →
    WaitingAt quoteHash n pre r j label' → label ≠ label' →
      ∀ k label'', WaitingAt quoteHash n pre r k label'' → (k, Reply.go) ∉ (run quoteHash n rs).replies

/-! ## Labels -/

/-- `lrange $line 1 end` of the line that is read. -/
def labelOf (text : Text) : Option Text := (parse (gets text)).map fun words => format quoteHash (words.drop 1)

/-- A label that the server reads back as it was sent, and that is not empty. -/
def LabelOk (label : Text) : Prop := labelOf quoteHash (Req.text (.sync label)) = some label ∧ label ≠ []

instance (label : Text) : Decidable (LabelOk quoteHash label) :=
  inferInstanceAs (Decidable (labelOf quoteHash (Req.text (.sync label)) = some label ∧ label ≠ []))

/-- Labels on which the comparison of the server is that of texts. -/
structure LabelsOk (rs : List Req) : Prop where
  each : ∀ label, .sync label ∈ rs → LabelOk quoteHash label
  apart : ∀ label label', .sync label ∈ rs → .sync label' ∈ rs → eq label label' = true → label = label'

variable {quoteHash n}

theorem serve_sync {s : Server} {label : Text} (hs : s.rval = none) (hl : LabelOk quoteHash label) :
    serve quoteHash s (Req.text (.sync label)) =
      sync { s with conns := s.conns + 1, openChans := s.conns :: s.openChans } s.conns label := by
  have hgets : gets (Req.text (.sync label)) = ['s', 'y', 'n', 'c'] ++ ' ' :: gets (label ++ ['\n']) := by
    simp [gets, Req.text]
  have hplain : Plain ['s', 'y', 'n', 'c'] := by decide
  obtain ⟨hlabel, -⟩ := hl
  rw [labelOf, hgets, parse_word hplain, Option.map_map] at hlabel
  obtain ⟨es, hes, hfmt⟩ := Option.map_eq_some_iff.mp hlabel
  have hparse : parse (gets (Req.text (.sync label))) = some (['s', 'y', 'n', 'c'] :: es) := by
    rw [hgets, parse_word hplain, hes]
    rfl
  have hfmt' : format quoteHash es = label := hfmt
  rw [serve, if_neg (by simp [hs]), handleConnect, hparse]
  simp [hfmt']

theorem serve_sfin {s : Server} (hs : s.rval = none) : serve quoteHash s (Req.text .sfin) =
    sfin { s with conns := s.conns + 1, openChans := s.conns :: s.openChans } := by
  have hparse : parse (gets (Req.text .sfin)) = some [['s', 'f', 'i', 'n']] := by decide
  rw [serve, if_neg (by simp [hs]), handleConnect, hparse]
  simp

theorem serve_ended {s : Server} (hs : s.rval ≠ none) (t : Text) :
    serve quoteHash s t = { s with conns := s.conns + 1 } := by
  rw [serve, if_pos (Option.isSome_iff_ne_none.mpr hs)]

theorem run_concat (rs : List Req) (r : Req) : run quoteHash n (rs ++ [r]) = serve quoteHash (run quoteHash n rs) r.text := by
  rw [run, List.foldl_append]
  rfl

/-! ## The invariant -/

/-- While the server serves: those that wait have all sent the target label, and everybody has been answered or waits. -/
structure Inv (n : Int) (pre : List Req) (s : Server) : Prop where
  serving : s.rval = none
  conns : s.conns = pre.length
  parts : s.numParts = n - sfins pre
  label : ∀ i ∈ s.openList, pre[i]? = some (.sync s.targetLabel)
  empty : s.openList = [] → s.targetLabel = []
  nodup : (s.openList ++ s.answered).Nodup
  known : ∀ i ∈ s.openList ++ s.answered, i < pre.length
  waits : ∀ i l, pre[i]? = some (.sync l) → i ∈ s.openList ++ s.answered

/-- After the end, nothing is answered any more. -/
structure Ended (s : Server) : Prop where
  ended : s.rval ≠ none
  nodup : s.answered.Nodup

/-- What one request does to a server that serves. -/
inductive Outcome (n : Int) (pre : List Req) (r : Req) (s s' : Server) : Prop
  | wait (hi : Inv n (pre ++ [r]) s') (hr : s'.replies = s.replies)
  | release (hi : Inv n (pre ++ [r]) s') (g : List Nat) (l : Text) (hr : s'.replies = s.replies ++ g.map fun i => (i, Reply.go))
    (hl : ∀ i ∈ g, (pre ++ [r])[i]? = some (.sync l)) (hn : (g.length : Int) = n - sfins (pre ++ [r]))
  | fall (he : Ended s') (hr : s'.replies = s.replies ++ (s.openList ++ [s.conns]).map fun i => (i, Reply.failed))

theorem Inv.init : Inv n [] (Server.init n) := by
  constructor
  · rfl
  · rfl
  · simp [Server.init, sfins]
  · intro i hi
    cases hi
  · intro _
    rfl
  · exact List.nodup_nil
  · intro i hi
    cases hi
  · intro i l hl
    simp at hl

theorem answered_append (s : Server) (is : List Nat) (t : Reply) :
    (s.replies ++ is.map fun i => (i, t)).map Prod.fst = s.answered ++ is := by
  simp [Server.answered, Function.comp_def]

/-- Everything but the comparison with the number of parts. -/
theorem Inv.release {pre : List Req} {s : Server} (hi : Inv n pre s) {s₀ : Server} {r : Req} {p : List Req} (hp : pre = p ++ [r])
    (hs : s.replies = s₀.replies) : Outcome n p r s₀ (Mstf.release s) := by
  subst hp
  unfold Mstf.release
  split
  · rename_i hlen
    have hsame := replyAll_same s s.openList .go
    have hrep := replyAll_replies s s.openList .go
    refine .release ?_ s.openList s.targetLabel (by rw [← hs]; exact hrep) hi.label ?_
    · have hans : ({ s.replyAll s.openList .go with targetLabel := [], openList := [] } : Server).answered =
          s.answered ++ s.openList := by
        rw [Server.answered]
        exact (congrArg (List.map Prod.fst) hrep).trans (answered_append s s.openList .go)
      constructor
      · exact hsame.rval.trans hi.serving
      · exact hsame.conns.trans hi.conns
      · exact hsame.numParts.trans hi.parts
      · intro i hi'
        cases hi'
      · intro _
        rfl
      · rw [hans, List.nil_append]
        exact List.nodup_append_comm.mp hi.nodup
      · intro i hm
        rw [hans, List.nil_append] at hm
        exact hi.known i (List.mem_append.mpr (List.mem_append.mp hm).symm)
      · intro i l hl
        rw [hans, List.nil_append]
        exact List.mem_append.mpr (List.mem_append.mp (hi.waits i l hl)).symm
    · rw [hlen, hi.parts]
  · exact .wait hi hs

theorem sfins_concat_sync (pre : List Req) (l : Text) : sfins (pre ++ [Req.sync l]) = sfins pre := by
  simp [sfins]

theorem sfins_concat_sfin (pre : List Req) : sfins (pre ++ [Req.sfin]) = sfins pre + 1 := by
  simp [sfins]

theorem getElem?_of_lt {pre : List Req} {i : Nat} (hi : i < pre.length) (r : Req) : (pre ++ [r])[i]? = pre[i]? :=
  List.getElem?_append_left hi

/-- A part that finishes. -/
theorem Inv.sfin {pre : List Req} {s : Server} (hi : Inv n pre s) : Outcome n pre .sfin s
    (Mstf.sfin { s with conns := s.conns + 1, openChans := s.conns :: s.openChans }) := by
  refine Inv.release ?_ rfl rfl
  constructor
  · exact hi.serving
  · rw [List.length_append, ← hi.conns]
    rfl
  · rw [sfins_concat_sfin, Nat.cast_add, Nat.cast_one]
    have := hi.parts
    simp only
    omega
  · intro i hm
    rw [getElem?_of_lt (hi.known i (List.mem_append_left _ hm))]
    exact hi.label i hm
  · exact hi.empty
  · exact hi.nodup
  · intro i hm
    rw [List.length_append]
    exact Nat.lt_add_right _ (hi.known i hm)
  · intro i l hl
    by_cases hlt : i < pre.length
    · rw [getElem?_of_lt hlt] at hl
      exact hi.waits i l hl
    · rw [List.getElem?_append_right (Nat.le_of_not_lt hlt)] at hl
      cases hk : i - pre.length with
      | zero =>
        rw [hk] at hl
        cases hl
      | succ k =>
        rw [hk] at hl
        cases hl

theorem getElem?_concat_self (pre : List Req) (r : Req) : (pre ++ [r])[pre.length]? = some r := by
  simp

/-- The clients known before and the new one. -/
theorem lt_or_eq_of_getElem? {pre : List Req} {r r' : Req} {i : Nat} (h : (pre ++ [r])[i]? = some r') :
    (i < pre.length ∧ pre[i]? = some r') ∨ i = pre.length ∧ r = r' := by
  by_cases hlt : i < pre.length
  · rw [getElem?_of_lt hlt] at h
    exact Or.inl ⟨hlt, h⟩
  · have hle : i < (pre ++ [r]).length := (List.getElem?_eq_some_iff.mp h).1
    rw [List.length_append, List.length_singleton] at hle
    have heq : i = pre.length := by omega
    subst heq
    rw [getElem?_concat_self] at h
    exact Or.inr ⟨rfl, Option.some.inj h⟩

/-- A client that joins those that wait. -/
theorem Inv.join {pre : List Req} {s : Server} {label : Text} (hi : Inv n pre s)
    (hl : s.openList ≠ [] → label = s.targetLabel) : Inv n (pre ++ [Req.sync label])
      { s with conns := s.conns + 1, openChans := s.conns :: s.openChans, targetLabel := label, openList := s.openList ++ [s.conns] } := by
  have hnew : s.conns ∉ s.openList ++ s.answered := by
    intro hm
    have := hi.known _ hm
    rw [hi.conns] at this
    omega
  constructor
  · exact hi.serving
  · rw [List.length_append, ← hi.conns]
    rfl
  · rw [sfins_concat_sync]
    exact hi.parts
  · intro i hm
    rcases List.mem_append.mp hm with hm | hm
    · rw [getElem?_of_lt (hi.known i (List.mem_append_left _ hm)), hi.label i hm]
      exact congrArg (fun l => some (Req.sync l)) (hl (List.ne_nil_of_mem hm)).symm
    · rw [List.mem_singleton.mp hm, hi.conns]
      exact getElem?_concat_self pre _
  · intro h
    simp at h
  · have hperm : ((s.openList ++ [s.conns]) ++ s.answered).Perm (s.conns :: (s.openList ++ s.answered)) := by
      rw [List.append_assoc]
      exact List.perm_middle
    exact hperm.nodup_iff.mpr (List.nodup_cons.mpr ⟨hnew, hi.nodup⟩)
  · intro i hm
    rw [List.length_append, List.length_singleton]
    rcases List.mem_append.mp hm with hm | hm
    · rcases List.mem_append.mp hm with hm | hm
      · have := hi.known i (List.mem_append_left _ hm)
        omega
      · rw [List.mem_singleton.mp hm, hi.conns]
        omega
    · have := hi.known i (List.mem_append_right _ hm)
      omega
  · intro i l hl
    rcases lt_or_eq_of_getElem? hl with ⟨-, hl⟩ | ⟨rfl, -⟩
    · rcases List.mem_append.mp (hi.waits i l hl) with hm | hm
      · exact List.mem_append_left _ (List.mem_append_left _ hm)
      · exact List.mem_append_right _ hm
    · refine List.mem_append_left _ (List.mem_append_right _ ?_)
      rw [List.mem_singleton]
      exact hi.conns.symm

/-- Two labels meet. -/
theorem Inv.fall {pre : List Req} {s : Server} (hi : Inv n pre s) {label : Text}
    (hne : (eq label s.targetLabel || eq s.targetLabel []) = false) :
    Ended (Mstf.sync { s with conns := s.conns + 1, openChans := s.conns :: s.openChans } s.conns label) ∧
      (Mstf.sync { s with conns := s.conns + 1, openChans := s.conns :: s.openChans } s.conns label).replies =
        s.replies ++ (s.openList ++ [s.conns]).map fun i => (i, Reply.failed) := by
  have hrep := replyAll_replies { s with conns := s.conns + 1, openChans := s.conns :: s.openChans } s.openList .failed
  have hreplies : (Server.reply (Server.replyAll { s with conns := s.conns + 1, openChans := s.conns :: s.openChans }
      s.openList .failed) s.conns .failed).replies =
      s.replies ++ (s.openList ++ [s.conns]).map fun i => (i, Reply.failed) := by
    rw [reply_replies, hrep]
    simp
  have hnew : s.conns ∉ s.openList ++ s.answered := by
    intro hm
    have := hi.known _ hm
    rw [hi.conns] at this
    omega
  have hperm : (s.answered ++ (s.openList ++ [s.conns])).Perm (s.conns :: (s.openList ++ s.answered)) := by
    rw [← List.append_assoc]
    refine (List.perm_append_singleton _ _).trans (List.Perm.cons _ ?_)
    exact List.perm_append_comm
  rw [Mstf.sync, if_neg (by simpa using hne)]
  refine ⟨⟨by simp, ?_⟩, hreplies⟩
  rw [Server.answered, hreplies, answered_append]
  exact hperm.nodup_iff.mpr (List.nodup_cons.mpr ⟨hnew, hi.nodup⟩)

/-- A client at the barrier. -/
theorem Inv.sync {pre : List Req} {s : Server} {label : Text} (hi : Inv n pre s)
    (heq : s.openList ≠ [] → s.targetLabel ≠ [] ∧ (eq label s.targetLabel = true → label = s.targetLabel)) :
    Outcome n pre (.sync label) s
      (Mstf.sync { s with conns := s.conns + 1, openChans := s.conns :: s.openChans } s.conns label) := by
  cases hcond : eq label s.targetLabel || eq s.targetLabel [] with
  | true =>
    rw [Mstf.sync, if_pos hcond]
    refine Inv.release (hi.join fun hne => ?_) rfl rfl
    rw [Bool.or_eq_true] at hcond
    rcases hcond with h | h
    · exact (heq hne).2 h
    · exact absurd (eq_nil.mp h) (heq hne).1
  | false =>
    obtain ⟨he, hr⟩ := hi.fall hcond
    exact .fall he hr

/-! ## Runs -/

/-- Somebody waits, and has sent the target label. -/
theorem Inv.target {pre : List Req} {r : Req} {s : Server} (hok : LabelsOk quoteHash (pre ++ [r])) (hi : Inv n pre s)
    (hne : s.openList ≠ []) : Req.sync s.targetLabel ∈ pre ++ [r] ∧ s.targetLabel ≠ [] := by
  obtain ⟨i, hm⟩ := List.exists_mem_of_ne_nil _ hne
  have htarget : Req.sync s.targetLabel ∈ pre ++ [r] := List.mem_append_left _ (List.mem_of_getElem? (hi.label i hm))
  exact ⟨htarget, (hok.each _ htarget).2⟩

/-- One request. -/
theorem Inv.step {pre : List Req} {r : Req} {s : Server} (hok : LabelsOk quoteHash (pre ++ [r])) (hi : Inv n pre s) :
    Outcome n pre r s (serve quoteHash s r.text) := by
  cases r with
  | sfin =>
    rw [serve_sfin hi.serving]
    exact hi.sfin
  | sync label =>
    have hmem : Req.sync label ∈ pre ++ [Req.sync label] := List.mem_append_right _ (List.mem_singleton_self _)
    rw [serve_sync hi.serving (hok.each label hmem)]
    refine hi.sync fun hne => ?_
    obtain ⟨htarget, hnil⟩ := hi.target hok hne
    exact ⟨hnil, hok.apart _ _ hmem htarget⟩

theorem LabelsOk.mono {rs rs' : List Req} (h : LabelsOk quoteHash rs) (hsub : rs' ⊆ rs) : LabelsOk quoteHash rs' :=
  ⟨fun l hl => h.each l (hsub hl), fun l l' hl hl' => h.apart l l' (hsub hl) (hsub hl')⟩

/-- The server serves or has ended. -/
theorem run_inv {rs : List Req} (hok : LabelsOk quoteHash rs) :
    Inv n rs (run quoteHash n rs) ∨ Ended (run quoteHash n rs) := by
  induction rs using List.reverseRecOn with
  | nil => exact Or.inl Inv.init
  | append_singleton rs r ih =>
    rw [run_concat]
    rcases ih (hok.mono (List.subset_append_left _ _)) with hi | he
    · cases hi.step hok with
      | wait hi' _ => exact Or.inl hi'
      | release hi' => exact Or.inl hi'
      | fall he' _ => exact Or.inr he'
    · right
      rw [serve_ended he.ended]
      exact ⟨he.ended, he.nodup⟩

/-- Once the server has ended, its replies stay as they are. -/
theorem run_ended {pre : List Req} (he : (run quoteHash n pre).rval ≠ none) (post : List Req) :
    (run quoteHash n (pre ++ post)).rval ≠ none ∧ (run quoteHash n (pre ++ post)).replies = (run quoteHash n pre).replies := by
  induction post using List.reverseRecOn with
  | nil =>
    rw [List.append_nil]
    exact ⟨he, rfl⟩
  | append_singleton post r ih =>
    rw [← List.append_assoc, run_concat, serve_ended ih.1]
    exact ih

/-- The group that a step lets go. -/
theorem group_of_replies {pre : List Req} {r : Req} {new : List (Nat × Reply)}
    (h : (run quoteHash n (pre ++ [r])).replies = (run quoteHash n pre).replies ++ new) :
    group quoteHash n pre r = (new.filter fun x => x.2 = .go).map Prod.fst := by
  rw [group, h, List.drop_left]

theorem group_eq_nil {pre : List Req} {r : Req} {is : List Nat} {t : Reply} (ht : t ≠ .go)
    (h : (run quoteHash n (pre ++ [r])).replies = (run quoteHash n pre).replies ++ is.map fun i => (i, t)) :
    group quoteHash n pre r = [] := by
  rw [group_of_replies h]
  simp [List.filter_map, Function.comp_def, ht]

theorem group_eq {pre : List Req} {r : Req} {g : List Nat}
    (h : (run quoteHash n (pre ++ [r])).replies = (run quoteHash n pre).replies ++ g.map fun i => (i, Reply.go)) :
    group quoteHash n pre r = g := by
  rw [group_of_replies h]
  simp [List.filter_map, Function.comp_def]

/-- Whoever waits when a request is handled is in the list of the server, or has sent that request. -/
theorem Inv.waiting {pre : List Req} {r : Req} {i : Nat} {label : Text} (hi : Inv n pre (run quoteHash n pre))
    (hw : WaitingAt quoteHash n pre r i label) :
    (i ∈ (run quoteHash n pre).openList ∧ label = (run quoteHash n pre).targetLabel) ∨ i = pre.length ∧ r = .sync label := by
  rcases lt_or_eq_of_getElem? hw.1 with ⟨-, hl⟩ | hnew
  · rcases List.mem_append.mp (hi.waits i label hl) with hm | hm
    · have := hi.label i hm
      rw [hl] at this
      exact Or.inl ⟨hm, Req.sync.inj (Option.some.inj this)⟩
    · exact absurd hm hw.2
  · exact Or.inr hnew

/-- Two labels that meet: somebody waits with the target label, and the new client has sent another one. -/
theorem Inv.meet {pre : List Req} {r : Req} {i j : Nat} {label label' : Text} (hi : Inv n pre (run quoteHash n pre))
    (hwi : WaitingAt quoteHash n pre r i label) (hwj : WaitingAt quoteHash n pre r j label') (hne : label ≠ label') :
    (run quoteHash n pre).openList ≠ [] ∧ ∃ l, r = .sync l ∧ l ≠ (run quoteHash n pre).targetLabel := by
  rcases hi.waiting hwi with ⟨hmi, hli⟩ | ⟨-, hri⟩
  · rcases hi.waiting hwj with ⟨-, hlj⟩ | ⟨-, hrj⟩
    · exact absurd (hli.trans hlj.symm) hne
    · exact ⟨List.ne_nil_of_mem hmi, label', hrj, fun h => hne (hli.trans h.symm)⟩
  · rcases hi.waiting hwj with ⟨hmj, hlj⟩ | ⟨-, hrj⟩
    · exact ⟨List.ne_nil_of_mem hmj, label, hri, fun h => hne (h.trans hlj.symm)⟩
    · exact absurd (Req.sync.inj (hri.symm.trans hrj)) hne

/-- Two labels that meet let nobody go. -/
theorem not_go_of_apart {pre post : List Req} {r : Req} (hok : LabelsOk quoteHash (pre ++ r :: post)) {i j k : Nat}
    {label label' label'' : Text} (hwi : WaitingAt quoteHash n pre r i label) (hwj : WaitingAt quoteHash n pre r j label')
    (hne : label ≠ label') (hwk : WaitingAt quoteHash n pre r k label'') :
    (k, Reply.go) ∉ (run quoteHash n (pre ++ r :: post)).replies := by
  have hold : (k, Reply.go) ∉ (run quoteHash n pre).replies := fun hm => hwk.2 (List.mem_map.mpr ⟨_, hm, rfl⟩)
  have hsplit : pre ++ r :: post = (pre ++ [r]) ++ post := by simp
  have hpre : LabelsOk quoteHash pre := hok.mono (List.subset_append_left _ _)
  have hstep : LabelsOk quoteHash (pre ++ [r]) := hok.mono (by rw [hsplit]; exact List.subset_append_left _ _)
  rcases run_inv (n := n) hpre with hi | he
  · obtain ⟨hopen, l, rfl, hl⟩ := hi.meet hwi hwj hne
    have hmem : Req.sync l ∈ pre ++ [Req.sync l] := List.mem_append_right _ (List.mem_singleton_self _)
    obtain ⟨htarget, hnil⟩ := hi.target hstep hopen
    have hcond : (eq l (run quoteHash n pre).targetLabel || eq (run quoteHash n pre).targetLabel []) = false := by
      rw [Bool.or_eq_false_iff]
      constructor
      · exact Bool.eq_false_iff.mpr fun h => hl (hstep.apart _ _ hmem htarget h)
      · exact Bool.eq_false_iff.mpr fun h => hnil (eq_nil.mp h)
    obtain ⟨he', hrep⟩ := hi.fall hcond
    rw [← serve_sync hi.serving (hstep.each l hmem), ← run_concat] at he' hrep
    obtain ⟨-, hsame⟩ := run_ended he'.ended post
    rw [hsplit, hsame, hrep, List.mem_append]
    rintro (h | h)
    · exact hold h
    · obtain ⟨x, -, hx⟩ := List.mem_map.mp h
      cases hx
  · obtain ⟨-, hsame⟩ := run_ended he.ended (r :: post)
    rw [hsame]
    exact hold

/-- The clients of a group have sent one label, and there are as many as parts are still running. -/
theorem group_spec {pre post : List Req} {r : Req} (hok : LabelsOk quoteHash (pre ++ r :: post))
    (hne : group quoteHash n pre r ≠ []) :
    (∃ label, ∀ i ∈ group quoteHash n pre r, (pre ++ r :: post)[i]? = some (.sync label)) ∧
      ((group quoteHash n pre r).length : Int) = n - sfins (pre ++ [r]) := by
  have hsplit : pre ++ r :: post = (pre ++ [r]) ++ post := by simp
  have hpre : LabelsOk quoteHash pre := hok.mono (List.subset_append_left _ _)
  have hstep : LabelsOk quoteHash (pre ++ [r]) := hok.mono (by rw [hsplit]; exact List.subset_append_left _ _)
  rcases run_inv (n := n) hpre with hi | he
  · have hout := hi.step hstep
    rw [← run_concat] at hout
    cases hout with
    | wait _ hr =>
      refine absurd ?_ hne
      rw [group_of_replies (by rw [hr, List.append_nil])]
      rfl
    | release _ g l hr hl hn =>
      rw [group_eq hr]
      refine ⟨⟨l, fun i hi' => ?_⟩, hn⟩
      rw [hsplit, List.getElem?_append_left (List.getElem?_eq_some_iff.mp (hl i hi')).1]
      exact hl i hi'
    | fall _ hr => exact absurd (group_eq_nil (by decide) hr) hne
  · refine absurd ?_ hne
    obtain ⟨-, hsame⟩ := run_ended he.ended [r]
    rw [group_of_replies (by rw [hsame, List.append_nil])]
    rfl

/-- For labels that are not empty, that the server reads as they were sent, and of which no two different ones are equal for `==`,
the server is a barrier: in every run, whatever the order of the requests and the number of parts. -/
theorem run_barrier (quoteHash : Bool) (n : Int) (rs : List Req) (hok : LabelsOk quoteHash rs) : Barrier quoteHash n rs := by
  constructor
  · rintro pre r post rfl hne
    exact group_spec hok hne
  · rcases run_inv (n := n) hok with hi | he
    · exact (List.nodup_append.mp hi.nodup).2.1
    · exact he.nodup
  · rintro pre r post rfl i j label label' hwi hwj hne k label'' hwk
    exact not_go_of_apart hok hwi hwj hne hwk

/-- Two parts meet at one label; then one of them finishes and the other one goes on alone. -/
theorem run_barrier_sample : (run true 2 [.sync ['a'], .sync ['a'], .sfin, .sync ['b', ' ', 'c']]).replies =
      [(0, .go), (1, .go), (3, .go)] ∧ Barrier true 2 [.sync ['a'], .sync ['a'], .sfin, .sync ['b', ' ', 'c']] := by
  refine ⟨by decide, run_barrier true 2 _ ⟨fun l hl => ?_, fun l l' hl hl' => ?_⟩⟩
  · have h : l = ['a'] ∨ l = ['b', ' ', 'c'] := by simpa using hl
    rcases h with rfl | rfl <;> decide
  · have h : l = ['a'] ∨ l = ['b', ' ', 'c'] := by simpa using hl
    have h' : l' = ['a'] ∨ l' = ['b', ' ', 'c'] := by simpa using hl'
    rcases h with rfl | rfl <;> rcases h' with rfl | rfl <;> decide

/-- A client that waits with an empty label is joined by one with another label. -/
theorem not_run_barrier : ¬∀ (n : Int) (rs : List Req), Barrier true n rs := by
  intro H
  have hgroup : group true 2 [.sync []] (.sync ['A']) = [0, 1] := by decide
  obtain ⟨⟨label, hl⟩, -⟩ := (H 2 [.sync [], .sync ['A']]).groups [.sync []] (.sync ['A']) [] rfl (by rw [hgroup]; simp)
  rw [hgroup] at hl
  have h0 := hl 0 (by simp)
  have h1 := hl 1 (by simp)
  cases h0
  cases h1

end ZfsTest.Mstf
