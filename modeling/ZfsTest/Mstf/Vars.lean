import Mathlib.Data.List.Induction
import Mathlib.Data.List.Nodup
import ZfsTest.Mstf.Syncserv
import ZfsTest.Text.Separated

/-!
# The variables of the server

Clients that send `getv name` or `setv name=value`, in any order. The server should keep one cell for each name: a `getv` is answered
once, with the last value that was set before it, or else with the first one that is set after it (`due`).

The server reads a request as a list, takes the text between the first two `=` for the value, and keeps those that wait for `name`
in the same array, under `name,wait`. For requests that come through this unchanged, with no name that is another one's `name,wait`,
the variables are cells (`run_cells`). The invariant `Inv` says what the array holds for each name of the run: the value, or the
names of the channels that wait for it.
-/

namespace ZfsTest.Mstf.Vars

open Tcl

/-! ## Requests -/

inductive Req
  | getv (name : Text)
  | setv (name value : Text)
  deriving DecidableEq, Repr

def Req.text : Req → Text
  | .getv name => ['g', 'e', 't', 'v', ' '] ++ name ++ ['\n']
  | .setv name value => ['s', 'e', 't', 'v', ' '] ++ (name ++ '=' :: value) ++ ['\n']

def Req.name : Req → Text
  | .getv name => name
  | .setv name _ => name

variable (quoteHash : Bool)

def run (rs : List Req) : Server := rs.foldl (fun s r => serve quoteHash s r.text) (Server.init 0)

/-! ## Cells -/

/-- The value that a request sets for a name. -/
def setOf (name : Text) : Req → Option Text
  | .getv _ => none
  | .setv m value => if m = name then some value else none

def lastSet (rs : List Req) (name : Text) : Option Text := rs.reverse.findSome? (setOf name)

def firstSet (rs : List Req) (name : Text) : Option Text := rs.findSome? (setOf name)

/-- The answer to request `i`, a `getv`: the last value before it, or else the first one behind it. -/
def answer (rs : List Req) (i : Nat) (name : Text) : Option Text :=
  (lastSet (rs.take i) name).or (firstSet (rs.drop (i + 1)) name)

/-- Everything that client `i` is to be sent. -/
def due (rs : List Req) (i : Nat) : List Reply :=
  match rs[i]? with
  | some (.getv name) => (answer rs i name).toList.map .value
  | _ => []

/-- Everything that client `i` has been sent. -/
def repliesTo (s : Server) (i : Nat) : List Reply := (s.replies.filter fun x => x.1 = i).map Prod.snd

/-- Every client is sent what is due to it, and nothing else. -/
def Cells (rs : List Req) : Prop := ∀ i, repliesTo (run quoteHash rs) i = due rs i

/-! ## Requests that are read as they were sent -/

/-- `lindex $line 1`, or `lrange $line 1 end` with its parts between `=`. -/
def ReadsBack : Req → Prop
  | .getv name => (parse (gets (Req.text (.getv name)))).map (fun words => words.getD 1 []) = some name
  | .setv name value =>
    (parse (gets (Req.text (.setv name value)))).map (fun words => format quoteHash (words.drop 1)) = some (name ++ '=' :: value) ∧
      '=' ∉ value

instance (r : Req) : Decidable (ReadsBack quoteHash r) :=
  match r with
  | .getv name => inferInstanceAs (Decidable ((parse (gets (Req.text (.getv name)))).map (fun words => words.getD 1 []) = some name))
  | .setv name value => inferInstanceAs (Decidable ((parse (gets (Req.text (.setv name value)))).map
      (fun words => format quoteHash (words.drop 1)) = some (name ++ '=' :: value) ∧ '=' ∉ value))

structure RequestsOk (rs : List Req) : Prop where
  names : ∀ r ∈ rs, '=' ∉ r.name
  each : ∀ r ∈ rs, ReadsBack quoteHash r
  apart : ∀ r ∈ rs, ∀ r' ∈ rs, r.name ≠ waitKey r'.name

variable {quoteHash}

theorem serve_getv {s : Server} {name : Text} (hs : s.rval = none) (hr : ReadsBack quoteHash (.getv name)) :
    serve quoteHash s (Req.text (.getv name)) =
      getv quoteHash { s with conns := s.conns + 1, openChans := s.conns :: s.openChans } s.conns name := by
  have hgets : gets (Req.text (.getv name)) = ['g', 'e', 't', 'v'] ++ ' ' :: gets (name ++ ['\n']) := by
    simp [gets, Req.text]
  have hplain : Plain ['g', 'e', 't', 'v'] := by decide
  rw [ReadsBack, hgets, parse_word hplain, Option.map_map] at hr
  obtain ⟨es, hes, hname⟩ := Option.map_eq_some_iff.mp hr
  have hparse : parse (gets (Req.text (.getv name))) = some (['g', 'e', 't', 'v'] :: es) := by
    rw [hgets, parse_word hplain, hes]
    rfl
  have hname' : es[0]?.getD [] = name := by simpa using hname
  rw [serve, if_neg (by simp [hs]), handleConnect, hparse]
  simp [hname']

theorem serve_setv {s : Server} {name value : Text} (hs : s.rval = none) (hr : ReadsBack quoteHash (.setv name value)) :
    serve quoteHash s (Req.text (.setv name value)) =
      setv { s with conns := s.conns + 1, openChans := s.conns :: s.openChans } s.conns (name ++ '=' :: value) := by
  have hgets : gets (Req.text (.setv name value)) = ['s', 'e', 't', 'v'] ++ ' ' :: gets (name ++ '=' :: value ++ ['\n']) := by
    simp [gets, Req.text]
  have hplain : Plain ['s', 'e', 't', 'v'] := by decide
  obtain ⟨hr, -⟩ := hr
  rw [hgets, parse_word hplain, Option.map_map] at hr
  obtain ⟨es, hes, hfmt⟩ := Option.map_eq_some_iff.mp hr
  have hparse : parse (gets (Req.text (.setv name value))) = some (['s', 'e', 't', 'v'] :: es) := by
    rw [hgets, parse_word hplain, hes]
    rfl
  have hfmt' : format quoteHash es = name ++ '=' :: value := hfmt
  rw [serve, if_neg (by simp [hs]), handleConnect, hparse]
  simp [hfmt']

theorem run_concat (rs : List Req) (r : Req) : run quoteHash (rs ++ [r]) = serve quoteHash (run quoteHash rs) r.text := by
  rw [run, List.foldl_append]
  rfl

/-! ## One more request -/

theorem lastSet_concat (rs : List Req) (r : Req) (name : Text) : lastSet (rs ++ [r]) name = (setOf name r).or (lastSet rs name) := by
  rw [lastSet, List.reverse_append]
  cases h : setOf name r with
  | none => simp [lastSet, h]
  | some v => simp [h]

theorem answer_concat {rs : List Req} {i : Nat} (hi : i < rs.length) (r : Req) (name : Text) :
    answer (rs ++ [r]) i name = (answer rs i name).or (setOf name r) := by
  rw [answer, List.take_append_of_le_length (by omega), List.drop_append_of_le_length (by omega)]
  simp only [firstSet, List.findSome?_append, List.findSome?_singleton]
  rw [answer, firstSet, Option.or_assoc]

theorem answer_last (rs : List Req) (r : Req) (name : Text) : answer (rs ++ [r]) rs.length name = lastSet rs name := by
  rw [answer, List.take_left, List.drop_of_length_le (by simp)]
  simp [firstSet]

/-- The requests for a name that came before any value. -/
def waiters (rs : List Req) (name : Text) : List Nat :=
  if (lastSet rs name).isSome then []
  else (List.range rs.length).filter fun i => rs[i]? = some (.getv name)

theorem mem_waiters {rs : List Req} {name : Text} {i : Nat} :
    i ∈ waiters rs name ↔ lastSet rs name = none ∧ rs[i]? = some (.getv name) := by
  unfold waiters
  cases h : lastSet rs name with
  | none =>
    simp only [Option.isSome_none, Bool.false_eq_true, if_false, List.mem_filter, List.mem_range, decide_eq_true_eq, true_and]
    constructor
    · exact fun h => h.2
    · exact fun h => ⟨(List.getElem?_eq_some_iff.mp h).1, h⟩
  | some v => simp

theorem nodup_waiters (rs : List Req) (name : Text) : (waiters rs name).Nodup := by
  unfold waiters
  split
  · exact List.nodup_nil
  · exact List.nodup_range.filter _

theorem waiters_concat (rs : List Req) (r : Req) (name : Text) (hr : setOf name r = none) (hv : lastSet rs name = none) :
    waiters (rs ++ [r]) name = waiters rs name ++ if r = .getv name then [rs.length] else [] := by
  have hlast : lastSet (rs ++ [r]) name = none := by rw [lastSet_concat, hr, hv]; rfl
  have hold : (List.range rs.length).filter (fun i => decide ((rs ++ [r])[i]? = some (.getv name))) =
      (List.range rs.length).filter (fun i => decide (rs[i]? = some (.getv name))) := by
    refine List.filter_congr fun i hi => ?_
    rw [List.getElem?_append_left (List.mem_range.mp hi)]
  rw [waiters, hlast, waiters, hv]
  simp only [Option.isSome_none, Bool.false_eq_true, if_false, List.length_append, List.length_singleton, List.range_succ,
    List.filter_append, hold]
  congr 1
  by_cases h : r = .getv name
  · simp [h]
  · simp [h]

theorem waiters_eq_nil {rs : List Req} {name value : Text} (h : lastSet rs name = some value) : waiters rs name = [] := by
  simp [waiters, h]

/-- Somebody waits as long as there is no answer. -/
theorem answer_eq_none_iff {rs : List Req} {i : Nat} {name : Text} (hi : rs[i]? = some (.getv name)) :
    answer rs i name = none ↔ lastSet rs name = none := by
  obtain ⟨hlt, hget⟩ := List.getElem?_eq_some_iff.mp hi
  have hsplit : rs = rs.take i ++ .getv name :: rs.drop (i + 1) := by
    rw [← hget, List.getElem_cons_drop, List.take_append_drop]
  simp only [answer, lastSet, firstSet, Option.or_eq_none_iff, List.findSome?_eq_none_iff, List.mem_reverse]
  constructor
  · rintro ⟨h1, h2⟩ r hr
    rw [hsplit] at hr
    rcases List.mem_append.mp hr with hr | hr
    · exact h1 r hr
    · rcases List.mem_cons.mp hr with rfl | hr
      · rfl
      · exact h2 r hr
  · intro h
    exact ⟨fun r hr => h r (List.mem_of_mem_take hr), fun r hr => h r (List.mem_of_mem_drop hr)⟩

/-! ## Replies -/

theorem repliesTo_append (s : Server) (new : List (Nat × Reply)) (i : Nat) :
    (((s.replies ++ new).filter fun x => x.1 = i).map Prod.snd) = repliesTo s i ++ (new.filter fun x => x.1 = i).map Prod.snd := by
  rw [List.filter_append, List.map_append]
  rfl

/-- Each of some clients is sent a text once. -/
theorem filter_replyAll {is : List Nat} (hn : is.Nodup) (t : Reply) (i : Nat) :
    ((is.map fun j => (j, t)).filter fun x => x.1 = i).map Prod.snd = if i ∈ is then [t] else [] := by
  induction is with
  | nil => simp
  | cons j is ih =>
    obtain ⟨hj, hn⟩ := List.nodup_cons.mp hn
    rw [List.map_cons, List.filter_cons]
    by_cases hij : j = i
    · subst hij
      have hnot := ih hn
      rw [if_neg hj] at hnot
      simp [hnot]
    · rw [if_neg (by simpa using hij), ih hn]
      simp [Ne.symm hij]

theorem mem_replyAll_openChans {s : Server} {is : List Nat} {i : Nat} (hi : i ∈ s.openChans) (hne : i ∉ is) (t : Reply) :
    i ∈ (s.replyAll is t).openChans := by
  unfold Server.replyAll
  induction is generalizing s with
  | nil => exact hi
  | cons j is ih =>
    rw [List.mem_cons, not_or] at hne
    exact ih ((List.mem_erase_of_ne hne.1).mpr hi) hne.2

theorem answerAll_chanNames {s : Server} {is : List Nat} (hn : is.Nodup) (hopen : ∀ i ∈ is, i ∈ s.openChans) (value : Text) :
    answerAll value (is.map chanName) s = (s.replyAll is (.value value), true) := by
  induction is generalizing s with
  | nil => rfl
  | cons i is ih =>
    obtain ⟨hi, hn⟩ := List.nodup_cons.mp hn
    have hfind : s.openChans.find? (fun j => chanName j = chanName i) = some i := by
      cases hf : s.openChans.find? (fun j => chanName j = chanName i) with
      | none =>
        have := List.find?_eq_none.mp hf i (hopen i List.mem_cons_self)
        simp at this
      | some j =>
        have hj : chanName j = chanName i := by simpa using List.find?_some hf
        rw [chanName_injective hj]
    rw [List.map_cons, answerAll, hfind]
    simp only
    refine ih hn fun j hj => ?_
    have hne : j ≠ i := fun h => hi (h ▸ hj)
    exact (List.mem_erase_of_ne hne).mpr (hopen j (List.mem_cons_of_mem _ hj))

/-! ## The invariant -/

/-- The element of the array for those that wait. -/
def waitText (quoteHash : Bool) (is : List Nat) : Option Text :=
  if is = [] then none else some (format quoteHash (is.map chanName))

/-- The server after the requests `pre` of a run `rs`: for each name of the run, its value or those that wait for it. -/
structure Inv (quoteHash : Bool) (rs pre : List Req) (s : Server) : Prop where
  serving : s.rval = none
  conns : s.conns = pre.length
  value : ∀ r ∈ rs, s.sharedVars.get? r.name = lastSet pre r.name
  wait : ∀ r ∈ rs, s.sharedVars.get? (waitKey r.name) = waitText quoteHash (waiters pre r.name)
  chans : ∀ name, ∀ i ∈ waiters pre name, i ∈ s.openChans
  sent : ∀ i, repliesTo s i = due pre i

theorem Inv.init (quoteHash : Bool) (rs : List Req) : Inv quoteHash rs [] (Server.init 0) := by
  constructor
  · rfl
  · rfl
  · intro r hr
    rfl
  · intro r hr
    rfl
  · intro name i hi
    rw [mem_waiters] at hi
    simp at hi
  · intro i
    simp [repliesTo, Server.init, due]

theorem waitKey_injective {a b : Text} (h : waitKey a = waitKey b) : a = b := List.append_cancel_right h

theorem parse_waitText {is : List Nat} {list : Text} (h : waitText quoteHash is = some list) :
    parse list = some (is.map chanName) := by
  unfold waitText at h
  split at h
  · cases h
  · cases h
    refine parse_format (fun w hw => ?_) quoteHash
    obtain ⟨i, -, rfl⟩ := List.mem_map.mp hw
    exact plain_chanName i

theorem lt_of_mem_waiters {rs : List Req} {name : Text} {i : Nat} (h : i ∈ waiters rs name) : i < rs.length :=
  (List.getElem?_eq_some_iff.mp (mem_waiters.mp h).2).1

theorem due_last (pre : List Req) (name : Text) : due (pre ++ [Req.getv name]) pre.length = (lastSet pre name).toList.map .value := by
  have h : (pre ++ [Req.getv name])[pre.length]? = some (.getv name) := by simp
  rw [due, h]
  simp only [answer_last]

theorem due_of_length_le {pre : List Req} {i : Nat} (hi : pre.length ≤ i) : due pre i = [] := by
  rw [due, List.getElem?_eq_none hi]

/-- A `getv` changes nothing for those before it. -/
theorem due_getv {pre : List Req} {i : Nat} (hi : i < pre.length) (name : Text) : due (pre ++ [Req.getv name]) i = due pre i := by
  unfold due
  rw [List.getElem?_append_left hi]
  cases pre[i]? with
  | none => rfl
  | some r =>
    cases r with
    | setv m v => rfl
    | getv m =>
      simp only
      rw [answer_concat hi]
      simp [setOf]

/-- A `setv` is due to those that wait for its name. -/
theorem due_setv {pre : List Req} {i : Nat} (hi : i < pre.length) (name value : Text) :
    due (pre ++ [Req.setv name value]) i = due pre i ++ if i ∈ waiters pre name then [Reply.value value] else [] := by
  unfold due
  rw [List.getElem?_append_left hi]
  cases hget : pre[i]? with
  | none =>
    have hw : i ∉ waiters pre name := by
      rw [mem_waiters, hget]
      simp
    simp [hw]
  | some r =>
    cases r with
    | setv m v =>
      have hw : i ∉ waiters pre name := by
        rw [mem_waiters, hget]
        simp
      simp [hw]
    | getv m =>
      simp only
      rw [answer_concat hi, setOf]
      by_cases hm : name = m
      · subst hm
        rw [if_pos rfl]
        cases ha : answer pre i name with
        | none =>
          have hw : i ∈ waiters pre name := mem_waiters.mpr ⟨(answer_eq_none_iff hget).mp ha, hget⟩
          simp [hw]
        | some u =>
          have hw : i ∉ waiters pre name := by
            intro hw
            rw [(answer_eq_none_iff hget).mpr (mem_waiters.mp hw).1] at ha
            cases ha
          simp [hw]
      · have hw : i ∉ waiters pre name := by
          intro hw
          have := (mem_waiters.mp hw).2
          rw [hget] at this
          exact hm (Req.getv.inj (Option.some.inj this)).symm
        simp [hm, hw]

/-! ## One step -/

theorem lastSet_getv (pre : List Req) (name m : Text) : lastSet (pre ++ [Req.getv name]) m = lastSet pre m := by
  rw [lastSet_concat]
  rfl

theorem lastSet_setv (pre : List Req) (name value m : Text) :
    lastSet (pre ++ [Req.setv name value]) m = if m = name then some value else lastSet pre m := by
  rw [lastSet_concat, setOf]
  by_cases hm : m = name
  · simp [hm]
  · simp [hm, Ne.symm hm]

/-- Those that wait after a `getv` that is answered, or is for another name. -/
theorem waiters_getv_of_ne {pre : List Req} {name m : Text} (h : m = name → lastSet pre name ≠ none) :
    waiters (pre ++ [Req.getv name]) m = waiters pre m := by
  cases hv : lastSet pre m with
  | some v => rw [waiters_eq_nil hv, waiters_eq_nil (by rw [lastSet_getv, hv])]
  | none =>
    have hne : Req.getv name ≠ .getv m := by
      intro he
      cases he
      exact h rfl hv
    rw [waiters_concat pre _ m rfl hv, if_neg hne, List.append_nil]

theorem waiters_getv_self {pre : List Req} {name : Text} (h : lastSet pre name = none) :
    waiters (pre ++ [Req.getv name]) name = waiters pre name ++ [pre.length] := by
  rw [waiters_concat pre _ name rfl h, if_pos rfl]

theorem waiters_setv_of_ne {pre : List Req} {name value m : Text} (h : m ≠ name) :
    waiters (pre ++ [Req.setv name value]) m = waiters pre m := by
  have hset : setOf m (.setv name value) = none := if_neg (Ne.symm h)
  cases hv : lastSet pre m with
  | some v =>
    rw [waiters_eq_nil hv, @waiters_eq_nil _ _ v]
    rw [lastSet_setv, if_neg h, hv]
  | none => rw [waiters_concat pre _ m hset hv, if_neg (by simp), List.append_nil]

theorem waiters_setv_self (pre : List Req) (name value : Text) : waiters (pre ++ [Req.setv name value]) name = [] :=
  @waiters_eq_nil _ _ value (by rw [lastSet_setv, if_pos rfl])

variable {rs pre : List Req} {s : Server}

/-- A `getv` of a variable that is set. -/
theorem Inv.getv_set {name value : Text} (hi : Inv quoteHash rs pre s) (hv : lastSet pre name = some value) :
    Inv quoteHash rs (pre ++ [Req.getv name])
      (Server.reply { s with conns := s.conns + 1, openChans := s.conns :: s.openChans } s.conns (.value value)) := by
  have hw : ∀ m, waiters (pre ++ [Req.getv name]) m = waiters pre m := fun m =>
    waiters_getv_of_ne fun _ => by rw [hv]; exact Option.some_ne_none value
  constructor
  · exact hi.serving
  · rw [List.length_append, ← hi.conns]
    rfl
  · intro r hr
    rw [lastSet_getv]
    exact hi.value r hr
  · intro r hr
    rw [hw]
    exact hi.wait r hr
  · intro m i hm
    rw [hw] at hm
    have hne : i ≠ s.conns := by
      rw [hi.conns]
      exact Nat.ne_of_lt (lt_of_mem_waiters hm)
    exact (List.mem_erase_of_ne hne).mpr (List.mem_cons_of_mem _ (hi.chans m i hm))
  · intro i
    have happ := repliesTo_append s [(s.conns, .value value)] i
    have hsent : repliesTo (Server.reply { s with conns := s.conns + 1, openChans := s.conns :: s.openChans } s.conns (.value value)) i =
        repliesTo s i ++ if i = s.conns then [Reply.value value] else [] := by
      apply happ.trans
      by_cases hc : i = s.conns
      · simp [hc]
      · simp [hc, Ne.symm hc]
    rw [hsent, hi.sent, hi.conns]
    by_cases hlt : i < pre.length
    · rw [due_getv hlt, if_neg (Nat.ne_of_lt hlt), List.append_nil]
    · by_cases heq : i = pre.length
      · subst heq
        rw [if_pos rfl, due_last, due_of_length_le (Nat.le_refl _), hv]
        rfl
      · have hle : pre.length + 1 ≤ i := by omega
        rw [if_neg heq, List.append_nil, due_of_length_le (by omega), due_of_length_le (by simpa using hle)]

/-- A `getv` of a variable that is not set: the array gets the list of those that wait, with the new one. -/
theorem Inv.getv_unset {name list : Text} (hi : Inv quoteHash rs pre s) (hok : RequestsOk quoteHash rs) (hr : Req.getv name ∈ rs)
    (hv : lastSet pre name = none) (hl : waitText quoteHash (waiters pre name ++ [pre.length]) = some list) :
    Inv quoteHash rs (pre ++ [Req.getv name]) { s with
      conns := s.conns + 1, openChans := s.conns :: s.openChans, sharedVars := s.sharedVars.put (waitKey name) list } := by
  constructor
  · exact hi.serving
  · rw [List.length_append, ← hi.conns]
    rfl
  · intro r hr'
    have hne : r.name ≠ waitKey name := hok.apart r hr' _ hr
    rw [lastSet_getv, Array.get?_put, if_neg hne]
    exact hi.value r hr'
  · intro r hr'
    rw [Array.get?_put]
    by_cases hn : r.name = name
    · rw [hn, if_pos rfl, waiters_getv_self hv, hl]
    · have hne : waitKey r.name ≠ waitKey name := fun h => hn (waitKey_injective h)
      rw [if_neg hne, waiters_getv_of_ne fun h => absurd h hn]
      exact hi.wait r hr'
  · intro m i hm
    by_cases hn : m = name
    · subst hn
      rw [waiters_getv_self hv] at hm
      rcases List.mem_append.mp hm with hm | hm
      · exact List.mem_cons_of_mem _ (hi.chans m i hm)
      · rw [List.mem_singleton.mp hm, ← hi.conns]
        exact List.mem_cons_self
    · rw [waiters_getv_of_ne fun h => absurd h hn] at hm
      exact List.mem_cons_of_mem _ (hi.chans m i hm)
  · intro i
    apply (hi.sent i).trans
    by_cases hlt : i < pre.length
    · rw [due_getv hlt]
    · by_cases heq : i = pre.length
      · subst heq
        rw [due_last, due_of_length_le (Nat.le_refl _), hv]
        rfl
      · have hle : pre.length + 1 ≤ i := by omega
        rw [due_of_length_le (by omega), due_of_length_le (by simpa using hle)]

theorem Inv.getv {name : Text} (hi : Inv quoteHash rs pre s) (hok : RequestsOk quoteHash rs) (hr : Req.getv name ∈ rs) :
    Inv quoteHash rs (pre ++ [Req.getv name])
      (Mstf.getv quoteHash { s with conns := s.conns + 1, openChans := s.conns :: s.openChans } s.conns name) := by
  have hval : s.sharedVars.get? name = lastSet pre name := hi.value _ hr
  have hwait : s.sharedVars.get? (waitKey name) = waitText quoteHash (waiters pre name) := hi.wait _ hr
  unfold Mstf.getv
  simp only [hval, hwait]
  cases hv : lastSet pre name with
  | some value => exact hi.getv_set hv
  | none =>
    cases hw : waitText quoteHash (waiters pre name) with
    | none =>
      have hnil : waiters pre name = [] := by
        unfold waitText at hw
        split at hw
        · assumption
        · cases hw
      apply hi.getv_unset hok hr hv
      rw [hnil, hi.conns, List.nil_append]
      have hp : Plain (chanName pre.length) := plain_chanName _
      rw [waitText, if_neg (by simp), List.map_singleton, format_plain (by simpa using hp)]
      rfl
    | some list =>
      simp only [parse_waitText hw]
      apply hi.getv_unset hok hr hv
      rw [waitText, if_neg (by simp), List.map_append, hi.conns]
      rfl

/-- The parts of an assignment between its `=`. -/
theorem split_assign {name value : Text} (hn : '=' ∉ name) (hv : '=' ∉ value) :
    (name ++ '=' :: value).takeWhile (· ≠ '=') = name ∧
      (((name ++ '=' :: value).dropWhile (· ≠ '=')).drop 1).takeWhile (· ≠ '=') = value := by
  constructor
  · exact takeWhile_separator hn value
  · rw [dropWhile_separator hn value, List.drop_one, List.tail_cons]
    exact List.takeWhile_eq_self_iff.mpr (ne_of_notMem hv)

/-- The server after those that wait for `name` have been answered: the list of them is no longer in the array. -/
theorem Inv.setv_state {name value : Text} (hi : Inv quoteHash rs pre s) (hok : RequestsOk quoteHash rs)
    (hr : Req.setv name value ∈ rs) {s' : Server} (hrval : s'.rval = none) (hconns : s'.conns = s.conns + 1)
    (hget : ∀ k, k ≠ waitKey name → s'.sharedVars.get? k = if k = name then some value else s.sharedVars.get? k)
    (hunset : s'.sharedVars.get? (waitKey name) = none)
    (hopen : ∀ i ∈ s.openChans, i ≠ s.conns → i ∉ waiters pre name → i ∈ s'.openChans)
    (hsent : s'.replies = s.replies ++ (waiters pre name).map fun i => (i, Reply.value value)) :
    Inv quoteHash rs (pre ++ [Req.setv name value]) s' := by
  constructor
  · exact hrval
  · rw [hconns, List.length_append, ← hi.conns]
    rfl
  · intro r hr'
    have hne : r.name ≠ waitKey name := hok.apart r hr' _ hr
    rw [hget _ hne, lastSet_setv, hi.value r hr']
  · intro r hr'
    by_cases hn : r.name = name
    · rw [hn, waiters_setv_self, hunset]
      rfl
    · have hne : waitKey r.name ≠ waitKey name := fun h => hn (waitKey_injective h)
      have hne' : waitKey r.name ≠ name := fun h => hok.apart _ hr r hr' h.symm
      rw [hget _ hne, if_neg hne', waiters_setv_of_ne hn]
      exact hi.wait r hr'
  · intro m i hm
    by_cases hn : m = name
    · rw [hn, waiters_setv_self] at hm
      cases hm
    · rw [waiters_setv_of_ne hn] at hm
      refine hopen i (hi.chans m i hm) ?_ fun hw => ?_
      · rw [hi.conns]
        exact Nat.ne_of_lt (lt_of_mem_waiters hm)
      · have h1 := (mem_waiters.mp hm).2
        have h2 := (mem_waiters.mp hw).2
        rw [h1] at h2
        exact hn (Req.getv.inj (Option.some.inj h2))
  · intro i
    have hrep : repliesTo s' i = repliesTo s i ++ if i ∈ waiters pre name then [Reply.value value] else [] := by
      rw [repliesTo, hsent, repliesTo_append, filter_replyAll (nodup_waiters pre name)]
    rw [hrep, hi.sent]
    by_cases hlt : i < pre.length
    · rw [due_setv hlt]
    · have hw : i ∉ waiters pre name := fun hw => hlt (lt_of_mem_waiters hw)
      rw [if_neg hw, List.append_nil, due_of_length_le (Nat.le_of_not_lt hlt)]
      by_cases heq : i = pre.length
      · subst heq
        rw [due]
        simp
      · have hle : pre.length + 1 ≤ i := by omega
        rw [due_of_length_le (by simpa using hle)]

theorem Inv.setv {name value : Text} (hi : Inv quoteHash rs pre s) (hok : RequestsOk quoteHash rs) (hr : Req.setv name value ∈ rs) :
    Inv quoteHash rs (pre ++ [Req.setv name value]) (Mstf.setv { s with conns := s.conns + 1, openChans := s.conns :: s.openChans }
      s.conns (name ++ '=' :: value)) := by
  obtain ⟨hvar, hval⟩ := @split_assign name _ (hok.names _ hr) (hok.each _ hr).2
  have hself : waitKey name ≠ name := fun h => hok.apart _ hr _ hr h.symm
  have hwait : (s.sharedVars.put name value).get? (waitKey name) = waitText quoteHash (waiters pre name) := by
    rw [Array.get?_put, if_neg hself]
    exact hi.wait _ hr
  have hclosed : ∀ i ∈ s.openChans, i ≠ s.conns → i ∈ (s.conns :: s.openChans).erase s.conns := fun i hm hne =>
    (List.mem_erase_of_ne hne).mpr (List.mem_cons_of_mem _ hm)
  unfold Mstf.setv Server.close
  simp only [hvar, hval, hwait]
  cases hw : waitText quoteHash (waiters pre name) with
  | none =>
    have hnil : waiters pre name = [] := by
      unfold waitText at hw
      split at hw
      · assumption
      · cases hw
    refine hi.setv_state hok hr hi.serving rfl (fun k _ => ?_) (by rw [hwait, hw]) (fun i hm hne _ => hclosed i hm hne) ?_
    · exact Array.get?_put _ _ _ _
    · rw [hnil]
      simp
  | some list =>
    have hans := answerAll_chanNames (s := { s with
        conns := s.conns + 1, openChans := (s.conns :: s.openChans).erase s.conns, sharedVars := s.sharedVars.put name value })
      (nodup_waiters pre name) (fun i hm => hclosed i (hi.chans name i hm) (by
        rw [hi.conns]
        exact Nat.ne_of_lt (lt_of_mem_waiters hm))) value
    simp only [parse_waitText hw, hans, if_true]
    have hsame := replyAll_same { s with
      conns := s.conns + 1, openChans := (s.conns :: s.openChans).erase s.conns, sharedVars := s.sharedVars.put name value }
      (waiters pre name) (.value value)
    refine hi.setv_state hok hr (hsame.rval.trans hi.serving) hsame.conns (fun k hk => ?_) ?_ (fun i hm hne hnw => ?_) ?_
    · rw [Array.get?_unset, if_neg hk, hsame.sharedVars]
      exact Array.get?_put _ _ _ _
    · rw [Array.get?_unset, if_pos rfl]
    · exact mem_replyAll_openChans (hclosed i hm hne) hnw (.value value)
    · exact replyAll_replies _ _ _

/-! ## Runs -/

theorem run_inv (hok : RequestsOk quoteHash rs) (hpre : pre ⊆ rs) : Inv quoteHash rs pre (run quoteHash pre) := by
  induction pre using List.reverseRecOn with
  | nil => exact Inv.init quoteHash rs
  | append_singleton pre r ih =>
    have hi := ih fun x hx => hpre (List.mem_append_left _ hx)
    have hr : r ∈ rs := hpre (List.mem_append_right _ (List.mem_singleton_self r))
    rw [run_concat]
    cases r with
    | getv name =>
      rw [serve_getv hi.serving (hok.each _ hr)]
      exact hi.getv hok hr
    | setv name value =>
      rw [serve_setv hi.serving (hok.each _ hr)]
      exact hi.setv hok hr

/-- For requests that the server reads as they were sent, with no name that is the `name,wait` of another one, the variables are
independent cells: in every run, every `getv` is answered once, with the last value set before it or else the first one set after
it, and nothing else is sent. -/
theorem run_cells (quoteHash : Bool) (rs : List Req) (hok : RequestsOk quoteHash rs) : Cells quoteHash rs :=
  (run_inv hok fun _ h => h).sent

/-- Two names, one of them read before it is set. -/
theorem run_cells_sample : (run true [.getv ['x'], .setv ['y'] ['1'], .setv ['x'] ['a', ' ', 'b'], .getv ['x']]).replies =
      [(0, .value ['a', ' ', 'b']), (3, .value ['a', ' ', 'b'])] ∧
    Cells true [.getv ['x'], .setv ['y'] ['1'], .setv ['x'] ['a', ' ', 'b'], .getv ['x']] :=
  ⟨by decide, run_cells true _ ⟨by decide, by decide, by decide⟩⟩

/-- A value with `=` in it is cut. -/
theorem not_run_cells : ¬∀ rs : List Req, (∀ r ∈ rs, '=' ∉ r.name ∧ ∀ c ∈ r.name, isSpace c = false) →
    (∀ name value, .setv name value ∈ rs → '\n' ∉ value) → Cells true rs := by
  intro H
  have hvalue : ∀ name value, Req.setv name value ∈ [.setv ['x'] ['a', '=', 'b'], .getv ['x']] → '\n' ∉ value := by
    intro name value hm
    have hm' : name = ['x'] ∧ value = ['a', '=', 'b'] := by simpa using hm
    rw [hm'.2]
    decide
  have hname : ∀ r ∈ [Req.setv ['x'] ['a', '=', 'b'], .getv ['x']], '=' ∉ r.name ∧ ∀ c ∈ r.name, isSpace c = false := by
    intro r hm
    have hx : r.name = ['x'] := by
      simp only [List.mem_cons, List.not_mem_nil, or_false] at hm
      rcases hm with rfl | rfl <;> rfl
    rw [hx]
    exact ⟨by decide, fun c hc => by rw [List.mem_singleton.mp hc]; rfl⟩
  have h := H [.setv ['x'] ['a', '=', 'b'], .getv ['x']] hname hvalue 1
  have hrun : repliesTo (run true [.setv ['x'] ['a', '=', 'b'], .getv ['x']]) 1 = [.value ['a']] := by decide
  rw [hrun] at h
  exact absurd h (by decide)

end ZfsTest.Mstf.Vars
