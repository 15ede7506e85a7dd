import Mathlib.Data.Fintype.Basic
import Mathlib.Data.List.Infix
import Mathlib.Logic.Function.Basic
import ZfsTest.Prog.Fold
import ZfsTest.Text.Basic

/-!
# The log files of `log_pos` and `log_neg_expect`

Every call runs its command with `stderr` in a log file, reads the file to judge the command, and removes it. All subshells of a
test script share the names `/tmp/log.$$`, `/tmp/log.$$.$$` and so on (here `0`, `1`, ..): a call takes the first name that does not
exist, and at its end `_recursive_output` removes the file with its name and all files that follow it in the chain. The steps of the
calls interleave in any order (`run`).

A name is tested before it is created, so two calls can take the same one, and a call can remove the file of another one that has
taken a later name. In a run where neither happens (`StepOk`) every call returns what its own command deserves, which is also what it
returns alone (`run_undisturbed`).
-/

namespace ZfsTest.Logapi

/-! ## Files -/

/-- Bytes written at an offset. -/
def overwrite (text : Text) (pos : Nat) (bytes : Text) : Text :=
  text.take pos ++ List.replicate (pos - text.length) '\x00' ++ bytes ++ text.drop (pos + bytes.length)

/-- The names of the chain that exist, and the contents of the files they stand for. A file that has been removed can still be
written to. -/
structure Tmp where
  files : Nat → Option Nat
  store : Nat → Text
  next : Nat
  bound : Nat
  inj : ∀ a b x, files a = some x → files b = some x → a = b
  fresh : ∀ a x, files a = some x → x < next
  finite : ∀ a, bound ≤ a → files a = none

def Tmp.empty : Tmp :=
  ⟨fun _ => none, fun _ => [], 0, 0, fun _ _ _ h => (by cases h), fun _ _ h => (by cases h), fun _ _ => rfl⟩

/-- The file that `2>` opens: the one of that name, or a new one. -/
def Tmp.opened (t : Tmp) (k : Nat) : Nat := (t.files k).getD t.next

/-- `2>`: the file is empty then. -/
def Tmp.create (t : Tmp) (k : Nat) : Tmp where
  files := Function.update t.files k (some (t.opened k))
  store := Function.update t.store (t.opened k) []
  next := max t.next (t.opened k + 1)
  bound := max t.bound (k + 1)
  inj a b x ha hb := by
    have hnew : ∀ c, c ≠ k → t.files c = some (t.opened k) → t.files k = none → False := by
      intro c _ hc hk
      rw [Tmp.opened, hk, Option.getD_none] at hc
      exact absurd (t.fresh c _ hc) (Nat.lt_irrefl _)
    have hold : ∀ c, c ≠ k → t.files c ≠ some (t.opened k) := by
      intro c hck hc
      cases hk : t.files k with
      | none => exact hnew c hck hc hk
      | some y =>
        rw [Tmp.opened, hk, Option.getD_some] at hc
        exact hck (t.inj c k y hc hk)
    rw [Function.update_apply] at ha hb
    split at ha
    · rename_i hak
      cases ha
      split at hb
      · rename_i hbk
        rw [hak, hbk]
      · rename_i hbk
        exact absurd hb (hold b hbk)
    · rename_i hak
      split at hb
      · cases hb
        exact absurd ha (hold a hak)
      · exact t.inj a b x ha hb
  fresh a x ha := by
    rw [Function.update_apply] at ha
    split at ha
    · cases ha
      omega
    · have := t.fresh a x ha
      omega
  finite a ha := by
    have hak : a ≠ k := by omega
    rw [Function.update_of_ne hak]
    exact t.finite a (by omega)

def Tmp.write (t : Tmp) (x pos : Nat) (bytes : Text) : Tmp :=
  { t with store := Function.update t.store x (overwrite (t.store x) pos bytes) }

/-- What `cat` prints; there is no line on `stdout` about a file that does not exist. -/
def Tmp.cat (t : Tmp) (k : Nat) : Text :=
  match t.files k with
  | none => []
  | some x => t.store x

/-- `rm -f`. -/
def Tmp.rm (t : Tmp) (k : Nat) : Tmp where
  files := Function.update t.files k none
  store := t.store
  next := t.next
  bound := t.bound
  inj a b x ha hb := by
    rw [Function.update_apply] at ha hb
    split at ha
    · cases ha
    · split at hb
      · cases hb
      · exact t.inj a b x ha hb
  fresh a x ha := by
    rw [Function.update_apply] at ha
    split at ha
    · cases ha
    · exact t.fresh a x ha
  finite a ha := by
    rw [Function.update_apply]
    split
    · rfl
    · exact t.finite a ha

/-! ## Calls -/

/-- `log_pos`, or `log_neg_expect` with its keyword. -/
inductive Kind
  | pos
  | negExpect (expect : Text)
  deriving DecidableEq, Repr

/-- A call: the function, what its command writes to `stderr`, piece by piece, and the exit status of the command. -/
structure Job where
  kind : Kind
  writes : List Text
  status : Nat
  deriving Repr

/-- The text of the command. -/
def Job.text (job : Job) : Text := job.writes.flatten

inductive Pc
  /-- `[[ -e $logfile ]]` in the search of a name. -/
  | test
  | create
  /-- The command runs, and has this to write. -/
  | running (rest : List Text)
  /-- `cat` for the search of internal errors, and for the search of the keyword. -/
  | egrep
  | grep
  /-- `cat` for the message. -/
  | show (r : Nat)
  /-- `_recursive_output`: `[[ -e $logfile ]]`, `cat` and `rm` for a name of the chain. -/
  | sweep (name r : Nat)
  | output (name r : Nat)
  | rm (name r : Nat)
  | done (r : Nat)
  deriving DecidableEq, Repr

/-- A call on its way: the name of its log file, the open file and the offset in it, and what its `cat`s have printed. -/
structure Local where
  pc : Pc
  name : Nat
  file : Nat
  pos : Nat
  shown : List Text
  deriving Repr

def Local.init : Local := ⟨.test, 0, 0, 0, []⟩

/-- `egrep -i "internal error|assertion failed"`. -/
def internalError (text : Text) : Bool :=
  decide ("internal error".toList <:+: text.map Char.toLower) || decide ("assertion failed".toList <:+: text.map Char.toLower)

/-- The result that the status alone decides: a failure for `log_pos`; for `log_neg_expect` a success, a missing binary, a bus error
or a segmentation violation. -/
def byStatus (job : Job) : Option Nat :=
  match job.kind with
  | .pos => if job.status ≠ 0 then some job.status else none
  | .negExpect _ => if job.status = 0 ∨ job.status = 127 ∨ job.status = 138 ∨ job.status = 139 then some 1 else none

section

-- `grep -i` finds a keyword in a text; and whether `LOGAPI_DEBUG` is set
variable (grepI : Text → Text → Bool) (debug : Bool)

/-- What the command of a call deserves. -/
def verdict (job : Job) : Nat :=
  match job.kind with
  | .pos =>
    if job.status ≠ 0 then job.status
    else if internalError job.text then 1
    else 0
  | .negExpect expect =>
    if job.status = 0 ∨ job.status = 127 ∨ job.status = 138 ∨ job.status = 139 then 1
    else if internalError job.text then 1
    else if expect ≠ [] then (if grepI expect job.text then 0 else 1)
    else 0

/-- A call that succeeds prints the log file only for debugging. -/
def Local.accept (l : Local) : Local := { l with pc := if debug then .show 0 else .sweep l.name 0 }

/-- The next step of a call. -/
def Local.step (job : Job) (l : Local) (t : Tmp) : Local × Tmp :=
  match l.pc with
  | .test => (if (t.files l.name).isSome then { l with name := l.name + 1 } else { l with pc := .create }, t)
  | .create => ({ l with pc := .running job.writes, file := t.opened l.name, pos := 0 }, t.create l.name)
  | .running (bytes :: rest) =>
    ({ l with pc := .running rest, pos := l.pos + bytes.length }, t.write l.file l.pos bytes)
  | .running [] =>
    match byStatus job with
    | some r => ({ l with pc := .show r }, t)
    | none => ({ l with pc := .egrep }, t)
  | .egrep =>
    if internalError (t.cat l.name) then ({ l with pc := .show 1 }, t)
    else
      match job.kind with
      | .pos => (l.accept debug, t)
      | .negExpect expect => (if expect ≠ [] then { l with pc := .grep } else l.accept debug, t)
  | .grep =>
    match job.kind with
    | .pos => (l, t)
    | .negExpect expect => (if grepI expect (t.cat l.name) then l.accept debug else { l with pc := .show 1 }, t)
  | .show r => ({ l with pc := .sweep l.name r, shown := l.shown ++ [t.cat l.name] }, t)
  | .sweep name r =>
    ({ l with pc := if (t.files name).isNone then .done r else if name ≠ l.name then .output name r else .rm name r }, t)
  | .output name r => ({ l with pc := .rm name r, shown := l.shown ++ [t.cat name] }, t)
  | .rm name r => ({ l with pc := .sweep (name + 1) r }, t.rm name)
  | .done _ => (l, t)

/-! ## Any number of calls -/

/-- The calls of the subshells and the files they share. -/
structure System (ι : Type) where
  calls : ι → Local
  tmp : Tmp

variable {ι : Type} [DecidableEq ι] (jobs : ι → Job)

def System.init (t : Tmp) : System ι := ⟨fun _ => .init, t⟩

/-- Call `i` takes its next step. -/
def step (s : System ι) (i : ι) : System ι :=
  let (l, t) := (s.calls i).step grepI debug (jobs i) s.tmp
  ⟨Function.update s.calls i l, t⟩

def run (t : Tmp) (is : List ι) : System ι := is.foldl (step grepI debug jobs) (System.init t)

/-- The call needs its log file. -/
def Pc.reading : Pc → Bool
  | .running _ | .egrep | .grep => true
  | _ => false

/-- The name that the call is about to remove. -/
def Pc.removes : Pc → Option Nat
  | .rm name _ => some name
  | _ => none

/-- A call that creates its log file finds that the name still does not exist, and no call removes a file that another one needs. -/
def StepOk (s : System ι) (i : ι) : Prop :=
  ((s.calls i).pc = .create → s.tmp.files (s.calls i).name = none) ∧
    ∀ j, j ≠ i → (s.calls j).pc.reading = true → (s.calls i).pc.removes ≠ some (s.calls j).name

end

/-! ## Lemmas about files -/

theorem overwrite_end (text bytes : Text) : overwrite text text.length bytes = text ++ bytes := by
  simp [overwrite]

theorem cat_of_file {t : Tmp} {k x : Nat} (h : t.files k = some x) : t.cat k = t.store x := by
  rw [Tmp.cat, h]

theorem write_store_self (t : Tmp) (x pos : Nat) (bytes : Text) :
    (t.write x pos bytes).store x = overwrite (t.store x) pos bytes := Function.update_self ..

/-- What a step of one call leaves to another one. -/
structure Keeps (t t' : Tmp) (l : Local) : Prop where
  file : t.files l.name = some l.file → t'.files l.name = some l.file
  text : t.files l.name = some l.file → t'.store l.file = t.store l.file

theorem Keeps.refl (t : Tmp) (l : Local) : Keeps t t l := ⟨id, fun _ => rfl⟩

theorem Keeps.create {t : Tmp} {l : Local} {k : Nat} (hk : t.files k = none) : Keeps t (t.create k) l where
  file h := by
    have hne : l.name ≠ k := by
      intro he
      rw [he, hk] at h
      cases h
    exact (Function.update_of_ne hne _ _).trans h
  text h := by
    have hlt := t.fresh _ _ h
    have hne : l.file ≠ t.opened k := by
      rw [Tmp.opened, hk, Option.getD_none]
      omega
    exact Function.update_of_ne hne _ _

theorem Keeps.write {t : Tmp} {l : Local} {k x : Nat} (pos : Nat) (bytes : Text) (hx : t.files k = some x) (hk : l.name ≠ k) :
    Keeps t (t.write x pos bytes) l where
  file h := h
  text h := by
    have hne : l.file ≠ x := by
      rintro rfl
      exact hk (t.inj _ _ _ h hx)
    exact Function.update_of_ne hne _ _

theorem Keeps.rm {t : Tmp} {l : Local} {k : Nat} (hk : l.name ≠ k) : Keeps t (t.rm k) l :=
  ⟨fun h => (Function.update_of_ne hk _ _).trans h, fun _ => rfl⟩

/-! ## The invariant of a call -/

section

variable {grepI : Text → Text → Bool} {debug : Bool}

/-- The result that a call is going to return, once it is known. -/
def Pc.result? : Pc → Option Nat
  | .show r | .sweep _ r | .output _ r | .rm _ r | .done r => some r
  | _ => none

/-- A call that needs its log file has it, with what its command has written so far; and a result is the right one. -/
structure CallInv (grepI : Text → Text → Bool) (job : Job) (t : Tmp) (l : Local) : Prop where
  file : l.pc.reading = true → t.files l.name = some l.file
  running : ∀ rest, l.pc = .running rest → t.store l.file ++ rest.flatten = job.text ∧ l.pos = (t.store l.file).length
  text : l.pc = .egrep ∨ l.pc = .grep → t.store l.file = job.text
  status : l.pc = .egrep ∨ l.pc = .grep → byStatus job = none
  noError : l.pc = .grep → internalError job.text = false ∧ ∀ expect, job.kind = .negExpect expect → expect ≠ []
  result : ∀ r, l.pc.result? = some r → r = verdict grepI job

/-- A call that has no log file yet. -/
theorem CallInv.of_before {job : Job} {t : Tmp} {l : Local} (h : l.pc = .test ∨ l.pc = .create) : CallInv grepI job t l := by
  have hread : l.pc.reading = false := by rcases h with h | h <;> rw [h] <;> rfl
  have hresult : l.pc.result? = none := by rcases h with h | h <;> rw [h] <;> rfl
  have hgrep : l.pc ≠ .egrep ∧ l.pc ≠ .grep := by rcases h with h | h <;> rw [h] <;> exact ⟨fun h => (by cases h), fun h => (by cases h)⟩
  refine ⟨fun hr => ?_, fun rest hr => ?_, fun hr => ?_, fun hr => ?_, fun hr => absurd hr hgrep.2, fun r hr => ?_⟩
  · rw [hread] at hr
    cases hr
  · rw [hr] at hread
    cases hread
  · exact hr.elim (absurd · hgrep.1) (absurd · hgrep.2)
  · exact hr.elim (absurd · hgrep.1) (absurd · hgrep.2)
  · rw [hresult] at hr
    cases hr

/-- A call that does not need its log file. -/
theorem CallInv.of_result {job : Job} {t : Tmp} {l : Local} {r : Nat} (hl : l.pc.result? = some r) (hr : r = verdict grepI job) :
    CallInv grepI job t l := by
  have hread : l.pc.reading ≠ true := by
    intro h
    cases hp : l.pc <;> simp [hp, Pc.reading, Pc.result?] at h hl
  refine ⟨fun h => absurd h hread, fun rest h => ?_, fun h => ?_, fun h => ?_, fun h => ?_, fun r' h => ?_⟩
  · exact absurd (by rw [h]; rfl) hread
  · exact absurd (by rcases h with h | h <;> rw [h] <;> rfl) hread
  · exact absurd (by rcases h with h | h <;> rw [h] <;> rfl) hread
  · exact absurd (by rw [h]; rfl) hread
  · rw [hl] at h
    exact (Option.some.inj h).symm.trans hr

theorem CallInv.keep {job : Job} {t t' : Tmp} {l : Local} (hi : CallInv grepI job t l) (hk : l.pc.reading = true → Keeps t t' l) :
    CallInv grepI job t' l := by
  have hread : ∀ rest, l.pc = .running rest → l.pc.reading = true := fun rest h => by rw [h]; rfl
  have hread' : l.pc = .egrep ∨ l.pc = .grep → l.pc.reading = true := fun h => by rcases h with h | h <;> rw [h] <;> rfl
  refine ⟨fun h => (hk h).file (hi.file h), fun rest h => ?_, fun h => ?_, hi.status, hi.noError, hi.result⟩
  · have hr := hread rest h
    rw [(hk hr).text (hi.file hr)]
    exact hi.running rest h
  · have hr := hread' h
    rw [(hk hr).text (hi.file hr)]
    exact hi.text h

theorem verdict_of_byStatus {job : Job} {r : Nat} (h : byStatus job = some r) : r = verdict grepI job := by
  unfold byStatus at h
  unfold verdict
  cases hk : job.kind with
  | pos =>
    rw [hk] at h
    simp only at h ⊢
    split at h
    · rename_i hs
      rw [if_pos hs]
      exact (Option.some.inj h).symm
    · cases h
  | negExpect expect =>
    rw [hk] at h
    simp only at h ⊢
    split at h
    · rename_i hs
      rw [if_pos hs]
      exact (Option.some.inj h).symm
    · cases h

/-- The result when the status does not decide it. -/
theorem verdict_of_text {job : Job} (h : byStatus job = none) : verdict grepI job =
    if internalError job.text then 1 else
      match job.kind with
      | .pos => 0
      | .negExpect expect => if expect ≠ [] then (if grepI expect job.text then 0 else 1) else 0 := by
  unfold byStatus at h
  unfold verdict
  cases hk : job.kind with
  | pos =>
    rw [hk] at h
    simp only at h ⊢
    split at h
    · cases h
    · rename_i hs
      rw [if_neg hs]
  | negExpect expect =>
    rw [hk] at h
    simp only at h ⊢
    split at h
    · cases h
    · rename_i hs
      rw [if_neg hs]

theorem accept_result? (debug : Bool) (l : Local) : (l.accept debug).pc.result? = some 0 := by
  unfold Local.accept
  cases debug <;> rfl

/-! ## The steps of a call -/

variable {job : Job} {t : Tmp} {l : Local}

/-- The command ends. -/
theorem CallInv.ended (hi : CallInv grepI job t l) (hpc : l.pc = .running []) :
    CallInv grepI job (l.step grepI debug job t).2 (l.step grepI debug job t).1 := by
  unfold Local.step
  rw [hpc]
  simp only
  cases hs : byStatus job with
  | some r => exact CallInv.of_result rfl (verdict_of_byStatus hs)
  | none =>
    have ht : t.store l.file = job.text := by
      have h := (hi.running [] hpc).1
      rwa [List.flatten_nil, List.append_nil] at h
    have hf := hi.file (by rw [hpc]; rfl)
    exact ⟨fun _ => hf, fun _ h => (by cases h), fun _ => ht, fun _ => hs, fun h => (by cases h), fun _ h => (by cases h)⟩

theorem CallInv.egrep (hi : CallInv grepI job t l) (hpc : l.pc = .egrep) :
    CallInv grepI job (l.step grepI debug job t).2 (l.step grepI debug job t).1 := by
  have hf := hi.file (by rw [hpc]; rfl)
  have ht := hi.text (Or.inl hpc)
  have hs := hi.status (Or.inl hpc)
  have hv : verdict grepI job = _ := verdict_of_text hs
  unfold Local.step
  rw [hpc]
  simp only [cat_of_file hf, ht]
  by_cases he : internalError job.text = true
  · rw [if_pos he]
    rw [if_pos he] at hv
    exact CallInv.of_result rfl hv.symm
  · rw [if_neg he]
    rw [if_neg he] at hv
    cases hk : job.kind with
    | pos =>
      rw [hk] at hv
      exact CallInv.of_result (accept_result? debug l) hv.symm
    | negExpect expect =>
      rw [hk] at hv
      simp only at hv ⊢
      split
      · rename_i hne
        refine ⟨fun _ => hf, fun _ h => (by cases h), fun _ => ht, fun _ => hs, fun _ => ⟨by simpa using he, ?_⟩,
          fun _ h => (by cases h)⟩
        intro expect' hk'
        rw [hk] at hk'
        cases hk'
        exact hne
      · rename_i hne
        rw [if_neg hne] at hv
        exact CallInv.of_result (accept_result? debug l) hv.symm

theorem CallInv.grep (hi : CallInv grepI job t l) (hpc : l.pc = .grep) :
    CallInv grepI job (l.step grepI debug job t).2 (l.step grepI debug job t).1 := by
  have hf := hi.file (by rw [hpc]; rfl)
  have ht := hi.text (Or.inr hpc)
  have hv : verdict grepI job = _ := verdict_of_text (hi.status (Or.inr hpc))
  obtain ⟨he, hne⟩ := hi.noError hpc
  rw [he] at hv
  unfold Local.step
  rw [hpc]
  simp only [cat_of_file hf, ht]
  cases hk : job.kind with
  | pos => exact hi
  | negExpect expect =>
    rw [hk] at hv
    simp only [Bool.false_eq_true, if_false, if_pos (hne expect hk)] at hv ⊢
    split
    · rename_i hg
      rw [if_pos hg] at hv
      exact CallInv.of_result (accept_result? debug l) hv.symm
    · rename_i hg
      rw [if_neg hg] at hv
      exact CallInv.of_result rfl hv.symm

theorem CallInv.step (hi : CallInv grepI job t l) :
    CallInv grepI job (l.step grepI debug job t).2 (l.step grepI debug job t).1 := by
  cases hpc : l.pc with
  | test =>
    unfold Local.step
    rw [hpc]
    simp only
    split
    · exact CallInv.of_before (Or.inl rfl)
    · exact CallInv.of_before (Or.inr rfl)
  | create =>
    unfold Local.step
    rw [hpc]
    refine ⟨fun _ => Function.update_self .., fun rest h => ?_, fun h => (by rcases h with h | h <;> cases h),
      fun h => (by rcases h with h | h <;> cases h), fun h => (by cases h), fun _ h => (by cases h)⟩
    cases h
    have hempty : (t.create l.name).store (t.opened l.name) = [] := Function.update_self ..
    rw [hempty]
    exact ⟨rfl, rfl⟩
  | running rest =>
    cases rest with
    | nil => exact hi.ended hpc
    | cons bytes rest =>
      obtain ⟨htext, hpos⟩ := hi.running _ hpc
      have hf := hi.file (by rw [hpc]; rfl)
      unfold Local.step
      rw [hpc]
      refine ⟨fun _ => hf, fun rest' h => ?_, fun h => (by rcases h with h | h <;> cases h),
        fun h => (by rcases h with h | h <;> cases h), fun h => (by cases h), fun _ h => (by cases h)⟩
      cases h
      rw [write_store_self, hpos, overwrite_end, List.append_assoc, ← List.flatten_cons, List.length_append]
      exact ⟨htext, rfl⟩
  | egrep => exact hi.egrep hpc
  | grep => exact hi.grep hpc
  | «show» r =>
    have hr := hi.result r (by rw [hpc]; rfl)
    unfold Local.step
    rw [hpc]
    exact CallInv.of_result rfl hr
  | sweep name r =>
    have hr := hi.result r (by rw [hpc]; rfl)
    unfold Local.step
    rw [hpc]
    refine CallInv.of_result (r := r) ?_ hr
    simp only
    split
    · rfl
    · split <;> rfl
  | output name r =>
    have hr := hi.result r (by rw [hpc]; rfl)
    unfold Local.step
    rw [hpc]
    exact CallInv.of_result rfl hr
  | rm name r =>
    have hr := hi.result r (by rw [hpc]; rfl)
    unfold Local.step
    rw [hpc]
    exact CallInv.of_result rfl hr
  | done r =>
    have hr := hi.result r (by rw [hpc]; rfl)
    unfold Local.step
    rw [hpc]
    exact CallInv.of_result (by rw [hpc]; rfl) hr

/-- What a step does to the file of another call that needs it. -/
theorem step_keeps {l' : Local} (hi : CallInv grepI job t l) (hcreate : l.pc = .create → t.files l.name = none)
    (hapart : l.pc.reading = true → l'.name ≠ l.name) (hrm : l.pc.removes ≠ some l'.name) :
    Keeps t (l.step grepI debug job t).2 l' := by
  unfold Local.step
  cases hpc : l.pc with
  | create => exact Keeps.create (hcreate hpc)
  | running rest =>
    cases rest with
    | nil =>
      simp only
      split <;> exact Keeps.refl t l'
    | cons bytes rest =>
      have hread : l.pc.reading = true := by rw [hpc]; rfl
      exact Keeps.write l.pos bytes (hi.file hread) (hapart hread)
  | egrep =>
    simp only
    split
    · exact Keeps.refl t l'
    · split <;> exact Keeps.refl t l'
  | grep =>
    simp only
    split <;> exact Keeps.refl t l'
  | rm name r =>
    refine Keeps.rm fun he => hrm ?_
    rw [hpc, he]
    rfl
  | test => exact Keeps.refl t l'
  | «show» r => exact Keeps.refl t l'
  | sweep name r => exact Keeps.refl t l'
  | output name r => exact Keeps.refl t l'
  | done r => exact Keeps.refl t l'

/-- A call begins to need its log file when it creates it. -/
theorem reading_step (h : (l.step grepI debug job t).1.pc.reading = true) :
    (l.step grepI debug job t).1.name = l.name ∧ (l.pc.reading = true ∨ l.pc = .create) := by
  unfold Local.step at h ⊢
  cases hpc : l.pc with
  | create => exact ⟨rfl, Or.inr rfl⟩
  | running rest =>
    refine ⟨?_, Or.inl rfl⟩
    cases rest with
    | nil =>
      simp only
      split <;> rfl
    | cons bytes rest => rfl
  | egrep =>
    refine ⟨?_, Or.inl rfl⟩
    simp only [Local.accept]
    split
    · rfl
    · split
      · rfl
      · split <;> rfl
  | grep =>
    refine ⟨?_, Or.inl rfl⟩
    simp only [Local.accept]
    split
    · rfl
    · split <;> rfl
  | test =>
    rw [hpc] at h
    simp only at h
    split at h <;> cases h
  | «show» r =>
    rw [hpc] at h
    cases h
  | sweep name r =>
    rw [hpc] at h
    simp only at h
    split at h
    · cases h
    · split at h <;> cases h
  | output name r =>
    rw [hpc] at h
    cases h
  | rm name r =>
    rw [hpc] at h
    cases h
  | done r =>
    rw [hpc] at h
    simp only [hpc] at h
    cases h

/-! ## The invariant of the system -/

variable {ι : Type} [DecidableEq ι] {jobs : ι → Job}

/-- Calls that need their log files have different ones. -/
structure Inv (grepI : Text → Text → Bool) (jobs : ι → Job) (s : System ι) : Prop where
  call : ∀ i, CallInv grepI (jobs i) s.tmp (s.calls i)
  apart : ∀ i j, i ≠ j → (s.calls i).pc.reading = true → (s.calls j).pc.reading = true → (s.calls i).name ≠ (s.calls j).name

omit [DecidableEq ι] in
theorem Inv.init (jobs : ι → Job) (t : Tmp) : Inv grepI jobs (System.init t) :=
  ⟨fun _ => CallInv.of_before (Or.inl rfl), fun _ _ _ h => (by cases h)⟩

theorem step_tmp (s : System ι) (i : ι) :
    (step grepI debug jobs s i).tmp = ((s.calls i).step grepI debug (jobs i) s.tmp).2 := rfl

theorem step_calls_self (s : System ι) (i : ι) :
    (step grepI debug jobs s i).calls i = ((s.calls i).step grepI debug (jobs i) s.tmp).1 := Function.update_self ..

theorem step_calls_ne {i j : ι} (hij : j ≠ i) (s : System ι) : (step grepI debug jobs s i).calls j = s.calls j :=
  Function.update_of_ne hij ..

/-- A call that begins to need its log file takes a name that no other call needs. -/
theorem Inv.apart_step {s : System ι} (hi : Inv grepI jobs s) {i j : ι} (hok : StepOk s i) (hij : j ≠ i)
    (hread : ((step grepI debug jobs s i).calls i).pc.reading = true) (hj : (s.calls j).pc.reading = true) :
    ((step grepI debug jobs s i).calls i).name ≠ (s.calls j).name := by
  rw [step_calls_self] at hread ⊢
  obtain ⟨hname, hold⟩ := reading_step hread
  rw [hname]
  rcases hold with hold | hcreate
  · exact hi.apart i j hij.symm hold hj
  · intro he
    have hnone := hok.1 hcreate
    have hsome := (hi.call j).file hj
    rw [← he, hnone] at hsome
    cases hsome

theorem Inv.step {s : System ι} (hi : Inv grepI jobs s) {i : ι} (hok : StepOk s i) :
    Inv grepI jobs (step grepI debug jobs s i) := by
  constructor
  · intro j
    rw [step_tmp]
    by_cases hij : j = i
    · rw [hij, step_calls_self]
      exact (hi.call i).step
    · rw [step_calls_ne hij]
      refine (hi.call j).keep fun hj => step_keeps (hi.call i) hok.1 (fun hr => ?_) (hok.2 j hij hj)
      exact hi.apart j i hij hj hr
  · intro a b hab ha hb
    by_cases hai : a = i
    · have hbi : b ≠ i := fun h => hab (hai.trans h.symm)
      rw [step_calls_ne hbi] at hb ⊢
      rw [hai] at ha ⊢
      exact hi.apart_step hok hbi ha hb
    · by_cases hbi : b = i
      · rw [step_calls_ne hai] at ha ⊢
        rw [hbi] at hb ⊢
        exact (hi.apart_step hok hai hb ha).symm
      · rw [step_calls_ne hai] at ha ⊢
        rw [step_calls_ne hbi] at hb ⊢
        exact hi.apart a b hab ha hb

theorem run_inv (t : Tmp) (is : List ι)
    (hok : ∀ pre i post, is = pre ++ i :: post → StepOk (run grepI debug jobs t pre) i) :
    Inv grepI jobs (run grepI debug jobs t is) :=
  foldl_induction (P := fun _ s => Inv grepI jobs s) (Inv.init jobs t) (fun _ _ _ hi hi' => hi.step hi') is hok

theorem run_verdict (t : Tmp) (is : List ι)
    (hok : ∀ pre i post, is = pre ++ i :: post → StepOk (run grepI debug jobs t pre) i) {i : ι} {r : Nat}
    (hr : ((run grepI debug jobs t is).calls i).pc = .done r) : r = verdict grepI (jobs i) :=
  ((run_inv t is hok).call i).result r (by rw [hr]; rfl)

/-! ## A call alone -/

/-- A call that has all steps to itself comes to its end. -/
inductive Ends (grepI : Text → Text → Bool) (debug : Bool) (job : Job) : Local → Tmp → Prop
  | done {l : Local} {t : Tmp} {r : Nat} (h : l.pc = .done r) : Ends grepI debug job l t
  | step {l : Local} {t : Tmp} (h : Ends grepI debug job (l.step grepI debug job t).1 (l.step grepI debug job t).2) :
      Ends grepI debug job l t

theorem Ends.rm {name r : Nat} (hpc : l.pc = .rm name r)
    (h : ∀ {l' : Local} {t' : Tmp}, t'.bound = t.bound → l'.pc = .sweep (name + 1) r → Ends grepI debug job l' t') :
    Ends grepI debug job l t := by
  have hs : l.step grepI debug job t = ({ l with pc := .sweep (name + 1) r }, t.rm name) := by rw [Local.step, hpc]
  refine .step (h ?_ ?_)
  · rw [hs]
    rfl
  · rw [hs]

/-- The chain of names is finite. -/
theorem Ends.sweep (n : Nat) : ∀ {l : Local} {t : Tmp} {name r : Nat}, t.bound - name = n → l.pc = .sweep name r →
    Ends grepI debug job l t := by
  induction n with
  | zero =>
    intro l t name r hn hpc
    have hnone : t.files name = none := t.finite name (by omega)
    refine .step (.done (r := r) ?_)
    simp [Local.step, hpc, hnone]
  | succ n ih =>
    intro l t name r hn hpc
    have hnext : ∀ {l' : Local} {t' : Tmp}, t'.bound = t.bound → l'.pc = .sweep (name + 1) r → Ends grepI debug job l' t' :=
      fun hb hpc' => ih (by omega) hpc'
    refine .step ?_
    simp only [Local.step, hpc]
    split
    · exact .done rfl
    · split
      · exact .step (Ends.rm rfl hnext)
      · exact Ends.rm rfl hnext

theorem Ends.show {r : Nat} (hpc : l.pc = .show r) : Ends grepI debug job l t := by
  have hnext : (l.step grepI debug job t).1.pc = .sweep l.name r := by simp [Local.step, hpc]
  exact .step (Ends.sweep _ rfl hnext)

theorem Ends.accept : Ends grepI debug job (l.accept debug) t := by
  cases debug with
  | false => exact Ends.sweep _ rfl rfl
  | true => exact Ends.show (r := 0) rfl

theorem Ends.grep (hpc : l.pc = .grep) {expect : Text} (hk : job.kind = .negExpect expect) : Ends grepI debug job l t := by
  refine .step ?_
  simp only [Local.step, hpc, hk]
  split
  · exact Ends.accept
  · exact Ends.show (r := 1) rfl

theorem Ends.egrep (hpc : l.pc = .egrep) : Ends grepI debug job l t := by
  refine .step ?_
  simp only [Local.step, hpc]
  split
  · exact Ends.show (r := 1) rfl
  · cases hk : job.kind with
    | pos => exact Ends.accept
    | negExpect expect =>
      simp only
      split
      · exact Ends.grep rfl hk
      · exact Ends.accept

theorem Ends.running (rest : List Text) : ∀ {l : Local} {t : Tmp}, l.pc = .running rest → Ends grepI debug job l t := by
  induction rest with
  | nil =>
    intro l t hpc
    refine .step ?_
    simp only [Local.step, hpc]
    split
    · exact Ends.show rfl
    · exact Ends.egrep rfl
  | cons bytes rest ih =>
    intro l t hpc
    refine .step (ih ?_)
    simp [Local.step, hpc]

theorem Ends.create (hpc : l.pc = .create) : Ends grepI debug job l t := by
  refine .step (Ends.running job.writes ?_)
  simp [Local.step, hpc]

theorem Ends.test (n : Nat) : ∀ {l : Local} {t : Tmp}, t.bound - l.name = n → l.pc = .test → Ends grepI debug job l t := by
  induction n with
  | zero =>
    intro l t hn hpc
    have hnone : t.files l.name = none := t.finite l.name (by omega)
    refine .step (Ends.create ?_)
    simp [Local.step, hpc, hnone]
  | succ n ih =>
    intro l t hn hpc
    refine .step ?_
    cases hf : t.files l.name with
    | none => exact Ends.create (by simp [Local.step, hpc, hf])
    | some x =>
      refine ih ?_ ?_
      · simp [Local.step, hpc, hf]
        omega
      · simp [Local.step, hpc, hf]

/-- A call that is about to create its log file has just seen that the name does not exist. -/
theorem create_step (h : (l.step grepI debug job t).1.pc = .create) :
    (l.step grepI debug job t).2.files (l.step grepI debug job t).1.name = none := by
  unfold Local.step at h ⊢
  cases hpc : l.pc with
  | test =>
    rw [hpc] at h
    simp only at h ⊢
    split at h
    · cases h
    · rename_i hf
      rw [if_neg hf]
      exact Option.not_isSome_iff_eq_none.mp hf
  | create =>
    rw [hpc] at h
    cases h
  | running rest =>
    rw [hpc] at h
    cases rest with
    | nil =>
      simp only at h
      split at h <;> cases h
    | cons bytes rest => cases h
  | egrep =>
    rw [hpc] at h
    simp only [Local.accept] at h
    split at h
    · cases h
    · split at h
      · simp only at h
        split at h <;> cases h
      · split at h
        · cases h
        · simp only at h
          split at h <;> cases h
  | grep =>
    rw [hpc] at h
    simp only [Local.accept] at h
    split at h
    · simp only [hpc] at h
      cases h
    · split at h
      · simp only at h
        split at h <;> cases h
      · cases h
  | «show» r =>
    rw [hpc] at h
    cases h
  | sweep name r =>
    rw [hpc] at h
    simp only at h
    split at h
    · cases h
    · split at h <;> cases h
  | output name r =>
    rw [hpc] at h
    cases h
  | rm name r =>
    rw [hpc] at h
    cases h
  | done r =>
    rw [hpc] at h
    simp only [hpc] at h
    cases h

/-- When only call `i` has taken steps. -/
structure Alone (i : ι) (s : System ι) : Prop where
  others : ∀ j, j ≠ i → (s.calls j).pc.reading = false
  create : (s.calls i).pc = .create → s.tmp.files (s.calls i).name = none

omit [DecidableEq ι] in
theorem Alone.stepOk {i : ι} {s : System ι} (h : Alone i s) : StepOk s i := by
  refine ⟨h.create, fun j hij hj => ?_⟩
  rw [h.others j hij] at hj
  cases hj

theorem Alone.step {i : ι} {s : System ι} (h : Alone i s) : Alone i (step grepI debug jobs s i) := by
  refine ⟨fun j hij => ?_, fun hpc => ?_⟩
  · rw [step_calls_ne hij]
    exact h.others j hij
  · rw [step_calls_self] at hpc ⊢
    exact create_step hpc

theorem Ends.run {i : ι} {l : Local} {t : Tmp} (he : Ends grepI debug (jobs i) l t) : ∀ {s : System ι}, s.calls i = l → s.tmp = t →
    Inv grepI jobs s → Alone i s →
    ∃ n, (((List.replicate n i).foldl (Logapi.step grepI debug jobs) s).calls i).pc = .done (verdict grepI (jobs i)) := by
  induction he with
  | @done l t r hpc =>
    intro s hl ht hi ha
    have hr := (hi.call i).result r (by rw [hl, hpc]; rfl)
    refine ⟨0, ?_⟩
    rw [List.replicate_zero, List.foldl_nil, hl, hpc, hr]
  | step _ ih =>
    intro s hl ht hi ha
    obtain ⟨n, hn⟩ := ih (by rw [step_calls_self, hl, ht]) (by rw [step_tmp, hl, ht]) (hi.step ha.stepOk) ha.step
    refine ⟨n + 1, ?_⟩
    rw [List.replicate_succ, List.foldl_cons]
    exact hn

/-- Alone, a call returns what its command deserves. -/
theorem run_alone (grepI : Text → Text → Bool) (debug : Bool) (jobs : ι → Job) (t : Tmp) (i : ι) :
    ∃ n, ((run grepI debug jobs t (List.replicate n i)).calls i).pc = .done (verdict grepI (jobs i)) :=
  Ends.run (Ends.test _ rfl rfl) rfl rfl (Inv.init jobs t) ⟨fun _ _ => rfl, fun h => (by cases h)⟩

/-- In a run in which no name is taken twice and no call removes a file that another one needs, every call returns what its own
command deserves, and what it returns alone. -/
theorem run_undisturbed (grepI : Text → Text → Bool) (debug : Bool) (jobs : ι → Job) (t : Tmp) (is : List ι)
    (hok : ∀ pre i post, is = pre ++ i :: post → StepOk (run grepI debug jobs t pre) i) (i : ι) (r : Nat)
    (hr : ((run grepI debug jobs t is).calls i).pc = .done r) :
    r = verdict grepI (jobs i) ∧ ∃ n, ((run grepI debug jobs t (List.replicate n i)).calls i).pc = .done r := by
  have hv := run_verdict t is hok hr
  exact ⟨hv, hv ▸ run_alone grepI debug jobs t i⟩

/-- Two commands that succeed; the second one reports an internal error. -/
def twoJobs (i : Bool) : Job := ⟨.pos, if i then ["Internal Error 7".toList] else [], 0⟩

instance {κ : Type} [Fintype κ] [DecidableEq κ] (s : System κ) (i : κ) : Decidable (StepOk s i) :=
  inferInstanceAs (Decidable (((s.calls i).pc = .create → s.tmp.files (s.calls i).name = none) ∧
    ∀ j, j ≠ i → (s.calls j).pc.reading = true → (s.calls i).pc.removes ≠ some (s.calls j).name))

/-- The first call takes its log file, the second one the next name; the first one removes its file when the second one has read
its own. -/
def twoRun : List Bool :=
  [false, false, true, true, true, true, false, true, true, false, false, true, true, true, true, true, false, false, false]

theorem run_undisturbed_two : ((run (fun _ _ => false) false twoJobs .empty twoRun).calls true).pc = .done 1 ∧
    1 = verdict (fun _ _ => false) (twoJobs true) ∧
    ∃ n, ((run (fun _ _ => false) false twoJobs .empty (List.replicate n true)).calls true).pc = .done 1 :=
  ⟨by decide, run_undisturbed _ _ _ _ twoRun (forall_steps (by decide)) true 1 (by decide)⟩

/-- The first call ends and removes the log file of the second one too, which then finds no internal error. -/
theorem not_run_undisturbed : ¬∀ (jobs : Bool → Job) (t : Tmp) (is : List Bool) (i : Bool) (r : Nat),
    ((run (fun _ _ => false) false jobs t is).calls i).pc = .done r → r = verdict (fun _ _ => false) (jobs i) := by
  intro H
  have h := H twoJobs .empty [false, false, true, true, true, true, false, false, false, false, false, false, false, true, true, true]
    true 0 (by decide)
  revert h
  decide

end

end ZfsTest.Logapi
