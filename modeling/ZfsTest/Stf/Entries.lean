import ZfsTest.Stf.Journal

/-!
# One call, one line

Every journal entry is built around one text of the caller (`Call.body`); what stands before it and behind it has no newline
(`Call.before_pure`, `Call.behind_pure`). A call that returns appends its entry, cut to the buffer (`journalCall_ok`), and
hence one line exactly when the text of the caller has no newline and the entry fits, or the cut is right behind the first
newline of that text (`journalCall_oneLine_iff`).
-/

namespace ZfsTest.Stf

/-! ## Texts cut to the buffer -/

/-- A text cut after `n` characters ends with its only newline exactly when the cut, or the end, is right behind the first
newline. -/
theorem take_oneLine_iff {e : Text} (he : '\n' ∈ e) (n : Nat) :
    (∃ b, e.take n = b ++ ['\n'] ∧ '\n' ∉ b) ↔ e.idxOf '\n' + 1 = min n e.length := by
  obtain ⟨u, v, rfl, hu⟩ := List.eq_append_cons_of_mem he
  have hidx : (u ++ '\n' :: v).idxOf '\n' = u.length := by
    rw [List.idxOf_append_of_notMem hu, List.idxOf_cons_self, Nat.add_zero]
  have hlen : (u ++ '\n' :: v).length = u.length + 1 + v.length := by
    rw [List.length_append, List.length_cons]
    omega
  rw [hidx, hlen]
  by_cases hn : n ≤ u.length
  · rw [List.take_append_of_le_length hn]
    constructor
    · rintro ⟨b, hb, -⟩
      refine absurd (List.mem_of_mem_take (i := n) ?_) hu
      rw [hb]
      simp
    · intro h
      omega
  · obtain ⟨k, rfl⟩ : ∃ k, n = u.length + (k + 1) := ⟨n - u.length - 1, by omega⟩
    rw [List.take_length_add_append, List.take_succ_cons]
    constructor
    · rintro ⟨b, hb, hnb⟩
      have hcut : v.take k = [] := by
        rcases List.eq_nil_or_concat (v.take k) with h | ⟨t, x, h⟩
        · exact h
        · rw [h, List.concat_eq_append, ← List.cons_append, ← List.append_assoc] at hb
          obtain ⟨hb', -⟩ := List.append_inj' hb rfl
          exact absurd (hb' ▸ by simp) hnb
      have := congrArg List.length hcut
      rw [List.length_take, List.length_nil] at this
      omega
    · intro h
      refine ⟨u, ?_, hu⟩
      have hcut : v.take k = [] := by
        rw [List.take_eq_nil_iff]
        by_cases hk : k = 0
        · exact Or.inl hk
        · exact Or.inr (List.length_eq_zero_iff.mp (by omega))
      rw [hcut]

/-- An entry built around a text, cut after `n` characters. -/
theorem take_entry_iff {pre body post : Text} (hpre : '\n' ∉ pre) (hpost : '\n' ∉ post) (n : Nat) :
    (∃ b, (pre ++ body ++ post ++ ['\n']).take n = b ++ ['\n'] ∧ '\n' ∉ b) ↔
      ('\n' ∉ body ∧ pre.length + body.length + post.length + 1 ≤ n) ∨
        '\n' ∈ body ∧ pre.length + body.idxOf '\n' + 1 = n := by
  rw [take_oneLine_iff (by simp)]
  have hlen : (pre ++ body ++ post ++ ['\n']).length = pre.length + body.length + post.length + 1 := by
    simp only [List.length_append, List.length_cons, List.length_nil]
  rw [hlen]
  by_cases hb : '\n' ∈ body
  · have hidx : (pre ++ body ++ post ++ ['\n']).idxOf '\n' = pre.length + body.idxOf '\n' := by
      rw [List.append_assoc, List.append_assoc, List.idxOf_append_of_notMem hpre, List.idxOf_append_of_mem hb]
    have hlt := List.idxOf_lt_length_of_mem hb
    rw [hidx]
    simp only [hb, not_true_eq_false, false_and, true_and, false_or]
    omega
  · have hidx : (pre ++ body ++ post ++ ['\n']).idxOf '\n' = pre.length + body.length + post.length := by
      rw [List.idxOf_append_of_notMem, List.idxOf_cons_self, List.length_append, List.length_append, Nat.add_zero]
      simp [hpre, hb, hpost]
    rw [hidx]
    simp only [hb, not_false_eq_true, true_and, false_and, or_false]
    omega

/-! ## The parts of an entry -/

/-- `:subid`. -/
def subText (subId : Text) : Text := if subId = [] then [] else ':' :: subId

/-- `(argid)`. -/
def argText (argId : Text) : Text := if argId = [] then [] else '(' :: argId ++ [')']

/-- The identification of an assertion, `:subid(argid)`. -/
def idText (subId : Text) (argId : Option Text) : Text := subText subId ++ argId.elim [] argText

theorem buildSubId_eq (subId : Text) : buildSubId subId = strcpy MAXCHAR (subText subId) := by
  unfold buildSubId subText
  by_cases hs : subId = []
  · rw [if_neg (by simpa using hs), if_pos hs]
    rfl
  · rw [if_pos hs, if_neg hs]
    rfl

theorem strcpy_append_of_error {n : Nat} {t u : Text} (ht : ¬t.length < n) : strcpy n (t ++ u) = .error .undefined := by
  unfold strcpy
  rw [if_neg]
  rw [List.length_append]
  omega

/-- Two texts appended one after the other. -/
theorem strcat_strcat (n : Nat) (t u v : Text) :
    (strcat n t u >>= fun id => strcat n id v) = strcpy n (t ++ (u ++ v)) := by
  unfold strcat
  by_cases h : (t ++ u).length < n
  · rw [← List.append_assoc, show strcpy n (t ++ u) = .ok (t ++ u) from if_pos h]
    rfl
  · rw [← List.append_assoc, strcpy_append_of_error h, show strcpy n (t ++ u) = .error .undefined from if_neg h]
    rfl

theorem buildArgId_eq {id : Text} (hid : id.length < MAXCHAR) (argId : Text) :
    buildArgId id argId = strcpy MAXCHAR (id ++ argText argId) := by
  unfold buildArgId argText
  by_cases ha : argId = []
  · rw [if_neg (by simpa using ha), if_pos ha, List.append_nil, strcpy, if_pos hid]
    rfl
  · rw [if_pos ha, if_neg ha]
    have h1 := strcat_strcat MAXCHAR id "(".toList argId
    have h2 : (strcat MAXCHAR id "(".toList >>= fun id => strcat MAXCHAR id argId >>= fun id => strcat MAXCHAR id ")".toList) =
        (strcpy MAXCHAR (id ++ ("(".toList ++ argId)) >>= fun id => strcat MAXCHAR id ")".toList) := by
      rw [← h1, bind_assoc]
    apply h2.trans
    exact (strcat_strcat MAXCHAR id ("(".toList ++ argId) ")".toList)

theorem buildId_eq (subId : Text) (argId : Option Text) : buildId subId argId = strcpy MAXCHAR (idText subId argId) := by
  unfold buildId idText
  rw [buildSubId_eq]
  by_cases h : (subText subId).length < MAXCHAR
  · rw [show strcpy MAXCHAR (subText subId) = .ok (subText subId) from if_pos h]
    cases argId with
    | none =>
      rw [Option.elim_none, List.append_nil, strcpy, if_pos h]
      rfl
    | some a => exact buildArgId_eq h a
  · rw [strcpy_append_of_error h, show strcpy MAXCHAR (subText subId) = .error .undefined from if_neg h]
    rfl

/-- The text of the caller in the entry of a call. -/
def Call.body (s : State) : Call → Text
  | .msg _ text => if text = [] then "?".toList else text
  | .testcaseStart _ line => line
  | .testcaseEnd name _ _ => name
  | .assertStart _ subid => s.var Jvars.jasrt ++ idText subid (some (s.var Jvars.jargid))
  | .assertEnd _ _ =>
    s.var Jvars.jasrt ++ idText (s.var Jvars.jsubid) (some (s.var Jvars.jargid))
  | .totals _ idName _ => s.var Jvars.jasrt ++ idText idName none

/-- The process id in an entry. -/
def Call.pid : Call → Int
  | .msg pid _ => pid
  | .testcaseStart pid _ => pid
  | .testcaseEnd _ childPid _ => childPid
  | .assertStart pid _ => pid
  | .assertEnd pid _ => pid
  | .totals pid _ _ => pid

/-- What stands between the process id and the text. -/
def Call.gap : Call → Text
  | .msg _ _ => " | ".toList
  | _ => " ".toList

/-- What stands before the text. -/
def Call.before (a : Call) : Text := a.code ++ "| ".toList ++ intText a.pid ++ a.gap

/-- ` | `. -/
def bar : Text := [' ', '|', ' ']

/-- The time and the activity at the end of an entry. -/
def stamp (env : Env) (activity : Int) : Text := bar ++ getTime env ++ [' '] ++ intText activity ++ [' ', '|']

/-- What stands behind the text, up to the newline. -/
def Call.behind (env : Env) (s : State) : Call → Text
  | .msg _ _ => []
  | .testcaseStart _ _ => stamp env (s.vars.elim (-1) fun v => shortOf v.jact)
  | .testcaseEnd _ _ status => bar ++ (resultField status).text ++ stamp env (s.vars.elim (-1) fun v => (v.jact : Int))
  | .assertStart _ _ => stamp env (s.vars.elim (-1) fun v => shortOf v.jact)
  | .assertEnd _ result => bar ++ getStatusName result ++ stamp env (s.vars.elim (-1) fun v => shortOf v.jact)
  | .totals _ _ resultCts => [' ', '|'] ++ allResults resultCts

/-- The whole entry. -/
def Call.entry (env : Env) (s : State) (a : Call) : Text := a.before ++ a.body s ++ a.behind env s ++ ['\n']

theorem newline_notMem_intText (i : Int) : '\n' ∉ intText i := notMem_intText (by decide) (by decide) i

theorem newline_notMem_natText (n : Nat) : '\n' ∉ natText n := notMem_natText (by decide) n

theorem newline_notMem_padText (n : Nat) : '\n' ∉ padText n := notMem_padText (by decide) n

theorem newline_notMem_snprintf {t : Text} (ht : '\n' ∉ t) (n : Nat) : '\n' ∉ snprintf n t :=
  fun h => ht (List.mem_of_mem_take h)

theorem newline_notMem_resultName (i : Nat) : '\n' ∉ resultName i := by
  unfold resultName
  by_cases hi : i < resultTbl.length
  · rw [List.getD_eq_getElem?_getD, List.getElem?_eq_getElem hi]
    have hall : ∀ t ∈ resultTbl, '\n' ∉ t := by decide
    exact hall _ (List.getElem_mem hi)
  · rw [List.getD_eq_getElem?_getD, List.getElem?_eq_none (Nat.le_of_not_lt hi)]
    exact List.not_mem_nil

theorem newline_notMem_getStatusName (n : Int) : '\n' ∉ getStatusName n := by
  unfold getStatusName
  split
  · exact newline_notMem_resultName _
  · exact newline_notMem_resultName _

theorem newline_notMem_getTime (env : Env) : '\n' ∉ getTime env := by
  refine newline_notMem_snprintf ?_ 32
  simp [newline_notMem_padText, newline_notMem_natText]

theorem newline_notMem_resultField (status : BitVec 32) : '\n' ∉ (resultField status).text := by
  have hname : '\n' ∉ (resultField status).name := by
    unfold resultField
    simp only
    split
    · split <;> exact newline_notMem_getStatusName _
    · split
      · exact newline_notMem_getStatusName _
      · split
        · exact newline_notMem_resultName NORESULT_INDEX
        · exact newline_notMem_getStatusName _
  unfold ResultField.text
  cases (resultField status).exitCode <;> cases (resultField status).signal <;>
    simp [hname, newline_notMem_natText]

theorem newline_notMem_allResults (cts : Fin STF_MAX_RESULTS → Int) : '\n' ∉ allResults cts := by
  unfold allResults
  rw [List.mem_flatMap]
  rintro ⟨i, -, hi⟩
  split at hi
  · refine newline_notMem_snprintf ?_ 20 hi
    simp [newline_notMem_resultName, newline_notMem_intText]
  · exact List.not_mem_nil hi

theorem Call.before_pure (a : Call) : '\n' ∉ a.before := by
  have hcode : '\n' ∉ a.code := by cases a <;> simp only [Call.code] <;> decide
  have hgap : '\n' ∉ a.gap := by cases a <;> simp only [Call.gap] <;> decide
  simp [Call.before, hcode, hgap, newline_notMem_intText]

theorem newline_notMem_stamp (env : Env) (activity : Int) : '\n' ∉ stamp env activity := by
  simp [stamp, bar, newline_notMem_getTime, newline_notMem_intText]

theorem Call.behind_pure (env : Env) (s : State) (a : Call) : '\n' ∉ a.behind env s := by
  cases a with
  | msg pid text => simp [Call.behind]
  | testcaseStart pid line => exact newline_notMem_stamp env _
  | testcaseEnd name childPid status =>
    simp [Call.behind, bar, newline_notMem_stamp, newline_notMem_resultField status]
  | assertStart pid subid => exact newline_notMem_stamp env _
  | assertEnd pid result => simp [Call.behind, bar, newline_notMem_stamp, newline_notMem_getStatusName result]
  | totals pid idName cts => simp [Call.behind, newline_notMem_allResults cts]

/-! ## Calls that return -/

/-- The calls that change the variable file under its mutex. -/
def Call.locks : Call → Bool
  | .testcaseStart _ _ | .testcaseEnd _ _ _ | .assertStart _ _ => true
  | _ => false

/-- The journal can be opened, and the mutex calls succeed. -/
def Ready (env : Env) (s : State) (a : Call) : Prop :=
  env.opens = true ∧ (a.locks = true → s.vars ≠ none → env.lockOk = true ∧ env.unlockOk = true)

/-- The name that `stf_jnl_testcase_start_pid` cuts out of the line. -/
def nameText (env : Env) (line : Text) : Text := ((nameArray env line).takeWhile (· ≠ ' ')).takeWhile (· ≠ '\x00')

/-- Every copy stays in its array. -/
def InBounds (env : Env) (s : State) : Call → Prop
  | .msg _ _ => True
  | .testcaseStart _ line =>
    line.length < MAXCHAR ∧ ' ' ∈ nameArray env line ∧ (s.vars ≠ none → (nameText env line).length < 256)
  | .testcaseEnd _ _ _ => True
  | .assertStart _ subid => (s.vars ≠ none → subid.length < 256) ∧
      (idText subid (some (s.var Jvars.jargid))).length < MAXCHAR
  | .assertEnd _ _ => (idText (s.var Jvars.jsubid) (some (s.var Jvars.jargid))).length < MAXCHAR
  | .totals _ idName _ => (idText idName none).length < MAXCHAR

variable {env : Env} {s s' : State}

theorem strcpy_eq_ok {n : Nat} {t u : Text} : strcpy n t = .ok u ↔ t.length < n ∧ u = t := by
  unfold strcpy
  split
  · rename_i h
    simp [h, eq_comm]
  · rename_i h
    simp [h]

theorem stfJnlOpen_eq_ok {u : Unit} : stfJnlOpen env = .ok u ↔ env.opens = true := by
  unfold stfJnlOpen
  split
  · rename_i h
    simp [h]
  · rename_i h
    simp [h]

/-- A sequence of two steps returns when both do. -/
theorem bind_eq_ok {α β : Type} {x : Except Stop α} {f : α → Except Stop β} {b : β} :
    (x >>= f) = .ok b ↔ ∃ a, x = .ok a ∧ f a = .ok b := by
  cases x with
  | error e => exact iff_of_false (fun h => by cases h) fun ⟨_, h, _⟩ => by cases h
  | ok a => exact ⟨fun h => ⟨a, rfl, h⟩, fun ⟨_, ha, h⟩ => by cases ha; exact h⟩

theorem withMutex_eq_ok {v : Except Stop Jvars} {u : Jvars} :
    withMutex env v = .ok u ↔ env.lockOk = true ∧ env.unlockOk = true ∧ v = .ok u := by
  unfold withMutex
  cases env.lockOk <;> cases env.unlockOk <;> simp [bind_eq_ok, pure, Except.pure]

/-- The mutex calls succeed where the variable file is there. -/
def MutexOk (env : Env) (s : State) : Prop := s.vars ≠ none → env.lockOk = true ∧ env.unlockOk = true

/-- A change of the variable file leaves the journal alone. -/
theorem onVars_ok {activity : Jvars → Int} {change : Jvars → Except Stop Jvars} {x : Int × State}
    (h : onVars env s activity change = .ok x) : MutexOk env s ∧ (∀ v, s.vars = some v → ∃ v', change v = .ok v') ∧
      x.1 = s.vars.elim (-1) activity ∧ x.2.journal = s.journal := by
  obtain ⟨j, vars⟩ := s
  cases vars with
  | none =>
    cases h
    exact ⟨fun hv => absurd rfl hv, fun v hv => absurd hv (by simp), rfl, rfl⟩
  | some v =>
    obtain ⟨v', hv', h⟩ := bind_eq_ok.mp h
    obtain ⟨hl, hu, hc⟩ := withMutex_eq_ok.mp hv'
    cases h
    refine ⟨fun _ => ⟨hl, hu⟩, fun v₁ hv₁ => ?_, rfl, rfl⟩
    cases hv₁
    exact ⟨v', hc⟩

theorem onVars_returns {activity : Jvars → Int} {change : Jvars → Except Stop Jvars} (hm : MutexOk env s)
    (hc : ∀ v, s.vars = some v → ∃ v', change v = .ok v') : ∃ x, onVars env s activity change = .ok x := by
  obtain ⟨j, vars⟩ := s
  cases vars with
  | none => exact ⟨_, rfl⟩
  | some v =>
    obtain ⟨hl, hu⟩ := hm (by simp)
    obtain ⟨v', hv'⟩ := hc v rfl
    exact ⟨_, bind_eq_ok.mpr ⟨v', withMutex_eq_ok.mpr ⟨hl, hu, hv'⟩, rfl⟩⟩

/-- A copy into the variable file. -/
theorem strcpy_change {n : Nat} {t : Text} {f : Text → Jvars} :
    (∃ v', (strcpy n t >>= fun u => (pure (f u) : Except Stop Jvars)) = .ok v') ↔ t.length < n := by
  constructor
  · rintro ⟨v', h⟩
    obtain ⟨u, hu, -⟩ := bind_eq_ok.mp h
    exact (strcpy_eq_ok.mp hu).1
  · intro h
    exact ⟨_, bind_eq_ok.mpr ⟨t, strcpy_eq_ok.mpr ⟨h, rfl⟩, rfl⟩⟩

/-- What a call has written. -/
def Wrote (env : Env) (a : Call) (s s' : State) : Prop :=
  s'.journal = s.journal ++ snprintf (MAXCHAR + 2) (a.entry env s)

theorem buildId_eq_ok {subId : Text} {argId : Option Text} {id : Text} :
    buildId subId argId = .ok id ↔ (idText subId argId).length < MAXCHAR ∧ id = idText subId argId := by
  rw [buildId_eq]
  exact strcpy_eq_ok

theorem testcaseName_eq_ok {line name : Text} : testcaseName env line = .ok name ↔
    line.length < MAXCHAR ∧ ' ' ∈ nameArray env line ∧ name = nameText env line := by
  unfold testcaseName nameText
  rw [bind_eq_ok]
  constructor
  · rintro ⟨t, ht, hn⟩
    obtain ⟨hlt, -⟩ := strcpy_eq_ok.mp ht
    split at hn
    · rename_i hb
      exact ⟨hlt, hb, (Except.ok.inj hn).symm⟩
    · cases hn
  · rintro ⟨hlt, hb, rfl⟩
    refine ⟨line, strcpy_eq_ok.mpr ⟨hlt, rfl⟩, ?_⟩
    rw [if_pos hb]
    rfl

/-- The entry of a call as its `snprintf` writes it. -/
theorem wrote_of_eq {a : Call} {t : Text} (ht : t = a.entry env s) (hs : s'.journal = s.journal) :
    Wrote env a s (printEntry t s') := by
  rw [Wrote, printEntry, ht, hs]

/-- A call that returns was ready, stayed in bounds and has written its entry. -/
theorem journalCall_ok {a : Call} (h : journalCall env a s = .ok s') :
    Ready env s a ∧ InBounds env s a ∧ Wrote env a s s' := by
  cases a with
  | msg pid text =>
    obtain ⟨u, ho, h⟩ := bind_eq_ok.mp (show stfJnlOpen env >>= _ = _ from h)
    cases h
    refine ⟨⟨stfJnlOpen_eq_ok.mp ho, fun h => by cases h⟩, trivial, wrote_of_eq ?_ rfl⟩
    simp [Call.entry, Call.before, Call.body, Call.behind, Call.code, Call.gap, Call.pid]
  | testcaseStart pid line =>
    obtain ⟨u, ho, h⟩ := bind_eq_ok.mp (show stfJnlOpen env >>= _ = _ from h)
    obtain ⟨name, hn, h⟩ := bind_eq_ok.mp h
    obtain ⟨hlt, hb, rfl⟩ := testcaseName_eq_ok.mp hn
    obtain ⟨⟨act, s₁⟩, hv, h⟩ := bind_eq_ok.mp h
    obtain ⟨hm, hc, rfl, hj⟩ := onVars_ok hv
    cases h
    refine ⟨⟨stfJnlOpen_eq_ok.mp ho, fun _ => hm⟩, ⟨hlt, hb, fun hs => ?_⟩, wrote_of_eq ?_ hj⟩
    · obtain ⟨v, hv⟩ := Option.ne_none_iff_exists'.mp hs
      exact strcpy_change.mp (hc v hv)
    · simp [Call.entry, Call.before, Call.body, Call.behind, Call.code, Call.gap, Call.pid, stamp, bar]
  | testcaseEnd name childPid status =>
    obtain ⟨u, ho, h⟩ := bind_eq_ok.mp (show stfJnlOpen env >>= _ = _ from h)
    obtain ⟨⟨act, s₁⟩, hv, h⟩ := bind_eq_ok.mp h
    obtain ⟨hm, -, rfl, hj⟩ := onVars_ok hv
    cases h
    refine ⟨⟨stfJnlOpen_eq_ok.mp ho, fun _ => hm⟩, trivial, wrote_of_eq ?_ hj⟩
    simp [Call.entry, Call.before, Call.body, Call.behind, Call.code, Call.gap, Call.pid, stamp, bar]
  | assertStart pid subid =>
    obtain ⟨u, ho, h⟩ := bind_eq_ok.mp (show stfJnlOpen env >>= _ = _ from h)
    obtain ⟨⟨act, s₁⟩, hv, h⟩ := bind_eq_ok.mp h
    obtain ⟨hm, hc, rfl, hj⟩ := onVars_ok hv
    obtain ⟨id, hid, h⟩ := bind_eq_ok.mp h
    obtain ⟨hlt, rfl⟩ := buildId_eq_ok.mp hid
    cases h
    refine ⟨⟨stfJnlOpen_eq_ok.mp ho, fun _ => hm⟩, ⟨fun hs => ?_, hlt⟩, wrote_of_eq ?_ hj⟩
    · obtain ⟨v, hv⟩ := Option.ne_none_iff_exists'.mp hs
      exact strcpy_change.mp (hc v hv)
    · simp [Call.entry, Call.before, Call.body, Call.behind, Call.code, Call.gap, Call.pid, stamp, bar]
  | assertEnd pid result =>
    obtain ⟨u, ho, h⟩ := bind_eq_ok.mp (show stfJnlOpen env >>= _ = _ from h)
    obtain ⟨id, hid, h⟩ := bind_eq_ok.mp h
    obtain ⟨hlt, rfl⟩ := buildId_eq_ok.mp hid
    cases h
    refine ⟨⟨stfJnlOpen_eq_ok.mp ho, fun h => by cases h⟩, hlt, wrote_of_eq ?_ rfl⟩
    simp [Call.entry, Call.before, Call.body, Call.behind, Call.code, Call.gap, Call.pid, stamp, bar]
  | totals pid idName cts =>
    obtain ⟨u, ho, h⟩ := bind_eq_ok.mp (show stfJnlOpen env >>= _ = _ from h)
    obtain ⟨id, hid, h⟩ := bind_eq_ok.mp h
    obtain ⟨hlt, rfl⟩ := buildId_eq_ok.mp hid
    cases h
    refine ⟨⟨stfJnlOpen_eq_ok.mp ho, fun h => by cases h⟩, hlt, wrote_of_eq ?_ rfl⟩
    simp [Call.entry, Call.before, Call.body, Call.behind, Call.code, Call.gap, Call.pid]

/-- A call that is ready and stays in bounds returns. -/
theorem journalCall_returns {a : Call} (hr : Ready env s a) (hb : InBounds env s a) : ∃ s', journalCall env a s = .ok s' := by
  have ho : stfJnlOpen env = .ok () := stfJnlOpen_eq_ok.mpr hr.1
  cases a with
  | msg pid text => exact ⟨_, bind_eq_ok.mpr ⟨(), ho, rfl⟩⟩
  | testcaseStart pid line =>
    obtain ⟨hlt, hsp, hn⟩ := hb
    have hname := testcaseName_eq_ok.mpr ⟨hlt, hsp, rfl⟩
    obtain ⟨x, hx⟩ := onVars_returns
      (hr.2 rfl) fun v hv => strcpy_change.mpr (hn (by rw [hv]; exact Option.some_ne_none v))
    exact ⟨_, bind_eq_ok.mpr ⟨(), ho, bind_eq_ok.mpr ⟨_, hname, bind_eq_ok.mpr ⟨x, hx, rfl⟩⟩⟩⟩
  | testcaseEnd name childPid status =>
    obtain ⟨x, hx⟩ := onVars_returns (hr.2 rfl) fun v _ => ⟨_, rfl⟩
    exact ⟨_, bind_eq_ok.mpr ⟨(), ho, bind_eq_ok.mpr ⟨x, hx, rfl⟩⟩⟩
  | assertStart pid subid =>
    obtain ⟨hsub, hid⟩ := hb
    obtain ⟨x, hx⟩ := onVars_returns
      (hr.2 rfl) fun v hv => strcpy_change.mpr (hsub (by rw [hv]; exact Option.some_ne_none v))
    exact ⟨_, bind_eq_ok.mpr ⟨(), ho, bind_eq_ok.mpr ⟨x, hx, bind_eq_ok.mpr ⟨_, buildId_eq_ok.mpr ⟨hid, rfl⟩, rfl⟩⟩⟩⟩
  | assertEnd pid result => exact ⟨_, bind_eq_ok.mpr ⟨(), ho, bind_eq_ok.mpr ⟨_, buildId_eq_ok.mpr ⟨hb, rfl⟩, rfl⟩⟩⟩
  | totals pid idName cts => exact ⟨_, bind_eq_ok.mpr ⟨(), ho, bind_eq_ok.mpr ⟨_, buildId_eq_ok.mpr ⟨hb, rfl⟩, rfl⟩⟩⟩

/-! ## One line -/

/-- One line of the journal with a reference code. -/
def OneLine (code t : Text) : Prop := code ++ ['|'] <+: t ∧ ∃ b, t = b ++ ['\n'] ∧ '\n' ∉ b

/-- The text of the caller has no newline and the entry fits in the buffer, or the entry is cut right behind the first newline
of that text. -/
def CutClean (env : Env) (s : State) (a : Call) : Prop :=
  ('\n' ∉ a.body s ∧ a.before.length + (a.body s).length + (a.behind env s).length + 1 ≤ MAXCHAR + 1) ∨
    '\n' ∈ a.body s ∧ a.before.length + (a.body s).idxOf '\n' + 1 = MAXCHAR + 1

/-- A call appends exactly one line, with its reference code, if and only if it is ready, every copy stays in bounds, and the
text of the caller has no newline and fits (or is cut right behind its first newline). -/
theorem journalCall_oneLine_iff (env : Env) (s : State) (a : Call) :
    (∃ s' line, journalCall env a s = .ok s' ∧ s'.journal = s.journal ++ line ∧ OneLine a.code line) ↔
      Ready env s a ∧ InBounds env s a ∧ CutClean env s a := by
  have hcut := @take_entry_iff _ (a.body s) _ a.before_pure (a.behind_pure env s) (MAXCHAR + 1)
  constructor
  · rintro ⟨s', line, h, hj, -, hline⟩
    obtain ⟨hr, hb, hw⟩ := journalCall_ok h
    have hl : line = (a.entry env s).take (MAXCHAR + 1) := List.append_cancel_left (hj.symm.trans hw)
    rw [hl] at hline
    exact ⟨hr, hb, hcut.mp hline⟩
  · rintro ⟨hr, hb, hc⟩
    obtain ⟨s', h⟩ := journalCall_returns hr hb
    obtain ⟨-, -, hw⟩ := journalCall_ok h
    refine ⟨s', _, h, hw, ?_, hcut.mpr hc⟩
    have hpre : a.code ++ ['|'] <+: a.entry env s := by
      refine ⟨" ".toList ++ intText a.pid ++ a.gap ++ a.body s ++ a.behind env s ++ ['\n'], ?_⟩
      simp [Call.entry, Call.before]
    have hlen : (a.code ++ ['|']).length ≤ MAXCHAR + 1 := by cases a <;> simp only [Call.code] <;> decide
    exact List.prefix_take_iff.mpr ⟨hpre, hlen⟩

/-- Surroundings in which every call is ready. -/
def Env.sample : Env := ⟨true, true, true, 12, 30, 5, 1000, fun _ => ' '⟩

/-- A message with a newline makes two lines. -/
theorem not_journalCall_oneLine : ¬∀ (env : Env) (s : State) (pid : Int) (msg : Text), env.opens = true →
    ∃ s' line, journalCall env (.msg pid msg) s = .ok s' ∧ s'.journal = s.journal ++ line ∧ OneLine JNL_MSG line := by
  intro H
  obtain ⟨s', line, h, hj, -, b, hb, hn⟩ := H .sample ⟨[], none⟩ 1 "a\nb".toList rfl
  have hrun : journalCall .sample (.msg 1 "a\nb".toList) ⟨[], none⟩ = .ok ⟨"Msg| 1 | a\nb\n".toList, none⟩ := by rfl
  rw [hrun] at h
  cases h
  have hline : "Msg| 1 | a\nb\n".toList = b ++ ['\n'] := hj.trans hb
  have hb' : b = "Msg| 1 | a\nb".toList := by
    have h := congrArg List.dropLast hline
    rw [List.dropLast_concat] at h
    exact h.symm
  exact hn (by rw [hb']; decide)

end ZfsTest.Stf
