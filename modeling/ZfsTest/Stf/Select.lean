import Mathlib.Logic.Function.Iterate
import ZfsTest.Text.Ksh
import ZfsTest.Stf.Execute
import ZfsTest.Stf.Wordlist

/-!
# Selected test cases

`stf_execute` takes names and patterns of test cases. `stf_scanindir` looks for them from the start directory on: it keeps the
patterns that match (`stf_exist_cases`) and directories to enter (`stf_match_paths`). From these the list of patterns is written
again, patterns that are left over are reported, and the run enters the directories on the way to one of the paths and runs the test
cases that match the new list.

The patterns that match are handed on without quotes, so the shell expands them against the working directory before they are
kept; the lists of patterns are put together by `eval` and printed without quotes too, so that what stands between two patterns in such a
list is expanded as well. When that leaves the patterns alone (`Undisturbed`), the selection is what was asked for (`stfExecute_exact`).
-/

namespace ZfsTest.Stf

open Glob (Literal)
open ZfsTest.Ksh (matchesText pathnames cutFront)

/-! ## Filters -/

section

variable (sh : Ksh)

/-- The patterns of a list that may begin with `~`, and whether it does. -/
def filterOf (patterns : Text) : Bool × List Text :=
  if patterns.head? = some '~' then (true, split patterns.tail) else (false, split patterns)

/-- The items of a list that match one of the patterns, or none of them. The items are expanded in a directory with the names
`files`. -/
def listFilter (files : List Text) (list patterns : Text) : Text :=
  let (negated, pats) := filterOf patterns
  let items := (split list).flatMap (pathnames files)
  let olist := (items.filter fun item => (pats.any fun p => matchesText p item) != negated).flatMap fun item => ' ' :: item
  sh.echo (joined (split olist))

/-- The patterns that match an item. Under `set -f` no pathname is seen. -/
def patternFilter (item patterns : Text) : Text :=
  let (negated, pats) := filterOf patterns
  let hits := pats.filter fun p => matchesText p item
  let matchList :=
    if negated then (if hits = [] then patterns else []) else hits.foldl (fun list p => wordAdd_ sh [] "match_list".toList list [p]) []
  sh.echo (joined (split matchList))

end

/-! ## `stf_scanindir` -/

/-- The directory as a text. -/
def reldir (p : Path) : Text := ['/'].intercalate p

/-- `stf_exist_cases` and `stf_match_paths`. -/
structure Scan where
  existCases : Text
  matchPaths : List Text

section

variable (sh : Ksh) (files : List Text) (testList : Text)

/-- The loop over the test cases of a file, with `found` and `stf_exist_cases`. -/
def scanFile : List Name → Bool × Text → Bool × Text
  | [], x => x
  | t :: ts, (found, existCases) =>
    let matchList := patternFilter sh t testList
    if matchList = [] then scanFile ts (found, existCases)
    else if existCases.length = testList.length then (true, existCases)
    else scanFile ts (true, wordAdd_ sh files "stf_exist_cases".toList existCases ((split matchList).flatMap (pathnames files)))

/-- A path is saved in the place of the first one that it goes on from. -/
def savePath (dir : Text) : List Text → List Text
  | [] => [dir]
  | path :: paths => if matchesText (path ++ "/*".toList) (dir ++ ['/']) then dir :: paths else path :: savePath dir paths

/-- The files of one directory. -/
def scanDir (dir : Dir) (p : Path) (st : Scan) : Scan :=
  let (found, existCases) :=
    scanFile sh files testList dir.userTestcases (scanFile sh files testList dir.rootTestcases (false, st.existCases))
  ⟨existCases, if found then savePath (reldir p) st.matchPaths else st.matchPaths⟩

/-- It fails on a directory without a description. -/
def scanindir (recurse : Bool) : Tree Dir → Path → Scan → Option Scan
  | .missing, _, _ => none
  | .node dir sub, p, st =>
    (if recurse then dir.subdirs.1 else []).foldlM (fun st name => scanindir recurse (sub name) (p ++ [name]) st)
      (scanDir sh files testList dir p st)

end

/-! ## `stf_execute` -/

section

variable (sh : Ksh)

/-- The words are taken out of the list until its length stays. -/
def deleteLoop (files ws : List Text) : Nat → Text → Text
  | 0, list => list
  | n + 1, list =>
    let list' := wordDelete_ sh files "test_list".toList list ws
    if list'.length = list.length then list' else deleteLoop files ws n list'

/-- What comes of the test list: an error, or the list to run, the names that could not be found, and `stf_match_paths`. -/
inductive Lookup
  | scanFailed
  | noneFound
  | found (testList notFound : Text) (matchPaths : List Text)

/-- The lookup of the test list, in a working directory with the names `files`. -/
def lookup (files : List Text) (recurse : Bool) (t : Tree Dir) (start : Path) (testList : Text) : Lookup :=
  if testList = [] then .found [] [] []
  else
    match scanindir sh files testList recurse t start ⟨[], []⟩ with
    | none => .scanFailed
    | some st =>
      if st.matchPaths = [] then .noneFound
      else if st.existCases = testList then .found testList [] st.matchPaths
      else
        let notFound :=
          if testList.head? = some '~' then []
          else deleteLoop sh files ((split st.existCases).flatMap (pathnames files)) (testList.length + 1) testList
        .found st.existCases notFound st.matchPaths

/-- What runs. `results` are the names in the results directory, in which the shell is then. -/
def selection (results : Path → List Text) (recurse : Bool) (testList : Text) (matchPaths : List Text) : Selection where
  recurse := recurse
  visits p n := testList.isEmpty || matchPaths.any fun path =>
    !(listFilter sh (results p) (cutFront (reldir p ++ ['/']) path ++ ['/']) (n ++ "/*".toList)).isEmpty
  runs p t := testList.isEmpty || !(listFilter sh (results p) t testList).isEmpty

/-- The message about test cases that could not be found: none, all of them, or the ones listed. -/
inductive Message
  | none
  | any
  | list (names : Text)
  deriving DecidableEq, Repr

/-- `\"$test_list\"` in the message, without its two quotes. -/
def quotedList (files : List Text) (list : Text) : Text :=
  (joined ((split (['"'] ++ (list ++ ['"']))).flatMap (pathnames files))).tail.dropLast

/-- The message, the exit status of a mode, and what has been run in it. -/
def stfExecute (files : List Text) (results : Path → List Text) (recurse : Bool) (root : Tree Dir) (start : Path)
    (args : List Text) : Message × Nat × List Event :=
  match lookup sh files recurse (root.at start) start (joined args) with
  | .scanFailed => (.none, 2, [])
  | .noneFound => (.any, 2, [])
  | .found testList notFound matchPaths =>
    (if notFound = [] then .none else .list (quotedList files notFound),
      executeMode (selection sh results recurse testList matchPaths) root start)

end

/-! ## What the selection should be -/

/-- The configured test cases of a directory and below it, in the order of the run. -/
def Tree.tests : Tree Dir → Path → List (Path × Name)
  | .missing, _ => []
  | .node dir sub, p =>
    dir.testcases.map (Prod.mk p) ++ dir.subdirs.1.flatMap fun name => Tree.tests (sub name) (p ++ [name])

def Event.test? : Event → Option (Path × Name)
  | .test p name => some (p, name)
  | _ => none

/-- The names in the message, for given patterns. -/
def Message.names (args : List Text) : Message → List Text
  | .none => []
  | .any => args
  | .list names => split names

/-- The test cases that run are the configured ones that match a given pattern, and the message lists the patterns that match none. -/
structure Exact (configured : List (Path × Name)) (args : List Text) (r : Message × Nat × List Event) : Prop where
  runs : r.2.2.filterMap Event.test? = configured.filter fun x => args.any fun p => matchesText p x.2
  missing : r.1.names args = args.filter fun p => !configured.any fun x => matchesText p x.2

/-- A given pattern: one word, without `~`. -/
structure Given (p : Text) : Prop where
  plain : Plain p
  tilde : '~' ∉ p

/-- The name of a directory. -/
structure DirName (n : Name) : Prop where
  plain : Plain n
  literal : Literal n
  list : '(' ∉ n
  tilde : n.head? ≠ some '~'
  slash : '/' ∉ n

def Dir.succeeds (dir : Dir) : Bool := !dir.failMark && dir.reachesSetup && dir.setups.all Script.ok

/-- All directories are there, are configured, and are set up with success. -/
def Tree.Succeeds : Tree Dir → Prop
  | .missing => False
  | .node dir sub => dir.succeeds = true ∧ dir.configured = true ∧ ∀ n ∈ dir.subdirs.1, (sub n).Succeeds

/-- The shell does not change the names of the test cases and directories. -/
def Tree.Named (results : Path → List Text) : Tree Dir → Path → Prop
  | .missing, _ => True
  | .node dir sub, p => (∀ t ∈ dir.testcases, Plain t ∧ pathnames (results p) t = [t]) ∧
      ∀ n ∈ dir.subdirs.1, DirName n ∧ Tree.Named results (sub n) (p ++ [n])

/-! ## The filters on plain words -/

variable {sh : Ksh} {pats : List Text}

theorem filterOf_joined (hpats : ∀ p ∈ pats, Given p) : filterOf (joined pats) = (false, pats) := by
  have htilde : (joined pats).head? ≠ some '~' := by
    intro h
    rcases mem_joined (List.mem_of_head? h) with h | ⟨p, hp, hc⟩
    · cases h
    · exact (hpats p hp).tilde hc
  rw [filterOf, if_neg htilde, split_joined fun p hp => (hpats p hp).plain]

/-- One item that the shell leaves alone. -/
theorem listFilter_one {files : List Text} {item patterns : Text} (hitem : Plain item) (hfiles : pathnames files item = [item])
    (hpats : filterOf patterns = (false, pats)) :
    listFilter sh files item patterns = if pats.any (fun p => matchesText p item) then item else [] := by
  have hsplit : split item = [item] := words_single hitem.blank hitem.ne_nil
  have hblank : split (' ' :: item) = [item] := by
    have hc : isIfs ' ' = true := rfl
    have h := words_append hc [] item
    rw [words_nil, List.nil_append, List.nil_append] at h
    rw [split, h]
    exact hsplit
  have hone : ∀ w ∈ [item], Plain w := fun w hw => (List.mem_singleton.mp hw) ▸ hitem
  unfold listFilter
  rw [hpats]
  simp only [hsplit, List.flatMap_cons, List.flatMap_nil, List.append_nil, hfiles]
  simp only [List.filter_cons, List.filter_nil, Bool.bne_false]
  by_cases h : pats.any (fun p => matchesText p item) = true
  · rw [if_pos h, if_pos h, List.flatMap_cons, List.flatMap_nil, List.append_nil, hblank]
    exact echo_joined hone sh
  · rw [if_neg h, if_neg h]
    exact echo_joined plain_nil sh

theorem listFilter_ne_nil {files : List Text} {item patterns : Text} (hitem : Plain item) (hfiles : pathnames files item = [item])
    (hpats : filterOf patterns = (false, pats)) :
    (!(listFilter sh files item patterns).isEmpty) = pats.any fun p => matchesText p item := by
  rw [listFilter_one hitem hfiles hpats]
  cases pats.any fun p => matchesText p item with
  | true => simp [hitem.ne_nil]
  | false => rfl

/-- The given patterns that match, each once. -/
def matching (pats : List Text) (t : Name) : List Text := (pats.filter fun p => matchesText p t).foldl insertWord []

theorem mem_matching {t : Name} {p : Text} : p ∈ matching pats t ↔ p ∈ pats ∧ matchesText p t = true := by
  simp [matching, mem_insertWords]

theorem plain_matching (hpats : ∀ p ∈ pats, Given p) (t : Name) : ∀ p ∈ matching pats t, Plain p :=
  fun p hp => (hpats p (mem_matching.mp hp).1).plain

theorem pathnames_nil (w : Text) : pathnames [] w = [w] := ite_self _

theorem of_all_whole {w : Text} (h : w.all (fun c => !isIfs c) = true) : ∀ c ∈ w, isIfs c = false := by
  simpa using h

theorem foldl_wordAdd_ {ws vs : List Text} (hws : ∀ w ∈ ws, Plain w) (hvs : ∀ v ∈ vs, Plain v) :
    vs.foldl (fun list p => wordAdd_ sh [] "match_list".toList list [p]) (joined ws) = joined (vs.foldl insertWord ws) := by
  induction vs generalizing ws with
  | nil => rfl
  | cons v vs ih =>
    have hv : ∀ w ∈ [v], Plain w := fun w hw => hvs w ((List.mem_singleton.mp hw) ▸ List.mem_cons_self)
    rw [List.foldl_cons, wordAdd_joined hws hv sh (of_all_whole (by decide)) fun w _ => pathnames_nil w]
    exact ih (plain_insertWords hws hv) fun u hu => hvs u (List.mem_cons_of_mem _ hu)

theorem patternFilter_joined (hpats : ∀ p ∈ pats, Given p) (t : Name) :
    patternFilter sh t (joined pats) = joined (matching pats t) := by
  have hhits : ∀ p ∈ pats.filter (fun p => matchesText p t), Plain p := fun p hp => (hpats p (List.mem_of_mem_filter hp)).plain
  have hfold : (pats.filter fun p => matchesText p t).foldl (fun list p => wordAdd_ sh [] "match_list".toList list [p]) [] =
      joined (matching pats t) :=
    foldl_wordAdd_ plain_nil hhits
  unfold patternFilter
  rw [filterOf_joined hpats]
  simp only [Bool.false_eq_true, if_false, hfold, split_joined (plain_matching hpats t)]
  exact echo_joined (plain_matching hpats t) sh

/-! ## The scan -/

/-- The test on the lengths of the lists: when nothing is listed twice, lists of one length have the same words. -/
theorem subset_of_length {ws : List Text} (hpats : ∀ p ∈ pats, Plain p) (hnodup : ws.Nodup) (hsub : ws ⊆ pats)
    (hlen : (joined ws).length = (joined pats).length) : pats ⊆ ws := by
  have hperm := hnodup.subperm hsub
  rw [length_joined, length_joined] at hlen
  rcases Nat.lt_or_ge ws.length pats.length with hlt | hge
  · obtain ⟨p, hp⟩ := hperm.exists_of_length_lt hlt
    have hbody := body_le hp
    have hpos : 0 < p.length := List.length_pos_iff.mpr (hpats p (hp.subset List.mem_cons_self)).ne_nil
    rw [body_cons, List.length_cons, List.length_append] at hbody
    omega
  · exact (hperm.perm_of_length_le hge).symm.subset

/-- A test case that matches a given pattern. -/
def Matched (pats : List Text) (t : Name) : Prop := ∃ p ∈ pats, matchesText p t = true

/-- What a scan keeps of the patterns, one test case after the other. -/
def collect (pats : List Text) (ws : List Text) (ts : List Name) : List Text :=
  ts.foldl (fun ws t => (matching pats t).foldl insertWord ws) ws

theorem mem_collect {ws : List Text} {ts : List Name} {p : Text} :
    p ∈ collect pats ws ts ↔ p ∈ ws ∨ p ∈ pats ∧ ∃ t ∈ ts, matchesText p t = true := by
  induction ts generalizing ws with
  | nil => simp [collect]
  | cons t ts ih =>
    have hcons : collect pats ws (t :: ts) = collect pats ((matching pats t).foldl insertWord ws) ts := rfl
    rw [hcons, ih, mem_insertWords, mem_matching, or_assoc, ← and_or_left, List.exists_mem_cons_iff]

theorem nodup_collect {ws : List Text} (h : ws.Nodup) (ts : List Name) : (collect pats ws ts).Nodup := by
  induction ts generalizing ws with
  | nil => exact h
  | cons t ts ih => exact ih (nodup_insertWords h _)

theorem collect_of_subset {ws : List Text} (h : pats ⊆ ws) (ts : List Name) : collect pats ws ts = ws := by
  induction ts with
  | nil => rfl
  | cons t ts ih =>
    have hcons : collect pats ws (t :: ts) = collect pats ((matching pats t).foldl insertWord ws) ts := rfl
    rw [hcons, insertWords_of_mem fun p hp => h (mem_matching.mp hp).1, ih]

instance (t : Name) : Decidable (Matched pats t) := inferInstanceAs (Decidable (∃ p ∈ pats, matchesText p t = true))

theorem matching_eq_nil {t : Name} : matching pats t = [] ↔ ¬Matched pats t := by
  constructor
  · rintro h ⟨p, hp, hg⟩
    have hmem := mem_matching.mpr ⟨hp, hg⟩
    rw [h] at hmem
    cases hmem
  · intro h
    rw [List.eq_nil_iff_forall_not_mem]
    exact fun p hp => h ⟨p, (mem_matching.mp hp).1, (mem_matching.mp hp).2⟩

theorem joined_eq_nil {ws : List Text} (hws : ∀ w ∈ ws, Plain w) : joined ws = [] ↔ ws = [] := by
  constructor
  · intro h
    have hsplit := split_joined hws
    rw [h] at hsplit
    exact hsplit.symm
  · rintro rfl
    rfl

/-- A pattern that matches a test case is expanded to itself. -/
def Kept (pats files : List Text) (t : Name) : Prop := ∀ p ∈ pats, matchesText p t = true → pathnames files p = [p]

section

variable (hpats : ∀ p ∈ pats, Given p) {files : List Text}

include hpats

theorem plain_given : ∀ p ∈ pats, Plain p := fun p hp => (hpats p hp).plain

/-- The loop over the test cases of a file. -/
theorem scanFile_joined {ts : List Name} (hkept : ∀ t ∈ ts, Kept pats files t) {ws : List Text} (hnodup : ws.Nodup)
    (hsub : ws ⊆ pats) (hlists : ∀ us, us <+: ts → Unexpanded files (opening "stf_exist_cases".toList) (collect pats ws us))
    (found : Bool) :
    scanFile sh files (joined pats) ts (found, joined ws) =
      (found || ts.any fun t => decide (Matched pats t), joined (collect pats ws ts)) := by
  induction ts generalizing ws found with
  | nil =>
    rw [List.any_nil, Bool.or_false]
    rfl
  | cons t ts ih =>
    have hname : ∀ c ∈ "stf_exist_cases".toList, isIfs c = false := of_all_whole (by decide)
    have hkept' : ∀ t ∈ ts, Kept pats files t := fun u hu => hkept u (List.mem_cons_of_mem _ hu)
    have hcons : ∀ us, collect pats ws (t :: us) = collect pats ((matching pats t).foldl insertWord ws) us := fun _ => rfl
    have hlists' : ∀ us, us <+: ts →
        Unexpanded files (opening "stf_exist_cases".toList) (collect pats ((matching pats t).foldl insertWord ws) us) := fun us hus =>
      hlists (t :: us) (List.cons_prefix_cons.mpr ⟨rfl, hus⟩)
    have hplain := plain_matching hpats t
    have hws : ∀ w ∈ ws, Plain w := fun w hw => plain_given hpats w (hsub hw)
    rw [scanFile, patternFilter_joined hpats]
    simp only [joined_eq_nil hplain, matching_eq_nil]
    by_cases hm : Matched pats t
    · have hfound : (found || (t :: ts).any fun t => decide (Matched pats t)) = true := by simp [hm]
      rw [if_neg (not_not.mpr hm), hfound]
      split
      · rename_i hlen
        rw [collect_of_subset (subset_of_length (plain_given hpats) hnodup hsub hlen)]
      · have hexpand : (matching pats t).flatMap (pathnames files) = matching pats t :=
          flatMap_alone fun p hp => hkept t List.mem_cons_self p (mem_matching.mp hp).1 (mem_matching.mp hp).2
        have hsub' : (matching pats t).foldl insertWord ws ⊆ pats := fun p hp =>
          (mem_insertWords.mp hp).elim (fun h => hsub h) fun h => (mem_matching.mp h).1
        rw [split_joined hplain, hexpand, wordAdd_joined hws hplain sh hname (hlists' [] List.nil_prefix), hcons,
          ih hkept' (nodup_insertWords hnodup _) hsub' hlists', Bool.true_or]
    · have hnil : matching pats t = [] := matching_eq_nil.mpr hm
      rw [hnil] at hcons hlists'
      rw [if_pos hm, ih hkept' hnodup hsub hlists', List.any_cons, decide_eq_false hm, Bool.false_or, hcons]
      rfl

end

/-! ## Directories as texts -/

/-- A directory with a slash behind each name. -/
def slashed (p : Path) : Text := p.flatMap fun n => n ++ ['/']

theorem slashed_append (p q : Path) : slashed (p ++ q) = slashed p ++ slashed q := List.flatMap_append

theorem reldir_slash {p : Path} (h : p ≠ []) : reldir p ++ ['/'] = slashed p := by
  induction p with
  | nil => exact absurd rfl h
  | cons n p ih =>
    cases p with
    | nil => simp [reldir, slashed, List.intercalate]
    | cons m p =>
      have hrest := ih (List.cons_ne_nil m p)
      have hcons : reldir (n :: m :: p) = n ++ '/' :: reldir (m :: p) := by simp [reldir, List.intercalate]
      rw [hcons, List.append_assoc, List.cons_append, hrest]
      simp [slashed]

theorem mem_reldir {p : Path} {c : Char} (h : c ∈ reldir p) : c = '/' ∨ ∃ n ∈ p, c ∈ n := by
  by_cases hp : p = []
  · rw [hp] at h
    cases h
  · have hmem : c ∈ slashed p := by
      rw [← reldir_slash hp]
      exact List.mem_append_left _ h
    obtain ⟨n, hn, hc⟩ := List.mem_flatMap.mp hmem
    rcases List.mem_append.mp hc with hc | hc
    · exact Or.inr ⟨n, hn, hc⟩
    · exact Or.inl (List.mem_singleton.mp hc)

/-- The characters of a directory. -/
structure DirText (t : Text) : Prop where
  blank : ∀ c ∈ t, isIfs c = false
  special : ∀ c ∈ t, isSpecial c = false
  literal : Literal t
  list : '(' ∉ t

theorem DirText.append {s t : Text} (hs : DirText s) (ht : DirText t) : DirText (s ++ t) :=
  ⟨fun c hc => (List.mem_append.mp hc).elim (hs.blank c) (ht.blank c),
    fun c hc => (List.mem_append.mp hc).elim (hs.special c) (ht.special c),
    fun c hc => (List.mem_append.mp hc).elim (hs.literal c) (ht.literal c),
    fun hc => (List.mem_append.mp hc).elim hs.list ht.list⟩

theorem DirText.right {s t : Text} (h : DirText (s ++ t)) : DirText t :=
  ⟨fun c hc => h.blank c (List.mem_append_right s hc), fun c hc => h.special c (List.mem_append_right s hc),
    fun c hc => h.literal c (List.mem_append_right s hc), fun hc => h.list (List.mem_append_right s hc)⟩

theorem dirText_slash : DirText ['/'] := by
  refine ⟨fun c hc => ?_, fun c hc => ?_, fun c hc => ?_, by decide⟩
  all_goals
    rw [List.mem_singleton.mp hc]
    decide

theorem DirName.dirText {n : Name} (h : DirName n) : DirText n := ⟨h.plain.blank, h.plain.special, h.literal, h.list⟩

theorem dirText_reldir {p : Path} (h : ∀ n ∈ p, DirName n) : DirText (reldir p) := by
  refine ⟨fun c hc => ?_, fun c hc => ?_, fun c hc => ?_, fun hc => ?_⟩
  all_goals
    rcases mem_reldir hc with heq | ⟨n, hn, hcn⟩
  · exact heq ▸ rfl
  · exact (h n hn).plain.blank c hcn
  · exact heq ▸ rfl
  · exact (h n hn).plain.special c hcn
  · exact heq ▸ by decide
  · exact (h n hn).literal c hcn
  · cases heq
  · exact (h n hn).list hcn

theorem DirText.pathnames_eq {t : Text} (h : DirText t) (files : List Text) : pathnames files t = [t] := by
  rw [Ksh.pathnames_of_not (Ksh.hasList_of_notMem h.list), Glob.pathnames_literal h.literal]

/-- A directory in front of `*`. -/
theorem DirText.matches_front {t : Text} (h : DirText t) (s : Text) : matchesText (t ++ ['*']) s = true ↔ t <+: s := by
  have hlist : '(' ∉ t ++ ['*'] := fun hc => (List.mem_append.mp hc).elim h.list fun hc => by cases List.mem_singleton.mp hc
  rw [Ksh.matchesText_of_not (Ksh.hasList_of_notMem hlist)]
  exact Glob.glob_front h.literal s

/-! ## The saved paths -/

/-- A saved path goes on from a directory. -/
def Covered (paths : List Text) (p : Path) : Prop := ∃ path ∈ paths, reldir p ++ ['/'] <+: path ++ ['/']

theorem matches_path {path : Text} (h : DirText path) (dir : Text) :
    matchesText (path ++ "/*".toList) (dir ++ ['/']) = true ↔ path ++ ['/'] <+: dir ++ ['/'] := by
  have hfront := (h.append dirText_slash).matches_front (dir ++ ['/'])
  rw [List.append_assoc] at hfront
  exact hfront

theorem mem_savePath {dir : Text} {paths : List Text} {path : Text} (h : path ∈ savePath dir paths) : path = dir ∨ path ∈ paths := by
  induction paths with
  | nil => exact Or.inl (List.mem_singleton.mp h)
  | cons q paths ih =>
    unfold savePath at h
    split at h
    · exact (List.mem_cons.mp h).imp id (List.mem_cons_of_mem q)
    · rcases List.mem_cons.mp h with rfl | h
      · exact Or.inr List.mem_cons_self
      · exact (ih h).imp id (List.mem_cons_of_mem q)

theorem self_mem_savePath (dir : Text) (paths : List Text) : dir ∈ savePath dir paths := by
  induction paths with
  | nil => exact List.mem_singleton.mpr rfl
  | cons q paths ih =>
    unfold savePath
    split
    · exact List.mem_cons_self
    · exact List.mem_cons_of_mem q ih

/-- What a saved path goes on from stays covered when the path is replaced. -/
theorem Covered.savePath {dir : Text} {paths : List Text} (hpaths : ∀ path ∈ paths, DirText path) {p : Path}
    (h : Covered paths p) : Covered (savePath dir paths) p := by
  obtain ⟨path, hmem, hp⟩ := h
  induction paths with
  | nil => cases hmem
  | cons q paths ih =>
    unfold Stf.savePath
    split
    · rename_i hmatch
      rcases List.mem_cons.mp hmem with rfl | hmem
      · rw [matches_path (hpaths path List.mem_cons_self)] at hmatch
        exact ⟨dir, List.mem_cons_self, hp.trans hmatch⟩
      · exact ⟨path, List.mem_cons_of_mem _ hmem, hp⟩
    · rcases List.mem_cons.mp hmem with rfl | hmem
      · exact ⟨path, List.mem_cons_self, hp⟩
      · obtain ⟨path', hmem', hp'⟩ := ih (fun r hr => hpaths r (List.mem_cons_of_mem q hr)) hmem
        exact ⟨path', List.mem_cons_of_mem q hmem', hp'⟩

/-- The given patterns that match one of the test cases, each once, in the order in which they are found. -/
def found (pats : List Text) (tests : List (Path × Name)) : List Text := collect pats [] (tests.map Prod.snd)

theorem mem_found {tests : List (Path × Name)} {p : Text} :
    p ∈ found pats tests ↔ p ∈ pats ∧ ∃ x ∈ tests, matchesText p x.2 = true := by
  rw [found, mem_collect]
  simp only [List.not_mem_nil, false_or, List.mem_map, exists_exists_and_eq_and]

theorem found_append {tests : List (Path × Name)} {p : Path} {ts : List Name} :
    found pats (tests ++ ts.map (Prod.mk p)) = collect pats (found pats tests) ts := by
  rw [found, List.map_append, List.map_map, collect, List.foldl_append]
  exact congrArg (List.foldl _ _) (List.map_id ts)

/-- What a scan has kept after the test cases `tests`. -/
structure Scanned (pats : List Text) (tests : List (Path × Name)) (st : Scan) : Prop where
  existCases : st.existCases = joined (found pats tests)
  paths : ∀ path ∈ st.matchPaths, DirText path
  covered : ∀ x ∈ tests, Matched pats x.2 → Covered st.matchPaths x.1
  matched : st.matchPaths ≠ [] → ∃ x ∈ tests, Matched pats x.2

theorem Scanned.start : Scanned pats [] ⟨[], []⟩ :=
  ⟨rfl, fun _ h => (by cases h), fun _ h => (by cases h), fun h => absurd rfl h⟩

section

variable (hpats : ∀ p ∈ pats, Given p) {files : List Text}

include hpats

variable (sh) in
theorem scanDir_scanned {dir : Dir} {p : Path} {tests : List (Path × Name)} {st : Scan}
    (hkept : ∀ t ∈ dir.testcases, Kept pats files t)
    (hlists : ∀ xs, xs <+: tests ++ dir.testcases.map (Prod.mk p) → Unexpanded files (opening "stf_exist_cases".toList) (found pats xs))
    (hp : ∀ n ∈ p, DirName n) (h : Scanned pats tests st) :
    Scanned pats (tests ++ dir.testcases.map (Prod.mk p)) (scanDir sh files (joined pats) dir p st) := by
  have hnodup : (found pats tests).Nodup := nodup_collect List.nodup_nil _
  have hsub : ∀ ts, collect pats (found pats tests) ts ⊆ pats := fun ts q hq =>
    (mem_collect.mp hq).elim (fun hq => (mem_found.mp hq).1) And.left
  have hroot : ∀ t ∈ dir.rootTestcases, Kept pats files t := fun t ht => hkept t (List.mem_append_left _ ht)
  have huser : ∀ t ∈ dir.userTestcases, Kept pats files t := fun t ht => hkept t (List.mem_append_right _ ht)
  have hlist : ∀ us, us <+: dir.testcases →
      Unexpanded files (opening "stf_exist_cases".toList) (collect pats (found pats tests) us) := by
    intro us hus
    rw [← found_append (p := p)]
    exact hlists _ ((List.prefix_append_right_inj tests).mpr (hus.map _))
  have hlist' : ∀ us, us <+: dir.userTestcases → Unexpanded files (opening "stf_exist_cases".toList)
      (collect pats (collect pats (found pats tests) dir.rootTestcases) us) := by
    intro us hus
    have hboth := hlist (dir.rootTestcases ++ us) ((List.prefix_append_right_inj _).mpr hus)
    rwa [collect, List.foldl_append] at hboth
  have hscan : scanFile sh files (joined pats) dir.userTestcases
      (scanFile sh files (joined pats) dir.rootTestcases (false, st.existCases)) =
        (dir.testcases.any fun t => decide (Matched pats t), joined (collect pats (found pats tests) dir.testcases)) := by
    rw [h.existCases, scanFile_joined hpats hroot hnodup (hsub []) fun us hus => hlist us (hus.trans (List.prefix_append _ _)),
      scanFile_joined hpats huser (nodup_collect hnodup _) (hsub _) hlist', Dir.testcases, List.any_append, Bool.false_or, collect,
      collect, collect, List.foldl_append]
  have hpath := dirText_reldir hp
  unfold scanDir
  rw [hscan]
  refine ⟨congrArg joined found_append.symm, ?_, ?_, ?_⟩
  · intro path hmem
    dsimp only at hmem
    split at hmem
    · rcases mem_savePath hmem with rfl | hmem
      · exact hpath
      · exact h.paths path hmem
    · exact h.paths path hmem
  · intro x hx hm
    dsimp only
    rcases List.mem_append.mp hx with hx | hx
    · have hc := h.covered x hx hm
      split
      · exact hc.savePath h.paths
      · exact hc
    · obtain ⟨t, ht, rfl⟩ := List.mem_map.mp hx
      rw [if_pos (List.any_eq_true.mpr ⟨t, ht, decide_eq_true hm⟩)]
      exact ⟨reldir p, self_mem_savePath _ _, List.prefix_rfl⟩
  · intro hne
    dsimp only at hne
    split at hne
    · rename_i hany
      obtain ⟨t, ht, hm⟩ := List.any_eq_true.mp hany
      exact ⟨(p, t), List.mem_append_right _ (List.mem_map_of_mem ht), of_decide_eq_true hm⟩
    · obtain ⟨x, hx, hm⟩ := h.matched hne
      exact ⟨x, List.mem_append_left _ hx, hm⟩

variable (sh) in
theorem scanindir_scanned {results : Path → List Text} {all : List (Path × Name)}
    (hlists : ∀ xs, xs <+: all → Unexpanded files (opening "stf_exist_cases".toList) (found pats xs)) (t : Tree Dir) :
    ∀ (p : Path) (tests : List (Path × Name)) (st : Scan), t.Succeeds → t.Named results p →
    (∀ x ∈ t.tests p, Kept pats files x.2) → (∀ n ∈ p, DirName n) → tests ++ t.tests p <+: all → Scanned pats tests st →
    ∃ st', scanindir sh files (joined pats) true t p st = some st' ∧ Scanned pats (tests ++ t.tests p) st' := by
  induction t with
  | missing => exact fun _ _ _ h => False.elim h
  | node dir sub ih =>
    intro p tests st hok hnamed hkept hp hall h
    rw [Tree.tests, ← List.append_assoc] at hall
    have hhere : ∀ t ∈ dir.testcases, Kept pats files t := fun t ht =>
      hkept (p, t) (List.mem_append_left _ (List.mem_map_of_mem ht))
    have hdir := scanDir_scanned sh hpats hhere
      (fun xs hxs => hlists xs (hxs.trans ((List.prefix_append _ _).trans hall))) hp h
    rw [scanindir, if_pos rfl, Tree.tests, ← List.append_assoc]
    -- the subdirectories one after the other
    have hsubs : ∀ ns, ns ⊆ dir.subdirs.1 → ∀ tests st,
        (tests ++ ns.flatMap fun name => Tree.tests (sub name) (p ++ [name])) <+: all → Scanned pats tests st →
        ∃ st', ns.foldlM (fun st name => scanindir sh files (joined pats) true (sub name) (p ++ [name]) st) st = some st' ∧
          Scanned pats (tests ++ ns.flatMap fun name => Tree.tests (sub name) (p ++ [name])) st' := by
      intro ns
      induction ns with
      | nil =>
        intro _ tests st _ h
        exact ⟨st, rfl, by rwa [List.flatMap_nil, List.append_nil]⟩
      | cons n ns ihns =>
        intro hns tests st hall h
        rw [List.flatMap_cons, ← List.append_assoc] at hall
        have hn := hns List.mem_cons_self
        have hkeptn : ∀ x ∈ (sub n).tests (p ++ [n]), Kept pats files x.2 := fun x hx =>
          hkept x (List.mem_append_right _ (List.mem_flatMap.mpr ⟨n, hn, hx⟩))
        have hpn : ∀ m ∈ p ++ [n], DirName m := by
          intro m hm
          rcases List.mem_append.mp hm with hm | hm
          · exact hp m hm
          · exact (List.mem_singleton.mp hm) ▸ (hnamed.2 n hn).1
        obtain ⟨st', hst', h'⟩ := ih n (p ++ [n]) tests st (hok.2.2 n hn) (hnamed.2 n hn).2 hkeptn hpn
          ((List.prefix_append _ _).trans hall) h
        obtain ⟨st'', hst'', h''⟩ := ihns (fun m hm => hns (List.mem_cons_of_mem n hm)) _ st' hall h'
        refine ⟨st'', ?_, ?_⟩
        · rw [List.foldlM_cons, hst']
          exact hst''
        · rw [List.flatMap_cons, ← List.append_assoc]
          exact h''
    exact hsubs dir.subdirs.1 (List.Subset.refl _) _ _ hall hdir

end

/-! ## The directories that are entered -/

/-- A name in front of a text. -/
theorem head_append {n : Name} (h : n ≠ []) (t : Text) : (n ++ t).head? = n.head? := by
  obtain ⟨c, n, rfl⟩ := List.exists_cons_of_ne_nil h
  rfl

/-- What `${path#$reldir/}` leaves of a saved path that goes on from a subdirectory. -/
theorem cutFront_path {q : Path} {n : Name} {path : Text} (hq : ∀ m ∈ q, DirName m) (hn : DirName n)
    (h : slashed (q ++ [n]) <+: path ++ ['/']) :
    ∃ s, path = s ++ cutFront (reldir q ++ ['/']) path ∧ n ++ ['/'] <+: cutFront (reldir q ++ ['/']) path ++ ['/'] := by
  have hone : slashed [n] = n ++ ['/'] := List.append_nil _
  rw [slashed_append, hone] at h
  by_cases hnil : q = []
  · subst hnil
    have hnot : ¬reldir [] ++ ['/'] <+: path := by
      rintro ⟨r, rfl⟩
      obtain ⟨c, m, hcm⟩ := List.exists_cons_of_ne_nil hn.plain.ne_nil
      obtain ⟨u, hu⟩ := h
      rw [hcm] at hu
      have hc : c = '/' := List.head_eq_of_cons_eq hu
      exact hn.slash (by rw [hcm, hc]; exact List.mem_cons_self)
    have htext : DirText (reldir [] ++ ['/']) := dirText_slash
    rw [Ksh.cutFront_of_not (Ksh.hasList_of_notMem htext.list), Glob.cutFront_of_not htext.literal hnot]
    exact ⟨[], rfl, h⟩
  · obtain ⟨r, hr⟩ := h
    have htext : DirText (slashed q) := reldir_slash hnil ▸ (dirText_reldir hq).append dirText_slash
    rw [List.append_assoc, List.append_eq_append_iff] at hr
    rcases hr with ⟨u, rfl, hu⟩ | ⟨c, -, hc⟩
    · rw [reldir_slash hnil, Ksh.cutFront_of_not (Ksh.hasList_of_notMem htext.list), Glob.cutFront_literal htext.literal]
      exact ⟨slashed q, rfl, r, hu⟩
    · have hlen := congrArg List.length hc
      have hpos := List.length_pos_iff.mpr hn.plain.ne_nil
      simp only [List.length_append, List.length_cons, List.length_nil] at hlen
      omega

/-- A directory on the way to a saved path is entered. -/
theorem listFilter_path {files : List Text} {q d : Path} {n : Name} {path : Text} (hd : ∀ m ∈ d, DirName m) (hqd : q ++ [n] <+: d)
    (hpath : DirText path) (h : reldir d ++ ['/'] <+: path ++ ['/']) :
    (!(listFilter sh files (cutFront (reldir q ++ ['/']) path ++ ['/']) (n ++ "/*".toList)).isEmpty) = true := by
  have hqn : ∀ m ∈ q ++ [n], DirName m := fun m hm => hd m (hqd.subset hm)
  have hn := hqn n (by simp)
  have hfront : slashed (q ++ [n]) <+: path ++ ['/'] := by
    refine List.IsPrefix.trans ?_ h
    obtain ⟨e, rfl⟩ := hqd
    rw [reldir_slash (by simp), slashed_append (q ++ [n]) e]
    exact List.prefix_append _ _
  obtain ⟨s, hs, hitem⟩ := cutFront_path (fun m hm => hqn m (List.mem_append_left _ hm)) hn hfront
  have htext : DirText (cutFront (reldir q ++ ['/']) path ++ ['/']) := by
    rw [hs] at hpath
    exact hpath.right.append dirText_slash
  have hplain : Plain (cutFront (reldir q ++ ['/']) path ++ ['/']) := by
    refine ⟨by simp, htext.blank, htext.special, ?_⟩
    obtain ⟨u, hu⟩ := hitem
    rw [← hu, List.append_assoc, head_append hn.plain.ne_nil]
    exact hn.plain.dash
  have hpats : filterOf (n ++ "/*".toList) = (false, [n ++ "/*".toList]) := by
    have htilde : (n ++ "/*".toList).head? ≠ some '~' := by
      rw [head_append hn.plain.ne_nil]
      exact hn.tilde
    have hstar : "/*".toList.all (fun c => !isIfs c) = true := by decide
    have hblank : ∀ c ∈ n ++ "/*".toList, isIfs c = false := by
      intro c hc
      rcases List.mem_append.mp hc with hc | hc
      · exact hn.plain.blank c hc
      · simpa using List.all_eq_true.mp hstar c hc
    rw [filterOf, if_neg htilde]
    exact congrArg _ (words_single hblank (by simp))
  rw [listFilter_ne_nil hplain (htext.pathnames_eq files) hpats, List.any_cons, List.any_nil, Bool.or_false]
  have hmatch := (hn.dirText.append dirText_slash).matches_front (cutFront (reldir q ++ ['/']) path ++ ['/'])
  rw [List.append_assoc] at hmatch
  exact hmatch.mpr hitem

/-- The test cases of a directory are in it or below. -/
theorem path_of_tests (t : Tree Dir) : ∀ {p : Path} {x : Path × Name}, x ∈ t.tests p → p <+: x.1 := by
  induction t with
  | missing => exact fun h => by cases h
  | node dir sub ih =>
    intro p x hx
    rcases List.mem_append.mp hx with hx | hx
    · obtain ⟨t, -, rfl⟩ := List.mem_map.mp hx
      exact List.prefix_rfl
    · obtain ⟨n, -, hx⟩ := List.mem_flatMap.mp hx
      exact (List.prefix_append p [n]).trans (ih n hx)

/-- The names of the directories with test cases, and of the test cases. -/
theorem named_of_tests {results : Path → List Text} (t : Tree Dir) : ∀ {p : Path}, t.Named results p → (∀ n ∈ p, DirName n) →
    ∀ x ∈ t.tests p, (∀ n ∈ x.1, DirName n) ∧ Plain x.2 ∧ pathnames (results x.1) x.2 = [x.2] := by
  induction t with
  | missing => exact fun _ _ _ h => by cases h
  | node dir sub ih =>
    intro p hnamed hp x hx
    rcases List.mem_append.mp hx with hx | hx
    · obtain ⟨t, ht, rfl⟩ := List.mem_map.mp hx
      exact ⟨hp, hnamed.1 t ht⟩
    · obtain ⟨n, hn, hx⟩ := List.mem_flatMap.mp hx
      refine ih n (hnamed.2 n hn).2 (fun m hm => ?_) x hx
      rcases List.mem_append.mp hm with hm | hm
      · exact hp m hm
      · exact (List.mem_singleton.mp hm) ▸ (hnamed.2 n hn).1

/-! ## The test cases of a run -/

theorem filterMap_runUntil {event : Script → Event} (h : ∀ s, (event s).test? = none) (ss : List Script) :
    (runUntil event ss).2.filterMap Event.test? = [] := by
  rw [List.filterMap_eq_nil_iff]
  intro e he
  obtain ⟨s, -, rfl⟩ := mem_runUntil he
  exact h s

theorem filterMap_headLog (dir : Dir) (p : Path) : (headLog dir p).filterMap Event.test? = [] := by
  have hcheck : (checkLog dir p).filterMap Event.test? = [] := filterMap_runUntil (fun _ => rfl) _
  have hsetup : (setupLog dir p).filterMap Event.test? = [] := filterMap_runUntil (fun _ => rfl) _
  unfold headLog
  split
  · split
    · rw [List.filterMap_append, hcheck, hsetup, List.append_nil]
    · exact hcheck
  · rfl

theorem filterMap_cleanupLog (dir : Dir) (p : Path) : (cleanupLog dir p).filterMap Event.test? = [] := by
  rw [List.filterMap_eq_nil_iff]
  intro e he
  obtain ⟨s, -, rfl⟩ := List.mem_map.mp he
  rfl

section

variable {sel : Selection} (hrec : sel.recurse = true) {m : Name → Bool}

include hrec

/-- A directory that is set up with success. -/
theorem executeindir_succeeds {dir : Dir} (hok : dir.succeeds = true) (hconf : dir.configured = true) (sub : Name → Tree Dir)
    (p : Path) : (executeindir sel (startOptions sel) (.node dir sub) p).2 = headLog dir p ++ (testLog sel dir p ++
      ((dir.subdirs.1.filter (sel.visits p)).flatMap fun n => (executeindir sel (startOptions sel) (sub n) (p ++ [n])).2) ++
        cleanupLog dir p) := by
  simp only [Dir.succeeds, Bool.and_eq_true, Bool.not_eq_true'] at hok
  obtain ⟨⟨hmark, hreach⟩, hsetups⟩ := hok
  rw [executeindir_node, inDir, hmark, startOptions_eq, if_neg Bool.false_ne_true, optionLoop_vks, if_pos hreach,
    optionLoop_rest _ _ _ _ hsetups, hconf, if_pos rfl, subRuns, if_pos hrec, List.flatMap_map]

/-- A run of the start directory and below it, where the selection enters every directory on the way to a test case that is to run,
and runs the right ones in each. -/
theorem executeindir_tests (t : Tree Dir) : ∀ {p : Path}, t.Succeeds → (∀ x ∈ t.tests p, sel.runs x.1 x.2 = m x.2) →
    (∀ x ∈ t.tests p, m x.2 = true → ∀ q n, p <+: q → q ++ [n] <+: x.1 → sel.visits q n = true) →
    (executeindir sel (startOptions sel) t p).2.filterMap Event.test? = (t.tests p).filter fun x => m x.2 := by
  induction t with
  | missing => exact fun h => False.elim h
  | node dir sub ih =>
    intro p hok hruns hvisits
    have htests : (testLog sel dir p).filterMap Event.test? = (dir.testcases.map (Prod.mk p)).filter fun x => m x.2 := by
      have hfilter : dir.testcases.filter (sel.runs p) = dir.testcases.filter m :=
        List.filter_congr fun t ht => hruns (p, t) (List.mem_append_left _ (List.mem_map_of_mem ht))
      rw [testLog, hfilter, List.filterMap_map, List.filter_map]
      exact congrFun List.filterMap_eq_map _
    have hsubs : ∀ ns, ns ⊆ dir.subdirs.1 →
        ((ns.filter (sel.visits p)).flatMap fun n => (executeindir sel (startOptions sel) (sub n) (p ++ [n])).2).filterMap
          Event.test? = (ns.flatMap fun n => (sub n).tests (p ++ [n])).filter fun x => m x.2 := by
      intro ns
      induction ns with
      | nil => exact fun _ => rfl
      | cons n ns ihns =>
        intro hns
        have hn := hns List.mem_cons_self
        have hmem : ∀ x ∈ (sub n).tests (p ++ [n]), x ∈ Tree.tests (.node dir sub) p := fun x hx =>
          List.mem_append_right _ (List.mem_flatMap.mpr ⟨n, hn, hx⟩)
        have hrest := ihns fun k hk => hns (List.mem_cons_of_mem n hk)
        rw [List.flatMap_cons, List.filter_append, ← hrest]
        by_cases hv : sel.visits p n = true
        · have hchild := ih n (hok.2.2 n hn) (fun x hx => hruns x (hmem x hx))
            fun x hx hm q k hq hqx => hvisits x (hmem x hx) hm q k ((List.prefix_append p [n]).trans hq) hqx
          rw [List.filter_cons_of_pos hv, List.flatMap_cons, List.filterMap_append, hchild]
        · have hnone : ((sub n).tests (p ++ [n])).filter (fun x => m x.2) = [] := by
            rw [List.filter_eq_nil_iff]
            intro x hx hm
            exact hv (hvisits x (hmem x hx) hm p n List.prefix_rfl (path_of_tests _ hx))
          rw [List.filter_cons_of_neg hv, hnone, List.nil_append]
    rw [executeindir_succeeds hrec hok.1 hok.2.1, Tree.tests, List.filter_append, List.filterMap_append, List.filterMap_append,
      List.filterMap_append, filterMap_headLog, filterMap_cleanupLog, htests, hsubs _ (List.Subset.refl _), List.append_nil]
    rfl

end

/-- The directories above the start directory run no test cases. -/
theorem nested_tests (sel : Selection) (root : Tree Dir) (ns : List Name) : ∀ {p : Path},
    (∀ q ∈ parentsFrom p ns, (root.at q).dir.succeeds = true) → (nested sel root p ns).2.filterMap Event.test? =
      (executeindir sel (startOptions sel) (root.at (p ++ ns)) (p ++ ns)).2.filterMap Event.test? := by
  induction ns with
  | nil =>
    intro p _
    rw [nested, List.append_nil]
  | cons n ns ih =>
    intro p hp
    have hrest := ih fun q hq => hp q (List.mem_cons_of_mem p hq)
    have hcons : p ++ n :: ns = (p ++ [n]) ++ ns := by rw [List.append_assoc, List.singleton_append]
    have hhere := hp p List.mem_cons_self
    rw [hcons, ← hrest, nested]
    cases ht : root.at p with
    | missing => simp [executeindir]
    | node dir sub =>
      rw [ht] at hhere
      simp only [Tree.dir, Dir.succeeds, Bool.and_eq_true, Bool.not_eq_true'] at hhere
      obtain ⟨⟨hmark, hreach⟩, hsetups⟩ := hhere
      simp only [executeindir_vks, executeindir_c, hmark, hreach, hsetups, Bool.false_eq_true, if_false, Bool.and_self, Bool.not_true,
        List.filterMap_append, filterMap_headLog, filterMap_cleanupLog, List.nil_append, List.append_nil]

/-! ## The lookup -/

theorem deleteLoop_joined {files ws : List Text} (hpats : ∀ p ∈ pats, Plain p) (hws : ∀ w ∈ ws, Plain w)
    (hlists : ∀ n, Unexpanded files (opening "test_list".toList) ((fun list => list.diff ws)^[n] (pats.diff ws))) {k : Nat}
    (hk : (body pats).length ≤ k) (hpos : 1 ≤ k) : deleteLoop sh files ws k (joined pats) = joined (pats.filter fun p => p ∉ ws) := by
  induction k generalizing pats with
  | zero => omega
  | succ k ih =>
    have hsub : ∀ p ∈ pats.diff ws, p ∈ pats := fun p hp => List.diff_subset pats ws hp
    have hlen := length_joined (pats.diff ws)
    have hlen' := length_joined pats
    rw [deleteLoop, wordDelete_joined hpats hws sh (of_all_whole (by decide)) (hlists 0)]
    rcases body_diff (fun p hp => (hpats p hp).ne_nil) ws with ⟨hnothing, hnone⟩ | hless
    · have hsame : pats.filter (fun p => p ∉ ws) = pats :=
        List.filter_eq_self.mpr fun p hp => decide_eq_true fun hpw => hnone p hpw hp
      rw [hnothing, if_pos rfl, hsame]
    · have hne : (joined (pats.diff ws)).length ≠ (joined pats).length := by omega
      rw [if_neg hne, ih (fun p hp => hpats p (hsub p hp)) (fun n => hlists (n + 1)) (by omega) (by omega), filter_diff]

theorem quotedList_joined {files ws : List Text} (hws : ∀ w ∈ ws, Plain w) (h : Unexpanded files ['"'] ws) :
    quotedList files (joined ws) = joined ws := by
  have hquote : ∀ c ∈ ['"'], isIfs c = false := of_all_whole (by decide)
  have hwords : split (['"'] ++ (joined ws ++ ['"'])) = enclosed ['"'] ['"'] ws := by
    rw [← joined_enclosed]
    exact split_joined_words (enclosed_words hquote ⟨List.cons_ne_nil _ _, hquote⟩ fun w hw => ⟨(hws w hw).ne_nil, (hws w hw).blank⟩)
  rw [quotedList, hwords, flatMap_alone h, joined_enclosed, List.singleton_append, List.tail_cons, List.dropLast_concat]

/-- The patterns that match none of the configured test cases. -/
def unmatched (pats : List Text) (tests : List (Path × Name)) : List Text := pats.filter fun p => !tests.any fun x => matchesText p x.2

/-- Pathname expansion leaves the words alone that the code does not protect: each pattern that matches a test case, when it is kept; the
list of these after any number of test cases, when it is put together; and where there are some, the list of the other patterns, in every
round in which each of them is taken out once, and in the message. A list has a quote at each end, and its name in front. -/
structure Undisturbed (files pats : List Text) (tests : List (Path × Name)) : Prop where
  kept : ∀ x ∈ tests, Kept pats files x.2
  scanned : ∀ xs, xs <+: tests → Unexpanded files (opening "stf_exist_cases".toList) (found pats xs)
  deleted : found pats tests ≠ [] → ∀ n,
    Unexpanded files (opening "test_list".toList) ((fun list => list.diff (found pats tests))^[n + 1] pats)
  message : found pats tests ≠ [] → Unexpanded files ['"'] (unmatched pats tests)

theorem unmatched_eq (pats : List Text) (tests : List (Path × Name)) :
    unmatched pats tests = pats.filter fun p => p ∉ found pats tests := by
  refine List.filter_congr fun p hp => ?_
  rw [Bool.eq_iff_iff, Bool.not_eq_true', decide_eq_true_eq, mem_found, List.any_eq_false]
  constructor
  · rintro hnone ⟨-, x, hx, hg⟩
    exact hnone x hx hg
  · intro hnot x hx hg
    exact hnot ⟨hp, x, hx, hg⟩

section

variable (hpats : ∀ p ∈ pats, Given p) {files : List Text} {results : Path → List Text} {t : Tree Dir} {start : Path}
  (hok : t.Succeeds) (hnamed : t.Named results start) (hstart : ∀ n ∈ start, DirName n)
  (hquiet : Undisturbed files pats (t.tests start))

/-- Paths that follow from a lookup: all test cases that match are on the way from one of them. -/
structure Leads (pats : List Text) (tests : List (Path × Name)) (paths : List Text) : Prop where
  ne_nil : found pats tests ≠ []
  texts : ∀ path ∈ paths, DirText path
  covered : ∀ x ∈ tests, Matched pats x.2 → Covered paths x.1

include hpats hok hnamed hstart hquiet

variable (sh) in
theorem lookup_spec (hne : pats ≠ []) :
    (lookup sh files true t start (joined pats) = .noneFound ∧ ∀ x ∈ t.tests start, ¬Matched pats x.2) ∨
      ∃ paths, lookup sh files true t start (joined pats) =
          .found (joined (found pats (t.tests start))) (joined (unmatched pats (t.tests start))) paths ∧
        Leads pats (t.tests start) paths := by
  obtain ⟨st, hscan, h⟩ := scanindir_scanned sh hpats hquiet.scanned t start [] ⟨[], []⟩ hok hnamed hquiet.kept hstart
    List.prefix_rfl Scanned.start
  rw [List.nil_append] at h
  have hplain := plain_given hpats
  have hlist : joined pats ≠ [] := fun h => hne ((joined_eq_nil hplain).mp h)
  have hws : ∀ w ∈ found pats (t.tests start), Plain w := fun w hw => hplain w (mem_found.mp hw).1
  have hsame : ∀ w ∈ found pats (t.tests start), pathnames files w = [w] := by
    intro w hw
    obtain ⟨hw, x, hx, hm⟩ := mem_found.mp hw
    exact hquiet.kept x hx w hw hm
  unfold lookup
  rw [if_neg hlist, hscan]
  dsimp only
  by_cases hpaths : st.matchPaths = []
  · refine Or.inl ⟨if_pos hpaths, fun x hx hm => ?_⟩
    obtain ⟨path, hmem, -⟩ := h.covered x hx hm
    rw [hpaths] at hmem
    cases hmem
  · have hfound : found pats (t.tests start) ≠ [] := by
      obtain ⟨x, hx, p, hp, hm⟩ := h.matched hpaths
      exact List.ne_nil_of_mem (mem_found.mpr ⟨hp, x, hx, hm⟩)
    refine Or.inr ⟨st.matchPaths, ?_, hfound, h.paths, h.covered⟩
    rw [if_neg hpaths, h.existCases]
    by_cases heq : joined (found pats (t.tests start)) = joined pats
    · have hall : found pats (t.tests start) = pats := by rw [← split_joined hws, heq, split_joined hplain]
      have hnil : unmatched pats (t.tests start) = [] := by
        rw [unmatched_eq, hall, List.filter_eq_nil_iff]
        intro p hp
        simpa using hp
      rw [if_pos heq, heq, hnil]
      rfl
    · have htilde : (joined pats).head? ≠ some '~' := by
        have hfilter := filterOf_joined hpats
        intro htilde
        rw [filterOf, if_pos htilde] at hfilter
        cases hfilter
      have hlen := length_joined pats
      have hpos := List.length_pos_iff.mpr hlist
      rw [if_neg heq, if_neg htilde, split_joined hws, flatMap_alone hsame, unmatched_eq,
        deleteLoop_joined hplain hws (hquiet.deleted hfound) (by omega) (by omega)]

end

/-- The test cases that match a pattern that was found are those that match a given one. -/
theorem any_found {tests : List (Path × Name)} {x : Path × Name} (hx : x ∈ tests) :
    ((found pats tests).any fun p => matchesText p x.2) = pats.any fun p => matchesText p x.2 := by
  rw [Bool.eq_iff_iff, List.any_eq_true, List.any_eq_true]
  constructor
  · rintro ⟨p, hp, hm⟩
    exact ⟨p, (mem_found.mp hp).1, hm⟩
  · rintro ⟨p, hp, hm⟩
    exact ⟨p, mem_found.mpr ⟨hp, x, hx, hm⟩, hm⟩

/-- Two test cases, and a third one in a subdirectory. -/
def Tree.sample : Tree Dir :=
  .node { Dir.empty with userTestcases := ["t1".toList, "t2".toList], subdirs := ⟨["d".toList], List.nodup_singleton _⟩ } fun _ =>
    .node { Dir.empty with rootTestcases := ["t3".toList] } fun _ => .missing

theorem dirName_d : DirName "d".toList where
  plain := Plain.of_all (by decide) (by decide) (by decide)
  literal := fun c hc => by
    rw [List.mem_singleton.mp hc]
    decide
  list := by decide
  tilde := by decide
  slash := by decide

theorem sample_succeeds : Tree.sample.Succeeds := by
  refine ⟨by decide, rfl, fun n _ => ⟨by decide, rfl, fun m hm => ?_⟩⟩
  cases hm

theorem sample_named (results : Path → List Text) : Tree.sample.Named results [] := by
  have htest : ∀ p, ∀ t ∈ ["t1".toList, "t2".toList, "t3".toList], Plain t ∧ pathnames (results p) t = [t] := by
    intro p t ht
    simp only [List.mem_cons, List.not_mem_nil, or_false] at ht
    rcases ht with rfl | rfl | rfl
    all_goals exact ⟨Plain.of_all (by decide) (by decide) (by decide), if_neg (by decide)⟩
  refine ⟨fun t ht => htest [] t ?_, fun n hn => ⟨?_, fun t ht => htest _ t ?_, fun m hm => by cases hm⟩⟩
  · exact List.mem_append_left ["t3".toList] ht
  · exact (List.mem_singleton.mp hn) ▸ dirName_d
  · exact List.mem_append_right ["t1".toList, "t2".toList] ht

theorem given_star : Given "t*".toList := ⟨Plain.of_all (by decide) (by decide) (by decide), by decide⟩
theorem given_other : Given "u".toList := ⟨Plain.of_all (by decide) (by decide) (by decide), by decide⟩

end ZfsTest.Stf
