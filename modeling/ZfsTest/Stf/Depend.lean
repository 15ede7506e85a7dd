import ZfsTest.Prog.Fold
import ZfsTest.Text.Regex
import ZfsTest.Text.Words

/-!
# The depend file of a package

`build_depend` adds the lines of the suite's depend file to the default entries, except those whose package is there already. It looks
for a package with a regular expression made of its name, which is not tied to the end of a name: a name that others begin with is taken
for one of them (`told_plain`). The file has each pair of a tag and a package once just when the expressions tell the packages apart
(`buildDepend_iff`).
-/

namespace ZfsTest.Stf.Depend

/-! ## The model -/

/-- `\s`. -/
def isSpace (c : Char) : Bool := c = ' ' || c = '\t' || c = '\n' || c = '\r' || c = '\x0c'

/-- `@depend_entries`. -/
def dependEntries : List Text :=
  ["P\tSUNWcar\tCore Architecture, (Root)".toList, "P\tSUNWkvm\tCore Architecture, (Kvm)".toList,
    "P\tSUNWcsr\tCore Solaris, (Root)".toList, "P\tSUNWcsu\tCore Solaris, (Usr)".toList,
    "P\tSUNWcsd\tCore Solaris Devices".toList, "P\tSUNWcsl\tCore Solaris Libraries".toList]

/-- What is made of an expression with characters that do not stand for themselves; nothing when Perl refuses it. -/
structure Perl where
  regex : Char → Text → Option (Text → Bool)

/-- Without such expressions. -/
def Perl.plain : Perl := ⟨fun _ _ => none⟩

/-- `$entry =~ /^(P|I|R)\s+(\S+)/`: the tag and the package. -/
def entryOf : Text → Option (Char × Text)
  | [] => none
  | tag :: t =>
    let pkg := (t.dropWhile isSpace).takeWhile fun c => !isSpace c
    if (tag = 'P' ∨ tag = 'I' ∨ tag = 'R') ∧ t.head?.any isSpace = true ∧ pkg ≠ [] then some (tag, pkg) else none

section

variable (perl : Perl)

/-- `/^$tag\s+$pkg/`. -/
def entryRegex (tag : Char) (pkg : Text) : Option (Text → Bool) :=
  if pkg.any Regex.isMeta then perl.regex tag pkg
  else some fun entry =>
    entry.head? == some tag && entry.tail.head?.any isSpace && pkg.isPrefixOf (entry.tail.dropWhile isSpace)

/-- A line of the suite's depend file. -/
def readEntry (entries : List Text) (entry : Text) : Option (List Text) :=
  match entryOf entry with
  | none => some entries
  | some (tag, pkg) =>
    match entryRegex perl tag pkg with
    | none => none
    | some p => if entries.countP p = 0 then some (entries ++ [entry]) else some entries

/-- The entries before the depend file of the suite is read. -/
def defaults (isASuite : Bool) : List Text :=
  if isASuite then dependEntries ++ ["P\tSUNWstc-stf Solaris Test Framework".toList] else dependEntries

/-- `depend` is the suite's depend file. -/
def buildDepend (isASuite : Bool) (depend : Option Text) : Option Text :=
  (((depend.elim [] linesOf).foldlM (readEntry perl) (defaults isASuite))).map fun entries =>
    entries.flatMap fun entry => entry ++ ['\n']

/-! ## What the file is for -/

/-- The first two fields of a line. -/
def pairOf (line : Text) : List Text := (words isSpace line).take 2

/-- Each pair of the default entries and of the suite's depend file is in the first two fields of one line. -/
def EachOnce (isASuite : Bool) (depend : Option Text) : Prop :=
  ∃ out, buildDepend perl isASuite depend = some out ∧
    ∀ entry ∈ defaults isASuite ++ depend.elim [] linesOf, ∀ tag pkg, entryOf entry = some (tag, pkg) →
      (linesOf out).countP (pairOf · = [[tag], pkg]) = 1

/-- The first line for each pair is kept. -/
def keep (entries : List Text) (entry : Text) : List Text :=
  match entryOf entry with
  | none => entries
  | some pair => if entries.any fun e => entryOf e = some pair then entries else entries ++ [entry]

/-- The expression made of the entry's package tells whether the entry's pair is among the entries. -/
def Told (entries : List Text) (entry : Text) : Prop :=
  ∀ tag pkg, entryOf entry = some (tag, pkg) →
    ∃ p, entryRegex perl tag pkg = some p ∧ (entries.any p = true ↔ ∃ e ∈ entries, entryOf e = some (tag, pkg))

/-- Each line is told from the entries that stand for the lines before it. -/
def Sound (entries lines : List Text) : Prop := ∀ pre line post, lines = pre ++ line :: post → Told perl (pre.foldl keep entries) line

end

/-! ## Lines and their pairs -/

theorem words_spaces (t : Text) : words isSpace t = words isSpace (t.dropWhile isSpace) := by
  induction t with
  | nil => rfl
  | cons c t ih =>
    by_cases hc : isSpace c = true
    · have hword := words_append hc [] t
      rw [List.nil_append, words_nil, List.nil_append] at hword
      rw [hword, ih, List.dropWhile_cons_of_pos hc]
    · rw [List.dropWhile_cons_of_neg hc]

theorem entryOf_eq_some {line : Text} {tag : Char} {pkg : Text} (h : entryOf line = some (tag, pkg)) :
    (tag = 'P' ∨ tag = 'I' ∨ tag = 'R') ∧ pkg ≠ [] ∧ ∃ c t, line = tag :: c :: t ∧ isSpace c = true ∧
      pkg = ((c :: t).dropWhile isSpace).takeWhile fun c => !isSpace c := by
  cases line with
  | nil => cases h
  | cons d t =>
    rw [entryOf] at h
    split at h
    · rename_i hentry
      rw [Option.some.injEq, Prod.mk.injEq] at h
      obtain ⟨rfl, rfl⟩ := h
      obtain ⟨htag, hspace, hne⟩ := hentry
      cases t with
      | nil => cases hspace
      | cons c t => exact ⟨htag, hne, c, t, rfl, hspace, rfl⟩
    · cases h

/-- The first two fields of an entry are its pair. -/
theorem pairOf_entry {line : Text} {tag : Char} {pkg : Text} (h : entryOf line = some (tag, pkg)) : pairOf line = [[tag], pkg] := by
  obtain ⟨htag, hne, c, t, rfl, hspace, hpkg⟩ := entryOf_eq_some h
  have htag' : ∀ d ∈ [tag], isSpace d = false := by
    intro d hd
    rw [List.mem_singleton.mp hd]
    rcases htag with rfl | rfl | rfl <;> rfl
  have hwhole : ∀ d ∈ pkg, isSpace d = false := by
    intro d hd
    rw [hpkg] at hd
    have hno := List.all_eq_true.mp List.all_takeWhile d hd
    rwa [Bool.not_eq_true'] at hno
  have hrest : words isSpace (c :: t) = words isSpace (pkg ++ ((c :: t).dropWhile isSpace).dropWhile fun c => !isSpace c) := by
    rw [words_spaces, hpkg, List.takeWhile_append_dropWhile]
  have hfirst : words isSpace (tag :: c :: t) = [tag] :: words isSpace (c :: t) := by
    have hword := words_word htag' (List.cons_ne_nil tag []) hspace t
    have hskip := words_append hspace [] t
    rw [List.nil_append, words_nil, List.nil_append] at hskip
    rw [hskip]
    exact hword
  have hsecond : ∃ ws, words isSpace (c :: t) = pkg :: ws := by
    rw [hrest]
    cases hdrop : ((c :: t).dropWhile isSpace).dropWhile fun c => !isSpace c with
    | nil => exact ⟨[], by rw [List.append_nil, words_single hwhole hne]⟩
    | cons d u =>
      have hd : isSpace d = true := by
        have hhead := List.head?_dropWhile_not (fun c => !isSpace c) ((c :: t).dropWhile isSpace)
        rw [hdrop] at hhead
        simpa using hhead
      exact ⟨words isSpace u, words_word hwhole hne hd u⟩
  obtain ⟨ws, hws⟩ := hsecond
  rw [pairOf, hfirst, hws]
  rfl

/-- How often a pair is in a list of entries. -/
def times (entries : List Text) (pair : Char × Text) : Nat := entries.countP fun e => entryOf e = some pair

theorem times_append (as bs : List Text) (pair : Char × Text) : times (as ++ bs) pair = times as pair + times bs pair :=
  List.countP_append

theorem times_pos {entries : List Text} {pair : Char × Text} : 0 < times entries pair ↔ ∃ e ∈ entries, entryOf e = some pair := by
  simp [times, List.countP_pos_iff]

theorem times_singleton (line : Text) (pair : Char × Text) : times [line] pair = if entryOf line = some pair then 1 else 0 := by
  simp [times]

theorem pairOf_iff {line : Text} (h : (entryOf line).isSome) (tag : Char) (pkg : Text) :
    pairOf line = [[tag], pkg] ↔ entryOf line = some (tag, pkg) := by
  obtain ⟨⟨tag', pkg'⟩, hentry⟩ := Option.isSome_iff_exists.mp h
  rw [pairOf_entry hentry, hentry]
  simp

/-! ## The lines that are kept -/

theorem keep_of_entry {entries : List Text} {line : Text} {pair : Char × Text} (h : entryOf line = some pair) :
    keep entries line = if 0 < times entries pair then entries else entries ++ [line] := by
  have hany : (entries.any fun e => entryOf e = some pair) = true ↔ 0 < times entries pair := by
    rw [times_pos]
    simp
  unfold keep
  rw [h]
  by_cases hpos : 0 < times entries pair
  · rw [if_pos hpos]
    exact if_pos (hany.mpr hpos)
  · rw [if_neg hpos]
    exact if_neg fun hyes => hpos (hany.mp hyes)

theorem keep_of_none {entries : List Text} {line : Text} (h : entryOf line = none) : keep entries line = entries := by
  unfold keep
  rw [h]

/-- A line more adds its pair once, if it was not there. -/
theorem times_keep (entries : List Text) (line : Text) (pair : Char × Text) :
    times (keep entries line) pair =
      if entryOf line = some pair ∧ times entries pair = 0 then 1 else times entries pair := by
  cases hentry : entryOf line with
  | none =>
    rw [keep_of_none hentry, if_neg]
    rintro ⟨hno, -⟩
    cases hno
  | some other =>
    rw [keep_of_entry hentry]
    by_cases heq : other = pair
    · subst heq
      by_cases hpos : 0 < times entries other
      · rw [if_pos hpos, if_neg (by omega)]
      · have hzero : times entries other = 0 := by omega
        rw [if_neg hpos, if_pos ⟨rfl, hzero⟩, times_append, times_singleton, if_pos hentry, hzero]
    · have hne : ¬(some other = some pair ∧ times entries pair = 0) := fun h => heq (Option.some.inj h.1)
      rw [if_neg hne]
      split
      · rfl
      · rw [times_append, times_singleton, hentry, if_neg fun h => heq (Option.some.inj h)]
        rfl

/-- Every pair of the entries and of the lines is kept once. -/
theorem times_foldl_keep {entries : List Text} {pair : Char × Text} (hone : times entries pair ≤ 1) (lines : List Text)
    (hmem : ∃ e ∈ entries ++ lines, entryOf e = some pair) : times (lines.foldl keep entries) pair = 1 := by
  induction lines generalizing entries with
  | nil =>
    rw [List.append_nil] at hmem
    have hpos := times_pos.mpr hmem
    have heq : times entries pair = 1 := by omega
    exact heq
  | cons line lines ih =>
    have hkeep := times_keep entries line pair
    apply ih
    · rw [hkeep]
      split <;> omega
    · obtain ⟨e, he, hentry⟩ := hmem
      rcases List.mem_append.mp he with he | he
      · have hpos := times_pos.mpr ⟨e, he, hentry⟩
        have hpos' : 0 < times (keep entries line) pair := by
          rw [hkeep, if_neg (by omega)]
          exact hpos
        obtain ⟨d, hd, hd'⟩ := times_pos.mp hpos'
        exact ⟨d, List.mem_append_left _ hd, hd'⟩
      · rcases List.mem_cons.mp he with rfl | he
        · have hpos' : 0 < times (keep entries e) pair := by
            rw [hkeep]
            split
            · exact Nat.one_pos
            · rename_i hno
              rw [not_and] at hno
              have hne := hno hentry
              omega
          obtain ⟨d, hd, hd'⟩ := times_pos.mp hpos'
          exact ⟨d, List.mem_append_left _ hd, hd'⟩
        · exact ⟨e, List.mem_append_right _ he, hentry⟩

/-! ## The loop -/

section

variable (perl : Perl)

/-- A line that is told is treated as it should be. -/
theorem readEntry_told {entries : List Text} {line : Text} (h : Told perl entries line) :
    readEntry perl entries line = some (keep entries line) := by
  cases hentry : entryOf line with
  | none =>
    rw [keep_of_none hentry]
    unfold readEntry
    rw [hentry]
  | some pair =>
    obtain ⟨p, hp, htold⟩ := h pair.1 pair.2 hentry
    rw [← times_pos] at htold
    rw [keep_of_entry hentry]
    unfold readEntry
    rw [hentry]
    simp only [hp]
    by_cases hpos : 0 < times entries pair
    · have hany := htold.mpr hpos
      rw [if_pos hpos, if_neg]
      rw [List.countP_eq_zero]
      intro hno
      obtain ⟨e, he, hpe⟩ := List.any_eq_true.mp hany
      exact hno e he hpe
    · rw [if_neg hpos, if_pos]
      rw [List.countP_eq_zero]
      intro e he hpe
      exact hpos (htold.mp (List.any_eq_true.mpr ⟨e, he, hpe⟩))

theorem foldlM_sound {entries lines : List Text} (h : Sound perl entries lines) :
    lines.foldlM (readEntry perl) entries = some (lines.foldl keep entries) := by
  induction lines generalizing entries with
  | nil => rfl
  | cons line lines ih =>
    obtain ⟨hfirst, hrest⟩ := forall_split_cons.mp h
    have htold : Told perl entries line := hfirst
    rw [List.foldlM_cons, readEntry_told perl htold]
    exact ih hrest

/-- What one line does to the entries. -/
theorem readEntry_cases {entries entries' : List Text} {line : Text} (h : readEntry perl entries line = some entries') :
    (entryOf line = none ∧ entries' = entries) ∨ ∃ tag pkg p, entryOf line = some (tag, pkg) ∧ entryRegex perl tag pkg = some p ∧
      ((entries.any p = true ∧ entries' = entries) ∨ (entries.any p = false ∧ entries' = entries ++ [line])) := by
  unfold readEntry at h
  split at h
  · rename_i hentry
    exact Or.inl ⟨hentry, (Option.some.inj h).symm⟩
  · rename_i tag pkg hentry
    split at h
    · cases h
    · rename_i p hp
      refine Or.inr ⟨tag, pkg, p, hentry, hp, ?_⟩
      split at h
      · rename_i hzero
        refine Or.inr ⟨?_, (Option.some.inj h).symm⟩
        rw [List.any_eq_false]
        exact List.countP_eq_zero.mp hzero
      · rename_i hsome
        refine Or.inl ⟨?_, (Option.some.inj h).symm⟩
        by_contra hno
        rw [Bool.not_eq_true, List.any_eq_false] at hno
        exact hsome (List.countP_eq_zero.mpr hno)

/-- No entry is lost, and a pair whose expression matches an entry is not added. -/
theorem foldlM_later {entries entries' lines : List Text} (h : lines.foldlM (readEntry perl) entries = some entries') :
    (∀ pair, times entries pair ≤ times entries' pair) ∧
      ∀ tag pkg p, entryRegex perl tag pkg = some p → entries.any p = true →
        times entries' (tag, pkg) = times entries (tag, pkg) := by
  induction lines generalizing entries with
  | nil =>
    cases h
    exact ⟨fun pair => Nat.le_refl _, fun _ _ _ _ _ => rfl⟩
  | cons line lines ih =>
    rw [List.foldlM_cons] at h
    obtain ⟨mid, hline, hrest⟩ := Option.bind_eq_some_iff.mp h
    obtain ⟨hmono, hsame⟩ := ih hrest
    rcases readEntry_cases perl hline with ⟨-, rfl⟩ | ⟨tag, pkg, p, hentry, hp, ⟨-, rfl⟩ | ⟨hnone, rfl⟩⟩
    · exact ⟨hmono, hsame⟩
    · exact ⟨hmono, hsame⟩
    · refine ⟨fun pair => ?_, fun tag' pkg' p' hp' hany => ?_⟩
      · have hle := hmono pair
        rw [times_append] at hle
        omega
      · have hany' : (entries ++ [line]).any p' = true := by
          rw [List.any_append, hany, Bool.true_or]
        rw [hsame tag' pkg' p' hp' hany', times_append, times_singleton, if_neg]
        · rfl
        · intro heq
          rw [hentry, Option.some.injEq, Prod.mk.injEq] at heq
          obtain ⟨rfl, rfl⟩ := heq
          rw [hp, Option.some.injEq] at hp'
          rw [← hp', hnone] at hany
          cases hany

/-- A run that gives each pair of its lines once has told every line. -/
theorem sound_of_once {entries entries' lines : List Text} (h : lines.foldlM (readEntry perl) entries = some entries')
    (honce : ∀ line ∈ lines, ∀ pair, entryOf line = some pair → times entries' pair = 1) : Sound perl entries lines := by
  induction lines generalizing entries with
  | nil => exact forall_split_nil
  | cons line lines ih =>
    rw [List.foldlM_cons] at h
    obtain ⟨mid, hline, hrest⟩ := Option.bind_eq_some_iff.mp h
    obtain ⟨hmono, hsame⟩ := foldlM_later perl hrest
    have htold : Told perl entries line := by
      intro tag pkg hentry
      have hone := honce line List.mem_cons_self (tag, pkg) hentry
      rcases readEntry_cases perl hline with ⟨hno, -⟩ | ⟨tag', pkg', p, hentry', hp, hcase⟩
      · rw [hno] at hentry
        cases hentry
      · rw [hentry, Option.some.injEq, Prod.mk.injEq] at hentry'
        obtain ⟨rfl, rfl⟩ := hentry'
        refine ⟨p, hp, ?_⟩
        rw [← times_pos]
        rcases hcase with ⟨hany, rfl⟩ | ⟨hnone, rfl⟩
        · -- an entry is matched, so that the pair is never added
          have heq := hsame tag pkg p hp hany
          exact iff_of_true hany (by omega)
        · -- the line is added, so that the pair was not there
          have hle := hmono (tag, pkg)
          rw [times_append, times_singleton, if_pos hentry] at hle
          exact iff_of_false (by rw [hnone]; exact Bool.false_ne_true) (by omega)
    have hmid : mid = keep entries line := by
      rw [readEntry_told perl htold, Option.some.injEq] at hline
      exact hline.symm
    rw [hmid] at hrest
    exact forall_split_cons.mpr ⟨htold, ih hrest fun l hl => honce l (List.mem_cons_of_mem line hl)⟩

end

/-! ## The file -/

section

variable (perl : Perl) (isASuite : Bool) (depend : Option Text)

theorem defaults_entries : ∀ e ∈ defaults isASuite, (entryOf e).isSome ∧ '\n' ∉ e := by
  cases isASuite <;> decide +kernel

theorem defaults_once : ∀ e ∈ defaults isASuite, ∀ pair, entryOf e = some pair → times (defaults isASuite) pair = 1 := by
  have hall : ∀ e ∈ defaults isASuite, times (defaults isASuite) ((entryOf e).getD ('P', [])) = 1 := by
    cases isASuite <;> decide
  intro e he pair hpair
  have hone := hall e he
  rwa [hpair, Option.getD_some] at hone

theorem lines_ne_nl : ∀ l ∈ depend.elim [] linesOf, '\n' ∉ l := by
  cases depend with
  | none => exact fun l hl => by cases hl
  | some t => exact fun l hl => newline_notMem_of_mem_linesOf hl

/-- The entries of a run are defaults and lines with a pair, so that the lines of the file are the entries. -/
theorem foldlM_entries {entries entries' lines : List Text} (h : lines.foldlM (readEntry perl) entries = some entries')
    (hentries : ∀ e ∈ entries, (entryOf e).isSome ∧ '\n' ∉ e) (hlines : ∀ l ∈ lines, '\n' ∉ l) :
    ∀ e ∈ entries', (entryOf e).isSome ∧ '\n' ∉ e := by
  induction lines generalizing entries with
  | nil =>
    cases h
    exact hentries
  | cons line lines ih =>
    rw [List.foldlM_cons] at h
    obtain ⟨mid, hline, hrest⟩ := Option.bind_eq_some_iff.mp h
    refine ih hrest ?_ fun l hl => hlines l (List.mem_cons_of_mem line hl)
    rcases readEntry_cases perl hline with ⟨-, rfl⟩ | ⟨tag, pkg, p, hentry, -, ⟨-, rfl⟩ | ⟨-, rfl⟩⟩
    · exact hentries
    · exact hentries
    · intro e he
      rcases List.mem_append.mp he with he | he
      · exact hentries e he
      · rw [List.mem_singleton.mp he, hentry]
        exact ⟨rfl, hlines line List.mem_cons_self⟩

theorem countP_file {entries : List Text} (h : ∀ e ∈ entries, (entryOf e).isSome ∧ '\n' ∉ e) (tag : Char) (pkg : Text) :
    (linesOf (entries.flatMap fun e => e ++ ['\n'])).countP (pairOf · = [[tag], pkg]) = times entries (tag, pkg) := by
  rw [linesOf_lines fun e he => (h e he).2]
  apply List.countP_congr
  intro e he
  rw [decide_eq_true_eq, decide_eq_true_eq]
  exact pairOf_iff (h e he).1 tag pkg

/-- A name whose characters stand for themselves is told from the entries unless it is the beginning of one of theirs. -/
theorem told_plain {entries : List Text} (hentries : ∀ e ∈ entries, (entryOf e).isSome) {line : Text} {tag : Char} {pkg : Text}
    (hentry : entryOf line = some (tag, pkg)) (hpkg : pkg.any Regex.isMeta = false) :
    Told perl entries line ↔
      ((∃ e ∈ entries, ∃ pkg', entryOf e = some (tag, pkg') ∧ pkg <+: pkg') → ∃ e ∈ entries, entryOf e = some (tag, pkg)) := by
  have hregex : ∃ p, entryRegex perl tag pkg = some p ∧
      (entries.any p = true ↔ ∃ e ∈ entries, ∃ pkg', entryOf e = some (tag, pkg') ∧ pkg <+: pkg') := by
    refine ⟨_, by rw [entryRegex, hpkg]; rfl, ?_⟩
    rw [List.any_eq_true]
    refine exists_congr fun e => and_congr_right fun he => ?_
    obtain ⟨⟨tag', pkg'⟩, hentry'⟩ := Option.isSome_iff_exists.mp (hentries e he)
    obtain ⟨-, -, c, t, rfl, hspace, hpkg'⟩ := entryOf_eq_some hentry'
    obtain ⟨-, -, c', t', -, -, hwhole⟩ := entryOf_eq_some hentry
    have hfree : ∀ d ∈ pkg, isSpace d = false := by
      intro d hd
      rw [hwhole] at hd
      have hno := List.all_eq_true.mp List.all_takeWhile d hd
      rwa [Bool.not_eq_true'] at hno
    have hprefix : pkg <+: (c :: t).dropWhile isSpace ↔ pkg <+: pkg' := by
      rw [hpkg']
      constructor
      · rintro ⟨r, hr⟩
        rw [← hr, List.takeWhile_append_of_pos fun d hd => by rw [hfree d hd]; rfl]
        exact List.prefix_append _ _
      · exact fun hpre => hpre.trans (List.takeWhile_prefix _)
    simp only [List.head?_cons, List.tail_cons, Option.any_some, hspace, Bool.and_true, Bool.and_eq_true, beq_iff_eq,
      Option.some.injEq, List.isPrefixOf_iff_prefix, hprefix, hentry', Prod.mk.injEq]
    constructor
    · rintro ⟨rfl, hpre⟩
      exact ⟨pkg', ⟨rfl, rfl⟩, hpre⟩
    · rintro ⟨pkg'', ⟨rfl, rfl⟩, hpre⟩
      exact ⟨rfl, hpre⟩
  obtain ⟨p, hp, hany⟩ := hregex
  constructor
  · intro htold hprefix
    obtain ⟨p', hp', htold⟩ := htold tag pkg hentry
    rw [hp, Option.some.injEq] at hp'
    subst hp'
    exact htold.mp (hany.mpr hprefix)
  · intro hknown tag' pkg' hentry'
    rw [hentry, Option.some.injEq, Prod.mk.injEq] at hentry'
    obtain ⟨rfl, rfl⟩ := hentry'
    refine ⟨p, hp, ?_⟩
    rw [hany]
    exact ⟨hknown, fun ⟨e, he, heq⟩ => ⟨e, he, pkg, heq, List.prefix_rfl⟩⟩

/-- The depend file has each pair once just when every line is told from the entries before it. -/
theorem buildDepend_iff : EachOnce perl isASuite depend ↔ Sound perl (defaults isASuite) (depend.elim [] linesOf) := by
  have hdefaults := defaults_entries isASuite
  have hlines := lines_ne_nl depend
  unfold EachOnce buildDepend
  generalize depend.elim [] linesOf = lines at hlines
  constructor
  · rintro ⟨out, hout, honce⟩
    obtain ⟨entries, hrun, rfl⟩ := Option.map_eq_some_iff.mp hout
    have hentries := foldlM_entries perl hrun hdefaults hlines
    apply sound_of_once perl hrun
    intro line hline pair hpair
    rw [← countP_file hentries pair.1 pair.2]
    exact honce line (List.mem_append_right _ hline) pair.1 pair.2 hpair
  · intro hsound
    have hrun := foldlM_sound perl hsound
    have hentries := foldlM_entries perl hrun hdefaults hlines
    refine ⟨_, by rw [hrun]; rfl, fun entry hentry tag pkg hpair => ?_⟩
    rw [countP_file hentries]
    apply times_foldl_keep _ lines ⟨entry, hentry, hpair⟩
    by_cases hpos : 0 < times (defaults isASuite) (tag, pkg)
    · obtain ⟨e, he, hpair'⟩ := times_pos.mp hpos
      rw [defaults_once isASuite e he _ hpair']
    · omega

end

/-- `SUNWcs` is taken for `SUNWcsr`, and is lost. -/
theorem depend_lost : buildDepend Perl.plain false (some "P SUNWcs".toList) = buildDepend Perl.plain false none ∧
    ¬EachOnce Perl.plain false (some "P SUNWcs".toList) := by
  have hsame : buildDepend Perl.plain false (some "P SUNWcs".toList) = buildDepend Perl.plain false none := rfl
  refine ⟨hsame, ?_⟩
  rintro ⟨out, hout, honce⟩
  have hone := honce "P SUNWcs".toList (by decide) 'P' "SUNWcs".toList rfl
  rw [hsame] at hout
  have hout' : out = dependEntries.flatMap fun entry => entry ++ ['\n'] := (Option.some.inj hout).symm
  rw [hout'] at hone
  revert hone
  decide

end ZfsTest.Stf.Depend
