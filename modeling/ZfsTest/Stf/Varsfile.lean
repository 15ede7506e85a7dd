import ZfsTest.Shell.Exports
import ZfsTest.Stf.Wordlist

/-!
# The configuration variables

`create_vars_file` writes a line `export NAME="value"` for each variable. The value is expanded without quotes, so that its blanks are the
ends of fields and the fields are patterns, `echo` reads what is left, and the shell that sources the file reads the text between the
double quotes once more.

A value survives when none of these three stages has anything to do for it (`Frame.Plain`), and every other value is lost in some
directory or some shell (`vars_restored_iff`).
-/

namespace ZfsTest.Stf.Varsfile

open Shell

/-! ## Writing -/

theorem isIfs_blank : isIfs ' ' = true := rfl

theorem isIfs_newline : isIfs '\n' = true := rfl

/-- Names have no separators. -/
theorem isIfs_of_isNameChar (c : Char) (hc : isNameChar c = true) : isIfs c = false := by
  simp only [isIfs, Bool.or_eq_false_iff, decide_eq_false_iff_not]
  refine ⟨⟨?_, ?_⟩, ?_⟩ <;> exact ne_of_isNameChar hc (by decide)

/-- `export NAME="value"`. -/
def quotes : Frame isIfs where
  opening _ := ['=', '"']
  closing := ['"']
  blank := isIfs_blank
  newline := isIfs_newline
  name := isIfs_of_isNameChar
  opening_equal _ := rfl
  opening_still _ _ c hc := by
    rcases List.mem_pair.mp hc with rfl | rfl
    · exact ⟨rfl, rfl, by decide⟩
    · exact ⟨rfl, rfl, by decide⟩
  closing_cons := by simp
  closing_still c hc := by
    obtain rfl := List.mem_singleton.mp hc
    exact ⟨rfl, rfl⟩

/-- A list of variables as text, with a blank in front of each. -/
def varList (names : List Var) : Text := names.flatMap fun n => ' ' :: n.val

def comments : List Text :=
  ["# This file is created by stf_configure. Do not hand edit - ".toList, "# make changes through stf_configure.".toList, []]

def STF_VARIABLES : Var := ⟨"STF_VARIABLES".toList, by decide⟩

def STF_NOT_SAFE : Var := ⟨"STF_NOT_SAFE".toList, by decide⟩

def header (notSafe names : List Var) : List Text :=
  comments ++ [quotes.line STF_VARIABLES.val (varList names), quotes.line STF_NOT_SAFE.val (varList notSafe)]

/-- The file that `create_vars_file` writes. `eval` expands the value without quotes. -/
def createVarsFile (dir : Directory) (notSafe names : List Var) (value : Var → Text) : Text :=
  (header notSafe names).flatMap echo ++ names.flatMap fun n => writtenLine isIfs dir (quotes.line n.val (value n))

/-! ## Reading -/

/-- A character that begins an expansion behind `$`. -/
def isExpansion (c : Char) : Bool := isNameChar c || "\x7b(*@#?-$!".toList.contains c

/-- The text up to the double quote that ends the line, if there is nothing in it to be expanded. -/
def unquoted : Text → Option Text
  | [] => none
  | ['"'] => some []
  | '\\' :: c :: t => if isSpecial c then (unquoted t).map (c :: ·) else (unquoted t).map fun u => '\\' :: c :: u
  | '$' :: c :: t => if isExpansion c then none else (unquoted (c :: t)).map ('$' :: ·)
  | c :: t => if c = '"' || c = '\x60' then none else (unquoted t).map (c :: ·)

/-- A line of the file: a comment, an assignment, or something else. -/
def parse (l : Text) : Option (List (Text × Text)) :=
  if l = [] ∨ l.head? = some '#' then some []
  else quotes.parse unquoted l

def assign (env : Variables) (a : Text × Text) : Variables := Function.update env a.1 (some a.2)

/-- `sourcefile`: the variables behind the file, in a shell with the variables `env` that does `other` where the file is more than
assignments of texts. -/
def sourcefile (other : List Text → Text → Variables → Variables) (file : Text) (env : Variables) : Variables :=
  source parse assign other (cutLines file).1 (cutLines file).2 env

/-! ## Surviving -/

/-- In every directory and every shell the variables have their values. -/
def Survives (notSafe names : List Var) (value : Var → Text) : Prop :=
  ∀ dir other env, ∀ n ∈ names, sourcefile other (createVarsFile dir notSafe names value) env n.val = some (value n)

/-! ## Between the double quotes -/

theorem reads_of_unquoted {t v : Text} (h : unquoted t = some v) : Reads ['"'] t v := by
  induction t using unquoted.induct generalizing v with
  | case1 => cases h
  | case2 =>
    cases h
    exact ⟨Nat.le_refl 1, fun _ => rfl⟩
  | case3 c t hc ih =>
    rw [unquoted, if_pos hc] at h
    obtain ⟨u, hu, rfl⟩ := Option.map_eq_some_iff.mp h
    have hle := (ih hu).1
    rw [List.length_append, List.length_singleton] at hle
    refine ⟨?_, fun hlen => absurd hlen ?_⟩ <;> simp only [List.length_append, List.length_cons, List.length_nil] <;> omega
  | case4 c t hc ih =>
    rw [unquoted, if_neg hc] at h
    obtain ⟨u, hu, rfl⟩ := Option.map_eq_some_iff.mp h
    exact ((ih hu).cons c).cons '\\'
  | case5 c t hc =>
    rw [unquoted, if_pos hc] at h
    cases h
  | case6 c t hc ih =>
    rw [unquoted, if_neg hc] at h
    obtain ⟨u, hu, rfl⟩ := Option.map_eq_some_iff.mp h
    exact (ih hu).cons '$'
  | case7 c t hno hno' hno'' hc =>
    rw [unquoted, if_pos hc] at h
    · cases h
    · exact hno
    · exact hno'
    · exact hno''
  | case8 c t hno hno' hno'' hc ih =>
    rw [unquoted, if_neg hc] at h
    · obtain ⟨u, hu, rfl⟩ := Option.map_eq_some_iff.mp h
      exact (ih hu).cons c
    · exact hno
    · exact hno'
    · exact hno''

/-- A text without special characters is read as it is. -/
theorem unquoted_plain {t : Text} (ht : ∀ c ∈ t, isSpecial c = false) : unquoted (t ++ ['"']) = some t := by
  induction t with
  | nil => rfl
  | cons c t ih =>
    have hc := ht c List.mem_cons_self
    simp only [isSpecial, Bool.or_eq_false_iff, decide_eq_false_iff_not] at hc
    obtain ⟨⟨⟨hdollar, hquote⟩, hback⟩, hbackquote⟩ := hc
    rw [List.cons_append, unquoted, if_neg (by simp [hquote, hbackquote]), ih fun d hd => ht d (List.mem_cons_of_mem c hd)]
    · rfl
    · exact fun h _ => hquote h
    · exact fun _ _ h _ => hback h
    · exact fun _ _ h _ => hdollar h

/-! ## The header -/

section

variable (notSafe names : List Var)

theorem mem_varList {c : Char} (hc : c ∈ varList names) : c = ' ' ∨ isNameChar c = true := by
  obtain ⟨n, -, hc⟩ := List.mem_flatMap.mp hc
  rcases List.mem_cons.mp hc with rfl | hc
  · exact Or.inl rfl
  · exact Or.inr (isNameChar_of_isName n.2 c hc)

theorem varList_special : ∀ c ∈ varList names, isSpecial c = false := by
  intro c hc
  rcases mem_varList names hc with rfl | hc
  · rfl
  · simp only [isSpecial, Bool.or_eq_false_iff, decide_eq_false_iff_not]
    refine ⟨⟨⟨?_, ?_⟩, ?_⟩, ?_⟩ <;> exact ne_of_isNameChar hc (by decide)

/-- The lines of the header are written as they are, and are lines. -/
theorem header_lines : ∀ l ∈ header notSafe names, '\\' ∉ l ∧ '\n' ∉ l := by
  have hlist : ∀ (v : Var) (ns : List Var), '\\' ∉ quotes.line v.val (varList ns) ∧ '\n' ∉ quotes.line v.val (varList ns) := by
    intro v ns
    have hchars : ∀ c ∈ quotes.line v.val (varList ns), c = ' ' ∨ isIfs c = false ∧ c ≠ '\\' := by
      intro c hc
      rw [Frame.line, List.mem_append, List.mem_append] at hc
      rcases hc with hc | hc | hc
      · exact (Frame.mem_front v.2 hc).imp id fun h => ⟨h.1, h.2.2⟩
      · exact (mem_varList ns hc).imp id fun h => ⟨isIfs_of_isNameChar c h, ne_of_isNameChar h (by decide)⟩
      · obtain rfl := List.mem_singleton.mp hc
        exact Or.inr ⟨rfl, by decide⟩
    refine ⟨fun hmem => ?_, fun hmem => ?_⟩
    · rcases hchars _ hmem with h | h
      · cases h
      · exact h.2 rfl
    · rcases hchars _ hmem with h | h
      · cases h
      · cases h.1
  have hcomments : ∀ l ∈ comments, '\\' ∉ l ∧ '\n' ∉ l := by decide +kernel
  intro l hl
  rw [header, List.mem_append, List.mem_pair] at hl
  rcases hl with hl | rfl | rfl
  · exact hcomments l hl
  · exact hlist STF_VARIABLES names
  · exact hlist STF_NOT_SAFE notSafe

theorem header_text : (header notSafe names).flatMap echo = (header notSafe names).flatMap ended :=
  List.flatMap_congr fun l hl => echo_plain (header_lines notSafe names l hl).1

theorem parse_front (n t : Text) : parse (quotes.front n ++ t) = quotes.parse unquoted (quotes.front n ++ t) := by
  refine if_neg ?_
  rintro (h | h)
  · cases h
  · cases h

theorem parse_line {n value : Text} (hn : isName n = true) (h : unquoted (value ++ quotes.closing) = some value) :
    parse (quotes.line n value) = some [(n, value)] := by
  rw [Frame.line, parse_front]
  exact Frame.parse_line hn h

/-- What the lines of the header are read as. -/
theorem parse_header : (header notSafe names).map parse =
    [some [], some [], some [], some [(STF_VARIABLES.val, varList names)], some [(STF_NOT_SAFE.val, varList notSafe)]] := by
  have hcomments : comments.map parse = [some [], some [], some []] := by decide
  rw [header, List.map_append, hcomments, List.map_cons, List.map_cons, parse_line STF_VARIABLES.2 (unquoted_plain (varList_special names)),
    parse_line STF_NOT_SAFE.2 (unquoted_plain (varList_special notSafe))]
  rfl

end

/-! ## What the shell reads -/

section

variable {notSafe names : List Var} {value : Var → Text}

/-- The file, cut into lines: the header in front of the lines of the variables. -/
theorem cutLines_file (dir : Directory) :
    cutLines (createVarsFile dir notSafe names value) =
      (header notSafe names ++ (cutLines (names.flatMap fun n => writtenLine isIfs dir (quotes.line n.val (value n)))).1,
        (cutLines (names.flatMap fun n => writtenLine isIfs dir (quotes.line n.val (value n)))).2) := by
  rw [createVarsFile, header_text, cutLines_lines fun l hl => (header_lines notSafe names l hl).2]

theorem foldl_assign (ns : List Var) (env : Variables) (n : Var) :
    (ns.map fun m => (m.val, value m)).foldl assign env n.val = if n ∈ ns then some (value n) else env n.val := by
  induction ns generalizing env with
  | nil => simp
  | cons m ns ih =>
    rw [List.map_cons, List.foldl_cons, ih]
    by_cases hn : n ∈ ns
    · simp [hn]
    · by_cases hm : n = m
      · subst hm
        simp [hn, assign]
      · have hval : n.val ≠ m.val := fun h => hm (Subtype.ext h)
        simp [hn, hm, assign, hval]

theorem header_some : ∀ l ∈ header notSafe names, (parse l).isSome = true := by
  intro l hl
  have hmem := List.mem_map_of_mem (f := parse) hl
  rw [parse_header] at hmem
  simp only [List.mem_cons, List.not_mem_nil, or_false] at hmem
  rcases hmem with h | h | h | h | h <;> rw [h] <;> rfl

theorem header_assignments : assignments parse (header notSafe names) =
    [(STF_VARIABLES.val, varList names), (STF_NOT_SAFE.val, varList notSafe)] := by
  rw [assignments_eq, parse_header]
  rfl

/-- Plain values are restored, in every directory and in every shell. -/
theorem survives_of_plain (h : ∀ n ∈ names, quotes.Plain unquoted n.val (value n)) : Survives notSafe names value := by
  intro dir other env n hn
  have hlines := @Frame.cutLines_plain isIfs quotes Var id unquoted names value h dir
  have hparse : ∀ m ∈ names, parse (quotes.line m.val (value m)) = some [(m.val, value m)] := fun m hm => parse_line m.2 (h m hm).unquoted
  have hsome : ∀ l ∈ header notSafe names ++ names.map fun m => quotes.line m.val (value m), (parse l).isSome = true := by
    intro l hl
    rcases List.mem_append.mp hl with hl | hl
    · exact header_some l hl
    · obtain ⟨m, hm, rfl⟩ := List.mem_map.mp hl
      rw [hparse m hm]
      rfl
  have hassigned : assignments parse (names.map fun m => quotes.line m.val (value m)) = names.map fun m => (m.val, value m) := by
    rw [assignments, List.flatMap_map, List.map_eq_flatMap]
    exact List.flatMap_congr fun m hm => by rw [hparse m hm]; rfl
  simp only [id_eq] at hlines
  rw [sourcefile, cutLines_file, hlines, source_lines hsome, assignments_append, hassigned, List.foldl_append, foldl_assign, if_pos hn]

/-! ## What else is lost -/

theorem assign_eq_some {n v : Text} (env : Variables) (a : Text × Text) (h : assign env a n = some v) : env n = some v ∨ a = (n, v) := by
  unfold assign at h
  by_cases hn : n = a.1
  · rw [hn, Function.update_self, Option.some.injEq] at h
    exact Or.inr (Prod.ext hn.symm h)
  · rw [Function.update_of_ne hn] at h
    exact Or.inl h

/-- An assignment that is read in a line that is not empty, and no comment, is that of the frame. -/
theorem parse_cases {l : Text} {as : List (Text × Text)} (h : parse l = some as) : as = [] ∨ quotes.parse unquoted l = some as := by
  unfold parse at h
  split at h
  · exact Or.inl (Option.some.inj h).symm
  · exact Or.inr h

/-- A variable that is found in the end has a line of its own behind the header. -/
theorem found_line (hnotLists : STF_VARIABLES ∉ names ∧ STF_NOT_SAFE ∉ names) (h : Survives notSafe names value) {n : Var}
    (hn : n ∈ names) :
    ∃ t, quotes.front n.val ++ t ∈
        (cutLines (names.flatMap fun m => writtenLine isIfs .crossed (quotes.line m.val (value m)))).1 ∧
      unquoted t = some (value n) := by
  have hfound := h .crossed (fun _ _ _ => fun _ => none) (fun _ => none) n hn
  rw [sourcefile, cutLines_file] at hfound
  have hassigned := assigned_of_source assign_eq_some hfound
  rw [assignments_append, header_assignments, List.mem_append, List.mem_pair, Prod.mk.injEq, Prod.mk.injEq] at hassigned
  rcases hassigned with (⟨hlist, -⟩ | ⟨hlist, -⟩) | hassigned
  · exact absurd (Subtype.ext hlist ▸ hn) hnotLists.1
  · exact absurd (Subtype.ext hlist ▸ hn) hnotLists.2
  · obtain ⟨l, hl, as, has, hmem⟩ := mem_assignments hassigned
    rcases parse_cases has with rfl | has
    · cases hmem
    · obtain ⟨t, rfl, ht⟩ := Frame.mem_parse has hmem
      exact ⟨t, hl, ht⟩

/-- The plain values are those that survive. Duplicates and the lists themselves are only known to survive where they are plain. -/
theorem vars_restored_iff (notSafe names : List Var) (value : Var → Text) :
    ((∀ n ∈ names, quotes.Plain unquoted n.val (value n)) → Survives notSafe names value) ∧
      (names.Nodup → STF_VARIABLES ∉ names ∧ STF_NOT_SAFE ∉ names →
        (Survives notSafe names value ↔ ∀ n ∈ names, quotes.Plain unquoted n.val (value n))) := by
  refine ⟨survives_of_plain, fun hnodup hnotLists => ⟨fun h => ?_, survives_of_plain⟩⟩
  exact @Frame.plain_of_read isIfs quotes Var id unquoted names value hnodup Function.injective_id
    (fun t v ht => reads_of_unquoted ht) fun n hn => found_line hnotLists h hn

end

def opts : Var := ⟨"OPTS".toList, by decide⟩

/-- One of two blanks is lost. -/
theorem blank_lost : ¬Survives [] [opts] fun _ => "a  b".toList := by
  intro h
  have hread := h .crossed (fun _ _ env => env) (fun _ => none) opts List.mem_cons_self
  revert hread
  decide +kernel

end ZfsTest.Stf.Varsfile
