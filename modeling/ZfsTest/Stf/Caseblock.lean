import ZfsTest.Stf.Product

/-!
# The reader of caseblock files

`process_caseblock` reads a file line by line. Between `<testcases>` and `</testcases>` it collects component lines, and hands them to
the case block parser at the end of the block, unless a value list is null. Lines with `<DEFINE>` set variables wherever they stand.

A `</testcases>` behind no component line is passed over without closing the block. So the reader takes the blocks of a file for what
they are unless a tag follows the end of an empty block (`readCaseblock_iff`).
-/

namespace ZfsTest.Stf.Testgen

/-! ## The code -/

/-- A line as `read this_argtype argspecific` splits it. -/
structure Line where
  argtype : Text
  argspecific : Text
  deriving DecidableEq, Repr

inductive Kind
  | define
  | opening
  | closing
  | component
  deriving DecidableEq, Repr

def Line.kind (l : Line) : Kind :=
  if l.argtype = "<DEFINE>".toList then .define
  else if l.argtype = "<testcases>".toList then .opening
  else if l.argtype = "</testcases>".toList then .closing
  else .component

/-- What the reader calls: `eval` and `export` for a definition, `eval set -A argvars --`, and the case block parser. -/
structure Shell (σ : Type) where
  define : Text → σ → σ
  argvars : Text → σ → List Text
  processargs : List ArgLine → σ → σ

/-- The variables of the reader, with the lines that the three arrays hold, and the shell. -/
structure Reader (σ : Type) where
  caseBegin : Bool
  lineNum : Nat
  block : List ArgLine
  skip : Bool
  shell : σ

variable {σ : Type} (sh : Shell σ)

/-- A component line, with its lists evaluated. -/
def argLine (l : Line) (s : σ) : ArgLine :=
  let argvars := sh.argvars l.argspecific s
  ⟨l.argtype, argvars.getD 0 [], argvars.getD 1 []⟩

def lackOfEnd : Text := "invalid file format:lack of </testcases>".toList
def lackOfStart : Text := "invalid file format:lack of <testcases>".toList

/-- One line; an error is the message of `gen_fail`. -/
def readLine (r : Reader σ) (l : Line) : Except Text (Reader σ) :=
  match l.kind with
  | .define => .ok { r with shell := sh.define l.argspecific r.shell }
  | .opening =>
    if r.caseBegin then .error lackOfEnd
    else .ok { r with caseBegin := true, lineNum := 0, block := [], skip := false }
  | .closing =>
    if r.caseBegin = false then .error lackOfStart
    else if r.lineNum < 1 then .ok r
    else
      let shell := if r.skip = false then sh.processargs r.block r.shell else r.shell
      .ok { r with caseBegin := false, lineNum := 0, block := [], shell := shell }
  | .component =>
    if r.caseBegin then
      let a := argLine sh l r.shell
      .ok { r with lineNum := r.lineNum + 1, block := r.block ++ [a], skip := r.skip || a.values = [] }
    else .ok r

/-- `process_caseblock`, on the lines of a file that are neither blank nor a comment. -/
def processCaseblock (lines : List Line) (s : σ) : Except Text (Reader σ) := lines.foldlM (readLine sh) ⟨false, 0, [], false, s⟩

/-! ## Blocks -/

def Line.IsTag (l : Line) : Prop := l.kind = .opening ∨ l.kind = .closing

/-- Whether a block is open behind a line. -/
def afterLine (isOpen : Bool) (l : Line) : Bool :=
  match l.kind with
  | .opening => true
  | .closing => false
  | _ => isOpen

/-- A `<testcases>` in an open block, or a `</testcases>` outside of one. -/
def Unbalanced (lines : List Line) : Prop :=
  ∃ before l behind, lines = before ++ l :: behind ∧
    ((l.kind = .opening ∧ before.foldl afterLine false = true) ∨ (l.kind = .closing ∧ before.foldl afterLine false = false))

/-- A block with a component line and without a null list. -/
def Complete (block : List ArgLine) : Prop := block ≠ [] ∧ ∀ a ∈ block, a.values ≠ []

instance (block : List ArgLine) : Decidable (Complete block) := inferInstanceAs (Decidable (_ ∧ _))

/-- The shell behind a file: all definitions are made, and the cases of each complete block are generated at its end. `b` is the block
that is open. -/
def generated : Option (List ArgLine) → List Line → σ → σ
  | _, [], s => s
  | b, l :: lines, s =>
    match l.kind with
    | .define => generated b lines (sh.define l.argspecific s)
    | .opening => generated (some []) lines s
    | .closing => generated none lines (b.elim s fun block => if Complete block then sh.processargs block s else s)
    | .component => generated (b.map fun block => block ++ [argLine sh l s]) lines s

/-- The reader fails for an unbalanced file, and otherwise generates the cases of its blocks. -/
def ReadsBlocks (lines : List Line) (s : σ) : Prop :=
  ((∃ message, processCaseblock sh lines s = .error message) ↔ Unbalanced lines) ∧
    ∀ r, processCaseblock sh lines s = .ok r → r.shell = generated sh none lines s

/-! ## Empty blocks -/

/-- Nothing but definitions up to a `</testcases>`, and a tag behind it. -/
def ClosesEmpty (lines : List Line) : Prop :=
  ∃ defs l behind, lines = defs ++ l :: behind ∧ (∀ d ∈ defs, d.kind = .define) ∧ l.kind = .closing ∧ ∃ t ∈ behind, t.IsTag

/-- A tag behind the end of an empty block. -/
def TagBehindEmpty (lines : List Line) : Prop :=
  ∃ before l block, lines = before ++ l :: block ∧ l.kind = .opening ∧ ClosesEmpty block

/-- The lines without those that end an empty block; `empty` tells whether a `</testcases>` in front would. -/
def withoutEmptyEnds : Bool → List Line → List Line
  | _, [] => []
  | empty, l :: lines =>
    match l.kind with
    | .define => l :: withoutEmptyEnds empty lines
    | .opening => l :: withoutEmptyEnds true lines
    | .closing => if empty then withoutEmptyEnds true lines else l :: withoutEmptyEnds false lines
    | .component => l :: withoutEmptyEnds false lines

variable {r : Reader σ} {l : Line} {lines : List Line} {isOpen empty : Bool} {b : Option (List ArgLine)} {s : σ}

/-! ## Unbalanced lines -/

/-- Unbalanced lines, read with a block open or not. -/
def UnbalancedFrom (isOpen : Bool) : List Line → Prop
  | [] => False
  | l :: lines => (l.kind = .opening ∧ isOpen = true) ∨ (l.kind = .closing ∧ isOpen = false) ∨ UnbalancedFrom (afterLine isOpen l) lines

theorem unbalancedFrom_iff (isOpen : Bool) (lines : List Line) : UnbalancedFrom isOpen lines ↔
    ∃ before l behind, lines = before ++ l :: behind ∧
      ((l.kind = .opening ∧ before.foldl afterLine isOpen = true) ∨ (l.kind = .closing ∧ before.foldl afterLine isOpen = false)) := by
  induction lines generalizing isOpen with
  | nil => simp [UnbalancedFrom]
  | cons x lines ih =>
    rw [UnbalancedFrom, ih]
    constructor
    · rintro (h | h | ⟨before, l, behind, rfl, h⟩)
      · exact ⟨[], x, lines, rfl, Or.inl h⟩
      · exact ⟨[], x, lines, rfl, Or.inr h⟩
      · exact ⟨x :: before, l, behind, rfl, h⟩
    · rintro ⟨before, l, behind, heq, h⟩
      cases before with
      | nil =>
        obtain ⟨rfl, rfl⟩ := List.cons.inj heq
        exact h.imp_right Or.inl
      | cons y before =>
        obtain ⟨rfl, rfl⟩ := List.cons.inj heq
        exact Or.inr (Or.inr ⟨before, l, behind, rfl, h⟩)

theorem unbalanced_iff (lines : List Line) : Unbalanced lines ↔ UnbalancedFrom false lines := (unbalancedFrom_iff false lines).symm

theorem closesEmpty_cons (l : Line) (lines : List Line) :
    ClosesEmpty (l :: lines) ↔ (l.kind = .closing ∧ ∃ t ∈ lines, t.IsTag) ∨ (l.kind = .define ∧ ClosesEmpty lines) := by
  constructor
  · rintro ⟨defs, x, behind, heq, hdefs, hx, htag⟩
    cases defs with
    | nil =>
      obtain ⟨rfl, rfl⟩ := List.cons.inj heq
      exact Or.inl ⟨hx, htag⟩
    | cons d defs =>
      obtain ⟨rfl, rfl⟩ := List.cons.inj heq
      exact Or.inr ⟨hdefs _ List.mem_cons_self, defs, x, behind, rfl, fun d hd => hdefs d (List.mem_cons_of_mem _ hd), hx, htag⟩
  · rintro (⟨hl, htag⟩ | ⟨hl, defs, x, behind, rfl, hdefs, hx, htag⟩)
    · exact ⟨[], l, lines, rfl, nofun, hl, htag⟩
    · exact ⟨l :: defs, x, behind, rfl, List.forall_mem_cons.mpr ⟨hl, hdefs⟩, hx, htag⟩

theorem tagBehindEmpty_cons (l : Line) (lines : List Line) :
    TagBehindEmpty (l :: lines) ↔ (l.kind = .opening ∧ ClosesEmpty lines) ∨ TagBehindEmpty lines := by
  constructor
  · rintro ⟨before, x, block, heq, hx, hblock⟩
    cases before with
    | nil =>
      obtain ⟨rfl, rfl⟩ := List.cons.inj heq
      exact Or.inl ⟨hx, hblock⟩
    | cons y before =>
      obtain ⟨rfl, rfl⟩ := List.cons.inj heq
      exact Or.inr ⟨before, x, block, rfl, hx, hblock⟩
  · rintro (⟨hl, hblock⟩ | ⟨before, x, block, rfl, hx, hblock⟩)
    · exact ⟨[], l, lines, rfl, hl, hblock⟩
    · exact ⟨l :: before, x, block, rfl, hx, hblock⟩

theorem ClosesEmpty.exists_tag (h : ClosesEmpty lines) : ∃ t ∈ lines, t.IsTag := by
  obtain ⟨defs, l, behind, rfl, -, hl, -⟩ := h
  exact ⟨l, List.mem_append_right defs List.mem_cons_self, Or.inr hl⟩

theorem TagBehindEmpty.exists_tag (h : TagBehindEmpty lines) : ∃ t ∈ lines, t.IsTag := by
  obtain ⟨before, l, block, rfl, hl, -⟩ := h
  exact ⟨l, List.mem_append_right before List.mem_cons_self, Or.inl hl⟩

/-! ## One line -/

/-- The reader is at a place where the block `b` is open, or none is. -/
structure Sync (b : Option (List ArgLine)) (s : σ) (r : Reader σ) : Prop where
  caseBegin : r.caseBegin = b.isSome
  block : ∀ block, b = some block → r.block = block ∧ r.lineNum = block.length ∧ r.skip = block.any fun a => a.values = []
  shell : r.shell = s

theorem readLine_define (hr : Sync b s r) (hk : l.kind = .define) :
    ∃ r', readLine sh r l = .ok r' ∧ Sync b (sh.define l.argspecific s) r' := by
  have hread : readLine sh r l = .ok { r with shell := sh.define l.argspecific s } := by
    simp only [readLine, hk, hr.shell]
  exact ⟨_, hread, hr.caseBegin, hr.block, rfl⟩

theorem readLine_opening (hr : Sync none s r) (hk : l.kind = .opening) : ∃ r', readLine sh r l = .ok r' ∧ Sync (some []) s r' := by
  have hclosed : ¬r.caseBegin = true := by
    rw [hr.caseBegin]
    decide
  have hread : readLine sh r l = .ok { r with caseBegin := true, lineNum := 0, block := [], skip := false } := by
    simp only [readLine, hk, if_neg hclosed]
  refine ⟨_, hread, rfl, ?_, hr.shell⟩
  rintro _ ⟨⟩
  exact ⟨rfl, rfl, rfl⟩

theorem readLine_opening_error {block : List ArgLine} (hr : Sync (some block) s r) (hk : l.kind = .opening) :
    ∃ message, readLine sh r l = .error message := by
  have hopen : r.caseBegin = true := hr.caseBegin
  refine ⟨lackOfEnd, ?_⟩
  simp only [readLine, hk, if_pos hopen]

theorem readLine_closing_error (hr : Sync none s r) (hk : l.kind = .closing) : ∃ message, readLine sh r l = .error message := by
  have hclosed : r.caseBegin = false := hr.caseBegin
  refine ⟨lackOfStart, ?_⟩
  simp only [readLine, hk, if_pos hclosed]

/-- The end of an empty block is passed over. -/
theorem readLine_closing_empty (hr : Sync (some []) s r) (hk : l.kind = .closing) : readLine sh r l = .ok r := by
  obtain ⟨-, hnum, -⟩ := hr.block [] rfl
  have hopen : ¬r.caseBegin = false := by
    rw [hr.caseBegin]
    decide
  have hzero : r.lineNum < 1 := by
    rw [hnum]
    decide
  simp only [readLine, hk, if_neg hopen, if_pos hzero]

theorem readLine_closing {block : List ArgLine} (hr : Sync (some block) s r) (hne : block ≠ []) (hk : l.kind = .closing) :
    ∃ r', readLine sh r l = .ok r' ∧ Sync none (if Complete block then sh.processargs block s else s) r' := by
  obtain ⟨hblock, hnum, hskip⟩ := hr.block block rfl
  have hopen : ¬r.caseBegin = false := by
    rw [hr.caseBegin, Option.isSome_some]
    decide
  have hpos : ¬r.lineNum < 1 := by
    have h := List.length_pos_iff.mpr hne
    omega
  have hcomplete : r.skip = false ↔ Complete block := by
    rw [hskip, List.any_eq_false]
    simp [Complete, hne]
  have hread : readLine sh r l = .ok { r with
      caseBegin := false
      lineNum := 0
      block := []
      shell := if Complete block then sh.processargs block s else s } := by
    simp only [readLine, hk, if_neg hopen, if_neg hpos, hcomplete, hblock, hr.shell]
  exact ⟨_, hread, rfl, nofun, rfl⟩

theorem readLine_component (hr : Sync b s r) (hk : l.kind = .component) :
    ∃ r', readLine sh r l = .ok r' ∧ Sync (b.map fun block => block ++ [argLine sh l s]) s r' := by
  cases b with
  | none =>
    have hclosed : ¬r.caseBegin = true := by
      rw [hr.caseBegin]
      decide
    exact ⟨r, by simp only [readLine, hk, if_neg hclosed], hr.caseBegin, nofun, hr.shell⟩
  | some block =>
    obtain ⟨hblock, hnum, hskip⟩ := hr.block block rfl
    have hopen : r.caseBegin = true := hr.caseBegin
    have hread : readLine sh r l = .ok { r with
        lineNum := r.lineNum + 1
        block := r.block ++ [argLine sh l s]
        skip := r.skip || (argLine sh l s).values = [] } := by
      simp only [readLine, hk, if_pos hopen, hr.shell]
    refine ⟨_, hread, hr.caseBegin, ?_, hr.shell⟩
    rintro _ ⟨⟩
    refine ⟨by rw [hblock], ?_, ?_⟩
    · rw [hnum, List.length_append, List.length_singleton]
    · rw [hskip, List.any_append, List.any_cons, List.any_nil, Bool.or_false]

/-! ## Runs -/

/-- Whether the block that is open has no component line. -/
def isEmptyBlock : Option (List ArgLine) → Bool
  | some [] => true
  | _ => false

/-- The rest of a file. -/
def readFrom (sh : Shell σ) (r : Reader σ) (lines : List Line) : Except Text (Reader σ) := lines.foldlM (readLine sh) r

theorem readFrom_ok {r' : Reader σ} (h : readLine sh r l = .ok r') : readFrom sh r (l :: lines) = readFrom sh r' lines := by
  unfold readFrom
  rw [List.foldlM_cons, h]
  rfl

theorem readFrom_error (h : ∃ message, readLine sh r l = .error message) :
    ∃ message, readFrom sh r (l :: lines) = .error message := by
  obtain ⟨message, h⟩ := h
  refine ⟨message, ?_⟩
  unfold readFrom
  rw [List.foldlM_cons, h]
  rfl

/-- The reader fails for the lines without those that end an empty block. -/
theorem readFrom_fails_iff (hr : Sync b s r) : (∃ message, readFrom sh r lines = .error message) ↔
    UnbalancedFrom b.isSome (withoutEmptyEnds (isEmptyBlock b) lines) := by
  induction lines generalizing b s r with
  | nil => exact iff_of_false nofun id
  | cons l lines ih =>
    cases hk : l.kind with
    | define =>
      obtain ⟨r', hread, hr'⟩ := readLine_define sh hr hk
      rw [readFrom_ok sh hread, ih hr']
      simp [withoutEmptyEnds, UnbalancedFrom, afterLine, hk, isEmptyBlock]
    | opening =>
      cases b with
      | none =>
        obtain ⟨r', hread, hr'⟩ := readLine_opening sh hr hk
        rw [readFrom_ok sh hread, ih hr']
        simp [withoutEmptyEnds, UnbalancedFrom, afterLine, hk, isEmptyBlock]
      | some block =>
        apply iff_of_true (readFrom_error sh (readLine_opening_error sh hr hk))
        simp [withoutEmptyEnds, UnbalancedFrom, hk]
    | closing =>
      cases b with
      | none =>
        apply iff_of_true (readFrom_error sh (readLine_closing_error sh hr hk))
        simp [withoutEmptyEnds, UnbalancedFrom, hk, isEmptyBlock]
      | some block =>
        by_cases hne : block = []
        · subst hne
          rw [readFrom_ok sh (readLine_closing_empty sh hr hk), ih hr]
          simp [withoutEmptyEnds, hk, isEmptyBlock]
        · have hempty : isEmptyBlock (some block) = false := by
            cases block with
            | nil => exact absurd rfl hne
            | cons a block => rfl
          obtain ⟨r', hread, hr'⟩ := readLine_closing sh hr hne hk
          have hnone : isEmptyBlock none = false := rfl
          rw [readFrom_ok sh hread, ih hr']
          simp [withoutEmptyEnds, UnbalancedFrom, afterLine, hk, hempty, hnone]
    | component =>
      obtain ⟨r', hread, hr'⟩ := readLine_component sh hr hk
      rw [readFrom_ok sh hread, ih hr']
      have hempty : isEmptyBlock (b.map fun block => block ++ [argLine sh l s]) = false := by
        cases b with
        | none => rfl
        | some block => cases block <;> rfl
      simp [withoutEmptyEnds, UnbalancedFrom, afterLine, hk, hempty]

/-- Without a tag, only definitions count. -/
theorem readFrom_noTag (hr : Sync b s r) (hno : ¬∃ t ∈ lines, t.IsTag) (isOpen : Bool) (b' : Option (List ArgLine)) :
    ¬UnbalancedFrom isOpen lines ∧ ∃ r', readFrom sh r lines = .ok r' ∧ r'.shell = generated sh b' lines s := by
  induction lines generalizing b s r b' with
  | nil => exact ⟨id, r, rfl, hr.shell⟩
  | cons l lines ih =>
    have hrest : ¬∃ t ∈ lines, t.IsTag := fun ⟨t, ht, htag⟩ => hno ⟨t, List.mem_cons_of_mem l ht, htag⟩
    have htag : ¬l.IsTag := fun h => hno ⟨l, List.mem_cons_self, h⟩
    cases hk : l.kind with
    | define =>
      obtain ⟨r', hread, hr'⟩ := readLine_define sh hr hk
      rw [readFrom_ok sh hread]
      simp only [UnbalancedFrom, afterLine, hk, generated, reduceCtorEq, false_and, false_or]
      exact ih hr' hrest b'
    | opening => exact absurd (Or.inl hk) htag
    | closing => exact absurd (Or.inr hk) htag
    | component =>
      obtain ⟨r', hread, hr'⟩ := readLine_component sh hr hk
      rw [readFrom_ok sh hread]
      simp only [UnbalancedFrom, afterLine, hk, generated, reduceCtorEq, false_and, false_or]
      exact ih hr' hrest _

/-- Unless a tag follows the end of an empty block, the reader takes the blocks for what they are. -/
theorem readFrom_blocks (hr : Sync b s r) (hempty : b = some [] → ¬ClosesEmpty lines) (hno : ¬TagBehindEmpty lines) :
    ((∃ message, readFrom sh r lines = .error message) ↔ UnbalancedFrom b.isSome lines) ∧
      ∀ r', readFrom sh r lines = .ok r' → r'.shell = generated sh b lines s := by
  induction lines generalizing b s r with
  | nil =>
    refine ⟨iff_of_false nofun id, ?_⟩
    rintro r' ⟨⟩
    exact hr.shell
  | cons l lines ih =>
    rw [tagBehindEmpty_cons, not_or] at hno
    have hclose : b = some [] → ¬((l.kind = .closing ∧ ∃ t ∈ lines, t.IsTag) ∨ (l.kind = .define ∧ ClosesEmpty lines)) := by
      rw [← closesEmpty_cons]
      exact hempty
    cases hk : l.kind with
    | define =>
      obtain ⟨r', hread, hr'⟩ := readLine_define sh hr hk
      rw [readFrom_ok sh hread]
      simp only [UnbalancedFrom, afterLine, hk, generated, reduceCtorEq, false_and, false_or]
      exact ih hr' (fun hb h => hclose hb (Or.inr ⟨hk, h⟩)) hno.2
    | opening =>
      cases b with
      | none =>
        obtain ⟨r', hread, hr'⟩ := readLine_opening sh hr hk
        rw [readFrom_ok sh hread]
        have h := ih hr' (fun _ h => hno.1 ⟨hk, h⟩) hno.2
        simpa [UnbalancedFrom, afterLine, hk, generated] using h
      | some block =>
        have herr : ∃ message, readFrom sh r (l :: lines) = .error message := readFrom_error sh (readLine_opening_error sh hr hk)
        refine ⟨iff_of_true herr (Or.inl ⟨hk, rfl⟩), fun r' hok => ?_⟩
        obtain ⟨message, herr⟩ := herr
        rw [herr] at hok
        cases hok
    | closing =>
      cases b with
      | none =>
        have herr : ∃ message, readFrom sh r (l :: lines) = .error message := readFrom_error sh (readLine_closing_error sh hr hk)
        refine ⟨iff_of_true herr (Or.inr (Or.inl ⟨hk, rfl⟩)), fun r' hok => ?_⟩
        obtain ⟨message, herr⟩ := herr
        rw [herr] at hok
        cases hok
      | some block =>
        by_cases hne : block = []
        · -- the reader stays in the block, and no tag shows it
          subst hne
          have htag : ¬∃ t ∈ lines, t.IsTag := fun h => hclose rfl (Or.inl ⟨hk, h⟩)
          obtain ⟨hbal, r', hok, hshell⟩ := readFrom_noTag sh hr htag false none
          rw [readFrom_ok sh (readLine_closing_empty sh hr hk), hok]
          simp only [UnbalancedFrom, afterLine, hk, generated, Option.isSome_some, reduceCtorEq, false_and, and_false, false_or]
          refine ⟨iff_of_false nofun hbal, ?_⟩
          rintro r'' ⟨⟩
          simpa [Complete] using hshell
        · obtain ⟨r', hread, hr'⟩ := readLine_closing sh hr hne hk
          rw [readFrom_ok sh hread]
          have h := ih hr' nofun hno.2
          simpa [UnbalancedFrom, afterLine, hk, generated] using h
    | component =>
      obtain ⟨r', hread, hr'⟩ := readLine_component sh hr hk
      rw [readFrom_ok sh hread]
      have hmap : (b.map fun block => block ++ [argLine sh l s]) ≠ some [] := by
        cases b with
        | none => exact nofun
        | some block => simp
      have h := ih hr' (fun hb => absurd hb hmap) hno.2
      simpa [UnbalancedFrom, afterLine, hk, generated] using h

/-- A tag behind the end of an empty block: it is either not allowed there, or the reader takes it for one that is not. -/
theorem unbalanced_of_tag (h : ∃ t ∈ lines, t.IsTag) (empty : Bool) :
    UnbalancedFrom false lines ∨ UnbalancedFrom true (withoutEmptyEnds empty lines) := by
  induction lines generalizing empty with
  | nil =>
    obtain ⟨t, ht, -⟩ := h
    cases ht
  | cons l lines ih =>
    have hrest : ¬l.IsTag → ∃ t ∈ lines, t.IsTag := by
      obtain ⟨t, ht, htag⟩ := h
      intro hl
      rcases List.mem_cons.mp ht with rfl | ht
      · exact absurd htag hl
      · exact ⟨t, ht, htag⟩
    cases hk : l.kind with
    | define =>
      have h := ih (hrest (by simp [Line.IsTag, hk])) empty
      simpa [UnbalancedFrom, afterLine, withoutEmptyEnds, hk] using h
    | opening =>
      right
      simp [UnbalancedFrom, withoutEmptyEnds, hk]
    | closing =>
      left
      exact Or.inr (Or.inl ⟨hk, rfl⟩)
    | component =>
      have h := ih (hrest (by simp [Line.IsTag, hk])) false
      simpa [UnbalancedFrom, afterLine, withoutEmptyEnds, hk] using h

theorem unbalanced_of_tagBehindEmpty (hopen : empty = true → isOpen = true)
    (h : (empty = true ∧ ClosesEmpty lines) ∨ TagBehindEmpty lines) :
    UnbalancedFrom isOpen lines ∨ UnbalancedFrom isOpen (withoutEmptyEnds empty lines) := by
  induction lines generalizing isOpen empty with
  | nil =>
    rcases h with ⟨-, h⟩ | h
    · obtain ⟨t, ht, -⟩ := h.exists_tag
      cases ht
    · obtain ⟨t, ht, -⟩ := h.exists_tag
      cases ht
  | cons l lines ih =>
    rw [closesEmpty_cons, tagBehindEmpty_cons] at h
    cases hk : l.kind with
    | define =>
      have h' := ih hopen (by simpa [hk] using h)
      simpa [UnbalancedFrom, afterLine, withoutEmptyEnds, hk] using h'
    | opening =>
      cases isOpen with
      | true => exact Or.inl (Or.inl ⟨hk, rfl⟩)
      | false =>
        have h' : UnbalancedFrom true lines ∨ UnbalancedFrom true (withoutEmptyEnds true lines) :=
          ih (fun _ => rfl) (by simpa [hk] using h)
        simpa [UnbalancedFrom, afterLine, withoutEmptyEnds, hk] using h'
    | closing =>
      cases isOpen with
      | false => exact Or.inl (Or.inr (Or.inl ⟨hk, rfl⟩))
      | true =>
        cases empty with
        | true =>
          have htag : ∃ t ∈ lines, t.IsTag := by
            rcases h with ⟨-, ⟨-, h⟩ | ⟨h, -⟩⟩ | ⟨h, -⟩ | h
            · exact h
            · rw [hk] at h
              cases h
            · rw [hk] at h
              cases h
            · exact h.exists_tag
          have h' := unbalanced_of_tag htag true
          simpa [UnbalancedFrom, afterLine, withoutEmptyEnds, hk] using h'
        | false =>
          have h' : UnbalancedFrom false lines ∨ UnbalancedFrom false (withoutEmptyEnds false lines) := ih nofun (by simpa [hk] using h)
          simpa [UnbalancedFrom, afterLine, withoutEmptyEnds, hk] using h'
    | component =>
      have h' : UnbalancedFrom isOpen lines ∨ UnbalancedFrom isOpen (withoutEmptyEnds false lines) := ih nofun (by simpa [hk] using h)
      simpa [UnbalancedFrom, afterLine, withoutEmptyEnds, hk] using h'

theorem sync_start (s : σ) : Sync none s ⟨false, 0, [], false, s⟩ := ⟨rfl, nofun, rfl⟩

/-- The reader takes the blocks of a file for what they are if no tag follows the end of an empty block. With such a tag it fails for
the file, or the file is unbalanced; both is the case if the file is unbalanced with and without the ends of its empty blocks. -/
theorem readCaseblock_iff (sh : Shell σ) (lines : List Line) (s : σ) :
    ReadsBlocks sh lines s ↔ ¬TagBehindEmpty lines ∨ (Unbalanced lines ∧ Unbalanced (withoutEmptyEnds false lines)) := by
  have hfails : (∃ message, processCaseblock sh lines s = .error message) ↔ UnbalancedFrom false (withoutEmptyEnds false lines) :=
    readFrom_fails_iff sh (sync_start s)
  rw [unbalanced_iff, unbalanced_iff]
  constructor
  · rintro ⟨hiff, -⟩
    by_cases htag : TagBehindEmpty lines
    · right
      have hiff' := hfails.symm.trans (hiff.trans (unbalanced_iff lines))
      have hone : UnbalancedFrom false lines ∨ UnbalancedFrom false (withoutEmptyEnds false lines) :=
        unbalanced_of_tagBehindEmpty nofun (Or.inr htag)
      rcases hone with h | h
      · exact ⟨h, hiff'.mpr h⟩
      · exact ⟨hiff'.mp h, h⟩
    · exact Or.inl htag
  · rintro (hno | ⟨hun, hun'⟩)
    · obtain ⟨hiff, hok⟩ := readFrom_blocks sh (sync_start s) nofun hno
      exact ⟨hiff.trans (unbalanced_iff lines).symm, hok⟩
    · have herr := hfails.mpr hun'
      refine ⟨iff_of_true herr ((unbalanced_iff lines).mpr hun), fun r hr => ?_⟩
      obtain ⟨message, herr⟩ := herr
      have h := herr.symm.trans hr
      cases h

/-- An empty block and a block with one component line. -/
def emptyFirst : List Line :=
  [⟨"<testcases>".toList, []⟩, ⟨"</testcases>".toList, []⟩, ⟨"<testcases>".toList, []⟩, ⟨"string".toList, "a b".toList⟩,
    ⟨"</testcases>".toList, []⟩]

/-- The reader fails for the second block. -/
theorem not_readCaseblock : ¬∀ (σ : Type) (sh : Shell σ) (lines : List Line) (s : σ), ReadsBlocks sh lines s := by
  intro h
  have hfails : processCaseblock ⟨fun _ s => s, fun t _ => lineWords t, fun _ s => s⟩ emptyFirst () = .error lackOfEnd := rfl
  have hun := (h Unit ⟨fun _ s => s, fun t _ => lineWords t, fun _ s => s⟩ emptyFirst ()).1.mp ⟨_, hfails⟩
  rw [unbalanced_iff] at hun
  simp [emptyFirst, UnbalancedFrom, afterLine, Line.kind] at hun

end ZfsTest.Stf.Testgen
