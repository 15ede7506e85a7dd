import Mathlib.Data.List.DropRight
import ZfsTest.Stf.Wordlist
import ZfsTest.Text.Fenced
import ZfsTest.Text.Glob

/-!
# Word lists with any separator

The word functions take the separator of the list as an argument. Each of them puts the separator around the list (`fetch`), lets one
turn of its loop run for each word, takes a separator away at both ends and assigns the list again (`put`).
-/

namespace ZfsTest.Stf.Wordset

/-! ## The shell -/

/-- Separators for which the rules of the shell leave open what becomes of them in `eval` or in a pattern. -/
def isOpen (c : Char) : Bool :=
  isSpecial c || c = '\'' || c = '{' || c = '}' || c = '[' || c = '(' || c = ')' || c = '|' || c = '&'

/-- What the shell makes of such a separator: the list that is fetched, and the texts that it matches in a pattern. -/
structure Shell extends Ksh where
  fetched : Char → Text → Text
  reads : Char → Text → Bool

/-- The words of `eval` are split and put together again with a blank between two of them. -/
def respaced : Text → Text
  | [] => []
  | c :: t => if isIfs c then ' ' :: (respaced t).dropWhile (· = ' ') else c :: respaced t

section

variable (sh : Shell)

/-- `eval list=\"\${x:+sep}\${x}\${x:+sep}\"`. -/
def fetch (sep : Char) (value : Text) : Text :=
  let guard := if isIfs sep then ' ' else sep
  if isOpen sep then sh.fetched sep value
  else if value = [] then [] else guard :: (value ++ [guard])

/-- The texts that the separator matches where it stands in a pattern without quotes. -/
def reads (sep : Char) (u : Text) : Bool :=
  if isOpen sep then sh.reads sep u
  else if sep = '*' then true
  else if sep = '?' then u.length = 1
  else u = [sep]

/-- The texts that match `${sep}"w"${sep}`. -/
def fits (sep : Char) (w u : Text) : Bool :=
  (List.range (u.length + 1)).any fun i =>
    reads sh sep (u.take i) && w.isPrefixOf (u.drop i) && reads sh sep (u.drop (i + w.length))

/-- `list="${list%${sep}}"`, `list="${list#${sep}}"` and `eval x=\"${list}\"`. -/
def put (sep : Char) (list : Text) : Text :=
  sh.quoted (respaced (dropFront (reads sh sep) (dropEnd (reads sh sep) list)))

/-! ## Adding and inserting -/

/-- The body of the loop of `wordAdd__`. -/
def addTurn (forceit : Bool) (sep : Char) (list w : Text) : Text :=
  let left := frontFirst (fits sh sep w) list
  let right := restLast (fits sh sep w) list
  if list = [] then sep :: (w ++ [sep])
  else if left ≠ [] ∨ right ≠ [] then
    if left = right then left ++ (w ++ [sep])
    else if forceit then left ++ sep :: (right ++ w)
    else list
  else list

/-- `wordAdd__`. -/
def wordAdd' (force : Text) (sep : Char) (value : Text) (ws : List Text) : Text :=
  put sh sep ((ws.takeWhile (· ≠ [])).foldl (addTurn sh (force = "force".toList) sep) (fetch sh sep value))

def wordAdd_ (sep : Char) (value : Text) (ws : List Text) : Text := wordAdd' sh [] sep value ws

def forceWordAdd_ (sep : Char) (value : Text) (ws : List Text) : Text := wordAdd' sh "force".toList sep value ws

/-- The body of the loop of `wordInsert__`. -/
def insertTurn (forceit : Bool) (sep : Char) (list w : Text) : Text :=
  let left := frontFirst (fits sh sep w) list
  let right := restLast (fits sh sep w) list
  if list = [] then sep :: (w ++ [sep])
  else if left ≠ [] ∨ right ≠ [] then
    if left = right then sep :: (w ++ left)
    else if forceit then w ++ (left ++ sep :: right)
    else list
  else list

/-- `wordInsert__`. -/
def wordInsert' (force : Text) (sep : Char) (value : Text) (ws : List Text) : Text :=
  put sh sep ((ws.takeWhile (· ≠ [])).foldl (insertTurn sh (force = "force".toList) sep) (fetch sh sep value))

def wordInsert_ (sep : Char) (value : Text) (ws : List Text) : Text := wordInsert' sh [] sep value ws

def forceWordInsert_ (sep : Char) (value : Text) (ws : List Text) : Text := wordInsert' sh "force".toList sep value ws

/-- `[[ -d path ]]` is asked for each word. -/
def pathInsert_ (isDir : Text → Bool) (value : Text) (ws : List Text) : Text :=
  (ws.takeWhile (· ≠ [])).foldl (fun value w => if isDir w then forceWordInsert_ sh ':' value [w] else value) value

/-! ## Deleting and replacing -/

inductive Direction
  | LR
  | RL
  deriving DecidableEq, Repr

/-- What stands on the left of the word that is taken. -/
def Direction.left : Direction → (Text → Bool) → Text → Text
  | .LR => frontFirst
  | .RL => frontLast

def Direction.right : Direction → (Text → Bool) → Text → Text
  | .LR => restFirst
  | .RL => restLast

/-- The body of the loop of `wordDelete__`. -/
def deleteTurn (rllr : Direction) (sep : Char) (list w : Text) : Text :=
  let left := rllr.left (fits sh sep w) list
  let right := rllr.right (fits sh sep w) list
  if left ≠ right ∨ left = [] ∨ right = [] then left ++ sep :: right else list

/-- `wordDelete__`; the loop ends at the first list that is empty. -/
def wordDelete' (rllr : Direction) (sep : Char) (value : Text) (ws : List Text) : Text :=
  put sh sep ((ws.takeWhile (· ≠ [])).foldl (fun list w => if list = [] then list else deleteTurn sh rllr sep list w)
    (fetch sh sep value))

def wordDeleteLR_ (sep : Char) (value : Text) (ws : List Text) : Text := wordDelete' sh .LR sep value ws

def wordDeleteRL_ (sep : Char) (value : Text) (ws : List Text) : Text := wordDelete' sh .RL sep value ws

/-- The pairs of words that the loop of `wordReplace__` takes, up to an empty first word. -/
def pairs : List Text → List (Text × Text)
  | w :: v :: ws => if w = [] then [] else (w, v) :: pairs ws
  | _ => []

/-- The body of the loop of `wordReplace__`. -/
def replaceTurn (rllr : Direction) (sep : Char) (list : Text) (pair : Text × Text) : Text :=
  let left := rllr.left (fits sh sep pair.1) list
  let right := rllr.right (fits sh sep pair.1) list
  if left ≠ right ∨ left = [] ∨ right = [] then left ++ sep :: (pair.2 ++ sep :: right) else list

/-- `wordReplace__`. -/
def wordReplace' (rllr : Direction) (sep : Char) (value : Text) (ws : List Text) : Text :=
  put sh sep ((pairs ws).foldl (replaceTurn sh rllr sep) (fetch sh sep value))

def wordReplaceLR_ (sep : Char) (value : Text) (ws : List Text) : Text := wordReplace' sh .LR sep value ws

def wordReplaceRL_ (sep : Char) (value : Text) (ws : List Text) : Text := wordReplace' sh .RL sep value ws

end

/-! ## Separators and words -/

/-- Separators that stand for themselves wherever the functions write them. -/
def ordinary (sep : Char) : Bool := !isOpen sep && !(sep = '\t' || sep = '\n' || sep = '*' || sep = '?')

/-- A word that neither the separator nor the shell can take apart, and that is no pattern. -/
structure Word (sep : Char) (w : Text) : Prop where
  ne_nil : w ≠ []
  whole : sep ∉ w
  blank : ∀ c ∈ w, isIfs c = false
  special : ∀ c ∈ w, isSpecial c = false
  plain : ∀ c ∈ w, Glob.isMeta c = false

/-- A list variable and the words of a call. -/
structure Call (sep : Char) where
  held : List Text
  given : List Text
  held_word : ∀ w ∈ held, Word sep w
  given_word : ∀ w ∈ given, Word sep w

variable {sep : Char}

def Call.value (c : Call sep) : Text := [sep].intercalate c.held

theorem Word.cut {w : Text} (h : Word sep w) : w ≠ [] ∧ sep ∉ w := ⟨h.ne_nil, h.whole⟩

theorem Word.append {v w : Text} (hv : Word sep v) (hw : Word sep w) : Word sep (v ++ w) := by
  refine ⟨by simp [hv.ne_nil], fun h => ?_, fun c h => ?_, fun c h => ?_, fun c h => ?_⟩
  · exact (List.mem_append.mp h).elim hv.whole hw.whole
  · exact (List.mem_append.mp h).elim (hv.blank c) (hw.blank c)
  · exact (List.mem_append.mp h).elim (hv.special c) (hw.special c)
  · exact (List.mem_append.mp h).elim (hv.plain c) (hw.plain c)

theorem takeWhile_words {ws : List Text} (h : ∀ w ∈ ws, Word sep w) : ws.takeWhile (· ≠ []) = ws :=
  List.takeWhile_eq_self_iff.mpr fun w hw => decide_eq_true (h w hw).ne_nil

theorem takeWhile_cons_word {w : Text} (h : w ≠ []) (ws : List Text) :
    (w :: ws).takeWhile (· ≠ []) = w :: ws.takeWhile (· ≠ []) :=
  List.takeWhile_cons_of_pos (p := fun w => decide (w ≠ [])) (decide_eq_true h)

section

variable (sh : Shell) (hsep : ordinary sep = true)

include hsep

theorem not_open : isOpen sep = false := by
  unfold ordinary at hsep
  rw [Bool.and_eq_true, Bool.not_eq_true'] at hsep
  exact hsep.1

theorem not_misread : sep ≠ '\t' ∧ sep ≠ '\n' ∧ sep ≠ '*' ∧ sep ≠ '?' := by
  unfold ordinary at hsep
  rw [Bool.and_eq_true, Bool.not_eq_true', Bool.not_eq_true'] at hsep
  simpa [and_assoc] using hsep.2

theorem not_special : isSpecial sep = false := by
  have h := not_open hsep
  unfold isOpen at h
  simp only [Bool.or_eq_false_iff] at h
  exact h.1.1.1.1.1.1.1.1

/-- The only blank separator is the space. -/
theorem eq_space (h : isIfs sep = true) : sep = ' ' := by
  obtain ⟨htab, hnl, -, -⟩ := not_misread hsep
  unfold isIfs at h
  simpa [htab, hnl] using h

theorem reads_iff (u : Text) : reads sh sep u = true ↔ u = [sep] := by
  obtain ⟨-, -, hstar, hany⟩ := not_misread hsep
  unfold reads
  rw [not_open hsep, if_neg Bool.false_ne_true, if_neg hstar, if_neg hany, decide_eq_true_eq]

theorem fits_iff (w u : Text) : fits sh sep w u = true ↔ u = fenced sep [w] := by
  rw [fenced_cons, fenced_nil]
  unfold fits
  simp only [List.any_eq_true, Bool.and_eq_true, reads_iff sh hsep]
  constructor
  · rintro ⟨i, -, ⟨hfront, hw⟩, hrest⟩
    obtain ⟨r, hr⟩ := List.isPrefixOf_iff_prefix.mp hw
    have hend : r = [sep] := by
      rw [← hrest, ← List.drop_drop, ← hr, List.drop_left]
    rw [← List.take_append_drop i u, hfront, ← hr, hend]
    rfl
  · rintro rfl
    refine ⟨1, List.mem_range.mpr ?_, ⟨rfl, List.isPrefixOf_iff_prefix.mpr ⟨[sep], rfl⟩⟩, ?_⟩
    · rw [List.length_cons]
      omega
    · rw [← List.drop_drop]
      exact List.drop_left

theorem fetch_value (value : Text) : fetch sh sep value = if value = [] then [] else sep :: (value ++ [sep]) := by
  unfold fetch
  rw [not_open hsep, if_neg Bool.false_ne_true]
  by_cases h : isIfs sep = true
  · rw [if_pos h, eq_space hsep h]
  · rw [if_neg h]

/-! ## The assigned text -/

omit hsep in
theorem respaced_append {w : Text} (hw : ∀ c ∈ w, isIfs c = false) (t : Text) : respaced (w ++ t) = w ++ respaced t := by
  induction w with
  | nil => rfl
  | cons c w ih =>
    rw [List.cons_append, respaced, hw c List.mem_cons_self, if_neg Bool.false_ne_true,
      ih fun d hd => hw d (List.mem_cons_of_mem c hd), List.cons_append]

/-- Words with a separator in front of each keep their separators. -/
theorem respaced_fronted {ws : List Text} (hws : ∀ w ∈ ws, Word sep w) : respaced (fronted sep ws) = fronted sep ws := by
  induction ws with
  | nil => rfl
  | cons w ws ih =>
    have hw := hws w List.mem_cons_self
    have hrest := ih fun v hv => hws v (List.mem_cons_of_mem w hv)
    rw [fronted_cons, respaced, respaced_append hw.blank, hrest]
    by_cases h : isIfs sep = true
    · obtain ⟨c, w, rfl⟩ := List.exists_cons_of_ne_nil hw.ne_nil
      have hc : c ≠ ' ' := by
        rintro rfl
        exact hw.whole (eq_space hsep h ▸ List.mem_cons_self)
      rw [if_pos h, ← eq_space hsep h, List.cons_append, List.dropWhile_cons_of_neg]
      simpa [eq_space hsep h] using hc
    · rw [if_neg h]

theorem respaced_intercalate {ws : List Text} (hws : ∀ w ∈ ws, Word sep w) :
    respaced ([sep].intercalate ws) = [sep].intercalate ws := by
  cases ws with
  | nil => rfl
  | cons w ws =>
    rw [intercalate_cons_fronted, respaced_append (hws w List.mem_cons_self).blank,
      respaced_fronted hsep fun v hv => hws v (List.mem_cons_of_mem w hv)]

theorem quoted_intercalate {ws : List Text} (hws : ∀ w ∈ ws, Word sep w) :
    sh.quoted (respaced ([sep].intercalate ws)) = [sep].intercalate ws := by
  rw [respaced_intercalate hsep hws]
  apply sh.quoted_plain
  intro c hc
  rcases mem_intercalate hc with rfl | ⟨w, hw, hcw⟩
  · exact not_special hsep
  · exact (hws w hw).special c hcw

theorem put_nil : put sh sep [] = [] := by
  have hempty : sh.quoted (respaced ([sep].intercalate [])) = [sep].intercalate [] :=
    quoted_intercalate sh hsep fun w hw => by cases hw
  rw [put, dropEnd_none (reads_iff sh hsep), dropFront_none (reads_iff sh hsep)]
  · exact hempty
  · intro r h
    cases h
  · intro l h
    cases l <;> cases h

/-- A row of words is assigned without its outer separators. -/
theorem put_fenced {ws : List Text} (hws : ∀ w ∈ ws, Word sep w) : put sh sep (fenced sep ws) = [sep].intercalate ws := by
  rw [put, fenced, dropEnd_concat (reads_iff sh hsep)]
  by_cases h : ws = []
  · rw [h, fronted_nil]
    have hnil := put_nil sh hsep
    rw [put, dropEnd_none (reads_iff sh hsep)] at hnil
    · exact hnil
    · intro l hl
      cases l <;> cases hl
  · rw [fronted_intercalate h, dropFront_cons (reads_iff sh hsep), quoted_intercalate sh hsep hws]

/-- A row whose first word has no separator in front. -/
theorem put_head {h : Text} (hh : Word sep h) {ws : List Text} (hws : ∀ w ∈ ws, Word sep w) :
    put sh sep (h ++ fenced sep ws) = [sep].intercalate (h :: ws) := by
  rw [put, fenced, ← List.append_assoc, dropEnd_concat (reads_iff sh hsep), dropFront_none (reads_iff sh hsep),
    ← intercalate_cons_fronted]
  · apply quoted_intercalate sh hsep
    intro w hw
    rcases List.mem_cons.mp hw with rfl | hw
    · exact hh
    · exact hws w hw
  · obtain ⟨c, h, rfl⟩ := List.exists_cons_of_ne_nil hh.ne_nil
    intro r heq
    have hc : c = sep := List.head_eq_of_cons_eq heq
    exact hh.whole (hc ▸ List.mem_cons_self)

/-- A row whose last word has no separator behind. -/
theorem put_tail {e : Text} (he : Word sep e) {ws : List Text} (hws : ∀ w ∈ ws, Word sep w) :
    put sh sep (fenced sep ws ++ e) = [sep].intercalate (ws ++ [e]) := by
  have hrow : fenced sep ws ++ e = fronted sep (ws ++ [e]) := by
    rw [fenced, fronted_append, fronted_cons, fronted_nil, List.append_assoc, List.append_nil]
    rfl
  rw [put, dropEnd_none (reads_iff sh hsep), hrow, fronted_intercalate (by simp), dropFront_cons (reads_iff sh hsep)]
  · apply quoted_intercalate sh hsep
    intro w hw
    rcases List.mem_append.mp hw with hw | hw
    · exact hws w hw
    · exact (List.mem_singleton.mp hw) ▸ he
  · intro l heq
    have hlast := congrArg List.getLast? heq
    rw [List.getLast?_append_of_ne_nil _ he.ne_nil, List.getLast?_concat] at hlast
    exact he.whole (List.mem_of_getLast? hlast)

end

/-! ## The list of a loop -/

/-- The text that a loop holds for a list of words. -/
def Row (sep : Char) (list : Text) (ws : List Text) : Prop := list = fenced sep ws ∨ (list = [] ∧ ws = [])

section

variable (sh : Shell) (hsep : ordinary sep = true)

include hsep

theorem fetch_row {ws : List Text} (hws : ∀ w ∈ ws, Word sep w) : Row sep (fetch sh sep ([sep].intercalate ws)) ws := by
  rw [fetch_value sh hsep]
  cases ws with
  | nil => exact Or.inr ⟨rfl, rfl⟩
  | cons w ws =>
    have hne : [sep].intercalate (w :: ws) ≠ [] := by
      rw [intercalate_cons_fronted]
      simp [(hws w List.mem_cons_self).ne_nil]
    rw [if_neg hne]
    exact Or.inl (fenced_intercalate (List.cons_ne_nil w ws)).symm

theorem put_row {list : Text} {ws : List Text} (hrow : Row sep list ws) (hws : ∀ w ∈ ws, Word sep w) :
    put sh sep list = [sep].intercalate ws := by
  rcases hrow with rfl | ⟨rfl, rfl⟩
  · exact put_fenced sh hsep hws
  · exact put_nil sh hsep

end

/-- A loop whose turns keep to lists of words. -/
theorem foldl_row {β : Type} {next : List Text → β → List Text} {turn : Text → β → Text} {P : List Text → Prop} {Ok : β → Prop}
    (hturn : ∀ list ws b, P ws → Ok b → Row sep list ws → P (next ws b) ∧ Row sep (turn list b) (next ws b)) {bs : List β}
    (hbs : ∀ b ∈ bs, Ok b) {list : Text} {ws : List Text} (hws : P ws) (hrow : Row sep list ws) :
    P (bs.foldl next ws) ∧ Row sep (bs.foldl turn list) (bs.foldl next ws) := by
  induction bs generalizing list ws with
  | nil => exact ⟨hws, hrow⟩
  | cons b bs ih =>
    obtain ⟨hnext, hrow'⟩ := hturn list ws b hws (hbs b List.mem_cons_self) hrow
    exact ih (fun d hd => hbs d (List.mem_cons_of_mem b hd)) hnext hrow'

/-! ## The two sides of a word -/

/-- The words in front of the first place of `w`, and the words behind the last. -/
def frontOf (ws : List Text) (w : Text) : List Text := ws.takeWhile (· ≠ w)
def backOf (ws : List Text) (w : Text) : List Text := ws.rtakeWhile (· ≠ w)

theorem split_front {ws : List Text} {w : Text} (h : w ∈ ws) : ∃ bs, ws = frontOf ws w ++ w :: bs ∧ w ∉ frontOf ws w := by
  obtain ⟨as, bs, rfl, has⟩ := List.eq_append_cons_of_mem h
  have hfront : frontOf (as ++ w :: bs) w = as := by
    unfold frontOf
    rw [List.takeWhile_append_of_pos, List.takeWhile_cons_of_neg (by simp), List.append_nil]
    intro v hv
    rw [decide_eq_true_eq]
    rintro rfl
    exact has hv
  rw [hfront]
  exact ⟨bs, rfl, has⟩

theorem split_back {ws : List Text} {w : Text} (h : w ∈ ws) : ∃ as, ws = as ++ w :: backOf ws w ∧ w ∉ backOf ws w := by
  obtain ⟨bs, hsplit, hfront⟩ := split_front (List.mem_reverse.mpr h)
  have hback : backOf ws w = (frontOf ws.reverse w).reverse := rfl
  rw [hback]
  refine ⟨bs.reverse, ?_, fun hmem => hfront (List.mem_reverse.mp hmem)⟩
  have hrev := congrArg List.reverse hsplit
  rw [List.reverse_reverse, List.reverse_append, List.reverse_cons, List.append_assoc] at hrev
  exact hrev

section

variable {h e : Text} (hh : h = [] ∨ Word sep h) (he : e = [] ∨ Word sep e) {ws : List Text} (hws : ∀ v ∈ ws, Word sep v)
  {w : Text} (hw : Word sep w)

theorem whole_of_end {t : Text} (ht : t = [] ∨ Word sep t) : sep ∉ t := by
  rcases ht with rfl | ht
  · exact List.not_mem_nil
  · exact ht.whole

include hws in
/-- A row that lacks its first separator does not end with a separator in front of a word. -/
theorem left_getLast {as : List Text} (has : as ⊆ ws) (hh : h = [] ∨ Word sep h) :
    (h ++ fronted sep as).getLast? ≠ some sep := by
  intro hlast
  rcases List.eq_nil_or_concat as with rfl | ⟨as, a, rfl⟩
  · rw [fronted_nil, List.append_nil] at hlast
    exact whole_of_end hh (List.mem_of_getLast? hlast)
  · have ha := hws a (has (by simp))
    rw [List.concat_eq_append, fronted_append, fronted_cons, fronted_nil, List.append_nil, ← List.append_assoc,
      List.append_cons, List.getLast?_append_of_ne_nil _ ha.ne_nil] at hlast
    exact ha.whole (List.mem_of_getLast? hlast)

include hws in
/-- What stands behind a word does not begin with a separator. -/
theorem right_head {bs : List Text} (hbs : bs ⊆ ws) (he : e = [] ∨ Word sep e) {r : Text} (hr : sep :: r = fenced sep bs ++ e) :
    r.head? ≠ some sep := by
  intro hhead
  cases bs with
  | nil =>
    have hre : r = e := List.tail_eq_of_cons_eq hr
    rw [hre] at hhead
    exact whole_of_end he (List.mem_of_head? hhead)
  | cons b bs =>
    have hb := hws b (hbs List.mem_cons_self)
    obtain ⟨c, b, rfl⟩ := List.exists_cons_of_ne_nil hb.ne_nil
    rw [fenced_cons, List.cons_append] at hr
    rw [List.tail_eq_of_cons_eq hr] at hhead
    have hc : c = sep := Option.some.inj hhead
    exact hb.whole (hc ▸ List.mem_cons_self)

theorem fronted_eq_nil {as : List Text} (h : fronted sep as = []) : as = [] := by
  cases as with
  | nil => rfl
  | cons a as => cases h

include hws in
/-- The two sides of a word differ, unless nothing is on either. -/
theorem sides_ne {as bs : List Text} (has : as ⊆ ws) (hbs : bs ⊆ ws) (hh : h = [] ∨ Word sep h) (he : e = [] ∨ Word sep e)
    (hends : h = [] ∨ e = []) {r : Text} (hr : sep :: r = fenced sep bs ++ e) (heq : h ++ fronted sep as = r) :
    (h = [] ∧ as = []) ∧ bs = [] ∧ e = [] := by
  have hnil : r = [] := by
    rcases hends with rfl | rfl
    · rw [List.nil_append] at heq
      cases as with
      | nil => exact heq.symm
      | cons a as => exact absurd (heq ▸ rfl) (right_head hws hbs he hr)
    · by_contra hne
      have hlast := congrArg List.getLast? hr
      rw [List.append_nil, fenced, List.getLast?_concat, List.getLast?_cons_of_ne_nil hne, ← heq] at hlast
      exact left_getLast hws has hh hlast
  rw [hnil, List.append_eq_nil_iff] at heq
  have hlen := congrArg List.length hr
  rw [hnil, fenced, List.length_append, List.length_append, List.length_cons, List.length_nil] at hlen
  have hbs' : (fronted sep bs).length = 0 := by omega
  have he' : e.length = 0 := by omega
  exact ⟨⟨heq.1, fronted_eq_nil heq.2⟩, fronted_eq_nil (List.length_eq_zero_iff.mp hbs'), List.length_eq_zero_iff.mp he'⟩

theorem frontOf_subset (ws : List Text) (w : Text) : frontOf ws w ⊆ ws := (List.takeWhile_prefix _).subset

theorem backOf_subset (ws : List Text) (w : Text) : backOf ws w ⊆ ws := (List.rtakeWhile_suffix _ _).subset

end

/-! ## One turn -/

section

variable (sh : Shell) (hsep : ordinary sep = true) {h e : Text} (hh : h = [] ∨ Word sep h) (he : e = [] ∨ Word sep e)
  {ws : List Text} (hws : ∀ v ∈ ws, Word sep v) {w : Text} (hw : Word sep w)

include hsep hh he hws hw

theorem cuts_notMem (hmem : w ∉ ws) :
    frontFirst (fits sh sep w) (h ++ (fenced sep ws ++ e)) = h ++ (fenced sep ws ++ e) ∧
      restLast (fits sh sep w) (h ++ (fenced sep ws ++ e)) = h ++ (fenced sep ws ++ e) := by
  obtain ⟨hfirst, -, -, hlast⟩ := cuts_fenced_none (whole_of_end hh) (whole_of_end he) (fun v hv => (hws v hv).whole) hw.whole
    (fits_iff sh hsep w) hmem
  exact ⟨hfirst, hlast⟩

theorem cuts_mem (hmem : w ∈ ws) :
    frontFirst (fits sh sep w) (h ++ (fenced sep ws ++ e)) = h ++ fronted sep (frontOf ws w) ∧
      sep :: restLast (fits sh sep w) (h ++ (fenced sep ws ++ e)) = fenced sep (backOf ws w) ++ e := by
  obtain ⟨bs, hfront, hnot⟩ := split_front hmem
  obtain ⟨as, hback, hnot'⟩ := split_back hmem
  have hwhole : ∀ v ∈ ws, sep ∉ v := fun v hv => (hws v hv).whole
  constructor
  · exact (first_fenced (whole_of_end hh) (whole_of_end he) hwhole hw.whole (fits_iff sh hsep w) hfront hnot).1
  · exact (last_fenced (whole_of_end hh) (whole_of_end he) hwhole hw.whole (fits_iff sh hsep w) hback hnot').2

omit hsep hh he hws hw in
theorem ends_ne_nil : h ++ (fenced sep ws ++ e) ≠ [] := by
  rw [fenced_eq_cons]
  simp

/-- A word that is not in the list is put in front of it. -/
theorem insertTurn_notMem (forceit : Bool) (hmem : w ∉ ws) :
    insertTurn sh forceit sep (h ++ (fenced sep ws ++ e)) w = sep :: (w ++ (h ++ (fenced sep ws ++ e))) := by
  obtain ⟨hfirst, hlast⟩ := cuts_notMem sh hsep hh he hws hw hmem
  unfold insertTurn
  simp only [hfirst, hlast]
  rw [if_neg ends_ne_nil, if_pos (Or.inl ends_ne_nil), if_pos trivial]

theorem addTurn_notMem (forceit : Bool) (hmem : w ∉ ws) :
    addTurn sh forceit sep (h ++ (fenced sep ws ++ e)) w = (h ++ (fenced sep ws ++ e)) ++ (w ++ [sep]) := by
  obtain ⟨hfirst, hlast⟩ := cuts_notMem sh hsep hh he hws hw hmem
  unfold addTurn
  simp only [hfirst, hlast]
  rw [if_neg ends_ne_nil, if_pos (Or.inl ends_ne_nil), if_pos trivial]

/-- A word that is in the list, and how the turns treat it with and without force. -/
theorem turns_mem (hends : h = [] ∨ e = []) (hmem : w ∈ ws) :
    (insertTurn sh false sep (h ++ (fenced sep ws ++ e)) w = h ++ (fenced sep ws ++ e) ∧
      addTurn sh false sep (h ++ (fenced sep ws ++ e)) w = h ++ (fenced sep ws ++ e)) ∧
    ((h = [] ∧ frontOf ws w = []) ∧ backOf ws w = [] ∧ e = [] →
      insertTurn sh true sep (h ++ (fenced sep ws ++ e)) w = h ++ (fenced sep ws ++ e) ∧
        addTurn sh true sep (h ++ (fenced sep ws ++ e)) w = h ++ (fenced sep ws ++ e)) ∧
    (¬((h = [] ∧ frontOf ws w = []) ∧ backOf ws w = [] ∧ e = []) →
      insertTurn sh true sep (h ++ (fenced sep ws ++ e)) w = (w ++ h) ++ (fenced sep (frontOf ws w ++ backOf ws w) ++ e) ∧
        addTurn sh true sep (h ++ (fenced sep ws ++ e)) w = h ++ (fenced sep (frontOf ws w ++ backOf ws w) ++ (e ++ w))) := by
  obtain ⟨hfirst, hlast⟩ := cuts_mem sh hsep hh he hws hw hmem
  have hsides := sides_ne hws (frontOf_subset ws w) (backOf_subset ws w) hh he hends hlast
  generalize hright : restLast (fits sh sep w) (h ++ (fenced sep ws ++ e)) = right at hlast hsides
  have hlist : h ++ (fenced sep ws ++ e) ≠ [] := ends_ne_nil
  unfold insertTurn addTurn
  simp only [hfirst, hright, if_neg hlist]
  by_cases hall : (h = [] ∧ frontOf ws w = []) ∧ backOf ws w = [] ∧ e = []
  · have hnil : right = [] := by
      rw [hall.2.1, hall.2.2, fenced_nil] at hlast
      exact List.tail_eq_of_cons_eq hlast
    have hempty : ¬(h ++ fronted sep (frontOf ws w) ≠ [] ∨ right ≠ []) := by
      rw [hall.1.1, hall.1.2, hnil]
      simp
    simp only [if_neg hempty]
    exact ⟨⟨trivial, trivial⟩, fun _ => ⟨trivial, trivial⟩, fun hno => absurd hall hno⟩
  · have hne : h ++ fronted sep (frontOf ws w) ≠ right := fun heq => hall (hsides heq)
    have hsome : h ++ fronted sep (frontOf ws w) ≠ [] ∨ right ≠ [] := by
      by_contra hno
      rw [not_or, not_not, not_not] at hno
      exact hne (hno.1.trans hno.2.symm)
    have hjoin : fronted sep (frontOf ws w) ++ sep :: right = fenced sep (frontOf ws w ++ backOf ws w) ++ e := by
      rw [hlast, fenced_append, List.append_assoc]
    simp only [if_pos hsome, if_neg hne]
    refine ⟨⟨rfl, rfl⟩, fun hyes => absurd hyes hall, fun _ => ⟨?_, ?_⟩⟩
    · rw [if_pos trivial, ← hjoin]
      simp only [List.append_assoc]
    · rw [if_pos trivial, ← List.append_assoc (fenced sep _), ← hjoin]
      simp only [List.append_assoc, List.cons_append]

end

theorem words_snoc {ws : List Text} (hws : ∀ v ∈ ws, Word sep v) {w : Text} (hw : Word sep w) : ∀ v ∈ ws ++ [w], Word sep v := by
  intro v hv
  rcases List.mem_append.mp hv with hv | hv
  · exact hws v hv
  · exact (List.mem_singleton.mp hv) ▸ hw

theorem words_cons {ws : List Text} (hws : ∀ v ∈ ws, Word sep v) {w : Text} (hw : Word sep w) : ∀ v ∈ w :: ws, Word sep v := by
  intro v hv
  rcases List.mem_cons.mp hv with rfl | hv
  · exact hw
  · exact hws v hv

/-! ## Lists that grow as sets -/

/-- A word that is not in the list is put in front of it. -/
def putNew (ws : List Text) (w : Text) : List Text := ws.insert w

section

variable (sh : Shell) (hsep : ordinary sep = true)

include hsep

theorem addTurn_row (list : Text) (ws : List Text) (w : Text) (hws : ∀ v ∈ ws, Word sep v) (hw : Word sep w)
    (hrow : Row sep list ws) : (∀ v ∈ insertWord ws w, Word sep v) ∧ Row sep (addTurn sh false sep list w) (insertWord ws w) := by
  unfold insertWord
  rcases hrow with rfl | ⟨rfl, rfl⟩
  · by_cases hmem : w ∈ ws
    · have hturn := (turns_mem sh hsep (Or.inl rfl) (Or.inl rfl) hws hw (Or.inl rfl) hmem).1.2
      rw [List.nil_append, List.append_nil] at hturn
      rw [if_pos hmem, hturn]
      exact ⟨hws, Or.inl rfl⟩
    · have hturn := addTurn_notMem sh hsep (Or.inl rfl) (Or.inl rfl) hws hw false hmem
      rw [List.nil_append, List.append_nil] at hturn
      rw [if_neg hmem, hturn]
      refine ⟨words_snoc hws hw, Or.inl ?_⟩
      rw [fenced_append, fenced_cons, fenced_nil, fenced, List.append_assoc]
      rfl
  · rw [if_neg List.not_mem_nil]
    refine ⟨words_snoc hws hw, Or.inl ?_⟩
    rw [addTurn, if_pos rfl, List.nil_append, fenced_cons, fenced_nil]

theorem insertTurn_row (list : Text) (ws : List Text) (w : Text) (hws : ∀ v ∈ ws, Word sep v) (hw : Word sep w)
    (hrow : Row sep list ws) : (∀ v ∈ putNew ws w, Word sep v) ∧ Row sep (insertTurn sh false sep list w) (putNew ws w) := by
  unfold putNew
  rcases hrow with rfl | ⟨rfl, rfl⟩
  · by_cases hmem : w ∈ ws
    · have hturn := (turns_mem sh hsep (Or.inl rfl) (Or.inl rfl) hws hw (Or.inl rfl) hmem).1.1
      rw [List.nil_append, List.append_nil] at hturn
      rw [List.insert_of_mem hmem, hturn]
      exact ⟨hws, Or.inl rfl⟩
    · have hturn := insertTurn_notMem sh hsep (Or.inl rfl) (Or.inl rfl) hws hw false hmem
      rw [List.nil_append, List.append_nil] at hturn
      rw [List.insert_of_not_mem hmem, hturn]
      exact ⟨words_cons hws hw, Or.inl (fenced_cons w ws).symm⟩
  · rw [List.insert_of_not_mem List.not_mem_nil]
    refine ⟨words_cons hws hw, Or.inl ?_⟩
    rw [insertTurn, if_pos rfl, fenced_cons, fenced_nil]

/-- `wordAdd_` appends each word that is not yet in the list. -/
theorem wordAdd_value (c : Call sep) : wordAdd_ sh sep c.value c.given = [sep].intercalate (c.given.foldl insertWord c.held) := by
  obtain ⟨hws, hrow⟩ := foldl_row (addTurn_row sh hsep) c.given_word c.held_word (fetch_row sh hsep c.held_word)
  rw [wordAdd_, wordAdd', takeWhile_words c.given_word]
  exact put_row sh hsep hrow hws

/-- `wordInsert_` puts each word in front that is not yet in the list. -/
theorem wordInsert_value (c : Call sep) : wordInsert_ sh sep c.value c.given = [sep].intercalate (c.given.foldl putNew c.held) := by
  obtain ⟨hws, hrow⟩ := foldl_row (insertTurn_row sh hsep) c.given_word c.held_word (fetch_row sh hsep c.held_word)
  rw [wordInsert_, wordInsert', takeWhile_words c.given_word]
  exact put_row sh hsep hrow hws

end

/-! ## Separators that are misread -/

/-- A shell that reads nothing where the rules leave it open. -/
def Shell.silent : Shell := { Ksh.sample with fetched := fun _ _ => [], reads := fun _ _ => false }

theorem misread (hsep : ordinary sep = false) : isOpen sep = true ∨ sep = '\t' ∨ sep = '\n' ∨ sep = '*' ∨ sep = '?' := by
  unfold ordinary at hsep
  by_cases h : isOpen sep = true
  · exact Or.inl h
  · rw [Bool.not_eq_true] at h
    rw [h] at hsep
    simp only [Bool.not_false, Bool.true_and, Bool.not_eq_false', Bool.or_eq_true, decide_eq_true_eq, or_assoc] at hsep
    exact Or.inr hsep

/-- Letters are words for a separator that is misread. -/
theorem word_letters (hsep : ordinary sep = false) {w : Text} (hne : w ≠ []) (hw : w.all fun c => c = 'a' || c = 'b') : Word sep w := by
  rw [List.all_eq_true] at hw
  have hletter : ∀ c ∈ w, c = 'a' ∨ c = 'b' := fun c hc => by simpa using hw c hc
  refine ⟨hne, fun hmem => ?_, fun c hc => ?_, fun c hc => ?_, fun c hc => ?_⟩
  · rcases hletter sep hmem with rfl | rfl <;> cases hsep
  · rcases hletter c hc with rfl | rfl <;> rfl
  · rcases hletter c hc with rfl | rfl <;> rfl
  · rcases hletter c hc with rfl | rfl <;> rfl

/-- A list of one word that is only fetched and assigned again. -/
def single (hsep : ordinary sep = false) : Call sep where
  held := [['a']]
  given := []
  held_word := fun _ hw => (List.mem_singleton.mp hw) ▸ word_letters hsep (List.cons_ne_nil _ _) rfl
  given_word := fun _ hw => by cases hw

/-- A word that is a part of the only word of the list. -/
def part : Call '?' where
  held := [['a', 'b']]
  given := [['a']]
  held_word := fun _ hw => (List.mem_singleton.mp hw) ▸ word_letters rfl (List.cons_ne_nil _ _) rfl
  given_word := fun _ hw => (List.mem_singleton.mp hw) ▸ word_letters rfl (List.cons_ne_nil _ _) rfl

/-- A misread separator that matches more than one character, or none, spoils a list that no turn changes. -/
theorem put_fetch_ne (hsep : ordinary sep = false) (hany : sep ≠ '?') :
    put Shell.silent sep (fetch Shell.silent sep ['a']) ≠ ['a'] := by
  rcases misread hsep with h | rfl | rfl | rfl | rfl
  · have hfetch : fetch Shell.silent sep ['a'] = [] := by
      unfold fetch
      rw [if_pos h]
      rfl
    have hreads : reads Shell.silent sep = fun _ => false := by
      funext u
      unfold reads
      rw [if_pos h]
      rfl
    rw [hfetch, put, hreads]
    exact fun hnil => by cases hnil
  · decide
  · decide
  · decide
  · exact absurd rfl hany

/-- Word lists grow as sets for just the separators that stand for themselves. -/
theorem grow_iff (sep : Char) :
    (∀ (sh : Shell) (c : Call sep), wordAdd_ sh sep c.value c.given = [sep].intercalate (c.given.foldl insertWord c.held) ∧
      wordInsert_ sh sep c.value c.given = [sep].intercalate (c.given.foldl putNew c.held)) ↔ ordinary sep = true := by
  constructor
  · intro hgrow
    by_contra hno
    have hsep : ordinary sep = false := eq_false_of_ne_true hno
    by_cases hany : sep = '?'
    · subst hany
      exact absurd (hgrow Shell.silent part).1 (by decide)
    · exact put_fetch_ne hsep hany (hgrow Shell.silent (single hsep)).1
  · exact fun hsep sh c => ⟨wordAdd_value sh hsep c, wordInsert_value sh hsep c⟩

/-- A tab is lost twice: `eval` fetches the list with blanks around it, and assigns it with blanks in place of the tabs. -/
theorem tab_list : wordAdd_ Shell.silent '\t' ['a', '\t', 'b'] [['c']] = [' ', 'a', ' ', 'b', ' ', 'c'] ∧
    [' ', 'a', ' ', 'b', ' ', 'c'] ≠ ['\t'].intercalate ([['c']].foldl insertWord [['a'], ['b']]) := by decide

end ZfsTest.Stf.Wordset
