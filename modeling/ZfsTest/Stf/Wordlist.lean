import Mathlib.Data.List.Flatten
import Mathlib.Data.List.Nodup
import Mathlib.Data.List.Perm.Subperm
import Mathlib.Data.List.TakeWhile
import ZfsTest.Text.Fenced
import ZfsTest.Text.Ksh
import ZfsTest.Text.Words

/-!
# Word lists

`wordAdd_` and `wordDelete_` keep a list of words in a variable, with a blank between two words. Both put blanks around the list and
look for the word with its blanks. At the end the list is put back by `eval` without quotes around it, so that the shell first expands
its words against the names in the working directory. On the texts that they build themselves (`joined`) they are the operations on lists
of words that they stand for (`wordAdd_joined`, `wordDelete_joined`), as long as the words have no characters that `eval` treats specially
and the new list is left alone by that expansion (`Unexpanded`).
-/

namespace ZfsTest.Stf

/-! ## The shell -/

/-- What separates words. -/
def isIfs (c : Char) : Bool := c = ' ' || c = '\t' || c = '\n'

/-- A character that is special between double quotes. -/
def isSpecial (c : Char) : Bool := c = '$' || c = '"' || c = '\\' || c = '\x60'

/-- What the shell makes of a text between double quotes when `eval` reads it, and what `echo` prints. -/
structure Ksh where
  quoted : Text → Text
  echo : Text → Text
  quoted_plain : ∀ t, (∀ c ∈ t, isSpecial c = false) → quoted t = t
  echo_plain : ∀ t, (∀ c ∈ t, isSpecial c = false) → t.head? ≠ some '-' → echo t = t

/-- A shell that leaves all texts as they are. -/
def Ksh.sample : Ksh := ⟨id, id, fun _ _ => rfl, fun _ _ _ => rfl⟩

/-- The words of a text. -/
abbrev split (t : Text) : List Text := words isIfs t

/-- A word that neither `eval` nor `echo` changes. -/
structure Plain (w : Text) : Prop where
  ne_nil : w ≠ []
  blank : ∀ c ∈ w, isIfs c = false
  special : ∀ c ∈ w, isSpecial c = false
  dash : w.head? ≠ some '-'

/-- A word by its characters. -/
theorem Plain.of_all {w : Text} (hne : w ≠ []) (h : w.all fun c => !isIfs c && !isSpecial c) (hdash : w.head? ≠ some '-') :
    Plain w := by
  rw [List.all_eq_true] at h
  refine ⟨hne, fun c hc => ?_, fun c hc => ?_, hdash⟩
  · have hboth := h c hc
    rw [Bool.and_eq_true, Bool.not_eq_true'] at hboth
    exact hboth.1
  · have hboth := h c hc
    rw [Bool.and_eq_true, Bool.not_eq_true', Bool.not_eq_true'] at hboth
    exact hboth.2

/-! ## The operations -/

/-- Where a text first stands in the list. -/
def firstAt (m list : Text) : Option Nat := (List.range (list.length + 1)).find? fun i => m.isPrefixOf (list.drop i)
def lastAt (m list : Text) : Option Nat := (List.range (list.length + 1)).reverse.find? fun i => m.isPrefixOf (list.drop i)

/-- `${list%%m*}`. -/
def before (at? : Option Nat) (list : Text) : Text := at?.elim list list.take

/-- `${list##*m}` and `${list#*m}`. -/
def behind (m : Text) (at? : Option Nat) (list : Text) : Text := at?.elim list fun i => list.drop (i + m.length)

/-- A word between two separators. -/
def between (w : Text) : Text := ' ' :: (w ++ [' '])

/-- The list at the start of an operation. -/
def padded (list : Text) : Text := if list = [] then [] else between list

/-- `${list%" "}`, then `${list#" "}`. -/
def unpadded (list : Text) : Text :=
  let list := if list.getLast? = some ' ' then list.dropLast else list
  if list.head? = some ' ' then list.tail else list

/-- The body of the loop of `wordAdd__`, without `force`. -/
def addWord (list w : Text) : Text :=
  let left := before (firstAt (between w) list) list
  let right := behind (between w) (lastAt (between w) list) list
  if list = [] then between w
  else if left ≠ [] ∨ right ≠ [] then (if left = right then left ++ (w ++ [' ']) else list)
  else list

/-- The body of the loop of `wordDelete__`, from left to right. -/
def deleteWord (list w : Text) : Text :=
  let left := before (firstAt (between w) list) list
  let right := behind (between w) (firstAt (between w) list) list
  if left ≠ right ∨ left = [] ∨ right = [] then left ++ ' ' :: right else list

section

variable (sh : Ksh) (files : List Text) (listname : Text)

/-- `listname="`. -/
def opening : Text := listname ++ ['=', '"']

/-- `eval ${listname}=\"${list}\"` where the names in the working directory are `files`; under `set -f` none is seen. -/
def assignList (list : Text) : Text :=
  let text := joined ((split (opening listname ++ (list ++ ['"']))).flatMap (Ksh.pathnames files))
  sh.quoted (text.drop (opening listname).length).dropLast

def wordAdd_ (list : Text) (ws : List Text) : Text :=
  assignList sh files listname (unpadded ((ws.takeWhile (· ≠ [])).foldl addWord (padded list)))

def wordDelete_ (list : Text) (ws : List Text) : Text :=
  assignList sh files listname
    (unpadded ((ws.takeWhile (· ≠ [])).foldl (fun list w => if list = [] then list else deleteWord list w) (padded list)))

end

/-! ## Rows of words -/

/-- Words with a blank in front of each. -/
def body (ws : List Text) : Text := ws.flatMap fun w => ' ' :: w

/-- Words with a blank in front, between and behind them. -/
def row (ws : List Text) : Text := body ws ++ [' ']

@[simp] theorem body_nil : body [] = [] := rfl
@[simp] theorem body_cons (w : Text) (ws : List Text) : body (w :: ws) = ' ' :: (w ++ body ws) := rfl
@[simp] theorem body_append (as bs : List Text) : body (as ++ bs) = body as ++ body bs := List.flatMap_append

/-- Fewer words make a shorter row. -/
theorem body_le {as bs : List Text} (h : as.Subperm bs) : (body as).length ≤ (body bs).length := by
  obtain ⟨cs, hperm, hsub⟩ := h
  have hlen : (body cs).length = (body as).length := (hperm.flatMap_right fun w => ' ' :: w).length_eq
  rw [← hlen]
  exact (hsub.flatMap fun w => ' ' :: w).length_le

theorem body_joined {ws : List Text} (h : ws ≠ []) : body ws = ' ' :: joined ws := by
  induction ws with
  | nil => exact absurd rfl h
  | cons w ws ih =>
    cases ws with
    | nil =>
      rw [body_cons, body_nil, List.append_nil]
      rfl
    | cons v ws =>
      rw [body_cons, ih (List.cons_ne_nil v ws)]
      rfl

theorem length_joined (ws : List Text) : (joined ws).length = (body ws).length - 1 := by
  by_cases h : ws = []
  · rw [h]
    rfl
  · rw [body_joined h, List.length_cons, Nat.add_sub_cancel]

theorem padded_joined {ws : List Text} (h : ws ≠ []) (hne : ∀ w ∈ ws, w ≠ []) : padded (joined ws) = row ws := by
  obtain ⟨w, ws, rfl⟩ := List.exists_cons_of_ne_nil h
  have hlen := length_joined (w :: ws)
  have hw := List.length_pos_iff.mpr (hne w List.mem_cons_self)
  have hjoined : joined (w :: ws) ≠ [] := by
    intro hnil
    rw [hnil, body_cons, List.length_cons, List.length_append, List.length_nil] at hlen
    omega
  rw [padded, if_neg hjoined, row, body_joined (List.cons_ne_nil w ws)]
  rfl

theorem unpadded_row (ws : List Text) : unpadded (row ws) = joined ws := by
  unfold unpadded row
  rw [List.getLast?_concat, if_pos rfl, List.dropLast_concat]
  by_cases h : ws = []
  · rw [h]
    rfl
  · rw [body_joined h]
    rfl

/-- Where a word stands in a row, with its blanks. -/
theorem row_occurs {ws : List Text} (hws : ∀ v ∈ ws, ' ' ∉ v) {w : Text} (hw : ' ' ∉ w) {l r : Text}
    (h : row ws = l ++ (between w ++ r)) : ∃ as bs, ws = as ++ w :: bs ∧ l = body as ∧ ' ' :: r = row bs := by
  have hbetween : between w = fenced ' ' [w] := by simp [between, fenced, fronted]
  rw [hbetween] at h
  exact fenced_occurs hws hw h

/-! ## A word in a row -/

/-- Where a search has found a word. -/
theorem found_at {m list : Text} {is : List Nat} {i : Nat} (h : (is.find? fun i => m.isPrefixOf (list.drop i)) = some i) :
    list = before (some i) list ++ (m ++ behind m (some i) list) := by
  have hp : m.isPrefixOf (list.drop i) = true := List.find?_some (p := fun i => m.isPrefixOf (list.drop i)) h
  obtain ⟨r, hr⟩ := List.isPrefixOf_iff_prefix.mp hp
  have hbehind : behind m (some i) list = r := by
    show list.drop (i + m.length) = r
    rw [← List.drop_drop, ← hr]
    exact List.drop_left
  rw [hbehind, hr]
  exact (List.take_append_drop i list).symm

/-- A search that finds nothing has passed every place. -/
theorem found_nowhere {m list : Text} {is : List Nat} (his : ∀ i ≤ list.length, i ∈ is)
    (h : (is.find? fun i => m.isPrefixOf (list.drop i)) = none) (l r : Text) : list ≠ l ++ (m ++ r) := by
  rintro rfl
  have hi : l.length ≤ (l ++ (m ++ r)).length := by
    rw [List.length_append]
    omega
  refine List.find?_eq_none.mp h l.length (his _ hi) (List.isPrefixOf_iff_prefix.mpr ?_)
  rw [List.drop_left]
  exact List.prefix_append m r

/-- The first place of a word. -/
theorem notMem_of_firstAt {ws : List Text} {w : Text} {i : Nat} {as bs : List Text} (hfirst : firstAt (between w) (row ws) = some i)
    (hsplit : ws = as ++ w :: bs) (hleft : before (some i) (row ws) = body as) : w ∉ as := by
  intro hmem
  obtain ⟨cs, ds, rfl⟩ := List.append_of_mem hmem
  obtain ⟨-, hi, hleast⟩ := List.find?_range_eq_some.mp hfirst
  have hilen : i = (body (cs ++ w :: ds)).length := by
    rw [← hleft]
    exact (List.length_take_of_le (Nat.le_of_lt_succ (List.mem_range.mp hi))).symm
  have hearlier := hleast (body cs).length (by rw [hilen, body_append, body_cons, List.length_append, List.length_cons]; omega)
  have hoccurs : between w <+: (row ws).drop (body cs).length := by
    have hrow : row ws = body cs ++ (' ' :: (w ++ row (ds ++ w :: bs))) := by
      rw [hsplit]
      simp [row]
    rw [hrow, List.drop_left, between]
    obtain ⟨r, hr⟩ : ∃ r, row (ds ++ w :: bs) = ' ' :: r := by
      cases ds with
      | nil => exact ⟨_, rfl⟩
      | cons d ds => exact ⟨_, rfl⟩
    exact ⟨r, by rw [hr]; simp⟩
  rw [List.isPrefixOf_iff_prefix.mpr hoccurs] at hearlier
  cases hearlier

section

variable {ws : List Text} (hws : ∀ v ∈ ws, v ≠ [] ∧ ' ' ∉ v) {w : Text} (hw : ' ' ∉ w)

include hws

/-- The text behind a word does not begin with a blank; the two sides of a word are only equal when both are empty. -/
theorem sides_ne {as bs cs : List Text} (hsplit : ws = cs ++ w :: bs) {right : Text} (hright : ' ' :: right = row bs)
    (heq : body as = right) : right = [] := by
  cases bs with
  | nil => exact List.tail_eq_of_cons_eq hright
  | cons b bs =>
    obtain ⟨hne, hblank⟩ := hws b (by rw [hsplit]; simp)
    obtain ⟨c, b, rfl⟩ := List.exists_cons_of_ne_nil hne
    have hr : right = c :: (b ++ row bs) := by
      rw [row, body_cons, List.cons_append, List.cons.injEq] at hright
      rw [hright.2, row, List.cons_append, List.cons_append, List.append_assoc]
    cases as with
    | nil =>
      rw [body_nil, hr] at heq
      cases heq
    | cons a as =>
      rw [body_cons, hr] at heq
      have hc : ' ' = c := List.head_eq_of_cons_eq heq
      exact absurd (hc ▸ List.mem_cons_self) hblank

include hw

/-- What a search in a row finds. -/
theorem find_row {is : List Nat} (his : ∀ i ≤ (row ws).length, i ∈ is) :
    (w ∉ ws ∧ (is.find? fun i => (between w).isPrefixOf ((row ws).drop i)) = none) ∨
      ∃ i as bs, (is.find? fun i => (between w).isPrefixOf ((row ws).drop i)) = some i ∧ ws = as ++ w :: bs ∧
        before (some i) (row ws) = body as ∧ ' ' :: behind (between w) (some i) (row ws) = row bs := by
  cases hfind : is.find? fun i => (between w).isPrefixOf ((row ws).drop i) with
  | none =>
    refine Or.inl ⟨fun hmem => ?_, rfl⟩
    obtain ⟨as, bs, rfl⟩ := List.append_of_mem hmem
    apply found_nowhere his hfind (body as) (body bs ++ [' ']).tail
    cases bs with
    | nil => simp [row, between]
    | cons b bs => simp [row, between]
  | some i =>
    obtain ⟨as, bs, heq, hl, hr⟩ := row_occurs (fun v hv => (hws v hv).2) hw (found_at hfind)
    exact Or.inr ⟨i, as, bs, rfl, heq, hl, hr⟩

theorem firstAt_row : (w ∉ ws ∧ firstAt (between w) (row ws) = none) ∨
    ∃ i as bs, firstAt (between w) (row ws) = some i ∧ ws = as ++ w :: bs ∧ before (some i) (row ws) = body as ∧
      ' ' :: behind (between w) (some i) (row ws) = row bs :=
  find_row hws hw fun _ hi => List.mem_range.mpr (Nat.lt_succ_of_le hi)

theorem lastAt_row : (w ∉ ws ∧ lastAt (between w) (row ws) = none) ∨
    ∃ i as bs, lastAt (between w) (row ws) = some i ∧ ws = as ++ w :: bs ∧ before (some i) (row ws) = body as ∧
      ' ' :: behind (between w) (some i) (row ws) = row bs :=
  find_row hws hw fun _ hi => List.mem_reverse.mpr (List.mem_range.mpr (Nat.lt_succ_of_le hi))

theorem addWord_row : addWord (row ws) w = row (if w ∈ ws then ws else ws ++ [w]) := by
  have hrow : row ws ≠ [] := by simp [row]
  unfold addWord
  rcases firstAt_row hws hw with ⟨hmem, hfirst⟩ | ⟨i, as, bs, hfirst, hsplit, hleft, -⟩
  · rcases lastAt_row hws hw with ⟨-, hlast⟩ | ⟨i, as, bs, -, hsplit, -, -⟩
    · rw [hfirst, hlast, if_neg hmem]
      simp [before, behind, hrow]
      simp [row]
    · exact absurd (by rw [hsplit]; simp) hmem
  · have hmem : w ∈ ws := by rw [hsplit]; simp
    rw [if_pos hmem, hfirst]
    simp only [if_neg hrow, hleft]
    rcases lastAt_row hws hw with ⟨hnot, -⟩ | ⟨j, cs, ds, hlast, hsplit', -, hright⟩
    · exact absurd hmem hnot
    · rw [hlast]
      split
      · rename_i hsides
        split
        · rename_i heq
          have hnil := sides_ne hws hsplit' hright heq
          rw [heq, hnil] at hsides
          simp at hsides
        · rfl
      · rfl

/-- The first place of a word is taken out of the row. -/
theorem deleteWord_row : deleteWord (row ws) w = row (ws.erase w) := by
  unfold deleteWord
  rcases firstAt_row hws hw with ⟨hmem, hfirst⟩ | ⟨i, as, bs, hfirst, hsplit, hleft, hright⟩
  · rw [hfirst, List.erase_of_not_mem hmem]
    simp [before, behind, row]
  · have herase : ws.erase w = as ++ bs := by
      rw [hsplit, List.erase_append_right _ (notMem_of_firstAt hfirst hsplit hleft), List.erase_cons_head]
    rw [hfirst, herase]
    simp only [hleft, hright]
    have hrest : body as ++ row bs = row (as ++ bs) := by rw [row, row, body_append, List.append_assoc]
    rw [hrest, if_pos]
    by_cases heq : body as = behind (between w) (some i) (row ws)
    · exact Or.inr (Or.inr (sides_ne hws hsplit hright heq))
    · exact Or.inl heq

end

/-! ## The operations on lists of words -/

def insertWord (ws : List Text) (w : Text) : List Text := if w ∈ ws then ws else ws ++ [w]

theorem mem_insertWord {ws : List Text} {v w : Text} : v ∈ insertWord ws w ↔ v ∈ ws ∨ v = w := by
  unfold insertWord
  split
  · rename_i h
    constructor
    · exact Or.inl
    · rintro (hv | rfl)
      · exact hv
      · exact h
  · rw [List.mem_append, List.mem_singleton]

theorem mem_insertWords {ws vs : List Text} {v : Text} : v ∈ vs.foldl insertWord ws ↔ v ∈ ws ∨ v ∈ vs := by
  induction vs generalizing ws with
  | nil => simp
  | cons u vs ih =>
    rw [List.foldl_cons, ih, mem_insertWord, List.mem_cons, or_assoc]

theorem nodup_insertWords {ws : List Text} (h : ws.Nodup) (vs : List Text) : (vs.foldl insertWord ws).Nodup := by
  induction vs generalizing ws with
  | nil => exact h
  | cons u vs ih =>
    apply ih
    unfold insertWord
    split
    · exact h
    · rename_i hu
      rw [← List.concat_eq_append]
      exact List.Nodup.concat hu h

theorem insertWords_of_mem {ws vs : List Text} (h : ∀ v ∈ vs, v ∈ ws) : vs.foldl insertWord ws = ws := by
  induction vs with
  | nil => rfl
  | cons u vs ih =>
    rw [List.foldl_cons, insertWord, if_pos (h u List.mem_cons_self)]
    exact ih fun v hv => h v (List.mem_cons_of_mem _ hv)

/-- A word more is taken out. -/
theorem filter_cons {vs ws ws' : List Text} (h : (ws'.filter fun w => w ∉ vs) = ws.filter fun w => w ∉ vs) (v : Text) :
    (ws'.filter fun w => w ∉ v :: vs) = ws.filter fun w => w ∉ v :: vs := by
  have hsplit : ∀ us : List Text, (us.filter fun w => w ∉ v :: vs) = (us.filter fun w => w ∉ vs).filter fun w => w ≠ v := by
    intro us
    rw [List.filter_filter]
    refine List.filter_congr fun w _ => ?_
    simp [not_or]
  rw [hsplit, hsplit, h]

/-- The words that are taken out do not matter for the others. -/
theorem filter_diff (ws vs : List Text) : ((ws.diff vs).filter fun w => w ∉ vs) = ws.filter fun w => w ∉ vs := by
  induction vs generalizing ws with
  | nil => rfl
  | cons v vs ih =>
    rw [List.diff_cons, filter_cons (ih (ws.erase v)) v]
    by_cases hv : v ∈ ws
    · obtain ⟨as, bs, hnot, hws, herase⟩ := List.exists_erase_eq hv
      rw [herase, hws, List.filter_append, List.filter_append, List.filter_cons_of_neg]
      simp
    · rw [List.erase_of_not_mem hv]

/-- Nothing is taken out, or the row gets shorter. -/
theorem body_diff {ws : List Text} (hne : ∀ w ∈ ws, w ≠ []) (vs : List Text) :
    (ws.diff vs = ws ∧ ∀ v ∈ vs, v ∉ ws) ∨ (body (ws.diff vs)).length + 2 ≤ (body ws).length := by
  induction vs generalizing ws with
  | nil => exact Or.inl ⟨rfl, fun v hv => by cases hv⟩
  | cons v vs ih =>
    rw [List.diff_cons]
    by_cases hv : v ∈ ws
    · obtain ⟨as, bs, -, hws, herase⟩ := List.exists_erase_eq hv
      have hpos := List.length_pos_iff.mpr (hne v hv)
      have hlen : (body (ws.erase v)).length + 2 ≤ (body ws).length := by
        rw [herase, hws]
        simp only [body_append, body_cons, List.length_append, List.length_cons]
        omega
      rcases ih fun w hw => hne w (List.mem_of_mem_erase hw) with ⟨hsame, -⟩ | hless
      · exact Or.inr (hsame.symm ▸ hlen)
      · exact Or.inr (by omega)
    · rw [List.erase_of_not_mem hv]
      exact (ih hne).imp_left fun ⟨hsame, hnone⟩ => ⟨hsame, List.forall_mem_cons.mpr ⟨hv, hnone⟩⟩

/-! ## Lists in quotes -/

/-- A list with a text in front of its first word and another behind its last. -/
def enclosed (front back : Text) : List Text → List Text
  | [] => [front ++ back]
  | [w] => [front ++ (w ++ back)]
  | w :: v :: ws => (front ++ w) :: enclosed [] back (v :: ws)

theorem enclosed_ne_nil (front back : Text) (ws : List Text) : enclosed front back ws ≠ [] := by
  unfold enclosed
  split <;> exact List.cons_ne_nil _ _

theorem joined_enclosed (front back : Text) (ws : List Text) : joined (enclosed front back ws) = front ++ (joined ws ++ back) := by
  have hcons : ∀ (u : Text) {us : List Text}, us ≠ [] → joined (u :: us) = u ++ ' ' :: joined us := by
    intro u us hus
    cases us with
    | nil => exact absurd rfl hus
    | cons v us => rfl
  induction ws generalizing front with
  | nil => rfl
  | cons w ws ih =>
    cases ws with
    | nil => rfl
    | cons v ws =>
      rw [enclosed, hcons _ (enclosed_ne_nil [] back (v :: ws)), hcons _ (List.cons_ne_nil v ws), ih []]
      simp

/-- The words of a list in quotes are left alone by pathname expansion. -/
def Unexpanded (files : List Text) (front : Text) (ws : List Text) : Prop :=
  ∀ w ∈ enclosed front ['"'] ws, Ksh.pathnames files w = [w]

theorem split_joined_words {ws : List Text} (hws : ∀ w ∈ ws, w ≠ [] ∧ ∀ c ∈ w, isIfs c = false) : split (joined ws) = ws := by
  induction ws with
  | nil => rfl
  | cons w ws ih =>
    obtain ⟨hne, hblank⟩ := hws w List.mem_cons_self
    cases ws with
    | nil => exact words_single hblank hne
    | cons v ws =>
      have hrest := ih fun u hu => hws u (List.mem_cons_of_mem _ hu)
      rw [joined, split, words_word hblank hne rfl]
      · exact congrArg _ hrest
      · exact List.cons_ne_nil v ws

/-- Texts without blanks make words. -/
theorem enclosed_words {front back : Text} {ws : List Text} (hfront : ∀ c ∈ front, isIfs c = false)
    (hback : back ≠ [] ∧ ∀ c ∈ back, isIfs c = false) (hws : ∀ w ∈ ws, w ≠ [] ∧ ∀ c ∈ w, isIfs c = false) :
    ∀ w ∈ enclosed front back ws, w ≠ [] ∧ ∀ c ∈ w, isIfs c = false := by
  have happend : ∀ {s t : Text}, (∀ c ∈ s, isIfs c = false) → t ≠ [] ∧ (∀ c ∈ t, isIfs c = false) →
      s ++ t ≠ [] ∧ ∀ c ∈ s ++ t, isIfs c = false := fun hs ht =>
    ⟨List.append_ne_nil_of_right_ne_nil _ ht.1, fun c hc => (List.mem_append.mp hc).elim (hs c) (ht.2 c)⟩
  induction ws generalizing front with
  | nil => exact fun x hx => List.mem_singleton.mp hx ▸ happend hfront hback
  | cons w ws ih =>
    obtain ⟨hw, hws⟩ := List.forall_mem_cons.mp hws
    cases ws with
    | nil => exact fun x hx => List.mem_singleton.mp hx ▸ happend hfront (happend hw.2 hback)
    | cons v ws => exact List.forall_mem_cons.mpr ⟨happend hfront hw, ih (fun c hc => by cases hc) hws⟩

theorem flatMap_alone {expand : Text → List Text} {ws : List Text} (h : ∀ w ∈ ws, expand w = [w]) : ws.flatMap expand = ws := by
  rw [List.flatMap_congr h, List.flatMap_singleton']

section

variable {ws vs : List Text} (hws : ∀ w ∈ ws, Plain w) (hvs : ∀ v ∈ vs, Plain v)

theorem plain_nil : ∀ w ∈ ([] : List Text), Plain w := fun _ hw => by cases hw

theorem Plain.noBlank {w : Text} (h : Plain w) : ' ' ∉ w := fun hc => Bool.noConfusion (h.blank ' ' hc)

theorem Plain.word {w : Text} (h : Plain w) : w ≠ [] ∧ ' ' ∉ w := ⟨h.ne_nil, h.noBlank⟩

theorem takeWhile_plain {vs : List Text} (hvs : ∀ v ∈ vs, Plain v) : vs.takeWhile (· ≠ []) = vs :=
  List.takeWhile_eq_self_iff.mpr fun v hv => decide_eq_true (hvs v hv).ne_nil

theorem mem_joined {ws : List Text} {c : Char} (h : c ∈ joined ws) : c = ' ' ∨ ∃ w ∈ ws, c ∈ w := by
  by_cases hnil : ws = []
  · rw [hnil] at h
    cases h
  · have hbody : c ∈ body ws := by
      rw [body_joined hnil]
      exact List.mem_cons_of_mem _ h
    obtain ⟨w, hw, hc⟩ := List.mem_flatMap.mp hbody
    exact (List.mem_cons.mp hc).imp id fun hc => ⟨w, hw, hc⟩

include hws

theorem not_special_joined : ∀ c ∈ joined ws, isSpecial c = false := by
  intro c hc
  rcases mem_joined hc with rfl | ⟨w, hw, hcw⟩
  · rfl
  · exact (hws w hw).special c hcw

theorem quoted_joined (sh : Ksh) : sh.quoted (joined ws) = joined ws := sh.quoted_plain _ (not_special_joined hws)

theorem echo_joined (sh : Ksh) : sh.echo (joined ws) = joined ws := by
  apply sh.echo_plain _ (not_special_joined hws)
  cases ws with
  | nil => exact fun h => (by cases h)
  | cons w ws =>
    have hw := hws w List.mem_cons_self
    obtain ⟨c, w, rfl⟩ := List.exists_cons_of_ne_nil hw.ne_nil
    cases ws with
    | nil => exact hw.dash
    | cons v ws => exact hw.dash

/-- The words of a list of words. -/
theorem split_joined : split (joined ws) = ws := split_joined_words fun w hw => ⟨(hws w hw).ne_nil, (hws w hw).blank⟩

/-- A list that is put back as it is. -/
theorem assignList_joined (sh : Ksh) {files : List Text} {listname : Text} (hname : ∀ c ∈ listname, isIfs c = false)
    (h : Unexpanded files (opening listname) ws) : assignList sh files listname (joined ws) = joined ws := by
  have hopen : ∀ c ∈ opening listname, isIfs c = false := by
    intro c hc
    rcases List.mem_append.mp hc with hc | hc
    · exact hname c hc
    · rcases List.mem_cons.mp hc with rfl | hc
      · rfl
      · rw [List.mem_singleton.mp hc]
        rfl
  have hwords : split (opening listname ++ (joined ws ++ ['"'])) = enclosed (opening listname) ['"'] ws := by
    rw [← joined_enclosed]
    have hquote : ∀ c ∈ ['"'], isIfs c = false := fun c hc => List.mem_singleton.mp hc ▸ rfl
    exact split_joined_words (enclosed_words hopen ⟨List.cons_ne_nil _ _, hquote⟩ fun w hw => ⟨(hws w hw).ne_nil, (hws w hw).blank⟩)
  rw [assignList, hwords, flatMap_alone h, joined_enclosed]
  simp only [List.drop_left, List.dropLast_concat]
  exact quoted_joined hws sh

include hvs

theorem plain_insertWords : ∀ w ∈ vs.foldl insertWord ws, Plain w :=
  fun w hw => (mem_insertWords.mp hw).elim (hws w) (hvs w)

theorem foldl_addWord (h : ws ≠ []) : vs.foldl addWord (row ws) = row (vs.foldl insertWord ws) := by
  induction vs generalizing ws with
  | nil => rfl
  | cons v vs ih =>
    have hv := hvs v List.mem_cons_self
    rw [List.foldl_cons, List.foldl_cons, addWord_row (fun w hw => (hws w hw).word) hv.noBlank]
    have hins : ∀ w ∈ insertWord ws v, Plain w := fun w hw => (mem_insertWord.mp hw).elim (hws w) fun heq => heq ▸ hv
    refine ih hins (fun u hu => hvs u (List.mem_cons_of_mem _ hu)) ?_
    exact List.ne_nil_of_mem (mem_insertWord.mpr (Or.inl (List.head_mem h)))

theorem wordAdd_joined (sh : Ksh) {files : List Text} {listname : Text} (hname : ∀ c ∈ listname, isIfs c = false)
    (h : Unexpanded files (opening listname) (vs.foldl insertWord ws)) :
    wordAdd_ sh files listname (joined ws) vs = joined (vs.foldl insertWord ws) := by
  have hfold : unpadded (vs.foldl addWord (padded (joined ws))) = joined (vs.foldl insertWord ws) := by
    by_cases h : ws = []
    · rw [h]
      cases vs with
      | nil => rfl
      | cons v vs =>
        have hv := hvs v List.mem_cons_self
        have hone : ∀ w ∈ [v], Plain w := fun w hw => (List.mem_singleton.mp hw) ▸ hv
        have hfirst : addWord (padded (joined [])) v = row [v] := by simp [addWord, padded, joined, between, row]
        rw [List.foldl_cons, hfirst, foldl_addWord hone (fun u hu => hvs u (List.mem_cons_of_mem _ hu)) (by simp), unpadded_row]
        rfl
    · rw [padded_joined h fun w hw => (hws w hw).ne_nil, foldl_addWord hws hvs h, unpadded_row]
  rw [wordAdd_, takeWhile_plain hvs, hfold]
  exact assignList_joined (plain_insertWords hws hvs) sh hname h

/-- What the loop of `wordDelete__` leaves of a row. -/
theorem foldl_deleteWord :
    vs.foldl (fun list w => if list = [] then list else deleteWord list w) (row ws) = row (ws.diff vs) := by
  induction vs generalizing ws with
  | nil => rfl
  | cons v vs ih =>
    have hrow : row ws ≠ [] := by simp [row]
    have hv := hvs v List.mem_cons_self
    rw [List.foldl_cons, if_neg hrow, deleteWord_row (fun w hw => (hws w hw).word) hv.noBlank, List.diff_cons]
    exact ih (fun w hw => hws w (List.mem_of_mem_erase hw)) fun u hu => hvs u (List.mem_cons_of_mem _ hu)

theorem wordDelete_joined (sh : Ksh) {files : List Text} {listname : Text} (hname : ∀ c ∈ listname, isIfs c = false)
    (h : Unexpanded files (opening listname) (ws.diff vs)) :
    wordDelete_ sh files listname (joined ws) vs = joined (ws.diff vs) := by
  have hfold : unpadded (vs.foldl (fun list w => if list = [] then list else deleteWord list w) (padded (joined ws))) =
      joined (ws.diff vs) := by
    by_cases hnil : ws = []
    · have hnone : ∀ vs : List Text, vs.foldl (fun list w => if list = [] then list else deleteWord list w) [] = [] := by
        intro vs
        induction vs with
        | nil => rfl
        | cons v vs ih => exact ih
      rw [hnil, show padded (joined []) = [] from rfl, hnone, List.nil_diff]
      rfl
    · rw [padded_joined hnil fun w hw => (hws w hw).ne_nil, foldl_deleteWord hws hvs, unpadded_row]
  rw [wordDelete_, takeWhile_plain hvs, hfold]
  exact assignList_joined (fun w hw => hws w (List.diff_subset ws vs hw)) sh hname h

end

end ZfsTest.Stf
