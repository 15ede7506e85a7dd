import Mathlib.Data.List.Infix
import ZfsTest.Text.Basic

/-!
# Regular expressions

A fragment of Perl's regular expressions: alternatives of `^`, `\s`, `[^|]*` and characters that stand for themselves, also behind a
backslash. A search tries the positions of the line from the front, and at each position the alternatives in their order. `^` and whatever
else stands in an alternative bind to this alternative alone (`parse_joined`).
-/

namespace ZfsTest.Regex

/-! ## Reading an expression -/

inductive Atom
  | bol
  | space
  | notBars
  | char (c : Char)
  deriving DecidableEq, Repr

/-- An atom in front of the first alternative. -/
def ahead (a : Atom) : List (List Atom) → List (List Atom)
  | [] => [[a]]
  | alt :: alts => (a :: alt) :: alts

/-- The alternatives of an expression. -/
def parse : Text → List (List Atom)
  | [] => [[]]
  | '[' :: '^' :: '|' :: ']' :: '*' :: t => ahead .notBars (parse t)
  | '\\' :: c :: t => ahead (if c = 's' then .space else .char c) (parse t)
  | c :: t => if c = '|' then [] :: parse t else ahead (if c = '^' then .bol else .char c) (parse t)

/-! ## Matching -/

section

variable (sp : Char → Bool)

/-- What is behind a match of an alternative at the front of a text; `front` tells whether the line begins there. A bar stands behind
`[^|]*`, so it takes all that it can. -/
def eat (front : Bool) : List Atom → Text → Option Text
  | [], t => some t
  | .bol :: as, t => if front then eat front as t else none
  | .notBars :: as, t => eat false as (t.dropWhile (· ≠ '|'))
  | .space :: _, [] => none
  | .space :: as, d :: t => if sp d then eat false as t else none
  | .char _ :: _, [] => none
  | .char c :: as, d :: t => if c = d then eat false as t else none

def eatAny (front : Bool) (p : List (List Atom)) (t : Text) : Option Text := p.findSome? fun alt => eat sp front alt t

/-- The first match: the text in front of it, and the text behind it. -/
def search (p : List (List Atom)) (front : Bool) : Text → Option (Text × Text)
  | [] => (eatAny sp front p []).map fun v => ([], v)
  | c :: t =>
    match eatAny sp front p (c :: t) with
    | some v => some ([], v)
    | none => (search p false t).map fun m => (c :: m.1, m.2)

/-- `$t =~ /p/`. -/
def isMatch (p t : Text) : Bool := (search sp (parse p) true t).isSome

/-- `$t =~ s/p/r/`. -/
def subst (p r t : Text) : Text :=
  match search sp (parse p) true t with
  | some m => m.1 ++ r ++ m.2
  | none => t

end

variable {sp : Char → Bool}

theorem eat_nil (front : Bool) (t : Text) : eat sp front [] t = some t := rfl

theorem eat_bol (front : Bool) (as : List Atom) (t : Text) : eat sp front (.bol :: as) t = if front then eat sp front as t else none := rfl

theorem eat_char_nil (front : Bool) (c : Char) (as : List Atom) : eat sp front (.char c :: as) [] = none := rfl

theorem eat_char_cons (front : Bool) (c : Char) (as : List Atom) (d : Char) (t : Text) :
    eat sp front (.char c :: as) (d :: t) = if c = d then eat sp false as t else none := rfl

/-! ## Words -/

/-- A character that does not stand for itself. -/
def isMeta (c : Char) : Bool := "\\^$.|?*+()[]{}".toList.contains c

def word (w : Text) : List Atom := w.map Atom.char

theorem parse_char {c : Char} (hc : isMeta c = false) (t : Text) : parse (c :: t) = ahead (.char c) (parse t) := by
  have hne : ∀ d : Char, isMeta d = true → c ≠ d := by
    rintro d hd rfl
    rw [hc] at hd
    cases hd
  rw [parse.eq_def]
  split
  · rename_i h
    cases h
  · rename_i h
    cases h
    exact absurd rfl (hne '[' rfl)
  · rename_i h
    cases h
    exact absurd rfl (hne '\\' rfl)
  · rename_i h
    cases h
    rw [if_neg (hne '|' rfl), if_neg (hne '^' rfl)]

theorem parse_bar (t : Text) : parse ('|' :: t) = [] :: parse t := rfl

theorem parse_bol (t : Text) : parse ('^' :: t) = ahead .bol (parse t) := rfl

/-- Atoms in front of the first alternative. -/
theorem parse_word {w : Text} (hw : ∀ c ∈ w, isMeta c = false) (t : Text) {alt : List Atom} {alts : List (List Atom)}
    (ht : parse t = alt :: alts) : parse (w ++ t) = (word w ++ alt) :: alts := by
  induction w with
  | nil => exact ht
  | cons c w ih =>
    rw [List.cons_append, parse_char (hw c List.mem_cons_self), ih fun d hd => hw d (List.mem_cons_of_mem c hd)]
    rfl

/-- What stands behind the last word belongs to the last alternative. -/
theorem parse_joined {hs : List Text} (hhs : ∀ h ∈ hs, ∀ c ∈ h, isMeta c = false) {w : Text} (hw : ∀ c ∈ w, isMeta c = false)
    {t : Text} {as : List Atom} (ht : parse t = [as]) :
    parse (['|'].intercalate (hs ++ [w]) ++ t) = hs.map word ++ [word w ++ as] := by
  induction hs with
  | nil =>
    rw [List.nil_append, List.intercalate_singleton]
    exact parse_word hw t ht
  | cons h hs ih =>
    have ih := ih fun g hg => hhs g (List.mem_cons_of_mem h hg)
    have hjoined : ['|'].intercalate (h :: (hs ++ [w])) = h ++ '|' :: ['|'].intercalate (hs ++ [w]) := by
      cases hs with
      | nil => simp [List.intercalate_cons_cons]
      | cons g hs => simp [List.intercalate_cons_cons]
    have hbar : parse ('|' :: (['|'].intercalate (hs ++ [w]) ++ t)) = [] :: (hs.map word ++ [word w ++ as]) := by rw [parse_bar, ih]
    rw [List.cons_append, hjoined, List.append_assoc, List.cons_append, parse_word (hhs h List.mem_cons_self) _ hbar, List.append_nil,
      List.map_cons, List.cons_append]

/-! ## What is matched -/

theorem eat_word (w : Text) (as : List Atom) (front : Bool) (t : Text) :
    eat sp front (word w ++ as) t = if w <+: t then eat sp (front && w.isEmpty) as (t.drop w.length) else none := by
  induction w generalizing front t with
  | nil => simp [word]
  | cons c w ih =>
    cases t with
    | nil => simp [word, eat_char_nil]
    | cons d t =>
      by_cases hcd : c = d
      · subst hcd
        have ih := ih false t
        simp only [word, List.map_cons, List.cons_append, eat_char_cons, if_true] at ih ⊢
        rw [ih]
        simp
      · simp [word, eat_char_cons, hcd]

theorem eat_word_nil (w : Text) (front : Bool) (t : Text) :
    eat sp front (word w) t = if w <+: t then some (t.drop w.length) else none := by
  have h : eat sp front (word w ++ []) t = _ := eat_word w [] front t
  rw [List.append_nil] at h
  rw [h]
  simp [eat_nil]

/-- `^` holds at the beginning of the line. -/
theorem eatAny_bol {p : List (List Atom)} (hp : p ≠ []) (t : Text) : eatAny sp true (ahead .bol p) t = eatAny sp true p t := by
  cases p with
  | nil => exact absurd rfl hp
  | cons alt alts => simp only [eatAny, ahead, List.findSome?_cons, eat_bol, if_true]

/-- The first of the words that stands at the front is taken. -/
theorem eatAny_words {ws : List Text} {t : Text} (h : ∃ w ∈ ws, w <+: t) (front : Bool) (p : List (List Atom)) :
    ∃ w ∈ ws, w <+: t ∧ eatAny sp front (ws.map word ++ p) t = some (t.drop w.length) := by
  induction ws with
  | nil => simp at h
  | cons w ws ih =>
    rw [List.map_cons, List.cons_append, eatAny, List.findSome?_cons, eat_word_nil]
    by_cases hw : w <+: t
    · exact ⟨w, List.mem_cons_self, hw, by rw [if_pos hw]⟩
    · obtain ⟨g, hg, hgt⟩ := h
      have hmem : g ∈ ws := (List.mem_cons.mp hg).resolve_left fun heq => hw (heq ▸ hgt)
      obtain ⟨g', hg', hgt', heat⟩ := ih ⟨g, hmem, hgt⟩
      refine ⟨g', List.mem_cons_of_mem w hg', hgt', ?_⟩
      rw [if_neg hw]
      exact heat

theorem eatAny_skip {ws : List Text} {t : Text} (h : ∀ w ∈ ws, ¬w <+: t) (front : Bool) (p : List (List Atom)) :
    eatAny sp front (ws.map word ++ p) t = eatAny sp front p t := by
  induction ws with
  | nil => rfl
  | cons w ws ih =>
    rw [List.map_cons, List.cons_append, eatAny, List.findSome?_cons, eat_word_nil, if_neg (h w List.mem_cons_self)]
    exact ih fun g hg => h g (List.mem_cons_of_mem w hg)

/-- A search has a match if and only if an alternative matches at some position. -/
theorem search_isSome_iff (p : List (List Atom)) (front : Bool) (t : Text) :
    (search sp p front t).isSome ↔ ∃ u v, t = u ++ v ∧ ∃ alt ∈ p, (eat sp (front && u.isEmpty) alt v).isSome := by
  induction t generalizing front with
  | nil =>
    constructor
    · intro h
      rw [search, Option.isSome_map, eatAny, List.findSome?_isSome_iff] at h
      obtain ⟨alt, halt, h⟩ := h
      exact ⟨[], [], rfl, alt, halt, by simpa using h⟩
    · rintro ⟨u, v, huv, alt, halt, h⟩
      obtain ⟨rfl, rfl⟩ := List.append_eq_nil_iff.mp huv.symm
      rw [search, Option.isSome_map, eatAny, List.findSome?_isSome_iff]
      exact ⟨alt, halt, by simpa using h⟩
  | cons c t ih =>
    rw [search]
    cases hany : eatAny sp front p (c :: t) with
    | some v =>
      obtain ⟨alt, halt, h⟩ := List.exists_of_findSome?_eq_some hany
      refine ⟨fun _ => ⟨[], c :: t, rfl, alt, halt, ?_⟩, fun _ => rfl⟩
      simp [h]
    | none =>
      have hnone := List.findSome?_eq_none_iff.mp hany
      simp only [Option.isSome_map]
      rw [ih false]
      constructor
      · rintro ⟨u, v, rfl, alt, halt, h⟩
        exact ⟨c :: u, v, rfl, alt, halt, by simpa using h⟩
      · rintro ⟨u, v, huv, alt, halt, h⟩
        cases u with
        | nil =>
          obtain rfl : c :: t = v := huv
          rw [List.isEmpty_nil, Bool.and_true, hnone alt halt] at h
          cases h
        | cons d u =>
          obtain ⟨rfl, rfl⟩ := List.cons_eq_cons.mp huv
          exact ⟨u, v, rfl, alt, halt, by simpa using h⟩

/-- A match at the front is the first one. -/
theorem subst_of_front {p t v : Text} (h : eatAny sp true (parse p) t = some v) (r : Text) : subst sp p r t = r ++ v := by
  unfold subst
  cases t with
  | nil =>
    rw [search, h]
    rfl
  | cons c t =>
    rw [search, h]
    rfl

/-- Without one, the first character stays. -/
theorem head_subst {p : Text} {c : Char} {t : Text} (h : eatAny sp true (parse p) (c :: t) = none) (r : Text) :
    ∃ u, subst sp p r (c :: t) = c :: u := by
  unfold subst
  rw [search, h]
  cases search sp (parse p) false t with
  | none => exact ⟨t, rfl⟩
  | some m => exact ⟨m.1 ++ r ++ m.2, rfl⟩

end ZfsTest.Regex
