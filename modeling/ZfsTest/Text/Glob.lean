import Mathlib.Data.List.Infix
import ZfsTest.Text.Basic
import ZfsTest.Text.Last

/-!
# Patterns of the shell

A pattern is made of `*`, `?`, bracket expressions and characters that stand for themselves, also behind a backslash. `glob` tells
whether a text matches; the lemma about it is that of a literal front (`glob_literal`). Further the two operations built on it:
`cutFront` for `${x#pattern}`, and `pathnames` for the expansion of a word against the names in a directory.
-/

namespace ZfsTest.Glob

/-! ## Reading a pattern -/

inductive Piece
  | char (c : Char)
  | any
  | star
  | set (neg : Bool) (ranges : List (Char × Char))
  deriving DecidableEq, Repr

/-- Outside brackets, right behind a backslash, inside brackets with the ranges read so far (backwards), and right behind the `-` of a
range. -/
inductive Mode
  | out
  | esc
  | set (neg : Bool) (ranges : List (Char × Char))
  | dash (neg : Bool) (ranges : List (Char × Char))

/-- Whether the bracket in front of the text is closed. A `]` right behind it belongs to the set. -/
def closes (t : Text) : Bool := ((if t.head? = some '!' then t.drop 1 else t).drop 1).contains ']'

def piecesFrom : Mode → Text → List Piece
  | .out, [] => []
  | .out, c :: t =>
    if c = '\\' then piecesFrom .esc t
    else if c = '*' then .star :: piecesFrom .out t
    else if c = '?' then .any :: piecesFrom .out t
    else if c = '[' && closes t then piecesFrom (.set false []) t
    else .char c :: piecesFrom .out t
  | .esc, [] => [.char '\\']
  | .esc, c :: t => .char c :: piecesFrom .out t
  | .set _ _, [] => []
  | .set neg rs, c :: t =>
    if c = '!' && !neg && rs.isEmpty then piecesFrom (.set true []) t
    else if c = ']' && !rs.isEmpty then .set neg rs :: piecesFrom .out t
    else if c = '-' && !rs.isEmpty && t.head? ≠ some ']' then piecesFrom (.dash neg rs) t
    else piecesFrom (.set neg ((c, c) :: rs)) t
  | .dash _ _, [] => []
  | .dash neg [], c :: t => piecesFrom (.set neg [(c, c)]) t
  | .dash neg (r :: rs), c :: t => piecesFrom (.set neg ((r.1, c) :: rs)) t

def pieces (p : Text) : List Piece := piecesFrom .out p

/-! ## Matching -/

def Piece.accepts : Piece → Char → Bool
  | .char c, d => c = d
  | .any, _ | .star, _ => true
  | .set neg rs, d => neg != rs.any fun r => decide (r.1 ≤ d ∧ d ≤ r.2)

def matchPieces : List Piece → Text → Bool
  | [], s => s.isEmpty
  | .star :: ps, s => s.tails.any (matchPieces ps)
  | p :: ps, s =>
    match s with
    | [] => false
    | d :: s => p.accepts d && matchPieces ps s

end Glob

/-- `[[ s == p ]]`. -/
def glob (p s : Text) : Bool := Glob.matchPieces (Glob.pieces p) s

namespace Glob

/-- A character that makes a word a pattern. -/
def isMeta (c : Char) : Bool := c = '*' || c = '?' || c = '['

/-- A text that as a pattern stands for itself. -/
def Literal (t : Text) : Prop := ∀ c ∈ t, isMeta c = false ∧ c ≠ '\\'

/-- `${s#p}`: without the shortest front that matches. -/
def cutFront (p s : Text) : Text :=
  match (List.range (s.length + 1)).find? fun i => glob p (s.take i) with
  | some i => s.drop i
  | none => s

/-- `${s##p}`: without the longest front that matches. -/
def cutFrontMax (p s : Text) : Text :=
  match (List.range (s.length + 1)).reverse.find? fun i => glob p (s.take i) with
  | some i => s.drop i
  | none => s

/-- A name that begins with a dot is only matched by a pattern that does. -/
def matchesName (p name : Text) : Bool := (name.head? ≠ some '.' || p.head? = some '.') && glob p name

/-- What a word becomes where the names in the working directory, in order, are `files`. A pattern that matches nothing stays. -/
def pathnames (files : List Text) (w : Text) : List Text :=
  if w.any isMeta then
    match files.filter (matchesName w) with
    | [] => [w]
    | names => names
  else [w]

/-! ## Literal texts -/

theorem Literal.of_all {t : Text} (h : t.all fun c => !isMeta c && c ≠ '\\') : Literal t := fun c hc => by
  simpa using List.all_eq_true.mp h c hc

theorem pieces_cons {c : Char} (hc : isMeta c = false ∧ c ≠ '\\') (t : Text) : pieces (c :: t) = .char c :: pieces t := by
  obtain ⟨hm, hb⟩ := hc
  simp only [isMeta, Bool.or_eq_false_iff, decide_eq_false_iff_not] at hm
  obtain ⟨⟨hstar, hany⟩, hset⟩ := hm
  simp [pieces, piecesFrom, hb, hstar, hany, hset]

theorem pieces_literal {t : Text} (ht : Literal t) (p : Text) : pieces (t ++ p) = t.map .char ++ pieces p := by
  induction t with
  | nil => rfl
  | cons c t ih =>
    rw [List.cons_append, pieces_cons (ht c List.mem_cons_self), ih fun d hd => ht d (List.mem_cons_of_mem _ hd)]
    rfl

theorem matchPieces_chars (t : Text) (ps : List Piece) (s : Text) :
    matchPieces (t.map .char ++ ps) s = true ↔ ∃ r, s = t ++ r ∧ matchPieces ps r = true := by
  induction t generalizing s with
  | nil => simp
  | cons c t ih =>
    cases s with
    | nil => simp [matchPieces]
    | cons d s =>
      simp only [List.map_cons, List.cons_append, matchPieces, Piece.accepts, Bool.and_eq_true, decide_eq_true_eq, ih,
        List.cons.injEq]
      constructor
      · rintro ⟨rfl, r, rfl, hr⟩
        exact ⟨r, ⟨rfl, rfl⟩, hr⟩
      · rintro ⟨r, ⟨rfl, rfl⟩, hr⟩
        exact ⟨rfl, r, rfl, hr⟩

/-- A pattern with a literal front. -/
theorem glob_literal {t : Text} (ht : Literal t) (p s : Text) : glob (t ++ p) s = true ↔ ∃ r, s = t ++ r ∧ glob p r = true := by
  rw [glob, pieces_literal ht, matchPieces_chars]
  rfl

theorem glob_nil (s : Text) : glob [] s = true ↔ s = [] := List.isEmpty_iff

theorem glob_star (s : Text) : glob ['*'] s = true := by
  have hlast : [] ∈ s.tails := (List.mem_tails _ _).mpr List.nil_suffix
  exact List.any_eq_true.mpr ⟨[], hlast, rfl⟩

/-- A literal text followed by `*`. -/
theorem glob_front {t : Text} (ht : Literal t) (s : Text) : glob (t ++ ['*']) s = true ↔ t <+: s := by
  rw [glob_literal ht]
  constructor
  · rintro ⟨r, rfl, -⟩
    exact List.prefix_append t r
  · rintro ⟨r, rfl⟩
    exact ⟨r, rfl, glob_star r⟩

theorem glob_self {t : Text} (ht : Literal t) (s : Text) : glob t s = true ↔ s = t := by
  have h := glob_literal ht [] s
  rw [List.append_nil] at h
  rw [h]
  constructor
  · rintro ⟨r, rfl, hr⟩
    rw [(glob_nil r).mp hr, List.append_nil]
  · rintro rfl
    exact ⟨[], (List.append_nil s).symm, rfl⟩

/-- `${s#t}` where `s` begins with `t`. -/
theorem cutFront_literal {t : Text} (ht : Literal t) (s : Text) : cutFront t (t ++ s) = s := by
  have hfind : (List.range ((t ++ s).length + 1)).find? (fun i => glob t ((t ++ s).take i)) = some t.length := by
    rw [List.find?_range_eq_some]
    refine ⟨?_, ?_, fun j hj => ?_⟩
    · rw [List.take_left]
      exact (glob_self ht t).mpr rfl
    · rw [List.mem_range, List.length_append]
      omega
    · rw [Bool.not_eq_true', ← Bool.not_eq_true, glob_self ht]
      intro h
      have hlen := congrArg List.length h
      rw [List.length_take, List.length_append] at hlen
      omega
  unfold cutFront
  rw [hfind]
  exact List.drop_left

theorem cutFront_of_not {t : Text} (ht : Literal t) {s : Text} (hs : ¬t <+: s) : cutFront t s = s := by
  have hfind : (List.range (s.length + 1)).find? (fun i => glob t (s.take i)) = none := by
    rw [List.find?_eq_none]
    intro i _ h
    rw [glob_self ht] at h
    exact hs (h ▸ List.take_prefix i s)
  unfold cutFront
  rw [hfind]

/-- `${s##t}` where `s` begins with `t`. -/
theorem cutFrontMax_literal {t : Text} (ht : Literal t) (s : Text) : cutFrontMax t (t ++ s) = s := by
  have hone : ∀ i, glob t ((t ++ s).take i) = true → i ≤ (t ++ s).length → i = t.length := by
    intro i h hi
    have hlen := congrArg List.length ((glob_self ht _).mp h)
    rw [List.length_take] at hlen
    omega
  unfold cutFrontMax
  split
  · rename_i i hi
    have hglob := List.find?_some (p := fun i => glob t ((t ++ s).take i)) hi
    have hmem := List.mem_range.mp (List.mem_reverse.mp (List.mem_of_find?_eq_some hi))
    rw [hone i hglob (Nat.le_of_lt_succ hmem)]
    exact List.drop_left
  · rename_i hnone
    have hmem : t.length ∈ (List.range ((t ++ s).length + 1)).reverse := by
      rw [List.mem_reverse, List.mem_range, List.length_append]
      omega
    refine absurd ((glob_self ht _).mpr ?_) (List.find?_eq_none.mp hnone t.length hmem)
    exact List.take_left

/-- `*` followed by a literal text. -/
theorem glob_back {t : Text} (ht : Literal t) (s : Text) : glob ('*' :: t) s = true ↔ t <:+ s := by
  have hself : ∀ r, matchPieces (pieces t) r = true ↔ r = t := fun r => glob_self ht r
  show s.tails.any (matchPieces (pieces t)) = true ↔ t <:+ s
  rw [List.any_eq_true]
  constructor
  · rintro ⟨r, hr, hmatch⟩
    rw [← (hself r).mp hmatch]
    exact (List.mem_tails r s).mp hr
  · intro h
    exact ⟨t, (List.mem_tails t s).mpr h, (hself t).mpr rfl⟩

theorem find?_range_reverse {p : Nat → Bool} {m i : Nat} (hi : i < m) (hp : p i = true) (hmax : ∀ j < m, p j = true → j ≤ i) :
    (List.range m).reverse.find? p = some i := by
  induction m with
  | zero => omega
  | succ m ih =>
    rw [List.range_succ, List.reverse_append, List.reverse_singleton, List.singleton_append]
    by_cases him : i = m
    · subst him
      rw [List.find?_cons_of_pos hp]
    · have hm : ¬p m = true := fun h => by
        have := hmax m (Nat.lt_succ_self m) h
        omega
      rw [List.find?_cons_of_neg hm]
      exact ih (by omega) fun j hj h => hmax j (by omega) h

/-- `${s##*t}` goes up to the last `t`. -/
theorem cutFrontMax_back {t s v : Text} (ht : Literal t) (h : LastIn t s v) : cutFrontMax ('*' :: t) s = v := by
  obtain ⟨u, rfl⟩ := h.occurs
  have hfind : (List.range ((u ++ t ++ v).length + 1)).reverse.find? (fun i => glob ('*' :: t) ((u ++ t ++ v).take i)) =
      some (u ++ t).length := by
    refine find?_range_reverse (Nat.lt_succ_of_le (List.prefix_append (u ++ t) v).length_le) ?_ fun j hj hglob => ?_
    · rw [List.take_left]
      exact (glob_back ht _).mpr (List.suffix_append u t)
    · obtain ⟨x, hx⟩ := (glob_back ht _).mp hglob
      have hle := h.shortest x ((u ++ t ++ v).drop j) (by rw [hx, List.take_append_drop])
      rw [List.length_drop, List.length_append] at hle
      rw [List.length_append] at hj
      omega
  unfold cutFrontMax
  rw [hfind]
  exact List.drop_left

theorem cutFrontMax_of_not {t : Text} (ht : Literal t) {s : Text} (hs : ¬t <+: s) : cutFrontMax t s = s := by
  unfold cutFrontMax
  split
  · rename_i i hi
    have hglob := List.find?_some (p := fun i => glob t (s.take i)) hi
    exact absurd ((glob_self ht _).mp hglob ▸ List.take_prefix i s) hs
  · rfl

theorem pathnames_ne_nil (files : List Text) (w : Text) : pathnames files w ≠ [] := by
  unfold pathnames
  split
  · split
    · exact List.cons_ne_nil w []
    · assumption
  · exact List.cons_ne_nil w []

/-- What a word becomes: itself, or a name that it matches. -/
theorem mem_pathnames {files : List Text} {w x : Text} (hx : x ∈ pathnames files w) : x = w ∨ x ∈ files ∧ glob w x = true := by
  unfold pathnames at hx
  split at hx
  · split at hx
    · exact .inl (List.mem_singleton.mp hx)
    · rename_i hnames
      obtain ⟨hfile, hmatch⟩ := List.mem_filter.mp hx
      rw [matchesName, Bool.and_eq_true] at hmatch
      exact .inr ⟨hfile, hmatch.2⟩
  · exact .inl (List.mem_singleton.mp hx)

/-- A literal front is kept. -/
theorem front_of_mem_pathnames {t : Text} (ht : Literal t) {files : List Text} {r x : Text} (hx : x ∈ pathnames files (t ++ r)) :
    t <+: x := by
  rcases mem_pathnames hx with rfl | ⟨-, hglob⟩
  · exact List.prefix_append t r
  · obtain ⟨r', rfl, -⟩ := (glob_literal ht r x).mp hglob
    exact List.prefix_append t r'

theorem pathnames_literal {t : Text} (ht : Literal t) (files : List Text) : pathnames files t = [t] := by
  have hany : t.any isMeta = false := by
    rw [List.any_eq_false]
    intro c hc
    rw [(ht c hc).1]
    exact Bool.false_ne_true
  rw [pathnames, hany]
  rfl

/-! ## Texts without brackets -/

/-- As a pattern, only `*` and `?` in the text are no ordinary characters. -/
def Wild (t : Text) : Prop := ∀ c ∈ t, c ≠ '[' ∧ c ≠ '\\'

theorem Wild.of_all {t : Text} (h : t.all fun c => c ≠ '[' && c ≠ '\\') : Wild t := fun c hc => by
  simpa using List.all_eq_true.mp h c hc

def Piece.ofChar (c : Char) : Piece := if c = '*' then .star else if c = '?' then .any else .char c

theorem pieces_wild {t : Text} (ht : Wild t) : pieces t = t.map Piece.ofChar := by
  induction t with
  | nil => rfl
  | cons c t ih =>
    obtain ⟨⟨hset, hback⟩, ht⟩ := List.forall_mem_cons.mp ht
    rw [List.map_cons, ← ih ht, pieces, piecesFrom, Piece.ofChar, pieces]
    split_ifs <;> simp_all

/-- Such a text matches itself. -/
theorem glob_wild {t : Text} (ht : Wild t) : glob t t = true := by
  rw [glob, pieces_wild ht]
  clear ht
  induction t with
  | nil => rfl
  | cons c t ih =>
    rw [List.map_cons, Piece.ofChar]
    split_ifs with hstar hany
    · exact List.any_eq_true.mpr ⟨t, (List.mem_tails _ _).mpr (List.suffix_cons c t), ih⟩
    · exact ih
    · simpa [matchPieces, Piece.accepts] using ih

/-- A text that matches has each ordinary character of the pattern. -/
theorem count_le_of_glob {p s : Text} (hp : Wild p) {c : Char} (hc : isMeta c = false) (h : glob p s = true) : p.count c ≤ s.count c := by
  rw [glob, pieces_wild hp] at h
  clear hp
  have hmeta : c ≠ '*' ∧ c ≠ '?' := by
    constructor
    · rintro rfl
      cases hc
    · rintro rfl
      cases hc
  induction p generalizing s with
  | nil => exact Nat.zero_le _
  | cons d p ih =>
    rw [List.map_cons, Piece.ofChar] at h
    split_ifs at h with hstar hany
    · obtain ⟨t, ht, hmatch⟩ := List.any_eq_true.mp h
      rw [List.count_cons_of_ne (by rw [hstar]; exact hmeta.1.symm)]
      exact (ih hmatch).trans (((List.mem_tails _ _).mp ht).sublist.count_le c)
    · cases s with
      | nil => cases h
      | cons e s =>
        rw [List.count_cons_of_ne (by rw [hany]; exact hmeta.2.symm)]
        exact (ih h).trans ((List.sublist_cons_self e s).count_le c)
    · cases s with
      | nil => cases h
      | cons e s =>
        simp only [matchPieces, Piece.accepts, Bool.and_eq_true, decide_eq_true_eq] at h
        rw [h.1, List.count_cons, List.count_cons]
        exact Nat.add_le_add_right (ih h.2) _

/-- `${s#p}` where `s` begins with `p`, and `p` ends with an ordinary character that comes no sooner. -/
theorem cutFront_wild {p r : Text} {c : Char} (hp : Wild (p ++ [c])) (hc : isMeta c = false) : cutFront (p ++ [c]) (p ++ c :: r) = r := by
  have hfind : (List.range ((p ++ c :: r).length + 1)).find? (fun i => glob (p ++ [c]) ((p ++ c :: r).take i)) = some (p.length + 1) := by
    rw [List.find?_range_eq_some]
    refine ⟨?_, ?_, fun j hj => ?_⟩
    · rw [List.take_append, List.take_of_length_le (Nat.le_succ _), Nat.add_sub_cancel_left]
      exact glob_wild hp
    · rw [List.mem_range, List.length_append, List.length_cons]
      omega
    · rw [Bool.not_eq_true', ← Bool.not_eq_true]
      intro hmatch
      have hcount := count_le_of_glob hp hc hmatch
      have htake : (p ++ c :: r).take j = p.take j := List.take_append_of_le_length (Nat.le_of_lt_succ hj)
      rw [htake, List.count_append, List.count_singleton_self] at hcount
      have hle := (List.take_sublist j p).count_le c
      omega
  have hsplit : p ++ c :: r = (p ++ [c]) ++ r := by simp
  have hlen : p.length + 1 = (p ++ [c]).length := by simp
  unfold cutFront
  rw [hfind]
  show (p ++ c :: r).drop (p.length + 1) = r
  rw [hsplit, hlen, List.drop_left]

example : glob "t[1-3]?*".toList "t2ab".toList = true := by decide

end Glob

end ZfsTest
