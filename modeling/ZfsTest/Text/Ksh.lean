import ZfsTest.Text.Glob

/-!
# Patterns of the Korn shell

Besides what a pattern of the shell is made of there are lists of patterns: `?(..)`, `*(..)`, `+(..)`, `@(..)` and `!(..)`, with a bar
between two patterns of a list. A pattern is read into tokens from the left and put together from the right. A list that is not closed
stands for itself.

`matchesText` tells whether a text matches. Of a pattern without lists it says what `glob` says (`matchesText_of_not`), and a front of
characters that begin no pattern stands for itself (`matchesText_front`).
-/

namespace ZfsTest.Ksh

open Glob (Piece Mode)

/-! ## Reading a pattern -/

/-- What is asked of a list of patterns. -/
inductive Op
  | optional
  | many
  | plus
  | one
  | no
  deriving DecidableEq, Repr

def Op.ofChar (c : Char) : Option Op :=
  if c = '?' then some .optional
  else if c = '*' then some .many
  else if c = '+' then some .plus
  else if c = '@' then some .one
  else if c = '!' then some .no
  else none

/-- The character in front of the parenthesis, where it does not begin a list. -/
def Op.piece : Op → Piece
  | .optional => .any
  | .many => .star
  | .plus => .char '+'
  | .one => .char '@'
  | .no => .char '!'

inductive Token
  | piece (p : Piece)
  | opened (op : Op)
  | bar
  | closed
  deriving DecidableEq, Repr

/-- The character begins a list. -/
def listOp (c : Char) (t : Text) : Option Op := if t.head? = some '(' && t.contains ')' then Op.ofChar c else none

/-- The tokens of a text inside `depth` lists, or right in front of the parenthesis of a list (no mode). -/
def tokensFrom : Nat → Option Mode → Text → List Token
  | _, none, [] => []
  | depth, none, _ :: t => tokensFrom depth (some .out) t
  | _, some .out, [] => []
  | depth, some .out, c :: t =>
    match listOp c t with
    | some op => .opened op :: tokensFrom (depth + 1) none t
    | none =>
      if c = '\\' then tokensFrom depth (some .esc) t
      else if c = '*' then .piece .star :: tokensFrom depth (some .out) t
      else if c = '?' then .piece .any :: tokensFrom depth (some .out) t
      else if c = '[' && Glob.closes t then tokensFrom depth (some (.set false [])) t
      else if 0 < depth && c = '|' then .bar :: tokensFrom depth (some .out) t
      else if 0 < depth && c = ')' then .closed :: tokensFrom (depth - 1) (some .out) t
      else .piece (.char c) :: tokensFrom depth (some .out) t
  | _, some .esc, [] => [.piece (.char '\\')]
  | depth, some .esc, c :: t => .piece (.char c) :: tokensFrom depth (some .out) t
  | _, some (.set _ _), [] => []
  | depth, some (.set neg rs), c :: t =>
    if c = '!' && !neg && rs.isEmpty then tokensFrom depth (some (.set true [])) t
    else if c = ']' && !rs.isEmpty then .piece (.set neg rs) :: tokensFrom depth (some .out) t
    else if c = '-' && !rs.isEmpty && t.head? ≠ some ']' then tokensFrom depth (some (.dash neg rs)) t
    else tokensFrom depth (some (.set neg ((c, c) :: rs))) t
  | _, some (.dash _ _), [] => []
  | depth, some (.dash neg []), c :: t => tokensFrom depth (some (.set neg [(c, c)])) t
  | depth, some (.dash neg (r :: rs)), c :: t => tokensFrom depth (some (.set neg ((r.1, c) :: rs))) t

/-- A pattern: its first piece or list, and what is behind it; or one of two patterns of a list. -/
inductive Pat
  | nil
  | piece (p : Piece) (rest : Pat)
  | list (op : Op) (pats rest : Pat)
  | alt (p q : Pat)

/-- A list that is open: the pattern that has been read, and those behind it in the list. -/
structure Frame where
  cur : Pat
  others : Option Pat

def Frame.pat (f : Frame) : Pat :=
  match f.others with
  | none => f.cur
  | some q => .alt f.cur q

def Frame.push (p : Piece) (f : Frame) : Frame := { f with cur := .piece p f.cur }

/-- The list that is read, and the lists around it. -/
def build : List Token → Frame × List Frame
  | [] => (⟨.nil, none⟩, [])
  | tok :: toks =>
    let (f, outer) := build toks
    match tok, outer with
    | .piece p, outer => (f.push p, outer)
    | .closed, outer => (⟨.nil, none⟩, f :: outer)
    | .bar, [] => (f.push (.char '|'), [])
    | .bar, outer => (⟨.nil, some f.pat⟩, outer)
    | .opened op, [] => ((f.push (.char '(')).push op.piece, [])
    | .opened op, g :: outer => ({ g with cur := .list op f.pat g.cur }, outer)

/-! ## Matching -/

/-- A text of pieces that match. -/
def repeats (m : Text → Bool) : Nat → Text → Bool
  | _, [] => true
  | 0, _ => false
  | n + 1, s => (List.range s.length).any fun i => m (s.take (i + 1)) && repeats m n (s.drop (i + 1))

/-- What a list asks of a text, where `m` tells whether one of its patterns matches. -/
def Op.holds (m : Text → Bool) (s : Text) : Op → Bool
  | .optional => s.isEmpty || m s
  | .many => repeats m s.length s
  | .plus => m s || (s ≠ [] && repeats m s.length s)
  | .one => m s
  | .no => !m s

def Pat.accepts : Pat → Text → Bool
  | .nil, s => s.isEmpty
  | .piece .star rest, s => s.tails.any rest.accepts
  | .piece p rest, s =>
    match s with
    | [] => false
    | d :: s => p.accepts d && rest.accepts s
  | .list op pats rest, s => (List.range (s.length + 1)).any fun i => op.holds pats.accepts (s.take i) && rest.accepts (s.drop i)
  | .alt p q, s => p.accepts s || q.accepts s

/-- `[[ s == p ]]` in the Korn shell. -/
def matchesText (p s : Text) : Bool := (build (tokensFrom 0 (some .out) p)).1.cur.accepts s

/-- `${s#p}` in the Korn shell. -/
def cutFront (p s : Text) : Text :=
  match (List.range (s.length + 1)).find? fun i => matchesText p (s.take i) with
  | some i => s.drop i
  | none => s

/-- `${s##p}` in the Korn shell. -/
def cutFrontMax (p s : Text) : Text :=
  match (List.range (s.length + 1)).reverse.find? fun i => matchesText p (s.take i) with
  | some i => s.drop i
  | none => s

/-- A list begins somewhere in the text. -/
def hasList : Text → Bool
  | [] => false
  | c :: t => (listOp c t).isSome || hasList t

def matchesName (p name : Text) : Bool := (name.head? ≠ some '.' || p.head? = some '.') && matchesText p name

/-- What a word becomes where the names in the working directory, in order, are `files`. A pattern that matches nothing stays. -/
def pathnames (files : List Text) (w : Text) : List Text :=
  if w.any Glob.isMeta || hasList w then
    match files.filter (matchesName w) with
    | [] => [w]
    | names => names
  else [w]

/-! ## Characters that begin no pattern -/

def isPlain (c : Char) : Bool := (Op.ofChar c).isNone && c ≠ '\\' && c ≠ '['

theorem matchesText_nil (s : Text) : matchesText [] s = true ↔ s = [] := List.isEmpty_iff

theorem matchesText_cons {c : Char} (hc : isPlain c = true) (p s : Text) :
    matchesText (c :: p) s = true ↔ ∃ r, s = c :: r ∧ matchesText p r = true := by
  simp only [isPlain, Bool.and_eq_true, Option.isNone_iff_eq_none, ne_eq, decide_not, Bool.not_eq_true', decide_eq_false_iff_not] at hc
  obtain ⟨⟨hop, hback⟩, hset⟩ := hc
  have hlist : listOp c p = none := by
    rw [listOp, hop, ite_self]
  have hstar : c ≠ '*' := by
    rintro rfl
    cases hop
  have hany : c ≠ '?' := by
    rintro rfl
    cases hop
  have htokens : tokensFrom 0 (some .out) (c :: p) = .piece (.char c) :: tokensFrom 0 (some .out) p := by
    rw [tokensFrom, hlist]
    simp [hback, hset, hstar, hany]
  rw [matchesText, htokens, build]
  cases s with
  | nil => simp [Frame.push, Pat.accepts]
  | cons d s =>
    simp only [Frame.push, Pat.accepts, Glob.Piece.accepts, Bool.and_eq_true, decide_eq_true_eq, List.cons.injEq]
    constructor
    · rintro ⟨rfl, h⟩
      exact ⟨s, ⟨rfl, rfl⟩, h⟩
    · rintro ⟨r, ⟨rfl, rfl⟩, h⟩
      exact ⟨rfl, h⟩

/-- A front of such characters. -/
theorem matchesText_front {t : Text} (ht : t.all isPlain = true) (p s : Text) :
    matchesText (t ++ p) s = true ↔ ∃ r, s = t ++ r ∧ matchesText p r = true := by
  induction t generalizing s with
  | nil => simp
  | cons c t ih =>
    rw [List.all_cons, Bool.and_eq_true] at ht
    rw [List.cons_append, matchesText_cons ht.1]
    constructor
    · rintro ⟨r, rfl, h⟩
      obtain ⟨r', rfl, h'⟩ := (ih ht.2 r).mp h
      exact ⟨r', rfl, h'⟩
    · rintro ⟨r, rfl, h⟩
      exact ⟨t ++ r, rfl, (ih ht.2 _).mpr ⟨r, rfl, h⟩⟩

theorem matchesText_self {t : Text} (ht : t.all isPlain = true) (s : Text) : matchesText t s = true ↔ s = t := by
  have h := matchesText_front ht [] s
  rw [List.append_nil] at h
  simp [h, matchesText_nil]

/-! ## Patterns without lists -/

theorem hasList_cons {c : Char} {t : Text} : hasList (c :: t) = false ↔ listOp c t = none ∧ hasList t = false := by
  rw [hasList, Bool.or_eq_false_iff, Option.isSome_eq_false_iff, Option.isNone_iff_eq_none]

theorem hasList_of_notMem {t : Text} (ht : '(' ∉ t) : hasList t = false := by
  induction t with
  | nil => rfl
  | cons c t ih =>
    have hhead : t.head? ≠ some '(' := fun h => ht (List.mem_cons_of_mem c (List.mem_of_head? h))
    exact hasList_cons.mpr ⟨by simp [listOp, hhead], ih fun h => ht (List.mem_cons_of_mem c h)⟩

theorem tokensFrom_of_not {mode : Mode} {p : Text} (hp : hasList p = false) :
    tokensFrom 0 (some mode) p = (Glob.piecesFrom mode p).map .piece := by
  fun_induction Glob.piecesFrom mode p with
  | case1 => rfl
  | case2 t ih =>
    obtain ⟨hop, hp⟩ := hasList_cons.mp hp
    simp [tokensFrom, hop, ih hp]
  | case3 t h ih =>
    obtain ⟨hop, hp⟩ := hasList_cons.mp hp
    simp [tokensFrom, hop, ih hp]
  | case4 t h h' ih =>
    obtain ⟨hop, hp⟩ := hasList_cons.mp hp
    simp [tokensFrom, hop, ih hp]
  | case5 c t hback hstar hany hset ih =>
    obtain ⟨hop, hp⟩ := hasList_cons.mp hp
    rw [tokensFrom, hop, ← ih hp]
    simp only [hback, hstar, hany, hset, if_true, if_false]
  | case6 c t hback hstar hany hset ih =>
    obtain ⟨hop, hp⟩ := hasList_cons.mp hp
    rw [tokensFrom, hop, List.map_cons, ← ih hp]
    simp [hback, hstar, hany, hset]
  | case7 => rfl
  | case8 c t ih => rw [tokensFrom, ih (hasList_cons.mp hp).2, List.map_cons]
  | case9 => rfl
  | case10 neg rs c t hneg ih => rw [tokensFrom, if_pos hneg, ih (hasList_cons.mp hp).2]
  | case11 neg rs c t hneg hend ih => rw [tokensFrom, if_neg hneg, if_pos hend, ih (hasList_cons.mp hp).2, List.map_cons]
  | case12 neg rs c t hneg hend hdash ih => rw [tokensFrom, if_neg hneg, if_neg hend, if_pos hdash, ih (hasList_cons.mp hp).2]
  | case13 neg rs c t hneg hend hdash ih => rw [tokensFrom, if_neg hneg, if_neg hend, if_neg hdash, ih (hasList_cons.mp hp).2]
  | case14 => rfl
  | case15 neg c t ih => rw [tokensFrom, ih (hasList_cons.mp hp).2]
  | case16 neg r rs c t ih => rw [tokensFrom, ih (hasList_cons.mp hp).2]

theorem build_pieces (ps : List Piece) : build (ps.map .piece) = (⟨ps.foldr .piece .nil, none⟩, []) := by
  induction ps with
  | nil => rfl
  | cons p ps ih =>
    rw [List.map_cons, build, ih]
    rfl

theorem accepts_pieces (ps : List Piece) (s : Text) : (ps.foldr Pat.piece .nil).accepts s = Glob.matchPieces ps s := by
  induction ps generalizing s with
  | nil => rfl
  | cons p ps ih =>
    have hrest : (ps.foldr Pat.piece .nil).accepts = Glob.matchPieces ps := funext ih
    cases p with
    | star => simp only [List.foldr_cons, Pat.accepts, Glob.matchPieces, hrest]
    | _ => cases s <;> simp only [List.foldr_cons, Pat.accepts, Glob.matchPieces, hrest]

theorem matchesText_of_not {p : Text} (hp : hasList p = false) (s : Text) : matchesText p s = glob p s := by
  rw [matchesText, tokensFrom_of_not hp, build_pieces, accepts_pieces]
  rfl

theorem cutFront_of_not {p : Text} (hp : hasList p = false) (s : Text) : cutFront p s = Glob.cutFront p s := by
  have hmatch : matchesText p = glob p := funext (matchesText_of_not hp)
  exact congrArg (fun m : Text → Bool => match (List.range (s.length + 1)).find? fun i => m (s.take i) with
    | some i => s.drop i
    | none => s) hmatch

theorem cutFrontMax_of_not {p : Text} (hp : hasList p = false) (s : Text) : cutFrontMax p s = Glob.cutFrontMax p s := by
  have hmatch : matchesText p = glob p := funext (matchesText_of_not hp)
  exact congrArg (fun m : Text → Bool => match (List.range (s.length + 1)).reverse.find? fun i => m (s.take i) with
    | some i => s.drop i
    | none => s) hmatch

theorem pathnames_of_not {w : Text} (hw : hasList w = false) (files : List Text) : pathnames files w = Glob.pathnames files w := by
  have hmatch : matchesName w = Glob.matchesName w := funext fun name => by rw [matchesName, Glob.matchesName, matchesText_of_not hw]
  cases hnames : files.filter (Glob.matchesName w) with
  | nil => simp [pathnames, Glob.pathnames, hw, hmatch, hnames]
  | cons name names => simp [pathnames, Glob.pathnames, hw, hmatch, hnames]

theorem cutFrontMax_suffix (p s : Text) : cutFrontMax p s <:+ s := by
  unfold cutFrontMax
  split
  · exact List.drop_suffix _ s
  · exact List.suffix_rfl

example : matchesText "@(c0|d)*([0-9])".toList "c012".toList = true := by decide

end ZfsTest.Ksh
