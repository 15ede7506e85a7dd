import ZfsTest.Text.Basic

/-!
# Tcl lists

Every Tcl value is a text. `parse` reads a text as a list, as `lindex` and `lrange` do, and fails on an unmatched brace or quote;
`format` writes a list as a text, as it is done for the result of `lrange` and `lappend`, with the braces and backslashes that the
elements need. Releases of Tcl differ in whether a `#` at the front of a list is protected: `quoteHash`.

A list of plain words is written with single blanks and read back (`parse_word`, `parse_format`). Arrays are at the end.
-/

namespace ZfsTest.Tcl

/-! ## Backslashes -/

def isSpace (c : Char) : Bool := c = ' ' || c = '\t' || c = '\n' || c = '\r' || c = '\x0b' || c = '\x0c'

def isHex (c : Char) : Bool := c.isDigit || ('a' ≤ c && c ≤ 'f') || ('A' ≤ c && c ≤ 'F')

def isOctal (c : Char) : Bool := '0' ≤ c && c ≤ '7'

def hexValue (c : Char) : Nat :=
  if c.isDigit then c.toNat - 48 else if 'a' ≤ c then c.toNat - 87 else c.toNat - 55

/-- The number that digits stand for. -/
def digitsValue (base : Nat) (t : Text) : Nat := t.foldl (fun n c => base * n + hexValue c) 0

/-- The character for a backslash in front of `t`, and what is left of `t`. -/
def backslash : Text → Char × Text
  | [] => ('\\', [])
  | c :: t =>
    if c = 'a' then ('\x07', t)
    else if c = 'b' then ('\x08', t)
    else if c = 'f' then ('\x0c', t)
    else if c = 'n' then ('\n', t)
    else if c = 'r' then ('\r', t)
    else if c = 't' then ('\t', t)
    else if c = 'v' then ('\x0b', t)
    else if c = '\n' then (' ', t.dropWhile fun d => d = ' ' || d = '\t')
    else if c = 'x' then
      let ds := t.takeWhile isHex
      if ds = [] then ('x', t) else (Char.ofNat (digitsValue 16 ds % 256), t.drop ds.length)
    else if c = 'u' then
      let ds := (t.takeWhile isHex).take 4
      if ds = [] then ('u', t) else (Char.ofNat (digitsValue 16 ds), t.drop ds.length)
    else if isOctal c then
      let ds := ((c :: t).takeWhile isOctal).take 3
      (Char.ofNat (digitsValue 8 ds % 256), (c :: t).drop ds.length)
    else (c, t)

/-- Backslash substitution; `n` is at least the length of the text. -/
def collapseFrom : Nat → Text → Text
  | 0, _ => []
  | _ + 1, [] => []
  | n + 1, c :: t => if c = '\\' then (backslash t).1 :: collapseFrom n (backslash t).2 else c :: collapseFrom n t

def collapse (t : Text) : Text := collapseFrom t.length t

theorem collapseFrom_of_notMem {t : Text} (ht : '\\' ∉ t) {n : Nat} (hn : t.length ≤ n) : collapseFrom n t = t := by
  induction t generalizing n with
  | nil => cases n <;> rfl
  | cons c t ih =>
    obtain ⟨m, rfl⟩ : ∃ m, n = m + 1 := ⟨n - 1, by rw [List.length_cons] at hn; omega⟩
    have hc : c ≠ '\\' := fun h => ht (h ▸ List.mem_cons_self)
    rw [List.length_cons] at hn
    rw [collapseFrom, if_neg hc, ih (fun h => ht (List.mem_cons_of_mem _ h)) (by omega)]

/-! ## Reading -/

/-- Where the reader stands: between elements, in a bare element, in braces, in quotes, or right behind braces or quotes; `Esc` is
right behind a backslash, `blanks` behind a backslash and a newline. The text read so far is kept backwards. -/
inductive Mode
  | gap
  | bare (raw : Text)
  | bareEsc (raw : Text)
  | blanks (raw : Text)
  | brace (depth : Nat) (raw : Text)
  | braceEsc (depth : Nat) (raw : Text)
  | quote (raw : Text)
  | quoteEsc (raw : Text)
  | closed

def parseFrom : Mode → Text → Option (List Text)
  | .gap, [] => some []
  | .gap, c :: t =>
    if isSpace c then parseFrom .gap t
    else if c = '{' then parseFrom (.brace 0 []) t
    else if c = '"' then parseFrom (.quote []) t
    else if c = '\\' then parseFrom (.bareEsc [c]) t
    else parseFrom (.bare [c]) t
  | .bare raw, [] => some [collapse raw.reverse]
  | .bare raw, c :: t =>
    if isSpace c then (parseFrom .gap t).map fun es => collapse raw.reverse :: es
    else if c = '\\' then parseFrom (.bareEsc (c :: raw)) t
    else parseFrom (.bare (c :: raw)) t
  | .bareEsc raw, [] => some [collapse raw.reverse]
  | .bareEsc raw, c :: t => if c = '\n' then parseFrom (.blanks (c :: raw)) t else parseFrom (.bare (c :: raw)) t
  | .blanks raw, [] => some [collapse raw.reverse]
  | .blanks raw, c :: t =>
    if c = ' ' ∨ c = '\t' then parseFrom (.blanks (c :: raw)) t
    else if isSpace c then (parseFrom .gap t).map fun es => collapse raw.reverse :: es
    else if c = '\\' then parseFrom (.bareEsc (c :: raw)) t
    else parseFrom (.bare (c :: raw)) t
  | .brace _ _, [] => none
  | .brace depth raw, c :: t =>
    if c = '\\' then parseFrom (.braceEsc depth (c :: raw)) t
    else if c = '{' then parseFrom (.brace (depth + 1) (c :: raw)) t
    else if c = '}' then
      if depth = 0 then (parseFrom .closed t).map fun es => raw.reverse :: es
      else parseFrom (.brace (depth - 1) (c :: raw)) t
    else parseFrom (.brace depth (c :: raw)) t
  | .braceEsc _ _, [] => none
  | .braceEsc depth raw, c :: t => parseFrom (.brace depth (c :: raw)) t
  | .quote _, [] => none
  | .quote raw, c :: t =>
    if c = '\\' then parseFrom (.quoteEsc (c :: raw)) t
    else if c = '"' then (parseFrom .closed t).map fun es => collapse raw.reverse :: es
    else parseFrom (.quote (c :: raw)) t
  | .quoteEsc _, [] => none
  | .quoteEsc raw, c :: t => parseFrom (.quote (c :: raw)) t
  | .closed, [] => some []
  | .closed, c :: t => if isSpace c then parseFrom .gap t else none

theorem parseFrom_gap_cons (c : Char) (t : Text) : parseFrom .gap (c :: t) =
    if isSpace c then parseFrom .gap t
    else if c = '{' then parseFrom (.brace 0 []) t
    else if c = '"' then parseFrom (.quote []) t
    else if c = '\\' then parseFrom (.bareEsc [c]) t
    else parseFrom (.bare [c]) t := rfl

theorem parseFrom_bare_nil (raw : Text) : parseFrom (.bare raw) [] = some [collapse raw.reverse] := rfl

theorem parseFrom_bare_cons (raw : Text) (c : Char) (t : Text) : parseFrom (.bare raw) (c :: t) =
    if isSpace c then (parseFrom .gap t).map fun es => collapse raw.reverse :: es
    else if c = '\\' then parseFrom (.bareEsc (c :: raw)) t
    else parseFrom (.bare (c :: raw)) t := rfl

theorem parseFrom_bareEsc_cons (raw : Text) (c : Char) (t : Text) : parseFrom (.bareEsc raw) (c :: t) =
    if c = '\n' then parseFrom (.blanks (c :: raw)) t else parseFrom (.bare (c :: raw)) t := rfl

/-- A text as a list. -/
def parse (t : Text) : Option (List Text) := parseFrom .gap t

/-! ## Writing -/

/-- `USE_BRACES`, `TCL_DONT_USE_BRACES` and `BRACES_UNMATCHED`. -/
structure Flags where
  useBraces : Bool
  dontUseBraces : Bool
  unmatched : Bool

/-- `Tcl_ScanCountedElement`, behind the first character. -/
def scanFrom : Text → Int → Flags → Flags
  | [], nesting, f => if nesting ≠ 0 then ⟨false, true, true⟩ else f
  | c :: t, nesting, f =>
    if c = '{' then scanFrom t (nesting + 1) f
    else if c = '}' then
      scanFrom t (nesting - 1) (if nesting - 1 < 0 then { f with dontUseBraces := true, unmatched := true } else f)
    else if c = '[' ∨ c = '$' ∨ c = ';' ∨ isSpace c then scanFrom t nesting { f with useBraces := true }
    else if c = '\\' then
      match t with
      | [] => scanFrom [] nesting ⟨false, true, true⟩
      | d :: t => if d = '\n' then scanFrom (d :: t) nesting ⟨false, true, true⟩ else scanFrom t nesting { f with useBraces := true }
    else scanFrom t nesting f

def scanElement (e : Text) : Flags :=
  scanFrom e 0 ⟨e.isEmpty || e.head? = some '{' || e.head? = some '"', false, false⟩

/-- One character of an element that is written without braces. -/
def escape (unmatched : Bool) (c : Char) : Text :=
  if c = ']' ∨ c = '[' ∨ c = '$' ∨ c = ';' ∨ c = ' ' ∨ c = '\\' ∨ c = '"' then ['\\', c]
  else if c = '{' ∨ c = '}' then (if unmatched then ['\\', c] else [c])
  else if c = '\x0c' then ['\\', 'f']
  else if c = '\n' then ['\\', 'n']
  else if c = '\r' then ['\\', 'r']
  else if c = '\t' then ['\\', 't']
  else if c = '\x0b' then ['\\', 'v']
  else [c]

/-- `Tcl_ConvertCountedElement`; `hash` is whether a leading `#` is protected. -/
def convertElement (hash : Bool) (e : Text) : Text :=
  let f := scanElement e
  if e = [] then ['{', '}']
  else if (f.useBraces || (hash && e.head? = some '#')) && !f.dontUseBraces then '{' :: e ++ ['}']
  else if e.head? = some '{' then ['\\', '{'] ++ e.tail.flatMap (escape true)
  else if hash && e.head? = some '#' then ['\\', '#'] ++ e.tail.flatMap (escape f.unmatched)
  else e.flatMap (escape f.unmatched)

/-- A list as a text. -/
def format (quoteHash : Bool) : List Text → Text
  | [] => []
  | e :: es => joined (convertElement quoteHash e :: es.map (convertElement false))

/-! ## Plain words -/

def plainChar (c : Char) : Bool :=
  !isSpace c && !(c = '{' || c = '}' || c = '[' || c = ']' || c = '$' || c = ';' || c = '"' || c = '\\' || c = '#')

/-- A word that needs no braces and no backslashes. -/
def Plain (w : Text) : Prop := w ≠ [] ∧ ∀ c ∈ w, plainChar c = true

instance (w : Text) : Decidable (Plain w) := decidable_of_iff (w ≠ [] ∧ w.all plainChar = true) (by rw [Plain, List.all_eq_true])

theorem plainChar_iff {c : Char} : plainChar c = true ↔ isSpace c = false ∧ c ≠ '{' ∧ c ≠ '}' ∧ c ≠ '[' ∧ c ≠ ']' ∧ c ≠ '$' ∧
    c ≠ ';' ∧ c ≠ '"' ∧ c ≠ '\\' ∧ c ≠ '#' := by
  simp [plainChar, and_assoc]

theorem of_plainChar {c : Char} (h : plainChar c = true) : isSpace c = false ∧ c ≠ '{' ∧ c ≠ '}' ∧ c ≠ '[' ∧ c ≠ ']' ∧ c ≠ '$' ∧
    c ≠ ';' ∧ c ≠ '"' ∧ c ≠ '\\' ∧ c ≠ '#' := by
  rwa [plainChar_iff] at h

theorem Plain.backslash_notMem {w : Text} (hw : Plain w) : '\\' ∉ w := fun h => absurd (hw.2 _ h) (by decide)

theorem Plain.collapse_eq {w : Text} (hw : Plain w) : collapse w = w := collapseFrom_of_notMem hw.backslash_notMem (Nat.le_refl _)

theorem parseFrom_bare {u : Text} (hu : ∀ c ∈ u, plainChar c = true) (raw t : Text) :
    parseFrom (.bare raw) (u ++ t) = parseFrom (.bare (u.reverse ++ raw)) t := by
  induction u generalizing raw with
  | nil => rfl
  | cons c u ih =>
    obtain ⟨hs, -, -, -, -, -, -, -, hb, -⟩ := of_plainChar (hu c List.mem_cons_self)
    rw [List.cons_append, parseFrom_bare_cons, if_neg (by simp [hs]), if_neg hb, ih fun d hd => hu d (List.mem_cons_of_mem _ hd)]
    simp

/-- The reader at the front of a plain word. -/
theorem parse_append {w : Text} (hw : Plain w) (t : Text) : parse (w ++ t) = parseFrom (.bare w.reverse) t := by
  obtain ⟨hne, hc⟩ := hw
  cases w with
  | nil => exact absurd rfl hne
  | cons c w =>
    obtain ⟨hs, ho, -, -, -, -, -, hq, hb, -⟩ := of_plainChar (hc c List.mem_cons_self)
    rw [parse, List.cons_append, parseFrom_gap_cons, if_neg (by simp [hs]), if_neg ho, if_neg hq, if_neg hb,
      parseFrom_bare fun d hd => hc d (List.mem_cons_of_mem _ hd)]
    simp

/-- A plain word in front of a list. -/
theorem parse_word {w : Text} (hw : Plain w) (t : Text) : parse (w ++ ' ' :: t) = (parse t).map fun es => w :: es := by
  rw [parse_append hw, parseFrom_bare_cons, if_pos (by decide), List.reverse_reverse, hw.collapse_eq]
  rfl

theorem parse_single {w : Text} (hw : Plain w) : parse w = some [w] := by
  have h := parse_append hw []
  rw [List.append_nil] at h
  rw [h, parseFrom_bare_nil, List.reverse_reverse, hw.collapse_eq]

theorem parse_joined {ws : List Text} (hws : ∀ w ∈ ws, Plain w) : parse (joined ws) = some ws := by
  induction ws with
  | nil => rfl
  | cons w ws ih =>
    have hw := hws w List.mem_cons_self
    cases ws with
    | nil => exact parse_single hw
    | cons v vs =>
      rw [joined, parse_word hw, ih fun u hu => hws u (List.mem_cons_of_mem _ hu)]
      · rfl
      · simp

theorem scanFrom_plain {u : Text} (hu : ∀ c ∈ u, plainChar c = true) (f : Flags) : scanFrom u 0 f = f := by
  induction u with
  | nil => rfl
  | cons c u ih =>
    obtain ⟨hs, h1, h2, h3, -, h4, h5, -, h6, -⟩ := of_plainChar (hu c List.mem_cons_self)
    rw [scanFrom.eq_def]
    simp only
    rw [if_neg h1, if_neg h2, if_neg (by simp [hs, h3, h4, h5]), if_neg h6]
    exact ih fun d hd => hu d (List.mem_cons_of_mem _ hd)

theorem escape_plain {c : Char} (hc : plainChar c = true) : escape false c = [c] := by
  have hsp : ∀ d, isSpace d = true → c ≠ d := by
    rintro d hd rfl
    rw [(of_plainChar hc).1] at hd
    cases hd
  obtain ⟨-, h1, h2, h3, h4, h5, h6, h7, h8, -⟩ := of_plainChar hc
  simp [escape, h1, h2, h3, h4, h5, h6, h7, h8, hsp ' ' rfl, hsp '\x0c' rfl, hsp '\n' rfl, hsp '\r' rfl, hsp '\t' rfl,
    hsp '\x0b' rfl]

/-- A plain word is written as it is. -/
theorem convertElement_plain {w : Text} (hw : Plain w) (hash : Bool) : convertElement hash w = w := by
  obtain ⟨hne, hc⟩ := hw
  cases w with
  | nil => exact absurd rfl hne
  | cons c w =>
    obtain ⟨-, ho, -, -, -, -, -, hq, -, hh⟩ := of_plainChar (hc c List.mem_cons_self)
    have hflags : scanElement (c :: w) = ⟨false, false, false⟩ := by
      rw [scanElement, scanFrom_plain hc]
      simp [ho, hq]
    have hescape : ∀ u : Text, (∀ d ∈ u, plainChar d = true) → u.flatMap (escape false) = u := by
      intro u hu
      induction u with
      | nil => rfl
      | cons d u ih =>
        rw [List.flatMap_cons, escape_plain (hu d List.mem_cons_self), ih fun e he => hu e (List.mem_cons_of_mem _ he)]
        rfl
    simp only [convertElement, hflags]
    rw [if_neg hne, if_neg (by simp [hh]), if_neg (by simp [ho]), if_neg (by simp [hh]), hescape _ hc]

theorem format_plain {ws : List Text} (hws : ∀ w ∈ ws, Plain w) (quoteHash : Bool) : format quoteHash ws = joined ws := by
  cases ws with
  | nil => rfl
  | cons w ws =>
    have hmap : ws.map (convertElement false) = ws := by
      conv_rhs => rw [← List.map_id ws]
      exact List.map_congr_left fun v hv => convertElement_plain (hws v (List.mem_cons_of_mem _ hv)) false
    rw [format, convertElement_plain (hws w List.mem_cons_self), hmap]

/-- A list of plain words is read back. -/
theorem parse_format {ws : List Text} (hws : ∀ w ∈ ws, Plain w) (quoteHash : Bool) : parse (format quoteHash ws) = some ws := by
  rw [format_plain hws, parse_joined hws]

/-! ## Arrays -/

/-- A Tcl array: each name has at most one element. -/
abbrev Array := List (Text × Text)

def Array.get? (a : Array) (k : Text) : Option Text := (a.find? fun x => x.1 = k).map Prod.snd

/-- `unset`. -/
def Array.unset (a : Array) (k : Text) : Array := a.filter fun x => x.1 ≠ k

/-- `set`. -/
def Array.put (a : Array) (k v : Text) : Array := (k, v) :: a.unset k

theorem Array.get?_unset (a : Array) (k k' : Text) : (a.unset k).get? k' = if k' = k then none else a.get? k' := by
  unfold Array.get? Array.unset
  induction a with
  | nil => simp
  | cons x a ih =>
    by_cases hx : x.1 = k
    · rw [List.filter_cons_of_neg (by simp [hx]), ih]
      by_cases hk : k' = k
      · simp [hk]
      · simp [hk, hx, Ne.symm hk]
    · rw [List.filter_cons_of_pos (by simp [hx])]
      by_cases hk : x.1 = k'
      · simp [hk, hk ▸ hx]
      · simp only [List.find?_cons, hk, decide_false]
        exact ih

theorem Array.get?_put (a : Array) (k v k' : Text) : (a.put k v).get? k' = if k' = k then some v else a.get? k' := by
  by_cases hk : k' = k
  · simp [Array.put, Array.get?, hk]
  · have h : (a.put k v).get? k' = (a.unset k).get? k' := by
      simp [Array.put, Array.get?, Ne.symm hk]
    rw [h, Array.get?_unset, if_neg hk, if_neg hk]

end ZfsTest.Tcl
