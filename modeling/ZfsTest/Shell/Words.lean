import ZfsTest.Text.Basic

/-!
# The words of a shell command line

How a POSIX shell reads one simple command: it cuts the line into words, drops comments, expands a leading `~` and the patterns for
pathnames, and removes the quotes. `tokens` keeps for every character of a word whether it was quoted; `expand` makes fields of a
word; `evalLine` gives the fields of each word.

`none` is everything that is not one simple command of plain words: operators, a second line, a quote that is not closed, and `$` and
backquotes that are not quoted.
-/

namespace ZfsTest.Shell

/-- The characters of a word; `true` is quoted. -/
abbrev Word := List (Char × Bool)

def Word.text (w : Word) : Text := w.map Prod.fst

/-! ## Words -/

def isBlank (c : Char) : Bool := c = ' ' || c = '\t'

/-- A newline and the characters of operators. -/
def isOperator (c : Char) : Bool := c = '\n' || c = ';' || c = '&' || c = '|' || c = '(' || c = ')' || c = '<' || c = '>'

def isDollar (c : Char) : Bool := c = '$' || c = '\x60'

/-- Between words, in a word, in quotes, and right behind a backslash there. -/
inductive Mode
  | gap
  | gapEsc
  | word (w : Word)
  | esc (w : Word)
  | double (w : Word)
  | doubleEsc (w : Word)
  | single (w : Word)
  | comment

def tokensFrom : Mode → Text → Option (List Word)
  | .gap, [] => some []
  | .gap, c :: t =>
    if isBlank c then tokensFrom .gap t
    else if isOperator c || isDollar c then none
    else if c = '#' then tokensFrom .comment t
    else if c = '\\' then tokensFrom .gapEsc t
    else if c = '"' then tokensFrom (.double []) t
    else if c = '\'' then tokensFrom (.single []) t
    else tokensFrom (.word [(c, false)]) t
  | .gapEsc, [] => none
  | .gapEsc, c :: t => if c = '\n' then tokensFrom .gap t else tokensFrom (.word [(c, true)]) t
  | .word w, [] => some [w]
  | .word w, c :: t =>
    if isBlank c then (tokensFrom .gap t).map fun ws => w :: ws
    else if isOperator c || isDollar c then none
    else if c = '\\' then tokensFrom (.esc w) t
    else if c = '"' then tokensFrom (.double w) t
    else if c = '\'' then tokensFrom (.single w) t
    else tokensFrom (.word (w ++ [(c, false)])) t
  | .esc _, [] => none
  | .esc w, c :: t => if c = '\n' then tokensFrom (.word w) t else tokensFrom (.word (w ++ [(c, true)])) t
  | .double _, [] => none
  | .double w, c :: t =>
    if c = '"' then tokensFrom (.word w) t
    else if c = '\\' then tokensFrom (.doubleEsc w) t
    else if isDollar c then none
    else tokensFrom (.double (w ++ [(c, true)])) t
  | .doubleEsc _, [] => none
  | .doubleEsc w, c :: t =>
    if c = '\n' then tokensFrom (.double w) t
    else if isDollar c || c = '"' || c = '\\' then tokensFrom (.double (w ++ [(c, true)])) t
    else tokensFrom (.double (w ++ [('\\', true), (c, true)])) t
  | .single _, [] => none
  | .single w, c :: t => if c = '\'' then tokensFrom (.word w) t else tokensFrom (.single (w ++ [(c, true)])) t
  | .comment, [] => some []
  | .comment, c :: t => if c = '\n' then none else tokensFrom .comment t

def tokens (line : Text) : Option (List Word) := tokensFrom .gap line

/-! ## Fields -/

end ZfsTest.Shell

namespace ZfsTest

/-- What the expansions of a shell depend on: the home directories by login name (the empty name is the user's own), and the
pathnames that a pattern matches. -/
structure Shell where
  home : Text → Option Text
  glob : Shell.Word → List Text

namespace Shell

variable (sh : Shell)

/-- Tilde expansion: the login name ends at a `/`, and none of its characters is quoted. -/
def tilde (w : Word) : Word :=
  match w with
  | ('~', false) :: rest =>
    let login := rest.takeWhile fun x => x ≠ ('/', false)
    if login.all fun x => !x.2 then
      match sh.home (Word.text login) with
      | some dir => dir.map (fun c => (c, true)) ++ rest.drop login.length
      | none => w
    else w
  | _ => w

/-- A character that makes a word a pattern. -/
def isPattern (x : Char × Bool) : Bool := !x.2 && (x.1 = '*' || x.1 = '?' || x.1 = '[')

/-- Pathname expansion: a pattern that matches nothing stays. -/
def pathnames (w : Word) : List Text :=
  if w.any isPattern then
    match sh.glob w with
    | [] => [Word.text w]
    | names => names
  else [Word.text w]

/-- The fields of a word. -/
def expand (w : Word) : List Text := pathnames sh (tilde sh w)

/-- The fields of each word of a command line. -/
def evalLine (line : Text) : Option (List (List Text)) := (tokens line).map fun ws => ws.map (expand sh)

/-- A word that is quoted as a whole is not expanded. -/
theorem expand_quoted (t : Text) : expand sh (t.map fun c => (c, true)) = [t] := by
  have htilde : tilde sh (t.map fun c => (c, true)) = t.map fun c => (c, true) := by
    cases t with
    | nil => rfl
    | cons c t =>
      unfold tilde
      split
      · rename_i h
        simp at h
      · rfl
  have hany : (t.map fun c => (c, true)).any isPattern = false := by
    rw [List.any_eq_false]
    intro x hx
    obtain ⟨c, -, rfl⟩ := List.mem_map.mp hx
    simp [isPattern]
  rw [expand, htilde, pathnames, hany]
  simp [Word.text, Function.comp_def]

end Shell

end ZfsTest
