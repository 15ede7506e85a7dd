import ZfsTest.Shell.Words

/-!
# Quoting the arguments for the shell of a zone

`runwattr -z` hands its arguments to a shell in the zone as one line: `shell_quote` rewrites each of them in place, and `zlogin` puts
single blanks between them. What the shell of the zone makes of the line is `Shell.evalLine`.

An argument with one of the characters of `isSep` is put in double quotes as a whole, and the shell gives it back
(`tokens_double`). Every other argument stays a plain word with some characters behind a backslash (`marked`), so a leading `#`
starts a comment (`tokens_shellQuote_comment`), and `~`, `*`, `?` and `[` are expanded. Nothing else goes wrong (`tokens_line`).

Which words of a line are reserved words or assignments is left to the grammar of commands; here the line is read for its words.
-/

namespace ZfsTest.Runwattr

open Shell

/-! ## The code -/

/-- Backslash, backquote, dollar, doublequote. -/
def isSpecial (c : Char) : Bool := c = '\\' || c = '\x60' || c = '$' || c = '"'

def isSep (c : Char) : Bool :=
  c = ';' || c = '&' || c = '(' || c = ')' || c = '|' || c = '^' || c = '<' || c = '>' || c = '\n' || c = ' ' || c = '\t' || c = '\''

/-- The first substitution of `shell_quote`. -/
def backslashed (a : Text) : Text := a.flatMap fun c => if isSpecial c then ['\\', c] else [c]

/-- The second one. -/
def doubleQuoted (t : Text) : Text := if t.any isSep then '"' :: t ++ ['"'] else t

/-- `shell_quote`; the pattern `^$` of the third substitution also matches a lone newline. -/
def shellQuote (a : Text) : Text :=
  let t := doubleQuoted (backslashed a)
  if t = [] ∨ t = ['\n'] then ['"', '"'] else t

/-! ## What the shell reads -/

/-- An argument that is not put in double quotes, as the shell reads it. -/
def marked (a : Text) : Word := a.map fun c => (c, isSpecial c)

/-- The argument gets double quotes. -/
def InDoubleQuotes (a : Text) : Prop := a = [] ∨ a.any isSep = true

instance (a : Text) : Decidable (InDoubleQuotes a) := inferInstanceAs (Decidable (a = [] ∨ a.any isSep = true))

/-- The word the shell makes of a quoted argument, unless a comment begins with it. -/
def wordOf (a : Text) : Word := if InDoubleQuotes a then a.map fun c => (c, true) else marked a

/-- A comment begins with the argument. -/
def IsComment (a : Text) : Prop := ¬InDoubleQuotes a ∧ a.head? = some '#'

theorem backslashed_cons (c : Char) (a : Text) :
    backslashed (c :: a) = (if isSpecial c then ['\\', c] else [c]) ++ backslashed a := rfl

theorem any_backslashed (a : Text) : (backslashed a).any isSep = a.any isSep := by
  induction a with
  | nil => rfl
  | cons c a ih =>
    rw [backslashed_cons, List.any_append, ih, List.any_cons]
    by_cases hc : isSpecial c = true
    · have hbackslash : isSep '\\' = false := rfl
      simp [hc, hbackslash]
    · simp [hc]

theorem backslashed_eq_nil {a : Text} (h : backslashed a = []) : a = [] := by
  cases a with
  | nil => rfl
  | cons c a =>
    rw [backslashed_cons] at h
    by_cases hc : isSpecial c = true
    · simp [hc] at h
    · simp [hc] at h

theorem shellQuote_of_inDoubleQuotes {a : Text} (h : InDoubleQuotes a) : shellQuote a = '"' :: backslashed a ++ ['"'] := by
  rcases h with rfl | h
  · rfl
  · simp [shellQuote, doubleQuoted, any_backslashed, h]

theorem shellQuote_of_not {a : Text} (h : ¬InDoubleQuotes a) : shellQuote a = backslashed a := by
  obtain ⟨hne, hsep⟩ := not_or.mp h
  have hnil : backslashed a ≠ [] := fun hb => hne (backslashed_eq_nil hb)
  have hnl : backslashed a ≠ ['\n'] := by
    intro hb
    rw [← any_backslashed, hb] at hsep
    exact hsep rfl
  simp [shellQuote, doubleQuoted, any_backslashed, hsep, hnil, hnl]

/-! ## Words of the line -/

section

-- The state and the first character decide which case of `tokensFrom` reads them.
attribute [local simp] tokensFrom isBlank isOperator isDollar

/-- Double quotes give the argument back. -/
theorem tokens_double (a : Text) (w : Word) (t : Text) :
    tokensFrom (.double w) (backslashed a ++ '"' :: t) = tokensFrom (.word (w ++ a.map fun c => (c, true))) t := by
  induction a generalizing w with
  | nil => simp [backslashed]
  | cons c a ih =>
    rw [backslashed_cons, List.append_assoc]
    by_cases hc : isSpecial c = true
    · have hread : tokensFrom (.double w) ('\\' :: c :: (backslashed a ++ '"' :: t))
          = tokensFrom (.double (w ++ [(c, true)])) (backslashed a ++ '"' :: t) := by
        simp only [isSpecial, Bool.or_eq_true, decide_eq_true_eq] at hc
        rcases hc with ((rfl | rfl) | rfl) | rfl <;> simp
      rw [if_pos hc, List.cons_append, List.cons_append, List.nil_append, hread, ih]
      simp
    · have hread : tokensFrom (.double w) (c :: (backslashed a ++ '"' :: t))
          = tokensFrom (.double (w ++ [(c, true)])) (backslashed a ++ '"' :: t) := by
        simp only [isSpecial, Bool.or_eq_true, decide_eq_true_eq, not_or] at hc
        simp [hc]
      rw [if_neg hc, List.cons_append, List.nil_append, hread, ih]
      simp

/-- One character of a plain word. -/
theorem tokens_word_step {c : Char} (hsep : isSep c = false) (w : Word) (t : Text) :
    tokensFrom (.word w) ((if isSpecial c then ['\\', c] else [c]) ++ t) = tokensFrom (.word (w ++ [(c, isSpecial c)])) t := by
  by_cases hc : isSpecial c = true
  · rw [if_pos hc, hc]
    simp only [isSpecial, Bool.or_eq_true, decide_eq_true_eq] at hc
    rcases hc with ((rfl | rfl) | rfl) | rfl <;> simp
  · rw [if_neg hc, eq_false_of_ne_true hc]
    simp only [isSpecial, Bool.or_eq_true, decide_eq_true_eq, not_or] at hc
    simp only [isSep, Bool.or_eq_false_iff, decide_eq_false_iff_not] at hsep
    simp [hc, hsep]

theorem tokens_word (a : Text) (hsep : a.any isSep = false) (w : Word) (t : Text) :
    tokensFrom (.word w) (backslashed a ++ t) = tokensFrom (.word (w ++ marked a)) t := by
  induction a generalizing w with
  | nil => simp [backslashed, marked]
  | cons c a ih =>
    rw [List.any_cons, Bool.or_eq_false_iff] at hsep
    rw [backslashed_cons, List.append_assoc, tokens_word_step hsep.1, ih hsep.2]
    simp [marked]

/-- The first character of a plain word. -/
theorem tokens_gap_step {c : Char} (hsep : isSep c = false) (hc : c ≠ '#') (t : Text) :
    tokensFrom .gap ((if isSpecial c then ['\\', c] else [c]) ++ t) = tokensFrom (.word [(c, isSpecial c)]) t := by
  by_cases hs : isSpecial c = true
  · rw [if_pos hs, hs]
    simp only [isSpecial, Bool.or_eq_true, decide_eq_true_eq] at hs
    rcases hs with ((rfl | rfl) | rfl) | rfl <;> simp
  · rw [if_neg hs, eq_false_of_ne_true hs]
    simp only [isSpecial, Bool.or_eq_true, decide_eq_true_eq, not_or] at hs
    simp only [isSep, Bool.or_eq_false_iff, decide_eq_false_iff_not] at hsep
    simp [hs, hsep, hc]

theorem tokens_shellQuote {a : Text} (h : ¬IsComment a) (t : Text) :
    tokensFrom .gap (shellQuote a ++ t) = tokensFrom (.word (wordOf a)) t := by
  by_cases hd : InDoubleQuotes a
  · have hopen : ∀ s, tokensFrom .gap ('"' :: s) = tokensFrom (.double []) s := fun s => by
      simp
    rw [shellQuote_of_inDoubleQuotes hd, List.cons_append, List.cons_append, List.append_assoc, hopen]
    rw [List.cons_append, List.nil_append, tokens_double, List.nil_append, wordOf, if_pos hd]
  · rw [shellQuote_of_not hd, wordOf, if_neg hd]
    cases a with
    | nil => exact absurd (Or.inl rfl) hd
    | cons c a =>
      have hsep : isSep c = false ∧ a.any isSep = false := by
        rw [← Bool.or_eq_false_iff, ← List.any_cons, ← Bool.not_eq_true]
        exact fun hs => hd (Or.inr hs)
      have hc : c ≠ '#' := by
        rintro rfl
        exact h ⟨hd, rfl⟩
      rw [backslashed_cons, List.append_assoc, tokens_gap_step hsep.1 hc, tokens_word a hsep.2]
      rfl

end

/-- No word follows on the line of a comment. -/
theorem tokens_comment (t : Text) {ws : List Word} (h : tokensFrom .comment t = some ws) : ws = [] := by
  induction t with
  | nil => exact (Option.some.inj h).symm
  | cons c t ih =>
    rw [tokensFrom] at h
    split at h
    · cases h
    · exact ih h

theorem tokens_shellQuote_comment {a : Text} (h : IsComment a) (t : Text) {ws : List Word}
    (hws : tokensFrom .gap (shellQuote a ++ t) = some ws) : ws = [] := by
  obtain ⟨hd, hc⟩ := h
  rw [shellQuote_of_not hd] at hws
  cases a with
  | nil => cases hc
  | cons c a =>
    obtain rfl : c = '#' := Option.some.inj hc
    exact tokens_comment (backslashed a ++ t) hws

/-! ## The line -/

/-- The line `zlogin` makes. -/
def line (args : List Text) : Text := joined (args.map shellQuote)

theorem tokens_line_cons {a : Text} (h : ¬IsComment a) (args : List Text) :
    tokens (line (a :: args)) = (tokens (line args)).map fun ws => wordOf a :: ws := by
  cases args with
  | nil =>
    have hr := tokens_shellQuote h []
    rw [List.append_nil] at hr
    exact hr
  | cons b args => exact tokens_shellQuote h (' ' :: line (b :: args))

theorem tokens_line_comment {a : Text} (h : IsComment a) {args : List Text} {ws : List Word}
    (hws : tokens (line (a :: args)) = some ws) : ws = [] := by
  cases args with
  | nil =>
    apply tokens_shellQuote_comment h []
    rw [List.append_nil]
    exact hws
  | cons b args => exact tokens_shellQuote_comment h (' ' :: line (b :: args)) hws

/-- The line has as many words as there are arguments just when no comment begins in it. -/
theorem tokens_line (args : List Text) (ws : List Word) :
    tokens (line args) = some ws ∧ ws.length = args.length ↔ (∀ a ∈ args, ¬IsComment a) ∧ ws = args.map wordOf := by
  induction args generalizing ws with
  | nil =>
    constructor
    · rintro ⟨h, -⟩
      exact ⟨fun a ha => absurd ha List.not_mem_nil, (Option.some.inj h).symm⟩
    · rintro ⟨-, rfl⟩
      exact ⟨rfl, rfl⟩
  | cons a args ih =>
    by_cases hc : IsComment a
    · constructor
      · rintro ⟨h, hlen⟩
        rw [tokens_line_comment hc h] at hlen
        cases hlen
      · rintro ⟨h, -⟩
        exact absurd hc (h a List.mem_cons_self)
    · rw [tokens_line_cons hc, List.forall_mem_cons, List.map_cons]
      constructor
      · rintro ⟨h, hlen⟩
        obtain ⟨us, hus, rfl⟩ := Option.map_eq_some_iff.mp h
        obtain ⟨hargs, rfl⟩ := (ih us).mp ⟨hus, Nat.succ.inj hlen⟩
        exact ⟨⟨hc, hargs⟩, rfl⟩
      · rintro ⟨⟨-, hargs⟩, rfl⟩
        obtain ⟨hus, hlen⟩ := (ih _).mpr ⟨hargs, rfl⟩
        exact ⟨by rw [hus]; rfl, congrArg Nat.succ hlen⟩

/-! ## The round trip -/

/-- The line gives back the arguments: one word for each, and one field for each word. -/
def GivesBack (sh : Shell) (args : List Text) : Prop := evalLine sh (line args) = some (args.map fun a => [a])

/-- The argument is put in double quotes, or it does not start a comment and the shell does not expand it. -/
def Survives (sh : Shell) (a : Text) : Prop :=
  a = [] ∨ a.any isSep = true ∨ (a.head? ≠ some '#' ∧ expand sh (marked a) = [a])

theorem survives_iff (sh : Shell) (a : Text) : Survives sh a ↔ ¬IsComment a ∧ expand sh (wordOf a) = [a] := by
  unfold Survives
  rw [← or_assoc]
  by_cases hd : InDoubleQuotes a
  · rw [wordOf, if_pos hd]
    constructor
    · intro _
      exact ⟨fun h => h.1 hd, expand_quoted sh a⟩
    · intro _
      exact Or.inl hd
  · rw [wordOf, if_neg hd]
    constructor
    · rintro (h | ⟨hhead, hexp⟩)
      · exact absurd h hd
      · exact ⟨fun h => hhead h.2, hexp⟩
    · rintro ⟨hc, hexp⟩
      exact Or.inr ⟨fun hhead => hc ⟨hd, hhead⟩, hexp⟩

/-- The shell gives back the arguments just when each of them survives. -/
theorem evalLine_line (sh : Shell) (args : List Text) : GivesBack sh args ↔ ∀ a ∈ args, Survives sh a := by
  have hfields : (args.map wordOf).map (expand sh) = args.map (fun a => [a]) ↔ ∀ a ∈ args, expand sh (wordOf a) = [a] := by
    rw [List.map_map, List.map_inj_left]
    rfl
  simp only [survives_iff, GivesBack, evalLine]
  constructor
  · intro h
    obtain ⟨ws, hws, hexp⟩ := Option.map_eq_some_iff.mp h
    have hlen : ws.length = args.length := by simpa using congrArg List.length hexp
    obtain ⟨hcomment, rfl⟩ := (tokens_line args ws).mp ⟨hws, hlen⟩
    exact fun a ha => ⟨hcomment a ha, hfields.mp hexp a ha⟩
  · intro h
    have hws := (tokens_line args _).mpr ⟨fun a ha => (h a ha).1, rfl⟩
    rw [hws.1, Option.map_some, hfields.mpr fun a ha => (h a ha).2]

/-- A first argument that begins with `#` makes the line a comment. -/
theorem not_evalLine_line : ¬∀ (sh : Shell) (args : List Text), (∀ a ∈ args, '\x00' ∉ a) → GivesBack sh args := by
  intro h
  have hline : GivesBack ⟨fun _ => none, fun _ => []⟩ [['#', 'x']] := h _ _ (by decide)
  cases hline

end ZfsTest.Runwattr
