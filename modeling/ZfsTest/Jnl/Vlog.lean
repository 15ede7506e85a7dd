import ZfsTest.Jnl.Level
import ZfsTest.Text.CArray
import ZfsTest.Text.Words

/-!
# `jnl_vlog_`

A message of a detail level is formatted into `jnl_buffer` and sent to the journal line by line. The loop that splits it reads the buffer
with two pointers, the beginning `p` of the line and the character `s` that is looked at, and puts a NUL in the place of a newline while
the line in front of it is sent. It ends at the end of the text, with all lines sent and the buffer as it was (`commit_lines`).
-/

namespace ZfsTest.Jnl

open CArray

def jnlBS_LOG : Nat := 4096
def jnlBS_format : Nat := 1024

/-- The loop over `jnl_buffer`: what is sent to the journal, and the buffer behind it. `fuel` bounds its rounds; what reads or writes
outside of the buffer has no result. -/
def commitLoop : Nat → CArray → Nat → Nat → List Text → Option (List Text × CArray)
  | 0, _, _, _, _ => none
  | fuel + 1, buf, s, p, msgs => do
    let first ← buf[p]?
    if first = '\x00' then return (msgs, buf)
    let c ← buf[s]?
    if c = '\n' ∨ c = '\x00' then
      let next := s + (if c = '\x00' then 0 else 1)
      if s = p then
        commitLoop fuel buf (s + 1) next (msgs ++ [[' ']])
      else
        let patched ← buf.store s '\x00'
        let restored ← patched.store s c
        commitLoop fuel restored (s + 1) next (msgs ++ [CArray.text (patched.drop p)])
    else
      commitLoop fuel buf (s + 1) p msgs

/-- The loop, and one blank line for legibility. -/
def commit (fuel : Nat) (buf : CArray) : Option (List Text × CArray) :=
  (commitLoop fuel buf 0 0 []).map fun (msgs, buf) => (msgs ++ [[' ']], buf)

/-- A formatted message in `jnl_buffer`; `rest` is what the buffer held behind it. -/
structure Message where
  text : Text
  rest : Text
  noNul : '\x00' ∉ text
  size : text.length + 1 + rest.length = jnlBS_LOG

def Message.buffer (m : Message) : CArray := m.text ++ '\x00' :: m.rest

/-- What is sent of a line. -/
def shown (line : Text) : Text := if line = [] then [' '] else line

/-! ## The loop -/

variable {done line todo rest : Text} {msgs : List Text}

/-- The loop in the middle of a line: `done` stands before it, `line` is what was read of it. -/
def midLine (fuel : Nat) (done line todo rest : Text) (msgs : List Text) : Option (List Text × CArray) :=
  commitLoop fuel (done ++ (line ++ (todo ++ '\x00' :: rest))) (done.length + line.length) done.length msgs

theorem getElem?_line (done line : Text) (c : Char) (t : Text) : (done ++ (line ++ c :: t))[done.length + line.length]? = some c := by
  rw [← List.append_assoc, ← List.length_append, List.getElem?_append_right (Nat.le_refl _), Nat.sub_self]
  rfl

/-- The first character of the line, or the NUL behind the text. -/
theorem getElem?_first (done t : Text) : (done ++ t)[done.length]? = t.head? := by
  rw [List.getElem?_append_right (Nat.le_refl _), Nat.sub_self, List.head?_eq_getElem?]

theorem head?_ne_nul (hline : '\x00' ∉ line) (hne : line ≠ []) (t : Text) : ∃ c, (line ++ t).head? = some c ∧ c ≠ '\x00' := by
  cases line with
  | nil => exact absurd rfl hne
  | cons c line => exact ⟨c, rfl, fun h => hline (h ▸ List.mem_cons_self)⟩

/-- A character of the line. -/
theorem midLine_char {c : Char} (hline : '\x00' ∉ line) (hc : c ≠ '\n') (hnul : c ≠ '\x00') (fuel : Nat) :
    midLine (fuel + 1) done line (c :: todo) rest msgs = midLine fuel done (line ++ [c]) todo rest msgs := by
  obtain ⟨first, hfirst, hne⟩ : ∃ first, (line ++ (c :: todo ++ '\x00' :: rest)).head? = some first ∧ first ≠ '\x00' := by
    cases line with
    | nil => exact ⟨c, rfl, hnul⟩
    | cons d line => exact head?_ne_nul hline (List.cons_ne_nil d line) _
  unfold midLine
  rw [commitLoop, getElem?_first, hfirst, List.cons_append, getElem?_line]
  simp [hne, hc, hnul, Nat.add_assoc]

/-- The end of a line that is not empty. -/
theorem commitLoop_end {c : Char} (hline : '\x00' ∉ line) (hne : line ≠ []) (hc : c = '\n' ∨ c = '\x00') (fuel : Nat) :
    commitLoop (fuel + 1) (done ++ (line ++ c :: todo)) (done.length + line.length) done.length msgs =
      commitLoop fuel (done ++ (line ++ c :: todo)) (done.length + line.length + 1)
        (done.length + line.length + if c = '\x00' then 0 else 1) (msgs ++ [line]) := by
  obtain ⟨first, hfirst, hnul⟩ := head?_ne_nul hline hne (c :: todo)
  have hpos : 0 < line.length := List.length_pos_iff.mpr hne
  have hpatch : ∀ a b : Char, store (done ++ (line ++ a :: todo)) (done.length + line.length : Nat) b =
      some (done ++ (line ++ b :: todo)) := by
    intro a b
    have h : store (done ++ line ++ a :: todo) (done ++ line).length b = some (done ++ line ++ b :: todo) := store_append _ a b
    rwa [List.length_append, List.append_assoc, List.append_assoc] at h
  have hs : ¬done.length + line.length = done.length := by omega
  rw [commitLoop, getElem?_first, hfirst, getElem?_line]
  simp only [Option.bind_eq_bind, Option.bind_some, if_neg hnul, if_pos hc, if_neg hs, hpatch, List.drop_left, text_append_nul hline]

/-- The end of a line, which is a newline. -/
theorem midLine_newline (hline : '\x00' ∉ line) (fuel : Nat) :
    midLine (fuel + 1) done line ('\n' :: todo) rest msgs =
      midLine fuel (done ++ (line ++ ['\n'])) [] todo rest (msgs ++ [shown line]) := by
  unfold midLine
  by_cases hnil : line = []
  · subst hnil
    rw [commitLoop, getElem?_first]
    simp [shown, Nat.add_assoc]
  · rw [List.cons_append, commitLoop_end hline hnil (Or.inl rfl), shown, if_neg hnil]
    simp [Nat.add_assoc]

/-- The end of the text. -/
theorem midLine_nil (hline : '\x00' ∉ line) (fuel : Nat) :
    midLine (fuel + 2) done line [] rest msgs =
      some (msgs ++ (if line = [] then [] else [line]), done ++ (line ++ '\x00' :: rest)) := by
  unfold midLine
  by_cases hnil : line = []
  · subst hnil
    rw [commitLoop, getElem?_first]
    simp
  · have hend := getElem?_line done line '\x00' rest
    rw [List.nil_append, commitLoop_end hline hnil (Or.inr rfl), commitLoop, if_pos rfl, Nat.add_zero, hend]
    simp [hnil]

/-- All lines of the text are sent, and the buffer is left as it was. -/
theorem midLine_lines (hline : '\x00' ∉ line) (hone : '\n' ∉ line) (htodo : '\x00' ∉ todo) (fuel : Nat) :
    midLine (fuel + todo.length + 2) done line todo rest msgs =
      some (msgs ++ (linesOf (line ++ todo)).map shown, done ++ (line ++ (todo ++ '\x00' :: rest))) := by
  induction todo generalizing done line msgs with
  | nil =>
    rw [List.length_nil, Nat.add_zero, midLine_nil hline, List.append_nil, List.nil_append]
    by_cases hnil : line = []
    · subst hnil
      rfl
    · have hsingle : linesOf line = [line] := linesBy_single (not_newline_of_notMem hone) hnil
      rw [hsingle, List.map_singleton, shown, if_neg hnil, if_neg hnil]
  | cons c todo ih =>
    have hc : c ≠ '\x00' := fun h => htodo (h ▸ List.mem_cons_self)
    have htail : '\x00' ∉ todo := fun h => htodo (List.mem_cons_of_mem c h)
    have hfuel : fuel + (c :: todo).length + 2 = fuel + todo.length + 2 + 1 := by
      rw [List.length_cons]
      omega
    rw [hfuel]
    by_cases hnl : c = '\n'
    · subst hnl
      rw [midLine_newline hline, ih List.not_mem_nil List.not_mem_nil htail, linesOf_line hone]
      simp
    · have hline' : '\x00' ∉ line ++ [c] := by
        intro h
        rcases List.mem_append.mp h with h | h
        · exact hline h
        · exact hc (List.mem_singleton.mp h).symm
      have hone' : '\n' ∉ line ++ [c] := by
        intro h
        rcases List.mem_append.mp h with h | h
        · exact hone h
        · exact hnl (List.mem_singleton.mp h).symm
      rw [midLine_char hline hnl hc, ih hline' hone' htail]
      simp

/-- Two rounds more than the text has characters are enough. -/
theorem commit_rounds (m : Message) (extra : Nat) :
    commit (extra + m.text.length + 2) m.buffer = some ((linesOf m.text).map shown ++ [[' ']], m.buffer) := by
  have h : midLine (extra + m.text.length + 2) [] [] m.text m.rest [] = some ([] ++ (linesOf ([] ++ m.text)).map shown, _) :=
    midLine_lines List.not_mem_nil List.not_mem_nil m.noNul extra
  unfold midLine at h
  unfold commit Message.buffer
  simp only [List.nil_append, List.length_nil, Nat.add_zero] at h
  rw [h]
  rfl

/-- A message is sent line by line, with a blank for an empty line and one at the end, and the buffer is left as it was. -/
theorem commit_lines (m : Message) :
    ∃ k, ∀ fuel, k ≤ fuel → commit fuel m.buffer = some ((linesOf m.text).map shown ++ [[' ']], m.buffer) := by
  refine ⟨m.text.length + 2, fun fuel hf => ?_⟩
  obtain ⟨extra, rfl⟩ := Nat.exists_eq_add_of_le' hf
  exact commit_rounds m extra

/-- Two lines with an empty one between them. -/
def Message.sample : Message where
  text := "on\n\noff".toList
  rest := List.replicate (jnlBS_LOG - 8) 'x'
  noNul := by decide
  size := by rw [List.length_replicate]; decide

theorem commit_lines_sample : ∃ k, ∀ fuel, k ≤ fuel →
    commit fuel Message.sample.buffer = some (["on".toList, [' '], "off".toList, [' ']], Message.sample.buffer) :=
  commit_lines Message.sample

/-! ## The whole function -/

/-- A call of `jnl_vlog_`: `place` is the file and the line of the caller, where the macros are variadic, and `vsnprintf` what the
arguments of the caller make of a format in a buffer of `jnlBS_LOG` characters, if it does not fail. -/
structure Vlog where
  level : DetailLevel
  place : Option (Text × Int)
  formatString : Text
  vsnprintf : Text → Option Message

/-- What is put before the text of the message. -/
def Vlog.header (v : Vlog) (d : Description) : Text :=
  let level := (if d.level = v.level.val then [] else ['~']) ++ d.description
  match v.place with
  | some (file, line) => "[ - ".toList ++ level ++ " (file: ".toList ++ file ++ ", line: ".toList ++ intText line ++ ") - ]\n".toList
  | none => "[ - ".toList ++ level ++ " - ]\n".toList

/-- `jnl_vlog_` at the detail level `detail` of the process: what is returned, and what is sent to the journal. -/
def jnlVlog (detail : DetailLevel) (v : Vlog) (fuel : Nat) : Option (Int × List Text) :=
  if v.level.val ≤ detail.val then do
    let d ← jnlDlDescriptionFetch v.level.val fuel
    let formatBuffer := (v.header d ++ v.formatString).take (jnlBS_format - 1)
    match v.vsnprintf formatBuffer with
    | none => return (-1, [])
    | some m => do
      let (msgs, _) ← commit fuel m.buffer
      return (0, msgs)
  else return (0, [])

/-- A call ends, and sends the lines of its message or nothing. -/
theorem jnlVlog_ends (detail : DetailLevel) (v : Vlog) : ∃ d ∈ jnlDLLevelDescriptions, DescribesLevel v.level d ∧
    ∃ k, ∀ fuel, k ≤ fuel → jnlVlog detail v fuel = some (
      if v.level.val ≤ detail.val then
        (v.vsnprintf ((v.header d ++ v.formatString).take (jnlBS_format - 1))).elim (-1, [])
          fun m => (0, (linesOf m.text).map shown ++ [[' ']])
      else (0, [])) := by
  obtain ⟨k, d, hfetch, hd, hlevel⟩ := description_fetched v.level
  refine ⟨d, hd, hlevel, ?_⟩
  by_cases hle : v.level.val ≤ detail.val
  · cases hm : v.vsnprintf ((v.header d ++ v.formatString).take (jnlBS_format - 1)) with
    | none =>
      refine ⟨k, fun fuel hf => ?_⟩
      unfold jnlVlog
      rw [if_pos hle, if_pos hle, hfetch fuel hf, Option.bind_eq_bind, Option.bind_some]
      simp only [hm]
      rfl
    | some m =>
      refine ⟨k + (m.text.length + 2), fun fuel hf => ?_⟩
      obtain ⟨extra, rfl⟩ := Nat.exists_eq_add_of_le' (Nat.le_of_add_left_le hf)
      unfold jnlVlog
      rw [if_pos hle, if_pos hle, hfetch _ (by omega), Option.bind_eq_bind, Option.bind_some]
      simp only [hm]
      rw [← Nat.add_assoc, commit_rounds m extra]
      rfl
  · refine ⟨0, fun fuel _ => ?_⟩
    unfold jnlVlog
    rw [if_neg hle, if_neg hle]
    rfl

end ZfsTest.Jnl
