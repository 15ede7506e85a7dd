import ZfsTest.Shell.Echo
import ZfsTest.Shell.Fields

/-!
# Arguments that are passed on as text

A command prints the arguments that another one is to have, `set -- $(command)` makes arguments of the text again (`passed`). A row of
arguments comes back from every directory exactly when each of them is a word, no pattern, and without a sequence of `echo`
(`passed_plain`, `plain_of_passed`). It makes no difference whether the command expands the row without quotes itself (`spread`), or
prints a blank behind it.
-/

namespace ZfsTest.Shell

variable {sp : Char → Bool}

/-- The arguments that are made of the output of `echo "$t"`. The newlines at its end, which are dropped, are separators. -/
def passed (sp : Char → Bool) (dir : Directory) (t : Text) : List Text := (words sp (echo t)).flatMap dir.names

/-- `"$*"`. -/
def row (v : List Text) : Text := [' '].intercalate v

/-- An argument that is passed on as it is. -/
structure PlainArg (sp : Char → Bool) (w : Text) : Prop where
  ne : w ≠ []
  whole : ∀ c ∈ w, sp c = false
  literal : isGlob w = false
  unescaped : escapes w = false

/-! ## Rows -/

theorem row_cons_cons (w u : Text) (v : List Text) : row (w :: u :: v) = w ++ ' ' :: row (u :: v) := by
  rw [row, List.intercalate_cons_cons, List.append_assoc]
  rfl

theorem escapes_row (v : List Text) : escapes (row v) = v.any escapes := by
  induction v with
  | nil => rfl
  | cons w v ih =>
    cases v with
    | nil => simp [row]
    | cons u v => rw [row_cons_cons, escapes_blank, ih, List.any_cons (a := w)]

theorem words_row (hblank : sp ' ' = true) {v : List Text} (hv : ∀ w ∈ v, w ≠ [] ∧ ∀ c ∈ w, sp c = false) :
    words sp (row v) = v := by
  rw [row, words_intercalate hblank, List.flatMap_congr fun w hw => words_single (hv w hw).2 (hv w hw).1, List.flatMap_singleton']

theorem settled_row (hblank : sp ' ' = true) {v : List Text} (hv : ∀ w ∈ v, PlainArg sp w) : Settled sp (row v) := by
  have hwords := words_row hblank fun w hw => ⟨(hv w hw).ne, (hv w hw).whole⟩
  exact ⟨by rw [hwords]; rfl, fun w hw => (hv w (hwords ▸ hw)).literal⟩

/-- A blank behind the row is lost in the end. -/
theorem passed_blank (hblank : sp ' ' = true) (hnewline : sp '\n' = true) (dir : Directory) (t : Text) :
    passed sp dir (t ++ [' ']) = passed sp dir t := by
  rcases echoFrom_blank .plain t with h | ⟨o, ho, ho'⟩
  · rw [passed, echo, h]
    rfl
  · have hlast : words sp ['\n'] = [] := words_append hnewline [] []
    have hend : words sp (o ++ [' ', '\n']) = words sp (o ++ ['\n']) := by
      rw [words_append hblank, words_append hnewline, hlast, words_nil]
    rw [passed, passed, echo, ho', hend, echo, ho]

theorem spread_blank (hblank : sp ' ' = true) (dir : Directory) (t : Text) : spread sp dir (t ++ [' ']) = spread sp dir t := by
  rw [spread, spread, words_append hblank, words_nil, List.append_nil]

/-! ## Plain arguments -/

/-- Plain arguments come back. -/
theorem passed_plain (hblank : sp ' ' = true) (hnewline : sp '\n' = true) {v : List Text} (hv : ∀ w ∈ v, PlainArg sp w)
    (dir : Directory) : passed sp dir (row v) = v := by
  have hspec := echo_spec (row v)
  have hquiet : escapes (row v) = false := by
    rw [escapes_row, List.any_eq_false]
    exact fun w hw => by rw [(hv w hw).unescaped]; exact Bool.false_ne_true
  rw [hquiet, if_neg Bool.false_ne_true] at hspec
  rw [passed, hspec, words_append hnewline, words_nil, List.append_nil, words_row hblank fun w hw => ⟨(hv w hw).ne, (hv w hw).whole⟩,
    List.flatMap_congr fun w hw => dir.names_literal w (hv w hw).literal, List.flatMap_singleton']

theorem spread_plain (hblank : sp ' ' = true) {v : List Text} (hv : ∀ w ∈ v, PlainArg sp w) (dir : Directory) :
    spread sp dir (row v) = row v :=
  spread_literal (settled_row hblank hv) dir

/-! ## What else is changed -/

theorem isGlob_cross (w : Text) : isGlob (cross w) = false := by
  unfold cross
  split
  · by_contra hglob
    obtain ⟨c, hc, hmark⟩ := mark_of_isGlob (eq_true_of_ne_false hglob)
    obtain ⟨d, -, rfl⟩ := List.mem_map.mp hc
    split at hmark
    · cases hmark
    · rename_i hd
      exact hd hmark
  · rename_i hw
    exact eq_false_of_ne_true hw

/-- Where there is a sequence, the words of the output have no room for those of the text. -/
theorem length_words_echo (hnewline : sp '\n' = true) {t : Text} (ht : escapes t = true) :
    ((words sp (echo t)).map fun w => w.length + 1).sum ≤ t.length := by
  have hspec := echo_spec t
  rw [ht, if_pos rfl] at hspec
  rcases echoFrom_end .plain (fun h => nomatch h) t with ⟨o, ho⟩ | hlen
  · have hwords := @length_words_le sp o
    rw [echo, ho, List.length_append, List.length_singleton] at hspec
    rw [echo, ho, words_append hnewline, words_nil, List.append_nil]
    omega
  · have hwords := @length_words_le sp (echo t)
    rw [pending] at hlen
    rw [echo] at hwords ⊢
    omega

theorem word_of_mem_passed (hx : sp 'x' = false) {t w : Text} (hw : w ∈ passed sp .crossed t) :
    (w ≠ [] ∧ ∀ c ∈ w, sp c = false) ∧ isGlob w = false := by
  rw [passed, crossed_fields] at hw
  obtain ⟨u, hu, rfl⟩ := List.mem_map.mp hw
  have hmem : cross u ∈ words sp (cross u) := by
    rw [words_cross hx hu]
    exact List.mem_cons_self
  exact ⟨⟨ne_nil_of_mem_words hmem, fun c hc => not_separator_of_mem_words hmem hc⟩, isGlob_cross u⟩

/-- Only plain arguments come back from the crossed directory. -/
theorem plain_of_passed (hx : sp 'x' = false) (hnewline : sp '\n' = true) {v : List Text} (h : passed sp .crossed (row v) = v) :
    ∀ w ∈ v, PlainArg sp w := by
  have hwords : ∀ w ∈ v, (w ≠ [] ∧ ∀ c ∈ w, sp c = false) ∧ isGlob w = false :=
    fun w hw => @word_of_mem_passed sp hx (row v) w (h.symm ▸ hw)
  rw [passed, crossed_fields] at h
  have hquiet : v.any escapes = false := by
    rw [← escapes_row]
    by_contra hesc
    have hroom := @length_words_echo sp hnewline (row v) (eq_true_of_ne_false hesc)
    have hsum : ((words sp (echo (row v))).map fun w => w.length + 1).sum = (v.map fun w => w.length + 1).sum := by
      rw [← congrArg (fun ws => (ws.map fun w : Text => w.length + 1).sum) h, List.map_map]
      exact congrArg List.sum (List.map_congr_left fun w _ => congrArg Nat.succ (length_cross w).symm)
    cases v with
    | nil => exact hesc rfl
    | cons w v =>
      rw [hsum, row, length_intercalate_cons, List.map_cons, List.sum_cons] at hroom
      omega
  exact fun w hw => ⟨(hwords w hw).1.1, (hwords w hw).1.2, (hwords w hw).2, eq_false_of_ne_true (List.any_eq_false.mp hquiet w hw)⟩

/-- The same where the command has expanded the row without quotes. -/
theorem plain_of_passed_spread (hblank : sp ' ' = true) (hx : sp 'x' = false) (hnewline : sp '\n' = true) {v : List Text}
    (h : passed sp .crossed (spread sp .crossed (row v)) = v) : ∀ w ∈ v, PlainArg sp w := by
  have hwords : ∀ w ∈ v, (w ≠ [] ∧ ∀ c ∈ w, sp c = false) ∧ isGlob w = false :=
    fun w hw => @word_of_mem_passed sp hx (spread sp .crossed (row v)) w (h.symm ▸ hw)
  have hrow : words sp (row v) = v := words_row hblank fun w hw => (hwords w hw).1
  have hsettled : Settled sp (row v) := ⟨by rw [hrow]; rfl, fun w hw => (hwords w (hrow ▸ hw)).2⟩
  rw [spread_literal hsettled] at h
  exact plain_of_passed hx hnewline h

end ZfsTest.Shell
