import ZfsTest.Stf.Wordset

/-!
# Words deleted from a list and replaced in it

`wordDelete__` and `wordReplace__` take the text apart at the first or the last place of a word and put it together again, without the
word or with another in its place. For the empty list both sides are empty, which the test of the loop takes for a word that stands at
an end: `wordDelete__` stops at the empty list, and `wordReplace__` puts the other word into it (`wordReplace_empty`).
-/

namespace ZfsTest.Stf.Wordset

/-! ## What the operations are for -/

/-- The list without the first or the last place of `w`. -/
def Direction.erase : Direction → List Text → Text → List Text
  | .LR, ws, w => ws.erase w
  | .RL, ws, w => (ws.reverse.erase w).reverse

/-- The list with another word at the first or the last place of a word. -/
def Direction.replace : Direction → List Text → Text × Text → List Text
  | .LR, ws, pair => ws.replace pair.1 pair.2
  | .RL, ws, pair => (ws.reverse.replace pair.1 pair.2).reverse

/-- The place that is taken. -/
def Direction.Splits : Direction → List Text → Text → List Text → List Text → Prop
  | .LR, ws, w, as, bs => ws = as ++ w :: bs ∧ w ∉ as
  | .RL, ws, w, as, bs => ws = as ++ w :: bs ∧ w ∉ bs

theorem Direction.Splits.eq {rllr : Direction} {ws : List Text} {w : Text} {as bs : List Text} (h : rllr.Splits ws w as bs) :
    ws = as ++ w :: bs := by
  cases rllr with
  | LR => exact h.1
  | RL => exact h.1

theorem exists_splits (rllr : Direction) {ws : List Text} {w : Text} (h : w ∈ ws) : ∃ as bs, rllr.Splits ws w as bs := by
  cases rllr with
  | LR =>
    obtain ⟨bs, hsplit, hnot⟩ := split_front h
    exact ⟨_, bs, hsplit, hnot⟩
  | RL =>
    obtain ⟨as, hsplit, hnot⟩ := split_back h
    exact ⟨as, _, hsplit, hnot⟩

theorem erase_append {as bs : List Text} {w : Text} (h : w ∉ as) : (as ++ w :: bs).erase w = as ++ bs := by
  rw [List.erase_append_right _ h, List.erase_cons_head]

theorem replace_append {as bs : List Text} {w v : Text} (h : w ∉ as) : (as ++ w :: bs).replace w v = as ++ v :: bs := by
  rw [List.replace_append_right h, List.replace_cons_self]

theorem Direction.Splits.erase {rllr : Direction} {ws : List Text} {w : Text} {as bs : List Text} (h : rllr.Splits ws w as bs) :
    rllr.erase ws w = as ++ bs := by
  cases rllr with
  | LR =>
    obtain ⟨rfl, hnot⟩ := h
    exact erase_append hnot
  | RL =>
    obtain ⟨rfl, hnot⟩ := h
    show ((as ++ w :: bs).reverse.erase w).reverse = as ++ bs
    rw [List.reverse_append, List.reverse_cons, List.append_assoc, List.singleton_append,
      erase_append fun hmem => hnot (List.mem_reverse.mp hmem), List.reverse_append, List.reverse_reverse, List.reverse_reverse]

theorem Direction.Splits.replace {rllr : Direction} {ws : List Text} {w : Text} {as bs : List Text} (h : rllr.Splits ws w as bs)
    (v : Text) : rllr.replace ws (w, v) = as ++ v :: bs := by
  cases rllr with
  | LR =>
    obtain ⟨rfl, hnot⟩ := h
    exact replace_append hnot
  | RL =>
    obtain ⟨rfl, hnot⟩ := h
    show ((as ++ w :: bs).reverse.replace w v).reverse = as ++ v :: bs
    rw [List.reverse_append, List.reverse_cons, List.append_assoc, List.singleton_append,
      replace_append fun hmem => hnot (List.mem_reverse.mp hmem)]
    simp

theorem erase_notMem (rllr : Direction) {ws : List Text} {w : Text} (h : w ∉ ws) : rllr.erase ws w = ws := by
  cases rllr with
  | LR => exact List.erase_of_not_mem h
  | RL =>
    show (ws.reverse.erase w).reverse = ws
    rw [List.erase_of_not_mem fun hmem => h (List.mem_reverse.mp hmem), List.reverse_reverse]

theorem replace_notMem (rllr : Direction) {ws : List Text} {w : Text} (h : w ∉ ws) (v : Text) : rllr.replace ws (w, v) = ws := by
  cases rllr with
  | LR => exact List.replace_of_not_mem h
  | RL =>
    show (ws.reverse.replace w v).reverse = ws
    rw [List.replace_of_not_mem fun hmem => h (List.mem_reverse.mp hmem), List.reverse_reverse]

/-- The pairs of a list of words, without an odd last word. -/
def twos : List Text → List (Text × Text)
  | w :: v :: ws => (w, v) :: twos ws
  | _ => []

/-! ## One turn -/

section

variable {sep : Char} (sh : Shell) (hsep : ordinary sep = true) (rllr : Direction) {ws : List Text} (hws : ∀ v ∈ ws, Word sep v)
  {w : Text} (hw : Word sep w)

include hsep hws hw

/-- The two sides of the place that is taken. -/
theorem sides_splits {as bs : List Text} (hsplits : rllr.Splits ws w as bs) :
    rllr.left (fits sh sep w) (fenced sep ws) = fronted sep as ∧
      sep :: rllr.right (fits sh sep w) (fenced sep ws) = fenced sep bs := by
  have hwhole : ∀ v ∈ ws, sep ∉ v := fun v hv => (hws v hv).whole
  have hfits := fits_iff sh hsep w
  have hempty : sep ∉ ([] : Text) := List.not_mem_nil
  cases rllr with
  | LR =>
    have hcut := first_fenced hempty hempty hwhole hw.whole hfits hsplits.1 hsplits.2
    rw [List.nil_append, List.nil_append, List.append_nil, List.append_nil] at hcut
    exact hcut
  | RL =>
    have hcut := last_fenced hempty hempty hwhole hw.whole hfits hsplits.1 hsplits.2
    rw [List.nil_append, List.nil_append, List.append_nil, List.append_nil] at hcut
    exact hcut

theorem sides_notMem (hmem : w ∉ ws) :
    rllr.left (fits sh sep w) (fenced sep ws) = fenced sep ws ∧ rllr.right (fits sh sep w) (fenced sep ws) = fenced sep ws := by
  have hempty : sep ∉ ([] : Text) := List.not_mem_nil
  have hcut := cuts_fenced_none hempty hempty (fun v hv => (hws v hv).whole) hw.whole (fits_iff sh hsep w) hmem
  rw [List.nil_append, List.append_nil] at hcut
  cases rllr with
  | LR => exact ⟨hcut.1, hcut.2.2.1⟩
  | RL => exact ⟨hcut.2.1, hcut.2.2.2⟩

/-- The test of the loops holds just for the words of the list. -/
theorem test_iff :
    (rllr.left (fits sh sep w) (fenced sep ws) ≠ rllr.right (fits sh sep w) (fenced sep ws) ∨
      rllr.left (fits sh sep w) (fenced sep ws) = [] ∨ rllr.right (fits sh sep w) (fenced sep ws) = []) ↔ w ∈ ws := by
  constructor
  · intro htest
    by_contra hmem
    obtain ⟨hleft, hright⟩ := sides_notMem sh hsep rllr hws hw hmem
    have hne : fenced sep ws ≠ [] := by
      rw [fenced_eq_cons]
      exact List.cons_ne_nil _ _
    rw [hleft, hright] at htest
    rcases htest with h | h | h
    · exact h rfl
    · exact hne h
    · exact hne h
  · intro hmem
    obtain ⟨as, bs, hsplits⟩ := exists_splits rllr hmem
    obtain ⟨hleft, hright⟩ := sides_splits sh hsep rllr hws hw hsplits
    have hsplit := hsplits.eq
    by_contra hno
    rw [not_or, not_not, hleft] at hno
    have has : as ⊆ ws := fun a ha => by rw [hsplit]; exact List.mem_append_left _ ha
    have hbs : bs ⊆ ws := fun b hb => by rw [hsplit]; exact List.mem_append_right _ (List.mem_cons_of_mem w hb)
    have hsides := sides_ne (h := []) (e := []) hws has hbs (Or.inl rfl) (Or.inl rfl) (Or.inl rfl)
      (hright.trans (List.append_nil _).symm) hno.1
    rw [hsides.1.2, fronted_nil] at hno
    exact hno.2 (Or.inl rfl)

theorem deleteTurn_fenced : deleteTurn sh rllr sep (fenced sep ws) w = fenced sep (rllr.erase ws w) := by
  have htest := test_iff sh hsep rllr hws hw
  unfold deleteTurn
  by_cases hmem : w ∈ ws
  · obtain ⟨as, bs, hsplits⟩ := exists_splits rllr hmem
    obtain ⟨hleft, hright⟩ := sides_splits sh hsep rllr hws hw hsplits
    simp only [if_pos (htest.mpr hmem)]
    rw [hleft, hright, hsplits.erase, fenced_append]
  · simp only [if_neg (htest.not.mpr hmem)]
    rw [erase_notMem rllr hmem]

theorem replaceTurn_fenced (v : Text) : replaceTurn sh rllr sep (fenced sep ws) (w, v) = fenced sep (rllr.replace ws (w, v)) := by
  have htest := test_iff sh hsep rllr hws hw
  unfold replaceTurn
  by_cases hmem : w ∈ ws
  · obtain ⟨as, bs, hsplits⟩ := exists_splits rllr hmem
    obtain ⟨hleft, hright⟩ := sides_splits sh hsep rllr hws hw hsplits
    simp only [if_pos (htest.mpr hmem)]
    rw [hleft, hright, hsplits.replace, fenced_append, fenced_cons]
  · simp only [if_neg (htest.not.mpr hmem)]
    rw [replace_notMem rllr hmem]

end

/-! ## The loops -/

section

variable {sep : Char} (sh : Shell) (hsep : ordinary sep = true) (rllr : Direction)

theorem erase_subset (ws : List Text) (w : Text) : rllr.erase ws w ⊆ ws := by
  cases rllr with
  | LR => exact List.erase_subset
  | RL => exact fun v hv => List.mem_reverse.mp (List.erase_subset (List.mem_reverse.mp hv))

theorem mem_replace {ws : List Text} {pair : Text × Text} {v : Text} (h : v ∈ rllr.replace ws pair) : v ∈ ws ∨ v = pair.2 := by
  by_cases hmem : pair.1 ∈ ws
  · obtain ⟨as, bs, hsplits⟩ := exists_splits rllr hmem
    have hreplace := hsplits.replace pair.2
    rw [hreplace, List.mem_append, List.mem_cons] at h
    rw [hsplits.eq, List.mem_append, List.mem_cons]
    rcases h with h | rfl | h
    · exact Or.inl (Or.inl h)
    · exact Or.inr rfl
    · exact Or.inl (Or.inr (Or.inr h))
  · rw [replace_notMem rllr hmem pair.2] at h
    exact Or.inl h

theorem replace_ne_nil {ws : List Text} (hne : ws ≠ []) (pair : Text × Text) : rllr.replace ws pair ≠ [] := by
  by_cases hmem : pair.1 ∈ ws
  · obtain ⟨as, bs, hsplits⟩ := exists_splits rllr hmem
    have hreplace := hsplits.replace pair.2
    rw [hreplace]
    simp
  · rw [replace_notMem rllr hmem pair.2]
    exact hne

include hsep

theorem wordDelete_value (c : Call sep) :
    wordDelete' sh rllr sep c.value c.given = [sep].intercalate (c.given.foldl rllr.erase c.held) := by
  have hturn : ∀ list ws w, (∀ v ∈ ws, Word sep v) → Word sep w → Row sep list ws → (∀ v ∈ rllr.erase ws w, Word sep v) ∧
      Row sep (if list = [] then list else deleteTurn sh rllr sep list w) (rllr.erase ws w) := by
    intro list ws w hws hw hrow
    refine ⟨fun v hv => hws v (erase_subset rllr ws w hv), ?_⟩
    rcases hrow with rfl | ⟨rfl, rfl⟩
    · have hne : fenced sep ws ≠ [] := by
        rw [fenced_eq_cons]
        exact List.cons_ne_nil _ _
      rw [if_neg hne]
      exact Or.inl (deleteTurn_fenced sh hsep rllr hws hw)
    · rw [if_pos rfl, erase_notMem rllr List.not_mem_nil]
      exact Or.inr ⟨rfl, rfl⟩
  obtain ⟨hws, hrow⟩ := foldl_row hturn c.given_word c.held_word (fetch_row sh hsep c.held_word)
  rw [wordDelete', takeWhile_words c.given_word]
  exact put_row sh hsep hrow hws

omit hsep in
theorem pairs_words {vs : List Text} (hvs : ∀ v ∈ vs, Word sep v) :
    pairs vs = twos vs ∧ ∀ pair ∈ twos vs, Word sep pair.1 ∧ Word sep pair.2 := by
  induction vs using twos.induct with
  | case1 w v vs ih =>
    have hw := hvs w List.mem_cons_self
    have hv := hvs v (List.mem_cons_of_mem w List.mem_cons_self)
    obtain ⟨heq, hall⟩ := ih fun u hu => hvs u (List.mem_cons_of_mem w (List.mem_cons_of_mem v hu))
    rw [pairs, if_neg hw.ne_nil, heq, twos]
    refine ⟨rfl, fun pair hpair => ?_⟩
    rcases List.mem_cons.mp hpair with rfl | hpair
    · exact ⟨hw, hv⟩
    · exact hall pair hpair
  | case2 vs hno =>
    rw [twos, pairs]
    · exact ⟨rfl, fun pair hpair => by cases hpair⟩
    · exact hno
    · exact hno

/-- A list that is not empty, with a separator around each word, stays one. -/
theorem replaceTurns_fenced {ws : List Text} (hws : ∀ v ∈ ws, Word sep v) (hne : ws ≠ []) {bs : List (Text × Text)}
    (hbs : ∀ pair ∈ bs, Word sep pair.1 ∧ Word sep pair.2) :
    ((∀ v ∈ bs.foldl rllr.replace ws, Word sep v) ∧ bs.foldl rllr.replace ws ≠ []) ∧
      bs.foldl (replaceTurn sh rllr sep) (fenced sep ws) = fenced sep (bs.foldl rllr.replace ws) := by
  induction bs generalizing ws with
  | nil => exact ⟨⟨hws, hne⟩, rfl⟩
  | cons pair bs ih =>
    obtain ⟨hw, hv⟩ := hbs pair List.mem_cons_self
    have hnext : ∀ v ∈ rllr.replace ws pair, Word sep v := by
      intro v hmem
      rcases mem_replace rllr hmem with hmem | rfl
      · exact hws v hmem
      · exact hv
    rw [List.foldl_cons, List.foldl_cons, replaceTurn_fenced sh hsep rllr hws hw pair.2]
    exact ih hnext (replace_ne_nil rllr hne pair) fun p hp => hbs p (List.mem_cons_of_mem pair hp)

omit hsep in
/-- The first pair is put into an empty list. -/
theorem replaceTurn_nil (pair : Text × Text) : replaceTurn sh rllr sep [] pair = fenced sep [pair.2] := by
  have hcut : ∀ (is : List Nat) (q : Nat → Bool) (f : Nat → Text), (∀ i, f i = []) → (is.find? q).elim [] f = [] := by
    intro is q f hf
    cases is.find? q with
    | none => rfl
    | some i => exact hf i
  have hleft : rllr.left (fits sh sep pair.1) [] = [] := by
    cases rllr with
    | LR => exact hcut _ _ _ fun i => List.take_nil
    | RL => exact hcut _ _ _ fun i => List.take_nil
  have hright : rllr.right (fits sh sep pair.1) [] = [] := by
    cases rllr with
    | LR => exact hcut _ _ _ fun i => List.drop_nil
    | RL => exact hcut _ _ _ fun i => List.drop_nil
  unfold replaceTurn
  simp only [hleft, hright]
  rw [if_pos (Or.inr (Or.inl trivial)), fenced_cons, fenced_nil, List.nil_append]

/-- In the empty list every pair is put, and none in a list without pairs. -/
theorem wordReplace_empty {vs : List Text} (hvs : ∀ v ∈ vs, Word sep v) :
    wordReplace' sh rllr sep [] vs = [] ↔ vs.length < 2 := by
  obtain ⟨heq, hall⟩ := pairs_words hvs
  have hfetch : fetch sh sep [] = [] := by rw [fetch_value sh hsep, if_pos rfl]
  rw [wordReplace', heq, hfetch]
  cases vs with
  | nil => exact iff_of_true (put_nil sh hsep) (by simp)
  | cons w vs =>
    cases vs with
    | nil => exact iff_of_true (put_nil sh hsep) (by simp)
    | cons v vs =>
      refine iff_of_false ?_ (by simp)
      rw [twos] at hall ⊢
      have hv := (hall _ List.mem_cons_self).2
      have hone : ∀ u ∈ [v], Word sep u := fun u hu => (List.mem_singleton.mp hu) ▸ hv
      obtain ⟨⟨hws, hne⟩, hfold⟩ := replaceTurns_fenced sh hsep rllr hone (List.cons_ne_nil v []) fun pair hpair =>
        hall pair (List.mem_cons_of_mem _ hpair)
      rw [List.foldl_cons, replaceTurn_nil, hfold, put_fenced sh hsep hws]
      obtain ⟨u, us, hlist⟩ := List.exists_cons_of_ne_nil hne
      rw [hlist] at hws ⊢
      rw [intercalate_cons_fronted]
      simp [(hws u List.mem_cons_self).ne_nil]

theorem wordReplace_value (c : Call sep) (hne : c.held ≠ []) :
    wordReplace' sh rllr sep c.value c.given = [sep].intercalate ((twos c.given).foldl rllr.replace c.held) := by
  obtain ⟨heq, hall⟩ := pairs_words c.given_word
  obtain ⟨⟨hws, -⟩, hfold⟩ := replaceTurns_fenced sh hsep rllr c.held_word hne hall
  have hrow : fetch sh sep c.value = fenced sep c.held :=
    (fetch_row sh hsep c.held_word).resolve_right fun hnil => hne hnil.2
  rw [wordReplace', heq, hrow, hfold, put_fenced sh hsep hws]

/-- Words are replaced as they should be, except that an empty list takes the second word of the first pair. -/
theorem wordReplace_iff (c : Call sep) :
    wordReplace' sh rllr sep c.value c.given = [sep].intercalate ((twos c.given).foldl rllr.replace c.held) ↔
      c.held ≠ [] ∨ c.given.length < 2 := by
  by_cases hheld : c.held = []
  · have hspec : (twos c.given).foldl rllr.replace c.held = [] := by
      rw [hheld]
      induction twos c.given with
      | nil => rfl
      | cons pair bs ih =>
        rw [List.foldl_cons, replace_notMem rllr List.not_mem_nil pair.2]
        exact ih
    have hempty := wordReplace_empty sh hsep rllr c.given_word
    have hvalue : c.value = [] := by rw [Call.value, hheld]; rfl
    rw [hspec, hvalue]
    exact hempty.trans ⟨Or.inr, fun hor => hor.resolve_left (not_not.mpr hheld)⟩
  · exact iff_of_true (wordReplace_value sh hsep rllr c hheld) (Or.inl hheld)

end

/-- Deletion takes one place of each word and replacement changes one, for just the separators that stand for themselves; replacement
needs a list that is not empty, or no pair. -/
theorem cut_iff (sep : Char) :
    (∀ (sh : Shell) (c : Call sep),
      (wordDeleteLR_ sh sep c.value c.given = [sep].intercalate (c.given.foldl Direction.LR.erase c.held) ∧
        wordDeleteRL_ sh sep c.value c.given = [sep].intercalate (c.given.foldl Direction.RL.erase c.held)) ∧
      (wordReplaceLR_ sh sep c.value c.given = [sep].intercalate ((twos c.given).foldl Direction.LR.replace c.held) ↔
        c.held ≠ [] ∨ c.given.length < 2) ∧
      (wordReplaceRL_ sh sep c.value c.given = [sep].intercalate ((twos c.given).foldl Direction.RL.replace c.held) ↔
        c.held ≠ [] ∨ c.given.length < 2)) ↔ ordinary sep = true := by
  constructor
  · intro hcut
    by_contra hno
    have hsep : ordinary sep = false := eq_false_of_ne_true hno
    by_cases hany : sep = '?'
    · subst hany
      exact absurd (hcut Shell.silent part).1.1 (by decide)
    · exact put_fetch_ne hsep hany (hcut Shell.silent (single hsep)).1.1
  · exact fun hsep sh c => ⟨⟨wordDelete_value sh hsep .LR c, wordDelete_value sh hsep .RL c⟩, wordReplace_iff sh hsep .LR c,
      wordReplace_iff sh hsep .RL c⟩

/-- A word that is not in the empty list is replaced all the same. -/
theorem replaced_in_empty : wordReplaceLR_ Shell.silent ':' [] [['a'], ['b']] = ['b'] ∧
    [':'].intercalate ((twos [['a'], ['b']]).foldl Direction.LR.replace []) = [] := by decide

end ZfsTest.Stf.Wordset
