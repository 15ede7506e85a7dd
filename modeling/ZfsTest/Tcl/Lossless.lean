import ZfsTest.Tcl.Rejoin

/-!
# When a path that is put together as a list loses nothing

A text of which no character is lost when it is read and joined has single separators, no elements in braces or quotes and no backslash
with something behind it (`tidy_of_length`), and such a text is read without a loss (`parseFrom_of_tidy`). For a path this must hold each
time an entry is added: it is made of its entries if none needs braces and no backslash is in front of the end, and not else
(`rejoinAll_eq_iff`).
-/

namespace ZfsTest.Tcl

/-! ## Tidy texts -/

/-- Single separators between elements, no element in braces or quotes, and no backslash that has something behind it; `front` is whether
an element begins here. -/
def Tidy : Bool → Text → Prop
  | front, [] => front = false
  | true, c :: t => isSpace c = false ∧ c ≠ '{' ∧ c ≠ '"' ∧ (c = '\\' → t = []) ∧ Tidy false t
  | false, c :: t => if isSpace c then Tidy true t else (c = '\\' → t = []) ∧ Tidy false t

theorem tidy_cons (c : Char) (t : Text) :
    Tidy false (c :: t) = if isSpace c then Tidy true t else (c = '\\' → t = []) ∧ Tidy false t := rfl

theorem not_tidy_nil : ¬Tidy true [] := Bool.noConfusion

/-- White space becomes a colon. -/
def colons (t : Text) : Text := t.map fun c => if isSpace c then ':' else c

/-- Bare elements: the text that was read so far is not protected by braces or quotes. -/
inductive Unquoted : Mode → Prop
  | bare (raw : Text) : Unquoted (.bare raw)
  | bareEsc (raw : Text) : Unquoted (.bareEsc raw)
  | blanks (raw : Text) : Unquoted (.blanks raw)

theorem Unquoted.text_eq {m : Mode} (hm : Unquoted m) : m.text = collapse m.raw.reverse := by
  cases hm <;> rfl

theorem Unquoted.next {m m' : Mode} {c : Char} {es : List Text} (hm : Unquoted m) (h : m.next c = some (es, m')) :
    (es = [m.text] ∧ m' = .gap) ∨ (es = [] ∧ m'.raw = c :: m.raw ∧ Unquoted m') := by
  cases hm <;> simp only [Mode.next] at h <;> repeat' split at h
  all_goals cases h
  all_goals first
    | exact Or.inl ⟨rfl, rfl⟩
    | exact Or.inr ⟨rfl, rfl, .bare _⟩
    | exact Or.inr ⟨rfl, rfl, .bareEsc _⟩
    | exact Or.inr ⟨rfl, rfl, .blanks _⟩

/-- What is lost in an element stays lost. -/
theorem parseFrom_lossy {m : Mode} (hm : Unquoted m) (hlost : ∀ w, (collapse (m.raw.reverse ++ w)).length < m.raw.length + w.length)
    {t : Text} {es : List Text} (h : parseFrom m t = some es) (s : Char) : (join s es).length < m.raw.length + t.length := by
  induction t generalizing m es with
  | nil =>
    have htext := hm.text_eq
    have hlen := hlost []
    rw [List.append_nil] at hlen
    cases hm <;> obtain rfl := Option.some_inj.mp h
    all_goals
      rw [join_single]
      exact hlen
  | cons c t ih =>
    rw [parseFrom_cons, Option.bind_eq_some_iff] at h
    obtain ⟨⟨es₁, m'⟩, hnext, h⟩ := h
    obtain ⟨es₂, hrest, rfl⟩ := Option.map_eq_some_iff.mp h
    rcases hm.next hnext with ⟨rfl, rfl⟩ | ⟨rfl, hraw, hm'⟩
    · have hlen := hlost []
      rw [List.append_nil, ← hm.text_eq] at hlen
      have htail := length_join_parseFrom s hrest
      simp only [List.singleton_append, List.length_nil, Nat.add_zero, Mode.raw, Nat.zero_add, List.length_cons] at hlen htail ⊢
      by_cases hes : es₂ = []
      · subst hes
        rw [join_single]
        omega
      · rw [join_cons s _ hes, List.length_append, List.length_cons]
        omega
    · have hlost' : ∀ w, (collapse (m'.raw.reverse ++ w)).length < m'.raw.length + w.length := by
        intro w
        have hlen := hlost (c :: w)
        rw [hraw]
        simp only [List.reverse_cons, List.append_assoc, List.singleton_append, List.length_cons] at hlen ⊢
        omega
      have hlen := ih hm' hlost' hrest
      rw [hraw, List.length_cons] at hlen
      simp only [List.nil_append, List.length_cons] at hlen ⊢
      omega

/-- A backslash with something behind it. -/
theorem parseFrom_escape {raw : Text} (hraw : '\\' ∉ raw) {c : Char} {t : Text} {es : List Text}
    (h : parseFrom (.bareEsc ('\\' :: raw)) (c :: t) = some es) (s : Char) : (join s es).length < raw.length + 1 + (c :: t).length := by
  have hlost : ∀ w, (collapse ((c :: '\\' :: raw).reverse ++ w)).length < (c :: '\\' :: raw).length + w.length := by
    intro w
    have hrev : (c :: '\\' :: raw).reverse ++ w = raw.reverse ++ '\\' :: c :: w := by simp
    have hlen := collapse_length (backslash (c :: w)).2
    have hrest := backslash_length c w
    rw [hrev, collapse_append (by simpa using hraw), collapse_escape]
    simp only [List.length_append, List.length_reverse, List.length_cons]
    omega
  have hshort : (join s es).length < (c :: '\\' :: raw).length + t.length := by
    rw [parseFrom_bareEsc_cons] at h
    split at h
    · exact parseFrom_lossy (.blanks _) hlost h s
    · exact parseFrom_lossy (.bare _) hlost h s
  simp only [List.length_cons] at hshort ⊢
  omega

theorem colons_cons_space {c : Char} (hc : isSpace c = true) (t : Text) : colons (c :: t) = ':' :: colons t := by
  rw [colons, List.map_cons, if_pos hc]
  rfl

theorem colons_cons {c : Char} (hc : isSpace c = false) (t : Text) : colons (c :: t) = c :: colons t := by
  rw [colons, List.map_cons, if_neg (ne_true_of_eq_false hc)]
  rfl

theorem isSpace_backslash : isSpace '\\' = false := rfl

theorem collapse_reverse {raw : Text} (hraw : '\\' ∉ raw) : collapse raw.reverse = raw.reverse :=
  collapseFrom_of_notMem (by simpa using hraw) (Nat.le_refl _)

/-- A backslash that begins an element or is in it, and behind which nothing is lost. -/
theorem tidy_escape {raw t : Text} {es : List Text} (hraw : '\\' ∉ raw) (h : parseFrom (.bareEsc ('\\' :: raw)) t = some es)
    (hlen : (join ':' es).length = raw.length + 1 + t.length) : t = [] ∧ join ':' es = raw.reverse ++ ['\\'] := by
  cases t with
  | nil =>
    obtain rfl := Option.some_inj.mp h
    rw [join_single, List.reverse_cons, collapse_append (by simpa using hraw)]
    exact ⟨rfl, rfl⟩
  | cons c t => exact absurd hlen (Nat.ne_of_lt (parseFrom_escape hraw h ':'))

/-- If nothing is lost, the text is tidy. -/
theorem tidy_of_length {t : Text} : (∀ es, parseFrom .gap t = some es → t ≠ [] → (join ':' es).length = t.length →
      Tidy true t ∧ join ':' es = colons t) ∧
    ∀ raw es, '\\' ∉ raw → parseFrom (.bare raw) t = some es → (join ':' es).length = raw.length + t.length →
      Tidy false t ∧ join ':' es = raw.reverse ++ colons t := by
  induction t with
  | nil =>
    refine ⟨fun es _ hne => absurd rfl hne, fun raw es hraw h _ => ⟨rfl, ?_⟩⟩
    obtain rfl := Option.some_inj.mp h
    rw [join_single, collapse_reverse hraw]
    exact (List.append_nil _).symm
  | cons c t ih =>
    refine ⟨fun es h _ hlen => ?_, fun raw es hraw h hlen => ?_⟩
    · rw [List.length_cons] at hlen
      rw [parseFrom_gap_cons] at h
      split at h
      · -- a second separator is lost
        have hle := length_join_parseFrom ':' h
        simp only [Mode.raw, List.length_nil] at hle
        omega
      · rename_i hspace
        rw [Bool.not_eq_true] at hspace
        split at h
        · have hle := length_join_parseFrom ':' h
          simp only [Mode.raw, List.length_nil] at hle
          omega
        · split at h
          · have hle := length_join_parseFrom ':' h
            simp only [Mode.raw, List.length_nil] at hle
            omega
          · rename_i hbrace hquote
            split at h
            · rename_i hesc
              subst hesc
              have hnil : '\\' ∉ ([] : Text) := List.not_mem_nil
              obtain ⟨rfl, hjoin⟩ := tidy_escape hnil h (by simpa [Nat.add_comm] using hlen)
              exact ⟨⟨hspace, hbrace, hquote, fun _ => rfl, rfl⟩, hjoin⟩
            · rename_i hesc
              obtain ⟨htidy, hjoin⟩ := ih.2 [c] es (by simpa using Ne.symm hesc) h (by simpa [Nat.add_comm] using hlen)
              refine ⟨⟨hspace, hbrace, hquote, fun h => absurd h hesc, htidy⟩, ?_⟩
              rw [hjoin, colons_cons hspace]
              rfl
    · rw [List.length_cons] at hlen
      rw [parseFrom_bare_cons] at h
      split at h
      · rename_i hspace
        obtain ⟨es', hrest, rfl⟩ := Option.map_eq_some_iff.mp h
        rw [collapse_reverse hraw] at hlen ⊢
        by_cases hes : es' = []
        · subst hes
          rw [join_single, List.length_reverse] at hlen
          omega
        · have ht : t ≠ [] := by
            rintro rfl
            exact hes (Option.some_inj.mp hrest).symm
          rw [join_cons ':' _ hes, List.length_append, List.length_cons, List.length_reverse] at hlen
          obtain ⟨htidy, hjoin⟩ := ih.1 es' hrest ht (by omega)
          rw [join_cons ':' _ hes, hjoin, colons_cons_space hspace]
          exact ⟨by rw [tidy_cons, if_pos hspace]; exact htidy, rfl⟩
      · rename_i hspace
        rw [Bool.not_eq_true] at hspace
        have hfalse : ¬isSpace c = true := ne_true_of_eq_false hspace
        split at h
        · rename_i hesc
          subst hesc
          obtain ⟨rfl, hjoin⟩ := tidy_escape hraw h (by omega)
          exact ⟨by rw [tidy_cons, if_neg hfalse]; exact ⟨fun _ => rfl, rfl⟩, hjoin⟩
        · rename_i hesc
          obtain ⟨htidy, hjoin⟩ := ih.2 (c :: raw) es (by simp [hraw, Ne.symm hesc]) h (by rw [List.length_cons]; omega)
          refine ⟨by rw [tidy_cons, if_neg hfalse]; exact ⟨fun h => absurd h hesc, htidy⟩, ?_⟩
          rw [hjoin, colons_cons hspace]
          simp

/-- A tidy text is read without a loss. -/
theorem parseFrom_of_tidy {t : Text} :
    (Tidy true t → ∃ es, parseFrom .gap t = some es ∧ es ≠ [] ∧ join ':' es = colons t) ∧
    ∀ raw, '\\' ∉ raw → Tidy false t → ∃ es, parseFrom (.bare raw) t = some es ∧ es ≠ [] ∧ join ':' es = raw.reverse ++ colons t := by
  induction t with
  | nil =>
    refine ⟨fun h => absurd h not_tidy_nil, fun raw hraw _ => ⟨[raw.reverse], ?_, List.cons_ne_nil _ _, ?_⟩⟩
    · rw [parseFrom_bare_nil, collapse_reverse hraw]
    · rw [join_single]
      exact (List.append_nil _).symm
  | cons c t ih =>
    -- an escape that has nothing behind it
    have hend : ∀ raw, '\\' ∉ raw → ∃ es, parseFrom (.bareEsc ('\\' :: raw)) [] = some es ∧ es ≠ [] ∧
        join ':' es = raw.reverse ++ ['\\'] := by
      intro raw hraw
      refine ⟨_, rfl, List.cons_ne_nil _ _, ?_⟩
      rw [join_single, List.reverse_cons, collapse_append (by simpa using hraw)]
      rfl
    refine ⟨fun h => ?_, fun raw hraw h => ?_⟩
    · obtain ⟨hspace, hbrace, hquote, hesc, htidy⟩ := h
      rw [parseFrom_gap_cons, if_neg (ne_true_of_eq_false hspace), if_neg hbrace, if_neg hquote, colons_cons hspace]
      by_cases hc : c = '\\'
      · subst hc
        obtain rfl := hesc rfl
        exact hend [] List.not_mem_nil
      · rw [if_neg hc]
        exact ih.2 [c] (by simpa using Ne.symm hc) htidy
    · rw [tidy_cons] at h
      rw [parseFrom_bare_cons]
      split at h
      · rename_i hspace
        obtain ⟨es, hparse, hne, hjoin⟩ := ih.1 h
        refine ⟨raw.reverse :: es, ?_, List.cons_ne_nil _ _, ?_⟩
        · rw [if_pos hspace, hparse, collapse_reverse hraw]
          rfl
        · rw [join_cons ':' _ hne, hjoin, colons_cons_space hspace]
      · rename_i hspace
        obtain ⟨hesc, htidy⟩ := h
        rw [if_neg hspace, colons_cons (by simpa using hspace)]
        by_cases hc : c = '\\'
        · subst hc
          obtain rfl := hesc rfl
          exact hend raw hraw
        · obtain ⟨es, hparse, hne, hjoin⟩ := ih.2 (c :: raw) (by simp [hraw, Ne.symm hc]) htidy
          rw [if_neg hc]
          exact ⟨es, hparse, hne, by rw [hjoin]; simp⟩

theorem Tidy.cons {f : Bool} {c : Char} {t : Text} (h : Tidy f (c :: t)) : (c = '\\' → t = []) ∧ ∃ f', Tidy f' t := by
  cases f with
  | false =>
    rw [tidy_cons] at h
    split at h
    · rename_i hc
      refine ⟨?_, true, h⟩
      rintro rfl
      exact absurd hc (ne_true_of_eq_false isSpace_backslash)
    · exact ⟨h.1, false, h.2⟩
  | true => exact ⟨h.2.2.2.1, false, h.2.2.2.2⟩

theorem tidy_behind {f : Bool} {u v : Text} (h : Tidy f (u ++ ' ' :: v)) : '\\' ∉ u ∧ Tidy true v := by
  have hspace : isSpace ' ' = true := rfl
  induction u generalizing f with
  | nil =>
    cases f with
    | false =>
      rw [List.nil_append, tidy_cons, if_pos hspace] at h
      exact ⟨List.not_mem_nil, h⟩
    | true => exact absurd hspace (ne_true_of_eq_false h.1)
  | cons c u ih =>
    obtain ⟨hesc, f', hrest⟩ := h.cons
    obtain ⟨hu, hv⟩ := ih hrest
    have hc : c ≠ '\\' := fun hc => absurd (hesc hc) (by simp)
    exact ⟨by simp [hu, Ne.symm hc], hv⟩

theorem tidy_append {f : Bool} {u v : Text} (hu : Tidy f u) (hesc : '\\' ∉ u) (hv : Tidy true v) : Tidy f (u ++ ' ' :: v) := by
  have hspace : isSpace ' ' = true := rfl
  induction u generalizing f with
  | nil =>
    obtain rfl : f = false := hu
    rw [List.nil_append, tidy_cons, if_pos hspace]
    exact hv
  | cons c u ih =>
    have hc : c ≠ '\\' := fun hc => hesc (hc ▸ List.mem_cons_self)
    have hu' : '\\' ∉ u := fun h => hesc (List.mem_cons_of_mem _ h)
    cases f with
    | false =>
      rw [tidy_cons] at hu
      rw [List.cons_append, tidy_cons]
      split at hu
      · rename_i h
        rw [if_pos h]
        exact ih hu hu'
      · rename_i h
        rw [if_neg h]
        exact ⟨fun h => absurd h hc, ih hu.2 hu'⟩
    | true =>
      obtain ⟨h1, h2, h3, -, h⟩ := hu
      exact ⟨h1, h2, h3, fun h => absurd h hc, ih h hu'⟩

/-- A backslash is at most at the end. -/
theorem tidy_dropLast {f : Bool} {t : Text} (h : Tidy f t) : '\\' ∉ t.dropLast := by
  induction t generalizing f with
  | nil => exact List.not_mem_nil
  | cons c t ih =>
    obtain ⟨hesc, f', hrest⟩ := h.cons
    cases t with
    | nil => exact List.not_mem_nil
    | cons d t =>
      have hc : c ≠ '\\' := fun hc => absurd (hesc hc) (List.cons_ne_nil _ _)
      rw [List.dropLast_cons_cons, List.mem_cons, not_or]
      exact ⟨Ne.symm hc, ih hrest⟩

/-! ## Readable entries -/

/-- An element that needs no braces; backslashes are left out of account. -/
structure Bare (e : Text) : Prop where
  ne_nil : e ≠ []
  head : ∀ c ∈ e.head?, c ≠ '{' ∧ c ≠ '"'
  noSpace : ∀ c ∈ e, isSpace c = false

/-- Entries that need no braces, and no backslash but at the end. -/
structure Readable (es : List Text) : Prop where
  bare : ∀ e ∈ es, Bare e
  noEscape : '\\' ∉ (join ':' es).dropLast

theorem tidy_true_of_false {e : Text} (hne : e ≠ []) (hhead : ∀ c ∈ e.head?, isSpace c = false ∧ c ≠ '{' ∧ c ≠ '"')
    (h : Tidy false e) : Tidy true e := by
  cases e with
  | nil => exact absurd rfl hne
  | cons c t =>
    obtain ⟨h1, h2, h3⟩ := hhead c rfl
    rw [tidy_cons, if_neg (ne_true_of_eq_false h1)] at h
    exact ⟨h1, h2, h3, h⟩

theorem tidy_of_noSpace {e : Text} (hspace : ∀ c ∈ e, isSpace c = false) (hesc : '\\' ∉ e.dropLast) : Tidy false e := by
  induction e with
  | nil => rfl
  | cons c t ih =>
    rw [tidy_cons, if_neg (ne_true_of_eq_false (hspace c List.mem_cons_self))]
    cases t with
    | nil => exact ⟨fun _ => rfl, rfl⟩
    | cons d t =>
      rw [List.dropLast_cons_cons, List.mem_cons, not_or] at hesc
      exact ⟨fun h => absurd h.symm hesc.1, ih (fun c hc => hspace c (List.mem_cons_of_mem _ hc)) hesc.2⟩

theorem Bare.tidy {e : Text} (he : Bare e) (hesc : '\\' ∉ e.dropLast) : Tidy true e :=
  tidy_true_of_false he.ne_nil (fun c hc => ⟨he.noSpace c (List.mem_of_mem_head? hc), he.head c hc⟩) (tidy_of_noSpace he.noSpace hesc)

theorem bare_of_tidy {e : Text} (h : Tidy true e) (hspace : ∀ c ∈ e, isSpace c = false) : Bare e := by
  cases e with
  | nil => exact absurd h not_tidy_nil
  | cons c t =>
    refine ⟨List.cons_ne_nil _ _, fun d hd => ?_, hspace⟩
    obtain rfl : c = d := Option.some_inj.mp hd
    exact ⟨h.2.1, h.2.2.1⟩

theorem mem_join_of_mem {s c : Char} {es : List Text} {e : Text} (he : e ∈ es) (hc : c ∈ e) : c ∈ join s es := by
  induction es with
  | nil => cases he
  | cons e' es ih =>
    by_cases hes : es = []
    · subst hes
      obtain rfl := List.mem_singleton.mp he
      rwa [join_single]
    · rw [join_cons s e' hes, List.mem_append, List.mem_cons]
      rcases List.mem_cons.mp he with rfl | he
      · exact Or.inl hc
      · exact Or.inr (Or.inr (ih he))

theorem bare_join {es : List Text} (hne : es ≠ []) (h : ∀ e ∈ es, Bare e) : Bare (join ':' es) := by
  refine ⟨?_, ?_, fun c hc => ?_⟩
  · obtain ⟨e, hmem⟩ := List.exists_mem_of_ne_nil es hne
    obtain ⟨c, hc⟩ := List.exists_mem_of_ne_nil e (h e hmem).ne_nil
    exact List.ne_nil_of_mem (mem_join_of_mem hmem hc)
  · cases es with
    | nil => exact absurd rfl hne
    | cons e es =>
      obtain ⟨hnil, hhead, -⟩ := h e List.mem_cons_self
      cases e with
      | nil => exact absurd rfl hnil
      | cons c t =>
        by_cases hes : es = []
        · subst hes
          rw [join_single]
          exact hhead
        · rw [join_cons ':' _ hes]
          exact hhead
  · rcases mem_intercalate hc with rfl | ⟨e, he, hce⟩
    · decide
    · exact (h e he).noSpace c hce

theorem dropLast_concat {u e : Text} (he : e ≠ []) : (u ++ ':' :: e).dropLast = u ++ ':' :: e.dropLast := by
  rw [List.dropLast_append_of_ne_nil (List.cons_ne_nil _ _), List.dropLast_cons_of_ne_nil he]

theorem readable_single {e : Text} : Readable [e] ↔ Bare e ∧ '\\' ∉ e.dropLast := by
  constructor
  · rintro ⟨hbare, hesc⟩
    rw [join_single] at hesc
    exact ⟨hbare e List.mem_cons_self, hesc⟩
  · rintro ⟨hbare, hesc⟩
    refine ⟨fun e' he' => List.mem_singleton.mp he' ▸ hbare, ?_⟩
    rwa [join_single]

theorem readable_cons {e : Text} {es : List Text} (hes : es ≠ []) : Readable (e :: es) ↔ Bare e ∧ '\\' ∉ e ∧ Readable es := by
  have hdrop : (∀ e ∈ es, Bare e) → ('\\' ∉ (join ':' (e :: es)).dropLast ↔ '\\' ∉ e ∧ '\\' ∉ (join ':' es).dropLast) := by
    intro hbare
    rw [join_cons ':' e hes, dropLast_concat (bare_join hes hbare).ne_nil, List.mem_append, List.mem_cons, not_or, not_or]
    exact and_congr_right fun _ => ⟨fun h => h.2, fun h => ⟨by decide, h⟩⟩
  constructor
  · rintro ⟨hbare, hesc⟩
    have hrest : ∀ e ∈ es, Bare e := fun e' he' => hbare e' (List.mem_cons_of_mem _ he')
    obtain ⟨he, hesc⟩ := (hdrop hrest).mp hesc
    exact ⟨hbare e List.mem_cons_self, he, hrest, hesc⟩
  · rintro ⟨he, hesc, hread⟩
    exact ⟨List.forall_mem_cons.mpr ⟨he, hread.bare⟩, (hdrop hread.bare).mpr ⟨hesc, hread.noEscape⟩⟩

/-- The same front, with one plain word or another behind it. -/
def Alike (a b : Text) : Prop := a = b ∨ ∃ p v w, a = p ++ v ∧ b = p ++ w ∧ Plain v ∧ Plain w

theorem Alike.symm {a b : Text} (h : Alike a b) : Alike b a := by
  rcases h with rfl | ⟨p, v, w, ha, hb, hv, hw⟩
  · exact Or.inl rfl
  · exact Or.inr ⟨p, w, v, hb, ha, hw, hv⟩

theorem Plain.bare {w : Text} (hw : Plain w) : Bare w := by
  obtain ⟨hne, hc⟩ := hw
  refine ⟨hne, fun c hmem => ?_, fun c hmem => (of_plainChar (hc c hmem)).1⟩
  obtain ⟨-, ho, -, -, -, -, -, hq, -⟩ := of_plainChar (hc c (List.mem_of_mem_head? hmem))
  exact ⟨ho, hq⟩

theorem Alike.bare {a b : Text} (h : Alike a b) (ha : Bare a) : Bare b := by
  rcases h with rfl | ⟨p, v, w, rfl, rfl, -, hw⟩
  · exact ha
  · have hbare := hw.bare
    refine ⟨by simp [hbare.ne_nil], fun c hc => ?_, fun c hc => ?_⟩
    · cases p with
      | nil => exact hbare.head c hc
      | cons d p => exact ha.head c hc
    · rcases List.mem_append.mp hc with hc | hc
      · exact ha.noSpace c (List.mem_append_left _ hc)
      · exact hbare.noSpace c hc

theorem Alike.escape {a b : Text} (h : Alike a b) (ha : '\\' ∉ a) : '\\' ∉ b := by
  rcases h with rfl | ⟨p, v, w, rfl, rfl, -, hw⟩
  · exact ha
  · rw [List.mem_append, not_or] at ha ⊢
    exact ⟨ha.1, hw.backslash_notMem⟩

theorem Alike.escape_dropLast {a b : Text} (h : Alike a b) (ha : '\\' ∉ a.dropLast) : '\\' ∉ b.dropLast := by
  rcases h with rfl | ⟨p, v, w, rfl, rfl, hv, hw⟩
  · exact ha
  · rw [List.dropLast_append_of_ne_nil hv.1, List.mem_append, not_or] at ha
    rw [List.dropLast_append_of_ne_nil hw.1, List.mem_append, not_or]
    exact ⟨ha.1, fun h => hw.backslash_notMem (List.dropLast_subset _ h)⟩

theorem readable_of_alike {ι : Type} {f g : ι → Text} {cs : List ι} (hcs : ∀ c ∈ cs, Alike (f c) (g c)) (h : Readable (cs.map f)) :
    Readable (cs.map g) := by
  induction cs with
  | nil => exact h
  | cons c cs ih =>
    have hc := hcs c List.mem_cons_self
    by_cases hempty : cs = []
    · subst hempty
      obtain ⟨hbare, hesc⟩ := readable_single.mp h
      exact readable_single.mpr ⟨hc.bare hbare, hc.escape_dropLast hesc⟩
    · obtain ⟨hbare, hesc, hrest⟩ := (readable_cons (by simpa using hempty)).mp h
      exact (readable_cons (by simpa using hempty)).mpr
        ⟨hc.bare hbare, hc.escape hesc, ih (fun d hd => hcs d (List.mem_cons_of_mem _ hd)) hrest⟩

theorem colons_of_noSpace {t : Text} (h : ∀ c ∈ t, isSpace c = false) : colons t = t := by
  induction t with
  | nil => rfl
  | cons c t ih => rw [colons_cons (h c List.mem_cons_self), ih fun d hd => h d (List.mem_cons_of_mem _ hd)]

/-- Readable entries are put together to a path of them. -/
theorem rejoinAll_of_readable {es : List Text} (h : Readable es) : rejoinAll es = some (join ':' es) := by
  induction es using List.reverseRecOn with
  | nil => rfl
  | append_singleton es e ih =>
    have he := h.bare e (by simp)
    by_cases hes : es = []
    · subst hes
      have hesc := h.noEscape
      rw [List.nil_append, join_single] at hesc
      obtain ⟨l, hparse, -, hjoin⟩ := parseFrom_of_tidy.1 (he.tidy hesc)
      rw [List.nil_append, rejoinAll_single, join_single, parse, hparse, Option.map_some, hjoin, colons_of_noSpace he.noSpace]
    · have hbare : ∀ e' ∈ es, Bare e' := fun e' he' => h.bare e' (List.mem_append_left _ he')
      have hesc := h.noEscape
      rw [join_concat ':' hes, dropLast_concat he.ne_nil, List.mem_append, List.mem_cons, not_or, not_or] at hesc
      obtain ⟨hfront, -, hend⟩ := hesc
      have hpath := bare_join hes hbare
      have hdrop : '\\' ∉ (join ':' es).dropLast := fun h => hfront (List.dropLast_subset _ h)
      obtain ⟨l, hparse, -, hjoin⟩ := parseFrom_of_tidy.1 (tidy_append (hpath.tidy hdrop) hfront (he.tidy hend))
      rw [rejoinAll_concat, ih ⟨hbare, hdrop⟩, join_concat ':' hes, Option.bind_some, rejoin, parse, hparse, Option.map_some, hjoin]
      simp only [colons, List.map_append, List.map_cons]
      have hmap : ∀ t : Text, (∀ c ∈ t, isSpace c = false) → (t.map fun c => if isSpace c then ':' else c) = t :=
        fun t ht => colons_of_noSpace ht
      rw [hmap _ hpath.noSpace, hmap _ he.noSpace]
      rfl

theorem colons_append (u v : Text) : colons (u ++ ' ' :: v) = colons u ++ ':' :: colons v := by
  rw [colons, List.map_append, List.map_cons]
  rfl

theorem mem_colons {t : Text} : '\\' ∈ colons t ↔ '\\' ∈ t := by
  constructor
  · intro h
    obtain ⟨c, hc, heq⟩ := List.mem_map.mp h
    split at heq
    · cases heq
    · exact heq ▸ hc
  · intro h
    exact List.mem_map.mpr ⟨'\\', h, rfl⟩

theorem isSpace_of_mem_colons {t : Text} {c : Char} (h : c ∈ colons t) : isSpace c = false := by
  obtain ⟨d, -, rfl⟩ := List.mem_map.mp h
  split
  · decide
  · rename_i hd
    simpa using hd

/-- Nothing becomes longer. -/
theorem rejoinAll_length {es : List Text} {r : Text} (h : rejoinAll es = some r) : r.length ≤ (join ':' es).length := by
  induction es using List.reverseRecOn generalizing r with
  | nil =>
    cases h
    exact Nat.le_refl _
  | append_singleton es e ih =>
    by_cases hes : es = []
    · subst hes
      obtain ⟨l, hparse, rfl⟩ := exists_parse_single h
      have hle := length_join_parseFrom ':' hparse
      rw [List.nil_append, join_single]
      simpa [Mode.raw] using hle
    · obtain ⟨acc, l, hacc, hparse, rfl⟩ := exists_parse_concat h
      have hle := length_join_parseFrom ':' hparse
      have hacc := ih hacc
      rw [join_concat ':' hes]
      simp only [Mode.raw, List.length_nil, List.length_append, List.length_cons] at hle ⊢
      omega

/-- A path that is as long as all entries is made of them, but for white space in them. -/
theorem rejoinAll_lossless {es : List Text} (hne : es ≠ []) (hempty : es ≠ [[]]) {r : Text} (h : rejoinAll es = some r)
    (hlen : r.length = (join ':' es).length) :
    r = colons (join ':' es) ∧ (∀ e ∈ es, Tidy true e) ∧ '\\' ∉ (join ':' es).dropLast := by
  induction es using List.reverseRecOn generalizing r with
  | nil => exact absurd rfl hne
  | append_singleton es e ih =>
    by_cases hes : es = []
    · subst hes
      have he : e ≠ [] := by
        rintro rfl
        exact hempty rfl
      obtain ⟨l, hparse, rfl⟩ := exists_parse_single h
      rw [List.nil_append, join_single] at hlen ⊢
      obtain ⟨htidy, hjoin⟩ := tidy_of_length.1 l hparse he hlen
      exact ⟨hjoin, fun e' he' => List.mem_singleton.mp he' ▸ htidy, tidy_dropLast htidy⟩
    · obtain ⟨acc, l, hacc, hparse, rfl⟩ := exists_parse_concat h
      -- no round loses anything
      have hle := length_join_parseFrom ':' hparse
      have hacclen := rejoinAll_length hacc
      rw [join_concat ':' hes] at hlen ⊢
      simp only [Mode.raw, List.length_nil, List.length_append, List.length_cons] at hle hlen
      obtain ⟨htidy, hjoin⟩ := tidy_of_length.1 l hparse (by simp) (by rw [List.length_append, List.length_cons]; omega)
      obtain ⟨hesc, he⟩ := tidy_behind htidy
      have hempty' : es ≠ [[]] := by
        rintro rfl
        obtain rfl : acc = [] := (Option.some_inj.mp hacc).symm
        exact absurd htidy.1 Bool.noConfusion
      obtain ⟨rfl, hall, -⟩ := ih hes hempty' hacc (by omega)
      have hne' : e ≠ [] := by
        rintro rfl
        exact absurd he not_tidy_nil
      refine ⟨?_, ?_, ?_⟩
      · rw [hjoin, colons_append, colons_of_noSpace fun c hc => isSpace_of_mem_colons hc]
        simp only [colons, List.map_append, List.map_cons]
        rfl
      · intro e' he'
        rcases List.mem_append.mp he' with he' | he'
        · exact hall e' he'
        · exact List.mem_singleton.mp he' ▸ he
      · rw [dropLast_concat hne', List.mem_append, List.mem_cons, not_or, not_or]
        exact ⟨fun h => hesc (mem_colons.mpr h), by decide, tidy_dropLast he⟩

/-- The path is made of the entries if they are readable, and not else. -/
theorem rejoinAll_eq_iff {es : List Text} (hempty : es ≠ [[]]) : rejoinAll es = some (join ':' es) ↔ Readable es := by
  refine ⟨fun h => ?_, rejoinAll_of_readable⟩
  by_cases hne : es = []
  · subst hne
    exact ⟨fun e he => absurd he List.not_mem_nil, List.not_mem_nil⟩
  · obtain ⟨hcolons, htidy, hesc⟩ := rejoinAll_lossless hne hempty h rfl
    refine ⟨fun e he => bare_of_tidy (htidy e he) fun c hc => ?_, hesc⟩
    have hmem := mem_join_of_mem (s := ':') he hc
    rw [hcolons] at hmem
    exact isSpace_of_mem_colons hmem

end ZfsTest.Tcl
