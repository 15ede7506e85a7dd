import ZfsTest.Prog.Fold
import ZfsTest.Stf.Wordset

/-!
# Words moved to an end of a list

With `force`, `wordInsert__` and `wordAdd__` move a word that is in the list to its head or tail. They keep what stands in front of the
first place of the word and behind its last, and write the word without its outer separator. So the words between two places of it are
lost, and the next word of the call is glued to it (`insert_glued`, `add_glued`).
-/

namespace ZfsTest.Stf.Wordset

/-! ## The search path -/

/-- `set - ws`. Without words the parameters stay. -/
def setParams (params ws : List Text) : List Text := if ws = [] then params else ws

section

variable (sh : Shell) (isDir : Text → Bool)

/-- The build modes that `pathAmend` collects; `lookup` is what `stf_configlookupmodes` prints. -/
def modelist (lookup : Text → Text → Text) (params : List Text) : Text :=
  (setParams params (split (params.getD 2 []))).foldl
    (fun modelist mode => wordInsert_ sh ' ' modelist (split (lookup "ExecuteToBuildModes".toList mode))) []

def pathAmend (lookup : Text → Text → Text) (path : Text) (params : List Text) : Text :=
  let basedir := params.getD 0 []
  let path := pathInsert_ sh isDir path (split basedir)
  if params.getD 1 [] = "true".toList then path
  else
    (split (modelist sh lookup params)).foldl
      (fun path mode => pathInsert_ sh isDir path (split (basedir ++ '/' :: lookup "BinaryLocation".toList mode))) path

/-- The directories that `pathAmend` puts into the path, in their order. -/
def amended (lookup : Text → Text → Text) (params : List Text) : List Text :=
  split (params.getD 0 []) ++
    if params.getD 1 [] = "true".toList then []
    else (split (modelist sh lookup params)).flatMap fun mode =>
      split (params.getD 0 [] ++ '/' :: lookup "BinaryLocation".toList mode)

end

/-! ## What the operations are for -/

/-- The word once at the head, and all other words. -/
def toHead (ws : List Text) (w : Text) : List Text := w :: ws.filter (· ≠ w)

/-- The word once at the tail, and all other words. -/
def toTail (ws : List Text) (w : Text) : List Text := ws.filter (· ≠ w) ++ [w]

/-- The places of `w` stand together, and a list of nothing but `w` has it once. -/
def Gathered (ws : List Text) (w : Text) : Prop :=
  w ∈ ws → frontOf ws w ++ backOf ws w = ws.filter (· ≠ w) ∧ (ws.filter (· ≠ w) = [] → ws = [w])

/-- Each word is gathered at its turn, and only the last may be in a list that has other words. -/
def Movable (next : List Text → Text → List Text) (ws vs : List Text) : Prop :=
  ∀ us v rest, vs = us ++ v :: rest →
    Gathered (us.foldl next ws) v ∧ (rest = [] ∨ v ∉ us.foldl next ws ∨ us.foldl next ws = [v])

instance (ws : List Text) (w : Text) : Decidable (Gathered ws w) :=
  decidable_of_iff (ws.contains w = true → frontOf ws w ++ backOf ws w = ws.filter (· ≠ w) ∧ (ws.filter (· ≠ w) = [] → ws = [w]))
    (by rw [Gathered, List.contains_iff_mem])

theorem movable_cons {next : List Text → Text → List Text} {ws vs : List Text} {v : Text} :
    Movable next ws (v :: vs) ↔ (Gathered ws v ∧ (vs = [] ∨ v ∉ ws ∨ ws = [v])) ∧ Movable next (next ws v) vs :=
  forall_split_cons (P := fun us u rest =>
    Gathered (us.foldl next ws) u ∧ (rest = [] ∨ u ∉ us.foldl next ws ∨ us.foldl next ws = [u]))

theorem movable_nil {next : List Text → Text → List Text} {ws : List Text} : Movable next ws [] := forall_split_nil

theorem gathered_of_notMem {ws : List Text} {w : Text} (h : w ∉ ws) : Gathered ws w := fun hmem => absurd hmem h

theorem gathered_single (w : Text) : Gathered [w] w := by
  intro _
  simp [frontOf, backOf, List.rtakeWhile]

/-! ## A loop that moves words -/

section

variable {sep : Char}

/-- Loops that are right for a word that is new or alone in the list, right just for gathered words otherwise, and wrong after that. -/
theorem inTurn_iff (next : List Text → Text → List Text) (turn : Text → Text → Text) (put : Text → Text)
    (hkeep : ∀ ws w, (∀ v ∈ ws, Word sep v) → Word sep w → ∀ v ∈ next ws w, Word sep v)
    (hput : ∀ list ws, (∀ v ∈ ws, Word sep v) → Row sep list ws → put list = [sep].intercalate ws)
    (hfree : ∀ list ws w, (∀ v ∈ ws, Word sep v) → Word sep w → Row sep list ws → (w ∉ ws ∨ ws = [w]) →
      Row sep (turn list w) (next ws w))
    (hlast : ∀ list ws w, (∀ v ∈ ws, Word sep v) → Word sep w → Row sep list ws → ¬(w ∉ ws ∨ ws = [w]) →
      (put (turn list w) = [sep].intercalate (next ws w) ↔ Gathered ws w))
    (hglued : ∀ list ws w u, (∀ v ∈ ws, Word sep v) → Word sep w → Word sep u → Row sep list ws → ¬(w ∉ ws ∨ ws = [w]) →
      Gathered ws w → put (turn (turn list w) u) ≠ [sep].intercalate (next (next ws w) u))
    {vs : List Text} (hvs : ∀ v ∈ vs, Word sep v) {list : Text} {ws : List Text} (hws : ∀ v ∈ ws, Word sep v)
    (hrow : Row sep list ws) :
    (∀ us, us <+: vs → put (us.foldl turn list) = [sep].intercalate (us.foldl next ws)) ↔ Movable next ws vs := by
  induction vs generalizing list ws with
  | nil =>
    refine ⟨fun _ => movable_nil, fun _ us hus => ?_⟩
    rw [List.prefix_nil.mp hus]
    exact hput list ws hws hrow
  | cons v vs ih =>
    have hv := hvs v List.mem_cons_self
    have hrest : ∀ u ∈ vs, Word sep u := fun u hu => hvs u (List.mem_cons_of_mem v hu)
    rw [movable_cons]
    by_cases hnew : v ∉ ws ∨ ws = [v]
    · have hgathered : Gathered ws v := by
        rcases hnew with hno | rfl
        · exact gathered_of_notMem hno
        · exact gathered_single v
      have ih' := ih hrest (hkeep ws v hws hv) (hfree list ws v hws hv hrow hnew)
      constructor
      · intro hturn
        refine ⟨⟨hgathered, Or.inr hnew⟩, ih'.mp fun us hus => ?_⟩
        exact hturn (v :: us) (List.cons_prefix_cons.mpr ⟨rfl, hus⟩)
      · rintro ⟨-, hmov⟩ us hus
        rcases List.prefix_cons_iff.mp hus with rfl | ⟨us', rfl, hus'⟩
        · exact hput list ws hws hrow
        · exact ih'.mpr hmov us' hus'
    · have hone := hlast list ws v hws hv hrow hnew
      constructor
      · intro hturn
        have hgathered := hone.mp (hturn [v] (List.cons_prefix_cons.mpr ⟨rfl, List.nil_prefix⟩))
        cases vs with
        | nil => exact ⟨⟨hgathered, Or.inl rfl⟩, movable_nil⟩
        | cons u vs =>
          have htwo := hturn [v, u] (List.cons_prefix_cons.mpr ⟨rfl, List.cons_prefix_cons.mpr ⟨rfl, List.nil_prefix⟩⟩)
          exact absurd htwo (hglued list ws v u hws hv (hrest u List.mem_cons_self) hrow hnew hgathered)
      · rintro ⟨⟨hgathered, hend⟩, -⟩ us hus
        obtain rfl := hend.resolve_right hnew
        rcases List.prefix_cons_iff.mp hus with rfl | ⟨us', rfl, hus'⟩
        · exact hput list ws hws hrow
        · rw [List.prefix_nil.mp hus']
          exact hone.mpr hgathered

theorem words_filter {ws : List Text} (hws : ∀ v ∈ ws, Word sep v) (w : Text) : ∀ v ∈ ws.filter (· ≠ w), Word sep v :=
  fun v hv => hws v (List.mem_of_mem_filter hv)

theorem words_sides {ws : List Text} (hws : ∀ v ∈ ws, Word sep v) (w : Text) : ∀ v ∈ frontOf ws w ++ backOf ws w, Word sep v := by
  intro v hv
  rcases List.mem_append.mp hv with hv | hv
  · exact hws v (frontOf_subset ws w hv)
  · exact hws v (backOf_subset ws w hv)

theorem filter_notMem {ws : List Text} {w : Text} (h : w ∉ ws) : ws.filter (· ≠ w) = ws := by
  rw [List.filter_eq_self]
  intro v hv
  rw [decide_eq_true_eq]
  rintro rfl
  exact h hv

theorem intercalate_inj {vs ws : List Text} (hvs : ∀ v ∈ vs, Word sep v) (hws : ∀ w ∈ ws, Word sep w) :
    [sep].intercalate vs = [sep].intercalate ws ↔ vs = ws :=
  ⟨intercalate_injective (fun v hv => (hvs v hv).cut) fun w hw => (hws w hw).cut, congrArg _⟩

/-- A list with `w` at both its ends and nothing outside is gathered just when it is `[w]`. -/
theorem gathered_ends {ws : List Text} {w : Text} (hmem : w ∈ ws) (hfront : frontOf ws w = []) (hback : backOf ws w = []) :
    Gathered ws w ↔ ws = [w] := by
  constructor
  · intro hgathered
    obtain ⟨hsides, hone⟩ := hgathered hmem
    rw [hfront, hback] at hsides
    exact hone hsides.symm
  · rintro rfl
    exact gathered_single w

/-- Where something stands outside the places of `w`, the words that are kept decide. -/
theorem gathered_sides {ws : List Text} {w : Text} (hmem : w ∈ ws) (hsides : ¬(frontOf ws w = [] ∧ backOf ws w = [])) :
    Gathered ws w ↔ frontOf ws w ++ backOf ws w = ws.filter (· ≠ w) := by
  constructor
  · exact fun hgathered => (hgathered hmem).1
  · intro heq _
    refine ⟨heq, fun hnil => ?_⟩
    rw [hnil, List.append_eq_nil_iff] at heq
    exact absurd heq hsides

/-- A gathered word that is not alone in its list has words at its sides. -/
theorem Gathered.sides {ws : List Text} {w : Text} (h : Gathered ws w) (hmem : w ∈ ws) (hone : ws ≠ [w]) :
    ¬(frontOf ws w = [] ∧ backOf ws w = []) :=
  fun hno => hone ((gathered_ends hmem hno.1 hno.2).mp h)

/-! ## At the head -/

section

variable (sh : Shell) (hsep : ordinary sep = true) {ws : List Text} (hws : ∀ v ∈ ws, Word sep v) {w : Text} (hw : Word sep w)

include hws hw

omit hws hw in
theorem toHead_notMem (h : w ∉ ws) : toHead ws w = w :: ws := by rw [toHead, filter_notMem h]

theorem toHead_words : ∀ v ∈ toHead ws w, Word sep v := words_cons (words_filter hws w) hw

include hsep

/-- A word that is new, or alone in the list. -/
theorem insert_free {list : Text} (hrow : Row sep list ws) (hnew : w ∉ ws ∨ ws = [w]) :
    Row sep (insertTurn sh true sep list w) (toHead ws w) := by
  rcases hrow with rfl | ⟨rfl, rfl⟩
  · rcases hnew with hno | rfl
    · have hturn := insertTurn_notMem sh hsep (Or.inl rfl) (Or.inl rfl) hws hw true hno
      rw [List.nil_append, List.append_nil] at hturn
      rw [hturn, toHead_notMem hno]
      exact Or.inl (fenced_cons w ws).symm
    · have hfront : frontOf [w] w = [] := by simp [frontOf]
      have hback : backOf [w] w = [] := by simp [backOf, List.rtakeWhile]
      have hturn := ((turns_mem sh hsep (Or.inl rfl) (Or.inl rfl) hws hw (Or.inl rfl) List.mem_cons_self).2.1
        ⟨⟨rfl, hfront⟩, hback, rfl⟩).1
      have hhead : toHead [w] w = [w] := by simp [toHead]
      rw [List.nil_append, List.append_nil] at hturn
      rw [hturn, hhead]
      exact Or.inl rfl
  · rw [toHead_notMem List.not_mem_nil]
    refine Or.inl ?_
    rw [insertTurn, if_pos rfl, fenced_cons, fenced_nil]

/-- A word with others at its sides loses its separator. -/
theorem insert_loose (hmem : w ∈ ws) (hsides : ¬(frontOf ws w = [] ∧ backOf ws w = [])) :
    insertTurn sh true sep (fenced sep ws) w = w ++ fenced sep (frontOf ws w ++ backOf ws w) := by
  have hturn := ((turns_mem sh hsep (Or.inl rfl) (Or.inl rfl) hws hw (Or.inl rfl) hmem).2.2
    fun hall => hsides ⟨hall.1.2, hall.2.1⟩).1
  rw [List.nil_append, List.append_nil, List.append_nil, List.append_nil] at hturn
  exact hturn

theorem insert_last {list : Text} (hrow : Row sep list ws) (hnew : ¬(w ∉ ws ∨ ws = [w])) :
    put sh sep (insertTurn sh true sep list w) = [sep].intercalate (toHead ws w) ↔ Gathered ws w := by
  rw [not_or, not_not] at hnew
  obtain ⟨hmem, hone⟩ := hnew
  obtain rfl : list = fenced sep ws := hrow.resolve_right fun hnil => by
    rw [hnil.2] at hmem
    cases hmem
  by_cases hsides : frontOf ws w = [] ∧ backOf ws w = []
  · have hturn := ((turns_mem sh hsep (Or.inl rfl) (Or.inl rfl) hws hw (Or.inl rfl) hmem).2.1
      ⟨⟨rfl, hsides.1⟩, hsides.2, rfl⟩).1
    rw [List.nil_append, List.append_nil] at hturn
    rw [hturn, put_fenced sh hsep hws, intercalate_inj hws (toHead_words hws hw), gathered_ends hmem hsides.1 hsides.2]
    constructor
    · intro hhead
      obtain ⟨as, hsplit, -⟩ := split_back hmem
      rw [hsides.2] at hsplit
      rcases List.eq_nil_or_concat as with rfl | ⟨as, a, rfl⟩
      · exact hsplit
      · -- the last word of the list is `w`, so that it is not among the others
        have hlast := congrArg List.getLast? hhead
        rw [hsplit, List.getLast?_concat, ← hsplit, toHead] at hlast
        cases hrest : ws.filter (· ≠ w) with
        | nil =>
          rw [toHead, hrest] at hhead
          exact hhead
        | cons v vs =>
          rw [hrest, List.getLast?_cons_cons, ← hrest] at hlast
          have hself := List.of_mem_filter (List.mem_of_getLast? hlast.symm)
          simp at hself
    · exact fun hself => absurd hself hone
  · rw [insert_loose sh hsep hws hw hmem hsides, put_head sh hsep hw (words_sides hws w),
      intercalate_inj (words_cons (words_sides hws w) hw) (toHead_words hws hw), gathered_sides hmem hsides, toHead, List.cons.injEq]
    exact and_iff_right rfl

/-- The next word of the call is glued to a word that has been moved. -/
theorem insert_glued {list u : Text} (hu : Word sep u) (hrow : Row sep list ws) (hnew : ¬(w ∉ ws ∨ ws = [w])) (hgathered : Gathered ws w) :
    put sh sep (insertTurn sh true sep (insertTurn sh true sep list w) u) ≠ [sep].intercalate (toHead (toHead ws w) u) := by
  rw [not_or, not_not] at hnew
  obtain ⟨hmem, hone⟩ := hnew
  obtain rfl : list = fenced sep ws := hrow.resolve_right fun hnil => by
    rw [hnil.2] at hmem
    cases hmem
  rw [insert_loose sh hsep hws hw hmem (hgathered.sides hmem hone)]
  have hrest := words_sides hws w
  generalize frontOf ws w ++ backOf ws w = rest at hrest
  have hspec : ∀ v ∈ toHead (toHead ws w) u, Word sep v := toHead_words (toHead_words hws hw) hu
  -- the text of the glued words, with what is left of the list
  obtain ⟨vs, hvs, hput⟩ : ∃ vs, (∀ v ∈ vs, Word sep v) ∧
      put sh sep (insertTurn sh true sep (w ++ fenced sep rest) u) = [sep].intercalate ((u ++ w) :: vs) := by
    by_cases hin : u ∈ rest
    · have hturn := ((turns_mem sh hsep (Or.inr hw) (Or.inl rfl) hrest hu (Or.inr rfl) hin).2.2
        fun hall => hw.ne_nil hall.1.1).1
      rw [List.append_nil, List.append_nil] at hturn
      rw [hturn]
      exact ⟨_, words_sides hrest u, put_head sh hsep (hu.append hw) (words_sides hrest u)⟩
    · have hturn := insertTurn_notMem sh hsep (Or.inr hw) (Or.inl rfl) hrest hu true hin
      rw [List.append_nil, ← List.append_assoc, ← fenced_cons] at hturn
      rw [hturn]
      exact ⟨rest, hrest, put_fenced sh hsep (words_cons hrest (hu.append hw))⟩
  rw [hput, Ne, intercalate_inj (words_cons hvs (hu.append hw)) hspec, toHead, List.cons.injEq]
  rintro ⟨hglue, -⟩
  exact hw.ne_nil (List.append_right_eq_self.mp hglue)

end

/-! ## At the tail -/

section

variable (sh : Shell) (hsep : ordinary sep = true) {ws : List Text} (hws : ∀ v ∈ ws, Word sep v) {w : Text} (hw : Word sep w)

include hws hw

omit hws hw in
theorem toTail_notMem (h : w ∉ ws) : toTail ws w = ws ++ [w] := by rw [toTail, filter_notMem h]

theorem toTail_words : ∀ v ∈ toTail ws w, Word sep v := words_snoc (words_filter hws w) hw

include hsep

theorem add_free {list : Text} (hrow : Row sep list ws) (hnew : w ∉ ws ∨ ws = [w]) :
    Row sep (addTurn sh true sep list w) (toTail ws w) := by
  rcases hrow with rfl | ⟨rfl, rfl⟩
  · rcases hnew with hno | rfl
    · have hturn := addTurn_notMem sh hsep (Or.inl rfl) (Or.inl rfl) hws hw true hno
      rw [List.nil_append, List.append_nil] at hturn
      rw [hturn, toTail_notMem hno]
      refine Or.inl ?_
      rw [fenced_append, fenced_cons, fenced_nil, fenced, List.append_assoc]
      rfl
    · have hfront : frontOf [w] w = [] := by simp [frontOf]
      have hback : backOf [w] w = [] := by simp [backOf, List.rtakeWhile]
      have hturn := ((turns_mem sh hsep (Or.inl rfl) (Or.inl rfl) hws hw (Or.inl rfl) List.mem_cons_self).2.1
        ⟨⟨rfl, hfront⟩, hback, rfl⟩).2
      have htail : toTail [w] w = [w] := by simp [toTail]
      rw [List.nil_append, List.append_nil] at hturn
      rw [hturn, htail]
      exact Or.inl rfl
  · rw [toTail_notMem List.not_mem_nil]
    refine Or.inl ?_
    rw [addTurn, if_pos rfl, List.nil_append, fenced_cons, fenced_nil]

theorem add_loose (hmem : w ∈ ws) (hsides : ¬(frontOf ws w = [] ∧ backOf ws w = [])) :
    addTurn sh true sep (fenced sep ws) w = fenced sep (frontOf ws w ++ backOf ws w) ++ w := by
  have hturn := ((turns_mem sh hsep (Or.inl rfl) (Or.inl rfl) hws hw (Or.inl rfl) hmem).2.2
    fun hall => hsides ⟨hall.1.2, hall.2.1⟩).2
  rw [List.nil_append, List.nil_append, List.append_nil, List.nil_append] at hturn
  exact hturn

theorem add_last {list : Text} (hrow : Row sep list ws) (hnew : ¬(w ∉ ws ∨ ws = [w])) :
    put sh sep (addTurn sh true sep list w) = [sep].intercalate (toTail ws w) ↔ Gathered ws w := by
  rw [not_or, not_not] at hnew
  obtain ⟨hmem, hone⟩ := hnew
  obtain rfl : list = fenced sep ws := hrow.resolve_right fun hnil => by
    rw [hnil.2] at hmem
    cases hmem
  by_cases hsides : frontOf ws w = [] ∧ backOf ws w = []
  · have hturn := ((turns_mem sh hsep (Or.inl rfl) (Or.inl rfl) hws hw (Or.inl rfl) hmem).2.1
      ⟨⟨rfl, hsides.1⟩, hsides.2, rfl⟩).2
    rw [List.nil_append, List.append_nil] at hturn
    rw [hturn, put_fenced sh hsep hws, intercalate_inj hws (toTail_words hws hw), gathered_ends hmem hsides.1 hsides.2]
    constructor
    · intro htail
      obtain ⟨bs, hsplit, -⟩ := split_front hmem
      rw [hsides.1, List.nil_append] at hsplit
      cases hrest : ws.filter (· ≠ w) with
      | nil =>
        rw [toTail, hrest] at htail
        exact htail
      | cons v vs =>
        -- the first word of the list is `w`, so that it is not among the others
        have hhead := htail
        rw [toTail, hrest, hsplit, List.cons_append, List.cons.injEq] at hhead
        have hself : v ∈ ws.filter (· ≠ w) := hrest ▸ List.mem_cons_self
        rw [← hhead.1] at hself
        have hne := List.of_mem_filter hself
        simp at hne
    · exact fun hself => absurd hself hone
  · rw [add_loose sh hsep hws hw hmem hsides, put_tail sh hsep hw (words_sides hws w),
      intercalate_inj (words_snoc (words_sides hws w) hw) (toTail_words hws hw), gathered_sides hmem hsides, toTail]
    exact ⟨List.append_cancel_right, congrArg (· ++ [w])⟩

theorem add_glued {list u : Text} (hu : Word sep u) (hrow : Row sep list ws) (hnew : ¬(w ∉ ws ∨ ws = [w])) (hgathered : Gathered ws w) :
    put sh sep (addTurn sh true sep (addTurn sh true sep list w) u) ≠ [sep].intercalate (toTail (toTail ws w) u) := by
  rw [not_or, not_not] at hnew
  obtain ⟨hmem, hone⟩ := hnew
  obtain rfl : list = fenced sep ws := hrow.resolve_right fun hnil => by
    rw [hnil.2] at hmem
    cases hmem
  rw [add_loose sh hsep hws hw hmem (hgathered.sides hmem hone)]
  have hrest := words_sides hws w
  generalize frontOf ws w ++ backOf ws w = rest at hrest
  have hspec : ∀ v ∈ toTail (toTail ws w) u, Word sep v := toTail_words (toTail_words hws hw) hu
  obtain ⟨vs, hvs, hput⟩ : ∃ vs, (∀ v ∈ vs, Word sep v) ∧
      put sh sep (addTurn sh true sep (fenced sep rest ++ w) u) = [sep].intercalate (vs ++ [w ++ u]) := by
    by_cases hin : u ∈ rest
    · have hturn := ((turns_mem sh hsep (Or.inl rfl) (Or.inr hw) hrest hu (Or.inl rfl) hin).2.2
        fun hall => hw.ne_nil hall.2.2).2
      rw [List.nil_append, List.nil_append] at hturn
      rw [hturn]
      exact ⟨_, words_sides hrest u, put_tail sh hsep (hw.append hu) (words_sides hrest u)⟩
    · have hturn := addTurn_notMem sh hsep (Or.inl rfl) (Or.inr hw) hrest hu true hin
      have hglue : fenced sep rest ++ w ++ (u ++ [sep]) = fenced sep (rest ++ [w ++ u]) := by
        rw [fenced_append, fenced_cons, fenced_nil, fenced]
        simp
      rw [List.nil_append, hglue] at hturn
      rw [hturn]
      exact ⟨rest, hrest, put_fenced sh hsep (words_snoc hrest (hw.append hu))⟩
  rw [hput, Ne, intercalate_inj (words_snoc hvs (hw.append hu)) hspec, toTail]
  intro hglue
  have hlast := congrArg List.getLast? hglue
  rw [List.getLast?_concat, List.getLast?_concat, Option.some.injEq] at hlast
  exact hw.ne_nil (List.append_left_eq_self.mp hlast)

end

end

/-! ## The operations -/

/-- After each word of a call the list is the one that the words up to it stand for. -/
def Moves {sep : Char} (op : Text → List Text → Text) (next : List Text → Text → List Text) (c : Call sep) : Prop :=
  ∀ us, us <+: c.given → op c.value us = [sep].intercalate (us.foldl next c.held)

section

variable {sep : Char} (sh : Shell) (hsep : ordinary sep = true)

theorem takeWhile_prefix (c : Call sep) {us : List Text} (hus : us <+: c.given) : us.takeWhile (· ≠ []) = us :=
  takeWhile_words fun u hu => c.given_word u (hus.subset hu)

include hsep

/-- `forceWordInsert_` moves each word to the head just for calls that are movable. -/
theorem forceWordInsert_moves (c : Call sep) : Moves (forceWordInsert_ sh sep) toHead c ↔ Movable toHead c.held c.given := by
  have hiff := inTurn_iff toHead (insertTurn sh true sep) (put sh sep)
    (fun ws w hws hw => toHead_words hws hw) (fun list ws hws hrow => put_row sh hsep hrow hws)
    (fun list ws w hws hw hrow hnew => insert_free sh hsep hws hw hrow hnew)
    (fun list ws w hws hw hrow hnew => insert_last sh hsep hws hw hrow hnew)
    (fun list ws w u hws hw hu hrow hnew hg => insert_glued sh hsep hws hw hu hrow hnew hg)
    c.given_word c.held_word (fetch_row sh hsep c.held_word)
  rw [← hiff]
  refine forall_congr' fun us => forall_congr' fun hus => ?_
  rw [forceWordInsert_, wordInsert', takeWhile_prefix c hus]
  rfl

/-- `forceWordAdd_` moves each word to the tail just for calls that are movable. -/
theorem forceWordAdd_moves (c : Call sep) : Moves (forceWordAdd_ sh sep) toTail c ↔ Movable toTail c.held c.given := by
  have hiff := inTurn_iff toTail (addTurn sh true sep) (put sh sep)
    (fun ws w hws hw => toTail_words hws hw) (fun list ws hws hrow => put_row sh hsep hrow hws)
    (fun list ws w hws hw hrow hnew => add_free sh hsep hws hw hrow hnew)
    (fun list ws w hws hw hrow hnew => add_last sh hsep hws hw hrow hnew)
    (fun list ws w u hws hw hu hrow hnew hg => add_glued sh hsep hws hw hu hrow hnew hg)
    c.given_word c.held_word (fetch_row sh hsep c.held_word)
  rw [← hiff]
  refine forall_congr' fun us => forall_congr' fun hus => ?_
  rw [forceWordAdd_, wordAdd', takeWhile_prefix c hus]
  rfl

/-- A call with one word. -/
theorem forceWordInsert_one {ws : List Text} (hws : ∀ v ∈ ws, Word sep v) {w : Text} (hw : Word sep w) :
    forceWordInsert_ sh sep ([sep].intercalate ws) [w] = [sep].intercalate (toHead ws w) ↔ Gathered ws w := by
  have hrow := fetch_row sh hsep hws
  have hcall : forceWordInsert_ sh sep ([sep].intercalate ws) [w] =
      put sh sep (insertTurn sh true sep (fetch sh sep ([sep].intercalate ws)) w) := by
    rw [forceWordInsert_, wordInsert', takeWhile_cons_word hw.ne_nil]
    rfl
  rw [hcall]
  by_cases hnew : w ∉ ws ∨ ws = [w]
  · have hgathered : Gathered ws w := by
      rcases hnew with hno | rfl
      · exact gathered_of_notMem hno
      · exact gathered_single w
    have hput := put_row sh hsep (insert_free sh hsep hws hw hrow hnew) (toHead_words hws hw)
    exact iff_of_true hput hgathered
  · exact insert_last sh hsep hws hw hrow hnew

end

/-! ## Paths -/

/-- A directory is moved to the head. -/
def toHeadDir (isDir : Text → Bool) (ws : List Text) (w : Text) : List Text := if isDir w then toHead ws w else ws

/-- Each directory is gathered at its turn. -/
def Collected (isDir : Text → Bool) (ws vs : List Text) : Prop :=
  ∀ us v rest, vs = us ++ v :: rest → isDir v = true → Gathered (us.foldl (toHeadDir isDir) ws) v

section

variable (sh : Shell) (isDir : Text → Bool)

theorem collected_cons {ws vs : List Text} {v : Text} :
    Collected isDir ws (v :: vs) ↔ (isDir v = true → Gathered ws v) ∧ Collected isDir (toHeadDir isDir ws v) vs :=
  forall_split_cons (P := fun us u _ => isDir u = true → Gathered (us.foldl (toHeadDir isDir) ws) u)

theorem pathInsert_cons {value w : Text} (hw : w ≠ []) (us : List Text) :
    pathInsert_ sh isDir value (w :: us) = pathInsert_ sh isDir (pathInsert_ sh isDir value [w]) us := by
  unfold pathInsert_
  rw [takeWhile_cons_word hw, takeWhile_cons_word hw]
  rfl

theorem pathInsert_append {value : Text} {ws : List Text} (hws : ∀ w ∈ ws, w ≠ []) (us : List Text) :
    pathInsert_ sh isDir value (ws ++ us) = pathInsert_ sh isDir (pathInsert_ sh isDir value ws) us := by
  induction ws generalizing value with
  | nil => rfl
  | cons w ws ih =>
    have hw := hws w List.mem_cons_self
    rw [List.cons_append, pathInsert_cons sh isDir hw, ih fun v hv => hws v (List.mem_cons_of_mem w hv),
      pathInsert_cons sh isDir hw ws]

/-- A call of `pathInsert_` with one word. -/
theorem pathInsert_one {ws : List Text} (hws : ∀ v ∈ ws, Word ':' v) {w : Text} (hw : Word ':' w) :
    pathInsert_ sh isDir ([':'].intercalate ws) [w] = [':'].intercalate (toHeadDir isDir ws w) ↔
      (isDir w = true → Gathered ws w) := by
  have hcall : pathInsert_ sh isDir ([':'].intercalate ws) [w] =
      if isDir w then forceWordInsert_ sh ':' ([':'].intercalate ws) [w] else [':'].intercalate ws := by
    unfold pathInsert_
    rw [takeWhile_cons_word hw.ne_nil]
    rfl
  rw [hcall, toHeadDir]
  by_cases hdir : isDir w = true
  · rw [if_pos hdir, if_pos hdir, forceWordInsert_one sh rfl hws hw]
    exact ⟨fun hg _ => hg, fun hg => hg hdir⟩
  · rw [if_neg hdir, if_neg hdir]
    exact iff_of_true rfl fun hyes => absurd hyes hdir

theorem pathInsert_moves {vs : List Text} (hvs : ∀ v ∈ vs, Word ':' v) {ws : List Text} (hws : ∀ w ∈ ws, Word ':' w) :
    (∀ us, us <+: vs → pathInsert_ sh isDir ([':'].intercalate ws) us = [':'].intercalate (us.foldl (toHeadDir isDir) ws)) ↔
      Collected isDir ws vs := by
  induction vs generalizing ws with
  | nil =>
    constructor
    · exact fun _ => forall_split_nil
    · intro _ us hus
      rw [List.prefix_nil.mp hus]
      rfl
  | cons v vs ih =>
    have hv := hvs v List.mem_cons_self
    have hrest : ∀ u ∈ vs, Word ':' u := fun u hu => hvs u (List.mem_cons_of_mem v hu)
    have hnext : ∀ w ∈ toHeadDir isDir ws v, Word ':' w := by
      unfold toHeadDir
      split
      · exact toHead_words hws hv
      · exact hws
    have hone := pathInsert_one sh isDir hws hv
    rw [collected_cons, ← ih hrest hnext]
    constructor
    · intro hturn
      have hfirst : pathInsert_ sh isDir ([':'].intercalate ws) [v] = [':'].intercalate (toHeadDir isDir ws v) :=
        hturn [v] (List.cons_prefix_cons.mpr ⟨rfl, List.nil_prefix⟩)
      refine ⟨hone.mp hfirst, fun us hus => ?_⟩
      rw [← hfirst, ← pathInsert_cons sh isDir hv.ne_nil]
      exact hturn (v :: us) (List.cons_prefix_cons.mpr ⟨rfl, hus⟩)
    · rintro ⟨hgathered, hturn⟩ us hus
      rcases List.prefix_cons_iff.mp hus with rfl | ⟨us', rfl, hus'⟩
      · rfl
      · rw [pathInsert_cons sh isDir hv.ne_nil, hone.mpr hgathered]
        exact hturn us' hus'

/-- `pathAmend` puts its directories into the path as `pathInsert_` does. -/
theorem pathAmend_eq (lookup : Text → Text → Text) (path : Text) (params : List Text) :
    pathAmend sh isDir lookup path params = pathInsert_ sh isDir path (amended sh lookup params) := by
  have hsplit : ∀ t : Text, ∀ w ∈ split t, w ≠ [] := fun t w hw => ne_nil_of_mem_words hw
  have hfold : ∀ (modes : List Text) (dir : Text → Text) (path : Text),
      modes.foldl (fun path mode => pathInsert_ sh isDir path (split (dir mode))) path =
        pathInsert_ sh isDir path (modes.flatMap fun mode => split (dir mode)) := by
    intro modes dir path
    induction modes generalizing path with
    | nil => rfl
    | cons mode modes ih => rw [List.foldl_cons, ih, List.flatMap_cons, pathInsert_append sh isDir (hsplit (dir mode))]
  unfold pathAmend amended
  rw [pathInsert_append sh isDir (hsplit _)]
  split
  · rfl
  · exact hfold _ _ _

end

/-- Forced insertion is right for just the calls that are movable, in lists with a separator that stands for itself; a path only needs
directories that are gathered, since each has a call of its own. -/
theorem force_iff (sep : Char) :
    ((∀ (sh : Shell) (c : Call sep),
      (Moves (forceWordInsert_ sh sep) toHead c ↔ Movable toHead c.held c.given) ∧
        (Moves (forceWordAdd_ sh sep) toTail c ↔ Movable toTail c.held c.given)) ↔ ordinary sep = true) ∧
    (∀ (sh : Shell) (isDir : Text → Bool) (c : Call ':'),
      Moves (pathInsert_ sh isDir) (toHeadDir isDir) c ↔ Collected isDir c.held c.given) ∧
    ∀ (sh : Shell) (isDir : Text → Bool) (lookup : Text → Text → Text) (path : Text) (params : List Text),
      pathAmend sh isDir lookup path params = pathInsert_ sh isDir path (amended sh lookup params) := by
  refine ⟨⟨fun hmoves => ?_, fun hsep sh c => ⟨forceWordInsert_moves sh hsep c, forceWordAdd_moves sh hsep c⟩⟩,
    fun sh isDir c => pathInsert_moves sh isDir c.given_word c.held_word, pathAmend_eq⟩
  by_contra hno
  have hsep : ordinary sep = false := eq_false_of_ne_true hno
  by_cases hany : sep = '?'
  · subst hany
    have hmov : Movable toHead part.held part.given := movable_cons.mpr
      ⟨⟨gathered_of_notMem (by decide), Or.inl rfl⟩, movable_nil⟩
    exact absurd ((hmoves Shell.silent part).1.mpr hmov part.given List.prefix_rfl) (by decide)
  · exact put_fetch_ne hsep hany ((hmoves Shell.silent (single hsep)).1.mpr movable_nil [] List.nil_prefix)

/-- The first word is moved, and the second is glued to it; a list with a word at both its ends keeps both, and words in between are lost. -/
theorem forced_lists :
    forceWordInsert_ Shell.silent ':' "a:b:c".toList ["b".toList, "d".toList] = "db:a:c".toList ∧
    forceWordAdd_ Shell.silent ':' "a:b:c".toList ["b".toList, "d".toList] = "a:c:bd".toList ∧
    forceWordInsert_ Shell.silent ':' "x:a:b:a:y".toList ["a".toList] = "a:x:y".toList ∧
    pathInsert_ Shell.silent (fun _ => true) "a:b:a".toList ["a".toList] = "a:b:a".toList ∧
    [':'].intercalate (["a".toList].foldl toHead ["a".toList, "b".toList, "a".toList]) = "a:b".toList := by decide

end ZfsTest.Stf.Wordset
