import Mathlib.Data.List.Induction
import ZfsTest.Tcl.Reader
import ZfsTest.Text.Separated

/-!
# A path that is put together as a list

A text grows by one entry at a time: the text and the entry, with a blank between them, are read as a list, and the elements are joined
with colons (`rejoinAll`).

Entries may have a word at their end where the path should have another part (`Entry`). The word is kept each time, and the texts before,
between and behind the words do not become longer (`Marked`, `marked_rejoinAll`). As a word does not reach over a separator, a path that is
as it should be has the parts that it should have, so there are no other words (`join_eq_of_rejoinAll`).
-/

namespace ZfsTest.Tcl

/-- `[join "$acc $e" ":"]`. -/
def rejoin (acc e : Text) : Option Text := (parse (acc ++ ' ' :: e)).map (join ':')

/-- All entries, from the empty text. -/
def rejoinAll (es : List Text) : Option Text := es.foldlM rejoin []

theorem rejoinAll_concat (es : List Text) (e : Text) : rejoinAll (es ++ [e]) = (rejoinAll es).bind fun acc => rejoin acc e := by
  rw [rejoinAll, List.foldlM_append]
  cases h : es.foldlM rejoin [] with
  | none => simp [rejoinAll, h]
  | some acc => simp [rejoinAll, h]

theorem rejoinAll_single (e : Text) : rejoinAll [e] = (parse e).map (join ':') := by
  have h := rejoinAll_concat [] e
  rw [List.nil_append] at h
  rw [h]
  rfl

theorem exists_parse_single {e r : Text} (h : rejoinAll [e] = some r) : ∃ l, parse e = some l ∧ join ':' l = r := by
  rw [rejoinAll_single] at h
  exact Option.map_eq_some_iff.mp h

theorem exists_parse_concat {es : List Text} {e r : Text} (h : rejoinAll (es ++ [e]) = some r) :
    ∃ acc l, rejoinAll es = some acc ∧ parse (acc ++ ' ' :: e) = some l ∧ join ':' l = r := by
  rw [rejoinAll_concat, Option.bind_eq_some_iff] at h
  obtain ⟨acc, hacc, h⟩ := h
  obtain ⟨l, hparse, hjoin⟩ := Option.map_eq_some_iff.mp h
  exact ⟨acc, l, hacc, hparse, hjoin⟩

theorem join_concat (s : Char) {es : List Text} (h : es ≠ []) (e : Text) : join s (es ++ [e]) = join s es ++ s :: e := by
  rw [join, intercalate_append h (List.cons_ne_nil _ _), List.intercalate_singleton]
  rfl

/-! ## Words that are kept -/

/-- The characters that the entries of a path and their parts are separated by. -/
def Stop (c : Char) : Prop := c = '/' ∨ c = ':'

theorem Stop.breaker {c : Char} (hc : Stop c) : Breaker c := hc.elim Or.inl fun h => Or.inr (Or.inl h)

def Opens (t : Text) : Prop := ∃ c u, t = c :: u ∧ Stop c

def Closes (t : Text) : Prop := ∃ u c, t = u ++ [c] ∧ Stop c

/-- `Marked w first F E S`: where `S` has the word `w`, `E` has parts without separators, and `F` has the word; the texts before, between
and behind the words are the same in `E` and `S`, and not longer in `F`. `first` is whether the front of a path is meant. -/
inductive Marked (w : Text) : Bool → Text → Text → Text → Prop
  | done {first : Bool} {g M : Text} (hle : g.length ≤ M.length) (hM : first = true ∨ M = [] ∨ Opens M) : Marked w first g M M
  | word {first : Bool} {g M el F E S : Text} (hle : g.length ≤ M.length) (hg : Ends g ∨ first = true ∧ g = [])
      (hM : first = true ∨ Opens M) (hclose : Closes M ∨ first = true ∧ M = []) (hel : ∀ c ∈ el, ¬Stop c) (h : Marked w false F E S) :
      Marked w first (g ++ (w ++ F)) (M ++ (el ++ E)) (M ++ (w ++ S))

variable {w F E S : Text} {first : Bool}

theorem Marked.nil (w : Text) : Marked w false [] [] [] := .done (Nat.le_refl _) (Or.inr (Or.inl rfl))

theorem Opens.append {t : Text} (ht : Opens t) (u : Text) : Opens (t ++ u) := by
  obtain ⟨c, v, rfl, hc⟩ := ht
  exact ⟨c, v ++ u, rfl, hc⟩

theorem Marked.opens (h : Marked w first F E S) (hf : first = false) : E = [] ∨ Opens E := by
  subst hf
  cases h with
  | done hle hM => exact hM.resolve_left Bool.false_ne_true
  | word hle hg hM hclose hel h => exact Or.inr ((hM.resolve_left Bool.false_ne_true).append _)

/-- A word without separators does not reach over a separator. -/
theorem length_le_of_stop {g h u v : Text} {c : Char} (hw : ∀ c ∈ w, ¬Stop c) (hc : Stop c) (heq : g ++ (w ++ u) = h ++ c :: v)
    (hle : g.length ≤ h.length) : g.length + w.length ≤ h.length := by
  by_contra hlt
  have hget := congrArg (fun t : Text => t[h.length]?) heq
  simp only [List.getElem?_append_right (Nat.le_refl _), Nat.sub_self, List.getElem?_cons_zero] at hget
  rw [List.getElem?_append_right hle, List.getElem?_append_left (by omega)] at hget
  exact hw c (List.mem_of_getElem? hget) hc

/-- Where `F` is `E` the words are what `E` has in their place. -/
theorem Marked.eq_of_eq (hw : ∀ c ∈ w, ¬Stop c) (h : Marked w first F E S) {d : Text} (hF : F = d ++ E)
    (hd : first = true → d = []) : d = [] ∧ S = E := by
  induction h generalizing d with
  | done hle hM =>
    have hlen := congrArg List.length hF
    rw [List.length_append] at hlen
    exact ⟨List.length_eq_zero_iff.mp (by omega), rfl⟩
  | @word first g M el F E S hle hg hM hclose hel h ih =>
    have hrest : ∀ {u v : Text}, u ++ F = v ++ E → u.length ≤ v.length → u = v ∧ S = E := by
      intro u v heq huv
      obtain ⟨d', rfl, hF'⟩ | ⟨d', rfl, hE⟩ := List.append_eq_append_iff.mp heq
      · obtain ⟨rfl, hS⟩ := ih hF' (fun h => absurd h Bool.false_ne_true)
        exact ⟨(List.append_nil u).symm, hS⟩
      · rw [List.length_append] at huv
        obtain rfl : d' = [] := List.length_eq_zero_iff.mp (by omega)
        obtain ⟨-, hS⟩ := ih (d := []) hE.symm (fun h => absurd h Bool.false_ne_true)
        exact ⟨List.append_nil v, hS⟩
    by_cases hplace : g.length = (d ++ M).length
    · -- the word is where the part is, which ends in front of a separator
      rw [← List.append_assoc d] at hF
      obtain ⟨rfl, htail⟩ := List.append_inj hF hplace
      have hlen : w.length ≤ el.length := by
        rcases h.opens rfl with rfl | ⟨c, v, rfl, hc⟩
        · have hlen := congrArg List.length htail
          rw [List.length_append, List.append_nil] at hlen
          omega
        · simpa using length_le_of_stop (g := []) hw hc htail (Nat.zero_le _)
      obtain ⟨rfl, rfl⟩ := hrest htail hlen
      rw [List.length_append] at hle
      exact ⟨List.length_eq_zero_iff.mp (by omega), rfl⟩
    · -- the word is in front of the separator that the part follows, and what is behind it is too short
      exfalso
      rcases hclose with ⟨m, c, rfl, hc⟩ | ⟨hfirst, rfl⟩
      · rw [List.length_append, List.length_append, List.length_singleton] at hplace
        rw [List.length_append, List.length_singleton] at hle
        have hF' : g ++ (w ++ F) = (d ++ m) ++ c :: (el ++ E) := by
          rw [hF]
          simp
        have hlen := length_le_of_stop hw hc hF' (by rw [List.length_append]; omega)
        rw [List.length_append] at hlen
        have hall : (g ++ w) ++ F = (d ++ m ++ c :: el) ++ E := by
          rw [List.append_assoc, hF]
          simp
        obtain ⟨heq, -⟩ := hrest hall (by simp only [List.length_append, List.length_cons]; omega)
        have hlens := congrArg List.length heq
        simp only [List.length_append, List.length_cons] at hlens
        omega
      · rw [hd hfirst, List.append_nil, List.length_nil] at hplace
        rw [List.length_nil] at hle
        exact hplace (Nat.le_zero.mp hle)

/-- Reading and joining keeps the words, and makes nothing longer. -/
theorem Marked.parseFrom (hw : Plain w) (h : Marked w first F E S) {m : Mode} (hm : m.inside = !first) (hraw : m.raw = [])
    (hgap : first = true → m = .gap) {es : List Text} (hp : parseFrom m F = some es) : Marked w first (join ':' es) E S := by
  have hcolon : Breaker ':' := Or.inr (Or.inl rfl)
  induction h generalizing m es with
  | done hle hM =>
    have hlen := length_join_parseFrom ':' hp
    rw [hraw, List.length_nil, Nat.zero_add] at hlen
    exact .done (Nat.le_trans hlen hle) hM
  | @word first g M el F E S hle hg hM hclose hel h ih =>
    have hg' : Ends g ∨ g = [] ∧ m = .gap := hg.imp_right fun hg => ⟨hg.2, hgap hg.1⟩
    obtain ⟨g', m', es', hrest, hin, hraw', hjoin, hlen, hends⟩ := parseFrom_front hcolon hg' hw hp
    rw [hraw, List.length_nil, Nat.zero_add] at hlen
    rw [hjoin]
    refine .word (Nat.le_trans hlen hle) (hends.imp_right fun hends => ⟨?_, hends.1⟩) hM hclose hel
      (ih hin hraw' (fun h => absurd h Bool.false_ne_true) hrest)
    simpa [hm] using hends.2

/-- One more entry. -/
theorem Marked.append (h : Marked w first F E S) (x : Text) : Marked w first (F ++ ' ' :: x) (E ++ ':' :: x) (S ++ ':' :: x) := by
  induction h with
  | @done first g M hle hM =>
    refine .done (by simpa using hle) (hM.imp_right fun hM => Or.inr ?_)
    rcases hM with rfl | hM
    · exact ⟨':', x, rfl, Or.inr rfl⟩
    · exact hM.append _
  | word hle hg hM hclose hel h ih =>
    simp only [List.append_assoc]
    exact .word hle hg hM hclose hel ih

/-- One more entry that has a part in place of the word. -/
theorem Marked.append_word (h : Marked w first F E S) {p el : Text} (hp : p = [] ∨ Closes p) (hel : ∀ c ∈ el, ¬Stop c) :
    Marked w first (F ++ ' ' :: (p ++ w)) (E ++ ':' :: (p ++ el)) (S ++ ':' :: (p ++ w)) := by
  induction h with
  | @done first g M hle hM =>
    have hword : Marked w first ((g ++ ' ' :: p) ++ (w ++ [])) ((M ++ ':' :: p) ++ (el ++ [])) ((M ++ ':' :: p) ++ (w ++ [])) := by
      refine .word (by simpa using hle) (Or.inl ?_) (hM.imp_right ?_) (Or.inl ?_) hel (.nil w)
      · rcases hp with rfl | ⟨u, c, rfl, hc⟩
        · exact ⟨g, ' ', rfl, Or.inr (Or.inr rfl)⟩
        · exact ⟨g ++ ' ' :: u, c, by simp, hc.breaker⟩
      · rintro (rfl | hM)
        · exact ⟨':', p, rfl, Or.inr rfl⟩
        · exact hM.append _
      · rcases hp with rfl | ⟨u, c, rfl, hc⟩
        · exact ⟨M, ':', rfl, Or.inr rfl⟩
        · exact ⟨M ++ ':' :: u, c, by simp, hc⟩
    simpa using hword
  | word hle hg hM hclose hel' h ih =>
    simp only [List.append_assoc]
    exact .word hle hg hM hclose hel' ih

/-! ## All entries -/

/-- An entry, and what the path should have in its place: the entry, or the entry with a part in place of the word at its end. -/
def Entry (w e x : Text) : Prop :=
  e = x ∨ ∃ p el, e = p ++ w ∧ x = p ++ el ∧ (p = [] ∨ Closes p) ∧ ∀ c ∈ el, ¬Stop c

theorem marked_entry (hw : Plain w) {e x : Text} (he : Entry w e x) {es : List Text} (hp : parse e = some es) :
    Marked w true (join ':' es) x e := by
  have hmarked : Marked w true e x e := by
    rcases he with rfl | ⟨p, el, rfl, rfl, hp, hel⟩
    · exact .done (Nat.le_refl _) (Or.inl rfl)
    · have hend : Marked w false [] [] [] := .done (Nat.le_refl _) (Or.inr (Or.inl rfl))
      have hword : Marked w true (p ++ (w ++ [])) (p ++ (el ++ [])) (p ++ (w ++ [])) := by
        refine .word (Nat.le_refl _) ?_ (Or.inl rfl) (hp.symm.imp_right fun hp => ⟨rfl, hp⟩) hel (.nil w)
        rcases hp with rfl | ⟨u, c, rfl, hc⟩
        · exact Or.inr ⟨rfl, rfl⟩
        · exact Or.inl ⟨u, c, rfl, hc.breaker⟩
      simpa using hword
  exact hmarked.parseFrom hw rfl rfl (fun _ => rfl) hp

/-- What the entries are put together to has the words, and is not longer before, between and behind them. -/
theorem marked_rejoinAll {ι : Type} (hw : Plain w) {e x : ι → Text} {cs : List ι} (hcs : ∀ c ∈ cs, Entry w (e c) (x c)) (hne : cs ≠ [])
    {r : Text} (h : rejoinAll (cs.map e) = some r) : Marked w true r (join ':' (cs.map x)) (join ':' (cs.map e)) := by
  induction cs using List.reverseRecOn generalizing r with
  | nil => exact absurd rfl hne
  | append_singleton cs c ih =>
    have hc := hcs c (by simp)
    by_cases hcs' : cs = []
    · subst hcs'
      obtain ⟨es, hp, rfl⟩ := exists_parse_single h
      simpa [join_single] using marked_entry hw hc hp
    · rw [List.map_append, List.map_singleton] at h
      obtain ⟨acc, es, hacc, hp, rfl⟩ := exists_parse_concat h
      have hih := ih (fun d hd => hcs d (List.mem_append_left _ hd)) hcs' hacc
      rw [List.map_append, List.map_append, List.map_singleton, List.map_singleton, join_concat ':' (by simpa using hcs'),
        join_concat ':' (by simpa using hcs')]
      refine Marked.parseFrom hw ?_ rfl rfl (fun _ => rfl) hp
      rcases hc with heq | ⟨p, el, he, hx, hp', hel⟩
      · rw [heq]
        exact hih.append _
      · rw [he, hx]
        exact hih.append_word hp' hel

/-- Where the path is what it should be, the entries are. -/
theorem join_eq_of_rejoinAll {ι : Type} (hw : Plain w) (hstop : ∀ c ∈ w, ¬Stop c) {e x : ι → Text} {cs : List ι}
    (hcs : ∀ c ∈ cs, Entry w (e c) (x c)) (h : rejoinAll (cs.map e) = some (join ':' (cs.map x))) :
    join ':' (cs.map e) = join ':' (cs.map x) := by
  by_cases hne : cs = []
  · subst hne
    rfl
  · exact ((marked_rejoinAll hw hcs hne h).eq_of_eq hstop (d := []) rfl fun _ => rfl).2

end ZfsTest.Tcl
