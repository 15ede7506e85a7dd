import ZfsTest.Shell.Passed
import ZfsTest.Shell.Redirect
import ZfsTest.Stf.Wordlist
import ZfsTest.Text.Ksh

/-!
# Choosing devices, `get_vdevs`

Each step takes the first name of the list and cuts the text of the list behind the last place where this name occurs. A name that is a
part of a later name takes with it all that stands in between, and what is left of that later name is the next device. The names are
picked as they should be exactly when no later name contains one of them, or what is left is the next name by chance
(`get_vdevs_picks_iff`). The text that `eval` reads is itself a pattern for file names; the result is for directories without a file
that begins with `all_devs=${all_devs##`.
-/

namespace ZfsTest.Fs

open Shell
open Stf (isIfs)

/-! ## The code -/

/-- `awk '{print $1}'`. -/
def awkFirst (t : Text) : Text := (linesOf t).flatMap fun l => (words isIfs l).headD [] ++ ['\n']

variable (dir : Directory)

/-- `$($ECHO $all_devs | $AWK '{print $1}')`. -/
def firstDev (allDevs : Text) : Text := substituted (awkFirst (echo (spread isIfs dir allDevs)))

/-- What the word that `eval` gets begins with. -/
def evalFront : Text := "all_devs=$\x7ball_devs##".toList

/-- `all_devs=\${all_devs##*$dev}`, without the backslash. -/
def evalWord (dev : Text) : Text := evalFront ++ '*' :: (dev ++ ['\x7d'])

/-- `eval all_devs=\${all_devs##*$dev}`, for a name without quotes and expansions. Where there are files with names like this word,
`eval` gets their names, and `others` tells what these make of the list. -/
def cutDev (others : List Text → Text → Text) (dev allDevs : Text) : Text :=
  if dir.names (evalWord dev) = [evalWord dev] then Ksh.cutFrontMax ('*' :: dev) allDevs else others (dir.names (evalWord dev)) allDevs

/-- `all_devs` and `vdevs`. -/
structure Picking where
  allDevs : Text
  vdevs : Text
  deriving DecidableEq, Repr

variable (others : List Text → Text → Text)

/-- One round of the loop. -/
def pickDev (s : Picking) : Picking :=
  let dev := firstDev dir s.allDevs
  ⟨cutDev dir others dev s.allDevs, dev ++ ' ' :: s.vdevs⟩

/-- What is printed when the pool listing yields `names`. -/
def getVdevs (names : List Text) (cnt : Nat) : Text := echo ((pickDev dir others)^[cnt] ⟨['\n'].intercalate names, []⟩).vdevs

/-! ## What it is for -/

/-- No file in the directory has a name for which the word of `eval` stands. -/
def Unexpanded : Prop := ∀ w, evalFront <+: w → dir.names w = [w]

/-- Quotes and expansions, and the brace that ends one. -/
def isShellSpecial (c : Char) : Bool := "\\'\"$\x60\x7d".toList.contains c

/-- The characters of a device name: no white space, not part of a pattern, and no quotes or expansions for `eval`. -/
def isDeviceChar (c : Char) : Bool := !isIfs c && !Glob.isMeta c && !isShellSpecial c

/-- A device name is no pattern, and none with a star in front of it but for the star. -/
structure IsDevice (name : Text) : Prop where
  ne : name ≠ []
  plain : ∀ c ∈ name, isDeviceChar c = true
  literal : isGlob name = false
  unlisted : name.head? = some '(' → ')' ∉ name

/-- The first `cnt` names are printed in reverse order. -/
def Picks (names : List Text) (cnt : Nat) : Prop := words isIfs (getVdevs dir others names cnt) = (names.take cnt).reverse

/-- A name does no harm: no later name contains it, or what stands in the last such name behind it is the next name, and this is
contained in a still later name if there is another step. -/
def Harmless (name next : Text) (later : List Text) (more : Prop) : Prop :=
  match lastWith (fun t => decide (name <:+: t)) later with
  | none => True
  | some (t, behind) => LastIn name t next ∧ (more → ∃ x ∈ behind, next <:+: x)

/-- All names but the last of the first `cnt` are harmless. -/
def Apart (names : List Text) (cnt : Nat) : Prop :=
  ∀ pre name next post, names = pre ++ name :: next :: post → pre.length + 1 < cnt →
    Harmless name next (next :: post) (pre.length + 2 < cnt)

/-! ## Texts of device names -/

/-- A list of names. -/
structure Tame (t : Text) : Prop where
  plain : ∀ c ∈ t, isDeviceChar c = true ∨ c = '\n'
  literal : ∀ w ∈ words isIfs t, isGlob w = false

theorem isDeviceChar_spec {c : Char} (h : isDeviceChar c = true) : isIfs c = false ∧ Glob.isMeta c = false ∧ isShellSpecial c = false := by
  simp only [isDeviceChar, Bool.and_eq_true, Bool.not_eq_true'] at h
  exact ⟨h.1.1, h.1.2, h.2⟩

theorem ne_backslash {c : Char} (h : isDeviceChar c = true ∨ c = '\n') : c ≠ '\\' := by
  rintro rfl
  rcases h with h | h
  · cases (isDeviceChar_spec h).2.2
  · exact absurd h (by decide)

theorem Tame.backslash {t : Text} (ht : Tame t) : '\\' ∉ t := fun h => ne_backslash (ht.plain _ h) rfl

/-- The end of a text that is no pattern. -/
theorem isGlob_suffix {t u : Text} (h : u <:+ t) (ht : isGlob t = false) : isGlob u = false := by
  obtain ⟨v, rfl⟩ := h
  induction v with
  | nil => exact ht
  | cons c v ih =>
    rw [List.cons_append, isGlob, Bool.or_eq_false_iff] at ht
    exact ih ht.2

theorem Tame.suffix {t u : Text} (ht : Tame t) (h : u <:+ t) : Tame u := by
  refine ⟨fun c hc => ht.plain c (h.subset hc), fun w hw => ?_⟩
  obtain ⟨w', hw', hsuffix⟩ := suffix_of_mem_words h hw
  exact isGlob_suffix hsuffix (ht.literal w' hw')

theorem literal_of_device {t : Text} (h : ∀ c ∈ t, isDeviceChar c = true) : Glob.Literal t := by
  intro c hc
  exact ⟨(isDeviceChar_spec (h c hc)).2.1, ne_backslash (.inl (h c hc))⟩

theorem IsDevice.whole {name : Text} (h : IsDevice name) : ∀ c ∈ name, isIfs c = false := fun c hc => (isDeviceChar_spec (h.plain c hc)).1

theorem newline_notMem {t : Text} (h : ∀ c ∈ t, isIfs c = false) : '\n' ∉ t := fun hc => nomatch h _ hc

/-- The first word of a text of device names. -/
theorem firstDev_eq {t : Text} (ht : Tame t) : firstDev dir t = (words isIfs t).headD [] := by
  have hnames : (words isIfs t).flatMap dir.names = words isIfs t := by
    rw [List.flatMap_congr fun w hw => dir.names_literal w (ht.literal w hw), List.flatMap_singleton']
  have hwhole : ∀ w ∈ words isIfs t, w ≠ [] ∧ ∀ c ∈ w, isIfs c = false :=
    fun w hw => ⟨ne_nil_of_mem_words hw, fun c hc => not_separator_of_mem_words hw hc⟩
  have hmem : ∀ c ∈ row (words isIfs t), c ≠ '\n' ∧ c ≠ '\\' := by
    intro c hc
    rcases mem_intercalate hc with rfl | ⟨w, hw, hcw⟩
    · exact ⟨by decide, by decide⟩
    · constructor
      · rintro rfl
        exact newline_notMem (hwhole w hw).2 hcw
      · rintro rfl
        exact ht.backslash ((infix_of_mem_words hw).subset hcw)
  have hecho : echo (row (words isIfs t)) = row (words isIfs t) ++ ['\n'] := echo_plain fun h => (hmem _ h).2 rfl
  have hline : linesOf (row (words isIfs t) ++ '\n' :: []) = [row (words isIfs t)] := by
    rw [linesOf_line fun h => (hmem _ h).1 rfl]
    rfl
  have hfirst : '\n' ∉ (words isIfs t).headD [] := by
    cases hws : words isIfs t with
    | nil => exact List.not_mem_nil
    | cons w ws => exact newline_notMem (hwhole w (hws ▸ List.mem_cons_self)).2
  rw [firstDev, spread, hnames, ← row, hecho, awkFirst, hline, List.flatMap_singleton, words_row rfl hwhole]
  exact substituted_line hfirst

/-- The words of names behind newlines. -/
theorem words_led {names : List Text} (hnames : ∀ n ∈ names, n ≠ [] ∧ ∀ c ∈ n, isIfs c = false) (s : Text) :
    words isIfs (s ++ led '\n' names) = words isIfs s ++ names := by
  induction names generalizing s with
  | nil => rw [led, List.flatMap_nil, List.append_nil, List.append_nil]
  | cons n ns ih =>
    rw [List.forall_mem_cons] at hnames
    rw [led_cons, words_append rfl, ih hnames.2, words_single hnames.1.2 hnames.1.1, List.singleton_append]

theorem intercalate_eq_led (n : Text) (ns : List Text) : ['\n'].intercalate (n :: ns) = n ++ led '\n' ns := by
  induction ns generalizing n with
  | nil => simp [led]
  | cons m ms ih => rw [List.intercalate_cons_cons, ih, led_cons, List.append_assoc]; rfl

/-! ## The picks -/

/-- The list behind the last `dev`. -/
def cut (dev t : Text) : Text := Ksh.cutFrontMax ('*' :: dev) t

theorem cutDev_eq {dir : Directory} (hdir : Unexpanded dir) (others : List Text → Text → Text) (dev t : Text) :
    cutDev dir others dev t = cut dev t := if_pos (hdir _ (List.prefix_append _ _))

/-- The devices of the next rounds. -/
def picks (dir : Directory) : Nat → Text → List Text
  | 0, _ => []
  | cnt + 1, t => firstDev dir t :: picks dir cnt (cut (firstDev dir t) t)

/-- The loop puts the picks in reverse order, each with a blank. -/
theorem iterate_pickDev {dir : Directory} (hdir : Unexpanded dir) (others : List Text → Text → Text) (cnt : Nat) (s : Picking) :
    ((pickDev dir others)^[cnt] s).vdevs = ((picks dir cnt s.allDevs).reverse.flatMap fun d => d ++ [' ']) ++ s.vdevs := by
  induction cnt generalizing s with
  | zero => rfl
  | succ cnt ih =>
    rw [Function.iterate_succ_apply, ih, picks, List.reverse_cons, List.flatMap_append, List.flatMap_singleton, pickDev]
    simp [cutDev_eq hdir]

theorem listOp_eq_none {c : Char} {t : Text} (hmeta : Glob.isMeta c = false)
    (h : ((c = '@' || c = '+' || c = '!') && t.head? = some '(' && t.contains ')') = false) : Ksh.listOp c t = none := by
  simp only [Glob.isMeta, Bool.or_eq_false_iff, decide_eq_false_iff_not] at hmeta
  rw [Ksh.listOp]
  split
  · rename_i hopen
    rw [Bool.and_assoc, hopen, Bool.and_true] at h
    simp only [Bool.or_eq_false_iff, decide_eq_false_iff_not] at h
    simp [Ksh.Op.ofChar, hmeta, h]
  · rfl

/-- A device name holds no list of patterns, and makes none with the star. -/
theorem IsDevice.hasList {name : Text} (h : IsDevice name) : Ksh.hasList ('*' :: name) = false := by
  have hstar : Ksh.listOp '*' name = none := by
    rw [Ksh.listOp, if_neg]
    rw [Bool.and_eq_true, decide_eq_true_eq, List.contains_eq_mem, decide_eq_true_eq]
    exact fun hlist => h.unlisted hlist.1 hlist.2
  have hrest : ∀ t : Text, (∀ c ∈ t, isDeviceChar c = true) → isGlob t = false → Ksh.hasList t = false := by
    intro t
    induction t with
    | nil => exact fun _ _ => rfl
    | cons c t ih =>
      intro hchars hglob
      rw [isGlob, Bool.or_eq_false_iff] at hglob
      have hmeta := (isDeviceChar_spec (hchars c List.mem_cons_self)).2.1
      rw [Ksh.hasList, ih (fun d hd => hchars d (List.mem_cons_of_mem c hd)) hglob.2, Bool.or_false, Option.isSome_eq_false_iff,
        Option.isNone_iff_eq_none]
      exact listOp_eq_none hmeta (Bool.or_eq_false_iff.mp hglob.1).2
  rw [Ksh.hasList, hstar, hrest name h.plain h.literal]
  rfl

/-- The cut leaves nothing behind a name that no later name contains. -/
theorem cut_of_none {name : Text} (hname : IsDevice name) {later : List Text} (s : Text)
    (hlater : ∀ t ∈ later, ¬name <:+: t) : cut name (s ++ name ++ led '\n' later) = led '\n' later :=
  (Ksh.cutFrontMax_of_not hname.hasList _).trans (Glob.cutFrontMax_back (literal_of_device hname.plain)
    (((lastIn_self name).front s).led (newline_notMem hname.whole) hlater))

/-- The cut in the last later name that contains the name. -/
theorem cut_of_last {name t rest : Text} (hname : IsDevice name) {pre post : List Text} (s : Text) (hlast : LastIn name t rest)
    (hpost : ∀ x ∈ post, ¬name <:+: x) :
    cut name (s ++ name ++ led '\n' (pre ++ t :: post)) = rest ++ led '\n' post := by
  have hsplit : s ++ name ++ led '\n' (pre ++ t :: post) = (s ++ name ++ led '\n' pre ++ ['\n']) ++ t ++ led '\n' post := by
    rw [led, List.flatMap_append, List.flatMap_cons, led, led]
    simp
  rw [hsplit, cut, Ksh.cutFrontMax_of_not hname.hasList]
  exact Glob.cutFrontMax_back (literal_of_device hname.plain) ((hlast.front _).led (newline_notMem hname.whole) hpost)

/-- What is left of a name. -/
structure IsRest (s : Text) : Prop where
  plain : ∀ c ∈ s, isDeviceChar c = true
  literal : isGlob s = false

theorem IsDevice.isRest {name : Text} (h : IsDevice name) : IsRest name := ⟨h.plain, h.literal⟩

theorem IsRest.suffix {s t : Text} (h : IsRest t) (hs : s <:+ t) : IsRest s :=
  ⟨fun c hc => h.plain c (hs.subset hc), isGlob_suffix hs h.literal⟩

theorem IsRest.whole {s : Text} (h : IsRest s) : ∀ c ∈ s, isIfs c = false := fun c hc => (isDeviceChar_spec (h.plain c hc)).1

theorem tame_led {s : Text} (hs : IsRest s) {names : List Text} (hnames : ∀ n ∈ names, IsDevice n) : Tame (s ++ led '\n' names) := by
  constructor
  · intro c hc
    rcases List.mem_append.mp hc with h | h
    · exact .inl (hs.plain c h)
    · obtain ⟨n, hn, hcn⟩ := List.mem_flatMap.mp h
      rcases List.mem_cons.mp hcn with h | h
      · exact .inr h
      · exact .inl ((hnames n hn).plain c h)
  · intro w hw
    rw [words_led fun n hn => ⟨(hnames n hn).ne, (hnames n hn).whole⟩, words_unsplit hs.whole] at hw
    rcases List.mem_append.mp hw with h | h
    · rw [List.mem_singleton.mp (List.mem_of_mem_filter h)]
      exact hs.literal
    · exact (hnames w h).literal

/-- The first word where a cut has left `rest` in front of the names. -/
theorem firstDev_led {rest : Text} (hrest : IsRest rest) {names : List Text} (hnames : ∀ n ∈ names, IsDevice n) :
    firstDev dir (rest ++ led '\n' names) = if rest = [] then names.headD [] else rest := by
  rw [firstDev_eq dir (tame_led hrest hnames), words_led fun n hn => ⟨(hnames n hn).ne, (hnames n hn).whole⟩]
  by_cases h : rest = []
  · rw [if_pos h, h]
    rfl
  · rw [if_neg h, words_single hrest.whole h]
    rfl

theorem apart_cons {name next : Text} {post : List Text} {cnt : Nat} :
    Apart (name :: next :: post) (cnt + 2) ↔ Harmless name next (next :: post) (0 < cnt) ∧ Apart (next :: post) (cnt + 1) := by
  have hmore : (0 < cnt) = (([] : List Text).length + 2 < cnt + 2) := by simp
  constructor
  · intro h
    refine ⟨hmore ▸ h [] name next post rfl (by simp), fun pre n m t hsplit hlt => ?_⟩
    have hone := h (name :: pre) n m t (by rw [hsplit]; rfl) (by rw [List.length_cons]; omega)
    have hlen : ((name :: pre).length + 2 < cnt + 2) = (pre.length + 2 < cnt + 1) := by
      rw [List.length_cons]
      exact propext (by omega)
    exact hlen ▸ hone
  · rintro ⟨hfirst, hrest⟩ pre n m t hsplit hlt
    cases pre with
    | nil =>
      rw [List.nil_append, List.cons.injEq, List.cons.injEq] at hsplit
      obtain ⟨rfl, rfl, rfl⟩ := hsplit
      exact hmore ▸ hfirst
    | cons x pre =>
      rw [List.cons_append, List.cons.injEq] at hsplit
      rw [List.length_cons] at hlt
      have hone := hrest pre n m t hsplit.2 (by omega)
      have hlen : (pre.length + 2 < cnt + 1) = ((x :: pre).length + 2 < cnt + 2) := by
        rw [List.length_cons]
        exact propext (by omega)
      exact hlen ▸ hone

theorem apart_one (names : List Text) : Apart names 1 := fun _ _ _ _ _ h => absurd h (by omega)

/-- A step without a later name that contains the last pick: the next name must be the first of those that are left. -/
theorem pick_of_none {cnt : Nat} {name next : Text} {later behind : List Text} (hlater : ∀ n ∈ next :: later, IsDevice n)
    (hnodup : (next :: later).Nodup) (hbehind : behind <:+ next :: later) (hname : IsDevice name)
    (hnone : lastWith (fun t => decide (name <:+: t)) behind = none) (s : Text) :
    picks dir (cnt + 1) (cut name (s ++ name ++ led '\n' behind)) = (next :: later).take (cnt + 1) ↔
      behind = next :: later ∧ picks dir cnt (cut next (['\n'] ++ next ++ led '\n' later)) = later.take cnt := by
  have hdevices : ∀ n ∈ behind, IsDevice n := fun n hn => hlater n (hbehind.subset hn)
  have hclear : ∀ t ∈ behind, ¬name <:+: t := by simpa using lastWith_eq_none_iff.mp hnone
  have hfirst := @firstDev_led dir [] ⟨fun _ h => absurd h List.not_mem_nil, rfl⟩ behind hdevices
  rw [if_pos rfl, List.nil_append] at hfirst
  rw [cut_of_none hname s hclear, picks, hfirst, List.take_succ_cons, List.cons.injEq]
  rcases List.suffix_cons_iff.mp hbehind with rfl | hsuffix
  · rw [List.headD_cons, led_cons, and_iff_right rfl, and_iff_right rfl]
    rfl
  · have hnext : next ∉ later := (List.nodup_cons.mp hnodup).1
    have hne : behind.headD [] ≠ next := by
      cases behind with
      | nil => exact (hlater next List.mem_cons_self).ne.symm
      | cons p ps =>
        rintro rfl
        exact hnext (hsuffix.subset List.mem_cons_self)
    have hshort : behind ≠ next :: later := by
      rintro rfl
      exact hnext (hsuffix.subset List.mem_cons_self)
    exact iff_of_false (fun h => hne h.1) fun h => hshort h.1

/-- A step with such a name: what stands behind the last pick in it must be the next name. -/
theorem pick_of_last {cnt : Nat} {name next t rest : Text} {later pre post : List Text} (hlater : ∀ n ∈ next :: later, IsDevice n)
    (hnodup : (next :: later).Nodup) (hbehind : pre ++ t :: post <:+ next :: later) (hname : IsDevice name)
    (hpost : lastWith (fun t => decide (name <:+: t)) post = none) (hlast : LastIn name t rest) (s : Text) :
    picks dir (cnt + 1) (cut name (s ++ name ++ led '\n' (pre ++ t :: post))) = (next :: later).take (cnt + 1) ↔
      rest = next ∧ picks dir cnt (cut next ([] ++ next ++ led '\n' post)) = later.take cnt := by
  have hclear : ∀ t ∈ post, ¬name <:+: t := by simpa using lastWith_eq_none_iff.mp hpost
  have hpostmem : ∀ n ∈ post, n ∈ later := by
    intro n hn
    rcases List.suffix_cons_iff.mp hbehind with heq | hsuffix
    · cases pre with
      | nil =>
        rw [List.nil_append, List.cons.injEq] at heq
        exact heq.2 ▸ hn
      | cons x pre =>
        rw [List.cons_append, List.cons.injEq] at heq
        exact heq.2 ▸ List.mem_append_right pre (List.mem_cons_of_mem t hn)
    · exact hsuffix.subset (List.mem_append_right pre (List.mem_cons_of_mem t hn))
  have ht : IsDevice t := hlater t (hbehind.subset (List.mem_append_right pre List.mem_cons_self))
  have hrest : IsRest rest := by
    obtain ⟨u, hu⟩ := hlast.occurs
    exact ht.isRest.suffix ⟨u ++ name, hu.symm⟩
  have hfirst := firstDev_led dir hrest fun n hn => hlater n (List.mem_cons_of_mem next (hpostmem n hn))
  rw [cut_of_last hname s hlast hclear, picks, hfirst, List.take_succ_cons, List.cons.injEq]
  have hnext : IsDevice next := hlater next List.mem_cons_self
  by_cases hr : rest = next
  · rw [if_neg (hr ▸ hnext.ne), hr, and_iff_right rfl, and_iff_right rfl, List.nil_append]
  · refine iff_of_false (fun h => ?_) fun h => hr h.1
    have hhead := h.1
    split at hhead
    · cases post with
      | nil => exact hnext.ne hhead.symm
      | cons p ps =>
        have hp : p = next := hhead
        exact (List.nodup_cons.mp hnodup).1 (hp ▸ hpostmem p List.mem_cons_self)
    · exact hr hhead

/-- A name cannot stand behind another one in itself. -/
theorem not_lastIn_self {name t : Text} (hname : IsDevice name) : ¬LastIn name t t := by
  intro h
  obtain ⟨u, hu⟩ := h.occurs
  have hlen := congrArg List.length hu
  rw [List.length_append, List.length_append] at hlen
  exact hname.ne (List.length_eq_zero_iff.mp (by omega))

theorem suffix_of_length {α : Type} {pre post : List α} {t next : α} (h : pre ++ t :: post <:+ next :: post) : t = next := by
  have hlen := h.length_le
  rw [List.length_append, List.length_cons, List.length_cons] at hlen
  obtain rfl : pre = [] := List.length_eq_zero_iff.mp (by omega)
  exact (List.cons.injEq .. ▸ h.eq_of_length rfl).1

/-- The picks from a state of the loop: `name` has just been picked, `later` are the names behind it in the list, and `behind` those of
them that the text still has. -/
theorem picks_iff {cnt : Nat} {name : Text} {later behind : List Text} (hname : IsDevice name) (hlater : ∀ n ∈ later, IsDevice n)
    (hnodup : later.Nodup) (hbehind : behind <:+ later) (hcnt : cnt ≤ later.length) (s : Text) :
    picks dir cnt (cut name (s ++ name ++ led '\n' behind)) = later.take cnt ↔
      (behind = later ∨ cnt = 0 ∨ ∃ x ∈ behind, name <:+: x) ∧ Apart (name :: later) (cnt + 1) := by
  induction cnt generalizing name later behind s with
  | zero => exact iff_of_true rfl ⟨.inr (.inl rfl), apart_one _⟩
  | succ cnt ih =>
    cases later with
    | nil => exact absurd hcnt (Nat.not_succ_le_zero cnt)
    | cons next later =>
      have hnext := hlater next List.mem_cons_self
      have hrest : ∀ n ∈ later, IsDevice n := fun n hn => hlater n (List.mem_cons_of_mem next hn)
      have hlen : cnt ≤ later.length := Nat.le_of_succ_le_succ hcnt
      have hnodup' := (List.nodup_cons.mp hnodup).2
      rw [apart_cons]
      cases hl : lastWith (fun t => decide (name <:+: t)) behind with
      | none =>
        have hclear : ∀ t ∈ behind, ¬name <:+: t := by simpa using lastWith_eq_none_iff.mp hl
        have hnot : ¬∃ x ∈ behind, name <:+: x := fun ⟨x, hx, h⟩ => hclear x hx h
        have hall : (behind = next :: later ∨ cnt + 1 = 0 ∨ ∃ x ∈ behind, name <:+: x) ↔ behind = next :: later :=
          or_iff_left fun h => h.elim (Nat.succ_ne_zero cnt) hnot
        rw [pick_of_none dir hlater hnodup hbehind hname hl, hall]
        refine and_congr_right fun hall => ((ih hnext hrest hnodup' List.suffix_rfl hlen ['\n']).trans (and_iff_right (.inl rfl))).trans ?_
        rw [Harmless, ← hall, hl, and_iff_right trivial]
      | some r =>
        obtain ⟨t, post⟩ := r
        obtain ⟨pre, rfl, hp, hpost⟩ := lastWith_eq_some hl
        obtain ⟨rest, hlast⟩ := exists_lastIn (of_decide_eq_true hp)
        have hwhole : lastWith (fun t => decide (name <:+: t)) (next :: later) = some (t, post) := by
          obtain ⟨front, hfront⟩ := hbehind
          rw [← hfront]
          exact lastWith_append hl front
        have hin : ∃ x ∈ pre ++ t :: post, name <:+: x := ⟨t, List.mem_append_right pre List.mem_cons_self, hlast.occurs_in⟩
        rw [pick_of_last dir hlater hnodup hbehind hname hpost hlast, and_iff_right (Or.inr (Or.inr hin)), Harmless, hwhole]
        simp only
        by_cases hr : rest = next
        · subst hr
          have hsuffix : post <:+ later := by
            rcases List.suffix_cons_iff.mp ((List.suffix_append pre (t :: post)).trans hbehind) with heq | hsuffix
            · rw [List.cons.injEq] at heq
              exact heq.2 ▸ List.suffix_rfl
            · exact (List.suffix_cons t post).trans hsuffix
          have hshort : post ≠ later := by
            rintro rfl
            exact not_lastIn_self hname (suffix_of_length hbehind ▸ hlast)
          rw [and_iff_right rfl, ih hnext hrest hnodup' hsuffix hlen [], and_iff_right hlast, or_iff_right hshort, imp_iff_not_or,
            Nat.not_lt, Nat.le_zero]
        · refine iff_of_false (fun h => hr h.1) fun h => hr (hlast.unique h.1.1)

/-! ## What is printed -/

theorem picks_whole {t : Text} (ht : Tame t) (cnt : Nat) : ∀ d ∈ picks dir cnt t, (∀ c ∈ d, isIfs c = false) ∧ '\\' ∉ d := by
  induction cnt generalizing t with
  | zero => exact fun d hd => absurd hd List.not_mem_nil
  | succ cnt ih =>
    rw [picks, List.forall_mem_cons]
    refine ⟨?_, ih (ht.suffix (Ksh.cutFrontMax_suffix _ t))⟩
    rw [firstDev_eq dir ht]
    cases hws : words isIfs t with
    | nil => exact ⟨fun c hc => absurd hc List.not_mem_nil, List.not_mem_nil⟩
    | cons w ws =>
      have hw : w ∈ words isIfs t := hws ▸ List.mem_cons_self
      exact ⟨fun c hc => not_separator_of_mem_words hw hc, fun h => ht.backslash ((infix_of_mem_words hw).subset h)⟩

theorem words_blanked {ds : List Text} (hds : ∀ d ∈ ds, ∀ c ∈ d, isIfs c = false) :
    words isIfs (ds.flatMap fun d => d ++ [' ']) = ds.filter (· ≠ []) := by
  induction ds with
  | nil => rfl
  | cons d ds ih =>
    rw [List.forall_mem_cons] at hds
    rw [List.flatMap_cons, List.append_assoc, List.singleton_append, words_append rfl, ih hds.2, words_unsplit hds.1,
      ← List.filter_append, List.singleton_append]

theorem length_picks (cnt : Nat) (t : Text) : (picks dir cnt t).length = cnt := by
  induction cnt generalizing t with
  | zero => rfl
  | succ cnt ih => rw [picks, List.length_cons, ih]

theorem tame_names {names : List Text} (hnames : ∀ n ∈ names, IsDevice n) : Tame (['\n'].intercalate names) := by
  cases names with
  | nil => exact ⟨fun c hc => absurd hc List.not_mem_nil, fun w hw => absurd hw List.not_mem_nil⟩
  | cons n ns =>
    rw [List.forall_mem_cons] at hnames
    rw [intercalate_eq_led]
    exact tame_led hnames.1.isRest hnames.2

variable {dir}

/-- The words of the output are the picks that are not empty. -/
theorem words_getVdevs (hdir : Unexpanded dir) (others : List Text → Text → Text) {names : List Text} (hnames : ∀ n ∈ names, IsDevice n)
    (cnt : Nat) : words isIfs (getVdevs dir others names cnt) = ((picks dir cnt (['\n'].intercalate names)).filter (· ≠ [])).reverse := by
  have hwhole := picks_whole dir (tame_names hnames) cnt
  have hvdevs := iterate_pickDev hdir others cnt ⟨['\n'].intercalate names, []⟩
  rw [List.append_nil] at hvdevs
  have hback : '\\' ∉ ((pickDev dir others)^[cnt] ⟨['\n'].intercalate names, []⟩).vdevs := by
    rw [hvdevs]
    intro h
    obtain ⟨d, hd, hmem⟩ := List.mem_flatMap.mp h
    rcases List.mem_append.mp hmem with h | h
    · exact (hwhole d (List.mem_reverse.mp hd)).2 h
    · exact nomatch List.mem_singleton.mp h
  rw [getVdevs, echo_plain hback, words_append rfl, words_nil, List.append_nil, hvdevs,
    words_blanked fun d hd => (hwhole d (List.mem_reverse.mp hd)).1, List.filter_reverse]

/-- The devices are the first `cnt` names exactly when these are harmless. -/
theorem get_vdevs_picks_iff (hdir : Unexpanded dir) (others : List Text → Text → Text) {names : List Text}
    (hnames : ∀ n ∈ names, IsDevice n) (hnodup : names.Nodup) {cnt : Nat} (hcnt : cnt ≤ names.length) :
    Picks dir others names cnt ↔ Apart names cnt := by
  have hpicks : Picks dir others names cnt ↔ picks dir cnt (['\n'].intercalate names) = names.take cnt := by
    have hne : ∀ d ∈ names.take cnt, decide (d ≠ []) = true := fun d hd => decide_eq_true (hnames d (List.mem_of_mem_take hd)).ne
    rw [Picks, words_getVdevs hdir others hnames, List.reverse_inj]
    constructor
    · intro h
      have hlen := congrArg List.length h
      rw [List.length_take, Nat.min_eq_left hcnt] at hlen
      rw [← h, List.filter_eq_self.mpr]
      exact List.length_filter_eq_length_iff.mp (hlen.trans (length_picks dir cnt _).symm)
    · intro h
      rw [h]
      exact List.filter_eq_self.mpr hne
  rw [hpicks]
  cases cnt with
  | zero => exact iff_of_true rfl fun _ _ _ _ _ h => absurd h (Nat.not_lt_zero _)
  | succ cnt =>
    cases names with
    | nil => exact absurd hcnt (Nat.not_succ_le_zero cnt)
    | cons name later =>
      have hname := hnames name List.mem_cons_self
      have hlater : ∀ n ∈ later, IsDevice n := fun n hn => hnames n (List.mem_cons_of_mem name hn)
      have hstep := picks_iff dir hname hlater (List.nodup_cons.mp hnodup).2 List.suffix_rfl (Nat.le_of_succ_le_succ hcnt) []
      rw [and_iff_right (Or.inl rfl), List.nil_append] at hstep
      rw [intercalate_eq_led, picks, firstDev_led dir hname.isRest hlater, if_neg hname.ne, List.take_succ_cons, List.cons.injEq,
        and_iff_right rfl, hstep]

/-- A directory without files. -/
def noFile : Directory where
  names := List.singleton
  names_literal _ _ := rfl

theorem isDevice_of_all {names : List Text} (h : names.all (fun n => n ≠ [] && n.all isDeviceChar && !n.contains '(') = true) :
    ∀ n ∈ names, IsDevice n := by
  intro n hn
  have hone := List.all_eq_true.mp h n hn
  rw [Bool.and_eq_true, Bool.and_eq_true, decide_eq_true_eq, Bool.not_eq_true', List.contains_eq_mem, decide_eq_false_iff_not] at hone
  obtain ⟨⟨hne, hplain⟩, hparen⟩ := hone
  have hplain := List.all_eq_true.mp hplain
  refine ⟨hne, hplain, ?_, fun h => absurd (List.mem_of_mem_head? h) hparen⟩
  by_contra hglob
  obtain ⟨c, hc, hmark⟩ := mark_of_isGlob (eq_true_of_ne_false hglob)
  have hmeta := (isDeviceChar_spec (hplain c hc)).2.1
  have hne : c ≠ '(' := fun h => hparen (h ▸ hc)
  simp only [Glob.isMeta, Bool.or_eq_false_iff, decide_eq_false_iff_not] at hmeta
  simp [isMark, hmeta, hne] at hmark

/-- Two disks. -/
theorem get_vdevs_picks_sample : Picks noFile (fun _ t => t) ["c0t0d0".toList, "c0t1d0".toList] 2 :=
  (get_vdevs_picks_iff (fun _ _ => rfl) _ (isDevice_of_all (by decide)) (by decide) (by decide)).mpr fun pre name next post hsplit _ => by
    have hlen := congrArg List.length hsplit
    simp only [List.length_append, List.length_cons, List.length_nil] at hlen
    obtain rfl : pre = [] := List.length_eq_zero_iff.mp (by omega)
    rw [List.nil_append, List.cons.injEq, List.cons.injEq] at hsplit
    obtain ⟨rfl, rfl, rfl⟩ := hsplit
    have hnone : lastWith (fun t => decide ("c0t0d0".toList <:+: t)) ["c0t1d0".toList] = none := by decide
    rw [Harmless, hnone]
    trivial

/-- The first and the tenth file: the second device is what is left of the tenth, a zero. -/
theorem not_get_vdevs_picks : ¬Picks noFile (fun _ t => t) ["vdev1".toList, "vdev10".toList] 2 := by
  unfold Picks
  decide

end ZfsTest.Fs
