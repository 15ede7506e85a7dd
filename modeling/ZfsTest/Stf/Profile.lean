import ZfsTest.Stf.Varsfile

/-!
# Profiles

`stf_save_profile` writes a line `export NAME=${NAME:-'value'}` for each format string that is not empty, and `stf_load_profile` sources
the file: variables that are set keep their values. As in the file of the configuration variables the value is expanded without quotes,
and `print` reads its backslash sequences; but it is read back between single quotes, where nothing is special but the quote itself.
-/

namespace ZfsTest.Stf.Profile

open Shell Varsfile

/-! ## Writing -/

/-- `STF_FORMAT_STRINGS`. -/
inductive Format
  | config
  | jnlName
  | jnlTag
  | results
  | profile
  deriving DecidableEq, Repr

namespace Format

def all : List Format := [config, jnlName, jnlTag, results, profile]

def name : Format → Var
  | config => ⟨"STF_CONFIG_FORMAT".toList, by decide⟩
  | jnlName => ⟨"STF_JNL_NAME_FORMAT".toList, by decide⟩
  | jnlTag => ⟨"STF_JNL_TAG_FORMAT".toList, by decide⟩
  | results => ⟨"STF_RESULTS_FORMAT".toList, by decide⟩
  | profile => ⟨"STF_PROFILE_FORMAT".toList, by decide⟩

end Format

/-- `export NAME=${NAME:-'value'}`. -/
def defaults : Frame isIfs where
  opening n := '=' :: '$' :: '{' :: (n ++ [':', '-', '\''])
  closing := ['\'', '}']
  blank := isIfs_blank
  newline := isIfs_newline
  name := isIfs_of_isNameChar
  opening_equal _ := rfl
  opening_still n hn c hc := by
    simp only [List.mem_cons, List.mem_append, List.not_mem_nil, or_false] at hc
    rcases hc with rfl | rfl | rfl | hc | rfl | rfl | rfl
    · exact ⟨rfl, rfl, by decide⟩
    · exact ⟨rfl, rfl, by decide⟩
    · exact ⟨rfl, rfl, by decide⟩
    · exact quotes.still_name hn c hc
    · exact ⟨rfl, rfl, by decide⟩
    · exact ⟨rfl, rfl, by decide⟩
    · exact ⟨rfl, rfl, by decide⟩
  closing_cons := by simp
  closing_still c hc := by
    rcases List.mem_pair.mp hc with rfl | rfl
    · exact ⟨rfl, rfl⟩
    · exact ⟨rfl, rfl⟩

/-- The format strings that are saved. -/
def kept (value : Format → Text) : List Format := Format.all.filter fun n => value n ≠ []

/-- `stf_save_profile`, where the profile can be removed and written: the exit status and the file. `clobber` is false for `-`. -/
def stfSaveProfile (dir : Directory) (clobber : Bool) (old : Option Text) (value : Format → Text) : Nat × Option Text :=
  if !clobber && old.isSome then (2, old)
  else
    (0, if kept value = [] then none else some ((kept value).flatMap fun n => writtenLine isIfs dir (defaults.line n.name.val (value n))))

/-! ## Reading -/

/-- The text up to the single quote and the brace that end the line. -/
def unquoted (t : Text) : Option Text :=
  (['\'', '}'].isSuffixOf? t).bind fun v => if '\'' ∈ v then none else some v

/-- A variable that is set, and not empty. -/
def isSet (env : Variables) (n : Text) : Bool := (env n).any (· ≠ [])

/-- `export NAME=${NAME:-value}`. -/
def setDefault (env : Variables) (a : Text × Text) : Variables := if isSet env a.1 then env else Function.update env a.1 (some a.2)

/-- `stf_load_profile`: the exit status and the variables. -/
def stfLoadProfile (other : List Text → Text → Variables → Variables) (must : Bool) (file : Option Text) (env : Variables) : Nat × Variables :=
  match file with
  | some t => (0, source (defaults.parse unquoted) setDefault other (cutLines t).1 (cutLines t).2 env)
  | none => (if must then 1 else 0, env)

/-! ## Round trips -/

/-- What a format string is after the profile has been loaded: what it was, where it was set, or else what has been saved, if anything. -/
def loaded (env : Variables) (value : Format → Text) (n : Format) : Option Text :=
  if isSet env n.name.val || value n = [] then env n.name.val else some (value n)

/-- In every directory and every shell the saved profile is what is loaded. -/
def RoundTrips (value : Format → Text) : Prop :=
  ∀ dir old other must env n,
    (stfLoadProfile other must (stfSaveProfile dir true old value).2 env).2 (Format.name n).val = loaded env value n

theorem name_injective : Function.Injective Format.name := by
  intro m n h
  revert h
  cases m <;> cases n <;> decide

/-! ## Between the single quotes -/

theorem unquoted_eq_some {t v : Text} : unquoted t = some v ↔ t = v ++ defaults.closing ∧ '\'' ∉ v := by
  unfold unquoted
  constructor
  · intro h
    obtain ⟨u, hu, h⟩ := Option.bind_eq_some_iff.mp h
    split at h
    · cases h
    · rename_i hquote
      cases h
      rw [List.isSuffixOf?_eq_some_iff_append_eq] at hu
      exact ⟨hu.symm, hquote⟩
  · rintro ⟨rfl, hquote⟩
    have hsuffix : ['\'', '}'].isSuffixOf? (v ++ defaults.closing) = some v := List.isSuffixOf?_eq_some_iff_append_eq.mpr rfl
    rw [hsuffix, Option.bind_some, if_neg hquote]

theorem reads_of_unquoted {t v : Text} (h : unquoted t = some v) : Reads defaults.closing t v := by
  obtain ⟨rfl, -⟩ := unquoted_eq_some.mp h
  exact ⟨Nat.le_refl _, fun _ => rfl⟩

/-! ## Plain values are loaded -/

section

variable {value : Format → Text}

theorem setDefault_of_ne {env : Variables} {a : Text × Text} {n : Text} (h : n ≠ a.1) : setDefault env a n = env n := by
  unfold setDefault
  split
  · rfl
  · exact Function.update_of_ne h _ _

theorem setDefault_self {env : Variables} {n v : Text} (h : isSet env n = false) : setDefault env (n, v) n = some v := by
  rw [setDefault, if_neg (by simp [h])]
  exact Function.update_self _ _ _

theorem isSet_congr {env env' : Variables} {n : Text} (h : env n = env' n) : isSet env n = isSet env' n := by rw [isSet, isSet, h]

/-- The defaults are those of the format strings that are not set. -/
theorem foldl_setDefault (ns : List Format) (hns : ∀ m ∈ ns, value m ≠ []) (env : Variables) (n : Format) :
    (ns.map fun m => (m.name.val, value m)).foldl setDefault env n.name.val =
      if isSet env n.name.val || n ∉ ns then env n.name.val else some (value n) := by
  induction ns generalizing env with
  | nil => simp
  | cons m ns ih =>
    have ih := ih (fun k hk => hns k (List.mem_cons_of_mem m hk)) (setDefault env (m.name.val, value m))
    rw [List.map_cons, List.foldl_cons, ih]
    by_cases hm : n = m
    · subst hm
      cases hset : isSet env n.name.val with
      | true => simp [setDefault, hset]
      | false =>
        have hafter := @setDefault_self env n.name.val (value n) hset
        have hisSet : isSet (setDefault env (n.name.val, value n)) n.name.val = true := by
          rw [isSet, hafter, Option.any_some, decide_eq_true_eq]
          exact hns n List.mem_cons_self
        rw [hisSet, hafter]
        simp
    · have hval : n.name.val ≠ m.name.val := fun h => hm (name_injective (Subtype.ext h))
      have hsame := @setDefault_of_ne env (m.name.val, value m) _ hval
      rw [isSet_congr hsame, hsame]
      simp [hm]

theorem mem_kept {n : Format} : n ∈ kept value ↔ value n ≠ [] := by
  rw [kept, List.mem_filter, decide_eq_true_eq]
  exact and_iff_right (by cases n <;> decide)

theorem saved_kept (hkept : kept value ≠ []) (dir : Directory) (old : Option Text) :
    (stfSaveProfile dir true old value).2 = some ((kept value).flatMap fun n =>
      writtenLine isIfs dir (defaults.line n.name.val (value n))) := by
  rw [stfSaveProfile, if_neg (by simp)]
  exact if_neg hkept

/-- What is loaded from plain values. -/
theorem roundTrips_of_plain (h : ∀ n, value n ≠ [] → defaults.Plain unquoted n.name.val (value n)) : RoundTrips value := by
  intro dir old other must env n
  by_cases hkept : kept value = []
  · have hempty : value n = [] := by
      by_contra hne
      have hmem := mem_kept.mpr hne
      rw [hkept] at hmem
      cases hmem
    have hnone : (stfSaveProfile dir true old value).2 = none := by
      rw [stfSaveProfile, if_neg (by simp)]
      exact if_pos hkept
    have hloaded : loaded env value n = env n.name.val := by simp [loaded, hempty]
    rw [hnone, hloaded]
    rfl
  · have hplain : ∀ m ∈ kept value, defaults.Plain unquoted m.name.val (value m) :=
      fun m hm => h m (mem_kept.mp hm)
    have hlines := @Frame.cutLines_plain isIfs defaults Format Format.name unquoted _ value hplain dir
    have hassigned : assignments (defaults.parse unquoted) ((kept value).map fun m => defaults.line m.name.val (value m)) =
        (kept value).map fun m => (m.name.val, value m) := by
      rw [assignments, List.flatMap_map, List.map_eq_flatMap]
      exact List.flatMap_congr fun m hm => by rw [Frame.parse_line m.name.2 (hplain m hm).unquoted]; rfl
    have hsome : ∀ l ∈ (kept value).map fun m => defaults.line m.name.val (value m),
        (defaults.parse unquoted l).isSome = true := by
      intro l hl
      obtain ⟨m, hm, rfl⟩ := List.mem_map.mp hl
      rw [Frame.parse_line m.name.2 (hplain m hm).unquoted]
      rfl
    have hfold := foldl_setDefault (kept value) (fun m hm => mem_kept.mp hm) env n
    rw [saved_kept hkept, stfLoadProfile, hlines, source_lines hsome, hassigned]
    refine hfold.trans ?_
    simp [loaded, mem_kept]

/-! ## What else is lost -/

theorem setDefault_eq_some {n v : Text} (env : Variables) (a : Text × Text) (h : setDefault env a n = some v) : env n = some v ∨ a = (n, v) := by
  unfold setDefault at h
  split at h
  · exact Or.inl h
  · exact assign_eq_some env a h

/-- A format string that has been saved is found in a line of its own. -/
theorem found_line (h : RoundTrips value) {n : Format} (hn : value n ≠ []) :
    ∃ t, defaults.front n.name.val ++ t ∈ (cutLines ((kept value).flatMap fun m =>
        writtenLine isIfs .crossed (defaults.line m.name.val (value m)))).1 ∧
      unquoted t = some (value n) := by
  have hkept : kept value ≠ [] := List.ne_nil_of_mem (mem_kept.mpr hn)
  have hfound := h .crossed none (fun _ _ _ => fun _ => none) true (fun _ => none) n
  have hloaded : loaded (fun _ => none) value n = some (value n) := by simp [loaded, isSet, hn]
  rw [saved_kept hkept, stfLoadProfile, hloaded] at hfound
  obtain ⟨l, hl, as, has, hmem⟩ := mem_assignments (assigned_of_source setDefault_eq_some hfound)
  obtain ⟨t, rfl, ht⟩ := Frame.mem_parse has hmem
  exact ⟨t, hl, ht⟩

/-- The plain values are those of which the profile is loaded as it has been saved. -/
theorem roundTrips_iff (value : Format → Text) :
    RoundTrips value ↔ ∀ n, value n ≠ [] → defaults.Plain unquoted n.name.val (value n) := by
  refine ⟨fun h => ?_, roundTrips_of_plain⟩
  have hnodup : (kept value).Nodup := List.Nodup.filter _ (by decide)
  have hplain := @Frame.plain_of_read isIfs defaults Format Format.name unquoted _ value hnodup name_injective
    (fun t v ht => reads_of_unquoted ht) fun n hn => found_line h (mem_kept.mp hn)
  exact fun n hn => hplain n (mem_kept.mpr hn)

/-- One of two blanks is lost. -/
theorem blanks_lost : ¬RoundTrips fun n => if n = .results then "a  b".toList else [] := by
  intro h
  have hread := h .crossed none (fun _ _ env => env) true (fun _ => none) .results
  revert hread
  decide

end

end ZfsTest.Stf.Profile
