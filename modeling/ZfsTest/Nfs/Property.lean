import Mathlib.Data.List.DropRight
import Mathlib.Logic.Function.Basic
import ZfsTest.Shell.Echo
import ZfsTest.Shell.Redirect
import ZfsTest.Stf.Wordlist
import ZfsTest.Text.Fenced
import ZfsTest.Text.Glob
import ZfsTest.Text.Grep

/-!
# Properties of NFS, `set_nfs_property` and `restore_nfs_property`

Each set with a save file adds a line `ORIG_<property>=<value>` with the value before, without what is in front of its last `=`. The
restore sets the property to what `grep` finds for `ORIG_<property>`, without that text at its front. After a second set these are two
lines, `sharectl` gets more than one word, and the property stays as it is; the same happens when another property was saved whose value
has `ORIG_<property>` in it. So a value comes back when it is the only one that is found and is a single word without `=`, or when it is
there already and the restore fails (`nfs_property_restores_iff`).
-/

namespace ZfsTest.Nfs.Property

open Shell
open Stf (isIfs)

/-! ## The code -/

/-- The supported properties. -/
inductive Setting
  | nfsmapidDomain
  | serverVersmax
  | serverVersmin
  | serverDelegation
  deriving DecidableEq, Repr

namespace Setting

def name : Setting → Text
  | nfsmapidDomain => "nfsmapid_domain".toList
  | serverVersmax => "server_versmax".toList
  | serverVersmin => "server_versmin".toList
  | serverDelegation => "server_delegation".toList

/-- `def_value`. -/
def defValue : Setting → Text
  | nfsmapidDomain => "domain".toList
  | serverVersmax => "4".toList
  | serverVersmin => "2".toList
  | serverDelegation => "on".toList

def all : List Setting := [nfsmapidDomain, serverVersmax, serverVersmin, serverDelegation]

/-- `envvar`. -/
def envvar (p : Setting) : Text := "ORIG_".toList ++ p.name

/-- `$p=$v`. -/
def assign (p : Setting) (v : Text) : Text := p.name ++ '=' :: v

end Setting

/-- The values of the properties, and the save file. -/
structure World where
  conf : Setting → Text
  file : Option Text

/-- `sharectl get -p $p nfs`. -/
def sharectlGet (conf : Setting → Text) (p : Setting) : Text := p.assign (conf p) ++ ['\n']

/-- `sharectl set -p ... nfs` with these words: a single one, of a known property. -/
def sharectlSet (conf : Setting → Text) (ws : List Text) : Option (Setting → Text) :=
  match ws with
  | [w] =>
    (Setting.all.find? fun q => w.takeWhile (· ≠ '=') = q.name).map fun q => Function.update conf q (w.dropWhile (· ≠ '=')).tail
  | _ => none

/-- `echo "$envvar=$cur_value"`, with the value behind the last `=`. -/
def savedLine (p : Setting) (v : Text) : Text :=
  echo (p.envvar ++ '=' :: restLast (fun u => decide (u = ['='])) (substituted (p.assign v ++ ['\n'])))

section

variable (files : List Text)

/-- The words that `$p=$v` becomes where the pathnames are `files`. -/
def fields (p : Setting) (v : Text) : List Text := (words isIfs (p.assign v)).flatMap (Glob.pathnames files)

/-- The status and the state after `set_nfs_property $p $v`, with a save file or without one. -/
def setNfsProperty (w : World) (p : Setting) (v : Text) (save : Bool) : Nat × World :=
  let w := if save then
      let curValue := restLast (fun u => decide (u = ['='])) (substituted (sharectlGet w.conf p))
      { w with file := some (w.file.getD [] ++ echo (p.envvar ++ '=' :: curValue)) }
    else w
  match sharectlSet w.conf (fields files p v) with
  | some conf => (0, { w with conf })
  | none => (1, w)

/-- The status and the state after `restore_nfs_property $p`. -/
def restoreNfsProperty (w : World) (p : Setting) : Nat × World :=
  match w.file with
  | none => (1, w)
  | some t =>
    let ls := Grep.matching p.envvar t
    if ls = [] then (1, w)
    else
      let value := substituted (ls.flatMap fun l => l ++ ['\n'])
      let value := Glob.cutFrontMax (p.envvar ++ ['=']) value
      let value := if value = [] then p.defValue else value
      setNfsProperty files w p value false

/-- Sets with the save file, one after the other. -/
def run (w : World) (calls : List (Setting × Text)) : World :=
  calls.foldl (fun w call => (setNfsProperty files w call.1 call.2 true).2) w
/-! ## What it is for -/

/-- The values that a property is set to. -/
def own (p : Setting) (calls : List (Setting × Text)) : List Text := calls.filterMap fun call => if call.1 = p then some call.2 else none

/-- The property has its value again after sets of all properties with one save file, and the restore. -/
def Restored (conf : Setting → Text) (calls : List (Setting × Text)) (p : Setting) : Prop :=
  (restoreNfsProperty files (run files ⟨conf, none⟩ calls) p).2.conf p = conf p

/-! ## When it is -/

/-- The value that a property gets, if `$p=$v` is one word. -/
def effective (p : Setting) (v : Text) : Option Text :=
  match fields files p v with
  | [w] => some (w.dropWhile (· ≠ '=')).tail
  | _ => none

/-- The value after `vs`: the last that is one word. -/
def current (p : Setting) (o : Text) (vs : List Text) : Text := vs.foldl (fun cur v => (effective files p v).getD cur) o

/-- The properties that are set, with the values they had. -/
def saves (conf : Setting → Text) : List (Setting × Text) → List (Setting × Text)
  | [] => []
  | (q, v) :: calls => (q, conf q) :: saves (Function.update conf q ((effective files q v).getD (conf q))) calls

/-- The part of a value behind its last `=`, or the value. -/
def behind (v : Text) : Text := v.rtakeWhile (· ≠ '=')

/-- A value that `echo` prints as it is, on one line. -/
def Printed (v : Text) : Prop := '\\' ∉ v ∧ '\n' ∉ v

instance (v : Text) : Decidable (Printed v) := inferInstanceAs (Decidable (_ ∧ _))

/-- The line of a saved value has the name of the variable in it. -/
def Hit (p : Setting) (x : Setting × Text) : Prop := x.1 = p ∨ p.envvar <:+: behind x.2

instance (p : Setting) : DecidablePred (Hit p) := fun x => inferInstanceAs (Decidable (x.1 = p ∨ p.envvar <:+: behind x.2))

/-- What the property is set to when the value `o` was saved. -/
def given (p : Setting) (o : Text) : Text := if behind o = [] then p.defValue else behind o

/-- The value `o` survives the save and the restore. -/
inductive Survives (p : Setting) (o : Text) : Prop
  /-- It is one word without `=`, and as a pattern matches no other name. -/
  | whole (heq : '=' ∉ o) (hword : ∀ c ∈ o, isIfs c = false) (hnames : Glob.pathnames files (p.assign o) = [p.assign o])
  /-- The part that is saved is a pattern, and the assignment of the whole is the one name that it matches. -/
  | named {w sep : Text} (hgiven : given p o = w ++ sep) (hword : ∀ c ∈ w, isIfs c = false) (hsep : ∀ c ∈ sep, isIfs c = true)
      (hmeta : w.any Glob.isMeta = true) (hnames : files.filter (Glob.matchesName (p.assign w)) = [p.assign o])

/-- The save file, as `echo` writes it. -/
def written (xs : List (Setting × Text)) : Text := xs.flatMap fun x => savedLine x.1 x.2

/-- What the property is set to when one line is found. -/
def taken (p : Setting) (line : Text) : Text :=
  let value := Glob.cutFrontMax (p.envvar ++ ['=']) line
  if value = [] then p.defValue else value

/-- When one value is found, it survives, or it is not one word and the property has its value before the restore. When several are found
the second is what counts. Values with backslashes or newlines are counted by the lines that `echo` makes of them. -/
def Restorable (conf : Setting → Text) (calls : List (Setting × Text)) (p : Setting) : Prop :=
  let saved := saves files conf calls
  let kept := current files p (conf p) (own p calls) = conf p
  if ∀ x ∈ saved, Printed x.2 then
    if saved.countP (Hit p) = 1 then Survives files p (conf p) ∨ effective files p (given p (conf p)) = none ∧ kept
    else kept
  else
    match Grep.matching p.envvar (written saved) with
    | [line] => effective files p (taken p line) = some (conf p) ∨ effective files p (taken p line) = none ∧ kept
    | _ => kept

end

/-! ## Sets -/

variable {files : List Text} {p q : Setting}

theorem name_literal (p : Setting) :
    ∀ c ∈ p.name, Glob.isMeta c = false ∧ c ≠ '\\' ∧ isIfs c = false ∧ c ≠ '=' ∧ c ≠ '.' ∧ c ≠ '[' := by
  have hall : p.name.all (fun c => Glob.isMeta c = false ∧ c ≠ '\\' ∧ isIfs c = false ∧ c ≠ '=' ∧ c ≠ '.' ∧ c ≠ '[') =
      true := by
    cases p <;> rfl
  exact fun c hc => of_decide_eq_true (List.all_eq_true.mp hall c hc)

theorem assign_literal (p : Setting) : Glob.Literal (p.name ++ ['=']) := by
  intro c hc
  rcases List.mem_append.mp hc with hc | hc
  · exact ⟨(name_literal p c hc).1, (name_literal p c hc).2.1⟩
  · obtain rfl := List.mem_singleton.mp hc
    exact ⟨rfl, by decide⟩

theorem assign_whole (p : Setting) : ∀ c ∈ p.name ++ ['='], isIfs c = false := by
  intro c hc
  rcases List.mem_append.mp hc with hc | hc
  · exact (name_literal p c hc).2.2.1
  · obtain rfl := List.mem_singleton.mp hc
    rfl

theorem assign_eq (p : Setting) (v : Text) : p.assign v = (p.name ++ ['=']) ++ v := by
  rw [Setting.assign, List.append_assoc]
  rfl

/-- A single word is an assignment to the property. -/
theorem fields_single {v w : Text} (h : fields files p v = [w]) : ∃ r, w = p.assign r := by
  obtain ⟨r, ws, hwords⟩ := words_front (assign_whole p) (List.append_ne_nil_of_right_ne_nil p.name (List.cons_ne_nil '=' [])) v
  rw [fields, assign_eq, hwords, List.flatMap_cons] at h
  obtain ⟨x, hx⟩ := List.exists_mem_of_ne_nil _ (Glob.pathnames_ne_nil files ((p.name ++ ['=']) ++ r))
  have hmem : x ∈ [w] := h ▸ List.mem_append_left _ hx
  obtain ⟨t, ht⟩ := Glob.front_of_mem_pathnames (assign_literal p) hx
  exact ⟨t, by rw [assign_eq, ht, List.mem_singleton.mp hmem]⟩

theorem eq_notMem_name (p : Setting) : '=' ∉ p.name := fun h => (name_literal p '=' h).2.2.2.1 rfl

/-- What `sharectl` does with the words of an assignment. -/
theorem sharectlSet_fields (conf : Setting → Text) (p : Setting) (v : Text) :
    sharectlSet conf (fields files p v) = (effective files p v).map (Function.update conf p) := by
  unfold effective
  split
  · rename_i w hfields
    obtain ⟨r, rfl⟩ := fields_single hfields
    have hfind : Setting.all.find? (fun q => decide (p.name = q.name)) = some p := by
      cases p <;> decide
    rw [hfields, sharectlSet, Setting.assign, takeWhile_separator (eq_notMem_name p), hfind]
    rfl
  · rename_i hmany
    unfold sharectlSet
    split
    · rename_i w hfields
      exact absurd hfields (hmany w)
    · rfl

/-- One set with the save file. -/
theorem setNfsProperty_save (w : World) (p : Setting) (v : Text) :
    (setNfsProperty files w p v true).2 =
      ⟨Function.update w.conf p ((effective files p v).getD (w.conf p)), some (w.file.getD [] ++ savedLine p (w.conf p))⟩ := by
  rw [setNfsProperty, if_pos rfl]
  simp only [sharectlSet_fields]
  cases effective files p v with
  | none => simp [savedLine, sharectlGet]
  | some v => simp [savedLine, sharectlGet]

theorem setNfsProperty_conf (w : World) (p : Setting) (v : Text) :
    (setNfsProperty files w p v false).2.conf p = (effective files p v).getD (w.conf p) := by
  rw [setNfsProperty, if_neg Bool.false_ne_true]
  simp only [sharectlSet_fields]
  cases effective files p v with
  | none => rfl
  | some v => exact Function.update_self ..
theorem getD_eq_iff {x : Option Text} {c o : Text} : x.getD c = o ↔ x = some o ∨ x = none ∧ c = o := by
  cases x <;> simp

/-! ## Runs -/

variable {conf : Setting → Text} {calls : List (Setting × Text)}

theorem own_cons (p q : Setting) (v : Text) (calls : List (Setting × Text)) :
    own p ((q, v) :: calls) = if q = p then v :: own p calls else own p calls := by
  rw [own, List.filterMap_cons]
  by_cases h : q = p
  · simp [h, own]
  · simp [h, own]

theorem run_cons (w : World) (q : Setting) (v : Text) (calls : List (Setting × Text)) :
    run files w ((q, v) :: calls) = run files (setNfsProperty files w q v true).2 calls := rfl

theorem run_file (w : World) (calls : List (Setting × Text)) :
    (run files w calls).file.getD [] = w.file.getD [] ++ written (saves files w.conf calls) := by
  induction calls generalizing w with
  | nil => simp [run, saves, written]
  | cons call calls ih =>
    rw [run_cons, ih, setNfsProperty_save]
    simp [saves, written]

theorem run_conf (w : World) (p : Setting) (calls : List (Setting × Text)) :
    (run files w calls).conf p = current files p (w.conf p) (own p calls) := by
  induction calls generalizing w with
  | nil => rfl
  | cons call calls ih =>
    obtain ⟨q, v⟩ := call
    rw [run_cons, ih, setNfsProperty_save, own_cons]
    dsimp only
    by_cases h : q = p
    · subst h
      rw [if_pos rfl, Function.update_self]
      rfl
    · rw [if_neg h, Function.update_of_ne (Ne.symm h)]

theorem run_isSome (w : World) {calls : List (Setting × Text)} (h : w.file.isSome ∨ calls ≠ []) : (run files w calls).file.isSome := by
  induction calls generalizing w with
  | nil => exact h.resolve_right fun hne => hne rfl
  | cons call calls ih =>
    rw [run_cons, setNfsProperty_save]
    exact ih _ (.inl rfl)

/-- The first set of a property saves its value. -/
theorem mem_saves (hown : own p calls ≠ []) : (p, conf p) ∈ saves files conf calls := by
  induction calls generalizing conf with
  | nil => exact absurd rfl hown
  | cons call calls ih =>
    obtain ⟨q, v⟩ := call
    rw [own_cons] at hown
    by_cases h : q = p
    · subst h
      exact List.mem_cons_self
    · rw [if_neg h] at hown
      have hmem := @ih (Function.update conf q ((effective files q v).getD (conf q))) hown
      rw [Function.update_of_ne (Ne.symm h)] at hmem
      exact List.mem_cons_of_mem _ hmem

/-! ## What the restore finds -/

theorem envvar_literal (p : Setting) :
    ∀ c ∈ p.envvar, Glob.isMeta c = false ∧ c ≠ '\\' ∧ isIfs c = false ∧ c ≠ '.' ∧ c ≠ '[' := by
  have hall : p.envvar.all (fun c => Glob.isMeta c = false ∧ c ≠ '\\' ∧ isIfs c = false ∧ c ≠ '.' ∧ c ≠ '[') = true := by
    cases p <;> rfl
  exact fun c hc => of_decide_eq_true (List.all_eq_true.mp hall c hc)

theorem envvar_ne_nil (p : Setting) : p.envvar ≠ [] := by
  cases p <;> decide

theorem envvar_whole (p : Setting) : ∀ c ∈ p.envvar, isIfs c = false := fun c hc => (envvar_literal p c hc).2.2.1

theorem envvar_grep (p : Setting) : Grep.Literal p.envvar := fun c hc => (envvar_literal p c hc).2.2.2

theorem savedLine_eq (p : Setting) (v : Text) : ∃ u, savedLine p v = p.envvar ++ u := by
  rw [savedLine, echo_front fun h => (envvar_literal p _ h).2.1 rfl]
  exact ⟨_, rfl⟩

theorem front_literal (p : Setting) : Glob.Literal (p.envvar ++ ['=']) := by
  intro c hc
  rcases List.mem_append.mp hc with hc | hc
  · exact ⟨(envvar_literal p c hc).1, (envvar_literal p c hc).2.1⟩
  · obtain rfl := List.mem_singleton.mp hc
    exact ⟨rfl, by decide⟩

theorem front_whole (p : Setting) : ∀ c ∈ p.envvar ++ ['='], isIfs c = false := by
  intro c hc
  rcases List.mem_append.mp hc with hc | hc
  · exact envvar_whole p c hc
  · obtain rfl := List.mem_singleton.mp hc
    rfl

theorem eq_notMem_envvar (p : Setting) : '=' ∉ p.envvar := by
  cases p <;> decide

/-- What the restore sets, when the name is in the file. -/
def found (p : Setting) (t : Text) : Text :=
  let value := Glob.cutFrontMax (p.envvar ++ ['=']) (['\n'].intercalate (Grep.matching p.envvar t))
  if value = [] then p.defValue else value

theorem restore_eq {w : World} {t : Text} (ht : w.file = some t) (hm : p.envvar <:+: t) :
    (restoreNfsProperty files w p).2.conf p = (effective files p (found p t)).getD (w.conf p) := by
  have hne : Grep.matching p.envvar t ≠ [] :=
    Grep.matching_ne_nil (envvar_grep p) (envvar_ne_nil p) (envvar_whole p) rfl hm
  have hlines : substituted ((Grep.matching p.envvar t).flatMap fun l => l ++ ['\n']) = ['\n'].intercalate (Grep.matching p.envvar t) := by
    refine substituted_lines fun l hl => ?_
    obtain ⟨hl, hml⟩ := (Grep.mem_matching (envvar_grep p)).mp hl
    refine ⟨?_, newline_notMem_of_mem_linesOf hl⟩
    rintro rfl
    exact envvar_ne_nil p (List.infix_nil.mp hml)
  rw [restoreNfsProperty, ht]
  simp only [if_neg hne, hlines]
  exact setNfsProperty_conf w p _
/-- More than one word is no value. -/
theorem effective_broken {v : Text} (h : Broken isIfs v) : effective files p v = none := by
  obtain ⟨a, b, ws, hwords⟩ := h.words (assign_whole p) (List.append_ne_nil_of_right_ne_nil p.name (List.cons_ne_nil '=' []))
  obtain ⟨x, xs, hx⟩ := List.exists_cons_of_ne_nil (Glob.pathnames_ne_nil files a)
  obtain ⟨y, ys, hy⟩ := List.exists_cons_of_ne_nil (Glob.pathnames_ne_nil files b)
  unfold effective
  rw [fields, assign_eq, hwords, List.flatMap_cons, List.flatMap_cons, hx, hy]
  split
  · rename_i hone
    simp at hone
  · rfl

/-- The save file after a run, and the value before the restore. -/
theorem run_spec (files : List Text) (conf : Setting → Text) {p : Setting} {calls : List (Setting × Text)} (hown : own p calls ≠ []) :
    (run files ⟨conf, none⟩ calls).file = some (written (saves files conf calls)) ∧
      p.envvar <:+: written (saves files conf calls) := by
  have hcalls : calls ≠ [] := by
    rintro rfl
    exact hown rfl
  have hfile : (run files ⟨conf, none⟩ calls).file.getD [] = [] ++ written (saves files conf calls) := run_file ⟨conf, none⟩ calls
  have hsome : (run files ⟨conf, none⟩ calls).file.isSome := run_isSome ⟨conf, none⟩ (.inr hcalls)
  obtain ⟨t, ht⟩ := Option.isSome_iff_exists.mp hsome
  rw [ht, Option.getD_some, List.nil_append] at hfile
  obtain ⟨as, bs, hsaves⟩ := List.append_of_mem (@mem_saves files p conf calls hown)
  obtain ⟨u, hu⟩ := savedLine_eq p (conf p)
  refine ⟨by rw [ht, hfile], written as, u ++ written bs, ?_⟩
  rw [hsaves]
  simp [written, hu]

/-- Several lines are more than one word. -/
theorem found_several {t l l' : Text} {ls : List Text} (h : Grep.matching p.envvar t = l :: l' :: ls) :
    effective files p (found p t) = none := by
  have hl' : p.envvar <:+: l' := ((Grep.mem_matching (envvar_grep p)).mp (h ▸ List.mem_cons_of_mem l List.mem_cons_self)).2
  obtain ⟨c, hc⟩ := List.exists_mem_of_ne_nil _ (envvar_ne_nil p)
  have hbroken : Broken isIfs (['\n'].intercalate (Grep.matching p.envvar t)) := by
    rw [h, List.intercalate_cons_cons, List.append_assoc]
    exact ⟨l, '\n', _, c, rfl, rfl, mem_intercalate_of_mem List.mem_cons_self (hl'.subset hc), envvar_whole p c hc⟩
  have hcut : Broken isIfs (Glob.cutFrontMax (p.envvar ++ ['=']) (['\n'].intercalate (Grep.matching p.envvar t))) := by
    by_cases hfront : p.envvar ++ ['='] <+: ['\n'].intercalate (Grep.matching p.envvar t)
    · obtain ⟨r, hr⟩ := hfront
      rw [← hr] at hbroken ⊢
      rw [Glob.cutFrontMax_literal (front_literal p)]
      exact hbroken.of_append (front_whole p)
    · rwa [Glob.cutFrontMax_of_not (front_literal p) hfront]
  have hne : Glob.cutFrontMax (p.envvar ++ ['=']) (['\n'].intercalate (Grep.matching p.envvar t)) ≠ [] := by
    obtain ⟨u, c, v, d, heq, -⟩ := hcut
    rw [heq]
    simp
  rw [found, if_neg hne]
  exact effective_broken hcut

/-- The restore by the lines that are found. -/
theorem restored_iff (hown : own p calls ≠ []) :
    Restored files conf calls p ↔
      match Grep.matching p.envvar (written (saves files conf calls)) with
      | [line] => effective files p (taken p line) = some (conf p) ∨
          effective files p (taken p line) = none ∧ current files p (conf p) (own p calls) = conf p
      | _ => current files p (conf p) (own p calls) = conf p := by
  obtain ⟨hfile, hwithin⟩ := run_spec files conf hown
  have hne := Grep.matching_ne_nil (envvar_grep p) (envvar_ne_nil p) (envvar_whole p) rfl hwithin
  rw [Restored, restore_eq hfile hwithin, run_conf, getD_eq_iff]
  split
  · rename_i line hone
    rw [found, hone, List.intercalate_singleton]
    rfl
  · rename_i hmany
    obtain ⟨l, ls, hls⟩ := List.exists_cons_of_ne_nil hne
    obtain ⟨l', ls, rfl⟩ := List.exists_cons_of_ne_nil fun hnil : ls = [] => hmany l (hnil ▸ hls)
    rw [found_several hls]
    simp

/-! ## Values that are printed as they are -/

theorem eq_notMem_behind (v : Text) : '=' ∉ behind v := fun h => by simpa using List.mem_rtakeWhile_imp h

theorem mem_of_mem_behind {v : Text} {c : Char} (h : c ∈ behind v) : c ∈ v := (List.rtakeWhile_suffix _ v).subset h

theorem behind_of_notMem {v : Text} (h : '=' ∉ v) : behind v = v := List.rtakeWhile_eq_self_iff.mpr (ne_of_notMem h)

/-- What is behind the last `=` of an assignment. -/
theorem restLast_assign (q : Setting) (v : Text) : restLast (fun u => decide (u = ['='])) (q.assign v) = behind v := by
  have hsplit : ∃ u, q.assign v = u ++ '=' :: behind v := by
    by_cases heq : '=' ∈ v
    · have hne : v.rdropWhile (· ≠ '=') ≠ [] := fun hnil => by simpa using List.rdropWhile_eq_nil_iff.mp hnil '=' heq
      have hlast : (v.rdropWhile (· ≠ '=')).getLast hne = '=' := by simpa using List.rdropWhile_last_not _ v hne
      refine ⟨q.name ++ '=' :: (v.rdropWhile (· ≠ '=')).dropLast, ?_⟩
      have hfront := List.dropLast_append_getLast hne
      rw [hlast] at hfront
      have hv : v = ((v.rdropWhile (· ≠ '=')).dropLast ++ ['=']) ++ behind v := by
        rw [hfront]
        exact (List.rdropWhile_append_rtakeWhile ..).symm
      nth_rewrite 1 [hv]
      simp [Setting.assign]
    · exact ⟨q.name, by rw [behind_of_notMem heq, Setting.assign]⟩
  obtain ⟨u, hu⟩ := hsplit
  rw [hu]
  exact restLast_single (fun u => by rw [decide_eq_true_eq]) (eq_notMem_behind v)

/-- The line of a value. -/
def line (x : Setting × Text) : Text := x.1.envvar ++ '=' :: behind x.2

theorem newline_notMem_line {x : Setting × Text} (hx : Printed x.2) : '\n' ∉ line x := by
  rw [line, List.mem_append, List.mem_cons, not_or, not_or]
  exact ⟨fun h => absurd (envvar_whole x.1 _ h) Bool.noConfusion, by decide, fun h => hx.2 (mem_of_mem_behind h)⟩

theorem savedLine_printed {x : Setting × Text} (hx : Printed x.2) : savedLine x.1 x.2 = line x ++ ['\n'] := by
  have hassign : '\n' ∉ x.1.assign x.2 := by
    rw [assign_eq, List.mem_append, not_or]
    exact ⟨fun h => absurd (assign_whole x.1 _ h) Bool.noConfusion, hx.2⟩
  have hback : '\\' ∉ line x := by
    rw [line, List.mem_append, List.mem_cons, not_or, not_or]
    exact ⟨fun h => (envvar_literal x.1 _ h).2.1 rfl, by decide, fun h => hx.1 (mem_of_mem_behind h)⟩
  rw [savedLine, substituted_line hassign, restLast_assign, ← line, echo_plain hback]

/-- The name of one variable is in that of another only if they are the same. -/
theorem envvar_infix_iff : p.envvar <:+: q.envvar ↔ q = p := by
  cases p <;> cases q <;> decide

theorem infix_line_iff (x : Setting × Text) : p.envvar <:+: line x ↔ Hit p x := by
  rw [Hit, ← envvar_infix_iff]
  constructor
  · exact infix_of_separator (eq_notMem_envvar p)
  · rintro (h | h)
    · exact h.trans (List.prefix_append _ _).isInfix
    · exact h.trans ((List.suffix_cons '=' _).trans (List.suffix_append _ _)).isInfix

/-- The lines that are found are those of the values that count. -/
theorem matching_written {xs : List (Setting × Text)} (hxs : ∀ x ∈ xs, Printed x.2) :
    Grep.matching p.envvar (written xs) = (xs.filter (Hit p)).map line := by
  have hwritten : written xs = (xs.map line).flatMap fun l => l ++ ['\n'] := by
    rw [written, List.flatMap_map]
    exact List.flatMap_congr fun x hx => savedLine_printed (hxs x hx)
  have hlines : linesOf (written xs) = xs.map line := by
    rw [hwritten]
    refine linesOf_lines fun l hl => ?_
    obtain ⟨x, hx, rfl⟩ := List.mem_map.mp hl
    exact newline_notMem_line (hxs x hx)
  rw [Grep.matching, hlines, List.filter_map]
  congr 1
  refine List.filter_congr fun x _ => ?_
  rw [Bool.eq_iff_iff, decide_eq_true_eq, ← infix_line_iff]
  exact Grep.found_literal (envvar_grep p) (line x)

theorem taken_line (o : Text) : taken p (line (p, o)) = given p o := by
  have hcut : Glob.cutFrontMax (p.envvar ++ ['=']) ((p.envvar ++ ['=']) ++ behind o) = behind o :=
    Glob.cutFrontMax_literal (front_literal p) (behind o)
  rw [List.append_assoc] at hcut
  show (if _ = [] then _ else _) = _
  rw [show line (p, o) = p.envvar ++ (['='] ++ behind o) from rfl, hcut]
  rfl

/-! ## A value that survives -/

theorem effective_eq_some {v o : Text} : effective files p v = some o ↔ fields files p v = [p.assign o] := by
  have hbehind : ∀ r, ((p.assign r).dropWhile (· ≠ '=')).tail = r := fun r => by
    rw [Setting.assign, dropWhile_separator (eq_notMem_name p), List.tail_cons]
  constructor
  · intro h
    unfold effective at h
    split at h
    · rename_i w hfields
      obtain ⟨r, rfl⟩ := fields_single hfields
      rw [hbehind, Option.some.injEq] at h
      rw [hfields, h]
    · cases h
  · intro h
    rw [effective, h]
    exact congrArg some (hbehind o)

/-- Separators behind the only word are lost. -/
theorem fields_word {w sep : Text} (hw : ∀ c ∈ w, isIfs c = false) (hsep : ∀ c ∈ sep, isIfs c = true) :
    fields files p (w ++ sep) = Glob.pathnames files (p.assign w) := by
  have hword : ∀ c ∈ p.assign w, isIfs c = false := by
    intro c hc
    rw [assign_eq] at hc
    exact (List.mem_append.mp hc).elim (assign_whole p c) (hw c)
  have hassign : p.assign (w ++ sep) = p.assign w ++ sep := by
    rw [assign_eq, assign_eq]
    simp only [List.append_assoc]
  rw [fields, hassign, words_separators hsep, words_single hword (by rw [Setting.assign]; simp), List.flatMap_singleton]

/-- A text has several words, or is one in front of separators. -/
theorem broken_or_word (v : Text) :
    Broken isIfs v ∨ ∃ w sep, v = w ++ sep ∧ (∀ c ∈ w, isIfs c = false) ∧ ∀ c ∈ sep, isIfs c = true := by
  by_cases hsep : ∀ c ∈ v.dropWhile fun c => !isIfs c, isIfs c = true
  · exact .inr ⟨v.takeWhile fun c => !isIfs c, _, List.takeWhile_append_dropWhile.symm,
      fun c hc => by simpa using List.mem_takeWhile_imp hc, hsep⟩
  · push Not at hsep
    obtain ⟨d, hd, hsp⟩ := hsep
    have hsp : isIfs d = false := eq_false_of_ne_true hsp
    have hhead := List.head?_dropWhile_not (fun c => !isIfs c) v
    have hv : v = v.takeWhile (fun c => !isIfs c) ++ v.dropWhile fun c => !isIfs c := List.takeWhile_append_dropWhile.symm
    generalize v.dropWhile (fun c => !isIfs c) = rest at hd hhead hv
    cases rest with
    | nil => cases hd
    | cons c rest =>
      have hc : isIfs c = true := by simpa using hhead
      refine .inl ⟨_, c, rest, d, hv, hc, (List.mem_cons.mp hd).resolve_left fun heq => ?_, hsp⟩
      rw [heq, hc] at hsp
      cases hsp

theorem eq_notMem_given (p : Setting) (o : Text) : '=' ∉ given p o := by
  rw [given]
  split
  · cases p <;> decide
  · exact eq_notMem_behind o

theorem survives_iff {o : Text} (hne : o ≠ []) : Survives files p o ↔ effective files p (given p o) = some o := by
  rw [effective_eq_some]
  constructor
  · rintro (⟨heq, hword, hnames⟩ | ⟨hgiven, hword, hsep, hmeta, hnames⟩)
    · have hgiven : given p o = o ++ [] := by
        rw [given, behind_of_notMem heq, if_neg hne, List.append_nil]
      rw [hgiven, fields_word hword fun _ h => absurd h List.not_mem_nil, hnames]
    · rw [hgiven, fields_word hword hsep, Glob.pathnames, if_pos (by rw [assign_eq, List.any_append, hmeta, Bool.or_true]), hnames]
  · intro h
    obtain ⟨w, sep, hgiven, hword, hsep⟩ := (broken_or_word (given p o)).resolve_left fun hbroken => by
      cases (effective_eq_some.mpr h).symm.trans (effective_broken hbroken)
    rw [hgiven, fields_word hword hsep] at h
    by_cases hw : w = o
    · subst hw
      exact .whole (fun heq => eq_notMem_given p w (hgiven ▸ List.mem_append_left sep heq)) hword h
    · have hother : ¬[p.assign w] = [p.assign o] := fun heq => hw (by
        rw [List.cons.injEq, assign_eq, assign_eq] at heq
        exact List.append_cancel_left heq.1)
      rw [Glob.pathnames] at h
      split at h
      · rename_i hmeta
        have hwmeta : w.any Glob.isMeta = true := by
          rw [assign_eq, List.any_append, Bool.or_eq_true] at hmeta
          refine hmeta.resolve_left fun hfront => ?_
          obtain ⟨c, hc, hcm⟩ := List.any_eq_true.mp hfront
          rw [(assign_literal p c hc).1] at hcm
          cases hcm
        split at h
        · exact absurd h hother
        · exact .named hgiven hword hsep hwmeta h
      · exact absurd h hother

/-! ## When the value is restored -/

theorem nfs_property_restores_iff (files : List Text) (conf : Setting → Text) (calls : List (Setting × Text)) (p : Setting)
    (hown : own p calls ≠ []) (hne : conf p ≠ []) : Restored files conf calls p ↔ Restorable files conf calls p := by
  rw [restored_iff hown, Restorable]
  by_cases hprinted : ∀ x ∈ saves files conf calls, Printed x.2
  · rw [if_pos hprinted, matching_written hprinted]
    have hmem : (p, conf p) ∈ (saves files conf calls).filter (Hit p) :=
      List.mem_filter.mpr ⟨mem_saves hown, decide_eq_true (.inl rfl)⟩
    rw [List.countP_eq_length_filter]
    by_cases hone : ((saves files conf calls).filter (Hit p)).length = 1
    · -- The only value that counts is the original one.
      obtain ⟨x, hx⟩ := List.length_eq_one_iff.mp hone
      rw [hx] at hmem
      rw [if_pos hone, hx, ← List.mem_singleton.mp hmem, List.map_singleton, survives_iff hne]
      dsimp only
      rw [taken_line]
    · rw [if_neg hone]
      split
      · rename_i hlines
        exact absurd (by simpa using congrArg List.length hlines) hone
      · exact Iff.rfl
  · rw [if_neg hprinted]

/-- `server_versmax` is `4`, is set to `3`, and is `4` again. -/
theorem nfs_property_restores_once :
    Restored [] (fun _ => ['4']) [(.serverVersmax, ['3'])] .serverVersmax :=
  (nfs_property_restores_iff [] (fun _ => ['4']) [(.serverVersmax, ['3'])] .serverVersmax (by decide) (by decide)).mpr (by
    rw [Restorable, if_pos (by decide), if_pos (by simp [saves, Hit])]
    exact .inl (.whole (by decide) (fun c hc => by rw [List.mem_singleton.mp hc]; rfl) rfl))

/-- `server_versmax` is `4`, and is set to `3` and then to `2`. -/
theorem not_nfs_property_restores :
    ¬∀ (files : List Text) (conf : Setting → Text) (calls : List (Setting × Text)) (p : Setting),
      own p calls ≠ [] → conf p ≠ [] → '\n' ∉ conf p → Restored files conf calls p := by
  intro h
  have hrestored := h [] (fun _ => ['4']) [(.serverVersmax, ['3']), (.serverVersmax, ['2'])] .serverVersmax (by decide) (by decide)
    (by decide)
  exact absurd hrestored (by unfold Restored; decide)

end ZfsTest.Nfs.Property
