import ZfsTest.Prog.Distinct
import ZfsTest.Text.Ksh
import ZfsTest.Text.Separated
import ZfsTest.Stf.Wordlist

/-!
# Share options, `sharemgr_share`

The function translates the options of `share` into `sharemgr set` commands, in four passes over arrays: the options are split into
groups at `sec=`; the options that do not belong to a security flavour are taken out of the groups (`opt_global`); a group for several
flavours becomes one for each; and each of these becomes a command. `sharemgr` is there; its exit status, and the commands that create
the group and add the share, are left out.

The two arrays and `opt_global` are not local, and they are not emptied: what a call finds in them from an earlier one it translates
again. And the tests for the kind of an option and for an option that has been seen look for a part of the text. Where the shell hands the
options on as they stand (`Options.Handled`), a call is faithful exactly when neither matters (`sharemgrShare_faithful`).
-/

namespace ZfsTest.Nfs

open Stf

/-! ## `sharemgr_share` -/

/-- The variables that outlive a call. -/
structure Vars where
  optGroup : List Text
  optGroup2 : List Text
  optGlobal : Text

def Vars.fresh : Vars := ⟨[], [], []⟩

/-- Assignments to the first elements of an array. -/
def overlay (new old : List Text) : List Text := new ++ old.drop new.length

def tr (a b : Char) (t : Text) : Text := t.map fun c => if c = a then b else c

def contains (t part : Text) : Bool := t.tails.any fun s => part.isPrefixOf s

/-- `egrep "sec=|rw|ro|root=|window="`. -/
def secSpecific (o : Text) : Bool :=
  contains o "sec=".toList || contains o "rw".toList || contains o "ro".toList || contains o "root=".toList ||
    contains o "window=".toList

/-- The groups, one round of the loop for each: `${opts%%,sec=*}`, which is the rest of the options in the last round. -/
def splitGroups : Nat → Text → Option (List Text)
  | 0, _ => none
  | n + 1, opts =>
    let group := before (firstAt ",sec=".toList opts) opts
    if opts = [] then some []
    else if Ksh.matchesText opts group then some [group]
    else (splitGroups n (Ksh.cutFront (group ++ [',']) opts)).map fun groups => group :: groups

/-- The first group is for `sys` when it does not name a flavour. The test reads `$opt_group[0]`, the first group and `[0]`. -/
def withSys : List Text → List Text
  | [] => ["sec=sys,".toList]
  | group :: groups =>
    if "sec=".toList.isPrefixOf (group ++ "[0]".toList) then group :: groups else ("sec=sys,".toList ++ group) :: groups

/-- The words of `-p` options. -/
def properties (ps : List Text) : Text := ps.flatMap fun p => " -p ".toList ++ p

def globalProperty (o : Text) : Text :=
  if o = "nosuid".toList then "nosuid=true".toList
  else if o = "nosub".toList then "nosub=true".toList
  else if o = "public".toList then "public=true".toList
  else if o = "aclok".toList then "aclok=true".toList
  else if o = "log".toList then "log=global".toList
  else o

def secProperty (o : Text) : Text := if o = "rw".toList then "rw=*".toList else if o = "ro".toList then "ro=*".toList else o

section

variable (sh : Ksh) (files : List Text) (grep : List Text → Text → Bool)

/-- The fields of a text without quotes, in a working directory with the names `files`. -/
def fields (t : Text) : List Text := (split t).flatMap (Ksh.pathnames files)

/-- `$(echo $t)`. -/
def echoed (t : Text) : Text := sh.echo (joined (fields files t))

/-- `echo $o | egrep "sec=|rw|ro|root=|window="`. -/
def isOwn (o : Text) : Bool := secSpecific (echoed sh files o)

/-- An option goes to its group or to `opt_global`. -/
def sortOption (x : Text × Text) (o : Text) : Text × Text :=
  if isOwn sh files o then (x.1 ++ ' ' :: o, x.2)
  else if grep (fields files o) (echoed sh files x.2) then x
  else (x.1, x.2 ++ ' ' :: o)

/-- The second pass. -/
def extract : List Text → Text → List Text × Text
  | [], optGlobal => ([], optGlobal)
  | group :: groups, optGlobal =>
    let x := (fields files (tr ',' ' ' (echoed sh files group))).foldl (sortOption sh files grep) ([], optGlobal)
    (x.1 :: (extract groups x.2).1, (extract groups x.2).2)

/-- `awk '{print $1}'`. -/
def firstWord (t : Text) : Text := (split (echoed sh files t)).headD []

/-- The third pass, for one group. -/
def divide (group : Text) : List Text :=
  let flavours := firstWord sh files group
  if ':' ∈ flavours then
    let tmp := Ksh.cutFront " *".toList group
    let rest := Ksh.cutFront flavours tmp
    let names := behind ['='] (lastAt ['='] flavours) flavours
    (fields files (tr ':' ' ' (echoed sh files names))).map fun f => "sec=".toList ++ (f ++ ' ' :: rest)
  else [group]

/-- The words of a command between `sharemgr set -P nfs` and `-s $dir $tgrp`. -/
def flavourSet (group : Text) : List Text :=
  let flavour := firstWord sh files group
  let tmp := (echoed sh files group).dropWhile fun c => decide (c = ' ')
  let optlist := Ksh.cutFrontMax flavour tmp
  let property := properties ((fields files (if optlist = [] then "rw".toList else optlist)).map secProperty)
  "-S".toList :: (fields files (Ksh.cutFrontMax "sec=".toList flavour) ++ fields files property)

/-- The command for the global options, when there are any. -/
def globalSets (optGlobal : Text) : List (List Text) :=
  let property := properties ((fields files optGlobal).map globalProperty)
  if property = [] then [] else [fields files property]

/-- What the function makes of the groups of the first pass: the variables after the call, and the `set` commands it has issued. -/
def translate (st : Vars) (groups : List Text) : Vars × List (List Text) :=
  let x := extract sh files grep groups st.optGlobal
  let groups2 := overlay (x.1.flatMap (divide sh files)) st.optGroup2
  (⟨x.1, groups2, x.2⟩, globalSets files x.2 ++ groups2.map (flavourSet sh files))

/-- A call. The loop that splits the options makes progress in each round or runs for ever. -/
def sharemgrShare (st : Vars) (opts : Text) : Option (Vars × List (List Text)) :=
  let opts := if opts = [] then "rw".toList else opts
  (splitGroups (opts.length + 1) opts).map fun groups => translate sh files grep st (withSys (overlay groups st.optGroup))

/-- The variables after earlier calls in a shell. -/
def sharedBefore (history : List Text) : Option Vars :=
  history.foldlM (fun st opts => (sharemgrShare sh files grep st opts).map Prod.fst) Vars.fresh

end
/-! ## What an option string means -/

/-- `sec=f1:...:fk` and the options up to the next group. -/
structure Group where
  flavours : List Text
  options : List Text

/-- The options before the first `sec=`, and the groups. -/
structure Options where
  first : List Text
  groups : List Group

/-- `sec=f1:...:fk`. -/
def Group.sec (g : Group) : Text := "sec=".toList ++ [':'].intercalate g.flavours

def Group.words (g : Group) : List Text := g.sec :: g.options

/-- The option string. -/
def Options.text (o : Options) : Text := [','].intercalate (o.first ++ o.groups.flatMap Group.words)

/-- The options before the first `sec=` are a group for `sys`. -/
def Options.allGroups (o : Options) : List Group :=
  (if o.first = [] then [] else [⟨["sys".toList], o.first⟩]) ++ o.groups

/-- An option of a security flavour. -/
def isSec (o : Text) : Bool :=
  o = "rw".toList || o = "ro".toList || "rw=".toList.isPrefixOf o || "ro=".toList.isPrefixOf o || "root=".toList.isPrefixOf o ||
    "window=".toList.isPrefixOf o

def Options.globals (o : Options) : List Text := o.allGroups.flatMap fun g => g.options.filter fun x => !isSec x

def args (ps : List Text) : List Text := ps.flatMap fun p => ["-p".toList, p]

/-- The properties of a flavour with these options: `rw=*` when there are none. -/
def ownProperties (own : List Text) : List Text := if own = [] then ["rw=*".toList] else own.map secProperty

def Group.properties (g : Group) : List Text := ownProperties (g.options.filter isSec)

/-- The commands for the flavours. -/
def Options.flavourSets (o : Options) : List (List Text) :=
  o.allGroups.flatMap fun g => g.flavours.map fun f => "-S".toList :: f :: args g.properties

/-- The commands set the properties of the other options, each of them once, then the options of each flavour of each group, and nothing
else. -/
def Faithful (o : Options) (cmds : List (List Text)) : Prop :=
  ∃ ps : List Text, ps.Nodup ∧ (∀ p, p ∈ ps ↔ p ∈ o.globals.map globalProperty) ∧
    cmds = (if ps = [] then [] else [args ps]) ++ o.flavourSets

/-- A call ends, and its commands say what the options mean. -/
def Shared (sh : Ksh) (files : List Text) (grep : List Text → Text → Bool) (st : Vars) (o : Options) : Prop :=
  ∃ st' cmds, sharemgrShare sh files grep st o.text = some (st', cmds) ∧ Faithful o cmds

/-- A word without blanks. -/
structure Unbroken (w : Text) : Prop where
  ne_nil : w ≠ []
  blank : ∀ c ∈ w, isIfs c = false

/-- An option other than `sec=`. -/
structure OptionWord (o : Text) : Prop where
  unbroken : Unbroken o
  comma : ',' ∉ o
  sec : ¬"sec=".toList <+: o

structure FlavourWord (f : Text) : Prop where
  unbroken : Unbroken f
  comma : ',' ∉ f
  colon : ':' ∉ f

structure Group.Ok (g : Group) : Prop where
  ne_nil : g.flavours ≠ []
  flavours : ∀ f ∈ g.flavours, FlavourWord f
  options : ∀ o ∈ g.options, OptionWord o

/-- A list of options. -/
structure Options.Ok (o : Options) : Prop where
  first : ∀ x ∈ o.first, OptionWord x
  groups : ∀ g ∈ o.groups, g.Ok
  ne_nil : o.first ≠ [] ∨ o.groups ≠ []

/-! ## Options that the shell hands on -/

/-- The words of the groups as they stand in the option string. -/
def Options.parts (o : Options) : List (List Text) := (if o.first = [] then [] else [o.first]) ++ o.groups.map Group.words

/-- As a pattern, the rest of the option string matches its first group only when this is the last one, and each group with its comma takes
itself off. -/
def SplitsOff : List (List Text) → Prop
  | [] => True
  | g :: gs =>
    (Ksh.matchesText ([','].intercalate (g :: gs).flatten) ([','].intercalate g) = true ↔ gs = []) ∧
      (gs ≠ [] → Ksh.cutFront ([','].intercalate g ++ [',']) ([','].intercalate (g :: gs).flatten) = [','].intercalate gs.flatten) ∧
      SplitsOff gs

section

variable (sh : Ksh) (files : List Text)

/-- The options that `egrep` takes for options of a flavour. -/
def Group.own (g : Group) : List Text := g.options.filter (isOwn sh files)

/-- A group after the second pass. -/
def Group.kept (g : Group) : List Text := g.sec :: g.own sh files

/-- A flavour with its options goes through `echo` as it is, and as a pattern takes itself off. -/
structure HandedOn (f : Text) (own : List Text) : Prop where
  name : Ksh.pathnames files f = [f]
  first : Ksh.pathnames files ("sec=".toList ++ f) = ["sec=".toList ++ f]
  echo : sh.echo (joined (("sec=".toList ++ f) :: own)) = joined (("sec=".toList ++ f) :: own)
  cut : Ksh.cutFrontMax ("sec=".toList ++ f) (joined (("sec=".toList ++ f) :: own)) = body own

/-- So do several flavours. -/
structure Divided (g : Group) : Prop where
  equals : ∀ f ∈ g.flavours, '=' ∉ f
  names : echoed sh files ([':'].intercalate g.flavours) = [':'].intercalate g.flavours
  echo : sh.echo (joined (g.kept sh files)) = joined (g.kept sh files)
  cut : Ksh.cutFront g.sec (g.sec ++ body (g.own sh files)) = body (g.own sh files)

/-- The words of a group are the same behind every expansion and every `echo` that they go through. -/
structure Group.Handled (g : Group) : Prop where
  text : echoed sh files ([','].intercalate g.words) = [','].intercalate g.words
  words : ∀ w ∈ g.words, Ksh.pathnames files w = [w]
  properties : ∀ p ∈ g.properties, Ksh.pathnames files p = [p]
  own : ∀ w ∈ g.words, w = g.sec ∨ isSec w = true → isOwn sh files w = true
  flavours : ∀ f ∈ g.flavours, HandedOn sh files f (g.own sh files)
  divided : 1 < g.flavours.length → Divided sh files g

/-- The shell hands the options on as they stand. -/
structure Options.Handled (o : Options) : Prop where
  splits : SplitsOff o.parts
  groups : ∀ g ∈ o.allGroups, g.Handled sh files

end

variable {sh : Ksh} {files : List Text} {grep : List Text → Text → Bool} {ws : List Text}

theorem Unbroken.split_eq {w : Text} (h : Unbroken w) : split w = [w] := words_single h.blank h.ne_nil

/-- A word by its characters. -/
theorem Unbroken.of_all {w : Text} (hne : w ≠ []) (h : w.all fun c => !isIfs c) : Unbroken w :=
  ⟨hne, fun c hc => by simpa using List.all_eq_true.mp h c hc⟩

theorem Unbroken.sec {f : Text} (h : Unbroken f) : Unbroken ("sec=".toList ++ f) := by
  refine ⟨List.cons_ne_nil _ _, fun c hc => ?_⟩
  rcases List.mem_append.mp hc with hc | hc
  · have hall : "sec=".toList.all (fun c => !isIfs c) = true := by decide
    simpa using List.all_eq_true.mp hall c hc
  · exact h.blank c hc

/-- Words that pathname expansion leaves alone. -/
def Whole (files ws : List Text) : Prop := ∀ w ∈ ws, Unbroken w ∧ Ksh.pathnames files w = [w]

theorem Whole.cons {w : Text} (hw : Unbroken w) (halone : Ksh.pathnames files w = [w]) (hws : Whole files ws) : Whole files (w :: ws) :=
  List.forall_mem_cons.mpr ⟨⟨hw, halone⟩, hws⟩

section

variable (hws : Whole files ws)

include hws

theorem Whole.split_joined : split (joined ws) = ws := split_joined_words fun w hw => ⟨(hws w hw).1.ne_nil, (hws w hw).1.blank⟩

theorem Whole.split_body : split (body ws) = ws := by
  by_cases h : ws = []
  · rw [h]
    rfl
  · have hc : isIfs ' ' = true := rfl
    have happ := words_append hc [] (joined ws)
    rw [words_nil, List.nil_append, List.nil_append] at happ
    rw [body_joined h, split, happ]
    exact hws.split_joined

theorem Whole.fields_eq {t : Text} (ht : split t = ws) : fields files t = ws := by
  rw [fields, ht]
  exact flatMap_alone fun w hw => (hws w hw).2

theorem Whole.echoed_eq {t : Text} (ht : split t = ws) : echoed sh files t = sh.echo (joined ws) := by rw [echoed, hws.fields_eq ht]

end

variable (files) in
/-- Fields in front of a blank and behind it. -/
theorem fields_append (u t : Text) : fields files (u ++ ' ' :: t) = fields files u ++ fields files t := by
  have hc : isIfs ' ' = true := rfl
  rw [fields, split, words_append hc, List.flatMap_append]
  rfl

/-- The words of the option string, group by group: only the first word of a group can begin with `sec=`, and that of every group but
the first one does. -/
structure Cut (gs : List (List Text)) : Prop where
  ne_nil : ∀ g ∈ gs, g ≠ []
  comma : ∀ g ∈ gs, ∀ w ∈ g, ',' ∉ w
  word : ∀ g ∈ gs, ∀ w ∈ g, w ≠ []
  inside : ∀ g ∈ gs, ∀ w ∈ g.tail, ¬"sec=".toList <+: w
  heads : ∀ g ∈ gs.tail, ∃ w ws, g = w :: ws ∧ "sec=".toList <+: w

theorem Cut.tail {g : List Text} {gs : List (List Text)} (h : Cut (g :: gs)) : Cut gs where
  ne_nil := fun k hk => h.ne_nil k (List.mem_cons_of_mem g hk)
  comma := fun k hk => h.comma k (List.mem_cons_of_mem g hk)
  word := fun k hk => h.word k (List.mem_cons_of_mem g hk)
  inside := fun k hk => h.inside k (List.mem_cons_of_mem g hk)
  heads := fun k hk => h.heads k (List.mem_of_mem_tail hk)

/-- Where `,sec=` stands in the option string: at the end of the first group or later. -/
theorem Cut.occurs {g : List Text} {gs : List (List Text)} (h : Cut (g :: gs)) {l r : Text}
    (heq : [','].intercalate (g :: gs).flatten = l ++ (",sec=".toList ++ r)) :
    ∃ as, l = [','].intercalate (g ++ as) ∧ gs ≠ [] := by
  have hcomma : ∀ o ∈ (g :: gs).flatten, ',' ∉ o := fun o ho => by
    obtain ⟨k, hk, hok⟩ := List.mem_flatten.mp ho
    exact h.comma k hk o hok
  obtain ⟨as, bs, ha, hb, hsplit, hl, hr⟩ := intercalate_cut (c := ',') hcomma heq
  obtain ⟨b, bs, rfl⟩ := List.exists_cons_of_ne_nil hb
  have hsec : "sec=".toList <+: b := by
    cases bs with
    | nil =>
      rw [List.intercalate_singleton] at hr
      exact ⟨r, hr⟩
    | cons b' bs =>
      rw [List.intercalate_cons_cons, List.append_assoc] at hr
      exact front_of_separator (c := ',') (by decide) ⟨r, hr⟩
  rw [List.flatten_cons] at hsplit
  rcases List.append_eq_append_iff.mp hsplit with ⟨m, rfl, hm⟩ | ⟨m, hg, hm⟩
  · refine ⟨m, hl, ?_⟩
    rintro rfl
    cases m <;> cases hm
  · cases m with
    | nil =>
      refine ⟨[], ?_, ?_⟩
      · rw [hl, hg, List.append_nil, List.append_nil]
      · rintro rfl
        cases hm
    | cons b' m =>
      rw [List.cons_append, List.cons.injEq] at hm
      obtain ⟨rfl, -⟩ := hm
      obtain ⟨a, as, rfl⟩ := List.exists_cons_of_ne_nil ha
      refine absurd hsec (h.inside g List.mem_cons_self b ?_)
      rw [hg]
      exact List.mem_append_right as List.mem_cons_self

theorem Cut.flatten_ne_nil {g : List Text} {gs : List (List Text)} (h : Cut (g :: gs)) : (g :: gs).flatten ≠ [] := by
  rw [List.flatten_cons]
  exact List.append_ne_nil_of_left_ne_nil (h.ne_nil g List.mem_cons_self) _

/-- The first group, when there are more. -/
theorem Cut.cons {g k : List Text} {gs : List (List Text)} (h : Cut (g :: k :: gs)) :
    [','].intercalate (g :: k :: gs).flatten = [','].intercalate g ++ ',' :: [','].intercalate (k :: gs).flatten := by
  rw [List.flatten_cons]
  exact intercalate_append (h.ne_nil g List.mem_cons_self) h.tail.flatten_ne_nil

theorem Cut.here {g k : List Text} {gs : List (List Text)} (h : Cut (g :: k :: gs)) :
    ∃ r, [','].intercalate (g :: k :: gs).flatten = [','].intercalate g ++ (",sec=".toList ++ r) := by
  obtain ⟨w, ws, rfl, u, rfl⟩ := h.heads k List.mem_cons_self
  rw [h.cons, List.flatten_cons, List.cons_append]
  cases hrest : ws ++ gs.flatten with
  | nil =>
    rw [List.intercalate_singleton]
    exact ⟨u, rfl⟩
  | cons v vs =>
    rw [List.intercalate_cons_cons, List.append_assoc, List.append_assoc]
    exact ⟨_, rfl⟩

/-- `${opts%%,sec=*}` is the first group. -/
theorem Cut.before_eq {g : List Text} {gs : List (List Text)} (h : Cut (g :: gs)) :
    before (firstAt ",sec=".toList ([','].intercalate (g :: gs).flatten)) ([','].intercalate (g :: gs).flatten) =
      [','].intercalate g := by
  cases hfirst : firstAt ",sec=".toList ([','].intercalate (g :: gs).flatten) with
  | none =>
    cases gs with
    | nil =>
      rw [List.flatten_cons, List.flatten_nil, List.append_nil]
      rfl
    | cons k gs =>
      obtain ⟨r, hr⟩ := h.here
      exact absurd hr (found_nowhere (fun i hi => List.mem_range.mpr (Nat.lt_succ_of_le hi)) hfirst _ r)
  | some i =>
    obtain ⟨as, has, hne⟩ := h.occurs (found_at hfirst)
    obtain ⟨k, gs, rfl⟩ := List.exists_cons_of_ne_nil hne
    obtain ⟨r, hr⟩ := h.here
    obtain ⟨-, hmem, hmin⟩ := List.find?_range_eq_some.mp hfirst
    -- the end of the first group is one of the places
    have hle : i ≤ ([','].intercalate g).length := by
      by_contra hlt
      have hno := hmin _ (Nat.lt_of_not_le hlt)
      rw [hr, List.drop_left, List.isPrefixOf_iff_prefix.mpr (List.prefix_append _ r)] at hno
      cases hno
    have hlen : (before (some i) ([','].intercalate (g :: k :: gs).flatten)).length = i := by
      have hi := List.mem_range.mp hmem
      show (List.take i _).length = i
      rw [List.length_take]
      omega
    rw [has] at hlen ⊢
    cases as with
    | nil => rw [List.append_nil]
    | cons a as =>
      rw [intercalate_append (h.ne_nil g List.mem_cons_self) (List.cons_ne_nil a as), List.length_append, List.length_cons] at hlen
      omega

theorem Cut.text_ne_nil {g : List Text} {gs : List (List Text)} (h : Cut (g :: gs)) : [','].intercalate (g :: gs).flatten ≠ [] := by
  obtain ⟨w, ws, rfl⟩ := List.exists_cons_of_ne_nil (h.ne_nil g List.mem_cons_self)
  have hw := h.word _ List.mem_cons_self w List.mem_cons_self
  rw [List.flatten_cons, List.cons_append]
  cases ws ++ gs.flatten with
  | nil => rwa [List.intercalate_singleton]
  | cons v vs =>
    rw [List.intercalate_cons_cons, List.append_assoc]
    exact List.append_ne_nil_of_left_ne_nil hw _

theorem Cut.length_le {gs : List (List Text)} (h : Cut gs) : gs.length ≤ ([','].intercalate gs.flatten).length + 1 := by
  induction gs with
  | nil => exact Nat.zero_le _
  | cons g gs ih =>
    cases gs with
    | nil => exact Nat.le_add_left 1 _
    | cons k gs =>
      have hrest := ih h.tail
      rw [h.cons]
      simp only [List.length_append, List.length_cons] at hrest ⊢
      omega

/-- The first pass finds the groups. -/
theorem splitGroups_cut {gs : List (List Text)} (h : Cut gs) (hsplits : SplitsOff gs) (hne : gs ≠ []) {n : Nat} (hn : gs.length ≤ n) :
    splitGroups n ([','].intercalate gs.flatten) = some (gs.map fun g => [','].intercalate g) := by
  induction n generalizing gs with
  | zero => exact absurd (List.length_eq_zero_iff.mp (Nat.le_zero.mp hn)) hne
  | succ n ih =>
    obtain ⟨g, gs, rfl⟩ := List.exists_cons_of_ne_nil hne
    obtain ⟨hlast, hcut, hrest⟩ := hsplits
    rw [splitGroups, h.before_eq, if_neg h.text_ne_nil]
    by_cases hgs : gs = []
    · rw [if_pos (hlast.mpr hgs), hgs]
      rfl
    · rw [if_neg (fun hmatch => hgs (hlast.mp hmatch)), hcut hgs, ih h.tail hrest hgs (Nat.le_of_succ_le_succ hn)]
      rfl

/-! ## The groups of an option string -/

theorem mem_sec {g : Group} {c : Char} (h : c ∈ g.sec) : c ∈ "sec=:".toList ∨ ∃ f ∈ g.flavours, c ∈ f := by
  rcases List.mem_append.mp h with h | h
  · exact Or.inl (List.mem_append_left [':'] h)
  · refine (mem_intercalate h).imp ?_ id
    rintro rfl
    decide

theorem Group.Ok.unbroken_sec {g : Group} (h : g.Ok) : Unbroken g.sec := by
  refine ⟨List.cons_ne_nil _ _, fun c hc => ?_⟩
  rcases mem_sec hc with hc | ⟨f, hf, hcf⟩
  · have hall : "sec=:".toList.all (fun c => !isIfs c) = true := by decide
    simpa using List.all_eq_true.mp hall c hc
  · exact (h.flavours f hf).unbroken.blank c hcf

theorem Group.Ok.comma_sec {g : Group} (h : g.Ok) : ',' ∉ g.sec := by
  intro hc
  rcases mem_sec hc with hc | ⟨f, hf, hcf⟩
  · revert hc
    decide
  · exact (h.flavours f hf).comma hcf

theorem Group.Ok.words {g : Group} (h : g.Ok) : ∀ w ∈ g.words, Unbroken w ∧ ',' ∉ w := by
  intro w hw
  rcases List.mem_cons.mp hw with rfl | hw
  · exact ⟨h.unbroken_sec, h.comma_sec⟩
  · exact ⟨(h.options w hw).unbroken, (h.options w hw).comma⟩

theorem sys_ok {o : Options} (h : o.Ok) : Group.Ok ⟨["sys".toList], o.first⟩ := by
  refine ⟨List.cons_ne_nil _ _, fun f hf => ?_, h.first⟩
  rw [List.mem_singleton.mp hf]
  exact ⟨Unbroken.of_all (by decide) (by decide), by decide, by decide⟩

theorem Options.Ok.allGroups {o : Options} (h : o.Ok) : ∀ g ∈ o.allGroups, g.Ok := by
  intro g hg
  rcases List.mem_append.mp hg with hg | hg
  · split at hg
    · cases hg
    · rw [List.mem_singleton.mp hg]
      exact sys_ok h
  · exact h.groups g hg

theorem Options.text_eq (o : Options) : o.text = [','].intercalate o.parts.flatten := by
  unfold Options.text Options.parts
  rw [List.flatten_append, ← List.flatMap_def]
  split
  · rename_i h
    rw [h]
    rfl
  · rw [List.flatten_cons, List.flatten_nil, List.append_nil]

theorem Options.Ok.cut {o : Options} (h : o.Ok) : Cut o.parts := by
  have hmem : ∀ g ∈ o.parts, (g = o.first ∧ o.first ≠ []) ∨ ∃ k ∈ o.groups, g = k.words := by
    intro g hg
    rcases List.mem_append.mp hg with hg | hg
    · split at hg
      · cases hg
      · rename_i hne
        exact Or.inl ⟨List.mem_singleton.mp hg, hne⟩
    · obtain ⟨k, hk, rfl⟩ := List.mem_map.mp hg
      exact Or.inr ⟨k, hk, rfl⟩
  have hword : ∀ g ∈ o.parts, ∀ w ∈ g, Unbroken w ∧ ',' ∉ w := by
    intro g hg w hw
    rcases hmem g hg with ⟨rfl, -⟩ | ⟨k, hk, rfl⟩
    · exact ⟨(h.first w hw).unbroken, (h.first w hw).comma⟩
    · exact (h.groups k hk).words w hw
  refine ⟨fun g hg => ?_, fun g hg w hw => (hword g hg w hw).2, fun g hg w hw => (hword g hg w hw).1.ne_nil, fun g hg w hw => ?_,
    fun g hg => ?_⟩
  · rcases hmem g hg with ⟨rfl, hne⟩ | ⟨k, -, rfl⟩
    · exact hne
    · exact List.cons_ne_nil _ _
  · rcases hmem g hg with ⟨rfl, -⟩ | ⟨k, hk, rfl⟩
    · exact (h.first w (List.mem_of_mem_tail hw)).sec
    · exact ((h.groups k hk).options w hw).sec
  · have hgroups : g ∈ o.groups.map Group.words := by
      unfold Options.parts at hg
      split at hg
      · exact List.mem_of_mem_tail hg
      · exact hg
    obtain ⟨k, -, rfl⟩ := List.mem_map.mp hgroups
    exact ⟨k.sec, k.options, rfl, List.prefix_append _ _⟩

theorem Options.Ok.parts_ne_nil {o : Options} (h : o.Ok) : o.parts ≠ [] := by
  unfold Options.parts
  rcases h.ne_nil with hne | hne
  · rw [if_neg hne]
    exact List.cons_ne_nil _ _
  · exact List.append_ne_nil_of_right_ne_nil _ fun h => hne (List.map_eq_nil_iff.mp h)

theorem length_parts (o : Options) : o.parts.length = o.allGroups.length := by
  unfold Options.parts Options.allGroups
  rw [List.length_append, List.length_append, List.length_map]
  split <;> rfl

theorem sec_front (g : Group) : "sec=".toList <+: [','].intercalate g.words := by
  rw [Group.words]
  unfold Group.sec
  cases g.options with
  | nil =>
    rw [List.intercalate_singleton]
    exact List.prefix_append _ _
  | cons w ws =>
    rw [List.intercalate_cons_cons, List.append_assoc, List.append_assoc]
    exact List.prefix_append _ _

/-- The groups after the first pass. -/
def Options.read (o : Options) : List Text := o.allGroups.map fun g => [','].intercalate g.words

theorem withSys_parts {o : Options} (h : o.Ok) : withSys (o.parts.map fun g => [','].intercalate g) = o.read := by
  unfold Options.parts Options.read Options.allGroups
  by_cases hfirst : o.first = []
  · obtain ⟨g, gs, hgs⟩ := List.exists_cons_of_ne_nil (h.ne_nil.resolve_left fun hne => hne hfirst)
    rw [if_pos hfirst, if_pos hfirst, hgs]
    have hsec : "sec=".toList.isPrefixOf ([','].intercalate g.words ++ "[0]".toList) = true :=
      List.isPrefixOf_iff_prefix.mpr ((sec_front g).trans (List.prefix_append _ _))
    simp only [List.nil_append, List.map_cons, withSys]
    rw [if_pos hsec, List.map_map]
    rfl
  · obtain ⟨w, ws, hws⟩ := List.exists_cons_of_ne_nil hfirst
    have hw := (h.first w (hws ▸ List.mem_cons_self)).sec
    have hsec : ¬"sec=".toList.isPrefixOf ([','].intercalate o.first ++ "[0]".toList) = true := by
      rw [List.isPrefixOf_iff_prefix, hws]
      intro hpre
      cases ws with
      | nil =>
        rw [List.intercalate_singleton] at hpre
        exact hw (front_of_separator (c := '[') (by decide) hpre)
      | cons v vs =>
        rw [List.intercalate_cons_cons, List.append_assoc, List.append_assoc] at hpre
        exact hw (front_of_separator (c := ',') (by decide) hpre)
    have hsys : "sec=sys,".toList ++ [','].intercalate o.first =
        [','].intercalate (Group.words ⟨["sys".toList], o.first⟩) := by
      rw [Group.words, List.intercalate_cons_of_ne_nil hfirst]
      rfl
    simp only [if_neg hfirst, List.cons_append, List.nil_append, List.map_cons, withSys]
    rw [if_neg hsec, List.map_map, hsys]
    rfl

theorem withSys_append {as : List Text} (h : as ≠ []) (bs : List Text) : withSys (as ++ bs) = withSys as ++ bs := by
  obtain ⟨a, as, rfl⟩ := List.exists_cons_of_ne_nil h
  rw [List.cons_append, withSys, withSys]
  split <;> rfl

/-! ## Options of a flavour and global options -/

theorem foldl_sortOption_fst (os : List Text) (x : Text × Text) :
    (os.foldl (sortOption sh files grep) x).1 = x.1 ++ body (os.filter (isOwn sh files)) := by
  induction os generalizing x with
  | nil => exact (List.append_nil _).symm
  | cons o os ih =>
    rw [List.foldl_cons, ih, sortOption]
    by_cases hown : isOwn sh files o = true
    · rw [if_pos hown, List.filter_cons_of_pos hown, body_cons, List.append_assoc, List.cons_append]
    · rw [if_neg hown, List.filter_cons_of_neg hown]
      split <;> rfl

/-- Whether `grep` finds a word in the line of those in a list. -/
def found (sh : Ksh) (grep : List Text → Text → Bool) (ws : List Text) (o : Text) : Bool := grep [o] (sh.echo (joined ws))

theorem foldl_sortOption_snd {os : List Text} (hos : Whole files os) (x : Text × Text) :
    fields files (os.foldl (sortOption sh files grep) x).2 =
      (os.filter fun o => !isOwn sh files o).foldl (putNew (found sh grep)) (fields files x.2) := by
  induction os generalizing x with
  | nil => rfl
  | cons o os ih =>
    obtain ⟨⟨hword, halone⟩, hos⟩ := List.forall_mem_cons.mp hos
    have hone : fields files o = [o] := (Whole.cons hword halone fun w hw => by cases hw).fields_eq hword.split_eq
    rw [List.foldl_cons, ih hos, sortOption]
    by_cases hown : isOwn sh files o = true
    · rw [if_pos hown, List.filter_cons_of_neg (by simp [hown])]
    · have htest : grep [o] (echoed sh files x.2) = found sh grep (fields files x.2) o := rfl
      rw [if_neg hown, List.filter_cons_of_pos (by simpa using hown), List.foldl_cons, hone, htest]
      by_cases hfound : found sh grep (fields files x.2) o = true
      · have hput : putNew (found sh grep) (fields files x.2) o = fields files x.2 := if_pos hfound
        rw [if_pos hfound, hput]
      · have hput : putNew (found sh grep) (fields files x.2) o = fields files x.2 ++ [o] := if_neg hfound
        rw [if_neg hfound, hput, fields_append, hone]

/-- The options of a flavour among the words of a group. -/
def taken (sh : Ksh) (files : List Text) (group : Text) : List Text :=
  (fields files (tr ',' ' ' (echoed sh files group))).filter (isOwn sh files)

theorem extract_fst (groups : List Text) (t : Text) :
    (extract sh files grep groups t).1 = groups.map fun group => body (taken sh files group) := by
  induction groups generalizing t with
  | nil => rfl
  | cons group groups ih =>
    rw [extract, List.map_cons, ih, foldl_sortOption_fst]
    rfl

theorem extract_append (groups left : List Text) (t : Text) :
    (extract sh files grep (groups ++ left) t).2 = (extract sh files grep left (extract sh files grep groups t).2).2 := by
  induction groups generalizing t with
  | nil => rfl
  | cons group groups ih =>
    rw [List.cons_append, extract, extract]
    exact ih _

section

variable {g : Group} (h : g.Ok) (hg : g.Handled sh files)

include h hg

theorem whole_words : Whole files g.words := fun w hw => ⟨(h.words w hw).1, hg.words w hw⟩

theorem whole_own : Whole files (g.own sh files) := fun w hw =>
  whole_words h hg w (List.mem_cons_of_mem _ (List.mem_of_mem_filter hw))

theorem whole_kept : Whole files (g.kept sh files) :=
  Whole.cons h.unbroken_sec (hg.words _ List.mem_cons_self) (whole_own h hg)

/-- The words of a group, from its text. -/
theorem fields_group : fields files (tr ',' ' ' (echoed sh files ([','].intercalate g.words))) = g.words := by
  have hcomma : ∀ w ∈ g.words, ',' ∉ w := fun w hw => (h.words w hw).2
  rw [hg.text, tr, map_intercalate hcomma, ← joined_eq_intercalate]
  exact (whole_words h hg).fields_eq (whole_words h hg).split_joined

omit h in
theorem isOwn_sec : isOwn sh files g.sec = true := hg.own _ List.mem_cons_self (Or.inl rfl)

theorem taken_group : taken sh files ([','].intercalate g.words) = g.kept sh files := by
  rw [taken, fields_group h hg, Group.words, List.filter_cons_of_pos (isOwn_sec hg)]
  rfl

/-- The second pass, with the global options. -/
theorem foldl_group (x : Text × Text) : fields files (g.words.foldl (sortOption sh files grep) x).2 =
    (g.options.filter fun o => !isOwn sh files o).foldl (putNew (found sh grep)) (fields files x.2) := by
  rw [foldl_sortOption_snd (whole_words h hg), Group.words, List.filter_cons_of_neg (by simp [isOwn_sec hg])]

end

theorem extract_snd {gs : List Group} (hgs : ∀ g ∈ gs, g.Ok ∧ g.Handled sh files) (t : Text) :
    fields files (extract sh files grep (gs.map fun g => [','].intercalate g.words) t).2 =
      (gs.flatMap fun g => g.options.filter fun o => !isOwn sh files o).foldl (putNew (found sh grep)) (fields files t) := by
  induction gs generalizing t with
  | nil => rfl
  | cons g gs ih =>
    obtain ⟨⟨h, hg⟩, hgs⟩ := List.forall_mem_cons.mp hgs
    rw [List.map_cons, extract, fields_group h hg, ih hgs, foldl_group h hg, List.flatMap_cons, List.foldl_append]

/-! ## The commands -/

/-- `${tmp# *}`. -/
theorem cutFront_blank (t : Text) : Ksh.cutFront " *".toList (' ' :: t) = t := by
  have hblank : Glob.Literal [' '] := fun c hc => by
    rw [List.mem_singleton.mp hc]
    decide
  have hfind : (List.range ((' ' :: t).length + 1)).find? (fun i => glob " *".toList ((' ' :: t).take i)) = some 1 := by
    rw [List.find?_range_eq_some]
    refine ⟨(Glob.glob_front hblank _).mpr List.prefix_rfl, ?_, fun j hj => ?_⟩
    · rw [List.mem_range, List.length_cons]
      omega
    · obtain rfl : j = 0 := by omega
      rfl
  rw [Ksh.cutFront_of_not (by decide)]
  unfold Glob.cutFront
  rw [hfind]
  rfl

/-- `${flavour##sec=}`. -/
theorem cutFrontMax_sec (f : Text) : Ksh.cutFrontMax "sec=".toList ("sec=".toList ++ f) = f := by
  have hlit : Glob.Literal "sec=".toList := by
    have hall : "sec=".toList.all (fun c => !Glob.isMeta c && decide (c ≠ '\\')) = true := by decide
    intro c hc
    have hone := List.all_eq_true.mp hall c hc
    simpa using hone
  rw [Ksh.cutFrontMax_of_not (by decide), Glob.cutFrontMax_literal hlit]

theorem properties_cons (p : Text) (ps : List Text) : properties (p :: ps) = ' ' :: ("-p".toList ++ ' ' :: (p ++ properties ps)) := by
  rw [properties, List.flatMap_cons, List.append_assoc]
  rfl

/-- The fields of properties, up to the first one. -/
theorem fields_properties_cons (p : Text) (ps : List Text) :
    fields files (properties (p :: ps)) = "-p".toList :: fields files (p ++ properties ps) := by
  have hempty := fields_append files [] ("-p".toList ++ ' ' :: (p ++ properties ps))
  rw [List.nil_append] at hempty
  rw [properties_cons, hempty, fields_append]
  rfl

theorem fields_properties {ps : List Text} (hps : Whole files ps) : fields files (properties ps) = args ps := by
  induction ps with
  | nil => rfl
  | cons p ps ih =>
    obtain ⟨⟨hword, halone⟩, hps⟩ := List.forall_mem_cons.mp hps
    have hone : fields files p = [p] := (Whole.cons hword halone fun w hw => by cases hw).fields_eq hword.split_eq
    have hrest : fields files (p ++ properties ps) = p :: args ps := by
      cases ps with
      | nil =>
        rw [properties, List.flatMap_nil, List.append_nil]
        exact hone
      | cons q qs =>
        rw [← ih hps, properties_cons, fields_append, hone]
        -- the blank in front of the next property separates nothing
        have hempty := fields_append files [] ("-p".toList ++ ' ' :: (q ++ properties qs))
        rw [List.nil_append] at hempty
        rw [hempty]
        rfl
    rw [fields_properties_cons, hrest]
    rfl

/-- A group for one flavour. -/
theorem flavourSet_eq {t f : Text} {own : List Text} (hf : Unbroken f) (h : HandedOn sh files f own) (hown : Whole files own)
    (hprops : Whole files (ownProperties own)) (ht : split t = ("sec=".toList ++ f) :: own) :
    flavourSet sh files t = "-S".toList :: f :: args (ownProperties own) := by
  have hws : Whole files (("sec=".toList ++ f) :: own) := Whole.cons hf.sec h.first hown
  have hechoed : echoed sh files t = joined (("sec=".toList ++ f) :: own) := (hws.echoed_eq ht).trans h.echo
  have hfirst : firstWord sh files t = "sec=".toList ++ f := by
    rw [firstWord, hechoed, hws.split_joined]
    rfl
  have htmp : (joined (("sec=".toList ++ f) :: own)).dropWhile (fun c => decide (c = ' ')) = joined (("sec=".toList ++ f) :: own) := by
    cases own <;> rfl
  have hname : fields files f = [f] := (Whole.cons hf h.name fun w hw => by cases hw).fields_eq hf.split_eq
  have hset : properties ((fields files (if body own = [] then "rw".toList else body own)).map secProperty) =
      properties (ownProperties own) := by
    unfold ownProperties
    by_cases hnil : own = []
    · rw [if_pos hnil, hnil]
      rfl
    · have hbody : body own ≠ [] := by
        rw [body_joined hnil]
        exact List.cons_ne_nil _ _
      rw [if_neg hnil, if_neg hbody, hown.fields_eq hown.split_body]
  unfold flavourSet
  simp only [hfirst, hechoed, htmp, h.cut, cutFrontMax_sec, hname, hset, fields_properties hprops]
  rfl

theorem secProperty_cases (o : Text) :
    (isSec o = true ∧ (secProperty o = "rw=*".toList ∨ secProperty o = "ro=*".toList)) ∨ secProperty o = o := by
  unfold secProperty
  split
  · rename_i hrw
    exact Or.inl ⟨hrw ▸ rfl, Or.inl rfl⟩
  · split
    · rename_i hro
      exact Or.inl ⟨hro ▸ rfl, Or.inr rfl⟩
    · exact Or.inr rfl

theorem mem_properties {g : Group} {x : Text} (hx : x ∈ g.options) (hsec : isSec x = true) : secProperty x ∈ g.properties := by
  have hmem : x ∈ g.options.filter isSec := List.mem_filter.mpr ⟨hx, hsec⟩
  rw [Group.properties, ownProperties, if_neg (List.ne_nil_of_mem hmem)]
  exact List.mem_map_of_mem hmem

theorem isSec_properties {g : Group} {p : Text} (hp : p ∈ g.properties) : isSec p = true := by
  unfold Group.properties ownProperties at hp
  split at hp
  · rw [List.mem_singleton.mp hp]
    rfl
  · obtain ⟨x, hx, rfl⟩ := List.mem_map.mp hp
    rcases secProperty_cases x with ⟨-, hval | hval⟩ | hself
    · rw [hval]
      rfl
    · rw [hval]
      rfl
    · rw [hself]
      exact (List.mem_filter.mp hx).2

/-- When the properties of a group are what they should be, its options have been told apart. -/
theorem isSec_of_own {g : Group} (hprops : ownProperties (g.own sh files) = g.properties) {x : Text} (hx : x ∈ g.own sh files) :
    isSec x = true := by
  rcases secProperty_cases x with ⟨hsec, -⟩ | hself
  · exact hsec
  · refine isSec_properties (g := g) ?_
    rw [← hprops, ownProperties, if_neg (List.ne_nil_of_mem hx), List.mem_map]
    exact ⟨x, hx, hself⟩

section

variable {g : Group} (h : g.Ok) (hg : g.Handled sh files)

include h

theorem colon_sec (hmany : 1 < g.flavours.length) : ':' ∈ g.sec := by
  obtain ⟨f, fs, hfs⟩ := List.exists_cons_of_ne_nil h.ne_nil
  cases fs with
  | nil =>
    rw [hfs] at hmany
    exact absurd hmany (Nat.lt_irrefl 1)
  | cons k ks =>
    unfold Group.sec
    rw [hfs, List.intercalate_cons_cons]
    simp

theorem sec_single (hone : ¬1 < g.flavours.length) : ∃ f, g.flavours = [f] ∧ g.sec = "sec=".toList ++ f := by
  obtain ⟨f, fs, hfs⟩ := List.exists_cons_of_ne_nil h.ne_nil
  rw [hfs, List.length_cons] at hone
  have hnil : fs = [] := List.length_eq_zero_iff.mp (by omega)
  refine ⟨f, by rw [hfs, hnil], ?_⟩
  unfold Group.sec
  rw [hfs, hnil, List.intercalate_singleton]

include hg

theorem echo_kept : sh.echo (joined (g.kept sh files)) = joined (g.kept sh files) := by
  by_cases hmany : 1 < g.flavours.length
  · exact (hg.divided hmany).echo
  · obtain ⟨f, hf, hsec⟩ := sec_single h hmany
    have hecho := (hg.flavours f (hf ▸ List.mem_cons_self)).echo
    rwa [← hsec] at hecho

theorem echoed_kept : echoed sh files (body (g.kept sh files)) = joined (g.kept sh files) :=
  ((whole_kept h hg).echoed_eq (whole_kept h hg).split_body).trans (echo_kept h hg)

/-- What the function sets for a flavour of the group can be handed on. -/
theorem whole_properties : Whole files (ownProperties (g.own sh files)) := by
  intro p hp
  unfold ownProperties at hp
  split at hp
  · rename_i hnil
    have hnone : g.options.filter isSec = [] := by
      rw [List.filter_eq_nil_iff]
      intro x hx hsec
      have hown : x ∈ g.own sh files := List.mem_filter.mpr ⟨hx, hg.own x (List.mem_cons_of_mem _ hx) (Or.inr hsec)⟩
      rw [hnil] at hown
      cases hown
    have hprops : g.properties = ["rw=*".toList] := by rw [Group.properties, ownProperties, if_pos hnone]
    refine ⟨?_, hg.properties p (hprops ▸ hp)⟩
    rw [List.mem_singleton.mp hp]
    exact Unbroken.of_all (by decide) (by decide)
  · obtain ⟨x, hx, rfl⟩ := List.mem_map.mp hp
    rcases secProperty_cases x with ⟨hsec, hval⟩ | hself
    · refine ⟨?_, hg.properties _ (mem_properties (List.mem_of_mem_filter hx) hsec)⟩
      rcases hval with hval | hval
      · rw [hval]
        exact Unbroken.of_all (by decide) (by decide)
      · rw [hval]
        exact Unbroken.of_all (by decide) (by decide)
    · rw [hself]
      exact whole_own h hg x hx

/-- The third and the fourth pass for one group: a command for each flavour. -/
theorem divide_flavourSet : (divide sh files (body (g.kept sh files))).map (flavourSet sh files) =
    g.flavours.map fun f => "-S".toList :: f :: args (ownProperties (g.own sh files)) := by
  have hkept := whole_kept h hg
  have hset : ∀ f ∈ g.flavours, ∀ t, split t = ("sec=".toList ++ f) :: g.own sh files →
      flavourSet sh files t = "-S".toList :: f :: args (ownProperties (g.own sh files)) := fun f hf t ht =>
    flavourSet_eq (h.flavours f hf).unbroken (hg.flavours f hf) (whole_own h hg) (whole_properties h hg) ht
  have hfirst : firstWord sh files (body (g.kept sh files)) = g.sec := by
    rw [firstWord, echoed_kept h hg, hkept.split_joined]
    rfl
  unfold divide
  rw [hfirst]
  by_cases hmany : 1 < g.flavours.length
  · obtain ⟨hequals, hnames, -, hcut⟩ := hg.divided hmany
    have htmp : Ksh.cutFront " *".toList (body (g.kept sh files)) = g.sec ++ body (g.own sh files) := cutFront_blank _
    have hflavours : Whole files g.flavours := fun f hf => ⟨(h.flavours f hf).unbroken, (hg.flavours f hf).name⟩
    have hnoequals : '=' ∉ [':'].intercalate g.flavours := by
      intro hc
      rcases mem_intercalate hc with hc | ⟨f, hf, hcf⟩
      · cases hc
      · exact hequals f hf hcf
    have hbehind : behind ['='] (lastAt ['='] g.sec) g.sec = [':'].intercalate g.flavours := by
      have hsec : g.sec = "sec".toList ++ '=' :: [':'].intercalate g.flavours := rfl
      cases hlast : lastAt ['='] g.sec with
      | none =>
        have hall : ∀ i ≤ g.sec.length, i ∈ (List.range (g.sec.length + 1)).reverse := fun i hi =>
          List.mem_reverse.mpr (List.mem_range.mpr (Nat.lt_succ_of_le hi))
        exact absurd hsec (found_nowhere hall hlast _ _)
      | some i =>
        have hfound := hsec.symm.trans (found_at hlast)
        exact (cut_once (c := '=') (by decide) hnoequals hfound).2
    have htr : fields files (tr ':' ' ' (echoed sh files ([':'].intercalate g.flavours))) = g.flavours := by
      rw [hnames, tr, map_intercalate fun f hf => (h.flavours f hf).colon, ← joined_eq_intercalate]
      exact hflavours.fields_eq hflavours.split_joined
    rw [if_pos (colon_sec h hmany)]
    simp only [htmp, hcut, hbehind, htr]
    rw [List.map_map]
    refine List.map_congr_left fun f hf => hset f hf _ ?_
    have hc : isIfs ' ' = true := rfl
    have hone := (h.flavours f hf).unbroken.sec.split_eq
    dsimp only
    rw [← List.append_assoc, split, words_append hc]
    exact congrArg₂ (· ++ ·) hone (whole_own h hg).split_body
  · obtain ⟨f, hf, hsec⟩ := sec_single h hmany
    have hfm : f ∈ g.flavours := hf ▸ List.mem_cons_self
    have hcolon : ':' ∉ g.sec := by
      rw [hsec]
      intro hc
      rcases List.mem_append.mp hc with hc | hc
      · revert hc
        decide
      · exact (h.flavours f hfm).colon hc
    rw [if_neg hcolon, List.map_singleton, hf, List.map_singleton]
    refine congrArg (fun x => [x]) (hset f hfm _ ?_)
    rw [hkept.split_body, Group.kept, hsec]

theorem length_divide : (divide sh files (body (g.kept sh files))).length = g.flavours.length := by
  have hlen := congrArg List.length (divide_flavourSet h hg)
  rwa [List.length_map, List.length_map] at hlen

/-- A group that an earlier call has left is read as it is. -/
theorem fields_kept : fields files (tr ',' ' ' (echoed sh files (body (g.kept sh files)))) = g.kept sh files := by
  have hcomma : ∀ w ∈ g.kept sh files, ',' ∉ w := by
    intro w hw
    rcases List.mem_cons.mp hw with rfl | hw
    · exact h.comma_sec
    · exact (h.options w (List.mem_of_mem_filter hw)).comma
  have hnone : ',' ∉ joined (g.kept sh files) := by
    intro hc
    rcases mem_joined hc with hc | ⟨w, hw, hcw⟩
    · cases hc
    · exact hcomma w hw hcw
  have htr : tr ',' ' ' (joined (g.kept sh files)) = joined (g.kept sh files) := by
    rw [tr]
    refine (List.map_congr_left fun c hc => ?_).trans (List.map_id _)
    exact if_neg fun heq : c = ',' => hnone (heq ▸ hc)
  rw [echoed_kept h hg, htr, (whole_kept h hg).fields_eq (whole_kept h hg).split_joined]

omit h in
theorem isOwn_kept : ∀ w ∈ g.kept sh files, isOwn sh files w = true :=
  List.forall_mem_cons.mpr ⟨isOwn_sec hg, fun _ hw => (List.mem_filter.mp hw).2⟩

theorem taken_kept : taken sh files (body (g.kept sh files)) = g.kept sh files := by
  rw [taken, fields_kept h hg]
  exact List.filter_eq_self.mpr (isOwn_kept hg)

end

end ZfsTest.Nfs
