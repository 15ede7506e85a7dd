import ZfsTest.Nfs.Share

/-!
# Faithful calls of `sharemgr_share`

A call with options that the shell hands on as they stand (`Options.Handled`) is faithful when it is undisturbed (`Undisturbed.shared`), and
after any calls with such options only then (`undisturbed_of_shared`): the commands for global options and those for flavours begin
differently, so that their numbers show what has been left behind. Options without brackets, parentheses and backslashes are handed on as
they stand (`Options.Ok.handled`).
-/

namespace ZfsTest.Nfs

open Stf

variable {sh : Ksh} {files : List Text} {grep : List Text → Text → Bool} {ws : List Text}

/-! ## A call -/

/-- Nothing of earlier calls is left behind the elements that the call assigns; `egrep` takes no global option for one of a flavour; the
properties that earlier calls have left are different, and properties of this call; and `grep` is right about each global option in
turn. -/
structure Undisturbed (sh : Ksh) (files : List Text) (grep : List Text → Text → Bool) (st : Vars) (o : Options) : Prop where
  optGroup : st.optGroup.length ≤ o.allGroups.length
  optGroup2 : st.optGroup2.length ≤ (o.allGroups.flatMap Group.flavours).length
  kinds : ∀ x ∈ o.globals, isOwn sh files x = false
  optGlobal : ((fields files st.optGlobal).map globalProperty).Nodup ∧
    ∀ x ∈ fields files st.optGlobal, globalProperty x ∈ o.globals.map globalProperty
  seen : Tells (found sh grep) globalProperty (fields files st.optGlobal) o.globals

/-- What calls leave behind: groups with a flavour, and words that pathname expansion leaves alone. -/
structure Vars.Left (sh : Ksh) (files : List Text) (st : Vars) : Prop where
  optGroup : ∀ t ∈ st.optGroup, ∃ g : Group, g.Ok ∧ g.Handled sh files ∧ t = body (g.kept sh files)
  optGlobal : Whole files (fields files st.optGlobal)

theorem overlay_of_le {new old : List Text} (h : old.length ≤ new.length) : overlay new old = new := by
  rw [overlay, List.drop_eq_nil_of_le h, List.append_nil]

theorem globalProperty_cases (o : Text) : globalProperty o = o ∨
    globalProperty o ∈ ["nosuid=true".toList, "nosub=true".toList, "public=true".toList, "aclok=true".toList, "log=global".toList] := by
  unfold globalProperty
  split_ifs <;> simp

theorem whole_globalProperties (hws : Whole files ws) : Whole files (ws.map globalProperty) := by
  intro p hp
  obtain ⟨w, hw, rfl⟩ := List.mem_map.mp hp
  rcases globalProperty_cases w with hself | hmem
  · rw [hself]
    exact hws w hw
  · simp only [List.mem_cons, List.not_mem_nil, or_false] at hmem
    rcases hmem with h | h | h | h | h
    all_goals
      rw [h]
      exact ⟨Unbroken.of_all (by decide) (by decide), rfl⟩

theorem globalSets_eq {t : Text} (h : Whole files ((fields files t).map globalProperty)) :
    globalSets files t = if (fields files t).map globalProperty = [] then [] else [args ((fields files t).map globalProperty)] := by
  unfold globalSets
  dsimp only
  rw [fields_properties h]
  cases (fields files t).map globalProperty with
  | nil => rfl
  | cons p ps => rfl

/-- The commands for global options and those for flavours begin differently. -/
theorem globalSets_head {t : Text} : ∀ cmd ∈ globalSets files t, cmd.head? = some "-p".toList := by
  intro cmd hcmd
  unfold globalSets at hcmd
  cases hps : (fields files t).map globalProperty with
  | nil =>
    rw [hps] at hcmd
    cases hcmd
  | cons p ps =>
    rw [hps] at hcmd
    dsimp only at hcmd
    split at hcmd
    · cases hcmd
    · rw [List.mem_singleton.mp hcmd, fields_properties_cons]
      rfl

theorem args_injective {ps qs : List Text} (h : args ps = args qs) : ps = qs := by
  induction ps generalizing qs with
  | nil =>
    cases qs with
    | nil => rfl
    | cons q qs => cases h
  | cons p ps ih =>
    cases qs with
    | nil => cases h
    | cons q qs =>
      obtain ⟨-, hpq⟩ := List.cons.inj h
      obtain ⟨hp, hps⟩ := List.cons.inj hpq
      rw [hp, ih hps]

/-- The properties of two commands for global options. -/
theorem globals_injective {ps qs : List Text} (hpq : (if ps = [] then [] else [args ps]) = if qs = [] then [] else [args qs]) :
    ps = qs := by
  split_ifs at hpq with hp hq hq
  · rw [hp, hq]
  · exact args_injective (List.cons.inj hpq).1

section

variable {o : Options} (h : o.Ok) (hshell : o.Handled sh files)

include h hshell

theorem groups_ok : ∀ g ∈ o.allGroups, g.Ok ∧ g.Handled sh files := fun g hg => ⟨h.allGroups g hg, hshell.groups g hg⟩

theorem whole_globals : Whole files o.globals := by
  intro x hx
  obtain ⟨g, hg, hx⟩ := List.mem_flatMap.mp hx
  exact whole_words (h.allGroups g hg) (hshell.groups g hg) x (List.mem_cons_of_mem _ (List.mem_of_mem_filter hx))

variable (grep) in
/-- The first pass, with what it leaves in the array. -/
theorem sharemgrShare_eq (st : Vars) : sharemgrShare sh files grep st o.text =
    some (translate sh files grep st (o.read ++ st.optGroup.drop o.allGroups.length)) := by
  have hparts : o.parts.map (fun g => [','].intercalate g) ≠ [] := fun hnil => h.parts_ne_nil (List.map_eq_nil_iff.mp hnil)
  have htext : o.text ≠ [] := by
    obtain ⟨g, gs, hgs⟩ := List.exists_cons_of_ne_nil h.parts_ne_nil
    have hcut := h.cut
    rw [o.text_eq, hgs]
    rw [hgs] at hcut
    exact hcut.text_ne_nil
  have hgroups : splitGroups (o.text.length + 1) o.text = some (o.parts.map fun g => [','].intercalate g) := by
    have hlen := h.cut.length_le
    rw [← o.text_eq] at hlen
    have hsplit := splitGroups_cut h.cut hshell.splits h.parts_ne_nil hlen
    rwa [← o.text_eq] at hsplit
  unfold sharemgrShare
  rw [if_neg htext]
  simp only [hgroups, Option.map_some, overlay, List.length_map, length_parts, withSys_append hparts, withSys_parts h]

variable (grep) in
/-- The groups behind the second pass. -/
theorem extract_read (left : List Text) (t : Text) : (extract sh files grep (o.read ++ left) t).1 =
    (o.allGroups.map fun g => body (g.kept sh files)) ++ left.map fun u => body (taken sh files u) := by
  rw [extract_fst, List.map_append, Options.read, List.map_map]
  refine congrArg (· ++ _) (List.map_congr_left fun g hg => ?_)
  exact congrArg body (taken_group (h.allGroups g hg) (hshell.groups g hg))

theorem divide_kept : ((o.allGroups.map fun g => body (g.kept sh files)).flatMap (divide sh files)).map (flavourSet sh files) =
    o.allGroups.flatMap fun g => g.flavours.map fun f => "-S".toList :: f :: args (ownProperties (g.own sh files)) := by
  rw [List.flatMap_map, List.map_flatMap]
  exact List.flatMap_congr fun g hg => divide_flavourSet (h.allGroups g hg) (hshell.groups g hg)

theorem length_divide_kept :
    ((o.allGroups.map fun g => body (g.kept sh files)).flatMap (divide sh files)).length = (o.allGroups.flatMap Group.flavours).length := by
  rw [List.flatMap_map, List.length_flatMap, List.length_flatMap]
  exact congrArg List.sum (List.map_congr_left fun g hg => length_divide (h.allGroups g hg) (hshell.groups g hg))

omit h in
theorem isOwn_eq (hkinds : ∀ x ∈ o.globals, isOwn sh files x = false) {g : Group} (hg : g ∈ o.allGroups) {x : Text}
    (hx : x ∈ g.options) : isOwn sh files x = isSec x := by
  cases hsec : isSec x with
  | true => exact (hshell.groups g hg).own x (List.mem_cons_of_mem _ hx) (Or.inr hsec)
  | false => exact hkinds x (List.mem_flatMap.mpr ⟨g, hg, List.mem_filter.mpr ⟨hx, by simp [hsec]⟩⟩)

variable (grep) in
/-- `opt_global` after the groups of the call, when the kinds are told apart. -/
theorem extract_globals (hkinds : ∀ x ∈ o.globals, isOwn sh files x = false) (t : Text) :
    fields files (extract sh files grep o.read t).2 = o.globals.foldl (putNew (found sh grep)) (fields files t) := by
  rw [Options.read, extract_snd (groups_ok h hshell), Options.globals]
  refine congrArg (fun xs : List Text => xs.foldl _ _) (List.flatMap_congr fun g hg => ?_)
  exact List.filter_congr fun x hx => by rw [isOwn_eq hshell hkinds hg hx]

/-- An undisturbed call is faithful. -/
theorem Undisturbed.shared {st : Vars} (hst : Undisturbed sh files grep st o) : Shared sh files grep st o := by
  have hleft : st.optGroup.drop o.allGroups.length = [] := List.drop_eq_nil_of_le hst.optGroup
  have hglobals := extract_globals grep h hshell hst.kinds st.optGlobal
  have hgroups : (extract sh files grep o.read st.optGlobal).1 = o.allGroups.map fun g => body (g.kept sh files) := by
    have hread := extract_read grep h hshell [] st.optGlobal
    rwa [List.append_nil, List.map_nil, List.append_nil] at hread
  obtain ⟨hnodup, hall⟩ := tells_iff.mpr ⟨hst.optGlobal.1, hst.seen⟩
  rw [← hglobals] at hnodup hall
  have hmem : ∀ p, p ∈ (fields files (extract sh files grep o.read st.optGlobal).2).map globalProperty ↔
      p ∈ o.globals.map globalProperty := by
    intro p
    constructor
    · intro hp
      obtain ⟨x, hx, rfl⟩ := List.mem_map.mp hp
      rw [hglobals] at hx
      exact (mem_foldl_putNew hx).elim (hst.optGlobal.2 x) List.mem_map_of_mem
    · intro hp
      obtain ⟨x, hx, rfl⟩ := List.mem_map.mp hp
      exact hall x hx
  have hwhole := whole_globalProperties (whole_globals h hshell)
  have hcall := sharemgrShare_eq grep h hshell st
  rw [hleft, List.append_nil] at hcall
  refine ⟨_, _, hcall, _, hnodup, hmem, ?_⟩
  have hsets : (o.allGroups.flatMap fun g => g.flavours.map fun f => "-S".toList :: f :: args (ownProperties (g.own sh files))) =
      o.flavourSets := by
    refine List.flatMap_congr fun g hg => ?_
    have hown : g.own sh files = g.options.filter isSec := List.filter_congr fun x hx => isOwn_eq hshell hst.kinds hg hx
    rw [hown]
    rfl
  rw [globalSets_eq fun p hp => hwhole p ((hmem p).mp hp), hgroups, overlay_of_le ((length_divide_kept h hshell).symm ▸ hst.optGroup2),
    divide_kept h hshell, hsets]

/-- A faithful call that finds what calls leave behind is undisturbed. -/
theorem undisturbed_of_shared {st : Vars} (hleft : st.Left sh files) (hshared : Shared sh files grep st o) :
    Undisturbed sh files grep st o := by
  obtain ⟨st', cmds, hcall, ps, hnodup, hmem, hcmds⟩ := hshared
  rw [sharemgrShare_eq grep h hshell, Option.some.injEq] at hcall
  have hsame : (translate sh files grep st (o.read ++ st.optGroup.drop o.allGroups.length)).2 =
      (if ps = [] then [] else [args ps]) ++ o.flavourSets := (congrArg Prod.snd hcall).trans hcmds
  have hhead : ∀ cmd ∈ o.flavourSets, cmd.head? = some "-S".toList := by
    intro cmd hcmd
    obtain ⟨g, -, hcmd⟩ := List.mem_flatMap.mp hcmd
    obtain ⟨f, -, rfl⟩ := List.mem_map.mp hcmd
    rfl
  obtain ⟨hglobal, hsets⟩ := parts_eq (p := fun cmd => decide (cmd.head? = some "-S".toList))
    (fun cmd hcmd => by rw [globalSets_head cmd hcmd]; rfl)
    (fun cmd hcmd => by
      split_ifs at hcmd with hnil
      · cases hcmd
      · obtain ⟨p, qs, rfl⟩ := List.exists_cons_of_ne_nil hnil
        rw [List.mem_singleton.mp hcmd]
        rfl)
    (fun cmd hcmd => by
      obtain ⟨group, -, rfl⟩ := List.mem_map.mp hcmd
      rfl)
    (fun cmd hcmd => decide_eq_true (hhead cmd hcmd)) hsame
  have hcount : o.flavourSets.length = (o.allGroups.flatMap Group.flavours).length := by
    rw [Options.flavourSets, List.length_flatMap, List.length_flatMap]
    exact congrArg List.sum (List.map_congr_left fun g _ => List.length_map _)
  rw [extract_read grep h hshell, List.flatMap_append] at hsets
  have hlen := congrArg List.length hsets
  rw [List.length_map, overlay, List.length_append, List.length_drop, List.length_append, length_divide_kept h hshell, hcount] at hlen
  have hnone : ((st.optGroup.drop o.allGroups.length).map fun u => body (taken sh files u)).flatMap (divide sh files) = [] :=
    List.length_eq_zero_iff.mp (by omega)
  have hdrop : st.optGroup.drop o.allGroups.length = [] := by
    by_contra hne
    obtain ⟨t, left, hcons⟩ := List.exists_cons_of_ne_nil hne
    have ht : t ∈ st.optGroup.drop o.allGroups.length := hcons ▸ List.mem_cons_self
    obtain ⟨g, hg, hgs, rfl⟩ := hleft.optGroup t (List.mem_of_mem_drop ht)
    have hnothing := List.flatMap_eq_nil_iff.mp hnone _ (List.mem_map_of_mem ht)
    have hone := length_divide hg hgs
    rw [taken_kept hg hgs] at hnothing
    rw [hnothing] at hone
    exact hg.ne_nil (List.length_eq_zero_iff.mp hone.symm)
  have hgroup2 : st.optGroup2.length ≤ (o.allGroups.flatMap Group.flavours).length := by
    rw [hnone, List.length_nil] at hlen
    omega
  rw [hnone, List.append_nil, overlay_of_le ((length_divide_kept h hshell).symm ▸ hgroup2), divide_kept h hshell] at hsets
  rw [hdrop, List.append_nil] at hglobal
  have hparts := flatMap_parts (fun g _ => by rw [List.length_map, List.length_map]) hsets
  have hkinds : ∀ x ∈ o.globals, isOwn sh files x = false := by
    intro x hx
    obtain ⟨g, hg, hxg⟩ := List.mem_flatMap.mp hx
    obtain ⟨hopt, hsec⟩ := List.mem_filter.mp hxg
    by_contra hown
    rw [Bool.not_eq_false] at hown
    obtain ⟨f, hf⟩ := List.exists_mem_of_ne_nil _ (h.allGroups g hg).ne_nil
    have hcmd := List.map_inj_left.mp (hparts g hg) f hf
    have hprops := args_injective (List.cons.inj (List.cons.inj hcmd).2).2
    rw [isSec_of_own hprops (List.mem_filter.mpr ⟨hopt, hown⟩)] at hsec
    cases hsec
  have hglobals := extract_globals grep h hshell hkinds st.optGlobal
  have hwhole : Whole files ((fields files (extract sh files grep o.read st.optGlobal).2).map globalProperty) := by
    refine whole_globalProperties fun x hx => ?_
    rw [hglobals] at hx
    exact (mem_foldl_putNew hx).elim (hleft.optGlobal x) (whole_globals h hshell x)
  rw [globalSets_eq hwhole, hglobals] at hglobal
  rw [← globals_injective hglobal] at hnodup hmem
  obtain ⟨hold, hseen⟩ := tells_iff.mp ⟨hnodup, fun y hy => (hmem _).mpr (List.mem_map_of_mem hy)⟩
  exact ⟨List.drop_eq_nil_iff.mp hdrop, hgroup2, hkinds,
    ⟨hold, fun x hx => (hmem _).mp (List.mem_map_of_mem ((prefix_foldl_putNew _ _).subset hx))⟩, hseen⟩

omit h hshell in
/-- The groups that are left hold no global options. -/
theorem extract_left {left : List Text} (hleft : ∀ t ∈ left, ∃ g : Group, g.Ok ∧ g.Handled sh files ∧ t = body (g.kept sh files))
    (t : Text) : fields files (extract sh files grep left t).2 = fields files t := by
  induction left generalizing t with
  | nil => rfl
  | cons u left ih =>
    obtain ⟨⟨g, hg, hgs, rfl⟩, hrest⟩ := List.forall_mem_cons.mp hleft
    have hnone : ((g.kept sh files).filter fun o => !isOwn sh files o) = [] :=
      List.filter_eq_nil_iff.mpr fun w hw => by simp [isOwn_kept hgs w hw]
    rw [extract, ih hrest, fields_kept hg hgs, foldl_sortOption_snd (whole_kept hg hgs), hnone]
    rfl

variable (grep) in
/-- A call ends, and leaves what calls leave behind. -/
theorem Vars.Left.call {st : Vars} (hst : st.Left sh files) :
    ∃ x, sharemgrShare sh files grep st o.text = some x ∧ x.1.Left sh files := by
  refine ⟨_, sharemgrShare_eq grep h hshell st, ?_, ?_⟩
  · intro t (ht : t ∈ (extract sh files grep (o.read ++ st.optGroup.drop o.allGroups.length) st.optGlobal).1)
    rw [extract_read grep h hshell] at ht
    rcases List.mem_append.mp ht with ht | ht
    · obtain ⟨g, hg, rfl⟩ := List.mem_map.mp ht
      exact ⟨g, h.allGroups g hg, hshell.groups g hg, rfl⟩
    · obtain ⟨u, hu, rfl⟩ := List.mem_map.mp ht
      obtain ⟨g, hg, hgs, rfl⟩ := hst.optGroup u (List.mem_of_mem_drop hu)
      exact ⟨g, hg, hgs, congrArg body (taken_kept hg hgs)⟩
  · intro x (hx : x ∈ fields files (extract sh files grep (o.read ++ st.optGroup.drop o.allGroups.length) st.optGlobal).2)
    rw [extract_append, extract_left fun t ht => hst.optGroup t (List.mem_of_mem_drop ht), Options.read,
      extract_snd (groups_ok h hshell)] at hx
    rcases mem_foldl_putNew hx with hx | hx
    · exact hst.optGlobal x hx
    · obtain ⟨g, hg, hx⟩ := List.mem_flatMap.mp hx
      exact whole_words (h.allGroups g hg) (hshell.groups g hg) x (List.mem_cons_of_mem _ (List.mem_of_mem_filter hx))

end

/-- So do all calls in a shell. -/
theorem sharedBefore_left (grep : List Text → Text → Bool) {history : List Options}
    (hok : ∀ p ∈ history, p.Ok ∧ p.Handled sh files) :
    ∃ st, sharedBefore sh files grep (history.map Options.text) = some st ∧ st.Left sh files := by
  have hrun : ∀ s : Vars, s.Left sh files → ∃ st, (history.map Options.text).foldlM (fun st opts =>
      (sharemgrShare sh files grep st opts).map Prod.fst) s = some st ∧ st.Left sh files := by
    induction history with
    | nil => exact fun s hs => ⟨s, rfl, hs⟩
    | cons p history ih =>
      intro s hs
      obtain ⟨⟨hp, hpshell⟩, hrest⟩ := List.forall_mem_cons.mp hok
      obtain ⟨x, hcall, hx⟩ := Vars.Left.call grep hp hpshell hs
      rw [List.map_cons, List.foldlM_cons, hcall]
      exact ih hrest x.1 hx
  exact hrun Vars.fresh ⟨fun t ht => (by cases ht), fun x hx => (by cases hx)⟩

/-- A call with options that the shell hands on as they stand: undisturbed it is faithful, and after any calls with such options it is
faithful only then. -/
theorem sharemgrShare_faithful (sh : Ksh) (files : List Text) (grep : List Text → Text → Bool) (o : Options) (h : o.Ok)
    (hshell : o.Handled sh files) :
    (∀ st, Undisturbed sh files grep st o → Shared sh files grep st o) ∧
      ∀ history : List Options, (∀ p ∈ history, p.Ok ∧ p.Handled sh files) →
        ∃ st, sharedBefore sh files grep (history.map Options.text) = some st ∧
          (Shared sh files grep st o ↔ Undisturbed sh files grep st o) := by
  refine ⟨fun st hst => hst.shared h hshell, fun history hok => ?_⟩
  obtain ⟨st, hst, hleft⟩ := sharedBefore_left grep hok
  exact ⟨st, hst, undisturbed_of_shared h hshell hleft, fun hundisturbed => hundisturbed.shared h hshell⟩

/-! ## Ordinary options -/

/-- Options without brackets, parentheses and backslashes for flavours of ordinary characters, where no name in the working directory looks
like one of them. -/
structure Group.Ordinary (files : List Text) (g : Group) : Prop where
  options : ∀ o ∈ g.options, Glob.Wild o ∧ '(' ∉ o
  flavours : ∀ f ∈ g.flavours, Glob.Literal f ∧ '(' ∉ f ∧ '=' ∉ f ∧ f.head? ≠ some '-'
  files : ∀ w ∈ [','].intercalate g.words :: (g.options ++ g.properties), Ksh.pathnames files w = [w]

theorem contains_of_front {o part : Text} (h : part <+: o) : contains o part = true :=
  List.any_eq_true.mpr ⟨o, (List.mem_tails o o).mpr List.suffix_rfl, List.isPrefixOf_iff_prefix.mpr h⟩

theorem secSpecific_of_isSec {o : Text} (h : isSec o = true) : secSpecific o = true := by
  simp only [isSec, Bool.or_eq_true, decide_eq_true_eq, List.isPrefixOf_iff_prefix] at h
  simp only [secSpecific, Bool.or_eq_true]
  have hrw : ∀ {t : Text}, "rw".toList <+: t → contains t "rw".toList = true := contains_of_front
  have hro : ∀ {t : Text}, "ro".toList <+: t → contains t "ro".toList = true := contains_of_front
  rcases h with ((((rfl | rfl) | h) | h) | h) | h
  · exact Or.inl (Or.inl (Or.inl (Or.inr (hrw List.prefix_rfl))))
  · exact Or.inl (Or.inl (Or.inr (hro List.prefix_rfl)))
  · exact Or.inl (Or.inl (Or.inl (Or.inr (hrw (List.IsPrefix.trans ⟨['='], rfl⟩ h)))))
  · exact Or.inl (Or.inl (Or.inr (hro (List.IsPrefix.trans ⟨['='], rfl⟩ h))))
  · exact Or.inl (Or.inr (contains_of_front h))
  · exact Or.inr (contains_of_front h)

theorem secSpecific_sec (g : Group) : secSpecific g.sec = true := by
  have h : contains g.sec "sec=".toList = true := contains_of_front (List.prefix_append _ _)
  rw [secSpecific, h]
  rfl

theorem dash_of_isSec {o : Text} (h : isSec o = true) : o.head? ≠ some '-' := by
  intro hhead
  obtain ⟨t, rfl⟩ := List.head?_eq_some_iff.mp hhead
  simp [isSec] at h

theorem forall_intercalate {P : Char → Prop} {c : Char} (hc : P c) (hws : ∀ w ∈ ws, ∀ d ∈ w, P d) :
    ∀ d ∈ [c].intercalate ws, P d := by
  intro d hd
  rcases mem_intercalate hd with rfl | ⟨w, hw, hdw⟩
  · exact hc
  · exact hws w hw d hdw

theorem wild_intercalate (hws : ∀ w ∈ ws, Glob.Wild w ∧ '(' ∉ w) :
    Glob.Wild ([','].intercalate ws) ∧ '(' ∉ [','].intercalate ws := by
  refine ⟨forall_intercalate (by decide) fun w hw => (hws w hw).1, fun hc => ?_⟩
  rcases mem_intercalate hc with hc | ⟨w, hw, hcw⟩
  · cases hc
  · exact (hws w hw).2 hcw

theorem splitsOff_wild {gs : List (List Text)} (h : Cut gs) (hgs : ∀ g ∈ gs, ∀ w ∈ g, Glob.Wild w ∧ '(' ∉ w) :
    SplitsOff gs := by
  induction gs with
  | nil => trivial
  | cons g gs ih =>
    have hrest := ih h.tail fun k hk => hgs k (List.mem_cons_of_mem g hk)
    obtain ⟨hwild, hlist⟩ := wild_intercalate (hgs g List.mem_cons_self)
    cases gs with
    | nil =>
      refine ⟨iff_of_true ?_ rfl, fun hne => absurd rfl hne, hrest⟩
      rw [List.flatten_cons, List.flatten_nil, List.append_nil, Ksh.matchesText_of_not (Ksh.hasList_of_notMem hlist)]
      exact Glob.glob_wild hwild
    | cons k gs =>
      have hall : ∀ w ∈ (g :: k :: gs).flatten, Glob.Wild w ∧ '(' ∉ w := fun w hw => by
        obtain ⟨j, hj, hwj⟩ := List.mem_flatten.mp hw
        exact hgs j hj w hwj
      obtain ⟨hwild', hlist'⟩ := wild_intercalate hall
      refine ⟨iff_of_false (fun hmatch => ?_) (List.cons_ne_nil k gs), fun _ => ?_, hrest⟩
      · -- the pattern has a comma more than the group
        rw [Ksh.matchesText_of_not (Ksh.hasList_of_notMem hlist')] at hmatch
        have hcount := Glob.count_le_of_glob (c := ',') hwild' rfl hmatch
        rw [h.cons, List.count_append, List.count_cons_self] at hcount
        omega
      · have hcomma : Glob.Wild ([','].intercalate g ++ [',']) := by
          intro c hc
          rcases List.mem_append.mp hc with hc | hc
          · exact hwild c hc
          · rw [List.mem_singleton.mp hc]
            decide
        have hnolist : '(' ∉ [','].intercalate g ++ [','] := by
          intro hc
          rcases List.mem_append.mp hc with hc | hc
          · exact hlist hc
          · cases List.mem_singleton.mp hc
        rw [h.cons, Ksh.cutFront_of_not (Ksh.hasList_of_notMem hnolist)]
        exact Glob.cutFront_wild hcomma rfl

/-- A text in front of others, with a blank between two. -/
theorem joined_cons (w : Text) (ws : List Text) : joined (w :: ws) = w ++ body ws := by
  by_cases h : ws = []
  · rw [h]
    exact (List.append_nil w).symm
  · obtain ⟨v, vs, rfl⟩ := List.exists_cons_of_ne_nil h
    rw [body_joined h]
    rfl

theorem literal_sec {t : Text} (ht : Glob.Literal t) (hlist : '(' ∉ t) :
    Glob.Literal ("sec=".toList ++ t) ∧ '(' ∉ "sec=".toList ++ t := by
  have hall : ∀ c ∈ "sec=".toList, (Glob.isMeta c = false ∧ c ≠ '\\') ∧ c ≠ '(' := by
    intro c hc
    simp only [List.mem_cons, List.not_mem_nil, or_false, String.reduceToList] at hc
    rcases hc with rfl | rfl | rfl | rfl
    all_goals decide
  constructor
  · exact fun c hc => (List.mem_append.mp hc).elim (fun hc => (hall c hc).1) (ht c)
  · exact fun hc => (List.mem_append.mp hc).elim (fun hc => (hall _ hc).2 rfl) hlist

namespace Group.Ordinary

variable {g : Group} (hord : g.Ordinary files)

include hord

theorem literal_names : Glob.Literal ([':'].intercalate g.flavours) ∧ '(' ∉ [':'].intercalate g.flavours := by
  refine ⟨forall_intercalate (by decide) fun f hf => (hord.flavours f hf).1, fun hc => ?_⟩
  rcases mem_intercalate hc with hc | ⟨f, hf, hcf⟩
  · cases hc
  · exact (hord.flavours f hf).2.1 hcf

theorem literal_words : Glob.Literal g.sec ∧ '(' ∉ g.sec := literal_sec hord.literal_names.1 hord.literal_names.2

theorem wild_words : ∀ w ∈ g.words, Glob.Wild w ∧ '(' ∉ w := by
  refine List.forall_mem_cons.mpr ⟨⟨fun c hc => ?_, hord.literal_words.2⟩, hord.options⟩
  obtain ⟨hmeta, hback⟩ := hord.literal_words.1 c hc
  refine ⟨?_, hback⟩
  rintro rfl
  cases hmeta

end Group.Ordinary

theorem names_front {g : Group} (h : g.Ok) (hdash : ∀ f ∈ g.flavours, f.head? ≠ some '-') :
    [':'].intercalate g.flavours ≠ [] ∧ ([':'].intercalate g.flavours).head? ≠ some '-' := by
  obtain ⟨f, fs, hfs⟩ := List.exists_cons_of_ne_nil h.ne_nil
  have hf : f ∈ g.flavours := hfs ▸ List.mem_cons_self
  obtain ⟨d, u, hdu⟩ := List.exists_cons_of_ne_nil (h.flavours f hf).unbroken.ne_nil
  have hhead : ([':'].intercalate g.flavours).head? = f.head? := by
    rw [hfs, hdu]
    cases fs with
    | nil => rw [List.intercalate_singleton]
    | cons k ks =>
      rw [List.intercalate_cons_cons]
      rfl
  refine ⟨fun hnil => ?_, hhead ▸ hdash f hf⟩
  rw [hnil, hdu] at hhead
  cases hhead

section

variable (hecho : ∀ t, '\\' ∉ t → t.head? ≠ some '-' → sh.echo t = t)

include hecho

theorem echo_words {w : Text} (hsec : "sec=".toList <+: w) (hw : '\\' ∉ w) (hws : ∀ v ∈ ws, '\\' ∉ v) :
    sh.echo (joined (w :: ws)) = joined (w :: ws) := by
  refine hecho _ (fun hc => ?_) ?_
  · rcases mem_joined hc with hc | ⟨v, hv, hcv⟩
    · cases hc
    · rcases List.mem_cons.mp hv with rfl | hv
      · exact hw hcv
      · exact hws v hv hcv
  · obtain ⟨u, rfl⟩ := hsec
    rw [joined_cons]
    exact fun hhead => by cases hhead

theorem echoed_one {w : Text} (hw : Unbroken w) (halone : Ksh.pathnames files w = [w]) (hback : '\\' ∉ w) (hdash : w.head? ≠ some '-') :
    echoed sh files w = w :=
  ((Whole.cons hw halone fun v hv => by cases hv).echoed_eq hw.split_eq).trans (hecho w hback hdash)

theorem Group.Ordinary.handled {g : Group} (h : g.Ok) (hord : g.Ordinary files) : g.Handled sh files := by
  have halone : ∀ {t : Text}, Glob.Literal t → '(' ∉ t → Ksh.pathnames files t = [t] := fun hlit hlist => by
    rw [Ksh.pathnames_of_not (Ksh.hasList_of_notMem hlist), Glob.pathnames_literal hlit]
  have hnoback : ∀ {t : Text}, Glob.Literal t → '\\' ∉ t := fun hlit hc => (hlit _ hc).2 rfl
  obtain ⟨hseclit, hseclist⟩ := hord.literal_words
  have hback : ∀ w ∈ g.words, '\\' ∉ w := fun w hw hc => ((hord.wild_words w hw).1 _ hc).2 rfl
  have hown : ∀ o ∈ g.own sh files, '\\' ∉ o := fun o ho => hback o (List.mem_cons_of_mem _ (List.mem_of_mem_filter ho))
  have hwords : ∀ w ∈ g.words, Ksh.pathnames files w = [w] := List.forall_mem_cons.mpr
    ⟨halone hseclit hseclist, fun o ho => hord.files o (List.mem_cons_of_mem _ (List.mem_append_left _ ho))⟩
  have hechosec : echoed sh files g.sec = g.sec :=
    echoed_one hecho h.unbroken_sec (halone hseclit hseclist) (hnoback hseclit) fun hhead => by cases hhead
  refine ⟨?_, hwords, fun p hp => hord.files p (List.mem_cons_of_mem _ (List.mem_append_right _ hp)), fun w hw hor => ?_, fun f hf => ?_,
    fun _ => ?_⟩
  · obtain ⟨u, hu⟩ := sec_front g
    refine echoed_one hecho ⟨fun hnil => ?_, forall_intercalate rfl fun w hw => (h.words w hw).1.blank⟩ (hord.files _ List.mem_cons_self)
      (fun hc => ?_) fun hhead => ?_
    · rw [hnil] at hu
      cases hu
    · rcases mem_intercalate hc with hc | ⟨w, hw, hcw⟩
      · cases hc
      · exact hback w hw hcw
    · rw [← hu] at hhead
      cases hhead
  · unfold isOwn
    by_cases hsec : w = g.sec
    · rw [hsec, hechosec]
      exact secSpecific_sec g
    · have hopt := hor.resolve_left hsec
      rw [echoed_one hecho (h.words w hw).1 (hwords w hw) (hback w hw) (dash_of_isSec hopt)]
      exact secSpecific_of_isSec hopt
  · obtain ⟨hlit, hlist, -, -⟩ := hord.flavours f hf
    obtain ⟨hlit', hlist'⟩ := literal_sec hlit hlist
    refine ⟨halone hlit hlist, halone hlit' hlist', echo_words hecho (List.prefix_append _ _) (hnoback hlit') hown, ?_⟩
    rw [joined_cons, Ksh.cutFrontMax_of_not (Ksh.hasList_of_notMem hlist'), Glob.cutFrontMax_literal hlit']
  · refine ⟨fun k hk => (hord.flavours k hk).2.2.1, ?_, echo_words hecho (List.prefix_append _ _) (hnoback hseclit) hown, ?_⟩
    · obtain ⟨hnames, hnolist⟩ := hord.literal_names
      obtain ⟨hne, hdash⟩ := names_front h fun f hf => (hord.flavours f hf).2.2.2
      exact echoed_one hecho ⟨hne, forall_intercalate rfl fun f hf => (h.flavours f hf).unbroken.blank⟩ (halone hnames hnolist)
        (hnoback hnames) hdash
    · rw [Ksh.cutFront_of_not (Ksh.hasList_of_notMem hseclist), Glob.cutFront_literal hseclit]

end

/-- Ordinary options are handed on as they stand. -/
theorem Options.Ok.handled {o : Options} (h : o.Ok) (hecho : ∀ t, '\\' ∉ t → t.head? ≠ some '-' → sh.echo t = t)
    (hord : ∀ g ∈ o.allGroups, g.Ordinary files) : o.Handled sh files := by
  refine ⟨splitsOff_wild h.cut fun g hg w hw => ?_, fun g hg => (hord g hg).handled hecho (h.allGroups g hg)⟩
  rcases List.mem_append.mp hg with hg | hg
  · by_cases hfirst : o.first = []
    · rw [if_pos hfirst] at hg
      cases hg
    · rw [if_neg hfirst, List.mem_singleton] at hg
      have hsys : (⟨["sys".toList], o.first⟩ : Group) ∈ o.allGroups := by
        rw [Options.allGroups, if_neg hfirst]
        exact List.mem_cons_self
      exact (hord _ hsys).options w (hg ▸ hw)
  · obtain ⟨k, hk, rfl⟩ := List.mem_map.mp hg
    exact (hord k (List.mem_append_right _ hk)).wild_words w hw

/-! ## Two histories -/

/-- `grep` for a word without special characters. -/
def grepWord (args : List Text) (t : Text) : Bool := contains t (args.headD [])

/-- `anon=$u,rw=*,sec=krb5,ro,sec=krb5:krb5p,root=a?`. -/
def Options.sample : Options where
  first := ["anon=$u".toList, "rw=*".toList]
  groups := [⟨["krb5".toList], ["ro".toList]⟩, ⟨["krb5".toList, "krb5p".toList], ["root=a?".toList]⟩]

/-- `rw`. -/
def Options.readWrite : Options := ⟨["rw".toList], []⟩

theorem option_sample : ∀ w ∈ ["anon=$u".toList, "rw=*".toList, "ro".toList, "root=a?".toList, "rw".toList],
    OptionWord w ∧ Glob.Wild w ∧ '(' ∉ w := by
  intro w hw
  simp only [List.mem_cons, List.not_mem_nil, or_false] at hw
  rcases hw with rfl | rfl | rfl | rfl | rfl
  all_goals
    exact ⟨⟨Unbroken.of_all (by decide) (by decide), by decide, by decide⟩, Glob.Wild.of_all (by decide), by decide⟩

theorem flavour_sample : ∀ f ∈ ["sys".toList, "krb5".toList, "krb5p".toList],
    FlavourWord f ∧ Glob.Literal f ∧ '(' ∉ f ∧ '=' ∉ f ∧ f.head? ≠ some '-' := by
  intro f hf
  simp only [List.mem_cons, List.not_mem_nil, or_false] at hf
  rcases hf with rfl | rfl | rfl
  all_goals
    exact ⟨⟨Unbroken.of_all (by decide) (by decide), by decide, by decide⟩, Glob.Literal.of_all (by decide), by decide, by decide,
        by decide⟩

/-- Where no name is seen. -/
theorem ordinary_sample {g : Group} (hf : g.flavours ⊆ ["sys".toList, "krb5".toList, "krb5p".toList])
    (ho : g.options ⊆ ["anon=$u".toList, "rw=*".toList, "ro".toList, "root=a?".toList, "rw".toList]) : g.Ordinary [] :=
  ⟨fun o h => (option_sample o (ho h)).2, fun f h => (flavour_sample f (hf h)).2, fun _ _ => ite_self _⟩

theorem group_sample {g : Group} (hne : g.flavours ≠ []) (hf : g.flavours ⊆ ["sys".toList, "krb5".toList, "krb5p".toList])
    (ho : g.options ⊆ ["anon=$u".toList, "rw=*".toList, "ro".toList, "root=a?".toList, "rw".toList]) : g.Ok :=
  ⟨hne, fun f h => (flavour_sample f (hf h)).1, fun o h => (option_sample o (ho h)).1⟩

theorem sample_ok : Options.sample.Ok := by
  refine ⟨fun w hw => (option_sample w (List.mem_append_left ["ro".toList, "root=a?".toList, "rw".toList] hw)).1, fun g hg => ?_,
    Or.inl (List.cons_ne_nil _ _)⟩
  simp only [Options.sample, List.mem_cons, List.not_mem_nil, or_false] at hg
  rcases hg with rfl | rfl
  all_goals exact group_sample (List.cons_ne_nil _ _) (by decide) (by decide)

theorem readWrite_ok : Options.readWrite.Ok := by
  refine ⟨fun w hw => (option_sample w ?_).1, fun g hg => (by cases hg), Or.inl (List.cons_ne_nil _ _)⟩
  rw [List.mem_singleton.mp hw]
  simp

theorem sample_handled : Options.sample.Handled Ksh.sample [] := by
  refine sample_ok.handled (fun _ _ _ => rfl) fun g hg => ?_
  have hgroups : Options.sample.allGroups =
      [⟨["sys".toList], ["anon=$u".toList, "rw=*".toList]⟩, ⟨["krb5".toList], ["ro".toList]⟩,
        ⟨["krb5".toList, "krb5p".toList], ["root=a?".toList]⟩] := rfl
  rw [hgroups] at hg
  simp only [List.mem_cons, List.not_mem_nil, or_false] at hg
  rcases hg with rfl | rfl | rfl
  all_goals exact ordinary_sample (by decide) (by decide)

theorem readWrite_handled : Options.readWrite.Handled Ksh.sample [] := by
  refine readWrite_ok.handled (fun _ _ _ => rfl) fun g hg => ?_
  have hgroups : Options.readWrite.allGroups = [⟨["sys".toList], ["rw".toList]⟩] := rfl
  rw [hgroups] at hg
  rw [List.mem_singleton.mp hg]
  exact ordinary_sample (by decide) (by decide)

/-- In a fresh shell, and after a call with `rw`. -/
theorem sharemgrShare_faithful_sample : Shared Ksh.sample [] grepWord Vars.fresh Options.sample ∧
    ∃ st, sharedBefore Ksh.sample [] grepWord ["rw".toList] = some st ∧
      (Shared Ksh.sample [] grepWord st Options.sample ↔ Undisturbed Ksh.sample [] grepWord st Options.sample) := by
  obtain ⟨henough, hiff⟩ := sharemgrShare_faithful Ksh.sample [] grepWord Options.sample sample_ok sample_handled
  constructor
  · refine henough Vars.fresh ⟨by decide, by decide, ?_, ⟨List.nodup_nil, fun x hx => by cases hx⟩, ?_⟩
    · decide
    · exact ⟨by decide, trivial⟩
  · exact hiff [Options.readWrite] fun p hp => by
      rw [List.mem_singleton.mp hp]
      exact ⟨readWrite_ok, readWrite_handled⟩

/-- `rw` after `rw,sec=krb5,ro`: the read-only access for `krb5` is set again. -/
theorem not_sharemgrShare_faithful : ¬∀ (sh : Ksh) (files : List Text) (grep : List Text → Text → Bool) (history : List Text)
    (st : Vars) (o : Options), sharedBefore sh files grep history = some st → o.Ok → Shared sh files grep st o := by
  intro h
  have hcount : ((sharedBefore Ksh.sample [] grepWord ["rw,sec=krb5,ro".toList]).bind fun st =>
      sharemgrShare Ksh.sample [] grepWord st Options.readWrite.text).map (fun x => x.2.length) = some 2 := by decide
  cases hst : sharedBefore Ksh.sample [] grepWord ["rw,sec=krb5,ro".toList] with
  | none =>
    rw [hst] at hcount
    cases hcount
  | some st =>
    obtain ⟨st', cmds, heq, ps, -, hmem, hcmds⟩ :=
      h Ksh.sample [] grepWord ["rw,sec=krb5,ro".toList] st Options.readWrite hst readWrite_ok
    rw [hst, Option.bind_some, heq, Option.map_some, hcmds] at hcount
    have hnil : ps = [] := List.eq_nil_iff_forall_not_mem.mpr fun p hp => by
      have hglobals : Options.readWrite.globals = [] := rfl
      have hp' := (hmem p).mp hp
      rw [hglobals] at hp'
      cases hp'
    have hone : Options.readWrite.flavourSets.length = 1 := rfl
    rw [hnil, if_pos rfl, List.nil_append, hone] at hcount
    cases hcount

end ZfsTest.Nfs
