import ZfsTest.Tcl.Expr
import ZfsTest.Tcl.Lossless

/-!
# Paths for the remote machine, `mode_replace` of `mstf_launch.exp`

The components of a path are split, and where the last part of a component is the old mode it becomes the new one. The path is put together
again by reading what there is so far and the component as a list, each time (`modeReplace_eq`). So a component is only kept if the list
reader keeps it: an empty one, white space, a brace or a quote in front and a backslash are lost. And `==` takes a part for the mode that is
the same number. Without these the replacement is as it should be, and with any of them it is not (`replaces_iff`).
-/

namespace ZfsTest.Mstf

open Tcl

/-- The name of a mode, a plain word that is one part of a path. -/
structure ModeName where
  name : Text
  plain : Plain name
  noSlash : '/' ∉ name
  noColon : ':' ∉ name

/-- `mode_replace`; `none` is an error of `join`. -/
def modeReplace (path oldMode newMode : Text) : Option Text :=
  (split ':' path).foldlM (fun newPath comp =>
    let splitComp := split '/' comp
    let splitComp := if eq (lindexEnd splitComp) oldMode then lreplaceEnd splitComp newMode else splitComp
    (parse (newPath ++ ' ' :: join '/' splitComp)).map (join ':')) []

/-- The last part of a component. -/
def lastPart (comp : Text) : Text := lindexEnd (split '/' comp)

/-- A component with the new mode, if its last part is the old one. -/
def replaced (old new : ModeName) (comp : Text) : Text :=
  if lastPart comp = old.name then join '/' (lreplaceEnd (split '/' comp) new.name) else comp

/-- The path has the same components, but for the modes. -/
def Replaces (path : Text) (old new : ModeName) : Prop :=
  ∃ r, modeReplace path old.name new.name = some r ∧ split ':' r = (split ':' path).map (replaced old new)

/-! ## Components -/

theorem ModeName.onePart (mode : ModeName) : ∀ c ∈ mode.name, ¬Stop c := by
  rintro c hc (rfl | rfl)
  · exact mode.noSlash hc
  · exact mode.noColon hc

/-- A component is a front and its last part. -/
theorem exists_front (comp : Text) : ∃ p, comp = p ++ lastPart comp ∧
    (∀ mode, join '/' (lreplaceEnd (split '/' comp) mode) = p ++ mode) ∧ (p = [] ∨ Closes p) := by
  unfold lastPart
  rcases List.eq_nil_or_concat' (split '/' comp) with h | ⟨es, e, h⟩
  · have hcomp := join_split (c := '/') comp
    rw [h] at hcomp ⊢
    exact ⟨[], hcomp.symm, fun mode => join_single '/' mode, Or.inl rfl⟩
  · have hlast : lindexEnd (es ++ [e]) = e := by simp [lindexEnd]
    have hreplace : ∀ mode, lreplaceEnd (es ++ [e]) mode = es ++ [mode] := fun mode => by simp [lreplaceEnd]
    have hcomp := join_split (c := '/') comp
    rw [h] at hcomp ⊢
    rw [hlast, ← hcomp]
    simp only [hreplace]
    by_cases hes : es = []
    · subst hes
      exact ⟨[], join_single '/' e, fun mode => join_single '/' mode, Or.inl rfl⟩
    · refine ⟨join '/' es ++ ['/'], ?_, fun mode => ?_, Or.inr ⟨_, '/', rfl, Or.inl rfl⟩⟩
      · rw [join_concat '/' hes, List.append_assoc]
        rfl
      · rw [join_concat '/' hes, List.append_assoc]
        rfl

/-- A part has no separators. -/
theorem lastPart_stop {path comp : Text} (hcomp : comp ∈ split ':' path) : ∀ c ∈ lastPart comp, ¬Stop c := by
  intro c hc hstop
  obtain ⟨p, heq, -⟩ := exists_front comp
  rcases hstop with rfl | rfl
  · unfold lastPart lindexEnd at hc
    rcases List.eq_nil_or_concat' (split '/' comp) with h | ⟨es, e, h⟩
    · rw [h] at hc
      cases hc
    · have hmem : e ∈ split '/' comp := h ▸ by simp
      rw [h] at hc
      exact notMem_split hmem (by simpa using hc)
  · exact notMem_split hcomp (heq ▸ List.mem_append_right _ hc)

/-- The component as the program puts it into the path. -/
def entry (oldMode newMode comp : Text) : Text :=
  let splitComp := split '/' comp
  join '/' (if eq (lindexEnd splitComp) oldMode then lreplaceEnd splitComp newMode else splitComp)

theorem modeReplace_eq (path oldMode newMode : Text) :
    modeReplace path oldMode newMode = rejoinAll ((split ':' path).map (entry oldMode newMode)) := by
  rw [rejoinAll, List.foldlM_map]
  rfl

theorem entry_eq (oldMode newMode comp : Text) : entry oldMode newMode comp =
    if eq (lastPart comp) oldMode then join '/' (lreplaceEnd (split '/' comp) newMode) else comp := by
  unfold lastPart
  by_cases h : eq (lindexEnd (split '/' comp)) oldMode = true
  · simp only [entry, if_pos h]
  · simp only [entry, if_neg h]
    exact join_split comp

variable {old new : ModeName} {path comp : Text}

/-- What the program does to a component: as it should, or a part that is the old mode as a number is replaced. -/
theorem entry_replaced (hcomp : comp ∈ split ':' path) : Entry new.name (entry old.name new.name comp) (replaced old new comp) := by
  rw [entry_eq, replaced]
  by_cases hold : lastPart comp = old.name
  · rw [if_pos hold, hold, eq_same, if_pos rfl]
    exact Or.inl rfl
  · rw [if_neg hold]
    split
    · obtain ⟨p, heq, hreplace, hp⟩ := exists_front comp
      exact Or.inr ⟨p, lastPart comp, hreplace new.name, heq, hp, lastPart_stop hcomp⟩
    · exact Or.inl rfl

/-- A component is treated as it should be if no other part is taken for the old mode. -/
theorem entry_eq_replaced : entry old.name new.name comp = replaced old new comp ↔
    (eq (lastPart comp) old.name = true → lastPart comp = old.name ∨ lastPart comp = new.name) := by
  rw [entry_eq, replaced]
  by_cases hold : lastPart comp = old.name
  · rw [if_pos hold, hold, eq_same, if_pos rfl]
    simp
  · rw [if_neg hold]
    split
    · rename_i heq
      obtain ⟨p, hcomp, hreplace, -⟩ := exists_front comp
      rw [hreplace]
      constructor
      · intro h _
        exact Or.inr (List.append_cancel_left (h.trans hcomp)).symm
      · intro h
        rw [← (h heq).resolve_left hold]
        exact hcomp.symm
    · rename_i heq
      simp [heq]

theorem alike_replaced (comp : Text) : Alike comp (replaced old new comp) := by
  rw [replaced]
  split
  · rename_i hold
    obtain ⟨p, hcomp, hreplace, -⟩ := exists_front comp
    rw [hold] at hcomp
    exact Or.inr ⟨p, old.name, new.name, hcomp, hreplace new.name, old.plain, new.plain⟩
  · exact Or.inl rfl

/-- The new components are read back if the old ones are. -/
theorem readable_replaced {comps : List Text} : Readable (comps.map (replaced old new)) ↔ Readable comps := by
  constructor
  · intro h
    have hback := readable_of_alike (g := fun comp => comp) (fun comp _ => (alike_replaced comp).symm) h
    rwa [List.map_id'] at hback
  · intro h
    rw [← List.map_id' comps] at h
    exact readable_of_alike (fun comp _ => alike_replaced comp) h

/-- The new mode does not make two components of one, and does not make a component empty. -/
theorem replace_component (hcomp : comp ∈ split ':' path) :
    ':' ∉ join '/' (lreplaceEnd (split '/' comp) new.name) ∧ join '/' (lreplaceEnd (split '/' comp) new.name) ≠ [] := by
  obtain ⟨p, heq, hreplace, -⟩ := exists_front comp
  rw [hreplace, List.mem_append, not_or]
  refine ⟨⟨fun h => ?_, new.noColon⟩, by simp [new.plain.1]⟩
  exact notMem_split hcomp (heq ▸ List.mem_append_left _ h)

/-- Components that are kept or get the new mode are found again in their path. -/
theorem split_components (new : ModeName) {f : Text → Text}
    (hf : ∀ comp, f comp = comp ∨ f comp = join '/' (lreplaceEnd (split '/' comp) new.name)) :
    split ':' (join ':' ((split ':' path).map f)) = (split ':' path).map f := by
  refine split_join (fun e he => ?_) fun h => ?_
  · obtain ⟨comp, hcomp, rfl⟩ := List.mem_map.mp he
    rcases hf comp with heq | heq
    · rw [heq]
      exact notMem_split hcomp
    · rw [heq]
      exact (replace_component hcomp).1
  · obtain ⟨comp, hsplit, hempty⟩ := List.map_eq_singleton_iff.mp h
    have hcomp : comp ∈ split ':' path := hsplit ▸ List.mem_singleton_self comp
    rcases hf comp with heq | heq
    · rw [heq] at hempty
      rw [hempty] at hsplit
      exact split_ne_single path hsplit
    · rw [heq] at hempty
      exact (replace_component hcomp).2 hempty

theorem split_replaced (path : Text) (old new : ModeName) :
    split ':' (join ':' ((split ':' path).map (replaced old new))) = (split ':' path).map (replaced old new) := by
  refine split_components new fun comp => ?_
  rw [replaced]
  split
  · exact Or.inr rfl
  · exact Or.inl rfl

theorem split_entry (path : Text) : split ':' (join ':' ((split ':' path).map (entry old.name new.name))) =
    (split ':' path).map (entry old.name new.name) := by
  refine split_components new fun comp => ?_
  rw [entry_eq]
  split
  · exact Or.inr rfl
  · exact Or.inl rfl

theorem replaced_ne_single (path : Text) (old new : ModeName) : (split ':' path).map (replaced old new) ≠ [[]] := by
  intro h
  have hsplit := split_replaced path old new
  rw [h] at hsplit
  cases hsplit

/-! ## The path -/

/-- The modes are replaced as they should be if each component is read back and none has a part that is the old mode as a number only, and
not else. -/
theorem replaces_iff (path : Text) (old new : ModeName) : Replaces path old new ↔ Readable (split ':' path) ∧
    ∀ comp ∈ split ':' path, eq (lastPart comp) old.name = true → lastPart comp = old.name ∨ lastPart comp = new.name := by
  have hstop := new.onePart
  constructor
  · rintro ⟨r, hr, hsplit⟩
    have hpath := join_split (c := ':') r
    rw [hsplit] at hpath
    rw [modeReplace_eq, ← hpath] at hr
    have hentry : ∀ comp ∈ split ':' path, Entry new.name (entry old.name new.name comp) (replaced old new comp) :=
      fun comp hcomp => entry_replaced hcomp
    have hjoin := join_eq_of_rejoinAll new.plain hstop hentry hr
    have hentries : (split ':' path).map (entry old.name new.name) = (split ':' path).map (replaced old new) := by
      rw [← split_entry path, hjoin, split_replaced path old new]
    rw [hentries] at hr
    have hread := (rejoinAll_eq_iff (replaced_ne_single path old new)).mp hr
    exact ⟨readable_replaced.mp hread, fun comp hcomp => entry_eq_replaced.mp (List.map_inj_left.mp hentries comp hcomp)⟩
  · rintro ⟨hread, hexact⟩
    have hentries : (split ':' path).map (entry old.name new.name) = (split ':' path).map (replaced old new) :=
      List.map_congr_left fun comp hcomp => entry_eq_replaced.mpr (hexact comp hcomp)
    refine ⟨join ':' ((split ':' path).map (replaced old new)), ?_, split_replaced path old new⟩
    rw [modeReplace_eq, hentries]
    exact rejoinAll_of_readable (readable_replaced.mpr hread)

def i386 : ModeName := ⟨"i386".toList, by decide, by decide, by decide⟩

def sparc : ModeName := ⟨"sparc".toList, by decide, by decide, by decide⟩

/-- An empty component, the current directory, is lost. -/
theorem not_replaces : ¬Replaces "/usr/bin::/opt/i386".toList i386 sparc := by
  rintro ⟨r, hr, hsplit⟩
  have hpath : modeReplace "/usr/bin::/opt/i386".toList i386.name sparc.name = some "/usr/bin:/opt/sparc".toList := by decide
  rw [hpath, Option.some_inj] at hr
  subst hr
  exact absurd hsplit (by decide)

end ZfsTest.Mstf
