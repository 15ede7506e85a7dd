import ZfsTest.Fs.Granted

/-!
# The checks of `rename`

The new name lies beside the dataset (`b = base a ++ '/' :: e`). As long as the renames have no effect the name is not in use (`Fresh`);
one that has its effect also moves the grant on the dataset to the new name, and the name is then in use, so that the case takes the grant
back there and ends (`Fresh.renameCase`).
-/

namespace ZfsTest.Delegate

open Prog

variable {user date d a b e : Text} {w w₀ w' : World} {gs rs own : List Grant} {c : Cmd}

/-! ## Datasets on the move -/

theorem base_begins (a : Text) : base a <+: a := frontLast_begins _ a

/-- The dataset above stays in its place. -/
theorem move_base (hb : b = base a ++ '/' :: e) (hnot : below a b = false) : move a b (base a) = base a := by
  have hne : base a ≠ a := by
    intro heq
    have hbelow : below a b = true := by
      rw [below, List.isPrefixOf_iff_prefix, hb, heq]
      exact ⟨e, List.append_assoc _ _ _⟩
    rw [hnot] at hbelow
    cases hbelow
  have habove : below a (base a) = false := by
    rw [Bool.eq_false_iff]
    intro hbelow
    have hlen := (List.isPrefixOf_iff_prefix.mp hbelow).length_le
    have hle := (base_begins a).length_le
    rw [List.length_append, List.length_singleton] at hlen
    omega
  rw [move, if_neg hne, habove]
  rfl

theorem move_self : move a b a = b := if_pos rfl

theorem move_below {x : Text} (hx : below a x = true) : move a b x = b ++ x.drop a.length ∧ a.length < x.length := by
  have hlen := (List.isPrefixOf_iff_prefix.mp hx).length_le
  rw [List.length_append, List.length_singleton] at hlen
  have hne : x ≠ a := by
    rintro rfl
    omega
  rw [move, if_neg hne, hx]
  exact ⟨rfl, by omega⟩

/-- Nothing else moves to the place of the dataset above or to the new name. -/
theorem move_inj (hb : b = base a ++ '/' :: e) (hnot : below a b = false) {x y : Text} (hx : x ≠ b) (hy : y = base a ∨ y = a)
    (h : move a b x = move a b y) : x = y := by
  have hlen : (base a).length < b.length := by
    rw [hb, List.length_append, List.length_cons]
    omega
  by_cases hxa : x = a
  · rcases hy with rfl | rfl
    · rw [hxa, move_self, move_base hb hnot] at h
      rw [← h] at hlen
      omega
    · exact hxa
  · cases hbelow : below a x with
    | true =>
      obtain ⟨hmove, hlt⟩ := move_below (b := b) hbelow
      have hmoved := congrArg List.length h
      rw [hmove, List.length_append, List.length_drop] at hmoved
      rcases hy with rfl | rfl
      · rw [move_base hb hnot] at hmoved
        omega
      · rw [move_self] at hmoved
        omega
    | false =>
      have hmove : move a b x = x := by
        rw [move, if_neg hxa, hbelow]
        rfl
      rcases hy with rfl | rfl
      · rwa [hmove, move_base hb hnot] at h
      · rw [hmove, move_self] at h
        exact absurd h hx

def Grant.moved (a b : Text) (g : Grant) : Grant := (g.1, move a b g.2)

theorem triples_moved :
    (triples user gs).image (fun t => { t with dataset := move a b t.dataset }) = triples user (gs.map (Grant.moved a b)) := by
  ext t
  simp only [triples, Finset.mem_image, List.mem_toFinset, List.mem_map]
  constructor
  · rintro ⟨t', ⟨g, hg, rfl⟩, rfl⟩
    exact ⟨g.moved a b, ⟨g, hg, rfl⟩, rfl⟩
  · rintro ⟨g', ⟨g, hg, rfl⟩, rfl⟩
    exact ⟨g.triple user, ⟨g, hg, rfl⟩, rfl⟩

/-- A grant moves with its dataset. -/
theorem World.renamed_grant : (w.grant user gs).renamed a b = (w.renamed a b).grant user (gs.map (Grant.moved a b)) := by
  rw [World.renamed, World.grant, World.grant, World.renamed, Finset.image_union, triples_moved]

theorem triples_swap (g g' : Grant) : triples user [g, g'] = triples user [g', g] := by
  rw [triples_cons, triples_cons, triples_cons, triples_cons]
  exact Finset.insert_comm _ _ _

/-- A dataset with the grants of its rename: none of its moved grants is there. -/
theorem renamed_free (hb : b = base a ++ '/' :: e) (hnot : below a b = false) (hfree : Disjoint w.allowed (triples user rs))
    (hbare : ∀ t ∈ w.allowed, t.dataset ≠ b) (hrs : ∀ g ∈ rs, g.2 = base a ∨ g.2 = a) :
    Disjoint (w.renamed a b).allowed (triples user (rs.map (Grant.moved a b))) := by
  rw [Finset.disjoint_left] at hfree ⊢
  intro t ht hgrant
  rw [← triples_moved] at hgrant
  obtain ⟨t₁, ht₁, rfl⟩ := Finset.mem_image.mp ht
  obtain ⟨t₂, ht₂, heq⟩ := Finset.mem_image.mp hgrant
  obtain ⟨g, hg, rfl⟩ := List.mem_map.mp (List.mem_toFinset.mp ht₂)
  rw [Triple.mk.injEq] at heq
  obtain ⟨huser, hperm, hmove⟩ := heq
  have hsame : t₁ = g.triple user := by
    obtain ⟨u, p, x⟩ := t₁
    rw [Grant.triple, Triple.mk.injEq]
    exact ⟨huser.symm, hperm.symm, move_inj hb hnot (hbare _ ht₁) (hrs g hg) hmove.symm⟩
  exact hfree ht₁ (hsame ▸ ht₂)

/-! ## One case -/

/-- The world before a rename: the delegations are kept, and the new name is not in use. -/
structure Fresh (w₀ : World) (user : Text) (own : List Grant) (b : Text) (w : World) : Prop extends Inv w₀ user own w where
  unused : b ∉ w.datasets
  bare : ∀ t ∈ w.allowed, t.dataset ≠ b

theorem map_moved (hbase : move a b (base a) = base a) (hgs : ∀ g ∈ gs, g.2 = base a) : gs.map (Grant.moved a b) = gs := by
  refine (List.map_congr_left fun g hg => ?_).trans (List.map_id gs)
  rw [Grant.moved, hgs g hg, hbase, ← hgs g hg]
  rfl

namespace Fresh

variable {rest : Code Nat} {n : Nat}

theorem congr (h : Fresh w₀ user own b w) (hdatasets : w'.datasets = w.datasets) (hnow : w'.now = w.now)
    (hallowed : w'.allowed = w.allowed) : Fresh w₀ user own b w' where
  kept := h.kept.congr hallowed hnow
  free := by rw [hallowed]; exact h.free
  unused := by rw [hdatasets]; exact h.unused
  bare := by rw [hallowed]; exact h.bare

/-- Grants and a rename as the user: without an effect, the new name is still not in use, and the grants can be taken back; with it, the
name is in use, and the grants can be taken back where they are now. -/
theorem tried (h : Fresh w₀ user own b w) (hb : b = base a ++ '/' :: e) (hsub : gs ⊆ own) (hgs : ∀ g ∈ gs, g.2 = base a ∨ g.2 = a) :
    b ∉ ((w.grant user gs).tries (.rename a b)).datasets ∧
        Fresh w₀ user own b (((w.grant user gs).tries (.rename a b)).revoke user gs) ∨
      b ∈ ((w.grant user gs).tries (.rename a b)).datasets ∧ move a b (base a) = base a ∧
        Kept w₀ (((w.grant user gs).tries (.rename a b)).revoke user (gs.map (Grant.moved a b))) := by
  have hown : Disjoint w.allowed (triples user gs) := h.free.mono_right (triples_subset hsub)
  rcases tries_spec (w.grant user gs) (.rename a b) with ⟨w', heffect, -, htries⟩ | ⟨-, htries⟩
  · right
    rw [World.effect] at heffect
    split at heffect
    · rename_i hcond
      obtain ⟨hold, -, hnot⟩ := hcond
      cases heffect
      rw [htries]
      refine ⟨Finset.mem_image.mpr ⟨a, hold, move_self⟩, move_base hb hnot, (h.kept.renamed a b).congr ?_ rfl⟩
      change ((w.grant user gs).renamed a b).allowed \ _ = _
      rw [World.renamed_grant, World.grant_allowed]
      exact sdiff_granted (List.Subset.refl _) (renamed_free hb hnot hown h.bare hgs)
    · cases heffect
  · left
    rw [htries]
    exact ⟨h.unused, h.congr rfl rfl (sdiff_granted (List.Subset.refl _) hown)⟩

/-- A case with grants on the dataset above. -/
theorem refused (h : Fresh w₀ user own b w) (hb : b = base a ++ '/' :: e) (hsub : gs ⊆ own) (hgs : ∀ g ∈ gs, g.2 = base a)
    (hrest : ∀ w, Fresh w₀ user own b w → Wlp step rest (fun _ w' => Kept w₀ w') w) :
    Wlp step (Delegate.tried user gs (.rename a b) gs >>= fun _ => datasetexists b >>= fun r => if r = true then pure n else rest)
      (fun _ w' => Kept w₀ w') w := by
  refine wlp_tried (wlp_exists.mpr ?_)
  rw [World.revoke_datasets]
  rcases h.tried hb hsub (fun g hg => .inl (hgs g hg)) with ⟨hunused, hfresh⟩ | ⟨hnew, hbase, hkept⟩
  · rw [decide_eq_false hunused]
    exact hrest _ hfresh
  · rw [decide_eq_true hnew]
    rw [map_moved hbase hgs] at hkept
    exact wlp_ret.mpr hkept

/-- A case with `mount` on the file system. -/
theorem renameCase (h : Fresh w₀ user own b w) (hb : b = base a ++ '/' :: e) (hsub : gs ++ [("mount", a)] ⊆ own)
    (hgs : ∀ g ∈ gs, g.2 = base a) (hrest : ∀ w, Fresh w₀ user own b w → Wlp step rest (fun _ w' => Kept w₀ w') w) :
    Wlp step (renameCase user a b gs gs rest) (fun _ w' => Kept w₀ w') w := by
  have hall : ∀ g ∈ gs ++ [("mount", a)], g.2 = base a ∨ g.2 = a :=
    List.forall_mem_append.mpr ⟨fun g hg => .inl (hgs g hg), List.forall_mem_singleton.mpr (.inr rfl)⟩
  refine wlp_tried (wlp_exists.mpr ?_)
  rw [World.revoke_datasets]
  rcases h.tried hb hsub hall with ⟨hunused, hfresh⟩ | ⟨hnew, hbase, hkept⟩
  · rw [decide_eq_false hunused]
    refine wlp_unallow (hrest _ ?_)
    rw [World.revoke_revoke]
    exact hfresh
  · -- the grant on the file system is now on its new name
    have hmoved : [("mount", a)].map (Grant.moved a b) = [("mount", b)] := by
      rw [List.map_singleton, Grant.moved, move_self]
    rw [List.map_append, map_moved hbase hgs, hmoved] at hkept
    rw [decide_eq_true hnew]
    refine wlp_unallow (wlp_ret.mpr ?_)
    rw [World.revoke_revoke]
    exact hkept

/-- The last case: the dataset gets its name back. -/
theorem renameBack (h : Fresh w₀ user own b w) (hb : b = base a ++ '/' :: e) (hsub : gs ⊆ own) (hgs : ∀ g ∈ gs, g.2 = base a)
    (hrs : triples user rs = triples user gs) : Wlp step (renameBack user a b gs rs) (fun _ w' => Kept w₀ w') w := by
  refine wlp_tried (wlp_exists.mpr ?_)
  rw [World.revoke, hrs, ← World.revoke, World.revoke_datasets]
  rcases h.tried hb hsub (fun g hg => .inl (hgs g hg)) with ⟨hunused, hfresh⟩ | ⟨hnew, hbase, hkept⟩
  · rw [decide_eq_false hunused]
    exact wlp_ret.mpr hfresh.kept
  · rw [decide_eq_true hnew]
    rw [map_moved hbase hgs] at hkept
    refine wlp_must.mpr fun w' heffect => wlp_ret.mpr ?_
    rw [World.effect] at heffect
    split at heffect
    · cases heffect
      exact hkept.renamed b a
    · cases heffect

end Fresh

/-- The first rename, without a grant; the new name may be in use before it. -/
theorem rename_first {rest : Code Nat} {n : Nat} (h : Inv w₀ user own w) (hbare : b ∉ w.datasets → ∀ t ∈ w.allowed, t.dataset ≠ b)
    (hb : b = base a ++ '/' :: e) (hrest : ∀ w, Fresh w₀ user own b w → Wlp step rest (fun _ w' => Kept w₀ w') w) :
    Wlp step (userRun (.rename a b) >>= fun _ => datasetexists b >>= fun r => if r = true then pure n else rest)
      (fun _ w' => Kept w₀ w') w := by
  by_cases hused : b ∈ w.datasets
  · have heffect : w.effect (.rename a b) = none := by
      rw [World.effect]
      exact if_neg fun hcond => hcond.2.1 hused
    rw [wlp_userRun, wlp_exists]
    rcases tries_spec w (.rename a b) with ⟨w', hsome, -, -⟩ | ⟨-, htries⟩
    · rw [heffect] at hsome
      cases hsome
    · rw [htries, World.noted_datasets, decide_eq_true hused]
      exact wlp_ret.mpr (h.kept.congr rfl rfl)
  · have hfresh : Fresh w₀ user own b w := ⟨h, hused, hbare hused⟩
    change Wlp step (tried user [] (.rename a b) [] >>= _) _ w
    exact hfresh.refused hb (List.nil_subset own) (fun g hg => absurd hg List.not_mem_nil) hrest

/-! ## The checks -/

theorem kept_fsRename (h : Inv w₀ user (Check.fsRename.grants user date d) w) (hheld : ∀ t ∈ w.allowed, t.dataset ∈ w.datasets) :
    Wlp step (verifyFsRename user date d) (fun _ w' => Kept w₀ w') w := by
  have hb : base d ++ "/nfs.".toList ++ stamp "rename".toList user date =
      base d ++ '/' :: ("nfs.".toList ++ stamp "rename".toList user date) := List.append_assoc _ _ _
  have hcases : ∀ w, Inv w₀ user (Check.fsRename.grants user date d) w → (∀ t ∈ w.allowed, t.dataset ∈ w.datasets) →
      Wlp step (renameCases user d (base d) (base d ++ "/nfs.".toList ++ stamp "rename".toList user date)) (fun _ w' => Kept w₀ w') w := by
    intro w h hheld
    refine rename_first h (fun hunused t ht heq => hunused (heq ▸ hheld t ht)) hb fun w hw => ?_
    refine hw.refused hb (by simp [Check.grants]) (by simp) fun w hw => ?_
    refine hw.refused hb (by simp [Check.grants]) (by simp) fun w hw => ?_
    refine hw.renameCase hb (by simp [Check.grants]) (by simp) fun w hw => ?_
    refine hw.renameCase hb (by simp [Check.grants]) (by simp) fun w hw => ?_
    refine hw.renameCase hb (by simp [Check.grants]) (by simp) fun w hw => ?_
    exact hw.renameBack hb (by simp [Check.grants]) (by simp) (triples_swap _ _)
  refine wlp_ismounted.mpr ?_
  split
  · refine wlp_must.mpr fun w' heffect => ?_
    rw [World.effect] at heffect
    split at heffect
    · cases heffect
    · cases heffect
      exact hcases _ ⟨h.kept.congr rfl rfl, h.free⟩ hheld
  · exact hcases w h hheld

theorem kept_volRename (h : Inv w₀ user (Check.volRename.grants user date d) w) (hheld : ∀ t ∈ w.allowed, t.dataset ∈ w.datasets) :
    Wlp step (verifyVolRename user date d) (fun _ w' => Kept w₀ w') w := by
  have hb : base d ++ "/nvol.".toList ++ stamp "rename".toList user date =
      base d ++ '/' :: ("nvol.".toList ++ stamp "rename".toList user date) := List.append_assoc _ _ _
  refine rename_first h (fun hunused t ht heq => hunused (heq ▸ hheld t ht)) hb fun w hw => ?_
  refine hw.refused hb (by simp [Check.grants]) (by simp) fun w hw => ?_
  refine hw.refused hb (by simp [Check.grants]) (by simp) fun w hw => ?_
  exact hw.renameBack hb (by simp [Check.grants]) (by simp) rfl

end ZfsTest.Delegate
