import ZfsTest.Fs.Renamed

/-!
# The grants that are left behind

A check for `destroy` leaves `mount` behind when neither of its commands has its effect, and the promotion of a volume when the first
command with an effect is that of case 6; all other runs of all checks leave the delegations alone.
-/

namespace ZfsTest.Delegate

open Prog

variable {user date d clone n : Text} {w w₀ w' : World} {gs rs own : List Grant} {c : Cmd} {check : Check} {α : Type}

/-! ## Runs of the operations -/

theorem exec_must {k : Unit → Code α} (h : w.effect c = some w') : exec step (must c >>= k) w = exec step (k ()) w' := by
  have hstep : step (.must c) w = some ((), w') := by
    rw [step, h]
    rfl
  refine (exec_op (R := Op.Res) (Op.must c) k w).trans ?_
  rw [hstep]
  rfl

theorem exec_must_none {k : Unit → Code α} (h : w.effect c = none) : exec step (must c >>= k) w = none := by
  have hstep : step (.must c) w = none := by
    rw [step, h]
    rfl
  refine (exec_op (R := Op.Res) (Op.must c) k w).trans ?_
  rw [hstep]
  rfl

theorem exec_userRun {k : Unit → Code α} : exec step (userRun c >>= k) w = exec step (k ()) (w.tries c) := rfl

theorem exec_exists {k : Bool → Code α} : exec step (datasetexists d >>= k) w = exec step (k (decide (d ∈ w.datasets))) w := rfl

theorem exec_origin {k : Option Snapshot → Code α} : exec step (getOrigin d >>= k) w = exec step (k (w.origin d)) w := rfl

theorem exec_allow {k : Unit → Code α} (h : ∀ g ∈ gs, g.2 ∈ w.datasets) :
    exec step (allow user gs >>= k) w = exec step (k ()) (w.grant user gs) := by
  induction gs generalizing w with
  | nil =>
    rw [World.grant_nil]
    rfl
  | cons g gs ih =>
    have heffect : w.effect (.allow (g.triple user)) = some (w.grant user [g]) := by
      rw [effect_allow, if_pos (h g List.mem_cons_self)]
    rw [allow, Prog.bind_assoc, exec_must heffect, ih, World.grant_grant]
    · rfl
    · exact fun g' hg' => h g' (List.mem_cons_of_mem g hg')

theorem exec_unallow {k : Unit → Code α} (h : ∀ g ∈ rs, g.2 ∈ w.datasets) :
    exec step (unallow user rs >>= k) w = exec step (k ()) (w.revoke user rs) := by
  induction rs generalizing w with
  | nil =>
    rw [World.revoke_nil]
    rfl
  | cons g rs ih =>
    have heffect : w.effect (.unallow (g.triple user)) = some (w.revoke user [g]) := by
      rw [effect_unallow, if_pos (h g List.mem_cons_self)]
    rw [unallow, Prog.bind_assoc, exec_must heffect, ih, World.revoke_revoke]
    · rfl
    · exact fun g' hg' => h g' (List.mem_cons_of_mem g hg')

theorem exec_tried {k : Unit → Code α} (hgs : ∀ g ∈ gs, g.2 ∈ w.datasets) (hrs : ∀ g ∈ rs, g.2 ∈ ((w.grant user gs).tries c).datasets) :
    exec step (tried user gs c rs >>= k) w = exec step (k ()) (((w.grant user gs).tries c).revoke user rs) := by
  rw [tried, Prog.bind_assoc, exec_allow hgs, Prog.bind_assoc, exec_userRun, exec_unallow hrs]

/-! ## Destroying a dataset -/

/-- A delegation of the check that is there at the end. -/
theorem not_kept (h : Start check user date d w₀) {g : Grant} (hg : g ∈ check.grants user date d) (hnow : w.now = some)
    (hleft : g.triple user ∈ w.allowed) : ¬Kept w₀ w := by
  intro hkept
  obtain ⟨d', hd', heq⟩ := (hkept _).mp hleft
  rw [hnow, Option.some.injEq] at heq
  rw [heq] at hd'
  exact Finset.disjoint_left.mp h.free hd' (List.mem_toFinset.mpr (List.mem_map.mpr ⟨g, hg, rfl⟩))

theorem kept_destroy (h : Kept w₀ w) : Kept w₀ (w.tries (.destroy d)) := by
  rcases tries_spec w (.destroy d) with ⟨w', heffect, -, htries⟩ | ⟨-, htries⟩
  · rw [World.effect] at heffect
    split at heffect
    · cases heffect
      rw [htries]
      exact (h.without _).congr rfl rfl
    · cases heffect
  · rw [htries]
    exact h.congr rfl rfl

/-- A destruction that has its effect. -/
theorem tries_destroy (hd : d ∈ w.datasets) (hchoice : w.choice w.seen.length = true) :
    w.tries (.destroy d) = { w.without (fun e => e = d) with seen := w.seen ++ [w.allowed] } := by
  rw [World.tries, hchoice, World.effect, if_pos hd]
  rfl

/-- A command that has no effect. -/
theorem tries_denied (hchoice : w.choice w.seen.length = false) : w.tries c = w.noted := by
  rw [World.tries, hchoice]
  rfl

theorem without_gone : d ∉ (w.without fun e => e = d).datasets := by
  intro hd
  have hgone := (Finset.mem_filter.mp hd).2
  simp at hgone

/-- A grant goes with its dataset. -/
theorem grant_without {g : Grant} : ((w.grant user [g]).without fun e => e = g.2).allowed = (w.without fun e => e = g.2).allowed := by
  have hnone : (triples user [g]).filter (fun t => !decide (t.dataset = g.2)) = ∅ := by
    rw [Finset.filter_eq_empty_iff]
    intro t ht
    rw [List.mem_singleton.mp (List.mem_toFinset.mp ht)]
    simp [Grant.triple]
  rw [World.without, World.grant_allowed, Finset.filter_union, hnone, Finset.union_empty]
  rfl

theorem kept_volDestroy (h : Start check user date d w₀) (hchoice : w₀.choice 0 = true ∨ w₀.choice 1 = true) :
    Wlp step (verifyVolDestroy user d) (fun _ w' => Kept w₀ w') w₀ := by
  have hkept := Kept.start h.now
  refine wlp_userRun.mpr (wlp_exists.mpr ?_)
  cases hfirst : w₀.choice 0 with
  | true =>
    rw [tries_destroy h.dataset (by rw [h.seen]; exact hfirst), decide_eq_false without_gone]
    exact wlp_ret.mpr ((hkept.without _).congr rfl rfl)
  | false =>
    have hsecond : w₀.noted.choice w₀.noted.seen.length = true := by
      rw [hfirst] at hchoice
      rw [World.noted, h.seen]
      exact hchoice.resolve_left Bool.false_ne_true
    have hdestroy := tries_destroy (w := w₀.noted.grant user [("mount", d)]) h.dataset hsecond
    rw [tries_denied (by rw [h.seen]; exact hfirst), World.noted_datasets, decide_eq_true h.dataset]
    refine wlp_allow (wlp_userRun.mpr (wlp_exists.mpr ?_))
    rw [hdestroy, decide_eq_false without_gone]
    exact wlp_ret.mpr ((hkept.without fun e => e = d).congr (grant_without (g := ("mount", d))) rfl)

/-- Neither command has its effect: the grant stays. -/
theorem exec_volDestroy (h : Start check user date d w₀) (hfirst : w₀.choice 0 = false) (hsecond : w₀.choice 1 = false) :
    exec step (verifyVolDestroy user d) w₀ = some (1, (w₀.noted.grant user [("mount", d)]).noted) := by
  have hgrant : ∀ g ∈ [(("mount", d) : Grant)], g.2 ∈ w₀.noted.datasets := by
    intro g hg
    rw [List.mem_singleton.mp hg]
    exact h.dataset
  have hdenied : (w₀.noted.grant user [("mount", d)]).choice (w₀.noted.grant user [("mount", d)]).seen.length = false := by
    rw [World.grant, World.noted, h.seen]
    exact hsecond
  rw [verifyVolDestroy, exec_userRun, exec_exists, tries_denied (by rw [h.seen]; exact hfirst), World.noted_datasets,
    decide_eq_true h.dataset]
  refine (exec_allow hgrant).trans ?_
  rw [exec_userRun, exec_exists, tries_denied hdenied, World.noted_datasets, World.grant_datasets, World.noted_datasets,
    decide_eq_true h.dataset]
  rfl

theorem kept_fsDestroy (h : Start check user date d w₀) (hchoice : d ∈ w₀.mounted → w₀.choice 0 = true ∨ w₀.choice 1 = true) :
    Wlp step (verifyFsDestroy user d) (fun _ w' => Kept w₀ w') w₀ := by
  refine wlp_ismounted.mpr ?_
  by_cases hmounted : d ∈ w₀.mounted
  · rw [decide_eq_true hmounted]
    refine wlp_ismounted.mpr ?_
    rw [decide_eq_true hmounted]
    exact kept_volDestroy h (hchoice hmounted)
  · rw [decide_eq_false hmounted]
    have hkept := kept_destroy (d := d) (Kept.start h.now)
    refine wlp_userRun.mpr (wlp_exists.mpr ?_)
    split
    · exact wlp_ret.mpr hkept
    · have hstill : d ∉ (w₀.tries (.destroy d)).mounted := by
        intro hmount
        rcases tries_spec w₀ (.destroy d) with ⟨w', heffect, -, htries⟩ | ⟨-, htries⟩
        · rw [World.effect, if_pos h.dataset] at heffect
          cases heffect
          rw [htries] at hmount
          exact hmounted (Finset.mem_filter.mp hmount).1
        · rw [htries] at hmount
          exact hmounted hmount
      refine wlp_ismounted.mpr ?_
      rw [decide_eq_false hstill]
      exact wlp_ret.mpr hkept

theorem exec_fsDestroy (hmounted : d ∈ w₀.mounted) : exec step (verifyFsDestroy user d) w₀ = exec step (verifyVolDestroy user d) w₀ := by
  have hask : ∀ k : Bool → Code Nat, exec step (ismounted d >>= k) w₀ = exec step (k true) w₀ := by
    intro k
    have hstep : exec step (ismounted d >>= k) w₀ = exec step (k (decide (d ∈ w₀.mounted))) w₀ := rfl
    rw [hstep, decide_eq_true hmounted]
  exact (hask _).trans (hask _)

/-! ## The promotion of a volume -/

namespace World

/-- The world at a case: the delegations and what was seen. -/
def stage (w : World) (A : Finset Triple) (S : List (Finset Triple)) : World := { w with allowed := A, seen := S }

end World

/-- After the promotion of the clone: the volume is a clone of it. -/
structure Turned (d clone n : Text) (w : World) : Prop where
  held : d ∈ w.datasets
  cloned : clone ∈ w.datasets
  ne : d ≠ clone
  turned : w.origin d = some (clone, n)

section

variable {A B : Finset Triple} {S : List (Finset Triple)} {rest : Code Nat}

theorem exec_promoteCase {origins : Option Snapshot × Option Snapshot} (hplace : ∀ g ∈ gs ++ rs, g.2 ∈ w.datasets) :
    exec step (promoteCase user d clone origins gs rs rest) w =
      if origins.1 ≠ (((w.grant user gs).tries (.promote d)).revoke user rs).origin d ∨
          origins.2 ≠ (((w.grant user gs).tries (.promote d)).revoke user rs).origin clone then
        some (1, ((w.grant user gs).tries (.promote d)).revoke user rs)
      else exec step rest (((w.grant user gs).tries (.promote d)).revoke user rs) := by
  have hdatasets : ((w.grant user gs).tries (.promote d)).datasets = w.datasets := by
    rcases tries_spec (w.grant user gs) (.promote d) with ⟨w', heffect, -, htries⟩ | ⟨-, htries⟩
    · rw [htries]
      rw [World.effect] at heffect
      split at heffect <;> cases heffect
      rfl
    · rw [htries]
      rfl
  refine (exec_tried (fun g hg => hplace g (List.mem_append_left rs hg)) fun g hg => ?_).trans ?_
  · rw [hdatasets]
    exact hplace g (List.mem_append_right gs hg)
  · rw [exec_origin, exec_origin]
    split
    · rfl
    · rfl

theorem Turned.place (h : Turned d clone n w) (hplace : ∀ g ∈ gs, g.2 = d ∨ g.2 = clone) : ∀ g ∈ gs, g.2 ∈ w.datasets := by
  intro g hg
  rcases hplace g hg with heq | heq
  · rw [heq]
    exact h.held
  · rw [heq]
    exact h.cloned

/-- A case whose command has no effect. -/
theorem Turned.denied (h : Turned d clone n w) (hplace : ∀ g ∈ gs ++ rs, g.2 = d ∨ g.2 = clone) (hchoice : w.choice S.length = false) :
    exec step (promoteCase user d clone (w.origin d, w.origin clone) gs rs rest) (w.stage A S) =
      exec step rest (w.stage ((A ∪ triples user gs) \ triples user rs) (S ++ [A ∪ triples user gs])) := by
  rw [exec_promoteCase (w := w.stage A S) (h.place hplace), tries_denied (w := (w.stage A S).grant user gs) hchoice, if_neg]
  · rfl
  · rintro (hne | hne)
    · exact hne rfl
    · exact hne rfl

/-- A case that takes back what it granted, and whose command has no effect. -/
theorem Turned.wp_denied {Q : Nat → World → Prop} (h : Turned d clone n w) (hplace : ∀ g ∈ gs, g.2 = d ∨ g.2 = clone)
    (hfree : Disjoint A (triples user gs)) (hchoice : w.choice S.length = false)
    (hrest : Wp step rest Q (w.stage A (S ++ [A ∪ triples user gs]))) :
    Wp step (promoteCase user d clone (w.origin d, w.origin clone) gs gs rest) Q (w.stage A S) := by
  have hboth : ∀ g ∈ gs ++ gs, g.2 = d ∨ g.2 = clone := List.forall_mem_append.mpr ⟨hplace, hplace⟩
  refine (wp_congr (h.denied hboth hchoice)).mpr ?_
  rw [sdiff_granted (List.Subset.refl gs) hfree]
  exact hrest

/-- What a command with its effect leaves. -/
theorem Turned.tries (h : Turned d clone n w) (hchoice : w.choice S.length = true) :
    (w.stage A S).tries (.promote d) = (w.promoted d clone n).stage A (S ++ [A]) := by
  have heffect : (w.stage A S).effect (.promote d) = some ((w.stage A S).promoted d clone n) := by
    rw [World.effect, show (w.stage A S).origin d = some (clone, n) from h.turned]
  rw [World.tries, show (w.stage A S).choice (w.stage A S).seen.length = true from hchoice, heffect]
  rfl

/-- A case whose command has its effect: the origins differ. -/
theorem Turned.done (h : Turned d clone n w) (hplace : ∀ g ∈ gs ++ rs, g.2 = d ∨ g.2 = clone) (hchoice : w.choice S.length = true) :
    exec step (promoteCase user d clone (w.origin d, w.origin clone) gs rs rest) (w.stage A S) =
      some (1, (w.promoted d clone n).stage ((A ∪ triples user gs) \ triples user rs) (S ++ [A ∪ triples user gs])) := by
  have htries : ((w.stage A S).grant user gs).tries (.promote d) =
      (w.promoted d clone n).stage (A ∪ triples user gs) (S ++ [A ∪ triples user gs]) := h.tries hchoice
  have hclone : (w.promoted d clone n).origin clone = some (d, n) := by
    rw [World.promoted]
    simp [h.ne.symm]
  have hdataset : (w.promoted d clone n).origin d = w.origin clone := if_pos rfl
  rw [exec_promoteCase (w := w.stage A S) (h.place hplace), htries, if_pos]
  · rfl
  · change w.origin d ≠ (w.promoted d clone n).origin d ∨ w.origin clone ≠ (w.promoted d clone n).origin clone
    rw [hclone, hdataset, h.turned]
    by_cases heq : w.origin clone = some (d, n)
    · left
      rw [heq]
      intro hsame
      injection hsame with hpair
      exact h.ne (Prod.mk.inj hpair).1.symm
    · exact .inr heq

/-- The run ends with some delegations, and the commands have seen a front of a list. -/
def Ends (p : Code Nat) (w : World) (A : Finset Triple) (seen : List (Finset Triple)) : Prop :=
  Wlp step p (fun _ w' => w'.now = w.now ∧ w'.allowed = A ∧ w'.seen <+: seen) w

/-- One case of the promotion. -/
theorem Turned.ends (h : Turned d clone n w) (hplace : ∀ g ∈ gs ++ rs, g.2 = d ∨ g.2 = clone) {seen : List (Finset Triple)}
    (hseen : S ++ [A ∪ triples user gs] <+: seen) (hdone : w.choice S.length = true → (A ∪ triples user gs) \ triples user rs = B)
    (hdenied : w.choice S.length = false →
      Ends rest (w.stage ((A ∪ triples user gs) \ triples user rs) (S ++ [A ∪ triples user gs])) B seen) :
    Ends (promoteCase user d clone (w.origin d, w.origin clone) gs rs rest) (w.stage A S) B seen := by
  intro status w' hexec
  cases hchoice : w.choice S.length with
  | true =>
    rw [h.done hplace hchoice] at hexec
    cases hexec
    exact ⟨rfl, hdone hchoice, hseen⟩
  | false =>
    rw [h.denied hplace hchoice] at hexec
    exact hdenied hchoice status w' hexec

/-- A case that takes back what it granted. -/
theorem Turned.ends_own (h : Turned d clone n w) (hplace : ∀ g ∈ gs, g.2 = d ∨ g.2 = clone) (hfree : Disjoint A (triples user gs))
    {seen : List (Finset Triple)} (hseen : S ++ [A ∪ triples user gs] <+: seen)
    (hdenied : w.choice S.length = false → Ends rest (w.stage A (S ++ [A ∪ triples user gs])) A seen) :
    Ends (promoteCase user d clone (w.origin d, w.origin clone) gs gs rest) (w.stage A S) A seen := by
  have hback : (A ∪ triples user gs) \ triples user gs = A := sdiff_granted (List.Subset.refl gs) hfree
  have hboth : ∀ g ∈ gs ++ gs, g.2 = d ∨ g.2 = clone := List.forall_mem_append.mpr ⟨hplace, hplace⟩
  refine h.ends hboth hseen (fun _ => hback) fun hchoice => ?_
  rw [hback]
  exact hdenied hchoice

theorem Turned.ends_last (h : Turned d clone n w) {snap : Snapshot} {cloneOrig : Option Snapshot} {seen : List (Finset Triple)}
    (hseen : S ++ [A ∪ triples user gs] <+: seen) (hback : (A ∪ triples user gs) \ triples user rs = B) :
    Ends (promoteLast user d clone snap cloneOrig gs rs) (w.stage A S) B seen := by
  refine wlp_tried ?_
  have htries : ∃ w₁ : World, w₁.now = w.now ∧
      ((w.stage A S).grant user gs).tries (.promote d) = w₁.stage (A ∪ triples user gs) (S ++ [A ∪ triples user gs]) := by
    cases hchoice : w.choice S.length with
    | true => exact ⟨w.promoted d clone n, rfl, h.tries hchoice⟩
    | false => exact ⟨w, rfl, tries_denied (w := (w.stage A S).grant user gs) hchoice⟩
  obtain ⟨w₁, hnow, hstage⟩ := htries
  rw [hstage]
  refine wlp_origin.mpr (wlp_origin.mpr ?_)
  split
  · exact wlp_ret.mpr ⟨hnow, hback, hseen⟩
  · exact wlp_ret.mpr ⟨hnow, hback, hseen⟩

/-- Case 6 takes back `promote`, and leaves `mount` on the clone. -/
theorem case_left (hne : d ≠ clone) (hfree : Disjoint A (triples user [("promote", clone), ("mount", d)])) :
    (A ∪ triples user [("promote", clone), ("mount", clone)]) \ triples user [("promote", clone), ("mount", d)] =
      A ∪ triples user [("mount", clone)] := by
  have hown : triples user [("promote", clone), ("mount", clone)] \ triples user [("promote", clone), ("mount", d)] =
      triples user [("mount", clone)] := by
    ext t
    simp only [triples, Finset.mem_sdiff, List.mem_toFinset, List.mem_map, List.mem_cons, List.not_mem_nil, or_false, exists_eq_or_imp,
      exists_eq_left]
    constructor
    · rintro ⟨rfl | rfl, hnot⟩
      · exact absurd (.inl rfl) hnot
      · rfl
    · rintro rfl
      refine ⟨.inr rfl, ?_⟩
      rintro (heq | heq)
      · simp [Grant.triple] at heq
      · exact hne (Triple.mk.inj heq).2.2
  rw [Finset.union_sdiff_distrib, hown, Finset.sdiff_eq_self_of_disjoint hfree]

/-- All cases: the promotion leaves the delegations alone unless the first command with an effect is that of case 6. -/
theorem Turned.alone (h : Turned d (promoteClone user date d "/cvol.") n w) {snap : Snapshot}
    (hfree : Disjoint A (triples user (Check.volPromote.grants user date d)))
    (hchoice : (∃ i < 5, w.choice i = true) ∨ w.choice 5 = false) :
    Ends (promoteCases user d (promoteClone user date d "/cvol.") snap (w.origin d, w.origin (promoteClone user date d "/cvol.")))
      (w.stage A []) A ((caseGrants user date d).map fun gs => A ∪ triples user gs) := by
  have hsub : ∀ {gs}, gs ⊆ Check.volPromote.grants user date d → Disjoint A (triples user gs) :=
    fun hgs => hfree.mono_right (triples_subset hgs)
  refine h.ends_own (by simp) (hsub (by simp)) ⟨((caseGrants user date d).drop 1).map _, rfl⟩ fun h0 => ?_
  refine h.ends_own (by simp) (hsub (by simp [Check.grants])) ⟨((caseGrants user date d).drop 2).map _, rfl⟩ fun h1 => ?_
  refine h.ends_own (by simp) (hsub (by simp [Check.grants])) ⟨((caseGrants user date d).drop 3).map _, rfl⟩ fun h2 => ?_
  refine h.ends_own (by simp) (hsub (by simp [Check.grants])) ⟨((caseGrants user date d).drop 4).map _, rfl⟩ fun h3 => ?_
  refine h.ends_own (by simp) (hsub (by simp [Check.grants])) ⟨((caseGrants user date d).drop 5).map _, rfl⟩ fun h4 => ?_
  refine h.ends (by simp) ⟨((caseGrants user date d).drop 6).map _, rfl⟩ (fun h5 => ?_) fun h5 => ?_
  · -- an effect in case 6 is what `hchoice` excludes
    have hnone : ∀ i < 5, w.choice i = false := by
      intro i hi
      have hcases : i = 0 ∨ i = 1 ∨ i = 2 ∨ i = 3 ∨ i = 4 := by omega
      rcases hcases with rfl | rfl | rfl | rfl | rfl
      · exact h0
      · exact h1
      · exact h2
      · exact h3
      · exact h4
    rcases hchoice with ⟨i, hi, htrue⟩ | hfalse
    · rw [hnone i hi] at htrue
      cases htrue
    · exact absurd (hfalse.symm.trans h5) Bool.false_ne_true
  · rw [case_left h.ne (hsub (by simp [Check.grants]))]
    -- case 7 grants what case 6 has left, and takes it back
    have hseen : A ∪ triples user [("mount", promoteClone user date d "/cvol.")] ∪
        triples user [("mount", d), ("mount", promoteClone user date d "/cvol.")] =
          A ∪ triples user [("mount", d), ("mount", promoteClone user date d "/cvol.")] := by
      rw [Finset.union_assoc, Finset.union_eq_right.mpr (triples_subset (by simp))]
    have hback : (A ∪ triples user [("mount", d), ("mount", promoteClone user date d "/cvol.")]) \
        triples user [("mount", d), ("mount", promoteClone user date d "/cvol.")] = A :=
      sdiff_granted (List.Subset.refl _) (hsub (by simp [Check.grants]))
    refine h.ends (by simp) ?_ (fun _ => by rw [hseen]; exact hback) fun _ => ?_
    · rw [hseen]
      exact ⟨((caseGrants user date d).drop 7).map _, rfl⟩
    · rw [hseen, hback]
      exact h.ends_last ⟨[], rfl⟩ (sdiff_granted (List.Subset.refl _) hfree)

/-- The first effect is that of case 6: `mount` on the clone stays. -/
theorem Turned.leaks (h : Turned d (promoteClone user date d "/cvol.") n w) {snap : Snapshot}
    (hfree : Disjoint A (triples user (Check.volPromote.grants user date d))) (hnone : ∀ i < 5, w.choice i = false)
    (hdone : w.choice 5 = true) :
    Wp step (promoteCases user d (promoteClone user date d "/cvol.") snap (w.origin d, w.origin (promoteClone user date d "/cvol.")))
      (fun _ w' => w'.now = w.now ∧ Grant.triple user ("mount", promoteClone user date d "/cvol.") ∈ w'.allowed) (w.stage A []) := by
  have hsub : ∀ {gs}, gs ⊆ Check.volPromote.grants user date d → Disjoint A (triples user gs) :=
    fun hgs => hfree.mono_right (triples_subset hgs)
  refine h.wp_denied (by simp) (hsub (List.nil_subset _)) (hnone 0 (by omega)) ?_
  refine h.wp_denied (by simp) (hsub (by simp [Check.grants])) (hnone 1 (by omega)) ?_
  refine h.wp_denied (by simp) (hsub (by simp [Check.grants])) (hnone 2 (by omega)) ?_
  refine h.wp_denied (by simp) (hsub (by simp [Check.grants])) (hnone 3 (by omega)) ?_
  refine h.wp_denied (by simp) (hsub (by simp [Check.grants])) (hnone 4 (by omega)) ?_
  refine ⟨1, _, h.done (by simp) hdone, rfl, ?_⟩
  rw [World.stage, case_left h.ne (hsub (by simp [Check.grants]))]
  exact Finset.mem_union_right _ (List.mem_toFinset.mpr List.mem_cons_self)

end

/-- After the snapshot of the volume, its clone, and the promotion of the clone. -/
def World.turnedTo (w : World) (d clone n : Text) : World :=
  World.promoted
    { w with
      snapshots := insert (d, n) w.snapshots
      datasets := insert clone w.datasets
      mounted := insert clone w.mounted
      origin := fun e => if e = clone then some (d, n) else w.origin e } clone d n

theorem turned (hd : d ∈ w.datasets) (hclone : clone ∉ w.datasets) : Turned d clone n (w.turnedTo d clone n) := by
  have hne : d ≠ clone := fun heq => hclone (heq ▸ hd)
  refine ⟨Finset.mem_insert_of_mem hd, Finset.mem_insert_self _ _, hne, ?_⟩
  rw [World.turnedTo, World.promoted]
  simp [hne]

theorem effects_turned (hsnap : (d, n) ∉ w.snapshots) (hclone : clone ∉ w.datasets) :
    ∃ w₁ w₂, w.effect (.snapshot (d, n)) = some w₁ ∧ w₁.effect (.clone (d, n) clone) = some w₂ ∧
      w₂.effect (.promote clone) = some (w.turnedTo d clone n) := by
  refine ⟨_, _, if_neg hsnap, if_pos ⟨Finset.mem_insert_self _ _, hclone⟩, ?_⟩
  rw [World.effect]
  simp only [if_pos]
  rfl

theorem exec_volPromote {w₁ w₂ w₃ : World} (h₁ : w.effect (.snapshot (d, "snap.".toList ++ stamp "promote".toList user date)) = some w₁)
    (h₂ : w₁.effect (.clone (d, "snap.".toList ++ stamp "promote".toList user date) (promoteClone user date d "/cvol.")) = some w₂)
    (h₃ : w₂.effect (.promote (promoteClone user date d "/cvol.")) = some w₃) :
    exec step (verifyVolPromote user date d) w =
      exec step (promoteCases user d (promoteClone user date d "/cvol.") (d, "snap.".toList ++ stamp "promote".toList user date)
        (w₃.origin d, w₃.origin (promoteClone user date d "/cvol."))) w₃ := by
  refine (exec_must h₁).trans ?_
  refine (exec_must h₂).trans ?_
  exact exec_must h₃

theorem exec_volPromote_none (h : (d, "snap.".toList ++ stamp "promote".toList user date) ∈ w.snapshots ∨
    promoteClone user date d "/cvol." ∈ w.datasets) : exec step (verifyVolPromote user date d) w = none := by
  by_cases hsnap : (d, "snap.".toList ++ stamp "promote".toList user date) ∈ w.snapshots
  · exact exec_must_none (if_pos hsnap)
  · have hheld : promoteClone user date d "/cvol." ∈ w.datasets := h.resolve_left hsnap
    have heffect : w.effect (.snapshot (d, "snap.".toList ++ stamp "promote".toList user date)) =
        some { w with snapshots := insert (d, "snap.".toList ++ stamp "promote".toList user date) w.snapshots } := if_neg hsnap
    refine (exec_must heffect).trans (exec_must_none (if_neg ?_))
    rintro ⟨-, hnew⟩
    exact hnew hheld

/-- The promotion of a volume. -/
theorem volPromote_iff (h : Start .volPromote user date d w₀) :
    LeavesAlone .volPromote user date d w₀ ↔ TakesBack .volPromote user date d w₀ := by
  by_cases hheld : (d, "snap.".toList ++ stamp "promote".toList user date) ∈ w₀.snapshots ∨
      promoteClone user date d "/cvol." ∈ w₀.datasets
  · constructor
    · exact fun _ => hheld.elim .inl fun hclone => .inr (.inl hclone)
    · intro _ status w' hrun
      rw [Check.code, exec_volPromote_none hheld] at hrun
      cases hrun
  · obtain ⟨hsnap, hclone⟩ := not_or.mp hheld
    obtain ⟨w₁, w₂, h₁, h₂, h₃⟩ := effects_turned hsnap hclone
    have hturned := turned (n := "snap.".toList ++ stamp "promote".toList user date) h.dataset hclone
    have hstage : w₀.turnedTo d (promoteClone user date d "/cvol.") ("snap.".toList ++ stamp "promote".toList user date) =
        (w₀.turnedTo d (promoteClone user date d "/cvol.") ("snap.".toList ++ stamp "promote".toList user date)).stage w₀.allowed [] := by
      rw [World.stage, ← h.seen]
      rfl
    have hexec := (exec_volPromote h₁ h₂ h₃).trans (congrArg (exec step _) hstage)
    constructor
    · intro halone
      by_contra hnot
      obtain ⟨-, hrest⟩ := not_or.mp (not_or.mp hnot).2
      obtain ⟨hnone, hdone⟩ := not_or.mp hrest
      have hdenied : ∀ i < 5, w₀.choice i = false := fun i hi => Bool.eq_false_iff.mpr fun htrue => hnone ⟨i, hi, htrue⟩
      obtain ⟨status, w', hrun, hnow, hleft⟩ := hturned.leaks h.free hdenied (Bool.eq_true_of_not_eq_false hdone)
      refine not_kept h ?_ (hnow.trans h.now) hleft (halone status w' (hexec.trans hrun)).1
      simp [Check.grants]
    · intro htakes status w' hrun
      have hchoice := (htakes.resolve_left hsnap).resolve_left hclone
      obtain ⟨hnow, hallowed, hseen⟩ := hturned.alone h.free hchoice status w' (hexec.symm.trans hrun)
      exact ⟨(Kept.start h.now).congr hallowed hnow, fun _ => hseen⟩

/-! ## The checks -/

/-- A check for `destroy`. -/
theorem volDestroy_iff (h : Start check user date d w₀) (hgrant : ("mount", d) ∈ check.grants user date d) :
    (∀ status w', exec step (verifyVolDestroy user d) w₀ = some (status, w') → Kept w₀ w') ↔ w₀.choice 0 = true ∨ w₀.choice 1 = true := by
  constructor
  · intro hkept
    by_contra hnot
    obtain ⟨hfirst, hsecond⟩ := not_or.mp hnot
    have hleft := hkept _ _ (exec_volDestroy h (Bool.eq_false_iff.mpr hfirst) (Bool.eq_false_iff.mpr hsecond))
    refine not_kept h hgrant ?_ ?_ hleft
    · exact h.now
    · exact Finset.mem_union_right _ (List.mem_toFinset.mpr List.mem_cons_self)
  · exact fun hchoice status w' => kept_volDestroy h hchoice status w'

/-- After a check the datasets are where `now` has them. -/
theorem Start.placed (h : Start check user date d w₀) {status : Nat} (hrun : exec step (check.code user date d) w₀ = some (status, w)) :
    Placed w₀.datasets w :=
  (Placed.start h.now).run hrun

theorem delegations_left_alone_iff (check : Check) (user date d : Text) (w₀ : World) (h : Start check user date d w₀) :
    LeavesAlone check user date d w₀ ↔ TakesBack check user date d w₀ := by
  have hinv : Inv w₀ user (check.grants user date d) w₀ := ⟨Kept.start h.now, h.free⟩
  have halone : check ≠ .volPromote → ((∀ status w', exec step (check.code user date d) w₀ = some (status, w') → Kept w₀ w') ↔
      LeavesAlone check user date d w₀) := by
    intro hne
    constructor
    · exact fun hkept status w' hrun => ⟨hkept status w' hrun, fun heq => absurd heq hne⟩
    · exact fun hall status w' hrun => (hall status w' hrun).1
  cases check with
  | fsCreate => exact iff_of_true ((halone (by simp)).mp (safe_fsCreate w₀ hinv)) trivial
  | fsClone => exact iff_of_true ((halone (by simp)).mp (safe_fsClone w₀ hinv)) trivial
  | fsRename => exact iff_of_true ((halone (by simp)).mp (kept_fsRename hinv h.held)) trivial
  | fsPromote => exact iff_of_true ((halone (by simp)).mp (safe_fsPromote w₀ hinv)) trivial
  | volClone => exact iff_of_true ((halone (by simp)).mp (safe_volClone w₀ hinv)) trivial
  | volRename => exact iff_of_true ((halone (by simp)).mp (kept_volRename hinv h.held)) trivial
  | volPromote => exact volPromote_iff h
  | volDestroy => exact (halone (by simp)).symm.trans (volDestroy_iff h List.mem_cons_self)
  | fsDestroy =>
    refine (halone (by simp)).symm.trans ?_
    constructor
    · intro hkept hmounted
      refine (volDestroy_iff h List.mem_cons_self).mp fun status w' hrun => hkept status w' ?_
      exact (exec_fsDestroy hmounted).trans hrun
    · exact fun htakes status w' => kept_fsDestroy h htakes status w'

/-- A pool with a volume, and no command that is run as the user has its effect. -/
def refusing : World where
  datasets := {"p".toList, "p/v".toList}
  snapshots := ∅
  mounted := ∅
  origin := fun _ => none
  allowed := ∅
  now := some
  seen := []
  choice := fun _ => false
  globalZone := true
  refrev := true

theorem start_refusing : Start .volDestroy "u".toList "1".toList "p/v".toList refusing where
  dataset := by decide
  held := fun t ht => absurd ht (Finset.notMem_empty t)
  now := rfl
  seen := rfl
  free := Finset.disjoint_empty_left _

theorem delegations_left_alone_sample : Start .volDestroy "u".toList "1".toList "p/v".toList refusing ∧
    (LeavesAlone .volDestroy "u".toList "1".toList "p/v".toList refusing ↔
      TakesBack .volDestroy "u".toList "1".toList "p/v".toList refusing) :=
  ⟨start_refusing, delegations_left_alone_iff .volDestroy "u".toList "1".toList "p/v".toList refusing start_refusing⟩

/-- The check of `destroy` of a volume leaves `mount` behind. -/
theorem not_delegations_left_alone :
    ¬∀ (check : Check) (user date d : Text) (w₀ : World), Start check user date d w₀ → LeavesAlone check user date d w₀ := by
  intro hall
  have hkept := (volDestroy_iff start_refusing List.mem_cons_self).mp fun status w' hrun =>
    (hall .volDestroy "u".toList "1".toList "p/v".toList refusing start_refusing status w' hrun).1
  exact hkept.elim Bool.false_ne_true Bool.false_ne_true

end ZfsTest.Delegate
