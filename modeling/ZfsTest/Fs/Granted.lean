import Mathlib.Data.Finset.SDiff
import ZfsTest.Fs.Delegate

/-!
# What the checks of permissions leave behind

A check keeps the delegations (`Kept`) if at its end each dataset that is left has the delegations it had at the beginning, under its name
of now. Commands keep them; a grant, a command and a revocation of the grant do so too (`Safe.tried`), unless the command moves the dataset
of the grant. The checks for `rename` are followed with the knowledge that the new name is not in use (`safe_rename`), the promotion of a
volume case by case.
-/

namespace ZfsTest.Delegate

open Prog

/-! ## What the checks should do -/

inductive Check
  | fsCreate
  | fsDestroy
  | fsClone
  | fsRename
  | fsPromote
  | volDestroy
  | volClone
  | volRename
  | volPromote
  deriving DecidableEq, Repr

section

variable (user date d : Text)

/-- The clone of a promotion. -/
def promoteClone (mark : String) : Text := base d ++ mark.toList ++ stamp "promote".toList user date

def Check.code : Check → Code Nat
  | fsCreate => verifyFsCreate user date d
  | fsDestroy => verifyFsDestroy user d
  | fsClone => verifyFsClone user date d
  | fsRename => verifyFsRename user date d
  | fsPromote => verifyFsPromote user date d
  | volDestroy => verifyVolDestroy user d
  | volClone => verifyVolClone user date d
  | volRename => verifyVolRename user date d
  | volPromote => verifyVolPromote user date d

/-- What a check grants on its way. -/
def Check.grants : Check → List Grant
  | fsCreate => [("mount", d), ("reservation", d), ("refreservation", d)]
  | fsDestroy => [("mount", d)]
  | fsClone => [("create", base d), ("mount", base d)]
  | fsRename => [("create", base d), ("mount", base d), ("mount", d)]
  | fsPromote => [("promote", promoteClone user date d "/cfs."), ("mount", d)]
  | volDestroy => [("mount", d)]
  | volClone => [("create", base d), ("mount", base d)]
  | volRename => [("create", base d), ("mount", base d)]
  | volPromote => [("promote", promoteClone user date d "/cvol."), ("mount", d), ("mount", promoteClone user date d "/cvol.")]

/-- What is granted in each case of the promotion of a volume. -/
def caseGrants : List (List Grant) :=
  let clone := promoteClone user date d "/cvol."
  [[], [("promote", clone)], [("mount", d)], [("mount", clone)], [("promote", clone), ("mount", d)],
    [("promote", clone), ("mount", clone)], [("mount", d), ("mount", clone)], [("promote", clone), ("mount", d), ("mount", clone)]]

end

def triples (user : Text) (gs : List Grant) : Finset Triple := (gs.map (Grant.triple user)).toFinset

/-- A world before a check of a dataset: nothing has been run, delegations are on datasets, and none of them is one that the check
grants. -/
structure Start (check : Check) (user date d : Text) (w : World) : Prop where
  dataset : d ∈ w.datasets
  held : ∀ t ∈ w.allowed, t.dataset ∈ w.datasets
  now : w.now = some
  seen : w.seen = []
  free : Disjoint w.allowed (triples user (check.grants user date d))

/-- The delegations are those of the beginning, on the datasets that still exist. -/
def Kept (w₀ w : World) : Prop := ∀ t, t ∈ w.allowed ↔ ∃ d, { t with dataset := d } ∈ w₀.allowed ∧ w.now d = some t.dataset

/-- Each command that was run as the user has seen the delegations of the beginning and the grants of its case. -/
def SeesOwn (user date d : Text) (w₀ w : World) : Prop :=
  w.seen <+: (caseGrants user date d).map fun gs => w₀.allowed ∪ triples user gs

def LeavesAlone (check : Check) (user date d : Text) (w₀ : World) : Prop :=
  ∀ status w, exec step (check.code user date d) w₀ = some (status, w) →
    Kept w₀ w ∧ (check = .volPromote → SeesOwn user date d w₀ w)

/-- In a check for `destroy` a command that comes up has its effect; in the promotion of a volume the first one that has its effect is
not that of case 6. -/
def TakesBack (check : Check) (user date d : Text) (w : World) : Prop :=
  match check with
  | .fsDestroy => d ∈ w.mounted → w.choice 0 = true ∨ w.choice 1 = true
  | .volDestroy => w.choice 0 = true ∨ w.choice 1 = true
  | .volPromote =>
    (d, "snap.".toList ++ stamp "promote".toList user date) ∈ w.snapshots ∨ promoteClone user date d "/cvol." ∈ w.datasets ∨
      (∃ i < 5, w.choice i = true) ∨ w.choice 5 = false
  | _ => True

/-! ## Grants and revocations -/

variable {user : Text} {w w₀ w' : World} {gs rs own : List Grant} {t : Triple}

namespace World

def grant (w : World) (user : Text) (gs : List Grant) : World := { w with allowed := w.allowed ∪ triples user gs }
def revoke (w : World) (user : Text) (rs : List Grant) : World := { w with allowed := w.allowed \ triples user rs }

/-- After a command as the user that had no effect. -/
def noted (w : World) : World := { w with seen := w.seen ++ [w.allowed] }

@[simp] theorem grant_allowed : (w.grant user gs).allowed = w.allowed ∪ triples user gs := rfl
@[simp] theorem revoke_allowed : (w.revoke user rs).allowed = w.allowed \ triples user rs := rfl
@[simp] theorem grant_now : (w.grant user gs).now = w.now := rfl
@[simp] theorem revoke_now : (w.revoke user rs).now = w.now := rfl
@[simp] theorem grant_datasets : (w.grant user gs).datasets = w.datasets := rfl
@[simp] theorem revoke_datasets : (w.revoke user rs).datasets = w.datasets := rfl
@[simp] theorem noted_datasets : w.noted.datasets = w.datasets := rfl

end World

theorem triples_cons (g : Grant) (gs : List Grant) : triples user (g :: gs) = insert (g.triple user) (triples user gs) :=
  List.toFinset_cons

theorem triples_subset (h : gs ⊆ rs) : triples user gs ⊆ triples user rs := by
  intro t ht
  rw [triples, List.mem_toFinset, List.mem_map] at ht ⊢
  obtain ⟨g, hg, rfl⟩ := ht
  exact ⟨g, h hg, rfl⟩

theorem triples_append : triples user (gs ++ rs) = triples user gs ∪ triples user rs := by
  rw [triples, List.map_append, List.toFinset_append]
  rfl

namespace World

theorem grant_nil : w.grant user [] = w := by
  rw [grant, triples, List.map_nil, List.toFinset_nil, Finset.union_empty]

theorem revoke_nil : w.revoke user [] = w := by
  rw [revoke, triples, List.map_nil, List.toFinset_nil, Finset.sdiff_empty]

theorem grant_grant : (w.grant user gs).grant user rs = w.grant user (gs ++ rs) := by
  rw [grant, grant, grant, triples_append, Finset.union_assoc]

theorem revoke_revoke : (w.revoke user gs).revoke user rs = w.revoke user (gs ++ rs) := by
  rw [revoke, revoke, revoke, triples_append, sdiff_sdiff]
  rfl

end World

theorem effect_allow {g : Grant} :
    w.effect (.allow (g.triple user)) = if g.2 ∈ w.datasets then some (w.grant user [g]) else none := by
  have hone : insert (g.triple user) w.allowed = w.allowed ∪ triples user [g] := by
    rw [Finset.insert_eq, Finset.union_comm]
    rfl
  rw [World.effect, hone]
  rfl

theorem effect_unallow {g : Grant} :
    w.effect (.unallow (g.triple user)) = if g.2 ∈ w.datasets then some (w.revoke user [g]) else none := by
  have hone : w.allowed.erase (g.triple user) = w.allowed \ triples user [g] := by
    rw [Finset.erase_eq]
    rfl
  rw [World.effect, hone]
  rfl

theorem wlp_must {c : Cmd} {k : Unit → Code Nat} {Q : Nat → World → Prop} :
    Wlp step (must c >>= k) Q w ↔ ∀ w', w.effect c = some w' → Wlp step (k ()) Q w' := by
  refine (wlp_op (R := Op.Res) (o := Op.must c) (k := k)).trans ?_
  constructor
  · exact fun h w' hw => h () w' (by rw [step, hw]; rfl)
  · intro h r s' hstep
    obtain ⟨w', hw, heq⟩ := Option.map_eq_some_iff.mp hstep
    cases heq
    exact h _ hw

theorem wlp_userRun {c : Cmd} {k : Unit → Code Nat} {Q : Nat → World → Prop} :
    Wlp step (userRun c >>= k) Q w ↔ Wlp step (k ()) Q (w.tries c) := by
  refine (wlp_op (R := Op.Res) (o := Op.userRun c) (k := k)).trans ?_
  constructor
  · exact fun h => h () (w.tries c) rfl
  · intro h r s' hstep
    cases hstep
    exact h

/-- A question: the world stays as it is. -/
theorem wlp_ask {o : Op} {r : o.Res} {k : o.Res → Code Nat} {Q : Nat → World → Prop} (h : step o w = some (r, w)) :
    Wlp step (Prog.call o >>= k) Q w ↔ Wlp step (k r) Q w := by
  refine (wlp_op (R := Op.Res) (o := o) (k := k)).trans ?_
  constructor
  · exact fun hall => hall r w h
  · intro hk r' s' hstep
    rw [h] at hstep
    cases hstep
    exact hk

theorem wlp_exists {d : Text} {k : Bool → Code Nat} {Q : Nat → World → Prop} :
    Wlp step (datasetexists d >>= k) Q w ↔ Wlp step (k (decide (d ∈ w.datasets))) Q w :=
  wlp_ask (o := .datasetexists d) rfl

theorem wlp_ismounted {d : Text} {k : Bool → Code Nat} {Q : Nat → World → Prop} :
    Wlp step (ismounted d >>= k) Q w ↔ Wlp step (k (decide (d ∈ w.mounted))) Q w :=
  wlp_ask (o := .ismounted d) rfl

theorem wlp_origin {d : Text} {k : Option Snapshot → Code Nat} {Q : Nat → World → Prop} :
    Wlp step (getOrigin d >>= k) Q w ↔ Wlp step (k (w.origin d)) Q w :=
  wlp_ask (o := .getOrigin d) rfl

theorem wlp_allow {k : Unit → Code Nat} {Q : Nat → World → Prop} (h : Wlp step (k ()) Q (w.grant user gs)) :
    Wlp step (allow user gs >>= k) Q w := by
  induction gs generalizing w with
  | nil =>
    rw [World.grant_nil] at h
    exact h
  | cons g gs ih =>
    rw [allow, Prog.bind_assoc, wlp_must]
    intro w' hw
    rw [effect_allow] at hw
    split at hw
    · cases hw
      refine ih ?_
      rw [World.grant_grant]
      exact h
    · cases hw

theorem wlp_unallow {k : Unit → Code Nat} {Q : Nat → World → Prop} (h : Wlp step (k ()) Q (w.revoke user rs)) :
    Wlp step (unallow user rs >>= k) Q w := by
  induction rs generalizing w with
  | nil =>
    rw [World.revoke_nil] at h
    exact h
  | cons g rs ih =>
    rw [unallow, Prog.bind_assoc, wlp_must]
    intro w' hw
    rw [effect_unallow] at hw
    split at hw
    · cases hw
      refine ih ?_
      rw [World.revoke_revoke]
      exact h
    · cases hw

theorem wlp_tried {c : Cmd} {k : Unit → Code Nat} {Q : Nat → World → Prop}
    (h : Wlp step (k ()) Q (((w.grant user gs).tries c).revoke user rs)) : Wlp step (tried user gs c rs >>= k) Q w := by
  rw [tried, Prog.bind_assoc]
  refine wlp_allow ?_
  rw [Prog.bind_assoc, wlp_userRun]
  exact wlp_unallow h

/-! ## What commands do to the delegations -/

theorem Kept.start (h : w₀.now = some) : Kept w₀ w₀ := by
  intro t
  simp only [h, Option.some.injEq]
  constructor
  · exact fun ht => ⟨t.dataset, ht, rfl⟩
  · rintro ⟨d, hd, rfl⟩
    exact hd

/-- Only the delegations and the places of the datasets matter. -/
theorem Kept.congr (h : Kept w₀ w) (hallowed : w'.allowed = w.allowed) (hnow : w'.now = w.now) : Kept w₀ w' := by
  intro t
  rw [hallowed, hnow]
  exact h t

theorem Kept.without (h : Kept w₀ w) (gone : Text → Bool) : Kept w₀ (w.without gone) := by
  intro t
  simp only [World.without, Finset.mem_filter, h t, Option.filter_eq_some_iff]
  constructor
  · rintro ⟨⟨d, hd, hnow⟩, hgone⟩
    exact ⟨d, hd, hnow, hgone⟩
  · rintro ⟨d, hd, hnow, hgone⟩
    exact ⟨⟨d, hd, hnow⟩, hgone⟩

theorem Kept.renamed (h : Kept w₀ w) (a b : Text) : Kept w₀ (w.renamed a b) := by
  intro t
  simp only [World.renamed, Finset.mem_image, Option.map_eq_some_iff]
  constructor
  · rintro ⟨t', ht', rfl⟩
    obtain ⟨d, hd, hnow⟩ := (h t').mp ht'
    exact ⟨d, hd, t'.dataset, hnow, rfl⟩
  · rintro ⟨d, hd, d', hnow, hmove⟩
    exact ⟨{ t with dataset := d' }, (h _).mpr ⟨d, hd, hnow⟩, by rw [hmove]⟩

/-- A command that leaves the datasets in their places. -/
def Cmd.still : Cmd → Bool
  | .create _ _ => true
  | .snapshot _ => true
  | .clone _ _ => true
  | .promote _ => true
  | .mount _ => true
  | _ => false

theorem effect_still {c : Cmd} (hc : c.still = true) (h : w.effect c = some w') : w'.allowed = w.allowed ∧ w'.now = w.now := by
  cases c with
  | create d mounts =>
    rw [World.effect] at h
    split at h <;> cases h
    exact ⟨rfl, rfl⟩
  | snapshot s =>
    rw [World.effect] at h
    split at h <;> cases h
    exact ⟨rfl, rfl⟩
  | clone s d =>
    rw [World.effect] at h
    split at h <;> cases h
    exact ⟨rfl, rfl⟩
  | promote d =>
    rw [World.effect] at h
    split at h <;> cases h
    exact ⟨rfl, rfl⟩
  | mount d =>
    rw [World.effect] at h
    split at h <;> cases h
    exact ⟨rfl, rfl⟩
  | destroy d => cases hc
  | destroyAll s => cases hc
  | rename a b => cases hc
  | allow t => cases hc
  | unallow t => cases hc

/-- What a command that was run as the user leaves. -/
theorem tries_spec (w : World) (c : Cmd) :
    (∃ w', w.effect c = some w' ∧ w.choice w.seen.length = true ∧ w.tries c = { w' with seen := w.seen ++ [w.allowed] }) ∨
      (w.effect c = none ∨ w.choice w.seen.length = false) ∧ w.tries c = w.noted := by
  rw [World.tries]
  cases hchoice : w.choice w.seen.length with
  | false => exact .inr ⟨.inr rfl, rfl⟩
  | true =>
    cases heffect : w.effect c with
    | none => exact .inr ⟨.inl rfl, rfl⟩
    | some w' => exact .inl ⟨w', rfl, rfl, rfl⟩

theorem tries_still {c : Cmd} (hc : c.still = true) (w : World) : (w.tries c).allowed = w.allowed ∧ (w.tries c).now = w.now := by
  rcases tries_spec w c with ⟨w', heffect, -, htries⟩ | ⟨-, htries⟩
  · rw [htries]
    obtain ⟨hallowed, hnow⟩ := effect_still hc heffect
    exact ⟨hallowed, hnow⟩
  · rw [htries]
    exact ⟨rfl, rfl⟩

/-- Every dataset of the beginning that has a place still exists there. -/
def Placed (D : Finset Text) (w : World) : Prop := ∀ d ∈ D, ∀ d', w.now d = some d' → d' ∈ w.datasets

namespace Placed

variable {D : Finset Text}

theorem start (h : w.now = some) : Placed w.datasets w := by
  intro d hd d' hnow
  rw [h, Option.some.injEq] at hnow
  exact hnow ▸ hd

theorem without (h : Placed D w) (gone : Text → Bool) : Placed D (w.without gone) := by
  intro d hd d' hnow
  obtain ⟨hplace, hgone⟩ := Option.filter_eq_some_iff.mp hnow
  exact Finset.mem_filter.mpr ⟨h d hd d' hplace, hgone⟩

theorem effect {c : Cmd} (h : Placed D w) (heffect : w.effect c = some w') : Placed D w' := by
  cases c with
  | create x mounts =>
    rw [World.effect] at heffect
    split at heffect <;> cases heffect
    exact fun d hd d' hnow => Finset.mem_insert_of_mem (h d hd d' hnow)
  | destroy x =>
    rw [World.effect] at heffect
    split at heffect <;> cases heffect
    exact h.without _
  | destroyAll s =>
    rw [World.effect] at heffect
    split at heffect <;> cases heffect
    exact h.without _
  | snapshot s =>
    rw [World.effect] at heffect
    split at heffect <;> cases heffect
    exact h
  | clone s x =>
    rw [World.effect] at heffect
    split at heffect <;> cases heffect
    exact fun d hd d' hnow => Finset.mem_insert_of_mem (h d hd d' hnow)
  | rename a b =>
    rw [World.effect] at heffect
    split at heffect <;> cases heffect
    intro d hd d' hnow
    obtain ⟨x, hx, rfl⟩ := Option.map_eq_some_iff.mp hnow
    exact Finset.mem_image_of_mem (move a b) (h d hd x hx)
  | promote x =>
    rw [World.effect] at heffect
    split at heffect <;> cases heffect
    exact h
  | mount x =>
    rw [World.effect] at heffect
    split at heffect <;> cases heffect
    exact h
  | allow t =>
    rw [World.effect] at heffect
    split at heffect <;> cases heffect
    exact h
  | unallow t =>
    rw [World.effect] at heffect
    split at heffect <;> cases heffect
    exact h

theorem tries {c : Cmd} (h : Placed D w) : Placed D (w.tries c) := by
  rcases tries_spec w c with ⟨w', heffect, -, htries⟩ | ⟨-, htries⟩
  · have hplaced : Placed D w' := h.effect heffect
    rw [htries]
    exact hplaced
  · rw [htries]
    exact h

theorem step {o : Op} {r : o.Res} (h : Placed D w) (hstep : step o w = some (r, w')) : Placed D w' := by
  cases o with
  | must c =>
    obtain ⟨w₁, heffect, heq⟩ := Option.map_eq_some_iff.mp hstep
    cases heq
    exact h.effect heffect
  | userRun c =>
    cases hstep
    exact h.tries
  | datasetexists d =>
    cases hstep
    exact h
  | ismounted d =>
    cases hstep
    exact h
  | getOrigin d =>
    cases hstep
    exact h
  | isGlobalZone =>
    cases hstep
    exact h
  | supportRefrev =>
    cases hstep
    exact h

/-- In every run. -/
theorem run {α : Type} {p : Code α} {a : α} (h : Placed D w) (hrun : exec Delegate.step p w = some (a, w')) : Placed D w' := by
  induction p generalizing w with
  | ret b =>
    cases hrun
    exact h
  | op o k ih =>
    rw [exec_op] at hrun
    obtain ⟨⟨r, w₁⟩, hstep, hrest⟩ := Option.bind_eq_some_iff.mp hrun
    exact ih r (h.step hstep) hrest

end Placed

/-- What was granted is taken back. -/
theorem sdiff_granted {A : Finset Triple} (hsub : gs ⊆ rs) (hfree : Disjoint A (triples user rs)) :
    (A ∪ triples user gs) \ triples user rs = A := by
  rw [Finset.union_sdiff_distrib, Finset.sdiff_eq_empty_iff_subset.mpr (triples_subset hsub), Finset.union_empty]
  exact Finset.sdiff_eq_self_of_disjoint hfree

/-! ## Checks that are safe on every path -/

section

variable (w₀ : World) (user : Text) (own : List Grant)

/-- The delegations are kept, and none is one of the check's own. -/
structure Inv (w : World) : Prop where
  kept : Kept w₀ w
  free : Disjoint w.allowed (triples user own)

/-- From every such world the program keeps the delegations. -/
def Safe (p : Code Nat) : Prop := ∀ w, Inv w₀ user own w → Wlp step p (fun _ w' => Kept w₀ w') w

end

namespace Safe

variable {k : Unit → Code Nat} {p q : Code Nat} {c : Cmd} {d : Text} {n : Nat}

theorem ret : Safe w₀ user own (pure n) := fun _ h => wlp_ret.mpr h.kept

theorem ask {o : Op} {k : o.Res → Code Nat} {f : World → o.Res} (h : ∀ w, step o w = some (f w, w)) (hk : ∀ r, Safe w₀ user own (k r)) :
    Safe w₀ user own (Prog.call o >>= k) :=
  fun w hw => (wlp_ask (h w)).mpr (hk (f w) w hw)

theorem exists_ {k : Bool → Code Nat} (hk : ∀ r, Safe w₀ user own (k r)) : Safe w₀ user own (datasetexists d >>= k) :=
  ask (o := .datasetexists d) (fun _ => rfl) hk

theorem origin {k : Option Snapshot → Code Nat} (hk : ∀ r, Safe w₀ user own (k r)) : Safe w₀ user own (getOrigin d >>= k) :=
  ask (o := .getOrigin d) (fun _ => rfl) hk

theorem cond {P : Prop} [Decidable P] (hp : Safe w₀ user own p) (hq : Safe w₀ user own q) : Safe w₀ user own (if P then p else q) := by
  split
  · exact hp
  · exact hq

theorem user_ (hc : c.still = true) (hk : Safe w₀ user own (k ())) : Safe w₀ user own (userRun c >>= k) := by
  intro w hw
  rw [wlp_userRun]
  obtain ⟨hallowed, hnow⟩ := tries_still hc w
  exact hk _ ⟨hw.kept.congr hallowed hnow, by rw [hallowed]; exact hw.free⟩

theorem tried_ (hgs : gs ⊆ rs) (hrs : rs ⊆ own) (hc : c.still = true) (hk : Safe w₀ user own (k ())) :
    Safe w₀ user own (tried user gs c rs >>= k) := by
  intro w hw
  refine wlp_tried (hk _ ?_)
  obtain ⟨hallowed, hnow⟩ := tries_still hc (w.grant user gs)
  have hback : (((w.grant user gs).tries c).revoke user rs).allowed = w.allowed := by
    rw [World.revoke_allowed, hallowed, World.grant_allowed]
    exact sdiff_granted hgs (hw.free.mono_right (triples_subset hrs))
  exact ⟨hw.kept.congr hback hnow, by rw [hback]; exact hw.free⟩

theorem must_ (hc : c.still = true) (hk : Safe w₀ user own (k ())) : Safe w₀ user own (must c >>= k) := by
  intro w hw
  rw [wlp_must]
  intro w' heffect
  obtain ⟨hallowed, hnow⟩ := effect_still hc heffect
  exact hk _ ⟨hw.kept.congr hallowed hnow, by rw [hallowed]; exact hw.free⟩

theorem destroy (hk : Safe w₀ user own (k ())) : Safe w₀ user own (must (.destroy d) >>= k) := by
  intro w hw
  rw [wlp_must]
  intro w' heffect
  rw [World.effect] at heffect
  split at heffect
  · cases heffect
    exact hk _ ⟨hw.kept.without _, hw.free.mono_left (Finset.filter_subset _ _)⟩
  · cases heffect

theorem destroyAll {s : Snapshot} (hk : Safe w₀ user own (k ())) : Safe w₀ user own (must (.destroyAll s) >>= k) := by
  intro w hw
  rw [wlp_must]
  intro w' heffect
  rw [World.effect] at heffect
  split at heffect
  · cases heffect
    exact hk _ ⟨(hw.kept.without _).congr rfl rfl, hw.free.mono_left (Finset.filter_subset _ _)⟩
  · cases heffect

theorem zone {k : Bool → Code Nat} (hk : ∀ r, Safe w₀ user own (k r)) : Safe w₀ user own (isGlobalZone >>= k) :=
  ask (o := .isGlobalZone) (fun _ => rfl) hk

theorem refrev {k : Bool → Code Nat} (hk : ∀ r, Safe w₀ user own (k r)) : Safe w₀ user own (supportRefrev >>= k) :=
  ask (o := .supportRefrev) (fun _ => rfl) hk

/-- A command without a grant, after which a dataset should not exist. -/
theorem denied (hc : c.still = true) (hrest : Safe w₀ user own p) :
    Safe w₀ user own (userRun c >>= fun _ => datasetexists d >>= fun r => if r = true then pure n else p) :=
  user_ hc (exists_ fun _ => cond ret hrest)

/-- A command under some grants, after which a dataset should not exist. -/
theorem refused (hgs : gs ⊆ own) (hc : c.still = true) (hrest : Safe w₀ user own p) :
    Safe w₀ user own (tried user gs c gs >>= fun _ => datasetexists d >>= fun r => if r = true then pure n else p) :=
  tried_ (List.Subset.refl gs) hgs hc (exists_ fun _ => cond ret hrest)

end Safe

variable {date d : Text}

theorem safe_createAll {fs newvol : Text} {checkRefrev : Bool} :
    Safe w₀ user (Check.fsCreate.grants user date fs) (createAll user fs newvol checkRefrev) := by
  have hgrants : [("mount", fs), ("reservation", fs)] ++ (if checkRefrev = true then [("refreservation", fs)] else []) ⊆
      Check.fsCreate.grants user date fs := by
    cases checkRefrev <;> simp [Check.grants]
  refine Safe.tried_ (List.Subset.refl _) hgrants rfl ?_
  exact Safe.exists_ fun _ => Safe.cond Safe.ret (Safe.destroy Safe.ret)

theorem safe_createVolumes {fs newvol : Text} {checkRefrev : Bool} :
    Safe w₀ user (Check.fsCreate.grants user date fs) (createVolumes user fs newvol checkRefrev) := by
  have hmount : [("mount", fs)] ⊆ Check.fsCreate.grants user date fs := by simp [Check.grants]
  have hreservation : [("reservation", fs)] ⊆ Check.fsCreate.grants user date fs := by simp [Check.grants]
  have hrefreservation : [("refreservation", fs)] ⊆ Check.fsCreate.grants user date fs := by simp [Check.grants]
  refine Safe.denied rfl ?_
  refine Safe.tried_ (List.Subset.refl _) hmount rfl (Safe.exists_ fun _ => Safe.cond Safe.ret (Safe.destroy ?_))
  refine Safe.denied rfl (Safe.refused hmount rfl (Safe.refused hreservation rfl (Safe.cond ?_ safe_createAll)))
  exact Safe.refused hrefreservation rfl safe_createAll

theorem safe_fsCreate : Safe w₀ user (Check.fsCreate.grants user date d) (verifyFsCreate user date d) := by
  have hmount : [("mount", d)] ⊆ Check.fsCreate.grants user date d := by simp [Check.grants]
  refine Safe.denied rfl ?_
  refine Safe.tried_ (List.Subset.refl _) hmount rfl (Safe.exists_ fun _ => Safe.cond Safe.ret ?_)
  exact Safe.refrev fun _ => Safe.destroy (Safe.zone fun _ => Safe.cond safe_createVolumes Safe.ret)

theorem safe_fsClone : Safe w₀ user (Check.fsClone.grants user date d) (verifyFsClone user date d) := by
  have hcreate : [("create", base d)] ⊆ Check.fsClone.grants user date d := by simp [Check.grants]
  have hmount : [("mount", base d)] ⊆ Check.fsClone.grants user date d := by simp [Check.grants]
  refine Safe.must_ rfl (Safe.denied rfl (Safe.refused hcreate rfl (Safe.refused hmount rfl ?_)))
  refine Safe.tried_ (by simp) (by simp [Check.grants]) rfl ?_
  exact Safe.exists_ fun _ => Safe.cond Safe.ret (Safe.destroyAll Safe.ret)

theorem safe_volClone : Safe w₀ user (Check.volClone.grants user date d) (verifyVolClone user date d) := by
  have hcreate : [("create", base d)] ⊆ Check.volClone.grants user date d := by simp [Check.grants]
  have hmount : [("mount", base d)] ⊆ Check.volClone.grants user date d := by simp [Check.grants]
  refine Safe.must_ rfl (Safe.denied rfl (Safe.refused hcreate rfl (Safe.refused hmount rfl ?_)))
  refine Safe.tried_ (by simp) (by simp [Check.grants]) rfl ?_
  exact Safe.exists_ fun _ => Safe.cond Safe.ret Safe.ret

theorem safe_promoteCase {clone : Text} {origins : Option Snapshot × Option Snapshot} {rest : Code Nat} (hgs : gs ⊆ own)
    (hrest : Safe w₀ user own rest) : Safe w₀ user own (promoteCase user d clone origins gs gs rest) :=
  Safe.tried_ (List.Subset.refl gs) hgs rfl (Safe.origin fun _ => Safe.origin fun _ => Safe.cond Safe.ret hrest)

theorem safe_fsPromote : Safe w₀ user (Check.fsPromote.grants user date d) (verifyFsPromote user date d) := by
  refine Safe.must_ rfl (Safe.must_ rfl (Safe.must_ rfl (Safe.origin fun _ => Safe.origin fun _ => ?_)))
  refine safe_promoteCase (List.nil_subset _) ?_
  refine safe_promoteCase (by simp [Check.grants, promoteClone]) ?_
  refine safe_promoteCase (by simp [Check.grants, promoteClone]) ?_
  refine Safe.tried_ (by simp) (by simp [Check.grants, promoteClone]) rfl ?_
  exact Safe.origin fun _ => Safe.origin fun _ => Safe.cond Safe.ret Safe.ret

end ZfsTest.Delegate
