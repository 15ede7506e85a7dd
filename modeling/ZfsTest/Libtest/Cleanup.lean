import ZfsTest.Prog.Acyclic
import ZfsTest.Prog.Loop

/-!
# Destroying the pools, `default_cleanup_noexit`

In the global zone the function destroys all pools but those of `KEEP` and `NO_POOLS`. Each round of its loop goes through the pools that
are left and destroys those that are safe to destroy: no pool is built from files or zvols of them. The list of pools is read again
after each pool. A pool that is kept is never destroyed, so the pools that it is built from never become safe, and the loop goes on for
ever unless they are kept too (`cleansUp_iff`).
-/

namespace ZfsTest.Libtest

open Loop

/-- The pools in the order of `zpool list`, those that are kept, and what `zpool status -v` and `zfs list` tell about two of them: the
first one has a file in a directory of the second one's name, a zvol of the second one, or a file below a mountpoint of the second
one. -/
structure System (α : Type) where
  names : List α
  nodup : names.Nodup
  kept : α → Bool
  filePool : α → α → Bool
  zvolPool : α → α → Bool
  altMountPool : α → α → Bool
  acyclic : Acyclic (fun p q => filePool p q ∨ zvolPool p q ∨ altMountPool p q) names

variable {α : Type} (sys : System α)

namespace System

/-- `p` is built from files or zvols of `q`. -/
def BuiltFrom (p q : α) : Prop := sys.filePool p q ∨ sys.zvolPool p q ∨ sys.altMountPool p q

/-- The pools of a list that are not kept. -/
def listed (pools : List α) : List α := pools.filter fun p => !sys.kept p

/-- `safe_to_destroy_pool`, when `pools` exist. -/
def safeToDestroyPool (pools : List α) (q : α) : Bool :=
  !pools.foldl (fun dontDestroy pool => dontDestroy || sys.zvolPool pool q || sys.filePool pool q || sys.altMountPool pool q) false

end System

/-- `destroy_pool`: a pool that does not exist is left alone. -/
def destroyPool [DecidableEq α] (pools : List α) (q : α) : List α := if q ∈ pools then pools.erase q else pools

/-- The pools that exist, and `ALL_POOLS`. -/
structure Cleanup (α : Type) where
  pools : List α
  allPools : List α

def Cleanup.init : Cleanup α := ⟨sys.names, sys.listed sys.names⟩

/-- The body of the inner loop. -/
def cleanupPool [DecidableEq α] (s : Cleanup α) (pool : α) : Cleanup α :=
  let pools := if sys.safeToDestroyPool s.pools pool then destroyPool s.pools pool else s.pools
  ⟨pools, sys.listed pools⟩

/-- One round of the outer loop; the pools that exist at its end are the result. -/
def cleanupRound [DecidableEq α] (s : Cleanup α) : Round (Cleanup α) (List α) :=
  if s.allPools ≠ [] then .next (s.allPools.foldl (cleanupPool sys) s) else .done s.pools

/-- What the cleanup is for, by the pools that it leaves. -/
structure Cleaned (final : List α) : Prop where
  destroyed : ∀ q ∈ sys.names, sys.kept q = false → (∀ p ∈ sys.names, sys.kept p = true → ¬Chained sys.BuiltFrom sys.names p q) →
    q ∉ final
  kept : ∀ p ∈ sys.names, sys.kept p = true → p ∈ final

/-- The loop ends, and has cleaned up. -/
def CleansUp [DecidableEq α] : Prop := ∃ final, Ends (cleanupRound sys) (Cleanup.init sys) final ∧ Cleaned sys final

/-- A pool that is kept is built from pools that are kept. -/
def KeptApart : Prop := ∀ p ∈ sys.names, sys.kept p = true → ∀ q ∈ sys.names, sys.BuiltFrom p q → sys.kept q = true

variable {sys} {pools : List α} {p q : α} {s s' : Cleanup α}

/-! ## Safe pools -/

theorem foldl_or (f : α → Bool) (l : List α) (b : Bool) : l.foldl (fun d x => d || f x) b = (b || l.any f) := by
  induction l generalizing b with
  | nil => simp
  | cons x l ih => rw [List.foldl_cons, ih, List.any_cons, Bool.or_assoc]

/-- No pool that exists is built from a safe pool. -/
theorem safeToDestroyPool_iff : sys.safeToDestroyPool pools q = true ↔ ∀ p ∈ pools, ¬sys.BuiltFrom p q := by
  unfold System.safeToDestroyPool System.BuiltFrom
  simp only [Bool.or_assoc, foldl_or, Bool.false_or, Bool.not_eq_true', List.any_eq_false, Bool.or_eq_true, not_or]
  exact forall₂_congr fun p _ => by tauto

/-- The pool itself does not count. -/
theorem safeToDestroyPool_iff_other (hpools : pools ⊆ sys.names) :
    sys.safeToDestroyPool pools q = true ↔ ∀ p ∈ pools, p ≠ q → ¬sys.BuiltFrom p q := by
  rw [safeToDestroyPool_iff]
  refine forall₂_congr fun p hp => ⟨fun h _ => h, fun h => ?_⟩
  rcases eq_or_ne p q with rfl | hne
  · exact sys.acyclic.irrefl (hpools hp)
  · exact h hne

theorem mem_listed : q ∈ sys.listed pools ↔ q ∈ pools ∧ sys.kept q = false := by
  simp [System.listed]

/-- What the loop keeps: the pools are some of those at the start, all that are kept are there, and `ALL_POOLS` is up to date. -/
structure Cleaning (sys : System α) (s : Cleanup α) : Prop where
  sublist : s.pools.Sublist sys.names
  kept : ∀ p ∈ sys.names, sys.kept p = true → p ∈ s.pools
  allPools : s.allPools = sys.listed s.pools

theorem Cleaning.nodup (h : Cleaning sys s) : s.pools.Nodup := h.sublist.nodup sys.nodup

theorem cleaning_init : Cleaning sys (Cleanup.init sys) := ⟨List.Sublist.refl _, fun _ hp _ => hp, rfl⟩

theorem kept_of_mem_allPools (h : Cleaning sys s) : ∀ q ∈ s.allPools, sys.kept q = false := by
  rw [h.allPools]
  exact fun q hq => (mem_listed.mp hq).2

/-- Some pool that is left is safe, when the pools that are kept are not built from the others. -/
theorem exists_safe (hsys : KeptApart sys) (h : Cleaning sys s) (hne : s.allPools ≠ []) :
    ∃ q ∈ s.allPools, ∀ p ∈ s.pools, ¬sys.BuiltFrom p q := by
  have hsub : s.allPools ⊆ sys.names := by
    rw [h.allPools]
    exact fun x hx => h.sublist.subset (mem_listed.mp hx).1
  obtain ⟨q, hq, htop⟩ := sys.acyclic.exists_top hsub hne
  refine ⟨q, hq, fun p hp hb => ?_⟩
  cases hk : sys.kept p with
  | false =>
    refine htop p ?_ hb
    rw [h.allPools]
    exact mem_listed.mpr ⟨hp, hk⟩
  | true =>
    have hkq := hsys p (h.sublist.subset hp) hk q (hsub hq) hb
    rw [kept_of_mem_allPools h q hq] at hkq
    cases hkq

/-! ## One pool -/

variable [DecidableEq α]

theorem mem_destroyPool (hp : pools.Nodup) : p ∈ destroyPool pools q ↔ p ∈ pools ∧ p ≠ q := by
  unfold destroyPool
  split
  · rw [hp.mem_erase_iff, and_comm]
  · rename_i hq
    exact ⟨fun h => ⟨h, fun heq => hq (heq ▸ h)⟩, And.left⟩

theorem destroyPool_sublist (pools : List α) (q : α) : (destroyPool pools q).Sublist pools := by
  unfold destroyPool
  split
  · exact List.erase_sublist
  · exact List.Sublist.refl _

/-- The pools after one pool was visited. -/
theorem mem_cleanupPool (h : Cleaning sys s) :
    p ∈ (cleanupPool sys s q).pools ↔ p ∈ s.pools ∧ ¬(p = q ∧ ∀ x ∈ s.pools, ¬sys.BuiltFrom x q) := by
  unfold cleanupPool
  simp only
  split
  · rename_i hsafe
    rw [mem_destroyPool h.nodup, safeToDestroyPool_iff.mp hsafe |> eq_true]
    simp
  · rename_i hsafe
    rw [safeToDestroyPool_iff] at hsafe
    simp [hsafe]

theorem Cleaning.cleanupPool (h : Cleaning sys s) (hq : sys.kept q = false) : Cleaning sys (cleanupPool sys s q) where
  sublist := by
    unfold Libtest.cleanupPool
    simp only
    split
    · exact (destroyPool_sublist _ _).trans h.sublist
    · exact h.sublist
  kept p hp hk := by
    refine (mem_cleanupPool h).mpr ⟨h.kept p hp hk, ?_⟩
    rintro ⟨rfl, -⟩
    rw [hq] at hk
    cases hk
  allPools := rfl

/-! ## One round -/

theorem Cleaning.foldl {ps : List α} (h : Cleaning sys s) (hps : ∀ q ∈ ps, sys.kept q = false) :
    Cleaning sys (ps.foldl (Libtest.cleanupPool sys) s) := by
  induction ps generalizing s with
  | nil => exact h
  | cons q ps ih =>
    exact ih (h.cleanupPool (hps q List.mem_cons_self)) fun x hx => hps x (List.mem_cons_of_mem q hx)

theorem foldl_subset {ps : List α} (h : Cleaning sys s) (hps : ∀ q ∈ ps, sys.kept q = false) :
    (ps.foldl (cleanupPool sys) s).pools ⊆ s.pools := by
  induction ps generalizing s with
  | nil => exact fun _ hx => hx
  | cons q ps ih =>
    have hq := h.cleanupPool (hps q List.mem_cons_self)
    exact fun x hx => ((mem_cleanupPool h).mp (ih hq (fun y hy => hps y (List.mem_cons_of_mem q hy)) hx)).1

/-- A pool that is safe when a round begins is destroyed in it. -/
theorem notMem_foldl {ps : List α} (h : Cleaning sys s) (hps : ∀ q ∈ ps, sys.kept q = false) (hq : q ∈ ps)
    (hsafe : ∀ p ∈ s.pools, ¬sys.BuiltFrom p q) : q ∉ (ps.foldl (cleanupPool sys) s).pools := by
  induction ps generalizing s with
  | nil => cases hq
  | cons x ps ih =>
    have hx := h.cleanupPool (hps x List.mem_cons_self)
    have hrest : ∀ y ∈ ps, sys.kept y = false := fun y hy => hps y (List.mem_cons_of_mem x hy)
    rcases List.mem_cons.mp hq with rfl | hq
    · intro hmem
      exact ((mem_cleanupPool h).mp (foldl_subset hx hrest hmem)).2 ⟨rfl, hsafe⟩
    · exact ih hx hrest hq fun p hp => hsafe p ((mem_cleanupPool h).mp hp).1

/-- A pool from which a pool that is kept is built is never destroyed. -/
theorem mem_foldl_pinned {ps : List α} (h : Cleaning sys s) (hps : ∀ x ∈ ps, sys.kept x = false) (hp : p ∈ sys.names)
    (hk : sys.kept p = true) (hb : sys.BuiltFrom p q) (hq : q ∈ s.pools) : q ∈ (ps.foldl (cleanupPool sys) s).pools := by
  induction ps generalizing s with
  | nil => exact hq
  | cons x ps ih =>
    refine ih (h.cleanupPool (hps x List.mem_cons_self)) (fun y hy => hps y (List.mem_cons_of_mem x hy)) ?_
    refine (mem_cleanupPool h).mpr ⟨hq, ?_⟩
    rintro ⟨rfl, hsafe⟩
    exact hsafe p (h.kept p hp hk) hb

theorem cleanupRound_next (hne : s.allPools ≠ []) :
    cleanupRound sys s = .next (s.allPools.foldl (cleanupPool sys) s) := if_pos hne

theorem cleanupRound_done (h : s.allPools = []) : cleanupRound sys s = .done s.pools := if_neg (not_not_intro h)

/-- Each round destroys a pool. -/
theorem round_decreases (hsys : KeptApart sys) (h : Cleaning sys s) (hne : s.allPools ≠ []) :
    (s.allPools.foldl (cleanupPool sys) s).pools.length < s.pools.length := by
  have hps := kept_of_mem_allPools h
  obtain ⟨q, hq, hsafe⟩ := exists_safe hsys h hne
  have hgone := notMem_foldl h hps hq hsafe
  have hq' : q ∈ s.pools := by
    rw [h.allPools] at hq
    exact (mem_listed.mp hq).1
  have hnodup := (h.foldl hps).nodup
  have hsub : (q :: (s.allPools.foldl (cleanupPool sys) s).pools) ⊆ s.pools :=
    List.cons_subset.mpr ⟨hq', foldl_subset h hps⟩
  exact ((List.nodup_cons.mpr ⟨hgone, hnodup⟩).subperm hsub).length_le

/-! ## The whole loop -/

theorem cleansUp_of_keptApart (hsys : KeptApart sys) : CleansUp sys := by
  have hinit : Cleaning sys (Cleanup.init sys) := cleaning_init
  refine exists_ends (fun s => s.pools.length) (fun s hs => ?_) hinit
  by_cases hne : s.allPools = []
  · refine Or.inl ⟨s.pools, cleanupRound_done hne, fun q hq hk _ hmem => ?_, hs.kept⟩
    have hlisted : q ∈ s.allPools := by
      rw [hs.allPools]
      exact mem_listed.mpr ⟨hmem, hk⟩
    rw [hne] at hlisted
    cases hlisted
  · exact Or.inr ⟨_, cleanupRound_next hne, hs.foldl (kept_of_mem_allPools hs), round_decreases hsys hs hne⟩

/-- A pool that is kept and built from one that is not holds the loop. -/
theorem not_ends_of_pinned (hp : p ∈ sys.names) (hk : sys.kept p = true) (hq : q ∈ sys.names) (hkq : sys.kept q = false)
    (hb : sys.BuiltFrom p q) (final : List α) : ¬Ends (cleanupRound sys) (Cleanup.init sys) final := by
  refine not_ends (I := fun s => Cleaning sys s ∧ q ∈ s.pools) (fun s ⟨hs, hmem⟩ => ?_) ⟨cleaning_init, hq⟩
  have hlisted : q ∈ s.allPools := by
    rw [hs.allPools]
    exact mem_listed.mpr ⟨hmem, hkq⟩
  have hps := kept_of_mem_allPools hs
  exact ⟨_, cleanupRound_next (List.ne_nil_of_mem hlisted), hs.foldl hps, mem_foldl_pinned hs hps hp hk hb hmem⟩

theorem keptApart_of_cleansUp (h : CleansUp sys) : KeptApart sys := by
  obtain ⟨final, hends, -⟩ := h
  intro p hp hk q hq hb
  by_contra hkq
  exact not_ends_of_pinned hp hk hq (eq_false_of_ne_true hkq) hb final hends

/-- When the loop ends and cleans up. -/
theorem cleansUp_iff (sys : System α) : CleansUp sys ↔ KeptApart sys := ⟨keptApart_of_cleansUp, cleansUp_of_keptApart⟩

/-- Pool `true` is kept and built from a file in pool `false`, which is not. -/
def pinned : System Bool where
  names := [false, true]
  nodup := by decide
  kept p := p
  filePool p q := p && !q
  zvolPool _ _ := false
  altMountPool _ _ := false
  acyclic := acyclic_of_lt Bool.toNat (by decide)

theorem not_cleansUp : ¬CleansUp pinned := fun h => by
  have hk := keptApart_of_cleansUp h true (by decide) rfl false (by decide) (Or.inl rfl)
  cases hk

end ZfsTest.Libtest
