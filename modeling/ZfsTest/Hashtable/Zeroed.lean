import ZfsTest.Hashtable.Fills
import ZfsTest.Hashtable.Parts

/-!
# Runs over zeroed memory
-/

namespace ZfsTest.Hashtable

open Prog

set_option synthInstance.maxSize 2000

variable {env : Env} {w w' : World} {h : Addr}

/-- Run under `env`, the program does what it does when fresh memory is zero. -/
abbrev Indep {α : Type} (env : Env) (p : Code α) : Prop := Same Tidy (step env) (step env.nulled) p

/-! ## Accesses -/

/-- The access neither allocates nor sets up a head. -/
def Op.plain : Op → Bool
  | .mallocHead | .mallocSlab _ | .initHead _ _ _ _ => false
  | _ => true

theorem step_nulled {o : Op} (ho : o.plain = true) : step env o = step env.nulled o := by
  funext w
  cases o <;> first | rfl | cases ho

/-- Heads are only changed or given back. -/
structure FewerHeads (w w' : World) : Prop where
  mallocs : w'.mallocs = w.mallocs
  heads : ∀ a y, w'.heads a = some y → ∃ x, w.heads a = some x ∧ y.thresholdEvaluate = x.thresholdEvaluate

theorem FewerHeads.tidy (hf : FewerHeads w w') (ht : Tidy w) : Tidy w' := by
  intro a y hy
  obtain ⟨x, hx, hxy⟩ := hf.heads a y hy
  obtain ⟨hlt, hthr⟩ := ht a x hx
  exact ⟨hf.mallocs ▸ hlt, hxy.trans hthr⟩

theorem Op.keepsHeads_of_plain {o : Op} (ho : o.plain = true) : o.keepsHeads = true := by
  cases o <;> first | rfl | exact ho

theorem fewerHeads_step {o : Op} (ho : o.plain = true) {r : o.Res} (hs : step env o w = some (r, w')) : FewerHeads w w' := by
  refine ⟨mallocs_step (by rintro rfl; cases ho) (by rintro n rfl; cases ho) hs, fun a y hy => ?_⟩
  obtain ⟨x, hx, -, -, hthr⟩ := headsKept_step (Op.keepsHeads_of_plain ho) hs a y hy
  exact ⟨x, hx, hthr⟩

theorem indep_access {o : Op} (ho : o.plain = true) : Indep env (access o) :=
  same_call (step_nulled ho) fun _ _ _ ht hs => (fewerHeads_step ho hs).tidy ht

/-- `Indep` as a property that sequencing keeps. -/
def SameRuns (env : Env) (α : Type) (p : Code α) : Prop := Indep env p

instance sameRuns_modular : Modular (SameRuns env) where
  ret a := same_ret a
  bind hp hf := Same.bind hp hf

instance sameRuns_usual : Usual (SameRuns env) where
  toModular := sameRuns_modular
  usual {o} ho := by
    apply indep_access
    cases o <;> first | rfl | cases ho

instance sameRuns_addCounter (a : Addr) (i : CounterId) (d : UInt64) : Has (SameRuns env) (addCounter a i d) := ⟨indep_access rfl⟩

instance sameRuns_updateAverage (a : Addr) (i : AverageId) (n m c x : UInt64) : Has (SameRuns env) (updateAverage a i n m c x) :=
  ⟨indep_access rfl⟩

instance sameRuns_incrementAverage (a : Addr) (i : AverageId) (x : UInt64) : Has (SameRuns env) (incrementAverage a i x) :=
  ⟨indep_access rfl⟩

/-- What the functions are put together from. -/
instance indep_of_has {α : Type} (p : Code α) [hp : Has (SameRuns env) p] : Indep env p := hp.has

/-! ## Inserting -/

section

variable (c : Conf)

/-- `header.next` of a new slab is written before the slab is used. -/
theorem createSlab_indep {β : Type} (a : Addr) (n : Nat) {none' : Code β} {k : Addr → Code β} [hnone : Indep env none']
    [hk : ∀ s, Indep env (k s)] :
    Indep env (do
      match ← htCreateSlab n with
      | none => none'
      | some slab =>
        void (htCounterAdd a .slabs 1)
        let slabs ← getSlabs a
        setSlabNext slab slabs
        k slab) := by
  constructor
  have hslab := @htCreateSlab_pair env anyCount all n false (by simp)
  refine pair_bind (pair_mono hslab (fun w w' hb => agree_both.mpr ⟨hb, trivial⟩) fun _ _ _ ha => ha) fun r => ?_
  cases r with
  | none => exact pair_mono hnone.pair (fun w w' ha => (agree_both.mp ha).1) fun _ _ _ hb => hb
  | some s =>
    refine pair_bind (void_pair (htCounterAdd_pair a .slabs 1)) fun _ => ?_
    refine pair_bind (pair_call fun w w' ha => ha.readHead HashTable.slabs fun x y hxy => congrArg HashTable.slabs hxy) fun slabs => ?_
    refine pair_bind (pair_call fun w w' ha => ha.setSlabNext slabs) fun _ => ?_
    exact pair_mono (hk s).pair (fun w w' ha => (agree_both.mp ha).1) fun _ _ _ hb => hb

instance sameRuns_takeFree (a rounds : Nat) : Has (SameRuns env) (takeFree a rounds) := by
  induction rounds with
  | zero => exact has_fault
  | succ rounds ih =>
    rw [takeFree]
    refine Has.bind inferInstance fun freechain => ?_
    cases freechain with
    | some ohte => infer_instance
    | none =>
      refine Has.bind inferInstance fun t => Has.bind inferInstance fun n => ?_
      exact ⟨createSlab_indep a n⟩

theorem getThreshold_pair (a : Addr) : Alike env (Both Tidy) (getThreshold a) fun r w w' =>
    Both Tidy w w' ∧ r = some htEvaluateThresholdDefault := by
  apply pair_call
  rintro w _ ⟨rfl, ht⟩
  simp only [step, onHead]
  cases hx : w.heads a with
  | none => trivial
  | some x => exact ⟨rfl, ⟨rfl, ht⟩, (ht a x hx).2⟩

/-- Inserting never resizes: the default threshold function answers "no". -/
instance sameRuns_resizeIfDue (resize : Addr → Nat → Code Int) (a : Addr) (options : Options) :
    Has (SameRuns env) (resizeIfDue c resize a options) := by
  refine has_resizeIfDue_default c resize a options fun f hf => ?_
  refine ⟨⟨pair_bind (getThreshold_pair a) fun r => pair_fact ?_⟩⟩
  rintro rfl
  exact (show Indep env _ from hf.has).pair

instance sameRuns_insertKeyNoResize (a key data : Nat) : Has (SameRuns env) (insertKeyNoResize c a key data) :=
  has_insertKeyWith c _ a key data

instance sameRuns_htInsertKey (a key data : Nat) : Has (SameRuns env) (htInsertKey c a key data) := has_insertKeyWith c _ a key data

/-! ## Resizing -/

/-- The head that is read lies below the next block. -/
theorem getKeysize_pair (a m : Nat) : Alike env (Agree (· = m) all none all) (getKeysize a) fun _ w w' =>
    Agree (· = m) all none all w w' ∧ a < m := by
  refine pair_call fun w w' ha => ?_
  obtain ⟨⟨rfl, ht⟩, hm⟩ := agree_both.mp ha
  simp only [step, onHead]
  cases hx : w.heads a with
  | none => trivial
  | some x =>
    have hlt : a < w.mallocs := (ht a x hx).1
    exact ⟨rfl, ha, hm ▸ hlt⟩

/-- `ht->old` of the new head is written before it is read; `header.next` of its slab must be null. -/
theorem htResize_pair (a n m : Nat) (hn : ∀ f, env.malloc (m + 1) = some f → f.next = none) :
    Alike env (Agree (· = m) all none all) (htResize c a n) fun _ => Both Tidy := by
  have hboth : ∀ {α : Type} {Z : Nat → Prop} {p : Code α}, Indep env p → Alike env (Agree Z all none all) p fun _ => Both Tidy :=
    fun hp => pair_mono hp.pair (fun w w' ha => (agree_both.mp ha).1) fun _ _ _ hb => hb
  refine pair_bind (lockCall_pair .wrlock _) fun e => pair_bind (setErrno_pair e) fun _ => pair_ite (hboth inferInstance) ?_
  refine pair_bind (lockCall_pair .rdlock _) fun e => pair_bind (setErrno_pair e) fun _ => pair_ite (hboth inferInstance) ?_
  refine pair_bind (getKeysize_pair a m) fun ks => pair_fact fun hlt => ?_
  refine pair_bind (pair_call fun w w' ha => ha.readHead HashTable.options fun x y hxy => congrArg HashTable.options hxy) fun opts => ?_
  refine pair_bind (htCreate_pair n _ m _ false (by simp) hn) fun r => pair_fact fun hr => ?_
  cases r with
  | none => exact hboth inferInstance
  | some nht =>
    obtain rfl : nht = m := by simpa using hr
    refine pair_bind (pair_call fun w w' ha => ha.readHead HashTable.old fun x y hxy => ?_) fun old => ?_
    · have hne : nht ≠ a := Nat.ne_of_gt hlt
      simp only [Bool.false_eq_true, ↓reduceIte, hideOld, Option.some.injEq, hne] at hxy
      rw [hxy]
    refine pair_bind (pair_call fun w w' ha => ha.setHead (fun ht => { ht with old := old }) id ?_ fun _ h => h) fun _ => ?_
    · intro x y hxy
      simp only [Bool.false_eq_true, ↓reduceIte, hideOld, HashTable.mk.injEq] at hxy
      simp [hxy]
    have hK : Function.update (hideOld (if false then none else some nht)) nht id = all := by
      funext b ht
      by_cases hb : b = nht
      · subst hb
        simp [all]
      · simp [hb, hideOld, Ne.symm hb, all]
    rw [hK]
    apply hboth
    refine Same.bind inferInstance fun _ => Same.bind inferInstance fun t => Same.bind inferInstance fun k => ?_
    refine Same.bind inferInstance fun ret => ?_
    split
    · infer_instance
    · refine Same.bind inferInstance fun ret => ?_
      infer_instance

end

end ZfsTest.Hashtable
