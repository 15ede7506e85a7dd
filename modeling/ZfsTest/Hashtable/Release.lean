import ZfsTest.Hashtable.Parts
import ZfsTest.Hashtable.Refine

/-!
# What a destroyed table leaves behind

`ht_destroy` destroys the mutexes of the statistics and the table lock; `htDestroyLocks` never names the free chain lock and the
resize mutex. No access of the library destroys such a lock (`Op.usual`), so it stays initialised from `ht_create` to the end
(`Alive`, `alive_step`), and a table whose destruction returned `0` has not given back everything (`not_released`).
-/

namespace ZfsTest.Hashtable

open Prog

variable {c : Conf} {env : Env} {w w' : World} {h : Addr}

/-! ## Locks that stay -/

/-- The lock has been initialised, and has not been destroyed since. -/
def Alive (l : LockId) (w : World) : Prop := w.locks l ≠ .uninit ∧ w.locks l ≠ .destroyed

/-- Every access but the destruction of the lock keeps it alive. -/
theorem alive_step {l : LockId} {o : Op} (ho : ∀ k, o = .lock .destroy k → k ≠ l) {r : o.Res} (hs : step env o w = some (r, w'))
    (hl : Alive l w) : Alive l w' := by
  by_cases hlock : ∃ op k, o = .lock op k
  · obtain ⟨op, k, rfl⟩ := hlock
    simp only [step, lockStep] at hs
    cases hs
    split
    · by_cases hk : l = k
      · subst hk
        cases op
        case destroy => exact absurd rfl (ho l rfl)
        all_goals simp [Alive, World.setLock, LockOp.after]
      · simpa [Alive, World.setLock, hk] using hl
    · exact hl
  · rwa [Alive, (step_frame hs).locks fun op k he => hlock ⟨op, k, he⟩]

/-- A run that starts with the lock alive ends with it alive. -/
abbrev KeepsAlive (env : Env) (l : LockId) : (α : Type) → Code α → Prop := Keeps (step env) fun w w' => Alive l w → Alive l w'

/-- An access that destroys no lock keeps every lock alive. -/
theorem keepsAlive_access {l : LockId} {o : Op} (ho : ∀ k, o = .lock .destroy k → k ≠ l) : Has (KeepsAlive env l) (access o) :=
  ⟨keeps_call fun _ _ _ hs => alive_step ho hs⟩

instance keepsAlive_usual (h : Addr) : Usual (KeepsAlive env (.free h)) where
  toModular := keeps_modular (fun _ hl => hl) fun _ _ _ h₁ h₂ hl => h₂ (h₁ hl)
  usual {o} ho := by
    refine (keepsAlive_access ?_).has
    rintro k rfl rfl
    cases ho

/-- No call destroys the free chain lock. -/
theorem callCode_keepsAlive (a : Call) : Has (KeepsAlive env (.free h)) (callCode c h a) := by
  have hmallocHead : Has (KeepsAlive env (.free h)) mallocHead := keepsAlive_access (by rintro k ⟨⟩)
  have hmallocSlab : ∀ n, Has (KeepsAlive env (.free h)) (mallocSlab n) := fun n => keepsAlive_access (by rintro k ⟨⟩)
  have hinitHead : ∀ b ks opts t, Has (KeepsAlive env (.free h)) (initHead b ks opts t) :=
    fun b ks opts t => keepsAlive_access (by rintro k ⟨⟩)
  have hstat : ∀ b o, Has (KeepsAlive env (.free h)) (access (.stat b o)) := fun b o => keepsAlive_access (by rintro k ⟨⟩)
  have hinitAverage : ∀ b i, Has (KeepsAlive env (.free h)) (initAverage b i) := fun b i => hstat b _
  have hinitCounter : ∀ b i, Has (KeepsAlive env (.free h)) (initCounter b i) := fun b i => hstat b _
  have hadd : ∀ b i d, Has (KeepsAlive env (.free h)) (addCounter b i d) := fun b i d => hstat b _
  have hupdate : ∀ b i n m x y, Has (KeepsAlive env (.free h)) (updateAverage b i n m x y) := fun b i n m x y => hstat b _
  have hincrement : ∀ b i x, Has (KeepsAlive env (.free h)) (incrementAverage b i x) := fun b i x => hstat b _
  have hresize : ∀ n, Has (KeepsAlive env (.free h)) (htResize c h n) := fun n => has_resizeWith c (insertKeyNoResize c) h n
  have hinsert : ∀ k d, Has (KeepsAlive env (.free h)) (htInsertKey c h k d) := fun k d => has_insertKeyWith c (htResize c) h k d
  infer_instance

/-! ## Runs -/

/-- The free chain lock of a new table is initialised. -/
theorem Created.alive {n ks : Nat} {opts : Options} (hok : LockOk env) (hc : Created env n ks opts h w) : Alive (.free h) w := by
  rcases (htCreate_spec hok World.empty_fresh n ks opts).post hc with ⟨hr, -⟩ | ⟨f, g, b, -, -, -, hr, -, rfl⟩
  · cases hr
  · cases hr
    have hfree := (@newTable_idle World.empty n ks opts f.head.old g.next).free
    rw [Alive, World.withBook_locks, hfree]
    exact ⟨by decide, by decide⟩

/-! ## Complete destruction -/

/-- Every block ever allocated has been given back once, and every lock ever initialised has been destroyed, each time when it was
free. -/
structure Released (env : Env) (w : World) : Prop where
  blocks : ∀ a, a < w.mallocs → env.malloc a ≠ none → w.freed.count a = 1
  locks : ∀ l, w.locks l ≠ .uninit → w.locks l = .destroyed ∧ (.destroy, l) ∉ w.book.misuse

/-- A table whose destruction returned `0` has not been destroyed completely: the free chain lock is left. -/
theorem htDestroy_not_released {n ks : Nat} {opts : Options} {w₀ : World} {as : List Call} {rs : List Reply} (hok : LockOk env)
    (hc : Created env n ks opts h w₀) (hrun : runCalls c env h as w₀ = some (rs, w))
    (hd : (htDestroy h).exec (step env) w = some (0, w')) : ¬Released env w' := by
  intro hr
  have halive := runCalls_keeps (K := fun w w' => Alive (.free h) w → Alive (.free h) w') (fun _ hl => hl)
    (fun _ _ _ h₁ h₂ hl => h₂ (h₁ hl)) callCode_keepsAlive as hrun (hc.alive hok)
  have hkeep : Has (KeepsAlive env (.free h)) (htDestroy h) := inferInstance
  obtain ⟨hinit, hleft⟩ : Alive (.free h) w' := hkeep.keeps hd halive
  exact hleft (hr.locks _ hinit).1

/-- A table with two pairs that has been resized, and then destroyed. -/
theorem exists_destroyed : ∃ w₀ rs w w', Created (Env.allZero fun _ => true) 1 1 ⟨false, false⟩ 0 w₀ ∧
    runCalls .sample (Env.allZero fun _ => true) 0 [.insert 1 10, .insert 2 20, .resize 2] w₀ = some (rs, w) ∧
    (htDestroy 0).exec (step (Env.allZero fun _ => true)) w = some (0, w') := by
  obtain ⟨w₀, rs, w, hc, hrun⟩ := exists_run (c := .sample) (n := 1) (Env.allZero_allZero fun _ => true).ok
    (Env.allZero_nullFill _) (by decide) 1 ⟨false, false⟩ (by simp [Env.allZero]) (by simp [Env.allZero])
    [.insert 1 10, .insert 2 20, .resize 2]
  have hret : ((createRun .sample (Env.allZero fun _ => true) 1 1 ⟨false, false⟩ [.insert 1 10, .insert 2 20, .resize 2]).bind
      fun x => ((htDestroy 0).exec (step (Env.allZero fun _ => true)) x.2).map Prod.fst) = some 0 := by
    set_option maxRecDepth 4000 in decide
  rw [hc.run, hrun, Option.bind_some, Option.map_eq_some_iff] at hret
  obtain ⟨⟨r, w'⟩, hd, rfl⟩ := hret
  exact ⟨w₀, rs, w, w', hc, hrun, hd⟩

theorem htDestroy_not_released_sample : ∃ w', ¬Released (Env.allZero fun _ => true) w' := by
  obtain ⟨w₀, rs, w, w', hc, hrun, hd⟩ := exists_destroyed
  exact ⟨w', htDestroy_not_released (Env.allZero_allZero _).ok hc hrun hd⟩

/-- A destruction that returns `0` need not be complete. -/
theorem not_destroyed_completely : ¬∀ (c : Conf) (env : Env) (n ks : Nat) (opts : Options) (h : Addr) (w₀ w w' : World)
    (as : List Call) (rs : List Reply), LockOk env → Created env n ks opts h w₀ → runCalls c env h as w₀ = some (rs, w) →
    (htDestroy h).exec (step env) w = some (0, w') → Released env w' := by
  intro H
  obtain ⟨w₀, rs, w, w', hc, hrun, hd⟩ := exists_destroyed
  have hleft : ((createRun .sample (Env.allZero fun _ => true) 1 1 ⟨false, false⟩ [.insert 1 10, .insert 2 20, .resize 2]).bind
      fun x => ((htDestroy 0).exec (step (Env.allZero fun _ => true)) x.2).map fun y => y.2.locks (.free 0)) = some .free := by
    set_option maxRecDepth 4000 in decide
  rw [hc.run, hrun, Option.bind_some, hd, Option.map_some, Option.some.injEq] at hleft
  change w'.locks (.free 0) = .free at hleft
  have hdone := ((H .sample _ 1 1 _ 0 w₀ w w' _ rs (Env.allZero_allZero _).ok hc hrun hd).locks (.free 0) (by simp [hleft])).1
  rw [hleft] at hdone
  cases hdone

end ZfsTest.Hashtable
