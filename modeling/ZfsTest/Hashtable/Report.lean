import ZfsTest.Hashtable.Refine

/-!
# Locks given back and results reported

When all locks are free, a call takes and gives back its locks correctly and leaves them free, with two exceptions: deleting
the only entry of a bucket leaves that entry locked, and resizing a table with chained entries gives back locks it does not
hold (`call_releases_iff`). The second exception shows in the result of `ht_resize`: the new table is there, but the
result is not `0` (`resize_reports_iff`).
-/

namespace ZfsTest.Hashtable

open Prog

variable {c : Conf} {env : Env} {w w' : World} {h : Addr} {S S' : Shape} {P : List (Addr × List Addr)}

/-! ## Conditions on the state before the call -/

/-- `malloc` gives the blocks that a table of `n` buckets needs for the pairs of the table. -/
def CanBuild (c : Conf) (env : Env) (w : World) (h : Addr) (n : Nat) : Prop :=
  n ≠ 0 ∧ ∀ k, k < 2 + slabsNeeded c n (w.pairs c h) → env.malloc (w.mallocs + k) ≠ none

/-- Some bucket has a chain. -/
def HasChain (w : World) (h : Addr) : Prop := ∃ i, i < w.tableSize h ∧ w.chainOf h i ≠ []

/-- The key stands in the only entry of its bucket. -/
def SoleEntry (c : Conf) (w : World) (h : Addr) (key : Nat) : Prop :=
  ∃ p, w.bucketOf h (w.bucketIndex c h key) = [p] ∧ Matches c (w.keyLen c h) key w.ents p

/-- The calls that give back what they take. -/
def Releases (c : Conf) (env : Env) (w : World) (h : Addr) : Call → Prop
  | .insert _ _ => True
  | .locate _ => True
  | .delete key => ¬SoleEntry c w h key
  | .resize n => ¬(CanBuild c env w h n ∧ HasChain w h)

theorem Table.canBuild (ht : Table c w h S) {n : Nat} : CanBuild c env w h n ↔ Builds c env w h S n := by
  rw [CanBuild, Builds, ht.pairs_eq]

theorem Table.hasChain (ht : Table c w h S) : HasChain w h ↔ S.Chained := by
  rw [HasChain, Shape.Chained, ht.tableSize]
  constructor
  · rintro ⟨i, hi, hc⟩
    exact ⟨i, hi, by rwa [ht.chainOf hi] at hc⟩
  · rintro ⟨i, hi, hc⟩
    exact ⟨i, hi, by rwa [ht.chainOf hi]⟩

/-- A first match with nothing around it is a sole entry. -/
theorem Table.soleEntry (ht : Table c w h S) {key : Nat} {l₁ l₂ : List EntryPtr} {q : EntryPtr}
    (hf : FirstMatch c (w.keyLen c h) key w.ents (S.bucket w.ents (w.index c h S key)) l₁ q l₂) :
    SoleEntry c w h key ↔ l₁ = [] ∧ l₂ = [] := by
  rw [SoleEntry, ht.bucketIndex, ht.bucketOf (ht.index_lt key), hf.split]
  constructor
  · rintro ⟨p, hp, -⟩
    cases l₁ with
    | nil => exact ⟨rfl, (List.cons.inj hp).2⟩
    | cons x xs => simp at hp
  · rintro ⟨rfl, rfl⟩
    exact ⟨q, rfl, hf.here⟩

/-- A bucket without a match has no sole entry with the key. -/
theorem Table.not_soleEntry (ht : Table c w h S) {key : Nat}
    (hn : ∀ q ∈ S.bucket w.ents (w.index c h S key), ¬Matches c (w.keyLen c h) key w.ents q) : ¬SoleEntry c w h key := by
  rintro ⟨p, hp, hm⟩
  rw [ht.bucketIndex, ht.bucketOf (ht.index_lt key)] at hp
  exact hn p (by rw [hp]; exact List.mem_singleton_self p) hm

/-! ## Locks -/

/-- No lock was misused, and every lock is free. -/
def Returned (w w' : World) : Prop := w'.book.lockErrors = w.book.lockErrors ∧ AllFree w'

theorem Returned.of_misuse (hm : w'.book.misuse = w.book.misuse) (hf : AllFree w') : Returned w w' :=
  ⟨lockErrors_congr hm, hf⟩

theorem Outcome.returned_iff (hh : Held c w h S P) (hi : Idle w h) (hf : AllFree w) {a : Call} {r : Int}
    (ho : Outcome c env w h S a r w') : Returned w w' ↔ Releases c env w h a := by
  have hclean := hf.clean hh.table
  cases ho with
  | insert hr =>
    obtain ⟨S', ha, hc, -⟩ := hr.after hh.fresh hh.table hi
    obtain ⟨hc', hm⟩ := hc hclean
    exact iff_of_true (.of_misuse hm ((hh.allFree_after hf ha).mpr hc')) trivial
  | locate hr =>
    obtain ⟨ha, -, hc⟩ := hr.after hh.fresh hh.table hi
    obtain ⟨hc', hm⟩ := hc hclean
    exact iff_of_true (.of_misuse hm ((hh.allFree_after hf ha).mpr hc')) trivial
  | @delete key rd _ hr =>
    obtain ⟨S', ha, hm, hcase⟩ := hr.after hh.fresh hh.table hi
    have hiff : Returned w w' ↔ Clean w' S' := by
      constructor
      · exact fun hret => (hh.allFree_after hf ha).mp hret.2
      · exact fun hc => .of_misuse (hm hclean) ((hh.allFree_after hf ha).mpr hc)
    rw [hiff]
    rcases hcase with ⟨-, -, hc, hn⟩ | ⟨l₁, q, l₂, hfirst, -, -, hc⟩
    · exact iff_of_true (hc hclean) (hh.table.not_soleEntry (hn (Or.inr hclean)))
    · rw [hc hclean, ← hh.table.soleEntry hfirst]
      exact Iff.rfl
  | resizeKept hr =>
    obtain ⟨hf', hm⟩ := hr.quiet hf
    exact iff_of_true (.of_misuse hm hf') fun hb => hr.builds (hh.table.canBuild.mp hb.1)
  | resizeDone hr =>
    by_cases hch : S.Chained
    · have hlt := (hr.misused hclean hch).1
      refine iff_of_false (fun hret => absurd hret.1 (Nat.ne_of_gt hlt)) fun hno => ?_
      exact hno ⟨hh.table.canBuild.mpr hr.builds, hh.table.hasChain.mpr hch⟩
    · obtain ⟨hf', hm⟩ := hr.quiet hf hch
      exact iff_of_true (.of_misuse hm hf') fun hb => hch (hh.table.hasChain.mp hb.2)

/-- When all locks are free, a call takes no lock it holds, gives back no lock it does not hold and leaves all locks free if
and only if it neither deletes the only entry of a bucket nor replaces a table with chains. -/
theorem call_releases_iff {n ks : Nat} {opts : Options} (hok : LockOk env) (hnull : NullFill env)
    (hr : Reached c env n ks opts h w) (hf : AllFree w) (a : Call) :
    ∃ r w', runCall c env h a w = some (r, w') ∧
      (w'.book.lockErrors = w.book.lockErrors ∧ AllFree w' ↔ Releases c env w h a) := by
  obtain ⟨S, P, hh, hi, -, -⟩ := hr.kept hok hnull
  obtain ⟨r, w', he, -, ho⟩ := runCall_spec hok hnull hh hi a
  exact ⟨r, w', he, ho.returned_iff hh hi hf⟩

/-- A new table has free locks only. -/
theorem Created.allFree {n ks : Nat} {opts : Options} (hok : LockOk env) (hnull : NullFill env)
    (hc : Created env n ks opts h w) : AllFree w := by
  obtain ⟨S, hh, hi, hclean, -⟩ := hc.held (c := .sample) hok hnull
  exact hh.allFree hi hclean

theorem call_releases_sample : ∃ w₀, Reached .sample (Env.checked fun _ => true) 2 1 ⟨false, false⟩ 0 w₀ ∧ AllFree w₀ ∧
    ∃ r w', runCall .sample (Env.checked fun _ => true) 0 (.insert 1 10) w₀ = some (r, w') ∧ AllFree w' := by
  have hok := (Env.checked_checked fun _ => true).ok
  have hnull := Env.checked_nullFill fun _ => true
  obtain ⟨w₀, hc⟩ := created_of_got (n := 2) hok (by decide) 1 ⟨false, false⟩ (by simp [Env.checked])
    (by simp [Env.checked])
  have hr : Reached .sample (Env.checked fun _ => true) 2 1 ⟨false, false⟩ 0 w₀ := ⟨w₀, [], [], hc, rfl⟩
  have hf := hc.allFree hok hnull
  obtain ⟨r, w', he, hiff⟩ := call_releases_iff hok hnull hr hf (.insert 1 10)
  exact ⟨w₀, hr, hf, r, w', he, (hiff.mpr trivial).2⟩

/-- Insertions into a new table leave all locks free. -/
theorem inserts_allFree (hok : LockOk env) (hnull : NullFill env) (xs : List (Nat × Nat)) : ∀ {w : World} {S : Shape}
    {P : List (Addr × List Addr)}, Held c w h S P → Idle w h → AllFree w →
    ∃ rs w', runCalls c env h (xs.map fun x => .insert x.1 x.2) w = some (rs, w') ∧ AllFree w' := by
  induction xs with
  | nil => exact fun {w} _ _ _ _ hf => ⟨[], w, rfl, hf⟩
  | cons x xs ih =>
    intro w S P hh hi hf
    obtain ⟨r, w₁, he, -, ho⟩ := runCall_spec hok hnull hh hi (.insert x.1 x.2)
    obtain ⟨S₁, P₁, hk, -⟩ := ho.kept hh hi
    obtain ⟨rs, w', hrun, hf'⟩ := ih hk.held hk.idle ((ho.returned_iff hh hi hf).mpr trivial).2
    refine ⟨r :: rs, w', ?_, hf'⟩
    rw [List.map_cons, runCalls_cons he, hrun]
    rfl

theorem exists_free_run (hok : LockOk env) (hnull : NullFill env) {n : Nat} (hn : n ≠ 0) (ks : Nat) (opts : Options)
    (h0 : env.malloc 0 ≠ none) (h1 : env.malloc 1 ≠ none) (xs : List (Nat × Nat)) : ∃ w₀ rs w,
      Created env n ks opts 0 w₀ ∧ runCalls c env 0 (xs.map fun x => .insert x.1 x.2) w₀ = some (rs, w) ∧ AllFree w := by
  obtain ⟨w₀, hc⟩ := created_of_got hok hn ks opts h0 h1
  obtain ⟨S, hh, hi, hclean, -⟩ := hc.held (c := c) hok hnull
  obtain ⟨rs, w, hrun, hf⟩ := inserts_allFree hok hnull xs hh hi (hh.allFree hi hclean)
  exact ⟨w₀, rs, w, hc, hrun, hf⟩

/-- Deleting the only entry of a bucket leaves it locked. -/
theorem not_call_releases : ¬∀ (c : Conf) (env : Env) (n ks : Nat) (opts : Options) (h : Addr) (w : World) (a : Call),
    LockOk env → NullFill env → Reached c env n ks opts h w → AllFree w →
    ∃ r w', runCall c env h a w = some (r, w') ∧ w'.book.lockErrors = w.book.lockErrors ∧ AllFree w' := by
  intro H
  have hok := (Env.checked_checked fun _ => true).ok
  have hnull := Env.checked_nullFill fun _ => true
  obtain ⟨w₀, rs, w, hc, hrun, hf⟩ := exists_free_run (c := .sample) (n := 1) hok hnull (by decide) 1 ⟨false, false⟩
    (by simp [Env.checked]) (by simp [Env.checked]) [(1, 10)]
  obtain ⟨r, w', hr, -, hf'⟩ := H .sample _ 1 1 ⟨false, false⟩ 0 w (.delete 1) hok hnull ⟨w₀, _, rs, hc, hrun⟩ hf
  have h1 : (createRun .sample (Env.checked fun _ => true) 1 1 ⟨false, false⟩ [.insert 1 10, .delete 1]).map
      (fun x => (x.2.hasLock (.entry (1, 0)), x.2.locks (.entry (1, 0)))) = some (true, .write) := by decide
  rw [hc.run, show runCalls .sample _ 0 [.insert 1 10, .delete 1] w₀ = _ from runCalls_snoc hrun hr] at h1
  simp only [Option.map_some, Option.some.injEq, Prod.mk.injEq] at h1
  have hfree := hf' _ h1.1
  rw [h1.2] at hfree
  cases hfree

/-! ## The result of resizing -/

/-- Bucket count, chains, free chain and slab list are the same. -/
structure SameLists (w w' : World) (h : Addr) : Prop where
  table : w'.tableOf h = w.tableOf h
  size : w'.tableSize h = w.tableSize h
  chains : ∀ i, i < w.tableSize h → w'.chainOf h i = w.chainOf h i
  free : w'.freeOf h = w.freeOf h
  slabs : w'.slabsOf h = w.slabsOf h

/-- Both memories hold the table in the same arrangement. -/
theorem Table.sameLists (ht : Table c w h S) (hw : w.Fresh) (ht' : Table c w' h S) (hw' : w'.Fresh) : SameLists w w' h where
  table := ht'.tableOf.trans ht.tableOf.symm
  size := ht'.tableSize.trans ht.tableSize.symm
  chains i hi := by
    rw [ht.tableSize] at hi
    rw [ht.chainOf hi, ht'.chainOf hi]
  free := ht'.freeOf.trans ht.freeOf.symm
  slabs := (ht'.slabsOf hw').trans (ht.slabsOf hw).symm

/-- What the result of resizing says. -/
def Truthful (c : Conf) (w : World) (h : Addr) (n : Nat) (r : Int) (w' : World) : Prop :=
  (r = 0 ↔ w'.tableSize h = n ∧ w'.pairs c h = w.pairs c h) ∧ (r ≠ 0 → SameLists w w' h)

/-- `ht_resize` reports what it did if and only if it could not build the new table, which has another size, or it could
and the old one had no chains. -/
theorem resize_reports_iff {n ks : Nat} {opts : Options} (hchk : Checked env) (hnull : NullFill env)
    (hr : Reached c env n ks opts h w) (hf : AllFree w) (m : Nat) :
    ∃ r w', runCall c env h (.resize m) w = some (r, w') ∧
      (Truthful c w h m r.ret w' ↔
        ¬CanBuild c env w h m ∧ m ≠ w.tableSize h ∨ CanBuild c env w h m ∧ ¬HasChain w h) := by
  obtain ⟨S, P, hh, hi, -, -⟩ := hr.kept hchk.ok hnull
  obtain ⟨r, w', he, -, ho⟩ := runCall_spec hchk.ok hnull hh hi (.resize m)
  refine ⟨r, w', he, ?_⟩
  have hclean := hf.clean hh.table
  rw [hh.table.canBuild, hh.table.hasChain]
  obtain ⟨ret, errno⟩ := r
  cases ho with
  | resizeKept hk =>
    obtain rfl : ret = -1 := hk.ret
    have hp : w'.pairs c h = w.pairs c h := by
      rw [hk.held.table.pairs_eq, hh.table.pairs_eq, hk.same.contents hh.table]
    have hsame := hh.table.sameLists hh.fresh hk.held.table hk.held.fresh
    simp only [Truthful, hk.builds, not_false_eq_true, true_and, false_and, or_false, hp, and_true, hsame, implies_true,
      hsame.size]
    constructor
    · intro h1 hm
      exact absurd (h1.mpr hm.symm) (by decide)
    · intro hm
      exact iff_of_false (by decide) (Ne.symm hm)
  | resizeDone hd =>
    have hsize : w'.tableSize h = m := hd.held.table.tableSize.trans hd.count
    have hp : w'.pairs c h = w.pairs c h := by
      rw [hd.held.table.pairs_eq, hh.table.pairs_eq, hd.pairs]
    simp only [Truthful, hd.builds, not_true_eq_false, false_and, true_and, false_or, hsize, hp, and_self, iff_true]
    by_cases hch : S.Chained
    · exact iff_of_false (fun h1 => (hd.misused hclean hch).2 hchk h1.1) fun hno => hno hch
    · have h0 := hd.swept hclean hch
      exact iff_of_true ⟨h0, fun hne => absurd h0 hne⟩ hch

/-- Two pairs in two buckets: the table is built again with five. -/
theorem resize_reports_sample : ∃ w, Reached .sample (Env.checked fun _ => true) 2 1 ⟨false, false⟩ 0 w ∧ AllFree w ∧
    w.pairs .sample 0 = {([1], 10), ([2], 20)} ∧
    ∃ r w', runCall .sample (Env.checked fun _ => true) 0 (.resize 5) w = some (r, w') ∧ Truthful .sample w 0 5 r.ret w' := by
  have hchk := Env.checked_checked fun _ => true
  have hnull := Env.checked_nullFill fun _ => true
  obtain ⟨w₀, rs, w, hc, hrun, hf⟩ := exists_free_run (c := .sample) (n := 2) hchk.ok hnull (by decide) 1 ⟨false, false⟩
    (by simp [Env.checked]) (by simp [Env.checked]) [(1, 10), (2, 20)]
  have hr : Reached .sample (Env.checked fun _ => true) 2 1 ⟨false, false⟩ 0 w := ⟨w₀, _, rs, hc, hrun⟩
  have h1 : (createRun .sample (Env.checked fun _ => true) 2 1 ⟨false, false⟩ [.insert 1 10, .insert 2 20]).map
      (fun x => (x.2.pairs .sample 0, decide (∀ i < x.2.tableSize 0, x.2.chainOf 0 i = []))) =
      some ({([1], 10), ([2], 20)}, true) := by decide
  rw [hc.run, show runCalls .sample _ 0 [.insert 1 10, .insert 2 20] w₀ = _ from hrun] at h1
  simp only [Option.map_some, Option.some.injEq, Prod.mk.injEq, decide_eq_true_eq] at h1
  have hbuild : CanBuild .sample (Env.checked fun _ => true) w 0 5 := ⟨by decide, fun k _ => by simp [Env.checked]⟩
  obtain ⟨r, w', he, hiff⟩ := resize_reports_iff hchk hnull hr hf 5
  exact ⟨w, hr, hf, h1.1, r, w', he, hiff.mpr (Or.inr ⟨hbuild, fun hch => hch.elim fun i hi => hi.2 (h1.2 i hi.1)⟩)⟩

/-- Resizing a table with a chain does its work and says that it failed. -/
theorem not_resize_reports : ¬∀ (c : Conf) (env : Env) (n ks : Nat) (opts : Options) (h : Addr) (w : World) (m : Nat),
    Checked env → NullFill env → Reached c env n ks opts h w → AllFree w →
    ∃ r w', runCall c env h (.resize m) w = some (r, w') ∧ Truthful c w h m r.ret w' := by
  intro H
  have hchk := Env.checked_checked fun _ => true
  have hnull := Env.checked_nullFill fun _ => true
  obtain ⟨w₀, rs, w, hc, hrun, hf⟩ := exists_free_run (c := .sample) (n := 1) hchk.ok hnull (by decide) 1 ⟨false, false⟩
    (by simp [Env.checked]) (by simp [Env.checked]) [(1, 10), (2, 20)]
  obtain ⟨r, w', hr, htrue⟩ := H .sample _ 1 1 ⟨false, false⟩ 0 w 3 hchk hnull ⟨w₀, _, rs, hc, hrun⟩ hf
  have h1 : (createRun .sample (Env.checked fun _ => true) 1 1 ⟨false, false⟩ [.insert 1 10, .insert 2 20]).map
      (fun x => x.2.pairs .sample 0) = some {([1], 10), ([2], 20)} := by decide
  have h2 : (createRun .sample (Env.checked fun _ => true) 1 1 ⟨false, false⟩
      [.insert 1 10, .insert 2 20, .resize 3]).map
      (fun x => (x.1.map Reply.ret, x.2.tableSize 0, x.2.pairs .sample 0)) =
      some ([0, 0, -1], 3, {([1], 10), ([2], 20)}) := by
    set_option maxRecDepth 4000 in decide
  rw [hc.run, show runCalls .sample _ 0 [.insert 1 10, .insert 2 20] w₀ = _ from hrun] at h1
  rw [hc.run, show runCalls .sample _ 0 [.insert 1 10, .insert 2 20, .resize 3] w₀ = _ from runCalls_snoc hrun hr] at h2
  simp only [Option.map_some, Option.some.injEq, Prod.mk.injEq, List.map_append, List.map_cons, List.map_nil] at h1 h2
  obtain ⟨hrets, hsize, hp⟩ := h2
  have hret : r.ret = -1 := by simpa using congrArg List.getLast? hrets
  have h0 := htrue.1.mpr ⟨hsize, hp.trans h1.symm⟩
  rw [hret] at h0
  cases h0

end ZfsTest.Hashtable
