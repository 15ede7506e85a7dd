import ZfsTest.Hashtable.Calls
import ZfsTest.Hashtable.Table
import ZfsTest.Prog.Modular

/-!
# The functions of `libhashtable.c` put together from their accesses

Instances of `Has Φ` for the functions of the library, for any property `Φ` that sequencing keeps. Most accesses are in one group
(`Usual`). Those that allocate, that set up a head, that destroy a lock of the free chain or of resizing, or that change the statistics of
the slabs, the resizes and the free chain are asked for one by one, by the functions that make them.
-/

namespace ZfsTest.Hashtable

open Prog

set_option synthInstance.maxSize 2000

/-! ## Parts of long functions -/

/-- The part of `ht_create` behind the allocation of the head. -/
def createTable (h : Addr) (numents : Nat) : Code (Option Addr) := do
  let failed ← anyFails [htAverageInit h .depth, htAverageInit h .freechain, htAverageInit h .searches]
  if failed then
    freeHead h
    return none
  else
    let failed ← anyFails [htCounterInit h .deletes, htCounterInit h .errors, htCounterInit h .hits,
      htCounterInit h .inserts, htCounterInit h .probes, htCounterInit h .resizes, htCounterInit h .slabs]
    if failed then
      freeHead h
      return none
    else
      let failed ← anyFails [rwlockInit (.table h), rwlockInit (.free h), rwlockInit (.resize h)]
      if failed then
        freeHead h
        return none
      else
        let slab ← htCreateSlab numents
        setSlabs h slab
        let slabs ← getSlabs h
        setTable h slabs
        match slabs with
        | some _ =>
          void (htCounterAdd h .slabs 1)
          return some h
        | none =>
          freeHead h
          return none

theorem htCreate_eq {n : Nat} (hn : n ≠ 0) (ks : Nat) (options : Options) : htCreate n ks options = (do
    match ← mallocHead with
    | none =>
      setErrno ENOMEM
      return none
    | some h =>
      initHead h (intOfSize ks) options htEvaluateThresholdDefault
      createTable h n) := if_neg hn

/-- The part of `ht_insert_key` behind the insertion: a resize, if the table is to grow by itself and the threshold is passed. -/
def resizeIfDue (c : Conf) (resize : Addr → Nat → Code Int) (h : Addr) (options : Options) : Code Int := do
  match options.resizeImplicit, ← getThreshold h with
  | true, some evaluate =>
    let t ← getTable h .count
    let n ← getEntrycount t
    let d ← getAverage h .depth
    let s ← getAverage h .searches
    if evaluate n d.count d.sum s.count s.sum ≠ 0 then
      let t ← getTable h .count
      let n ← getEntrycount t
      resize h (n * 2 % 2 ^ c.bits)
    else
      return 0
  | _, _ => return 0

theorem insertTaken_eq (c : Conf) (resize : Addr → Nat → Code Int) (h : Addr) (dhte ohte : EntryPtr) (key data : Nat)
    (options : Options) (depth : Nat) : insertTaken c resize h dhte ohte key data options depth = (do
    let next ← getNext ohte
    setFreechain h next
    setNext ohte none
    let fc ← getAverage h .freechain
    void (htAverageIncrement h .freechain (fc.current - 1))
    let ret ← unlock (.free h)
    onFail ret do
      void (htCounterAdd h .errors 1)
      keepErrno ret
    linkEntry dhte ohte key data
    void (htAverageIncrement h .depth (UInt64.ofNat depth))
    let ret ← unlock (.entry dhte)
    if ret ≠ 0 then
      void (htCounterAdd h .errors 1)
      keepErrno ret
      return -2
    else
      resizeIfDue c resize h options) := rfl

/-- The part of `ht_resize` behind the creation of the new table. -/
def fillNew (insertKey : Addr → Nat → Nat → Code Int) (h nht : Addr) : Code Int := do
  let old ← getOld h
  setOld nht old
  setOld h (some nht)
  let t ← getTable h .entry
  let n ← getEntrycount t
  let ret ← copyTable (insertKey nht) t n
  if ret ≠ 0 then
    abandonNew h nht
    void (unlock (.table h))
    void (unlock (.resize h))
    return -1
  else
    let ret ← wrlock (.free h)
    if ret ≠ 0 then
      abandonNew h nht
      setErrno ret
      void (unlock (.table h))
      void (unlock (.resize h))
      return -2
    else
      swapTables h nht
      mergeCounters h nht [.probes, .hits, .errors, .resizes, .inserts, .deletes]
      mergeAverages h nht [.searches, .depth, .freechain]
      finishResize h nht

/-- The part of `ht_resize` behind the locks, with what follows the creation of the new table. -/
def createNew (c : Conf) (h : Addr) (numents : Nat) (rest : Option Addr → Code Int) : Code Int := do
  let keysize ← getKeysize h
  let options ← getOptions h
  let nht ← htCreate numents (c.sizeOfInt keysize) { options with resizeImplicit := false }
  rest nht

theorem resizeWith_eq (c : Conf) (insertKey : Addr → Nat → Nat → Code Int) (h : Addr) (numents : Nat) :
    resizeWith c insertKey h numents = (do
    let e ← wrlock (.resize h)
    setErrno e
    if e ≠ 0 then
      void (htCounterAdd h .errors 1)
      return -2
    else
      let e ← rdlock (.table h)
      setErrno e
      if e ≠ 0 then
        void (htCounterAdd h .errors 1)
        void (unlock (.resize h))
        return -2
      else
        createNew c h numents fun nht =>
          match nht with
          | none => do
            void (htCounterAdd h .errors 1)
            void (unlock (.table h))
            void (unlock (.resize h))
            return -1
          | some nht => fillNew insertKey h nht) := rfl

/-! ## Accesses -/

/-- The accesses that are not asked for one by one. -/
def Op.usual : Op → Bool
  | .lock .destroy (.free _) | .lock .destroy (.resize _) => false
  | .mallocHead | .mallocSlab _ | .initHead _ _ _ _ => false
  | .stat _ (.initAverage _) | .stat _ (.initCounter _) => false
  | .stat _ (.addCounter .slabs _) | .stat _ (.addCounter .resizes _) => false
  | .stat _ (.updateAverage .freechain _ _ _ _) | .stat _ (.incrementAverage .freechain _) => false
  | _ => true

/-- The accesses that follow or change the links from head to head and from slab to slab. -/
def Op.links : Op → Bool
  | .getOld _ | .setOld _ _ | .getSlabNext _ | .setSlabNext _ _ => true
  | _ => false

/-- The property holds of the usual accesses but for the links between blocks. -/
class Inner (Φ : (α : Type) → Code α → Prop) : Prop extends Modular Φ where
  inner : ∀ {o : Op}, o.usual = true → o.links = false → Φ o.Res (access o)

/-- The property holds of the usual accesses. -/
class Usual (Φ : (α : Type) → Code α → Prop) : Prop extends Modular Φ where
  usual : ∀ {o : Op}, o.usual = true → Φ o.Res (access o)

instance inner_of_usual {Φ : (α : Type) → Code α → Prop} [hΦ : Usual Φ] : Inner Φ where
  toModular := hΦ.toModular
  inner ho _ := hΦ.usual ho

variable {Φ : (α : Type) → Code α → Prop}

section

variable [hΦ : Usual Φ]

theorem has_usual {o : Op} (ho : o.usual = true) : Has Φ (access o) := ⟨hΦ.usual ho⟩

instance has_getOld (a : Addr) : Has Φ (getOld a) := has_usual rfl
instance has_setOld (a : Addr) (v : Option Addr) : Has Φ (setOld a v) := has_usual rfl
instance has_getSlabNext (a : Addr) : Has Φ (getSlabNext a) := has_usual rfl
instance has_setSlabNext (a : Addr) (v : Option Addr) : Has Φ (setSlabNext a v) := has_usual rfl

end

section

variable [hΦ : Inner Φ]

theorem has_inner {o : Op} (ho : o.usual = true) (hl : o.links = false) : Has Φ (access o) := ⟨hΦ.inner ho hl⟩

instance has_lockRead (l : LockId) : Has Φ (lockCall .rdlock l) := has_inner rfl rfl
instance has_lockWrite (l : LockId) : Has Φ (lockCall .wrlock l) := has_inner rfl rfl
instance has_destroyTable (a : Addr) : Has Φ (rwlockDestroy (.table a)) := has_inner rfl rfl
instance has_destroyAverage (a : Addr) (i : AverageId) : Has Φ (rwlockDestroy (.average a i)) := has_inner rfl rfl
instance has_destroyCounter (a : Addr) (i : CounterId) : Has Φ (rwlockDestroy (.counter a i)) := has_inner rfl rfl
instance has_destroyEntry (p : EntryPtr) : Has Φ (rwlockDestroy (.entry p)) := has_inner rfl rfl
instance has_addErrors (a : Addr) (d : UInt64) : Has Φ (addCounter a .errors d) := has_inner rfl rfl
instance has_addHits (a : Addr) (d : UInt64) : Has Φ (addCounter a .hits d) := has_inner rfl rfl
instance has_addProbes (a : Addr) (d : UInt64) : Has Φ (addCounter a .probes d) := has_inner rfl rfl
instance has_addInserts (a : Addr) (d : UInt64) : Has Φ (addCounter a .inserts d) := has_inner rfl rfl
instance has_addDeletes (a : Addr) (d : UInt64) : Has Φ (addCounter a .deletes d) := has_inner rfl rfl
instance has_incrementDepth (a : Addr) (c : UInt64) : Has Φ (incrementAverage a .depth c) := has_inner rfl rfl
instance has_incrementSearches (a : Addr) (c : UInt64) : Has Φ (incrementAverage a .searches c) := has_inner rfl rfl
instance has_rwlockInit (l : LockId) : Has Φ (rwlockInit l) := has_inner rfl rfl
instance has_rdlock (l : LockId) : Has Φ (rdlock l) := has_inner rfl rfl
instance has_wrlock (l : LockId) : Has Φ (wrlock l) := has_inner rfl rfl
instance has_unlock (l : LockId) : Has Φ (unlock l) := has_inner rfl rfl
instance has_getErrno : Has Φ getErrno := has_inner rfl rfl
instance has_setErrno (e : Int) : Has Φ (setErrno e) := has_inner rfl rfl
instance has_bound : Has Φ bound := has_inner rfl rfl
instance has_freeHead (a : Addr) : Has Φ (freeHead a) := has_inner rfl rfl
instance has_freeSlab (a : Addr) : Has Φ (freeSlab a) := has_inner rfl rfl
instance has_getKeysize (a : Addr) : Has Φ (getKeysize a) := has_inner rfl rfl
instance has_getOptions (a : Addr) : Has Φ (getOptions a) := has_inner rfl rfl
instance has_getThreshold (a : Addr) : Has Φ (getThreshold a) := has_inner rfl rfl
instance has_getSlabs (a : Addr) : Has Φ (getSlabs a) := has_inner rfl rfl
instance has_setSlabs (a : Addr) (v : Option Addr) : Has Φ (setSlabs a v) := has_inner rfl rfl
instance has_readTable (a : Addr) (u : TableUse) : Has Φ (readTable a u) := has_inner rfl rfl
instance has_setTable (a : Addr) (v : Option Addr) : Has Φ (setTable a v) := has_inner rfl rfl
instance has_getFreechain (a : Addr) : Has Φ (getFreechain a) := has_inner rfl rfl
instance has_setFreechain (a : Addr) (v : Option EntryPtr) : Has Φ (setFreechain a v) := has_inner rfl rfl
instance has_initSlab (a : Addr) (n : Nat) : Has Φ (initSlab a n) := has_inner rfl rfl
instance has_clearSlab (a : Addr) : Has Φ (clearSlab a) := has_inner rfl rfl
instance has_getEntrycount (a : Addr) : Has Φ (getEntrycount a) := has_inner rfl rfl
instance has_getEntry (a : Addr) (i : Nat) : Has Φ (getEntry a i) := has_inner rfl rfl
instance has_getNext (p : EntryPtr) : Has Φ (getNext p) := has_inner rfl rfl
instance has_setNext (p : EntryPtr) (v : Option EntryPtr) : Has Φ (setNext p v) := has_inner rfl rfl
instance has_getKey (p : EntryPtr) : Has Φ (getKey p) := has_inner rfl rfl
instance has_setKey (p : EntryPtr) (v : Nat) : Has Φ (setKey p v) := has_inner rfl rfl
instance has_getData (p : EntryPtr) : Has Φ (getData p) := has_inner rfl rfl
instance has_setData (p : EntryPtr) (v : Nat) : Has Φ (setData p v) := has_inner rfl rfl
instance has_getFlags (p : EntryPtr) : Has Φ (getFlags p) := has_inner rfl rfl
instance has_setFlags (p : EntryPtr) (v : EntryFlags) : Has Φ (setFlags p v) := has_inner rfl rfl
instance has_getAverage (a : Addr) (i : AverageId) : Has Φ (getAverage a i) := has_inner rfl rfl
instance has_getCounter (a : Addr) (i : CounterId) : Has Φ (getCounter a i) := has_inner rfl rfl

instance has_fault {α : Type} : Has Φ (fault : Code α) := by
  have hbind : (fault : Code α) = (access .fault >>= fun e => nomatch (show Empty from e)) := rfl
  rw [hbind]
  exact Has.bind (has_inner rfl rfl) fun e => nomatch (show Empty from e)

/-! ## Small pieces -/

instance has_deref {β : Type} (x : Option β) : Has Φ (deref x) := by
  cases x with
  | none => exact has_fault
  | some a => exact has_ret a

instance has_getTable (a : Addr) (u : TableUse) : Has Φ (getTable a u) := by
  unfold getTable
  infer_instance

instance has_void {β : Type} (p : Code β) [Has Φ p] : Has Φ (void p) := by
  unfold void
  infer_instance

instance has_guarded (b : Bool) (p : Code Int) [Has Φ p] : Has Φ (guarded b p) := by
  unfold guarded
  infer_instance

instance has_onFail (e : Int) (p : Code Unit) [Has Φ p] : Has Φ (onFail e p) := by
  unfold onFail
  infer_instance

instance has_keepErrno (e : Int) : Has Φ (keepErrno e) := by
  unfold keepErrno
  infer_instance

instance has_hashCompute (c : Conf) (key len n : Nat) : Has Φ (hashCompute c key len n) := by
  unfold hashCompute
  infer_instance

/-! ## Statistics -/

instance has_htCounterAdd (a : Addr) (i : CounterId) (d : UInt64) [Has Φ (addCounter a i d)] : Has Φ (htCounterAdd a i d) := by
  unfold htCounterAdd
  infer_instance

instance has_htAverageUpdate (a : Addr) (i : AverageId) (n m x y : UInt64) [Has Φ (updateAverage a i n m x y)] :
    Has Φ (htAverageUpdate a i n m x y) := by
  unfold htAverageUpdate
  infer_instance

instance has_htAverageIncrement (a : Addr) (i : AverageId) (x : UInt64) [Has Φ (incrementAverage a i x)] :
    Has Φ (htAverageIncrement a i x) := by
  unfold htAverageIncrement
  infer_instance

/-! ## Creation -/

instance has_htInitEntries (s i n : Nat) (result : Int) : Has Φ (htInitEntries s i n result) := by
  induction n generalizing i result with
  | zero => exact has_ret result
  | succ n ih =>
    rw [htInitEntries]
    infer_instance

instance has_htCreateSlab (n : Nat) [Has Φ (mallocSlab n)] : Has Φ (htCreateSlab n) := by
  unfold htCreateSlab
  split
  · infer_instance
  · refine Has.bind inferInstance fun slab => ?_
    cases slab <;> (dsimp only; infer_instance)

theorem has_anyFails {ps : List (Code Int)} (hp : ∀ p ∈ ps, Has Φ p) : Has Φ (anyFails ps) := by
  induction ps with
  | nil => exact has_ret false
  | cons p ps ih =>
    have hhead := hp p List.mem_cons_self
    have hrest := ih fun q hq => hp q (List.mem_cons_of_mem p hq)
    rw [anyFails]
    infer_instance

instance has_htCounterInit (a : Addr) (i : CounterId) [Has Φ (initCounter a i)] : Has Φ (htCounterInit a i) := by
  unfold htCounterInit
  infer_instance

instance has_htAverageInit (a : Addr) (i : AverageId) [Has Φ (initAverage a i)] : Has Φ (htAverageInit a i) := by
  unfold htAverageInit
  infer_instance

instance has_initAverages (a : Addr) [∀ i, Has Φ (initAverage a i)] :
    Has Φ (anyFails [htAverageInit a .depth, htAverageInit a .freechain, htAverageInit a .searches]) := by
  refine has_anyFails fun p hp => ?_
  simp only [List.mem_cons, List.not_mem_nil, or_false] at hp
  rcases hp with rfl | rfl | rfl <;> infer_instance

instance has_initCounters (a : Addr) [∀ i, Has Φ (initCounter a i)] :
    Has Φ (anyFails [htCounterInit a .deletes, htCounterInit a .errors, htCounterInit a .hits, htCounterInit a .inserts,
      htCounterInit a .probes, htCounterInit a .resizes, htCounterInit a .slabs]) := by
  refine has_anyFails fun p hp => ?_
  simp only [List.mem_cons, List.not_mem_nil, or_false] at hp
  rcases hp with rfl | rfl | rfl | rfl | rfl | rfl | rfl <;> infer_instance

instance has_initLocks (a : Addr) : Has Φ (anyFails [rwlockInit (.table a), rwlockInit (.free a), rwlockInit (.resize a)]) := by
  refine has_anyFails fun p hp => ?_
  simp only [List.mem_cons, List.not_mem_nil, or_false] at hp
  rcases hp with rfl | rfl | rfl <;> infer_instance

instance has_createTable (a : Addr) (n : Nat) [∀ i, Has Φ (initAverage a i)] [∀ i, Has Φ (initCounter a i)] [Has Φ (mallocSlab n)]
    [∀ d, Has Φ (addCounter a .slabs d)] : Has Φ (createTable a n) := by
  unfold createTable
  refine Has.bind inferInstance fun failed => ?_
  split
  · infer_instance
  refine Has.bind inferInstance fun failed => ?_
  split
  · infer_instance
  refine Has.bind inferInstance fun failed => ?_
  split
  · infer_instance
  refine Has.bind inferInstance fun slab => Has.bind inferInstance fun _ => Has.bind inferInstance fun slabs => ?_
  refine Has.bind inferInstance fun _ => ?_
  cases slabs <;> (dsimp only; infer_instance)

instance has_htCreate (n ks : Nat) (options : Options) [Has Φ mallocHead] [∀ a t, Has Φ (initHead a (intOfSize ks) options t)]
    [∀ a i, Has Φ (initAverage a i)] [∀ a i, Has Φ (initCounter a i)] [Has Φ (mallocSlab n)]
    [∀ a d, Has Φ (addCounter a .slabs d)] : Has Φ (htCreate n ks options) := by
  by_cases hn : n = 0
  · rw [htCreate, if_pos hn]
    infer_instance
  · rw [htCreate_eq hn]
    refine Has.bind inferInstance fun h => ?_
    cases h <;> (dsimp only; infer_instance)

/-! ## Destruction -/

instance has_htDestroyEntries (s i n : Nat) (ret result : Int) : Has Φ (htDestroyEntries s i n ret result) := by
  induction n generalizing i ret result with
  | zero => exact has_ret result
  | succ n ih =>
    rw [htDestroyEntries]
    infer_instance

instance has_htDestroySlab (s : Addr) : Has Φ (htDestroySlab s) := by
  unfold htDestroySlab
  infer_instance

instance has_htSweepChain (a : Addr) (hte : EntryPtr) (fuel : Nat) (chte : EntryPtr) : Has Φ (htSweepChain a hte fuel chte) := by
  induction fuel generalizing chte with
  | zero => exact has_fault
  | succ fuel ih =>
    rw [htSweepChain]
    refine Has.bind inferInstance fun next => ?_
    cases next with
    | none => infer_instance
    | some next => infer_instance

instance has_htSweepTable (a t i n : Nat) : Has Φ (htSweepTable a t i n) := by
  induction n generalizing i with
  | zero => exact has_ret 0
  | succ n ih =>
    rw [htSweepTable]
    infer_instance

instance has_htSweep (a : Addr) : Has Φ (htSweep a) := by
  unfold htSweep
  infer_instance

end

section

variable [hΦ : Usual Φ]

instance has_htDestroySlabs (a : Addr) (fuel : Nat) : Has Φ (htDestroySlabs a fuel) := by
  induction fuel with
  | zero => exact has_fault
  | succ fuel ih =>
    rw [htDestroySlabs]
    refine Has.bind inferInstance fun slabs => ?_
    cases slabs with
    | none => infer_instance
    | some hts => infer_instance

instance has_destroyMutex (a : Addr) (l : LockId) [Has Φ (rwlockDestroy l)] : Has Φ (destroyMutex a l) := by
  unfold destroyMutex
  infer_instance

theorem has_destroyMutexes (a : Addr) {ls : List LockId} (hl : ∀ l ∈ ls, Has Φ (rwlockDestroy l)) : Has Φ (destroyMutexes a ls) := by
  induction ls with
  | nil => exact has_ret ()
  | cons l ls ih =>
    have hhead := hl l List.mem_cons_self
    have hrest := ih fun k hk => hl k (List.mem_cons_of_mem l hk)
    rw [destroyMutexes]
    infer_instance

instance has_htDestroyLocks (a : Addr) : Has Φ (htDestroyLocks a) := by
  have hstats : Has Φ (destroyMutexes a (statMutexes a)) := by
    refine has_destroyMutexes a fun l hl => ?_
    simp only [statMutexes, List.mem_cons, List.not_mem_nil, or_false] at hl
    rcases hl with rfl | rfl | rfl | rfl | rfl | rfl | rfl | rfl | rfl <;> infer_instance
  unfold htDestroyLocks
  infer_instance

instance has_htDestroyHead (a : Addr) : Has Φ (htDestroyHead a) := by
  unfold htDestroyHead
  infer_instance

instance has_htDestroyFrom (fuel : Nat) (a : Addr) : Has Φ (htDestroyFrom fuel a) := by
  induction fuel generalizing a with
  | zero => exact has_fault
  | succ fuel ih =>
    rw [htDestroyFrom]
    refine Has.bind inferInstance fun e => Has.bind inferInstance fun _ => ?_
    split
    · infer_instance
    · refine Has.bind inferInstance fun old => ?_
      cases old with
      | none =>
        dsimp only
        infer_instance
      | some o =>
        dsimp only
        infer_instance

instance has_htDestroy (a : Addr) : Has Φ (htDestroy a) := by
  unfold htDestroy
  infer_instance

end

/-! ## Locating -/

section

variable [hΦ : Inner Φ] (c : Conf)

instance has_htLocateWalk (a key len : Nat) (lf : LockOp) [∀ l, Has Φ (lockCall lf l)] (prev : Bool) (fuel depth : Nat)
    (phte : Option EntryPtr) (dhte : EntryPtr) :
    Has Φ (htLocateWalk c a key len lf prev fuel depth phte dhte) := by
  induction fuel generalizing depth phte dhte with
  | zero => exact has_fault
  | succ fuel ih =>
    unfold htLocateWalk
    refine Has.bind inferInstance fun k => ?_
    split
    · refine Has.bind inferInstance fun next => ?_
      cases next <;> cases phte <;> (dsimp only; infer_instance)
    · cases phte <;> (dsimp only; infer_instance)

instance has_htLocateEntry_ (a key : Nat) (lf : LockOp) [∀ l, Has Φ (lockCall lf l)] (prev : Bool) : Has Φ (htLocateEntry_ c a key lf prev) := by
  unfold htLocateEntry_
  refine Has.bind inferInstance fun _ => Has.bind inferInstance fun ks => Has.bind inferInstance fun t => ?_
  refine Has.bind inferInstance fun n => Has.bind inferInstance fun i => Has.bind inferInstance fun t => ?_
  refine Has.bind inferInstance fun dhte => Has.bind inferInstance fun ret => ?_
  infer_instance

instance has_htLocateEntry (a key : Nat) : Has Φ (htLocateEntry c a key) := by
  have hrest : ∀ (ret : Int) (hte : Option (EntryPtr × Option EntryPtr)), Has Φ (if ret ≠ 0 then
      match hte with
      | some (hte, _) => do
        void (unlock (.entry hte))
        void (htCounterAdd a .errors 1)
        setErrno ret
        return none
      | none => do
        void (htCounterAdd a .errors 1)
        setErrno ret
        return none
    else
      return hte.map (·.1)) := by
    intro ret hte
    cases hte <;> (dsimp only; infer_instance)
  unfold htLocateEntry
  infer_instance

instance has_htLocateKey (a key : Nat) : Has Φ (htLocateKey c a key) := by
  unfold htLocateKey
  refine Has.bind inferInstance fun hte => ?_
  cases hte <;> (dsimp only; infer_instance)

/-! ## Deleting -/

instance has_unlinkEntry (a : Addr) (phte dhte : EntryPtr) : Has Φ (unlinkEntry a phte dhte) := by
  unfold unlinkEntry
  refine Has.bind inferInstance fun f => Has.bind inferInstance fun _ => Has.bind inferInstance fun ret => ?_
  split
  · infer_instance
  · refine Has.bind inferInstance fun next => Has.bind inferInstance fun _ => Has.bind inferInstance fun freechain => ?_
    refine Has.bind inferInstance fun _ => Has.bind inferInstance fun _ => ?_
    infer_instance

instance has_deleteFound (a : Addr) (dhte : EntryPtr) (phte : Option EntryPtr) : Has Φ (deleteFound a dhte phte) := by
  cases phte with
  | some phte => exact has_unlinkEntry a phte dhte
  | none =>
    rw [deleteFound]
    refine Has.bind inferInstance fun next => ?_
    cases next <;> (dsimp only; infer_instance)

instance has_htDeleteKey (a key : Nat) : Has Φ (htDeleteKey c a key) := by
  have hrest : ∀ (found : Option (EntryPtr × Option EntryPtr)) (ret : Int), Has Φ (match found with
      | none => return 0
      | some (dhte, phte) =>
        if ret ≠ 0 then do
          void (htCounterAdd a .errors 1)
          void (unlock (.entry dhte))
          setErrno ret
          return 0
        else
          deleteFound a dhte phte) := by
    intro found ret
    cases found <;> (dsimp only; infer_instance)
  unfold htDeleteKey
  infer_instance

/-! ## Inserting -/

instance has_insertWalk (key len : Nat) (dups : Bool) (fuel depth : Nat) (ohte : Option EntryPtr) :
    Has Φ (insertWalk c key len dups fuel depth ohte) := by
  induction fuel generalizing depth ohte with
  | zero => exact has_fault
  | succ fuel ih =>
    cases ohte with
    | none => exact has_ret _
    | some ohte =>
      rw [insertWalk]
      infer_instance

instance has_dangle (a slab n : Nat) : Has Φ (dangle a slab n) := by
  induction n with
  | zero => exact has_ret ()
  | succ n ih =>
    rw [dangle]
    infer_instance

instance has_linkEntry (dhte ohte : EntryPtr) (key data : Nat) : Has Φ (linkEntry dhte ohte key data) := by
  unfold linkEntry
  infer_instance

/-- The chain of a new slab is counted. -/
instance has_takeFree (a rounds : Nat) [∀ n, Has Φ (mallocSlab n)] [∀ d, Has Φ (addCounter a .slabs d)]
    [∀ s v, Has Φ (setSlabNext s v)]
    [∀ n m x y, Has Φ (updateAverage a .freechain n m x y)] : Has Φ (takeFree a rounds) := by
  induction rounds with
  | zero => exact has_fault
  | succ rounds ih =>
    rw [takeFree]
    refine Has.bind inferInstance fun freechain => ?_
    cases freechain with
    | some ohte => infer_instance
    | none =>
      refine Has.bind inferInstance fun t => Has.bind inferInstance fun n => Has.bind inferInstance fun slab => ?_
      cases slab <;> (dsimp only; infer_instance)

instance has_insertTaken (resize : Addr → Nat → Code Int) (a : Addr) (dhte ohte : EntryPtr) (key data : Nat) (options : Options)
    (depth : Nat) [∀ x, Has Φ (incrementAverage a .freechain x)] [Has Φ (resizeIfDue c resize a options)] :
    Has Φ (insertTaken c resize a dhte ohte key data options depth) := by
  rw [insertTaken_eq]
  refine Has.bind inferInstance fun next => Has.bind inferInstance fun _ => Has.bind inferInstance fun _ => ?_
  refine Has.bind inferInstance fun fc => Has.bind inferInstance fun _ => Has.bind inferInstance fun ret => ?_
  refine Has.bind inferInstance fun _ => Has.bind inferInstance fun _ => Has.bind inferInstance fun _ => ?_
  infer_instance

instance has_resizeIfDue (resize : Addr → Nat → Code Int) (a : Addr) (options : Options) [∀ n, Has Φ (resize a n)] :
    Has Φ (resizeIfDue c resize a options) := by
  unfold resizeIfDue
  refine Has.bind inferInstance fun evaluate => ?_
  cases options.resizeImplicit <;> cases evaluate <;> (dsimp only; infer_instance)

/-- With the default threshold function nothing is resized. -/
theorem has_resizeIfDue_default (resize : Addr → Nat → Code Int) (a : Addr) (options : Options)
    (hthr : ∀ f : Option Threshold → Code Int, Has Φ (f (some htEvaluateThresholdDefault)) → Has Φ (getThreshold a >>= f)) :
    Has Φ (resizeIfDue c resize a options) := by
  apply hthr _
  cases options.resizeImplicit with
  | false => exact has_ret 0
  | true =>
    refine Has.bind inferInstance fun t => Has.bind inferInstance fun n => ?_
    refine Has.bind inferInstance fun d => Has.bind inferInstance fun s => ?_
    rw [if_neg (by simp [htEvaluateThresholdDefault])]
    infer_instance

instance has_insertChained (resize : Addr → Nat → Code Int) (a : Addr) (dhte : EntryPtr) (key data : Nat) (options : Options)
    (depth : Nat) [Has Φ (takeFree a 2)] [∀ x, Has Φ (incrementAverage a .freechain x)] [Has Φ (resizeIfDue c resize a options)] :
    Has Φ (insertChained c resize a dhte key data options depth) := by
  unfold insertChained
  refine Has.bind inferInstance fun ret => ?_
  split
  · infer_instance
  · refine Has.bind inferInstance fun ohte => ?_
    cases ohte <;> (dsimp only; infer_instance)

instance has_insertKeyWith (resize : Addr → Nat → Code Int) (a key data : Nat) [Has Φ (takeFree a 2)]
    [∀ x, Has Φ (incrementAverage a .freechain x)] [∀ options, Has Φ (resizeIfDue c resize a options)] :
    Has Φ (insertKeyWith c resize a key data) := by
  unfold insertKeyWith
  refine Has.bind inferInstance fun _ => Has.bind inferInstance fun e => Has.bind inferInstance fun _ => ?_
  split
  · infer_instance
  refine Has.bind inferInstance fun _ => Has.bind inferInstance fun ks => Has.bind inferInstance fun opts => ?_
  refine Has.bind inferInstance fun t => Has.bind inferInstance fun n => Has.bind inferInstance fun i => ?_
  refine Has.bind inferInstance fun t => Has.bind inferInstance fun dhte => Has.bind inferInstance fun ret => ?_
  split
  · infer_instance
  refine Has.bind inferInstance fun ret => ?_
  split
  · infer_instance
  refine Has.bind inferInstance fun f => ?_
  split
  · infer_instance
  refine Has.bind inferInstance fun fuel => Has.bind inferInstance fun x => ?_
  infer_instance

end

/-! ## Resizing -/

section

variable [hΦ : Usual Φ] (c : Conf)

instance has_copyChain (insert : Nat → Nat → Code Int) [∀ k d, Has Φ (insert k d)] (fuel : Nat) (chte : EntryPtr) :
    Has Φ (copyChain insert fuel chte) := by
  induction fuel generalizing chte with
  | zero => exact has_fault
  | succ fuel ih =>
    rw [copyChain]
    refine Has.bind inferInstance fun next => ?_
    cases next <;> (dsimp only; infer_instance)

instance has_copyTable (insert : Nat → Nat → Code Int) [∀ k d, Has Φ (insert k d)] (t n : Nat) :
    Has Φ (copyTable insert t n) := by
  induction n with
  | zero => exact has_ret 0
  | succ n ih =>
    rw [copyTable]
    infer_instance

instance has_mergeCounters (a nht : Addr) (is : List CounterId) [∀ i d, Has Φ (addCounter a i d)] : Has Φ (mergeCounters a nht is) := by
  induction is with
  | nil => exact has_ret ()
  | cons i is ih =>
    rw [mergeCounters]
    infer_instance

instance has_mergeAverages (a nht : Addr) (is : List AverageId) [∀ i n m x y, Has Φ (updateAverage a i n m x y)] :
    Has Φ (mergeAverages a nht is) := by
  induction is with
  | nil => exact has_ret ()
  | cons i is ih =>
    rw [mergeAverages]
    infer_instance

instance has_swapTables (a nht : Addr) : Has Φ (swapTables a nht) := by
  unfold swapTables
  infer_instance

instance has_abandonNew (a nht : Addr) : Has Φ (abandonNew a nht) := by
  unfold abandonNew
  infer_instance

instance has_endResize (a nht : Addr) (fret tret sret : Int) : Has Φ (endResize a nht fret tret sret) := by
  unfold endResize
  refine Has.bind inferInstance fun _ => ?_
  infer_instance

instance has_finishResize (a nht : Addr) : Has Φ (finishResize a nht) := by
  unfold finishResize
  infer_instance

instance has_fillNew (insertKey : Addr → Nat → Nat → Code Int) (a nht : Addr) [∀ k d, Has Φ (insertKey nht k d)]
    [Has Φ (mergeCounters a nht [.probes, .hits, .errors, .resizes, .inserts, .deletes])]
    [Has Φ (mergeAverages a nht [.searches, .depth, .freechain])] : Has Φ (fillNew insertKey a nht) := by
  unfold fillNew
  refine Has.bind inferInstance fun old => Has.bind inferInstance fun _ => Has.bind inferInstance fun _ => ?_
  refine Has.bind inferInstance fun t => Has.bind inferInstance fun n => Has.bind inferInstance fun ret => ?_
  split
  · infer_instance
  refine Has.bind inferInstance fun ret => ?_
  split <;> infer_instance

/-- What is known of a new table (`Q`) may be used where it is filled. -/
theorem has_resizeWith_of_new {insertKey : Addr → Nat → Nat → Code Int} {a n : Nat} {Q : Addr → Prop}
    (hnew : ∀ rest : Option Addr → Code Int, Has Φ (rest none) → (∀ nht, Q nht → Has Φ (rest (some nht))) → Has Φ (createNew c a n rest))
    (hfill : ∀ nht, Q nht → Has Φ (fillNew insertKey a nht)) : Has Φ (resizeWith c insertKey a n) := by
  rw [resizeWith_eq]
  refine Has.bind inferInstance fun e => Has.bind inferInstance fun _ => ?_
  split
  · infer_instance
  refine Has.bind inferInstance fun e => Has.bind inferInstance fun _ => ?_
  split
  · infer_instance
  refine hnew _ ?_ hfill
  dsimp only
  infer_instance

instance has_resizeWith (insertKey : Addr → Nat → Nat → Code Int) (a n : Nat) [∀ b k d, Has Φ (insertKey b k d)]
    [∀ b, Has Φ (mergeCounters a b [.probes, .hits, .errors, .resizes, .inserts, .deletes])]
    [∀ b, Has Φ (mergeAverages a b [.searches, .depth, .freechain])] [∀ ks options, Has Φ (htCreate n ks options)] :
    Has Φ (resizeWith c insertKey a n) := by
  refine has_resizeWith_of_new (Q := fun _ => True) c (fun rest hnone hsome => ?_) fun _ _ => inferInstance
  unfold createNew
  refine Has.bind inferInstance fun ks => Has.bind inferInstance fun options => Has.bind inferInstance fun nht => ?_
  cases nht with
  | none => exact hnone
  | some nht => exact hsome nht trivial

end

/-! ## Whole calls -/

section

variable [hΦ : Inner Φ] (c : Conf)

instance has_insertKeyNoResize (a key data : Nat) [Has Φ (takeFree a 2)] [∀ x, Has Φ (incrementAverage a .freechain x)] :
    Has Φ (insertKeyNoResize c a key data) := by
  unfold insertKeyNoResize
  infer_instance

instance has_callCode (a : Addr) (x : Call) [∀ k d, Has Φ (htInsertKey c a k d)] [∀ n, Has Φ (htResize c a n)] :
    Has Φ (callCode c a x) := by
  cases x with
  | insert key data => exact inferInstanceAs (Has Φ (htInsertKey c a key data))
  | delete key => exact Has.bind inferInstance fun d => has_pure (d : Int)
  | locate key => exact Has.bind inferInstance fun d => has_pure (d : Int)
  | resize n => exact inferInstanceAs (Has Φ (htResize c a n))

end

/-! ## What single accesses keep -/

/-- The access neither allocates nor sets up a head. -/
def Op.keepsHeads : Op → Bool
  | .mallocHead | .initHead _ _ _ _ => false
  | _ => true

theorem Op.keepsHeads_of_usual {o : Op} (ho : o.usual = true) : o.keepsHeads = true := by
  cases o <;> first | rfl | exact ho

/-- Every head was there before, with the same key size, options and threshold function. -/
def HeadsKept (w w' : World) : Prop := ∀ a y, w'.heads a = some y → ∃ x, w.heads a = some x ∧ y.keysize = x.keysize ∧
  y.options = x.options ∧ y.thresholdEvaluate = x.thresholdEvaluate

theorem HeadsKept.same {w w' : World} (hh : w'.heads = w.heads) : HeadsKept w w' := fun _ y hy => ⟨y, hh ▸ hy, rfl, rfl, rfl⟩

theorem HeadsKept.setHead {w : World} {h : Addr} {x y : HashTable} (hx : w.heads h = some x) (hk : y.keysize = x.keysize)
    (ho : y.options = x.options) (ht : y.thresholdEvaluate = x.thresholdEvaluate) : HeadsKept w (w.setHead h y) := by
  intro a z hz
  by_cases ha : a = h
  · simp only [World.setHead, ha, ↓reduceIte, Option.some.injEq] at hz
    exact ⟨x, ha ▸ hx, hz ▸ hk, hz ▸ ho, hz ▸ ht⟩
  · simp only [World.setHead, ha, ↓reduceIte] at hz
    exact ⟨z, hz, rfl, rfl, rfl⟩

/-- `ht_evaluate_threshold_default` is in use. -/
def DefaultThreshold (w : World) (h : Addr) : Prop := ∀ x, w.heads h = some x → x.thresholdEvaluate = some htEvaluateThresholdDefault

theorem HeadsKept.defaultThreshold {w w' : World} {h : Addr} (hk : HeadsKept w w') (hd : DefaultThreshold w h) :
    DefaultThreshold w' h := by
  intro y hy
  obtain ⟨x, hx, -, -, hthr⟩ := hk h y hy
  exact hthr.trans (hd x hx)

theorem Table.defaultThreshold {c : Conf} {w : World} {h : Addr} {S : Shape} (ht : Table c w h S) : DefaultThreshold w h := by
  intro x hx
  have hthr := ht.threshold
  rwa [World.head, hx] at hthr

/-- The access allocates. -/
def Op.allocates : Op → Bool
  | .mallocHead | .mallocSlab _ => true
  | _ => false

/-- What an access leaves alone: the parts of the memory, each with the accesses that change it. -/
structure StepFrame (o : Op) (w w' : World) : Prop where
  heads : o.keepsHeads = true → HeadsKept w w'
  locks : (∀ p l, o ≠ .lock p l) → w'.locks = w.locks
  mallocs : o.allocates = false → w'.mallocs = w.mallocs ∧ w'.cells = w.cells
  stats : (∀ a s, o ≠ .stat a s) → w'.book.stats = w.book.stats

theorem step_frame {env : Env} {w w' : World} {o : Op} {r : o.Res} (hs : step env o w = some (r, w')) : StepFrame o w w' := by
  cases o
  case fault => cases hs
  case lock o l =>
    simp only [step, lockStep] at hs
    cases hs
    split
    · exact ⟨fun _ => .same rfl, fun hl => absurd rfl (hl o l), fun _ => ⟨rfl, rfl⟩, fun _ => rfl⟩
    · exact ⟨fun _ => .same rfl, fun _ => rfl, fun _ => ⟨rfl, rfl⟩, fun _ => rfl⟩
  case stat a s =>
    obtain ⟨x, hx, he⟩ := Option.map_eq_some_iff.mp hs
    cases he
    exact ⟨fun _ => .same rfl, fun _ => rfl, fun _ => ⟨rfl, rfl⟩, fun hl => absurd rfl (hl a s)⟩
  case mallocHead =>
    simp only [step] at hs
    split at hs <;> (cases hs; exact ⟨fun hk => (by cases hk), fun _ => rfl, fun ha => (by cases ha), fun _ => rfl⟩)
  case mallocSlab n =>
    simp only [step] at hs
    split at hs <;> (cases hs; exact ⟨fun _ => .same rfl, fun _ => rfl, fun ha => (by cases ha), fun _ => rfl⟩)
  case initHead a ks opts t =>
    obtain ⟨x, hx, he⟩ := Option.map_eq_some_iff.mp hs
    cases he
    exact ⟨fun hk => (by cases hk), fun _ => rfl, fun _ => ⟨rfl, rfl⟩, fun _ => rfl⟩
  case freeHead a =>
    obtain ⟨x, hx, he⟩ := Option.map_eq_some_iff.mp hs
    cases he
    refine ⟨fun _ b y hy => ?_, fun _ => rfl, fun _ => ⟨rfl, rfl⟩, fun _ => rfl⟩
    by_cases hb : b = a
    · simp [hb] at hy
    · simp only [hb, ↓reduceIte] at hy
      exact ⟨y, hy, rfl, rfl, rfl⟩
  -- the others read, or write a field of a head, a slab, an entry, or `errno`
  all_goals first
    | (cases hs; exact ⟨fun _ => .same rfl, fun _ => rfl, fun _ => ⟨rfl, rfl⟩, fun _ => rfl⟩)
    | (obtain ⟨x, hx, he⟩ := Option.map_eq_some_iff.mp hs; cases he
       exact ⟨fun _ => .same rfl, fun _ => rfl, fun _ => ⟨rfl, rfl⟩, fun _ => rfl⟩)
    | (obtain ⟨x, hx, he⟩ := Option.map_eq_some_iff.mp hs; cases he
       exact ⟨fun _ => .setHead hx rfl rfl rfl, fun _ => rfl, fun _ => ⟨rfl, rfl⟩, fun _ => rfl⟩)
    | (simp only [step, onEnt] at hs
       split at hs
       · cases hs; exact ⟨fun _ => .same rfl, fun _ => rfl, fun _ => ⟨rfl, rfl⟩, fun _ => rfl⟩
       · cases hs)

theorem headsKept_step {env : Env} {w w' : World} {o : Op} (ho : o.keepsHeads = true) {r : o.Res}
    (hs : step env o w = some (r, w')) : HeadsKept w w' := (step_frame hs).heads ho

theorem mallocs_step {env : Env} {w w' : World} {o : Op} (hh : o ≠ .mallocHead) (hs : ∀ n, o ≠ .mallocSlab n) {r : o.Res}
    (he : step env o w = some (r, w')) : w'.mallocs = w.mallocs := by
  refine ((step_frame he).mallocs ?_).1
  cases o
  case mallocHead => exact absurd rfl hh
  case mallocSlab n => exact absurd rfl (hs n)
  all_goals rfl

theorem mallocs_le_step {env : Env} {w w' : World} {o : Op} {r : o.Res} (hs : step env o w = some (r, w')) : w.mallocs ≤ w'.mallocs := by
  by_cases hh : o = .mallocHead
  · subst hh
    simp only [step] at hs
    split at hs <;> (cases hs; exact Nat.le_succ _)
  · by_cases hn : ∃ n, o = .mallocSlab n
    · obtain ⟨n, rfl⟩ := hn
      simp only [step] at hs
      split at hs <;> (cases hs; exact Nat.le_succ _)
    · exact le_of_eq (mallocs_step hh (fun n hn' => hn ⟨n, hn'⟩) hs).symm

/-- `ht_create` gets no head, or sets up the head it gets and makes its table. -/
theorem htCreate_cases {env : Env} {n ks : Nat} {options : Options} {w w' : World} {r : Option Addr} (hn : n ≠ 0)
    (he : (htCreate n ks options).exec (step env) w = some (r, w')) :
    (r = none ∧ ∃ e, w' = ({ w with mallocs := w.mallocs + 1 } : World).setErrno e) ∨
    ∃ f w₁, env.malloc w.mallocs = some f ∧ (createTable w.mallocs n).exec (step env) w₁ = some (r, w') ∧
      w₁ = (w.allocHead f).setHead w.mallocs { f.head with
        keysize := intOfSize ks, options := options, thresholdEvaluate := some htEvaluateThresholdDefault, freechain := none } := by
  rw [htCreate_eq hn] at he
  obtain ⟨x, w₁, h₁, h₂⟩ := exec_bind_some he
  change (call .mallocHead).exec (step env) w = some (x, w₁) at h₁
  rw [exec_call, step] at h₁
  cases hf : env.malloc w.mallocs with
  | none =>
    rw [hf] at h₁
    cases h₁
    cases h₂
    exact Or.inl ⟨rfl, _, rfl⟩
  | some f =>
    rw [hf] at h₁
    cases h₁
    obtain ⟨u, w₂, h₃, h₄⟩ := exec_bind_some h₂
    have hhead : (w.allocHead f).heads w.mallocs = some f.head := by simp [World.allocHead, World.setHead]
    change (call (.initHead w.mallocs (intOfSize ks) options htEvaluateThresholdDefault)).exec (step env) _ = some (u, w₂) at h₃
    rw [exec_call, step, onHead, hhead, Option.map_some] at h₃
    cases h₃
    exact Or.inr ⟨f, _, rfl, h₄, rfl⟩

/-! ## Sequences of calls -/

/-- What every call on a table keeps, a sequence of calls keeps. -/
theorem runCalls_keeps {c : Conf} {env : Env} {h : Addr} {K : World → World → Prop} (hrefl : ∀ w, K w w)
    (htrans : ∀ w w₁ w', K w w₁ → K w₁ w' → K w w') (hcall : ∀ a, Has (Keeps (step env) K) (callCode c h a)) (as : List Call) :
    ∀ {w w' : World} {rs : List Reply}, runCalls c env h as w = some (rs, w') → K w w' := by
  induction as with
  | nil =>
    intro w w' rs hrun
    cases hrun
    exact hrefl w
  | cons a as ih =>
    intro w w' rs hrun
    rw [runCalls] at hrun
    cases hr : runCall c env h a w with
    | none => simp [hr] at hrun
    | some x =>
      obtain ⟨r, w₁⟩ := x
      rw [hr] at hrun
      obtain ⟨y, hy, he⟩ := Option.map_eq_some_iff.mp hrun
      cases he
      obtain ⟨z, hz, hzr⟩ := Option.map_eq_some_iff.mp hr
      cases hzr
      exact htrans w z.2 y.2 ((hcall a).keeps hz) (ih hy)

end ZfsTest.Hashtable
