import Mathlib.Algebra.Order.Ring.Int
import ZfsTest.Hashtable.Data

/-!
# The functions of `libhashtable.c`

Each function of the library as a program over the atomic accesses of `Data.lean`, in the order of the source. A result
the source casts to `void` is dropped by `void`; `flag && (ret = call)` is `guarded flag call`. A loop over a chain or a
list of blocks runs at most `bound` rounds and faults after them; a walk over distinct entries never does.

`ht_insert_key` may call `ht_resize` (implicit resizing), and `ht_resize` fills its new table by `ht_insert_key`. The new
table is created without implicit resizing, so this second call does not resize: `insertKeyWith` and `resizeWith` take
the function they call, and the innermost `ht_insert_key` faults where it would resize.
-/

namespace ZfsTest.Hashtable

/-! ## The accesses as programs -/

/-- One access. -/
def access (o : Op) : Code o.Res := Prog.call o

def lockCall (o : LockOp) (l : LockId) : Code Int := access (.lock o l)
def rwlockInit (l : LockId) : Code Int := lockCall .init l
def rdlock (l : LockId) : Code Int := lockCall .rdlock l
def wrlock (l : LockId) : Code Int := lockCall .wrlock l
def unlock (l : LockId) : Code Int := lockCall .unlock l
def rwlockDestroy (l : LockId) : Code Int := lockCall .destroy l
def getErrno : Code Int := access .getErrno
def setErrno (e : Int) : Code Unit := access (.setErrno e)
def bound : Code Nat := access .bound
def fault {α : Type} : Code α := .op .fault (fun e => nomatch (show Empty from e))
def mallocHead : Code (Option Addr) := access .mallocHead
def mallocSlab (numents : Nat) : Code (Option Addr) := access (.mallocSlab numents)
def freeHead (h : Addr) : Code Unit := access (.freeHead h)
def freeSlab (s : Addr) : Code Unit := access (.freeSlab s)
def initHead (h : Addr) (keysize : Int) (options : Options) (threshold : Threshold) : Code Unit :=
  access (.initHead h keysize options threshold)
def getKeysize (h : Addr) : Code Int := access (.getKeysize h)
def getOptions (h : Addr) : Code Options := access (.getOptions h)
def getThreshold (h : Addr) : Code (Option Threshold) := access (.getThreshold h)
def getOld (h : Addr) : Code (Option Addr) := access (.getOld h)
def setOld (h : Addr) (v : Option Addr) : Code Unit := access (.setOld h v)
def getSlabs (h : Addr) : Code (Option Addr) := access (.getSlabs h)
def setSlabs (h : Addr) (v : Option Addr) : Code Unit := access (.setSlabs h v)
def readTable (h : Addr) (use : TableUse) : Code (Option Addr) := access (.getTable h use)
def setTable (h : Addr) (v : Option Addr) : Code Unit := access (.setTable h v)
def getFreechain (h : Addr) : Code (Option EntryPtr) := access (.getFreechain h)
def setFreechain (h : Addr) (v : Option EntryPtr) : Code Unit := access (.setFreechain h v)
def initSlab (s : Addr) (numents : Nat) : Code Unit := access (.initSlab s numents)
def clearSlab (s : Addr) : Code Unit := access (.clearSlab s)
def getSlabNext (s : Addr) : Code (Option Addr) := access (.getSlabNext s)
def setSlabNext (s : Addr) (v : Option Addr) : Code Unit := access (.setSlabNext s v)
def getEntrycount (s : Addr) : Code Nat := access (.getEntrycount s)
def getEntry (s : Addr) (i : Nat) : Code EntryPtr := access (.getEntry s i)
def getNext (p : EntryPtr) : Code (Option EntryPtr) := access (.getNext p)
def setNext (p : EntryPtr) (v : Option EntryPtr) : Code Unit := access (.setNext p v)
def getKey (p : EntryPtr) : Code Nat := access (.getKey p)
def setKey (p : EntryPtr) (v : Nat) : Code Unit := access (.setKey p v)
def getData (p : EntryPtr) : Code Nat := access (.getData p)
def setData (p : EntryPtr) (v : Nat) : Code Unit := access (.setData p v)
def getFlags (p : EntryPtr) : Code EntryFlags := access (.getFlags p)
def setFlags (p : EntryPtr) (v : EntryFlags) : Code Unit := access (.setFlags p v)
def initAverage (h : Addr) (a : AverageId) : Code Unit := access (.stat h (.initAverage a))
def updateAverage (h : Addr) (a : AverageId) (n m c x : UInt64) : Code Unit :=
  access (.stat h (.updateAverage a n m c x))
def incrementAverage (h : Addr) (a : AverageId) (c : UInt64) : Code Unit := access (.stat h (.incrementAverage a c))
def getAverage (h : Addr) (a : AverageId) : Code Average := access (.stat h (.getAverage a))
def initCounter (h : Addr) (c : CounterId) : Code Unit := access (.stat h (.initCounter c))
def addCounter (h : Addr) (c : CounterId) (d : UInt64) : Code Unit := access (.stat h (.addCounter c d))
def getCounter (h : Addr) (c : CounterId) : Code UInt64 := access (.stat h (.getCounter c))

/-- A pointer that the source follows without a test. -/
def deref {β : Type} : Option β → Code β
  | some a => return a
  | none => fault

/-- `ht->table`, followed. -/
def getTable (h : Addr) (use : TableUse) : Code Addr := do
  let t ← readTable h use
  deref t

/-- A result cast to `void`. -/
def void {β : Type} (p : Code β) : Code Unit := do
  let _ ← p
  return ()

/-- `flag && (ret = p)`: `0` when the flag is off. -/
def guarded (flag : Bool) (p : Code Int) : Code Int :=
  if flag then p else return 0

/-- `a || b || …`: the calls are made until one returns non-zero. -/
def anyFails : List (Code Int) → Code Bool
  | [] => return false
  | p :: ps => do
    let ret ← p
    if ret ≠ 0 then
      return true
    else
      anyFails ps

def ENOENT : Int := 2
def ENOMEM : Int := 12
def EEXIST : Int := 17
def EINVAL : Int := 22

/-! ## Statistics -/

def htCounterInit (h : Addr) (c : CounterId) : Code Int := do
  initCounter h c
  rwlockInit (.counter h c)

def htCounterAdd (h : Addr) (c : CounterId) (delta : UInt64) : Code Int := do
  let e ← wrlock (.counter h c)
  setErrno e
  if e ≠ 0 then
    return -2
  else
    addCounter h c delta
    let e ← unlock (.counter h c)
    setErrno e
    if e ≠ 0 then
      return -2
    else
      return 0

def htAverageInit (h : Addr) (a : AverageId) : Code Int := do
  initAverage h a
  rwlockInit (.average h a)

def htAverageUpdate (h : Addr) (a : AverageId) (count sum current maximum : UInt64) : Code Int := do
  let e ← wrlock (.average h a)
  if e ≠ 0 then
    return -2
  else
    updateAverage h a count sum current maximum
    let e ← unlock (.average h a)
    if e ≠ 0 then
      return -2
    else
      return 0

def htAverageIncrement (h : Addr) (a : AverageId) (current : UInt64) : Code Int := do
  let e ← wrlock (.average h a)
  if e ≠ 0 then
    return -2
  else
    incrementAverage h a current
    let e ← unlock (.average h a)
    if e ≠ 0 then
      return -2
    else
      return 0

/-- Both branches of the source answer "no". -/
def htEvaluateThresholdDefault : Threshold := fun numents depthcount depthsum searchcount searchsum =>
  if numents ≠ 0 ∧ depthcount ≠ 0 ∧ depthsum ≠ 0 ∧ searchcount ≠ 0 ∧ searchsum ≠ 0 then 0 else 0

/-! ## Slabs -/

/-- Entries `i, i + 1, …` of slab `s`; `result` counts the locks that could not be initialised. -/
def htInitEntries (s : Addr) : Nat → Nat → Int → Code Int
  | _, 0, result => return result
  | i, numents + 1, result => do
    setNext (s, i) none
    setFlags (s, i) ⟨false, false⟩
    setData (s, i) 0
    setKey (s, i) 0
    let f ← getFlags (s, i)
    let ret ← guarded (!f.lockInitialized) (rwlockInit (.entry (s, i)))
    if ret ≠ 0 then
      setErrno ret
      htInitEntries s (i + 1) numents (result + 1)
    else
      let f ← getFlags (s, i)
      setFlags (s, i) { f with lockInitialized := true }
      htInitEntries s (i + 1) numents result

/-- `ret` is the result of the last `rwlock_destroy`: an entry whose lock is not initialised is counted as an error with
that value as `errno`. -/
def htDestroyEntries (s : Addr) : Nat → Nat → Int → Int → Code Int
  | _, 0, _, result => return result
  | i, numents + 1, ret, result => do
    let f ← getFlags (s, i)
    setFlags (s, i) { f with occupied := false }
    setNext (s, i) none
    setKey (s, i) 0
    setData (s, i) 0
    let f ← getFlags (s, i)
    if f.lockInitialized then
      let ret ← rwlockDestroy (.entry (s, i))
      if ret = 0 then
        let f ← getFlags (s, i)
        setFlags (s, i) { f with lockInitialized := false }
        htDestroyEntries s (i + 1) numents ret result
      else
        setErrno ret
        htDestroyEntries s (i + 1) numents ret (result + 1)
    else
      setErrno ret
      htDestroyEntries s (i + 1) numents ret (result + 1)

/-- The byte count passed to `malloc` is left to the environment: the call fails or gives room for `numents` entries. -/
def htCreateSlab (numents : Nat) : Code (Option Addr) := do
  if numents = 0 then
    setErrno EINVAL
    return none
  else
    match ← mallocSlab numents with
    | none =>
      setErrno ENOMEM
      return none
    | some slab =>
      initSlab slab numents
      let n ← getEntrycount slab
      let ret ← htInitEntries slab 0 n 0
      if ret ≠ 0 then
        freeSlab slab
        return none
      else
        return some slab

def htDestroySlab (s : Addr) : Code Int := do
  let n ← getEntrycount s
  let ret ← htDestroyEntries s 0 n 0 0
  if ret ≠ 0 then
    return ret
  else
    clearSlab s
    freeSlab s
    return 0

/-! ## Keys -/

/-- The width of `size_t`, which is no narrower than `int`, and the caller's memory, where the keys lie. -/
structure Conf where
  bits : Nat
  wide : 32 ≤ bits
  mem : Nat → UInt8

/-- A `size_t` stored in an `int`. -/
def intOfSize (n : Nat) : Int := (n : Int).bmod (2 ^ 32)

/-- An `int` passed as a `size_t`. -/
def Conf.sizeOfInt (c : Conf) (i : Int) : Nat := (i % 2 ^ c.bits).toNat

/-- The `len` bytes at `key`. -/
def Conf.keyBytes (c : Conf) (len key : Nat) : List UInt8 := (List.range len).map fun i => c.mem (key + i)

/-- One round of the loop of `ht_hash_bytes`. -/
def Conf.hashStep (c : Conf) (hashValue : Nat) (sample : UInt8) : Nat :=
  (hashValue <<< 1) % 2 ^ c.bits ^^^ sample.toNat

/-- The value `ht_hash_bytes` reduces to the table size. -/
def Conf.hashOf (c : Conf) (bytes : List UInt8) : Nat := bytes.foldl c.hashStep 0

def Conf.htHashBytes (c : Conf) (key keysize tableSize : Nat) : Nat := c.hashOf (c.keyBytes keysize key) % tableSize

/-- `bcmp`. -/
def Conf.keyCompare (c : Conf) (key₁ key₂ keysize : Nat) : Int :=
  if c.keyBytes keysize key₁ = c.keyBytes keysize key₂ then 0 else 1

/-- The call of `hash_compute`: a table of size `0` is a division by zero. -/
def hashCompute (c : Conf) (key keysize tableSize : Nat) : Code Nat :=
  if tableSize = 0 then fault else return c.htHashBytes key keysize tableSize

/-- `errno = (errno ? errno : ret)`. -/
def keepErrno (ret : Int) : Code Unit := do
  let e ← getErrno
  setErrno (if e ≠ 0 then e else ret)

/-- `if (ret) { … }` without a return. -/
def onFail (ret : Int) (p : Code Unit) : Code Unit :=
  if ret ≠ 0 then p else return ()

/-! ## Creation -/

def htCreate (numents keysize : Nat) (options : Options) : Code (Option Addr) := do
  if numents = 0 then
    setErrno EINVAL
    return none
  else
    match ← mallocHead with
    | none =>
      setErrno ENOMEM
      return none
    | some h =>
      initHead h (intOfSize keysize) options htEvaluateThresholdDefault
      let failed ← anyFails [htAverageInit h .depth, htAverageInit h .freechain, htAverageInit h .searches]
      if failed then
        freeHead h
        return none
      else
        let failed ← anyFails [htCounterInit h .deletes, htCounterInit h .errors, htCounterInit h .hits,
          htCounterInit h .inserts, htCounterInit h .probes, htCounterInit h .resizes, htCounterInit h .slabs]
        if failed then
          freeHead h
          return none
        else
          -- the table lock, the free chain lock and the resize mutex, each with its own error return
          let failed ← anyFails [rwlockInit (.table h), rwlockInit (.free h), rwlockInit (.resize h)]
          if failed then
            freeHead h
            return none
          else
            let slab ← htCreateSlab numents
            setSlabs h slab
            let slabs ← getSlabs h
            setTable h slabs
            match slabs with
            | some _ =>
              void (htCounterAdd h .slabs 1)
              return some h
            | none =>
              freeHead h
              return none

/-! ## Destruction -/

/-- The chain behind `hte`. The lock taken is the chained entry's, the lock given back is the head's, as in the source;
the flag tested is the head's too. -/
def htSweepChain (h : Addr) (hte : EntryPtr) : Nat → EntryPtr → Code Int
  | 0, _ => fault
  | fuel + 1, chte => do
    match ← getNext chte with
    | none => return 0
    | some chte =>
      let f ← getFlags hte
      let ret ← guarded f.lockInitialized (wrlock (.entry chte))
      if ret ≠ 0 then
        void (htCounterAdd h .errors 1)
        return ret
      else
        let f ← getFlags hte
        let ret ← guarded f.lockInitialized (unlock (.entry hte))
        if ret ≠ 0 then
          void (htCounterAdd h .errors 1)
          return ret
        else
          htSweepChain h hte fuel chte

/-- Entries `i, i + 1, …` of the table `t`, each with its chain. -/
def htSweepTable (h t : Addr) : Nat → Nat → Code Int
  | _, 0 => return 0
  | i, n + 1 => do
    let hte : EntryPtr := (t, i)
    let f ← getFlags hte
    let ret ← guarded f.lockInitialized (wrlock (.entry hte))
    if ret ≠ 0 then
      void (htCounterAdd h .errors 1)
      return ret
    else
      let f ← getFlags hte
      let ret ← guarded f.lockInitialized (unlock (.entry hte))
      if ret ≠ 0 then
        void (htCounterAdd h .errors 1)
        return ret
      else
        let fuel ← bound
        let ret ← htSweepChain h hte fuel hte
        if ret ≠ 0 then
          return ret
        else
          htSweepTable h t (i + 1) n

def htSweep (h : Addr) : Code Int := do
  let ret ← wrlock (.table h)
  if ret ≠ 0 then
    void (htCounterAdd h .errors 1)
    return ret
  else
    let ret ← unlock (.table h)
    if ret ≠ 0 then
      void (htCounterAdd h .errors 1)
      return ret
    else
      let t ← getTable h .entry
      let n ← getEntrycount t
      htSweepTable h t 0 n

/-- The slabs of a table head; a slab that cannot be destroyed is put back. -/
def htDestroySlabs (h : Addr) : Nat → Code Int
  | 0 => fault
  | fuel + 1 => do
    match ← getSlabs h with
    | none => return 0
    | some hts =>
      let next ← getSlabNext hts
      setSlabs h next
      let ret ← htDestroySlab hts
      if ret ≠ 0 then
        let slabs ← getSlabs h
        setSlabNext hts slabs
        setSlabs h (some hts)
        void (htCounterAdd h .errors 1)
        void (unlock (.table h))
        return ret
      else
        let table ← readTable h .entry
        if table = some hts then
          setTable h none
          htDestroySlabs h fuel
        else
          htDestroySlabs h fuel

/-- One mutex of the statistics. -/
def destroyMutex (h : Addr) (l : LockId) : Code Unit := do
  let ret ← rwlockDestroy l
  onFail ret do
    keepErrno ret
    void (htCounterAdd h .errors 1)

def destroyMutexes (h : Addr) : List LockId → Code Unit
  | [] => return ()
  | l :: ls => do
    destroyMutex h l
    destroyMutexes h ls

/-- The mutexes of the statistics in the order `ht_destroy` takes them; the one of the errors comes last of all. -/
def statMutexes (h : Addr) : List LockId :=
  [.counter h .probes, .counter h .hits, .average h .searches, .counter h .resizes, .counter h .inserts,
    .counter h .deletes, .average h .depth, .average h .freechain, .counter h .slabs]

/-- The locks of a table head; the free chain lock and the resize mutex are left. -/
def htDestroyLocks (h : Addr) : Code Int := do
  setErrno 0
  destroyMutexes h (statMutexes h)
  let ret ← unlock (.table h)
  if ret ≠ 0 then
    keepErrno ret
    void (htCounterAdd h .errors 1)
    return -2
  else
    let ret ← rwlockDestroy (.table h)
    if ret ≠ 0 then
      keepErrno ret
      void (htCounterAdd h .errors 1)
      return -2
    else
      let ret ← rwlockDestroy (.counter h .errors)
      if ret ≠ 0 then
        keepErrno ret
        return -2
      else
        freeHead h
        return 0

/-- The part of `ht_destroy` behind the older tables: the slabs and the head. -/
def htDestroyHead (h : Addr) : Code Int := do
  setOld h none
  let rounds ← bound
  let ret ← htDestroySlabs h rounds
  if ret ≠ 0 then
    return ret
  else
    htDestroyLocks h

/-- The recursion on `ht->old` of `ht_destroy`. -/
def htDestroyFrom : Nat → Addr → Code Int
  | 0, _ => fault
  | fuel + 1, h => do
    let e ← wrlock (.table h)
    setErrno e
    if e ≠ 0 then
      void (htCounterAdd h .errors 1)
      return -2
    else
      let old ← getOld h
      let ret ← match old with
        | some o => htDestroyFrom fuel o
        | none => pure 0
      if ret ≠ 0 then
        void (unlock (.table h))
        return ret
      else
        htDestroyHead h

def htDestroy (h : Addr) : Code Int := do
  let fuel ← bound
  htDestroyFrom fuel h

end ZfsTest.Hashtable
