import ZfsTest.Prog.Basic

/-!
# The hash table's memory

The data types of `hashtable_data.h` and the memory the library works on. A block that `malloc` returned is named by
the number of the `malloc` call (`Addr`): a table head (`HashTable`), or a slab: a header (`Slab`) and the entries that
follow it (`Entry`, named by slab and index, `EntryPtr`). Keys and data stay in the caller's storage; a `void *` is its
address, `0` is `NULL`.

`Op` lists the atomic accesses of the library: the lock calls, `malloc` and `free`, `errno`, and every read and write
of a field. `step` says what each does when one thread runs alone. The environment (`Env`) decides which `malloc` calls
succeed, what the fresh bytes are, and what each lock call returns. An access to a block that is not allocated, or past
the end of a slab, is a fault.

The statistics, `errno` and the record of the lock calls (`Book`) are kept apart from the memory that carries the table.
-/

namespace ZfsTest.Hashtable

/-! ## Data types -/

/-- A block of memory, named by the `malloc` call that returned it. -/
abbrev Addr := Nat

/-- `&slab->header.entry[i]`. -/
abbrev EntryPtr := Addr × Nat

/-- `hashtable_entry_flag_t`. -/
structure EntryFlags where
  occupied : Bool
  lockInitialized : Bool
  deriving DecidableEq, Repr

/-- `hashtable_entry_t`, without its lock. -/
structure Entry where
  next : Option EntryPtr
  key : Nat
  data : Nat
  flags : EntryFlags
  deriving DecidableEq, Repr

/-- The header of a `hashtable_slab_t`. `size` is the number of entries the block has room for. -/
structure Slab where
  next : Option Addr
  entrycount : Nat
  size : Nat
  deriving DecidableEq, Repr

/-- `ht_option_t`. -/
structure Options where
  resizeImplicit : Bool
  dupsAllowed : Bool
  deriving DecidableEq, Repr

/-- `hashtable_average_t`, without its lock. -/
structure Average where
  count : UInt64
  sum : UInt64
  current : UInt64
  maximum : UInt64
  deriving DecidableEq, Repr

/-- The averages of the statistics. -/
inductive AverageId
  | depth | freechain | searches
  deriving DecidableEq, Repr

/-- The counters of the statistics. -/
inductive CounterId
  | deletes | errors | hits | inserts | probes | resizes | slabs
  deriving DecidableEq, Repr

/-- The statistics of a table. -/
structure Stats where
  average : AverageId → Average
  counter : CounterId → UInt64

/-- `threshold_evaluate`: table size, depth count and sum, search count and sum. -/
abbrev Threshold := Nat → UInt64 → UInt64 → UInt64 → UInt64 → Int

/-- `hashtable_t`, without its locks and statistics. The hash and compare functions are always `ht_hash_bytes` and
`bcmp`. -/
structure HashTable where
  keysize : Int
  options : Options
  old : Option Addr
  slabs : Option Addr
  table : Option Addr
  freechain : Option EntryPtr
  thresholdEvaluate : Option Threshold

/-! ## Locks -/

/-- The locks of a table head and of the entries. -/
inductive LockId
  | table (h : Addr)
  | free (h : Addr)
  | resize (h : Addr)
  | average (h : Addr) (a : AverageId)
  | counter (h : Addr) (c : CounterId)
  | entry (p : EntryPtr)
  deriving DecidableEq, Repr

/-- The block a lock lies in. -/
def LockId.block : LockId → Addr
  | .table h | .free h | .resize h | .average h _ | .counter h _ => h
  | .entry p => p.1

/-- The calls of the lock interface; a mutex is taken as a writer. -/
inductive LockOp
  | init | rdlock | wrlock | unlock | destroy
  deriving DecidableEq, Repr

/-- A lock as its only user sees it. -/
inductive LockState
  | uninit
  | free
  | read
  | write
  | destroyed
  deriving DecidableEq, Repr

/-- The caller holds the lock. -/
def LockState.held : LockState → Bool
  | .read | .write => true
  | _ => false

/-- The call is a correct use of a lock in this state. -/
def LockOp.proper : LockOp → LockState → Bool
  | .init, .uninit => true
  | .init, .destroyed => true
  | .rdlock, .free => true
  | .wrlock, .free => true
  | .unlock, .read => true
  | .unlock, .write => true
  | .destroy, .free => true
  | _, _ => false

/-- The lock after a call that returned `0`. -/
def LockOp.after : LockOp → LockState
  | .init => .free
  | .rdlock => .read
  | .wrlock => .write
  | .unlock => .free
  | .destroy => .destroyed

@[simp] theorem LockOp.proper_unlock : LockOp.proper .unlock .write = true := rfl
@[simp] theorem LockOp.after_wrlock : LockOp.after .wrlock = .write := rfl
@[simp] theorem LockOp.after_unlock : LockOp.after .unlock = .free := rfl

/-! ## The environment and the memory -/

/-- What a fresh block holds before the library writes it. -/
structure Fill where
  head : HashTable
  next : Option Addr
  entrycount : Nat
  entry : Nat → Entry

/-- The outcome of every `malloc` call and of every lock call. -/
structure Env where
  malloc : Nat → Option Fill
  lockRet : Nat → LockOp → LockId → LockState → Int

/-- Statistics, `errno`, the number of lock calls made, and those of them that were no correct use of the lock. -/
structure Book where
  stats : Addr → Stats
  errno : Int
  lockCalls : Nat
  misuse : List (LockOp × LockId)

/-- The call takes or gives back a lock. -/
def LockOp.locks : LockOp → Bool
  | .rdlock | .wrlock | .unlock => true
  | .init | .destroy => false

/-- How often a lock was taken that was not free, or given back by a caller who did not hold it. -/
def Book.lockErrors (b : Book) : Nat := b.misuse.countP fun x => x.1.locks

/-- The book after a lock call on a lock in state `st`. -/
def Book.lockCall (b : Book) (o : LockOp) (l : LockId) (st : LockState) : Book :=
  { b with lockCalls := b.lockCalls + 1, misuse := if o.proper st then b.misuse else (o, l) :: b.misuse }

/-- The memory. `cells` counts the entries ever allocated, `freed` lists the blocks given back. -/
@[ext] structure World where
  heads : Addr → Option HashTable
  slabs : Addr → Option Slab
  ents : EntryPtr → Entry
  locks : LockId → LockState
  mallocs : Nat
  cells : Nat
  freed : List Addr
  book : Book

namespace World

/-- The entry lies in an allocated slab. -/
def valid (w : World) (p : EntryPtr) : Bool :=
  match w.slabs p.1 with
  | some sl => decide (p.2 < sl.size)
  | none => false

def setHead (w : World) (h : Addr) (ht : HashTable) : World :=
  { w with heads := fun a => if a = h then some ht else w.heads a }

def setSlab (w : World) (s : Addr) (sl : Slab) : World :=
  { w with slabs := fun a => if a = s then some sl else w.slabs a }

def setEnt (w : World) (p : EntryPtr) (e : Entry) : World :=
  { w with ents := fun q => if q = p then e else w.ents q }

def setLock (w : World) (l : LockId) (st : LockState) : World :=
  { w with locks := fun k => if k = l then st else w.locks k }

def setErrno (w : World) (e : Int) : World :=
  { w with book := { w.book with errno := e } }

def setStats (w : World) (h : Addr) (s : Stats) : World :=
  { w with book := { w.book with stats := fun a => if a = h then s else w.book.stats a } }

end World

/-- Averages and counters before their initialisation. -/
def Stats.zero : Stats := ⟨fun _ => ⟨0, 0, 0, 0⟩, fun _ => 0⟩

/-- The memory before the first call. -/
def World.empty : World where
  heads _ := none
  slabs _ := none
  ents _ := ⟨none, 0, 0, ⟨false, false⟩⟩
  locks _ := .uninit
  mallocs := 0
  cells := 0
  freed := []
  book := ⟨fun _ => Stats.zero, 0, 0, []⟩

/-! ## Statistics -/

/-- An access to the statistics of a table. -/
inductive StatOp
  | initAverage (a : AverageId)
  | updateAverage (a : AverageId) (count sum current maximum : UInt64)
  | incrementAverage (a : AverageId) (current : UInt64)
  | getAverage (a : AverageId)
  | initCounter (c : CounterId)
  | addCounter (c : CounterId) (delta : UInt64)
  | getCounter (c : CounterId)

def StatOp.Res : StatOp → Type
  | .getAverage _ => Average
  | .getCounter _ => UInt64
  | _ => Unit

/-- The body of `ht_average_update`: counts are summed, `maximum` is the largest value seen. -/
def Average.update (v : Average) (count sum current maximum : UInt64) : Average :=
  let m := if v.maximum < maximum then maximum else v.maximum
  ⟨v.count + count, v.sum + sum, current, if m < current then current else m⟩

/-- The body of `ht_average_increment`. -/
def Average.increment (v : Average) (current : UInt64) : Average :=
  ⟨v.count + 1, v.sum + current, current, if v.maximum < current then current else v.maximum⟩

def Stats.setAverage (s : Stats) (a : AverageId) (v : Average) : Stats :=
  { s with average := fun b => if b = a then v else s.average b }

def Stats.setCounter (s : Stats) (c : CounterId) (v : UInt64) : Stats :=
  { s with counter := fun d => if d = c then v else s.counter d }

/-- The effect of an access to the statistics. -/
def StatOp.run : (o : StatOp) → Stats → o.Res × Stats
  | .initAverage a, s => ((), s.setAverage a ⟨0, 0, 0, 0⟩)
  | .updateAverage a n m c x, s => ((), s.setAverage a ((s.average a).update n m c x))
  | .incrementAverage a c, s => ((), s.setAverage a ((s.average a).increment c))
  | .getAverage a, s => (s.average a, s)
  | .initCounter c, s => ((), s.setCounter c 0)
  | .addCounter c d, s => ((), s.setCounter c (s.counter c + d))
  | .getCounter c, s => (s.counter c, s)

/-! ## Atomic accesses -/

/-- Which of its two uses a read of `ht->table` serves: the size of the table, or its entries. -/
inductive TableUse
  | count | entry
  deriving DecidableEq, Repr

/-- The atomic accesses of the library. -/
inductive Op
  | lock (o : LockOp) (l : LockId)
  | getErrno
  | setErrno (e : Int)
  | bound
  | fault
  | mallocHead
  | mallocSlab (numents : Nat)
  | freeHead (h : Addr)
  | freeSlab (s : Addr)
  | initHead (h : Addr) (keysize : Int) (options : Options) (threshold : Threshold)
  | getKeysize (h : Addr)
  | getOptions (h : Addr)
  | getThreshold (h : Addr)
  | getOld (h : Addr)
  | setOld (h : Addr) (v : Option Addr)
  | getSlabs (h : Addr)
  | setSlabs (h : Addr) (v : Option Addr)
  | getTable (h : Addr) (use : TableUse)
  | setTable (h : Addr) (v : Option Addr)
  | getFreechain (h : Addr)
  | setFreechain (h : Addr) (v : Option EntryPtr)
  | initSlab (s : Addr) (numents : Nat)
  | clearSlab (s : Addr)
  | getSlabNext (s : Addr)
  | setSlabNext (s : Addr) (v : Option Addr)
  | getEntrycount (s : Addr)
  | getEntry (s : Addr) (i : Nat)
  | getNext (p : EntryPtr)
  | setNext (p : EntryPtr) (v : Option EntryPtr)
  | getKey (p : EntryPtr)
  | setKey (p : EntryPtr) (v : Nat)
  | getData (p : EntryPtr)
  | setData (p : EntryPtr) (v : Nat)
  | getFlags (p : EntryPtr)
  | setFlags (p : EntryPtr) (v : EntryFlags)
  | stat (h : Addr) (o : StatOp)

/-- The result of an access. -/
def Op.Res : Op → Type
  | .lock _ _ | .getErrno | .getKeysize _ => Int
  | .bound | .getEntrycount _ | .getKey _ | .getData _ => Nat
  | .fault => Empty
  | .mallocHead | .mallocSlab _ | .getOld _ | .getSlabs _ | .getTable _ _ | .getSlabNext _ => Option Addr
  | .getOptions _ => Options
  | .getThreshold _ => Option Threshold
  | .getFreechain _ | .getNext _ => Option EntryPtr
  | .getEntry _ _ => EntryPtr
  | .getFlags _ => EntryFlags
  | .stat _ o => o.Res
  | _ => Unit

/-- The programs of the library. -/
abbrev Code (α : Type) := Prog Op Op.Res α

/-- A lock call. Its result decides whether the lock changes; a call that is no correct use is noted. -/
def lockStep (env : Env) (o : LockOp) (l : LockId) (w : World) : Int × World :=
  let st := w.locks l
  let ret := env.lockRet w.book.lockCalls o l st
  let w := { w with book := w.book.lockCall o l st }
  (ret, if ret = 0 then w.setLock l o.after else w)

/-- A fresh table head. -/
def World.allocHead (w : World) (f : Fill) : World :=
  { w.setHead w.mallocs f.head with mallocs := w.mallocs + 1 }

/-- A fresh slab with room for `n` entries. -/
def World.allocSlab (w : World) (n : Nat) (f : Fill) : World :=
  { w.setSlab w.mallocs ⟨f.next, f.entrycount, n⟩ with
    ents := fun p => if p.1 = w.mallocs ∧ p.2 < n then f.entry p.2 else w.ents p
    mallocs := w.mallocs + 1
    cells := w.cells + n }

/-- An access to a table head. -/
def onHead {β : Type} (w : World) (h : Addr) (k : HashTable → β × World) : Option (β × World) :=
  (w.heads h).map k

/-- An access to a slab header. -/
def onSlab {β : Type} (w : World) (s : Addr) (k : Slab → β × World) : Option (β × World) :=
  (w.slabs s).map k

/-- An access to an entry. -/
def onEnt {β : Type} (w : World) (p : EntryPtr) (k : Entry → β × World) : Option (β × World) :=
  if w.valid p then some (k (w.ents p)) else none

/-- What an access does when one thread runs alone. `bound` is a number of rounds after which a walk that never
visits the same entry or block twice has ended. -/
def step (env : Env) : (o : Op) → World → Option (o.Res × World)
  | .lock o l, w => some (lockStep env o l w)
  | .getErrno, w => some (w.book.errno, w)
  | .setErrno e, w => some ((), w.setErrno e)
  | .bound, w => some (w.cells + w.mallocs + 1, w)
  | .fault, _ => none
  | .mallocHead, w =>
    match env.malloc w.mallocs with
    | none => some (none, { w with mallocs := w.mallocs + 1 })
    | some f => some (some w.mallocs, w.allocHead f)
  | .mallocSlab n, w =>
    match env.malloc w.mallocs with
    | none => some (none, { w with mallocs := w.mallocs + 1 })
    | some f => some (some w.mallocs, w.allocSlab n f)
  | .freeHead h, w =>
    onHead w h fun _ => ((), { w with heads := fun a => if a = h then none else w.heads a, freed := h :: w.freed })
  | .freeSlab s, w =>
    onSlab w s fun _ => ((), { w with slabs := fun a => if a = s then none else w.slabs a, freed := s :: w.freed })
  | .initHead h ks opts thr, w =>
    onHead w h fun ht =>
      ((), w.setHead h { ht with keysize := ks, options := opts, thresholdEvaluate := some thr, freechain := none })
  | .getKeysize h, w => onHead w h fun ht => (ht.keysize, w)
  | .getOptions h, w => onHead w h fun ht => (ht.options, w)
  | .getThreshold h, w => onHead w h fun ht => (ht.thresholdEvaluate, w)
  | .getOld h, w => onHead w h fun ht => (ht.old, w)
  | .setOld h v, w => onHead w h fun ht => ((), w.setHead h { ht with old := v })
  | .getSlabs h, w => onHead w h fun ht => (ht.slabs, w)
  | .setSlabs h v, w => onHead w h fun ht => ((), w.setHead h { ht with slabs := v })
  | .getTable h _, w => onHead w h fun ht => (ht.table, w)
  | .setTable h v, w => onHead w h fun ht => ((), w.setHead h { ht with table := v })
  | .getFreechain h, w => onHead w h fun ht => (ht.freechain, w)
  | .setFreechain h v, w => onHead w h fun ht => ((), w.setHead h { ht with freechain := v })
  | .initSlab s n, w => onSlab w s fun sl => ((), w.setSlab s { sl with entrycount := n })
  | .clearSlab s, w => onSlab w s fun sl => ((), w.setSlab s { sl with next := none, entrycount := 0 })
  | .getSlabNext s, w => onSlab w s fun sl => (sl.next, w)
  | .setSlabNext s v, w => onSlab w s fun sl => ((), w.setSlab s { sl with next := v })
  | .getEntrycount s, w => onSlab w s fun sl => (sl.entrycount, w)
  | .getEntry s i, w => onSlab w s fun _ => ((s, i), w)
  | .getNext p, w => onEnt w p fun e => (e.next, w)
  | .setNext p v, w => onEnt w p fun e => ((), w.setEnt p { e with next := v })
  | .getKey p, w => onEnt w p fun e => (e.key, w)
  | .setKey p v, w => onEnt w p fun e => ((), w.setEnt p { e with key := v })
  | .getData p, w => onEnt w p fun e => (e.data, w)
  | .setData p v, w => onEnt w p fun e => ((), w.setEnt p { e with data := v })
  | .getFlags p, w => onEnt w p fun e => (e.flags, w)
  | .setFlags p v, w => onEnt w p fun e => ((), w.setEnt p { e with flags := v })
  | .stat h o, w => onHead w h fun _ => ((o.run (w.book.stats h)).1, w.setStats h (o.run (w.book.stats h)).2)

end ZfsTest.Hashtable
