import ZfsTest.Hashtable.Calls
import ZfsTest.Prog.Chain

/-!
# Rules for the accesses

One rewriting rule for each access (`wp_getNext`, `wp_setNext`, …): the weakest precondition of the access followed by
`k` is that of `k` at the value read, in the memory after the write. Statistics and `errno` are collected in one place
of the memory term (`World.withBook`), so that the rules for the functions of `Code.lean` need not describe them.

A lock call that is a correct use of the lock returns `0` (`LockOk`); the two environments of interest are the one in
which every lock call returns `0` (`AllZero`) and the one in which exactly the correct uses do (`Checked`).
-/

namespace ZfsTest.Hashtable

open Prog

/-! ## Memory terms -/

namespace World

/-- The memory with other statistics and another `errno`. -/
def withBook (w : World) (b : Book) : World := { w with book := b }

/-- The block holds a table head. -/
def hasHead (w : World) (h : Addr) : Bool := (w.heads h).isSome

/-- The block holds a slab. -/
def hasSlab (w : World) (s : Addr) : Bool := (w.slabs s).isSome

/-- The memory after a `malloc` that failed. -/
def noMalloc (w : World) : World := { w with mallocs := w.mallocs + 1 }

/-- The memory after `free` of a table head. -/
def dropHead (w : World) (h : Addr) : World :=
  { w with heads := fun a => if a = h then none else w.heads a, freed := h :: w.freed }

/-- The memory after `free` of a slab. -/
def dropSlab (w : World) (s : Addr) : World :=
  { w with slabs := fun a => if a = s then none else w.slabs a, freed := s :: w.freed }

/-- The table head in a block. -/
def head (w : World) (h : Addr) : HashTable := (w.heads h).getD ⟨0, ⟨false, false⟩, none, none, none, none, none⟩

/-- The slab header in a block. -/
def slab (w : World) (s : Addr) : Slab := (w.slabs s).getD ⟨none, 0, 0⟩

theorem heads_eq {w : World} {h : Addr} (hh : w.hasHead h = true) : w.heads h = some (w.head h) := by
  unfold hasHead at hh
  unfold head
  cases hw : w.heads h with
  | none => simp [hw] at hh
  | some ht => rfl

theorem slabs_eq {w : World} {s : Addr} (hs : w.hasSlab s = true) : w.slabs s = some (w.slab s) := by
  unfold hasSlab at hs
  unfold slab
  cases hw : w.slabs s with
  | none => simp [hw] at hs
  | some sl => rfl

theorem valid_eq {w : World} {p : EntryPtr} : w.valid p = (w.hasSlab p.1 && decide (p.2 < (w.slab p.1).size)) := by
  unfold valid hasSlab slab
  cases w.slabs p.1 <;> simp

section Terms

variable (w : World) (b b' : Book) (h a s : Addr) (ht : HashTable) (sl : Slab) (p q : EntryPtr) (e : Entry) (l : LockId)
  (st : LockState) (n : Int)

@[simp] theorem withBook_ents : (w.withBook b).ents = w.ents := rfl
@[simp] theorem withBook_heads : (w.withBook b).heads = w.heads := rfl
@[simp] theorem withBook_slabs : (w.withBook b).slabs = w.slabs := rfl
@[simp] theorem withBook_locks : (w.withBook b).locks = w.locks := rfl
@[simp] theorem withBook_mallocs : (w.withBook b).mallocs = w.mallocs := rfl
@[simp] theorem withBook_cells : (w.withBook b).cells = w.cells := rfl
@[simp] theorem withBook_freed : (w.withBook b).freed = w.freed := rfl
@[simp] theorem withBook_book : (w.withBook b).book = b := rfl
@[simp] theorem withBook_hasHead : (w.withBook b).hasHead h = w.hasHead h := rfl
@[simp] theorem withBook_hasSlab : (w.withBook b).hasSlab s = w.hasSlab s := rfl
@[simp] theorem withBook_head : (w.withBook b).head h = w.head h := rfl
@[simp] theorem withBook_slab : (w.withBook b).slab s = w.slab s := rfl
@[simp] theorem withBook_valid : (w.withBook b).valid p = w.valid p := rfl
@[simp] theorem withBook_withBook : (w.withBook b).withBook b' = w.withBook b' := rfl
@[simp] theorem withBook_setHead : (w.withBook b).setHead h ht = (w.setHead h ht).withBook b := rfl
@[simp] theorem withBook_setSlab : (w.withBook b).setSlab s sl = (w.setSlab s sl).withBook b := rfl
@[simp] theorem withBook_setEnt : (w.withBook b).setEnt p e = (w.setEnt p e).withBook b := rfl
@[simp] theorem withBook_setLock : (w.withBook b).setLock l st = (w.setLock l st).withBook b := rfl
@[simp] theorem setStats_eq (x : Stats) :
    w.setStats h x = w.withBook { w.book with stats := fun a => if a = h then x else w.book.stats a } := rfl
@[simp] theorem setErrno_eq : w.setErrno n = w.withBook { w.book with errno := n } := rfl

@[simp] theorem setHead_ents : (w.setHead h ht).ents = w.ents := rfl
@[simp] theorem setHead_slabs : (w.setHead h ht).slabs = w.slabs := rfl
@[simp] theorem setHead_locks : (w.setHead h ht).locks = w.locks := rfl
@[simp] theorem setHead_book : (w.setHead h ht).book = w.book := rfl
@[simp] theorem setHead_mallocs : (w.setHead h ht).mallocs = w.mallocs := rfl
@[simp] theorem setHead_cells : (w.setHead h ht).cells = w.cells := rfl
@[simp] theorem setHead_freed : (w.setHead h ht).freed = w.freed := rfl
@[simp] theorem setHead_slab : (w.setHead h ht).slab s = w.slab s := rfl
@[simp] theorem setHead_hasSlab : (w.setHead h ht).hasSlab s = w.hasSlab s := rfl
@[simp] theorem setHead_valid : (w.setHead h ht).valid p = w.valid p := rfl

@[simp] theorem setHead_heads : (w.setHead h ht).heads a = if a = h then some ht else w.heads a := rfl

@[simp] theorem setHead_hasHead : (w.setHead h ht).hasHead a = (decide (a = h) || w.hasHead a) := by
  unfold hasHead
  by_cases ha : a = h <;> simp [setHead, ha]

@[simp] theorem setHead_head : (w.setHead h ht).head a = if a = h then ht else w.head a := by
  unfold head
  by_cases ha : a = h <;> simp [setHead, ha]

@[simp] theorem setSlab_ents : (w.setSlab s sl).ents = w.ents := rfl
@[simp] theorem setSlab_heads : (w.setSlab s sl).heads = w.heads := rfl
@[simp] theorem setSlab_locks : (w.setSlab s sl).locks = w.locks := rfl
@[simp] theorem setSlab_book : (w.setSlab s sl).book = w.book := rfl
@[simp] theorem setSlab_mallocs : (w.setSlab s sl).mallocs = w.mallocs := rfl
@[simp] theorem setSlab_cells : (w.setSlab s sl).cells = w.cells := rfl
@[simp] theorem setSlab_freed : (w.setSlab s sl).freed = w.freed := rfl
@[simp] theorem setSlab_head : (w.setSlab s sl).head h = w.head h := rfl
@[simp] theorem setSlab_hasHead : (w.setSlab s sl).hasHead h = w.hasHead h := rfl

@[simp] theorem setSlab_slabs : (w.setSlab s sl).slabs a = if a = s then some sl else w.slabs a := rfl

@[simp] theorem setSlab_hasSlab : (w.setSlab s sl).hasSlab a = (decide (a = s) || w.hasSlab a) := by
  unfold hasSlab
  by_cases ha : a = s <;> simp [setSlab, ha]

@[simp] theorem setSlab_slab : (w.setSlab s sl).slab a = if a = s then sl else w.slab a := by
  unfold slab
  by_cases ha : a = s <;> simp [setSlab, ha]

@[simp] theorem setEnt_heads : (w.setEnt p e).heads = w.heads := rfl
@[simp] theorem setEnt_slabs : (w.setEnt p e).slabs = w.slabs := rfl
@[simp] theorem setEnt_locks : (w.setEnt p e).locks = w.locks := rfl
@[simp] theorem setEnt_book : (w.setEnt p e).book = w.book := rfl
@[simp] theorem setEnt_mallocs : (w.setEnt p e).mallocs = w.mallocs := rfl
@[simp] theorem setEnt_cells : (w.setEnt p e).cells = w.cells := rfl
@[simp] theorem setEnt_freed : (w.setEnt p e).freed = w.freed := rfl
@[simp] theorem setEnt_head : (w.setEnt p e).head h = w.head h := rfl
@[simp] theorem setEnt_hasHead : (w.setEnt p e).hasHead h = w.hasHead h := rfl
@[simp] theorem setEnt_slab : (w.setEnt p e).slab s = w.slab s := rfl
@[simp] theorem setEnt_hasSlab : (w.setEnt p e).hasSlab s = w.hasSlab s := rfl
@[simp] theorem setEnt_valid : (w.setEnt p e).valid q = w.valid q := rfl
@[simp] theorem setEnt_ents : (w.setEnt p e).ents q = if q = p then e else w.ents q := rfl

@[simp] theorem setLock_heads : (w.setLock l st).heads = w.heads := rfl
@[simp] theorem setLock_slabs : (w.setLock l st).slabs = w.slabs := rfl
@[simp] theorem setLock_ents : (w.setLock l st).ents = w.ents := rfl
@[simp] theorem setLock_book : (w.setLock l st).book = w.book := rfl
@[simp] theorem setLock_mallocs : (w.setLock l st).mallocs = w.mallocs := rfl
@[simp] theorem setLock_cells : (w.setLock l st).cells = w.cells := rfl
@[simp] theorem setLock_freed : (w.setLock l st).freed = w.freed := rfl
@[simp] theorem setLock_head : (w.setLock l st).head h = w.head h := rfl
@[simp] theorem setLock_hasHead : (w.setLock l st).hasHead h = w.hasHead h := rfl
@[simp] theorem setLock_slab : (w.setLock l st).slab s = w.slab s := rfl
@[simp] theorem setLock_hasSlab : (w.setLock l st).hasSlab s = w.hasSlab s := rfl
@[simp] theorem setLock_valid : (w.setLock l st).valid p = w.valid p := rfl
@[simp] theorem setLock_locks (k : LockId) : (w.setLock l st).locks k = if k = l then st else w.locks k := rfl

@[simp] theorem setLock_setEnt : (w.setLock l st).setEnt p e = (w.setEnt p e).setLock l st := rfl
@[simp] theorem setLock_setHead : (w.setLock l st).setHead h ht = (w.setHead h ht).setLock l st := rfl
@[simp] theorem setLock_setSlab : (w.setLock l st).setSlab s sl = (w.setSlab s sl).setLock l st := rfl
@[simp] theorem setLock_noMalloc : (w.setLock l st).noMalloc = w.noMalloc.setLock l st := rfl

@[simp] theorem noMalloc_ents : (w.noMalloc).ents = w.ents := rfl
@[simp] theorem noMalloc_locks : (w.noMalloc).locks = w.locks := rfl
@[simp] theorem noMalloc_book : (w.noMalloc).book = w.book := rfl
@[simp] theorem noMalloc_cells : (w.noMalloc).cells = w.cells := rfl
@[simp] theorem noMalloc_heads : (w.noMalloc).heads = w.heads := rfl
@[simp] theorem noMalloc_slabs : (w.noMalloc).slabs = w.slabs := rfl
@[simp] theorem noMalloc_freed : (w.noMalloc).freed = w.freed := rfl
@[simp] theorem noMalloc_mallocs : w.noMalloc.mallocs = w.mallocs + 1 := rfl
@[simp] theorem noMalloc_head : w.noMalloc.head h = w.head h := rfl
@[simp] theorem noMalloc_hasHead : w.noMalloc.hasHead h = w.hasHead h := rfl
@[simp] theorem noMalloc_slab : w.noMalloc.slab s = w.slab s := rfl
@[simp] theorem noMalloc_hasSlab : w.noMalloc.hasSlab s = w.hasSlab s := rfl
@[simp] theorem withBook_noMalloc : (w.withBook b).noMalloc = (w.noMalloc).withBook b := rfl

@[simp] theorem dropHead_ents : (w.dropHead h).ents = w.ents := rfl
@[simp] theorem dropHead_locks : (w.dropHead h).locks = w.locks := rfl
@[simp] theorem dropHead_book : (w.dropHead h).book = w.book := rfl
@[simp] theorem dropHead_cells : (w.dropHead h).cells = w.cells := rfl
@[simp] theorem dropHead_slabs : (w.dropHead h).slabs = w.slabs := rfl
@[simp] theorem dropHead_mallocs : (w.dropHead h).mallocs = w.mallocs := rfl
@[simp] theorem dropHead_heads : (w.dropHead h).heads a = if a = h then none else w.heads a := rfl
@[simp] theorem dropHead_freed : (w.dropHead h).freed = h :: w.freed := rfl
@[simp] theorem dropHead_slab : (w.dropHead h).slab s = w.slab s := rfl
@[simp] theorem dropHead_hasSlab : (w.dropHead h).hasSlab s = w.hasSlab s := rfl
@[simp] theorem withBook_dropHead : (w.withBook b).dropHead h = (w.dropHead h).withBook b := rfl

@[simp] theorem dropSlab_ents : (w.dropSlab s).ents = w.ents := rfl
@[simp] theorem dropSlab_locks : (w.dropSlab s).locks = w.locks := rfl
@[simp] theorem dropSlab_book : (w.dropSlab s).book = w.book := rfl
@[simp] theorem dropSlab_cells : (w.dropSlab s).cells = w.cells := rfl
@[simp] theorem dropSlab_heads : (w.dropSlab s).heads = w.heads := rfl
@[simp] theorem dropSlab_mallocs : (w.dropSlab s).mallocs = w.mallocs := rfl
@[simp] theorem dropSlab_slabs : (w.dropSlab s).slabs a = if a = s then none else w.slabs a := rfl
@[simp] theorem dropSlab_freed : (w.dropSlab s).freed = s :: w.freed := rfl
@[simp] theorem dropSlab_head : (w.dropSlab s).head h = w.head h := rfl
@[simp] theorem dropSlab_hasHead : (w.dropSlab s).hasHead h = w.hasHead h := rfl
@[simp] theorem withBook_dropSlab : (w.withBook b).dropSlab s = (w.dropSlab s).withBook b := rfl

@[simp] theorem setEnt_setEnt (e' : Entry) : (w.setEnt p e).setEnt p e' = w.setEnt p e' := by
  have : (fun q => if q = p then e' else if q = p then e else w.ents q) = fun q => if q = p then e' else w.ents q := by
    funext q
    by_cases hq : q = p <;> simp [hq]
  show ({ w with ents := _ } : World) = _
  simp only [setEnt, this]

theorem setEnt_setEnt_between {w : World} {p q : EntryPtr} (e₁ e₂ e₃ : Entry) :
    ((w.setEnt p e₁).setEnt q e₂).setEnt p e₃ = (w.setEnt q e₂).setEnt p e₃ := by
  have : (fun x => if x = p then e₃ else if x = q then e₂ else if x = p then e₁ else w.ents x) =
      fun x => if x = p then e₃ else if x = q then e₂ else w.ents x := by
    funext x
    by_cases hx : x = p <;> simp [hx]
  simp only [setEnt, this]

@[simp] theorem setHead_setHead (ht' : HashTable) : (w.setHead h ht).setHead h ht' = w.setHead h ht' := by
  have : (fun a => if a = h then some ht' else if a = h then some ht else w.heads a) =
      fun a => if a = h then some ht' else w.heads a := by
    funext a
    by_cases ha : a = h <;> simp [ha]
  show ({ w with heads := _ } : World) = _
  simp only [setHead, this]

@[simp] theorem setSlab_setSlab (sl' : Slab) : (w.setSlab s sl).setSlab s sl' = w.setSlab s sl' := by
  have : (fun a => if a = s then some sl' else if a = s then some sl else w.slabs a) =
      fun a => if a = s then some sl' else w.slabs a := by
    funext a
    by_cases ha : a = s <;> simp [ha]
  show ({ w with slabs := _ } : World) = _
  simp only [setSlab, this]

@[simp] theorem setLock_setLock (st' : LockState) : (w.setLock l st).setLock l st' = w.setLock l st' := by
  have : (fun k => if k = l then st' else if k = l then st else w.locks k) = fun k => if k = l then st' else w.locks k := by
    funext k
    by_cases hk : k = l <;> simp [hk]
  show ({ w with locks := _ } : World) = _
  simp only [setLock, this]

theorem setLock_comm {w : World} {l l' : LockId} (hl : l ≠ l') (st st' : LockState) :
    (w.setLock l st).setLock l' st' = (w.setLock l' st').setLock l st := by
  have : (fun k => if k = l' then st' else if k = l then st else w.locks k) =
      fun k => if k = l then st else if k = l' then st' else w.locks k := by
    funext k
    by_cases hk : k = l
    · subst hk; simp [hl]
    · simp [hk]
  simp only [setLock, this]

/-- A lock put in the state it is in. -/
theorem setLock_self {w : World} {l : LockId} {st : LockState} (hl : w.locks l = st) : w.setLock l st = w := by
  have : (fun k => if k = l then st else w.locks k) = w.locks := by
    funext k
    by_cases hk : k = l
    · rw [hk, if_pos rfl, hl]
    · rw [if_neg hk]
  show ({ w with locks := _ } : World) = w
  rw [this]

/-- Taking a free lock and giving it back changes nothing. -/
theorem setLock_setLock_free {w : World} {l : LockId} {st st' : LockState} (hl : w.locks l = st') :
    (w.setLock l st).setLock l st' = w := by
  rw [setLock_setLock, setLock_self hl]

/-- Taking a free lock and giving it back, with another lock changed in between. -/
theorem setLock_setLock_between {w : World} {l l' : LockId} (hne : l ≠ l') {st st' : LockState} (hl : w.locks l = .free) :
    ((w.setLock l st).setLock l' st').setLock l .free = w.setLock l' st' := by
  rw [setLock_comm hne, setLock_setLock, setLock_self]
  simpa [hne] using hl

end Terms

end World

/-! ## Environments -/

/-- Every correct use of a lock returns `0`. -/
def LockOk (env : Env) : Prop := ∀ n o l st, LockOp.proper o st = true → env.lockRet n o l st = 0

/-- Every lock call returns `0`. -/
def AllZero (env : Env) : Prop := ∀ n o l st, env.lockRet n o l st = 0

/-- Exactly the correct uses of a lock return `0`. -/
def Checked (env : Env) : Prop := ∀ n o l st, env.lockRet n o l st = 0 ↔ LockOp.proper o st = true

theorem AllZero.ok {env : Env} (h : AllZero env) : LockOk env := fun n o l st _ => h n o l st

theorem Checked.ok {env : Env} (h : Checked env) : LockOk env := fun n o l st hp => (h n o l st).mpr hp

/-- The run of `p` from `w` ends with a result and a memory that satisfy `Q`. -/
abbrev wp {α : Type} (env : Env) (p : Code α) (Q : α → World → Prop) (w : World) : Prop := Prog.Wp (step env) p Q w

/-! ## The rules -/

theorem onHead_eq {α : Type} {w : World} {h : Addr} (hh : w.hasHead h = true) (f : HashTable → α × World) :
    onHead w h f = some (f (w.head h)) := by
  rw [onHead, World.heads_eq hh, Option.map_some]

theorem onSlab_eq {α : Type} {w : World} {s : Addr} (hs : w.hasSlab s = true) (f : Slab → α × World) :
    onSlab w s f = some (f (w.slab s)) := by
  rw [onSlab, World.slabs_eq hs, Option.map_some]

section Rules

variable {env : Env} {β : Type} {w : World} {Q : β → World → Prop} {h s : Addr} {p : EntryPtr}

theorem wp_bound {k : Nat → Code β} : wp env (bound >>= k) Q w ↔ wp env (k (w.cells + w.mallocs + 1)) Q w :=
  wp_op_of rfl

theorem wp_getErrno {k : Int → Code β} : wp env (getErrno >>= k) Q w ↔ wp env (k w.book.errno) Q w := wp_op_of rfl

theorem wp_setErrno {e : Int} {k : Unit → Code β} :
    wp env (setErrno e >>= k) Q w ↔ wp env (k ()) Q (w.withBook { w.book with errno := e }) := wp_op_of rfl

/-- A lock call that is a correct use. -/
theorem wp_lockCall (hok : LockOk env) {o : LockOp} {l : LockId} {k : Int → Code β} (hp : o.proper (w.locks l) = true) :
    wp env (lockCall o l >>= k) Q w ↔
      wp env (k 0) Q ((w.setLock l o.after).withBook { w.book with lockCalls := w.book.lockCalls + 1 }) := by
  apply wp_op_of
  show some (lockStep env o l w) = _
  simp only [lockStep, hok _ _ _ _ hp, Book.lockCall, hp, ↓reduceIte]
  rfl

/-- Any lock call: it succeeds and changes the lock, or fails and does not. -/
theorem wp_lockCall_any {o : LockOp} {l : LockId} {k : Int → Code β} {r : Int}
    (hr : env.lockRet w.book.lockCalls o l (w.locks l) = r) :
    wp env (lockCall o l >>= k) Q w ↔
      wp env (k r) Q
        ((if r = 0 then w.setLock l o.after else w).withBook (w.book.lockCall o l (w.locks l))) := by
  subst hr
  apply wp_op_of
  show some (lockStep env o l w) = _
  unfold lockStep
  by_cases hr : env.lockRet w.book.lockCalls o l (w.locks l) = 0 <;> simp only [hr, ↓reduceIte] <;> rfl

section Head

variable (hh : w.hasHead h = true)
include hh

theorem wp_initHead {ks : Int} {opts : Options} {thr : Threshold} {k : Unit → Code β} :
    wp env (initHead h ks opts thr >>= k) Q w ↔ wp env (k ()) Q (w.setHead h
      { w.head h with keysize := ks, options := opts, thresholdEvaluate := some thr, freechain := none }) :=
  wp_op_of (onHead_eq hh _)

theorem wp_freeHead {k : Unit → Code β} :
    wp env (freeHead h >>= k) Q w ↔ wp env (k ()) Q (w.dropHead h) :=
  wp_op_of (onHead_eq hh _)

theorem wp_getKeysize {k : Int → Code β} : wp env (getKeysize h >>= k) Q w ↔ wp env (k (w.head h).keysize) Q w :=
  wp_op_of (onHead_eq hh _)

theorem wp_getOptions {k : Options → Code β} : wp env (getOptions h >>= k) Q w ↔ wp env (k (w.head h).options) Q w :=
  wp_op_of (onHead_eq hh _)

theorem wp_getThreshold {k : Option Threshold → Code β} :
    wp env (getThreshold h >>= k) Q w ↔ wp env (k (w.head h).thresholdEvaluate) Q w :=
  wp_op_of (onHead_eq hh _)

theorem wp_getOld {k : Option Addr → Code β} : wp env (getOld h >>= k) Q w ↔ wp env (k (w.head h).old) Q w :=
  wp_op_of (onHead_eq hh _)

theorem wp_setOld {v : Option Addr} {k : Unit → Code β} :
    wp env (setOld h v >>= k) Q w ↔ wp env (k ()) Q (w.setHead h { w.head h with old := v }) :=
  wp_op_of (onHead_eq hh _)

theorem wp_getSlabs {k : Option Addr → Code β} : wp env (getSlabs h >>= k) Q w ↔ wp env (k (w.head h).slabs) Q w :=
  wp_op_of (onHead_eq hh _)

theorem wp_setSlabs {v : Option Addr} {k : Unit → Code β} :
    wp env (setSlabs h v >>= k) Q w ↔ wp env (k ()) Q (w.setHead h { w.head h with slabs := v }) :=
  wp_op_of (onHead_eq hh _)

theorem wp_readTable {u : TableUse} {k : Option Addr → Code β} :
    wp env (readTable h u >>= k) Q w ↔ wp env (k (w.head h).table) Q w :=
  wp_op_of (onHead_eq hh _)

theorem wp_getTable {u : TableUse} {t : Addr} {k : Addr → Code β} (ht : (w.head h).table = some t) :
    wp env (getTable h u >>= k) Q w ↔ wp env (k t) Q w := by
  unfold getTable
  rw [Prog.bind_assoc, wp_readTable hh, ht]
  rfl

theorem wp_setTable {v : Option Addr} {k : Unit → Code β} :
    wp env (setTable h v >>= k) Q w ↔ wp env (k ()) Q (w.setHead h { w.head h with table := v }) :=
  wp_op_of (onHead_eq hh _)

theorem wp_getFreechain {k : Option EntryPtr → Code β} :
    wp env (getFreechain h >>= k) Q w ↔ wp env (k (w.head h).freechain) Q w :=
  wp_op_of (onHead_eq hh _)

theorem wp_setFreechain {v : Option EntryPtr} {k : Unit → Code β} :
    wp env (setFreechain h v >>= k) Q w ↔ wp env (k ()) Q (w.setHead h { w.head h with freechain := v }) :=
  wp_op_of (onHead_eq hh _)

/-- A write of the statistics changes nothing else. -/
theorem wp_stat {o : StatOp} {k : o.Res → Code β} :
    wp env (Prog.op (.stat h o) k) Q w ↔
      wp env (k (o.run (w.book.stats h)).1) Q (w.setStats h (o.run (w.book.stats h)).2) :=
  wp_op_of (onHead_eq hh _)

theorem wp_initAverage {a : AverageId} {k : Unit → Code β} :
    wp env (initAverage h a >>= k) Q w ↔
      wp env (k ()) Q (w.setStats h ((w.book.stats h).setAverage a ⟨0, 0, 0, 0⟩)) := wp_stat hh

theorem wp_updateAverage {a : AverageId} {n m x y : UInt64} {k : Unit → Code β} :
    wp env (updateAverage h a n m x y >>= k) Q w ↔
      wp env (k ()) Q
        (w.setStats h ((w.book.stats h).setAverage a (((w.book.stats h).average a).update n m x y))) := wp_stat hh

theorem wp_incrementAverage {a : AverageId} {x : UInt64} {k : Unit → Code β} :
    wp env (incrementAverage h a x >>= k) Q w ↔
      wp env (k ()) Q
        (w.setStats h ((w.book.stats h).setAverage a (((w.book.stats h).average a).increment x))) := wp_stat hh

theorem wp_getAverage {a : AverageId} {k : Average → Code β} :
    wp env (getAverage h a >>= k) Q w ↔
      wp env (k ((w.book.stats h).average a)) Q (w.setStats h (w.book.stats h)) := wp_stat hh

theorem wp_initCounter {c : CounterId} {k : Unit → Code β} :
    wp env (initCounter h c >>= k) Q w ↔ wp env (k ()) Q (w.setStats h ((w.book.stats h).setCounter c 0)) := wp_stat hh

theorem wp_addCounter {c : CounterId} {d : UInt64} {k : Unit → Code β} :
    wp env (addCounter h c d >>= k) Q w ↔
      wp env (k ()) Q
        (w.setStats h ((w.book.stats h).setCounter c ((w.book.stats h).counter c + d))) := wp_stat hh

theorem wp_getCounter {c : CounterId} {k : UInt64 → Code β} :
    wp env (getCounter h c >>= k) Q w ↔
      wp env (k ((w.book.stats h).counter c)) Q (w.setStats h (w.book.stats h)) := wp_stat hh

end Head

section SlabRules

variable (hs : w.hasSlab s = true)
include hs

theorem wp_initSlab {n : Nat} {k : Unit → Code β} :
    wp env (initSlab s n >>= k) Q w ↔ wp env (k ()) Q (w.setSlab s { w.slab s with entrycount := n }) :=
  wp_op_of (onSlab_eq hs _)

theorem wp_clearSlab {k : Unit → Code β} :
    wp env (clearSlab s >>= k) Q w ↔ wp env (k ()) Q (w.setSlab s { w.slab s with next := none, entrycount := 0 }) :=
  wp_op_of (onSlab_eq hs _)

theorem wp_freeSlab {k : Unit → Code β} :
    wp env (freeSlab s >>= k) Q w ↔ wp env (k ()) Q (w.dropSlab s) :=
  wp_op_of (onSlab_eq hs _)

theorem wp_getSlabNext {k : Option Addr → Code β} : wp env (getSlabNext s >>= k) Q w ↔ wp env (k (w.slab s).next) Q w :=
  wp_op_of (onSlab_eq hs _)

theorem wp_setSlabNext {v : Option Addr} {k : Unit → Code β} :
    wp env (setSlabNext s v >>= k) Q w ↔ wp env (k ()) Q (w.setSlab s { w.slab s with next := v }) :=
  wp_op_of (onSlab_eq hs _)

theorem wp_getEntrycount {k : Nat → Code β} :
    wp env (getEntrycount s >>= k) Q w ↔ wp env (k (w.slab s).entrycount) Q w :=
  wp_op_of (onSlab_eq hs _)

theorem wp_getEntry {i : Nat} {k : EntryPtr → Code β} : wp env (getEntry s i >>= k) Q w ↔ wp env (k (s, i)) Q w :=
  wp_op_of (onSlab_eq hs _)

end SlabRules

section EntryRules

variable (hv : w.valid p = true)
include hv

theorem wp_getNext {k : Option EntryPtr → Code β} : wp env (getNext p >>= k) Q w ↔ wp env (k (w.ents p).next) Q w :=
  wp_op_of (if_pos hv)

theorem wp_setNext {v : Option EntryPtr} {k : Unit → Code β} :
    wp env (setNext p v >>= k) Q w ↔ wp env (k ()) Q (w.setEnt p { w.ents p with next := v }) :=
  wp_op_of (if_pos hv)

theorem wp_getKey {k : Nat → Code β} : wp env (getKey p >>= k) Q w ↔ wp env (k (w.ents p).key) Q w :=
  wp_op_of (if_pos hv)

theorem wp_setKey {v : Nat} {k : Unit → Code β} :
    wp env (setKey p v >>= k) Q w ↔ wp env (k ()) Q (w.setEnt p { w.ents p with key := v }) :=
  wp_op_of (if_pos hv)

theorem wp_getData {k : Nat → Code β} : wp env (getData p >>= k) Q w ↔ wp env (k (w.ents p).data) Q w :=
  wp_op_of (if_pos hv)

theorem wp_setData {v : Nat} {k : Unit → Code β} :
    wp env (setData p v >>= k) Q w ↔ wp env (k ()) Q (w.setEnt p { w.ents p with data := v }) :=
  wp_op_of (if_pos hv)

theorem wp_getFlags {k : EntryFlags → Code β} : wp env (getFlags p >>= k) Q w ↔ wp env (k (w.ents p).flags) Q w :=
  wp_op_of (if_pos hv)

theorem wp_setFlags {v : EntryFlags} {k : Unit → Code β} :
    wp env (setFlags p v >>= k) Q w ↔ wp env (k ()) Q (w.setEnt p { w.ents p with flags := v }) :=
  wp_op_of (if_pos hv)

end EntryRules

/-- No error to report. -/
@[simp] theorem onFail_zero {q : Code Unit} {k : Unit → Code β} : (onFail 0 q >>= k) = k () := rfl

/-- A function whose specification is known, followed by the rest. -/
theorem wp_spec {γ : Type} {q : Code γ} {f : γ → Code β} {P : γ → World → Prop} (hq : wp env q P w)
    (hf : ∀ a w', P a w' → wp env (f a) Q w') : wp env (q >>= f) Q w := wp_seq hq hf

/-- The last access of a program is an access followed by its result. -/
theorem wp_last {q : Code β} : wp env q Q w ↔ wp env (q >>= Prog.ret) Q w := by rw [Prog.bind_ret]

end Rules

end ZfsTest.Hashtable
