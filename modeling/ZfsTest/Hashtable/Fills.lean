import ZfsTest.Prog.Pair
import ZfsTest.Hashtable.Runs

/-!
# What fresh memory holds

A run is compared with the run in which `malloc` gives blocks of zeros (`Env.nulled`). The library writes every field of a fresh
block before it reads it, but for `ht->old` of a head and `header.next` of a slab. While a block is being set up the two memories
agree but for some fields (`Agree`). A new slab differs at most in `header.next` (`htCreateSlab_pair`), a new table at most in
`ht->old`, when `header.next` of its slab is null (`htCreate_pair`).
-/

namespace ZfsTest.Hashtable

open Prog

/-- The environment whose fresh blocks are zero. -/
def Env.nulled (env : Env) : Env := { env with malloc := fun n => (env.malloc n).map fun _ => Fill.zero }

/-- The two runs of a program. -/
abbrev Alike {α : Type} (env : Env) (I : World → World → Prop) (p : Code α) (J : α → World → World → Prop) : Prop :=
  Pair (step env) (step env.nulled) I p J

/-- Heads lie below the next block, and their threshold function is the default one. -/
def Tidy (w : World) : Prop :=
  ∀ a ht, w.heads a = some ht → a < w.mallocs ∧ ht.thresholdEvaluate = some htEvaluateThresholdDefault

/-! ## Agreement -/

/-- What is compared of a slab: not `header.next` of the slab `o`. -/
def hideNext (o : Option Addr) (a : Addr) (sl : Slab) : Slab := if o = some a then { sl with next := none } else sl

/-- The memories agree on what `K` and `N` keep of heads and entries, and on everything else but `header.next` of the slab `o`; `Z`
holds of the number of `malloc` calls. -/
structure Agree (Z : Nat → Prop) (K : Addr → HashTable → HashTable) (o : Option Addr) (N : EntryPtr → Entry → Entry) (w w' : World) : Prop where
  heads : ∀ a, (w.heads a).map (K a) = (w'.heads a).map (K a)
  slabs : ∀ a, (w.slabs a).map (hideNext o a) = (w'.slabs a).map (hideNext o a)
  ents : ∀ p, N p (w.ents p) = N p (w'.ents p)
  locks : w.locks = w'.locks
  mallocs : w.mallocs = w'.mallocs
  cells : w.cells = w'.cells
  freed : w.freed = w'.freed
  book : w.book = w'.book
  tidy : Tidy w
  count : Z w.mallocs

/-- Everything is compared. -/
def all {α β : Type} : α → β → β := fun _ => id

variable {env : Env} {Z : Nat → Prop} {K : Addr → HashTable → HashTable} {o : Option Addr} {N : EntryPtr → Entry → Entry}
  {w w' : World} {h s : Addr}

theorem hideNext_size (o : Option Addr) (a : Addr) (sl : Slab) : (hideNext o a sl).size = sl.size := by
  unfold hideNext
  split <;> rfl

theorem hideNext_entrycount (o : Option Addr) (a : Addr) (sl : Slab) : (hideNext o a sl).entrycount = sl.entrycount := by
  unfold hideNext
  split <;> rfl

theorem agree_both : Agree Z all none all w w' ↔ Both Tidy w w' ∧ Z w.mallocs := by
  constructor
  · intro ha
    have hheads : w.heads = w'.heads := by
      funext a
      simpa [all] using ha.heads a
    have hslabs : w.slabs = w'.slabs := by
      funext a
      have hid : hideNext none a = id := rfl
      simpa [hid] using ha.slabs a
    have hents : w.ents = w'.ents := funext ha.ents
    exact ⟨⟨World.ext hheads hslabs hents ha.locks ha.mallocs ha.cells ha.freed ha.book, ha.tidy⟩, ha.count⟩
  · rintro ⟨⟨rfl, ht⟩, hz⟩
    exact ⟨fun _ => rfl, fun _ => rfl, fun _ => rfl, rfl, rfl, rfl, rfl, rfl, ht, hz⟩

/-- The same blocks exist on both sides. -/
theorem map_eq_cases {β γ : Type} {f : β → γ} {x y : Option β} (hm : x.map f = y.map f) :
    (x = none ∧ y = none) ∨ ∃ a b, x = some a ∧ y = some b ∧ f a = f b := by
  cases x with
  | none => exact Or.inl ⟨rfl, Option.map_eq_none_iff.mp hm.symm⟩
  | some a =>
    obtain ⟨b, hb, hab⟩ := Option.map_eq_some_iff.mp hm.symm
    exact Or.inr ⟨a, b, rfl, hb, hab.symm⟩

theorem Agree.valid (ha : Agree Z K o N w w') (p : EntryPtr) : w.valid p = w'.valid p := by
  unfold World.valid
  rcases map_eq_cases (ha.slabs p.1) with ⟨hx, hy⟩ | ⟨x, y, hx, hy, hxy⟩
  · rw [hx, hy]
  · rw [hx, hy]
    have hsize := congrArg Slab.size hxy
    rw [hideNext_size, hideNext_size] at hsize
    simp only [hsize]

theorem Tidy.setHead (ht : Tidy w) {x y : HashTable} (hx : w.heads h = some x)
    (hy : y.thresholdEvaluate = some htEvaluateThresholdDefault) : Tidy (w.setHead h y) := by
  intro a z hz
  by_cases hah : a = h
  · subst hah
    rw [World.setHead] at hz
    simp only [↓reduceIte, Option.some.injEq] at hz
    exact ⟨(ht a x hx).1, hz ▸ hy⟩
  · rw [World.setHead] at hz
    simp only [hah, ↓reduceIte] at hz
    exact ht a z hz

/-! ## Accesses while a block is set up -/

/-- A lock call. -/
theorem Agree.lock (ha : Agree Z K o N w w') (op : LockOp) (l : LockId) :
    Ends (fun _ => Agree Z K o N) (step env (.lock op l) w) (step env.nulled (.lock op l) w') := by
  have hret : env.nulled.lockRet w'.book.lockCalls op l (w'.locks l) = env.lockRet w.book.lockCalls op l (w.locks l) := by
    rw [ha.book, ha.locks]
    rfl
  refine ⟨hret.symm, ?_⟩
  simp only [hret]
  split
  · exact ⟨ha.heads, ha.slabs, ha.ents, by simp [World.setLock, ha.locks], ha.mallocs, ha.cells, ha.freed,
      by simp [World.setLock, ha.book, ha.locks], ha.tidy, ha.count⟩
  · exact ⟨ha.heads, ha.slabs, ha.ents, ha.locks, ha.mallocs, ha.cells, ha.freed, by simp [ha.book, ha.locks], ha.tidy, ha.count⟩

theorem Agree.setErrno (ha : Agree Z K o N w w') (e : Int) :
    Ends (fun _ => Agree Z K o N) (step env (.setErrno e) w) (step env.nulled (.setErrno e) w') :=
  ⟨rfl, ha.heads, ha.slabs, ha.ents, ha.locks, ha.mallocs, ha.cells, ha.freed, by simp [World.setErrno, ha.book], ha.tidy, ha.count⟩

/-- An access to the statistics. -/
theorem Agree.stat (ha : Agree Z K o N w w') (a : Addr) (op : StatOp) :
    Ends (fun _ => Agree Z K o N) (step env (.stat a op) w) (step env.nulled (.stat a op) w') := by
  rcases map_eq_cases (ha.heads a) with ⟨hx, hy⟩ | ⟨x, y, hx, hy, -⟩
  · simp only [step, onHead, hx, hy, Option.map_none]
    trivial
  · simp only [step, onHead, hx, hy, Option.map_some]
    refine ⟨by rw [ha.book], ha.heads, ha.slabs, ha.ents, ha.locks, ha.mallocs, ha.cells, ha.freed, ?_, ha.tidy, ha.count⟩
    simp [World.setStats, ha.book]

theorem Agree.getEntrycount (ha : Agree Z K o N w w') {a : Addr} {n : Nat} (hn : (w.slabs a).map Slab.entrycount = some n) :
    Ends (fun k w w' => Agree Z K o N w w' ∧ k = n) (step env (.getEntrycount a) w) (step env.nulled (.getEntrycount a) w') := by
  obtain ⟨x, hx, hxn⟩ := Option.map_eq_some_iff.mp hn
  rcases map_eq_cases (ha.slabs a) with ⟨hx', -⟩ | ⟨x', y, hx', hy, hxy⟩
  · rw [hx] at hx'
    cases hx'
  · obtain rfl : x = x' := Option.some.inj (hx.symm.trans hx')
    have hcount := congrArg Slab.entrycount hxy
    rw [hideNext_entrycount, hideNext_entrycount] at hcount
    simp only [step, onSlab, hx, hy, Option.map_some]
    exact ⟨hcount, ha, hxn⟩

/-- A slab is given back: its `header.next` need not be compared any more. -/
theorem Agree.freeSlab (ha : Agree Z K o N w w') {a : Addr} (ho : o = none ∨ o = some a) :
    Ends (fun _ => Agree Z K none N) (step env (.freeSlab a) w) (step env.nulled (.freeSlab a) w') := by
  simp only [step, onSlab]
  rcases map_eq_cases (ha.slabs a) with ⟨hx, hy⟩ | ⟨x, y, hx, hy, hxy⟩
  · rw [hx, hy]
    trivial
  · rw [hx, hy]
    refine ⟨rfl, ha.heads, fun b => ?_, ha.ents, ha.locks, ha.mallocs, ha.cells, by rw [ha.freed], ha.book, ha.tidy, ha.count⟩
    by_cases hb : b = a
    · simp [hb]
    · have hhide : hideNext o b = hideNext none b := by
        funext sl
        rcases ho with rfl | rfl
        · rfl
        · simp [hideNext, Ne.symm hb]
      rw [← hhide]
      simpa [hb] using ha.slabs b

/-- The missing `header.next` is written. -/
theorem Agree.setSlabNext (ha : Agree Z K (some s) N w w') (v : Option Addr) :
    Ends (fun _ => Agree Z K none N) (step env (.setSlabNext s v) w) (step env.nulled (.setSlabNext s v) w') := by
  simp only [step, onSlab]
  rcases map_eq_cases (ha.slabs s) with ⟨hx, hy⟩ | ⟨x, y, hx, hy, hxy⟩
  · rw [hx, hy]
    trivial
  · rw [hx, hy]
    refine ⟨rfl, ha.heads, fun b => ?_, ha.ents, ha.locks, ha.mallocs, ha.cells, ha.freed, ha.book, ha.tidy, ha.count⟩
    by_cases hb : b = s
    · simp only [hideNext, ↓reduceIte, Slab.mk.injEq, true_and] at hxy
      simp [World.setSlab, hb, hxy]
    · have hhide : hideNext (some s) b = hideNext none b := by
        funext sl
        simp [hideNext, Ne.symm hb]
      rw [← hhide]
      simpa [World.setSlab, hb] using ha.slabs b

/-- The flags of an entry that is compared as a whole. -/
theorem Agree.getFlags (ha : Agree Z K o N w w') {p : EntryPtr} (hp : N p = id) :
    Ends (fun _ => Agree Z K o N) (step env (.getFlags p) w) (step env.nulled (.getFlags p) w') := by
  have hent := ha.ents p
  rw [hp] at hent
  simp only [step, onEnt, ha.valid]
  split
  · exact ⟨congrArg Entry.flags hent, ha⟩
  · trivial

/-- A write to an entry: `g` is compared of it afterwards. -/
theorem Agree.setEnt (ha : Agree Z K o N w w') {p : EntryPtr} (u g : Entry → Entry) (hg : ∀ e e', N p e = N p e' → g (u e) = g (u e')) :
    Ends (fun _ => Agree Z K o (Function.update N p g)) (onEnt w p fun e => ((), w.setEnt p (u e)))
      (onEnt w' p fun e => ((), w'.setEnt p (u e))) := by
  simp only [onEnt, ha.valid]
  split
  · refine ⟨rfl, ha.heads, ha.slabs, fun q => ?_, ha.locks, ha.mallocs, ha.cells, ha.freed, ha.book, ha.tidy, ha.count⟩
    by_cases hq : q = p
    · subst hq
      simpa [World.setEnt] using hg _ _ (ha.ents q)
    · simpa [World.setEnt, hq] using ha.ents q
  · trivial

/-- A write to a head: `g` is compared of it afterwards. -/
theorem Agree.setHead (ha : Agree Z K o N w w') {a : Addr} (u g : HashTable → HashTable)
    (hg : ∀ x y, K a x = K a y → g (u x) = g (u y))
    (hu : ∀ x, x.thresholdEvaluate = some htEvaluateThresholdDefault → (u x).thresholdEvaluate = some htEvaluateThresholdDefault) :
    Ends (fun _ => Agree Z (Function.update K a g) o N) (onHead w a fun x => ((), w.setHead a (u x)))
      (onHead w' a fun x => ((), w'.setHead a (u x))) := by
  simp only [onHead]
  rcases map_eq_cases (ha.heads a) with ⟨hx, hy⟩ | ⟨x, y, hx, hy, hxy⟩
  · rw [hx, hy]
    trivial
  · rw [hx, hy]
    refine ⟨rfl, fun b => ?_, ha.slabs, ha.ents, ha.locks, ha.mallocs, ha.cells, ha.freed, ha.book,
      ha.tidy.setHead hx (hu x (ha.tidy a x hx).2), ha.count⟩
    by_cases hb : b = a
    · subst hb
      simpa [World.setHead] using hg x y hxy
    · simpa [World.setHead, hb] using ha.heads b

/-- A field of a head, where it is compared. -/
theorem Agree.readHead {β : Type} (ha : Agree Z K o N w w') {a : Addr} (g : HashTable → β) (hK : ∀ x y, K a x = K a y → g x = g y) :
    Ends (fun _ => Agree Z K o N) (onHead w a fun x => (g x, w)) (onHead w' a fun x => (g x, w')) := by
  simp only [onHead]
  rcases map_eq_cases (ha.heads a) with ⟨hx, hy⟩ | ⟨x, y, hx, hy, hxy⟩
  · rw [hx, hy]
    trivial
  · rw [hx, hy]
    exact ⟨hK x y hxy, ha⟩

/-- A head is given back: it need not be compared any more. -/
theorem Agree.freeHead (ha : Agree Z K o N w w') (a : Addr) (g : HashTable → HashTable) :
    Ends (fun _ => Agree Z (Function.update K a g) o N) (step env (.freeHead a) w) (step env.nulled (.freeHead a) w') := by
  simp only [step, onHead]
  rcases map_eq_cases (ha.heads a) with ⟨hx, hy⟩ | ⟨x, y, hx, hy, -⟩
  · rw [hx, hy]
    trivial
  · rw [hx, hy]
    refine ⟨rfl, fun b => ?_, ha.slabs, ha.ents, ha.locks, ha.mallocs, ha.cells, by rw [ha.freed], ha.book, fun b z hz => ?_,
      ha.count⟩
    · by_cases hb : b = a
      · simp [hb]
      · simpa [hb] using ha.heads b
    · by_cases hb : b = a
      · simp [hb] at hz
      · simp only [hb, ↓reduceIte] at hz
        exact ha.tidy b z hz

/-! ## Functions that a block is set up with -/

theorem lockCall_pair (op : LockOp) (l : LockId) : Alike env (Agree Z K o N) (lockCall op l) fun _ => Agree Z K o N :=
  pair_call fun _ _ ha => ha.lock op l

theorem setErrno_pair (e : Int) : Alike env (Agree Z K o N) (setErrno e) fun _ => Agree Z K o N :=
  pair_call fun _ _ ha => ha.setErrno e

theorem stat_pair (a : Addr) (op : StatOp) : Alike env (Agree Z K o N) (access (.stat a op)) fun _ => Agree Z K o N :=
  pair_call fun _ _ ha => ha.stat a op

theorem htCounterInit_pair (a : Addr) (i : CounterId) : Alike env (Agree Z K o N) (htCounterInit a i) fun _ => Agree Z K o N :=
  pair_bind (stat_pair a _) fun _ => lockCall_pair .init _

theorem htAverageInit_pair (a : Addr) (i : AverageId) : Alike env (Agree Z K o N) (htAverageInit a i) fun _ => Agree Z K o N :=
  pair_bind (stat_pair a _) fun _ => lockCall_pair .init _

theorem htCounterAdd_pair (a : Addr) (i : CounterId) (d : UInt64) :
    Alike env (Agree Z K o N) (htCounterAdd a i d) fun _ => Agree Z K o N := by
  refine pair_bind (lockCall_pair .wrlock _) fun e => pair_bind (setErrno_pair e) fun _ => pair_ite (pair_ret fun _ _ ha => ha) ?_
  refine pair_bind (stat_pair a _) fun _ => pair_bind (lockCall_pair .unlock _) fun e => pair_bind (setErrno_pair e) fun _ => ?_
  exact pair_ite (pair_ret fun _ _ ha => ha) (pair_ret fun _ _ ha => ha)

theorem void_pair {β : Type} {p : Code β} (hp : Alike env (Agree Z K o N) p fun _ => Agree Z K o N) :
    Alike env (Agree Z K o N) (void p) fun _ => Agree Z K o N := pair_bind hp fun _ => pair_ret fun _ _ ha => ha

theorem anyFails_pair {ps : List (Code Int)} (hps : ∀ p ∈ ps, Alike env (Agree Z K o N) p fun _ => Agree Z K o N) :
    Alike env (Agree Z K o N) (anyFails ps) fun _ => Agree Z K o N := by
  induction ps with
  | nil => exact pair_ret fun _ _ ha => ha
  | cons p ps ih =>
    obtain ⟨hp, hps⟩ := List.forall_mem_cons.mp hps
    exact pair_bind hp fun ret => pair_ite (pair_ret fun _ _ ha => ha) (ih hps)

/-! ## Entries -/

/-- The entries from `i` on of the `n` entries of slab `s` are not set up yet. -/
def rawFrom (s n i : Nat) (p : EntryPtr) : Entry → Entry :=
  if p.1 = s ∧ i ≤ p.2 ∧ p.2 < n then fun _ => ⟨none, 0, 0, ⟨false, false⟩⟩ else id

theorem rawFrom_succ (s n i : Nat) : Function.update (rawFrom s n i) (s, i) id = rawFrom s n (i + 1) := by
  funext p
  by_cases hp : p = (s, i)
  · subst hp
    simp [rawFrom]
  · rw [Function.update_of_ne hp, rawFrom, rawFrom]
    have hne : p.1 = s → p.2 ≠ i := fun h1 h2 => hp (Prod.ext h1 h2)
    by_cases h1 : p.1 = s ∧ i ≤ p.2 ∧ p.2 < n
    · have hlt : i + 1 ≤ p.2 := by
        have := hne h1.1
        omega
      rw [if_pos h1, if_pos ⟨h1.1, hlt, h1.2.2⟩]
    · rw [if_neg h1, if_neg fun h2 => h1 ⟨h2.1, by omega, h2.2.2⟩]

theorem rawFrom_end (s n : Nat) : rawFrom s n n = all := by
  funext p
  rw [rawFrom, if_neg (by omega)]
  rfl

/-- The four writes that set up an entry. -/
theorem blank_pair {α : Type} {k : Code α} {J : α → World → World → Prop} (s n i : Nat)
    (hk : Alike env (Agree Z K o (rawFrom s n (i + 1))) k J) :
    Alike env (Agree Z K o (rawFrom s n i)) (do
      setNext (s, i) none
      setFlags (s, i) ⟨false, false⟩
      setData (s, i) 0
      setKey (s, i) 0
      k) J := by
  -- what is compared of the entry: one more field with each write
  refine pair_bind (pair_call fun w w' ha => ha.setEnt (fun e => { e with next := none })
    (fun e => ⟨e.next, 0, 0, ⟨false, false⟩⟩) fun e e' _ => rfl) fun _ => ?_
  refine pair_bind (pair_call fun w w' ha => ha.setEnt (fun e => { e with flags := ⟨false, false⟩ })
    (fun e => ⟨e.next, 0, 0, e.flags⟩) fun e e' he => ?_) fun _ => ?_
  · rw [Function.update_self] at he
    simpa using he
  refine pair_bind (pair_call fun w w' ha => ha.setEnt (fun e => { e with data := 0 })
    (fun e => ⟨e.next, 0, e.data, e.flags⟩) fun e e' he => ?_) fun _ => ?_
  · rw [Function.update_self] at he
    simpa using he
  refine pair_bind (pair_call fun w w' ha => ha.setEnt (fun e => { e with key := 0 }) id fun e e' he => ?_) fun _ => ?_
  · rw [Function.update_self] at he
    simpa using he
  rw [Function.update_idem, Function.update_idem, Function.update_idem, rawFrom_succ]
  exact hk

theorem htInitEntries_pair (s n numents i : Nat) (result : Int) :
    Alike env (Agree Z K o (rawFrom s n i)) (htInitEntries s i numents result) fun _ => Agree Z K o (rawFrom s n (i + numents)) := by
  induction numents generalizing i result with
  | zero => exact pair_ret fun _ _ ha => ha
  | succ numents ih =>
    have hrest : ∀ result, Alike env (Agree Z K o (rawFrom s n (i + 1))) (htInitEntries s (i + 1) numents result)
        fun _ => Agree Z K o (rawFrom s n (i + (numents + 1))) := by
      intro result
      rw [show i + (numents + 1) = i + 1 + numents by omega]
      exact ih (i + 1) result
    have hset : rawFrom s n (i + 1) (s, i) = id := by
      rw [rawFrom, if_neg (by omega)]
    rw [htInitEntries]
    apply blank_pair s n i
    refine pair_bind (pair_call fun w w' ha => ha.getFlags hset) fun f => ?_
    refine pair_bind (pair_ite (lockCall_pair .init _) (pair_ret fun _ _ ha => ha)) fun ret => pair_ite ?_ ?_
    · exact pair_bind (setErrno_pair ret) fun _ => hrest (result + 1)
    · refine pair_bind (pair_call fun w w' ha => ha.getFlags hset) fun f => ?_
      refine pair_bind (pair_call fun w w' ha => ha.setEnt (fun e => { e with flags := { f with lockInitialized := true } }) id
        fun e e' hee => ?_) fun _ => ?_
      · rw [hset] at hee
        rw [show e = e' from hee]
      · rw [← hset, Function.update_eq_self]
        exact hrest result

/-! ## Slabs -/

/-- The number of `malloc` calls does not matter. -/
def anyCount : Nat → Prop := fun _ => True

theorem Tidy.alloc (ht : Tidy w) {a : Addr} {x : HashTable} (hx : w.heads a = some x) :
    a < w.mallocs + 1 ∧ x.thresholdEvaluate = some htEvaluateThresholdDefault := by
  obtain ⟨hlt, hthr⟩ := ht a x hx
  exact ⟨Nat.lt_succ_of_lt hlt, hthr⟩

/-- Both runs get a block, or neither does. -/
theorem Agree.nulledMalloc (ha : Agree Z K o N w w') :
    env.nulled.malloc w'.mallocs = (env.malloc w.mallocs).map fun _ => Fill.zero := by
  rw [← ha.mallocs]
  rfl

/-- A failed `malloc`. -/
theorem Agree.noMalloc (ha : Agree Z K o N w w') :
    Agree anyCount K o N { w with mallocs := w.mallocs + 1 } { w' with mallocs := w'.mallocs + 1 } :=
  ⟨ha.heads, ha.slabs, ha.ents, ha.locks, by rw [ha.mallocs], ha.cells, ha.freed, ha.book, fun _ _ hx => ha.tidy.alloc hx, trivial⟩

/-- A fresh slab once its size is set. -/
theorem Agree.allocSlab (ha : Agree Z K none all w w') {n : Nat} {f : Fill} {o : Option Addr}
    (ho : o = some w.mallocs ∨ o = none ∧ f.next = none) :
    Ends (fun _ w₁ w₂ => Agree anyCount K o (rawFrom w.mallocs n 0) w₁ w₂ ∧ (w₁.slabs w.mallocs).map Slab.entrycount = some n)
      (step env (.initSlab w.mallocs n) (w.allocSlab n f)) (step env.nulled (.initSlab w.mallocs n) (w'.allocSlab n Fill.zero)) := by
  have hslab : (w.allocSlab n f).slabs w.mallocs = some ⟨f.next, f.entrycount, n⟩ := by
    simp [World.allocSlab, World.setSlab]
  have hslab' : (w'.allocSlab n Fill.zero).slabs w.mallocs = some ⟨none, 0, n⟩ := by
    simp [World.allocSlab, World.setSlab, ha.mallocs, Fill.zero]
  simp only [step, onSlab, hslab, hslab', Option.map_some]
  refine ⟨rfl, ⟨ha.heads, fun a => ?_, fun p => ?_, ha.locks, ?_, ?_, ha.freed, ha.book, fun _ _ hx => ha.tidy.alloc hx, trivial⟩,
    by simp [World.setSlab]⟩
  · by_cases hx : a = w.mallocs
    · subst hx
      rcases ho with rfl | ⟨rfl, hf⟩
      · simp [World.setSlab, hideNext]
      · simp [World.setSlab, hf]
    · have hx' : a ≠ w'.mallocs := ha.mallocs ▸ hx
      have hhide : hideNext o a = hideNext none a := by
        funext sl
        rcases ho with rfl | ⟨rfl, -⟩
        · simp [hideNext, Ne.symm hx]
        · rfl
      rw [hhide]
      simpa [World.setSlab, World.allocSlab, hx, hx'] using ha.slabs a
  · by_cases hp : p.1 = w.mallocs ∧ p.2 < n
    · have hraw : p.1 = w.mallocs ∧ 0 ≤ p.2 ∧ p.2 < n := ⟨hp.1, Nat.zero_le _, hp.2⟩
      rw [rawFrom, if_pos hraw]
    · have hraw : ¬(p.1 = w.mallocs ∧ 0 ≤ p.2 ∧ p.2 < n) := fun h => hp ⟨h.1, h.2.2⟩
      have hp' : ¬(p.1 = w'.mallocs ∧ p.2 < n) := ha.mallocs ▸ hp
      have hent : w.ents p = w'.ents p := ha.ents p
      rw [rawFrom, if_neg hraw]
      simpa [World.setSlab, World.allocSlab, hp, hp'] using hent
  · simp [World.setSlab, World.allocSlab, ha.mallocs]
  · simp [World.setSlab, World.allocSlab, ha.cells]

/-- After the `malloc` of a slab of `n` entries the memories agree once its size is set. -/
def SlabGot (env : Env) (K : Addr → HashTable → HashTable) (n : Nat) (d : Bool) : Option Addr → World → World → Prop
  | none, w, w' => Agree anyCount K none all w w'
  | some s, w, w' => Ends (fun _ w₁ w₂ => Agree anyCount K (if d then none else some s) (rawFrom s n 0) w₁ w₂ ∧
      (w₁.slabs s).map Slab.entrycount = some n) (step env (.initSlab s n) w) (step env.nulled (.initSlab s n) w')

/-- A new slab differs at most in `header.next`; not even there, when the fresh block was null (`d`). -/
theorem htCreateSlab_pair (n : Nat) (d : Bool) (hd : d = true → ∀ m f, Z m → env.malloc m = some f → f.next = none) :
    Alike env (Agree Z K none all) (htCreateSlab n) fun r => Agree anyCount K (if d then none else r) all := by
  have hnone : (if d then none else none : Option Addr) = none := by cases d <;> rfl
  refine pair_ite ?_ ?_
  · refine pair_bind (setErrno_pair EINVAL) fun _ => pair_ret fun _ _ ha => ?_
    rw [hnone]
    exact ⟨ha.heads, ha.slabs, ha.ents, ha.locks, ha.mallocs, ha.cells, ha.freed, ha.book, ha.tidy, trivial⟩
  refine pair_bind (M := SlabGot env K n d) (pair_call fun w w' ha => ?_) fun r => ?_
  · simp only [step, ha.nulledMalloc]
    cases hf : env.malloc w.mallocs with
    | none => exact ⟨rfl, ha.noMalloc⟩
    | some f =>
      refine ⟨by rw [ha.mallocs], ha.allocSlab ?_⟩
      cases d with
      | false => exact Or.inl rfl
      | true => exact Or.inr ⟨rfl, hd rfl _ f ha.count hf⟩
  · cases r with
    | none =>
      refine pair_bind (setErrno_pair ENOMEM) fun _ => pair_ret fun _ _ ha => ?_
      rwa [hnone]
    | some s =>
      refine pair_bind (pair_call fun w w' ha => ha) fun _ => ?_
      refine pair_bind (M := fun k w w' => Agree anyCount K (if d then none else some s) (rawFrom s n 0) w w' ∧ k = n)
        (pair_call fun w w' ha => ha.1.getEntrycount ha.2) fun k => pair_fact ?_
      rintro rfl
      have hall := @htInitEntries_pair env anyCount K (if d then none else some s) s k k 0 0
      rw [Nat.zero_add, rawFrom_end] at hall
      refine pair_bind hall fun ret => pair_ite ?_ (pair_ret fun _ _ ha => ha)
      refine pair_bind (pair_call fun w w' ha => ha.freeSlab (a := s) (by cases d <;> simp)) fun _ => pair_ret fun _ _ ha => ?_
      rwa [hnone]

/-! ## Heads -/

/-- What is compared of a new head before its slab is there: `ht->old` only when it was null (`d`). -/
def rawHead (d : Bool) (ht : HashTable) : HashTable :=
  { ht with old := if d then ht.old else none, slabs := none, table := none }

/-- What is compared of a head: not `ht->old` of the head `o`. -/
def hideOld (o : Option Addr) (a : Addr) (ht : HashTable) : HashTable := if o = some a then { ht with old := none } else ht

theorem hideOld_none : hideOld none = all := rfl

/-- A fresh head once its first fields are set. -/
theorem Agree.allocHead (ha : Agree Z all none all w w') {ks : Int} {opts : Options} {f : Fill} {d : Bool} {m : Nat}
    (hm : w.mallocs = m) (hd : d = true → f.head.old = none) :
    Ends (fun _ => Agree (· = m + 1) (Function.update all m (rawHead d)) none all)
      (step env (.initHead m ks opts htEvaluateThresholdDefault) (w.allocHead f))
      (step env.nulled (.initHead m ks opts htEvaluateThresholdDefault) (w'.allocHead Fill.zero)) := by
  subst hm
  obtain ⟨⟨rfl, ht⟩, -⟩ := agree_both.mp ha
  have hhead : ∀ g : Fill, (w.allocHead g).heads w.mallocs = some g.head := by
    intro g
    simp [World.allocHead, World.setHead]
  simp only [step, onHead, hhead, Option.map_some]
  refine ⟨rfl, fun a => ?_, fun _ => rfl, fun _ => rfl, rfl, rfl, rfl, rfl, rfl, fun a x hx => ?_, rfl⟩
  · by_cases hx : a = w.mallocs
    · subst hx
      cases d with
      | false => simp [World.setHead, rawHead]
      | true => simp [World.setHead, rawHead, hd rfl, Fill.zero]
    · simp [World.setHead, World.allocHead, hx]
  · by_cases ha : a = w.mallocs
    · simp only [World.setHead, ha, ↓reduceIte, Option.some.injEq] at hx
      rw [ha, ← hx]
      exact ⟨Nat.lt_succ_self _, rfl⟩
    · simp only [World.setHead, World.allocHead, ha, ↓reduceIte] at hx
      exact ht.alloc hx

theorem Agree.any (ha : Agree Z K o N w w') : Agree anyCount K o N w w' :=
  ⟨ha.heads, ha.slabs, ha.ents, ha.locks, ha.mallocs, ha.cells, ha.freed, ha.book, ha.tidy, trivial⟩

theorem update_all {a : Addr} (g : HashTable → HashTable) : Function.update (Function.update all a g) a id = all := by
  rw [Function.update_idem]
  exact Function.update_eq_self a all

/-- What `ht_create` leaves: a new head differs at most in `ht->old`; not even there, when the fresh block was null (`d`). -/
def CreatedAlike (m : Nat) (d : Bool) (r : Option Addr) (w w' : World) : Prop :=
  Agree anyCount (hideOld (if d then none else r)) none all w w' ∧ (r = none ∨ r = some m)

theorem createdAlike_none {m : Nat} {d : Bool} (ha : Agree Z all none all w w') : CreatedAlike m d none w w' := by
  refine ⟨?_, Or.inl rfl⟩
  rw [show (if d then none else none : Option Addr) = none by cases d <;> rfl, hideOld_none]
  exact ha.any

/-- The way out of `ht_create` when something fails. -/
theorem giveUp_pair (m : Nat) (d : Bool) (g : HashTable → HashTable) :
    Alike env (Agree Z (Function.update all m g) none all) (do
      freeHead m
      return none) (CreatedAlike m d) := by
  refine pair_bind (pair_call fun w w' ha => ha.freeHead m id) fun _ => pair_ret fun w w' ha => ?_
  rw [update_all] at ha
  exact createdAlike_none ha

/-- The part of `ht_create` behind the locks. -/
theorem htCreate_slab_pair (n m : Nat) (d : Bool) (hn : ∀ f, env.malloc (m + 1) = some f → f.next = none) :
    Alike env (Agree (· = m + 1) (Function.update all m (rawHead d)) none all) (do
      let slab ← htCreateSlab n
      setSlabs m slab
      let slabs ← getSlabs m
      setTable m slabs
      match slabs with
      | some _ =>
        void (htCounterAdd m .slabs 1)
        return some m
      | none =>
        freeHead m
        return none) (CreatedAlike m d) := by
  have hslab := @htCreateSlab_pair env (· = m + 1) (Function.update all m (rawHead d)) n true
    (by rintro - _ f rfl hf; exact hn f hf)
  refine pair_bind hslab fun slab => ?_
  -- `ht->slabs` is compared from here on
  let G : HashTable → HashTable := fun ht => { ht with old := if d then ht.old else none, table := none }
  refine pair_bind (pair_call fun w w' ha => ha.setHead (fun ht => { ht with slabs := slab }) G ?_ fun _ h => h) fun _ => ?_
  · intro x y hxy
    simp only [Function.update_self, rawHead, HashTable.mk.injEq] at hxy
    simp [G, hxy]
  rw [Function.update_idem]
  refine pair_bind (pair_call fun w w' ha => ha.readHead HashTable.slabs ?_) fun slabs => ?_
  · intro x y hxy
    simp only [Function.update_self, G, HashTable.mk.injEq] at hxy
    exact hxy.2.2.2.1
  -- and so is `ht->table`
  refine pair_bind (pair_call fun w w' ha => ha.setHead (fun ht => { ht with table := slabs })
    (fun ht => { ht with old := if d then ht.old else none }) ?_ fun _ h => h) fun _ => ?_
  · intro x y hxy
    simp only [Function.update_self, G, HashTable.mk.injEq] at hxy
    simp [hxy]
  rw [Function.update_idem]
  cases slabs with
  | none => exact giveUp_pair m d _
  | some s =>
    refine pair_bind (void_pair (htCounterAdd_pair m .slabs 1)) fun _ => pair_ret fun w w' ha => ⟨?_, Or.inr rfl⟩
    have hK : Function.update all m (fun ht : HashTable => { ht with old := if d then ht.old else none }) =
        hideOld (if d then none else some m) := by
      funext a ht
      by_cases hx : a = m
      · subst hx
        cases d <;> simp [hideOld]
      · cases d <;> simp [hideOld, hx, Ne.symm hx, all]
    rwa [hK] at ha

/-- After the `malloc` of the head `m` the memories agree once its first fields are set. -/
def HeadGot (env : Env) (ks : Int) (opts : Options) (m : Nat) (d : Bool) : Option Addr → World → World → Prop
  | none, w, w' => Agree anyCount all none all w w'
  | some h, w, w' => Ends (fun _ => Agree (· = m + 1) (Function.update all m (rawHead d)) none all)
      (step env (.initHead m ks opts htEvaluateThresholdDefault) w)
      (step env.nulled (.initHead m ks opts htEvaluateThresholdDefault) w') ∧ h = m

theorem htCreate_pair (n ks m : Nat) (opts : Options) (d : Bool) (hd : d = true → ∀ f, env.malloc m = some f → f.head.old = none)
    (hn : ∀ f, env.malloc (m + 1) = some f → f.next = none) :
    Alike env (Agree (· = m) all none all) (htCreate n ks opts) (CreatedAlike m d) := by
  refine pair_ite (pair_bind (setErrno_pair EINVAL) fun _ => pair_ret fun w w' ha => createdAlike_none ha) ?_
  refine pair_bind (M := HeadGot env (intOfSize ks) opts m d) (pair_call fun w w' ha => ?_) fun r => ?_
  · have hcount : w.mallocs = m := ha.count
    simp only [step, ha.nulledMalloc]
    cases hf : env.malloc w.mallocs with
    | none => exact ⟨rfl, ha.noMalloc⟩
    | some f => exact ⟨by rw [ha.mallocs], ha.allocHead hcount fun h => hd h f (hcount ▸ hf), hcount⟩
  · cases r with
    | none => exact pair_bind (setErrno_pair ENOMEM) fun _ => pair_ret fun w w' ha => createdAlike_none ha
    | some h =>
      apply pair_fact
      rintro rfl
      refine pair_bind (pair_call fun w w' ha => ha) fun _ => ?_
      refine pair_bind (anyFails_pair ?_) fun failed => pair_ite (giveUp_pair h d _) ?_
      · simp [htAverageInit_pair]
      refine pair_bind (anyFails_pair ?_) fun failed => pair_ite (giveUp_pair h d _) ?_
      · simp [htCounterInit_pair]
      refine pair_bind (anyFails_pair ?_) fun failed => pair_ite (giveUp_pair h d _) (htCreate_slab_pair n h d hn)
      · simp [rwlockInit, lockCall_pair]

end ZfsTest.Hashtable
