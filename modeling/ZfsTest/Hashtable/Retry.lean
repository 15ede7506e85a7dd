import Mathlib.Data.List.Find
import ZfsTest.Hashtable.Client
import ZfsTest.Hashtable.Refine

/-!
# Destroying again

`ht_destroy` with `rwlock_destroy` calls that fail (`FailsOnly`). It takes the older tables first, of each table the slabs and then the
head, and stops at the first of them with a failure (`firstStop`, `htDestroy_outcome`). An entry whose lock it could destroy is not
marked as initialised any more, and the next call counts it as an error: only then can a second call fail (`retries_iff`).
-/

namespace ZfsTest.Hashtable

open Prog

variable {c : Conf} {env : Env} {w w' w₁ : World} {h s : Addr} {pat : LockId → Int}

/-! ## Lock calls -/

/-- What a lock call returns when `rwlock_destroy` of `l` returns `pat l` and nothing else fails. -/
def failing (pat : LockId → Int) : LockOp → LockId → Int
  | .destroy, .entry p => pat (.entry p)
  | .destroy, .table h => pat (.table h)
  | _, _ => 0

/-- Nothing but `rwlock_destroy` fails, and that as `pat` says. -/
def FailsOnly (env : Env) (pat : LockId → Int) : Prop := ∀ n o l st, env.lockRet n o l st = failing pat o l

theorem AllZero.failsOnly (hz : AllZero env) : FailsOnly env fun _ => 0 := by
  intro n o l st
  rw [hz n o l st]
  unfold failing
  split <;> rfl

/-- The same blocks, with other locks and another book. -/
def World.withLocks (w : World) (ls : LockId → LockState) (b : Book) : World := { w with locks := ls, book := b }

@[simp] theorem withLocks_setEnt {ls : LockId → LockState} {b : Book} {p : EntryPtr} {e : Entry} :
    (w.withLocks ls b).setEnt p e = (w.setEnt p e).withLocks ls b := rfl

@[simp] theorem withLocks_ents {ls : LockId → LockState} {b : Book} : (w.withLocks ls b).ents = w.ents := rfl

@[simp] theorem withLocks_withBook {ls : LockId → LockState} {b b' : Book} : (w.withLocks ls b).withBook b' = w.withLocks ls b' := rfl

section Rules

variable {β : Type} {Q : β → World → Prop}

theorem wp_failing (hf : FailsOnly env pat) {o : LockOp} {l : LockId} {k : Int → Code β}
    (hk : ∀ ls b, wp env (k (failing pat o l)) Q (w.withLocks ls b)) : wp env (lockCall o l >>= k) Q w := by
  rw [wp_lockCall_any (hf _ o l _)]
  split
  · exact hk _ _
  · exact hk w.locks _

theorem wp_works (hf : FailsOnly env pat) {o : LockOp} (ho : o ≠ .destroy) {l : LockId} {k : Int → Code β}
    (hk : ∀ ls b, wp env (k 0) Q (w.withLocks ls b)) : wp env (lockCall o l >>= k) Q w := by
  have h0 : failing pat o l = 0 := by
    cases o
    case destroy => exact absurd rfl ho
    all_goals rfl
  refine wp_failing hf fun ls b => ?_
  rw [h0]
  exact hk ls b

theorem wp_counts (hf : FailsOnly env pat) (hh : w.hasHead h = true) {i : CounterId} {d : UInt64} {k : Unit → Code β}
    (hk : ∀ ls b, wp env (k ()) Q (w.withLocks ls b)) : wp env (void (htCounterAdd h i d) >>= k) Q w := by
  unfold void htCounterAdd
  rw [Prog.bind_assoc, wrlock, Prog.bind_assoc]
  refine wp_works hf (by decide) fun ls b => ?_
  rw [Prog.bind_assoc, wp_setErrno]
  rw [if_neg (by decide), Prog.bind_assoc, wp_addCounter (by exact hh), unlock, Prog.bind_assoc]
  refine wp_works hf (by decide) fun ls b => ?_
  rw [Prog.bind_assoc, wp_setErrno, if_neg (by decide)]
  exact hk _ _

end Rules

/-! ## Entries -/

/-- `ht_destroy_entries` counts the entry as an error. -/
def badEntry (pat : LockId → Int) (w : World) (p : EntryPtr) : Bool :=
  !(w.ents p).flags.lockInitialized || decide (pat (.entry p) ≠ 0)

/-- The entry when `ht_destroy_entries` is done with it. -/
def cleared (pat : LockId → Int) (p : EntryPtr) (e : Entry) : Entry :=
  ⟨none, 0, 0, ⟨false, e.flags.lockInitialized && decide (pat (.entry p) ≠ 0)⟩⟩

/-- The memory when it is done with the entries `i, …, i + n - 1`. -/
def World.clearEntries (w : World) (pat : LockId → Int) (s : Addr) (i n : Nat) : World :=
  { w with ents := fun p => if p.1 = s ∧ i ≤ p.2 ∧ p.2 < i + n then cleared pat p (w.ents p) else w.ents p }

/-- The number of entries that count as errors. -/
def badCount (pat : LockId → Int) (w : World) (s : Addr) (i n : Nat) : Nat := (List.range' i n).countP fun j => badEntry pat w (s, j)

theorem badCount_succ (i n : Nat) :
    badCount pat w s i (n + 1) = badCount pat w s (i + 1) n + if badEntry pat w (s, i) then 1 else 0 := by
  unfold badCount
  rw [List.range'_succ, List.countP_cons]

theorem badCount_congr {i n : Nat} (hw : ∀ j, i ≤ j → w'.ents (s, j) = w.ents (s, j)) :
    badCount pat w' s i n = badCount pat w s i n := by
  refine List.countP_congr fun j hj => ?_
  obtain ⟨hij, -⟩ := List.mem_range'_1.mp hj
  unfold badEntry
  rw [hw j hij]

/-- One entry, then the others. -/
theorem clearEntries_succ {ls ls' : LockId → LockState} {b b' : Book} {i n : Nat} {e : Entry} (he : e = cleared pat (s, i) (w.ents (s, i))) :
    (((w.setEnt (s, i) e).withLocks ls b).clearEntries pat s (i + 1) n).withLocks ls' b' =
      (w.clearEntries pat s i (n + 1)).withLocks ls' b' := by
  subst he
  refine World.ext rfl rfl (funext fun p => ?_) rfl rfl rfl rfl rfl
  obtain ⟨a, j⟩ := p
  simp only [World.withLocks, World.clearEntries, World.setEnt_ents]
  by_cases ha : a = s
  · subst ha
    simp only [true_and]
    rcases Nat.lt_trichotomy j i with hlt | rfl | hgt
    · have hne : (a, j) ≠ (a, i) := fun h => Nat.ne_of_lt hlt (congrArg Prod.snd h)
      rw [if_neg (show ¬(i + 1 ≤ j ∧ j < i + 1 + n) by omega), if_neg hne, if_neg (show ¬(i ≤ j ∧ j < i + (n + 1)) by omega)]
    · rw [if_neg (show ¬(j + 1 ≤ j ∧ j < j + 1 + n) by omega), if_pos rfl, if_pos (show j ≤ j ∧ j < j + (n + 1) by omega)]
    · have hne : (a, j) ≠ (a, i) := fun h => Nat.ne_of_gt hgt (congrArg Prod.snd h)
      have hiff : i + 1 ≤ j ∧ j < i + 1 + n ↔ i ≤ j ∧ j < i + (n + 1) := by omega
      simp only [hne, hiff, ↓reduceIte]
  · have hne : (a, j) ≠ (s, i) := fun h => ha (congrArg Prod.fst h)
    simp only [ha, hne, false_and, ↓reduceIte]

/-- `ht_destroy_entries` counts the entries that it cannot destroy. -/
theorem htDestroyEntries_count (hf : FailsOnly env pat) (s : Addr) (n : Nat) : ∀ (i : Nat) (ret result : Int) (w : World),
    (∀ j, i ≤ j → j < i + n → w.valid (s, j) = true) →
    wp env (htDestroyEntries s i n ret result)
      (fun r w' => r = result + badCount pat w s i n ∧ ∃ ls b, w' = (w.clearEntries pat s i n).withLocks ls b) w := by
  induction n with
  | zero =>
    intro i ret result w _
    refine wp_ret.mpr ⟨by simp [badCount], w.locks, w.book, ?_⟩
    refine World.ext rfl rfl (funext fun p => ?_) rfl rfl rfl rfl rfl
    exact (if_neg (by omega)).symm
  | succ n ih =>
    intro i ret result w hv
    have hvi := hv i (Nat.le_refl i) (by omega)
    unfold htDestroyEntries
    rw [wp_getFlags hvi, wp_setFlags hvi, wp_setNext (by exact hvi), wp_setKey (by exact hvi), wp_setData (by exact hvi),
      wp_getFlags (by exact hvi)]
    simp only [World.setEnt_ents, ↓reduceIte, World.setEnt_setEnt]
    -- the remaining entries, once the `i`-th one is cleared
    have rest : ∀ (ret' : Int) (ls : LockId → LockState) (b : Book) (e : Entry), e = cleared pat (s, i) (w.ents (s, i)) →
        wp env (htDestroyEntries s (i + 1) n ret' (result + if badEntry pat w (s, i) then 1 else 0))
          (fun r w' => r = result + badCount pat w s i (n + 1) ∧ ∃ ls b, w' = (w.clearEntries pat s i (n + 1)).withLocks ls b)
          ((w.setEnt (s, i) e).withLocks ls b) := by
      intro ret' ls b e he
      refine wp_mono (ih (i + 1) ret' _ _ fun j h1 h2 => hv j (by omega) (by omega)) ?_
      rintro r w' ⟨hr, ls', b', hw'⟩
      refine ⟨?_, ls', b', hw'.trans (clearEntries_succ he)⟩
      have hc : badCount pat ((w.setEnt (s, i) e).withLocks ls b) s (i + 1) n = badCount pat w s (i + 1) n := by
        refine badCount_congr fun j hj => ?_
        have hne : (s, j) ≠ (s, i) := fun h => Nat.ne_of_gt hj (congrArg Prod.snd h)
        simp [World.withLocks, hne]
      rw [hr, hc, badCount_succ]
      push_cast
      omega
    by_cases hinit : (w.ents (s, i)).flags.lockInitialized = true
    · rw [if_pos hinit, rwlockDestroy]
      refine wp_failing hf fun ls b => ?_
      by_cases hr : pat (.entry (s, i)) = 0
      · have hbad : badEntry pat w (s, i) = false := by simp [badEntry, hinit, hr]
        rw [if_pos (show failing pat .destroy (.entry (s, i)) = 0 from hr), wp_getFlags (by exact hvi), wp_setFlags (by exact hvi)]
        simp only [withLocks_setEnt, withLocks_ents, World.setEnt_ents, World.setEnt_setEnt, ↓reduceIte]
        have hrest := rest (failing pat .destroy (.entry (s, i))) ls b _ (show _ = cleared pat _ _ from rfl)
        rw [hbad] at hrest
        simpa [cleared, hinit, hr] using hrest
      · have hbad : badEntry pat w (s, i) = true := by simp [badEntry, hr]
        rw [if_neg (show ¬failing pat .destroy (.entry (s, i)) = 0 from hr), wp_setErrno]
        have he : (⟨none, 0, 0, { (w.ents (s, i)).flags with occupied := false }⟩ : Entry) = cleared pat (s, i) (w.ents (s, i)) := by
          simp [cleared, hinit, hr]
        have hrest := rest (failing pat .destroy (.entry (s, i))) ls { b with errno := failing pat .destroy (.entry (s, i)) } _ he
        rw [hbad] at hrest
        exact hrest
    · have hbad : badEntry pat w (s, i) = true := by simp [badEntry, hinit]
      rw [if_neg hinit, wp_setErrno]
      have he : (⟨none, 0, 0, { (w.ents (s, i)).flags with occupied := false }⟩ : Entry) = cleared pat (s, i) (w.ents (s, i)) := by
        simp [cleared, hinit]
      have hrest := rest ret w.locks { w.book with errno := ret } _ he
      rw [hbad] at hrest
      exact hrest

/-! ## Slabs -/

/-- Only the blocks in `F` have changed, locks and book apart, and nothing was allocated. -/
structure Mem (F : Addr → Prop) (w w' : World) : Prop where
  heads : ∀ a, ¬F a → w'.heads a = w.heads a
  slabs : ∀ a, ¬F a → w'.slabs a = w.slabs a
  ents : ∀ a i, ¬F a → w'.ents (a, i) = w.ents (a, i)
  mallocs : w'.mallocs = w.mallocs
  cells : w'.cells = w.cells
  live : ∀ a, w'.hasSlab a = true → w.hasSlab a = true

theorem Mem.refl (F : Addr → Prop) (w : World) : Mem F w w :=
  ⟨fun _ _ => rfl, fun _ _ => rfl, fun _ _ _ => rfl, rfl, rfl, fun _ h => h⟩

theorem Mem.trans {F : Addr → Prop} (h : Mem F w w₁) (h' : Mem F w₁ w') : Mem F w w' :=
  ⟨fun a ha => (h'.heads a ha).trans (h.heads a ha), fun a ha => (h'.slabs a ha).trans (h.slabs a ha),
    fun a i ha => (h'.ents a i ha).trans (h.ents a i ha), h'.mallocs.trans h.mallocs, h'.cells.trans h.cells,
    fun a ha => h.live a (h'.live a ha)⟩

theorem Mem.mono {F F' : Addr → Prop} (h : Mem F w w') (hF : ∀ a, F a → F' a) : Mem F' w w' :=
  ⟨fun a ha => h.heads a fun hf => ha (hF a hf), fun a ha => h.slabs a fun hf => ha (hF a hf),
    fun a i ha => h.ents a i fun hf => ha (hF a hf), h.mallocs, h.cells, h.live⟩

theorem Mem.slab {F : Addr → Prop} (h : Mem F w w') {a : Addr} (ha : ¬F a) : w'.slab a = w.slab a := by
  unfold World.slab
  rw [h.slabs a ha]

theorem Mem.withLocks (F : Addr → Prop) (w : World) (ls : LockId → LockState) (b : Book) : Mem F w (w.withLocks ls b) :=
  ⟨fun _ _ => rfl, fun _ _ => rfl, fun _ _ _ => rfl, rfl, rfl, fun _ h => h⟩

theorem Mem.setHead (w : World) (a : Addr) (ht : HashTable) : Mem (· = a) w (w.setHead a ht) :=
  ⟨fun _ hx => if_neg hx, fun _ _ => rfl, fun _ _ _ => rfl, rfl, rfl, fun _ h => h⟩

theorem Mem.setSlab {a : Addr} (ha : w.hasSlab a = true) (sl : Slab) : Mem (· = a) w (w.setSlab a sl) := by
  refine ⟨fun _ _ => rfl, fun _ hx => if_neg hx, fun _ _ _ => rfl, rfl, rfl, fun x hx => ?_⟩
  by_cases he : x = a
  · exact he ▸ ha
  · simpa [he] using hx

theorem Mem.dropSlab (w : World) (a : Addr) : Mem (· = a) w (w.dropSlab a) := by
  refine ⟨fun _ _ => rfl, fun _ hx => if_neg hx, fun _ _ _ => rfl, rfl, rfl, fun x hx => ?_⟩
  by_cases he : x = a
  · simp [World.hasSlab, he] at hx
  · simpa [World.hasSlab, he] using hx

theorem Mem.dropHead (w : World) (a : Addr) : Mem (· = a) w (w.dropHead a) :=
  ⟨fun _ hx => if_neg hx, fun _ _ => rfl, fun _ _ _ => rfl, rfl, rfl, fun _ h => h⟩

theorem Mem.clearEntries (w : World) (i n : Nat) : Mem (· = s) w (w.clearEntries pat s i n) :=
  ⟨fun _ _ => rfl, fun _ _ => rfl, fun _ _ hx => if_neg fun h => hx h.1, rfl, rfl, fun _ h => h⟩

/-- `ht_destroy_slab` counts an error. -/
def badSlab (pat : LockId → Int) (w : World) (s : Addr) : Bool := decide (badCount pat w s 0 (w.slab s).entrycount ≠ 0)

theorem Mem.badSlab {F : Addr → Prop} (h : Mem F w w') {a : Addr} (ha : ¬F a) : badSlab pat w' a = badSlab pat w a := by
  unfold Hashtable.badSlab
  rw [h.slab ha, badCount_congr fun j _ => h.ents a j ha]

/-- Where `ht_destroy` stops. -/
inductive Stop
  | slab (s : Addr)
  | head (a : Addr)
  deriving DecidableEq, Repr

/-- A slab that is left when `ht_destroy` has stopped at `st`. -/
structure Left (pat : LockId → Int) (st : Stop) (w w' : World) (t : Addr) : Prop where
  count : (w'.slab t).entrycount = (w.slab t).entrycount
  marks : ∀ j, j < (w.slab t).entrycount → (w'.ents (t, j)).flags.lockInitialized =
    ((w.ents (t, j)).flags.lockInitialized && (decide (st ≠ .slab t) || decide (pat (.entry (t, j)) ≠ 0)))

theorem Left.of_same {st : Stop} {t : Addr} (hs : w'.slab t = w.slab t) (he : ∀ j, w'.ents (t, j) = w.ents (t, j)) (hne : st ≠ .slab t) :
    Left pat st w w' t :=
  ⟨by rw [hs], fun j _ => by simp [he j, hne]⟩

theorem clearEntries_left : Left pat (.slab s) w (w.clearEntries pat s 0 (w.slab s).entrycount) s := by
  refine ⟨rfl, fun j hj => ?_⟩
  simp [World.clearEntries, cleared, hj]

/-- What `ht_destroy_slab` does: the slab is freed, or left with some of its locks destroyed. -/
structure SlabOutcome (pat : LockId → Int) (s : Addr) (w : World) (r : Int) (w' : World) : Prop where
  ret : r = badCount pat w s 0 (w.slab s).entrycount
  mem : Mem (· = s) w w'
  heads : w'.heads = w.heads
  freed : badSlab pat w s = false → w'.slabs s = none
  left : badSlab pat w s = true → w'.slabs = w.slabs ∧ Left pat (.slab s) w w' s

theorem htDestroySlab_outcome (hf : FailsOnly env pat) (hs : w.hasSlab s = true) (hle : (w.slab s).entrycount ≤ (w.slab s).size) :
    wp env (htDestroySlab s) (SlabOutcome pat s w) w := by
  unfold htDestroySlab
  rw [wp_getEntrycount hs]
  refine wp_spec (htDestroyEntries_count hf s _ 0 0 0 w fun j _ hj => ?_) ?_
  · rw [World.valid_eq, hs]
    simp only [Bool.true_and, decide_eq_true_eq]
    omega
  rintro r w' ⟨hr, ls, b, rfl⟩
  rw [zero_add] at hr
  have hmem : Mem (· = s) w ((w.clearEntries pat s 0 (w.slab s).entrycount).withLocks ls b) :=
    (Mem.clearEntries w 0 _).trans (Mem.withLocks _ _ ls b)
  have hleft : Left pat (.slab s) w (w.clearEntries pat s 0 (w.slab s).entrycount) s := clearEntries_left
  by_cases hbad : badCount pat w s 0 (w.slab s).entrycount = 0
  · have hgood : badSlab pat w s = false := by simp [badSlab, hbad]
    rw [if_neg (by rw [hr, hbad]; decide), wp_clearSlab (by exact hs), wp_freeSlab (by simp)]
    refine wp_ret.mpr ⟨by rw [hbad]; rfl, (hmem.trans (Mem.setSlab (by exact hs) _)).trans (Mem.dropSlab _ s), rfl, fun _ => ?_, fun h => ?_⟩
    · exact if_pos rfl
    · rw [hgood] at h
      cases h
  · rw [if_pos (by rw [hr]; exact_mod_cast hbad)]
    refine wp_ret.mpr ⟨hr, hmem, rfl, fun h => ?_, fun _ => ⟨rfl, hleft.count, hleft.marks⟩⟩
    simp [badSlab, hbad] at h

/-- The slabs of a list, each with room for its entries. -/
structure SlabChain (w : World) (p : Option Addr) (ss : List Addr) : Prop where
  chain : Chain (fun a => (w.slab a).next) p ss
  nodup : ss.Nodup
  live : ∀ s ∈ ss, w.hasSlab s = true ∧ (w.slab s).entrycount ≤ (w.slab s).size

theorem SlabList.slabChain {p : Option Addr} {ss : List Addr} (hl : SlabList w p ss) : SlabChain w p ss := ⟨hl.chain, hl.nodup, hl.live⟩

theorem SlabChain.congr {p : Option Addr} {ss : List Addr} (hl : SlabChain w p ss) (hs : ∀ s ∈ ss, w'.slabs s = w.slabs s) :
    SlabChain w' p ss := by
  have hslab : ∀ s ∈ ss, w'.slab s = w.slab s := fun s hm => by unfold World.slab; rw [hs s hm]
  refine ⟨hl.chain.congr fun s hm => by rw [hslab s hm], hl.nodup, fun s hm => ?_⟩
  rw [World.hasSlab, hs s hm, hslab s hm]
  exact hl.live s hm

/-- What the loop over the slabs does. -/
structure SlabsOutcome (pat : LockId → Int) (h : Addr) (ss : List Addr) (w : World) (r : Int) (w' : World) : Prop where
  mem : Mem (fun a => a = h ∨ a ∈ ss) w w'
  head : w'.hasHead h = true
  old : (w'.head h).old = (w.head h).old
  all : ss.find? (badSlab pat w) = none → r = 0 ∧ (w'.head h).slabs = none ∧ ∀ s ∈ ss, w'.slabs s = none
  stopped : ∀ s, ss.find? (badSlab pat w) = some s → r ≠ 0 ∧ ∃ ss', s :: ss' <:+ ss ∧ SlabChain w' (w'.head h).slabs (s :: ss') ∧
    (∀ t ∈ ss, w'.hasSlab t = true → t ∈ s :: ss') ∧ ∀ t ∈ s :: ss', Left pat (.slab s) w w' t

theorem htDestroySlabs_outcome (hf : FailsOnly env pat) (ss : List Addr) : ∀ (fuel : Nat) (w : World), ss.length < fuel →
    w.hasHead h = true → SlabChain w (w.head h).slabs ss → h ∉ ss → wp env (htDestroySlabs h fuel) (SlabsOutcome pat h ss w) w := by
  induction ss with
  | nil =>
    intro fuel w hfuel hh hl _
    obtain ⟨fuel, rfl⟩ : ∃ n, fuel = n + 1 := ⟨fuel - 1, by simp at hfuel; omega⟩
    unfold htDestroySlabs
    rw [wp_getSlabs hh, hl.chain]
    exact wp_ret.mpr ⟨Mem.refl _ w, hh, rfl, fun _ => ⟨rfl, hl.chain, by simp⟩, fun s hs => by cases hs⟩
  | cons s ss ih =>
    intro fuel w hfuel hh hl hn
    obtain ⟨fuel, rfl⟩ : ∃ n, fuel = n + 1 := ⟨fuel - 1, by simp at hfuel; omega⟩
    obtain ⟨hsl, hle⟩ := hl.live s List.mem_cons_self
    obtain ⟨hns, hnd⟩ := List.nodup_cons.mp hl.nodup
    have hhs : h ≠ s := fun e => hn (e ▸ List.mem_cons_self)
    have hnss : h ∉ ss := fun hm => hn (List.mem_cons_of_mem _ hm)
    unfold htDestroySlabs
    rw [wp_getSlabs hh, hl.chain.1]
    show wp env (getSlabNext s >>= _) _ _
    rw [wp_getSlabNext hsl, wp_setSlabs hh]
    apply wp_spec (htDestroySlab_outcome hf (by exact hsl) (by exact hle))
    rintro r w₁ ho
    have hset : Mem (· = h) w (w.setHead h { w.head h with slabs := (w.slab s).next }) := Mem.setHead w h _
    have hbad₀ : badSlab pat (w.setHead h { w.head h with slabs := (w.slab s).next }) s = badSlab pat w s := rfl
    have hmem₁ : Mem (fun a => a = h ∨ a ∈ s :: ss) w w₁ :=
      (hset.mono fun a ha => Or.inl ha).trans (ho.mem.mono fun a ha => Or.inr (by rw [ha]; exact List.mem_cons_self))
    have hhead₁ : w₁.heads h = some { w.head h with slabs := (w.slab s).next } := by
      rw [ho.heads]
      exact if_pos rfl
    have hh₁ : w₁.hasHead h = true := by rw [World.hasHead, hhead₁]; rfl
    have hhd : w₁.head h = { w.head h with slabs := (w.slab s).next } := by rw [World.head, hhead₁]; rfl
    have hslabs₁ : ∀ t ∈ ss, w₁.slabs t = w.slabs t := fun t ht =>
      ho.mem.slabs t fun e => hns (e ▸ ht)
    have hents₁ : ∀ t ∈ ss, ∀ j, w₁.ents (t, j) = w.ents (t, j) := fun t ht j =>
      ho.mem.ents t j fun e => hns (e ▸ ht)
    have hl₁ : SlabChain w₁ (w.slab s).next ss :=
      SlabChain.congr ⟨hl.chain.2, hnd, fun t ht => hl.live t (List.mem_cons_of_mem _ ht)⟩ hslabs₁
    by_cases hbad : badSlab pat w s = true
    · -- the slab goes back on the list
      obtain ⟨hslabs, hleft⟩ := ho.left (hbad₀.trans hbad)
      have hr : r ≠ 0 := by
        rw [ho.ret]
        exact_mod_cast of_decide_eq_true hbad
      have hs₁ : w₁.hasSlab s = true := by
        rw [World.hasSlab, hslabs]
        exact hsl
      have hslab₁ : w₁.slab s = w.slab s := by
        rw [World.slab, hslabs]
        rfl
      rw [if_pos hr, wp_getSlabs hh₁, wp_setSlabNext hs₁, wp_setSlabs (by exact hh₁)]
      refine wp_counts hf (by simp) fun ls b => ?_
      rw [wp_void]
      refine wp_works hf (by decide) fun ls b => wp_ret.mpr ?_
      have hback : ∀ w₂ : World, w₂.heads = w.heads → w₂.slabs = w.slabs → w₂.ents = w₁.ents → w₂.mallocs = w₁.mallocs →
          w₂.cells = w₁.cells → SlabsOutcome pat h (s :: ss) w r w₂ := by
        intro w₂ hheads hslabs hents hmallocs hcells
        have hfind : (s :: ss).find? (badSlab pat w) = some s := List.find?_cons_of_pos hbad
        have hhd₂ : w₂.head h = w.head h := by rw [World.head, hheads, World.head]
        have hslab₂ : ∀ t, w₂.slab t = w.slab t := fun t => by rw [World.slab, hslabs, World.slab]
        have hmem : Mem (fun a => a = h ∨ a ∈ s :: ss) w w₂ :=
          ⟨fun a _ => congrFun hheads a, fun a _ => congrFun hslabs a, fun a j ha => by rw [hents]; exact hmem₁.ents a j ha,
            hmallocs.trans hmem₁.mallocs, hcells.trans hmem₁.cells, fun a ha => by rwa [World.hasSlab, hslabs] at ha⟩
        refine ⟨hmem, by rw [World.hasHead, hheads]; exact hh, by rw [hhd₂], fun hnone => ?_, fun t ht => ?_⟩
        · rw [hfind] at hnone
          cases hnone
        obtain rfl : s = t := Option.some.inj (hfind.symm.trans ht)
        refine ⟨hr, ss, List.suffix_rfl, ?_, fun t ht _ => ht, fun t ht => ?_⟩
        · rw [hhd₂]
          exact hl.congr fun t _ => congrFun hslabs t
        · rcases List.mem_cons.mp ht with rfl | ht
          · exact ⟨by rw [hslab₂], fun j hj => by rw [hents]; exact hleft.marks j hj⟩
          · have hne : Stop.slab s ≠ .slab t := fun e => hns (Stop.slab.inj e ▸ ht)
            exact Left.of_same (hslab₂ t) (fun j => by rw [hents]; exact hents₁ t ht j) hne
      rw [hhd]
      refine hback _ (funext fun a => ?_) (funext fun a => ?_) rfl rfl rfl
      · by_cases ha : a = h
        · have hfirst : (w.head h).slabs = some s := hl.chain.1
          have hself : ({ w.head h with slabs := some s } : HashTable) = w.head h := by rw [← hfirst]
          rw [ha, World.heads_eq hh]
          refine (if_pos rfl).trans (congrArg some ?_)
          show ({ w₁.head h with slabs := some s } : HashTable) = w.head h
          rw [hhd]
          exact hself
        · simp only [World.withLocks, World.setHead_heads, ha, ↓reduceIte]
          rw [World.setSlab_heads, ho.heads]
          exact if_neg ha
      · by_cases ha : a = s
        · subst ha
          have hsame : w.slabs a = some (w.slab a) := World.slabs_eq hsl
          simp [World.withLocks, hslab₁, hsame]
        · simp [World.withLocks, ha, hslabs]
    · have hgood : badSlab pat w s = false := Bool.eq_false_of_not_eq_true hbad
      have hzero : badCount pat w s 0 (w.slab s).entrycount = 0 := by simpa [badSlab] using hgood
      have hr : r = 0 := by
        rw [ho.ret]
        exact_mod_cast hzero
      have hgone := ho.freed (hbad₀.trans hgood)
      rw [if_neg (by rw [hr]; decide), wp_readTable hh₁]
      have hfind : (s :: ss).find? (badSlab pat w) = ss.find? (badSlab pat w) := List.find?_cons_of_neg (by rw [hgood]; decide)
      have rest : ∀ w₂ : World, Mem (· = h) w₁ w₂ → w₂.hasHead h = true → w₂.slabs = w₁.slabs → (w₂.head h).slabs = (w.slab s).next →
          (w₂.head h).old = (w.head h).old → wp env (htDestroySlabs h fuel) (SlabsOutcome pat h (s :: ss) w) w₂ := by
        intro w₂ hmem₂ hh₂ hslabs₂ hhs₂ hold₂
        have hl₂ : SlabChain w₂ (w₂.head h).slabs ss := by
          rw [hhs₂]
          exact hl₁.congr fun t _ => congrFun hslabs₂ t
        have hslab₂ : ∀ t ∈ ss, w₂.slab t = w.slab t := fun t ht => by
          rw [World.slab, hslabs₂, hslabs₁ t ht, World.slab]
        have hents₂ : ∀ t ∈ ss, ∀ j, w₂.ents (t, j) = w.ents (t, j) := fun t ht j =>
          (hmem₂.ents t j fun e => hnss (e ▸ ht)).trans (hents₁ t ht j)
        have hbad₂ : ∀ t ∈ ss, badSlab pat w₂ t = badSlab pat w t := fun t ht => by
          rw [badSlab, hslab₂ t ht, badCount_congr fun j _ => hents₂ t ht j, badSlab]
        have hfind₂ : ss.find? (badSlab pat w₂) = ss.find? (badSlab pat w) := List.find?_congr hbad₂
        apply wp_mono (ih fuel w₂ (by simpa using hfuel) hh₂ hl₂ hnss)
        rintro r' w' ⟨hmem', hh', hold', hall', hstop'⟩
        have hgone' : w'.slabs s = none := by
          have hout : ¬(s = h ∨ s ∈ ss) := fun h => h.elim (fun e => hhs e.symm) hns
          rw [hmem'.slabs s hout, hslabs₂]
          exact hgone
        refine ⟨(hmem₁.trans (hmem₂.mono fun a ha => Or.inl ha)).trans (hmem'.mono fun a ha => ha.imp id (List.mem_cons_of_mem _)), hh',
          hold'.trans hold₂, fun hnone => ?_, fun t ht => ?_⟩
        · obtain ⟨hr', hempty, hgone⟩ := hall' (hfind₂.trans (hfind.symm.trans hnone))
          refine ⟨hr', hempty, fun t ht => ?_⟩
          rcases List.mem_cons.mp ht with rfl | ht
          · exact hgone'
          · exact hgone t ht
        · obtain ⟨hr', ss', hsuf, hl', hcov, hleft⟩ := hstop' t (hfind₂.trans (hfind.symm.trans ht))
          refine ⟨hr', ss', hsuf.trans (List.suffix_cons _ _), hl', fun u hu hs => ?_, fun u hu => ?_⟩
          · rcases List.mem_cons.mp hu with rfl | hu
            · rw [World.hasSlab, hgone'] at hs
              cases hs
            · exact hcov u hu hs
          · have hmem : u ∈ ss := hsuf.subset hu
            have hu' := hleft u hu
            refine ⟨by rw [hu'.count, hslab₂ u hmem], fun j hj => ?_⟩
            rw [hu'.marks j (by rw [hslab₂ u hmem]; exact hj), hents₂ u hmem]
      by_cases htab : (w₁.head h).table = some s
      · rw [if_pos htab, wp_setTable hh₁]
        exact rest _ (Mem.setHead w₁ h _) (by simp) rfl (by simp [hhd]) (by simp [hhd])
      · rw [if_neg htab]
        exact rest w₁ (Mem.refl _ w₁) hh₁ rfl (by rw [hhd]) (by rw [hhd])

/-! ## Heads -/

theorem destroyMutexes_works (hf : FailsOnly env pat) (ls : List LockId) : ∀ w : World, (∀ l ∈ ls, failing pat .destroy l = 0) →
    wp env (destroyMutexes h ls) (fun _ w' => ∃ lk b, w' = w.withLocks lk b) w := by
  induction ls with
  | nil => exact fun w _ => wp_ret.mpr ⟨w.locks, w.book, rfl⟩
  | cons l ls ih =>
    intro w hl
    unfold destroyMutexes destroyMutex
    rw [Prog.bind_assoc, rwlockDestroy]
    refine wp_failing hf fun lk b => ?_
    rw [hl l List.mem_cons_self, onFail_zero]
    refine wp_mono (ih _ fun k hk => hl k (List.mem_cons_of_mem _ hk)) ?_
    rintro _ w' ⟨lk', b', rfl⟩
    exact ⟨lk', b', rfl⟩

/-- The head is freed, or left when its table lock cannot be destroyed. -/
theorem htDestroyLocks_outcome (hf : FailsOnly env pat) (hh : w.hasHead h = true) :
    wp env (htDestroyLocks h) (fun r w' => (pat (.table h) = 0 → r = 0 ∧ ∃ lk b, w' = (w.dropHead h).withLocks lk b) ∧
      (pat (.table h) ≠ 0 → r ≠ 0 ∧ ∃ lk b, w' = w.withLocks lk b)) w := by
  unfold htDestroyLocks
  rw [wp_setErrno]
  refine wp_spec (destroyMutexes_works hf (statMutexes h) _ fun l hm => ?_) ?_
  · simp only [statMutexes, List.mem_cons, List.not_mem_nil, or_false] at hm
    rcases hm with rfl | rfl | rfl | rfl | rfl | rfl | rfl | rfl | rfl <;> rfl
  rintro _ w₁ ⟨lk, b, rfl⟩
  refine wp_works hf (by decide) fun lk b => ?_
  rw [if_neg (by decide), rwlockDestroy]
  refine wp_failing hf fun lk b => ?_
  by_cases hp : pat (.table h) = 0
  · rw [if_neg (show ¬failing pat .destroy (.table h) ≠ 0 from not_not.mpr hp), rwlockDestroy]
    refine wp_failing hf fun lk b => ?_
    rw [if_neg (show ¬failing pat .destroy (.counter h .errors) ≠ 0 from not_not.mpr rfl), wp_freeHead (by exact hh)]
    exact wp_ret.mpr ⟨fun _ => ⟨rfl, lk, b, rfl⟩, fun hne => absurd hp hne⟩
  · rw [if_pos (show failing pat .destroy (.table h) ≠ 0 from hp)]
    unfold keepErrno
    rw [Prog.bind_assoc, wp_getErrno, wp_setErrno]
    refine wp_counts hf (by exact hh) fun lk b => ?_
    exact wp_ret.mpr ⟨fun h0 => absurd h0 hp, fun _ => ⟨by decide, lk, b, rfl⟩⟩

/-! ## Tables -/

/-- Where `ht_destroy` of the tables `P` stops: it takes the last of them first, of each table the slabs and then the head. -/
def firstStop (pat : LockId → Int) (w : World) : List (Addr × List Addr) → Option Stop
  | [] => none
  | (a, ss) :: P =>
    match firstStop pat w P with
    | some st => some st
    | none =>
      match ss.find? (badSlab pat w) with
      | some s => some (.slab s)
      | none => if pat (.table a) ≠ 0 then some (.head a) else none

/-- The tables `P` in the order of `ht->old`, with their slabs. -/
structure Owned (w : World) (p : Option Addr) (P : List (Addr × List Addr)) : Prop where
  chain : Chain (fun a => (w.head a).old) p (P.map Prod.fst)
  tables : ∀ x ∈ P, w.hasHead x.1 = true ∧ SlabChain w (w.head x.1).slabs x.2
  nodup : (blocksOf P).Nodup

theorem OldChain.owned {p : Option Addr} {P : List (Addr × List Addr)} (hc : OldChain w p P) : Owned w p P :=
  ⟨hc.chain, fun x hx => ⟨(hc.tables x hx).stats.head, (hc.tables x hx).slabs.slabChain⟩, hc.nodup⟩

theorem Owned.congr {p : Option Addr} {P : List (Addr × List Addr)} (ho : Owned w p P) (hh : ∀ b ∈ blocksOf P, w'.heads b = w.heads b)
    (hs : ∀ b ∈ blocksOf P, w'.slabs b = w.slabs b) : Owned w' p P := by
  have hhead : ∀ x ∈ P, w'.heads x.1 = w.heads x.1 := fun x hx => hh x.1 (mem_blocksOf.mpr ⟨x, hx, Or.inl rfl⟩)
  have hhd : ∀ x ∈ P, w'.head x.1 = w.head x.1 := fun x hx => by rw [World.head, hhead x hx, World.head]
  refine ⟨ho.chain.congr fun a ha => ?_, fun x hx => ?_, ho.nodup⟩
  · obtain ⟨x, hx, rfl⟩ := List.mem_map.mp ha
    rw [hhd x hx]
  · rw [World.hasHead, hhead x hx, hhd x hx]
    exact ⟨(ho.tables x hx).1, (ho.tables x hx).2.congr fun s hm => hs s (mem_blocksOf.mpr ⟨x, hx, Or.inr hm⟩)⟩

/-- What `ht_destroy` does to the tables `P`. -/
structure DestroyOutcome (pat : LockId → Int) (P : List (Addr × List Addr)) (w : World) (r : Int) (w' : World) : Prop where
  mem : Mem (· ∈ blocksOf P) w w'
  all : firstStop pat w P = none → r = 0 ∧ ∀ x ∈ P, w'.heads x.1 = none ∧ ∀ s ∈ x.2, w'.slabs s = none
  stopped : ∀ st, firstStop pat w P = some st → r ≠ 0 ∧ ∃ P', Owned w' (P.head?.map Prod.fst) P' ∧ LeftOf w' P P' ∧
    (∀ x ∈ P', ∀ t ∈ x.2, Left pat st w w' t) ∧ ∀ s, st = .slab s → ∃ x ∈ P', s ∈ x.2

theorem firstStop_congr {P : List (Addr × List Addr)} (hb : ∀ x ∈ P, ∀ s ∈ x.2, badSlab pat w' s = badSlab pat w s) :
    firstStop pat w' P = firstStop pat w P := by
  induction P with
  | nil => rfl
  | cons x P ih =>
    obtain ⟨a, ss⟩ := x
    have hfind : ss.find? (badSlab pat w') = ss.find? (badSlab pat w) := List.find?_congr (hb (a, ss) List.mem_cons_self)
    unfold firstStop
    rw [ih fun x hx => hb x (List.mem_cons_of_mem _ hx), hfind]

theorem firstStop_withLocks {ls : LockId → LockState} {b : Book} {P : List (Addr × List Addr)} :
    firstStop pat (w.withLocks ls b) P = firstStop pat w P := firstStop_congr fun _ _ _ _ => rfl

/-- The blocks of the first table are none of the others. -/
theorem Owned.apart {P : List (Addr × List Addr)} {p : Option Addr} {a : Addr} {ss : List Addr} (hc : Owned w p ((a, ss) :: P)) :
    a ∉ ss ∧ a ∉ blocksOf P ∧ ∀ s ∈ ss, s ∉ blocksOf P := by
  have h1 : (a :: ss ++ blocksOf P).Nodup := hc.nodup
  rw [List.cons_append, List.nodup_cons, List.mem_append, not_or, List.nodup_append] at h1
  exact ⟨h1.1.1, h1.1.2, fun s hs hm => h1.2.2.2 s hs s hm rfl⟩

/-- `ht_destroy` stops in the table `a`, when there is none behind it any more. -/
theorem DestroyOutcome.here {P : List (Addr × List Addr)} {a : Addr} {ss ss' : List Addr} {r : Int} {st : Stop}
    (hc : Owned w (some a) ((a, ss) :: P)) (hst : firstStop pat w ((a, ss) :: P) = some st) (hmem : Mem (· ∈ blocksOf ((a, ss) :: P)) w w')
    (hr : r ≠ 0) (hgone : ∀ x ∈ P, w'.heads x.1 = none ∧ ∀ s ∈ x.2, w'.slabs s = none) (hh : w'.hasHead a = true)
    (hold : (w'.head a).old = none) (hl : SlabChain w' (w'.head a).slabs ss') (hsuf : ss' <:+ ss)
    (hcov : ∀ s ∈ ss, w'.hasSlab s = true → s ∈ ss') (hleft : ∀ t ∈ ss', Left pat st w w' t) (hin : ∀ s, st = .slab s → s ∈ ss') :
    DestroyOutcome pat ((a, ss) :: P) w r w' := by
  have hsub : (blocksOf [(a, ss')]).Sublist (blocksOf ((a, ss) :: P)) := by
    show (a :: ss' ++ []).Sublist (a :: ss ++ blocksOf P)
    rw [List.append_nil]
    exact (hsuf.sublist.cons_cons a).trans (List.sublist_append_left _ _)
  refine ⟨hmem, fun h => ?_, fun st' hst' => ⟨hr, [(a, ss')], ⟨⟨rfl, hold⟩, fun x hx => ?_, hc.nodup.sublist hsub⟩,
    ⟨fun x hx hm => ?_, fun x hx s hs hm => ?_, hsub⟩, fun x hx t ht => ?_, fun s hs => ⟨_, List.mem_singleton.mpr rfl, ?_⟩⟩⟩
  · rw [hst] at h
    cases h
  · obtain rfl := List.mem_singleton.mp hx
    exact ⟨hh, hl⟩
  · rcases List.mem_cons.mp hx with rfl | hx
    · exact List.mem_singleton.mpr rfl
    · rw [World.hasHead, (hgone x hx).1] at hm
      cases hm
  · rcases List.mem_cons.mp hx with rfl | hx
    · exact ⟨_, List.mem_singleton.mpr rfl, hcov s hs hm⟩
    · rw [World.hasSlab, (hgone x hx).2 s hs] at hm
      cases hm
  · obtain rfl : st = st' := Option.some.inj (hst.symm.trans hst')
    obtain rfl := List.mem_singleton.mp hx
    exact hleft t ht
  · obtain rfl : st = st' := Option.some.inj (hst.symm.trans hst')
    exact hin s hs

/-- The head `a` once the tables `P` behind it are gone. -/
theorem htDestroyHead_outcome (hf : FailsOnly env pat) {P : List (Addr × List Addr)} {a : Addr} {ss : List Addr}
    (hc : Owned w (some a) ((a, ss) :: P)) (hlen : ss.length ≤ w.mallocs) (hm : Mem (fun b => b = a ∨ b ∈ blocksOf P) w w₁)
    (hhead : w₁.heads a = w.heads a) (hgone : ∀ x ∈ P, w₁.heads x.1 = none ∧ ∀ s ∈ x.2, w₁.slabs s = none)
    (hnone : firstStop pat w P = none) : wp env (htDestroyHead a) (DestroyOutcome pat ((a, ss) :: P) w) w₁ := by
  obtain ⟨hns, hnP, hsP⟩ := hc.apart
  obtain ⟨hh, hl⟩ := hc.tables (a, ss) List.mem_cons_self
  have hhd : w₁.head a = w.head a := by rw [World.head, hhead, World.head]
  have hh₁ : w₁.hasHead a = true := by
    rw [World.hasHead, hhead]
    exact hh
  have hout : ∀ s ∈ ss, ¬(s = a ∨ s ∈ blocksOf P) := fun s hs h => h.elim (fun e => hns (e ▸ hs)) (hsP s hs)
  have hslab : ∀ s, ss.find? (badSlab pat w) = some s → firstStop pat w ((a, ss) :: P) = some (.slab s) := by
    intro s hs
    rw [firstStop, hnone, hs]
  have hstop : ss.find? (badSlab pat w) = none → firstStop pat w ((a, ss) :: P) = if pat (.table a) ≠ 0 then some (.head a) else none := by
    intro hs
    rw [firstStop, hnone, hs]
  unfold htDestroyHead
  rw [wp_setOld hh₁, wp_bound]
  have hl₁ : SlabChain (w₁.setHead a { w₁.head a with old := none }) ((w₁.setHead a { w₁.head a with old := none }).head a).slabs ss := by
    rw [World.setHead_head, if_pos rfl, hhd]
    exact hl.congr fun s hs => hm.slabs s (hout s hs)
  refine wp_spec (htDestroySlabs_outcome hf ss _ _ ?_ (by simp) hl₁ hns) ?_
  · show ss.length < w₁.cells + w₁.mallocs + 1
    rw [hm.mallocs]
    omega
  rintro r w₂ ⟨hmem, hh₂, hold, hall, hstopped⟩
  have hfind₁ : ss.find? (badSlab pat (w₁.setHead a { w₁.head a with old := none })) = ss.find? (badSlab pat w) :=
    List.find?_congr fun s hs => hm.badSlab (hout s hs)
  rw [hfind₁] at hall hstopped
  have hmem₂ : Mem (· ∈ blocksOf ((a, ss) :: P)) w w₂ := by
    have hb : ∀ x, x = a ∨ x ∈ ss ∨ x ∈ blocksOf P → x ∈ blocksOf ((a, ss) :: P) := by
      intro x hx
      show x ∈ a :: ss ++ blocksOf P
      simpa using hx
    have hset : Mem (· = a) w₁ (w₁.setHead a { w₁.head a with old := none }) := Mem.setHead w₁ a _
    exact ((hm.mono fun x hx => hb x (hx.imp id Or.inr)).trans (hset.mono fun x hx => hb x (Or.inl hx))).trans
      (hmem.mono fun x hx => hb x (or_assoc.mp (Or.inl hx)))
  have hold₂ : (w₂.head a).old = none := by
    rw [hold, World.setHead_head, if_pos rfl]
  have hgone₂ : ∀ x ∈ P, w₂.heads x.1 = none ∧ ∀ s ∈ x.2, w₂.slabs s = none := by
    intro x hx
    have hnot : ∀ b ∈ x.1 :: x.2, ¬(b = a ∨ b ∈ ss) := by
      intro b hb h
      have hbP : b ∈ blocksOf P := mem_blocksOf.mpr ⟨x, hx, List.mem_cons.mp hb⟩
      exact h.elim (fun e => hnP (e ▸ hbP)) fun h => hsP b h hbP
    have hna : x.1 ≠ a := fun e => hnot x.1 List.mem_cons_self (Or.inl e)
    refine ⟨?_, fun s hs => ?_⟩
    · rw [hmem.heads x.1 (hnot x.1 List.mem_cons_self), World.setHead_heads, if_neg hna]
      exact (hgone x hx).1
    · rw [hmem.slabs s (hnot s (List.mem_cons_of_mem _ hs))]
      exact (hgone x hx).2 s hs
  cases hfind : ss.find? (badSlab pat w) with
  | some s =>
    obtain ⟨hr, ss', hsuf, hl', hcov, hleft⟩ := hstopped s hfind
    rw [if_pos hr]
    refine wp_ret.mpr (DestroyOutcome.here hc (hslab s hfind) hmem₂ hr hgone₂ hh₂ hold₂ hl' hsuf hcov (fun t ht => ?_) fun u hu => ?_)
    · have hts : ¬(t = a ∨ t ∈ blocksOf P) := hout t (hsuf.subset ht)
      obtain ⟨hcount, hmarks⟩ := hleft t ht
      have hsame : (w₁.setHead a { w₁.head a with old := none }).slab t = w.slab t := hm.slab hts
      refine ⟨by rw [hcount, hsame], fun j hj => ?_⟩
      rw [hmarks j (by rw [hsame]; exact hj)]
      show ((w₁.ents (t, j)).flags.lockInitialized && _) = _
      rw [hm.ents t j hts]
    · obtain rfl := Stop.slab.inj hu
      exact List.mem_cons_self
  | none =>
    replace hstop := hstop hfind
    obtain ⟨hr, hempty, hfreed⟩ := hall hfind
    rw [if_neg (by rw [hr]; decide)]
    apply wp_mono (htDestroyLocks_outcome hf hh₂)
    rintro r' w' ⟨hok, hfail⟩
    have hab : a ∈ blocksOf ((a, ss) :: P) := mem_blocksOf.mpr ⟨_, List.mem_cons_self, Or.inl rfl⟩
    by_cases hp : pat (.table a) = 0
    · obtain ⟨hr', lk, b, rfl⟩ := hok hp
      rw [if_neg (not_not.mpr hp)] at hstop
      refine ⟨?_, fun _ => ⟨hr', fun x hx => ?_⟩, fun st hst => ?_⟩
      · refine (hmem₂.trans ((Mem.dropHead w₂ a).mono fun x hx => ?_)).trans (Mem.withLocks _ _ lk b)
        rw [hx]
        exact hab
      · rcases List.mem_cons.mp hx with rfl | hx
        · exact ⟨if_pos rfl, hfreed⟩
        · refine ⟨?_, (hgone₂ x hx).2⟩
          show (if x.1 = a then none else w₂.heads x.1) = none
          rw [(hgone₂ x hx).1, ite_self]
      · rw [hstop] at hst
        cases hst
    · obtain ⟨hr', lk, b, rfl⟩ := hfail hp
      rw [if_pos hp] at hstop
      have hl' : SlabChain (w₂.withLocks lk b) ((w₂.withLocks lk b).head a).slabs [] :=
        ⟨hempty, List.nodup_nil, fun s hs => absurd hs List.not_mem_nil⟩
      refine DestroyOutcome.here hc hstop (hmem₂.trans (Mem.withLocks _ _ lk b)) hr' hgone₂ hh₂ hold₂ hl' List.nil_suffix
        (fun s hs hlive => ?_) (fun t ht => absurd ht List.not_mem_nil) fun s hs => by cases hs
      have hnone : (w₂.withLocks lk b).slabs s = none := hfreed s hs
      rw [World.hasSlab, hnone] at hlive
      cases hlive

theorem htDestroyFrom_outcome (hf : FailsOnly env pat) (P : List (Addr × List Addr)) : ∀ (a : Addr) (ss : List Addr) (fuel : Nat)
    (w : World), P.length < fuel → Owned w (some a) ((a, ss) :: P) → (∀ x ∈ (a, ss) :: P, x.2.length ≤ w.mallocs) →
    wp env (htDestroyFrom fuel a) (DestroyOutcome pat ((a, ss) :: P) w) w := by
  induction P with
  | nil =>
    intro a ss fuel w hfuel hc hlen
    obtain ⟨fuel, rfl⟩ : ∃ n, fuel = n + 1 := ⟨fuel - 1, by simp at hfuel; omega⟩
    obtain ⟨hh, -⟩ := hc.tables (a, ss) List.mem_cons_self
    have hold : (w.head a).old = none := hc.chain.2
    unfold htDestroyFrom
    rw [wrlock]
    refine wp_works hf (by decide) fun lk b => ?_
    rw [wp_setErrno, if_neg (by decide), wp_getOld (by exact hh), withLocks_withBook]
    have hold₁ : ∀ b, ((w.withLocks lk b).head a).old = none := fun _ => hold
    rw [hold₁]
    show wp env (htDestroyHead a) _ _
    exact htDestroyHead_outcome hf hc (hlen _ List.mem_cons_self) (Mem.withLocks _ w _ _) rfl (by simp) rfl
  | cons x P ih =>
    intro a ss fuel w hfuel hc hlen
    obtain ⟨fuel, rfl⟩ : ∃ n, fuel = n + 1 := ⟨fuel - 1, by simp at hfuel; omega⟩
    obtain ⟨o, so⟩ := x
    obtain ⟨hh, hl⟩ := hc.tables (a, ss) List.mem_cons_self
    obtain ⟨hns, hnP, hsP⟩ := hc.apart
    have hold : (w.head a).old = some o := hc.chain.2.1
    unfold htDestroyFrom
    rw [wrlock]
    refine wp_works hf (by decide) fun lk b => ?_
    rw [wp_setErrno, if_neg (by decide), wp_getOld (by exact hh), withLocks_withBook]
    have hold₁ : ∀ b, ((w.withLocks lk b).head a).old = some o := fun _ => hold
    rw [hold₁]
    -- the older tables
    have hP : Owned w (some o) ((o, so) :: P) :=
      ⟨hc.chain.2.1 ▸ hc.chain.2, fun x hx => hc.tables x (List.mem_cons_of_mem _ hx),
        hc.nodup.sublist (List.sublist_append_right (a :: ss) _)⟩
    refine wp_spec (ih o so fuel _ (by simpa using hfuel) (hP.congr (fun _ _ => rfl) fun _ _ => rfl) fun x hx =>
      hlen x (List.mem_cons_of_mem _ hx)) ?_
    rintro r w₁ ⟨hmem, hall, hstopped⟩
    dsimp only
    rw [firstStop_withLocks] at hall hstopped
    have hmem₁ : Mem (· ∈ blocksOf ((o, so) :: P)) w w₁ := (Mem.withLocks _ w _ _).trans hmem
    have hheads : w₁.heads a = w.heads a := hmem₁.heads a hnP
    cases hst : firstStop pat w ((o, so) :: P) with
    | none =>
      obtain ⟨hr, hgone⟩ := hall hst
      rw [if_neg (by rw [hr]; decide)]
      exact htDestroyHead_outcome hf hc (hlen _ List.mem_cons_self) (hmem₁.mono fun x hx => Or.inr hx) hheads hgone hst
    | some st =>
      obtain ⟨hr, P', hP', hleftof, hleft, hin⟩ := hstopped st hst
      rw [if_pos hr, wp_void, unlock]
      refine wp_works hf (by decide) fun lk' b' => wp_ret.mpr ?_
      have hstop : firstStop pat w ((a, ss) :: (o, so) :: P) = some st := by rw [firstStop, hst]
      have hhd : w₁.head a = w.head a := by rw [World.head, hheads, World.head]
      have hsub : (blocksOf ((a, ss) :: P')).Sublist (blocksOf ((a, ss) :: (o, so) :: P)) :=
        List.Sublist.append (List.Sublist.refl (a :: ss)) hleftof.blocks
      refine ⟨(hmem₁.mono fun x hx => List.mem_append_right (a :: ss) hx).trans (Mem.withLocks _ _ lk' b'), fun h => ?_, fun st' hst' =>
        ⟨hr, (a, ss) :: P', ⟨⟨rfl, ?_⟩, fun x hx => ?_, hc.nodup.sublist hsub⟩, ⟨fun x hx hm => ?_, fun x hx s hs hm => ?_, hsub⟩,
          fun x hx t ht => ?_, fun s hs => ?_⟩⟩
      · rw [hstop] at h
        cases h
      · show Chain _ ((w₁.withLocks lk' b').head a).old _
        rw [show ((w₁.withLocks lk' b').head a).old = some o by rw [← hold, ← hhd]; rfl]
        exact hP'.chain
      · rcases List.mem_cons.mp hx with rfl | hx
        · refine ⟨by rw [World.hasHead, show (w₁.withLocks lk' b').heads a = w.heads a from hheads]; exact hh, ?_⟩
          rw [show (w₁.withLocks lk' b').head a = w.head a from hhd]
          exact hl.congr fun s hs => hmem₁.slabs s (hsP s hs)
        · have hP'' : Owned (w₁.withLocks lk' b') _ P' := hP'.congr (fun _ _ => rfl) fun _ _ => rfl
          exact hP''.tables x hx
      · rcases List.mem_cons.mp hx with rfl | hx
        · exact List.mem_cons_self
        · exact List.mem_cons_of_mem _ (hleftof.heads x hx hm)
      · rcases List.mem_cons.mp hx with rfl | hx
        · exact ⟨_, List.mem_cons_self, hs⟩
        · obtain ⟨y, hy, hsy⟩ := hleftof.slabs x hx s hs hm
          exact ⟨y, List.mem_cons_of_mem _ hy, hsy⟩
      · obtain rfl : st = st' := Option.some.inj (hstop.symm.trans hst')
        rcases List.mem_cons.mp hx with rfl | hx
        · have hne : st ≠ .slab t := by
            rintro rfl
            obtain ⟨y, hy, hty⟩ := hin t rfl
            exact hsP t ht (hleftof.blocks.subset (mem_blocksOf.mpr ⟨y, hy, Or.inr hty⟩))
          exact Left.of_same (hmem₁.slab (hsP t ht)) (fun j => hmem₁.ents t j (hsP t ht)) hne
        · exact ⟨(hleft x hx t ht).count, (hleft x hx t ht).marks⟩
      · obtain rfl : st = st' := Option.some.inj (hstop.symm.trans hst')
        obtain ⟨y, hy, hsy⟩ := hin s hs
        exact ⟨y, List.mem_cons_of_mem _ hy, hsy⟩

theorem htDestroy_outcome (hf : FailsOnly env pat) {a : Addr} {ss : List Addr} {P : List (Addr × List Addr)}
    (hc : Owned w (some a) ((a, ss) :: P)) (hlen : P.length ≤ w.mallocs) (hss : ∀ x ∈ (a, ss) :: P, x.2.length ≤ w.mallocs) :
    wp env (htDestroy a) (DestroyOutcome pat ((a, ss) :: P) w) w := by
  unfold htDestroy
  rw [wp_bound]
  exact htDestroyFrom_outcome hf P a ss _ w (by omega) hc hss

/-! ## The second call -/

/-- The tables that `ht_destroy` goes through, with their slabs. -/
def World.tablesOf (w : World) (h : Addr) : List (Addr × List Addr) :=
  (follow (fun a => (w.head a).old) w.mallocs (some h)).map fun a => (a, w.slabsOf a)

theorem OldChain.tablesOf {P : List (Addr × List Addr)} (hc : OldChain w (some h) P) (hw : w.Fresh) : w.tablesOf h = P := by
  obtain ⟨hlen, hss⟩ := hc.length_le hw
  rw [World.tablesOf, hc.chain.follow_eq (by rwa [List.length_map]), List.map_map]
  have hslabs : ∀ x ∈ P, ((fun a => (a, w.slabsOf a)) ∘ Prod.fst) x = id x := by
    intro x hx
    have hfollow : w.slabsOf x.1 = x.2 := (hc.tables x hx).slabs.chain.follow_eq (hss x hx)
    exact Prod.ext rfl hfollow
  rw [List.map_congr_left hslabs, List.map_id]

theorem firstStop_none {P : List (Addr × List Addr)} :
    firstStop pat w P = none ↔ ∀ x ∈ P, pat (.table x.1) = 0 ∧ ∀ s ∈ x.2, badSlab pat w s = false := by
  induction P with
  | nil => simp [firstStop]
  | cons x P ih =>
    obtain ⟨a, ss⟩ := x
    rw [List.forall_mem_cons, ← ih, firstStop]
    cases hP : firstStop pat w P with
    | some st => simp
    | none =>
      cases hfind : ss.find? (badSlab pat w) with
      | some s =>
        have hmem := List.mem_of_find?_eq_some hfind
        have hbad := List.find?_some hfind
        constructor
        · intro h
          cases h
        · rintro ⟨⟨-, hgood⟩, -⟩
          rw [hgood s hmem] at hbad
          cases hbad
      | none =>
        have hgood : ∀ s ∈ ss, badSlab pat w s = false := fun s hs => Bool.eq_false_of_not_eq_true (List.find?_eq_none.mp hfind s hs)
        by_cases hp : pat (.table a) = 0
        · simpa [hp] using hgood
        · simp [hp]

theorem badSlab_false : badSlab pat w s = false ↔
    ∀ j, j < (w.slab s).entrycount → (w.ents (s, j)).flags.lockInitialized = true ∧ pat (.entry (s, j)) = 0 := by
  simp [badSlab, badCount, badEntry, List.countP_eq_zero, List.mem_range'_1]

/-- The number of entries of a slab whose `rwlock_destroy` is called and fails. -/
def failedCount (pat : LockId → Int) (w : World) (s : Addr) : Nat :=
  (List.range' 0 (w.slab s).entrycount).countP fun j => (w.ents (s, j)).flags.lockInitialized && decide (pat (.entry (s, j)) ≠ 0)

/-- Every entry of the table has its lock. -/
def AllMarked (w : World) (h : Addr) : Prop :=
  ∀ x ∈ w.tablesOf h, ∀ s ∈ x.2, ∀ j, j < (w.slab s).entrycount → (w.ents (s, j)).flags.lockInitialized = true

/-- When the first call stops, every entry still has its lock, and in the slab where it stops no lock can be destroyed. -/
def Retriable (pat : LockId → Int) (w : World) (h : Addr) : Prop :=
  ∀ st, firstStop pat w (w.tablesOf h) = some st →
    AllMarked w h ∧ ∀ s, st = .slab s → ∀ j, j < (w.slab s).entrycount → pat (.entry (s, j)) ≠ 0

/-- `ht_destroy_entries` counts the calls of `rwlock_destroy` that fail; and when `ht_destroy` fails under `env`, a second call, under
`env'`, returns `0` and leaves no slab. -/
def Retries (env env' : Env) (pat : LockId → Int) (w : World) (h : Addr) : Prop :=
  (∀ x ∈ w.tablesOf h, ∀ s ∈ x.2, ∃ w', (htDestroyEntries s 0 (w.slab s).entrycount 0 0).exec (step env) w =
    some ((failedCount pat w s : Int), w')) ∧
  ∃ r w₁, (htDestroy h).exec (step env) w = some (r, w₁) ∧
    (r ≠ 0 → ∃ w₂, (htDestroy h).exec (step env') w₁ = some (0, w₂) ∧ ∀ s, w₂.hasSlab s = false)

/-- The entries that count as errors: those whose lock could not be destroyed, and those that have none. -/
theorem badCount_eq : badCount pat w s 0 (w.slab s).entrycount =
    failedCount pat w s + (List.range' 0 (w.slab s).entrycount).countP fun j => !(w.ents (s, j)).flags.lockInitialized := by
  unfold badCount failedCount
  rw [List.countP_eq_countP_filter_add _ _ fun j => (w.ents (s, j)).flags.lockInitialized, List.countP_filter, List.countP_filter]
  congr 2
  · funext j
    cases hm : (w.ents (s, j)).flags.lockInitialized <;> simp [badEntry, hm]
  · funext j
    cases hm : (w.ents (s, j)).flags.lockInitialized <;> simp [badEntry, hm]

/-- The counts agree exactly when every entry has its lock. -/
theorem badCount_eq_failedCount : badCount pat w s 0 (w.slab s).entrycount = failedCount pat w s ↔
    ∀ j, j < (w.slab s).entrycount → (w.ents (s, j)).flags.lockInitialized = true := by
  rw [badCount_eq, Nat.add_eq_left, List.countP_eq_zero]
  simp [List.mem_range'_1]

theorem blocksOf_length (P : List (Addr × List Addr)) :
    P.length ≤ (blocksOf P).length ∧ ∀ x ∈ P, x.2.length ≤ (blocksOf P).length := by
  induction P with
  | nil => exact ⟨Nat.le_refl _, fun x hx => absurd hx List.not_mem_nil⟩
  | cons y P ih =>
    have hcons : (blocksOf (y :: P)).length = y.2.length + 1 + (blocksOf P).length := by
      show (y.1 :: y.2 ++ blocksOf P).length = _
      rw [List.length_append, List.length_cons]
    rw [hcons, List.length_cons]
    refine ⟨by omega, fun x hx => ?_⟩
    rcases List.mem_cons.mp hx with rfl | hx
    · omega
    · have := ih.2 x hx
      omega

/-- What `ht_destroy` does to tables that fit into the memory. -/
theorem Owned.destroy {P : List (Addr × List Addr)} (hf : FailsOnly env pat) (hc : Owned w (some h) P)
    (hlen : (blocksOf P).length ≤ w.mallocs) : wp env (htDestroy h) (DestroyOutcome pat P w) w := by
  obtain ⟨ss, P₀, rfl⟩ : ∃ ss P₀, P = (h, ss) :: P₀ := by
    cases P with
    | nil => cases hc.chain
    | cons x P =>
      obtain rfl : x.1 = h := Option.some.inj hc.chain.1.symm
      exact ⟨x.2, P, rfl⟩
  obtain ⟨h1, h2⟩ := blocksOf_length ((h, ss) :: P₀)
  rw [List.length_cons] at h1
  exact htDestroy_outcome hf hc (by omega) fun x hx => (h2 x hx).trans hlen

/-- With lock calls that succeed, `ht_destroy` returns `0` exactly when every entry has its lock, and then leaves no slab. -/
theorem Owned.destroy_zero {P : List (Addr × List Addr)} (hz : AllZero env) (hc : Owned w (some h) P)
    (hlen : (blocksOf P).length ≤ w.mallocs) : wp env (htDestroy h) (fun r w' =>
      (r = 0 ↔ ∀ x ∈ P, ∀ s ∈ x.2, ∀ j, j < (w.slab s).entrycount → (w.ents (s, j)).flags.lockInitialized = true) ∧
        (r = 0 → Mem (· ∈ blocksOf P) w w' ∧ ∀ x ∈ P, ∀ s ∈ x.2, w'.slabs s = none)) w := by
  refine wp_mono (hc.destroy hz.failsOnly hlen) fun r w' ho => ?_
  have hiff : firstStop (fun _ => 0) w P = none ↔
      ∀ x ∈ P, ∀ s ∈ x.2, ∀ j, j < (w.slab s).entrycount → (w.ents (s, j)).flags.lockInitialized = true := by
    simp [firstStop_none, badSlab_false]
  rw [← hiff]
  cases hst : firstStop (fun _ => 0) w P with
  | none =>
    obtain ⟨hr, hgone⟩ := ho.all hst
    exact ⟨⟨fun _ => rfl, fun _ => hr⟩, fun _ => ⟨ho.mem, fun x hx => (hgone x hx).2⟩⟩
  | some st =>
    obtain ⟨hr, -⟩ := ho.stopped st hst
    exact ⟨⟨fun h => absurd h hr, fun h => by cases h⟩, fun h => absurd h hr⟩

/-- A first call that may fail, then one whose lock calls succeed. -/
theorem retries_iff_retriable {env' : Env} {P : List (Addr × List Addr)} (hf : FailsOnly env pat) (hz : AllZero env')
    (hw : w.Fresh) (ho : Owns w h P) : Retries env env' pat w h ↔ Retriable pat w h := by
  have hP := ho.chain.tablesOf hw
  have hlen : (blocksOf P).length ≤ w.mallocs := by
    have hle := (List.subperm_of_subset ho.chain.nodup fun a ha => List.mem_range.mpr (ho.lt hw ha)).length_le
    rwa [List.length_range] at hle
  have hvalid : ∀ x ∈ P, ∀ s ∈ x.2, ∀ j, 0 ≤ j → j < 0 + (w.slab s).entrycount → w.valid (s, j) = true := by
    intro x hx s hs j _ hj
    obtain ⟨hlive, hle⟩ := (ho.chain.tables x hx).slabs.live s hs
    rw [World.valid_eq, hlive]
    simp only [Bool.true_and, decide_eq_true_eq]
    omega
  have hhead : P.head?.map Prod.fst = some h := by
    cases P with
    | nil => cases ho.chain.chain
    | cons x P => exact ho.chain.chain.1.symm
  have hentries : ∀ x ∈ P, ∀ s ∈ x.2, ∃ w', (htDestroyEntries s 0 (w.slab s).entrycount 0 0).exec (step env) w =
      some ((badCount pat w s 0 (w.slab s).entrycount : Int), w') := by
    intro x hx s hs
    obtain ⟨r, w', hrun, hr, -⟩ := htDestroyEntries_count hf s _ 0 0 0 w (hvalid x hx s hs)
    rw [zero_add] at hr
    exact ⟨w', hr ▸ hrun⟩
  obtain ⟨r, w₁, he, hout⟩ := ho.chain.owned.destroy hf hlen
  -- the second call, when the first one has stopped
  have hsecond : ∀ P', Owned w₁ (P.head?.map Prod.fst) P' → LeftOf w₁ P P' → ∃ r₂ w₂, (htDestroy h).exec (step env') w₁ = some (r₂, w₂) ∧
      (r₂ = 0 ↔ ∀ x ∈ P', ∀ s ∈ x.2, ∀ j, j < (w₁.slab s).entrycount → (w₁.ents (s, j)).flags.lockInitialized = true) ∧
      (r₂ = 0 → ∀ s, w₂.hasSlab s = false) := by
    intro P' hP' hleftof
    rw [hhead] at hP'
    obtain ⟨r₂, w₂, he₂, hiff, hgone⟩ := hP'.destroy_zero hz (hleftof.blocks.length_le.trans (hout.mem.mallocs ▸ hlen))
    refine ⟨r₂, w₂, he₂, hiff, fun hr₂ s => Bool.eq_false_of_not_eq_true fun hlive => ?_⟩
    obtain ⟨hmem, hnone⟩ := hgone hr₂
    have hlive₁ := hmem.live s hlive
    obtain ⟨x, hx, hs⟩ := (ho.slabs s).mp (hout.mem.live s hlive₁)
    obtain ⟨y, hy, hsy⟩ := hleftof.slabs x hx s hs hlive₁
    rw [World.hasSlab, hnone y hy s hsy] at hlive
    cases hlive
  constructor
  · rintro ⟨hcounts, r', w₁', he', hretry⟩ st hst
    obtain ⟨rfl, rfl⟩ := Prod.mk.inj (Option.some.inj (he'.symm.trans he))
    rw [hP] at hst
    obtain ⟨hr, P', hP', hleftof, hleft, hin⟩ := hout.stopped st hst
    refine ⟨fun x hx s hs => ?_, ?_⟩
    · obtain ⟨w', hcount⟩ := hcounts x hx s hs
      obtain ⟨w'', hbad⟩ := hentries x (hP ▸ hx) s hs
      have heq := (Prod.mk.inj (Option.some.inj (hbad.symm.trans hcount))).1
      have hcnt : badCount pat w s 0 (w.slab s).entrycount = failedCount pat w s := by exact_mod_cast heq
      exact badCount_eq_failedCount.mp hcnt
    · rintro s rfl j hj
      obtain ⟨x, hx, hs⟩ := hin s rfl
      obtain ⟨hcount, hmarks⟩ := hleft x hx s hs
      obtain ⟨r₂, w₂, he₂, hiff, -⟩ := hsecond P' hP' hleftof
      obtain ⟨w₂', hzero, -⟩ := hretry hr
      have hr₂ : r₂ = 0 := (Prod.mk.inj (Option.some.inj (he₂.symm.trans hzero))).1
      have hmark := hiff.mp hr₂ x hx s hs j (by rw [hcount]; exact hj)
      rw [hmarks j hj] at hmark
      simpa using (Bool.and_eq_true_iff.mp hmark).2
  · intro hret
    refine ⟨fun x hx s hs => ?_, r, w₁, he, fun hr => ?_⟩
    · rw [hP] at hx
      obtain ⟨w', hbad⟩ := hentries x hx s hs
      have hmarks : ∀ j, j < (w.slab s).entrycount → (w.ents (s, j)).flags.lockInitialized = true := by
        cases hst : firstStop pat w P with
        | none =>
          have hgood := (firstStop_none.mp hst x hx).2 s hs
          exact fun j hj => (badSlab_false.mp hgood j hj).1
        | some st => exact (hret st (by rw [hP]; exact hst)).1 x (by rw [hP]; exact hx) s hs
      exact ⟨w', by rw [hbad, badCount_eq_failedCount.mpr hmarks]⟩
    · cases hst : firstStop pat w P with
      | none => exact absurd (hout.all hst).1 hr
      | some st =>
        obtain ⟨-, P', hP', hleftof, hleft, -⟩ := hout.stopped st hst
        obtain ⟨hmarks, hfails⟩ := hret st (by rw [hP]; exact hst)
        obtain ⟨r₂, w₂, he₂, hiff, hgone⟩ := hsecond P' hP' hleftof
        have hr₂ : r₂ = 0 := by
          refine hiff.mpr fun x hx s hs j hj => ?_
          obtain ⟨hcount, hmarks₁⟩ := hleft x hx s hs
          rw [hcount] at hj
          obtain ⟨y, hy, hsy⟩ := (ho.slabs s).mp (hout.mem.live s (((hP'.tables x hx).2.live s hs).1))
          have hmark := hmarks y (by rw [hP]; exact hy) s hsy j hj
          rw [hmarks₁ j hj, hmark]
          by_cases hse : st = .slab s
          · simp [hfails s hse j hj]
          · simp [hse]
        subst hr₂
        exact ⟨w₂, he₂, hgone rfl⟩

/-- `ht_destroy` of a table, some of whose `rwlock_destroy` calls fail, and a second call. -/
theorem retries_iff {env₀ env' : Env} {n ks : Nat} {opts : Options} (hok : LockOk env₀) (hnull : NullFill env₀)
    (hr : Reached c env₀ n ks opts h w) (hf : FailsOnly env pat) (hz : AllZero env') : Retries env env' pat w h ↔ Retriable pat w h := by
  obtain ⟨S, P, hh, hi, -⟩ := hr.kept hok hnull
  exact retries_iff_retriable hf hz hh.fresh (hh.owns hi)

/-- `rwlock_destroy` of the locks in `pat` fails. -/
def Env.refusing (pat : LockId → Int) : Env where
  malloc _ := some Fill.zero
  lockRet _ o l _ := failing pat o l

/-- The lock of the first entry is busy. -/
def busyFirst (l : LockId) : Int := if l = .entry (1, 0) then 16 else 0

theorem retries_iff_sample : ∃ w, Reached .sample (Env.allZero fun _ => true) 2 1 ⟨false, false⟩ 0 w ∧
    (Retries (Env.refusing busyFirst) (Env.allZero fun _ => true) busyFirst w 0 ↔ Retriable busyFirst w 0) := by
  have hz := Env.allZero_allZero fun _ => true
  obtain ⟨w, hc⟩ := created_of_got hz.ok (by decide : 2 ≠ 0) 1 ⟨false, false⟩ (by simp [Env.allZero]) (by simp [Env.allZero])
  have hr : Reached .sample (Env.allZero fun _ => true) 2 1 ⟨false, false⟩ 0 w := ⟨w, [], [], hc, rfl⟩
  exact ⟨w, hr, retries_iff hz.ok (Env.allZero_nullFill _) hr (fun _ _ _ _ => rfl) hz⟩

/-- Two entries: the lock of one is destroyed, that of the other is busy; the second call returns `1`. -/
theorem not_retries : ∃ w, Reached .sample (Env.allZero fun _ => true) 2 1 ⟨false, false⟩ 0 w ∧
    ¬Retries (Env.refusing busyFirst) (Env.allZero fun _ => true) busyFirst w 0 := by
  have hrun : ((htCreate 2 1 ⟨false, false⟩).exec (step (Env.allZero fun _ => true)) World.empty).bind (fun x =>
      ((htDestroy 0).exec (step (Env.refusing busyFirst)) x.2).bind fun y =>
        ((htDestroy 0).exec (step (Env.allZero fun _ => true)) y.2).map fun z => (x.1, y.1, z.1)) = some (some 0, 1, 1) := by
    decide
  obtain ⟨⟨h, w⟩, hc, hrest⟩ := Option.bind_eq_some_iff.mp hrun
  obtain ⟨⟨r, w₁⟩, hfirst, hrest⟩ := Option.bind_eq_some_iff.mp hrest
  obtain ⟨⟨r₂, w₂⟩, hsecond, hrets⟩ := Option.map_eq_some_iff.mp hrest
  cases hrets
  refine ⟨w, ⟨w, [], [], hc, rfl⟩, ?_⟩
  rintro ⟨-, r', w₁', hfirst', hretry⟩
  rw [hfirst] at hfirst'
  cases hfirst'
  obtain ⟨w₂', hzero, -⟩ := hretry (by decide)
  rw [hsecond] at hzero
  cases hzero

end ZfsTest.Hashtable
