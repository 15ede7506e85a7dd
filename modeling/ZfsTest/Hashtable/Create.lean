import ZfsTest.Hashtable.Wp

/-!
# Statistics, slabs and creation

What the functions below the client calls do. The statistics functions change the book only (`wp_count`, `wp_increment`,
`wp_update`), as long as their mutexes are free (`StatsFree`). `ht_create_slab` fails, or returns a slab of blank entries
(`htCreateSlab_spec`); `ht_create` fails and leaves nothing allocated, or returns a head whose table is such a slab
(`htCreate_spec`). The fresh bytes survive in two places only: `ht->old` of the new head, and `header.next` of the slab.
-/

namespace ZfsTest.Hashtable

open Prog

variable {env : Env} {β : Type} {w : World} {Q : β → World → Prop}

/-! ## Statistics -/

/-- The head exists and the mutexes of its statistics are free. -/
structure StatsFree (w : World) (h : Addr) : Prop where
  head : w.hasHead h = true
  counter : ∀ i, w.locks (.counter h i) = .free
  average : ∀ i, w.locks (.average h i) = .free

theorem StatsFree.congr {w' : World} {h : Addr} (hs : StatsFree w h) (hh : w'.hasHead h = true)
    (hl : ∀ l, l.block = h → w'.locks l = w.locks l) : StatsFree w' h :=
  ⟨hh, fun i => (hl _ rfl).trans (hs.counter i), fun i => (hl _ rfl).trans (hs.average i)⟩

theorem StatsFree.withBook {h : Addr} (hs : StatsFree w h) (b : Book) : StatsFree (w.withBook b) h :=
  ⟨hs.head, hs.counter, hs.average⟩

theorem wp_void {p : Code β} {γ : Type} {k : Unit → Code γ} {R : γ → World → Prop} :
    wp env (void p >>= k) R w ↔ wp env (p >>= fun _ => k ()) R w := by
  unfold void
  rw [Prog.bind_assoc]
  rfl

/-- The book after `ht_counter_add`. -/
def Book.count (b : Book) (h : Addr) (i : CounterId) (d : UInt64) : Book :=
  ⟨fun a => if a = h then (b.stats h).setCounter i ((b.stats h).counter i + d) else b.stats a, 0, b.lockCalls + 2, b.misuse⟩

/-- The book after an update of an average. -/
def Book.setAverage (b : Book) (h : Addr) (i : AverageId) (v : Average) : Book :=
  ⟨fun a => if a = h then (b.stats h).setAverage i v else b.stats a, b.errno, b.lockCalls + 2, b.misuse⟩

theorem wp_htCounterAdd (hok : LockOk env) {h : Addr} (hs : StatsFree w h) {i : CounterId} {d : UInt64}
    {k : Int → Code β} : wp env (htCounterAdd h i d >>= k) Q w ↔ wp env (k 0) Q (w.withBook (w.book.count h i d)) := by
  unfold htCounterAdd wrlock unlock
  simp only [Prog.bind_assoc]
  rw [wp_lockCall hok (by rw [hs.counter]; rfl), wp_setErrno]
  simp only [ne_eq, not_true_eq_false, ↓reduceIte, Prog.bind_assoc]
  rw [wp_addCounter (by exact hs.head), wp_lockCall hok (by simp), wp_setErrno]
  simp [Book.count, World.setLock_setLock_free (hs.counter i)]

theorem wp_htAverageIncrement (hok : LockOk env) {h : Addr} (hs : StatsFree w h) {i : AverageId} {x : UInt64}
    {k : Int → Code β} : wp env (htAverageIncrement h i x >>= k) Q w ↔
      wp env (k 0) Q (w.withBook (w.book.setAverage h i (((w.book.stats h).average i).increment x))) := by
  unfold htAverageIncrement wrlock unlock
  simp only [Prog.bind_assoc]
  rw [wp_lockCall hok (by rw [hs.average]; rfl)]
  simp only [ne_eq, not_true_eq_false, ↓reduceIte, Prog.bind_assoc]
  rw [wp_incrementAverage (by exact hs.head), wp_lockCall hok (by simp)]
  simp [Book.setAverage, World.setLock_setLock_free (hs.average i)]

theorem wp_htAverageUpdate (hok : LockOk env) {h : Addr} (hs : StatsFree w h) {i : AverageId} {n m x y : UInt64}
    {k : Int → Code β} : wp env (htAverageUpdate h i n m x y >>= k) Q w ↔
      wp env (k 0) Q (w.withBook (w.book.setAverage h i (((w.book.stats h).average i).update n m x y))) := by
  unfold htAverageUpdate wrlock unlock
  simp only [Prog.bind_assoc]
  rw [wp_lockCall hok (by rw [hs.average]; rfl)]
  simp only [ne_eq, not_true_eq_false, ↓reduceIte, Prog.bind_assoc]
  rw [wp_updateAverage (by exact hs.head), wp_lockCall hok (by simp)]
  simp [Book.setAverage, World.setLock_setLock_free (hs.average i)]

/-- From the book `b` to the book `b'` every lock call was a correct use, and `errno` is now `e`. -/
structure Quiet (b : Book) (e : Int) (b' : Book) : Prop where
  errno : b'.errno = e
  misuse : b'.misuse = b.misuse

theorem Quiet.refl (b : Book) : Quiet b b.errno b := ⟨rfl, rfl⟩

theorem Quiet.cast {b b' : Book} {e e' : Int} (h : Quiet b e b') (he : e = e') : Quiet b e' b' := he ▸ h

theorem Quiet.trans {b₁ b₂ b₃ : Book} {e e' : Int} (h : Quiet b₁ e b₂) (h' : Quiet b₂ e' b₃) : Quiet b₁ e' b₃ :=
  ⟨h'.errno, h'.misuse.trans h.misuse⟩

/-- Counting changes the book and clears `errno`. -/
theorem wp_count (hok : LockOk env) {h : Addr} (hs : StatsFree w h) {i : CounterId} {d : UInt64} {k : Unit → Code β}
    (hk : ∀ b : Book, Quiet w.book 0 b → wp env (k ()) Q (w.withBook b)) :
    wp env (void (htCounterAdd h i d) >>= k) Q w := by
  rw [wp_void, wp_htCounterAdd hok hs]
  exact hk _ ⟨rfl, rfl⟩

/-- An average changes the book and keeps `errno`. -/
theorem wp_increment (hok : LockOk env) {h : Addr} (hs : StatsFree w h) {i : AverageId} {x : UInt64} {k : Unit → Code β}
    (hk : ∀ b : Book, Quiet w.book w.book.errno b → wp env (k ()) Q (w.withBook b)) :
    wp env (void (htAverageIncrement h i x) >>= k) Q w := by
  rw [wp_void, wp_htAverageIncrement hok hs]
  exact hk _ ⟨rfl, rfl⟩

theorem wp_update (hok : LockOk env) {h : Addr} (hs : StatsFree w h) {i : AverageId} {n m x y : UInt64}
    {k : Unit → Code β} (hk : ∀ b : Book, Quiet w.book w.book.errno b → wp env (k ()) Q (w.withBook b)) :
    wp env (void (htAverageUpdate h i n m x y) >>= k) Q w := by
  rw [wp_void, wp_htAverageUpdate hok hs]
  exact hk _ ⟨rfl, rfl⟩

/-- A lock call that is a correct use changes the lock. -/
theorem wp_lock (hok : LockOk env) {o : LockOp} {l : LockId} {k : Int → Code β} (hp : o.proper (w.locks l) = true)
    (hk : ∀ b : Book, Quiet w.book w.book.errno b → wp env (k 0) Q ((w.setLock l o.after).withBook b)) :
    wp env (lockCall o l >>= k) Q w := by
  rw [wp_lockCall hok hp]
  exact hk _ ⟨rfl, rfl⟩

/-! ## Slabs -/

/-- The memory from block `w.mallocs` on is untouched. -/
structure World.Fresh (w : World) : Prop where
  heads : ∀ a, w.mallocs ≤ a → w.heads a = none
  slabs : ∀ a, w.mallocs ≤ a → w.slabs a = none
  locks : ∀ l, w.mallocs ≤ l.block → w.locks l = .uninit

/-- An entry after `ht_init_entries`. -/
def Entry.blank : Entry := ⟨none, 0, 0, ⟨false, true⟩⟩

/-- Entries `i, …, i + n - 1` of a slab initialised. -/
def World.blankEntries (w : World) (s : Addr) (i n : Nat) : World :=
  { w with
    ents := fun p => if p.1 = s ∧ i ≤ p.2 ∧ p.2 < i + n then .blank else w.ents p
    locks := fun l => match l with
      | .entry p => if p.1 = s ∧ i ≤ p.2 ∧ p.2 < i + n then .free else w.locks (.entry p)
      | l => w.locks l }

theorem World.blankEntries_zero (w : World) (s : Addr) (i : Nat) : w.blankEntries s i 0 = w := by
  unfold blankEntries
  have he : (fun p : EntryPtr => if p.1 = s ∧ i ≤ p.2 ∧ p.2 < i + 0 then Entry.blank else w.ents p) = w.ents := by
    funext p
    rw [if_neg (by omega)]
  have hl : (fun l => match l with
      | .entry p => if p.1 = s ∧ i ≤ p.2 ∧ p.2 < i + 0 then .free else w.locks (.entry p)
      | l => w.locks l) = w.locks := by
    funext l
    cases l with
    | entry p => simp only; rw [if_neg (by omega)]
    | _ => rfl
  rw [he, hl]

/-- The first entry, then the rest. -/
theorem World.blankEntries_succ (w : World) (s : Addr) (i n : Nat) :
    ((w.setEnt (s, i) .blank).setLock (.entry (s, i)) .free).blankEntries s (i + 1) n = w.blankEntries s i (n + 1) := by
  have hp : ∀ p : EntryPtr, p.1 = s ∧ i ≤ p.2 ∧ p.2 < i + (n + 1) ↔
      p = (s, i) ∨ p.1 = s ∧ i + 1 ≤ p.2 ∧ p.2 < i + 1 + n := by
    rintro ⟨a, j⟩
    simp only [Prod.mk.injEq]
    constructor
    · rintro ⟨rfl, h1, h2⟩
      by_cases hj : j = i
      · exact Or.inl ⟨rfl, hj⟩
      · exact Or.inr ⟨rfl, by omega, by omega⟩
    · rintro (⟨rfl, rfl⟩ | ⟨rfl, h1, h2⟩)
      · exact ⟨rfl, by omega, by omega⟩
      · exact ⟨rfl, by omega, by omega⟩
  unfold blankEntries setLock setEnt
  congr 1
  · funext p
    simp only [hp p]
    by_cases h1 : p = (s, i) <;> by_cases h2 : p.1 = s ∧ i + 1 ≤ p.2 ∧ p.2 < i + 1 + n <;> simp [h1, h2]
  · funext l
    cases l with
    | entry p =>
      simp only [hp p, LockId.entry.injEq]
      by_cases h1 : p = (s, i) <;> by_cases h2 : p.1 = s ∧ i + 1 ≤ p.2 ∧ p.2 < i + 1 + n <;> simp [h1, h2]
    | _ => simp

theorem htInitEntries_spec (hok : LockOk env) (s : Addr) (n : Nat) : ∀ (i : Nat) (result : Int) (w : World),
    (∀ j, i ≤ j → j < i + n → w.valid (s, j) = true ∧ w.locks (.entry (s, j)) = .uninit) →
    wp env (htInitEntries s i n result)
      (fun r w' => r = result ∧ ∃ b : Book, Quiet w.book w.book.errno b ∧ w' = (w.blankEntries s i n).withBook b) w := by
  induction n with
  | zero =>
    intro i result w _
    unfold htInitEntries
    refine wp_ret.mpr ⟨rfl, w.book, Quiet.refl _, ?_⟩
    rw [World.blankEntries_zero]
    rfl
  | succ n ih =>
    intro i result w hw
    obtain ⟨hv, hl⟩ := hw i (by omega) (by omega)
    unfold htInitEntries rwlockInit
    rw [wp_setNext hv, wp_setFlags (by exact hv), wp_setData (by exact hv), wp_setKey (by exact hv),
      wp_getFlags (by exact hv)]
    simp only [World.setEnt_setEnt, World.setEnt_ents, ↓reduceIte, guarded, Bool.not_false]
    rw [wp_lockCall hok (by simp [hl, LockOp.proper])]
    simp only [ne_eq, not_true_eq_false, ↓reduceIte]
    rw [wp_getFlags (by exact hv), wp_setFlags (by exact hv)]
    simp only [LockOp.after, World.withBook_setEnt, World.withBook_ents, World.setLock_ents, World.setEnt_ents,
      ↓reduceIte]
    refine wp_mono (ih (i + 1) result _ ?_) ?_
    · intro j h1 h2
      obtain ⟨hv', hl'⟩ := hw j (by omega) (by omega)
      refine ⟨hv', ?_⟩
      have : j ≠ i := by omega
      simpa [this, World.setEnt] using hl'
    · rintro r w' ⟨rfl, b, hb, rfl⟩
      refine ⟨rfl, b, ⟨hb.errno, hb.misuse⟩, ?_⟩
      rw [← World.blankEntries_succ]
      simp only [World.blankEntries, World.setEnt, World.setLock, World.withBook, Entry.blank]
      congr 1
      funext p
      by_cases h1 : p = (s, i) <;> simp [h1]

/-- A new slab of `n` blank entries; `header.next` is still what the fresh block held. -/
def World.newSlab (w : World) (n : Nat) (next : Option Addr) : World :=
  { w with
    slabs := fun a => if a = w.mallocs then some ⟨next, n, n⟩ else w.slabs a
    ents := fun p => if p.1 = w.mallocs ∧ p.2 < n then .blank else w.ents p
    locks := fun l => match l with
      | .entry p => if p.1 = w.mallocs ∧ p.2 < n then .free else w.locks (.entry p)
      | l => w.locks l
    mallocs := w.mallocs + 1
    cells := w.cells + n }

theorem wp_mallocSlab {n : Nat} {k : Option Addr → Code β} :
    wp env (mallocSlab n >>= k) Q w ↔
      match env.malloc w.mallocs with
      | none => wp env (k none) Q w.noMalloc
      | some f => wp env (k (some w.mallocs)) Q (w.allocSlab n f) := by
  cases h : env.malloc w.mallocs with
  | none => exact wp_op_of (by simp only [step, h, World.noMalloc])
  | some f => exact wp_op_of (by simp only [step, h])

theorem wp_mallocHead {k : Option Addr → Code β} :
    wp env (mallocHead >>= k) Q w ↔
      match env.malloc w.mallocs with
      | none => wp env (k none) Q w.noMalloc
      | some f => wp env (k (some w.mallocs)) Q (w.allocHead f) := by
  cases h : env.malloc w.mallocs with
  | none => exact wp_op_of (by simp only [step, h, World.noMalloc])
  | some f => exact wp_op_of (by simp only [step, h])

/-- Initialising the entries of a fresh slab. -/
theorem World.blankEntries_alloc (w : World) (n : Nat) (f : Fill) :
    ((w.allocSlab n f).setSlab w.mallocs ⟨f.next, n, n⟩).blankEntries w.mallocs 0 n = w.newSlab n f.next := by
  unfold blankEntries allocSlab newSlab
  simp only [setSlab]
  congr 1
  · funext a
    by_cases ha : a = w.mallocs <;> simp [ha]
  · funext p
    by_cases hp : p.1 = w.mallocs ∧ p.2 < n <;> simp [hp]
  · funext l
    cases l with
    | entry p => by_cases hp : p.1 = w.mallocs ∧ p.2 < n <;> simp [hp]
    | _ => rfl

/-- `ht_create_slab` fails and has allocated nothing, or returns a new slab. -/
theorem htCreateSlab_spec (hok : LockOk env) (hw : w.Fresh) (n : Nat) :
    wp env (htCreateSlab n)
      (fun r w' => ∃ b : Book, b.misuse = w.book.misuse ∧
        ((r = none ∧ (n = 0 ∧ w' = w.withBook b ∨
          n ≠ 0 ∧ env.malloc w.mallocs = none ∧ w' = w.noMalloc.withBook b)) ∨
        (n ≠ 0 ∧ ∃ f, env.malloc w.mallocs = some f ∧ r = some w.mallocs ∧ w' = (w.newSlab n f.next).withBook b))) w := by
  unfold htCreateSlab
  by_cases hn : n = 0
  · rw [if_pos hn, wp_setErrno]
    exact wp_ret.mpr ⟨{ w.book with errno := EINVAL }, rfl, Or.inl ⟨rfl, Or.inl ⟨hn, rfl⟩⟩⟩
  · rw [if_neg hn, wp_mallocSlab]
    cases hm : env.malloc w.mallocs with
    | none =>
      dsimp only
      rw [wp_setErrno]
      exact wp_ret.mpr ⟨{ w.book with errno := ENOMEM }, rfl, Or.inl ⟨rfl, Or.inr ⟨hn, rfl, rfl⟩⟩⟩
    | some f =>
      dsimp only
      rw [wp_initSlab (by simp [World.allocSlab, World.setSlab, World.hasSlab]),
        wp_getEntrycount (by simp [World.allocSlab, World.setSlab, World.hasSlab])]
      have hsl : ((w.allocSlab n f).slab w.mallocs) = ⟨f.next, f.entrycount, n⟩ := by
        simp [World.allocSlab, World.setSlab, World.slab]
      simp only [hsl, World.setSlab_slab, ↓reduceIte]
      refine wp_spec (htInitEntries_spec hok w.mallocs n 0 0 _ ?_) ?_
      · intro j _ hj
        refine ⟨by simp [World.valid]; omega, ?_⟩
        exact hw.locks (.entry (w.mallocs, j)) (Nat.le_refl _)
      · rintro r w' ⟨rfl, b, hb, rfl⟩
        simp only [ne_eq, not_true_eq_false, ↓reduceIte]
        refine wp_ret.mpr ⟨b, hb.misuse, Or.inr ⟨hn, f, rfl, rfl, ?_⟩⟩
        rw [World.blankEntries_alloc]

/-! ## Creation -/

/-- The locks of a head after their initialisation. -/
def World.initLocks (w : World) (h : Addr) : World :=
  { w with locks := fun l => match l with
    | .entry p => w.locks (.entry p)
    | l => if l.block = h then .free else w.locks l }

/-- The memory after `ht_create`: a head and its table. `old` and `next` are what the fresh blocks held. -/
def World.newTable (w : World) (n : Nat) (keysize : Nat) (options : Options) (old next : Option Addr) : World :=
  ((w.noMalloc.setHead w.mallocs
    { keysize := intOfSize keysize, options := options, old := old, slabs := some (w.mallocs + 1),
      table := some (w.mallocs + 1), freechain := none,
      thresholdEvaluate := some htEvaluateThresholdDefault }).initLocks w.mallocs).newSlab n next

/-- A failed `ht_create`: nothing below `w.mallocs` has changed and nothing is left allocated from there on. -/
structure CreateFailed (w w' : World) : Prop where
  heads : w'.heads = w.heads
  slabs : w'.slabs = w.slabs
  ents : w'.ents = w.ents
  locks : ∀ l, l.block < w.mallocs → w'.locks l = w.locks l
  misuse : w'.book.misuse = w.book.misuse
  mallocs : w.mallocs ≤ w'.mallocs
  cells : w'.cells = w.cells
  fresh : w'.Fresh

/-- The locks `ls` initialised. -/
def World.setFree (w : World) (ls : List LockId) : World :=
  { w with locks := fun l => if l ∈ ls then .free else w.locks l }

/-- The call initialises the lock `l` of the head `h`. -/
def Inits (env : Env) (h : Addr) (p : Code Int) (l : LockId) : Prop :=
  ∀ w : World, w.hasHead h = true → w.locks l = .uninit →
    wp env p (fun r w' => r = 0 ∧ ∃ b : Book, b.misuse = w.book.misuse ∧ w' = (w.setLock l .free).withBook b) w

theorem inits_rwlockInit (hok : LockOk env) (h : Addr) (l : LockId) : Inits env h (rwlockInit l) l := by
  intro w _ hl
  unfold rwlockInit
  rw [wp_last, wp_lockCall hok (by rw [hl]; rfl)]
  exact wp_ret.mpr ⟨rfl, { w.book with lockCalls := w.book.lockCalls + 1 }, rfl, rfl⟩

theorem inits_htAverageInit (hok : LockOk env) (h : Addr) (i : AverageId) :
    Inits env h (htAverageInit h i) (.average h i) := by
  intro w hh hl
  unfold htAverageInit
  rw [wp_initAverage hh]
  refine wp_mono (inits_rwlockInit hok h _ _ hh hl) ?_
  rintro r w' ⟨rfl, b, hb, rfl⟩
  exact ⟨rfl, b, hb, rfl⟩

theorem inits_htCounterInit (hok : LockOk env) (h : Addr) (i : CounterId) :
    Inits env h (htCounterInit h i) (.counter h i) := by
  intro w hh hl
  unfold htCounterInit
  rw [wp_initCounter hh]
  refine wp_mono (inits_rwlockInit hok h _ _ hh hl) ?_
  rintro r w' ⟨rfl, b, hb, rfl⟩
  exact ⟨rfl, b, hb, rfl⟩

/-- Initialisations that all succeed. -/
theorem anyFails_spec {h : Addr} {ps : List (Code Int)} {ls : List LockId} (hps : List.Forall₂ (Inits env h) ps ls) :
    ls.Nodup → ∀ w : World, w.hasHead h = true → (∀ l ∈ ls, w.locks l = .uninit) →
    wp env (anyFails ps)
      (fun r w' => r = false ∧ ∃ b : Book, b.misuse = w.book.misuse ∧ w' = (w.setFree ls).withBook b) w := by
  induction hps with
  | nil =>
    intro _ w _ _
    exact wp_ret.mpr ⟨rfl, w.book, rfl, by simp [World.setFree, World.withBook]⟩
  | @cons p l ps ls hp _ ih =>
    intro hn w hh hl
    rw [List.nodup_cons] at hn
    unfold anyFails
    apply wp_spec (hp w hh (hl l List.mem_cons_self))
    rintro r w' ⟨rfl, b, hb, rfl⟩
    simp only [ne_eq, not_true_eq_false, ↓reduceIte]
    refine wp_mono (ih hn.2 _ hh ?_) ?_
    · intro k hk
      have hne : k ≠ l := fun e => hn.1 (e ▸ hk)
      simpa [hne] using hl k (List.mem_cons_of_mem _ hk)
    · rintro r w' ⟨rfl, b', hb', rfl⟩
      refine ⟨rfl, b', hb'.trans hb, ?_⟩
      simp only [World.setFree, World.setLock, World.withBook]
      congr 1
      funext k
      by_cases h1 : k = l <;> by_cases h2 : k ∈ ls <;> simp [h1, h2]

/-- The locks of a head in the order of their initialisation. -/
def headLocks (h : Addr) : List LockId :=
  [.average h .depth, .average h .freechain, .average h .searches, .counter h .deletes, .counter h .errors,
    .counter h .hits, .counter h .inserts, .counter h .probes, .counter h .resizes, .counter h .slabs, .table h, .free h,
    .resize h]

theorem mem_headLocks {h : Addr} {l : LockId} : l ∈ headLocks h ↔ l.block = h ∧ ∀ p, l ≠ .entry p := by
  unfold headLocks
  cases l with
  | table a => simp [LockId.block]
  | free a => simp [LockId.block]
  | resize a => simp [LockId.block]
  | average a i => cases i <;> simp [LockId.block]
  | counter a i => cases i <;> simp [LockId.block]
  | entry p => simp

theorem World.setFree_headLocks (w : World) (h : Addr) : w.setFree (headLocks h) = w.initLocks h := by
  unfold setFree initLocks
  have : (fun l => if l ∈ headLocks h then LockState.free else w.locks l) = fun l => match l with
      | .entry p => w.locks (.entry p)
      | l => if l.block = h then .free else w.locks l := by
    funext l
    cases l with
    | entry p => simp [mem_headLocks]
    | _ => simp [mem_headLocks]
  rw [this]

theorem World.setFree_append (w : World) (b : Book) (ls ls' : List LockId) :
    ((w.setFree ls).withBook b).setFree ls' = (w.setFree (ls ++ ls')).withBook b := by
  unfold setFree withBook
  congr 1
  funext l
  by_cases h1 : l ∈ ls <;> by_cases h2 : l ∈ ls' <;> simp [h1, h2]

/-- Initialising all the locks of a fresh head. -/
theorem initLocks_spec (hok : LockOk env) {h : Addr} (hh : w.hasHead h = true)
    (hl : ∀ l, l.block = h → w.locks l = .uninit) {e₁ e₂ e₃ k : Code β}
    (hk : ∀ b : Book, b.misuse = w.book.misuse → wp env k Q ((w.initLocks h).withBook b)) :
    wp env (do
      let failed ← anyFails [htAverageInit h .depth, htAverageInit h .freechain, htAverageInit h .searches]
      if failed then e₁
      else
        let failed ← anyFails [htCounterInit h .deletes, htCounterInit h .errors, htCounterInit h .hits,
          htCounterInit h .inserts, htCounterInit h .probes, htCounterInit h .resizes, htCounterInit h .slabs]
        if failed then e₂
        else
          let failed ← anyFails [rwlockInit (.table h), rwlockInit (.free h), rwlockInit (.resize h)]
          if failed then e₃ else k) Q w := by
  have hA : List.Forall₂ (Inits env h)
      [htAverageInit h .depth, htAverageInit h .freechain, htAverageInit h .searches]
      [.average h .depth, .average h .freechain, .average h .searches] := by
    repeat' first | exact .nil | refine .cons (inits_htAverageInit hok h _) ?_
  have hC : List.Forall₂ (Inits env h)
      [htCounterInit h .deletes, htCounterInit h .errors, htCounterInit h .hits, htCounterInit h .inserts,
        htCounterInit h .probes, htCounterInit h .resizes, htCounterInit h .slabs]
      [.counter h .deletes, .counter h .errors, .counter h .hits, .counter h .inserts, .counter h .probes,
        .counter h .resizes, .counter h .slabs] := by
    repeat' first | exact .nil | refine .cons (inits_htCounterInit hok h _) ?_
  have hR : List.Forall₂ (Inits env h) [rwlockInit (.table h), rwlockInit (.free h), rwlockInit (.resize h)]
      [.table h, .free h, .resize h] := by
    repeat' first | exact .nil | refine .cons (inits_rwlockInit hok h _) ?_
  refine wp_spec (anyFails_spec hA (by simp) w hh fun l hm => hl l ?_) ?_
  · simp only [List.mem_cons, List.not_mem_nil, or_false] at hm
    rcases hm with rfl | rfl | rfl <;> rfl
  rintro r w' ⟨rfl, b, hb, rfl⟩
  refine wp_spec (anyFails_spec hC (by simp) _ hh fun l hm => ?_) ?_
  · simp only [List.mem_cons, List.not_mem_nil, or_false] at hm
    have hb : l.block = h := by rcases hm with rfl | rfl | rfl | rfl | rfl | rfl | rfl <;> rfl
    have hne : l ∉ [LockId.average h .depth, .average h .freechain, .average h .searches] := by
      rcases hm with rfl | rfl | rfl | rfl | rfl | rfl | rfl <;> simp
    exact (if_neg hne).trans (hl l hb)
  rintro r w' ⟨rfl, b', hb', rfl⟩
  rw [World.setFree_append]
  refine wp_spec (anyFails_spec hR (by simp) _ hh fun l hm => ?_) ?_
  · simp only [List.mem_cons, List.not_mem_nil, or_false] at hm
    have hb : l.block = h := by rcases hm with rfl | rfl | rfl <;> rfl
    have hne : l ∉ [LockId.average h .depth, .average h .freechain, .average h .searches] ++
        [LockId.counter h .deletes, .counter h .errors, .counter h .hits, .counter h .inserts, .counter h .probes,
          .counter h .resizes, .counter h .slabs] := by
      rcases hm with rfl | rfl | rfl <;> simp
    exact (if_neg hne).trans (hl l hb)
  rintro r w' ⟨rfl, b'', hb'', rfl⟩
  rw [World.withBook_withBook, World.setFree_append]
  have := hk b'' (hb''.trans (hb'.trans hb))
  rw [← World.setFree_headLocks] at this
  exact this

/-- `ht_create` fails and leaves nothing behind, or returns a new table. -/
theorem htCreate_spec (hok : LockOk env) (hw : w.Fresh) (n ks : Nat) (opts : Options) :
    wp env (htCreate n ks opts)
      (fun r w' =>
        (r = none ∧ CreateFailed w w' ∧ (n = 0 ∨ env.malloc w.mallocs = none ∨ env.malloc (w.mallocs + 1) = none)) ∨
        (∃ f g b, n ≠ 0 ∧ env.malloc w.mallocs = some f ∧ env.malloc (w.mallocs + 1) = some g ∧ r = some w.mallocs ∧
          b.misuse = w.book.misuse ∧ w' = (w.newTable n ks opts f.head.old g.next).withBook b)) w := by
  unfold htCreate
  by_cases hn : n = 0
  · rw [if_pos hn, wp_setErrno]
    refine wp_ret.mpr (Or.inl ⟨rfl, ⟨rfl, rfl, rfl, fun _ _ => rfl, rfl, Nat.le_refl _, rfl, ?_⟩, Or.inl hn⟩)
    exact ⟨hw.heads, hw.slabs, hw.locks⟩
  rw [if_neg hn, wp_mallocHead]
  cases hf : env.malloc w.mallocs with
  | none =>
    dsimp only
    rw [wp_setErrno]
    refine wp_ret.mpr (Or.inl ⟨rfl, ⟨rfl, rfl, rfl, fun _ _ => rfl, rfl, Nat.le_succ _, rfl, ?_⟩, Or.inr (Or.inl rfl)⟩)
    exact ⟨fun a ha => hw.heads a (Nat.le_of_succ_le ha), fun a ha => hw.slabs a (Nat.le_of_succ_le ha),
      fun l hl => hw.locks l (Nat.le_of_succ_le hl)⟩
  | some f =>
    dsimp only
    have hh : (w.allocHead f).hasHead w.mallocs = true := by simp [World.allocHead, World.setHead, World.hasHead]
    rw [wp_initHead hh]
    refine initLocks_spec hok (by simp) ?_ fun b hb => ?_
    · intro l hl
      exact hw.locks l (Nat.le_of_eq hl.symm)
    -- the head with its locks; its slab comes next
    set w₁ := (w.allocHead f).setHead w.mallocs _ with hw₁
    have hfresh : ((w₁.initLocks w.mallocs).withBook b).Fresh := by
      refine ⟨fun a ha => ?_, fun a ha => hw.slabs a (Nat.le_of_succ_le ha), fun l hl => ?_⟩
      · have hlt : w.mallocs + 1 ≤ a := ha
        have hne : a ≠ w.mallocs := by omega
        have : w.heads a = none := hw.heads a (Nat.le_of_succ_le hlt)
        simpa [World.initLocks, w₁, World.allocHead, World.setHead, World.withBook, hne] using this
      · have hlt : w.mallocs + 1 ≤ l.block := hl
        have hne : l.block ≠ w.mallocs := Nat.ne_of_gt (Nat.lt_of_succ_le hlt)
        have : w.locks l = .uninit := hw.locks l (Nat.le_of_succ_le hlt)
        cases l with
        | entry p => exact this
        | _ => exact (if_neg hne).trans this
    have hhead : (w₁.initLocks w.mallocs).hasHead w.mallocs = true := by simp [World.initLocks, World.hasHead, w₁]
    apply wp_spec (htCreateSlab_spec hok hfresh n)
    rintro r w' ⟨b', hb', ⟨rfl, hcase⟩ | ⟨-, g, hg, rfl, rfl⟩⟩
    · obtain ⟨h0, -⟩ | ⟨-, hg, rfl⟩ := hcase
      · exact absurd h0 hn
      rw [wp_setSlabs (by exact hhead), wp_getSlabs (by simp)]
      simp only [World.setHead_head, ↓reduceIte]
      rw [wp_setTable (by simp), wp_freeHead (by simp)]
      refine wp_ret.mpr (Or.inl ⟨rfl, ⟨?_, rfl, rfl, fun l hl => ?_, hb'.trans hb, ?_, rfl, ?_⟩, Or.inr (Or.inr hg)⟩)
      · funext a
        by_cases ha : a = w.mallocs
        · subst ha
          simp [hw.heads w.mallocs (Nat.le_refl _)]
        · simp [ha, World.initLocks, w₁, World.allocHead]
      · have hne : l.block ≠ w.mallocs := Nat.ne_of_lt hl
        cases l with
        | entry p => rfl
        | _ => exact if_neg hne
      · show w.mallocs ≤ w.mallocs + 1 + 1
        omega
      · refine ⟨fun a ha => ?_, fun a ha => hfresh.slabs a (Nat.le_of_succ_le ha), fun l hl =>
          hfresh.locks l (Nat.le_of_succ_le hl)⟩
        have hlt : w.mallocs + 1 + 1 ≤ a := ha
        have := hfresh.heads a (Nat.le_of_succ_le hlt)
        have hne : a ≠ w.mallocs := by omega
        simpa [hne] using this
    · rw [wp_setSlabs (by exact hhead), wp_getSlabs (by simp)]
      simp only [World.setHead_head, ↓reduceIte]
      rw [wp_setTable (by simp)]
      refine wp_count hok ?_ fun b'' hb'' => ?_
      · refine ⟨by simp, fun i => ?_, fun i => ?_⟩ <;> simp [World.newSlab, World.initLocks, LockId.block]
      · refine wp_ret.mpr (Or.inr ⟨f, g, b'', hn, rfl, hg, rfl, hb''.misuse.trans (hb'.trans hb), ?_⟩)
        unfold World.newTable World.newSlab World.initLocks World.setHead World.withBook
        congr 1
        funext a
        by_cases ha : a = w.mallocs
        · simp [ha, w₁, World.allocHead, World.setHead, World.head]
        · simp [ha, w₁, World.allocHead, World.setHead, World.noMalloc]

end ZfsTest.Hashtable
