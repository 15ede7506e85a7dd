import ZfsTest.Hashtable.Layout

/-!
# A table in memory

`Table c w h S`: the head `h` and its slabs are allocated, the slab list is `S.slabs`, the entries follow the shape `S`, and
the locks of statistics and entries are free, except that a vacant bucket head may have been left locked. `Idle` adds that
the other locks of the head are free, `Clean` that no entry is locked.

`Frame F w w'` says that from `w` to `w'` no block outside `F` has changed; a table whose blocks have not changed is still there
(`Table.same`).
-/

namespace ZfsTest.Hashtable

open Prog

variable {c : Conf} {env : Env} {w w' : World} {h : Addr} {S : Shape}

/-- The key length that the library passes to hash and compare. -/
def World.keyLen (c : Conf) (w : World) (h : Addr) : Nat := c.sizeOfInt (w.head h).keysize

/-- A table in memory. -/
structure Table (c : Conf) (w : World) (h : Addr) (S : Shape) : Prop where
  stats : StatsFree w h
  table : (w.head h).table = some S.table
  threshold : (w.head h).thresholdEvaluate = some htEvaluateThresholdDefault
  slabs : Chain (fun a => (w.slab a).next) (w.head h).slabs S.slabs
  slabsNodup : S.slabs.Nodup
  live : ∀ a ∈ S.slabs, w.hasSlab a = true ∧ (w.slab a).entrycount = S.count ∧ (w.slab a).size = S.count
  cells : S.slabs.length * S.count ≤ w.cells
  entries : Entries (c.keyBytes (w.keyLen c h)) (fun k => c.hashOf k % S.count) w.ents (w.head h).freechain S
  entryLocks : ∀ p, S.Has p → w.locks (.entry p) = .free ∨
    p.1 = S.table ∧ w.locks (.entry p) = .write ∧ (w.ents p).flags.occupied = false

/-- The locks of the head that a call takes are free. -/
structure Idle (w : World) (h : Addr) : Prop where
  table : w.locks (.table h) = .free
  free : w.locks (.free h) = .free
  resize : w.locks (.resize h) = .free

/-- No entry of the table is locked. -/
def Clean (w : World) (S : Shape) : Prop := ∀ p, S.Has p → w.locks (.entry p) = .free

namespace Table

variable (ht : Table c w h S)
include ht

theorem head : w.hasHead h = true := ht.stats.head

theorem ok : S.Ok := ht.entries.ok

theorem hasSlab {a : Addr} (ha : a ∈ S.slabs) : w.hasSlab a = true := (ht.live a ha).1

theorem hasTable : w.hasSlab S.table = true := ht.hasSlab ht.ok.tableMem

theorem entrycount {a : Addr} (ha : a ∈ S.slabs) : (w.slab a).entrycount = S.count := (ht.live a ha).2.1

theorem valid {p : EntryPtr} (hp : S.Has p) : w.valid p = true := by
  rw [World.valid_eq, ht.hasSlab hp.1, (ht.live p.1 hp.1).2.2]
  simpa using hp.2

theorem validHead {i : Nat} (hi : i < S.count) : w.valid (S.head i) = true := ht.valid (ht.ok.head_has hi)

/-- The locks of chained and free entries are free, and so are those of occupied heads. -/
theorem lock_free {p : EntryPtr} (hp : S.Has p) (ho : p.1 ≠ S.table ∨ (w.ents p).flags.occupied = true) :
    w.locks (.entry p) = .free := by
  rcases ht.entryLocks p hp with h | ⟨h1, -, h2⟩
  · exact h
  · rcases ho with h | h
    · exact absurd h1 h
    · exact absurd (h.symm.trans h2) (by simp)

theorem chain_lock {i : Nat} (hi : i < S.count) {p : EntryPtr} (hp : p ∈ S.chain i) : w.locks (.entry p) = .free :=
  ht.lock_free (ht.ok.chain_has hi hp) (Or.inr (ht.entries.flagged.chainOccupied i hi p hp))

/-- An entry of the table slab is a head. -/
theorem free_not_table {p : EntryPtr} (hp : p ∈ S.free) : p.1 ≠ S.table := by
  intro h
  refine ht.ok.free_ne_head (ht.ok.free_has hp).2 hp (Prod.ext h rfl)

/-- The rounds of a walk over a bucket. -/
theorem fuel {i : Nat} (hi : i < S.count) : (S.chain i).length < w.cells := by
  have h1 := ht.ok.bucket_length hi
  have h2 := ht.cells
  rw [List.length_cons] at h1
  omega

end Table

/-! ## Locks and books -/

theorem Table.withBook (ht : Table c w h S) (b : Book) : Table c (w.withBook b) h S :=
  ⟨ht.stats.withBook b, ht.table, ht.threshold, ht.slabs, ht.slabsNodup, ht.live, ht.cells, ht.entries, ht.entryLocks⟩

/-- The locks a call takes on the head, besides those of the statistics. -/
def CallLock (h : Addr) (l : LockId) : Prop := l = .table h ∨ l = .free h ∨ l = .resize h

theorem StatsFree.setLock (hs : StatsFree w h) {l : LockId} (hl : CallLock h l ∨ ∃ p, l = .entry p) (st : LockState) :
    StatsFree (w.setLock l st) h := by
  refine ⟨hs.head, fun i => ?_, fun i => ?_⟩
  · rcases hl with (rfl | rfl | rfl) | ⟨p, rfl⟩ <;> simpa using hs.counter i
  · rcases hl with (rfl | rfl | rfl) | ⟨p, rfl⟩ <;> simpa using hs.average i

theorem Table.setLock (ht : Table c w h S) {l : LockId} (hl : CallLock h l) (st : LockState) :
    Table c (w.setLock l st) h S := by
  refine ⟨ht.stats.setLock (Or.inl hl) st, ht.table, ht.threshold, ht.slabs, ht.slabsNodup, ht.live, ht.cells,
    ht.entries, fun p hp => ?_⟩
  rcases hl with rfl | rfl | rfl <;> simpa using ht.entryLocks p hp

/-- The lock of an entry given back, or the lock of a vacant head kept. -/
theorem Table.setEntryLock (ht : Table c w h S) {q : EntryPtr} {st : LockState}
    (hst : st = .free ∨ q.1 = S.table ∧ st = .write ∧ (w.ents q).flags.occupied = false) :
    Table c (w.setLock (.entry q) st) h S := by
  refine ⟨ht.stats.setLock (Or.inr ⟨q, rfl⟩) _, ht.table, ht.threshold, ht.slabs, ht.slabsNodup, ht.live, ht.cells,
    ht.entries, fun p hp => ?_⟩
  by_cases hq : p = q
  · subst hq
    simpa using hst
  · simpa [hq] using ht.entryLocks p hp

theorem clean_setLock {l : LockId} (hl : CallLock h l) {st : LockState} : Clean (w.setLock l st) S ↔ Clean w S := by
  unfold Clean
  rcases hl with rfl | rfl | rfl <;> simp

theorem Clean.unlockEntry (hc : Clean w S) (q : EntryPtr) : Clean (w.setLock (.entry q) .free) S := by
  intro p hp
  by_cases hq : p = q
  · simp [hq]
  · simpa [hq] using hc p hp

/-! ## Frames -/

/-- Nothing in block `a` has changed. -/
structure SameBlock (w w' : World) (a : Addr) : Prop where
  heads : w'.heads a = w.heads a
  slabs : w'.slabs a = w.slabs a
  ents : ∀ i, w'.ents (a, i) = w.ents (a, i)
  locks : ∀ l, l.block = a → w'.locks l = w.locks l

/-- No block that existed and is not in `F` has changed. -/
structure Frame (F : Addr → Prop) (w w' : World) : Prop where
  same : ∀ a, a < w.mallocs → ¬F a → SameBlock w w' a
  mallocs : w.mallocs ≤ w'.mallocs
  cells : w.cells ≤ w'.cells

theorem SameBlock.refl (w : World) (a : Addr) : SameBlock w w a := ⟨rfl, rfl, fun _ => rfl, fun _ _ => rfl⟩

theorem SameBlock.trans {w₁ w₂ w₃ : World} {a : Addr} (h : SameBlock w₁ w₂ a) (h' : SameBlock w₂ w₃ a) :
    SameBlock w₁ w₃ a :=
  ⟨h'.heads.trans h.heads, h'.slabs.trans h.slabs, fun i => (h'.ents i).trans (h.ents i),
    fun l hl => (h'.locks l hl).trans (h.locks l hl)⟩

theorem SameBlock.head {a : Addr} (hb : SameBlock w w' a) : w'.head a = w.head a := by
  unfold World.head
  rw [hb.heads]

theorem SameBlock.hasHead {a : Addr} (hb : SameBlock w w' a) : w'.hasHead a = w.hasHead a := by
  unfold World.hasHead
  rw [hb.heads]

theorem SameBlock.slab {a : Addr} (hb : SameBlock w w' a) : w'.slab a = w.slab a := by
  unfold World.slab
  rw [hb.slabs]

theorem SameBlock.hasSlab {a : Addr} (hb : SameBlock w w' a) : w'.hasSlab a = w.hasSlab a := by
  unfold World.hasSlab
  rw [hb.slabs]

theorem Frame.refl (F : Addr → Prop) (w : World) : Frame F w w :=
  ⟨fun a _ _ => SameBlock.refl w a, Nat.le_refl _, Nat.le_refl _⟩

theorem Frame.trans {F F' : Addr → Prop} {w₁ w₂ w₃ : World} (hf : Frame F w₁ w₂) (hf' : Frame F' w₂ w₃)
    (hF : ∀ a, a < w₁.mallocs → F' a → F a) : Frame F w₁ w₃ := by
  refine ⟨fun a ha hn => ?_, hf.mallocs.trans hf'.mallocs, hf.cells.trans hf'.cells⟩
  exact (hf.same a ha hn).trans (hf'.same a (Nat.lt_of_lt_of_le ha hf.mallocs) fun h => hn (hF a ha h))

/-- A head that is allocated was allocated before now. -/
theorem World.Fresh.head_lt (hw : w.Fresh) {a : Addr} (ha : w.hasHead a = true) : a < w.mallocs := by
  by_contra hn
  rw [World.hasHead, hw.heads a (Nat.le_of_not_lt hn)] at ha
  cases ha

theorem World.Fresh.slab_lt (hw : w.Fresh) {a : Addr} (ha : w.hasSlab a = true) : a < w.mallocs := by
  by_contra hn
  rw [World.hasSlab, hw.slabs a (Nat.le_of_not_lt hn)] at ha
  cases ha

/-- The blocks of a table. -/
def Blocks (h : Addr) (S : Shape) (a : Addr) : Prop := a = h ∨ a ∈ S.slabs

/-- A table whose blocks have not changed is still there. -/
theorem Table.same (ht : Table c w h S) (hb : ∀ a, Blocks h S a → SameBlock w w' a) (hc : w.cells ≤ w'.cells) :
    Table c w' h S := by
  have hh := hb h (Or.inl rfl)
  have hs : ∀ a ∈ S.slabs, SameBlock w w' a := fun a ha => hb a (Or.inr ha)
  refine ⟨?_, ?_, ?_, ?_, ht.slabsNodup, ?_, ht.cells.trans hc, ?_, ?_⟩
  · exact ht.stats.congr (hh.hasHead.trans ht.head) hh.locks
  · rw [hh.head]; exact ht.table
  · rw [hh.head]; exact ht.threshold
  · rw [hh.head]
    exact ht.slabs.congr fun a ha => by rw [(hs a ha).slab]
  · intro a ha
    rw [(hs a ha).hasSlab, (hs a ha).slab]
    exact ht.live a ha
  · have hk : w'.keyLen c h = w.keyLen c h := by
      unfold World.keyLen
      rw [hh.head]
    rw [hk, hh.head]
    exact ht.entries.congr fun p hp => (hs p.1 hp.1).ents p.2
  · intro p hp
    have he : w'.ents p = w.ents p := (hs p.1 hp.1).ents p.2
    rw [(hs p.1 hp.1).locks (.entry p) rfl, he]
    exact ht.entryLocks p hp

end ZfsTest.Hashtable
