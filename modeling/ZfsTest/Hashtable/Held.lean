import ZfsTest.Hashtable.Copy

/-!
# The table of a client

`Held c w h S P` is the invariant of a table between two calls: the table of `h` is arranged as `S`, the tables that
`ht_resize` could not destroy hang on `ht->old` (`P`), nothing else is allocated, and without duplicates no key occurs twice.
The locks that a call takes on the head are left out (`Idle`). `AllFree` says that every lock there is is free.

`Held.after` carries the invariant over the calls that change the table in place.
-/

namespace ZfsTest.Hashtable

variable {c : Conf} {env : Env} {w w' w₁ : World} {h : Addr} {S S' : Shape} {P P' : List (Addr × List Addr)}

/-- The table of a client. -/
structure Held (c : Conf) (w : World) (h : Addr) (S : Shape) (P : List (Addr × List Addr)) : Prop where
  fresh : w.Fresh
  table : Table c w h S
  old : OldChain w (w.head h).old P
  nodup : (h :: S.slabs ++ blocksOf P).Nodup
  heads : ∀ a, w.hasHead a = true → a = h ∨ a ∈ P.map Prod.fst
  slabs : ∀ a, w.hasSlab a = true → a ∈ S.slabs ∨ ∃ x ∈ P, a ∈ x.2
  keysize : intOfSize (c.sizeOfInt (w.head h).keysize) = (w.head h).keysize
  distinct : (w.head h).options.dupsAllowed = false → ((contents c w h S).map Prod.fst).Nodup

/-! ## Frames -/

namespace Held

variable (hh : Held c w h S P)
include hh

theorem head_lt : h < w.mallocs := hh.fresh.head_lt hh.table.head

theorem slab_lt {a : Addr} (ha : a ∈ S.slabs) : a < w.mallocs := hh.fresh.slab_lt (hh.table.hasSlab ha)

theorem old_lt {a : Addr} (ha : a ∈ blocksOf P) : a < w.mallocs := by
  obtain ⟨x, hx, rfl | ha⟩ := mem_blocksOf.mp ha
  · exact hh.fresh.head_lt (hh.old.tables x hx).stats.head
  · exact hh.fresh.slab_lt ((hh.old.tables x hx).slabs.live a ha).1

theorem head_notMem : h ∉ S.slabs ∧ h ∉ blocksOf P := by
  have := hh.nodup
  rw [List.cons_append, List.nodup_cons, List.mem_append, not_or] at this
  exact this.1

theorem slab_notMem {a : Addr} (ha : a ∈ S.slabs) : a ∉ blocksOf P := by
  have := hh.nodup
  rw [List.cons_append, List.nodup_cons, List.nodup_append] at this
  exact fun hb => this.2.2.2 a ha a hb rfl

/-- A block of an old table is no block of the table. -/
theorem old_notBlocks {a : Addr} (ha : a ∈ blocksOf P) : ¬Blocks h S a := by
  rintro (rfl | hs)
  · exact hh.head_notMem.2 ha
  · exact hh.slab_notMem hs ha

/-- A change that leaves the old tables and the head's other fields. -/
theorem after (ha : After c w h S w' S') (hd : (w.head h).options.dupsAllowed = false →
    ((contents c w' h S').map Prod.fst).Nodup) : Held c w' h S' P where
  fresh := ha.fresh
  table := ha.table
  old := by
    rw [ha.old]
    exact hh.old.same fun b hb => ha.frame.same b (hh.old_lt hb) (hh.old_notBlocks hb)
  nodup := by
    have hslab : ∀ a ∈ S'.slabs, a ≠ h ∧ a ∉ blocksOf P := by
      intro a hm
      rcases ha.slabs a hm with hs | hs
      · exact ⟨fun e => hh.head_notMem.1 (e ▸ hs), hh.slab_notMem hs⟩
      · exact ⟨Nat.ne_of_gt (Nat.lt_of_lt_of_le hh.head_lt hs), fun hb => absurd (hh.old_lt hb) (Nat.not_lt.mpr hs)⟩
    rw [List.cons_append, List.nodup_cons, List.mem_append, not_or, List.nodup_append]
    refine ⟨⟨fun hm => (hslab h hm).1 rfl, hh.head_notMem.2⟩, ha.table.slabsNodup, hh.old.nodup, ?_⟩
    rintro a hm b hb rfl
    exact (hslab a hm).2 hb
  heads a hm := hh.heads a ((ha.heads a).symm.trans hm)
  slabs a hm := by
    rcases ha.newSlabs a hm with hs | hs
    · exact (hh.slabs a hs).imp (ha.kept a) id
    · exact Or.inl hs
  keysize := by
    rw [ha.keysize]
    exact hh.keysize
  distinct hdup := hd (by rw [← ha.options]; exact hdup)

theorem withBook (b : Book) : Held c (w.withBook b) h S P where
  fresh := ⟨hh.fresh.heads, hh.fresh.slabs, hh.fresh.locks⟩
  table := hh.table.withBook b
  old := hh.old.same fun _ _ => ⟨rfl, rfl, fun _ => rfl, fun _ _ => rfl⟩
  nodup := hh.nodup
  heads := hh.heads
  slabs := hh.slabs
  keysize := hh.keysize
  distinct := hh.distinct

/-- A lock that a call takes on the head. -/
theorem setLock {l : LockId} (hl : CallLock h l) (st : LockState) : Held c (w.setLock l st) h S P where
  fresh := by
    refine ⟨hh.fresh.heads, hh.fresh.slabs, fun k hk => ?_⟩
    have hne : k ≠ l := by
      have hb : l.block = h := by rcases hl with rfl | rfl | rfl <;> rfl
      rintro rfl
      have hle : w.mallocs ≤ k.block := hk
      exact Nat.not_lt.mpr hle (hb ▸ hh.head_lt)
    simpa [hne] using hh.fresh.locks k hk
  table := hh.table.setLock hl st
  old := by
    refine hh.old.same fun a ha => ⟨rfl, rfl, fun _ => rfl, fun k hk => ?_⟩
    have hne : k ≠ l := by
      have hb : l.block = h := by rcases hl with rfl | rfl | rfl <;> rfl
      rintro rfl
      exact hh.head_notMem.2 (hb ▸ hk ▸ ha)
    simp [hne]
  nodup := hh.nodup
  heads := hh.heads
  slabs := hh.slabs
  keysize := hh.keysize
  distinct := hh.distinct

end Held

/-! ## Fresh memory -/

/-- Fresh memory holds null pointers where the library reads it before it writes it. -/
def NullFill (env : Env) : Prop := ∀ n f, env.malloc n = some f → f.head.old = none ∧ f.next = none

/-! ## Free locks -/

/-- The lock exists. -/
def World.hasLock (w : World) : LockId → Bool
  | .entry p => w.valid p
  | l => w.hasHead l.block

/-- Every lock is free. -/
def AllFree (w : World) : Prop := ∀ l, w.hasLock l = true → w.locks l = .free

theorem AllFree.clean (hf : AllFree w) (ht : Table c w h S) : Clean w S := fun p hp => hf (.entry p) (ht.valid hp)

/-- The entries of an old table can be destroyed. -/
theorem AllFree.destroyable (hf : AllFree w) {a : Addr} {ss : List Addr} (ht : OldTable w a ss) {s : Addr} (hs : s ∈ ss) :
    SlabDestroyable env w s ∧ SlabUnlocked w s := by
  obtain ⟨hsl, hle⟩ := ht.slabs.live s hs
  have hfree : SlabUnlocked w s := by
    intro j hj
    apply hf (.entry (s, j))
    show w.valid (s, j) = true
    rw [World.valid_eq, hsl]
    simp only [Bool.true_and, decide_eq_true_eq]
    omega
  refine ⟨fun j _ hj => ⟨?_, Or.inr (hfree j (by omega))⟩, hfree⟩
  rcases ht.slabs.marked s hs j (by omega) with h | h
  · exact h
  · rw [hfree j (by omega)] at h
    cases h

/-- The locks of the head of an idle table. -/
theorem Table.headLock_free (ht : Table c w h S) (hi : Idle w h) {l : LockId} (hb : l.block = h) (hl : ∀ p, l ≠ .entry p) :
    w.locks l = .free := by
  cases l with
  | entry p => exact absurd rfl (hl p)
  | table a => obtain rfl : a = h := hb; exact hi.table
  | free a => obtain rfl : a = h := hb; exact hi.free
  | resize a => obtain rfl : a = h := hb; exact hi.resize
  | average a i => obtain rfl : a = h := hb; exact ht.stats.average i
  | counter a i => obtain rfl : a = h := hb; exact ht.stats.counter i

theorem World.hasLock_head {l : LockId} (hl : ∀ p, l ≠ .entry p) : w.hasLock l = w.hasHead l.block := by
  cases l with
  | entry p => exact absurd rfl (hl p)
  | _ => rfl

/-- Every lock is one of a head or one of an entry. -/
theorem allFree_iff : AllFree w ↔ (∀ l, (∀ p, l ≠ .entry p) → w.hasHead l.block = true → w.locks l = .free) ∧
    ∀ p, w.valid p = true → w.locks (.entry p) = .free := by
  refine ⟨fun hf => ⟨fun l hl hh => hf l ((World.hasLock_head hl).trans hh), fun p hp => hf (.entry p) hp⟩, fun hf l hl => ?_⟩
  by_cases he : ∃ p, l = .entry p
  · obtain ⟨p, rfl⟩ := he
    exact hf.2 p hl
  · have hne : ∀ p, l ≠ .entry p := fun p e => he ⟨p, e⟩
    exact hf.1 l hne ((World.hasLock_head hne).symm.trans hl)

theorem World.valid_iff {p : EntryPtr} : w.valid p = true ↔ w.hasSlab p.1 = true ∧ p.2 < (w.slab p.1).size := by
  rw [World.valid_eq, Bool.and_eq_true, decide_eq_true_eq]

/-- The locks of a table without old tables. -/
theorem Held.allFree (hh : Held c w h S []) (hi : Idle w h) (hc : Clean w S) : AllFree w := by
  refine allFree_iff.mpr ⟨fun l hl hm => ?_, fun p hp => ?_⟩
  · have hb : l.block = h := by simpa using hh.heads _ hm
    exact hh.table.headLock_free hi hb hl
  · obtain ⟨hs, hlt⟩ := World.valid_iff.mp hp
    have hm : p.1 ∈ S.slabs := by simpa using hh.slabs _ hs
    exact hc p ⟨hm, (hh.table.live p.1 hm).2.2 ▸ hlt⟩

/-- Every lock is free if none but those of the head has changed. -/
theorem Held.allFree_same (hf : AllFree w) (hh' : Held c w' h S P) (hi : Idle w' h)
    (hs : ∀ b, b ∈ S.slabs ∨ b ∈ blocksOf P → SameBlock w w' b) : AllFree w' := by
  refine allFree_iff.mpr ⟨fun l hl hm => ?_, fun p hp => ?_⟩
  · by_cases hb : l.block = h
    · exact hh'.table.headLock_free hi hb hl
    · obtain ⟨x, hx, he⟩ := List.mem_map.mp ((hh'.heads _ hm).resolve_left hb)
      have hsame := hs _ (Or.inr (mem_blocksOf.mpr ⟨x, hx, Or.inl he.symm⟩))
      rw [hsame.locks l rfl]
      exact (allFree_iff.mp hf).1 l hl (hsame.hasHead.symm.trans hm)
  · obtain ⟨hsl, hlt⟩ := World.valid_iff.mp hp
    have hsame : SameBlock w w' p.1 := by
      rcases hh'.slabs _ hsl with hm | ⟨x, hx, hm⟩
      · exact hs _ (Or.inl hm)
      · exact hs _ (Or.inr (mem_blocksOf.mpr ⟨x, hx, Or.inr hm⟩))
    rw [hsame.locks (.entry p) rfl]
    refine (allFree_iff.mp hf).2 p (World.valid_iff.mpr ?_)
    rw [← hsame.hasSlab, ← hsame.slab]
    exact ⟨hsl, hlt⟩

/-- A call leaves every lock free if it leaves the entries of the table unlocked. -/
theorem Held.allFree_after (hh : Held c w h S P) (hf : AllFree w) (ha : After c w h S w' S') :
    AllFree w' ↔ Clean w' S' := by
  refine ⟨fun hf' => hf'.clean ha.table, fun hc => allFree_iff.mpr ⟨fun l hl hm => ?_, fun p hp => ?_⟩⟩
  · by_cases hb : l.block = h
    · exact ha.table.headLock_free ha.idle hb hl
    · rw [ha.heads] at hm
      obtain ⟨x, hx, he⟩ := List.mem_map.mp ((hh.heads _ hm).resolve_left hb)
      have hmem : l.block ∈ blocksOf P := mem_blocksOf.mpr ⟨x, hx, Or.inl he.symm⟩
      rw [(ha.frame.same _ (hh.old_lt hmem) (hh.old_notBlocks hmem)).locks l rfl]
      exact (allFree_iff.mp hf).1 l hl hm
  · obtain ⟨hs, hlt⟩ := World.valid_iff.mp hp
    have hmem : p.1 ∈ S'.slabs ∨ ∃ x ∈ P, p.1 ∈ x.2 := by
      rcases ha.newSlabs p.1 hs with hs | hs
      · exact (hh.slabs p.1 hs).imp (ha.kept p.1) id
      · exact Or.inl hs
    rcases hmem with hm | ⟨x, hx, hm⟩
    · exact hc p ⟨hm, (ha.table.live p.1 hm).2.2 ▸ hlt⟩
    · have hb : p.1 ∈ blocksOf P := mem_blocksOf.mpr ⟨x, hx, Or.inr hm⟩
      have hsame := ha.frame.same _ (hh.old_lt hb) (hh.old_notBlocks hb)
      rw [hsame.locks (.entry p) rfl]
      refine (allFree_iff.mp hf).2 p (World.valid_iff.mpr ?_)
      rw [← hsame.hasSlab, ← hsame.slab]
      exact ⟨hs, hlt⟩

end ZfsTest.Hashtable
