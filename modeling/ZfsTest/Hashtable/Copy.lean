import ZfsTest.Hashtable.Sweep
import Mathlib.Algebra.BigOperators.Group.Finset.Piecewise

/-!
# Filling a new table

`ht_resize` creates a table and inserts every pair of the old one. How many slabs the new table needs depends only on the
pairs: one for the heads, and enough for the pairs whose bucket is already taken (`overflow`, `slabsNeeded`). `copyTable_spec`
says that the copy succeeds exactly when these can be had: the new table then holds the same pairs, and otherwise some
`malloc` call has failed. Neither touches the old table.
-/

namespace ZfsTest.Hashtable

open Prog

variable {c : Conf} {env : Env} {w w' w₀ w₁ : World} {h : Addr} {S S' S₀ : Shape}

/-! ## Counting entries -/

/-- The number of entries on the chains of the buckets. -/
def Shape.chained (S : Shape) : Nat := ∑ i ∈ Finset.range S.count, (S.chain i).length

/-- All entries of a table, place by place. -/
def Shape.all (S : Shape) : List EntryPtr :=
  (List.range S.count).map S.head ++ ((List.range S.count).flatMap S.chain ++ S.free)

theorem Shape.Ok.mem_all (ho : S.Ok) {p : EntryPtr} : p ∈ S.all ↔ S.Has p := by
  simp only [Shape.all, List.mem_append, List.mem_map, List.mem_range, List.mem_flatMap]
  constructor
  · rintro (⟨i, hi, rfl⟩ | ⟨i, hi, hp⟩ | hp)
    · exact ho.head_has hi
    · exact ho.chain_has hi hp
    · exact ho.free_has hp
  · intro hp
    rcases ho.cases_loc hp with ⟨i, hi, rfl⟩ | ⟨i, hi, hp⟩ | hp
    · exact Or.inl ⟨i, hi, rfl⟩
    · exact Or.inr (Or.inl ⟨i, hi, hp⟩)
    · exact Or.inr (Or.inr hp)

/-- No entry has two places. -/
theorem Shape.Ok.all_nodup (ho : S.Ok) : S.all.Nodup := by
  have hheads : ((List.range S.count).map S.head).Nodup :=
    List.Nodup.map (fun _ _ e => congrArg Prod.snd e) List.nodup_range
  have hchains : ((List.range S.count).flatMap S.chain).Nodup := by
    refine List.nodup_flatMap.mpr ⟨fun i hi => ho.chainNodup i (List.mem_range.mp hi), ?_⟩
    refine List.nodup_range.imp_of_mem fun {i j} hi hj hne p hp hq => hne ?_
    exact ho.chain_inj (List.mem_range.mp hi) (List.mem_range.mp hj) hp hq
  refine List.nodup_append.mpr ⟨hheads, List.nodup_append.mpr ⟨hchains, ho.freeNodup, ?_⟩, ?_⟩
  · intro p hp q hq
    obtain ⟨i, hi, hp⟩ := List.mem_flatMap.mp hp
    exact ho.chain_ne_free (List.mem_range.mp hi) hp hq
  · intro p hp q hq
    obtain ⟨i, hi, rfl⟩ := List.mem_map.mp hp
    rcases List.mem_append.mp hq with hq | hq
    · obtain ⟨j, hj, hq⟩ := List.mem_flatMap.mp hq
      exact (ho.chain_ne_head (List.mem_range.mp hj) (List.mem_range.mp hi) hq).symm
    · exact (ho.free_ne_head (List.mem_range.mp hi) hq).symm

/-- Heads, chained and free entries are all the entries of the slabs. -/
theorem Shape.Ok.card (ho : S.Ok) (hn : S.slabs.Nodup) :
    S.count + (S.chained + S.free.length) = S.slabs.length * S.count := by
  have hperm : S.all.Perm (S.slabs ×ˢ List.range S.count) := by
    refine (List.perm_ext_iff_of_nodup ho.all_nodup (hn.product List.nodup_range)).mpr fun p => ?_
    rw [ho.mem_all, List.mem_product, List.mem_range]
    rfl
  have hlen := hperm.length_eq
  rw [List.length_product, List.length_range] at hlen
  rw [← hlen]
  simp only [Shape.all, List.length_append, List.length_map, List.length_range, List.length_flatMap, Shape.chained]
  congr 2

/-- The number of pairs that find their bucket taken when all are inserted in a table of `n` buckets. -/
def overflow (c : Conf) (n : Nat) (m : Multiset (List UInt8 × Nat)) : Nat :=
  m.card - (m.map fun x => c.hashOf x.1 % n).toFinset.card

/-- The number of slabs a table of `n` buckets needs beside its table slab. -/
def slabsNeeded (c : Conf) (n : Nat) (m : Multiset (List UInt8 × Nat)) : Nat := (overflow c n m + n - 1) / n

theorem overflow_mono {n : Nat} {m m' : Multiset (List UInt8 × Nat)} (hle : m ≤ m') :
    overflow c n m ≤ overflow c n m' := by
  obtain ⟨u, rfl⟩ := Multiset.le_iff_exists_add.mp hle
  unfold overflow
  have h1 : ((m + u).map fun x => c.hashOf x.1 % n).toFinset.card ≤
      (m.map fun x => c.hashOf x.1 % n).toFinset.card + u.card := by
    rw [Multiset.map_add, Multiset.toFinset_add]
    refine (Finset.card_union_le _ _).trans (Nat.add_le_add_left ?_ _)
    exact (Multiset.toFinset_card_le _).trans (Multiset.card_map _ _).le
  rw [Multiset.card_add]
  omega

theorem slabsNeeded_mono {n : Nat} {m m' : Multiset (List UInt8 × Nat)} (hle : m ≤ m') :
    slabsNeeded c n m ≤ slabsNeeded c n m' := by
  have := overflow_mono (c := c) (n := n) hle
  exact Nat.div_le_div_right (by omega)

/-- A pair whose bucket is taken needs an entry of its own. -/
theorem overflow_cons {n : Nat} {m : Multiset (List UInt8 × Nat)} {x : List UInt8 × Nat}
    (hx : ∃ y ∈ m, c.hashOf y.1 % n = c.hashOf x.1 % n) : overflow c n (x ::ₘ m) = overflow c n m + 1 := by
  obtain ⟨y, hy, he⟩ := hx
  have hmem : c.hashOf x.1 % n ∈ (m.map fun x => c.hashOf x.1 % n).toFinset := by
    rw [Multiset.mem_toFinset, ← he]
    exact Multiset.mem_map_of_mem (fun x => c.hashOf x.1 % n) hy
  have hle := (Multiset.toFinset_card_le (m.map fun x => c.hashOf x.1 % n)).trans (Multiset.card_map _ _).le
  unfold overflow
  rw [Multiset.map_cons, Multiset.toFinset_cons, Finset.insert_eq_of_mem hmem, Multiset.card_cons]
  omega

/-- The buckets that hold a pair. -/
theorem Table.indices (ht : Table c w h S) :
    ((contents c w h S).map fun x => c.hashOf x.1 % S.count).toFinset =
      (Finset.range S.count).filter fun i => (w.ents (S.head i)).flags.occupied = true := by
  ext i
  simp only [Multiset.mem_toFinset, Multiset.mem_map, contents, mem_pairs, Finset.mem_filter, Finset.mem_range,
    bucketPairs, List.mem_map]
  constructor
  · rintro ⟨x, ⟨j, hj, p, hp, rfl⟩, rfl⟩
    obtain ⟨-, hocc, hm⟩ := ht.mem_bucket hj hp
    have hix : c.hashOf (c.keyBytes (w.keyLen c h) (w.ents p).key) % S.count = j :=
      ht.entries.flagged.hash j hj p hm hocc
    rw [pairOf, hix]
    refine ⟨hj, ?_⟩
    by_contra hno
    rw [Shape.bucket, if_neg hno] at hp
    cases hp
  · rintro ⟨hi, hocc⟩
    refine ⟨_, ⟨i, hi, S.head i, ?_, rfl⟩, ht.entries.flagged.hash i hi _ List.mem_cons_self hocc⟩
    rw [Shape.bucket, if_pos hocc]
    exact List.mem_cons_self

/-- The pairs that do not stand in a head are on the chains. -/
theorem Table.overflow_eq (ht : Table c w h S) : overflow c S.count (contents c w h S) = S.chained := by
  have hcard : (contents c w h S).card =
      ∑ i ∈ Finset.range S.count, ((if (w.ents (S.head i)).flags.occupied = true then 1 else 0) + (S.chain i).length) := by
    unfold contents pairs
    rw [Multiset.card_sum]
    refine Finset.sum_congr rfl fun i hi => ?_
    rw [Multiset.coe_card, bucketPairs, List.length_map, Shape.bucket]
    by_cases hocc : (w.ents (S.head i)).flags.occupied = true
    · rw [if_pos hocc, if_pos hocc, List.length_cons, Nat.add_comm]
    · rw [if_neg hocc, if_neg hocc, ht.entries.flagged.empty i (Finset.mem_range.mp hi) (by simpa using hocc)]
      rfl
  unfold overflow
  rw [ht.indices, hcard, Finset.sum_add_distrib, Finset.card_filter]
  exact Nat.add_sub_cancel_left ..

/-! ## The new table -/

/-- A table slab of `n` vacant heads. -/
def Shape.new (t : Addr) (n : Nat) : Shape := ⟨t, n, [t], fun p => .head p.2, fun _ => [], []⟩

theorem Shape.new_ok {t : Addr} {n : Nat} (hn : n ≠ 0) : (Shape.new t n).Ok where
  pos := Nat.pos_of_ne_zero hn
  tableMem := List.mem_cons_self
  loc p hp i := by
    have ht : p.1 = t := List.mem_singleton.mp hp.1
    simp only [Shape.new, Loc.head.injEq, Prod.ext_iff, ht, true_and]
  locBound p _ i hl := by cases hl
  chainMem i _ p := by simp [Shape.new]
  chainNodup _ _ := List.nodup_nil
  freeMem p := by simp [Shape.new]
  freeNodup := List.nodup_nil

section New

variable {n ks : Nat} {opts : Options} {old next : Option Addr}

@[simp] theorem newTable_heads (a : Addr) : (w.newTable n ks opts old next).heads a =
    if a = w.mallocs then some ⟨intOfSize ks, opts, old, some (w.mallocs + 1), some (w.mallocs + 1), none,
      some htEvaluateThresholdDefault⟩ else w.heads a := rfl

@[simp] theorem newTable_head (a : Addr) : (w.newTable n ks opts old next).head a =
    if a = w.mallocs then ⟨intOfSize ks, opts, old, some (w.mallocs + 1), some (w.mallocs + 1), none,
      some htEvaluateThresholdDefault⟩ else w.head a := by
  unfold World.head
  rw [newTable_heads]
  by_cases ha : a = w.mallocs <;> simp [ha]

@[simp] theorem newTable_slabs (a : Addr) : (w.newTable n ks opts old next).slabs a =
    if a = w.mallocs + 1 then some ⟨next, n, n⟩ else w.slabs a := rfl

@[simp] theorem newTable_ents (p : EntryPtr) : (w.newTable n ks opts old next).ents p =
    if p.1 = w.mallocs + 1 ∧ p.2 < n then .blank else w.ents p := rfl

@[simp] theorem newTable_mallocs : (w.newTable n ks opts old next).mallocs = w.mallocs + 2 := rfl

@[simp] theorem newTable_cells : (w.newTable n ks opts old next).cells = w.cells + n := rfl

theorem newTable_locks (l : LockId) : (w.newTable n ks opts old next).locks l = match l with
    | .entry p => if p.1 = w.mallocs + 1 ∧ p.2 < n then .free else w.locks (.entry p)
    | l => if l.block = w.mallocs then .free else w.locks l := by
  cases l with
  | _ => rfl

/-- A lock of an old block. -/
theorem newTable_locks_old {l : LockId} (hl : l.block < w.mallocs) :
    (w.newTable n ks opts old next).locks l = w.locks l := by
  rw [newTable_locks]
  cases l with
  | entry p => exact if_neg fun h => Nat.ne_of_lt (Nat.lt_succ_of_lt hl) h.1
  | _ => exact if_neg (Nat.ne_of_lt hl)

theorem newTable_fresh (hw : w.Fresh) : (w.newTable n ks opts old next).Fresh := by
  refine ⟨fun a ha => ?_, fun a ha => ?_, fun l hl => ?_⟩
  · have ha : w.mallocs + 1 < a := ha
    have hle : w.mallocs ≤ a := Nat.le_of_lt (Nat.lt_of_succ_lt ha)
    rw [newTable_heads, if_neg (Nat.ne_of_gt (Nat.lt_of_succ_lt ha))]
    exact hw.heads a hle
  · have ha : w.mallocs + 1 < a := ha
    have hle : w.mallocs ≤ a := Nat.le_of_lt (Nat.lt_of_succ_lt ha)
    rw [newTable_slabs, if_neg (Nat.ne_of_gt ha)]
    exact hw.slabs a hle
  · have hl : w.mallocs + 1 < l.block := hl
    have hold := hw.locks l (Nat.le_of_lt (Nat.lt_of_succ_lt hl))
    rw [newTable_locks]
    cases l with
    | entry p => exact (if_neg fun h => Nat.ne_of_gt hl h.1).trans hold
    | _ => exact (if_neg (Nat.ne_of_gt (Nat.lt_of_succ_lt hl))).trans hold

theorem newTable_frame : Frame (fun _ => False) w (w.newTable n ks opts old next) := by
  refine ⟨fun a ha _ => ⟨?_, ?_, fun i => ?_, fun l hl => newTable_locks_old (hl ▸ ha)⟩,
    Nat.le_add_right w.mallocs 2, Nat.le_add_right w.cells n⟩
  · rw [newTable_heads, if_neg (Nat.ne_of_lt ha)]
  · rw [newTable_slabs, if_neg (Nat.ne_of_lt (Nat.lt_succ_of_lt ha))]
  · rw [newTable_ents, if_neg fun h => Nat.ne_of_lt (Nat.lt_succ_of_lt ha) h.1]

theorem newTable_idle : Idle (w.newTable n ks opts old next) w.mallocs := by
  refine ⟨?_, ?_, ?_⟩ <;> rw [newTable_locks] <;> exact if_pos rfl

theorem newTable_clean : Clean (w.newTable n ks opts old next) (Shape.new (w.mallocs + 1) n) := by
  intro p hp
  rw [newTable_locks]
  exact if_pos ⟨List.mem_singleton.mp hp.1, hp.2⟩

theorem newTable_hasHead (a : Addr) :
    (w.newTable n ks opts old next).hasHead a = (decide (a = w.mallocs) || w.hasHead a) := by
  unfold World.hasHead
  rw [newTable_heads]
  by_cases ha : a = w.mallocs <;> simp [ha]

theorem newTable_hasSlab (a : Addr) :
    (w.newTable n ks opts old next).hasSlab a = (decide (a = w.mallocs + 1) || w.hasSlab a) := by
  unfold World.hasSlab
  rw [newTable_slabs]
  by_cases ha : a = w.mallocs + 1 <;> simp [ha]

theorem newTable_table (hn : n ≠ 0) :
    Table c (w.newTable n ks opts old none) w.mallocs (Shape.new (w.mallocs + 1) n) := by
  have hslab : (w.newTable n ks opts old none).slab (w.mallocs + 1) = ⟨none, n, n⟩ := by simp [World.slab]
  have hblank : ∀ p, (Shape.new (w.mallocs + 1) n).Has p → (w.newTable n ks opts old none).ents p = .blank := fun p hp => by
    rw [newTable_ents, if_pos ⟨List.mem_singleton.mp hp.1, hp.2⟩]
  have hok : (Shape.new (w.mallocs + 1) n).Ok := Shape.new_ok hn
  have hhead : ∀ i, i < n → (w.newTable n ks opts old none).ents ((Shape.new (w.mallocs + 1) n).head i) = .blank :=
    fun i hi => hblank _ (hok.head_has hi)
  refine ⟨⟨?_, fun i => ?_, fun i => ?_⟩, ?_, ?_, ?_, ?_, ?_, ?_, ⟨hok, ⟨fun i hi => ?_, ?_⟩, ⟨?_, ?_, ?_, ?_, ?_⟩⟩,
    fun p hp => Or.inl (newTable_clean p hp)⟩
  · simp [World.hasHead]
  · rw [newTable_locks]; exact if_pos rfl
  · rw [newTable_locks]; exact if_pos rfl
  · simp [Shape.new]
  · simp
  · refine ⟨by simp, ?_⟩
    show ((w.newTable n ks opts old none).slab (w.mallocs + 1)).next = none
    rw [hslab]
  · simp [Shape.new]
  · intro a ha
    obtain rfl : a = w.mallocs + 1 := List.mem_singleton.mp ha
    rw [hslab]
    exact ⟨by simp [World.hasSlab], rfl, rfl⟩
  · simp [Shape.new]
  · rw [hhead i hi]
    rfl
  · simp [Shape.new]
  · intro p hp
    rw [hblank p hp]
    rfl
  · exact fun _ _ _ => rfl
  · intro i _ p hp
    cases hp
  · intro p hp
    cases hp
  · intro i hi p hp hocc
    obtain rfl : p = (Shape.new (w.mallocs + 1) n).head i := List.mem_singleton.mp hp
    rw [hhead i hi] at hocc
    cases hocc

theorem newTable_contents : contents c (w.newTable n ks opts old next) w.mallocs (Shape.new (w.mallocs + 1) n) = 0 := by
  refine Multiset.eq_zero_iff_forall_notMem.mpr fun x hx => ?_
  obtain ⟨i, hi, hx⟩ := mem_pairs.mp hx
  rw [bucketPairs_vacant] at hx
  · cases hx
  · have hi : i < n := hi
    simp [Shape.new, hi, Entry.blank]

end New

/-! ## Copying -/

section Copy

variable {a t : Addr} {n : Nat} {done all : Multiset (List UInt8 × Nat)}

/-- The new table `a` once the pairs `done` have been inserted. -/
structure Copying (c : Conf) (env : Env) (w₀ : World) (a t : Addr) (n : Nat) (done : Multiset (List UInt8 × Nat)) (w : World)
    (S : Shape) : Prop where
  after : After c w₀ a (Shape.new t n) w S
  clean : Clean w S
  misuse : w.book.misuse = w₀.book.misuse
  pairs : contents c w a S = done
  supply : S.free.length < S.count
  mallocs : w.mallocs + 1 = w₀.mallocs + S.slabs.length
  got : ∀ k, w₀.mallocs ≤ k → k < w.mallocs → env.malloc k ≠ none

/-- The new table `a` when a slab could not be had for it. -/
structure CopyFailed (c : Conf) (env : Env) (w₀ : World) (a t : Addr) (n : Nat) (all : Multiset (List UInt8 × Nat)) (w : World)
    (S : Shape) : Prop where
  after : After c w₀ a (Shape.new t n) w S
  clean : Clean w S
  misuse : w.book.misuse = w₀.book.misuse
  short : ∃ k, k < slabsNeeded c n all ∧ env.malloc (w₀.mallocs + k) = none

namespace Copying

variable (hc : Copying c env w₀ a t n done w S)
include hc

theorem count : S.count = n := hc.after.sameCount

theorem overflow_eq : overflow c n done = S.chained := by
  rw [← hc.pairs, ← hc.count]
  exact hc.after.table.overflow_eq

/-- The slabs allocated so far are those needed. -/
theorem supplied : overflow c n done + S.free.length = (w.mallocs - w₀.mallocs) * n := by
  have hcard := hc.after.table.ok.card hc.after.table.slabsNodup
  have hlen : S.slabs.length = w.mallocs - w₀.mallocs + 1 := by
    have := hc.mallocs
    have := hc.after.frame.mallocs
    omega
  rw [hlen, hc.count, Nat.succ_mul] at hcard
  rw [hc.overflow_eq]
  omega

theorem needed : w.mallocs = w₀.mallocs + slabsNeeded c n done := by
  have hs := hc.supplied
  have hf := hc.supply
  have hle := hc.after.frame.mallocs
  have hpos := hc.after.table.ok.pos
  rw [hc.count] at hf hpos
  obtain ⟨e, he⟩ : ∃ e, w.mallocs = w₀.mallocs + e := ⟨w.mallocs - w₀.mallocs, by omega⟩
  rw [he, Nat.add_sub_cancel_left] at hs
  have hdiv : slabsNeeded c n done = e := by
    unfold slabsNeeded
    refine Nat.div_eq_of_lt_le ?_ ?_
    · omega
    · rw [Nat.succ_mul]
      omega
  rw [he, hdiv]

end Copying

/-- A pair that has the key of another is not inserted twice. -/
theorem not_mem_of_distinct {x : List UInt8 × Nat} (hd : (all.map Prod.fst).Nodup) (hle : x ::ₘ done ≤ all) :
    x.1 ∉ done.map Prod.fst := by
  have hnd := Multiset.nodup_of_le (Multiset.map_le_map hle) hd
  rw [Multiset.map_cons, Multiset.nodup_cons] at hnd
  exact hnd.1

/-- One insertion in the new table. -/
theorem Copying.insert (hok : LockOk env) (hc : Copying c env w₀ a t n done w S) {key data : Nat}
    (hle : (c.keyBytes (w₀.keyLen c a) key, data) ::ₘ done ≤ all)
    (hd : (w₀.head a).options.dupsAllowed = false → (all.map Prod.fst).Nodup) :
    wp env (insertKeyNoResize c a key data) (fun r w' =>
      (r = 0 ∧ ∃ S', Copying c env w₀ a t n ((c.keyBytes (w₀.keyLen c a) key, data) ::ₘ done) w' S') ∨
      (r ≠ 0 ∧ ∃ S', CopyFailed c env w₀ a t n all w' S')) w := by
  have ha := hc.after
  refine wp_mono (insertKeyWith_spec hok ha.fresh ha.table ha.idle _ key data) fun r w' hr => ?_
  obtain ⟨S', ha', hcl, hsup, hcont⟩ := hr.after ha.fresh ha.table ha.idle
  obtain ⟨hcl, hmis⟩ := hcl hc.clean
  have hafter := ha.trans ha'
  rw [ha.keyLen] at hcont
  cases hsup with
  | kept hm hs hf hr0 =>
    have hr0 : r = 0 := by
      rcases hr0 with h | h | ⟨hdup, q, hq, hmq⟩
      · exact h
      · exact absurd hc.clean h
      · rw [ha.options] at hdup
        refine absurd ?_ (not_mem_of_distinct (hd hdup) hle)
        refine Multiset.mem_map.mpr ⟨pairOf (c.keyBytes (w₀.keyLen c a)) w.ents q, ?_, ?_⟩
        · rw [← hc.pairs, contents, ha.keyLen]
          exact mem_pairs.mpr ⟨_, ha.table.index_lt key, List.mem_map_of_mem hq⟩
        · rw [ha.keyLen] at hmq
          exact hmq
    refine Or.inl ⟨hr0, S', hafter, hcl, hmis.trans hc.misuse, ?_, ?_, ?_, fun k h1 h2 => ?_⟩
    · rw [hcont, if_pos hr0, hc.pairs]
    · rw [ha'.sameCount]
      exact Nat.lt_of_le_of_lt hf hc.supply
    · rw [hm, hs]
      exact hc.mallocs
    · exact hc.got k h1 (hm ▸ h2)
  | grown hf hal hm hs hf' =>
    refine Or.inl ⟨rfl, S', hafter, hcl, hmis.trans hc.misuse, ?_, ?_, ?_, fun k h1 h2 => ?_⟩
    · rw [hcont, if_pos rfl, hc.pairs]
    · rw [ha'.sameCount]
      exact hf'
    · have := hc.mallocs
      rw [hm, hs, List.length_cons]
      omega
    · rcases Nat.lt_succ_iff_lt_or_eq.mp (hm ▸ h2) with h | rfl
      · exact hc.got k h1 h
      · exact hal
  | failed hf hal hm hs hocc =>
    refine Or.inr ⟨by decide, S', hafter, hcl, hmis.trans hc.misuse, w.mallocs - w₀.mallocs, ?_, ?_⟩
    · -- all entries are in use, and the bucket of the key is taken
      have hlt := ha.table.index_lt key
      have hcons : overflow c n ((c.keyBytes (w₀.keyLen c a) key, data) ::ₘ done) = overflow c n done + 1 := by
        refine overflow_cons ⟨pairOf (c.keyBytes (w.keyLen c a)) w.ents (S.head (w.index c a S key)), ?_, ?_⟩
        · rw [← hc.pairs]
          refine mem_pairs.mpr ⟨_, hlt, ?_⟩
          rw [bucketPairs_occupied hocc]
          exact List.mem_cons_self
        · have hix := ha.table.entries.flagged.hash _ hlt _ List.mem_cons_self hocc
          rw [hc.count] at hix
          apply hix.trans
          rw [World.index, ha.keyLen, hc.count]
          rfl
      refine Nat.lt_of_lt_of_le ?_ (slabsNeeded_mono hle)
      have hs := hc.supplied
      have hpos := ha.table.ok.pos
      rw [hf, List.length_nil, Nat.add_zero] at hs
      rw [hc.count] at hpos
      unfold slabsNeeded
      rw [hcons, hs, show (w.mallocs - w₀.mallocs) * n + 1 + n - 1 = (w.mallocs - w₀.mallocs + 1) * n by
        rw [Nat.succ_mul]; omega, Nat.mul_div_cancel _ hpos]
      exact Nat.lt_succ_self _
    · rw [Nat.add_sub_cancel' ha.frame.mallocs]
      exact hal

/-- The outcome of a part of the copy: `m` is inserted too, or a slab could not be had. -/
def CopyPost (c : Conf) (env : Env) (w₀ : World) (a t : Addr) (n : Nat) (all m : Multiset (List UInt8 × Nat)) (r : Int)
    (w : World) : Prop :=
  (r = 0 ∧ ∃ S, Copying c env w₀ a t n m w S) ∨ (r ≠ 0 ∧ ∃ S, CopyFailed c env w₀ a t n all w S)

section Old

variable (hok : LockOk env) (ht : Table c w₀ h S₀) (hb : ∀ b ∈ S₀.slabs, b < w₀.mallocs ∧ ¬Blocks a (Shape.new t n) b)
  (hk : w₀.keyLen c a = w₀.keyLen c h) (hd : (w₀.head a).options.dupsAllowed = false → (all.map Prod.fst).Nodup)

include ht hb in
/-- The old table is not touched. -/
theorem Copying.old (hc : Copying c env w₀ a t n done w S) {p : EntryPtr} (hp : S₀.Has p) :
    w.ents p = w₀.ents p ∧ w.valid p = true := by
  have hsame := hc.after.frame.same p.1 (hb p.1 hp.1).1 (hb p.1 hp.1).2
  refine ⟨hsame.ents p.2, ?_⟩
  have hv := ht.valid hp
  unfold World.valid at hv ⊢
  rw [hsame.slabs]
  exact hv

include hok ht hb hk hd

/-- The pair of one entry. -/
theorem copyEntry_spec (hc : Copying c env w₀ a t n done w S) {p : EntryPtr} (hp : S₀.Has p)
    (hle : pairOf (c.keyBytes (w₀.keyLen c h)) w₀.ents p ::ₘ done ≤ all) :
    wp env (do
      let k ← getKey p
      let d ← getData p
      insertKeyNoResize c a k d)
      (CopyPost c env w₀ a t n all (pairOf (c.keyBytes (w₀.keyLen c h)) w₀.ents p ::ₘ done)) w := by
  obtain ⟨he, hv⟩ := hc.old ht hb hp
  rw [wp_getKey hv, wp_getData hv, he]
  have hpair : pairOf (c.keyBytes (w₀.keyLen c h)) w₀.ents p = (c.keyBytes (w₀.keyLen c a) (w₀.ents p).key, (w₀.ents p).data) := by
    rw [pairOf, hk]
  rw [hpair] at hle ⊢
  exact hc.insert hok hle hd

theorem copyChain_spec (l : List EntryPtr) : ∀ (fuel : Nat) (chte : EntryPtr) (w : World) (S : Shape)
    (done : Multiset (List UInt8 × Nat)), l.length < fuel → Copying c env w₀ a t n done w S → S₀.Has chte →
    (∀ p ∈ l, S₀.Has p) → Chain (nextOf w₀.ents) (w₀.ents chte).next l →
    done + (l.map (pairOf (c.keyBytes (w₀.keyLen c h)) w₀.ents) : List _) ≤ all →
    wp env (copyChain (insertKeyNoResize c a) fuel chte)
      (CopyPost c env w₀ a t n all (done + (l.map (pairOf (c.keyBytes (w₀.keyLen c h)) w₀.ents) : List _))) w := by
  induction l with
  | nil =>
    intro fuel chte w S done hfuel hc hch _ hl _
    obtain ⟨fuel, rfl⟩ : ∃ n, fuel = n + 1 := ⟨fuel - 1, by simp at hfuel; omega⟩
    obtain ⟨he, hv⟩ := hc.old ht hb hch
    unfold copyChain
    rw [wp_getNext hv, he, chain_nil.mp hl]
    refine wp_ret.mpr (Or.inl ⟨rfl, S, ?_⟩)
    simpa using hc
  | cons p l ih =>
    intro fuel chte w S done hfuel hc hch hall hl hle
    obtain ⟨fuel, rfl⟩ : ∃ n, fuel = n + 1 := ⟨fuel - 1, by simp at hfuel; omega⟩
    obtain ⟨he, hv⟩ := hc.old ht hb hch
    obtain ⟨hn, hl⟩ := hl
    have hp := hall p List.mem_cons_self
    have hsplit : done + (((p :: l).map (pairOf (c.keyBytes (w₀.keyLen c h)) w₀.ents) : List _) : Multiset _) =
        pairOf (c.keyBytes (w₀.keyLen c h)) w₀.ents p ::ₘ done +
          ((l.map (pairOf (c.keyBytes (w₀.keyLen c h)) w₀.ents) : List _) : Multiset _) := by
      rw [List.map_cons, ← Multiset.cons_coe, Multiset.add_cons, Multiset.cons_add]
    rw [hsplit] at hle ⊢
    unfold copyChain
    rw [wp_getNext hv, he, hn]
    show wp env (getKey p >>= _) _ _
    have hent := copyEntry_spec hok ht hb hk hd hc hp ((Multiset.le_add_right _ _).trans hle)
    have hbind : (do
        let k ← getKey p
        let d ← getData p
        let ret ← insertKeyNoResize c a k d
        if ret ≠ 0 then return ret else copyChain (insertKeyNoResize c a) fuel p) = (do
          let k ← getKey p
          let d ← getData p
          insertKeyNoResize c a k d) >>= fun ret =>
        if ret ≠ 0 then return ret else copyChain (insertKeyNoResize c a) fuel p := by
      simp only [Prog.bind_assoc]
    rw [hbind]
    apply wp_spec hent
    rintro r w' (⟨rfl, S', hc'⟩ | ⟨hr, S', hf⟩)
    · rw [if_neg (by simp)]
      exact ih fuel p w' S' _ (by simpa using hfuel) hc' hp (fun q hq => hall q (List.mem_cons_of_mem _ hq)) hl hle
    · rw [if_pos hr]
      exact wp_ret.mpr (Or.inr ⟨hr, S', hf⟩)

/-- The pairs of the buckets below `i`. -/
theorem copyTable_spec (i : Nat) : ∀ (w : World) (S : Shape) (done : Multiset (List UInt8 × Nat)), i ≤ S₀.count →
    Copying c env w₀ a t n done w S →
    done + ∑ j ∈ Finset.range i, (bucketPairs (c.keyBytes (w₀.keyLen c h)) w₀.ents S₀ j : Multiset (List UInt8 × Nat)) ≤ all →
    wp env (copyTable (insertKeyNoResize c a) S₀.table i) (CopyPost c env w₀ a t n all
      (done + ∑ j ∈ Finset.range i, (bucketPairs (c.keyBytes (w₀.keyLen c h)) w₀.ents S₀ j : Multiset (List UInt8 × Nat)))) w := by
  induction i with
  | zero =>
    intro w S done _ hc _
    refine wp_ret.mpr (Or.inl ⟨rfl, S, ?_⟩)
    simpa using hc
  | succ i ih =>
    intro w S done hi hc hle
    have hlt : i < S₀.count := hi
    have hhas := ht.ok.head_has hlt
    have hfuel := ht.fuel hlt
    rw [Finset.sum_range_succ, add_comm (∑ j ∈ Finset.range i, _), ← add_assoc] at hle ⊢
    set rest : Multiset (List UInt8 × Nat) :=
      ∑ j ∈ Finset.range i, (bucketPairs (c.keyBytes (w₀.keyLen c h)) w₀.ents S₀ j : Multiset (List UInt8 × Nat)) with hrest
    obtain ⟨he, hv⟩ := hc.old ht hb hhas
    -- the chain behind the head, and the buckets below
    have hchain : ∀ (w : World) (S : Shape) (done' : Multiset (List UInt8 × Nat)), Copying c env w₀ a t n done' w S →
        done' + (((S₀.chain i).map (pairOf (c.keyBytes (w₀.keyLen c h)) w₀.ents) : List _) : Multiset (List UInt8 × Nat)) =
          done + (bucketPairs (c.keyBytes (w₀.keyLen c h)) w₀.ents S₀ i : Multiset (List UInt8 × Nat)) →
        wp env (do
          let fuel ← bound
          let ret ← copyChain (insertKeyNoResize c a) fuel (S₀.table, i)
          if ret ≠ 0 then return ret else copyTable (insertKeyNoResize c a) S₀.table i)
          (CopyPost c env w₀ a t n all
            (done + (bucketPairs (c.keyBytes (w₀.keyLen c h)) w₀.ents S₀ i : Multiset (List UInt8 × Nat)) + rest)) w := by
      intro w S done' hc' heq
      have hcells := hc'.after.frame.cells
      rw [wp_bound]
      refine wp_spec (copyChain_spec hok ht hb hk hd (S₀.chain i) _ _ w S done' (by omega) hc' hhas
        (fun p hp => ht.ok.chain_has hlt hp) (ht.entries.linked.chain i hlt) ?_) ?_
      · rw [heq]
        exact (Multiset.le_add_right _ _).trans hle
      · rintro r w' (⟨rfl, S', hc''⟩ | ⟨hr, S', hf⟩)
        · rw [if_neg (by simp)]
          rw [heq] at hc''
          exact ih w' S' _ (Nat.le_of_lt hlt) hc'' hle
        · rw [if_pos hr]
          exact wp_ret.mpr (Or.inr ⟨hr, S', hf⟩)
    unfold copyTable
    rw [wp_getFlags hv, he]
    cases hocc : (w₀.ents (S₀.table, i)).flags.occupied with
    | true =>
      have hbp := @bucketPairs_occupied w₀.ents S₀ _ (c.keyBytes (w₀.keyLen c h)) _ hocc
      have hsum : pairOf (c.keyBytes (w₀.keyLen c h)) w₀.ents (S₀.head i) ::ₘ done +
          (((S₀.chain i).map (pairOf (c.keyBytes (w₀.keyLen c h)) w₀.ents) : List _) : Multiset (List UInt8 × Nat)) =
          done + (bucketPairs (c.keyBytes (w₀.keyLen c h)) w₀.ents S₀ i : Multiset (List UInt8 × Nat)) := by
        rw [hbp, ← Multiset.cons_coe, Multiset.add_cons, Multiset.cons_add]
      rw [guarded, if_pos rfl]
      refine wp_spec (copyEntry_spec hok ht hb hk hd hc hhas ?_) ?_
      · rw [← hsum] at hle
        exact (Multiset.le_add_right _ _).trans ((Multiset.le_add_right _ _).trans hle)
      · rintro r w' (⟨rfl, S', hc'⟩ | ⟨hr, S', hf⟩)
        · rw [if_neg (by simp)]
          exact hchain w' S' _ hc' hsum
        · rw [if_pos hr]
          exact wp_ret.mpr (Or.inr ⟨hr, S', hf⟩)
    | false =>
      have hnil := ht.entries.flagged.empty i hlt hocc
      have hbp := @bucketPairs_vacant w₀.ents S₀ _ (c.keyBytes (w₀.keyLen c h)) _ hocc
      rw [guarded, if_neg (by simp), Prog.pure_eq, Prog.ret_bind, if_neg (by simp)]
      apply hchain w S done hc
      rw [hnil, hbp]
      rfl

end Old

end Copy

end ZfsTest.Hashtable
