import ZfsTest.Hashtable.Resize

/-!
# Runs of calls

A table made by `ht_create` (`Created`) is in order (`Created.held`), and every call keeps it so (`runCall_spec`,
`Outcome.held`); hence every sequence of calls ends, and with a table in order (`runCalls_held`, `Reached.held`).

The views of a table (`World.tableSize`, `World.chainAt`, `World.pairs`, …) read it off the memory by following pointers;
they agree with the arrangement of the invariant (`Table.chainAt`, `Table.pairs_eq`).
-/

namespace ZfsTest.Hashtable

open Prog

variable {c : Conf} {env : Env} {w w' w₁ : World} {h : Addr} {S S' : Shape} {P P' : List (Addr × List Addr)}

/-! ## Views -/

namespace World

/-- `ht->table`. -/
def tableOf (w : World) (h : Addr) : Addr := (w.head h).table.getD 0

/-- The number of buckets. -/
def tableSize (w : World) (h : Addr) : Nat := (w.slab (w.tableOf h)).entrycount

/-- The entries behind `p`. -/
def chainAt (w : World) (p : EntryPtr) : List EntryPtr := follow (nextOf w.ents) w.cells (w.ents p).next

/-- The chain of bucket `i`. -/
def chainOf (w : World) (h : Addr) (i : Nat) : List EntryPtr := w.chainAt (w.tableOf h, i)

/-- The occupied entries of bucket `i`. -/
def bucketOf (w : World) (h : Addr) (i : Nat) : List EntryPtr :=
  if (w.ents (w.tableOf h, i)).flags.occupied then (w.tableOf h, i) :: w.chainOf h i else []

/-- The free chain. -/
def freeOf (w : World) (h : Addr) : List EntryPtr := follow (nextOf w.ents) w.cells (w.head h).freechain

/-- The slab list. -/
def slabsOf (w : World) (h : Addr) : List Addr := follow (fun a => (w.slab a).next) w.mallocs (w.head h).slabs

/-- The pairs of bucket `i`. -/
def pairsOf (c : Conf) (w : World) (h : Addr) (i : Nat) : List (List UInt8 × Nat) :=
  (w.bucketOf h i).map (pairOf (c.keyBytes (w.keyLen c h)) w.ents)

/-- The pairs in the table. -/
def pairs (c : Conf) (w : World) (h : Addr) : Multiset (List UInt8 × Nat) :=
  (((List.range (w.tableSize h)).flatMap (w.pairsOf c h) : List (List UInt8 × Nat)) : Multiset (List UInt8 × Nat))

/-- The bucket of a key. -/
def bucketIndex (c : Conf) (w : World) (h : Addr) (key : Nat) : Nat :=
  c.htHashBytes key (w.keyLen c h) (w.tableSize h)

end World

namespace Table

variable (ht : Table c w h S)
include ht

theorem tableOf : w.tableOf h = S.table := by
  rw [World.tableOf, ht.table]
  rfl

theorem tableSize : w.tableSize h = S.count := by
  rw [World.tableSize, ht.tableOf]
  exact ht.entrycount ht.ok.tableMem

theorem chainOf {i : Nat} (hi : i < S.count) : w.chainOf h i = S.chain i := by
  rw [World.chainOf, ht.tableOf]
  exact (ht.entries.linked.chain i hi).follow_eq (Nat.le_of_lt (ht.fuel hi))

theorem bucketOf {i : Nat} (hi : i < S.count) : w.bucketOf h i = S.bucket w.ents i := by
  rw [World.bucketOf, ht.chainOf hi, ht.tableOf]
  rfl

theorem pairs_eq : w.pairs c h = contents c w h S := by
  have hb : ∀ i, i < S.count → w.pairsOf c h i = bucketPairs (c.keyBytes (w.keyLen c h)) w.ents S i := by
    intro i hi
    rw [World.pairsOf, ht.bucketOf hi]
    rfl
  rw [World.pairs, ht.tableSize, contents, Hashtable.pairs]
  have hall : ∀ n, n ≤ S.count → (((List.range n).flatMap (w.pairsOf c h) : List (List UInt8 × Nat)) : Multiset _) =
      ∑ i ∈ Finset.range n, (bucketPairs (c.keyBytes (w.keyLen c h)) w.ents S i : Multiset (List UInt8 × Nat)) := by
    intro n
    induction n with
    | zero => exact fun _ => rfl
    | succ n ih =>
      intro hn
      rw [List.range_succ, List.flatMap_append, Finset.sum_range_succ, ← ih (Nat.le_of_succ_le hn), ← hb n hn,
        ← Multiset.coe_add]
      simp
  exact hall S.count (Nat.le_refl _)

theorem bucketIndex (key : Nat) : w.bucketIndex c h key = w.index c h S key := by
  rw [World.bucketIndex, ht.tableSize]
  rfl

theorem freeOf : w.freeOf h = S.free := by
  apply (ht.entries.linked.free).follow_eq
  have hcard := ht.ok.card ht.slabsNodup
  have hcells := ht.cells
  omega

theorem slabsOf (hw : w.Fresh) : w.slabsOf h = S.slabs := by
  apply ht.slabs.follow_eq
  have hle := (List.subperm_of_subset ht.slabsNodup fun a ha =>
    List.mem_range.mpr (hw.slab_lt (ht.hasSlab ha))).length_le
  rwa [List.length_range] at hle

/-- The pairs with a key stand in its bucket. -/
theorem mem_pairs {key d : Nat} : (c.keyBytes (w.keyLen c h) key, d) ∈ contents c w h S ↔
    ∃ q ∈ S.bucket w.ents (w.index c h S key), Matches c (w.keyLen c h) key w.ents q ∧ (w.ents q).data = d := by
  constructor
  · intro hm
    obtain ⟨i, hi, hm⟩ := Hashtable.mem_pairs.mp hm
    obtain ⟨q, hq, he⟩ := List.mem_map.mp hm
    obtain ⟨hk, hd⟩ := Prod.mk.inj he
    obtain ⟨-, hocc, hmem⟩ := ht.mem_bucket hi hq
    have hix : c.hashOf (c.keyBytes (w.keyLen c h) (w.ents q).key) % S.count = i :=
      ht.entries.flagged.hash i hi q hmem hocc
    have hi' : w.index c h S key = i := by
      rw [← hix, hk]
      rfl
    exact ⟨q, hi' ▸ hq, hk, hd⟩
  · rintro ⟨q, hq, hk, rfl⟩
    refine Hashtable.mem_pairs.mpr ⟨_, ht.index_lt key, List.mem_map.mpr ⟨q, hq, ?_⟩⟩
    exact Prod.ext hk rfl

end Table

/-! ## Creation -/

/-- `h` is the table that `ht_create` returned, in memory `w`. -/
def Created (env : Env) (n ks : Nat) (opts : Options) (h : Addr) (w : World) : Prop :=
  (htCreate n ks opts).exec (step env) World.empty = some (some h, w)

theorem World.empty_fresh : World.empty.Fresh := ⟨fun _ _ => rfl, fun _ _ => rfl, fun _ _ => rfl⟩

/-- A block filled with zeros. -/
def Fill.zero : Fill where
  head := ⟨0, ⟨false, false⟩, none, none, none, none, none⟩
  next := none
  entrycount := 0
  entry _ := ⟨none, 0, 0, ⟨false, false⟩⟩

/-- Fresh memory is zero-filled, the `malloc` calls `got` succeed, and every lock call returns `0`. -/
def Env.allZero (got : Nat → Bool) : Env where
  malloc n := if got n then some Fill.zero else none
  lockRet _ _ _ _ := 0

/-- Fresh memory is zero-filled, the `malloc` calls `got` succeed, and a lock call returns `0` unless it is a misuse. -/
def Env.checked (got : Nat → Bool) : Env where
  malloc n := if got n then some Fill.zero else none
  lockRet _ o _ st := if o.proper st then 0 else 1

theorem Env.allZero_allZero (got : Nat → Bool) : AllZero (Env.allZero got) := fun _ _ _ _ => rfl

theorem Env.checked_checked (got : Nat → Bool) : Checked (Env.checked got) := by
  intro _ o _ st
  by_cases hp : o.proper st = true <;> simp [Env.checked, hp]

theorem nullFill_of_zero (hm : ∀ n f, env.malloc n = some f → f = Fill.zero) : NullFill env := by
  intro n f hf
  rw [hm n f hf]
  exact ⟨rfl, rfl⟩

theorem Env.allZero_nullFill (got : Nat → Bool) : NullFill (Env.allZero got) := by
  refine nullFill_of_zero fun n f hf => ?_
  simp only [Env.allZero] at hf
  split at hf
  · exact (Option.some.inj hf).symm
  · cases hf

theorem Env.checked_nullFill (got : Nat → Bool) : NullFill (Env.checked got) := by
  refine nullFill_of_zero fun n f hf => ?_
  simp only [Env.checked] at hf
  split at hf
  · exact (Option.some.inj hf).symm
  · cases hf

/-- `ht_create` succeeds when it gets its two blocks. -/
theorem created_of_got (hok : LockOk env) {n : Nat} (hn : n ≠ 0) (ks : Nat) (opts : Options) (h0 : env.malloc 0 ≠ none)
    (h1 : env.malloc 1 ≠ none) : ∃ w, Created env n ks opts 0 w := by
  obtain ⟨r, w, he, hp⟩ := htCreate_spec hok World.empty_fresh n ks opts
  rcases hp with ⟨-, -, h | h | h⟩ | ⟨f, g, b, -, -, -, hr, -, -⟩
  · exact absurd h hn
  · exact absurd h h0
  · exact absurd h h1
  · refine ⟨w, ?_⟩
    subst hr
    exact he

/-- A value of a narrow type that went through a wider one. -/
theorem bmod_emod_bmod (x : Int) {m k : Nat} (hm : m ∣ k) (hk : 0 < k) : Int.bmod ((x.bmod m % k).toNat : Int) m = x.bmod m := by
  have hnn : 0 ≤ x.bmod m % (k : Int) := Int.emod_nonneg _ (by omega)
  rw [Int.toNat_of_nonneg hnn, ← Int.emod_bmod, Int.emod_emod_of_dvd _ (Int.natCast_dvd_natCast.mpr hm), Int.emod_bmod,
    Int.bmod_bmod]

/-- A key size that went through `int` stays what it is. -/
theorem intOfSize_sizeOfInt (c : Conf) (n : Nat) : intOfSize (c.sizeOfInt (intOfSize n)) = intOfSize n := by
  have hmod := bmod_emod_bmod (n : Int) (pow_dvd_pow 2 c.wide) (Nat.pow_pos (by decide : 0 < 2))
  rw [Int.natCast_pow] at hmod
  exact hmod

/-- Nothing is allocated. -/
def World.Bare (w : World) : Prop := w.Fresh ∧ ∀ a, w.hasHead a = false ∧ w.hasSlab a = false

theorem World.empty_bare : World.empty.Bare := ⟨World.empty_fresh, fun _ => ⟨rfl, rfl⟩⟩

/-- A new table is in order. -/
theorem World.Bare.newTable {n : Nat} (hw : w.Bare) (hn : n ≠ 0) (ks : Nat) (opts : Options) (b : Book) :
    Held c ((w.newTable n ks opts none none).withBook b) w.mallocs (Shape.new (w.mallocs + 1) n) [] := by
  have hT := @newTable_table c w n ks opts none hn
  have h0 : contents c (w.newTable n ks opts none none) w.mallocs (Shape.new (w.mallocs + 1) n) = 0 := newTable_contents
  have hF := @newTable_fresh _ n ks opts none none hw.1
  have hhead : (w.newTable n ks opts none none).head w.mallocs = ⟨intOfSize ks, opts, none, some (w.mallocs + 1),
      some (w.mallocs + 1), none, some htEvaluateThresholdDefault⟩ := by simp
  refine Held.withBook ⟨hF, hT, ?_, ?_, fun a ha => Or.inl ?_, fun a ha => Or.inl ?_, ?_, fun _ => ?_⟩ b
  · rw [hhead]
    exact ⟨rfl, by simp, by simp [blocksOf]⟩
  · simp [Shape.new, blocksOf]
  · simpa [newTable_hasHead, (hw.2 a).1] using ha
  · simpa [newTable_hasSlab, (hw.2 a).2, Shape.new] using ha
  · have hks : ((w.newTable n ks opts none none).head w.mallocs).keysize = intOfSize ks := by rw [hhead]
    rw [hks]
    exact intOfSize_sizeOfInt c ks
  · rw [h0]
    exact Multiset.nodup_zero

theorem Created.held {n ks : Nat} {opts : Options} (hok : LockOk env) (hnull : NullFill env)
    (hc : Created env n ks opts h w) : ∃ S, Held c w h S [] ∧ Idle w h ∧ Clean w S ∧ contents c w h S = 0 ∧ S.count = n ∧
      (w.head h).options = opts ∧ (w.head h).keysize = intOfSize ks := by
  have hpost := (htCreate_spec hok World.empty_fresh n ks opts).post hc
  rcases hpost with ⟨hr, -⟩ | ⟨f, g, b, hn, hf, hg, hr, -, rfl⟩
  · cases hr
  obtain rfl : h = 0 := Option.some.inj hr
  rw [(hnull _ f hf).1, (hnull _ g hg).2]
  have h0 := @newTable_contents c World.empty n ks opts none none
  have hI := @newTable_idle World.empty n ks opts none none
  have hhead : (World.empty.newTable n ks opts none none).head 0 = ⟨intOfSize ks, opts, none, some 1, some 1, none,
      some htEvaluateThresholdDefault⟩ := by simp [World.empty]
  refine ⟨Shape.new 1 n, World.empty_bare.newTable hn ks opts b, ⟨hI.table, hI.free, hI.resize⟩,
    @newTable_clean World.empty _ _ _ _ none, h0, rfl, ?_, ?_⟩
  · rw [World.withBook_head, hhead]
  · rw [World.withBook_head, hhead]

/-! ## Calls -/

/-- The outcomes of a call. -/
inductive Outcome (c : Conf) (env : Env) (w : World) (h : Addr) (S : Shape) : Call → Int → World → Prop
  | insert {key data : Nat} {r : Int} {w' : World} (hr : Inserted c env w h S key data r w') :
      Outcome c env w h S (.insert key data) r w'
  | delete {key r : Nat} {w' : World} (hr : Deleted c env w h S key r w') : Outcome c env w h S (.delete key) r w'
  | locate {key r : Nat} {w' : World} (hr : LocatedKey c env w h S key r w') : Outcome c env w h S (.locate key) r w'
  | resizeKept {n : Nat} {r : Int} {w' : World} {P' : List (Addr × List Addr)} (hr : ResizeKept c env w h S n r w' P') :
      Outcome c env w h S (.resize n) r w'
  | resizeDone {n : Nat} {r : Int} {w' : World} {S' : Shape} {P' : List (Addr × List Addr)}
      (hr : ResizeDone c env w h S n r w' S' P') : Outcome c env w h S (.resize n) r w'

/-- The calls return. -/
theorem callCode_spec (hok : LockOk env) (hnull : NullFill env) (hh : Held c w h S P) (hi : Idle w h) (a : Call) :
    wp env (callCode c h a) (Outcome c env w h S a) w := by
  cases a with
  | insert key data => exact wp_mono (insertKeyWith_spec hok hh.fresh hh.table hi _ key data) fun r w' hr => .insert hr
  | delete key =>
    exact wp_spec (htDeleteKey_spec hok hh.table hi key) fun r w' hr => wp_ret.mpr (.delete hr)
  | locate key =>
    exact wp_spec (htLocateKey_spec hok hh.table hi key) fun r w' hr => wp_ret.mpr (.locate hr)
  | resize n =>
    apply wp_mono (htResize_spec hok hnull hh hi n)
    rintro r w' (⟨P', hr⟩ | ⟨S', P', hr⟩)
    · exact .resizeKept hr
    · exact .resizeDone hr

theorem runCall_spec (hok : LockOk env) (hnull : NullFill env) (hh : Held c w h S P) (hi : Idle w h) (a : Call) :
    ∃ r w', runCall c env h a w = some (r, w') ∧ r.errno = w'.book.errno ∧ Outcome c env w h S a r.ret w' := by
  obtain ⟨r, w', he, ho⟩ := callCode_spec hok hnull hh hi a
  refine ⟨⟨r, w'.book.errno⟩, w', ?_, rfl, ho⟩
  rw [runCall, he]
  rfl

/-- What every call keeps. -/
structure Kept (c : Conf) (w : World) (h : Addr) (w' : World) (S' : Shape) (P' : List (Addr × List Addr)) : Prop where
  held : Held c w' h S' P'
  idle : Idle w' h
  keysize : (w'.head h).keysize = (w.head h).keysize
  options : (w'.head h).options = (w.head h).options

theorem Kept.keyLen (hk : Kept c w h w' S' P') : w'.keyLen c h = w.keyLen c h := by
  unfold World.keyLen
  rw [hk.keysize]

theorem Held.kept (hh : Held c w h S P) (ha : After c w h S w' S') (hd : (w.head h).options.dupsAllowed = false →
    ((contents c w' h S').map Prod.fst).Nodup) : Kept c w h w' S' P :=
  ⟨hh.after ha hd, ha.idle, ha.keysize, ha.options⟩

/-- A key that was not in the table can be added. -/
theorem nodup_cons_key {m : Multiset (List UInt8 × Nat)} {x : List UInt8 × Nat} (hm : (m.map Prod.fst).Nodup)
    (hx : ∀ d, (x.1, d) ∉ m) : ((x ::ₘ m).map Prod.fst).Nodup := by
  rw [Multiset.map_cons, Multiset.nodup_cons]
  refine ⟨fun h => ?_, hm⟩
  obtain ⟨y, hy, he⟩ := Multiset.mem_map.mp h
  exact hx y.2 (he ▸ hy)

/-- An insertion that returns `0` on a table without duplicates found the key absent. -/
theorem Inserted.absent (ht : Table c w h S) {key data : Nat} {r : Int} (hr : Inserted c env w h S key data r w') (h0 : r = 0)
    (hd : (w.head h).options.dupsAllowed = false) (d : Nat) : (c.keyBytes (w.keyLen c h) key, d) ∉ contents c w h S := by
  intro hm
  obtain ⟨q, hq, hmq, -⟩ := ht.mem_pairs.mp hm
  cases hr with
  | stuck => exact absurd h0 (by decide)
  | filled b hb hocc =>
    rw [Shape.bucket, if_neg (by simp [hocc])] at hq
    cases hq
  | present => exact absurd h0 (by decide)
  | chained b hocc hn hb hr => exact hn hd ⟨q, hq, hmq⟩

/-- A key is absent when no entry of its bucket has it. -/
theorem Table.not_mem_pairs (ht : Table c w h S) {key : Nat}
    (hn : ∀ q ∈ S.bucket w.ents (w.index c h S key), ¬Matches c (w.keyLen c h) key w.ents q) (d : Nat) :
    (c.keyBytes (w.keyLen c h) key, d) ∉ contents c w h S := by
  intro hm
  obtain ⟨q, hq, hmq, -⟩ := ht.mem_pairs.mp hm
  exact hn q hq hmq

/-- What a call does to the pairs in the table. -/
def Effect (c : Conf) (env : Env) (w : World) (h : Addr) (S : Shape) : Call → Int → World → Shape → Prop
  | .insert key data, r, w', S' => contents c w' h S' =
      if r = 0 then (c.keyBytes (w.keyLen c h) key, data) ::ₘ contents c w h S else contents c w h S
  | .delete key, r, w', S' =>
    r = 0 ∧ contents c w' h S' = contents c w h S ∧
        (AllZero env → ∀ d, (c.keyBytes (w.keyLen c h) key, d) ∉ contents c w h S) ∨
      ∃ d, contents c w h S = (c.keyBytes (w.keyLen c h) key, d) ::ₘ contents c w' h S'
  | .locate _, _, w', S' => contents c w' h S' = contents c w h S
  | .resize _, _, w', S' => contents c w' h S' = contents c w h S

/-- An insertion keeps the table in order. -/
theorem Inserted.kept (hh : Held c w h S P) (hi : Idle w h) {key data : Nat} {r : Int} (hr : Inserted c env w h S key data r w') :
    ∃ S', Kept c w h w' S' P ∧ (Clean w S → Clean w' S') ∧
      contents c w' h S' = if r = 0 then (c.keyBytes (w.keyLen c h) key, data) ::ₘ contents c w h S else contents c w h S := by
  obtain ⟨S', ha, hclean, -, hc⟩ := hr.after hh.fresh hh.table hi
  refine ⟨S', hh.kept ha fun hd => ?_, fun hcl => (hclean hcl).1, hc⟩
  rw [hc]
  by_cases h0 : r = 0
  · rw [if_pos h0]
    exact nodup_cons_key (hh.distinct hd) (hr.absent hh.table h0 hd)
  · rw [if_neg h0]
    exact hh.distinct hd

/-- Locating a key keeps the table in order. -/
theorem LocatedKey.kept (hh : Held c w h S P) (hi : Idle w h) {key r : Nat} (hr : LocatedKey c env w h S key r w') :
    Kept c w h w' S P ∧ (Clean w S → Clean w' S) ∧ w'.ents = w.ents ∧ contents c w' h S = contents c w h S := by
  obtain ⟨ha, he, hclean⟩ := hr.after hh.fresh hh.table hi
  have hc : contents c w' h S = contents c w h S := contents_congr he ha.keyLen
  refine ⟨hh.kept ha fun hd => ?_, fun hcl => (hclean hcl).1, he, hc⟩
  rw [hc]
  exact hh.distinct hd

/-- Every call keeps the table in order. -/
theorem Outcome.kept (hh : Held c w h S P) (hi : Idle w h) {a : Call} {r : Int} (ho : Outcome c env w h S a r w') :
    ∃ S' P', Kept c w h w' S' P' ∧ Effect c env w h S a r w' S' := by
  cases ho with
  | insert hr =>
    obtain ⟨S', hk, -, hc⟩ := hr.kept hh hi
    exact ⟨S', P, hk, hc⟩
  | delete hr =>
    obtain ⟨S', ha, -, hcase⟩ := hr.after hh.fresh hh.table hi
    rcases hcase with ⟨hr0, hc, -, hn⟩ | ⟨l₁, q, l₂, -, -, hc, -⟩
    · refine ⟨S', P, hh.kept ha fun hd => ?_, Or.inl ⟨by rw [hr0]; rfl, hc, fun hz =>
        hh.table.not_mem_pairs (hn (Or.inl hz))⟩⟩
      rw [hc]
      exact hh.distinct hd
    · refine ⟨S', P, hh.kept ha fun hd => ?_, Or.inr ⟨_, hc⟩⟩
      have hnd := hh.distinct hd
      rw [hc, Multiset.map_cons, Multiset.nodup_cons] at hnd
      exact hnd.2
  | locate hr =>
    obtain ⟨hk, -, -, hc⟩ := hr.kept hh hi
    exact ⟨S, P, hk, hc⟩
  | @resizeKept _ _ _ P' hr =>
    refine ⟨S, P', ⟨hr.held, hr.idle, ?_, ?_⟩, hr.same.contents hh.table⟩
    · rw [hr.same.head_eq]
    · rw [hr.same.head_eq]
  | @resizeDone _ _ _ S' P' hr => exact ⟨S', P', ⟨hr.held, hr.idle, hr.keysize, hr.options⟩, hr.pairs⟩

/-! ## Sequences of calls -/

theorem runCalls_cons {a : Call} {as : List Call} {r : Reply} (he : runCall c env h a w = some (r, w₁)) :
    runCalls c env h (a :: as) w = (runCalls c env h as w₁).map fun x => (r :: x.1, x.2) := by
  rw [runCalls, he]

/-- A sequence of calls ends, with a table in order. -/
theorem runCalls_kept (hok : LockOk env) (hnull : NullFill env) (as : List Call) : ∀ {w : World} {S : Shape}
    {P : List (Addr × List Addr)}, Held c w h S P → Idle w h →
    ∃ rs w' S' P', runCalls c env h as w = some (rs, w') ∧ Kept c w h w' S' P' := by
  induction as with
  | nil => exact fun {w S P} hh hi => ⟨[], w, S, P, rfl, hh, hi, rfl, rfl⟩
  | cons a as ih =>
    intro w S P hh hi
    obtain ⟨r, w₁, he, -, ho⟩ := runCall_spec hok hnull hh hi a
    obtain ⟨S₁, P₁, hk, -⟩ := ho.kept hh hi
    obtain ⟨rs, w', S', P', hrun, hk'⟩ := ih hk.held hk.idle
    refine ⟨r :: rs, w', S', P', ?_, hk'.held, hk'.idle, hk'.keysize.trans hk.keysize, hk'.options.trans hk.options⟩
    rw [runCalls_cons he, hrun]
    rfl

/-- A state that calls on a table made by `ht_create` reach. -/
def Reached (c : Conf) (env : Env) (n ks : Nat) (opts : Options) (h : Addr) (w : World) : Prop :=
  ∃ w₀ as rs, Created env n ks opts h w₀ ∧ runCalls c env h as w₀ = some (rs, w)

theorem Reached.kept {n ks : Nat} {opts : Options} (hok : LockOk env) (hnull : NullFill env)
    (hr : Reached c env n ks opts h w) :
    ∃ S P, Held c w h S P ∧ Idle w h ∧ (w.head h).options = opts ∧ (w.head h).keysize = intOfSize ks := by
  obtain ⟨w₀, as, rs, hc, hrun⟩ := hr
  obtain ⟨S₀, hh, hi, -, -, -, hopts, hks⟩ := hc.held (c := c) hok hnull
  obtain ⟨rs', w', S', P', hrun', hk⟩ := runCalls_kept hok hnull as hh hi
  rw [hrun] at hrun'
  cases hrun'
  exact ⟨S', P', hk.held, hk.idle, hk.options.trans hopts, hk.keysize.trans hks⟩

/-! ## The representation -/

/-- The table of `h` is well formed: `t` is its table slab, `ss` its slab list, `chain i` the chain of bucket `i` and `free`
the free chain. -/
structure WellFormed (c : Conf) (w : World) (h t : Addr) (ss : List Addr) (chain : Nat → List EntryPtr)
    (free : List EntryPtr) : Prop where
  table : (w.head h).table = some t
  slabs : Chain (fun a => (w.slab a).next) (w.head h).slabs ss
  slabsNodup : ss.Nodup
  tableMem : t ∈ ss
  live : ∀ s ∈ ss, w.hasSlab s = true ∧ (w.slab s).entrycount = (w.slab s).size
  chainLinks : ∀ i, i < (w.slab t).entrycount → Chain (nextOf w.ents) (w.ents (t, i)).next (chain i)
  freeLinks : Chain (nextOf w.ents) (w.head h).freechain free
  vacant : ∀ i, i < (w.slab t).entrycount → (w.ents (t, i)).flags.occupied = false → (w.ents (t, i)).next = none
  occupied : ∀ i, i < (w.slab t).entrycount → ∀ p ∈ chain i, (w.ents p).flags.occupied = true
  hash : ∀ i, i < (w.slab t).entrycount → ∀ p ∈ (t, i) :: chain i, (w.ents p).flags.occupied = true →
    c.htHashBytes (w.ents p).key (w.keyLen c h) (w.slab t).entrycount = i
  freeVacant : ∀ p ∈ free, (w.ents p).flags.occupied = false
  disjoint : ((List.range (w.slab t).entrycount).map (fun i => (t, i)) ++
    ((List.range (w.slab t).entrycount).flatMap chain ++ free)).Nodup
  all : ∀ p : EntryPtr, p.1 ∈ ss ∧ p.2 < (w.slab p.1).entrycount ↔
    p ∈ (List.range (w.slab t).entrycount).map (fun i => (t, i)) ++
      ((List.range (w.slab t).entrycount).flatMap chain ++ free)

theorem Table.wellFormed (ht : Table c w h S) : WellFormed c w h S.table S.slabs S.chain S.free := by
  have hcount : (w.slab S.table).entrycount = S.count := ht.entrycount ht.ok.tableMem
  refine ⟨ht.table, ht.slabs, ht.slabsNodup, ht.ok.tableMem, fun s hs => ?_, ?_, ht.entries.linked.free, ?_, ?_, ?_,
    ht.entries.flagged.freeVacant, ?_, fun p => ?_⟩
  · obtain ⟨h1, h2, h3⟩ := ht.live s hs
    exact ⟨h1, h2.trans h3.symm⟩
  · rw [hcount]
    exact ht.entries.linked.chain
  · rw [hcount]
    intro i hi hv
    have hl := ht.entries.linked.chain i hi
    rwa [ht.entries.flagged.empty i hi hv] at hl
  · rw [hcount]
    exact ht.entries.flagged.chainOccupied
  · rw [hcount]
    exact ht.entries.flagged.hash
  · rw [hcount]
    exact ht.ok.all_nodup
  · rw [hcount]
    refine Iff.trans ?_ ht.ok.mem_all.symm
    constructor
    · rintro ⟨h1, h2⟩
      exact ⟨h1, ht.entrycount h1 ▸ h2⟩
    · rintro ⟨h1, h2⟩
      exact ⟨h1, (ht.entrycount h1).symm ▸ h2⟩

/-- Whatever is called on a table, it stays well formed. -/
theorem runCalls_wellFormed {n ks : Nat} {opts : Options} {w₀ : World} (hz : AllZero env) (hnull : NullFill env)
    (hc : Created env n ks opts h w₀) (as : List Call) :
    ∃ rs w, runCalls c env h as w₀ = some (rs, w) ∧ ∃ t ss chain free, WellFormed c w h t ss chain free := by
  obtain ⟨S₀, hh, hi, -⟩ := hc.held (c := c) hz.ok hnull
  obtain ⟨rs, w, S, P, hrun, hk⟩ := runCalls_kept hz.ok hnull as hh hi
  exact ⟨rs, w, hrun, S.table, S.slabs, S.chain, S.free, hk.held.table.wellFormed⟩

/-- Keys of one byte: the key at address `n` is `n`. -/
def Conf.sample : Conf := ⟨64, by decide, fun n => UInt8.ofNat n⟩

theorem runCalls_wellFormed_sample : ∃ w₀, Created (Env.allZero fun _ => true) 3 4 ⟨false, true⟩ 0 w₀ ∧
    ∀ as, ∃ rs w, runCalls .sample (Env.allZero fun _ => true) 0 as w₀ = some (rs, w) ∧
      ∃ t ss chain free, WellFormed .sample w 0 t ss chain free := by
  obtain ⟨w₀, hc⟩ := @created_of_got (Env.allZero fun _ => true) (Env.allZero_allZero _).ok 3 (by decide) 4
    ⟨false, true⟩ (by simp [Env.allZero]) (by simp [Env.allZero])
  exact ⟨w₀, hc, runCalls_wellFormed (Env.allZero_allZero _) (Env.allZero_nullFill _) hc⟩

end ZfsTest.Hashtable
