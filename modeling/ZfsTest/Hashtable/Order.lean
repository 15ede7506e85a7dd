import ZfsTest.Prog.Keyed
import ZfsTest.Hashtable.Refine

/-!
# The order of duplicates

The data of a key stand in the order of the walk over its bucket (`World.queue`). `ht_locate_key` returns the front of this queue,
`ht_delete_key` takes it off (`callQueue_spec`), but what it returns is the data behind it when the head of the bucket takes over
other data. `ht_resize` keeps the data of every key and not their order: it inserts the entries of a chain one after the other behind
the new head, which turns the chain round (`not_resize_invisible`). Apart from that order a resize does not show (`resize_invisible`).
-/

namespace ZfsTest.Hashtable

open Prog

variable {c : Conf} {env : Env} {w w' w₁ w₂ : World} {h : Addr} {S S' : Shape} {P P' : List (Addr × List Addr)}

/-- The data of the key `k`, in the order of a search. -/
def World.queue (c : Conf) (w : World) (h : Addr) (k : List UInt8) : List Nat :=
  dataFor k (w.pairsOf c h (c.hashOf k % w.tableSize h))

/-- The calls that look for a key. -/
def Call.key? : Call → Option Nat
  | .locate key => some key
  | .delete key => some key
  | _ => none

namespace Table

variable (ht : Table c w h S)
include ht

theorem pairsOf {i : Nat} (hi : i < S.count) : w.pairsOf c h i = bucketPairs (c.keyBytes (w.keyLen c h)) w.ents S i := by
  rw [World.pairsOf, ht.bucketOf hi]
  rfl

theorem queue_eq (k : List UInt8) :
    w.queue c h k = dataFor k (bucketPairs (c.keyBytes (w.keyLen c h)) w.ents S (c.hashOf k % S.count)) := by
  rw [World.queue, ht.tableSize, ht.pairsOf (Nat.mod_lt _ ht.ok.pos)]

/-- The pairs of a bucket have keys of this bucket. -/
theorem hash_of_mem {i : Nat} (hi : i < S.count) {x : List UInt8 × Nat}
    (hx : x ∈ bucketPairs (c.keyBytes (w.keyLen c h)) w.ents S i) : c.hashOf x.1 % S.count = i := by
  obtain ⟨q, hq, rfl⟩ := List.mem_map.mp hx
  obtain ⟨-, hocc, hmem⟩ := ht.mem_bucket hi hq
  exact ht.entries.flagged.hash i hi q hmem hocc

/-- The queue of a key holds its data. -/
theorem coe_queue (k : List UInt8) :
    (w.queue c h k : Multiset Nat) = ((w.pairs c h).filter fun x => x.1 = k).map Prod.snd := by
  have hi : c.hashOf k % S.count ∈ Finset.range S.count := Finset.mem_range.mpr (Nat.mod_lt _ ht.ok.pos)
  have hrest : (∑ j ∈ (Finset.range S.count).erase (c.hashOf k % S.count),
      (bucketPairs (c.keyBytes (w.keyLen c h)) w.ents S j : Multiset (List UInt8 × Nat))).filter (fun x => x.1 = k) = 0 := by
    rw [Multiset.filter_eq_nil]
    rintro x hx rfl
    obtain ⟨j, hj, hxj⟩ := Multiset.mem_sum.mp hx
    obtain ⟨hne, hj⟩ := Finset.mem_erase.mp hj
    exact hne (ht.hash_of_mem (Finset.mem_range.mp hj) hxj).symm
  rw [ht.pairs_eq, contents, Hashtable.pairs, ← Finset.add_sum_erase _ _ hi, Multiset.filter_add, hrest, add_zero, ← coe_dataFor,
    ht.queue_eq]

end Table

/-- Tables with the same pairs have the same data for every key, in some order. -/
theorem queue_perm (ht : Table c w h S) (ht' : Table c w' h S') (hp : w'.pairs c h = w.pairs c h) (k : List UInt8) :
    (w'.queue c h k).Perm (w.queue c h k) := by
  rw [← Multiset.coe_eq_coe, ht'.coe_queue, ht.coe_queue, hp]

/-! ## One call -/

/-- What is left of the queues after a call. -/
def Call.queues (c : Conf) (len : Nat) (q : List UInt8 → List Nat) : Call → List UInt8 → List Nat
  | .delete key => Function.update q (c.keyBytes len key) (q (c.keyBytes len key)).tail
  | _ => q

/-- The entries of a bucket, the first with the key removed. -/
structure Removed (c : Conf) (w : World) (h : Addr) (S : Shape) (key : Nat) (w' : World) (S' : Shape) (l₁ : List (List UInt8 × Nat))
    (d : Nat) (l₂ : List (List UInt8 × Nat)) : Prop where
  count : S'.count = S.count
  keyLen : w'.keyLen c h = w.keyLen c h
  here : bucketPairs (c.keyBytes (w.keyLen c h)) w.ents S (w.index c h S key) =
    l₁ ++ (c.keyBytes (w.keyLen c h) key, d) :: l₂
  before : ∀ x ∈ l₁, x.1 ≠ c.keyBytes (w.keyLen c h) key
  left : bucketPairs (c.keyBytes (w.keyLen c h)) w'.ents S' (w.index c h S key) = l₁ ++ l₂
  other : ∀ j, j < S.count → j ≠ w.index c h S key →
    bucketPairs (c.keyBytes (w.keyLen c h)) w'.ents S' j = bucketPairs (c.keyBytes (w.keyLen c h)) w.ents S j

/-- Removing an entry takes the front off the queue of its key. -/
theorem Removed.queue (ht : Table c w h S) (ht' : Table c w' h S') {key d : Nat} {l₁ l₂ : List (List UInt8 × Nat)}
    (hr : Removed c w h S key w' S' l₁ d l₂) :
    w.queue c h (c.keyBytes (w.keyLen c h) key) = d :: (w.queue c h (c.keyBytes (w.keyLen c h) key)).tail ∧
      w'.queue c h = (Call.delete key).queues c (w.keyLen c h) (w.queue c h) := by
  have hix : c.hashOf (c.keyBytes (w.keyLen c h) key) % S.count = w.index c h S key := rfl
  have hfirst : dataFor (c.keyBytes (w.keyLen c h) key) (l₁ ++ (c.keyBytes (w.keyLen c h) key, d) :: l₂) =
      d :: dataFor (c.keyBytes (w.keyLen c h) key) (l₁ ++ l₂) :=
    @dataFor_first _ _ _ (c.keyBytes (w.keyLen c h) key, d) l₁ l₂ hr.before
  have hqueue : w.queue c h (c.keyBytes (w.keyLen c h) key) = d :: dataFor (c.keyBytes (w.keyLen c h) key) (l₁ ++ l₂) := by
    rw [ht.queue_eq, hix, hr.here]
    exact hfirst
  refine ⟨by rw [hqueue, List.tail_cons], funext fun k => ?_⟩
  rw [ht'.queue_eq, hr.count, hr.keyLen, Call.queues]
  by_cases hk : k = c.keyBytes (w.keyLen c h) key
  · rw [hk, Function.update_self, hqueue, List.tail_cons, hix, hr.left]
  · rw [Function.update_of_ne hk, ht.queue_eq]
    by_cases hj : c.hashOf k % S.count = w.index c h S key
    · rw [hj, hr.left, hr.here]
      exact (dataFor_other (Ne.symm hk)).symm
    · rw [hr.other _ (Nat.mod_lt _ ht.ok.pos) hj]

/-- A walk over pairs instead of entries. -/
theorem pairs_ne_of_not_matches {key : Nat} {l : List EntryPtr} (hn : ∀ q ∈ l, ¬Matches c (w.keyLen c h) key w.ents q) :
    ∀ x ∈ l.map (pairOf (c.keyBytes (w.keyLen c h)) w.ents), x.1 ≠ c.keyBytes (w.keyLen c h) key := by
  intro x hx hk
  obtain ⟨q, hq, rfl⟩ := List.mem_map.mp hx
  exact hn q hq hk

/-- `ht_delete_key` finds no entry, or removes the first one; unless the head of the bucket takes over other data, it returns the
data of the entry. -/
theorem Deleted.removed (hz : AllZero env) (hw : w.Fresh) (ht : Table c w h S) (hidle : Idle w h) {key r : Nat}
    (hr : Deleted c env w h S key r w') :
    (r = 0 ∧ (∀ q ∈ S.bucket w.ents (w.index c h S key), ¬Matches c (w.keyLen c h) key w.ents q) ∧ w'.ents = w.ents ∧
        After c w h S w' S) ∨
      ∃ S' l₁ d l₂, After c w h S w' S' ∧ Removed c w h S key w' S' l₁ d l₂ ∧ (¬HeadTakesOver c w h key → r = d) := by
  have hi := ht.index_lt key
  have hhas := ht.ok.head_has hi
  cases hr with
  | stuck b hnz hc => exact absurd hz hnz
  | missing b he hb hn =>
    exact Or.inl ⟨rfl, hn, rfl, (After.setEntryLock hw ht hidle hhas (Or.inl rfl)).withBook b⟩
  | sole b hq hp hocc hm hc =>
    subst hp
    have h1 := After.vacated hw ht hidle hi hocc hc
    have h2 := After.setEntryLock h1.1.fresh h1.1.table h1.1.idle hhas (Or.inr ⟨rfl, rfl, by simp [World.vacated]⟩)
    have ha := (h1.1.trans h2).withBook b
    refine Or.inr ⟨S, [], (w.ents (S.head (w.index c h S key))).data, [], ha, ⟨rfl, ha.keyLen, ?_, ?_, ?_, fun j hj hne => ?_⟩,
      fun _ => rfl⟩
    · rw [bucketPairs_occupied hocc, hc, pairOf_matches hm]
      rfl
    · intro x hx
      cases hx
    · apply bucketPairs_vacant
      simp [World.vacated]
    · exact bucketPairs_setHead ht.entries hi hj hne
  | @head b hq p hp hocc hm d l hc =>
    subst hp
    have hd : d ∈ S.chain (w.index c h S key) := by rw [hc]; exact List.mem_cons_self
    have hdocc := ht.entries.flagged.chainOccupied _ hi d hd
    have h1 := After.copied hw ht hidle hi hocc hd
    have hkl : (w.copied h (S.head (w.index c h S key)) d).keyLen c h = w.keyLen c h := h1.1.keyLen
    have h2 := @After.unlinked _ _ _ _ h1.1.fresh h1.1.table h1.1.idle _ hi (S.head (w.index c h S key)) _ [] [] l hc rfl
    have ha := (h1.1.trans h2.1).withBook b
    have hE := h1.1.table.entries
    rw [hkl] at hE
    refine Or.inr ⟨_, [], (w.ents (S.head (w.index c h S key))).data,
      (d :: l).map (pairOf (c.keyBytes (w.keyLen c h)) w.ents), ha, ⟨rfl, ha.keyLen, ?_, ?_, ?_, fun j hj hne => ?_⟩, fun hno => ?_⟩
    · rw [bucketPairs_occupied hocc, hc, pairOf_matches hm]
      rfl
    · intro x hx
      cases hx
    · -- the payload of `d` is in the head now, and `d` is off the chain
      have hrep := bucketPairs_replace (k := (w.ents d).key) (d := (w.ents d).data) (f := (w.ents d).flags) ht.entries hi hdocc
      apply (bucketPairs_unlink hE hi hc).trans
      rw [bucketPairs_occupied (by simp [hdocc]), hc, List.map_cons] at hrep
      obtain ⟨hhead, htail⟩ := List.cons.inj hrep
      rw [List.nil_append, List.map_cons, List.nil_append, List.map_cons]
      exact congrArg₂ List.cons hhead (List.cons.inj htail).2
    · apply (bucketPairs_unlink_ne hE hi hc hj hne).trans
      exact bucketPairs_setHead ht.entries hi hj hne
    · by_contra hne
      refine hno ⟨S.head (w.index c h S key), d, l, ?_, hm, hne⟩
      rw [ht.bucketIndex, ht.bucketOf hi, Shape.bucket, if_pos hocc, hc]
  | @deep b hq l₀ l₁ l₂ a d hocc hm hn hc ha =>
    have h1 := After.unlinked hw ht hidle hi hc ha
    have hA := h1.1.withBook b
    refine Or.inr ⟨_, (S.head (w.index c h S key) :: l₁).map (pairOf (c.keyBytes (w.keyLen c h)) w.ents), (w.ents d).data,
      l₂.map (pairOf (c.keyBytes (w.keyLen c h)) w.ents), hA, ⟨rfl, hA.keyLen, ?_, pairs_ne_of_not_matches hn, ?_, fun j hj hne => ?_⟩,
      fun _ => rfl⟩
    · rw [bucketPairs_occupied hocc, hc, ← pairOf_matches hm, List.map_append]
      rfl
    · apply (bucketPairs_unlink ht.entries hi hc).trans
      rw [← List.cons_append, List.map_append]
    · exact bucketPairs_unlink_ne ht.entries hi hc hj hne

/-- A call that looks for a key answers from its queue. -/
theorem Outcome.queue (hz : AllZero env) (hh : Held c w h S P) (hi : Idle w h) {a : Call} {key : Nat} (ha : a.key? = some key) {r : Int}
    (ho : Outcome c env w h S a r w') : w'.queue c h = a.queues c (w.keyLen c h) (w.queue c h) ∧
      (w.queue c h (c.keyBytes (w.keyLen c h) key) = [] → r = 0) ∧
      ((∀ k, a = .delete k → ¬HeadTakesOver c w h k) → r = (w.queue c h (c.keyBytes (w.keyLen c h) key)).headD 0) := by
  have ht := hh.table
  have hempty : (∀ q ∈ S.bucket w.ents (w.index c h S key), ¬Matches c (w.keyLen c h) key w.ents q) →
      w.queue c h (c.keyBytes (w.keyLen c h) key) = [] := by
    intro hn
    rw [ht.queue_eq]
    exact dataFor_eq_nil.mpr (pairs_ne_of_not_matches hn)
  cases ho with
  | insert hr => cases ha
  | resizeKept hr => cases ha
  | resizeDone hr => cases ha
  | @locate _ r _ hr =>
    cases ha
    obtain ⟨hA, hents, -⟩ := hr.after hh.fresh ht hi
    have hsame : w'.queue c h = w.queue c h := by
      funext k
      rw [hA.table.queue_eq, ht.queue_eq, hents, hA.keyLen]
    have hfront : r = (w.queue c h (c.keyBytes (w.keyLen c h) key)).headD 0 := by
      cases hr with
      | stuck b hnz hc => exact absurd hz hnz
      | missing b he hb hn => rw [hempty hn, List.headD_nil]
      | found b l₁ d l₂ hq hf =>
        have hix : c.hashOf (c.keyBytes (w.keyLen c h) key) % S.count = w.index c h S key := rfl
        rw [ht.queue_eq, hix, bucketPairs, hf.split, List.map_append, List.map_cons, pairOf_matches hf.here, dataFor_append,
          dataFor_eq_nil.mpr (pairs_ne_of_not_matches hf.before), List.nil_append]
        exact congrArg (List.headD · 0) (@dataFor_cons_self _ _ _ (c.keyBytes (w.keyLen c h) key, (w.ents d).data) _).symm
    refine ⟨hsame, fun h0 => ?_, fun _ => by rw [hfront]⟩
    rw [hfront, h0]
    rfl
  | @delete _ r _ hr =>
    cases ha
    rcases hr.removed hz hh.fresh ht hi with ⟨h0, hn, hents, hA⟩ | ⟨S', l₁, d, l₂, hA, hrem, hret⟩
    · have hnil := hempty hn
      refine ⟨funext fun k => ?_, fun _ => by rw [h0]; rfl, fun _ => by rw [h0, hnil]; rfl⟩
      rw [hA.table.queue_eq, hents, hA.keyLen, ← ht.queue_eq, Call.queues, hnil, List.tail_nil, ← hnil, Function.update_eq_self]
    · obtain ⟨hfront, hleft⟩ := hrem.queue ht hA.table
      refine ⟨hleft, fun h0 => ?_, fun hno => ?_⟩
      · rw [h0] at hfront
        cases hfront
      · rw [hfront, List.headD_cons, hret (hno key rfl)]

/-! ## Sequences of calls -/

/-- A table in order after calls that look for keys. -/
theorem runCalls_queue (hz : AllZero env) (hnull : NullFill env) {as : List Call} (has : ∀ a ∈ as, a.key? ≠ none) : ∀ {w : World}
    {S : Shape} {P : List (Addr × List Addr)}, Held c w h S P → Idle w h → ∃ rs w' S' P', runCalls c env h as w = some (rs, w') ∧
      Kept c w h w' S' P' ∧ w'.queue c h = as.foldl (Call.queues c (w.keyLen c h)) (w.queue c h) := by
  induction as with
  | nil => exact fun {w S P} hh hi => ⟨[], w, S, P, rfl, ⟨hh, hi, rfl, rfl⟩, rfl⟩
  | cons a as ih =>
    intro w S P hh hi
    obtain ⟨key, hkey⟩ := Option.ne_none_iff_exists'.mp (has a List.mem_cons_self)
    obtain ⟨r, w₁, he, -, ho⟩ := runCall_spec hz.ok hnull hh hi a
    obtain ⟨S₁, P₁, hk, -⟩ := ho.kept hh hi
    obtain ⟨hq, -⟩ := ho.queue hz hh hi hkey
    obtain ⟨rs, w', S', P', hrun, hk', hq'⟩ := ih (fun b hb => has b (List.mem_cons_of_mem a hb)) hk.held hk.idle
    refine ⟨r :: rs, w', S', P', ?_, ⟨hk'.held, hk'.idle, hk'.keysize.trans hk.keysize, hk'.options.trans hk.options⟩, ?_⟩
    · rw [runCalls_cons he, hrun]
      rfl
    · rw [hq', hq, hk.keyLen, List.foldl_cons]

/-- What calls leave of the queue of a key depends on this queue alone: a relation that the tails keep is kept. -/
theorem foldl_queues_rel {R : List Nat → List Nat → Prop} (hR : ∀ l l', R l l' → R l.tail l'.tail) {len : Nat} {k : List UInt8}
    (as : List Call) : ∀ {q q' : List UInt8 → List Nat}, R (q k) (q' k) →
    R (as.foldl (Call.queues c len) q k) (as.foldl (Call.queues c len) q' k) := by
  induction as with
  | nil => exact fun hq => hq
  | cons a as ih =>
    intro q q' hq
    rw [List.foldl_cons, List.foldl_cons]
    apply ih
    cases a with
    | delete key =>
      rw [Call.queues, Call.queues]
      by_cases hk : k = c.keyBytes len key
      · rw [hk, Function.update_self, Function.update_self, ← hk]
        exact hR _ _ hq
      · rw [Function.update_of_ne hk, Function.update_of_ne hk]
        exact hq
    | _ => exact hq

/-! ## Resizing -/

/-- From two tables a search goes on with the same answers: each call finds its key in both or in none, and where the data of the key
stand in the same order it answers the same, unless it deletes a head that takes over other data. -/
def SameAnswers (c : Conf) (env : Env) (h : Addr) (w w₂ : World) : Prop :=
  ∀ as, (∀ a ∈ as, Call.key? a ≠ none) → ∀ a key, Call.key? a = some key → ∃ rs v rs₂ v₂ r v' r₂ v₂',
    runCalls c env h as w = some (rs, v) ∧ runCalls c env h as w₂ = some (rs₂, v₂) ∧
    runCall c env h a v = some (r, v') ∧ runCall c env h a v₂ = some (r₂, v₂') ∧
    (v.queue c h (c.keyBytes (w.keyLen c h) key)).length = (v₂.queue c h (c.keyBytes (w.keyLen c h) key)).length ∧
    (v.queue c h (c.keyBytes (w.keyLen c h) key) = [] → r.ret = 0 ∧ r₂.ret = 0) ∧
    (w₂.queue c h (c.keyBytes (w.keyLen c h) key) = w.queue c h (c.keyBytes (w.keyLen c h) key) →
      (∀ k, a = .delete k → ¬HeadTakesOver c v h k ∧ ¬HeadTakesOver c v₂ h k) → r.ret = r₂.ret)

/-- Apart from the order of duplicates a resize does not show in the calls that follow. -/
theorem resize_invisible {n ks : Nat} {opts : Options} (hz : AllZero env) (hnull : NullFill env) (hr : Reached c env n ks opts h w)
    (m : Nat) : ∃ r w₂, runCall c env h (.resize m) w = some (r, w₂) ∧ (∀ k, (w₂.queue c h k).Perm (w.queue c h k)) ∧
      SameAnswers c env h w w₂ := by
  obtain ⟨S, P, hh, hi, -⟩ := hr.kept hz.ok hnull
  obtain ⟨r, w₂, he, -, ho⟩ := runCall_spec hz.ok hnull hh hi (.resize m)
  obtain ⟨S₂, P₂, hk, hpairs⟩ := ho.kept hh hi
  have hperm : ∀ k, (w₂.queue c h k).Perm (w.queue c h k) := by
    apply queue_perm hh.table hk.held.table
    rw [hk.held.table.pairs_eq, hh.table.pairs_eq]
    exact hpairs
  refine ⟨r, w₂, he, hperm, fun as has a key ha => ?_⟩
  obtain ⟨rs, v, S', P', hrun, hk', hq⟩ := runCalls_queue hz hnull has hh hi
  obtain ⟨rs₂, v₂, S₂', P₂', hrun₂, hk₂', hq₂⟩ := runCalls_queue hz hnull has hk.held hk.idle
  obtain ⟨ra, v', hea, -, hoa⟩ := runCall_spec hz.ok hnull hk'.held hk'.idle a
  obtain ⟨ra₂, v₂', hea₂, -, hoa₂⟩ := runCall_spec hz.ok hnull hk₂'.held hk₂'.idle a
  obtain ⟨-, hmiss, hfront⟩ := hoa.queue hz hk'.held hk'.idle ha
  obtain ⟨-, hmiss₂, hfront₂⟩ := hoa₂.queue hz hk₂'.held hk₂'.idle ha
  rw [hk'.keyLen] at hmiss hfront
  rw [hk₂'.keyLen, hk.keyLen] at hmiss₂ hfront₂
  rw [hk.keyLen] at hq₂
  have hlen : (v.queue c h (c.keyBytes (w.keyLen c h) key)).length = (v₂.queue c h (c.keyBytes (w.keyLen c h) key)).length := by
    rw [hq, hq₂]
    refine foldl_queues_rel (R := fun l l' => l.length = l'.length) (fun l l' hl => ?_) as (hperm _).length_eq.symm
    rw [List.length_tail, List.length_tail, hl]
  refine ⟨rs, v, rs₂, v₂, ra, v', ra₂, v₂', hrun, hrun₂, hea, hea₂, hlen, fun h0 => ⟨hmiss h0, ?_⟩, fun hsame hno => ?_⟩
  · apply hmiss₂
    rw [h0, List.length_nil] at hlen
    exact List.eq_nil_of_length_eq_zero hlen.symm
  · have hrest : v.queue c h (c.keyBytes (w.keyLen c h) key) = v₂.queue c h (c.keyBytes (w.keyLen c h) key) := by
      rw [hq, hq₂]
      exact foldl_queues_rel (R := Eq) (fun l l' hl => congrArg List.tail hl) as hsame.symm
    rw [hfront fun k hk => (hno k hk).1, hfront₂ fun k hk => (hno k hk).2, hrest]

theorem resize_invisible_sample : ∃ w, Reached .sample (Env.allZero fun _ => true) 1 1 ⟨false, true⟩ 0 w ∧
    ∃ r w₂, runCall .sample (Env.allZero fun _ => true) 0 (.resize 3) w = some (r, w₂) ∧
      SameAnswers .sample (Env.allZero fun _ => true) 0 w w₂ := by
  have hz := Env.allZero_allZero fun _ => true
  have hnull := Env.allZero_nullFill fun _ => true
  obtain ⟨w₀, rs, w, hc, hrun⟩ := exists_run (c := .sample) (n := 1) hz.ok hnull (by decide) 1 ⟨false, true⟩
    (by simp [Env.allZero]) (by simp [Env.allZero]) [.insert 1 10, .insert 2 20, .insert 1 30]
  have hr : Reached .sample (Env.allZero fun _ => true) 1 1 ⟨false, true⟩ 0 w := ⟨w₀, _, rs, hc, hrun⟩
  obtain ⟨r, w₂, he, -, ha⟩ := resize_invisible hz hnull hr 3
  exact ⟨w, hr, r, w₂, he, ha⟩

/-- A resize turns a chain round: another one of the duplicates is found first. -/
theorem not_resize_invisible : ¬∀ (c : Conf) (env : Env) (n ks : Nat) (opts : Options) (h : Addr) (w : World) (m : Nat) (r : Reply)
    (w₂ : World), AllZero env → NullFill env → opts.dupsAllowed = true → Reached c env n ks opts h w → 0 < m →
    runCall c env h (.resize m) w = some (r, w₂) → (w₂.head h).table ≠ (w.head h).table →
    ∀ as, (∀ a ∈ as, Call.key? a ≠ none) → ∀ rs v rs₂ v₂, runCalls c env h as w = some (rs, v) →
      runCalls c env h as w₂ = some (rs₂, v₂) → rs.map Reply.ret = rs₂.map Reply.ret := by
  intro H
  have hz := Env.allZero_allZero fun _ => true
  have hnull := Env.allZero_nullFill fun _ => true
  obtain ⟨w₀, rs, w, hc, hrun⟩ := exists_run (c := .sample) (n := 1) hz.ok hnull (by decide) 1 ⟨false, true⟩
    (by simp [Env.allZero]) (by simp [Env.allZero]) [.insert 2 99, .insert 1 10, .insert 1 20]
  have hr : Reached .sample (Env.allZero fun _ => true) 1 1 ⟨false, true⟩ 0 w := ⟨w₀, _, rs, hc, hrun⟩
  obtain ⟨S, P, hh, hi, -⟩ := hr.kept hz.ok hnull
  obtain ⟨r, w₂, he, -, ho⟩ := runCall_spec hz.ok hnull hh hi (.resize 1)
  obtain ⟨S₂, P₂, hk, -⟩ := ho.kept hh hi
  obtain ⟨x, v, hx, -⟩ := runCall_spec hz.ok hnull hh hi (.locate 1)
  obtain ⟨y, v₂, hy, -⟩ := runCall_spec hz.ok hnull hk.held hk.idle (.locate 1)
  have h1 : (createRun .sample (Env.allZero fun _ => true) 1 1 ⟨false, true⟩
      [.insert 2 99, .insert 1 10, .insert 1 20]).map (fun x => (x.2.head 0).table) = some (some 1) := by decide
  have h2 : (createRun .sample (Env.allZero fun _ => true) 1 1 ⟨false, true⟩
      [.insert 2 99, .insert 1 10, .insert 1 20, .resize 1]).map (fun x => (x.2.head 0).table) = some (some 5) := by
    set_option maxRecDepth 4000 in decide
  have h3 : (createRun .sample (Env.allZero fun _ => true) 1 1 ⟨false, true⟩
      [.insert 2 99, .insert 1 10, .insert 1 20, .locate 1]).map (fun x => x.1.map Reply.ret) = some [0, 0, 0, 20] := by
    decide
  have h4 : (createRun .sample (Env.allZero fun _ => true) 1 1 ⟨false, true⟩
      [.insert 2 99, .insert 1 10, .insert 1 20, .resize 1, .locate 1]).map (fun x => x.1.map Reply.ret) =
      some [0, 0, 0, 0, 10] := by
    set_option maxRecDepth 4000 in decide
  have hresized : runCalls .sample _ 0 [.insert 2 99, .insert 1 10, .insert 1 20, .resize 1] w₀ = _ := runCalls_snoc hrun he
  rw [hc.run, hrun] at h1
  rw [hc.run, hresized] at h2
  rw [hc.run, show runCalls .sample _ 0 [.insert 2 99, .insert 1 10, .insert 1 20, .locate 1] w₀ = _ from runCalls_snoc hrun hx] at h3
  rw [hc.run, show runCalls .sample _ 0 [.insert 2 99, .insert 1 10, .insert 1 20, .resize 1, .locate 1] w₀ = _ from
    runCalls_snoc hresized hy] at h4
  simp only [Option.map_some, Option.some.injEq, List.map_append, List.map_cons, List.map_nil] at h1 h2 h3 h4
  have hnew : (w₂.head 0).table ≠ (w.head 0).table := by
    rw [h1, h2]
    decide
  have hsame := H .sample _ 1 1 ⟨false, true⟩ 0 w 1 r w₂ hz hnull rfl hr (by decide) he hnew [.locate 1] (by simp [Call.key?]) [x] v
    [y] v₂ (by rw [runCalls_cons hx]; rfl) (by rw [runCalls_cons hy]; rfl)
  have hx20 : x.ret = 20 := by simpa using congrArg List.getLast? h3
  have hy10 : y.ret = 10 := by simpa using congrArg List.getLast? h4
  rw [List.map_singleton, List.map_singleton, hx20, hy10] at hsame
  exact absurd hsame (by decide)

end ZfsTest.Hashtable
