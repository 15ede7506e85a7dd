import ZfsTest.Prog.Sim
import ZfsTest.Hashtable.Runs

/-!
# The table as a map and as a bag

What the calls are for, in terms of the pairs in the table: `MapStep` for a table without duplicates, whose contents are a
partial map from keys to data, and `BagStep` for one with duplicates, whose contents are a multiset. Every sequence of calls
is a sequence of such steps (`runCalls_refines`).
-/

namespace ZfsTest.Hashtable

open Prog

variable {c : Conf} {env : Env} {w w' w₁ : World} {h : Addr} {S S' : Shape} {P P' : List (Addr × List Addr)}

/-! ## The abstract steps -/

section

variable {κ : Type}

/-- A call on a map from keys to data; `kb` gives the key that lies at an address. -/
inductive MapStep (kb : Nat → κ) [DecidableEq κ] : Call → Reply → (κ → Option Nat) → (κ → Option Nat) → Prop
  | inserted {m : κ → Option Nat} {key data : Nat} {e : Int} (hm : m (kb key) = none) :
      MapStep kb (.insert key data) ⟨0, e⟩ m (Function.update m (kb key) (some data))
  | outOfMemory {m : κ → Option Nat} {key data : Nat} {e : Int} (hm : m (kb key) = none) :
      MapStep kb (.insert key data) ⟨-1, e⟩ m m
  | present {m : κ → Option Nat} {key data d : Nat} (hm : m (kb key) = some d) :
      MapStep kb (.insert key data) ⟨-1, EEXIST⟩ m m
  | deleted {m : κ → Option Nat} {key d : Nat} {r : Reply} (hm : m (kb key) = some d) :
      MapStep kb (.delete key) r m (Function.update m (kb key) none)
  | notDeleted {m : κ → Option Nat} {key : Nat} {e : Int} (hm : m (kb key) = none) : MapStep kb (.delete key) ⟨0, e⟩ m m
  | located {m : κ → Option Nat} {key d : Nat} (hm : m (kb key) = some d) : MapStep kb (.locate key) ⟨d, 0⟩ m m
  | notLocated {m : κ → Option Nat} {key : Nat} (hm : m (kb key) = none) : MapStep kb (.locate key) ⟨0, ENOENT⟩ m m
  | resized {m : κ → Option Nat} {n : Nat} {r : Reply} : MapStep kb (.resize n) r m m

/-- A call on a multiset of pairs. -/
inductive BagStep (kb : Nat → κ) : Call → Reply → Multiset (κ × Nat) → Multiset (κ × Nat) → Prop
  | inserted {s : Multiset (κ × Nat)} {key data : Nat} {e : Int} :
      BagStep kb (.insert key data) ⟨0, e⟩ s ((kb key, data) ::ₘ s)
  | outOfMemory {s : Multiset (κ × Nat)} {key data : Nat} {e : Int} : BagStep kb (.insert key data) ⟨-1, e⟩ s s
  | deleted {s : Multiset (κ × Nat)} {key d : Nat} {r : Reply} : BagStep kb (.delete key) r ((kb key, d) ::ₘ s) s
  | notDeleted {s : Multiset (κ × Nat)} {key : Nat} {e : Int} (hs : ∀ d, (kb key, d) ∉ s) :
      BagStep kb (.delete key) ⟨0, e⟩ s s
  | located {s : Multiset (κ × Nat)} {key d : Nat} (hs : (kb key, d) ∈ s) : BagStep kb (.locate key) ⟨d, 0⟩ s s
  | notLocated {s : Multiset (κ × Nat)} {key : Nat} (hs : ∀ d, (kb key, d) ∉ s) :
      BagStep kb (.locate key) ⟨0, ENOENT⟩ s s
  | resized {s : Multiset (κ × Nat)} {n : Nat} {r : Reply} : BagStep kb (.resize n) r s s

/-- The multiset holds one pair for each key of the map. -/
structure Graph (m : κ → Option Nat) (s : Multiset (κ × Nat)) : Prop where
  distinct : (s.map Prod.fst).Nodup
  mem : ∀ k d, (k, d) ∈ s ↔ m k = some d

theorem Graph.none {m : κ → Option Nat} {s : Multiset (κ × Nat)} (hg : Graph m s) {k : κ} :
    m k = none ↔ ∀ d, (k, d) ∉ s := by
  constructor
  · intro hm d hd
    have h := (hg.mem k d).mp hd
    rw [hm] at h
    cases h
  · intro hs
    cases hm : m k with
    | none => rfl
    | some d => exact absurd ((hg.mem k d).mpr hm) (hs d)

/-- The graph of a map with another pair. -/
theorem Graph.cons [DecidableEq κ] {m : κ → Option Nat} {s : Multiset (κ × Nat)} (hg : Graph m s) {k : κ}
    (hk : m k = .none) (d : Nat) : Graph (Function.update m k (some d)) ((k, d) ::ₘ s) := by
  constructor
  · rw [Multiset.map_cons, Multiset.nodup_cons]
    refine ⟨fun hmem => ?_, hg.distinct⟩
    obtain ⟨y, hy, he⟩ := Multiset.mem_map.mp hmem
    have hy' : (k, y.2) ∈ s := by
      rw [← show y.1 = k from he]
      exact hy
    exact hg.none.mp hk y.2 hy'
  · intro k' d'
    rw [Multiset.mem_cons, Prod.mk.injEq]
    by_cases he : k' = k
    · subst he
      rw [Function.update_self, Option.some.injEq]
      constructor
      · rintro (⟨-, rfl⟩ | hmem)
        · rfl
        · exact absurd hmem (hg.none.mp hk d')
      · rintro rfl
        exact Or.inl ⟨rfl, rfl⟩
    · rw [Function.update_of_ne he, ← hg.mem k' d']
      constructor
      · rintro (⟨rfl, -⟩ | hmem)
        · exact absurd rfl he
        · exact hmem
      · exact Or.inr

/-- The graph of a map without one of its pairs. -/
theorem Graph.uncons [DecidableEq κ] {m : κ → Option Nat} {s : Multiset (κ × Nat)} {k : κ} {d : Nat}
    (hg : Graph m ((k, d) ::ₘ s)) : m k = some d ∧ Graph (Function.update m k .none) s := by
  have hnd := hg.distinct
  rw [Multiset.map_cons, Multiset.nodup_cons] at hnd
  have hk : m k = some d := (hg.mem k d).mp (Multiset.mem_cons_self _ _)
  refine ⟨hk, hnd.2, fun k' d' => ?_⟩
  by_cases he : k' = k
  · subst he
    rw [Function.update_self]
    constructor
    · intro hmem
      exact absurd (Multiset.mem_map_of_mem Prod.fst hmem) hnd.1
    · intro h
      cases h
  · rw [Function.update_of_ne he, ← hg.mem k' d', Multiset.mem_cons, Prod.mk.injEq]
    constructor
    · exact Or.inr
    · rintro (⟨rfl, -⟩ | hmem)
      · exact absurd rfl he
      · exact hmem

end

/-! ## The outcomes as abstract steps -/

/-- The entry a search finds holds a pair of the table. -/
theorem Table.mem_first (ht : Table c w h S) {key : Nat} {l₁ l₂ : List EntryPtr} {q : EntryPtr}
    (hf : FirstMatch c (w.keyLen c h) key w.ents (S.bucket w.ents (w.index c h S key)) l₁ q l₂) :
    (c.keyBytes (w.keyLen c h) key, (w.ents q).data) ∈ contents c w h S := by
  refine ht.mem_pairs.mpr ⟨q, ?_, hf.here, rfl⟩
  rw [hf.split]
  simp

/-- An insertion that finds the key says so. -/
theorem Inserted.exists_reply (hz : AllZero env) (ht : Table c w h S) {key data : Nat} {r : Int}
    (hr : Inserted c env w h S key data r w') (hd : (w.head h).options.dupsAllowed = false) {d : Nat}
    (hm : (c.keyBytes (w.keyLen c h) key, d) ∈ contents c w h S) : r = -1 ∧ w'.book.errno = EEXIST := by
  obtain ⟨q, hq, hmq, -⟩ := ht.mem_pairs.mp hm
  cases hr with
  | stuck b hnz hc => exact absurd hz hnz
  | filled b hb hocc =>
    rw [Shape.bucket, if_neg (by simp [hocc])] at hq
    cases hq
  | present b hb hdups hm => exact ⟨rfl, hb.errno⟩
  | chained b hocc hn hb hr => exact absurd ⟨q, hq, hmq⟩ (hn hd)

/-- An insertion returns `0` or `-1`. -/
theorem Inserted.ret (hz : AllZero env) {key data : Nat} {r : Int} (hr : Inserted c env w h S key data r w') :
    r = 0 ∨ r = -1 := by
  cases hr with
  | stuck b hnz hc => exact absurd hz hnz
  | filled b hb hocc => exact Or.inl rfl
  | present b hb hdups hm => exact Or.inr rfl
  | chained b hocc hn hb hr =>
    cases hr with
    | linked o fs hf b' hb' => exact Or.inl rfl
    | grown hf hm b' hb' => exact Or.inl rfl
    | failed hf hm b' hb' => exact Or.inr rfl

/-- A search answers with a pair of the table, or says that there is none. -/
theorem LocatedKey.reply (hz : AllZero env) (ht : Table c w h S) {key r : Nat} (hr : LocatedKey c env w h S key r w') :
    (c.keyBytes (w.keyLen c h) key, r) ∈ contents c w h S ∧ w'.book.errno = 0 ∨
      (∀ d, (c.keyBytes (w.keyLen c h) key, d) ∉ contents c w h S) ∧ r = 0 ∧ w'.book.errno = ENOENT := by
  cases hr with
  | stuck b hnz hc => exact absurd hz hnz
  | missing b he hb hn => exact Or.inr ⟨ht.not_mem_pairs hn, rfl, he⟩
  | found b l₁ d l₂ hq hf => exact Or.inl ⟨ht.mem_first hf, hq.errno⟩

/-- Every call is a step of the bag. -/
theorem Outcome.bagStep (hz : AllZero env) (ht : Table c w h S) {a : Call} {r : Int} (ho : Outcome c env w h S a r w')
    (he : Effect c env w h S a r w' S') :
    BagStep (c.keyBytes (w.keyLen c h)) a ⟨r, w'.book.errno⟩ (contents c w h S) (contents c w' h S') := by
  cases ho with
  | insert hr =>
    have hc : contents c w' h S' = _ := he
    rcases hr.ret hz with rfl | rfl
    · rw [hc, if_pos rfl]
      exact .inserted
    · rw [hc, if_neg (by decide)]
      exact .outOfMemory
  | delete hr =>
    rcases he with ⟨hr0, hc, hn⟩ | ⟨d, hc⟩
    · rw [hc, hr0]
      exact .notDeleted (hn hz)
    · rw [hc]
      exact .deleted
  | locate hr =>
    have hc : contents c w' h S' = _ := he
    rw [hc]
    rcases hr.reply hz ht with ⟨hm, h0⟩ | ⟨hn, rfl, h0⟩
    · rw [h0]
      exact .located hm
    · rw [h0]
      exact .notLocated hn
  | resizeKept hr =>
    have hc : contents c w' h S' = _ := he
    rw [hc]
    exact .resized
  | resizeDone hr =>
    have hc : contents c w' h S' = _ := he
    rw [hc]
    exact .resized

/-- Every call on a table without duplicates is a step of the map. -/
theorem Outcome.mapStep (hz : AllZero env) (ht : Table c w h S) (hd : (w.head h).options.dupsAllowed = false) {a : Call}
    {r : Int} (ho : Outcome c env w h S a r w') (he : Effect c env w h S a r w' S') {m : List UInt8 → Option Nat}
    (hg : Graph m (contents c w h S)) :
    ∃ m', MapStep (c.keyBytes (w.keyLen c h)) a ⟨r, w'.book.errno⟩ m m' ∧ Graph m' (contents c w' h S') := by
  cases ho with
  | @insert key data _ _ hr =>
    have hc : contents c w' h S' = _ := he
    cases hm : m (c.keyBytes (w.keyLen c h) key) with
    | some d =>
      obtain ⟨rfl, h17⟩ := hr.exists_reply hz ht hd ((hg.mem _ d).mpr hm)
      rw [hc, if_neg (by decide), h17]
      exact ⟨m, .present hm, hg⟩
    | none =>
      rcases hr.ret hz with rfl | rfl
      · rw [hc, if_pos rfl]
        exact ⟨_, .inserted hm, hg.cons hm data⟩
      · rw [hc, if_neg (by decide)]
        exact ⟨m, .outOfMemory hm, hg⟩
  | delete hr =>
    rcases he with ⟨hr0, hc, hn⟩ | ⟨d, hc⟩
    · rw [hc, hr0]
      exact ⟨m, .notDeleted (hg.none.mpr (hn hz)), hg⟩
    · rw [hc] at hg
      exact ⟨_, .deleted hg.uncons.1, hg.uncons.2⟩
  | locate hr =>
    have hc : contents c w' h S' = _ := he
    rw [hc]
    rcases hr.reply hz ht with ⟨hm, h0⟩ | ⟨hn, rfl, h0⟩
    · rw [h0]
      exact ⟨m, .located ((hg.mem _ _).mp hm), hg⟩
    · rw [h0]
      exact ⟨m, .notLocated (hg.none.mpr hn), hg⟩
  | resizeKept hr =>
    have hc : contents c w' h S' = _ := he
    rw [hc]
    exact ⟨m, .resized, hg⟩
  | resizeDone hr =>
    have hc : contents c w' h S' = _ := he
    rw [hc]
    exact ⟨m, .resized, hg⟩

/-! ## Sequences of calls -/

theorem runCalls_eq (as : List Call) : ∀ w, runCalls c env h as w = runAll (runCall c env h) as w := by
  induction as with
  | nil => exact fun _ => rfl
  | cons a as ih =>
    intro w
    rw [runCalls, runAll]
    cases runCall c env h a w with
    | none => rfl
    | some x => simp only [ih]

/-- The table is in order, and as `ht_create` was asked for it. -/
def Serving (c : Conf) (h : Addr) (ks : Nat) (opts : Options) (w : World) (S : Shape) : Prop :=
  (∃ P, Held c w h S P) ∧ Idle w h ∧ (w.head h).options = opts ∧ (w.head h).keysize = intOfSize ks

theorem Serving.keyLen {ks : Nat} {opts : Options} (hs : Serving c h ks opts w S) :
    w.keyLen c h = c.sizeOfInt (intOfSize ks) := by
  unfold World.keyLen
  rw [hs.2.2.2]

/-- A call on a table in order. -/
theorem Serving.runCall {ks : Nat} {opts : Options} (hok : LockOk env) (hnull : NullFill env)
    (hs : Serving c h ks opts w S) (a : Call) : ∃ r w' S', Hashtable.runCall c env h a w = some (r, w') ∧
      r.errno = w'.book.errno ∧ Outcome c env w h S a r.ret w' ∧ Serving c h ks opts w' S' ∧
      Effect c env w h S a r.ret w' S' := by
  obtain ⟨⟨P, hh⟩, hi, hopts, hks⟩ := hs
  obtain ⟨r, w', he, hre, ho⟩ := runCall_spec hok hnull hh hi a
  obtain ⟨S', P', hk, heff⟩ := ho.kept hh hi
  exact ⟨r, w', S', he, hre, ho, ⟨⟨P', hk.held⟩, hk.idle, hk.options.trans hopts, hk.keysize.trans hks⟩, heff⟩

theorem simulates_bag {ks : Nat} {opts : Options} (hz : AllZero env) (hnull : NullFill env) :
    Simulates (runCall c env h) (BagStep (c.keyBytes (c.sizeOfInt (intOfSize ks))))
      fun w s => ∃ S, Serving c h ks opts w S ∧ contents c w h S = s := by
  rintro a w s ⟨S, hs, rfl⟩
  obtain ⟨r, w', S', he, hre, ho, hs', heff⟩ := hs.runCall hz.ok hnull a
  obtain ⟨P, hh⟩ := hs.1
  have hstep := ho.bagStep hz hh.table heff
  rw [hs.keyLen, ← hre] at hstep
  exact ⟨r, w', _, he, hstep, S', hs', rfl⟩

theorem simulates_map {ks : Nat} {opts : Options} (hz : AllZero env) (hnull : NullFill env)
    (hd : opts.dupsAllowed = false) :
    Simulates (runCall c env h) (MapStep (c.keyBytes (c.sizeOfInt (intOfSize ks))))
      fun w m => ∃ S, Serving c h ks opts w S ∧ Graph m (contents c w h S) := by
  rintro a w m ⟨S, hs, hg⟩
  obtain ⟨r, w', S', he, hre, ho, hs', heff⟩ := hs.runCall hz.ok hnull a
  obtain ⟨P, hh⟩ := hs.1
  obtain ⟨m', hstep, hg'⟩ := ho.mapStep hz hh.table (by rw [hs.2.2.1]; exact hd) heff hg
  rw [hs.keyLen, ← hre] at hstep
  exact ⟨r, w', m', he, hstep, S', hs', hg'⟩

/-- A key size below `2 ^ 31` is the number of bytes compared. -/
theorem sizeOfInt_intOfSize (c : Conf) {n : Nat} (hn : n < 2 ^ 31) : c.sizeOfInt (intOfSize n) = n := by
  have hbits : (2 : Int) ^ 32 ≤ 2 ^ c.bits := by
    have := Nat.pow_le_pow_right (by decide : 0 < 2) c.wide
    exact_mod_cast this
  have h1 : intOfSize n = n := by
    unfold intOfSize
    exact Int.bmod_eq_of_le (by omega) (by omega)
  rw [h1, Conf.sizeOfInt, Int.emod_eq_of_lt (by omega) (by omega), Int.toNat_natCast]

/-- The table refines a map, or with duplicates a bag: `len` is the number of bytes of a key that count. -/
theorem runCalls_refines {n ks : Nat} {opts : Options} {w₀ : World} (hz : AllZero env) (hnull : NullFill env)
    (hc : Created env n ks opts h w₀) : ∃ len, (ks < 2 ^ 31 → len = ks) ∧ ∀ as, ∃ rs w,
      runCalls c env h as w₀ = some (rs, w) ∧
      (opts.dupsAllowed = false → ∃ m, Steps (MapStep (c.keyBytes len)) (fun _ => none) as rs m ∧
        ((w.pairs c h).map Prod.fst).Nodup ∧ ∀ k d, (k, d) ∈ w.pairs c h ↔ m k = some d) ∧
      (opts.dupsAllowed = true → Steps (BagStep (c.keyBytes len)) 0 as rs (w.pairs c h)) := by
  obtain ⟨S₀, hh, hi, -, h0, -, hopts, hks⟩ := hc.held (c := c) hz.ok hnull
  have hs₀ : Serving c h ks opts w₀ S₀ := ⟨⟨[], hh⟩, hi, hopts, hks⟩
  refine ⟨c.sizeOfInt (intOfSize ks), sizeOfInt_intOfSize c, fun as => ?_⟩
  obtain ⟨rs, w, _, hrun, hsteps, S, hs, rfl⟩ := (simulates_bag (c := c) (h := h) hz hnull).runAll as ⟨S₀, hs₀, h0⟩
  obtain ⟨P, hheld⟩ := hs.1
  rw [← hheld.table.pairs_eq] at hsteps
  refine ⟨rs, w, (runCalls_eq as w₀).trans hrun, fun hd => ?_, fun _ => hsteps⟩
  have hg₀ : Graph (fun _ => none) (contents c w₀ h S₀) := by
    rw [h0]
    exact ⟨Multiset.nodup_zero, fun k d => by simp⟩
  obtain ⟨rs', w', m, hrun', hsteps', S', hs', hg⟩ := (simulates_map (c := c) (h := h) hz hnull hd).runAll as ⟨S₀, hs₀, hg₀⟩
  rw [hrun] at hrun'
  cases hrun'
  obtain ⟨P', hheld'⟩ := hs'.1
  rw [← hheld'.table.pairs_eq] at hg
  exact ⟨m, hsteps', hg.distinct, hg.mem⟩

theorem runCalls_refines_sample : ∃ w₀, Created (Env.allZero fun _ => true) 3 4 ⟨false, false⟩ 0 w₀ ∧
    ∃ len, len = 4 ∧ ∀ as, ∃ rs w, runCalls .sample (Env.allZero fun _ => true) 0 as w₀ = some (rs, w) ∧
      ∃ m, Steps (MapStep (Conf.sample.keyBytes len)) (fun _ => none) as rs m ∧
        ∀ k d, (k, d) ∈ w.pairs .sample 0 ↔ m k = some d := by
  obtain ⟨w₀, hc⟩ := @created_of_got (Env.allZero fun _ => true) (Env.allZero_allZero _).ok 3 (by decide) 4
    ⟨false, false⟩ (by simp [Env.allZero]) (by simp [Env.allZero])
  obtain ⟨len, hlen, hall⟩ := runCalls_refines (c := .sample) (Env.allZero_allZero _) (Env.allZero_nullFill _) hc
  refine ⟨w₀, hc, len, hlen (by decide), fun as => ?_⟩
  obtain ⟨rs, w, hrun, hmap, -⟩ := hall as
  obtain ⟨m, hsteps, -, hmem⟩ := hmap rfl
  exact ⟨rs, w, hrun, m, hsteps, hmem⟩

/-- Calls on a new table. -/
def createRun (c : Conf) (env : Env) (n ks : Nat) (opts : Options) (as : List Call) : Option (List Reply × World) :=
  ((htCreate n ks opts).exec (step env) World.empty).bind fun x => x.1.bind fun h => runCalls c env h as x.2

theorem Created.run {n ks : Nat} {opts : Options} (hc : Created env n ks opts h w) (as : List Call) :
    createRun c env n ks opts as = runCalls c env h as w := by
  rw [createRun, show (htCreate n ks opts).exec (step env) World.empty = _ from hc]
  rfl

theorem runCalls_snoc {a : Call} {r : Reply} {as : List Call} : ∀ {rs : List Reply} {w w₁ : World},
    runCalls c env h as w = some (rs, w₁) → runCall c env h a w₁ = some (r, w') →
    runCalls c env h (as ++ [a]) w = some (rs ++ [r], w') := by
  induction as with
  | nil =>
    intro rs w w₁ hrun hr
    cases hrun
    rw [List.nil_append, runCalls_cons hr]
    rfl
  | cons b as ih =>
    intro rs w w₁ hrun hr
    rw [runCalls] at hrun
    cases hb : runCall c env h b w with
    | none => simp [hb] at hrun
    | some x =>
      obtain ⟨q, w₂⟩ := x
      simp only [hb, Option.map_eq_some_iff, Prod.mk.injEq] at hrun
      obtain ⟨⟨rs', w₃⟩, hrun', rfl, rfl⟩ := hrun
      rw [List.cons_append, runCalls_cons hb, ih hrun' hr]
      rfl

/-- A new table and calls on it. -/
theorem exists_run (hok : LockOk env) (hnull : NullFill env) {n : Nat} (hn : n ≠ 0) (ks : Nat) (opts : Options)
    (h0 : env.malloc 0 ≠ none) (h1 : env.malloc 1 ≠ none) (as : List Call) :
    ∃ w₀ rs w, Created env n ks opts 0 w₀ ∧ runCalls c env 0 as w₀ = some (rs, w) := by
  obtain ⟨w₀, hc⟩ := created_of_got hok hn ks opts h0 h1
  obtain ⟨S, hh, hi, -⟩ := hc.held (c := c) hok hnull
  obtain ⟨rs, w, S', P', hrun, -⟩ := runCalls_kept hok hnull as hh hi
  exact ⟨w₀, rs, w, hc, hrun⟩

/-- With duplicates an insertion need not add its pair: the slab it needs may not be there. -/
theorem not_insert_always_adds : ¬∀ (c : Conf) (env : Env) (n ks : Nat) (opts : Options) (h : Addr) (w : World)
    (key data : Nat), AllZero env → NullFill env → opts.dupsAllowed = true → Reached c env n ks opts h w →
    ∃ r w', runCall c env h (.insert key data) w = some (r, w') ∧
      w'.pairs c h = (c.keyBytes ks key, data) ::ₘ w.pairs c h := by
  intro H
  have hz := Env.allZero_allZero fun n => decide (n < 2)
  have hnull := Env.allZero_nullFill fun n => decide (n < 2)
  obtain ⟨w₀, rs, w, hc, hrun⟩ := exists_run (c := .sample) (n := 1) hz.ok hnull (by decide) 1 ⟨false, true⟩
    (by simp [Env.allZero]) (by simp [Env.allZero]) [.insert 1 10]
  obtain ⟨r, w', hr, hp⟩ := H .sample _ 1 1 ⟨false, true⟩ 0 w 1 20 hz hnull rfl ⟨w₀, _, rs, hc, hrun⟩
  have h1 : (createRun .sample (Env.allZero fun n => decide (n < 2)) 1 1 ⟨false, true⟩ [.insert 1 10]).map
      (fun x => (x.2.pairs .sample 0).card) = some 1 := by decide
  have h2 : (createRun .sample (Env.allZero fun n => decide (n < 2)) 1 1 ⟨false, true⟩
      [.insert 1 10, .insert 1 20]).map (fun x => (x.2.pairs .sample 0).card) = some 1 := by decide
  rw [hc.run, hrun] at h1
  rw [hc.run, show runCalls .sample _ 0 [.insert 1 10, .insert 1 20] w₀ = _ from runCalls_snoc hrun hr] at h2
  simp only [Option.map_some, Option.some.injEq, hp, Multiset.card_cons] at h1 h2
  omega

/-! ## What deleting returns -/

/-- The key stands in the head of its bucket, and the entry behind it holds other data. -/
def HeadTakesOver (c : Conf) (w : World) (h : Addr) (key : Nat) : Prop :=
  ∃ p q l, w.bucketOf h (w.bucketIndex c h key) = p :: q :: l ∧ Matches c (w.keyLen c h) key w.ents p ∧
    (w.ents q).data ≠ (w.ents p).data

/-- There is one first match. -/
theorem FirstMatch.unique {len key : Nat} {ents : EntryPtr → Entry} {l l₁ l₂ : List EntryPtr} {q : EntryPtr}
    (hf : FirstMatch c len key ents l l₁ q l₂) : ∀ {m₁ m₂ : List EntryPtr} {q' : EntryPtr},
    FirstMatch c len key ents l m₁ q' m₂ → q' = q := by
  obtain ⟨rfl, hn, hq⟩ := hf
  induction l₁ with
  | nil =>
    intro m₁ m₂ q' ⟨hs, hn', hq'⟩
    cases m₁ with
    | nil => exact (List.cons.inj hs).1.symm
    | cons x xs =>
      obtain ⟨rfl, -⟩ := List.cons.inj hs
      exact absurd hq (hn' _ List.mem_cons_self)
  | cons x xs ih =>
    intro m₁ m₂ q' ⟨hs, hn', hq'⟩
    cases m₁ with
    | nil =>
      obtain ⟨rfl, -⟩ := List.cons.inj hs
      exact absurd hq' (hn _ List.mem_cons_self)
    | cons y ys =>
      obtain ⟨rfl, hs'⟩ := List.cons.inj hs
      exact ih (fun z hz => hn z (List.mem_cons_of_mem _ hz)) ⟨hs', fun z hz => hn' z (List.mem_cons_of_mem _ hz), hq'⟩

/-- The result of deleting is the data of the entry it removes, unless the head takes over other data. -/
theorem deleteReturns_iff {len key : Nat} {l l₁ l₂ : List EntryPtr} {q : EntryPtr}
    (hf : FirstMatch c len key w.ents l l₁ q l₂) : deleteReturns w l₁ q l₂ = (w.ents q).data ↔
      ¬∃ p s t, l = p :: s :: t ∧ Matches c len key w.ents p ∧ (w.ents s).data ≠ (w.ents p).data := by
  obtain ⟨rfl, hn, hq⟩ := hf
  cases l₁ with
  | cons x xs =>
    apply iff_of_true rfl
    rintro ⟨p, s, t, hs, hm, -⟩
    obtain ⟨rfl, -⟩ := List.cons.inj hs
    exact hn _ List.mem_cons_self hm
  | nil =>
    cases l₂ with
    | nil =>
      apply iff_of_true rfl
      rintro ⟨p, s, t, hs, -⟩
      cases hs
    | cons s t =>
      constructor
      · rintro he ⟨p, s', t', hs, -, hne⟩
        cases hs
        exact hne he
      · intro hno
        by_contra hne
        exact hno ⟨q, s, t, rfl, hq, hne⟩

/-- A search finds what the deletion of the key removes. -/
theorem LocatedKey.first (hz : AllZero env) {key r : Nat} (hr : LocatedKey c env w h S key r w') {l₁ l₂ : List EntryPtr}
    {q : EntryPtr} (hf : FirstMatch c (w.keyLen c h) key w.ents (S.bucket w.ents (w.index c h S key)) l₁ q l₂) :
    r = (w.ents q).data := by
  cases hr with
  | stuck b hnz hc => exact absurd hz hnz
  | missing b he hb hn =>
    refine absurd hf.here (hn q ?_)
    rw [hf.split]
    simp
  | found b m₁ d m₂ hq hf' => rw [hf.unique hf']

/-- Deleting a key that is in the table returns the data stored with the entry it removes if and only if the head of the
bucket does not take over other data. -/
theorem delete_returns_iff {n ks : Nat} {opts : Options} (hz : AllZero env) (hnull : NullFill env)
    (hr : Reached c env n ks opts h w) (key : Nat)
    (hkey : ∃ d, (c.keyBytes (w.keyLen c h) key, d) ∈ w.pairs c h) :
    ∃ r w', runCall c env h (.delete key) w = some (r, w') ∧
      ((∃ d : Nat, r.ret = d ∧ w.pairs c h = (c.keyBytes (w.keyLen c h) key, d) ::ₘ w'.pairs c h ∧
        (opts.dupsAllowed = false → ∃ r' w'', runCall c env h (.locate key) w = some (r', w'') ∧ r'.ret = d)) ↔
      ¬HeadTakesOver c w h key) := by
  obtain ⟨S, P, hh, hi, hopts, hks⟩ := hr.kept hz.ok hnull
  obtain ⟨r, w', he, -, ho⟩ := runCall_spec hz.ok hnull hh hi (.delete key)
  obtain ⟨rl, wl, hel, -, hol⟩ := runCall_spec hz.ok hnull hh hi (.locate key)
  have hb : w.bucketOf h (w.bucketIndex c h key) = S.bucket w.ents (w.index c h S key) := by
    rw [hh.table.bucketIndex]
    exact hh.table.bucketOf (hh.table.index_lt key)
  obtain ⟨ret, errno⟩ := r
  obtain ⟨retl, errnol⟩ := rl
  cases ho with
  | @delete _ rd _ hd =>
  cases hol with
  | @locate _ rloc _ hl =>
  obtain ⟨S', ha, -, ⟨-, -, -, hn⟩ | ⟨l₁, q, l₂, hf, hret, hc, -⟩⟩ := hd.after hh.fresh hh.table hi
  · obtain ⟨d, hmem⟩ := hkey
    rw [hh.table.pairs_eq] at hmem
    exact absurd hmem (hh.table.not_mem_pairs (hn (Or.inl hz)) d)
  · have hloc := hl.first hz hf
    refine ⟨_, w', he, ?_⟩
    rw [HeadTakesOver, hb, ← deleteReturns_iff hf, hh.table.pairs_eq, ha.table.pairs_eq, hc, ← hret]
    constructor
    · rintro ⟨d, hd, hcons, -⟩
      have hq := (Prod.mk.inj ((Multiset.cons_inj_left _).mp hcons)).2
      have hrd : rd = d := Int.ofNat_inj.mp hd
      rw [hrd, hq]
    · intro hrd
      refine ⟨rd, rfl, ?_, fun _ => ⟨_, wl, hel, ?_⟩⟩
      · rw [hrd]
      · show (rloc : Int) = rd
        rw [hloc, hrd]

/-- Two pairs in one bucket: deleting the second key returns its data. -/
theorem delete_returns_sample : ∃ w, Reached .sample (Env.allZero fun _ => true) 1 1 ⟨false, false⟩ 0 w ∧
    w.pairs .sample 0 = {([1], 10), ([2], 20)} ∧
    ∃ r w', runCall .sample (Env.allZero fun _ => true) 0 (.delete 2) w = some (r, w') ∧
      ∃ d : Nat, r.ret = d ∧ w.pairs .sample 0 = (Conf.sample.keyBytes (w.keyLen .sample 0) 2, d) ::ₘ w'.pairs .sample 0 := by
  have hz := Env.allZero_allZero fun _ => true
  have hnull := Env.allZero_nullFill fun _ => true
  obtain ⟨w₀, rs, w, hc, hrun⟩ := exists_run (c := .sample) (n := 1) hz.ok hnull (by decide) 1 ⟨false, false⟩
    (by simp [Env.allZero]) (by simp [Env.allZero]) [.insert 1 10, .insert 2 20]
  have hr : Reached .sample (Env.allZero fun _ => true) 1 1 ⟨false, false⟩ 0 w := ⟨w₀, _, rs, hc, hrun⟩
  have h1 : (createRun .sample (Env.allZero fun _ => true) 1 1 ⟨false, false⟩ [.insert 1 10, .insert 2 20]).map
      (fun x => (x.2.pairs .sample 0, Conf.sample.keyBytes (x.2.keyLen .sample 0) 2,
        (x.2.bucketOf 0 (x.2.bucketIndex .sample 0 2)).head?.map fun p =>
          Conf.sample.keyBytes (x.2.keyLen .sample 0) (x.2.ents p).key)) =
      some ({([1], 10), ([2], 20)}, [2], some [1]) := by decide
  rw [hc.run, hrun] at h1
  simp only [Option.map_some, Option.some.injEq, Prod.mk.injEq] at h1
  obtain ⟨hpairs, hbytes, hhead⟩ := h1
  have hkey : ∃ d, (Conf.sample.keyBytes (w.keyLen .sample 0) 2, d) ∈ w.pairs .sample 0 := by
    rw [hpairs, hbytes]
    exact ⟨20, by simp⟩
  obtain ⟨r, w', he, hiff⟩ := delete_returns_iff hz hnull hr 2 hkey
  have hno : ¬HeadTakesOver .sample w 0 2 := by
    rintro ⟨p, q, l, hl, hm, -⟩
    rw [hl, List.head?_cons, Option.map_some, Option.some.injEq, hm, hbytes] at hhead
    cases hhead
  obtain ⟨d, hd, hcons, -⟩ := hiff.mpr hno
  exact ⟨w, hr, hpairs, r, w', he, d, hd, hcons⟩

/-- Deleting a key that stands before another one in its bucket returns the data of the other one. -/
theorem not_delete_returns_removed : ¬∀ (c : Conf) (env : Env) (n ks : Nat) (opts : Options) (h : Addr) (w : World)
    (key : Nat), AllZero env → NullFill env → Reached c env n ks opts h w →
    (∃ d, (c.keyBytes (w.keyLen c h) key, d) ∈ w.pairs c h) →
    ∃ r w', runCall c env h (.delete key) w = some (r, w') ∧
      ∃ d : Nat, r.ret = d ∧ w.pairs c h = (c.keyBytes (w.keyLen c h) key, d) ::ₘ w'.pairs c h := by
  intro H
  have hz := Env.allZero_allZero fun _ => true
  have hnull := Env.allZero_nullFill fun _ => true
  obtain ⟨w₀, rs, w, hc, hrun⟩ := exists_run (c := .sample) (n := 1) hz.ok hnull (by decide) 1 ⟨false, false⟩
    (by simp [Env.allZero]) (by simp [Env.allZero]) [.insert 1 10, .insert 2 20]
  have h1 : (createRun .sample (Env.allZero fun _ => true) 1 1 ⟨false, false⟩ [.insert 1 10, .insert 2 20]).map
      (fun x => decide ((Conf.sample.keyBytes (x.2.keyLen .sample 0) 1, 10) ∈ x.2.pairs .sample 0 ∧
        (Conf.sample.keyBytes (x.2.keyLen .sample 0) 1, 20) ∉ x.2.pairs .sample 0)) = some true := by decide
  have h2 : (createRun .sample (Env.allZero fun _ => true) 1 1 ⟨false, false⟩
      [.insert 1 10, .insert 2 20, .delete 1]).map (fun x => x.1.map Reply.ret) = some [0, 0, 20] := by decide
  rw [hc.run, hrun] at h1
  obtain ⟨hin, hout⟩ : _ ∧ _ := by simpa using h1
  obtain ⟨r, w', hr, d, hd, hp⟩ := H .sample _ 1 1 ⟨false, false⟩ 0 w 1 hz hnull ⟨w₀, _, rs, hc, hrun⟩ ⟨10, hin⟩
  rw [hc.run, show runCalls .sample _ 0 [.insert 1 10, .insert 2 20, .delete 1] w₀ = _ from runCalls_snoc hrun hr] at h2
  have hlast : r.ret = 20 := by
    simp only [Option.map_some, List.map_append, List.map_cons, List.map_nil, Option.some.injEq] at h2
    have h3 := congrArg List.getLast? h2
    simpa using h3
  have hd20 : d = 20 := by omega
  apply hout
  rw [hp, hd20]
  exact Multiset.mem_cons_self _ _

end ZfsTest.Hashtable
