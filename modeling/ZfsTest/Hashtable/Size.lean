import ZfsTest.Hashtable.Parts
import ZfsTest.Hashtable.Refine

/-!
# Sizes

`ht_create_slab` computes the byte count of a slab in `size_t` (`Conf.slabBytes`), and a table head keeps the key size in an `int`. The
first slab that `ht_create` and `ht_resize` ask for is the one of the table (`htCreate_asks`, `htResize_asks`), and every head of a
table has the key size that `ht_create` was given, as an `int` (`runCalls_allKeys`). Both are exact when the slab fits and the key
size survives.
-/

namespace ZfsTest.Hashtable

open Prog

set_option synthInstance.maxSize 2000

variable {c : Conf} {env : Env} {w w' : World} {h : Addr} {α β : Type}

/-! ## Byte counts and key lengths -/

/-- `sizeof` of a slab header and of an entry. -/
structure Sizes where
  slab : Nat
  entry : Nat

/-- The bytes of a slab of `n` entries. -/
def Sizes.exact (z : Sizes) (n : Nat) : Nat := z.slab + n * z.entry

/-- The argument of `malloc` in `ht_create_slab`. -/
def Conf.slabBytes (c : Conf) (z : Sizes) (n : Nat) : Nat := (z.slab + n * z.entry % 2 ^ c.bits) % 2 ^ c.bits

/-- The block asked for is large enough exactly when the sum fits. -/
theorem exact_le_slabBytes_iff {z : Sizes} {n : Nat} : z.exact n ≤ c.slabBytes z n ↔ z.exact n < 2 ^ c.bits := by
  have hpos : 0 < 2 ^ c.bits := Nat.two_pow_pos c.bits
  have hmod : c.slabBytes z n = z.exact n % 2 ^ c.bits := by rw [Conf.slabBytes, Nat.add_mod_mod, Sizes.exact]
  rw [hmod]
  constructor
  · intro hle
    exact Nat.lt_of_le_of_lt hle (Nat.mod_lt _ hpos)
  · intro hlt
    rw [Nat.mod_eq_of_lt hlt]

/-- A value stored in 32 bits comes back in a wider type when it is small, or stands for a negative number. -/
theorem toNat_bmod_emod_iff {m n : Nat} (hm : 2 ^ 32 ∣ m) (hn : n < m) :
    ((n : Int).bmod (2 ^ 32) % (m : Int)).toNat = n ↔ n < 2 ^ 31 ∨ m - 2 ^ 31 ≤ n := by
  obtain ⟨k, rfl⟩ := hm
  have hb := Int.bmod_eq_emod (n : Int) (2 ^ 32)
  by_cases hlow : n % 2 ^ 32 < 2 ^ 31
  · have hpos : (n : Int).bmod (2 ^ 32) = ((n % 2 ^ 32 : Nat) : Int) := by
      rw [hb, if_neg (by omega)]
      omega
    rw [hpos, Int.emod_eq_of_lt (by omega) (by omega), Int.toNat_natCast]
    omega
  · have hneg : (n : Int).bmod (2 ^ 32) = ((n % 2 ^ 32 : Nat) : Int) - 2 ^ 32 := by
      rw [hb, if_pos (by omega)]
      omega
    rw [hneg, ← Int.add_emod_right, Int.emod_eq_of_lt (by omega) (by omega)]
    omega

theorem sizeOfInt_intOfSize_iff {n : Nat} (hn : n < 2 ^ c.bits) :
    c.sizeOfInt (intOfSize n) = n ↔ n < 2 ^ 31 ∨ 2 ^ c.bits - 2 ^ 31 ≤ n := by
  have h := toNat_bmod_emod_iff (pow_dvd_pow 2 c.wide) hn
  rw [Int.natCast_pow] at h
  exact h

/-! ## The slab of the table -/

/-- The entries asked for, when the access allocates a slab. -/
def Op.slabRequest : Op → Option Nat
  | .mallocSlab n => some n
  | _ => none

/-- The entries of the first slab that a run asks for. -/
def firstSlab (env : Env) (p : Code α) (w : World) : Option Nat := (trace (step env) p w).1.findSome? Op.slabRequest

/-- No run asks for a slab. -/
abbrev AsksNone (env : Env) : (α : Type) → Code α → Prop := Within (step env) fun o => o.slabRequest = none

/-- A run whose result satisfies `D` has asked for a slab, the first one with `n` entries. -/
def Asks (env : Env) (n : Nat) (D : α → Prop) (p : Code α) : Prop :=
  ∀ w a w', p.exec (step env) w = some (a, w') → D a → firstSlab env p w = some n

theorem firstSlab_none {p : Code α} [hp : Has (AsksNone env) p] : firstSlab env p w = none :=
  List.findSome?_eq_none_iff.mpr (hp.has w)

/-- The first request of a sequence is made in its first part, or else in the second. -/
theorem firstSlab_bind {p : Code α} {f : α → Code β} {a : α} {w₁ : World} (he : p.exec (step env) w = some (a, w₁)) :
    firstSlab env (p >>= f) w = (firstSlab env p w).or (firstSlab env (f a) w₁) := by
  rw [← trace_snd] at he
  unfold firstSlab
  rw [trace_bind]
  match ht : trace (step env) p w, he with
  | (l, some (_, _)), rfl => exact List.findSome?_append

section

variable {n : Nat} {D : β → Prop} {E : α → Prop}

theorem asks_of_not {p : Code β} (hp : Gives (step env) (fun b => ¬D b) p) : Asks env n D p :=
  fun w a w' he hd => absurd hd (hp w a w' he)

/-- The request comes later. -/
theorem asks_later {p : Code α} {f : α → Code β} (hp : Has (AsksNone env) p) (hf : ∀ a, Asks env n D (f a)) : Asks env n D (p >>= f) := by
  intro w b w' he hd
  obtain ⟨a, w₁, h₁, h₂⟩ := exec_bind_some he
  rw [firstSlab_bind h₁, firstSlab_none, Option.none_or]
  exact hf a w₁ b w' h₂ hd

/-- The request comes first, or the sequence fails. -/
theorem asks_first {p : Code α} {f : α → Code β} (hp : Asks env n E p)
    (hf : ∀ a, ¬E a → Gives (step env) (fun b => ¬D b) (f a)) : Asks env n D (p >>= f) := by
  intro w b w' he hd
  obtain ⟨a, w₁, h₁, h₂⟩ := exec_bind_some he
  have ha : E a := by
    by_contra hn
    exact hf a hn w₁ b w' h₂ hd
  rw [firstSlab_bind h₁, hp w a w₁ h₁ ha, Option.some_or]

end

instance asksNone_modular : Modular (AsksNone env) := within_modular

theorem asksNone_access {o : Op} (ho : o.slabRequest = none) : Has (AsksNone env) (access o) := ⟨within_call ho⟩

instance asksNone_usual : Usual (AsksNone env) where
  toModular := asksNone_modular
  usual {o} ho := by
    refine (asksNone_access ?_).has
    cases o <;> first | rfl | cases ho

instance asksNone_initAverage (a : Addr) (i : AverageId) : Has (AsksNone env) (initAverage a i) := asksNone_access rfl

instance asksNone_initCounter (a : Addr) (i : CounterId) : Has (AsksNone env) (initCounter a i) := asksNone_access rfl

instance asksNone_mallocHead : Has (AsksNone env) mallocHead := asksNone_access rfl

instance asksNone_initHead (a : Addr) (ks : Int) (opts : Options) (t : Threshold) : Has (AsksNone env) (initHead a ks opts t) :=
  asksNone_access rfl

/-- `ht_create_slab` asks for the slab at once. -/
theorem htCreateSlab_asks {n : Nat} (hn : n ≠ 0) (D : Option Addr → Prop) : Asks env n D (htCreateSlab n) := by
  intro w a w' he hd
  rw [htCreateSlab, if_neg hn] at he ⊢
  unfold firstSlab
  change (trace (step env) (.op (.mallocSlab n) _) w).1.findSome? Op.slabRequest = some n
  rw [trace]
  cases hs : step env (.mallocSlab n) w with
  | none => rfl
  | some x => rfl

/-- When `ht_create` succeeds, the first slab it asked for has `numents` entries. -/
theorem htCreate_asks (n ks : Nat) (opts : Options) : Asks env n (fun r => r ≠ none) (htCreate n ks opts) := by
  have hfail : ∀ p : Code Unit, Asks env n (fun r => r ≠ none) (p >>= fun _ => (.ret none : Code (Option Addr))) :=
    fun p => asks_of_not (gives_bind fun _ => gives_ret (not_not.mpr rfl))
  by_cases hn : n = 0
  · rw [htCreate, if_pos hn]
    exact hfail _
  rw [htCreate_eq hn]
  refine asks_later inferInstance fun h => ?_
  cases h with
  | none => exact hfail _
  | some h =>
    unfold createTable
    refine asks_later inferInstance fun _ => asks_later inferInstance fun failed => ?_
    split
    · exact hfail _
    refine asks_later inferInstance fun failed => ?_
    split
    · exact hfail _
    refine asks_later inferInstance fun failed => ?_
    split
    · exact hfail _
    exact asks_first (E := fun _ => True) (htCreateSlab_asks hn _) fun _ hf => absurd trivial hf

/-- When `ht_resize` succeeds, the first slab it asked for has `numents` entries. -/
theorem htResize_asks (n : Nat) : Asks env n (fun r => r = 0) (htResize c h n) := by
  unfold htResize resizeWith
  refine asks_later inferInstance fun e => asks_later inferInstance fun _ => ?_
  split
  · exact asks_of_not (gives_bind fun _ => gives_ret (by decide))
  refine asks_later inferInstance fun e => asks_later inferInstance fun _ => ?_
  split
  · exact asks_of_not (gives_bind fun _ => gives_bind fun _ => gives_ret (by decide))
  refine asks_later inferInstance fun ks => asks_later inferInstance fun options => asks_first (htCreate_asks n _ _) fun nht hnht => ?_
  obtain rfl : nht = none := not_not.mp hnht
  exact gives_bind fun _ => gives_bind fun _ => gives_bind fun _ => gives_ret (by decide)

/-! ## Key sizes -/

/-- Every table head has the key size `k`. -/
def AllKeys (k : Int) (w : World) : Prop := ∀ a x, w.heads a = some x → x.keysize = k

theorem HeadsKept.allKeys {k : Int} (hw : HeadsKept w w') (hk : AllKeys k w) : AllKeys k w' := by
  intro a y hy
  obtain ⟨x, hx, hks, -⟩ := hw a y hy
  exact hks.trans (hk a x hx)

/-- A run that starts with the key size `k` in every head ends so. -/
abbrev KeepsKeys (env : Env) (k : Int) : (α : Type) → Code α → Prop := Keeps (step env) fun w w' => AllKeys k w → AllKeys k w'

section

variable {k : Int}

theorem keepsKeys_access {o : Op} (ho : o.keepsHeads = true) : Has (KeepsKeys env k) (access o) :=
  ⟨keeps_call fun _ _ _ hs => (headsKept_step ho hs).allKeys⟩

instance keepsKeys_usual : Usual (KeepsKeys env k) where
  toModular := keeps_modular (fun _ hk => hk) fun _ _ _ h₁ h₂ hk => h₂ (h₁ hk)
  usual ho := (keepsKeys_access (Op.keepsHeads_of_usual ho)).has

instance keepsKeys_mallocSlab (n : Nat) : Has (KeepsKeys env k) (mallocSlab n) := keepsKeys_access rfl

instance keepsKeys_initAverage (a : Addr) (i : AverageId) : Has (KeepsKeys env k) (initAverage a i) := keepsKeys_access rfl

instance keepsKeys_initCounter (a : Addr) (i : CounterId) : Has (KeepsKeys env k) (initCounter a i) := keepsKeys_access rfl

instance keepsKeys_addCounter (a : Addr) (i : CounterId) (d : UInt64) : Has (KeepsKeys env k) (addCounter a i d) := keepsKeys_access rfl

instance keepsKeys_updateAverage (a : Addr) (i : AverageId) (n m x y : UInt64) : Has (KeepsKeys env k) (updateAverage a i n m x y) :=
  keepsKeys_access rfl

instance keepsKeys_incrementAverage (a : Addr) (i : AverageId) (x : UInt64) : Has (KeepsKeys env k) (incrementAverage a i x) :=
  keepsKeys_access rfl

/-- A new head whose key size has been set. -/
theorem AllKeys.newHead (hk : AllKeys k w) {x : HashTable} (hx : x.keysize = k) (f : Fill) :
    AllKeys k ((w.allocHead f).setHead w.mallocs x) := by
  intro a y hy
  by_cases ha : a = w.mallocs
  · simp only [World.setHead, ha, ↓reduceIte, Option.some.injEq] at hy
    exact hy ▸ hx
  · simp only [World.setHead, World.allocHead, ha, ↓reduceIte] at hy
    exact hk a y hy

/-- A new head gets its key size before anything else happens. -/
theorem htCreate_keepsKeys {ks : Nat} (hks : intOfSize ks = k) (n : Nat) (opts : Options) :
    Has (KeepsKeys env k) (htCreate n ks opts) := by
  by_cases hn : n = 0
  · rw [htCreate, if_pos hn]
    infer_instance
  constructor
  intro w r w' he hk
  rcases htCreate_cases hn he with ⟨rfl, e, rfl⟩ | ⟨f, w₁, -, hrun, rfl⟩
  · exact hk
  · have htable : Has (KeepsKeys env k) (createTable w.mallocs n) := inferInstance
    refine htable.keeps hrun (hk.newHead ?_ f)
    dsimp only
    exact hks

/-- The key size read is `k`. -/
theorem getKeysize_keepsKeys {f : Int → Code β} (hf : Has (KeepsKeys env k) (f k)) (a : Addr) :
    Has (KeepsKeys env k) (getKeysize a >>= f) := by
  refine has_known (o := Op.getKeysize a) (fun w r w' hk hs => ?_) hf
  obtain ⟨x, hx, he⟩ := Option.map_eq_some_iff.mp hs
  cases he
  exact ⟨hk a x hx, rfl⟩

theorem callCode_keepsKeys (hk : intOfSize (c.sizeOfInt k) = k) (a : Call) : Has (KeepsKeys env k) (callCode c h a) := by
  have hresize : ∀ n, Has (KeepsKeys env k) (htResize c h n) := by
    refine fun n => has_resizeWith_of_new (Q := fun _ => True) c (fun rest hnone hsome => ?_) fun _ _ => inferInstance
    refine getKeysize_keepsKeys (Has.bind inferInstance fun options => Has.bind (htCreate_keepsKeys hk n _) fun nht => ?_) h
    cases nht with
    | none => exact hnone
    | some nht => exact hsome nht trivial
  have hinsert : ∀ key d, Has (KeepsKeys env k) (htInsertKey c h key d) := fun key d => has_insertKeyWith c (htResize c) h key d
  infer_instance

end

/-- Every head of a table has the key size that `ht_create` was given, as an `int`. -/
theorem runCalls_allKeys {n ks : Nat} {opts : Options} {w₀ : World} {as : List Call} {rs : List Reply}
    (hc : Created env n ks opts h w₀) (hrun : runCalls c env h as w₀ = some (rs, w)) : AllKeys (intOfSize ks) w := by
  have h₀ : AllKeys (intOfSize ks) w₀ := (htCreate_keepsKeys rfl n opts).keeps hc fun a x hx => by cases hx
  exact runCalls_keeps (K := fun w w' => AllKeys (intOfSize ks) w → AllKeys (intOfSize ks) w') (fun _ hk => hk)
    (fun _ _ _ h₁ h₂ hk => h₂ (h₁ hk)) (callCode_keepsKeys (intOfSize_sizeOfInt c ks)) as hrun h₀

/-! ## Exact sizes -/

/-- Whenever `ht_create` with `numents` `n` and `keysize` `ks`, or `ht_resize` to `m` on such a table, returns success, `malloc` was
asked for enough bytes for the table slab, and the length of a key is `ks` in every head. -/
structure Sized (c : Conf) (z : Sizes) (n ks m : Nat) : Prop where
  created : ∀ env opts h w, Created env n ks opts h w →
    ∃ k, firstSlab env (htCreate n ks opts) World.empty = some k ∧ z.exact n ≤ c.slabBytes z k
  resized : ∀ env opts h w w', Reached c env n ks opts h w → (htResize c h m).exec (step env) w = some (0, w') →
    ∃ k, firstSlab env (htResize c h m) w = some k ∧ z.exact m ≤ c.slabBytes z k
  keyLen : ∀ env opts h w, Reached c env n ks opts h w → ∀ a x, w.heads a = some x → c.sizeOfInt x.keysize = ks

/-- A table that can be created can be resized. -/
theorem exists_resized (c : Conf) {n m : Nat} (hn : n ≠ 0) (hm : m ≠ 0) (ks : Nat) : ∃ env opts h w w',
    Created env n ks opts h w ∧ (htResize c h m).exec (step env) w = some (0, w') := by
  have hz := Env.allZero_allZero fun _ => true
  have hnull := Env.allZero_nullFill fun _ => true
  obtain ⟨w, hc⟩ := created_of_got hz.ok hn ks ⟨false, false⟩ (by simp [Env.allZero]) (by simp [Env.allZero])
  obtain ⟨S, hh, hi, -⟩ := hc.held (c := c) hz.ok hnull
  obtain ⟨r, w', he, hp⟩ := htResize_spec hz.ok hnull hh hi m
  have hbuild : Builds c (Env.allZero fun _ => true) w 0 S m := ⟨hm, fun k _ => by simp [Env.allZero]⟩
  rcases hp with ⟨P', hr⟩ | ⟨S', P', hr⟩
  · exact absurd hbuild hr.builds
  · exact ⟨_, _, 0, w, w', hc, hr.zero hz ▸ he⟩

/-- The key size survives in the head of a new table. -/
theorem Sized.keySize {z : Sizes} {n ks m : Nat} (hs : Sized c z n ks m) (hn : n ≠ 0) : c.sizeOfInt (intOfSize ks) = ks := by
  have hz := Env.allZero_allZero fun _ => true
  obtain ⟨w, hc⟩ := created_of_got hz.ok hn ks ⟨false, false⟩ (by simp [Env.allZero]) (by simp [Env.allZero])
  obtain ⟨S, hh, -, -, -, -, -, hkey⟩ := hc.held (c := c) hz.ok (Env.allZero_nullFill _)
  obtain ⟨x, hx⟩ := Option.isSome_iff_exists.mp hh.table.head
  have hlen := hs.keyLen _ _ 0 w ⟨w, [], [], hc, rfl⟩ 0 x hx
  have hxk : x.keysize = intOfSize ks := by
    rw [← hkey, World.head, hx]
    rfl
  exact hxk ▸ hlen

theorem sized_iff {z : Sizes} {n ks m : Nat} (hks : ks < 2 ^ c.bits) : Sized c z n ks m ↔
    n = 0 ∨ z.exact n < 2 ^ c.bits ∧ z.exact m < 2 ^ c.bits ∧ (ks < 2 ^ 31 ∨ 2 ^ c.bits - 2 ^ 31 ≤ ks) := by
  have hcreated : ∀ {env opts h w}, Created env n ks opts h w → firstSlab env (htCreate n ks opts) World.empty = some n :=
    fun hc => htCreate_asks n ks _ _ _ _ hc (by simp)
  have hresized : ∀ {env : Env} {h w w'}, (htResize c h m).exec (step env) w = some (0, w') → firstSlab env (htResize c h m) w = some m :=
    fun he => htResize_asks m _ _ _ he rfl
  constructor
  · intro hs
    by_cases hn : n = 0
    · exact Or.inl hn
    have hfit : z.exact n < 2 ^ c.bits := by
      obtain ⟨env, opts, h, w, -, hc, -⟩ := exists_resized c hn one_ne_zero ks
      obtain ⟨k, hk, hle⟩ := hs.created env opts h w hc
      rw [hcreated hc, Option.some.injEq] at hk
      exact exact_le_slabBytes_iff.mp (hk ▸ hle)
    refine Or.inr ⟨hfit, ?_, ?_⟩
    · by_cases hm : m = 0
      · subst hm
        refine Nat.lt_of_le_of_lt ?_ hfit
        simp [Sizes.exact]
      obtain ⟨env, opts, h, w, w', hc, he⟩ := exists_resized c hn hm ks
      obtain ⟨k, hk, hle⟩ := hs.resized env opts h w w' ⟨w, [], [], hc, rfl⟩ he
      rw [hresized he, Option.some.injEq] at hk
      exact exact_le_slabBytes_iff.mp (hk ▸ hle)
    · exact (sizeOfInt_intOfSize_iff hks).mp (hs.keySize hn)
  · rintro (rfl | ⟨hn, hm, hlen⟩)
    · have hnone : ∀ {env opts h w}, ¬Created env 0 ks opts h w := by
        intro env opts h w hc
        obtain ⟨u, w₁, -, h₂⟩ := exec_bind_some (p := setErrno EINVAL) hc
        cases h₂
      exact ⟨fun _ _ _ _ hc => absurd hc hnone, fun _ _ _ _ _ ⟨_, _, _, hc, _⟩ => absurd hc hnone,
        fun _ _ _ _ ⟨_, _, _, hc, _⟩ => absurd hc hnone⟩
    · refine ⟨fun env opts h w hc => ⟨n, hcreated hc, exact_le_slabBytes_iff.mpr hn⟩, fun env opts h w w' _ he => ?_, ?_⟩
      · exact ⟨m, hresized he, exact_le_slabBytes_iff.mpr hm⟩
      · rintro env opts h w ⟨w₀, as, rs, hc, hrun⟩ a x hx
        rw [runCalls_allKeys hc hrun a x hx]
        exact (sizeOfInt_intOfSize_iff hks).mpr hlen

theorem sized_iff_one : Sized .sample ⟨96, 96⟩ 1 1 2 :=
  (sized_iff (z := ⟨96, 96⟩) (n := 1) (m := 2) (by decide)).mpr (Or.inr ⟨by decide, by decide, Or.inl (by decide)⟩)

/-- A table of one entry whose keys have `2 ^ 31` bytes. -/
theorem not_sized : ¬∀ (c : Conf) (z : Sizes) (n ks m : Nat), n < 2 ^ c.bits → ks < 2 ^ c.bits → m < 2 ^ c.bits → Sized c z n ks m := by
  intro H
  have hs := (H .sample ⟨96, 96⟩ 1 (2 ^ 31) 1 (by decide) (by decide) (by decide)).keySize one_ne_zero
  revert hs
  decide

end ZfsTest.Hashtable
