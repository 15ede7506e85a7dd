import ZfsTest.Hashtable.Steps

/-!
# Destroying

`ht_destroy` follows `ht->old`, then frees the slabs and the head. It stops at the first slab one of whose entries it
cannot destroy, and leaves the rest of the list in place (`OldChain`). `htDestroy_spec` says that it touches the blocks of
the list only, that it frees them all when it returns `0`, and that it returns `0` when all the entry locks are initialised
and can be destroyed.
-/

namespace ZfsTest.Hashtable

open Prog

variable {c : Conf} {env : Env} {w w' w₁ w₂ : World} {h : Addr}

/-! ## Changes in some blocks only -/

/-- Only the blocks in `F` have changed, and nothing was allocated. -/
structure Only (F : Addr → Prop) (w w' : World) : Prop where
  same : ∀ a, ¬F a → SameBlock w w' a
  mallocs : w'.mallocs = w.mallocs
  cells : w'.cells = w.cells
  heads : ∀ a, w'.hasHead a = true → w.hasHead a = true
  slabs : ∀ a, w'.hasSlab a = true → w.hasSlab a = true

theorem Only.refl (F : Addr → Prop) (w : World) : Only F w w :=
  ⟨fun a _ => SameBlock.refl w a, rfl, rfl, fun _ h => h, fun _ h => h⟩

theorem Only.trans {F : Addr → Prop} (h : Only F w w₁) (h' : Only F w₁ w₂) : Only F w w₂ :=
  ⟨fun a ha => (h.same a ha).trans (h'.same a ha), h'.mallocs.trans h.mallocs, h'.cells.trans h.cells,
    fun a ha => h.heads a (h'.heads a ha), fun a ha => h.slabs a (h'.slabs a ha)⟩

theorem Only.mono {F F' : Addr → Prop} (h : Only F w w') (hF : ∀ a, F a → F' a) : Only F' w w' :=
  ⟨fun a ha => h.same a fun hf => ha (hF a hf), h.mallocs, h.cells, h.heads, h.slabs⟩

theorem Only.withBook {F : Addr → Prop} (ho : Only F w w') (b : Book) : Only F w (w'.withBook b) :=
  ⟨fun a ha => ⟨(ho.same a ha).heads, (ho.same a ha).slabs, (ho.same a ha).ents, (ho.same a ha).locks⟩, ho.mallocs, ho.cells,
    ho.heads, ho.slabs⟩

/-- Changes in blocks that exist. -/
theorem Only.fresh {F : Addr → Prop} (ho : Only F w w') (hF : ∀ b, F b → b < w.mallocs) (hw : w.Fresh) : w'.Fresh := by
  refine ⟨fun b hb => ?_, fun b hb => ?_, fun l hl => ?_⟩
  · rw [ho.mallocs] at hb
    rw [(ho.same b fun hm => Nat.not_lt.mpr hb (hF b hm)).heads]
    exact hw.heads b hb
  · rw [ho.mallocs] at hb
    rw [(ho.same b fun hm => Nat.not_lt.mpr hb (hF b hm)).slabs]
    exact hw.slabs b hb
  · rw [ho.mallocs] at hl
    rw [(ho.same _ fun hm => Nat.not_lt.mpr hl (hF _ hm)).locks l rfl]
    exact hw.locks l hl

theorem Only.setHead {a : Addr} (hh : w.hasHead a = true) (ht : HashTable) : Only (· = a) w (w.setHead a ht) := by
  refine ⟨fun x hx => ⟨by simp [show x ≠ a from hx], rfl, fun _ => rfl, fun _ _ => rfl⟩, rfl, rfl, fun x hx => ?_,
    fun _ h => h⟩
  by_cases he : x = a
  · exact he ▸ hh
  · simpa [he] using hx

theorem Only.setSlab {s : Addr} (hs : w.hasSlab s = true) (sl : Slab) : Only (· = s) w (w.setSlab s sl) := by
  refine ⟨fun x hx => ⟨rfl, by simp [show x ≠ s from hx], fun _ => rfl, fun _ _ => rfl⟩, rfl, rfl, fun _ h => h,
    fun x hx => ?_⟩
  by_cases he : x = s
  · exact he ▸ hs
  · simpa [he] using hx

theorem Only.setEnt (w : World) (p : EntryPtr) (e : Entry) : Only (· = p.1) w (w.setEnt p e) := by
  refine ⟨fun x hx => ⟨rfl, rfl, fun i => ?_, fun _ _ => rfl⟩, rfl, rfl, fun _ h => h, fun _ h => h⟩
  have hne : (x, i) ≠ p := fun h => hx (congrArg Prod.fst h)
  simp [hne]

theorem Only.setLock (w : World) (l : LockId) (st : LockState) : Only (· = l.block) w (w.setLock l st) := by
  refine ⟨fun x hx => ⟨rfl, rfl, fun _ => rfl, fun k hk => ?_⟩, rfl, rfl, fun _ h => h, fun _ h => h⟩
  have hne : k ≠ l := by
    rintro rfl
    exact hx hk.symm
  simp [hne]

theorem Only.dropHead (w : World) (a : Addr) : Only (· = a) w (w.dropHead a) := by
  refine ⟨fun x hx => ⟨by simp [show x ≠ a from hx], rfl, fun _ => rfl, fun _ _ => rfl⟩, rfl, rfl, fun x hx => ?_,
    fun _ h => h⟩
  by_cases he : x = a
  · simp [World.hasHead, he] at hx
  · simpa [World.hasHead, he] using hx

theorem Only.dropSlab (w : World) (s : Addr) : Only (· = s) w (w.dropSlab s) := by
  refine ⟨fun x hx => ⟨rfl, by simp [show x ≠ s from hx], fun _ => rfl, fun _ _ => rfl⟩, rfl, rfl, fun _ h => h,
    fun x hx => ?_⟩
  by_cases he : x = s
  · simp [World.hasSlab, he] at hx
  · simpa [World.hasSlab, he] using hx

/-! ## Slabs -/

/-- The locks of the entries `i, …, i + n - 1` are initialised, and destroying them succeeds. -/
def Destroyable (env : Env) (w : World) (s : Addr) (i n : Nat) : Prop :=
  ∀ j, i ≤ j → j < i + n →
    (w.ents (s, j)).flags.lockInitialized = true ∧ (AllZero env ∨ w.locks (.entry (s, j)) = .free)

/-- The lock of the entry is marked initialised, or it has been destroyed. -/
def Marked (w : World) (p : EntryPtr) : Prop :=
  (w.ents p).flags.lockInitialized = true ∨ w.locks (.entry p) = .destroyed

/-- The slab headers, the heads and the blocks given back are the same. -/
structure SameHeaders (w w' : World) : Prop where
  heads : w'.heads = w.heads
  slabs : w'.slabs = w.slabs
  freed : w'.freed = w.freed

theorem htDestroyEntries_spec (hok : LockOk env) (s : Addr) (n : Nat) : ∀ (i : Nat) (ret result : Int) (w : World),
    (∀ j, i ≤ j → j < i + n → w.valid (s, j) = true) →
    wp env (htDestroyEntries s i n ret result)
      (fun r w' => Only (· = s) w w' ∧ SameHeaders w w' ∧ (∀ p, Marked w p → Marked w' p) ∧ result ≤ r ∧
        (Destroyable env w s i n → r = result) ∧
        ((∀ j, i ≤ j → j < i + n → w.locks (.entry (s, j)) = .free) → Destroyable env w s i n →
          w'.book.misuse = w.book.misuse)) w := by
  induction n with
  | zero =>
    intro i ret result w _
    exact wp_ret.mpr ⟨Only.refl _ w, ⟨rfl, rfl, rfl⟩, fun _ h => h, le_refl _, fun _ => rfl, fun _ _ => rfl⟩
  | succ n ih =>
    intro i ret result w hv
    have hvi := hv i (Nat.le_refl i) (by omega)
    unfold htDestroyEntries
    rw [wp_getFlags hvi, wp_setFlags hvi, wp_setNext (by exact hvi), wp_setKey (by exact hvi), wp_setData (by exact hvi),
      wp_getFlags (by exact hvi)]
    simp only [World.setEnt_ents, ↓reduceIte, World.setEnt_setEnt]
    -- the remaining entries, after the `i`-th one
    have rest : ∀ (w₁ : World) (ret' result' : Int), Only (· = s) w w₁ → SameHeaders w w₁ →
        (∀ j, j ≠ i → w₁.ents (s, j) = w.ents (s, j) ∧ w₁.locks (.entry (s, j)) = w.locks (.entry (s, j))) →
        (∀ p, Marked w p → Marked w₁ p) → result ≤ result' → (Destroyable env w s i (n + 1) → result' = result) →
        (w.locks (.entry (s, i)) = .free → Destroyable env w s i (n + 1) → w₁.book.misuse = w.book.misuse) →
        wp env (htDestroyEntries s (i + 1) n ret' result')
          (fun r w' => Only (· = s) w w' ∧ SameHeaders w w' ∧ (∀ p, Marked w p → Marked w' p) ∧ result ≤ r ∧
            (Destroyable env w s i (n + 1) → r = result) ∧
            ((∀ j, i ≤ j → j < i + (n + 1) → w.locks (.entry (s, j)) = .free) → Destroyable env w s i (n + 1) →
              w'.book.misuse = w.book.misuse)) w₁ := by
      intro w₁ ret' result' ho hh hsame hmark hle heq hmis
      have hd : Destroyable env w s i (n + 1) → Destroyable env w₁ s (i + 1) n := by
        intro hd j h1 h2
        obtain ⟨he, hl⟩ := hsame j (by omega)
        rw [he, hl]
        exact hd j (by omega) (by omega)
      refine wp_mono (ih (i + 1) ret' result' w₁ fun j h1 h2 => ?_) ?_
      · have := hv j (by omega) (by omega)
        rw [World.valid] at this ⊢
        rwa [hh.slabs]
      · rintro r w' ⟨ho', hh', hmark', hle', heq', hmis'⟩
        refine ⟨ho.trans ho', ⟨hh'.heads.trans hh.heads, hh'.slabs.trans hh.slabs, hh'.freed.trans hh.freed⟩,
          fun p hp => hmark' p (hmark p hp), hle.trans hle', fun hD => (heq' (hd hD)).trans (heq hD), fun hf hD => ?_⟩
        refine (hmis' (fun j h1 h2 => ?_) (hd hD)).trans (hmis (hf i (Nat.le_refl i) (by omega)) hD)
        rw [(hsame j (by omega)).2]
        exact hf j (by omega) (by omega)
    have hne : ∀ j, j ≠ i → (s, j) ≠ (s, i) := fun j hj h => hj (congrArg Prod.snd h)
    have hmarked : ∀ w₁ : World, (∀ p, p ≠ (s, i) → (w₁.ents p = w.ents p ∧ w₁.locks (.entry p) = w.locks (.entry p))) →
        (Marked w (s, i) → Marked w₁ (s, i)) → ∀ p, Marked w p → Marked w₁ p := by
      intro w₁ hother hthis p hp
      by_cases hpi : p = (s, i)
      · subst hpi
        exact hthis hp
      · unfold Marked
        rw [(hother p hpi).1, (hother p hpi).2]
        exact hp
    by_cases hinit : (w.ents (s, i)).flags.lockInitialized = true
    · rw [if_pos hinit, rwlockDestroy, wp_lockCall_any rfl]
      simp only [World.setEnt_locks, World.setEnt_book]
      by_cases hr : env.lockRet w.book.lockCalls .destroy (.entry (s, i)) (w.locks (.entry (s, i))) = 0
      · simp only [hr, ↓reduceIte]
        rw [wp_getFlags (by exact hvi), wp_setFlags (by exact hvi)]
        refine rest _ 0 result ?_ ⟨rfl, rfl, rfl⟩ ?_ (hmarked _ (fun p hp => by simp [hp]) fun _ => Or.inr (by simp [LockOp.after]))
          (le_refl _) (fun _ => rfl) ?_
        · exact (((Only.setEnt w (s, i) _).trans (Only.setLock _ (.entry (s, i)) _)).withBook _).trans
            (Only.setEnt _ (s, i) _)
        · intro j hj
          simp [hne j hj]
        · intro hl _
          simp [Book.lockCall, hl, LockOp.proper]
      · simp only [hr, ↓reduceIte]
        rw [wp_setErrno]
        have hD : ¬Destroyable env w s i (n + 1) := by
          intro hD
          rcases (hD i (Nat.le_refl i) (by omega)).2 with hz | hf
          · exact hr (hz _ _ _ _)
          · exact hr (hok _ _ _ _ (by rw [hf]; rfl))
        refine rest _ _ (result + 1) ?_ ⟨rfl, rfl, rfl⟩ ?_
          (hmarked _ (fun p hp => by simp [hp]) fun _ => Or.inl (by simpa using hinit)) (by omega)
          (fun h => absurd h hD) fun _ h => absurd h hD
        · exact ((Only.setEnt w (s, i) _).withBook _).withBook _
        · intro j hj
          simp [hne j hj]
    · rw [if_neg hinit, wp_setErrno]
      have hD : ¬Destroyable env w s i (n + 1) := fun hD => hinit (hD i (Nat.le_refl i) (by omega)).1
      refine rest _ _ (result + 1) ?_ ⟨rfl, rfl, rfl⟩ ?_
        (hmarked _ (fun p hp => by simp [hp]) fun h => Or.inr (h.resolve_left hinit)) (by omega)
        (fun h => absurd h hD) fun _ h => absurd h hD
      · exact (Only.setEnt w (s, i) _).withBook _
      · intro j hj
        simp [hne j hj]

/-- Every entry of the slab can be destroyed. -/
def SlabDestroyable (env : Env) (w : World) (s : Addr) : Prop := Destroyable env w s 0 (w.slab s).entrycount

/-- No entry of the slab is locked. -/
def SlabUnlocked (w : World) (s : Addr) : Prop := ∀ j, j < (w.slab s).entrycount → w.locks (.entry (s, j)) = .free

theorem SlabDestroyable.same {s : Addr} (hd : SlabDestroyable env w s) (hb : SameBlock w w' s) :
    SlabDestroyable env w' s := by
  unfold SlabDestroyable Destroyable
  rw [hb.slab]
  intro j h1 h2
  rw [hb.ents j, hb.locks (.entry (s, j)) rfl]
  exact hd j h1 h2

theorem SlabUnlocked.same {s : Addr} (hu : SlabUnlocked w s) (hb : SameBlock w w' s) : SlabUnlocked w' s := by
  intro j hj
  rw [hb.slab] at hj
  rw [hb.locks (.entry (s, j)) rfl]
  exact hu j hj

theorem htDestroySlab_spec (hok : LockOk env) {s : Addr} (hs : w.hasSlab s = true)
    (hle : (w.slab s).entrycount ≤ (w.slab s).size) :
    wp env (htDestroySlab s)
      (fun r w' => Only (· = s) w w' ∧ w'.heads = w.heads ∧ (∀ p, Marked w p → Marked w' p) ∧
        (r = 0 ∧ w'.slabs s = none ∨ r ≠ 0 ∧ w'.slabs = w.slabs) ∧
        (SlabDestroyable env w s → r = 0 ∧ (SlabUnlocked w s → w'.book.misuse = w.book.misuse))) w := by
  unfold htDestroySlab
  rw [wp_getEntrycount hs]
  refine wp_spec (htDestroyEntries_spec hok s _ 0 0 0 w fun j _ hj => ?_) ?_
  · rw [World.valid_eq, hs]
    simp only [Bool.true_and, decide_eq_true_eq]
    omega
  · rintro r w' ⟨ho, hh, hmark, -, heq, hmis⟩
    have hs' : w'.hasSlab s = true := by rw [World.hasSlab, hh.slabs]; exact hs
    by_cases hr : r = 0
    · rw [if_neg (by simpa using hr), wp_clearSlab hs', wp_freeSlab (by simp)]
      refine wp_ret.mpr ⟨?_, hh.heads, hmark, Or.inl ⟨rfl, by simp⟩, fun hD => ⟨rfl, fun hu => ?_⟩⟩
      · exact (ho.trans (Only.setSlab hs' _)).trans (Only.dropSlab _ s)
      · exact hmis (fun j _ hj => hu j (by omega)) hD
    · rw [if_pos hr]
      exact wp_ret.mpr ⟨ho, hh.heads, hmark, Or.inr ⟨hr, hh.slabs⟩, fun hD => absurd (heq hD) hr⟩

/-- The slabs of a list, each with room for its entries. -/
structure SlabList (w : World) (p : Option Addr) (ss : List Addr) : Prop where
  chain : Chain (fun a => (w.slab a).next) p ss
  nodup : ss.Nodup
  live : ∀ s ∈ ss, w.hasSlab s = true ∧ (w.slab s).entrycount ≤ (w.slab s).size
  marked : ∀ s ∈ ss, ∀ j, j < (w.slab s).entrycount → Marked w (s, j)

theorem SlabList.congr {p : Option Addr} {ss : List Addr} (hl : SlabList w p ss) (hs : ∀ s ∈ ss, w'.slabs s = w.slabs s)
    (hm : ∀ s ∈ ss, ∀ j, Marked w (s, j) → Marked w' (s, j)) : SlabList w' p ss := by
  have hslab : ∀ s ∈ ss, w'.slab s = w.slab s := fun s hm => by unfold World.slab; rw [hs s hm]
  refine ⟨hl.chain.congr fun s hm => by rw [hslab s hm], hl.nodup, fun s hm => ?_, fun s hms j hj => ?_⟩
  · rw [World.hasSlab, hs s hm, hslab s hm]
    exact hl.live s hm
  · rw [hslab s hms] at hj
    exact hm s hms j (hl.marked s hms j hj)

theorem SlabList.same {p : Option Addr} {ss : List Addr} (hl : SlabList w p ss) (hs : ∀ s ∈ ss, SameBlock w w' s) :
    SlabList w' p ss := by
  refine hl.congr (fun s hm => (hs s hm).slabs) fun s hm j hj => ?_
  unfold Marked
  rw [(hs s hm).ents j, (hs s hm).locks (.entry (s, j)) rfl]
  exact hj

/-- The fields of the head that the destruction of the slabs keeps. -/
structure HeadKept (w : World) (h : Addr) (w' : World) : Prop where
  stats : StatsFree w' h
  old : (w'.head h).old = (w.head h).old

theorem htDestroySlabs_spec (hok : LockOk env) (ss : List Addr) : ∀ (fuel : Nat) (w : World), ss.length < fuel →
    StatsFree w h → SlabList w (w.head h).slabs ss → h ∉ ss → w.locks (.table h) = .write →
    wp env (htDestroySlabs h fuel)
      (fun r w' => Only (fun a => a = h ∨ a ∈ ss) w w' ∧ HeadKept w h w' ∧
        (r = 0 ∧ w'.locks (.table h) = .write ∧ (∀ s ∈ ss, w'.slabs s = none) ∨
          r ≠ 0 ∧ w'.locks (.table h) = .free ∧ ∃ ss', ss' <:+ ss ∧ SlabList w' (w'.head h).slabs ss' ∧
            ∀ s ∈ ss, w'.hasSlab s = true → s ∈ ss') ∧
        ((∀ s ∈ ss, SlabDestroyable env w s) →
          r = 0 ∧ ((∀ s ∈ ss, SlabUnlocked w s) → w'.book.misuse = w.book.misuse))) w := by
  induction ss with
  | nil =>
    intro fuel w hfuel hs hl _ hlock
    obtain ⟨fuel, rfl⟩ : ∃ n, fuel = n + 1 := ⟨fuel - 1, by simp at hfuel; omega⟩
    unfold htDestroySlabs
    rw [wp_getSlabs hs.head, hl.chain]
    exact wp_ret.mpr ⟨Only.refl _ w, ⟨hs, rfl⟩, Or.inl ⟨rfl, hlock, by simp⟩, fun _ => ⟨rfl, fun _ => rfl⟩⟩
  | cons s ss ih =>
    intro fuel w hfuel hs hl hn hlock
    obtain ⟨fuel, rfl⟩ : ∃ n, fuel = n + 1 := ⟨fuel - 1, by simp at hfuel; omega⟩
    obtain ⟨hsl, hle⟩ := hl.live s List.mem_cons_self
    have hhs : h ≠ s := fun e => hn (e ▸ List.mem_cons_self)
    unfold htDestroySlabs
    rw [wp_getSlabs hs.head, hl.chain.1]
    show wp env (getSlabNext s >>= _) _ _
    rw [wp_getSlabNext hsl, wp_setSlabs hs.head]
    apply wp_spec (htDestroySlab_spec hok (by exact hsl) (by exact hle))
    rintro r w₁ ⟨ho, hheads, hmark, hcase, hD⟩
    -- the head without the slab, and the slabs behind it
    have hb := ho.same h hhs
    have hhead : w₁.head h = { w.head h with slabs := (w.slab s).next } := by
      rw [hb.head]
      simp
    have hs₁ : StatsFree w₁ h := (⟨by simp, hs.counter, hs.average⟩ : StatsFree (w.setHead h _) h).congr
      (by rw [hb.hasHead]; simp) hb.locks
    have hlock₁ : w₁.locks (.table h) = .write := (hb.locks _ rfl).trans hlock
    have hsame : ∀ a ∈ ss, SameBlock w w₁ a := by
      intro a ha
      have hne : a ≠ s := fun e => (List.nodup_cons.mp hl.nodup).1 (e ▸ ha)
      have hnh : a ≠ h := fun e => hn (e ▸ List.mem_cons_of_mem _ ha)
      exact ((Only.setHead hs.head _).same a hnh).trans (ho.same a hne)
    have hl₁ : SlabList w₁ (w.slab s).next ss := by
      have hl' : SlabList w (w.slab s).next ss :=
        ⟨hl.chain.2, (List.nodup_cons.mp hl.nodup).2, fun a ha => hl.live a (List.mem_cons_of_mem _ ha),
          fun a ha => hl.marked a (List.mem_cons_of_mem _ ha)⟩
      exact hl'.same hsame
    have ho₁ : Only (fun a => a = h ∨ a ∈ s :: ss) w w₁ :=
      ((Only.setHead hs.head _).mono fun a ha => Or.inl ha).trans (ho.mono fun a ha => Or.inr (ha ▸ List.mem_cons_self))
    have hDs : SlabDestroyable env w s → SlabDestroyable env (w.setHead h { w.head h with slabs := (w.slab s).next }) s :=
      fun h => h
    rcases hcase with ⟨rfl, hgone⟩ | ⟨hr, hslabs⟩
    · rw [if_neg (by simp), wp_readTable hs₁.head]
      have rest : ∀ w₂ : World, Only (· = h) w₁ w₂ → StatsFree w₂ h → w₂.slabs = w₁.slabs →
          (w₂.head h).slabs = (w.slab s).next → (w₂.head h).old = (w.head h).old → w₂.locks (.table h) = .write →
          w₂.book.misuse = w₁.book.misuse →
          wp env (htDestroySlabs h fuel)
            (fun r w' => Only (fun a => a = h ∨ a ∈ s :: ss) w w' ∧ HeadKept w h w' ∧
              (r = 0 ∧ w'.locks (.table h) = .write ∧ (∀ a ∈ s :: ss, w'.slabs a = none) ∨
                r ≠ 0 ∧ w'.locks (.table h) = .free ∧ ∃ ss', ss' <:+ s :: ss ∧ SlabList w' (w'.head h).slabs ss' ∧
                  ∀ a ∈ s :: ss, w'.hasSlab a = true → a ∈ ss') ∧
              ((∀ a ∈ s :: ss, SlabDestroyable env w a) →
                r = 0 ∧ ((∀ a ∈ s :: ss, SlabUnlocked w a) → w'.book.misuse = w.book.misuse))) w₂ := by
        intro w₂ ho₂ hs₂ hsl₂ hhd₂ hold₂ hlock₂ hmis₂
        have hl₂ : SlabList w₂ (w₂.head h).slabs ss := by
          rw [hhd₂]
          refine hl₁.same fun a ha => ho₂.same a fun e => hn (e ▸ List.mem_cons_of_mem _ ha)
        have hsame₂ : ∀ a ∈ ss, SameBlock w w₂ a := fun a ha =>
          (hsame a ha).trans (ho₂.same a fun e => hn (e ▸ List.mem_cons_of_mem _ ha))
        refine wp_mono (ih fuel w₂ (by simpa using hfuel) hs₂ hl₂ (fun hm => hn (List.mem_cons_of_mem _ hm)) hlock₂) ?_
        rintro r w' ⟨ho', hk', hcase', hD'⟩
        refine ⟨?_, ⟨hk'.stats, hk'.old.trans hold₂⟩, ?_, fun hall => ?_⟩
        · refine (ho₁.trans (ho₂.mono fun a ha => Or.inl ha)).trans (ho'.mono fun a ha => ?_)
          exact ha.imp id (List.mem_cons_of_mem _)
        · have hgone' : w'.slabs s = none := by
            have hna : ¬(s = h ∨ s ∈ ss) := by
              rintro (e | e)
              · exact hhs e.symm
              · exact (List.nodup_cons.mp hl.nodup).1 e
            rw [(ho'.same s hna).slabs, hsl₂]
            exact hgone
          rcases hcase' with ⟨hr, hlk, hn'⟩ | ⟨hr, hlk, ss', hsuf, hl', hcov⟩
          · refine Or.inl ⟨hr, hlk, fun a ha => ?_⟩
            rcases List.mem_cons.mp ha with rfl | ha
            · exact hgone'
            · exact hn' a ha
          · refine Or.inr ⟨hr, hlk, ss', hsuf.trans (List.suffix_cons _ _), hl', fun a ha hs => ?_⟩
            rcases List.mem_cons.mp ha with rfl | ha
            · rw [World.hasSlab, hgone'] at hs
              cases hs
            · exact hcov a ha hs
        · have hall₂ : ∀ a ∈ ss, SlabDestroyable env w₂ a := by
            intro a ha
            exact (hall a (List.mem_cons_of_mem _ ha)).same (hsame₂ a ha)
          obtain ⟨hr, hm⟩ := hD' hall₂
          refine ⟨hr, fun hu => ?_⟩
          have hu₂ : ∀ a ∈ ss, SlabUnlocked w₂ a := by
            intro a ha
            exact (hu a (List.mem_cons_of_mem _ ha)).same (hsame₂ a ha)
          have h1 := (hD (hDs (hall s List.mem_cons_self))).2 (hu s List.mem_cons_self)
          exact (hm hu₂).trans (hmis₂.trans h1)
      by_cases htab : (w₁.head h).table = some s
      · rw [if_pos htab, wp_setTable hs₁.head]
        refine rest _ (Only.setHead hs₁.head _) ⟨by simp, hs₁.counter, hs₁.average⟩ rfl ?_ ?_ hlock₁ rfl
        · simp [hhead]
        · simp [hhead]
      · rw [if_neg htab]
        exact rest w₁ (Only.refl _ w₁) hs₁ rfl (by rw [hhead]) (by rw [hhead]) hlock₁ rfl
    · rw [if_pos hr, wp_getSlabs hs₁.head, hhead]
      have hsl₁ : w₁.hasSlab s = true := by rw [World.hasSlab, hslabs]; exact hsl
      rw [wp_setSlabNext hsl₁, wp_setSlabs (by exact hs₁.head)]
      refine wp_count hok ?_ fun b hb => ?_
      · exact ⟨by simp, hs₁.counter, hs₁.average⟩
      rw [wp_void]
      refine wp_lock hok (by simp [hlock₁, LockOp.proper]) fun b₂ hb₂ => ?_
      refine wp_ret.mpr ⟨?_, ⟨⟨by simp, ?_, ?_⟩, ?_⟩, Or.inr ⟨hr, by simp [LockOp.after], s :: ss, List.suffix_rfl, ?_, fun _ ha _ => ha⟩,
        fun hall => absurd (hD (hDs (hall s List.mem_cons_self))).1 hr⟩
      · refine Only.withBook ?_ b₂
        refine ((ho₁.trans ((Only.setSlab hsl₁ _).mono fun a ha => Or.inr (ha ▸ List.mem_cons_self))).trans
          ((Only.setHead (by exact hs₁.head) _).mono fun a ha => Or.inl ha)).withBook b |>.trans
          ((Only.setLock _ (.table h) _).mono fun a ha => Or.inl ha)
      · intro i
        simpa using hs₁.counter i
      · intro i
        simpa using hs₁.average i
      · simp [hhead]
      · have hslab₁ : w₁.slab s = w.slab s := by unfold World.slab; rw [hslabs]; rfl
        have hss : ∀ a ∈ ss, a ≠ s := fun a ha e => (List.nodup_cons.mp hl.nodup).1 (e ▸ ha)
        refine ⟨?_, hl.nodup, fun a ha => ?_, fun a ha j hj => ?_⟩
        · refine ⟨by simp, ?_⟩
          simp only [World.withBook_slab, World.setLock_slab, World.setHead_slab, World.setSlab_slab, ↓reduceIte]
          exact hl₁.chain.congr fun a ha => by simp [hss a ha]
        · rcases List.mem_cons.mp ha with rfl | ha
          · simp [hslab₁, hle]
          · simpa [hss a ha] using hl₁.live a ha
        · have hmk : Marked w₁ (a, j) := by
            rcases List.mem_cons.mp ha with rfl | ha
            · exact hmark _ (hl.marked a List.mem_cons_self j (by simpa [hslab₁] using hj))
            · exact hl₁.marked a ha j (by simpa [hss a ha] using hj)
          simpa [Marked] using hmk

/-! ## Heads -/

/-- The mutexes `ls` of a head destroyed. -/
theorem destroyMutexes_spec (hok : LockOk env) (ls : List LockId) : ∀ w : World, ls.Nodup →
    (∀ l ∈ ls, w.locks l = .free ∧ l.block = h) →
    wp env (destroyMutexes h ls) (fun _ w' => Only (· = h) w w' ∧ w'.heads = w.heads ∧ w'.slabs = w.slabs ∧
      w'.book.misuse = w.book.misuse ∧ ∀ l, l ∉ ls → w'.locks l = w.locks l) w := by
  induction ls with
  | nil =>
    intro w _ _
    exact wp_ret.mpr ⟨Only.refl _ w, rfl, rfl, rfl, fun _ _ => rfl⟩
  | cons l ls ih =>
    intro w hnd hl
    obtain ⟨hfree, hblock⟩ := hl l List.mem_cons_self
    rw [List.nodup_cons] at hnd
    unfold destroyMutexes destroyMutex
    rw [Prog.bind_assoc]
    refine wp_lock hok (by rw [hfree]; rfl) fun b hb => ?_
    simp only [onFail_zero, LockOp.after]
    refine wp_mono (ih _ hnd.2 fun k hk => ?_) ?_
    · have hne : k ≠ l := fun e => hnd.1 (e ▸ hk)
      simpa [hne] using hl k (List.mem_cons_of_mem _ hk)
    · rintro _ w' ⟨ho, hh, hs, hm, hlocks⟩
      refine ⟨?_, hh, hs, hm.trans hb.misuse, fun k hk => ?_⟩
      · exact (((Only.setLock w l _).mono fun a ha => ha.trans hblock).withBook b).trans ho
      · rw [List.mem_cons, not_or] at hk
        rw [hlocks k hk.2]
        simp [hk.1]

/-- The locks of a head destroyed, and the head freed. -/
theorem htDestroyLocks_spec (hok : LockOk env) (hs : StatsFree w h) (hl : w.locks (.table h) = .write) :
    wp env (htDestroyLocks h) (fun r w' => r = 0 ∧ Only (· = h) w w' ∧ w'.heads h = none ∧ w'.slabs = w.slabs ∧
      w'.book.misuse = w.book.misuse) w := by
  unfold htDestroyLocks
  rw [wp_setErrno]
  refine wp_spec (destroyMutexes_spec hok (statMutexes h) _ (by simp [statMutexes]) fun l hm => ?_) ?_
  · simp only [statMutexes, List.mem_cons, List.not_mem_nil, or_false] at hm
    rcases hm with rfl | rfl | rfl | rfl | rfl | rfl | rfl | rfl | rfl
    all_goals first | exact ⟨hs.counter _, rfl⟩ | exact ⟨hs.average _, rfl⟩
  · rintro _ w₁ ⟨ho, hh, hsl, hm, hlocks⟩
    have htab : w₁.locks (.table h) = .write := (hlocks _ (by simp [statMutexes])).trans hl
    have herr : w₁.locks (.counter h .errors) = .free := (hlocks _ (by simp [statMutexes])).trans (hs.counter _)
    have hhead : w₁.hasHead h = true := by rw [World.hasHead, hh]; exact hs.head
    refine wp_lock hok (by rw [htab]; rfl) fun b hb => ?_
    simp only [ne_eq, not_true_eq_false, ↓reduceIte]
    refine wp_lock hok (by simp [LockOp.proper, LockOp.after]) fun b' hb' => ?_
    simp only [not_true_eq_false, ↓reduceIte]
    refine wp_lock hok (by simp [herr, LockOp.proper]) fun b'' hb'' => ?_
    simp only [not_true_eq_false, ↓reduceIte]
    rw [wp_freeHead (by simpa using hhead)]
    refine wp_ret.mpr ⟨rfl, ?_, by simp, by simpa using hsl, hb''.misuse.trans (hb'.misuse.trans (hb.misuse.trans hm))⟩
    have h1 : Only (· = h) w w₁ := ((Only.refl _ w).withBook _).trans ho
    have h2 := ((h1.trans (Only.setLock _ (.table h) LockOp.unlock.after)).withBook b).trans
      (Only.setLock _ (.table h) LockOp.destroy.after)
    have h3 := ((h2.withBook b').trans (Only.setLock _ (.counter h .errors) LockOp.destroy.after)).withBook b''
    exact h3.trans (Only.dropHead _ h)

/-! ## The list of old tables -/

/-- A head on the list of old tables, with its slabs. -/
structure OldTable (w : World) (a : Addr) (ss : List Addr) : Prop where
  stats : StatsFree w a
  lock : w.locks (.table a) = .free
  slabs : SlabList w (w.head a).slabs ss

/-- The blocks of a list of tables. -/
def blocksOf (P : List (Addr × List Addr)) : List Addr := P.flatMap fun x => x.1 :: x.2

/-- The tables `P` in the order of `ht->old`. -/
structure OldChain (w : World) (p : Option Addr) (P : List (Addr × List Addr)) : Prop where
  chain : Chain (fun a => (w.head a).old) p (P.map Prod.fst)
  tables : ∀ x ∈ P, OldTable w x.1 x.2
  nodup : (blocksOf P).Nodup

theorem mem_blocksOf {P : List (Addr × List Addr)} {a : Addr} : a ∈ blocksOf P ↔ ∃ x ∈ P, a = x.1 ∨ a ∈ x.2 := by
  simp [blocksOf]

theorem OldTable.same {a : Addr} {ss : List Addr} (ht : OldTable w a ss)
    (hs : ∀ b, b ∈ a :: ss → SameBlock w w' b) : OldTable w' a ss := by
  have ha := hs a List.mem_cons_self
  refine ⟨ht.stats.congr (ha.hasHead.trans ht.stats.head) ha.locks, (ha.locks _ rfl).trans ht.lock, ?_⟩
  rw [ha.head]
  exact ht.slabs.same fun s hm => hs s (List.mem_cons_of_mem _ hm)

theorem OldChain.same {p : Option Addr} {P : List (Addr × List Addr)} (hc : OldChain w p P)
    (hs : ∀ b ∈ blocksOf P, SameBlock w w' b) : OldChain w' p P := by
  have hmem : ∀ x ∈ P, ∀ b ∈ x.1 :: x.2, b ∈ blocksOf P := fun x hx b hb =>
    mem_blocksOf.mpr ⟨x, hx, List.mem_cons.mp hb⟩
  refine ⟨hc.chain.congr fun a ha => ?_, fun x hx => (hc.tables x hx).same fun b hb => hs b (hmem x hx b hb), hc.nodup⟩
  obtain ⟨x, hx, rfl⟩ := List.mem_map.mp ha
  rw [(hs x.1 (hmem x hx _ List.mem_cons_self)).head]

theorem htDestroyHead_spec (hok : LockOk env) {a : Addr} {ss : List Addr} (hs : StatsFree w a)
    (hl : SlabList w (w.head a).slabs ss) (hn : a ∉ ss) (hlen : ss.length ≤ w.mallocs) (hlock : w.locks (.table a) = .write) :
    wp env (htDestroyHead a)
      (fun r w' => Only (· ∈ a :: ss) w w' ∧
        (r = 0 ∧ w'.heads a = none ∧ (∀ s ∈ ss, w'.slabs s = none) ∨
          r ≠ 0 ∧ (w'.head a).old = none ∧ ∃ ss', ss' <:+ ss ∧ OldTable w' a ss' ∧
            ∀ s ∈ ss, w'.hasSlab s = true → s ∈ ss') ∧
        ((∀ s ∈ ss, SlabDestroyable env w s) →
          r = 0 ∧ ((∀ s ∈ ss, SlabUnlocked w s) → w'.book.misuse = w.book.misuse))) w := by
  unfold htDestroyHead
  rw [wp_setOld hs.head, wp_bound]
  have hs₁ : StatsFree (w.setHead a { w.head a with old := none }) a := ⟨by simp, hs.counter, hs.average⟩
  have ho₁ := Only.setHead hs.head { w.head a with old := none }
  refine wp_spec (htDestroySlabs_spec hok ss _ _ ?_ hs₁ ?_ hn hlock) ?_
  · show ss.length < w.cells + w.mallocs + 1
    omega
  · simp only [World.setHead_head, ↓reduceIte]
    exact ⟨hl.chain, hl.nodup, hl.live, hl.marked⟩
  rintro r w₂ ⟨ho₂, hk₂, hcase, hD⟩
  have ho : Only (· ∈ a :: ss) w w₂ := (ho₁.mono fun x hx => by simp [show x = a from hx]).trans
    (ho₂.mono fun x hx => List.mem_cons.mpr hx)
  rcases hcase with ⟨rfl, hlk, hgone⟩ | ⟨hr, hlk, ss', hsuf, hl', hcov⟩
  · rw [if_neg (by simp)]
    apply wp_mono (htDestroyLocks_spec hok hk₂.stats hlk)
    rintro r w' ⟨rfl, ho', hh', hsl', hm'⟩
    refine ⟨ho.trans (ho'.mono fun x hx => by simp [show x = a from hx]), Or.inl ⟨rfl, hh', fun s hm => ?_⟩, fun hall => ?_⟩
    · rw [hsl']
      exact hgone s hm
    · exact ⟨rfl, fun hu => hm'.trans ((hD hall).2 hu)⟩
  · rw [if_pos hr]
    have hold : (w₂.head a).old = none := by
      rw [hk₂.old]
      simp
    exact wp_ret.mpr ⟨ho, Or.inr ⟨hr, hold, ss', hsuf, ⟨hk₂.stats, hlk, hl'⟩, hcov⟩, hD⟩

/-- Of the blocks of `P` only those of `P'` are still allocated. -/
structure LeftOf (w : World) (P P' : List (Addr × List Addr)) : Prop where
  heads : ∀ x ∈ P, w.hasHead x.1 = true → x.1 ∈ P'.map Prod.fst
  slabs : ∀ x ∈ P, ∀ s ∈ x.2, w.hasSlab s = true → ∃ y ∈ P', s ∈ y.2
  blocks : (blocksOf P').Sublist (blocksOf P)

/-- What `ht_destroy` leaves of the tables `P`: nothing, or the part of the list it could not free. -/
structure Destroyed (env : Env) (w : World) (P : List (Addr × List Addr)) (r : Int) (w' : World) : Prop where
  only : Only (· ∈ blocksOf P) w w'
  rest : r = 0 ∧ (∀ x ∈ P, w'.heads x.1 = none ∧ ∀ s ∈ x.2, w'.slabs s = none) ∨
    r ≠ 0 ∧ ∃ P', OldChain w' (P.head?.map Prod.fst) P' ∧ LeftOf w' P P'
  success : (∀ x ∈ P, ∀ s ∈ x.2, SlabDestroyable env w s) →
    r = 0 ∧ ((∀ x ∈ P, ∀ s ∈ x.2, SlabUnlocked w s) → w'.book.misuse = w.book.misuse)

/-- The head `a` once the tables `P` behind it are gone. -/
theorem destroyed_of_rest (hok : LockOk env) {P : List (Addr × List Addr)} {a : Addr} {ss : List Addr}
    (hc : OldChain w (some a) ((a, ss) :: P)) (hlen : ss.length ≤ w.mallocs)
    (ho : Only (fun b => b = a ∨ b ∈ blocksOf P) w w₁) (hhead : w₁.head a = w.head a) (hs : StatsFree w₁ a)
    (hlock : w₁.locks (.table a) = .write) (hgone : ∀ x ∈ P, w₁.heads x.1 = none ∧ ∀ s ∈ x.2, w₁.slabs s = none)
    (hmis : (∀ x ∈ P, ∀ s ∈ x.2, SlabDestroyable env w s) → (∀ x ∈ P, ∀ s ∈ x.2, SlabUnlocked w s) →
      w₁.book.misuse = w.book.misuse) :
    wp env (htDestroyHead a) (Destroyed env w ((a, ss) :: P)) w₁ := by
  have hta := hc.tables (a, ss) List.mem_cons_self
  have hnd : a ∉ ss ∧ a ∉ blocksOf P ∧ (∀ s ∈ ss, s ∉ blocksOf P) := by
    have h1 : (a :: ss ++ blocksOf P).Nodup := hc.nodup
    rw [List.cons_append, List.nodup_cons, List.mem_append, not_or, List.nodup_append] at h1
    exact ⟨h1.1.1, h1.1.2, fun s hs hm => h1.2.2.2 s hs s hm rfl⟩
  have hsame : ∀ s ∈ ss, SameBlock w w₁ s := by
    intro s hm
    apply ho.same s
    rintro (rfl | h)
    · exact hnd.1 hm
    · exact hnd.2.2 s hm h
  have hl : SlabList w₁ (w₁.head a).slabs ss := by
    rw [hhead]
    exact hta.slabs.same hsame
  apply wp_mono (htDestroyHead_spec hok hs hl hnd.1 (by rw [ho.mallocs]; exact hlen) hlock)
  rintro r w' ⟨ho', hcase, hD⟩
  have hout : ∀ x ∈ P, ∀ b ∈ x.1 :: x.2, b ∉ a :: ss := by
    intro x hx b hb hm
    have hbP : b ∈ blocksOf P := mem_blocksOf.mpr ⟨x, hx, List.mem_cons.mp hb⟩
    rcases List.mem_cons.mp hm with rfl | hm
    · exact hnd.2.1 hbP
    · exact hnd.2.2 b hm hbP
  refine ⟨?_, ?_, fun hall => ?_⟩
  · refine (ho.mono fun b hb => ?_).trans (ho'.mono fun b hb => ?_)
    · rcases hb with rfl | hb
      · exact List.mem_cons_self
      · exact List.mem_append_right (a :: ss) hb
    · exact List.mem_append_left (blocksOf P) hb
  · have hgone' : ∀ x ∈ P, w'.heads x.1 = none ∧ ∀ s ∈ x.2, w'.slabs s = none := by
      refine fun x hx => ⟨?_, fun s hm => ?_⟩
      · rw [(ho'.same x.1 (hout x hx _ List.mem_cons_self)).heads]
        exact (hgone x hx).1
      · rw [(ho'.same s (hout x hx s (List.mem_cons_of_mem _ hm))).slabs]
        exact (hgone x hx).2 s hm
    rcases hcase with ⟨hr, hh, hsl⟩ | ⟨hr, hold, ss', hsuf, ht', hcov⟩
    · refine Or.inl ⟨hr, fun x hx => ?_⟩
      rcases List.mem_cons.mp hx with rfl | hx
      · exact ⟨hh, hsl⟩
      · exact hgone' x hx
    · have hsub : (blocksOf [(a, ss')]).Sublist (blocksOf ((a, ss) :: P)) := by
        show (a :: ss' ++ []).Sublist (a :: ss ++ blocksOf P)
        rw [List.append_nil]
        exact ((hsuf.sublist.cons_cons a).trans (List.sublist_append_left _ _))
      refine Or.inr ⟨hr, [(a, ss')], ⟨⟨rfl, hold⟩, fun x hx => ?_, hc.nodup.sublist hsub⟩,
        ⟨fun x hx hm => ?_, fun x hx s hs hm => ?_, hsub⟩⟩
      · rw [List.mem_singleton] at hx
        subst hx
        exact ht'
      · rcases List.mem_cons.mp hx with rfl | hx
        · exact List.mem_singleton.mpr rfl
        · rw [World.hasHead, (hgone' x hx).1] at hm
          cases hm
      · rcases List.mem_cons.mp hx with rfl | hx
        · exact ⟨_, List.mem_singleton.mpr rfl, hcov s hs hm⟩
        · rw [World.hasSlab, (hgone' x hx).2 s hs] at hm
          cases hm
  · have hss : ∀ s ∈ ss, SlabDestroyable env w₁ s := fun s hm =>
      (hall (a, ss) List.mem_cons_self s hm).same (hsame s hm)
    refine ⟨(hD hss).1, fun hu => ?_⟩
    have hP : ∀ x ∈ P, ∀ s ∈ x.2, SlabDestroyable env w s := fun x hx => hall x (List.mem_cons_of_mem _ hx)
    refine ((hD hss).2 fun s hm => ?_).trans (hmis hP fun x hx => hu x (List.mem_cons_of_mem _ hx))
    exact (hu (a, ss) List.mem_cons_self s hm).same (hsame s hm)

theorem htDestroyFrom_spec (hok : LockOk env) (P : List (Addr × List Addr)) : ∀ (a : Addr) (ss : List Addr) (fuel : Nat)
    (w : World), P.length < fuel → OldChain w (some a) ((a, ss) :: P) → (∀ x ∈ (a, ss) :: P, x.2.length ≤ w.mallocs) →
    wp env (htDestroyFrom fuel a) (Destroyed env w ((a, ss) :: P)) w := by
  induction P with
  | nil =>
    intro a ss fuel w hfuel hc hlen
    obtain ⟨fuel, rfl⟩ : ∃ n, fuel = n + 1 := ⟨fuel - 1, by simp at hfuel; omega⟩
    have hta := hc.tables (a, ss) List.mem_cons_self
    have hold : (w.head a).old = none := hc.chain.2
    unfold htDestroyFrom
    refine wp_lock hok (by rw [hta.lock]; rfl) fun b hb => ?_
    rw [wp_setErrno]
    simp only [ne_eq, not_true_eq_false, ↓reduceIte]
    rw [wp_getOld (by exact hta.stats.head)]
    simp only [World.withBook_head, World.setLock_head, hold, LockOp.after, World.withBook_withBook]
    show wp env (htDestroyHead a) _ _
    refine destroyed_of_rest hok hc (hlen _ List.mem_cons_self) ?_ rfl ?_ (by simp) (by simp) fun _ _ => hb.misuse
    · exact ((Only.setLock w (.table a) .write).mono fun x hx => Or.inl hx).withBook _
    · exact (hta.stats.setLock (Or.inl (Or.inl rfl)) _).withBook _
  | cons x P ih =>
    intro a ss fuel w hfuel hc hlen
    obtain ⟨fuel, rfl⟩ : ∃ n, fuel = n + 1 := ⟨fuel - 1, by simp at hfuel; omega⟩
    obtain ⟨o, so⟩ := x
    have hta := hc.tables (a, ss) List.mem_cons_self
    have hold : (w.head a).old = some o := hc.chain.2.1
    unfold htDestroyFrom
    refine wp_lock hok (by rw [hta.lock]; rfl) fun b hb => ?_
    rw [wp_setErrno]
    simp only [ne_eq, not_true_eq_false, ↓reduceIte]
    rw [wp_getOld (by exact hta.stats.head)]
    simp only [World.withBook_head, World.setLock_head, hold, LockOp.after, World.withBook_withBook]
    -- the older tables, with the lock of `a` held
    have hnd : a ∉ ss ∧ a ∉ blocksOf ((o, so) :: P) := by
      have h1 : (a :: ss ++ blocksOf ((o, so) :: P)).Nodup := hc.nodup
      rw [List.cons_append, List.nodup_cons, List.mem_append, not_or] at h1
      exact h1.1
    have hlk : Only (· = a) w (w.setLock (.table a) .write) := Only.setLock w (.table a) .write
    have hlk' := hlk.withBook { b with errno := 0 }
    have hP : OldChain ((w.setLock (.table a) .write).withBook { b with errno := 0 }) (some o) ((o, so) :: P) := by
      have h1 : OldChain w (some o) ((o, so) :: P) := by
        refine ⟨?_, fun x hx => hc.tables x (List.mem_cons_of_mem _ hx), ?_⟩
        · rw [← hold]
          exact hc.chain.2
        · exact hc.nodup.sublist (List.sublist_append_right (a :: ss) _)
      exact h1.same fun x hx => hlk'.same x fun e => hnd.2 (e ▸ hx)
    refine wp_spec (ih o so fuel _ (by simpa using hfuel) hP fun x hx => hlen x (List.mem_cons_of_mem _ hx)) ?_
    rintro r w₁ ⟨ho, hrest, hD⟩
    have hsa := ho.same a hnd.2
    have hs₁ : StatsFree w₁ a :=
      ((hta.stats.setLock (Or.inl (Or.inl rfl)) .write).withBook _).congr (hsa.hasHead.trans hta.stats.head) hsa.locks
    have hlock₁ : w₁.locks (.table a) = .write := (hsa.locks _ rfl).trans (by simp)
    have hhead₁ : w₁.head a = w.head a := hsa.head
    have ho₁ : Only (fun b => b = a ∨ b ∈ blocksOf ((o, so) :: P)) w w₁ :=
      (hlk'.mono fun x hx => Or.inl hx).trans (ho.mono fun x hx => Or.inr hx)
    have hsame : ∀ x ∈ (o, so) :: P, ∀ s ∈ x.2, SameBlock w ((w.setLock (.table a) .write).withBook { b with errno := 0 }) s :=
      fun x hx s hm => hlk'.same s fun e => hnd.2 (e ▸ mem_blocksOf.mpr ⟨x, hx, Or.inr hm⟩)
    rcases hrest with ⟨rfl, hgone⟩ | ⟨hr, P', hP', hleft⟩
    · rw [if_neg (by simp)]
      refine destroyed_of_rest hok hc (hlen _ List.mem_cons_self) ho₁ hhead₁ hs₁ hlock₁ hgone fun hall hu => ?_
      refine ((hD fun x hx s hm => (hall x hx s hm).same (hsame x hx s hm)).2 fun x hx s hm => ?_).trans hb.misuse
      exact (hu x hx s hm).same (hsame x hx s hm)
    · rw [if_pos (by simpa using hr), wp_void]
      refine wp_lock hok (by rw [hlock₁]; rfl) fun b₂ hb₂ => ?_
      have hlk₂ : Only (· = a) w₁ ((w₁.setLock (.table a) .free).withBook b₂) :=
        (Only.setLock w₁ (.table a) .free).withBook b₂
      refine wp_ret.mpr ⟨?_, Or.inr ⟨hr, (a, ss) :: P', ⟨?_, fun x hx => ?_, ?_⟩, ⟨fun x hx hm => ?_, fun x hx s hs hm => ?_, ?_⟩⟩,
        fun hall => ?_⟩
      · refine (ho₁.trans (hlk₂.mono fun x hx => Or.inl hx)).mono fun x hx => ?_
        rcases hx with rfl | hx
        · exact List.mem_cons_self
        · exact List.mem_append_right (a :: ss) hx
      · refine ⟨rfl, ?_⟩
        have hoa : (((w₁.setLock (.table a) .free).withBook b₂).head a).old = some o := by
          show (w₁.head a).old = some o
          rw [hhead₁, hold]
        show Chain _ (((w₁.setLock (.table a) .free).withBook b₂).head a).old _
        rw [hoa]
        exact hP'.chain
      · rcases List.mem_cons.mp hx with rfl | hx
        · refine ⟨(hs₁.setLock (Or.inl (Or.inl rfl)) _).withBook _, by simp [LockOp.after], ?_⟩
          show SlabList _ (w₁.head a).slabs ss
          rw [hhead₁]
          refine hta.slabs.same fun s hm => ?_
          have hns : ¬(s = a ∨ s ∈ blocksOf ((o, so) :: P)) := by
            rintro (rfl | h)
            · exact hnd.1 hm
            · have h1 : (a :: ss ++ blocksOf ((o, so) :: P)).Nodup := hc.nodup
              exact (List.nodup_append.mp h1).2.2 s (List.mem_cons_of_mem _ hm) s h rfl
          exact (ho₁.same s hns).trans (hlk₂.same s fun e => hns (Or.inl e))
        · refine (hP'.tables x hx).same fun y hy => hlk₂.same y fun e => hnd.2 ?_
          exact hleft.blocks.subset (e ▸ mem_blocksOf.mpr ⟨x, hx, List.mem_cons.mp hy⟩)
      · exact hc.nodup.sublist (List.Sublist.append (List.Sublist.refl (a :: ss)) hleft.blocks)
      · rcases List.mem_cons.mp hx with rfl | hx
        · exact List.mem_cons_self
        · exact List.mem_cons_of_mem _ (hleft.heads x hx hm)
      · rcases List.mem_cons.mp hx with rfl | hx
        · exact ⟨_, List.mem_cons_self, hs⟩
        · obtain ⟨y, hy, hsy⟩ := hleft.slabs x hx s hs hm
          exact ⟨y, List.mem_cons_of_mem _ hy, hsy⟩
      · exact List.Sublist.append (List.Sublist.refl (a :: ss)) hleft.blocks
      · refine absurd (hD fun x hx s hm => ?_).1 hr
        exact (hall x (List.mem_cons_of_mem _ hx) s hm).same (hsame x hx s hm)

/-- The heads on a list of old tables are distinct blocks. -/
theorem OldChain.length_le {p : Option Addr} {P : List (Addr × List Addr)} (hw : w.Fresh) (hc : OldChain w p P) :
    P.length ≤ w.mallocs ∧ ∀ x ∈ P, x.2.length ≤ w.mallocs := by
  have hbound : ∀ l : List Addr, l.Nodup → (∀ a ∈ l, a < w.mallocs) → l.length ≤ w.mallocs := by
    intro l hnd hlt
    have hle := (List.subperm_of_subset hnd fun a ha => List.mem_range.mpr (hlt a ha)).length_le
    rwa [List.length_range] at hle
  refine ⟨?_, fun x hx => ?_⟩
  · have hsub : (P.map Prod.fst).Sublist (blocksOf P) := by
      have hall : ∀ Q : List (Addr × List Addr), (Q.map Prod.fst).Sublist (blocksOf Q) := by
        intro Q
        induction Q with
        | nil => exact List.Sublist.refl _
        | cons y Q ih => exact (ih.trans (List.sublist_append_right y.2 _)).cons_cons y.1
      exact hall P
    have h1 := hbound (P.map Prod.fst) (hc.nodup.sublist hsub) fun a ha => ?_
    · rwa [List.length_map] at h1
    · obtain ⟨x, hx, rfl⟩ := List.mem_map.mp ha
      exact hw.head_lt (hc.tables x hx).stats.head
  · exact hbound x.2 (hc.tables x hx).slabs.nodup fun s hm => hw.slab_lt ((hc.tables x hx).slabs.live s hm).1

theorem htDestroy_spec (hok : LockOk env) (hw : w.Fresh) {a : Addr} {ss : List Addr} {P : List (Addr × List Addr)}
    (hc : OldChain w (some a) ((a, ss) :: P)) : wp env (htDestroy a) (Destroyed env w ((a, ss) :: P)) w := by
  obtain ⟨h1, h2⟩ := hc.length_le hw
  unfold htDestroy
  rw [wp_bound]
  refine htDestroyFrom_spec hok P a ss _ w ?_ hc h2
  rw [List.length_cons] at h1
  omega

end ZfsTest.Hashtable
