import ZfsTest.Hashtable.Locate

/-!
# Inserting

`ht_insert_key` fills a vacant bucket head, or hangs an entry of the free chain behind the head. An empty free chain is
first filled from a new slab (`World.grow`, `takeFree_spec`). The outcomes of a call are those of `Inserted`
(`insertKeyWith_spec`): the memory changes by `World.linked` or by filling the head, and by nothing else.
-/

namespace ZfsTest.Hashtable

open Prog

variable {c : Conf} {env : Env} {w w' : World} {h : Addr} {S : Shape}

/-! ## The search for a duplicate -/

theorem insertWalk_spec {key len : Nat} {dups : Bool} (l : List EntryPtr) : ∀ (fuel depth : Nat) (p : Option EntryPtr),
    l.length < fuel → Chain (nextOf w.ents) p l → (∀ q ∈ l, w.valid q = true) →
    wp env (insertWalk c key len dups fuel depth p)
      (fun r w' => w' = w ∧ (r.2 = true ↔ dups = false ∧ ∃ q ∈ l, Matches c len key w.ents q)) w := by
  induction l with
  | nil =>
    intro fuel depth p hfuel hch _
    obtain ⟨fuel, rfl⟩ : ∃ n, fuel = n + 1 := ⟨fuel - 1, by simp at hfuel; omega⟩
    rw [chain_nil] at hch
    subst hch
    unfold insertWalk
    exact wp_ret.mpr ⟨rfl, by simp⟩
  | cons q l ih =>
    intro fuel depth p hfuel hch hv
    obtain ⟨fuel, rfl⟩ : ∃ n, fuel = n + 1 := ⟨fuel - 1, by simp at hfuel; omega⟩
    obtain ⟨rfl, hch⟩ := hch
    have hq := hv q List.mem_cons_self
    have hrest := ih fuel (depth + 1) (nextOf w.ents q) (by simpa using hfuel) hch fun a ha =>
      hv a (List.mem_cons_of_mem _ ha)
    unfold insertWalk
    cases dups with
    | true =>
      simp only [Bool.not_true, Bool.false_eq_true, ↓reduceIte]
      rw [wp_getNext hq]
      apply wp_mono hrest
      rintro r w' ⟨rfl, hr⟩
      exact ⟨rfl, by simpa using hr⟩
    | false =>
      simp only [Bool.not_false, ↓reduceIte]
      rw [wp_getKey hq]
      by_cases hm : Matches c len key w.ents q
      · have hcmp : c.keyCompare (w.ents q).key key len = 0 := by
          by_contra hne
          exact keyCompare_ne_zero.mp hne hm
        rw [if_pos hcmp]
        exact wp_ret.mpr ⟨rfl, by simp [hm]⟩
      · rw [if_neg (keyCompare_ne_zero.mpr hm), wp_getNext hq]
        apply wp_mono hrest
        rintro r w' ⟨rfl, hr⟩
        exact ⟨rfl, by simpa [hm] using hr⟩

/-! ## A new slab -/

/-- Entries `0, …, i - 1` of slab `s` put before the free chain. -/
def World.dangled (w : World) (h s : Addr) (i : Nat) : World :=
  { w.setHead h { w.head h with freechain := if i = 0 then (w.head h).freechain else some (s, 0) } with
    ents := fun p => if p.1 = s ∧ p.2 < i then
      { w.ents p with next := if p.2 + 1 = i then (w.head h).freechain else some (s, p.2 + 1) } else w.ents p }

theorem dangle_spec {s : Addr} (i : Nat) : ∀ w : World, w.hasHead h = true → (∀ j, j < i → w.valid (s, j) = true) →
    wp env (dangle h s i) (fun _ w' => w' = w.dangled h s i) w := by
  induction i with
  | zero =>
    intro w hh _
    apply wp_ret.mpr
    refine World.ext (funext fun a => ?_) rfl (funext fun p => ?_) rfl rfl rfl rfl rfl
    · by_cases ha : a = h
      · subst ha
        simp [World.dangled, World.heads_eq hh]
      · simp [World.dangled, ha]
    · simp [World.dangled]
  | succ i ih =>
    intro w hh hv
    unfold dangle
    rw [wp_getFreechain hh, wp_setNext (hv i (Nat.lt_succ_self i)), wp_setFreechain (by exact hh)]
    refine wp_mono (ih _ (by simp) fun j hj => hv j (by omega)) ?_
    rintro _ w' rfl
    unfold World.dangled
    simp only [World.setHead_head, ↓reduceIte, World.setHead_setHead]
    unfold World.setHead World.setEnt
    congr 1
    · funext a
      by_cases ha : a = h
      · subst ha
        by_cases hi : i = 0
        · simp [hi, World.head]
        · simp [hi, World.head]
      · simp [ha]
    · funext p
      obtain ⟨a, j⟩ := p
      by_cases ha : a = s
      · subst ha
        by_cases hj : j = i
        · simp [hj]
        · by_cases hlt : j < i
          · have h1 : j < i + 1 := by omega
            by_cases he : j + 1 = i
            · simp [hj, hlt, h1, he]
            · simp [hj, hlt, h1, he]
          · have h1 : ¬j < i + 1 := by omega
            simp [hj, hlt, h1]
      · simp [ha]

/-- A slab of `n` vacant entries added to the table of `h`. -/
def World.grow (w : World) (h : Addr) (n : Nat) : World :=
  { w.setHead h { w.head h with
      slabs := some w.mallocs, freechain := if n = 0 then (w.head h).freechain else some (w.mallocs, 0) } with
    slabs := fun a => if a = w.mallocs then some ⟨(w.head h).slabs, n, n⟩ else w.slabs a
    ents := fun p => if p.1 = w.mallocs ∧ p.2 < n then
      { Entry.blank with next := if p.2 + 1 = n then (w.head h).freechain else some (w.mallocs, p.2 + 1) } else w.ents p
    locks := fun l => match l with
      | .entry p => if p.1 = w.mallocs ∧ p.2 < n then .free else w.locks (.entry p)
      | l => w.locks l
    mallocs := w.mallocs + 1
    cells := w.cells + n }

/-- A new slab, hung into the slab list and dangled from the free chain. -/
theorem World.dangled_newSlab (w : World) (h : Addr) (n : Nat) (next : Option Addr) :
    (((w.newSlab n next).setSlab w.mallocs ⟨(w.head h).slabs, n, n⟩).setHead h
      { w.head h with slabs := some w.mallocs }).dangled h w.mallocs n = w.grow h n := by
  refine World.ext (funext fun a => ?_) (funext fun a => ?_) (funext fun p => ?_) rfl rfl rfl rfl rfl
  · by_cases ha : a = h
    · simp [dangled, grow, newSlab, ha]
    · simp [dangled, grow, newSlab, ha]
  · by_cases ha : a = w.mallocs
    · simp [dangled, grow, newSlab, setHead, setSlab, ha]
    · simp [dangled, grow, newSlab, setHead, setSlab, ha]
  · by_cases hp : p.1 = w.mallocs ∧ p.2 < n
    · simp [dangled, grow, newSlab, hp]
    · simp [dangled, grow, newSlab, hp]

/-- What `takeFree` leaves: the first free entry, of the free chain `fl` as it was or of a new slab of `n` entries. -/
inductive Taken (env : Env) (w : World) (h : Addr) (n : Nat) (fl : List EntryPtr) : Option EntryPtr → World → Prop
  | first (o : EntryPtr) (fs : List EntryPtr) (hf : fl = o :: fs) : Taken env w h n fl (some o) w
  | failed (b : Book) (hf : fl = []) (hm : env.malloc w.mallocs = none) (hb : b.misuse = w.book.misuse) :
      Taken env w h n fl none (w.noMalloc.withBook b)
  | grown (b : Book) (hf : fl = []) (hm : env.malloc w.mallocs ≠ none) (hb : b.misuse = w.book.misuse) :
      Taken env w h n fl (some (w.mallocs, 0)) ((w.grow h n).withBook b)

theorem takeFree_spec (hok : LockOk env) (hw : w.Fresh) (hs : StatsFree w h) {t : Addr} {n : Nat} {fl : List EntryPtr}
    (htab : (w.head h).table = some t) (ht : w.hasSlab t = true) (hcount : (w.slab t).entrycount = n) (hn : n ≠ 0)
    (hfl : Chain (nextOf w.ents) (w.head h).freechain fl) : wp env (takeFree h 2) (Taken env w h n fl) w := by
  unfold takeFree
  rw [wp_getFreechain hs.head]
  cases fl with
  | cons o fs =>
    rw [hfl.1]
    exact wp_ret.mpr (.first o fs rfl)
  | nil =>
    rw [chain_nil] at hfl
    rw [hfl]
    show wp env (getTable h .count >>= _) _ _
    rw [wp_getTable hs.head htab, wp_getEntrycount ht, hcount]
    apply wp_spec (htCreateSlab_spec hok hw n)
    rintro r w' ⟨b, hb, ⟨rfl, ⟨h0, -⟩ | ⟨-, hm, rfl⟩⟩ | ⟨-, f, hm, rfl, rfl⟩⟩
    · exact absurd h0 hn
    · exact wp_ret.mpr (.failed b rfl hm hb)
    · have hs₁ : StatsFree ((w.newSlab n f.next).withBook b) h := ⟨hs.head, hs.counter, hs.average⟩
      refine wp_count hok hs₁ fun b₁ hb₁ => ?_
      rw [wp_getSlabs (by exact hs.head), wp_setSlabNext (by simp [World.newSlab, World.hasSlab]),
        wp_setSlabs (by exact hs.head), wp_getEntrycount (by simp)]
      have hsl : (w.newSlab n f.next).slab w.mallocs = ⟨f.next, n, n⟩ := by simp [World.newSlab, World.slab]
      simp only [World.setHead_slab, World.withBook_setSlab, World.withBook_setHead, World.withBook_slab,
        World.setSlab_slab, ↓reduceIte, hsl]
      refine wp_spec (dangle_spec n _ (by simp) ?_) ?_
      · intro j hj
        simpa [World.valid] using hj
      rintro _ w' rfl
      have hgrow : ((((w.newSlab n f.next).setSlab w.mallocs ⟨(w.head h).slabs, n, n⟩).setHead h
          { w.head h with slabs := some w.mallocs }).dangled h w.mallocs n).withBook b₁ =
          (w.grow h n).withBook b₁ := by rw [World.dangled_newSlab]
      have hs₂ : StatsFree (w.grow h n) h := ⟨by simp [World.grow, World.hasHead], hs.counter, hs.average⟩
      have hfc : ((w.grow h n).head h).freechain = some (w.mallocs, 0) := by simp [World.grow, World.head, hn]
      refine Eq.mpr (congrArg _ hgrow) ?_
      rw [wp_getAverage (by exact hs₂.head)]
      refine wp_update hok (by exact hs₂.withBook _) fun b₂ hb₂ => ?_
      rw [takeFree, wp_getFreechain (by exact hs₂.head)]
      simp only [World.withBook_head, World.setStats_eq, hfc]
      exact wp_ret.mpr (.grown b₂ rfl (by rw [hm]; simp) (hb₂.misuse.trans (hb₁.misuse.trans hb)))

theorem World.grow_setLock {l : LockId} (hl : l.block ≠ w.mallocs) (st : LockState) (n : Nat) :
    (w.setLock l st).grow h n = (w.grow h n).setLock l st := by
  refine World.ext rfl rfl rfl (funext fun k => ?_) rfl rfl rfl rfl
  by_cases hk : k = l
  · subst hk
    cases k with
    | entry p =>
      have hne : p.1 ≠ w.mallocs := hl
      simp [World.grow, World.setLock, hne]
    | _ => simp [World.grow, World.setLock]
  · cases k with
    | entry p => simp [World.grow, World.setLock, hk]
    | _ => simp [World.grow, World.setLock, hk]

theorem Frame.grow : Frame (Blocks h S) w (w.grow h S.count) := by
  refine ⟨fun a ha hn => ⟨?_, ?_, fun i => ?_, fun l hl => ?_⟩, Nat.le_succ _, Nat.le_add_right _ _⟩
  · have hne : a ≠ h := fun e => hn (Or.inl e)
    simp [World.grow, hne]
  · have hne : a ≠ w.mallocs := Nat.ne_of_lt ha
    simp [World.grow, hne]
  · have hne : a ≠ w.mallocs := Nat.ne_of_lt ha
    simp [World.grow, hne]
  · cases l with
    | entry p =>
      have hne : p.1 ≠ w.mallocs := by
        rw [show p.1 = a from hl]
        exact Nat.ne_of_lt ha
      simp [World.grow, hne]
    | _ => rfl

theorem Clean.grow (hc : Clean w S) : Clean (w.grow h S.count) (S.addSlab w.mallocs) := by
  intro p hp
  by_cases hm : p.1 = w.mallocs
  · have hp2 : p.2 < S.count := hp.2
    simp [World.grow, hm, hp2]
  · have hp' : S.Has p := by
      refine ⟨?_, hp.2⟩
      rcases List.mem_cons.mp hp.1 with h | h
      · exact absurd h hm
      · exact h
    simpa [World.grow, hm] using hc p hp'

section Grow

variable (hw : w.Fresh) (ht : Table c w h S)
include hw ht

theorem Table.slab_lt {a : Addr} (ha : a ∈ S.slabs) : a < w.mallocs := hw.slab_lt (ht.hasSlab ha)

theorem Table.grow : Table c (w.grow h S.count) h (S.addSlab w.mallocs) := by
  have hlt : ∀ a ∈ S.slabs, a ≠ w.mallocs := fun a ha => Nat.ne_of_lt (ht.slab_lt hw ha)
  have hnew : w.mallocs ∉ S.slabs := fun hm => hlt _ hm rfl
  have hpos : S.count ≠ 0 := Nat.pos_iff_ne_zero.mp ht.ok.pos
  have hhead : (w.grow h S.count).head h =
      { w.head h with slabs := some w.mallocs, freechain := some (w.mallocs, 0) } := by
    simp [World.grow, World.head, hpos]
  have hslab : ∀ a, (w.grow h S.count).slab a =
      if a = w.mallocs then ⟨(w.head h).slabs, S.count, S.count⟩ else w.slab a := by
    intro a
    by_cases ha : a = w.mallocs
    · simp [World.grow, World.slab, ha]
    · simp [World.grow, World.slab, ha]
  refine ⟨⟨by simp [World.grow, World.hasHead], ht.stats.counter, ht.stats.average⟩, ?_, ?_, ?_, ?_, ?_, ?_, ?_, ?_⟩
  · rw [hhead]; exact ht.table
  · rw [hhead]; exact ht.threshold
  · rw [hhead]
    refine ⟨rfl, ?_⟩
    simp only [hslab, ↓reduceIte]
    exact ht.slabs.congr fun a ha => by rw [if_neg (hlt a ha)]
  · exact List.nodup_cons.mpr ⟨hnew, ht.slabsNodup⟩
  · intro a ha
    rw [hslab a]
    by_cases hm : a = w.mallocs
    · rw [if_pos hm]
      exact ⟨by simp [World.grow, World.hasSlab, hm], rfl, rfl⟩
    · have ha' : a ∈ S.slabs := by
        rcases List.mem_cons.mp ha with h | h
        · exact absurd h hm
        · exact h
      rw [if_neg hm]
      refine ⟨?_, (ht.live a ha').2⟩
      simpa [World.grow, World.hasSlab, hm] using ht.hasSlab ha'
  · have h1 := ht.cells
    show (S.slabs.length + 1) * S.count ≤ w.cells + S.count
    rw [Nat.succ_mul]
    omega
  · have hk : (w.grow h S.count).keyLen c h = w.keyLen c h := by
      unfold World.keyLen
      rw [hhead]
    rw [hk, hhead]
    refine ht.entries.addSlab hnew (fun j hj => ?_) fun p hp => ?_
    · simp [World.grow, hj]
    · simp [World.grow, hlt p.1 hp.1]
  · intro p hp
    by_cases hm : p.1 = w.mallocs
    · apply Or.inl
      have hp2 : p.2 < S.count := hp.2
      simp [World.grow, hm, hp2]
    · have hp' : S.Has p := by
        refine ⟨?_, hp.2⟩
        rcases List.mem_cons.mp hp.1 with h | h
        · exact absurd h hm
        · exact h
      simpa [World.grow, hm, Shape.addSlab] using ht.entryLocks p hp'

theorem World.Fresh.grow : (w.grow h S.count).Fresh := by
  have hlt : h < w.mallocs := hw.head_lt ht.head
  refine ⟨fun a ha => ?_, fun a ha => ?_, fun l hl => ?_⟩
  · have hle : w.mallocs + 1 ≤ a := ha
    have hne : a ≠ h := Nat.ne_of_gt (Nat.lt_of_lt_of_le hlt (Nat.le_of_succ_le hle))
    simpa [World.grow, hne] using hw.heads a (by omega)
  · have hle : w.mallocs + 1 ≤ a := ha
    have hne : a ≠ w.mallocs := by omega
    simpa [World.grow, hne] using hw.slabs a (by omega)
  · have hle : w.mallocs + 1 ≤ l.block := hl
    have hl' := hw.locks l (Nat.le_of_succ_le hle)
    cases l with
    | entry p =>
      have hne : p.1 ≠ w.mallocs := Nat.ne_of_gt hle
      simpa [World.grow, hne] using hl'
    | _ => exact hl'

theorem pairs_grow {K : Type} (kb : Nat → K) :
    pairs kb (w.grow h S.count).ents (S.addSlab w.mallocs) = pairs kb w.ents S := by
  refine @pairs_congr _ _ S _ _ (S.addSlab w.mallocs) rfl fun i hi => ?_
  refine bucketPairs_congr (S := S) rfl rfl fun p hp => ?_
  have hne : p.1 ≠ w.mallocs := Nat.ne_of_lt (ht.slab_lt hw (ht.ok.bucket_has hi hp).1)
  have he : (w.grow h S.count).ents p = w.ents p := by simp [World.grow, hne]
  rw [he]
  exact ⟨rfl, rfl, rfl⟩

end Grow

/-! ## Other entries, another free chain -/

/-- The memory with other entries and another free chain. -/
def World.reshape (w : World) (h : Addr) (ents : EntryPtr → Entry) (fc : Option EntryPtr) : World :=
  { w.setHead h { w.head h with freechain := fc } with ents := ents }

section Reshape

variable {ents : EntryPtr → Entry} {fc : Option EntryPtr}

@[simp] theorem World.reshape_ents : (w.reshape h ents fc).ents = ents := rfl
@[simp] theorem World.reshape_locks : (w.reshape h ents fc).locks = w.locks := rfl
@[simp] theorem World.reshape_book : (w.reshape h ents fc).book = w.book := rfl

theorem World.reshape_head : (w.reshape h ents fc).head h = { w.head h with freechain := fc } := by
  simp [reshape, World.head]

/-- A write to one entry. -/
theorem World.setEnt_eq_reshape (hh : w.hasHead h = true) (d : EntryPtr) (e : Entry) :
    w.setEnt d e = w.reshape h (upd w.ents d e) (w.head h).freechain := by
  refine World.ext (funext fun a => ?_) rfl rfl rfl rfl rfl rfl rfl
  by_cases ha : a = h
  · subst ha
    simp [reshape, heads_eq hh]
  · simp [reshape, ha]

/-- A table whose entries follow another arrangement of the same slabs. -/
theorem Table.reshape (ht : Table c w h S) {S' : Shape} (htab : S'.table = S.table) (hcount : S'.count = S.count)
    (hslabs : S'.slabs = S.slabs)
    (he : Entries (c.keyBytes (w.keyLen c h)) (fun k => c.hashOf k % S.count) ents fc S')
    (hlock : ∀ p, S.Has p → w.locks (.entry p) = .free ∨
      p.1 = S.table ∧ w.locks (.entry p) = .write ∧ (ents p).flags.occupied = false) :
    Table c (w.reshape h ents fc) h S' := by
  have hhas : ∀ p, S'.Has p ↔ S.Has p := by
    intro p
    unfold Shape.Has
    rw [hslabs, hcount]
  refine ⟨⟨by simp [World.reshape, World.hasHead], ht.stats.counter, ht.stats.average⟩, ?_, ?_, ?_, ?_, ?_, ?_, ?_, ?_⟩
  · rw [World.reshape_head, htab]; exact ht.table
  · rw [World.reshape_head]; exact ht.threshold
  · rw [World.reshape_head, hslabs]; exact ht.slabs
  · rw [hslabs]; exact ht.slabsNodup
  · rw [hslabs, hcount]; exact ht.live
  · rw [hslabs, hcount]; exact ht.cells
  · have hk : (w.reshape h ents fc).keyLen c h = w.keyLen c h := by
      unfold World.keyLen
      rw [World.reshape_head]
    rw [hk, hcount, World.reshape_head]
    exact he
  · intro p hp
    rw [htab]
    exact hlock p ((hhas p).mp hp)

theorem Frame.reshape (hsame : ∀ p : EntryPtr, p.1 ∉ S.slabs → ents p = w.ents p) :
    Frame (Blocks h S) w (w.reshape h ents fc) := by
  refine ⟨fun a _ hn => ⟨?_, rfl, fun i => ?_, fun _ _ => rfl⟩, Nat.le_refl _, Nat.le_refl _⟩
  · have hne : a ≠ h := fun e => hn (Or.inl e)
    simp [World.reshape, hne]
  · exact hsame (a, i) fun hm => hn (Or.inr hm)

theorem World.Fresh.reshape (hw : w.Fresh) (hh : w.hasHead h = true) : (w.reshape h ents fc).Fresh := by
  refine ⟨fun a ha => ?_, hw.slabs, hw.locks⟩
  have hle : w.mallocs ≤ a := ha
  have hne : a ≠ h := Nat.ne_of_gt (Nat.lt_of_lt_of_le (hw.head_lt hh) hle)
  simpa [World.reshape, hne] using hw.heads a hle

end Reshape

/-- The entry `o` filled and hung behind the head `d`. -/
def World.linked (w : World) (h : Addr) (d o : EntryPtr) (key data : Nat) : World :=
  w.reshape h (upd (upd w.ents o ⟨(w.ents d).next, key, data, { (w.ents o).flags with occupied := true }⟩) d
    { w.ents d with next := some o }) (w.ents o).next

/-- The head `d` filled. -/
def World.filled (w : World) (h : Addr) (d : EntryPtr) (key data : Nat) : World :=
  w.reshape h (upd w.ents d ⟨(w.ents d).next, key, data, { (w.ents d).flags with occupied := true }⟩) (w.head h).freechain

/-! ## The call -/

/-- The free chain without its first entry `o`. -/
def World.popFree (w : World) (h : Addr) (o : EntryPtr) : World :=
  (w.setHead h { w.head h with freechain := (w.ents o).next }).setEnt o { w.ents o with next := none }

theorem linkEntry_spec {d o : EntryPtr} (hd : w.valid d = true) (ho : w.valid o = true) (hne : o ≠ d) {key data : Nat} :
    wp env (linkEntry d o key data) (fun _ w' => w' =
      (w.setEnt o ⟨(w.ents d).next, key, data, { (w.ents o).flags with occupied := true }⟩).setEnt d
        { w.ents d with next := some o }) w := by
  unfold linkEntry
  rw [wp_getFlags ho, wp_setFlags ho, wp_setKey (by exact ho), wp_setData (by exact ho), wp_getNext (by exact hd),
    wp_setNext (by exact ho), wp_last, wp_setNext (by exact hd)]
  apply wp_ret.mpr
  simp [Ne.symm hne]

/-- From the free entry on: it is hung behind the head, and both locks are given back. -/
theorem insertTaken_spec (hok : LockOk env) (hs : StatsFree w h) {d o : EntryPtr} (hd : w.valid d = true)
    (ho : w.valid o = true) (hne : o ≠ d) (hE : w.locks (.entry d) = .free) (hF : w.locks (.free h) = .free)
    (hthr : (w.head h).thresholdEvaluate = some htEvaluateThresholdDefault) {t : Addr} (htab : (w.head h).table = some t)
    (ht : w.hasSlab t = true) {resize : Addr → Nat → Code Int} {key data depth : Nat} {options : Options} {b : Book} :
    wp env (insertTaken c resize h d o key data options depth)
      (fun r w' => r = 0 ∧ ∃ b', b'.misuse = b.misuse ∧ w' = (w.linked h d o key data).withBook b')
      (((w.setLock (.entry d) .write).setLock (.free h) .write).withBook b) := by
  unfold insertTaken
  rw [wp_getNext (by exact ho), wp_setFreechain (by exact hs.head), wp_setNext (by exact ho),
    wp_getAverage (by simp)]
  have hs₁ : StatsFree (w.popFree h o) h := ⟨by simp [World.popFree], hs.counter, hs.average⟩
  show wp env (void _ >>= _) _ ((((w.popFree h o).setLock (.entry d) .write).setLock (.free h) .write).withBook _)
  refine wp_increment hok (((hs₁.setLock (Or.inr ⟨d, rfl⟩) _).setLock (Or.inl (Or.inr (Or.inl rfl))) _).withBook _)
    fun b₁ hb₁ => ?_
  have hm₁ : b₁.misuse = b.misuse := hb₁.misuse
  clear hb₁
  refine wp_lock hok (by simp [LockOp.proper]) fun b₂ hb₂ => ?_
  have hm₂ : b₂.misuse = b.misuse := hb₂.misuse.trans hm₁
  clear hb₂
  simp only [onFail, ne_eq, not_true_eq_false, ↓reduceIte, LockOp.after, World.withBook_setLock, World.withBook_withBook,
    World.setLock_setLock]
  rw [World.setLock_self (by simpa [World.popFree] using hF)]
  -- the chain is then as it has to be, only the head is still locked
  have hlink : wp env (linkEntry d o key data)
      (fun _ w' => w' = ((w.linked h d o key data).setLock (.entry d) .write).withBook b₂)
      (((w.popFree h o).setLock (.entry d) .write).withBook b₂) := by
    have hlinked : ((w.popFree h o).setEnt o ⟨((w.popFree h o).ents d).next, key, data,
        { ((w.popFree h o).ents o).flags with occupied := true }⟩).setEnt d
        { (w.popFree h o).ents d with next := some o } = w.linked h d o key data := by
      simp only [World.popFree, World.setEnt_ents, World.setHead_ents, ↓reduceIte, Ne.symm hne, World.setEnt_setEnt]
      rfl
    apply wp_mono (linkEntry_spec (by exact hd) (by exact ho) hne)
    rintro _ w' rfl
    rw [← hlinked]
    rfl
  show wp env (linkEntry d o key data >>= _) _ (((w.popFree h o).setLock (.entry d) .write).withBook b₂)
  apply wp_spec hlink
  rintro _ w' rfl
  have hhead : (w.linked h d o key data).head h = { w.head h with freechain := (w.ents o).next } := World.reshape_head
  have hs₂ : StatsFree (w.linked h d o key data) h :=
    ⟨by simp [World.linked, World.reshape, World.hasHead], hs.counter, hs.average⟩
  refine wp_increment hok ((hs₂.setLock (Or.inr ⟨d, rfl⟩) _).withBook _) fun b₃ hb₃ => ?_
  refine wp_lock hok (by simp [LockOp.proper]) fun b₄ hb₄ => ?_
  have hm₄ : b₄.misuse = b.misuse := hb₄.misuse.trans (hb₃.misuse.trans hm₂)
  simp only [not_true_eq_false, ↓reduceIte, LockOp.after, World.withBook_setLock, World.withBook_withBook,
    World.setLock_setLock]
  rw [World.setLock_self (by exact hE), wp_getThreshold (by exact hs₂.head)]
  simp only [World.withBook_head, hhead, hthr]
  cases options.resizeImplicit with
  | false => exact wp_ret.mpr ⟨rfl, b₄, hm₄, rfl⟩
  | true =>
    -- the threshold function of `ht_create` never asks for a resize
    show wp env (getTable h .count >>= _) _ _
    rw [wp_getTable (by exact hs₂.head) (by rw [World.withBook_head, hhead]; exact htab), wp_getEntrycount (by exact ht),
      wp_getAverage (by exact hs₂.head), wp_getAverage (by exact hs₂.head)]
    rw [if_neg (by simp [htEvaluateThresholdDefault])]
    refine wp_ret.mpr ⟨rfl, ?_⟩
    simp only [World.setStats_eq, World.withBook_withBook]
    exact ⟨_, by exact hm₄, rfl⟩

/-- The outcomes of hanging an entry behind an occupied head `d`. -/
inductive Chained (env : Env) (w : World) (h : Addr) (S : Shape) (d : EntryPtr) (key data : Nat) (b : Book) :
    Int → World → Prop
  | linked (o : EntryPtr) (fs : List EntryPtr) (hf : S.free = o :: fs) (b' : Book) (hb : b'.misuse = b.misuse) :
      Chained env w h S d key data b 0 ((w.linked h d o key data).withBook b')
  | grown (hf : S.free = []) (hm : env.malloc w.mallocs ≠ none) (b' : Book) (hb : b'.misuse = b.misuse) :
      Chained env w h S d key data b 0 (((w.grow h S.count).linked h d (w.mallocs, 0) key data).withBook b')
  | failed (hf : S.free = []) (hm : env.malloc w.mallocs = none) (b' : Book) (hb : b'.misuse = b.misuse) :
      Chained env w h S d key data b (-1) (w.noMalloc.withBook b')

theorem insertChained_spec (hok : LockOk env) (hw : w.Fresh) (ht : Table c w h S) (hidle : Idle w h) {i : Nat}
    (hi : i < S.count) (hocc : (w.ents (S.head i)).flags.occupied = true) {resize : Addr → Nat → Code Int}
    {key data depth : Nat} {options : Options} {b : Book} :
    wp env (insertChained c resize h (S.head i) key data options depth) (Chained env w h S (S.head i) key data b)
      ((w.setLock (.entry (S.head i)) .write).withBook b) := by
  have hE := ht.lock_free (ht.ok.head_has hi) (Or.inr hocc)
  have hd := ht.validHead hi
  have hsE : StatsFree ((w.setLock (.entry (S.head i)) .write).setLock (.free h) .write) h :=
    (ht.stats.setLock (Or.inr ⟨_, rfl⟩) _).setLock (Or.inl (Or.inr (Or.inl rfl))) _
  have hfresh : ((w.setLock (.entry (S.head i)) .write).setLock (.free h) .write).Fresh := by
    refine ⟨hw.heads, hw.slabs, fun l hl => ?_⟩
    have hle : w.mallocs ≤ l.block := hl
    have h1 : l ≠ .free h := by
      rintro rfl
      exact Nat.not_lt.mpr hle (hw.head_lt ht.head)
    have h2 : l ≠ .entry (S.head i) := by
      rintro rfl
      exact Nat.not_lt.mpr hle (ht.slab_lt hw ht.ok.tableMem)
    simpa [h1, h2] using hw.locks l hle
  unfold insertChained
  refine wp_lock hok (by simp [hidle.free, LockOp.proper]) fun b₁ hb₁ => ?_
  simp only [ne_eq, not_true_eq_false, ↓reduceIte, LockOp.after, World.withBook_setLock, World.withBook_withBook]
  refine wp_spec (takeFree_spec hok (w := ((w.setLock (.entry (S.head i)) .write).setLock (.free h) .write).withBook b₁)
    ⟨hfresh.heads, hfresh.slabs, hfresh.locks⟩ (hsE.withBook _) (by exact ht.table) (by exact ht.hasTable)
    (ht.entrycount ht.ok.tableMem) (Nat.pos_iff_ne_zero.mp ht.ok.pos) (by exact ht.entries.linked.free)) ?_
  rintro r w' hr
  cases hr with
  | first o fs hf =>
    have hof : o ∈ S.free := by rw [hf]; exact List.mem_cons_self
    refine wp_mono (insertTaken_spec hok ht.stats hd (ht.valid (ht.ok.free_has hof)) (ht.ok.free_ne_head hi hof) hE
      hidle.free ht.threshold ht.table ht.hasTable) ?_
    rintro r w' ⟨rfl, b', hb', rfl⟩
    exact .linked o fs hf b' (hb'.trans hb₁.misuse)
  | failed b₂ hf hm hb₂ =>
    simp only [World.withBook_noMalloc, World.setLock_noMalloc, World.withBook_withBook, wp_void]
    refine wp_lock hok (by simp [LockOp.proper]) fun b₃ hb₃ => ?_
    simp only [LockOp.after, World.withBook_setLock, World.withBook_withBook, World.setLock_setLock]
    rw [World.setLock_self (by simpa using hidle.free)]
    refine wp_lock hok (by simp [LockOp.proper]) fun b₄ hb₄ => ?_
    simp only [LockOp.after, World.withBook_setLock, World.withBook_withBook, World.setLock_setLock]
    rw [World.setLock_self (by exact hE)]
    have hs : StatsFree (w.noMalloc.withBook b₄) h := ⟨ht.head, ht.stats.counter, ht.stats.average⟩
    refine wp_count hok hs fun b₅ hb₅ => ?_
    have hm' : env.malloc w.mallocs = none := hm
    refine wp_ret.mpr (.failed hf hm' b₅ ?_)
    exact hb₅.misuse.trans (hb₄.misuse.trans (hb₃.misuse.trans (hb₂.trans hb₁.misuse)))
  | grown b₂ hf hm hb₂ =>
    have hlt : S.table ≠ w.mallocs := Nat.ne_of_lt (ht.slab_lt hw ht.ok.tableMem)
    have hlth : h ≠ w.mallocs := Nat.ne_of_lt (hw.head_lt ht.head)
    have htg := ht.grow hw
    have hm' : env.malloc w.mallocs ≠ none := hm
    have hEg : (w.grow h S.count).locks (.entry (S.head i)) = .free := by simpa [World.grow, hlt] using hE
    have hgrow : ((((w.setLock (.entry (S.head i)) .write).setLock (.free h) .write).withBook b₁).grow h S.count).withBook
        b₂ = (((w.grow h S.count).setLock (.entry (S.head i)) .write).setLock (.free h) .write).withBook b₂ := by
      have h1 := World.grow_setLock (h := h) (l := .entry (S.head i)) hlt .write S.count
      have h2 := World.grow_setLock (w := w.setLock (.entry (S.head i)) .write) (h := h) (l := .free h) hlth .write S.count
      rw [← h1, ← h2]
      rfl
    rw [hgrow]
    have hmem : (w.mallocs, 0) ∈ (S.addSlab w.mallocs).free := by
      refine List.mem_append_left _ (List.mem_map.mpr ⟨0, ?_, rfl⟩)
      exact List.mem_range.mpr ht.ok.pos
    refine wp_mono (insertTaken_spec hok htg.stats (htg.validHead hi) (htg.valid (htg.ok.free_has hmem))
      (htg.ok.free_ne_head hi hmem) hEg hidle.free htg.threshold htg.table htg.hasTable) ?_
    rintro r w' ⟨rfl, b', hb', rfl⟩
    exact .grown hf hm' b' (hb'.trans (hb₂.trans hb₁.misuse))

/-- The outcomes of `ht_insert_key`. -/
inductive Inserted (c : Conf) (env : Env) (w : World) (h : Addr) (S : Shape) (key data : Nat) : Int → World → Prop
  | stuck (b : Book) (hz : ¬AllZero env) (hc : ¬Clean w S) : Inserted c env w h S key data (-2) (w.withBook b)
  | filled (b : Book) (hb : Clean w S → b.misuse = w.book.misuse)
      (hocc : (w.ents (S.head (w.index c h S key))).flags.occupied = false) :
      Inserted c env w h S key data 0
        (((w.filled h (S.head (w.index c h S key)) key data).setLock (.entry (S.head (w.index c h S key))) .free).withBook b)
  | present (b : Book) (hb : Quiet w.book EEXIST b) (hdups : (w.head h).options.dupsAllowed = false)
      (hm : ∃ q ∈ S.bucket w.ents (w.index c h S key), Matches c (w.keyLen c h) key w.ents q) :
      Inserted c env w h S key data (-1) (w.withBook b)
  | chained (b : Book) (hocc : (w.ents (S.head (w.index c h S key))).flags.occupied = true)
      (hm : (w.head h).options.dupsAllowed = false →
        ¬∃ q ∈ S.bucket w.ents (w.index c h S key), Matches c (w.keyLen c h) key w.ents q)
      (hb : b.misuse = w.book.misuse) {r : Int} {w' : World}
      (hr : Chained env w h S (S.head (w.index c h S key)) key data b r w') : Inserted c env w h S key data r w'

theorem insertKeyWith_spec (hok : LockOk env) (hw : w.Fresh) (ht : Table c w h S) (hidle : Idle w h)
    (resize : Addr → Nat → Code Int) (key data : Nat) :
    wp env (insertKeyWith c resize h key data) (Inserted c env w h S key data) w := by
  have hi := ht.index_lt key
  have hcall : CallLock h (.table h) := Or.inl rfl
  obtain ⟨i, hidef⟩ : ∃ i, i = w.index c h S key := ⟨_, rfl⟩
  rw [← hidef] at hi
  have hix : c.htHashBytes key (c.sizeOfInt (w.head h).keysize) S.count = i := hidef.symm
  have hv := ht.validHead hi
  unfold insertKeyWith
  refine wp_count hok ht.stats fun b₁ hb₁ => ?_
  refine wp_lock hok (by simp [hidle.table, LockOp.proper]) fun b₂ hb₂ => ?_
  rw [wp_setErrno]
  simp only [ne_eq, not_true_eq_false, ↓reduceIte, LockOp.after, World.withBook_setLock, World.withBook_withBook]
  have hs := ht.stats.setLock (Or.inl hcall) .write
  refine wp_count hok (hs.withBook _) fun b₃ hb₃ => ?_
  rw [wp_getKeysize (by exact ht.head), wp_getOptions (by exact ht.head), wp_getTable (by exact ht.head) (by exact ht.table),
    wp_getEntrycount (by exact ht.hasTable)]
  simp only [World.withBook_head, World.withBook_slab, World.withBook_withBook, World.setLock_head, World.setLock_slab,
    ht.entrycount ht.ok.tableMem]
  rw [hashCompute, if_neg (Nat.pos_iff_ne_zero.mp ht.ok.pos), hix]
  show wp env (getTable h .entry >>= _) _ _
  rw [wp_getTable (by exact ht.head) (by exact ht.table), wp_getEntry (by exact ht.hasTable)]
  have hm₃ : b₃.misuse = w.book.misuse := hb₃.misuse.trans (hb₂.misuse.trans hb₁.misuse)
  clear hb₃ hb₂ hb₁
  show wp env (wrlock (.entry (S.head i)) >>= _) _ ((w.setLock (.table h) .write).withBook b₃)
  refine wp_lockHead hok (Or.inr ⟨rfl, rfl⟩ : Takes .wrlock .write) ?_ (fun b₄ he₄ hm₄ => ?_) fun r b₄ hr hz hl => ?_
  · rcases ht.entryLocks _ (ht.ok.head_has hi) with h | ⟨-, h, -⟩
    · exact Or.inl (by simpa using h)
    · exact Or.inr (by simpa using h)
  · simp only [not_true_eq_false, ↓reduceIte, World.withBook_setLock, World.withBook_withBook]
    refine wp_lock hok (by simp [LockOp.proper]) fun b₅ hb₅ => ?_
    have hm₅ : w.locks (.entry (S.head i)) = .free → b₅.misuse = w.book.misuse := fun hf =>
      hb₅.misuse.trans ((hm₄ (by simpa using hf)).trans hm₃)
    clear hb₅ hm₄ he₄
    simp only [not_true_eq_false, ↓reduceIte, LockOp.after, World.withBook_setLock, World.withBook_withBook]
    rw [World.setLock_setLock_between (by simp) hidle.table, wp_getFlags (by exact hv)]
    show wp env (if (!(w.ents (S.head i)).flags.occupied) = true then _ else _) _
      ((w.setLock (.entry (S.head i)) .write).withBook b₅)
    cases hocc : (w.ents (S.head i)).flags.occupied with
    | false =>
      simp only [Bool.not_false, ↓reduceIte]
      rw [wp_setFlags (by exact hv), wp_setKey (by exact hv), wp_setData (by exact hv)]
      simp only [World.withBook_ents, World.setLock_ents, World.setEnt_ents, ↓reduceIte, World.withBook_setEnt,
        World.setLock_setEnt, World.setEnt_setEnt]
      refine wp_lock hok (by simp [LockOp.proper]) fun b₆ hb₆ => ?_
      simp only [not_true_eq_false, ↓reduceIte, LockOp.after, World.withBook_setLock, World.withBook_withBook,
        World.setLock_setLock]
      rw [World.setEnt_eq_reshape ht.head]
      apply wp_ret.mpr
      have h := @Inserted.filled c env w h S key data b₆
        (fun hc => hb₆.misuse.trans (hm₅ (hc _ (ht.ok.head_has hi)))) (by rw [← hidef]; exact hocc)
      rw [← hidef] at h
      exact h
    | true =>
      have hfree := ht.lock_free (ht.ok.head_has hi) (Or.inr hocc)
      have hbucket : S.bucket w.ents i = S.head i :: S.chain i := by rw [Shape.bucket, if_pos hocc]
      simp only [Bool.not_true, Bool.false_eq_true, ↓reduceIte]
      rw [wp_bound]
      refine wp_spec (insertWalk_spec (S.head i :: S.chain i) _ 0 (some (S.head i)) ?_ ?_ ?_) ?_
      · have hf := ht.fuel hi
        show (S.chain i).length + 1 < w.cells + w.mallocs + 1
        omega
      · exact ⟨rfl, ht.entries.linked.chain i hi⟩
      · exact fun q hq => ht.valid (ht.ok.bucket_has hi hq)
      · rintro ⟨depth, found⟩ w' ⟨rfl, hfound⟩
        have hsE : StatsFree ((w.setLock (.entry (S.head i)) .write).withBook b₅) h :=
          (ht.stats.setLock (Or.inr ⟨_, rfl⟩) _).withBook _
        have hfound' : found = true ↔ (w.head h).options.dupsAllowed = false ∧
            ∃ q ∈ S.head i :: S.chain i, Matches c (w.keyLen c h) key w.ents q := hfound
        cases found with
        | true =>
          obtain ⟨hdups, hm⟩ := hfound'.mp rfl
          simp only [↓reduceIte]
          refine wp_increment hok hsE fun b₆ hb₆ => ?_
          refine wp_count hok (hsE.withBook _) fun b₇ hb₇ => ?_
          rw [wp_setErrno]
          refine wp_lock hok (by simp [LockOp.proper]) fun b₈ hb₈ => ?_
          simp only [not_true_eq_false, ↓reduceIte, LockOp.after, World.withBook_setLock, World.withBook_withBook,
            World.setLock_setLock, World.setLock_self hfree]
          refine wp_ret.mpr (.present b₈ ⟨hb₈.errno, ?_⟩ hdups ?_)
          · exact hb₈.misuse.trans (hb₇.misuse.trans (hb₆.misuse.trans (hm₅ hfree)))
          · rw [← hidef, hbucket]
            exact hm
        | false =>
          have hnone : (w.head h).options.dupsAllowed = false →
              ¬∃ q ∈ S.bucket w.ents (w.index c h S key), Matches c (w.keyLen c h) key w.ents q := by
            intro hdups hm
            rw [← hidef, hbucket] at hm
            exact absurd (hfound'.mpr ⟨hdups, hm⟩) (by simp)
          have hfin : ∀ {b : Book} {depth : Nat}, b.misuse = w.book.misuse →
              wp env (insertChained c resize h (S.head i) key data (w.head h).options depth) (Inserted c env w h S key data)
                ((w.setLock (.entry (S.head i)) .write).withBook b) := by
            intro b depth hb
            refine wp_mono (insertChained_spec hok hw ht hidle hi hocc) fun r w' hr => ?_
            refine .chained b ?_ hnone hb ?_
            · rw [← hidef]; exact hocc
            · rw [← hidef]; exact hr
          simp only [Bool.false_eq_true, ↓reduceIte]
          show wp env (if (w.head h).options.dupsAllowed = true then _ else _) _ _
          by_cases hdups : (w.head h).options.dupsAllowed = true
          · rw [if_pos hdups]
            exact hfin (hm₅ hfree)
          · rw [if_neg hdups]
            refine wp_increment hok hsE fun b₆ hb₆ => ?_
            exact hfin (hb₆.misuse.trans (hm₅ hfree))
  · rw [if_pos hr, wp_void]
    refine wp_lock hok (by simp [LockOp.proper]) fun b₅ hb₅ => ?_
    simp only [LockOp.after, World.withBook_setLock, World.withBook_withBook, World.setLock_setLock,
      World.setLock_self hidle.table]
    refine wp_count hok (ht.stats.withBook _) fun b₆ hb₆ => ?_
    rw [wp_setErrno]
    exact wp_ret.mpr (.stuck _ hz fun hc => hl (by simpa using hc _ (ht.ok.head_has hi)))

end ZfsTest.Hashtable
