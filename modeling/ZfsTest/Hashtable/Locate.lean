import ZfsTest.Hashtable.Table

/-!
# Locating

The walk of `ht_locate_entry_` holds the lock of the entry it looks at and of the entry before it (`World.holding`). It
ends at the first entry with the key, or has looked at the whole bucket (`htLocateWalk_spec`, `locateEntry_spec`).
`ht_locate_key` leaves memory and locks as they were (`htLocateKey_spec`).
-/

namespace ZfsTest.Hashtable

open Prog

variable {c : Conf} {env : Env} {w w' : World} {h : Addr} {S : Shape}

/-! ## Locks held -/

/-- The entries `ps` locked in mode `m`. -/
def World.holding (w : World) (m : LockState) (ps : List EntryPtr) : World :=
  { w with locks := fun l => match l with
    | .entry p => if p ∈ ps then m else w.locks (.entry p)
    | l => w.locks l }

section Holding

variable {m : LockState} {ps : List EntryPtr}

@[simp] theorem World.holding_ents : (w.holding m ps).ents = w.ents := rfl
@[simp] theorem World.holding_heads : (w.holding m ps).heads = w.heads := rfl
@[simp] theorem World.holding_slabs : (w.holding m ps).slabs = w.slabs := rfl
@[simp] theorem World.holding_cells : (w.holding m ps).cells = w.cells := rfl
@[simp] theorem World.holding_mallocs : (w.holding m ps).mallocs = w.mallocs := rfl

@[simp] theorem World.holding_setEnt (p : EntryPtr) (e : Entry) :
    (w.holding m ps).setEnt p e = (w.setEnt p e).holding m ps := rfl
@[simp] theorem World.holding_setHead (a : Addr) (ht : HashTable) :
    (w.holding m ps).setHead a ht = (w.setHead a ht).holding m ps := rfl
@[simp] theorem World.holding_head (a : Addr) : (w.holding m ps).head a = w.head a := rfl
@[simp] theorem World.holding_withBook (b : Book) : (w.withBook b).holding m ps = (w.holding m ps).withBook b := rfl

theorem World.holding_nil : w.holding m [] = w := by
  unfold holding
  have : (fun l => match l with
    | .entry p => if p ∈ ([] : List EntryPtr) then m else w.locks (.entry p)
    | l => w.locks l) = w.locks := by
    funext l
    cases l <;> simp
  rw [this]

/-- One more lock taken. -/
theorem World.holding_lock (q : EntryPtr) : (w.holding m ps).setLock (.entry q) m = w.holding m (q :: ps) := by
  unfold holding setLock
  congr 1
  funext l
  cases l with
  | entry p =>
    by_cases h1 : p = q
    · simp [h1]
    · simp [h1]
  | _ => simp

/-- A lock given back. -/
theorem World.holding_unlock {q : EntryPtr} (hq : w.locks (.entry q) = .free) :
    (w.holding m ps).setLock (.entry q) .free = w.holding m (ps.filter fun p => p ≠ q) := by
  unfold holding setLock
  congr 1
  funext l
  cases l with
  | entry p =>
    by_cases h1 : p = q
    · simp [h1, hq]
    · simp [h1]
  | _ => simp

theorem World.holding_locks_entry (q : EntryPtr) :
    (w.holding m ps).locks (.entry q) = if q ∈ ps then m else w.locks (.entry q) := rfl

theorem World.holding_setLock {l : LockId} (hl : ∀ p, l ≠ .entry p) (st : LockState) :
    (w.setLock l st).holding m ps = (w.holding m ps).setLock l st := by
  unfold holding setLock
  congr 1
  funext k
  cases k with
  | entry p => simp [Ne.symm (hl p)]
  | _ => rfl

theorem StatsFree.holding (hs : StatsFree w h) (b : Book) : StatsFree ((w.holding m ps).withBook b) h :=
  ⟨hs.head, hs.counter, hs.average⟩

end Holding

/-- The lock call `o` takes a lock in mode `m`. -/
def Takes (o : LockOp) (m : LockState) : Prop := o = .rdlock ∧ m = .read ∨ o = .wrlock ∧ m = .write

theorem Takes.after {o : LockOp} {m : LockState} (ht : Takes o m) : o.after = m := by
  rcases ht with ⟨rfl, rfl⟩ | ⟨rfl, rfl⟩ <;> rfl

theorem Takes.proper {o : LockOp} {m : LockState} (ht : Takes o m) : o.proper .free = true := by
  rcases ht with ⟨rfl, rfl⟩ | ⟨rfl, rfl⟩ <;> rfl

theorem Takes.unlock {o : LockOp} {m : LockState} (ht : Takes o m) : LockOp.unlock.proper m = true := by
  rcases ht with ⟨rfl, rfl⟩ | ⟨rfl, rfl⟩ <;> rfl

section Held

variable {β : Type} {Q : β → World → Prop} {o : LockOp} {m : LockState} {ps : List EntryPtr} {k : Int → Code β} {b : Book}

/-- Taking the free lock of one more entry. -/
theorem wp_take (hok : LockOk env) (hm : Takes o m) {q : EntryPtr} (hq : w.locks (.entry q) = .free) (hn : q ∉ ps)
    (hk : ∀ b', Quiet b b.errno b' → wp env (k 0) Q ((w.holding m (q :: ps)).withBook b')) :
    wp env (lockCall o (.entry q) >>= k) Q ((w.holding m ps).withBook b) := by
  refine wp_lock hok ?_ fun b' hb' => ?_
  · rw [World.withBook_locks, World.holding_locks_entry, if_neg hn, hq]
    exact hm.proper
  · rw [hm.after, World.withBook_setLock, World.withBook_withBook, World.holding_lock]
    exact hk b' hb'

/-- Giving back the lock of an entry. -/
theorem wp_give (hok : LockOk env) (hm : Takes o m) {q : EntryPtr} (hq : w.locks (.entry q) = .free) (hn : q ∈ ps)
    (hk : ∀ b', Quiet b b.errno b' → wp env (k 0) Q ((w.holding m (ps.filter fun p => p ≠ q)).withBook b')) :
    wp env (unlock (.entry q) >>= k) Q ((w.holding m ps).withBook b) := by
  refine wp_lock hok ?_ fun b' hb' => ?_
  · rw [World.withBook_locks, World.holding_locks_entry, if_pos hn]
    exact hm.unlock
  · show wp env (k 0) Q ((((w.holding m ps).withBook b).setLock (.entry q) .free).withBook b')
    rw [World.withBook_setLock, World.withBook_withBook, World.holding_unlock hq]
    exact hk b' hb'

end Held

/-! ## The walk -/

/-- The entry has the key. -/
def Matches (c : Conf) (len key : Nat) (ents : EntryPtr → Entry) (p : EntryPtr) : Prop :=
  c.keyBytes len (ents p).key = c.keyBytes len key

theorem keyCompare_ne_zero {k key len : Nat} : c.keyCompare k key len ≠ 0 ↔ c.keyBytes len k ≠ c.keyBytes len key := by
  unfold Conf.keyCompare
  by_cases h : c.keyBytes len k = c.keyBytes len key <;> simp [h]

/-- `d` is the first entry of `l` with the key, behind the entries `l₁`. -/
structure FirstMatch (c : Conf) (len key : Nat) (ents : EntryPtr → Entry) (l l₁ : List EntryPtr) (d : EntryPtr) (l₂ : List EntryPtr) :
    Prop where
  split : l = l₁ ++ d :: l₂
  before : ∀ q ∈ l₁, ¬Matches c len key ents q
  here : Matches c len key ents d

/-- The result of a walk over the entries `l`, behind the locked entry `phte`. -/
def Walked (c : Conf) (len key : Nat) (w : World) (m : LockState) (previous : Bool) (phte : Option EntryPtr)
    (l : List EntryPtr) (b : Book) (r : Option (EntryPtr × Option EntryPtr)) (w' : World) : Prop :=
  (r = none ∧ (∀ q ∈ l, ¬Matches c len key w.ents q) ∧ ∃ b', Quiet b ENOENT b' ∧ w' = w.withBook b') ∨
  (∃ l₁ d l₂ p b', FirstMatch c len key w.ents l l₁ d l₂ ∧ Quiet b 0 b' ∧ p = (if previous then (phte.toList ++ l₁).getLast? else
      none) ∧ r = some (d, p) ∧ w' = (w.holding m (d :: p.toList)).withBook b')

/-- The entry at hand has the key. -/
theorem htLocateWalk_hit (hok : LockOk env) {o : LockOp} {m : LockState} (hm : Takes o m) (hs : StatsFree w h)
    {key len : Nat} {previous : Bool} {l : List EntryPtr} {fuel depth : Nat} {phte : Option EntryPtr} {dhte : EntryPtr}
    {b : Book} (hnd : (phte.toList ++ dhte :: l).Nodup)
    (hv : ∀ p ∈ phte.toList ++ dhte :: l, w.valid p = true ∧ w.locks (.entry p) = .free)
    (hmatch : Matches c len key w.ents dhte) :
    wp env (htLocateWalk c h key len o previous (fuel + 1) depth phte dhte)
      (Walked c len key w m previous phte (dhte :: l) b) ((w.holding m (dhte :: phte.toList)).withBook b) := by
  have hd := hv dhte (by simp)
  have hfirst : FirstMatch c len key w.ents (dhte :: l) [] dhte l := ⟨rfl, by simp, hmatch⟩
  unfold htLocateWalk
  rw [wp_getKey (by exact hd.1)]
  have hcmp : ¬c.keyCompare (w.ents dhte).key key len ≠ 0 := fun hc => keyCompare_ne_zero.mp hc hmatch
  rw [if_neg (by exact hcmp)]
  refine wp_increment hok (hs.holding _) fun b₁ hb₁ => ?_
  refine wp_count hok (hs.holding _) fun b₂ hb₂ => ?_
  have hq : Quiet b 0 b₂ := hb₁.trans hb₂
  cases previous with
  | true =>
    refine wp_ret.mpr (Or.inr ⟨[], dhte, l, phte, b₂, hfirst, hq, ?_, rfl, rfl⟩)
    cases phte <;> rfl
  | false =>
    cases phte with
    | none => exact wp_ret.mpr (Or.inr ⟨[], dhte, l, none, b₂, hfirst, hq, rfl, rfl, rfl⟩)
    | some p =>
      have hp := hv p (by simp)
      have hne : dhte ≠ p := by
        rintro rfl
        simp at hnd
      refine wp_give hok hm hp.2 (by simp) fun b₃ hb₃ => ?_
      refine wp_ret.mpr (Or.inr ⟨[], dhte, l, none, b₃, hfirst, ?_, rfl, rfl, ?_⟩)
      · exact (hq.trans hb₃).cast hb₂.errno
      · simp [hne]

/-- The walk behind an entry without the key. -/
theorem Walked.next {len key : Nat} {m : LockState} {previous : Bool} {phte : Option EntryPtr} {dhte next : EntryPtr}
    {l : List EntryPtr} {b b' : Book} {r : Option (EntryPtr × Option EntryPtr)} (hn : ¬Matches c len key w.ents dhte)
    (hb : b'.misuse = b.misuse) (hw : Walked c len key w m previous (some dhte) (next :: l) b' r w') :
    Walked c len key w m previous phte (dhte :: next :: l) b r w' := by
  rcases hw with ⟨rfl, hall, b₁, hb₁, rfl⟩ | ⟨l₁, d, l₂, p, b₁, hf, hb₁, rfl, rfl, rfl⟩
  · refine Or.inl ⟨rfl, ?_, b₁, ⟨hb₁.errno, hb₁.misuse.trans hb⟩, rfl⟩
    intro q hq
    rcases List.mem_cons.mp hq with rfl | hq
    · exact hn
    · exact hall q hq
  · refine Or.inr ⟨dhte :: l₁, d, l₂, _, b₁, ⟨?_, ?_, hf.here⟩, ⟨hb₁.errno, hb₁.misuse.trans hb⟩, ?_, rfl, rfl⟩
    · rw [hf.split]
      rfl
    · intro q hq
      rcases List.mem_cons.mp hq with rfl | hq
      · exact hn
      · exact hf.before q hq
    · cases previous with
      | false => rfl
      | true =>
        show (dhte :: l₁).getLast? = (phte.toList ++ dhte :: l₁).getLast?
        cases phte with
        | none => rfl
        | some q => exact List.getLast?_cons_cons.symm

theorem htLocateWalk_spec (hok : LockOk env) {o : LockOp} {m : LockState} (hm : Takes o m) (hs : StatsFree w h)
    {key len : Nat} {previous : Bool} (l : List EntryPtr) : ∀ (fuel depth : Nat) (phte : Option EntryPtr)
    (dhte : EntryPtr) (b : Book), l.length < fuel → Chain (nextOf w.ents) (w.ents dhte).next l →
    (phte.toList ++ dhte :: l).Nodup →
    (∀ p ∈ phte.toList ++ dhte :: l, w.valid p = true ∧ w.locks (.entry p) = .free) →
    wp env (htLocateWalk c h key len o previous fuel depth phte dhte) (Walked c len key w m previous phte (dhte :: l) b)
      ((w.holding m (dhte :: phte.toList)).withBook b) := by
  induction l with
  | nil =>
    intro fuel depth phte dhte b hfuel hch hnd hv
    obtain ⟨fuel, rfl⟩ : ∃ n, fuel = n + 1 := ⟨fuel - 1, by simp at hfuel; omega⟩
    by_cases hmatch : Matches c len key w.ents dhte
    · exact htLocateWalk_hit hok hm hs hnd hv hmatch
    have hd := hv dhte (by simp)
    have hnone : ∀ q ∈ [dhte], ¬Matches c len key w.ents q := by simpa using hmatch
    unfold htLocateWalk
    rw [wp_getKey (by exact hd.1), if_pos (by exact keyCompare_ne_zero.mpr hmatch), wp_getNext (by exact hd.1)]
    rw [chain_nil] at hch
    simp only [World.withBook_ents, World.holding_ents, hch]
    rw [wp_setErrno]
    cases phte with
    | none =>
      simp only [wp_void]
      refine wp_give hok hm hd.2 (by simp) fun b₁ hb₁ => ?_
      simp only [Option.toList_none, List.filter_cons, ne_eq, not_true_eq_false, decide_false, Bool.false_eq_true,
        ↓reduceIte, List.filter_nil, World.holding_nil]
      refine wp_increment hok (hs.withBook _) fun b₂ hb₂ => ?_
      exact wp_ret.mpr (Or.inl ⟨rfl, hnone, b₂, ⟨hb₂.errno.trans hb₁.errno, hb₂.misuse.trans hb₁.misuse⟩, rfl⟩)
    | some p =>
      have hp := hv p (by simp)
      have hne : dhte ≠ p := by
        rintro rfl
        simp at hnd
      simp only [wp_void]
      refine wp_give hok hm hp.2 (by simp) fun b₁ hb₁ => ?_
      refine wp_give hok hm hd.2 (by simp [hne]) fun b₂ hb₂ => ?_
      simp only [Option.toList_some, List.filter_cons, ne_eq, hne, not_false_eq_true, decide_true, not_true_eq_false,
        decide_false, Bool.false_eq_true, ↓reduceIte, List.filter_nil, World.holding_nil]
      refine wp_increment hok (hs.withBook _) fun b₃ hb₃ => ?_
      refine wp_ret.mpr (Or.inl ⟨rfl, hnone, b₃, ⟨?_, ?_⟩, rfl⟩)
      · exact hb₃.errno.trans (hb₂.errno.trans hb₁.errno)
      · exact hb₃.misuse.trans (hb₂.misuse.trans hb₁.misuse)
  | cons next l ih =>
    intro fuel depth phte dhte b hfuel hch hnd hv
    obtain ⟨fuel, rfl⟩ : ∃ n, fuel = n + 1 := ⟨fuel - 1, by simp at hfuel; omega⟩
    by_cases hmatch : Matches c len key w.ents dhte
    · exact htLocateWalk_hit hok hm hs hnd hv hmatch
    have hd := hv dhte (by simp)
    have hx := hv next (by simp)
    have hne : next ≠ dhte := by
      rintro rfl
      simp [List.nodup_append] at hnd
    unfold htLocateWalk
    rw [wp_getKey (by exact hd.1), if_pos (by exact keyCompare_ne_zero.mpr hmatch), wp_getNext (by exact hd.1)]
    simp only [World.withBook_ents, World.holding_ents, hch.1]
    have hfuel' : l.length < fuel := by simpa using hfuel
    have hnd' : ((some dhte).toList ++ next :: l).Nodup := hnd.sublist (List.sublist_append_right _ _)
    have hv' : ∀ p ∈ (some dhte).toList ++ next :: l, w.valid p = true ∧ w.locks (.entry p) = .free :=
      fun p hp => hv p (List.mem_append_right _ hp)
    cases phte with
    | none =>
      refine wp_take hok hm hx.2 (by simpa using hne) fun b₁ hb₁ => ?_
      simp only [ne_eq, not_true_eq_false, ↓reduceIte]
      refine wp_mono (ih fuel (depth + 1) (some dhte) next b₁ hfuel' hch.2 hnd' hv') fun r w' hw => ?_
      exact hw.next hmatch hb₁.misuse
    | some p =>
      have hp := hv p (by simp)
      have hpd : dhte ≠ p ∧ next ≠ p := by
        constructor <;>
        · rintro rfl
          simp at hnd
      refine wp_take hok hm hx.2 (by simp [hne, hpd.2]) fun b₁ hb₁ => ?_
      simp only [ne_eq, not_true_eq_false, ↓reduceIte]
      refine wp_give hok hm hp.2 (by simp) fun b₂ hb₂ => ?_
      simp only [ne_eq, not_true_eq_false, ↓reduceIte, Option.toList_some, List.filter_cons, hpd, not_false_eq_true,
        decide_true, decide_false, Bool.false_eq_true, List.filter_nil]
      refine wp_mono (ih fuel (depth + 1) (some dhte) next b₂ hfuel' hch.2 hnd' hv') fun r w' hw => ?_
      exact hw.next hmatch (hb₂.misuse.trans hb₁.misuse)

/-! ## Finding an entry -/

/-- Locking a bucket head that may have been left locked. -/
theorem wp_lockHead (hok : LockOk env) {o : LockOp} {m : LockState} (hm : Takes o m) {p : EntryPtr} {β : Type}
    {Q : β → World → Prop} {k : Int → Code β}
    (hl : w.locks (.entry p) = .free ∨ w.locks (.entry p) = .write)
    (h0 : ∀ b, b.errno = w.book.errno → (w.locks (.entry p) = .free → b.misuse = w.book.misuse) →
      wp env (k 0) Q ((w.setLock (.entry p) m).withBook b))
    (h1 : ∀ r b, r ≠ 0 → ¬AllZero env → w.locks (.entry p) ≠ .free → wp env (k r) Q (w.withBook b)) :
    wp env (lockCall o (.entry p) >>= k) Q w := by
  rcases hl with hl | hl
  · refine wp_lock hok (by rw [hl]; exact hm.proper) fun b hb => ?_
    rw [hm.after]
    exact h0 b hb.errno fun _ => hb.misuse
  · have hne : w.locks (.entry p) ≠ .free := by rw [hl]; simp
    rw [wp_lockCall_any rfl]
    by_cases hr : env.lockRet w.book.lockCalls o (.entry p) (w.locks (.entry p)) = 0
    · rw [if_pos hr, hr, hm.after]
      exact h0 _ rfl fun hf => absurd hf hne
    · rw [if_neg hr]
      exact h1 _ _ hr (fun ha => hr (ha _ _ _ _)) hne

/-- The bucket of a key. -/
def World.index (c : Conf) (w : World) (h : Addr) (S : Shape) (key : Nat) : Nat :=
  c.htHashBytes key (w.keyLen c h) S.count

theorem Table.index_lt (ht : Table c w h S) (key : Nat) : w.index c h S key < S.count := Nat.mod_lt _ ht.ok.pos

/-- The result of `ht_locate_entry_`: the bucket could not be locked, it has no entry with the key, or the first such entry
is returned with its lock held. -/
inductive Located (c : Conf) (env : Env) (w : World) (h : Addr) (S : Shape) (key : Nat) (m : LockState) (previous : Bool) :
    Option (EntryPtr × Option EntryPtr) → World → Prop
  | stuck (b : Book) (hz : ¬AllZero env) (hc : ¬Clean w S) : Located c env w h S key m previous none (w.withBook b)
  | missing (b : Book) (he : b.errno = ENOENT) (hb : Clean w S → b.misuse = w.book.misuse)
      (hn : ∀ q ∈ S.bucket w.ents (w.index c h S key), ¬Matches c (w.keyLen c h) key w.ents q) :
      Located c env w h S key m previous none ((w.setLock (.entry (S.head (w.index c h S key))) .free).withBook b)
  | found (b : Book) (l₁ : List EntryPtr) (d : EntryPtr) (l₂ : List EntryPtr) (p : Option EntryPtr) (hq : Quiet w.book 0 b)
      (hf : FirstMatch c (w.keyLen c h) key w.ents (S.bucket w.ents (w.index c h S key)) l₁ d l₂)
      (hp : p = if previous then l₁.getLast? else none) :
      Located c env w h S key m previous (some (d, p)) ((w.holding m (d :: p.toList)).withBook b)

theorem locateEntry_spec (hok : LockOk env) (ht : Table c w h S) {o : LockOp} {m : LockState} (hm : Takes o m)
    (key : Nat) (previous : Bool) :
    wp env (htLocateEntry_ c h key o previous) (Located c env w h S key m previous) w := by
  have hi := ht.index_lt key
  obtain ⟨i, hidef⟩ : ∃ i, i = w.index c h S key := ⟨_, rfl⟩
  rw [← hidef] at hi
  have hix : c.htHashBytes key (c.sizeOfInt (w.head h).keysize) S.count = i := hidef.symm
  have hv := ht.validHead hi
  unfold htLocateEntry_
  refine wp_count hok ht.stats fun b hb => ?_
  rw [wp_getKeysize (by exact ht.head), wp_getTable (by exact ht.head) (by exact ht.table),
    wp_getEntrycount (by exact ht.hasTable)]
  simp only [World.withBook_head, World.withBook_slab, ht.entrycount ht.ok.tableMem]
  rw [hashCompute, if_neg (Nat.pos_iff_ne_zero.mp ht.ok.pos), hix]
  show wp env (getTable h .entry >>= _) _ _
  rw [wp_getTable (by exact ht.head) (by exact ht.table), wp_getEntry (by exact ht.hasTable)]
  have hstuck : w.locks (.entry (S.head i)) ≠ .free → ¬Clean w S := fun hn hc => hn (hc _ (ht.ok.head_has hi))
  refine wp_lockHead hok hm ?_ (fun b₁ he₁ hm₁ => ?_) fun r b₁ hr hz hl => ?_
  · rcases ht.entryLocks _ (ht.ok.head_has hi) with h | ⟨-, h, -⟩
    · exact Or.inl h
    · exact Or.inr h
  · simp only [ne_eq, not_true_eq_false, ↓reduceIte, World.withBook_setLock, World.withBook_withBook]
    rw [wp_getFlags (by exact hv)]
    show wp env (if (!(w.ents (S.head i)).flags.occupied) = true then _ else _) _
      ((w.setLock (.entry (S.head i)) m).withBook b₁)
    cases hocc : (w.ents (S.head i)).flags.occupied with
    | false =>
      simp only [Bool.not_false, ↓reduceIte]
      rw [wp_setErrno]
      refine wp_lock hok (by simpa using hm.unlock) fun b₂ hb₂ => ?_
      simp only [LockOp.after, World.withBook_setLock, World.withBook_withBook, World.setLock_setLock]
      rw [hidef]
      refine wp_ret.mpr (.missing b₂ hb₂.errno (fun hc => ?_) ?_)
      · exact hb₂.misuse.trans ((hm₁ (hc _ (ht.ok.head_has hi))).trans hb.misuse)
      · simp [Shape.bucket, ← hidef, hocc]
    | true =>
      have hfree := ht.lock_free (ht.ok.head_has hi) (Or.inr hocc)
      have hhold : w.setLock (.entry (S.head i)) m = w.holding m (S.head i :: (none : Option EntryPtr).toList) := by
        rw [Option.toList_none, ← World.holding_lock, World.holding_nil]
      have hbucket : S.bucket w.ents i = S.head i :: S.chain i := by rw [Shape.bucket, if_pos hocc]
      simp only [Bool.not_true, Bool.false_eq_true, ↓reduceIte]
      rw [wp_bound, hhold]
      refine wp_mono (htLocateWalk_spec hok hm ht.stats (S.chain i) _ 0 none (S.head i) b₁ ?_ ?_ ?_ ?_) ?_
      · have hf := ht.fuel hi
        show _ < w.cells + w.mallocs + 1
        omega
      · exact ht.entries.linked.chain i hi
      · exact ht.ok.bucketNodup hi
      · intro p hp
        refine ⟨ht.valid (ht.ok.bucket_has hi hp), ?_⟩
        rcases List.mem_cons.mp hp with rfl | hp
        · exact hfree
        · exact ht.chain_lock hi hp
      · have hmis : b₁.misuse = w.book.misuse := (hm₁ hfree).trans hb.misuse
        rintro r w' (⟨rfl, hall, b₂, hb₂, rfl⟩ | ⟨l₁, d, l₂, p, b₂, hf, hb₂, hp, rfl, rfl⟩)
        · have hw : w.withBook b₂ = (w.setLock (.entry (S.head i)) .free).withBook b₂ := by rw [World.setLock_self hfree]
          rw [hw, hidef]
          refine .missing b₂ hb₂.errno (fun _ => hb₂.misuse.trans hmis) ?_
          rw [← hidef, hbucket]
          exact hall
        · refine .found b₂ l₁ d l₂ p ⟨hb₂.errno, hb₂.misuse.trans hmis⟩ ?_ hp
          rw [← hidef, hbucket]
          exact hf
  · rw [if_pos hr]
    refine wp_count hok ((ht.stats.withBook _).withBook _) fun b₂ hb₂ => ?_
    exact wp_ret.mpr (.stuck b₂ hz (hstuck hl))

/-! ## `ht_locate_key` -/

/-- The result of `ht_locate_key`. -/
inductive LocatedKey (c : Conf) (env : Env) (w : World) (h : Addr) (S : Shape) (key : Nat) : Nat → World → Prop
  | stuck (b : Book) (hz : ¬AllZero env) (hc : ¬Clean w S) : LocatedKey c env w h S key 0 (w.withBook b)
  | missing (b : Book) (he : b.errno = ENOENT) (hb : Clean w S → b.misuse = w.book.misuse)
      (hn : ∀ q ∈ S.bucket w.ents (w.index c h S key), ¬Matches c (w.keyLen c h) key w.ents q) :
      LocatedKey c env w h S key 0 ((w.setLock (.entry (S.head (w.index c h S key))) .free).withBook b)
  | found (b : Book) (l₁ : List EntryPtr) (d : EntryPtr) (l₂ : List EntryPtr) (hq : Quiet w.book 0 b)
      (hf : FirstMatch c (w.keyLen c h) key w.ents (S.bucket w.ents (w.index c h S key)) l₁ d l₂) :
      LocatedKey c env w h S key (w.ents d).data (w.withBook b)

/-- An entry in a bucket belongs to the table. -/
theorem Table.mem_bucket (ht : Table c w h S) {i : Nat} (hi : i < S.count) {p : EntryPtr} (hp : p ∈ S.bucket w.ents i) :
    S.Has p ∧ (w.ents p).flags.occupied = true ∧ p ∈ S.head i :: S.chain i := by
  unfold Shape.bucket at hp
  by_cases ho : (w.ents (S.head i)).flags.occupied = true
  · rw [if_pos ho] at hp
    refine ⟨ht.ok.bucket_has hi hp, ?_, hp⟩
    rcases List.mem_cons.mp hp with rfl | hp
    · exact ho
    · exact ht.entries.flagged.chainOccupied i hi p hp
  · rw [if_neg ho] at hp
    cases hp

theorem htLocateKey_spec (hok : LockOk env) (ht : Table c w h S) (hi : Idle w h) (key : Nat) :
    wp env (htLocateKey c h key) (LocatedKey c env w h S key) w := by
  have hlt : w.index c h S key < S.count := ht.index_lt key
  have hcall : CallLock h (.table h) := Or.inl rfl
  unfold htLocateKey htLocateEntry
  rw [Prog.bind_assoc]
  refine wp_lock hok (by rw [hi.table]; rfl) fun b hb => ?_
  rw [Prog.bind_assoc, wp_setErrno]
  simp only [ne_eq, not_true_eq_false, ↓reduceIte, Prog.bind_assoc, World.withBook_withBook, LockOp.after]
  have ht' := (ht.setLock hcall .read).withBook { b with errno := 0 }
  have hclean : Clean ((w.setLock (.table h) .read).withBook { b with errno := 0 }) S ↔ Clean w S :=
    @clean_setLock w _ _ _ hcall .read
  refine wp_spec (locateEntry_spec hok ht' (Or.inl ⟨rfl, rfl⟩) key false) ?_
  rintro r w' hr
  have hread : w'.locks (.table h) = .read := by
    cases hr with
    | stuck b' => simp
    | missing b' => simp
    | found b' l₁ d l₂ p => simp [World.holding]
  refine wp_lock hok (by rw [hread]; rfl) fun b₁ hb₁ => ?_
  simp only [not_true_eq_false, ↓reduceIte, LockOp.after]
  cases hr with
  | stuck b' hz hc =>
    apply wp_ret.mpr
    simp only [World.withBook_setLock, World.withBook_withBook, World.setLock_setLock, World.setLock_self hi.table]
    exact .stuck b₁ hz fun h => hc (hclean.mpr h)
  | missing b' he hm hn =>
    apply wp_ret.mpr
    simp only [World.withBook_setLock, World.withBook_withBook]
    rw [World.setLock_setLock_between (by simp) hi.table]
    refine .missing b₁ (hb₁.errno.trans he) (fun h => ?_) hn
    exact hb₁.misuse.trans ((hm (hclean.mpr h)).trans hb.misuse)
  | found b' l₁ d l₂ p hq hf hp =>
    have hd : d ∈ S.bucket w.ents (w.index c h S key) := by
      rw [show S.bucket w.ents (w.index c h S key) = l₁ ++ d :: l₂ from hf.split]
      simp
    obtain ⟨hhas, hocc, -⟩ := ht.mem_bucket hlt hd
    have hp' : p = none := hp
    subst hp'
    have hback : ((w.setLock (.table h) .read).holding .read [d]).setLock (.table h) .free = w.holding .read [d] := by
      rw [World.holding_setLock (by simp), World.setLock_setLock, World.setLock_self]
      exact hi.table
    have hw : (((((w.setLock (.table h) .read).withBook { b with errno := 0 }).holding .read
        (d :: (none : Option EntryPtr).toList)).withBook b').setLock (.table h) .free).withBook b₁ =
        (w.holding .read [d]).withBook b₁ := by
      have := congrArg (fun x : World => x.withBook b₁) hback
      exact this
    rw [hw]
    show wp env (getData d >>= _) _ _
    rw [wp_getData (by exact ht.valid hhas)]
    refine wp_give hok (Or.inl ⟨rfl, rfl⟩ : Takes .rdlock .read) (ht.lock_free hhas (Or.inr hocc)) (by simp) ?_
    intro b₂ hb₂
    simp only [ne_eq, not_true_eq_false, ↓reduceIte, List.filter_cons, decide_false, Bool.false_eq_true, List.filter_nil,
      World.holding_nil]
    refine wp_ret.mpr (.found b₂ l₁ d l₂ ⟨?_, ?_⟩ hf)
    · exact hb₂.errno.trans (hb₁.errno.trans hq.errno)
    · exact hb₂.misuse.trans (hb₁.misuse.trans (hq.misuse.trans hb.misuse))

end ZfsTest.Hashtable
