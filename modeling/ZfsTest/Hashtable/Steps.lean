import ZfsTest.Hashtable.Delete

/-!
# What a call does to a table

`After` collects what every call but `ht_resize` keeps: the table is there, in another arrangement of the same table slab,
its locks are free again, and no other block has changed. Each outcome of a call keeps it (`LocatedKey.after`,
`Inserted.after`, `Deleted.after`); beside it stands what the call does to the pairs in the table (`contents`).
-/

namespace ZfsTest.Hashtable

variable {c : Conf} {env : Env} {w w' w₁ w₂ : World} {h : Addr} {S S' S₁ S₂ : Shape}

/-- The pairs in the table. -/
def contents (c : Conf) (w : World) (h : Addr) (S : Shape) : Multiset (List UInt8 × Nat) :=
  pairs (c.keyBytes (w.keyLen c h)) w.ents S

/-- What a call on the table of `h` keeps. -/
structure After (c : Conf) (w : World) (h : Addr) (S : Shape) (w' : World) (S' : Shape) : Prop where
  table : Table c w' h S'
  idle : Idle w' h
  fresh : w'.Fresh
  frame : Frame (Blocks h S) w w'
  slabs : ∀ a ∈ S'.slabs, a ∈ S.slabs ∨ w.mallocs ≤ a
  kept : ∀ a ∈ S.slabs, a ∈ S'.slabs
  heads : ∀ a, w'.hasHead a = w.hasHead a
  newSlabs : ∀ a, w'.hasSlab a = true → w.hasSlab a = true ∨ a ∈ S'.slabs
  sameTable : S'.table = S.table
  sameCount : S'.count = S.count
  keysize : (w'.head h).keysize = (w.head h).keysize
  options : (w'.head h).options = (w.head h).options
  old : (w'.head h).old = (w.head h).old

theorem After.keyLen (ha : After c w h S w' S') : w'.keyLen c h = w.keyLen c h := by
  unfold World.keyLen
  rw [ha.keysize]

theorem After.trans (ha : After c w h S w₁ S₁) (hb : After c w₁ h S₁ w₂ S₂) : After c w h S w₂ S₂ where
  table := hb.table
  idle := hb.idle
  fresh := hb.fresh
  frame := by
    refine ha.frame.trans hb.frame fun a hlt hF => ?_
    rcases hF with rfl | hF
    · exact Or.inl rfl
    · rcases ha.slabs a hF with h | h
      · exact Or.inr h
      · exact absurd hlt (Nat.not_lt.mpr h)
  slabs a hm := by
    rcases hb.slabs a hm with h | h
    · exact ha.slabs a h
    · exact Or.inr (ha.frame.mallocs.trans h)
  kept a hm := hb.kept a (ha.kept a hm)
  heads a := (hb.heads a).trans (ha.heads a)
  newSlabs a hm := by
    rcases hb.newSlabs a hm with h | h
    · exact (ha.newSlabs a h).imp id (hb.kept a)
    · exact Or.inr h
  sameTable := hb.sameTable.trans ha.sameTable
  sameCount := hb.sameCount.trans ha.sameCount
  keysize := hb.keysize.trans ha.keysize
  options := hb.options.trans ha.options
  old := hb.old.trans ha.old

theorem After.withBook (ha : After c w h S w' S') (b : Book) : After c w h S (w'.withBook b) S' where
  table := ha.table.withBook b
  idle := ⟨ha.idle.table, ha.idle.free, ha.idle.resize⟩
  fresh := ⟨ha.fresh.heads, ha.fresh.slabs, ha.fresh.locks⟩
  frame := ⟨fun a hlt hn => ⟨(ha.frame.same a hlt hn).heads, (ha.frame.same a hlt hn).slabs, (ha.frame.same a hlt hn).ents,
    (ha.frame.same a hlt hn).locks⟩, ha.frame.mallocs, ha.frame.cells⟩
  slabs := ha.slabs
  kept := ha.kept
  heads := ha.heads
  newSlabs := ha.newSlabs
  sameTable := ha.sameTable
  sameCount := ha.sameCount
  keysize := ha.keysize
  options := ha.options
  old := ha.old

section

variable (hw : w.Fresh) (ht : Table c w h S) (hidle : Idle w h)
include hw ht hidle

theorem After.refl : After c w h S w S :=
  ⟨ht, hidle, hw, Frame.refl _ w, fun _ ha => Or.inl ha, fun _ ha => ha, fun _ => rfl, fun _ ha => Or.inl ha, rfl, rfl, rfl,
    rfl, rfl⟩

/-- The lock of an entry given back, or the lock of a vacant head kept. -/
theorem After.setEntryLock {p : EntryPtr} (hp : S.Has p) {st : LockState}
    (hst : st = .free ∨ p.1 = S.table ∧ st = .write ∧ (w.ents p).flags.occupied = false) :
    After c w h S (w.setLock (.entry p) st) S where
  table := ht.setEntryLock hst
  idle := ⟨by simpa using hidle.table, by simpa using hidle.free, by simpa using hidle.resize⟩
  fresh := by
    refine ⟨hw.heads, hw.slabs, fun l hl => ?_⟩
    have hle : w.mallocs ≤ l.block := hl
    have hne : l ≠ .entry p := by
      rintro rfl
      exact Nat.not_lt.mpr hle (ht.slab_lt hw hp.1)
    simpa [hne] using hw.locks l hle
  frame := by
    refine ⟨fun a _ hn => ⟨rfl, rfl, fun _ => rfl, fun l hl => ?_⟩, Nat.le_refl _, Nat.le_refl _⟩
    have hne : l ≠ .entry p := by
      rintro rfl
      exact hn (Or.inr (hl ▸ hp.1))
    simp [hne]
  slabs _ ha := Or.inl ha
  kept _ ha := ha
  heads _ := rfl
  newSlabs _ ha := Or.inl ha
  sameTable := rfl
  sameCount := rfl
  keysize := rfl
  options := rfl
  old := rfl

/-- Other entries and another free chain. -/
theorem After.reshape {ents : EntryPtr → Entry} {fc : Option EntryPtr} (htab : S'.table = S.table)
    (hcount : S'.count = S.count) (hslabs : S'.slabs = S.slabs) (hT : Table c (w.reshape h ents fc) h S')
    (hsame : ∀ p : EntryPtr, p.1 ∉ S.slabs → ents p = w.ents p) : After c w h S (w.reshape h ents fc) S' where
  table := hT
  idle := ⟨hidle.table, hidle.free, hidle.resize⟩
  fresh := hw.reshape ht.head
  frame := Frame.reshape hsame
  slabs a ha := Or.inl (hslabs ▸ ha)
  kept a ha := hslabs ▸ ha
  heads a := by
    by_cases he : a = h
    · rw [he, ht.head]
      simp [World.reshape, World.hasHead]
    · simp [World.reshape, World.hasHead, he]
  newSlabs _ ha := Or.inl ha
  sameTable := htab
  sameCount := hcount
  keysize := by rw [World.reshape_head]
  options := by rw [World.reshape_head]
  old := by rw [World.reshape_head]

theorem After.grow : After c w h S (w.grow h S.count) (S.addSlab w.mallocs) where
  table := ht.grow hw
  idle := ⟨hidle.table, hidle.free, hidle.resize⟩
  fresh := hw.grow ht
  frame := Frame.grow
  slabs a ha := by
    rcases List.mem_cons.mp ha with rfl | ha
    · exact Or.inr (Nat.le_refl _)
    · exact Or.inl ha
  kept a ha := List.mem_cons_of_mem _ ha
  heads a := by
    by_cases he : a = h
    · rw [he, ht.head]
      simp [World.grow, World.hasHead]
    · simp [World.grow, World.hasHead, he]
  newSlabs a ha := by
    by_cases hm : a = w.mallocs
    · exact Or.inr (hm ▸ List.mem_cons_self)
    · apply Or.inl
      simpa [World.grow, World.hasSlab, hm] using ha
  sameTable := rfl
  sameCount := rfl
  keysize := by simp [World.grow, World.head]
  options := by simp [World.grow, World.head]
  old := by simp [World.grow, World.head]

theorem After.noMalloc : After c w h S w.noMalloc S where
  table := ⟨⟨ht.head, ht.stats.counter, ht.stats.average⟩, ht.table, ht.threshold, ht.slabs, ht.slabsNodup, ht.live,
    ht.cells, ht.entries, ht.entryLocks⟩
  idle := ⟨hidle.table, hidle.free, hidle.resize⟩
  fresh := ⟨fun a ha => hw.heads a (Nat.le_of_succ_le ha), fun a ha => hw.slabs a (Nat.le_of_succ_le ha),
    fun l hl => hw.locks l (Nat.le_of_succ_le hl)⟩
  frame := ⟨fun _ _ _ => ⟨rfl, rfl, fun _ => rfl, fun _ _ => rfl⟩, Nat.le_succ _, Nat.le_refl _⟩
  slabs _ ha := Or.inl ha
  kept _ ha := ha
  heads _ := rfl
  newSlabs _ ha := Or.inl ha
  sameTable := rfl
  sameCount := rfl
  keysize := rfl
  options := rfl
  old := rfl

end

/-- Entries whose flags have changed must not be locked. -/
theorem Table.relock (ht : Table c w h S) {ents : EntryPtr → Entry}
    (hl : ∀ p, S.Has p → w.locks (.entry p) = .free ∨ (ents p).flags = (w.ents p).flags) :
    ∀ p, S.Has p → w.locks (.entry p) = .free ∨
      p.1 = S.table ∧ w.locks (.entry p) = .write ∧ (ents p).flags.occupied = false := by
  intro p hp
  rcases hl p hp with h | h
  · exact Or.inl h
  · rw [h]
    exact ht.entryLocks p hp

section Effects

variable (hw : w.Fresh) (ht : Table c w h S) (hidle : Idle w h) {i : Nat} (hi : i < S.count)
include hw ht hidle hi

/-- A vacant head filled. -/
theorem After.filled (hocc : (w.ents (S.head i)).flags.occupied = false) (hl : w.locks (.entry (S.head i)) = .free)
    {key data : Nat} (hk : w.index c h S key = i) :
    After c w h S (w.filled h (S.head i) key data) S ∧
      contents c (w.filled h (S.head i) key data) h S = (c.keyBytes (w.keyLen c h) key, data) ::ₘ contents c w h S := by
  have hinit := ht.entries.flagged.init _ (ht.ok.head_has hi)
  have he := ht.entries.setHead hi (k := key) (d := data) (f := { (w.ents (S.head i)).flags with occupied := true }) hinit
    (fun h => nomatch h) (fun _ => hk)
  refine ⟨After.reshape hw ht hidle rfl rfl rfl (ht.reshape rfl rfl rfl he (ht.relock fun p _ => ?_)) fun p hp => ?_, ?_⟩
  · by_cases hpe : p = S.head i
    · rw [hpe]; exact Or.inl hl
    · rw [upd_ne _ _ hpe]; exact Or.inr rfl
  · exact upd_ne _ _ fun e => hp (e ▸ ht.ok.tableMem)
  · have hkl : (w.filled h (S.head i) key data).keyLen c h = w.keyLen c h := by
      simp [World.filled, World.keyLen, World.reshape_head]
    unfold contents
    rw [hkl]
    exact pairs_fill ht.entries hi hocc rfl

/-- A free entry hung behind an occupied head. -/
theorem After.linked (hocc : (w.ents (S.head i)).flags.occupied = true) {o : EntryPtr} {fs : List EntryPtr}
    (hf : S.free = o :: fs) {key data : Nat} (hk : w.index c h S key = i) :
    After c w h S (w.linked h (S.head i) o key data) (S.link i o fs) ∧
      contents c (w.linked h (S.head i) o key data) h (S.link i o fs) =
        (c.keyBytes (w.keyLen c h) key, data) ::ₘ contents c w h S := by
  have hof : o ∈ S.free := by rw [hf]; exact List.mem_cons_self
  have hinit := ht.entries.flagged.init _ (ht.ok.free_has hof)
  have he := ht.entries.link hi hf (k := key) (d := data) (f := { (w.ents o).flags with occupied := true }) hk hocc rfl hinit
  refine ⟨After.reshape hw ht hidle rfl rfl rfl (ht.reshape rfl rfl rfl he (ht.relock fun p hp => ?_)) fun p hp => ?_, ?_⟩
  · by_cases hpo : p = o
    · rw [hpo]
      exact Or.inl (ht.lock_free (ht.ok.free_has hof) (Or.inl (ht.free_not_table hof)))
    · by_cases hph : p = S.head i
      · rw [hph, upd_self]; exact Or.inr rfl
      · rw [upd_ne _ _ hph, upd_ne _ _ hpo]; exact Or.inr rfl
  · have hout : ∀ q, S.Has q → p ≠ q := fun q hq e => hp (e ▸ hq.1)
    rw [upd_ne _ _ (hout _ (ht.ok.head_has hi)), upd_ne _ _ (hout _ (ht.ok.free_has hof))]
  · have hkl : (w.linked h (S.head i) o key data).keyLen c h = w.keyLen c h := by
      simp [World.linked, World.keyLen, World.reshape_head]
    unfold contents
    rw [hkl]
    exact pairs_link ht.entries hi hf hocc

/-- A head without chain marked vacant; it may be locked. -/
theorem After.vacated (hocc : (w.ents (S.head i)).flags.occupied = true) (hc : S.chain i = []) :
    After c w h S (w.vacated h (S.head i)) S ∧
      contents c w h S = pairOf (c.keyBytes (w.keyLen c h)) w.ents (S.head i) ::ₘ
        contents c (w.vacated h (S.head i)) h S := by
  have hinit := ht.entries.flagged.init _ (ht.ok.head_has hi)
  have he := ht.entries.setHead hi (k := (w.ents (S.head i)).key) (d := (w.ents (S.head i)).data)
    (f := { (w.ents (S.head i)).flags with occupied := false }) hinit (fun _ => hc) (fun h => nomatch h)
  refine ⟨After.reshape hw ht hidle rfl rfl rfl (ht.reshape rfl rfl rfl he (ht.relock fun p hp => ?_)) fun p hp => ?_, ?_⟩
  · by_cases hpe : p = S.head i
    · rw [hpe]
      exact Or.inl (ht.lock_free (ht.ok.head_has hi) (Or.inr hocc))
    · rw [upd_ne _ _ hpe]; exact Or.inr rfl
  · exact upd_ne _ _ fun e => hp (e ▸ ht.ok.tableMem)
  · have hkl : (w.vacated h (S.head i)).keyLen c h = w.keyLen c h := by
      simp [World.vacated, World.keyLen, World.reshape_head]
    unfold contents
    rw [hkl]
    exact pairs_vacate ht.entries hi hocc hc rfl

/-- An entry of the chain moved to the free chain. -/
theorem After.unlinked {a d : EntryPtr} {l₀ l₁ l₂ : List EntryPtr} (hc : S.chain i = l₁ ++ d :: l₂)
    (ha : S.head i :: l₁ = l₀ ++ [a]) :
    After c w h S (w.unlinked h a d) (S.unlink i d (l₁ ++ l₂)) ∧
      contents c w h S = pairOf (c.keyBytes (w.keyLen c h)) w.ents d ::ₘ
        contents c (w.unlinked h a d) h (S.unlink i d (l₁ ++ l₂)) := by
  have hd : d ∈ S.chain i := by rw [hc]; simp
  have ham : a ∈ S.head i :: S.chain i := by
    rw [hc, ← List.cons_append, ha]
    simp
  have hinit := ht.entries.flagged.init _ (ht.ok.chain_has hi hd)
  have he := ht.entries.unlink hi hc ha (f := { (w.ents d).flags with occupied := false }) rfl hinit
  refine ⟨After.reshape hw ht hidle rfl rfl rfl (ht.reshape rfl rfl rfl he (ht.relock fun p hp => ?_)) fun p hp => ?_, ?_⟩
  · by_cases hpd : p = d
    · rw [hpd]
      exact Or.inl (ht.chain_lock hi hd)
    · rw [upd_ne _ _ hpd]
      by_cases hpa : p = a
      · rw [hpa, upd_self]; exact Or.inr rfl
      · rw [upd_ne _ _ hpa]; exact Or.inr rfl
  · have hout : ∀ q, S.Has q → p ≠ q := fun q hq e => hp (e ▸ hq.1)
    rw [upd_ne _ _ (hout _ (ht.ok.chain_has hi hd)), upd_ne _ _ (hout _ (ht.ok.bucket_has hi ham))]
  · have hkl : (w.unlinked h a d).keyLen c h = w.keyLen c h := by
      simp [World.unlinked, World.keyLen, World.reshape_head]
    unfold contents
    rw [hkl]
    exact pairs_unlink ht.entries hi hc

/-- The head of a bucket given the payload of an entry of its chain. -/
theorem After.copied (hocc : (w.ents (S.head i)).flags.occupied = true) {d : EntryPtr} (hd : d ∈ S.chain i) :
    After c w h S (w.copied h (S.head i) d) S ∧
      pairOf (c.keyBytes (w.keyLen c h)) w.ents (S.head i) ::ₘ contents c (w.copied h (S.head i) d) h S =
        pairOf (c.keyBytes (w.keyLen c h)) w.ents d ::ₘ contents c w h S := by
  have hinit := ht.entries.flagged.init _ (ht.ok.chain_has hi hd)
  have hdocc := ht.entries.flagged.chainOccupied i hi d hd
  have hhash := ht.entries.flagged.hash i hi d (List.mem_cons_of_mem _ hd) hdocc
  have he := ht.entries.setHead hi (k := (w.ents d).key) (d := (w.ents d).data) (f := (w.ents d).flags) hinit
    (fun h => absurd (hdocc.symm.trans h) (by simp)) (fun _ => hhash)
  refine ⟨After.reshape hw ht hidle rfl rfl rfl (ht.reshape rfl rfl rfl he (ht.relock fun p hp => ?_)) fun p hp => ?_, ?_⟩
  · by_cases hpe : p = S.head i
    · rw [hpe]
      exact Or.inl (ht.lock_free (ht.ok.head_has hi) (Or.inr hocc))
    · rw [upd_ne _ _ hpe]; exact Or.inr rfl
  · exact upd_ne _ _ fun e => hp (e ▸ ht.ok.tableMem)
  · have hkl : (w.copied h (S.head i) d).keyLen c h = w.keyLen c h := by
      simp [World.copied, World.keyLen, World.reshape_head]
    unfold contents
    rw [hkl]
    exact pairs_replace ht.entries hi hocc hdocc

end Effects

/-! ## The outcomes of a call -/

theorem contents_congr (he : w'.ents = w.ents) (hk : w'.keyLen c h = w.keyLen c h) :
    contents c w' h S = contents c w h S := by
  unfold contents
  rw [he, hk]

theorem Clean.congr (hc : Clean w S) (hhas : ∀ p, S'.Has p → S.Has p)
    (hl : ∀ p, S.Has p → w'.locks (.entry p) = w.locks (.entry p)) : Clean w' S' :=
  fun p hp => (hl p (hhas p hp)).trans (hc p (hhas p hp))

/-- The data `ht_delete_key` returns when it finds the key at `q`, with the entries `l₁` of the bucket before it and `l₂`
behind it: a head with a successor returns the successor's. -/
def deleteReturns (w : World) : List EntryPtr → EntryPtr → List EntryPtr → Nat
  | [], _, s :: _ => (w.ents s).data
  | _, q, _ => (w.ents q).data

/-- The pair of an entry with the key. -/
theorem pairOf_matches {key : Nat} {q : EntryPtr} (hm : Matches c (w.keyLen c h) key w.ents q) :
    pairOf (c.keyBytes (w.keyLen c h)) w.ents q = (c.keyBytes (w.keyLen c h) key, (w.ents q).data) := by
  unfold pairOf
  rw [hm]

/-- What an insertion took from the supply of free entries: nothing that was not there, the entries of a new slab, or
nothing because the slab could not be had. -/
inductive Supplied (c : Conf) (env : Env) (w : World) (h : Addr) (S : Shape) (key : Nat) (w' : World) (S' : Shape) :
    Int → Prop
  | kept {r : Int} (hm : w'.mallocs = w.mallocs) (hs : S'.slabs = S.slabs) (hf : S'.free.length ≤ S.free.length)
      (hr : r = 0 ∨ ¬Clean w S ∨ (w.head h).options.dupsAllowed = false ∧
        ∃ q ∈ S.bucket w.ents (w.index c h S key), Matches c (w.keyLen c h) key w.ents q) :
      Supplied c env w h S key w' S' r
  | grown (hf : S.free = []) (ha : env.malloc w.mallocs ≠ none) (hm : w'.mallocs = w.mallocs + 1)
      (hs : S'.slabs = w.mallocs :: S.slabs) (hf' : S'.free.length < S.count) : Supplied c env w h S key w' S' 0
  | failed (hf : S.free = []) (ha : env.malloc w.mallocs = none) (hm : w'.mallocs = w.mallocs + 1) (hs : S' = S)
      (hocc : (w.ents (S.head (w.index c h S key))).flags.occupied = true) : Supplied c env w h S key w' S' (-1)

section Outcomes

variable (hw : w.Fresh) (ht : Table c w h S) (hidle : Idle w h)
include hw ht hidle

theorem LocatedKey.after {key r : Nat} (hr : LocatedKey c env w h S key r w') :
    After c w h S w' S ∧ w'.ents = w.ents ∧ (Clean w S → Clean w' S ∧ w'.book.misuse = w.book.misuse) := by
  have hhas := ht.ok.head_has (ht.index_lt key)
  cases hr with
  | stuck b hz hc => exact ⟨(After.refl hw ht hidle).withBook b, rfl, fun h => absurd h hc⟩
  | missing b he hb hn =>
    exact ⟨(After.setEntryLock hw ht hidle hhas (Or.inl rfl)).withBook b, rfl, fun h => ⟨h.unlockEntry _, hb h⟩⟩
  | found b l₁ d l₂ hq hf => exact ⟨(After.refl hw ht hidle).withBook b, rfl, fun h => ⟨h, hq.misuse⟩⟩

/-- Inserting adds the pair when it returns `0`, and changes nothing else. -/
theorem Inserted.after {key data : Nat} {r : Int} (hr : Inserted c env w h S key data r w') :
    ∃ S', After c w h S w' S' ∧ (Clean w S → Clean w' S' ∧ w'.book.misuse = w.book.misuse) ∧
      Supplied c env w h S key w' S' r ∧ contents c w' h S' =
        if r = 0 then (c.keyBytes (w.keyLen c h) key, data) ::ₘ contents c w h S else contents c w h S := by
  have hi := ht.index_lt key
  have hhas := ht.ok.head_has hi
  cases hr with
  | stuck b hz hc =>
    exact ⟨S, (After.refl hw ht hidle).withBook b, fun h => absurd h hc,
      .kept rfl rfl (Nat.le_refl _) (Or.inr (Or.inl hc)), rfl⟩
  | filled b hb hocc =>
    have h1 := After.setEntryLock hw ht hidle hhas (Or.inl rfl)
    have h2 := @After.filled _ _ _ _ h1.fresh h1.table h1.idle _ hi hocc (by simp) _ data (rfl : _ = w.index c h S key)
    exact ⟨S, (h1.trans h2.1).withBook b, fun h => ⟨h.unlockEntry _, hb h⟩,
      .kept rfl rfl (Nat.le_refl _) (Or.inl rfl), h2.2⟩
  | present b hb hdups hm =>
    exact ⟨S, (After.refl hw ht hidle).withBook b, fun h => ⟨h, hb.misuse⟩,
      .kept rfl rfl (Nat.le_refl _) (Or.inr (Or.inr ⟨hdups, hm⟩)), rfl⟩
  | chained b hocc hm hb hr =>
    cases hr with
    | linked o fs hf b' hb' =>
      have h1 := @After.linked _ _ _ _ hw ht hidle _ hi hocc _ _ hf _ data (rfl : _ = w.index c h S key)
      refine ⟨_, h1.1.withBook b', fun h => ⟨h.congr (fun p hp => hp) fun _ _ => rfl, hb'.trans hb⟩,
        .kept rfl rfl ?_ (Or.inl rfl), h1.2⟩
      show fs.length ≤ S.free.length
      rw [hf]
      exact Nat.le_succ _
    | grown hf hm b' hb' =>
      have h1 := After.grow hw ht hidle
      have hlt := Nat.ne_of_lt (ht.slab_lt hw ht.ok.tableMem)
      have hocc' : ((w.grow h S.count).ents (S.head (w.index c h S key))).flags.occupied = true := by
        simpa [World.grow, hlt] using hocc
      have hkl := h1.keyLen
      have hidx : (w.grow h S.count).index c h (S.addSlab w.mallocs) key = w.index c h S key := by
        unfold World.index
        rw [hkl]
        rfl
      have hfree : (S.addSlab w.mallocs).free =
          (w.mallocs, 0) :: (List.range' 1 (S.count - 1)).map (fun j => (w.mallocs, j)) := by
        obtain ⟨n, hn⟩ : ∃ n, S.count = n + 1 := ⟨S.count - 1, by have := ht.ok.pos; omega⟩
        simp [Shape.addSlab, hf, hn, List.range_eq_range', List.range'_succ]
      have h2 := @After.linked _ _ _ _ h1.fresh h1.table h1.idle _ hi hocc' _ _ hfree _ data hidx
      refine ⟨_, (h1.trans h2.1).withBook b', fun hc => ⟨?_, hb'.trans hb⟩, .grown hf hm rfl rfl ?_, ?_⟩
      · exact (hc.grow (h := h)).congr (fun p hp => hp) fun _ _ => rfl
      · have hpos := ht.ok.pos
        simp only [Shape.link, List.length_map, List.length_range']
        omega
      · rw [if_pos rfl]
        apply h2.2.trans
        rw [hkl]
        congr 1
        unfold contents
        rw [hkl]
        exact pairs_grow hw ht _
    | failed hf hm b' hb' =>
      exact ⟨S, (After.noMalloc hw ht hidle).withBook b', fun h => ⟨h, hb'.trans hb⟩, .failed hf hm rfl rfl hocc, rfl⟩

/-- The outcome of deleting in one statement: nothing is removed, or the pair of the first entry `q` with the key. -/
theorem Deleted.after {key r : Nat} (hr : Deleted c env w h S key r w') :
    ∃ S', After c w h S w' S' ∧ (Clean w S → w'.book.misuse = w.book.misuse) ∧
      ((r = 0 ∧ contents c w' h S' = contents c w h S ∧ (Clean w S → Clean w' S') ∧
          (AllZero env ∨ Clean w S →
            ∀ q ∈ S.bucket w.ents (w.index c h S key), ¬Matches c (w.keyLen c h) key w.ents q)) ∨
        ∃ l₁ q l₂, FirstMatch c (w.keyLen c h) key w.ents (S.bucket w.ents (w.index c h S key)) l₁ q l₂ ∧
          r = deleteReturns w l₁ q l₂ ∧
          contents c w h S = (c.keyBytes (w.keyLen c h) key, (w.ents q).data) ::ₘ contents c w' h S' ∧
          (Clean w S → (Clean w' S' ↔ ¬(l₁ = [] ∧ l₂ = [])))) := by
  have hi := ht.index_lt key
  have hhas := ht.ok.head_has hi
  cases hr with
  | stuck b hz hc =>
    refine ⟨S, (After.refl hw ht hidle).withBook b, fun h => absurd h hc, Or.inl ⟨rfl, rfl, fun h => absurd h hc, ?_⟩⟩
    rintro (h | h)
    · exact absurd h hz
    · exact absurd h hc
  | missing b he hb hn =>
    exact ⟨S, (After.setEntryLock hw ht hidle hhas (Or.inl rfl)).withBook b, hb,
      Or.inl ⟨rfl, rfl, fun h => h.unlockEntry _, fun _ => hn⟩⟩
  | sole b hq hp hocc hm hc =>
    subst hp
    have h1 := After.vacated hw ht hidle hi hocc hc
    have h2 := After.setEntryLock h1.1.fresh h1.1.table h1.1.idle hhas
      (Or.inr ⟨rfl, rfl, by simp [World.vacated]⟩)
    refine ⟨S, (h1.1.trans h2).withBook b, fun _ => hq.misuse, Or.inr ⟨[], _, [], ⟨?_, by simp, hm⟩, rfl, ?_, fun _ => ?_⟩⟩
    · rw [Shape.bucket, if_pos hocc, hc]
      rfl
    · rw [← pairOf_matches hm]
      exact h1.2
    · simp only [and_self, not_true_eq_false, iff_false]
      intro hclean
      have := hclean _ hhas
      simp at this
  | @head b hq p hp hocc hm d l hc =>
    subst hp
    have hd : d ∈ S.chain (w.index c h S key) := by rw [hc]; exact List.mem_cons_self
    have h1 := After.copied hw ht hidle hi hocc hd
    have h2 := @After.unlinked _ _ _ _ h1.1.fresh h1.1.table h1.1.idle _ hi (S.head (w.index c h S key)) _ [] [] l hc rfl
    refine ⟨_, (h1.1.trans h2.1).withBook b, fun _ => hq.misuse,
      Or.inr ⟨[], _, d :: l, ⟨?_, by simp, hm⟩, rfl, ?_, fun hclean => ?_⟩⟩
    · rw [Shape.bucket, if_pos hocc, hc]
      rfl
    · have hkl : (w.copied h (S.head (w.index c h S key)) d).keyLen c h = w.keyLen c h := h1.1.keyLen
      have hpd : pairOf (c.keyBytes ((w.copied h (S.head (w.index c h S key)) d).keyLen c h))
          (w.copied h (S.head (w.index c h S key)) d).ents d = pairOf (c.keyBytes (w.keyLen c h)) w.ents d := by
        rw [hkl]
        unfold pairOf
        simp only [World.copied, World.reshape_ents]
        rw [upd_ne _ _ (ht.ok.chain_ne_head hi hi hd)]
      rw [← pairOf_matches hm]
      have h3 := h1.2
      rw [h2.2, hpd, Multiset.cons_swap, Multiset.cons_inj_right] at h3
      exact h3.symm
    · simp only [reduceCtorEq, and_false, not_false_eq_true, iff_true]
      exact hclean.congr (fun p hp => hp) fun _ _ => rfl
  | @deep b hq l₀ l₁ l₂ a d hocc hm hn hc ha =>
    have h1 := After.unlinked hw ht hidle hi hc ha
    refine ⟨_, h1.1.withBook b, fun _ => hq.misuse,
      Or.inr ⟨S.head (w.index c h S key) :: l₁, d, l₂, ⟨?_, hn, hm⟩, rfl, ?_, fun hclean => ?_⟩⟩
    · rw [Shape.bucket, if_pos hocc, hc]
      rfl
    · rw [← pairOf_matches hm]
      exact h1.2
    · simp only [reduceCtorEq, false_and, not_false_eq_true, iff_true]
      exact hclean.congr (fun p hp => hp) fun _ _ => rfl

end Outcomes

end ZfsTest.Hashtable
