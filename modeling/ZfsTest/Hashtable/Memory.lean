import ZfsTest.Hashtable.Runs

/-!
# Keys in memory that changes

A table keeps the addresses of its keys. When the caller's memory changes, the table stays in order and holds the same pairs as long as
the keys of its entries are the same (`Held.withMem`, `contents_withMem`). `Inserted.used` says which addresses an insertion adds.
-/

namespace ZfsTest.Hashtable

variable {c : Conf} {env : Env} {w w' : World} {h : Addr} {S : Shape} {P : List (Addr × List Addr)} {mem : Nat → UInt8}

/-- The keys lie in the memory `mem`. -/
def Conf.withMem (c : Conf) (mem : Nat → UInt8) : Conf := { c with mem := mem }

@[simp] theorem Conf.withMem_mem : (c.withMem mem).mem = mem := rfl

@[simp] theorem keyLen_withMem : w.keyLen (c.withMem mem) h = w.keyLen c h := rfl

theorem keyBytes_congr {len k k' : Nat} {c' : Conf} (hm : ∀ i, i < len → c'.mem (k' + i) = c.mem (k + i)) :
    c'.keyBytes len k' = c.keyBytes len k :=
  List.map_congr_left fun i hi => hm i (List.mem_range.mp hi)

theorem keyBytes_eq {len k k' : Nat} {c' : Conf} (hb : c'.keyBytes len k' = c.keyBytes len k) {i : Nat} (hi : i < len) :
    c'.mem (k' + i) = c.mem (k + i) :=
  List.map_inj_left.mp hb i (List.mem_range.mpr hi)

/-- The keys of the entries in use have not changed. -/
def KeysKept (c : Conf) (w : World) (h : Addr) (mem : Nat → UInt8) : Prop :=
  ∀ p, (w.ents p).flags.occupied = true → ∀ i, i < w.keyLen c h → mem ((w.ents p).key + i) = c.mem ((w.ents p).key + i)

theorem KeysKept.keyBytes (hk : KeysKept c w h mem) {p : EntryPtr} (hp : (w.ents p).flags.occupied = true) :
    (c.withMem mem).keyBytes (w.keyLen c h) (w.ents p).key = c.keyBytes (w.keyLen c h) (w.ents p).key := keyBytes_congr (hk p hp)

theorem Table.withMem (ht : Table c w h S) (hk : KeysKept c w h mem) : Table (c.withMem mem) w h S := by
  have hf := ht.entries.flagged
  refine ⟨ht.stats, ht.table, ht.threshold, ht.slabs, ht.slabsNodup, ht.live, ht.cells,
    ⟨ht.ok, ht.entries.linked, hf.init, hf.empty, hf.chainOccupied, hf.freeVacant, fun i hi p hp ho => ?_⟩, ht.entryLocks⟩
  rw [keyLen_withMem, hk.keyBytes ho]
  exact hf.hash i hi p hp ho

theorem contents_withMem (ht : Table c w h S) (hk : KeysKept c w h mem) : contents (c.withMem mem) w h S = contents c w h S := by
  unfold contents pairs
  refine Finset.sum_congr rfl fun i hi => ?_
  unfold bucketPairs
  congr 1
  refine List.map_congr_left fun p hp => ?_
  obtain ⟨-, ho, -⟩ := ht.mem_bucket (Finset.mem_range.mp hi) hp
  exact Prod.ext (hk.keyBytes ho) rfl

theorem Held.withMem (hh : Held c w h S P) (hk : KeysKept c w h mem) : Held (c.withMem mem) w h S P where
  fresh := hh.fresh
  table := hh.table.withMem hk
  old := hh.old
  nodup := hh.nodup
  heads := hh.heads
  slabs := hh.slabs
  keysize := hh.keysize
  distinct hd := by
    rw [contents_withMem hh.table hk]
    exact hh.distinct hd

/-- The entries in use of `w'` are those of `w`, and one with the key at `key`. -/
def Uses (w w' : World) (key data : Nat) : Prop := ∀ p, (w'.ents p).flags.occupied = true →
  ((w.ents p).flags.occupied = true ∧ (w'.ents p).key = (w.ents p).key ∧ (w'.ents p).data = (w.ents p).data) ∨
    ((w'.ents p).key = key ∧ (w'.ents p).data = data)

theorem uses_of_eq {key data : Nat} (he : w'.ents = w.ents) : Uses w w' key data := by
  intro p hp
  rw [he] at hp ⊢
  exact Or.inl ⟨hp, rfl, rfl⟩

theorem uses_filled (d : EntryPtr) (key data : Nat) : Uses w (w.filled h d key data) key data := by
  intro p hp
  simp only [World.filled, World.reshape_ents] at hp ⊢
  by_cases hpd : p = d
  · rw [hpd, upd_self]
    exact Or.inr ⟨rfl, rfl⟩
  · rw [upd_ne _ _ hpd] at hp ⊢
    exact Or.inl ⟨hp, rfl, rfl⟩

theorem uses_linked {d : EntryPtr} (hocc : (w.ents d).flags.occupied = true) (o : EntryPtr) (key data : Nat) :
    Uses w (w.linked h d o key data) key data := by
  intro p hp
  simp only [World.linked, World.reshape_ents] at hp ⊢
  by_cases hpd : p = d
  · rw [hpd, upd_self]
    exact Or.inl ⟨hocc, rfl, rfl⟩
  · rw [upd_ne _ _ hpd] at hp ⊢
    by_cases hpo : p = o
    · rw [hpo, upd_self]
      exact Or.inr ⟨rfl, rfl⟩
    · rw [upd_ne _ _ hpo] at hp ⊢
      exact Or.inl ⟨hp, rfl, rfl⟩

/-- No entry of a new slab is in use. -/
theorem grow_used {n : Nat} {p : EntryPtr} (hp : ((w.grow h n).ents p).flags.occupied = true) :
    (w.grow h n).ents p = w.ents p := by
  simp only [World.grow] at hp ⊢
  by_cases hnew : p.1 = w.mallocs ∧ p.2 < n
  · rw [if_pos hnew] at hp
    cases hp
  · rw [if_neg hnew]

/-- An insertion puts one entry in use. -/
theorem Inserted.uses (hw : w.Fresh) (ht : Table c w h S) {key data : Nat} {r : Int} (hr : Inserted c env w h S key data r w') :
    Uses w w' key data := by
  cases hr with
  | stuck b hz hc => exact uses_of_eq rfl
  | present b hb hd hm => exact uses_of_eq rfl
  | filled b hb hocc => exact uses_filled (h := h) _ key data
  | chained b hocc hm hb hr =>
    cases hr with
    | linked o fs hf b' hb' => exact uses_linked (h := h) hocc o key data
    | failed hf hm b' hb' => exact uses_of_eq rfl
    | grown hf hm b' hb' =>
      have hlt : S.table ≠ w.mallocs := Nat.ne_of_lt (ht.slab_lt hw ht.ok.tableMem)
      have hhead : ((w.grow h S.count).ents (S.head (w.index c h S key))).flags.occupied = true := by
        simpa [World.grow, hlt] using hocc
      intro p hp
      rcases uses_linked (h := h) hhead (w.mallocs, 0) key data p hp with ⟨ho, hk, hd⟩ | hnew
      · have hsame := grow_used ho
        rw [hsame] at ho hk hd
        exact Or.inl ⟨ho, hk, hd⟩
      · exact Or.inr hnew

/-- An insertion that fails leaves the entries as they are. -/
theorem Inserted.ents {key data : Nat} {r : Int} (hr : Inserted c env w h S key data r w') (hne : r ≠ 0) : w'.ents = w.ents := by
  cases hr with
  | stuck b hz hc => rfl
  | present b hb hd hm => rfl
  | filled b hb hocc => exact absurd rfl hne
  | chained b hocc hm hb hr =>
    cases hr with
    | linked o fs hf b' hb' => exact absurd rfl hne
    | grown hf hm b' hb' => exact absurd rfl hne
    | failed hf hm b' hb' => rfl

/-- What locating a key found, when no entry is locked. -/
theorem LocatedKey.result (ht : Table c w h S) {key r : Nat} (hr : LocatedKey c env w h S key r w') (hcl : Clean w S) :
    (r = 0 ∧ w'.book.errno = ENOENT ∧ ∀ d, (c.keyBytes (w.keyLen c h) key, d) ∉ contents c w h S) ∨
      (c.keyBytes (w.keyLen c h) key, r) ∈ contents c w h S := by
  cases hr with
  | stuck b hz hc => exact absurd hcl hc
  | missing b he hb hn => exact Or.inl ⟨rfl, he, ht.not_mem_pairs hn⟩
  | found b l₁ d l₂ hq hf =>
    refine Or.inr (ht.mem_pairs.mpr ⟨d, ?_, hf.here, rfl⟩)
    rw [hf.split]
    exact List.mem_append_right _ List.mem_cons_self

end ZfsTest.Hashtable
