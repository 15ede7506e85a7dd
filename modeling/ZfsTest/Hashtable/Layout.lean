import ZfsTest.Hashtable.Create
import Mathlib.Data.List.Perm.Subperm
import Mathlib.Data.List.ProdSigma
import Mathlib.Algebra.BigOperators.Group.Finset.Basic
import Mathlib.Algebra.Order.Group.Multiset

/-!
# How the entries of a table are arranged

A `Shape` says where every entry of the slabs of a table stands: it is the head of a bucket (an entry of the table slab),
on the chain of a bucket, or on the free chain (`Shape.Ok`). `Linked` says that the links of the entries follow a shape,
`Flagged` that flags and keys do; `Entries` is all three. The pointer surgery of the library is described once here, on
entries alone: filling or emptying a head (`Entries.reflag`), moving an entry from the free chain to a bucket
(`Entries.link`) and back (`Entries.unlink`), and adding a slab (`Entries.addSlab`).
-/

namespace ZfsTest.Hashtable

/-- The place of an entry. -/
inductive Loc
  | head (i : Nat)
  | chain (i : Nat)
  | free
  deriving DecidableEq

/-- An arrangement of the entries of `slabs`, `count` in each, the heads in `table`. -/
structure Shape where
  table : Addr
  count : Nat
  slabs : List Addr
  loc : EntryPtr → Loc
  chain : Nat → List EntryPtr
  free : List EntryPtr

namespace Shape

/-- The entry belongs to the table. -/
def Has (S : Shape) (p : EntryPtr) : Prop := p.1 ∈ S.slabs ∧ p.2 < S.count

/-- The head of bucket `i`. -/
abbrev head (S : Shape) (i : Nat) : EntryPtr := (S.table, i)

/-- The free entry `o` moved to the front of the chain of bucket `i`. -/
def link (S : Shape) (i : Nat) (o : EntryPtr) (fs : List EntryPtr) : Shape :=
  { S with
    loc := fun p => if p = o then .chain i else S.loc p
    chain := fun j => if j = i then o :: S.chain i else S.chain j
    free := fs }

/-- The entry `d` of bucket `i` moved to the front of the free chain; `l` is left of the chain. -/
def unlink (S : Shape) (i : Nat) (d : EntryPtr) (l : List EntryPtr) : Shape :=
  { S with
    loc := fun p => if p = d then .free else S.loc p
    chain := fun j => if j = i then l else S.chain j
    free := d :: S.free }

/-- The entries of the slab `s` put before the free chain. -/
def addSlab (S : Shape) (s : Addr) : Shape :=
  { S with
    slabs := s :: S.slabs
    loc := fun p => if p.1 = s then .free else S.loc p
    free := (List.range S.count).map (fun j => (s, j)) ++ S.free }

/-- Every entry has one place. -/
structure Ok (S : Shape) : Prop where
  pos : 0 < S.count
  tableMem : S.table ∈ S.slabs
  loc : ∀ p, S.Has p → ∀ i, S.loc p = .head i ↔ p = S.head i
  locBound : ∀ p, S.Has p → ∀ i, S.loc p = .chain i → i < S.count
  chainMem : ∀ i, i < S.count → ∀ p, p ∈ S.chain i ↔ S.Has p ∧ S.loc p = .chain i
  chainNodup : ∀ i, i < S.count → (S.chain i).Nodup
  freeMem : ∀ p, p ∈ S.free ↔ S.Has p ∧ S.loc p = .free
  freeNodup : S.free.Nodup

namespace Ok

variable {S : Shape} (he : S.Ok)
include he

theorem head_has {i : Nat} (hi : i < S.count) : S.Has (S.head i) := ⟨he.tableMem, hi⟩

theorem head_loc {i : Nat} (hi : i < S.count) : S.loc (S.head i) = .head i :=
  (he.loc _ (he.head_has hi) i).mpr rfl

theorem chain_has {i : Nat} (hi : i < S.count) {p : EntryPtr} (hp : p ∈ S.chain i) : S.Has p :=
  ((he.chainMem i hi p).mp hp).1

theorem bucket_has {i : Nat} (hi : i < S.count) {p : EntryPtr} (hp : p ∈ S.head i :: S.chain i) : S.Has p := by
  rcases List.mem_cons.mp hp with rfl | hp
  · exact he.head_has hi
  · exact he.chain_has hi hp

theorem free_has {p : EntryPtr} (hp : p ∈ S.free) : S.Has p := ((he.freeMem p).mp hp).1

theorem chain_ne_head {i j : Nat} (hi : i < S.count) (hj : j < S.count) {p : EntryPtr} (hp : p ∈ S.chain i) :
    p ≠ S.head j := by
  rintro rfl
  have h := ((he.chainMem i hi _).mp hp).2
  rw [he.head_loc hj] at h
  exact Loc.noConfusion h

theorem free_ne_head {j : Nat} (hj : j < S.count) {p : EntryPtr} (hp : p ∈ S.free) : p ≠ S.head j := by
  rintro rfl
  have h := ((he.freeMem _).mp hp).2
  rw [he.head_loc hj] at h
  exact Loc.noConfusion h

theorem chain_ne_free {i : Nat} (hi : i < S.count) {p q : EntryPtr} (hp : p ∈ S.chain i) (hq : q ∈ S.free) : p ≠ q := by
  rintro rfl
  have h := ((he.chainMem i hi _).mp hp).2
  rw [((he.freeMem _).mp hq).2] at h
  exact Loc.noConfusion h

theorem chain_inj {i j : Nat} (hi : i < S.count) (hj : j < S.count) {p : EntryPtr} (hp : p ∈ S.chain i)
    (hq : p ∈ S.chain j) : i = j := by
  have h := ((he.chainMem i hi _).mp hp).2
  rw [((he.chainMem j hj _).mp hq).2] at h
  cases h
  rfl

theorem bucketNodup {i : Nat} (hi : i < S.count) : (S.head i :: S.chain i).Nodup :=
  List.nodup_cons.mpr ⟨fun h => he.chain_ne_head hi hi h rfl, he.chainNodup i hi⟩

/-- Every entry is a head, on a chain or free. -/
theorem cases_loc {p : EntryPtr} (hp : S.Has p) :
    (∃ i, i < S.count ∧ p = S.head i) ∨ (∃ i, i < S.count ∧ p ∈ S.chain i) ∨ p ∈ S.free := by
  cases hl : S.loc p with
  | head i =>
    have h := (he.loc p hp i).mp hl
    refine Or.inl ⟨i, ?_, h⟩
    rw [h] at hp
    exact hp.2
  | chain i =>
    have hi := he.locBound p hp i hl
    exact Or.inr (Or.inl ⟨i, hi, (he.chainMem i hi p).mpr ⟨hp, hl⟩⟩)
  | free => exact Or.inr (Or.inr ((he.freeMem p).mpr ⟨hp, hl⟩))

/-- The walk over a bucket visits at most all entries of the slabs. -/
theorem bucket_length {i : Nat} (hi : i < S.count) : (S.head i :: S.chain i).length ≤ S.slabs.length * S.count := by
  have hsub : (S.head i :: S.chain i) ⊆ S.slabs ×ˢ List.range S.count := by
    intro p hp
    have hh : S.Has p := he.bucket_has hi hp
    exact List.mem_product.mpr ⟨hh.1, List.mem_range.mpr hh.2⟩
  have hle := (List.subperm_of_subset (he.bucketNodup hi) hsub).length_le
  rwa [List.length_product, List.length_range] at hle

theorem link {i : Nat} (hi : i < S.count) {o : EntryPtr} {fs : List EntryPtr} (hf : S.free = o :: fs) :
    (S.link i o fs).Ok := by
  have hof : o ∈ S.free := by rw [hf]; exact List.mem_cons_self
  have hnd : o ∉ fs ∧ fs.Nodup := by
    have := he.freeNodup
    rwa [hf, List.nodup_cons] at this
  refine ⟨he.pos, he.tableMem, ?_, ?_, ?_, ?_, ?_, hnd.2⟩
  · intro p hp j
    by_cases h1 : p = o
    · have hne : ¬p = S.head j := fun h => he.free_ne_head (h ▸ hp).2 hof (h1 ▸ h)
      simp only [Shape.link, h1, ↓reduceIte, reduceCtorEq, false_iff]
      exact h1 ▸ hne
    · simp only [Shape.link, h1, ↓reduceIte]
      exact he.loc p hp j
  · intro p hp j hj
    by_cases h1 : p = o
    · simp only [Shape.link, h1, ↓reduceIte, Loc.chain.injEq] at hj
      rw [← hj]; exact hi
    · simp only [Shape.link, h1, ↓reduceIte] at hj
      exact he.locBound p hp j hj
  · intro j hj p
    by_cases h1 : j = i <;> by_cases h2 : p = o
    · simp only [Shape.link, h1, h2, ↓reduceIte, List.mem_cons_self, and_true, true_iff]
      exact he.free_has hof
    · simp only [Shape.link, h1, ↓reduceIte, List.mem_cons, h2, false_or]
      exact he.chainMem i hi p
    · simp only [Shape.link, h1, h2, ↓reduceIte, Loc.chain.injEq, Ne.symm h1, and_false, iff_false]
      exact fun h => he.chain_ne_free hj h hof rfl
    · simp only [Shape.link, h1, h2, ↓reduceIte]
      exact he.chainMem j hj p
  · intro j hj
    by_cases h1 : j = i
    · simp only [Shape.link, h1, ↓reduceIte, List.nodup_cons]
      exact ⟨fun h => he.chain_ne_free hi h hof rfl, he.chainNodup i hi⟩
    · simp only [Shape.link, h1, ↓reduceIte]
      exact he.chainNodup j hj
  · intro p
    by_cases h1 : p = o
    · simp [Shape.link, h1, hnd.1]
    · have := he.freeMem p
      rw [hf, List.mem_cons] at this
      simpa [Shape.link, h1, Shape.Has] using this

theorem unlink {i : Nat} (hi : i < S.count) {d : EntryPtr} {l₁ l₂ : List EntryPtr} (hc : S.chain i = l₁ ++ d :: l₂) :
    (S.unlink i d (l₁ ++ l₂)).Ok := by
  have hd : d ∈ S.chain i := by rw [hc]; simp
  have hnd : d ∉ l₁ ++ l₂ ∧ (l₁ ++ l₂).Nodup := by
    have := he.chainNodup i hi
    rwa [hc, List.nodup_middle, List.nodup_cons] at this
  refine ⟨he.pos, he.tableMem, ?_, ?_, ?_, ?_, ?_, ?_⟩
  · intro p hp j
    by_cases h1 : p = d
    · have hne : ¬p = S.head j := fun h => he.chain_ne_head hi (h ▸ hp).2 hd (h1 ▸ h)
      simp only [Shape.unlink, h1, ↓reduceIte, reduceCtorEq, false_iff]
      exact h1 ▸ hne
    · simp only [Shape.unlink, h1, ↓reduceIte]
      exact he.loc p hp j
  · intro p hp j hj
    by_cases h1 : p = d
    · simp [Shape.unlink, h1] at hj
    · simp only [Shape.unlink, h1, ↓reduceIte] at hj
      exact he.locBound p hp j hj
  · intro j hj p
    by_cases h1 : j = i <;> by_cases h2 : p = d
    · simpa [Shape.unlink, h1, h2] using hnd.1
    · have := he.chainMem i hi p
      rw [hc] at this
      simp only [List.mem_append, List.mem_cons, h2, false_or] at this
      simpa [Shape.unlink, h1, h2, Shape.Has] using this
    · simp only [Shape.unlink, h1, h2, ↓reduceIte, reduceCtorEq, and_false, iff_false]
      exact fun h => h1 (he.chain_inj hj hi h hd)
    · simp only [Shape.unlink, h1, h2, ↓reduceIte]
      exact he.chainMem j hj p
  · intro j hj
    by_cases h1 : j = i
    · simp only [Shape.unlink, h1, ↓reduceIte]
      exact hnd.2
    · simp only [Shape.unlink, h1, ↓reduceIte]
      exact he.chainNodup j hj
  · intro p
    by_cases h1 : p = d
    · simp only [Shape.unlink, h1, ↓reduceIte, List.mem_cons_self, and_true, true_iff]
      exact he.chain_has hi hd
    · simpa [Shape.unlink, h1, Shape.Has] using he.freeMem p
  · exact List.nodup_cons.mpr ⟨fun h => he.chain_ne_free hi hd h rfl, he.freeNodup⟩

theorem addSlab {s : Addr} (hs : s ∉ S.slabs) : (S.addSlab s).Ok := by
  have hne : ∀ p, S.Has p → p.1 ≠ s := fun p hp h => hs (h ▸ hp.1)
  have hhas : ∀ p, (S.addSlab s).Has p ↔ p.1 = s ∧ p.2 < S.count ∨ S.Has p := by
    intro p
    simp only [Shape.Has, Shape.addSlab, List.mem_cons, or_and_right]
  refine ⟨he.pos, List.mem_cons_of_mem _ he.tableMem, ?_, ?_, ?_, he.chainNodup, ?_, ?_⟩
  · intro p hp j
    rcases (hhas p).mp hp with ⟨h1, -⟩ | h1
    · simp only [Shape.addSlab, h1, ↓reduceIte, reduceCtorEq, false_iff]
      intro h
      exact hs (h1 ▸ h ▸ he.tableMem)
    · simp only [Shape.addSlab, hne p h1, ↓reduceIte]
      exact he.loc p h1 j
  · intro p hp j hj
    rcases (hhas p).mp hp with ⟨h1, -⟩ | h1
    · simp [Shape.addSlab, h1] at hj
    · simp only [Shape.addSlab, hne p h1, ↓reduceIte] at hj
      exact he.locBound p h1 j hj
  · intro j hj p
    rw [hhas p]
    show p ∈ S.chain j ↔ _
    rw [he.chainMem j hj p]
    by_cases h1 : p.1 = s
    · have : ¬S.Has p := fun h => hne p h h1
      simp [Shape.addSlab, h1, this]
    · simp [Shape.addSlab, h1]
  · intro p
    rw [hhas p]
    show p ∈ (List.range S.count).map (fun j => (s, j)) ++ S.free ↔ _
    rw [List.mem_append, he.freeMem p]
    obtain ⟨a, j⟩ := p
    by_cases h1 : a = s
    · have : ¬S.Has (a, j) := fun h => hne _ h h1
      simp [Shape.addSlab, h1, h1 ▸ this]
    · simp [Shape.addSlab, h1, Ne.symm h1]
  · refine List.nodup_append.mpr ⟨?_, he.freeNodup, ?_⟩
    · exact List.nodup_range.map fun a b h => congrArg Prod.snd h
    · intro a ha b hb h
      obtain ⟨j, -, rfl⟩ := List.mem_map.mp ha
      exact hne b (he.free_has hb) (h ▸ rfl)

end Ok

end Shape

/-- Another entry in one place. -/
def upd (ents : EntryPtr → Entry) (p : EntryPtr) (e : Entry) : EntryPtr → Entry := fun q => if q = p then e else ents q

@[simp] theorem upd_self (ents : EntryPtr → Entry) (p : EntryPtr) (e : Entry) : upd ents p e p = e := if_pos rfl

theorem upd_ne (ents : EntryPtr → Entry) {p q : EntryPtr} (e : Entry) (h : q ≠ p) : upd ents p e q = ents q := if_neg h

/-- The links of the entries. -/
abbrev nextOf (ents : EntryPtr → Entry) (p : EntryPtr) : Option EntryPtr := (ents p).next

section

variable {ents ents' : EntryPtr → Entry} {fc fc' : Option EntryPtr} {S : Shape}

/-! ## Links -/

/-- The links follow the shape. -/
structure Linked (ents : EntryPtr → Entry) (fc : Option EntryPtr) (S : Shape) : Prop where
  chain : ∀ i, i < S.count → Chain (nextOf ents) (ents (S.head i)).next (S.chain i)
  free : Chain (nextOf ents) fc S.free

namespace Linked

/-- The links of the entries of the table are all that matters. -/
theorem congr (hl : Linked ents fc S) (ho : S.Ok) (hn : ∀ p, S.Has p → (ents' p).next = (ents p).next) :
    Linked ents' fc S := by
  refine ⟨fun i hi => ?_, hl.free.congr fun p hp => hn p (ho.free_has hp)⟩
  rw [hn _ (ho.head_has hi)]
  exact (hl.chain i hi).congr fun p hp => hn p (ho.chain_has hi hp)

/-- The entry `o` takes over the link of the head, the head links to `o`. -/
theorem link (hl : Linked ents fc S) (ho : S.Ok) {i : Nat} (hi : i < S.count) {o : EntryPtr} {fs : List EntryPtr}
    (hf : S.free = o :: fs) (hno : (ents' o).next = (ents (S.head i)).next) (hnh : (ents' (S.head i)).next = some o)
    (hn : ∀ p, p ≠ o → p ≠ S.head i → (ents' p).next = (ents p).next) :
    Linked ents' (ents o).next (S.link i o fs) := by
  have hof : o ∈ S.free := by rw [hf]; exact List.mem_cons_self
  refine ⟨fun j hj => ?_, ?_⟩
  · have hc : Chain (nextOf ents') (ents (S.head j)).next (S.chain j) :=
      (hl.chain j hj).congr fun p hp => hn p (ho.chain_ne_free hj hp hof) (ho.chain_ne_head hj hi hp)
    by_cases h1 : j = i
    · subst h1
      simp only [Shape.link, ↓reduceIte]
      refine ⟨hnh, ?_⟩
      rw [nextOf, hno]
      exact hc
    · have hne : S.head j ≠ S.head i := fun h => h1 (congrArg Prod.snd h)
      simp only [Shape.link, h1, ↓reduceIte]
      show Chain (nextOf ents') (ents' (S.head j)).next (S.chain j)
      rw [hn _ (Ne.symm (ho.free_ne_head hj hof)) hne]
      exact hc
  · have hc := hl.free
    have hnd := ho.freeNodup
    rw [hf] at hc hnd
    refine hc.2.congr fun p hp => hn p ?_ ?_
    · exact fun h => (List.nodup_cons.mp hnd).1 (h ▸ hp)
    · exact ho.free_ne_head hi (by rw [hf]; exact List.mem_cons_of_mem _ hp)

/-- The entry before `d` takes over the link of `d`, which joins the free chain. -/
theorem unlink (hl : Linked ents fc S) (ho : S.Ok) {i : Nat} (hi : i < S.count) {a d : EntryPtr}
    {l₀ l₁ l₂ : List EntryPtr} (hc : S.chain i = l₁ ++ d :: l₂) (ha : S.head i :: l₁ = l₀ ++ [a])
    (hna : (ents' a).next = (ents d).next) (hnd : (ents' d).next = fc)
    (hn : ∀ p, p ≠ a → p ≠ d → (ents' p).next = (ents p).next) :
    Linked ents' (some d) (S.unlink i d (l₁ ++ l₂)) := by
  have hb : S.head i :: S.chain i = l₀ ++ a :: d :: l₂ := by
    rw [hc, ← List.cons_append, ha, List.append_assoc]
    rfl
  have ham : a ∈ S.head i :: S.chain i := by rw [hb]; simp
  have hdm : d ∈ S.chain i := by rw [hc]; simp
  have hnf : ∀ p ∈ S.free, (ents' p).next = (ents p).next := by
    intro p hp
    refine hn p ?_ (Ne.symm (ho.chain_ne_free hi hdm hp))
    rintro rfl
    rcases List.mem_cons.mp ham with rfl | h
    · exact ho.free_ne_head hi hp rfl
    · exact ho.chain_ne_free hi h hp rfl
  refine ⟨fun j hj => ?_, ⟨rfl, ?_⟩⟩
  · by_cases h1 : j = i
    · subst h1
      have hch : Chain (nextOf ents) (some (S.head j)) (l₀ ++ a :: d :: l₂) := by
        rw [← hb]
        exact ⟨rfl, hl.chain j hj⟩
      have hnodup := ho.bucketNodup hj
      rw [hb] at hnodup
      have hun := hch.unlink hnodup hna hn
      have hl' : l₀ ++ a :: l₂ = S.head j :: (l₁ ++ l₂) := by
        rw [← List.cons_append, ha, List.append_assoc]
        rfl
      rw [hl'] at hun
      simp only [Shape.unlink, ↓reduceIte]
      exact hun.2
    · have hnj : ∀ p ∈ S.head j :: S.chain j, (ents' p).next = (ents p).next := by
        intro p hp
        have hpne : ∀ q ∈ S.head i :: S.chain i, p ≠ q := by
          rintro q hq rfl
          rcases List.mem_cons.mp hp with rfl | hp <;> rcases List.mem_cons.mp hq with hq | hq
          · exact h1 (congrArg Prod.snd hq)
          · exact ho.chain_ne_head hi hj hq rfl
          · exact ho.chain_ne_head hj hi hp hq
          · exact h1 (ho.chain_inj hj hi hp hq)
        exact hn p (hpne a ham) (hpne d (List.mem_cons_of_mem _ hdm))
      simp only [Shape.unlink, h1, ↓reduceIte]
      show Chain (nextOf ents') (ents' (S.head j)).next (S.chain j)
      rw [hnj _ List.mem_cons_self]
      exact (hl.chain j hj).congr fun p hp => hnj p (List.mem_cons_of_mem _ hp)
  · rw [nextOf, hnd]
    exact hl.free.congr hnf

/-- The chain through the entries `i, …, n - 1` of a slab and on to `fc`. -/
theorem chain_slab {s : Addr} {n : Nat} {l : List EntryPtr} (hl : Chain (nextOf ents) fc l)
    (hn : ∀ j, j < n → (ents (s, j)).next = if j + 1 = n then fc else some (s, j + 1)) (hpos : 0 < n) :
    Chain (nextOf ents) (some (s, 0)) ((List.range n).map (fun j => (s, j)) ++ l) := by
  -- from the last entry down
  have key : ∀ m, m < n →
      Chain (nextOf ents) (some (s, n - (m + 1))) ((List.range' (n - (m + 1)) (m + 1)).map (fun j => (s, j)) ++ l) := by
    intro m
    induction m with
    | zero =>
      intro h0
      refine ⟨rfl, ?_⟩
      show Chain (nextOf ents) (ents (s, n - 1)).next l
      rw [hn (n - 1) (by omega), if_pos (by omega)]
      exact hl
    | succ m ih =>
      intro hm
      rw [List.range'_succ]
      refine ⟨rfl, ?_⟩
      show Chain (nextOf ents) (ents (s, n - (m + 1 + 1))).next _
      rw [hn _ (by omega), if_neg (by omega)]
      have h := ih (by omega)
      have he : n - (m + 1 + 1) + 1 = n - (m + 1) := by omega
      rw [he]
      exact h
  have h := key (n - 1) (by omega)
  have h0 : n - (n - 1 + 1) = 0 := by omega
  have h1 : n - 1 + 1 = n := by omega
  rw [h0, h1, ← List.range_eq_range'] at h
  exact h

theorem addSlab (hl : Linked ents fc S) (ho : S.Ok) {s : Addr}
    (hs : ∀ j, j < S.count → (ents' (s, j)).next = if j + 1 = S.count then fc else some (s, j + 1))
    (hn : ∀ p, S.Has p → (ents' p).next = (ents p).next) : Linked ents' (some (s, 0)) (S.addSlab s) := by
  have hc := hl.congr ho hn
  exact ⟨hc.chain, chain_slab hc.free hs ho.pos⟩

end Linked

/-! ## Flags and keys -/

section

variable {K : Type} (kb : Nat → K) (ix : K → Nat)

/-- The flags and keys follow the shape; `kb` reads a key and `ix` is its bucket. -/
structure Flagged (ents : EntryPtr → Entry) (S : Shape) : Prop where
  init : ∀ p, S.Has p → (ents p).flags.lockInitialized = true
  empty : ∀ i, i < S.count → (ents (S.head i)).flags.occupied = false → S.chain i = []
  chainOccupied : ∀ i, i < S.count → ∀ p ∈ S.chain i, (ents p).flags.occupied = true
  freeVacant : ∀ p ∈ S.free, (ents p).flags.occupied = false
  hash : ∀ i, i < S.count → ∀ p ∈ S.head i :: S.chain i, (ents p).flags.occupied = true → ix (kb (ents p).key) = i

/-- The entries follow the shape. -/
structure Entries (ents : EntryPtr → Entry) (fc : Option EntryPtr) (S : Shape) : Prop where
  ok : S.Ok
  linked : Linked ents fc S
  flagged : Flagged kb ix ents S

variable {kb ix}

/-- Links, flags and keys of the entries of the table are all that matters. -/
theorem Entries.congr (he : Entries kb ix ents fc S) (hn : ∀ p, S.Has p → ents' p = ents p) :
    Entries kb ix ents' fc S := by
  obtain ⟨ho, hl, hf⟩ := he
  refine ⟨ho, hl.congr ho fun p hp => by rw [hn p hp], ?_, ?_, ?_, ?_, ?_⟩
  · intro p hp
    rw [hn p hp]
    exact hf.init p hp
  · intro i hi
    rw [hn _ (ho.head_has hi)]
    exact hf.empty i hi
  · intro i hi p hp
    rw [hn p (ho.chain_has hi hp)]
    exact hf.chainOccupied i hi p hp
  · intro p hp
    rw [hn p (ho.free_has hp)]
    exact hf.freeVacant p hp
  · intro i hi p hp
    rw [hn p (ho.bucket_has hi hp)]
    exact hf.hash i hi p hp

/-- The head of bucket `i` given another key, other data and other flags. -/
theorem Entries.setHead (he : Entries kb ix ents fc S) {i : Nat} (hi : i < S.count) {k d : Nat} {f : EntryFlags}
    (hfi : f.lockInitialized = true) (hfo : f.occupied = false → S.chain i = [])
    (hk : f.occupied = true → ix (kb k) = i) :
    Entries kb ix (upd ents (S.head i) ⟨(ents (S.head i)).next, k, d, f⟩) fc S := by
  obtain ⟨ho, hl, hf⟩ := he
  have hne : ∀ j, j < S.count → ∀ p ∈ S.chain j, p ≠ S.head i := fun j hj p hp => ho.chain_ne_head hj hi hp
  refine ⟨ho, hl.congr ho fun p _ => ?_, ?_, ?_, ?_, ?_, ?_⟩
  · by_cases h : p = S.head i
    · rw [h, upd_self]
    · rw [upd_ne _ _ h]
  · intro p hp
    by_cases h : p = S.head i
    · rw [h, upd_self]; exact hfi
    · rw [upd_ne _ _ h]; exact hf.init p hp
  · intro j hj
    by_cases h : j = i
    · subst h
      rw [upd_self]; exact hfo
    · rw [upd_ne _ _ fun e => h (congrArg Prod.snd e)]
      exact hf.empty j hj
  · intro j hj p hp
    rw [upd_ne _ _ (hne j hj p hp)]
    exact hf.chainOccupied j hj p hp
  · intro p hp
    rw [upd_ne _ _ (ho.free_ne_head hi hp)]
    exact hf.freeVacant p hp
  · intro j hj p hp
    by_cases h : p = S.head i
    · have hji : i = j := by
        rcases List.mem_cons.mp hp with e | e
        · exact (congrArg Prod.snd h).symm.trans (congrArg Prod.snd e)
        · exact absurd h (hne j hj p e)
      rw [h, upd_self, ← hji]; exact hk
    · rw [upd_ne _ _ h]; exact hf.hash j hj p hp

/-- The first free entry filled with a key of bucket `i` and hung behind the head of that bucket. -/
theorem Entries.link (he : Entries kb ix ents fc S) {i : Nat} (hi : i < S.count) {o : EntryPtr} {fs : List EntryPtr}
    (hfs : S.free = o :: fs) {k d : Nat} (hk : ix (kb k) = i) (hocc : (ents (S.head i)).flags.occupied = true)
    {f : EntryFlags} (hfo : f.occupied = true) (hfi : f.lockInitialized = true) :
    Entries kb ix (upd (upd ents o ⟨(ents (S.head i)).next, k, d, f⟩) (S.head i)
      { ents (S.head i) with next := some o }) (ents o).next (S.link i o fs) := by
  obtain ⟨ho, hl, hf⟩ := he
  have hof : o ∈ S.free := by rw [hfs]; exact List.mem_cons_self
  have hne : o ≠ S.head i := ho.free_ne_head hi hof
  generalize hE : upd (upd ents o ⟨(ents (S.head i)).next, k, d, f⟩) (S.head i) { ents (S.head i) with next := some o } =
    ents'
  have hEo : ents' o = ⟨(ents (S.head i)).next, k, d, f⟩ := by rw [← hE, upd_ne _ _ hne, upd_self]
  have hEh : ents' (S.head i) = { ents (S.head i) with next := some o } := by rw [← hE, upd_self]
  have hsame : ∀ q, q ≠ o → q ≠ S.head i → ents' q = ents q := fun q h1 h2 => by rw [← hE, upd_ne _ _ h2, upd_ne _ _ h1]
  have hflags : ∀ q, q ≠ o → (ents' q).flags = (ents q).flags ∧ (ents' q).key = (ents q).key := by
    intro q h1
    by_cases h2 : q = S.head i
    · subst h2
      rw [hEh]
      exact ⟨rfl, rfl⟩
    · rw [hsame q h1 h2]
      exact ⟨rfl, rfl⟩
  -- an entry of a bucket other than `o` was in that bucket before
  have hmem : ∀ j p, p ≠ o → p ∈ (S.link i o fs).chain j → p ∈ S.chain j := by
    intro j p h2 hp
    by_cases h1 : j = i
    · subst h1
      simpa only [Shape.link, ↓reduceIte, List.mem_cons, h2, false_or] using hp
    · simpa only [Shape.link, h1, ↓reduceIte] using hp
  refine ⟨ho.link hi hfs, hl.link ho hi hfs (by rw [hEo]) (by rw [hEh]) fun p h1 h2 => by rw [hsame p h1 h2], ?_, ?_, ?_, ?_, ?_⟩
  · intro p hp
    by_cases h1 : p = o
    · rw [h1, hEo]; exact hfi
    · rw [(hflags p h1).1]; exact hf.init p hp
  · intro j hj (hv : (ents' (S.head j)).flags.occupied = false)
    rw [(hflags _ (Ne.symm (ho.free_ne_head hj hof))).1] at hv
    by_cases h1 : j = i
    · rw [h1] at hv
      exact absurd (hocc.symm.trans hv) (by simp)
    · simp only [Shape.link, h1, ↓reduceIte]
      exact hf.empty j hj hv
  · intro j hj p hp
    by_cases h2 : p = o
    · rw [h2, hEo]; exact hfo
    · rw [(hflags p h2).1]
      exact hf.chainOccupied j hj p (hmem j p h2 hp)
  · intro p hp
    have hnd := ho.freeNodup
    rw [hfs, List.nodup_cons] at hnd
    rw [(hflags p fun h => hnd.1 (h ▸ hp)).1]
    exact hf.freeVacant p (by rw [hfs]; exact List.mem_cons_of_mem _ hp)
  · intro j hj p hp hpo
    by_cases h2 : p = o
    · have hji : j = i := by
        by_contra h1
        simp only [Shape.link, h1, ↓reduceIte, h2, List.mem_cons] at hp
        rcases hp with h | h
        · exact ho.free_ne_head hj hof h
        · exact ho.chain_ne_free hj h hof rfl
      rw [h2, hEo, hji]
      exact hk
    · rw [(hflags p h2).1] at hpo
      rw [(hflags p h2).2]
      refine hf.hash j hj p ?_ hpo
      rcases List.mem_cons.mp hp with h | h
      · exact List.mem_cons.mpr (Or.inl h)
      · exact List.mem_cons_of_mem _ (hmem j p h2 h)

/-- An entry cut out of the chain of bucket `i` and put before the free chain. -/
theorem Entries.unlink (he : Entries kb ix ents fc S) {i : Nat} (hi : i < S.count) {a d : EntryPtr}
    {l₀ l₁ l₂ : List EntryPtr} (hc : S.chain i = l₁ ++ d :: l₂) (ha : S.head i :: l₁ = l₀ ++ [a]) {f : EntryFlags}
    (hfo : f.occupied = false) (hfi : f.lockInitialized = true) :
    Entries kb ix (upd (upd ents a { ents a with next := (ents d).next }) d { ents d with next := fc, flags := f })
      (some d) (S.unlink i d (l₁ ++ l₂)) := by
  obtain ⟨ho, hl, hf⟩ := he
  have hd : d ∈ S.chain i := by rw [hc]; simp
  have hne : a ≠ d := by
    have hn := ho.bucketNodup hi
    rw [hc, ← List.cons_append, ha, List.append_assoc, List.nodup_append] at hn
    rintro rfl
    simp at hn
  have hdv : (ents (S.head i)).flags.occupied ≠ false := by
    intro h
    rw [hf.empty i hi h] at hd
    cases hd
  generalize hE : upd (upd ents a { ents a with next := (ents d).next }) d { ents d with next := fc, flags := f } = ents'
  have hEd : ents' d = { ents d with next := fc, flags := f } := by rw [← hE, upd_self]
  have hEa : ents' a = { ents a with next := (ents d).next } := by rw [← hE, upd_ne _ _ hne, upd_self]
  have hsame : ∀ q, q ≠ a → q ≠ d → ents' q = ents q := fun q h1 h2 => by rw [← hE, upd_ne _ _ h2, upd_ne _ _ h1]
  have hflags : ∀ q, q ≠ d → (ents' q).flags = (ents q).flags ∧ (ents' q).key = (ents q).key := by
    intro q h1
    by_cases h2 : q = a
    · subst h2
      rw [hEa]
      exact ⟨rfl, rfl⟩
    · rw [hsame q h2 h1]
      exact ⟨rfl, rfl⟩
  have hmem : ∀ j, j < S.count → ∀ p ∈ (S.unlink i d (l₁ ++ l₂)).chain j, p ∈ S.chain j ∧ p ≠ d := by
    intro j hj p hp
    by_cases h1 : j = i
    · subst h1
      simp only [Shape.unlink, ↓reduceIte] at hp
      have hn := ho.chainNodup j hj
      rw [hc, List.nodup_middle, List.nodup_cons] at hn
      refine ⟨?_, fun h => hn.1 (h ▸ hp)⟩
      rw [hc]
      simp only [List.mem_append, List.mem_cons] at hp ⊢
      tauto
    · simp only [Shape.unlink, h1, ↓reduceIte] at hp
      exact ⟨hp, fun h => h1 (ho.chain_inj hj hi hp (h ▸ hd))⟩
  refine ⟨ho.unlink hi hc, hl.unlink ho hi hc ha (by rw [hEa]) (by rw [hEd]) fun p h1 h2 => by rw [hsame p h1 h2],
    ?_, ?_, ?_, ?_, ?_⟩
  · intro p hp
    by_cases h1 : p = d
    · rw [h1, hEd]; exact hfi
    · rw [(hflags p h1).1]; exact hf.init p hp
  · intro j hj (hv : (ents' (S.head j)).flags.occupied = false)
    rw [(hflags _ (Ne.symm (ho.chain_ne_head hi hj hd))).1] at hv
    by_cases h1 : j = i
    · rw [h1] at hv
      exact absurd hv hdv
    · simp only [Shape.unlink, h1, ↓reduceIte]
      exact hf.empty j hj hv
  · intro j hj p hp
    obtain ⟨h1, h2⟩ := hmem j hj p hp
    rw [(hflags p h2).1]
    exact hf.chainOccupied j hj p h1
  · intro p hp
    rcases List.mem_cons.mp hp with h | h
    · rw [h, hEd]; exact hfo
    · rw [(hflags p (Ne.symm (ho.chain_ne_free hi hd h))).1]
      exact hf.freeVacant p h
  · intro j hj p hp hpo
    have h2 : p ≠ d ∧ p ∈ S.head j :: S.chain j := by
      rcases List.mem_cons.mp hp with h | h
      · exact ⟨h ▸ Ne.symm (ho.chain_ne_head hi hj hd), List.mem_cons.mpr (Or.inl h)⟩
      · exact ⟨(hmem j hj p h).2, List.mem_cons_of_mem _ (hmem j hj p h).1⟩
    rw [(hflags p h2.1).1] at hpo
    rw [(hflags p h2.1).2]
    exact hf.hash j hj p h2.2 hpo

/-- A slab of vacant entries, each linked to the next and the last to the free chain. -/
theorem Entries.addSlab (he : Entries kb ix ents fc S) {s : Addr} (hs : s ∉ S.slabs)
    (hnew : ∀ j, j < S.count → ents' (s, j) = { Entry.blank with next := if j + 1 = S.count then fc else some (s, j + 1) })
    (hold : ∀ p, S.Has p → ents' p = ents p) : Entries kb ix ents' (some (s, 0)) (S.addSlab s) := by
  have hc := he.congr hold
  obtain ⟨ho, hl, hf⟩ := hc
  refine ⟨ho.addSlab hs, hl.addSlab ho (fun j hj => by rw [hnew j hj]) (fun _ _ => rfl), ?_, hf.empty, hf.chainOccupied,
    ?_, hf.hash⟩
  · rintro ⟨a, j⟩ ⟨hp, hj⟩
    rcases List.mem_cons.mp hp with h | h
    · have ha : a = s := h
      rw [ha, hnew j hj]
      rfl
    · exact hf.init _ ⟨h, hj⟩
  · intro p hp
    rcases List.mem_append.mp hp with h | h
    · obtain ⟨j, hj, rfl⟩ := List.mem_map.mp h
      rw [hnew j (List.mem_range.mp hj)]
      rfl
    · exact hf.freeVacant p h

/-! ## The pairs in the table -/

/-- The occupied entries of bucket `i`, in the order of a walk. -/
def Shape.bucket (S : Shape) (ents : EntryPtr → Entry) (i : Nat) : List EntryPtr :=
  if (ents (S.head i)).flags.occupied then S.head i :: S.chain i else []

variable (kb) in
/-- The key and the data of an entry. -/
def pairOf (ents : EntryPtr → Entry) (p : EntryPtr) : K × Nat := (kb (ents p).key, (ents p).data)

variable (kb) in
/-- The pairs in bucket `i`, in the order of a walk. -/
def bucketPairs (ents : EntryPtr → Entry) (S : Shape) (i : Nat) : List (K × Nat) :=
  (S.bucket ents i).map (pairOf kb ents)

variable (kb) in
/-- The pairs in the table. -/
def pairs (ents : EntryPtr → Entry) (S : Shape) : Multiset (K × Nat) :=
  ∑ i ∈ Finset.range S.count, (bucketPairs kb ents S i : Multiset (K × Nat))

theorem mem_pairs {x : K × Nat} : x ∈ pairs kb ents S ↔ ∃ i, i < S.count ∧ x ∈ bucketPairs kb ents S i := by
  simp [pairs, Multiset.mem_sum]

/-- A bucket whose entries have not changed. -/
theorem bucketPairs_congr {S' : Shape} {i : Nat} (hh : S'.head i = S.head i) (hc : S'.chain i = S.chain i)
    (hn : ∀ p ∈ S.head i :: S.chain i, (ents' p).key = (ents p).key ∧ (ents' p).data = (ents p).data ∧
      (ents' p).flags.occupied = (ents p).flags.occupied) : bucketPairs kb ents' S' i = bucketPairs kb ents S i := by
  unfold bucketPairs Shape.bucket
  rw [hh, hc, (hn _ List.mem_cons_self).2.2]
  by_cases ho : (ents (S.head i)).flags.occupied = true
  · rw [if_pos ho]
    refine List.map_congr_left fun p hp => ?_
    rw [pairOf, pairOf, (hn p hp).1, (hn p hp).2.1]
  · rw [if_neg ho]
    rfl

/-- Tables that agree in every bucket hold the same pairs. -/
theorem pairs_congr {S' : Shape} (hcount : S'.count = S.count)
    (h : ∀ i, i < S.count → bucketPairs kb ents' S' i = bucketPairs kb ents S i) :
    pairs kb ents' S' = pairs kb ents S := by
  unfold pairs
  rw [hcount]
  refine Finset.sum_congr rfl fun i hi => ?_
  rw [h i (Finset.mem_range.mp hi)]

/-- Only bucket `i` has changed: the other pairs are the same. -/
theorem pairs_split {S' : Shape} (hcount : S'.count = S.count) {i : Nat} (hi : i < S.count)
    (h : ∀ j, j < S.count → j ≠ i → bucketPairs kb ents' S' j = bucketPairs kb ents S j) :
    ∃ R : Multiset (K × Nat), pairs kb ents S = (bucketPairs kb ents S i : Multiset (K × Nat)) + R ∧
      pairs kb ents' S' = (bucketPairs kb ents' S' i : Multiset (K × Nat)) + R := by
  refine ⟨∑ j ∈ (Finset.range S.count).erase i, (bucketPairs kb ents S j : Multiset (K × Nat)), ?_, ?_⟩
  · exact (Finset.add_sum_erase _ _ (Finset.mem_range.mpr hi)).symm
  · unfold pairs
    rw [hcount, ← Finset.add_sum_erase _ _ (Finset.mem_range.mpr hi)]
    congr 1
    refine Finset.sum_congr rfl fun j hj => ?_
    rw [h j (Finset.mem_range.mp (Finset.mem_of_mem_erase hj)) (Finset.ne_of_mem_erase hj)]

/-- A pair added to bucket `i`. -/
theorem pairs_cons {S' : Shape} (hcount : S'.count = S.count) {i : Nat} (hi : i < S.count) {x : K × Nat}
    (hx : (bucketPairs kb ents' S' i).Perm (x :: bucketPairs kb ents S i))
    (h : ∀ j, j < S.count → j ≠ i → bucketPairs kb ents' S' j = bucketPairs kb ents S j) :
    pairs kb ents' S' = x ::ₘ pairs kb ents S := by
  obtain ⟨R, h1, h2⟩ := pairs_split hcount hi h
  rw [h1, h2, Multiset.coe_eq_coe.mpr hx, ← Multiset.cons_coe, Multiset.cons_add]

/-- Bucket `i` when its head is occupied. -/
theorem bucketPairs_occupied {i : Nat} (hocc : (ents (S.head i)).flags.occupied = true) :
    bucketPairs kb ents S i = pairOf kb ents (S.head i) :: (S.chain i).map (pairOf kb ents) := by
  unfold bucketPairs Shape.bucket
  rw [if_pos hocc]
  rfl

/-- Bucket `i` when its head is vacant. -/
theorem bucketPairs_vacant {i : Nat} (hocc : (ents (S.head i)).flags.occupied = false) : bucketPairs kb ents S i = [] := by
  unfold bucketPairs Shape.bucket
  rw [hocc]
  rfl

section Effects

variable (he : Entries kb ix ents fc S) {i : Nat} (hi : i < S.count)
include he hi

/-- Another payload in the head of bucket `i` leaves the other buckets alone. -/
theorem bucketPairs_setHead {e : Entry} {j : Nat} (hj : j < S.count) (hne : j ≠ i) :
    bucketPairs kb (upd ents (S.head i) e) S j = bucketPairs kb ents S j := by
  refine bucketPairs_congr rfl rfl fun p hp => ?_
  have hp' : p ≠ S.head i := by
    rcases List.mem_cons.mp hp with rfl | hp
    · exact fun h => hne (congrArg Prod.snd h)
    · exact he.ok.chain_ne_head hj hi hp
  rw [upd_ne _ _ hp']
  exact ⟨rfl, rfl, rfl⟩

/-- A vacant head filled. -/
theorem pairs_fill (hocc : (ents (S.head i)).flags.occupied = false) {k d : Nat} {f : EntryFlags}
    (hfo : f.occupied = true) :
    pairs kb (upd ents (S.head i) ⟨(ents (S.head i)).next, k, d, f⟩) S = (kb k, d) ::ₘ pairs kb ents S := by
  refine pairs_cons rfl hi ?_ fun j hj hne => bucketPairs_setHead he hi hj hne
  rw [bucketPairs_vacant hocc, bucketPairs, Shape.bucket, upd_self, if_pos hfo, he.flagged.empty i hi hocc]
  simp [pairOf]

/-- A head without chain emptied. -/
theorem pairs_vacate (hocc : (ents (S.head i)).flags.occupied = true) (hc : S.chain i = []) {k d : Nat} {f : EntryFlags}
    (hfo : f.occupied = false) :
    pairs kb ents S = pairOf kb ents (S.head i) ::ₘ pairs kb (upd ents (S.head i) ⟨(ents (S.head i)).next, k, d, f⟩) S := by
  refine pairs_cons rfl hi ?_ fun j hj hne => (bucketPairs_setHead he hi hj hne).symm
  rw [bucketPairs_occupied hocc, hc, bucketPairs, Shape.bucket, upd_self, hfo]
  simp

/-- Bucket `i` with the payload of its occupied head replaced. -/
theorem bucketPairs_replace {k d : Nat} {f : EntryFlags} (hfo : f.occupied = true) :
    bucketPairs kb (upd ents (S.head i) ⟨(ents (S.head i)).next, k, d, f⟩) S i =
      (kb k, d) :: (S.chain i).map (pairOf kb ents) := by
  rw [bucketPairs, Shape.bucket, upd_self, if_pos hfo, List.map_cons, pairOf, upd_self]
  congr 1
  refine List.map_congr_left fun p hp => ?_
  rw [pairOf, pairOf, upd_ne _ _ (he.ok.chain_ne_head hi hi hp)]

/-- The payload of an occupied head replaced. -/
theorem pairs_replace (hocc : (ents (S.head i)).flags.occupied = true) {k d : Nat} {f : EntryFlags}
    (hfo : f.occupied = true) :
    pairOf kb ents (S.head i) ::ₘ pairs kb (upd ents (S.head i) ⟨(ents (S.head i)).next, k, d, f⟩) S =
      (kb k, d) ::ₘ pairs kb ents S := by
  obtain ⟨R, h1, h2⟩ := pairs_split rfl hi fun j hj hne =>
    bucketPairs_setHead (e := ⟨(ents (S.head i)).next, k, d, f⟩) he hi hj hne
  rw [h1, h2, bucketPairs_replace he hi hfo, bucketPairs_occupied hocc, ← Multiset.cons_coe, ← Multiset.cons_coe,
    Multiset.cons_add, Multiset.cons_add, Multiset.cons_swap]

/-- A free entry hung behind the head. -/
theorem pairs_link {o : EntryPtr} {fs : List EntryPtr} (hfs : S.free = o :: fs)
    (hocc : (ents (S.head i)).flags.occupied = true) {k d : Nat} {f : EntryFlags} :
    pairs kb (upd (upd ents o ⟨(ents (S.head i)).next, k, d, f⟩) (S.head i) { ents (S.head i) with next := some o })
      (S.link i o fs) = (kb k, d) ::ₘ pairs kb ents S := by
  have hof : o ∈ S.free := by rw [hfs]; exact List.mem_cons_self
  have hsame : ∀ j, j < S.count → ∀ p ∈ S.head j :: S.chain j, p ≠ o := by
    intro j hj p hp
    rcases List.mem_cons.mp hp with rfl | hp
    · exact Ne.symm (he.ok.free_ne_head hj hof)
    · exact he.ok.chain_ne_free hj hp hof
  have hent : ∀ p, p ≠ o → (upd (upd ents o ⟨(ents (S.head i)).next, k, d, f⟩) (S.head i)
      { ents (S.head i) with next := some o } p).key = (ents p).key ∧
      (upd (upd ents o ⟨(ents (S.head i)).next, k, d, f⟩) (S.head i)
      { ents (S.head i) with next := some o } p).data = (ents p).data ∧
      (upd (upd ents o ⟨(ents (S.head i)).next, k, d, f⟩) (S.head i)
      { ents (S.head i) with next := some o } p).flags.occupied = (ents p).flags.occupied := by
    intro p hp
    by_cases h : p = S.head i
    · subst h; rw [upd_self]; exact ⟨rfl, rfl, rfl⟩
    · rw [upd_ne _ _ h, upd_ne _ _ hp]; exact ⟨rfl, rfl, rfl⟩
  refine @pairs_cons _ _ S _ _ (S.link i o fs) rfl _ hi _ ?_ fun j hj hne => ?_
  · have ho : pairOf kb (upd (upd ents o ⟨(ents (S.head i)).next, k, d, f⟩) (S.head i)
        { ents (S.head i) with next := some o }) o = (kb k, d) := by
      rw [pairOf, upd_ne _ _ (he.ok.free_ne_head hi hof), upd_self]
    rw [bucketPairs_occupied hocc, bucketPairs, Shape.bucket]
    show (List.map _ (if (upd _ (S.head i) _ (S.head i)).flags.occupied = true then S.head i :: (S.link i o fs).chain i
      else [])).Perm _
    rw [upd_self, if_pos hocc]
    simp only [Shape.link, ↓reduceIte, List.map_cons, ho]
    refine (List.Perm.swap _ _ _).trans (List.Perm.cons _ (List.Perm.of_eq ?_))
    rw [← List.map_cons, ← List.map_cons]
    refine List.map_congr_left fun p hp => ?_
    rw [pairOf, pairOf, (hent p (hsame i hi p hp)).1, (hent p (hsame i hi p hp)).2.1]
  · refine bucketPairs_congr rfl (by simp [Shape.link, hne]) fun p hp => hent p (hsame j hj p hp)

section Unlink

variable {a d : EntryPtr} {l₁ l₂ : List EntryPtr} (hc : S.chain i = l₁ ++ d :: l₂) {f : EntryFlags}
include hc

omit he hi hc in
/-- The payloads of the other entries when an entry is moved to the free chain. -/
theorem unlink_payload {p : EntryPtr} (hp : p ≠ d) :
    (upd (upd ents a { ents a with next := (ents d).next }) d { ents d with next := fc, flags := f } p).key = (ents p).key ∧
      (upd (upd ents a { ents a with next := (ents d).next }) d { ents d with next := fc, flags := f } p).data =
        (ents p).data ∧
      (upd (upd ents a { ents a with next := (ents d).next }) d { ents d with next := fc, flags := f } p).flags.occupied =
        (ents p).flags.occupied := by
  rw [upd_ne _ _ hp]
  by_cases h : p = a
  · rw [h, upd_self]; exact ⟨rfl, rfl, rfl⟩
  · rw [upd_ne _ _ h]; exact ⟨rfl, rfl, rfl⟩

/-- A bucket with a chain has an occupied head. -/
theorem unlink_occupied : (ents (S.head i)).flags.occupied = true := by
  have hd : d ∈ S.chain i := by rw [hc]; simp
  by_contra h
  rw [he.flagged.empty i hi (by simpa using h)] at hd
  cases hd

/-- Bucket `i` with an entry moved to the free chain. -/
theorem bucketPairs_unlink :
    bucketPairs kb (upd (upd ents a { ents a with next := (ents d).next }) d { ents d with next := fc, flags := f })
      (S.unlink i d (l₁ ++ l₂)) i = (S.head i :: (l₁ ++ l₂)).map (pairOf kb ents) := by
  have hd : d ∈ S.chain i := by rw [hc]; simp
  have hnd : d ∉ l₁ ++ l₂ := by
    have := he.ok.chainNodup i hi
    rw [hc, List.nodup_middle, List.nodup_cons] at this
    exact this.1
  have hhd : S.head i ≠ d := Ne.symm (he.ok.chain_ne_head hi hi hd)
  rw [bucketPairs, Shape.bucket]
  show List.map _ (if (upd _ _ _ (S.head i)).flags.occupied = true then S.head i :: (S.unlink i d (l₁ ++ l₂)).chain i
    else []) = _
  rw [(unlink_payload hhd).2.2, if_pos (unlink_occupied he hi hc)]
  simp only [Shape.unlink, ↓reduceIte]
  refine List.map_congr_left fun p hp => ?_
  have hpd : p ≠ d := by
    rintro rfl
    rcases List.mem_cons.mp hp with h | h
    · exact hhd h.symm
    · exact hnd h
  rw [pairOf, pairOf, (unlink_payload hpd).1, (unlink_payload hpd).2.1]

/-- The other buckets when an entry of bucket `i` is moved to the free chain. -/
theorem bucketPairs_unlink_ne {j : Nat} (hj : j < S.count) (hne : j ≠ i) :
    bucketPairs kb (upd (upd ents a { ents a with next := (ents d).next }) d { ents d with next := fc, flags := f })
      (S.unlink i d (l₁ ++ l₂)) j = bucketPairs kb ents S j := by
  have hd : d ∈ S.chain i := by rw [hc]; simp
  refine bucketPairs_congr (S := S) rfl (by simp [Shape.unlink, hne]) fun p hp => unlink_payload ?_
  rintro rfl
  rcases List.mem_cons.mp hp with h | h
  · exact he.ok.chain_ne_head hi hj hd h
  · exact hne (he.ok.chain_inj hj hi h hd)

/-- An entry moved to the free chain. -/
theorem pairs_unlink : pairs kb ents S = pairOf kb ents d ::ₘ
    pairs kb (upd (upd ents a { ents a with next := (ents d).next }) d { ents d with next := fc, flags := f })
      (S.unlink i d (l₁ ++ l₂)) := by
  refine @pairs_cons _ _ (S.unlink i d (l₁ ++ l₂)) _ _ S rfl _ hi _ ?_ fun j hj hne => ?_
  · rw [bucketPairs_occupied (unlink_occupied he hi hc), bucketPairs_unlink he hi hc, hc, ← List.map_cons, ← List.map_cons]
    apply List.Perm.map _
    exact (List.Perm.cons _ List.perm_middle).trans (List.Perm.swap _ _ _)
  · exact (bucketPairs_unlink_ne he hi hc hj hne).symm

end Unlink

end Effects

end

end

end ZfsTest.Hashtable
