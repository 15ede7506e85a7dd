import ZfsTest.Hashtable.Held

/-!
# Resizing

`ht_resize` in the order of its code: the new table is created and put on `ht->old` (`Held.link`), filled (`Copy.lean`), given
up (`abandonNew_spec`) or exchanged with the table of the head (`Held.swap`), swept and destroyed (`finishResize_spec`).
`htResize_spec` collects the outcomes: the new table could be built exactly when `Builds` says so; otherwise the table is as
before.
-/

namespace ZfsTest.Hashtable

open Prog

variable {c : Conf} {env : Env} {w w' w₁ w₂ : World} {h a : Addr} {S S' S₂ : Shape} {P P' : List (Addr × List Addr)}

/-! ## Changes beside the table -/

/-- The slabs of the table and the fields of its head, but `old`, are as before. -/
structure Unchanged (w w' : World) (h : Addr) (S : Shape) : Prop where
  slabs : ∀ a ∈ S.slabs, SameBlock w w' a
  head : w'.heads h = some { w.head h with old := (w'.head h).old }

namespace Unchanged

theorem refl (hh : w.hasHead h = true) : Unchanged w w h S := ⟨fun a _ => SameBlock.refl w a, World.heads_eq hh⟩

theorem trans (hu : Unchanged w w₁ h S) (hu' : Unchanged w₁ w₂ h S) : Unchanged w w₂ h S := by
  refine ⟨fun a ha => (hu.slabs a ha).trans (hu'.slabs a ha), ?_⟩
  have h1 : w₁.head h = { w.head h with old := (w₁.head h).old } := by
    rw [World.head, hu.head]
    rfl
  rw [hu'.head, h1]

/-- Blocks that have not changed. -/
theorem ofSame (hh : w.hasHead h = true) (hb : SameBlock w w' h) (hs : ∀ a ∈ S.slabs, SameBlock w w' a) :
    Unchanged w w' h S := by
  refine ⟨hs, ?_⟩
  rw [hb.heads, hb.head]
  exact World.heads_eq hh

theorem setOld (hn : h ∉ S.slabs) (v : Option Addr) : Unchanged w (w.setHead h { w.head h with old := v }) h S := by
  refine ⟨fun a ha => ?_, by simp⟩
  have hne : a ≠ h := fun e => hn (e ▸ ha)
  exact ⟨by simp [hne], rfl, fun _ => rfl, fun _ _ => rfl⟩

theorem setLock {l : LockId} (hh : w.hasHead h = true) (hl : l.block ∉ S.slabs) (st : LockState) :
    Unchanged w (w.setLock l st) h S :=
  ⟨fun _ ha => (Only.setLock w l st).same _ fun e => hl (e ▸ ha), World.heads_eq hh⟩

theorem withBook (hu : Unchanged w w' h S) (b : Book) : Unchanged w (w'.withBook b) h S :=
  ⟨fun a ha => ⟨(hu.slabs a ha).heads, (hu.slabs a ha).slabs, (hu.slabs a ha).ents, (hu.slabs a ha).locks⟩, hu.head⟩

section

variable (hu : Unchanged w w' h S)
include hu

theorem head_eq : w'.head h = { w.head h with old := (w'.head h).old } := by
  rw [World.head, hu.head]
  rfl

theorem hasHead : w'.hasHead h = true := by
  rw [World.hasHead, hu.head]
  rfl

theorem keyLen : w'.keyLen c h = w.keyLen c h := by
  unfold World.keyLen
  rw [hu.head_eq]

theorem ents {p : EntryPtr} (hp : S.Has p) : w'.ents p = w.ents p := (hu.slabs p.1 hp.1).ents p.2

theorem table (ht : Table c w h S) (hs : StatsFree w' h) (hc : w.cells ≤ w'.cells) : Table c w' h S := by
  refine ⟨hs, ?_, ?_, ?_, ht.slabsNodup, fun a ha => ?_, ht.cells.trans hc, ?_, fun p hp => ?_⟩
  · rw [hu.head_eq]; exact ht.table
  · rw [hu.head_eq]; exact ht.threshold
  · rw [hu.head_eq]
    exact ht.slabs.congr fun a ha => by rw [(hu.slabs a ha).slab]
  · rw [(hu.slabs a ha).hasSlab, (hu.slabs a ha).slab]
    exact ht.live a ha
  · rw [hu.keyLen, hu.head_eq]
    exact ht.entries.congr fun p hp => hu.ents hp
  · rw [(hu.slabs p.1 hp.1).locks (.entry p) rfl, hu.ents hp]
    exact ht.entryLocks p hp

theorem contents (ht : Table c w h S) : contents c w' h S = contents c w h S := by
  unfold Hashtable.contents
  rw [hu.keyLen]
  refine pairs_congr rfl fun i hi => bucketPairs_congr rfl rfl fun p hp => ?_
  rw [hu.ents (ht.ok.bucket_has hi hp)]
  exact ⟨rfl, rfl, rfl⟩

theorem clean (hc : Clean w S) : Clean w' S := fun p hp =>
  ((hu.slabs p.1 hp.1).locks (.entry p) rfl).trans (hc p hp)

end

end Unchanged

/-- The invariant with other tables on `ht->old`. -/
theorem Held.rebase (hh : Held c w h S P) (hu : Unchanged w w' h S) (hf : w'.Fresh) (hs : StatsFree w' h)
    (hc : w.cells ≤ w'.cells) (ho : OldChain w' (w'.head h).old P') (hn : (h :: S.slabs ++ blocksOf P').Nodup)
    (hheads : ∀ a, w'.hasHead a = true → a = h ∨ a ∈ P'.map Prod.fst)
    (hslabs : ∀ a, w'.hasSlab a = true → a ∈ S.slabs ∨ ∃ x ∈ P', a ∈ x.2) : Held c w' h S P' where
  fresh := hf
  table := hu.table hh.table hs hc
  old := ho
  nodup := hn
  heads := hheads
  slabs := hslabs
  keysize := by
    rw [hu.head_eq]
    exact hh.keysize
  distinct hd := by
    rw [hu.contents hh.table]
    apply hh.distinct
    rw [hu.head_eq] at hd
    exact hd

/-- A table as one of the tables on `ht->old`. -/
theorem Table.oldTable (ht : Table c w a S) (hl : w.locks (.table a) = .free) : OldTable w a S.slabs := by
  refine ⟨ht.stats, hl, ht.slabs, ht.slabsNodup, fun s hs => ?_, fun s hs j hj => Or.inl ?_⟩
  · obtain ⟨h1, h2, h3⟩ := ht.live s hs
    exact ⟨h1, by rw [h2, h3]⟩
  · rw [ht.entrycount hs] at hj
    exact ht.entries.flagged.init (s, j) ⟨hs, hj⟩

/-! ## Destroying the tables on `ht->old` -/

/-- `ht_destroy` of the tables on `ht->old`: all are gone, or those it could not free are left. -/
theorem destroyOld_spec (hok : LockOk env) {ss : List Addr} (hh : Held c w h S ((a, ss) :: P)) :
    wp env (htDestroy a) (fun r w' => Unchanged w w' h S ∧ (∀ l, l.block = h → w'.locks l = w.locks l) ∧
      (∃ P', Held c (if r = 0 then w'.setHead h { w'.head h with old := none } else w') h S P' ∧ (r = 0 → P' = [])) ∧
      ((∀ x ∈ (a, ss) :: P, ∀ s ∈ x.2, SlabDestroyable env w s ∧ SlabUnlocked w s) →
        r = 0 ∧ w'.book.misuse = w.book.misuse)) w := by
  have hlink : (w.head h).old = some a := hh.old.chain.1
  have hch : OldChain w (some a) ((a, ss) :: P) := hlink ▸ hh.old
  apply wp_mono (htDestroy_spec hok hh.fresh hch)
  rintro r w' ⟨ho, hrest, hsucc⟩
  have hout : ∀ b, Blocks h S b → SameBlock w w' b := by
    intro b hb
    refine ho.same b fun hm => hh.old_notBlocks hm hb
  have hu : Unchanged w w' h S := .ofSame hh.table.head (hout h (Or.inl rfl)) fun b hb => hout b (Or.inr hb)
  have hfresh : w'.Fresh := ho.fresh (fun b hm => hh.old_lt hm) hh.fresh
  have hstats : StatsFree w' h := hh.table.stats.congr hu.hasHead (hout h (Or.inl rfl)).locks
  have hslab : ∀ b, w'.hasSlab b = true → b ∈ S.slabs ∨ ∃ x ∈ (a, ss) :: P, b ∈ x.2 := fun b hb => hh.slabs b (ho.slabs b hb)
  refine ⟨hu, (hout h (Or.inl rfl)).locks, ?_, fun hall => ?_⟩
  · rcases hrest with ⟨hr, hgone⟩ | ⟨hr, P', hP', hleft⟩
    · refine ⟨[], ?_, fun _ => rfl⟩
      rw [if_pos hr]
      have hu' := hu.trans (Unchanged.setOld (w := w') hh.head_notMem.1 none)
      have hhas : (w'.setHead h { w'.head h with old := none }).hasHead h = true := by simp
      refine hh.rebase hu' ⟨fun b hb => ?_, hfresh.slabs, hfresh.locks⟩ ⟨hhas, hstats.counter, hstats.average⟩
        (le_of_eq ho.cells.symm) ⟨by simp, by simp, by simp [blocksOf]⟩ ?_ (fun b hb => Or.inl ?_) fun b hb => ?_
      · have hne : b ≠ h := by
          rintro rfl
          exact Nat.not_lt.mpr hb (hfresh.head_lt hu.hasHead)
        simpa [hne] using hfresh.heads b hb
      · exact hh.nodup.sublist (List.Sublist.append (List.Sublist.refl _) (List.nil_sublist _))
      · by_contra hne
        have hb' : w'.hasHead b = true := by simpa [hne] using hb
        obtain ⟨x, hx, rfl⟩ := List.mem_map.mp ((hh.heads b (ho.heads b hb')).resolve_left hne)
        rw [World.hasHead, (hgone x hx).1] at hb'
        cases hb'
      · have hb : w'.hasSlab b = true := hb
        rcases hslab b hb with hm | ⟨x, hx, hm⟩
        · exact Or.inl hm
        · rw [World.hasSlab, (hgone x hx).2 b hm] at hb
          cases hb
    · refine ⟨P', ?_, fun h => absurd h hr⟩
      rw [if_neg hr]
      refine hh.rebase hu hfresh hstats (le_of_eq ho.cells.symm) ?_
        (hh.nodup.sublist (List.Sublist.append (List.Sublist.refl _) hleft.blocks)) (fun b hb => ?_) fun b hb => ?_
      · rw [(hout h (Or.inl rfl)).head, hlink]
        exact hP'
      · rcases hh.heads b (ho.heads b hb) with hm | hm
        · exact Or.inl hm
        · obtain ⟨x, hx, rfl⟩ := List.mem_map.mp hm
          exact Or.inr (hleft.heads x hx hb)
      · rcases hslab b hb with hm | ⟨x, hx, hm⟩
        · exact Or.inl hm
        · exact Or.inr (hleft.slabs x hx b hm hb)
  · obtain ⟨hr, hm⟩ := hsucc fun x hx s hs => (hall x hx s hs).1
    exact ⟨hr, hm fun x hx s hs => (hall x hx s hs).2⟩

/-- The new table is given up. -/
theorem abandonNew_spec (hok : LockOk env) {ss : List Addr} (hh : Held c w h S ((a, ss) :: P)) :
    wp env (abandonNew h a) (fun _ w' => Unchanged w w' h S ∧ (∀ l, l.block = h → w'.locks l = w.locks l) ∧
      ∃ P', Held c w' h S P' ∧
        ((∀ x ∈ (a, ss) :: P, ∀ s ∈ x.2, SlabDestroyable env w s ∧ SlabUnlocked w s) →
          P' = [] ∧ w'.book.misuse = w.book.misuse)) w := by
  unfold abandonNew
  refine wp_count hok hh.table.stats fun b hb => ?_
  apply wp_spec (destroyOld_spec hok (hh.withBook b))
  rintro r w' ⟨hu, hl, ⟨P', hP', hnil⟩, hall⟩
  have hu := (Unchanged.refl (S := S) hh.table.head).withBook b |>.trans hu
  by_cases hr : r = 0
  · rw [if_pos hr, wp_last, wp_setOld hu.hasHead]
    rw [if_pos hr] at hP'
    refine wp_ret.mpr ⟨hu.trans (.setOld hh.head_notMem.1 none), hl, P', hP', fun hd => ⟨hnil hr, ?_⟩⟩
    exact (hall hd).2.trans hb.misuse
  · rw [if_neg hr]
    rw [if_neg hr] at hP'
    exact wp_ret.mpr ⟨hu, hl, P', hP', fun hd => absurd (hall hd).1 hr⟩

/-! ## The new table -/

/-- The new head `w.mallocs` created and put on `ht->old`. -/
def World.linkNew (w : World) (h : Addr) (n ks : Nat) (opts : Options) : World :=
  (w.newTable n ks opts (w.head h).old none).setHead h { w.head h with old := some w.mallocs }

section Link

variable {n ks : Nat} {opts : Options}

theorem World.linkNew_same {b : Addr} (hb : b < w.mallocs) (hne : b ≠ h) :
    SameBlock w (w.linkNew h n ks opts) b := by
  have hsame := (@newTable_frame w n ks opts (w.head h).old none).same b hb
    fun h => h
  exact ⟨by rw [← hsame.heads]; simp [World.linkNew, hne], hsame.slabs, hsame.ents, hsame.locks⟩

theorem World.linkNew_locks {l : LockId} (hl : l.block < w.mallocs) : (w.linkNew h n ks opts).locks l = w.locks l :=
  @newTable_locks_old _ _ _ _ _ none _ hl

theorem World.linkNew_head : (w.linkNew h n ks opts).head h = { w.head h with old := some w.mallocs } := by
  simp [World.linkNew]

theorem World.linkNew_head_new (hlt : h < w.mallocs) : (w.linkNew h n ks opts).head w.mallocs =
    ⟨intOfSize ks, opts, (w.head h).old, some (w.mallocs + 1), some (w.mallocs + 1), none,
      some htEvaluateThresholdDefault⟩ := by
  simp [World.linkNew, Nat.ne_of_gt hlt]

theorem World.linkNew_withBook (b : Book) : (w.withBook b).linkNew h n ks opts = (w.linkNew h n ks opts).withBook b := rfl

theorem World.linkNew_fresh (hw : w.Fresh) (hlt : h < w.mallocs) : (w.linkNew h n ks opts).Fresh := by
  have hf := @newTable_fresh _ n ks opts (w.head h).old none hw
  refine ⟨fun b hb => ?_, hf.slabs, hf.locks⟩
  have hne : b ≠ h := by
    rintro rfl
    have hle : w.mallocs + 2 ≤ b := hb
    exact Nat.not_lt.mpr hle (Nat.lt_add_right 2 hlt)
  simpa [World.linkNew, hne] using hf.heads b hb

/-- The new table is there, and empty. -/
theorem World.linkNew_table (hlt : h < w.mallocs) (hn : n ≠ 0) :
    Table c (w.linkNew h n ks opts) w.mallocs (Shape.new (w.mallocs + 1) n) ∧ Idle (w.linkNew h n ks opts) w.mallocs ∧
      Clean (w.linkNew h n ks opts) (Shape.new (w.mallocs + 1) n) ∧
      contents c (w.linkNew h n ks opts) w.mallocs (Shape.new (w.mallocs + 1) n) = 0 := by
  have hT := @newTable_table c w _ ks opts (w.head h).old hn
  have hsame : ∀ b, b ≠ h → SameBlock (w.newTable n ks opts (w.head h).old none) (w.linkNew h n ks opts) b := fun b hb =>
    ⟨by simp [World.linkNew, hb], rfl, fun _ => rfl, fun _ _ => rfl⟩
  have hI := @newTable_idle w n ks opts (w.head h).old none
  refine ⟨hT.same (fun b hb => hsame b ?_) (Nat.le_refl _), ⟨hI.table, hI.free, hI.resize⟩,
    @newTable_clean _ _ _ _ _ none, ?_⟩
  · rcases hb with rfl | hb
    · exact Nat.ne_of_gt hlt
    · obtain rfl : b = w.mallocs + 1 := List.mem_singleton.mp hb
      exact Nat.ne_of_gt (Nat.lt_succ_of_lt hlt)
  · have hk : (w.linkNew h n ks opts).keyLen c w.mallocs = (w.newTable n ks opts (w.head h).old none).keyLen c w.mallocs := by
      unfold World.keyLen
      rw [(hsame w.mallocs (Nat.ne_of_gt hlt)).head]
    have he : (w.linkNew h n ks opts).ents = (w.newTable n ks opts (w.head h).old none).ents := rfl
    rw [contents_congr he hk]
    exact newTable_contents

theorem Unchanged.linkNew (hh : Held c w h S P) : Unchanged w (w.linkNew h n ks opts) h S := by
  refine ⟨fun b hb => World.linkNew_same (hh.slab_lt hb) fun e => hh.head_notMem.1 (e ▸ hb), ?_⟩
  rw [World.linkNew_head]
  simp [World.linkNew]

/-- A table on `ht->old` that has changed by itself. -/
theorem Held.afterNew {m : Addr} (hh : Held c w h S ((m, S₂.slabs) :: P)) (ha : After c w m S₂ w' S') :
    Held c w' h S ((m, S'.slabs) :: P) ∧ Unchanged w w' h S ∧ (∀ l, l.block = h → w'.locks l = w.locks l) ∧
      ∀ b ∈ blocksOf P, SameBlock w w' b := by
  have hmm : m ∈ blocksOf ((m, S₂.slabs) :: P) := List.mem_cons_self
  have hms : ∀ s ∈ S₂.slabs, s ∈ blocksOf ((m, S₂.slabs) :: P) := fun s hs =>
    mem_blocksOf.mpr ⟨_, List.mem_cons_self, Or.inr hs⟩
  have hnd := List.nodup_append.mp (show (m :: S₂.slabs ++ blocksOf P).Nodup from hh.old.nodup)
  have hP : ∀ b ∈ blocksOf P, b ∈ blocksOf ((m, S₂.slabs) :: P) := fun b hb => List.mem_append_right (m :: S₂.slabs) hb
  have hsameP : ∀ b ∈ blocksOf P, SameBlock w w' b := by
    refine fun b hb => ha.frame.same b (hh.old_lt (hP b hb)) ?_
    rintro (rfl | hs)
    · exact hnd.2.2 b List.mem_cons_self b hb rfl
    · exact hnd.2.2 b (List.mem_cons_of_mem _ hs) b hb rfl
  have hsame : ∀ b, Blocks h S b → SameBlock w w' b := by
    intro b hb
    refine ha.frame.same b ?_ ?_
    · rcases hb with rfl | hb
      · exact hh.head_lt
      · exact hh.slab_lt hb
    · rintro (rfl | hs)
      · exact hh.old_notBlocks hmm hb
      · exact hh.old_notBlocks (hms b hs) hb
  have hhead := hsame h (Or.inl rfl)
  have hu : Unchanged w w' h S := .ofSame hh.table.head hhead fun b hb => hsame b (Or.inr hb)
  -- the slabs of the new table are old ones of its own, or new
  have hnew : ∀ s ∈ S'.slabs, ¬Blocks h S s ∧ s ≠ m ∧ s ∉ blocksOf P := by
    intro s hs
    rcases ha.slabs s hs with h1 | h1
    · refine ⟨hh.old_notBlocks (hms s h1), ?_, fun hb => hnd.2.2 s (List.mem_cons_of_mem _ h1) s hb rfl⟩
      rintro rfl
      exact (List.nodup_cons.mp hnd.1).1 h1
    · refine ⟨?_, ?_, fun hb => Nat.not_lt.mpr h1 (hh.old_lt (hP s hb))⟩
      · rintro (rfl | hb)
        · exact Nat.not_lt.mpr h1 hh.head_lt
        · exact Nat.not_lt.mpr h1 (hh.slab_lt hb)
      · rintro rfl
        exact Nat.not_lt.mpr h1 (hh.old_lt hmm)
  have hnodup : (m :: S'.slabs ++ blocksOf P).Nodup := by
    refine List.nodup_append.mpr ⟨List.nodup_cons.mpr ⟨fun hm => (hnew m hm).2.1 rfl, ha.table.slabsNodup⟩, hnd.2.1, ?_⟩
    rintro b hb b' hb' rfl
    rcases List.mem_cons.mp hb with rfl | hb
    · exact hnd.2.2 b List.mem_cons_self b hb' rfl
    · exact (hnew b hb).2.2 hb'
  refine ⟨hh.rebase hu ha.fresh (hh.table.stats.congr hu.hasHead hhead.locks) ha.frame.cells ?_ ?_ ?_ ?_, hu, hhead.locks,
    hsameP⟩
  · rw [hhead.head]
    refine ⟨⟨hh.old.chain.1, ?_⟩, fun x hx => ?_, hnodup⟩
    · show Chain _ (w'.head m).old _
      rw [ha.old]
      refine Chain.congr hh.old.chain.2 fun b hb => ?_
      obtain ⟨x, hx, rfl⟩ := List.mem_map.mp hb
      rw [(hsameP x.1 (mem_blocksOf.mpr ⟨x, hx, Or.inl rfl⟩)).head]
    · rcases List.mem_cons.mp hx with rfl | hx
      · exact ha.table.oldTable ha.idle.table
      · refine (hh.old.tables x (List.mem_cons_of_mem _ hx)).same fun b hb => hsameP b ?_
        exact mem_blocksOf.mpr ⟨x, hx, List.mem_cons.mp hb⟩
  · have hS := List.nodup_append.mp hh.nodup
    refine List.nodup_append.mpr ⟨hS.1, hnodup, ?_⟩
    rintro b hb b' hb' rfl
    have hblk : Blocks h S b := List.mem_cons.mp hb
    rcases List.mem_append.mp (show b ∈ m :: S'.slabs ++ blocksOf P from hb') with hb' | hb'
    · rcases List.mem_cons.mp hb' with rfl | hb'
      · exact hh.old_notBlocks hmm hblk
      · exact (hnew b hb').1 hblk
    · exact hh.old_notBlocks (hP b hb') hblk
  · intro b hb
    rw [ha.heads] at hb
    exact hh.heads b hb
  · intro b hb
    rcases ha.newSlabs b hb with hs | hs
    · rcases hh.slabs b hs with hm | ⟨x, hx, hm⟩
      · exact Or.inl hm
      · rcases List.mem_cons.mp hx with rfl | hx
        · exact Or.inr ⟨_, List.mem_cons_self, ha.kept b hm⟩
        · exact Or.inr ⟨x, List.mem_cons_of_mem _ hx, hm⟩
    · exact Or.inr ⟨_, List.mem_cons_self, hs⟩

/-- The invariant with the new table on `ht->old`. -/
theorem Held.link (hh : Held c w h S P) (hn : n ≠ 0) :
    Held c (w.linkNew h n ks opts) h S ((w.mallocs, (Shape.new (w.mallocs + 1) n).slabs) :: P) := by
  have hlt := hh.head_lt
  obtain ⟨hT, hI, -, -⟩ := @World.linkNew_table c _ _ n ks opts hlt hn
  have hP : ∀ b ∈ blocksOf P, SameBlock w (w.linkNew h n ks opts) b := fun b hb =>
    World.linkNew_same (hh.old_lt hb) fun e => hh.head_notMem.2 (e ▸ hb)
  have hu : Unchanged w (w.linkNew h n ks opts) h S := .linkNew hh
  have hblock : ∀ b ∈ h :: S.slabs ++ blocksOf P, b < w.mallocs := by
    intro b hb
    rcases List.mem_append.mp hb with hb | hb
    · rcases List.mem_cons.mp hb with rfl | hb
      · exact hlt
      · exact hh.slab_lt hb
    · exact hh.old_lt hb
  have hslabs : (Shape.new (w.mallocs + 1) n).slabs = [w.mallocs + 1] := rfl
  have hnd : (w.mallocs :: [w.mallocs + 1] ++ blocksOf P).Nodup := by
    have h1 : w.mallocs ∉ blocksOf P := fun hm => Nat.lt_irrefl _ (hh.old_lt hm)
    have h2 : w.mallocs + 1 ∉ blocksOf P := fun hm => Nat.not_lt.mpr (Nat.le_succ _) (hh.old_lt hm)
    simp [h1, h2, hh.old.nodup]
  refine hh.rebase hu (World.linkNew_fresh hh.fresh hlt)
    (hh.table.stats.congr hu.hasHead fun l hl => World.linkNew_locks (hl ▸ hlt)) (Nat.le_add_right _ _) ?_ ?_ ?_ ?_
  · rw [World.linkNew_head]
    refine ⟨⟨rfl, ?_⟩, fun x hx => ?_, hnd⟩
    · show Chain _ ((w.linkNew h n ks opts).head w.mallocs).old _
      rw [World.linkNew_head_new hlt]
      refine hh.old.chain.congr fun b hb => ?_
      obtain ⟨x, hx, rfl⟩ := List.mem_map.mp hb
      rw [(hP x.1 (mem_blocksOf.mpr ⟨x, hx, Or.inl rfl⟩)).head]
    · rcases List.mem_cons.mp hx with rfl | hx
      · exact hT.oldTable hI.table
      · exact (hh.old.tables x hx).same fun b hb => hP b (mem_blocksOf.mpr ⟨x, hx, List.mem_cons.mp hb⟩)
  · have hS := List.nodup_append.mp hh.nodup
    refine List.nodup_append.mpr ⟨hS.1, hnd, ?_⟩
    rintro b hb b' hb' rfl
    rcases List.mem_append.mp (show b ∈ [w.mallocs, w.mallocs + 1] ++ blocksOf P from hb') with hb' | hb'
    · have hlt' := hblock b (List.mem_append_left _ hb)
      simp only [List.mem_cons, List.not_mem_nil, or_false] at hb'
      rcases hb' with rfl | rfl
      · exact Nat.lt_irrefl _ hlt'
      · exact Nat.not_lt.mpr (Nat.le_succ _) hlt'
    · exact hS.2.2 b hb b hb' rfl
  · intro b hb
    by_cases hm : b = w.mallocs
    · exact Or.inr (hm ▸ List.mem_cons_self)
    · have hb' : b = h ∨ w.hasHead b = true := by
        simpa [World.linkNew, newTable_hasHead, hm] using hb
      rcases hb' with hb' | hb'
      · exact Or.inl hb'
      · exact (hh.heads b hb').imp id (List.mem_cons_of_mem _)
  · intro b hb
    by_cases hm : b = w.mallocs + 1
    · exact Or.inr ⟨_, List.mem_cons_self, hm ▸ List.mem_cons_self⟩
    · have hb' : w.hasSlab b = true := by
        simpa [World.linkNew, newTable_hasSlab, hm] using hb
      rcases hh.slabs b hb' with hs | ⟨x, hx, hs⟩
      · exact Or.inl hs
      · exact Or.inr ⟨x, List.mem_cons_of_mem _ hx, hs⟩

end Link

/-! ## The swap -/

/-- The memory after the swap of the two tables. -/
def World.swapped (w : World) (h a : Addr) : World :=
  (w.setHead h { w.head h with
    slabs := (w.head a).slabs, freechain := (w.head a).freechain, table := (w.head a).table }).setHead a
    { w.head a with slabs := (w.head h).slabs, freechain := (w.head h).freechain, table := (w.head h).table }

theorem World.swapped_head (w : World) (h a b : Addr) : (w.swapped h a).head b =
    if b = a then { w.head a with slabs := (w.head h).slabs, freechain := (w.head h).freechain, table := (w.head h).table }
    else if b = h then { w.head h with
      slabs := (w.head a).slabs, freechain := (w.head a).freechain, table := (w.head a).table }
    else w.head b := by
  simp [World.swapped]

theorem World.swapped_hasHead (hh : w.hasHead h = true) (ha : w.hasHead a = true) (b : Addr) :
    (w.swapped h a).hasHead b = w.hasHead b := by
  by_cases h1 : b = a
  · simp [World.swapped, h1, ha]
  · by_cases h2 : b = h
    · simp [World.swapped, h2, hh]
    · simp [World.swapped, h1, h2]

theorem wp_swapTables {β : Type} {Q : β → World → Prop} {k : Unit → Code β} (hne : a ≠ h) (hh : w.hasHead h = true)
    (ha : w.hasHead a = true) : wp env (swapTables h a >>= k) Q w ↔ wp env (k ()) Q (w.swapped h a) := by
  unfold swapTables
  simp only [Prog.bind_assoc]
  rw [wp_getSlabs hh, wp_getSlabs ha, wp_setSlabs hh, wp_setSlabs (by simp [ha]), wp_getFreechain (by simp),
    wp_getFreechain (by simp), wp_setFreechain (by simp), wp_setFreechain (by simp), wp_readTable (by simp),
    wp_readTable (by simp), wp_setTable (by simp), wp_setTable (by simp)]
  have heq : ∀ x y z x' y' z', ((((((w.setHead h x).setHead a y).setHead h z).setHead a x').setHead h y').setHead a z') =
      (w.setHead h y').setHead a z' := by
    intro x y z x' y' z'
    refine World.ext ?_ rfl rfl rfl rfl rfl rfl rfl
    funext b
    by_cases h1 : b = a
    · simp [h1]
    · by_cases h2 : b = h
      · simp [h2, hne.symm]
      · simp [h1, h2]
  rw [heq]
  simp [World.swapped, hne, hne.symm]

/-- The swapped table is that of the other head. -/
theorem Table.swapped_left (ht : Table c w h S) (ht' : Table c w a S') (hne : a ≠ h)
    (hk : (w.head a).keysize = (w.head h).keysize) : Table c (w.swapped h a) h S' := by
  have hhead : (w.swapped h a).head h = { w.head h with
      slabs := (w.head a).slabs, freechain := (w.head a).freechain, table := (w.head a).table } := by
    rw [World.swapped_head, if_neg hne.symm, if_pos rfl]
  refine ⟨⟨?_, ht.stats.counter, ht.stats.average⟩, ?_, ?_, ?_, ht'.slabsNodup, ht'.live, ht'.cells, ?_, ht'.entryLocks⟩
  · rw [World.swapped_hasHead ht.head ht'.head]
    exact ht.head
  · rw [hhead]; exact ht'.table
  · rw [hhead]; exact ht.threshold
  · rw [hhead]; exact ht'.slabs
  · have hlen : (w.swapped h a).keyLen c h = w.keyLen c a := by
      unfold World.keyLen
      rw [hhead, hk]
    rw [hlen, hhead]
    exact ht'.entries

theorem World.swapped_comm (hne : a ≠ h) : w.swapped h a = w.swapped a h := by
  refine World.ext ?_ rfl rfl rfl rfl rfl rfl rfl
  funext b
  by_cases h1 : b = a
  · simp [World.swapped, h1, hne]
  · by_cases h2 : b = h
    · simp [World.swapped, h2, hne.symm]
    · simp [World.swapped, h1, h2]

theorem contents_swapped (hne : a ≠ h) (hk : (w.head a).keysize = (w.head h).keysize) :
    contents c (w.swapped h a) h S' = contents c w a S' := by
  have hlen : (w.swapped h a).keyLen c h = w.keyLen c a := by
    unfold World.keyLen
    rw [World.swapped_head, if_neg hne.symm, if_pos rfl]
    exact congrArg _ hk.symm
  unfold contents
  rw [hlen]
  rfl

/-- The new table becomes the table of the head, the old one that of the new head. -/
theorem Held.swap (hh : Held c w h S ((a, S₂.slabs) :: P)) (ht : Table c w a S₂)
    (hk : (w.head a).keysize = (w.head h).keysize) (hcont : contents c w a S₂ = contents c w h S) :
    Held c (w.swapped h a) h S₂ ((a, S.slabs) :: P) ∧ Table c (w.swapped h a) a S := by
  have hne : a ≠ h := fun e => hh.head_notMem.2 (e ▸ List.mem_cons_self)
  have hta : Table c (w.swapped h a) a S := by
    rw [World.swapped_comm hne]
    exact ht.swapped_left hh.table hne.symm hk.symm
  have hlock : w.locks (.table a) = .free := (hh.old.tables (a, S₂.slabs) List.mem_cons_self).lock
  have hhead : (w.swapped h a).head h = { w.head h with
      slabs := (w.head a).slabs, freechain := (w.head a).freechain, table := (w.head a).table } := by
    rw [World.swapped_head, if_neg hne.symm, if_pos rfl]
  have hperm : (h :: S₂.slabs ++ (a :: S.slabs ++ blocksOf P)).Perm (h :: S.slabs ++ (a :: S₂.slabs ++ blocksOf P)) := by
    apply List.Perm.cons h
    refine List.perm_middle.trans (List.Perm.trans ?_ List.perm_middle.symm)
    exact List.Perm.cons a (List.perm_append_comm_assoc _ _ _)
  have hout : ∀ b ∈ blocksOf P, b ≠ h ∧ b ≠ a := by
    intro b hb
    refine ⟨?_, ?_⟩
    · rintro rfl
      exact hh.head_notMem.2 (List.mem_append_right (a :: S₂.slabs) hb)
    · rintro rfl
      have := hh.old.nodup
      exact (List.nodup_append.mp (show (b :: S₂.slabs ++ blocksOf P).Nodup from this)).2.2 b List.mem_cons_self b hb rfl
  refine ⟨?_, hta⟩
  refine ⟨⟨fun b hb => ?_, hh.fresh.slabs, hh.fresh.locks⟩, hh.table.swapped_left ht hne hk, ?_, ?_, ?_, ?_, ?_, ?_⟩
  · have h1 : b ≠ h := by rintro rfl; exact Nat.not_lt.mpr hb hh.head_lt
    have h2 : b ≠ a := by rintro rfl; exact Nat.not_lt.mpr hb (hh.fresh.head_lt ht.head)
    simpa [World.swapped, h1, h2] using hh.fresh.heads b hb
  · rw [hhead]
    refine ⟨⟨hh.old.chain.1, ?_⟩, fun x hx => ?_, ?_⟩
    · show Chain _ ((w.swapped h a).head a).old _
      rw [World.swapped_head, if_pos rfl]
      refine Chain.congr hh.old.chain.2 fun b hb => ?_
      obtain ⟨x, hx, rfl⟩ := List.mem_map.mp hb
      obtain ⟨h1, h2⟩ := hout x.1 (mem_blocksOf.mpr ⟨x, hx, Or.inl rfl⟩)
      rw [World.swapped_head, if_neg h2, if_neg h1]
    · rcases List.mem_cons.mp hx with rfl | hx
      · exact hta.oldTable hlock
      · refine (hh.old.tables x (List.mem_cons_of_mem _ hx)).same fun b hb => ?_
        obtain ⟨h1, h2⟩ := hout b (mem_blocksOf.mpr ⟨x, hx, List.mem_cons.mp hb⟩)
        exact ⟨by simp [World.swapped, h1, h2], rfl, fun _ => rfl, fun _ _ => rfl⟩
    · exact ((hperm.nodup_iff.mpr hh.nodup).sublist (List.sublist_append_right (h :: S₂.slabs) _))
  · exact hperm.nodup_iff.mpr hh.nodup
  · intro b hb
    rw [World.swapped_hasHead hh.table.head ht.head] at hb
    exact hh.heads b hb
  · intro b hb
    rcases hh.slabs b hb with hm | ⟨x, hx, hm⟩
    · exact Or.inr ⟨_, List.mem_cons_self, hm⟩
    · rcases List.mem_cons.mp hx with rfl | hx
      · exact Or.inl hm
      · exact Or.inr ⟨x, List.mem_cons_of_mem _ hx, hm⟩
  · rw [hhead]
    exact hh.keysize
  · intro hd
    rw [hhead] at hd
    rw [contents_swapped hne hk, hcont]
    exact hh.distinct hd

/-! ## The statistics -/

theorem mergeCounters_spec (hok : LockOk env) (hs : StatsFree w h) (hs' : StatsFree w a) (is : List CounterId) :
    ∀ b₀ : Book, wp env (mergeCounters h a is) (fun _ w' => ∃ b : Book, b.misuse = b₀.misuse ∧ w' = w.withBook b)
      (w.withBook b₀) := by
  induction is with
  | nil => exact fun b₀ => wp_ret.mpr ⟨b₀, rfl, rfl⟩
  | cons i is ih =>
    intro b₀
    unfold mergeCounters
    rw [wp_getCounter (by exact hs'.head), World.setStats_eq]
    refine wp_count hok ((hs.withBook _).withBook _) fun b hb => ?_
    apply wp_mono (ih b)
    rintro _ w' ⟨b', hb', rfl⟩
    exact ⟨b', hb'.trans hb.misuse, rfl⟩

theorem mergeAverages_spec (hok : LockOk env) (hs : StatsFree w h) (hs' : StatsFree w a) (is : List AverageId) :
    ∀ b₀ : Book, wp env (mergeAverages h a is) (fun _ w' => ∃ b : Book, b.misuse = b₀.misuse ∧ w' = w.withBook b)
      (w.withBook b₀) := by
  induction is with
  | nil => exact fun b₀ => wp_ret.mpr ⟨b₀, rfl, rfl⟩
  | cons i is ih =>
    intro b₀
    unfold mergeAverages
    rw [wp_getAverage (by exact hs'.head), World.setStats_eq]
    refine wp_update hok ((hs.withBook _).withBook _) fun b hb => ?_
    apply wp_mono (ih b)
    rintro _ w' ⟨b', hb', rfl⟩
    exact ⟨b', hb'.trans hb.misuse, rfl⟩

/-! ## Behind the swap -/

/-- The sweep of the old table keeps the invariant. -/
theorem Held.relocked (hh : Held c w h S₂ ((a, S.slabs) :: P)) (ht : Table c w a S) (hr : Relocked S w w') :
    Held c w' h S₂ ((a, S.slabs) :: P) ∧ Unchanged w w' h S₂ ∧ ∀ l, l.block = h → w'.locks l = w.locks l := by
  have hsame : ∀ b, b ∉ S.slabs → SameBlock w w' b := by
    intro b hb
    refine ⟨by rw [hr.heads], by rw [hr.slabs], fun i => by rw [hr.ents], fun l hl => hr.locks l ?_⟩
    rintro p hp rfl
    exact hb (hl ▸ hp.1)
  have hmem : ∀ b ∈ S.slabs, b ∈ blocksOf ((a, S.slabs) :: P) := fun b hb =>
    mem_blocksOf.mpr ⟨_, List.mem_cons_self, Or.inr hb⟩
  have hhn : h ∉ S.slabs := fun hm => hh.head_notMem.2 (hmem h hm)
  have hu : Unchanged w w' h S₂ :=
    .ofSame hh.table.head (hsame h hhn) fun b hb => hsame b fun hm => hh.slab_notMem hb (hmem b hm)
  have hheads : ∀ b, w'.head b = w.head b := fun b => by unfold World.head; rw [hr.heads]
  have hslab : ∀ b, w'.slab b = w.slab b := fun b => by unfold World.slab; rw [hr.slabs]
  have hta := hh.old.tables (a, S.slabs) List.mem_cons_self
  refine ⟨hh.rebase hu ⟨?_, ?_, fun l hl => ?_⟩ (hr.stats hh.table.stats) (le_of_eq hr.cells.symm) ?_ hh.nodup ?_ ?_, hu,
    (hsame h hhn).locks⟩
  · rw [hr.heads, hr.mallocs]
    exact hh.fresh.heads
  · rw [hr.slabs, hr.mallocs]
    exact hh.fresh.slabs
  · rw [hr.mallocs] at hl
    rw [hr.locks l ?_]
    · exact hh.fresh.locks l hl
    · rintro p hp rfl
      exact Nat.not_lt.mpr hl (hh.fresh.slab_lt (ht.hasSlab hp.1))
  · rw [hheads]
    refine ⟨hh.old.chain.congr fun b _ => by rw [hheads], fun x hx => ?_, hh.old.nodup⟩
    rcases List.mem_cons.mp hx with rfl | hx
    · refine ⟨hr.stats hta.stats, (hr.locks _ fun _ _ => by simp).trans hta.lock, ?_⟩
      rw [hheads]
      refine hta.slabs.congr (fun s _ => by rw [hr.slabs]) fun s hs j hm => ?_
      unfold Marked
      rw [hr.ents]
      by_cases hj : S.Has (s, j)
      · exact Or.inl (ht.entries.flagged.init _ hj)
      · rw [hr.locks (.entry (s, j)) ?_]
        · exact hm
        · rintro p hp he
          cases he
          exact hj hp
    · refine (hh.old.tables x (List.mem_cons_of_mem _ hx)).same fun b hb => hsame b fun hm => ?_
      have hbP : b ∈ blocksOf P := mem_blocksOf.mpr ⟨x, hx, List.mem_cons.mp hb⟩
      have hnd := (List.nodup_append.mp (show (a :: S.slabs ++ blocksOf P).Nodup from hh.old.nodup)).2.2
      exact hnd b (List.mem_cons_of_mem _ hm) b hbP rfl
  · intro b hb
    rw [World.hasHead, hr.heads] at hb
    exact hh.heads b hb
  · intro b hb
    rw [World.hasSlab, hr.slabs] at hb
    exact hh.slabs b hb

/-- The entries of the old tables can be destroyed. -/
def OldReady (env : Env) (w : World) (P : List (Addr × List Addr)) : Prop :=
  ∀ x ∈ P, ∀ s ∈ x.2, SlabDestroyable env w s ∧ SlabUnlocked w s

theorem OldReady.same (hr : OldReady env w P) (hs : ∀ b ∈ blocksOf P, SameBlock w w' b) : OldReady env w' P := by
  intro x hx s hm
  have hsame := hs s (mem_blocksOf.mpr ⟨x, hx, Or.inr hm⟩)
  exact ⟨(hr x hx s hm).1.same hsame, (hr x hx s hm).2.same hsame⟩

/-- A table without locked entries, before tables that can be destroyed. -/
theorem OldReady.cons (ht : Table c w a S) (hc : Clean w S) (hr : OldReady env w P) :
    OldReady env w ((a, S.slabs) :: P) := by
  intro x hx s hm
  rcases List.mem_cons.mp hx with rfl | hx
  · have hfree : SlabUnlocked w s := fun j hj => hc (s, j) ⟨hm, ht.entrycount hm ▸ hj⟩
    refine ⟨fun j _ hj => ⟨?_, Or.inr (hfree j (by omega))⟩, hfree⟩
    exact ht.entries.flagged.init (s, j) ⟨hm, by rw [← ht.entrycount hm]; omega⟩
  · exact hr x hx s hm

theorem AllFree.oldReady (hf : AllFree w) (hh : Held c w h S P) : OldReady env w P :=
  fun x hx _ hs => hf.destroyable (hh.old.tables x hx) hs

theorem endResize_spec (hok : LockOk env) {ss : List Addr} {sret : Int} (hh : Held c w h S₂ ((a, ss) :: P))
    (hlock : w.locks (.resize h) = .write) :
    wp env (endResize h a 0 0 sret) (fun r w' => r = (if sret = 0 then 0 else -1) ∧ ∃ P', Held c w' h S₂ P' ∧
      Unchanged w w' h S₂ ∧ (∀ l, l.block = h → l ≠ .resize h → w'.locks l = w.locks l) ∧ w'.locks (.resize h) = .free ∧
      (sret = 0 → OldReady env w ((a, ss) :: P) → P' = [] ∧ w'.book.misuse = w.book.misuse)) w := by
  -- the mutex is given back at the end
  have hend : ∀ (w' : World) (P' : List (Addr × List Addr)), Held c w' h S₂ P' → Unchanged w w' h S₂ →
      (∀ l, l.block = h → w'.locks l = w.locks l) →
      (sret = 0 → OldReady env w ((a, ss) :: P) → P' = [] ∧ w'.book.misuse = w.book.misuse) →
      wp env (do
        let ret ← unlock (.resize h)
        onFail ret (void (htCounterAdd h .errors 1))
        setErrno (if (0 : Int) ≠ 0 then 0 else if (0 : Int) ≠ 0 then 0 else if sret ≠ 0 then sret else ret)
        return if (0 : Int) ≠ 0 ∨ (0 : Int) ≠ 0 ∨ ret ≠ 0 then -2 else if sret ≠ 0 then -1 else 0)
        (fun r w' => r = (if sret = 0 then 0 else -1) ∧ ∃ P', Held c w' h S₂ P' ∧
          Unchanged w w' h S₂ ∧ (∀ l, l.block = h → l ≠ .resize h → w'.locks l = w.locks l) ∧ w'.locks (.resize h) = .free ∧
          (sret = 0 → OldReady env w ((a, ss) :: P) → P' = [] ∧ w'.book.misuse = w.book.misuse)) w' := by
    intro w' P' hP' hu hl hm
    refine wp_lock hok (by rw [hl _ rfl, hlock]; rfl) fun b hb => ?_
    rw [onFail_zero, wp_setErrno]
    have hcall : CallLock h (.resize h) := Or.inr (Or.inr rfl)
    refine wp_ret.mpr ⟨?_, P', ((hP'.setLock hcall _).withBook _).withBook _, ?_, fun l hb hne => ?_, ?_, fun h0 hd => ?_⟩
    · by_cases h0 : sret = 0 <;> simp [h0]
    · refine ((hu.trans (Unchanged.setLock hu.hasHead ?_ _)).withBook _).withBook _
      exact hh.head_notMem.1
    · simpa [hne] using hl l hb
    · simp [LockOp.after]
    · exact ⟨(hm h0 hd).1, hb.misuse.trans (hm h0 hd).2⟩
  unfold endResize
  by_cases h0 : sret = 0
  · subst h0
    rw [onFail_zero, if_pos ⟨rfl, rfl⟩]
    apply wp_spec (destroyOld_spec hok hh)
    rintro r w' ⟨hu, hl, ⟨P', hP', hnil⟩, hall⟩
    show wp env (if r = 0 then setOld h none >>= _ else void (htCounterAdd h .errors 1) >>= _) _ _
    by_cases hr : r = 0
    · rw [if_pos hr] at hP' ⊢
      rw [wp_setOld hu.hasHead]
      refine hend _ P' hP' (hu.trans (.setOld hh.head_notMem.1 none)) hl fun _ hd => ⟨hnil hr, (hall hd).2⟩
    · rw [if_neg hr] at hP' ⊢
      refine wp_count hok hP'.table.stats fun b hb => ?_
      exact hend _ P' (hP'.withBook b) (hu.withBook b) hl fun _ hd => absurd (hall hd).1 hr
  · rw [onFail, if_pos h0]
    refine wp_count hok hh.table.stats fun b hb => ?_
    rw [if_neg fun h => h0 h.2, Prog.pure_eq, Prog.ret_bind]
    show wp env (if (1 : Int) = 0 then setOld h none >>= _ else void (htCounterAdd h .errors 1) >>= _) _ _
    rw [if_neg (by decide)]
    refine wp_count hok (hh.withBook b).table.stats fun b' hb' => ?_
    exact hend _ _ ((hh.withBook b).withBook b') (((Unchanged.refl hh.table.head).withBook b).withBook b') (fun _ _ => rfl)
      fun h => absurd h h0

/-- What becomes of the table from the swap on. -/
structure Finished (c : Conf) (env : Env) (w : World) (h a : Addr) (S S₂ : Shape) (P : List (Addr × List Addr)) (r : Int)
    (w' : World) (P' : List (Addr × List Addr)) : Prop where
  held : Held c w' h S₂ P'
  idle : Idle w' h
  same : Unchanged w w' h S₂
  zero : AllZero env → r = 0
  swept : Clean w S → ¬S.Chained → r = 0 ∧
    (OldReady env w ((a, S.slabs) :: P) → P' = [] ∧ w'.book.misuse = w.book.misuse)
  misused : Clean w S → S.Chained → w.book.lockErrors < w'.book.lockErrors ∧ (Checked env → r ≠ 0)

theorem finishResize_spec (hok : LockOk env) (hh : Held c w h S₂ ((a, S.slabs) :: P)) (ht : Table c w a S)
    (hfree : w.locks (.free h) = .write) (htable : w.locks (.table h) = .read) (hresize : w.locks (.resize h) = .write) :
    wp env (finishResize h a) (fun r w' => ∃ P', Finished c env w h a S S₂ P r w' P') w := by
  have hcf : CallLock h (.free h) := Or.inr (Or.inl rfl)
  have hct : CallLock h (.table h) := Or.inl rfl
  have hne : h ≠ a := by
    rintro rfl
    exact hh.head_notMem.2 List.mem_cons_self
  unfold finishResize
  refine wp_lock hok (by rw [hfree]; rfl) fun b hb => ?_
  rw [onFail_zero]
  refine wp_lock hok (by simp [htable, LockOp.proper]) fun b' hb' => ?_
  rw [onFail_zero]
  simp only [World.withBook_setLock, World.withBook_withBook, LockOp.after]
  set w₁ := ((w.setLock (.free h) .free).setLock (.table h) .free).withBook b' with hw₁
  have hm₁ : w₁.book.misuse = w.book.misuse := hb'.misuse.trans hb.misuse
  have hh₁ : Held c w₁ h S₂ ((a, S.slabs) :: P) := ((hh.setLock hcf _).setLock hct _).withBook b'
  have hblocks : ∀ b, b ≠ h → SameBlock w w₁ b := fun b hb =>
    ((Only.setLock w (.free h) .free).same b hb).trans
      (((Only.setLock _ (.table h) .free).withBook b').same b hb)
  have hSn : ∀ s ∈ S.slabs, s ≠ h := by
    rintro s hs rfl
    exact hh.head_notMem.2 (mem_blocksOf.mpr ⟨_, List.mem_cons_self, Or.inr hs⟩)
  have ht₁ : Table c w₁ a S := ht.same (fun b hb => hblocks b (by
    rcases hb with rfl | hb
    · exact hne.symm
    · exact hSn b hb)) (Nat.le_refl _)
  have hcl : Clean w S → Clean w₁ S := fun hc p hp => by simpa [hw₁] using hc p hp
  have hu₁ : Unchanged w w₁ h S₂ :=
    ((Unchanged.setLock hh.table.head hh.head_notMem.1 _).trans
      (Unchanged.setLock (by exact hh.table.head) hh.head_notMem.1 _)).withBook b'
  have hready : OldReady env w ((a, S.slabs) :: P) → OldReady env w₁ ((a, S.slabs) :: P) := fun hr =>
    hr.same fun b hb => hblocks b fun e => hh.head_notMem.2 (e ▸ hb)
  have hta : w₁.locks (.table a) = .free := by
    have := (hh.old.tables (a, S.slabs) List.mem_cons_self).lock
    simpa [hw₁, Ne.symm hne] using this
  apply wp_spec (htSweep_spec hok ht₁ hta)
  rintro sret w₂ ⟨hr₂, hz, hclean, hmis⟩
  obtain ⟨hh₂, hu₂, hl₂⟩ := hh₁.relocked ht₁ hr₂
  refine wp_mono (wp_misuse (endResize_spec hok hh₂ ?_)) ?_
  · rw [hl₂ _ rfl]
    simpa [hw₁] using hresize
  rintro r w' ⟨⟨hr, P', hP', hu', hl', hres, hend⟩, hsuf⟩
  refine ⟨P', hP', ⟨?_, ?_, hres⟩, (hu₁.trans hu₂).trans hu', fun h => by rw [hr, if_pos (hz h)], fun hc hn => ?_, fun hc hch => ?_⟩
  · rw [hl' _ rfl (by simp), hl₂ _ rfl]
    simp [hw₁]
  · rw [hl' _ rfl (by simp), hl₂ _ rfl]
    simp [hw₁]
  · obtain ⟨h0, b₂, hb₂, rfl⟩ := hclean (hcl hc) hn
    refine ⟨by rw [hr, if_pos h0], fun hd => ?_⟩
    obtain ⟨h1, h2⟩ := hend h0 ((hready hd).same fun _ _ => ⟨rfl, rfl, fun _ => rfl, fun _ _ => rfl⟩)
    exact ⟨h1, h2.trans (hb₂.trans hm₁)⟩
  · obtain ⟨h1, h2⟩ := hmis (hcl hc) hch
    rw [lockErrors_congr hm₁] at h1
    refine ⟨Nat.lt_of_lt_of_le h1 hsuf.sublist.countP_le, fun hk => ?_⟩
    rw [hr, if_neg (h2 hk)]
    decide

/-! ## The whole call -/

/-- A table of `n` buckets can be built for the pairs of the table. -/
def Builds (c : Conf) (env : Env) (w : World) (h : Addr) (S : Shape) (n : Nat) : Prop :=
  n ≠ 0 ∧ ∀ k, k < 2 + slabsNeeded c n (contents c w h S) → env.malloc (w.mallocs + k) ≠ none

/-- `ht_resize` that could not build a new table. -/
structure ResizeKept (c : Conf) (env : Env) (w : World) (h : Addr) (S : Shape) (n : Nat) (r : Int) (w' : World)
    (P' : List (Addr × List Addr)) : Prop where
  builds : ¬Builds c env w h S n
  ret : r = -1
  held : Held c w' h S P'
  idle : Idle w' h
  same : Unchanged w w' h S
  quiet : AllFree w → AllFree w' ∧ w'.book.misuse = w.book.misuse

/-- `ht_resize` that did: `S'` is the new table. -/
structure ResizeDone (c : Conf) (env : Env) (w : World) (h : Addr) (S : Shape) (n : Nat) (r : Int) (w' : World) (S' : Shape)
    (P' : List (Addr × List Addr)) : Prop where
  builds : Builds c env w h S n
  held : Held c w' h S' P'
  idle : Idle w' h
  count : S'.count = n
  keysize : (w'.head h).keysize = (w.head h).keysize
  options : (w'.head h).options = (w.head h).options
  pairs : contents c w' h S' = contents c w h S
  clean : Clean w' S'
  zero : AllZero env → r = 0
  swept : Clean w S → ¬S.Chained → r = 0
  quiet : AllFree w → ¬S.Chained → AllFree w' ∧ w'.book.misuse = w.book.misuse
  misused : Clean w S → S.Chained → w.book.lockErrors < w'.book.lockErrors ∧ (Checked env → r ≠ 0)

/-- The head while `ht_resize` copies: the locks it holds, and the table as before. -/
structure Resizing (c : Conf) (w : World) (h : Addr) (S : Shape) (w' : World) (P' : List (Addr × List Addr)) : Prop where
  held : Held c w' h S P'
  same : Unchanged w w' h S
  table : w'.locks (.table h) = .read
  resize : w'.locks (.resize h) = .write
  free : w'.locks (.free h) = .free

theorem Resizing.next (hr : Resizing c w h S w₁ P) (hh : Held c w₂ h S P') (hu : Unchanged w₁ w₂ h S)
    (hl : ∀ l, l.block = h → w₂.locks l = w₁.locks l) : Resizing c w h S w₂ P' :=
  ⟨hh, hr.same.trans hu, (hl _ rfl).trans hr.table, (hl _ rfl).trans hr.resize, (hl _ rfl).trans hr.free⟩

theorem Resizing.withBook (hr : Resizing c w h S w₁ P) (b : Book) : Resizing c w h S (w₁.withBook b) P :=
  ⟨hr.held.withBook b, hr.same.withBook b, hr.table, hr.resize, hr.free⟩

/-- The end of a failed resize: both locks are given back. -/
theorem resizeFails_spec (hok : LockOk env) (hr : Resizing c w h S w₁ P') {n : Nat} (hb : ¬Builds c env w h S n)
    (hq : AllFree w → ∀ w', Held c w' h S P' → Idle w' h →
      (∀ b, b ≠ h → SameBlock w₁ w' b) → AllFree w' ∧ w₁.book.misuse = w.book.misuse) :
    wp env (do
      void (unlock (.table h))
      void (unlock (.resize h))
      return (-1 : Int)) (fun r w' => ∃ P', ResizeKept c env w h S n r w' P') w₁ := by
  have hct : CallLock h (.table h) := Or.inl rfl
  have hcr : CallLock h (.resize h) := Or.inr (Or.inr rfl)
  rw [wp_void]
  refine wp_lock hok (by rw [hr.table]; rfl) fun b hb₁ => ?_
  rw [wp_void]
  refine wp_lock hok (by simp [hr.resize, LockOp.proper]) fun b' hb₂ => ?_
  simp only [World.withBook_setLock, World.withBook_withBook, LockOp.after]
  have hheld := ((hr.held.setLock hct .free).setLock hcr .free).withBook b'
  have hidle : Idle (((w₁.setLock (.table h) .free).setLock (.resize h) .free).withBook b') h :=
    ⟨by simp, by simpa using hr.free, by simp⟩
  have hu := ((@Unchanged.setLock _ _ _ (.table h) hr.held.table.head hr.held.head_notMem.1 .free).trans
    (@Unchanged.setLock (w₁.setLock (.table h) .free) _ _ (.resize h) (by exact hr.held.table.head) hr.held.head_notMem.1 .free)).withBook b'
  refine wp_ret.mpr ⟨P', hb, rfl, hheld, hidle, hr.same.trans hu, fun hf => ?_⟩
  obtain ⟨h1, h2⟩ := hq hf _ hheld hidle fun b hb =>
    ((Only.setLock w₁ (.table h) .free).same b hb).trans (((Only.setLock _ (.resize h) .free).withBook b').same b hb)
  exact ⟨h1, hb₂.misuse.trans (hb₁.misuse.trans h2)⟩

/-- The writes of `ht->old` after the creation. -/
theorem World.linkNew_eq {n ks : Nat} {opts : Options} {old : Option Addr} (hlt : h < w.mallocs) :
    ((w.newTable n ks opts old none).setHead w.mallocs
        { (w.newTable n ks opts old none).head w.mallocs with old := (w.head h).old }).setHead h
        { w.head h with old := some w.mallocs } = w.linkNew h n ks opts := by
  refine World.ext ?_ rfl rfl rfl rfl rfl rfl rfl
  funext x
  by_cases h1 : x = h
  · simp [World.linkNew, h1]
  · by_cases h2 : x = w.mallocs
    · simp [World.linkNew, h2, Nat.ne_of_gt hlt]
    · simp [World.linkNew, h1, h2]

/-- The part of `ht_resize` behind the copy, when the copy succeeded. -/
theorem resizeBuilt_spec (hok : LockOk env) {n : Nat} {m : Addr} {abandon : Int → Code Int}
    (hr : Resizing c w h S w₁ ((m, S₂.slabs) :: P)) (ht : Table c w₁ m S₂) (hw : Table c w h S) (hcl : Clean w₁ S₂)
    (hk : (w₁.head m).keysize = (w.head h).keysize) (hcont : contents c w₁ m S₂ = contents c w h S)
    (hb : Builds c env w h S n) (hcount : S₂.count = n) (hmis : w₁.book.misuse = w.book.misuse)
    (hready : AllFree w → OldReady env w₁ P) :
    wp env (do
      let ret ← wrlock (.free h)
      if ret ≠ 0 then abandon ret
      else
        swapTables h m
        mergeCounters h m [.probes, .hits, .errors, .resizes, .inserts, .deletes]
        mergeAverages h m [.searches, .depth, .freechain]
        finishResize h m) (fun r w' => ∃ P', ResizeDone c env w h S n r w' S₂ P') w₁ := by
  have hcf : CallLock h (.free h) := Or.inr (Or.inl rfl)
  have hne : m ≠ h := by
    rintro rfl
    exact hr.held.head_notMem.2 List.mem_cons_self
  refine wp_lock hok (by rw [hr.free]; rfl) fun b hb₁ => ?_
  rw [if_neg (by simp)]
  set w₂ := (w₁.setLock (.free h) LockOp.wrlock.after).withBook b with hw₂
  have hh₂ : Held c w₂ h S ((m, S₂.slabs) :: P) := (hr.held.setLock hcf _).withBook b
  have hsame₂ : ∀ x, x ≠ h → SameBlock w₁ w₂ x := fun x hx => ((Only.setLock w₁ (.free h) _).withBook b).same x hx
  have hout : ∀ x ∈ blocksOf ((m, S₂.slabs) :: P), x ≠ h := fun x hx e => hr.held.head_notMem.2 (e ▸ hx)
  have ht₂ : Table c w₂ m S₂ := ht.same (fun x hx => hsame₂ x (hout x (by
    rcases hx with rfl | hx
    · exact List.mem_cons_self
    · exact mem_blocksOf.mpr ⟨_, List.mem_cons_self, Or.inr hx⟩))) (Nat.le_refl _)
  have hhead : w₁.head h = { w.head h with old := (w₁.head h).old } := hr.same.head_eq
  have hk₂ : (w₂.head m).keysize = (w₂.head h).keysize := by
    show (w₁.head m).keysize = (w₁.head h).keysize
    rw [hk, hhead]
  have hold : contents c w₂ h S = contents c w h S := (contents_congr rfl rfl).trans (hr.same.contents hw)
  have hcont₂ : contents c w₂ m S₂ = contents c w₂ h S := by
    rw [hold, ← hcont]
    exact contents_congr rfl rfl
  obtain ⟨hh₃, ht₃⟩ := hh₂.swap ht₂ hk₂ hcont₂
  rw [wp_swapTables hne hh₂.table.head ht₂.head]
  apply wp_spec (mergeCounters_spec (w := w₂.swapped h m) hok hh₃.table.stats ht₃.stats _ _)
  rintro _ _ ⟨b₁, hb₂, rfl⟩
  apply wp_spec (mergeAverages_spec hok hh₃.table.stats ht₃.stats _ _)
  rintro _ _ ⟨b₂, hb₃, rfl⟩
  set w₃ := (w₂.swapped h m).withBook b₂ with hw₃
  have hmis₃ : w₃.book.misuse = w.book.misuse := hb₃.trans (hb₂.trans (hb₁.misuse.trans hmis))
  have hlocks : ∀ l, l ≠ .free h → w₃.locks l = w₁.locks l := fun l hl => by
    show w₂.locks l = w₁.locks l
    simp [hw₂, hl]
  refine wp_mono (finishResize_spec hok (hh₃.withBook b₂) (ht₃.withBook b₂) ?_ ?_ ?_) ?_
  · show w₂.locks (.free h) = .write
    simp [hw₂, LockOp.after]
  · exact (hlocks _ (by simp)).trans hr.table
  · exact (hlocks _ (by simp)).trans hr.resize
  rintro r w' ⟨P', hf⟩
  have hhead₃ : w₃.head h = { w₁.head h with
      slabs := (w₁.head m).slabs, freechain := (w₁.head m).freechain, table := (w₁.head m).table } := by
    show (w₂.swapped h m).head h = _
    rw [World.swapped_head, if_neg hne.symm, if_pos rfl]
    rfl
  have hS₃ : Clean w S → Clean w₃ S := fun hc p hp => (hlocks _ (by simp)).trans (hr.same.clean hc p hp)
  have hcl' : Clean w' S₂ := hf.same.clean fun p hp => (hlocks _ (by simp)).trans (hcl p hp)
  refine ⟨P', hb, hf.held, hf.idle, hcount, ?_, ?_, ?_, hcl', hf.zero, fun hc hn => (hf.swept (hS₃ hc) hn).1,
    fun hfree hn => ?_, fun hc hch => ?_⟩
  · rw [hf.same.head_eq, hhead₃, hhead]
  · rw [hf.same.head_eq, hhead₃, hhead]
  · rw [hf.same.contents (hh₃.withBook b₂).table]
    apply (contents_congr rfl rfl : contents c w₃ h S₂ = contents c (w₂.swapped h m) h S₂).trans
    rw [contents_swapped hne hk₂, hcont₂, hold]
  · have hc := hS₃ (hfree.clean hw)
    have hP : OldReady env w₃ P := by
      refine (hready hfree).same fun x hx => ?_
      have hx' : x ∈ blocksOf ((m, S₂.slabs) :: P) := List.mem_append_right (m :: S₂.slabs) hx
      have hxm : x ≠ m := by
        rintro rfl
        have hnd := List.nodup_append.mp (show (x :: S₂.slabs ++ blocksOf P).Nodup from hr.held.old.nodup)
        exact hnd.2.2 x List.mem_cons_self x hx rfl
      apply (hsame₂ x (hout x hx')).trans
      exact ⟨by simp [hw₃, World.swapped, hxm, hout x hx'], rfl, fun _ => rfl, fun _ _ => rfl⟩
    obtain ⟨h1, h2⟩ := (hf.swept hc hn).2 (.cons (ht₃.withBook b₂) hc hP)
    subst h1
    exact ⟨hf.held.allFree hf.idle hcl', h2.trans hmis₃⟩
  · obtain ⟨h1, h2⟩ := hf.misused (hS₃ hc) hch
    rw [lockErrors_congr hmis₃] at h1
    exact ⟨h1, h2⟩

/-- The slabs that the copy could not have are among those needed. -/
theorem not_builds_of_short {n : Nat} {all : Multiset (List UInt8 × Nat)} (hall : all = contents c w h S) {m : Nat}
    (hm : m = w.mallocs + 2) (hs : ∃ k, k < slabsNeeded c n all ∧ env.malloc (m + k) = none) : ¬Builds c env w h S n := by
  rintro ⟨-, hb⟩
  obtain ⟨k, hk, hk'⟩ := hs
  subst hall hm
  apply hb (2 + k) (by omega)
  rw [← Nat.add_assoc]
  exact hk'

/-- The part of `ht_resize` behind the creation. -/
theorem resizeCopy_spec (hok : LockOk env) {n ks : Nat} {opts : Options} {m : Addr} {abandon : Int → Code Int} (hn : n ≠ 0)
    (hw : Held c w h S P) (hr : Resizing c w h S w₁ P) (hm : m = w₁.mallocs) (hmal : w₁.mallocs = w.mallocs)
    (hsame : ∀ b, b ≠ h → SameBlock w w₁ b) (hmis : w₁.book.misuse = w.book.misuse)
    (hks : intOfSize ks = (w.head h).keysize) (hopts : opts.dupsAllowed = (w.head h).options.dupsAllowed)
    (hgot : env.malloc w.mallocs ≠ none ∧ env.malloc (w.mallocs + 1) ≠ none) :
    wp env (do
      let t ← getTable h .entry
      let n ← getEntrycount t
      let ret ← copyTable (insertKeyNoResize c m) t n
      if ret ≠ 0 then
        abandonNew h m
        void (unlock (.table h))
        void (unlock (.resize h))
        return -1
      else
        let ret ← wrlock (.free h)
        if ret ≠ 0 then abandon ret
        else
          swapTables h m
          mergeCounters h m [.probes, .hits, .errors, .resizes, .inserts, .deletes]
          mergeAverages h m [.searches, .depth, .freechain]
          finishResize h m)
      (fun r w' => (∃ P', ResizeKept c env w h S n r w' P') ∨
        ∃ S' P', w.mallocs ≤ S'.table ∧ ResizeDone c env w h S n r w' S' P') (w₁.linkNew h n ks opts) := by
  have hlt := hr.held.head_lt
  subst hm
  obtain ⟨hT, hI, hC, h0⟩ := @World.linkNew_table c _ _ n ks opts hlt hn
  have hfresh := @World.linkNew_fresh _ _ n ks opts hr.held.fresh hlt
  set w₂ := w₁.linkNew h n ks opts with hw₂
  have hh₂ : Held c w₂ h S ((w₁.mallocs, (Shape.new (w₁.mallocs + 1) n).slabs) :: P) := hr.held.link hn
  have hr₂ : Resizing c w h S w₂ ((w₁.mallocs, (Shape.new (w₁.mallocs + 1) n).slabs) :: P) :=
    hr.next hh₂ (.linkNew hr.held) fun l hl => World.linkNew_locks (hl ▸ hlt)
  have hnew : w₂.head w₁.mallocs = _ := World.linkNew_head_new hlt
  have hmem : ∀ b ∈ S.slabs, b < w₂.mallocs ∧ ¬Blocks w₁.mallocs (Shape.new (w₁.mallocs + 1) n) b := by
    refine fun b hb => ⟨hh₂.slab_lt hb, fun hblk => hh₂.slab_notMem hb ?_⟩
    rcases hblk with rfl | hblk
    · exact List.mem_cons_self
    · exact mem_blocksOf.mpr ⟨_, List.mem_cons_self, Or.inr hblk⟩
  have hnewk : (w₂.head w₁.mallocs).keysize = (w.head h).keysize := by
    rw [← hks, hnew]
  have hheadk : (w₂.head h).keysize = (w.head h).keysize := by rw [hr₂.same.head_eq]
  have hk₂ : w₂.keyLen c w₁.mallocs = w₂.keyLen c h := by
    unfold World.keyLen
    rw [hnewk, hheadk]
  have hall : contents c w₂ h S = contents c w h S := hr₂.same.contents hw.table
  have hdist : (w₂.head w₁.mallocs).options.dupsAllowed = false → ((contents c w₂ h S).map Prod.fst).Nodup := by
    rw [hnew, hall]
    intro hd
    exact hw.distinct (hopts ▸ hd)
  have hcopy : Copying c env w₂ w₁.mallocs (w₁.mallocs + 1) n 0 w₂ (Shape.new (w₁.mallocs + 1) n) :=
    ⟨After.refl hfresh hT hI, hC, rfl, h0, Nat.pos_of_ne_zero hn, rfl, fun k h1 h2 => absurd h2 (Nat.not_lt.mpr h1)⟩
  rw [wp_getTable hh₂.table.head hh₂.table.table, wp_getEntrycount hh₂.table.hasTable, hh₂.table.entrycount hh₂.table.ok.tableMem]
  have hsum : (0 : Multiset (List UInt8 × Nat)) + ∑ j ∈ Finset.range S.count,
      (bucketPairs (c.keyBytes (w₂.keyLen c h)) w₂.ents S j : Multiset _) = contents c w₂ h S := by
    rw [Multiset.zero_add]
    rfl
  have hspec := @copyTable_spec _ _ _ _ _ _ _ _ (contents c w₂ h S) hok hh₂.table hmem hk₂ hdist S.count w₂ _ 0 (Nat.le_refl _) hcopy
    (le_of_eq hsum)
  rw [hsum] at hspec
  -- the tables behind the new one are those of before
  have hP : ∀ {w₃ : World}, (∀ b ∈ blocksOf P, SameBlock w₂ w₃ b) → ∀ b ∈ blocksOf P, SameBlock w w₃ b := by
    intro w₃ hs b hb
    have hne : b ≠ h := fun e => hw.head_notMem.2 (e ▸ hb)
    exact ((hsame b hne).trans (World.linkNew_same (hr.held.old_lt hb) hne)).trans (hs b hb)
  have hmal₂ : w₂.mallocs = w.mallocs + 2 := congrArg (· + 2) hmal
  apply wp_spec hspec
  rintro r w₃ (⟨rfl, S₃, hc⟩ | ⟨hr0, S₃, hf⟩)
  · rw [if_neg (by simp)]
    obtain ⟨hh₃, hu₃, hl₃, hs₃⟩ := hh₂.afterNew hc.after
    have hb : Builds c env w h S n := by
      refine ⟨hn, fun k hk => ?_⟩
      have hneed := hc.needed
      rw [hall] at hneed
      by_cases h2 : k < 2
      · rcases (by omega : k = 0 ∨ k = 1) with rfl | rfl
        · exact hgot.1
        · exact hgot.2
      · exact hc.got _ (by omega) (by omega)
    refine wp_mono (resizeBuilt_spec hok (hr₂.next hh₃ hu₃ hl₃) hc.after.table hw.table hc.clean ?_ (hc.pairs.trans hall) hb
      hc.count (hc.misuse.trans hmis) fun hfree => (hfree.oldReady hw).same (hP hs₃)) fun r w' ⟨P', hd⟩ => ?_
    · rw [hc.after.keysize, hnewk]
    · refine Or.inr ⟨S₃, P', ?_, hd⟩
      have htab : S₃.table = w₁.mallocs + 1 := hc.after.sameTable
      rw [htab, hmal]
      exact Nat.le_succ _
  · rw [if_pos hr0]
    obtain ⟨hh₃, hu₃, hl₃, hs₃⟩ := hh₂.afterNew hf.after
    apply wp_spec (abandonNew_spec hok hh₃)
    rintro _ w₄ ⟨hu₄, hl₄, P', hP', hquiet⟩
    have hr₄ := (hr₂.next hh₃ hu₃ hl₃).next hP' hu₄ hl₄
    refine wp_mono (resizeFails_spec hok hr₄ (not_builds_of_short hall hmal₂ hf.short) fun hfree w' hh' hi' hs' => ?_)
      fun r w' hd => Or.inl hd
    obtain ⟨h1, h2⟩ := hquiet (OldReady.cons hf.after.table hf.clean ((hfree.oldReady hw).same (hP hs₃)))
    subst h1
    refine ⟨hh'.allFree hi' fun p hp => ?_, h2.trans (hf.misuse.trans hmis)⟩
    have hne : p.1 ≠ h := fun e => hw.head_notMem.1 (e ▸ hp.1)
    rw [(hs' p.1 hne).locks (.entry p) rfl]
    exact hr₄.same.clean (hfree.clean hw.table) p hp

/-- The outcomes of `ht_resize`; a new table lies in a new slab. -/
theorem htResize_fresh (hok : LockOk env) (hnull : NullFill env) (hw : Held c w h S P) (hi : Idle w h) (n : Nat) :
    wp env (htResize c h n)
      (fun r w' => (∃ P', ResizeKept c env w h S n r w' P') ∨
        ∃ S' P', w.mallocs ≤ S'.table ∧ ResizeDone c env w h S n r w' S' P') w := by
  have hct : CallLock h (.table h) := Or.inl rfl
  have hcr : CallLock h (.resize h) := Or.inr (Or.inr rfl)
  unfold htResize resizeWith
  refine wp_lock hok (by rw [hi.resize]; rfl) fun b hb => ?_
  rw [wp_setErrno, if_neg (by simp)]
  refine wp_lock hok (by simp [hi.table, LockOp.proper]) fun b' hb' => ?_
  rw [wp_setErrno, if_neg (by simp)]
  simp only [World.withBook_setLock, World.withBook_withBook, LockOp.after, World.withBook_book]
  set w₁ := ((w.setLock (.resize h) .write).setLock (.table h) .read).withBook { b' with errno := 0 } with hw₁
  have hmis : w₁.book.misuse = w.book.misuse := hb'.misuse.trans hb.misuse
  have hh₁ : Held c w₁ h S P := ((hw.setLock hcr _).setLock hct _).withBook _
  have hu₁ : Unchanged w w₁ h S :=
    ((Unchanged.setLock hw.table.head hw.head_notMem.1 _).trans
      (Unchanged.setLock (by exact hw.table.head) hw.head_notMem.1 _)).withBook _
  have hr₁ : Resizing c w h S w₁ P := ⟨hh₁, hu₁, by simp [hw₁], by simp [hw₁], by simpa [hw₁] using hi.free⟩
  have hsame : ∀ x, x ≠ h → SameBlock w w₁ x := fun x hx =>
    ((Only.setLock w (.resize h) .write).same x hx).trans (((Only.setLock _ (.table h) .read).withBook _).same x hx)
  rw [wp_getKeysize hh₁.table.head, wp_getOptions hh₁.table.head]
  apply wp_spec (htCreate_spec hok hh₁.fresh n _ _)
  rintro r w₂ (⟨rfl, hf, hcase⟩ | ⟨f, g, b₂, hn, hf, hg, rfl, hb₂, rfl⟩)
  · -- nothing was created
    have hs₂ : ∀ x, x < w₁.mallocs → SameBlock w₁ w₂ x := fun x hx =>
      ⟨by rw [hf.heads], by rw [hf.slabs], fun i => by rw [hf.ents], fun l hl => hf.locks l (hl ▸ hx)⟩
    have hu₂ : Unchanged w₁ w₂ h S := .ofSame hh₁.table.head (hs₂ h hh₁.head_lt) fun x hx => hs₂ x (hh₁.slab_lt hx)
    have hh₂ : Held c w₂ h S P := by
      refine hh₁.rebase hu₂ hf.fresh (hh₁.table.stats.congr hu₂.hasHead (hs₂ h hh₁.head_lt).locks) (le_of_eq hf.cells.symm)
        ?_ hh₁.nodup (fun x hx => hh₁.heads x ?_) fun x hx => hh₁.slabs x ?_
      · rw [(hs₂ h hh₁.head_lt).head]
        exact hh₁.old.same fun x hx => hs₂ x (hh₁.old_lt hx)
      · rw [World.hasHead, hf.heads] at hx
        exact hx
      · rw [World.hasSlab, hf.slabs] at hx
        exact hx
    have hr₂ : Resizing c w h S w₂ P := hr₁.next hh₂ hu₂ (hs₂ h hh₁.head_lt).locks
    have hb : ¬Builds c env w h S n := by
      rintro ⟨hn, hall⟩
      rcases hcase with h | h | h
      · exact hn h
      · exact hall 0 (by omega) h
      · exact hall 1 (by omega) h
    show wp env (void (htCounterAdd h .errors 1) >>= _) _ _
    refine wp_count hok hh₂.table.stats fun b₃ hb₃ => ?_
    refine wp_mono (resizeFails_spec hok (hr₂.withBook b₃) hb fun hfree w' hh' hi' hs' => ?_) fun r w' hd => Or.inl hd
    refine ⟨Held.allFree_same hfree hh' hi' fun x hx => ?_, hb₃.misuse.trans (hf.misuse.trans hmis)⟩
    have hne : x ≠ h := by
      rintro rfl
      exact hx.elim hw.head_notMem.1 hw.head_notMem.2
    have hlt : x < w₁.mallocs := hx.elim hh₁.slab_lt hh₁.old_lt
    have hbook : SameBlock w₂ (w₂.withBook b₃) x := ⟨rfl, rfl, fun _ => rfl, fun _ _ => rfl⟩
    exact (((hsame x hne).trans (hs₂ x hlt)).trans hbook).trans (hs' x hne)
  · -- the new table is put on `ht->old`
    have hlt : h < w₁.mallocs := hh₁.head_lt
    have hne : h ≠ w₁.mallocs := Nat.ne_of_lt hlt
    rw [(hnull _ g hg).2]
    set ks := c.sizeOfInt (w₁.head h).keysize with hks
    set opts : Options := { (w₁.head h).options with resizeImplicit := false } with hopts
    have hhead : ((w₁.newTable n ks opts f.head.old none).withBook b₂).head h = w₁.head h := by simp [hne]
    show wp env (getOld h >>= _) _ _
    rw [wp_getOld (by rw [World.withBook_hasHead, newTable_hasHead, hh₁.table.head, Bool.or_true]), hhead,
      wp_setOld (by rw [World.withBook_hasHead, newTable_hasHead]; simp), wp_setOld (by simp [newTable_hasHead, hh₁.table.head]),
      World.setHead_head, if_neg hne, hhead, World.withBook_setHead, World.withBook_setHead, World.withBook_head,
      World.linkNew_eq hlt, ← World.linkNew_withBook]
    have hkeep : (w₁.head h).keysize = (w.head h).keysize := rfl
    have hgot : env.malloc w.mallocs ≠ none ∧ env.malloc (w.mallocs + 1) ≠ none := by
      constructor
      · exact fun h => Option.some_ne_none f (hf.symm.trans h)
      · exact fun h => Option.some_ne_none g (hg.symm.trans h)
    refine @resizeCopy_spec _ _ _ (w₁.withBook b₂) _ _ _ hok _ _ _ _ _ hn hw (hr₁.withBook b₂) rfl rfl
      (fun x hx => (hsame x hx).trans ⟨rfl, rfl, fun _ => rfl, fun _ _ => rfl⟩) (hb₂.trans hmis) ?_ rfl hgot
    rw [hks, hkeep]
    exact hw.keysize

theorem htResize_spec (hok : LockOk env) (hnull : NullFill env) (hw : Held c w h S P) (hi : Idle w h) (n : Nat) :
    wp env (htResize c h n)
      (fun r w' => (∃ P', ResizeKept c env w h S n r w' P') ∨ ∃ S' P', ResizeDone c env w h S n r w' S' P') w :=
  wp_mono (htResize_fresh hok hnull hw hi n) fun _ _ hd => hd.imp id fun ⟨S', P', _, hd⟩ => ⟨S', P', hd⟩

end ZfsTest.Hashtable
