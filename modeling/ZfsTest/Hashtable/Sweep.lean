import ZfsTest.Hashtable.Destroy

/-!
# Sweeping

`ht_sweep` locks and unlocks every bucket head of the old table. For a chained entry it takes the entry's lock and gives
back the head's, which it does not hold: `htSweep_spec` says that this is a misuse whenever some bucket has a chain, and
that the sweep changes nothing and returns `0` when none has and no entry was locked.
-/

namespace ZfsTest.Hashtable

open Prog

variable {c : Conf} {env : Env} {w w' w₁ w₂ : World} {h : Addr} {S : Shape}

/-! ## Misuse is never forgotten -/

theorem step_misuse {o : Op} {r : o.Res} (hs : step env o w = some (r, w')) : w.book.misuse <:+ w'.book.misuse := by
  cases o with
  | lock o l =>
    cases hs
    have hm : w.book.misuse <:+ (w.book.lockCall o l (w.locks l)).misuse := by
      unfold Book.lockCall
      by_cases hp : o.proper (w.locks l) = true
      · simp [hp]
      · simp [hp]
    by_cases hr : env.lockRet w.book.lockCalls o l (w.locks l) = 0
    · simpa [hr] using hm
    · simpa [hr] using hm
  | mallocHead =>
    simp only [step] at hs
    split at hs <;> cases hs <;> exact List.suffix_rfl
  | mallocSlab n =>
    simp only [step] at hs
    split at hs <;> cases hs <;> exact List.suffix_rfl
  | fault => cases hs
  | getErrno => cases hs; exact List.suffix_rfl
  | setErrno e => cases hs; exact List.suffix_rfl
  | bound => cases hs; exact List.suffix_rfl
  | stat a o =>
    simp only [step, onHead, Option.map_eq_some_iff] at hs
    obtain ⟨x, -, hx⟩ := hs
    cases hx
    exact List.suffix_rfl
  | _ =>
    first
    | simp only [step, onHead, Option.map_eq_some_iff] at hs
      obtain ⟨x, -, hx⟩ := hs
      cases hx
      exact List.suffix_rfl
    | simp only [step, onSlab, Option.map_eq_some_iff] at hs
      obtain ⟨x, -, hx⟩ := hs
      cases hx
      exact List.suffix_rfl
    | simp only [step, onEnt] at hs
      split at hs
      · cases hs
        exact List.suffix_rfl
      · cases hs

theorem lockErrors_congr {b b' : Book} (hb : b'.misuse = b.misuse) : b'.lockErrors = b.lockErrors := by
  unfold Book.lockErrors
  rw [hb]

/-- What was noted stays noted. -/
theorem exec_misuse {α : Type} (p : Code α) : ∀ {w : World} {a : α} {w' : World}, p.exec (step env) w = some (a, w') →
    w.book.misuse <:+ w'.book.misuse := by
  induction p with
  | ret a =>
    intro w a w' he
    cases he
    exact List.suffix_rfl
  | op o k ih =>
    intro w a w' he
    rw [Prog.exec_op, Option.bind_eq_some_iff] at he
    obtain ⟨⟨r, w₁⟩, h1, h2⟩ := he
    exact (step_misuse h1).trans (ih r h2)

theorem wp_misuse {α : Type} {p : Code α} {Q : α → World → Prop} (hp : wp env p Q w) :
    wp env p (fun a w' => Q a w' ∧ w.book.misuse <:+ w'.book.misuse) w := by
  obtain ⟨a, w', he, hq⟩ := hp
  exact ⟨a, w', he, hq, exec_misuse p he⟩

/-! ## Entry locks -/

/-- Only locks of entries of the table, statistics and `errno` have changed. -/
structure Relocked (S : Shape) (w w' : World) : Prop where
  same : w' = { w with locks := w'.locks, book := w'.book }
  locks : ∀ l, (∀ p, S.Has p → l ≠ .entry p) → w'.locks l = w.locks l

namespace Relocked

theorem refl (S : Shape) (w : World) : Relocked S w w := ⟨rfl, fun _ _ => rfl⟩

theorem trans (hr : Relocked S w w₁) (hr' : Relocked S w₁ w₂) : Relocked S w w₂ := by
  refine ⟨?_, fun l hl => (hr'.locks l hl).trans (hr.locks l hl)⟩
  rw [hr'.same, hr.same]

theorem withBook (hr : Relocked S w w') (b : Book) : Relocked S w (w'.withBook b) := by
  refine ⟨?_, hr.locks⟩
  rw [hr.same]
  rfl

theorem setLock (hr : Relocked S w w') {p : EntryPtr} (hp : S.Has p) (st : LockState) :
    Relocked S w (w'.setLock (.entry p) st) := by
  refine ⟨?_, fun l hl => ?_⟩
  · rw [hr.same]
    rfl
  · simpa [hl p hp] using hr.locks l hl

variable (hr : Relocked S w w')
include hr

theorem ents : w'.ents = w.ents := by rw [hr.same]

theorem heads : w'.heads = w.heads := by rw [hr.same]

theorem slabs : w'.slabs = w.slabs := by rw [hr.same]

theorem mallocs : w'.mallocs = w.mallocs := by rw [hr.same]

theorem cells : w'.cells = w.cells := by rw [hr.same]

theorem valid (p : EntryPtr) : w'.valid p = w.valid p := by
  unfold World.valid
  rw [hr.slabs]

theorem stats (hs : StatsFree w h) : StatsFree w' h := by
  refine ⟨?_, fun i => ?_, fun i => ?_⟩
  · rw [World.hasHead, hr.heads]
    exact hs.head
  · exact (hr.locks _ fun p _ => by simp).trans (hs.counter i)
  · exact (hr.locks _ fun p _ => by simp).trans (hs.average i)

end Relocked

/-! ## Chains -/

/-- A failed lock call is counted and its result returned. -/
theorem wp_reportFail (hok : LockOk env) (hs : StatsFree w h) {ret : Int} {Q : Int → World → Prop}
    (hq : ∀ b : Book, b.misuse = w.book.misuse → Q ret (w.withBook b)) :
    wp env (do void (htCounterAdd h .errors 1); return ret) Q w :=
  wp_count hok hs fun b hb => wp_ret.mpr (hq b hb.misuse)

/-- A lock call on an entry, whatever its outcome: the call goes on with `k`, or is reported. -/
theorem wp_entryLock (hok : LockOk env) (hs : StatsFree w h) {o : LockOp} {p : EntryPtr} (hp : S.Has p)
    {k : Code Int} {Q : Int → World → Prop}
    (hfail : ∀ r w', r ≠ 0 → ¬AllZero env → Relocked S w w' → Q r w')
    (hk : ∀ w', Relocked S w w' → wp env k Q w') :
    wp env (do
      let ret ← lockCall o (.entry p)
      if ret ≠ 0 then
        void (htCounterAdd h .errors 1)
        return ret
      else k) Q w := by
  rw [wp_lockCall_any rfl]
  set r := env.lockRet w.book.lockCalls o (.entry p) (w.locks (.entry p)) with hr
  by_cases h0 : r = 0
  · rw [if_neg (by simpa using h0), if_pos h0]
    exact hk _ (((Relocked.refl S w).setLock hp _).withBook _)
  · rw [if_pos h0, if_neg h0]
    refine wp_reportFail hok (hs.withBook _) fun b _ => ?_
    refine hfail r _ h0 (fun hz => h0 ?_) (((Relocked.refl S w).withBook _).withBook b)
    rw [hr]
    exact hz _ _ _ _

theorem htSweepChain_spec (hok : LockOk env) {hte : EntryPtr} (hhte : S.Has hte) (l : List EntryPtr) :
    ∀ (fuel : Nat) (chte : EntryPtr) (w : World), l.length < fuel → StatsFree w h → w.valid hte = true →
    (w.ents hte).flags.lockInitialized = true → w.valid chte = true → (∀ p ∈ l, S.Has p ∧ w.valid p = true) →
    Chain (nextOf w.ents) (w.ents chte).next l →
    wp env (htSweepChain h hte fuel chte) (fun r w' => Relocked S w w' ∧ (AllZero env → r = 0)) w := by
  induction l with
  | nil =>
    intro fuel chte w hfuel _ _ _ hc _ hl
    obtain ⟨fuel, rfl⟩ : ∃ n, fuel = n + 1 := ⟨fuel - 1, by simp at hfuel; omega⟩
    unfold htSweepChain
    rw [wp_getNext hc, chain_nil.mp hl]
    exact wp_ret.mpr ⟨Relocked.refl S w, fun _ => rfl⟩
  | cons p l ih =>
    intro fuel chte w hfuel hs hv hinit hc hall hl
    obtain ⟨fuel, rfl⟩ : ∃ n, fuel = n + 1 := ⟨fuel - 1, by simp at hfuel; omega⟩
    obtain ⟨hn, hl⟩ := hl
    obtain ⟨hp, hvp⟩ := hall p List.mem_cons_self
    unfold htSweepChain
    rw [wp_getNext hc, hn]
    show wp env (getFlags hte >>= _) _ _
    rw [wp_getFlags hv, hinit]
    refine wp_entryLock hok hs hp (fun r w' _ hz hr => ⟨hr, fun h => absurd h hz⟩) fun w₁ hr₁ => ?_
    rw [wp_getFlags (by rw [hr₁.valid]; exact hv), hr₁.ents, hinit]
    refine wp_entryLock hok (hr₁.stats hs) hhte (fun r w' _ hz hr => ⟨hr₁.trans hr, fun h => absurd h hz⟩) fun w₂ hr₂ => ?_
    have hr := hr₁.trans hr₂
    refine wp_mono (ih fuel p w₂ (by simpa using hfuel) (hr.stats hs) (by rw [hr.valid]; exact hv)
      (by rw [hr.ents]; exact hinit) (by rw [hr.valid]; exact hvp) (fun q hq => ?_) (by rw [hr.ents]; exact hl)) ?_
    · rw [hr.valid]
      exact hall q (List.mem_cons_of_mem _ hq)
    · rintro r w' ⟨hr', hz⟩
      exact ⟨hr.trans hr', hz⟩

/-- The lock of the first chained entry is taken, and the head's, which is free, given back. -/
theorem htSweepChain_misuse (hok : LockOk env) {hte chte p : EntryPtr} (hhte : S.Has hte) {l : List EntryPtr} {fuel : Nat}
    (hfuel : (p :: l).length < fuel) (hs : StatsFree w h) (hv : w.valid hte = true)
    (hinit : (w.ents hte).flags.lockInitialized = true) (hc : w.valid chte = true)
    (hall : ∀ q ∈ p :: l, S.Has q ∧ w.valid q = true) (hl : Chain (nextOf w.ents) (w.ents chte).next (p :: l))
    (hne : p ≠ hte) (hfree : w.locks (.entry hte) = .free) (hpfree : w.locks (.entry p) = .free) :
    wp env (htSweepChain h hte fuel chte)
      (fun r w' => w.book.lockErrors < w'.book.lockErrors ∧ (Checked env → r ≠ 0)) w := by
  obtain ⟨fuel, rfl⟩ : ∃ n, fuel = n + 1 := ⟨fuel - 1, by simp at hfuel; omega⟩
  obtain ⟨hn, hl⟩ := hl
  obtain ⟨hp, hvp⟩ := hall p List.mem_cons_self
  unfold htSweepChain
  rw [wp_getNext hc, hn]
  show wp env (getFlags hte >>= _) _ _
  rw [wp_getFlags hv, hinit]
  refine wp_lock hok (by rw [hpfree]; rfl) fun b hb => ?_
  rw [if_neg (by simp), wp_getFlags (by exact hv)]
  simp only [World.withBook_ents, World.setLock_ents, hinit, guarded, ↓reduceIte, unlock]
  have hlock : ((w.setLock (.entry p) .write).withBook b).locks (.entry hte) = .free := by
    simpa [Ne.symm hne] using hfree
  rw [wp_lockCall_any rfl, show LockOp.wrlock.after = .write from rfl, hlock]
  -- the misuse is noted here, whatever the call returns
  set r := env.lockRet ((w.setLock (.entry p) .write).withBook b).book.lockCalls .unlock (.entry hte) .free with hr
  have hmis : (b.lockCall .unlock (.entry hte) .free).misuse = (.unlock, .entry hte) :: w.book.misuse := by
    simp [Book.lockCall, LockOp.proper, hb.misuse]
  have hgrow : ∀ b' : Book, (LockOp.unlock, LockId.entry hte) :: w.book.misuse <:+ b'.misuse →
      w.book.lockErrors < b'.lockErrors := by
    intro b' hm
    have hle := hm.sublist.countP_le (p := fun x => x.1.locks)
    rw [List.countP_cons_of_pos (by rfl)] at hle
    exact hle
  have hchk : Checked env → r ≠ 0 := by
    intro h h0
    cases (h _ _ _ _).mp h0
  by_cases h0 : r = 0
  · rw [if_neg (by simpa using h0), if_pos h0]
    have hr₁ : Relocked S w (((w.setLock (.entry p) .write).withBook b).setLock (.entry hte) .free) :=
      (((Relocked.refl S w).setLock hp _).withBook b).setLock hhte _
    have hr₂ := hr₁.withBook (b.lockCall .unlock (.entry hte) .free)
    refine wp_mono (wp_misuse (htSweepChain_spec hok hhte l fuel p _ (by simpa using hfuel) (hr₂.stats hs) (by exact hv)
      hinit hvp (fun q hq => hall q (List.mem_cons_of_mem _ hq)) hl)) ?_
    rintro r' w' ⟨-, hm⟩
    refine ⟨hgrow _ ?_, fun h => absurd h0 (hchk h)⟩
    rw [← hmis]
    exact hm
  · rw [if_pos h0, if_neg h0]
    refine wp_reportFail hok (((hs.setLock (Or.inr ⟨p, rfl⟩) _).withBook _).withBook _) fun b' hb' => ⟨hgrow _ ?_, hchk⟩
    show _ <:+ b'.misuse
    rw [hb']
    exact hmis ▸ List.suffix_rfl

/-! ## The table -/

/-- The sweep from bucket `i` on. -/
theorem htSweepTable_spec (hok : LockOk env) (ht : Table c w h S) (n : Nat) : ∀ (i : Nat) (w' : World), i + n = S.count →
    Relocked S w w' →
    wp env (htSweepTable h S.table i n) (fun r w'' => Relocked S w w'' ∧ (AllZero env → r = 0)) w' := by
  induction n with
  | zero =>
    intro i w' _ hr
    exact wp_ret.mpr ⟨hr, fun _ => rfl⟩
  | succ n ih =>
    intro i w' hi hr
    have hlt : i < S.count := by omega
    have hhas := ht.ok.head_has hlt
    have hv := ht.validHead hlt
    have hinit := ht.entries.flagged.init _ hhas
    unfold htSweepTable
    rw [wp_getFlags (by rw [hr.valid]; exact hv), hr.ents, hinit]
    refine wp_entryLock hok (hr.stats ht.stats) hhas (fun r w₁ _ hz hr₁ => ⟨hr.trans hr₁, fun h => absurd h hz⟩)
      fun w₁ hr₁ => ?_
    have hr₁ := hr.trans hr₁
    rw [wp_getFlags (by rw [hr₁.valid]; exact hv), hr₁.ents, hinit]
    refine wp_entryLock hok (hr₁.stats ht.stats) hhas (fun r w₂ _ hz hr₂ => ⟨hr₁.trans hr₂, fun h => absurd h hz⟩)
      fun w₂ hr₂ => ?_
    have hr₂ := hr₁.trans hr₂
    rw [wp_bound, hr₂.cells, hr₂.mallocs]
    have hfuel := ht.fuel hlt
    refine wp_spec (htSweepChain_spec hok hhas (S.chain i) _ (S.head i) w₂ (by omega) (hr₂.stats ht.stats)
      (by rw [hr₂.valid]; exact hv) (by rw [hr₂.ents]; exact hinit) (by rw [hr₂.valid]; exact hv) (fun p hp => ?_)
      (by rw [hr₂.ents]; exact ht.entries.linked.chain i hlt)) ?_
    · have hp' := ht.ok.chain_has hlt hp
      exact ⟨hp', (hr₂.valid p).trans (ht.valid hp')⟩
    · rintro r w₃ ⟨hr₃, hz⟩
      by_cases h0 : r = 0
      · rw [if_neg (by simpa using h0)]
        exact ih (i + 1) w₃ (by omega) (hr₂.trans hr₃)
      · rw [if_pos h0]
        exact wp_ret.mpr ⟨hr₂.trans hr₃, hz⟩

/-- The sweep from bucket `i` on when no entry is locked: it changes nothing, or meets a chain. -/
theorem htSweepTable_clean (hok : LockOk env) (n : Nat) : ∀ (i : Nat) (w : World), i + n = S.count → Table c w h S →
    Clean w S →
    wp env (htSweepTable h S.table i n) (fun r w' =>
      if ∀ j, i ≤ j → j < S.count → S.chain j = [] then r = 0 ∧ ∃ b : Book, b.misuse = w.book.misuse ∧ w' = w.withBook b
      else w.book.lockErrors < w'.book.lockErrors ∧ (Checked env → r ≠ 0)) w := by
  induction n with
  | zero =>
    intro i w hi _ _
    apply wp_ret.mpr
    rw [if_pos fun j h1 h2 => by omega]
    exact ⟨rfl, w.book, rfl, rfl⟩
  | succ n ih =>
    intro i w hi ht hcl
    have hlt : i < S.count := by omega
    have hhas := ht.ok.head_has hlt
    have hv := ht.validHead hlt
    have hinit := ht.entries.flagged.init _ hhas
    unfold htSweepTable
    rw [wp_getFlags hv, hinit]
    refine wp_lock hok (by rw [hcl _ hhas]; rfl) fun b hb => ?_
    rw [if_neg (by simp), wp_getFlags (by exact hv)]
    simp only [World.withBook_ents, World.setLock_ents, hinit, guarded, ↓reduceIte, unlock]
    refine wp_lock hok (by simp [LockOp.proper, LockOp.after]) fun b' hb' => ?_
    rw [if_neg (by simp), World.withBook_setLock, World.withBook_withBook,
      show LockOp.unlock.after = .free from rfl, World.setLock_setLock_free (hcl _ hhas), wp_bound]
    have hm : b'.misuse = w.book.misuse := hb'.misuse.trans hb.misuse
    have hfuel := ht.fuel hlt
    cases hch : S.chain i with
    | nil =>
      have hnext : (w.ents (S.head i)).next = none := by
        have := ht.entries.linked.chain i hlt
        rwa [hch] at this
      have hiff : (∀ j, i ≤ j → j < S.count → S.chain j = []) ↔ ∀ j, i + 1 ≤ j → j < S.count → S.chain j = [] := by
        refine ⟨fun h j h1 h2 => h j (by omega) h2, fun h j h1 h2 => ?_⟩
        rcases Nat.eq_or_lt_of_le h1 with rfl | h3
        · exact hch
        · exact h j h3 h2
      unfold htSweepChain
      rw [Prog.bind_assoc, wp_getNext (by exact hv)]
      simp only [World.withBook_ents, hnext, Prog.pure_eq, Prog.ret_bind]
      rw [if_neg (by simp)]
      apply wp_mono (ih (i + 1) _ (by omega) (ht.withBook b') hcl)
      intro r w' hpost
      rw [if_congr hiff rfl rfl]
      split at hpost
      · rename_i hall
        obtain ⟨hr, b₂, hb₂, rfl⟩ := hpost
        rw [if_pos hall]
        exact ⟨hr, b₂, hb₂.trans hm, rfl⟩
      · rename_i hall
        rw [if_neg hall, ← lockErrors_congr hm]
        exact hpost
    | cons p l =>
      have hsome : ¬∀ j, i ≤ j → j < S.count → S.chain j = [] := by
        intro h
        have := h i (Nat.le_refl i) hlt
        rw [hch] at this
        cases this
      have hmem : ∀ q ∈ p :: l, S.Has q ∧ w.valid q = true := fun q hq => by
        have hq' := ht.ok.chain_has hlt (hch ▸ hq)
        exact ⟨hq', ht.valid hq'⟩
      have hp : p ∈ S.chain i := by rw [hch]; exact List.mem_cons_self
      rw [hch] at hfuel
      have hlink : Chain (nextOf w.ents) (w.ents (S.head i)).next (p :: l) := hch ▸ ht.entries.linked.chain i hlt
      have hf : (p :: l).length < (w.withBook b').cells + (w.withBook b').mallocs + 1 :=
        Nat.lt_of_lt_of_le hfuel (Nat.le_trans (Nat.le_add_right _ _) (Nat.le_succ _))
      refine wp_spec (wp_and
        (htSweepChain_misuse (w := w.withBook b') hok hhas hf (ht.stats.withBook b') hv hinit hv hmem hlink
          (ht.ok.chain_ne_head hlt hlt hp) (hcl _ hhas) (hcl p (hmem p List.mem_cons_self).1))
        (htSweepChain_spec hok hhas (p :: l) _ (S.head i) _ hf (ht.stats.withBook b') hv hinit hv hmem hlink)) ?_
      rintro r w₁ ⟨⟨hne, hchk⟩, hr, -⟩
      have hne : w.book.lockErrors < w₁.book.lockErrors := lockErrors_congr hm ▸ hne
      by_cases h0 : r = 0
      · rw [if_neg (by simpa using h0)]
        refine wp_mono (wp_misuse (htSweepTable_spec hok ht n (i + 1) w₁ (by omega)
          (((Relocked.refl S w).withBook b').trans hr))) ?_
        rintro r' w' ⟨-, hsuf⟩
        rw [if_neg hsome]
        exact ⟨Nat.lt_of_lt_of_le hne hsuf.sublist.countP_le, fun h => absurd h0 (hchk h)⟩
      · rw [if_pos h0]
        apply wp_ret.mpr
        rw [if_neg hsome]
        exact ⟨hne, hchk⟩

/-- Some bucket of the table has a chain. -/
def Shape.Chained (S : Shape) : Prop := ∃ i, i < S.count ∧ S.chain i ≠ []

/-- The sweep changes entry locks only. When no entry is locked it changes nothing and returns `0`, or some bucket has a
chain and it gives back a lock that it does not hold. -/
theorem htSweep_spec (hok : LockOk env) (ht : Table c w h S) (hfree : w.locks (.table h) = .free) :
    wp env (htSweep h) (fun r w' => Relocked S w w' ∧ (AllZero env → r = 0) ∧
      (Clean w S → ¬S.Chained → r = 0 ∧ ∃ b : Book, b.misuse = w.book.misuse ∧ w' = w.withBook b) ∧
      (Clean w S → S.Chained → w.book.lockErrors < w'.book.lockErrors ∧ (Checked env → r ≠ 0))) w := by
  unfold htSweep
  refine wp_lock hok (by rw [hfree]; rfl) fun b hb => ?_
  rw [if_neg (by simp)]
  refine wp_lock hok (by simp [LockOp.proper, LockOp.after]) fun b' hb' => ?_
  rw [if_neg (by simp), World.withBook_setLock, World.withBook_withBook,
    show LockOp.unlock.after = .free from rfl, World.setLock_setLock_free hfree,
    wp_getTable (by exact ht.head) (by exact ht.table), wp_getEntrycount (by exact ht.hasTable)]
  have hm : b'.misuse = w.book.misuse := hb'.misuse.trans hb.misuse
  have hcount : ((w.withBook b').slab S.table).entrycount = S.count := ht.entrycount ht.ok.tableMem
  rw [hcount]
  have hspec := htSweepTable_spec hok (ht.withBook b') S.count 0 _ (by simp) (Relocked.refl S _)
  by_cases hcl : Clean w S
  · apply wp_mono (wp_and hspec (htSweepTable_clean hok S.count 0 _ (by simp) (ht.withBook b') hcl))
    rintro r w' ⟨⟨hr, hz⟩, hpost⟩
    refine ⟨((Relocked.refl S w).withBook b').trans hr, hz, fun _ hn => ?_, fun _ hc => ?_⟩
    · rw [if_pos fun j _ hj => by_contra fun h => hn ⟨j, hj, h⟩] at hpost
      obtain ⟨hr0, b₂, hb₂, rfl⟩ := hpost
      exact ⟨hr0, b₂, hb₂.trans hm, rfl⟩
    · obtain ⟨j, hj, hne⟩ := hc
      rw [if_neg fun h => hne (h j (Nat.zero_le j) hj)] at hpost
      rw [← lockErrors_congr hm]
      exact hpost
  · apply wp_mono hspec
    rintro r w' ⟨hr, hz⟩
    exact ⟨((Relocked.refl S w).withBook b').trans hr, hz, fun h => absurd h hcl, fun h => absurd h hcl⟩

end ZfsTest.Hashtable
