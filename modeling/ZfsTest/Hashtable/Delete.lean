import ZfsTest.Hashtable.Insert

/-!
# Deleting

`ht_delete_key` has four exits. An entry behind another one is moved to the free chain (`World.unlinked`). A bucket head
without chain is only marked vacant, and stays locked. A bucket head with a chain takes over the payload of its successor,
and the successor is moved to the free chain; the data returned is the successor's. The outcomes are those of `Deleted`
(`htDeleteKey_spec`).
-/

namespace ZfsTest.Hashtable

open Prog

variable {c : Conf} {env : Env} {w w' : World} {h : Addr} {S : Shape}

/-- The entry `d` cut out behind `p` and put before the free chain. -/
def World.unlinked (w : World) (h : Addr) (p d : EntryPtr) : World :=
  w.reshape h (upd (upd w.ents p { w.ents p with next := (w.ents d).next }) d
    { w.ents d with next := (w.head h).freechain, flags := { (w.ents d).flags with occupied := false } }) (some d)

/-- The head `p` marked vacant. -/
def World.vacated (w : World) (h : Addr) (p : EntryPtr) : World :=
  w.reshape h (upd w.ents p { w.ents p with flags := { (w.ents p).flags with occupied := false } }) (w.head h).freechain

/-- The payload of `d` copied to `p`. -/
def World.copied (w : World) (h : Addr) (p d : EntryPtr) : World :=
  w.reshape h (upd w.ents p ⟨(w.ents p).next, (w.ents d).key, (w.ents d).data, (w.ents d).flags⟩) (w.head h).freechain

theorem Takes.write : Takes .wrlock .write := Or.inr ⟨rfl, rfl⟩

theorem unlinkEntry_spec (hok : LockOk env) (hs : StatsFree w h) {p d : EntryPtr} (hp : w.valid p = true)
    (hd : w.valid d = true) (hne : p ≠ d) (hlp : w.locks (.entry p) = .free) (hld : w.locks (.entry d) = .free)
    (hF : w.locks (.free h) = .free) {b : Book} :
    wp env (unlinkEntry h p d)
      (fun r w' => r = (w.ents d).data ∧ ∃ b', Quiet b 0 b' ∧ w' = (w.unlinked h p d).withBook b')
      ((w.holding .write [d, p]).withBook b) := by
  unfold unlinkEntry
  rw [wp_getFlags (by exact hd), wp_setFlags (by exact hd)]
  refine wp_lock hok ?_ fun b₁ hb₁ => ?_
  · show LockOp.wrlock.proper (w.locks (.free h)) = true
    rw [hF]
    rfl
  simp only [ne_eq, not_true_eq_false, ↓reduceIte]
  rw [wp_getNext (by exact hd), wp_setNext (by exact hp), wp_getFreechain (by exact hs.head), wp_setNext (by exact hd),
    wp_setFreechain (by exact hs.head)]
  have hm₁ : b₁.misuse = b.misuse := hb₁.misuse
  clear hb₁
  simp only [World.withBook_ents, World.withBook_setEnt, World.withBook_withBook, World.holding_setEnt,
    World.holding_ents, World.setEnt_ents, World.setLock_ents, World.setLock_setEnt, World.withBook_setLock, ↓reduceIte,
    World.withBook_head, World.setEnt_head, World.setLock_head, World.holding_head, World.withBook_setHead,
    World.setLock_setHead, World.holding_setHead, LockOp.after, World.setEnt_setEnt_between, Ne.symm hne, hne]
  show wp env _ _ ((((w.unlinked h p d).holding .write [d, p]).setLock (.free h) .write).withBook b₁)
  refine wp_lock hok (by simp [LockOp.proper]) fun b₂ hb₂ => ?_
  have hback : ((w.unlinked h p d).holding .write [d, p]).setLock (.free h) .free =
      (w.unlinked h p d).holding .write [d, p] := World.setLock_self hF
  simp only [LockOp.after, World.withBook_setLock, World.withBook_withBook, World.setLock_setLock, onFail_zero, hback]
  refine wp_give hok .write hlp (by simp) fun b₃ hb₃ => ?_
  simp only [onFail_zero]
  refine wp_give hok .write hld (by simp [Ne.symm hne]) fun b₄ hb₄ => ?_
  simp only [List.filter_cons, ne_eq, Ne.symm hne, not_false_eq_true, decide_true, not_true_eq_false, decide_false,
    Bool.false_eq_true, ↓reduceIte, List.filter_nil, World.holding_nil]
  rw [wp_setErrno]
  simp only [onFail_zero]
  rw [wp_getErrno]
  simp only [World.withBook_book, not_true_eq_false, ↓reduceIte]
  rw [wp_last, wp_getData (by exact hd)]
  refine wp_ret.mpr ⟨?_, _, ⟨?_, ?_⟩, rfl⟩
  · simp [World.unlinked]
  · rfl
  · exact hb₄.misuse.trans (hb₃.misuse.trans (hb₂.misuse.trans hm₁))

/-- The outcomes of `ht_delete_key`. -/
inductive Deleted (c : Conf) (env : Env) (w : World) (h : Addr) (S : Shape) (key : Nat) : Nat → World → Prop
  | stuck (b : Book) (hz : ¬AllZero env) (hc : ¬Clean w S) : Deleted c env w h S key 0 (w.withBook b)
  | missing (b : Book) (he : b.errno = ENOENT) (hb : Clean w S → b.misuse = w.book.misuse)
      (hn : ∀ q ∈ S.bucket w.ents (w.index c h S key), ¬Matches c (w.keyLen c h) key w.ents q) :
      Deleted c env w h S key 0 ((w.setLock (.entry (S.head (w.index c h S key))) .free).withBook b)
  | sole (b : Book) (hq : Quiet w.book 0 b) {p : EntryPtr} (hp : p = S.head (w.index c h S key))
      (hocc : (w.ents p).flags.occupied = true) (hm : Matches c (w.keyLen c h) key w.ents p)
      (hc : S.chain (w.index c h S key) = []) :
      Deleted c env w h S key (w.ents p).data (((w.vacated h p).setLock (.entry p) .write).withBook b)
  | head (b : Book) (hq : Quiet w.book 0 b) {p : EntryPtr} (hp : p = S.head (w.index c h S key))
      (hocc : (w.ents p).flags.occupied = true) (hm : Matches c (w.keyLen c h) key w.ents p) {d : EntryPtr}
      {l : List EntryPtr} (hc : S.chain (w.index c h S key) = d :: l) :
      Deleted c env w h S key (w.ents d).data (((w.copied h p d).unlinked h p d).withBook b)
  | deep (b : Book) (hq : Quiet w.book 0 b) {l₀ l₁ l₂ : List EntryPtr} {a d : EntryPtr}
      (hocc : (w.ents (S.head (w.index c h S key))).flags.occupied = true)
      (hm : Matches c (w.keyLen c h) key w.ents d) (hn : ∀ q ∈ S.head (w.index c h S key) :: l₁,
        ¬Matches c (w.keyLen c h) key w.ents q)
      (hc : S.chain (w.index c h S key) = l₁ ++ d :: l₂) (ha : S.head (w.index c h S key) :: l₁ = l₀ ++ [a]) :
      Deleted c env w h S key (w.ents d).data ((w.unlinked h a d).withBook b)

/-- The payload of the successor copied to the head. -/
theorem copyPayload_spec {p d : EntryPtr} (hp : w.valid p = true) (hd : w.valid d = true) (hh : w.hasHead h = true)
    (hne : p ≠ d) {ps : List EntryPtr} {b : Book} {β : Type} {Q : β → World → Prop} {k : Code β} :
    wp env (do
      let k' ← getKey d
      setKey p k'
      let d' ← getData d
      setData p d'
      let f ← getFlags d
      setFlags p f
      k) Q ((w.holding .write ps).withBook b) ↔ wp env k Q (((w.copied h p d).holding .write ps).withBook b) := by
  rw [wp_getKey (by exact hd), wp_setKey (by exact hp), wp_getData (by exact hd), wp_setData (by exact hp),
    wp_getFlags (by exact hd), wp_setFlags (by exact hp)]
  have hcopied : w.copied h p d = w.setEnt p ⟨(w.ents p).next, (w.ents d).key, (w.ents d).data, (w.ents d).flags⟩ :=
    (World.setEnt_eq_reshape hh _ _).symm
  rw [hcopied]
  simp only [World.withBook_ents, World.withBook_setEnt, World.holding_setEnt, World.holding_ents, World.setEnt_ents,
    ↓reduceIte, Ne.symm hne, World.setEnt_setEnt]

/-- The exits of `ht_delete_key` once the entry is found. -/
theorem deleteFound_spec (hok : LockOk env) (ht : Table c w h S) (hidle : Idle w h) {key : Nat} {l₁ l₂ : List EntryPtr}
    {d : EntryPtr} {p : Option EntryPtr}
    (hf : FirstMatch c (w.keyLen c h) key w.ents (S.bucket w.ents (w.index c h S key)) l₁ d l₂) (hp : p = l₁.getLast?)
    {b : Book} (hb : Quiet w.book 0 b) :
    wp env (deleteFound h d p) (Deleted c env w h S key) ((w.holding .write (d :: p.toList)).withBook b) := by
  have hi : w.index c h S key < S.count := ht.index_lt key
  have hd : d ∈ S.bucket w.ents (w.index c h S key) := by
    rw [hf.split]
    simp
  have hocc : (w.ents (S.head (w.index c h S key))).flags.occupied = true := by
    by_contra ho
    rw [Shape.bucket, if_neg ho] at hd
    cases hd
  have hsplit : S.head (w.index c h S key) :: S.chain (w.index c h S key) = l₁ ++ d :: l₂ := by
    rw [← hf.split, Shape.bucket, if_pos hocc]
  have hlock : ∀ q ∈ S.head (w.index c h S key) :: S.chain (w.index c h S key), w.locks (.entry q) = .free := by
    intro q hq
    rcases List.mem_cons.mp hq with rfl | hq
    · exact ht.lock_free (ht.ok.head_has hi) (Or.inr hocc)
    · exact ht.chain_lock hi hq
  have hvalid : ∀ q ∈ S.head (w.index c h S key) :: S.chain (w.index c h S key), w.valid q = true :=
    fun q hq => ht.valid (ht.ok.bucket_has hi hq)
  have hnodup := ht.ok.bucketNodup hi
  have hchain := ht.entries.linked.chain _ hi
  generalize hidx : w.index c h S key = i at *
  cases l₁ with
  | nil =>
    obtain ⟨hd', hl₂⟩ := List.cons_eq_cons.mp hsplit
    subst hp
    subst hd'
    have hself : S.head i ∈ S.head i :: S.chain i := List.mem_cons_self
    show wp env (getNext (S.head i) >>= _) _ ((w.holding .write [S.head i]).withBook b)
    rw [wp_getNext (by exact hvalid _ hself)]
    simp only [World.withBook_ents, World.holding_ents]
    cases hc : S.chain i with
    | nil =>
      rw [hc, chain_nil] at hchain
      rw [hchain]
      show wp env (getFlags (S.head i) >>= _) _ _
      rw [wp_getFlags (by exact hvalid _ hself), wp_setFlags (by exact hvalid _ hself), wp_last,
        wp_getData (by exact hvalid _ hself)]
      apply wp_ret.mpr
      simp only [World.withBook_ents, World.withBook_setEnt, World.holding_setEnt, World.holding_ents, World.setEnt_ents,
        ↓reduceIte]
      have hvac : (w.setEnt (S.head i) { w.ents (S.head i) with
          flags := { (w.ents (S.head i)).flags with occupied := false } }).holding .write [S.head i] =
          (w.vacated h (S.head i)).setLock (.entry (S.head i)) .write := by
        rw [← World.holding_lock, World.holding_nil, World.setEnt_eq_reshape ht.head]
        rfl
      rw [hvac]
      exact .sole b hb (by rw [hidx]) hocc hf.here (by rw [hidx]; exact hc)
    | cons n l =>
      rw [hc] at hchain
      rw [hchain.1]
      have hn : n ∈ S.head i :: S.chain i := by
        rw [hc]
        simp
      have hne : S.head i ≠ n := by
        rintro rfl
        rw [hc] at hnodup
        simp at hnodup
      refine wp_take hok .write (hlock n hn) (by simpa using Ne.symm hne) fun b₁ hb₁ => ?_
      simp only [ne_eq, not_true_eq_false, ↓reduceIte]
      rw [copyPayload_spec (hvalid _ hself) (hvalid _ hn) ht.head hne]
      have hs : StatsFree (w.copied h (S.head i) n) h :=
        ⟨by simp [World.copied, World.reshape, World.hasHead], ht.stats.counter, ht.stats.average⟩
      refine wp_mono (unlinkEntry_spec hok hs (hvalid _ hself) (hvalid _ hn) hne (hlock _ hself) (hlock _ hn)
        hidle.free) ?_
      rintro r w' ⟨rfl, b', hb', rfl⟩
      have hdata : ((w.copied h (S.head i) n).ents n).data = (w.ents n).data := by
        simp [World.copied, upd_ne _ _ (Ne.symm hne)]
      rw [hdata]
      exact .head b' ⟨hb'.errno, hb'.misuse.trans (hb₁.misuse.trans hb.misuse)⟩ (by rw [hidx]) hocc hf.here
        (by rw [hidx]; exact hc)
  | cons x l₁ =>
    obtain ⟨hx, hc⟩ := List.cons_eq_cons.mp hsplit
    obtain ⟨l₀, a, hla⟩ : ∃ l₀ a, x :: l₁ = l₀ ++ [a] :=
      ⟨_, _, (List.dropLast_append_getLast (List.cons_ne_nil x l₁)).symm⟩
    rw [hla, List.getLast?_concat] at hp
    subst hp
    have hsplit' : S.head i :: S.chain i = l₀ ++ a :: d :: l₂ := by
      rw [hsplit, hla, List.append_assoc]
      rfl
    have ham : a ∈ S.head i :: S.chain i := by rw [hsplit']; simp
    have hdm : d ∈ S.head i :: S.chain i := by rw [hsplit']; simp
    have hne : a ≠ d := by
      rintro rfl
      rw [hsplit'] at hnodup
      simp [List.nodup_append] at hnodup
    refine wp_mono (unlinkEntry_spec hok ht.stats (hvalid _ ham) (hvalid _ hdm) hne (hlock _ ham) (hlock _ hdm)
      hidle.free) ?_
    rintro r w' ⟨rfl, b', hb', rfl⟩
    refine @Deleted.deep _ _ _ _ _ _ b' ⟨hb'.errno, hb'.misuse.trans hb.misuse⟩ l₀ l₁ l₂ _ _ ?_ hf.here ?_ ?_ ?_
    · rw [hidx]; exact hocc
    · rw [hidx, hx]; exact hf.before
    · rw [hidx]; exact hc
    · rw [hidx, hx]; exact hla

theorem htDeleteKey_spec (hok : LockOk env) (ht : Table c w h S) (hidle : Idle w h) (key : Nat) :
    wp env (htDeleteKey c h key) (Deleted c env w h S key) w := by
  have hi : w.index c h S key < S.count := ht.index_lt key
  have hcall : CallLock h (.table h) := Or.inl rfl
  unfold htDeleteKey
  refine wp_count hok ht.stats fun b hb => ?_
  refine wp_lock hok (by simp [hidle.table, LockOp.proper]) fun b₁ hb₁ => ?_
  rw [wp_setErrno]
  simp only [ne_eq, not_true_eq_false, ↓reduceIte, LockOp.after, World.withBook_setLock, World.withBook_withBook]
  have hm₁ : b₁.misuse = w.book.misuse := hb₁.misuse.trans hb.misuse
  have ht' := (ht.setLock hcall .write).withBook { b₁ with errno := 0 }
  have hclean : Clean ((w.setLock (.table h) .write).withBook { b₁ with errno := 0 }) S ↔ Clean w S :=
    @clean_setLock w _ _ _ hcall .write
  apply wp_spec (locateEntry_spec hok ht' .write key true)
  rintro r w' hr
  have hwrite : w'.locks (.table h) = .write := by
    cases hr with
    | stuck b' => simp
    | missing b' => simp
    | found b' l₁ d l₂ p => simp [World.holding]
  refine wp_lock hok (by rw [hwrite]; rfl) fun b₂ hb₂ => ?_
  simp only [not_true_eq_false, ↓reduceIte, LockOp.after]
  cases hr with
  | stuck b' hz hc =>
    apply wp_ret.mpr
    simp only [World.withBook_setLock, World.withBook_withBook, World.setLock_setLock, World.setLock_self hidle.table]
    exact .stuck b₂ hz fun h => hc (hclean.mpr h)
  | missing b' he hm hn =>
    apply wp_ret.mpr
    simp only [World.withBook_setLock, World.withBook_withBook]
    rw [World.setLock_setLock_between (by simp) hidle.table]
    refine .missing b₂ (hb₂.errno.trans he) (fun h => ?_) hn
    exact hb₂.misuse.trans ((hm (hclean.mpr h)).trans hm₁)
  | found b' l₁ d l₂ p hq hf hp =>
    have hq₂ : Quiet w.book 0 b₂ := ⟨hb₂.errno.trans hq.errno, hb₂.misuse.trans (hq.misuse.trans hm₁)⟩
    clear hb₂ hq
    have hback : ((w.setLock (.table h) .write).holding .write (d :: p.toList)).setLock (.table h) .free =
        w.holding .write (d :: p.toList) := by
      rw [World.holding_setLock (by simp), World.setLock_setLock, World.setLock_self]
      exact hidle.table
    have hw : (((((w.setLock (.table h) .write).withBook { b₁ with errno := 0 }).holding .write
        (d :: p.toList)).withBook b').setLock (.table h) .free).withBook b₂ =
        (w.holding .write (d :: p.toList)).withBook b₂ := by
      have := congrArg (fun x : World => x.withBook b₂) hback
      exact this
    rw [hw]
    exact deleteFound_spec hok ht hidle hf hp hq₂

end ZfsTest.Hashtable
