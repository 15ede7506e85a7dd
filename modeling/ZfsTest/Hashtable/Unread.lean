import ZfsTest.Hashtable.Parts
import ZfsTest.Hashtable.Runs

/-!
# Links that locating and inserting do not read

`ht_create` leaves `ht->old` of the head and `header.next` of its slab as `malloc` gave them. Locating and inserting read neither: they
do in any memory what they do where both are null (`callCode_blind`).
-/

namespace ZfsTest.Hashtable

open Prog

set_option synthInstance.maxSize 2000

variable {c : Conf} {env : Env} {w w' : World} {h s : Addr}

/-- A head whose `ht->old` is null, if it is `h`. -/
def blindHead (h a : Addr) (ht : HashTable) : HashTable := if a = h then { ht with old := none } else ht

/-- A slab whose `header.next` is null, if it is `s`. -/
def blindSlab (s a : Addr) (sl : Slab) : Slab := if a = s then { sl with next := none } else sl

/-- The memory with null in `ht->old` of `h` and in `header.next` of `s`. -/
def World.blind (w : World) (h s : Addr) : World :=
  { w with heads := fun a => (w.heads a).map (blindHead h a), slabs := fun a => (w.slabs a).map (blindSlab s a) }

/-- Both blocks are there, and the head has the default threshold function. -/
structure Ready (h s : Addr) (w : World) : Prop where
  head : h < w.mallocs
  slab : s < w.mallocs
  threshold : DefaultThreshold w h

/-! ## Views -/

theorem World.blind_head (w : World) (a : Addr) : (w.blind h s).head a = blindHead h a (w.head a) := by
  unfold World.head World.blind
  cases hx : w.heads a with
  | none => simp [hx, blindHead]
  | some x => simp [hx]

theorem World.blind_slab (w : World) (a : Addr) : (w.blind h s).slab a = blindSlab s a (w.slab a) := by
  unfold World.slab World.blind
  cases hx : w.slabs a with
  | none => simp [hx, blindSlab]
  | some x => simp [hx]

theorem blindHead_table (a : Addr) (ht : HashTable) : (blindHead h a ht).table = ht.table := by
  unfold blindHead
  split <;> rfl

theorem blindHead_keysize (a : Addr) (ht : HashTable) : (blindHead h a ht).keysize = ht.keysize := by
  unfold blindHead
  split <;> rfl

theorem blindSlab_entrycount (a : Addr) (sl : Slab) : (blindSlab s a sl).entrycount = sl.entrycount := by
  unfold blindSlab
  split <;> rfl

/-- The pairs in the table do not depend on the links. -/
theorem World.blind_pairs (w : World) (a : Addr) : (w.blind h s).pairs c a = w.pairs c a := by
  have htable : (w.blind h s).tableOf a = w.tableOf a := by
    rw [World.tableOf, World.blind_head, blindHead_table, World.tableOf]
  have hsize : (w.blind h s).tableSize a = w.tableSize a := by
    rw [World.tableSize, htable, World.blind_slab, blindSlab_entrycount, World.tableSize]
  have hlen : (w.blind h s).keyLen c a = w.keyLen c a := by
    rw [World.keyLen, World.blind_head, blindHead_keysize, World.keyLen]
  have hcells : (w.blind h s).cells = w.cells := rfl
  have hents : (w.blind h s).ents = w.ents := rfl
  unfold World.pairs World.pairsOf World.bucketOf World.chainOf World.chainAt
  rw [htable, hsize, hlen, hcells, hents]

/-! ## Accesses -/

/-- The result, with null links in the memory. -/
def blindResult {β : Type} (h s : Addr) (x : β × World) : β × World := (x.1, x.2.blind h s)

theorem World.blind_setHead (w : World) (a : Addr) (f : HashTable → HashTable) (ht : HashTable)
    (hf : f { ht with old := none } = { f ht with old := none }) :
    (w.blind h s).setHead a (f (blindHead h a ht)) = (w.setHead a (f ht)).blind h s := by
  have hcomm : f (blindHead h a ht) = blindHead h a (f ht) := by
    unfold blindHead
    split
    · exact hf
    · rfl
  rw [hcomm]
  unfold World.setHead World.blind
  congr 1
  funext b
  by_cases hb : b = a
  · simp [hb]
  · simp [hb]

theorem World.blind_setSlab (w : World) (a : Addr) (f : Slab → Slab) (sl : Slab)
    (hf : f { sl with next := none } = { f sl with next := none }) :
    (w.blind h s).setSlab a (f (blindSlab s a sl)) = (w.setSlab a (f sl)).blind h s := by
  have hcomm : f (blindSlab s a sl) = blindSlab s a (f sl) := by
    unfold blindSlab
    split
    · exact hf
    · rfl
  rw [hcomm]
  unfold World.setSlab World.blind
  congr 1
  funext b
  by_cases hb : b = a
  · simp [hb]
  · simp [hb]

theorem World.blind_valid (w : World) (p : EntryPtr) : (w.blind h s).valid p = w.valid p := by
  unfold World.valid World.blind
  cases hx : w.slabs p.1 with
  | none => simp [hx]
  | some x =>
    simp only [hx, Option.map_some, blindSlab]
    split <;> rfl

/-- An access to a head in the memory with null links. -/
theorem onHead_blind {β : Type} {a : Addr} {k k' : HashTable → β × World} (hk : ∀ x, k' (blindHead h a x) = blindResult h s (k x)) :
    onHead (w.blind h s) a k' = (onHead w a k).map (blindResult h s) := by
  unfold onHead World.blind
  rw [Option.map_map, Option.map_map]
  exact congrArg (fun f => Option.map f (w.heads a)) (funext hk)

theorem onHead_read {β : Type} {a : Addr} (g : HashTable → β) (hg : ∀ x, g { x with old := none } = g x) :
    onHead (w.blind h s) a (fun ht => (g ht, w.blind h s)) = (onHead w a fun ht => (g ht, w)).map (blindResult h s) := by
  refine onHead_blind fun x => Prod.ext ?_ rfl
  show g (blindHead h a x) = g x
  unfold blindHead
  split
  · exact hg x
  · rfl

theorem onSlab_blind {β : Type} {a : Addr} {k k' : Slab → β × World} (hk : ∀ x, k' (blindSlab s a x) = blindResult h s (k x)) :
    onSlab (w.blind h s) a k' = (onSlab w a k).map (blindResult h s) := by
  unfold onSlab World.blind
  rw [Option.map_map, Option.map_map]
  exact congrArg (fun f => Option.map f (w.slabs a)) (funext hk)

theorem onEnt_blind {β : Type} {p : EntryPtr} {k k' : Entry → β × World} (hk : ∀ x, k' x = blindResult h s (k x)) :
    onEnt (w.blind h s) p k' = (onEnt w p k).map (blindResult h s) := by
  unfold onEnt
  rw [World.blind_valid]
  split
  · exact congrArg some (hk _)
  · rfl

theorem step_blind {o : Op} (hu : o.usual = true) (hl : o.links = false) :
    step env o (w.blind h s) = (step env o w).map (blindResult h s) := by
  cases o
  case lock o l =>
    by_cases hret : env.lockRet w.book.lockCalls o l (w.locks l) = 0
    · simp only [step, lockStep, World.blind, World.setLock, hret, ↓reduceIte]
      rfl
    · simp only [step, lockStep, World.blind, hret, ↓reduceIte]
      rfl
  case getErrno => rfl
  case setErrno e => rfl
  case bound => rfl
  case fault => rfl
  case mallocHead => cases hu
  case mallocSlab n => cases hu
  case initHead => cases hu
  case getOld => cases hl
  case setOld => cases hl
  case getSlabNext => cases hl
  case setSlabNext => cases hl
  case freeHead a =>
    refine onHead_blind fun x => ?_
    unfold blindResult World.blind
    congr 2
    funext b
    by_cases hb : b = a
    · simp [hb]
    · simp [hb]
  case freeSlab a =>
    refine onSlab_blind fun x => ?_
    unfold blindResult World.blind
    congr 2
    funext b
    by_cases hb : b = a
    · simp [hb]
    · simp [hb]
  case getKeysize a => exact onHead_read HashTable.keysize fun _ => rfl
  case getOptions a => exact onHead_read HashTable.options fun _ => rfl
  case getThreshold a => exact onHead_read HashTable.thresholdEvaluate fun _ => rfl
  case getSlabs a => exact onHead_read HashTable.slabs fun _ => rfl
  case getTable a u => exact onHead_read HashTable.table fun _ => rfl
  case getFreechain a => exact onHead_read HashTable.freechain fun _ => rfl
  case setSlabs a v => exact onHead_blind fun x => Prod.ext rfl (w.blind_setHead a (fun ht => { ht with slabs := v }) x rfl)
  case setTable a v => exact onHead_blind fun x => Prod.ext rfl (w.blind_setHead a (fun ht => { ht with table := v }) x rfl)
  case setFreechain a v => exact onHead_blind fun x => Prod.ext rfl (w.blind_setHead a (fun ht => { ht with freechain := v }) x rfl)
  case stat a o => exact onHead_blind fun x => rfl
  case initSlab a n => exact onSlab_blind fun x => Prod.ext rfl (w.blind_setSlab a (fun sl => { sl with entrycount := n }) x rfl)
  case clearSlab a =>
    exact onSlab_blind fun x => Prod.ext rfl (w.blind_setSlab a (fun sl => { sl with next := none, entrycount := 0 }) x rfl)
  case getEntrycount a =>
    refine onSlab_blind fun x => Prod.ext ?_ rfl
    unfold blindSlab
    split <;> rfl
  case getEntry a i => exact onSlab_blind fun x => rfl
  all_goals
    simp only [step]
    exact onEnt_blind fun x => rfl

/-- A fresh slab is none of the two blocks. -/
theorem mallocSlab_blind (n : Nat) (hr : Ready h s w) :
    step env (.mallocSlab n) (w.blind h s) = (step env (.mallocSlab n) w).map (blindResult h s) := by
  have hne : w.mallocs ≠ s := Nat.ne_of_gt hr.slab
  simp only [step]
  have hm : (w.blind h s).mallocs = w.mallocs := rfl
  rw [hm]
  cases env.malloc w.mallocs with
  | none => rfl
  | some f =>
    refine congrArg some (Prod.ext rfl ?_)
    show (w.blind h s).allocSlab n f = (w.allocSlab n f).blind h s
    have hslabs : ((w.blind h s).allocSlab n f).slabs = ((w.allocSlab n f).blind h s).slabs := by
      funext a
      by_cases ha : a = w.mallocs
      · simp [World.allocSlab, World.setSlab, World.blind, ha, blindSlab, hne]
      · simp [World.allocSlab, World.setSlab, World.blind, ha]
    exact World.ext rfl hslabs rfl rfl rfl rfl rfl rfl

/-! ## Programs -/

/-- The program does the same in the memory with null links. -/
def Blind (env : Env) (h s : Addr) (α : Type) (p : Code α) : Prop :=
  ∀ w, Ready h s w → p.exec (step env) (w.blind h s) = (p.exec (step env) w).map (blindResult h s) ∧
    ∀ r w', p.exec (step env) w = some (r, w') → Ready h s w'

theorem blind_seq {α β : Type} {Q : α → Prop} {p : Code α} {f : α → Code β} (hp : Blind env h s α p)
    (hg : ∀ w, Ready h s w → ∀ r w', p.exec (step env) w = some (r, w') → Q r) (hf : ∀ a, Q a → Blind env h s β (f a)) :
    Blind env h s β (p >>= f) := by
  intro w hr
  obtain ⟨he, hr'⟩ := hp w hr
  have hg' := hg w hr
  rw [exec_bind, exec_bind, he]
  cases hx : p.exec (step env) w with
  | none => exact ⟨rfl, fun r w' h => nomatch h⟩
  | some x =>
    obtain ⟨a, w₁⟩ := x
    exact hf a (hg' a w₁ hx) w₁ (hr' a w₁ hx)

instance blind_modular : Modular (Blind env h s) where
  ret a := fun w hr => ⟨rfl, fun r w' he => by cases he; exact hr⟩
  bind hp hf := blind_seq (Q := fun _ => True) hp (fun _ _ _ _ _ => trivial) fun a _ => hf a

theorem blind_access {o : Op} (hk : o.keepsHeads = true)
    (hb : ∀ w, Ready h s w → step env o (w.blind h s) = (step env o w).map (blindResult h s)) : Has (Blind env h s) (access o) := by
  refine ⟨fun w hr => ?_⟩
  have hexec : ∀ w, (access o).exec (step env) w = step env o w := fun w => exec_call o w
  rw [hexec, hexec]
  refine ⟨hb w hr, fun r w' hs => ?_⟩
  have hle := mallocs_le_step hs
  exact ⟨Nat.lt_of_lt_of_le hr.head hle, Nat.lt_of_lt_of_le hr.slab hle, (headsKept_step hk hs).defaultThreshold hr.threshold⟩

instance blind_inner : Inner (Blind env h s) where
  toModular := blind_modular
  inner hu hl := (blind_access (Op.keepsHeads_of_usual hu) fun _ _ => step_blind hu hl).has

instance blind_mallocSlab (n : Nat) : Has (Blind env h s) (mallocSlab n) := blind_access rfl fun _ hr => mallocSlab_blind n hr

instance blind_addCounter (a : Addr) (i : CounterId) (d : UInt64) : Has (Blind env h s) (addCounter a i d) :=
  blind_access rfl fun _ _ => onHead_blind fun _ => rfl

instance blind_updateAverage (a : Addr) (i : AverageId) (n m x y : UInt64) : Has (Blind env h s) (updateAverage a i n m x y) :=
  blind_access rfl fun _ _ => onHead_blind fun _ => rfl

instance blind_incrementAverage (a : Addr) (i : AverageId) (x : UInt64) : Has (Blind env h s) (incrementAverage a i x) :=
  blind_access rfl fun _ _ => onHead_blind fun _ => rfl

/-- The link of another slab. -/
theorem blind_setSlabNext {a : Addr} (ha : a ≠ s) (v : Option Addr) : Has (Blind env h s) (setSlabNext a v) := by
  refine blind_access rfl fun w _ => onSlab_blind fun x => Prod.ext rfl ?_
  have hblind : ∀ sl, blindSlab s a sl = sl := fun sl => if_neg ha
  show (w.blind h s).setSlab a _ = (w.setSlab a _).blind h s
  rw [hblind]
  have hslabs : ((w.blind h s).setSlab a { x with next := v }).slabs = ((w.setSlab a { x with next := v }).blind h s).slabs := by
    funext b
    by_cases hb : b = a
    · simp [World.setSlab, World.blind, hb, hblind]
    · simp [World.setSlab, World.blind, hb]
  exact World.ext rfl hslabs rfl rfl rfl rfl rfl rfl

/-- A new slab is a fresh block. -/
theorem htCreateSlab_fresh {n : Nat} {r : Option Addr} (he : (htCreateSlab n).exec (step env) w = some (r, w')) :
    r = none ∨ r = some w.mallocs := by
  by_cases hn : n = 0
  · subst hn
    cases he
    exact Or.inl rfl
  rw [htCreateSlab, if_neg hn] at he
  obtain ⟨x, w₁, h₁, h₂⟩ := exec_bind_some he
  change (call (.mallocSlab n)).exec (step env) w = some (x, w₁) at h₁
  rw [exec_call, step] at h₁
  cases hf : env.malloc w.mallocs with
  | none =>
    rw [hf] at h₁
    cases h₁
    cases h₂
    exact Or.inl rfl
  | some f =>
    rw [hf] at h₁
    cases h₁
    have hgives : Gives (step env) (fun r => r = none ∨ r = some w.mallocs) (do
        initSlab w.mallocs n
        let n ← getEntrycount w.mallocs
        let ret ← htInitEntries w.mallocs 0 n 0
        if ret ≠ 0 then
          freeSlab w.mallocs
          return none
        else
          return some w.mallocs) := by
      refine gives_bind fun _ => gives_bind fun n => gives_bind fun ret => ?_
      split
      · exact gives_bind fun _ => gives_ret (Or.inl rfl)
      · exact gives_ret (Or.inr rfl)
    exact hgives _ _ _ h₂

instance blind_takeFree (rounds : Nat) : Has (Blind env h s) (takeFree h rounds) := by
  induction rounds with
  | zero => exact has_fault
  | succ rounds ih =>
    rw [takeFree]
    refine Has.bind inferInstance fun freechain => ?_
    cases freechain with
    | some ohte => infer_instance
    | none =>
      refine Has.bind inferInstance fun t => Has.bind inferInstance fun n => ?_
      have hslab : Has (Blind env h s) (htCreateSlab n) := inferInstance
      refine ⟨blind_seq (Q := fun r => ∀ a, r = some a → a ≠ s) hslab.has (fun w hr r w' he a ha => ?_) fun r hr => ?_⟩
      · rcases htCreateSlab_fresh he with rfl | rfl
        · cases ha
        · cases ha
          exact Nat.ne_of_gt hr.slab
      · cases r with
        | none => exact (has_ret none).has
        | some a =>
          have hset : ∀ v, Has (Blind env h s) (setSlabNext a v) := blind_setSlabNext (hr a rfl)
          have hrest : Has (Blind env h s) (do
              void (htCounterAdd h .slabs 1)
              let slabs ← getSlabs h
              setSlabNext a slabs
              setSlabs h (some a)
              let count ← getEntrycount a
              dangle h a count
              let count := UInt64.ofNat count
              let fc ← getAverage h .freechain
              void (htAverageUpdate h .freechain 1 count (fc.current + count) (fc.current + count))
              takeFree h rounds) := inferInstance
          exact hrest.has

/-- Locating and inserting do the same in the memory with null links. -/
theorem callCode_blind {a : Call} (ha : (∃ key, a = .locate key) ∨ ∃ key data, a = .insert key data) :
    Has (Blind env h s) (callCode c h a) := by
  rcases ha with ⟨key, rfl⟩ | ⟨key, data, rfl⟩
  · exact Has.bind inferInstance fun d => has_pure (d : Int)
  · have hresize : ∀ options, Has (Blind env h s) (resizeIfDue c (htResize c) h options) := fun options => by
      refine has_resizeIfDue_default c (htResize c) h options fun f hf => ?_
      have hget : Has (Blind env h s) (getThreshold h) := inferInstance
      refine ⟨blind_seq (Q := fun r => r = some htEvaluateThresholdDefault) hget.has (fun w hr r w' he => ?_) fun r hr => ?_⟩
      · change (call (.getThreshold h)).exec (step env) w = some (r, w') at he
        rw [exec_call] at he
        obtain ⟨x, hx, hw⟩ := Option.map_eq_some_iff.mp he
        cases hw
        exact hr.threshold x hx
      · rw [hr]
        exact hf.has
    exact has_insertKeyWith c (htResize c) h key data

/-- A call in memory with any links is the call in the memory with null links. -/
theorem runCall_blind {a : Call} (ha : (∃ key, a = .locate key) ∨ ∃ key data, a = .insert key data) (hr : Ready h s w) :
    runCall c env h a (w.blind h s) = (runCall c env h a w).map (fun x => (x.1, x.2.blind h s)) ∧
      ∀ r w', runCall c env h a w = some (r, w') → Ready h s w' := by
  obtain ⟨he, hr'⟩ := (callCode_blind ha).has w hr
  unfold runCall
  rw [he]
  cases hx : (callCode c h a).exec (step env) w with
  | none => exact ⟨rfl, fun r w' h => nomatch h⟩
  | some x =>
    refine ⟨rfl, fun r w' h => ?_⟩
    obtain ⟨-, rfl⟩ := Prod.mk.inj (Option.some.inj h)
    exact hr' x.1 x.2 hx

/-- What locating and inserting do in memory with any links. -/
theorem runCall_unread {S : Shape} {P : List (Addr × List Addr)} (hok : LockOk env) (hr : Ready h s w)
    (hh : Held c (w.blind h s) h S P) (hi : Idle (w.blind h s) h) {a : Call}
    (ha : (∃ key, a = .locate key) ∨ ∃ key data, a = .insert key data) :
    ∃ r w', runCall c env h a w = some (r, w') ∧ Ready h s w' ∧ r.errno = w'.book.errno ∧
      Outcome c env (w.blind h s) h S a r.ret (w'.blind h s) := by
  obtain ⟨heq, hready⟩ := runCall_blind (c := c) ha hr
  obtain ⟨x, w₁, hx, ho⟩ : wp env (callCode c h a) (Outcome c env (w.blind h s) h S a) (w.blind h s) := by
    rcases ha with ⟨key, rfl⟩ | ⟨key, data, rfl⟩
    · exact wp_spec (htLocateKey_spec hok hh.table hi key) fun r w' hr => wp_ret.mpr (.locate hr)
    · exact wp_mono (insertKeyWith_spec hok hh.fresh hh.table hi _ key data) fun r w' hr => .insert hr
  have hrun : runCall c env h a (w.blind h s) = some (⟨x, w₁.book.errno⟩, w₁) := by
    unfold runCall
    rw [hx]
    rfl
  rw [hrun] at heq
  cases hcall : runCall c env h a w with
  | none =>
    rw [hcall] at heq
    cases heq
  | some y =>
    rw [hcall] at heq
    obtain ⟨hr', hw'⟩ := Prod.mk.inj (Option.some.inj heq)
    refine ⟨y.1, y.2, rfl, hready y.1 y.2 hcall, ?_, ?_⟩
    · rw [← hr', hw']
      rfl
    · rw [← hr', ← hw']
      exact ho

/-! ## New tables -/

theorem newTable_blind {n ks : Nat} {opts : Options} {old next : Option Addr} {b : Book} :
    ((World.empty.newTable n ks opts old next).withBook b).blind 0 1 = (World.empty.newTable n ks opts none none).withBook b := by
  have hheads : (((World.empty.newTable n ks opts old next).withBook b).blind 0 1).heads =
      ((World.empty.newTable n ks opts none none).withBook b).heads := by
    funext a
    show ((World.empty.newTable n ks opts old next).heads a).map (blindHead 0 a) = (World.empty.newTable n ks opts none none).heads a
    rw [newTable_heads, newTable_heads]
    by_cases ha : a = 0
    · simp [World.empty, ha, blindHead]
    · simp [World.empty, ha]
  have hslabs : (((World.empty.newTable n ks opts old next).withBook b).blind 0 1).slabs =
      ((World.empty.newTable n ks opts none none).withBook b).slabs := by
    funext a
    show ((World.empty.newTable n ks opts old next).slabs a).map (blindSlab 1 a) = (World.empty.newTable n ks opts none none).slabs a
    rw [newTable_slabs, newTable_slabs]
    by_cases ha : a = 1
    · simp [World.empty, ha, blindSlab]
    · simp [World.empty, ha]
  exact World.ext hheads hslabs rfl rfl rfl rfl rfl rfl

/-- A new table is in order, but for the links that fresh memory left in it. -/
theorem Created.blind {n ks : Nat} {opts : Options} (hok : LockOk env) (hc : Created env n ks opts h w) :
    Ready h 1 w ∧ (w.blind h 1).ents = w.ents ∧ ∃ S, Held c (w.blind h 1) h S [] ∧ Idle (w.blind h 1) h ∧ Clean (w.blind h 1) S ∧
      contents c (w.blind h 1) h S = 0 ∧ ((w.blind h 1).head h).options = opts ∧ ((w.blind h 1).head h).keysize = intOfSize ks ∧
      ∀ p, (w.ents p).flags.occupied = false := by
  rcases (htCreate_spec hok World.empty_fresh n ks opts).post hc with ⟨hr, -⟩ | ⟨f, g, b, hn, hf, hg, hr, -, rfl⟩
  · cases hr
  obtain rfl : h = 0 := Option.some.inj hr
  have h0 := @newTable_contents c World.empty n ks opts none none
  have hI := @newTable_idle World.empty n ks opts none none
  have hhead : (World.empty.newTable n ks opts none none).head 0 = ⟨intOfSize ks, opts, none, some 1, some 1, none,
      some htEvaluateThresholdDefault⟩ := by simp [World.empty]
  refine ⟨⟨by simp [World.empty], by simp [World.empty], fun x hx => ?_⟩, rfl, ?_⟩
  · have hx' : (World.empty.newTable n ks opts f.head.old g.next).heads 0 = some x := hx
    rw [newTable_heads, if_pos (show (0 : Addr) = World.empty.mallocs from rfl)] at hx'
    rw [← Option.some.inj hx']
  rw [newTable_blind]
  refine ⟨Shape.new 1 n, World.empty_bare.newTable hn ks opts b, ⟨hI.table, hI.free, hI.resize⟩,
    @newTable_clean World.empty _ _ _ _ none, h0, ?_, ?_, fun p => ?_⟩
  · rw [World.withBook_head, hhead]
  · rw [World.withBook_head, hhead]
  · show ((World.empty.newTable n ks opts f.head.old g.next).ents p).flags.occupied = false
    rw [newTable_ents]
    split <;> rfl

end ZfsTest.Hashtable
