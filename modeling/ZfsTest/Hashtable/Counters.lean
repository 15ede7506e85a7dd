import Mathlib.Data.Nat.Count
import ZfsTest.Hashtable.Parts
import ZfsTest.Hashtable.Report

/-!
# The counters of slabs and resizes

`ht_insert_key` counts each slab it adds (`htInsertKey_spare`), and no other call changes `stats.slabs`: `ht_resize` merges the other
counters of the new table, but not this one (`htResize_slabs`). Nothing counts a resize: the value that `ht_resize` adds to
`stats.resizes` is the one of the new table, which is `0` (`callCode_noResizes`). So both counters are right until the first resize that
puts a new table in use, and not after it.
-/

namespace ZfsTest.Hashtable

open Prog

set_option synthInstance.maxSize 2000

variable {c : Conf} {env : Env} {w w' w₁ w₂ : World} {h : Addr} {S S' : Shape} {P P' : List (Addr × List Addr)}

/-! ## Counters -/

/-- The value of a counter. -/
def World.count (w : World) (h : Addr) (i : CounterId) : UInt64 := (w.book.stats h).counter i

/-- The access changes counter `i` of `h`. -/
def Op.changes (h : Addr) (i : CounterId) : Op → Bool
  | .stat a (.initCounter j) | .stat a (.addCounter j _) => a = h && j = i
  | _ => false

/-- The statistics of one head after an access to those of another, or to another counter. -/
theorem StatOp.run_counter {i : CounterId} {o : StatOp} (ho : (Op.stat h o).changes h i = false) (s : Stats) :
    (o.run s).2.counter i = s.counter i := by
  cases o with
  | initCounter j =>
    have hj : i ≠ j := fun hij => by simp [Op.changes, hij] at ho
    simp [StatOp.run, Stats.setCounter, hj]
  | addCounter j d =>
    have hj : i ≠ j := fun hij => by simp [Op.changes, hij] at ho
    simp [StatOp.run, Stats.setCounter, hj]
  | _ => rfl

theorem count_step {i : CounterId} {o : Op} (ho : o.changes h i = false) {r : o.Res} (hs : step env o w = some (r, w')) :
    w'.count h i = w.count h i := by
  by_cases hstat : ∃ a s, o = .stat a s
  · obtain ⟨a, o, rfl⟩ := hstat
    obtain ⟨x, hx, he⟩ := Option.map_eq_some_iff.mp hs
    cases he
    by_cases ha : h = a
    · subst ha
      simpa [World.count, World.setStats] using StatOp.run_counter ho (w.book.stats h)
    · simp [World.count, World.setStats, ha]
  · rw [World.count, (step_frame hs).stats fun a s he => hstat ⟨a, s, he⟩, World.count]

theorem Op.changes_of_usual {o : Op} (ho : o.usual = true) {i : CounterId} (hi : i = .slabs ∨ i = .resizes) :
    o.changes h i = false := by
  cases o
  case stat a o =>
    cases o
    case initCounter j => cases ho
    case addCounter j d =>
      have hj : j ≠ i := by
        rintro rfl
        rcases hi with rfl | rfl <;> cases ho
      simp [Op.changes, hj]
    all_goals rfl
  all_goals rfl

/-! ## Resizes are not counted -/

/-- No table has counted a resize. -/
def NoResizes (w : World) : Prop := ∀ a, w.count a .resizes = 0

/-- A run that starts without a counted resize ends without one. -/
abbrev KeepsNoResizes (env : Env) : (α : Type) → Code α → Prop := Keeps (step env) fun w w' => NoResizes w → NoResizes w'

theorem noResizes_access {o : Op} (ho : ∀ a d, o ≠ .stat a (.addCounter .resizes d)) : Has (KeepsNoResizes env) (access o) := by
  refine ⟨keeps_call fun w r w' hs hn a => ?_⟩
  by_cases hc : o.changes a .resizes = true
  · cases o
    case stat b o =>
      cases o
      case initCounter j =>
        obtain ⟨x, hx, he⟩ := Option.map_eq_some_iff.mp hs
        cases he
        obtain ⟨rfl, rfl⟩ : b = a ∧ j = .resizes := by simpa [Op.changes] using hc
        simp [World.count, World.setStats, StatOp.run, Stats.setCounter]
      case addCounter j d =>
        obtain ⟨rfl, rfl⟩ : b = a ∧ j = .resizes := by simpa [Op.changes] using hc
        exact absurd rfl (ho b d)
      all_goals cases hc
    all_goals cases hc
  · rw [count_step (by simpa using hc) hs]
    exact hn a

instance noResizes_usual : Usual (KeepsNoResizes env) where
  toModular := keeps_modular (fun _ hn => hn) fun _ _ _ h₁ h₂ hn => h₂ (h₁ hn)
  usual {o} ho := (noResizes_access (by rintro a d rfl; cases ho)).has

/-- Adding nothing is no count. -/
theorem addZero_noResizes (a : Addr) : Has (KeepsNoResizes env) (addCounter a .resizes 0) := by
  refine ⟨keeps_call (o := Op.stat a (.addCounter .resizes 0)) fun w r w' hs hn b => ?_⟩
  obtain ⟨x, hx, he⟩ := Option.map_eq_some_iff.mp hs
  cases he
  by_cases hb : b = a
  · subst hb
    simpa [World.count, World.setStats, StatOp.run, Stats.setCounter] using hn b
  · simpa [World.count, World.setStats, hb] using hn b

theorem World.setStats_self (w : World) (a : Addr) : w.setStats a (w.book.stats a) = w := by
  have hstats : (fun b => if b = a then w.book.stats a else w.book.stats b) = w.book.stats := by
    funext b
    by_cases hb : b = a
    · simp [hb]
    · simp [hb]
  unfold World.setStats
  rw [hstats]

/-- The counter that is added is that of the new table, and it is zero. -/
theorem mergeCounters_noResizes (a nht : Addr) (is : List CounterId) : Has (KeepsNoResizes env) (mergeCounters a nht is) := by
  induction is with
  | nil => exact has_ret ()
  | cons i is ih =>
    rw [mergeCounters]
    by_cases hi : i = .resizes
    · subst hi
      refine has_known (o := Op.stat nht (.getCounter .resizes)) (v := (0 : UInt64)) (fun w r w' hn hs => ?_) ?_
      · obtain ⟨x, hx, he⟩ := Option.map_eq_some_iff.mp hs
        cases he
        exact ⟨hn nht, w.setStats_self nht⟩
      · have hadd := (addZero_noResizes a : Has (KeepsNoResizes env) _)
        exact Has.bind (has_void (htCounterAdd a .resizes 0)) fun _ => ih
    · have hadd : ∀ d, Has (KeepsNoResizes env) (addCounter a i d) := fun d => noResizes_access (by rintro b e ⟨⟩; exact hi rfl)
      infer_instance

section

variable (env)

instance noResizes_mallocHead : Has (KeepsNoResizes env) mallocHead := noResizes_access (by rintro a d ⟨⟩)

instance noResizes_mallocSlab (n : Nat) : Has (KeepsNoResizes env) (mallocSlab n) := noResizes_access (by rintro a d ⟨⟩)

instance noResizes_initHead (a : Addr) (ks : Int) (opts : Options) (t : Threshold) : Has (KeepsNoResizes env) (initHead a ks opts t) :=
  noResizes_access (by rintro b d ⟨⟩)

instance noResizes_initAverage (a : Addr) (i : AverageId) : Has (KeepsNoResizes env) (initAverage a i) :=
  noResizes_access (by rintro b d ⟨⟩)

instance noResizes_initCounter (a : Addr) (i : CounterId) : Has (KeepsNoResizes env) (initCounter a i) :=
  noResizes_access (by rintro b d ⟨⟩)

instance noResizes_addSlabs (a : Addr) (d : UInt64) : Has (KeepsNoResizes env) (addCounter a .slabs d) :=
  noResizes_access (by rintro b e ⟨⟩)

instance noResizes_updateAverage (a : Addr) (i : AverageId) (n m x y : UInt64) :
    Has (KeepsNoResizes env) (updateAverage a i n m x y) := noResizes_access (by rintro b d ⟨⟩)

instance noResizes_incrementAverage (a : Addr) (i : AverageId) (x : UInt64) : Has (KeepsNoResizes env) (incrementAverage a i x) :=
  noResizes_access (by rintro b d ⟨⟩)

end

/-- No call counts a resize. -/
theorem callCode_noResizes (a : Call) : Has (KeepsNoResizes env) (callCode c h a) := by
  have hmerge := @mergeCounters_noResizes env
  have hresize : ∀ n, Has (KeepsNoResizes env) (htResize c h n) := fun n => has_resizeWith c (insertKeyNoResize c) h n
  have hinsert : ∀ k d, Has (KeepsNoResizes env) (htInsertKey c h k d) := fun k d => has_insertKeyWith c (htResize c) h k d
  infer_instance

theorem runCalls_noResizes {n ks : Nat} {opts : Options} {w₀ : World} {as : List Call} {rs : List Reply}
    (hc : Created env n ks opts h w₀) (hrun : runCalls c env h as w₀ = some (rs, w)) : NoResizes w := by
  have hcreate : Has (KeepsNoResizes env) (htCreate n ks opts) := inferInstance
  have h₀ : NoResizes w₀ := hcreate.keeps hc fun a => rfl
  exact runCalls_keeps (K := fun w w' => NoResizes w → NoResizes w') (fun _ hn => hn) (fun _ _ _ h₁ h₂ hn => h₂ (h₁ hn))
    callCode_noResizes as hrun h₀

/-! ## A resize does not change the counter of slabs -/

/-- A run on blocks of which `h` is one keeps its counter of slabs. -/
abbrev KeepsSlabs (env : Env) (h : Addr) : (α : Type) → Code α → Prop :=
  Keeps (step env) fun w w' => h < w.mallocs → h < w'.mallocs ∧ w'.count h .slabs = w.count h .slabs

theorem keepsSlabs_access {o : Op} (ho : o.changes h .slabs = false) : Has (KeepsSlabs env h) (access o) :=
  ⟨keeps_call fun _ _ _ hs hlt => ⟨Nat.lt_of_lt_of_le hlt (mallocs_le_step hs), count_step ho hs⟩⟩

instance keepsSlabs_usual : Usual (KeepsSlabs env h) where
  toModular := keeps_modular (fun _ hlt => ⟨hlt, rfl⟩) fun _ _ _ h₁ h₂ hlt => ⟨(h₂ (h₁ hlt).1).1, (h₂ (h₁ hlt).1).2.trans (h₁ hlt).2⟩
  usual ho := (keepsSlabs_access (Op.changes_of_usual ho (Or.inl rfl))).has

instance keepsSlabs_mallocSlab (n : Nat) : Has (KeepsSlabs env h) (mallocSlab n) := keepsSlabs_access rfl

instance keepsSlabs_initAverage (a : Addr) (i : AverageId) : Has (KeepsSlabs env h) (initAverage a i) := keepsSlabs_access rfl

instance keepsSlabs_updateAverage (a : Addr) (i : AverageId) (n m x y : UInt64) : Has (KeepsSlabs env h) (updateAverage a i n m x y) :=
  keepsSlabs_access rfl

instance keepsSlabs_incrementAverage (a : Addr) (i : AverageId) (x : UInt64) : Has (KeepsSlabs env h) (incrementAverage a i x) :=
  keepsSlabs_access rfl

/-- The counter of another table. -/
theorem keepsSlabs_other {a : Addr} (ha : a ≠ h) : (∀ i, Has (KeepsSlabs env h) (initCounter a i)) ∧
    ∀ i d, Has (KeepsSlabs env h) (addCounter a i d) :=
  ⟨fun i => keepsSlabs_access (by simp [Op.changes, ha]), fun i d => keepsSlabs_access (by simp [Op.changes, ha])⟩

/-- A new table is another one. -/
theorem createTable_gives (a : Addr) (n : Nat) : Gives (step env) (fun r => r = none ∨ r = some a) (createTable a n) := by
  unfold createTable
  refine gives_bind fun failed => ?_
  split
  · exact gives_bind fun _ => gives_ret (Or.inl rfl)
  refine gives_bind fun failed => ?_
  split
  · exact gives_bind fun _ => gives_ret (Or.inl rfl)
  refine gives_bind fun failed => ?_
  split
  · exact gives_bind fun _ => gives_ret (Or.inl rfl)
  refine gives_bind fun slab => gives_bind fun _ => gives_bind fun slabs => gives_bind fun _ => ?_
  cases slabs with
  | none => exact gives_bind fun _ => gives_ret (Or.inl rfl)
  | some s => exact gives_bind fun _ => gives_ret (Or.inr rfl)

theorem htCreate_keepsSlabs {n ks : Nat} {opts : Options} {rest : Option Addr → Code Int} (hnone : Has (KeepsSlabs env h) (rest none))
    (hsome : ∀ nht, nht ≠ h → Has (KeepsSlabs env h) (rest (some nht))) : Has (KeepsSlabs env h) (htCreate n ks opts >>= rest) := by
  by_cases hn : n = 0
  · subst hn
    change Has (KeepsSlabs env h) (setErrno EINVAL >>= fun _ => rest none)
    infer_instance
  constructor
  intro w r w' he hlt
  obtain ⟨nht, w₁, h₁, h₂⟩ := exec_bind_some he
  rcases htCreate_cases hn h₁ with ⟨rfl, e, rfl⟩ | ⟨f, w₀, -, hrun, rfl⟩
  · obtain ⟨hlt₂, hc₂⟩ := hnone.keeps h₂ (Nat.lt_succ_of_lt hlt)
    exact ⟨hlt₂, hc₂⟩
  · have hne : w.mallocs ≠ h := Nat.ne_of_gt hlt
    obtain ⟨hinit, hadd⟩ := @keepsSlabs_other env _ _ hne
    have htable : Has (KeepsSlabs env h) (createTable w.mallocs n) := inferInstance
    obtain ⟨hlt₁, hc₁⟩ := htable.keeps hrun (Nat.lt_succ_of_lt hlt)
    have hrest : Has (KeepsSlabs env h) (rest nht) := by
      rcases createTable_gives _ _ _ _ _ hrun with rfl | rfl
      · exact hnone
      · exact hsome _ hne
    obtain ⟨hlt₂, hc₂⟩ := hrest.keeps h₂ hlt₁
    exact ⟨hlt₂, hc₂.trans hc₁⟩

/-- Merging the other counters does not change it. -/
theorem mergeCounters_keepsSlabs {nht : Addr} {is : List CounterId} (his : CounterId.slabs ∉ is) :
    Has (KeepsSlabs env h) (mergeCounters h nht is) := by
  induction is with
  | nil => exact has_ret ()
  | cons i is ih =>
    have hi : i ≠ .slabs := fun hi => his (by simp [hi])
    have hadd : ∀ d, Has (KeepsSlabs env h) (addCounter h i d) := fun d => keepsSlabs_access (by simp [Op.changes, hi])
    have hrest : Has (KeepsSlabs env h) (mergeCounters h nht is) := ih fun hs => his (List.mem_cons_of_mem i hs)
    rw [mergeCounters]
    infer_instance

/-- `ht_resize` merges the other counters only. -/
theorem htResize_slabs (n : Nat) : Has (KeepsSlabs env h) (htResize c h n) := by
  refine has_resizeWith_of_new (Q := fun nht => nht ≠ h) c (fun rest hnone hsome => ?_) fun nht hne => ?_
  · exact Has.bind inferInstance fun ks => Has.bind inferInstance fun options => htCreate_keepsSlabs hnone hsome
  · obtain ⟨hinit, hadd⟩ := @keepsSlabs_other env _ _ hne
    have hmerge : Has (KeepsSlabs env h) (mergeCounters h nht [.probes, .hits, .errors, .resizes, .inserts, .deletes]) :=
      mergeCounters_keepsSlabs (by decide)
    have hinsert : ∀ k d, Has (KeepsSlabs env h) (insertKeyNoResize c nht k d) := fun k d => by
      unfold insertKeyNoResize
      infer_instance
    infer_instance

/-! ## An insertion counts the slab it adds -/

/-- The blocks that the first `n` calls of `malloc` gave. -/
def Env.got (env : Env) (n : Nat) : Nat := Nat.count (fun k => (env.malloc k).isSome = true) n

/-- The counter of slabs, less the blocks that `malloc` gave. -/
def World.spare (env : Env) (w : World) (h : Addr) : UInt64 := w.count h .slabs - UInt64.ofNat (env.got w.mallocs)

/-- Nothing was allocated, and `d` slabs were counted. -/
structure Level (h : Addr) (d : UInt64) (w w' : World) : Prop where
  mallocs : w'.mallocs = w.mallocs
  slabs : w'.count h .slabs = w.count h .slabs + d
  threshold : DefaultThreshold w h → DefaultThreshold w' h

theorem Level.refl (w : World) : Level h 0 w w := ⟨rfl, by simp, id⟩

theorem Level.trans {d e : UInt64} (h₁ : Level h d w w₁) (h₂ : Level h e w₁ w') : Level h (d + e) w w' :=
  ⟨h₂.mallocs.trans h₁.mallocs, by rw [h₂.slabs, h₁.slabs, UInt64.add_assoc], fun hd => h₂.threshold (h₁.threshold hd)⟩

theorem level_access {o : Op} (hk : o.keepsHeads = true) (hm : ∀ n, o ≠ .mallocSlab n) (hc : o.changes h .slabs = false) :
    Keeps (step env) (Level h 0) o.Res (access o) := by
  refine keeps_call fun w r w' hs => ⟨mallocs_step (by rintro rfl; cases hk) hm hs, ?_, fun hd => ?_⟩
  · rw [count_step hc hs, UInt64.add_zero]
  · exact (headsKept_step hk hs).defaultThreshold hd

instance level_usual : Usual (Keeps (step env) (Level h 0)) where
  toModular := keeps_modular Level.refl fun _ _ _ h₁ h₂ => h₁.trans h₂
  usual {o} ho := level_access (Op.keepsHeads_of_usual ho) (by rintro n rfl; cases ho) (Op.changes_of_usual ho (Or.inl rfl))

theorem addSlabs_level (d : UInt64) : Keeps (step env) (Level h d) Unit (addCounter h .slabs d) := by
  refine keeps_call (o := Op.stat h (.addCounter .slabs d)) fun w r w' hs => ?_
  obtain ⟨x, hx, he⟩ := Option.map_eq_some_iff.mp hs
  cases he
  exact ⟨rfl, by simp [World.count, World.setStats, StatOp.run, Stats.setCounter], id⟩

/-- `d` more slabs were counted than blocks were allocated. -/
def Adds (env : Env) (h : Addr) (d : UInt64) (w w' : World) : Prop :=
  DefaultThreshold w h → DefaultThreshold w' h ∧ w'.spare env h = w.spare env h + d

theorem Level.adds {d : UInt64} (hl : Level h d w w') : Adds env h d w w' := by
  refine fun hd => ⟨hl.threshold hd, ?_⟩
  unfold World.spare
  rw [hl.mallocs, hl.slabs]
  rw [UInt64.sub_eq_add_neg, UInt64.sub_eq_add_neg, UInt64.add_assoc, UInt64.add_comm d, UInt64.add_assoc]

theorem Adds.trans {d e : UInt64} (h₁ : Adds env h d w w₁) (h₂ : Adds env h e w₁ w') : Adds env h (d + e) w w' := by
  intro hd
  obtain ⟨hd₁, he₁⟩ := h₁ hd
  obtain ⟨hd₂, he₂⟩ := h₂ hd₁
  exact ⟨hd₂, by rw [he₂, he₁, UInt64.add_assoc]⟩

/-- Counting no slab. -/
theorem adds_of_level {α : Type} {d : UInt64} {p : Code α} (hp : Keeps (step env) (Level h d) α p) :
    Keeps (step env) (Adds env h d) α p := fun w r w' he => (hp w r w' he).adds

instance adds_usual : Usual (Keeps (step env) (Adds env h 0)) where
  toModular := keeps_modular (fun w => (Level.refl w).adds) fun _ _ _ h₁ h₂ => h₁.trans h₂
  usual ho := adds_of_level (level_usual.usual ho)

section

variable (hz : AllZero env)
include hz

theorem lockCall_gives (o : LockOp) (l : LockId) : Gives (step env) (fun r => r = 0) (lockCall o l) := by
  intro w r w' he
  change (call (.lock o l)).exec (step env) w = some (r, w') at he
  rw [exec_call, step, lockStep] at he
  cases he
  exact hz _ _ _ _

theorem htInitEntries_gives (s i n : Nat) (result : Int) : Gives (step env) (fun r => r = result) (htInitEntries s i n result) := by
  induction n generalizing i with
  | zero => exact gives_ret rfl
  | succ n ih =>
    rw [htInitEntries]
    refine gives_bind fun _ => gives_bind fun _ => gives_bind fun _ => gives_bind fun _ => gives_bind fun f => ?_
    have hinit : Gives (step env) (fun r => r = 0) (guarded (!f.lockInitialized) (rwlockInit (.entry (s, i)))) := by
      unfold guarded
      split
      · exact lockCall_gives hz _ _
      · exact gives_ret rfl
    refine gives_seq hinit fun ret hret => ?_
    rw [if_neg (by simp [hret])]
    exact gives_bind fun _ => gives_bind fun _ => ih (i + 1)

/-- `ht_counter_add` does count. -/
theorem htCounterAdd_level (d : UInt64) : Keeps (step env) (Level h d) Int (htCounterAdd h .slabs d) := by
  have hlock : Has (Keeps (step env) (Level h 0)) (wrlock (.counter h .slabs)) := inferInstance
  have hset : ∀ e, Has (Keeps (step env) (Level h 0)) (setErrno e) := fun e => inferInstance
  have hrest : Has (Keeps (step env) (Level h 0)) (do
      let e ← unlock (.counter h .slabs)
      setErrno e
      if e ≠ 0 then
        return (-2 : Int)
      else
        return 0) := inferInstance
  have hadd : Keeps (step env) (Level h d) Int (addCounter h .slabs d >>= fun _ => do
      let e ← unlock (.counter h .slabs)
      setErrno e
      if e ≠ 0 then
        return (-2 : Int)
      else
        return 0) := keeps_bind (addSlabs_level d) (fun _ => hrest.has) fun _ _ _ h₁ h₂ => by simpa using h₁.trans h₂
  refine keeps_seq hlock.has (lockCall_gives hz _ _) (fun e he => ?_) fun _ _ _ h₁ h₂ => by simpa using h₁.trans h₂
  refine keeps_bind (hset e).has (fun _ => ?_) fun _ _ _ h₁ h₂ => by simpa using h₁.trans h₂
  rw [if_neg (by simp [he])]
  exact hadd

theorem countSlab_level : Keeps (step env) (Level h 1) Unit (void (htCounterAdd h .slabs 1)) :=
  keeps_bind (htCounterAdd_level hz 1) (fun _ => level_usual.ret ()) fun _ _ _ h₁ h₂ => by simpa using h₁.trans h₂

/-- A slab that was allocated is set up. -/
theorem newSlab_level {n : Nat} {slab : Addr} {r : Option Addr} (he : (do
    initSlab slab n
    let n ← getEntrycount slab
    let ret ← htInitEntries slab 0 n 0
    if ret ≠ 0 then
      freeSlab slab
      return none
    else
      return some slab : Code (Option Addr)).exec (step env) w = some (r, w')) : r = some slab ∧ Level h 0 w w' := by
  constructor
  · have hgives : Gives (step env) (fun r => r = some slab) (do
        initSlab slab n
        let n ← getEntrycount slab
        let ret ← htInitEntries slab 0 n 0
        if ret ≠ 0 then
          freeSlab slab
          return none
        else
          return some slab : Code (Option Addr)) := by
      refine gives_bind fun _ => gives_bind fun n => gives_seq (htInitEntries_gives hz slab 0 n 0) fun ret hret => ?_
      rw [if_neg (by simp [hret])]
      exact gives_ret rfl
    exact hgives w r w' he
  · exact Has.keeps he

/-- A new slab is to be counted. -/
theorem htCreateSlab_adds {α : Type} {n : Nat} {f : Option Addr → Code α} (hnone : Keeps (step env) (Adds env h 0) α (f none))
    (hsome : ∀ s, Keeps (step env) (Adds env h 1) α (f (some s))) : Keeps (step env) (Adds env h 0) α (htCreateSlab n >>= f) := by
  by_cases hn : n = 0
  · subst hn
    have hnone' : Has (Keeps (step env) (Adds env h 0)) (f none) := ⟨hnone⟩
    have hempty : Has (Keeps (step env) (Adds env h 0)) (setErrno EINVAL >>= fun _ => f none) := inferInstance
    exact hempty.has
  intro w a w' he
  obtain ⟨slab, w₁, h₁, h₂⟩ := exec_bind_some he
  rw [htCreateSlab, if_neg hn] at h₁
  obtain ⟨x, w₂, h₃, h₄⟩ := exec_bind_some h₁
  change (call (.mallocSlab n)).exec (step env) w = some (x, w₂) at h₃
  rw [exec_call, step] at h₃
  cases hf : env.malloc w.mallocs with
  | none =>
    rw [hf] at h₃
    cases h₃
    cases h₄
    intro hd
    obtain ⟨hd', he'⟩ := hnone _ a w' h₂ hd
    refine ⟨hd', he'.trans ?_⟩
    have hgot : env.got (w.mallocs + 1) = env.got w.mallocs := by
      rw [Env.got, Env.got, Nat.count_succ, hf]
      rfl
    change w.count h .slabs - UInt64.ofNat (env.got (w.mallocs + 1)) + 0 = _
    rw [hgot]
    rfl
  | some g =>
    rw [hf] at h₃
    cases h₃
    obtain ⟨hslab, hlevel⟩ := newSlab_level hz h₄
    subst hslab
    intro hd
    have hd₁ : DefaultThreshold w₁ h := hlevel.threshold hd
    obtain ⟨hd', he'⟩ := hsome _ w₁ a w' h₂ hd₁
    refine ⟨hd', he'.trans ?_⟩
    have hgot : env.got (w.mallocs + 1) = env.got w.mallocs + 1 := by
      rw [Env.got, Env.got, Nat.count_succ, hf]
      rfl
    have hcount : w₁.count h .slabs = w.count h .slabs := hlevel.slabs.trans (UInt64.add_zero _)
    have hmallocs : w₁.mallocs = w.mallocs + 1 := hlevel.mallocs
    rw [World.spare, World.spare, hcount, hmallocs, hgot, UInt64.ofNat_add]
    grind

theorem takeFree_adds (rounds : Nat) : Has (Keeps (step env) (Adds env h 0)) (takeFree h rounds) := by
  induction rounds with
  | zero => exact has_fault
  | succ rounds ih =>
    rw [takeFree]
    refine Has.bind inferInstance fun freechain => ?_
    cases freechain with
    | some ohte => infer_instance
    | none =>
      refine Has.bind inferInstance fun t => Has.bind inferInstance fun n => ⟨htCreateSlab_adds hz ?_ fun s => ?_⟩
      · exact (has_ret none).has
      · have hupdate : ∀ n m x y, Has (Keeps (step env) (Adds env h 0)) (updateAverage h .freechain n m x y) := fun n m x y =>
          ⟨adds_of_level (level_access (o := Op.stat h (.updateAverage .freechain n m x y)) rfl (by rintro n ⟨⟩) rfl)⟩
        have hcount := adds_of_level (countSlab_level hz (h := h))
        have hrest : Has (Keeps (step env) (Adds env h 0)) (do
            let slabs ← getSlabs h
            setSlabNext s slabs
            setSlabs h (some s)
            let count ← getEntrycount s
            dangle h s count
            let count := UInt64.ofNat count
            let fc ← getAverage h .freechain
            void (htAverageUpdate h .freechain 1 count (fc.current + count) (fc.current + count))
            takeFree h rounds) := inferInstance
        exact keeps_bind hcount (fun _ => hrest.has) fun _ _ _ h₁ h₂ => h₁.trans h₂

/-- Inserting counts the slab it adds. -/
theorem htInsertKey_adds (c : Conf) (key data : Nat) : Has (Keeps (step env) (Adds env h 0)) (htInsertKey c h key data) := by
  have htake := takeFree_adds hz (h := h) 2
  have hincrement : ∀ x, Has (Keeps (step env) (Adds env h 0)) (incrementAverage h .freechain x) := fun x =>
    ⟨adds_of_level (level_access (o := Op.stat h (.incrementAverage .freechain x)) rfl (by rintro n ⟨⟩) rfl)⟩
  have hresize : ∀ options, Has (Keeps (step env) (Adds env h 0)) (resizeIfDue c (htResize c) h options) := fun options => by
    refine has_resizeIfDue_default c (htResize c) h options fun f hf => ?_
    refine has_known (I := fun w => DefaultThreshold w h) (o := Op.getThreshold h) (fun w r w' hd hs => ?_) hf
    obtain ⟨x, hx, he⟩ := Option.map_eq_some_iff.mp hs
    cases he
    exact ⟨hd x hx, rfl⟩
  exact has_insertKeyWith c (htResize c) h key data

end

/-! ## The counter of a new table -/

/-- A run that starts before a slab of `h` is counted does not count one. -/
abbrev KeepsZero (env : Env) (h : Addr) : (α : Type) → Code α → Prop :=
  Keeps (step env) fun w w' => w.count h .slabs = 0 → w'.count h .slabs = 0

theorem keepsZero_access {o : Op} (ho : o.changes h .slabs = false) : Has (KeepsZero env h) (access o) :=
  ⟨keeps_call fun _ _ _ hs h0 => (count_step ho hs).trans h0⟩

instance keepsZero_usual : Usual (KeepsZero env h) where
  toModular := keeps_modular (fun _ h0 => h0) fun _ _ _ h₁ h₂ h0 => h₂ (h₁ h0)
  usual ho := (keepsZero_access (Op.changes_of_usual ho (Or.inl rfl))).has

instance keepsZero_mallocSlab (n : Nat) : Has (KeepsZero env h) (mallocSlab n) := keepsZero_access rfl

instance keepsZero_initAverage (a : Addr) (i : AverageId) : Has (KeepsZero env h) (initAverage a i) := keepsZero_access rfl

instance keepsZero_initCounter (a : Addr) (i : CounterId) : Has (KeepsZero env h) (initCounter a i) := by
  refine ⟨keeps_call (o := Op.stat a (.initCounter i)) fun w r w' hs h0 => ?_⟩
  by_cases hc : (Op.stat a (.initCounter i)).changes h .slabs = true
  · obtain ⟨rfl, rfl⟩ : a = h ∧ i = .slabs := by simpa [Op.changes] using hc
    obtain ⟨x, hx, he⟩ := Option.map_eq_some_iff.mp hs
    cases he
    simp [World.count, World.setStats, StatOp.run, Stats.setCounter]
  · rw [count_step (by simpa using hc) hs]
    exact h0

/-- A table that is given has counted one slab. -/
def CountsOne (env : Env) (h : Addr) (p : Code (Option Addr)) : Prop :=
  ∀ w a w', p.exec (step env) w = some (some a, w') → w.count h .slabs = 0 → w'.count h .slabs = 1

theorem countsOne_bind {α : Type} {p : Code α} {f : α → Code (Option Addr)} (hp : Has (KeepsZero env h) p)
    (hf : ∀ x, CountsOne env h (f x)) : CountsOne env h (p >>= f) := by
  intro w a w' he h0
  obtain ⟨x, w₁, h₁, h₂⟩ := exec_bind_some he
  exact hf x w₁ a w' h₂ (hp.keeps h₁ h0)

/-- Where creating ends without a table. -/
theorem countsOne_fail : CountsOne env h (do
    freeHead h
    return none) :=
  countsOne_bind inferInstance fun _ _ _ _ he => nomatch he

theorem createTable_countsOne (hz : AllZero env) (n : Nat) : CountsOne env h (createTable h n) := by
  unfold createTable
  refine countsOne_bind inferInstance fun failed => ?_
  split
  · exact countsOne_fail
  refine countsOne_bind inferInstance fun failed => ?_
  split
  · exact countsOne_fail
  refine countsOne_bind inferInstance fun failed => ?_
  split
  · exact countsOne_fail
  refine countsOne_bind inferInstance fun slab => countsOne_bind inferInstance fun _ => ?_
  refine countsOne_bind inferInstance fun slabs => countsOne_bind inferInstance fun _ => ?_
  cases slabs with
  | none => exact countsOne_fail
  | some s =>
    intro w a w' he h0
    obtain ⟨_, w₁, h₁, h₂⟩ := exec_bind_some he
    cases h₂
    rw [(countSlab_level hz w () w' h₁).slabs, h0]
    rfl

/-- `ht_create` counts the slab of the new table. -/
theorem Created.slabs {n ks : Nat} {opts : Options} (hz : AllZero env) (hc : Created env n ks opts h w) : w.count h .slabs = 1 := by
  have hn : n ≠ 0 := by
    rintro rfl
    cases hc
  rcases htCreate_cases hn hc with ⟨hr, -⟩ | ⟨f, w₀, -, hrun, rfl⟩
  · cases hr
  obtain rfl : h = 0 := by
    rcases createTable_gives _ _ _ _ _ hrun with hr | hr
    · cases hr
    · exact Option.some.inj hr
  exact createTable_countsOne hz n _ _ w hrun rfl

/-! ## One call -/

/-- No duplicates in either list, and the same elements. -/
theorem length_eq_of_same {α : Type} {l l' : List α} (hl : l.Nodup) (hl' : l'.Nodup) (hs : ∀ a, a ∈ l' ↔ a ∈ l) : l'.length = l.length :=
  ((List.perm_ext_iff_of_nodup hl' hl).mpr hs).length_eq

theorem Level.count {d : UInt64} (hl : Level h d w w') (hd : d = 0) : w'.count h .slabs = w.count h .slabs := by
  rw [hl.slabs, hd, UInt64.add_zero]

/-- Where no block was allocated, the table has the slabs it had. -/
theorem After.length_slabs (ha : After c w h S w' S') (ht : Table c w h S) (hm : w'.mallocs = w.mallocs) :
    S'.slabs.length = S.slabs.length := by
  refine length_eq_of_same ht.slabsNodup ha.table.slabsNodup fun a => ⟨fun hs => ?_, ha.kept a⟩
  rcases ha.slabs a hs with hold | hnew
  · exact hold
  · have hlt : a < w.mallocs := hm ▸ ha.fresh.slab_lt (ha.table.hasSlab hs)
    exact absurd hlt (Nat.not_lt.mpr hnew)

/-- An insertion counts what it takes. -/
theorem Supplied.count {key : Nat} {r : Int} (hr : Supplied c env w h S key w' S' r)
    (hs : w'.spare env h = w.spare env h) (hc : w.count h .slabs = UInt64.ofNat S.slabs.length) :
    w'.count h .slabs = UInt64.ofNat S'.slabs.length := by
  have hcount : w'.count h .slabs = w.count h .slabs - UInt64.ofNat (env.got w.mallocs) + UInt64.ofNat (env.got w'.mallocs) := by
    rw [← World.spare, ← hs, World.spare]
    grind
  cases hr with
  | kept hm hsl hf hr =>
    rw [hcount, hm, hsl, ← hc]
    grind
  | grown hf ha hm hsl hf' =>
    have hgot : env.got (w.mallocs + 1) = env.got w.mallocs + 1 := by
      rw [Env.got, Env.got, Nat.count_succ, if_pos (Option.isSome_iff_ne_none.mpr ha)]
    rw [hcount, hm, hsl, hgot, hc, List.length_cons, UInt64.ofNat_add, UInt64.ofNat_add]
    grind
  | failed hf ha hm hsl hocc =>
    have hgot : env.got (w.mallocs + 1) = env.got w.mallocs := by
      rw [Env.got, Env.got, Nat.count_succ, ha]
      rfl
    rw [hcount, hm, hsl, hgot, ← hc]
    grind

/-- Every call but a resize that can build its table leaves the table where it is, and its slabs counted. -/
theorem runCall_counted (hz : AllZero env) (hh : Held c w h S P) (hi : Idle w h) {a : Call} {r : Reply}
    (hr : runCall c env h a w = some (r, w')) (ho : Outcome c env w h S a r.ret w')
    (hc : w.count h .slabs = UInt64.ofNat (w.slabsOf h).length) (hb : ∀ m, a = .resize m → ¬CanBuild c env w h m) :
    w'.count h .slabs = UInt64.ofNat (w'.slabsOf h).length ∧ w'.tableOf h = w.tableOf h := by
  obtain ⟨⟨v, w₁⟩, he, hrep⟩ := Option.map_eq_some_iff.mp hr
  obtain ⟨rfl, rfl⟩ := Prod.mk.inj hrep
  have hlocate : ∀ key, Has (Keeps (step env) (Level h 0)) (callCode c h (.locate key)) := fun key =>
    Has.bind inferInstance fun d => has_pure (d : Int)
  have hdelete : ∀ key, Has (Keeps (step env) (Level h 0)) (callCode c h (.delete key)) := fun key =>
    Has.bind inferInstance fun d => has_pure (d : Int)
  rw [hh.table.slabsOf hh.fresh] at hc
  rw [hh.table.tableOf]
  dsimp only at ho he ⊢
  cases ho with
  | @insert key data _ _ hr =>
    obtain ⟨S', ha, -, hsup, -⟩ := hr.after hh.fresh hh.table hi
    have hadds := (htInsertKey_adds hz c key data).keeps he hh.table.defaultThreshold
    rw [ha.table.slabsOf ha.fresh, ha.table.tableOf]
    exact ⟨hsup.count (hadds.2.trans (UInt64.add_zero _)) hc, ha.sameTable⟩
  | @delete key _ _ hr =>
    obtain ⟨S', ha, -, -⟩ := hr.after hh.fresh hh.table hi
    have hl := (hdelete key).keeps he
    rw [ha.table.slabsOf ha.fresh, ha.table.tableOf, ha.length_slabs hh.table hl.mallocs, hl.count rfl]
    exact ⟨hc, ha.sameTable⟩
  | @locate key _ _ hr =>
    obtain ⟨ha, -, -⟩ := hr.after hh.fresh hh.table hi
    have hl := (hlocate key).keeps he
    rw [ha.table.slabsOf ha.fresh, ha.table.tableOf, hl.count rfl]
    exact ⟨hc, rfl⟩
  | @resizeKept n _ _ P' hr =>
    have hl := (htResize_slabs n).keeps he hh.head_lt
    rw [hr.held.table.slabsOf hr.held.fresh, hr.held.table.tableOf, hl.2]
    exact ⟨hc, rfl⟩
  | resizeDone hr => exact absurd (hh.table.canBuild.mpr hr.builds) (hb _ rfl)

/-- A resize that can build its table puts it in use. -/
theorem runCall_replaces (hz : AllZero env) (hnull : NullFill env) (hh : Held c w h S P) (hi : Idle w h) {m : Nat}
    (hb : CanBuild c env w h m) : ∃ r w', runCall c env h (.resize m) w = some (r, w') ∧ w'.tableOf h ≠ w.tableOf h := by
  obtain ⟨r, w', he, hcase⟩ := htResize_fresh hz.ok hnull hh hi m
  refine ⟨⟨r, w'.book.errno⟩, w', ?_, ?_⟩
  · rw [runCall, show (callCode c h (.resize m)).exec (step env) w = _ from he]
    rfl
  · rcases hcase with ⟨P', hk⟩ | ⟨S', P', hnew, hd⟩
    · exact absurd (hh.table.canBuild.mp hb) hk.builds
    · rw [hd.held.table.tableOf, hh.table.tableOf]
      exact Nat.ne_of_gt (Nat.lt_of_lt_of_le (hh.slab_lt hh.table.ok.tableMem) hnew)

/-! ## Sequences of calls -/

/-- The calls after which `ht->table` is another block. -/
def replacements (c : Conf) (env : Env) (h : Addr) : List Call → World → Nat
  | [], _ => 0
  | a :: as, w =>
    match runCall c env h a w with
    | none => 0
    | some (_, w₁) => (if w₁.tableOf h = w.tableOf h then 0 else 1) + replacements c env h as w₁

/-- Both counters say what they count, after the calls `as` on the table made in `w₀`. -/
structure Counted (c : Conf) (env : Env) (h : Addr) (w₀ : World) (as : List Call) (w : World) : Prop where
  slabs : w.count h .slabs = UInt64.ofNat (w.slabsOf h).length
  resizes : w.count h .resizes = UInt64.ofNat (replacements c env h as w₀)

theorem replacements_snoc {a : Call} {r : Reply} {as : List Call} : ∀ {rs : List Reply} {w w₁ : World},
    runCalls c env h as w = some (rs, w₁) → runCall c env h a w₁ = some (r, w') →
    replacements c env h (as ++ [a]) w = replacements c env h as w + if w'.tableOf h = w₁.tableOf h then 0 else 1 := by
  induction as with
  | nil =>
    intro rs w w₁ hrun hr
    cases hrun
    simp [replacements, hr]
  | cons b as ih =>
    intro rs w w₁ hrun hr
    rw [runCalls] at hrun
    cases hb : runCall c env h b w with
    | none => simp [hb] at hrun
    | some x =>
      obtain ⟨q, w₂⟩ := x
      simp only [hb, Option.map_eq_some_iff, Prod.mk.injEq] at hrun
      obtain ⟨⟨rs', w₃⟩, hrun', rfl, rfl⟩ := hrun
      rw [List.cons_append, replacements, replacements, hb]
      dsimp only
      rw [ih hrun' hr, Nat.add_assoc]

theorem Created.slabsOf {n ks : Nat} {opts : Options} (hok : LockOk env) (hnull : NullFill env) (hc : Created env n ks opts h w) :
    w.slabsOf h = [1] := by
  rcases (htCreate_spec hok World.empty_fresh n ks opts).post hc with ⟨hr, -⟩ | ⟨f, g, b, hn, hf, hg, hr, -, rfl⟩
  · cases hr
  obtain rfl : h = 0 := Option.some.inj hr
  rw [(hnull _ f hf).1, (hnull _ g hg).2]
  have hh := World.empty_bare.newTable (c := Conf.sample) hn ks opts b
  exact hh.table.slabsOf hh.fresh

section

variable {n ks : Nat} {opts : Options} {w₀ : World} (hz : AllZero env) (hnull : NullFill env) (hc : Created env n ks opts h w₀)
include hz hnull hc

/-- The state before the last call, and the call. -/
theorem runCalls_last {as : List Call} {a : Call} {rs : List Reply} (hrun : runCalls c env h (as ++ [a]) w₀ = some (rs, w)) :
    ∃ rs₁ w₁ S P r, runCalls c env h as w₀ = some (rs₁, w₁) ∧ Held c w₁ h S P ∧ Idle w₁ h ∧
      runCall c env h a w₁ = some (r, w) ∧ Outcome c env w₁ h S a r.ret w := by
  obtain ⟨S₀, hh₀, hi₀, -⟩ := hc.held (c := c) hz.ok hnull
  obtain ⟨rs₁, w₁, S, P, hrun₁, hk⟩ := runCalls_kept hz.ok hnull as hh₀ hi₀
  obtain ⟨r, w', hr, -, ho⟩ := runCall_spec hz.ok hnull hk.held hk.idle a
  have hall := runCalls_snoc hrun₁ hr
  rw [hrun] at hall
  cases hall
  exact ⟨rs₁, w₁, S, P, r, hrun₁, hk.held, hk.idle, hr, ho⟩

/-- As long as no resize can build its table, no table is replaced and every slab is counted. -/
theorem runCalls_counted (as : List Call) : (∀ as₁ m, as₁ ++ [.resize m] <+: as → ∀ rs w, runCalls c env h as₁ w₀ = some (rs, w) →
      ¬CanBuild c env w h m) → ∀ rs w, runCalls c env h as w₀ = some (rs, w) →
    w.count h .slabs = UInt64.ofNat (w.slabsOf h).length ∧ replacements c env h as w₀ = 0 := by
  induction as using List.reverseRecOn with
  | nil =>
    intro _ rs w hrun
    cases hrun
    rw [hc.slabs hz, hc.slabsOf hz.ok hnull]
    exact ⟨rfl, rfl⟩
  | append_singleton as a ih =>
    intro hb rs w hrun
    obtain ⟨rs₁, w₁, S, P, r, hrun₁, hh, hi, hr, ho⟩ := runCalls_last hz hnull hc hrun
    have hpre : as <+: as ++ [a] := List.prefix_append as [a]
    obtain ⟨hslabs, hrep⟩ := ih (fun as₁ m hm => hb as₁ m (hm.trans hpre)) rs₁ w₁ hrun₁
    obtain ⟨hslabs', htable⟩ := runCall_counted hz hh hi hr ho hslabs fun m hm => by
      subst hm
      exact hb as m (List.prefix_refl _) rs₁ w₁ hrun₁
    rw [replacements_snoc hrun₁ hr, hrep, if_pos htable]
    exact ⟨hslabs', rfl⟩

/-- Both counters are right after every prefix of the calls if and only if no call is a resize that can build its table: such a resize puts
the new table in use and does not count itself. -/
theorem counted_iff (as : List Call) :
    (∀ as₁, as₁ <+: as → ∀ rs w, runCalls c env h as₁ w₀ = some (rs, w) → Counted c env h w₀ as₁ w) ↔
      ∀ as₁ m, as₁ ++ [.resize m] <+: as → ∀ rs w, runCalls c env h as₁ w₀ = some (rs, w) → ¬CanBuild c env w h m := by
  constructor
  · intro hall as₁ m hpre rs w hrun hb
    obtain ⟨S₀, hh₀, hi₀, -⟩ := hc.held (c := c) hz.ok hnull
    obtain ⟨rs', w', S, P, hrun', hk⟩ := runCalls_kept hz.ok hnull as₁ hh₀ hi₀
    rw [hrun] at hrun'
    cases hrun'
    obtain ⟨r, w', hr, hne⟩ := runCall_replaces hz hnull hk.held hk.idle hb
    have hrun₁ := runCalls_snoc hrun hr
    have h₁ := (hall as₁ ((List.prefix_append as₁ _).trans hpre) rs w hrun).resizes
    have h₂ := (hall _ hpre _ w' hrun₁).resizes
    rw [runCalls_noResizes hc hrun h] at h₁
    rw [runCalls_noResizes hc hrun₁ h, replacements_snoc hrun hr, if_neg hne, UInt64.ofNat_add, ← h₁] at h₂
    cases h₂
  · intro hb as₁ hpre rs w hrun
    obtain ⟨hslabs, hrep⟩ := runCalls_counted hz hnull hc as₁ (fun as₂ m hm => hb as₂ m (hm.trans hpre)) rs w hrun
    refine ⟨hslabs, ?_⟩
    rw [hrep, runCalls_noResizes hc hrun h]
    rfl

end

/-- A table on which keys are only inserted, deleted and located counts its slabs. -/
theorem counted_iff_sample : ∃ w₀, Created (Env.allZero fun _ => true) 1 1 ⟨true, true⟩ 0 w₀ ∧
    ∀ as₁, as₁ <+: [.insert 1 10, .insert 1 20, .delete 1] → ∀ rs w,
      runCalls .sample (Env.allZero fun _ => true) 0 as₁ w₀ = some (rs, w) →
      Counted .sample (Env.allZero fun _ => true) 0 w₀ as₁ w := by
  have hz := Env.allZero_allZero fun _ => true
  have hnull := Env.allZero_nullFill fun _ => true
  obtain ⟨w₀, hc⟩ := created_of_got (n := 1) hz.ok (by decide) 1 ⟨true, true⟩ (by simp [Env.allZero]) (by simp [Env.allZero])
  refine ⟨w₀, hc, (counted_iff hz hnull hc _).mpr fun as₁ m hpre => ?_⟩
  have hmem : Call.resize m ∈ [Call.insert 1 10, .insert 1 20, .delete 1] := hpre.subset (by simp)
  simp at hmem

/-- A resize puts a new table in use and counts neither itself nor the slab of the new table. -/
theorem not_counted : ¬∀ (c : Conf) (env : Env) (n ks : Nat) (opts : Options) (h : Addr) (w₀ : World) (as : List Call) (rs : List Reply)
    (w : World), AllZero env → NullFill env → Created env n ks opts h w₀ → runCalls c env h as w₀ = some (rs, w) →
    Counted c env h w₀ as w := by
  intro H
  have hz := Env.allZero_allZero fun _ => true
  have hnull := Env.allZero_nullFill fun _ => true
  obtain ⟨w₀, rs, w, hc, hrun⟩ := exists_run (c := .sample) (n := 1) hz.ok hnull (by decide) 1 ⟨true, true⟩
    (by simp [Env.allZero]) (by simp [Env.allZero]) [.insert 1 10, .insert 2 20, .resize 3]
  have hcounted := (H .sample _ 1 1 ⟨true, true⟩ 0 w₀ _ rs w hz hnull hc hrun).slabs
  have hrep : (createRun .sample (Env.allZero fun _ => true) 1 1 ⟨true, true⟩ [.insert 1 10, .insert 2 20, .resize 3]).map
      (fun x => (x.2.count 0 .slabs, x.2.slabsOf 0)) = some (2, [4]) := by
    set_option maxRecDepth 4000 in decide
  rw [hc.run, hrun, Option.map_some, Option.some.injEq, Prod.mk.injEq] at hrep
  rw [hrep.1, hrep.2] at hcounted
  cases hcounted

end ZfsTest.Hashtable
