import ZfsTest.Hashtable.Zeroed

/-!
# Clients of the library
-/

namespace ZfsTest.Hashtable

open Prog

variable {c : Conf} {env env' : Env} {w w' : World} {h : Addr}

/-! ## Calls -/

/-- A call of the library. -/
inductive ApiCall
  | create (numents keysize : Nat) (options : Options)
  | on (h : Addr) (a : Call)
  | destroy (h : Addr)

/-- What a call returns: the table made, or a value. -/
inductive Answer
  | table (h : Option Addr)
  | value (r : Int)
  deriving DecidableEq, Repr

section

variable (c : Conf)

def apiCode : ApiCall → Code Answer
  | .create n ks opts => do
    let h ← htCreate n ks opts
    return .table h
  | .on h a => do
    let r ← callCode c h a
    return .value r
  | .destroy h => do
    let r ← htDestroy h
    return .value r

/-- Calls one after the other; the client reads `errno` after each. -/
def apiRun : List ApiCall → Code (List (Answer × Int))
  | [] => return []
  | a :: as => do
    let r ← apiCode c a
    let e ← getErrno
    let rs ← apiRun as
    return (r, e) :: rs

end

/-! ## Fresh memory -/

/-- The bytes of fresh blocks that become `ht->old` of the head of `ht_create`, and `header.next` of the first slab of a new table,
are null. -/
def FreshNull (env : Env) : ApiCall → World → Prop
  | .create _ _ _, w => (∀ f, env.malloc w.mallocs = some f → f.head.old = none) ∧
      ∀ f, env.malloc (w.mallocs + 1) = some f → f.next = none
  | .on _ (.resize _), w => ∀ f, env.malloc (w.mallocs + 1) = some f → f.next = none
  | _, _ => True

/-- So in every call of a run. -/
def RunNull (c : Conf) (env : Env) : List ApiCall → World → Prop
  | [], _ => True
  | a :: as, w => FreshNull env a w ∧ ∀ r w', (apiCode c a).exec (step env) w = some (r, w') → RunNull c env as w'

theorem callCode_pair (a : Call) : Alike env (fun w w' => Both Tidy w w' ∧ FreshNull env (.on h a) w) (callCode c h a)
    fun _ => Both Tidy := by
  have hindep : ∀ {p : Code Int} {Q : World → Prop}, Indep env p → Alike env (fun w w' => Both Tidy w w' ∧ Q w) p fun _ => Both Tidy :=
    fun hp => pair_mono hp.pair (fun _ _ hb => hb.1) fun _ _ _ hb => hb
  cases a with
  | insert key data => exact hindep (sameRuns_htInsertKey c h key data).has
  | delete key => exact hindep (Same.bind inferInstance fun d => same_pure (d : Int))
  | locate key => exact hindep (Same.bind inferInstance fun d => same_pure (d : Int))
  | resize n =>
    intro s t hst
    exact htResize_pair c h n s.mallocs hst.2 s t (agree_both.mpr ⟨hst.1, rfl⟩)

theorem apiCode_pair (a : ApiCall) : Alike env (fun w w' => Both Tidy w w' ∧ FreshNull env a w) (apiCode c a) fun _ => Both Tidy := by
  cases a with
  | create n ks opts =>
    intro s t hst
    have hcreate := htCreate_pair n ks s.mallocs opts true (fun _ => hst.2.1) hst.2.2
    refine pair_bind hcreate (fun r => pair_ret fun w w' hr => ?_) s t (agree_both.mpr ⟨hst.1, rfl⟩)
    exact (agree_both.mp hr.1).1
  | on h a => exact pair_bind (callCode_pair a) fun r => pair_ret fun _ _ hb => hb
  | destroy h => exact pair_mono (Same.bind inferInstance fun r => same_pure (Answer.value r)).pair (fun _ _ hb => hb.1) fun _ _ _ hb => hb

theorem apiRun_pair (as : List ApiCall) :
    Alike env (fun w w' => Both Tidy w w' ∧ RunNull c env as w) (apiRun c as) fun _ => Both Tidy := by
  induction as with
  | nil => exact pair_ret fun _ _ hb => hb.1
  | cons a as ih =>
    have hcall : Alike env (fun w w' => Both Tidy w w' ∧ RunNull c env (a :: as) w) (apiCode c a) fun _ => Both Tidy :=
      pair_mono (apiCode_pair a) (fun _ _ hb => ⟨hb.1, hb.2.1⟩) fun _ _ _ hb => hb
    refine pair_bind (pair_reached hcall fun s t hst r s' he => hst.2.2 r s' he) fun r => ?_
    refine pair_bind (M := fun _ w w' => Both Tidy w w' ∧ RunNull c env as w) (pair_call ?_) fun e => ?_
    · rintro s _ ⟨⟨rfl, ht⟩, hn⟩
      exact ⟨rfl, ⟨rfl, ht⟩, hn⟩
    · exact pair_bind ih fun rs => pair_ret fun _ _ hb => hb

/-! ## Clients that hold one table at a time -/

/-- The client holds no table, holds `h`, or could not destroy `h` completely. -/
inductive Client
  | idle
  | live (h : Addr)
  | broken (h : Addr)

/-- The calls a client may make. -/
def Client.allows : Client → ApiCall → Prop
  | .idle, .create _ _ _ => True
  | .live h, .on g _ => g = h
  | .live h, .destroy g => g = h
  | .broken h, .destroy g => g = h
  | _, _ => False

/-- The client after a call. -/
def Client.after : Client → ApiCall → Answer → Client
  | _, .create _ _ _, .table (some h) => .live h
  | _, .destroy h, .value r => if r = 0 then .idle else .broken h
  | cl, _, _ => cl

/-- The client after a run. -/
def Client.afterRun : Client → List ApiCall → List (Answer × Int) → Client
  | cl, a :: as, r :: rs => (cl.after a r.1).afterRun as rs
  | cl, _, _ => cl

/-- Every call of the run is one the client may make. -/
def Disciplined (c : Conf) (env : Env) : Client → List ApiCall → World → Prop
  | _, [], _ => True
  | cl, a :: as, w => cl.allows a ∧ ∀ r w', (apiCode c a).exec (step env) w = some (r, w') → Disciplined c env (cl.after a r) as w'

/-- The allocated blocks are those that `ht_destroy` of `h` goes through: the heads on `ht->old`, each with its slabs. -/
structure Owns (w : World) (h : Addr) (P : List (Addr × List Addr)) : Prop where
  chain : OldChain w (some h) P
  heads : ∀ a, w.hasHead a = true ↔ a ∈ P.map Prod.fst
  slabs : ∀ a, w.hasSlab a = true ↔ ∃ x ∈ P, a ∈ x.2

/-- What is allocated. -/
def Client.Holds : Client → World → Prop
  | .idle, w => ∀ a, w.hasHead a = false ∧ w.hasSlab a = false
  | .live h, w | .broken h, w => ∃ P, Owns w h P

/-! ## The invariant of a client -/

/-- What a client relies on between two calls. -/
def Client.Inv (c : Conf) : Client → World → Prop
  | .idle, w => w.Bare
  | .live h, w => ∃ S P, Held c w h S P ∧ Idle w h
  | .broken h, w => w.Fresh ∧ ∃ P, Owns w h P

/-- What `ht_destroy` would go through is what is allocated. -/
theorem Held.owns {S : Shape} {P : List (Addr × List Addr)} (hh : Held c w h S P) (hi : Idle w h) : Owns w h ((h, S.slabs) :: P) := by
  refine ⟨⟨⟨rfl, hh.old.chain⟩, ?_, ?_⟩, fun a => ⟨fun ha => ?_, fun ha => ?_⟩, fun a => ⟨fun ha => ?_, fun ha => ?_⟩⟩
  · intro x hx
    rcases List.mem_cons.mp hx with rfl | hx
    · exact hh.table.oldTable hi.table
    · exact hh.old.tables x hx
  · exact hh.nodup
  · rcases hh.heads a ha with rfl | ha
    · exact List.mem_cons_self
    · exact List.mem_cons_of_mem _ ha
  · rcases List.mem_cons.mp ha with rfl | ha
    · exact hh.table.head
    · obtain ⟨x, hx, rfl⟩ := List.mem_map.mp ha
      exact (hh.old.tables x hx).stats.head
  · rcases hh.slabs a ha with ha | ⟨x, hx, ha⟩
    · exact ⟨_, List.mem_cons_self, ha⟩
    · exact ⟨x, List.mem_cons_of_mem _ hx, ha⟩
  · obtain ⟨x, hx, ha⟩ := ha
    rcases List.mem_cons.mp hx with rfl | hx
    · exact hh.table.hasSlab ha
    · exact ((hh.old.tables x hx).slabs.live a ha).1

theorem Client.Inv.holds {cl : Client} (hi : cl.Inv c w) : cl.Holds w := by
  cases cl with
  | idle => exact hi.2
  | live h =>
    obtain ⟨S, P, hh, hI⟩ := hi
    exact ⟨_, hh.owns hI⟩
  | broken h => exact hi.2

theorem Owns.lt {P : List (Addr × List Addr)} (ho : Owns w h P) (hw : w.Fresh) {a : Addr} (ha : a ∈ blocksOf P) : a < w.mallocs := by
  obtain ⟨x, hx, rfl | ha⟩ := mem_blocksOf.mp ha
  · exact hw.head_lt (ho.chain.tables x hx).stats.head
  · exact hw.slab_lt ((ho.chain.tables x hx).slabs.live a ha).1

/-- `ht_destroy` frees everything that is allocated, or leaves a table that can be destroyed again. -/
theorem Owns.destroy {P : List (Addr × List Addr)} (hok : LockOk env) (hw : w.Fresh) (ho : Owns w h P) :
    wp env (htDestroy h) (fun r w' => (if r = 0 then Client.idle else Client.broken h).Inv c w') w := by
  obtain ⟨ss, P, rfl⟩ : ∃ ss P', P = (h, ss) :: P' := by
    cases P with
    | nil => cases ho.chain.chain
    | cons x P =>
      obtain rfl : x.1 = h := Option.some.inj ho.chain.chain.1.symm
      exact ⟨x.2, P, rfl⟩
  apply wp_mono (htDestroy_spec hok hw ho.chain)
  rintro r w' ⟨honly, hrest, -⟩
  have hfresh : w'.Fresh := honly.fresh (fun b hb => ho.lt hw hb) hw
  rcases hrest with ⟨rfl, hgone⟩ | ⟨hr, P', hP', hleft⟩
  · rw [if_pos rfl]
    refine ⟨hfresh, fun a => ⟨?_, ?_⟩⟩
    · rw [Bool.eq_false_iff]
      intro ha
      obtain ⟨x, hx, rfl⟩ := List.mem_map.mp ((ho.heads a).mp (honly.heads a ha))
      simp [World.hasHead, (hgone x hx).1] at ha
    · rw [Bool.eq_false_iff]
      intro ha
      obtain ⟨x, hx, hs⟩ := (ho.slabs a).mp (honly.slabs a ha)
      simp [World.hasSlab, (hgone x hx).2 a hs] at ha
  · rw [if_neg hr]
    refine ⟨hfresh, P', hP', fun a => ⟨fun ha => ?_, fun ha => ?_⟩, fun a => ⟨fun ha => ?_, fun ha => ?_⟩⟩
    · obtain ⟨x, hx, rfl⟩ := List.mem_map.mp ((ho.heads a).mp (honly.heads a ha))
      exact hleft.heads x hx ha
    · obtain ⟨x, hx, rfl⟩ := List.mem_map.mp ha
      exact (hP'.tables x hx).stats.head
    · obtain ⟨x, hx, hs⟩ := (ho.slabs a).mp (honly.slabs a ha)
      exact hleft.slabs x hx a hs ha
    · obtain ⟨x, hx, ha⟩ := ha
      exact ((hP'.tables x hx).slabs.live a ha).1

/-- A call that the client may make returns, and keeps the invariant. -/
theorem Client.Inv.call {cl : Client} {a : ApiCall} (hok : LockOk env) (hnull : NullFill env) (hi : cl.Inv c w) (ha : cl.allows a) :
    wp env (apiCode c a) (fun r w' => (cl.after a r).Inv c w') w := by
  cases cl with
  | idle =>
    cases a with
    | create n ks opts =>
      apply wp_spec (htCreate_spec hok hi.1 n ks opts)
      rintro r w' (⟨rfl, hfail, -⟩ | ⟨f, g, b, hn, hf, hg, rfl, -, rfl⟩)
      · refine wp_ret.mpr ⟨hfail.fresh, fun x => ?_⟩
        rw [World.hasHead, World.hasSlab, hfail.heads, hfail.slabs]
        exact hi.2 x
      · rw [(hnull _ f hf).1, (hnull _ g hg).2]
        have hI := @newTable_idle w n ks opts none none
        exact wp_ret.mpr ⟨_, [], hi.newTable hn ks opts b, hI.table, hI.free, hI.resize⟩
    | on h a => cases ha
    | destroy h => cases ha
  | live h =>
    obtain ⟨S, P, hh, hI⟩ := hi
    cases a with
    | create n ks opts => cases ha
    | on g a =>
      obtain rfl : g = h := ha
      refine wp_spec (callCode_spec hok hnull hh hI a) fun r w' hr => wp_ret.mpr ?_
      obtain ⟨S', P', hk, -⟩ := hr.kept hh hI
      exact ⟨S', P', hk.held, hk.idle⟩
    | destroy g =>
      obtain rfl : g = h := ha
      exact wp_spec ((hh.owns hI).destroy hok hh.fresh) fun r w' hr => wp_ret.mpr hr
  | broken h =>
    obtain ⟨hw, P, ho⟩ := hi
    cases a with
    | create n ks opts => cases ha
    | on g a => cases ha
    | destroy g =>
      obtain rfl : g = h := ha
      exact wp_spec (ho.destroy hok hw) fun r w' hr => wp_ret.mpr hr

/-! ## Runs -/

theorem Env.nulled_nullFill (env : Env) : NullFill env.nulled := by
  intro n f hf
  obtain ⟨g, -, rfl⟩ := Option.map_eq_some_iff.mp hf
  exact ⟨rfl, rfl⟩

/-- A disciplined run ends, and leaves what the client holds. -/
theorem apiRun_inv (hok : LockOk env) (as : List ApiCall) : ∀ {cl : Client} {w : World}, Tidy w → RunNull c env as w → cl.Inv c w →
    Disciplined c env cl as w → ∃ rs w', (apiRun c as).exec (step env) w = some (rs, w') ∧ (cl.afterRun as rs).Inv c w' := by
  induction as with
  | nil => exact fun _ _ hi _ => ⟨[], _, rfl, hi⟩
  | cons a as ih =>
    intro cl w ht hn hi hd
    -- the call runs as it does over zeroed memory, where the invariant is kept
    obtain ⟨htr, htidy⟩ := (apiCode_pair a).trace_eq (s := w) ⟨⟨rfl, ht⟩, hn.1⟩
    obtain ⟨r, w₁, he, hi₁⟩ := @Client.Inv.call c env.nulled w cl a hok env.nulled_nullFill hi hd.1
    have he' : (apiCode c a).exec (step env) w = some (r, w₁) := by
      rw [← trace_snd, htr, trace_snd]
      exact he
    obtain ⟨rs, w', hrun, hi'⟩ := ih (htidy r w₁ he') (hn.2 r w₁ he') hi₁ (hd.2 r w₁ he')
    refine ⟨(r, w₁.book.errno) :: rs, w', ?_, hi'⟩
    have hrest : (do
        let rs ← apiRun c as
        return (r, w₁.book.errno) :: rs : Code (List (Answer × Int))).exec (step env) w₁ = some ((r, w₁.book.errno) :: rs, w') := by
      rw [exec_bind, hrun]
      rfl
    rw [apiRun, exec_bind, he']
    exact hrest

/-- The environments differ only in what `malloc` leaves in fresh blocks. -/
structure DifferInFill (env env' : Env) : Prop where
  lockRet : env'.lockRet = env.lockRet
  malloc : ∀ n, (env'.malloc n).isSome = (env.malloc n).isSome

theorem DifferInFill.nulled_eq (hd : DifferInFill env env') : env'.nulled = env.nulled := by
  have hm : ∀ n, (env'.malloc n).map (fun _ => Fill.zero) = (env.malloc n).map fun _ => Fill.zero := by
    intro n
    have hs := hd.malloc n
    cases hx : env.malloc n with
    | none =>
      rw [hx] at hs
      rw [Option.isSome_eq_false_iff.mp hs |> Option.isNone_iff_eq_none.mp]
    | some f =>
      rw [hx] at hs
      obtain ⟨g, hg⟩ := Option.isSome_iff_exists.mp hs
      rw [hg]
      rfl
  unfold Env.nulled
  rw [hd.lockRet]
  simp only [hm]

theorem tidy_empty : Tidy World.empty := fun _ _ hx => by cases hx

theorem apiRun_nulled {as : List ApiCall} (hn : RunNull c env as World.empty) :
    trace (step env) (apiRun c as) World.empty = trace (step env.nulled) (apiRun c as) World.empty :=
  ((apiRun_pair as).trace_eq ⟨⟨rfl, tidy_empty⟩, hn⟩).1

/-- Runs of the same calls that differ only in fresh memory, with null pointers where the library does not write it: they make the
same accesses and return the same, as if fresh memory were zero; and a client that holds one table at a time never faults and
always finds allocated exactly what `ht_destroy` goes through, so that nothing is left once it returns `0`. -/
theorem apiRun_independent (hd : DifferInFill env env') (as : List ApiCall) (hn : RunNull c env as World.empty)
    (hn' : RunNull c env' as World.empty) :
    trace (step env) (apiRun c as) World.empty = trace (step env') (apiRun c as) World.empty ∧
    trace (step env) (apiRun c as) World.empty = trace (step env.nulled) (apiRun c as) World.empty ∧
    (LockOk env → Disciplined c env .idle as World.empty →
      ∃ rs w, (apiRun c as).exec (step env) World.empty = some (rs, w) ∧ (Client.idle.afterRun as rs).Holds w) := by
  refine ⟨?_, apiRun_nulled hn, fun hok hdisc => ?_⟩
  · rw [apiRun_nulled hn, apiRun_nulled hn', hd.nulled_eq]
  · obtain ⟨rs, w, hrun, hi⟩ := @apiRun_inv c env hok as .idle _ tidy_empty hn World.empty_bare hdisc
    exact ⟨rs, w, hrun, hi.holds⟩

theorem NullFill.runNull (hn : NullFill env) (as : List ApiCall) : ∀ w, RunNull c env as w := by
  induction as with
  | nil => exact fun _ => trivial
  | cons a as ih =>
    intro w
    refine ⟨?_, fun _ w' _ => ih w'⟩
    cases a with
    | create n ks opts => exact ⟨fun f hf => (hn _ f hf).1, fun f hf => (hn _ f hf).2⟩
    | on h a =>
      cases a with
      | resize n => exact fun f hf => (hn _ f hf).2
      | _ => trivial
    | destroy h => trivial

/-- Calls on a table the client holds, and its destruction. -/
theorem disciplined_live (as : List Call) : ∀ w, Disciplined c env (.live h) (as.map (.on h) ++ [.destroy h]) w := by
  induction as with
  | nil => exact fun _ => ⟨rfl, fun _ _ _ => trivial⟩
  | cons a as ih => exact fun w => ⟨rfl, fun _ w' _ => ih w'⟩

/-- The life of a table that `ht_create` returned as `h`. -/
theorem disciplined_create {n ks : Nat} {opts : Options}
    (hmade : ((apiCode c (.create n ks opts)).exec (step env) World.empty).map Prod.fst = some (.table (some h))) (as : List Call) :
    Disciplined c env .idle (.create n ks opts :: as.map (.on h) ++ [.destroy h]) World.empty := by
  refine ⟨trivial, fun r w' he => ?_⟩
  rw [he] at hmade
  obtain rfl : r = .table (some h) := Option.some.inj hmade
  exact disciplined_live as w'

/-- Fresh blocks are filled with `f`, and every lock call returns `0`. -/
def Env.filled (f : Fill) : Env where
  malloc _ := some f
  lockRet _ _ _ _ := 0

/-- A block that was in use, with a null pointer where the library does not write. -/
def Fill.used : Fill where
  head := ⟨9, ⟨true, true⟩, none, some 9, some 9, some (9, 9), none⟩
  next := none
  entrycount := 9
  entry _ := ⟨some (9, 9), 9, 9, ⟨true, true⟩⟩

/-- A block with something else where `ht->old` of a head lies. -/
def Fill.stray : Fill := { Fill.zero with head := { Fill.zero.head with old := some 9 } }

/-- A table is made, filled, resized and destroyed. -/
def lifetime : List ApiCall :=
  .create 2 1 ⟨false, false⟩ :: [.insert 5 50, .insert 7 70, .locate 7, .resize 3, .delete 5].map (.on 0) ++ [.destroy 0]

theorem apiRun_independent_lifetime : DifferInFill (Env.filled .zero) (Env.filled .used) ∧
    trace (step (Env.filled .zero)) (apiRun .sample lifetime) World.empty =
      trace (step (Env.filled .used)) (apiRun .sample lifetime) World.empty ∧
    ∃ rs w, (apiRun .sample lifetime).exec (step (Env.filled .zero)) World.empty = some (rs, w) ∧
      (Client.idle.afterRun lifetime rs).Holds w := by
  have hd : DifferInFill (Env.filled .zero) (Env.filled .used) := ⟨rfl, fun _ => rfl⟩
  have hn : NullFill (Env.filled .zero) := fun _ f hf => by cases hf; exact ⟨rfl, rfl⟩
  have hn' : NullFill (Env.filled .used) := fun _ f hf => by cases hf; exact ⟨rfl, rfl⟩
  obtain ⟨heq, -, hholds⟩ := apiRun_independent hd lifetime (hn.runNull lifetime _) (hn'.runNull lifetime _)
  exact ⟨hd, heq, hholds (fun _ _ _ _ _ => rfl) (disciplined_create (by decide) _)⟩

/-- Garbage in `ht->old`: `ht_destroy` follows it. -/
theorem not_apiRun_independent : ¬∀ (c : Conf) (env env' : Env) (as : List ApiCall), DifferInFill env env' → LockOk env →
    Disciplined c env .idle as World.empty →
    trace (step env) (apiRun c as) World.empty = trace (step env') (apiRun c as) World.empty := by
  intro hall
  have hd : DifferInFill (Env.filled .zero) (Env.filled .stray) := ⟨rfl, fun _ => rfl⟩
  have heq := hall .sample _ _ [.create 1 1 ⟨false, false⟩, .destroy 0] hd (fun _ _ _ _ _ => rfl)
    (disciplined_create (by decide) [])
  have hzero : (trace (step (Env.filled .zero)) (apiRun .sample [.create 1 1 ⟨false, false⟩, .destroy 0]) World.empty).2.isSome =
      true := by decide
  have hstray : (trace (step (Env.filled .stray)) (apiRun .sample [.create 1 1 ⟨false, false⟩, .destroy 0]) World.empty).2.isSome =
      false := by decide
  rw [heq, hstray] at hzero
  cases hzero

end ZfsTest.Hashtable
