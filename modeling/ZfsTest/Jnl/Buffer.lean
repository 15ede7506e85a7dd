import ZfsTest.Hashtable.Memory
import ZfsTest.Hashtable.Refine
import ZfsTest.Hashtable.Unread

/-!
# The message buffers of `libjnl.c`

`_jnl_buffer_fetch` keeps one `jnl_buffer_t` for each thread, and finds it by the thread's identity in the hash table `jnl_toc`. Whatever
calls to `malloc` fail, a thread keeps the buffers it was given once, and no two threads or indices share one
(`jnlBufferFetch_buffers`).

The key of a group is its own member `thread_id`, so the table is in order as long as nobody writes there.
-/

namespace ZfsTest.Jnl

open Hashtable

/-! ## Memory -/

def jnlBS_TOC : Nat := 1024
def jnlBS_OPERATION : Nat := 1024
def jnlBS_EXPECTED : Nat := 1024
def jnlBS_ERROR : Nat := 1024
def jnlBS_ACTION : Nat := 1024

def jnlBI_MIN : Nat := 0
def jnlBI_OPERATION : Nat := jnlBI_MIN
def jnlBI_EXPECTED : Nat := 1
def jnlBI_ERROR : Nat := 2
def jnlBI_ACTION : Nat := 3
def jnlBI_MAX : Nat := 4

/-- `jnl_message_buffer_size`. -/
def jnlMessageBufferSize : List Nat := [jnlBS_OPERATION, jnlBS_EXPECTED, jnlBS_ERROR, jnlBS_ACTION]

/-- The width of `size_t`, `sizeof (thread_t)` and `sizeof (jnl_buffer_t)`, whose first member is the `thread_t`. -/
structure Machine where
  bits : Nat
  wide : 32 ≤ bits
  threadSize : Nat
  small : threadSize < 2 ^ 31
  groupSize : Nat
  fits : threadSize < groupSize

namespace Machine

variable (m : Machine)

def conf (mem : Nat → UInt8) : Conf := ⟨m.bits, m.wide, mem⟩

/-- The `thread_t` at an address. -/
def threadAt (mem : Nat → UInt8) (a : Nat) : List UInt8 := (m.conf mem).keyBytes m.threadSize a

/-- Copies the `thread_t` at `src` to `dst`. -/
def copyThread (mem : Nat → UInt8) (dst src : Nat) : Nat → UInt8 := fun b =>
  if dst ≤ b ∧ b < dst + m.threadSize then mem (src + (b - dst)) else mem b

end Machine

/-- A block of memory. -/
structure Block where
  addr : Nat
  size : Nat
  deriving DecidableEq, Repr

/-- The memory, the members `buffer` of the groups, the groups and the message buffers that are allocated, and the memory of the hash
table. -/
structure Store where
  mem : Nat → UInt8
  buffer : Nat → Nat → Nat
  groups : List Nat
  texts : List Block
  toc : World

/-- Before the first call. -/
def Store.start (mem : Nat → UInt8) (toc : World) : Store := ⟨mem, fun _ _ => 0, [], [], toc⟩

/-- `free` of the message buffers `bufs` and of the group `jnl`. -/
def Store.free (s : Store) (jnl : Nat) (bufs : List Block) : Store :=
  { s with groups := s.groups.erase jnl, texts := s.texts.diff bufs }

/-! ## `_jnl_buffer_fetch` -/

/-- A call: the memory it finds, where its parameter `thread_id` lies, the index, and what `malloc` would return for the group and for
each message buffer. -/
structure Fetch where
  mem : Nat → UInt8
  threadId : Nat
  index : Int
  group : Option Nat
  text : Nat → Option Nat

/-- Where a call failed. -/
inductive FetchError
  | index
  | locate (errno : Int)
  | group
  | buffer (i : Nat)
  | insert (ret : Int)
  deriving DecidableEq, Repr

/-- The message buffers that `malloc` returns. -/
def Fetch.given (f : Fetch) : List Block :=
  (List.range jnlBI_MAX).filterMap fun i => (f.text i).map fun a => ⟨a, jnlMessageBufferSize.getD i 0⟩

/-- `malloc` of the group `jnl` and of its message buffers. -/
def Store.alloc (s : Store) (f : Fetch) (jnl : Nat) : Store :=
  { s with
    groups := jnl :: s.groups
    texts := f.given ++ s.texts
    buffer := fun a i => if a = jnl then (f.text i).getD 0 else s.buffer a i }

section

variable (m : Machine) (env : Env) (jnlToc : Addr) (f : Fetch)

/-- A new group at `jnl`, put into the table. -/
def newGroup (jnl : Nat) (s : Store) : Option (Except FetchError Nat × Store) :=
  let s := s.alloc f jnl
  match (List.range jnlBI_MAX).find? fun i => (f.text i).isNone with
  | some i => some (.error (.buffer i), s.free jnl f.given)
  | none =>
    let s := { s with mem := m.copyThread s.mem jnl f.threadId }
    match runCall (m.conf s.mem) env jnlToc (.insert jnl jnl) s.toc with
    | none => none
    | some (r, toc) =>
      let s := { s with toc := toc }
      if r.ret ≠ 0 then some (.error (.insert r.ret), s.free jnl f.given)
      else some (.ok (s.buffer jnl f.index.toNat), s)

/-- `_jnl_buffer_fetch`. `none` is undefined behaviour. -/
def jnlBufferFetch (s : Store) : Option (Except FetchError Nat × Store) :=
  let s := { s with mem := f.mem }
  if f.index < jnlBI_MIN ∨ f.index ≥ jnlBI_MAX then some (.error .index, s)
  else
    match runCall (m.conf s.mem) env jnlToc (.locate f.threadId) s.toc with
    | none => none
    | some (r, toc) =>
      let s := { s with toc := toc }
      if r.ret ≠ 0 then some (.ok (s.buffer r.ret.toNat f.index.toNat), s)
      else if r.errno ≠ ENOENT then some (.error (.locate r.errno), s)
      else
        match f.group with
        | none => some (.error .group, s)
        | some jnl => newGroup m env jnlToc f jnl s

/-- One call after the other. -/
def fetchAll : List Fetch → Store → Option (List (Except FetchError Nat) × Store)
  | [], s => some ([], s)
  | f :: fs, s =>
    match jnlBufferFetch m env jnlToc f s with
    | none => none
    | some (r, s₁) => (fetchAll fs s₁).map fun x => (r :: x.1, x.2)

end

/-! ## What `malloc` and the callers promise -/

/-- Two blocks do not overlap. -/
def Block.Apart (a b : Block) : Prop := a.addr + a.size ≤ b.addr ∨ b.addr + b.size ≤ a.addr

instance (a b : Block) : Decidable (a.Apart b) := inferInstanceAs (Decidable (_ ∨ _))

/-- The blocks that are allocated. -/
def Store.blocks (m : Machine) (s : Store) : List Block := s.groups.map (fun a => ⟨a, m.groupSize⟩) ++ s.texts

/-- The blocks that `malloc` returns. -/
def Fetch.blocks (m : Machine) (f : Fetch) : List Block := f.group.toList.map (fun a => ⟨a, m.groupSize⟩) ++ f.given

/-- Nobody else writes to the member `thread_id` of a group, and `malloc` returns blocks that are not in use. -/
structure Legal (m : Machine) (f : Fetch) (s : Store) : Prop where
  threads : ∀ a ∈ s.groups, m.threadAt f.mem a = m.threadAt s.mem a
  new : ∀ b ∈ f.blocks m, ∀ b' ∈ s.blocks m, b.Apart b'
  apart : (f.blocks m).Pairwise Block.Apart
  nonnull : ∀ b ∈ f.blocks m, b.addr ≠ 0

/-- So it is at every call of a run. -/
def LegalRun (m : Machine) (env : Env) (jnlToc : Addr) : List Fetch → Store → Prop
  | [], _ => True
  | f :: fs, s => Legal m f s ∧ ∀ r s', jnlBufferFetch m env jnlToc f s = some (r, s') → LegalRun m env jnlToc fs s'

/-! ## The table of contents -/

section


variable {m : Machine} {env : Env} {h : Addr} {mem mem' : Nat → UInt8} {toc : World} {S : Shape}

/-- The hash table is in order, its keys lying in `mem`. -/
structure Toc (m : Machine) (h : Addr) (mem : Nat → UInt8) (toc : World) (S : Shape) : Prop where
  ready : Ready h 1 toc
  held : Held (m.conf mem) (toc.blind h 1) h S []
  idle : Idle (toc.blind h 1) h
  clean : Clean (toc.blind h 1) S
  keysize : ((toc.blind h 1).head h).keysize = intOfSize m.threadSize
  single : ((toc.blind h 1).head h).options.dupsAllowed = false

/-- The pairs in the table. -/
def Machine.pairs (m : Machine) (h : Addr) (mem : Nat → UInt8) (toc : World) : Multiset (List UInt8 × Nat) := toc.pairs (m.conf mem) h

namespace Toc

variable (ht : Toc m h mem toc S)
include ht

theorem keyLen : (toc.blind h 1).keyLen (m.conf mem) h = m.threadSize := by
  rw [World.keyLen, ht.keysize]
  exact sizeOfInt_intOfSize _ m.small

theorem pairs_eq : m.pairs h mem toc = contents (m.conf mem) (toc.blind h 1) h S := by
  rw [← ht.held.table.pairs_eq, World.blind_pairs]
  rfl

/-- A key has one pair. -/
theorem unique {k : List UInt8} {d d' : Nat} (hd : (k, d) ∈ m.pairs h mem toc) (hd' : (k, d') ∈ m.pairs h mem toc) : d = d' := by
  rw [ht.pairs_eq] at hd hd'
  have heq := Multiset.inj_on_of_nodup_map (ht.held.distinct ht.single) _ hd _ hd' rfl
  exact (Prod.mk.inj heq).2

/-- A pair in the table stands in an entry. -/
theorem entry {k : List UInt8} {d : Nat} (hp : (k, d) ∈ m.pairs h mem toc) :
    ∃ p, (toc.ents p).flags.occupied = true ∧ m.threadAt mem (toc.ents p).key = k ∧ (toc.ents p).data = d := by
  rw [ht.pairs_eq] at hp
  obtain ⟨i, hi, hm⟩ := Hashtable.mem_pairs.mp hp
  obtain ⟨p, hp, he⟩ := List.mem_map.mp hm
  obtain ⟨hk, hd⟩ := Prod.mk.inj he
  obtain ⟨-, hocc, -⟩ := ht.held.table.mem_bucket hi hp
  rw [ht.keyLen] at hk
  exact ⟨p, hocc, hk, hd⟩

/-- The memory may change where no key lies. -/
theorem withMem (hk : ∀ p, (toc.ents p).flags.occupied = true → m.threadAt mem' (toc.ents p).key = m.threadAt mem (toc.ents p).key) :
    Toc m h mem' toc S ∧ m.pairs h mem' toc = m.pairs h mem toc := by
  have hkept : KeysKept (m.conf mem) (toc.blind h 1) h mem' := by
    intro p hp i hi
    rw [ht.keyLen] at hi
    exact keyBytes_eq (hk p hp) hi
  have hheld : Held ((m.conf mem).withMem mem') (toc.blind h 1) h S [] := ht.held.withMem hkept
  have ht' : Toc m h mem' toc S := ⟨ht.ready, hheld, ht.idle, ht.clean, ht.keysize, ht.single⟩
  have hc : contents ((m.conf mem).withMem mem') (toc.blind h 1) h S = contents (m.conf mem) (toc.blind h 1) h S :=
    contents_withMem ht.held.table hkept
  refine ⟨ht', ?_⟩
  rw [ht'.pairs_eq, ht.pairs_eq]
  exact hc

omit ht in
/-- The table after a call. -/
theorem ofKept {w' : World} {S' : Shape} {P : List (Addr × List Addr)} (ht : Toc m h mem toc S) (hready : Ready h 1 w')
    (hk : Kept (m.conf mem) (toc.blind h 1) h (w'.blind h 1) S' P) (hP : P = []) (hcl : Clean (w'.blind h 1) S') : Toc m h mem w' S' := by
  subst hP
  have hopts := hk.options
  exact ⟨hready, hk.held, hk.idle, hcl, hk.keysize.trans ht.keysize, by rw [hopts]; exact ht.single⟩

theorem keyBytes (a : Nat) : (m.conf mem).keyBytes ((toc.blind h 1).keyLen (m.conf mem) h) a = m.threadAt mem a := by
  rw [ht.keyLen]
  rfl

/-- `ht_locate_key` returns the data of the key, or nothing with `ENOENT`. -/
theorem locate (hok : LockOk env) (a : Nat) : ∃ r toc', runCall (m.conf mem) env h (.locate a) toc = some (r, toc') ∧
    Toc m h mem toc' S ∧ toc'.ents = toc.ents ∧ m.pairs h mem toc' = m.pairs h mem toc ∧
      (r.ret = 0 ∧ r.errno = ENOENT ∧ (∀ d, (m.threadAt mem a, d) ∉ m.pairs h mem toc) ∨
        (m.threadAt mem a, r.ret.toNat) ∈ m.pairs h mem toc ∧ (r.ret.toNat : Int) = r.ret) := by
  obtain ⟨r, toc', hrun, hready, herr, ho⟩ := runCall_unread hok ht.ready ht.held ht.idle (Or.inl ⟨a, rfl⟩)
  generalize hret : r.ret = x at ho
  cases ho with
  | @locate _ d _ hr =>
    obtain ⟨hk, hcl, hents, hc⟩ := hr.kept ht.held ht.idle
    have ht' : Toc m h mem toc' S := ht.ofKept hready hk rfl (hcl ht.clean)
    refine ⟨r, toc', hrun, ht', hents, by rw [ht'.pairs_eq, ht.pairs_eq, hc], ?_⟩
    rw [ht.pairs_eq, ← ht.keyBytes]
    rcases hr.result ht.held.table ht.clean with ⟨rfl, he, hn⟩ | hmem
    · exact Or.inl ⟨hret, herr.trans he, hn⟩
    · rw [hret, Int.toNat_natCast]
      exact Or.inr ⟨hmem, rfl⟩

/-- `ht_insert_key` adds the pair when it returns `0`, and no entry changes when it does not. -/
theorem insert (hok : LockOk env) (a d : Nat) : ∃ r toc' S', runCall (m.conf mem) env h (.insert a d) toc = some (r, toc') ∧
    Toc m h mem toc' S' ∧ Uses toc toc' a d ∧
      (r.ret = 0 → m.pairs h mem toc' = (m.threadAt mem a, d) ::ₘ m.pairs h mem toc) ∧
      (r.ret ≠ 0 → m.pairs h mem toc' = m.pairs h mem toc ∧ toc'.ents = toc.ents) := by
  obtain ⟨r, toc', hrun, hready, -, ho⟩ := runCall_unread hok ht.ready ht.held ht.idle (Or.inr ⟨a, d, rfl⟩)
  cases ho with
  | insert hr =>
    obtain ⟨S', hk, hcl, hc⟩ := hr.kept ht.held ht.idle
    have ht' : Toc m h mem toc' S' := ht.ofKept hready hk rfl (hcl ht.clean)
    refine ⟨r, toc', S', hrun, ht', hr.uses ht.held.fresh ht.held.table, fun h0 => ?_, fun hne => ⟨?_, hr.ents hne⟩⟩
    · rw [ht'.pairs_eq, ht.pairs_eq, hc, if_pos h0, ht.keyBytes]
    · rw [ht'.pairs_eq, ht.pairs_eq, hc, if_neg hne]

end Toc

end

/-! ## The groups -/

/-- The thread that a call names. -/
def Fetch.thread (m : Machine) (f : Fetch) : List UInt8 := m.threadAt f.mem f.threadId

/-- The index is one of `jnl_buffer_index_t`. -/
def Fetch.valid (f : Fetch) : Prop := (jnlBI_MIN : Int) ≤ f.index ∧ f.index < jnlBI_MAX

/-- The table holds the groups by their threads, and no message buffer belongs to two of them. -/
structure Inv (m : Machine) (h : Addr) (s : Store) : Prop where
  toc : ∃ S, Toc m h s.mem s.toc S
  keys : ∀ p, (s.toc.ents p).flags.occupied = true → (s.toc.ents p).key = (s.toc.ents p).data ∧ (s.toc.ents p).data ∈ s.groups
  nonnull : ∀ a ∈ s.groups, a ≠ 0
  texts : ∀ a ∈ s.groups, ∀ i, i < jnlBI_MAX → ∃ b ∈ s.texts, b.addr = s.buffer a i
  sized : ∀ b ∈ s.texts, 0 < b.size
  distinct : ∀ a ∈ s.groups, ∀ a' ∈ s.groups, ∀ i, i < jnlBI_MAX → ∀ i', i' < jnlBI_MAX → s.buffer a i = s.buffer a' i' →
    a = a' ∧ i = i'

section

variable {m : Machine} {env : Env} {h : Addr} {s s' : Store} {f : Fetch} {mem : Nat → UInt8}

/-- `b` is the buffer of thread `t` for index `i`. -/
def Serves (m : Machine) (h : Addr) (s : Store) (t : List UInt8) (i b : Nat) : Prop :=
  ∃ g, (t, g) ∈ m.pairs h s.mem s.toc ∧ s.buffer g i = b

theorem threadAt_copyThread (mem : Nat → UInt8) (dst src : Nat) : m.threadAt (m.copyThread mem dst src) dst = m.threadAt mem src := by
  refine List.map_congr_left fun i hi => ?_
  have hlt := List.mem_range.mp hi
  show m.copyThread mem dst src (dst + i) = mem (src + i)
  rw [Machine.copyThread, if_pos ⟨Nat.le_add_right _ _, by omega⟩, Nat.add_sub_cancel_left]

/-- Another `thread_t` does not change. -/
theorem threadAt_copyThread_apart {dst a : Nat} (mem : Nat → UInt8) (src : Nat)
    (ha : (⟨dst, m.groupSize⟩ : Block).Apart ⟨a, m.groupSize⟩) :
    m.threadAt (m.copyThread mem dst src) a = m.threadAt mem a := by
  refine keyBytes_congr fun i hi => ?_
  have hfits := m.fits
  have hapart : dst + m.groupSize ≤ a ∨ a + m.groupSize ≤ dst := ha
  have hout : ¬(dst ≤ a + i ∧ a + i < dst + m.threadSize) := by omega
  exact if_neg hout

theorem append_diff {β : Type} [DecidableEq β] (l t : List β) : (l ++ t).diff l = t := by
  induction l with
  | nil => rfl
  | cons a l ih => rw [List.cons_append, List.diff_cons, List.erase_cons_head, ih]

/-- Freeing what has just been allocated. -/
theorem Store.free_alloc (s : Store) (jnl : Nat) (mem : Nat → UInt8) (toc : World) :
    ({ s.alloc f jnl with mem := mem, toc := toc } : Store).free jnl f.given =
      { s with mem := mem, buffer := (s.alloc f jnl).buffer, toc := toc } := by
  simp only [Store.free, Store.alloc, List.erase_cons_head, append_diff]

theorem Block.Apart.ne {a b : Block} (h : a.Apart b) (ha : 0 < a.size) (hb : 0 < b.size) : a.addr ≠ b.addr := by
  unfold Block.Apart at h
  omega

theorem size_pos {i : Nat} (hi : i < jnlBI_MAX) : 0 < jnlMessageBufferSize.getD i 0 := by
  revert i
  decide

theorem mem_given {b : Block} : b ∈ f.given ↔ ∃ i, i < jnlBI_MAX ∧ ∃ a, f.text i = some a ∧ b = ⟨a, jnlMessageBufferSize.getD i 0⟩ := by
  unfold Fetch.given
  rw [List.mem_filterMap]
  constructor
  · rintro ⟨i, hi, he⟩
    obtain ⟨a, ha, rfl⟩ := Option.map_eq_some_iff.mp he
    exact ⟨i, List.mem_range.mp hi, a, ha, rfl⟩
  · rintro ⟨i, hi, a, ha, rfl⟩
    exact ⟨i, List.mem_range.mpr hi, by rw [ha]; rfl⟩

theorem given_pos {b : Block} (hb : b ∈ f.given) : 0 < b.size := by
  obtain ⟨i, hi, a, -, rfl⟩ := mem_given.mp hb
  exact size_pos hi

/-- Two message buffers of one call. -/
theorem given_apart (hp : f.given.Pairwise Block.Apart) {i j a b : Nat} (hi : i < jnlBI_MAX) (hj : j < jnlBI_MAX)
    (ha : f.text i = some a) (hb : f.text j = some b) (heq : a = b) : i = j := by
  have hlater : ∀ {i j a b : Nat}, i < j → j < jnlBI_MAX → f.text i = some a → f.text j = some b → a ≠ b := by
    intro i j a b hlt hj ha hb
    have hall := List.pairwise_iff_getElem.mp (List.pairwise_filterMap.mp hp) i j (by rw [List.length_range]; omega)
      (by rw [List.length_range]; omega) hlt
    rw [List.getElem_range, List.getElem_range] at hall
    have hapart := hall ⟨a, _⟩ (by rw [ha]; rfl) ⟨b, _⟩ (by rw [hb]; rfl)
    exact hapart.ne (size_pos (hlt.trans hj)) (size_pos hj)
  rcases Nat.lt_trichotomy i j with hlt | rfl | hlt
  · exact absurd heq (hlater hlt hj ha hb)
  · rfl
  · exact absurd heq.symm (hlater hlt hi hb ha)

theorem mem_blocks_group {jnl : Nat} (hg : f.group = some jnl) : ⟨jnl, m.groupSize⟩ ∈ f.blocks m := by
  unfold Fetch.blocks
  rw [hg]
  exact List.mem_cons_self

theorem alloc_buffer_new {jnl i b : Nat} (hb : f.text i = some b) : (s.alloc f jnl).buffer jnl i = b := by
  simp [Store.alloc, hb]

/-- A new group is none of the old ones. -/
theorem Legal.apart_group (hl : Legal m f s) {jnl a : Nat} (hg : f.group = some jnl) (ha : a ∈ s.groups) :
    (⟨jnl, m.groupSize⟩ : Block).Apart ⟨a, m.groupSize⟩ :=
  hl.new _ (mem_blocks_group hg) _ (List.mem_append_left _ (List.mem_map.mpr ⟨a, ha, rfl⟩))

theorem Legal.alloc_buffer (hl : Legal m f s) {jnl a : Nat} (hg : f.group = some jnl) (ha : a ∈ s.groups) (i : Nat) :
    (s.alloc f jnl).buffer a i = s.buffer a i := by
  have hpos : 0 < m.groupSize := Nat.lt_of_le_of_lt (Nat.zero_le _) m.fits
  exact if_neg ((hl.apart_group hg ha).ne hpos hpos).symm

namespace Inv

theorem pair (hi : Inv m h s) {t : List UInt8} {g : Nat} (hg : (t, g) ∈ m.pairs h s.mem s.toc) : g ∈ s.groups ∧ m.threadAt s.mem g = t := by
  obtain ⟨S, ht⟩ := hi.toc
  obtain ⟨p, hp, hk, rfl⟩ := ht.entry hg
  obtain ⟨hkey, hmem⟩ := hi.keys p hp
  exact ⟨hmem, hkey ▸ hk⟩

theorem unique (hi : Inv m h s) {t : List UInt8} {g g' : Nat} (hg : (t, g) ∈ m.pairs h s.mem s.toc)
    (hg' : (t, g') ∈ m.pairs h s.mem s.toc) : g = g' := by
  obtain ⟨S, ht⟩ := hi.toc
  exact ht.unique hg hg'

/-- A buffer belongs to one thread and one index. -/
theorem serves_injective (hi : Inv m h s) {t t' : List UInt8} {i i' b : Nat} (hlt : i < jnlBI_MAX) (hlt' : i' < jnlBI_MAX)
    (hs : Serves m h s t i b) (hs' : Serves m h s t' i' b) : t = t' ∧ i = i' := by
  obtain ⟨g, hg, hb⟩ := hs
  obtain ⟨g', hg', hb'⟩ := hs'
  obtain ⟨hmem, ht⟩ := hi.pair hg
  obtain ⟨hmem', ht'⟩ := hi.pair hg'
  obtain ⟨rfl, rfl⟩ := hi.distinct g hmem g' hmem' i hlt i' hlt' (hb.trans hb'.symm)
  exact ⟨ht.symm.trans ht', rfl⟩

/-- The callers' memory may change outside the members `thread_id`. -/
theorem withMem (hi : Inv m h s) (hk : ∀ a ∈ s.groups, m.threadAt mem a = m.threadAt s.mem a) :
    Inv m h { s with mem := mem } ∧ m.pairs h mem s.toc = m.pairs h s.mem s.toc := by
  obtain ⟨S, ht⟩ := hi.toc
  have hkept : ∀ p, (s.toc.ents p).flags.occupied = true →
      m.threadAt mem (s.toc.ents p).key = m.threadAt s.mem (s.toc.ents p).key := by
    intro p hp
    obtain ⟨hkey, hmem⟩ := hi.keys p hp
    rw [hkey]
    exact hk _ hmem
  obtain ⟨ht', hpairs⟩ := ht.withMem hkept
  exact ⟨⟨⟨S, ht'⟩, hi.keys, hi.nonnull, hi.texts, hi.sized, hi.distinct⟩, hpairs⟩

/-- The members of other memory do not matter. -/
theorem withBuffer (hi : Inv m h s) {buffer : Nat → Nat → Nat} (hb : ∀ a ∈ s.groups, buffer a = s.buffer a) :
    Inv m h { s with buffer := buffer } where
  toc := hi.toc
  keys := hi.keys
  nonnull := hi.nonnull
  texts a ha i hlt := by
    obtain ⟨b, hmem, he⟩ := hi.texts a ha i hlt
    exact ⟨b, hmem, he.trans (congrFun (hb a ha) i).symm⟩
  sized := hi.sized
  distinct a ha a' ha' i hlt i' hlt' he :=
    hi.distinct a ha a' ha' i hlt i' hlt' ((congrFun (hb a ha) i).symm.trans (he.trans (congrFun (hb a' ha') i')))

/-- A group that `malloc` gave and that the table now holds. -/
theorem alloc (hi : Inv m h s) (hl : Legal m f s) {jnl : Nat} (hg : f.group = some jnl)
    (hall : ∀ i, i < jnlBI_MAX → ∃ a, f.text i = some a) {toc : World} (ht : ∃ S, Toc m h mem toc S) (hu : Uses s.toc toc jnl jnl) :
    Inv m h { s.alloc f jnl with mem := mem, toc := toc } where
  toc := ht
  keys p hp := by
    rcases hu p hp with ⟨ho, hk, hd⟩ | ⟨hk, hd⟩
    · obtain ⟨hkey, hmem⟩ := hi.keys p ho
      exact ⟨by rw [hk, hd, hkey], List.mem_cons_of_mem _ (by rw [hd]; exact hmem)⟩
    · exact ⟨hk.trans hd.symm, by rw [hd]; exact List.mem_cons_self⟩
  nonnull a ha := by
    rcases List.mem_cons.mp ha with rfl | ha
    · exact hl.nonnull _ (mem_blocks_group hg)
    · exact hi.nonnull a ha
  texts a ha i hlt := by
    rcases List.mem_cons.mp ha with rfl | ha
    · obtain ⟨b, hb⟩ := hall i hlt
      exact ⟨_, List.mem_append_left _ (mem_given.mpr ⟨i, hlt, b, hb, rfl⟩), (alloc_buffer_new hb).symm⟩
    · obtain ⟨b, hb, he⟩ := hi.texts a ha i hlt
      exact ⟨b, List.mem_append_right _ hb, he.trans (hl.alloc_buffer hg ha i).symm⟩
  sized b hb := by
    rcases List.mem_append.mp hb with hb | hb
    · exact given_pos hb
    · exact hi.sized b hb
  distinct a ha a' ha' i hlt i' hlt' he := by
    obtain ⟨b, hb⟩ := hall i hlt
    obtain ⟨b', hb'⟩ := hall i' hlt'
    have hnew : ∀ {j c : Nat}, j < jnlBI_MAX → f.text j = some c → ∀ a ∈ s.groups, ∀ k, k < jnlBI_MAX → s.buffer a k ≠ c := by
      intro j c hj hc a ha k hk
      obtain ⟨x, hx, hxe⟩ := hi.texts a ha k hk
      have hapart := hl.new _ (List.mem_append_right _ (mem_given.mpr ⟨j, hj, c, hc, rfl⟩)) x (List.mem_append_right _ hx)
      rw [← hxe]
      exact (hapart.ne (size_pos hj) (hi.sized x hx)).symm
    rcases List.mem_cons.mp ha with hj | hmem <;> rcases List.mem_cons.mp ha' with hj' | hmem'
    · subst hj hj'
      refine ⟨rfl, given_apart (List.pairwise_append.mp hl.apart).2.1 hlt hlt' hb hb' ?_⟩
      exact (alloc_buffer_new hb).symm.trans (he.trans (alloc_buffer_new hb'))
    · subst hj
      have hold := hl.alloc_buffer hg hmem' i'
      exact absurd (hold.symm.trans (he.symm.trans (alloc_buffer_new hb))) (hnew hlt hb a' hmem' i' hlt')
    · subst hj'
      have hold := hl.alloc_buffer hg hmem i
      exact absurd (hold.symm.trans (he.trans (alloc_buffer_new hb'))) (hnew hlt' hb' a hmem i hlt)
    · exact hi.distinct a hmem a' hmem' i hlt i' hlt'
        ((hl.alloc_buffer hg hmem i).symm.trans (he.trans (hl.alloc_buffer hg hmem' i')))

end Inv

/-! ## One call -/

/-- What a call does. -/
structure Fetched (m : Machine) (h : Addr) (f : Fetch) (s : Store) (r : Except FetchError Nat) (s' : Store) : Prop where
  inv : Inv m h s'
  kept : ∀ x ∈ m.pairs h s.mem s.toc, x ∈ m.pairs h s'.mem s'.toc ∧ s'.buffer x.2 = s.buffer x.2
  ok : ∀ b, r = .ok b → f.valid ∧ Serves m h s' (f.thread m) f.index.toNat b
  served : ∀ b, f.valid → Serves m h s (f.thread m) f.index.toNat b → r = .ok b
  failed : ∀ e, r = .error e → m.pairs h s'.mem s'.toc = m.pairs h s.mem s.toc ∧ s'.toc.ents = s.toc.ents ∧ s'.blocks m = s.blocks m

/-- A call that fails with the table and the blocks as they were. -/
theorem Fetched.error (hi : Inv m h s') (hp : m.pairs h s'.mem s'.toc = m.pairs h s.mem s.toc) (he : s'.toc.ents = s.toc.ents)
    (hb : s'.blocks m = s.blocks m) (hbuf : ∀ x ∈ m.pairs h s.mem s.toc, s'.buffer x.2 = s.buffer x.2) {e : FetchError}
    (hno : ∀ b, f.valid → ¬Serves m h s (f.thread m) f.index.toNat b) : Fetched m h f s (.error e) s' where
  inv := hi
  kept x hx := ⟨hp ▸ hx, hbuf x hx⟩
  ok _ hb := nomatch hb
  served b hv hs := absurd hs (hno b hv)
  failed _ _ := ⟨hp, he, hb⟩

theorem newGroup_spec (hok : LockOk env) (hi : Inv m h s) (hl : Legal m f s) (hmem : s.mem = f.mem) (hv : f.valid) {jnl : Nat}
    (hg : f.group = some jnl) (habs : ∀ d, (f.thread m, d) ∉ m.pairs h s.mem s.toc) :
    ∃ r s', newGroup m env h f jnl s = some (r, s') ∧ Fetched m h f s r s' := by
  have hno : ∀ b, f.valid → ¬Serves m h s (f.thread m) f.index.toNat b := by
    rintro b - ⟨g, hg, -⟩
    exact habs g hg
  have hbuf : ∀ a ∈ s.groups, (s.alloc f jnl).buffer a = s.buffer a := fun a ha => funext (hl.alloc_buffer hg ha)
  have hbufp : ∀ x ∈ m.pairs h s.mem s.toc, (s.alloc f jnl).buffer x.2 = s.buffer x.2 := fun x hx => hbuf _ (hi.pair hx).1
  have hi' := hi.withBuffer hbuf
  unfold newGroup
  dsimp only
  cases hfind : (List.range jnlBI_MAX).find? fun i => (f.text i).isNone with
  | some i =>
    have hfree := s.free_alloc (f := f) jnl s.mem s.toc
    refine ⟨_, _, congrArg (fun t => some (Except.error (FetchError.buffer i), t)) hfree, ?_⟩
    exact Fetched.error (s := s) hi' rfl rfl rfl hbufp hno
  | none =>
    have hall : ∀ i, i < jnlBI_MAX → ∃ a, f.text i = some a := by
      intro i hlt
      have hsome := List.find?_eq_none.mp hfind i (List.mem_range.mpr hlt)
      exact Option.ne_none_iff_exists'.mp fun hnone => hsome (by rw [hnone]; rfl)
    -- the key is written into the new group, which is no key of the table yet
    have hapart : ∀ a ∈ s.groups, m.threadAt (m.copyThread s.mem jnl f.threadId) a = m.threadAt s.mem a := fun a ha =>
      threadAt_copyThread_apart s.mem f.threadId (hl.apart_group hg ha)
    obtain ⟨hiw, hpw⟩ := hi.withMem hapart
    obtain ⟨S, ht⟩ := hiw.toc
    obtain ⟨r, toc, S', hrun, ht', hu, hadd, hfail⟩ := ht.insert hok jnl jnl
    have hrun' : runCall (m.conf (m.copyThread (s.alloc f jnl).mem jnl f.threadId)) env h (.insert jnl jnl) (s.alloc f jnl).toc =
        some (r, toc) := hrun
    rw [hrun']
    dsimp only
    by_cases h0 : r.ret = 0
    · rw [if_neg (not_not.mpr h0)]
      have hthread : m.threadAt (m.copyThread s.mem jnl f.threadId) jnl = f.thread m := by
        rw [threadAt_copyThread, hmem]
        rfl
      have hp := hadd h0
      dsimp only at hp
      rw [hthread, hpw] at hp
      refine ⟨_, _, rfl, hi.alloc hl hg hall ⟨S', ht'⟩ hu, fun x hx => ⟨?_, hbufp x hx⟩, fun b hb => ⟨hv, jnl, ?_, ?_⟩,
        fun b hv hs => absurd hs (hno b hv), fun e he => nomatch he⟩
      · show x ∈ m.pairs h (m.copyThread s.mem jnl f.threadId) toc
        rw [hp]
        exact Multiset.mem_cons_of_mem hx
      · show _ ∈ m.pairs h (m.copyThread s.mem jnl f.threadId) toc
        rw [hp]
        exact Multiset.mem_cons_self _ _
      · exact Except.ok.inj hb
    · rw [if_pos h0]
      obtain ⟨hp, hents⟩ := hfail h0
      have hkeys : ∀ p, (toc.ents p).flags.occupied = true → (toc.ents p).key = (toc.ents p).data ∧ (toc.ents p).data ∈ s.groups := by
        rw [hents]
        exact hi.keys
      have hfree := s.free_alloc (f := f) jnl (m.copyThread s.mem jnl f.threadId) toc
      refine ⟨_, _, congrArg (fun t => some (Except.error (FetchError.insert r.ret), t)) hfree, ?_⟩
      have hinv : Inv m h { s with mem := m.copyThread s.mem jnl f.threadId, buffer := (s.alloc f jnl).buffer, toc := toc } :=
        ⟨⟨S', ht'⟩, hkeys, hi'.nonnull, hi'.texts, hi'.sized, hi'.distinct⟩
      exact Fetched.error (s := s) hinv (hp.trans hpw) hents rfl hbufp hno

theorem jnlBufferFetch_spec (hok : LockOk env) (hi : Inv m h s) (hl : Legal m f s) :
    ∃ r s', jnlBufferFetch m env h f s = some (r, s') ∧ Fetched m h f s r s' := by
  obtain ⟨hiw, hpw⟩ := hi.withMem hl.threads
  unfold jnlBufferFetch
  dsimp only
  by_cases hv : f.index < jnlBI_MIN ∨ f.index ≥ jnlBI_MAX
  · rw [if_pos hv]
    refine ⟨_, _, rfl, Fetched.error (s := s) hiw hpw rfl rfl (fun x hx => rfl) ?_⟩
    rintro b ⟨hlo, hhi⟩ -
    omega
  rw [if_neg hv]
  have hvalid : f.valid := by
    unfold Fetch.valid
    omega
  obtain ⟨S, ht⟩ := hiw.toc
  obtain ⟨r, toc, hrun, ht', hents, hp, hcase⟩ := ht.locate hok f.threadId
  rw [show runCall (m.conf f.mem) env h (.locate f.threadId) s.toc = some (r, toc) from hrun]
  dsimp only
  rw [show m.pairs h f.mem s.toc = m.pairs h s.mem s.toc from hpw] at hp hcase
  have hkeys : ∀ p, (toc.ents p).flags.occupied = true → (toc.ents p).key = (toc.ents p).data ∧ (toc.ents p).data ∈ s.groups := by
    rw [hents]
    exact hi.keys
  have hi' : Inv m h { s with mem := f.mem, toc := toc } := ⟨⟨S, ht'⟩, hkeys, hi.nonnull, hi.texts, hi.sized, hi.distinct⟩
  rcases hcase with ⟨h0, herr, habs⟩ | ⟨hmem, hnat⟩
  · have hno : ∀ b, f.valid → ¬Serves m h s (f.thread m) f.index.toNat b := by
      rintro _ - ⟨g, hg, -⟩
      exact habs g hg
    rw [if_neg (not_not.mpr h0), if_neg (not_not.mpr herr)]
    cases hg : f.group with
    | none => exact ⟨_, _, rfl, Fetched.error (s := s) hi' hp hents rfl (fun x hx => rfl) hno⟩
    | some jnl =>
      have hl' : Legal m f { s with mem := f.mem, toc := toc } := ⟨fun a ha => rfl, hl.new, hl.apart, hl.nonnull⟩
      obtain ⟨r', s', hnew, hf⟩ := newGroup_spec hok hi' hl' rfl hvalid hg (by
        intro d hd
        exact habs d (hp ▸ hd))
      refine ⟨r', s', hnew, hf.inv, fun x hx => hf.kept x (hp ▸ hx), hf.ok, fun b hv hs => absurd hs (hno b hv), fun e he => ?_⟩
      obtain ⟨h1, h2, h3⟩ := hf.failed e he
      exact ⟨h1.trans hp, h2.trans hents, h3⟩
  · have hne : r.ret ≠ 0 := by
      have hnn := hi.nonnull _ (hi.pair hmem).1
      omega
    rw [if_pos hne]
    refine ⟨_, _, rfl, hi', fun x hx => ⟨hp ▸ hx, rfl⟩, fun b hb => ⟨hvalid, r.ret.toNat, hp ▸ hmem, Except.ok.inj hb⟩, ?_,
      fun e he => nomatch he⟩
    rintro b - ⟨g, hg, rfl⟩
    rw [hi.unique hmem hg]

/-! ## Runs -/

/-- No group is there before the first call. -/
theorem inv_start {w : World} (hok : LockOk env) (hc : Created env jnlBS_TOC m.threadSize ⟨false, false⟩ h w) :
    Inv m h (Store.start mem w) := by
  obtain ⟨hready, -, S, hh, hidle, hcl, -, hopts, hks, hocc⟩ := hc.blind (c := m.conf mem) hok
  have hsingle : ((w.blind h 1).head h).options.dupsAllowed = false := by rw [hopts]
  refine ⟨⟨S, hready, hh, hidle, hcl, hks, hsingle⟩, fun p hp => ?_, ?_, ?_, ?_, ?_⟩
  · exact absurd (hp.symm.trans (hocc p)) (by decide)
  all_goals exact fun _ hx => absurd hx List.not_mem_nil

theorem fetchAll_cons {fs : List Fetch} {r : Except FetchError Nat} (he : jnlBufferFetch m env h f s = some (r, s')) :
    fetchAll m env h (f :: fs) s = (fetchAll m env h fs s').map fun x => (r :: x.1, x.2) := by
  rw [fetchAll, he]

/-- A run ends. -/
theorem fetchAll_ends (hok : LockOk env) {fs : List Fetch} : ∀ {s : Store}, Inv m h s → LegalRun m env h fs s →
    ∃ rs s', fetchAll m env h fs s = some (rs, s') ∧ rs.length = fs.length ∧ Inv m h s' := by
  induction fs with
  | nil => exact fun {s} hi _ => ⟨[], s, rfl, rfl, hi⟩
  | cons f fs ih =>
    intro s hi ⟨hl, hrest⟩
    obtain ⟨r, s₁, he, hf⟩ := jnlBufferFetch_spec hok hi hl
    obtain ⟨rs, s', hrun, hlen, hi'⟩ := ih hf.inv (hrest r s₁ he)
    refine ⟨r :: rs, s', ?_, by rw [List.length_cons, hlen, List.length_cons], hi'⟩
    rw [fetchAll_cons he, hrun]
    rfl

theorem Fetched.serves {r : Except FetchError Nat} (hf : Fetched m h f s r s') {t : List UInt8} {i b : Nat} (hs : Serves m h s t i b) :
    Serves m h s' t i b := by
  obtain ⟨g, hg, rfl⟩ := hs
  obtain ⟨hg', hb⟩ := hf.kept _ hg
  exact ⟨g, hg', congrFun hb i⟩

/-- A call returns the buffer of a thread exactly when it asks for it. -/
theorem Fetched.ok_iff {r : Except FetchError Nat} (hf : Fetched m h f s r s') {t : List UInt8} {i b : Nat} (hi : i < jnlBI_MAX)
    (hs : Serves m h s t i b) : r = .ok b ↔ f.thread m = t ∧ f.index = i := by
  constructor
  · intro hr
    obtain ⟨⟨hlo, hhi⟩, hserves⟩ := hf.ok b hr
    obtain ⟨ht, hidx⟩ := hf.inv.serves_injective (by omega) hi hserves (hf.serves hs)
    have hnn : (0 : Int) ≤ f.index := hlo
    exact ⟨ht, by omega⟩
  · rintro ⟨rfl, hidx⟩
    have hv : f.valid := by
      unfold Fetch.valid jnlBI_MIN
      omega
    apply hf.served b hv
    rw [hidx, Int.toNat_natCast]
    exact hs

/-- So do all calls of a run. -/
theorem fetchAll_ok_iff (hok : LockOk env) {t : List UInt8} {i b : Nat} (hlt : i < jnlBI_MAX) {fs : List Fetch} :
    ∀ {s s' : Store} {rs : List (Except FetchError Nat)}, Inv m h s → LegalRun m env h fs s → Serves m h s t i b →
      fetchAll m env h fs s = some (rs, s') → ∀ y ∈ fs.zip rs, y.2 = .ok b ↔ y.1.thread m = t ∧ y.1.index = i := by
  induction fs with
  | nil => exact fun _ _ _ _ y hy => absurd hy List.not_mem_nil
  | cons f fs ih =>
    intro s s' rs hi ⟨hl, hrest⟩ hs hrun y hy
    obtain ⟨r, s₁, he, hf⟩ := jnlBufferFetch_spec hok hi hl
    rw [fetchAll_cons he] at hrun
    obtain ⟨x, hx, hrs⟩ := Option.map_eq_some_iff.mp hrun
    obtain ⟨rfl, rfl⟩ := Prod.mk.inj hrs
    rcases List.mem_cons.mp hy with rfl | hy
    · exact hf.ok_iff hlt hs
    · exact ih hf.inv (hrest r s₁ he) (hf.serves hs) hx y hy

/-- The later call returns the buffer of the earlier one exactly when it is for the same thread and index. -/
def Consistent (m : Machine) (x y : Fetch × Except FetchError Nat) : Prop :=
  ∀ b, x.2 = .ok b → (y.2 = .ok b ↔ y.1.thread m = x.1.thread m ∧ y.1.index = x.1.index)

theorem fetchAll_consistent (hok : LockOk env) {fs : List Fetch} :
    ∀ {s s' : Store} {rs : List (Except FetchError Nat)}, Inv m h s → LegalRun m env h fs s →
      fetchAll m env h fs s = some (rs, s') → (fs.zip rs).Pairwise (Consistent m) := by
  induction fs with
  | nil => exact fun _ _ _ => List.Pairwise.nil
  | cons f fs ih =>
    intro s s' rs hi ⟨hl, hrest⟩ hrun
    obtain ⟨r, s₁, he, hf⟩ := jnlBufferFetch_spec hok hi hl
    rw [fetchAll_cons he] at hrun
    obtain ⟨x, hx, hrs⟩ := Option.map_eq_some_iff.mp hrun
    obtain ⟨rfl, rfl⟩ := Prod.mk.inj hrs
    refine List.pairwise_cons.mpr ⟨fun y hy b hb => ?_, ih hf.inv (hrest r s₁ he) hx⟩
    obtain ⟨⟨hlo, hhi⟩, hserves⟩ := hf.ok b hb
    have hnat : (f.index.toNat : Int) = f.index := Int.toNat_of_nonneg hlo
    have hiff := fetchAll_ok_iff hok (by omega) hf.inv (hrest r s₁ he) hserves hx y hy
    rwa [hnat] at hiff

/-- The state after the first calls of a run. -/
theorem LegalRun.reach (hok : LockOk env) {pre post : List Fetch} : ∀ {s s' : Store} {rs : List (Except FetchError Nat)}, Inv m h s →
    LegalRun m env h (pre ++ post) s → fetchAll m env h pre s = some (rs, s') → Inv m h s' ∧ LegalRun m env h post s' := by
  induction pre with
  | nil =>
    intro s s' rs hi hl hrun
    obtain ⟨-, rfl⟩ := Prod.mk.inj (Option.some.inj hrun)
    exact ⟨hi, hl⟩
  | cons f pre ih =>
    intro s s' rs hi ⟨hl, hrest⟩ hrun
    obtain ⟨r, s₁, he, hf⟩ := jnlBufferFetch_spec hok hi hl
    rw [fetchAll_cons he] at hrun
    obtain ⟨x, hx, hrs⟩ := Option.map_eq_some_iff.mp hrun
    obtain ⟨-, rfl⟩ := Prod.mk.inj hrs
    exact ih hf.inv (hrest r s₁ he) hx

/-! ## Calls in fixed memory -/

/-- What a call may leave behind: its memory, or that with a new key in it, and blocks that it found or was given. -/
def Leaves (m : Machine) (f : Fetch) (s s' : Store) : Prop :=
  (s'.mem = f.mem ∨ ∃ jnl, f.group = some jnl ∧ s'.mem = m.copyThread f.mem jnl f.threadId) ∧
    ∀ b ∈ s'.blocks m, b ∈ f.blocks m ∨ b ∈ s.blocks m

theorem alloc_blocks {jnl : Nat} (hg : f.group = some jnl) {b : Block} (hb : b ∈ (s.alloc f jnl).blocks m) :
    b ∈ f.blocks m ∨ b ∈ s.blocks m := by
  simp only [Store.blocks, Store.alloc, Fetch.blocks, hg, Option.toList_some, List.map_cons, List.map_nil, List.mem_append,
    List.mem_cons, List.not_mem_nil, or_false] at hb ⊢
  tauto

theorem free_blocks {jnl : Nat} {bufs : List Block} {b : Block} (hb : b ∈ (s.free jnl bufs).blocks m) : b ∈ s.blocks m := by
  rcases List.mem_append.mp hb with hb | hb
  · exact List.mem_append_left _ (List.map_subset _ (List.erase_subset) hb)
  · exact List.mem_append_right _ ((List.diff_subset _ _) hb)

theorem newGroup_leaves {jnl : Nat} (hg : f.group = some jnl) (hmem : s.mem = f.mem) {r : Except FetchError Nat}
    (he : newGroup m env h f jnl s = some (r, s')) : Leaves m f s s' := by
  unfold newGroup at he
  dsimp only at he
  split at he
  · cases he
    exact ⟨Or.inl hmem, fun b hb => alloc_blocks hg (free_blocks hb)⟩
  · have hcopy : m.copyThread (s.alloc f jnl).mem jnl f.threadId = m.copyThread f.mem jnl f.threadId := by
      rw [← hmem]
      rfl
    split at he
    · cases he
    · split at he
      · cases he
        exact ⟨Or.inr ⟨jnl, hg, hcopy⟩, fun b hb => alloc_blocks hg (free_blocks hb)⟩
      · cases he
        exact ⟨Or.inr ⟨jnl, hg, hcopy⟩, fun b hb => alloc_blocks hg hb⟩

theorem jnlBufferFetch_leaves {r : Except FetchError Nat} (he : jnlBufferFetch m env h f s = some (r, s')) : Leaves m f s s' := by
  unfold jnlBufferFetch at he
  dsimp only at he
  have hkeep : ∀ {s' : Store}, s'.mem = f.mem → s'.blocks m = s.blocks m → Leaves m f s s' := fun h1 h2 =>
    ⟨Or.inl h1, fun b hb => Or.inr (h2 ▸ hb)⟩
  split at he
  · cases he
    exact hkeep rfl rfl
  · split at he
    · cases he
    · split at he
      · cases he
        exact hkeep rfl rfl
      · split at he
        · cases he
          exact hkeep rfl rfl
        · cases hg : f.group with
          | none =>
            rw [hg] at he
            cases he
            exact hkeep rfl rfl
          | some jnl =>
            rw [hg] at he
            exact newGroup_leaves (s := { s with mem := f.mem, toc := _ }) hg rfl he

/-- A run is legal when every key is in the memory already and the blocks of its calls lie apart. -/
theorem LegalRun.of_fixed {mem : Nat → UInt8} {fs : List Fetch}
    (hmem : ∀ f ∈ fs, f.mem = mem ∧ ∀ jnl, f.group = some jnl → m.copyThread mem jnl f.threadId = mem)
    (hnew : ∀ f ∈ fs, (f.blocks m).Pairwise Block.Apart ∧ ∀ b ∈ f.blocks m, b.addr ≠ 0) :
    ∀ {s : Store}, s.mem = mem → fs.Pairwise (fun f f' => ∀ b ∈ f.blocks m, ∀ b' ∈ f'.blocks m, b'.Apart b) →
      (∀ f ∈ fs, ∀ b ∈ f.blocks m, ∀ b' ∈ s.blocks m, b.Apart b') → LegalRun m env h fs s := by
  induction fs with
  | nil => exact fun _ _ _ => trivial
  | cons f fs ih =>
    intro s hs hp hold
    obtain ⟨hf, hcopy⟩ := hmem f List.mem_cons_self
    obtain ⟨hfirst, hp⟩ := List.pairwise_cons.mp hp
    refine ⟨⟨fun a ha => by rw [hf, hs], hold f List.mem_cons_self, (hnew f List.mem_cons_self).1, (hnew f List.mem_cons_self).2⟩,
      fun r s' he => ?_⟩
    obtain ⟨hm, hb⟩ := jnlBufferFetch_leaves he
    refine ih (fun g hg => hmem g (List.mem_cons_of_mem _ hg)) (fun g hg => hnew g (List.mem_cons_of_mem _ hg)) ?_ hp ?_
    · rcases hm with hm | ⟨jnl, hg, hm⟩
      · exact hm.trans hf
      · rw [hm, hf]
        exact hcopy jnl hg
    · intro g hg b hb' b' hmem'
      rcases hb b' hmem' with hin | hin
      · exact hfirst g hg b' hin b hb'
      · exact hold g (List.mem_cons_of_mem _ hg) b hb' b' hin

/-- A machine whose `thread_t` has one byte. -/
def Machine.sample : Machine := ⟨64, Conf.sample.wide, 1, by decide, 40, by decide⟩

/-- The thread at address `1` is `1`, as the one at `200`; every other is `0`. -/
def sampleMem (a : Nat) : UInt8 := if a = 1 ∨ a = 200 then 1 else 0

/-- Two threads that get their buffers, then the first asks again. -/
def sampleFetches : List Fetch :=
  [⟨sampleMem, 2, 0, some 100, fun i => some (1000 + 1024 * i)⟩, ⟨sampleMem, 1, 0, some 200, fun i => some (6000 + 1024 * i)⟩,
    ⟨sampleMem, 2, 0, none, fun _ => none⟩]

theorem copyThread_sampleMem {dst src : Nat} (he : sampleMem dst = sampleMem src) :
    Machine.sample.copyThread sampleMem dst src = sampleMem := by
  funext b
  unfold Machine.copyThread
  by_cases hb : dst ≤ b ∧ b < dst + Machine.sample.threadSize
  · have hsize : Machine.sample.threadSize = 1 := rfl
    obtain rfl : b = dst := by omega
    rw [if_pos hb, Nat.sub_self, Nat.add_zero, he]
  · rw [if_neg hb]

/-! ## The buffers of a thread -/

/-- Every run of calls ends; the buffer that a call returned is returned by exactly the later calls for the same thread and index; and a
call that fails leaves the table and the blocks as they were. -/
theorem jnlBufferFetch_buffers (hok : LockOk env) {w : World} (hc : Created env jnlBS_TOC m.threadSize ⟨false, false⟩ h w)
    (mem : Nat → UInt8) (fs : List Fetch) (hl : LegalRun m env h fs (Store.start mem w)) :
    ∃ rs s, fetchAll m env h fs (Store.start mem w) = some (rs, s) ∧ rs.length = fs.length ∧ (fs.zip rs).Pairwise (Consistent m) ∧
      ∀ pre f post, fs = pre ++ f :: post → ∀ rs s, fetchAll m env h pre (Store.start mem w) = some (rs, s) →
        ∀ e s', jnlBufferFetch m env h f s = some (.error e, s') →
          m.pairs h s'.mem s'.toc = m.pairs h s.mem s.toc ∧ s'.toc.ents = s.toc.ents ∧ s'.blocks m = s.blocks m := by
  have hi : Inv m h (Store.start mem w) := inv_start hok hc
  obtain ⟨rs, s, hrun, hlen, -⟩ := fetchAll_ends hok hi hl
  refine ⟨rs, s, hrun, hlen, fetchAll_consistent hok hi hl hrun, ?_⟩
  rintro pre f post rfl rs s hpre e s' hfail
  obtain ⟨hi', hl', -⟩ := hl.reach hok hi hpre
  obtain ⟨r, s₁, he, hf⟩ := jnlBufferFetch_spec hok hi' hl'
  rw [he] at hfail
  obtain ⟨rfl, rfl⟩ := Prod.mk.inj (Option.some.inj hfail)
  exact hf.failed e rfl

end

theorem jnlBufferFetch_buffers_sample : ∃ w, Created (Env.allZero fun _ => true) jnlBS_TOC 1 ⟨false, false⟩ 0 w ∧
    ∃ rs s, fetchAll .sample (Env.allZero fun _ => true) 0 sampleFetches (Store.start sampleMem w) = some (rs, s) ∧
      (sampleFetches.zip rs).Pairwise (Consistent .sample) := by
  have hok : LockOk (Env.allZero fun _ => true) := (Env.allZero_allZero _).ok
  have hcount : jnlBS_TOC ≠ 0 := by simp [jnlBS_TOC]
  obtain ⟨w, hc⟩ := created_of_got hok hcount 1 ⟨false, false⟩ (by simp [Env.allZero]) (by simp [Env.allZero])
  have hmem : ∀ f ∈ sampleFetches, f.mem = sampleMem ∧
      ∀ jnl, f.group = some jnl → Machine.sample.copyThread sampleMem jnl f.threadId = sampleMem := by
    intro f hf
    simp only [sampleFetches, List.mem_cons, List.not_mem_nil, or_false] at hf
    rcases hf with rfl | rfl | rfl
    · exact ⟨rfl, fun jnl hg => copyThread_sampleMem (by cases hg; rfl)⟩
    · exact ⟨rfl, fun jnl hg => copyThread_sampleMem (by cases hg; rfl)⟩
    · exact ⟨rfl, fun jnl hg => by cases hg⟩
  have hl : LegalRun .sample (Env.allZero fun _ => true) 0 sampleFetches (Store.start sampleMem w) := by
    refine LegalRun.of_fixed hmem (by decide) rfl (by decide) fun _ _ _ _ _ hb => ?_
    exact absurd hb List.not_mem_nil
  obtain ⟨rs, s, hrun, -, hp, -⟩ := jnlBufferFetch_buffers (m := .sample) hok hc sampleMem sampleFetches hl
  exact ⟨w, hc, rs, s, hrun, hp⟩

end ZfsTest.Jnl
