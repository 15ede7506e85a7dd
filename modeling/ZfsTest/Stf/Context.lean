import Mathlib.Data.List.Perm.Basic
import Mathlib.Data.List.Nodup
import ZfsTest.Prog.Fold
import ZfsTest.Stf.Journal

/-!
# The journal multiplexer `stf_jnl_context.c`

`write_pipe` gets the bytes of a test from two pipes, in any pieces and any order: pipe 0 carries the standard output and, behind
a NUL, journal entries; pipe 1 carries the standard error. It copies journal entries and standard error to the journal as they
come and keeps standard output until a newline.

A byte of the model knows the pipe and the place in its stream that it came from, and so does every byte of the journal that was
copied from a pipe (`Cell`); the program looks at neither.

A journal entry survives (`run_entries`) unless a byte of pipe 1 arrives while it is being copied: one flag, `jnl_entry`, serves
both pipes.
-/

namespace ZfsTest.Stf.Context

/-! ## Bytes -/

/-- Pipe 0 and pipe 1. -/
inductive Pipe
  | out
  | err
  deriving DecidableEq, Repr

structure Byte where
  pipe : Pipe
  pos : Nat
  val : UInt8
  deriving DecidableEq, Repr

/-- A byte of the journal: the program's own, or copied from a pipe. -/
inductive Cell
  | lit (val : UInt8)
  | src (b : Byte)
  deriving DecidableEq, Repr

def Cell.val : Cell → UInt8
  | .lit val => val
  | .src b => b.val

def nul : UInt8 := 0
def newline : UInt8 := 10

@[simp] theorem newline_ne_nul : newline ≠ nul := by decide

def lits (t : Text) : List Cell := t.map fun c => .lit c.val.toUInt8

def stdoutTag : List Cell := lits "stdout| ".toList
def stderrTag : List Cell := lits "stderr| ".toList

/-- `errmsg`, between the newlines. -/
def overflowWarning : List Cell :=
  stderrTag ++ lits (": Warning: buffer overflow, lines limited to ".toList ++ natText MAXCHAR ++ " bytes".toList)

/-! ## The program -/

/-- The static variables and the journal; `p_out` is the end of `outbuf`. -/
structure State where
  crNeeded : Bool
  jnlEntry : Bool
  outTagged : Bool
  errTagged : Bool
  outcount : Nat
  outbuf : List Cell
  journal : List Cell

def State.init : State := ⟨false, false, false, false, 0, [], []⟩

/-- `write(jnl_con_fd, ..)`. -/
def State.write (st : State) (t : List Cell) : State := { st with journal := st.journal ++ t }

/-- The tag of a line of standard error. -/
def State.tagErr (st : State) : State :=
  if st.errTagged then st else { st.write stderrTag with errTagged := true }

/-- The tag of a line of standard output. -/
def State.tagOut (st : State) : State :=
  if st.outTagged then st else { st with outbuf := st.outbuf ++ stdoutTag, outTagged := true }

def State.buffer (st : State) (b : Byte) : State := { st with outbuf := st.outbuf ++ [.src b] }

/-- The buffer printed and reset. -/
def State.printOut (st : State) : State :=
  { st.write st.outbuf with outbuf := [], outcount := 0, outTagged := false }

/-- The check of the size of the buffer. -/
def State.checkSize (st : State) : State :=
  if st.outcount > MAXCHAR - 1 then
    { st.printOut.write ([.lit newline] ++ overflowWarning ++ [.lit newline]) with crNeeded := false }
  else st

/-- The switch of `write_pipe`. -/
def writeByte (st : State) (b : Byte) : State :=
  if b.val = nul then
    match b.pipe with
    | .out =>
      if st.crNeeded then { st.write [.lit newline] with jnlEntry := true, crNeeded := false }
      else { st with jnlEntry := true }
    | .err => { st.write [.src b] with crNeeded := true }
  else if b.val = newline then
    if st.jnlEntry then { st.write [.src b] with crNeeded := false, jnlEntry := false }
    else
      match b.pipe with
      | .err => { st.tagErr.write [.src b] with crNeeded := false, errTagged := false }
      | .out => { (st.tagOut.buffer b).printOut with crNeeded := false }
  else if st.jnlEntry then st.write [.src b]
  else
    match b.pipe with
    | .err => { st.tagErr.write [.src b] with crNeeded := true }
    | .out => State.checkSize { st.tagOut.buffer b with outcount := st.outcount + 1 }

/-- `write_pipe`; `pipenum` is the pipe of the bytes. -/
def writePipe (buf : List Byte) (st : State) : State := buf.foldl writeByte st

/-- The end of `main`: what is left of the standard output, and the newline that is still needed. -/
def finalFlush (st : State) : State :=
  let st :=
    if st.outbuf ≠ [] then
      let st := if st.crNeeded then st.write [.lit newline] else st
      { (st.write st.outbuf).write [.lit newline] with crNeeded := false }
    else st
  if st.crNeeded then st.write [.lit newline] else st

/-! ## Runs -/

/-- The bytes of one read, from place `n` of the stream on. -/
def number (pipe : Pipe) : Nat → List UInt8 → List Byte
  | _, [] => []
  | n, v :: vs => ⟨pipe, n, v⟩ :: number pipe (n + 1) vs

/-- What the reads deliver; `n p` bytes of pipe `p` came before. -/
def received (n : Pipe → Nat) : List (Pipe × List UInt8) → List (List Byte)
  | [] => []
  | (p, vs) :: chunks =>
    number p (n p) vs :: received (fun q => if q = p then n p + vs.length else n q) chunks

/-- A run: the reads in the order in which they reach `write_pipe`. -/
def run (chunks : List (Pipe × List UInt8)) : State :=
  (received (fun _ => 0) chunks).foldl (fun st buf => writePipe buf st) State.init

/-- All bytes in the order in which they reach `write_pipe`. -/
def history (chunks : List (Pipe × List UInt8)) : List Byte := (received (fun _ => 0) chunks).flatten

/-- The state after some bytes. -/
def feed (h : List Byte) : State := h.foldl writeByte State.init

/-- The bytes of one pipe. -/
def stream (p : Pipe) (h : List Byte) : List Byte := h.filter fun b => b.pipe = p

/-- Pieces make no difference. -/
theorem run_eq_feed (chunks : List (Pipe × List UInt8)) : run chunks = feed (history chunks) := by
  unfold run feed history writePipe
  rw [List.foldl_flatten]

theorem feed_concat (h : List Byte) (b : Byte) : feed (h ++ [b]) = writeByte (feed h) b := by
  rw [feed, List.foldl_append]
  rfl

@[simp] theorem stream_nil (p : Pipe) : stream p [] = [] := rfl

theorem stream_concat_self {p : Pipe} {b : Byte} (hb : b.pipe = p) (h : List Byte) : stream p (h ++ [b]) = stream p h ++ [b] := by
  simp [stream, hb]

theorem stream_concat_ne {p : Pipe} {b : Byte} (hb : b.pipe ≠ p) (h : List Byte) : stream p (h ++ [b]) = stream p h := by
  simp [stream, hb]

/-! ## Every byte arrives once -/

theorem mem_number {p : Pipe} {n : Nat} {vs : List UInt8} {b : Byte} (hb : b ∈ number p n vs) :
    b.pipe = p ∧ n ≤ b.pos ∧ b.pos < n + vs.length := by
  induction vs generalizing n with
  | nil => cases hb
  | cons v vs ih =>
    rw [List.length_cons]
    rcases List.mem_cons.mp hb with rfl | hb
    · exact ⟨rfl, Nat.le_refl _, by simp only; omega⟩
    · obtain ⟨hp, hlo, hhi⟩ := ih hb
      exact ⟨hp, by omega, by omega⟩

theorem nodup_number (p : Pipe) (n : Nat) (vs : List UInt8) : (number p n vs).Nodup := by
  induction vs generalizing n with
  | nil => exact List.nodup_nil
  | cons v vs ih =>
    refine List.nodup_cons.mpr ⟨fun hb => ?_, ih (n + 1)⟩
    obtain ⟨-, hlo, -⟩ := mem_number hb
    simp only at hlo
    omega

theorem le_pos_of_mem_received {chunks : List (Pipe × List UInt8)} {n : Pipe → Nat} {b : Byte}
    (hb : b ∈ (received n chunks).flatten) : n b.pipe ≤ b.pos := by
  induction chunks generalizing n with
  | nil => cases hb
  | cons x chunks ih =>
    obtain ⟨p, vs⟩ := x
    rw [received, List.flatten_cons] at hb
    rcases List.mem_append.mp hb with hb | hb
    · obtain ⟨rfl, hlo, -⟩ := mem_number hb
      exact hlo
    · have h := ih hb
      split at h
      · rename_i hp
        rw [hp]
        omega
      · exact h

theorem nodup_received (n : Pipe → Nat) (chunks : List (Pipe × List UInt8)) : (received n chunks).flatten.Nodup := by
  induction chunks generalizing n with
  | nil => exact List.nodup_nil
  | cons x chunks ih =>
    obtain ⟨p, vs⟩ := x
    rw [received, List.flatten_cons]
    refine List.nodup_append.mpr ⟨nodup_number p (n p) vs, ih _, ?_⟩
    rintro a ha b hb rfl
    obtain ⟨rfl, -, hhi⟩ := mem_number ha
    have hlo := le_pos_of_mem_received hb
    rw [if_pos rfl] at hlo
    omega

theorem nodup_history (chunks : List (Pipe × List UInt8)) : (history chunks).Nodup := nodup_received _ chunks

/-! ## One byte -/

@[simp] theorem write_jnlEntry (st : State) (t : List Cell) : (st.write t).jnlEntry = st.jnlEntry := rfl
@[simp] theorem write_journal (st : State) (t : List Cell) : (st.write t).journal = st.journal ++ t := rfl
@[simp] theorem write_outbuf (st : State) (t : List Cell) : (st.write t).outbuf = st.outbuf := rfl
@[simp] theorem write_outcount (st : State) (t : List Cell) : (st.write t).outcount = st.outcount := rfl
@[simp] theorem write_outTagged (st : State) (t : List Cell) : (st.write t).outTagged = st.outTagged := rfl
@[simp] theorem write_errTagged (st : State) (t : List Cell) : (st.write t).errTagged = st.errTagged := rfl
@[simp] theorem write_crNeeded (st : State) (t : List Cell) : (st.write t).crNeeded = st.crNeeded := rfl

@[simp] theorem tagErr_jnlEntry (st : State) : st.tagErr.jnlEntry = st.jnlEntry := by
  unfold State.tagErr
  split <;> rfl

@[simp] theorem tagOut_jnlEntry (st : State) : st.tagOut.jnlEntry = st.jnlEntry := by
  unfold State.tagOut
  split <;> rfl

@[simp] theorem checkSize_jnlEntry (st : State) : st.checkSize.jnlEntry = st.jnlEntry := by
  unfold State.checkSize
  split <;> rfl

/-- The flag `jnl_entry` is set by a NUL on pipe 0 and cleared by a newline on either pipe. -/
theorem writeByte_jnlEntry (st : State) (b : Byte) : (writeByte st b).jnlEntry =
    if b.val = nul then (if b.pipe = .out then true else st.jnlEntry) else if b.val = newline then false else st.jnlEntry := by
  unfold writeByte
  cases b.pipe with
  | out =>
    by_cases hz : b.val = nul
    · simp only [if_pos hz]
      split <;> rfl
    · by_cases hn : b.val = newline
      · cases he : st.jnlEntry <;> simp [hn, State.printOut, State.buffer, he]
      · cases he : st.jnlEntry <;> simp [hz, hn, State.buffer, he]
  | err =>
    by_cases hz : b.val = nul
    · simp [hz]
    · by_cases hn : b.val = newline
      · cases he : st.jnlEntry <;> simp [hn, he]
      · cases he : st.jnlEntry <;> simp [hz, hn, he]

/-- In an entry, a byte is copied. -/
theorem writeByte_entry {st : State} {b : Byte} (he : st.jnlEntry = true) (hz : b.val ≠ nul) :
    (writeByte st b).journal = st.journal ++ [Cell.src b] := by
  unfold writeByte
  by_cases hn : b.val = newline
  · simp [hn, he]
  · simp [hz, hn, he]

theorem tagErr_extends (st : State) : st.journal <+: st.tagErr.journal := by
  unfold State.tagErr
  split
  · exact List.prefix_rfl
  · exact List.prefix_append _ _

theorem tagOut_journal (st : State) : st.tagOut.journal = st.journal := by
  unfold State.tagOut
  split <;> rfl

theorem checkSize_extends (st : State) : st.journal <+: st.checkSize.journal := by
  unfold State.checkSize
  split
  · rw [write_journal, State.printOut, write_journal, List.append_assoc]
    exact List.prefix_append _ _
  · exact List.prefix_rfl

/-- What is in the journal stays. -/
theorem writeByte_extends (st : State) (b : Byte) : st.journal <+: (writeByte st b).journal := by
  unfold writeByte
  split
  · split
    · split
      · exact List.prefix_append _ _
      · exact List.prefix_rfl
    · exact List.prefix_append _ _
  · split
    · split
      · exact List.prefix_append _ _
      · split
        · exact (tagErr_extends st).trans (List.prefix_append _ _)
        · simp only [State.printOut, State.buffer, write_journal, tagOut_journal]
          exact List.prefix_append _ _
    · split
      · exact List.prefix_append _ _
      · split
        · exact (tagErr_extends st).trans (List.prefix_append _ _)
        · refine List.IsPrefix.trans ?_ (checkSize_extends _)
          simp [State.buffer, tagOut_journal]

/-! ## The entries of a stream -/

/-- Reading pipe 0: the text since the last NUL unless a newline came behind it, and the entries that ended. -/
def scan : Option (List Byte) × List (List Byte) → Byte → Option (List Byte) × List (List Byte)
  | (o, done), b =>
    if b.val = nul then (some [], done)
    else if b.val = newline then (none, done ++ (o.map fun e => e ++ [b]).toList)
    else (o.map fun e => e ++ [b], done)

def scanned (s : List Byte) : Option (List Byte) × List (List Byte) := s.foldl scan (none, [])

theorem scanned_concat (s : List Byte) (b : Byte) : scanned (s ++ [b]) = scan (scanned s) b := by
  rw [scanned, List.foldl_append]
  rfl

theorem scan_done_extends (x : Option (List Byte) × List (List Byte)) (b : Byte) : x.2 <+: (scan x b).2 := by
  obtain ⟨o, done⟩ := x
  simp only [scan]
  split
  · exact List.prefix_rfl
  · split
    · exact List.prefix_append _ _
    · exact List.prefix_rfl

theorem foldl_scan_done_extends (v : List Byte) (x : Option (List Byte) × List (List Byte)) : x.2 <+: (v.foldl scan x).2 := by
  induction v generalizing x with
  | nil => exact List.prefix_rfl
  | cons b v ih => exact (scan_done_extends x b).trans (ih _)

theorem foldl_scan_text {e : List Byte} (he : ∀ b ∈ e, b.val ≠ nul ∧ b.val ≠ newline) (t : List Byte) (done : List (List Byte)) :
    e.foldl scan (some t, done) = (some (t ++ e), done) := by
  induction e generalizing t with
  | nil => simp
  | cons b e ih =>
    obtain ⟨hz, hn⟩ := he b List.mem_cons_self
    have hb : scan (some t, done) b = (some (t ++ [b]), done) := by simp [scan, hz, hn]
    rw [List.foldl_cons, hb, ih fun c hc => he c (List.mem_cons_of_mem _ hc)]
    simp

/-- A journal entry in a stream: a NUL, text without NUL or newline, and a newline. -/
structure IsEntry (s : List Byte) (e : List Byte) (n : Byte) : Prop where
  found : ∃ u z v, s = u ++ z :: (e ++ n :: v) ∧ z.val = nul
  text : ∀ b ∈ e, b.val ≠ nul ∧ b.val ≠ newline
  ends : n.val = newline

theorem IsEntry.mem_scanned {s e : List Byte} {n : Byte} (h : IsEntry s e n) : e ++ [n] ∈ (scanned s).2 := by
  obtain ⟨u, z, v, rfl, hz⟩ := h.found
  rw [scanned, List.foldl_append, List.foldl_cons, List.foldl_append, List.foldl_cons]
  apply (foldl_scan_done_extends v _).subset
  have hz' : scan (u.foldl scan (none, [])) z = (some [], (u.foldl scan (none, [])).2) := by simp [scan, hz]
  rw [hz', foldl_scan_text h.text]
  simp [scan, h.ends]

/-! ## Entries are copied -/

/-- What holds while no byte of pipe 1 comes into an entry: the flag says whether an entry is open, its text is the end of the
journal, and the entries that ended are in the journal. -/
structure Copied (h : List Byte) (st : State) : Prop where
  flag : st.jnlEntry = (scanned (stream .out h)).1.isSome
  opened : ∀ e, (scanned (stream .out h)).1 = some e → e.map Cell.src <:+ st.journal
  done : ∀ e ∈ (scanned (stream .out h)).2, e.map Cell.src <:+: st.journal

/-- A byte of pipe 1 does not come into an entry. -/
def EntryAlone (st : State) (b : Byte) : Prop := b.pipe = .err → st.jnlEntry = false

theorem Copied.init : Copied [] State.init := by
  constructor
  · rfl
  · intro e he
    cases he
  · intro e he
    cases he

theorem Copied.err {h : List Byte} {st : State} {b : Byte} (hc : Copied h st) (hb : b.pipe = .err) (hok : EntryAlone st b) :
    Copied (h ++ [b]) (writeByte st b) := by
  have hs : stream .out (h ++ [b]) = stream .out h := stream_concat_ne (by rw [hb]; decide) h
  have hflag := hok hb
  have hnone : (scanned (stream .out h)).1 = none := by
    have := hc.flag
    rw [hflag] at this
    exact Option.isSome_eq_false_iff.mp this.symm |> Option.isNone_iff_eq_none.mp
  constructor
  · rw [hs, writeByte_jnlEntry, hflag, hnone]
    simp [hb]
  · intro e he
    rw [hs, hnone] at he
    cases he
  · intro e he
    rw [hs] at he
    exact (hc.done e he).trans (writeByte_extends st b).isInfix

theorem Copied.out {h : List Byte} {st : State} {b : Byte} (hc : Copied h st) (hb : b.pipe = .out) :
    Copied (h ++ [b]) (writeByte st b) := by
  have hs : stream .out (h ++ [b]) = stream .out h ++ [b] := stream_concat_self hb h
  have hflag := hc.flag
  have hmore : ∀ e ∈ (scanned (stream .out h)).2, e.map Cell.src <:+: (writeByte st b).journal := fun e he =>
    (hc.done e he).trans (writeByte_extends st b).isInfix
  by_cases hz : b.val = nul
  · have hscan : scanned (stream .out (h ++ [b])) = (some [], (scanned (stream .out h)).2) := by
      rw [hs, scanned_concat]
      simp [scan, hz]
    constructor
    · rw [hscan, writeByte_jnlEntry, if_pos hz, if_pos hb]
      rfl
    · intro e he
      rw [hscan] at he
      cases he
      exact List.nil_suffix
    · rw [hscan]
      exact hmore
  · by_cases hn : b.val = newline
    · have hscan : scanned (stream .out (h ++ [b])) =
          (none, (scanned (stream .out h)).2 ++ ((scanned (stream .out h)).1.map fun e => e ++ [b]).toList) := by
        rw [hs, scanned_concat]
        simp [scan, hn]
      constructor
      · rw [hscan, writeByte_jnlEntry, if_neg hz, if_pos hn]
        rfl
      · intro e he
        rw [hscan] at he
        cases he
      · intro e he
        rw [hscan] at he
        rcases List.mem_append.mp he with he | he
        · exact hmore e he
        · -- the newline ends the open entry, whose text stands at the end of the journal
          obtain ⟨e₀, ho, rfl⟩ := Option.map_eq_some_iff.mp (Option.mem_toList.mp he)
          rw [ho] at hflag
          rw [writeByte_entry hflag hz]
          obtain ⟨a, ha⟩ := hc.opened e₀ ho
          exact ⟨a, [], by rw [← ha]; simp⟩
    · have hscan : scanned (stream .out (h ++ [b])) =
          ((scanned (stream .out h)).1.map fun e => e ++ [b], (scanned (stream .out h)).2) := by
        rw [hs, scanned_concat]
        simp [scan, hz, hn]
      constructor
      · rw [hscan, writeByte_jnlEntry, if_neg hz, if_neg hn, hflag]
        simp
      · intro e he
        rw [hscan] at he
        obtain ⟨e₀, ho, rfl⟩ := Option.map_eq_some_iff.mp he
        rw [ho] at hflag
        rw [writeByte_entry hflag hz]
        obtain ⟨a, ha⟩ := hc.opened e₀ ho
        exact ⟨a, by rw [← ha]; simp⟩
      · rw [hscan]
        exact hmore

theorem feed_copied (h : List Byte) (hok : ∀ pre b post, h = pre ++ b :: post → EntryAlone (feed pre) b) :
    Copied h (feed h) := by
  refine foldl_induction Copied.init (fun h st b hc hb => ?_) h hok
  cases hp : b.pipe with
  | out => exact hc.out hp
  | err => exact hc.err hp hb

/-! ## No byte is written twice -/

/-- The bytes that came from a pipe. -/
def sources (t : List Cell) : List Byte := t.filterMap fun
  | .lit _ => none
  | .src b => some b

@[simp] theorem sources_nil : sources [] = [] := rfl
@[simp] theorem sources_append (t u : List Cell) : sources (t ++ u) = sources t ++ sources u := List.filterMap_append
@[simp] theorem sources_src (b : Byte) : sources [.src b] = [b] := rfl
@[simp] theorem sources_lit (v : UInt8) (t : List Cell) : sources (.lit v :: t) = sources t := rfl

@[simp] theorem sources_lits (t : Text) : sources (lits t) = [] := by
  induction t with
  | nil => rfl
  | cons c t ih => exact ih

@[simp] theorem sources_stdoutTag : sources stdoutTag = [] := sources_lits _
@[simp] theorem sources_stderrTag : sources stderrTag = [] := sources_lits _

@[simp] theorem sources_overflowWarning : sources overflowWarning = [] := by
  rw [overflowWarning, sources_append, sources_stderrTag, sources_lits]
  rfl

theorem sources_map_src (t : List Byte) : sources (t.map Cell.src) = t := by
  induction t with
  | nil => rfl
  | cons b t ih => exact congrArg (b :: ·) ih

theorem mem_sources {t : List Cell} {b : Byte} : b ∈ sources t ↔ Cell.src b ∈ t := by
  unfold sources
  rw [List.mem_filterMap]
  constructor
  · rintro ⟨c, hc, hb⟩
    cases c with
    | lit v => cases hb
    | src b' =>
      cases hb
      exact hc
  · intro hb
    exact ⟨_, hb, rfl⟩

/-- The bytes in the journal and in the buffer. -/
def State.bytes (st : State) : List Byte := sources st.journal ++ sources st.outbuf

theorem tagErr_bytes (st : State) : st.tagErr.bytes = st.bytes := by
  unfold State.tagErr State.bytes
  split <;> simp

theorem tagOut_bytes (st : State) : st.tagOut.bytes = st.bytes := by
  unfold State.tagOut State.bytes
  split <;> simp

theorem checkSize_bytes (st : State) : st.checkSize.bytes = st.bytes := by
  unfold State.checkSize State.bytes
  split
  · simp [State.printOut]
  · rfl

theorem write_src_bytes (st : State) (b : Byte) : (st.write [.src b]).bytes.Perm (b :: st.bytes) := by
  simp only [State.bytes, write_journal, write_outbuf, sources_append, sources_src, List.append_assoc, List.singleton_append]
  exact List.perm_middle

/-- A byte is written or kept once, or dropped. -/
theorem writeByte_bytes (st : State) (b : Byte) :
    (writeByte st b).bytes = st.bytes ∨ (writeByte st b).bytes.Perm (b :: st.bytes) := by
  unfold writeByte
  split
  · split
    · left
      split
      · simp [State.bytes]
      · rfl
    · exact Or.inr (write_src_bytes st b)
  · right
    split
    · split
      · exact write_src_bytes st b
      · split
        · have h := write_src_bytes st.tagErr b
          rw [tagErr_bytes] at h
          exact h
        · rw [← tagOut_bytes st]
          simp only [State.bytes, State.printOut, State.buffer, write_journal, sources_append, sources_src, sources_nil,
            List.append_nil, ← List.append_assoc]
          exact List.perm_append_singleton _ _
    · split
      · exact write_src_bytes st b
      · split
        · have h := write_src_bytes st.tagErr b
          rw [tagErr_bytes] at h
          exact h
        · rw [checkSize_bytes, ← tagOut_bytes st]
          simp only [State.bytes, State.buffer, sources_append, sources_src, ← List.append_assoc]
          exact List.perm_append_singleton _ _

theorem feed_bytes {h : List Byte} (hn : h.Nodup) : (feed h).bytes.Nodup ∧ ∀ b ∈ (feed h).bytes, b ∈ h := by
  induction h using List.reverseRecOn with
  | nil => exact ⟨List.nodup_nil, fun b hb => nomatch hb⟩
  | append_singleton h b ih =>
    obtain ⟨hh, -, hdis⟩ := List.nodup_append.mp hn
    obtain ⟨hnd, hmem⟩ := ih hh
    have hb : b ∉ (feed h).bytes := fun hb => hdis b (hmem b hb) b (List.mem_singleton_self b) rfl
    rw [feed_concat]
    rcases writeByte_bytes (feed h) b with heq | hperm
    · rw [heq]
      exact ⟨hnd, fun c hc => List.mem_append_left _ (hmem c hc)⟩
    · refine ⟨hperm.nodup_iff.mpr (List.nodup_cons.mpr ⟨hb, hnd⟩), fun c hc => ?_⟩
      rcases List.mem_cons.mp (hperm.mem_iff.mp hc) with rfl | hc
      · exact List.mem_append_right _ (List.mem_singleton_self c)
      · exact List.mem_append_left _ (hmem c hc)

/-- The last flush writes what there is in the buffer. -/
theorem finalFlush_journal (st : State) : (finalFlush st).journal = st.journal ++ (if st.crNeeded then [Cell.lit newline] else []) ++
    (if st.outbuf = [] then [] else st.outbuf ++ [Cell.lit newline]) := by
  unfold finalFlush
  by_cases ho : st.outbuf = []
  · by_cases hc : st.crNeeded = true
    · simp [ho, hc]
    · simp [ho, hc]
  · by_cases hc : st.crNeeded = true
    · simp [ho, hc]
    · simp [ho, hc]

theorem finalFlush_sources (st : State) : sources (finalFlush st).journal = st.bytes := by
  have hcr : sources (if st.crNeeded then [Cell.lit newline] else []) = [] := by
    split <;> rfl
  have hbuf : sources (if st.outbuf = [] then [] else st.outbuf ++ [Cell.lit newline]) = sources st.outbuf := by
    split
    · rename_i h
      rw [h]
    · simp
  rw [finalFlush_journal, sources_append, sources_append, hcr, hbuf, List.append_nil]
  rfl

theorem finalFlush_extends (st : State) : st.journal <+: (finalFlush st).journal := by
  rw [finalFlush_journal, List.append_assoc]
  exact List.prefix_append _ _

/-! ## Entries survive -/

/-- The text of an entry and its newline stand in the journal in one piece, and nowhere else. -/
def Survives (journal : List Cell) (e : List Byte) (n : Byte) : Prop :=
  ∃ a z, journal = a ++ (e ++ [n]).map Cell.src ++ z ∧ ∀ b ∈ e ++ [n], Cell.src b ∉ a ∧ Cell.src b ∉ z

theorem survives_of_infix {journal : List Cell} {e : List Byte} {n : Byte} (hn : (sources journal).Nodup)
    (h : (e ++ [n]).map Cell.src <:+: journal) : Survives journal e n := by
  obtain ⟨a, z, rfl⟩ := h
  refine ⟨a, z, rfl, fun b hb => ?_⟩
  rw [sources_append, sources_append, sources_map_src] at hn
  obtain ⟨hn₁, -, hz⟩ := List.nodup_append.mp hn
  obtain ⟨-, -, ha⟩ := List.nodup_append.mp hn₁
  constructor
  · exact fun h => ha b (mem_sources.mpr h) b hb rfl
  · exact fun h => hz b (List.mem_append_right _ hb) b (mem_sources.mpr h) rfl

/-- In a run in which no byte of pipe 1 arrives while an entry is being copied, every entry of pipe 0 survives: its text and its
newline are written once and in one piece, with no byte of pipe 1 among them. -/
theorem run_entries (chunks : List (Pipe × List UInt8))
    (hok : ∀ pre b post, history chunks = pre ++ b :: post → EntryAlone (feed pre) b) (e : List Byte) (n : Byte)
    (he : IsEntry (stream .out (history chunks)) e n) : Survives (finalFlush (run chunks)).journal e n := by
  rw [run_eq_feed]
  have hcopied := feed_copied (history chunks) hok
  obtain ⟨hnodup, -⟩ := feed_bytes (nodup_history chunks)
  rw [← finalFlush_sources] at hnodup
  apply survives_of_infix hnodup
  exact (hcopied.done _ he.mem_scanned).trans (finalFlush_extends _).isInfix

/-- An entry between two lines of standard error. -/
theorem run_entries_sample : ∃ e n, e ≠ [] ∧
    Survives (finalFlush (run [(.err, [120, 10]), (.out, [111, 0]), (.out, [101, 10]), (.err, [121])])).journal e n := by
  refine ⟨[⟨.out, 2, 101⟩], ⟨.out, 3, 10⟩, by decide, run_entries _ (forall_steps ?_) _ _ ⟨?_, by decide, rfl⟩⟩
  · unfold EntryAlone
    decide
  · exact ⟨[⟨.out, 0, 111⟩], ⟨.out, 1, 0⟩, [], rfl, rfl⟩

/-- A byte of pipe 1 in the middle of an entry. -/
theorem not_run_entries : ¬∀ (chunks : List (Pipe × List UInt8)) (e : List Byte) (n : Byte),
    IsEntry (stream .out (history chunks)) e n → Survives (finalFlush (run chunks)).journal e n := by
  intro H
  obtain ⟨a, z, h, -⟩ := H [(.out, [0, 101]), (.err, [120]), (.out, [10])] [⟨.out, 1, 101⟩] ⟨.out, 2, 10⟩
    ⟨⟨[], ⟨.out, 0, 0⟩, [], rfl, rfl⟩, by decide, rfl⟩
  have hin : ([⟨.out, 1, 101⟩, ⟨.out, 2, 10⟩].map Cell.src) <:+:
      (finalFlush (run [(.out, [0, 101]), (.err, [120]), (.out, [10])])).journal := ⟨a, z, h.symm⟩
  exact absurd hin (by decide)

end ZfsTest.Stf.Context
