import ZfsTest.Stf.Context

/-!
# The buffer of standard output

`p_out` stands behind the tag and the bytes that are counted (`writeByte_counted`), so that every `snprintf` into `outbuf` has room
for its argument. Without NULs and without standard error the journal is a row of pieces, each the tag and a run of bytes or the
overflow warning (`feed_pieces`), and with the last flush all bytes are there (`buffer_safe_lossless`).
-/

namespace ZfsTest.Stf.Context

/-- The offset of `p_out` is that of the tag and the counted bytes. -/
structure Counted (st : State) : Prop where
  offset : st.outbuf.length = 8 * (if st.outTagged then 1 else 0) + st.outcount
  count : st.outcount < MAXCHAR
  untagged : st.outTagged = false → st.outcount = 0

/-- What `snprintf(p_out, (MAXCHAR + 12) - (p_out - outbuf), ..)` writes of its argument. -/
def State.printed (st : State) (t : List Cell) : List Cell := t.take (MAXCHAR + 12 - st.outbuf.length - 1)

/-- Both calls of `snprintf` for the next byte write their whole argument. -/
structure Room (st : State) : Prop where
  tag : st.outTagged = false → st.printed stdoutTag = stdoutTag
  byte : ∀ b : Byte, st.tagOut.printed [.src b] = [.src b]

/-- A piece of the journal: a tagged line or part of a line, or the overflow warning. -/
inductive Piece
  | text (t : List Byte)
  | warning

def Piece.cells : Piece → List Cell
  | .text t => stdoutTag ++ t.map Cell.src
  | .warning => [.lit newline] ++ overflowWarning ++ [.lit newline]

def Piece.bytes : Piece → List Byte
  | .text t => t
  | .warning => []

/-- Without the tags, the warnings and a newline at the end, the journal is what was received. -/
def Lossless (journal : List Cell) (received : List UInt8) : Prop :=
  ∃ (pieces : List Piece) (last : List Cell), journal = pieces.flatMap Piece.cells ++ last ∧
    (last = [] ∨ last = [.lit newline]) ∧ (pieces.flatMap Piece.bytes).map Byte.val = received

variable {st : State} {b : Byte}

/-! ## The offset -/

theorem tagOut_counted (hb : Counted st) : st.tagOut.outbuf.length = 8 + st.outcount ∧ st.tagOut.outTagged = true := by
  have hlen := hb.offset
  unfold State.tagOut
  split
  · rename_i ht
    rw [ht] at hlen
    exact ⟨hlen, ht⟩
  · rename_i ht
    have hfalse : st.outTagged = false := Bool.eq_false_iff.mpr ht
    rw [hfalse, hb.untagged hfalse] at hlen
    have hnil : st.outbuf = [] := List.length_eq_zero_iff.mp hlen
    refine ⟨?_, rfl⟩
    rw [hnil, hb.untagged hfalse]
    rfl

theorem room_of_counted (hb : Counted st) : Room st := by
  have hmax : MAXCHAR = 8192 := rfl
  have hcount := hb.count
  constructor
  · intro ht
    have hlen := hb.offset
    rw [ht, hb.untagged ht] at hlen
    unfold State.printed
    rw [hlen]
    rfl
  · intro b
    have hlen := (tagOut_counted hb).1
    unfold State.printed
    apply List.take_of_length_le
    rw [List.length_singleton]
    omega

/-- A state with an empty buffer. -/
theorem counted_empty {st : State} (h₁ : st.outbuf = []) (h₂ : st.outTagged = false) (h₃ : st.outcount = 0) : Counted st := by
  refine ⟨?_, ?_, fun _ => h₃⟩
  · rw [h₁, h₂, h₃]
    rfl
  · rw [h₃]
    decide

/-- A byte that leaves the buffer alone. -/
theorem Counted.congr {st' : State} (hb : Counted st) (h₁ : st'.outbuf = st.outbuf) (h₂ : st'.outTagged = st.outTagged)
    (h₃ : st'.outcount = st.outcount) : Counted st' := by
  obtain ⟨hoffset, hcount, huntagged⟩ := hb
  rw [← h₁, ← h₂, ← h₃] at hoffset
  rw [← h₃] at hcount
  rw [← h₂, ← h₃] at huntagged
  exact ⟨hoffset, hcount, huntagged⟩

theorem tagErr_counted (hb : Counted st) : Counted st.tagErr := by
  unfold State.tagErr
  split
  · exact hb
  · exact hb.congr rfl rfl rfl

/-- One byte more in the buffer, and the check of its size. -/
theorem checkSize_counted (hb : Counted st) (b : Byte) :
    Counted (State.checkSize { st.tagOut.buffer b with outcount := st.outcount + 1 }) := by
  obtain ⟨hlen, htag⟩ := tagOut_counted hb
  have hmax : MAXCHAR = 8192 := rfl
  unfold State.checkSize
  split
  · exact counted_empty rfl rfl rfl
  · rename_i hroom
    refine ⟨?_, ?_, fun ht => ?_⟩
    · show (st.tagOut.outbuf ++ [Cell.src b]).length = 8 * (if st.tagOut.outTagged then 1 else 0) + (st.outcount + 1)
      rw [List.length_append, hlen, htag, if_pos rfl, List.length_singleton]
      omega
    · show st.outcount + 1 < MAXCHAR
      have hle : ¬(st.outcount + 1 > MAXCHAR - 1) := hroom
      omega
    · have hfalse : st.tagOut.outTagged = false := ht
      rw [htag] at hfalse
      cases hfalse

/-- Every byte, of either pipe, keeps the offset. -/
theorem writeByte_counted (hb : Counted st) (b : Byte) : Counted (writeByte st b) := by
  unfold writeByte
  split
  · split
    · split
      · exact hb.congr rfl rfl rfl
      · exact hb.congr rfl rfl rfl
    · exact hb.congr rfl rfl rfl
  · split
    · split
      · exact hb.congr rfl rfl rfl
      · split
        · exact (tagErr_counted hb).congr rfl rfl rfl
        · exact counted_empty rfl rfl rfl
    · split
      · exact hb.congr rfl rfl rfl
      · split
        · exact (tagErr_counted hb).congr rfl rfl rfl
        · exact checkSize_counted hb b

theorem feed_counted (h : List Byte) : Counted (feed h) := by
  induction h using List.reverseRecOn with
  | nil => exact counted_empty rfl rfl rfl
  | append_singleton h b ih =>
    rw [feed_concat]
    exact writeByte_counted ih b

/-! ## Standard output alone -/

/-- The journal is a row of pieces, and what is buffered is the tag and the bytes that come next. -/
structure Pieces (h : List Byte) (st : State) (pieces : List Piece) (kept : List Byte) : Prop where
  journal : st.journal = pieces.flatMap Piece.cells
  outbuf : st.outbuf = if st.outTagged then stdoutTag ++ kept.map Cell.src else []
  untagged : st.outTagged = false → kept = []
  bytes : pieces.flatMap Piece.bytes ++ kept = h
  entry : st.jnlEntry = false
  cr : st.crNeeded = false

theorem tagOut_pieces {h kept : List Byte} {pieces : List Piece} (hp : Pieces h st pieces kept) :
    st.tagOut.outbuf = stdoutTag ++ kept.map Cell.src ∧ st.tagOut.journal = pieces.flatMap Piece.cells := by
  have hout := hp.outbuf
  refine ⟨?_, (tagOut_journal st).trans hp.journal⟩
  unfold State.tagOut
  split
  · rename_i ht
    rw [hout, if_pos ht]
  · rename_i ht
    rw [if_neg ht] at hout
    show st.outbuf ++ stdoutTag = _
    rw [hout, hp.untagged (Bool.eq_false_iff.mpr ht)]
    rfl

/-- The text of the next piece. -/
theorem cells_text (kept : List Byte) (b : Byte) :
    stdoutTag ++ kept.map Cell.src ++ [Cell.src b] = Piece.cells (.text (kept ++ [b])) := by
  rw [Piece.cells, List.map_append, List.map_singleton, List.append_assoc]

/-- A newline ends a piece. -/
theorem writeByte_newline {h kept : List Byte} {pieces : List Piece} (hp : Pieces h st pieces kept) (hb : b.pipe = .out)
    (hn : b.val = newline) : Pieces (h ++ [b]) (writeByte st b) (pieces ++ [Piece.text (kept ++ [b])]) [] := by
  obtain ⟨hout, hjournal⟩ := tagOut_pieces hp
  have hstep : writeByte st b = { (st.tagOut.buffer b).printOut with crNeeded := false } := by
    simp [writeByte, hn, hb, hp.entry]
  rw [hstep]
  refine ⟨?_, rfl, fun _ => rfl, ?_, ?_, rfl⟩
  · show st.tagOut.journal ++ (st.tagOut.outbuf ++ [Cell.src b]) = _
    rw [hjournal, hout, cells_text, List.flatMap_append, List.flatMap_singleton]
  · rw [List.flatMap_append, List.flatMap_singleton, List.append_nil, ← hp.bytes, List.append_assoc]
    rfl
  · exact (tagOut_jnlEntry st).trans hp.entry

/-- Any other byte is kept, or fills the buffer. -/
theorem writeByte_other {h kept : List Byte} {pieces : List Piece} (hp : Pieces h st pieces kept) (hb : b.pipe = .out)
    (hz : b.val ≠ nul) (hn : b.val ≠ newline) : ∃ pieces' kept', Pieces (h ++ [b]) (writeByte st b) pieces' kept' := by
  obtain ⟨hout, hjournal⟩ := tagOut_pieces hp
  have hstep : writeByte st b = State.checkSize { st.tagOut.buffer b with outcount := st.outcount + 1 } := by
    simp [writeByte, hz, hn, hb, hp.entry]
  have htag : st.tagOut.outTagged = true := by
    unfold State.tagOut
    split
    · rename_i ht
      exact ht
    · rfl
  have hcr : st.tagOut.crNeeded = false := by
    unfold State.tagOut
    split
    · exact hp.cr
    · exact hp.cr
  have hbytes : pieces.flatMap Piece.bytes ++ (kept ++ [b]) = h ++ [b] := by rw [← List.append_assoc, hp.bytes]
  rw [hstep]
  unfold State.checkSize
  split
  · refine ⟨pieces ++ [Piece.text (kept ++ [b]), Piece.warning], [], ?_, rfl, fun _ => rfl, ?_, ?_, rfl⟩
    · show st.tagOut.journal ++ (st.tagOut.outbuf ++ [Cell.src b]) ++ _ = _
      rw [hjournal, hout, cells_text, List.flatMap_append, List.flatMap_cons, List.flatMap_singleton, List.append_assoc]
      rfl
    · rw [List.flatMap_append, List.append_nil, List.flatMap_cons, List.flatMap_singleton, Piece.bytes, Piece.bytes,
        List.append_nil]
      exact hbytes
    · exact (tagOut_jnlEntry st).trans hp.entry
  · refine ⟨pieces, kept ++ [b], hjournal, ?_, fun ht => ?_, hbytes, ?_, hcr⟩
    · show st.tagOut.outbuf ++ [Cell.src b] = if st.tagOut.outTagged then _ else _
      rw [htag, if_pos rfl, hout, List.map_append, List.append_assoc]
      rfl
    · have hfalse : st.tagOut.outTagged = false := ht
      rw [htag] at hfalse
      cases hfalse
    · exact (tagOut_jnlEntry st).trans hp.entry

/-- A run of bytes of pipe 0 without NUL. -/
theorem feed_pieces {h : List Byte} (hh : ∀ b ∈ h, b.pipe = .out ∧ b.val ≠ nul) : ∃ pieces kept, Pieces h (feed h) pieces kept := by
  induction h using List.reverseRecOn with
  | nil => exact ⟨[], [], rfl, rfl, fun _ => rfl, rfl, rfl, rfl⟩
  | append_singleton h b ih =>
    obtain ⟨pieces, kept, hp⟩ := ih fun c hc => hh c (List.mem_append_left _ hc)
    obtain ⟨hb, hz⟩ := hh b (List.mem_append_right _ (List.mem_singleton_self b))
    rw [feed_concat]
    by_cases hn : b.val = newline
    · exact ⟨_, _, writeByte_newline hp hb hn⟩
    · exact writeByte_other hp hb hz hn

/-- The last flush writes what is kept, and a newline behind it. -/
theorem finalFlush_pieces {h kept : List Byte} {pieces : List Piece} (hp : Pieces h st pieces kept) :
    ∃ (pieces' : List Piece) (last : List Cell), (finalFlush st).journal = pieces'.flatMap Piece.cells ++ last ∧
      (last = [] ∨ last = [.lit newline]) ∧ pieces'.flatMap Piece.bytes = h := by
  have hbytes := hp.bytes
  have hout := hp.outbuf
  cases ht : st.outTagged with
  | false =>
    rw [ht, if_neg Bool.false_ne_true] at hout
    rw [hp.untagged ht, List.append_nil] at hbytes
    refine ⟨pieces, [], ?_, Or.inl rfl, hbytes⟩
    rw [finalFlush_journal, if_pos hout]
    simp [hp.cr, hp.journal]
  | true =>
    rw [ht, if_pos rfl] at hout
    refine ⟨pieces ++ [Piece.text kept], [.lit newline], ?_, Or.inr rfl, ?_⟩
    · have hne : st.outbuf ≠ [] := by
        rw [hout]
        exact List.append_ne_nil_of_left_ne_nil (by decide) _
      rw [finalFlush_journal, if_neg hne, hp.cr, if_neg Bool.false_ne_true, List.append_nil, hp.journal, hout, ← List.append_assoc,
        List.flatMap_append, List.flatMap_singleton]
      rfl
    · rw [List.flatMap_append, List.flatMap_singleton]
      exact hbytes

/-! ## Runs -/

theorem mem_received {chunks : List (Pipe × List UInt8)} {n : Pipe → Nat} {b : Byte} (hb : b ∈ (received n chunks).flatten) :
    ∃ c ∈ chunks, b.pipe = c.1 ∧ b.val ∈ c.2 := by
  have hval : ∀ {p : Pipe} {m : Nat} {vs : List UInt8}, b ∈ number p m vs → b.pipe = p ∧ b.val ∈ vs := by
    intro p m vs
    induction vs generalizing m with
    | nil =>
      intro h
      cases h
    | cons v vs ih =>
      intro h
      rcases List.mem_cons.mp h with rfl | h
      · exact ⟨rfl, List.mem_cons_self⟩
      · exact ⟨(ih h).1, List.mem_cons_of_mem _ (ih h).2⟩
  induction chunks generalizing n with
  | nil => cases hb
  | cons c chunks ih =>
    obtain ⟨p, vs⟩ := c
    rw [received, List.flatten_cons] at hb
    rcases List.mem_append.mp hb with hb | hb
    · exact ⟨(p, vs), List.mem_cons_self, hval hb⟩
    · obtain ⟨c, hc, h⟩ := ih hb
      exact ⟨c, List.mem_cons_of_mem _ hc, h⟩

theorem map_val_number (p : Pipe) (n : Nat) (vs : List UInt8) : (number p n vs).map Byte.val = vs := by
  induction vs generalizing n with
  | nil => rfl
  | cons v vs ih => exact congrArg (v :: ·) (ih (n + 1))

theorem map_val_history (chunks : List (Pipe × List UInt8)) : (history chunks).map Byte.val = chunks.flatMap Prod.snd := by
  unfold history
  generalize (fun _ : Pipe => 0) = n
  induction chunks generalizing n with
  | nil => rfl
  | cons c chunks ih =>
    obtain ⟨p, vs⟩ := c
    rw [received, List.flatten_cons, List.map_append, map_val_number, ih, List.flatMap_cons]

/-- After every byte of either pipe, `p_out` stands behind the tag and the counted bytes, and the next `snprintf` writes its whole
argument; and with pipe 0 alone and without NULs, the pieces of the journal carry exactly the bytes that were received. -/
theorem buffer_safe_lossless (chunks : List (Pipe × List UInt8)) :
    (∀ h, h <+: history chunks →
      (feed h).outbuf.length = 8 * (if (feed h).outTagged then 1 else 0) + (feed h).outcount ∧
        (feed h).outbuf.length ≤ MAXCHAR + 8 ∧ Room (feed h)) ∧
      ((∀ c ∈ chunks, c.1 = .out ∧ nul ∉ c.2) →
        Lossless (finalFlush (run chunks)).journal (chunks.flatMap Prod.snd)) := by
  constructor
  · intro h _
    have hb := feed_counted h
    refine ⟨hb.offset, ?_, room_of_counted hb⟩
    rw [hb.offset]
    have hcount := hb.count
    split <;> omega
  · intro hchunks
    have hh : ∀ b ∈ history chunks, b.pipe = .out ∧ b.val ≠ nul := by
      intro b hb
      obtain ⟨c, hc, hpipe, hval⟩ := mem_received hb
      obtain ⟨hout, hnul⟩ := hchunks c hc
      refine ⟨hpipe.trans hout, ?_⟩
      intro h
      rw [h] at hval
      exact hnul hval
    obtain ⟨pieces, kept, hp⟩ := feed_pieces hh
    obtain ⟨pieces', last, hjournal, hlast, hbytes⟩ := finalFlush_pieces hp
    rw [run_eq_feed]
    exact ⟨pieces', last, hjournal, hlast, by rw [hbytes, map_val_history]⟩

/-- Two reads of one line. -/
theorem buffer_safe_lossless_sample :
    Lossless (finalFlush (run [(.out, [104]), (.out, [105, 10, 33])])).journal [104, 105, 10, 33] :=
  (buffer_safe_lossless [(.out, [104]), (.out, [105, 10, 33])]).2 (by decide)

end ZfsTest.Stf.Context
