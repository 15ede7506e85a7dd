import ZfsTest.Text.Words
import ZfsTest.Stf.Context

/-!
# Lines of the journal and their tags

What `stf_jnl_context` writes, split at newlines: a line of standard output, a line of standard error, a journal entry or the
overflow warning (`Tagged`). Standard error and journal entries are written as they come, standard output only as whole lines
from the buffer, and nothing keeps one of them from being written into a line of another that is still open. As long as that does
not happen (`StepOk`, `FlushOk`), every line is tagged (`run_tagged`).

The invariant `Inv` splits the journal into whole lines and one open line; the flags say what the open line is.
-/

namespace ZfsTest.Stf.Context

/-! ## Text of the streams -/

/-- Reading pipe 0: the text of the entry that is open, and the text outside of entries. -/
def track : Option (List Byte) × List Byte → Byte → Option (List Byte) × List Byte
  | (o, t), b =>
    if b.val = nul then (some (o.getD []), t)
    else if b.val = newline then (none, t)
    else
      match o with
      | some e => (some (e ++ [b]), t)
      | none => (none, t ++ [b])

def tracked (s : List Byte) : Option (List Byte) × List Byte := s.foldl track (none, [])

/-- Standard output: the bytes of pipe 0 that are in no entry, without its newlines. -/
def stdoutText (s : List Byte) : List Byte := (tracked s).2

/-- A line of the journal, for the bytes `h` that have arrived. -/
inductive Tagged (h : List Byte) : List Cell → Prop
  | stdout (t : List Byte) (ht : t <:+: stdoutText (stream .out h)) : Tagged h (stdoutTag ++ t.map Cell.src)
  | stderr (t : List Byte) (ht : t <:+: stream .err h) : Tagged h (stderrTag ++ t.map Cell.src)
  | entry (u : List Byte) (z : Byte) (e v : List Byte) (hs : stream .out h = u ++ z :: (e ++ v)) (hz : z.val = nul)
    (he : ∀ b ∈ e, b.val ≠ newline) (hv : ∀ n ∈ v.head?, n.val = newline) :
    Tagged h ((e.filter fun b => b.val ≠ nul).map Cell.src)
  | warning : Tagged h overflowWarning

/-! ## Steps that keep lines apart -/

/-- The next byte does not go into a line of another kind: a byte of pipe 1 does not come into an entry, and no NUL comes first in
a line of pipe 1; while a line of pipe 1 is open, pipe 0 neither begins an entry nor makes the buffer be written. -/
structure StepOk (st : State) (b : Byte) : Prop where
  entry : b.pipe = .err → st.jnlEntry = false
  nul : b.pipe = .err → b.val = nul → st.errTagged = true
  stderr : b.pipe = .out → st.errTagged = true → b.val ≠ Context.nul ∧ b.val ≠ newline ∧ st.outcount + 1 < MAXCHAR

instance (st : State) (b : Byte) : Decidable (StepOk st b) :=
  decidable_of_iff ((b.pipe = .err → st.jnlEntry = false) ∧ (b.pipe = .err → b.val = Context.nul → st.errTagged = true) ∧
    (b.pipe = .out → st.errTagged = true → b.val ≠ Context.nul ∧ b.val ≠ newline ∧ st.outcount + 1 < MAXCHAR))
    ⟨fun h => ⟨h.1, h.2.1, h.2.2⟩, fun h => ⟨h.entry, h.nul, h.stderr⟩⟩

/-- The last flush does not go into an entry: there is nothing to flush, or no entry is open, or a line ends here. -/
def FlushOk (st : State) : Prop :=
  st.outbuf ≠ [] → st.jnlEntry = true → ∀ c ∈ st.journal.getLast?, c.val = newline

instance (st : State) : Decidable (FlushOk st) :=
  inferInstanceAs (Decidable (st.outbuf ≠ [] → st.jnlEntry = true → ∀ c ∈ st.journal.getLast?, c.val = newline))

/-! ## The text of an open entry -/

theorem tracked_concat (s : List Byte) (b : Byte) : tracked (s ++ [b]) = track (tracked s) b := by
  rw [tracked, List.foldl_append]
  rfl

theorem track_nul {b : Byte} (hz : b.val = nul) (x : Option (List Byte) × List Byte) : track x b = (some (x.1.getD []), x.2) := by
  simp [track, hz]

theorem track_newline {b : Byte} (hn : b.val = newline) (x : Option (List Byte) × List Byte) : track x b = (none, x.2) := by
  simp [track, hn]

theorem track_some {b : Byte} (hz : b.val ≠ nul) (hn : b.val ≠ newline) (e t : List Byte) :
    track (some e, t) b = (some (e ++ [b]), t) := by
  simp [track, hz, hn]

theorem track_none {b : Byte} (hz : b.val ≠ nul) (hn : b.val ≠ newline) (t : List Byte) :
    track (none, t) b = (none, t ++ [b]) := by
  simp [track, hz, hn]

theorem track_extends (x : Option (List Byte) × List Byte) (b : Byte) : x.2 <+: (track x b).2 := by
  obtain ⟨o, t⟩ := x
  by_cases hz : b.val = nul
  · simp only [track_nul hz, List.prefix_rfl]
  · by_cases hn : b.val = newline
    · simp only [track_newline hn, List.prefix_rfl]
    · cases o with
      | none =>
        rw [track_none hz hn]
        exact List.prefix_append _ _
      | some e => simp only [track_some hz hn, List.prefix_rfl]

/-- An open entry is what followed a NUL, without further NULs. -/
theorem tracked_open {s t : List Byte} (h : (tracked s).1 = some t) :
    ∃ u z e, s = u ++ z :: e ∧ z.val = nul ∧ (∀ b ∈ e, b.val ≠ newline) ∧ t = e.filter fun b => b.val ≠ nul := by
  induction s using List.reverseRecOn generalizing t with
  | nil => cases h
  | append_singleton s b ih =>
    rw [tracked_concat] at h
    by_cases hz : b.val = nul
    · rw [track_nul hz] at h
      cases ho : (tracked s).1 with
      | none =>
        rw [ho] at h
        cases h
        exact ⟨s, b, [], rfl, hz, List.forall_mem_nil _, rfl⟩
      | some t₀ =>
        obtain ⟨u, z, e, rfl, hzz, he, rfl⟩ := ih ho
        rw [ho] at h
        cases h
        refine ⟨u, z, e ++ [b], by simp, hzz, ?_, by simp [hz]⟩
        intro c hc
        rcases List.mem_append.mp hc with hc | hc
        · exact he c hc
        · rw [List.mem_singleton.mp hc, hz]
          decide
    · by_cases hn : b.val = newline
      · rw [track_newline hn] at h
        cases h
      · cases ho : (tracked s).1 with
        | none =>
          rw [show tracked s = (none, (tracked s).2) from Prod.ext ho rfl, track_none hz hn] at h
          cases h
        | some t₀ =>
          obtain ⟨u, z, e, rfl, hzz, he, rfl⟩ := ih ho
          rw [show tracked (u ++ z :: e) = (some _, (tracked (u ++ z :: e)).2) from Prod.ext ho rfl, track_some hz hn] at h
          cases h
          refine ⟨u, z, e ++ [b], by simp, hzz, ?_, by simp [hz]⟩
          intro c hc
          rcases List.mem_append.mp hc with hc | hc
          · exact he c hc
          · rw [List.mem_singleton.mp hc]
            exact hn

/-! ## Whole lines -/

/-- Lines with a property, each with its newline. -/
inductive Whole (P : List Cell → Prop) : List Cell → Prop
  | nil : Whole P []
  | line {t l : List Cell} {c : Cell} (ht : Whole P t) (hl : P l) (hn : ∀ x ∈ l, x.val ≠ newline) (hc : c.val = newline) :
    Whole P (t ++ (l ++ [c]))

/-- The lines of the journal. -/
def journalLines (t : List Cell) : List (List Cell) := linesBy (fun c => decide (c.val = newline)) t

variable {P Q : List Cell → Prop} {t : List Cell}

theorem Whole.mono (h : Whole P t) (hPQ : ∀ l, P l → Q l) : Whole Q t := by
  induction h with
  | nil => exact .nil
  | line ht hl hn hc ih => exact .line ih (hPQ _ hl) hn hc

theorem Whole.journalLines_append (h : Whole P t) (w : List Cell) : journalLines (t ++ w) = journalLines t ++ journalLines w := by
  cases h with
  | nil => rfl
  | @line t l c ht hl hn hc =>
    have hnl : decide (c.val = newline) = true := by simp [hc]
    have h := @linesBy_newline _ (fun c => decide (c.val = newline)) _ hnl (t ++ l) w
    simpa [journalLines] using h

theorem journalLines_open {l : List Cell} (hn : ∀ x ∈ l, x.val ≠ newline) : ∀ m ∈ journalLines l, m = l := by
  intro m hm
  by_cases hl : l = []
  · subst hl
    cases hm
  · rw [journalLines, linesBy_single (fun c hc => decide_eq_false (hn c hc)) hl] at hm
    exact List.mem_singleton.mp hm

theorem Whole.mem_journalLines (h : Whole P t) : ∀ l ∈ journalLines t, P l := by
  induction h with
  | nil =>
    intro l hl
    cases hl
  | @line t l c ht hl hn hc ih =>
    intro m hm
    rw [ht.journalLines_append] at hm
    rcases List.mem_append.mp hm with hm | hm
    · exact ih m hm
    · rw [journalLines, linesBy_line (fun c hc => decide_eq_false (hn c hc)) (by simp [hc])] at hm
      rw [List.mem_singleton.mp hm]
      exact hl

/-! ## The invariant -/

/-- A line that is tagged, whatever arrives later. -/
def Done (h : List Byte) (l : List Cell) : Prop := ∀ more, Tagged (h ++ more) l

/-- The line that is being written. -/
inductive Open (h : List Byte) (st : State) : List Cell → Prop
  | none (hj : st.jnlEntry = false) (he : st.errTagged = false) : Open h st []
  | stderr (hj : st.jnlEntry = false) (he : st.errTagged = true) (t : List Byte) (ht : t <:+ stream .err h)
    (hn : ∀ b ∈ t, b.val ≠ newline) : Open h st (stderrTag ++ t.map Cell.src)
  | entry (hj : st.jnlEntry = true) (he : st.errTagged = false) (t : List Byte) (ht : (tracked (stream .out h)).1 = some t)
    (hn : ∀ b ∈ t, b.val ≠ newline) : Open h st (t.map Cell.src)

/-- The line of standard output in the buffer. -/
inductive Buffered (h : List Byte) (st : State) : Prop
  | empty (ht : st.outTagged = false) (hb : st.outbuf = []) (hc : st.outcount = 0)
  | line (ht : st.outTagged = true) (t : List Byte) (hs : t <:+ stdoutText (stream .out h))
    (hn : ∀ b ∈ t, b.val ≠ newline) (hb : st.outbuf = stdoutTag ++ t.map Cell.src) (hc : st.outcount = t.length)

structure Inv (h : List Byte) (st : State) : Prop where
  cr : st.crNeeded = st.errTagged
  flag : st.jnlEntry = (tracked (stream .out h)).1.isSome
  count : st.outcount < MAXCHAR
  buffered : Buffered h st
  lines : ∃ t o, st.journal = t ++ o ∧ Whole (Done h) t ∧ Open h st o

theorem Done.mono {h : List Byte} {l : List Cell} (hl : Done h l) (more : List Byte) : Done (h ++ more) l := by
  intro more'
  rw [List.append_assoc]
  exact hl (more ++ more')

theorem Inv.init : Inv [] State.init :=
  ⟨rfl, rfl, by decide, .empty rfl rfl rfl, [], [], rfl, .nil, .none rfl rfl⟩

theorem tag_no_newline : (∀ x ∈ stdoutTag, x.val ≠ newline) ∧ (∀ x ∈ stderrTag, x.val ≠ newline) ∧
    ∀ x ∈ overflowWarning, x.val ≠ newline := by decide

/-- A tag and text without newline. -/
theorem no_newline_tag {tag : List Cell} {t : List Byte} (htag : ∀ x ∈ tag, x.val ≠ newline) (ht : ∀ b ∈ t, b.val ≠ newline) :
    ∀ x ∈ tag ++ t.map Cell.src, x.val ≠ newline := by
  intro x hx
  rcases List.mem_append.mp hx with hx | hx
  · exact htag x hx
  · obtain ⟨b, hb, rfl⟩ := List.mem_map.mp hx
    exact ht b hb

theorem stream_append (p : Pipe) (h more : List Byte) : stream p (h ++ more) = stream p h ++ stream p more :=
  List.filter_append _ _

theorem stdoutText_append (s more : List Byte) : stdoutText s <+: stdoutText (s ++ more) := by
  induction more using List.reverseRecOn with
  | nil => simp
  | append_singleton more b ih =>
    rw [← List.append_assoc, stdoutText, stdoutText, tracked_concat]
    exact ih.trans (track_extends _ b)

theorem done_stdout {h : List Byte} {t : List Byte} (ht : t <:+ stdoutText (stream .out h)) :
    Done h (stdoutTag ++ t.map Cell.src) := by
  intro more
  refine .stdout t ?_
  rw [stream_append]
  exact ht.isInfix.trans (stdoutText_append _ _).isInfix

theorem done_stderr {h : List Byte} {t : List Byte} (ht : t <:+ stream .err h) : Done h (stderrTag ++ t.map Cell.src) := by
  intro more
  refine .stderr t ?_
  rw [stream_append]
  exact ht.isInfix.trans (List.prefix_append _ _).isInfix

theorem done_warning (h : List Byte) : Done h overflowWarning := fun _ => .warning

/-- An entry that its newline ends. -/
theorem done_entry {h : List Byte} {b : Byte} {t : List Byte} (hb : b.pipe = .out) (hn : b.val = newline)
    (ht : (tracked (stream .out h)).1 = some t) : Done (h ++ [b]) (t.map Cell.src) := by
  obtain ⟨u, z, e, hs, hz, he, rfl⟩ := tracked_open ht
  intro more
  refine .entry u z e (b :: stream .out more) ?_ hz he ?_
  · rw [stream_append, stream_concat_self hb, hs]
    simp
  · intro n hn'
    cases hn'
    exact hn

/-! ## One step -/

variable {h : List Byte} {st : State} {b : Byte}

/-- The buffer after a byte that is not for it. -/
theorem Buffered.mono {st' : State} (hb : Buffered h st)
    (hs : stdoutText (stream .out (h ++ [b])) = stdoutText (stream .out h)) (ht : st'.outTagged = st.outTagged)
    (ho : st'.outbuf = st.outbuf) (hc : st'.outcount = st.outcount) : Buffered (h ++ [b]) st' := by
  cases hb with
  | empty h1 h2 h3 => exact .empty (ht.trans h1) (ho.trans h2) (hc.trans h3)
  | line h1 t h2 hn h3 h4 => exact .line (ht.trans h1) t (by rw [hs]; exact h2) hn (ho.trans h3) (hc.trans h4)

theorem Whole.done_mono {t : List Cell} (ht : Whole (Done h) t) (more : List Byte) : Whole (Done (h ++ more)) t :=
  ht.mono fun _ hl => hl.mono more

theorem tagErr_outbuf (st : State) : st.tagErr.outbuf = st.outbuf ∧ st.tagErr.outTagged = st.outTagged ∧
    st.tagErr.outcount = st.outcount ∧ st.tagErr.errTagged = true := by
  unfold State.tagErr
  split
  · rename_i he
    exact ⟨rfl, rfl, rfl, he⟩
  · exact ⟨rfl, rfl, rfl, rfl⟩

/-- With its tag, a line of standard error is open. -/
theorem Inv.tagErr (hi : Inv h st) (hj : st.jnlEntry = false) :
    ∃ t l, st.tagErr.journal = t ++ (stderrTag ++ l.map Cell.src) ∧ Whole (Done h) t ∧ l <:+ stream .err h ∧
      ∀ b ∈ l, b.val ≠ newline := by
  obtain ⟨t, o, hjn, ht, ho⟩ := hi.lines
  cases ho with
  | none _ he =>
    refine ⟨t, [], ?_, ht, List.nil_suffix, List.forall_mem_nil _⟩
    rw [State.tagErr, if_neg (by simp [he]), write_journal, hjn]
    simp
  | stderr _ he l hl hn =>
    refine ⟨t, l, ?_, ht, hl, hn⟩
    rw [State.tagErr, if_pos he, hjn]
  | entry hj' =>
    rw [hj] at hj'
    cases hj'

/-- A byte of standard error that its line goes on with. -/
theorem Inv.err_text (hi : Inv h st) (hb : b.pipe = .err) (hj : st.jnlEntry = false) (hn : b.val ≠ newline) :
    Inv (h ++ [b]) { st.tagErr.write [.src b] with crNeeded := true } := by
  obtain ⟨t, l, hjn, ht, hl, hln⟩ := hi.tagErr hj
  obtain ⟨hbuf, htag, hcount, herr⟩ := tagErr_outbuf st
  have hs : stream .out (h ++ [b]) = stream .out h := stream_concat_ne (by rw [hb]; decide) h
  constructor
  · exact herr.symm
  · rw [hs, ← hi.flag]
    exact tagErr_jnlEntry st
  · exact hcount ▸ hi.count
  · exact hi.buffered.mono (by rw [hs]) htag hbuf hcount
  · refine ⟨t, stderrTag ++ (l ++ [b]).map Cell.src, ?_, ht.done_mono [b], .stderr ?_ (by exact herr) (l ++ [b]) ?_ ?_⟩
    · rw [show ({ st.tagErr.write [.src b] with crNeeded := true } : State).journal = st.tagErr.journal ++ [Cell.src b] from rfl, hjn]
      simp
    · exact (tagErr_jnlEntry st).trans hj
    · rw [stream_concat_self hb]
      exact List.suffix_append_self_iff.mpr hl
    · intro c hc
      rcases List.mem_append.mp hc with hc | hc
      · exact hln c hc
      · rw [List.mem_singleton.mp hc]
        exact hn

/-- The newline of standard error. -/
theorem Inv.err_newline (hi : Inv h st) (hb : b.pipe = .err) (hj : st.jnlEntry = false) (hn : b.val = newline) :
    Inv (h ++ [b]) { st.tagErr.write [.src b] with crNeeded := false, errTagged := false } := by
  obtain ⟨t, l, hjn, ht, hl, hln⟩ := hi.tagErr hj
  obtain ⟨hbuf, htag, hcount, herr⟩ := tagErr_outbuf st
  have hs : stream .out (h ++ [b]) = stream .out h := stream_concat_ne (by rw [hb]; decide) h
  constructor
  · rfl
  · rw [hs, ← hi.flag]
    exact tagErr_jnlEntry st
  · exact hcount ▸ hi.count
  · exact hi.buffered.mono (by rw [hs]) htag hbuf hcount
  · refine ⟨t ++ ((stderrTag ++ l.map Cell.src) ++ [Cell.src b]), [], ?_, ?_, .none ?_ rfl⟩
    · rw [show ({ st.tagErr.write [.src b] with crNeeded := false, errTagged := false } : State).journal =
        st.tagErr.journal ++ [Cell.src b] from rfl, hjn]
      simp
    · exact .line (ht.done_mono [b]) ((done_stderr hl).mono [b]) (no_newline_tag tag_no_newline.2.1 hln) hn
    · exact (tagErr_jnlEntry st).trans hj

theorem Inv.err (hi : Inv h st) (hb : b.pipe = .err) (hok : StepOk st b) : Inv (h ++ [b]) (writeByte st b) := by
  have hj := hok.entry hb
  by_cases hz : b.val = nul
  · have hstep : writeByte st b = { st.tagErr.write [.src b] with crNeeded := true } := by
      have ht : st.tagErr = st := if_pos (hok.nul hb hz)
      rw [ht, writeByte, if_pos hz, hb]
    rw [hstep]
    exact hi.err_text hb hj (by rw [hz]; decide)
  · by_cases hn : b.val = newline
    · have hstep : writeByte st b = { st.tagErr.write [.src b] with crNeeded := false, errTagged := false } := by
        simp [writeByte, hn, hj, hb]
      rw [hstep]
      exact hi.err_newline hb hj hn
    · have hstep : writeByte st b = { st.tagErr.write [.src b] with crNeeded := true } := by
        simp [writeByte, hz, hn, hj, hb]
      rw [hstep]
      exact hi.err_text hb hj hn

/-- The NUL that begins an entry, or one in an entry. -/
theorem Inv.out_nul (hi : Inv h st) (hb : b.pipe = .out) (hz : b.val = nul) (he : st.errTagged = false) :
    Inv (h ++ [b]) (writeByte st b) := by
  have hs : tracked (stream .out (h ++ [b])) =
      (some ((tracked (stream .out h)).1.getD []), (tracked (stream .out h)).2) := by
    rw [stream_concat_self hb, tracked_concat, track_nul hz]
  have hstep : writeByte st b = { st with jnlEntry := true } := by
    have hcr : st.crNeeded = false := hi.cr.trans he
    simp [writeByte, hz, hb, hcr]
  rw [hstep]
  constructor
  · exact hi.cr
  · rw [hs]
    rfl
  · exact hi.count
  · exact hi.buffered.mono (by rw [stdoutText, hs, stdoutText]) rfl rfl rfl
  · obtain ⟨t, o, hjn, ht, ho⟩ := hi.lines
    refine ⟨t, o, hjn, ht.done_mono [b], ?_⟩
    cases ho with
    | none hj _ =>
      have hnone : (tracked (stream .out h)).1 = none := by
        have hf := hi.flag
        rw [hj] at hf
        exact Option.not_isSome_iff_eq_none.mp (by rw [← hf]; decide)
      exact .entry rfl (by exact he) [] (by rw [hs, hnone]; rfl) (List.forall_mem_nil _)
    | stderr _ he' =>
      rw [he] at he'
      cases he'
    | entry _ _ l hl hn => exact .entry rfl (by exact he) l (by rw [hs, hl]; rfl) hn

/-- A byte of an entry: its newline, or text. -/
theorem Inv.out_entry (hi : Inv h st) (hb : b.pipe = .out) (hz : b.val ≠ nul) (hj : st.jnlEntry = true) :
    Inv (h ++ [b]) (writeByte st b) := by
  obtain ⟨t, o, hjn, ht, ho⟩ := hi.lines
  cases ho with
  | none hj' =>
    rw [hj] at hj'
    cases hj'
  | stderr hj' =>
    rw [hj] at hj'
    cases hj'
  | entry _ he l hl hln =>
    by_cases hn : b.val = newline
    · have hs : tracked (stream .out (h ++ [b])) = (none, (tracked (stream .out h)).2) := by
        rw [stream_concat_self hb, tracked_concat, track_newline hn]
      have hstep : writeByte st b = { st.write [.src b] with crNeeded := false, jnlEntry := false } := by
        simp [writeByte, hn, hj]
      rw [hstep]
      constructor
      · exact he.symm
      · rw [hs]
        rfl
      · exact hi.count
      · exact hi.buffered.mono (by rw [stdoutText, hs, stdoutText]) rfl rfl rfl
      · refine ⟨t ++ (l.map Cell.src ++ [Cell.src b]), [], ?_, ?_, .none rfl he⟩
        · rw [show ({ st.write [.src b] with crNeeded := false, jnlEntry := false } : State).journal = st.journal ++ [Cell.src b] from rfl,
            hjn]
          simp
        · exact .line (ht.done_mono [b]) (done_entry hb hn hl) (no_newline_tag (List.forall_mem_nil _) hln) hn
    · have hs : tracked (stream .out (h ++ [b])) = (some (l ++ [b]), (tracked (stream .out h)).2) := by
        rw [stream_concat_self hb, tracked_concat,
          show tracked (stream .out h) = (some l, (tracked (stream .out h)).2) from Prod.ext hl rfl, track_some hz hn]
      have hstep : writeByte st b = st.write [.src b] := by
        simp [writeByte, hz, hn, hj]
      rw [hstep]
      constructor
      · exact hi.cr
      · rw [hs]
        exact hj
      · exact hi.count
      · exact hi.buffered.mono (by rw [stdoutText, hs, stdoutText]) rfl rfl rfl
      · refine ⟨t, (l ++ [b]).map Cell.src, ?_, ht.done_mono [b], .entry (by exact hj) (by exact he) (l ++ [b]) (by rw [hs]) ?_⟩
        · rw [write_journal, hjn]
          simp
        · intro c hc
          rcases List.mem_append.mp hc with hc | hc
          · exact hln c hc
          · rw [List.mem_singleton.mp hc]
            exact hn

theorem tagOut_fields (st : State) : st.tagOut.crNeeded = st.crNeeded ∧ st.tagOut.errTagged = st.errTagged ∧
    st.tagOut.outTagged = true ∧ st.tagOut.outcount = st.outcount := by
  unfold State.tagOut
  split
  · rename_i ht
    exact ⟨rfl, rfl, ht, rfl⟩
  · exact ⟨rfl, rfl, rfl, rfl⟩

/-- With its tag, the buffer holds a line of standard output. -/
theorem Inv.tagOut (hi : Inv h st) : ∃ l, st.tagOut.outbuf = stdoutTag ++ l.map Cell.src ∧
    l <:+ stdoutText (stream .out h) ∧ (∀ b ∈ l, b.val ≠ newline) ∧ st.outcount = l.length := by
  cases hi.buffered with
  | empty ht hb hc =>
    refine ⟨[], ?_, List.nil_suffix, List.forall_mem_nil _, hc⟩
    rw [State.tagOut, if_neg (by simp [ht]), hb]
    simp
  | line ht l hl hn hb hc =>
    refine ⟨l, ?_, hl, hn, hc⟩
    rw [State.tagOut, if_pos ht, hb]

/-- No line is open between the lines of standard error and the entries. -/
theorem Inv.whole (hi : Inv h st) (hj : st.jnlEntry = false) (he : st.errTagged = false) : Whole (Done h) st.journal := by
  obtain ⟨t, o, hjn, ht, ho⟩ := hi.lines
  cases ho with
  | none =>
    rw [hjn, List.append_nil]
    exact ht
  | stderr _ he' =>
    rw [he] at he'
    cases he'
  | entry hj' =>
    rw [hj] at hj'
    cases hj'

/-- The newline of standard output. -/
theorem Inv.out_newline (hi : Inv h st) (hb : b.pipe = .out) (hn : b.val = newline) (hj : st.jnlEntry = false)
    (he : st.errTagged = false) : Inv (h ++ [b]) (writeByte st b) := by
  have hs : tracked (stream .out (h ++ [b])) = (none, (tracked (stream .out h)).2) := by
    rw [stream_concat_self hb, tracked_concat, track_newline hn]
  have hstep : writeByte st b = { (st.tagOut.buffer b).printOut with crNeeded := false } := by
    simp [writeByte, hn, hj, hb]
  obtain ⟨l, hbuf, hl, hln, -⟩ := hi.tagOut
  obtain ⟨-, herr, -, -⟩ := tagOut_fields st
  rw [hstep]
  constructor
  · exact (herr.trans he).symm
  · rw [hs]
    exact (tagOut_jnlEntry st).trans hj
  · exact (by decide : 0 < MAXCHAR)
  · exact .empty rfl rfl rfl
  · refine ⟨st.journal ++ ((stdoutTag ++ l.map Cell.src) ++ [Cell.src b]), [], ?_, ?_,
      .none ((tagOut_jnlEntry st).trans hj) (herr.trans he)⟩
    · rw [show ({ (st.tagOut.buffer b).printOut with crNeeded := false } : State).journal =
        st.tagOut.journal ++ (st.tagOut.outbuf ++ [Cell.src b]) from rfl, tagOut_journal, hbuf, List.append_nil]
    · exact .line ((hi.whole hj he).done_mono [b]) ((done_stdout hl).mono [b]) (no_newline_tag tag_no_newline.1 hln) hn

/-- A byte of standard output, with and without an overflow of the buffer. -/
theorem Inv.out_text (hi : Inv h st) (hb : b.pipe = .out) (hz : b.val ≠ nul) (hn : b.val ≠ newline) (hj : st.jnlEntry = false)
    (hc : st.errTagged = true → st.outcount + 1 < MAXCHAR) : Inv (h ++ [b]) (writeByte st b) := by
  have hnone : (tracked (stream .out h)).1 = none := by
    have hf := hi.flag
    rw [hj] at hf
    exact Option.not_isSome_iff_eq_none.mp (by rw [← hf]; decide)
  have hs : tracked (stream .out (h ++ [b])) = (none, (tracked (stream .out h)).2 ++ [b]) := by
    rw [stream_concat_self hb, tracked_concat,
      show tracked (stream .out h) = (none, (tracked (stream .out h)).2) from Prod.ext hnone rfl, track_none hz hn]
  have hstep : writeByte st b = State.checkSize { st.tagOut.buffer b with outcount := st.outcount + 1 } := by
    simp [writeByte, hz, hn, hj, hb]
  obtain ⟨l, hbuf, hl, hln, hcount⟩ := hi.tagOut
  obtain ⟨hcr, herr, htag, -⟩ := tagOut_fields st
  have hl' : l ++ [b] <:+ stdoutText (stream .out (h ++ [b])) := by
    rw [stdoutText, hs]
    exact List.suffix_append_self_iff.mpr hl
  have hln' : ∀ c ∈ l ++ [b], c.val ≠ newline := by
    intro c hc
    rcases List.mem_append.mp hc with hc | hc
    · exact hln c hc
    · rw [List.mem_singleton.mp hc]
      exact hn
  have hbuf' : st.tagOut.outbuf ++ [Cell.src b] = stdoutTag ++ (l ++ [b]).map Cell.src := by
    rw [hbuf]
    simp
  rw [hstep]
  unfold State.checkSize
  split
  · -- the buffer is full: its line and the warning are written, with no line of standard error open
    rename_i hfull
    have he : st.errTagged = false := by
      cases he : st.errTagged with
      | false => rfl
      | true =>
        have := hc he
        simp only at hfull
        omega
    constructor
    · exact (herr.trans he).symm
    · rw [hs]
      exact (tagOut_jnlEntry st).trans hj
    · exact (by decide : 0 < MAXCHAR)
    · exact .empty rfl rfl rfl
    · refine ⟨st.journal ++ ((stdoutTag ++ (l ++ [b]).map Cell.src) ++ [Cell.lit newline]) ++ (overflowWarning ++ [Cell.lit newline]), [],
        ?_, ?_, .none ((tagOut_jnlEntry st).trans hj) (herr.trans he)⟩
      · rw [← hbuf', ← tagOut_journal st]
        simp [State.printOut, State.buffer]
      · refine .line (.line ((hi.whole hj he).done_mono [b]) (done_stdout hl') ?_ rfl) (done_warning _) tag_no_newline.2.2 rfl
        exact no_newline_tag tag_no_newline.1 hln'
  · rename_i hroom
    constructor
    · exact hcr.trans (hi.cr.trans herr.symm)
    · rw [hs]
      exact (tagOut_jnlEntry st).trans hj
    · simp only at hroom ⊢
      have : MAXCHAR = 8192 := rfl
      omega
    · refine .line htag (l ++ [b]) hl' hln' hbuf' ?_
      rw [List.length_append, ← hcount]
      rfl
    · obtain ⟨t, o, hjn, ht, ho⟩ := hi.lines
      refine ⟨t, o, (tagOut_journal st).trans hjn, ht.done_mono [b], ?_⟩
      cases ho with
      | none _ he => exact .none ((tagOut_jnlEntry st).trans hj) (herr.trans he)
      | stderr _ he l₁ hl₁ hn₁ =>
        refine .stderr (by exact (tagOut_jnlEntry st).trans hj) (by exact herr.trans he) l₁ ?_ hn₁
        rw [stream_concat_ne (by rw [hb]; decide)]
        exact hl₁
      | entry hj' =>
        rw [hj] at hj'
        cases hj'

theorem Inv.out (hi : Inv h st) (hb : b.pipe = .out) (hok : StepOk st b) : Inv (h ++ [b]) (writeByte st b) := by
  have herr : (b.val = nul ∨ b.val = newline) → st.errTagged = false := by
    intro hv
    cases he : st.errTagged with
    | false => rfl
    | true =>
      obtain ⟨hz, hn, -⟩ := hok.stderr hb he
      rcases hv with hv | hv
      · exact absurd hv hz
      · exact absurd hv hn
  by_cases hz : b.val = nul
  · exact hi.out_nul hb hz (herr (Or.inl hz))
  · cases hj : st.jnlEntry with
    | true => exact hi.out_entry hb hz hj
    | false =>
      by_cases hn : b.val = newline
      · exact hi.out_newline hb hn hj (herr (Or.inr hn))
      · exact hi.out_text hb hz hn hj fun he => (hok.stderr hb he).2.2

theorem feed_inv (h : List Byte) (hok : ∀ pre b post, h = pre ++ b :: post → StepOk (feed pre) b) : Inv h (feed h) := by
  refine foldl_induction Inv.init (fun h st b hi hb => ?_) h hok
  cases hp : b.pipe with
  | out => exact hi.out hp hb
  | err => exact hi.err hp hb

/-! ## Every line is tagged -/

/-- The line that is open at the end, with the newline that ends it. -/
theorem Open.done {o : List Cell} (ho : Open h st o) : (∀ x ∈ o, x.val ≠ newline) ∧ (o = [] ∨ Tagged h o) := by
  cases ho with
  | none => exact ⟨List.forall_mem_nil _, Or.inl rfl⟩
  | stderr _ _ t ht hn =>
    refine ⟨no_newline_tag tag_no_newline.2.1 hn, Or.inr ?_⟩
    simpa using done_stderr ht []
  | entry _ _ t ht hn =>
    refine ⟨no_newline_tag (List.forall_mem_nil _) hn, Or.inr ?_⟩
    obtain ⟨u, z, e, hs, hz, he, rfl⟩ := tracked_open ht
    exact .entry u z e [] (by rw [hs, List.append_nil]) hz he (by simp)

/-- At the end of a line there is no open text. -/
theorem open_eq_nil {t o : List Cell} (ho : ∀ x ∈ o, x.val ≠ newline) (h : ∀ c ∈ (t ++ o).getLast?, c.val = newline) : o = [] := by
  by_contra hne
  have hlast := h (o.getLast hne) (by rw [List.getLast?_append_of_ne_nil _ hne, List.getLast?_eq_some_getLast hne]; rfl)
  exact ho _ (List.getLast_mem hne) hlast

theorem Buffered.tagged (hb : Buffered h st) (hne : st.outbuf ≠ []) :
    Tagged h st.outbuf ∧ ∀ x ∈ st.outbuf, x.val ≠ newline := by
  cases hb with
  | empty _ hb => exact absurd hb hne
  | line _ l hl hn hb =>
    rw [hb]
    exact ⟨by simpa using done_stdout hl [], no_newline_tag tag_no_newline.1 hn⟩

/-- After the newline that is still needed, the journal consists of whole lines, and maybe of an entry without its newline. -/
theorem Inv.ended (hi : Inv h st) : ∃ t o, st.journal ++ (if st.crNeeded then [Cell.lit newline] else []) = t ++ o ∧
    Whole (Tagged h) t ∧ (∀ x ∈ o, x.val ≠ newline) ∧ (o = [] ∨ Tagged h o) ∧ (st.jnlEntry = false → o = []) := by
  obtain ⟨t, o, hjn, ht, ho⟩ := hi.lines
  have ht' : Whole (Tagged h) t := ht.mono fun l hl => by simpa using hl []
  obtain ⟨hn, htag⟩ := ho.done
  have hcr := hi.cr
  cases ho with
  | none hj he =>
    refine ⟨t, [], ?_, ht', List.forall_mem_nil _, Or.inl rfl, fun _ => rfl⟩
    rw [hjn, hcr, he]
    simp
  | stderr hj he l hl hln =>
    refine ⟨t ++ ((stderrTag ++ l.map Cell.src) ++ [Cell.lit newline]), [], ?_, ?_, List.forall_mem_nil _, Or.inl rfl, fun _ => rfl⟩
    · rw [hjn, hcr, he]
      simp
    · exact .line ht' (by simpa using done_stderr hl []) hn rfl
  | entry hj he l hl hln =>
    refine ⟨t, l.map Cell.src, ?_, ht', hn, htag, fun hj' => ?_⟩
    · rw [hjn, hcr, he]
      simp
    · rw [hj] at hj'
      cases hj'

theorem Inv.finalFlush (hi : Inv h st) (hf : FlushOk st) : ∀ l ∈ journalLines (finalFlush st).journal, Tagged h l := by
  obtain ⟨t, o, hjn, ht, hn, htag, hempty⟩ := hi.ended
  rw [finalFlush_journal, hjn]
  by_cases hb : st.outbuf = []
  · intro l hl
    rw [if_pos hb, List.append_nil, ht.journalLines_append] at hl
    rcases List.mem_append.mp hl with hl | hl
    · exact ht.mem_journalLines l hl
    · rcases htag with rfl | htag
      · cases hl
      · rw [journalLines_open hn l hl]
        exact htag
  · -- an entry that is open has no text, or the buffer would be written behind it
    have ho : o = [] := by
      cases hj : st.jnlEntry with
      | false => exact hempty hj
      | true =>
        have hlast := hf hb hj
        have hcr : st.crNeeded = false := by
          obtain ⟨_, _, _, _, ho⟩ := hi.lines
          cases ho with
          | none _ he => exact hi.cr.trans he
          | stderr hj' =>
            rw [hj] at hj'
            cases hj'
          | entry _ he => exact hi.cr.trans he
        rw [hcr] at hjn
        rw [show st.journal = t ++ o by simpa using hjn] at hlast
        exact open_eq_nil hn hlast
    obtain ⟨hbt, hbn⟩ := hi.buffered.tagged hb
    rw [if_neg hb, ho, List.append_nil]
    exact (Whole.line ht hbt hbn rfl).mem_journalLines

/-- In a run whose bytes never go into a line of another kind, every line of the journal is standard output, standard error, a
journal entry or the warning, each with its own tag and with nothing else in it. -/
theorem run_tagged (chunks : List (Pipe × List UInt8))
    (hok : ∀ pre b post, history chunks = pre ++ b :: post → StepOk (feed pre) b) (hf : FlushOk (run chunks)) :
    ∀ l ∈ journalLines (finalFlush (run chunks)).journal, Tagged (history chunks) l := by
  rw [run_eq_feed] at hf ⊢
  exact (feed_inv (history chunks) hok).finalFlush hf

/-- A line of each kind. -/
theorem run_tagged_sample :
    (journalLines (finalFlush (run [(.err, [120, 10]), (.out, [111, 0, 101, 10]), (.out, [10])])).journal).length = 3 ∧
      ∀ l ∈ journalLines (finalFlush (run [(.err, [120, 10]), (.out, [111, 0, 101, 10]), (.out, [10])])).journal,
        Tagged (history [(.err, [120, 10]), (.out, [111, 0, 101, 10]), (.out, [10])]) l :=
  ⟨by decide, run_tagged _ (forall_steps (by decide)) (by decide)⟩

/-- A line of standard output behind an open line of standard error is no line of any kind. -/
theorem not_tagged_mixed {h : List Byte} (b c : Byte) :
    ¬Tagged h (stderrTag ++ [Cell.src b] ++ stdoutTag ++ [Cell.src c]) := by
  intro ht
  generalize hl : stderrTag ++ [Cell.src b] ++ stdoutTag ++ [Cell.src c] = l at ht
  cases ht with
  | stdout t =>
    have h3 := congrArg (fun l => l[3]?) hl
    simp only [stderrTag, stdoutTag, lits] at h3
    cases h3
  | stderr t =>
    have h9 := congrArg (fun l => l[9]?) hl
    rw [List.append_assoc, List.append_assoc] at h9
    simp only [List.getElem?_append_right (show stderrTag.length ≤ 9 by decide), List.getElem?_map] at h9
    cases ht : t[9 - stderrTag.length]? with
    | none =>
      rw [ht] at h9
      cases h9
    | some d =>
      rw [ht] at h9
      cases h9
  | entry u z e v =>
    have h0 := congrArg (fun l => l[0]?) hl
    simp only [List.getElem?_map] at h0
    cases ht : (e.filter fun b => b.val ≠ nul)[0]? with
    | none =>
      rw [ht] at h0
      cases h0
    | some d =>
      rw [ht] at h0
      cases h0
  | warning => exact absurd (congrArg (fun l => l[8]?) hl) (by simp [stderrTag, stdoutTag, lits, overflowWarning])

/-- A line of standard output comes while a line of standard error is open. -/
theorem not_run_tagged : ¬∀ chunks : List (Pipe × List UInt8), ∀ l ∈ journalLines (finalFlush (run chunks)).journal,
    Tagged (history chunks) l := by
  intro H
  refine not_tagged_mixed ⟨.err, 0, 97⟩ ⟨.out, 0, 120⟩ (H [(.err, [97]), (.out, [120, 10])] _ ?_)
  decide

end ZfsTest.Stf.Context
