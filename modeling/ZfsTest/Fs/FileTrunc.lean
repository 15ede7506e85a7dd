import Mathlib.Algebra.Order.Ring.Int
import Mathlib.Data.List.Basic
import ZfsTest.Text.Basic

/-!
# Writing and truncating, `file_trunc`

Each round of `main` writes a block at a random offset, reads it back with `-r`, and truncates the file at another random offset. The
results of the system calls are arbitrary. At the end of a round `free` is called with the literal that `do_write` has put in place of its
buffer: an allocator may notice that and abort the program, or let it pass.

The number of bytes that `write` or `read` gives back is compared with a size, which has no sign: the result `-1` is not less than any
size, and passes. And an offset is a random number modulo the file size, which may be zero. A run says the truth when neither matters, or
when the allocator aborts it (`file_trunc_detects_iff`).
-/

namespace ZfsTest.Fs

/-- The globals. -/
structure Globals where
  fsize : Int
  bsize : Nat
  count : Int
  rflag : Nat
  seed : Int
  vflag : Nat
  offset : Int
  deriving DecidableEq, Repr

/-- A signed number as a `size_t`. -/
def toSize (r : Int) : Nat := (r % 2 ^ 64).toNat

/-- An option. The numbers are those of `atoi`. -/
inductive TruncOpt
  | b (n : Int32)
  | c (n : Int32)
  | f (n : Int32)
  | o (n : Int32)
  | r
  | s (n : Int32)
  | v

def TruncOpt.apply (g : Globals) : TruncOpt → Globals
  | .b n => { g with bsize := toSize n.toInt }
  | .c n => { g with count := n.toInt }
  | .f n => { g with fsize := n.toInt }
  | .o n => { g with offset := n.toInt }
  | .r => { g with rflag := g.rflag + 1 }
  | .s n => { g with seed := n.toInt }
  | .v => { g with vflag := g.vflag + 1 }

/-- The globals at the start of the loop of `parse_options`. -/
def Globals.initial (time : Int) : Globals where
  fsize := 256 * 1024 * 1024
  bsize := 512
  count := 256 * 1024 * 1024 / 512
  rflag := 0
  seed := time
  vflag := 0
  offset := 0

/-- `parse_options`, for options that it accepts. -/
def parseOptions (time : Int) (opts : List TruncOpt) : Globals := opts.foldl TruncOpt.apply (.initial time)

/-- What the calls of one round give back. `rbuf` is the buffer behind `read`. -/
structure Results (bsize : Nat) where
  calloc : Bool
  random1 : Nat
  lseek1 : Int
  write : Int
  lseek2 : Int
  read : Int
  rbuf : Nat → UInt8
  /-- `free(buf)` comes back; `buf` is not what `calloc` gave. -/
  free : Bool
  random2 : Nat
  ftruncate : Int
  /-- `-1`, or a number of bytes that is not greater than the one that was asked for. -/
  write_range : write = -1 ∨ 0 ≤ write ∧ write ≤ bsize
  read_range : read = -1 ∨ 0 ≤ read ∧ read ≤ bsize

/-- How the program ends before the end of `main`. -/
inductive Ends
  | exit (status : Nat)
  /-- A division by zero. -/
  | fault
  /-- `abort`, in `free`. -/
  | abort
  deriving DecidableEq, Repr

/-- A line on `stderr`. -/
inductive TruncLine
  | wrote (offset : Int)
  | readBack (offset : Int)
  | truncated (offset : Int)
  deriving DecidableEq, Repr

/-- The bytes from `buf` on: those of the literal, and what follows it in memory. -/
def literalBuf (memory : Nat → UInt8) (j : Nat) : UInt8 :=
  match ("ZFS Test Suite Truncation Test\x00".toList)[j]? with
  | some c => c.toNat.toUInt8
  | none => memory j

section

variable (g : Globals) (buf : Nat → UInt8)

/-- `memcmp(buf, rbuf, bsize) == 0`. -/
def sameBytes (rbuf : Nat → UInt8) : Prop := ∀ j < g.bsize, buf j = rbuf j

instance (rbuf : Nat → UInt8) : Decidable (sameBytes g buf rbuf) := inferInstanceAs (Decidable (∀ j < g.bsize, _))

/-- `roffset = random() % fsize`. -/
def randomOffset (random : Nat) : Except Ends Int := if g.fsize = 0 then .error .fault else .ok ((random : Int).tmod g.fsize)

/-- `exit` with a status, when a test is true. -/
def exitIf (failed : Bool) (status : Nat) : Except Ends Unit := if failed then .error (.exit status) else .ok ()

/-- `do_write`. -/
def doWrite (res : Results g.bsize) : Except Ends (List TruncLine) := do
  exitIf (!res.calloc) 4
  let roffset ← randomOffset g res.random1
  exitIf (res.lseek1 < 0) 5
  exitIf (toSize res.write < g.bsize) 6
  if g.rflag ≠ 0 then
    exitIf (res.lseek2 < 0) 7
    exitIf (toSize res.read < g.bsize) 8
    exitIf (!decide (sameBytes g buf res.rbuf)) 9
  -- `buf` is the literal, and not the block from `calloc`
  if res.free then
    if g.vflag ≠ 0 then
      .ok (.wrote (g.offset + roffset) :: if g.rflag ≠ 0 then [.readBack (g.offset + roffset)] else [])
    else .ok []
  else .error .abort

def doTrunc (res : Results g.bsize) : Except Ends (List TruncLine) := do
  let roffset ← randomOffset g res.random2
  exitIf (res.ftruncate < 0) 7
  .ok (if g.vflag ≠ 0 then [.truncated (g.offset + roffset)] else [])

/-- The rounds from `i` on. -/
def rounds (res : Nat → Results g.bsize) : Nat → Nat → Except Ends (List TruncLine)
  | 0, _ => .ok []
  | n + 1, i => do
    let wrote ← doWrite g buf (res i)
    let truncated ← doTrunc g (res i)
    let rest ← rounds res n (i + 1)
    .ok (wrote ++ truncated ++ rest)

/-- `main` behind `parse_options`. `fd` is what `open` gives back. -/
def fileTrunc (fd : Int) (res : Nat → Results g.bsize) : Except Ends (List TruncLine) := do
  exitIf (fd < 0) 3
  rounds g buf res g.count.toNat 0

/-! ## What it is for -/

/-- Nothing has failed in a round. -/
structure Good (res : Results g.bsize) : Prop where
  write : res.write = g.bsize
  ftruncate : ¬res.ftruncate < 0
  read : g.rflag ≠ 0 → res.read = g.bsize ∧ sameBytes g buf res.rbuf

/-- A run that ends with the status `0` has done all its work, and no run divides by zero. -/
def Detects (fd : Int) (res : Nat → Results g.bsize) : Prop :=
  ((∃ lines, fileTrunc g buf fd res = .ok lines) → ∀ i < g.count.toNat, Good g buf (res i)) ∧ fileTrunc g buf fd res ≠ .error .fault

/-- A failure that is seen: of `calloc`, `lseek64` or `ftruncate64`, too few bytes, or other bytes. -/
def Seen (res : Results g.bsize) : Prop :=
  res.calloc = false ∨ res.lseek1 < 0 ∨ (0 ≤ res.write ∧ res.write < g.bsize) ∨
    (g.rflag ≠ 0 ∧ (res.lseek2 < 0 ∨ (0 ≤ res.read ∧ res.read < g.bsize) ∨ ¬sameBytes g buf res.rbuf)) ∨ res.ftruncate < 0

/-- The program ends in the round: at a failure that is seen, or in `free`. -/
def Stops (res : Results g.bsize) : Prop := Seen g buf res ∨ res.free = false

/-- A `write` or `read` that has failed. -/
def Failed (res : Results g.bsize) : Prop := res.write = -1 ∨ g.rflag ≠ 0 ∧ res.read = -1

end

/-! ## The rounds -/

section

variable {α β : Type} {g : Globals} {buf : Nat → UInt8}

/-- The function returns. -/
def Passes (x : Except Ends α) : Prop := ∃ a, x = .ok a

theorem passes_ok (a : α) : Passes (.ok a) := ⟨a, rfl⟩

theorem passes_free {p : Prop} [Decidable p] {free : Bool} (a b : α) :
    Passes (if free then (if p then .ok a else .ok b) else .error .abort) ↔ free = true := by
  cases free with
  | false => exact iff_of_false (fun ⟨_, h⟩ => nomatch h) fun h => nomatch h
  | true => by_cases hp : p <;> simp [Passes, hp]

theorem passes_exitIf {failed : Bool} {status : Nat} {k : Unit → Except Ends β} :
    Passes (exitIf failed status >>= k) ↔ failed = false ∧ Passes (k ()) := by
  cases failed with
  | false => exact (and_iff_right rfl).symm
  | true => exact iff_of_false (fun ⟨_, h⟩ => nomatch h) fun h => nomatch h.1

theorem passes_randomOffset (hf : g.fsize ≠ 0) {random : Nat} {k : Int → Except Ends β} :
    Passes (randomOffset g random >>= k) ↔ Passes (k ((random : Int).tmod g.fsize)) := by
  rw [randomOffset, if_neg hf]
  rfl

theorem passes_bind_pure {x : Except Ends α} {f : α → β} : Passes (do let a ← x; .ok (f a)) ↔ Passes x := by
  cases x with
  | error e => exact iff_of_false (fun ⟨_, h⟩ => nomatch h) fun ⟨_, h⟩ => nomatch h
  | ok a => exact iff_of_true (passes_ok (f a)) (passes_ok a)

/-- A result without a failure is compared as it is meant. -/
theorem toSize_lt_iff {r : Int} {n : Nat} (hn : n < 2 ^ 64) (hr : r = -1 ∨ 0 ≤ r ∧ r ≤ n) : toSize r < n ↔ 0 ≤ r ∧ r < n := by
  unfold toSize
  omega

theorem doWrite_passes_iff (hf : g.fsize ≠ 0) (hsize : g.bsize < 2 ^ 64) (res : Results g.bsize) :
    Passes (doWrite g buf res) ↔ res.calloc = true ∧ ¬res.lseek1 < 0 ∧ ¬(0 ≤ res.write ∧ res.write < g.bsize) ∧
      (g.rflag ≠ 0 → ¬res.lseek2 < 0 ∧ ¬(0 ≤ res.read ∧ res.read < g.bsize) ∧ sameBytes g buf res.rbuf) ∧ res.free = true := by
  unfold doWrite
  rw [passes_exitIf, passes_randomOffset hf, passes_exitIf, passes_exitIf]
  simp only [Bool.not_eq_false', decide_eq_false_iff_not, toSize_lt_iff hsize res.write_range]
  refine and_congr_right fun _ => and_congr_right fun _ => and_congr_right fun _ => ?_
  by_cases hr : g.rflag ≠ 0
  · simp only [if_pos hr, forall_prop_of_true hr]
    rw [passes_exitIf, passes_exitIf, passes_exitIf, passes_free]
    simp only [decide_eq_false_iff_not, toSize_lt_iff hsize res.read_range, Bool.not_eq_false', decide_eq_true_eq, and_assoc]
  · simp only [if_neg hr, forall_prop_of_false hr, true_and]
    exact passes_free _ _

theorem doTrunc_passes_iff (hf : g.fsize ≠ 0) (res : Results g.bsize) : Passes (doTrunc g res) ↔ ¬res.ftruncate < 0 := by
  unfold doTrunc
  rw [passes_randomOffset hf, passes_exitIf, decide_eq_false_iff_not, and_iff_left (passes_ok _)]

/-- A round comes to its end when the program does not stop there. -/
theorem round_passes_iff (hf : g.fsize ≠ 0) (hsize : g.bsize < 2 ^ 64) (res : Results g.bsize) :
    (Passes (doWrite g buf res) ∧ Passes (doTrunc g res)) ↔ ¬Stops g buf res := by
  rw [doWrite_passes_iff hf hsize, doTrunc_passes_iff hf, Stops, Seen]
  simp only [not_or, not_and, not_not, Bool.not_eq_false]
  tauto

theorem rounds_pass_iff (hf : g.fsize ≠ 0) (hsize : g.bsize < 2 ^ 64) (res : Nat → Results g.bsize) (n i : Nat) :
    Passes (rounds g buf res n i) ↔ ∀ j, i ≤ j → j < i + n → ¬Stops g buf (res j) := by
  induction n generalizing i with
  | zero => exact iff_of_true (passes_ok _) fun j hij hj => absurd hj (by omega)
  | succ n ih =>
    have hround : Passes (rounds g buf res (n + 1) i) ↔
        (Passes (doWrite g buf (res i)) ∧ Passes (doTrunc g (res i))) ∧ Passes (rounds g buf res n (i + 1)) := by
      rw [rounds]
      cases doWrite g buf (res i) with
      | error e => exact iff_of_false (fun ⟨_, h⟩ => nomatch h) fun ⟨⟨⟨_, h⟩, _⟩, _⟩ => nomatch h
      | ok wrote =>
        cases doTrunc g (res i) with
        | error e => exact iff_of_false (fun ⟨_, h⟩ => nomatch h) fun ⟨⟨_, ⟨_, h⟩⟩, _⟩ => nomatch h
        | ok truncated => exact passes_bind_pure.trans (and_iff_right ⟨passes_ok _, passes_ok _⟩).symm
    rw [hround, round_passes_iff hf hsize, ih]
    constructor
    · rintro ⟨hfirst, hrest⟩ j hij hj
      rcases Nat.eq_or_lt_of_le hij with rfl | hlt
      · exact hfirst
      · exact hrest j hlt (by omega)
    · intro h
      exact ⟨h i (Nat.le_refl i) (by omega), fun j hij hj => h j (by omega) (by omega)⟩

/-! ## Divisions by zero -/

theorem exitIf_fault_iff {failed : Bool} {status : Nat} {k : Unit → Except Ends β} :
    (exitIf failed status >>= k) = .error .fault ↔ failed = false ∧ k () = .error .fault := by
  cases failed with
  | false => exact (and_iff_right rfl).symm
  | true => exact iff_of_false (fun h => nomatch h) fun h => nomatch h.1

theorem free_fault {p : Prop} [Decidable p] {free : Bool} (a b : α) :
    ¬(if free then (if p then Except.ok a else Except.ok b) else Except.error Ends.abort) = Except.error Ends.fault := by
  split
  · split <;> exact fun h => nomatch h
  · exact fun h => nomatch h

theorem doWrite_fault_iff (res : Results g.bsize) : doWrite g buf res = .error .fault ↔ g.fsize = 0 ∧ res.calloc = true := by
  unfold doWrite
  rw [exitIf_fault_iff, Bool.not_eq_false', and_comm]
  refine and_congr_left fun _ => ?_
  by_cases hf : g.fsize = 0
  · rw [randomOffset, if_pos hf]
    exact iff_of_true rfl hf
  · rw [randomOffset, if_neg hf]
    refine iff_of_false (fun h => ?_) hf
    have h := (exitIf_fault_iff.mp (exitIf_fault_iff.mp h).2).2
    by_cases hr : g.rflag ≠ 0
    · simp only [if_pos hr] at h
      exact free_fault _ _ (exitIf_fault_iff.mp (exitIf_fault_iff.mp (exitIf_fault_iff.mp h).2).2).2
    · simp only [if_neg hr] at h
      exact free_fault _ _ h

theorem doTrunc_fault (hf : g.fsize ≠ 0) (res : Results g.bsize) : doTrunc g res ≠ .error .fault := by
  unfold doTrunc
  rw [randomOffset, if_neg hf]
  intro h
  exact nomatch (exitIf_fault_iff.mp h).2

/-- A round that goes on has not divided by zero. -/
theorem fsize_ne_zero (res : Results g.bsize) (h : Passes (doWrite g buf res)) : g.fsize ≠ 0 := by
  intro hf
  obtain ⟨lines, h⟩ := h
  unfold doWrite at h
  cases hc : res.calloc with
  | false =>
    rw [hc] at h
    exact nomatch h
  | true =>
    rw [hc, randomOffset, if_pos hf] at h
    exact nomatch h

theorem rounds_fault_iff (res : Nat → Results g.bsize) (n i : Nat) :
    rounds g buf res n i = .error .fault ↔ g.fsize = 0 ∧ 0 < n ∧ (res i).calloc = true := by
  induction n generalizing i with
  | zero => exact iff_of_false (fun h => nomatch h) fun h => absurd h.2.1 (by omega)
  | succ n ih =>
    have hwrite := @doWrite_fault_iff g buf (res i)
    have hpass := @fsize_ne_zero g buf (res i)
    rw [rounds]
    cases hw : doWrite g buf (res i) with
    | error e =>
      rw [hw] at hwrite
      refine Iff.trans ?_ (hwrite.trans (and_congr_right fun _ => (and_iff_right (Nat.succ_pos n)).symm))
      exact ⟨fun h => h, fun h => h⟩
    | ok wrote =>
      have hf := hpass ⟨wrote, hw⟩
      refine iff_of_false (fun h => ?_) fun h => hf h.1
      have htrunc := doTrunc_fault hf (res i)
      cases ht : doTrunc g (res i) with
      | error e =>
        rw [ht] at h htrunc
        exact htrunc h
      | ok truncated =>
        rw [ht] at h
        have hrest := ih (i + 1)
        cases hr : rounds g buf res n (i + 1) with
        | error e =>
          rw [hr] at h hrest
          exact hf (hrest.mp h).1
        | ok rest =>
          rw [hr] at h
          exact nomatch h

theorem fileTrunc_fault_iff (fd : Int) (res : Nat → Results g.bsize) :
    fileTrunc g buf fd res = .error .fault ↔ ¬fd < 0 ∧ g.fsize = 0 ∧ 0 < g.count.toNat ∧ (res 0).calloc = true := by
  rw [fileTrunc, exitIf_fault_iff, decide_eq_false_iff_not, rounds_fault_iff]

/-- A run that ends with the status `0`. -/
theorem fileTrunc_passes_iff (hf : g.fsize ≠ 0) (hsize : g.bsize < 2 ^ 64) (fd : Int) (res : Nat → Results g.bsize) :
    Passes (fileTrunc g buf fd res) ↔ ¬fd < 0 ∧ ∀ i < g.count.toNat, ¬Stops g buf (res i) := by
  rw [fileTrunc, passes_exitIf, decide_eq_false_iff_not, rounds_pass_iff hf hsize]
  refine and_congr_right fun _ => ?_
  exact ⟨fun h i hi => h i (Nat.zero_le i) (by omega), fun h i _ hi => h i (by omega)⟩

/-- A round that comes to its end is good, unless a `write` or a `read` has failed. -/
theorem good_iff {res : Results g.bsize} (hgoes : ¬Stops g buf res) : Good g buf res ↔ ¬Failed g res := by
  simp only [Stops, Seen, not_or, not_and] at hgoes
  obtain ⟨⟨-, -, hwrite, hread, htrunc⟩, -⟩ := hgoes
  have hw := res.write_range
  have hr := res.read_range
  unfold Failed
  constructor
  · rintro ⟨hgood, -, hback⟩ (h | ⟨hflag, h⟩)
    · omega
    · have := (hback hflag).1
      omega
  · intro h
    rw [not_or, not_and] at h
    refine ⟨by omega, htrunc, fun hflag => ?_⟩
    obtain ⟨-, hshort, hsame⟩ := hread hflag
    have := h.2 hflag
    exact ⟨by omega, not_not.mp hsame⟩

theorem fsize_ne_zero_of_run {fd : Int} {res : Nat → Results g.bsize} (h : Passes (fileTrunc g buf fd res)) (hcount : 0 < g.count.toNat) :
    g.fsize ≠ 0 := by
  obtain ⟨n, hn⟩ := Nat.exists_eq_add_of_lt hcount
  rw [fileTrunc, passes_exitIf, hn, Nat.zero_add, rounds] at h
  obtain ⟨-, lines, h⟩ := h
  refine @fsize_ne_zero g buf (res 0) ?_
  cases hw : doWrite g buf (res 0) with
  | error e =>
    rw [hw] at h
    exact nomatch h
  | ok wrote => exact passes_ok wrote

theorem detects_iff (hsize : g.bsize < 2 ^ 64) (fd : Int) (res : Nat → Results g.bsize) :
    Detects g buf fd res ↔ (g.fsize ≠ 0 ∨ fd < 0 ∨ g.count ≤ 0 ∨ (res 0).calloc = false) ∧
      (fd < 0 ∨ (∃ i < g.count.toNat, Stops g buf (res i)) ∨ ∀ i < g.count.toNat, ¬Failed g (res i)) := by
  have hfault : fileTrunc g buf fd res ≠ .error .fault ↔ g.fsize ≠ 0 ∨ fd < 0 ∨ g.count ≤ 0 ∨ (res 0).calloc = false := by
    rw [ne_eq, fileTrunc_fault_iff]
    have hcount : 0 < g.count.toNat ↔ ¬g.count ≤ 0 := by omega
    rw [hcount, ← Bool.not_eq_true]
    tauto
  rw [Detects, and_comm, hfault]
  refine and_congr_right fun hsafe => ?_
  by_cases hf : g.fsize = 0
  · refine iff_of_true (fun hpass i hi => absurd hf (fsize_ne_zero_of_run hpass (by omega))) ?_
    rcases hsafe with h | h | h | h
    · exact absurd hf h
    · exact .inl h
    · exact .inr (.inr fun i hi => absurd hi (by omega))
    · by_cases hcount : 0 < g.count.toNat
      · exact .inr (.inl ⟨0, hcount, .inl (.inl h)⟩)
      · exact .inr (.inr fun i hi => absurd hi (by omega))
  · have hpasses := @fileTrunc_passes_iff g buf hf hsize fd res
    constructor
    · intro hall
      by_cases hfd : fd < 0
      · exact .inl hfd
      · by_cases hstops : ∃ i < g.count.toNat, Stops g buf (res i)
        · exact .inr (.inl hstops)
        · have hgoes : ∀ i < g.count.toNat, ¬Stops g buf (res i) := fun i hi h => hstops ⟨i, hi, h⟩
          exact .inr (.inr fun i hi => (good_iff (hgoes i hi)).mp (hall (hpasses.mpr ⟨hfd, hgoes⟩) i hi))
    · intro h hpass i hi
      obtain ⟨hfd, hgoes⟩ := hpasses.mp hpass
      rcases h with h | ⟨j, hj, h⟩ | h
      · exact absurd h hfd
      · exact absurd h (hgoes j hj)
      · exact (good_iff (hgoes i hi)).mpr (h i hi)

end

theorem bsize_lt (time : Int) (opts : List TruncOpt) : (parseOptions time opts).bsize < 2 ^ 64 := by
  have hall : ∀ g : Globals, g.bsize < 2 ^ 64 → (opts.foldl TruncOpt.apply g).bsize < 2 ^ 64 := by
    induction opts with
    | nil => exact fun g hg => hg
    | cons o opts ih =>
      intro g hg
      refine ih _ ?_
      cases o with
      | b n =>
        show toSize n.toInt < 2 ^ 64
        unfold toSize
        omega
      | c n => exact hg
      | f n => exact hg
      | o n => exact hg
      | r => exact hg
      | s n => exact hg
      | v => exact hg
  exact hall _ (by show 512 < 2 ^ 64; omega)

/-- `file_trunc` detects every failure, unless it divides by zero, or a `write` or `read` fails, nothing else is seen and the allocator lets
`free` pass. -/
theorem file_trunc_detects_iff (time : Int) (opts : List TruncOpt) (memory : Nat → UInt8) (fd : Int)
    (res : Nat → Results (parseOptions time opts).bsize) :
    Detects (parseOptions time opts) (literalBuf memory) fd res ↔
      ((parseOptions time opts).fsize ≠ 0 ∨ fd < 0 ∨ (parseOptions time opts).count ≤ 0 ∨ (res 0).calloc = false) ∧
      (fd < 0 ∨ (∃ i < (parseOptions time opts).count.toNat, Stops (parseOptions time opts) (literalBuf memory) (res i)) ∨
        ∀ i < (parseOptions time opts).count.toNat, ¬Failed (parseOptions time opts) (res i)) := by
  exact detects_iff (bsize_lt time opts) fd res

/-- A round of which all system calls succeed, under an allocator that aborts. -/
def abortedRound : Results 512 where
  calloc := true
  random1 := 0
  lseek1 := 0
  write := 512
  lseek2 := 0
  read := 512
  rbuf _ := 0
  free := false
  random2 := 0
  ftruncate := 0
  write_range := .inr ⟨by decide, Int.le_refl 512⟩
  read_range := .inr ⟨by decide, Int.le_refl 512⟩

/-- With the file size `0`, whatever the allocator does. -/
theorem not_file_trunc_detects : ¬Detects (parseOptions 0 [.f 0, .c 1]) (literalBuf fun _ => 0) 3 (fun _ => abortedRound) :=
  fun h => h.2 (by decide)

end ZfsTest.Fs
