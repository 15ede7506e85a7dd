import Mathlib.Data.List.Dedup
import Mathlib.Data.List.Perm.Subperm
import ZfsTest.Prog.Loop

/-!
# Filling a file system, `fill_fs`

The function writes files into subdirectories of the destination until `FILE_WRITE` fails or the subdirectories are full. The roll-over
to the next subdirectory is tested behind the write, and with `>=`, so that a subdirectory holds one file more than `filenum`
(`fillFs_respects_iff`).
-/

namespace ZfsTest.Libtest

open Loop

/-- What a call of `FILE_WRITE` comes to: its exit status, and whether its file is there. A call that succeeds has created its file, one
that fails may have done so. -/
structure Outcome where
  status : Nat
  created : Bool
  created_of_ok : status = 0 → created = true

/-- The variables of `fill_fs`, the number of calls of `FILE_WRITE` so far, the subdirectories that were made, and the files that are
there: subdirectory and number. -/
structure Fill where
  odirnum : Int
  idirnum : Nat
  fn : Nat
  retval : Nat
  calls : Nat
  dirs : List Nat
  files : List (Nat × Nat)

def Fill.init : Fill := ⟨1, 0, 0, 0, 0, [0], []⟩

section

variable (write : Nat → Outcome) (dirnum filenum : Int)

/-- `$FILE_WRITE -o create -f $destdir/$idirnum/$TESTFILE.$fn`. -/
def Fill.fileWrite (s : Fill) : Fill :=
  { s with
    retval := (write s.calls).status
    calls := s.calls + 1
    files := s.files ++ if (write s.calls).created then [(s.idirnum, s.fn)] else [] }

/-- One round of the loop. -/
def fillRound (s : Fill) : Round Fill Fill :=
  if 0 < s.odirnum then
    if 0 ≤ dirnum ∧ dirnum ≤ s.idirnum then .done { s with odirnum := 0 }
    else
      let s := s.fileWrite write
      if s.retval ≠ 0 then .done { s with odirnum := 0 }
      else if filenum ≤ s.fn then .next { s with fn := 0, idirnum := s.idirnum + 1, dirs := s.dirs ++ [s.idirnum + 1] }
      else .next { s with fn := s.fn + 1 }
  else .done s

/-- `fill_fs` ends in `r`, whose `retval` it returns. -/
def FillFs (r : Fill) : Prop := Ends (fillRound write dirnum filenum) Fill.init r

end

/-- The number of files in a subdirectory. -/
def filesIn (files : List (Nat × Nat)) (d : Nat) : Nat := files.countP fun f => f.1 = d

/-- The limits of `fill_fs`, for what it has done. -/
structure Respects (write : Nat → Outcome) (dirnum filenum : Nat) (r : Fill) : Prop where
  dirs : (r.files.map Prod.fst).dedup.length ≤ dirnum
  files : ∀ d, filesIn r.files d ≤ filenum
  /-- A subdirectory is full before the next one is begun. -/
  order : ∀ pre f post, r.files = pre ++ f :: post → ∀ d < f.1, filesIn pre d = filenum
  status : r.retval = 0 ↔ ∀ k < r.calls, (write k).status = 0
  full : r.retval = 0 → r.files.Nodup ∧ r.files.length = dirnum * filenum

/-- `fill_fs` ends and respects its limits. -/
def FillRespects (write : Nat → Outcome) (dirnum filenum : Nat) : Prop :=
  ∃ r, FillFs write dirnum filenum r ∧ Respects write dirnum filenum r

/-- The first call of `FILE_WRITE` that fails is the one behind `k` calls. -/
structure FailsAt (write : Nat → Outcome) (k : Nat) : Prop where
  before : ∀ j < k, (write j).status = 0
  here : (write k).status ≠ 0

/-- The number of files that a call has created. -/
def Outcome.files (o : Outcome) : Nat := if o.created then 1 else 0

variable {write : Nat → Outcome} {dirnum filenum : Nat}

/-! ## The first subdirectory -/

/-- The state behind `j` calls that have succeeded, all for the first subdirectory. -/
def begun (j : Nat) : Fill := ⟨1, 0, j, 0, j, [0], (List.range j).map fun n => (0, n)⟩

theorem begun_fileWrite (j : Nat) (h : (write j).status = 0) : (begun j).fileWrite write = { begun (j + 1) with fn := j } := by
  simp [Fill.fileWrite, begun, h, (write j).created_of_ok h, List.range_succ]

theorem fillRound_begun (hd : 0 < dirnum) {j : Nat} (hj : j < filenum) (h : (write j).status = 0) :
    fillRound write dirnum filenum (begun j) = .next (begun (j + 1)) := by
  have hno : ¬((0 : Int) ≤ dirnum ∧ (dirnum : Int) ≤ (begun j).idirnum) := by
    simp only [begun]
    omega
  have hodd : 0 < (begun j).odirnum := Int.one_pos
  unfold fillRound
  rw [if_pos hodd, if_neg hno, begun_fileWrite j h]
  simp [begun, hj]

/-- The subdirectory is left behind `filenum + 1` files. -/
theorem fillRound_full (hd : 0 < dirnum) (h : (write filenum).status = 0) :
    fillRound write dirnum filenum (begun filenum) =
      .next { begun (filenum + 1) with fn := 0, idirnum := 1, dirs := [0, 1] } := by
  have hno : ¬((0 : Int) ≤ dirnum ∧ (dirnum : Int) ≤ (begun filenum).idirnum) := by
    simp only [begun]
    omega
  have hodd : 0 < (begun filenum).odirnum := Int.one_pos
  unfold fillRound
  rw [if_pos hodd, if_neg hno, begun_fileWrite filenum h]
  simp [begun]

theorem fillRound_fails (hd : 0 < dirnum) {j : Nat} (h : (write j).status ≠ 0) :
    fillRound write dirnum filenum (begun j) = .done { (begun j).fileWrite write with odirnum := 0 } := by
  have hno : ¬((0 : Int) ≤ dirnum ∧ (dirnum : Int) ≤ (begun j).idirnum) := by
    simp only [begun]
    omega
  have hodd : 0 < (begun j).odirnum := Int.one_pos
  have hret : ((begun j).fileWrite write).retval ≠ 0 := h
  unfold fillRound
  rw [if_pos hodd, if_neg hno]
  exact if_pos hret

/-- The first `filenum` calls stay in the first subdirectory. -/
theorem fillFs_iff_begun (hd : 0 < dirnum) {j : Nat} (hj : j ≤ filenum) (h : ∀ i < j, (write i).status = 0) (r : Fill) :
    FillFs write dirnum filenum r ↔ Ends (fillRound write dirnum filenum) (begun j) r := by
  induction j with
  | zero => exact Iff.rfl
  | succ j ih =>
    rw [ih (by omega) fun i hi => h i (by omega)]
    exact ends_next_iff (fillRound_begun hd (by omega) (h j (by omega)))

/-! ## No file is taken away -/

theorem files_next {s s' : Fill} (h : fillRound write dirnum filenum s = .next s') : s.files <+: s'.files := by
  unfold fillRound at h
  split at h
  · split at h
    · cases h
    · simp only at h
      split at h
      · cases h
      · split at h <;> cases h <;> exact List.prefix_append _ _
  · cases h

theorem files_done {s r : Fill} (h : fillRound write dirnum filenum s = .done r) : s.files <+: r.files := by
  unfold fillRound at h
  split at h
  · split at h
    · cases h
      exact List.prefix_rfl
    · simp only at h
      split at h
      · cases h
        exact List.prefix_append _ _
      · split at h <;> cases h
  · cases h
    exact List.prefix_rfl

theorem filesIn_le {fs gs : List (Nat × Nat)} (h : fs <+: gs) (d : Nat) : filesIn fs d ≤ filesIn gs d :=
  h.sublist.countP_le

/-- What a subdirectory holds stays there to the end. -/
theorem filesIn_le_of_ends {s r : Fill} (h : Ends (fillRound write dirnum filenum) s r) (d : Nat) :
    filesIn s.files d ≤ filesIn r.files d :=
  h.post (I := fun t => filesIn s.files d ≤ filesIn t.files d) (Q := fun t => filesIn s.files d ≤ filesIn t.files d)
    (Nat.le_refl _) (fun _ _ hi hstep => Nat.le_trans hi (filesIn_le (files_next hstep) d))
    fun _ _ hi hstep => Nat.le_trans hi (filesIn_le (files_done hstep) d)

theorem filesIn_begun (j : Nat) : filesIn (begun j).files 0 = j := by
  simp [filesIn, begun, List.countP_map, Function.comp_def]

/-! ## The limits -/

theorem fillFs_zero : FillFs write 0 filenum { Fill.init with odirnum := 0 } := ends_done rfl

theorem respects_zero : Respects write 0 filenum { Fill.init with odirnum := 0 } where
  dirs := Nat.le_refl 0
  files _ := Nat.zero_le filenum
  order pre f post h := by
    cases pre <;> cases h
  status := iff_of_true rfl nofun
  full _ := ⟨List.nodup_nil, (Nat.zero_mul filenum).symm⟩

/-- The end of a run in which a call for the first subdirectory fails. -/
def failed (write : Nat → Outcome) (k : Nat) : Fill := { (begun k).fileWrite write with odirnum := 0 }

theorem fillFs_failed (hd : 0 < dirnum) {k : Nat} (hk : k ≤ filenum) (h : FailsAt write k) :
    FillFs write dirnum filenum (failed write k) :=
  (fillFs_iff_begun hd hk h.before _).mpr (ends_done (fillRound_fails hd h.here))

theorem files_failed (write : Nat → Outcome) (k : Nat) :
    (failed write k).files = (List.range (k + (write k).files)).map fun n => (0, n) := by
  cases hc : (write k).created <;> simp [failed, Fill.fileWrite, begun, Outcome.files, hc, List.range_succ]

theorem filesIn_failed (write : Nat → Outcome) (k d : Nat) :
    filesIn (failed write k).files d = if d = 0 then k + (write k).files else 0 := by
  rw [files_failed, filesIn, List.countP_map]
  split
  · rename_i hd
    simp [Function.comp_def, hd]
  · rename_i hd
    simp [Function.comp_def, Ne.symm hd]

theorem respects_failed (hd : 0 < dirnum) {k : Nat} (h : FailsAt write k) (hk : k + (write k).files ≤ filenum) :
    Respects write dirnum filenum (failed write k) := by
  have hret : (failed write k).retval ≠ 0 := h.here
  refine ⟨?_, fun d => ?_, fun pre f post hf d hlt => ?_, iff_of_false hret fun hall => ?_, fun h0 => absurd h0 hret⟩
  · -- all files are in the first subdirectory
    have hsub : ((failed write k).files.map Prod.fst).dedup.length ≤ [0].length := by
      refine (List.Nodup.subperm (List.nodup_dedup _) fun d hdm => ?_).length_le
      rw [List.mem_dedup, files_failed, List.map_map] at hdm
      obtain ⟨n, -, rfl⟩ := List.mem_map.mp hdm
      exact List.mem_singleton_self 0
    exact Nat.le_trans hsub hd
  · rw [filesIn_failed]
    split
    · exact hk
    · exact Nat.zero_le filenum
  · have hmem : f ∈ (failed write k).files := by
      rw [hf]
      exact List.mem_append_right pre List.mem_cons_self
    rw [files_failed] at hmem
    obtain ⟨n, -, rfl⟩ := List.mem_map.mp hmem
    exact absurd hlt (Nat.not_lt_zero d)
  · exact h.here (hall k (Nat.lt_succ_self k))

/-- More than `filenum` files in the first subdirectory. -/
theorem not_respects {r : Fill} (h : filenum < filesIn r.files 0) : ¬Respects write dirnum filenum r :=
  fun hr => absurd (hr.files 0) (Nat.not_le_of_lt h)

theorem exists_failsAt_or (write : Nat → Outcome) (n : Nat) :
    (∃ k ≤ n, FailsAt write k) ∨ ∀ j ≤ n, (write j).status = 0 := by
  induction n with
  | zero =>
    by_cases h : (write 0).status = 0
    · exact Or.inr fun j hj => by rwa [Nat.le_zero.mp hj]
    · exact Or.inl ⟨0, Nat.le_refl 0, nofun, h⟩
  | succ n ih =>
    rcases ih with ⟨k, hk, hfails⟩ | hall
    · exact Or.inl ⟨k, Nat.le_succ_of_le hk, hfails⟩
    · by_cases h : (write (n + 1)).status = 0
      · exact Or.inr fun j hj => (Nat.lt_or_eq_of_le hj).elim (fun hlt => hall j (Nat.le_of_lt_succ hlt)) fun heq => heq ▸ h
      · exact Or.inl ⟨n + 1, Nat.le_refl _, fun j hj => hall j (Nat.le_of_lt_succ hj), h⟩

/-- There is no subdirectory to fill, or a call fails before the first one holds more than `filenum` files. -/
def StopsEarly (write : Nat → Outcome) (dirnum filenum : Nat) : Prop :=
  dirnum = 0 ∨ ∃ k, FailsAt write k ∧ k + (write k).files ≤ filenum

theorem stopsEarly_of_respects (h : FillRespects write dirnum filenum) : StopsEarly write dirnum filenum := by
  obtain ⟨r, hr, hlim⟩ := h
  rcases Nat.eq_zero_or_pos dirnum with h0 | hd
  · exact Or.inl h0
  refine Or.inr ?_
  rcases exists_failsAt_or write filenum with ⟨k, hk, hfails⟩ | hall
  · refine ⟨k, hfails, ?_⟩
    by_contra hlt
    obtain rfl : r = failed write k := Ends.unique hr (fillFs_failed hd hk hfails)
    refine not_respects ?_ hlim
    rw [filesIn_failed, if_pos rfl]
    omega
  · -- the first subdirectory gets `filenum + 1` files, and they stay there
    have hbegun := (fillFs_iff_begun hd (Nat.le_refl filenum) (fun i hi => hall i (Nat.le_of_lt hi)) r).mp hr
    have hrest := (ends_next_iff (fillRound_full hd (hall filenum (Nat.le_refl filenum)))).mp hbegun
    have hle := filesIn_le_of_ends hrest 0
    have hfull := filesIn_begun (filenum + 1)
    refine absurd hlim (not_respects ?_)
    simp only [begun] at hle hfull
    omega

theorem respects_of_stopsEarly (h : StopsEarly write dirnum filenum) : FillRespects write dirnum filenum := by
  rcases Nat.eq_zero_or_pos dirnum with rfl | hd
  · exact ⟨_, fillFs_zero, respects_zero⟩
  rcases h with h0 | ⟨k, hfails, hk⟩
  · omega
  · exact ⟨_, fillFs_failed hd (Nat.le_trans (Nat.le_add_right k _) hk) hfails, respects_failed hd hfails hk⟩

/-- When `fill_fs` respects its limits. They are numbers that `typeset -i` holds, below 2^31, so that no variable of the loop wraps. -/
theorem fillFs_respects_iff (write : Nat → Outcome) (dirnum filenum : Fin 2147483648) :
    FillRespects write dirnum.val filenum.val ↔ StopsEarly write dirnum.val filenum.val :=
  ⟨stopsEarly_of_respects, respects_of_stopsEarly⟩

/-- A `FILE_WRITE` that never fails. -/
def neverFails (_ : Nat) : Outcome := ⟨0, true, fun _ => rfl⟩

/-- One subdirectory with one file: two files are written. -/
theorem not_fillRespects : ¬FillRespects neverFails 1 1 := by
  intro h
  rcases stopsEarly_of_respects h with h0 | ⟨k, hfails, -⟩
  · cases h0
  · exact hfails.here rfl

/-! ## The end of the run -/

/-- What `fill_fs` keeps: it is in a subdirectory below the limit, or has just left the last one, and the next file is not behind the
limit. -/
structure Filling (dirnum filenum : Nat) (s : Fill) : Prop where
  odirnum : s.odirnum = 1
  idirnum : s.idirnum ≤ dirnum
  fn : s.fn ≤ filenum

/-- The files that a run may still write. -/
def Fill.left (dirnum filenum : Nat) (s : Fill) : Nat := (dirnum - s.idirnum) * (filenum + 1) + (filenum - s.fn)

theorem filling_round (s : Fill) (hs : Filling dirnum filenum s) :
    (∃ r, fillRound write dirnum filenum s = .done r ∧ r.odirnum = 0) ∨
      ∃ s', fillRound write dirnum filenum s = .next s' ∧ Filling dirnum filenum s' ∧ s'.left dirnum filenum < s.left dirnum filenum := by
  obtain ⟨hodd, hdir, hfn⟩ := hs
  have hpos : 0 < s.odirnum := by omega
  unfold fillRound
  rw [if_pos hpos]
  split
  · exact Or.inl ⟨_, rfl, rfl⟩
  simp only
  split
  · exact Or.inl ⟨_, rfl, rfl⟩
  split
  · have hmore : dirnum - s.idirnum = dirnum - (s.idirnum + 1) + 1 := by omega
    have hdir' : s.idirnum + 1 ≤ dirnum := by omega
    refine Or.inr ⟨_, rfl, ⟨hodd, hdir', Nat.zero_le _⟩, ?_⟩
    show (dirnum - (s.idirnum + 1)) * (filenum + 1) + (filenum - 0) < s.left dirnum filenum
    rw [Fill.left, hmore, Nat.succ_mul]
    omega
  · rename_i hmax
    have hmax' : s.fn < filenum := Int.ofNat_lt.mp (Int.not_le.mp hmax)
    refine Or.inr ⟨_, rfl, ⟨hodd, hdir, hmax'⟩, ?_⟩
    show (dirnum - s.idirnum) * (filenum + 1) + (filenum - (s.fn + 1)) < s.left dirnum filenum
    rw [Fill.left]
    omega

/-- `fill_fs` ends, whatever `FILE_WRITE` does. -/
theorem fillFs_ends (write : Nat → Outcome) (dirnum filenum : Nat) : ∃ r, FillFs write dirnum filenum r := by
  have hinit : Filling dirnum filenum Fill.init := ⟨rfl, Nat.zero_le _, Nat.zero_le _⟩
  obtain ⟨r, hr, -⟩ := exists_ends (Fill.left dirnum filenum) ((fun s hs => filling_round s hs)) hinit
  exact ⟨r, hr⟩

end ZfsTest.Libtest
