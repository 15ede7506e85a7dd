import ZfsTest.Stf.Name
import ZfsTest.Text.CArray

/-!
# The variable file as bytes

`struct jvars` begins with a mutex, and behind it stand three arrays of 256 characters and four short integers without a gap. The file is
mapped into every process of a test run. `stf_jnl_testcase_start_pid` and `stf_jnl_assert_start_pid` copy a string of any length into one
of the arrays.

Nothing but the fields they mean to change is changed, whatever the file holds, if and only if the string and its NUL fit into the array
(`calls_frame_iff`).
-/

namespace ZfsTest.Stf

/-! ## The layout -/

inductive Field
  | jvarMlock
  | jasrt
  | jsubid
  | jargid
  | jseq
  | jblk
  | jact
  | jsubcnt
  deriving DecidableEq

/-- What the machine gives: the size of a mutex, what locking and unlocking make of its bytes, and the two bytes of an `unsigned short`. A
mutex that has been unlocked is as it was before it was locked. -/
structure Machine where
  mutexSize : Nat
  lock : CArray → CArray
  unlock : CArray → CArray
  shortBytes : Nat → Char × Char
  shortValue : Char → Char → Nat
  length_lock : ∀ b, (lock b).length = b.length
  length_unlock : ∀ b, (unlock b).length = b.length
  unlock_lock : ∀ b, unlock (lock b) = b
  shortValue_shortBytes : ∀ n < 2 ^ 16, shortValue (shortBytes n).1 (shortBytes n).2 = n

variable (mc : Machine)

def Field.size : Field → Nat
  | .jvarMlock => mc.mutexSize
  | .jasrt | .jsubid | .jargid => 256
  | .jseq | .jblk | .jact | .jsubcnt => 2

def Field.offset : Field → Nat
  | .jvarMlock => 0
  | .jasrt => mc.mutexSize
  | .jsubid => mc.mutexSize + 256
  | .jargid => mc.mutexSize + 512
  | .jseq => mc.mutexSize + 768
  | .jblk => mc.mutexSize + 770
  | .jact => mc.mutexSize + 772
  | .jsubcnt => mc.mutexSize + 774

/-- `sizeof (struct jvars)`. -/
def jvarsSize : Nat := mc.mutexSize + 776

/-- The string in a field, and the number in one. -/
def stringAt (f : Field) (m : CArray) : Text := CArray.text (m.drop (f.offset mc))

def shortAt (f : Field) (m : CArray) : Nat := mc.shortValue (m.getD (f.offset mc) '\x00') (m.getD (f.offset mc + 1) '\x00')

/-- The mapped file: there is room for the structure, and its arrays hold strings. -/
structure VarFile where
  bytes : CArray
  long : jvarsSize mc ≤ bytes.length
  strings : ∀ f ∈ [Field.jasrt, .jsubid, .jargid], '\x00' ∈ (bytes.drop (f.offset mc)).take 256

/-! ## The code -/

/-- A write; outside of the mapping it is undefined. -/
def write (i : Nat) (s : Text) (m : CArray) : Except Stop CArray := (CArray.put m i s).elim (.error .undefined) .ok

/-- `strcpy` to a field, whatever its size. -/
def strcpyTo (f : Field) (t : Text) : CArray → Except Stop CArray := write (f.offset mc) (t ++ ['\x00'])

def storeShort (f : Field) (n : Nat) : CArray → Except Stop CArray :=
  write (f.offset mc) [(mc.shortBytes (n % 2 ^ 16)).1, (mc.shortBytes (n % 2 ^ 16)).2]

/-- A change of the file between `mutex_lock` and `mutex_unlock`. -/
def locked (env : Env) (change : CArray → Except Stop CArray) (m : CArray) : Except Stop CArray := do
  if !env.lockOk then
    .error .exit
  else
    let m ← write 0 (mc.lock (m.take mc.mutexSize)) m
    let m ← change m
    if !env.unlockOk then
      .error .exit
    else
      write 0 (mc.unlock (m.take mc.mutexSize)) m

/-- `stf_jnl_testcase_start_pid` on the file, up to the entry it prints. -/
def testcaseStart (env : Env) (line : Text) (m : CArray) : Except Stop CArray := do
  stfJnlOpen env
  let (_, name) ← extractName env line
  locked mc env (fun m => do
    let m ← strcpyTo mc .jasrt name m
    storeShort mc .jseq (shortAt mc .jseq m + 1) m) m

/-- `stf_jnl_assert_start_pid` on the file, up to the entry it prints. -/
def assertStart (env : Env) (subid : Text) (m : CArray) : Except Stop CArray := do
  stfJnlOpen env
  let m ← locked mc env (fun m => do
    let m ← strcpyTo mc .jsubid subid m
    let m ← storeShort mc .jblk 0 m
    storeShort mc .jseq 0 m) m
  let _ ← buildId subid (some (stringAt mc .jargid m))
  return m

/-! ## Frames -/

def Field.Covers (f : Field) (k : Nat) : Prop := f.offset mc ≤ k ∧ k < f.offset mc + f.size mc

/-- No byte outside of some fields is changed. -/
structure ChangesOnly (fs : List Field) (m m' : CArray) : Prop where
  length : m'.length = m.length
  outside : ∀ k, (∀ f ∈ fs, ¬f.Covers mc k) → m'[k]? = m[k]?

/-- The journal can be opened, and the mutex calls succeed. -/
structure Env.Serves (env : Env) : Prop where
  opens : env.opens = true
  lockOk : env.lockOk = true
  unlockOk : env.unlockOk = true

/-- Whatever the file holds, the call returns, changes some fields only, and leaves a string in one of them. -/
def Frames (call : CArray → Except Stop CArray) (f : Field) (t : Text) (others : List Field) : Prop :=
  ∀ v : VarFile mc, ∃ m', call v.bytes = .ok m' ∧ ChangesOnly mc (f :: others) v.bytes m' ∧ stringAt mc f m' = t

variable {mc} {env : Env} {f g : Field} {fs gs : List Field} {m m' : CArray}

theorem write_eq_ok {i : Nat} {s : Text} : write i s m = .ok m' ↔ CArray.put m i s = some m' := by
  unfold write
  cases CArray.put m i s with
  | none => exact ⟨nofun, nofun⟩
  | some b =>
    simp

theorem ChangesOnly.trans {m'' : CArray} (h : ChangesOnly mc fs m m') (h' : ChangesOnly mc gs m' m'') :
    ChangesOnly mc (fs ++ gs) m m'' where
  length := h'.length.trans h.length
  outside := fun k hk => by
    rw [h'.outside k fun f hf => hk f (List.mem_append_right fs hf), h.outside k fun f hf => hk f (List.mem_append_left gs hf)]

/-- Two fields have no byte in common. -/
theorem Field.disjoint (h : f ≠ g) {k : Nat} (hf : f.Covers mc k) : ¬g.Covers mc k := by
  intro hg
  obtain ⟨hlow, hhigh⟩ := hf
  obtain ⟨hlow', hhigh'⟩ := hg
  cases f <;> cases g <;> simp only [Field.offset, Field.size] at hlow hhigh hlow' hhigh' <;> first | omega | exact h rfl

/-- The bytes of the other fields. -/
theorem ChangesOnly.field (h : ChangesOnly mc fs m m') (hg : g ∉ fs) {k : Nat} (hk : k < g.size mc) :
    m'[g.offset mc + k]? = m[g.offset mc + k]? := by
  have hcovers : g.Covers mc (g.offset mc + k) := ⟨Nat.le_add_right _ _, Nat.add_lt_add_left hk _⟩
  refine h.outside _ fun f hf => Field.disjoint ?_ hcovers
  rintro rfl
  exact hg hf

/-- A write into a field. -/
theorem changesOnly_of_put {s : Text} (hs : s.length ≤ f.size mc) (h : CArray.put m (f.offset mc) s = some m') :
    ChangesOnly mc [f] m m' where
  length := CArray.length_put h
  outside := fun k hk => by
    have hcover := hk f List.mem_cons_self
    unfold Field.Covers at hcover
    rw [CArray.getElem?_put h, if_neg (by omega)]

/-! ## Under the mutex -/

variable (mc) in
theorem mutexSize_le_offset (hf : f ≠ .jvarMlock) : mc.mutexSize ≤ f.offset mc := by
  cases f with
  | jvarMlock => exact absurd rfl hf
  | jasrt => exact Nat.le_refl _
  | _ => exact Nat.le_add_right _ _

theorem locked_eq_ok (he : env.Serves) {change : CArray → Except Stop CArray} : locked mc env change m = .ok m' ↔
    ∃ m₁ m₂, CArray.put m 0 (mc.lock (m.take mc.mutexSize)) = some m₁ ∧ change m₁ = .ok m₂ ∧
      CArray.put m₂ 0 (mc.unlock (m₂.take mc.mutexSize)) = some m' := by
  unfold locked
  simp only [he.lockOk, he.unlockOk, Bool.not_true, Bool.false_eq_true, if_false, bind_eq_ok, write_eq_ok]
  constructor
  · rintro ⟨m₁, h₁, m₂, h₂, h⟩
    exact ⟨m₁, m₂, h₁, h₂, h⟩
  · rintro ⟨m₁, m₂, h₁, h₂, h⟩
    exact ⟨m₁, h₁, m₂, h₂, h⟩

/-- Behind the mutex, unlocking changes nothing. -/
theorem unlocked_get {m₂ : CArray} (h₂ : CArray.put m₂ 0 (mc.unlock (m₂.take mc.mutexSize)) = some m') {k : Nat}
    (hk : mc.mutexSize ≤ k) : m'[k]? = m₂[k]? := by
  have hlen : (mc.unlock (m₂.take mc.mutexSize)).length ≤ mc.mutexSize := by
    rw [mc.length_unlock, List.length_take]
    omega
  rw [CArray.getElem?_put h₂, if_neg (by omega)]

/-- What is changed under the mutex is changed in all, and the mutex is as before. -/
theorem locked_frame {m₁ m₂ : CArray} (hlong : mc.mutexSize ≤ m.length) (hfs : Field.jvarMlock ∉ fs)
    (h₁ : CArray.put m 0 (mc.lock (m.take mc.mutexSize)) = some m₁) (h : ChangesOnly mc fs m₁ m₂)
    (h₂ : CArray.put m₂ 0 (mc.unlock (m₂.take mc.mutexSize)) = some m') : ChangesOnly mc fs m m' := by
  have hmutex : (m.take mc.mutexSize).length = mc.mutexSize := by
    rw [List.length_take]
    omega
  have htake₁ : m₁.take mc.mutexSize = mc.lock (m.take mc.mutexSize) := by
    obtain ⟨-, rfl⟩ := CArray.put_eq_some.mp h₁
    rw [List.take_zero, List.nil_append, List.take_left' ((mc.length_lock _).trans hmutex)]
  have htake₂ : m₂.take mc.mutexSize = m₁.take mc.mutexSize := by
    refine List.ext_getElem? fun k => ?_
    by_cases hk : k < mc.mutexSize
    · rw [List.getElem?_take_of_lt hk, List.getElem?_take_of_lt hk]
      refine h.outside k fun f hf hcover => ?_
      have hle := mutexSize_le_offset mc (fun hlock => hfs (hlock ▸ hf) : f ≠ .jvarMlock)
      have hlow := hcover.1
      omega
    · rw [List.getElem?_take_eq_none (by omega), List.getElem?_take_eq_none (by omega)]
  refine ⟨?_, fun k hk => ?_⟩
  · rw [CArray.length_put h₂, h.length, CArray.length_put h₁]
  · by_cases hlow : k < mc.mutexSize
    · rw [htake₂, htake₁, mc.unlock_lock] at h₂
      rw [CArray.getElem?_put h₂, if_pos (by omega), Nat.sub_zero, List.getElem?_take_of_lt hlow]
    · rw [unlocked_get h₂ (by omega), h.outside k hk, CArray.getElem?_put h₁, mc.length_lock, if_neg (by omega)]

/-! ## Short integers -/

def Field.IsShort (f : Field) : Prop := f = .jseq ∨ f = .jblk

theorem storeShort_ok (hf : f.IsShort) (hlong : jvarsSize mc ≤ m.length) (n : Nat) :
    ∃ m', storeShort mc f n m = .ok m' ∧ ChangesOnly mc [f] m m' := by
  have hroom : f.offset mc + 2 ≤ m.length := by
    unfold jvarsSize at hlong
    rcases hf with rfl | rfl
    · simp only [Field.offset]
      omega
    · simp only [Field.offset]
      omega
  obtain ⟨m', hput⟩ := CArray.exists_put
    (s := [(mc.shortBytes (n % 2 ^ 16)).1, (mc.shortBytes (n % 2 ^ 16)).2]) hroom
  have hsize : f.size mc = 2 := by
    rcases hf with rfl | rfl
    · rfl
    · rfl
  refine ⟨m', write_eq_ok.mpr hput, changesOnly_of_put ?_ hput⟩
  exact hsize.ge

/-- The places of the strings are not covered by the short integers. -/
theorem Field.IsShort.not_covers (hf : f.IsShort) {k : Nat} (hk : k < mc.mutexSize + 768) : ¬f.Covers mc k := by
  rintro ⟨hlow, -⟩
  rcases hf with rfl | rfl
  · simp only [Field.offset] at hlow
    omega
  · simp only [Field.offset] at hlow
    omega

/-! ## Strings -/

/-- The arrays that the calls copy to. -/
def Field.IsTarget (f : Field) : Prop := f = .jasrt ∨ f = .jsubid

variable (mc) in
theorem Field.IsTarget.bounds (hf : f.IsTarget) : mc.mutexSize ≤ f.offset mc ∧ f.offset mc + 512 ≤ mc.mutexSize + 768 ∧ f.size mc = 256 := by
  rcases hf with rfl | rfl
  · exact ⟨Nat.le_refl _, by simp only [Field.offset]; omega, rfl⟩
  · exact ⟨Nat.le_add_right _ _, by simp only [Field.offset]; omega, rfl⟩

/-- A file of zeros but for one byte. -/
def VarFile.withByte (f : Field) (hf : f.IsTarget) (c : Char) : VarFile mc where
  bytes := (List.replicate (jvarsSize mc) '\x00').set (f.offset mc + 256) c
  long := by rw [List.length_set, List.length_replicate]
  strings := by
    intro g hg
    have hlast : ((List.replicate (jvarsSize mc) '\x00').set (f.offset mc + 256) c)[g.offset mc + 255]? = some '\x00' := by
      have hne : f.offset mc + 256 ≠ g.offset mc + 255 ∧ g.offset mc + 255 < jvarsSize mc := by
        simp only [List.mem_cons, List.not_mem_nil, or_false] at hg
        rcases hf with rfl | rfl <;> rcases hg with rfl | rfl | rfl <;> simp only [Field.offset, jvarsSize] <;> omega
      rw [List.getElem?_set_ne hne.1, List.getElem?_replicate, if_pos hne.2]
    refine List.mem_of_getElem? (i := 255) ?_
    rw [List.getElem?_take_of_lt (by omega), List.getElem?_drop]
    exact hlast

variable {t : Text} {rest : CArray → Except Stop CArray}

/-- What is copied stays as it is, up to the short integers. -/
theorem copied_get {m₁ m₂ m₃ : CArray} (hf : f.IsTarget) (hgs : ∀ g ∈ gs, g.IsShort)
    (hput : CArray.put m₁ (f.offset mc) (t ++ ['\x00']) = some m₂) (hrest : ChangesOnly mc gs m₂ m₃)
    (hagree : ∀ k, mc.mutexSize ≤ k → m'[k]? = m₃[k]?) {k : Nat} (hk : k ≤ t.length) (hk' : k ≤ 256) :
    m'[f.offset mc + k]? = (t ++ ['\x00'])[k]? := by
  obtain ⟨hlow, hhigh, -⟩ := hf.bounds mc
  have hlength : (t ++ ['\x00']).length = t.length + 1 := by rw [List.length_append, List.length_singleton]
  rw [hagree _ (by omega), hrest.outside _ fun g hg => (hgs g hg).not_covers (by omega), CArray.getElem?_put hput,
    if_pos (by omega), Nat.add_sub_cancel_left]

theorem IsTarget.not_lock (hf : f.IsTarget) (hgs : ∀ g ∈ gs, g.IsShort) : Field.jvarMlock ∉ f :: gs := by
  intro h
  rcases List.mem_cons.mp h with rfl | h
  · rcases hf with h | h
    · cases h
    · cases h
  · rcases hgs _ h with h | h
    · cases h
    · cases h

/-- A run with a string that fits: `m₁` is under the mutex, `m₂` is behind the copy, and `m₃` is before the mutex is unlocked. -/
structure CopyRun (v : VarFile mc) (f : Field) (t : Text) (gs : List Field) (rest : CArray → Except Stop CArray)
    (m₁ m₂ m₃ m' : CArray) : Prop where
  locked : ∀ k, mc.mutexSize ≤ k → m₁[k]? = v.bytes[k]?
  copy : ChangesOnly mc [f] m₁ m₂
  rest : rest m₂ = .ok m₃
  unlocked : ∀ k, mc.mutexSize ≤ k → m'[k]? = m₃[k]?
  frame : ChangesOnly mc (f :: gs) v.bytes m'
  string : stringAt mc f m' = t

theorem copy_returns (he : env.Serves) (hf : f.IsTarget) (ht : '\x00' ∉ t) (hgs : ∀ g ∈ gs, g.IsShort)
    (hrest : ∀ m, jvarsSize mc ≤ m.length → ∃ m', rest m = .ok m' ∧ ChangesOnly mc gs m m') (hlen : t.length < 256) (v : VarFile mc) :
    ∃ m₁ m₂ m₃ m', locked mc env (fun m => strcpyTo mc f t m >>= rest) v.bytes = .ok m' ∧ CopyRun v f t gs rest m₁ m₂ m₃ m' := by
  obtain ⟨hlow, hhigh, hsize⟩ := hf.bounds mc
  have hlength : (t ++ ['\x00']).length = t.length + 1 := by rw [List.length_append, List.length_singleton]
  have hv := v.long
  unfold jvarsSize at hv
  have hmutex : (mc.lock (v.bytes.take mc.mutexSize)).length = mc.mutexSize := by
    rw [mc.length_lock, List.length_take]
    omega
  have hfits : 0 + (mc.lock (v.bytes.take mc.mutexSize)).length ≤ v.bytes.length := by omega
  obtain ⟨m₁, h₁⟩ := CArray.exists_put hfits
  have hlen₁ := CArray.length_put h₁
  have hfits : f.offset mc + (t ++ ['\x00']).length ≤ m₁.length := by omega
  obtain ⟨m₂, hput⟩ := CArray.exists_put hfits
  have hlen₂ := CArray.length_put hput
  obtain ⟨m₃, hok, honly⟩ := hrest m₂ (by unfold jvarsSize; omega)
  have hfits : 0 + (mc.unlock (m₃.take mc.mutexSize)).length ≤ m₃.length := by
    rw [mc.length_unlock, List.length_take]
    omega
  obtain ⟨m', h₂⟩ := CArray.exists_put hfits
  have hcopy : ChangesOnly mc [f] m₁ m₂ := changesOnly_of_put (by omega) hput
  refine ⟨m₁, m₂, m₃, m', (locked_eq_ok he).mpr ⟨m₁, m₃, h₁, bind_eq_ok.mpr ⟨m₂, write_eq_ok.mpr hput, hok⟩, h₂⟩, fun k hk => ?_, hcopy,
    hok, fun k hk => unlocked_get h₂ hk, locked_frame (by omega) (IsTarget.not_lock hf hgs) h₁ (hcopy.trans honly) h₂, ?_⟩
  · rw [CArray.getElem?_put h₁, if_neg (by omega)]
  · exact CArray.text_drop_eq ht fun k hk => copied_get hf hgs hput honly (fun k hk => unlocked_get h₂ hk) hk (by omega)

/-- A copy to an array under the mutex, and behind it something that changes short integers. -/
theorem frames_iff (he : env.Serves) (hf : f.IsTarget) (ht : '\x00' ∉ t) (hgs : ∀ g ∈ gs, g.IsShort)
    (hrest : ∀ m, jvarsSize mc ≤ m.length → ∃ m', rest m = .ok m' ∧ ChangesOnly mc gs m m') :
    Frames mc (locked mc env fun m => strcpyTo mc f t m >>= rest) f t gs ↔ t.length < 256 := by
  constructor
  · intro h
    by_contra hlen
    obtain ⟨hlow, hhigh, hsize⟩ := hf.bounds mc
    have hlength : (t ++ ['\x00']).length = t.length + 1 := by rw [List.length_append, List.length_singleton]
    -- the byte behind the array was another one
    obtain ⟨b, hb⟩ : ∃ b, (t ++ ['\x00'])[256]? = some b := ⟨_, List.getElem?_eq_getElem (by omega)⟩
    obtain ⟨c, hc⟩ : ∃ c : Char, c ≠ b := by
      by_cases hx : b = 'x'
      · exact ⟨'y', by rw [hx]; decide⟩
      · exact ⟨'x', fun h => hx h.symm⟩
    obtain ⟨m', hcall, hframe, -⟩ := h (.withByte f hf c)
    obtain ⟨m₁, m₃, h₁, hchange, h₂⟩ := (locked_eq_ok he).mp hcall
    obtain ⟨m₂, hcopy, hshorts⟩ := bind_eq_ok.mp hchange
    have hput := write_eq_ok.mp hcopy
    have hlong : jvarsSize mc ≤ m₂.length := by
      rw [CArray.length_put hput, CArray.length_put h₁]
      exact (VarFile.withByte f hf c).long
    obtain ⟨m₄, hok, honly⟩ := hrest m₂ hlong
    obtain rfl : m₄ = m₃ := Except.ok.inj (hok.symm.trans hshorts)
    have hnew := copied_get hf hgs hput honly (fun k hk => unlocked_get h₂ hk) (by omega : 256 ≤ t.length) (Nat.le_refl _)
    have hold : m'[f.offset mc + 256]? = some c := by
      have huncovered : ∀ g ∈ f :: gs, ¬g.Covers mc (f.offset mc + 256) := by
        rintro g hg
        rcases List.mem_cons.mp hg with rfl | hg
        · unfold Field.Covers
          omega
        · exact (hgs g hg).not_covers (by omega)
      have hroom : f.offset mc + 256 < (List.replicate (jvarsSize mc) '\x00').length := by
        rw [List.length_replicate, jvarsSize]
        omega
      rw [hframe.outside _ huncovered]
      exact List.getElem?_set_self hroom
    rw [hold, hb] at hnew
    exact hc (Option.some.inj hnew)
  · intro hlen v
    obtain ⟨_, _, _, m', hok, hrun⟩ := copy_returns he hf ht hgs hrest hlen v
    exact ⟨m', hok, hrun.frame, hrun.string⟩

/-! ## The two calls -/

/-- The name that is extracted from a line. -/
theorem nameText_eq {line : Text} (hnul : '\x00' ∉ line) : nameText env line = line.takeWhile (· ≠ ' ') := by
  by_cases hblank : ' ' ∈ line
  · obtain ⟨front, rest, rfl, hfront⟩ := List.eq_append_cons_of_mem hblank
    have hnul' : '\x00' ∉ front := fun h => hnul (List.mem_append_left _ h)
    rw [nameText, nameArray, List.append_assoc, List.cons_append, takeWhile_separator hfront, takeWhile_separator hfront,
      List.takeWhile_eq_self_iff]
    exact ne_of_notMem hnul'
  · have hall : ∀ c ∈ line, decide (c ≠ ' ') = true := ne_of_notMem hblank
    rw [nameText, nameArray, List.takeWhile_append_of_pos hall, List.takeWhile_eq_self_iff.mpr hall,
      List.takeWhile_cons_of_pos (by decide)]
    exact CArray.text_append_nul hnul

theorem nul_notMem_name {line : Text} (hnul : '\x00' ∉ line) : '\x00' ∉ line.takeWhile (· ≠ ' ') :=
  fun h => hnul ((List.takeWhile_prefix _).subset h)

/-- The name is found if the scan finds a blank. -/
theorem extractName_iff {line name : Text} (hnul : '\x00' ∉ line) (hlen : line.length < MAXCHAR) :
    (∃ n, extractName env line = .ok (n, name)) ↔ ' ' ∈ nameArray env line ∧ name = line.takeWhile (· ≠ ' ') := by
  rw [← testcaseName_iff_extractName, testcaseName_eq_ok, nameText_eq hnul]
  exact ⟨And.right, fun h => ⟨hlen, h⟩⟩

variable (mc) in
/-- What `stf_jnl_testcase_start_pid` does behind the copy. -/
def startRest (m : CArray) : Except Stop CArray := storeShort mc .jseq (shortAt mc .jseq m + 1) m

variable (mc) in
/-- What `stf_jnl_assert_start_pid` does behind the copy. -/
def assertRest (m : CArray) : Except Stop CArray := storeShort mc .jblk 0 m >>= storeShort mc .jseq 0

theorem startRest_ok (hlong : jvarsSize mc ≤ m.length) : ∃ m', startRest mc m = .ok m' ∧ ChangesOnly mc [.jseq] m m' :=
  storeShort_ok (Or.inl rfl) hlong _

theorem assertRest_ok (hlong : jvarsSize mc ≤ m.length) : ∃ m', assertRest mc m = .ok m' ∧ ChangesOnly mc [.jblk, .jseq] m m' := by
  obtain ⟨m₁, hok₁, h₁⟩ := storeShort_ok (Or.inr rfl) hlong 0
  obtain ⟨m₂, hok₂, h₂⟩ := storeShort_ok (Or.inl rfl) (h₁.length.symm ▸ hlong) 0
  exact ⟨m₂, bind_eq_ok.mpr ⟨m₁, hok₁, hok₂⟩, h₁.trans h₂⟩

theorem startShorts : ∀ g ∈ [Field.jseq], g.IsShort := fun _ hg => Or.inl (List.mem_singleton.mp hg)

theorem assertShorts : ∀ g ∈ [Field.jblk, .jseq], g.IsShort := by
  intro g hg
  rcases List.mem_pair.mp hg with rfl | rfl
  · exact Or.inr rfl
  · exact Or.inl rfl

theorem testcaseStart_eq (he : env.Serves) {line : Text} (hnul : '\x00' ∉ line) (hlen : line.length < MAXCHAR)
    (hblank : ' ' ∈ nameArray env line) : testcaseStart mc env line =
      locked mc env fun m => strcpyTo mc .jasrt (line.takeWhile (· ≠ ' ')) m >>= startRest mc := by
  have hopen : stfJnlOpen env = .ok () := stfJnlOpen_eq_ok.mpr he.opens
  obtain ⟨n, hn⟩ := (extractName_iff hnul hlen).mpr ⟨hblank, rfl⟩
  funext m
  rw [testcaseStart, hopen, hn]
  rfl

/-- Nothing but the name and the sequence count is changed if and only if the scan finds a blank and the name fits. -/
theorem testcaseStart_frames_iff (he : env.Serves) {line : Text} (hnul : '\x00' ∉ line) (hlen : line.length < MAXCHAR) :
    Frames mc (testcaseStart mc env line) .jasrt (line.takeWhile (· ≠ ' ')) [.jseq] ↔
      ' ' ∈ nameArray env line ∧ (line.takeWhile (· ≠ ' ')).length < 256 := by
  by_cases hblank : ' ' ∈ nameArray env line
  · rw [testcaseStart_eq he hnul hlen hblank,
      frames_iff he (Or.inl rfl) (nul_notMem_name hnul) startShorts fun _ => startRest_ok]
    exact ⟨fun h => ⟨hblank, h⟩, And.right⟩
  · refine iff_of_false (fun h => ?_) fun h => hblank h.1
    obtain ⟨m', hok, -⟩ := h (.withByte .jasrt (Or.inl rfl) 'x')
    obtain ⟨-, -, hok⟩ := bind_eq_ok.mp hok
    obtain ⟨⟨n, name⟩, hn, -⟩ := bind_eq_ok.mp hok
    exact hblank ((extractName_iff hnul hlen).mp ⟨n, hn⟩).1

/-- The arrays of the file. -/
def Field.IsString (f : Field) : Prop := f ∈ [Field.jasrt, .jsubid, .jargid]

/-- A string stays as it is if the bytes of its array do. -/
theorem stringAt_unchanged {v : VarFile mc} (hg : g.IsString) (h : ChangesOnly mc fs v.bytes m') (hfs : g ∉ fs) :
    stringAt mc g m' = stringAt mc g v.bytes := by
  have hsize : g.size mc = 256 := by
    simp only [Field.IsString, List.mem_cons, List.not_mem_nil, or_false] at hg
    rcases hg with rfl | rfl | rfl
    · rfl
    · rfl
    · rfl
  have hnul := v.strings g hg
  have hlt : (stringAt mc g v.bytes).length < 256 := CArray.length_text_lt hnul
  obtain ⟨hfree, rest, heq⟩ := CArray.eq_text_append (List.mem_of_mem_take hnul)
  refine CArray.text_drop_eq hfree fun k hk => ?_
  have hk' : k ≤ (stringAt mc g v.bytes).length := hk
  rw [h.field hfs (by omega), ← List.getElem?_drop, heq, List.append_cons]
  refine List.getElem?_append_left ?_
  rw [List.length_append, List.length_singleton]
  exact Nat.lt_succ_of_le hk

/-- The identification that is printed fits in its buffer. -/
theorem idText_short {subid argid : Text} (hsub : subid.length < 256) (harg : argid.length < 256) :
    (idText subid (some argid)).length < MAXCHAR := by
  have hmax : MAXCHAR = 8192 := rfl
  have hsubText : (subText subid).length ≤ subid.length + 1 := by
    unfold subText
    split
    · exact Nat.zero_le _
    · exact Nat.le_refl _
  have hargText : (argText argid).length ≤ argid.length + 2 := by
    unfold argText
    split
    · exact Nat.zero_le _
    · rw [List.length_append]
      exact Nat.le_refl _
  rw [idText, Option.elim_some, List.length_append]
  omega

/-- What is left of the call behind the mutex only prints. -/
theorem assertStart_eq_ok (he : env.Serves) {subid : Text} {v : VarFile mc} : assertStart mc env subid v.bytes = .ok m' ↔
    locked mc env (fun m => strcpyTo mc .jsubid subid m >>= assertRest mc) v.bytes = .ok m' ∧
      (idText subid (some (stringAt mc .jargid m'))).length < MAXCHAR := by
  have hopen : stfJnlOpen env = .ok () := stfJnlOpen_eq_ok.mpr he.opens
  constructor
  · intro hok
    obtain ⟨-, -, hok⟩ := bind_eq_ok.mp hok
    obtain ⟨m₁, hlocked, hok⟩ := bind_eq_ok.mp hok
    obtain ⟨id, hid, hok⟩ := bind_eq_ok.mp hok
    obtain rfl : m₁ = m' := Except.ok.inj hok
    exact ⟨hlocked, (buildId_eq_ok.mp hid).1⟩
  · rintro ⟨hlocked, hid⟩
    exact bind_eq_ok.mpr ⟨(), hopen, bind_eq_ok.mpr ⟨m', hlocked, bind_eq_ok.mpr ⟨_, buildId_eq_ok.mpr ⟨hid, rfl⟩, rfl⟩⟩⟩

theorem jargid_isString : Field.jargid.IsString := by simp [Field.IsString]

/-- Nothing but the sub-identification and two counters is changed if and only if the sub-identification fits. -/
theorem assertStart_frames_iff (he : env.Serves) {subid : Text} (hnul : '\x00' ∉ subid) :
    Frames mc (assertStart mc env subid) .jsubid subid [.jblk, .jseq] ↔ subid.length < 256 := by
  have hiff : Frames mc (locked mc env fun m => strcpyTo mc .jsubid subid m >>= assertRest mc) .jsubid subid [.jblk, .jseq] ↔
      subid.length < 256 := frames_iff he (Or.inr rfl) hnul assertShorts fun _ => assertRest_ok
  rw [← hiff]
  constructor
  · intro h v
    obtain ⟨m', hok, hframe⟩ := h v
    exact ⟨m', ((assertStart_eq_ok he).mp hok).1, hframe⟩
  · intro h v
    obtain ⟨m', hlocked, hframe, hstring⟩ := h v
    have harg : (stringAt mc .jargid m').length < 256 := by
      rw [stringAt_unchanged jargid_isString hframe (by decide)]
      exact CArray.length_text_lt (v.strings .jargid jargid_isString)
    exact ⟨m', (assertStart_eq_ok he).mpr ⟨hlocked, idText_short (hiff.mp h) harg⟩, hframe, hstring⟩

/-! ## The record of the variables -/

variable (mc) in
/-- What the bytes say. -/
def jvarsAt (m : CArray) : Jvars :=
  ⟨stringAt mc .jasrt m, stringAt mc .jsubid m, stringAt mc .jargid m, shortAt mc .jseq m, shortAt mc .jblk m, shortAt mc .jact m⟩

theorem shortAt_congr (h : ∀ k < 2, m'[g.offset mc + k]? = m[g.offset mc + k]?) : shortAt mc g m' = shortAt mc g m := by
  have h₀ := h 0 (by decide)
  have h₁ := h 1 (by decide)
  rw [Nat.add_zero] at h₀
  rw [shortAt, shortAt, List.getD_eq_getElem?_getD, List.getD_eq_getElem?_getD, h₀, h₁, List.getD_eq_getElem?_getD,
    List.getD_eq_getElem?_getD]

theorem shortAt_unchanged (hg : g.size mc = 2) (h : ChangesOnly mc fs m m') (hfs : g ∉ fs) : shortAt mc g m' = shortAt mc g m :=
  shortAt_congr fun _ hk => h.field hfs (by omega)

theorem shortAt_storeShort {n : Nat} (h : storeShort mc f n m = .ok m') : shortAt mc f m' = n % 2 ^ 16 := by
  have hput := write_eq_ok.mp h
  have hlt : n % 2 ^ 16 < 2 ^ 16 := Nat.mod_lt _ (by decide)
  have h₀ := CArray.getElem?_put hput (f.offset mc)
  have h₁ := CArray.getElem?_put hput (f.offset mc + 1)
  rw [List.length_cons, List.length_singleton, if_pos (by omega), Nat.sub_self] at h₀
  rw [List.length_cons, List.length_singleton, if_pos (by omega), Nat.add_sub_cancel_left] at h₁
  rw [shortAt, List.getD_eq_getElem?_getD, List.getD_eq_getElem?_getD, h₀, h₁]
  exact mc.shortValue_shortBytes _ hlt

/-- On a name that fits, the call does to the bytes what it does to the record. -/
theorem testcaseStart_refines (he : env.Serves) {line : Text} (hnul : '\x00' ∉ line) (hlen : line.length < MAXCHAR)
    (hblank : ' ' ∈ nameArray env line) (hfits : (line.takeWhile (· ≠ ' ')).length < 256) (v : VarFile mc) (pid : Int) (journal : Text) :
    ∃ m' s', testcaseStart mc env line v.bytes = .ok m' ∧
      journalCall env (.testcaseStart pid line) ⟨journal, some (jvarsAt mc v.bytes)⟩ = .ok s' ∧ s'.vars = some (jvarsAt mc m') := by
  obtain ⟨m₁, m₂, m₃, m', hok, hrun⟩ :=
    copy_returns he (Or.inl rfl) (nul_notMem_name hnul) startShorts (fun _ => startRest_ok) hfits v
  have hjseq : shortAt mc .jseq m' = (shortAt mc .jseq v.bytes + 1) % 2 ^ 16 := by
    have hlow := mutexSize_le_offset mc (nofun : Field.jseq ≠ .jvarMlock)
    have hend : shortAt mc .jseq m' = shortAt mc .jseq m₃ := shortAt_congr fun k _ => hrun.unlocked _ (by omega)
    have hcopy : shortAt mc .jseq m₂ = shortAt mc .jseq m₁ := shortAt_unchanged rfl hrun.copy (by decide)
    have hstart : shortAt mc .jseq m₁ = shortAt mc .jseq v.bytes := shortAt_congr fun k _ => hrun.locked _ (by omega)
    rw [hend, shortAt_storeShort hrun.rest, hcopy, hstart]
  have hvars : jvarsAt mc m' = { jvarsAt mc v.bytes with
      jasrt := line.takeWhile (· ≠ ' ')
      jseq := ((jvarsAt mc v.bytes).jseq + 1) % 2 ^ 16 } := by
    have hsubid : stringAt mc .jsubid m' = _ := stringAt_unchanged (by simp [Field.IsString]) hrun.frame (by decide)
    have hargid : stringAt mc .jargid m' = _ := stringAt_unchanged jargid_isString hrun.frame (by decide)
    have hjblk : shortAt mc .jblk m' = _ := shortAt_unchanged rfl hrun.frame (by decide)
    have hjact : shortAt mc .jact m' = _ := shortAt_unchanged rfl hrun.frame (by decide)
    rw [jvarsAt, hrun.string, hsubid, hargid, hjseq, hjblk, hjact]
    rfl
  have hname : testcaseName env line = .ok (line.takeWhile (· ≠ ' ')) :=
    testcaseName_eq_ok.mpr ⟨hlen, hblank, (nameText_eq hnul).symm⟩
  have hcopy : strcpy 256 (line.takeWhile (· ≠ ' ')) = .ok (line.takeWhile (· ≠ ' ')) := strcpy_eq_ok.mpr ⟨hfits, rfl⟩
  refine ⟨m', _, ?_, bind_eq_ok.mpr ⟨(), stfJnlOpen_eq_ok.mpr he.opens, bind_eq_ok.mpr ⟨_, hname, bind_eq_ok.mpr ⟨_, bind_eq_ok.mpr
    ⟨_, withMutex_eq_ok.mpr ⟨he.lockOk, he.unlockOk, bind_eq_ok.mpr ⟨_, hcopy, rfl⟩⟩, rfl⟩, rfl⟩⟩⟩, ?_⟩
  · rw [testcaseStart_eq he hnul hlen hblank]
    exact hok
  · rw [hvars]
    rfl

theorem assertStart_refines (he : env.Serves) {subid : Text} (hnul : '\x00' ∉ subid) (hfits : subid.length < 256) (v : VarFile mc)
    (pid : Int) (journal : Text) :
    ∃ m' s', assertStart mc env subid v.bytes = .ok m' ∧
      journalCall env (.assertStart pid subid) ⟨journal, some (jvarsAt mc v.bytes)⟩ = .ok s' ∧ s'.vars = some (jvarsAt mc m') := by
  obtain ⟨m₁, m₂, m₃, m', hok, hrun⟩ := copy_returns he (Or.inr rfl) hnul assertShorts (fun _ => assertRest_ok) hfits v
  obtain ⟨m₄, hblk, hseq⟩ := bind_eq_ok.mp hrun.rest
  have hjseq : shortAt mc .jseq m' = 0 := by
    have hlow := mutexSize_le_offset mc (nofun : Field.jseq ≠ .jvarMlock)
    have hend : shortAt mc .jseq m' = shortAt mc .jseq m₃ := shortAt_congr fun k _ => hrun.unlocked _ (by omega)
    rw [hend, shortAt_storeShort hseq, Nat.zero_mod]
  have hjblk : shortAt mc .jblk m' = 0 := by
    have hlow := mutexSize_le_offset mc (nofun : Field.jblk ≠ .jvarMlock)
    have hend : shortAt mc .jblk m' = shortAt mc .jblk m₃ := shortAt_congr fun k _ => hrun.unlocked _ (by omega)
    have hstore : ChangesOnly mc [.jseq] m₄ m₃ := changesOnly_of_put (Nat.le_refl _) (write_eq_ok.mp hseq)
    rw [hend, shortAt_unchanged rfl hstore (by decide), shortAt_storeShort hblk, Nat.zero_mod]
  have hargid : stringAt mc .jargid m' = _ := stringAt_unchanged jargid_isString hrun.frame (by decide)
  have harg : (stringAt mc .jargid v.bytes).length < 256 := CArray.length_text_lt (v.strings .jargid jargid_isString)
  have hvars : jvarsAt mc m' = { jvarsAt mc v.bytes with jsubid := subid, jblk := 0, jseq := 0 } := by
    have hasrt : stringAt mc .jasrt m' = _ := stringAt_unchanged (by simp [Field.IsString]) hrun.frame (by decide)
    have hjact : shortAt mc .jact m' = _ := shortAt_unchanged rfl hrun.frame (by decide)
    rw [jvarsAt, hrun.string, hasrt, hargid, hjseq, hjblk, hjact]
    rfl
  have hid := idText_short hfits harg
  have hcopy : strcpy 256 subid = .ok subid := strcpy_eq_ok.mpr ⟨hfits, rfl⟩
  refine ⟨m', _, (assertStart_eq_ok he).mpr ⟨hok, hargid.symm ▸ hid⟩, bind_eq_ok.mpr ⟨(), stfJnlOpen_eq_ok.mpr he.opens, bind_eq_ok.mpr
    ⟨_, bind_eq_ok.mpr ⟨_, withMutex_eq_ok.mpr ⟨he.lockOk, he.unlockOk, bind_eq_ok.mpr ⟨_, hcopy, rfl⟩⟩, rfl⟩,
      bind_eq_ok.mpr ⟨_, buildId_eq_ok.mpr ⟨hid, rfl⟩, rfl⟩⟩⟩, ?_⟩
  rw [hvars]
  rfl

/-! ## Both calls -/

/-- The two calls change the fields they mean to, and no other byte, if and only if the string fits in its array. -/
theorem calls_frame_iff (mc : Machine) (env : Env) (he : env.Serves) :
    (∀ line : Text, '\x00' ∉ line → line.length < MAXCHAR →
      (Frames mc (testcaseStart mc env line) .jasrt (line.takeWhile (· ≠ ' ')) [.jseq] ↔
        ' ' ∈ nameArray env line ∧ (line.takeWhile (· ≠ ' ')).length < 256)) ∧
    (∀ subid : Text, '\x00' ∉ subid → (Frames mc (assertStart mc env subid) .jsubid subid [.jblk, .jseq] ↔ subid.length < 256)) :=
  ⟨fun _ => testcaseStart_frames_iff he, fun _ => assertStart_frames_iff he⟩

/-- A byte that tells whether the mutex is held. -/
def toggle : CArray → CArray
  | [] => []
  | c :: b => (if c = '\x00' then '\x01' else if c = '\x01' then '\x00' else c) :: b

theorem toggle_toggle (b : CArray) : toggle (toggle b) = b := by
  cases b with
  | nil => rfl
  | cons c b =>
    unfold toggle
    by_cases h₀ : c = '\x00'
    · simp [h₀]
    · by_cases h₁ : c = '\x01'
      · simp [h₁]
      · simp [h₀, h₁]

theorem toNat_ofNat_byte {n : Nat} (h : n < 256) : (Char.ofNat n).toNat = n := by
  have hvalid : n.isValidChar := Or.inl (by omega)
  rw [Char.ofNat, dif_pos hvalid]
  rfl

/-- A machine with the low byte first. -/
def Machine.sample : Machine where
  mutexSize := 24
  lock := toggle
  unlock := toggle
  shortBytes := fun n => (Char.ofNat (n % 256), Char.ofNat (n / 256 % 256))
  shortValue := fun c d => c.toNat + 256 * d.toNat
  length_lock := fun b => by cases b <;> rfl
  length_unlock := fun b => by cases b <;> rfl
  unlock_lock := toggle_toggle
  shortValue_shortBytes := fun n hn => by
    rw [toNat_ofNat_byte (Nat.mod_lt _ (by decide)), toNat_ofNat_byte (Nat.mod_lt _ (by decide))]
    omega

theorem Env.sample_serves : Env.sample.Serves := ⟨rfl, rfl, rfl⟩

theorem calls_frame_sample :
    Frames .sample (testcaseStart .sample .sample "t 1".toList) .jasrt ['t'] [.jseq] ∧
      Frames .sample (assertStart .sample .sample "1".toList) .jsubid "1".toList [.jblk, .jseq] := by
  obtain ⟨hstart, hassert⟩ := calls_frame_iff .sample .sample Env.sample_serves
  have hblank : ' ' ∈ nameArray .sample "t 1".toList := List.mem_append_left _ (by decide)
  exact ⟨(hstart "t 1".toList (by decide) (by decide)).mpr ⟨hblank, by decide⟩, (hassert "1".toList (by decide)).mpr (by decide)⟩

/-- A name of 300 characters. -/
def longName : Text := List.replicate 300 'x'

/-- Names and sub-identifications of 300 characters change the array behind theirs. -/
theorem not_calls_frame :
    (¬∀ (mc : Machine) (env : Env) (line : Text), env.Serves → '\x00' ∉ line → line.length < MAXCHAR → ' ' ∈ line →
      Frames mc (testcaseStart mc env line) .jasrt (line.takeWhile (· ≠ ' ')) [.jseq]) ∧
    ¬∀ (mc : Machine) (env : Env) (subid : Text), env.Serves → '\x00' ∉ subid →
      Frames mc (assertStart mc env subid) .jsubid subid [.jblk, .jseq] := by
  have hchars : ∀ c ∈ longName, c = 'x' := fun c hc => (List.mem_replicate.mp hc).2
  have hlength : longName.length = 300 := List.length_replicate
  have hnul : '\x00' ∉ longName := fun h => absurd (hchars _ h) (by decide)
  constructor
  · intro h
    have hblank : ' ' ∉ longName := fun h => absurd (hchars _ h) (by decide)
    have hnulLine : '\x00' ∉ longName ++ [' ', '1'] := by simp [hnul]
    have hlenLine : (longName ++ [' ', '1']).length < MAXCHAR := by
      rw [List.length_append, hlength]
      decide
    have hframe := h .sample .sample (longName ++ [' ', '1']) Env.sample_serves hnulLine hlenLine (by simp)
    have hlen := ((testcaseStart_frames_iff Env.sample_serves hnulLine hlenLine).mp hframe).2
    rw [takeWhile_separator hblank, hlength] at hlen
    omega
  · intro h
    have hlen := (assertStart_frames_iff Env.sample_serves hnul).mp (h .sample .sample longName Env.sample_serves hnul)
    rw [hlength] at hlen
    omega

end ZfsTest.Stf
