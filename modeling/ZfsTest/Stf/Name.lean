import ZfsTest.Stf.Entries
import ZfsTest.Text.Separated

/-!
# The name of a test case

`stf_jnl_testcase_start_pid` copies the command line into an array and looks for the end of the name in it. The loop stops at a
blank and at nothing else (`nameLoop_eq_ok`): without arguments it goes on behind the copied string, through what the array held
before (`extractName_inside_iff`).
-/

namespace ZfsTest.Stf

/-- The loop `for (name_ptr = jnl_asrt_name; *name_ptr != ' '; name_ptr++)`: the place it stops at. A read behind the array is
undefined. -/
def nameLoop : Text → Except Stop Nat
  | [] => .error .undefined
  | x :: array =>
    if x = ' ' then return 0
    else do
      let n ← nameLoop array
      return n + 1

/-- The string in an array. -/
def cString (array : Text) : Text := array.takeWhile (· ≠ '\x00')

/-- Where the loop stops, and the name in `jnl_asrt_name` after it. -/
def extractName (env : Env) (line : Text) : Except Stop (Nat × Text) := do
  let _ ← strcpy MAXCHAR line
  let n ← nameLoop (nameArray env line)
  return (n, cString ((nameArray env line).set n '\x00'))

variable {env : Env} {line : Text}

/-! ## The loop -/

/-- The loop stops at the first blank. -/
theorem nameLoop_eq_ok {array : Text} {n : Nat} :
    nameLoop array = .ok n ↔ ∃ front rest, array = front ++ ' ' :: rest ∧ ' ' ∉ front ∧ front.length = n := by
  induction array generalizing n with
  | nil =>
    constructor
    · intro h
      cases h
    · rintro ⟨front, rest, h, -⟩
      simp at h
  | cons x array ih =>
    unfold nameLoop
    by_cases hx : x = ' '
    · rw [if_pos hx]
      constructor
      · intro h
        cases h
        exact ⟨[], array, by rw [hx]; rfl, List.not_mem_nil, rfl⟩
      · rintro ⟨front, rest, h, hfront, rfl⟩
        cases front with
        | nil => rfl
        | cons y front =>
          obtain ⟨rfl, -⟩ := List.cons.inj h
          exact absurd (hx ▸ List.mem_cons_self) hfront
    · rw [if_neg hx, bind_eq_ok]
      constructor
      · rintro ⟨m, hm, h⟩
        obtain ⟨front, rest, rfl, hfront, rfl⟩ := ih.mp hm
        cases h
        refine ⟨x :: front, rest, rfl, ?_, rfl⟩
        rw [List.mem_cons, not_or]
        exact ⟨fun e => hx e.symm, hfront⟩
      · rintro ⟨front, rest, h, hfront, rfl⟩
        cases front with
        | nil =>
          obtain ⟨rfl, -⟩ := List.cons.inj h
          exact absurd rfl hx
        | cons y front =>
          obtain ⟨rfl, rfl⟩ := List.cons.inj h
          exact ⟨front.length, ih.mpr ⟨front, rest, rfl, fun hm => hfront (List.mem_cons_of_mem _ hm), rfl⟩, rfl⟩

/-! ## The name -/

/-- A NUL ends the string. -/
theorem cString_append_nul (front rest : Text) : cString (front ++ '\x00' :: rest) = cString front := by
  have hnul : ('\x00' :: rest).takeWhile (· ≠ '\x00') = [] := by
    rw [List.takeWhile_cons_of_neg]
    simp
  unfold cString
  rw [List.takeWhile_append, hnul, List.append_nil]
  split
  · rename_i h
    exact ((List.takeWhile_prefix _).eq_of_length h).symm
  · rfl

/-- What is left of an array cut off at a blank. -/
theorem cString_set (front rest : Text) : cString ((front ++ ' ' :: rest).set front.length '\x00') = cString front := by
  rw [List.set_append_right _ _ (Nat.le_refl _), Nat.sub_self, List.set_cons_zero]
  exact cString_append_nul front rest

/-- What the loop and the NUL behind it leave, in one equation. -/
theorem extractName_eq_ok {n : Nat} {name : Text} : extractName env line = .ok (n, name) ↔ line.length < MAXCHAR ∧
    ∃ front rest, nameArray env line = front ++ ' ' :: rest ∧ ' ' ∉ front ∧ front.length = n ∧ cString front = name := by
  unfold extractName
  constructor
  · intro h
    obtain ⟨t, ht, h⟩ := bind_eq_ok.mp h
    obtain ⟨m, hm, h⟩ := bind_eq_ok.mp h
    obtain ⟨front, rest, hsplit, hfront, rfl⟩ := nameLoop_eq_ok.mp hm
    cases h
    refine ⟨(strcpy_eq_ok.mp ht).1, front, rest, hsplit, hfront, rfl, ?_⟩
    rw [hsplit, cString_set]
  · rintro ⟨hlen, front, rest, hsplit, hfront, rfl, rfl⟩
    have hloop : nameLoop (nameArray env line) = .ok front.length := nameLoop_eq_ok.mpr ⟨front, rest, hsplit, hfront, rfl⟩
    refine bind_eq_ok.mpr ⟨line, strcpy_eq_ok.mpr ⟨hlen, rfl⟩, bind_eq_ok.mpr ⟨front.length, hloop, ?_⟩⟩
    rw [hsplit, cString_set]
    rfl

/-- The name that `stf_jnl_testcase_start_pid` goes on with. -/
theorem testcaseName_iff_extractName {name : Text} :
    testcaseName env line = .ok name ↔ ∃ n, extractName env line = .ok (n, name) := by
  rw [testcaseName_eq_ok]
  constructor
  · rintro ⟨hlen, hblank, rfl⟩
    obtain ⟨front, rest, hsplit, hfront⟩ := List.eq_append_cons_of_mem hblank
    refine ⟨front.length, extractName_eq_ok.mpr ⟨hlen, front, rest, hsplit, hfront, rfl, ?_⟩⟩
    rw [nameText, hsplit, takeWhile_separator hfront]
    rfl
  · rintro ⟨n, h⟩
    obtain ⟨hlen, front, rest, hsplit, hfront, -, rfl⟩ := extractName_eq_ok.mp h
    refine ⟨hlen, ?_, ?_⟩
    · rw [hsplit]
      exact List.mem_append_right _ List.mem_cons_self
    · rw [nameText, hsplit, takeWhile_separator hfront]
      rfl

/-! ## Inside the copied string -/

/-- A blank before the NUL is a blank of the line. -/
theorem blank_of_split {front rest : Text} (hsplit : nameArray env line = front ++ ' ' :: rest) (hn : front.length ≤ line.length) :
    ' ' ∈ line := by
  have hget : (nameArray env line)[front.length]? = some ' ' := by
    rw [hsplit, List.getElem?_append_right (Nat.le_refl _), Nat.sub_self]
    rfl
  unfold nameArray at hget
  rcases Nat.lt_or_eq_of_le hn with hlt | heq
  · rw [List.getElem?_append_left hlt] at hget
    exact List.mem_of_getElem? hget
  · -- the place of the NUL holds no blank
    rw [heq, List.getElem?_append_right (Nat.le_refl _), Nat.sub_self] at hget
    cases hget

/-- The scan ends inside the copied string, with the name that the line begins with, exactly when there is a blank in the line. -/
theorem extractName_inside_iff (hlen : line.length < MAXCHAR) (hnul : '\x00' ∉ line) :
    (∃ n name, extractName env line = .ok (n, name) ∧ n ≤ line.length ∧ name = line.takeWhile (· ≠ ' ')) ↔ ' ' ∈ line := by
  constructor
  · rintro ⟨n, name, h, hn, -⟩
    obtain ⟨-, front, rest, hsplit, -, rfl, -⟩ := extractName_eq_ok.mp h
    exact blank_of_split hsplit hn
  · intro hblank
    obtain ⟨front, rest, rfl, hfront⟩ := List.eq_append_cons_of_mem hblank
    have hsplit : ∃ rest', nameArray env (front ++ ' ' :: rest) = front ++ ' ' :: rest' := by
      unfold nameArray
      rw [List.append_assoc, List.cons_append]
      exact ⟨_, rfl⟩
    obtain ⟨rest', hsplit⟩ := hsplit
    have hwhole : cString front = front := by
      unfold cString
      rw [List.takeWhile_eq_self_iff]
      exact ne_of_notMem fun h => hnul (List.mem_append_left _ h)
    refine ⟨front.length, front, extractName_eq_ok.mpr ⟨hlen, front, rest', hsplit, hfront, rfl, hwhole⟩, ?_, ?_⟩
    · rw [List.length_append]
      exact Nat.le_add_right _ _
    · exact (takeWhile_separator hfront _).symm

/-- A stack of zeros. -/
def cleanEnv : Env := ⟨true, true, true, 0, 0, 0, 0, fun _ => '\x00'⟩

theorem extractName_inside_iff_arguments :
    ∃ n name, extractName cleanEnv "t 1".toList = .ok (n, name) ∧ n ≤ "t 1".toList.length ∧
      name = "t 1".toList.takeWhile (· ≠ ' ') :=
  (extractName_inside_iff  (by decide) (by decide)).mpr (by decide)

theorem not_extractName_inside : ¬∀ (env : Env) (line : Text), line.length < MAXCHAR → '\x00' ∉ line →
    ∃ n name, extractName env line = .ok (n, name) ∧ n ≤ line.length ∧ name = line.takeWhile (· ≠ ' ') := by
  intro h
  obtain ⟨n, name, hn, hle, -⟩ := h cleanEnv "test".toList (by decide) (by decide)
  obtain ⟨-, front, rest, hsplit, -, rfl, -⟩ := extractName_eq_ok.mp hn
  exact absurd (blank_of_split hsplit hle) (by decide)

end ZfsTest.Stf
