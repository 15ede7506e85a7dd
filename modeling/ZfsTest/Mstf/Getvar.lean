import ZfsTest.Mstf.Vars
import ZfsTest.Text.CArray

/-!
# `mstf_getvar`, the client of `getv`

The client sends `getv name` and reads one line into the array of its caller. The channel of the server ends lines with CR LF, and
`mstf_getvar` cuts off the last two characters that `fgets` stored, whatever they are. They are the end of the line only if the whole
line was read (`getvar_delivers_iff`).
-/

namespace ZfsTest.Mstf

open CArray Vars

def EINTR : Nat := 4

/-- A connection to the server: `errno` after the request was written, the reply, and `errno` after the read, which was not
interrupted. -/
structure Conn where
  writeErrno : Nat
  reply : Text
  readErrno : Nat
  done : readErrno ≠ EINTR

/-- What a call sends and returns, and the array of the caller behind it. -/
structure Got where
  sent : Text
  status : Nat
  result : CArray
  deriving DecidableEq, Repr

/-- `mstf_getvar(var_name, result, result_len)`; `conn` is what `mstf_find_server` returns. There is no result if the array is
left. -/
def mstfGetvar (conn : Option Conn) (varName : Text) (result : CArray) (resultLen : Nat) : Option Got :=
  match conn with
  | none => some ⟨[], STF_UNRESOLVED, result⟩
  | some conn =>
    let sent := (Req.getv varName).text
    if conn.writeErrno ≠ 0 then some ⟨sent, STF_UNRESOLVED, result⟩
    else do
      let read ← fgets result resultLen conn.reply
      let len ← strlen read
      let trimmed ← store read ((len : Int) - 2) '\x00'
      return ⟨sent, if conn.readErrno ≠ 0 then STF_UNRESOLVED else STF_PASS, trimmed⟩

/-- A value that a C program can hold and a line can carry. -/
structure Value where
  text : Text
  noNul : '\x00' ∉ text
  noNewline : '\n' ∉ text

/-- The reply to a `getv`, as it is sent. -/
def Value.line (v : Value) : Text := v.text ++ ['\r', '\n']

/-- The value if it fits into `len` characters with its NUL, and otherwise as much of it as does. -/
def Value.fitted (v : Value) (len : Nat) : Text := if v.text.length < len then v.text else v.text.take (len - 1)

/-- A call that stays in its array and leaves the value there. -/
def Delivers (v : Value) (len : Nat) (got : Option Got) : Prop := ∃ g, got = some g ∧ g.result.text = v.fitted len

variable {v : Value} {conn : Conn} {result : CArray}

theorem fitted_eq (v : Value) (len : Nat) : v.fitted len = v.text.take (len - 1) := by
  unfold Value.fitted
  split
  · rw [List.take_of_length_le (by omega)]
  · rfl

/-- What is read of the line: all of it, or what the array has room for. -/
def Value.read (v : Value) (len : Nat) : Text := (v.text ++ ['\r', '\n']).take (len - 1)

theorem length_read (v : Value) (len : Nat) : (v.read len).length = min (len - 1) (v.text.length + 2) := by
  unfold Value.read
  rw [List.length_take, List.length_append]
  rfl

theorem nul_notMem_read (v : Value) (len : Nat) : '\x00' ∉ v.read len := by
  intro h
  rcases List.mem_append.mp (List.mem_of_mem_take h) with h | h
  · exact v.noNul h
  · revert h
    decide

/-- Two characters fewer than what is read are characters of the value. -/
theorem take_read (v : Value) (len : Nat) : (v.read len).take ((v.read len).length - 2) = v.text.take (len - 3) := by
  have hle : min (min (len - 1) (v.text.length + 2) - 2) (len - 1) ≤ v.text.length := by omega
  rw [length_read]
  unfold Value.read
  rw [List.take_take, List.take_append_of_le_length hle, List.take_eq_take_iff]
  omega

theorem fgets_line (hlen : 2 ≤ result.length) : fgets result result.length v.line =
    some (v.read result.length ++ '\x00' :: result.drop ((v.read result.length).length + 1)) := by
  have hcr : '\n' ∉ v.text ++ ['\r'] := by
    intro h
    rcases List.mem_append.mp h with h | h
    · exact v.noNewline h
    · revert h
      decide
  have hline : v.line = (v.text ++ ['\r']) ++ '\n' :: [] := by
    rw [List.append_assoc]
    rfl
  have hread : (v.text ++ ['\r'] ++ ['\n']).take (result.length - 1) = v.read result.length := by
    rw [List.append_assoc]
    rfl
  rw [hline, fgets_eq hlen hcr, hread]

/-- What a call does with a value: nothing is defined if one character was read, and otherwise the last two that were read go. -/
theorem getvar_value (varName : Text) (hw : conn.writeErrno = 0) (hr : conn.reply = v.line) (hlen : 2 ≤ result.length) :
    if result.length = 2 then mstfGetvar (some conn) varName result result.length = none
    else ∃ g, mstfGetvar (some conn) varName result result.length = some g ∧ g.result.text = v.text.take (result.length - 3) := by
  have hnul := nul_notMem_read v result.length
  have hread := length_read v result.length
  have hrun : mstfGetvar (some conn) varName result result.length =
      (store (v.read result.length ++ '\x00' :: result.drop ((v.read result.length).length + 1))
        (((v.read result.length).length : Int) - 2) '\x00').map
        fun trimmed => ⟨(Req.getv varName).text, if conn.readErrno ≠ 0 then STF_UNRESOLVED else STF_PASS, trimmed⟩ := by
    unfold mstfGetvar
    simp only [hw, hr, ne_eq, not_true_eq_false, ↓reduceIte, fgets_line hlen, Option.bind_eq_bind, Option.bind_some,
      strlen_append_nul hnul]
    exact Option.map_eq_bind.symm
  rw [hrun]
  split
  · rw [store_neg (by omega)]
    rfl
  · have hindex : ((v.read result.length).length : Int) - 2 = ((v.read result.length).length - 2 : Nat) := by omega
    rw [hindex, store_eq (by rw [List.length_append]; omega)]
    refine ⟨_, rfl, ?_⟩
    rw [← take_read]
    exact text_set_nul hnul (by omega)

/-- The value is delivered if the array has room for the whole line. -/
theorem getvar_delivers_iff (v : Value) (conn : Conn) (varName : Text) (result : CArray) (hw : conn.writeErrno = 0)
    (hr : conn.reply = v.line) (hlen : 2 ≤ result.length) :
    Delivers v result.length (mstfGetvar (some conn) varName result result.length) ↔ v.text.length + 3 ≤ result.length := by
  have hcall := getvar_value varName hw hr hlen
  unfold Delivers
  rw [fitted_eq]
  split at hcall
  · rename_i htwo
    rw [hcall]
    constructor
    · rintro ⟨g, hg, -⟩
      cases hg
    · intro h
      omega
  · obtain ⟨g, hg, htext⟩ := hcall
    constructor
    · rintro ⟨g', hg', htext'⟩
      rw [hg] at hg'
      cases hg'
      rw [htext, List.take_eq_take_iff] at htext'
      omega
    · intro h
      refine ⟨g, hg, ?_⟩
      rw [htext, List.take_of_length_le (by omega), List.take_of_length_le (by omega)]

def Conn.sample (v : Value) : Conn := ⟨0, v.line, 0, by decide⟩

/-- The value `ab`. -/
def Value.sample : Value := ⟨['a', 'b'], by decide, by decide⟩

theorem getvar_delivers_sample :
    Delivers Value.sample 5 (mstfGetvar (some (Conn.sample Value.sample)) ['x'] (List.replicate 5 ' ') 5) :=
  (getvar_delivers_iff Value.sample (Conn.sample Value.sample) ['x'] (List.replicate 5 ' ') rfl rfl (by decide)).mpr (by decide)

/-- The value `ab` fits into an array of four characters, and the call leaves `a` in it. -/
theorem not_getvar_delivers : ¬∀ (v : Value) (conn : Conn) (varName : Text) (result : CArray), conn.writeErrno = 0 →
    conn.reply = v.line → 2 ≤ result.length →
    Delivers v result.length (mstfGetvar (some conn) varName result result.length) := by
  intro h
  obtain ⟨g, hg, htext⟩ := h Value.sample (Conn.sample Value.sample) ['x'] (List.replicate 4 ' ') rfl rfl (by decide)
  have hrun : mstfGetvar (some (Conn.sample Value.sample)) ['x'] (List.replicate 4 ' ') 4 =
      some ⟨['g', 'e', 't', 'v', ' ', 'x', '\n'], STF_PASS, ['a', '\x00', '\r', '\x00']⟩ := by decide
  have hlen : (List.replicate 4 ' ').length = 4 := rfl
  rw [hlen, hrun] at hg
  cases hg
  revert htext
  decide

end ZfsTest.Mstf
