import ZfsTest.Shell.Echo
import ZfsTest.Shell.Fields
import ZfsTest.Shell.Records

/-!
# Lines that are written from unquoted expansions

For each name a command prints the front of a line, a value that is expanded without quotes, and the back of the line. In every directory
the line is the one that was meant, when the fields of that line are settled and there is no sequence of `echo` in it (`written_as_meant`).
Conversely, if in the crossed directory every name is found again in some line of the file, all lines are settled and without sequences
(`settled_of_found`): nothing in the file grows, so that there is room for the lines that are found only if none of them has changed.
-/

namespace ZfsTest.Shell

variable {ι : Type} {sp : Char → Bool}

/-- What is written for a name. -/
def writtenLine (sp : Char → Bool) (dir : Directory) (meant : Text) : Text := echo (spread sp dir meant)

theorem written_as_meant {meant : Text} (hsettled : Settled sp meant) (hquiet : escapes meant = false) (dir : Directory) :
    writtenLine sp dir meant = ended meant := by
  have hspec := echo_spec meant
  rw [hquiet, if_neg Bool.false_ne_true] at hspec
  rw [writtenLine, spread_literal hsettled, hspec]
  rfl

theorem length_writtenLine (meant : Text) : (writtenLine sp .crossed meant).length ≤ meant.length + 1 := by
  have hecho := length_echoFrom .plain (spread sp .crossed meant)
  have hspread := @length_spread_crossed sp meant
  rw [pending] at hecho
  rw [writtenLine, echo]
  omega

/-- A line of full length has no sequence in it. -/
theorem writtenLine_full {meant : Text} (h : (writtenLine sp .crossed meant).length = meant.length + 1) :
    escapes (spread sp .crossed meant) = false ∧ writtenLine sp .crossed meant = ended (spread sp .crossed meant) := by
  have hspec := echo_spec (spread sp .crossed meant)
  have hspread := @length_spread_crossed sp meant
  cases hescapes : escapes (spread sp .crossed meant) with
  | true =>
    rw [hescapes, if_pos rfl] at hspec
    rw [writtenLine] at h
    omega
  | false =>
    rw [hescapes, if_neg Bool.false_ne_true] at hspec
    exact ⟨rfl, hspec⟩

/-- Lines with a front for each name, and texts behind it that a reader finds there. -/
theorem settled_of_found {names : List ι} (hnodup : names.Nodup) {front : ι → Text} {rest : ι → Text}
    (hblank : sp ' ' = true) (hx : sp 'x' = false) (hnewline : sp '\n' = true)
    (hfront : ∀ m n t u, front m ++ t = front n ++ u → m = n)
    (hkept : ∀ n ∈ names, ∃ e, spread sp .crossed (front n ++ rest n) = front n ++ e) {found : ι → Text}
    (hfound : ∀ n ∈ names, front n ++ found n ∈
      (cutLines (names.flatMap fun n => writtenLine sp .crossed (front n ++ rest n))).1)
    (hlen : ∀ n ∈ names, (rest n).length ≤ (found n).length ∧ ((found n).length = (rest n).length → found n = rest n)) :
    ∀ n ∈ names, Settled sp (front n ++ rest n) ∧ escapes (front n ++ rest n) = false ∧ found n = rest n := by
  have hexact := exact_lines hnodup hfront (fun n _ => length_writtenLine (front n ++ rest n)) hfound fun n hn => (hlen n hn).1
  have hwritten : ∀ n ∈ names, writtenLine sp .crossed (front n ++ rest n) = ended (spread sp .crossed (front n ++ rest n)) :=
    fun n hn => (writtenLine_full (hexact n hn).1).2
  have hlines : (cutLines (names.flatMap fun n => writtenLine sp .crossed (front n ++ rest n))).1 =
      names.map fun n => spread sp .crossed (front n ++ rest n) := by
    have hcut := @cutLines_lines (names.map fun n => spread sp .crossed (front n ++ rest n)) (fun l hl hmem => by
      obtain ⟨n, -, rfl⟩ := List.mem_map.mp hl
      exact absurd (blank_of_mem_crossed hx hmem hnewline) (by decide)) []
    rw [List.flatMap_map, List.append_nil] at hcut
    rw [List.flatMap_congr hwritten, hcut]
    exact List.append_nil _
  intro n hn
  have hsame := (hlen n hn).2 (hexact n hn).2
  have hmem := hfound n hn
  rw [hlines, List.mem_map] at hmem
  obtain ⟨m, hm, hline⟩ := hmem
  obtain ⟨e, he⟩ := hkept m hm
  obtain rfl : m = n := hfront m n e (found n) (he ▸ hline)
  rw [hsame] at hline
  have hquiet := (writtenLine_full (hexact m hm).1).1
  rw [hline] at hquiet
  exact ⟨settled_of_crossed hblank hx hline, hquiet, hsame⟩

end ZfsTest.Shell
