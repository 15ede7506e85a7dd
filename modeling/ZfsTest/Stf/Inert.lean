import ZfsTest.Text.Glob
import ZfsTest.Stf.Wordlist

/-!
# Words that every expansion leaves alone

A text without quotes is split into words, and each word is expanded against the names in the working directory. A word of ordinary
characters is the same after every expansion (`Inert`), also after `$(echo ..)`.
-/

namespace ZfsTest.Stf

open Glob

/-- The fields of a text without quotes, in a working directory with the names `files`. -/
def fields (files : List Text) (t : Text) : List Text := (split t).flatMap (pathnames files)

/-- `$(echo $t)`. -/
def echoed (sh : Ksh) (files : List Text) (t : Text) : Text := sh.echo (joined (fields files t))

/-- A word that is the same after every expansion. -/
structure Inert (w : Text) : Prop where
  plain : Plain w
  literal : Literal w

variable {sh : Ksh} {files : List Text} {ws : List Text}

theorem Inert.split_eq {w : Text} (h : Inert w) : split w = [w] := words_single h.plain.blank h.plain.ne_nil

section

variable (hws : ∀ w ∈ ws, Inert w)

include hws

theorem plain_inert : ∀ w ∈ ws, Plain w := fun w hw => (hws w hw).plain

theorem fields_eq {t : Text} (ht : split t = ws) : fields files t = ws := by
  rw [fields, ht]
  exact flatMap_alone fun w hw => pathnames_literal (hws w hw).literal files

theorem fields_joined : fields files (joined ws) = ws := fields_eq hws (split_joined (plain_inert hws))

theorem echoed_eq {t : Text} (ht : split t = ws) : echoed sh files t = joined ws := by
  rw [echoed, fields_eq hws ht]
  exact echo_joined (plain_inert hws) sh

end

theorem Inert.echoed_eq {w : Text} (h : Inert w) : echoed sh files w = w :=
  Stf.echoed_eq (fun _ hv => (List.mem_singleton.mp hv) ▸ h) h.split_eq

end ZfsTest.Stf
