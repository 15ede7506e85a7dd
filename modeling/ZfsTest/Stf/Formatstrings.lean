import Mathlib.Data.List.ReduceOption
import ZfsTest.Prog.Loop
import ZfsTest.Text.Glob
import ZfsTest.Text.Separated

/-!
# The arguments of `-E`, `stf_process_formatstrings`

A first loop goes through the array of the arguments, loads the profiles among them and removes them from the array; what is left is then
set. The loop ends at the number of elements that the array has at the time, so each profile that is removed takes the last element out
of the loop's reach: what the function does is `doneOps`, and a profile is only loaded when it has as many arguments behind it as there are
profiles in front of it (`loadsProfiles_iff`). A profile that is not reached is set like any other format string.
-/

namespace ZfsTest.Stf.Fstrings

/-- The exported variables; one that is not set is empty. -/
abbrev Vars := Text → Text

/-- What is done with a format string. -/
inductive Op
  | load (string : Text)
  | set (name string : Text)

/-- What has been done, and the variables; `none` is an exit. -/
structure Outcome where
  trace : List Op
  vars : Option Vars

/-- `stf_eval_formatstring STF_PROFILE_FORMAT` with `stf_load_profile`, and what is done with the default profile. -/
structure Profiles where
  loadProfile : Vars → Option Vars
  defaultProfile : Vars → Option Vars

/-! ## `stf_process_formatstrings` -/

/-- `${arg#*=}`. -/
def stringOf (arg : Text) : Text := if '=' ∈ arg then (arg.dropWhile (· ≠ '=')).tail else arg

/-- `${arg%%=*}`. -/
def nameOf (arg : Text) : Text := arg.takeWhile (· ≠ '=')

def profileFormat : Text := "STF_PROFILE_FORMAT".toList

/-- `stf_set_formatstring`. -/
def setFormatstring (vars : Vars) (arg : Text) : Option Vars :=
  if stringOf arg = arg then none
  else if glob "STF_*_FORMAT".toList (nameOf arg) then some (Function.update vars (nameOf arg) (stringOf arg))
  else none

/-- The second loop. -/
def setAll : Vars → List Op → List Text → Outcome
  | vars, trace, [] => ⟨trace, some vars⟩
  | vars, trace, arg :: args =>
    let trace := trace ++ [.set (nameOf arg) (stringOf arg)]
    match setFormatstring vars arg with
    | none => ⟨trace, none⟩
    | some vars => setAll vars trace args

/-- `name=${name:-$default}`. -/
def setDefault (vars : Vars) (name default : Text) : Vars :=
  if vars name = [] then Function.update vars name (vars default) else vars

def setDefaults (vars : Vars) : Vars :=
  let vars := setDefault vars "STF_CONFIG_FORMAT".toList "STF_DEFAULT_CONFIG_FORMAT".toList
  let vars := setDefault vars "STF_JNL_NAME_FORMAT".toList "STF_DEFAULT_JNL_NAME_FORMAT".toList
  setDefault vars "STF_RESULTS_FORMAT".toList "STF_DEFAULT_RESULTS_FORMAT".toList

/-- The first loop; an element of the array that is not set is `none`. -/
structure Scan where
  c : Nat
  savedFstrings : List (Option Text)
  vars : Vars
  trace : List Op

section

variable (p : Profiles)

/-- The default profile and the default values. -/
def finish (o : Outcome) : Outcome := { o with vars := (o.vars.bind p.defaultProfile).map setDefaults }

def scanRound (s : Scan) : Round Scan Outcome :=
  if s.c < s.savedFstrings.reduceOption.length then
    let arg := (s.savedFstrings.getD s.c none).getD []
    if stringOf arg = arg then .done ⟨s.trace, none⟩
    else if nameOf arg = profileFormat then
      let trace := s.trace ++ [.load (stringOf arg)]
      match p.loadProfile (Function.update s.vars profileFormat (stringOf arg)) with
      | none => .done ⟨trace, none⟩
      | some vars => .next ⟨s.c + 1, s.savedFstrings.set s.c none, vars, trace⟩
    else .next { s with c := s.c + 1 }
  else .done (finish p (setAll s.vars s.trace s.savedFstrings.reduceOption))

/-- `stf_process_formatstrings` ends with an outcome. -/
def ProcessFormatstrings (vars : Vars) (args : List Text) (o : Outcome) : Prop :=
  Loop.Ends (scanRound p) ⟨0, args.map some, vars, []⟩ o

end

/-! ## Every profile, then everything else -/

/-- An argument `name=value`. -/
structure Fstring where
  name : Text
  value : Text
  equals : '=' ∉ name

namespace Fstring

def text (a : Fstring) : Text := a.name ++ '=' :: a.value

def isProfile (a : Fstring) : Bool := a.name = profileFormat

end Fstring

def loads (args : List Fstring) : List Op := (args.filter (·.isProfile)).map fun a => .load a.value
def sets (args : List Fstring) : List Op := (args.filter fun a => !a.isProfile).map fun a => .set a.name a.value

section

variable (p : Profiles)

def Op.run (vars : Vars) : Op → Option Vars
  | .load string => p.loadProfile (Function.update vars profileFormat string)
  | .set name string => if glob "STF_*_FORMAT".toList name then some (Function.update vars name string) else none

/-- Operations one after the other; the first that fails is the last. -/
def perform : Vars → List Op → List Op → Outcome
  | vars, trace, [] => ⟨trace, some vars⟩
  | vars, trace, op :: ops =>
    match op.run p vars with
    | none => ⟨trace ++ [op], none⟩
    | some vars => perform vars (trace ++ [op]) ops

/-- All profiles are loaded in order, and then all other format strings are set in order. -/
def LoadsProfiles (vars : Vars) (args : List Fstring) : Prop :=
  ProcessFormatstrings p vars (args.map Fstring.text) (finish p (perform p vars [] (loads args ++ sets args)))

end

/-- There are as many arguments behind as there are profiles in front. -/
def Room (as bs : List Fstring) : Prop := (loads as).length ≤ bs.length

instance (as bs : List Fstring) : Decidable (Room as bs) := inferInstanceAs (Decidable (_ ≤ _))

/-! ## What is done -/

variable {p : Profiles} {vars : Vars}

namespace Fstring

@[simp] theorem stringOf_text (a : Fstring) : stringOf a.text = a.value := by
  have hmem : '=' ∈ a.text := List.mem_append_right _ List.mem_cons_self
  rw [stringOf, if_pos hmem, text, dropWhile_separator a.equals, List.tail_cons]

@[simp] theorem nameOf_text (a : Fstring) : nameOf a.text = a.name := takeWhile_separator a.equals a.value

theorem value_ne_text (a : Fstring) : a.value ≠ a.text := by
  intro h
  have hlen := congrArg List.length h
  rw [text, List.length_append, List.length_cons] at hlen
  omega

/-- What the second loop does with an argument, whether it is a profile or not. -/
def setOp (a : Fstring) : Op := .set a.name a.value

theorem setFormatstring_text (a : Fstring) : setFormatstring vars a.text = a.setOp.run p vars := by
  rw [setFormatstring, stringOf_text, nameOf_text, if_neg a.value_ne_text]
  rfl

end Fstring

theorem setAll_texts (trace : List Op) (args : List Fstring) :
    setAll vars trace (args.map Fstring.text) = perform p vars trace (args.map Fstring.setOp) := by
  induction args generalizing vars trace with
  | nil => rfl
  | cons a args ih =>
    rw [List.map_cons, List.map_cons, setAll, perform, Fstring.setFormatstring_text (p := p), Fstring.stringOf_text,
      Fstring.nameOf_text]
    cases a.setOp.run p vars with
    | none => rfl
    | some vars => exact ih _

/-- What is left to do when the loop has gone through `as` and has `bs` in front of it. -/
def doneOps : List Fstring → List Fstring → List Op
  | as, [] => sets as
  | as, a :: bs =>
    if Room as bs then
      if a.isProfile then .load a.value :: doneOps (as ++ [a]) bs else doneOps (as ++ [a]) bs
    else sets as ++ (a :: bs).map Fstring.setOp

/-- The array without the profiles of `as`. -/
def slots (as bs : List Fstring) : List (Option Text) :=
  (as.map fun a => if a.isProfile then none else some a.text) ++ bs.map fun b => some b.text

theorem reduceOption_slots (as bs : List Fstring) :
    (slots as bs).reduceOption = ((as.filter fun a => !a.isProfile) ++ bs).map Fstring.text := by
  have hbs : (bs.map fun b => some b.text).reduceOption = bs.map Fstring.text := by
    rw [List.reduceOption, List.filterMap_map]
    exact congrFun (List.filterMap_eq_map (f := Fstring.text)) bs
  rw [slots, List.reduceOption_append, List.map_append, hbs]
  congr 1
  induction as with
  | nil => rfl
  | cons a as ih =>
    rw [List.map_cons]
    cases ha : a.isProfile with
    | true => simpa [ha, List.reduceOption_cons_of_none] using ih
    | false => simpa [ha, List.reduceOption_cons_of_some] using ih

/-- The elements of the array, and the profiles that are not there any more. -/
theorem length_slots (as bs : List Fstring) : (slots as bs).reduceOption.length + (loads as).length = as.length + bs.length := by
  rw [reduceOption_slots, loads, List.length_map, List.length_map, List.length_append]
  have hsplit := List.length_eq_length_filter_add (l := as) fun a => a.isProfile
  omega

theorem slots_getD (as : List Fstring) (a : Fstring) (bs : List Fstring) : (slots as (a :: bs)).getD as.length none = some a.text := by
  have hlen : (as.map fun a => if a.isProfile then none else some a.text).length = as.length := List.length_map _
  rw [slots, List.getD_eq_getElem?_getD, List.getElem?_append_right (by omega), hlen, Nat.sub_self]
  rfl

theorem slots_set {a : Fstring} (ha : a.isProfile = true) (as bs : List Fstring) :
    (slots as (a :: bs)).set as.length none = slots (as ++ [a]) bs := by
  rw [slots, List.set_append_right _ _ (by rw [List.length_map]), List.length_map, Nat.sub_self, slots, List.map_append]
  simp [ha]

theorem slots_keep {a : Fstring} (ha : a.isProfile = false) (as bs : List Fstring) : slots as (a :: bs) = slots (as ++ [a]) bs := by
  simp [slots, ha]

theorem sets_eq (as : List Fstring) : sets as = (as.filter fun a => !a.isProfile).map Fstring.setOp := rfl

/-- One round of the first loop. -/
theorem scanRound_eq (vars : Vars) (as : List Fstring) (a : Fstring) (bs : List Fstring) (trace : List Op) :
    scanRound p ⟨as.length, slots as (a :: bs), vars, trace⟩ =
      if Room as bs then
        if a.isProfile then
          match (Op.load a.value).run p vars with
          | none => .done ⟨trace ++ [Op.load a.value], none⟩
          | some vars => .next ⟨(as ++ [a]).length, slots (as ++ [a]) bs, vars, trace ++ [Op.load a.value]⟩
        else .next ⟨(as ++ [a]).length, slots (as ++ [a]) bs, vars, trace⟩
      else .done (finish p (perform p vars trace (sets as ++ (a :: bs).map Fstring.setOp))) := by
  have hlen := length_slots as (a :: bs)
  rw [List.length_cons] at hlen
  have hbound : as.length < (slots as (a :: bs)).reduceOption.length ↔ Room as bs := by
    unfold Room
    omega
  simp only [scanRound, slots_getD, Option.getD_some, Fstring.stringOf_text, Fstring.nameOf_text, if_neg a.value_ne_text, hbound]
  split
  · by_cases ha : a.isProfile = true
    · have hname : a.name = profileFormat := of_decide_eq_true ha
      rw [if_pos hname, if_pos ha, slots_set ha, List.length_append]
      rfl
    · have hname : ¬a.name = profileFormat := fun h => ha (decide_eq_true h)
      rw [if_neg hname, if_neg ha, slots_keep (eq_false_of_ne_true ha), List.length_append]
      rfl
  · rw [reduceOption_slots, setAll_texts (p := p), List.map_append, ← sets_eq]

theorem scanRound_end (as : List Fstring) (trace : List Op) :
    scanRound p ⟨as.length, slots as [], vars, trace⟩ = .done (finish p (perform p vars trace (sets as))) := by
  have hlen := length_slots as []
  rw [List.length_nil, Nat.add_zero] at hlen
  rw [scanRound, if_neg (by dsimp only; omega), reduceOption_slots, setAll_texts (p := p), List.append_nil, sets_eq]

theorem scan_ends (vars : Vars) (as bs : List Fstring) (trace : List Op) :
    Loop.Ends (scanRound p) ⟨as.length, slots as bs, vars, trace⟩ (finish p (perform p vars trace (doneOps as bs))) := by
  induction bs generalizing as vars trace with
  | nil => exact Loop.ends_done (scanRound_end as trace)
  | cons a bs ih =>
    have hround := scanRound_eq (p := p) vars as a bs trace
    rw [doneOps]
    split at hround
    · rename_i hroom
      rw [if_pos hroom]
      split at hround
      · rename_i ha
        rw [if_pos ha, perform]
        cases hload : (Op.load a.value).run p vars with
        | none =>
          rw [hload] at hround
          exact Loop.ends_done hround
        | some vars =>
          rw [hload] at hround
          exact Loop.ends_next hround (ih _ _ _)
      · rename_i ha
        rw [if_neg ha]
        exact Loop.ends_next hround (ih _ _ _)
    · rename_i hroom
      rw [if_neg hroom]
      exact Loop.ends_done hround

/-! ## When every profile is loaded -/

section

variable {α : Type*} {a : α} {bs : List α} {P : List α → α → List α → Prop}

theorem exists_split_cons :
    (∃ cs x ds, a :: bs = cs ++ x :: ds ∧ P cs x ds) ↔ P [] a bs ∨ ∃ cs x ds, bs = cs ++ x :: ds ∧ P (a :: cs) x ds := by
  constructor
  · rintro ⟨cs, x, ds, hsplit, hp⟩
    cases cs with
    | nil =>
      obtain ⟨rfl, rfl⟩ := List.cons.inj hsplit
      exact Or.inl hp
    | cons c cs =>
      obtain ⟨rfl, rfl⟩ := List.cons.inj hsplit
      exact Or.inr ⟨cs, x, ds, rfl, hp⟩
  · rintro (hp | ⟨cs, x, ds, rfl, hp⟩)
    · exact ⟨[], a, bs, rfl, hp⟩
    · exact ⟨a :: cs, x, ds, rfl, hp⟩

theorem forall_split_cons :
    (∀ cs x ds, a :: bs = cs ++ x :: ds → P cs x ds) ↔ P [] a bs ∧ ∀ cs x ds, bs = cs ++ x :: ds → P (a :: cs) x ds := by
  have h : ¬(∃ cs x ds, a :: bs = cs ++ x :: ds ∧ ¬P cs x ds) ↔ ¬(¬P [] a bs ∨ ∃ cs x ds, bs = cs ++ x :: ds ∧ ¬P (a :: cs) x ds) :=
    not_congr exists_split_cons
  simpa only [not_exists, not_and, not_or, not_not] using h

end

/-- Behind `as`, every profile of `bs` has room. -/
def RoomBehind (as bs : List Fstring) : Prop := ∀ cs a ds, bs = cs ++ a :: ds → a.isProfile = true → Room (as ++ cs) ds

/-- Behind `as`, a profile of `bs` that has room cannot be loaded. -/
def FailsBehind (p : Profiles) (vars : Vars) (as bs : List Fstring) : Prop :=
  ∃ cs a ds, bs = cs ++ a :: ds ∧ a.isProfile = true ∧ Room (as ++ cs) ds ∧ (loads (cs ++ [a])).foldlM (Op.run p) vars = none

@[simp] theorem finish_trace (o : Outcome) : (finish p o).trace = o.trace := rfl

theorem perform_trace (vars : Vars) (trace : List Op) (op : Op) (ops : List Op) :
    ∃ rest, (perform p vars trace (op :: ops)).trace = trace ++ op :: rest := by
  induction ops generalizing op vars trace with
  | nil =>
    rw [perform]
    cases op.run p vars with
    | none => exact ⟨[], rfl⟩
    | some vars => exact ⟨[], rfl⟩
  | cons op' ops ih =>
    rw [perform]
    cases op.run p vars with
    | none => exact ⟨[], rfl⟩
    | some vars =>
      obtain ⟨rest, hrest⟩ := ih vars (trace ++ [op]) op'
      exact ⟨op' :: rest, hrest.trans (by simp)⟩

/-- Runs that begin with different operations differ. -/
theorem perform_ne {op op' : Op} (h : op ≠ op') (trace ops ops' : List Op) :
    finish p (perform p vars trace (op :: ops)) ≠ finish p (perform p vars trace (op' :: ops')) := by
  intro heq
  obtain ⟨rest, hrest⟩ := perform_trace (p := p) vars trace op ops
  obtain ⟨rest', hrest'⟩ := perform_trace (p := p) vars trace op' ops'
  have htrace := congrArg Outcome.trace heq
  rw [finish_trace, finish_trace, hrest, hrest'] at htrace
  exact h (List.cons.inj (List.append_cancel_left htrace)).1

theorem sets_append (as bs : List Fstring) : sets (as ++ bs) = sets as ++ sets bs := by
  rw [sets, List.filter_append, List.map_append]
  rfl

theorem loads_append (as bs : List Fstring) : loads (as ++ bs) = loads as ++ loads bs := by
  rw [loads, List.filter_append, List.map_append]
  rfl

theorem loads_cons_profile {a : Fstring} (ha : a.isProfile = true) (bs : List Fstring) : loads (a :: bs) = .load a.value :: loads bs := by
  rw [loads, List.filter_cons_of_pos ha]
  rfl

theorem loads_cons_other {a : Fstring} (ha : ¬a.isProfile = true) (bs : List Fstring) : loads (a :: bs) = loads bs := by
  rw [loads, List.filter_cons_of_neg ha]
  rfl

theorem sets_cons_profile {a : Fstring} (ha : a.isProfile = true) (bs : List Fstring) : sets (a :: bs) = sets bs := by
  rw [sets, List.filter_cons_of_neg (by simp [ha])]
  rfl

/-- Without profiles, all arguments are set. -/
theorem sets_eq_map {bs : List Fstring} (h : ∀ b ∈ bs, b.isProfile = false) : sets bs = bs.map Fstring.setOp := by
  rw [sets_eq, List.filter_eq_self.mpr fun b hb => by rw [h b hb]; rfl]

theorem loads_eq_nil {bs : List Fstring} (h : ∀ b ∈ bs, b.isProfile = false) : loads bs = [] := by
  rw [loads, List.filter_eq_nil_iff.mpr fun b hb => by simp [h b hb]]
  rfl

variable (p) in
/-- The loop does the right thing with what is in front of it. -/
def Right (vars : Vars) (trace : List Op) (as bs : List Fstring) : Prop :=
  finish p (perform p vars trace (doneOps as bs)) = finish p (perform p vars trace (loads bs ++ (sets as ++ sets bs)))

section

variable {as bs : List Fstring} {a : Fstring} {trace : List Op}

theorem right_profile (hroom : Room as bs) (ha : a.isProfile = true) : Right p vars trace as (a :: bs) ↔
    ∀ vars', (Op.load a.value).run p vars = some vars' → Right p vars' (trace ++ [Op.load a.value]) (as ++ [a]) bs := by
  have hsets : sets (as ++ [a]) = sets as := by
    rw [sets_append, sets_cons_profile ha]
    exact List.append_nil _
  unfold Right
  rw [doneOps, if_pos hroom, if_pos ha, loads_cons_profile ha, sets_cons_profile ha, hsets, List.cons_append, perform, perform]
  cases (Op.load a.value).run p vars with
  | none => exact iff_of_true rfl fun vars' h => by cases h
  | some vars' => exact ⟨fun h vars'' heq => Option.some.inj heq ▸ h, fun h => h vars' rfl⟩

theorem right_other (hroom : Room as bs) (ha : ¬a.isProfile = true) :
    Right p vars trace as (a :: bs) ↔ Right p vars trace (as ++ [a]) bs := by
  have hsets : sets (as ++ [a]) ++ sets bs = sets as ++ sets (a :: bs) := by
    rw [sets_append, List.append_assoc, ← sets_append]
    rfl
  unfold Right
  rw [doneOps, if_pos hroom, if_neg ha, loads_cons_other ha, hsets]

/-- The loop is at its end: everything in front of it is set. -/
theorem right_noRoom (hroom : ¬Room as bs) : Right p vars trace as (a :: bs) ↔ ∀ b ∈ a :: bs, b.isProfile = false := by
  unfold Right
  rw [doneOps, if_neg hroom]
  constructor
  · intro h
    by_contra hsome
    obtain ⟨op, ops, hset⟩ : ∃ (b : Fstring) (ops : List Op), sets as ++ (a :: bs).map Fstring.setOp = b.setOp :: ops := by
      rw [sets_eq, ← List.map_append]
      cases as.filter fun a => !a.isProfile with
      | nil => exact ⟨a, _, rfl⟩
      | cons b cs => exact ⟨b, _, rfl⟩
    obtain ⟨b, ops', hload⟩ : ∃ (b : Fstring) (ops : List Op), loads (a :: bs) = .load b.value :: ops := by
      rw [loads]
      cases hf : (a :: bs).filter fun a => a.isProfile with
      | nil => exact absurd (fun b hb => eq_false_of_ne_true (List.filter_eq_nil_iff.mp hf b hb)) hsome
      | cons b cs => exact ⟨b, _, rfl⟩
    rw [hset, hload, List.cons_append] at h
    exact perform_ne (by simp [Fstring.setOp]) _ _ _ h
  · intro h
    rw [loads_eq_nil h, sets_eq_map h, List.nil_append]

theorem roomBehind_cons : RoomBehind as (a :: bs) ↔ (a.isProfile = true → Room as bs) ∧ RoomBehind (as ++ [a]) bs := by
  unfold RoomBehind
  rw [forall_split_cons]
  simp only [List.append_nil, List.append_assoc, List.singleton_append]

theorem failsBehind_cons : FailsBehind p vars as (a :: bs) ↔
    (a.isProfile = true ∧ Room as bs ∧ (loads [a]).foldlM (Op.run p) vars = none) ∨
      ∃ cs x ds, bs = cs ++ x :: ds ∧ x.isProfile = true ∧ Room (as ++ [a] ++ cs) ds ∧
        (loads (a :: (cs ++ [x]))).foldlM (Op.run p) vars = none := by
  unfold FailsBehind
  rw [exists_split_cons]
  simp only [List.append_nil, List.nil_append, List.append_assoc, List.cons_append]

theorem failsBehind_profile (hroom : Room as bs) (ha : a.isProfile = true) : FailsBehind p vars as (a :: bs) ↔
    ∀ vars', (Op.load a.value).run p vars = some vars' → FailsBehind p vars' (as ++ [a]) bs := by
  rw [failsBehind_cons]
  simp only [loads_cons_profile ha, List.foldlM_cons]
  cases (Op.load a.value).run p vars with
  | none => exact iff_of_true (Or.inl ⟨ha, hroom, rfl⟩) fun vars' h => by cases h
  | some vars' =>
    constructor
    · rintro (⟨-, -, h⟩ | h) vars'' heq
      · cases h
      · exact Option.some.inj heq ▸ h
    · exact fun h => Or.inr (h vars' rfl)

theorem failsBehind_other (ha : ¬a.isProfile = true) : FailsBehind p vars as (a :: bs) ↔ FailsBehind p vars (as ++ [a]) bs := by
  rw [failsBehind_cons]
  simp only [loads_cons_other ha]
  exact or_iff_right fun h => ha h.1

/-- Where the loop is at its end there is no room for a profile behind. -/
theorem noRoom_behind (hroom : ¬Room as bs) {cs ds : List Fstring} {x : Fstring} (h : a :: bs = cs ++ x :: ds) :
    ¬Room (as ++ cs) ds := by
  intro hcs
  have hlen := congrArg List.length h
  rw [List.length_append, List.length_cons, List.length_cons] at hlen
  unfold Room at hroom hcs
  rw [loads_append, List.length_append] at hcs
  omega

end

theorem right_iff (trace : List Op) (as bs : List Fstring) :
    Right p vars trace as bs ↔ RoomBehind as bs ∨ FailsBehind p vars as bs := by
  induction bs generalizing as vars trace with
  | nil =>
    refine iff_of_true ?_ (Or.inl fun cs a ds h => ?_)
    · unfold Right
      rw [doneOps]
      exact congrArg (fun ops => finish p (perform p vars trace ops)) (List.append_nil (sets as)).symm
    · simp at h
  | cons a bs ih =>
    by_cases hroom : Room as bs
    · have hbehind : RoomBehind as (a :: bs) ↔ RoomBehind (as ++ [a]) bs := by
        rw [roomBehind_cons]
        exact and_iff_right fun _ => hroom
      by_cases ha : a.isProfile = true
      · rw [right_profile hroom ha, failsBehind_profile hroom ha, hbehind]
        cases (Op.load a.value).run p vars with
        | none => exact iff_of_true (fun vars' h => by cases h) (Or.inr fun vars' h => by cases h)
        | some vars' => simpa using ih (trace ++ [Op.load a.value]) (as ++ [a])
      · rw [right_other hroom ha, failsBehind_other ha, hbehind]
        exact ih trace (as ++ [a])
    · rw [right_noRoom hroom]
      constructor
      · intro h
        refine Or.inl fun cs x ds hsplit hx => ?_
        rw [h x (hsplit ▸ List.mem_append_right cs List.mem_cons_self)] at hx
        cases hx
      · rintro (h | ⟨cs, x, ds, hsplit, -, hcs, -⟩) b hb
        · obtain ⟨cs, ds, hsplit⟩ := List.append_of_mem hb
          exact eq_false_of_ne_true fun hb => noRoom_behind hroom hsplit (h cs b ds hsplit hb)
        · exact absurd hcs (noRoom_behind hroom hsplit)

/-! ## Every profile is loaded -/

theorem loadsProfiles_right (vars : Vars) (args : List Fstring) : LoadsProfiles p vars args ↔ Right p vars [] [] args := by
  have hends := scan_ends (p := p) vars [] args []
  have hslots : slots [] args = (args.map Fstring.text).map some := (List.map_map ..).symm
  rw [hslots] at hends
  constructor
  · exact fun h => hends.unique h
  · intro h
    have hops : loads args ++ sets args = loads args ++ (sets [] ++ sets args) := rfl
    rw [LoadsProfiles, hops, ← h]
    exact hends

/-- Every profile that is given is loaded when each has as many arguments behind it as there are profiles in front of it, or a profile
that has so many cannot be loaded, and that is the end. -/
theorem loadsProfiles_iff (p : Profiles) (vars : Vars) (args : List Fstring) : LoadsProfiles p vars args ↔
    (∀ as a bs, args = as ++ a :: bs → a.isProfile = true → Room as bs) ∨
      ∃ as a bs, args = as ++ a :: bs ∧ a.isProfile = true ∧ Room as bs ∧ (loads (as ++ [a])).foldlM (Op.run p) vars = none := by
  rw [loadsProfiles_right]
  exact right_iff [] [] args

/-- Profiles that can be loaded and change nothing. -/
def Profiles.sample : Profiles := ⟨some, some⟩

/-- `-E STF_PROFILE_FORMAT=value`. -/
def Fstring.sample (value : Text) : Fstring := ⟨profileFormat, value, by decide⟩

/-- The second of two profiles is not loaded. -/
theorem not_loadsProfiles :
    ¬LoadsProfiles .sample (fun _ => []) [Fstring.sample "a".toList, Fstring.sample "b".toList] := by
  rw [loadsProfiles_right, right_iff]
  have hroom : ¬Room [Fstring.sample "a".toList] [] := by decide
  rintro (h | h)
  · exact hroom (h [Fstring.sample "a".toList] _ [] rfl rfl)
  · obtain ⟨cs, x, ds, hsplit, -, hcs, -⟩ := (failsBehind_profile (by decide) rfl).mp h _ rfl
    exact noRoom_behind hroom hsplit hcs

end ZfsTest.Stf.Fstrings
