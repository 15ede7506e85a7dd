import ZfsTest.Stf.Wordlist
import ZfsTest.Text.Glob

/-!
# The state of a device, `get_device_state` of `libtest.kshlib`

An `awk` program looks for the device between the heading of a section of `zpool status` and the next one. It knows the headings `logs` and
`spares` only: behind the last device of a section it goes on through the `cache` section, and to the end of the listing when no `spares`
follow (`scan_eq`). So a device that is only in a section for the cache is found in the section before it (`looksInSection_iff`).
-/

namespace ZfsTest.Libtest.Device

open Glob

/-- A name that cannot be taken for a number. -/
def Named (t : Text) : Prop := t.head?.any (fun c => c.isAlpha || c = '/') = true

instance (t : Text) : Decidable (Named t) := inferInstanceAs (Decidable (_ = true))

/-- `==` of `awk`, which compares two texts that look like numbers as numbers. -/
structure Awk where
  eq : Text → Text → Bool
  eq_self : ∀ t, eq t t = true
  eq_named : ∀ t u, Named u → eq t u = true → t = u

/-! ## `get_device_state` -/

/-- `$n`. -/
def column (n : Nat) (line : Text) : Text := (Stf.split line).getD (n - 1) []

/-- `$1 ~ "^spares$" || $1 ~ "^logs$"`. -/
def closes (line : Text) : Bool := column 1 line = "spares".toList || column 1 line = "logs".toList

section

variable (awk : Awk)

/-- The program, with its two flags: what it prints. -/
def scan (device field : Text) : Bool → Bool → List Text → Text
  | _, _, [] => []
  | startconfig, startfield, line :: lines =>
    let startconfig := startconfig || decide ("config:".toList <:+: line)
    if startconfig && awk.eq (column 1 line) field then scan device field startconfig true lines
    else if startfield && awk.eq (column 1 line) device then column 2 line
    else if startfield && (awk.eq (column 1 line) field || closes line) then scan device field startconfig false lines
    else scan device field startconfig startfield lines

/-- `get_device_state`, for the lines that `zpool status -v` prints. -/
def getDeviceState (status : List Text) (pool disk field : Text) : Text :=
  let device := cutFront "/dev/dsk/".toList disk
  let field := if field = [] then pool else field
  scan awk device field false false status

end

/-! ## Listings -/

/-- A heading and the lines below it. -/
structure Part (name : Text) where
  heading : Text
  lines : List Text
  heading_eq : column 1 heading = name

/-- The lines of a part that may be missing. -/
def linesOf {name : Text} (part : Option (Part name)) : List Text := part.elim [] fun p => p.heading :: p.lines

/-- The devices of a part. -/
def devicesOf {name : Text} (part : Option (Part name)) : List Text := part.elim [] Part.lines

/-- What `zpool status -v` prints: the lines before `config:`, that line and the ones up to the line of the pool, the devices of the pool
and of the sections, and the lines below them. -/
structure Listing where
  pool : Text
  front : List Text
  config : Text
  header : List Text
  vdevs : Part pool
  logs : Option (Part "logs".toList)
  cache : Option (Part "cache".toList)
  spares : Option (Part "spares".toList)
  errors : List Text
  pool_named : Named pool
  pool_ne : pool ≠ "logs".toList ∧ pool ≠ "spares".toList
  front_config : ∀ line ∈ front, ¬"config:".toList <:+: line
  config_eq : "config:".toList <:+: config
  other : ∀ line ∈ config :: header ++ vdevs.lines ++ devicesOf logs ++ linesOf cache ++ devicesOf spares ++ errors,
    column 1 line ≠ pool ∧ closes line = false

inductive Field
  | pool
  | logs
  | spares

namespace Listing

variable (l : Listing)

def lines : List Text :=
  l.front ++ l.config :: (l.header ++ (l.vdevs.heading :: l.vdevs.lines) ++ linesOf l.logs ++ linesOf l.cache ++ linesOf l.spares ++ l.errors)

def name : Field → Text
  | .pool => l.pool
  | .logs => "logs".toList
  | .spares => "spares".toList

/-- The section for a field. -/
def part : (field : Field) → Option (Part (l.name field))
  | .pool => some l.vdevs
  | .logs => l.logs
  | .spares => l.spares

/-- The lines between `config:` and the section. -/
def before : Field → List Text
  | .pool => l.header
  | .logs => l.header ++ l.vdevs.heading :: l.vdevs.lines
  | .spares => l.header ++ l.vdevs.heading :: l.vdevs.lines ++ linesOf l.logs ++ linesOf l.cache

/-- The lines behind the section. -/
def behind : Field → List Text
  | .pool => linesOf l.logs ++ linesOf l.cache ++ linesOf l.spares ++ l.errors
  | .logs => linesOf l.cache ++ linesOf l.spares ++ l.errors
  | .spares => l.errors

end Listing

/-- The lines up to the next heading that the program knows. -/
def scanned : List Text → List Text
  | [] => []
  | line :: lines => if closes line then [line] else line :: scanned lines

/-- The second column of the first line for a device. -/
def stateIn (isDevice : Text → Bool) (lines : List Text) : Text := ((lines.find? fun line => isDevice (column 1 line)).map (column 2)).getD []

/-- The state of the device is printed when it is in the section, and else nothing. -/
def LooksInSection (awk : Awk) (l : Listing) (disk : Text) (field : Field) : Prop :=
  getDeviceState awk l.lines l.pool disk (l.name field) =
    stateIn (fun name => name = cutFront "/dev/dsk/".toList disk) (devicesOf (l.part field))

/-- The lines of the section and the ones behind it in which the program looks for the device. -/
def reach (l : Listing) (field : Field) : List Text := (l.part field).elim [] fun p => p.lines ++ scanned (l.behind field)

/-! ## What is printed -/

variable {awk : Awk} {l : Listing} {device field : Text}

theorem scan_front {lines : List Text} (h : ∀ line ∈ lines, ¬"config:".toList <:+: line) (rest : List Text) :
    scan awk device field false false (lines ++ rest) = scan awk device field false false rest := by
  induction lines with
  | nil => rfl
  | cons line lines ih =>
    have hline := h line List.mem_cons_self
    rw [List.cons_append, scan]
    simp only [hline, decide_false, Bool.or_self, Bool.false_and, Bool.false_eq_true, if_false]
    exact ih fun m hm => h m (List.mem_cons_of_mem line hm)

/-- Lines that do not name the field, outside its section. -/
theorem scan_off {lines : List Text} (h : ∀ line ∈ lines, awk.eq (column 1 line) field = false) (rest : List Text) :
    scan awk device field true false (lines ++ rest) = scan awk device field true false rest := by
  induction lines with
  | nil => rfl
  | cons line lines ih =>
    have hline := h line List.mem_cons_self
    rw [List.cons_append, scan]
    simp only [hline, Bool.true_or, Bool.and_false, Bool.false_and, Bool.false_eq_true, if_false]
    exact ih fun m hm => h m (List.mem_cons_of_mem line hm)

theorem scan_none {lines : List Text} (h : ∀ line ∈ lines, awk.eq (column 1 line) field = false) :
    scan awk device field true false lines = [] := by
  have hoff : scan awk device field true false (lines ++ []) = [] := scan_off h []
  rwa [List.append_nil] at hoff

theorem scan_heading {line : Text} (h : awk.eq (column 1 line) field = true) (startfield : Bool) (rest : List Text) :
    scan awk device field true startfield (line :: rest) = scan awk device field true true rest := by
  rw [scan]
  simp only [h, Bool.true_or, Bool.and_self, if_true]

/-- Inside the section. -/
theorem scan_on {lines : List Text} (h : ∀ line ∈ lines, awk.eq (column 1 line) field = false) :
    scan awk device field true true lines = stateIn (fun name => awk.eq name device) (scanned lines) := by
  induction lines with
  | nil => rfl
  | cons line lines ih =>
    have hline := h line List.mem_cons_self
    have hrest := fun m hm => h m (List.mem_cons_of_mem line hm)
    rw [scan, scanned]
    simp only [hline, Bool.true_or, Bool.and_false, Bool.true_and, Bool.false_or, Bool.false_eq_true, if_false]
    by_cases hdevice : awk.eq (column 1 line) device = true
    · rw [if_pos hdevice]
      split <;> simp [stateIn, hdevice]
    · rw [if_neg hdevice]
      by_cases hclose : closes line = true
      · rw [if_pos hclose, if_pos hclose, scan_none hrest]
        simp [stateIn, hdevice]
      · rw [if_neg hclose, if_neg hclose, ih hrest]
        simp [stateIn, hdevice]

/-! ## Sections -/

theorem Awk.eq_iff (awk : Awk) {t u : Text} (hu : Named u) : awk.eq t u = true ↔ t = u :=
  ⟨awk.eq_named t u hu, fun h => h ▸ awk.eq_self t⟩

@[simp] theorem linesOf_none {name : Text} : linesOf (none : Option (Part name)) = [] := rfl
@[simp] theorem linesOf_some {name : Text} (p : Part name) : linesOf (some p) = p.heading :: p.lines := rfl
@[simp] theorem devicesOf_none {name : Text} : devicesOf (none : Option (Part name)) = [] := rfl
@[simp] theorem devicesOf_some {name : Text} (p : Part name) : devicesOf (some p) = p.lines := rfl

theorem ne_of_mem_linesOf {name word : Text} {part : Option (Part name)} (hne : name ≠ word)
    (h : ∀ line ∈ devicesOf part, column 1 line ≠ word) : ∀ line ∈ linesOf part, column 1 line ≠ word := by
  cases part with
  | none => exact h
  | some p => exact List.forall_mem_cons.mpr ⟨p.heading_eq.symm ▸ hne, h⟩

namespace Listing

theorem name_named (l : Listing) (field : Field) : Named (l.name field) := by
  cases field with
  | pool => exact l.pool_named
  | logs => exact (by decide : Named "logs".toList)
  | spares => exact (by decide : Named "spares".toList)

theorem ne_name_of_other (l : Listing) {line : Text} (h : column 1 line ≠ l.pool ∧ closes line = false) (field : Field) :
    column 1 line ≠ l.name field := by
  obtain ⟨hpool, hcloses⟩ := h
  simp only [closes, Bool.or_eq_false_iff, decide_eq_false_iff_not] at hcloses
  cases field with
  | pool => exact hpool
  | logs => exact hcloses.2
  | spares => exact hcloses.1

theorem lines_eq (l : Listing) (field : Field) :
    l.lines = l.front ++ ((l.config :: l.before field) ++ (linesOf (l.part field) ++ l.behind field)) := by
  have hvdevs : linesOf (l.part .pool) = l.vdevs.heading :: l.vdevs.lines := rfl
  have hlogs : linesOf (l.part .logs) = linesOf l.logs := rfl
  have hspares : linesOf (l.part .spares) = linesOf l.spares := rfl
  cases field with
  | pool => simp only [lines, before, behind, hvdevs, List.append_assoc, List.cons_append]
  | logs => simp only [lines, before, behind, hlogs, List.append_assoc, List.cons_append]
  | spares => simp only [lines, before, behind, hspares, List.append_assoc, List.cons_append]

/-- The lines that are no headings, by the parts of the listing. -/
theorem forall_other {P : Text → Prop} (l : Listing) (h : ∀ line, column 1 line ≠ l.pool ∧ closes line = false → P line) :
    P l.config ∧ (∀ line ∈ l.header, P line) ∧ (∀ line ∈ l.vdevs.lines, P line) ∧ (∀ line ∈ devicesOf l.logs, P line) ∧
      (∀ line ∈ linesOf l.cache, P line) ∧ (∀ line ∈ devicesOf l.spares, P line) ∧ ∀ line ∈ l.errors, P line := by
  have hall : ∀ line ∈ l.config :: l.header ++ l.vdevs.lines ++ devicesOf l.logs ++ linesOf l.cache ++ devicesOf l.spares ++ l.errors,
      P line := fun line hline => h line (l.other line hline)
  simpa only [List.cons_append, List.forall_mem_cons, List.forall_mem_append, and_assoc] using hall

/-- Only the heading of a section has its name. -/
theorem ne_name (l : Listing) (field : Field) :
    ∀ line ∈ (l.config :: l.before field) ++ (devicesOf (l.part field) ++ l.behind field), column 1 line ≠ l.name field := by
  obtain ⟨hconfig, hheader, hvdevs, hlogs, hcache, hspares, herrors⟩ := l.forall_other fun line h => l.ne_name_of_other h field
  have hls : "logs".toList ≠ "spares".toList := by decide
  cases field with
  | pool =>
    have hlogs := ne_of_mem_linesOf l.pool_ne.1.symm hlogs
    have hspares := ne_of_mem_linesOf l.pool_ne.2.symm hspares
    simp only [before, part, behind, List.cons_append, List.forall_mem_cons, List.forall_mem_append]
    exact ⟨hconfig, hheader, hvdevs, ⟨⟨hlogs, hcache⟩, hspares⟩, herrors⟩
  | logs =>
    have hpool : column 1 l.vdevs.heading ≠ "logs".toList := fun h => l.pool_ne.1 (l.vdevs.heading_eq.symm.trans h)
    have hspares := ne_of_mem_linesOf hls.symm hspares
    simp only [before, part, behind, List.cons_append, List.forall_mem_cons, List.forall_mem_append]
    exact ⟨hconfig, ⟨hheader, hpool, hvdevs⟩, hlogs, ⟨hcache, hspares⟩, herrors⟩
  | spares =>
    have hpool : column 1 l.vdevs.heading ≠ "spares".toList := fun h => l.pool_ne.2 (l.vdevs.heading_eq.symm.trans h)
    have hlogs := ne_of_mem_linesOf hls hlogs
    simp only [before, part, behind, List.cons_append, List.forall_mem_cons, List.forall_mem_append]
    exact ⟨hconfig, ⟨⟨⟨hheader, hpool, hvdevs⟩, hlogs⟩, hcache⟩, hspares, herrors⟩

end Listing

theorem Listing.devices_open (l : Listing) (field : Field) : ∀ line ∈ devicesOf (l.part field), closes line = false := by
  obtain ⟨-, -, hvdevs, hlogs, -, hspares, -⟩ := l.forall_other fun line h => h.2
  cases field with
  | pool => exact hvdevs
  | logs => exact hlogs
  | spares => exact hspares

theorem scanned_append {lines : List Text} (h : ∀ line ∈ lines, closes line = false) (rest : List Text) :
    scanned (lines ++ rest) = lines ++ scanned rest := by
  induction lines with
  | nil => rfl
  | cons line lines ih =>
    rw [List.cons_append, scanned, h line List.mem_cons_self, if_neg Bool.false_ne_true, ih fun m hm => h m (List.mem_cons_of_mem line hm)]
    rfl

theorem scan_config {line : Text} (h : "config:".toList <:+: line) (rest : List Text) :
    scan awk device field false false (line :: rest) = scan awk device field true false (line :: rest) := by
  rw [scan, scan]
  simp only [h, decide_true, Bool.or_true]

/-- The state of the first line for the device, in the section and in what is scanned behind it. -/
theorem scan_eq (awk : Awk) (l : Listing) (disk : Text) (field : Field) : getDeviceState awk l.lines l.pool disk (l.name field) =
    stateIn (fun name => awk.eq name (cutFront "/dev/dsk/".toList disk)) (reach l field) := by
  have hnamed := l.name_named field
  have hne : l.name field ≠ [] := by
    intro h
    rw [h] at hnamed
    cases hnamed
  have hoff : ∀ line ∈ (l.config :: l.before field) ++ (devicesOf (l.part field) ++ l.behind field),
      awk.eq (column 1 line) (l.name field) = false := fun line hline =>
    eq_false_of_ne_true fun h => l.ne_name field line hline ((awk.eq_iff hnamed).mp h)
  have hbefore := fun line hline => hoff line (List.mem_append_left _ hline)
  have hsection := fun line hline => hoff line (List.mem_append_right _ hline)
  have hopen := l.devices_open field
  simp only [getDeviceState, if_neg hne]
  rw [l.lines_eq field, scan_front l.front_config, List.cons_append, scan_config l.config_eq, ← List.cons_append, scan_off hbefore, reach]
  cases hpart : l.part field with
  | none =>
    rw [hpart, devicesOf_none] at hsection
    rw [linesOf_none, scan_none hsection]
    rfl
  | some p =>
    rw [hpart, devicesOf_some] at hsection hopen
    have hheading : awk.eq (column 1 p.heading) (l.name field) = true := (awk.eq_iff hnamed).mpr p.heading_eq
    rw [linesOf_some, List.cons_append, scan_heading hheading, scan_on hsection, scanned_append hopen]
    rfl

/-! ## Looking in the section -/

/-- The first line for the device has the state of the device, or no state when the device is not in the section. -/
def Confined (awk : Awk) (l : Listing) (device : Text) (field : Field) : Prop :=
  match (devicesOf (l.part field)).find? fun line => column 1 line = device with
  | some own => ∀ line, (devicesOf (l.part field)).find? (fun line => awk.eq (column 1 line) device) = some line →
      column 2 line = column 2 own
  | none => ∀ line, (reach l field).find? (fun line => awk.eq (column 1 line) device) = some line → column 2 line = []

theorem exists_reach (l : Listing) (field : Field) : ∃ rest, reach l field = devicesOf (l.part field) ++ rest := by
  rw [reach]
  cases l.part field with
  | none => exact ⟨[], rfl⟩
  | some p => exact ⟨scanned (l.behind field), rfl⟩

theorem stateIn_eq_iff {isDevice : Text → Bool} {lines : List Text} {state : Text}
    (hstate : (∃ line ∈ lines, isDevice (column 1 line)) ∨ state = []) :
    stateIn isDevice lines = state ↔ ∀ line, lines.find? (fun line => isDevice (column 1 line)) = some line → column 2 line = state := by
  rw [stateIn]
  cases hfind : lines.find? fun line => isDevice (column 1 line) with
  | none =>
    rcases hstate with ⟨line, hline, hdevice⟩ | rfl
    · exact absurd hdevice (List.find?_eq_none.mp hfind line hline)
    · exact iff_of_true rfl fun line h => by cases h
  | some line => exact ⟨fun h m hm => Option.some.inj hm ▸ h, fun h => h line rfl⟩

/-- The state of the device is printed exactly when the device is confined to the section. -/
theorem looksInSection_iff (awk : Awk) (l : Listing) (disk : Text) (field : Field) :
    LooksInSection awk l disk field ↔ Confined awk l (cutFront "/dev/dsk/".toList disk) field := by
  rw [LooksInSection, scan_eq]
  generalize cutFront "/dev/dsk/".toList disk = device
  rw [Confined]
  cases hown : (devicesOf (l.part field)).find? fun line => column 1 line = device with
  | none =>
    have hnone : stateIn (fun name => name = device) (devicesOf (l.part field)) = [] := by rw [stateIn, hown]; rfl
    rw [hnone]
    exact stateIn_eq_iff (Or.inr rfl)
  | some own =>
    have hstate : stateIn (fun name => name = device) (devicesOf (l.part field)) = column 2 own := by rw [stateIn, hown]; rfl
    have hmem := List.mem_of_find?_eq_some hown
    have hname : column 1 own = device := by simpa using List.find?_some hown
    have hfound : ∃ line ∈ devicesOf (l.part field), awk.eq (column 1 line) device = true :=
      ⟨own, hmem, hname ▸ awk.eq_self _⟩
    obtain ⟨rest, hreach⟩ := exists_reach l field
    have hfirst : stateIn (fun name => awk.eq name device) (reach l field) =
        stateIn (fun name => awk.eq name device) (devicesOf (l.part field)) := by
      rw [stateIn, hreach, List.find?_append, stateIn]
      obtain ⟨line, hline⟩ := Option.isSome_iff_exists.mp (List.find?_isSome.mpr hfound)
      rw [hline]
      rfl
    rw [hstate, hfirst]
    exact stateIn_eq_iff (Or.inl hfound)

/-- Texts that do not look like numbers. -/
def Awk.sample : Awk := ⟨fun t u => t = u, fun _ => decide_eq_true rfl, fun _ _ _ => of_decide_eq_true⟩

/-- A pool with a device for the cache. -/
def Listing.sample : Listing where
  pool := "tank".toList
  front := ["  pool: tank".toList]
  config := "config:".toList
  header := ["\tNAME STATE".toList]
  vdevs := ⟨"\ttank ONLINE".toList, ["\t  c0t0d0 ONLINE".toList], by decide⟩
  logs := none
  cache := some ⟨"\tcache".toList, ["\t  c0t1d0 ONLINE".toList], by decide⟩
  spares := none
  errors := ["errors: none".toList]
  pool_named := by decide
  pool_ne := by decide
  front_config := by decide
  config_eq := by decide
  other := by decide

/-- The device for the cache is found among the devices of the pool. -/
theorem not_looksInSection : ¬LooksInSection Awk.sample .sample "c0t1d0".toList .pool := by
  unfold LooksInSection
  decide

/-- For a device with a name that is not a number: it is in the section, or the first line for it behind the section has no state. -/
theorem confined_named (awk : Awk) (l : Listing) {device : Text} (hd : Named device) (field : Field) :
    Confined awk l device field ↔ (∃ line ∈ devicesOf (l.part field), column 1 line = device) ∨
      ∀ line, (reach l field).find? (fun line => column 1 line = device) = some line → column 2 line = [] := by
  have heq : ∀ line : Text, awk.eq (column 1 line) device = decide (column 1 line = device) := fun line =>
    Bool.eq_iff_iff.mpr ((awk.eq_iff hd).trans decide_eq_true_iff.symm)
  unfold Confined
  simp only [heq]
  cases hown : (devicesOf (l.part field)).find? fun line => column 1 line = device with
  | none =>
    refine (or_iff_right ?_).symm
    rintro ⟨line, hline, h⟩
    exact absurd h (by simpa using List.find?_eq_none.mp hown line hline)
  | some own =>
    refine iff_of_true (fun line hline => by rw [Option.some.inj hline]) (Or.inl ⟨own, List.mem_of_find?_eq_some hown, ?_⟩)
    simpa using List.find?_some hown

end ZfsTest.Libtest.Device
