import Mathlib.Data.List.Nodup
import ZfsTest.Text.Fenced

/-!
# The files of a package

`process_dir` goes through the proto tree and lists what it finds below the root. A directory with the name of a build-mode location of
another architecture is left at once, but its own name is listed by the call that found it, and a file or a link of that name is listed
too. The name itself is what the shell makes of `basename $dir`. The list is right just when nothing of this kind is in the way
(`processDir_iff`).
-/

namespace ZfsTest.Stf.Proto

/-! ## The model -/

mutual

/-- What `lstat` finds. For a link, `leads` tells whether `stat` finds a directory at its end; a cyclic link has none. -/
inductive Node
  | file
  | link (leads : Bool)
  | dir (entries : Entries)

/-- The names in a directory, without `.` and `..`. -/
inductive Entries
  | nil
  | cons (name : Text) (node : Node) (rest : Entries)

end

/-- `stat` and `-d`. -/
def Node.isDir : Node → Bool
  | .file => false
  | .link leads => leads
  | .dir _ => true

def SCCS : Text := "SCCS".toList

def seqSearch (key : Text) : List Text → Bool
  | [] => false
  | element :: rest => if element = key then true else seqSearch key rest

/-- The locations of the build modes, and what `basename $dir` prints. -/
structure Setup where
  allBinLocations : List Text
  myBinLocations : List Text
  basename : Text → Text

section

variable (s : Setup)

/-- The name of a build-mode location of another architecture. -/
def foreign (name : Text) : Bool := seqSearch name s.allBinLocations && !seqSearch name s.myBinLocations

/-- The path of a file from the root. -/
def relative (relativeRoot file : Text) : Text := if relativeRoot = [] then file else relativeRoot ++ '/' :: file

mutual

/-- What a call adds to `@proto_files`. A link is skipped, whatever its name is. -/
def processDir (dir relativeRoot : Text) : Node → List Text
  | .dir allfiles => if foreign s (s.basename dir) then [] else processFiles dir relativeRoot allfiles
  | .file => []
  | .link _ => []

/-- The loop over `@allfiles`. -/
def processFiles (dir relativeRoot : Text) : Entries → List Text
  | .nil => []
  | .cons file node rest =>
    (if file = SCCS then []
      else (if node.isDir then processDir (dir ++ '/' :: file) (relative relativeRoot file) node else []) ++
        [relative relativeRoot file]) ++
      processFiles dir relativeRoot rest

end

/-! ## What the list is for -/

def Entries.toList : Entries → List (Text × Node)
  | .nil => []
  | .cons name node rest => (name, node) :: rest.toList

/-- The paths below a directory, through directories only. -/
inductive Below : Entries → List Text → Prop
  | here {es : Entries} {name : Text} {node : Node} : (name, node) ∈ es.toList → Below es [name]
  | under {es sub : Entries} {name : Text} {p : List Text} : (name, Node.dir sub) ∈ es.toList → Below sub p → Below es (name :: p)

/-- A name that no path of the package has. -/
def Banned (name : Text) : Prop := name = SCCS ∨ foreign s name = true

/-- A path that belongs into the package. -/
def Right (es : Entries) (p : List Text) : Prop := Below es p ∧ ∀ name ∈ p, ¬Banned s name

mutual

/-- The names in each directory differ, and none has a `/`. -/
def Node.Wf : Node → Prop
  | .dir es => es.Wf
  | .file => True
  | .link _ => True

def Entries.Wf : Entries → Prop
  | .nil => True
  | .cons name node rest => (name ≠ [] ∧ '/' ∉ name) ∧ (∀ e ∈ rest.toList, e.1 ≠ name) ∧ node.Wf ∧ rest.Wf

end

/-- A proto tree, by the names at its root. -/
structure Tree where
  root : Entries
  wf : root.Wf

/-- `@proto_files` has each path that belongs into the package once, and no other. -/
def ListsRight (protoDir : Text) (t : Tree) : Prop :=
  (processDir s protoDir [] (.dir t.root)).Nodup ∧
    ∀ text, text ∈ processDir s protoDir [] (.dir t.root) ↔ ∃ p, Right s t.root p ∧ text = ['/'].intercalate p

mutual

/-- Nothing that the scan reaches has a foreign name, and a directory that `basename` gives one has nothing for the package. -/
def Node.Fair (dir : Text) : Node → Prop
  | .dir es => if foreign s (s.basename dir) then ∀ e ∈ es.toList, Banned s e.1 else es.Fair dir
  | .file => True
  | .link _ => True

def Entries.Fair (dir : Text) : Entries → Prop
  | .nil => True
  | .cons name node rest =>
    (name = SCCS ∨ (foreign s name = false ∧ node.Fair (dir ++ '/' :: name))) ∧ rest.Fair dir

end

instance (name : Text) : Decidable (Banned s name) := inferInstanceAs (Decidable (_ ∨ _))

/-! ## Paths as lists of names -/

mutual

/-- The paths that the code lists below a node. -/
def listed (dir : Text) : Node → List (List Text)
  | .dir es => if foreign s (s.basename dir) then [] else listedIn dir es
  | .file => []
  | .link _ => []

def listedIn (dir : Text) : Entries → List (List Text)
  | .nil => []
  | .cons name node rest =>
    (if name = SCCS then [] else (listed (dir ++ '/' :: name) node).map (name :: ·) ++ [[name]]) ++ listedIn dir rest

end

mutual

/-- The paths that belong into the package. -/
def wanted : Node → List (List Text)
  | .dir es => wantedIn es
  | .file => []
  | .link _ => []

def wantedIn : Entries → List (List Text)
  | .nil => []
  | .cons name node rest =>
    (if Banned s name then [] else (wanted node).map (name :: ·) ++ [[name]]) ++ wantedIn rest

end

/-- The text of a path below `relativeRoot`. -/
def textOf (relativeRoot : Text) (p : List Text) : Text := relative relativeRoot (['/'].intercalate p)

theorem textOf_cons (relativeRoot name : Text) {p : List Text} (hname : name ≠ []) (hp : p ≠ []) :
    textOf (relative relativeRoot name) p = textOf relativeRoot (name :: p) := by
  have hjoin : ['/'].intercalate (name :: p) = name ++ ['/'] ++ ['/'].intercalate p := List.intercalate_cons_of_ne_nil hp
  unfold textOf relative
  rw [hjoin]
  by_cases hroot : relativeRoot = []
  · rw [if_pos hroot, if_neg hname, if_pos hroot, List.append_assoc]
    rfl
  · have hlong : relativeRoot ++ '/' :: name ≠ [] := by simp
    rw [if_neg hroot, if_neg hlong, if_neg hroot, List.append_assoc, List.append_assoc]
    rfl

mutual

theorem listed_ne_nil (dir : Text) : ∀ (node : Node), [] ∉ listed s dir node
  | .dir es => by
    rw [listed]
    split
    · exact List.not_mem_nil
    · exact listedIn_ne_nil dir es
  | .file => List.not_mem_nil
  | .link _ => List.not_mem_nil

theorem listedIn_ne_nil (dir : Text) : ∀ (es : Entries), [] ∉ listedIn s dir es
  | .nil => List.not_mem_nil
  | .cons name node rest => by
    rw [listedIn, List.mem_append, not_or]
    refine ⟨?_, listedIn_ne_nil dir rest⟩
    split
    · exact List.not_mem_nil
    · simp

end

mutual

/-- The code lists the texts of its paths. -/
theorem processDir_eq (dir relativeRoot : Text) : ∀ (node : Node), node.Wf →
    processDir s dir relativeRoot node = (listed s dir node).map (textOf relativeRoot)
  | .dir es, hwf => by
    rw [processDir, listed]
    split
    · rfl
    · exact processFiles_eq dir relativeRoot es hwf
  | .file, _ => rfl
  | .link _, _ => rfl

theorem processFiles_eq (dir relativeRoot : Text) : ∀ (es : Entries), es.Wf →
    processFiles s dir relativeRoot es = (listedIn s dir es).map (textOf relativeRoot)
  | .nil, _ => rfl
  | .cons name node rest, hwf => by
    have hname : name ≠ [] := hwf.1.1
    have hnode := processDir_eq (dir ++ '/' :: name) (relative relativeRoot name) node hwf.2.2.1
    have hlook : (if node.isDir then processDir s (dir ++ '/' :: name) (relative relativeRoot name) node else []) =
        processDir s (dir ++ '/' :: name) (relative relativeRoot name) node := by
      cases node with
      | file => rfl
      | link leads => cases leads <;> rfl
      | dir es => rfl
    rw [processFiles, listedIn, List.map_append, processFiles_eq dir relativeRoot rest hwf.2.2.2, hlook, hnode]
    congr 1
    split
    · rfl
    · rw [List.map_append, List.map_map, List.map_singleton]
      congr 1
      · apply List.map_congr_left
        intro p hp
        have hne : p ≠ [] := by
          rintro rfl
          exact listed_ne_nil s _ node hp
        exact textOf_cons relativeRoot name hname hne
      · rw [textOf, List.intercalate_singleton]

end

/-! ## The entries of a directory -/

omit s in
/-- Induction along the entries of one directory. -/
theorem Entries.along {P : Entries → Prop} (nil : P .nil) (cons : ∀ name node rest, P rest → P (.cons name node rest)) :
    ∀ es, P es
  | .nil => nil
  | .cons name node rest => cons name node rest (Entries.along nil cons rest)

theorem mem_listedIn {dir : Text} {es : Entries} {p : List Text} :
    p ∈ listedIn s dir es ↔
      ∃ e ∈ es.toList, e.1 ≠ SCCS ∧ (p = [e.1] ∨ ∃ q ∈ listed s (dir ++ '/' :: e.1) e.2, p = e.1 :: q) := by
  induction es using Entries.along with
  | nil => simp [listedIn, Entries.toList]
  | cons name node rest ih =>
    have hfirst : p ∈ (if name = SCCS then [] else (listed s (dir ++ '/' :: name) node).map (name :: ·) ++ [[name]]) ↔
        name ≠ SCCS ∧ (p = [name] ∨ ∃ q ∈ listed s (dir ++ '/' :: name) node, p = name :: q) := by
      split
      · rename_i hscs
        simp [hscs]
      · rename_i hscs
        simp only [List.mem_append, List.mem_map, List.mem_singleton, ne_eq, hscs, not_false_eq_true, true_and]
        rw [or_comm]
        simp only [eq_comm]
    rw [listedIn, List.mem_append, hfirst, ih, Entries.toList]
    simp only [List.mem_cons, exists_eq_or_imp]

theorem mem_wantedIn {es : Entries} {p : List Text} :
    p ∈ wantedIn s es ↔ ∃ e ∈ es.toList, ¬Banned s e.1 ∧ (p = [e.1] ∨ ∃ q ∈ wanted s e.2, p = e.1 :: q) := by
  induction es using Entries.along with
  | nil => simp [wantedIn, Entries.toList]
  | cons name node rest ih =>
    have hfirst : p ∈ (if Banned s name then [] else (wanted s node).map (name :: ·) ++ [[name]]) ↔
        ¬Banned s name ∧ (p = [name] ∨ ∃ q ∈ wanted s node, p = name :: q) := by
      split
      · rename_i hban
        simp [hban]
      · rename_i hban
        simp only [List.mem_append, List.mem_map, List.mem_singleton, hban, not_false_eq_true, true_and]
        rw [or_comm]
        simp only [eq_comm]
    rw [wantedIn, List.mem_append, hfirst, ih, Entries.toList]
    simp only [List.mem_cons, exists_eq_or_imp]

theorem Entries.Wf.mem {es : Entries} (h : es.Wf) {e : Text × Node} (he : e ∈ es.toList) : (e.1 ≠ [] ∧ '/' ∉ e.1) ∧ e.2.Wf := by
  induction es using Entries.along with
  | nil => cases he
  | cons name node rest ih =>
    rcases List.mem_cons.mp he with rfl | he
    · exact ⟨h.1, h.2.2.1⟩
    · exact ih h.2.2.2 he

theorem wanted_ne_nil (node : Node) : [] ∉ wanted s node := by
  cases node with
  | file => exact List.not_mem_nil
  | link _ => exact List.not_mem_nil
  | dir es =>
    intro hmem
    obtain ⟨e, -, -, h | ⟨q, -, h⟩⟩ := (mem_wantedIn s).mp hmem <;> cases h

/-- The paths that are wanted are the right ones. -/
theorem mem_wanted_iff {es : Entries} {p : List Text} : p ∈ wantedIn s es ↔ Right s es p := by
  constructor
  · intro hmem
    induction p generalizing es with
    | nil => exact absurd hmem (wanted_ne_nil s (.dir es))
    | cons name p ih =>
      obtain ⟨⟨name', node⟩, he, hban, h | ⟨q, hq, h⟩⟩ := (mem_wantedIn s).mp hmem
      · rw [h]
        exact ⟨.here he, fun n hn => (List.mem_singleton.mp hn) ▸ hban⟩
      · rw [List.cons.injEq] at h
        obtain ⟨rfl, rfl⟩ := h
        cases node with
        | file => cases hq
        | link _ => cases hq
        | dir sub =>
          obtain ⟨hbelow, hnames⟩ := ih hq
          refine ⟨.under he hbelow, fun n hn => ?_⟩
          rcases List.mem_cons.mp hn with rfl | hn
          · exact hban
          · exact hnames n hn
  · rintro ⟨hbelow, hnames⟩
    induction hbelow with
    | here he => exact (mem_wantedIn s).mpr ⟨_, he, hnames _ List.mem_cons_self, Or.inl rfl⟩
    | under he hbelow ih =>
      have hq := ih fun n hn => hnames n (List.mem_cons_of_mem _ hn)
      exact (mem_wantedIn s).mpr ⟨_, he, hnames _ List.mem_cons_self, Or.inr ⟨_, hq, rfl⟩⟩

/-- The names on a path that is listed or wanted are names of the tree. -/
theorem names_of_path {es : Entries} (hwf : es.Wf) (dir : Text) {p : List Text} (hp : p ∈ listedIn s dir es ∨ p ∈ wantedIn s es) :
    ∀ name ∈ p, name ≠ [] ∧ '/' ∉ name := by
  induction p generalizing es dir with
  | nil => exact fun name hname => by cases hname
  | cons name p ih =>
    have hentry : ∃ e ∈ es.toList, e.1 = name ∧
        (p = [] ∨ p ∈ listed s (dir ++ '/' :: e.1) e.2 ∨ p ∈ wanted s e.2) := by
      rcases hp with hp | hp
      · obtain ⟨e, he, -, h | ⟨q, hq, h⟩⟩ := (mem_listedIn s).mp hp
        · rw [List.cons.injEq] at h
          exact ⟨e, he, h.1.symm, Or.inl h.2⟩
        · rw [List.cons.injEq] at h
          exact ⟨e, he, h.1.symm, Or.inr (Or.inl (h.2 ▸ hq))⟩
      · obtain ⟨e, he, -, h | ⟨q, hq, h⟩⟩ := (mem_wantedIn s).mp hp
        · rw [List.cons.injEq] at h
          exact ⟨e, he, h.1.symm, Or.inl h.2⟩
        · rw [List.cons.injEq] at h
          exact ⟨e, he, h.1.symm, Or.inr (Or.inr (h.2 ▸ hq))⟩
    obtain ⟨⟨name', node⟩, he, rfl, hrest⟩ := hentry
    obtain ⟨hname, hnode⟩ := hwf.mem he
    intro n hn
    rcases List.mem_cons.mp hn with rfl | hn'
    · exact hname
    · have hsub : ∃ sub : Entries, sub.Wf ∧ (p ∈ listedIn s (dir ++ '/' :: name') sub ∨ p ∈ wantedIn s sub) := by
        have hne : p ≠ [] := List.ne_nil_of_mem hn'
        cases node with
        | file => rcases hrest with h | h | h <;> first | exact absurd h hne | cases h
        | link _ => rcases hrest with h | h | h <;> first | exact absurd h hne | cases h
        | dir sub =>
          refine ⟨sub, hnode, ?_⟩
          rcases hrest with h | h | h
          · exact absurd h hne
          · rw [listed] at h
            split at h
            · cases h
            · exact Or.inl h
          · exact Or.inr h
      obtain ⟨sub, hsub, hp'⟩ := hsub
      exact ih hsub _ hp' n hn'

theorem wantedIn_head {es : Entries} {p : List Text} (hp : p ∈ wantedIn s es) : ∃ e ∈ es.toList, p.head? = some e.1 := by
  obtain ⟨e, he, -, rfl | ⟨q, -, rfl⟩⟩ := (mem_wantedIn s).mp hp
  · exact ⟨e, he, rfl⟩
  · exact ⟨e, he, rfl⟩

theorem listedIn_head {dir : Text} {es : Entries} {p : List Text} (hp : p ∈ listedIn s dir es) :
    ∃ e ∈ es.toList, p.head? = some e.1 := by
  obtain ⟨e, he, -, rfl | ⟨q, -, rfl⟩⟩ := (mem_listedIn s).mp hp
  · exact ⟨e, he, rfl⟩
  · exact ⟨e, he, rfl⟩

/-! ## The list is right -/

mutual

theorem wanted_nodup : ∀ (node : Node), node.Wf → (wanted s node).Nodup
  | .dir es, hwf => wantedIn_nodup es hwf
  | .file, _ => List.nodup_nil
  | .link _, _ => List.nodup_nil

theorem wantedIn_nodup : ∀ (es : Entries), es.Wf → (wantedIn s es).Nodup
  | .nil, _ => List.nodup_nil
  | .cons name node rest, hwf => by
    rw [wantedIn, List.nodup_append]
    refine ⟨?_, wantedIn_nodup rest hwf.2.2.2, ?_⟩
    · split
      · exact List.nodup_nil
      · rw [List.nodup_append]
        refine ⟨(wanted_nodup node hwf.2.2.1).map fun p q h => (List.cons.inj h).2, List.nodup_singleton _, ?_⟩
        intro p hp q hq heq
        obtain ⟨r, hr, rfl⟩ := List.mem_map.mp hp
        rw [List.mem_singleton.mp hq, List.cons.injEq] at heq
        exact wanted_ne_nil s node (heq.2 ▸ hr)
    · -- a path of the first entry begins with its name, and the names differ
      intro p hp q hq heq
      subst heq
      obtain ⟨e, he, hhead⟩ := wantedIn_head s hq
      apply hwf.2.1 e he
      split at hp
      · cases hp
      · rcases List.mem_append.mp hp with hp | hp
        · obtain ⟨r, -, rfl⟩ := List.mem_map.mp hp
          exact (Option.some.inj hhead).symm
        · rw [List.mem_singleton.mp hp] at hhead
          exact (Option.some.inj hhead).symm

end

theorem wantedIn_banned {es : Entries} : wantedIn s es = [] ↔ ∀ e ∈ es.toList, Banned s e.1 := by
  constructor
  · intro hnil e he
    by_contra hban
    have hmem := (mem_wantedIn s).mpr ⟨e, he, hban, Or.inl rfl⟩
    rw [hnil] at hmem
    cases hmem
  · intro hall
    rw [List.eq_nil_iff_forall_not_mem]
    intro p hp
    obtain ⟨e, he, hban, -⟩ := (mem_wantedIn s).mp hp
    exact hban (hall e he)

mutual

/-- In a fair tree the code lists what is wanted. -/
theorem listed_fair (dir : Text) : ∀ (node : Node), node.Fair s dir → listed s dir node = wanted s node
  | .dir es, hfair => by
    rw [Node.Fair] at hfair
    rw [listed, wanted]
    split at hfair
    · rename_i hforeign
      rw [if_pos hforeign, (wantedIn_banned s).mpr hfair]
    · rename_i hforeign
      rw [if_neg hforeign, listedIn_fair dir es hfair]
  | .file, _ => rfl
  | .link _, _ => rfl

theorem listedIn_fair (dir : Text) : ∀ (es : Entries), es.Fair s dir → listedIn s dir es = wantedIn s es
  | .nil, _ => rfl
  | .cons name node rest, hfair => by
    rw [listedIn, wantedIn, listedIn_fair dir rest hfair.2]
    congr 1
    have hskip : name = SCCS → Banned s name := Or.inl
    rcases hfair.1 with hscs | ⟨hforeign, hnode⟩
    · rw [if_pos hscs, if_pos (hskip hscs)]
    · by_cases hscs : name = SCCS
      · rw [if_pos hscs, if_pos (hskip hscs)]
      · have hban : ¬Banned s name := by
          rintro (h | h)
          · exact hscs h
          · rw [hforeign] at h
            cases h
        rw [if_neg hscs, if_neg hban, listed_fair _ node hnode]

end

mutual

/-- A tree in which the code lists what is wanted is fair. -/
theorem fair_of_listed (dir : Text) : ∀ (node : Node), node.Wf → (∀ p, p ∈ listed s dir node ↔ p ∈ wanted s node) → node.Fair s dir
  | .dir es, hwf, hsame => by
    rw [Node.Fair]
    split
    · rename_i hforeign
      rw [← wantedIn_banned, List.eq_nil_iff_forall_not_mem]
      intro p hp
      have hno := (hsame p).mpr hp
      rw [listed, if_pos hforeign] at hno
      cases hno
    · rename_i hforeign
      refine fairIn_of_listed dir es hwf fun p => ?_
      have hp := hsame p
      rwa [listed, if_neg hforeign] at hp
  | .file, _, _ => trivial
  | .link _, _, _ => trivial

theorem fairIn_of_listed (dir : Text) : ∀ (es : Entries), es.Wf → (∀ p, p ∈ listedIn s dir es ↔ p ∈ wantedIn s es) → es.Fair s dir
  | .nil, _, _ => trivial
  | .cons name node rest, hwf, hsame => by
    have hlisted : ∀ p, p ∈ listedIn s dir (.cons name node rest) ↔
        (name ≠ SCCS ∧ (p = [name] ∨ ∃ q ∈ listed s (dir ++ '/' :: name) node, p = name :: q)) ∨ p ∈ listedIn s dir rest := by
      intro p
      rw [mem_listedIn, mem_listedIn, Entries.toList]
      simp only [List.mem_cons, exists_eq_or_imp]
    have hwanted : ∀ p, p ∈ wantedIn s (.cons name node rest) ↔
        (¬Banned s name ∧ (p = [name] ∨ ∃ q ∈ wanted s node, p = name :: q)) ∨ p ∈ wantedIn s rest := by
      intro p
      rw [mem_wantedIn, mem_wantedIn, Entries.toList]
      simp only [List.mem_cons, exists_eq_or_imp]
    have hhere : ∀ q, name :: q ∉ listedIn s dir rest ∧ name :: q ∉ wantedIn s rest := by
      intro q
      constructor
      · intro hmem
        obtain ⟨e, he, hhead⟩ := listedIn_head s hmem
        exact hwf.2.1 e he (Option.some.inj hhead).symm
      · intro hmem
        obtain ⟨e, he, hhead⟩ := wantedIn_head s hmem
        exact hwf.2.1 e he (Option.some.inj hhead).symm
    refine ⟨?_, fairIn_of_listed dir rest hwf.2.2.2 fun p => ?_⟩
    · by_cases hscs : name = SCCS
      · exact Or.inl hscs
      · have hone := (hwanted [name]).mp ((hsame [name]).mp ((hlisted [name]).mpr (Or.inl ⟨hscs, Or.inl rfl⟩)))
        have hban : ¬Banned s name := (hone.resolve_right (hhere []).2).1
        refine Or.inr ⟨eq_false_of_ne_true fun h => hban (Or.inr h), fair_of_listed _ node hwf.2.2.1 fun q => ?_⟩
        constructor
        · intro hq
          have hmem := (hwanted (name :: q)).mp ((hsame (name :: q)).mp ((hlisted (name :: q)).mpr (Or.inl ⟨hscs, Or.inr ⟨q, hq, rfl⟩⟩)))
          rcases (hmem.resolve_right (hhere q).2).2 with h | ⟨r, hr, h⟩
          · exact absurd ((List.cons.inj h).2 ▸ hq) (listed_ne_nil s _ node)
          · exact (List.cons.inj h).2 ▸ hr
        · intro hq
          have hmem := (hlisted (name :: q)).mp ((hsame (name :: q)).mpr ((hwanted (name :: q)).mpr (Or.inl ⟨hban, Or.inr ⟨q, hq, rfl⟩⟩)))
          rcases (hmem.resolve_right (hhere q).1).2 with h | ⟨r, hr, h⟩
          · exact absurd ((List.cons.inj h).2 ▸ hq) (wanted_ne_nil s node)
          · exact (List.cons.inj h).2 ▸ hr
    · -- the paths of the other entries begin with other names
      have hp := hsame p
      rw [hlisted, hwanted] at hp
      constructor
      · intro hmem
        rcases hp.mp (Or.inr hmem) with ⟨-, rfl | ⟨q, -, rfl⟩⟩ | h
        · exact absurd hmem (hhere []).1
        · exact absurd hmem (hhere q).1
        · exact h
      · intro hmem
        rcases hp.mpr (Or.inr hmem) with ⟨-, rfl | ⟨q, -, rfl⟩⟩ | h
        · exact absurd hmem (hhere []).2
        · exact absurd hmem (hhere q).2
        · exact h

end

/-- The package gets the right files just when nothing in the tree is in the way of the scan. -/
theorem processDir_iff (protoDir : Text) (t : Tree) : ListsRight s protoDir t ↔ (Node.dir t.root).Fair s protoDir := by
  have htext : textOf [] = ['/'].intercalate := rfl
  have hlist := processDir_eq s protoDir [] (.dir t.root) t.wf
  have hnames : ∀ p, p ∈ listed s protoDir (.dir t.root) ∨ p ∈ wantedIn s t.root → ∀ name ∈ p, name ≠ [] ∧ '/' ∉ name := by
    intro p hp
    rcases hp with hp | hp
    · rw [listed] at hp
      split at hp
      · cases hp
      · exact names_of_path s t.wf protoDir (Or.inl hp)
    · exact names_of_path s t.wf protoDir (Or.inr hp)
  have hinj : ∀ p q, p ∈ listed s protoDir (.dir t.root) ∨ p ∈ wantedIn s t.root →
      q ∈ listed s protoDir (.dir t.root) ∨ q ∈ wantedIn s t.root → ['/'].intercalate p = ['/'].intercalate q → p = q :=
    fun p q hp hq => intercalate_injective (hnames p hp) (hnames q hq)
  unfold ListsRight
  rw [hlist, htext]
  constructor
  · rintro ⟨-, hsame⟩
    refine fair_of_listed s protoDir (.dir t.root) t.wf fun p => ?_
    constructor
    · intro hp
      obtain ⟨q, hq, heq⟩ := (hsame _).mp (List.mem_map_of_mem hp)
      have hq' := (mem_wanted_iff s).mpr hq
      rw [hinj p q (Or.inl hp) (Or.inr hq') heq]
      exact hq'
    · intro hp
      obtain ⟨q, hq, heq⟩ := List.mem_map.mp ((hsame _).mpr ⟨p, (mem_wanted_iff s).mp hp, rfl⟩)
      rw [← hinj q p (Or.inl hq) (Or.inr hp) heq]
      exact hq
  · intro hfair
    have heq := listed_fair s protoDir (.dir t.root) hfair
    rw [heq]
    refine ⟨List.Nodup.map_on (fun p hp q hq h => hinj p q (Or.inr hp) (Or.inr hq) h) (wantedIn_nodup s t.root t.wf), fun text => ?_⟩
    rw [List.mem_map]
    constructor
    · rintro ⟨p, hp, rfl⟩
      exact ⟨p, (mem_wanted_iff s).mp hp, rfl⟩
    · rintro ⟨p, hp, rfl⟩
      exact ⟨p, (mem_wanted_iff s).mpr hp, rfl⟩

end

/-- Two architectures, and names that the shell leaves alone. -/
def sample : Setup where
  allBinLocations := ["i386".toList, "sparcv9".toList]
  myBinLocations := ["i386".toList]
  basename := fun dir => (dir.reverse.takeWhile (· ≠ '/')).reverse

/-- A directory with binaries of the other architecture. -/
def sampleTree : Tree where
  root := .cons "sparcv9".toList (.dir (.cons "cmd".toList .file .nil)) .nil
  wf := by simp [Entries.Wf, Node.Wf, Entries.toList]

/-- The directory is skipped and listed. -/
theorem foreign_listed : processDir sample "proto".toList [] (.dir sampleTree.root) = ["sparcv9".toList] ∧
    ¬ListsRight sample "proto".toList sampleTree := by
  have hlist : processDir sample "proto".toList [] (.dir sampleTree.root) = ["sparcv9".toList] := rfl
  refine ⟨hlist, fun hright => ?_⟩
  obtain ⟨p, ⟨hbelow, hnames⟩, -⟩ := (hright.2 "sparcv9".toList).mp (hlist ▸ List.mem_cons_self)
  have hfirst : "sparcv9".toList ∈ p := by
    cases hbelow with
    | here he =>
      obtain ⟨rfl, -⟩ := Prod.mk.inj (List.mem_singleton.mp he)
      exact List.mem_cons_self
    | under he _ =>
      obtain ⟨rfl, -⟩ := Prod.mk.inj (List.mem_singleton.mp he)
      exact List.mem_cons_self
  exact hnames _ hfirst (Or.inr rfl)

end ZfsTest.Stf.Proto
