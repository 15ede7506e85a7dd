import Mathlib.Algebra.BigOperators.Group.List.Basic
import Mathlib.Data.List.DropRight
import Mathlib.Data.List.Nodup
import ZfsTest.Text.Separated

/-!
# A tree of directories and files, `mktree`

The program makes directories and files in a base directory, by recursion over the levels. A call for a directory makes the files of
that directory, unless the levels have come to an end; it then returns `1`, and the caller makes the files. With names that are not cut
off, the run is a list of system calls that can be written down (`makes`, `mktree_eq`), none of which finds its path taken or its
directory missing (`run_eq`). Every directory has all its files, and each level all its directories (`mktree_builds`).
-/

namespace ZfsTest.Fs

/-- The directories and files, and the paths for which `mkdir` or `crtfile` has been called. -/
structure Disk where
  dirs : List Text
  files : List Text
  calls : List Text
  deriving DecidableEq, Repr

/-- The path without its last component. -/
def parent (p : Text) : Text := (p.rdropWhile (· ≠ '/')).dropLast

/-- `mkdir`. There is no result where it fails and the program exits. -/
def Disk.mkdir (fs : Disk) (p : Text) : Option Disk :=
  if fs.dirs.contains p || fs.files.contains p || !fs.dirs.contains (parent p) then none
  else some ⟨fs.dirs ++ [p], fs.files, fs.calls ++ [p]⟩

/-- `crtfile`, without the contents. A file that is there is opened. -/
def Disk.crtfile (fs : Disk) (p : Text) : Option Disk :=
  if fs.dirs.contains p || !fs.dirs.contains (parent p) then none
  else if fs.files.contains p then some { fs with calls := fs.calls ++ [p] }
  else some ⟨fs.dirs, fs.files ++ [p], fs.calls ++ [p]⟩

/-- `"%c-l%dd%df%d"`. -/
def entry (type : Char) (level dir file : Nat) : Text :=
  type :: '-' :: 'l' :: (natText level ++ 'd' :: (natText dir ++ 'f' :: natText file))

/-- `"%s/%c-l%dd%df%d"`. -/
def fullName (pdir : Text) (type : Char) (level dir file : Nat) : Text := pdir ++ '/' :: entry type level dir file

section

variable (maxpathlen nlevel ndir nfile : Nat)

/-- `getfdname`, with a buffer of `MAXPATHLEN` bytes. -/
def getfdname (pdir : Text) (type : Char) (level dir file : Nat) : Text := (fullName pdir type level dir file).take (maxpathlen - 1)

/-- One of the two loops over the files. -/
def crtfiles (pdir : Text) (level d : Nat) (fs : Disk) : Option Disk :=
  (List.range nfile).foldlM (fun fs f => fs.crtfile (getfdname maxpathlen pdir 'F' level d f)) fs

/-- `mktree`, with its return value. Behind the first loop `d` is `ndir`. -/
def mktree (pdir : Text) (level : Nat) (fs : Disk) : Option (Nat × Disk) :=
  if nlevel < level then some (1, fs)
  else do
    let fs ← (List.range ndir).foldlM (fun fs d => do
      let dname := getfdname maxpathlen pdir 'D' level d 0
      let fs ← fs.mkdir dname
      let (ret, fs) ← mktree dname (level + 1) fs
      if ret ≠ 0 then crtfiles maxpathlen nfile dname (level + 1) d fs else some fs) fs
    let fs ← crtfiles maxpathlen nfile pdir level ndir fs
    some (0, fs)
termination_by nlevel + 1 - level

/-! ## The calls -/

/-- A system call. -/
inductive Make
  | mkdir (p : Text)
  | crtfile (p : Text)
  deriving DecidableEq, Repr

def Make.path : Make → Text
  | .mkdir p => p
  | .crtfile p => p

def Make.run (fs : Disk) : Make → Option Disk
  | .mkdir p => fs.mkdir p
  | .crtfile p => fs.crtfile p

def makeFiles (pdir : Text) (level d : Nat) : List Make := (List.range nfile).map fun f => .crtfile (fullName pdir 'F' level d f)

/-- The calls for the `k` levels below `pdir`. -/
def makes : Nat → Text → Nat → List Make
  | 0, _, _ => []
  | k + 1, pdir, level =>
    (List.range ndir).flatMap (fun d =>
      let dname := fullName pdir 'D' level d 0
      .mkdir dname :: makes k dname (level + 1) ++ if k = 0 then makeFiles nfile dname (level + 1) d else []) ++
    makeFiles nfile pdir level ndir

/-- Those for a directory in `pdir`. -/
def block (k : Nat) (pdir : Text) (level d : Nat) : List Make :=
  .mkdir (fullName pdir 'D' level d 0) :: makes ndir nfile k (fullName pdir 'D' level d 0) (level + 1) ++
    if k = 0 then makeFiles nfile (fullName pdir 'D' level d 0) (level + 1) d else []

theorem makes_succ (k : Nat) (pdir : Text) (level : Nat) :
    makes ndir nfile (k + 1) pdir level =
      (List.range ndir).flatMap (block ndir nfile k pdir level) ++ makeFiles nfile pdir level ndir := rfl

end

/-! ## Names -/

theorem dir_ne_slash : 'D' ≠ '/' := by decide

theorem file_ne_slash : 'F' ≠ '/' := by decide

theorem slash_notMem_natText (n : Nat) : '/' ∉ natText n := notMem_natText rfl n

theorem slash_notMem_entry {type : Char} (htype : type ≠ '/') (level dir file : Nat) : '/' ∉ entry type level dir file := by
  simp [entry, slash_notMem_natText, htype.symm]

/-- Two entries with the same name are the same. -/
theorem entry_injective {t t' : Char} {l l' d d' f f' : Nat} (h : entry t l d f = entry t' l' d' f') :
    t = t' ∧ d = d' ∧ f = f' := by
  simp only [entry, List.cons.injEq, true_and] at h
  obtain ⟨htype, h⟩ := h
  obtain ⟨-, hrest⟩ := cut_front (notMem_natText rfl l) (notMem_natText rfl l') h
  obtain ⟨hdir, hfile⟩ := cut_front (notMem_natText rfl d) (notMem_natText rfl d') hrest
  exact ⟨htype, natText_injective hdir, natText_injective hfile⟩

theorem parent_fullName (p : Text) {type : Char} (htype : type ≠ '/') (level dir file : Nat) :
    parent (fullName p type level dir file) = p := by
  have hslash := slash_notMem_entry htype level dir file
  unfold parent fullName
  have hcut : (p ++ '/' :: entry type level dir file).rdropWhile (· ≠ '/') = p ++ ['/'] := by
    unfold List.rdropWhile
    rw [List.reverse_append, List.reverse_cons, List.append_assoc, List.singleton_append,
      dropWhile_separator fun h => hslash (List.mem_reverse.mp h)]
    simp
  rw [hcut]
  exact List.dropLast_concat

/-- A path below `p`. -/
def Below (p t : Text) : Prop := p ++ ['/'] <+: t

instance (p t : Text) : Decidable (Below p t) := inferInstanceAs (Decidable (_ <+: _))

/-- The component of a path behind `p`. -/
def top (p t : Text) : Text := (t.drop (p.length + 1)).takeWhile (· ≠ '/')

theorem below_fullName (p : Text) (type : Char) (level dir file : Nat) : Below p (fullName p type level dir file) :=
  ⟨entry type level dir file, by simp [fullName]⟩

theorem Below.trans {p q t : Text} (h : Below p q) (h' : Below q t) : Below p t := by
  refine List.IsPrefix.trans h (List.IsPrefix.trans ?_ h')
  exact List.prefix_append q ['/']

theorem Below.length_lt {p t : Text} (h : Below p t) : p.length < t.length := by
  have hlen := List.IsPrefix.length_le h
  rw [List.length_append, List.length_singleton] at hlen
  omega

theorem top_fullName (p : Text) {type : Char} (htype : type ≠ '/') (level dir file : Nat) :
    top p (fullName p type level dir file) = entry type level dir file := by
  have hdrop : (fullName p type level dir file).drop (p.length + 1) = entry type level dir file := by
    rw [fullName, ← List.drop_drop, List.drop_left]
    rfl
  rw [top, hdrop]
  exact List.takeWhile_eq_self_iff.mpr (ne_of_notMem (slash_notMem_entry htype level dir file))

theorem top_of_below {p t : Text} {type : Char} (htype : type ≠ '/') {level dir file : Nat}
    (h : Below (fullName p type level dir file) t) : top p t = entry type level dir file := by
  obtain ⟨r, rfl⟩ := h
  have hdrop : (fullName p type level dir file ++ ['/'] ++ r).drop (p.length + 1) = entry type level dir file ++ '/' :: r := by
    rw [fullName, List.append_assoc, List.append_assoc, ← List.drop_drop, List.drop_left]
    simp
  rw [top, hdrop]
  exact takeWhile_separator (slash_notMem_entry htype level dir file) r

/-! ## The run is that of the calls -/

section

variable {maxpathlen nlevel ndir nfile : Nat}

theorem getfdname_eq {pdir : Text} {type : Char} {level dir file : Nat} (h : (fullName pdir type level dir file).length < maxpathlen) :
    getfdname maxpathlen pdir type level dir file = fullName pdir type level dir file :=
  List.take_of_length_le (by omega)

/-- A loop that makes a block of calls in each round. -/
theorem foldlM_block {step : Disk → Nat → Option Disk} (calls : Nat → List Make) {ds : List Nat}
    (h : ∀ d ∈ ds, ∀ fs, step fs d = (calls d).foldlM Make.run fs) (fs : Disk) :
    ds.foldlM step fs = (ds.flatMap calls).foldlM Make.run fs := by
  induction ds generalizing fs with
  | nil => rfl
  | cons d ds ih =>
    rw [List.forall_mem_cons] at h
    rw [List.foldlM_cons, List.flatMap_cons, List.foldlM_append, h.1]
    exact bind_congr fun fs => ih h.2 fs

theorem crtfiles_eq {pdir : Text} {level d : Nat} (hfits : ∀ m ∈ makeFiles nfile pdir level d, m.path.length < maxpathlen) (fs : Disk) :
    crtfiles maxpathlen nfile pdir level d fs = (makeFiles nfile pdir level d).foldlM Make.run fs := by
  rw [makeFiles, List.map_eq_flatMap]
  refine foldlM_block _ (fun f hf fs => ?_) fs
  have hlen := hfits (.crtfile (fullName pdir 'F' level d f)) (List.mem_map.mpr ⟨f, hf, rfl⟩)
  rw [List.foldlM_cons, getfdname_eq hlen]
  exact (bind_pure _).symm

/-- With names that fit, `mktree` makes the calls for the levels that are left. -/
theorem mktree_eq (k : Nat) {pdir : Text} {level : Nat} (hk : nlevel + 1 - level = k)
    (hfits : ∀ m ∈ makes ndir nfile k pdir level, m.path.length < maxpathlen) (fs : Disk) :
    mktree maxpathlen nlevel ndir nfile pdir level fs =
      (makes ndir nfile k pdir level).foldlM Make.run fs >>= fun fs => some (if k = 0 then 1 else 0, fs) := by
  induction k generalizing pdir level fs with
  | zero =>
    rw [mktree, if_pos (by omega)]
    rfl
  | succ k ih =>
    rw [makes_succ, List.forall_mem_append, List.forall_mem_flatMap] at hfits
    obtain ⟨hblocks, hfiles⟩ := hfits
    rw [mktree, if_neg (by omega), makes_succ, List.foldlM_append, bind_assoc, foldlM_block (block ndir nfile k pdir level)]
    · refine bind_congr fun fs => ?_
      rw [crtfiles_eq hfiles]
      rfl
    · intro d hd fs
      have hfit := hblocks d hd
      rw [block, List.forall_mem_append, List.forall_mem_cons] at hfit
      obtain ⟨⟨hdname, hbelow⟩, hleaf⟩ := hfit
      rw [block, List.foldlM_append, List.foldlM_cons, bind_assoc]
      simp only
      rw [getfdname_eq hdname]
      refine bind_congr fun fs => ?_
      rw [ih (by omega) hbelow, bind_assoc]
      refine bind_congr fun fs => ?_
      by_cases h0 : k = 0
      · rw [if_pos h0] at hleaf
        rw [if_pos h0, if_pos h0, ← crtfiles_eq hleaf]
        rfl
      · rw [if_neg h0, if_neg h0]
        rfl

end

/-! ## A run of calls -/

def dirsOf (ms : List Make) : List Text :=
  ms.filterMap fun m =>
    match m with
    | .mkdir p => some p
    | .crtfile _ => none

def filesOf (ms : List Make) : List Text :=
  ms.filterMap fun m =>
    match m with
    | .mkdir _ => none
    | .crtfile p => some p

@[simp] theorem dirsOf_append (ms ns : List Make) : dirsOf (ms ++ ns) = dirsOf ms ++ dirsOf ns := List.filterMap_append

@[simp] theorem filesOf_append (ms ns : List Make) : filesOf (ms ++ ns) = filesOf ms ++ filesOf ns := List.filterMap_append

theorem dirsOf_cons (m : Make) (ms : List Make) : dirsOf (m :: ms) = dirsOf [m] ++ dirsOf ms := dirsOf_append [m] ms

theorem filesOf_cons (m : Make) (ms : List Make) : filesOf (m :: ms) = filesOf [m] ++ filesOf ms := filesOf_append [m] ms

theorem mem_dirsOf {ms : List Make} {p : Text} : p ∈ dirsOf ms ↔ .mkdir p ∈ ms := by
  rw [dirsOf, List.mem_filterMap]
  constructor
  · rintro ⟨m, hm, h⟩
    cases m with
    | mkdir q => exact Option.some.inj h ▸ hm
    | crtfile q => cases h
  · exact fun h => ⟨_, h, rfl⟩

/-- Each call finds its directory among `ds` or those made before. -/
def Rooted : List Text → List Make → Prop
  | _, [] => True
  | ds, m :: ms => parent m.path ∈ ds ∧ Rooted (ds ++ dirsOf [m]) ms

theorem rooted_append {ds : List Text} {ms ns : List Make} : Rooted ds (ms ++ ns) ↔ Rooted ds ms ∧ Rooted (ds ++ dirsOf ms) ns := by
  induction ms generalizing ds with
  | nil => simp [Rooted, dirsOf]
  | cons m ms ih =>
    rw [List.cons_append, Rooted, ih, Rooted, and_assoc, dirsOf_cons m ms, List.append_assoc]

theorem Rooted.mono {ds ds' : List Text} {ms : List Make} (h : Rooted ds ms) (hsub : ds ⊆ ds') : Rooted ds' ms := by
  induction ms generalizing ds ds' with
  | nil => trivial
  | cons m ms ih =>
    have hfront : ds ⊆ ds' ++ dirsOf [m] := List.Subset.trans hsub (List.subset_append_left ..)
    exact ⟨hsub h.1, ih h.2 (List.append_subset.mpr ⟨hfront, List.subset_append_right ..⟩)⟩

theorem rooted_flatMap {α : Type} {ds : List Text} {l : List α} {calls : α → List Make} (h : ∀ d ∈ l, Rooted ds (calls d)) :
    Rooted ds (l.flatMap calls) := by
  induction l with
  | nil => trivial
  | cons d l ih =>
    rw [List.forall_mem_cons] at h
    rw [List.flatMap_cons, rooted_append]
    exact ⟨h.1, (ih h.2).mono (List.subset_append_left ..)⟩

/-- Calls for new paths in directories that are there. -/
theorem run_eq {ms : List Make} {fs : Disk} (hrooted : Rooted fs.dirs ms) (hnodup : (ms.map Make.path).Nodup)
    (hfresh : ∀ m ∈ ms, m.path ∉ fs.dirs ∧ m.path ∉ fs.files) :
    ms.foldlM Make.run fs = some ⟨fs.dirs ++ dirsOf ms, fs.files ++ filesOf ms, fs.calls ++ ms.map Make.path⟩ := by
  induction ms generalizing fs with
  | nil => simp [dirsOf, filesOf]
  | cons m ms ih =>
    rw [List.map_cons, List.nodup_cons] at hnodup
    rw [List.forall_mem_cons] at hfresh
    obtain ⟨hparent, hrest⟩ := hrooted
    obtain ⟨⟨hdirs, hfiles⟩, hfresh⟩ := hfresh
    have hother : ∀ n ∈ ms, n.path ≠ m.path := fun n hn h => hnodup.1 (h ▸ List.mem_map_of_mem hn)
    have hrun : m.run fs = some ⟨fs.dirs ++ dirsOf [m], fs.files ++ filesOf [m], fs.calls ++ [m.path]⟩ := by
      cases m with
      | mkdir p => simp_all [Make.run, Disk.mkdir, Make.path, dirsOf, filesOf]
      | crtfile p => simp_all [Make.run, Disk.crtfile, Make.path, dirsOf, filesOf]
    have hnew : ∀ n ∈ ms, n.path ∉ fs.dirs ++ dirsOf [m] ∧ n.path ∉ fs.files ++ filesOf [m] := by
      intro n hn
      have hone : ∀ q, q ∈ dirsOf [m] ∨ q ∈ filesOf [m] → q = m.path := by
        cases m with
        | mkdir p => simp [dirsOf, filesOf, Make.path]
        | crtfile p => simp [dirsOf, filesOf, Make.path]
      exact ⟨fun h => (List.mem_append.mp h).elim (hfresh n hn).1 fun h => hother n hn (hone _ (.inl h)),
        fun h => (List.mem_append.mp h).elim (hfresh n hn).2 fun h => hother n hn (hone _ (.inr h))⟩
    rw [List.foldlM_cons, hrun]
    refine (ih hrest hnodup.2 hnew).trans ?_
    rw [dirsOf_cons m ms, filesOf_cons m ms]
    simp

/-! ## The paths of the calls -/

section

variable {ndir nfile k level d : Nat} {p : Text} {m : Make}

theorem mem_makeFiles : m ∈ makeFiles nfile p level d ↔ ∃ f < nfile, .crtfile (fullName p 'F' level d f) = m := by
  simp [makeFiles]

theorem makes_below (h : m ∈ makes ndir nfile k p level) : Below p m.path := by
  induction k generalizing p level m with
  | zero => exact absurd h List.not_mem_nil
  | succ k ih =>
    have hfiles : ∀ {q : Text} {l e : Nat} {m : Make}, m ∈ makeFiles nfile q l e → Below q m.path := by
      intro q l e m hm
      obtain ⟨f, -, rfl⟩ := mem_makeFiles.mp hm
      exact below_fullName q 'F' l e f
    rw [makes_succ] at h
    rcases List.mem_append.mp h with h | h
    · obtain ⟨d, -, h⟩ := List.mem_flatMap.mp h
      have hdir := below_fullName p 'D' level d 0
      rcases List.mem_append.mp h with h | h
      · rcases List.mem_cons.mp h with rfl | h
        · exact hdir
        · exact hdir.trans (ih h)
      · split at h
        · exact hdir.trans (hfiles h)
        · exact absurd h List.not_mem_nil
    · exact hfiles h

/-- The calls for a directory are for that directory or below it. -/
theorem block_cases (h : m ∈ block ndir nfile k p level d) :
    m = .mkdir (fullName p 'D' level d 0) ∨ Below (fullName p 'D' level d 0) m.path := by
  rcases List.mem_append.mp h with h | h
  · exact (List.mem_cons.mp h).imp_right makes_below
  · split at h
    · obtain ⟨f, -, rfl⟩ := mem_makeFiles.mp h
      exact .inr (below_fullName _ 'F' (level + 1) d f)
    · exact absurd h List.not_mem_nil

theorem top_of_block (h : m ∈ block ndir nfile k p level d) : top p m.path = entry 'D' level d 0 := by
  rcases block_cases h with rfl | h
  · exact top_fullName p dir_ne_slash level d 0
  · exact top_of_below dir_ne_slash h

theorem top_of_makeFiles (h : m ∈ makeFiles nfile p level d) : ∃ f, top p m.path = entry 'F' level d f := by
  obtain ⟨f, -, rfl⟩ := mem_makeFiles.mp h
  exact ⟨f, top_fullName p file_ne_slash level d f⟩

theorem nodup_makeFiles (nfile : Nat) (p : Text) (level d : Nat) : ((makeFiles nfile p level d).map Make.path).Nodup := by
  rw [makeFiles, List.map_map]
  refine List.Nodup.map (fun f f' h => ?_) List.nodup_range
  have hentry : entry 'F' level d f = entry 'F' level d f' := List.tail_eq_of_cons_eq (List.append_cancel_left h)
  exact (entry_injective hentry).2.2

/-- No path is made twice. -/
theorem nodup_makes (ndir nfile k : Nat) (p : Text) (level : Nat) : ((makes ndir nfile k p level).map Make.path).Nodup := by
  induction k generalizing p level with
  | zero => exact List.nodup_nil
  | succ k ih =>
    rw [makes_succ, List.map_append, List.nodup_append, List.map_flatMap, List.nodup_flatMap]
    refine ⟨⟨fun d _ => ?_, ?_⟩, nodup_makeFiles nfile p level ndir, ?_⟩
    · -- In one block: the directory, what is below it, or for a leaf its files.
      have hself : ∀ m : Make, Below (fullName p 'D' level d 0) m.path → m.path ≠ fullName p 'D' level d 0 := by
        intro m h heq
        have hlt := h.length_lt
        rw [heq] at hlt
        omega
      by_cases h0 : k = 0
      · subst h0
        rw [block, if_pos rfl, makes, List.singleton_append, List.map_cons, List.nodup_cons]
        refine ⟨fun h => ?_, nodup_makeFiles nfile _ _ d⟩
        obtain ⟨m, hm, hpath⟩ := List.mem_map.mp h
        obtain ⟨f, -, rfl⟩ := mem_makeFiles.mp hm
        exact hself _ (below_fullName _ 'F' (level + 1) d f) hpath
      · rw [block, if_neg h0, List.append_nil, List.map_cons, List.nodup_cons]
        refine ⟨fun h => ?_, ih _ _⟩
        obtain ⟨m, hm, hpath⟩ := List.mem_map.mp h
        exact hself m (makes_below hm) hpath
    · refine List.nodup_range.imp fun hne => ?_
      rintro q hq hq'
      obtain ⟨m, hm, rfl⟩ := List.mem_map.mp hq
      obtain ⟨m', hm', hpath⟩ := List.mem_map.mp hq'
      have htop := top_of_block hm'
      rw [hpath, top_of_block hm] at htop
      exact hne (entry_injective htop).2.1
    · rintro q hq q' hq' rfl
      obtain ⟨d, -, hq⟩ := List.mem_flatMap.mp hq
      obtain ⟨m, hm, rfl⟩ := List.mem_map.mp hq
      obtain ⟨m', hm', hpath⟩ := List.mem_map.mp hq'
      obtain ⟨f, htop⟩ := top_of_makeFiles hm'
      rw [hpath, top_of_block hm] at htop
      exact absurd (entry_injective htop).1 (by decide)

theorem rooted_makeFiles {ds : List Text} (hp : p ∈ ds) : Rooted ds (makeFiles nfile p level d) := by
  rw [makeFiles, List.map_eq_flatMap]
  exact rooted_flatMap fun f _ => ⟨(parent_fullName p file_ne_slash level d f).symm ▸ hp, trivial⟩

theorem rooted_makes {ds : List Text} (hp : p ∈ ds) : Rooted ds (makes ndir nfile k p level) := by
  induction k generalizing p level ds with
  | zero => trivial
  | succ k ih =>
    rw [makes_succ, rooted_append]
    refine ⟨rooted_flatMap fun d _ => ?_, (rooted_makeFiles hp).mono (List.subset_append_left ..)⟩
    rw [block, rooted_append]
    have hmade : fullName p 'D' level d 0 ∈ ds ++ dirsOf [.mkdir (fullName p 'D' level d 0)] := List.mem_append_right ds List.mem_cons_self
    refine ⟨⟨(parent_fullName p dir_ne_slash level d 0).symm ▸ hp, ih hmade⟩, ?_⟩
    split
    · refine rooted_makeFiles ?_
      rw [dirsOf_cons, ← List.append_assoc]
      exact List.mem_append_left _ hmade
    · trivial

end

/-! ## The directories of a level -/

/-- The number of components of a path. -/
def depth (t : Text) : Nat := t.count '/'

theorem depth_fullName (p : Text) {type : Char} (htype : type ≠ '/') (level dir file : Nat) :
    depth (fullName p type level dir file) = depth p + 1 := by
  rw [depth, fullName, List.count_append, List.count_cons_self, List.count_eq_zero_of_not_mem (slash_notMem_entry htype level dir file)]
  rfl

theorem Below.depth_lt {p t : Text} (h : Below p t) : depth p < depth t := by
  have hle : (p ++ ['/']).count '/' ≤ depth t := h.sublist.count_le '/'
  rw [List.count_append, List.count_singleton_self] at hle
  exact hle

theorem dirsOf_flatMap {α : Type} (l : List α) (calls : α → List Make) :
    dirsOf (l.flatMap calls) = l.flatMap fun d => dirsOf (calls d) := by
  induction l with
  | nil => rfl
  | cons d l ih => rw [List.flatMap_cons, dirsOf_append, ih, List.flatMap_cons]

theorem filesOf_flatMap {α : Type} (l : List α) (calls : α → List Make) :
    filesOf (l.flatMap calls) = l.flatMap fun d => filesOf (calls d) := by
  induction l with
  | nil => rfl
  | cons d l ih => rw [List.flatMap_cons, filesOf_append, ih, List.flatMap_cons]

section

variable {ndir nfile k level d : Nat} {p : Text}

theorem dirsOf_makeFiles (nfile : Nat) (p : Text) (level d : Nat) : dirsOf (makeFiles nfile p level d) = [] := by
  simp [dirsOf, makeFiles]

theorem filesOf_makeFiles (nfile : Nat) (p : Text) (level d : Nat) :
    filesOf (makeFiles nfile p level d) = (List.range nfile).map fun f => fullName p 'F' level d f := by
  simp [filesOf, makeFiles, List.filterMap_map]

theorem dirsOf_block (ndir nfile k : Nat) (p : Text) (level d : Nat) :
    dirsOf (block ndir nfile k p level d) =
      fullName p 'D' level d 0 :: dirsOf (makes ndir nfile k (fullName p 'D' level d 0) (level + 1)) := by
  rw [block, dirsOf_append, dirsOf_cons]
  split
  · rw [dirsOf_makeFiles, List.append_nil]
    rfl
  · exact List.append_nil _

theorem dirsOf_makes_succ (ndir nfile k : Nat) (p : Text) (level : Nat) :
    dirsOf (makes ndir nfile (k + 1) p level) = (List.range ndir).flatMap fun d => dirsOf (block ndir nfile k p level d) := by
  rw [makes_succ, dirsOf_append, dirsOf_makeFiles, List.append_nil, dirsOf_flatMap]

theorem below_of_mem_dirsOf {q : Text} (h : q ∈ dirsOf (makes ndir nfile k p level)) : Below p q := makes_below (mem_dirsOf.mp h)

/-- At each depth there are `ndir` directories for each directory of the depth before, up to the last level. -/
theorem countP_depth (ndir nfile k : Nat) (p : Text) (level i : Nat) :
    (dirsOf (makes ndir nfile k p level)).countP (fun q => depth q = depth p + (i + 1)) = if i < k then ndir ^ (i + 1) else 0 := by
  induction k generalizing p level i with
  | zero => rfl
  | succ k ih =>
    have hblock : ∀ d, (dirsOf (block ndir nfile k p level d)).countP (fun q => depth q = depth p + (i + 1)) =
        if i < k + 1 then ndir ^ i else 0 := by
      intro d
      have hdname := depth_fullName p dir_ne_slash level d 0
      rw [dirsOf_block, List.countP_cons, hdname]
      cases i with
      | zero =>
        have hnone : (dirsOf (makes ndir nfile k (fullName p 'D' level d 0) (level + 1))).countP
            (fun q => depth q = depth p + (0 + 1)) = 0 := by
          rw [List.countP_eq_zero]
          intro q hq heq
          have hlt := (below_of_mem_dirsOf hq).depth_lt
          rw [hdname, of_decide_eq_true heq] at hlt
          omega
        rw [hnone]
        simp
      | succ i =>
        have hsame : depth p + (i + 1 + 1) = depth (fullName p 'D' level d 0) + (i + 1) := by omega
        rw [hsame, ih]
        simp [hdname]
    rw [dirsOf_makes_succ, List.countP_flatMap, Function.comp_def, List.map_congr_left fun d _ => hblock d, List.map_const',
      List.sum_replicate_nat, List.length_range, Nat.pow_succ']
    split
    · rfl
    · rfl

theorem depth_le {q : Text} (h : q ∈ dirsOf (makes ndir nfile k p level)) : depth q ≤ depth p + k := by
  induction k generalizing p level with
  | zero => exact absurd h List.not_mem_nil
  | succ k ih =>
    rw [dirsOf_makes_succ] at h
    obtain ⟨d, -, h⟩ := List.mem_flatMap.mp h
    have hdname := depth_fullName p dir_ne_slash level d 0
    rw [dirsOf_block] at h
    rcases List.mem_cons.mp h with rfl | h
    · omega
    · have hle := ih h
      omega

/-! ## The files of a directory -/

/-- The directory of a file is the one for which the calls are made, or below it. -/
theorem parent_of_makes {t : Text} (h : t ∈ filesOf (makes ndir nfile k p level)) : parent t = p ∨ Below p (parent t) := by
  induction k generalizing p level with
  | zero => exact absurd h List.not_mem_nil
  | succ k ih =>
    have hfiles : ∀ {q : Text} {l e : Nat} {t : Text}, t ∈ filesOf (makeFiles nfile q l e) → parent t = q := by
      intro q l e t ht
      rw [filesOf_makeFiles] at ht
      obtain ⟨f, -, rfl⟩ := List.mem_map.mp ht
      exact parent_fullName q file_ne_slash l e f
    rw [makes_succ, filesOf_append, filesOf_flatMap] at h
    rcases List.mem_append.mp h with h | h
    · obtain ⟨d, -, h⟩ := List.mem_flatMap.mp h
      have hdir := below_fullName p 'D' level d 0
      rw [block, filesOf_append] at h
      right
      rcases List.mem_append.mp h with h | h
      · rcases ih h with h | h
        · exact h ▸ hdir
        · exact hdir.trans h
      · split at h
        · exact hfiles h ▸ hdir
        · exact absurd h List.not_mem_nil
    · exact .inl (hfiles h)

theorem parent_of_block {t : Text} (h : t ∈ filesOf (block ndir nfile k p level d)) :
    parent t = fullName p 'D' level d 0 ∨ Below (fullName p 'D' level d 0) (parent t) := by
  rw [block, filesOf_append] at h
  rcases List.mem_append.mp h with h | h
  · exact parent_of_makes h
  · split at h
    · rw [filesOf_makeFiles] at h
      obtain ⟨f, -, rfl⟩ := List.mem_map.mp h
      exact .inl (parent_fullName _ file_ne_slash (level + 1) d f)
    · exact absurd h List.not_mem_nil

theorem countP_makeFiles (nfile : Nat) (p : Text) (level d : Nat) (q : Text) :
    (filesOf (makeFiles nfile p level d)).countP (fun t => parent t = q) = if p = q then nfile else 0 := by
  rw [filesOf_makeFiles, List.countP_map]
  have hparent : ∀ f, parent (fullName p 'F' level d f) = p := fun f => parent_fullName p file_ne_slash level d f
  simp only [Function.comp_def, hparent]
  split
  · rename_i h
    simp [h]
  · rename_i h
    simp [h]

/-- A directory gets its files from one block, or behind the blocks. -/
theorem countP_parent_of_blocks {q : Text} (hq : q = p ∨ q ∈ dirsOf (makes ndir nfile (k + 1) p level))
    (hblocks : ∀ d, (q = fullName p 'D' level d 0 ∨ q ∈ dirsOf (makes ndir nfile k (fullName p 'D' level d 0) (level + 1))) →
      (filesOf (block ndir nfile k p level d)).countP (fun t => parent t = q) = nfile) :
    (filesOf (makes ndir nfile (k + 1) p level)).countP (fun t => parent t = q) = nfile := by
  rw [makes_succ, filesOf_append, filesOf_flatMap, List.countP_append, List.countP_flatMap, countP_makeFiles, Function.comp_def]
  rcases hq with rfl | hq
  · -- The directory itself: no block has a file in it.
    have hnone : ∀ d, (filesOf (block ndir nfile k q level d)).countP (fun t => parent t = q) = 0 := by
      intro d
      rw [List.countP_eq_zero]
      intro t ht heq
      have hbelow : Below q (parent t) := by
        rcases parent_of_block ht with h | h
        · exact h ▸ below_fullName q 'D' level d 0
        · exact (below_fullName q 'D' level d 0).trans h
      have hlt := hbelow.length_lt
      rw [of_decide_eq_true heq] at hlt
      omega
    rw [List.map_congr_left fun d _ => hnone d, if_pos rfl, List.map_const', List.sum_replicate_nat]
    omega
  · -- A directory below: only its own block has files in it.
    have hne : p ≠ q := by
      rintro rfl
      have hlt := (below_of_mem_dirsOf hq).length_lt
      omega
    rw [dirsOf_makes_succ] at hq
    obtain ⟨d, hd, hq⟩ := List.mem_flatMap.mp hq
    rw [dirsOf_block, List.mem_cons] at hq
    have htop : ∀ e, (q = fullName p 'D' level e 0 ∨ Below (fullName p 'D' level e 0) q) → e = d := by
      have hone : ∀ e, (q = fullName p 'D' level e 0 ∨ Below (fullName p 'D' level e 0) q) → top p q = entry 'D' level e 0 := by
        rintro e (rfl | h)
        · exact top_fullName p dir_ne_slash level e 0
        · exact top_of_below dir_ne_slash h
      intro e he
      have heq := (hone e he).symm.trans (hone d (hq.imp_right below_of_mem_dirsOf))
      exact (entry_injective heq).2.1
    have hother : ∀ e, e ≠ d → e ∈ List.range ndir → (filesOf (block ndir nfile k p level e)).countP (fun t => parent t = q) = 0 := by
      intro e he _
      rw [List.countP_eq_zero]
      intro t ht heq
      refine he (htop e ?_)
      have hparent := parent_of_block ht
      rwa [of_decide_eq_true heq] at hparent
    rw [if_neg hne, List.sum_map_eq_nsmul_single d _ hother, List.count_eq_one_of_mem List.nodup_range hd, one_nsmul, hblocks d hq]
    omega

/-- Every directory gets its files, and gets them once. -/
theorem countP_parent (ndir nfile k : Nat) (p : Text) (level : Nat) {q : Text}
    (hq : q = p ∨ q ∈ dirsOf (makes ndir nfile (k + 1) p level)) :
    (filesOf (makes ndir nfile (k + 1) p level)).countP (fun t => parent t = q) = nfile := by
  induction k generalizing p level with
  | zero =>
    refine countP_parent_of_blocks hq fun d hd => ?_
    rcases hd with rfl | hd
    · rw [block, makes, if_pos rfl, List.singleton_append, filesOf_cons]
      exact (countP_makeFiles nfile _ (level + 1) d _).trans (if_pos rfl)
    · exact absurd hd List.not_mem_nil
  | succ k ih =>
    refine countP_parent_of_blocks hq fun d hd => ?_
    rw [block, if_neg (Nat.succ_ne_zero k), List.append_nil, filesOf_cons]
    exact ih _ _ hd

end

/-! ## The tree -/

/-- What `mktree` leaves in the base directory. -/
structure FullTree (nlevel ndir nfile : Nat) (base : Text) (after : Disk) : Prop where
  /-- The directories at each depth. -/
  levels : ∀ i, 1 ≤ i → i ≤ nlevel → after.dirs.countP (fun q => Below base q ∧ depth q = depth base + i) = ndir ^ i
  deepest : ∀ q ∈ after.dirs, Below base q → depth q ≤ depth base + nlevel
  /-- The files of each directory. -/
  files : ∀ q ∈ after.dirs, q = base ∨ Below base q → after.files.countP (fun t => parent t = q) = nfile
  once : after.calls.Nodup

/-- The base directory is there, and empty. -/
structure EmptyBase (base : Text) (dirs files : List Text) : Prop where
  base_mem : base ∈ dirs
  not_below : ∀ p ∈ dirs ++ files, ¬Below base p
  not_in : ∀ p ∈ files, parent p ≠ base

theorem below_parent {t : Text} (h : parent t ≠ []) : Below (parent t) t := by
  have hne : t.rdropWhile (· ≠ '/') ≠ [] := fun hnil => h (by rw [parent, hnil]; rfl)
  have hlast : (t.rdropWhile (· ≠ '/')).getLast hne = '/' := by simpa using List.rdropWhile_last_not (· ≠ '/') t hne
  have hcut := List.dropLast_append_getLast hne
  rw [hlast] at hcut
  unfold Below parent
  rw [hcut]
  exact List.rdropWhile_prefix _ t

/-- Nothing that was there before counts. -/
theorem EmptyBase.files_of {base : Text} {dirs files : List Text} (h : EmptyBase base dirs files) {q : Text}
    (hq : q = base ∨ Below base q) : files.countP (fun t => parent t = q) = 0 := by
  rw [List.countP_eq_zero]
  intro t ht heq
  have heq := of_decide_eq_true heq
  rcases hq with rfl | hq
  · exact h.not_in t ht heq
  · have hne : q ≠ [] := List.ne_nil_of_length_pos (Nat.lt_of_le_of_lt (Nat.zero_le _) hq.length_lt)
    have hbelow := below_parent (heq ▸ hne)
    rw [heq] at hbelow
    exact h.not_below t (List.mem_append_right dirs ht) (hq.trans hbelow)

/-- From an empty base directory, with names that fit into their buffers, the program makes the full tree. -/
theorem mktree_builds (maxpathlen nlevel ndir nfile : Nat) (hnlevel : 1 ≤ nlevel) (base : Text) (dirs files : List Text)
    (hempty : EmptyBase base dirs files) (hfits : ∀ m ∈ makes ndir nfile nlevel base 1, m.path.length < maxpathlen) :
    ∃ after, mktree maxpathlen nlevel ndir nfile base 1 ⟨dirs, files, []⟩ = some (0, after) ∧ FullTree nlevel ndir nfile base after := by
  have hfresh : ∀ m ∈ makes ndir nfile nlevel base 1, m.path ∉ dirs ∧ m.path ∉ files := by
    intro m hm
    have hbelow := makes_below hm
    exact ⟨fun h => hempty.not_below _ (List.mem_append_left files h) hbelow,
      fun h => hempty.not_below _ (List.mem_append_right dirs h) hbelow⟩
  have hrun := @run_eq _ ⟨dirs, files, []⟩ (rooted_makes hempty.base_mem) (nodup_makes ndir nfile nlevel base 1) hfresh
  have hmktree := mktree_eq nlevel (Nat.add_sub_cancel nlevel 1) hfits ⟨dirs, files, []⟩
  rw [hrun, if_neg (by omega)] at hmktree
  refine ⟨_, hmktree, fun i hi hin => ?_, fun q hq hbelow => ?_, fun q hq hwhere => ?_, ?_⟩
  · have hold : dirs.countP (fun q => Below base q ∧ depth q = depth base + i) = 0 := by
      rw [List.countP_eq_zero]
      intro q hq h
      exact hempty.not_below q (List.mem_append_left files hq) (of_decide_eq_true h).1
    have hnew : ∀ q ∈ dirsOf (makes ndir nfile nlevel base 1),
        (decide (Below base q ∧ depth q = depth base + i) = true ↔ decide (depth q = depth base + (i - 1 + 1)) = true) := by
      intro q hq
      rw [decide_eq_true_eq, decide_eq_true_eq, and_iff_right (below_of_mem_dirsOf hq), Nat.sub_add_cancel hi]
    rw [List.countP_append, hold, List.countP_congr hnew, countP_depth, if_pos (by omega), Nat.sub_add_cancel hi, Nat.zero_add]
  · rcases List.mem_append.mp hq with h | h
    · exact absurd hbelow (hempty.not_below q (List.mem_append_left files h))
    · exact depth_le h
  · obtain ⟨k, rfl⟩ := Nat.exists_eq_add_of_le' hnlevel
    have hcases : q = base ∨ q ∈ dirsOf (makes ndir nfile (k + 1) base 1) := by
      refine hwhere.imp_right fun hbelow => (List.mem_append.mp hq).resolve_left fun h => ?_
      exact hempty.not_below q (List.mem_append_left files h) hbelow
    rw [List.countP_append, hempty.files_of hwhere, countP_parent ndir nfile k base 1 hcases, Nat.zero_add]
  · rw [List.nil_append]
    exact nodup_makes ndir nfile nlevel base 1

/-- Two levels of two directories, one file in each. -/
theorem mktree_builds_sample :
    ∃ after, mktree 1024 2 2 1 "/b".toList 1 ⟨["/b".toList], [], []⟩ = some (0, after) ∧ FullTree 2 2 1 "/b".toList after :=
  mktree_builds 1024 2 2 1 (by omega) "/b".toList ["/b".toList] [] ⟨by simp, by decide, by simp⟩ (by decide)

end ZfsTest.Fs
