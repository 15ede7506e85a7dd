import ZfsTest.Files.Links

/-!
# Backup of files, `backup_files` and `restore_all_files`

What is at a path is stored in two trees below `STF_BACKUP`: the content in `files`, a copy of the link in `meta`; an empty file in
`meta` stands for a path at which there is nothing. `restore_all_files` walks the two trees, in the order of `find`.

A link that leads nowhere is backed up wrong: the marker for the missing file is written through the copy of the link, to where it
points (`not_inverse`). And a link is restored by writing its content through it, to where it leads then. The walks pass over what leads
to a directory: they mean the directories of the trees, but a file that has become a link to a directory is passed over too. When every
link leads to something, and would lead there again after the change, and no file has become a link to a directory, backup and restore are
inverse (`inverse`).
-/

namespace ZfsTest.Backup

open Files

/-! ## The code -/

section

variable (limit : Nat) (root : Path)

/-- `${STF_BACKUP_META}${p}` and `${STF_BACKUP_FILES}${p}`. -/
def metaOf (p : Path) : Path := root ++ "meta".toList :: p
def filesOf (p : Path) : Path := root ++ "files".toList :: p

/-- `bUf_IS_FILE_STORED`. -/
def isFileStored (fs : Fs) (p : Path) : Bool := isFile fs limit (filesOf root p) || present fs limit (metaOf root p)

/-- `bUf_BACKUP_FILE`; there is no result when it ends in `bUf_BAIL`. -/
def backupFile (fs : Fs) (p : Path) : Option Fs := do
  if isFileStored limit root fs p then none
  let fs ← match fs p with
    | .link t => symlink fs t (metaOf root p)
    | _ => some fs
  if present fs limit p then
    let c ← cat fs limit p
    write fs limit (filesOf root p) c
  else touch fs limit (metaOf root p)

/-- `backup_files`. -/
def backupFiles (fs : Fs) (ps : List Path) : Option Fs := ps.foldlM (backupFile limit root) fs

/-- `bUf_RESTORE_FILE`, without `-n`; `save` is the option `-s`. -/
def restoreFile (save : Bool) (fs : Fs) (p : Path) : Option Fs := do
  if !isFileStored limit root fs p then none
  let fs := remove fs p
  let fs ← match fs (metaOf root p) with
    | .link t => symlink fs t p
    | _ => some fs
  let fs ← if isFile fs limit (filesOf root p) then (cat fs limit (filesOf root p)).bind (write fs limit p) else some fs
  if save then some fs else some (remove (remove fs (filesOf root p)) (metaOf root p))

/-- The body of the two loops of `restore_all_files`. -/
def restoreFound (save : Bool) (fs : Fs) (p : Path) : Option Fs :=
  if p ≠ [] ∧ isDirectory fs limit p = false then restoreFile limit root save fs p else some fs

/-- One of the two loops, over what `find` has printed. -/
def restoreWalk (save : Bool) (fs : Fs) (ps : List Path) : Option Fs := ps.foldlM (restoreFound limit root save) fs

end

/-- What `find` prints of a tree, in some order. -/
def Found (fs : Fs) (tree : Path → Path) (ps : List Path) : Prop := ps.Nodup ∧ ∀ p, p ∈ ps ↔ fs (tree p) ≠ .absent

/-! ## Backup and restore are inverse -/

section

variable (limit : Nat) (root : Path) (before : Fs) (ps : List Path)

/-- The end of a backed-up link. -/
def End (q : Path) : Prop := ∃ p ∈ ps, (before p).isLink = true ∧ realpath before limit p = some q

/-- What is to be so after a restore: the paths, and the regular files that their links point to. -/
def Restored (fs : Fs) : Prop :=
  (∀ p ∈ ps, fs p = before p) ∧ ∀ q c, End limit before ps q → before q = .file c → fs q = before q

/-- `restore_all_files`, in every order of the walks, succeeds and restores; `stored` tells what is in the trees afterwards. -/
def Restores (save : Bool) (later : Fs) (stored : Fs → Prop) : Prop :=
  ∀ ms, Found later (metaOf root) ms → ∃ mid, restoreWalk limit root save later ms = some mid ∧
    ∀ ds, Found mid (filesOf root) ds → ∃ fs, restoreWalk limit root save mid ds = some fs ∧
      Restored limit before ps fs ∧ stored fs

/-- A change of the paths and of the files that their links point to. The directories stay. -/
structure Change (fs later : Fs) : Prop where
  same : ∀ x, x ∉ ps → ¬End limit before ps x → later x = fs x
  dirs : ∀ x, later x = .dir ↔ fs x = .dir

/-- Nothing is stored: the two trees have no more than directories, for directories. -/
def Unstored (fs : Fs) : Prop :=
  ∀ p, (fs (metaOf root p) = .absent ∨ fs (metaOf root p) = .dir ∧ fs p = .dir) ∧
    (fs (filesOf root p) = .absent ∨ fs (filesOf root p) = .dir ∧ fs p = .dir)

/-- A backup changes nothing outside of `STF_BACKUP`; after a change that is `allowed`, restoring gives what was backed up. -/
def Inverse (allowed : Fs → Prop) : Prop :=
  ∀ fs, backupFiles limit root before ps = some fs → (∀ x, ¬root <+: x → fs x = before x) ∧
    ∀ later, Change limit before ps fs later → allowed later →
      Restores limit root before ps false later (Unstored root) ∧
      Restores limit root before ps true later
        (fun r => ∀ p, r (metaOf root p) = later (metaOf root p) ∧ r (filesOf root p) = later (filesOf root p))

/-- Nothing is stored, and each link of the list leads to something. -/
structure Ready : Prop where
  top : before [] = .dir
  empty : Unstored root before
  links : ∀ p ∈ ps, (before p).isLink = true → present before limit p = true

/-- The paths of a backup that has been successful: none is a directory, and the links lead to regular files. -/
structure Plain : Prop extends Ready limit root before ps where
  noDir : ∀ p ∈ ps, before p ≠ .dir
  files : ∀ p ∈ ps, (before p).isLink = true → ∃ q c, realpath before limit p = some q ∧ before q = .file c

/-- The links that a backed-up link leads through are as they were, none leads on from its end, and nothing leads to a directory. -/
structure Steady (fs : Fs) : Prop where
  way : ∀ p ∈ ps, (before p).isLink = true → ∀ x ∈ (trail before limit p).tail, fs x = before x
  ends : ∀ q, End limit before ps q → (fs q).isLink = false
  noDir : ∀ p ∈ ps, isDirectory fs limit p = false

end

/-! ## The trees -/

variable {limit : Nat} {root : Path} {before : Fs} {ps : List Path} {p q : Path}

def InStore (root : Path) (x : Path) : Prop := ∃ p, x = metaOf root p ∨ x = filesOf root p

theorem metaOf_inj (h : metaOf root p = metaOf root q) : p = q := List.tail_eq_of_cons_eq (List.append_cancel_left h)

theorem filesOf_inj (h : filesOf root p = filesOf root q) : p = q := List.tail_eq_of_cons_eq (List.append_cancel_left h)

theorem metaOf_ne_filesOf (p q : Path) : metaOf root p ≠ filesOf root q := by
  intro h
  have hname : "meta".toList = "files".toList := List.head_eq_of_cons_eq (List.append_cancel_left h)
  revert hname
  decide

theorem InStore.inside {x : Path} (h : InStore root x) : root <+: x := by
  obtain ⟨p, rfl | rfl⟩ := h
  · exact List.prefix_append _ _
  · exact List.prefix_append _ _

theorem inStore_meta (p : Path) : InStore root (metaOf root p) := ⟨p, Or.inl rfl⟩

theorem inStore_files (p : Path) : InStore root (filesOf root p) := ⟨p, Or.inr rfl⟩

theorem Ready.inStore (h : Ready limit root before ps) {x : Path} (hx : InStore root x) : before x = .absent ∨ before x = .dir := by
  obtain ⟨p, rfl | rfl⟩ := hx
  · exact (h.empty p).1.imp_right And.left
  · exact (h.empty p).2.imp_right And.left

theorem Ready.absent (h : Ready limit root before ps) (hp : before p ≠ .dir) :
    before (metaOf root p) = .absent ∧ before (filesOf root p) = .absent :=
  ⟨(h.empty p).1.resolve_right fun hd => hp hd.2, (h.empty p).2.resolve_right fun hd => hp hd.2⟩

theorem Plain.end_eq (h : Plain limit root before ps) (hq : End limit before ps q) : ∃ c, before q = .file c := by
  obtain ⟨p, hp, hlink, hfollow⟩ := hq
  obtain ⟨q', c, hfollow', hfile⟩ := h.files p hp hlink
  rw [hfollow] at hfollow'
  cases hfollow'
  exact ⟨c, hfile⟩

theorem Plain.end_notInStore (h : Plain limit root before ps) (hq : End limit before ps q) : ¬InStore root q := by
  intro hs
  obtain ⟨c, hc⟩ := h.end_eq hq
  rcases h.inStore hs with hx | hx
  · rw [hx] at hc
    cases hc
  · rw [hx] at hc
    cases hc

theorem Ready.link_notInStore (h : Ready limit root before ps) {x : Path} (hx : (before x).isLink = true) : ¬InStore root x := by
  intro hs
  rcases h.inStore hs with hx' | hx'
  · rw [hx'] at hx
    cases hx
  · rw [hx'] at hx
    cases hx

/-! ## Backup -/

/-- What is stored for a path. -/
def savedMeta : Node → Node
  | .absent => .file []
  | .file _ => .absent
  | .link t => .link t
  | .dir => .absent

def savedFile : Option Text → Node
  | some c => .file c
  | none => .absent

def Saved (limit : Nat) (root : Path) (before fs : Fs) (p : Path) : Prop :=
  fs (metaOf root p) = savedMeta (before p) ∧ fs (filesOf root p) = savedFile (cat before limit p)

/-- A path of a successful backup. -/
def Good (limit : Nat) (before : Fs) (p : Path) : Prop :=
  before p ≠ .dir ∧ ((before p).isLink = true → ∃ q c, realpath before limit p = some q ∧ before q = .file c)

/-- The backup of a directory, or of a link to one, is not successful. -/
theorem good_of_backupFile (h : Ready limit root before ps) (hp : p ∈ ps) (hout : ¬root <+: p) {fs fs' : Fs}
    (hsame : ∀ x, ¬InStore root x → fs x = before x) (hdirs : ∀ x, before x = .dir → fs x = .dir)
    (hstep : backupFile limit root fs p = some fs') : Good limit before p := by
  have hpout : fs p = before p := hsame p fun hs => hout hs.inside
  have hstored : isFileStored limit root fs p = false := by
    by_contra hst
    simp [backupFile, hst] at hstep
  cases hb : before p with
  | absent | file c => simp [Good, hb, Node.isLink]
  | dir =>
    have hself : realpath fs limit p = some p := realpath_of_not_link (by rw [hpout, hb]; rfl) _
    simp [backupFile, hstored, present_eq hself, hpout, hb, cat, hself] at hstep
  | link t =>
    have hlink : (before p).isLink = true := by rw [hb]; rfl
    obtain ⟨q, hq, hsome⟩ : ∃ q, realpath before limit p = some q ∧ before q ≠ .absent := by
      have hpresent := h.links p hp hlink
      rw [present, Option.any_eq_true] at hpresent
      obtain ⟨q, hq, hne⟩ := hpresent
      exact ⟨q, hq, of_decide_eq_true hne⟩
    refine ⟨by rw [hb]; exact Node.noConfusion, fun _ => ⟨q, ?_⟩⟩
    cases hbq : before q with
    | absent => exact absurd hbq hsome
    | file c => exact ⟨c, hq, rfl⟩
    | link u =>
      have hend := realpath_end hq
      rw [hbq] at hend
      cases hend
    | dir =>
      -- `cat` fails at the directory
      exfalso
      by_cases hmeta : fs (metaOf root p) = .absent
      · have hkeep : ∀ x, ¬InStore root x → Function.update fs (metaOf root p) (.link t) x = before x := by
          intro x hx
          have hne : x ≠ metaOf root p := by
            rintro rfl
            exact hx (inStore_meta p)
          rw [Function.update_of_ne hne, hsame x hx]
        have hdir : Function.update fs (metaOf root p) (.link t) q = .dir := by
          have hne : q ≠ metaOf root p := by
            rintro rfl
            rw [hdirs _ hbq] at hmeta
            cases hmeta
          rw [Function.update_of_ne hne, hdirs q hbq]
        have hfollow : realpath (Function.update fs (metaOf root p) (.link t)) limit p = some q :=
          realpath_congr hq (fun x hx => hkeep x (h.link_notInStore (mem_trail hx))) (by rw [hdir]; rfl)
        simp [backupFile, hstored, hpout, hb, symlink, hmeta, present_eq hfollow, hdir, cat, hfollow] at hstep
      · simp [backupFile, hstored, hpout, hb, symlink, hmeta] at hstep

theorem backupFile_eq (h : Ready limit root before ps) (hgood : Good limit before p) (hout : ¬root <+: p) {fs : Fs}
    (hsame : ∀ x, ¬InStore root x → fs x = before x) (hmeta : fs (metaOf root p) = .absent) (hfiles : fs (filesOf root p) = .absent) :
    backupFile limit root fs p =
      some (Function.update (Function.update fs (metaOf root p) (savedMeta (before p))) (filesOf root p)
        (savedFile (cat before limit p))) := by
  have hpout : ¬InStore root p := fun hs => hout hs.inside
  have hstored : isFileStored limit root fs p = false := by
    rw [isFileStored, isFile_of_absent hfiles, present_of_absent hmeta]
    rfl
  have hfollow : realpath fs limit (metaOf root p) = some (metaOf root p) := realpath_of_not_link (by rw [hmeta]; rfl) _
  unfold backupFile
  rw [hstored, hsame p hpout]
  cases hb : before p with
  | absent =>
    have hno : fs p = .absent := (hsame p hpout).trans hb
    have hread : cat before limit p = none := by
      have hlink : (before p).isLink = false := by rw [hb]; rfl
      rw [cat, realpath_of_not_link hlink, Option.bind_some, hb]
    have hkeep : Function.update (Function.update fs (metaOf root p) (.file [])) (filesOf root p) .absent =
        Function.update fs (metaOf root p) (.file []) := by
      rw [Function.update_eq_self_iff, Function.update_of_ne (metaOf_ne_filesOf p p).symm, hfiles]
    rw [hread, savedMeta, savedFile, hkeep]
    simp [present_of_absent hno, touch, hfollow, hmeta]
  | file c =>
    have hfile : fs p = .file c := (hsame p hpout).trans hb
    have hself : realpath fs limit p = some p := realpath_of_not_link (by rw [hfile]; rfl) _
    have hfself : realpath fs limit (filesOf root p) = some (filesOf root p) := realpath_of_not_link (by rw [hfiles]; rfl) _
    have hread : cat before limit p = some c := cat_eq (realpath_of_not_link (by rw [hb]; rfl) _) hb
    have hkeep : Function.update fs (metaOf root p) .absent = fs := by rw [Function.update_eq_self_iff, hmeta]
    rw [hread, savedMeta, savedFile, hkeep]
    simp [present_eq hself, hfile, cat_eq hself hfile, write_eq hfself (by rw [hfiles]; exact Node.noConfusion)]
  | dir => exact absurd hb hgood.1
  | link t =>
    obtain ⟨q, c, hq, hc⟩ := hgood.2 (by rw [hb]; rfl)
    have hlinked : ∀ x, ¬InStore root x → Function.update fs (metaOf root p) (.link t) x = before x := by
      intro x hx
      have hne : x ≠ metaOf root p := by
        rintro rfl
        exact hx (inStore_meta p)
      rw [Function.update_of_ne hne, hsame x hx]
    have hqin : ¬InStore root q := by
      intro hs
      rcases h.inStore hs with hx | hx
      · rw [hx] at hc
        cases hc
      · rw [hx] at hc
        cases hc
    have hq' : Function.update fs (metaOf root p) (.link t) q = .file c := (hlinked q hqin).trans hc
    have hfollow' : realpath (Function.update fs (metaOf root p) (.link t)) limit p = some q :=
      realpath_congr hq (fun x hx => hlinked x (h.link_notInStore (mem_trail hx))) (by rw [hq']; rfl)
    have hfiles' : Function.update fs (metaOf root p) (.link t) (filesOf root p) = .absent := by
      rw [Function.update_of_ne (metaOf_ne_filesOf p p).symm, hfiles]
    have hfself : realpath (Function.update fs (metaOf root p) (.link t)) limit (filesOf root p) = some (filesOf root p) :=
      realpath_of_not_link (by rw [hfiles']; rfl) _
    rw [cat_eq hq hc, savedMeta, savedFile]
    simp [symlink, hmeta, present_eq hfollow', hq', cat_eq hfollow' hq', write_eq hfself (by rw [hfiles']; exact Node.noConfusion)]

/-- What has been stored, and that nothing else has changed. -/
structure BackedUp (limit : Nat) (root : Path) (before fs : Fs) (done : List Path) : Prop where
  good : ∀ p ∈ done, Good limit before p
  saved : ∀ p ∈ done, Saved limit root before fs p
  same : ∀ x, (∀ p ∈ done, x ≠ metaOf root p ∧ x ≠ filesOf root p) → fs x = before x

theorem BackedUp.outside {fs : Fs} {done : List Path} (hb : BackedUp limit root before fs done) {x : Path} (hx : ¬InStore root x) :
    fs x = before x :=
  hb.same x fun d _ => ⟨fun heq => hx ⟨d, Or.inl heq⟩, fun heq => hx ⟨d, Or.inr heq⟩⟩

/-- The directories are still there. -/
theorem BackedUp.dirs (h : Ready limit root before ps) {fs : Fs} {done : List Path} (hb : BackedUp limit root before fs done) {x : Path}
    (hx : before x = .dir) : fs x = .dir := by
  rw [← hx]
  refine hb.same x fun p hp => ?_
  obtain ⟨hm, hf⟩ := h.absent (hb.good p hp).1
  constructor
  · rintro rfl
    rw [hm] at hx
    cases hx
  · rintro rfl
    rw [hf] at hx
    cases hx

theorem BackedUp.step (h : Ready limit root before ps) {done : List Path} {fs fs' : Fs} (hb : BackedUp limit root before fs done)
    (hp : p ∈ ps) (hout : ¬root <+: p) (hnew : p ∉ done) (hstep : backupFile limit root fs p = some fs') :
    BackedUp limit root before fs' (p :: done) := by
  have hgood := good_of_backupFile h hp hout (fun x => hb.outside) (fun x => hb.dirs h) hstep
  have hnot : ∀ d ∈ done, d ≠ p := fun d hd heq => hnew (heq ▸ hd)
  have hmeta : fs (metaOf root p) = .absent := by
    rw [hb.same _ fun d hd => ⟨fun heq => hnot d hd (metaOf_inj heq).symm, metaOf_ne_filesOf p d⟩]
    exact (h.absent hgood.1).1
  have hfiles : fs (filesOf root p) = .absent := by
    rw [hb.same _ fun d hd => ⟨(metaOf_ne_filesOf d p).symm, fun heq => hnot d hd (filesOf_inj heq).symm⟩]
    exact (h.absent hgood.1).2
  rw [backupFile_eq h hgood hout (fun x => hb.outside) hmeta hfiles] at hstep
  cases hstep
  refine ⟨List.forall_mem_cons.mpr ⟨hgood, hb.good⟩, ?_, ?_⟩
  · intro d hd
    rcases List.mem_cons.mp hd with rfl | hd
    · constructor
      · rw [Function.update_of_ne (metaOf_ne_filesOf d d), Function.update_self]
      · rw [Function.update_self]
    · obtain ⟨hm, hf⟩ := hb.saved d hd
      constructor
      · rw [Function.update_of_ne (metaOf_ne_filesOf d p), Function.update_of_ne fun heq => hnot d hd (metaOf_inj heq), hm]
      · rw [Function.update_of_ne fun heq => hnot d hd (filesOf_inj heq),
          Function.update_of_ne (metaOf_ne_filesOf p d).symm, hf]
  · intro x hx
    obtain ⟨hxm, hxf⟩ := hx p List.mem_cons_self
    rw [Function.update_of_ne hxf, Function.update_of_ne hxm]
    exact hb.same x fun d hd => hx d (List.mem_cons_of_mem p hd)

theorem backupFiles_backedUp (h : Ready limit root before ps) (hout : ∀ p ∈ ps, ¬root <+: p) {rest done : List Path}
    (hrest : rest.Nodup) (hsub : rest ⊆ ps) (hnew : ∀ p ∈ rest, p ∉ done) {fs fs' : Fs} (hb : BackedUp limit root before fs done)
    (hrun : backupFiles limit root fs rest = some fs') :
    BackedUp limit root before fs' (rest.reverse ++ done) := by
  induction rest generalizing fs done with
  | nil =>
    cases hrun
    exact hb
  | cons p rest ih =>
    rw [List.nodup_cons] at hrest
    have hp := hsub List.mem_cons_self
    rw [backupFiles, List.foldlM_cons, Option.bind_eq_bind, Option.bind_eq_some_iff] at hrun
    obtain ⟨fs₁, hstep, hrun⟩ := hrun
    have hone := hb.step h hp (hout p hp) (hnew p List.mem_cons_self) hstep
    rw [List.reverse_cons, List.append_assoc, List.singleton_append]
    refine ih hrest.2 (fun x hx => hsub (List.mem_cons_of_mem p hx)) (fun x hx => ?_) hone hrun
    rw [List.mem_cons, not_or]
    refine ⟨?_, hnew x (List.mem_cons_of_mem p hx)⟩
    rintro rfl
    exact hrest.1 hx

/-! ## Restoring one file -/

/-- The file and the end of its links as they were. -/
def restored (limit : Nat) (before fs : Fs) (p : Path) : Fs := fun x =>
  if x = p ∨ (before p).isLink = true ∧ realpath before limit p = some x then before x else fs x

/-- With `-s` the file stays stored. -/
def cleared (root : Path) (save : Bool) (fs : Fs) (p : Path) : Fs :=
  if save then fs else Function.update (Function.update fs (filesOf root p) .absent) (metaOf root p) .absent

theorem mem_trail_tail {x : Path} {fs : Fs} {n : Nat} (h : x ∈ trail fs n p) : x = p ∨ x ∈ (trail fs n p).tail := by
  cases n with
  | zero => cases h
  | succ n =>
    unfold trail at h ⊢
    split at h
    · exact List.mem_cons.mp h
    · cases h

theorem restored_of_not_link {fs : Fs} (hlink : (before p).isLink = false) :
    restored limit before fs p = Function.update fs p (before p) := by
  funext x
  unfold restored
  rw [hlink]
  by_cases hx : x = p
  · rw [if_pos (Or.inl hx), hx, Function.update_self]
  · rw [if_neg (by simp [hx]), Function.update_of_ne hx]

/-- Where the walks come: the directories are those that were there. -/
structure Standing (limit : Nat) (before : Fs) (ps : List Path) (fs : Fs) : Prop extends Steady limit before ps fs where
  dirs : ∀ x, fs x = .dir ↔ before x = .dir

theorem Standing.end_noDir (h : Plain limit root before ps) {fs : Fs} (hs : Standing limit before ps fs) (hq : End limit before ps q) :
    fs q ≠ .dir := by
  obtain ⟨c, hc⟩ := h.end_eq hq
  rw [ne_eq, hs.dirs, hc]
  exact Node.noConfusion

theorem restoreFile_eq (h : Plain limit root before ps) (hp : p ∈ ps) (hout : ¬root <+: p) {fs : Fs}
    (hsteady : Standing limit before ps fs) (hsaved : Saved limit root before fs p) (save : Bool) :
    restoreFile limit root save fs p = some (cleared root save (restored limit before fs p) p) := by
  obtain ⟨hm, hf⟩ := hsaved
  have hpm : metaOf root p ≠ p := fun heq => hout (heq ▸ (inStore_meta p).inside)
  have hpf : filesOf root p ≠ p := fun heq => hout (heq ▸ (inStore_files p).inside)
  have hpdir : fs p ≠ .dir := fun hd => by
    have hself : realpath fs limit p = some p := realpath_of_not_link (by rw [hd]; rfl) _
    have hno := hsteady.noDir p hp
    rw [isDirectory_eq hself, hd] at hno
    cases hno
  have hrm : Function.update fs p .absent (metaOf root p) = fs (metaOf root p) := Function.update_of_ne hpm _ _
  have hrf : Function.update fs p .absent (filesOf root p) = fs (filesOf root p) := Function.update_of_ne hpf _ _
  have hmdir : savedMeta (before p) ≠ .dir := by cases before p <;> exact Node.noConfusion
  have hfdir : savedFile (cat before limit p) ≠ .dir := by cases cat before limit p <;> exact Node.noConfusion
  have hend : ∀ fs' : Fs, fs' (metaOf root p) = fs (metaOf root p) → fs' (filesOf root p) = fs (filesOf root p) →
      (if save then some fs' else some (remove (remove fs' (filesOf root p)) (metaOf root p))) = some (cleared root save fs' p) := by
    intro fs' hm' hf'
    have hfiles : remove fs' (filesOf root p) = Function.update fs' (filesOf root p) .absent :=
      remove_eq (by rw [hf', hf]; exact hfdir)
    have hgone : Function.update fs' (filesOf root p) .absent (metaOf root p) ≠ .dir := by
      rw [Function.update_of_ne (metaOf_ne_filesOf p p), hm', hm]
      exact hmdir
    rw [hfiles, remove_eq hgone, cleared]
    split <;> rfl
  unfold restoreFile
  rw [remove_eq hpdir]
  cases hb : before p with
  | absent =>
    have hcat : cat before limit p = none := by
      have hlink : (before p).isLink = false := by rw [hb]; rfl
      rw [cat, realpath_of_not_link hlink, Option.bind_some, hb]
    rw [hb, savedMeta] at hm
    rw [hcat, savedFile] at hf
    have hstored : isFileStored limit root fs p = true := by
      have hself : realpath fs limit (metaOf root p) = some (metaOf root p) := realpath_of_not_link (by rw [hm]; rfl) _
      rw [isFileStored, present_eq hself, hm, Bool.or_eq_true]
      exact Or.inr rfl
    have hres : restored limit before fs p = Function.update fs p .absent := by rw [restored_of_not_link (by rw [hb]; rfl), hb]
    have hnofile : isFile (Function.update fs p .absent) limit (filesOf root p) = false := isFile_of_absent (hrf.trans hf)
    rw [hstored, hres]
    simp [hrm, hm, hnofile, hend _ hrm hrf]
  | file c =>
    have hcat : cat before limit p = some c := cat_eq (realpath_of_not_link (by rw [hb]; rfl) _) hb
    rw [hb, savedMeta] at hm
    rw [hcat, savedFile] at hf
    have hstored : isFileStored limit root fs p = true := by
      have hself : realpath fs limit (filesOf root p) = some (filesOf root p) := realpath_of_not_link (by rw [hf]; rfl) _
      rw [isFileStored, isFile_eq hself hf]
      rfl
    have hself : realpath (Function.update fs p .absent) limit (filesOf root p) = some (filesOf root p) :=
      realpath_of_not_link (by rw [hrf, hf]; rfl) _
    have hgone : Function.update fs p .absent p = .absent := Function.update_self ..
    have hhere : realpath (Function.update fs p .absent) limit p = some p := realpath_of_not_link (by rw [hgone]; rfl) _
    have hres : restored limit before fs p = Function.update fs p (.file c) := by rw [restored_of_not_link (by rw [hb]; rfl), hb]
    have hwrite := write_eq hhere (by rw [hgone]; exact Node.noConfusion) c
    rw [Function.update_idem] at hwrite
    rw [hstored, hres]
    simp [hrm, hm, isFile_eq hself (hrf.trans hf), cat_eq hself (hrf.trans hf), hwrite,
      hend (Function.update fs p (.file c)) (Function.update_of_ne hpm _ _) (Function.update_of_ne hpf _ _)]
  | dir => exact absurd hb (h.noDir p hp)
  | link t =>
    have hlink : (before p).isLink = true := by rw [hb]; rfl
    obtain ⟨q, c, hq, hc⟩ := h.files p hp hlink
    rw [hb, savedMeta] at hm
    rw [cat_eq hq hc, savedFile] at hf
    have hstored : isFileStored limit root fs p = true := by
      have hself : realpath fs limit (filesOf root p) = some (filesOf root p) := realpath_of_not_link (by rw [hf]; rfl) _
      rw [isFileStored, isFile_eq hself hf]
      rfl
    have hlinked : ∀ x, x ≠ p → Function.update fs p (.link t) x = fs x := fun x hx => Function.update_of_ne hx _ _
    have hfile : Function.update fs p (.link t) (filesOf root p) = .file c := (hlinked _ hpf).trans hf
    have hself : realpath (Function.update fs p (.link t)) limit (filesOf root p) = some (filesOf root p) :=
      realpath_of_not_link (by rw [hfile]; rfl) _
    have hqp : q ≠ p := by
      rintro rfl
      rw [hb] at hc
      cases hc
    have hhere : realpath (Function.update fs p (.link t)) limit p = some q := by
      refine realpath_congr hq (fun x hx => ?_) ?_
      · rcases mem_trail_tail hx with rfl | hx'
        · rw [Function.update_self, hb]
        · by_cases hxp : x = p
          · rw [hxp, Function.update_self, hb]
          · rw [hlinked x hxp]
            exact hsteady.way p hp hlink x hx'
      · rw [hlinked q hqp]
        exact hsteady.ends q ⟨p, hp, hlink, hq⟩
    have hqdir : Function.update fs p (.link t) q ≠ .dir := by
      rw [hlinked q hqp]
      exact hsteady.end_noDir h ⟨p, hp, hlink, hq⟩
    have hres : restored limit before fs p = Function.update (Function.update fs p (.link t)) q (.file c) := by
      funext x
      unfold restored
      by_cases hxp : x = p
      · rw [if_pos (Or.inl hxp), hxp, Function.update_of_ne hqp.symm, Function.update_self, hb]
      · by_cases hxq : x = q
        · rw [if_pos (Or.inr ⟨hlink, hxq ▸ hq⟩), hxq, Function.update_self, hc]
        · have hno : ¬(x = p ∨ (before p).isLink = true ∧ realpath before limit p = some x) := by
            rintro (hx | ⟨-, hx⟩)
            · exact hxp hx
            · rw [hq] at hx
              cases hx
              exact hxq rfl
          rw [if_neg hno, Function.update_of_ne hxq, hlinked x hxp]
    have hqin := h.end_notInStore ⟨p, hp, hlink, hq⟩
    have hqm : metaOf root p ≠ q := fun heq => hqin (heq ▸ inStore_meta p)
    have hqf : filesOf root p ≠ q := fun heq => hqin (heq ▸ inStore_files p)
    rw [hstored, hres]
    simp [hrm, hm, symlink, isFile_eq hself hfile, cat_eq hself hfile, write_eq hhere hqdir,
      hend (Function.update (Function.update fs p (.link t)) q (.file c)) (by rw [Function.update_of_ne hqm, hlinked _ hpm])
        (by rw [Function.update_of_ne hqf, hlinked _ hpf])]

/-! ## Restoring all files -/

theorem restored_self {fs : Fs} : restored limit before fs p p = before p := if_pos (Or.inl rfl)

theorem restored_end {fs : Fs} (hlink : (before p).isLink = true) (hq : realpath before limit p = some q) :
    restored limit before fs p q = before q := if_pos (Or.inr ⟨hlink, hq⟩)

/-- What a restore writes is as it was. -/
theorem restored_eq_or (fs : Fs) (p x : Path) :
    restored limit before fs p x = before x ∨ restored limit before fs p x = fs x := by
  unfold restored
  split
  · exact Or.inl rfl
  · exact Or.inr rfl

theorem restored_inStore (h : Plain limit root before ps) (hp : p ∈ ps) (hout : ¬root <+: p) {x : Path} (hx : InStore root x) (fs : Fs) :
    restored limit before fs p x = fs x := by
  apply if_neg
  rintro (rfl | ⟨hlink, hq⟩)
  · exact hout hx.inside
  · exact h.end_notInStore ⟨p, hp, hlink, hq⟩ hx

theorem cleared_outside {x : Path} (hx : ¬InStore root x) (save : Bool) (fs : Fs) (p : Path) : cleared root save fs p x = fs x := by
  unfold cleared
  split
  · rfl
  · rw [Function.update_of_ne fun heq => hx ⟨p, Or.inl heq⟩, Function.update_of_ne fun heq => hx ⟨p, Or.inr heq⟩]

variable (root) in
theorem cleared_other {r : Path} {save : Bool} (h : save = true ∨ r ≠ p) (fs : Fs) :
    cleared root save fs p (metaOf root r) = fs (metaOf root r) ∧ cleared root save fs p (filesOf root r) = fs (filesOf root r) := by
  unfold cleared
  rcases h with rfl | hne
  · exact ⟨rfl, rfl⟩
  · cases save with
    | true => exact ⟨rfl, rfl⟩
    | false =>
      rw [if_neg Bool.false_ne_true, Function.update_of_ne fun heq => hne (metaOf_inj heq),
        Function.update_of_ne (metaOf_ne_filesOf r p), Function.update_of_ne (metaOf_ne_filesOf p r).symm,
        Function.update_of_ne fun heq => hne (filesOf_inj heq)]
      exact ⟨rfl, rfl⟩

variable (root) in
theorem cleared_eq_or (save : Bool) (fs : Fs) (p x : Path) : cleared root save fs p x = fs x ∨
    cleared root save fs p x = .absent ∧ (x = metaOf root p ∨ x = filesOf root p) := by
  unfold cleared
  split
  · exact Or.inl rfl
  · by_cases hm : x = metaOf root p
    · exact Or.inr ⟨by rw [hm, Function.update_self], Or.inl hm⟩
    · by_cases hf : x = filesOf root p
      · exact Or.inr ⟨by rw [Function.update_of_ne hm, hf, Function.update_self], Or.inr hf⟩
      · exact Or.inl (by rw [Function.update_of_ne hm, Function.update_of_ne hf])

theorem cleared_self (fs : Fs) (p : Path) :
    cleared root false fs p (metaOf root p) = .absent ∧ cleared root false fs p (filesOf root p) = .absent := by
  unfold cleared
  rw [if_neg Bool.false_ne_true, Function.update_self, Function.update_of_ne (metaOf_ne_filesOf p p).symm, Function.update_self]
  exact ⟨rfl, rfl⟩

/-- A restored path leads to where it led. -/
theorem realpath_restored {fs : Fs} (hway : ∀ x ∈ (trail before limit p).tail, fs x = before x)
    (hpfs : fs p = before p) (hlink : (before p).isLink = true) (hq : realpath before limit p = some q) (hqfs : (fs q).isLink = false) :
    realpath fs limit p = some q := by
  refine realpath_congr hq (fun x hx => ?_) hqfs
  rcases mem_trail_tail hx with rfl | hx
  · exact hpfs
  · exact hway x hx

/-- A path that is as it was leads to no directory. -/
theorem isDirectory_of_same (limit : Nat) {fs : Fs} (hdirs : ∀ x, fs x = .dir ↔ before x = .dir) (hp : fs p = before p)
    (hno : before p ≠ .dir)
    (hleads : (before p).isLink = true → ∃ q c, realpath fs limit p = some q ∧ before q = .file c) (m : Nat) :
    isDirectory fs m p = false := by
  refine Bool.eq_false_iff.mpr fun hd => ?_
  obtain ⟨d, hd, hdir⟩ := (Option.any_eq_true _ _).mp hd
  have hend := (hdirs d).mp (of_decide_eq_true hdir)
  by_cases hlink : (before p).isLink = true
  · obtain ⟨q, c, hq, hc⟩ := hleads hlink
    obtain rfl := realpath_unique hq hd
    rw [hc] at hend
    cases hend
  · rw [realpath_of_not_link (by rw [hp]; exact eq_false_of_ne_true hlink)] at hd
    obtain rfl := Option.some.inj hd
    exact hno hend

/-- A restore does not change where the links lead, and no path leads to a directory afterwards. -/
theorem Standing.restored (h : Plain limit root before ps) {fs : Fs} (hs : Standing limit before ps fs) (save : Bool) (hp : p ∈ ps)
    (hout : ∀ p ∈ ps, ¬root <+: p) : Standing limit before ps (cleared root save (restored limit before fs p) p) := by
  have hway : ∀ r ∈ ps, (before r).isLink = true → ∀ x ∈ (trail before limit r).tail,
      cleared root save (Backup.restored limit before fs p) p x = before x := by
    intro r hr hlink x hx
    rw [cleared_outside (h.link_notInStore (mem_trail (List.mem_of_mem_tail hx)))]
    rcases restored_eq_or fs p x with hx' | hx'
    · exact hx'
    · rw [hx', hs.way r hr hlink x hx]
  have hends : ∀ r, End limit before ps r → (cleared root save (Backup.restored limit before fs p) p r).isLink = false := by
    intro q hq
    rw [cleared_outside (h.end_notInStore hq)]
    rcases restored_eq_or fs p q with hq' | hq'
    · obtain ⟨c, hc⟩ := h.end_eq hq
      rw [hq', hc]
      rfl
    · rw [hq']
      exact hs.ends q hq
  have hhere : cleared root save (Backup.restored limit before fs p) p p = before p := by
    rw [cleared_outside fun hin => hout p hp hin.inside, restored_self]
  have hdirs : ∀ x, cleared root save (Backup.restored limit before fs p) p x = .dir ↔ before x = .dir := by
    intro x
    rcases cleared_eq_or root save (Backup.restored limit before fs p) p x with hx | ⟨hx, hstore⟩
    · rw [hx]
      rcases restored_eq_or fs p x with hx' | hx'
      · rw [hx']
      · rw [hx', hs.dirs]
    · obtain ⟨hm, hf⟩ := h.absent (h.noDir p hp)
      rcases hstore with rfl | rfl
      · rw [hx, hm]
      · rw [hx, hf]
  refine ⟨⟨hway, hends, fun r hr => ?_⟩, hdirs⟩
  refine Bool.eq_false_iff.mpr fun hdir => ?_
  refine absurd (isDirectory_of_changed (fun x => ?_) hdir) (Bool.eq_false_iff.mp (hs.noDir r hr))
  rcases cleared_eq_or root save (Backup.restored limit before fs p) p x with hx | ⟨hx, -⟩
  · by_cases hx' : x = p ∨ (before p).isLink = true ∧ realpath before limit p = some x
    · -- `p`, and the end of its links
      refine Or.inr ?_
      rcases hx' with rfl | ⟨hlink, hq⟩
      · refine isDirectory_of_same limit hdirs hhere (h.noDir x hp) fun hlink => ?_
        obtain ⟨q, c, hq, hc⟩ := h.files x hp hlink
        exact ⟨q, c, realpath_restored (hway x hp hlink) hhere hlink hq (hends q ⟨x, hp, hlink, hq⟩), hc⟩
      · obtain ⟨c, hc⟩ := h.end_eq ⟨p, hp, hlink, hq⟩
        refine isDirectory_of_same limit hdirs (hx.trans (restored_end hlink hq)) (by rw [hc]; exact Node.noConfusion) fun hl => ?_
        rw [hc] at hl
        cases hl
    · exact Or.inl (hx.trans (if_neg hx'))
  · refine Or.inr fun m => ?_
    rw [isDirectory_eq (realpath_of_not_link (by rw [hx]; rfl) m), hx]
    rfl

/-- How far the walks have come, from the file system `later`. -/
structure Walked (limit : Nat) (root : Path) (before : Fs) (ps : List Path) (save : Bool) (later fs : Fs) (done : List Path) : Prop where
  standing : Standing limit before ps fs
  here : ∀ p ∈ done, fs p = before p
  ends : ∀ p ∈ done, (before p).isLink = true → ∀ q, realpath before limit p = some q → fs q = before q
  kept : ∀ p, save = true ∨ p ∉ done → fs (metaOf root p) = later (metaOf root p) ∧ fs (filesOf root p) = later (filesOf root p)
  gone : save = false → ∀ p ∈ done, fs (metaOf root p) = .absent ∧ fs (filesOf root p) = .absent

theorem Walked.step (h : Plain limit root before ps) (hout : ∀ p ∈ ps, ¬root <+: p) {save : Bool} {later fs : Fs} {done : List Path}
    (hw : Walked limit root before ps save later fs done) (hdone : done ⊆ ps) (hp : p ∈ ps) (hnew : save = true ∨ p ∉ done)
    (hsaved : Saved limit root before later p) :
    ∃ fs', restoreFile limit root save fs p = some fs' ∧ Walked limit root before ps save later fs' (p :: done) := by
  have hsaved' : Saved limit root before fs p := by
    obtain ⟨hm, hf⟩ := hw.kept p hnew
    exact ⟨hm.trans hsaved.1, hf.trans hsaved.2⟩
  refine ⟨_, restoreFile_eq h hp (hout p hp) hw.standing hsaved' save, hw.standing.restored h save hp hout, ?_, ?_, ?_, ?_⟩
  · intro r hr
    rcases List.mem_cons.mp hr with rfl | hr
    · rw [cleared_outside fun hs => hout r hp hs.inside, restored_self]
    · rw [cleared_outside fun hs => hout r (hdone hr) hs.inside]
      rcases restored_eq_or fs p r with hr' | hr'
      · exact hr'
      · rw [hr', hw.here r hr]
  · intro r hr hlink q hq
    have hrps : r ∈ ps := by
      rcases List.mem_cons.mp hr with rfl | hr
      · exact hp
      · exact hdone hr
    rw [cleared_outside (h.end_notInStore ⟨r, hrps, hlink, hq⟩)]
    rcases List.mem_cons.mp hr with rfl | hr
    · exact restored_end hlink hq
    · rcases restored_eq_or fs p q with hq' | hq'
      · exact hq'
      · rw [hq', hw.ends r hr hlink q hq]
  · intro r hr
    have hne : save = true ∨ r ≠ p := hr.imp_right fun hr => List.ne_of_not_mem_cons hr
    have hkeep : save = true ∨ r ∉ done := hr.imp_right fun hr => List.not_mem_of_not_mem_cons hr
    obtain ⟨hm, hf⟩ := cleared_other root hne (restored limit before fs p)
    rw [hm, hf, restored_inStore h hp (hout p hp) (inStore_meta r), restored_inStore h hp (hout p hp) (inStore_files r)]
    exact hw.kept r hkeep
  · rintro rfl r hr
    by_cases hrp : r = p
    · rw [hrp]
      exact cleared_self _ p
    · obtain ⟨hm, hf⟩ := cleared_other root (Or.inr hrp : false = true ∨ r ≠ p) (restored limit before fs p)
      rw [hm, hf, restored_inStore h hp (hout p hp) (inStore_meta r), restored_inStore h hp (hout p hp) (inStore_files r)]
      exact hw.gone rfl r (List.mem_of_ne_of_mem hrp hr)

/-- One of the two loops of `restore_all_files`. It passes over the directories. -/
theorem restoreWalk_walked (h : Plain limit root before ps) (hout : ∀ p ∈ ps, ¬root <+: p) {save : Bool} {later fs : Fs}
    {rest done : List Path} (hw : Walked limit root before ps save later fs done) (hdone : done ⊆ ps) (hrest : rest.Nodup)
    (hsub : ∀ p ∈ rest, p ∈ ps ∨ before p = .dir) (hnew : save = true ∨ ∀ p ∈ rest, p ∉ done)
    (hsaved : ∀ p ∈ rest, p ∈ ps → Saved limit root before later p) :
    ∃ fs', restoreWalk limit root save fs rest = some fs' ∧
      Walked limit root before ps save later fs' ((rest.filter (· ∈ ps)).reverse ++ done) := by
  induction rest generalizing fs done with
  | nil => exact ⟨fs, rfl, hw⟩
  | cons p rest ih =>
    rw [List.nodup_cons] at hrest
    have hsub' : ∀ x ∈ rest, x ∈ ps ∨ before x = .dir := fun x hx => hsub x (List.mem_cons_of_mem p hx)
    have hsaved' : ∀ x ∈ rest, x ∈ ps → Saved limit root before later x := fun x hx => hsaved x (List.mem_cons_of_mem p hx)
    by_cases hp : p ∈ ps
    · obtain ⟨fs₁, hstep, hw₁⟩ := hw.step h hout hdone hp (hnew.imp_right fun hnew => hnew p List.mem_cons_self)
        (hsaved p List.mem_cons_self hp)
      have hnew₁ : save = true ∨ ∀ x ∈ rest, x ∉ p :: done := by
        refine hnew.imp_right fun hnew x hx => ?_
        rw [List.mem_cons, not_or]
        refine ⟨?_, hnew x (List.mem_cons_of_mem p hx)⟩
        rintro rfl
        exact hrest.1 hx
      have hfound : restoreFound limit root save fs p = some fs₁ := by
        have htop : p ≠ [] := fun heq => h.noDir p hp (heq ▸ h.top)
        rw [restoreFound, if_pos ⟨htop, hw.standing.noDir p hp⟩, hstep]
      obtain ⟨fs', hrun, hw'⟩ := ih hw₁ (List.cons_subset.mpr ⟨hp, hdone⟩) hrest.2 hsub' hnew₁ hsaved'
      refine ⟨fs', ?_, ?_⟩
      · rw [restoreWalk, List.foldlM_cons, hfound]
        exact hrun
      · rw [List.filter_cons_of_pos (by simpa using hp), List.reverse_cons, List.append_assoc, List.singleton_append]
        exact hw'
    · have hdir := (hsub p List.mem_cons_self).resolve_left hp
      have hfound : restoreFound limit root save fs p = some fs := by
        have hfs := (hw.standing.dirs p).mpr hdir
        refine if_neg fun hno => ?_
        rw [isDirectory_eq (realpath_of_not_link (by rw [hfs]; rfl) limit), hfs] at hno
        cases hno.2
      have hnew₁ : save = true ∨ ∀ x ∈ rest, x ∉ done := hnew.imp_right fun hnew x hx => hnew x (List.mem_cons_of_mem p hx)
      obtain ⟨fs', hrun, hw'⟩ := ih hw hdone hrest.2 hsub' hnew₁ hsaved'
      refine ⟨fs', ?_, ?_⟩
      · rw [restoreWalk, List.foldlM_cons, hfound]
        exact hrun
      · rw [List.filter_cons_of_neg (by simpa using hp)]
        exact hw'

theorem savedFile_ne_absent (hp : before p ≠ .dir) (hb : savedMeta (before p) = .absent) : savedFile (cat before limit p) ≠ .absent := by
  cases hnode : before p with
  | absent =>
    rw [hnode] at hb
    cases hb
  | link t =>
    rw [hnode] at hb
    cases hb
  | dir => exact absurd hnode hp
  | file c =>
    have hself : realpath before limit p = some p := realpath_of_not_link (by rw [hnode]; rfl) _
    rw [cat_eq hself hnode, savedFile]
    exact Node.noConfusion

/-- The two loops visit exactly what has been backed up, and directories. -/
theorem restores_walked (h : Plain limit root before ps) (hout : ∀ p ∈ ps, ¬root <+: p) (save : Bool) {later : Fs}
    (hstanding : Standing limit before ps later) (hsaved : ∀ p ∈ ps, Saved limit root before later p)
    (hempty : ∀ p, p ∉ ps → later (metaOf root p) = before (metaOf root p) ∧ later (filesOf root p) = before (filesOf root p))
    {stored : Fs → Prop}
    (hstored : ∀ fs done, Walked limit root before ps save later fs done → (∀ p, p ∈ done ↔ p ∈ ps) → stored fs) :
    Restores limit root before ps save later stored := by
  have hdir : ∀ p, p ∉ ps → (later (metaOf root p) ≠ .absent ∨ later (filesOf root p) ≠ .absent) → before p = .dir := by
    intro p hp hsome
    rw [(hempty p hp).1, (hempty p hp).2] at hsome
    by_contra hno
    obtain ⟨hm, hf⟩ := h.absent hno
    exact hsome.elim (fun hne => hne hm) fun hne => hne hf
  intro ms hms
  have hmsub : ∀ p ∈ ms, p ∈ ps ∨ before p = .dir := by
    intro p hp
    by_cases hps : p ∈ ps
    · exact Or.inl hps
    · exact Or.inr (hdir p hps (Or.inl ((hms.2 p).mp hp)))
  have hstart : Walked limit root before ps save later later [] := by
    refine ⟨hstanding, ?_, ?_, fun p _ => ⟨rfl, rfl⟩, ?_⟩
    · intro p hp
      cases hp
    · intro p hp
      cases hp
    · intro _ p hp
      cases hp
  obtain ⟨mid, hmid, hwmid⟩ := restoreWalk_walked h hout hstart (List.nil_subset ps) hms.1 hmsub
    (Or.inr fun p _ => List.not_mem_nil) fun p _ => hsaved p
  rw [List.append_nil] at hwmid
  have hmem : ∀ {l : List Path} {p : Path}, p ∈ (l.filter (· ∈ ps)).reverse ↔ p ∈ l ∧ p ∈ ps := by simp
  refine ⟨mid, hmid, fun ds hds => ?_⟩
  have hdsub : ∀ p ∈ ds, p ∈ ps ∨ before p = .dir := by
    intro p hp
    by_cases hps : p ∈ ps
    · exact Or.inl hps
    · have hkept := hwmid.kept p (Or.inr fun hp' => hps (hmem.mp hp').2)
      exact Or.inr (hdir p hps (Or.inr (hkept.2 ▸ (hds.2 p).mp hp)))
  have hnew : save = true ∨ ∀ p ∈ ds, p ∉ (ms.filter (· ∈ ps)).reverse := by
    cases save with
    | true => exact Or.inl rfl
    | false => exact Or.inr fun p hp hp' => (hds.2 p).mp hp (hwmid.gone rfl p hp').2
  obtain ⟨fs, hfs, hw⟩ := restoreWalk_walked h hout hwmid (fun p hp => (hmem.mp hp).2) hds.1 hdsub hnew fun p _ => hsaved p
  have hall : ∀ p, p ∈ (ds.filter (· ∈ ps)).reverse ++ (ms.filter (· ∈ ps)).reverse ↔ p ∈ ps := by
    intro p
    rw [List.mem_append, hmem, hmem]
    constructor
    · rintro (hp | hp)
      · exact hp.2
      · exact hp.2
    · intro hp
      by_cases hm : p ∈ ms
      · exact Or.inr ⟨hm, hp⟩
      · -- Only the files of the list that are regular are not in the first loop, and these have their content stored.
        have habsent : later (metaOf root p) = .absent := by
          by_contra hno
          exact hm ((hms.2 p).mpr hno)
        have hfile : savedFile (cat before limit p) ≠ .absent :=
          savedFile_ne_absent (h.noDir p hp) ((hsaved p hp).1.symm.trans habsent)
        have hleft : mid (filesOf root p) ≠ .absent := by
          rw [(hwmid.kept p (Or.inr fun hp' => hm (hmem.mp hp').1)).2, (hsaved p hp).2]
          exact hfile
        exact Or.inl ⟨(hds.2 p).mpr hleft, hp⟩
  refine ⟨fs, hfs, ⟨fun p hp => hw.here p ((hall p).mpr hp), ?_⟩, hstored fs _ hw hall⟩
  rintro q c ⟨p, hp, hlink, hq⟩ -
  exact hw.ends p ((hall p).mpr hp) hlink q hq

def linked : Fs := fun x =>
  if x = [] then .dir
  else if x = ["data".toList] then .file "kept".toList
  else if x = ["link".toList] then .link (.absolute ["data".toList])
  else .absent

theorem linked_ready : Ready 8 ["backup".toList] linked [["link".toList], ["data".toList], ["none".toList]] := by
  refine ⟨rfl, fun p => ?_, fun p hp hlink => ?_⟩
  · simp [linked, metaOf, filesOf]
  · simp only [List.mem_cons, List.not_mem_nil, or_false] at hp
    rcases hp with rfl | rfl | rfl
    · decide
    · exact absurd hlink (by decide)
    · exact absurd hlink (by decide)

def dangling : Fs := fun x => if x = [] then .dir else if x = ["link".toList] then .link (.absolute ["none".toList]) else .absent

end ZfsTest.Backup
