import ZfsTest.Prog.Fold
import ZfsTest.Shell.Getopts
import ZfsTest.Shell.Passed
import ZfsTest.Stf.Wordlist

/-!
# The wrappers of `zfs` and `zpool`

The scripts `zfs` and `zpool` of the suite hand the arguments to each wrapper in turn, which prints the command line with its own options
behind `create`, and split what it prints into arguments again. So an argument stays as it is if it is plain (`PlainArg`); and the wrapper
for versions, which looks for a version with `getopts`, misses one that stands behind an option that it does not know.

The arguments and the wrapper's own options are passed on by every list of some wrappers exactly when they are passed on safely by each of
them (`wrappers_keep_iff`).
-/

namespace ZfsTest.Libtest.Wrapper

open Shell
open Stf (isIfs)

/-! ## The scripts -/

inductive Tool
  | zfs
  | zpool
  deriving DecidableEq, Repr

inductive Wrap
  | version
  | crypto
  deriving DecidableEq, Repr

/-- The variables that the scripts read. -/
structure Settings where
  zfsTestVersion : Text
  zpoolTestVersion : Text
  keysourceDataset : Text
  encryption : Text
  passphraseFile : Text
  rawKeyFile : Text
  hexKeyFile : Text

def createWord : Text := "create".toList

def versionWord : Text := "version=".toList

/-- An option with its argument, as two words. -/
abbrev Own := Char × Text

def flag (c : Char) : Text := ['-', c]

def ownWords (own : List Own) : List Text := own.flatMap fun o => [flag o.1, o.2]

/-- `-o name=value `, in front of the other options. -/
def ownText (own : List Own) : Text := (ownWords own).flatMap fun w => w ++ [' ']

/-- `[[ "$OPTARG" == "version="* ]]`. -/
def isVersion (v : Text) : Bool := versionWord.isPrefixOf v

/-- An option that `getopts` reports, with an argument that passes a test. -/
def reported (spec : Optstring) (c : Char) (test : Text → Bool) (args : List Text) : Bool :=
  (getopts spec args).1.any fun e =>
    match e.1 with
    | .option false d (some v) => d = c && test v
    | _ => false

/-- `:o:V:`. -/
def zfsOptstring : Optstring := fun c => if c = 'o' || c = 'V' then some true else none

/-- `:o:O:`. -/
def zpoolOptstring : Optstring := fun c => if c = 'o' || c = 'O' then some true else none

/-- `options="-c version=$value $options"`, unless the value is `0` or there is such an option. -/
def inserted (c : Char) (value : Text) (seen : Bool) : List Own :=
  if value ≠ ['0'] ∧ seen = false then [(c, versionWord ++ value)] else []

/-- What `zfs_version` inserts behind `create`. -/
def zfsVersion (s : Settings) (args : List Text) : List Own :=
  inserted 'o' s.zfsTestVersion (reported zfsOptstring 'o' isVersion args || reported zfsOptstring 'V' (fun _ => true) args)

/-- What `zpool_version` inserts behind `create`. -/
def zpoolVersion (s : Settings) (args : List Text) : List Own :=
  inserted 'o' s.zpoolTestVersion (reported zpoolOptstring 'o' isVersion args) ++
    inserted 'O' s.zfsTestVersion (reported zpoolOptstring 'O' isVersion args)

/-- `-o encryption=$ENCRYPTION -o keysource=kind,file://file`. -/
def keysource (s : Settings) (kind file : Text) : List Own :=
  [('o', "encryption=".toList ++ s.encryption), ('o', "keysource=".toList ++ kind ++ ",file://".toList ++ file)]

/-- What `zfs_crypto` inserts behind `create`. -/
def zfsCrypto (s : Settings) : List Own :=
  if s.keysourceDataset = "passphrase".toList then keysource s "passphrase".toList s.passphraseFile
  else if s.keysourceDataset = "raw".toList then keysource s "raw".toList s.rawKeyFile
  else if s.keysourceDataset = "hex".toList then keysource s "hex".toList s.hexKeyFile
  else []

/-- `[[ -x ${STF_SUITE}/bin/zfs_$wrapper ]]`: there is no `zpool_crypto`. -/
def executable : Tool → Wrap → Bool
  | .zpool, .crypto => false
  | _, _ => true

def ownOptions (s : Settings) : Tool → Wrap → List Text → List Own
  | .zfs, .version, args => zfsVersion s args
  | .zpool, .version, args => zpoolVersion s args
  | .zfs, .crypto, _ => zfsCrypto s
  | .zpool, .crypto, _ => []

/-- `$cmd $options`, with the wrapper's own options for `create`. -/
def commandLine (s : Settings) (t : Tool) (w : Wrap) (cmd : Text) (args : List Text) : Text :=
  cmd ++ ' ' :: (ownText (if cmd = createWord then ownOptions s t w args else []) ++ row args)

/-- The output of `zfs_version`, `zpool_version` and `zfs_crypto`; the last one does not quote what it prints. Without arguments `shift`
ends the script. -/
def output (dir : Directory) (s : Settings) (t : Tool) (w : Wrap) : List Text → Text
  | [] => []
  | cmd :: args =>
    match w with
    | .version => echo (commandLine s t w cmd args)
    | .crypto => echo (spread isIfs dir (commandLine s t w cmd args))

/-- One turn of the loop over the wrappers. -/
def runWrapper (dir : Directory) (s : Settings) (t : Tool) (saved : List Text) (w : Wrap) : List Text :=
  if executable t w then (words isIfs (output dir s t w saved)).flatMap dir.names else saved

/-- `zfs.ksh` and `zpool.ksh`: the arguments of the command in the end. -/
def finalArgs (dir : Directory) (s : Settings) (t : Tool) (ws : List Wrap) (args : List Text) : List Text :=
  ws.foldl (runWrapper dir s t) args

/-! ## The command's own syntax -/

/-- The options in front of the operands, as `getopt` of the C library finds them: a plus begins an operand. -/
def optionsFrom (spec : Optstring) : Option Char → List Text → List (Char × Option Text)
  | some c, a :: as => (c, some a) :: optionsFrom spec none as
  | some _, [] => []
  | none, [] => []
  | none, a :: as =>
    match optionText a with
    | some (false, t) =>
      let here := cluster spec false t
      (here.1.filterMap fun e => match e with | .option _ c v => some (c, v) | _ => none) ++ optionsFrom spec here.2 as
    | _ => []

/-- The options of `zfs create` and `zpool create`: `-o`, and `-V` or `-O`, have arguments. -/
structure Usage (t : Tool) where
  spec : Optstring
  o : spec 'o' = some true
  other : spec (match t with | .zfs => 'V' | .zpool => 'O') = some true

def Given {t : Tool} (x : Usage t) (c : Char) (test : Text → Bool) (args : List Text) : Prop :=
  ∃ v, (c, some v) ∈ optionsFrom x.spec none args ∧ test v = true

/-- The command has an option that stands against `-c version=`. -/
def HasVersion : {t : Tool} → Usage t → Char → List Text → Prop
  | .zfs, x, c, args => Given x c isVersion args ∨ Given x 'V' (fun _ => true) args
  | .zpool, x, c, args => Given x c isVersion args

/-! ## Command lines that are kept -/

/-- The arguments with the wrapper's own options behind `create`. -/
def insertOwn (s : Settings) (t : Tool) (saved : List Text) (w : Wrap) : List Text :=
  match saved with
  | [] => []
  | cmd :: args => if cmd = createWord then cmd :: (ownWords (ownOptions s t w args) ++ args) else saved

/-- In every directory the arguments are kept; and a version is inserted only where there is none. -/
structure Kept {t : Tool} (x : Usage t) (s : Settings) (ws : List Wrap) (args : List Text) : Prop where
  same : ∀ dir, finalArgs dir s t ws args = ws.foldl (insertOwn s t) args
  once : ∀ us vs, ws = us ++ .version :: vs → ∀ rest, us.foldl (insertOwn s t) args = createWord :: rest →
    ∀ o ∈ ownOptions s t .version rest, ¬HasVersion x o.1 rest

/-- What the wrapper for versions finds in front of `-c version=`, by its `getopts`. -/
def sees (t : Tool) (c : Char) (args : List Text) : Bool :=
  match t with
  | .zfs => reported zfsOptstring c isVersion args || reported zfsOptstring 'V' (fun _ => true) args
  | .zpool => reported zpoolOptstring c isVersion args

/-- The version that is inserted with `-c`, if there is one. -/
def versionOf (s : Settings) (t : Tool) (c : Char) : Option Text :=
  match t with
  | .zfs => if c = 'o' then some s.zfsTestVersion else none
  | .zpool => if c = 'o' then some s.zpoolTestVersion else if c = 'O' then some s.zfsTestVersion else none

/-- A wrapper that passes the arguments on: they are plain and so are its own options, and its `getopts` finds a version where the command
does, unless there is none to be inserted. -/
structure Safe {t : Tool} (x : Usage t) (s : Settings) (args : List Text) (w : Wrap) : Prop where
  plain : ∀ a ∈ args, PlainArg isIfs a
  own : ∀ rest, args = createWord :: rest → ∀ o ∈ ownOptions s t w rest, PlainArg isIfs o.2
  found : w = .version → ∀ rest, args = createWord :: rest → ∀ c, ∀ v ∈ versionOf s t c, v ≠ ['0'] → HasVersion x c rest →
    sees t c rest = true

/-! ## The line and its words -/

theorem row_append {u v : List Text} (hu : u ≠ []) (hv : v ≠ []) : row (u ++ v) = row u ++ ' ' :: row v := intercalate_append hu hv

/-- The line is the row of its words, with a blank behind it where there are no arguments. -/
theorem text_row (ws : List Text) {u : List Text} (hu : u ≠ []) (args : List Text) :
    row u ++ ' ' :: ((ws.flatMap fun w => w ++ [' ']) ++ row args) =
      row (u ++ (ws ++ args)) ++ if args = [] then [' '] else [] := by
  induction ws generalizing u with
  | nil =>
    by_cases hargs : args = []
    · subst hargs
      rw [if_pos rfl, List.append_nil, List.append_nil]
      rfl
    · rw [if_neg hargs, List.nil_append, List.append_nil, row_append hu hargs]
      rfl
  | cons w ws ih =>
    have hrest := @ih (u ++ [w]) (by simp)
    have hword : row (u ++ [w]) = row u ++ ' ' :: w := by
      rw [row_append hu (List.cons_ne_nil w [])]
      simp [row]
    rw [hword, List.append_assoc u [w]] at hrest
    refine Eq.trans ?_ hrest
    simp

variable {s : Settings} {t : Tool} {w : Wrap}

/-- The words that a wrapper is to pass on. -/
def meant (s : Settings) (t : Tool) (w : Wrap) (cmd : Text) (args : List Text) : List Text :=
  cmd :: (ownWords (if cmd = createWord then ownOptions s t w args else []) ++ args)

theorem insertOwn_cons (cmd : Text) (args : List Text) : insertOwn s t (cmd :: args) w = meant s t w cmd args := by
  unfold insertOwn meant
  by_cases hcmd : cmd = createWord
  · simp [hcmd]
  · simp [hcmd, ownWords]

theorem commandLine_eq (cmd : Text) (args : List Text) :
    commandLine s t w cmd args = row (meant s t w cmd args) ++ if args = [] then [' '] else [] := by
  have hrow := text_row (ownWords (if cmd = createWord then ownOptions s t w args else [])) (List.cons_ne_nil cmd []) args
  have hcmd : row [cmd] = cmd := by simp [row]
  rw [hcmd] at hrow
  exact hrow

/-- What a wrapper passes on, in one line. -/
theorem runWrapper_cons (h : executable t w = true) (dir : Directory) (cmd : Text) (args : List Text) :
    runWrapper dir s t (cmd :: args) w =
      match w with
      | .version => passed isIfs dir (row (meant s t w cmd args))
      | .crypto => passed isIfs dir (spread isIfs dir (row (meant s t w cmd args))) := by
  rw [runWrapper, if_pos h]
  cases w with
  | version =>
    change passed isIfs dir (commandLine s t .version cmd args) = _
    rw [commandLine_eq]
    split
    · exact passed_blank rfl rfl dir _
    · rw [List.append_nil]
  | crypto =>
    change passed isIfs dir (spread isIfs dir (commandLine s t .crypto cmd args)) = _
    rw [commandLine_eq]
    split
    · rw [spread_blank rfl]
    · rw [List.append_nil]

/-- A script that is not there leaves the words as they are. -/
theorem runWrapper_missing (h : executable t w = false) (dir : Directory) (saved : List Text) :
    runWrapper dir s t saved w = saved ∧ insertOwn s t saved w = saved := by
  refine ⟨if_neg (by simp [h]), ?_⟩
  cases saved with
  | nil => rfl
  | cons cmd args =>
    have hown : ownOptions s t w args = [] := by
      cases t <;> cases w <;> first | rfl | cases h
    rw [insertOwn_cons, meant, hown]
    simp [ownWords]

/-- A wrapper passes on plain words. -/
theorem runWrapper_plain {cmd : Text} {args : List Text} (h : ∀ a ∈ meant s t w cmd args, PlainArg isIfs a) (dir : Directory) :
    runWrapper dir s t (cmd :: args) w = insertOwn s t (cmd :: args) w := by
  cases hexec : executable t w with
  | false =>
    have hmissing := @runWrapper_missing s t w hexec dir (cmd :: args)
    rw [hmissing.1, hmissing.2]
  | true =>
    rw [runWrapper_cons hexec, insertOwn_cons]
    cases w with
    | version => exact passed_plain rfl rfl h dir
    | crypto =>
      dsimp only
      rw [spread_plain rfl h]
      exact passed_plain rfl rfl h dir

/-- And nothing else, in the crossed directory. -/
theorem meant_plain (hexec : executable t w = true) {cmd : Text} {args : List Text}
    (h : runWrapper .crossed s t (cmd :: args) w = insertOwn s t (cmd :: args) w) : ∀ a ∈ meant s t w cmd args, PlainArg isIfs a := by
  rw [runWrapper_cons hexec, insertOwn_cons] at h
  cases w with
  | version => exact plain_of_passed rfl rfl h
  | crypto => exact plain_of_passed_spread rfl rfl rfl h

/-! ## Options in front of the arguments -/

/-- The letters that the `getopts` of the wrapper for versions knows. -/
def letters : Tool → List Char
  | .zfs => ['o', 'V']
  | .zpool => ['o', 'O']

theorem mem_inserted {c : Char} {value : Text} {seen : Bool} {o : Own} :
    o ∈ inserted c value seen ↔ (value ≠ ['0'] ∧ seen = false) ∧ o = (c, versionWord ++ value) := by
  unfold inserted
  split
  · rename_i h
    rw [List.mem_singleton, and_iff_right h]
  · rename_i h
    exact ⟨fun hmem => absurd hmem List.not_mem_nil, fun hmem => absurd hmem.1 h⟩

theorem mem_versionOf {c : Char} {v : Text} :
    v ∈ versionOf s t c ↔
      match t with
      | .zfs => c = 'o' ∧ v = s.zfsTestVersion
      | .zpool => c = 'o' ∧ v = s.zpoolTestVersion ∨ c = 'O' ∧ v = s.zfsTestVersion := by
  unfold versionOf
  cases t with
  | zfs =>
    by_cases hc : c = 'o'
    · simp [hc, eq_comm]
    · simp [hc]
  | zpool =>
    by_cases hc : c = 'o'
    · subst hc
      simp [eq_comm]
    · by_cases hO : c = 'O'
      · subst hO
        simp [eq_comm]
      · simp [hc, hO]

/-- The versions that are inserted. -/
theorem mem_version {args : List Text} {o : Own} :
    o ∈ ownOptions s t .version args ↔ ∃ v ∈ versionOf s t o.1, v ≠ ['0'] ∧ sees t o.1 args = false ∧ o.2 = versionWord ++ v := by
  obtain ⟨c, a⟩ := o
  simp only [mem_versionOf]
  cases t with
  | zfs =>
    rw [ownOptions, zfsVersion, mem_inserted, Prod.mk.injEq]
    constructor
    · rintro ⟨⟨hv, hseen⟩, rfl, rfl⟩
      exact ⟨_, ⟨rfl, rfl⟩, hv, hseen, rfl⟩
    · rintro ⟨v, ⟨rfl, rfl⟩, hv, hseen, rfl⟩
      exact ⟨⟨hv, hseen⟩, rfl, rfl⟩
  | zpool =>
    rw [ownOptions, zpoolVersion, List.mem_append, mem_inserted, mem_inserted, Prod.mk.injEq, Prod.mk.injEq]
    constructor
    · rintro (⟨⟨hv, hseen⟩, rfl, rfl⟩ | ⟨⟨hv, hseen⟩, rfl, rfl⟩)
      · exact ⟨_, Or.inl ⟨rfl, rfl⟩, hv, hseen, rfl⟩
      · exact ⟨_, Or.inr ⟨rfl, rfl⟩, hv, hseen, rfl⟩
    · rintro ⟨v, ⟨rfl, rfl⟩ | ⟨rfl, rfl⟩, hv, hseen, rfl⟩
      · exact Or.inl ⟨⟨hv, hseen⟩, rfl, rfl⟩
      · exact Or.inr ⟨⟨hv, hseen⟩, rfl, rfl⟩

/-- Versions are inserted where there are none exactly if the wrapper finds what the command does. -/
theorem once_iff {x : Usage t} {args : List Text} :
    (∀ o ∈ ownOptions s t .version args, ¬HasVersion x o.1 args) ↔
      ∀ c, ∀ v ∈ versionOf s t c, v ≠ ['0'] → HasVersion x c args → sees t c args = true := by
  constructor
  · intro h c v hv hne hhas
    by_contra hseen
    exact h (c, versionWord ++ v) (mem_version.mpr ⟨v, hv, hne, eq_false_of_ne_true hseen, rfl⟩) hhas
  · intro h o ho hhas
    obtain ⟨v, hv, hne, hseen, -⟩ := mem_version.mp ho
    rw [h o.1 v hv hne hhas] at hseen
    cases hseen

theorem letter_of_mem_ownOptions {args : List Text} {o : Own} (ho : o ∈ ownOptions s t w args) : o.1 ∈ letters t := by
  cases t with
  | zfs =>
    cases w with
    | version =>
      obtain ⟨-, rfl⟩ := mem_inserted.mp ho
      exact List.mem_cons_self
    | crypto =>
      have hkeys : ∀ kind file, o ∈ keysource s kind file → o.1 ∈ letters .zfs := by
        intro kind file h
        rcases List.mem_pair.mp h with rfl | rfl
        · exact List.mem_cons_self
        · exact List.mem_cons_self
      rw [ownOptions, zfsCrypto] at ho
      split at ho
      · exact hkeys _ _ ho
      · split at ho
        · exact hkeys _ _ ho
        · split at ho
          · exact hkeys _ _ ho
          · cases ho
  | zpool =>
    cases w with
    | version =>
      rcases List.mem_append.mp ho with h | h
      · obtain ⟨-, rfl⟩ := mem_inserted.mp h
        exact List.mem_cons_self
      · obtain ⟨-, rfl⟩ := mem_inserted.mp h
        exact List.mem_cons_of_mem 'o' List.mem_cons_self
    | crypto => cases ho

theorem reported_own {spec : Optstring} {o : Own} (ho : spec o.1 = some true) (hdash : o.1 ≠ '-') (c : Char) (test : Text → Bool)
    (args : List Text) :
    reported spec c test (flag o.1 :: o.2 :: args) = (decide (o.1 = c) && test o.2 || reported spec c test args) := by
  rw [reported, flag, getopts_optarg ho hdash, List.any_cons]
  rfl

theorem given_own {x : Usage t} {o : Own} (ho : x.spec o.1 = some true) (hdash : o.1 ≠ '-') (c : Char) (test : Text → Bool)
    (args : List Text) : Given x c test (flag o.1 :: o.2 :: args) ↔ o.1 = c ∧ test o.2 = true ∨ Given x c test args := by
  have hoptions : optionsFrom x.spec none (flag o.1 :: o.2 :: args) = (o.1, some o.2) :: optionsFrom x.spec none args := by
    rw [optionsFrom, flag, optionText_flag hdash]
    simp [cluster, ho, optionsFrom]
  unfold Given
  rw [hoptions]
  constructor
  · rintro ⟨v, hmem, hv⟩
    rcases List.mem_cons.mp hmem with heq | hmem
    · cases heq
      exact Or.inl ⟨rfl, hv⟩
    · exact Or.inr ⟨v, hmem, hv⟩
  · rintro (⟨rfl, hv⟩ | ⟨v, hmem, hv⟩)
    · exact ⟨o.2, List.mem_cons_self, hv⟩
    · exact ⟨v, List.mem_cons_of_mem _ hmem, hv⟩

/-- An option that stands against `-c version=`. -/
def Against (t : Tool) (c : Char) (p : Own) : Prop := p.1 = c ∧ isVersion p.2 = true ∨ t = .zfs ∧ p.1 = 'V'

/-- The wrapper's `getopts` and the command agree on the letters that the former knows. -/
theorem letter_spec (x : Usage t) {c : Char} (hc : c ∈ letters t) :
    (match t with | .zfs => zfsOptstring | .zpool => zpoolOptstring) c = some true ∧ x.spec c = some true ∧ c ≠ '-' := by
  cases t with
  | zfs =>
    rcases List.mem_pair.mp hc with rfl | rfl
    · exact ⟨rfl, x.o, by decide⟩
    · exact ⟨rfl, x.other, by decide⟩
  | zpool =>
    rcases List.mem_pair.mp hc with rfl | rfl
    · exact ⟨rfl, x.o, by decide⟩
    · exact ⟨rfl, x.other, by decide⟩

theorem sees_own (x : Usage t) {p : Own} (hp : p.1 ∈ letters t) (c : Char) (args : List Text) :
    sees t c (flag p.1 :: p.2 :: args) = true ↔ Against t c p ∨ sees t c args = true := by
  obtain ⟨hspec, -, hdash⟩ := letter_spec x hp
  cases t with
  | zfs =>
    rw [sees, sees, reported_own hspec hdash, reported_own hspec hdash]
    simp only [Against, Bool.or_eq_true, Bool.and_eq_true, decide_eq_true_eq]
    tauto
  | zpool =>
    rw [sees, sees, reported_own hspec hdash]
    simp [Against]

theorem hasVersion_own {x : Usage t} {p : Own} (hp : p.1 ∈ letters t) (c : Char) (args : List Text) :
    HasVersion x c (flag p.1 :: p.2 :: args) ↔ Against t c p ∨ HasVersion x c args := by
  obtain ⟨-, hreal, hdash⟩ := letter_spec x hp
  cases t with
  | zfs =>
    rw [HasVersion, HasVersion, Against, given_own hreal hdash, given_own hreal hdash]
    simp only [true_and, and_true]
    tauto
  | zpool =>
    rw [HasVersion, HasVersion, Against, given_own hreal hdash]
    simp

/-- A version that is in front already is found by the wrapper, and by the command. -/
theorem versions_own {x : Usage t} {p : Own} (hp : p.1 ∈ letters t) {args : List Text} {o : Own}
    (ho : o ∈ ownOptions s t .version (flag p.1 :: p.2 :: args)) :
    o ∈ ownOptions s t .version args ∧ (HasVersion x o.1 (flag p.1 :: p.2 :: args) → HasVersion x o.1 args) := by
  obtain ⟨v, hv, hne, hseen, ho⟩ := mem_version.mp ho
  have hnot : ¬(Against t o.1 p ∨ sees t o.1 args = true) := by
    rw [← sees_own x hp, hseen]
    exact Bool.false_ne_true
  rw [not_or] at hnot
  refine ⟨mem_version.mpr ⟨v, hv, hne, eq_false_of_ne_true hnot.2, ho⟩, fun h => ?_⟩
  exact ((hasVersion_own hp _ _).mp h).resolve_left hnot.1

/-- The same behind any number of own options. -/
theorem versions_grown {x : Usage t} {own : List Own} (hown : ∀ p ∈ own, p.1 ∈ letters t) {args : List Text} {o : Own}
    (ho : o ∈ ownOptions s t .version (ownWords own ++ args)) :
    o ∈ ownOptions s t .version args ∧ (HasVersion x o.1 (ownWords own ++ args) → HasVersion x o.1 args) := by
  induction own with
  | nil => exact ⟨ho, id⟩
  | cons p own ih =>
    obtain ⟨hmem, hfront⟩ := @versions_own s t x p (hown p List.mem_cons_self) (ownWords own ++ args) o ho
    obtain ⟨hmem', hrest⟩ := ih (fun q hq => hown q (List.mem_cons_of_mem p hq)) hmem
    exact ⟨hmem', fun h => hrest (hfront h)⟩

/-- Nothing is missed where the options are those that the wrapper knows, each with its argument in a word of its own. -/
theorem never_missed (x : Usage t) {own : List Own} (hown : ∀ p ∈ own, p.1 ∈ letters t) {operands : List Text}
    (hoperands : ∀ a ∈ operands.head?, ∀ u, optionText a ≠ some (false, u)) :
    ∀ o ∈ ownOptions s t .version (ownWords own ++ operands), ¬HasVersion x o.1 (ownWords own ++ operands) := by
  intro o ho hversion
  have hnone : optionsFrom x.spec none operands = [] := by
    cases operands with
    | nil => rfl
    | cons a as =>
      rw [optionsFrom]
      split
      · rename_i u hu
        exact absurd hu (hoperands a rfl u)
      · rfl
  have hgiven : ∀ c test, ¬Given x c test operands := by
    rintro c test ⟨v, hv, -⟩
    rw [hnone] at hv
    cases hv
  have hhas := (versions_grown hown ho).2 hversion
  cases t with
  | zfs => exact hhas.elim (hgiven _ _) (hgiven _ _)
  | zpool => exact hgiven _ _ hhas

theorem ownOptions_grown {own : List Own} (hown : ∀ p ∈ own, p.1 ∈ letters t) {args : List Text} {o : Own}
    (ho : o ∈ ownOptions s t w (ownWords own ++ args)) : o ∈ ownOptions s t w args := by
  cases w with
  | version =>
    exact (@versions_grown s t ⟨fun _ => some true, rfl, by cases t <;> rfl⟩ own hown args o ho).1
  | crypto => cases t <;> exact ho

/-! ## Runs -/

theorem flag_plain {c : Char} (hc : c ∈ letters t) : PlainArg isIfs (flag c) := by
  have hflags : PlainArg isIfs (flag 'o') ∧ PlainArg isIfs (flag 'O') ∧ PlainArg isIfs (flag 'V') := by
    refine ⟨⟨?_, ?_, rfl, rfl⟩, ⟨?_, ?_, rfl, rfl⟩, ?_, ?_, rfl, rfl⟩ <;> simp [flag, isIfs]
  cases t with
  | zfs =>
    rcases List.mem_pair.mp hc with rfl | rfl
    · exact hflags.1
    · exact hflags.2.2
  | zpool =>
    rcases List.mem_pair.mp hc with rfl | rfl
    · exact hflags.1
    · exact hflags.2.1

/-- What the words may be after some wrappers: the arguments, or with plain options behind `create`. -/
inductive Grown (t : Tool) (args : List Text) : List Text → Prop
  | same (h : args.head? ≠ some createWord) : Grown t args args
  | behind (rest : List Text) (own : List Own) (hargs : args = createWord :: rest)
      (hown : ∀ p ∈ own, p.1 ∈ letters t ∧ PlainArg isIfs p.2) : Grown t args (createWord :: (ownWords own ++ rest))

theorem ownWords_append (own own' : List Own) : ownWords (own ++ own') = ownWords own ++ ownWords own' := List.flatMap_append

theorem ownWords_plain {own : List Own} (hown : ∀ p ∈ own, p.1 ∈ letters t ∧ PlainArg isIfs p.2) :
    ∀ a ∈ ownWords own, PlainArg isIfs a := by
  intro a ha
  obtain ⟨p, hp, ha⟩ := List.mem_flatMap.mp ha
  rcases List.mem_pair.mp ha with rfl | rfl
  · exact flag_plain (hown p hp).1
  · exact (hown p hp).2

theorem Grown.start (args : List Text) : Grown t args args := by
  by_cases h : args.head? = some createWord
  · obtain ⟨rest, rfl⟩ : ∃ rest, args = createWord :: rest := ⟨args.tail, (List.cons_head?_tail h).symm⟩
    exact .behind rest [] rfl fun p hp => absurd hp List.not_mem_nil
  · exact .same h

/-- A safe wrapper passes on what it is to pass on. -/
theorem Grown.step_safe {x : Usage t} {args saved : List Text} (h : Grown t args saved) (hsafe : Safe x s args w) (dir : Directory) :
    runWrapper dir s t saved w = insertOwn s t saved w ∧ Grown t args (insertOwn s t saved w) := by
  cases h with
  | same hcmd =>
    cases args with
    | nil =>
      refine ⟨?_, Grown.same hcmd⟩
      unfold runWrapper
      split
      · rfl
      · rfl
    | cons cmd args =>
      have hne : cmd ≠ createWord := fun h => hcmd (by rw [h]; rfl)
      have hmeant : meant s t w cmd args = cmd :: args := by
        rw [meant, if_neg hne]
        rfl
      refine ⟨runWrapper_plain (by rw [hmeant]; exact hsafe.plain) dir, ?_⟩
      rw [insertOwn_cons, hmeant]
      exact .same hcmd
  | behind rest own hargs hown =>
    subst hargs
    have hletters := fun p hp => (hown p hp).1
    have hnew : ∀ p ∈ ownOptions s t w (ownWords own ++ rest) ++ own, p.1 ∈ letters t ∧ PlainArg isIfs p.2 := by
      intro p hp
      rcases List.mem_append.mp hp with hp | hp
      · exact ⟨letter_of_mem_ownOptions hp, hsafe.own rest rfl p (ownOptions_grown hletters hp)⟩
      · exact hown p hp
    have hmeant : meant s t w createWord (ownWords own ++ rest) =
        createWord :: (ownWords (ownOptions s t w (ownWords own ++ rest) ++ own) ++ rest) := by
      rw [meant, if_pos rfl, ownWords_append, List.append_assoc]
    refine ⟨runWrapper_plain ?_ dir, ?_⟩
    · rw [hmeant]
      intro a ha
      rcases List.mem_cons.mp ha with rfl | ha
      · exact hsafe.plain _ List.mem_cons_self
      · rcases List.mem_append.mp ha with ha | ha
        · exact ownWords_plain hnew a ha
        · exact hsafe.plain a (List.mem_cons_of_mem _ ha)
    · rw [insertOwn_cons, hmeant]
      exact .behind rest _ rfl hnew

/-- A safe wrapper passes on what it is to pass on, and one that is not there does nothing. -/
theorem Grown.step {x : Usage t} {args saved : List Text} (h : Grown t args saved) (hsafe : executable t w = true → Safe x s args w)
    (dir : Directory) : runWrapper dir s t saved w = insertOwn s t saved w ∧ Grown t args (insertOwn s t saved w) := by
  cases hexec : executable t w with
  | false =>
    have hmissing := @runWrapper_missing s t w hexec dir saved
    rw [hmissing.1, hmissing.2]
    exact ⟨rfl, h⟩
  | true =>
    exact h.step_safe (hsafe hexec) dir

/-- Where all wrappers are safe, the run is as it is meant to be. -/
theorem kept_of_safe {x : Usage t} {ws : List Wrap} {args : List Text} (h : ∀ w ∈ ws, executable t w = true → Safe x s args w) :
    Kept x s ws args := by
  have hgrown : ∀ dir us, (∀ w ∈ us, executable t w = true → Safe x s args w) →
      finalArgs dir s t us args = us.foldl (insertOwn s t) args ∧ Grown t args (finalArgs dir s t us args) := by
    intro dir us hus
    refine @foldl_induction _ _ _ args (fun us saved => saved = us.foldl (insertOwn s t) args ∧ Grown t args saved)
      (fun _ w => executable t w = true → Safe x s args w) ⟨rfl, .start args⟩ (fun us saved w hinv hsafe => ?_) us
      fun us w vs hsplit => hus w (by simp [hsplit])
    obtain ⟨rfl, hgrown⟩ := hinv
    obtain ⟨hstep, hnext⟩ := hgrown.step hsafe dir
    rw [hstep, List.foldl_append]
    exact ⟨rfl, hnext⟩
  refine ⟨fun dir => (hgrown dir ws h).1, ?_⟩
  rintro us vs rfl rest hrest o ho
  have hinv := hgrown .crossed us fun w hw => h w (List.mem_append_left _ hw)
  have hsafe := h .version (by simp) (by cases t <;> rfl)
  rw [hinv.1, hrest] at hinv
  cases hinv.2 with
  | same hcmd => exact absurd rfl hcmd
  | behind rest own hargs hown =>
    have hversions := @versions_grown s t x own (fun p hp => (hown p hp).1) rest o ho
    exact fun hhas => once_iff.mpr (hsafe.found rfl rest hargs) o hversions.1 (hversions.2 hhas)

/-- A list of one wrapper keeps the arguments only if the wrapper is safe. -/
theorem safe_of_kept {x : Usage t} (hexec : executable t w = true) {args : List Text} (h : Kept x s [w] args) : Safe x s args w := by
  have hstep : runWrapper .crossed s t args w = insertOwn s t args w := h.same .crossed
  cases args with
  | nil => exact ⟨fun a ha => absurd ha List.not_mem_nil, (fun _ h => nomatch h), (fun _ _ h => nomatch h)⟩
  | cons cmd args =>
    have hplain := meant_plain hexec hstep
    refine ⟨fun a ha => hplain a ?_, ?_, ?_⟩
    · rcases List.mem_cons.mp ha with rfl | ha
      · exact List.mem_cons_self
      · exact List.mem_cons_of_mem _ (List.mem_append_right _ ha)
    · intro rest hargs o ho
      cases hargs
      refine hplain o.2 (List.mem_cons_of_mem _ (List.mem_append_left _ ?_))
      rw [if_pos rfl]
      exact List.mem_flatMap_of_mem ho (by simp)
    · rintro rfl rest hargs
      exact once_iff.mp (h.once [] [] rfl rest hargs)

/-- A list and all lists of its wrappers keep the arguments exactly if its wrappers are safe. -/
theorem wrappers_keep_iff (x : Usage t) (s : Settings) (ws : List Wrap) (args : List Text) :
    (∀ vs, vs ⊆ ws → Kept x s vs args) ↔ ∀ w ∈ ws, executable t w = true → Safe x s args w :=
  ⟨fun h w hw hexec => safe_of_kept hexec (h [w] fun _ hv => List.mem_singleton.mp hv ▸ hw),
    fun h _ hvs => kept_of_safe fun w hw => h w (hvs hw)⟩

/-- One list alone may keep what each of its wrappers destroys: here the third wrapper prints the option again that the first one has cut. -/
example :
    let saved := ["create".toList, "-O".toList, "version=1\\n2".toList, "-o".toList, "version=3".toList]
    finalArgs .crossed ⟨"1\\\\n2".toList, "3\\c".toList, [], [], [], [], []⟩ .zpool [.version, .version, .version] saved = saved := by
  decide

/-- `zfs create [-sp] [-b size] [-o name=value]... [-V size]`. -/
def zfsCreate : Usage .zfs where
  spec c := if c = 'o' || c = 'V' || c = 'b' then some true else if c = 's' || c = 'p' then some false else none
  o := rfl
  other := rfl

def versionFive : Settings := ⟨['5'], ['0'], [], [], [], [], []⟩

/-- `zfs create -o mountpoint='/a b' tank/fs`: the argument is cut in two. -/
theorem mountpoint_cut : ¬Kept zfsCreate versionFive [.version]
    ["create".toList, "-o".toList, "mountpoint=/a b".toList, "tank/fs".toList] := by
  intro h
  have hsame := h.same .crossed
  revert hsame
  decide

/-- `zfs create -b 8k -V 1g tank/vol`: the volume is not seen behind the size of its blocks. -/
example : ownOptions versionFive .zfs .version ["-b".toList, "8k".toList, "-V".toList, "1g".toList, "tank/vol".toList] =
    [('o', "version=5".toList)] := by
  decide

end ZfsTest.Libtest.Wrapper
