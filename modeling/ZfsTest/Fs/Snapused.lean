import Mathlib.Algebra.BigOperators.Group.List.Basic
import Mathlib.Algebra.GroupWithZero.Nat
import Mathlib.Algebra.Order.BigOperators.Group.List
import Mathlib.Data.Int.ModEq
import Mathlib.Data.List.Nodup
import ZfsTest.Num.Signed

/-!
# The space used by children, `check_usedbychildren`

The function compares the property `usedbychildren` of a dataset with a sum over the listing of `zfs list -r`. The listing has all
datasets below the given one, but what a child uses already contains what its own children use. So the check fails for accurate
trees with used space two levels down, and an inaccurate value can pass. The two numbers that are compared are variables of `typeset -i`
and keep 32 bits, so that values also pass that differ by a multiple of 4 GB (`check_usedbychildren_faithful_iff`). For less than 2 GB the
check is faithful exactly when nothing is used two levels down, or when the tree is inaccurate and the value is not the sum over all
levels (`faithful_iff_of_small`).
-/

namespace ZfsTest.Fs

/-- The properties that the check reads, in bytes. -/
structure Space where
  reservation : Nat
  used : Nat
  usedbychildren : Nat
  deriving DecidableEq, Repr

/-- A file system or a volume, with the datasets below it. -/
inductive Dataset (ν : Type)
  | mk (name : ν) (space : Space) (children : List (Dataset ν))

variable {ν : Type}

namespace Dataset

def name : Dataset ν → ν
  | mk name _ _ => name

def space : Dataset ν → Space
  | mk _ space _ => space

def children : Dataset ν → List (Dataset ν)
  | mk _ _ children => children

mutual

/-- The dataset and all datasets below it. -/
def nodes : Dataset ν → List (Dataset ν)
  | mk name space children => mk name space children :: nodesOf children

def nodesOf : List (Dataset ν) → List (Dataset ν)
  | [] => []
  | d :: ds => nodes d ++ nodesOf ds

end

/-- What a child adds to the space of its parent. -/
def amount (d : Dataset ν) : Nat := max d.space.reservation d.space.used

/-- The sum that `usedbychildren` stands for. -/
def childrenSum (d : Dataset ν) : Nat := (d.children.map amount).sum

/-- What the loop adds for a dataset, in a shell that compares numbers of `width` bits. -/
def counted (width : Nat) (d : Dataset ν) : Nat :=
  if wrap width d.space.used < wrap width d.space.reservation then d.space.reservation else d.space.used

/-- The sum of the loop, over the datasets of all levels below. -/
def levelsSum (width : Nat) (d : Dataset ν) : Nat := ((nodesOf d.children).map (counted width)).sum

/-- The sum over the datasets two or more levels down. -/
def deeperSum (d : Dataset ν) : Nat := (d.children.map fun c => ((nodesOf c.children).map amount).sum).sum

/-- In every dataset of the tree the property is that sum. -/
def Accurate (t : Dataset ν) : Prop := ∀ d ∈ t.nodes, d.space.usedbychildren = d.childrenSum

/-! ## The tree -/

theorem nodesOf_eq (ds : List (Dataset ν)) : nodesOf ds = ds.flatMap nodes := by
  induction ds with
  | nil => rfl
  | cons d ds ih => rw [nodesOf, ih, List.flatMap_cons]

theorem nodes_eq (d : Dataset ν) : d.nodes = d :: d.children.flatMap nodes := by
  cases d with
  | mk name space children => rw [nodes, nodesOf_eq]; rfl

theorem sizeOf_lt_of_mem {d c : Dataset ν} (h : c ∈ d.children) : sizeOf c < sizeOf d := by
  cases d with
  | mk name space children =>
    have hlt : sizeOf c < sizeOf children := List.sizeOf_lt_of_mem h
    rw [mk.sizeOf_spec]
    omega

/-- Induction over a tree. -/
theorem induction {P : Dataset ν → Prop} (h : ∀ d, (∀ c ∈ d.children, P c) → P d) (d : Dataset ν) : P d :=
  h d fun c _ => induction h c
termination_by sizeOf d
decreasing_by exact sizeOf_lt_of_mem ‹_›

/-- The datasets below a dataset of a tree are datasets of the tree. -/
theorem nodes_sublist (t : Dataset ν) : ∀ d ∈ t.nodes, d.nodes.Sublist t.nodes := by
  induction t using induction with
  | h t ih =>
    intro d hd
    rw [nodes_eq] at hd
    rcases List.mem_cons.1 hd with rfl | hd
    · exact List.Sublist.refl _
    · obtain ⟨c, hc, hd⟩ := List.mem_flatMap.1 hd
      rw [nodes_eq t]
      refine ((ih c hc d hd).trans ?_).cons t
      exact List.sublist_flatten_of_mem (List.mem_map_of_mem hc)

end Dataset

open Dataset

/-! ## `check_usedbychildren` -/

/-- The message of `log_fail`. -/
structure Mismatch (ν : Type) where
  dataset : ν
  parent : Int
  sum : Int
  deriving DecidableEq, Repr

/-- `parent_usedbychildren` and `usedbychildren_sum`, which are variables of `typeset -i`. -/
structure Sums where
  parent : Int
  sum : Int
  deriving DecidableEq, Repr

section

variable [DecidableEq ν] (width : Nat) (pool : Dataset ν)

/-- `zfs list -rH -t filesystem,volume -o name`. Snapshots are not listed, so the test of the loop for them is never true. -/
def zfsList (dataset : ν) : List ν :=
  match pool.nodes.find? fun d => d.name = dataset with
  | some d => d.nodes.map name
  | none => []

/-- `get_prop`; an empty text is zero in an arithmetic expression. -/
def getProp (prop : Space → Nat) (dataset : ν) : Nat :=
  match pool.nodes.find? fun d => d.name = dataset with
  | some d => prop d.space
  | none => 0

/-- One round of the loop. -/
def addChild (dataset : ν) (s : Sums) (child : ν) : Sums :=
  if child = dataset then { s with parent := wrap 32 (getProp pool Space.usedbychildren child) }
  else
    let reservation := getProp pool Space.reservation child
    let used := getProp pool Space.used child
    -- the two are no variables of `typeset -i`, so the comparison is that of the shell's arithmetic
    if wrap width used < wrap width reservation then { s with sum := wrap 32 (s.sum + reservation) }
    else { s with sum := wrap 32 (s.sum + used) }

/-- What `log_fail` is called with, if it is called. -/
def checkUsedbychildren (dataset : ν) : Option (Mismatch ν) :=
  let s := (zfsList pool dataset).foldl (addChild width pool dataset) ⟨0, 0⟩
  if s.parent = s.sum then none else some ⟨dataset, s.parent, s.sum⟩

/-- What the check is for: it passes everywhere in an accurate tree, and does not pass where the value is wrong. -/
def Faithful (d : Dataset ν) : Prop :=
  (pool.Accurate → checkUsedbychildren width pool d.name = none) ∧
    (d.space.usedbychildren ≠ d.childrenSum → checkUsedbychildren width pool d.name ≠ none)

variable {width : Nat} {pool}

theorem find_of_mem (hnames : (pool.nodes.map name).Nodup) {d : Dataset ν} (hd : d ∈ pool.nodes) :
    pool.nodes.find? (fun e => e.name = d.name) = some d := by
  cases he : pool.nodes.find? (fun e => e.name = d.name) with
  | none => exact absurd (decide_eq_true rfl) (List.find?_eq_none.1 he d hd)
  | some e =>
    have hname : e.name = d.name := by simpa using List.find?_some he
    rw [ List.inj_on_of_nodup_map hnames (List.mem_of_find?_eq_some he) hd hname]

theorem getProp_of_mem (hnames : (pool.nodes.map name).Nodup) {d : Dataset ν} (hd : d ∈ pool.nodes) (prop : Space → Nat) :
    getProp pool prop d.name = prop d.space := by
  unfold getProp
  rw [find_of_mem hnames hd]

/-- A round for another dataset than the given one. -/
theorem addChild_of_ne (hnames : (pool.nodes.map name).Nodup) {d : Dataset ν} (hd : d ∈ pool.nodes) {dataset : ν}
    (hne : d.name ≠ dataset) (s : Sums) :
    addChild width pool dataset s d.name = { s with sum := wrap 32 (s.sum + (d.counted width : Nat)) } := by
  unfold addChild counted
  rw [if_neg hne, getProp_of_mem hnames hd, getProp_of_mem hnames hd]
  dsimp only
  split <;> rfl

theorem foldl_addChild (hnames : (pool.nodes.map name).Nodup) {dataset : ν} (ds : List (Dataset ν)) (hds : ∀ d ∈ ds, d ∈ pool.nodes)
    (hne : ∀ d ∈ ds, d.name ≠ dataset) (s : Sums) (hs : wrap 32 s.sum = s.sum) :
    (ds.map name).foldl (addChild width pool dataset) s = { s with sum := wrap 32 (s.sum + ((ds.map (counted width)).sum : Nat)) } := by
  induction ds generalizing s with
  | nil => simp only [List.map_nil, List.foldl_nil, List.sum_nil, Nat.cast_zero, add_zero, hs]
  | cons d ds ih =>
    rw [List.forall_mem_cons] at hds hne
    have hagain := inRange_wrap (w := 32) (by decide) (s.sum + (d.counted width : Nat))
    rw [List.map_cons, List.foldl_cons, addChild_of_ne hnames hds.1 hne.1, ih hds.2 hne.2 _ (wrap_of_inRange (by decide) hagain)]
    simp only [wrap_wrap_add, List.map_cons, List.sum_cons, Nat.cast_add, add_assoc]

end

theorem sum_below (d : Dataset ν) : ((nodesOf d.children).map amount).sum = d.childrenSum + d.deeperSum := by
  unfold childrenSum deeperSum
  induction d.children with
  | nil => rfl
  | cons c cs ih =>
    rw [nodesOf, List.map_append, List.sum_append, ih, nodes_eq c, List.map_cons, List.sum_cons, List.map_cons, List.sum_cons,
      List.map_cons, List.sum_cons, nodesOf_eq]
    omega

/-- Numbers of 32 bits are equal when the numbers differ by a multiple of `2 ^ 32`. -/
theorem wrap_inj_iff (m n : Nat) : wrap 32 (m : Int) = wrap 32 n ↔ m ≡ n [MOD 2 ^ 32] := by
  rw [← Int.natCast_modEq_iff]
  exact wrap_eq_wrap_iff

variable {width : Nat}

/-- The loop adds up what `usedbychildren` is about, over all levels, as long as the sum is small. -/
theorem levelsSum_of_small (hwidth : 32 ≤ width) {d : Dataset ν} (hsmall : d.childrenSum + d.deeperSum < 2 ^ 31) :
    d.levelsSum width = d.childrenSum + d.deeperSum := by
  rw [← sum_below] at hsmall ⊢
  rw [levelsSum]
  refine congrArg List.sum (List.map_congr_left fun e he => ?_)
  have hle : e.amount ≤ ((nodesOf d.children).map amount).sum := List.single_le_sum (by simp) _ (List.mem_map_of_mem he)
  have hmax : (2 : Int) ^ 31 - 1 ≤ maxSigned width := by
    have hpow : 2 ^ 31 ≤ 2 ^ (width - 1) := Nat.pow_le_pow_right (by decide) (by omega)
    have hadd := maxSigned_add_one width
    omega
  have hkeep : ∀ n : Nat, n ≤ e.amount → wrap width (n : Int) = n := fun n hn =>
    wrap_of_inRange (by omega) (inRange_of_nonneg (Int.natCast_nonneg n) (by omega))
  rw [counted, hkeep _ (Nat.le_max_right ..), hkeep _ (Nat.le_max_left ..), amount]
  split <;> omega

variable [DecidableEq ν] {pool : Dataset ν}

/-- The check compares with the sum over all levels, in 32 bits. -/
theorem checkUsedbychildren_eq_none_iff (hnames : (pool.nodes.map name).Nodup) {d : Dataset ν} (hd : d ∈ pool.nodes) :
    checkUsedbychildren width pool d.name = none ↔ d.space.usedbychildren ≡ d.levelsSum width [MOD 2 ^ 32] := by
  have hsub := nodes_sublist pool d hd
  have hbelow := (hsub.map name).nodup hnames
  have hnodes : d.nodes = d :: nodesOf d.children := by rw [nodes_eq, nodesOf_eq]
  have hmem : ∀ e ∈ nodesOf d.children, e ∈ pool.nodes := by
    intro e he
    refine hsub.subset ?_
    rw [hnodes]
    exact List.mem_cons_of_mem _ he
  have hne : ∀ e ∈ nodesOf d.children, e.name ≠ d.name := by
    rw [hnodes, List.map_cons, List.nodup_cons] at hbelow
    intro e he heq
    exact hbelow.1 (List.mem_map.2 ⟨e, he, heq⟩)
  have hlist : zfsList pool d.name = d.name :: (nodesOf d.children).map name := by
    unfold zfsList
    rw [find_of_mem hnames hd, ← List.map_cons, ← hnodes]
  have hzero : wrap 32 0 = 0 := Int.zero_bmod
  have hfold : (zfsList pool d.name).foldl (addChild width pool d.name) ⟨0, 0⟩ =
      ⟨wrap 32 (d.space.usedbychildren : Int), wrap 32 (d.levelsSum width : Nat)⟩ := by
    rw [hlist, List.foldl_cons, addChild, if_pos rfl, foldl_addChild hnames _ hmem hne _ hzero, getProp_of_mem hnames hd]
    simp only [zero_add, levelsSum]
  unfold checkUsedbychildren
  simp only [hfold, wrap_inj_iff]
  split
  · rename_i h
    exact iff_of_true rfl h
  · rename_i h
    exact iff_of_false nofun h

/-- The check is faithful at a dataset when it sees that the value is right, or that it is wrong: the sum over all levels differs from the
value by a multiple of `2 ^ 32` exactly when the value is right. It may also miss a right value in a tree that is not accurate. -/
theorem check_usedbychildren_faithful_iff (width : Nat) (pool : Dataset ν) (hnames : (pool.nodes.map name).Nodup) (d : Dataset ν)
    (hd : d ∈ pool.nodes) :
    Faithful width pool d ↔
      if d.space.usedbychildren = d.childrenSum then d.space.usedbychildren ≡ d.levelsSum width [MOD 2 ^ 32] ∨ ¬pool.Accurate
      else ¬d.space.usedbychildren ≡ d.levelsSum width [MOD 2 ^ 32] := by
  unfold Faithful
  rw [ne_eq, ne_eq, checkUsedbychildren_eq_none_iff hnames hd]
  split
  · rename_i hvalue
    exact ⟨fun h => or_iff_not_imp_right.mpr fun hacc => h.1 (not_not.mp hacc),
      fun h => ⟨fun hacc => h.resolve_right (not_not_intro hacc), fun hne => absurd hvalue hne⟩⟩
  · rename_i hvalue
    exact ⟨fun h => h.2 hvalue, fun h => ⟨fun hacc => absurd (hacc d hd) hvalue, fun _ => h⟩⟩

/-- With less than 2 GB below it, the check is faithful at a dataset exactly when nothing is used two levels down, or the tree is not
accurate and the value is not the sum over all levels. -/
theorem faithful_iff_of_small (hwidth : 32 ≤ width) (hnames : (pool.nodes.map name).Nodup) {d : Dataset ν} (hd : d ∈ pool.nodes)
    (hsmall : d.childrenSum + d.deeperSum < 2 ^ 31) (hvalue : d.space.usedbychildren < 2 ^ 31) :
    Faithful width pool d ↔ d.deeperSum = 0 ∨ ¬pool.Accurate ∧ d.space.usedbychildren ≠ d.childrenSum + d.deeperSum := by
  have hmod : d.space.usedbychildren ≡ d.levelsSum width [MOD 2 ^ 32] ↔ d.space.usedbychildren = d.childrenSum + d.deeperSum := by
    rw [levelsSum_of_small hwidth hsmall, Nat.ModEq, Nat.mod_eq_of_lt (by omega), Nat.mod_eq_of_lt (by omega)]
  have hacc : pool.Accurate → d.space.usedbychildren = d.childrenSum := fun h => h d hd
  rw [check_usedbychildren_faithful_iff width pool hnames d hd, hmod]
  split
  · rename_i hright
    constructor
    · rintro (h | h)
      · exact .inl (by omega)
      · by_cases hdeeper : d.deeperSum = 0
        · exact .inl hdeeper
        · exact .inr ⟨h, by omega⟩
    · rintro (h | h)
      · exact .inl (by omega)
      · exact .inr h.1
  · rename_i hwrong
    constructor
    · exact fun h => .inr ⟨fun hall => hwrong (hacc hall), h⟩
    · rintro (h | h)
      · omega
      · exact h.2

/-- A file system with a child of ten bytes. -/
theorem check_usedbychildren_faithful_sample :
    Faithful 32 (mk 0 ⟨0, 12, 10⟩ [mk 1 ⟨0, 10, 0⟩ []]) (mk 0 ⟨0, 12, 10⟩ [mk 1 ⟨0, 10, 0⟩ []]) :=
  (check_usedbychildren_faithful_iff 32 _ (by decide) _ (List.mem_cons_self ..)).2 (.inl (by decide))

/-- Three levels: the child uses ten bytes, and these are those of its own child. -/
def threeLevels : Dataset Nat := mk 0 ⟨0, 10, 10⟩ [mk 1 ⟨0, 10, 10⟩ [mk 2 ⟨0, 10, 0⟩ []]]

theorem not_check_usedbychildren_faithful : ¬Faithful 32 threeLevels threeLevels := by
  rintro ⟨hall, -⟩
  have haccurate : threeLevels.Accurate := by
    intro d hd
    have hd : d ∈ [threeLevels, mk 1 ⟨0, 10, 10⟩ [mk 2 ⟨0, 10, 0⟩ []], mk 2 ⟨0, 10, 0⟩ []] := hd
    simp only [List.mem_cons, List.not_mem_nil, or_false] at hd
    rcases hd with rfl | rfl | rfl <;> rfl
  exact absurd (hall haccurate) (by decide)

end ZfsTest.Fs
