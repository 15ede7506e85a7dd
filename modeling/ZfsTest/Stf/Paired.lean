import ZfsTest.Stf.Execute

/-!
# Setup and cleanup are paired

In the log of a mode (`executeMode`), the test cases of a directory come after the setups of the directory and of all directories
above, and its cleanup scripts run once, after the test cases and the cleanups below, when its setup has been entered (`Paired`).

This fails in one case. A directory above the start directory is put on the list of directories to clean up before its setup, and
its cleanup scripts run although the setup was never entered when something that comes before it fails (`executeMode_paired_iff`).
-/

namespace ZfsTest.Stf

/-! ## Pairing -/

/-- No setup of a directory comes after a test case of the directory or below it; no test case of a directory and no cleanup of a
directory below it comes after its cleanup. -/
def Ordered : Event → Event → Prop
  | .test d _, .setup q _ => ¬q <+: d
  | .cleanup d _, .test d' _ => d' ≠ d
  | .cleanup d _, .cleanup d' _ => d <+: d' → d' = d
  | _, _ => True

def Event.isCleanup (d : Path) : Event → Bool
  | .cleanup q _ => q = d
  | _ => false

/-- A directory with a test case that has been run has been set up, and so have all directories above it. The cleanup scripts of a
directory are run once when its setup has been entered, and else not at all. And a failure is not forgotten. -/
structure Paired (root : Tree Dir) (exit : Nat) (log : List Event) : Prop where
  setups : ∀ d t, .test d t ∈ log → ∀ q, q <+: d → ∀ s ∈ (root.at q).dir.setups, s.ok = true ∧ .setup q s ∈ log
  cleanups : ∀ d, log.filter (Event.isCleanup d) =
    if .enterSetup d ∈ log then (root.at d).dir.cleanups.map (.cleanup d) else []
  ordered : log.Pairwise Ordered
  exit : (∃ e ∈ log, e.failed = true) → exit ≠ 0

/-- The first of the directories above that does not reach its setup, if those above it have been set up, has no cleanup scripts. -/
def ParentsOk (root : Tree Dir) : List Path → Prop
  | [] => True
  | p :: ps =>
    let dir := (root.at p).dir
    if dir.failMark then True
    else if dir.reachesSetup then (dir.setups.all Script.ok = true → ParentsOk root ps)
    else dir.cleanups = []

/-! ## Blocks of the log -/

/-- A part of the log that runs the directories of a region, and whether something in it has failed. -/
structure Block (root : Tree Dir) (region : Path → Prop) (failed : Bool) (log : List Event) : Prop where
  inside : ∀ e ∈ log, region e.path
  setups : ∀ d t, .test d t ∈ log → ∀ q, region q → q <+: d → ∀ s ∈ (root.at q).dir.setups, s.ok = true ∧ .setup q s ∈ log
  cleanups : ∀ d, log.filter (Event.isCleanup d) =
    if .enterSetup d ∈ log then (root.at d).dir.cleanups.map (.cleanup d) else []
  ordered : log.Pairwise Ordered
  failed : ∀ e ∈ log, e.failed = true → failed = true

variable {root : Tree Dir} {p : Path} {f : Bool} {log : List Event}

theorem Block.nil (region : Path → Prop) (f : Bool) : Block root region f [] :=
  ⟨fun _ h => (by cases h), fun _ _ h => (by cases h), fun _ => rfl, List.Pairwise.nil, fun _ h => (by cases h)⟩

/-- A directory outside the region has no events. -/
theorem Block.filter_outside {region : Path → Prop} (hb : Block root region f log) {d : Path} (hd : ¬region d) :
    log.filter (Event.isCleanup d) = [] ∧ .enterSetup d ∉ log := by
  constructor
  · rw [List.filter_eq_nil_iff]
    intro e he hc
    cases e with
    | cleanup q s =>
      have hq : q = d := of_decide_eq_true hc
      exact hd (hq ▸ hb.inside _ he)
    | checkenv q s => cases hc
    | enterSetup q => cases hc
    | setup q s => cases hc
    | test q t => cases hc
  · exact fun he => hd (hb.inside _ he)

/-- A block seen from a larger region, in which nothing more is above its test cases. -/
theorem Block.widen {region region' : Path → Prop} (hb : Block root region f log) (hsub : ∀ d, region d → region' d)
    (habove : ∀ d q, region d → region' q → q <+: d → region q) : Block root region' f log :=
  ⟨fun e he => hsub _ (hb.inside e he), fun d t ht q hq hqd => hb.setups d t ht q (habove d q (hb.inside _ ht) hq hqd) hqd,
    hb.cleanups, hb.ordered, hb.failed⟩

/-- Two blocks of regions that have nothing to do with each other. -/
theorem Block.append {r₁ r₂ : Path → Prop} {f₁ f₂ : Bool} {log₁ log₂ : List Event} (h₁ : Block root r₁ f₁ log₁)
    (h₂ : Block root r₂ f₂ log₂) (h₁₂ : ∀ d q, r₁ d → r₂ q → ¬d <+: q) (h₂₁ : ∀ d q, r₁ d → r₂ q → ¬q <+: d) :
    Block root (fun d => r₁ d ∨ r₂ d) (f₁ || f₂) (log₁ ++ log₂) where
  inside e he := (List.mem_append.mp he).imp (h₁.inside e) (h₂.inside e)
  setups d t ht q hq hqd s hs := by
    rcases List.mem_append.mp ht with ht | ht
    · have hd := h₁.inside _ ht
      have hq₁ : r₁ q := hq.resolve_right fun hq₂ => h₂₁ d q hd hq₂ hqd
      obtain ⟨hok, hmem⟩ := h₁.setups d t ht q hq₁ hqd s hs
      exact ⟨hok, List.mem_append_left _ hmem⟩
    · have hd := h₂.inside _ ht
      have hq₂ : r₂ q := hq.resolve_left fun hq₁ => h₁₂ q d hq₁ hd hqd
      obtain ⟨hok, hmem⟩ := h₂.setups d t ht q hq₂ hqd s hs
      exact ⟨hok, List.mem_append_right _ hmem⟩
  cleanups d := by
    rw [List.filter_append]
    by_cases hd : r₁ d
    · have hd₂ : ¬r₂ d := fun h => h₁₂ d d hd h List.prefix_rfl
      obtain ⟨hfilter, hmem⟩ := h₂.filter_outside hd₂
      rw [hfilter, List.append_nil, h₁.cleanups d]
      simp [List.mem_append, hmem]
    · obtain ⟨hfilter, hmem⟩ := h₁.filter_outside hd
      rw [hfilter, List.nil_append, h₂.cleanups d]
      simp [List.mem_append, hmem]
  ordered := by
    rw [List.pairwise_append]
    refine ⟨h₁.ordered, h₂.ordered, fun a ha e he => ?_⟩
    have hra := h₁.inside a ha
    have hre := h₂.inside e he
    cases a with
    | test d t =>
      cases e with
      | setup q s => exact h₂₁ d q hra hre
      | checkenv q s => trivial
      | enterSetup q => trivial
      | test q t => trivial
      | cleanup q s => trivial
    | cleanup d s =>
      cases e with
      | test q t => exact fun he => h₁₂ d q hra hre (he ▸ List.prefix_rfl)
      | cleanup q s => exact fun hp => absurd hp (h₁₂ d q hra hre)
      | checkenv q s => trivial
      | enterSetup q => trivial
      | setup q s => trivial
    | checkenv d s => trivial
    | enterSetup d => trivial
    | setup d s => trivial
  failed e he hf := by
    rw [Bool.or_eq_true]
    exact (List.mem_append.mp he).imp (fun h => h₁.failed e h hf) (fun h => h₂.failed e h hf)

/-! ## The block of a directory -/

/-- What comes before the test cases. -/
def Event.isHead (p : Path) : Event → Prop
  | .checkenv q _ | .enterSetup q | .setup q _ => q = p
  | .test _ _ | .cleanup _ _ => False

theorem Event.isHead.path {e : Event} (h : e.isHead p) : e.path = p := by
  cases e with
  | checkenv q s => exact h
  | enterSetup q => exact h
  | setup q s => exact h
  | test q t => exact h.elim
  | cleanup q s => exact h.elim

theorem Event.isHead.ordered {a : Event} (h : a.isHead p) (e : Event) : Ordered a e := by
  cases a with
  | checkenv q s => trivial
  | enterSetup q => trivial
  | setup q s => trivial
  | test q t => exact h.elim
  | cleanup q s => exact h.elim

theorem Event.isHead.not_cleanup {e : Event} (h : e.isHead p) (d : Path) : e.isCleanup d = false := by
  cases e with
  | checkenv q s => rfl
  | enterSetup q => rfl
  | setup q s => rfl
  | test q t => rfl
  | cleanup q s => exact h.elim

theorem isHead_headLog {dir : Dir} {e : Event} (he : e ∈ headLog dir p) : e.isHead p := by
  have hcheck : ∀ e ∈ checkLog dir p, e.isHead p := by
    intro e he
    obtain ⟨s, -, rfl⟩ := mem_runUntil he
    exact rfl
  have hsetup : ∀ e ∈ setupLog dir p, e.isHead p := by
    intro e he
    rcases List.mem_cons.mp he with rfl | he
    · exact rfl
    · obtain ⟨s, -, rfl⟩ := mem_runUntil he
      exact rfl
  unfold headLog at he
  split at he
  · split at he
    · rcases List.mem_append.mp he with he | he
      · exact hcheck e he
      · exact hsetup e he
    · exact hcheck e he
  · cases he

theorem enterSetup_mem_headLog {dir : Dir} {d : Path} : .enterSetup d ∈ headLog dir p ↔ d = p ∧ dir.reachesSetup = true := by
  have hcheck : .enterSetup d ∉ checkLog dir p := by
    intro he
    obtain ⟨s, -, hs⟩ := mem_runUntil he
    cases hs
  by_cases hr : dir.reachesSetup = true
  · rw [headLog_of_reaches p hr, List.mem_append, setupLog, List.mem_cons]
    constructor
    · rintro (he | he | he)
      · exact absurd he hcheck
      · exact ⟨Event.enterSetup.inj he, hr⟩
      · obtain ⟨s, -, hs⟩ := mem_runUntil he
        cases hs
    · rintro ⟨rfl, -⟩
      exact Or.inr (Or.inl rfl)
  · rw [Bool.not_eq_true] at hr
    rw [headLog_of_not_reaches p hr, hr]
    constructor
    · intro he
      split at he
      · exact absurd he hcheck
      · cases he
    · rintro ⟨-, h⟩
      cases h

/-- A script of the setup that has succeeded is in the log. -/
theorem setup_mem_headLog {dir : Dir} (hr : dir.reachesSetup = true) (hs : dir.setups.all Script.ok = true) {s : Script}
    (hmem : s ∈ dir.setups) : s.ok = true ∧ .setup p s ∈ headLog dir p := by
  refine ⟨List.all_eq_true.mp hs s hmem, ?_⟩
  rw [headLog_of_reaches p hr, setupLog, runUntil_of_all hs]
  exact List.mem_append_right _ (List.mem_cons_of_mem _ (List.mem_map_of_mem hmem))

/-- A head in which something fails does not let the tests begin. -/
theorem failed_headLog {dir : Dir} {e : Event} (he : e ∈ headLog dir p) (hf : e.failed = true) :
    (dir.reachesSetup && dir.setups.all Script.ok) = false := by
  have hall : ∀ {event : Script → Event} {ss : List Script}, (∀ s, (event s).failed = !s.ok) → ss.all Script.ok = true →
      e ∈ (runUntil event ss).2 → False := by
    intro event ss hev hss hmem
    obtain ⟨s, hs, rfl⟩ := mem_runUntil hmem
    rw [hev, List.all_eq_true.mp hss s hs] at hf
    cases hf
  rw [Bool.and_eq_false_iff]
  by_cases hr : dir.reachesSetup = true
  · refine Or.inr (Bool.eq_false_iff.mpr fun hs => ?_)
    have hc : dir.checkenvs.all Script.ok = true := (Bool.and_eq_true_iff.mp hr).2
    rw [headLog_of_reaches p hr, List.mem_append, setupLog, List.mem_cons] at he
    rcases he with he | rfl | he
    · exact hall (fun _ => rfl) hc he
    · cases hf
    · exact hall (fun _ => rfl) hs he
  · exact Or.inl (Bool.eq_false_iff.mpr hr)

theorem Block.wrap {head tests below tail : List Event} {fb : Bool} (hhead : ∀ e ∈ head, e.isHead p)
    (htests : ∀ e ∈ tests, ∃ t, e = .test p t) (hbelow : Block root (Below p) fb below)
    (htail : tail = if .enterSetup p ∈ head then cleanupLog (root.at p).dir p else [])
    (hsetups : tests ++ below ≠ [] → ∀ s ∈ (root.at p).dir.setups, s.ok = true ∧ .setup p s ∈ head)
    (hfh : ∀ e ∈ head, e.failed = true → f = true) (hfb : fb = true → f = true) (hft : ∀ e ∈ tail, e.failed = true → f = true) :
    Block root (p <+: ·) f (head ++ (tests ++ (below ++ tail))) := by
  have htail' : ∀ e ∈ tail, ∃ s, e = .cleanup p s := by
    intro e he
    rw [htail] at he
    split at he
    · obtain ⟨s, -, rfl⟩ := List.mem_map.mp he
      exact ⟨s, rfl⟩
    · cases he
  have hmem : ∀ e ∈ head ++ (tests ++ (below ++ tail)), e ∈ head ∨ e ∈ tests ∨ e ∈ below ∨ e ∈ tail := by
    intro e he
    simpa only [List.mem_append] using he
  have henter : ∀ d, .enterSetup d ∈ head ++ (tests ++ (below ++ tail)) ↔
      (d = p ∧ .enterSetup p ∈ head) ∨ .enterSetup d ∈ below := by
    intro d
    constructor
    · intro he
      rcases hmem _ he with he | he | he | he
      · have hd : d = p := hhead _ he
        exact Or.inl ⟨hd, hd ▸ he⟩
      · obtain ⟨t, ht⟩ := htests _ he
        cases ht
      · exact Or.inr he
      · obtain ⟨s, hs⟩ := htail' _ he
        cases hs
    · rintro (⟨rfl, he⟩ | he)
      · exact List.mem_append_left _ he
      · exact List.mem_append_right _ (List.mem_append_right _ (List.mem_append_left _ he))
  refine ⟨fun e he => ?_, fun d t ht q hq hqd s hs => ?_, fun d => ?_, ?_, fun e he hf => ?_⟩
  · rcases hmem e he with he | he | he | he
    · exact (hhead e he).path ▸ List.prefix_rfl
    · obtain ⟨t, rfl⟩ := htests e he
      exact List.prefix_rfl
    · exact (hbelow.inside e he).1
    · obtain ⟨s, rfl⟩ := htail' e he
      exact List.prefix_rfl
  · by_cases hqp : q = p
    · have hne : tests ++ below ≠ [] := by
        intro hnil
        rw [List.append_eq_nil_iff] at hnil
        rcases hmem _ ht with ht | ht | ht | ht
        · exact hhead _ ht
        · rw [hnil.1] at ht
          cases ht
        · rw [hnil.2] at ht
          cases ht
        · obtain ⟨s, hs⟩ := htail' _ ht
          cases hs
      rw [hqp] at hs ⊢
      obtain ⟨hok, hin⟩ := hsetups hne s hs
      exact ⟨hok, List.mem_append_left _ hin⟩
    · rcases hmem _ ht with ht | ht | ht | ht
      · exact (hhead _ ht).elim
      · obtain ⟨t', ht'⟩ := htests _ ht
        cases ht'
        exact absurd (List.IsPrefix.eq_of_length_le hq hqd.length_le).symm hqp
      · obtain ⟨hok, hin⟩ := hbelow.setups d t ht q ⟨hq, hqp⟩ hqd s hs
        exact ⟨hok, List.mem_append_right _ (List.mem_append_right _ (List.mem_append_left _ hin))⟩
      · obtain ⟨s', hs'⟩ := htail' _ ht
        cases hs'
  · have hh : head.filter (Event.isCleanup d) = [] := by
      rw [List.filter_eq_nil_iff]
      intro e he hc
      rw [(hhead e he).not_cleanup] at hc
      cases hc
    have ht : tests.filter (Event.isCleanup d) = [] := by
      rw [List.filter_eq_nil_iff]
      intro e he hc
      obtain ⟨t, rfl⟩ := htests e he
      cases hc
    rw [List.filter_append, List.filter_append, List.filter_append, hh, ht, List.nil_append, List.nil_append]
    by_cases hd : d = p
    · subst hd
      obtain ⟨hfilter, hnot⟩ := hbelow.filter_outside (d := d) fun h => h.2 rfl
      have hall : tail.filter (Event.isCleanup d) = tail := by
        rw [List.filter_eq_self]
        intro e he
        obtain ⟨s, rfl⟩ := htail' e he
        exact decide_eq_true rfl
      rw [hfilter, List.nil_append, hall]
      simp only [henter, hnot, or_false, true_and]
      exact htail
    · have hnone : tail.filter (Event.isCleanup d) = [] := by
        rw [List.filter_eq_nil_iff]
        intro e he hc
        obtain ⟨s, rfl⟩ := htail' e he
        exact hd (of_decide_eq_true hc).symm
      rw [hnone, List.append_nil, hbelow.cleanups d]
      simp only [henter, hd, false_and, false_or]
  · rw [List.pairwise_append]
    refine ⟨?_, ?_, fun a ha e _ => (hhead a ha).ordered e⟩
    · exact List.pairwise_of_forall_mem_list fun a ha e _ => (hhead a ha).ordered e
    · rw [List.pairwise_append]
      refine ⟨?_, ?_, fun a ha e he => ?_⟩
      · refine List.pairwise_of_forall_mem_list fun a ha e he => ?_
        obtain ⟨t, rfl⟩ := htests a ha
        obtain ⟨t', rfl⟩ := htests e he
        trivial
      · rw [List.pairwise_append]
        refine ⟨hbelow.ordered, ?_, fun a ha e he => ?_⟩
        · refine List.pairwise_of_forall_mem_list fun a ha e he => ?_
          obtain ⟨s, rfl⟩ := htail' a ha
          obtain ⟨s', rfl⟩ := htail' e he
          exact fun _ => rfl
        · obtain ⟨s, rfl⟩ := htail' e he
          have hin := hbelow.inside a ha
          cases a with
          | cleanup d s' => exact fun hd => (hd.eq_of_length_le hin.1.length_le).symm
          | test d t => trivial
          | checkenv d s' => trivial
          | enterSetup d => trivial
          | setup d s' => trivial
      · obtain ⟨t, rfl⟩ := htests a ha
        rcases List.mem_append.mp he with he | he
        · have hin := hbelow.inside e he
          cases e with
          | setup q s => exact fun hq => hin.2 (hq.eq_of_length_le hin.1.length_le)
          | test q t' => trivial
          | checkenv q s => trivial
          | enterSetup q => trivial
          | cleanup q s => trivial
        · obtain ⟨s, rfl⟩ := htail' e he
          trivial
  · rcases hmem e he with he | he | he | he
    · exact hfh e he hf
    · obtain ⟨t, rfl⟩ := htests e he
      cases hf
    · exact hfb (hbelow.failed e he hf)
    · exact hft e he hf

/-- The blocks of some subdirectories. -/
theorem block_children {child : Name → Bool × List Event} (names : List Name) (hnodup : names.Nodup)
    (h : ∀ n ∈ names, Block root (p ++ [n] <+: ·) (child n).1 (child n).2) :
    Block root (fun d => ∃ n ∈ names, p ++ [n] <+: d) ((names.map child).any Prod.fst) ((names.map child).flatMap Prod.snd) := by
  induction names with
  | nil => exact Block.nil _ _
  | cons n names ih =>
    rw [List.nodup_cons] at hnodup
    have h₁ := h n List.mem_cons_self
    have h₂ := ih hnodup.2 fun m hm => h m (List.mem_cons_of_mem n hm)
    rw [List.map_cons, List.any_cons, List.flatMap_cons]
    refine (h₁.append h₂ ?_ ?_).widen (fun d => ?_) (fun d q _ hq _ => ?_)
    · rintro d q hd ⟨m, hm, hq⟩ hdq
      exact hnodup.1 (name_unique (hd.trans hdq) hq ▸ hm)
    · rintro d q hd ⟨m, hm, hq⟩ hqd
      exact hnodup.1 (name_unique hd (hq.trans hqd) ▸ hm)
    · rintro (hd | ⟨m, hm, hd⟩)
      · exact ⟨n, List.mem_cons_self, hd⟩
      · exact ⟨m, List.mem_cons_of_mem n hm, hd⟩
    · obtain ⟨m, hm, hq⟩ := hq
      rcases List.mem_cons.mp hm with rfl | hm
      · exact Or.inl hq
      · exact Or.inr ⟨m, hm, hq⟩

/-- The start directory and what is below it. -/
theorem executeindir_block (sel : Selection) (t : Tree Dir) : ∀ p, root.at p = t →
    Block root (p <+: ·) (executeindir sel (startOptions sel) t p).1 (executeindir sel (startOptions sel) t p).2 := by
  induction t with
  | missing => exact fun p _ => Block.nil _ _
  | node dir sub ih =>
    intro p hp
    have hdir : (root.at p).dir = dir := by rw [hp]; rfl
    have hsub : ∀ n, root.at (p ++ [n]) = sub n := fun n => by rw [Tree.at_append, hp]; rfl
    rw [executeindir_node, inDir]
    by_cases hmark : dir.failMark = true
    · rw [if_pos hmark]
      exact Block.nil _ _
    · rw [if_neg hmark, startOptions_eq, optionLoop_vks, ← startOptions_eq]
      have hhead : ∀ e ∈ headLog dir p, e.isHead p := fun e he => isHead_headLog he
      cases hr : dir.reachesSetup with
      | false =>
        have hnot : .enterSetup p ∉ headLog dir p := by
          rw [enterSetup_mem_headLog, hr]
          simp
        have hb : Block root (p <+: ·) true (headLog dir p ++ ([] ++ ([] ++ []))) := Block.wrap hhead (fun e he => by cases he)
          (Block.nil _ false) (if_neg hnot).symm (fun h => absurd rfl h) (fun _ _ _ => rfl) (fun _ => rfl) (fun _ _ _ => rfl)
        simpa using hb
      | true =>
        have hin : .enterSetup p ∈ headLog dir p := enterSetup_mem_headLog.mpr ⟨rfl, hr⟩
        have htail : cleanupLog dir p = if .enterSetup p ∈ headLog dir p then cleanupLog (root.at p).dir p else [] := by
          rw [if_pos hin, hdir]
        rw [if_pos rfl]
        cases hs : dir.setups.all Script.ok with
        | false =>
          rw [optionLoop_failed _ _ _ _ hs]
          have hb : Block root (p <+: ·) true (headLog dir p ++ ([] ++ ([] ++ cleanupLog dir p))) := Block.wrap hhead
            (fun e he => by cases he) (Block.nil _ false) htail (fun h => absurd rfl h) (fun _ _ _ => rfl) (fun _ => rfl) (fun _ _ _ => rfl)
          simpa using hb
        | true =>
          rw [optionLoop_rest _ _ _ _ hs, List.append_assoc]
          have hbelow : Block root (Below p)
              ((subRuns sel dir p fun n => executeindir sel (startOptions sel) (sub n) (p ++ [n])).any Prod.fst)
              ((subRuns sel dir p fun n => executeindir sel (startOptions sel) (sub n) (p ++ [n])).flatMap Prod.snd) := by
            unfold subRuns
            split
            · refine (block_children _ (dir.subdirs.2.filter _) fun n _ => ih n _ (hsub n)).widen ?_ ?_
              · rintro d ⟨n, -, hd⟩
                exact below_of_name hd
              · rintro d q ⟨n, hn, hd⟩ hq hqd
                exact ⟨n, hn, name_of_below hd hq hqd⟩
            · exact Block.nil _ _
          refine Block.wrap hhead (fun e he => ?_) hbelow htail (fun _ => ?_) (fun e he hf => ?_) (fun hf => ?_) (fun e he hf => ?_)
          · split at he
            · obtain ⟨t, -, rfl⟩ := List.mem_map.mp he
              exact ⟨t, rfl⟩
            · cases he
          · rw [hdir]
            exact fun s hmem => setup_mem_headLog hr hs hmem
          · have hno := failed_headLog he hf
            rw [hr, hs] at hno
            cases hno
          · simp [hf]
          · obtain ⟨s, hmem, rfl⟩ := List.mem_map.mp he
            have hany : (dir.cleanups.any fun s => !s.ok) = true := List.any_eq_true.mpr ⟨s, hmem, hf⟩
            simp [hany]

/-! ## The directories above -/

variable {sel : Selection}

/-- A directory above whose setup has succeeded, around what is below it. -/
theorem nested_of_ok {dir : Dir} {sub : Name → Tree Dir} (ht : root.at p = .node dir sub) {n : Name} {ns : List Name}
    (hmark : dir.failMark = false) (hok : (dir.reachesSetup && dir.setups.all Script.ok) = true) : nested sel root p (n :: ns) =
      ((nested sel root (p ++ [n]) ns).1 || dir.cleanups.any fun s => !s.ok,
        headLog dir p ++ ([] ++ ((nested sel root (p ++ [n]) ns).2 ++ cleanupLog dir p))) := by
  rw [nested, ht]
  simp only [executeindir_vks, executeindir_c, hmark, Bool.false_eq_true, if_false, hok, Bool.not_true, List.nil_append]

theorem nested_of_failed {dir : Dir} {sub : Name → Tree Dir} (ht : root.at p = .node dir sub) {n : Name} {ns : List Name}
    (hmark : dir.failMark = false) (hok : (dir.reachesSetup && dir.setups.all Script.ok) = false) : nested sel root p (n :: ns) =
      (true, headLog dir p ++ ([] ++ ([] ++ cleanupLog dir p))) := by
  rw [nested, ht]
  simp only [executeindir_vks, executeindir_c, hmark, Bool.false_eq_true, if_false, hok, Bool.not_false, if_true, List.nil_append,
    Bool.true_or]

theorem nested_of_mark {dir : Dir} {sub : Name → Tree Dir} (ht : root.at p = .node dir sub) {n : Name} {ns : List Name}
    (hmark : dir.failMark = true) : nested sel root p (n :: ns) = (true, []) := by
  rw [nested, ht]
  simp only [executeindir_vks, executeindir_c, hmark, if_true, List.nil_append, Bool.true_or]

theorem nested_of_missing (ht : root.at p = .missing) {n : Name} {ns : List Name} :
    nested sel root p (n :: ns) = nested sel root (p ++ [n]) ns := by
  rw [nested, ht]
  simp [executeindir]

theorem failed_cleanupLog {dir : Dir} {e : Event} (he : e ∈ cleanupLog dir p) (hf : e.failed = true) :
    (dir.cleanups.any fun s => !s.ok) = true := by
  obtain ⟨s, hmem, rfl⟩ := List.mem_map.mp he
  exact List.any_eq_true.mpr ⟨s, hmem, hf⟩

theorem nested_block (ns : List Name) : ∀ p, ParentsOk root (parentsFrom p ns) →
    Block root (p <+: ·) (nested sel root p ns).1 (nested sel root p ns).2 := by
  induction ns with
  | nil => exact fun p _ => executeindir_block sel _ p rfl
  | cons n ns ih =>
    intro p hparents
    rw [parentsFrom, ParentsOk] at hparents
    have hbelow : ParentsOk root (parentsFrom (p ++ [n]) ns) →
        Block root (Below p) (nested sel root (p ++ [n]) ns).1 (nested sel root (p ++ [n]) ns).2 := fun hrest =>
      (ih _ hrest).widen (fun _ hd => below_of_name hd) fun _ _ hd hq hqd => name_of_below hd hq hqd
    cases ht : root.at p with
    | missing =>
      rw [ht] at hparents
      have hb : Block root (p <+: ·) (nested sel root (p ++ [n]) ns).1 ([] ++ ([] ++ ((nested sel root (p ++ [n]) ns).2 ++ []))) := by
        refine Block.wrap (fun e he => by cases he) (fun e he => by cases he) (hbelow (hparents rfl)) rfl (fun _ s hs => ?_)
          (fun e he => by cases he) id (fun e he => by cases he)
        rw [ht] at hs
        cases hs
      rw [nested_of_missing ht]
      simpa using hb
    | node dir sub =>
      have hdir : (root.at p).dir = dir := by rw [ht]; rfl
      rw [hdir] at hparents
      have hhead : ∀ e ∈ headLog dir p, e.isHead p := fun e he => isHead_headLog he
      cases hmark : dir.failMark with
      | true =>
        rw [nested_of_mark ht hmark]
        exact Block.nil _ _
      | false =>
        simp only [hmark, Bool.false_eq_true, if_false] at hparents
        cases hok : dir.reachesSetup && dir.setups.all Script.ok with
        | true =>
          obtain ⟨hr, hs⟩ := Bool.and_eq_true_iff.mp hok
          rw [if_pos hr] at hparents
          have hin : .enterSetup p ∈ headLog dir p := enterSetup_mem_headLog.mpr ⟨rfl, hr⟩
          rw [nested_of_ok ht hmark hok]
          refine Block.wrap hhead (fun e he => by cases he) (hbelow (hparents hs)) ?_ ?_ (fun e he hf => ?_) (fun hf => ?_)
            (fun e he hf => ?_)
          · rw [if_pos hin, hdir]
          · rw [hdir]
            exact fun _ s hmem => setup_mem_headLog hr hs hmem
          · have hno := failed_headLog he hf
            rw [hok] at hno
            cases hno
          · rw [hf, Bool.true_or]
          · rw [failed_cleanupLog he hf, Bool.or_true]
        | false =>
          rw [nested_of_failed ht hmark hok]
          refine Block.wrap hhead (fun e he => by cases he) (Block.nil _ false) ?_ (fun h => absurd rfl h)
            (fun _ _ _ => rfl) (fun _ => rfl) (fun _ _ _ => rfl)
          rw [hdir]
          cases hr : dir.reachesSetup with
          | true => rw [if_pos (enterSetup_mem_headLog.mpr ⟨rfl, hr⟩)]
          | false =>
            rw [hr] at hparents
            simp only [Bool.false_eq_true, if_false] at hparents
            rw [cleanupLog, hparents, List.map_nil]
            split <;> rfl

/-- A directory above that is not set up properly has cleanup scripts, which run. -/
theorem nested_unpaired (ns : List Name) : ∀ p, ¬ParentsOk root (parentsFrom p ns) →
    ∃ q s, p <+: q ∧ .cleanup q s ∈ (nested sel root p ns).2 ∧ .enterSetup q ∉ (nested sel root p ns).2 := by
  induction ns with
  | nil => exact fun p h => absurd trivial h
  | cons n ns ih =>
    intro p hparents
    rw [parentsFrom, ParentsOk] at hparents
    cases ht : root.at p with
    | missing =>
      rw [ht] at hparents
      obtain ⟨q, s, hq, hclean, henter⟩ := ih _ fun hrest => hparents fun _ => hrest
      rw [nested_of_missing ht]
      exact ⟨q, s, (below_of_name hq).1, hclean, henter⟩
    | node dir sub =>
      have hdir : (root.at p).dir = dir := by rw [ht]; rfl
      rw [hdir] at hparents
      cases hmark : dir.failMark with
      | true => simp [hmark] at hparents
      | false =>
        simp only [hmark, Bool.false_eq_true, if_false] at hparents
        cases hr : dir.reachesSetup with
        | true =>
          rw [hr, if_pos rfl, Classical.not_imp] at hparents
          obtain ⟨hs, hrest⟩ := hparents
          obtain ⟨q, s, hq, hclean, henter⟩ := ih _ hrest
          rw [nested_of_ok ht hmark (Bool.and_eq_true_iff.mpr ⟨hr, hs⟩)]
          refine ⟨q, s, (below_of_name hq).1, ?_, ?_⟩
          · exact List.mem_append_right _ (List.mem_append_right _ (List.mem_append_left _ hclean))
          · simp only [List.mem_append, List.not_mem_nil, false_or, not_or]
            refine ⟨fun he => ?_, henter, fun he => ?_⟩
            · exact (below_of_name hq).2 (enterSetup_mem_headLog.mp he).1
            · obtain ⟨s', -, hs'⟩ := List.mem_map.mp he
              cases hs'
        | false =>
          rw [hr] at hparents
          simp only [Bool.false_eq_true, if_false] at hparents
          obtain ⟨s, hs⟩ := List.exists_mem_of_ne_nil _ hparents
          rw [nested_of_failed ht hmark (by rw [hr, Bool.false_and])]
          refine ⟨p, s, List.prefix_rfl, ?_, ?_⟩
          · exact List.mem_append_right _ (List.mem_map_of_mem hs)
          · simp only [List.mem_append, List.not_mem_nil, false_or, not_or]
            refine ⟨fun he => ?_, fun he => ?_⟩
            · rw [enterSetup_mem_headLog, hr] at he
              cases he.2
            · obtain ⟨s', -, hs'⟩ := List.mem_map.mp he
              cases hs'

/-- Setup and cleanup are paired unless what comes before the setup fails in a directory above that has cleanup scripts. -/
theorem executeMode_paired_iff (sel : Selection) (root : Tree Dir) (start : Path) :
    Paired root (executeMode sel root start).1 (executeMode sel root start).2 ↔ ParentsOk root (parentdirs start) := by
  rw [executeMode_eq, parentdirs]
  constructor
  · intro h
    by_contra hno
    obtain ⟨q, s, -, hclean, henter⟩ : ∃ q s, [] <+: q ∧ .cleanup q s ∈ (nested sel root [] start).2 ∧
        .enterSetup q ∉ (nested sel root [] start).2 := nested_unpaired start [] hno
    have hfilter := h.cleanups q
    simp only [if_neg henter, List.filter_eq_nil_iff] at hfilter
    exact hfilter _ hclean (decide_eq_true rfl)
  · intro h
    have hb : Block root ([] <+: ·) (nested sel root [] start).1 (nested sel root [] start).2 := nested_block start [] h
    refine ⟨fun d t ht q hq => hb.setups d t ht q List.nil_prefix hq, hb.cleanups, hb.ordered, ?_⟩
    rintro ⟨e, he, hf⟩
    simp only [hb.failed e he hf, if_true]
    exact Nat.one_ne_zero

/-- The suite root has a check that fails and a cleanup script. -/
def uncheckedTree : Tree Dir :=
  .node { Dir.empty with userCheckenv := [⟨['k'], false⟩], userCleanup := [⟨['c'], true⟩] } fun _ => .node .empty fun _ => .missing

/-- The cleanup script of the suite root runs without its setup. -/
theorem not_executeMode_paired : ¬∀ (sel : Selection) (root : Tree Dir) (start : Path),
    Paired root (executeMode sel root start).1 (executeMode sel root start).2 := by
  intro H
  have h := (H ⟨true, fun _ _ => true, fun _ _ => true⟩ uncheckedTree [['a']]).cleanups []
  revert h
  decide

end ZfsTest.Stf
