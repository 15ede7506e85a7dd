import Mathlib.Data.List.Pairwise
import ZfsTest.Stf.Configure

/-!
# Failures of the configuration

A failure in a run of `stf_configure` should be told by the exit status, and its directory should have a file `FAIL` (`NeverSilent`).
Not every failure gets as far as that: when the directory for the configuration cannot be made, or an environment file or a generated
file cannot be read, `stf_configureindir` returns on the spot, and `gen_fail` exits. The run is silent about a failure just in these cases
(`configure_neverSilent_iff`).

The log of a run is that of its visits to directories (`Covers`), and every place is visited once.
-/

namespace ZfsTest.Stf

/-! ## Silence and visits -/

/-- The mark `FAIL` of a directory after an event. -/
def markStep (d : Path) (b : Bool) : ConfEvent → Bool
  | .rmFail p => if p = d then false else b
  | .fail p => if p = d then true else b
  | .step _ _ _ | .exit _ => b

/-- Whether a directory is marked in the end. -/
def marked (marks : Path → Bool) (log : List ConfEvent) (d : Path) : Bool := log.foldl (markStep d) (marks d)

/-- The configuration directory was there, or has been made. -/
def HasConfdir (confdir : Path → Bool) (start : Path) (log : List ConfEvent) (d : Path) : Prop :=
  confdir d = true ∨ .step d .mkdir true ∈ log ∨ (d <+: start ∧ (confdir start = true ∨ .step start .mkdir true ∈ log))

/-- A failure is told by the exit status, and its directory is marked when that is possible; and a marked directory is not executed.
Without a failure the exit status is zero. -/
structure NeverSilent (confdir marks : Path → Bool) (start : Path) (exit : Nat) (log : List ConfEvent) : Prop where
  told : ∀ p k, .step p k false ∈ log → exit ≠ 0
  mark : ∀ p k, .step p k false ∈ log → HasConfdir confdir start log p → marked marks log p = true
  skipped : ∀ p, marked marks log p = true → ∀ (sel : Selection) (opts : List Opt) (dir : Dir) (sub : Name → Tree Dir),
    executeindir sel opts (.node { dir with failMark := marked marks log p } sub) p = (true, [])
  success : (∀ p k, .step p k false ∉ log) → exit = 0

/-- A directory in which `stf_configureindir` runs: where it is, what it holds, and whether test cases are generated. -/
structure Visit where
  path : Path
  dir : ConfDir
  generates : Bool

def Visit.silent (v : Visit) : Bool := v.dir.silent v.generates
def Visit.loud (v : Visit) : Bool := v.dir.loud v.generates

section

variable (confdir : Path → Bool)

/-- The configuration directory is there or can be made. -/
def Visit.made (v : Visit) : Bool := confdir v.path || v.dir.mkdir

/-- A directory and what is configured below it. -/
def visitsBelow : Tree ConfDir → Path → List Visit
  | .missing, _ => []
  | .node dir sub, p =>
    ⟨p, dir, true⟩ :: if (confdir p || dir.mkdir) && dir.enters then dir.subdirs.1.flatMap fun n => visitsBelow (sub n) (p ++ [n]) else []

def visitAbove : Tree ConfDir → Path → List Visit
  | .missing, _ => []
  | .node dir _, p => [⟨p, dir, false⟩]

/-- All directories that are configured. -/
def visits (root : Tree ConfDir) (start : Path) : List Visit :=
  ((parentdirs start).flatMap fun p => visitAbove (root.at p) p) ++ visitsBelow (withStart confdir start) (root.at start) start

/-- No directory with a configuration directory fails silently, and when a configuration directory cannot be made there is another
failure that is not silent. -/
def NoSilentFailure (root : Tree ConfDir) (start : Path) : Prop :=
  (∀ v ∈ visits confdir root start, v.made (withStart confdir start) = true → v.silent = false) ∧
    ((∃ v ∈ visits confdir root start, v.made (withStart confdir start) = false) →
      ∃ v ∈ visits confdir root start, v.made (withStart confdir start) = true ∧ v.loud = true)

end

/-! ## What the steps of a directory tell -/

section

variable (dir : ConfDir) {p : Path}

/-- A step of the directory that fails. -/
def IsFailure (p : Path) (e : ConfEvent) : Prop := ∃ k, k ≠ .mkdir ∧ e = .step p k false

/-- A stage that logs a failure exactly when it fails, and logs nothing but its steps. -/
structure Faithful (p : Path) (x : Bool × List ConfEvent) : Prop where
  failure : (∃ e ∈ x.2, IsFailure p e) ↔ x.1 = false
  steps : ∀ e ∈ x.2, ∃ k ok, k ≠ .mkdir ∧ e = .step p k ok

theorem faithful_runUntil {k : Name → Step} (hk : ∀ n, k n ≠ .mkdir) (ss : List Script) :
    Faithful p (ss.all Script.ok, (runUntil (scriptStep p k) ss).2) := by
  constructor
  · constructor
    · rintro ⟨e, he, k', -, rfl⟩
      obtain ⟨s, hs, heq⟩ := mem_runUntil he
      have hok : s.ok = false := (ConfEvent.step.inj heq).2.2.symm
      rw [Bool.eq_false_iff]
      intro hall
      rw [List.all_eq_true.mp hall s hs] at hok
      cases hok
    · intro hall
      simp only at hall
      induction ss with
      | nil => cases hall
      | cons s ss ih =>
        rw [runUntil]
        by_cases hs : s.ok = true
        · rw [if_pos hs]
          rw [List.all_cons, hs, Bool.true_and] at hall
          obtain ⟨e, he, hf⟩ := ih hall
          exact ⟨e, List.mem_cons_of_mem _ he, hf⟩
        · rw [if_neg hs]
          rw [Bool.not_eq_true] at hs
          exact ⟨_, List.mem_singleton_self _, k s.name, hk _, by rw [scriptStep, hs]⟩
  · intro e he
    obtain ⟨s, -, rfl⟩ := mem_runUntil he
    exact ⟨k s.name, s.ok, hk _, rfl⟩

theorem Faithful.append {a b : Bool} {x y : List ConfEvent} (hx : Faithful p (a, x)) (hy : Faithful p (b, y)) :
    Faithful p (a && b, x ++ y) := by
  constructor
  · rw [Bool.and_eq_false_iff, ← hx.failure, ← hy.failure]
    constructor
    · rintro ⟨e, he, hf⟩
      exact (List.mem_append.mp he).imp (fun h => ⟨e, h, hf⟩) fun h => ⟨e, h, hf⟩
    · rintro (⟨e, he, hf⟩ | ⟨e, he, hf⟩)
      · exact ⟨e, List.mem_append_left _ he, hf⟩
      · exact ⟨e, List.mem_append_right _ he, hf⟩
  · intro e he
    exact (List.mem_append.mp he).elim (hx.steps e) (hy.steps e)

theorem faithful_nil : Faithful p (true, []) := by
  refine ⟨⟨?_, fun h => by cases h⟩, fun e he => by cases he⟩
  rintro ⟨e, he, -⟩
  cases he

theorem faithful_single {k : Step} (hk : k ≠ .mkdir) (ok : Bool) : Faithful p (ok, [.step p k ok]) := by
  refine ⟨⟨?_, ?_⟩, fun e he => ⟨k, ok, hk, List.mem_singleton.mp he⟩⟩
  · rintro ⟨e, he, k', -, rfl⟩
    exact (ConfEvent.step.inj (List.mem_singleton.mp he)).2.2.symm
  · rintro rfl
    exact ⟨_, List.mem_singleton_self _, k, hk, rfl⟩

/-- A stage that goes on only after its first step. -/
theorem Faithful.after {a b : Bool} {x y : List ConfEvent} (hx : Faithful p (a, x)) (hy : Faithful p (b, y)) :
    Faithful p (a && b, x ++ if a then y else []) := by
  by_cases ha : a = true
  · rw [if_pos ha]
    exact hx.append hy
  · rw [if_neg ha, List.append_nil]
    rw [Bool.not_eq_true] at ha
    rw [ha] at hx ⊢
    exact hx

/-- A stage that does not go on after an exit. -/
theorem Faithful.unless {a b e : Bool} {x y : List ConfEvent} (hx : Faithful p (a, x)) (he : e = true → a = false)
    (hy : Faithful p (b, y)) : Faithful p (a && b, x ++ if e then [] else y) := by
  by_cases h : e = true
  · rw [if_pos h, List.append_nil, he h, Bool.false_and]
    exact he h ▸ hx
  · rw [if_neg h]
    exact hx.append hy

theorem faithful_chain {xs : List (Bool × List ConfEvent)} (h : ∀ x ∈ xs, Faithful p x) :
    Faithful p (xs.all Prod.fst, chain xs) := by
  induction xs with
  | nil => exact faithful_nil
  | cons x xs ih =>
    exact (h x List.mem_cons_self).after (ih fun y hy => h y (List.mem_cons_of_mem x hy))

theorem faithful_stages (g : Bool) : ∀ x ∈ stages dir p g, Faithful p x := by
  have henv : Faithful p (dir.envOk, envLog dir p) := faithful_runUntil (fun _ h => by cases h) _
  have hcheck : Faithful p (dir.checkOk, confCheckLog dir p) := faithful_runUntil (fun _ h => by cases h) _
  have hvars : Faithful p (dir.varsOk, varsLog dir p) := by
    unfold varsLog ConfDir.varsOk
    cases dir.createVars with
    | noVariables => exact faithful_nil
    | failed => exact faithful_single (fun h => by cases h) _
    | created => exact faithful_single (fun h => by cases h) _
  have hconf : Faithful p (dir.confOk, confLog dir p) :=
    (faithful_single (fun h => by cases h) _).after (faithful_runUntil (fun _ h => by cases h) _)
  have hsource : Faithful p (dir.sourced, sourceLog dir p) := by
    have h := (faithful_single (p := p) (k := .sourceVars) (fun h => by cases h) dir.sourceVars).after
      ((faithful_single (p := p) (k := .sourceStf) (fun h => by cases h) dir.sourceStf).after
        (faithful_single (p := p) (k := .sourceSuite) (fun h => by cases h) dir.sourceSuite))
    rw [← Bool.and_assoc] at h
    exact h
  have hgen : Faithful p (dir.genOk, genLog dir p) := by
    have hlists := (faithful_runUntil (p := p) (k := .generator) (fun _ h => by cases h) (dir.generators.map Generation.script)).unless
      all_of_exitsIn ((faithful_runUntil (p := p) (k := .casefile) (fun _ h => by cases h) (dir.rootCasefiles.map Generation.script)).unless
        all_of_exitsIn (faithful_runUntil (p := p) (k := .casefile) (fun _ h => by cases h) (dir.userCasefiles.map Generation.script)))
    have hstatic := faithful_single (p := p) (k := .static) (fun h => by cases h) dir.static
    rw [← Bool.and_assoc, ← List.all_append, ← List.all_append, ← List.map_append, ← List.map_append] at hlists
    unfold ConfDir.genOk genLog
    cases hm : dir.modes with
    | false =>
      have h := hstatic.after faithful_nil
      simpa using h
    | true =>
      have h := hstatic.after hlists
      simpa using h
  intro x hx
  rcases List.mem_append.mp hx with hx | hx
  · simp only [List.mem_cons, List.not_mem_nil, or_false] at hx
    rcases hx with rfl | rfl | rfl | rfl | rfl
    · exact henv
    · exact hvars
    · exact hcheck
    · exact hconf
    · exact hsource
  · split at hx
    · rw [List.mem_singleton.mp hx]
      exact hgen
    · cases hx

/-- A step of a directory fails exactly when the directory fails silently or not silently. -/
theorem stages_all_iff (g : Bool) : (stages dir p g).all Prod.fst = false ↔ dir.silent g = true ∨ dir.loud g = true := by
  have hexits : dir.exits = true → dir.genOk = false := genOk_of_exits dir
  have hall : (stages dir p g).all Prod.fst = (dir.envOk && dir.middleOk && dir.sourced && (!g || dir.genOk)) := by
    cases g <;> simp [stages, ConfDir.middleOk, Bool.and_assoc]
  rw [hall, ConfDir.silent, ConfDir.loud, ConfDir.exited]
  generalize dir.exits = e at hexits ⊢
  generalize dir.genOk = o at hexits ⊢
  cases e with
  | true =>
    rw [hexits rfl]
    cases g <;> cases dir.envOk <;> cases dir.middleOk <;> cases dir.sourced <;> simp
  | false => cases g <;> cases o <;> cases dir.envOk <;> cases dir.middleOk <;> cases dir.sourced <;> simp

theorem not_silent_and_loud (g : Bool) : ¬(dir.silent g = true ∧ dir.loud g = true) := by
  unfold ConfDir.silent ConfDir.loud ConfDir.exited
  cases dir.envOk <;> cases dir.middleOk <;> cases dir.sourced <;> cases dir.exits <;> simp

end

/-! ## Visits and the log -/

section

variable (confdir : Path → Bool)

/-- What a visit does before the subdirectories, and after them. -/
def Visit.head (v : Visit) : List ConfEvent :=
  if confdir v.path then .rmFail v.path :: chain (stages v.dir v.path v.generates)
  else if v.dir.mkdir then .step v.path .mkdir true :: .rmFail v.path :: chain (stages v.dir v.path v.generates)
  else [.step v.path .mkdir false]

def Visit.tail (v : Visit) : List ConfEvent := if v.made confdir then endLog v.dir v.path v.generates else []

theorem configureindir_above (dir : ConfDir) (sub : Name → Tree ConfDir) (p : Path) :
    configureindir confdir aboveOptions (.node dir sub) p =
      Visit.head confdir ⟨p, dir, false⟩ ++ Visit.tail confdir ⟨p, dir, false⟩ := by
  rw [configureindir, confInDir, confLoop_aboveOptions, Visit.head, Visit.tail, Visit.made]
  cases confdir p <;> cases dir.mkdir <;> simp

theorem configureindir_below (dir : ConfDir) (sub : Name → Tree ConfDir) (p : Path) :
    configureindir confdir belowOptions (.node dir sub) p = Visit.head confdir ⟨p, dir, true⟩ ++
      ((if (confdir p || dir.mkdir) && dir.enters then
          dir.subdirs.1.flatMap fun n => configureindir confdir belowOptions (sub n) (p ++ [n])
        else []) ++ Visit.tail confdir ⟨p, dir, true⟩) := by
  rw [configureindir, confInDir, confLoop_belowOptions, Visit.head, Visit.tail, Visit.made]
  cases confdir p <;> cases dir.mkdir <;> simp

variable {confdir} {v : Visit}

theorem Visit.mem_head {e : ConfEvent} (h : e ∈ v.head confdir) :
    e = .rmFail v.path ∨ ∃ k ok, e = .step v.path k ok ∧ (k = .mkdir → ok = v.made confdir) := by
  have hchain : e ∈ chain (stages v.dir v.path v.generates) →
      e = .rmFail v.path ∨ ∃ k ok, e = .step v.path k ok ∧ (k = .mkdir → ok = v.made confdir) := by
    intro he
    obtain ⟨k, ok, hk, rfl⟩ := (faithful_chain (faithful_stages v.dir v.generates)).steps e he
    exact Or.inr ⟨k, ok, rfl, fun h => absurd h hk⟩
  unfold Visit.head at h
  split at h
  · rcases List.mem_cons.mp h with rfl | h
    · exact Or.inl rfl
    · exact hchain h
  · rename_i hc
    split at h
    · rename_i hm
      rcases List.mem_cons.mp h with rfl | h
      · exact Or.inr ⟨.mkdir, true, rfl, fun _ => by rw [Visit.made, hm, Bool.or_true]⟩
      · rcases List.mem_cons.mp h with rfl | h
        · exact Or.inl rfl
        · exact hchain h
    · rename_i hm
      rw [List.mem_singleton.mp h]
      refine Or.inr ⟨.mkdir, false, rfl, fun _ => ?_⟩
      rw [Visit.made, Bool.eq_false_iff.mpr hc, Bool.eq_false_iff.mpr hm, Bool.false_or]

theorem Visit.mem_tail {e : ConfEvent} (h : e ∈ v.tail confdir) :
    v.made confdir = true ∧ (e = .fail v.path ∧ v.loud = true ∨ e = .exit v.path ∧ v.silent = true) := by
  unfold Visit.tail endLog failLog at h
  split at h
  · rename_i hm
    refine ⟨hm, ?_⟩
    split at h
    · rename_i hexited
      exact Or.inr ⟨List.mem_singleton.mp h, by rw [Visit.silent, ConfDir.silent, hexited, Bool.or_true]⟩
    · split at h
      · rename_i hl
        exact Or.inl ⟨List.mem_singleton.mp h, hl⟩
      · cases h
  · cases h

theorem Visit.fail_mem_tail (hm : v.made confdir = true) (hl : v.loud = true) : .fail v.path ∈ v.tail confdir := by
  have hexited : v.dir.exited v.generates = false := by
    rw [Bool.eq_false_iff]
    intro hexited
    exact not_silent_and_loud v.dir v.generates ⟨by rw [ConfDir.silent, hexited, Bool.or_true], hl⟩
  rw [Visit.tail, if_pos hm, endLog, hexited, if_neg Bool.false_ne_true, failLog, ← Visit.loud, if_pos hl]
  exact List.mem_singleton_self _

theorem Visit.head_of_made (hm : v.made confdir = true) : .rmFail v.path ∈ v.head confdir ∧
    (∀ e ∈ chain (stages v.dir v.path v.generates), e ∈ v.head confdir) ∧
    (confdir v.path = true ∨ .step v.path .mkdir true ∈ v.head confdir) := by
  unfold Visit.head
  by_cases hc : confdir v.path = true
  · rw [if_pos hc]
    exact ⟨List.mem_cons_self, fun e he => List.mem_cons_of_mem _ he, Or.inl hc⟩
  · have hmk : v.dir.mkdir = true := by
      rw [Visit.made, Bool.eq_false_iff.mpr hc, Bool.false_or] at hm
      exact hm
    rw [if_neg hc, if_pos hmk]
    exact ⟨List.mem_cons_of_mem _ List.mem_cons_self, fun e he => List.mem_cons_of_mem _ (List.mem_cons_of_mem _ he),
      Or.inr List.mem_cons_self⟩

theorem Visit.head_of_not_made (hm : v.made confdir = false) : v.head confdir = [.step v.path .mkdir false] := by
  rw [Visit.made, Bool.or_eq_false_iff] at hm
  rw [Visit.head, hm.1, hm.2]
  rfl

/-- A failed step of a visit with a configuration directory makes it silent or not silent. -/
theorem Visit.failure_iff (hm : v.made confdir = true) :
    (∃ k, .step v.path k false ∈ v.head confdir) ↔ v.silent = true ∨ v.loud = true := by
  have hchain := (faithful_chain (faithful_stages (p := v.path) v.dir v.generates)).failure
  rw [stages_all_iff] at hchain
  rw [Visit.silent, Visit.loud, ← hchain]
  constructor
  · rintro ⟨k, hk⟩
    have hne : k ≠ .mkdir := by
      intro hmk
      rcases Visit.mem_head hk with h | ⟨k', ok, h, hok⟩
      · cases h
      · have hk' : k = k' := (ConfEvent.step.inj h).2.1
        have hfalse : false = ok := (ConfEvent.step.inj h).2.2
        rw [hok (hk' ▸ hmk), hm] at hfalse
        cases hfalse
    refine ⟨_, ?_, k, hne, rfl⟩
    unfold Visit.head at hk
    split at hk
    · rcases List.mem_cons.mp hk with h | h
      · cases h
      · exact h
    · split at hk
      · rcases List.mem_cons.mp hk with h | h
        · cases h
        · rcases List.mem_cons.mp h with h | h
          · cases h
          · exact h
      · exact absurd (ConfEvent.step.inj (List.mem_singleton.mp hk)).2.1 hne
  · rintro ⟨e, he, k, -, rfl⟩
    exact ⟨k, (Visit.head_of_made hm).2.1 _ he⟩

end

/-- A mark that has been made stays. -/
def KeepsMark (a e : ConfEvent) : Prop := ∀ p, a = .fail p → e ≠ .rmFail p

/-- The visits of a region and the log of what they do. -/
structure Covers (confdir : Path → Bool) (region : Path → Prop) (vs : List Visit) (log : List ConfEvent) : Prop where
  inside : ∀ v ∈ vs, region v.path
  distinct : vs.Pairwise fun v w => v.path ≠ w.path
  mem : ∀ e, e ∈ log ↔ ∃ v ∈ vs, e ∈ v.head confdir ∨ e ∈ v.tail confdir
  order : log.Pairwise KeepsMark

section

variable {confdir : Path → Bool} {p : Path}

theorem Covers.nil (region : Path → Prop) : Covers confdir region [] [] := by
  refine ⟨fun v h => (by cases h), List.Pairwise.nil, fun e => ⟨fun h => (by cases h), ?_⟩, List.Pairwise.nil⟩
  rintro ⟨v, hv, -⟩
  cases hv

/-- An event of the log is about a place in the region. -/
theorem Covers.path {region : Path → Prop} {vs : List Visit} {log : List ConfEvent} (h : Covers confdir region vs log)
    {e : ConfEvent} (he : e ∈ log) : region e.path := by
  obtain ⟨v, hv, he | he⟩ := (h.mem e).mp he
  · rcases Visit.mem_head he with rfl | ⟨k, ok, rfl, -⟩
    · exact h.inside v hv
    · exact h.inside v hv
  · rcases (Visit.mem_tail he).2 with ⟨rfl, -⟩ | ⟨rfl, -⟩
    · exact h.inside v hv
    · exact h.inside v hv

theorem Covers.widen {region region' : Path → Prop} {vs : List Visit} {log : List ConfEvent} (h : Covers confdir region vs log)
    (hsub : ∀ d, region d → region' d) : Covers confdir region' vs log :=
  ⟨fun v hv => hsub _ (h.inside v hv), h.distinct, h.mem, h.order⟩

theorem Covers.append {r₁ r₂ : Path → Prop} {vs₁ vs₂ : List Visit} {log₁ log₂ : List ConfEvent} (h₁ : Covers confdir r₁ vs₁ log₁)
    (h₂ : Covers confdir r₂ vs₂ log₂) (hdisj : ∀ d, r₁ d → ¬r₂ d) :
    Covers confdir (fun d => r₁ d ∨ r₂ d) (vs₁ ++ vs₂) (log₁ ++ log₂) where
  inside v hv := (List.mem_append.mp hv).imp (h₁.inside v) (h₂.inside v)
  distinct := by
    rw [List.pairwise_append]
    exact ⟨h₁.distinct, h₂.distinct, fun v hv w hw he => hdisj _ (h₁.inside v hv) (he ▸ h₂.inside w hw)⟩
  mem e := by
    rw [List.mem_append, h₁.mem, h₂.mem]
    constructor
    · rintro (⟨v, hv, he⟩ | ⟨v, hv, he⟩)
      · exact ⟨v, List.mem_append_left _ hv, he⟩
      · exact ⟨v, List.mem_append_right _ hv, he⟩
    · rintro ⟨v, hv, he⟩
      exact (List.mem_append.mp hv).imp (fun hv => ⟨v, hv, he⟩) fun hv => ⟨v, hv, he⟩
  order := by
    rw [List.pairwise_append]
    refine ⟨h₁.order, h₂.order, fun a ha e he p hp hr => ?_⟩
    have hpa : r₁ p := by
      have := h₁.path ha
      rwa [hp] at this
    have hpe : r₂ p := by
      have := h₂.path he
      rwa [hr] at this
    exact hdisj p hpa hpe

/-- A directory around what is configured below it. -/
theorem Covers.visit {v : Visit} {vs : List Visit} {log : List ConfEvent} (h : Covers confdir (Below v.path) vs log) :
    Covers confdir (v.path <+: ·) (v :: vs) (v.head confdir ++ (log ++ v.tail confdir)) where
  inside w hw := by
    rcases List.mem_cons.mp hw with rfl | hw
    · exact List.prefix_rfl
    · exact (h.inside w hw).1
  distinct := List.pairwise_cons.mpr ⟨fun w hw he => (h.inside w hw).2 he.symm, h.distinct⟩
  mem e := by
    rw [List.mem_append, List.mem_append, h.mem]
    constructor
    · rintro (he | ⟨w, hw, he⟩ | he)
      · exact ⟨v, List.mem_cons_self, Or.inl he⟩
      · exact ⟨w, List.mem_cons_of_mem v hw, he⟩
      · exact ⟨v, List.mem_cons_self, Or.inr he⟩
    · rintro ⟨w, hw, he⟩
      rcases List.mem_cons.mp hw with rfl | hw
      · exact he.imp id Or.inr
      · exact Or.inr (Or.inl ⟨w, hw, he⟩)
  order := by
    have hhead : ∀ a ∈ v.head confdir, ∀ e, KeepsMark a e := by
      rintro a ha e p rfl
      rcases Visit.mem_head ha with h | ⟨k, ok, h, -⟩ <;> cases h
    have htail : ∀ e ∈ v.tail confdir, ∀ a, KeepsMark a e := by
      rintro e he a p - rfl
      rcases (Visit.mem_tail he).2 with ⟨h, -⟩ | ⟨h, -⟩ <;> cases h
    rw [List.pairwise_append]
    refine ⟨List.pairwise_of_forall_mem_list fun a ha e _ => hhead a ha e, ?_, fun a ha e _ => hhead a ha e⟩
    rw [List.pairwise_append]
    exact ⟨h.order, List.pairwise_of_forall_mem_list fun a _ e he => htail e he a, fun a _ e he => htail e he a⟩

theorem covers_subdirs {visit : Name → List Visit} {run : Name → List ConfEvent} (names : List Name) (hnodup : names.Nodup)
    (h : ∀ n ∈ names, Covers confdir (p ++ [n] <+: ·) (visit n) (run n)) :
    Covers confdir (fun d => ∃ n ∈ names, p ++ [n] <+: d) (names.flatMap visit) (names.flatMap run) := by
  induction names with
  | nil => exact Covers.nil _
  | cons n names ih =>
    rw [List.nodup_cons] at hnodup
    have h₁ := h n List.mem_cons_self
    have h₂ := ih hnodup.2 fun m hm => h m (List.mem_cons_of_mem n hm)
    rw [List.flatMap_cons, List.flatMap_cons]
    refine (h₁.append h₂ ?_).widen ?_
    · rintro d hd ⟨m, hm, hd'⟩
      exact hnodup.1 (name_unique hd hd' ▸ hm)
    · rintro d (hd | ⟨m, hm, hd⟩)
      · exact ⟨n, List.mem_cons_self, hd⟩
      · exact ⟨m, List.mem_cons_of_mem n hm, hd⟩

theorem covers_below (t : Tree ConfDir) : ∀ p, Covers confdir (p <+: ·) (visitsBelow confdir t p)
    (configureindir confdir belowOptions t p) := by
  induction t with
  | missing => exact fun p => Covers.nil _
  | node dir sub ih =>
    intro p
    rw [configureindir_below, visitsBelow]
    refine Covers.visit (v := ⟨p, dir, true⟩) ?_
    split
    · refine (covers_subdirs _ dir.subdirs.2 fun n _ => ih n (p ++ [n])).widen ?_
      rintro d ⟨n, -, hd⟩
      exact below_of_name hd
    · exact Covers.nil _

/-- The directories above a start directory, from `p`, and the start directory. -/
theorem covers_from (root : Tree ConfDir) (start : Path) (ns : List Name) : ∀ p, p ++ ns = start → Covers confdir (p <+: ·)
    (((parentsFrom p ns).flatMap fun q => visitAbove (root.at q) q) ++ visitsBelow confdir (root.at start) start)
    (((parentsFrom p ns).flatMap fun q => configureindir confdir aboveOptions (root.at q) q) ++
      configureindir confdir belowOptions (root.at start) start) := by
  induction ns with
  | nil =>
    rintro p rfl
    rw [List.append_nil]
    exact covers_below _ p
  | cons n ns ih =>
    intro p hp
    rw [parentsFrom, List.flatMap_cons, List.flatMap_cons, List.append_assoc, List.append_assoc]
    have hbelow := (ih (p ++ [n]) (by rw [← hp, List.append_assoc, List.singleton_append])).widen fun d hd => below_of_name hd
    cases ht : root.at p with
    | missing => exact hbelow.widen fun d hd => hd.1
    | node dir sub =>
      have hv : Covers confdir (fun d => d = p) [⟨p, dir, false⟩]
          (Visit.head confdir ⟨p, dir, false⟩ ++ ([] ++ Visit.tail confdir ⟨p, dir, false⟩)) := by
        have hnil : Covers confdir (Below p) [] [] := Covers.nil (Below p)
        have h := Covers.visit (v := ⟨p, dir, false⟩) hnil
        exact ⟨fun w hw => by rw [List.mem_singleton.mp hw], h.distinct, h.mem, h.order⟩
      rw [configureindir_above, visitAbove]
      refine (hv.append hbelow fun d hd hbelow => hbelow.2 hd).widen ?_
      rintro d (rfl | hd)
      · exact List.prefix_rfl
      · exact hd.1

end

/-- All directories that are configured. -/
theorem covers_all (confdir : Path → Bool) (root : Tree ConfDir) (start : Path) :
    Covers (withStart confdir start) ([] <+: ·) (visits confdir root start) (configureAll confdir root start) :=
  covers_from root start start [] rfl

/-! ## Marks -/

theorem marked_cons (marks : Path → Bool) (e : ConfEvent) (log : List ConfEvent) (d : Path) :
    marked marks (e :: log) d = marked (fun q => markStep q (marks q) e) log d := rfl

theorem marked_of_fail {d : Path} (log : List ConfEvent) : ∀ marks : Path → Bool, log.Pairwise KeepsMark →
    .fail d ∈ log ∨ (marks d = true ∧ .rmFail d ∉ log) → marked marks log d = true := by
  induction log with
  | nil =>
    rintro marks - (h | h)
    · cases h
    · exact h.1
  | cons e log ih =>
    intro marks horder h
    rw [List.pairwise_cons] at horder
    rw [marked_cons]
    apply ih _ horder.2
    rcases h with h | ⟨hm, hr⟩
    · rcases List.mem_cons.mp h with rfl | h
      · exact Or.inr ⟨if_pos rfl, fun hr => horder.1 _ hr d rfl rfl⟩
      · exact Or.inl h
    · refine Or.inr ⟨?_, fun h => hr (List.mem_cons_of_mem e h)⟩
      cases e with
      | rmFail p =>
        have hp : p ≠ d := by
          rintro rfl
          exact hr List.mem_cons_self
        exact (if_neg hp).trans hm
      | fail p =>
        simp only [markStep]
        split
        · rfl
        · exact hm
      | step p k ok => exact hm
      | exit p => exact hm

theorem marked_of_rmFail {d : Path} (log : List ConfEvent) : ∀ marks : Path → Bool, .fail d ∉ log →
    .rmFail d ∈ log ∨ marks d = false → marked marks log d = false := by
  induction log with
  | nil =>
    rintro marks - (h | h)
    · cases h
    · exact h
  | cons e log ih =>
    intro marks hf h
    rw [marked_cons]
    refine ih _ (fun h => hf (List.mem_cons_of_mem e h)) ?_
    cases e with
    | rmFail p =>
      by_cases hp : p = d
      · exact Or.inr (if_pos hp)
      · rcases h with h | h
        · rcases List.mem_cons.mp h with h | h
          · exact absurd (ConfEvent.rmFail.inj h).symm hp
          · exact Or.inl h
        · exact Or.inr ((if_neg hp).trans h)
    | fail p =>
      have hp : p ≠ d := by
        rintro rfl
        exact hf List.mem_cons_self
      rcases h with h | h
      · rcases List.mem_cons.mp h with h | h
        · cases h
        · exact Or.inl h
      · exact Or.inr ((if_neg hp).trans h)
    | step p k ok => exact h.imp (fun h => (List.mem_cons.mp h).resolve_left fun h => by cases h) id
    | exit p => exact h.imp (fun h => (List.mem_cons.mp h).resolve_left fun h => by cases h) id

/-! ## The two directions -/

section

variable {confdir : Path → Bool} {root : Tree ConfDir} {start : Path}

/-- The visit to a place. -/
theorem visit_unique {v w : Visit} (hv : v ∈ visits confdir root start) (hw : w ∈ visits confdir root start)
    (h : v.path = w.path) : v = w := by
  have hd := ((covers_all confdir root start).distinct).imp (S := fun v w : Visit => v.path = w.path → v = w)
    fun hne he => absurd he hne
  have : Std.Symm fun v w : Visit => v.path = w.path → v = w := ⟨fun _ _ hs he => (hs he.symm).symm⟩
  exact List.Pairwise.forall_of_forall (fun _ _ _ => rfl) hd hv hw h

theorem mem_configureAll {v : Visit} (hv : v ∈ visits confdir root start) {e : ConfEvent}
    (he : e ∈ v.head (withStart confdir start) ∨ e ∈ v.tail (withStart confdir start)) : e ∈ configureAll confdir root start :=
  ((covers_all confdir root start).mem e).mpr ⟨v, hv, he⟩

/-- An entry in `fail_list` is that of a directory with a failure that is not silent. -/
theorem fail_mem_iff {p : Path} : .fail p ∈ configureAll confdir root start ↔
    ∃ v ∈ visits confdir root start, v.path = p ∧ v.made (withStart confdir start) = true ∧ v.loud = true := by
  constructor
  · intro he
    obtain ⟨v, hv, he | he⟩ := ((covers_all confdir root start).mem _).mp he
    · rcases Visit.mem_head he with h | ⟨k, ok, h, -⟩ <;> cases h
    · obtain ⟨hm, ⟨heq, hl⟩ | ⟨heq, -⟩⟩ := Visit.mem_tail he
      · exact ⟨v, hv, (ConfEvent.fail.inj heq).symm, hm, hl⟩
      · cases heq
  · rintro ⟨v, hv, rfl, hm, hl⟩
    exact mem_configureAll hv (Or.inr (Visit.fail_mem_tail hm hl))

/-- A shell exits in a directory that fails silently. -/
theorem exit_mem {p : Path} (h : .exit p ∈ configureAll confdir root start) :
    ∃ v ∈ visits confdir root start, v.made (withStart confdir start) = true ∧ v.silent = true := by
  obtain ⟨v, hv, he | he⟩ := ((covers_all confdir root start).mem _).mp h
  · rcases Visit.mem_head he with h | ⟨k, ok, h, -⟩ <;> cases h
  · obtain ⟨hm, ⟨heq, -⟩ | ⟨-, hs⟩⟩ := Visit.mem_tail he
    · cases heq
    · exact ⟨v, hv, hm, hs⟩

theorem step_mem {p : Path} {k : Step} {ok : Bool} (h : .step p k ok ∈ configureAll confdir root start) :
    ∃ v ∈ visits confdir root start, v.path = p ∧ .step v.path k ok ∈ v.head (withStart confdir start) ∧
      (k = .mkdir → ok = v.made (withStart confdir start)) := by
  obtain ⟨v, hv, he | he⟩ := ((covers_all confdir root start).mem _).mp h
  · rcases Visit.mem_head he with h | ⟨k', ok', h, hmk⟩
    · cases h
    · obtain ⟨rfl, rfl, rfl⟩ := ConfEvent.step.inj h
      exact ⟨v, hv, rfl, he, hmk⟩
  · rcases (Visit.mem_tail he).2 with ⟨h, -⟩ | ⟨h, -⟩ <;> cases h

theorem failList_iff {log : List ConfEvent} : failList log = true ↔ ∃ p, .fail p ∈ log := by
  rw [failList, List.any_eq_true]
  constructor
  · rintro ⟨e, he, h⟩
    cases e with
    | fail p => exact ⟨p, he⟩
    | step p k ok => cases h
    | rmFail p => cases h
    | exit p => cases h
  · rintro ⟨p, hp⟩
    exact ⟨_, hp, rfl⟩

/-- A visit in which something fails. -/
theorem failure_mem (hloud : NoSilentFailure confdir root start) {p : Path} {k : Step}
    (h : .step p k false ∈ configureAll confdir root start) :
    ∃ v ∈ visits confdir root start, v.path = p ∧ (v.made (withStart confdir start) = true → v.loud = true) := by
  obtain ⟨v, hv, hp, hmem, -⟩ := step_mem h
  refine ⟨v, hv, hp, fun hm => ?_⟩
  rcases (Visit.failure_iff hm).mp ⟨k, hmem⟩ with hs | hl
  · rw [hloud.1 v hv hm] at hs
    cases hs
  · exact hl

/-- A directory on `fail_list` has a step that fails. -/
theorem exists_failure {p : Path} (h : .fail p ∈ configureAll confdir root start) :
    ∃ k, .step p k false ∈ configureAll confdir root start := by
  obtain ⟨v, hv, rfl, hm, hl⟩ := fail_mem_iff.mp h
  obtain ⟨k, hk⟩ := (Visit.failure_iff hm).mpr (Or.inr hl)
  exact ⟨k, mem_configureAll hv (Or.inl hk)⟩

/-- What comes before the directories: nothing, or the step for the configuration directory of the start directory. -/
def Front (confdir : Path → Bool) (start : Path) (front : List ConfEvent) : Prop :=
  (confdir start = true ∧ front = []) ∨ front = [.step start .mkdir true]

theorem marked_front {front : List ConfEvent} (hfront : Front confdir start front) (marks : Path → Bool) (log : List ConfEvent)
    (d : Path) : marked marks (front ++ log) d = marked marks log d := by
  rcases hfront with ⟨-, rfl⟩ | rfl
  · rfl
  · rfl

theorem failure_front {front log : List ConfEvent} (hfront : Front confdir start front) {p : Path} {k : Step} :
    .step p k false ∈ front ++ log ↔ .step p k false ∈ log := by
  rcases hfront with ⟨-, rfl⟩ | rfl
  · rfl
  · rw [List.singleton_append, List.mem_cons]
    constructor
    · rintro (h | h)
      · cases (ConfEvent.step.inj h).2.2
      · exact h
    · exact Or.inr

/-- A visited directory has a configuration directory when it was there or has been made. -/
theorem hasConfdir_iff {front : List ConfEvent} (hfront : Front confdir start front) {v : Visit} (hv : v ∈ visits confdir root start) :
    HasConfdir confdir start (front ++ configureAll confdir root start) v.path ↔ v.made (withStart confdir start) = true := by
  have hwith : ∀ {d}, withStart confdir start d = true ↔ confdir d = true ∨ d <+: start := by
    intro d
    rw [withStart, Bool.or_eq_true, decide_eq_true_eq]
  constructor
  · rintro (h | h | ⟨h, -⟩)
    · rw [Visit.made, hwith.mpr (Or.inl h), Bool.true_or]
    · rcases List.mem_append.mp h with h | h
      · rcases hfront with ⟨-, rfl⟩ | rfl
        · cases h
        · have hp : v.path = start := (ConfEvent.step.inj (List.mem_singleton.mp h)).1
          rw [Visit.made, hwith.mpr (Or.inr (hp ▸ List.prefix_rfl)), Bool.true_or]
      · obtain ⟨w, hw, hp, -, hok⟩ := step_mem h
        rw [visit_unique hv hw hp.symm]
        exact (hok rfl).symm
    · rw [Visit.made, hwith.mpr (Or.inr h), Bool.true_or]
  · intro hm
    rcases (Visit.head_of_made hm).2.2 with h | h
    · rcases hwith.mp h with h | h
      · exact Or.inl h
      · refine Or.inr (Or.inr ⟨h, ?_⟩)
        rcases hfront with ⟨hc, rfl⟩ | rfl
        · exact Or.inl hc
        · exact Or.inr (List.mem_append_left _ (List.mem_singleton_self _))
    · exact Or.inr (Or.inl (List.mem_append_right _ (mem_configureAll hv (Or.inl h))))

/-- When no directory fails silently, the status is that of `fail_list`. -/
theorem status_eq (h : ∀ v ∈ visits confdir root start, v.made (withStart confdir start) = true → v.silent = false) :
    status start (configureAll confdir root start) = if failList (configureAll confdir root start) then 1 else 0 := by
  have hexit : .exit start ∉ configureAll confdir root start := by
    intro he
    obtain ⟨v, hv, hm, hs⟩ := exit_mem he
    rw [h v hv hm] at hs
    cases hs
  rw [status]
  simp only [hexit, false_or]

theorem neverSilent_of {marks : Path → Bool} {front : List ConfEvent} (hfront : Front confdir start front)
    (hloud : NoSilentFailure confdir root start) :
    NeverSilent confdir marks start (status start (configureAll confdir root start))
      (front ++ configureAll confdir root start) where
  told p k h := by
    rw [failure_front hfront] at h
    have hlist : failList (configureAll confdir root start) = true := by
      obtain ⟨v, hv, -, hl⟩ := failure_mem hloud h
      rw [failList_iff]
      cases hm : v.made (withStart confdir start) with
      | true => exact ⟨v.path, fail_mem_iff.mpr ⟨v, hv, rfl, hm, hl hm⟩⟩
      | false =>
        obtain ⟨w, hw, hm', hl'⟩ := hloud.2 ⟨v, hv, hm⟩
        exact ⟨w.path, fail_mem_iff.mpr ⟨w, hw, rfl, hm', hl'⟩⟩
    rw [status_eq hloud.1, if_pos hlist]
    exact Nat.one_ne_zero
  mark p k h hc := by
    rw [failure_front hfront] at h
    obtain ⟨v, hv, rfl, hl⟩ := failure_mem hloud h
    have hm := (hasConfdir_iff hfront hv).mp hc
    rw [marked_front hfront]
    exact marked_of_fail _ _ (covers_all confdir root start).order (Or.inl (fail_mem_iff.mpr ⟨v, hv, rfl, hm, hl hm⟩))
  skipped p h sel opts dir sub := by
    rw [h, executeindir_node, inDir, if_pos rfl]
  success h := by
    have hlist : failList (configureAll confdir root start) = false := by
      rw [Bool.eq_false_iff]
      intro hf
      obtain ⟨p, hp⟩ := failList_iff.mp hf
      obtain ⟨k, hk⟩ := exists_failure hp
      exact h p k ((failure_front hfront).mpr hk)
    rw [status_eq hloud.1, hlist]
    rfl

theorem noSilentFailure_of {marks : Path → Bool} {front : List ConfEvent} (hfront : Front confdir start front)
    (h : NeverSilent confdir marks start (status start (configureAll confdir root start))
      (front ++ configureAll confdir root start)) : NoSilentFailure confdir root start := by
  have hsilent : ∀ v ∈ visits confdir root start, v.made (withStart confdir start) = true → v.silent = false := by
    intro v hv hm
    rw [Bool.eq_false_iff]
    intro hs
    obtain ⟨k, hk⟩ := (Visit.failure_iff hm).mpr (Or.inl hs)
    have hmark := h.mark v.path k ((failure_front hfront).mpr (mem_configureAll hv (Or.inl hk))) ((hasConfdir_iff hfront hv).mpr hm)
    have hnot : .fail v.path ∉ configureAll confdir root start := by
      rw [fail_mem_iff]
      rintro ⟨w, hw, hp, -, hl⟩
      rw [visit_unique hw hv hp] at hl
      exact not_silent_and_loud v.dir v.generates ⟨hs, hl⟩
    rw [marked_front hfront, marked_of_rmFail _ _ hnot (Or.inl (mem_configureAll hv (Or.inl (Visit.head_of_made hm).1)))] at hmark
    cases hmark
  refine ⟨hsilent, ?_⟩
  rintro ⟨v, hv, hm⟩
  have hstep : .step v.path .mkdir false ∈ configureAll confdir root start := by
    refine mem_configureAll hv (Or.inl ?_)
    rw [Visit.head_of_not_made hm]
    exact List.mem_singleton_self _
  have htold := h.told _ _ ((failure_front hfront).mpr hstep)
  have hlist : failList (configureAll confdir root start) = true := by
    by_contra hf
    rw [status_eq hsilent, if_neg hf] at htold
    exact htold rfl
  obtain ⟨p, hp⟩ := failList_iff.mp hlist
  obtain ⟨w, hw, -, hm', hl⟩ := fail_mem_iff.mp hp
  exact ⟨w, hw, hm', hl⟩

end

/-- A directory without anything to configure. -/
def ConfDir.empty : ConfDir :=
  ⟨true, [], .noVariables, true, [], [], true, [], [], true, true, true, true, true, [], [], [], ⟨[], List.nodup_nil⟩⟩

end ZfsTest.Stf
