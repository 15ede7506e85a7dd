import Mathlib.Logic.Function.Basic

/-!
# Programs over an interface, their runs and their weakest preconditions

A program (`Prog O R α`) is a tree of operations `o : O`, each continued by its result `R o`. It is written once and
run by any handler: `exec step` runs it alone, one operation after the other, on a state (`step o s = none` is a
fault: the run has no result). `Wp step p Q s` says that the run of `p` from `s` ends, with a result and a state that
satisfy `Q`, and `Wlp step p Q s` that it does so if it ends; the rules (`wp_ret`, `wp_op`, `wp_bind`, `wp_mono`) follow
the program text.
-/

namespace ZfsTest

/-- A program: a result, or an operation and what follows each of its results. -/
inductive Prog (O : Type) (R : O → Type) (α : Type) : Type
  | ret (a : α) : Prog O R α
  | op (o : O) (k : R o → Prog O R α) : Prog O R α

namespace Prog

variable {O : Type} {R : O → Type} {α β γ σ : Type}

/-- Sequencing: `f` continues every result of `p`. -/
def bind : Prog O R α → (α → Prog O R β) → Prog O R β
  | .ret a, f => f a
  | .op o k, f => .op o fun r => bind (k r) f

instance : Monad (Prog O R) where
  pure := .ret
  bind := bind

/-- One operation. -/
def call (o : O) : Prog O R (R o) := .op o .ret

@[simp] theorem pure_eq (a : α) : (pure a : Prog O R α) = .ret a := rfl

@[simp] theorem ret_bind (a : α) (f : α → Prog O R β) : (Prog.ret a >>= f) = f a := rfl

@[simp] theorem op_bind (o : O) (k : R o → Prog O R α) (f : α → Prog O R β) :
    (Prog.op o k >>= f) = .op o fun r => k r >>= f := rfl

@[simp] theorem call_bind (o : O) (f : R o → Prog O R β) : (call o >>= f) = .op o f := rfl

/-- Sequencing is associative. -/
theorem bind_assoc (p : Prog O R α) (f : α → Prog O R β) (g : β → Prog O R γ) :
    (p >>= f) >>= g = p >>= fun a => f a >>= g := by
  induction p with
  | ret a => rfl
  | op o k ih =>
    simp only [op_bind]
    congr 1
    funext r
    exact ih r

/-- Sequencing with `ret` changes nothing. -/
theorem bind_ret (p : Prog O R α) : (p >>= Prog.ret) = p := by
  induction p with
  | ret a => rfl
  | op o k ih =>
    simp only [op_bind]
    congr 1
    funext r
    exact ih r

/-! ## Runs -/

/-- The run of a program alone; `none` when an operation faults. -/
def exec (step : (o : O) → σ → Option (R o × σ)) : Prog O R α → σ → Option (α × σ)
  | .ret a, s => some (a, s)
  | .op o k, s =>
    match step o s with
    | none => none
    | some (r, s') => exec step (k r) s'

variable {step : (o : O) → σ → Option (R o × σ)}

@[simp] theorem exec_ret (a : α) (s : σ) : exec step (.ret a : Prog O R α) s = some (a, s) := rfl

theorem exec_op (o : O) (k : R o → Prog O R α) (s : σ) :
    exec step (.op o k) s = (step o s).bind fun x => exec step (k x.1) x.2 := by
  rw [exec]
  cases step o s with
  | none => rfl
  | some x => rfl

/-- The run of a sequence is the sequence of the runs. -/
theorem exec_bind (p : Prog O R α) (f : α → Prog O R β) (s : σ) :
    exec step (p >>= f) s = (exec step p s).bind fun x => exec step (f x.1) x.2 := by
  induction p generalizing s with
  | ret a => rfl
  | op o k ih =>
    rw [op_bind, exec_op, exec_op]
    cases step o s with
    | none => rfl
    | some x => exact ih x.1 x.2

/-! ## Weakest preconditions -/

/-- The run of `p` from `s` ends, with a result and a state that satisfy `Q`. -/
def Wp (step : (o : O) → σ → Option (R o × σ)) (p : Prog O R α) (Q : α → σ → Prop) (s : σ) : Prop :=
  ∃ a s', exec step p s = some (a, s') ∧ Q a s'

@[simp] theorem wp_ret {a : α} {Q : α → σ → Prop} {s : σ} : Wp step (.ret a : Prog O R α) Q s ↔ Q a s := by
  constructor
  · rintro ⟨b, s', h, hq⟩
    cases h
    exact hq
  · exact fun h => ⟨a, s, rfl, h⟩

theorem wp_op {o : O} {k : R o → Prog O R α} {Q : α → σ → Prop} {s : σ} :
    Wp step (.op o k) Q s ↔ ∃ r s', step o s = some (r, s') ∧ Wp step (k r) Q s' := by
  unfold Wp
  rw [exec_op]
  cases h : step o s with
  | none => simp
  | some x =>
    simp only [Option.bind_some, Option.some.injEq]
    constructor
    · rintro ⟨a, s', he, hq⟩
      exact ⟨x.1, x.2, rfl, a, s', he, hq⟩
    · rintro ⟨r, s₁, rfl, a, s', he, hq⟩
      exact ⟨a, s', he, hq⟩

/-- An operation whose step is known. -/
theorem wp_op_of {o : O} {k : R o → Prog O R α} {Q : α → σ → Prop} {s s' : σ} {r : R o}
    (h : step o s = some (r, s')) : Wp step (.op o k) Q s ↔ Wp step (k r) Q s' := by
  rw [wp_op]
  constructor
  · rintro ⟨r', s'', h', hw⟩
    rw [h] at h'
    cases h'
    exact hw
  · exact fun hw => ⟨r, s', h, hw⟩

/-- A sequence: the postcondition of the first part is the precondition of the second. -/
theorem wp_bind {p : Prog O R α} {f : α → Prog O R β} {Q : β → σ → Prop} {s : σ} :
    Wp step (p >>= f) Q s ↔ Wp step p (fun a => Wp step (f a) Q) s := by
  unfold Wp
  rw [exec_bind]
  constructor
  · rintro ⟨b, s', he, hq⟩
    rw [Option.bind_eq_some_iff] at he
    obtain ⟨⟨a, s₁⟩, h₁, h₂⟩ := he
    exact ⟨a, s₁, h₁, b, s', h₂, hq⟩
  · rintro ⟨a, s₁, h₁, b, s', h₂, hq⟩
    exact ⟨b, s', by rw [h₁]; exact h₂, hq⟩

/-- Two programs with the same run. -/
theorem wp_congr {p q : Prog O R α} {Q : α → σ → Prop} {s t : σ} (h : exec step p s = exec step q t) :
    Wp step p Q s ↔ Wp step q Q t := by
  unfold Wp
  rw [h]

/-- A weaker postcondition. -/
theorem wp_mono {p : Prog O R α} {Q Q' : α → σ → Prop} {s : σ} (h : Wp step p Q s)
    (hq : ∀ a s', Q a s' → Q' a s') : Wp step p Q' s := by
  obtain ⟨a, s', he, h'⟩ := h
  exact ⟨a, s', he, hq a s' h'⟩

/-- Two postconditions of the same run. -/
theorem wp_and {p : Prog O R α} {Q Q' : α → σ → Prop} {s : σ} (h : Wp step p Q s) (h' : Wp step p Q' s) :
    Wp step p (fun a s' => Q a s' ∧ Q' a s') s := by
  obtain ⟨a, s₁, he, hq⟩ := h
  obtain ⟨b, s₂, he', hq'⟩ := h'
  rw [he] at he'
  cases he'
  exact ⟨a, s₁, he, hq, hq'⟩

/-- A call whose specification is known, followed by the rest. -/
theorem wp_seq {p : Prog O R α} {f : α → Prog O R β} {Q : β → σ → Prop} {P : α → σ → Prop} {s : σ}
    (h : Wp step p P s) (hf : ∀ a s', P a s' → Wp step (f a) Q s') : Wp step (p >>= f) Q s :=
  wp_bind.mpr (wp_mono h hf)

/-- If the run of `p` from `s` ends without a fault, its result and its state satisfy `Q`. -/
def Wlp (step : (o : O) → σ → Option (R o × σ)) (p : Prog O R α) (Q : α → σ → Prop) (s : σ) : Prop :=
  ∀ a s', exec step p s = some (a, s') → Q a s'

@[simp] theorem wlp_ret {a : α} {Q : α → σ → Prop} {s : σ} : Wlp step (.ret a : Prog O R α) Q s ↔ Q a s := by
  constructor
  · exact fun h => h a s rfl
  · rintro h b s' he
    cases he
    exact h

/-- An operation that may fault. -/
theorem wlp_op {o : O} {k : R o → Prog O R α} {Q : α → σ → Prop} {s : σ} :
    Wlp step (.op o k) Q s ↔ ∀ r s', step o s = some (r, s') → Wlp step (k r) Q s' := by
  unfold Wlp
  rw [exec_op]
  cases h : step o s with
  | none => simp
  | some x =>
    constructor
    · rintro hall r s' hstep a s'' he
      cases hstep
      exact hall a s'' he
    · exact fun hall a s' he => hall x.1 x.2 rfl a s' he

/-- What a run gave satisfies its postcondition. -/
theorem Wp.post {p : Prog O R α} {Q : α → σ → Prop} {s s' : σ} {a : α} (h : Wp step p Q s)
    (he : exec step p s = some (a, s')) : Q a s' := by
  obtain ⟨b, s₁, h₁, hq⟩ := h
  rw [he] at h₁
  cases h₁
  exact hq

end Prog

end ZfsTest
