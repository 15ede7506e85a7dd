import ZfsTest.Prog.Basic
import Mathlib.Data.Option.Defs

/-!
# Two runs of one program

`trace` runs a program and keeps the list of its operations. `Pair s₁ s₂ I p J` says that the runs of `p` under the two step
functions, from states related by `I`, make the same operations and end in the same way: both with a fault, or both with the same
result and states related by `J`. The rules follow the program text. `Same` is the case where the states are equal; its instances
find the proof for a program that is put together from such programs.
-/

namespace ZfsTest.Prog

variable {O : Type} {R : O → Type} {α β σ : Type}

/-- The operations of a run, and how it ends. -/
def trace (step : (o : O) → σ → Option (R o × σ)) : Prog O R α → σ → List O × Option (α × σ)
  | .ret a, s => ([], some (a, s))
  | .op o k, s =>
    match step o s with
    | none => ([o], none)
    | some (r, s') => (o :: (trace step (k r) s').1, (trace step (k r) s').2)

theorem trace_snd (step : (o : O) → σ → Option (R o × σ)) (p : Prog O R α) (s : σ) : (trace step p s).2 = exec step p s := by
  induction p generalizing s with
  | ret a => rfl
  | op o k ih =>
    rw [trace, exec]
    cases step o s with
    | none => rfl
    | some x => exact ih x.1 x.2

/-- The run of a sequence: the operations of the second part follow those of the first. -/
theorem trace_bind (step : (o : O) → σ → Option (R o × σ)) (p : Prog O R α) (f : α → Prog O R β) (s : σ) :
    trace step (p >>= f) s = match trace step p s with
      | (l, none) => (l, none)
      | (l, some (a, s')) => (l ++ (trace step (f a) s').1, (trace step (f a) s').2) := by
  induction p generalizing s with
  | ret a => rfl
  | op o k ih =>
    rw [op_bind, trace, trace]
    cases step o s with
    | none => rfl
    | some x =>
      simp only [ih]
      cases hx : trace step (k x.1) x.2 with
      | mk l y =>
        cases y with
        | none => rfl
        | some z => rfl

section

variable (step₁ step₂ : (o : O) → σ → Option (R o × σ))

/-- Both end with a fault, or both with the same result and related states. -/
def Ends (J : α → σ → σ → Prop) : Option (α × σ) → Option (α × σ) → Prop
  | none, none => True
  | some (a, s), some (b, t) => a = b ∧ J a s t
  | _, _ => False

/-- Related states stay related, and the operations are the same. -/
def Pair (I : σ → σ → Prop) (p : Prog O R α) (J : α → σ → σ → Prop) : Prop :=
  ∀ s t, I s t → (trace step₁ p s).1 = (trace step₂ p t).1 ∧ Ends J (trace step₁ p s).2 (trace step₂ p t).2

end

variable {step₁ step₂ : (o : O) → σ → Option (R o × σ)} {I I' : σ → σ → Prop} {J J' : α → σ → σ → Prop}

theorem Ends.mono {x y : Option (α × σ)} (h : Ends J x y) (hj : ∀ a s t, J a s t → J' a s t) : Ends J' x y := by
  match x, y, h with
  | none, none, _ => trivial
  | some (a, s), some (b, t), ⟨hab, hst⟩ => exact ⟨hab, hj a s t hst⟩

/-- Runs from equal states that end in equal ways. -/
theorem Ends.eq {x y : Option (α × σ)} (h : Ends (fun _ => Eq) x y) : x = y := by
  match x, y, h with
  | none, none, _ => rfl
  | some (a, s), some (b, t), ⟨hab, hst⟩ => rw [hab, hst]

theorem pair_ret {a : α} (h : ∀ s t, I s t → J a s t) : Pair step₁ step₂ I (.ret a) J := fun s t hst => ⟨rfl, rfl, h s t hst⟩

theorem pair_op {o : O} {k : R o → Prog O R α} {M : R o → σ → σ → Prop} (h : ∀ s t, I s t → Ends M (step₁ o s) (step₂ o t))
    (hk : ∀ r, Pair step₁ step₂ (M r) (k r) J) : Pair step₁ step₂ I (.op o k) J := by
  intro s t hst
  have ho := h s t hst
  rw [trace, trace]
  match hs : step₁ o s, ht : step₂ o t, ho with
  | none, none, _ => exact ⟨rfl, trivial⟩
  | some (a, s'), some (b, t'), ⟨hab, hm⟩ =>
    subst hab
    obtain ⟨hl, he⟩ := hk a s' t' hm
    exact ⟨congrArg (List.cons o) hl, he⟩

theorem pair_bind {p : Prog O R α} {f : α → Prog O R β} {M : α → σ → σ → Prop} {J : β → σ → σ → Prop}
    (hp : Pair step₁ step₂ I p M) (hf : ∀ a, Pair step₁ step₂ (M a) (f a) J) : Pair step₁ step₂ I (p >>= f) J := by
  intro s t hst
  obtain ⟨hl, he⟩ := hp s t hst
  rw [trace_bind, trace_bind]
  match hs : trace step₁ p s, ht : trace step₂ p t, hl, he with
  | (l, none), (l', none), hl, _ => exact ⟨hl, trivial⟩
  | (l, some (a, s')), (l', some (b, t')), hl, ⟨hab, hm⟩ =>
    subst hab
    obtain rfl : l = l' := hl
    obtain ⟨hl', he'⟩ := hf a s' t' hm
    exact ⟨congrArg (fun m => l ++ m) hl', he'⟩

theorem pair_call {o : O} {M : R o → σ → σ → Prop} (h : ∀ s t, I s t → Ends M (step₁ o s) (step₂ o t)) :
    Pair step₁ step₂ I (call o) M := pair_op h fun _ => pair_ret fun _ _ h => h

theorem pair_ite {b : Prop} [Decidable b] {p q : Prog O R α} (hp : Pair step₁ step₂ I p J) (hq : Pair step₁ step₂ I q J) :
    Pair step₁ step₂ I (if b then p else q) J := by
  split
  · exact hp
  · exact hq

theorem pair_mono {p : Prog O R α} (h : Pair step₁ step₂ I p J) (hi : ∀ s t, I' s t → I s t)
    (hj : ∀ a s t, J a s t → J' a s t) : Pair step₁ step₂ I' p J' := by
  intro s t hst
  obtain ⟨hl, he⟩ := h s t (hi s t hst)
  exact ⟨hl, he.mono hj⟩

/-- A fact that does not depend on the states. -/
theorem pair_fact {b : Prop} {p : Prog O R α} (h : b → Pair step₁ step₂ I p J) : Pair step₁ step₂ (fun s t => I s t ∧ b) p J :=
  fun s t hst => h hst.2 s t hst.1

/-- What holds of every state that the first run reaches. -/
theorem pair_reached {p : Prog O R α} {Q : α → σ → Prop} (h : Pair step₁ step₂ I p J)
    (hq : ∀ s t, I s t → ∀ a s', exec step₁ p s = some (a, s') → Q a s') : Pair step₁ step₂ I p fun a s t => J a s t ∧ Q a s := by
  intro s t hst
  obtain ⟨hl, he⟩ := h s t hst
  have hq' := hq s t hst
  rw [← trace_snd] at hq'
  refine ⟨hl, ?_⟩
  match hs : (trace step₁ p s).2, ht : (trace step₂ p t).2, he with
  | none, none, _ => trivial
  | some (a, s'), some (b, t'), ⟨hab, hj⟩ => exact ⟨hab, hj, hq' a s' hs⟩

/-! ## Equal states -/

/-- The states are equal, and `T` holds of them. -/
def Both (T : σ → Prop) (s t : σ) : Prop := s = t ∧ T s

/-- From equal states with the invariant `T` the two runs are the same, and keep it. -/
class Same (T : σ → Prop) (step₁ step₂ : (o : O) → σ → Option (R o × σ)) (p : Prog O R α) : Prop where
  pair : Pair step₁ step₂ (Both T) p fun _ => Both T

variable {T : σ → Prop}

theorem Pair.trace_eq {p : Prog O R α} (h : Pair step₁ step₂ I p fun _ => Both T) {s : σ} (hs : I s s) :
    trace step₁ p s = trace step₂ p s ∧ ∀ a s', exec step₁ p s = some (a, s') → T s' := by
  obtain ⟨hl, he⟩ := h s s hs
  rw [← trace_snd]
  refine ⟨Prod.ext hl (he.mono fun _ _ _ hb => hb.1).eq, fun a s' hx => ?_⟩
  rw [hx] at he
  match ht : (trace step₂ p s).2, he with
  | some (b, t), ⟨_, hb⟩ => exact hb.2

instance same_ret (a : α) : Same T step₁ step₂ (.ret a : Prog O R α) := ⟨pair_ret fun _ _ h => h⟩

instance same_pure (a : α) : Same T step₁ step₂ (pure a : Prog O R α) := same_ret a

instance same_bind (p : Prog O R α) (f : α → Prog O R β) [hp : Same T step₁ step₂ p] [hf : ∀ a, Same T step₁ step₂ (f a)] :
    Same T step₁ step₂ (p >>= f) := ⟨pair_bind hp.pair fun a => (hf a).pair⟩

instance same_ite (b : Prop) [Decidable b] (p q : Prog O R α) [hp : Same T step₁ step₂ p] [hq : Same T step₁ step₂ q] :
    Same T step₁ step₂ (if b then p else q) := by
  split
  · exact hp
  · exact hq

/-- A sequence whose second part is looked at case by case. -/
theorem Same.bind {p : Prog O R α} {f : α → Prog O R β} (hp : Same T step₁ step₂ p) (hf : ∀ a, Same T step₁ step₂ (f a)) :
    Same T step₁ step₂ (p >>= f) := same_bind p f

/-- An operation on which the two step functions agree and that keeps the invariant. -/
theorem same_call {o : O} (ho : step₁ o = step₂ o) (ht : ∀ s r s', T s → step₂ o s = some (r, s') → T s') :
    Same T step₁ step₂ (call o) := by
  refine ⟨pair_call ?_⟩
  rintro s _ ⟨rfl, hs⟩
  rw [ho]
  match hr : step₂ o s with
  | none => trivial
  | some (a, s') => exact ⟨rfl, rfl, ht s a s' hs hr⟩

end ZfsTest.Prog
