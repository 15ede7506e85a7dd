import ZfsTest.Prog.Pair

/-!
# Properties of programs that sequencing keeps

A property `Φ` of programs is `Modular` when it holds of every result and of a sequence whose parts have it. `Has Φ p` says that
`p` has it; its instances follow the program text, so that only the operations and the loops of a program need a proof. `Keeps` says
that the states before and after a run are in a relation, `Gives` that its result is of a kind, `Within` that its operations are.
-/

namespace ZfsTest.Prog

variable {O : Type} {R : O → Type} {α β σ : Type}

/-- The property holds of results and of sequences. -/
class Modular (Φ : (α : Type) → Prog O R α → Prop) : Prop where
  ret : ∀ {α : Type} (a : α), Φ α (.ret a)
  bind : ∀ {α β : Type} {p : Prog O R α} {f : α → Prog O R β}, Φ α p → (∀ a, Φ β (f a)) → Φ β (p >>= f)

/-- The program has the property. -/
class Has (Φ : (α : Type) → Prog O R α → Prop) (p : Prog O R α) : Prop where
  has : Φ α p

section

variable {Φ : (α : Type) → Prog O R α → Prop} [hΦ : Modular Φ]

instance has_ret (a : α) : Has Φ (.ret a : Prog O R α) := ⟨hΦ.ret a⟩

instance has_pure (a : α) : Has Φ (pure a : Prog O R α) := has_ret a

instance has_bind (p : Prog O R α) (f : α → Prog O R β) [hp : Has Φ p] [hf : ∀ a, Has Φ (f a)] : Has Φ (p >>= f) :=
  ⟨hΦ.bind hp.has fun a => (hf a).has⟩

omit hΦ in
instance has_ite (b : Prop) [Decidable b] (p q : Prog O R α) [hp : Has Φ p] [hq : Has Φ q] : Has Φ (if b then p else q) := by
  split
  · exact hp
  · exact hq

/-- A sequence whose second part is looked at case by case. -/
theorem Has.bind {p : Prog O R α} {f : α → Prog O R β} (hp : Has Φ p) (hf : ∀ a, Has Φ (f a)) : Has Φ (p >>= f) := has_bind p f

end

/-! ## Relations that runs keep -/

/-- The states before and after a run are related. -/
def Keeps (step : (o : O) → σ → Option (R o × σ)) (K : σ → σ → Prop) (α : Type) (p : Prog O R α) : Prop :=
  ∀ s a s', exec step p s = some (a, s') → K s s'

variable {step : (o : O) → σ → Option (R o × σ)} {K : σ → σ → Prop}

/-- The run of one operation is its step. -/
theorem exec_call (o : O) (s : σ) : exec step (call o) s = step o s := by
  rw [call, exec_op]
  cases step o s with
  | none => rfl
  | some x => rfl

/-- A run of a sequence is a run of its first part and then one of its second. -/
theorem exec_bind_some {p : Prog O R α} {f : α → Prog O R β} {s s' : σ} {b : β} (he : exec step (p >>= f) s = some (b, s')) :
    ∃ a t, exec step p s = some (a, t) ∧ exec step (f a) t = some (b, s') := by
  rw [exec_bind, Option.bind_eq_some_iff] at he
  obtain ⟨⟨a, t⟩, h₁, h₂⟩ := he
  exact ⟨a, t, h₁, h₂⟩

theorem keeps_modular (hrefl : ∀ s, K s s) (htrans : ∀ s t u, K s t → K t u → K s u) : Modular (Keeps step K) := by
  constructor
  · intro α a s b s' he
    cases he
    exact hrefl s
  · intro α β p f hp hf s b s' he
    obtain ⟨a, t, h₁, h₂⟩ := exec_bind_some he
    exact htrans s t s' (hp s a t h₁) (hf a t b s' h₂)

/-- A sequence whose parts keep different relations. -/
theorem keeps_seq {K₁ K₂ K₃ : σ → σ → Prop} {Q : α → Prop} {p : Prog O R α} {f : α → Prog O R β} (hp : Keeps step K₁ α p)
    (hg : ∀ s a s', exec step p s = some (a, s') → Q a) (hf : ∀ a, Q a → Keeps step K₂ β (f a))
    (htrans : ∀ s t u, K₁ s t → K₂ t u → K₃ s u) : Keeps step K₃ β (p >>= f) := by
  intro s b s' he
  obtain ⟨a, t, h₁, h₂⟩ := exec_bind_some he
  exact htrans s t s' (hp s a t h₁) (hf a (hg s a t h₁) t b s' h₂)

/-- A sequence whose parts keep different relations, whatever the first one returns. -/
theorem keeps_bind {K₁ K₂ K₃ : σ → σ → Prop} {p : Prog O R α} {f : α → Prog O R β} (hp : Keeps step K₁ α p)
    (hf : ∀ a, Keeps step K₂ β (f a)) (htrans : ∀ s t u, K₁ s t → K₂ t u → K₃ s u) : Keeps step K₃ β (p >>= f) :=
  keeps_seq (Q := fun _ => True) hp (fun _ _ _ _ => trivial) (fun a _ => hf a) htrans

/-- One operation keeps what its step keeps. -/
theorem keeps_call {o : O} (h : ∀ s r s', step o s = some (r, s') → K s s') : Keeps step K (R o) (call o) := by
  intro s r s' he
  rw [exec_call] at he
  exact h s r s' he

/-- What every run keeps, this run keeps. -/
theorem Has.keeps {p : Prog O R α} [hp : Has (Keeps step K) p] {s s' : σ} {a : α} (he : exec step p s = some (a, s')) : K s s' :=
  hp.has s a s' he

/-- An operation that only reads, and whose result is known where the relation promises anything. -/
theorem has_known {I : σ → Prop} {J : σ → σ → Prop} {o : O} {f : R o → Prog O R α} {v : R o}
    (hv : ∀ s r s', I s → step o s = some (r, s') → r = v ∧ s' = s) (hf : Has (Keeps step fun s s' => I s → J s s') (f v)) :
    Has (Keeps step fun s s' => I s → J s s') (call o >>= f) := by
  constructor
  intro s a s' he hi
  obtain ⟨r, t, h₁, h₂⟩ := exec_bind_some he
  rw [exec_call] at h₁
  obtain ⟨rfl, rfl⟩ := hv s r t hi h₁
  exact hf.keeps h₂ hi

/-! ## The results of runs -/

/-- Every result satisfies `P`. -/
def Gives (step : (o : O) → σ → Option (R o × σ)) (P : α → Prop) (p : Prog O R α) : Prop :=
  ∀ s a s', exec step p s = some (a, s') → P a

variable {Q : α → Prop} {Q' : β → Prop}

theorem gives_ret {a : α} (ha : Q a) : Gives step Q (.ret a : Prog O R α) := by
  intro s b s' he
  cases he
  exact ha

theorem gives_seq {p : Prog O R α} {f : α → Prog O R β} (hp : Gives step Q p) (hf : ∀ a, Q a → Gives step Q' (f a)) :
    Gives step Q' (p >>= f) := by
  intro s b s' he
  obtain ⟨a, t, h₁, h₂⟩ := exec_bind_some he
  exact hf a (hp s a t h₁) t b s' h₂

/-- A sequence gives what its second part gives. -/
theorem gives_bind {p : Prog O R α} {f : α → Prog O R β} (hf : ∀ a, Gives step Q' (f a)) : Gives step Q' (p >>= f) :=
  gives_seq (Q := fun _ => True) (fun _ _ _ _ => trivial) fun a _ => hf a

/-! ## The operations of runs -/

/-- Every operation of a run is one of `P`. -/
def Within (step : (o : O) → σ → Option (R o × σ)) (P : O → Prop) (α : Type) (p : Prog O R α) : Prop :=
  ∀ s, ∀ o ∈ (trace step p s).1, P o

variable {P : O → Prop}

theorem within_modular : Modular (Within step P) := by
  constructor
  · intro α a s o ho
    cases ho
  · intro α β p f hp hf s o ho
    have hps := hp s
    rw [trace_bind] at ho
    match ht : trace step p s, ho with
    | (l, none), ho => exact hps o (by rwa [ht])
    | (l, some (a, s')), ho =>
      rcases List.mem_append.mp ho with ho | ho
      · exact hps o (by rwa [ht])
      · exact hf a s' o ho

theorem within_call {o : O} (ho : P o) : Within step P (R o) (call o) := by
  intro s o' h
  have hl : (trace step (call o) s).1 = [o] := by
    rw [call, trace]
    cases step o s with
    | none => rfl
    | some x => rfl
  rw [hl, List.mem_singleton] at h
  exact h ▸ ho

end ZfsTest.Prog
