import LazyMount.Lib.Prog

/-! Programs under ghost notes: what a step may do depends on the notes taken so far, and each
step may add to them. -/

namespace Prog

variable {ℓ σ ε α β γ : Type}

/-- From the notes `g` every step is one that `rule` allows, and what the program returns
satisfies `T`. The states in between are any that satisfy `I`; the notes behind a step may
depend on the state it reads. -/
def Annotated (I : σ → Prop) (rule : γ → ℓ → (σ → σ) → (σ → γ) → Prop) (T : γ → α → Prop) :
    γ → Prog ℓ σ ε α → Prop
  | g, done (.ok a) => T g a
  | _, done _ => True
  | g, step l upd k => ∃ next, rule g l upd next ∧ ∀ s, I s → Annotated I rule T (next s) (k s)

variable {I : σ → Prop} {rule : γ → ℓ → (σ → σ) → (σ → γ) → Prop} {g : γ} {T T' : γ → α → Prop}
  {U : γ → β → Prop}

theorem annotated_pure {a : α} (h : T g a) : Annotated I rule T g (pure a : Prog ℓ σ ε α) := h

theorem annotated_fail (e : ε) : Annotated I rule T g (fail e : Prog ℓ σ ε α) := trivial

theorem annotated_diverge : Annotated I rule T g (diverge : Prog ℓ σ ε α) := trivial

theorem annotated_bind {m : Prog ℓ σ ε α} {f : α → Prog ℓ σ ε β} (hm : Annotated I rule T g m)
    (hf : ∀ g' a, T g' a → Annotated I rule U g' (f a)) : Annotated I rule U g (m >>= f) := by
  induction m generalizing g with
  | done r =>
    cases r with
    | ok a => exact hf g a hm
    | error | diverge => trivial
  | step l upd k ih =>
    obtain ⟨next, hr, hk⟩ := hm
    exact ⟨next, hr, fun s hs => ih s (hk s hs)⟩

theorem Annotated.mono {m : Prog ℓ σ ε α} (hm : Annotated I rule T g m)
    (h : ∀ g' a, T g' a → T' g' a) : Annotated I rule T' g m := by
  induction m generalizing g with
  | done r =>
    cases r with
    | ok a => exact h g a hm
    | error | diverge => trivial
  | step l upd k ih =>
    obtain ⟨next, hr, hk⟩ := hm
    exact ⟨next, hr, fun s hs => ih s (hk s hs)⟩

theorem annotated_map {m : Prog ℓ σ ε α} (f : α → β) (hm : Annotated I rule T g m)
    (hf : ∀ g' a, T g' a → U g' (f a)) : Annotated I rule U g (f <$> m) :=
  annotated_bind hm fun g' a ha => annotated_pure (hf g' a ha)

theorem annotated_liftExcept {r : Except ε α} (h : ∀ a, r = .ok a → T g a) :
    Annotated I rule T g (liftExcept r : Prog ℓ σ ε α) := by
  cases r with
  | ok a => exact h a rfl
  | error e => trivial

theorem annotated_atom {l : ℓ} {upd : σ → σ} {f : σ → Except ε α} {next : σ → γ}
    (hr : rule g l upd next) (hT : ∀ s a, I s → f s = .ok a → T (next s) a) :
    Annotated I rule T g (atom l upd f) :=
  ⟨next, hr, fun s hs => annotated_liftExcept fun a ha => hT s a hs ha⟩

theorem annotated_whenever {c : Bool} {m : Prog ℓ σ ε Unit} {T : γ → Unit → Prop}
    (hm : Annotated I rule T g m) (h : T g ()) : Annotated I rule T g (whenever c m) := by
  cases c with
  | true => exact hm
  | false => exact h

theorem annotated_each {xs : List β} {f : β → Prog ℓ σ ε Unit}
    (h : ∀ x, Annotated I rule (fun g' _ => g' = g) g (f x)) :
    Annotated I rule (fun g' _ => g' = g) g (each xs f) := by
  induction xs with
  | nil => exact annotated_pure rfl
  | cons x xs ih =>
    refine annotated_bind (h x) fun g' _ hg => ?_
    rw [hg]
    exact ih

theorem Within.annotated {S : ℓ → (σ → σ) → Prop} {R : σ → σ → Prop} {m : Prog ℓ σ ε α}
    {T : α → Prop} (hm : Within S R m) (hT : Returns T m)
    (h : ∀ l upd, S l upd → rule g l upd fun _ => g) :
    Annotated I rule (fun g' a => g' = g ∧ T a) g m := by
  induction m with
  | done r =>
    cases r with
    | ok a => exact ⟨rfl, hT⟩
    | error | diverge => trivial
  | step l upd k ih => exact ⟨_, h l upd hm.1, fun s _ => ih s (hm.2.2 s) (hT s)⟩

/-- An assertion about notes and state that every allowed step keeps holds when the program has
run alone. -/
theorem Annotated.run {m : Prog ℓ σ ε α} {A : γ → σ → Prop} (hm : Annotated I rule T g m)
    (hI : ∀ g s, A g s → I s)
    (hA : ∀ g l upd next s, rule g l upd next → A g s → A (next s) (upd s)) {s : σ} (hs : A g s) :
    ∃ g', A g' (m.run s).2 ∧ ∀ a, (m.run s).1 = .ok a → T g' a := by
  induction m generalizing g s with
  | done r =>
    refine ⟨g, hs, fun a ha => ?_⟩
    cases r with
    | ok b =>
      cases ha
      exact hm
    | error | diverge => cases ha
  | step l upd k ih =>
    obtain ⟨next, hr, hk⟩ := hm
    exact ih s (hk s (hI g s hs)) (hA g l upd next s hr hs)

end Prog
