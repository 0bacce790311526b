import LazyMount.Lib.Annotated

/-! Programs cut short: the states that a run passes between its steps, and what holds in them. -/

namespace Prog

variable {ℓ σ ε α γ : Type}

/-- The run from `s` is in `t` before its first step, between two, or at its end. -/
def Passed : Prog ℓ σ ε α → σ → σ → Prop
  | done _, s, t => t = s
  | step _ upd k, s, t => t = s ∨ Passed (k s) (upd s) t

variable {m : Prog ℓ σ ε α} {s t : σ}

theorem Within.passed {S : ℓ → (σ → σ) → Prop} {R : σ → σ → Prop} {I : σ → Prop} (hm : Within S R m)
    (hI : ∀ l upd, S l upd → ∀ s, I s → I (upd s)) (hs : I s) (h : Passed m s t) : I t := by
  induction m generalizing s with
  | done r =>
    rw [Passed] at h
    rwa [h]
  | step l upd k ih =>
    rcases h with rfl | h
    · exact hs
    · exact ih s (hm.2.2 s) (hI l upd hm.1 s hs) h

theorem Annotated.passed {I : σ → Prop} {rule : γ → ℓ → (σ → σ) → (σ → γ) → Prop} {T : γ → α → Prop} {g : γ}
    {A : γ → σ → Prop} (hm : Annotated I rule T g m) (hI : ∀ g s, A g s → I s)
    (hA : ∀ g l upd next s, rule g l upd next → A g s → A (next s) (upd s)) (hs : A g s) (h : Passed m s t) :
    ∃ g', A g' t := by
  induction m generalizing g s with
  | done r =>
    rw [Passed] at h
    exact ⟨g, by rwa [h]⟩
  | step l upd k ih =>
    obtain ⟨next, hr, hk⟩ := hm
    rcases h with rfl | h
    · exact ⟨g, hs⟩
    · exact ih s (hk s (hI g s hs)) (hA g l upd next s hr hs) h

end Prog
